import MegaCache.Engine.Refinement

/-!
# Clients that share an engine

`put`, `acquire_lease` and `renew_lease` read the clock before they take the
engine's lock, so any number of other calls may run between the two.  A client's
call is therefore two moves: `start`, which validates the arguments and reads
the clock, and `enter`, which runs the locked part.  The other calls are one move.

The history keeps, besides the engine and the calls under way, which tokens were
issued for which key, which were accepted by a `put`, and which have ended.
-/

namespace MegaCache
namespace Engine

open Prog

variable {V : Type} {c : EngineConfig V}

/-- A call whose locked part is still to run. -/
inductive Locked (V : Type)
  | put (key : Key) (leaseToken : Option String) (persistent : Bool) (p : PreparedPut V)
  | acquire (key : Key) (force : Bool)
  | renew (key : Key) (leaseToken : String)

/-- The token that a call has to present. -/
def Locked.token : Locked V → Option String
  | .put _ leaseToken _ _ => leaseToken
  | .acquire _ _ => none
  | .renew _ leaseToken => some leaseToken

/-- The token that a call renews. -/
def Locked.renewed : Locked V → Option String
  | .renew _ leaseToken => some leaseToken
  | _ => none

/-- A started call with its clock reading; `late` records that the deadline of
its token had passed by then. -/
structure Pending (V : Type) where
  locked : Locked V
  now : ℚ
  late : Bool

structure Clients (V : Type) where
  engine : Engine V
  pending : List (Pending V)
  issued : List (Key × String)
  accepted : List String
  ended : List String
  lapsed : List String

inductive Move (V : Type)
  | startPut (key : Key) (value : V) (ttlSeconds staleSeconds : Option ℤ) (tags : List Tag)
      (leaseToken : Option String) (persistent : Bool)
  | startAcquire (key : Key) (force : Bool)
  | startRenew (key : Key) (leaseToken : String)
  | enter (i : ℕ)
  | release (key : Key) (leaseToken : String)
  | delete (key : Key)
  | invalidateTags (tags : List Tag)
  | expire (key : Key) (ttlSeconds : ℤ)
  | flush
  | get (key : Key)

namespace Clients

def init : Clients V := ⟨Engine.init, [], [], [], [], []⟩

/-- The tokens issued for a key. -/
def tokensOf (s : Clients V) (key : Key) : List String :=
  (s.issued.filter fun q => q.1 = key).map Prod.snd

/-- The tokens whose deadline a reading at `now` shows to have passed.  A renewal
that read the clock before the deadline and still waits for the lock may move it. -/
def lapsedAt (s : Clients V) (now : ℚ) : List String :=
  (s.engine.leases.toList.filter fun q => q.2.untilTime ≤ now ∧
    ∀ r ∈ s.pending, r.locked.renewed = some q.2.token → q.2.untilTime ≤ r.now).map
      fun q => q.2.token

/-- A call that has read the clock joins the calls under way. -/
def join (s : Clients V) (engine : Engine V) (locked : Locked V) (now : ℚ) : Clients V :=
  let lapsed := s.lapsed ++ s.lapsedAt now
  { s with
    engine := engine
    lapsed := lapsed
    pending := s.pending ++ [⟨locked, now, locked.token.any (· ∈ lapsed)⟩] }

/-- The validation of a call and its clock reading, outside the lock. -/
def start (c : EngineConfig V) (s : Clients V) (prepare : EngineM V (Locked V)) : Clients V :=
  match (do let locked ← prepare; let now ← readClock c; pure (locked, now) :
      EngineM V (Locked V × ℚ)) s.engine with
  | (.error _, engine) => { s with engine := engine }
  | (.ok (locked, now), engine) => s.join engine locked now

/-- The locked part of a call. -/
def enter (c : EngineConfig V) (s : Clients V) (q : Pending V) : Clients V :=
  match q.locked with
  | .put key leaseToken persistent p =>
    match putLocked c key leaseToken persistent p q.now s.engine with
    | (.error _, engine) => { s with engine := engine }
    | (.ok _, engine) =>
      { s with
        engine := engine
        accepted := leaseToken.toList ++ s.accepted
        ended := s.tokensOf key ++ s.ended }
  | .acquire key force =>
    match acquireLocked c key force q.now s.engine with
    | (.error _, engine) => { s with engine := engine }
    | (.ok r, engine) =>
      { s with
        engine := engine
        issued := (r.leaseToken.toList.map fun token => (key, token)) ++ s.issued }
  | .renew key leaseToken =>
    { s with engine := (renewLocked c key leaseToken q.now s.engine).2 }

def apply (c : EngineConfig V) (s : Clients V) : Move V → Clients V
  | .startPut key value ttlSeconds staleSeconds tags leaseToken persistent =>
    s.start c do
      let p ← preparePut c key value ttlSeconds staleSeconds tags persistent true
      pure (.put key leaseToken persistent p)
  | .startAcquire key force =>
    s.start c do
      validateKey key
      pure (.acquire key force)
  | .startRenew key leaseToken =>
    s.start c do
      validateKey key
      pure (.renew key leaseToken)
  | .enter i =>
    match s.pending[i]? with
    | none => s
    | some q => { s with pending := s.pending.eraseIdx i }.enter c q
  | .release key leaseToken =>
    match releaseLease key leaseToken s.engine with
    | (.ok true, engine) => { s with engine := engine, ended := leaseToken :: s.ended }
    | (_, engine) => { s with engine := engine }
  | .delete key =>
    match Engine.delete key s.engine with
    | (.ok _, engine) => { s with engine := engine, ended := s.tokensOf key ++ s.ended }
    | (.error _, engine) => { s with engine := engine }
  | .invalidateTags tags =>
    match Engine.invalidateTags tags s.engine with
    | (.ok _, engine) =>
      { s with
        engine := engine
        ended := (taggedKeys tags s.engine).flatMap s.tokensOf ++ s.ended }
    | (.error _, engine) => { s with engine := engine }
  | .expire key ttlSeconds => { s with engine := (Engine.expire c key ttlSeconds s.engine).2 }
  | .flush =>
    { s with engine := (Engine.flush s.engine).2, ended := s.issued.map Prod.snd ++ s.ended }
  | .get key => { s with engine := (getEntry c key s.engine).2 }

end Clients

/-- The states that interleaved clients lead to. -/
inductive ClientRun (c : EngineConfig V) : Clients V → Prop
  | init : ClientRun c .init
  | step {s : Clients V} (h : ClientRun c s) (move : Move V) : ClientRun c (s.apply c move)

theorem Clients.start_eq (s : Clients V) (prepare : EngineM V (Locked V)) :
    s.start c prepare = match prepare s.engine with
      | (.error _, engine) => { s with engine := engine }
      | (.ok locked, engine) =>
        s.join { engine with ticks := engine.ticks + 1 } locked (c.clock engine.ticks) := by
  rw [Clients.start, run_bind]
  rcases prepare s.engine with ⟨e | locked, engine⟩ <;> rfl

/-- Starting a call and entering at once is the call itself. -/
theorem Clients.start_enter (s : Clients V) (prepare : EngineM V (Locked V)) :
    ((s.start c prepare).apply c (.enter s.pending.length)).engine =
      match prepare s.engine with
      | (.error _, engine) => engine
      | (.ok locked, engine) =>
        match locked with
        | .put key leaseToken persistent p =>
          (putLocked c key leaseToken persistent p (c.clock engine.ticks)
            { engine with ticks := engine.ticks + 1 }).2
        | .acquire key force =>
          (acquireLocked c key force (c.clock engine.ticks)
            { engine with ticks := engine.ticks + 1 }).2
        | .renew key leaseToken =>
          (renewLocked c key leaseToken (c.clock engine.ticks)
            { engine with ticks := engine.ticks + 1 }).2 := by
  rw [Clients.start_eq]
  rcases prepare s.engine with ⟨e | locked, engine⟩
  · simp [Clients.apply]
  · simp only [Clients.apply, Clients.join, List.getElem?_append_right le_rfl, Nat.sub_self,
      List.getElem?_cons_zero, Clients.enter]
    cases locked with
    | put key leaseToken persistent p =>
      dsimp only
      rcases putLocked c key leaseToken persistent p (c.clock engine.ticks)
        { engine with ticks := engine.ticks + 1 } with ⟨e | r, s'⟩ <;> rfl
    | acquire key force =>
      dsimp only
      rcases acquireLocked c key force (c.clock engine.ticks)
        { engine with ticks := engine.ticks + 1 } with ⟨e | r, s'⟩ <;> rfl
    | renew key leaseToken => rfl

/-- A guarded or unguarded `put` is its start followed by its entry. -/
theorem Clients.put_eq (key : Key) (value : V) (ttlSeconds staleSeconds : Option ℤ)
    (tags : List Tag) (leaseToken : Option String) (persistent : Bool) (s : Clients V) :
    ((s.apply c (.startPut key value ttlSeconds staleSeconds tags leaseToken persistent)).apply c
      (.enter s.pending.length)).engine =
    (Engine.put c key value ttlSeconds staleSeconds tags leaseToken persistent s.engine).2 := by
  rw [Clients.apply, Clients.start_enter, run_bind, Engine.put, run_bind]
  rcases preparePut c key value ttlSeconds staleSeconds tags persistent true s.engine with
    ⟨e | p, s₁⟩ <;> rfl

/-! ## How leases change -/

/-- Edits that issue and renew no lease leave a part of the leases as they are. -/
structure LeasesShrink (s s' : Engine V) : Prop where
  leases : ∀ k l, s'.leases.get? k = some l → s.leases.get? k = some l
  ticks_le : s.ticks ≤ s'.ticks
  draws_le : s.draws ≤ s'.draws

theorem LeasesShrink.refl (s : Engine V) : LeasesShrink s s := ⟨fun _ _ h => h, le_rfl, le_rfl⟩

theorem LeasesShrink.trans {s s' s'' : Engine V} (h : LeasesShrink s s')
    (h' : LeasesShrink s' s'') : LeasesShrink s s'' :=
  ⟨fun k l hl => h.leases k l (h'.leases k l hl), h.ticks_le.trans h'.ticks_le,
    h.draws_le.trans h'.draws_le⟩

theorem LeasesShrink.of_eq {s s' : Engine V} (hl : s'.leases = s.leases) (ht : s.ticks ≤ s'.ticks)
    (hd : s.draws ≤ s'.draws) : LeasesShrink s s' :=
  ⟨fun _ _ h => hl ▸ h, ht, hd⟩

theorem LeasesShrink.removeLease (k : Key) (s : Engine V) : LeasesShrink s (removeLease k s) := by
  refine ⟨?_, by simp, by simp⟩
  intro k' l h
  rw [removeLease_leases, OrderedDict.get?_erase] at h
  split_ifs at h
  exact h

theorem LeasesShrink.edit {p : Permit V} (hg : ∀ k l, ¬p.grant k l) (hr : ∀ k, ¬p.renew k)
    {s s' : Engine V} (hs : Edit c p s s') : LeasesShrink s s' := by
  cases hs with
  | tick => exact .of_eq rfl (Nat.le_succ _) le_rfl
  | draw => exact .of_eq rfl le_rfl (Nat.le_succ _)
  | bump | touch => exact .of_eq rfl le_rfl le_rfl
  | expire | drop => exact .of_eq (by simp) (by simp) (by simp)
  | evict => exact .of_eq (by simp) (by simp) (by simp)
  | store => exact .of_eq (by simp [storeEntry]) (by simp [storeEntry]) (by simp [storeEntry])
  | update =>
    refine .of_eq (updateEntry_leases _ _ _) ?_ ?_ <;> unfold updateEntry <;> split <;>
      exact le_rfl
  | lapse | release => exact .removeLease _ _
  | grant hp => exact absurd hp (hg _ _)
  | renew t hp => exact absurd hp (hr _)

theorem LeasesShrink.edits {p : Permit V} (hg : ∀ k l, ¬p.grant k l) (hr : ∀ k, ¬p.renew k)
    {s s' : Engine V} (hs : Edits c p s s') : LeasesShrink s s' := by
  induction hs with
  | refl => exact .refl s
  | tail _ hstep ih => exact ih.trans (.edit hg hr hstep)

/-- Every edit but issuing and renewing leases. -/
def Permit.unleasing : Permit V :=
  { (Permit.anything : Permit V) with
    grant := fun _ _ => False
    renew := fun _ => False }

theorem LeasesShrink.unleasing {s s' : Engine V} (hs : Edits c Permit.unleasing s s') :
    LeasesShrink s s' :=
  .edits (fun _ _ h => h) (fun _ h => h) hs

/-- An accepted `put` needs a live lease with its token, and consumes it. -/
theorem putLocked_guarded {key : Key} {token : Option String} {persistent : Bool}
    {p : PreparedPut V} {now : ℚ} {r : CacheResult V} {s s' : Engine V}
    (h : putLocked c key token persistent p now s = (.ok r, s')) : Guarded key token now s := by
  rw [putLocked, bind_eq_ok] at h
  obtain ⟨_, s₁, hc, _⟩ := h
  exact (checkLease_ok hc).2

theorem putLocked_consumes {key : Key} {token : Option String} {persistent : Bool}
    {p : PreparedPut V} {now : ℚ} {r : CacheResult V} {s s' : Engine V} (hs : Sound c s)
    (hnow : ∃ i < s.ticks, now = c.clock i)
    (h : putLocked c key token persistent p now s = (.ok r, s')) :
    s'.leases.get? key = none := by
  rcases putLocked_cases key token persistent p hs.accounts hs.bounded hnow with
    ⟨e, s₁, h₁, _⟩ | ⟨r₁, s₁, s₂, h₁, _, _, hed, _, hl⟩ <;> rw [h₁] at h
  · simp at h
  · obtain ⟨rfl, rfl⟩ : r₁ = r ∧ s₂ = s' := by simpa using h
    have hleases : s₂.leases = s₁.leases := by
      rw [lookup_eq, Prod.mk.injEq] at hl
      rw [← hl.2, lookupAt_leases]
    rw [hleases, leases_edits_nothing hed]
    simp [written, storeEntry_leases]

theorem get?_dropAll_leases (l : List Key) (s : Engine V) (k : Key) :
    (l.foldl (fun s k => Engine.removeLease k (removeEntry k s)) s).leases.get? k =
      if k ∈ l then none else s.leases.get? k := by
  induction l generalizing s with
  | nil => simp
  | cons a l ih =>
    rw [List.foldl_cons, ih, removeLease_leases, removeEntry_leases, OrderedDict.get?_erase]
    by_cases ha : k = a
    · simp [ha]
    · simp [ha]

/-- The two ways through the locked part of `renew_lease`. -/
theorem renewLocked_cases (key : Key) (token : String) (now : ℚ) (s : Engine V) :
    (∃ r s', renewLocked c key token now s = (r, s') ∧ r ≠ .ok true ∧
      (s' = s ∨ s' = Engine.removeLease key s)) ∨
    ∃ l, s.leases.get? key = some l ∧ now < l.untilTime ∧ l.token = token ∧
      renewLocked c key token now s = (.ok true, bump .leaseRenewals 1
        { s with leases := s.leases.set key ⟨token, now + c.leaseSeconds, l.sizeBytes⟩ }) := by
  simp only [renewLocked, run_bind, run_get]
  cases hg : s.leases.get? key with
  | none => exact .inl ⟨.ok false, s, rfl, by simp, .inl rfl⟩
  | some l =>
    by_cases hd : l.untilTime ≤ now
    · refine .inl ⟨.ok false, Engine.removeLease key s, ?_, by simp, .inr rfl⟩
      simp [hd, run_bind]
    · simp only [hd, ↓reduceIte, run_bind, compareDigest, run_ite]
      split_ifs with ha
      · by_cases htok : l.token = token
        · subst htok
          exact .inr ⟨l, rfl, not_le.mp hd, rfl, by simp⟩
        · exact .inl ⟨.ok false, s, by simp [htok], by simp, .inl rfl⟩
      · exact .inl ⟨_, s, rfl, by simp, .inl rfl⟩

/-! ## The invariant -/

structure Clients.Inv (c : EngineConfig V) (s : Clients V) : Prop where
  sound : Sound c s.engine
  readings : ∀ q ∈ s.pending, ∃ i < s.engine.ticks, q.now = c.clock i
  leases : ∀ k l, s.engine.leases.get? k = some l → (k, l.token) ∈ s.issued
  drawn : ∀ q ∈ s.issued, ∃ i < s.engine.draws, q.2 = c.tokenUrlsafe i
  unique : ∀ k k' token, (k, token) ∈ s.issued → (k', token) ∈ s.issued → k = k'
  ended : ∀ token ∈ s.ended, (∃ k, (k, token) ∈ s.issued) ∧
    ∀ k l, s.engine.leases.get? k = some l → l.token ≠ token
  accepted : s.accepted.Nodup ∧ ∀ token ∈ s.accepted, token ∈ s.ended
  lapsed : ∀ token ∈ s.lapsed, (∃ k, (k, token) ∈ s.issued) ∧
    ∀ k l, s.engine.leases.get? k = some l → l.token = token →
      (∃ i < s.engine.ticks, l.untilTime ≤ c.clock i) ∧
      ∀ q ∈ s.pending, q.locked.renewed = some token → l.untilTime ≤ q.now
  late : ∀ q ∈ s.pending, q.late = true → ∃ token ∈ s.lapsed, q.locked.token = some token ∧
    ∀ k l, s.engine.leases.get? k = some l → l.token = token → l.untilTime ≤ q.now

namespace Clients

variable {s : Clients V}

theorem mem_tokensOf {key : Key} {token : String} :
    token ∈ s.tokensOf key ↔ (key, token) ∈ s.issued := by
  simp [tokensOf]

theorem Inv.init (c : EngineConfig V) : (Clients.init : Clients V).Inv c where
  sound := Sound.init c
  readings := by simp [Clients.init]
  leases := by simp [Clients.init, Engine.init]
  drawn := by simp [Clients.init]
  unique := by simp [Clients.init]
  ended := by simp [Clients.init]
  accepted := by simp [Clients.init]
  lapsed := by simp [Clients.init]
  late := by simp [Clients.init]

/-- Leases that only go away, and calls that only leave. -/
theorem Inv.quiet (h : s.Inv c) {engine : Engine V} {pending : List (Pending V)}
    (hs : Sound c engine) (hl : LeasesShrink s.engine engine)
    (hp : ∀ q ∈ pending, q ∈ s.pending) :
    ({ s with engine := engine, pending := pending } : Clients V).Inv c where
  sound := hs
  readings q hq := by
    obtain ⟨i, hi, hn⟩ := h.readings q (hp q hq)
    exact ⟨i, hi.trans_le hl.ticks_le, hn⟩
  leases k l hk := h.leases k l (hl.leases k l hk)
  drawn q hq := by
    obtain ⟨i, hi, hn⟩ := h.drawn q hq
    exact ⟨i, hi.trans_le hl.draws_le, hn⟩
  unique := h.unique
  ended token ht := ⟨(h.ended token ht).1, fun k l hk => (h.ended token ht).2 k l (hl.leases k l hk)⟩
  accepted := h.accepted
  lapsed token ht := by
    obtain ⟨hi, hl'⟩ := h.lapsed token ht
    refine ⟨hi, fun k l hk htok => ?_⟩
    obtain ⟨⟨i, hit, hle⟩, hren⟩ := hl' k l (hl.leases k l hk) htok
    exact ⟨⟨i, hit.trans_le hl.ticks_le, hle⟩, fun q hq => hren q (hp q hq)⟩
  late q hq hlate := by
    obtain ⟨token, hmem, ht, hle⟩ := h.late q (hp q hq) hlate
    exact ⟨token, hmem, ht, fun k l hk => hle k l (hl.leases k l hk)⟩

theorem Inv.quietEngine (h : s.Inv c) {engine : Engine V} (hs : Sound c engine)
    (hl : LeasesShrink s.engine engine) : ({ s with engine := engine } : Clients V).Inv c :=
  h.quiet hs hl fun _ hq => hq

/-- Tokens without a lease may be declared ended. -/
theorem Inv.endTokens (h : s.Inv c) {tokens : List String}
    (ht : ∀ token ∈ tokens, (∃ k, (k, token) ∈ s.issued) ∧
      ∀ k l, s.engine.leases.get? k = some l → l.token ≠ token) :
    ({ s with ended := tokens ++ s.ended } : Clients V).Inv c :=
  { h with
    ended := by
      intro token hm
      rcases List.mem_append.mp hm with hm | hm
      · exact ht token hm
      · exact h.ended token hm
    accepted := ⟨h.accepted.1, fun token hm => List.mem_append_right _ (h.accepted.2 token hm)⟩ }

/-- The tokens of a key without a lease have ended. -/
theorem Inv.tokensOf_ended (h : s.Inv c) {key : Key} (hk : s.engine.leases.get? key = none)
    {token : String} (ht : token ∈ s.tokensOf key) : (∃ k, (k, token) ∈ s.issued) ∧
      ∀ k l, s.engine.leases.get? k = some l → l.token ≠ token := by
  have hi := mem_tokensOf.mp ht
  refine ⟨⟨key, hi⟩, ?_⟩
  rintro k l hl rfl
  obtain rfl := h.unique _ _ _ (h.leases k l hl) hi
  rw [hk] at hl
  cases hl

theorem Inv.accept (h : s.Inv c) {token : Option String} (hfresh : ∀ t ∈ token, t ∉ s.accepted)
    (hend : ∀ t ∈ token, t ∈ s.ended) :
    ({ s with accepted := token.toList ++ s.accepted } : Clients V).Inv c := by
  refine { h with accepted := ?_ }
  cases token with
  | none => exact h.accepted
  | some t =>
    refine ⟨List.nodup_cons.mpr ⟨hfresh t rfl, h.accepted.1⟩, ?_⟩
    intro t' ht'
    rcases List.mem_cons.mp ht' with rfl | ht'
    · exact hend _ rfl
    · exact h.accepted.2 t' ht'

theorem Inv.join (h : s.Inv c) {engine : Engine V} (hs : Sound c engine)
    (hl : LeasesShrink s.engine engine) (locked : Locked V) :
    (s.join { engine with ticks := engine.ticks + 1 } locked (c.clock engine.ticks)).Inv c := by
  set now : ℚ := c.clock engine.ticks with hnow
  have htick : LeasesShrink s.engine { engine with ticks := engine.ticks + 1 } :=
    hl.trans (.of_eq rfl (Nat.le_succ _) le_rfl)
  have hsound : Sound c { engine with ticks := engine.ticks + 1 } :=
    hs.of_data rfl rfl rfl rfl rfl
  have hq := h.quietEngine hsound htick
  -- every earlier reading is at most this one
  have hlatest : ∀ i < s.engine.ticks, c.clock i ≤ now :=
    fun i hi => c.clock_mono (hi.le.trans hl.ticks_le)
  have hlapsed : ∀ token ∈ s.lapsed ++ s.lapsedAt now, (∃ k, (k, token) ∈ s.issued) ∧
      ∀ k l, engine.leases.get? k = some l → l.token = token → l.untilTime ≤ now ∧
        ∀ q ∈ s.pending, q.locked.renewed = some token → l.untilTime ≤ q.now := by
    intro token hm
    rcases List.mem_append.mp hm with hm | hm
    · obtain ⟨hi, hle⟩ := h.lapsed token hm
      refine ⟨hi, fun k l hk htok => ?_⟩
      obtain ⟨⟨i, hit, hui⟩, hren⟩ := hle k l (hl.leases k l hk) htok
      exact ⟨hui.trans (hlatest i hit), hren⟩
    · simp only [lapsedAt, List.mem_map, List.mem_filter, decide_eq_true_eq] at hm
      obtain ⟨⟨k₀, l₀⟩, ⟨hmem, hle, hren⟩, rfl⟩ := hm
      have hget := OrderedDict.mem_toList.mp hmem
      refine ⟨⟨k₀, h.leases k₀ l₀ hget⟩, fun k l hk htok => ?_⟩
      have hk' := hl.leases k l hk
      obtain rfl : k = k₀ :=
        h.unique _ _ _ (h.leases k l hk') (htok ▸ h.leases k₀ l₀ hget)
      obtain rfl : l = l₀ := Option.some.inj (hk'.symm.trans hget)
      exact ⟨hle, hren⟩
  refine ⟨hq.sound, ?_, hq.leases, hq.drawn, hq.unique, hq.ended, hq.accepted, ?_, ?_⟩
  · intro q hm
    rcases List.mem_append.mp hm with hm | hm
    · exact hq.readings q hm
    · obtain rfl := List.mem_singleton.mp hm
      exact ⟨engine.ticks, Nat.lt_succ_self _, rfl⟩
  · intro token hm
    obtain ⟨hi, hle⟩ := hlapsed token hm
    refine ⟨hi, fun k l hk htok => ⟨⟨engine.ticks, Nat.lt_succ_self _, (hle k l hk htok).1⟩, ?_⟩⟩
    intro q hq' hren
    rcases List.mem_append.mp hq' with hq' | hq'
    · exact (hle k l hk htok).2 q hq' hren
    · obtain rfl := List.mem_singleton.mp hq'
      exact (hle k l hk htok).1
  · intro q hm hlate
    rcases List.mem_append.mp hm with hm | hm
    · obtain ⟨token, hmem, htok, hle⟩ := hq.late q hm hlate
      exact ⟨token, List.mem_append_left _ hmem, htok, hle⟩
    · obtain rfl := List.mem_singleton.mp hm
      cases htok : locked.token with
      | none => simp [htok] at hlate
      | some token =>
        have hmem : token ∈ s.lapsed ++ s.lapsedAt now := by simpa [htok] using hlate
        exact ⟨token, hmem, rfl, fun k l hk ht => ((hlapsed token hmem).2 k l hk ht).1⟩

theorem Inv.start (h : s.Inv c) {prepare : EngineM V (Locked V)}
    (hp : Rel (Edits c Permit.nothing) prepare) : (s.start c prepare).Inv c := by
  have hed := hp s.engine
  rw [start_eq]
  rcases hprep : prepare s.engine with ⟨e | locked, engine⟩ <;> rw [hprep] at hed
  · exact h.quietEngine (h.sound.edits Permit.nothing_shrinking hed)
      (.edits (fun _ _ h => h) (fun _ h => h) hed)
  · exact h.join (h.sound.edits Permit.nothing_shrinking hed)
      (.edits (fun _ _ h => h) (fun _ h => h) hed) locked

theorem Permit.readsOf_quiet {key : Key} {e e' : Engine V}
    (hs : Edits c (Permit.readsOf key) e e') : LeasesShrink e e' :=
  .edits (fun _ _ h => h) (fun _ h => h) hs

/-- The locked part of a `put`. -/
theorem Inv.enterPut (h : s.Inv c) {key : Key} {token : Option String} {persistent : Bool}
    {p : PreparedPut V} {now : ℚ} (hnow : ∃ i < s.engine.ticks, now = c.clock i) {late : Bool} :
    (s.enter c ⟨.put key token persistent p, now, late⟩).Inv c := by
  have hsound := h.sound.putLocked key token persistent p hnow
  have hshrink : LeasesShrink s.engine (putLocked c key token persistent p now s.engine).2 :=
    .unleasing (edits_putLocked ⟨trivial, trivial, fun _ => trivial, trivial, trivial⟩ _ _ _ hnow)
  simp only [enter]
  rcases hp : putLocked c key token persistent p now s.engine with ⟨e | r, engine⟩ <;>
    rw [hp] at hsound hshrink
  · exact h.quietEngine hsound hshrink
  · have hq := h.quietEngine hsound hshrink
    have hnone := putLocked_consumes h.sound hnow hp
    have hend := hq.endTokens fun t ht => hq.tokensOf_ended hnone ht
    -- the token presented is the one of the lease, so it has not ended before
    have hguard := putLocked_guarded hp
    refine hend.accept ?_ ?_
    · intro t ht hacc
      obtain ⟨l, hl, _, htok⟩ := hguard t ht
      exact (h.ended t (h.accepted.2 t hacc)).2 key l hl htok
    · intro t ht
      obtain ⟨l, hl, _, rfl⟩ := hguard t ht
      exact List.mem_append_left _ (mem_tokensOf.mpr (h.leases key l hl))

/-- The locked part of `acquire_lease`. -/
theorem Inv.enterAcquire (htok : Function.Injective c.tokenUrlsafe) (h : s.Inv c) {key : Key}
    {force : Bool} {now : ℚ} (hnow : ∃ i < s.engine.ticks, now = c.clock i) {late : Bool} :
    (s.enter c ⟨.acquire key force, now, late⟩).Inv c := by
  obtain ⟨cached, s₁, _, hed, hcases⟩ := acquireLocked_cases key force hnow
  have hsh : ∀ {e e' : Engine V}, Edits c (Permit.acquiring key) e e' → LeasesShrink e e' :=
    fun hs => .edits (fun _ _ h => h) (fun _ h => h) hs
  have hs₁ : Sound c s₁ := h.sound.edits (Permit.acquiring_shrinking key) hed
  simp only [enter]
  rcases hcases with ⟨r, s', ha, hed', hres⟩ | ⟨res, ha, hnone, hsize, hmem, hrt, _⟩ <;> rw [ha]
  · have hq := h.quietEngine (hs₁.edits (Permit.acquiring_shrinking key) hed')
      ((hsh hed).trans (hsh hed'))
    cases r with
    | error e => exact hq
    | ok res =>
      have : res.leaseToken = none := (hres res rfl).1
      simpa [this] using hq
  · have hq := h.quietEngine hs₁ (hsh hed)
    have hfresh : ∀ k, (k, c.tokenUrlsafe s₁.draws) ∉ s.issued := by
      intro k hm
      obtain ⟨i, hi, he⟩ := hq.drawn _ hm
      have hi' : i < s₁.draws := hi
      have := htok he
      omega
    have hget : ∀ k l, (granted c key now s₁).leases.get? k = some l →
        k = key ∧ l = issuedLease c key now s₁ ∨ k ≠ key ∧ s₁.leases.get? k = some l := by
      intro k l hl
      simp only [granted, bump_leases, OrderedDict.get?_set] at hl
      split_ifs at hl with hk
      · exact .inl ⟨hk, (Option.some.inj hl).symm⟩
      · exact .inr ⟨hk, hl⟩
    have hsound : Sound c (granted c key now s₁) := by
      have hgrant : Edits c (Permit.grants : Permit V) s₁ (granted c key now s₁) :=
        ((Edits.one (.draw s₁)).tail
          (.grant _ (l := issuedLease c key now s₁) trivial hnone)).tail (.bump _ _ _)
      refine ⟨hs₁.accounts.edits hgrant, hmem, hs₁.bounded.entries_le, ?_⟩
      simp only [granted, bump_leases, OrderedDict.size_set, OrderedDict.erase_eq_self hnone]
      omega
    simp only [hrt, Option.toList_some, List.map_cons, List.map_nil, List.singleton_append]
    refine ⟨hsound, hq.readings, ?_, ?_, ?_, ?_, hq.accepted, ?_, ?_⟩
    · intro k l hl
      rcases hget k l hl with ⟨rfl, rfl⟩ | ⟨_, hl⟩
      · exact List.mem_cons_self
      · exact List.mem_cons_of_mem _ (hq.leases k l hl)
    · intro q hm
      rcases List.mem_cons.mp hm with rfl | hm
      · exact ⟨s₁.draws, Nat.lt_succ_self _, rfl⟩
      · obtain ⟨i, hi, he⟩ := hq.drawn q hm
        exact ⟨i, Nat.lt_succ_of_lt hi, he⟩
    · intro k k' token hk hk'
      rcases List.mem_cons.mp hk with hk | hk <;> rcases List.mem_cons.mp hk' with hk' | hk'
      · exact (Prod.mk.inj hk).1.trans (Prod.mk.inj hk').1.symm
      · exact absurd ((Prod.mk.inj hk).2 ▸ hk') (hfresh k')
      · exact absurd ((Prod.mk.inj hk').2 ▸ hk) (hfresh k)
      · exact h.unique k k' token hk hk'
    · intro token ht
      obtain ⟨⟨k₀, hk₀⟩, hno⟩ := hq.ended token ht
      refine ⟨⟨k₀, List.mem_cons_of_mem _ hk₀⟩, fun k l hl => ?_⟩
      rcases hget k l hl with ⟨rfl, rfl⟩ | ⟨_, hl⟩
      · rintro rfl
        exact hfresh k₀ hk₀
      · exact hno k l hl
    · intro token ht
      obtain ⟨⟨k₀, hk₀⟩, hle⟩ := hq.lapsed token ht
      refine ⟨⟨k₀, List.mem_cons_of_mem _ hk₀⟩, fun k l hl htk => ?_⟩
      rcases hget k l hl with ⟨rfl, rfl⟩ | ⟨_, hl⟩
      · rw [← htk] at hk₀
        exact absurd hk₀ (hfresh k₀)
      · exact hle k l hl htk
    · intro q hm hlate
      obtain ⟨token, hlap, ht, hle⟩ := hq.late q hm hlate
      refine ⟨token, hlap, ht, fun k l hl htk => ?_⟩
      rcases hget k l hl with ⟨rfl, rfl⟩ | ⟨_, hl⟩
      · obtain ⟨k₀, hk₀⟩ := (hq.lapsed token hlap).1
        rw [← htk] at hk₀
        exact absurd hk₀ (hfresh k₀)
      · exact hle k l hl htk

/-- The locked part of `renew_lease`; the renewal is still among the calls under way. -/
theorem Inv.enterRenew (h : s.Inv c) {key : Key} {token : String} {now : ℚ} {late : Bool}
    (hnow : ∃ i < s.engine.ticks, now = c.clock i)
    (hlapse : token ∈ s.lapsed → ∀ k l, s.engine.leases.get? k = some l → l.token = token →
      l.untilTime ≤ now) : (s.enter c ⟨.renew key token, now, late⟩).Inv c := by
  have hsound : Sound c (renewLocked c key token now s.engine).2 :=
    h.sound.edits Permit.keeping_shrinking
      (edits_renewLocked (p := Permit.keeping) trivial trivial token hnow)
  simp only [enter]
  rcases renewLocked_cases (c := c) key token now s.engine with
    ⟨r, s', hr, _, hs'⟩ | ⟨l₀, hl₀, hlt, htok, hr⟩ <;> rw [hr] at hsound ⊢
  · refine h.quietEngine hsound ?_
    rcases hs' with rfl | rfl
    · exact .refl _
    · exact .removeLease _ _
  · -- a token whose deadline has passed is not renewed
    have hnot : token ∉ s.lapsed := by
      intro hm
      have := hlapse hm key l₀ hl₀ htok
      exact absurd hlt (not_lt.mpr this)
    have hget : ∀ k l, (s.engine.leases.set key ⟨token, now + c.leaseSeconds, l₀.sizeBytes⟩).get? k =
        some l → k = key ∧ l.token = token ∨ k ≠ key ∧ s.engine.leases.get? k = some l := by
      intro k l hl
      rw [OrderedDict.get?_set] at hl
      split_ifs at hl with hk
      · exact .inl ⟨hk, (Option.some.inj hl) ▸ rfl⟩
      · exact .inr ⟨hk, hl⟩
    refine ⟨hsound, h.readings, ?_, h.drawn, h.unique, ?_, h.accepted, ?_, ?_⟩
    · intro k l hl
      rcases hget k l hl with ⟨rfl, ht⟩ | ⟨_, hl⟩
      · rw [ht, ← htok]
        exact h.leases k l₀ hl₀
      · exact h.leases k l hl
    · intro t ht
      refine ⟨(h.ended t ht).1, fun k l hl => ?_⟩
      rcases hget k l hl with ⟨rfl, htk⟩ | ⟨_, hl⟩
      · rw [htk, ← htok]
        exact (h.ended t ht).2 k l₀ hl₀
      · exact (h.ended t ht).2 k l hl
    · intro t ht
      refine ⟨(h.lapsed t ht).1, fun k l hl htk => ?_⟩
      rcases hget k l hl with ⟨rfl, htk'⟩ | ⟨_, hl⟩
      · exact absurd (htk'.symm.trans htk ▸ ht) hnot
      · exact (h.lapsed t ht).2 k l hl htk
    · intro q hq hlate
      obtain ⟨t, hlap, ht, hle⟩ := h.late q hq hlate
      refine ⟨t, hlap, ht, fun k l hl htk => ?_⟩
      rcases hget k l hl with ⟨rfl, htk'⟩ | ⟨_, hl⟩
      · exact absurd (htk'.symm.trans htk ▸ hlap) hnot
      · exact hle k l hl htk

theorem Inv.enter (htok : Function.Injective c.tokenUrlsafe) (h : s.Inv c) {i : ℕ}
    {q : Pending V} (hi : s.pending[i]? = some q) :
    (({ s with pending := s.pending.eraseIdx i } : Clients V).enter c q).Inv c := by
  have hm := List.mem_of_getElem? hi
  have hq : ({ s with pending := s.pending.eraseIdx i } : Clients V).Inv c :=
    h.quiet h.sound (.refl _) fun r hr => List.mem_of_mem_eraseIdx hr
  have hnow := h.readings q hm
  obtain ⟨locked, now, late⟩ := q
  cases locked with
  | put key token persistent p => exact hq.enterPut hnow
  | acquire key force => exact hq.enterAcquire htok hnow
  | renew key token =>
    refine hq.enterRenew hnow ?_
    intro hlap k l hl htk
    exact ((h.lapsed token hlap).2 k l hl htk).2 _ hm rfl

theorem releaseLease_true {key : Key} {token : String} {e e' : Engine V}
    (h : releaseLease key token e = (.ok true, e')) :
    e' = Engine.removeLease key e ∧ ∃ l, e.leases.get? key = some l ∧ l.token = token := by
  rw [releaseLease, bind_eq_ok] at h
  obtain ⟨_, e₁, hkey, h⟩ := h
  obtain ⟨rfl, _⟩ := validateKey_ok hkey
  rw [releaseLocked, run_bind_ok (run_get _)] at h
  cases hg : e₁.leases.get? key with
  | none => simp [hg] at h
  | some l =>
    simp only [hg] at h
    rw [bind_eq_ok] at h
    obtain ⟨same, e₂, hsame, h⟩ := h
    obtain ⟨rfl, hiff⟩ := compareDigest_ok hsame
    split_ifs at h with hs
    · rw [run_bind_ok (run_modify _ _)] at h
      exact ⟨(by simpa using h : Engine.removeLease key e₂ = e').symm, l, rfl, hiff.mp hs⟩
    · simp at h

theorem Inv.apply (htok : Function.Injective c.tokenUrlsafe) (h : s.Inv c) (move : Move V) :
    (s.apply c move).Inv c := by
  have hquiet : ∀ e, Edits c Permit.keeping s.engine e → Edits c Permit.unleasing s.engine e →
      ({ s with engine := e } : Clients V).Inv c :=
    fun _ hk hu => h.quietEngine (h.sound.edits Permit.keeping_shrinking hk) (.unleasing hu)
  cases move with
  | startPut key value ttlSeconds staleSeconds tags leaseToken persistent =>
    exact h.start (Rel.bind (edits_preparePut _ _ _ _ _ _ _) fun _ => Rel.pure _)
  | startAcquire key force => exact h.start (Rel.bind (edits_validateKey _) fun _ => Rel.pure _)
  | startRenew key token => exact h.start (Rel.bind (edits_validateKey _) fun _ => Rel.pure _)
  | enter i =>
    simp only [Clients.apply]
    cases hi : s.pending[i]? with
    | none => exact h
    | some q => exact h.enter htok hi
  | release key token =>
    have hq := hquiet (releaseLease key token s.engine).2
      (edits_releaseLease (p := Permit.keeping) trivial token s.engine)
      (edits_releaseLease (p := Permit.unleasing) trivial token s.engine)
    simp only [Clients.apply]
    rcases hr : releaseLease key token s.engine with ⟨e | b, engine⟩ <;> rw [hr] at hq
    · exact hq
    · cases b with
      | false => exact hq
      | true =>
        obtain ⟨rfl, l, hl, rfl⟩ := releaseLease_true hr
        have hnone : (Engine.removeLease key s.engine).leases.get? key = none := by simp
        have hmem : l.token ∈ s.tokensOf key := mem_tokensOf.mpr (h.leases key l hl)
        have hend : ∀ t ∈ [l.token], (∃ k, (k, t) ∈ s.issued) ∧ ∀ k l',
            (Engine.removeLease key s.engine).leases.get? k = some l' → l'.token ≠ t := by
          intro t ht
          obtain rfl := List.mem_singleton.mp ht
          exact hq.tokensOf_ended hnone hmem
        exact hq.endTokens hend
  | delete key =>
    have hq := hquiet (Engine.delete key s.engine).2
      (edits_delete (p := Permit.keeping) trivial trivial s.engine)
      (edits_delete (p := Permit.unleasing) trivial trivial s.engine)
    simp only [Clients.apply]
    rcases hd : Engine.delete key s.engine with ⟨e | b, engine⟩ <;> rw [hd] at hq
    · exact hq
    · have hnone : engine.leases.get? key = none := by
        rw [Engine.delete, bind_eq_ok] at hd
        obtain ⟨_, e₁, hkey, hd⟩ := hd
        obtain ⟨rfl, _⟩ := validateKey_ok hkey
        rw [run_lift, Prod.mk.injEq] at hd
        rw [← hd.2]
        simp only [deleteLocked]
        split <;> simp
      exact hq.endTokens fun t ht => hq.tokensOf_ended hnone ht
  | invalidateTags tags =>
    have hq := hquiet (Engine.invalidateTags tags s.engine).2
      (edits_invalidateTags (p := Permit.keeping) (fun _ => trivial) (fun _ => trivial) tags s.engine)
      (edits_invalidateTags (p := Permit.unleasing) (fun _ => trivial) (fun _ => trivial) tags
        s.engine)
    simp only [Clients.apply]
    rcases invalidateTags_cases tags s.engine with ⟨e, hr⟩ | ⟨n, hr⟩ <;> rw [hr] at hq ⊢
    · exact hq
    · refine hq.endTokens fun t ht => ?_
      obtain ⟨k, hk, ht⟩ := List.mem_flatMap.mp ht
      refine hq.tokensOf_ended ?_ ht
      simp [invalidateLocked, get?_dropAll_leases, hk]
  | expire key ttlSeconds =>
    exact hquiet _ (edits_expire (p := Permit.keeping) trivial trivial (fun _ _ => trivial) _ _)
      (edits_expire (p := Permit.unleasing) trivial trivial (fun _ _ => trivial) _ _)
  | flush =>
    have hq := h.quietEngine h.sound.flush
      ⟨by simp [Engine.flush], by simp [Engine.flush], by simp [Engine.flush]⟩
    refine hq.endTokens fun t ht => ?_
    obtain ⟨q, hm, rfl⟩ := List.mem_map.mp ht
    exact ⟨⟨q.1, hm⟩, by simp [Engine.flush]⟩
  | get key =>
    exact hquiet _ (edits_getEntry (p := Permit.keeping) trivial trivial _)
      (edits_getEntry (p := Permit.unleasing) trivial trivial _)

end Clients

theorem ClientRun.inv (htok : Function.Injective c.tokenUrlsafe) {s : Clients V}
    (h : ClientRun c s) : s.Inv c := by
  induction h with
  | init => exact Clients.Inv.init c
  | step _ move ih => exact ih.apply htok move

theorem ClientRun.moves {s : Clients V} (h : ClientRun c s) (moves : List (Move V)) :
    ClientRun c (moves.foldl (Clients.apply c) s) := by
  induction moves generalizing s with
  | nil => exact h
  | cons move moves ih => exact ih (h.step move)

/-- A token that has ended stays so. -/
theorem Clients.ended_apply (s : Clients V) (move : Move V) {token : String}
    (h : token ∈ s.ended) : token ∈ (s.apply c move).ended := by
  have hstart : ∀ prepare, token ∈ (s.start c prepare).ended := by
    intro prepare
    rw [Clients.start_eq]
    split <;> exact h
  cases move with
  | startPut | startAcquire | startRenew => exact hstart _
  | enter i =>
    simp only [Clients.apply]
    split
    · exact h
    · simp only [Clients.enter]
      split
      · split
        · exact h
        · exact List.mem_append_right _ h
      · split <;> exact h
      · exact h
  | release | delete | invalidateTags =>
    simp only [Clients.apply]
    split <;> simp [h]
  | expire | get => exact h
  | flush => exact List.mem_append_right _ h

/-- The locked part of a `put` accepts the token. -/
def Accepts (c : EngineConfig V) (s : Engine V) (key : Key) (token : String) : Prop :=
  ∃ persistent p now r s', putLocked c key (some token) persistent p now s = (.ok r, s')

end Engine
end MegaCache
