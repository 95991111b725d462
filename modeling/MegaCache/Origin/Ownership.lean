import MegaCache.Engine.Clients
import MegaCache.Origin.Breaker

/-!
# Origin loads and invalidations

A leader of `OriginCache` holds a forced refresh lease while it talks to the origin and
stores the response under the token of that lease.  Any number of leaders share one engine
with clients that delete, write, flush and invalidate tags; the calls that read the clock
before they take the lock are two steps, as in `Engine.Clients`.

Two fields are kept for the statements only: a load is `outdated` once an operation that
invalidates its key completed after its request was sent, and `writer` is the token that the
entry of a key was stored under.
-/

namespace MegaCache
namespace Origin

open Engine Prog

variable {V : Type} {c : EngineConfig V}

/-- How far a load has got.  `storing` is the lease-guarded write of the response. -/
inductive Stage
  | leased
  | sent
  | storing
  | failed
deriving DecidableEq, Repr

structure Load where
  key : Key
  tags : List Tag
  token : String
  stage : Stage
  outdated : Bool
deriving DecidableEq, Repr

structure Service (V : Type) where
  clients : Clients V
  /-- every load so far, newest first -/
  loads : List Load
  writer : Key → Option String

inductive LoadEvent (V : Type)
  | startAcquire (key : Key)
  | lead (i : ℕ) (origin : HTTPOrigin)
  | send (token : String)
  | respond (token : String) (value : V) (ttlSeconds staleSeconds : ℤ)
  | fail (token : String)
  | startRenew (token : String)
  | startPut (key : Key) (value : V) (ttlSeconds staleSeconds : Option ℤ) (tags : List Tag)
      (persistent : Bool)
  | enter (i : ℕ)
  | delete (key : Key)
  | deleteMany (keys : List Key)
  | invalidateTags (tags : List Tag)
  | flush
  | get (key : Key)

/-- The loads whose request was sent and that `p` selects are outdated. -/
def outdate (p : Load → Bool) (loads : List Load) : List Load :=
  loads.map fun load =>
    if load.stage ≠ .leased ∧ p load = true then { load with outdated := true } else load

/-- A change of the load with a token. -/
def updateLoad (token : String) (f : Load → Load) (loads : List Load) : List Load :=
  loads.map fun load => if load.token = token then f load else load

/-- The origin request of a load is sent, for the first time or again. -/
def Load.send (load : Load) : Load :=
  if load.stage = .leased ∨ load.stage = .sent then
    { load with stage := .sent, outdated := false }
  else load

def Load.store (load : Load) : Load := { load with stage := .storing }

def Load.fail (load : Load) : Load := { load with stage := .failed }

/-- The token that a forced `acquire_lease` with this reading returns. -/
def issuedToken (c : EngineConfig V) (key : Key) (now : ℚ) (s : Engine V) : Option String :=
  match acquireLocked c key true now s with
  | (.ok r, _) => r.leaseToken
  | (.error _, _) => none

def isKey (key : Key) : Bool := decide (key ≠ "" ∧ key.length ≤ 1024)

namespace Service

def init : Service V := ⟨.init, [], fun _ => none⟩

/-- A move of the clients that says nothing about the loads. -/
def move (c : EngineConfig V) (s : Service V) (m : Move V) : Service V :=
  { s with clients := s.clients.apply c m }

/-- An operation that invalidates the keys of the selected loads if it completes. -/
def invalidate {α : Type} (c : EngineConfig V) (s : Service V) (m : Move V)
    (result : Except PyError α) (p : Load → Bool) : Service V :=
  match result with
  | .ok _ => { s.move c m with loads := outdate p s.loads }
  | .error _ => s.move c m

/-- The locked part of a `put`, guarded or not. -/
def enterPut (c : EngineConfig V) (s : Service V) (i : ℕ) (key : Key) (leaseToken : Option String)
    (result : Except PyError (CacheResult V)) : Service V :=
  match result with
  | .ok _ =>
    { s.move c (.enter i) with
      loads := outdate (fun load => load.key = key ∧ some load.token ≠ leaseToken) s.loads
      writer := Function.update s.writer key leaseToken }
  | .error _ => s.move c (.enter i)

def step (c : EngineConfig V) (s : Service V) : LoadEvent V → Service V
  | .startAcquire key => s.move c (.startAcquire key true)
  | .lead i origin =>
    match s.clients.pending[i]? with
    | some ⟨.acquire key true, now, _⟩ =>
      { s.move c (.enter i) with
        loads := ((issuedToken c key now s.clients.engine).toList.map fun token =>
          ⟨key, origin.tags, token, .leased, false⟩) ++ s.loads }
    | _ => s
  | .send token => { s with loads := updateLoad token Load.send s.loads }
  | .respond token value ttlSeconds staleSeconds =>
    match s.loads.find? fun load => load.token = token ∧ load.stage = .sent with
    | some load =>
      { s.move c (.startPut load.key value (some ttlSeconds) (some staleSeconds) load.tags
          (some token) false) with
        loads := updateLoad token Load.store s.loads }
    | none => s
  | .fail token =>
    match s.loads.find? fun load => load.token = token with
    | some load =>
      { s.move c (.release load.key token) with loads := updateLoad token Load.fail s.loads }
    | none => s
  | .startRenew token =>
    match s.loads.find? fun load => load.token = token with
    | some load => s.move c (.startRenew load.key token)
    | none => s
  | .startPut key value ttlSeconds staleSeconds tags persistent =>
    s.move c (.startPut key value ttlSeconds staleSeconds tags none persistent)
  | .enter i =>
    match s.clients.pending[i]? with
    | some ⟨.put key leaseToken persistent p, now, _⟩ =>
      s.enterPut c i key leaseToken
        (putLocked c key leaseToken persistent p now s.clients.engine).1
    | some ⟨.renew _ _, _, _⟩ => s.move c (.enter i)
    | _ => s
  | .delete key =>
    s.invalidate c (.delete key) (Engine.delete key s.clients.engine).1 fun load => load.key = key
  | .deleteMany keys =>
    -- the first key that is not valid ends the call
    { s with
      clients := (keys.takeWhile isKey).foldl (fun s key => s.apply c (.delete key)) s.clients
      loads := if keys.all isKey then outdate (fun load => load.key ∈ keys) s.loads else s.loads }
  | .invalidateTags tags =>
    s.invalidate c (.invalidateTags tags) (Engine.invalidateTags tags s.clients.engine).1
      fun load => tags.any (· ∈ load.tags)
  | .flush => { s.move c .flush with loads := outdate (fun _ => true) s.loads }
  | .get key => s.move c (.get key)

/-- Where tags are invalidated, a load with one of them that still holds its lease has an
entry with one of them. -/
def Indexed (s : Service V) : LoadEvent V → Prop
  | .invalidateTags tags => ∀ load ∈ s.loads, load.stage ≠ .leased →
    (∃ tag ∈ tags, tag ∈ load.tags) →
    (∃ lease, s.clients.engine.leases.get? load.key = some lease ∧ lease.token = load.token) →
    ∃ entry, s.clients.engine.entries.get? load.key = some entry ∧ ∃ tag ∈ tags, tag ∈ entry.tags
  | _ => True

end Service

/-- The states that leaders and clients lead to when every invalidation of tags finds the
loads indexed. -/
inductive IndexedRun (c : EngineConfig V) : Service V → Prop
  | init : IndexedRun c .init
  | step {s : Service V} {event : LoadEvent V} (h : IndexedRun c s) (hi : s.Indexed event) :
      IndexedRun c (s.step c event)

/-! ## What the clients' moves keep -/

/-- Every entry was there before, with the same tags. -/
def EntriesKept (s s' : Engine V) : Prop :=
  ∀ k e', s'.entries.get? k = some e' → ∃ e, s.entries.get? k = some e ∧ e.tags = e'.tags

theorem EntriesKept.refl (s : Engine V) : EntriesKept s s := fun _ e h => ⟨e, h, rfl⟩

theorem EntriesKept.trans {s s' s'' : Engine V} (h : EntriesKept s s') (h' : EntriesKept s' s'') :
    EntriesKept s s'' := by
  intro k e'' hk
  obtain ⟨e', hk', ht'⟩ := h' k e'' hk
  obtain ⟨e, hk, ht⟩ := h k e' hk'
  exact ⟨e, hk, ht.trans ht'⟩

theorem EntriesKept.of_eq {s s' : Engine V} (h : s'.entries = s.entries) : EntriesKept s s' :=
  fun _ e hk => ⟨e, h ▸ hk, rfl⟩

theorem EntriesKept.removeEntry (k : Key) (s : Engine V) : EntriesKept s (removeEntry k s) := by
  intro k' e h
  rw [removeEntry_entries, OrderedDict.get?_erase] at h
  split_ifs at h
  exact ⟨e, h, rfl⟩

theorem EntriesKept.edit {p : Permit V} (hstore : ∀ k e, ¬p.store k e) {s s' : Engine V}
    (h : Edit c p s s') : EntriesKept s s' := by
  cases h with
  | tick | draw | bump | grant | renew => exact .of_eq rfl
  | @touch k e a t hp hg =>
    intro k' e' h
    rw [OrderedDict.get?_setLast] at h
    split_ifs at h with hk
    · subst hk
      obtain rfl := Option.some.inj h
      exact ⟨e, hg, rfl⟩
    · exact ⟨e', h, rfl⟩
  | expire | drop => exact .removeEntry _ _
  | evict => exact (EntriesKept.removeEntry _ _).trans (.of_eq rfl)
  | store hp => exact absurd hp (hstore _ _)
  | @update k f hp hf =>
    intro k' e' h
    unfold updateEntry at h
    split at h
    · exact ⟨e', h, rfl⟩
    · rename_i e hg
      rw [OrderedDict.get?_set] at h
      split_ifs at h with hk
      · subst hk
        obtain rfl := Option.some.inj h
        exact ⟨e, hg, ((hf e).1).symm⟩
      · exact ⟨e', h, rfl⟩
  | lapse | release => exact .of_eq (by simp)

theorem EntriesKept.edits {p : Permit V} (hstore : ∀ k e, ¬p.store k e) {s s' : Engine V}
    (h : Edits c p s s') : EntriesKept s s' := by
  induction h with
  | refl => exact .refl s
  | tail _ hstep ih => exact ih.trans (.edit hstore hstep)

/-- Every edit but storing an entry. -/
def Permit.unstoring : Permit V := { (Permit.anything : Permit V) with store := fun _ _ => False }

theorem EntriesKept.unstoring {s s' : Engine V} (h : Edits c Permit.unstoring s s') :
    EntriesKept s s' :=
  .edits (fun _ _ h => h) h

section Moves

variable {s : Clients V}

/-- Where the engine goes does not depend on which tokens are recorded as ended. -/
theorem engine_apply_ended (s : Clients V) (ended : List String) (m : Move V) :
    (({ s with ended := ended } : Clients V).apply c m).engine = (s.apply c m).engine := by
  have hstart : ∀ prepare, (({ s with ended := ended } : Clients V).start c prepare).engine =
      (s.start c prepare).engine := by
    intro prepare
    rw [Clients.start_eq, Clients.start_eq]
    rcases prepare s.engine with ⟨e | locked, engine⟩ <;> rfl
  cases m with
  | startPut | startAcquire | startRenew => exact hstart _
  | enter i =>
    simp only [Clients.apply]
    rcases s.pending[i]? with - | ⟨key | key | key, now, late⟩
    · rfl
    · simp only [Clients.enter]
      split <;> rfl
    · simp only [Clients.enter]
      split <;> rfl
    · rfl
  | release | delete | invalidateTags =>
    simp only [Clients.apply]
    split <;> rfl
  | expire | flush | get => rfl

/-- A token that was issued and has no lease never has one again. -/
theorem dead_apply (htok : Function.Injective c.tokenUrlsafe) (h : s.Inv c) {key : Key}
    {token : String} (hi : (key, token) ∈ s.issued)
    (hd : ∀ k l, s.engine.leases.get? k = some l → l.token ≠ token) (m : Move V) :
    ∀ k l, (s.apply c m).engine.leases.get? k = some l → l.token ≠ token := by
  have hend : ({ s with ended := [token] ++ s.ended } : Clients V).Inv c :=
    h.endTokens fun t ht => by
      obtain rfl := List.mem_singleton.mp ht
      exact ⟨⟨key, hi⟩, hd⟩
  have hnext := (hend.apply htok m).ended token (Clients.ended_apply _ m List.mem_cons_self)
  rw [engine_apply_ended] at hnext
  exact hnext.2

theorem issued_apply (s : Clients V) (m : Move V) : s.issued ⊆ (s.apply c m).issued := by
  have hstart : ∀ prepare, s.issued ⊆ (s.start c prepare).issued := by
    intro prepare
    rw [Clients.start_eq]
    split <;> exact fun _ h => h
  intro q hq
  cases m with
  | startPut | startAcquire | startRenew => exact hstart _ hq
  | enter i =>
    simp only [Clients.apply]
    split
    · exact hq
    · simp only [Clients.enter]
      split
      · split <;> exact hq
      · split
        · exact hq
        · exact List.mem_append_right _ hq
      · exact hq
  | release | delete | invalidateTags =>
    simp only [Clients.apply]
    split <;> exact hq
  | expire | flush | get => exact hq

/-- A guarded `put` under way was under way before, or has just started. -/
theorem pending_apply {m : Move V} {q : Pending V} (hq : q ∈ (s.apply c m).pending) {key : Key}
    {token : String} {persistent : Bool} {p : PreparedPut V}
    (hl : q.locked = .put key (some token) persistent p) :
    q ∈ s.pending ∨ ∃ value ttlSeconds staleSeconds tags,
      m = .startPut key value ttlSeconds staleSeconds tags (some token) persistent ∧
        p.tags = tags.dedup := by
  have hstart : ∀ prepare, q ∈ (s.start c prepare).pending → q ∈ s.pending ∨
      ∃ locked engine, prepare s.engine = (.ok locked, engine) ∧ q.locked = locked := by
    intro prepare hq
    rw [Clients.start_eq] at hq
    rcases hp : prepare s.engine with ⟨e | locked, engine⟩ <;> rw [hp] at hq
    · exact .inl hq
    · rcases List.mem_append.mp hq with hq | hq
      · exact .inl hq
      · rw [List.mem_singleton.mp hq]
        exact .inr ⟨locked, engine, rfl, rfl⟩
  cases m with
  | startPut key' value ttlSeconds staleSeconds tags leaseToken persistent' =>
    obtain hq | ⟨locked, engine, hp, hlocked⟩ := hstart _ hq
    · exact .inl hq
    rw [bind_eq_ok] at hp
    obtain ⟨p', engine', hprep, hp⟩ := hp
    obtain ⟨hlocked', -⟩ := Prod.mk.inj hp
    obtain rfl := Except.ok.inj hlocked'
    obtain ⟨rfl, rfl, rfl, rfl⟩ := Locked.put.inj (hl.symm.trans hlocked)
    exact .inr ⟨value, ttlSeconds, staleSeconds, tags, rfl, (preparePut_ok hprep).2.tags_eq⟩
  | startAcquire key' force =>
    obtain hq | ⟨locked, engine, hp, hlocked⟩ := hstart _ hq
    · exact .inl hq
    rw [bind_eq_ok] at hp
    obtain ⟨_, engine', -, hp⟩ := hp
    obtain ⟨hlocked', -⟩ := Prod.mk.inj hp
    rw [← Except.ok.inj hlocked', hl] at hlocked
    cases hlocked
  | startRenew key' token' =>
    obtain hq | ⟨locked, engine, hp, hlocked⟩ := hstart _ hq
    · exact .inl hq
    rw [bind_eq_ok] at hp
    obtain ⟨_, engine', -, hp⟩ := hp
    obtain ⟨hlocked', -⟩ := Prod.mk.inj hp
    rw [← Except.ok.inj hlocked', hl] at hlocked
    cases hlocked
  | enter i =>
    left
    simp only [Clients.apply] at hq
    split at hq
    · exact hq
    · have hsame : ∀ r : Pending V, (({ s with pending := s.pending.eraseIdx i } : Clients V).enter
          c r).pending = s.pending.eraseIdx i := by
        intro r
        simp only [Clients.enter]
        split
        · split <;> rfl
        · split <;> rfl
        · rfl
      rw [hsame] at hq
      exact List.mem_of_mem_eraseIdx hq
  | release | delete | invalidateTags =>
    left
    simp only [Clients.apply] at hq
    split at hq <;> exact hq
  | expire | flush | get => exact .inl hq

/-- An accepted `put` leaves the entries of other keys, and its own with its own tags. -/
theorem entries_putLocked (h : s.Inv c) {key : Key} {token : Option String} {persistent : Bool}
    {p : PreparedPut V} {now : ℚ} (hnow : ∃ i < s.engine.ticks, now = c.clock i)
    {r : CacheResult V} {engine : Engine V}
    (hp : putLocked c key token persistent p now s.engine = (.ok r, engine)) :
    ∀ k e, engine.entries.get? k = some e → (k = key ∧ e.tags = p.tags) ∨
      (k ≠ key ∧ ∃ e₀, s.engine.entries.get? k = some e₀ ∧ e₀.tags = e.tags) := by
  rcases putLocked_cases key token persistent p h.sound.accounts h.sound.bounded hnow with
    ⟨e, s₁, h₁, -⟩ | ⟨r₁, s₁, s₂, h₁, -, -, hed, -, hl⟩ <;> rw [h₁] at hp
  · cases hp
  obtain ⟨-, rfl⟩ := Prod.mk.inj hp
  have hlook : Edits c (Permit.readsOf key) s₁ (lookup c key false s₁).2 :=
    edits_lookup false rfl rfl s₁
  rw [hl] at hlook
  have hkept : EntriesKept (written key p persistent now s.engine) s₂ :=
    (EntriesKept.edits (fun _ _ h => h) hed).trans (.edits (fun _ _ h => h) hlook)
  intro k e hk
  obtain ⟨e₀, hk₀, ht⟩ := hkept k e hk
  have hstored : (written key p persistent now s.engine).entries.get? k =
      if k = key then some (writtenEntry p persistent now (s.engine.entries.get? key))
      else s.engine.entries.get? k := by
    simp only [written, bump_entries, removeLease_entries, get?_storeEntry]
  rw [hstored] at hk₀
  split_ifs at hk₀ with hkey
  · obtain rfl := Option.some.inj hk₀
    exact .inl ⟨hkey, ht.symm⟩
  · exact .inr ⟨hkey, e₀, hk₀, ht⟩

/-- A move that is not the locked part of a `put` stores nothing. -/
theorem entriesKept_apply (h : s.Inv c) {m : Move V}
    (hput : ∀ i q key token persistent p, m = .enter i → s.pending[i]? = some q →
      q.locked = .put key token persistent p →
      ∃ e engine, putLocked c key token persistent p q.now s.engine = (.error e, engine)) :
    EntriesKept s.engine (s.apply c m).engine := by
  have hstart : ∀ {prepare : EngineM V (Locked V)}, Rel (Edits c Permit.unstoring) prepare →
      EntriesKept s.engine (s.start c prepare).engine := by
    intro prepare hp
    have hed := EntriesKept.unstoring (hp s.engine)
    rw [Clients.start_eq]
    rcases hrun : prepare s.engine with ⟨e | locked, engine⟩ <;> rw [hrun] at hed
    · exact hed
    · exact hed.trans (.of_eq rfl)
  cases m with
  | startPut => exact hstart (Rel.bind (edits_preparePut _ _ _ _ _ _ _) fun _ => Rel.pure _)
  | startAcquire => exact hstart (Rel.bind (edits_validateKey _) fun _ => Rel.pure _)
  | startRenew => exact hstart (Rel.bind (edits_validateKey _) fun _ => Rel.pure _)
  | enter i =>
    simp only [Clients.apply]
    rcases hi : s.pending[i]? with - | ⟨key | key | key, now, late⟩
    · exact .refl _
    · rename_i token persistent p
      obtain ⟨e, engine, hrun⟩ := hput i _ key token persistent p rfl hi rfl
      have hnow := h.readings _ (List.mem_of_getElem? hi)
      rcases putLocked_cases key token persistent p h.sound.accounts h.sound.bounded hnow with
        ⟨e₁, s₁, h₁, -, hent, -⟩ | ⟨r₁, s₁, s₂, h₁, -⟩
      · simp only [Clients.enter, h₁]
        exact .of_eq hent
      · rw [hrun] at h₁
        cases h₁
    · rename_i force
      have hnow := h.readings _ (List.mem_of_getElem? hi)
      obtain ⟨cached, s₁, -, hed, hcases⟩ := acquireLocked_cases (c := c) key force hnow
      have hfirst : EntriesKept s.engine s₁ := .edits (fun _ _ h => h) hed
      simp only [Clients.enter]
      obtain ⟨r, s', ha, hed', -⟩ | ⟨res, ha, -⟩ := hcases <;> rw [ha]
      · have hkept := hfirst.trans (.edits (fun _ _ h => h) hed')
        cases r <;> exact hkept
      · exact hfirst.trans (.of_eq rfl)
    · rename_i token
      have hnow := h.readings _ (List.mem_of_getElem? hi)
      exact .unstoring (edits_renewLocked (p := Permit.unstoring) trivial trivial token hnow)
  | release key token =>
    have hkept := EntriesKept.unstoring
      (@edits_releaseLease V c Permit.unstoring key trivial token s.engine)
    simp only [Clients.apply]
    split <;> rename_i hr <;> rw [hr] at hkept <;> exact hkept
  | delete key =>
    have hkept := EntriesKept.unstoring
      (@edits_delete V c Permit.unstoring key trivial trivial s.engine)
    simp only [Clients.apply]
    split <;> rename_i hr <;> rw [hr] at hkept <;> exact hkept
  | invalidateTags tags =>
    have hkept := EntriesKept.unstoring (edits_invalidateTags (p := Permit.unstoring) (c := c)
      (fun _ => trivial) (fun _ => trivial) tags s.engine)
    simp only [Clients.apply]
    split <;> rename_i hr <;> rw [hr] at hkept <;> exact hkept
  | expire key ttlSeconds =>
    exact .unstoring (edits_expire (p := Permit.unstoring) trivial trivial (fun _ _ => trivial) _ _)
  | flush =>
    intro k e hk
    simp [Clients.apply, Engine.flush] at hk
  | get key => exact .unstoring (edits_getEntry (p := Permit.unstoring) trivial trivial _)

/-- The token of a lease is new when it is issued. -/
theorem issuedToken_fresh (htok : Function.Injective c.tokenUrlsafe) (h : s.Inv c) {key : Key}
    {now : ℚ} (hnow : ∃ i < s.engine.ticks, now = c.clock i) {token : String}
    (ht : issuedToken c key now s.engine = some token) : ∀ k, (k, token) ∉ s.issued := by
  obtain ⟨cached, s₁, -, hed, hcases⟩ := acquireLocked_cases (c := c) key true hnow
  have hshrink : LeasesShrink s.engine s₁ := .edits (fun _ _ h => h) (fun _ h => h) hed
  unfold issuedToken at ht
  obtain ⟨r, s', ha, -, hres⟩ | ⟨res, ha, -, -, -, hrt, -⟩ := hcases <;> rw [ha] at ht
  · cases r with
    | error e => cases ht
    | ok res =>
      simp only [(hres res rfl).1] at ht
      cases ht
  · simp only [hrt] at ht
    obtain rfl := Option.some.inj ht
    intro k hm
    obtain ⟨i, hi, he⟩ := h.drawn _ hm
    have hlt := hi.trans_le hshrink.draws_le
    rw [htok he] at hlt
    exact lt_irrefl _ hlt

end Moves

/-! ## The invariant -/

namespace Service

structure Inv (c : EngineConfig V) (s : Service V) : Prop where
  clients : s.clients.Inv c
  issued : ∀ load ∈ s.loads, (load.key, load.token) ∈ s.clients.issued
  unique : ∀ load ∈ s.loads, ∀ load' ∈ s.loads, load.token = load'.token → load = load'
  puts : ∀ q ∈ s.clients.pending, ∀ key token persistent p,
    q.locked = .put key (some token) persistent p → ∃ load ∈ s.loads, load.token = token ∧
      load.key = key ∧ p.tags = load.tags.dedup ∧ (load.stage = .storing ∨ load.stage = .failed)
  dead : ∀ load ∈ s.loads, load.outdated = true →
    ∀ k l, s.clients.engine.leases.get? k = some l → l.token ≠ load.token
  written : ∀ k e token, s.clients.engine.entries.get? k = some e → s.writer k = some token →
    ∃ load ∈ s.loads, load.token = token ∧ load.key = k ∧ e.tags = load.tags.dedup ∧
      load.outdated = false ∧ (load.stage = .storing ∨ load.stage = .failed)

theorem Inv.init (c : EngineConfig V) : (init : Service V).Inv c where
  clients := Clients.Inv.init c
  issued := by simp [Service.init]
  unique := by simp [Service.init]
  puts := by simp [Service.init, Clients.init]
  dead := by simp [Service.init]
  written := by simp [Service.init]

variable {s : Service V}

/-- A move that starts no guarded `put` and stores nothing. -/
theorem Inv.move (htok : Function.Injective c.tokenUrlsafe) (h : s.Inv c) {m : Move V}
    (hstart : ∀ key value ttlSeconds staleSeconds tags token persistent,
      m ≠ .startPut key value ttlSeconds staleSeconds tags (some token) persistent)
    (hkept : EntriesKept s.clients.engine (s.clients.apply c m).engine) : (s.move c m).Inv c where
  clients := h.clients.apply htok m
  issued load hload := issued_apply s.clients m (h.issued load hload)
  unique := h.unique
  puts q hq key token persistent p hl := by
    obtain hq | ⟨value, ttlSeconds, staleSeconds, tags, hm, -⟩ := pending_apply hq hl
    · exact h.puts q hq key token persistent p hl
    · exact absurd hm (hstart _ _ _ _ _ _ _)
  dead load hload ho := dead_apply htok h.clients (h.issued load hload) (h.dead load hload ho) m
  written k e token hk hw := by
    obtain ⟨e₀, hk₀, ht⟩ := hkept k e hk
    obtain ⟨load, hload, htoken, hkey, htags, hrest⟩ := h.written k e₀ token hk₀ hw
    exact ⟨load, hload, htoken, hkey, ht ▸ htags, hrest⟩

/-- Changes of loads that keep what identifies them. -/
structure Relabels (f : Load → Load) : Prop where
  key : ∀ load, (f load).key = load.key
  tags : ∀ load, (f load).tags = load.tags
  token : ∀ load, (f load).token = load.token
  stage : ∀ load, load.stage = .storing ∨ load.stage = .failed →
    (f load).stage = .storing ∨ (f load).stage = .failed

/-- Loads that change their label: those that become outdated have no lease and no entry. -/
theorem Inv.relabel (h : s.Inv c) {f : Load → Load} (hf : Relabels f)
    (hdead : ∀ load ∈ s.loads, (f load).outdated = true → load.outdated = false →
      ∀ k l, s.clients.engine.leases.get? k = some l → l.token ≠ load.token)
    (hwritten : ∀ load ∈ s.loads, load.stage = .storing ∨ load.stage = .failed →
      (f load).outdated = true → load.outdated = false →
      ∀ e, s.clients.engine.entries.get? load.key = some e → e.tags = load.tags.dedup →
        s.writer load.key ≠ some load.token) :
    ({ s with loads := s.loads.map f } : Service V).Inv c where
  clients := h.clients
  issued load hload := by
    obtain ⟨load₀, hload₀, rfl⟩ := List.mem_map.mp hload
    rw [hf.key, hf.token]
    exact h.issued load₀ hload₀
  unique load hload load' hload' htoken := by
    obtain ⟨load₀, hload₀, rfl⟩ := List.mem_map.mp hload
    obtain ⟨load₁, hload₁, rfl⟩ := List.mem_map.mp hload'
    rw [hf.token, hf.token] at htoken
    rw [h.unique load₀ hload₀ load₁ hload₁ htoken]
  puts q hq key token persistent p hl := by
    obtain ⟨load, hload, htoken, hkey, htags, hstage⟩ := h.puts q hq key token persistent p hl
    exact ⟨f load, List.mem_map_of_mem hload, (hf.token load).trans htoken,
      (hf.key load).trans hkey, by rw [hf.tags, htags], hf.stage load hstage⟩
  dead load hload ho := by
    obtain ⟨load₀, hload₀, rfl⟩ := List.mem_map.mp hload
    rw [hf.token]
    cases ho₀ : load₀.outdated with
    | true => exact h.dead load₀ hload₀ ho₀
    | false => exact hdead load₀ hload₀ ho ho₀
  written k e token hk hw := by
    obtain ⟨load, hload, rfl, rfl, htags, ho, hstage⟩ := h.written k e token hk hw
    refine ⟨f load, List.mem_map_of_mem hload, hf.token load, hf.key load, by rw [hf.tags, htags],
      ?_, hf.stage load hstage⟩
    cases ho' : (f load).outdated with
    | false => rfl
    | true => exact absurd hw (hwritten load hload hstage ho' ho e hk htags)

/-- The label of `outdate`. -/
def mark (p : Load → Bool) (load : Load) : Load :=
  if load.stage ≠ .leased ∧ p load = true then { load with outdated := true } else load

theorem relabels_mark (p : Load → Bool) : Relabels (mark p) := by
  constructor <;> intro load <;> unfold mark <;> split_ifs <;> simp

theorem mark_outdated {p : Load → Bool} {load : Load} (h : (mark p load).outdated = true)
    (ho : load.outdated = false) : load.stage ≠ .leased ∧ p load = true := by
  unfold mark at h
  split_ifs at h with hp
  · exact hp
  · rw [ho] at h
    cases h

/-- An invalidation that leaves the selected loads without a lease and without an entry. -/
theorem Inv.outdate (h : s.Inv c) {p : Load → Bool}
    (hdead : ∀ load ∈ s.loads, load.stage ≠ .leased → p load = true →
      ∀ k l, s.clients.engine.leases.get? k = some l → l.token ≠ load.token)
    (hgone : ∀ load ∈ s.loads, p load = true → ∀ e,
      s.clients.engine.entries.get? load.key = some e → e.tags = load.tags.dedup →
      s.writer load.key ≠ some load.token) :
    ({ s with loads := outdate p s.loads } : Service V).Inv c := by
  refine h.relabel (relabels_mark p) (fun load hload ho ho₀ => ?_)
    fun load hload _ ho ho₀ e hk htags => ?_
  · obtain ⟨hstage, hp⟩ := mark_outdated ho ho₀
    exact hdead load hload hstage hp
  · exact hgone load hload (mark_outdated ho ho₀).2 e hk htags

theorem relabels_update {f : Load → Load} (hf : Relabels f) (token : String) :
    Relabels fun load => if load.token = token then f load else load := by
  constructor <;> intro load <;> split_ifs
  · exact hf.key load
  · rfl
  · exact hf.tags load
  · rfl
  · exact hf.token load
  · rfl
  · exact hf.stage load
  · exact id

/-- A change of one load that does not make it outdated. -/
theorem Inv.update (h : s.Inv c) {f : Load → Load} (hf : Relabels f)
    (ho : ∀ load, load.outdated = false → (f load).outdated = false) (token : String) :
    ({ s with loads := updateLoad token f s.loads } : Service V).Inv c := by
  have hkeep : ∀ load : Load, load.outdated = false →
      (if load.token = token then f load else load).outdated = false := by
    intro load ho₀
    split_ifs
    · exact ho load ho₀
    · exact ho₀
  refine h.relabel (relabels_update hf token) (fun load _ ho' ho₀ => ?_) fun load _ _ ho' ho₀ => ?_
  · rw [hkeep load ho₀] at ho'
    cases ho'
  · rw [hkeep load ho₀] at ho'
    cases ho'

theorem relabels_send : Relabels Load.send := by
  constructor <;> intro load <;> unfold Load.send <;> split_ifs with hs <;> simp
  rcases hs with hs | hs <;> simp [hs]

theorem relabels_store : Relabels Load.store :=
  ⟨fun _ => rfl, fun _ => rfl, fun _ => rfl, fun _ _ => .inl rfl⟩

theorem relabels_fail : Relabels Load.fail :=
  ⟨fun _ => rfl, fun _ => rfl, fun _ => rfl, fun _ _ => .inr rfl⟩

/-- The write of a response starts. -/
theorem Inv.startStore (htok : Function.Injective c.tokenUrlsafe) (h : s.Inv c) {load : Load}
    (hload : load ∈ s.loads) (hstage : load.stage = .storing) (value : V)
    (ttlSeconds staleSeconds : Option ℤ) (persistent : Bool) :
    (s.move c (.startPut load.key value ttlSeconds staleSeconds load.tags (some load.token)
      persistent)).Inv c where
  clients := h.clients.apply htok (.startPut load.key value ttlSeconds staleSeconds load.tags
    (some load.token) persistent)
  issued load hload := issued_apply s.clients _ (h.issued load hload)
  unique := h.unique
  puts q hq key token persistent p hl := by
    obtain hq | ⟨value', ttl', stale', tags, hm, htags⟩ := pending_apply hq hl
    · exact h.puts q hq key token persistent p hl
    · obtain ⟨rfl, -, -, -, rfl, htoken, -⟩ := Move.startPut.inj hm
      exact ⟨load, hload, Option.some.inj htoken, rfl, htags, .inl hstage⟩
  dead load hload ho := dead_apply htok h.clients (h.issued load hload) (h.dead load hload ho) _
  written k e token hk hw := by
    have hkept : EntriesKept s.clients.engine (s.clients.apply c (.startPut load.key value
        ttlSeconds staleSeconds load.tags (some load.token) persistent)).engine :=
      entriesKept_apply h.clients (by simp)
    obtain ⟨e₀, hk₀, ht⟩ := hkept k e hk
    obtain ⟨load, hload, htoken, hkey, htags, hrest⟩ := h.written k e₀ token hk₀ hw
    exact ⟨load, hload, htoken, hkey, ht ▸ htags, hrest⟩

theorem Inv.simpleMove (htok : Function.Injective c.tokenUrlsafe) (h : s.Inv c) {m : Move V}
    (hstart : ∀ key value ttlSeconds staleSeconds tags token persistent,
      m ≠ .startPut key value ttlSeconds staleSeconds tags (some token) persistent)
    (henter : ∀ i, m ≠ .enter i) : (s.move c m).Inv c :=
  h.move htok hstart (entriesKept_apply h.clients fun i _ _ _ _ _ hm => absurd hm (henter i))

theorem Inv.lead (htok : Function.Injective c.tokenUrlsafe) (h : s.Inv c) (i : ℕ)
    (origin : HTTPOrigin) : (s.step c (.lead i origin)).Inv c := by
  simp only [step]
  split
  · rename_i key now late hi
    have hnow := h.clients.readings _ (List.mem_of_getElem? hi)
    have hmove : (s.move c (.enter i)).Inv c := by
      refine h.move htok (by simp) (entriesKept_apply h.clients fun j q k t b p hm hq hl => ?_)
      obtain rfl := Move.enter.inj hm
      rw [hi] at hq
      obtain rfl := Option.some.inj hq
      cases hl
    cases ht : issuedToken c key now s.clients.engine with
    | none => exact hmove
    | some token =>
      have hfresh := issuedToken_fresh htok h.clients hnow ht
      have hissued : (key, token) ∈ (s.clients.apply c (.enter i)).issued := by
        unfold issuedToken at ht
        simp only [Clients.apply, hi, Clients.enter]
        rcases ha : acquireLocked c key true now s.clients.engine with ⟨e | r, engine⟩ <;>
          rw [ha] at ht
        · cases ht
        · simp only at ht
          simp [ht]
      have hnew : ∀ load ∈ s.loads, load.token ≠ token := by
        rintro load hload rfl
        exact hfresh load.key (h.issued load hload)
      refine { hmove with issued := ?_, unique := ?_, puts := ?_, dead := ?_, written := ?_ }
      · intro load hload
        rcases List.mem_cons.mp hload with rfl | hload
        · exact hissued
        · exact hmove.issued load hload
      · intro load hload load' hload' htoken
        rcases List.mem_cons.mp hload with rfl | hload <;>
          rcases List.mem_cons.mp hload' with rfl | hload'
        · rfl
        · exact absurd htoken.symm (hnew load' hload')
        · exact absurd htoken (hnew load hload)
        · exact h.unique load hload load' hload' htoken
      · intro q hq key token persistent p hl
        obtain ⟨load, hload, hrest⟩ := hmove.puts q hq key token persistent p hl
        exact ⟨load, List.mem_cons_of_mem _ hload, hrest⟩
      · intro load hload ho
        rcases List.mem_cons.mp hload with rfl | hload
        · cases ho
        · exact hmove.dead load hload ho
      · intro k e token hk hw
        obtain ⟨load, hload, hrest⟩ := hmove.written k e token hk hw
        exact ⟨load, List.mem_cons_of_mem _ hload, hrest⟩
  · exact h

/-! ### Operations that invalidate -/

theorem delete_ok {key : Key} {b : Bool} {e e' : Engine V} (h : Engine.delete key e = (.ok b, e')) :
    e'.entries.get? key = none := by
  rw [Engine.delete, bind_eq_ok] at h
  obtain ⟨_, e₁, hkey, h⟩ := h
  obtain ⟨rfl, -⟩ := validateKey_ok hkey
  rw [run_lift, Prod.mk.injEq] at h
  rw [← h.2]
  simp only [deleteLocked]
  split <;> simp

/-- Ended tokens have no lease. -/
theorem Inv.dead_of_ended (h : s.Inv c) {token : String} (ht : token ∈ s.clients.ended) :
    ∀ k l, s.clients.engine.leases.get? k = some l → l.token ≠ token :=
  (h.clients.ended token ht).2

theorem Inv.mem_tokensOf (h : s.Inv c) {load : Load} (hload : load ∈ s.loads) :
    load.token ∈ s.clients.tokensOf load.key :=
  Clients.mem_tokensOf.mpr (h.issued load hload)

theorem Inv.delete (htok : Function.Injective c.tokenUrlsafe) (h : s.Inv c) (key : Key) :
    (s.step c (.delete key)).Inv c := by
  have hmove : (s.move c (.delete key)).Inv c := h.simpleMove htok (by simp) (by simp)
  simp only [step, invalidate]
  rcases hd : Engine.delete key s.clients.engine with ⟨e | b, engine⟩
  · exact hmove
  · refine hmove.outdate (fun load hload _ hp => ?_) fun load hload hp e hk => ?_
    all_goals obtain rfl : load.key = key := by simpa using hp
    · refine hmove.dead_of_ended ?_
      simp only [Service.move, Clients.apply, hd]
      exact List.mem_append_left _ (h.mem_tokensOf hload)
    · have hnone : (s.clients.apply c (.delete load.key)).engine.entries.get? load.key = none := by
        simp only [Clients.apply, hd]
        exact delete_ok hd
      exact absurd hk (by rw [Service.move, hnone]; simp)

theorem Inv.flush (htok : Function.Injective c.tokenUrlsafe) (h : s.Inv c) :
    (s.step c .flush).Inv c := by
  have hmove : (s.move c .flush).Inv c := h.simpleMove htok (by simp) (by simp)
  refine hmove.outdate (fun load hload _ _ k l hk => ?_) fun load hload _ e hk => ?_
  · simp [Service.move, Clients.apply, Engine.flush] at hk
  · simp [Service.move, Clients.apply, Engine.flush] at hk

theorem Inv.invalidateTags (htok : Function.Injective c.tokenUrlsafe) (h : s.Inv c)
    {tags : List Tag} (hindexed : s.Indexed (.invalidateTags tags)) :
    (s.step c (.invalidateTags tags)).Inv c := by
  have hmove : (s.move c (.invalidateTags tags)).Inv c := h.simpleMove htok (by simp) (by simp)
  simp only [step, invalidate]
  obtain ⟨e, hr⟩ | ⟨n, hr⟩ := invalidateTags_cases tags s.clients.engine
  · rw [hr]
    exact hmove
  rw [hr]
  have hindexes := h.clients.sound.accounts.indexes
  refine hmove.outdate (fun load hload hstage hp => ?_) fun load hload hp e hk htags => ?_
  all_goals
    obtain ⟨tag, htag, hmem⟩ : ∃ tag ∈ tags, tag ∈ load.tags := by simpa using hp
  · by_cases hlive : ∃ lease, s.clients.engine.leases.get? load.key = some lease ∧
        lease.token = load.token
    · obtain ⟨entry, hentry, htagged⟩ := hindexed load hload hstage ⟨tag, htag, hmem⟩ hlive
      have hkey : load.key ∈ taggedKeys tags s.clients.engine :=
        (mem_taggedKeys hindexes).mpr ⟨entry, hentry, htagged⟩
      refine hmove.dead_of_ended ?_
      simp only [Service.move, Clients.apply, hr]
      exact List.mem_append_left _ (List.mem_flatMap.mpr ⟨load.key, hkey, h.mem_tokensOf hload⟩)
    · -- no lease with this token: there was none before either
      refine dead_apply htok h.clients (h.issued load hload) (fun k l hl htoken => hlive ?_) _
      have hissued := h.clients.leases k l hl
      rw [htoken] at hissued
      obtain rfl := h.clients.unique _ _ _ hissued (h.issued load hload)
      exact ⟨l, hl, htoken⟩
  · have hfilter : (s.clients.apply c (.invalidateTags tags)).engine.entries.get? load.key =
        (s.clients.engine.entries.get? load.key).filter fun e => ¬∃ t ∈ tags, t ∈ e.tags := by
      simp only [Clients.apply, hr]
      exact get?_invalidateLocked hindexes load.key
    rw [Service.move, hfilter, Option.filter_eq_some_iff] at hk
    have hnone : ¬∃ t ∈ tags, t ∈ e.tags := by simpa using hk.2
    exact absurd ⟨tag, htag, by rw [htags]; exact List.mem_dedup.mpr hmem⟩ hnone

/-- The deletions of `delete_many`. -/
def deleteAll (c : EngineConfig V) (s : Service V) (keys : List Key) : Service V :=
  { s with clients := keys.foldl (fun s key => s.apply c (.delete key)) s.clients }

theorem deleteAll_cons (s : Service V) (key : Key) (keys : List Key) :
    s.deleteAll c (key :: keys) = (s.move c (.delete key)).deleteAll c keys := rfl

/-- A key without an entry, and an issued token without a lease, stay so. -/
theorem Inv.deleteAll (htok : Function.Injective c.tokenUrlsafe) (h : s.Inv c) (keys : List Key) :
    (s.deleteAll c keys).Inv c ∧
    EntriesKept s.clients.engine (s.deleteAll c keys).clients.engine ∧
    ∀ load ∈ s.loads, (∀ k l, s.clients.engine.leases.get? k = some l → l.token ≠ load.token) →
      ∀ k l, (s.deleteAll c keys).clients.engine.leases.get? k = some l → l.token ≠ load.token := by
  induction keys generalizing s with
  | nil => exact ⟨h, .refl _, fun _ _ hd => hd⟩
  | cons key keys ih =>
    have hmove : (s.move c (.delete key)).Inv c := h.simpleMove htok (by simp) (by simp)
    obtain ⟨hinv, hkept, hdead⟩ := ih hmove
    rw [deleteAll_cons]
    have hfirst : EntriesKept s.clients.engine (s.clients.apply c (.delete key)).engine :=
      entriesKept_apply h.clients (by simp)
    refine ⟨hinv, hfirst.trans hkept, fun load hload hd => hdead load hload ?_⟩
    exact dead_apply htok h.clients (h.issued load hload) hd _

theorem delete_isKey {key : Key} (hkey : isKey key = true) (e : Engine V) :
    ∃ b e', Engine.delete key e = (.ok b, e') := by
  have hvalid : ¬(key = "" ∨ 1024 < key.length) := by
    have := of_decide_eq_true hkey
    push Not
    exact this
  refine ⟨(deleteLocked key e).1, (deleteLocked key e).2, ?_⟩
  rw [Engine.delete, validateKey, if_neg hvalid]
  rfl

/-- Deleted keys have no entry, and the tokens that were issued for them no lease. -/
theorem Inv.deleteAll_gone (htok : Function.Injective c.tokenUrlsafe) (h : s.Inv c)
    {keys : List Key} (hkeys : ∀ key ∈ keys, isKey key = true) :
    ∀ load ∈ s.loads, load.key ∈ keys →
      (s.deleteAll c keys).clients.engine.entries.get? load.key = none ∧
      ∀ k l, (s.deleteAll c keys).clients.engine.leases.get? k = some l → l.token ≠ load.token := by
  induction keys generalizing s with
  | nil => simp
  | cons key keys ih =>
    intro load hload hmem
    have hmove : (s.move c (.delete key)).Inv c := h.simpleMove htok (by simp) (by simp)
    rw [deleteAll_cons]
    rcases List.mem_cons.mp hmem with rfl | hmem
    · obtain ⟨b, e', hd⟩ := delete_isKey (hkeys load.key List.mem_cons_self) s.clients.engine
      obtain ⟨-, hkept, hdead⟩ := hmove.deleteAll htok keys
      refine ⟨?_, hdead load hload (hmove.dead_of_ended ?_)⟩
      · cases hend : ((s.move c (.delete load.key)).deleteAll c keys).clients.engine.entries.get?
          load.key with
        | none => rfl
        | some e =>
          obtain ⟨e₀, he₀, -⟩ := hkept _ _ hend
          have hnone : (s.clients.apply c (.delete load.key)).engine.entries.get? load.key = none := by
            simp only [Clients.apply, hd]
            exact delete_ok hd
          rw [Service.move, hnone] at he₀
          cases he₀
      · simp only [Service.move, Clients.apply, hd]
        exact List.mem_append_left _ (h.mem_tokensOf hload)
    · exact ih hmove (fun k hk => hkeys k (List.mem_cons_of_mem _ hk)) load hload hmem

theorem Inv.deleteMany (htok : Function.Injective c.tokenUrlsafe) (h : s.Inv c)
    (keys : List Key) : (s.step c (.deleteMany keys)).Inv c := by
  simp only [step]
  split_ifs with hall
  · have hkeys : ∀ key ∈ keys, isKey key = true := List.all_eq_true.mp hall
    have htake : keys.takeWhile isKey = keys := by
      rw [List.takeWhile_eq_self_iff]
      exact hkeys
    rw [htake]
    have hgone := h.deleteAll_gone htok hkeys
    refine (h.deleteAll htok keys).1.outdate (fun load hload _ hp => ?_) fun load hload hp e hk => ?_
    all_goals have hmem : load.key ∈ keys := by simpa using hp
    · exact (hgone load hload hmem).2
    · rw [(hgone load hload hmem).1] at hk
      cases hk
  · exact (h.deleteAll htok (keys.takeWhile isKey)).1

/-- The response of a load that still owns its key is stored; the other loads of the key
are outdated. -/
theorem Inv.enterPut (htok : Function.Injective c.tokenUrlsafe) (h : s.Inv c) {i : ℕ} {key : Key}
    {leaseToken : Option String} {persistent : Bool} {p : PreparedPut V} {now : ℚ} {late : Bool}
    (hi : s.clients.pending[i]? = some ⟨.put key leaseToken persistent p, now, late⟩) :
    (s.enterPut c i key leaseToken
      (putLocked c key leaseToken persistent p now s.clients.engine).1).Inv c := by
  have hpending := List.mem_of_getElem? hi
  have hnow := h.clients.readings _ hpending
  rcases hp : putLocked c key leaseToken persistent p now s.clients.engine with ⟨e | r, engine⟩
  · refine h.move htok (by simp) (entriesKept_apply h.clients fun j q k t b p' hm hq hl => ?_)
    obtain rfl := Move.enter.inj hm
    rw [hi] at hq
    obtain rfl := Option.some.inj hq
    obtain ⟨rfl, rfl, rfl, rfl⟩ := Locked.put.inj hl
    exact ⟨e, engine, hp⟩
  have hengine : (s.clients.apply c (.enter i)).engine = engine := by
    simp only [Clients.apply, hi, Clients.enter, hp]
  have hended : ∀ load ∈ s.loads, load.key = key →
      load.token ∈ (s.clients.apply c (.enter i)).ended := by
    rintro load hload rfl
    simp only [Clients.apply, hi, Clients.enter, hp]
    exact List.mem_append_left _ (h.mem_tokensOf hload)
  have hclients := h.clients.apply htok (.enter i)
  have hentries := entries_putLocked h.clients hnow hp
  -- the load whose response this is
  have howner : ∀ token, leaseToken = some token → ∃ load ∈ s.loads, load.token = token ∧
      load.key = key ∧ p.tags = load.tags.dedup ∧ load.outdated = false ∧
      (load.stage = .storing ∨ load.stage = .failed) := by
    rintro token rfl
    obtain ⟨load, hload, rfl, hkey, htags, hstage⟩ := h.puts _ hpending key token persistent p rfl
    obtain ⟨l, hl, -, htoken⟩ := putLocked_guarded hp load.token rfl
    refine ⟨load, hload, rfl, hkey, htags, ?_, hstage⟩
    cases ho : load.outdated with
    | false => rfl
    | true => exact absurd htoken (h.dead load hload ho key l hl)
  have hbase : ({ s.move c (.enter i) with
      writer := Function.update s.writer key leaseToken } : Service V).Inv c := by
    refine ⟨hclients, fun load hload => issued_apply s.clients _ (h.issued load hload), h.unique,
      fun q hq k t b p' hl => ?_, fun load hload ho =>
        dead_apply htok h.clients (h.issued load hload) (h.dead load hload ho) _,
      fun k e token hk hw => ?_⟩
    · obtain hq | ⟨_, _, _, _, hm, -⟩ := pending_apply hq hl
      · exact h.puts q hq k t b p' hl
      · cases hm
    · have hw' : Function.update s.writer key leaseToken k = some token := hw
      rw [Service.move, hengine] at hk
      obtain ⟨rfl, htags⟩ | ⟨hkey, e₀, hk₀, ht⟩ := hentries k e hk
      · rw [Function.update_self] at hw'
        obtain ⟨load, hload, htoken, hkey, hptags, hrest⟩ := howner token hw'
        exact ⟨load, hload, htoken, hkey, htags.trans hptags, hrest⟩
      · rw [Function.update_of_ne hkey] at hw'
        obtain ⟨load, hload, htoken, hlkey, hltags, hrest⟩ := h.written k e₀ token hk₀ hw'
        exact ⟨load, hload, htoken, hlkey, ht ▸ hltags, hrest⟩
  refine hbase.outdate (fun load hload _ hsel => ?_) fun load hload hsel e hk _ => ?_
  all_goals
    obtain ⟨hkey, hother⟩ : load.key = key ∧ some load.token ≠ leaseToken := by simpa using hsel
  · exact hbase.dead_of_ended (hended load hload hkey)
  · show Function.update s.writer key leaseToken load.key ≠ some load.token
    rw [hkey, Function.update_self]
    exact fun heq => hother heq.symm

theorem Inv.step (htok : Function.Injective c.tokenUrlsafe) (h : s.Inv c) {event : LoadEvent V}
    (hindexed : s.Indexed event) : (s.step c event).Inv c := by
  cases event with
  | startAcquire key => exact h.simpleMove htok (by simp) (by simp)
  | lead i origin => exact h.lead htok i origin
  | send token =>
    refine h.update relabels_send (fun load ho => ?_) token
    unfold Load.send
    split_ifs
    · rfl
    · exact ho
  | respond token value ttlSeconds staleSeconds =>
    simp only [Service.step]
    split
    · rename_i load hfind
      have hload := List.mem_of_find?_eq_some hfind
      obtain ⟨rfl, -⟩ : load.token = token ∧ load.stage = .sent := by
        simpa using List.find?_some hfind
      have hstored := h.update relabels_store (fun _ ho => ho) load.token
      have hmem : load.store ∈ updateLoad load.token Load.store s.loads := by
        refine List.mem_map.mpr ⟨load, hload, ?_⟩
        rw [if_pos rfl]
      exact hstored.startStore htok hmem rfl value (some ttlSeconds) (some staleSeconds) false
    · exact h
  | fail token =>
    simp only [Service.step]
    split
    · rename_i load hfind
      have hfailed := h.update relabels_fail (fun _ ho => ho) token
      exact hfailed.simpleMove htok (m := .release load.key token) (by simp) (by simp)
    · exact h
  | startRenew token =>
    simp only [Service.step]
    split
    · exact h.simpleMove htok (by simp) (by simp)
    · exact h
  | startPut => exact h.simpleMove htok (by simp) (by simp)
  | enter i =>
    simp only [Service.step]
    split
    · rename_i key leaseToken persistent p now late hi
      exact h.enterPut htok hi
    · rename_i hi
      refine h.move htok (by simp) (entriesKept_apply h.clients fun j q k t b p hm hq hl => ?_)
      obtain rfl := Move.enter.inj hm
      rw [hi] at hq
      obtain rfl := Option.some.inj hq
      cases hl
    · exact h
  | delete key => exact h.delete htok key
  | deleteMany keys => exact h.deleteMany htok keys
  | invalidateTags tags => exact h.invalidateTags htok hindexed
  | flush => exact h.flush htok
  | get key => exact h.simpleMove htok (by simp) (by simp)

/-- `delete_many` of the model is the one of the engine. -/
theorem deleteMany_engine (keys : List Key) (s : Service V) :
    (s.step c (.deleteMany keys)).clients.engine = (Engine.deleteMany keys s.clients.engine).2 := by
  rw [Engine.deleteMany, run_bind_pure]
  simp only [step]
  generalize s.clients = clients
  induction keys generalizing clients with
  | nil => rfl
  | cons key keys ih =>
    rw [collect]
    cases hkey : isKey key with
    | true =>
      obtain ⟨b, e', hd⟩ := delete_isKey hkey clients.engine
      have happly : (clients.apply c (.delete key)).engine = e' := by
        simp only [Clients.apply, hd]
      rw [List.takeWhile_cons_of_pos hkey, List.foldl_cons, ih, happly, run_bind_ok hd,
        run_bind_pure]
    | false =>
      have hinvalid : key = "" ∨ 1024 < key.length := by
        by_contra hvalid
        push Not at hvalid
        rw [isKey, decide_eq_true hvalid] at hkey
        cases hkey
      have hd : Engine.delete key clients.engine =
          (.error (valueError "key must contain between 1 and 1024 characters"), clients.engine) := by
        rw [Engine.delete, validateKey, if_pos hinvalid]
        rfl
      rw [List.takeWhile_cons_of_neg (by simp [hkey]), run_bind_error hd]
      rfl

end Service

theorem IndexedRun.inv (htok : Function.Injective c.tokenUrlsafe) {s : Service V}
    (h : IndexedRun c s) : s.Inv c := by
  induction h with
  | init => exact Service.Inv.init c
  | step _ hi ih => exact ih.step htok hi

/-- Events without an invalidation of tags. -/
theorem IndexedRun.events {s : Service V} (h : IndexedRun c s) {events : List (LoadEvent V)}
    (hi : ∀ event ∈ events, ∀ s' : Service V, s'.Indexed event) :
    IndexedRun c (events.foldl (Service.step c) s) := by
  induction events generalizing s with
  | nil => exact h
  | cons event events ih =>
    exact ih (h.step (hi event List.mem_cons_self s)) fun e he => hi e (List.mem_cons_of_mem _ he)

/-- In every run in which each invalidation of tags finds an entry with one of the tags under
the key of each load that has one of them and holds its lease: a load that was invalidated
after its request was sent is not accepted by a `put` any more, and no entry is its response. -/
theorem late_response_not_stored (htok : Function.Injective c.tokenUrlsafe) {s : Service V}
    (h : IndexedRun c s) {load : Load} (hload : load ∈ s.loads) (ho : load.outdated = true) :
    ¬Accepts c s.clients.engine load.key load.token ∧
    ∀ entry, s.clients.engine.entries.get? load.key = some entry →
      s.writer load.key ≠ some load.token := by
  have hinv := h.inv htok
  constructor
  · rintro ⟨persistent, p, now, r, engine, hp⟩
    obtain ⟨l, hl, -, htoken⟩ := putLocked_guarded hp load.token rfl
    exact hinv.dead load hload ho load.key l hl htoken
  · intro entry hentry hw
    obtain ⟨load', hload', htoken, -, -, ho', -⟩ := hinv.written _ entry _ hentry hw
    rw [hinv.unique load' hload' load hload htoken, ho] at ho'
    cases ho'

theorem smallConfig_tokens : Function.Injective smallConfig.tokenUrlsafe := by
  intro i j hij
  have hlength := congrArg String.length hij
  simpa [smallConfig] using hlength

/-- An origin that tags what it loads. -/
def catalog : HTTPOrigin := { Gate.brittle with tags := ["products"] }

/-- A load of an absent key during which the tag of its origin is invalidated. -/
def lateLoad : List (LoadEvent String) :=
  [.startAcquire "a", .lead 0 catalog, .send "t", .invalidateTags ["products"],
    .respond "t" "1" 60 0, .enter 0]

theorem lateLoad_stored :
    ¬ ∀ (c : EngineConfig String) (events : List (LoadEvent String)),
      Function.Injective c.tokenUrlsafe →
      ∀ load ∈ (events.foldl (Service.step c) .init).loads, load.outdated = true →
        ∀ entry, (events.foldl (Service.step c) .init).clients.engine.entries.get? load.key =
          some entry → (events.foldl (Service.step c) .init).writer load.key ≠ some load.token := by
  intro h
  have hlate : let s := lateLoad.foldl (Service.step smallConfig) .init
      s.loads = [⟨"a", ["products"], "t", .storing, true⟩] ∧ s.writer "a" = some "t" ∧
        (s.clients.engine.entries.get? "a").map Entry.value = some "1" := by
    decide +kernel
  obtain ⟨hloads, hwriter, hentry⟩ := hlate
  obtain ⟨entry, hget, -⟩ := Option.map_eq_some_iff.mp hentry
  exact h smallConfig lateLoad smallConfig_tokens _ (by rw [hloads]; exact List.mem_singleton_self _)
    rfl entry hget hwriter

/-- The same load of a key that has an entry with the tag. -/
def indexedLoad : List (LoadEvent String) :=
  [.startPut "a" "0" none none ["products"] false, .enter 0, .startAcquire "a", .lead 0 catalog,
    .send "t"]

theorem indexedLoad_not_stored :
    ∃ load ∈ ((indexedLoad.foldl (Service.step smallConfig) .init).step smallConfig
      (.invalidateTags ["products"])).loads, load.token = "t" ∧ load.outdated = true ∧
      ¬Accepts smallConfig ((indexedLoad.foldl (Service.step smallConfig) .init).step smallConfig
        (.invalidateTags ["products"])).clients.engine load.key load.token := by
  have hbefore : IndexedRun smallConfig (indexedLoad.foldl (Service.step smallConfig) .init) :=
    IndexedRun.init.events (by simp [indexedLoad, Service.Indexed])
  have hentry : ((indexedLoad.foldl (Service.step smallConfig) .init).clients.engine.entries.get?
      "a").map Entry.tags = some ["products"] := by
    decide +kernel
  have hloads : (indexedLoad.foldl (Service.step smallConfig) .init).loads =
      [⟨"a", ["products"], "t", .sent, false⟩] := by
    decide +kernel
  have hindexed : (indexedLoad.foldl (Service.step smallConfig) .init).Indexed
      (.invalidateTags ["products"]) := by
    intro load hload _ _ _
    rw [hloads] at hload
    obtain rfl := List.mem_singleton.mp hload
    obtain ⟨entry, hget, htags⟩ := Option.map_eq_some_iff.mp hentry
    exact ⟨entry, hget, "products", List.mem_singleton_self _, by rw [htags]; simp⟩
  have hafter : ((indexedLoad.foldl (Service.step smallConfig) .init).step smallConfig
      (.invalidateTags ["products"])).loads = [⟨"a", ["products"], "t", .sent, true⟩] := by
    decide +kernel
  have hmem : (⟨"a", ["products"], "t", .sent, true⟩ : Load) ∈
      ((indexedLoad.foldl (Service.step smallConfig) .init).step smallConfig
        (.invalidateTags ["products"])).loads := by
    rw [hafter]
    exact List.mem_singleton_self _
  exact ⟨_, hmem, rfl, rfl,
    (late_response_not_stored smallConfig_tokens (hbefore.step hindexed) hmem rfl).1⟩

end Origin
end MegaCache
