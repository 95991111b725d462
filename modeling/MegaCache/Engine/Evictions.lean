import MegaCache.Lib.Recency
import MegaCache.Engine.Atomicity
import MegaCache.Engine.Held
import MegaCache.Engine.Stock

/-!
# Evictions

The rounds of `_evict_if_needed`.  Under `lru` a write gives up the shortest prefix of the
other entries, in the order of their last use, behind which both limits are kept.
-/

namespace MegaCache
namespace Engine

open Prog

variable {V : Type} {c : EngineConfig V} {s s' : Engine V}

/-! ## Rounds -/

section Rounds

variable (c)

/-- The key that the next round takes out. -/
def chosen (s : Engine V) : Option Key :=
  match c.evictionPolicy with
  | .lru => s.entries.keys.head?
  | .cost => cheapest (fun entry => c.evictionScore entry (c.clock s.ticks)) s.entries.toList

/-- The clock readings made so far when a round has chosen its key. -/
def roundTicks (s : Engine V) : ℕ :=
  match c.evictionPolicy with
  | .lru => s.ticks
  | .cost => s.ticks + 1

/-- The engine behind a round that took the key out. -/
def evicted (key : Key) (s : Engine V) : Engine V :=
  bump (match c.evictionPolicy with
    | .cost => .costEvictions
    | .lru => .lruEvictions) 1
    (bump .evictions 1 (removeEntry key { s with ticks := roundTicks c s }))

/-- The rounds of the eviction loop, with the keys they take out. -/
inductive Evicts : Engine V → List Key → Engine V → Prop
  | done {s : Engine V} (h : ¬overLimit c s) : Evicts s [] s
  | round {s s' : Engine V} {key : Key} {keys : List Key} (ho : overLimit c s)
      (hk : chosen c s = some key) (h : Evicts (evicted c key s) keys s') :
      Evicts s (key :: keys) s'

end Rounds

theorem victim_run (s : Engine V) :
    victim c s = (.ok (chosen c s), { s with ticks := roundTicks c s }) := by
  unfold victim chosen roundTicks
  cases c.evictionPolicy <;> rfl

theorem evicts_of_evictLoop {n : ℕ} (h : evictLoop c n s = (.ok (), s')) :
    ∃ keys, Evicts c s keys s' := by
  induction n generalizing s with
  | zero =>
    rw [evictLoop, run_bind_ok (run_get s)] at h
    split_ifs at h with ho
    · cases h
    · obtain rfl : s = s' := by simpa using h
      exact ⟨[], .done ho⟩
  | succ n ih =>
    rw [evictLoop, run_bind_ok (run_get s)] at h
    split_ifs at h with ho
    · rw [run_bind_ok (victim_run s)] at h
      cases hk : chosen c s with
      | none =>
        rw [hk] at h
        cases h
      | some key =>
        rw [hk] at h
        obtain ⟨keys, hkeys⟩ := ih (s := evicted c key s) h
        exact ⟨key :: keys, .round ho hk hkeys⟩
    · obtain rfl : s = s' := by simpa using h
      exact ⟨[], .done ho⟩

@[simp] theorem evicted_entries (key : Key) (s : Engine V) :
    (evicted c key s).entries = s.entries.erase key := by
  simp [evicted]

@[simp] theorem evicted_leases (key : Key) (s : Engine V) : (evicted c key s).leases = s.leases := by
  simp [evicted]

@[simp] theorem evicted_leaseBytes (key : Key) (s : Engine V) :
    (evicted c key s).leaseBytes = s.leaseBytes := by
  simp [evicted]

theorem evicted_ticks (key : Key) (s : Engine V) : (evicted c key s).ticks = roundTicks c s := by
  simp [evicted]

theorem Accounts.evicted (h : Accounts s) (key : Key) : Accounts (evicted c key s) := by
  have htick : Accounts { s with ticks := roundTicks c s } :=
    ⟨h.leaseBytes_eq, h.usedBytes_eq, h.indexes⟩
  have hr := htick.removeEntry key
  exact ⟨hr.leaseBytes_eq, hr.usedBytes_eq, hr.indexes⟩

theorem chosen_mem {key : Key} (h : chosen c s = some key) : key ∈ s.entries.keys := by
  unfold chosen at h
  split at h
  · exact List.mem_of_mem_head? h
  · exact cheapest_mem h

theorem Evicts.fits {keys : List Key} (h : Evicts c s keys s') : ¬overLimit c s' := by
  induction h with
  | done ho => exact ho
  | round _ _ _ ih => exact ih

theorem Evicts.leases {keys : List Key} (h : Evicts c s keys s') : s'.leases = s.leases := by
  induction h with
  | done => rfl
  | round _ _ _ ih => rw [ih, evicted_leases]

theorem Evicts.accounts {keys : List Key} (h : Evicts c s keys s') (ha : Accounts s) :
    Accounts s' := by
  induction h with
  | done => exact ha
  | round _ _ _ ih => exact ih (ha.evicted _)

/-- The rounds take out the keys they name, which were all present, and nothing else. -/
theorem Evicts.toList_eq {keys : List Key} (h : Evicts c s keys s') :
    s'.entries.toList = s.entries.toList.filter (fun q => q.1 ∉ keys) := by
  induction h with
  | done => simp
  | round ho hk h ih =>
    rw [ih, evicted_entries]
    simp only [OrderedDict.erase, List.filter_filter]
    refine List.filter_congr fun q _ => ?_
    simp [Bool.and_comm]

theorem Evicts.get?_eq {keys : List Key} (h : Evicts c s keys s') (key : Key) :
    s'.entries.get? key = if key ∈ keys then none else s.entries.get? key := by
  have hmem : ∀ e, s'.entries.get? key = some e ↔ s.entries.get? key = some e ∧ key ∉ keys := by
    intro e
    rw [← OrderedDict.mem_toList, h.toList_eq, List.mem_filter, OrderedDict.mem_toList]
    simp
  apply Option.ext
  intro e
  rw [hmem e]
  split_ifs with hk <;> simp [hk]

/-- Entries in this order exceed a limit beside leases of this size. -/
def Overfull (c : EngineConfig V) (leaseBytes : ℤ) (l : List (Key × Entry V)) : Prop :=
  c.maxEntries < l.length ∨
    (c.maxMemoryBytes : ℤ) < (l.map fun q => (q.2.sizeBytes : ℤ)).sum + leaseBytes

instance (leaseBytes : ℤ) : DecidablePred (Overfull c leaseBytes) := fun l => by
  unfold Overfull
  infer_instance

theorem Accounts.overLimit_iff (h : Accounts s) :
    overLimit c s ↔ Overfull c s.leaseBytes s.entries.toList := by
  unfold overLimit Overfull
  rw [h.usedBytes_eq, entryBytes, OrderedDict.sumBy, add_comm]
  rfl

/-- The least recently used entries go until the rest fits. -/
theorem Evicts.trimmed (hlru : c.evictionPolicy = .lru) {keys : List Key}
    (h : Evicts c s keys s') (ha : Accounts s) :
    s'.entries = s.entries.trimmed (Overfull c s.leaseBytes) ∧ s'.ticks = s.ticks := by
  induction h with
  | done ho => exact ⟨(OrderedDict.trimmed_eq_self (mt ha.overLimit_iff.mpr ho)).symm, rfl⟩
  | @round s s' key keys ho hk h ih =>
    obtain ⟨hentries, hticks⟩ := ih (ha.evicted key)
    refine ⟨?_, by rw [hticks, evicted_ticks, roundTicks, hlru]⟩
    rw [hentries, evicted_entries, evicted_leaseBytes]
    simp only [chosen, hlru] at hk
    obtain ⟨q, l, hl, rfl⟩ : ∃ q l, s.entries.toList = q :: l ∧ q.1 = key := by
      cases hl : s.entries.toList with
      | nil => simp [OrderedDict.keys, hl] at hk
      | cons q l => exact ⟨q, l, rfl, by simpa [OrderedDict.keys, hl] using hk⟩
    have hfull := ha.overLimit_iff.mp ho
    apply OrderedDict.ext
    simp only [OrderedDict.trimmed, OrderedDict.toList_erase_head hl]
    rw [hl] at hfull ⊢
    rw [OrderedDict.trim, if_pos hfull]

/-! ## Writes -/

variable {key : Key} {value : V} {ttlSeconds staleSeconds : Option ℤ} {tags : List Tag}
  {token : Option String} {persistent : Bool}

/-- The checks of a write: its arguments, its lease and the memory beside the other leases. -/
structure AcceptsPut (c : EngineConfig V) (s : Engine V) (key : Key) (value : V)
    (ttlSeconds staleSeconds : Option ℤ) (tags : List Tag) (token : Option String)
    (persistent : Bool) (p : PreparedPut V) : Prop where
  prepared : preparePut c key value ttlSeconds staleSeconds tags persistent true s = (.ok p, s)
  lease : checkLease key token (c.clock s.ticks) { s with ticks := s.ticks + 1 } =
    (.ok (), { s with ticks := s.ticks + 1 })
  capacity : p.sizeBytes + reservedBytes key s ≤ c.maxMemoryBytes

/-- What an accepted write went through. -/
theorem put_evicts {r : CacheResult V}
    (h : put c key value ttlSeconds staleSeconds tags token persistent s = (.ok r, s')) :
    ∃ p keys s₁, AcceptsPut c s key value ttlSeconds staleSeconds tags token persistent p ∧
      Evicts c (written key p persistent (c.clock s.ticks) { s with ticks := s.ticks + 1 }) keys s₁ ∧
      lookup c key false s₁ = (.ok r, s') := by
  rw [put, bind_eq_ok] at h
  obtain ⟨p, s₀, hp, h⟩ := h
  obtain ⟨rfl, -⟩ := preparePut_ok hp
  change putLocked c key token persistent p (c.clock s₀.ticks)
    { s₀ with ticks := s₀.ticks + 1 } = (.ok r, s') at h
  rw [putLocked, bind_eq_ok] at h
  obtain ⟨⟨⟩, u, hcheck, h⟩ := h
  obtain ⟨rfl, -⟩ := checkLease_ok hcheck
  rw [run_bind_ok (run_get _)] at h
  split_ifs at h with hcap
  · cases h
  · simp only [run_bind_ok (run_modify _ _)] at h
    rw [bind_eq_ok] at h
    obtain ⟨⟨⟩, s₁, hevict, hlook⟩ := h
    rw [evictIfNeeded, run_bind_ok (run_get _)] at hevict
    obtain ⟨keys, hkeys⟩ := evicts_of_evictLoop hevict
    exact ⟨p, keys, s₁, ⟨hp, hcheck, not_lt.mp hcap⟩, hkeys, hlook⟩

theorem written_entries (p : PreparedPut V) (now : ℚ) (s : Engine V) :
    (written key p persistent now s).entries =
      s.entries.setLast key (writtenEntry p persistent now (s.entries.get? key)) := by
  rw [written, bump_entries, removeLease_entries, storeEntry_entries]

theorem Accounts.written (h : Accounts s) (key : Key) (persistent : Bool) (p : PreparedPut V)
    (now : ℚ) :
    Accounts (written key p persistent now s) := by
  have hw := (h.storeEntry key (writtenEntry p persistent now (s.entries.get? key))).removeLease key
  exact ⟨hw.leaseBytes_eq, hw.usedBytes_eq, hw.indexes⟩

/-- What the leases of the other keys take. -/
theorem Accounts.reservedBytes_eq (h : Accounts s) (key : Key) :
    reservedBytes key s = leaseSum (s.leases.erase key) := by
  rw [reservedBytes, h.leaseBytes_eq]
  cases hl : s.leases.get? key with
  | none => rw [OrderedDict.erase_eq_self hl, sub_zero]
  | some l =>
    rw [leaseSum, leaseSum, OrderedDict.sumBy_erase hl]

theorem written_leaseBytes (h : Accounts s) (key : Key) (persistent : Bool) (p : PreparedPut V)
    (now : ℚ) :
    (written key p persistent now s).leaseBytes = leaseSum (s.leases.erase key) := by
  rw [(h.written key persistent p now).leaseBytes_eq, written, bump_leases, removeLease_leases,
    storeEntry_leases]

/-- Besides the key looked up a lookup leaves every entry where it is. -/
theorem lookupAt_erase (now : ℚ) (key : Key) (count : Bool) (s : Engine V) :
    (lookupAt now key count s).2.entries.erase key = s.entries.erase key := by
  unfold lookupAt
  cases hg : s.entries.get? key with
  | none => rw [countIf_entries]
  | some e =>
    dsimp only
    split_ifs
    · rw [countIf_entries, countIf_entries, removeEntry_entries, OrderedDict.erase_erase]
    · rw [countIf_entries, OrderedDict.erase_setLast]
    · rw [countIf_entries, OrderedDict.erase_setLast]

theorem putRecord_value {now : ℚ} {w : Written V}
    (h : TimedMap.putRecord c value ttlSeconds staleSeconds tags persistent now = some w) :
    c.codec.snapshotValue value = some w.value := by
  unfold TimedMap.putRecord at h
  obtain ⟨stored, hstored, hw⟩ := Option.map_eq_some_iff.mp h
  rw [hstored]
  exact congrArg some (congrArg Written.value hw)

/-! ### Refusals -/

/-- The program does not ask an empty map for its first key. -/
def Refuses {α : Type} (m : EngineM V α) : Prop :=
  ∀ s e s', m s = (.error e, s') → e.kind ≠ .stopIteration

theorem Refuses.pure {α : Type} (a : α) : Refuses (Pure.pure a : EngineM V α) := by
  intro s e s' h
  cases h

theorem Refuses.throw {α : Type} {e : PyError} (h : e.kind ≠ .stopIteration) :
    Refuses (throw e : EngineM V α) := by
  intro s e' s' he
  obtain ⟨rfl, -⟩ : e = e' ∧ s = s' := by simpa using he
  exact h

theorem Refuses.bind {α β : Type} {m : EngineM V α} {f : α → EngineM V β} (hm : Refuses m)
    (hf : ∀ a, Refuses (f a)) : Refuses (m >>= f) := by
  intro s e s' h
  rcases bind_eq_error.mp h with h | ⟨a, s₁, -, h⟩
  · exact hm s e s' h
  · exact hf a s₁ e s' h

theorem Refuses.ite {α : Type} {b : Prop} [Decidable b] {m n : EngineM V α} (hm : Refuses m)
    (hn : Refuses n) : Refuses (if b then m else n) := by
  split
  · exact hm
  · exact hn

theorem Refuses.modify (f : Engine V → Engine V) : Refuses (modify f : EngineM V Unit) := by
  intro s e s' h
  cases h

theorem refuses_valueError {α : Type} (message : String) :
    Refuses (throw (valueError message) : EngineM V α) :=
  .throw (by simp [valueError])

theorem refuses_duration (value : Option ℤ) (d : ℕ) (name : String) (z : Bool) :
    Refuses (duration (V := V) value d name z) := .ite (refuses_valueError _) (.pure _)

theorem refuses_preparePut (count : Bool) :
    Refuses (preparePut c key value ttlSeconds staleSeconds tags persistent count) := by
  refine .bind (.ite (refuses_valueError _) (.pure _)) fun _ => ?_
  refine .bind (.ite (.ite (refuses_valueError _) (.pure _))
    (.bind (refuses_duration _ _ _ _) fun _ => .bind (refuses_duration _ _ _ _) fun _ => .pure _))
    fun _ => ?_
  refine .bind (.ite (refuses_valueError _) (.ite (refuses_valueError _) (.pure _))) fun _ => ?_
  refine .bind ?_ fun _ => .bind ?_ fun _ => ?_
  · unfold snapshotValue
    split
    · exact refuses_valueError _
    · exact .pure _
  · unfold entrySize
    split
    · exact refuses_valueError _
    · exact .pure _
  · exact .ite (.bind (.modify _) fun _ => refuses_valueError _)
      (.ite (.bind (.modify _) fun _ => refuses_valueError _) (.pure _))

theorem refuses_checkLease (now : ℚ) : Refuses (checkLease (V := V) key token now) := by
  unfold checkLease
  split
  · exact .pure _
  · refine .bind (by intro s e s' h; cases h) fun s => ?_
    split
    · exact refuses_valueError _
    · refine .ite (.bind (.modify _) fun _ => refuses_valueError _) (.bind ?_ fun _ => ?_)
      · exact .ite (.pure _) (.throw (by simp))
      · exact .ite (.pure _) (refuses_valueError _)

/-- A write that passes its checks returns. -/
theorem put_accepted {p : PreparedPut V} (hs : Sound c s)
    (h : AcceptsPut c s key value ttlSeconds staleSeconds tags token persistent p) :
    ∃ r s', put c key value ttlSeconds staleSeconds tags token persistent s = (.ok r, s') := by
  have htick : Sound c { s with ticks := s.ticks + 1 } :=
    hs.edits Permit.nothing_shrinking (Edits.one (.tick s))
  have hlease := written_leaseBytes htick.accounts key persistent p (c.clock s.ticks)
  have hreserved := htick.accounts.reservedBytes_eq key
  have hcap := h.capacity
  have hcap' : p.sizeBytes + reservedBytes key { s with ticks := s.ticks + 1 } ≤ c.maxMemoryBytes :=
    h.capacity
  obtain ⟨s₂, hevict, -⟩ := evictIfNeeded_ok (c := c)
    (htick.accounts.written key persistent p (c.clock s.ticks)) (by omega)
  rw [put, run_bind_ok h.prepared]
  change ∃ r s', putLocked c key token persistent p (c.clock s.ticks)
    { s with ticks := s.ticks + 1 } = (.ok r, s')
  rw [putLocked, run_bind_ok h.lease, run_bind_ok (run_get _), if_neg (not_lt.mpr hcap')]
  simp only [run_bind_ok (run_modify _ _)]
  exact ⟨_, _, run_bind_ok hevict _⟩

/-- A write is refused before it stores anything, and never by an empty map. -/
theorem put_refused {e : PyError} (hs : Sound c s)
    (h : put c key value ttlSeconds staleSeconds tags token persistent s = (.error e, s')) :
    e.kind ≠ .stopIteration ∧ s'.entries = s.entries := by
  have hrefused : ∀ p, ¬AcceptsPut c s key value ttlSeconds staleSeconds tags token persistent p := by
    intro p hp
    obtain ⟨r, u, hok⟩ := put_accepted hs hp
    rw [h] at hok
    cases hok
  rw [put, bind_eq_error] at h
  rcases h with h | ⟨p, s₀, hp, h⟩
  · have hsame := (untouched_preparePut key value ttlSeconds staleSeconds tags persistent).run h
    exact ⟨refuses_preparePut true s e s' h, hsame.entries⟩
  · obtain ⟨rfl, -⟩ := preparePut_ok hp
    change putLocked c key token persistent p (c.clock s₀.ticks)
      { s₀ with ticks := s₀.ticks + 1 } = (.error e, s') at h
    rw [putLocked, bind_eq_error] at h
    rcases h with h | ⟨⟨⟩, s₁, hcheck, h⟩
    · have hentries := checkLease_entries key token (c.clock s₀.ticks) { s₀ with ticks := s₀.ticks + 1 }
      rw [h] at hentries
      exact ⟨refuses_checkLease _ _ e s' h, hentries⟩
    · obtain ⟨rfl, -⟩ := checkLease_ok hcheck
      rw [run_bind_ok (run_get _)] at h
      split_ifs at h with hcap
      · obtain ⟨he, rfl⟩ := Prod.mk.inj h
        obtain rfl := Except.error.inj he
        exact ⟨by simp [valueError], rfl⟩
      · exact absurd ⟨hp, hcheck, not_lt.mp hcap⟩ (hrefused p)

def crowdedRun : List (Event String) :=
  [.call (.put "a" "1" none none [] none false), .call (.put "b" "2" none none [] none false)]

def crowdedSession : Session String := crowdedRun.foldl (Session.apply smallConfig) ⟨init, []⟩

theorem crowdedSession_reachable : Reachable smallConfig crowdedSession :=
  Reachable.init.run crowdedRun (by decide +kernel : Session.AllowedRun smallConfig _ _)

end Engine
end MegaCache
