import MegaCache.Engine.Writes

/-!
# Single-key journals

`begin_mutation_checkpoint` opens a journal of one key.  While only that key is
written, the journal and the engine together still determine the state at the
beginning: other keys can only have been removed, and every removal is in the
journal.  `restore_mutation_checkpoint` therefore gives that state back, up to
the order of the entries; under `lru` the order comes back as well.
-/

namespace MegaCache
namespace Engine

open Prog

variable {V : Type} {c : EngineConfig V}

/-- Every edit of one key, and removals for expiry of any key. -/
def Permit.journaled (key : Key) : Permit V where
  touch := (· = key)
  expire _ := True
  drop := (· = key)
  store k _ := k = key
  update k _ := k = key
  lapse := (· = key)
  release := (· = key)
  grant _ _ := False
  renew _ := False

/-- Every edit of one key. -/
def Permit.confined (key : Key) : Permit V := { Permit.journaled key with expire := (· = key) }

/-- The engine `s`, with the journal `j` of `key` open since state `s₀`. -/
structure Journaling (s₀ : Engine V) (key : Key) (handle : ℕ) (s : Engine V)
    (j : MutationCheckpoint V) : Prop where
  active : s.activeMutation = some j
  handle_eq : j.handle = handle
  key_eq : j.key = key
  entry_eq : j.entry = s₀.entries.get? key
  predecessor_eq : j.predecessor = predecessorOf key s₀.entries.keys
  lease_eq : j.lease = s₀.leases.get? key
  usedBytes_eq : j.usedBytes = s₀.usedBytes
  leaseBytes_eq : j.leaseBytes = s₀.leaseBytes
  metrics_eq : j.metrics = s₀.metrics
  evicted_nodup : (j.evictedEntries.map Prod.fst).Nodup
  evicted : ∀ q ∈ j.evictedEntries, q.1 ≠ key ∧ s₀.entries.get? q.1 = some q.2 ∧
    s.entries.get? q.1 = none
  kept : ∀ k, k ≠ key → k ∉ j.evictedEntries.map Prod.fst →
    s.entries.get? k = s₀.entries.get? k
  leases : ∀ k, k ≠ key → s.leases.get? k = s₀.leases.get? k

namespace Journaling

variable {s₀ s s' : Engine V} {key : Key} {handle : ℕ} {j : MutationCheckpoint V}

/-- Changes of the entry and the lease of the journaled key leave the journal alone. -/
theorem frame (h : Journaling s₀ key handle s j) (ha : s'.activeMutation = s.activeMutation)
    (he : ∀ k, k ≠ key → s'.entries.get? k = s.entries.get? k)
    (hl : ∀ k, k ≠ key → s'.leases.get? k = s.leases.get? k) :
    Journaling s₀ key handle s' j :=
  { h with
    active := ha.trans h.active
    evicted := by
      intro q hq
      obtain ⟨hne, h₀, hs⟩ := h.evicted q hq
      exact ⟨hne, h₀, (he q.1 hne).trans hs⟩
    kept := fun k hk hn => (he k hk).trans (h.kept k hk hn)
    leases := fun k hk => (hl k hk).trans (h.leases k hk) }

theorem notMem_evicted (h : Journaling s₀ key handle s j) {k : Key} {e : Entry V}
    (hg : s.entries.get? k = some e) : k ∉ j.evictedEntries.map Prod.fst := by
  intro hm
  obtain ⟨q, hq, rfl⟩ := List.mem_map.mp hm
  have := (h.evicted q hq).2.2
  rw [hg] at this
  cases this

/-- A removed entry of another key goes to the journal. -/
theorem removeOther (h : Journaling s₀ key handle s j) {k : Key} {e : Entry V} (hk : k ≠ key)
    (hg : s.entries.get? k = some e) :
    Journaling s₀ key handle (removeEntry k s)
      { j with evictedEntries := j.evictedEntries ++ [(k, e)] } := by
  have hnot := h.notMem_evicted hg
  have hjr : journalRemoval k e j = { j with evictedEntries := j.evictedEntries ++ [(k, e)] } := by
    have hk' : k ≠ j.key := h.key_eq ▸ hk
    exact if_pos ⟨hk', hnot⟩
  have h₀ : s₀.entries.get? k = some e := (h.kept k hk hnot).symm.trans hg
  refine ⟨?_, h.handle_eq, h.key_eq, h.entry_eq, h.predecessor_eq, h.lease_eq, h.usedBytes_eq,
    h.leaseBytes_eq, h.metrics_eq, ?_, ?_, ?_, ?_⟩
  · simp [removeEntry, hg, h.active, hjr]
  · rw [List.map_append]
    refine List.nodup_append'.mpr ⟨h.evicted_nodup, by simp, ?_⟩
    intro a ha ha'
    have : a = k := by simpa using ha'
    exact hnot (this ▸ ha)
  · intro q hq
    rw [removeEntry_entries, OrderedDict.get?_erase]
    rcases List.mem_append.mp hq with hq | hq
    · obtain ⟨hne, hq₀, hqs⟩ := h.evicted q hq
      exact ⟨hne, hq₀, by simp [hqs]⟩
    · obtain rfl : q = (k, e) := by simpa using hq
      exact ⟨hk, h₀, by simp⟩
  · intro k' hk' hn
    rw [List.map_append, List.mem_append, not_or] at hn
    have hne : k' ≠ k := by simpa using hn.2
    rw [removeEntry_entries, OrderedDict.get?_erase, if_neg hne]
    exact h.kept k' hk' hn.1
  · intro k' hk'
    rw [removeEntry_leases]
    exact h.leases k' hk'

/-- The removal of the journaled key itself is not recorded again. -/
theorem removeOwn (h : Journaling s₀ key handle s j) :
    Journaling s₀ key handle (removeEntry key s) j := by
  refine h.frame ?_ ?_ ?_
  · cases hg : s.entries.get? key with
    | none => rw [removeEntry_of_none hg]
    | some e =>
      have hj : journalRemoval key e j = j := if_neg fun hne => hne.1 h.key_eq.symm
      simp [removeEntry, hg, h.active, hj]
  · intro k hk
    rw [removeEntry_entries, OrderedDict.get?_erase, if_neg hk]
  · intro k _
    rw [removeEntry_leases]

theorem removeEntry (h : Journaling s₀ key handle s j) (k : Key) :
    ∃ j', Journaling s₀ key handle (removeEntry k s) j' := by
  by_cases hk : k = key
  · exact ⟨j, hk ▸ h.removeOwn⟩
  · cases hg : s.entries.get? k with
    | none =>
      rw [removeEntry_of_none hg]
      exact ⟨j, h⟩
    | some e => exact ⟨_, h.removeOther hk hg⟩

theorem removeLease (h : Journaling s₀ key handle s j) :
    Journaling s₀ key handle (removeLease key s) j := by
  refine h.frame (by simp) (by simp) ?_
  intro k hk
  rw [removeLease_leases, OrderedDict.get?_erase, if_neg hk]

theorem storeEntry (h : Journaling s₀ key handle s j) (e : Entry V) :
    Journaling s₀ key handle (storeEntry key e s) j := by
  refine h.removeOwn.frame rfl ?_ (fun _ _ => rfl)
  intro k hk
  rw [get?_storeEntry, if_neg hk, removeEntry_entries, OrderedDict.get?_erase, if_neg hk]

theorem updateEntry (h : Journaling s₀ key handle s j) (f : Entry V → Entry V) :
    Journaling s₀ key handle (updateEntry key f s) j := by
  refine h.frame ?_ ?_ ?_
  · unfold Engine.updateEntry
    split <;> rfl
  · intro k hk
    rw [get?_updateEntry, if_neg hk]
  · intro k _
    rw [updateEntry_leases]

/-- One edit of the journaled key, or one eviction or expiry of any key. -/
theorem edit (hs : Edit c (Permit.journaled key) s s') (h : ∃ j, Journaling s₀ key handle s j) :
    ∃ j, Journaling s₀ key handle s' j := by
  obtain ⟨j, h⟩ := h
  cases hs with
  | tick | draw | bump => exact ⟨j, h.frame rfl (fun _ _ => rfl) fun _ _ => rfl⟩
  | touch a t hp hg =>
    obtain rfl := hp
    refine ⟨j, h.frame rfl ?_ fun _ _ => rfl⟩
    intro k hk
    rw [OrderedDict.get?_setLast, if_neg hk]
  | expire hp hg hi hd => exact h.removeEntry _
  | evict hm hv =>
    obtain ⟨j', h'⟩ := h.removeEntry ‹Key›
    exact ⟨j', h'.frame rfl (fun _ _ => rfl) fun _ _ => rfl⟩
  | drop hp => exact h.removeEntry _
  | store hp =>
    obtain rfl := hp
    exact ⟨j, h.storeEntry _⟩
  | update hp hf =>
    obtain rfl := hp
    exact ⟨j, h.updateEntry _⟩
  | lapse hp hg hi hd =>
    obtain rfl := hp
    exact ⟨j, h.removeLease⟩
  | release hp =>
    obtain rfl := hp
    exact ⟨j, h.removeLease⟩
  | grant hp hg => exact hp.elim
  | renew t hp hg => exact hp.elim

theorem edits (hs : Edits c (Permit.journaled key) s s')
    (h : ∃ j, Journaling s₀ key handle s j) : ∃ j, Journaling s₀ key handle s' j :=
  Edits.keep (I := fun s => ∃ j, Journaling s₀ key handle s j) (fun _ _ => edit) hs h

end Journaling

/-- The journal that `begin_mutation_checkpoint` opens. -/
def openedJournal (key : Key) (s : Engine V) : MutationCheckpoint V where
  handle := s.journals
  key := key
  entry := s.entries.get? key
  predecessor := predecessorOf key s.entries.keys
  lease := s.leases.get? key
  usedBytes := s.usedBytes
  leaseBytes := s.leaseBytes
  metrics := s.metrics
  evictedEntries := []

theorem beginMutationCheckpoint_ok {key : Key} {s : Engine V} (hk : key ≠ "" ∧ key.length ≤ 1024)
    (ha : s.activeMutation = none) : beginMutationCheckpoint key s = (.ok s.journals,
      { s with journals := s.journals + 1, activeMutation := some (openedJournal key s) }) := by
  have hkey : validateKey key s = (.ok (), s) := by
    have hn : ¬(key = "" ∨ 1024 < key.length) := by
      push Not
      exact hk
    simp [validateKey, hn]
  rw [beginMutationCheckpoint, run_bind_ok hkey, run_bind_ok (run_get s), ha]
  rfl

theorem beginMutationCheckpoint_cases (key : Key) (s : Engine V) :
    (∃ e, beginMutationCheckpoint key s = (.error e, s)) ∨
    s.activeMutation = none ∧ beginMutationCheckpoint key s = (.ok s.journals,
      { s with journals := s.journals + 1, activeMutation := some (openedJournal key s) }) := by
  by_cases hk : key ≠ "" ∧ key.length ≤ 1024
  · cases ha : s.activeMutation with
    | none => exact .inr ⟨rfl, beginMutationCheckpoint_ok hk ha⟩
    | some j =>
      have hn : ¬(key = "" ∨ 1024 < key.length) := by
        push Not
        exact hk
      refine .inl ⟨⟨.runtimeError, "a cache mutation checkpoint is already active"⟩, ?_⟩
      simp [beginMutationCheckpoint, validateKey, hn, run_bind, ha]
  · have hbad : key = "" ∨ 1024 < key.length := by
      by_contra hn
      push Not at hn
      exact hk hn
    have hkey : validateKey key s =
        (.error (valueError "key must contain between 1 and 1024 characters"), s) := by
      rw [validateKey, if_pos hbad]
      rfl
    exact .inl ⟨_, run_bind_error hkey _⟩

/-- Opening a journal: the state is the one to be restored. -/
theorem Journaling.opened (key : Key) (s : Engine V) : Journaling s key s.journals
    { s with journals := s.journals + 1, activeMutation := some (openedJournal key s) }
    (openedJournal key s) where
  active := rfl
  handle_eq := rfl
  key_eq := rfl
  entry_eq := rfl
  predecessor_eq := rfl
  lease_eq := rfl
  usedBytes_eq := rfl
  leaseBytes_eq := rfl
  metrics_eq := rfl
  evicted_nodup := List.nodup_nil
  evicted := by simp [openedJournal]
  kept _ _ _ := rfl
  leases _ _ := rfl

/-! ## Rolling back -/

/-- The evicted entries are put back before the others, in the order in which they were. -/
theorem restoreEvicted_entries (l : List (Key × Entry V)) {s : Engine V}
    (hn : (l.map Prod.fst).Nodup) (hs : ∀ q ∈ l, s.entries.get? q.1 = none) :
    (l.reverse.foldl (fun s q => restoreEvicted q s) s).entries.toList =
      l ++ s.entries.toList := by
  rw [List.foldl_reverse]
  induction l with
  | nil => rfl
  | cons q l ih =>
    simp only [List.map_cons, List.nodup_cons] at hn
    have ih' := ih hn.2 fun r hr => hs r (List.mem_cons_of_mem q hr)
    set u : Engine V := l.foldr (fun q s => restoreEvicted q s) s with hu
    have hq : u.entries.get? q.1 = none := by
      rw [OrderedDict.get?_eq_none]
      intro hm
      rw [OrderedDict.keys, ih', List.map_append, List.mem_append] at hm
      rcases hm with hm | hm
      · exact hn.1 hm
      · exact OrderedDict.get?_eq_none.mp (hs q List.mem_cons_self) hm
    rw [List.foldr_cons, ← hu]
    simp only [restoreEvicted, OrderedDict.setFirst, removeEntry_entries,
      OrderedDict.erase_eq_self hq, ih', List.cons_append]

theorem Indexes.restoreEvicted {s : Engine V} (h : Indexes s.tags s.entries)
    (q : Key × Entry V) : Indexes (restoreEvicted q s).tags (restoreEvicted q s).entries := by
  refine (h.removeEntry q.1).add (by simp) ?_
  intro k
  exact OrderedDict.get?_setFirst _ _ _ _

theorem restoreEvicted_indexes (l : List (Key × Entry V)) {s : Engine V}
    (h : Indexes s.tags s.entries) :
    Indexes (l.foldl (fun s q => restoreEvicted q s) s).tags
      (l.foldl (fun s q => restoreEvicted q s) s).entries := by
  induction l generalizing s with
  | nil => exact h
  | cons q l ih => exact ih (h.restoreEvicted q)

theorem restoreEvicted_leases (l : List (Key × Entry V)) (s : Engine V) :
    (l.foldl (fun s q => restoreEvicted q s) s).leases = s.leases := by
  induction l generalizing s with
  | nil => rfl
  | cons q l ih =>
    rw [List.foldl_cons, ih]
    simp [restoreEvicted]

/-- The state of a rollback in which everything but the journaled key is back. -/
def othersRestored (j : MutationCheckpoint V) (s : Engine V) : Engine V :=
  j.evictedEntries.reverse.foldl (fun s q => restoreEvicted q s)
    (removeLease j.key (removeEntry j.key { s with activeMutation := none }))

theorem rollback_eq (j : MutationCheckpoint V) (s : Engine V) : rollback j s =
    { restoreJournaled j (othersRestored j s) with
      leases := match j.lease with
        | none => (restoreJournaled j (othersRestored j s)).leases
        | some lease => (restoreJournaled j (othersRestored j s)).leases.set j.key lease
      usedBytes := j.usedBytes
      leaseBytes := j.leaseBytes
      metrics := j.metrics } := rfl

section Rollback

variable {s₀ s : Engine V} {key : Key} {handle : ℕ} {j : MutationCheckpoint V}

theorem othersRestored_entries (h : Journaling s₀ key handle s j) :
    (othersRestored j s).entries.toList = j.evictedEntries ++ (s.entries.erase key).toList := by
  unfold othersRestored
  rw [restoreEvicted_entries _ h.evicted_nodup]
  · simp [h.key_eq]
  · intro q hq
    have := (h.evicted q hq).2.2
    simp [OrderedDict.get?_erase, this]

theorem get?_othersRestored (h : Journaling s₀ key handle s j) (k : Key) :
    (othersRestored j s).entries.get? k = (s₀.entries.erase key).get? k := by
  apply OrderedDict.get?_eq_of_mem
  intro e
  rw [othersRestored_entries h, List.mem_append, OrderedDict.mem_toList, OrderedDict.mem_toList,
    OrderedDict.get?_erase, OrderedDict.get?_erase]
  by_cases hk : k = key
  · subst hk
    have : (k, e) ∉ j.evictedEntries := fun hm => (h.evicted _ hm).1 rfl
    simp [this]
  · simp only [hk, ↓reduceIte]
    by_cases hm : k ∈ j.evictedEntries.map Prod.fst
    · obtain ⟨q, hq, rfl⟩ := List.mem_map.mp hm
      obtain ⟨_, h₀, hs⟩ := h.evicted q hq
      simp only [hs, reduceCtorEq, or_false, h₀, Option.some.injEq]
      constructor
      · intro hme
        have := (h.evicted _ hme).2.1
        rw [h₀] at this
        exact Option.some.inj this
      · rintro rfl
        exact hq
    · have : (k, e) ∉ j.evictedEntries := fun hme => hm (List.mem_map_of_mem hme)
      simp [this, h.kept k hk hm]

theorem othersRestored_indexes (hi : Indexes s.tags s.entries) :
    Indexes (othersRestored j s).tags (othersRestored j s).entries := by
  apply restoreEvicted_indexes
  have := Indexes.removeEntry (s := { s with activeMutation := none }) hi j.key
  simpa using this

theorem othersRestored_leases (j : MutationCheckpoint V) (s : Engine V) :
    (othersRestored j s).leases = s.leases.erase j.key := by
  rw [othersRestored, restoreEvicted_leases]
  simp

theorem get?_restoreJournaled (h : Journaling s₀ key handle s j) (k : Key) :
    (restoreJournaled j (othersRestored j s)).entries.get? k = s₀.entries.get? k := by
  have hoth := get?_othersRestored h k
  rw [OrderedDict.get?_erase] at hoth
  have he := h.entry_eq
  have hkey := h.key_eq
  unfold restoreJournaled
  cases hj : j.entry with
  | none =>
    rw [hj] at he
    by_cases hk : k = key
    · rw [hoth, if_pos hk, hk, ← he]
    · rw [hoth, if_neg hk]
  | some e =>
    rw [hj] at he
    have hget : (if k = key then some e else (othersRestored j s).entries.get? k) =
        s₀.entries.get? k := by
      split_ifs with hk
      · rw [hk, ← he]
      · rw [hoth, if_neg hk]
    cases hp : j.predecessor with
    | none => simp only [OrderedDict.get?_setFirst, hkey, hget]
    | some a => simp only [OrderedDict.get?_setAfter, hkey, hget]

theorem restoreJournaled_indexes (h : Journaling s₀ key handle s j)
    (hi : Indexes s.tags s.entries) :
    Indexes (restoreJournaled j (othersRestored j s)).tags
      (restoreJournaled j (othersRestored j s)).entries := by
  have ho := othersRestored_indexes (j := j) hi
  unfold restoreJournaled
  cases hj : j.entry with
  | none => exact ho
  | some e =>
    have habsent : (othersRestored j s).entries.get? j.key = none := by
      rw [get?_othersRestored h, h.key_eq]
      exact OrderedDict.get?_erase_self _ _
    refine ho.add habsent ?_
    intro k
    cases hp : j.predecessor with
    | none => exact OrderedDict.get?_setFirst _ _ _ _
    | some a => exact OrderedDict.get?_setAfter _ _ _ _ _

theorem restoreJournaled_leases (j : MutationCheckpoint V) (s : Engine V) :
    (restoreJournaled j s).leases = s.leases := by
  unfold restoreJournaled
  split <;> rfl

theorem get?_rollback_entries (h : Journaling s₀ key handle s j) (k : Key) :
    (rollback j s).entries.get? k = s₀.entries.get? k :=
  get?_restoreJournaled h k

theorem get?_rollback_leases (h : Journaling s₀ key handle s j) (k : Key) :
    (rollback j s).leases.get? k = s₀.leases.get? k := by
  have hl := h.lease_eq
  have hkey := h.key_eq
  rw [rollback_eq]
  cases hj : j.lease with
  | none =>
    rw [hj] at hl
    simp only [restoreJournaled_leases, othersRestored_leases, hkey, OrderedDict.get?_erase]
    split_ifs with hk
    · rw [hk, ← hl]
    · exact h.leases k hk
  | some l =>
    rw [hj] at hl
    simp only [restoreJournaled_leases, othersRestored_leases, hkey, OrderedDict.get?_set,
      OrderedDict.get?_erase]
    split_ifs with hk
    · rw [hk, ← hl]
    · exact h.leases k hk

/-- A rollback gives back lookups, counters and metrics, and a correct tag index. -/
theorem rollback_accounts (h : Journaling s₀ key handle s j) (h₀ : Accounts s₀)
    (hi : Indexes s.tags s.entries) : Accounts (rollback j s) where
  leaseBytes_eq := by
    have : leaseSum (rollback j s).leases = leaseSum s₀.leases :=
      OrderedDict.sumBy_congr (get?_rollback_leases h) _
    rw [this, ← h₀.leaseBytes_eq, ← h.leaseBytes_eq]
    rfl
  usedBytes_eq := by
    have : entryBytes (rollback j s).entries = entryBytes s₀.entries :=
      OrderedDict.sumBy_congr (get?_rollback_entries h) _
    rw [this]
    calc (rollback j s).usedBytes = j.usedBytes := rfl
      _ = s₀.leaseBytes + entryBytes s₀.entries := by rw [h.usedBytes_eq, h₀.usedBytes_eq]
      _ = (rollback j s).leaseBytes + entryBytes s₀.entries := by rw [← h.leaseBytes_eq]; rfl
  indexes := restoreJournaled_indexes h hi

theorem rollback_bounded (h : Journaling s₀ key handle s j) (h₀ : Bounded c s₀) :
    Bounded c (rollback j s) where
  usedBytes_le := by
    calc (rollback j s).usedBytes = j.usedBytes := rfl
      _ = s₀.usedBytes := h.usedBytes_eq
      _ ≤ c.maxMemoryBytes := h₀.usedBytes_le
  entries_le := by
    rw [OrderedDict.size_congr (get?_rollback_entries h)]
    exact h₀.entries_le
  leases_le := by
    rw [OrderedDict.size_congr (get?_rollback_leases h)]
    exact h₀.leases_le

/-! ## The order of the entries under `lru` -/

/-- The other entries of `s₀` are the evicted ones followed by those still there. -/
def OrderKept (s₀ s : Engine V) (key : Key) (j : MutationCheckpoint V) : Prop :=
  (s₀.entries.erase key).toList = j.evictedEntries ++ (s.entries.erase key).toList

/-- An eviction under `lru` takes the front entry. -/
theorem OrderKept.removeFront (h : OrderKept s₀ s key j) {k : Key} {e : Entry V} (hk : k ≠ key)
    {l : List (Key × Entry V)} (hl : s.entries.toList = (k, e) :: l) :
    OrderKept s₀ (removeEntry k s) key
      { j with evictedEntries := j.evictedEntries ++ [(k, e)] } := by
  have hrest : (s.entries.erase k).toList = l := @OrderedDict.toList_erase_split _ _ _ _ _ _ [] _ hl
  have hfront : (s.entries.erase key).toList = (k, e) :: ((s.entries.erase k).erase key).toList := by
    simp only [OrderedDict.erase, hl] at hrest ⊢
    rw [hrest]
    simp [hk]
  unfold OrderKept at h ⊢
  rw [h, hfront, removeEntry_entries]
  simp

/-- What the edits of one key keep under `lru`. -/
def Journaled (s₀ : Engine V) (key : Key) (handle : ℕ) (s : Engine V) : Prop :=
  ∃ j, Journaling s₀ key handle s j ∧ OrderKept s₀ s key j

theorem Journaled.of_own {s' : Engine V} (hj : Journaling s₀ key handle s' j)
    (h : OrderKept s₀ s key j) (he : s'.entries.erase key = s.entries.erase key) :
    Journaled s₀ key handle s' :=
  ⟨j, hj, by rw [OrderKept, he]; exact h⟩

theorem erase_updateEntry (k : Key) (f : Entry V → Entry V) (s : Engine V) :
    (updateEntry k f s).entries.erase k = s.entries.erase k := by
  unfold updateEntry
  split
  · rfl
  · exact OrderedDict.erase_set _ _ _

theorem Journaled.edit (hlru : c.evictionPolicy = .lru) {s' : Engine V}
    (hs : Edit c (Permit.confined key) s s') (h : Journaled s₀ key handle s) :
    Journaled s₀ key handle s' := by
  obtain ⟨j, hj, ho⟩ := h
  cases hs with
  | tick | draw | bump => exact ⟨j, hj.frame rfl (fun _ _ => rfl) (fun _ _ => rfl), ho⟩
  | touch a t hp hg =>
    obtain rfl := hp
    refine .of_own (hj.frame rfl ?_ fun _ _ => rfl) ho (OrderedDict.erase_setLast _ _ _)
    intro k hk
    rw [OrderedDict.get?_setLast, if_neg hk]
  | expire hp hg hi hd =>
    obtain rfl := hp
    exact .of_own hj.removeOwn ho (by simp [OrderedDict.erase_erase])
  | evict hm hv =>
    rename_i k
    by_cases hk : k = key
    · subst hk
      have hown := hj.removeOwn
      exact .of_own (hown.frame rfl (fun _ _ => rfl) fun _ _ => rfl) ho
        (by simp [OrderedDict.erase_erase])
    · -- the victim is the first entry and joins the journal behind the earlier victims
      obtain ⟨e, l, hl⟩ : ∃ e l, s.entries.toList = (k, e) :: l := by
        have hhead := hv hlru
        cases hl : s.entries.toList with
        | nil => simp [OrderedDict.keys, hl] at hhead
        | cons q l =>
          have : q.1 = k := by simpa [OrderedDict.keys, hl] using hhead
          exact ⟨q.2, l, by rw [← this]⟩
      have hg : s.entries.get? k = some e := by
        rw [← OrderedDict.mem_toList, hl]
        exact List.mem_cons_self
      have hother := hj.removeOther hk hg
      exact ⟨_, hother.frame rfl (fun _ _ => rfl) fun _ _ => rfl, ho.removeFront hk hl⟩
  | drop hp =>
    obtain rfl := hp
    exact .of_own hj.removeOwn ho (by simp [OrderedDict.erase_erase])
  | store hp =>
    obtain rfl := hp
    exact .of_own (hj.storeEntry _) ho (by rw [storeEntry_entries, OrderedDict.erase_setLast])
  | update hp hf =>
    obtain rfl := hp
    exact .of_own (hj.updateEntry _) ho (erase_updateEntry _ _ _)
  | lapse hp hg hi hd =>
    obtain rfl := hp
    exact .of_own hj.removeLease ho (by simp)
  | release hp =>
    obtain rfl := hp
    exact .of_own hj.removeLease ho (by simp)
  | grant hp hg => exact hp.elim
  | renew t hp hg => exact hp.elim

theorem Journaled.edits (hlru : c.evictionPolicy = .lru) {s' : Engine V}
    (hs : Edits c (Permit.confined key) s s') (h : Journaled s₀ key handle s) :
    Journaled s₀ key handle s' :=
  Edits.keep (I := Journaled s₀ key handle) (fun _ _ => Journaled.edit hlru) hs h

/-- A pair put back behind the key that was directly before it. -/
theorem restore_predecessor {d : OrderedDict Key (Entry V)} {e : Entry V}
    (h : d.get? key = some e) :
    (match predecessorOf key d.keys with
      | none => (d.erase key).setFirst key e
      | some a => (d.erase key).setAfter a key e) = d := by
  obtain ⟨l₁, l₂, hl, hn₁, _⟩ := OrderedDict.exists_split h
  have htake : d.keys.takeWhile (· ≠ key) = l₁.map Prod.fst := by
    rw [OrderedDict.keys, hl, List.map_append, List.map_cons, List.takeWhile_append_of_pos]
    · simp
    · intro k hk
      have : k ≠ key := fun he => hn₁ (he ▸ hk)
      simpa using this
  rw [predecessorOf, htake]
  rcases List.eq_nil_or_concat l₁ with rfl | ⟨l, ⟨a, w⟩, rfl⟩
  · exact OrderedDict.setFirst_erase hl
  · have hl' : d.toList = l ++ (a, w) :: (key, e) :: l₂ := by simpa using hl
    simpa using OrderedDict.setAfter_erase hl'

/-- Under `lru` a rollback gives back the very list of entries. -/
theorem rollback_entries (hj : Journaling s₀ key handle s j) (ho : OrderKept s₀ s key j) :
    (rollback j s).entries = s₀.entries := by
  have hoth : (othersRestored j s).entries = s₀.entries.erase key := by
    apply OrderedDict.ext
    rw [othersRestored_entries hj, ho]
  have he := hj.entry_eq
  change (restoreJournaled j (othersRestored j s)).entries = s₀.entries
  unfold restoreJournaled
  cases hje : j.entry with
  | none =>
    rw [hje] at he
    exact hoth.trans (OrderedDict.erase_eq_self he.symm)
  | some e =>
    rw [hje] at he
    have hback := restore_predecessor he.symm
    rw [← hj.predecessor_eq] at hback
    cases hp : j.predecessor with
    | none =>
      simp only [hp] at hback
      simp only [hoth, hj.key_eq, hback]
    | some a =>
      simp only [hp] at hback
      simp only [hoth, hj.key_eq, hback]

end Rollback

end Engine
end MegaCache
