import MegaCache.Engine.Edits

/-!
# The representation invariant of the cache engine

`Accounts` ties the byte counters and the tag index to the entries and leases;
every elementary edit keeps it.  `Bounded` are the configured limits; writing
and leasing check them, everything else only takes entries and leases away.
-/

namespace MegaCache
namespace Engine

variable {V : Type}

/-- The bytes of all entries. -/
def entryBytes (d : OrderedDict Key (Entry V)) : ℤ := d.sumBy fun q => q.2.sizeBytes

/-- The bytes of all leases. -/
def leaseSum (d : OrderedDict Key Lease) : ℤ := d.sumBy fun q => q.2.sizeBytes

/-- The counters and the tag index agree with the entries and the leases. -/
structure Accounts (s : Engine V) : Prop where
  leaseBytes_eq : s.leaseBytes = leaseSum s.leases
  usedBytes_eq : s.usedBytes = s.leaseBytes + entryBytes s.entries
  indexes : Indexes s.tags s.entries

/-- The configured limits. -/
structure Bounded (c : EngineConfig V) (s : Engine V) : Prop where
  usedBytes_le : s.usedBytes ≤ c.maxMemoryBytes
  entries_le : s.entries.size ≤ c.maxEntries
  leases_le : s.leases.size ≤ c.maxEntries

theorem entryBytes_nonneg (d : OrderedDict Key (Entry V)) : 0 ≤ entryBytes d :=
  d.sumBy_nonneg fun q => Int.natCast_nonneg q.2.sizeBytes

theorem leaseSum_nonneg (d : OrderedDict Key Lease) : 0 ≤ leaseSum d :=
  d.sumBy_nonneg fun q => Int.natCast_nonneg q.2.sizeBytes

theorem Accounts.leaseBytes_nonneg {s : Engine V} (h : Accounts s) : 0 ≤ s.leaseBytes := by
  rw [h.leaseBytes_eq]
  exact leaseSum_nonneg s.leases

theorem Accounts.leaseBytes_le {s : Engine V} (h : Accounts s) : s.leaseBytes ≤ s.usedBytes := by
  have := entryBytes_nonneg s.entries
  rw [h.usedBytes_eq]
  omega

theorem Accounts.init : Accounts (init : Engine V) where
  leaseBytes_eq := rfl
  usedBytes_eq := rfl
  indexes := Indexes.empty

theorem Bounded.init (c : EngineConfig V) : Bounded c init where
  usedBytes_le := by simp [Engine.init]
  entries_le := by simp [Engine.init]
  leases_le := by simp [Engine.init]

/-! ## Single edits -/

theorem usedBytes_removeEntry {s : Engine V} {k : Key} {e : Entry V}
    (h : s.entries.get? k = some e) : (removeEntry k s).usedBytes = s.usedBytes - e.sizeBytes := by
  simp [removeEntry, h]

theorem tags_removeEntry {s : Engine V} {k : Key} {e : Entry V}
    (h : s.entries.get? k = some e) : (removeEntry k s).tags = discardTags k e.tags s.tags := by
  simp [removeEntry, h]

theorem removeEntry_of_none {s : Engine V} {k : Key} (h : s.entries.get? k = none) :
    removeEntry k s = s := by
  simp [removeEntry, h]

theorem removeLease_of_none {s : Engine V} {k : Key} (h : s.leases.get? k = none) :
    removeLease k s = s := by
  simp [removeLease, h]

/-- The index after a removal, whatever the counters are. -/
theorem Indexes.removeEntry {s : Engine V} (h : Indexes s.tags s.entries) (k : Key) :
    Indexes (removeEntry k s).tags (removeEntry k s).entries := by
  cases hg : s.entries.get? k with
  | none => rwa [removeEntry_of_none hg]
  | some e =>
    rw [tags_removeEntry hg, removeEntry_entries]
    exact h.discard hg

theorem Accounts.removeEntry {s : Engine V} (h : Accounts s) (k : Key) :
    Accounts (removeEntry k s) := by
  cases hg : s.entries.get? k with
  | none => rwa [removeEntry_of_none hg]
  | some e =>
    refine ⟨by simpa using h.leaseBytes_eq, ?_, h.indexes.removeEntry k⟩
    have hsum : entryBytes (s.entries.erase k) = entryBytes s.entries - e.sizeBytes :=
      OrderedDict.sumBy_erase hg _
    rw [usedBytes_removeEntry hg, removeEntry_leaseBytes, removeEntry_entries, hsum,
      h.usedBytes_eq]
    ring

theorem Accounts.removeLease {s : Engine V} (h : Accounts s) (k : Key) :
    Accounts (removeLease k s) := by
  cases hg : s.leases.get? k with
  | none => rwa [removeLease_of_none hg]
  | some l =>
    have hsum : leaseSum (s.leases.erase k) = leaseSum s.leases - l.sizeBytes :=
      OrderedDict.sumBy_erase hg _
    have hl := h.leaseBytes_eq
    have hu := h.usedBytes_eq
    refine ⟨?_, ?_, by simpa using h.indexes⟩
    · simp only [Engine.removeLease, hg, hsum]
      omega
    · simp only [Engine.removeLease, hg]
      omega

theorem storeEntry_entries (k : Key) (e : Entry V) (s : Engine V) :
    (storeEntry k e s).entries = s.entries.setLast k e := by
  have hn : (s.entries.erase k).get? k = none := OrderedDict.get?_erase_self _ _
  apply OrderedDict.ext
  simp [storeEntry, OrderedDict.set_eq_setLast hn, OrderedDict.setLast, OrderedDict.erase_erase]

theorem Accounts.storeEntry {s : Engine V} (h : Accounts s) (k : Key) (e : Entry V) :
    Accounts (storeEntry k e s) := by
  have hr := h.removeEntry k
  have hn : (Engine.removeEntry k s).entries.get? k = none := by simp
  refine ⟨hr.leaseBytes_eq, ?_, ?_⟩
  · have hsum : entryBytes ((Engine.removeEntry k s).entries.set k e) =
        entryBytes (Engine.removeEntry k s).entries + e.sizeBytes := by
      unfold entryBytes
      rw [OrderedDict.sumBy_set, OrderedDict.erase_eq_self hn]
    have hu := hr.usedBytes_eq
    simp only [Engine.storeEntry, hsum]
    omega
  · exact hr.indexes.add hn fun k' => OrderedDict.get?_set _ _ _ _

theorem get?_updateEntry (k k' : Key) (f : Entry V → Entry V) (s : Engine V) :
    (updateEntry k f s).entries.get? k' =
      if k' = k then (s.entries.get? k).map f else s.entries.get? k' := by
  unfold updateEntry
  cases hg : s.entries.get? k with
  | none =>
    by_cases hk : k' = k
    · simp [hk, hg]
    · simp [hk]
  | some e => simp [OrderedDict.get?_set]

theorem updateEntry_usedBytes (k : Key) (f : Entry V → Entry V) (s : Engine V) :
    (updateEntry k f s).usedBytes = s.usedBytes := by
  unfold updateEntry
  split <;> rfl

theorem updateEntry_leases (k : Key) (f : Entry V → Entry V) (s : Engine V) :
    (updateEntry k f s).leases = s.leases := by
  unfold updateEntry
  split <;> rfl

theorem Accounts.updateEntry {s : Engine V} (h : Accounts s) {k : Key} {f : Entry V → Entry V}
    (hf : ∀ e, (f e).tags = e.tags ∧ (f e).sizeBytes = e.sizeBytes) :
    Accounts (updateEntry k f s) := by
  have htags : ∀ k', ((Engine.updateEntry k f s).entries.get? k').map Entry.tags =
      (s.entries.get? k').map Entry.tags := by
    intro k'
    rw [get?_updateEntry]
    split_ifs with hk
    · subst hk
      cases s.entries.get? k' <;> simp [hf]
    · rfl
  cases hg : s.entries.get? k with
  | none => simpa [Engine.updateEntry, hg] using h
  | some e =>
    have he : Engine.updateEntry k f s = { s with entries := s.entries.set k (f e) } := by
      simp [Engine.updateEntry, hg]
    have hsum : entryBytes (s.entries.set k (f e)) = entryBytes s.entries := by
      unfold entryBytes
      rw [OrderedDict.sumBy_set, OrderedDict.sumBy_erase hg, (hf e).2]
      ring
    rw [he] at htags ⊢
    refine ⟨h.leaseBytes_eq, ?_, h.indexes.congr htags⟩
    rw [hsum]
    exact h.usedBytes_eq

theorem Accounts.touch {s : Engine V} (h : Accounts s) {k : Key} {e : Entry V}
    (hg : s.entries.get? k = some e) (a : ℕ) (t : ℚ) :
    Accounts { s with
      entries := s.entries.setLast k { e with accessCount := a, lastAccess := t } } := by
  refine ⟨h.leaseBytes_eq, ?_, ?_⟩
  · have hsum : entryBytes (s.entries.setLast k { e with accessCount := a, lastAccess := t }) =
        entryBytes s.entries := by
      unfold entryBytes
      rw [OrderedDict.sumBy_setLast, OrderedDict.sumBy_erase hg]
      ring
    rw [hsum]
    exact h.usedBytes_eq
  · apply h.indexes.congr
    intro k'
    rw [OrderedDict.get?_setLast]
    split_ifs with hk
    · rw [hk, hg]
      rfl
    · rfl

/-- Every elementary edit keeps the accounts. -/
theorem Accounts.edit {c : EngineConfig V} {p : Permit V} {s s' : Engine V}
    (hs : Edit c p s s') (h : Accounts s) : Accounts s' := by
  cases hs with
  | tick | draw | bump => exact ⟨h.leaseBytes_eq, h.usedBytes_eq, h.indexes⟩
  | touch a t hp hg => exact h.touch hg a t
  | expire hp hg hi hd => exact h.removeEntry _
  | evict hm hv =>
    have hr := h.removeEntry ‹Key›
    exact ⟨hr.leaseBytes_eq, hr.usedBytes_eq, hr.indexes⟩
  | drop hp => exact h.removeEntry _
  | store hp => exact h.storeEntry _ _
  | update hp hf => exact h.updateEntry hf
  | lapse hp hg hi hd => exact h.removeLease _
  | release hp => exact h.removeLease _
  | grant hp hg =>
    rename_i k l
    have hsum : leaseSum (s.leases.set k l) = leaseSum s.leases + l.sizeBytes := by
      unfold leaseSum
      rw [OrderedDict.sumBy_set, OrderedDict.erase_eq_self hg]
    have hl := h.leaseBytes_eq
    have hu := h.usedBytes_eq
    refine ⟨?_, ?_, h.indexes⟩
    · simp only [hsum]
      omega
    · simp only
      omega
  | renew t hp hg =>
    rename_i k l
    have hsum : leaseSum (s.leases.set k ⟨l.token, t, l.sizeBytes⟩) = leaseSum s.leases := by
      unfold leaseSum
      rw [OrderedDict.sumBy_set, OrderedDict.sumBy_erase hg]
      ring
    refine ⟨?_, h.usedBytes_eq, h.indexes⟩
    rw [hsum]
    exact h.leaseBytes_eq

theorem Accounts.edits {c : EngineConfig V} {p : Permit V} {s s' : Engine V}
    (hs : Edits c p s s') (h : Accounts s) : Accounts s' :=
  Edits.keep (fun _ _ => Accounts.edit) hs h

/-! ## Edits that keep the limits -/

/-- A permit that neither writes entries nor issues leases. -/
def Permit.Shrinking (p : Permit V) : Prop :=
  (∀ k e, ¬p.store k e) ∧ ∀ k l, ¬p.grant k l

theorem usedBytes_removeEntry_le (k : Key) (s : Engine V) :
    (removeEntry k s).usedBytes ≤ s.usedBytes := by
  cases hg : s.entries.get? k with
  | none => rw [removeEntry_of_none hg]
  | some e =>
    rw [usedBytes_removeEntry hg]
    omega

theorem usedBytes_removeLease_le (k : Key) (s : Engine V) :
    (removeLease k s).usedBytes ≤ s.usedBytes := by
  unfold removeLease
  split
  · exact le_rfl
  · simp

theorem Bounded.removeEntry {c : EngineConfig V} {s : Engine V} (h : Bounded c s) (k : Key) :
    Bounded c (removeEntry k s) where
  usedBytes_le := (usedBytes_removeEntry_le k s).trans h.usedBytes_le
  entries_le := by
    rw [removeEntry_entries]
    exact (s.entries.size_erase_le k).trans h.entries_le
  leases_le := by simpa using h.leases_le

theorem Bounded.removeLease {c : EngineConfig V} {s : Engine V} (h : Bounded c s) (k : Key) :
    Bounded c (removeLease k s) where
  usedBytes_le := (usedBytes_removeLease_le k s).trans h.usedBytes_le
  entries_le := by simpa using h.entries_le
  leases_le := by
    rw [removeLease_leases]
    exact (s.leases.size_erase_le k).trans h.leases_le

theorem Bounded.edit {c : EngineConfig V} {p : Permit V} (hshrink : p.Shrinking)
    {s s' : Engine V} (hs : Edit c p s s') (h : Bounded c s) : Bounded c s' := by
  cases hs with
  | tick | draw | bump => exact ⟨h.usedBytes_le, h.entries_le, h.leases_le⟩
  | touch a t hp hg =>
    refine ⟨h.usedBytes_le, ?_, h.leases_le⟩
    simpa [OrderedDict.size_erase hg] using h.entries_le
  | expire hp hg hi hd => exact h.removeEntry _
  | evict hm hv =>
    have hr := h.removeEntry ‹Key›
    exact ⟨hr.usedBytes_le, hr.entries_le, hr.leases_le⟩
  | drop hp => exact h.removeEntry _
  | store hp => exact absurd hp (hshrink.1 _ _)
  | update hp hf =>
    rename_i k f
    refine ⟨?_, ?_, ?_⟩
    · rw [updateEntry_usedBytes]
      exact h.usedBytes_le
    · unfold updateEntry
      cases hg : s.entries.get? k with
      | none => exact h.entries_le
      | some e => simpa [OrderedDict.size_erase hg] using h.entries_le
    · rw [updateEntry_leases]
      exact h.leases_le
  | lapse hp hg hi hd => exact h.removeLease _
  | release hp => exact h.removeLease _
  | grant hp hg => exact absurd hp (hshrink.2 _ _)
  | renew t hp hg =>
    refine ⟨h.usedBytes_le, h.entries_le, ?_⟩
    simpa [OrderedDict.size_erase hg] using h.leases_le

theorem Bounded.edits {c : EngineConfig V} {p : Permit V} (hshrink : p.Shrinking)
    {s s' : Engine V} (hs : Edits c p s s') (h : Bounded c s) : Bounded c s' :=
  Edits.keep (fun _ _ => Bounded.edit hshrink) hs h

end Engine
end MegaCache
