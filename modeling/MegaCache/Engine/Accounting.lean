import MegaCache.Engine.Operations

/-!
# Accounting of the cache engine

What the private helpers of the engine do to its five coupled structures: the
entries, the tag index, the leases and the two byte counters.
-/

namespace MegaCache
namespace Engine

variable {V : Type} (c : EngineConfig V)

/-! ## The tag index -/

theorem get?_addTags (key : Key) (tags : List Tag) (index : OrderedDict Tag (Finset Key))
    (t : Tag) : (addTags key tags index).get? t =
      if t ∈ tags then some (insert key ((index.get? t).getD ∅)) else index.get? t := by
  induction tags generalizing index with
  | nil => simp [addTags]
  | cons a tags ih =>
    change (addTags key tags (index.set a (insert key ((index.get? a).getD ∅)))).get? t = _
    rw [ih, OrderedDict.get?_set]
    by_cases ha : t = a
    · subst ha
      simp
    · simp [ha]

/-- What is left of a bucket without `key`. -/
def withoutKey (key : Key) (keys : Finset Key) : Option (Finset Key) :=
  if keys.erase key = ∅ then none else some (keys.erase key)

theorem withoutKey_bind (key : Key) (keys : Finset Key) :
    (withoutKey key keys).bind (withoutKey key) = withoutKey key keys := by
  unfold withoutKey
  split_ifs with h <;> simp [h]

theorem get?_discardTags (key : Key) (tags : List Tag) (index : OrderedDict Tag (Finset Key))
    (t : Tag) : (discardTags key tags index).get? t =
      if t ∈ tags then (index.get? t).bind (withoutKey key) else index.get? t := by
  induction tags generalizing index with
  | nil => simp [discardTags]
  | cons a tags ih =>
    have hstep : discardTags key (a :: tags) index =
        discardTags key tags (discardTags key [a] index) := rfl
    have hhead : ∀ u, (discardTags key [a] index).get? u =
        if u = a then (index.get? a).bind (withoutKey key) else index.get? u := by
      intro u
      simp only [discardTags, List.foldl_cons, List.foldl_nil]
      cases hg : index.get? a with
      | none =>
        by_cases hu : u = a
        · simp [hu, hg]
        · simp [hu]
      | some keys =>
        by_cases he : keys.erase key = ∅
        · simp [he, OrderedDict.get?_erase, withoutKey]
        · simp [he, OrderedDict.get?_set, withoutKey]
    rw [hstep, ih, hhead]
    by_cases ha : t = a
    · subst ha
      by_cases ht : t ∈ tags
      · simp only [ht, ↓reduceIte, List.mem_cons, or_true]
        rw [Option.bind_assoc]
        congr 1
        funext keys
        exact withoutKey_bind key keys
      · simp [ht]
    · simp [ha]

/-- The tag index is the inverse of the entries' tag sets and has no empty bucket. -/
structure Indexes (tags : OrderedDict Tag (Finset Key)) (entries : OrderedDict Key (Entry V)) :
    Prop where
  mem_iff : ∀ t k, k ∈ (tags.get? t).getD ∅ ↔ ∃ e, entries.get? k = some e ∧ t ∈ e.tags
  nonempty : ∀ t, tags.get? t ≠ some ∅

theorem Indexes.empty : Indexes (V := V) .empty .empty where
  mem_iff := by simp
  nonempty := by simp

/-- The index depends on the lookups of the entries only, and determines its own. -/
theorem Indexes.get?_eq {tags tags' : OrderedDict Tag (Finset Key)}
    {entries entries' : OrderedDict Key (Entry V)} (h : Indexes tags entries)
    (h' : Indexes tags' entries') (he : ∀ k, entries'.get? k = entries.get? k) (t : Tag) :
    tags'.get? t = tags.get? t := by
  have hb : (tags'.get? t).getD ∅ = (tags.get? t).getD ∅ := by
    ext k
    rw [h.mem_iff, h'.mem_iff, he]
  have hn := h.nonempty t
  have hn' := h'.nonempty t
  cases ht : tags.get? t <;> cases ht' : tags'.get? t <;>
    simp only [ht, ht', Option.getD_none, Option.getD_some] at hb hn hn' ⊢
  · exact absurd (congrArg some hb) hn'
  · exact absurd (congrArg some hb.symm) hn
  · rw [hb]

theorem Indexes.congr {tags : OrderedDict Tag (Finset Key)}
    {entries entries' : OrderedDict Key (Entry V)} (h : Indexes tags entries)
    (he : ∀ k, (entries'.get? k).map Entry.tags = (entries.get? k).map Entry.tags) :
    Indexes tags entries' where
  mem_iff t k := by
    rw [h.mem_iff]
    have hk := he k
    constructor
    · rintro ⟨e, hg, ht⟩
      rw [hg, Option.map_some, Option.map_eq_some_iff] at hk
      obtain ⟨e', hg', ht'⟩ := hk
      exact ⟨e', hg', ht' ▸ ht⟩
    · rintro ⟨e, hg, ht⟩
      rw [hg, Option.map_some, eq_comm, Option.map_eq_some_iff] at hk
      obtain ⟨e', hg', ht'⟩ := hk
      exact ⟨e', hg', ht' ▸ ht⟩
  nonempty := h.nonempty

theorem Indexes.discard {tags : OrderedDict Tag (Finset Key)}
    {entries : OrderedDict Key (Entry V)} (h : Indexes tags entries) {key : Key} {entry : Entry V}
    (hg : entries.get? key = some entry) :
    Indexes (discardTags key entry.tags tags) (entries.erase key) where
  mem_iff t k := by
    have hm := h.mem_iff t k
    have hbind : ∀ o : Option (Finset Key),
        (k ∈ (o.bind (withoutKey key)).getD ∅ ↔ k ≠ key ∧ k ∈ o.getD ∅) := by
      rintro (_ | keys)
      · simp
      · by_cases he : keys.erase key = ∅
        · have : ¬(k ≠ key ∧ k ∈ keys) := by
            rw [← Finset.mem_erase, he]
            exact Finset.notMem_empty k
          simpa [withoutKey, he] using this
        · simp [withoutKey, he]
    rw [get?_discardTags, OrderedDict.get?_erase]
    by_cases hk : k = key
    · subst hk
      have : ¬t ∈ entry.tags → k ∉ (tags.get? t).getD ∅ := by
        intro ht hmem
        obtain ⟨e, he, hte⟩ := hm.mp hmem
        rw [hg, Option.some.injEq] at he
        exact ht (he ▸ hte)
      by_cases ht : t ∈ entry.tags
      · simp [ht, hbind]
      · simpa [ht] using this ht
    · by_cases ht : t ∈ entry.tags
      · simp [ht, hbind, hk, hm]
      · simp [ht, hk, hm]
  nonempty t := by
    rw [get?_discardTags]
    split_ifs with ht
    · cases hgt : tags.get? t with
      | none => simp
      | some keys =>
        simp only [Option.bind_some, withoutKey]
        split_ifs with he <;> simp [he]
    · exact h.nonempty t

theorem Indexes.add {tags : OrderedDict Tag (Finset Key)}
    {entries entries' : OrderedDict Key (Entry V)} (h : Indexes tags entries) {key : Key}
    {entry : Entry V} (hg : entries.get? key = none)
    (he : ∀ k, entries'.get? k = if k = key then some entry else entries.get? k) :
    Indexes (addTags key entry.tags tags) entries' where
  mem_iff t k := by
    have hm := h.mem_iff t k
    rw [get?_addTags, he]
    by_cases hk : k = key
    · subst hk
      have hnot : k ∉ (tags.get? t).getD ∅ := by
        intro hmem
        obtain ⟨e, hge, _⟩ := hm.mp hmem
        rw [hg] at hge
        cases hge
      by_cases ht : t ∈ entry.tags
      · simp [ht]
      · simp [ht, hnot]
    · by_cases ht : t ∈ entry.tags
      · simp [ht, hk, hm]
      · simp [ht, hk, hm]
  nonempty t := by
    rw [get?_addTags]
    split_ifs with ht
    · simp
    · exact h.nonempty t

/-! ## The private helpers, field by field -/

section Fields

variable (key : Key) (s : Engine V)

@[simp] theorem bump_entries (m : Metric) (n : ℕ) : (s.bump m n).entries = s.entries := rfl
@[simp] theorem bump_usedBytes (m : Metric) (n : ℕ) : (s.bump m n).usedBytes = s.usedBytes := rfl
@[simp] theorem bump_leaseBytes (m : Metric) (n : ℕ) : (s.bump m n).leaseBytes = s.leaseBytes := rfl
@[simp] theorem bump_tags (m : Metric) (n : ℕ) : (s.bump m n).tags = s.tags := rfl
@[simp] theorem bump_leases (m : Metric) (n : ℕ) : (s.bump m n).leases = s.leases := rfl
@[simp] theorem bump_activeMutation (m : Metric) (n : ℕ) :
    (s.bump m n).activeMutation = s.activeMutation := rfl
@[simp] theorem bump_ticks (m : Metric) (n : ℕ) : (s.bump m n).ticks = s.ticks := rfl
@[simp] theorem bump_draws (m : Metric) (n : ℕ) : (s.bump m n).draws = s.draws := rfl

@[simp] theorem removeEntry_entries : (removeEntry key s).entries = s.entries.erase key := by
  unfold removeEntry
  split
  · rename_i h
    rw [OrderedDict.erase_eq_self h]
  · rfl

@[simp] theorem removeEntry_leases : (removeEntry key s).leases = s.leases := by
  unfold removeEntry
  split <;> rfl

@[simp] theorem removeEntry_leaseBytes : (removeEntry key s).leaseBytes = s.leaseBytes := by
  unfold removeEntry
  split <;> rfl

@[simp] theorem removeEntry_metrics : (removeEntry key s).metrics = s.metrics := by
  unfold removeEntry
  split <;> rfl

@[simp] theorem removeEntry_ticks : (removeEntry key s).ticks = s.ticks := by
  unfold removeEntry
  split <;> rfl

@[simp] theorem removeEntry_draws : (removeEntry key s).draws = s.draws := by
  unfold removeEntry
  split <;> rfl

@[simp] theorem removeLease_entries : (removeLease key s).entries = s.entries := by
  unfold removeLease
  split <;> rfl

@[simp] theorem removeLease_leases : (removeLease key s).leases = s.leases.erase key := by
  unfold removeLease
  split
  · rename_i h
    rw [OrderedDict.erase_eq_self h]
  · rfl

@[simp] theorem removeLease_tags : (removeLease key s).tags = s.tags := by
  unfold removeLease
  split <;> rfl

@[simp] theorem removeLease_metrics : (removeLease key s).metrics = s.metrics := by
  unfold removeLease
  split <;> rfl

@[simp] theorem removeLease_activeMutation :
    (removeLease key s).activeMutation = s.activeMutation := by
  unfold removeLease
  split <;> rfl

@[simp] theorem removeLease_ticks : (removeLease key s).ticks = s.ticks := by
  unfold removeLease
  split <;> rfl

@[simp] theorem removeLease_draws : (removeLease key s).draws = s.draws := by
  unfold removeLease
  split <;> rfl

end Fields

end Engine
end MegaCache
