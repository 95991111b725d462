import Mathlib.Algebra.BigOperators.Group.List.Basic
import Mathlib.Data.List.DropRight
import Mathlib.Data.List.Nodup
import Mathlib.Data.List.Perm.Basic
import Mathlib.Tactic

/-!
# Insertion-ordered dictionaries

A finite map that remembers the order in which its keys were inserted: writing
an existing key keeps its place, a new key goes to the end.  The list of pairs
never repeats a key, so lookups, membership and sums over the values are
determined by one another.
-/

namespace MegaCache

/-- A list of key-value pairs without repeated keys. -/
structure OrderedDict (K V : Type) where
  toList : List (K × V)
  nodup : (toList.map Prod.fst).Nodup
deriving DecidableEq, Repr

namespace OrderedDict

variable {K V : Type}

@[ext] theorem ext {d e : OrderedDict K V} (h : d.toList = e.toList) : d = e := by
  cases d
  cases e
  cases h
  rfl

/-- The dictionary without keys. -/
def empty : OrderedDict K V := ⟨[], List.nodup_nil⟩

instance : Inhabited (OrderedDict K V) := ⟨empty⟩

def keys (d : OrderedDict K V) : List K := d.toList.map Prod.fst

def size (d : OrderedDict K V) : ℕ := d.toList.length

/-- The sum of `f` over all pairs. -/
def sumBy (d : OrderedDict K V) (f : K × V → ℤ) : ℤ := (d.toList.map f).sum

@[simp] theorem size_empty : (empty : OrderedDict K V).size = 0 := rfl

@[simp] theorem sumBy_empty (f : K × V → ℤ) : (empty : OrderedDict K V).sumBy f = 0 := rfl

@[simp] theorem keys_empty : (empty : OrderedDict K V).keys = [] := rfl

theorem nodup_keys (d : OrderedDict K V) : d.keys.Nodup := d.nodup

theorem sumBy_nonneg (d : OrderedDict K V) {f : K × V → ℤ} (h : ∀ p, 0 ≤ f p) :
    0 ≤ d.sumBy f :=
  List.sum_nonneg (List.forall_mem_map.mpr fun p _ => h p)

variable [DecidableEq K]

def get? (d : OrderedDict K V) (k : K) : Option V :=
  (d.toList.find? fun p => p.1 = k).map Prod.snd

/-- `d[k] = v`: an existing key keeps its position. -/
def set (d : OrderedDict K V) (k : K) (v : V) : OrderedDict K V :=
  if h : k ∈ d.keys then
    ⟨d.toList.map fun p => if p.1 = k then (k, v) else p, by
      have he : (d.toList.map fun p => if p.1 = k then (k, v) else p).map Prod.fst =
          d.toList.map Prod.fst := by
        rw [List.map_map]
        apply List.map_congr_left
        intro p _
        by_cases hp : p.1 = k <;> simp [hp]
      rw [he]
      exact d.nodup⟩
  else
    ⟨d.toList ++ [(k, v)], by
      rw [List.map_append]
      exact List.nodup_append'.mpr ⟨d.nodup, by simp, by simpa [keys] using h⟩⟩

def erase (d : OrderedDict K V) (k : K) : OrderedDict K V :=
  ⟨d.toList.filter fun p => p.1 ≠ k, (d.toList.filter_sublist.map Prod.fst).nodup d.nodup⟩

theorem notMem_keys_erase (d : OrderedDict K V) (k : K) : k ∉ (d.erase k).keys := by
  simp [keys, erase]

/-- The pair of `k` put behind all others, any earlier pair of `k` dropped. -/
def setLast (d : OrderedDict K V) (k : K) (v : V) : OrderedDict K V :=
  ⟨(d.erase k).toList ++ [(k, v)], by
    rw [List.map_append]
    exact List.nodup_append'.mpr ⟨(d.erase k).nodup, by simp, by
      simpa [keys] using d.notMem_keys_erase k⟩⟩

/-- The pair of `k` put before all others, any earlier pair of `k` dropped. -/
def setFirst (d : OrderedDict K V) (k : K) (v : V) : OrderedDict K V :=
  ⟨(k, v) :: (d.erase k).toList, by
    rw [List.map_cons]
    exact List.nodup_cons.mpr ⟨d.notMem_keys_erase k, (d.erase k).nodup⟩⟩

/-- The pair of `k` put directly behind the last pair with key `a`, or before
all others when `a` is absent. -/
def setAfter (d : OrderedDict K V) (a k : K) (v : V) : OrderedDict K V :=
  ⟨(d.erase k).toList.rdropWhile (fun p => p.1 ≠ a) ++
      (k, v) :: (d.erase k).toList.rtakeWhile (fun p => p.1 ≠ a), by
    have hp : ((d.erase k).toList.rdropWhile (fun p => p.1 ≠ a) ++
        (k, v) :: (d.erase k).toList.rtakeWhile (fun p => p.1 ≠ a)).Perm
        ((k, v) :: (d.erase k).toList) := by
      refine List.perm_middle.trans (List.Perm.cons _ ?_)
      rw [List.rdropWhile_append_rtakeWhile]
    exact ((hp.map Prod.fst).nodup_iff).mpr (d.setFirst k v).nodup⟩

/-- `move_to_end(k)`. -/
def moveToEnd (d : OrderedDict K V) (k : K) : OrderedDict K V :=
  match d.get? k with
  | none => d
  | some v => d.setLast k v

/-! ## Lookup -/

@[simp] theorem get?_empty (k : K) : (empty : OrderedDict K V).get? k = none := rfl

theorem mem_toList {d : OrderedDict K V} {k : K} {v : V} :
    (k, v) ∈ d.toList ↔ d.get? k = some v := by
  obtain ⟨l, hl⟩ := d
  simp only [get?]
  induction l with
  | nil => simp
  | cons p l ih =>
    obtain ⟨a, b⟩ := p
    simp only [List.map_cons, List.nodup_cons] at hl
    by_cases ha : a = k
    · subst ha
      have hnot : (a, v) ∉ l := fun h => hl.1 (List.mem_map_of_mem h)
      simp [hnot, eq_comm]
    · have ha' : ¬k = a := fun h => ha h.symm
      simp [ha, ha', ih hl.2]

theorem get?_eq_none {d : OrderedDict K V} {k : K} : d.get? k = none ↔ k ∉ d.keys := by
  simp only [get?, keys, Option.map_eq_none_iff, List.find?_eq_none, decide_eq_true_eq,
    List.mem_map, not_exists, not_and]

theorem mem_keys {d : OrderedDict K V} {k : K} : k ∈ d.keys ↔ ∃ v, d.get? k = some v := by
  rw [← Option.ne_none_iff_exists', ne_eq, get?_eq_none, not_not]

/-- Two dictionaries with the same pairs give the same lookups. -/
theorem get?_eq_of_mem {d e : OrderedDict K V} {k : K}
    (h : ∀ v, (k, v) ∈ d.toList ↔ (k, v) ∈ e.toList) : d.get? k = e.get? k := by
  apply Option.ext
  intro v
  exact mem_toList.symm.trans ((h v).trans mem_toList)

theorem get?_erase (d : OrderedDict K V) (k k' : K) :
    (d.erase k).get? k' = if k' = k then none else d.get? k' := by
  split_ifs with h
  · subst h
    exact get?_eq_none.mpr (d.notMem_keys_erase k')
  · apply get?_eq_of_mem
    intro v
    simp [erase, h]

@[simp] theorem get?_erase_self (d : OrderedDict K V) (k : K) : (d.erase k).get? k = none := by
  simp [get?_erase]

theorem erase_eq_self {d : OrderedDict K V} {k : K} (h : d.get? k = none) : d.erase k = d := by
  apply ext
  simp only [erase, List.filter_eq_self, ne_eq, decide_not, Bool.not_eq_eq_eq_not, Bool.not_true,
    decide_eq_false_iff_not]
  intro p hp he
  subst he
  exact get?_eq_none.mp h (List.mem_map_of_mem hp)

theorem erase_erase (d : OrderedDict K V) (k : K) : (d.erase k).erase k = d.erase k :=
  erase_eq_self (get?_erase_self d k)

theorem get?_set (d : OrderedDict K V) (k k' : K) (v : V) :
    (d.set k v).get? k' = if k' = k then some v else d.get? k' := by
  by_cases hk : k ∈ d.keys
  · split_ifs with h
    · subst h
      obtain ⟨w, hw⟩ := mem_keys.mp hk
      rw [← mem_toList] at hw ⊢
      simp only [set, hk, ↓reduceDIte, List.mem_map]
      exact ⟨_, hw, by simp⟩
    · apply get?_eq_of_mem
      intro w
      simp only [set, hk, ↓reduceDIte, List.mem_map]
      constructor
      · rintro ⟨p, hp, he⟩
        by_cases hpk : p.1 = k
        · rw [if_pos hpk] at he
          exact absurd (congrArg Prod.fst he).symm h
        · rw [if_neg hpk] at he
          exact he ▸ hp
      · intro hp
        exact ⟨_, hp, by simp [h]⟩
  · split_ifs with h
    · subst h
      rw [← mem_toList]
      simp [set, hk]
    · apply get?_eq_of_mem
      intro w
      simp [set, hk, h]

@[simp] theorem get?_set_self (d : OrderedDict K V) (k : K) (v : V) :
    (d.set k v).get? k = some v := by
  simp [get?_set]

theorem get?_setFirst (d : OrderedDict K V) (k k' : K) (v : V) :
    (d.setFirst k v).get? k' = if k' = k then some v else d.get? k' := by
  split_ifs with h
  · subst h
    rw [← mem_toList]
    simp [setFirst]
  · rw [get?_eq_of_mem (e := d.erase k) (by simp [setFirst, h]), get?_erase, if_neg h]

theorem get?_setLast (d : OrderedDict K V) (k k' : K) (v : V) :
    (d.setLast k v).get? k' = if k' = k then some v else d.get? k' := by
  rw [← get?_setFirst]
  apply get?_eq_of_mem
  intro w
  simp [setLast, setFirst, or_comm]

theorem toList_setAfter_perm (d : OrderedDict K V) (a k : K) (v : V) :
    (d.setAfter a k v).toList.Perm (d.setFirst k v).toList := by
  refine List.perm_middle.trans (List.Perm.cons _ ?_)
  rw [List.rdropWhile_append_rtakeWhile]

theorem get?_setAfter (d : OrderedDict K V) (a k k' : K) (v : V) :
    (d.setAfter a k v).get? k' = if k' = k then some v else d.get? k' := by
  rw [← get?_setFirst]
  apply get?_eq_of_mem
  intro w
  exact (d.toList_setAfter_perm a k v).mem_iff

theorem get?_moveToEnd (d : OrderedDict K V) (k k' : K) :
    (d.moveToEnd k).get? k' = d.get? k' := by
  unfold moveToEnd
  split
  · rfl
  · rename_i v hv
    rw [get?_setLast]
    split_ifs with h
    · rw [h, hv]
    · rfl

/-! ## Order, size and sums -/

theorem set_eq_setLast {d : OrderedDict K V} {k : K} (h : d.get? k = none) (v : V) :
    d.set k v = d.setLast k v := by
  apply ext
  simp [set, setLast, get?_eq_none.mp h, erase_eq_self h]

theorem erase_setLast (d : OrderedDict K V) (k : K) (v : V) :
    (d.setLast k v).erase k = d.erase k := by
  apply ext
  simp [setLast, erase]

theorem erase_set (d : OrderedDict K V) (k : K) (v : V) : (d.set k v).erase k = d.erase k := by
  by_cases hk : k ∈ d.keys
  · apply ext
    simp only [erase, set, hk, ↓reduceDIte, List.filter_map]
    have hcongr : (d.toList.filter fun p => p.1 ≠ k).map
        (fun p => if p.1 = k then (k, v) else p) = d.toList.filter fun p => p.1 ≠ k := by
      conv_rhs => rw [← List.map_id (d.toList.filter fun p => p.1 ≠ k)]
      apply List.map_congr_left
      intro p hp
      have : p.1 ≠ k := by simpa using (List.mem_filter.mp hp).2
      simp [this]
    rw [← hcongr]
    congr 1
    apply List.filter_congr
    intro p _
    by_cases hp : p.1 = k <;> simp [hp]
  · rw [set_eq_setLast (get?_eq_none.mpr hk), erase_setLast]

theorem erase_moveToEnd (d : OrderedDict K V) (k : K) : (d.moveToEnd k).erase k = d.erase k := by
  unfold moveToEnd
  split
  · rfl
  · exact erase_setLast d k _

theorem erase_setFirst (d : OrderedDict K V) (k : K) (v : V) :
    (d.setFirst k v).erase k = d.erase k := by
  apply ext
  simp [setFirst, erase]

/-- Splitting off the pair of a present key. -/
theorem toList_perm {d : OrderedDict K V} {k : K} {v : V} (h : d.get? k = some v) :
    d.toList.Perm ((k, v) :: (d.erase k).toList) := by
  have hn : d.toList.Nodup := List.Nodup.of_map _ d.nodup
  refine (List.perm_ext_iff_of_nodup hn (List.Nodup.of_map _ (d.setFirst k v).nodup)).mpr ?_
  rintro ⟨a, b⟩
  rw [mem_toList, mem_toList (d := d.setFirst k v), get?_setFirst]
  split_ifs with ha
  · rw [ha, h]
  · rfl

theorem toList_setLast_perm (d : OrderedDict K V) (k : K) (v : V) :
    (d.setLast k v).toList.Perm ((k, v) :: (d.erase k).toList) := by
  exact List.perm_append_singleton (k, v) (d.erase k).toList

theorem toList_set_perm (d : OrderedDict K V) (k : K) (v : V) :
    (d.set k v).toList.Perm ((k, v) :: (d.erase k).toList) := by
  have h := toList_perm (get?_set_self d k v)
  rwa [erase_set] at h

theorem size_erase {d : OrderedDict K V} {k : K} {v : V} (h : d.get? k = some v) :
    (d.erase k).size + 1 = d.size := by
  simpa [size] using (toList_perm h).length_eq.symm

theorem size_erase_le (d : OrderedDict K V) (k : K) : (d.erase k).size ≤ d.size :=
  List.length_filter_le _ _

@[simp] theorem size_set (d : OrderedDict K V) (k : K) (v : V) :
    (d.set k v).size = (d.erase k).size + 1 := by
  simpa [size] using (d.toList_set_perm k v).length_eq

@[simp] theorem size_setLast (d : OrderedDict K V) (k : K) (v : V) :
    (d.setLast k v).size = (d.erase k).size + 1 := by
  simpa [size] using (d.toList_setLast_perm k v).length_eq

theorem sumBy_erase {d : OrderedDict K V} {k : K} {v : V} (h : d.get? k = some v)
    (f : K × V → ℤ) : (d.erase k).sumBy f = d.sumBy f - f (k, v) := by
  have hs := ((toList_perm h).map f).sum_eq
  simp only [List.map_cons, List.sum_cons] at hs
  simp only [sumBy, hs]
  ring

theorem sumBy_set (d : OrderedDict K V) (k : K) (v : V) (f : K × V → ℤ) :
    (d.set k v).sumBy f = (d.erase k).sumBy f + f (k, v) := by
  have hs := ((d.toList_set_perm k v).map f).sum_eq
  simp only [List.map_cons, List.sum_cons] at hs
  simp only [sumBy, hs]
  ring

theorem sumBy_setLast (d : OrderedDict K V) (k : K) (v : V) (f : K × V → ℤ) :
    (d.setLast k v).sumBy f = (d.erase k).sumBy f + f (k, v) := by
  have hs := ((d.toList_setLast_perm k v).map f).sum_eq
  simp only [List.map_cons, List.sum_cons] at hs
  simp only [sumBy, hs]
  ring

/-! ## Positions -/

theorem exists_split {d : OrderedDict K V} {k : K} {v : V} (h : d.get? k = some v) :
    ∃ l₁ l₂, d.toList = l₁ ++ (k, v) :: l₂ ∧ k ∉ l₁.map Prod.fst ∧ k ∉ l₂.map Prod.fst := by
  obtain ⟨l₁, l₂, hl⟩ := List.append_of_mem (mem_toList.mpr h)
  have hn := d.nodup
  rw [hl, List.map_append, List.map_cons] at hn
  have hmid := List.nodup_middle.mp hn
  rw [List.nodup_cons, List.mem_append, not_or] at hmid
  exact ⟨l₁, l₂, hl, hmid.1.1, hmid.1.2⟩

theorem toList_erase_split {d : OrderedDict K V} {k : K} {v : V} {l₁ l₂ : List (K × V)}
    (hl : d.toList = l₁ ++ (k, v) :: l₂) : (d.erase k).toList = l₁ ++ l₂ := by
  have hn := d.nodup
  rw [hl, List.map_append, List.map_cons] at hn
  have hmid := List.nodup_middle.mp hn
  rw [List.nodup_cons, List.mem_append, not_or] at hmid
  have hkeep : ∀ l : List (K × V), k ∉ l.map Prod.fst → l.filter (fun p => p.1 ≠ k) = l := by
    intro l hk
    rw [List.filter_eq_self]
    intro p hp
    have : p.1 ≠ k := fun he => hk (he ▸ List.mem_map_of_mem hp)
    simpa using this
  simp only [erase, hl, List.filter_append, List.filter_cons, ne_eq, not_true_eq_false, decide_false,
    Bool.false_eq_true, ↓reduceIte]
  rw [hkeep l₁ hmid.1.1, hkeep l₂ hmid.1.2]

/-- A pair taken from the front and put back there. -/
theorem setFirst_erase {d : OrderedDict K V} {k : K} {v : V} {l : List (K × V)}
    (hl : d.toList = (k, v) :: l) : (d.erase k).setFirst k v = d := by
  have he : (d.erase k).toList = l :=
    @toList_erase_split _ _ _ d k v [] l hl
  apply ext
  simp only [setFirst, erase_erase, he, hl]

/-- A pair taken from behind `a` and put back there. -/
theorem setAfter_erase {d : OrderedDict K V} {a k : K} {v w : V} {l₁ l₂ : List (K × V)}
    (hl : d.toList = l₁ ++ (a, w) :: (k, v) :: l₂) : (d.erase k).setAfter a k v = d := by
  have hl' : d.toList = (l₁ ++ [(a, w)]) ++ (k, v) :: l₂ := by simpa using hl
  have he : (d.erase k).toList = l₁ ++ (a, w) :: l₂ := by simpa using toList_erase_split hl'
  have hn := d.nodup
  rw [hl, List.map_append, List.map_cons, List.map_cons] at hn
  have ha : a ∉ l₂.map Prod.fst := by
    have hmid := List.nodup_middle.mp hn
    rw [List.nodup_cons, List.mem_append, List.mem_cons, not_or, not_or] at hmid
    exact hmid.1.2.2
  have hall : ∀ p ∈ l₂.reverse, (decide (p.1 ≠ a)) = true := by
    intro p hp
    have : p.1 ≠ a := fun h => ha (h ▸ List.mem_map_of_mem (List.mem_reverse.mp hp))
    simpa using this
  have hrev : (l₁ ++ (a, w) :: l₂).reverse = l₂.reverse ++ (a, w) :: l₁.reverse := by simp
  apply ext
  simp only [setAfter, erase_erase, he, List.rdropWhile, List.rtakeWhile, hrev]
  rw [List.dropWhile_append_of_pos hall, List.takeWhile_append_of_pos hall, hl]
  simp

/-- Dictionaries with the same lookups are permutations of each other. -/
theorem toList_perm_of_get?_eq {d e : OrderedDict K V} (h : ∀ k, d.get? k = e.get? k) :
    d.toList.Perm e.toList := by
  refine (List.perm_ext_iff_of_nodup (List.Nodup.of_map _ d.nodup)
    (List.Nodup.of_map _ e.nodup)).mpr ?_
  rintro ⟨k, v⟩
  rw [mem_toList, mem_toList, h]

theorem sumBy_congr {d e : OrderedDict K V} (h : ∀ k, d.get? k = e.get? k) (f : K × V → ℤ) :
    d.sumBy f = e.sumBy f :=
  ((toList_perm_of_get?_eq h).map f).sum_eq

theorem size_congr {d e : OrderedDict K V} (h : ∀ k, d.get? k = e.get? k) : d.size = e.size :=
  (toList_perm_of_get?_eq h).length_eq

/-- A dictionary with fewer lookups has fewer items. -/
theorem toList_subperm {d e : OrderedDict K V} (h : ∀ k v, d.get? k = some v → e.get? k = some v) :
    d.toList.Subperm e.toList := by
  apply List.subperm_of_subset (List.Nodup.of_map _ d.nodup)
  rintro ⟨k, v⟩ hp
  exact mem_toList.mpr (h k v (mem_toList.mp hp))

theorem size_le_of_get? {d e : OrderedDict K V} (h : ∀ k v, d.get? k = some v → e.get? k = some v) :
    d.size ≤ e.size :=
  (toList_subperm h).length_le

theorem sumBy_le_of_get? {d e : OrderedDict K V} (h : ∀ k v, d.get? k = some v → e.get? k = some v)
    {f : K × V → ℤ} (hf : ∀ p, 0 ≤ f p) : d.sumBy f ≤ e.sumBy f := by
  obtain ⟨l, hperm, hsub⟩ := toList_subperm h
  have hsum : (l.map f).sum ≤ (e.toList.map f).sum := by
    apply (hsub.map f).sum_le_sum
    intro a ha
    obtain ⟨p, _, rfl⟩ := List.mem_map.mp ha
    exact hf p
  rwa [(hperm.map f).sum_eq] at hsum

end OrderedDict
end MegaCache
