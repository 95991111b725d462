import MegaCache.Lib.OrderedDict

/-!
# Dictionaries in the order of their last use

An ordered dictionary whose keys go to the end when they are used has its least recently
used keys in front.  `trimmed` drops keys from the front while a limit is exceeded, and
`mapValues` forgets what does not matter about the values.
-/

namespace MegaCache
namespace OrderedDict

variable {K V W : Type}

/-! ## Limits -/

/-- Pairs dropped from the front while the limit is exceeded. -/
def trim (full : List (K × V) → Prop) [DecidablePred full] : List (K × V) → List (K × V)
  | [] => []
  | p :: l => if full (p :: l) then trim full l else p :: l

theorem trim_suffix (full : List (K × V) → Prop) [DecidablePred full] (l : List (K × V)) :
    trim full l <:+ l := by
  induction l with
  | nil => exact List.suffix_refl []
  | cons p l ih =>
    unfold trim
    split_ifs
    · exact ih.trans (List.suffix_cons p l)
    · exact List.suffix_refl _

theorem trim_eq_self {full : List (K × V) → Prop} [DecidablePred full] {l : List (K × V)}
    (h : ¬full l) : trim full l = l := by
  cases l with
  | nil => rfl
  | cons p l => rw [trim, if_neg h]

theorem trim_not_full {full : List (K × V) → Prop} [DecidablePred full] (h : ¬full [])
    (l : List (K × V)) : ¬full (trim full l) := by
  induction l with
  | nil => exact h
  | cons p l ih =>
    unfold trim
    split_ifs with hf
    · exact ih
    · exact hf

/-- The most recently used pairs that fit. -/
def trimmed (full : List (K × V) → Prop) [DecidablePred full] (d : OrderedDict K V) :
    OrderedDict K V :=
  ⟨trim full d.toList, ((trim_suffix full d.toList).sublist.map Prod.fst).nodup d.nodup⟩

theorem trimmed_eq_self {full : List (K × V) → Prop} [DecidablePred full] {d : OrderedDict K V}
    (h : ¬full d.toList) : d.trimmed full = d :=
  OrderedDict.ext (trim_eq_self h)

/-! ## Other values under the same keys -/

def mapValues (f : V → W) (d : OrderedDict K V) : OrderedDict K W :=
  ⟨d.toList.map fun p => (p.1, f p.2), by
    rw [List.map_map]
    exact d.nodup⟩

@[simp] theorem keys_mapValues (f : V → W) (d : OrderedDict K V) :
    (d.mapValues f).keys = d.keys := by
  simp [mapValues, keys]

@[simp] theorem size_mapValues (f : V → W) (d : OrderedDict K V) :
    (d.mapValues f).size = d.size := by
  simp [mapValues, size]

@[simp] theorem mapValues_empty (f : V → W) : (empty : OrderedDict K V).mapValues f = empty := rfl

variable [DecidableEq K]

@[simp] theorem get?_mapValues (f : V → W) (d : OrderedDict K V) (k : K) :
    (d.mapValues f).get? k = (d.get? k).map f := by
  simp [get?, mapValues, List.find?_map, Function.comp_def, Option.map_map]

@[simp] theorem mapValues_erase (f : V → W) (d : OrderedDict K V) (k : K) :
    (d.erase k).mapValues f = (d.mapValues f).erase k := by
  apply OrderedDict.ext
  simp [mapValues, erase, List.filter_map, Function.comp_def]

@[simp] theorem mapValues_setLast (f : V → W) (d : OrderedDict K V) (k : K) (v : V) :
    (d.setLast k v).mapValues f = (d.mapValues f).setLast k (f v) := by
  apply OrderedDict.ext
  show (d.setLast k v).toList.map _ = ((d.mapValues f).erase k).toList ++ [(k, f v)]
  rw [← mapValues_erase]
  simp [mapValues, setLast]

theorem toList_set_of_mem {d : OrderedDict K V} {k : K} (h : k ∈ d.keys) (v : V) :
    (d.set k v).toList = d.toList.map fun p => if p.1 = k then (k, v) else p := by
  rw [set, dif_pos h]

theorem toList_set_of_notMem {d : OrderedDict K V} {k : K} (h : k ∉ d.keys) (v : V) :
    (d.set k v).toList = d.toList ++ [(k, v)] := by
  rw [set, dif_neg h]

theorem mapValues_set (f : V → W) (d : OrderedDict K V) (k : K) (v : V) :
    (d.set k v).mapValues f = (d.mapValues f).set k (f v) := by
  apply OrderedDict.ext
  show (d.set k v).toList.map _ = _
  by_cases h : k ∈ d.keys
  · rw [toList_set_of_mem h, toList_set_of_mem (by rwa [keys_mapValues])]
    simp only [mapValues, List.map_map]
    apply List.map_congr_left
    intro p _
    by_cases hp : p.1 = k <;> simp [hp]
  · rw [toList_set_of_notMem h, toList_set_of_notMem (by rwa [keys_mapValues])]
    simp [mapValues]

/-! ## Using a key -/

theorem toList_erase_head {d : OrderedDict K V} {p : K × V} {l : List (K × V)}
    (h : d.toList = p :: l) : (d.erase p.1).toList = l := by
  have hnodup := d.nodup
  rw [h, List.map_cons, List.nodup_cons] at hnodup
  have hne : ∀ q ∈ l, q.1 ≠ p.1 := fun q hq he => hnodup.1 (he ▸ List.mem_map_of_mem hq)
  simp only [erase, h, List.filter_cons, ne_eq, not_true_eq_false, decide_false,
    Bool.false_eq_true, ↓reduceIte]
  exact List.filter_eq_self.mpr fun q hq => by simpa using hne q hq

theorem setLast_setLast (d : OrderedDict K V) (k : K) (v w : V) :
    (d.setLast k v).setLast k w = d.setLast k w := by
  apply OrderedDict.ext
  show ((d.setLast k v).erase k).toList ++ _ = _
  rw [erase_setLast]
  rfl

theorem set_setLast (d : OrderedDict K V) (k : K) (v w : V) :
    (d.setLast k v).set k w = d.setLast k w := by
  have hk : k ∈ (d.setLast k v).keys := by simp [setLast, keys]
  apply OrderedDict.ext
  rw [toList_set_of_mem hk]
  have hmap : ((d.erase k).toList.map fun p => if p.1 = k then (k, w) else p) = (d.erase k).toList := by
    refine (List.map_congr_left fun p hp => if_neg ?_).trans (List.map_id _)
    rintro rfl
    exact d.notMem_keys_erase p.1 (List.mem_map_of_mem hp)
  simp [setLast, hmap]

theorem keys_setLast (d : OrderedDict K V) (k : K) (v : V) :
    (d.setLast k v).keys = (d.erase k).keys ++ [k] := by
  simp [keys, setLast]

theorem keys_erase (d : OrderedDict K V) (k : K) : (d.erase k).keys = d.keys.filter (· ≠ k) := by
  simp [keys, erase, List.filter_map, Function.comp_def]

theorem mem_keys_erase {d : OrderedDict K V} {k k' : K} :
    k' ∈ (d.erase k).keys ↔ k' ≠ k ∧ k' ∈ d.keys := by
  simp [keys_erase, and_comm]

theorem mem_keys_setLast {d : OrderedDict K V} {k k' : K} {v : V} :
    k' ∈ (d.setLast k v).keys ↔ k' = k ∨ k' ∈ d.keys := by
  rw [keys_setLast, List.mem_append, mem_keys_erase, List.mem_singleton]
  tauto

/-- The order of the keys and the lookups are all there is. -/
theorem ext_keys {d e : OrderedDict K V} (hkeys : d.keys = e.keys)
    (hget : ∀ k, d.get? k = e.get? k) : d = e := by
  have hlist : ∀ d : OrderedDict K V, d.toList.map some = d.keys.map fun k => (d.get? k).map (k, ·) := by
    intro d
    rw [keys, List.map_map]
    refine List.map_congr_left fun p hp => ?_
    rw [Function.comp_apply, mem_toList.mp hp, Option.map_some]
  apply OrderedDict.ext
  have hsome : d.toList.map some = e.toList.map some := by
    rw [hlist d, hlist e, hkeys]
    exact List.map_congr_left fun k _ => by rw [hget k]
  exact List.map_injective_iff.mpr (Option.some_injective _) hsome

theorem erase_comm (d : OrderedDict K V) (k k' : K) : (d.erase k).erase k' = (d.erase k').erase k := by
  apply OrderedDict.ext
  simp only [erase, List.filter_filter, Bool.and_comm]

theorem erase_setAfter (d : OrderedDict K V) (a k : K) (v : V) :
    (d.setAfter a k v).erase k = d.erase k := by
  apply OrderedDict.ext
  rw [toList_erase_split (show (d.setAfter a k v).toList = _ from rfl),
    List.rdropWhile_append_rtakeWhile]

/-! ## Lookups after a trim -/

/-- Trimming takes pairs out and changes none. -/
theorem get?_trimmed {full : List (K × V) → Prop} [DecidablePred full] {d : OrderedDict K V} {k : K}
    {v : V} (h : (d.trimmed full).get? k = some v) : d.get? k = some v := by
  rw [← mem_toList] at h ⊢
  exact (trim_suffix full d.toList).subset h

end OrderedDict
end MegaCache
