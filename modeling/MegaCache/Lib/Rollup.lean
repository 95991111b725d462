import Mathlib.Data.List.Sort
import Mathlib.Data.String.Basic
import MegaCache.Lib.OrderedDict

/-!
# Rollups

Counters that stop at a cap, and a table that keeps the values of at most so many keys and
drops the least key first.  Adding with a cap is adding and capping once; what a table has
kept it had before, and a sum over it is no greater.
-/

namespace MegaCache
namespace Rollup

/-! ## Capped sums -/

/-- `a` and `b`, but no more than the cap. -/
def addCapped (cap a b : ℕ) : ℕ := min cap (a + b)

theorem addCapped_le (cap a b : ℕ) : addCapped cap a b ≤ cap := min_le_left _ _

theorem addCapped_le_add (cap a b : ℕ) : addCapped cap a b ≤ a + b := min_le_right _ _

theorem addCapped_min (cap a b : ℕ) : addCapped cap (min cap a) b = min cap (a + b) := by
  unfold addCapped
  omega

theorem addCapped_eq {cap a b : ℕ} (h : a + b ≤ cap) : addCapped cap a b = a + b := min_eq_right h

/-! ## The least keys dropped -/

variable {B V : Type} [LinearOrder B]

def oldest (d : OrderedDict B V) : Option B := (d.keys.insertionSort (· ≤ ·)).head?

/-- The oldest keys are dropped while there are more than `limit`, `fuel` times at most. -/
def dropOldest (limit : ℕ) : ℕ → OrderedDict B V → OrderedDict B V
  | 0, d => d
  | fuel + 1, d =>
    if limit < d.size then
      match oldest d with
      | none => d
      | some k => dropOldest limit fuel (d.erase k)
    else d

def retain (limit : ℕ) (d : OrderedDict B V) : OrderedDict B V := dropOldest limit d.size d

variable {d : OrderedDict B V} {limit : ℕ} {k : B} {v : V}

theorem mem_keys_of_oldest (h : oldest d = some k) : k ∈ d.keys := by
  rw [← (List.perm_insertionSort (· ≤ ·) d.keys).mem_iff]
  exact List.mem_of_mem_head? h

theorem oldest_of_size (h : 0 < d.size) : ∃ k, oldest d = some k := by
  have hlen : (d.keys.insertionSort (· ≤ ·)).length = d.size := by
    rw [List.length_insertionSort]
    exact List.length_map _
  rw [← hlen] at h
  exact ⟨_, List.head?_eq_some_head (List.ne_nil_of_length_pos h)⟩

theorem size_dropOldest {fuel : ℕ} (h : d.size ≤ limit + fuel) :
    (dropOldest limit fuel d).size ≤ limit := by
  induction fuel generalizing d with
  | zero => exact h
  | succ fuel ih =>
    unfold dropOldest
    split_ifs with hlt
    · obtain ⟨k, hk⟩ := oldest_of_size (Nat.zero_lt_of_lt hlt)
      obtain ⟨v, hv⟩ := OrderedDict.mem_keys.mp (mem_keys_of_oldest hk)
      have hsize := OrderedDict.size_erase hv
      rw [hk]
      apply ih
      omega
    · exact Nat.le_of_not_lt hlt

theorem get?_dropOldest {fuel : ℕ} (h : (dropOldest limit fuel d).get? k = some v) :
    d.get? k = some v := by
  induction fuel generalizing d with
  | zero => exact h
  | succ fuel ih =>
    unfold dropOldest at h
    split_ifs at h
    · split at h
      · exact h
      · have herase := ih h
        rw [OrderedDict.get?_erase] at herase
        split_ifs at herase
        exact herase
    · exact h

theorem size_retain_le (limit : ℕ) (d : OrderedDict B V) : (retain limit d).size ≤ limit :=
  size_dropOldest (Nat.le_add_left _ _)

theorem get?_of_retain (h : (retain limit d).get? k = some v) : d.get? k = some v :=
  get?_dropOldest h

theorem sumBy_retain_le (limit : ℕ) (d : OrderedDict B V) {f : B × V → ℤ} (hf : ∀ p, 0 ≤ f p) :
    (retain limit d).sumBy f ≤ d.sumBy f :=
  OrderedDict.sumBy_le_of_get? (fun _ _ => get?_of_retain) hf

/-- The keys that are dropped. -/
def dropped (limit : ℕ) (d : OrderedDict B V) : List B :=
  d.keys.filter fun k => k ∉ (retain limit d).keys

theorem get?_retain (hk : k ∉ dropped limit d) : (retain limit d).get? k = d.get? k := by
  cases h : (retain limit d).get? k with
  | some v => exact (get?_of_retain h).symm
  | none =>
    symm
    rw [OrderedDict.get?_eq_none]
    intro hmem
    exact hk (List.mem_filter.mpr ⟨hmem, by simpa using OrderedDict.get?_eq_none.mp h⟩)

theorem retain_of_dropped (h : dropped limit d = []) (k : B) :
    (retain limit d).get? k = d.get? k :=
  get?_retain (by rw [h]; exact List.not_mem_nil)

theorem notMem_dropped (h : (retain limit d).get? k = some v) : k ∉ dropped limit d := by
  intro hk
  have hnot := (List.mem_filter.mp hk).2
  simp only [decide_eq_true_eq] at hnot
  exact hnot (OrderedDict.mem_keys.mpr ⟨v, h⟩)

example : (retain 2 (((OrderedDict.empty.set "b" 1).set "c" 2).set "a" 3)).toList =
    [("b", 1), ("c", 2)] := by decide

end Rollup
end MegaCache
