import Mathlib.Data.List.Perm.Basic
import Mathlib.Order.Defs.LinearOrder
import Mathlib.Tactic

/-!
# Binary heaps

The algorithms of `heapq` on an array, ordered by a key.  The parent of position `i` is
`(i - 1) / 2`, and in a heap no item is less than its parent.  `push`, `pop` and `heapify`
keep the items, the first two keep heaps, and `heapify` makes one of any array.
-/

namespace MegaCache
namespace Heapq

variable {α β : Type} [LinearOrder β] (key : α → β)

/-- The item at `pos` moves up past greater parents, not above `startpos`. -/
def siftdown (startpos : ℕ) (heap : Array α) (pos : ℕ) (h : pos < heap.size) : Array α :=
  if startpos < pos then
    if key heap[pos] < key heap[(pos - 1) / 2] then
      siftdown startpos (heap.swap pos ((pos - 1) / 2)) ((pos - 1) / 2) (by simp; omega)
    else heap
  else heap
termination_by pos

/-- The child with the smaller key, the right one on a tie. -/
def smallerChild (heap : Array α) (pos : ℕ) (h : 2 * pos + 1 < heap.size) : ℕ :=
  if hr : 2 * pos + 2 < heap.size then
    if key heap[2 * pos + 1] < key heap[2 * pos + 2] then 2 * pos + 1 else 2 * pos + 2
  else 2 * pos + 1

theorem smallerChild_bounds (heap : Array α) (pos : ℕ) (h : 2 * pos + 1 < heap.size) :
    smallerChild key heap pos h < heap.size ∧ (smallerChild key heap pos h - 1) / 2 = pos ∧
      pos < smallerChild key heap pos h := by
  unfold smallerChild
  split_ifs <;> omega

/-- The item at `pos` moves down to a leaf past the smaller children, and up from there. -/
def siftup (startpos : ℕ) (heap : Array α) (pos : ℕ) (h : pos < heap.size) : Array α :=
  if hc : 2 * pos + 1 < heap.size then
    have hb := smallerChild_bounds key heap pos hc
    siftup startpos (heap.swap pos (smallerChild key heap pos hc) h hb.1)
      (smallerChild key heap pos hc) (by simpa using hb.1)
  else siftdown key startpos heap pos h
termination_by heap.size - pos
decreasing_by
  simp only [Array.size_swap]
  omega

def push (heap : Array α) (item : α) : Array α :=
  siftdown key 0 (heap.push item) heap.size (by simp)

/-- The least item and the rest, `none` without items. -/
def pop (heap : Array α) : Option (α × Array α) :=
  match heap.back? with
  | none => none
  | some last =>
    if h : 0 < heap.pop.size then
      some (heap.pop[0], siftup key 0 (heap.pop.set 0 last) 0 (by simpa using h))
    else some (last, heap.pop)

/-- The positions below `n`, from the last one to the first, sifted into place. -/
def heapifyBelow : ℕ → Array α → Array α
  | 0, heap => heap
  | n + 1, heap =>
    heapifyBelow n (if h : n < heap.size then siftup key n heap n h else heap)

def heapify (heap : Array α) : Array α := heapifyBelow key (heap.size / 2) heap

/-! ## The items -/

theorem siftdown_perm (s : ℕ) (a : Array α) (pos : ℕ) (h : pos < a.size) :
    (siftdown key s a pos h).Perm a := by
  fun_induction siftdown key s a pos h with
  | case1 a pos h hs hlt ih => exact ih.trans (Array.swap_perm _ _)
  | case2 | case3 => exact .refl _

theorem siftup_perm (s : ℕ) (a : Array α) (pos : ℕ) (h : pos < a.size) :
    (siftup key s a pos h).Perm a := by
  fun_induction siftup key s a pos h with
  | case1 a pos h hc hb ih => exact ih.trans (Array.swap_perm _ _)
  | case2 a pos h hc => exact siftdown_perm key s a pos h

theorem heapifyBelow_perm (n : ℕ) (a : Array α) : (heapifyBelow key n a).Perm a := by
  induction n generalizing a with
  | zero => exact .refl _
  | succ n ih =>
    rw [heapifyBelow]
    split_ifs with h
    · exact (ih _).trans (siftup_perm key n a n h)
    · exact ih _

theorem heapify_perm (a : Array α) : (heapify key a).Perm a := heapifyBelow_perm key _ a

theorem push_perm (a : Array α) (item : α) : (push key a item).Perm (a.push item) :=
  siftdown_perm key _ _ _ _

theorem pop_eq_none {a : Array α} : pop key a = none ↔ a = #[] := by
  unfold pop
  cases hb : a.back? with
  | none => simpa using Array.back?_eq_none_iff.mp hb
  | some last =>
    constructor
    · intro h
      dsimp only at h
      split_ifs at h
    · rintro rfl
      simp at hb

theorem pop_perm {a rest : Array α} {item : α} (h : pop key a = some (item, rest)) :
    a.toList.Perm (item :: rest.toList) := by
  unfold pop at h
  cases hb : a.back? with
  | none => simp [hb] at h
  | some last =>
    obtain ⟨front, rfl⟩ := Array.back?_eq_some_iff.mp hb
    simp only [hb, Array.pop_push] at h
    split_ifs at h with hfront
    · cases h
      have hset := (siftup_perm key 0 (front.set 0 last) 0 (by simpa using hfront)).toList
      rw [Array.toList_set] at hset
      cases front with
      | mk l =>
        cases l with
        | nil => cases hfront
        | cons x l =>
          have hrest : (siftup key 0 ((Array.mk (x :: l)).set 0 last) 0 (by simp)).toList.Perm
              (last :: l) := hset
          have hmoved : (l ++ [last]).Perm (last :: l) := List.perm_append_comm
          simp only [Array.toList_push, List.cons_append]
          exact (hmoved.trans hrest.symm).cons x
    · cases h
      rw [Array.toList_push]
      exact List.perm_append_comm

/-! ## The order -/

/-- The item at `i` is not greater than that at `j`, if there are such items. -/
def Leq (a : Array α) (i j : ℕ) : Prop := ∀ (hi : i < a.size) (hj : j < a.size), key a[i] ≤ key a[j]

/-- No item is less than its parent, for parents from `s` on. -/
def HeapFrom (s : ℕ) (a : Array α) : Prop := ∀ i, 0 < i → s ≤ (i - 1) / 2 → Leq key a ((i - 1) / 2) i

abbrev IsHeap (a : Array α) : Prop := HeapFrom key 0 a

/-- The positions below `s` in the tree, `s` itself among them. -/
inductive Under (s : ℕ) : ℕ → Prop
  | here : Under s s
  | child {i : ℕ} (hpos : 0 < i) (h : Under s ((i - 1) / 2)) : Under s i

/-- The pairs that do not touch `pos` are in order, and so are the parent of `pos` and its
children. -/
structure Hole (s : ℕ) (a : Array α) (pos : ℕ) : Prop where
  other : ∀ i, 0 < i → i ≠ pos → (i - 1) / 2 ≠ pos → s ≤ (i - 1) / 2 → Leq key a ((i - 1) / 2) i
  across : ∀ i, 0 < i → (i - 1) / 2 = pos → 0 < pos → s ≤ (pos - 1) / 2 → Leq key a ((pos - 1) / 2) i

/-- Besides, the item at `pos` is not greater than its children. -/
structure Rising (s : ℕ) (a : Array α) (pos : ℕ) : Prop extends Hole key s a pos where
  below : ∀ i, 0 < i → (i - 1) / 2 = pos → Leq key a pos i

variable {key} {s pos i j k : ℕ} {a : Array α}

theorem Under.le (h : Under s pos) : s ≤ pos := by
  induction h with
  | here => exact le_rfl
  | child hpos h ih => omega

theorem Under.parent (h : Under s pos) (hne : s < pos) : 0 < pos ∧ Under s ((pos - 1) / 2) := by
  cases h with
  | here => exact absurd hne (lt_irrefl _)
  | child hpos h => exact ⟨hpos, h⟩

theorem Leq.trans (h : Leq key a i j) (hj : j < a.size) (h' : Leq key a j k) : Leq key a i k :=
  fun hi hk => (h hi hj).trans (h' hj hk)

/-- Positions that a swap does not touch are in order after it as before. -/
theorem Leq.swap_ne {p c : ℕ} (hp : p < a.size) (hc : c < a.size) (h : Leq key a i j) (hip : i ≠ p)
    (hic : i ≠ c) (hjp : j ≠ p) (hjc : j ≠ c) : Leq key (a.swap p c hp hc) i j := by
  intro hi hj
  rw [Array.getElem_swap_of_ne hip hic, Array.getElem_swap_of_ne hjp hjc]
  exact h _ _

/-- After a swap the item of one position is before those it was before at the other one. -/
theorem Leq.swap_left {p c : ℕ} (hp : p < a.size) (hc : c < a.size) (h : Leq key a c j) (hjp : j ≠ p)
    (hjc : j ≠ c) : Leq key (a.swap p c hp hc) p j := by
  intro hi hj
  rw [Array.getElem_swap_left, Array.getElem_swap_of_ne hjp hjc]
  exact h _ _

theorem Leq.swap_right {p c : ℕ} (hp : p < a.size) (hc : c < a.size) (h : Leq key a i c) (hip : i ≠ p)
    (hic : i ≠ c) : Leq key (a.swap p c hp hc) i p := by
  intro hi hj
  rw [Array.getElem_swap_left, Array.getElem_swap_of_ne hip hic]
  exact h _ _

theorem Leq.swap_both {p c : ℕ} (hp : p < a.size) (hc : c < a.size) (h : Leq key a c p) :
    Leq key (a.swap p c hp hc) p c := by
  intro hi hj
  rw [Array.getElem_swap_left, Array.getElem_swap_right]
  exact h _ _

/-! ## Sifting -/

theorem HeapFrom.hole (h : HeapFrom key (s + 1) a) : Hole key s a s where
  other i hpos _ hne hs := h i hpos (by omega)
  across i _ _ hpos hs := by omega

/-- The smaller child takes the place of the item, which moves down to it. -/
theorem Hole.move {c : ℕ} (h : Hole key s a pos) (hs : s ≤ pos) (hp : pos < a.size) (hc : c < a.size)
    (hpos : 0 < c) (hparent : (c - 1) / 2 = pos)
    (hleast : ∀ i, 0 < i → (i - 1) / 2 = pos → Leq key a c i) : Hole key s (a.swap pos c hp hc) c where
  other i hi hic hpc hsi := by
    by_cases hip : i = pos
    · subst hip
      exact (h.across c hpos hparent hi hsi).swap_right hp hc (by omega) hpc
    by_cases hpp : (i - 1) / 2 = pos
    · rw [hpp]
      exact (hleast i hi hpp).swap_left hp hc hip hic
    · exact (h.other i hi hip hpp hsi).swap_ne hp hc hpp hpc hip hic
  across i hi hpi _ _ := by
    rw [hparent]
    have hord := h.other i hi (by omega) (by omega) (by omega)
    rw [hpi] at hord
    exact hord.swap_left hp hc (by omega) (by omega)

/-- A leaf has no children to be compared with. -/
theorem Hole.rising (h : Hole key s a pos) (hleaf : a.size ≤ 2 * pos + 1) : Rising key s a pos where
  toHole := h
  below i hpos hparent _ hi := by omega

/-- An item that is less than its parent changes places with it. -/
theorem Rising.move (h : Rising key s a pos) (hpos : 0 < pos) (hs : s ≤ (pos - 1) / 2) (hp : pos < a.size)
    (hq : (pos - 1) / 2 < a.size) (hlt : key a[pos] < key a[(pos - 1) / 2]) :
    Rising key s (a.swap pos ((pos - 1) / 2) hp hq) ((pos - 1) / 2) := by
  have hle : Leq key a pos ((pos - 1) / 2) := fun _ _ => hlt.le
  refine ⟨⟨?_, ?_⟩, ?_⟩
  · intro i hi hiq hpq hsi
    have hip : i ≠ pos := fun he => hpq (he ▸ rfl)
    by_cases hpp : (i - 1) / 2 = pos
    · rw [hpp]
      have hacross := h.across i hi hpp hpos hs
      exact hacross.swap_left hp hq hip hiq
    · exact (h.other i hi hip hpp hsi).swap_ne hp hq hpp hpq hip hiq
  · intro i hi hpi hposq hsq
    have hparent := h.other _ hposq (by omega) (by omega) hsq
    by_cases hip : i = pos
    · subst hip
      exact hparent.swap_right hp hq (by omega) (by omega)
    · have hsibling := h.other i hi hip (by omega) (by omega)
      rw [hpi] at hsibling
      exact (hparent.trans hq hsibling).swap_ne hp hq (by omega) (by omega) hip (by omega)
  · intro i hi hpi
    by_cases hip : i = pos
    · subst hip
      intro hi' hj'
      rw [Array.getElem_swap_left, Array.getElem_swap_right]
      exact hlt.le
    · have hsibling := h.other i hi hip (by omega) (by omega)
      rw [hpi] at hsibling
      intro hi' hj'
      rw [Array.getElem_swap_right, Array.getElem_swap_of_ne hip (by omega)]
      exact hlt.le.trans (hsibling _ _)

/-- At the top, or when the item is not less than its parent, the order is complete. -/
theorem Rising.finish (h : Rising key s a pos)
    (hstop : 0 < pos → s ≤ (pos - 1) / 2 → Leq key a ((pos - 1) / 2) pos) : HeapFrom key s a := by
  intro i hi hsi
  by_cases hip : i = pos
  · subst hip
    exact hstop hi hsi
  by_cases hpp : (i - 1) / 2 = pos
  · rw [hpp]
    exact h.below i hi hpp
  · exact h.other i hi hip hpp hsi

theorem Rising.siftdown {h : pos < a.size} (hr : Rising key s a pos) (hunder : Under s pos) :
    HeapFrom key s (siftdown key s a pos h) := by
  fun_induction Heapq.siftdown key s a pos h with
  | case1 a pos h hs hlt ih =>
    obtain ⟨hpos, hup⟩ := hunder.parent hs
    exact ih (hr.move hpos hup.le h (by omega) hlt) hup
  | case2 a pos h hs hge =>
    refine hr.finish ?_
    intro _ _ _ _
    exact not_lt.mp hge
  | case3 a pos h hs =>
    refine hr.finish ?_
    intro hpos hle
    have hsame := hunder.le
    omega

theorem smallerChild_le (hp : 2 * pos + 1 < a.size) (i : ℕ) (hi : 0 < i) (hparent : (i - 1) / 2 = pos) :
    Leq key a (smallerChild key a pos hp) i := by
  intro hc hi'
  obtain rfl | rfl : i = 2 * pos + 1 ∨ i = 2 * pos + 2 := by omega
  · unfold smallerChild
    split_ifs with hright hlt
    · exact le_rfl
    · exact not_lt.mp hlt
    · exact le_rfl
  · unfold smallerChild
    split_ifs with hlt
    · exact hlt.le
    · exact le_rfl

theorem Hole.siftup {h : pos < a.size} (hh : Hole key s a pos) (hunder : Under s pos) :
    HeapFrom key s (siftup key s a pos h) := by
  fun_induction Heapq.siftup key s a pos h with
  | case1 a pos h hc hb ih =>
    have hbelow := hb
    obtain ⟨hsize, hparent, hlt⟩ := hbelow
    have hpos : 0 < smallerChild key a pos hc := by omega
    refine ih (hh.move hunder.le h hsize hpos hparent (smallerChild_le hc)) ?_
    refine .child hpos ?_
    rw [hparent]
    exact hunder
  | case2 a pos h hc => exact (hh.rising (not_lt.mp hc)).siftdown hunder

/-! ## The operations -/

theorem isHeap_empty : IsHeap key (#[] : Array α) := by
  intro i _ _ _ hi
  exact absurd hi (Nat.not_lt_zero i)

theorem heapifyBelow_heap {n : ℕ} (h : HeapFrom key n a) : IsHeap key (heapifyBelow key n a) := by
  induction n generalizing a with
  | zero => exact h
  | succ n ih =>
    rw [heapifyBelow]
    split_ifs with hn
    · exact ih (h.hole.siftup .here)
    · refine ih ?_
      intro i hi hsi hp
      omega

theorem heapify_heap (a : Array α) : IsHeap key (heapify key a) := by
  refine heapifyBelow_heap ?_
  intro i hi hs _ hsize
  omega

theorem push_heap (h : IsHeap key a) (item : α) : IsHeap key (push key a item) := by
  have hrising : Rising key 0 (a.push item) a.size := by
    refine ⟨⟨?_, ?_⟩, ?_⟩
    · intro i hi hne _ _ hp hsize
      rw [Array.size_push] at hsize
      rw [Array.getElem_push_lt (by omega), Array.getElem_push_lt (by omega)]
      exact h i hi (Nat.zero_le _) _ _
    · intro i hi hparent _ _ _ hsize
      rw [Array.size_push] at hsize
      omega
    · intro i hi hparent _ hsize
      rw [Array.size_push] at hsize
      omega
  refine hrising.siftdown ?_
  generalize a.size = n
  induction n using Nat.strong_induction_on with
  | _ n ih =>
    rcases Nat.eq_zero_or_pos n with rfl | hpos
    · exact .here
    · exact .child hpos (ih _ (by omega))

/-- The item at the root is a least one. -/
theorem IsHeap.root_le (h : IsHeap key a) (hsize : 0 < a.size) {i : ℕ} (hi : i < a.size) :
    key a[0] ≤ key a[i] := by
  induction i using Nat.strong_induction_on with
  | _ i ih =>
    rcases Nat.eq_zero_or_pos i with rfl | hpos
    · exact le_rfl
    · exact (ih ((i - 1) / 2) (by omega) (by omega)).trans (h i hpos (Nat.zero_le _) _ _)

theorem pop_heap {rest : Array α} {item : α} (h : IsHeap key a) (hpop : pop key a = some (item, rest)) :
    IsHeap key rest := by
  unfold pop at hpop
  cases hb : a.back? with
  | none => simp [hb] at hpop
  | some last =>
    obtain ⟨front, rfl⟩ := Array.back?_eq_some_iff.mp hb
    simp only [hb, Array.pop_push] at hpop
    have hfront : IsHeap key front := by
      intro i hi hs hp hsize
      have hle := h i hi hs (by simp; omega) (by simp; omega)
      rwa [Array.getElem_push_lt hp, Array.getElem_push_lt hsize] at hle
    split_ifs at hpop with hsize
    · cases hpop
      refine Hole.siftup ⟨?_, ?_⟩ .here
      · intro i hi hne hparent hs hp hj
        rw [Array.size_set] at hp hj
        rw [Array.getElem_set_ne hsize hp hparent.symm, Array.getElem_set_ne hsize hj hne.symm]
        exact hfront i hi hs _ _
      · intro i hi hparent hpos
        exact absurd hpos (lt_irrefl 0)
    · cases hpop
      exact hfront

/-- A popped item is a least one. -/
theorem pop_le {rest : Array α} {item x : α} (h : IsHeap key a) (hpop : pop key a = some (item, rest))
    (hx : x ∈ a) : key item ≤ key x := by
  obtain ⟨i, hi, rfl⟩ := Array.mem_iff_getElem.mp hx
  unfold pop at hpop
  cases hb : a.back? with
  | none => simp [hb] at hpop
  | some last =>
    obtain ⟨front, rfl⟩ := Array.back?_eq_some_iff.mp hb
    simp only [hb, Array.pop_push] at hpop
    have hroot := h.root_le (by simp) hi
    split_ifs at hpop with hsize
    · cases hpop
      rwa [Array.getElem_push_lt hsize] at hroot
    · cases hpop
      have hempty : i = rest.size := by
        rw [Array.size_push] at hi
        omega
      subst hempty
      rw [Array.getElem_push_eq]

end Heapq
end MegaCache
