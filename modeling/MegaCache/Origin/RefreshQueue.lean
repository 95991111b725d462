import MegaCache.Lib.Heapq
import Mathlib.Data.List.MinMax
import Mathlib.Data.Prod.Lex

/-!
# The refresh queue

`_AgingPriorityQueue`: a heap of jobs by priority and sequence number, from which the
sentinels of a shutdown and jobs that have waited too long are taken first.
-/

namespace MegaCache
namespace Origin

open Heapq

/-- An item of the queue; a sentinel has no job. -/
structure QueueItem (Job : Type) where
  priority : ℤ
  sequence : ℕ
  enqueuedAt : ℚ
  job : Option Job
deriving DecidableEq, Repr

structure QueueSettings where
  maxsize : ℤ
  promotionSeconds : ℚ

variable {Job : Type} (settings : QueueSettings)

namespace QueueItem

/-- The tuples are compared; their sequence numbers differ, so that what follows these is
not looked at. -/
def key (item : QueueItem Job) : ℤ ×ₗ ℕ := toLex (item.priority, item.sequence)

def isOverdue (now : ℚ) (item : QueueItem Job) : Bool :=
  settings.promotionSeconds ≤ now - item.enqueuedAt

end QueueItem

abbrev RefreshQueue (Job : Type) := Array (QueueItem Job)

namespace RefreshQueue

/-- `put_nowait`, `none` when the queue is full. -/
def put (q : RefreshQueue Job) (item : QueueItem Job) : Option (RefreshQueue Job) :=
  if 0 < settings.maxsize ∧ settings.maxsize ≤ q.size then none else some (push QueueItem.key q item)

/-- The item at `index` is taken out, and the rest made a heap again. -/
def select (q : RefreshQueue Job) (index : ℕ) : Option (QueueItem Job × RefreshQueue Job) :=
  if h : index < q.size then some (q[index], heapify QueueItem.key (q.eraseIdx index h)) else none

/-- `overdue`, the sequence numbers with the places in the list. -/
def overdue (now : ℚ) (q : RefreshQueue Job) : List (ℕ ×ₗ ℕ) :=
  (q.toList.zipIdx.filter fun entry => entry.1.isOverdue settings now).map fun entry =>
    toLex (entry.1.sequence, entry.2)

/-- `_get`, `none` on an empty queue. -/
def get (now : ℚ) (q : RefreshQueue Job) : Option (QueueItem Job × RefreshQueue Job) :=
  match q.findIdx? fun item => item.job.isNone with
  | some index => q.select index
  | none =>
    match (overdue settings now q).min? with
    | some entry => q.select (ofLex entry).2
    | none => pop QueueItem.key q

/-- Calls from an empty queue on: what is in it, the items that were put, each with a
sequence number of its own, and the items that were got. -/
inductive Run : RefreshQueue Job → List (QueueItem Job) → List (QueueItem Job) → Prop
  | create : Run #[] [] []
  | put {q q' : RefreshQueue Job} {puts gots : List (QueueItem Job)} {item : QueueItem Job}
      (h : Run q puts gots) (hfresh : item.sequence ∉ puts.map QueueItem.sequence)
      (hput : put settings q item = some q') : Run q' (item :: puts) gots
  | get {q q' : RefreshQueue Job} {puts gots : List (QueueItem Job)} {item : QueueItem Job}
      (now : ℚ) (h : Run q puts gots) (hget : get settings now q = some (item, q')) :
      Run q' puts (item :: gots)

variable {settings} {q q' : RefreshQueue Job} {puts gots : List (QueueItem Job)}
  {item : QueueItem Job} {now : ℚ} {index : ℕ}

/-! ## One call -/

theorem put_ok (h : put settings q item = some q') :
    q'.toList.Perm (item :: q.toList) ∧ (IsHeap QueueItem.key q → IsHeap QueueItem.key q') := by
  unfold put at h
  split_ifs at h
  cases h
  refine ⟨?_, fun hheap => push_heap hheap item⟩
  have hpush := (push_perm QueueItem.key q item).toList
  rw [Array.toList_push] at hpush
  exact hpush.trans List.perm_append_comm

theorem select_ok (h : q.select index = some (item, q')) :
    q.toList.Perm (item :: q'.toList) ∧ IsHeap QueueItem.key q' ∧
      ∃ hindex : index < q.size, q[index] = item := by
  unfold select at h
  split_ifs at h with hindex
  cases h
  refine ⟨?_, heapify_heap _, hindex, rfl⟩
  have hrest := (heapify_perm QueueItem.key (q.eraseIdx index hindex)).toList
  rw [Array.toList_eraseIdx] at hrest
  have hlist := List.getElem_cons_eraseIdx_perm (l := q.toList) (by simpa using hindex)
  exact hlist.symm.trans (hrest.symm.cons _)

theorem mem_overdue {entry : ℕ ×ₗ ℕ} : entry ∈ overdue settings now q ↔
    ∃ h : (ofLex entry).2 < q.size,
      settings.promotionSeconds ≤ now - (q[(ofLex entry).2]).enqueuedAt ∧
        (q[(ofLex entry).2]).sequence = (ofLex entry).1 := by
  simp only [overdue, List.mem_map, List.mem_filter, List.mem_zipIdx_iff_getElem?,
    QueueItem.isOverdue, decide_eq_true_eq]
  constructor
  · rintro ⟨⟨x, i⟩, ⟨hx, hover⟩, rfl⟩
    obtain ⟨hi, hget⟩ := List.getElem?_eq_some_iff.mp hx
    dsimp only at hi hget hover
    subst hget
    exact ⟨hi, hover, rfl⟩
  · rintro ⟨hi, hover, hsequence⟩
    refine ⟨(q[(ofLex entry).2], (ofLex entry).2), ⟨by simp [hi], hover⟩, ?_⟩
    rw [hsequence]
    rfl

/-- An item that has waited too long is among the overdue ones. -/
theorem exists_overdue {x : QueueItem Job} (hx : x ∈ q)
    (hdue : settings.promotionSeconds ≤ now - x.enqueuedAt) :
    ∃ index, toLex (x.sequence, index) ∈ overdue settings now q := by
  obtain ⟨i, hi, rfl⟩ := Array.mem_iff_getElem.mp hx
  exact ⟨i, mem_overdue.mpr ⟨hi, hdue, rfl⟩⟩

/-- What `_get` chooses. -/
structure Chosen (settings : QueueSettings) (now : ℚ) (q : RefreshQueue Job) (item : QueueItem Job) : Prop where
  sentinel : (∃ x ∈ q, x.job = none) → item.job = none
  overdue : (∀ x ∈ q, x.job ≠ none) → (∃ x ∈ q, settings.promotionSeconds ≤ now - x.enqueuedAt) →
    settings.promotionSeconds ≤ now - item.enqueuedAt ∧
      ∀ x ∈ q, settings.promotionSeconds ≤ now - x.enqueuedAt → item.sequence ≤ x.sequence
  least : (∀ x ∈ q, x.job ≠ none) → (∀ x ∈ q, now - x.enqueuedAt < settings.promotionSeconds) →
    ∀ x ∈ q, item.key ≤ x.key

theorem get_ok (hheap : IsHeap QueueItem.key q) (h : get settings now q = some (item, q')) :
    q.toList.Perm (item :: q'.toList) ∧ IsHeap QueueItem.key q' ∧ Chosen settings now q item := by
  unfold get at h
  split at h
  · next index hindex =>
    obtain ⟨hperm, hrest, hlt, rfl⟩ := select_ok h
    obtain ⟨_, hnone, -⟩ := Array.findIdx?_eq_some_iff_getElem.mp hindex
    have hsentinel : q[index].job = none := by simpa using hnone
    refine ⟨hperm, hrest, fun _ => hsentinel, fun hjobs => ?_, fun hjobs => ?_⟩
    all_goals exact absurd hsentinel (hjobs _ (Array.getElem_mem hlt))
  · next hjobs =>
    rw [Array.findIdx?_eq_none_iff] at hjobs
    have hno : ¬∃ x ∈ q, x.job = none := by
      rintro ⟨x, hx, hnone⟩
      have hsome := hjobs x hx
      simp [hnone] at hsome
    split at h
    · next entry hentry =>
      obtain ⟨hperm, hrest, hlt, rfl⟩ := select_ok h
      obtain ⟨hmem, hleast⟩ := List.min?_eq_some_iff.mp hentry
      obtain ⟨_, hdue, hsequence⟩ := mem_overdue.mp hmem
      refine ⟨hperm, hrest, fun hsentinel => absurd hsentinel hno, fun _ _ => ⟨hdue, ?_⟩, ?_⟩
      · intro x hx hxdue
        obtain ⟨i, hxmem⟩ := exists_overdue hx hxdue
        have hle := Prod.Lex.monotone_fst _ _ (hleast _ hxmem)
        rw [hsequence]
        exact hle
      · intro _ hnone
        exact absurd hdue (not_le.mpr (hnone _ (Array.getElem_mem hlt)))
    · next hnone =>
      refine ⟨pop_perm _ h, pop_heap hheap h, fun hsentinel => absurd hsentinel hno, ?_, ?_⟩
      · rintro - ⟨x, hx, hxdue⟩
        obtain ⟨i, hxmem⟩ := exists_overdue hx hxdue
        rw [List.min?_eq_none_iff.mp hnone] at hxmem
        cases hxmem
      · intro _ _ x hx
        exact pop_le hheap h hx

theorem select_eq_none : q.select index = none ↔ q.size ≤ index := by
  unfold select
  split_ifs with h
  · simpa using h
  · simpa using h

theorem get_eq_none : get settings now q = none ↔ q = #[] := by
  unfold get
  split
  · next index hindex =>
    obtain ⟨hlt, -⟩ := Array.findIdx?_eq_some_iff_getElem.mp hindex
    rw [select_eq_none]
    constructor
    · intro hle
      omega
    · rintro rfl
      exact Nat.zero_le _
  · split
    · next entry hentry =>
      obtain ⟨hlt, -⟩ := mem_overdue.mp (List.min?_eq_some_iff.mp hentry).1
      rw [select_eq_none]
      constructor
      · intro hle
        omega
      · rintro rfl
        exact Nat.zero_le _
    · exact pop_eq_none _

/-! ## Runs -/

theorem Run.isHeap (h : Run settings q puts gots) : IsHeap QueueItem.key q := by
  induction h with
  | create => exact isHeap_empty
  | put h hfresh hput ih => exact (put_ok hput).2 ih
  | get now h hget ih => exact (get_ok ih hget).2.1

/-- Every item that was put is in the queue or was got, once. -/
theorem Run.perm (h : Run settings q puts gots) : (gots ++ q.toList).Perm puts := by
  induction h with
  | create => exact .refl _
  | @put q q' puts gots item h hfresh hput ih =>
    have hmoved := (put_ok hput).1.append_left gots
    exact (hmoved.trans List.perm_middle).trans (ih.cons item)
  | @get q q' puts gots item now h hget ih =>
    have hmoved := (get_ok h.isHeap hget).1.append_left gots
    exact (List.perm_middle.symm.trans hmoved.symm).trans ih

theorem Run.nodup (h : Run settings q puts gots) : (puts.map QueueItem.sequence).Nodup := by
  induction h with
  | create => exact List.nodup_nil
  | put h hfresh hput ih => exact List.nodup_cons.mpr ⟨hfresh, ih⟩
  | get now h hget ih => exact ih

/-- After any calls the list is a heap that holds the items put and not got, all of different
numbers; a `put` adds its item, and a `get` takes out the one that is to come next. -/
theorem aging_priority_queue (settings : QueueSettings) (q : RefreshQueue Job)
    (puts gots : List (QueueItem Job)) :
    Run settings q puts gots →
      IsHeap QueueItem.key q ∧ (gots ++ q.toList).Perm puts ∧ (puts.map QueueItem.sequence).Nodup ∧
      (∀ item q', put settings q item = some q' →
        q'.toList.Perm (item :: q.toList) ∧ IsHeap QueueItem.key q') ∧
      ∀ now, (get settings now q = none ↔ q = #[]) ∧
        ∀ item q', get settings now q = some (item, q') →
          q.toList.Perm (item :: q'.toList) ∧ IsHeap QueueItem.key q' ∧ Chosen settings now q item := by
  intro h
  refine ⟨h.isHeap, h.perm, h.nodup, ?_, ?_⟩
  · intro item q' hput
    exact ⟨(put_ok hput).1, (put_ok hput).2 h.isHeap⟩
  · intro now
    exact ⟨get_eq_none, fun item q' hget => get_ok h.isHeap hget⟩

def lowJob : QueueItem String := ⟨900, 1, 0, some "low"⟩

def highJob : QueueItem String := ⟨0, 2, 1/2, some "high"⟩

/-- A job that has waited for a second is taken before one of a higher priority. -/
theorem aged_job_first : ∃ q, Run ⟨2, 1⟩ q [highJob, lowJob] [] ∧
    ∃ q', get ⟨2, 1⟩ (11/10) q = some (lowJob, q') := by
  obtain ⟨q₁, hlow⟩ : ∃ q', put ⟨2, 1⟩ #[] lowJob = some q' := ⟨_, rfl⟩
  have hsize : q₁.size = 1 := by simpa using (put_ok hlow).1.length_eq
  obtain ⟨q, hhigh⟩ : ∃ q', put ⟨2, 1⟩ q₁ highJob = some q' := by
    rw [put, hsize]
    exact ⟨_, if_neg (by decide)⟩
  have hrun : Run ⟨2, 1⟩ q [highJob, lowJob] [] :=
    (Run.create.put (by decide) hlow).put (by decide) hhigh
  obtain ⟨-, hperm, -, -, hget⟩ := aging_priority_queue ⟨2, 1⟩ q [highJob, lowJob] [] hrun
  have hmem (x : QueueItem String) : x ∈ q ↔ x = highJob ∨ x = lowJob := by
    rw [← Array.mem_toList_iff]
    simpa using hperm.mem_iff (a := x)
  refine ⟨q, hrun, ?_⟩
  obtain ⟨hnone, hsome⟩ := hget (11/10)
  cases hresult : get ⟨2, 1⟩ (11/10) q with
  | none =>
    have hin := (hmem lowJob).mpr (.inr rfl)
    rw [hnone.mp hresult] at hin
    simp at hin
  | some result =>
    obtain ⟨item, q'⟩ := result
    obtain ⟨hrest, -, hchosen⟩ := hsome item q' hresult
    have hitem : item ∈ q := Array.mem_toList_iff.mp (hrest.mem_iff.mpr List.mem_cons_self)
    have hjobs : ∀ x ∈ q, x.job ≠ none := by
      intro x hx
      rcases (hmem x).mp hx with rfl | rfl <;> simp [highJob, lowJob]
    have hdue := (hchosen.overdue hjobs ⟨lowJob, (hmem _).mpr (.inr rfl), by norm_num [lowJob]⟩).1
    rcases (hmem item).mp hitem with rfl | rfl
    · norm_num [highJob] at hdue
    · exact ⟨q', rfl⟩

end RefreshQueue
end Origin
end MegaCache
