import Mathlib.Data.List.Rotate
import Mathlib.Data.List.Sort

/-!
# Walking once around a sorted list

A circular walk over a sorted list that starts behind a threshold meets first the
elements above it and then the others.  The labels met, each at its first
occurrence, are `List.eraseDups` of the labels along the walk; leaving a label out
of the list leaves it out of the labels met and moves nothing else.
-/

namespace FirstSeen

variable {α β : Type*}

/-- The walk that starts behind the elements satisfying `p`. -/
def around (p : α → Bool) (l : List α) : List α := l.filter (fun a => !p a) ++ l.filter p

theorem mem_around {p : α → Bool} {l : List α} {a : α} : a ∈ around p l ↔ a ∈ l := by
  cases hp : p a <;> simp [around, hp]

theorem filter_around (p q : α → Bool) (l : List α) :
    (around p l).filter q = around p (l.filter q) := by
  simp only [around, List.filter_append, List.filter_filter, Bool.and_comm]

/-- Where `p` holds on an initial part only, that part is `filter p`. -/
theorem takeWhile_append_filter {p : α → Bool} {l : List α}
    (h : l.Pairwise fun a b => p b = true → p a = true) :
    l.takeWhile p = l.filter p ∧ l.dropWhile p = l.filter fun a => !p a := by
  induction l with
  | nil => exact ⟨rfl, rfl⟩
  | cons a l ih =>
    obtain ⟨ha, hl⟩ := List.pairwise_cons.mp h
    cases hp : p a with
    | true =>
      obtain ⟨ht, hd⟩ := ih hl
      simp [hp, ht, hd]
    | false =>
      -- nothing behind `a` satisfies `p`
      have hnone : ∀ b ∈ l, p b = false := by
        intro b hb
        by_contra hne
        simpa [hp] using ha b hb (by simpa using hne)
      have hall : l.filter (fun b => !p b) = l :=
        List.filter_eq_self.mpr fun b hb => by simp [hnone b hb]
      have hnil : l.filter p = [] :=
        List.filter_eq_nil_iff.mpr fun b hb => by simp [hnone b hb]
      simp [hp, hall, hnil]

theorem rotate_takeWhile {p : α → Bool} {l : List α}
    (h : l.Pairwise fun a b => p b = true → p a = true) :
    l.rotate (l.takeWhile p).length = around p l := by
  obtain ⟨ht, hd⟩ := takeWhile_append_filter h
  have hsplit : l = l.takeWhile p ++ l.dropWhile p := List.takeWhile_append_dropWhile.symm
  calc l.rotate (l.takeWhile p).length
      = (l.takeWhile p ++ l.dropWhile p).rotate (l.takeWhile p).length := by rw [← hsplit]
    _ = l.dropWhile p ++ l.takeWhile p := List.rotate_append_length_eq _ _
    _ = around p l := by rw [ht, hd]; rfl

/-- Filtering the first `n` elements gives a prefix of the first `n` that pass. -/
theorem filter_take_prefix (q : α → Bool) (l : List α) (n : ℕ) :
    (l.take n).filter q <+: (l.filter q).take n := by
  refine List.prefix_take_iff.mpr ⟨(List.take_prefix n l).filter q, ?_⟩
  exact (List.length_filter_le q _).trans (List.length_take_le n l)

variable [DecidableEq β]

/-- The recursion of `eraseDups`: what is left behind the first element is the rest
of the list without it. -/
theorem eraseDups_induction {P : List β → Prop} (nil : P [])
    (cons : ∀ a l, P (l.filter fun b => !b == a) → P (a :: l)) (l : List β) : P l := by
  induction hn : l.length using Nat.strong_induction_on generalizing l with
  | _ n ih =>
    cases l with
    | nil => exact nil
    | cons a l =>
      have hle := List.length_filter_le (fun b => !b == a) l
      simp only [List.length_cons] at hn
      exact cons a l (ih _ (by omega) _ rfl)

theorem nodup_eraseDups (l : List β) : l.eraseDups.Nodup := by
  induction l using eraseDups_induction with
  | nil => simp
  | cons a l ih =>
    rw [List.eraseDups_cons, List.nodup_cons, List.mem_eraseDups]
    exact ⟨by simp, ih⟩

theorem filter_eraseDups (q : β → Bool) (l : List β) :
    (l.filter q).eraseDups = l.eraseDups.filter q := by
  induction l using eraseDups_induction with
  | nil => simp
  | cons a l ih =>
    cases hq : q a with
    | true =>
      simp only [List.filter_cons, hq, if_true, List.eraseDups_cons, ← ih,
        List.filter_filter, Bool.and_comm]
    | false =>
      -- leaving `a` out once `q` has left it out changes nothing
      have hsame : (l.filter fun b => q b && !b == a) = l.filter q := by
        apply List.filter_congr
        intro b _
        by_cases hb : b = a
        · simp [hb, hq]
        · simp [hb]
      simp only [List.filter_cons, hq, List.eraseDups_cons, ← ih, List.filter_filter, hsame]
      rfl

/-- Without repetition, leaving out one label costs at most one element. -/
theorem length_le_filter_ne {l : List β} (h : l.Nodup) (b : β) :
    l.length ≤ (l.filter fun a => a ≠ b).length + 1 := by
  have herase : l.erase b = l.filter fun a => a ≠ b := by
    rw [h.erase_eq_filter b]
    apply List.filter_congr
    intro a _
    by_cases hab : a = b <;> simp [hab]
  rw [← herase, List.length_erase]
  split_ifs <;> omega

end FirstSeen
