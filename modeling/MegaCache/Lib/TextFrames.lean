import Mathlib

/-!
# Separated and length-framed text

Two parts with a separator between them that the first does not contain, and a part of a
text preceded by the number of its UTF-8 bytes and a colon.  Frames that stand one after
the other can be told apart whatever the parts contain.
-/

namespace MegaCache

def frame (part : String) : String := toString part.utf8ByteSize ++ ":" ++ part

theorem toList_frame (part : String) :
    (frame part).toList = Nat.toDigits 10 part.utf8ByteSize ++ ':' :: part.toList := by
  simp [frame, Nat.toString_eq_repr, Nat.repr]

theorem colon_notMem_toDigits (n : ℕ) : ':' ∉ Nat.toDigits 10 n := by
  intro h
  have hdigit := Nat.isDigit_of_mem_toDigits (by decide) (by decide) h
  simp at hdigit

/-- The first separator ends the first part. -/
theorem append_separator_inj {α : Type} {sep : α} {l l' r r' : List α} (h : sep ∉ l) (h' : sep ∉ l')
    (he : l ++ sep :: r = l' ++ sep :: r') : l = l' ∧ r = r' := by
  rcases List.append_eq_append_iff.mp he with ⟨z, hl, hr⟩ | ⟨z, hl, hr⟩
  · cases z with
    | nil => exact ⟨by simpa using hl.symm, by simpa using hr⟩
    | cons ch z =>
      obtain ⟨rfl, -⟩ := List.cons_eq_cons.mp hr
      exact absurd (by simp [hl]) h'
  · cases z with
    | nil => exact ⟨by simpa using hl, by simpa using hr.symm⟩
    | cons ch z =>
      obtain ⟨rfl, -⟩ := List.cons_eq_cons.mp hr
      exact absurd (by simp [hl]) h

/-- The lines of a text, each with the separator that ends it. -/
def lines {α : Type} [DecidableEq α] (sep : α) : List α → List (List α)
  | [] => []
  | a :: rest =>
    if a = sep then [a] :: lines sep rest
    else
      match lines sep rest with
      | [] => [[a]]
      | line :: others => (a :: line) :: others

theorem lines_append {α : Type} [DecidableEq α] {sep : α} {line : List α} (h : sep ∉ line)
    (rest : List α) : lines sep (line ++ sep :: rest) = (line ++ [sep]) :: lines sep rest := by
  induction line with
  | nil => simp [lines]
  | cons a line ih =>
    obtain ⟨ha, hline⟩ : ¬sep = a ∧ sep ∉ line := by simpa using h
    rw [List.cons_append, lines, if_neg (Ne.symm ha), ih hline]
    rfl

theorem lines_flatMap {α : Type} [DecidableEq α] {sep : α} {parts : List (List α)}
    (h : ∀ part ∈ parts, sep ∉ part) :
    lines sep (parts.flatMap (· ++ [sep])) = parts.map (· ++ [sep]) := by
  induction parts with
  | nil => rfl
  | cons part parts ih =>
    rw [List.flatMap_cons, List.append_assoc, List.singleton_append,
      lines_append (h part List.mem_cons_self), ih fun p hp => h p (List.mem_cons_of_mem _ hp),
      List.map_cons]

/-- A longer text has more bytes. -/
theorem eq_nil_of_utf8ByteSize {a b : String} {z : List Char}
    (hbytes : a.utf8ByteSize = b.utf8ByteSize) (hz : b.toList = a.toList ++ z) : z = [] := by
  have hb : b = a ++ String.ofList z := by
    apply String.toList_injective
    simp [hz]
  rw [hb, String.utf8ByteSize_append] at hbytes
  have hzero : (String.ofList z).utf8ByteSize = 0 := by omega
  have hempty := String.utf8ByteSize_eq_zero_iff.mp hzero
  simpa using congrArg String.toList hempty

/-- Two texts of as many bytes at the beginning of one text are the same. -/
theorem eq_of_toList_append {a b : String} {x y : List Char}
    (hbytes : a.utf8ByteSize = b.utf8ByteSize) (h : a.toList ++ x = b.toList ++ y) :
    a = b ∧ x = y := by
  rcases List.append_eq_append_iff.mp h with ⟨z, hb, hx⟩ | ⟨z, ha, hy⟩
  · obtain rfl := eq_nil_of_utf8ByteSize hbytes hb
    exact ⟨String.toList_injective (by simpa using hb.symm), by simpa using hx⟩
  · obtain rfl := eq_nil_of_utf8ByteSize hbytes.symm ha
    exact ⟨String.toList_injective (by simpa using ha), by simpa using hy.symm⟩

/-- A frame and what follows it can be read back. -/
theorem frame_append_inj {a b : String} {x y : List Char}
    (h : (frame a).toList ++ x = (frame b).toList ++ y) : a = b ∧ x = y := by
  simp only [toList_frame, List.append_assoc, List.cons_append] at h
  obtain ⟨hdigits, hrest⟩ := append_separator_inj (colon_notMem_toDigits _) (colon_notMem_toDigits _) h
  have hbytes : a.utf8ByteSize = b.utf8ByteSize := by
    have hn := congrArg (fun l => Nat.ofDigitChars 10 l 0) hdigits
    simpa only [Nat.ofDigitChars_ten_toDigits] using hn
  exact eq_of_toList_append hbytes hrest

end MegaCache
