import Mathlib.Algebra.Order.Floor.Ring
import Mathlib.Data.Rat.Floor
import Mathlib.Tactic

/-!
# Rounding to the nearest integer, ties to even

`round` of Python 3 on exact numbers.
-/

namespace MegaCache

def roundHalfEven (x : ℚ) : ℤ :=
  if x - ⌊x⌋ < 1/2 then ⌊x⌋
  else if 1/2 < x - ⌊x⌋ then ⌊x⌋ + 1
  else if ⌊x⌋ % 2 = 0 then ⌊x⌋ else ⌊x⌋ + 1

theorem floor_le_roundHalfEven (x : ℚ) : ⌊x⌋ ≤ roundHalfEven x := by
  unfold roundHalfEven
  split_ifs <;> omega

theorem roundHalfEven_le (x : ℚ) : roundHalfEven x ≤ ⌊x⌋ + 1 := by
  unfold roundHalfEven
  split_ifs <;> omega

@[simp] theorem roundHalfEven_intCast (n : ℤ) : roundHalfEven n = n := by
  simp [roundHalfEven]

theorem roundHalfEven_mono : Monotone roundHalfEven := by
  intro x y hxy
  have hfloor := Int.floor_mono hxy
  rcases hfloor.lt_or_eq with hlt | heq
  · calc
      roundHalfEven x ≤ ⌊x⌋ + 1 := roundHalfEven_le x
      _ ≤ ⌊y⌋ := hlt
      _ ≤ roundHalfEven y := floor_le_roundHalfEven y
  · -- both lie between the same integers
    unfold roundHalfEven
    rw [heq]
    have hfraction : x - ⌊y⌋ ≤ y - ⌊y⌋ := by linarith
    split_ifs <;> first | omega | linarith

end MegaCache
