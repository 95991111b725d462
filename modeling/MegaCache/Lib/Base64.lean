import Mathlib.Tactic

/-!
# Base64

The standard alphabet with padding.  Three bytes are read as one number of 24 bits
and written as four digits of six; a last group of one or two bytes is filled up with
zero bits and padded.  The decoder takes whole groups only and checks the alphabet.
-/

namespace Base64

/-- The characters of the digits 0 to 63. -/
def digit (n : ℕ) : Char :=
  if n < 26 then Char.ofNat (65 + n)
  else if n < 52 then Char.ofNat (71 + n)
  else if n < 62 then Char.ofNat (n - 4)
  else if n = 62 then '+'
  else '/'

def value (ch : Char) : Option ℕ :=
  let n := ch.toNat
  if 65 ≤ n ∧ n ≤ 90 then some (n - 65)
  else if 97 ≤ n ∧ n ≤ 122 then some (n - 71)
  else if 48 ≤ n ∧ n ≤ 57 then some (n + 4)
  else if ch = '+' then some 62
  else if ch = '/' then some 63
  else none

theorem value_digit : ∀ n < 64, value (digit n) = some n := by decide

theorem digit_ne_pad : ∀ n < 64, digit n ≠ '=' := by decide

/-- Four digits of the number of a group. -/
def group (n : ℕ) : List Char :=
  [digit (n / 262144), digit (n / 4096 % 64), digit (n / 64 % 64), digit (n % 64)]

def encode : List UInt8 → List Char
  | a :: b :: c :: rest => group (a.toNat * 65536 + b.toNat * 256 + c.toNat) ++ encode rest
  | [a, b] => (group (a.toNat * 65536 + b.toNat * 256)).take 3 ++ ['=']
  | [a] => (group (a.toNat * 65536)).take 2 ++ ['=', '=']
  | [] => []

/-- The number of a group of digits. -/
def ungroup (w x y z : Char) : Option ℕ := do
  let w ← value w
  let x ← value x
  let y ← value y
  let z ← value z
  pure (w * 262144 + x * 4096 + y * 64 + z)

def decode : List Char → Option (List UInt8)
  | [] => some []
  | w :: x :: y :: z :: rest =>
    if rest = [] ∧ y = '=' ∧ z = '=' then do
      let n ← ungroup w x 'A' 'A'
      pure [UInt8.ofNat (n / 65536)]
    else if rest = [] ∧ z = '=' then do
      let n ← ungroup w x y 'A'
      pure [UInt8.ofNat (n / 65536), UInt8.ofNat (n / 256)]
    else do
      let n ← ungroup w x y z
      let tail ← decode rest
      pure (UInt8.ofNat (n / 65536) :: UInt8.ofNat (n / 256) :: UInt8.ofNat n :: tail)
  | _ => none

theorem ungroup_digit {w x y z : ℕ} (hw : w < 64) (hx : x < 64) (hy : y < 64) (hz : z < 64) :
    ungroup (digit w) (digit x) (digit y) (digit z) =
      some (w * 262144 + x * 4096 + y * 64 + z) := by
  simp [ungroup, value_digit w hw, value_digit x hx, value_digit y hy, value_digit z hz]

theorem ungroup_group {n : ℕ} (hn : n < 16777216) :
    ungroup (digit (n / 262144)) (digit (n / 4096 % 64)) (digit (n / 64 % 64)) (digit (n % 64)) =
      some n := by
  rw [ungroup_digit (by omega) (by omega) (by omega) (by omega)]
  congr 1
  omega

theorem uint8_ofNat_eq {a : UInt8} {n : ℕ} (h : n % 256 = a.toNat) : UInt8.ofNat n = a := by
  apply UInt8.toNat_inj.mp
  rw [UInt8.toNat_ofNat', ← h]

theorem decode_encode (bytes : List UInt8) : decode (encode bytes) = some bytes := by
  have hA : digit 0 = 'A' := by decide
  induction bytes using encode.induct with
  | case1 a b c rest ih =>
    have ha := a.toNat_lt
    have hb := b.toNat_lt
    have hc := c.toNat_lt
    have hpad : digit ((a.toNat * 65536 + b.toNat * 256 + c.toNat) % 64) ≠ '=' :=
      digit_ne_pad _ (by omega)
    simp only [encode, group, List.cons_append, List.nil_append, decode, hpad, and_false,
      if_false]
    rw [ungroup_group (by omega), ih]
    simp only [Option.bind_eq_bind, Option.bind_some, Option.pure_def]
    rw [uint8_ofNat_eq (a := a) (by omega), uint8_ofNat_eq (a := b) (by omega),
      uint8_ofNat_eq (a := c) (by omega)]
  | case2 a b =>
    have ha := a.toNat_lt
    have hb := b.toNat_lt
    have hpad : digit ((a.toNat * 65536 + b.toNat * 256) / 64 % 64) ≠ '=' :=
      digit_ne_pad _ (by omega)
    simp only [encode, group, List.take_succ_cons, List.take_zero, List.cons_append,
      List.nil_append, decode, hpad, true_and, false_and, if_false, if_true]
    rw [← hA, ungroup_digit (by omega) (by omega) (by omega) (by omega)]
    simp only [Option.bind_eq_bind, Option.bind_some, Option.pure_def]
    rw [uint8_ofNat_eq (a := a) (by omega), uint8_ofNat_eq (a := b) (by omega)]
  | case3 a =>
    have ha := a.toNat_lt
    simp only [encode, group, List.take_succ_cons, List.take_zero, List.cons_append,
      List.nil_append, decode, true_and, if_true]
    rw [← hA, ungroup_digit (by omega) (by omega) (by omega) (by omega)]
    simp only [Option.bind_eq_bind, Option.bind_some, Option.pure_def]
    rw [uint8_ofNat_eq (a := a) (by omega)]
  | case4 => rfl

end Base64
