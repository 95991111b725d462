import Mathlib.Tactic

/-!
# Decimal numbers as bytes

The decimal text of a number in ASCII, and two readers of such texts: `int` of
Python, which allows white space around the number and single underscores between
its digits and refuses more than 4300 digits, and `strconv.Atoi` of Go, which reads
numbers of 64 bits.  Both read back what is written.
-/

namespace Decimal

def isDigit (b : UInt8) : Bool := 48 ≤ b.toNat && b.toNat ≤ 57

def natText (n : ℕ) : List UInt8 := (Nat.toDigits 10 n).map fun ch => UInt8.ofNat ch.toNat

def intText : ℤ → List UInt8
  | .ofNat n => natText n
  | .negSucc n => 45 :: natText (n + 1)

/-- The number that a list of digits stands for. -/
def value (digits : List UInt8) : ℕ := digits.foldl (fun n b => 10 * n + (b.toNat - 48)) 0

theorem toNat_ofNat_digit {ch : Char} (h : ch.isDigit = true) :
    (UInt8.ofNat ch.toNat).toNat = ch.toNat ∧ 48 ≤ ch.toNat ∧ ch.toNat ≤ 57 := by
  simp only [Char.isDigit, Bool.and_eq_true, decide_eq_true_eq, UInt32.le_iff_toNat_le] at h
  have hbounds : 48 ≤ ch.toNat ∧ ch.toNat ≤ 57 := h
  rw [UInt8.toNat_ofNat']
  omega

theorem isDigit_toDigits {n : ℕ} {ch : Char} (h : ch ∈ Nat.toDigits 10 n) : ch.isDigit = true :=
  Nat.isDigit_of_mem_toDigits (by decide) (by decide) h

theorem natText_isDigit {n : ℕ} {b : UInt8} (h : b ∈ natText n) : isDigit b = true := by
  obtain ⟨ch, hch, rfl⟩ := List.mem_map.mp h
  obtain ⟨heq, h₁, h₂⟩ := toNat_ofNat_digit (isDigit_toDigits hch)
  simp [isDigit, heq, h₁, h₂]

theorem natText_ne_nil (n : ℕ) : natText n ≠ [] := by
  simp [natText, Nat.toDigits_ne_nil]

theorem value_natText (n : ℕ) : value (natText n) = n := by
  have hfold : ∀ (l : List Char) (acc : ℕ), (∀ ch ∈ l, ch.isDigit = true) →
      (l.map fun ch => UInt8.ofNat ch.toNat).foldl (fun n b => 10 * n + (b.toNat - 48)) acc =
        Nat.ofDigitChars 10 l acc := by
    intro l
    induction l with
    | nil =>
      intro acc _
      simp
    | cons ch rest ih =>
      intro acc h
      obtain ⟨heq, -⟩ := toNat_ofNat_digit (h ch List.mem_cons_self)
      rw [List.map_cons, List.foldl_cons, heq, Nat.ofDigitChars_cons,
        ih _ fun ch' h' => h ch' (List.mem_cons_of_mem _ h')]
      rfl
  unfold value natText
  rw [hfold _ _ fun ch h => isDigit_toDigits h, Nat.ofDigitChars_ten_toDigits]

theorem length_natText_le {n k : ℕ} (hk : 0 < k) (hn : n < 10 ^ k) : (natText n).length ≤ k := by
  rw [natText, List.length_map]
  exact (Nat.length_toDigits_le_iff (by decide) hk).mpr hn

/-- The bytes of a decimal text are digits, or the sign in front. -/
theorem intText_bytes {n : ℤ} {b : UInt8} (h : b ∈ intText n) : b = 45 ∨ isDigit b = true := by
  cases n with
  | ofNat n => exact .inr (natText_isDigit h)
  | negSucc n =>
    rcases List.mem_cons.mp h with h | h
    · exact .inl h
    · exact .inr (natText_isDigit h)

/-- The text of an integer, with a plus sign in front where one is asked for. -/
def signedText (plus : Bool) (n : ℤ) : List UInt8 :=
  if plus ∧ 0 ≤ n then 43 :: intText n else intText n

theorem signedText_bytes {plus : Bool} {n : ℤ} {b : UInt8} (h : b ∈ signedText plus n) :
    b = 43 ∨ b = 45 ∨ isDigit b = true := by
  unfold signedText at h
  split_ifs at h
  · rcases List.mem_cons.mp h with h | h
    · exact .inl h
    · exact .inr (intText_bytes h)
  · exact .inr (intText_bytes h)

theorem length_signedText_le (plus : Bool) (n : ℤ) :
    (signedText plus n).length ≤ (natText n.natAbs).length + 1 := by
  unfold signedText
  cases n with
  | ofNat n => split_ifs <;> simp [intText]
  | negSucc n => simp [intText]

/-- A number with an optional sign, its digits read by `digits`. -/
def signed (digits : List UInt8 → Option ℕ) : List UInt8 → Option ℤ
  | [] => none
  | b :: rest =>
    if b = 45 then (digits rest).map fun n => -(n : ℤ)
    else if b = 43 then (digits rest).map fun n => (n : ℤ)
    else (digits (b :: rest)).map fun n => (n : ℤ)

theorem signed_natText {digits : List UInt8 → Option ℕ} {n : ℕ} (h : digits (natText n) = some n) :
    signed digits (natText n) = some (n : ℤ) := by
  cases htext : natText n with
  | nil => exact absurd htext (natText_ne_nil n)
  | cons b rest =>
    have hdigit : isDigit b = true := natText_isDigit (by rw [htext]; exact List.mem_cons_self)
    have h45 : b ≠ 45 := by
      rintro rfl
      revert hdigit
      decide
    have h43 : b ≠ 43 := by
      rintro rfl
      revert hdigit
      decide
    rw [htext] at h
    simp [signed, h45, h43, h]

/-- A reader of digits that reads `n.natAbs` reads `n` with its sign. -/
theorem signed_signedText {digits : List UInt8 → Option ℕ} {plus : Bool} {n : ℤ}
    (h : digits (natText n.natAbs) = some n.natAbs) : signed digits (signedText plus n) = some n := by
  cases n with
  | ofNat n =>
    unfold signedText
    split_ifs
    · have h' : digits (natText n) = some n := h
      simp [signed, intText, h']
    · exact signed_natText h
  | negSucc n =>
    have h' : digits (natText (n + 1)) = some (n + 1) := h
    unfold signedText
    rw [if_neg (by simp)]
    simp [signed, intText, h', Int.negSucc_eq]

/-! ## Python -/

/-- The bytes that `bytes.isspace` accepts. -/
def isSpace (b : UInt8) : Bool := b = 32 || 9 ≤ b.toNat && b.toNat ≤ 13

/-- `sys.int_info.default_max_str_digits`. -/
def maxStrDigits : ℕ := 4300

/-- The digits of a number without sign, with single underscores between them. -/
def pyDigits (text : List UInt8) : Option ℕ :=
  let groups := text.splitOnP fun b => b = 95
  if groups.all (fun group => group ≠ [] && group.all isDigit) &&
      groups.flatten.length ≤ maxStrDigits then
    some (value groups.flatten)
  else none

/-- `int(text)`. -/
def pyInt (text : List UInt8) : Option ℤ :=
  signed pyDigits ((text.dropWhile isSpace).reverse.dropWhile isSpace).reverse

theorem pyDigits_natText {n : ℕ} (hlen : (natText n).length ≤ maxStrDigits) :
    pyDigits (natText n) = some n := by
  have hsplit : (natText n).splitOnP (fun b => b = 95) = [natText n] := by
    apply List.splitOnP_eq_singleton
    intro b hb
    have hdigit := natText_isDigit hb
    apply decide_eq_false
    rintro rfl
    revert hdigit
    decide
  have hall : (natText n).all isDigit = true := List.all_eq_true.mpr fun b hb => natText_isDigit hb
  simp [pyDigits, hsplit, natText_ne_nil, hall, hlen, value_natText]

theorem pyInt_signedText (plus : Bool) {n : ℤ} (hlen : (natText n.natAbs).length ≤ maxStrDigits) :
    pyInt (signedText plus n) = some n := by
  -- there is no white space to strip
  have hspace : ∀ l : List UInt8, (∀ b ∈ l, isSpace b = false) → l.dropWhile isSpace = l := by
    intro l hl
    cases l with
    | nil => rfl
    | cons b rest => simp [hl b List.mem_cons_self]
  have hbytes : ∀ b ∈ signedText plus n, isSpace b = false := by
    intro b hb
    rcases signedText_bytes hb with rfl | rfl | hdigit
    · rfl
    · rfl
    · simp only [isDigit, Bool.and_eq_true, decide_eq_true_eq] at hdigit
      have hne : b ≠ 32 := by
        rintro rfl
        revert hdigit
        decide
      simp only [isSpace, hne, decide_false, Bool.false_or, Bool.and_eq_false_iff,
        decide_eq_false_iff_not]
      omega
  unfold pyInt
  rw [hspace _ hbytes, hspace _ fun b hb => hbytes b (List.mem_reverse.mp hb), List.reverse_reverse]
  exact signed_signedText (pyDigits_natText hlen)

theorem pyInt_natText {n : ℕ} (hlen : (natText n).length ≤ maxStrDigits) :
    pyInt (natText n) = some (n : ℤ) :=
  pyInt_signedText false (n := n) hlen

/-! ## Go -/

/-- The digits of a number without sign. -/
def goDigits (text : List UInt8) : Option ℕ :=
  if text ≠ [] ∧ text.all isDigit then some (value text) else none

/-- The numbers of 64 bits. -/
def Int64 (n : ℤ) : Prop := -9223372036854775808 ≤ n ∧ n < 9223372036854775808

instance (n : ℤ) : Decidable (Int64 n) := by
  unfold Int64
  infer_instance

/-- `strconv.Atoi(text)`. -/
def atoi (text : List UInt8) : Option ℤ := (signed goDigits text).filter fun n => Int64 n

theorem goDigits_natText (n : ℕ) : goDigits (natText n) = some n := by
  have hall : (natText n).all isDigit = true := List.all_eq_true.mpr fun b hb => natText_isDigit hb
  simp [goDigits, natText_ne_nil, hall, value_natText]

theorem atoi_signedText (plus : Bool) {n : ℤ} (h : Int64 n) : atoi (signedText plus n) = some n := by
  unfold atoi
  rw [signed_signedText (goDigits_natText _)]
  simp [h]

theorem atoi_natText {n : ℕ} (h : Int64 n) : atoi (natText n) = some (n : ℤ) :=
  atoi_signedText false (n := n) h

end Decimal
