import Mathlib
import MegaCache.Lib.Json

/-!
# Reading JSON text

`json.loads`: white space between the tokens, the escapes of strings, and the numbers.  As
an object is represented by its items in the order of their keys, the reader puts them into
that order; of two items with one key the later one counts.

A value that is written and read is the same value, provided that its objects are in order,
and what was read has its objects in order.
-/

namespace Json

/-! ## Tokens -/

def isSpace (ch : Char) : Bool := ch ∈ [' ', '\t', '\n', '\r']

/-- The text from its first token on. -/
def skip (text : List Char) : List Char := text.dropWhile isSpace

/-- The characters of names and numbers. -/
def tokenChar (ch : Char) : Bool := ch.isAlphanum || ch ∈ ['+', '-', '.']

def readNat (digits : List Char) : Option ℕ :=
  if digits ≠ [] ∧ digits.all Char.isDigit ∧ (digits.head? = some '0' → digits = ['0']) then
    some (Nat.ofDigitChars 10 digits 0)
  else none

def readInt : List Char → Option ℤ
  | '-' :: digits => (readNat digits).map fun (n : ℕ) => -(n : ℤ)
  | digits => (readNat digits).map fun (n : ℕ) => (n : ℤ)

/-- The names of JSON, and the three that Python adds. -/
def keyword (token : List Char) : Option Json :=
  if token = ['n', 'u', 'l', 'l'] then some null
  else if token = ['t', 'r', 'u', 'e'] then some (bool true)
  else if token = ['f', 'a', 'l', 's', 'e'] then some (bool false)
  else if token = NonFinite.text .nan then some (nonFinite .nan)
  else if token = NonFinite.text .infinity then some (nonFinite .infinity)
  else if token = NonFinite.text .minusInfinity then some (nonFinite .minusInfinity)
  else none

/-- `float.__repr__` and `float` on such texts.  A text is read as the number it was written
for, and it has a point or an exponent, so that it is not the text of an integer. -/
structure FloatText where
  repr : ℚ → List Char
  read : List Char → Option ℚ
  read_repr : ∀ x, read (repr x) = some x
  repr_digits : ∀ x, ∀ ch ∈ repr x, ch.isDigit ∨ ch ∈ ['+', '-', '.', 'e']
  repr_fraction : ∀ x, '.' ∈ repr x ∨ 'e' ∈ repr x

theorem FloatText.plain_repr (floats : FloatText) (x : ℚ) : Plain (floats.repr x) := by
  intro ch hch
  rcases floats.repr_digits x ch hch with hdigit | hsign
  · simp only [Char.isDigit, Bool.and_eq_true, decide_eq_true_eq] at hdigit
    have h48 : (48 : ℕ) ≤ ch.toNat := by
      simpa [UInt32.le_iff_toNat_le] using hdigit.1
    omega
  · have hsigns : Plain ['+', '-', '.', 'e'] := by
      simp [Plain]
    exact hsigns ch hsign

/-- The value of a name or a number. -/
def scalar (floats : FloatText) (token : List Char) : Option Json :=
  match keyword token with
  | some j => some j
  | none =>
    match readInt token with
    | some n => some (int n)
    | none => (floats.read token).map float

/-! ## Strings -/

def hexValue (ch : Char) : Option ℕ :=
  if ch.isDigit then some (ch.toNat - 48)
  else if 'a' ≤ ch ∧ ch ≤ 'f' then some (ch.toNat - 87)
  else if 'A' ≤ ch ∧ ch ≤ 'F' then some (ch.toNat - 55)
  else none

/-- The character behind a backslash. -/
def unescape (ch : Char) : Option Char :=
  if ch = '"' ∨ ch = '\\' ∨ ch = '/' then some ch
  else if ch = 'b' then some (Char.ofNat 8)
  else if ch = 'f' then some (Char.ofNat 12)
  else if ch = 'n' then some '\n'
  else if ch = 'r' then some '\r'
  else if ch = 't' then some '\t'
  else none

/-- Where in a string the reader is: between two characters, behind a backslash, or before
the last `left` digits of a code unit. -/
inductive InString
  | plain
  | escaped
  | hex (left value : ℕ)

/-- The code units of a string up to its closing quote, and the text behind it. -/
def readUnits : InString → List Char → Option (List ℕ × List Char)
  | _, [] => none
  | .plain, ch :: rest =>
    if ch = '"' then some ([], rest)
    else if ch = '\\' then readUnits .escaped rest
    else if ch.toNat < 32 then none
    else (readUnits .plain rest).map fun p => (ch.toNat :: p.1, p.2)
  | .escaped, ch :: rest =>
    if ch = 'u' then readUnits (.hex 3 0) rest
    else
      match unescape ch with
      | none => none
      | some ch => (readUnits .plain rest).map fun p => (ch.toNat :: p.1, p.2)
  | .hex left value, ch :: rest =>
    match hexValue ch, left with
    | none, _ => none
    | some d, 0 => (readUnits .plain rest).map fun p => ((16 * value + d) :: p.1, p.2)
    | some d, left + 1 => readUnits (.hex left (16 * value + d)) rest

def highSurrogate (unit : ℕ) : Bool := 55296 ≤ unit && unit < 56320

def lowSurrogate (unit : ℕ) : Bool := 56320 ≤ unit && unit < 57344

/-- The characters of code units.  Two surrogates stand for one character; one alone is no
character of any text. -/
def joinUnits : List ℕ → Option (List Char)
  | [] => some []
  | unit :: rest =>
    if highSurrogate unit then
      match rest with
      | [] => none
      | low :: rest =>
        if lowSurrogate low then
          (joinUnits rest).map
            (Char.ofNat (65536 + 1024 * (unit - 55296) + (low - 56320)) :: ·)
        else none
    else if lowSurrogate unit then none
    else (joinUnits rest).map (Char.ofNat unit :: ·)

/-- The text of a string behind its opening quote, and what follows the string. -/
def readString (text : List Char) : Option (String × List Char) := do
  let p ← readUnits .plain text
  let chars ← joinUnits p.1
  pure (String.ofList chars, p.2)

/-! ## Values -/

/-- An item put into an object in order. -/
def insertField (key : String) (value : Json) : List (String × Json) → List (String × Json)
  | [] => [(key, value)]
  | p :: rest =>
    if key < p.1 then (key, value) :: p :: rest
    else if key = p.1 then (key, value) :: rest
    else p :: insertField key value rest

mutual

/-- The first value of a text and what follows it; `fuel` bounds the nesting. -/
def readValue (floats : FloatText) : ℕ → List Char → Option (Json × List Char)
  | 0, _ => none
  | fuel + 1, text =>
    match skip text with
    | [] => none
    | ch :: rest =>
      if ch = '"' then (readString rest).map fun p => (str p.1, p.2)
      else if ch = '[' then
        if (skip rest).head? = some ']' then some (arr [], (skip rest).tail)
        else readItems floats fuel [] rest
      else if ch = '{' then
        if (skip rest).head? = some '}' then some (obj [], (skip rest).tail)
        else readFields floats fuel [] rest
      else
        (scalar floats ((ch :: rest).takeWhile tokenChar)).map fun j =>
          (j, (ch :: rest).dropWhile tokenChar)

/-- The rest of an array behind the values `done`. -/
def readItems (floats : FloatText) : ℕ → List Json → List Char → Option (Json × List Char)
  | 0, _, _ => none
  | fuel + 1, done, text =>
    match readValue floats fuel text with
    | none => none
    | some (j, rest) =>
      match skip rest with
      | [] => none
      | ch :: rest =>
        if ch = ',' then readItems floats fuel (done ++ [j]) rest
        else if ch = ']' then some (arr (done ++ [j]), rest)
        else none

/-- The rest of an object behind the items `done`. -/
def readFields (floats : FloatText) :
    ℕ → List (String × Json) → List Char → Option (Json × List Char)
  | 0, _, _ => none
  | fuel + 1, done, text =>
    match skip text with
    | [] => none
    | quote :: rest =>
      match (if quote = '"' then readString rest else none) with
      | none => none
      | some (key, rest) =>
        match skip rest with
        | [] => none
        | colon :: rest =>
          match (if colon = ':' then readValue floats fuel rest else none) with
          | none => none
          | some (j, rest) =>
            match skip rest with
            | [] => none
            | ch :: rest =>
              if ch = ',' then readFields floats fuel (insertField key j done) rest
              else if ch = '}' then some (obj (insertField key j done), rest)
              else none

end

/-- The value of a text that has nothing but white space around it.  Every level of nesting
takes a character, so the length of the text is fuel enough. -/
def parse (floats : FloatText) (text : List Char) : Option Json :=
  match readValue floats text.length text with
  | none => none
  | some (j, rest) => if skip rest = [] then some j else none

/-- `json.loads` of UTF-8 text. -/
def loads (floats : FloatText) (bytes : List UInt8) : Option Json :=
  match bytes.toByteArray.utf8Decode? with
  | none => none
  | some text => parse floats text.toList

/-! ## Numbers and names read back -/

/-- The decimal text of a positive number does not begin with a zero. -/
theorem head_toDigits (n : ℕ) (hn : 0 < n) : (Nat.toDigits 10 n).head? ≠ some '0' := by
  induction n using Nat.strong_induction_on with
  | _ n ih =>
    by_cases hlt : n < 10
    · rw [Nat.toDigits_of_lt_base hlt]
      interval_cases n <;> decide
    · have hpos : 0 < n / 10 := by omega
      have hne : Nat.toDigits 10 (n / 10) ≠ [] := Nat.toDigits_ne_nil
      rw [Nat.toDigits_of_base_le (by decide) (by omega), List.head?_append_of_ne_nil _ hne]
      exact ih (n / 10) (by omega) hpos

theorem readNat_toDigits (n : ℕ) : readNat (Nat.toDigits 10 n) = some n := by
  have hdigits : (Nat.toDigits 10 n).all Char.isDigit = true :=
    List.all_eq_true.mpr fun ch h => Nat.isDigit_of_mem_toDigits (by decide) (by decide) h
  have hzero : (Nat.toDigits 10 n).head? = some '0' → Nat.toDigits 10 n = ['0'] := by
    intro h
    cases n with
    | zero => exact Nat.toDigits_zero 10
    | succ n => exact absurd h (head_toDigits _ (Nat.succ_pos n))
  rw [readNat, if_pos ⟨Nat.toDigits_ne_nil, hdigits, hzero⟩, Nat.ofDigitChars_ten_toDigits]

theorem readInt_digits {digits : List Char} (h : ∀ ch ∈ digits, ch.isDigit = true) :
    readInt digits = (readNat digits).map fun (n : ℕ) => (n : ℤ) := by
  unfold readInt
  split
  · exact absurd (h '-' List.mem_cons_self) (by decide)
  · rfl

theorem readInt_intText (n : ℤ) : readInt (intText n) = some n := by
  cases n with
  | ofNat n =>
    have hdigits := readInt_digits fun ch (h : ch ∈ Nat.toDigits 10 n) =>
      Nat.isDigit_of_mem_toDigits (by decide) (by decide) h
    simp [intText, hdigits, readNat_toDigits]
  | negSucc n =>
    simp only [intText, readInt, readNat_toDigits, Option.map_some, Option.some.injEq]
    omega

/-- What is read as an integer has digits only, behind a sign. -/
theorem readInt_chars {token : List Char} {n : ℤ} (h : readInt token = some n) {ch : Char}
    (hch : ch ∈ token) : ch = '-' ∨ ch.isDigit = true := by
  have hnat : ∀ {digits : List Char} {m : ℕ}, readNat digits = some m → ch ∈ digits →
      ch.isDigit = true := by
    intro digits m hm hmem
    unfold readNat at hm
    split_ifs at hm with hall
    exact List.all_eq_true.mp hall.2.1 ch hmem
  unfold readInt at h
  split at h
  · obtain ⟨m, hm, -⟩ := Option.map_eq_some_iff.mp h
    rcases List.mem_cons.mp hch with hch | hch
    · exact .inl hch
    · exact .inr (hnat hm hch)
  · obtain ⟨m, hm, -⟩ := Option.map_eq_some_iff.mp h
    exact .inr (hnat hm hch)

/-- The characters of the text of a number. -/
def numberChar (ch : Char) : Prop := ch.isDigit ∨ ch ∈ ['+', '-', '.', 'e']

instance (ch : Char) : Decidable (numberChar ch) := by
  unfold numberChar
  infer_instance

theorem keyword_number {token : List Char} (h : ∀ ch ∈ token, numberChar ch) :
    keyword token = none := by
  have hletter : ∀ ch ∈ ['n', 'r', 'a', 'N', 'I'], ch ∉ token := by
    intro ch hch hmem
    have := h ch hmem
    revert this
    fin_cases hch <;> decide
  unfold keyword NonFinite.text
  split_ifs with h₁ h₂ h₃ h₄ h₅ h₆
  · exact absurd (by simp [h₁]) (hletter 'n' (by simp))
  · exact absurd (by simp [h₂]) (hletter 'r' (by simp))
  · exact absurd (by simp [h₃]) (hletter 'a' (by simp))
  · exact absurd (by simp [h₄]) (hletter 'N' (by simp))
  · exact absurd (by simp [h₅]) (hletter 'I' (by simp))
  · exact absurd (by simp [h₆]) (hletter 'I' (by simp))
  · rfl

theorem numberChar_intText {n : ℤ} {ch : Char} (h : ch ∈ intText n) : numberChar ch := by
  have hdigit : ∀ {m : ℕ}, ch ∈ Nat.toDigits 10 m → numberChar ch := fun hm =>
    .inl (Nat.isDigit_of_mem_toDigits (by decide) (by decide) hm)
  cases n with
  | ofNat n => exact hdigit h
  | negSucc n =>
    rcases List.mem_cons.mp h with rfl | h
    · decide
    · exact hdigit h

theorem numberChar.tokenChar {ch : Char} (h : numberChar ch) : tokenChar ch = true := by
  rcases h with h | h
  · simp [Json.tokenChar, Char.isAlphanum, h]
  · fin_cases h <;> decide

variable {floats : FloatText}

theorem scalar_int (n : ℤ) : scalar floats (intText n) = some (int n) := by
  simp only [scalar, keyword_number fun _ => numberChar_intText, readInt_intText]

theorem scalar_float (x : ℚ) : scalar floats (floats.repr x) = some (float x) := by
  have hint : readInt (floats.repr x) = none := by
    by_contra hsome
    obtain ⟨n, hn⟩ := Option.ne_none_iff_exists'.mp hsome
    rcases floats.repr_fraction x with hch | hch
    · rcases readInt_chars hn hch with h | h <;> revert h <;> decide
    · rcases readInt_chars hn hch with h | h <;> revert h <;> decide
  simp only [scalar, keyword_number (floats.repr_digits x), hint, floats.read_repr, Option.map_some]

/-- No name or number goes on in the text. -/
def Stops (text : List Char) : Prop := ∀ ch, text.head? = some ch → tokenChar ch = false

theorem stops_nil : Stops [] := fun _ h => by cases h

theorem stops_cons {ch : Char} {rest : List Char} (h : tokenChar ch = false) :
    Stops (ch :: rest) := by
  intro ch' h'
  rw [List.head?_cons, Option.some.injEq] at h'
  exact h' ▸ h

theorem takeWhile_token {token rest : List Char} (h : ∀ ch ∈ token, tokenChar ch = true)
    (hrest : Stops rest) : (token ++ rest).takeWhile tokenChar = token ∧
      (token ++ rest).dropWhile tokenChar = rest := by
  rw [List.takeWhile_append_of_pos h, List.dropWhile_append_of_pos h]
  cases rest with
  | nil => simp
  | cons ch rest => simp [hrest ch rfl]

theorem skip_cons {ch : Char} {rest : List Char} (h : isSpace ch = false) :
    skip (ch :: rest) = ch :: rest := by
  simp [skip, h]

theorem tokenChar_not_space {ch : Char} (h : tokenChar ch = true) :
    isSpace ch = false ∧ ch ≠ '"' ∧ ch ≠ '[' ∧ ch ≠ '{' := by
  have hnot : ∀ ch' ∈ [' ', '\t', '\n', '\r', '"', '[', '{'], ch ≠ ch' := by
    rintro ch' hch' rfl
    revert h
    fin_cases hch' <;> decide
  refine ⟨?_, hnot '"' (by simp), hnot '[' (by simp), hnot '{' (by simp)⟩
  simp only [isSpace, decide_eq_false_iff_not, List.mem_cons, List.not_mem_nil, or_false, not_or]
  exact ⟨hnot ' ' (by simp), hnot '\t' (by simp), hnot '\n' (by simp), hnot '\r' (by simp)⟩

/-- A name or a number, up to a character that ends it. -/
theorem readValue_token {token rest : List Char} {j : Json} (fuel : ℕ)
    (h : ∀ ch ∈ token, tokenChar ch = true) (hrest : Stops rest)
    (hj : scalar floats token = some j) (hne : token ≠ []) :
    readValue floats (fuel + 1) (token ++ rest) = some (j, rest) := by
  obtain ⟨htake, hdrop⟩ := takeWhile_token h hrest
  cases token with
  | nil => exact absurd rfl hne
  | cons ch token =>
    obtain ⟨hspace, h₁, h₂, h₃⟩ := tokenChar_not_space (h ch List.mem_cons_self)
    rw [List.cons_append] at htake hdrop ⊢
    rw [readValue, skip_cons hspace]
    simp only [h₁, h₂, h₃, ↓reduceIte, htake, hdrop, hj, Option.map_some]

/-! ## Strings read back -/

theorem hexValue_hexDigit : ∀ n < 16, hexValue (hexDigit n) = some n := by decide

theorem readUnits_escape (ch : Char) (rest : List Char) :
    readUnits .plain (escape ch ++ rest) =
      (readUnits .plain rest).map fun p => (ch.toNat :: p.1, p.2) := by
  unfold escape
  split_ifs with h₁ h₂ h₃ h₄ h₅ h₆ h₇ h₈
  · simp [readUnits, unescape, h₁]
  · simp [readUnits, unescape, h₂]
  · simp [readUnits, unescape, h₃]
  · simp [readUnits, unescape, h₄]
  · simp [readUnits, unescape, h₅]
  · simp [readUnits, unescape, h₆]
  · simp [readUnits, unescape, h₇]
  · have hhi := hexValue_hexDigit (ch.toNat / 16) (by omega)
    have hlo := hexValue_hexDigit (ch.toNat % 16) (by omega)
    have hzero : hexValue '0' = some 0 := by decide
    have hunit : 16 * (ch.toNat / 16) + ch.toNat % 16 = ch.toNat := Nat.div_add_mod _ _
    simp [readUnits, hzero, hhi, hlo, hunit]
  · simp [readUnits, h₁, h₂, h₈]

theorem readUnits_quote (text rest : List Char) :
    readUnits .plain (text.flatMap escape ++ '"' :: rest) = some (text.map Char.toNat, rest) := by
  induction text with
  | nil => simp [readUnits]
  | cons ch text ih =>
    rw [List.flatMap_cons, List.append_assoc, readUnits_escape, ih]
    rfl

theorem not_surrogate (ch : Char) :
    highSurrogate ch.toNat = false ∧ lowSurrogate ch.toNat = false := by
  have hvalid : ch.toNat < 55296 ∨ 57343 < ch.toNat ∧ ch.toNat < 1114112 := ch.valid
  simp only [highSurrogate, lowSurrogate, Bool.and_eq_false_iff, decide_eq_false_iff_not]
  omega

theorem joinUnits_toNat (text : List Char) : joinUnits (text.map Char.toNat) = some text := by
  induction text with
  | nil => rfl
  | cons ch text ih =>
    obtain ⟨hhigh, hlow⟩ := not_surrogate ch
    rw [List.map_cons]
    unfold joinUnits
    simp [hhigh, hlow, ih, Char.ofNat_toNat]

theorem readString_quote (s : String) (rest : List Char) :
    readString (s.toList.flatMap escape ++ '"' :: rest) = some (s, rest) := by
  simp [readString, readUnits_quote, joinUnits_toNat]

/-! ## Values read back -/

mutual

/-- Every object has its items in the order of their keys. -/
def Ordered : Json → Prop
  | null | bool _ | int _ | float _ | nonFinite _ | str _ => True
  | arr items => OrderedItems items
  | obj fields => (fields.map Prod.fst).Pairwise (· < ·) ∧ OrderedFields fields

def OrderedItems : List Json → Prop
  | [] => True
  | j :: rest => Ordered j ∧ OrderedItems rest

def OrderedFields : List (String × Json) → Prop
  | [] => True
  | p :: rest => Ordered p.2 ∧ OrderedFields rest

end

/-- A later key goes to the end. -/
theorem insertField_last {key : String} {value : Json} {fields : List (String × Json)}
    (h : ∀ p ∈ fields, p.1 < key) : insertField key value fields = fields ++ [(key, value)] := by
  induction fields with
  | nil => rfl
  | cons p fields ih =>
    have hlt := h p List.mem_cons_self
    rw [insertField, if_neg (not_lt_of_gt hlt), if_neg (ne_of_gt hlt),
      ih fun q hq => h q (List.mem_cons_of_mem p hq), List.cons_append]

/-- The text of a value is a name or a number, or it begins with a quote or a bracket. -/
theorem dumps_cases (j : Json) :
    (dumps floats.repr j ≠ [] ∧ (∀ ch ∈ dumps floats.repr j, tokenChar ch = true) ∧
      scalar floats (dumps floats.repr j) = some j) ∨
    (∃ s, j = str s) ∨ (∃ items, j = arr items) ∨ ∃ fields, j = obj fields := by
  cases j with
  | null => exact .inl (by simp [dumps, tokenChar, scalar, keyword])
  | bool b => cases b <;> exact .inl (by simp [dumps, tokenChar, scalar, keyword])
  | int n =>
    refine .inl ⟨?_, fun ch h => ?_, ?_⟩ <;> unfold dumps at *
    · cases n with
      | ofNat n => exact Nat.toDigits_ne_nil
      | negSucc n => exact List.cons_ne_nil _ _
    · exact (numberChar_intText h).tokenChar
    · exact scalar_int n
  | float x =>
    refine .inl ⟨?_, fun ch h => ?_, ?_⟩ <;> unfold dumps at *
    · intro hnil
      rcases floats.repr_fraction x with h | h <;> simp [hnil] at h
    · exact numberChar.tokenChar (floats.repr_digits x ch h)
    · exact scalar_float x
  | nonFinite x =>
    cases x <;> exact .inl (by simp [dumps, NonFinite.text, tokenChar, scalar, keyword])
  | str s => exact .inr (.inl ⟨s, rfl⟩)
  | arr items => exact .inr (.inr (.inl ⟨items, rfl⟩))
  | obj fields => exact .inr (.inr (.inr ⟨fields, rfl⟩))

/-- No value begins with a closing bracket. -/
theorem head_dumps (j : Json) (rest : List Char) :
    (skip (dumps floats.repr j ++ rest)).head? ≠ some ']' := by
  rcases @dumps_cases floats j with ⟨hne, htok, -⟩ | ⟨s, rfl⟩ | ⟨items, rfl⟩ | ⟨fields, rfl⟩
  · cases htext : dumps floats.repr j with
    | nil => exact absurd htext hne
    | cons ch text =>
      have hch : tokenChar ch = true := htok ch (by simp [htext])
      rw [List.cons_append, skip_cons (tokenChar_not_space hch).1, List.head?_cons]
      rintro ⟨⟩
      revert hch
      decide
  · simp [dumps, quote, skip_cons (show isSpace '"' = false by decide)]
  · simp [dumps, skip_cons (show isSpace '[' = false by decide)]
  · simp [dumps, skip_cons (show isSpace '{' = false by decide)]

/-- One value of an array and the character behind it. -/
theorem readItems_step {fuel : ℕ} {done : List Json} {j : Json} {text rest : List Char} {ch : Char}
    (h : readValue floats fuel text = some (j, ch :: rest)) (hch : isSpace ch = false) :
    readItems floats (fuel + 1) done text =
      if ch = ',' then readItems floats fuel (done ++ [j]) rest
      else if ch = ']' then some (arr (done ++ [j]), rest)
      else none := by
  rw [readItems, h]
  simp only [skip_cons hch]

/-- One item of an object and the character behind it. -/
theorem readFields_step {fuel : ℕ} {done : List (String × Json)} {key : String} {j : Json}
    {text rest : List Char} {ch : Char}
    (h : readValue floats fuel text = some (j, ch :: rest)) (hch : isSpace ch = false) :
    readFields floats (fuel + 1) done (quote key ++ ':' :: text) =
      if ch = ',' then readFields floats fuel (insertField key j done) rest
      else if ch = '}' then some (obj (insertField key j done), rest)
      else none := by
  have hquote : quote key ++ ':' :: text =
      '"' :: (key.toList.flatMap escape ++ '"' :: ':' :: text) := by
    simp [quote]
  rw [hquote, readFields, skip_cons (show isSpace '"' = false by decide)]
  simp only [↓reduceIte, readString_quote, skip_cons (show isSpace ':' = false by decide), h,
    skip_cons hch]

mutual

theorem readValue_dumps : ∀ (j : Json) (fuel : ℕ) (rest : List Char), Ordered j →
    (dumps floats.repr j).length ≤ fuel → Stops rest →
    readValue floats fuel (dumps floats.repr j ++ rest) = some (j, rest)
  | j, 0, rest, _, hfuel, _ => by
    have hnil : dumps floats.repr j = [] := List.length_eq_zero_iff.mp (by omega)
    rcases @dumps_cases floats j with ⟨hne, -⟩ | ⟨s, rfl⟩ | ⟨items, rfl⟩ | ⟨fields, rfl⟩
    · exact absurd hnil hne
    all_goals simp [dumps, quote] at hnil
  | str s, fuel + 1, rest, _, _, _ => by
    have htext : dumps floats.repr (str s) ++ rest =
        '"' :: (s.toList.flatMap escape ++ '"' :: rest) := by
      simp [dumps, quote]
    rw [htext, readValue, skip_cons (show isSpace '"' = false by decide)]
    simp only [↓reduceIte, readString_quote, Option.map_some]
  | arr [], fuel + 1, rest, _, _, _ => by
    have htext : dumps floats.repr (arr []) ++ rest = '[' :: ']' :: rest := by
      simp [dumps, dumpItems]
    rw [htext, readValue, skip_cons (show isSpace '[' = false by decide)]
    simp [skip_cons (show isSpace ']' = false by decide)]
  | arr (j :: items), fuel + 1, rest, hord, hfuel, _ => by
    have htext : dumps floats.repr (arr (j :: items)) ++ rest =
        '[' :: (dumpItems floats.repr (j :: items) ++ ']' :: rest) := by
      simp [dumps]
    have hhead : (skip (dumpItems floats.repr (j :: items) ++ ']' :: rest)).head? ≠ some ']' := by
      cases items with
      | nil => exact head_dumps j _
      | cons k items =>
        rw [dumpItems.eq_3 _ _ _ (by simp), List.append_assoc]
        exact head_dumps j _
    have hitems := readItems_dumps (j :: items) [] fuel rest (by simp)
      (by simpa [Ordered] using hord) (by simpa [dumps] using hfuel)
    rw [htext, readValue, skip_cons (show isSpace '[' = false by decide)]
    simp only [Char.reduceEq, ↓reduceIte, hhead, hitems, List.nil_append]
  | obj [], fuel + 1, rest, _, _, _ => by
    have htext : dumps floats.repr (obj []) ++ rest = '{' :: '}' :: rest := by
      simp [dumps, dumpFields]
    rw [htext, readValue, skip_cons (show isSpace '{' = false by decide)]
    simp [skip_cons (show isSpace '}' = false by decide)]
  | obj (p :: fields), fuel + 1, rest, hord, hfuel, _ => by
    have htext : dumps floats.repr (obj (p :: fields)) ++ rest =
        '{' :: (dumpFields floats.repr (p :: fields) ++ '}' :: rest) := by
      simp [dumps]
    have hhead : (skip (dumpFields floats.repr (p :: fields) ++ '}' :: rest)).head? ≠ some '}' := by
      have hquote : ∀ text, (skip (quote p.1 ++ text)).head? ≠ some '}' := by
        intro text
        simp [quote, skip_cons (show isSpace '"' = false by decide)]
      cases fields with
      | nil =>
        rw [dumpFields, List.append_assoc]
        exact hquote _
      | cons q fields =>
        rw [dumpFields.eq_3 _ _ _ _ (by simp), List.append_assoc, List.append_assoc]
        exact hquote _
    have hfields := readFields_dumps (p :: fields) [] fuel rest (by simp)
      (by simpa [Ordered] using hord.2) (by simpa [Ordered] using hord.1)
      (by simpa [dumps] using hfuel)
    rw [htext, readValue, skip_cons (show isSpace '{' = false by decide)]
    simp only [Char.reduceEq, ↓reduceIte, hhead, hfields, List.nil_append]
  | null, fuel + 1, rest, _, _, hrest | bool _, fuel + 1, rest, _, _, hrest
  | int _, fuel + 1, rest, _, _, hrest | float _, fuel + 1, rest, _, _, hrest
  | nonFinite _, fuel + 1, rest, _, _, hrest => by
    rcases @dumps_cases floats _ with ⟨hne, htok, hj⟩ | ⟨_, h⟩ | ⟨_, h⟩ | ⟨_, h⟩
    · exact readValue_token fuel htok hrest hj hne
    all_goals cases h

theorem readItems_dumps : ∀ (items : List Json) (done : List Json) (fuel : ℕ) (rest : List Char),
    items ≠ [] → OrderedItems items → (dumpItems floats.repr items).length + 1 ≤ fuel →
    readItems floats fuel done (dumpItems floats.repr items ++ ']' :: rest) =
      some (arr (done ++ items), rest)
  | [], _, _, _, hne, _, _ => absurd rfl hne
  | _ :: _, _, 0, _, _, _, hfuel => by omega
  | [j], done, fuel + 1, rest, _, hord, hfuel => by
    have hj := readValue_dumps j fuel (']' :: rest) hord.1 (by simpa [dumpItems] using hfuel)
      (stops_cons (by decide))
    rw [dumpItems, readItems_step hj (by decide)]
    simp
  | j :: k :: items, done, fuel + 1, rest, _, hord, hfuel => by
    have hlen : (dumps floats.repr j).length + (dumpItems floats.repr (k :: items)).length + 1 ≤
        fuel := by
      rw [dumpItems.eq_3 _ _ _ (by simp)] at hfuel
      simp only [List.length_append, List.length_cons] at hfuel
      omega
    have hj := readValue_dumps j fuel (',' :: (dumpItems floats.repr (k :: items) ++ ']' :: rest))
      hord.1 (by omega) (stops_cons (by decide))
    have hrest := readItems_dumps (k :: items) (done ++ [j]) fuel rest (by simp) hord.2 (by omega)
    rw [dumpItems.eq_3 _ _ _ (by simp), List.append_assoc, List.cons_append,
      readItems_step hj (by decide), if_pos rfl, hrest]
    simp

theorem readFields_dumps : ∀ (fields done : List (String × Json)) (fuel : ℕ) (rest : List Char),
    fields ≠ [] → OrderedFields fields → ((done ++ fields).map Prod.fst).Pairwise (· < ·) →
    (dumpFields floats.repr fields).length + 1 ≤ fuel →
    readFields floats fuel done (dumpFields floats.repr fields ++ '}' :: rest) =
      some (obj (done ++ fields), rest)
  | [], _, _, _, hne, _, _, _ => absurd rfl hne
  | _ :: _, _, 0, _, _, _, _, hfuel => by omega
  | [(key, j)], done, fuel + 1, rest, _, hord, hsorted, hfuel => by
    have hlast : ∀ p ∈ done, p.1 < key := by
      intro p hp
      rw [List.map_append, List.pairwise_append] at hsorted
      exact hsorted.2.2 p.1 (List.mem_map_of_mem hp) key (by simp)
    have hj := readValue_dumps j fuel ('}' :: rest) hord.1
      (by simp only [dumpFields, List.length_append, List.length_cons] at hfuel; omega)
      (stops_cons (by decide))
    rw [dumpFields, List.append_assoc, List.cons_append, readFields_step hj (by decide),
      insertField_last hlast]
    simp
  | (key, j) :: q :: fields, done, fuel + 1, rest, _, hord, hsorted, hfuel => by
    have hlast : ∀ p ∈ done, p.1 < key := by
      intro p hp
      rw [List.map_append, List.pairwise_append] at hsorted
      exact hsorted.2.2 p.1 (List.mem_map_of_mem hp) key (by simp)
    have hlen : (dumps floats.repr j).length +
        (dumpFields floats.repr (q :: fields)).length + 1 ≤ fuel := by
      rw [dumpFields.eq_3 _ _ _ _ (by simp)] at hfuel
      simp only [List.length_append, List.length_cons] at hfuel
      omega
    have hj := readValue_dumps j fuel
      (',' :: (dumpFields floats.repr (q :: fields) ++ '}' :: rest)) hord.1 (by omega)
      (stops_cons (by decide))
    have hrest := readFields_dumps (q :: fields) (done ++ [(key, j)]) fuel rest (by simp) hord.2
      (by simpa using hsorted) (by omega)
    rw [dumpFields.eq_3 _ _ _ _ (by simp), List.append_assoc, List.append_assoc, List.cons_append,
      List.cons_append, readFields_step hj (by decide), if_pos rfl, insertField_last hlast, hrest]
    simp

end

theorem parse_dumps {j : Json} (h : Ordered j) : parse floats (dumps floats.repr j) = some j := by
  have hread := @readValue_dumps floats j _ [] h le_rfl stops_nil
  rw [List.append_nil] at hread
  simp [parse, hread, skip]

theorem loads_dumps {j : Json} (h : Ordered j) :
    loads floats (utf8 (dumps floats.repr j)) = some j := by
  have hdecode : (utf8 (dumps floats.repr j)).toByteArray.utf8Decode? =
      some (dumps floats.repr j).toArray :=
    List.utf8Decode?_utf8Encode
  simp only [loads, hdecode, parse_dumps h]

/-! ## What is read is in order -/

theorem OrderedItems.append {items : List Json} {j : Json} (h : OrderedItems items)
    (hj : Ordered j) : OrderedItems (items ++ [j]) := by
  induction items with
  | nil => exact ⟨hj, trivial⟩
  | cons k items ih => exact ⟨h.1, ih h.2⟩

theorem OrderedItems.map {α : Type} {f : α → Json} {l : List α}
    (h : ∀ x ∈ l, (f x).Ordered) : OrderedItems (l.map f) := by
  induction l with
  | nil => trivial
  | cons x l ih =>
    exact ⟨h x List.mem_cons_self, ih fun y hy => h y (List.mem_cons_of_mem x hy)⟩

theorem finiteItems_map {α : Type} {f : α → Json} {l : List α}
    (h : finiteItems (l.map f) = true) : ∀ x ∈ l, (f x).finite = true := by
  induction l with
  | nil => simp
  | cons x l ih =>
    rw [List.map_cons, finiteItems, Bool.and_eq_true] at h
    exact List.forall_mem_cons.mpr ⟨h.1, ih h.2⟩

theorem OrderedFields.insertField {fields : List (String × Json)} {key : String} {value : Json}
    (h : OrderedFields fields) (hv : Ordered value) :
    OrderedFields (insertField key value fields) := by
  induction fields with
  | nil => exact ⟨hv, trivial⟩
  | cons p fields ih =>
    unfold Json.insertField
    split_ifs
    · exact ⟨hv, h⟩
    · exact ⟨hv, h.2⟩
    · exact ⟨h.1, ih h.2⟩

theorem mem_insertField {fields : List (String × Json)} {key k : String} {value : Json}
    (h : k ∈ (insertField key value fields).map Prod.fst) : k = key ∨ k ∈ fields.map Prod.fst := by
  induction fields with
  | nil => simpa [insertField] using h
  | cons p fields ih =>
    unfold insertField at h
    split_ifs at h
    · simpa using h
    · rcases List.mem_cons.mp h with h | h
      · exact .inl h
      · exact .inr (List.mem_cons_of_mem _ h)
    · rcases List.mem_cons.mp h with h | h
      · exact .inr (by simp [h])
      · exact (ih h).imp_right (List.mem_cons_of_mem _)

theorem insertField_sorted {fields : List (String × Json)} {key : String} {value : Json}
    (h : (fields.map Prod.fst).Pairwise (· < ·)) :
    ((insertField key value fields).map Prod.fst).Pairwise (· < ·) := by
  induction fields with
  | nil => simp [insertField]
  | cons p fields ih =>
    have hp : ∀ k ∈ fields.map Prod.fst, p.1 < k := (List.pairwise_cons.mp h).1
    unfold insertField
    split_ifs with hlt heq
    · refine List.pairwise_cons.mpr ⟨fun k hk => ?_, h⟩
      rcases List.mem_cons.mp hk with rfl | hk
      · exact hlt
      · exact hlt.trans (hp k hk)
    · exact List.pairwise_cons.mpr ⟨fun k hk => heq ▸ hp k hk, (List.pairwise_cons.mp h).2⟩
    · refine List.pairwise_cons.mpr ⟨fun k hk => ?_, ih (List.pairwise_cons.mp h).2⟩
      rcases mem_insertField hk with rfl | hk
      · exact lt_of_le_of_ne (not_lt.mp hlt) (Ne.symm heq)
      · exact hp k hk

theorem scalar_ordered {token : List Char} {j : Json} (h : scalar floats token = some j) :
    Ordered j := by
  unfold scalar keyword at h
  split_ifs at h <;> simp only [Option.some.injEq] at h
  all_goals first
    | exact h ▸ trivial
    | split at h
      · exact Option.some.inj h ▸ trivial
      · obtain ⟨x, -, rfl⟩ := Option.map_eq_some_iff.mp h
        trivial

/-- By induction on the fuel: the three readers keep what they have read in order. -/
theorem read_ordered (fuel : ℕ) :
    (∀ text j rest, readValue floats fuel text = some (j, rest) → Ordered j) ∧
    (∀ done text j rest, readItems floats fuel done text = some (j, rest) →
      OrderedItems done → Ordered j) ∧
    (∀ done text j rest, readFields floats fuel done text = some (j, rest) →
      (done.map Prod.fst).Pairwise (· < ·) → OrderedFields done → Ordered j) := by
  induction fuel with
  | zero => exact ⟨by simp [readValue], by simp [readItems], by simp [readFields]⟩
  | succ fuel ih =>
    obtain ⟨ihv, ihi, ihf⟩ := ih
    refine ⟨?_, ?_, ?_⟩
    · intro text j rest h
      rw [readValue] at h
      split at h
      · cases h
      · split_ifs at h
        · obtain ⟨p, -, hp⟩ := Option.map_eq_some_iff.mp h
          cases hp
          trivial
        · cases h
          trivial
        · exact ihi [] _ j rest h trivial
        · cases h
          exact ⟨List.Pairwise.nil, trivial⟩
        · exact ihf [] _ j rest h List.Pairwise.nil trivial
        · obtain ⟨x, hx, hp⟩ := Option.map_eq_some_iff.mp h
          cases hp
          exact scalar_ordered hx
    · intro done text j rest h hdone
      rw [readItems] at h
      split at h
      · cases h
      · rename_i j' rest' hread
        have hj' := ihv _ _ _ hread
        split at h
        · cases h
        · split_ifs at h
          · exact ihi _ _ j rest h (hdone.append hj')
          · cases h
            exact hdone.append hj'
    · intro done text j rest h hsorted hdone
      rw [readFields] at h
      split at h
      · cases h
      · split at h
        · cases h
        · split at h
          · cases h
          · split at h
            · cases h
            · rename_i j' rest' hread
              split_ifs at hread
              have hj' := ihv _ _ _ hread
              split at h
              · cases h
              · split_ifs at h
                · exact ihf _ _ j rest h (insertField_sorted hsorted) (hdone.insertField hj')
                · cases h
                  exact ⟨insertField_sorted hsorted, hdone.insertField hj'⟩

theorem loads_ordered {bytes : List UInt8} {j : Json} (h : loads floats bytes = some j) :
    Ordered j := by
  unfold loads at h
  split at h
  · cases h
  · unfold parse at h
    split at h
    · cases h
    · rename_i hread
      split_ifs at h
      exact Option.some.inj h ▸ (read_ordered _).1 _ _ _ hread

end Json
