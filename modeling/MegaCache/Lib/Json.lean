import Mathlib.Tactic

/-!
# JSON text

JSON values and their text as `json.dumps` writes it with the separators `,` and
`:`, without escapes for text beyond ASCII and with the keys of every object in
order.  Two objects with the same items are equal whatever the order of the items,
so an object is represented by its items in the order of their keys.  Numbers with
a fractional part are written by a function `repr`.  The text of a value has no
control characters, hence neither has its UTF-8 form.
-/

/-- The floating point values that are no numbers of JSON. -/
inductive Json.NonFinite
  | nan
  | infinity
  | minusInfinity
deriving DecidableEq, Repr

inductive Json
  | null
  | bool (b : Bool)
  | int (n : ℤ)
  | float (x : ℚ)
  | nonFinite (x : Json.NonFinite)
  | str (s : String)
  | arr (items : List Json)
  | obj (fields : List (String × Json))

namespace Json

/-- The item of an object under a key. -/
def get? (key : String) : Json → Option Json
  | obj fields => fields.lookup key
  | _ => none

def hexDigit (n : ℕ) : Char := if n < 10 then Char.ofNat (48 + n) else Char.ofNat (87 + n)

/-- The characters that stand for one character of a text. -/
def escape (ch : Char) : List Char :=
  if ch = '"' then ['\\', '"']
  else if ch = '\\' then ['\\', '\\']
  else if ch = '\n' then ['\\', 'n']
  else if ch = '\r' then ['\\', 'r']
  else if ch = '\t' then ['\\', 't']
  else if ch.toNat = 12 then ['\\', 'f']
  else if ch.toNat = 8 then ['\\', 'b']
  else if ch.toNat < 32 then ['\\', 'u', '0', '0', hexDigit (ch.toNat / 16), hexDigit (ch.toNat % 16)]
  else [ch]

def quote (s : String) : List Char := '"' :: s.toList.flatMap escape ++ ['"']

/-- The decimal text of an integer. -/
def intText : ℤ → List Char
  | .ofNat n => Nat.toDigits 10 n
  | .negSucc n => '-' :: Nat.toDigits 10 (n + 1)

/-- What `json.dumps` writes for a number that is not finite, unless it is forbidden to. -/
def NonFinite.text : NonFinite → List Char
  | nan => ['N', 'a', 'N']
  | infinity => ['I', 'n', 'f', 'i', 'n', 'i', 't', 'y']
  | minusInfinity => ['-', 'I', 'n', 'f', 'i', 'n', 'i', 't', 'y']

mutual

def dumps (repr : ℚ → List Char) : Json → List Char
  | null => ['n', 'u', 'l', 'l']
  | bool true => ['t', 'r', 'u', 'e']
  | bool false => ['f', 'a', 'l', 's', 'e']
  | int n => intText n
  | float x => repr x
  | nonFinite x => x.text
  | str s => quote s
  | arr items => '[' :: dumpItems repr items ++ [']']
  | obj fields => '{' :: dumpFields repr fields ++ ['}']

def dumpItems (repr : ℚ → List Char) : List Json → List Char
  | [] => []
  | [j] => dumps repr j
  | j :: rest => dumps repr j ++ ',' :: dumpItems repr rest

def dumpFields (repr : ℚ → List Char) : List (String × Json) → List Char
  | [] => []
  | [(key, j)] => quote key ++ ':' :: dumps repr j
  | (key, j) :: rest => quote key ++ ':' :: dumps repr j ++ ',' :: dumpFields repr rest

end

mutual

/-- Whether `json.dumps` writes a value that is not to have such numbers (`allow_nan=False`). -/
def finite : Json → Bool
  | nonFinite _ => false
  | arr items => finiteItems items
  | obj fields => finiteFields fields
  | null | bool _ | int _ | float _ | str _ => true

def finiteItems : List Json → Bool
  | [] => true
  | j :: rest => finite j && finiteItems rest

def finiteFields : List (String × Json) → Bool
  | [] => true
  | p :: rest => finite p.2 && finiteFields rest

end

/-- No control characters. -/
def Plain (text : List Char) : Prop := ∀ ch ∈ text, 32 ≤ ch.toNat

theorem plain_nil : Plain [] := by simp [Plain]

theorem plain_cons {ch : Char} {text : List Char} (hch : 32 ≤ ch.toNat) (h : Plain text) :
    Plain (ch :: text) := by
  simpa [Plain, hch] using h

theorem Plain.append {a b : List Char} (ha : Plain a) (hb : Plain b) : Plain (a ++ b) := by
  intro ch hch
  exact (List.mem_append.mp hch).elim (ha ch) (hb ch)

theorem plain_hexDigit : ∀ n < 16, 32 ≤ (hexDigit n).toNat := by decide

theorem plain_escape (ch : Char) : Plain (escape ch) := by
  have hpair : ∀ a ∈ ['"', '\\', 'n', 'r', 't', 'f', 'b'], Plain ['\\', a] := by
    simp [Plain]
  unfold escape
  split_ifs with h₁ h₂ h₃ h₄ h₅ h₆ h₇ h₈
  · exact hpair _ (by decide)
  · exact hpair _ (by decide)
  · exact hpair _ (by decide)
  · exact hpair _ (by decide)
  · exact hpair _ (by decide)
  · exact hpair _ (by decide)
  · exact hpair _ (by decide)
  · have hhi := plain_hexDigit (ch.toNat / 16) (by omega)
    have hlo := plain_hexDigit (ch.toNat % 16) (by omega)
    exact plain_cons (by decide) (plain_cons (by decide) (plain_cons (by decide)
      (plain_cons (by decide) (plain_cons hhi (plain_cons hlo plain_nil)))))
  · exact plain_cons (by omega) plain_nil

theorem plain_quote (s : String) : Plain (quote s) := by
  refine plain_cons (by decide) (Plain.append ?_ (plain_cons (by decide) plain_nil))
  intro ch hch
  obtain ⟨a, -, ha⟩ := List.mem_flatMap.mp hch
  exact plain_escape a ch ha

theorem plain_toDigits (n : ℕ) : Plain (Nat.toDigits 10 n) := by
  intro ch hch
  have hdigit := Nat.isDigit_of_mem_toDigits (by decide) (by decide) hch
  simp only [Char.isDigit, Bool.and_eq_true, decide_eq_true_eq] at hdigit
  have h48 : (48 : ℕ) ≤ ch.toNat := by
    simpa [UInt32.le_iff_toNat_le] using hdigit.1
  omega

theorem plain_intText (n : ℤ) : Plain (intText n) := by
  cases n with
  | ofNat n => exact plain_toDigits n
  | negSucc n => exact plain_cons (by decide) (plain_toDigits _)

section

variable {repr : ℚ → List Char}

mutual

theorem plain_dumps (hrepr : ∀ x, Plain (repr x)) : ∀ j, Plain (dumps repr j)
  | null => by simp [dumps, Plain]
  | bool true => by simp [dumps, Plain]
  | bool false => by simp [dumps, Plain]
  | int n => by unfold dumps; exact plain_intText n
  | float x => by unfold dumps; exact hrepr x
  | nonFinite x => by cases x <;> simp [dumps, NonFinite.text, Plain]
  | str s => by unfold dumps; exact plain_quote s
  | arr items => by
    unfold dumps
    exact plain_cons (by decide) ((plain_dumpItems hrepr items).append (plain_cons (by decide) plain_nil))
  | obj fields => by
    unfold dumps
    exact plain_cons (by decide) ((plain_dumpFields hrepr fields).append (plain_cons (by decide) plain_nil))

theorem plain_dumpItems (hrepr : ∀ x, Plain (repr x)) : ∀ items, Plain (dumpItems repr items)
  | [] => by unfold dumpItems; exact plain_nil
  | [j] => by unfold dumpItems; exact plain_dumps hrepr j
  | j :: k :: rest => by
    unfold dumpItems
    exact (plain_dumps hrepr j).append (plain_cons (by decide) (plain_dumpItems hrepr (k :: rest)))

theorem plain_dumpFields (hrepr : ∀ x, Plain (repr x)) :
    ∀ fields, Plain (dumpFields repr fields)
  | [] => by unfold dumpFields; exact plain_nil
  | [(key, j)] => by
    unfold dumpFields
    exact (plain_quote key).append (plain_cons (by decide) (plain_dumps hrepr j))
  | (key, j) :: field :: rest => by
    unfold dumpFields
    exact ((plain_quote key).append (plain_cons (by decide) (plain_dumps hrepr j))).append
      (plain_cons (by decide) (plain_dumpFields hrepr (field :: rest)))

end

end

/-- `text.encode("utf-8")`. -/
def utf8 (text : List Char) : List UInt8 := text.flatMap String.utf8EncodeChar

/-- `bytes.decode("utf-8")`. -/
def decodeUtf8 (bytes : List UInt8) : Option (List Char) :=
  bytes.toByteArray.utf8Decode?.map Array.toList

theorem decodeUtf8_utf8 (text : List Char) : decodeUtf8 (utf8 text) = some text := by
  have hdecode : (utf8 text).toByteArray.utf8Decode? = some text.toArray :=
    List.utf8Decode?_utf8Encode
  rw [decodeUtf8, hdecode]
  rfl

theorem utf8_of_decodeUtf8 {bytes : List UInt8} {text : List Char}
    (h : decodeUtf8 bytes = some text) : utf8 text = bytes := by
  obtain ⟨chars, hchars, rfl⟩ := Option.map_eq_some_iff.mp h
  have hsome : bytes.toByteArray.utf8Decode?.isSome = true := by rw [hchars]; rfl
  have hencode : (bytes.toByteArray.utf8Decode?.get hsome).toList.utf8Encode = bytes.toByteArray :=
    ByteArray.utf8Encode_get_utf8Decode?
  have hget : bytes.toByteArray.utf8Decode?.get hsome = chars := by
    simp only [hchars, Option.get_some]
  rw [hget] at hencode
  have hlists := congrArg (fun b : ByteArray => b.data.toList) hencode
  simpa [List.utf8Encode, utf8] using hlists

theorem utf8_injective : Function.Injective utf8 := by
  intro a b h
  have ha := decodeUtf8_utf8 a
  rw [h, decodeUtf8_utf8 b] at ha
  exact (Option.some.inj ha).symm

theorem utf8EncodeChar_ascii {ch : Char} (h : ch.toNat < 128) :
    String.utf8EncodeChar ch = [UInt8.ofNat ch.toNat] := by
  fun_cases String.utf8EncodeChar with
  | case1 v hv => rfl
  | case2 v hv => exact absurd (show v ≤ 127 from Nat.le_of_lt_succ h) hv
  | case3 v hv => exact absurd (show v ≤ 127 from Nat.le_of_lt_succ h) hv
  | case4 v hv => exact absurd (show v ≤ 127 from Nat.le_of_lt_succ h) hv

/-- Bytes below 128 come from the characters with these numbers. -/
theorem utf8EncodeChar_small {ch : Char} {b : UInt8} (hb : b ∈ String.utf8EncodeChar ch)
    (hsmall : b.toNat < 128) : ch.toNat = b.toNat := by
  -- the bytes of a longer form all have their highest bit set
  have hhigh : ∀ n, 128 ≤ n → n < 256 → b ≠ UInt8.ofNat n := by
    rintro n h₁ h₂ rfl
    rw [UInt8.toNat_ofNat'] at hsmall
    omega
  revert hb
  fun_cases String.utf8EncodeChar with
  | case1 v hv =>
    intro hb
    rw [List.mem_singleton.mp hb, UInt8.toNat_ofNat']
    show v = v % 256
    omega
  | case2 v =>
    simp only [List.mem_cons, List.not_mem_nil, or_false]
    rintro (h | h) <;> exact absurd h (hhigh _ (by omega) (by omega))
  | case3 v =>
    simp only [List.mem_cons, List.not_mem_nil, or_false]
    rintro (h | h | h) <;> exact absurd h (hhigh _ (by omega) (by omega))
  | case4 v =>
    simp only [List.mem_cons, List.not_mem_nil, or_false]
    rintro (h | h | h | h) <;> exact absurd h (hhigh _ (by omega) (by omega))

/-- The UTF-8 form of a text without control characters has no byte below 32. -/
theorem Plain.notMem_utf8 {text : List Char} (h : Plain text) {b : UInt8} (hb : b.toNat < 32) :
    b ∉ utf8 text := by
  intro hmem
  obtain ⟨ch, hch, hb'⟩ := List.mem_flatMap.mp hmem
  have := utf8EncodeChar_small hb' (by omega)
  have := h ch hch
  omega

theorem Plain.utf8 {text : List Char} (h : Plain text) : 10 ∉ utf8 text ∧ 13 ∉ utf8 text :=
  ⟨h.notMem_utf8 (by decide), h.notMem_utf8 (by decide)⟩

end Json
