import MegaCache.Lib.JsonLoads

/-!
# JSON text in bytes

`json.loads` of bytes finds out the encoding of its text from the byte order mark or from
the zeros among the first bytes, and reads UTF-8, UTF-16 and UTF-32.  A surrogate alone is no
character of any text.
-/

namespace Json

inductive Encoding
  | utf8
  | utf8Sig
  | utf16
  | utf16be
  | utf16le
  | utf32
  | utf32be
  | utf32le
deriving DecidableEq, Repr

/-- `json.detect_encoding` -/
def detectEncoding (bytes : List UInt8) : Encoding :=
  if [0, 0, 254, 255].isPrefixOf bytes || [255, 254, 0, 0].isPrefixOf bytes then .utf32
  else if [254, 255].isPrefixOf bytes || [255, 254].isPrefixOf bytes then .utf16
  else if [239, 187, 191].isPrefixOf bytes then .utf8Sig
  else
    match bytes with
    | [a, b] => if a = 0 then .utf16be else if b = 0 then .utf16le else .utf8
    | a :: b :: c :: d :: _ =>
      if a = 0 then (if b = 0 then .utf32be else .utf16be)
      else if b = 0 then (if c = 0 ∧ d = 0 then .utf32le else .utf16le)
      else .utf8
    | _ => .utf8

/-- The code units of two bytes. -/
def units16 (bigEndian : Bool) : List UInt8 → Option (List ℕ)
  | [] => some []
  | [_] => none
  | a :: b :: rest =>
    (units16 bigEndian rest).map
      ((if bigEndian then 256 * a.toNat + b.toNat else 256 * b.toNat + a.toNat) :: ·)

/-- The character with this code point. -/
def scalarValue (n : ℕ) : Option Char := if h : n.isValidChar then some (Char.ofNatAux n h) else none

/-- The characters of four bytes each. -/
def chars32 (bigEndian : Bool) : List UInt8 → Option (List Char)
  | [] => some []
  | a :: b :: c :: d :: rest => do
    let digits := if bigEndian then [d, c, b, a] else [a, b, c, d]
    let ch ← scalarValue (Nat.ofDigits 256 (digits.map UInt8.toNat))
    let chars ← chars32 bigEndian rest
    some (ch :: chars)
  | _ => none

/-- `bytes.decode(encoding)`; the codecs that need a byte order mark take it away. -/
def Encoding.decode (bytes : List UInt8) : Encoding → Option (List Char)
  | utf8 => decodeUtf8 bytes
  | utf8Sig => decodeUtf8 (bytes.drop 3)
  | utf16 => (units16 (bytes.head? = some 254) (bytes.drop 2)).bind joinUnits
  | utf16be => (units16 true bytes).bind joinUnits
  | utf16le => (units16 false bytes).bind joinUnits
  | utf32 => chars32 (bytes.head? = some 0) (bytes.drop 4)
  | utf32be => chars32 true bytes
  | utf32le => chars32 false bytes

/-- `json.loads` of bytes. -/
def loadsBytes (floats : FloatText) (bytes : List UInt8) : Option Json :=
  ((detectEncoding bytes).decode bytes).bind (parse floats)

/-- Two characters of ASCII at the beginning say that the text is UTF-8. -/
theorem detectEncoding_ascii {a b : UInt8} (ha : 0 < a ∧ a < 128) (hb : 0 < b ∧ b < 128)
    (rest : List UInt8) : detectEncoding (a :: b :: rest) = .utf8 := by
  have hmark {x : UInt8} (hx : 128 ≤ x) : ¬x = a := fun h =>
    absurd ha.2 (UInt8.not_lt.mpr (h ▸ hx))
  have hzero : ¬a = 0 := (UInt8.ne_of_lt ha.1).symm
  have hzero' : ¬b = 0 := (UInt8.ne_of_lt hb.1).symm
  have h₁ : ([0, 0, 254, 255] : List UInt8).isPrefixOf (a :: b :: rest) = false := by
    simp [List.isPrefixOf, Ne.symm hzero]
  have h₂ : ([255, 254, 0, 0] : List UInt8).isPrefixOf (a :: b :: rest) = false := by
    simp [List.isPrefixOf, hmark (x := 255) (by decide)]
  have h₃ : ([254, 255] : List UInt8).isPrefixOf (a :: b :: rest) = false := by
    simp [List.isPrefixOf, hmark (x := 254) (by decide)]
  have h₄ : ([255, 254] : List UInt8).isPrefixOf (a :: b :: rest) = false := by
    simp [List.isPrefixOf, hmark (x := 255) (by decide)]
  have h₅ : ([239, 187, 191] : List UInt8).isPrefixOf (a :: b :: rest) = false := by
    simp [List.isPrefixOf, hmark (x := 239) (by decide)]
  unfold detectEncoding
  rw [h₁, h₂, h₃, h₄, h₅]
  match rest with
  | [] => simp [hzero, hzero']
  | [_] => simp
  | _ :: _ :: _ => simp [hzero, hzero']

/-- A value followed by white space is read as the value. -/
theorem parse_dumps_space {floats : FloatText} {j : Json} (h : Ordered j) {space : List Char}
    (hspace : ∀ ch ∈ space, isSpace ch = true) :
    parse floats (dumps floats.repr j ++ space) = some j := by
  have hstops : Stops space := by
    intro ch hch
    have hmem := hspace ch (List.mem_of_mem_head? hch)
    cases htoken : tokenChar ch with
    | false => rfl
    | true => exact absurd hmem (by simp [tokenChar_not_space htoken])
  have hread := @readValue_dumps floats j (dumps floats.repr j ++ space).length space h
    (by simp) hstops
  have hskip : skip space = [] := by
    rw [skip, List.dropWhile_eq_nil_iff]
    exact hspace
  rw [parse, hread]
  exact if_pos hskip

/-- An object followed by white space is read as the object. -/
theorem loadsBytes_space {floats : FloatText} {fields : List (String × Json)}
    (h : Ordered (.obj fields)) (hne : fields ≠ []) {space : List Char}
    (hspace : ∀ ch ∈ space, isSpace ch = true) :
    loadsBytes floats (utf8 (dumps floats.repr (.obj fields) ++ space)) = some (.obj fields) := by
  have hascii : detectEncoding (utf8 (dumps floats.repr (.obj fields) ++ space)) = .utf8 := by
    obtain ⟨rest, hrest⟩ : ∃ rest, dumps floats.repr (.obj fields) = '{' :: '"' :: rest := by
      cases fields with
      | nil => exact absurd rfl hne
      | cons p fields =>
        cases fields with
        | nil => exact ⟨_, by simp [dumps, dumpFields, quote]; rfl⟩
        | cons q fields => exact ⟨_, by simp [dumps, dumpFields, quote]; rfl⟩
    rw [hrest]
    exact detectEncoding_ascii (by decide) (by decide) _
  rw [loadsBytes, hascii, Encoding.decode, decodeUtf8_utf8, Option.bind_some]
  exact parse_dumps_space h hspace

/-- An object written on a line of its own is read as the object. -/
theorem loadsBytes_line {floats : FloatText} {fields : List (String × Json)}
    (h : Ordered (.obj fields)) (hne : fields ≠ []) :
    loadsBytes floats (utf8 (dumps floats.repr (.obj fields)) ++ [10]) = some (.obj fields) := by
  have hline : utf8 (dumps floats.repr (.obj fields)) ++ [10] =
      utf8 (dumps floats.repr (.obj fields) ++ ['\n']) := by
    rw [utf8, utf8, List.flatMap_append]
    rfl
  rw [hline]
  exact loadsBytes_space h hne (by simp [isSpace])

/-- The end of the line may be missing. -/
theorem loadsBytes_dumps {floats : FloatText} {fields : List (String × Json)}
    (h : Ordered (.obj fields)) (hne : fields ≠ []) :
    loadsBytes floats (utf8 (dumps floats.repr (.obj fields))) = some (.obj fields) := by
  have hspace := @loadsBytes_space floats fields h hne [] (by simp)
  rwa [List.append_nil] at hspace

end Json
