import MegaCache.Lib.JsonLoads

/-!
# Percent encoding

`urllib.parse.unquote`: the escapes of a text are bytes, and the bytes of every run of ASCII
characters are decoded as UTF-8.  A text may be quoted in many ways, as a quoter is free to
escape a character or to leave it; each of them is decoded to the text.
-/

namespace Percent

open Json (hexValue)

def isAscii (ch : Char) : Bool := ch.toNat < 128

/-- `unquote_to_bytes`: a `%` without two digits behind it stands for itself. -/
def unquoteToBytes : List Char → List UInt8
  | [] => []
  | '%' :: a :: b :: rest =>
    match hexValue a, hexValue b with
    | some x, some y => UInt8.ofNat (16 * x + y) :: unquoteToBytes rest
    | _, _ => 37 :: unquoteToBytes (a :: b :: rest)
  | ch :: rest => UInt8.ofNat ch.toNat :: unquoteToBytes rest

/-! ## Decoding with replacement -/

/-- The bytes that are still to come in a character, as ranges, and the bits so far. -/
structure Pending where
  ranges : List (ℕ × ℕ)
  value : ℕ

/-- The character for bytes that are no UTF-8. -/
def replacement : Char := Char.ofNat 65533

/-- What a byte at the beginning of a character gives. -/
def first (b : UInt8) : List Char × Option Pending :=
  let n := b.toNat
  let tail : ℕ × ℕ := (128, 191)
  if n < 128 then ([Char.ofNat n], none)
  else if 194 ≤ n ∧ n ≤ 223 then ([], some ⟨[tail], n - 192⟩)
  else if n = 224 then ([], some ⟨[(160, 191), tail], 0⟩)
  else if n = 237 then ([], some ⟨[(128, 159), tail], 13⟩)
  else if 225 ≤ n ∧ n ≤ 239 then ([], some ⟨[tail, tail], n - 224⟩)
  else if n = 240 then ([], some ⟨[(144, 191), tail, tail], 0⟩)
  else if 241 ≤ n ∧ n ≤ 243 then ([], some ⟨[tail, tail, tail], n - 240⟩)
  else if n = 244 then ([], some ⟨[(128, 143), tail, tail], 4⟩)
  else ([replacement], none)

/-- One byte.  A byte that does not go on with the character begins the next one. -/
def next (st : Option Pending) (b : UInt8) : List Char × Option Pending :=
  match st with
  | none | some ⟨[], _⟩ => first b
  | some ⟨range :: ranges, value⟩ =>
    if range.1 ≤ b.toNat ∧ b.toNat ≤ range.2 then
      let value := 64 * value + b.toNat % 64
      if ranges = [] then ([Char.ofNat value], none) else ([], some ⟨ranges, value⟩)
    else (replacement :: (first b).1, (first b).2)

def replaceFrom : Option Pending → List UInt8 → List Char
  | none, [] => []
  | some _, [] => [replacement]
  | st, b :: rest => (next st b).1 ++ replaceFrom (next st b).2 rest

example : replaceFrom none [240, 159, 32, 255] = [replacement, ' ', replacement] := by decide

/-- `bytes.decode("utf-8", "replace")`. -/
def decodeReplace (bytes : List UInt8) : List Char :=
  (Json.decodeUtf8 bytes).getD (replaceFrom none bytes)

theorem decodeReplace_utf8 (text : List Char) : decodeReplace (Json.utf8 text) = text := by
  rw [decodeReplace, Json.decodeUtf8_utf8, Option.getD_some]

/-- `unquote`. -/
def unquote (text : List Char) : List Char :=
  (text.splitBy fun a b => isAscii a = isAscii b).flatMap fun run =>
    if run.all isAscii then decodeReplace (unquoteToBytes run) else run

/-! ## Quoted texts -/

/-- The characters that may stand for themselves in the path of a URL. -/
def isPlain (ch : Char) : Bool :=
  32 < ch.toNat && ch.toNat < 127 && ch ≠ '%' && ch ≠ '?' && ch ≠ '#'

/-- A text that quotes bytes: digits of either case, or a character for itself. -/
inductive Quotes : List UInt8 → List Char → Prop
  | nil : Quotes [] []
  | escaped {b : UInt8} {x y : Char} {bytes : List UInt8} {text : List Char}
      (hx : hexValue x = some (b.toNat / 16)) (hy : hexValue y = some (b.toNat % 16))
      (h : Quotes bytes text) : Quotes (b :: bytes) ('%' :: x :: y :: text)
  | plain {ch : Char} {bytes : List UInt8} {text : List Char} (hch : isPlain ch = true)
      (h : Quotes bytes text) : Quotes (UInt8.ofNat ch.toNat :: bytes) (ch :: text)

/-- Every byte as an escape. -/
def quoteAll (bytes : List UInt8) : List Char :=
  bytes.flatMap fun b => ['%', Json.hexDigit (b.toNat / 16), Json.hexDigit (b.toNat % 16)]

theorem quotes_quoteAll (bytes : List UInt8) : Quotes bytes (quoteAll bytes) := by
  induction bytes with
  | nil => exact .nil
  | cons b bytes ih =>
    have hb : b.toNat < 256 := UInt8.toNat_lt_size b
    exact .escaped (Json.hexValue_hexDigit _ (by omega)) (Json.hexValue_hexDigit _ (by omega)) ih

theorem unquoteToBytes_cons {ch : Char} (h : ch ≠ '%') (rest : List Char) :
    unquoteToBytes (ch :: rest) = UInt8.ofNat ch.toNat :: unquoteToBytes rest := by
  rw [unquoteToBytes]
  intro a b rest' hch
  exact absurd hch h

theorem isPlain_iff {ch : Char} : isPlain ch = true ↔
    32 < ch.toNat ∧ ch.toNat < 127 ∧ ch ≠ '%' ∧ ch ≠ '?' ∧ ch ≠ '#' := by
  simp [isPlain, and_assoc]

theorem Quotes.unquoteToBytes {bytes : List UInt8} {text : List Char} (h : Quotes bytes text) :
    unquoteToBytes text = bytes := by
  induction h with
  | nil => rfl
  | @escaped b x y bytes text hx hy _ ih =>
    have hsum : 16 * (b.toNat / 16) + b.toNat % 16 = b.toNat := Nat.div_add_mod _ _
    simp [Percent.unquoteToBytes, hx, hy, ih, hsum]
  | plain hch _ ih =>
    rw [unquoteToBytes_cons (isPlain_iff.mp hch).2.2.1, ih]

theorem hexValue_ascii {ch : Char} {d : ℕ} (h : hexValue ch = some d) :
    isAscii ch = true ∧ ch ≠ '?' ∧ ch ≠ '#' := by
  have hne : ∀ c, c = '?' ∨ c = '#' → hexValue c = none := by
    rintro c (rfl | rfl) <;> decide
  refine ⟨?_, fun hc => by simp [hne ch (.inl hc)] at h, fun hc => by simp [hne ch (.inr hc)] at h⟩
  unfold Json.hexValue at h
  rw [isAscii, decide_eq_true_eq]
  split_ifs at h with h₁ h₂ h₃
  · simp only [Char.isDigit, Bool.and_eq_true, decide_eq_true_eq, UInt32.le_iff_toNat_le] at h₁
    have hbounds : 48 ≤ ch.toNat ∧ ch.toNat ≤ 57 := h₁
    omega
  · have hbounds : 97 ≤ ch.toNat ∧ ch.toNat ≤ 102 := h₂
    omega
  · have hbounds : 65 ≤ ch.toNat ∧ ch.toNat ≤ 70 := h₃
    omega

/-- A quoted text is in ASCII and does not end the path of a URL. -/
theorem Quotes.chars {bytes : List UInt8} {text : List Char} (h : Quotes bytes text) :
    ∀ ch ∈ text, isAscii ch = true ∧ ch ≠ '?' ∧ ch ≠ '#' := by
  induction h with
  | nil => simp
  | escaped hx hy _ ih =>
    simp only [List.forall_mem_cons]
    exact ⟨by decide, hexValue_ascii hx, hexValue_ascii hy, ih⟩
  | plain hch _ ih =>
    obtain ⟨-, hlt, -, hquery, hfragment⟩ := isPlain_iff.mp hch
    refine List.forall_mem_cons.mpr ⟨⟨?_, hquery, hfragment⟩, ih⟩
    rw [isAscii, decide_eq_true_eq]
    omega

/-- A text in ASCII is one run. -/
theorem unquote_ascii {text : List Char} (h : ∀ ch ∈ text, isAscii ch = true) :
    unquote text = decodeReplace (unquoteToBytes text) := by
  have hall : text.all isAscii = true := List.all_eq_true.mpr h
  cases text with
  | nil => exact (decodeReplace_utf8 []).symm
  | cons ch rest =>
    have hchain : (ch :: rest).IsChain fun a b => decide (isAscii a = isAscii b) = true := by
      refine List.Pairwise.isChain (List.pairwise_of_forall_mem_list fun a ha b hb => ?_)
      rw [h a ha, h b hb, decide_eq_true_eq]
    rw [unquote, List.splitBy_of_isChain (by simp) hchain, List.flatMap_cons, if_pos hall]
    simp

theorem Quotes.unquote {text : List Char} {quoted : List Char} (h : Quotes (Json.utf8 text) quoted) :
    unquote quoted = text := by
  rw [unquote_ascii fun ch hch => (h.chars ch hch).1, h.unquoteToBytes, decodeReplace_utf8]

end Percent
