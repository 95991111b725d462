import MegaCache.Lib.Percent

/-!
# Quoting

`urllib.parse.quote`, and what it and `unquote` do to small characters: each is decoded from its own
byte only, so a text can be searched for them behind its escapes.
-/

namespace Percent

open Json (hexValue)

/-! ## Small characters -/

/-- `unquote_to_bytes` of a text. -/
def escapedBytes : List Char → List UInt8
  | [] => []
  | '%' :: a :: b :: rest =>
    match hexValue a, hexValue b with
    | some x, some y => UInt8.ofNat (16 * x + y) :: escapedBytes rest
    | _, _ => 37 :: escapedBytes (a :: b :: rest)
  | ch :: rest => String.utf8EncodeChar ch ++ escapedBytes rest

/-- A text that begins with two digits. -/
def Digits (text : List Char) : Prop :=
  ∃ a b rest, text = a :: b :: rest ∧ (hexValue a).isSome = true ∧ (hexValue b).isSome = true

theorem escapedBytes_percent {rest : List Char} (h : ¬Digits rest) :
    escapedBytes ('%' :: rest) = 37 :: escapedBytes rest := by
  match rest with
  | [] => rfl
  | [a] => rfl
  | a :: b :: rest =>
    rw [escapedBytes]
    cases ha : hexValue a with
    | none => rfl
    | some x =>
      cases hb : hexValue b with
      | none => rfl
      | some y => exact absurd ⟨a, b, rest, rfl, by simp [ha], by simp [hb]⟩ h

theorem escapedBytes_cons {ch : Char} (h : ch ≠ '%') (rest : List Char) :
    escapedBytes (ch :: rest) = String.utf8EncodeChar ch ++ escapedBytes rest := by
  rw [escapedBytes]
  intro a b rest' hch
  exact absurd hch h

theorem not_digits_append {text rest : List Char} (h : ¬Digits text)
    (hrest : ∀ ch ∈ rest.head?, hexValue ch = none) : ¬Digits (text ++ rest) := by
  rintro ⟨a, b, tail, heq, ha, hb⟩
  match text with
  | [] =>
    cases rest with
    | nil => cases heq
    | cons ch rest =>
      obtain ⟨rfl, -⟩ := List.cons.inj heq
      rw [hrest ch rfl] at ha
      cases ha
  | [x] =>
    obtain ⟨rfl, htail⟩ := List.cons.inj heq
    cases rest with
    | nil => cases htail
    | cons ch rest =>
      obtain ⟨rfl, -⟩ := List.cons.inj htail
      rw [hrest ch rfl] at hb
      cases hb
  | x :: y :: text =>
    obtain ⟨rfl, htail⟩ := List.cons.inj heq
    obtain ⟨rfl, -⟩ := List.cons.inj htail
    exact h ⟨x, y, text, rfl, ha, hb⟩

/-- The escapes of a run of ASCII characters end with the run. -/
theorem escapedBytes_ascii {run rest : List Char} (hrun : ∀ ch ∈ run, isAscii ch = true)
    (hrest : ∀ ch ∈ rest.head?, hexValue ch = none) :
    escapedBytes (run ++ rest) = unquoteToBytes run ++ escapedBytes rest := by
  fun_induction unquoteToBytes run with
  | case1 => rfl
  | case2 a b run x y ha hb ih =>
    rw [List.cons_append, List.cons_append, List.cons_append, escapedBytes, ha, hb]
    dsimp only
    rw [ih fun ch hch => hrun ch (by simp [hch])]
    rfl
  | case3 a b run hno ih =>
    have hdigits : ¬Digits (a :: b :: run ++ rest) := by
      rintro ⟨a', b', tail, heq, ha, hb⟩
      obtain ⟨rfl, htail⟩ := List.cons.inj heq
      obtain ⟨rfl, -⟩ := List.cons.inj htail
      obtain ⟨x, hx⟩ := Option.isSome_iff_exists.mp ha
      obtain ⟨y, hy⟩ := Option.isSome_iff_exists.mp hb
      exact hno x y hx hy
    rw [List.cons_append, escapedBytes_percent hdigits, ih fun ch hch => hrun ch (by simp at hch ⊢; tauto)]
    rfl
  | case4 ch run hno ih =>
    have hch := hrun ch List.mem_cons_self
    have hih := ih fun ch' h => hrun ch' (List.mem_cons_of_mem _ h)
    by_cases hpercent : ch = '%'
    · subst hpercent
      have hdigits : ¬Digits run := by
        rintro ⟨a, b, tail, rfl, -, -⟩
        exact hno a b tail rfl rfl
      rw [List.cons_append, escapedBytes_percent (not_digits_append hdigits hrest), hih]
      rfl
    · rw [List.cons_append, escapedBytes_cons hpercent, hih,
        Json.utf8EncodeChar_ascii (by simpa [isAscii] using hch)]
      rfl

theorem escapedBytes_other {run rest : List Char} (hrun : ∀ ch ∈ run, isAscii ch = false) :
    escapedBytes (run ++ rest) = Json.utf8 run ++ escapedBytes rest := by
  induction run with
  | nil => rfl
  | cons ch run ih =>
    have hne : ch ≠ '%' := by
      rintro rfl
      exact absurd (hrun '%' List.mem_cons_self) (by decide)
    have hutf8 : Json.utf8 (ch :: run) = String.utf8EncodeChar ch ++ Json.utf8 run := rfl
    rw [List.cons_append, escapedBytes_cons hne, ih fun ch' h => hrun ch' (List.mem_cons_of_mem _ h),
      hutf8, List.append_assoc]

/-- The bytes that are still to come give a character beyond ASCII. -/
def Beyond : List (ℕ × ℕ) → ℕ → Prop
  | [], n => 128 ≤ n ∧ n.isValidChar
  | range :: ranges, n => 128 ≤ range.1 ∧
      ∀ b, range.1 ≤ b → b ≤ range.2 → Beyond ranges (64 * n + b % 64)

theorem beyond_one {n : ℕ} (h : 2 ≤ n) (h' : n ≤ 31) : Beyond [(128, 191)] n := by
  refine ⟨le_rfl, fun b _ _ => ?_⟩
  simp only [Beyond, Nat.isValidChar]
  omega

theorem beyond_two {low high n : ℕ} (hlow : 128 ≤ low) (hhigh : high ≤ 191)
    (h : 1 ≤ n ∨ 160 ≤ low) (h' : n ≤ 15) (hn : n ≠ 13 ∨ high ≤ 159) :
    Beyond [(low, high), (128, 191)] n := by
  refine ⟨hlow, fun b hb hb' => ⟨le_rfl, fun b₁ _ _ => ?_⟩⟩
  simp only [Beyond, Nat.isValidChar]
  omega

theorem beyond_three {low high n : ℕ} (hlow : 128 ≤ low) (hhigh : high ≤ 191)
    (h : 1 ≤ n ∨ 144 ≤ low) (h' : n ≤ 4) (hn : n ≠ 4 ∨ high ≤ 143) :
    Beyond [(low, high), (128, 191), (128, 191)] n := by
  refine ⟨hlow, fun b hb hb' => ⟨le_rfl, fun b₁ _ _ => ⟨le_rfl, fun b₂ _ _ => ?_⟩⟩⟩
  simp only [Beyond, Nat.isValidChar]
  omega

theorem beyond_first {b : UInt8} {p : Pending} (h : (first b).2 = some p) :
    p.ranges ≠ [] ∧ Beyond p.ranges p.value ∧ 128 ≤ b.toNat ∧ (first b).1 = [] := by
  unfold first at h ⊢
  dsimp only at h ⊢
  split_ifs at h ⊢ <;> obtain rfl := Option.some.inj h <;> refine ⟨by simp, ?_, by omega, rfl⟩ <;>
    dsimp only
  · exact beyond_one (by omega) (by omega)
  · exact beyond_two (by omega) (by omega) (by omega) (by omega) (by omega)
  · exact beyond_two (by omega) (by omega) (by omega) (by omega) (by omega)
  · exact beyond_two (by omega) (by omega) (by omega) (by omega) (by omega)
  · exact beyond_three (by omega) (by omega) (by omega) (by omega) (by omega)
  · exact beyond_three (by omega) (by omega) (by omega) (by omega) (by omega)
  · exact beyond_three (by omega) (by omega) (by omega) (by omega) (by omega)

/-- A byte at the beginning of a character is a small character, or none comes of it alone. -/
theorem first_cases (b : UInt8) :
    (b.toNat < 128 ∧ first b = ([Char.ofNat b.toNat], none)) ∨
    128 ≤ b.toNat ∧ (first b = ([replacement], none) ∨
      ∃ p, first b = ([], some p) ∧ p.ranges ≠ [] ∧ Beyond p.ranges p.value) := by
  cases hp : (first b).2 with
  | some p =>
    obtain ⟨hne, hbeyond, hb, hnil⟩ := beyond_first hp
    exact .inr ⟨hb, .inr ⟨p, Prod.ext hnil hp, hne, hbeyond⟩⟩
  | none =>
    unfold first at hp ⊢
    dsimp only at hp ⊢
    split_ifs at hp ⊢ with h
    · exact .inl ⟨h, rfl⟩
    · exact .inr ⟨by omega, .inl rfl⟩

/-- The states between two bytes. -/
def Sound : Option Pending → Prop
  | none => True
  | some p => p.ranges ≠ [] ∧ Beyond p.ranges p.value

theorem ofNat_ne_of_beyond {n : ℕ} {c : Char} (h : 128 ≤ n ∧ n.isValidChar) (hc : c.toNat < 128) :
    c ≠ Char.ofNat n := by
  rintro rfl
  rw [Char.toNat_ofNat, if_pos h.2] at hc
  omega

theorem eq_ofNat_iff {b : UInt8} {c : Char} (hb : b.toNat < 128) (hc : c.toNat < 128) :
    c = Char.ofNat b.toNat ↔ UInt8.ofNat c.toNat = b := by
  have hvalid : b.toNat.isValidChar := .inl (by omega)
  constructor
  · rintro rfl
    rw [Char.toNat_ofNat, if_pos hvalid, UInt8.ofNat_toNat]
  · rintro rfl
    rw [UInt8.toNat_ofNat', Nat.mod_eq_of_lt (by omega), Char.ofNat_toNat]

theorem mem_first {b : UInt8} {c : Char} (hc : c.toNat < 128) :
    Sound (first b).2 ∧ (c ∈ (first b).1 ↔ UInt8.ofNat c.toNat = b) := by
  have hne : 128 ≤ b.toNat → UInt8.ofNat c.toNat ≠ b := by
    rintro hb rfl
    rw [UInt8.toNat_ofNat', Nat.mod_eq_of_lt (by omega)] at hb
    omega
  obtain ⟨hb, heq⟩ | ⟨hb, heq | ⟨p, heq, hp⟩⟩ := first_cases b <;> rw [heq]
  · refine ⟨trivial, ?_⟩
    rw [List.mem_singleton]
    exact eq_ofNat_iff hb hc
  · refine ⟨trivial, ?_⟩
    simp only [List.mem_singleton, hne hb, iff_false]
    rintro rfl
    exact absurd hc (by decide)
  · exact ⟨hp, by simp [hne hb]⟩

theorem mem_next {st : Option Pending} (hst : Sound st) {b : UInt8} {c : Char}
    (hc : c.toNat < 128) :
    Sound (next st b).2 ∧ (c ∈ (next st b).1 ↔ UInt8.ofNat c.toNat = b) := by
  have hreplacement : c ≠ replacement := by
    rintro rfl
    exact absurd hc (by decide)
  match st with
  | none => exact mem_first hc
  | some ⟨[], n⟩ => exact absurd rfl hst.1
  | some ⟨range :: ranges, n⟩ =>
    obtain ⟨-, hlow, hall⟩ := hst
    rw [next]
    by_cases hb : range.1 ≤ b.toNat ∧ b.toNat ≤ range.2
    · have hne : UInt8.ofNat c.toNat ≠ b := by
        rintro rfl
        rw [UInt8.toNat_ofNat', Nat.mod_eq_of_lt (by omega)] at hb
        omega
      have hbeyond := hall b.toNat hb.1 hb.2
      rw [if_pos hb]
      by_cases hranges : ranges = []
      · subst hranges
        refine ⟨trivial, ?_⟩
        simp only [↓reduceIte, List.mem_singleton, hne, iff_false]
        exact ofNat_ne_of_beyond hbeyond hc
      · simp only [if_neg hranges, List.not_mem_nil, hne, and_true]
        exact ⟨hranges, hbeyond⟩
    · rw [if_neg hb]
      obtain ⟨hsound, hmem⟩ := mem_first (b := b) hc
      refine ⟨hsound, ?_⟩
      rw [List.mem_cons, ← hmem]
      simp [hreplacement]

theorem mem_replaceFrom {st : Option Pending} (hst : Sound st) {bytes : List UInt8} {c : Char}
    (hc : c.toNat < 128) : c ∈ replaceFrom st bytes ↔ UInt8.ofNat c.toNat ∈ bytes := by
  induction bytes generalizing st with
  | nil =>
    cases st with
    | none => simp [replaceFrom]
    | some p =>
      simp only [replaceFrom, List.mem_singleton, List.not_mem_nil, iff_false]
      rintro rfl
      exact absurd hc (by decide)
  | cons b bytes ih =>
    obtain ⟨hsound, hmem⟩ := mem_next hst (b := b) hc
    rw [replaceFrom, List.mem_append, hmem, ih hsound, List.mem_cons]

/-- Small characters are decoded from their bytes only, and always. -/
theorem mem_decodeReplace {bytes : List UInt8} {c : Char} (hc : c.toNat < 128) :
    c ∈ decodeReplace bytes ↔ UInt8.ofNat c.toNat ∈ bytes := by
  unfold decodeReplace
  cases hdecode : Json.decodeUtf8 bytes with
  | none => exact @mem_replaceFrom none trivial _ _ hc
  | some text =>
    rw [Option.getD_some, ← Json.utf8_of_decodeUtf8 hdecode]
    constructor
    · intro hmem
      exact List.mem_flatMap.mpr ⟨c, hmem, by rw [Json.utf8EncodeChar_ascii hc]; simp⟩
    · intro hmem
      obtain ⟨ch, hch, hbyte⟩ := List.mem_flatMap.mp hmem
      have hsmall : (UInt8.ofNat c.toNat).toNat = c.toNat := by
        rw [UInt8.toNat_ofNat', Nat.mod_eq_of_lt (by omega)]
      have hnat := Json.utf8EncodeChar_small hbyte (by omega)
      rw [hsmall] at hnat
      rwa [← Char.toNat_inj.mp hnat]

/-! ## Runs -/

/-- A run of a text: its characters are all in ASCII, or none is. -/
def Uniform (run : List Char) : Prop :=
  (∀ ch ∈ run, isAscii ch = true) ∨ (run ≠ [] ∧ ∀ ch ∈ run, isAscii ch = false)

/-- The bytes behind a run. -/
def runBytes (run : List Char) : List UInt8 :=
  if run.all isAscii then unquoteToBytes run else Json.utf8 run

theorem runBytes_other {run : List Char} (hne : run ≠ []) (h : ∀ ch ∈ run, isAscii ch = false) :
    runBytes run = Json.utf8 run := by
  cases run with
  | nil => exact absurd rfl hne
  | cons ch run =>
    rw [runBytes, if_neg]
    rw [List.all_cons, h ch List.mem_cons_self]
    simp

theorem escapedBytes_runs {runs : List (List Char)} (huniform : ∀ run ∈ runs, Uniform run)
    (hchain : runs.IsChain fun run run' => ∃ h h', (decide (isAscii (run.getLast h) =
      isAscii (run'.head h'))) = false) : escapedBytes runs.flatten = runs.flatMap runBytes := by
  induction runs with
  | nil => rfl
  | cons run runs ih =>
    have hih := ih (fun r hr => huniform r (List.mem_cons_of_mem _ hr)) hchain.tail
    rw [List.flatten_cons, List.flatMap_cons, ← hih]
    rcases huniform run List.mem_cons_self with hascii | ⟨hne, hother⟩
    · rw [runBytes, if_pos (List.all_eq_true.mpr hascii)]
      apply escapedBytes_ascii hascii
      intro ch hch
      cases runs with
      | nil => cases hch
      | cons run' runs =>
        obtain ⟨⟨hlast, hhead, hne⟩, -⟩ := List.isChain_cons_cons.mp hchain
        rw [hascii _ (List.getLast_mem hlast), decide_eq_false_iff_not] at hne
        have hch' : run'.head hhead = ch := by
          obtain ⟨x, xs, rfl⟩ := List.exists_cons_of_ne_nil hhead
          simpa using hch
        rw [hch'] at hne
        cases hvalue : hexValue ch with
        | none => rfl
        | some d => exact absurd (hexValue_ascii hvalue).1.symm hne
    · rw [runBytes_other hne hother]
      exact escapedBytes_other hother

theorem uniform_of_splitBy {text run : List Char}
    (h : run ∈ text.splitBy fun a b => decide (isAscii a = isAscii b)) : Uniform run := by
  have hne := List.ne_nil_of_mem_splitBy h
  have hchain := List.isChain_of_mem_splitBy h
  obtain ⟨ch, run, rfl⟩ := List.exists_cons_of_ne_nil hne
  have hsame : ∀ x ∈ ch :: run, isAscii x = isAscii ch := by
    clear h hne
    induction run generalizing ch with
    | nil => simp
    | cons ch' run ih =>
      obtain ⟨heq, htail⟩ := List.isChain_cons_cons.mp hchain
      intro x hx
      rcases List.mem_cons.mp hx with rfl | hx
      · rfl
      · rw [ih ch' htail x hx, of_decide_eq_true heq]
  cases hch : isAscii ch with
  | true => exact .inl fun x hx => (hsame x hx).trans hch
  | false => exact .inr ⟨hne, fun x hx => (hsame x hx).trans hch⟩

/-- A small character is in the decoded text exactly if its byte is behind the quoted one. -/
theorem mem_unquote {text : List Char} {c : Char} (hc : c.toNat < 128) :
    c ∈ unquote text ↔ UInt8.ofNat c.toNat ∈ escapedBytes text := by
  have hbytes := escapedBytes_runs (fun run hrun => @uniform_of_splitBy text run hrun)
    (List.isChain_getLast_head_splitBy (fun a b => decide (isAscii a = isAscii b)) text)
  rw [List.flatten_splitBy] at hbytes
  rw [hbytes, unquote, List.mem_flatMap, List.mem_flatMap]
  apply exists_congr
  intro run
  apply and_congr_right
  intro hrun
  unfold runBytes
  split_ifs with hall
  · exact mem_decodeReplace hc
  · rw [← mem_decodeReplace hc, decodeReplace_utf8]

/-! ## Quoting -/

/-- The digits of `quote`. -/
def upperDigit (n : ℕ) : Char := if n < 10 then Char.ofNat (48 + n) else Char.ofNat (55 + n)

def escapeByte (b : UInt8) : List Char :=
  ['%', upperDigit (b.toNat / 16), upperDigit (b.toNat % 16)]

/-- Whether `quote` leaves a character as it is. -/
def kept (safe : List Char) (ch : Char) : Bool :=
  ch.toNat < 128 && (ch.isAlphanum || ch ∈ ['_', '.', '-', '~'] || ch ∈ safe)

def quoteByte (safe : List Char) (b : UInt8) : List Char :=
  if kept safe (Char.ofNat b.toNat) then [Char.ofNat b.toNat] else escapeByte b

/-- `quote` with more safe characters. -/
def quote (safe : List Char) (text : List Char) : List Char :=
  (Json.utf8 text).flatMap (quoteByte safe)

theorem upperDigit_eq : ∀ n < 16, hexValue (upperDigit n) = some n ∧
    (upperDigit n).isAlphanum = true ∧ (upperDigit n).toNat < 128 ∧ upperDigit n ≠ '%' := by
  decide

variable {safe : List Char}

theorem kept_upperDigit {n : ℕ} (h : n < 16) : kept safe (upperDigit n) = true := by
  obtain ⟨-, halpha, hsmall, -⟩ := upperDigit_eq n h
  simp [kept, halpha, hsmall]

theorem div_mod_lt (b : UInt8) : b.toNat / 16 < 16 ∧ b.toNat % 16 < 16 := by
  have hb : b.toNat < 256 := UInt8.toNat_lt_size b
  omega

theorem not_kept_of_large {b : UInt8} (h : 128 ≤ b.toNat) : kept safe (Char.ofNat b.toNat) = false := by
  have hb : b.toNat < 256 := UInt8.toNat_lt_size b
  have hvalid : b.toNat.isValidChar := .inl (by omega)
  rw [kept, Char.toNat_ofNat, if_pos hvalid]
  simp [h]

theorem quote_nil : quote safe [] = [] := rfl

theorem quote_cons_kept {ch : Char} (h : kept safe ch = true) (text : List Char) :
    quote safe (ch :: text) = ch :: quote safe text := by
  have hsmall : ch.toNat < 128 := by
    simp only [kept, Bool.and_eq_true, decide_eq_true_eq] at h
    exact h.1
  have hbyte : (UInt8.ofNat ch.toNat).toNat = ch.toNat := by
    rw [UInt8.toNat_ofNat', Nat.mod_eq_of_lt (by omega)]
  have hutf8 : Json.utf8 (ch :: text) = UInt8.ofNat ch.toNat :: Json.utf8 text := by
    rw [Json.utf8, List.flatMap_cons, Json.utf8EncodeChar_ascii hsmall]
    rfl
  rw [quote, hutf8, List.flatMap_cons, quoteByte, hbyte, Char.ofNat_toNat, if_pos h]
  rfl

theorem quote_cons_other {ch : Char} (h : kept safe ch = false) (text : List Char) :
    quote safe (ch :: text) = (String.utf8EncodeChar ch).flatMap escapeByte ++ quote safe text := by
  have hbytes : (String.utf8EncodeChar ch).flatMap (quoteByte safe) =
      (String.utf8EncodeChar ch).flatMap escapeByte := by
    apply List.flatMap_congr
    intro b hb
    have hnot : kept safe (Char.ofNat b.toNat) = false := by
      by_cases hsmall : b.toNat < 128
      · rw [← Json.utf8EncodeChar_small hb hsmall, Char.ofNat_toNat, h]
      · exact not_kept_of_large (by omega)
    rw [quoteByte, hnot, if_neg (by simp)]
  have hutf8 : Json.utf8 (ch :: text) = String.utf8EncodeChar ch ++ Json.utf8 text := rfl
  rw [quote, hutf8, List.flatMap_append, hbytes]
  rfl

theorem quotes_quote (hsafe : ∀ ch, kept safe ch = true → isPlain ch = true) (text : List Char) :
    Quotes (Json.utf8 text) (quote safe text) := by
  unfold quote
  induction Json.utf8 text with
  | nil => exact .nil
  | cons b bytes ih =>
    obtain ⟨hhigh, hlow⟩ := div_mod_lt b
    rw [List.flatMap_cons, quoteByte]
    split_ifs with h
    · have hvalid : b.toNat.isValidChar := .inl (lt_trans (UInt8.toNat_lt_size b) (by decide))
      have hplain := Quotes.plain (hsafe _ h) ih
      rw [Char.toNat_ofNat, if_pos hvalid, UInt8.ofNat_toNat] at hplain
      exact hplain
    · exact .escaped (upperDigit_eq _ hhigh).1 (upperDigit_eq _ hlow).1 ih

/-- The characters of a quoted text. -/
theorem kept_of_mem_quote {text : List Char} {ch : Char} (h : ch ∈ quote safe text) :
    kept safe ch = true ∨ ch = '%' := by
  obtain ⟨b, -, hb⟩ := List.mem_flatMap.mp h
  obtain ⟨hhigh, hlow⟩ := div_mod_lt b
  rw [quoteByte] at hb
  split_ifs at hb with hkept
  · rw [List.mem_singleton.mp hb]
    exact .inl hkept
  · simp only [escapeByte, List.mem_cons, List.not_mem_nil, or_false] at hb
    rcases hb with rfl | rfl | rfl
    · exact .inr rfl
    · exact .inl (kept_upperDigit hhigh)
    · exact .inl (kept_upperDigit hlow)

theorem quote_eq_self {text : List Char} (h : ∀ ch ∈ text, kept safe ch = true) :
    quote safe text = text := by
  induction text with
  | nil => rfl
  | cons ch text ih =>
    rw [quote_cons_kept (h ch List.mem_cons_self),
      ih fun ch' h' => h ch' (List.mem_cons_of_mem _ h')]

/-- The number of characters of a quoted text. -/
def quotedLength (safe : List Char) (text : List Char) : ℕ :=
  ((Json.utf8 text).map fun b => if kept safe (Char.ofNat b.toNat) then 1 else 3).sum

theorem length_quote (safe : List Char) (text : List Char) :
    (quote safe text).length = quotedLength safe text := by
  rw [quote, quotedLength, List.length_flatMap]
  congr 1
  apply List.map_congr_left
  intro b _
  rw [quoteByte]
  split_ifs <;> rfl

/-! ## Escapes of a text -/

/-- A text has an escape with these digits. -/
def hasEscape (x y : Char) : List Char → Bool
  | [] => false
  | ch :: rest => (ch = '%' && rest.take 2 = [x, y]) || hasEscape x y rest

variable {x y : Char}

theorem hasEscape_mono {text whole : List Char} (h : text <:+: whole)
    (hhas : hasEscape x y text = true) : hasEscape x y whole = true := by
  obtain ⟨front, back, rfl⟩ := h
  have hfront : hasEscape x y (text ++ back) = true := by
    induction text with
    | nil => cases hhas
    | cons ch text ih =>
      rw [hasEscape, Bool.or_eq_true, Bool.and_eq_true, decide_eq_true_eq, decide_eq_true_eq] at hhas
      rw [List.cons_append, hasEscape]
      rcases hhas with ⟨rfl, htake⟩ | hrest
      · have hmore : (text ++ back).take 2 = [x, y] := by
          match text with
          | [] => cases htake
          | [a] => cases htake
          | a :: b :: text => exact htake
        simp [hmore]
      · rw [ih hrest, Bool.or_true]
  rw [List.append_assoc]
  induction front with
  | nil => exact hfront
  | cons ch front ih => rw [List.cons_append, hasEscape, ih, Bool.or_true]

theorem hasEscape_append {c : Char} (hx : c ≠ x) (hy : c ≠ y) (text rest : List Char) :
    hasEscape x y (text ++ c :: rest) = (hasEscape x y text || hasEscape x y (c :: rest)) := by
  induction text with
  | nil => rfl
  | cons ch text ih =>
    have htake : ((text ++ c :: rest).take 2 = [x, y]) ↔ text.take 2 = [x, y] := by
      match text with
      | [] => simp [hx]
      | [a] => simp [hy]
      | a :: b :: text => simp
    rw [List.cons_append, hasEscape, hasEscape, ih, Bool.or_assoc]
    simp only [htake]

theorem utf8EncodeChar_ne_nil (ch : Char) : String.utf8EncodeChar ch ≠ [] := by
  rw [← List.length_pos_iff, String.length_utf8EncodeChar]
  exact Char.utf8Size_pos ch

theorem take_quote (hx : x ≠ '%') (hy : y ≠ '%') {text : List Char}
    (h : (quote safe text).take 2 = [x, y]) : text.take 2 = [x, y] := by
  have hother : ∀ {ch : Char} (rest : List Char), kept safe ch = false →
      (quote safe (ch :: rest)).head? = some '%' := by
    intro ch rest hch
    rw [quote_cons_other hch]
    obtain ⟨b, bytes, hbytes⟩ := List.exists_cons_of_ne_nil (utf8EncodeChar_ne_nil ch)
    rw [hbytes]
    rfl
  have hhead : ∀ {c : Char} {rest : List Char}, c ≠ '%' → (quote safe rest).head? = some c →
      ∃ rest', rest = c :: rest' ∧ kept safe c = true := by
    intro c rest hc hq
    cases rest with
    | nil => cases hq
    | cons ch rest =>
      cases hch : kept safe ch with
      | false =>
        rw [hother rest hch] at hq
        exact absurd (Option.some.inj hq).symm hc
      | true =>
        rw [quote_cons_kept hch] at hq
        obtain rfl := Option.some.inj hq
        exact ⟨rest, rfl, hch⟩
  have hfirst : (quote safe text).head? = some x := by
    cases hq : quote safe text with
    | nil => simp [hq] at h
    | cons a rest =>
      rw [hq] at h
      simp only [List.take_succ_cons, List.cons.injEq] at h
      rw [List.head?_cons, h.1]
  obtain ⟨rest, rfl, hkept⟩ := hhead hx hfirst
  rw [quote_cons_kept hkept, List.take_succ_cons, List.cons.injEq] at h
  have hsecond : (quote safe rest).head? = some y := by
    cases hq : quote safe rest with
    | nil => simp [hq] at h
    | cons a rest => simpa [hq] using h.2
  obtain ⟨rest', rfl, -⟩ := hhead hy hsecond
  rfl

theorem hasEscape_escapes {bytes : List UInt8} {rest : List Char}
    (h : hasEscape x y (bytes.flatMap escapeByte ++ rest) = true) :
    (∃ b ∈ bytes, upperDigit (b.toNat / 16) = x ∧ upperDigit (b.toNat % 16) = y) ∨
      hasEscape x y rest = true := by
  induction bytes with
  | nil => exact .inr h
  | cons b bytes ih =>
    obtain ⟨hhigh, hlow⟩ := div_mod_lt b
    have hne := (upperDigit_eq _ hhigh).2.2.2
    have hne' := (upperDigit_eq _ hlow).2.2.2
    have hsplit : (b :: bytes).flatMap escapeByte ++ rest =
        '%' :: upperDigit (b.toNat / 16) :: upperDigit (b.toNat % 16) ::
          (bytes.flatMap escapeByte ++ rest) := rfl
    rw [hsplit, hasEscape, hasEscape, hasEscape] at h
    simp only [decide_true, Bool.true_and, hne, hne', decide_false, Bool.false_and, Bool.false_or,
      Bool.or_eq_true, decide_eq_true_eq, List.take_succ_cons, List.take_zero, List.cons.injEq,
      and_true] at h
    rcases h with h | h
    · exact .inl ⟨b, List.mem_cons_self, h⟩
    · rcases ih h with ⟨b', hb', heq⟩ | hrest
      · exact .inl ⟨b', List.mem_cons_of_mem _ hb', heq⟩
      · exact .inr hrest

/-- An escape of a quoted text is one of the text, if `%` is kept, or stands for a byte. -/
theorem hasEscape_quote (hx : x ≠ '%') (hy : y ≠ '%') {text : List Char}
    (h : hasEscape x y (quote safe text) = true) :
    (kept safe '%' = true ∧ hasEscape x y text = true) ∨
      ∃ ch ∈ text, kept safe ch = false ∧ ∃ b ∈ String.utf8EncodeChar ch,
        upperDigit (b.toNat / 16) = x ∧ upperDigit (b.toNat % 16) = y := by
  induction text with
  | nil => cases h
  | cons ch text ih =>
    have hrest : hasEscape x y (quote safe text) = true →
        (kept safe '%' = true ∧ hasEscape x y (ch :: text) = true) ∨
        ∃ ch' ∈ ch :: text, kept safe ch' = false ∧ ∃ b ∈ String.utf8EncodeChar ch',
          upperDigit (b.toNat / 16) = x ∧ upperDigit (b.toNat % 16) = y := by
      intro h
      rcases ih h with ⟨hkept, hhas⟩ | ⟨ch', hch', hb⟩
      · refine .inl ⟨hkept, ?_⟩
        rw [hasEscape, hhas, Bool.or_true]
      · exact .inr ⟨ch', List.mem_cons_of_mem _ hch', hb⟩
    cases hch : kept safe ch with
    | true =>
      rw [quote_cons_kept hch, hasEscape, Bool.or_eq_true, Bool.and_eq_true, decide_eq_true_eq,
        decide_eq_true_eq] at h
      rcases h with ⟨rfl, htake⟩ | h
      · refine .inl ⟨hch, ?_⟩
        rw [hasEscape, take_quote hx hy htake]
        simp
      · exact hrest h
    | false =>
      rw [quote_cons_other hch] at h
      rcases hasEscape_escapes h with ⟨b, hb, heq⟩ | h
      · exact .inr ⟨ch, List.mem_cons_self, hch, b, hb, heq⟩
      · exact hrest h

theorem kept_of_hexValue {ch : Char} (h : (hexValue ch).isSome = true) : kept safe ch = true := by
  have halpha : ch.isAlphanum = true := by
    unfold Json.hexValue at h
    split_ifs at h with h₁ h₂ h₃
    · simp [Char.isAlphanum, h₁]
    · simp only [Char.isAlphanum, Char.isAlpha, Char.isLower, Bool.or_eq_true, Bool.and_eq_true,
        decide_eq_true_eq]
      exact .inl (.inr ⟨h₂.1, le_trans h₂.2 (by decide)⟩)
    · simp only [Char.isAlphanum, Char.isAlpha, Char.isUpper, Bool.or_eq_true, decide_eq_true_eq]
      exact .inl (.inl ⟨h₃.1, le_trans h₃.2 (by decide)⟩)
    · cases h
  obtain ⟨d, hd⟩ := Option.isSome_iff_exists.mp h
  have hascii := (hexValue_ascii hd).1
  rw [isAscii, decide_eq_true_eq] at hascii
  simp [kept, halpha, hascii]

theorem not_digits_quote {text : List Char} (h : ¬Digits text) : ¬Digits (quote safe text) := by
  rintro ⟨a, b, rest, heq, ha, hb⟩
  have hne : ∀ {c : Char}, (hexValue c).isSome = true → c ≠ '%' := by
    rintro c hc rfl
    exact absurd hc (by decide)
  have htake : (quote safe text).take 2 = [a, b] := by rw [heq]; rfl
  have htext := take_quote (hne ha) (hne hb) htake
  match text with
  | [] => cases htext
  | [x] => cases htext
  | x :: y :: text =>
    obtain ⟨rfl, rfl⟩ : x = a ∧ y = b := by simpa using htext
    exact h ⟨x, y, text, rfl, ha, hb⟩

theorem escapedBytes_escapes (bytes : List UInt8) (rest : List Char) :
    escapedBytes (bytes.flatMap escapeByte ++ rest) = bytes ++ escapedBytes rest := by
  induction bytes with
  | nil => rfl
  | cons b bytes ih =>
    obtain ⟨hhigh, hlow⟩ := div_mod_lt b
    have hsplit : (b :: bytes).flatMap escapeByte ++ rest =
        '%' :: upperDigit (b.toNat / 16) :: upperDigit (b.toNat % 16) ::
          (bytes.flatMap escapeByte ++ rest) := rfl
    rw [hsplit, escapedBytes, (upperDigit_eq _ hhigh).1, (upperDigit_eq _ hlow).1]
    dsimp only
    rw [ih, Nat.div_add_mod, UInt8.ofNat_toNat]
    rfl

/-- Quoting a text with its escapes kept does not change the bytes behind it. -/
theorem escapedBytes_quote (hpercent : kept safe '%' = true) (text : List Char) :
    escapedBytes (quote safe text) = escapedBytes text := by
  fun_induction escapedBytes text with
  | case1 => rfl
  | case2 a b rest x y hb ha ih =>
    have hkept : kept safe a = true := kept_of_hexValue (by rw [ha]; rfl)
    have hkept' : kept safe b = true := kept_of_hexValue (by rw [hb]; rfl)
    rw [quote_cons_kept hpercent, quote_cons_kept hkept, quote_cons_kept hkept', escapedBytes, ha, hb]
    dsimp only
    rw [ih]
  | case3 a b rest hno ih =>
    have hdigits : ¬Digits (a :: b :: rest) := by
      rintro ⟨a', b', tail, heq, ha, hb⟩
      obtain ⟨rfl, htail⟩ := List.cons.inj heq
      obtain ⟨rfl, -⟩ := List.cons.inj htail
      obtain ⟨x, hx⟩ := Option.isSome_iff_exists.mp ha
      obtain ⟨y, hy⟩ := Option.isSome_iff_exists.mp hb
      exact hno x y hx hy
    rw [quote_cons_kept hpercent, escapedBytes_percent (not_digits_quote hdigits), ih]
  | case4 ch rest hno ih =>
    by_cases hch : ch = '%'
    · subst hch
      have hdigits : ¬Digits rest := by
        rintro ⟨a, b, tail, rfl, -, -⟩
        exact hno a b tail rfl rfl
      rw [quote_cons_kept hpercent, escapedBytes_percent (not_digits_quote hdigits), ih]
      rfl
    · cases hkept : kept safe ch with
      | true => rw [quote_cons_kept hkept, escapedBytes_cons hch, ih]
      | false => rw [quote_cons_other hkept, escapedBytes_escapes, ih]

theorem toNat_of_hexValue {ch : Char} {d : ℕ} (h : hexValue ch = some d) :
    d < 16 ∧
    (d < 10 ∧ ch.toNat = 48 + d ∨ 10 ≤ d ∧ (ch.toNat = 87 + d ∨ ch.toNat = 55 + d)) := by
  unfold Json.hexValue at h
  split_ifs at h with h₁ h₂ h₃ <;> obtain rfl := Option.some.inj h
  · simp only [Char.isDigit, Bool.and_eq_true, decide_eq_true_eq, UInt32.le_iff_toNat_le] at h₁
    have hbounds : 48 ≤ ch.toNat ∧ ch.toNat ≤ 57 := h₁
    omega
  · have hbounds : 97 ≤ ch.toNat ∧ ch.toNat ≤ 102 := h₂
    omega
  · have hbounds : 65 ≤ ch.toNat ∧ ch.toNat ≤ 70 := h₃
    omega

theorem char_eq {ch : Char} (c : Char) (h : ch.toNat = c.toNat) : ch = c := Char.toNat_inj.mp h

/-- A backslash behind a quoted text is one of it, or one of its escapes. -/
theorem backslash_escaped {text : List Char} (h : 92 ∈ escapedBytes text) :
    '\\' ∈ text ∨ hasEscape '5' 'c' text = true ∨ hasEscape '5' 'C' text = true := by
  have hlater : ∀ (front : List Char) {rest : List Char},
      ('\\' ∈ rest ∨ hasEscape '5' 'c' rest = true ∨ hasEscape '5' 'C' rest = true) →
      '\\' ∈ front ++ rest ∨ hasEscape '5' 'c' (front ++ rest) = true ∨
        hasEscape '5' 'C' (front ++ rest) = true := by
    intro front rest hrest
    have hinfix : rest <:+: front ++ rest := (List.suffix_append front rest).isInfix
    rcases hrest with hmem | hhas' | hhas'
    · exact .inl (List.mem_append_right _ hmem)
    · exact .inr (.inl (hasEscape_mono hinfix hhas'))
    · exact .inr (.inr (hasEscape_mono hinfix hhas'))
  fun_induction escapedBytes text with
  | case1 => cases h
  | case2 a b rest x y hb ha ih =>
    rcases List.mem_cons.mp h with hbyte | hrest
    · right
      obtain ⟨hx, hax⟩ := toNat_of_hexValue ha
      obtain ⟨hy, hby⟩ := toNat_of_hexValue hb
      have hsum : 92 = 16 * x + y := by
        have hnat : 92 = (UInt8.ofNat (16 * x + y)).toNat := congrArg UInt8.toNat hbyte
        rw [UInt8.toNat_ofNat', Nat.mod_eq_of_lt (by omega)] at hnat
        exact hnat
      have ha5 : a = '5' := char_eq '5' (show a.toNat = 53 by omega)
      subst ha5
      have hbc : b.toNat = 99 ∨ b.toNat = 67 := by omega
      rcases hbc with hbc | hbc
      · obtain rfl : b = 'c' := char_eq 'c' hbc
        exact .inl rfl
      · obtain rfl : b = 'C' := char_eq 'C' hbc
        exact .inr rfl
    · exact hlater ['%', a, b] (ih hrest)
  | case3 a b rest hno ih =>
    rcases List.mem_cons.mp h with hbyte | hrest
    · exact absurd hbyte (by decide)
    · exact hlater ['%'] (ih hrest)
  | case4 ch rest hno ih =>
    rcases List.mem_append.mp h with hbyte | hrest
    · have hch := Json.utf8EncodeChar_small hbyte (by decide)
      rw [char_eq '\\' hch]
      exact .inl List.mem_cons_self
    · exact hlater [ch] (ih hrest)

end Percent
