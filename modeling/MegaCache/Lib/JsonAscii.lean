import MegaCache.Lib.JsonLoads

/-!
# JSON text in ASCII

`json.dumps` writes ASCII only unless it is told otherwise: a character beyond `~` stands in
a string as the escapes of its UTF-16 code units.  Outside of strings JSON text has no such
character, so the text is the other form with these characters replaced.  What is read from
a text is also read from its ASCII form.
-/

namespace Json

/-- The UTF-16 code units of a code point. -/
def surrogates (n : ℕ) : List ℕ :=
  if n < 65536 then [n] else [55296 + (n - 65536) / 1024, 56320 + (n - 65536) % 1024]

/-- The escape of a code unit. -/
def unitEscape (unit : ℕ) : List Char :=
  ['\\', 'u', hexDigit (unit / 4096), hexDigit (unit / 256 % 16), hexDigit (unit / 16 % 16),
    hexDigit (unit % 16)]

/-- A character in ASCII. -/
def asciiChar (ch : Char) : List Char :=
  if ch.toNat < 127 then [ch] else (surrogates ch.toNat).flatMap unitEscape

def ascii (text : List Char) : List Char := text.flatMap asciiChar

/-- `json.dumps` with `ensure_ascii`. -/
def dumpsAscii (repr : ℚ → List Char) (j : Json) : List Char := ascii (dumps repr j)

theorem ascii_cons (ch : Char) (text : List Char) : ascii (ch :: text) = asciiChar ch ++ ascii text :=
  List.flatMap_cons

/-- A character that is written as it is, or one whose form begins with a backslash. -/
theorem asciiChar_cases (ch : Char) :
    ch.toNat < 127 ∧ asciiChar ch = [ch] ∨
      127 ≤ ch.toNat ∧ ∃ text, asciiChar ch = '\\' :: text := by
  unfold asciiChar surrogates
  split_ifs with h₁ h₂
  · exact .inl ⟨h₁, rfl⟩
  · exact .inr ⟨by omega, _, rfl⟩
  · exact .inr ⟨by omega, _, rfl⟩

theorem asciiChar_small {ch : Char} (h : ch.toNat < 127) : asciiChar ch = [ch] := if_pos h

/-! ## Between the strings -/

/-- A test that only ASCII characters pass, and no backslash. -/
structure AsciiTest (test : Char → Bool) : Prop where
  small : ∀ ch, test ch = true → ch.toNat < 127
  backslash : test '\\' = false

theorem AsciiTest.isSpace : AsciiTest isSpace where
  small ch h := by
    simp only [Json.isSpace, decide_eq_true_eq, List.mem_cons, List.not_mem_nil, or_false] at h
    rcases h with rfl | rfl | rfl | rfl <;> decide
  backslash := by decide

theorem AsciiTest.tokenChar : AsciiTest tokenChar where
  small ch h := by
    simp only [Json.tokenChar, Char.isAlphanum, Char.isAlpha, Char.isUpper, Char.isLower, Char.isDigit,
      Bool.or_eq_true, Bool.and_eq_true, decide_eq_true_eq, UInt32.le_iff_toNat_le, List.mem_cons,
      List.not_mem_nil, or_false] at h
    have hle : ∀ b : UInt32, b.toNat < 127 → ch.val.toNat ≤ b.toNat → ch.toNat < 127 := fun b hb hch =>
      lt_of_le_of_lt hch hb
    rcases h with ((⟨-, h⟩ | ⟨-, h⟩) | ⟨-, h⟩) | rfl | rfl | rfl
    · exact hle 90 (by decide) h
    · exact hle 122 (by decide) h
    · exact hle 57 (by decide) h
    all_goals decide
  backslash := by decide

/-- What such a test takes from the front of a text it takes from the ASCII form. -/
theorem AsciiTest.ascii {test : Char → Bool} (ht : AsciiTest test) (text : List Char) :
    (Json.ascii text).takeWhile test = text.takeWhile test ∧
      (Json.ascii text).dropWhile test = Json.ascii (text.dropWhile test) := by
  induction text with
  | nil => exact ⟨rfl, rfl⟩
  | cons ch text ih =>
    by_cases hch : test ch = true
    · rw [ascii_cons, asciiChar_small (ht.small ch hch)]
      simp only [List.singleton_append, List.takeWhile_cons, List.dropWhile_cons, hch, ↓reduceIte]
      exact ⟨congrArg _ ih.1, ih.2⟩
    · rw [ascii_cons]
      rcases asciiChar_cases ch with ⟨-, h⟩ | ⟨-, text', h⟩
      · simp [h, hch, ascii_cons]
      · simp [h, hch, ht.backslash, ascii_cons]

theorem skip_ascii (text : List Char) : skip (ascii text) = ascii (skip text) :=
  (AsciiTest.isSpace.ascii text).2

/-- The first character, if it is in ASCII, is the first of the ASCII form. -/
theorem ascii_head {ch : Char} (text : List Char) (h : ch.toNat < 127) :
    ascii (ch :: text) = ch :: ascii text := by
  rw [ascii_cons, asciiChar_small h, List.singleton_append]

/-! ## Strings -/

theorem hexValue_small {ch : Char} {d : ℕ} (h : hexValue ch = some d) : ch.toNat < 127 ∧ d < 16 := by
  unfold hexValue at h
  split_ifs at h with h₁ h₂ h₃
  · simp only [Char.isDigit, Bool.and_eq_true, decide_eq_true_eq, UInt32.le_iff_toNat_le] at h₁
    have hbounds : 48 ≤ ch.toNat ∧ ch.toNat ≤ 57 := h₁
    rw [Option.some.injEq] at h
    omega
  · have hbounds : 97 ≤ ch.toNat ∧ ch.toNat ≤ 102 := h₂
    rw [Option.some.injEq] at h
    omega
  · have hbounds : 65 ≤ ch.toNat ∧ ch.toNat ≤ 70 := h₃
    rw [Option.some.injEq] at h
    omega

theorem unescape_small {ch ch' : Char} (h : unescape ch = some ch') :
    ch.toNat < 127 ∧ ch'.toNat < 127 := by
  unfold unescape at h
  split_ifs at h with h₁ <;> simp only [Option.some.injEq] at h
  · rcases h₁ with rfl | rfl | rfl <;> exact h ▸ by decide
  all_goals
    subst_vars
    decide

/-- The escape of a code unit, read back. -/
theorem readUnits_unitEscape {unit : ℕ} (h : unit < 65536) (rest : List Char) :
    readUnits .plain (unitEscape unit ++ rest) =
      (readUnits .plain rest).map fun p => (unit :: p.1, p.2) := by
  have h₁ := hexValue_hexDigit (unit / 4096) (by omega)
  have h₂ := hexValue_hexDigit (unit / 256 % 16) (by omega)
  have h₃ := hexValue_hexDigit (unit / 16 % 16) (by omega)
  have h₄ := hexValue_hexDigit (unit % 16) (by omega)
  have hunit : 16 * (16 * (16 * (unit / 4096) + unit / 256 % 16) + unit / 16 % 16) + unit % 16 = unit := by
    omega
  simp [unitEscape, readUnits, h₁, h₂, h₃, h₄, hunit]

theorem surrogates_lt {n unit : ℕ} (hn : n < 1114112) (h : unit ∈ surrogates n) : unit < 65536 := by
  unfold surrogates at h
  split_ifs at h with hsmall
  · rw [List.mem_singleton.mp h]
    exact hsmall
  · simp only [List.mem_cons, List.not_mem_nil, or_false] at h
    omega

theorem toNat_lt (ch : Char) : ch.toNat < 1114112 := by
  have hvalid : ch.toNat < 55296 ∨ 57343 < ch.toNat ∧ ch.toNat < 1114112 := ch.valid
  omega

/-- Escapes of code units in front of a text. -/
theorem readUnits_units {units : List ℕ} (h : ∀ unit ∈ units, unit < 65536) (rest : List Char) :
    readUnits .plain (units.flatMap unitEscape ++ rest) =
      (readUnits .plain rest).map fun p => (units ++ p.1, p.2) := by
  induction units with
  | nil => simp
  | cons unit units ih =>
    rw [List.flatMap_cons, List.append_assoc, readUnits_unitEscape (h unit List.mem_cons_self),
      ih fun u hu => h u (List.mem_cons_of_mem _ hu), Option.map_map]
    rfl

/-- A code unit read from digits is small. -/
def InString.Small : InString → Prop
  | .hex left value => value < 16 ^ (3 - left) ∧ left ≤ 3
  | _ => True

/-- Both readings of a string after one more character for `n`. -/
theorem units_cons {n : ℕ} {o o' : Option (List ℕ × List Char)} {units : List ℕ} {rest : List Char}
    (hn : n < 1114112)
    (ho : ∀ us r, o = some (us, r) →
      o' = some (us.flatMap surrogates, ascii r) ∧ ∀ u ∈ us, u < 1114112)
    (h : o.map (fun p => (n :: p.1, p.2)) = some (units, rest)) :
    o'.map (fun p => (surrogates n ++ p.1, p.2)) = some (units.flatMap surrogates, ascii rest) ∧
      ∀ u ∈ units, u < 1114112 := by
  obtain ⟨p, hp, hpair⟩ := Option.map_eq_some_iff.mp h
  obtain ⟨rfl, rfl⟩ := Prod.mk.inj hpair
  obtain ⟨hread, hlt⟩ := ho p.1 p.2 hp
  exact ⟨by rw [hread]; rfl, List.forall_mem_cons.mpr ⟨hn, hlt⟩⟩

/-- By induction on the text: the ASCII form of a string has the code units of its
characters. -/
theorem readUnits_ascii (text : List Char) : ∀ (st : InString) (units : List ℕ) (rest : List Char),
    st.Small → readUnits st text = some (units, rest) →
    readUnits st (ascii text) = some (units.flatMap surrogates, ascii rest) ∧
      ∀ u ∈ units, u < 1114112 := by
  induction text with
  | nil =>
    intro st units rest _ h
    cases st <;> simp [readUnits] at h
  | cons ch text ih =>
    intro st units rest hst h
    have ihp := fun us r => ih .plain us r trivial
    have hsmall' : ∀ n, n < 65536 → surrogates n = [n] := fun n hn => if_pos hn
    cases st with
    | plain =>
      unfold readUnits at h
      split_ifs at h with h₁ h₂ h₃
      · obtain ⟨rfl, rfl⟩ : [] = units ∧ text = rest := by simpa using h
        rw [h₁, ascii_head _ (by decide), readUnits]
        simp
      · rw [h₂, ascii_head _ (by decide), readUnits]
        simpa using ih .escaped units rest trivial h
      · have hboth := units_cons (toNat_lt ch) ihp h
        by_cases hsmall : ch.toNat < 127
        · rw [hsmall' ch.toNat (by omega)] at hboth
          rw [ascii_head _ hsmall, readUnits, if_neg h₁, if_neg h₂, if_neg h₃]
          exact hboth
        · rw [ascii_cons, asciiChar, if_neg hsmall,
            readUnits_units fun u hu => surrogates_lt (toNat_lt ch) hu]
          exact hboth
    | escaped =>
      unfold readUnits at h
      split_ifs at h with h₁
      · rw [h₁, ascii_head _ (by decide), readUnits]
        simpa using ih (.hex 3 0) units rest (by simp [InString.Small]) h
      · split at h
        · cases h
        · rename_i ch' hch'
          obtain ⟨hsmall, hch⟩ := unescape_small hch'
          have hboth := units_cons (toNat_lt ch') ihp h
          rw [hsmall' ch'.toNat (by omega)] at hboth
          rw [ascii_head _ hsmall, readUnits, if_neg h₁, hch']
          exact hboth
    | hex left value =>
      obtain ⟨hvalue, hleft⟩ := hst
      unfold readUnits at h
      split at h
      · cases h
      · rename_i d hd
        obtain ⟨hsmall, hd16⟩ := hexValue_small hd
        have hlt : 16 * value + d < 65536 := by
          norm_num at hvalue
          omega
        have hboth := units_cons (by omega) ihp h
        rw [hsmall' _ hlt] at hboth
        rw [ascii_head _ hsmall]
        unfold readUnits
        rw [hd]
        exact hboth
      · rename_i d left hd
        obtain ⟨hsmall, hd16⟩ := hexValue_small hd
        rw [ascii_head _ hsmall]
        unfold readUnits
        rw [hd]
        refine ih (.hex left (16 * value + d)) units rest ⟨?_, by omega⟩ h
        have hvalue' : value < 16 ^ (3 - (left + 1)) := hvalue
        have hpow : 3 - left = (3 - (left + 1)) + 1 := by omega
        rw [hpow, pow_succ]
        omega

/-- Pairs of surrogates in place of code points give the same text. -/
theorem joinUnits_surrogates {units : List ℕ} {text : List Char} (hunits : ∀ u ∈ units, u < 1114112)
    (h : joinUnits units = some text) : joinUnits (units.flatMap surrogates) = some text := by
  induction units using joinUnits.induct generalizing text with
  | case1 => exact h
  | case2 unit hhigh =>
    unfold joinUnits at h
    simp [hhigh] at h
  | case3 unit hhigh low rest hlow ih =>
    have hlarge : ∀ u, highSurrogate u = true ∨ lowSurrogate u = true → surrogates u = [u] := by
      intro u hu
      simp only [highSurrogate, lowSurrogate, Bool.and_eq_true, decide_eq_true_eq] at hu
      exact if_pos (by omega)
    unfold joinUnits at h
    simp only [hhigh, hlow, ↓reduceIte] at h
    obtain ⟨text', htext', rfl⟩ := Option.map_eq_some_iff.mp h
    have hrest := ih (fun u hu => hunits u (by simp [hu])) htext'
    rw [List.flatMap_cons, List.flatMap_cons, hlarge unit (.inl hhigh), hlarge low (.inr hlow)]
    simp only [List.singleton_append]
    unfold joinUnits
    simp [hhigh, hlow, hrest]
  | case4 unit hhigh low rest hlow =>
    unfold joinUnits at h
    simp [hhigh, hlow] at h
  | case5 unit rest hhigh hlow =>
    unfold joinUnits at h
    simp [hhigh, hlow] at h
  | case6 unit rest hhigh hlow ih =>
    unfold joinUnits at h
    simp only [hhigh, hlow, Bool.false_eq_true, ↓reduceIte] at h
    obtain ⟨text', htext', rfl⟩ := Option.map_eq_some_iff.mp h
    have hrest := ih (fun u hu => hunits u (List.mem_cons_of_mem _ hu)) htext'
    have hunit := hunits unit List.mem_cons_self
    rw [List.flatMap_cons, surrogates]
    split_ifs with hsmall
    · simp only [List.singleton_append]
      unfold joinUnits
      simp [hhigh, hlow, hrest]
    · -- the two halves of the code point
      have h₁ : highSurrogate (55296 + (unit - 65536) / 1024) = true := by
        simp only [highSurrogate, Bool.and_eq_true, decide_eq_true_eq]
        omega
      have h₂ : lowSurrogate (56320 + (unit - 65536) % 1024) = true := by
        simp only [lowSurrogate, Bool.and_eq_true, decide_eq_true_eq]
        omega
      have hsum : 65536 + 1024 * (55296 + (unit - 65536) / 1024 - 55296) +
          (56320 + (unit - 65536) % 1024 - 56320) = unit := by
        omega
      simp only [List.cons_append, List.nil_append]
      unfold joinUnits
      simp only [h₁, h₂, ↓reduceIte, hrest, hsum, Option.map_some]

theorem readString_ascii {text rest : List Char} {s : String} (h : readString text = some (s, rest)) :
    readString (ascii text) = some (s, ascii rest) := by
  simp only [readString, bind, Option.bind_eq_some_iff, pure, Option.some.injEq, Prod.mk.injEq] at h
  obtain ⟨p, hp, chars, hchars, rfl, rfl⟩ := h
  obtain ⟨hunits, hlt⟩ := readUnits_ascii text .plain p.1 p.2 trivial hp
  have hjoin := joinUnits_surrogates hlt hchars
  simp [readString, hunits, hjoin]

/-! ## Values -/

variable {floats : FloatText}

/-- The first character after white space is the same in both forms, if it is in ASCII. -/
theorem skip_ascii_cons {text rest : List Char} {ch : Char} (h : skip text = ch :: rest)
    (hch : ch.toNat < 127) : skip (ascii text) = ch :: ascii rest := by
  rw [skip_ascii, h, ascii_head _ hch]

theorem length_ascii (text : List Char) : text.length ≤ (ascii text).length := by
  induction text with
  | nil => simp [ascii]
  | cons ch text ih =>
    have hne : 1 ≤ (asciiChar ch).length := by
      rcases asciiChar_cases ch with ⟨-, h⟩ | ⟨-, text', h⟩ <;> simp [h]
    rw [ascii_cons, List.length_append, List.length_cons]
    omega

/-- A name or a number, whatever character it begins with. -/
theorem readValue_scalar {text rest : List Char} {ch : Char} (fuel : ℕ) (h : skip text = ch :: rest)
    (hch : ch ≠ '"' ∧ ch ≠ '[' ∧ ch ≠ '{') :
    readValue floats (fuel + 1) text = (scalar floats ((skip text).takeWhile tokenChar)).map fun j =>
      (j, (skip text).dropWhile tokenChar) := by
  rw [readValue, h]
  simp only [hch.1, hch.2.1, hch.2.2, ↓reduceIte]

/-- The rest behind a closing bracket that follows at once. -/
theorem tail_skip_ascii {text : List Char} {ch : Char} (h : (skip text).head? = some ch)
    (hch : ch.toNat < 127) :
    (skip (ascii text)).head? = some ch ∧ (skip (ascii text)).tail = ascii (skip text).tail := by
  cases hskip : skip text with
  | nil => simp [hskip] at h
  | cons c rest =>
    obtain rfl : c = ch := by simpa [hskip] using h
    simp [skip_ascii_cons hskip hch]

/-- No such bracket follows in the ASCII form either. -/
theorem head_skip_ascii {text : List Char} {ch : Char} (h : (skip text).head? ≠ some ch)
    (hch : ch ≠ '\\') : (skip (ascii text)).head? ≠ some ch := by
  rw [skip_ascii]
  cases hskip : skip text with
  | nil => simp [ascii]
  | cons c rest =>
    rw [hskip] at h
    rcases asciiChar_cases c with ⟨-, heq⟩ | ⟨-, text', heq⟩
    · simpa [ascii_cons, heq] using h
    · simpa [ascii_cons, heq] using Ne.symm hch

/-- By induction on the fuel: what the three readers read from a text they read from its ASCII
form, with more fuel too. -/
theorem read_ascii (fuel : ℕ) :
    (∀ text j rest fuel', readValue floats fuel text = some (j, rest) → fuel ≤ fuel' →
      readValue floats fuel' (ascii text) = some (j, ascii rest)) ∧
    (∀ done text j rest fuel', readItems floats fuel done text = some (j, rest) → fuel ≤ fuel' →
      readItems floats fuel' done (ascii text) = some (j, ascii rest)) ∧
    (∀ done text j rest fuel', readFields floats fuel done text = some (j, rest) → fuel ≤ fuel' →
      readFields floats fuel' done (ascii text) = some (j, ascii rest)) := by
  induction fuel with
  | zero => exact ⟨by simp [readValue], by simp [readItems], by simp [readFields]⟩
  | succ fuel ih =>
    obtain ⟨ihv, ihi, ihf⟩ := ih
    refine ⟨?_, ?_, ?_⟩
    · intro text j rest fuel' h hfuel
      obtain ⟨fuel', rfl⟩ : ∃ n, fuel' = n + 1 := ⟨fuel' - 1, by omega⟩
      have hle : fuel ≤ fuel' := by omega
      cases hskip : skip text with
      | nil => simp [readValue, hskip] at h
      | cons ch text' =>
        by_cases hquote : ch = '"'
        · subst hquote
          rw [readValue, hskip] at h
          obtain ⟨p, hp, hpair⟩ := Option.map_eq_some_iff.mp (by simpa only [↓reduceIte] using h)
          obtain ⟨rfl, rfl⟩ := Prod.mk.inj hpair
          rw [readValue, skip_ascii_cons hskip (by decide)]
          simp only [↓reduceIte, readString_ascii hp, Option.map_some]
        · by_cases harr : ch = '['
          · subst harr
            rw [readValue, hskip] at h
            rw [readValue, skip_ascii_cons hskip (by decide)]
            simp only [Char.reduceEq, ↓reduceIte] at h ⊢
            split_ifs at h with hend
            · obtain ⟨hhead, htail⟩ := tail_skip_ascii hend (by decide)
              obtain ⟨rfl, rfl⟩ := Prod.mk.inj (Option.some.inj h)
              rw [if_pos hhead, htail]
            · rw [if_neg (head_skip_ascii hend (by decide))]
              exact ihi [] text' j rest fuel' h hle
          · by_cases hobj : ch = '{'
            · subst hobj
              rw [readValue, hskip] at h
              rw [readValue, skip_ascii_cons hskip (by decide)]
              simp only [Char.reduceEq, ↓reduceIte] at h ⊢
              split_ifs at h with hend
              · obtain ⟨hhead, htail⟩ := tail_skip_ascii hend (by decide)
                obtain ⟨rfl, rfl⟩ := Prod.mk.inj (Option.some.inj h)
                rw [if_pos hhead, htail]
              · rw [if_neg (head_skip_ascii hend (by decide))]
                exact ihf [] text' j rest fuel' h hle
            · rw [readValue_scalar fuel hskip ⟨hquote, harr, hobj⟩] at h
              obtain ⟨j', hj', hpair⟩ := Option.map_eq_some_iff.mp h
              obtain ⟨rfl, rfl⟩ := Prod.mk.inj hpair
              -- the ASCII form begins with the same character or with a backslash
              obtain ⟨c, rest', hc, hne⟩ : ∃ c rest', skip (ascii text) = c :: rest' ∧
                  (c ≠ '"' ∧ c ≠ '[' ∧ c ≠ '{') := by
                rw [skip_ascii, hskip, ascii_cons]
                rcases asciiChar_cases ch with ⟨-, heq⟩ | ⟨-, text'', heq⟩
                · exact ⟨ch, ascii text', by rw [heq]; rfl, hquote, harr, hobj⟩
                · exact ⟨'\\', text'' ++ ascii text', by rw [heq]; rfl, by decide⟩
              obtain ⟨htake, hdrop⟩ := AsciiTest.tokenChar.ascii (skip text)
              rw [readValue_scalar fuel' hc hne, skip_ascii, htake, hdrop, hj']
              rfl
    · intro done text j rest fuel' h hfuel
      obtain ⟨fuel', rfl⟩ : ∃ n, fuel' = n + 1 := ⟨fuel' - 1, by omega⟩
      have hle : fuel ≤ fuel' := by omega
      rw [readItems] at h
      split at h
      · cases h
      · rename_i j' rest' hread
        have hread' := ihv _ _ _ fuel' hread hle
        rw [readItems, hread']
        split at h
        · cases h
        · rename_i ch rest'' hskip
          split_ifs at h with hcomma hend
          · subst hcomma
            simp only [skip_ascii_cons hskip (by decide), ↓reduceIte]
            exact ihi _ _ j rest fuel' h hle
          · subst hend
            obtain ⟨rfl, rfl⟩ := Prod.mk.inj (Option.some.inj h)
            simp only [skip_ascii_cons hskip (by decide), Char.reduceEq, ↓reduceIte]
    · intro done text j rest fuel' h hfuel
      obtain ⟨fuel', rfl⟩ : ∃ n, fuel' = n + 1 := ⟨fuel' - 1, by omega⟩
      have hle : fuel ≤ fuel' := by omega
      rw [readFields] at h
      split at h
      · cases h
      · rename_i quote text' hquote
        split at h
        · cases h
        · rename_i key text'' hkey
          split_ifs at hkey with hq
          subst hq
          split at h
          · cases h
          · rename_i colon text₃ hcolon
            split at h
            · cases h
            · rename_i j' text₄ hvalue
              split_ifs at hvalue with hc
              subst hc
              split at h
              · cases h
              · rename_i ch text₅ hskip
                rw [readFields]
                simp only [skip_ascii_cons hquote (by decide), ↓reduceIte, readString_ascii hkey,
                  skip_ascii_cons hcolon (by decide), ihv _ _ _ fuel' hvalue hle]
                split_ifs at h with hcomma hend
                · subst hcomma
                  simp only [skip_ascii_cons hskip (by decide), ↓reduceIte]
                  exact ihf _ _ j rest fuel' h hle
                · subst hend
                  obtain ⟨rfl, rfl⟩ := Prod.mk.inj (Option.some.inj h)
                  simp only [skip_ascii_cons hskip (by decide), Char.reduceEq, ↓reduceIte]

theorem parse_ascii {text : List Char} {j : Json} (h : parse floats text = some j) :
    parse floats (ascii text) = some j := by
  unfold parse at h
  split at h
  · cases h
  · rename_i j' rest hread
    split_ifs at h with hrest
    obtain rfl : j' = j := Option.some.inj h
    have hascii := (read_ascii text.length).1 text j' rest _ hread (length_ascii text)
    rw [parse, hascii]
    simp only [skip_ascii, hrest]
    rfl

/-- What `json.dumps` writes is read back. -/
theorem loads_dumpsAscii {j : Json} (h : Ordered j) :
    loads floats (utf8 (dumpsAscii floats.repr j)) = some j := by
  have hdecode : (utf8 (dumpsAscii floats.repr j)).toByteArray.utf8Decode? =
      some (dumpsAscii floats.repr j).toArray :=
    List.utf8Decode?_utf8Encode
  simp only [loads, hdecode]
  exact parse_ascii (parse_dumps h)

end Json
