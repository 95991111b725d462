import MegaCache.Resp.Reply

/-!
# The parser of the Node client

`parse` of `index.js`, which reads a reply from the beginning of the bytes that have
arrived.  It answers `null` as long as the reply is not complete, and what it answers or
throws otherwise stays the same when more bytes arrive.
-/

namespace MegaCache.Resp.Node

/-- The limits among the options of a `RespConnection`. -/
structure Options where
  maxResponseBytes : ℕ
  maxBulkLength : ℕ
  maxArrayLength : ℕ
  maxResponseDepth : ℕ

/-- `{ value, error, next }`; the result is an error with its line, or a value. -/
structure Decoded where
  result : Except Bytes (Value Bytes)
  next : ℕ

/-- `null` is `none`. -/
abbrev Parsed := Except Failure (Option Decoded)

/-- `indexOf("\r\n")`. -/
def indexOfCrlf : Bytes → Option ℕ
  | [] => none
  | b :: rest => if [13, 10] <+: b :: rest then some 0 else (indexOfCrlf rest).map (· + 1)

/-- `Number(line)` where `/^-?\d+$/` matches. -/
def matchInteger : Bytes → Option ℤ
  | [] => none
  | b :: rest =>
    if b = 45 then (Decimal.goDigits rest).map fun n => -(n : ℤ)
    else (Decimal.goDigits (b :: rest)).map fun n => (n : ℤ)

/-- `Number.isSafeInteger`; a number beyond is rounded to one that is not safe either. -/
def Safe (n : ℤ) : Prop := n.natAbs < 2 ^ 53

instance (n : ℤ) : Decidable (Safe n) := by
  unfold Safe
  infer_instance

def ensureSize (o : Options) (start finish : ℕ) : Except Failure Unit :=
  if o.maxResponseBytes < finish - start then .error (.protocol "response exceeds byte limit")
  else .ok ()

/-- The integer of a line. -/
def integerValue (line : Bytes) : Except Failure (Value Bytes) :=
  match matchInteger line with
  | none => .error (.protocol "invalid integer")
  | some n => if Safe n then .ok (.int n) else .error (.protocol "integer exceeds safe range")

/-- The bytes of a bulk string of some length and their terminator. -/
def parseData (o : Options) (buffer : Bytes) (start cursor length : ℕ) : Parsed :=
  match ensureSize o start (cursor + length + 2) with
  | .error e => .error e
  | .ok _ =>
    if buffer.length < cursor + length + 2 then .ok none
    else if (buffer.drop (cursor + length)).take 2 ≠ [13, 10] then
      .error (.protocol "invalid bulk terminator")
    else .ok (some ⟨.ok (.bytes ((buffer.drop cursor).take length)), cursor + length + 2⟩)

def parseBulk (o : Options) (buffer : Bytes) (start cursor : ℕ) (line : Bytes) : Parsed :=
  match matchInteger line with
  | none => .error (.protocol "invalid bulk length")
  | some length =>
    if length = -1 then .ok (some ⟨.ok .null, cursor⟩)
    else if ¬Safe length ∨ length < 0 then .error (.protocol "invalid bulk length")
    else if (o.maxBulkLength : ℤ) < length then .error (.protocol "bulk string exceeds limit")
    else parseData o buffer start cursor length.toNat

/-- The loop over the items of an array: their values and the cursor behind them. -/
def parseItems (item : ℕ → Parsed) : ℕ → ℕ → Except Failure (Option (List (Value Bytes) × ℕ))
  | 0, cursor => .ok (some ([], cursor))
  | count + 1, cursor =>
    match item cursor with
    | .error e => .error e
    | .ok none => .ok none
    | .ok (some ⟨.error line, _⟩) => .error (.command line)
    | .ok (some ⟨.ok value, next⟩) =>
      match parseItems item count next with
      | .error e => .error e
      | .ok none => .ok none
      | .ok (some (values, cursor)) => .ok (some (value :: values, cursor))

def parseArray (o : Options) (item : ℕ → Parsed) (cursor : ℕ) (line : Bytes) : Parsed :=
  match matchInteger line with
  | none => .error (.protocol "invalid array length")
  | some count =>
    if count = -1 then .ok (some ⟨.ok .null, cursor⟩)
    else if ¬Safe count ∨ count < 0 ∨ (o.maxArrayLength : ℤ) < count then
      .error (.protocol "invalid array length")
    else (parseItems item count.toNat cursor).map fun r =>
      r.map fun p => ⟨.ok (.list p.1), p.2⟩

/-- What a line means behind its marker. -/
def parseMarked (o : Options) (buffer : Bytes) (start : ℕ) (item : ℕ → Parsed) (marker : UInt8)
    (line : Bytes) (cursor : ℕ) : Parsed :=
  if marker = 43 then .ok (some ⟨.ok (.text line), cursor⟩)
  else if marker = 45 then .ok (some ⟨.error line, cursor⟩)
  else if marker = 58 then (integerValue line).map fun value => some ⟨.ok value, cursor⟩
  else if marker = 36 then parseBulk o buffer start cursor line
  else if marker = 42 then parseArray o item cursor line
  else .error (.protocol "unknown RESP marker")

/-- `parse(buffer, offset, limits, depth, start)`; the first number is that of the levels that
may still be opened, `maxResponseDepth + 1 - depth`. -/
def parse (o : Options) (buffer : Bytes) (start : ℕ) : ℕ → ℕ → Parsed
  | 0, _ => .error (.protocol "RESP nesting exceeds limit")
  | levels + 1, offset =>
    match buffer.drop offset with
    | [] => .ok none
    | marker :: rest =>
      match indexOfCrlf rest with
      | none => do
        ensureSize o start buffer.length
        pure none
      | some i => do
        ensureSize o start (offset + i + 3)
        parseMarked o buffer start (parse o buffer start levels) marker (rest.take i) (offset + i + 3)

/-- `parse(this.buffer, 0, this.options)`. -/
def parseReply (o : Options) (buffer : Bytes) : Parsed := parse o buffer 0 (o.maxResponseDepth + 1) 0

/-! ## More bytes -/

/-- Whether a list starts with CR LF is seen from its first two bytes. -/
theorem crlf_prefix_append (b q : UInt8) (rest x : Bytes) :
    [13, 10] <+: b :: q :: rest ++ x ↔ [13, 10] <+: b :: q :: rest := by
  simp [List.cons_prefix_cons]

theorem indexOfCrlf_append {l : Bytes} {i : ℕ} (h : indexOfCrlf l = some i) (x : Bytes) :
    indexOfCrlf (l ++ x) = some i ∧ i + 2 ≤ l.length := by
  induction l generalizing i with
  | nil => cases h
  | cons b rest ih =>
    unfold indexOfCrlf at h
    rw [List.cons_append]
    unfold indexOfCrlf
    by_cases hp : [13, 10] <+: b :: rest
    · rw [if_pos hp] at h
      obtain rfl := Option.some.inj h
      refine ⟨if_pos ?_, by simpa using hp.length_le⟩
      exact hp.trans (List.prefix_append (b :: rest) x)
    · rw [if_neg hp] at h
      obtain ⟨j, hj, rfl⟩ := Option.map_eq_some_iff.mp h
      obtain ⟨hx, hlen⟩ := ih hj
      cases rest with
      | nil => cases hj
      | cons q rest =>
        rw [← List.cons_append, if_neg (mt (crlf_prefix_append b q rest x).mp hp), List.cons_append]
        rw [List.cons_append] at hx
        rw [hx]
        exact ⟨rfl, by simp only [List.length_cons] at hlen ⊢; omega⟩

/-- The first CR LF of a longer text may begin with the last byte. -/
theorem length_le_of_indexOfCrlf {l x : Bytes} {i : ℕ} (h : indexOfCrlf l = none)
    (hx : indexOfCrlf (l ++ x) = some i) : l.length ≤ i + 1 := by
  induction l generalizing i with
  | nil => simp
  | cons b rest ih =>
    unfold indexOfCrlf at h
    by_cases hp : [13, 10] <+: b :: rest
    · rw [if_pos hp] at h
      cases h
    · rw [if_neg hp, Option.map_eq_none_iff] at h
      rw [List.cons_append, indexOfCrlf] at hx
      cases rest with
      | nil => simp
      | cons q rest =>
        rw [List.cons_append, ← List.cons_append, ← List.cons_append,
          if_neg (mt (crlf_prefix_append b q rest x).mp hp)] at hx
        obtain ⟨j, hj, rfl⟩ := Option.map_eq_some_iff.mp hx
        have := ih h hj
        simp only [List.length_cons] at this ⊢
        omega

/-- A line without CR ends at the first CR LF. -/
theorem indexOfCrlf_line {text : Bytes} (h : 13 ∉ text) (rest : Bytes) :
    indexOfCrlf (text ++ 13 :: 10 :: rest) = some text.length := by
  induction text with
  | nil => simp [indexOfCrlf]
  | cons b text ih =>
    obtain ⟨hb, htext⟩ : ¬13 = b ∧ 13 ∉ text := by simpa using h
    rw [List.cons_append, indexOfCrlf, ih htext, if_neg (by simp [List.cons_prefix_cons, hb])]
    rfl

theorem ensureSize_mono {o : Options} {start n m : ℕ} {e : Failure}
    (h : ensureSize o start n = .error e) (hnm : n ≤ m) : ensureSize o start m = .error e := by
  unfold ensureSize at h ⊢
  split_ifs at h with hlt
  · rw [if_pos (by omega)]
    exact h

theorem ensureSize_cases (o : Options) (start n : ℕ) :
    ensureSize o start n = .ok () ∨ ∃ e, ensureSize o start n = .error e := by
  unfold ensureSize
  split_ifs
  · exact .inr ⟨_, rfl⟩
  · exact .inl rfl

/-- What is no `null` stays when more bytes arrive. -/
def Stable (p : Bytes → Parsed) : Prop := ∀ b x, p b ≠ .ok none → p (b ++ x) = p b

theorem parseData_stable (o : Options) (start cursor length : ℕ) :
    Stable fun buffer => parseData o buffer start cursor length := by
  intro b x h
  dsimp only at h ⊢
  unfold parseData at h ⊢
  cases hsize : ensureSize o start (cursor + length + 2) with
  | error e => rfl
  | ok u =>
    rw [hsize] at h
    dsimp only at h ⊢
    -- a string that is not complete gives `null`
    by_cases hlen : b.length < cursor + length + 2
    · rw [if_pos hlen] at h
      exact absurd rfl h
    · have hlen' : ¬(b ++ x).length < cursor + length + 2 := by
        rw [List.length_append]
        omega
      have hterminator : ((b ++ x).drop (cursor + length)).take 2 = (b.drop (cursor + length)).take 2 := by
        rw [List.drop_append_of_le_length (by omega), List.take_append_of_le_length]
        rw [List.length_drop]
        omega
      have hdata : ((b ++ x).drop cursor).take length = (b.drop cursor).take length := by
        rw [List.drop_append_of_le_length (by omega), List.take_append_of_le_length]
        rw [List.length_drop]
        omega
      rw [if_neg hlen, if_neg hlen', hterminator, hdata]

theorem parseBulk_stable (o : Options) (start cursor : ℕ) (line : Bytes) :
    Stable fun buffer => parseBulk o buffer start cursor line := by
  intro b x h
  dsimp only at h ⊢
  unfold parseBulk at h ⊢
  cases hline : matchInteger line with
  | none => rfl
  | some length =>
    rw [hline] at h
    dsimp only at h ⊢
    split_ifs at h ⊢ with h₁ h₂ h₃
    · rfl
    · rfl
    · rfl
    · exact parseData_stable o start cursor length.toNat b x h

theorem parseItems_stable {item : Bytes → ℕ → Parsed} (hitem : ∀ cursor, Stable fun b => item b cursor)
    (count : ℕ) : ∀ cursor b x, parseItems (item b) count cursor ≠ .ok none →
      parseItems (item (b ++ x)) count cursor = parseItems (item b) count cursor := by
  induction count with
  | zero =>
    intro cursor b x _
    rfl
  | succ count ih =>
    intro cursor b x h
    have hhead : item b cursor ≠ .ok none := by
      intro hnone
      rw [parseItems, hnone] at h
      exact h rfl
    have hsame : item (b ++ x) cursor = item b cursor := hitem cursor b x hhead
    rw [parseItems, parseItems, hsame]
    rw [parseItems] at h
    rcases hi : item b cursor with e | _ | ⟨line | value, next⟩
    · rfl
    · exact absurd hi hhead
    · rfl
    · rw [hi] at h
      dsimp only at h ⊢
      have hrest : parseItems (item b) count next ≠ .ok none := by
        intro hnone
        rw [hnone] at h
        exact h rfl
      rw [ih next b x hrest]

theorem parseArray_stable {item : Bytes → ℕ → Parsed} (hitem : ∀ cursor, Stable fun b => item b cursor)
    (o : Options) (cursor : ℕ) (line : Bytes) : Stable fun b => parseArray o (item b) cursor line := by
  intro b x h
  dsimp only at h ⊢
  unfold parseArray at h ⊢
  cases hline : matchInteger line with
  | none => rfl
  | some count =>
    rw [hline] at h
    dsimp only at h ⊢
    split_ifs at h ⊢ with h₁ h₂
    · rfl
    · rfl
    · have hitems : parseItems (item b) count.toNat cursor ≠ .ok none := by
        intro hnone
        rw [hnone] at h
        exact h rfl
      rw [parseItems_stable hitem count.toNat cursor b x hitems]

theorem parse_stable (o : Options) (start levels : ℕ) :
    ∀ offset, Stable fun buffer => parse o buffer start levels offset := by
  induction levels with
  | zero =>
    intro offset b x _
    rfl
  | succ levels ih =>
    intro offset b x h
    dsimp only at h ⊢
    rw [parse] at h ⊢
    cases hdrop : b.drop offset with
    | nil =>
      rw [hdrop] at h
      exact absurd rfl h
    | cons marker rest =>
      have hdrop' : (b ++ x).drop offset = marker :: (rest ++ x) := by
        have hlt : offset < b.length := by
          by_contra hge
          rw [List.drop_eq_nil_of_le (by omega)] at hdrop
          cases hdrop
        rw [List.drop_append_of_le_length hlt.le, hdrop, List.cons_append]
      have hlength : b.length = offset + 1 + rest.length := by
        have := congrArg List.length hdrop
        rw [List.length_drop, List.length_cons] at this
        have hlt : offset < b.length := by
          by_contra hge
          rw [List.drop_eq_nil_of_le (by omega)] at hdrop
          cases hdrop
        omega
      rw [hdrop] at h
      rw [hdrop', parse, hdrop]
      dsimp only at h ⊢
      cases hline : indexOfCrlf rest with
      | none =>
        rw [hline] at h
        dsimp only at h ⊢
        rcases ensureSize_cases o start b.length with hsize | ⟨e, hsize⟩
        · rw [hsize] at h
          exact absurd rfl h
        · -- the line is too long already
          rw [hsize]
          cases hline' : indexOfCrlf (rest ++ x) with
          | none =>
            dsimp only
            rw [ensureSize_mono hsize (by rw [List.length_append]; omega)]
          | some i =>
            have hi := length_le_of_indexOfCrlf hline hline'
            dsimp only
            rw [ensureSize_mono hsize (by omega)]
            rfl
      | some i =>
        obtain ⟨hline', hi⟩ := indexOfCrlf_append hline x
        rw [hline] at h
        rw [hline']
        dsimp only at h ⊢
        rcases ensureSize_cases o start (offset + i + 3) with hsize | ⟨e, hsize⟩
        · rw [hsize] at h ⊢
          rw [List.take_append_of_le_length (by omega)]
          change parseMarked o b start (parse o b start levels) marker (rest.take i) (offset + i + 3) ≠
            .ok none at h
          change parseMarked o (b ++ x) start (parse o (b ++ x) start levels) marker (rest.take i)
            (offset + i + 3) = parseMarked o b start (parse o b start levels) marker (rest.take i)
            (offset + i + 3)
          unfold parseMarked at h ⊢
          split_ifs at h ⊢ with h₁ h₂ h₃ h₄ h₅
          · rfl
          · rfl
          · rfl
          · exact parseBulk_stable o start _ _ b x h
          · exact parseArray_stable ih o _ _ b x h
          · rfl
        · rw [hsize]
          rfl

/-! ## The bytes of a result -/

/-- The result of a parser ends within the buffer. -/
def Inside (n : ℕ) (p : Parsed) : Prop := ∀ d, p = .ok (some d) → d.next ≤ n

theorem Inside.error (n : ℕ) (e : Failure) : Inside n (.error e) := by
  intro d h
  cases h

theorem Inside.null (n : ℕ) : Inside n (.ok none) := by
  intro d h
  cases h

theorem Inside.result {n next : ℕ} (h : next ≤ n) (r : Except Bytes (Value Bytes)) :
    Inside n (.ok (some ⟨r, next⟩)) := by
  intro d hd
  obtain rfl := Option.some.inj (Except.ok.inj hd)
  exact h

theorem Inside.map {n : ℕ} {α : Type} (x : Except Failure α) {f : α → Option Decoded}
    (h : ∀ a d, x = .ok a → f a = some d → d.next ≤ n) : Inside n (x.map f) := by
  intro d hd
  cases x with
  | error e => cases hd
  | ok a => exact h a d rfl (Except.ok.inj hd)

theorem parseBulk_inside (o : Options) {buffer : Bytes} (start : ℕ) {cursor : ℕ} (line : Bytes)
    (h : cursor ≤ buffer.length) : Inside buffer.length (parseBulk o buffer start cursor line) := by
  unfold parseBulk
  cases matchInteger line with
  | none => exact .error _ _
  | some length =>
    dsimp only
    split_ifs
    · exact .result h _
    · exact .error _ _
    · exact .error _ _
    · unfold parseData
      cases ensureSize o start (cursor + length.toNat + 2) with
      | error e => exact .error _ _
      | ok u =>
        dsimp only
        split_ifs with hlen hend
        · exact .null _
        · exact .error _ _
        · exact .result (by omega) _

theorem parseItems_inside {item : ℕ → Parsed} {n : ℕ} (hitem : ∀ cursor, Inside n (item cursor))
    {count cursor : ℕ} (h : cursor ≤ n) {values : List (Value Bytes)} {next : ℕ}
    (hrun : parseItems item count cursor = .ok (some (values, next))) : next ≤ n := by
  induction count generalizing cursor values next with
  | zero =>
    obtain rfl : cursor = next := congrArg Prod.snd (Option.some.inj (Except.ok.inj hrun))
    exact h
  | succ count ih =>
    rw [parseItems] at hrun
    rcases hi : item cursor with e | _ | ⟨line | value, behind⟩
    all_goals rw [hi] at hrun
    · cases hrun
    · cases hrun
    · cases hrun
    · have hbehind : behind ≤ n := hitem cursor _ hi
      dsimp only at hrun
      rcases hr : parseItems item count behind with e | _ | ⟨rest, last⟩
      all_goals rw [hr] at hrun
      · cases hrun
      · cases hrun
      · obtain rfl : last = next := congrArg Prod.snd (Option.some.inj (Except.ok.inj hrun))
        exact ih hbehind hr

theorem parse_inside (o : Options) (buffer : Bytes) (start levels : ℕ) :
    ∀ offset, Inside buffer.length (parse o buffer start levels offset) := by
  induction levels with
  | zero =>
    intro offset
    exact .error _ _
  | succ levels ih =>
    intro offset
    rw [parse]
    cases hdrop : buffer.drop offset with
    | nil => exact .null _
    | cons marker rest =>
      have hlength : buffer.length - offset = rest.length + 1 := by
        rw [← List.length_drop, hdrop, List.length_cons]
      dsimp only
      cases hline : indexOfCrlf rest with
      | none =>
        dsimp only
        rcases ensureSize_cases o start buffer.length with hsize | ⟨e, hsize⟩
        · rw [hsize]
          exact .null _
        · rw [hsize]
          exact .error _ _
      | some i =>
        have hi := (indexOfCrlf_append hline []).2
        dsimp only
        rcases ensureSize_cases o start (offset + i + 3) with hsize | ⟨e, hsize⟩
        · rw [hsize]
          change Inside buffer.length (parseMarked o buffer start (parse o buffer start levels) marker
            (rest.take i) (offset + i + 3))
          have hcursor : offset + i + 3 ≤ buffer.length := by omega
          unfold parseMarked
          split_ifs
          · exact .result hcursor _
          · exact .result hcursor _
          · refine .map _ fun value d _ hd => ?_
            obtain rfl := Option.some.inj hd
            exact hcursor
          · exact parseBulk_inside o start _ hcursor
          · unfold parseArray
            cases matchInteger (rest.take i) with
            | none => exact .error _ _
            | some count =>
              dsimp only
              split_ifs
              · exact .result hcursor _
              · exact .error _ _
              · refine .map _ fun found d hfound hd => ?_
                obtain ⟨p, hp, rfl⟩ := Option.map_eq_some_iff.mp hd
                subst hp
                exact parseItems_inside ih hcursor hfound
          · exact .error _ _
        · rw [hsize]
          exact .error _ _

/-! ## Whole replies -/

mutual

/-- What the parser makes of a reply. -/
def Reply.answer : Reply → Except Failure (Value Bytes)
  | .simple text => .ok (.text text)
  | .error text => .error (.command text)
  | .int plus n => integerValue (Decimal.signedText plus n)
  | .bulk data => .ok (.bytes data)
  | .nullBulk => .ok .null
  | .nullArray => .ok .null
  | .array items => (answerItems items).map .list

def answerItems : List Reply → Except Failure (List (Value Bytes))
  | [] => .ok []
  | r :: rest =>
    match Reply.answer r with
    | .error e => .error e
    | .ok v => (answerItems rest).map (v :: ·)

end

/-- Only an error that is no item of an array is a result. -/
def verdict (r : Reply) (next : ℕ) : Parsed :=
  match r with
  | .error text => .ok (some ⟨.error text, next⟩)
  | r => (Reply.answer r).map fun v => some ⟨.ok v, next⟩

/-- A well-formed reply within the limits, its arrays nested at most `depth` deep; lengths are
lengths of a `Buffer` and of an array. -/
inductive Within (o : Options) : ℕ → Reply → Prop
  | simple {depth : ℕ} {text : Bytes} (h : 13 ∉ text ∧ 10 ∉ text) : Within o depth (.simple text)
  | error {depth : ℕ} {text : Bytes} (h : 13 ∉ text ∧ 10 ∉ text) : Within o depth (.error text)
  | int {depth : ℕ} (plus : Bool) (n : ℤ) : Within o depth (.int plus n)
  | bulk {depth : ℕ} {data : Bytes} (hlen : data.length ≤ o.maxBulkLength)
      (hsafe : data.length < 2 ^ 53) : Within o depth (.bulk data)
  | nullBulk {depth : ℕ} : Within o depth .nullBulk
  | nullArray {depth : ℕ} : Within o depth .nullArray
  | emptyArray {depth : ℕ} : Within o depth (.array [])
  | array {depth : ℕ} {items : List Reply} (hlen : items.length ≤ o.maxArrayLength)
      (hsafe : items.length < 2 ^ 53) (h : ∀ r ∈ items, Within o depth r) :
      Within o (depth + 1) (.array items)

theorem drop_add {buffer front rest : Bytes} {offset : ℕ} (h : buffer.drop offset = front ++ rest) :
    buffer.drop (offset + front.length) = rest := by
  rw [← List.drop_drop, h, List.drop_left]

theorem matchInteger_natText (n : ℕ) : matchInteger (Decimal.natText n) = some (n : ℤ) := by
  cases htext : Decimal.natText n with
  | nil => exact absurd htext (Decimal.natText_ne_nil n)
  | cons b rest =>
    have hdigit : Decimal.isDigit b = true :=
      Decimal.natText_isDigit (n := n) (by rw [htext]; exact List.mem_cons_self)
    have h45 : b ≠ 45 := by
      rintro rfl
      revert hdigit
      decide
    have h := Decimal.goDigits_natText n
    rw [htext] at h
    rw [matchInteger, if_neg h45, h]
    rfl

/-- A safe integer is read back. -/
theorem integerValue_intText {n : ℤ} (h : Safe n) : integerValue (Decimal.intText n) = .ok (.int n) := by
  have hmatch : matchInteger (Decimal.intText n) = some n := by
    cases n with
    | ofNat n => exact matchInteger_natText n
    | negSucc n =>
      rw [Decimal.intText, matchInteger, if_pos rfl, Decimal.goDigits_natText]
      rfl
  rw [integerValue, hmatch]
  exact if_pos h

theorem ensureSize_ok {o : Options} {start n : ℕ} (h : n - start ≤ o.maxResponseBytes) :
    ensureSize o start n = .ok () :=
  if_neg (by omega)

/-- A framed line reaches the branch of its marker. -/
theorem parse_frame {o : Options} {buffer : Bytes} {start levels offset : ℕ} {marker : UInt8}
    {text rest : Bytes} (h : buffer.drop offset = frame marker text ++ rest) (h13 : 13 ∉ text)
    (hsize : offset + (frame marker text).length - start ≤ o.maxResponseBytes) :
    parse o buffer start (levels + 1) offset =
      parseMarked o buffer start (parse o buffer start levels) marker text
        (offset + (frame marker text).length) := by
  have hlen : (frame marker text).length = text.length + 3 := by
    simp [frame]
  have hdrop : buffer.drop offset = marker :: (text ++ 13 :: 10 :: rest) := by
    rw [h, frame]
    simp
  rw [hlen] at hsize ⊢
  rw [parse, hdrop]
  dsimp only
  rw [indexOfCrlf_line h13]
  dsimp only
  rw [show offset + text.length + 3 = offset + (text.length + 3) by omega, ensureSize_ok hsize,
    List.take_left]
  rfl

/-- What a parser of items does with a reply, wherever it stands. -/
def Parses (o : Options) (start : ℕ) (item : Bytes → ℕ → Parsed) (r : Reply) : Prop :=
  ∀ buffer offset rest, buffer.drop offset = r.encode ++ rest →
    offset + r.encode.length - start ≤ o.maxResponseBytes →
      item buffer offset = verdict r (offset + r.encode.length)

theorem parseItems_encode {o : Options} {start : ℕ} {item : Bytes → ℕ → Parsed} {items : List Reply}
    (h : ∀ r ∈ items, Parses o start item r) {buffer rest : Bytes} {cursor : ℕ}
    (hdrop : buffer.drop cursor = encodeItems items ++ rest)
    (hsize : cursor + (encodeItems items).length - start ≤ o.maxResponseBytes) :
    parseItems (item buffer) items.length cursor =
      (answerItems items).map fun values => some (values, cursor + (encodeItems items).length) := by
  induction items generalizing cursor with
  | nil => rfl
  | cons r items ih =>
    simp only [encodeItems, List.length_append] at hdrop hsize ⊢
    rw [List.append_assoc] at hdrop
    have hr := h r List.mem_cons_self buffer cursor _ hdrop (by omega)
    have hrest := ih (fun q hq => h q (List.mem_cons_of_mem r hq)) (drop_add hdrop) (by omega)
    rw [List.length_cons, parseItems, hr, answerItems]
    cases r with
    | error text => rfl
    | _ =>
      dsimp only [verdict]
      cases hanswer : Reply.answer _ with
      | error e => rfl
      | ok v =>
        dsimp only [Except.map]
        rw [hrest]
        cases answerItems items with
        | error e => rfl
        | ok vs =>
          dsimp only [Except.map]
          rw [Nat.add_assoc]

theorem parse_array {o : Options} {start levels : ℕ} {items : List Reply}
    (hlen : items.length ≤ o.maxArrayLength) (hsafe : items.length < 2 ^ 53)
    (h : ∀ r ∈ items, Parses o start (fun b => parse o b start levels) r) :
    Parses o start (fun b => parse o b start (levels + 1)) (.array items) := by
  intro buffer offset rest hdrop hsize
  simp only [Reply.encode, List.length_append] at hdrop hsize ⊢
  rw [List.append_assoc] at hdrop
  have h13 : 13 ∉ Decimal.natText items.length := by
    intro h13
    have := Decimal.natText_isDigit h13
    revert this
    decide
  have hitems := parseItems_encode h (drop_add hdrop) (by rw [Nat.add_assoc]; exact hsize)
  have hframe := @parse_frame o buffer start levels offset 42 (Decimal.natText items.length) _ hdrop h13
    (by omega)
  refine hframe.trans ?_
  have harray : parseMarked o buffer start (parse o buffer start levels) 42
      (Decimal.natText items.length) (offset + (frame 42 (Decimal.natText items.length)).length) =
        parseArray o (parse o buffer start levels)
          (offset + (frame 42 (Decimal.natText items.length)).length) (Decimal.natText items.length) :=
    rfl
  have hsafe' : Safe (items.length : ℤ) := by
    unfold Safe
    simpa using hsafe
  rw [harray, parseArray, matchInteger_natText]
  dsimp only
  rw [if_neg (by omega), if_neg (by rintro (h | h | h) <;> [exact h hsafe'; omega; omega]),
    Int.toNat_natCast, hitems]
  simp only [verdict, Reply.answer]
  cases answerItems items with
  | error e => rfl
  | ok vs =>
    dsimp only [Except.map, Option.map]
    rw [Nat.add_assoc]

theorem parseData_run {o : Options} {buffer data rest : Bytes} {start cursor : ℕ}
    (h : buffer.drop cursor = data ++ ([13, 10] ++ rest))
    (hsize : cursor + data.length + 2 - start ≤ o.maxResponseBytes) :
    parseData o buffer start cursor data.length =
      .ok (some ⟨.ok (.bytes data), cursor + data.length + 2⟩) := by
  have hlength : cursor + data.length + 2 ≤ buffer.length := by
    have := congrArg List.length h
    simp only [List.length_drop, List.length_append, List.length_cons, List.length_nil] at this
    omega
  unfold parseData
  rw [ensureSize_ok hsize]
  dsimp only
  rw [if_neg (by omega), drop_add h, h, List.take_left, if_neg]
  simp

theorem parse_encode {o : Options} {start depth : ℕ} {r : Reply} (h : Within o depth r) :
    Parses o start (fun b => parse o b start (depth + 1)) r := by
  -- every reply starts with a framed line; `parseMarked` decides what follows it
  induction h with
  | simple h =>
    intro buffer offset rest hdrop hsize
    exact parse_frame hdrop h.1 hsize
  | error h =>
    intro buffer offset rest hdrop hsize
    exact parse_frame hdrop h.1 hsize
  | int plus n =>
    intro buffer offset rest hdrop hsize
    have h13 : 13 ∉ Decimal.signedText plus n := by
      intro h13
      rcases Decimal.signedText_bytes h13 with h | h | h <;> revert h <;> decide
    refine (parse_frame hdrop h13 hsize).trans ?_
    simp only [verdict, Reply.answer]
    rfl
  | @bulk depth data hlen hsafe =>
    intro buffer offset rest hdrop hsize
    simp only [Reply.encode, List.length_append] at hdrop hsize ⊢
    rw [List.append_assoc, List.append_assoc] at hdrop
    have h13 : 13 ∉ Decimal.natText data.length := by
      intro h13
      have := Decimal.natText_isDigit h13
      revert this
      decide
    have hframe := @parse_frame o buffer start depth offset 36 (Decimal.natText data.length) _ hdrop h13
      (by omega)
    refine hframe.trans ?_
    have hsafe' : Safe (data.length : ℤ) := by
      unfold Safe
      simpa using hsafe
    have hbulk : parseMarked o buffer start (parse o buffer start depth) 36
        (Decimal.natText data.length) (offset + (frame 36 (Decimal.natText data.length)).length) =
          parseBulk o buffer start (offset + (frame 36 (Decimal.natText data.length)).length)
            (Decimal.natText data.length) := rfl
    have hdata := @parseData_run o buffer data rest start _ (drop_add hdrop) (by
      simp only [List.length_cons, List.length_nil] at hsize
      omega)
    rw [hbulk, parseBulk, matchInteger_natText]
    dsimp only
    rw [if_neg (by omega), if_neg (by rintro (h | h) <;> [exact h hsafe'; omega]), if_neg (by omega),
      Int.toNat_natCast, hdata]
    simp only [verdict, Reply.answer, Except.map, List.length_cons, List.length_nil]
    simp only [Nat.add_assoc]
  | nullBulk =>
    intro buffer offset rest hdrop hsize
    exact parse_frame hdrop (by decide) hsize
  | nullArray =>
    intro buffer offset rest hdrop hsize
    exact parse_frame hdrop (by decide) hsize
  | emptyArray => exact parse_array (by simp) (by simp) (by simp)
  | array hlen hsafe h ih => exact parse_array hlen hsafe ih

/-- The verdict of a whole reply is a result that ends with it, or a failure. -/
theorem verdict_cases (r : Reply) (next : ℕ) :
    (∃ result, verdict r next = .ok (some ⟨result, next⟩)) ∨ ∃ e, verdict r next = .error e := by
  cases r with
  | error text => exact .inl ⟨_, rfl⟩
  | _ =>
    simp only [verdict]
    cases Reply.answer _ with
    | error e => exact .inr ⟨e, rfl⟩
    | ok v => exact .inl ⟨_, rfl⟩

/-- A buffer with the whole reply gives its verdict, whatever follows; one with less of it
gives `null`, or throws what the whole reply will throw. -/
theorem parseReply_whole {o : Options} {r : Reply} (h : Within o o.maxResponseDepth r)
    (hsize : r.encode.length ≤ o.maxResponseBytes) {b x rest : Bytes} (hb : b ++ x = r.encode ++ rest) :
    (r.encode.length ≤ b.length → parseReply o b = verdict r r.encode.length) ∧
    (b.length < r.encode.length → parseReply o b = .ok none ∨
      ∃ e, parseReply o b = .error e ∧ verdict r r.encode.length = .error e) := by
  have hwhole : ∀ y, parseReply o (r.encode ++ y) = verdict r r.encode.length := by
    intro y
    have := @parse_encode o 0 _ r h (r.encode ++ y) 0 y rfl (by omega)
    rwa [Nat.zero_add] at this
  constructor
  · intro hlen
    obtain ⟨y, rfl⟩ : ∃ y, b = r.encode ++ y := by
      have := List.prefix_of_prefix_length_le (List.prefix_append r.encode rest)
        (hb ▸ List.prefix_append b x) hlen
      obtain ⟨y, hy⟩ := this
      exact ⟨y, hy.symm⟩
    exact hwhole y
  · intro hlen
    obtain ⟨y, hy⟩ : ∃ y, b ++ y = r.encode := by
      have := List.prefix_of_prefix_length_le (hb ▸ List.prefix_append b x)
        (List.prefix_append r.encode rest) hlen.le
      exact this
    by_cases hnull : parseReply o b = .ok none
    · exact .inl hnull
    · right
      have hstable := parse_stable o 0 (o.maxResponseDepth + 1) 0 b y hnull
      have hverdict : parseReply o b = verdict r r.encode.length := by
        rw [← hwhole [], List.append_nil, ← hy]
        exact hstable.symm
      rcases verdict_cases r r.encode.length with ⟨result, hok⟩ | ⟨e, he⟩
      · -- a result would end behind the buffer
        have hinside := parse_inside o b 0 (o.maxResponseDepth + 1) 0 _ (hverdict.trans hok)
        exact absurd hinside (not_le.mpr hlen)
      · exact ⟨e, hverdict.trans he, he⟩

end MegaCache.Resp.Node
