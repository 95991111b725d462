import MegaCache.Resp.Reply

/-!
# The blocking Python client

`MegaCacheClient.command` with `_read_response`, `_read_bulk` and `_readline`.  The
stream of a connection is the list of the bytes that the server will have sent; it
ends where the server closes.
-/

namespace MegaCache.Resp.Python

abbrev ReadM := Prog Reading Failure

/-- `line.decode("utf-8")`. -/
def decodeUtf8 (line : Bytes) : Option String := String.fromUTF8? ⟨line.toArray⟩

/-- `stream.read(count)`, which blocks until the bytes are there or the stream ends. -/
def streamRead (count : ℕ) : ReadM Bytes := fun s =>
  (.ok (s.stream.take count), { s with stream := s.stream.drop count })

/-- The bytes up to the first line feed, at most `limit` of them. -/
def lineBytes : ℕ → Bytes → Bytes
  | 0, _ => []
  | _ + 1, [] => []
  | n + 1, b :: rest => if b = 10 then [b] else b :: lineBytes n rest

/-- `stream.readline(limit)`. -/
def streamReadline (limit : ℕ) : ReadM Bytes := fun s =>
  let line := lineBytes limit s.stream
  (.ok line, { s with stream := s.stream.drop line.length })

def consumeResponseBytes (count : ℕ) : ReadM Unit := do
  modify fun s => { s with budget := s.budget + count }
  let s ← get
  if maxResponseBytes < s.budget then throw (.protocol "response exceeds byte limit")

def readline : ReadM Bytes := do
  let line ← streamReadline 65537
  consumeResponseBytes line.length
  if 65536 < line.length ∨ ¬[13, 10] <:+ line then
    throw (.protocol "unterminated or oversized response")
  else pure (line.take (line.length - 2))

def readBulk (lengthLine : Bytes) : ReadM (Value String) :=
  match Decimal.pyInt lengthLine with
  | none => throw (.protocol "invalid bulk string length")
  | some length =>
    if length = -1 then pure .null
    else if length < 0 then throw (.protocol "invalid bulk string length")
    else if (maxBulkBytes : ℤ) < length then throw (.protocol "bulk string exceeds limit")
    else do
      consumeResponseBytes (length.toNat + 2)
      let value ← streamRead length.toNat
      if value.length ≠ length.toNat then throw (.protocol "incomplete bulk string response")
      else do
        let terminator ← streamRead 2
        if terminator ≠ [13, 10] then throw (.protocol "incomplete bulk string response")
        else pure (.bytes value)

def readArray (read : ReadM (Value String)) (line : Bytes) : ReadM (Value String) :=
  match Decimal.pyInt line with
  | none => throw (.protocol "invalid array response")
  | some count =>
    if count = -1 then pure .null
    else if count < 0 ∨ (maxArrayItems : ℤ) < count then throw (.protocol "invalid array length")
    else do
      let values ← readItems read count.toNat
      pure (.list values)

/-- What a line means behind its marker. -/
def readMarked (read : ReadM (Value String)) (marker : Bytes) (line : Bytes) : ReadM (Value String) :=
  if marker = [43] then Prog.fromExcept (decodeText decodeUtf8 line)
  else if marker = [45] then throw (.command line)
  else if marker = [58] then
    match Decimal.pyInt line with
    | none => throw (.protocol "invalid integer response")
    | some n => pure (.int n)
  else if marker = [36] then readBulk line
  else if marker = [42] then readArray read line
  else throw (.protocol "unknown RESP marker")

/-- `_read_response`; the argument is the number of levels that may still be opened,
129 at the top. -/
def readResponse : ℕ → ReadM (Value String)
  | 0 => throw (.protocol "RESP nesting exceeds limit")
  | levels + 1 => do
    let marker ← streamRead 1
    -- `EOFError`, which `command` turns into a connection error
    if marker = [] then throw .connection
    else do
      consumeResponseBytes 1
      let line ← readline
      readMarked (readResponse levels) marker line

inductive CommandPart
  | bytes (data : Bytes)
  | int (n : ℤ)
  | text (s : String)
deriving DecidableEq

/-- `_encode_part`. -/
def encodePart : CommandPart → Bytes
  | .bytes data => data
  | .int n => Decimal.intText n
  | .text s => utf8 s

/-- `command` on a connection: the payload goes out and a reply is read.  A protocol
error and the end of the stream close the connection, no other exception does. -/
def command (parts : List CommandPart) (conn : Connection) :
    Except Failure (Value String) × Connection :=
  if parts = [] then (.error (.usage "a command is required"), conn)
  else
    let outgoing := conn.outgoing ++ encodeParts (parts.map encodePart)
    match readResponse (maxResponseDepth + 1) ⟨conn.incoming, 0⟩ with
    | (.error (.protocol message), s) => (.error (.protocol message), ⟨s.stream, outgoing, false⟩)
    | (.error .connection, s) => (.error .connection, ⟨s.stream, outgoing, false⟩)
    | (result, s) => (result, ⟨s.stream, outgoing, true⟩)

/-! ## Reading what was written -/

theorem lineBytes_append (rest : Bytes) {n : ℕ} {text : Bytes} (h10 : 10 ∉ text) (hn : text.length + 2 ≤ n) :
    lineBytes n (text ++ 13 :: 10 :: rest) = text ++ [13, 10] := by
  induction text generalizing n with
  | nil =>
    obtain ⟨m, rfl⟩ : ∃ m, n = m + 2 := ⟨n - 2, by simp at hn; omega⟩
    simp [lineBytes]
  | cons b text ih =>
    obtain ⟨hb, htext⟩ : ¬10 = b ∧ 10 ∉ text := by simpa using h10
    obtain ⟨m, rfl⟩ : ∃ m, n = m + 1 := ⟨n - 1, by simp at hn; omega⟩
    have hm : text.length + 2 ≤ m := by
      simp only [List.length_cons] at hn
      omega
    simp only [List.cons_append, lineBytes, Ne.symm hb, if_false, ih htext hm]

theorem consumeResponseBytes_run {s : Reading} {count : ℕ} (h : s.budget + count ≤ maxResponseBytes) :
    consumeResponseBytes count s = (.ok (), { s with budget := s.budget + count }) := by
  unfold consumeResponseBytes
  simp only [Prog.run_bind, Prog.run_modify, Prog.run_get]
  rw [if_neg (by simpa using h)]
  rfl

theorem readline_run {text rest : Bytes} {budget : ℕ} (h10 : 10 ∉ text)
    (hlen : text.length + 2 ≤ 65536) (hbudget : budget + (text.length + 2) ≤ maxResponseBytes) :
    readline ⟨text ++ 13 :: 10 :: rest, budget⟩ =
      (.ok text, ⟨rest, budget + (text.length + 2)⟩) := by
  have hline := lineBytes_append rest h10 (show text.length + 2 ≤ 65537 by omega)
  have hread : streamReadline 65537 ⟨text ++ 13 :: 10 :: rest, budget⟩ =
      (.ok (text ++ [13, 10]), ⟨rest, budget⟩) := by
    simp [streamReadline, hline]
  unfold readline
  rw [Prog.run_bind_ok hread, Prog.run_bind_ok (consumeResponseBytes_run (by simpa using hbudget))]
  rw [if_neg (by simp; omega)]
  simp

/-- A framed line reaches the branch of its marker. -/
theorem readResponse_frame {levels : ℕ} {marker : UInt8} {text rest : Bytes} {budget : ℕ}
    (h10 : 10 ∉ text) (hlen : text.length + 2 ≤ 65536)
    (hbudget : budget + (frame marker text).length ≤ maxResponseBytes) :
    readResponse (levels + 1) ⟨frame marker text ++ rest, budget⟩ =
      readMarked (readResponse levels) [marker] text
        ⟨rest, budget + (frame marker text).length⟩ := by
  have hsize : (frame marker text).length = 1 + (text.length + 2) := by
    simp [frame]
    omega
  have hmarker : streamRead 1 ⟨frame marker text ++ rest, budget⟩ =
      (.ok [marker], ⟨text ++ 13 :: 10 :: rest, budget⟩) := by
    simp [streamRead, frame]
  rw [hsize] at hbudget ⊢
  have hcount : consumeResponseBytes 1 ⟨text ++ 13 :: 10 :: rest, budget⟩ =
      (.ok (), ⟨text ++ 13 :: 10 :: rest, budget + 1⟩) :=
    consumeResponseBytes_run (by dsimp only; omega)
  conv_lhs => unfold readResponse
  rw [Prog.run_bind_ok hmarker, if_neg (by simp), Prog.run_bind_ok hcount,
    Prog.run_bind_ok (readline_run h10 hlen (by omega)), Nat.add_assoc]

/-- The limits of the client on lines and numbers. -/
def limits : Limits where
  line := 65536
  number := fun n => (Decimal.natText n.natAbs).length ≤ Decimal.maxStrDigits

/-- A number is a short line without a line feed. -/
theorem signedText_line (plus : Bool) {n : ℤ} (h : limits.number n) :
    10 ∉ Decimal.signedText plus n ∧ (Decimal.signedText plus n).length + 2 ≤ 65536 := by
  constructor
  · intro h10
    rcases Decimal.signedText_bytes h10 with h | h | h <;> revert h <;> decide
  · have hlen : (Decimal.signedText plus n).length ≤ (Decimal.natText n.natAbs).length + 1 :=
      Decimal.length_signedText_le plus n
    have hmax : (Decimal.natText n.natAbs).length ≤ 4300 := h
    omega

theorem natText_line {n : ℕ} (h : n < 10 ^ 20) :
    10 ∉ Decimal.natText n ∧ (Decimal.natText n).length + 2 ≤ 65536 ∧
      Decimal.pyInt (Decimal.natText n) = some (n : ℤ) := by
  have hlen : (Decimal.natText n).length ≤ 20 := Decimal.length_natText_le (by decide) h
  refine ⟨?_, by omega, Decimal.pyInt_natText (hlen.trans (by decide))⟩
  intro h10
  have := Decimal.natText_isDigit h10
  revert this
  decide

/-- The length line of a bulk string is followed by the string and a line end. -/
theorem readBulk_run {data rest : Bytes} {budget : ℕ} (hdata : data.length ≤ maxBulkBytes)
    (hbudget : budget + (data.length + 2) ≤ maxResponseBytes) :
    readBulk (Decimal.natText data.length) ⟨data ++ 13 :: 10 :: rest, budget⟩ =
      (.ok (.bytes data), ⟨rest, budget + (data.length + 2)⟩) := by
  have hint := (natText_line (n := data.length) (by unfold maxBulkBytes at hdata; omega)).2.2
  have hcount : consumeResponseBytes (data.length + 2) ⟨data ++ 13 :: 10 :: rest, budget⟩ =
      (.ok (), ⟨data ++ 13 :: 10 :: rest, budget + (data.length + 2)⟩) :=
    consumeResponseBytes_run hbudget
  have hvalue : ∀ b, streamRead data.length ⟨data ++ 13 :: 10 :: rest, b⟩ =
      (.ok data, ⟨13 :: 10 :: rest, b⟩) := by
    intro b
    simp [streamRead]
  unfold readBulk
  rw [hint]
  simp only [Int.toNat_natCast]
  rw [if_neg (by omega), if_neg (by omega), if_neg (by omega), Prog.run_bind_ok hcount,
    Prog.run_bind_ok (hvalue _), if_neg (by simp)]
  rfl

theorem readArray_run {read : ReadM (Value String)} {items : List Reply}
    (hitems : items.length ≤ maxArrayItems) (h : ∀ r ∈ items, Reads decodeUtf8 read r) (rest : Bytes) {budget : ℕ}
    (hbudget : budget + (encodeItems items).length ≤ maxResponseBytes) :
    ∃ budget' ≤ budget + (encodeItems items).length,
      readArray read (Decimal.natText items.length) ⟨encodeItems items ++ rest, budget⟩ =
        ((outcomeItems decodeUtf8 items).map .list,
          ⟨leftItems decodeUtf8 items ++ rest, budget'⟩) := by
  have hint := (natText_line (n := items.length) (by unfold maxArrayItems at hitems; omega)).2.2
  obtain ⟨budget', hle, hrun⟩ := readItems_run h rest hbudget
  refine ⟨budget', hle, ?_⟩
  unfold readArray
  rw [hint]
  simp only [Int.toNat_natCast]
  rw [if_neg (by omega), if_neg (by omega)]
  cases ho : outcomeItems decodeUtf8 items with
  | error e =>
    rw [ho] at hrun
    rw [Prog.run_bind_error hrun]
    rfl
  | ok vs =>
    rw [ho] at hrun
    rw [Prog.run_bind_ok hrun]
    rfl

theorem readResponse_array {levels : ℕ} {items : List Reply} (hitems : items.length ≤ maxArrayItems)
    (h : ∀ r ∈ items, Reads decodeUtf8 (readResponse levels) r) :
    Reads decodeUtf8 (readResponse (levels + 1)) (.array items) := by
  intro rest budget hbudget
  obtain ⟨h10, hlen, -⟩ := natText_line (n := items.length) (by unfold maxArrayItems at hitems; omega)
  simp only [Reply.encode, Reply.outcome, Reply.left, List.length_append] at hbudget ⊢
  obtain ⟨budget', hle, hrun⟩ := readArray_run hitems h rest
    (show budget + (frame 42 (Decimal.natText items.length)).length + (encodeItems items).length ≤
      maxResponseBytes by omega)
  refine ⟨budget', by omega, ?_⟩
  rw [List.append_assoc, readResponse_frame h10 hlen (by omega)]
  exact hrun

theorem readResponse_reads {depth : ℕ} {r : Reply} (h : r.WellFormed limits depth) :
    Reads decodeUtf8 (readResponse (depth + 1)) r := by
  -- every reply starts with a framed line; `readMarked` decides what follows it
  induction h with
  | simple h =>
    intro rest budget hbudget
    refine ⟨_, le_rfl, ?_⟩
    simp only [Reply.encode, Reply.outcome, Reply.left] at hbudget ⊢
    rw [readResponse_frame h.2.1 h.2.2 hbudget]
    rfl
  | error h =>
    intro rest budget hbudget
    refine ⟨_, le_rfl, ?_⟩
    simp only [Reply.encode, Reply.outcome, Reply.left] at hbudget ⊢
    rw [readResponse_frame h.2.1 h.2.2 hbudget]
    rfl
  | int plus h =>
    intro rest budget hbudget
    refine ⟨_, le_rfl, ?_⟩
    simp only [Reply.encode, Reply.outcome, Reply.left] at hbudget ⊢
    obtain ⟨h10, hlen⟩ := signedText_line plus h
    rw [readResponse_frame h10 hlen hbudget]
    simp [readMarked, Decimal.pyInt_signedText plus h]
  | @bulk depth data h =>
    intro rest budget hbudget
    obtain ⟨h10, hlen, -⟩ := natText_line (n := data.length) (by unfold maxBulkBytes at h; omega)
    simp only [Reply.encode, Reply.outcome, Reply.left, List.length_append, List.length_cons,
      List.length_nil] at hbudget ⊢
    refine ⟨_, le_rfl, ?_⟩
    rw [List.append_assoc, readResponse_frame h10 hlen (by omega)]
    show readBulk (Decimal.natText data.length) ⟨data ++ [13, 10] ++ rest, _⟩ = _
    rw [List.append_assoc]
    refine (readBulk_run h (by omega)).trans ?_
    congr 2
    omega
  | nullBulk =>
    intro rest budget hbudget
    refine ⟨_, le_rfl, ?_⟩
    simp only [Reply.encode, Reply.outcome, Reply.left] at hbudget ⊢
    rw [readResponse_frame (by decide) (by decide) hbudget]
    rfl
  | nullArray =>
    intro rest budget hbudget
    refine ⟨_, le_rfl, ?_⟩
    simp only [Reply.encode, Reply.outcome, Reply.left] at hbudget ⊢
    rw [readResponse_frame (by decide) (by decide) hbudget]
    rfl
  | emptyArray => exact readResponse_array (by simp) (by simp)
  | array hlen h ih => exact readResponse_array hlen ih

/-- A call reads the reply up to its first element without a value and keeps the
connection open. -/
theorem command_run {parts : List CommandPart} (hparts : parts ≠ []) {r : Reply}
    (h : r.WellFormed limits maxResponseDepth) (hsize : r.encode.length ≤ maxResponseBytes)
    (rest outgoing : Bytes) :
    command parts ⟨r.encode ++ rest, outgoing, true⟩ =
      (r.outcome decodeUtf8, ⟨r.left decodeUtf8 ++ rest,
        outgoing ++ encodeParts (parts.map encodePart), true⟩) := by
  obtain ⟨budget, -, hrun⟩ := readResponse_reads h rest 0 (by omega)
  unfold command
  rw [if_neg hparts]
  dsimp only
  rw [hrun]
  cases ho : r.outcome decodeUtf8 with
  | ok v => rfl
  | error e =>
    rcases outcome_error r ho with ⟨line, rfl⟩ | ⟨rfl, -⟩
    · rfl
    · rfl

end MegaCache.Resp.Python
