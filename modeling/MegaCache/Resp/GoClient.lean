import MegaCache.Resp.Reply

/-!
# The blocking Go client

`Client.commandLocked` with `readRESP`, `respReader.read` and `respReader.readLine`.
A line is read byte by byte up to its first CR LF, and each byte is counted before the
next one is read.
-/

namespace MegaCache.Resp.Go

abbrev ReadM := Prog Reading Failure

def consume (count : ℕ) : ReadM Unit := do
  modify fun s => { s with budget := s.budget + count }
  let s ← get
  if maxResponseBytes < s.budget then throw (.protocol "response exceeds byte limit")

/-- `reader.ReadByte()`. -/
def readByte : ReadM UInt8 := fun s =>
  match s.stream with
  | [] => (.error .connection, s)
  | b :: rest => (.ok b, { s with stream := rest })

/-- `io.ReadFull` into a slice of `count` bytes. -/
def readFull (count : ℕ) : ReadM Bytes := fun s =>
  if s.stream.length < count then (.error .connection, { s with stream := [] })
  else (.ok (s.stream.take count), { s with stream := s.stream.drop count })

/-- The loop of `readLine`; the number is what the line may still grow by. -/
def readLineLoop : ℕ → Bytes → ReadM Bytes
  | 0, _ => throw (.protocol "oversized RESP line")
  | n + 1, line => do
    let value ← readByte
    consume 1
    let line := line ++ [value]
    if [13, 10] <:+ line then pure (line.take (line.length - 2))
    else readLineLoop n line

def readLine : ReadM Bytes := readLineLoop 65537 []

def readBulk (line : Bytes) : ReadM (Value Bytes) :=
  match Decimal.atoi line with
  | none => throw (.protocol "invalid bulk length")
  | some length =>
    if length < -1 then throw (.protocol "invalid bulk length")
    else if length = -1 then pure .null
    else if (maxBulkBytes : ℤ) < length then throw (.protocol "bulk string exceeds limit")
    else do
      consume (length.toNat + 2)
      let value ← readFull length.toNat
      let terminator ← tryCatch (readFull 2)
        fun _ => throw (.protocol "invalid bulk terminator")
      if terminator ≠ [13, 10] then throw (.protocol "invalid bulk terminator")
      else pure (.bytes value)

def readArray (read : ReadM (Value Bytes)) (line : Bytes) : ReadM (Value Bytes) :=
  match Decimal.atoi line with
  | none => throw (.protocol "invalid array length")
  | some count =>
    if count < -1 ∨ (maxArrayItems : ℤ) < count then throw (.protocol "invalid array length")
    else if count = -1 then pure .null
    else do
      let values ← readItems read count.toNat
      pure (.list values)

/-- The switch over the marker. -/
def readMarked (read : ReadM (Value Bytes)) (marker : UInt8) (line : Bytes) : ReadM (Value Bytes) :=
  if marker = 43 then pure (.text line)
  else if marker = 45 then throw (.command line)
  else if marker = 58 then
    match Decimal.atoi line with
    | none => throw (.protocol "invalid integer")
    | some n => pure (.int n)
  else if marker = 36 then readBulk line
  else if marker = 42 then readArray read line
  else throw (.protocol "unknown RESP marker")

/-- `respReader.read`; the argument is the number of levels that may still be opened,
129 at the top. -/
def read : ℕ → ReadM (Value Bytes)
  | 0 => throw (.protocol "RESP nesting exceeds limit")
  | levels + 1 => do
    let marker ← readByte
    consume 1
    let line ← readLine
    readMarked (read levels) marker line

inductive CommandPart
  | bytes (data : Bytes)
  | text (s : String)
  | int (n : ℤ)

def encodePart : CommandPart → Bytes
  | .bytes data => data
  | .text s => utf8 s
  | .int n => Decimal.intText n

/-- `commandLocked`: every error but one of the server closes the connection. -/
def commandLocked (parts : List CommandPart) (conn : Connection) :
    Except Failure (Value Bytes) × Connection :=
  if parts.isEmpty then (.error (.usage "command is required"), conn)
  else
    let outgoing := conn.outgoing ++ encodeParts (parts.map encodePart)
    match read (maxResponseDepth + 1) ⟨conn.incoming, 0⟩ with
    | (.ok value, s) => (.ok value, ⟨s.stream, outgoing, true⟩)
    | (.error (.command line), s) => (.error (.command line), ⟨s.stream, outgoing, true⟩)
    | (.error e, s) => (.error e, ⟨s.stream, outgoing, false⟩)

/-! ## Reading what was written -/

theorem consume_run {s : Reading} {count : ℕ} (h : s.budget + count ≤ maxResponseBytes) :
    consume count s = (.ok (), { s with budget := s.budget + count }) := by
  unfold consume
  simp only [Prog.run_bind, Prog.run_modify, Prog.run_get]
  rw [if_neg (by simpa using h)]
  rfl

/-- One round of the loop. -/
theorem readLineLoop_cons {n : ℕ} {line rest : Bytes} {b : UInt8} {budget : ℕ}
    (hbudget : budget + 1 ≤ maxResponseBytes) :
    readLineLoop (n + 1) line ⟨b :: rest, budget⟩ =
      (if [13, 10] <:+ line ++ [b] then pure ((line ++ [b]).take ((line ++ [b]).length - 2))
        else readLineLoop n (line ++ [b])) ⟨rest, budget + 1⟩ := by
  have hbyte : readByte ⟨b :: rest, budget⟩ = (.ok b, ⟨rest, budget⟩) := rfl
  have hcount : consume 1 ⟨rest, budget⟩ = (.ok (), ⟨rest, budget + 1⟩) := consume_run hbudget
  conv_lhs => unfold readLineLoop
  rw [Prog.run_bind_ok hbyte, Prog.run_bind_ok hcount]

/-- A line does not end before its line feed. -/
theorem not_suffix_of_ne {line : Bytes} {b : UInt8} (hb : b ≠ 10) : ¬[13, 10] <:+ line ++ [b] := by
  rintro ⟨t, ht⟩
  rw [← List.singleton_append, ← List.append_assoc] at ht
  obtain ⟨-, hlast⟩ := List.append_inj' ht rfl
  exact hb (List.singleton_inj.mp hlast).symm

theorem readLineLoop_run {n : ℕ} {line text rest : Bytes} {budget : ℕ} (h10 : 10 ∉ text)
    (hn : text.length + 2 ≤ n) (hbudget : budget + (text.length + 2) ≤ maxResponseBytes) :
    readLineLoop n line ⟨text ++ 13 :: 10 :: rest, budget⟩ =
      (.ok (line ++ text), ⟨rest, budget + (text.length + 2)⟩) := by
  induction text generalizing n line budget with
  | nil =>
    obtain ⟨m, rfl⟩ : ∃ m, n = m + 2 := ⟨n - 2, by simp at hn; omega⟩
    have h₀ : budget + 2 ≤ maxResponseBytes := by simpa using hbudget
    rw [List.nil_append, readLineLoop_cons (by omega), if_neg (not_suffix_of_ne (by decide)),
      readLineLoop_cons (by omega), if_pos (by simp)]
    simp
  | cons b text ih =>
    obtain ⟨hb, htext⟩ : ¬10 = b ∧ 10 ∉ text := by simpa using h10
    obtain ⟨m, rfl⟩ : ∃ m, n = m + 1 := ⟨n - 1, by simp at hn; omega⟩
    simp only [List.length_cons] at hn hbudget ⊢
    rw [List.cons_append, readLineLoop_cons (by omega), if_neg (not_suffix_of_ne (Ne.symm hb)),
      ih htext (by omega) (by omega)]
    simp only [List.append_assoc, List.singleton_append, Prod.mk.injEq, Reading.mk.injEq, true_and]
    omega

/-- A framed line reaches the branch of its marker. -/
theorem read_frame {levels : ℕ} {marker : UInt8} {text rest : Bytes} {budget : ℕ}
    (h10 : 10 ∉ text) (hlen : text.length + 2 ≤ 65537)
    (hbudget : budget + (frame marker text).length ≤ maxResponseBytes) :
    read (levels + 1) ⟨frame marker text ++ rest, budget⟩ =
      readMarked (read levels) marker text ⟨rest, budget + (frame marker text).length⟩ := by
  have hsize : (frame marker text).length = 1 + (text.length + 2) := by
    simp [frame]
    omega
  have hmarker : readByte ⟨frame marker text ++ rest, budget⟩ =
      (.ok marker, ⟨text ++ 13 :: 10 :: rest, budget⟩) := by
    simp [readByte, frame]
  rw [hsize] at hbudget ⊢
  have hcount : consume 1 ⟨text ++ 13 :: 10 :: rest, budget⟩ =
      (.ok (), ⟨text ++ 13 :: 10 :: rest, budget + 1⟩) :=
    consume_run (by dsimp only; omega)
  have hline : readLine ⟨text ++ 13 :: 10 :: rest, budget + 1⟩ =
      (.ok text, ⟨rest, budget + 1 + (text.length + 2)⟩) :=
    readLineLoop_run h10 hlen (by omega)
  conv_lhs => unfold read
  rw [Prog.run_bind_ok hmarker, Prog.run_bind_ok hcount, Prog.run_bind_ok hline, Nat.add_assoc]

/-- The limits of the client on lines and numbers. -/
def limits : Limits where
  line := 65537
  number := Decimal.Int64

theorem signedText_line (plus : Bool) {n : ℤ} (h : Decimal.Int64 n) :
    10 ∉ Decimal.signedText plus n ∧ (Decimal.signedText plus n).length + 2 ≤ 65537 := by
  constructor
  · intro h10
    rcases Decimal.signedText_bytes h10 with h | h | h <;> revert h <;> decide
  · have hlen := Decimal.length_signedText_le plus n
    have hmax : (Decimal.natText n.natAbs).length ≤ 20 := by
      apply Decimal.length_natText_le (by decide)
      unfold Decimal.Int64 at h
      omega
    omega

theorem natText_line {n : ℕ} (h : n < 10 ^ 8) :
    10 ∉ Decimal.natText n ∧ (Decimal.natText n).length + 2 ≤ 65537 ∧
      Decimal.atoi (Decimal.natText n) = some (n : ℤ) := by
  have h64 : Decimal.Int64 n := by
    unfold Decimal.Int64
    omega
  have hline := signedText_line false h64
  exact ⟨hline.1, hline.2, Decimal.atoi_natText h64⟩

/-- The length line of a bulk string is followed by the string and a line end. -/
theorem readBulk_run {data rest : Bytes} {budget : ℕ} (hdata : data.length ≤ maxBulkBytes)
    (hbudget : budget + (data.length + 2) ≤ maxResponseBytes) :
    readBulk (Decimal.natText data.length) ⟨data ++ 13 :: 10 :: rest, budget⟩ =
      (.ok (.bytes data), ⟨rest, budget + (data.length + 2)⟩) := by
  have hint := (natText_line (n := data.length) (by unfold maxBulkBytes at hdata; omega)).2.2
  have hcount : consume (data.length + 2) ⟨data ++ 13 :: 10 :: rest, budget⟩ =
      (.ok (), ⟨data ++ 13 :: 10 :: rest, budget + (data.length + 2)⟩) :=
    consume_run hbudget
  have hvalue : ∀ b, readFull data.length ⟨data ++ 13 :: 10 :: rest, b⟩ =
      (.ok data, ⟨13 :: 10 :: rest, b⟩) := by
    intro b
    simp [readFull]
  have hend : ∀ b, (tryCatch (readFull 2) fun _ => throw (.protocol "invalid bulk terminator") :
      ReadM Bytes) ⟨13 :: 10 :: rest, b⟩ = (.ok [13, 10], ⟨rest, b⟩) := by
    intro b
    simp [tryCatch, tryCatchThe, MonadExceptOf.tryCatch, readFull]
  unfold readBulk
  rw [hint]
  simp only [Int.toNat_natCast]
  rw [if_neg (by omega), if_neg (by omega), if_neg (by omega), Prog.run_bind_ok hcount,
    Prog.run_bind_ok (hvalue _), Prog.run_bind_ok (hend _), if_neg (by simp)]
  rfl

theorem readArray_run {read : ReadM (Value Bytes)} {items : List Reply}
    (hitems : items.length ≤ maxArrayItems) (h : ∀ r ∈ items, Reads some read r) (rest : Bytes)
    {budget : ℕ} (hbudget : budget + (encodeItems items).length ≤ maxResponseBytes) :
    ∃ budget' ≤ budget + (encodeItems items).length,
      readArray read (Decimal.natText items.length) ⟨encodeItems items ++ rest, budget⟩ =
        ((outcomeItems some items).map .list, ⟨leftItems some items ++ rest, budget'⟩) := by
  have hint := (natText_line (n := items.length) (by unfold maxArrayItems at hitems; omega)).2.2
  obtain ⟨budget', hle, hrun⟩ := readItems_run h rest hbudget
  refine ⟨budget', hle, ?_⟩
  unfold readArray
  rw [hint]
  simp only [Int.toNat_natCast]
  rw [if_neg (by omega), if_neg (by omega)]
  cases ho : outcomeItems some items with
  | error e =>
    rw [ho] at hrun
    rw [Prog.run_bind_error hrun]
    rfl
  | ok vs =>
    rw [ho] at hrun
    rw [Prog.run_bind_ok hrun]
    rfl

theorem read_array {levels : ℕ} {items : List Reply} (hitems : items.length ≤ maxArrayItems)
    (h : ∀ r ∈ items, Reads some (read levels) r) : Reads some (read (levels + 1)) (.array items) := by
  intro rest budget hbudget
  obtain ⟨h10, hlen, -⟩ := natText_line (n := items.length) (by unfold maxArrayItems at hitems; omega)
  simp only [Reply.encode, Reply.outcome, Reply.left, List.length_append] at hbudget ⊢
  obtain ⟨budget', hle, hrun⟩ := readArray_run hitems h rest
    (show budget + (frame 42 (Decimal.natText items.length)).length + (encodeItems items).length ≤
      maxResponseBytes by omega)
  refine ⟨budget', by omega, ?_⟩
  rw [List.append_assoc, read_frame h10 hlen (by omega)]
  exact hrun

theorem read_reads {depth : ℕ} {r : Reply} (h : r.WellFormed limits depth) :
    Reads some (read (depth + 1)) r := by
  induction h with
  | simple h =>
    intro rest budget hbudget
    refine ⟨_, le_rfl, ?_⟩
    simp only [Reply.encode, Reply.outcome, Reply.left] at hbudget ⊢
    rw [read_frame h.2.1 h.2.2 hbudget]
    rfl
  | error h =>
    intro rest budget hbudget
    refine ⟨_, le_rfl, ?_⟩
    simp only [Reply.encode, Reply.outcome, Reply.left] at hbudget ⊢
    rw [read_frame h.2.1 h.2.2 hbudget]
    rfl
  | int plus h =>
    intro rest budget hbudget
    refine ⟨_, le_rfl, ?_⟩
    simp only [Reply.encode, Reply.outcome, Reply.left] at hbudget ⊢
    obtain ⟨h10, hlen⟩ := signedText_line plus h
    rw [read_frame h10 hlen hbudget]
    simp [readMarked, Decimal.atoi_signedText plus h]
  | @bulk depth data h =>
    intro rest budget hbudget
    obtain ⟨h10, hlen, -⟩ := natText_line (n := data.length) (by unfold maxBulkBytes at h; omega)
    simp only [Reply.encode, Reply.outcome, Reply.left, List.length_append, List.length_cons,
      List.length_nil] at hbudget ⊢
    refine ⟨_, le_rfl, ?_⟩
    rw [List.append_assoc, read_frame h10 hlen (by omega)]
    show readBulk (Decimal.natText data.length) ⟨data ++ [13, 10] ++ rest, _⟩ = _
    rw [List.append_assoc]
    refine (readBulk_run h (by omega)).trans ?_
    congr 2
    omega
  | nullBulk =>
    intro rest budget hbudget
    refine ⟨_, le_rfl, ?_⟩
    simp only [Reply.encode, Reply.outcome, Reply.left] at hbudget ⊢
    rw [read_frame (by decide) (by decide) hbudget]
    rfl
  | nullArray =>
    intro rest budget hbudget
    refine ⟨_, le_rfl, ?_⟩
    simp only [Reply.encode, Reply.outcome, Reply.left] at hbudget ⊢
    rw [read_frame (by decide) (by decide) hbudget]
    rfl
  | emptyArray => exact read_array (by simp) (by simp)
  | array hlen h ih => exact read_array hlen ih

/-- A call reads the reply up to its first element without a value and keeps the
connection open. -/
theorem commandLocked_run {parts : List CommandPart} (hparts : parts ≠ []) {r : Reply}
    (h : r.WellFormed limits maxResponseDepth) (hsize : r.encode.length ≤ maxResponseBytes)
    (rest outgoing : Bytes) :
    commandLocked parts ⟨r.encode ++ rest, outgoing, true⟩ =
      (r.outcome some, ⟨r.left some ++ rest,
        outgoing ++ encodeParts (parts.map encodePart), true⟩) := by
  obtain ⟨budget, -, hrun⟩ := read_reads h rest 0 (by omega)
  unfold commandLocked
  rw [if_neg (by simpa using hparts)]
  dsimp only
  rw [hrun]
  cases ho : r.outcome some with
  | ok v => rfl
  | error e =>
    rcases outcome_error r ho with ⟨line, rfl⟩ | ⟨-, text, hnone⟩
    · rfl
    · cases hnone

end MegaCache.Resp.Go
