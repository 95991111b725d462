import MegaCache.Resp.PythonClient

/-!
# The RESP server

`_read_request` and `_encode` of the server's handler against the Python client: what
the client sends is read back as the arguments it was made from, and what the server
answers is read back as the value it encoded.
-/

namespace MegaCache.Resp.Server

/-- `RespProtocolError` with its message. -/
abbrev RequestM := Prog Bytes String

/-- `rfile.read(count)`. -/
def fileRead (count : ℕ) : RequestM Bytes := fun stream => (.ok (stream.take count), stream.drop count)

/-- `rfile.readline(limit)`. -/
def fileReadline (limit : ℕ) : RequestM Bytes := fun stream =>
  let line := Python.lineBytes limit stream
  (.ok line, stream.drop line.length)

def readline : RequestM Bytes := do
  let line ← fileReadline 65537
  if 65536 < line.length ∨ ¬[13, 10] <:+ line then throw "unterminated or oversized line"
  else pure (line.take (line.length - 2))

def parseInteger (value : Bytes) (field : String) : RequestM ℤ :=
  match Decimal.pyInt value with
  | none => throw ("invalid " ++ field)
  | some n => pure n

/-- `line.strip().split()`. -/
def splitWords (line : Bytes) : List Bytes :=
  (line.splitOnP Decimal.isSpace).filter (· ≠ [])

/-- One bulk string of a command; `total` counts the bytes of the strings before it. -/
def readArgument (maxBodyBytes total : ℕ) : RequestM Bytes := do
  let marker ← fileRead 1
  if marker ≠ [36] then throw "command arguments must be bulk strings"
  else do
    let line ← readline
    let length ← parseInteger line "bulk string length"
    if length < 0 ∨ (maxBodyBytes : ℤ) < length then throw "bulk string exceeds configured limit"
    else if maxBodyBytes < total + length.toNat then throw "command exceeds configured limit"
    else do
      let value ← fileRead length.toNat
      if value.length ≠ length.toNat then throw "incomplete bulk string"
      else do
        let terminator ← fileRead 2
        if terminator ≠ [13, 10] then throw "incomplete bulk string"
        else pure value

def readArguments (maxBodyBytes : ℕ) : ℕ → ℕ → RequestM (List Bytes)
  | 0, _ => pure []
  | n + 1, total => do
    let value ← readArgument maxBodyBytes total
    let values ← readArguments maxBodyBytes n (total + value.length)
    pure (value :: values)

/-- `_read_request`; `none` is the end of the stream. -/
def readRequest (maxBodyBytes : ℕ) : RequestM (Option (List Bytes)) := do
  let first ← fileRead 1
  if first = [] then pure none
  else if first ≠ [42] then do
    let line ← readline
    let parts := splitWords (first ++ line)
    if parts = [] then throw "empty inline command" else pure (some parts)
  else do
    let line ← readline
    let count ← parseInteger line "array length"
    if count ≤ 0 ∨ 1024 < count then throw "command must contain 1 to 1024 arguments"
    else do
      let parts ← readArguments maxBodyBytes count.toNat 0
      pure (some parts)

/-- `_read_request` in a loop of `n` rounds. -/
def readRequests (maxBodyBytes : ℕ) : ℕ → RequestM (List (Option (List Bytes)))
  | 0 => pure []
  | n + 1 => do
    let request ← readRequest maxBodyBytes
    let requests ← readRequests maxBodyBytes n
    pure (request :: requests)

mutual

/-- `_encode`. -/
def encodeValue : Value String → Bytes
  | .text s => frame 43 (utf8 s)
  | .null => frame 36 [45, 49]
  | .bytes data => frame 36 (Decimal.natText data.length) ++ (data ++ [13, 10])
  | .int n => frame 58 (Decimal.intText n)
  | .list items => frame 42 (Decimal.natText items.length) ++ encodeValues items

def encodeValues : List (Value String) → Bytes
  | [] => []
  | v :: rest => encodeValue v ++ encodeValues rest

end

/-! ## Requests -/

theorem readline_run {text rest : Bytes} (h10 : 10 ∉ text) (hlen : text.length + 2 ≤ 65536) :
    readline (text ++ 13 :: 10 :: rest) = (.ok text, rest) := by
  have hline := Python.lineBytes_append rest h10 (show text.length + 2 ≤ 65537 by omega)
  have hread : fileReadline 65537 (text ++ 13 :: 10 :: rest) = (.ok (text ++ [13, 10]), rest) := by
    simp [fileReadline, hline]
  unfold readline
  rw [Prog.run_bind_ok hread, if_neg (by simp; omega)]
  simp

theorem readArgument_run {maxBodyBytes total : ℕ} {part rest : Bytes} (hpart : part.length < 2 ^ 63)
    (htotal : total + part.length ≤ maxBodyBytes) :
    readArgument maxBodyBytes total
        (frame 36 (Decimal.natText part.length) ++ (part ++ [13, 10]) ++ rest) = (.ok part, rest) := by
  obtain ⟨h10, hlen, hint⟩ := Python.natText_line (n := part.length) (by omega)
  have hmarker : fileRead 1 (frame 36 (Decimal.natText part.length) ++ (part ++ [13, 10]) ++ rest) =
      (.ok [36], Decimal.natText part.length ++ 13 :: 10 :: (part ++ 13 :: 10 :: rest)) := by
    simp [fileRead, frame]
  have hparse : ∀ stream, parseInteger (Decimal.natText part.length) "bulk string length" stream =
      (.ok (part.length : ℤ), stream) := by
    intro stream
    simp [parseInteger, hint]
  have hvalue : fileRead part.length (part ++ 13 :: 10 :: rest) = (.ok part, 13 :: 10 :: rest) := by
    simp [fileRead]
  unfold readArgument
  rw [Prog.run_bind_ok hmarker, if_neg (by simp), Prog.run_bind_ok (readline_run h10 hlen),
    Prog.run_bind_ok (hparse _)]
  simp only [Int.toNat_natCast]
  rw [if_neg (by omega), if_neg (by omega), Prog.run_bind_ok hvalue, if_neg (by simp)]
  rfl

theorem readArguments_run (rest : Bytes) {maxBodyBytes total : ℕ} {parts : List Bytes}
    (hparts : ∀ part ∈ parts, part.length < 2 ^ 63)
    (htotal : total + (parts.map List.length).sum ≤ maxBodyBytes) :
    readArguments maxBodyBytes parts.length total
        ((parts.flatMap fun part => frame 36 (Decimal.natText part.length) ++ (part ++ [13, 10])) ++
          rest) = (.ok parts, rest) := by
  induction parts generalizing total with
  | nil => rfl
  | cons part parts ih =>
    simp only [List.map_cons, List.sum_cons] at htotal
    have hrest := ih (fun p hp => hparts p (List.mem_cons_of_mem part hp))
      (show total + part.length + (parts.map List.length).sum ≤ maxBodyBytes by omega)
    rw [List.flatMap_cons, List.length_cons, readArguments, List.append_assoc,
      Prog.run_bind_ok (readArgument_run (hparts part List.mem_cons_self) (by omega)),
      Prog.run_bind_ok hrest]
    rfl

/-- The server reads a command of the client back as its arguments. -/
theorem readRequest_run {maxBodyBytes : ℕ} {parts : List Bytes} {rest : Bytes}
    (hparts : ∀ part ∈ parts, part.length < 2 ^ 63) (hpos : 1 ≤ parts.length)
    (hcount : parts.length ≤ 1024) (htotal : (parts.map List.length).sum ≤ maxBodyBytes) :
    readRequest maxBodyBytes (encodeParts parts ++ rest) = (.ok (some parts), rest) := by
  obtain ⟨h10, hlen, hint⟩ := Python.natText_line (n := parts.length) (by omega)
  set body := parts.flatMap fun part =>
    frame 36 (Decimal.natText part.length) ++ (part ++ [13, 10]) with hbody
  have hfirst : fileRead 1 (encodeParts parts ++ rest) =
      (.ok [42], Decimal.natText parts.length ++ 13 :: 10 :: (body ++ rest)) := by
    simp [fileRead, encodeParts, frame, hbody]
  have hparse : ∀ stream, parseInteger (Decimal.natText parts.length) "array length" stream =
      (.ok (parts.length : ℤ), stream) := by
    intro stream
    simp [parseInteger, hint]
  have hargs := readArguments_run rest hparts
    (show 0 + (parts.map List.length).sum ≤ maxBodyBytes by omega)
  unfold readRequest
  rw [Prog.run_bind_ok hfirst, if_neg (by simp), if_neg (by simp),
    Prog.run_bind_ok (readline_run h10 hlen), Prog.run_bind_ok (hparse _), if_neg (by omega)]
  simp only [Int.toNat_natCast]
  rw [Prog.run_bind_ok hargs]
  rfl

/-! ## Responses -/

mutual

/-- The reply that the server sends for a value. -/
def toReply : Value String → Reply
  | .text s => .simple (utf8 s)
  | .null => .nullBulk
  | .bytes data => .bulk data
  | .int n => .int false n
  | .list items => .array (toReplies items)

def toReplies : List (Value String) → List Reply
  | [] => []
  | v :: rest => toReply v :: toReplies rest

end

theorem toReplies_length (items : List (Value String)) : (toReplies items).length = items.length := by
  induction items with
  | nil => rfl
  | cons v rest ih => simp [toReplies, ih]

mutual

theorem encode_toReply : ∀ v, (toReply v).encode = encodeValue v
  | .text s => by simp [toReply, Reply.encode, encodeValue]
  | .null => by simp [toReply, Reply.encode, encodeValue]
  | .bytes data => by simp [toReply, Reply.encode, encodeValue]
  | .int n => by simp [toReply, Reply.encode, encodeValue, Decimal.signedText]
  | .list items => by
    simp [toReply, Reply.encode, encodeValue, toReplies_length, encodeItems_toReplies items]

theorem encodeItems_toReplies : ∀ items, encodeItems (toReplies items) = encodeValues items
  | [] => by simp [toReplies, encodeItems, encodeValues]
  | v :: rest => by
    simp [toReplies, encodeItems, encodeValues, encode_toReply v, encodeItems_toReplies rest]

end

theorem decodeUtf8_utf8 (s : String) : Python.decodeUtf8 (utf8 s) = some s := by
  unfold Python.decodeUtf8 utf8 String.fromUTF8?
  rw [Array.toArray_toList]
  exact dif_pos s.isValidUTF8

mutual

/-- The value of the reply is the value it was made from. -/
theorem outcome_toReply : ∀ v, (toReply v).outcome Python.decodeUtf8 = .ok v
  | .text s => by simp [toReply, Reply.outcome, decodeText, decodeUtf8_utf8]
  | .null => by simp [toReply, Reply.outcome]
  | .bytes data => by simp [toReply, Reply.outcome]
  | .int n => by simp [toReply, Reply.outcome]
  | .list items => by
    simp [toReply, Reply.outcome, outcomeItems_toReplies items, Except.map]

theorem outcomeItems_toReplies :
    ∀ items, outcomeItems Python.decodeUtf8 (toReplies items) = .ok items
  | [] => by simp [toReplies, outcomeItems]
  | v :: rest => by
    simp [toReplies, outcomeItems, outcome_toReply v, outcomeItems_toReplies rest, Except.map]

end

/-- A value whose reply is well-formed and within the limits of the client. -/
def WithinLimits (v : Value String) : Prop :=
  (toReply v).WellFormed Python.limits maxResponseDepth ∧ (encodeValue v).length ≤ maxResponseBytes

/-- What the client sends is read back as the arguments, and what the server answers is
read back as the value, to the last byte. -/
theorem resp_round_trip (maxBodyBytes : ℕ) :
    (∀ commands : List (List Bytes),
      (∀ command ∈ commands, 1 ≤ command.length ∧ command.length ≤ 1024 ∧
        (command.map List.length).sum ≤ maxBodyBytes ∧ ∀ part ∈ command, part.length < 2 ^ 63) →
      readRequests maxBodyBytes (commands.length + 1)
          (commands.flatMap fun command =>
            encodeParts ((command.map Python.CommandPart.bytes).map Python.encodePart)) =
        (.ok (commands.map some ++ [none]), [])) ∧
    (∀ v : Value String, WithinLimits v → ∀ rest, ∃ budget,
      Python.readResponse (maxResponseDepth + 1) ⟨encodeValue v ++ rest, 0⟩ =
        (.ok v, ⟨rest, budget⟩)) := by
  constructor
  · intro commands h
    have hparts : ∀ command : List Bytes,
        (command.map Python.CommandPart.bytes).map Python.encodePart = command := by
      intro command
      simp [Function.comp_def, Python.encodePart]
    simp only [hparts]
    -- one command after the other, the end of the stream behind the last one
    induction commands with
    | nil => rfl
    | cons command rest ih =>
      obtain ⟨hpos, hcount, htotal, hlen⟩ := h command List.mem_cons_self
      have hrest := ih fun c hc => h c (List.mem_cons_of_mem command hc)
      rw [List.flatMap_cons, List.length_cons, readRequests,
        Prog.run_bind_ok (readRequest_run hlen hpos hcount htotal), Prog.run_bind_ok hrest]
      rfl
  · rintro v ⟨hwf, hsize⟩ rest
    obtain ⟨budget, -, hrun⟩ := Python.readResponse_reads hwf rest 0
      (by rw [encode_toReply]; omega)
    rw [encode_toReply, outcome_toReply, left_of_ok _ (outcome_toReply v)] at hrun
    exact ⟨budget, hrun⟩

/-- A pipeline of two commands with CR LF and an empty string among their arguments, and
a nested list. -/
theorem resp_round_trip_sample :
    readRequests 100 3 (encodeParts [[83, 69, 84], [13, 10, 36], []] ++ encodeParts [[42]]) =
        (.ok [some [[83, 69, 84], [13, 10, 36], []], some [[42]], none], []) ∧
      ∃ budget, Python.readResponse (maxResponseDepth + 1)
        ⟨encodeValue (.list [.text "OK", .list [.null, .bytes [13, 10]]]), 0⟩ =
          (.ok (.list [.text "OK", .list [.null, .bytes [13, 10]]]), ⟨[], budget⟩) := by
  obtain ⟨hrequests, hresponses⟩ := resp_round_trip 100
  refine ⟨hrequests [[[83, 69, 84], [13, 10, 36], []], [[42]]] (by decide), ?_⟩
  have hline : Python.limits.Line (utf8 "OK") := ⟨by decide, by decide, by decide⟩
  have hlimits : WithinLimits (.list [.text "OK", .list [.null, .bytes [13, 10]]]) := by
    refine ⟨.array (by decide) ?_, by decide⟩
    simp only [toReplies, toReply, List.forall_mem_cons]
    refine ⟨.simple hline, .array (by decide) ?_, by simp⟩
    simp only [List.forall_mem_cons]
    exact ⟨.nullBulk, .bulk (by decide), by simp⟩
  simpa using hresponses _ hlimits []

end MegaCache.Resp.Server
