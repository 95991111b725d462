import MegaCache.Lib.TextFrames
import MegaCache.Resp.Server
import Mathlib

/-!
# The requests of a connection

The loop of the server's handler over the bytes of a connection, and the grammar of its
requests: arrays of bulk strings and inline lines.  What `_read_request` reads is exactly
a grammar whose numbers are those of Python's `int`, with signs, white space and
underscores, and whose inline lines may begin with a line feed.  As long as the stream
does not use that freedom, the requests that are executed are those of the longest prefix
of the stream that is in the grammar with plain decimal numbers.
-/

namespace MegaCache.Resp.Server

/-! ## The handler -/

/-- What becomes of a request in `_execute` and `_encode`: the bytes of a response and
whether the connection is to be closed, a `RespCommandError`, or another exception. -/
inductive Execution
  | response (encoded : Bytes) (close : Bool)
  | commandError (message : String)
  | failure

/-- A handler on a connection.  What a request does may depend on everything that happened
before, so it is a function of the earlier requests. -/
structure Handler where
  maxBodyBytes : ℕ
  execute : List (List Bytes) → List Bytes → Execution
  isDraining : List (List Bytes) → Bool

/-- `_error`. -/
def errorReply (message : String) : Bytes :=
  let safe := message.map fun ch => if ch = '\r' ∨ ch = '\n' then ' ' else ch
  (if safe.startsWith "NOAUTH " || safe.startsWith "WRONGPASS " then utf8 "-" else utf8 "-ERR ") ++
    utf8 safe ++ [13, 10]

/-- What a handler does: it executes a request, or writes to the connection. -/
inductive Action
  | execute (request : List Bytes)
  | write (bytes : Bytes)

/-- `handle`, at most `fuel` rounds, after the requests `history`. -/
def Handler.handle (h : Handler) : ℕ → List (List Bytes) → Bytes → List Action
  | 0, _, _ => []
  | fuel + 1, history, stream =>
    match readRequest h.maxBodyBytes stream with
    | (.ok none, _) => []
    | (.error message, _) => [.write (errorReply ("Protocol error: " ++ message))]
    | (.ok (some request), rest) =>
      .execute request ::
        match h.execute history request with
        | .response encoded close =>
          .write encoded ::
            if close || h.isDraining (history ++ [request]) then []
            else h.handle fuel (history ++ [request]) rest
        | .commandError message =>
          .write (errorReply message) :: h.handle fuel (history ++ [request]) rest
        | .failure => [.write (errorReply "internal server error")]

/-- The whole connection.  Every request takes at least one byte. -/
def Handler.serve (h : Handler) (stream : Bytes) : List Action :=
  h.handle (stream.length + 1) [] stream

/-! ## The grammar -/

/-- What may stand on a line, which texts are numbers, and how an inline line begins. -/
structure Grammar where
  line : Bytes → Prop
  number : Bytes → Option ℤ
  first : UInt8 → Prop

/-- A non-empty text of decimal digits. -/
def digits (text : Bytes) : Option ℤ :=
  if text ≠ [] ∧ text.all Decimal.isDigit then some (Decimal.value text) else none

/-- RESP2 without limits. -/
def resp2 : Grammar := ⟨fun text => 10 ∉ text, digits, fun b => b ≠ 10⟩

/-- RESP2 with lines of at most 65536 bytes and numbers of at most 4300 digits. -/
def bounded : Grammar :=
  ⟨fun text => 10 ∉ text ∧ text.length + 2 ≤ 65536,
    fun text => if text.length ≤ Decimal.maxStrDigits then digits text else none, fun b => b ≠ 10⟩

/-- What the server reads. -/
def accepted : Grammar :=
  ⟨fun text => 10 ∉ text ∧ text.length + 2 ≤ 65536, Decimal.pyInt, fun _ => True⟩

namespace Grammar

/-- The bulk strings of an array. -/
inductive Arguments (g : Grammar) : List Bytes → Bytes → Prop
  | nil : Arguments g [] []
  | cons {text part : Bytes} {parts : List Bytes} {bytes : Bytes} (hline : g.line text)
      (hnumber : g.number text = some (part.length : ℤ)) (h : Arguments g parts bytes) :
      Arguments g (part :: parts) (36 :: text ++ 13 :: 10 :: (part ++ 13 :: 10 :: bytes))

/-- A request and its bytes. -/
inductive Request (g : Grammar) (maxBodyBytes : ℕ) : List Bytes → Bytes → Prop
  | inline {b : UInt8} {text : Bytes} (hb : b ≠ 42) (hfirst : g.first b) (hline : g.line text)
      (hwords : splitWords (b :: text) ≠ []) :
      Request g maxBodyBytes (splitWords (b :: text)) (b :: text ++ [13, 10])
  | array {text : Bytes} {parts : List Bytes} {bytes : Bytes} (hline : g.line text)
      (hnumber : g.number text = some (parts.length : ℤ)) (hpos : parts ≠ [])
      (hcount : parts.length ≤ 1024) (htotal : (parts.map List.length).sum ≤ maxBodyBytes)
      (h : Arguments g parts bytes) :
      Request g maxBodyBytes parts (42 :: text ++ 13 :: 10 :: bytes)

/-- A stream that begins with these requests, and what comes after them. -/
inductive Requests (g : Grammar) (maxBodyBytes : ℕ) : List (List Bytes) → Bytes → Bytes → Prop
  | nil (rest : Bytes) : Requests g maxBodyBytes [] rest rest
  | cons {request : List Bytes} {bytes : Bytes} {requests : List (List Bytes)} {stream rest : Bytes}
      (h : Request g maxBodyBytes request bytes) (hrest : Requests g maxBodyBytes requests stream rest) :
      Requests g maxBodyBytes (request :: requests) (bytes ++ stream) rest

/-- The stream begins with a request. -/
def Begins (g : Grammar) (maxBodyBytes : ℕ) (stream : Bytes) : Prop :=
  ∃ request bytes rest, stream = bytes ++ rest ∧ Request g maxBodyBytes request bytes

/-- The requests of the longest prefix that is in the grammar. -/
structure Longest (g : Grammar) (maxBodyBytes : ℕ) (requests : List (List Bytes)) (stream rest : Bytes) :
    Prop where
  requests : Requests g maxBodyBytes requests stream rest
  maximal : ¬g.Begins maxBodyBytes rest

end Grammar

/-! ## What is read -/

/-- What comes of a line is a part of the stream, and a line feed can only be its last byte. -/
theorem lineBytes_split (n : ℕ) (stream : Bytes) :
    Python.lineBytes n stream ++ stream.drop (Python.lineBytes n stream).length = stream ∧
      10 ∉ (Python.lineBytes n stream).dropLast := by
  induction n generalizing stream with
  | zero => simp [Python.lineBytes]
  | succ n ih =>
    cases stream with
    | nil => simp [Python.lineBytes]
    | cons b stream =>
      unfold Python.lineBytes
      split_ifs with hb
      · simp
      · obtain ⟨hsplit, hlast⟩ := ih stream
        refine ⟨by simpa using hsplit, ?_⟩
        cases hline : Python.lineBytes n stream with
        | nil => simp
        | cons c line =>
          rw [hline] at hlast
          rw [List.dropLast_cons_cons]
          simpa [Ne.symm hb] using hlast

theorem readline_ok {stream text rest : Bytes} :
    readline stream = (.ok text, rest) ↔
      stream = text ++ 13 :: 10 :: rest ∧ accepted.line text := by
  constructor
  · intro h
    obtain ⟨line, s, hread, h⟩ := Prog.bind_eq_ok.mp h
    obtain ⟨hsplit, hlast⟩ := lineBytes_split 65537 stream
    simp only [fileReadline, Prod.mk.injEq, Except.ok.injEq] at hread
    obtain ⟨hline, hs⟩ := hread
    rw [hline] at hsplit hlast hs
    split_ifs at h with hbad
    · cases h
    · obtain ⟨hlen, text', rfl⟩ : line.length ≤ 65536 ∧ [13, 10] <:+ line := by
        push Not at hbad
        exact hbad
      simp only [List.length_append, List.length_cons, List.length_nil] at h hlen
      simp only [Prog.run_pure, Prod.mk.injEq, Except.ok.injEq] at h
      obtain ⟨htext, rfl⟩ := h
      have htext' : text' = text := by
        simpa using htext
      subst htext'
      refine ⟨?_, ?_, by omega⟩
      · rw [← hs]
        simpa using hsplit.symm
      · intro h10
        apply hlast
        simp [List.dropLast_append_of_ne_nil, h10]
  · rintro ⟨rfl, h10, hlen⟩
    exact readline_run h10 hlen

theorem fileRead_ok {n : ℕ} {stream value rest : Bytes} :
    fileRead n stream = (.ok value, rest) ↔ stream.take n = value ∧ stream.drop n = rest := by
  simp [fileRead]

theorem parseInteger_ok {text : Bytes} {field : String} {n : ℤ} {stream rest : Bytes} :
    parseInteger text field stream = (.ok n, rest) ↔ Decimal.pyInt text = some n ∧ stream = rest := by
  unfold parseInteger
  cases Decimal.pyInt text with
  | none => simp
  | some k => simp

theorem readArgument_ok {maxBodyBytes total : ℕ} {stream part rest : Bytes} :
    readArgument maxBodyBytes total stream = (.ok part, rest) ↔
      ∃ text, accepted.line text ∧ Decimal.pyInt text = some (part.length : ℤ) ∧
        total + part.length ≤ maxBodyBytes ∧
        stream = 36 :: text ++ 13 :: 10 :: (part ++ 13 :: 10 :: rest) := by
  constructor
  · intro h
    obtain ⟨marker, s₁, hmarker, h⟩ := Prog.bind_eq_ok.mp h
    split_ifs at h with hdollar
    · cases h
    obtain ⟨text, s₂, hline, h⟩ := Prog.bind_eq_ok.mp h
    obtain ⟨length, s₃, hparse, h⟩ := Prog.bind_eq_ok.mp h
    split_ifs at h with hlimit htotal
    · cases h
    · cases h
    obtain ⟨value, s₄, hvalue, h⟩ := Prog.bind_eq_ok.mp h
    split_ifs at h with hshort
    · cases h
    obtain ⟨terminator, s₅, hend, h⟩ := Prog.bind_eq_ok.mp h
    split_ifs at h with hcrlf
    · cases h
    obtain ⟨htake, rfl⟩ := fileRead_ok.mp hmarker
    obtain ⟨hs₁, htext⟩ := readline_ok.mp hline
    obtain ⟨hint, rfl⟩ := parseInteger_ok.mp hparse
    obtain ⟨hvalue', rfl⟩ := fileRead_ok.mp hvalue
    obtain ⟨hend', rfl⟩ := fileRead_ok.mp hend
    simp only [Prog.run_pure, Prod.mk.injEq, Except.ok.injEq] at h
    obtain ⟨rfl, hrest⟩ := h
    push Not at hlimit hdollar hshort hcrlf
    have hlength : length = (value.length : ℤ) := by omega
    have hstream : stream = 36 :: stream.drop 1 := by
      rw [← List.take_append_drop 1 stream, htake, hdollar]
      simp
    have hs₂ : s₂ = value ++ 13 :: 10 :: rest := by
      rw [← List.take_append_drop length.toNat s₂, hvalue',
        ← List.take_append_drop 2 (s₂.drop length.toNat), hend', hcrlf, hrest]
      rfl
    refine ⟨text, htext, by rw [hint, hlength], by omega, ?_⟩
    rw [hstream, hs₁, hs₂]
    rfl
  · rintro ⟨text, htext, hint, htotal, rfl⟩
    have hmarker : fileRead 1 (36 :: text ++ 13 :: 10 :: (part ++ 13 :: 10 :: rest)) =
        (.ok [36], text ++ 13 :: 10 :: (part ++ 13 :: 10 :: rest)) := by
      simp [fileRead]
    have hvalue : fileRead part.length (part ++ 13 :: 10 :: rest) = (.ok part, 13 :: 10 :: rest) := by
      simp [fileRead]
    unfold readArgument
    rw [Prog.run_bind_ok hmarker, if_neg (by simp), Prog.run_bind_ok (readline_ok.mpr ⟨rfl, htext⟩),
      Prog.run_bind_ok (parseInteger_ok.mpr ⟨hint, rfl⟩)]
    simp only [Int.toNat_natCast]
    rw [if_neg (by omega), if_neg (by omega), Prog.run_bind_ok hvalue, if_neg (by simp)]
    rfl

theorem readArguments_ok {maxBodyBytes : ℕ} {rest : Bytes} {n : ℕ} :
    ∀ {parts : List Bytes} {total : ℕ} {stream : Bytes}, total ≤ maxBodyBytes →
      (readArguments maxBodyBytes n total stream = (.ok parts, rest) ↔
        n = parts.length ∧ total + (parts.map List.length).sum ≤ maxBodyBytes ∧
          ∃ bytes, stream = bytes ++ rest ∧ accepted.Arguments parts bytes) := by
  induction n with
  | zero =>
    intro parts total stream htotal
    constructor
    · intro h
      cases h
      exact ⟨rfl, by simpa using htotal, [], rfl, .nil⟩
    · rintro ⟨hlen, -, bytes, rfl, hargs⟩
      cases hargs with
      | nil => rfl
      | cons _ _ _ => simp at hlen
  | succ n ih =>
    intro parts total stream htotal
    constructor
    · intro h
      obtain ⟨part, s, hpart, h⟩ := Prog.bind_eq_ok.mp h
      obtain ⟨tail, s', htail, h⟩ := Prog.bind_eq_ok.mp h
      cases h
      obtain ⟨text, hline, hint, hle, rfl⟩ := readArgument_ok.mp hpart
      obtain ⟨hn, hsum, bytes, rfl, hargs⟩ := (ih hle).mp htail
      refine ⟨by rw [hn, List.length_cons], ?_, _, ?_, .cons hline hint hargs⟩
      · rw [List.map_cons, List.sum_cons, ← Nat.add_assoc]
        exact hsum
      · simp
    · rintro ⟨hlen, hsum, bytes, rfl, hargs⟩
      cases hargs with
      | nil => simp at hlen
      | @cons text part parts bytes hline hint hargs =>
        rw [List.map_cons, List.sum_cons, ← Nat.add_assoc] at hsum
        have hle : total + part.length ≤ maxBodyBytes := by omega
        have hpart : readArgument maxBodyBytes total
            (36 :: text ++ 13 :: 10 :: (part ++ 13 :: 10 :: bytes) ++ rest) =
              (.ok part, bytes ++ rest) := by
          refine readArgument_ok.mpr ⟨text, hline, hint, hle, ?_⟩
          simp
        have htail : readArguments maxBodyBytes n (total + part.length) (bytes ++ rest) =
            (.ok parts, rest) :=
          (ih hle).mpr ⟨by simpa using hlen, hsum, bytes, rfl, hargs⟩
        rw [readArguments, Prog.run_bind_ok hpart, Prog.run_bind_ok htail]
        rfl

/-- The server reads exactly the requests of its own grammar. -/
theorem readRequest_ok {maxBodyBytes : ℕ} {request : List Bytes} {stream rest : Bytes} :
    readRequest maxBodyBytes stream = (.ok (some request), rest) ↔
      ∃ bytes, stream = bytes ++ rest ∧ accepted.Request maxBodyBytes request bytes := by
  constructor
  · intro h
    obtain ⟨first, s₁, hfirst, h⟩ := Prog.bind_eq_ok.mp h
    obtain ⟨htake, rfl⟩ := fileRead_ok.mp hfirst
    split_ifs at h with hempty hstar
    · cases h
    · -- an inline line
      obtain ⟨text, s₂, hline, h⟩ := Prog.bind_eq_ok.mp h
      obtain ⟨hs₁, htext⟩ := readline_ok.mp hline
      split_ifs at h with hwords
      · cases h
      obtain ⟨rfl, rfl⟩ : splitWords (first ++ text) = request ∧ s₂ = rest := by
        simpa using h
      cases stream with
      | nil => exact absurd htake.symm hempty
      | cons b tail =>
        have htail : tail = text ++ 13 :: 10 :: s₂ := hs₁
        cases htake
        refine ⟨b :: text ++ [13, 10], by simp [htail], .inline ?_ trivial htext hwords⟩
        simpa using hstar
    · -- an array
      obtain ⟨text, s₂, hline, h⟩ := Prog.bind_eq_ok.mp h
      obtain ⟨count, s₃, hparse, h⟩ := Prog.bind_eq_ok.mp h
      split_ifs at h with hcount
      · cases h
      obtain ⟨parts, s₄, hargs, h⟩ := Prog.bind_eq_ok.mp h
      cases h
      obtain ⟨hs₁, htext⟩ := readline_ok.mp hline
      obtain ⟨hint, rfl⟩ := parseInteger_ok.mp hparse
      obtain ⟨hlen, hsum, bytes, rfl, hbulk⟩ := (readArguments_ok (Nat.zero_le _)).mp hargs
      push Not at hcount hstar
      have hn : count = (request.length : ℤ) := by omega
      have hstream : stream = 42 :: stream.drop 1 := by
        rw [← List.take_append_drop 1 stream, htake, hstar]
        simp
      refine ⟨42 :: text ++ 13 :: 10 :: bytes, ?_, .array htext (hint.trans (by rw [hn])) ?_
        (by omega) (by simpa using hsum) hbulk⟩
      · rw [hstream, hs₁]
        simp
      · rintro rfl
        simp only [List.length_nil] at hn
        omega
  · rintro ⟨bytes, rfl, hrequest⟩
    cases hrequest with
    | @inline b text hb _ hline hwords =>
      have hfirst : fileRead 1 (b :: text ++ [13, 10] ++ rest) = (.ok [b], text ++ 13 :: 10 :: rest) := by
        simp [fileRead]
      unfold readRequest
      rw [Prog.run_bind_ok hfirst, if_neg (by simp), if_pos (by simpa using hb),
        Prog.run_bind_ok (readline_ok.mpr ⟨rfl, hline⟩)]
      exact congrFun (if_neg hwords) _
    | @array text parts bytes hline hint hpos hcount htotal hargs =>
      have hfirst : fileRead 1 (42 :: text ++ 13 :: 10 :: bytes ++ rest) =
          (.ok [42], text ++ 13 :: 10 :: (bytes ++ rest)) := by
        simp [fileRead]
      have hlen : 0 < request.length := List.length_pos_of_ne_nil hpos
      have hparts : readArguments maxBodyBytes request.length 0 (bytes ++ rest) = (.ok request, rest) :=
        (readArguments_ok (Nat.zero_le _)).mpr ⟨rfl, by simpa using htotal, bytes, rfl, hargs⟩
      unfold readRequest
      rw [Prog.run_bind_ok hfirst, if_neg (by simp), if_neg (by simp),
        Prog.run_bind_ok (readline_ok.mpr ⟨rfl, hline⟩),
        Prog.run_bind_ok (parseInteger_ok.mpr ⟨hint, rfl⟩), if_neg (by omega)]
      simp only [Int.toNat_natCast]
      rw [Prog.run_bind_ok hparts]
      rfl

theorem Grammar.Request.read {maxBodyBytes : ℕ} {request : List Bytes} {bytes : Bytes}
    (h : accepted.Request maxBodyBytes request bytes) (rest : Bytes) :
    readRequest maxBodyBytes (bytes ++ rest) = (.ok (some request), rest) :=
  readRequest_ok.mpr ⟨bytes, rfl, h⟩

/-- Only the end of the stream is read as no request. -/
theorem readRequest_end {maxBodyBytes : ℕ} {stream rest : Bytes} :
    readRequest maxBodyBytes stream = (.ok none, rest) ↔ stream = [] ∧ rest = [] := by
  constructor
  · intro h
    obtain ⟨first, s₁, hfirst, h⟩ := Prog.bind_eq_ok.mp h
    obtain ⟨htake, rfl⟩ := fileRead_ok.mp hfirst
    split_ifs at h with hempty hstar
    · have hstream : stream = [] := by
        simpa using htake.trans hempty
      cases h
      exact ⟨hstream, by rw [hstream]; rfl⟩
    · obtain ⟨text, s₂, -, h⟩ := Prog.bind_eq_ok.mp h
      split_ifs at h <;> cases h
    · obtain ⟨text, s₂, -, h⟩ := Prog.bind_eq_ok.mp h
      obtain ⟨count, s₃, -, h⟩ := Prog.bind_eq_ok.mp h
      split_ifs at h
      · cases h
      · obtain ⟨parts, s₄, -, h⟩ := Prog.bind_eq_ok.mp h
        cases h
  · rintro ⟨rfl, rfl⟩
    rfl

/-! ## The plain grammar is read -/

namespace Grammar

/-- Every line, number and first byte of `g` is one of `g'`. -/
structure Le (g g' : Grammar) : Prop where
  line : ∀ {text}, g.line text → g'.line text
  number : ∀ {text n}, g.number text = some n → g'.number text = some n
  first : ∀ {b}, g.first b → g'.first b

variable {g g' : Grammar} {maxBodyBytes : ℕ}

theorem Arguments.mono (hle : g.Le g') {parts : List Bytes} {bytes : Bytes}
    (h : g.Arguments parts bytes) : g'.Arguments parts bytes := by
  induction h with
  | nil => exact .nil
  | cons hline hnumber _ ih => exact .cons (hle.line hline) (hle.number hnumber) ih

theorem Request.mono (hle : g.Le g') {request : List Bytes} {bytes : Bytes}
    (h : g.Request maxBodyBytes request bytes) : g'.Request maxBodyBytes request bytes := by
  cases h with
  | inline hb hfirst hline hwords => exact .inline hb (hle.first hfirst) (hle.line hline) hwords
  | array hline hnumber hpos hcount htotal hargs =>
    exact .array (hle.line hline) (hle.number hnumber) hpos hcount htotal (hargs.mono hle)

theorem Requests.mono (hle : g.Le g') {requests : List (List Bytes)} {stream rest : Bytes}
    (h : g.Requests maxBodyBytes requests stream rest) :
    g'.Requests maxBodyBytes requests stream rest := by
  induction h with
  | nil rest => exact .nil rest
  | cons hrequest _ ih => exact .cons (hrequest.mono hle) ih

theorem Request.ne_nil {request : List Bytes} {bytes : Bytes}
    (h : g.Request maxBodyBytes request bytes) : bytes ≠ [] := by
  cases h <;> simp

/-- Every stream has a longest prefix in the grammar. -/
theorem exists_longest (g : Grammar) (maxBodyBytes : ℕ) (stream : Bytes) :
    ∃ requests rest, g.Longest maxBodyBytes requests stream rest := by
  induction hn : stream.length using Nat.strong_induction_on generalizing stream with
  | _ n ih =>
    by_cases hbegins : g.Begins maxBodyBytes stream
    · obtain ⟨request, bytes, tail, rfl, hrequest⟩ := hbegins
      have hpos : 0 < bytes.length := List.length_pos_of_ne_nil hrequest.ne_nil
      rw [List.length_append] at hn
      obtain ⟨requests, rest, hlongest⟩ := ih tail.length (by omega) tail rfl
      exact ⟨request :: requests, rest, .cons hrequest hlongest.requests, hlongest.maximal⟩
    · exact ⟨[], stream, .nil stream, hbegins⟩

end Grammar

/-- `int` of plain digits. -/
theorem pyInt_digits {text : Bytes} (hne : text ≠ []) (hall : text.all Decimal.isDigit = true) :
    Decimal.pyInt text =
      if text.length ≤ Decimal.maxStrDigits then some (Decimal.value text : ℤ) else none := by
  have hdigit : ∀ b ∈ text, 48 ≤ b.toNat ∧ b.toNat ≤ 57 := by
    intro b hb
    simpa [Decimal.isDigit] using List.all_eq_true.mp hall b hb
  have hspace : ∀ l : Bytes, (∀ b ∈ l, 48 ≤ b.toNat) → l.dropWhile Decimal.isSpace = l := by
    intro l hl
    cases l with
    | nil => rfl
    | cons b rest =>
      have hb := hl b List.mem_cons_self
      have h32 : b ≠ 32 := by
        rintro rfl
        revert hb
        decide
      have hnot : Decimal.isSpace b = false := by
        simp only [Decimal.isSpace, h32, decide_false, Bool.false_or, Bool.and_eq_false_iff,
          decide_eq_false_iff_not]
        omega
      rw [List.dropWhile_cons_of_neg (by simp [hnot])]
  have hsplit : text.splitOnP (fun b => b = 95) = [text] := by
    apply List.splitOnP_eq_singleton
    intro b hb
    have := hdigit b hb
    apply decide_eq_false
    rintro rfl
    revert this
    decide
  have hread : Decimal.pyDigits text =
      if text.length ≤ Decimal.maxStrDigits then some (Decimal.value text) else none := by
    simp [Decimal.pyDigits, hsplit, hne, hall]
  unfold Decimal.pyInt
  rw [hspace _ fun b hb => (hdigit b hb).1,
    hspace _ fun b hb => (hdigit b (List.mem_reverse.mp hb)).1, List.reverse_reverse]
  cases text with
  | nil => exact absurd rfl hne
  | cons b rest =>
    have hb := hdigit b List.mem_cons_self
    have h45 : b ≠ 45 := by
      rintro rfl
      revert hb
      decide
    have h43 : b ≠ 43 := by
      rintro rfl
      revert hb
      decide
    simp only [Decimal.signed, h45, h43, if_false, hread]
    split_ifs <;> rfl

theorem bounded_le_accepted : bounded.Le accepted where
  line h := h
  number := by
    intro text n h
    simp only [bounded, digits] at h
    split_ifs at h with hlen htext
    have hread := pyInt_digits htext.1 htext.2
    rw [if_pos hlen] at hread
    exact hread.trans h
  first _ := trivial

/-- A request of the server's grammar is read wherever a stream begins with it. -/
theorem accepted_unique {maxBodyBytes : ℕ} {request request' : List Bytes} {bytes bytes' rest rest' : Bytes}
    (h : accepted.Request maxBodyBytes request bytes)
    (h' : accepted.Request maxBodyBytes request' bytes') (heq : bytes ++ rest = bytes' ++ rest') :
    request = request' ∧ bytes = bytes' ∧ rest = rest' := by
  have hread := h.read rest
  rw [heq, h'.read rest'] at hread
  simp only [Prod.mk.injEq, Except.ok.injEq, Option.some.injEq] at hread
  obtain ⟨hrequest, hrest⟩ := hread
  subst hrest
  exact ⟨hrequest.symm, List.append_cancel_right heq, rfl⟩

/-- The longest prefix in the plain grammar and its requests are unique. -/
theorem bounded_longest_unique {maxBodyBytes : ℕ} {requests requests' : List (List Bytes)}
    {stream rest rest' : Bytes} (h : bounded.Longest maxBodyBytes requests stream rest)
    (h' : bounded.Longest maxBodyBytes requests' stream rest') :
    requests = requests' ∧ rest = rest' := by
  obtain ⟨hr, hmax⟩ := h
  obtain ⟨hr', hmax'⟩ := h'
  induction hr generalizing requests' with
  | nil rest =>
    cases hr' with
    | nil => exact ⟨rfl, rfl⟩
    | cons hrequest _ => exact absurd ⟨_, _, _, rfl, hrequest⟩ hmax
  | @cons request bytes requests stream rest hrequest _ ih =>
    generalize hwhole : bytes ++ stream = whole at hr'
    cases hr' with
    | nil => exact absurd ⟨_, _, _, hwhole.symm, hrequest⟩ hmax'
    | @cons request' bytes' requests' stream' _ hrequest' hrest' =>
      obtain ⟨rfl, rfl, rfl⟩ := accepted_unique (hrequest.mono bounded_le_accepted)
        (hrequest'.mono bounded_le_accepted) hwhole
      obtain ⟨rfl, rfl⟩ := ih hmax hrest'
      exact ⟨rfl, rfl⟩

/-! ## A connection -/

namespace Handler

variable (h : Handler)

/-- The one reply to a request. -/
def reply (history : List (List Bytes)) (request : List Bytes) : Bytes :=
  match h.execute history request with
  | .response encoded _ => encoded
  | .commandError message => errorReply message
  | .failure => errorReply "internal server error"

/-- Whether the handler leaves the connection after the reply. -/
def closes (history : List (List Bytes)) (request : List Bytes) : Bool :=
  match h.execute history request with
  | .response _ close => close || h.isDraining (history ++ [request])
  | .commandError _ => false
  | .failure => true

/-- Requests executed and answered one after the other up to the first that closes the
connection, and then `tail`. -/
def session (history : List (List Bytes)) (tail : List Action) : List (List Bytes) → List Action
  | [] => tail
  | request :: requests =>
    .execute request :: .write (h.reply history request) ::
      if h.closes history request then [] else session (history ++ [request]) tail requests

variable {h}

theorem handle_request {fuel : ℕ} {history : List (List Bytes)} {request : List Bytes} {bytes rest : Bytes}
    (hrequest : accepted.Request h.maxBodyBytes request bytes) :
    h.handle (fuel + 1) history (bytes ++ rest) =
      .execute request :: .write (h.reply history request) ::
        if h.closes history request then [] else h.handle fuel (history ++ [request]) rest := by
  cases hx : h.execute history request with
  | response encoded close => simp [handle, hrequest.read rest, reply, closes, hx]
  | commandError message => simp [handle, hrequest.read rest, reply, closes, hx]
  | failure => simp [handle, hrequest.read rest, reply, closes, hx]

/-- What is handled after requests that the server reads, given more rounds than the
stream has bytes. -/
theorem handle_requests {requests : List (List Bytes)} {stream rest : Bytes}
    (hrequests : accepted.Requests h.maxBodyBytes requests stream rest) :
    ∀ (fuel : ℕ) (history : List (List Bytes)), stream.length < fuel →
      ∃ fuel', rest.length < fuel' ∧
        h.handle fuel history stream =
          h.session history (h.handle fuel' (history ++ requests) rest) requests := by
  induction hrequests with
  | nil rest =>
    intro fuel history hfuel
    exact ⟨fuel, hfuel, by simp [session]⟩
  | @cons request bytes requests stream rest hrequest _ ih =>
    intro fuel history hfuel
    have hpos : 0 < bytes.length := List.length_pos_of_ne_nil hrequest.ne_nil
    rw [List.length_append] at hfuel
    obtain ⟨n, rfl⟩ : ∃ n, fuel = n + 1 := ⟨fuel - 1, by omega⟩
    obtain ⟨fuel', hfuel', htail⟩ := ih n (history ++ [request]) (by omega)
    refine ⟨fuel', hfuel', ?_⟩
    rw [handle_request hrequest, htail, session]
    simp

/-- Where no request follows, the connection is at its end or gets one protocol error. -/
theorem handle_rest {fuel : ℕ} {history : List (List Bytes)} {rest : Bytes} (hfuel : rest.length < fuel)
    (hmax : ¬accepted.Begins h.maxBodyBytes rest) :
    (rest = [] ∧ h.handle fuel history rest = []) ∨
      (rest ≠ [] ∧ ∃ message, h.handle fuel history rest =
        [.write (errorReply ("Protocol error: " ++ message))]) := by
  obtain ⟨n, rfl⟩ : ∃ n, fuel = n + 1 := ⟨fuel - 1, by omega⟩
  rw [handle]
  split
  next s hread =>
    exact .inl ⟨(readRequest_end.mp hread).1, rfl⟩
  next message s hread =>
    refine .inr ⟨?_, message, rfl⟩
    rintro rfl
    cases hread
  next request s hread =>
    obtain ⟨bytes, rfl, hrequest⟩ := readRequest_ok.mp hread
    exact absurd ⟨request, bytes, s, rfl, hrequest⟩ hmax

end Handler

/-- The stream begins with a request that the server reads although it is not in the plain
grammar: a number has a sign, white space or underscores, or an inline line begins with a
line feed. -/
def Loose (maxBodyBytes : ℕ) (stream : Bytes) : Prop :=
  ∃ request bytes rest, stream = bytes ++ rest ∧ accepted.Request maxBodyBytes request bytes ∧
    ¬bounded.Request maxBodyBytes request bytes

/-- On every stream, the requests of the longest prefix in the plain grammar are executed
in order, each with one reply, up to the first that closes the connection.  Where what
follows does not begin with a loose request, nothing of it is executed: the connection is
at its end, or one protocol error is the last thing written. -/
theorem serve_longest (h : Handler) (stream : Bytes) :
    ∃ requests rest, bounded.Longest h.maxBodyBytes requests stream rest ∧
      (∀ requests' rest', bounded.Longest h.maxBodyBytes requests' stream rest' →
        requests' = requests ∧ rest' = rest) ∧
      ∃ tail, h.serve stream = h.session [] tail requests ∧
        (¬Loose h.maxBodyBytes rest →
          (rest = [] ∧ tail = []) ∨
            (rest ≠ [] ∧ ∃ message, tail = [.write (errorReply ("Protocol error: " ++ message))])) := by
  obtain ⟨requests, rest, hlongest⟩ := bounded.exists_longest h.maxBodyBytes stream
  have hread := hlongest.requests.mono bounded_le_accepted
  obtain ⟨fuel, hfuel, htrace⟩ := Handler.handle_requests hread _ [] (Nat.lt_succ_self _)
  refine ⟨requests, rest, hlongest, ?_, _, htrace, fun hloose => Handler.handle_rest hfuel ?_⟩
  · intro requests' rest' h'
    exact bounded_longest_unique h' hlongest
  · rintro ⟨request, bytes, tail, rfl, hrequest⟩
    by_cases hplain : bounded.Request h.maxBodyBytes request bytes
    · exact hlongest.maximal ⟨request, bytes, tail, rfl, hplain⟩
    · exact hloose ⟨request, bytes, tail, rfl, hrequest, hplain⟩

/-! ## Streams that are handled otherwise -/

/-- Requests executed and answered one after the other, whatever becomes of them. -/
def Handler.pipeline (h : Handler) (history : List (List Bytes)) (tail : List Action) :
    List (List Bytes) → List Action
  | [] => tail
  | request :: requests =>
    .execute request :: .write (h.reply history request) ::
      h.pipeline (history ++ [request]) tail requests

/-- The handling of a stream by RESP2 without limits on lines and numbers and without a
request that ends the connection. -/
def Handler.Unlimited (h : Handler) (stream : Bytes) : Prop :=
  ∀ requests rest, resp2.Longest h.maxBodyBytes requests stream rest →
    (rest = [] ∧ h.serve stream = h.pipeline [] [] requests) ∨
      (rest ≠ [] ∧ ∃ message, h.serve stream =
        h.pipeline [] [.write (errorReply ("Protocol error: " ++ message))] requests)

/-- A handler that answers `+OK` and closes the connection after `QUIT`. -/
def quitHandler : Handler where
  maxBodyBytes := 100000
  execute _ request := .response (utf8 "+OK\r\n") (request = [utf8 "QUIT"])
  isDraining _ := false

theorem longest_of_end {g : Grammar} {maxBodyBytes : ℕ} {requests : List (List Bytes)} {stream : Bytes}
    (h : g.Requests maxBodyBytes requests stream []) : g.Longest maxBodyBytes requests stream [] := by
  refine ⟨h, ?_⟩
  rintro ⟨request, bytes, rest, heq, hrequest⟩
  exact hrequest.ne_nil (List.append_eq_nil_iff.mp heq.symm).1

/-- A line of one word. -/
theorem splitWords_word {b : UInt8} {text : Bytes} (h : ∀ c ∈ b :: text, Decimal.isSpace c = false) :
    splitWords (b :: text) = [b :: text] := by
  unfold splitWords
  rw [List.splitOnP_eq_singleton h]
  simp

/-- An inline line of one word is a request. -/
theorem resp2_word {maxBodyBytes : ℕ} {b : UInt8} {text : Bytes} (hb : b ≠ 42)
    (h : ∀ c ∈ b :: text, Decimal.isSpace c = false) :
    resp2.Request maxBodyBytes [b :: text] (b :: text ++ [13, 10]) := by
  have h10 : ∀ c ∈ b :: text, c ≠ 10 := by
    rintro c hc rfl
    exact absurd (h 10 hc) (by decide)
  have hwords := splitWords_word h
  rw [← hwords]
  refine .inline hb (h10 b List.mem_cons_self) (fun hmem => h10 10 (List.mem_cons_of_mem _ hmem) rfl) ?_
  rw [hwords]
  simp

theorem Handler.length_pipeline (h : Handler) {tail : List Action} (requests : List (List Bytes)) :
    ∀ history, (h.pipeline history tail requests).length = 2 * requests.length + tail.length := by
  induction requests with
  | nil => simp [pipeline]
  | cons request requests ih =>
    intro history
    rw [pipeline, List.length_cons, List.length_cons, ih, List.length_cons]
    omega

/-- Nothing but one reply to each request and one protocol error is in an unlimited handling. -/
theorem Handler.Unlimited.length {h : Handler} {stream rest : Bytes} {requests : List (List Bytes)}
    (hunlimited : h.Unlimited stream) (hlongest : resp2.Longest h.maxBodyBytes requests stream rest) :
    (h.serve stream).length = 2 * requests.length + if rest = [] then 0 else 1 := by
  rcases hunlimited requests rest hlongest with ⟨hrest, hserve⟩ | ⟨hrest, message, hserve⟩
  · rw [hserve, length_pipeline, if_pos hrest]
    rfl
  · rw [hserve, length_pipeline, if_neg hrest]
    rfl

/-- A refused stream gets one reply. -/
theorem Handler.length_serve_refused {h : Handler} {stream : Bytes} (hne : stream ≠ [])
    (hmax : ¬accepted.Begins h.maxBodyBytes stream) : (h.serve stream).length = 1 := by
  rcases handle_rest (Nat.lt_succ_self _) hmax with ⟨hnil, -⟩ | ⟨-, message, hserve⟩
  · exact absurd hnil hne
  · rw [serve, hserve]
    rfl

/-- A line ends at its first line feed. -/
theorem line_unique {text text' rest rest' : Bytes} (h10 : 10 ∉ text) (h10' : 10 ∉ text')
    (h : text ++ 13 :: 10 :: rest = text' ++ 13 :: 10 :: rest') : text = text' := by
  have hcr (t : Bytes) (ht : 10 ∉ t) : 10 ∉ t ++ [13] := by
    simp [ht]
  have hparts : (text ++ [13]) ++ 10 :: rest = (text' ++ [13]) ++ 10 :: rest' := by
    simpa using h
  exact List.append_cancel_right (append_separator_inj (hcr text h10) (hcr text' h10') hparts).1

/-- An array begins with a line that is a number. -/
theorem not_begins_array {g : Grammar} {maxBodyBytes : ℕ} {text rest : Bytes}
    (hg : ∀ {t}, g.line t → 10 ∉ t) (h10 : 10 ∉ text) (hnumber : g.number text = none) :
    ¬g.Begins maxBodyBytes (42 :: (text ++ 13 :: 10 :: rest)) := by
  rintro ⟨request, bytes, tail, heq, hrequest⟩
  cases hrequest with
  | inline hb _ _ _ =>
    simp only [List.cons_append, List.cons.injEq] at heq
    exact hb heq.1.symm
  | @array text' parts bytes hline hint _ _ _ _ =>
    simp only [List.cons_append, List.cons.injEq, true_and, List.append_assoc] at heq
    rw [line_unique h10 (hg hline) heq, hint] at hnumber
    cases hnumber

/-- An inline line of one word. -/
def wordLine (n : ℕ) : Bytes := 65 :: List.replicate n 65 ++ [13, 10]

/-- `PING` as an array whose length has `n` zeros in front. -/
def zerosPing (n : ℕ) : Bytes :=
  42 :: ((List.replicate n 48 ++ [49]) ++ 13 :: 10 :: utf8 "$4\r\nPING\r\n")

/-- A word of more than 65534 bytes is not read. -/
theorem not_begins_long {maxBodyBytes n : ℕ} (hn : 65534 < n) :
    ¬accepted.Begins maxBodyBytes (wordLine n) := by
  rintro ⟨request, bytes, tail, heq, hrequest⟩
  unfold wordLine at heq
  cases hrequest with
  | @inline b text _ _ hline _ =>
    have htext : (List.replicate n 65 : Bytes) ++ 13 :: 10 :: [] = text ++ 13 :: 10 :: tail := by
      simp only [List.cons_append, List.cons.injEq, List.append_assoc] at heq
      simpa using heq.2
    have h10 : (10 : UInt8) ∉ List.replicate n 65 := by
      intro h
      exact absurd (List.eq_of_mem_replicate h) (by decide)
    have hlen := congrArg List.length (line_unique h10 hline.1 htext)
    have := hline.2
    rw [List.length_replicate] at hlen
    omega
  | array _ _ _ _ _ _ =>
    simp at heq

theorem long_line_refused {n : ℕ} (hn : 65534 < n) : ¬quitHandler.Unlimited (wordLine n) := by
  intro h
  have hspace : ∀ c ∈ (65 :: List.replicate n 65 : Bytes), Decimal.isSpace c = false := by
    intro c hc
    rcases List.mem_cons.mp hc with rfl | hc
    · rfl
    · rw [List.eq_of_mem_replicate hc]
      rfl
  have hlong : resp2.Requests 100000 [[65 :: List.replicate n 65]]
      (wordLine n) [] := by
    rw [← List.append_nil (wordLine n)]
    exact .cons (resp2_word (by decide) hspace) (.nil [])
  have hlen := h.length (longest_of_end hlong)
  rw [Handler.length_serve_refused (by simp [wordLine]) (not_begins_long hn)] at hlen
  simp at hlen

theorem long_number_refused {n : ℕ} (hn : Decimal.maxStrDigits ≤ n) :
    ¬quitHandler.Unlimited (zerosPing n) := by
  intro h
  have hall : (List.replicate n (48 : UInt8) ++ [49]).all Decimal.isDigit = true := by
    simp [Decimal.isDigit]
  have hvalue : Decimal.value (List.replicate n 48 ++ [49]) = 1 := by
    have hzeros : ∀ k, (List.replicate k (48 : UInt8)).foldl
        (fun n b => 10 * n + (b.toNat - 48)) 0 = 0 := by
      intro k
      induction k with
      | zero => rfl
      | succ k ih =>
        rw [List.replicate_succ, List.foldl_cons]
        exact ih
    rw [Decimal.value, List.foldl_append, hzeros]
    rfl
  have h10 : (10 : UInt8) ∉ List.replicate n 48 ++ [49] := by
    intro h10
    exact absurd (List.all_eq_true.mp hall 10 h10) (by decide)
  have hfour : digits (utf8 "4") = some ((utf8 "PING").length : ℤ) := by
    decide
  have h10four : 10 ∉ utf8 "4" := by
    decide
  have hping : resp2.Arguments [utf8 "PING"] (utf8 "$4\r\nPING\r\n") :=
    @Grammar.Arguments.cons resp2 (utf8 "4") (utf8 "PING") [] [] h10four hfour .nil
  have hrequest : resp2.Request 100000 [utf8 "PING"]
      (42 :: (List.replicate n 48 ++ [49]) ++ 13 :: 10 :: utf8 "$4\r\nPING\r\n") := by
    refine .array h10 ?_ (by simp) (by decide) (by decide) hping
    show digits _ = _
    rw [digits, if_pos ⟨by simp, hall⟩, hvalue]
    rfl
  have hrequests := Grammar.Requests.cons hrequest (.nil [])
  rw [List.append_nil] at hrequests
  have hlen := h.length (longest_of_end hrequests)
  have hnumber : accepted.number (List.replicate n 48 ++ [49]) = none := by
    refine (pyInt_digits (by simp) hall).trans (if_neg ?_)
    rw [List.length_append, List.length_replicate, List.length_singleton]
    omega
  have hrefused : ¬accepted.Begins 100000 (zerosPing n) :=
    not_begins_array (fun h => h.1) h10 hnumber
  rw [Handler.length_serve_refused (by simp [zerosPing]) hrefused] at hlen
  simp at hlen

theorem sign_read : ¬quitHandler.Unlimited (utf8 "*+1\r\n$4\r\nPING\r\n") := by
  intro h
  have hnot : ¬resp2.Begins 100000 (42 :: (utf8 "+1" ++ 13 :: 10 :: utf8 "$4\r\nPING\r\n")) :=
    not_begins_array (fun h => h) (by decide) (by decide)
  have hlen := h.length ⟨.nil _, hnot⟩
  revert hlen
  decide

theorem quit_closes : ¬quitHandler.Unlimited (utf8 "QUIT\r\nPING\r\n") := by
  intro h
  have hquit : resp2.Request 100000 [[81, 85, 73, 84]] ([81, 85, 73, 84] ++ [13, 10]) :=
    resp2_word (by decide) (by decide +kernel)
  have hping : resp2.Request 100000 [[80, 73, 78, 71]] ([80, 73, 78, 71] ++ [13, 10]) :=
    resp2_word (by decide) (by decide +kernel)
  have hlen := h.length (longest_of_end (.cons hquit (.cons hping (.nil []))))
  revert hlen
  decide

/-- After `QUIT` nothing is executed; a line of more than 65536 bytes and a number of more
than 4300 digits are refused; and a number with a sign is read. -/
theorem serve_not_unlimited :
    ¬quitHandler.Unlimited (utf8 "QUIT\r\nPING\r\n") ∧
      ¬quitHandler.Unlimited (wordLine 65535) ∧ ¬quitHandler.Unlimited (zerosPing 4300) ∧
      ¬quitHandler.Unlimited (utf8 "*+1\r\n$4\r\nPING\r\n") :=
  have hline : 65534 < 65535 := by
    norm_num
  have hnumber : Decimal.maxStrDigits ≤ 4300 := by
    norm_num [Decimal.maxStrDigits]
  ⟨quit_closes, long_line_refused hline, long_number_refused hnumber, sign_read⟩

end MegaCache.Resp.Server
