import MegaCache.Lib.Decimal
import MegaCache.Lib.Framing
import MegaCache.Lib.Prog

/-!
# RESP2 replies

The replies of a server as trees and as bytes, and what a blocking client that reads
one reply has to answer: the value, or the exception of the first element that is not
a value.  Where a client stops at such an element, `left` is what it has not read of
the reply.
-/

namespace MegaCache.Resp

abbrev Bytes := List UInt8

/-- The UTF-8 bytes of a text. -/
def utf8 (s : String) : Bytes := s.toUTF8.data.toList

inductive Reply
  | simple (text : Bytes)
  | error (text : Bytes)
  | int (plus : Bool) (n : ℤ)
  | bulk (data : Bytes)
  | nullBulk
  | nullArray
  | array (items : List Reply)

/-- A marker, a line and its end. -/
def frame (marker : UInt8) (line : Bytes) : Bytes := marker :: (line ++ [13, 10])

mutual

def Reply.encode : Reply → Bytes
  | .simple text => frame 43 text
  | .error text => frame 45 text
  | .int plus n => frame 58 (Decimal.signedText plus n)
  | .bulk data => frame 36 (Decimal.natText data.length) ++ (data ++ [13, 10])
  | .nullBulk => frame 36 [45, 49]
  | .nullArray => frame 42 [45, 49]
  | .array items => frame 42 (Decimal.natText items.length) ++ encodeItems items

def encodeItems : List Reply → Bytes
  | [] => []
  | r :: rest => r.encode ++ encodeItems rest

end

/-- The limits of a client on lines and numbers. -/
structure Limits where
  line : ℕ
  number : ℤ → Prop

def maxResponseBytes : ℕ := 16 * 1024 * 1024
def maxBulkBytes : ℕ := 16 * 1024 * 1024
def maxArrayItems : ℕ := 100000
def maxResponseDepth : ℕ := 128

/-- The line of a simple string or an error. -/
def Limits.Line (limits : Limits) (text : Bytes) : Prop :=
  13 ∉ text ∧ 10 ∉ text ∧ text.length + 2 ≤ limits.line

/-- A well-formed reply within the limits, its arrays nested at most `depth` deep. -/
inductive Reply.WellFormed (limits : Limits) : ℕ → Reply → Prop
  | simple {depth : ℕ} {text : Bytes} (h : limits.Line text) : WellFormed limits depth (.simple text)
  | error {depth : ℕ} {text : Bytes} (h : limits.Line text) : WellFormed limits depth (.error text)
  | int {depth : ℕ} (plus : Bool) {n : ℤ} (h : limits.number n) : WellFormed limits depth (.int plus n)
  | bulk {depth : ℕ} {data : Bytes} (h : data.length ≤ maxBulkBytes) :
      WellFormed limits depth (.bulk data)
  | nullBulk {depth : ℕ} : WellFormed limits depth .nullBulk
  | nullArray {depth : ℕ} : WellFormed limits depth .nullArray
  | emptyArray {depth : ℕ} : WellFormed limits depth (.array [])
  | array {depth : ℕ} {items : List Reply} (hlen : items.length ≤ maxArrayItems)
      (h : ∀ r ∈ items, WellFormed limits depth r) : WellFormed limits (depth + 1) (.array items)

/-- What a client makes of a reply, with `T` for the text of a simple string. -/
inductive Value (T : Type)
  | text (t : T)
  | int (n : ℤ)
  | bytes (data : Bytes)
  | null
  | list (items : List (Value T))

/-- What ends a call instead of a value.  A command error carries the line of the
server's error, of which message and code are parts. -/
inductive Failure
  | command (line : Bytes)
  | protocol (message : String)
  | connection
  | unicode
  | usage (message : String)
deriving DecidableEq, Repr

abbrev Connection := Framing.Connection UInt8

/-- The array of bulk strings that a client sends for a command. -/
def encodeParts (parts : List Bytes) : Bytes :=
  frame 42 (Decimal.natText parts.length) ++
    parts.flatMap fun part => frame 36 (Decimal.natText part.length) ++ (part ++ [13, 10])

section

variable {T : Type} (decode : Bytes → Option T)

/-- The text of a simple string, or the failure to decode it. -/
def decodeText (text : Bytes) : Except Failure (Value T) :=
  match decode text with
  | some t => .ok (.text t)
  | none => .error .unicode

mutual

/-- The value of a reply, or the failure at its first element without a value. -/
def Reply.outcome : Reply → Except Failure (Value T)
  | .simple text => decodeText decode text
  | .error text => .error (.command text)
  | .int _ n => .ok (.int n)
  | .bulk data => .ok (.bytes data)
  | .nullBulk => .ok .null
  | .nullArray => .ok .null
  | .array items => (outcomeItems items).map .list

def outcomeItems : List Reply → Except Failure (List (Value T))
  | [] => .ok []
  | r :: rest =>
    match r.outcome with
    | .error e => .error e
    | .ok v => (outcomeItems rest).map (v :: ·)

end

mutual

/-- The bytes of a reply behind its first element without a value. -/
def Reply.left : Reply → Bytes
  | .array items => leftItems items
  | _ => []

def leftItems : List Reply → Bytes
  | [] => []
  | r :: rest =>
    match r.outcome decode with
    | .error _ => r.left ++ encodeItems rest
    | .ok _ => leftItems rest

end

mutual

/-- No element without a value stands in front of another element of the reply. -/
def Reply.Aligned : Reply → Prop
  | .array items => AlignedItems items
  | _ => True

def AlignedItems : List Reply → Prop
  | [] => True
  | r :: rest => r.Aligned ∧ AlignedItems rest ∧ (rest ≠ [] → ∃ v, r.outcome decode = .ok v)

end

theorem encode_ne_nil (r : Reply) : r.encode ≠ [] := by
  cases r <;> simp [Reply.encode, frame]

theorem encodeItems_eq_nil {items : List Reply} : encodeItems items = [] ↔ items = [] := by
  cases items with
  | nil => simp [encodeItems]
  | cons r rest => simp [encodeItems, encode_ne_nil]

variable {decode}

mutual

/-- A reply with a value is read to its end. -/
theorem left_of_ok : ∀ (r : Reply) {v : Value T}, r.outcome decode = .ok v → r.left decode = []
  | .simple _, _, _ | .error _, _, _ | .int _ _, _, _ | .bulk _, _, _ | .nullBulk, _, _
  | .nullArray, _, _ => by simp [Reply.left]
  | .array items, v, h => by
    unfold Reply.outcome at h
    unfold Reply.left
    cases ho : outcomeItems decode items with
    | error e =>
      rw [ho] at h
      cases h
    | ok vs => exact leftItems_of_ok items ho

theorem leftItems_of_ok : ∀ (items : List Reply) {vs : List (Value T)},
    outcomeItems decode items = .ok vs → leftItems decode items = []
  | [], _, _ => by simp [leftItems]
  | r :: rest, vs, h => by
    unfold outcomeItems at h
    unfold leftItems
    cases ho : r.outcome decode with
    | error e =>
      rw [ho] at h
      cases h
    | ok v =>
      rw [ho] at h
      cases hrest : outcomeItems decode rest with
      | error e =>
        rw [hrest] at h
        cases h
      | ok vs => exact leftItems_of_ok rest hrest

end

mutual

/-- A client leaves nothing of a reply unread if and only if the reply is aligned. -/
theorem left_eq_nil : ∀ r : Reply, r.left decode = [] ↔ r.Aligned decode
  | .simple _ | .error _ | .int _ _ | .bulk _ | .nullBulk | .nullArray => by
    simp [Reply.left, Reply.Aligned]
  | .array items => by
    unfold Reply.left Reply.Aligned
    exact leftItems_eq_nil items

theorem leftItems_eq_nil : ∀ items : List Reply, leftItems decode items = [] ↔ AlignedItems decode items
  | [] => by simp [leftItems, AlignedItems]
  | r :: rest => by
    have hr := left_eq_nil r
    have hrest := leftItems_eq_nil rest
    unfold leftItems AlignedItems
    cases ho : r.outcome decode with
    | error e =>
      simp only [List.append_eq_nil_iff, hr, encodeItems_eq_nil]
      constructor
      · rintro ⟨hal, rfl⟩
        exact ⟨hal, by simp [AlignedItems], by simp⟩
      · rintro ⟨hal, -, hlast⟩
        refine ⟨hal, ?_⟩
        by_contra hne
        obtain ⟨v, hv⟩ := hlast hne
        cases hv
    | ok v =>
      simp only [hrest]
      constructor
      · intro h
        exact ⟨hr.mp (left_of_ok r ho), h, fun _ => ⟨v, rfl⟩⟩
      · rintro ⟨-, h, -⟩
        exact h

end

mutual

/-- A reply has no value because of an error of the server, or of text that cannot be
decoded. -/
theorem outcome_error : ∀ (r : Reply) {e : Failure}, r.outcome decode = .error e →
    (∃ line, e = .command line) ∨ e = .unicode ∧ ∃ text, decode text = none
  | .simple text, e, h => by
    unfold Reply.outcome decodeText at h
    split at h
    · cases h
    · rename_i hnone
      exact .inr ⟨(Except.error.inj h).symm, text, hnone⟩
  | .error text, e, h => .inl ⟨text, by simpa [Reply.outcome, eq_comm] using h⟩
  | .int _ _, _, h | .bulk _, _, h | .nullBulk, _, h | .nullArray, _, h => by
    simp [Reply.outcome] at h
  | .array items, e, h => by
    unfold Reply.outcome at h
    cases ho : outcomeItems decode items with
    | error e' =>
      rw [ho] at h
      obtain rfl := Except.error.inj h
      exact outcomeItems_error items ho
    | ok vs =>
      rw [ho] at h
      cases h

theorem outcomeItems_error : ∀ (items : List Reply) {e : Failure},
    outcomeItems decode items = .error e → (∃ line, e = .command line) ∨ e = .unicode ∧ ∃ text, decode text = none
  | [], _, h => by simp [outcomeItems] at h
  | r :: rest, e, h => by
    unfold outcomeItems at h
    cases ho : r.outcome decode with
    | error e' =>
      rw [ho] at h
      obtain rfl := Except.error.inj h
      exact outcome_error r ho
    | ok v =>
      rw [ho] at h
      cases hos : outcomeItems decode rest with
      | error e' =>
        rw [hos] at h
        obtain rfl := Except.error.inj h
        exact outcomeItems_error rest hos
      | ok vs =>
        rw [hos] at h
        cases h

end

end

/-! ## Readers -/

/-- The stream and the bytes that the current reply has used up. -/
structure Reading where
  stream : Bytes
  budget : ℕ
deriving DecidableEq

section

variable {T : Type} {decode : Bytes → Option T}

/-- The loop over the items of an array. -/
def readItems (read : Prog Reading Failure (Value T)) :
    ℕ → Prog Reading Failure (List (Value T))
  | 0 => pure []
  | n + 1 => do
    let value ← read
    let values ← readItems read n
    pure (value :: values)

/-- What a reader does with any reply that it may be given, whatever comes after it. -/
def Reads (decode : Bytes → Option T) (read : Prog Reading Failure (Value T)) (r : Reply) : Prop :=
  ∀ rest budget, budget + r.encode.length ≤ maxResponseBytes →
    ∃ budget' ≤ budget + r.encode.length,
      read ⟨r.encode ++ rest, budget⟩ =
        (r.outcome decode, ⟨r.left decode ++ rest, budget'⟩)

theorem readItems_run {read : Prog Reading Failure (Value T)} {items : List Reply}
    (h : ∀ r ∈ items, Reads decode read r) (rest : Bytes) {budget : ℕ}
    (hbudget : budget + (encodeItems items).length ≤ maxResponseBytes) :
    ∃ budget' ≤ budget + (encodeItems items).length,
      readItems read items.length ⟨encodeItems items ++ rest, budget⟩ =
        (outcomeItems decode items, ⟨leftItems decode items ++ rest, budget'⟩) := by
  induction items generalizing budget with
  | nil => exact ⟨budget, by simp, rfl⟩
  | cons r items ih =>
    simp only [encodeItems, List.length_append] at hbudget
    obtain ⟨b₁, hb₁, hr⟩ := h r List.mem_cons_self (encodeItems items ++ rest) budget (by omega)
    simp only [encodeItems, List.length_cons, readItems, outcomeItems, leftItems, List.append_assoc,
      List.length_append]
    cases ho : r.outcome decode with
    | error e =>
      rw [ho] at hr
      exact ⟨b₁, by omega, by rw [Prog.run_bind_error hr, List.append_assoc]⟩
    | ok v =>
      rw [ho, left_of_ok r ho] at hr
      obtain ⟨b₂, hb₂, hrest⟩ := ih (fun q hq => h q (List.mem_cons_of_mem r hq))
        (show b₁ + (encodeItems items).length ≤ maxResponseBytes by omega)
      refine ⟨b₂, by omega, ?_⟩
      rw [Prog.run_bind_ok hr]
      show (readItems read items.length >>= _) ⟨encodeItems items ++ rest, b₁⟩ = _
      cases hos : outcomeItems decode items with
      | error e =>
        rw [hos] at hrest
        rw [Prog.run_bind_error hrest]
        rfl
      | ok vs =>
        rw [hos] at hrest
        rw [Prog.run_bind_ok hrest]
        rfl

end
end MegaCache.Resp
