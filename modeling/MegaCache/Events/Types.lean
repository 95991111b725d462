import MegaCache.Engine.Types
import MegaCache.Lib.Json
import MegaCache.Lib.TextFrames

/-!
# Freshness events: data

The records of `events.py`.  What the code takes from Python's library without depending
on how it works is collected in `Python`: `int` of a text, `str` of a float, and the
number of bytes of a JSON text.
-/

namespace MegaCache
namespace Events

/-- How a call of `events.py` can end besides returning.  `stopped` is the end of the
process, which no handler sees. -/
inductive Failure
  | eventError (message : String)
  | schemaCompatibilityError (message : String)
  | dependencyGraphError (message : String)
  | webhookAuthError (message : String)
  | eventBackpressure (message : String)
  | eventIngestionDisabled (message : String)
  | osError
  | storage (error : PyError)
  | stopped
deriving DecidableEq, Repr

/-- What `except Exception` catches. -/
def Failure.isException : Failure → Bool
  | .storage error => error.isException
  | .stopped => false
  | _ => true

/-- `str(exc)`. -/
def Failure.text : Failure → String
  | .eventError message | .schemaCompatibilityError message | .dependencyGraphError message
  | .webhookAuthError message | .eventBackpressure message
  | .eventIngestionDisabled message => message
  | .storage error => error.message
  | .osError => "[Errno 5] Input/output error"
  | .stopped => ""

/-- `if c: raise failure`. -/
def raiseIf (c : Prop) [Decidable c] (failure : Failure) : Except Failure Unit :=
  if c then throw failure else pure ()

theorem raiseIf_ok {c : Prop} [Decidable c] {failure : Failure} {u : Unit} :
    raiseIf c failure = .ok u ↔ ¬c := by
  unfold raiseIf
  split_ifs with h
  · simp [h, throw, throwThe, MonadExceptOf.throw]
  · simp [h, pure, Except.pure]

structure Python where
  int : String → Option ℤ
  floatStr : ℚ → String
  encodedSize : Json → ℕ

/-- `_IDENTIFIER`. -/
def identifierChar (ch : Char) : Bool := ch.isAlphanum || ch ∈ ['_', '.', ':', '-']

def isIdentifier (value : String) : Bool :=
  match value.toList with
  | [] => false
  | ch :: rest => ch.isAlphanum && rest.length ≤ 127 && rest.all identifierChar

def validateIdentifier (value field : String) : Except Failure Unit :=
  if isIdentifier value then pure ()
  else throw (.eventError (field ++ " must be a 1-128 character identifier"))

/-- `_length_framed_key`. -/
def lengthFramedKey (parts : List String) : String :=
  "v2|" ++ String.join (parts.map frame)

theorem lengthFramedKey_inj {a b a' b' : String}
    (h : lengthFramedKey [a, b] = lengthFramedKey [a', b']) : a = a' ∧ b = b' := by
  have hchars := congrArg String.toList h
  simp only [lengthFramedKey, List.map_cons, List.map_nil, String.join_cons, String.join_nil,
    String.toList_append, List.append_cancel_left_eq] at hchars
  obtain ⟨rfl, hrest⟩ := frame_append_inj hchars
  obtain ⟨rfl, -⟩ := frame_append_inj hrest
  exact ⟨rfl, rfl⟩

/-! ## Schemas -/

structure SchemaIdentifier where
  name : String
  version : ℕ
deriving DecidableEq, Repr

/-- `value.rsplit(ch, 1)` of a text that has `ch`. -/
def rsplit (ch : Char) (value : String) : Option (String × String) :=
  if ch ∈ value.toList then
    some (String.ofList ((value.toList.reverse.dropWhile (· ≠ ch)).drop 1).reverse,
      String.ofList (value.toList.reverse.takeWhile (· ≠ ch)).reverse)
  else none

def SchemaIdentifier.parse (py : Python) (value : String) : Except Failure SchemaIdentifier :=
  match rsplit '@' value with
  | none => throw (.eventError "schema_id must use name@version")
  | some (name, rawVersion) =>
    match py.int rawVersion with
    | none => throw (.eventError "schema version must be an integer")
    | some version => do
      validateIdentifier name "schema name"
      if version ≤ 0 then throw (.eventError "schema version must be positive")
      pure ⟨name, version.toNat⟩

def SchemaIdentifier.text (s : SchemaIdentifier) : String := s.name ++ "@" ++ toString s.version

structure ReaderRange where
  name : String
  minimumVersion : ℕ
  maximumVersion : ℕ
deriving DecidableEq, Repr

def ReaderRange.accepts (r : ReaderRange) (s : SchemaIdentifier) : Bool :=
  s.name = r.name && r.minimumVersion ≤ s.version && s.version ≤ r.maximumVersion

/-- A registered migration; what it returns need not be an object. -/
structure Migration where
  schemaName : String
  fromVersion : ℕ
  toVersion : ℕ
  migrate : List (String × Json) → Except Failure Json

/-- `SchemaRegistry`. -/
structure SchemaRegistry where
  readers : List ReaderRange
  migrations : List Migration

/-! ## Events -/

structure ChangeEvent where
  eventId : String
  source : String
  stream : String
  position : ℕ
  operation : String
  payload : List (String × Json)
  timestamp : ℚ
  schemaId : Option String
  cursor : Option String

def ChangeEvent.checkpointKey (event : ChangeEvent) : String :=
  lengthFramedKey [event.source, event.stream]

def optionalText : Option String → Json
  | none => .null
  | some text => .str text

def ChangeEvent.asDict (event : ChangeEvent) : Json :=
  .obj [("cursor", optionalText event.cursor), ("event_id", .str event.eventId),
    ("operation", .str event.operation), ("payload", .obj event.payload),
    ("position", .int event.position), ("schema_id", optionalText event.schemaId),
    ("source", .str event.source), ("stream", .str event.stream),
    ("timestamp", .float event.timestamp)]

inductive Outcome
  | processed
  | duplicate
  | replayed
  | deadLetter
deriving DecidableEq, Repr

structure EventResult where
  outcome : Outcome
  eventId : String
  checkpoint : ℕ
  invalidatedKeys : ℕ
  invalidatedTags : ℕ
  graphExpanded : ℕ
  graphTruncated : Bool
  error : Option String
deriving DecidableEq, Repr

/-! ## Rules -/

inductive MigrationPolicy
  | strict
  | rolling
  | dualWrite
deriving DecidableEq, Repr

structure VersionedNamespace where
  name : String
  writeVersion : ℕ
  readerMinimum : ℕ
  readerMaximum : ℕ
  migrationPolicy : MigrationPolicy
  versions : 0 < readerMinimum ∧ readerMinimum ≤ writeVersion ∧
    writeVersion ≤ readerMaximum ∧ readerMaximum - readerMinimum < 100

def VersionedNamespace.qualify (n : VersionedNamespace) (key : Key) (version : ℕ) : Key :=
  n.name ++ ":v" ++ toString version ++ ":" ++ key

def VersionedNamespace.invalidationKeys (n : VersionedNamespace) (key : Key) : List Key :=
  match n.migrationPolicy with
  | .strict => [n.qualify key n.writeVersion]
  | .rolling | .dualWrite =>
    (List.range' n.readerMinimum (n.readerMaximum + 1 - n.readerMinimum)).map (n.qualify key)

structure EventRule where
  name : String
  keyTemplates : List String
  tagTemplates : List String
  sources : List String
  streams : List String
  operations : List String
  schemaNames : List String
  namespaceName : Option String

/-- `DependencyGraph`, as built: the sorted dependents of each key and the bounds of a
traversal. -/
structure DependencyGraph where
  dependents : Key → List Key
  maxDepth : ℕ
  maxInvalidationNodes : ℕ

/-! ## Durable state -/

structure Checkpoint where
  source : String
  stream : String
  position : ℕ
  cursor : Option String
  eventId : String
  committedAt : ℚ
deriving DecidableEq, Repr

structure ReplayClaim where
  key : String
  expiresAt : ℚ
deriving DecidableEq, Repr

structure DeadLetter where
  event : ChangeEvent
  error : String
  attempts : ℕ
  firstFailedAt : ℚ
  lastFailedAt : ℚ
  retryAfter : ℚ
  retryable : Bool

structure State where
  checkpoints : OrderedDict String Checkpoint
  seen : List String
  replayTokens : List ReplayClaim
  deadLetters : List DeadLetter
  deadLetterDropped : ℕ

/-- `_empty_state`. -/
def State.empty : State := ⟨.empty, [], [], [], 0⟩

def Checkpoint.toJson (p : Checkpoint) : Json :=
  .obj [("committed_at", .float p.committedAt), ("cursor", optionalText p.cursor),
    ("event_id", .str p.eventId), ("position", .int p.position), ("source", .str p.source),
    ("stream", .str p.stream)]

def DeadLetter.toJson (d : DeadLetter) : Json :=
  .obj [("attempts", .int d.attempts), ("error", .str d.error), ("event", d.event.asDict),
    ("first_failed_at", .float d.firstFailedAt), ("last_failed_at", .float d.lastFailedAt),
    ("retry_after", .float d.retryAfter), ("retryable", .bool d.retryable)]

/-- The document that `_serialize` writes. -/
def State.toJson (s : State) : Json :=
  .obj [("checkpoints", .obj (s.checkpoints.toList.map fun p => (p.1, p.2.toJson))),
    ("dead_letter_dropped", .int s.deadLetterDropped),
    ("dead_letters", .arr (s.deadLetters.map DeadLetter.toJson)),
    ("replay_tokens", .arr (s.replayTokens.map fun claim =>
      .obj [("expires_at", .float claim.expiresAt), ("key", .str claim.key)])),
    ("seen", .arr (s.seen.map .str)),
    ("version", .int 2)]

/-- The bounds of an `AtomicCheckpointStore`. -/
structure Limits where
  maxSeenEvents : ℕ
  maxReplayTokens : ℕ
  maxDeadLetters : ℕ
  maxDeadLetterBytes : ℕ
  maxStreams : ℕ
  maxStateBytes : ℕ
  maxPayloadBytes : ℕ
  maxCursorBytes : ℕ
  maxErrorBytes : ℕ
  positive : 0 < maxSeenEvents ∧ 0 < maxReplayTokens ∧ 0 < maxDeadLetters ∧
    0 < maxDeadLetterBytes ∧ 0 < maxStreams ∧ 0 < maxStateBytes ∧ 0 < maxPayloadBytes ∧
    0 < maxCursorBytes ∧ 0 < maxErrorBytes

end Events
end MegaCache
