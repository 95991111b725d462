import MegaCache.Events.Store
import MegaCache.Lib.Decimal

/-!
# Ingestion, retries and webhooks

`EventIngestor`, `WebhookAuthenticator` and `EventAutomation` as programs over the world.
-/

namespace MegaCache
namespace Events

open Prog

variable {V : Type}

namespace Ingestor

variable (g : Ingestor V)

/-- A storage call that counts what it removed, made if there is something to remove. -/
def removeAll (items : List String) (call : EngineM V ℕ) : EventM V ℕ :=
  if items = [] then pure 0 else g.storageCall call

/-- `_apply`. -/
def applyEvent (event : ChangeEvent) : EventM V EventResult := do
  let closure ← fromExcept (g.closureOf event)
  let invalidatedKeys ← g.removeAll closure.keys (Engine.deleteMany closure.keys)
  let invalidatedTags ← g.removeAll closure.tags (Engine.invalidateTags closure.tags)
  pure ⟨.processed, event.eventId, event.position, invalidatedKeys, invalidatedTags,
    closure.keys.length - closure.seeds.length, false, none⟩

def prepareAndApply (event : ChangeEvent) : EventM V EventResult := do
  let prepared ← fromExcept (g.schemas.prepare g.py event)
  g.applyEvent prepared

/-- `_result`. -/
def result (outcome : Outcome) (event : ChangeEvent) (error : Option String) :
    EventM V EventResult := do
  let w ← get
  pure ⟨outcome, event.eventId,
    ((w.memory.checkpoints.get? event.checkpointKey).map (·.position)).getD event.position,
    0, 0, 0, false, error⟩

def disabledMessage : String := "event ingestion is disabled because no rules are configured"

/-- The handlers of `ingest`: what is raised on, and what sends the event to the queue. -/
def isRejection : Failure → Bool
  | .dependencyGraphError _ | .eventBackpressure _ => true
  | failure => !failure.isException

/-- The `try` of `ingest`: the result, and whether the event was applied and not queued. -/
def applyOrQueue (event : ChangeEvent) : EventM V (EventResult × Bool) :=
  tryCatch
    (do
      let r ← g.prepareAndApply event
      pure (r, true))
    fun failure =>
      if isRejection failure then throw failure
      else do
        g.deadLetter event failure.text
        let r ← result .deadLetter event (some failure.text)
        pure (r, false)

def ingest (event : ChangeEvent) : EventM V EventResult := do
  fromExcept (raiseIf (g.rules = []) (.eventIngestionDisabled disabledMessage))
  fromExcept (g.validateEvent event)
  let w ← get
  if event.eventId ∈ w.memory.seen then result .duplicate event none
  else if (w.memory.checkpoints.get? event.checkpointKey).any (event.position ≤ ·.position) then
    result .replayed event none
  else do
    g.ensureCompleteCapacity event
    let (r, applied) ← g.applyOrQueue event
    (if applied then g.complete event else pure ())
    pure r

/-- The counts of a retry. -/
structure Retried where
  retried : ℕ
  succeeded : ℕ
  failed : ℕ
deriving DecidableEq, Repr

/-- The failure that `except Exception` caught, if any. -/
def caught {α : Type} (m : EventM V α) : EventM V (Option Failure) :=
  tryCatch
    (do
      let _ ← m
      pure none)
    fun failure => if failure.isException then pure (some failure) else throw failure

/-- One round of the loop of `retry_dead_letters`. -/
def retryLetter (limit : ℤ) (current : ℚ) (counts : Retried) (d : DeadLetter) :
    EventM V Retried :=
  if limit ≤ counts.retried ∨ ¬d.retryable ∨ current < d.retryAfter then pure counts
  else do
    match ← caught (g.prepareAndApply d.event) with
    | some failure => do
      g.updateDeadLetter d.event.eventId failure.text current
      pure { counts with retried := counts.retried + 1, failed := counts.failed + 1 }
    | none => do
      g.removeDeadLetter d.event.eventId
      pure { counts with retried := counts.retried + 1, succeeded := counts.succeeded + 1 }

def retryDeadLetters (limit : ℤ) : EventM V Retried := do
  fromExcept (raiseIf (limit ≤ 0) (.eventError "retry limit must be positive"))
  let current ← g.time
  fromExcept (raiseIf (g.rules = []) (.eventIngestionDisabled disabledMessage))
  let w ← get
  Prog.fold (g.retryLetter limit current) ⟨0, 0, 0⟩ w.memory.deadLetters

/-- `ingest` with its submission and its answer in the trace. -/
def submit (event : ChangeEvent) : EventM V EventResult := do
  modify fun w => { w with trace := .submitted event :: w.trace }
  let r ← g.ingest event
  modify fun w => { w with trace := .answered event r.outcome :: w.trace }
  pure r

end Ingestor

/-! ## Webhooks -/

structure WebhookSource where
  name : String
  secret : List UInt8
  toleranceSeconds : ℕ
  valid : 16 ≤ secret.length ∧ 0 < toleranceSeconds

/-- What a webhook delivers: the route, the three headers and the body. -/
structure Request where
  sourceName : String
  timestamp : Option String
  signature : Option String
  delivery : Option String
  body : List UInt8
deriving DecidableEq

def framed (bytes : List UInt8) : List UInt8 := Decimal.natText bytes.length ++ 58 :: bytes

def textBytes (text : String) : List UInt8 := text.toUTF8.toList

def webhookSignaturePayload (source timestamp delivery : String) (body : List UInt8) : List UInt8 :=
  textBytes "megacache-webhook-v2|" ++ framed (textBytes source) ++ framed (textBytes timestamp) ++
    framed (textBytes delivery) ++ framed body

/-- The characters of `str.isspace`. -/
def isSpace (ch : Char) : Bool :=
  (9 ≤ ch.toNat && ch.toNat ≤ 13) || (28 ≤ ch.toNat && ch.toNat ≤ 32) ||
    (8192 ≤ ch.toNat && ch.toNat ≤ 8202) ||
    ch.toNat ∈ [133, 160, 5760, 8232, 8233, 8239, 8287, 12288]

/-- An `EventAutomation`: its ingestor, its webhook sources, `hmac.new(secret, payload,
sha256).hexdigest()`, and `json.loads` of a UTF-8 body. -/
structure Automation (V : Type) where
  ingestor : Ingestor V
  sources : List WebhookSource
  hexdigest : List UInt8 → List UInt8 → String
  loads : List UInt8 → Option Json

namespace Automation

variable (a : Automation V)

/-- The end of `authenticate`: the delivery is claimed. -/
def claim (source : WebhookSource) (delivery : String) (now : ℚ) : EventM V Unit := do
  let claimed ← a.ingestor.claimReplayToken (lengthFramedKey [source.name, delivery])
    (now + source.toleranceSeconds) now
  fromExcept (raiseIf (claimed = false)
    (.webhookAuthError "webhook delivery was already received"))

def authenticate (r : Request) : EventM V Unit := do
  match a.sources.find? (·.name = r.sourceName) with
  | none => throw (.webhookAuthError "unknown webhook source")
  | some source =>
    match r.timestamp, r.signature, r.delivery with
    | some rawTimestamp, some supplied, some delivery => do
      fromExcept (validateIdentifier delivery "webhook delivery")
      match a.ingestor.py.int rawTimestamp with
      | none => throw (.webhookAuthError "webhook timestamp must be an integer")
      | some timestamp => do
        let now ← a.ingestor.time
        fromExcept (raiseIf ((source.toleranceSeconds : ℚ) < |now - timestamp|)
          (.webhookAuthError "webhook timestamp is outside tolerance"))
        fromExcept (raiseIf (supplied ≠ "sha256=" ++ a.hexdigest source.secret
            (webhookSignaturePayload r.sourceName rawTimestamp delivery r.body))
          (.webhookAuthError "webhook signature is invalid"))
        a.claim source delivery now
    | _, _, _ =>
      throw (.webhookAuthError "webhook timestamp, signature, and delivery are required")

/-- A field that must be a text. -/
def textField (fields : List (String × Json)) (name : String) : Option String :=
  match fields.lookup name with
  | some (.str text) => some text
  | _ => none

/-- A field that may be missing or null. -/
def optionalField (fields : List (String × Json)) (name : String) :
    Except Failure (Option String) :=
  match fields.lookup name with
  | none | some .null => pure none
  | some (.str text) => pure (some text)
  | some _ => throw (.eventError (if name = "cursor" then "event cursor must be a string"
    else "schema_id must use name@version"))

def requiredFields : List String :=
  ["event_id", "source", "stream", "position", "operation", "payload"]

/-- `ChangeEvent.__post_init__` on the fields of a document. -/
def checked (py : Python) (fields : List (String × Json)) (timestamp : Option ℚ) :
    Except Failure ChangeEvent := do
  let eventId ← match textField fields "event_id" with
    | some text =>
      if text = "" ∨ 256 < text.utf8ByteSize ∨ text.toList.any isSpace then
        throw (.eventError "event_id must be a 1-256 character non-whitespace identifier")
      else pure text
    | none => throw (.eventError "event_id must be a 1-256 character non-whitespace identifier")
  let source := (textField fields "source").getD ""
  validateIdentifier source "event source"
  let stream := (textField fields "stream").getD ""
  validateIdentifier stream "event stream"
  let position ← match fields.lookup "position" with
    | some (.int n) =>
      if n < 0 then throw (.eventError "event position must be a non-negative integer")
      else pure n.toNat
    | _ => throw (.eventError "event position must be a non-negative integer")
  let operation := (textField fields "operation").getD ""
  if operation = "" then throw (.eventError "event operation must be a non-empty string")
  let payload ← match fields.lookup "payload" with
    | some (.obj payload) => pure payload
    | _ => throw (.eventError "event payload must be an object")
  if (Json.obj payload).finite = false then
    throw (.eventError "event payload must be JSON-compatible")
  let timestamp ← match timestamp with
    | some time => pure time
    | none => throw (.eventError "event timestamp must be finite and numeric")
  let schemaId ← optionalField fields "schema_id"
  match schemaId with
    | none => pure ()
    | some text => do
      let _ ← SchemaIdentifier.parse py text
      pure ()
  let cursor ← optionalField fields "cursor"
  pure ⟨eventId, source, stream, position, operation, payload, timestamp, schemaId, cursor⟩

def missingFields (fields : List (String × Json)) : List String :=
  requiredFields.filter fun name => (fields.lookup name).isNone

/-- `value.get("timestamp", time.time())`, if it is a number. -/
def timestampOf (fields : List (String × Json)) (now : ℚ) : Option ℚ :=
  match fields.lookup "timestamp" with
  | none => some now
  | some (.int n) => some (n : ℚ)
  | some (.float x) => some x
  | some _ => none

/-- `ChangeEvent.from_dict`. -/
def fromDict (fields : List (String × Json)) : EventM V ChangeEvent := do
  fromExcept (raiseIf (missingFields fields ≠ [])
    (.eventError ("event is missing required fields: " ++
      String.intercalate ", " (missingFields fields))))
  let now ← a.ingestor.time
  fromExcept (checked a.ingestor.py fields (timestampOf fields now))

/-- `value.setdefault("source", source_name)`. -/
def withSource (sourceName : String) (fields : List (String × Json)) : List (String × Json) :=
  if (fields.lookup "source").isNone then fields ++ [("source", .str sourceName)] else fields

/-- `ingest_webhook` after `authenticate`. -/
def ingestBody (r : Request) : EventM V EventResult := do
  match a.loads r.body with
  | none => throw (.eventError "webhook body must be valid JSON")
  | some (.obj fields) => do
    fromExcept (raiseIf (textField (withSource r.sourceName fields) "source" ≠ some r.sourceName)
      (.eventError "webhook event source must match the configured webhook"))
    let event ← a.fromDict (withSource r.sourceName fields)
    a.ingestor.submit event
  | some _ => throw (.eventError "webhook body must be a JSON object")

def ingestWebhook (r : Request) : EventM V EventResult := do
  fromExcept (raiseIf (a.ingestor.rules = [])
    (.eventIngestionDisabled Ingestor.disabledMessage))
  a.authenticate r
  a.ingestBody r

end Automation

end Events
end MegaCache
