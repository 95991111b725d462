import MegaCache.Auth.Users
import MegaCache.Lib.Base64
import MegaCache.Lib.JsonEncoding
import MegaCache.Lib.Percent
import MegaCache.Protocols.Storage

/-!
# The routes of HTTP

`do_GET`, `do_PUT`, `do_POST` and `do_DELETE`.  The key of a request is the percent-decoded rest
of its path.  A route authenticates the caller, checks the permission for the key and then calls
the storage.  The routes of the control plane, the webhooks and the probes do not act for a
principal on the storage, and are a parameter.
-/

namespace MegaCache.Http

open Auth (Principal Permission)
open Engine (Stats)
open Protocols

inductive Verb
  | get
  | put
  | post
  | delete
deriving DecidableEq, Repr

structure Request where
  verb : Verb
  target : List Char
  /-- what `_has_request_body` finds in the headers -/
  hasBody : Bool
  /-- what `_read_body` returns, or the text of its `ValueError` -/
  body : Except String (List UInt8)
  traceparent : Option String

inductive Content
  | result (r : CacheResult SnapshotValue)
  | deleted (b : Bool)
  | invalidated (n : ℤ)
  | stats (s : Stats)
  | document (j : Json)
  | error (code : String) (message : Option String)

structure Response where
  status : ℕ
  content : Content

/-- `urlsplit(target).path` of a target that begins with one slash. -/
def urlPath (target : List Char) : List Char := target.takeWhile fun ch => ch ≠ '?' ∧ ch ≠ '#'

/-- `_key_from`. -/
def keyFrom (path : List Char) (start : String) : Option Key :=
  if start.toList.isPrefixOf path then
    some (String.ofList (Percent.unquote (path.drop start.toList.length)))
  else none

/-! ## Documents -/

/-- `_json_compatible` of a stored value. -/
def jsonCompatible : SnapshotValue → Json
  | .bytes data => .obj [("$binary", .str (String.ofList (Base64.encode data))),
      ("$encoding", .str "base64")]
  | .json j => j

def stateText : CacheState → String
  | .miss => "miss"
  | .fresh => "fresh"
  | .stale => "stale"
  | .lease => "lease"
  | .staleLease => "stale_lease"
  | .loading => "loading"

def secondsJson : Deadline → Json
  | none => .nonFinite .infinity
  | some q => .float q

/-- `asdict(result)`. -/
def resultJson (r : CacheResult SnapshotValue) : Json :=
  .obj [("expires_in_seconds", secondsJson r.expiresInSeconds),
    ("lease_token", (r.leaseToken.map Json.str).getD .null),
    ("retry_after_seconds", .float r.retryAfterSeconds),
    ("stale_for_seconds", secondsJson r.staleForSeconds),
    ("state", .str (stateText r.state)),
    ("value", (r.value.map jsonCompatible).getD .null)]

/-- The status of a result. -/
def resultStatus : CacheState → ℕ
  | .fresh | .stale | .staleLease => 200
  | .miss => 404
  | .lease => 201
  | .loading => 202

/-- `_result`. -/
def resultResponse (r : CacheResult SnapshotValue) : Response := ⟨resultStatus r.state, .result r⟩

def badRequest (message : String) : Response := ⟨400, .error "invalid_request" (some message)⟩

def notFound : Response := ⟨404, .error "route_not_found" none⟩

/-! ## Routes -/

/-- A route that got as far as the storage. -/
structure Routed where
  step : Step Response
  /-- whether a `TypeError` of the storage is answered like a `ValueError` -/
  typeErrors : Bool

/-- What the routes depend on besides the storage. -/
structure Site where
  floats : Json.FloatText
  has : Method → Bool
  validTraceparent : String → Bool
  /-- the routes that do not act for a principal on the storage -/
  elsewhere : Request → Response

/-- `_authorized` for an authenticated principal. -/
def authorized (p : Principal) (permission : Permission) (keys : List Key) : Except Response Unit :=
  if p.allows permission keys then .ok () else .error ⟨403, .error "forbidden" none⟩

/-- A check that is answered with an error. -/
def require (c : Prop) [Decidable c] (response : Response) : Except Response Unit :=
  if c then .ok () else .error response

def one (typeErrors : Bool) (c : StorageCall) (reply : StorageAnswer → Response) : Except Response Routed :=
  .ok ⟨.call c fun a => .reply (reply a), typeErrors⟩

/-- A call that some other answer than the expected one does not reach. -/
def unexpected : Response := ⟨500, .error "internal" none⟩

def resultReply : StorageAnswer → Response
  | .result r => resultResponse r
  | _ => unexpected

def documentReply : StorageAnswer → Response
  | .document j => ⟨200, .document j⟩
  | .stats s => ⟨200, .stats s⟩
  | _ => unexpected

section

variable (site : Site)

/-- `_read_json`. -/
def readJson (r : Request) : Except Response (List (String × Json)) :=
  match r.body with
  | .error message => .error (badRequest message)
  | .ok raw =>
    match Json.loadsBytes site.floats raw with
    | none => .error (badRequest "body must be valid JSON")
    | some (.obj fields) => .ok fields
    | some _ => .error (badRequest "body must be a JSON object")

/-- `body.get(name)`. -/
def field (fields : List (String × Json)) (name : String) : Json := (fields.lookup name).getD .null

def notConfigured (what message : String) : Response := ⟨503, .error what (some message)⟩

/-- A route that hands something to a method of some storages. -/
def extended (p : Principal) (permission : Permission) (method : Method) (absent : Response)
    (arguments : Except Response (List Json)) : Except Response Routed := do
  authorized p permission []
  require (site.has method) absent
  let arguments ← arguments
  one true (.extension method [] arguments) documentReply

def eventsNotConfigured : Response :=
  notConfigured "events_not_configured" "event ingestion is not configured"

def intelligenceNotConfigured : Response :=
  notConfigured "intelligence_not_configured" "cache intelligence is not available"

/-- `do_GET`. -/
def doGet (p : Principal) (r : Request) : Except Response Routed :=
  let path := urlPath r.target
  if r.hasBody then .error (badRequest "GET requests must not contain a body")
  else if path = "/v1/stats".toList then do
    authorized p .admin []
    one false .stats documentReply
  else if path = "/v1/origins".toList then do
    authorized p .admin []
    if site.has .origins then one false (.extension .origins [] []) documentReply
    else .error ⟨200, .document (.obj [])⟩
  else if path = "/v1/events/status".toList then
    extended site p .admin .eventStatus eventsNotConfigured (.ok [])
  else if path = "/v1/policies/recommendations".toList then
    extended site p .admin .recommendations intelligenceNotConfigured (.ok [])
  else if path = "/v1/experiments".toList then
    extended site p .admin .experimentStatus intelligenceNotConfigured (.ok [])
  else
    match keyFrom path "/v1/explain/" with
    | some key => do
      authorized p .read [key]
      require (site.has .explain) intelligenceNotConfigured
      one false (.extension .explain [key] []) documentReply
    | none =>
      match keyFrom path "/v1/cache/" with
      | some key => do
        authorized p .read [key]
        one false (.get key) resultReply
      | none => .error (site.elsewhere r)

/-- `do_PUT`. -/
def doPut (p : Principal) (r : Request) : Except Response Routed :=
  match keyFrom (urlPath r.target) "/v1/cache/" with
  | none => .error (site.elsewhere r)
  | some key => do
    authorized p .write [key]
    let fields ← readJson site r
    match fields.lookup "value" with
    | none => throw (badRequest "value is required")
    | some value =>
      one true (.put key (.json value) {
          ttlSeconds := field fields "ttl_seconds"
          staleSeconds := field fields "stale_seconds"
          tags := (fields.lookup "tags").getD (.arr [])
          leaseToken := field fields "lease_token"
          persistent := false })
        fun a =>
          match a with
          | .result result => ⟨201, .result result⟩
          | _ => unexpected

/-- The arguments of a fetch. -/
def fetchArguments (r : Request) : Except Response (List Json) := do
  let fields ← readJson site r
  match fields.lookup "origin", fields.lookup "path" with
  | some origin, some path => do
    let refresh ←
      match fields.lookup "refresh" with
      | none => pure false
      | some (.bool b) => pure b
      | some _ => throw (badRequest "refresh must be a boolean")
    let traceparent := r.traceparent.map fun text => text.map Char.toLower
    if traceparent.any fun text => !site.validTraceparent text then
      throw (badRequest "traceparent must be a valid W3C value")
    else pure [origin, path, .bool refresh, (traceparent.map Json.str).getD .null]
  | _, _ => throw (badRequest "origin and path are required")

/-- `do_POST`. -/
def doPost (p : Principal) (r : Request) : Except Response Routed :=
  let path := urlPath r.target
  if path = "/v1/events".toList then
    extended site p .invalidate .ingestEvent eventsNotConfigured
      ((readJson site r).map fun fields => [.obj fields])
  else if path = "/v1/events/retry".toList then
    extended site p .admin .retryEvents eventsNotConfigured do
      let fields ← readJson site r
      match fields.lookup "limit" with
      | none => pure [.int 100]
      | some (.int n) => pure [.int n]
      | some _ => throw (badRequest "limit must be an integer")
  else if path = "/v1/policies/simulate".toList then
    extended site p .admin .simulate intelligenceNotConfigured
      ((readJson site r).map fun fields => [.obj fields])
  else
    match keyFrom path "/v1/fetch/" with
    | some key => do
      authorized p .read [key]
      authorized p .write [key]
      require (site.has .fetch)
        (notConfigured "origins_not_configured" "HTTP origins are not configured")
      let arguments ← fetchArguments site r
      one true (.extension .fetch [key] arguments) documentReply
    | none =>
      match keyFrom path "/v1/lease/" with
      | some key => do
        authorized p .read [key]
        authorized p .write [key]
        one false (.acquireLease key) resultReply
      | none =>
        if path = "/v1/invalidate".toList then do
          authorized p .invalidate []
          let fields ← readJson site r
          match fields.lookup "tags" with
          | none => throw (badRequest "tags is required")
          | some tags =>
            one true (.invalidateTags tags) fun a =>
              match a with
              | .count n => ⟨200, .invalidated n⟩
              | _ => unexpected
        else .error (site.elsewhere r)

/-- `do_DELETE`. -/
def doDelete (p : Principal) (r : Request) : Except Response Routed :=
  match keyFrom (urlPath r.target) "/v1/cache/" with
  | none => .error (site.elsewhere r)
  | some key => do
    authorized p .write [key]
    one false (.delete key) fun a =>
      match a with
      | .flag b => ⟨if b then 200 else 404, .deleted b⟩
      | _ => unexpected

/-- The route of a request. -/
def route (p : Principal) (r : Request) : Except Response Routed :=
  match r.verb with
  | .get => doGet site p r
  | .put => doPut site p r
  | .post => doPost site p r
  | .delete => doDelete site p r

/-- A request on a cache engine; `none` is an exception that no handler catches. -/
def respond (c : EngineConfig SnapshotValue) (p : Principal) (r : Request) :
    Engine SnapshotValue → Option Response × Engine SnapshotValue := fun s =>
  match route site p r with
  | .error response => (some response, s)
  | .ok routed =>
    match routed.step.run c s with
    | (.ok response, s') => (some response, s')
    | (.error e, s') =>
      (if e.kind = .valueError ∨ e.kind = .typeError ∧ routed.typeErrors then
        some (badRequest e.message)
      else none, s')

end

end MegaCache.Http
