import MegaCache.Engine.Stored
import MegaCache.Lib.Base64
import MegaCache.Lib.Json
import MegaCache.Origin.Requests

/-!
# Fetching through the cache

`OriginCache.fetch` over one engine.  Every access to the storage, every outcome of an origin
request and every end of a flight is one step of a call; the steps of different calls come in any
order, between plain calls of the storage.  A follower leaves `_coordinate` with the outcome of a
leader of its coordination key; a background refresh is a forced fetch.

The origins' responses so far are kept for the statements, and with an answer from the cache the
stored value that it was made from.
-/

namespace MegaCache
namespace Origin

open Engine

/-- A cached value: bytes or a JSON document. -/
inductive Value
  | bytes (body : List UInt8)
  | json (document : Json)

/-- `_NEGATIVE_MARKER` -/
def negativeMarker : String := "$megacache_origin_negative_v1"

/-- `_VALUE_MARKER` -/
def valueMarker : String := "$megacache_origin_value_v1"

/-- What `_negative_origin_value` returns. -/
structure NegativeValue where
  origin : String
  path : String
  status : ℤ
  requestHash : Option String
deriving DecidableEq, Repr

/-- What `_origin_value` returns. -/
structure PositiveValue where
  origin : String
  path : String
  status : ℤ
  body : List UInt8
  requestHash : Option String
deriving DecidableEq, Repr

/-- The item `request_hash` of a document, if it is a text or missing. -/
def requestHashOf (document : Json) : Option (Option String) :=
  match document.get? "request_hash" with
  | none | some .null => some none
  | some (.str hash) => some (some hash)
  | some _ => none

/-- `_negative_origin_value` -/
def negativeOriginValue : Value → Option NegativeValue
  | .bytes _ => none
  | .json document =>
    match document.get? negativeMarker, document.get? "origin", document.get? "path",
      document.get? "status" with
    | some (.bool true), some (.str origin), some (.str path), some (.int status) =>
      if 400 ≤ status ∧ status ≤ 499 then
        (requestHashOf document).map fun hash => ⟨origin, path, status, hash⟩
      else none
    | _, _, _, _ => none

/-- `_origin_value` -/
def originValue : Value → Option PositiveValue
  | .bytes _ => none
  | .json document =>
    match document.get? valueMarker, document.get? "origin", document.get? "path",
      document.get? "status", document.get? "body" with
    | some (.bool true), some (.str origin), some (.str path), some (.int status),
      some (.str text) =>
      if 200 ≤ status ∧ status ≤ 299 then
        match Base64.decode text.toList with
        | none => none
        | some body => (requestHashOf document).map fun hash => ⟨origin, path, status, body, hash⟩
      else none
    | _, _, _, _, _ => none

/-- A value that is no internal marker object. -/
def Value.Plain (v : Value) : Prop := negativeOriginValue v = none ∧ originValue v = none

/-- The service: its engine, its origins and what it takes from the standard library.  `sha256` is
the hexadecimal digest of a text and `lineagePath` is `urlsplit(path).path`. -/
structure FetchConfig where
  engine : EngineConfig Value
  origins : List HTTPOrigin
  validateOriginPath : HTTPOrigin → String → Except OriginError String
  lineagePath : String → String
  sha256 : String → String
  sha256_injective : Function.Injective sha256
  /-- dumping and loading a document changes nothing -/
  snapshotValue_eq : ∀ v w, engine.codec.snapshotValue v = some w → w = v
  /-- names and normalized paths have no control characters -/
  name_plain : ∀ origin ∈ origins, '\x00' ∉ origin.name.toList
  path_plain : ∀ origin path normalized,
    validateOriginPath origin path = .ok normalized → '\x00' ∉ normalized.toList

namespace FetchConfig

variable (c : FetchConfig)

/-- `_lineage_matches` -/
def lineageMatches (storedPath : String) (storedHash : Option String) (path : String) : Bool :=
  match storedHash with
  | some hash => hash = c.sha256 path
  | none => storedPath = path

/-- `_decode_cache_result` -/
def decodeCacheResult (result : CacheResult Value) (origin : HTTPOrigin) (path : String) :
    CacheResult Value × Bool :=
  match result.value.bind originValue with
  | some positive =>
    if positive.origin ≠ origin.name ∨
        c.lineageMatches positive.path positive.requestHash path = false then (result, false)
    else ({ result with value := some (.bytes positive.body) }, true)
  | none =>
    match result.value.bind negativeOriginValue with
    | some negative =>
      (result, negative.origin = origin.name &&
        c.lineageMatches negative.path negative.requestHash path &&
        negative.status ∈ origin.negativeStatuses.map Int.ofNat)
    | none => (result, false)

/-- The key under which concurrent fetches coordinate. -/
def coordinationKey (name : String) (key : Key) (path : String) : Key :=
  "origin:" ++ c.sha256 (String.join [name, "\x00", key, "\x00", path])

/-- What is stored for a negative response. -/
def negativeDocument (name path : String) (status : ℤ) : Value :=
  .json (.obj [(negativeMarker, .bool true), ("origin", .str name),
    ("path", .str (c.lineagePath path)), ("request_hash", .str (c.sha256 path)),
    ("status", .int status)])

/-- What is stored for a response with a body. -/
def valueDocument (name path : String) (status : ℤ) (body : List UInt8) : Value :=
  .json (.obj [(valueMarker, .bool true), ("body", .str (String.ofList (Base64.encode body))),
    ("origin", .str name), ("path", .str (c.lineagePath path)),
    ("request_hash", .str (c.sha256 path)), ("status", .int status)])

end FetchConfig

inductive FetchState
  | fresh
  | stale
  | negative
  | staleIfError
  | refreshed
deriving DecidableEq, Repr

structure OriginFetchResult where
  state : FetchState
  origin : String
  statusCode : Option ℤ
  value : Option Value
  error : Option String
  attempts : ℕ

/-- A result, and the stored value it was made from. -/
structure Found where
  result : OriginFetchResult
  source : Option Value

/-- Where a call of `fetch` is. -/
inductive FetchPlace
  | reads
  | coordinates
  /-- `_leader_fetch`: the second look into the cache -/
  | leaderReads
  | leases
  | requests (token : String)
  | stores (token : String) (status : ℤ) (body : List UInt8) (attempts : ℕ)
  /-- the handler of `OriginUnavailable`: the lease is released, then the cache is read -/
  | fails (token : String) (e : Raised)
  | fallsBack (token : String) (e : Raised)
  /-- the leader leaves `_coordinate` -/
  | concludes (outcome : Except Raised Found)
  /-- the last look into the cache, after `stale_if_error` -/
  | checks (found : Found)
  | answered (found : Found)
  | raised (e : Raised)

structure FetchCall where
  key : Key
  origin : HTTPOrigin
  path : String
  forceRefresh : Bool
  place : FetchPlace
  /-- what the call left `_coordinate` with, if it led -/
  led : Option (Except Raised Found)

/-- A response of an origin to a normalized path. -/
structure Given where
  origin : String
  path : String
  status : ℤ
  body : List UInt8
deriving DecidableEq, Repr

structure FetchService where
  engine : Engine Value
  closed : Bool
  calls : List FetchCall
  given : List Given
  gets : List (CacheResult Value)

/-- The values that a call of the storage writes are plain. -/
def plainCall : Engine.Call Value → Prop
  | .put _ value _ _ _ _ _ => value.Plain
  | .mset values => ∀ item ∈ values, item.2.Plain
  | .getOrLoad _ (.ok value) _ _ _ => value.Plain
  | .restoreEntries entries => ∀ item ∈ entries, item.value.Plain
  | _ => True

inductive FetchEvent
  | client (call : { call : Engine.Call Value // plainCall call })
  | get (key : Key)
  | shutdown
  | fetch (key : Key) (originName path : String) (forceRefresh : Bool)
  | lead (i : ℕ)
  | follow (i j : ℕ)
  /-- a follower is shed, times out or is shut down -/
  | leave (i : ℕ) (e : Raised)
  | responded (i : ℕ) (status : ℤ) (body : List UInt8) (attempts : ℕ)
  | failed (i : ℕ) (e : Raised)
  /-- `guard.ensure_owned` raises -/
  | ownershipLost (i : ℕ) (message : String)
  /-- `ttlSeconds` is the origin's or what `adaptive_ttl` made of it -/
  | store (i : ℕ) (ttlSeconds : ℤ)
  | proceed (i : ℕ)

/-- What `except OriginUnavailable` catches. -/
def Raised.isUnavailable : Raised → Bool
  | .origin (.policy _) => false
  | .origin _ | .nonRetryable _ => true
  | .io _ | .other _ => false

def Raised.message : Raised → String
  | .origin (.policy m) | .origin (.unavailable m) | .origin (.overloaded m)
  | .origin (.circuitOpen m) | .nonRetryable m | .io m | .other m => m

/-- An exception of the storage. -/
def Raised.ofStorage (e : PyError) : Raised := .other e.message

namespace FetchCall

variable (c : FetchConfig)

def goto (call : FetchCall) (place : FetchPlace) : FetchCall := { call with place := place }

def negativeFound (call : FetchCall) (status : ℤ) (source : Option Value) : Found :=
  ⟨⟨.negative, call.origin.name, some status, none, none, 0⟩, source⟩

def valueFound (call : FetchCall) (state : FetchState) (value : Option Value)
    (error : Option String) (source : Option Value) : Found :=
  ⟨⟨state, call.origin.name, none, value, error, 0⟩, source⟩

/-- `_decode_cache_result` with the lineage of the call. -/
def decoded (call : FetchCall) (result : CacheResult Value) : CacheResult Value × Bool :=
  c.decodeCacheResult result call.origin call.path

/-- The decoded result, or a miss if its lineage does not match. -/
def sighted (call : FetchCall) (result : CacheResult Value) : CacheResult Value :=
  if (call.decoded c result).2 then (call.decoded c result).1 else .miss

/-- An answer from a fresh entry, negative or not. -/
def freshFound (call : FetchCall) (cached : CacheResult Value) (source : Option Value) : Found :=
  match cached.value.bind negativeOriginValue with
  | some negative => call.negativeFound negative.status source
  | none => call.valueFound .fresh cached.value none source

/-- The first look into the cache. -/
def firstRead (call : FetchCall) (result : CacheResult Value) : FetchPlace :=
  if call.forceRefresh = false ∧ (call.sighted c result).state = .fresh then
    .answered (call.freshFound (call.sighted c result) result.value)
  else if call.forceRefresh = false ∧ (call.sighted c result).state = .stale ∧
      ((call.origin.staleIfErrorSeconds : ℚ) : Deadline) <
        (call.sighted c result).staleForSeconds then
    .answered (call.valueFound .stale (call.sighted c result).value none result.value)
  else .coordinates

/-- The leader's own look into the cache. -/
def leaderRead (call : FetchCall) (result : CacheResult Value) : FetchPlace :=
  if (call.sighted c result).state = .fresh then
    .concludes (.ok (call.freshFound (call.sighted c result) result.value))
  else .leases

/-- The fallback after a failed request; `none` is to raise. -/
def fallback (call : FetchCall) (e : Raised) (result : CacheResult Value) : Option Found :=
  if (call.decoded c result).2 ∧ (call.decoded c result).1.state = .fresh then
    some (call.valueFound .fresh (call.decoded c result).1.value (some e.message) result.value)
  else if (call.decoded c result).2 ∧ (call.decoded c result).1.state = .stale then
    some (call.valueFound .staleIfError (call.decoded c result).1.value (some e.message)
      result.value)
  else none

/-- The last look into the cache. -/
def lastRead (call : FetchCall) (found : Found) (result : CacheResult Value) : FetchPlace :=
  if (call.decoded c result).2 ∧ (call.decoded c result).1.state = .stale then
    .answered (call.valueFound .staleIfError (call.decoded c result).1.value found.result.error
      result.value)
  else if (call.decoded c result).2 ∧ (call.decoded c result).1.state = .fresh then
    .answered (call.freshFound (call.decoded c result).1 result.value)
  else .raised (.origin (.unavailable
    (found.result.error.getD "stale cache entry expired during origin failure")))

/-- `fetch` after `_coordinate`. -/
def coordinated (call : FetchCall) : Except Raised Found → FetchCall
  | .error e => call.goto (.raised e)
  | .ok found =>
    if found.result.state = .staleIfError then call.goto (.checks found)
    else call.goto (.answered found)

/-- An exception of `put`, as `_put_origin_value` raises it. -/
def putError (e : PyError) : Raised :=
  if (e.isValueOrType ∧ e.kind ≠ .typeError) ∧
      "lease".toList <:+: e.message.toList.map Char.toLower then
    .origin (.unavailable "origin refresh lease ownership was lost")
  else .ofStorage e

end FetchCall

namespace FetchService

variable (c : FetchConfig)

def init : FetchService := ⟨Engine.init, false, [], [], []⟩

def setCall (s : FetchService) (i : ℕ) (call : FetchCall) : FetchService :=
  { s with calls := s.calls.set i call }

/-- `storage.get`, and what becomes of the call. -/
def read (s : FetchService) (i : ℕ) (call : FetchCall) (raised : Raised → FetchPlace)
    (next : CacheResult Value → FetchPlace) : FetchService :=
  match getEntry c.engine call.key s.engine with
  | (.error e, engine) => { s with engine := engine }.setCall i (call.goto (raised (.ofStorage e)))
  | (.ok result, engine) => { s with engine := engine }.setCall i (call.goto (next result))

/-- `storage.release_lease` -/
def release (s : FetchService) (key : Key) (token : String) : FetchService :=
  { s with engine := (releaseLease key token s.engine).2 }

/-- `OriginCache.get` -/
def getValue (s : FetchService) (key : Key) : FetchService :=
  match getEntry c.engine key s.engine with
  | (.error _, engine) => { s with engine := engine }
  | (.ok result, engine) =>
    { s with
      engine := engine
      gets := (if (result.value.bind negativeOriginValue).isSome then .miss
        else match result.value.bind originValue with
          | some positive => { result with value := some (.bytes positive.body) }
          | none => result) :: s.gets }

/-- `fetch` up to its first look into the cache. -/
def fetch (s : FetchService) (key : Key) (originName path : String) (forceRefresh : Bool) :
    FetchService :=
  if s.closed then s
  else
    match c.origins.find? fun origin => origin.name = originName with
    | none => s
    | some origin =>
      match c.validateOriginPath origin path with
      | .error _ => s
      | .ok requestPath =>
        { s with calls := s.calls ++ [⟨key, origin, requestPath, forceRefresh, .reads, none⟩] }

/-- The leader acquires the refresh lease. -/
def lease (s : FetchService) (i : ℕ) (call : FetchCall) : FetchService :=
  match acquireLease c.engine call.key true s.engine with
  | (.error e, engine) =>
    { s with engine := engine }.setCall i (call.goto (.concludes (.error (.ofStorage e))))
  | (.ok lease, engine) =>
    match lease.leaseToken with
    | none => { s with engine := engine }.setCall i (call.goto (.concludes (.error
        (.origin (.overloaded "refresh ownership is held by another operation")))))
    | some token => { s with engine := engine }.setCall i (call.goto (.requests token))

/-- The leader stores a response and returns it. -/
def store (s : FetchService) (i : ℕ) (call : FetchCall) (token : String) (status : ℤ)
    (body : List UInt8) (attempts : ℕ) (ttlSeconds : ℤ) : FetchService :=
  if status ∈ call.origin.negativeStatuses.map Int.ofNat then
    match put c.engine call.key (c.negativeDocument call.origin.name call.path status)
      (some call.origin.negativeTtlSeconds) (some 0) call.origin.tags (some token) false s.engine with
    | (.error e, engine) => ({ s with engine := engine }.release call.key token).setCall i
        (call.goto (.concludes (.error (FetchCall.putError e))))
    | (.ok _, engine) => { s with engine := engine }.setCall i (call.goto (.concludes (.ok
        ⟨⟨.negative, call.origin.name, some status, none, none, attempts⟩, none⟩)))
  else
    match put c.engine call.key (c.valueDocument call.origin.name call.path status body)
      (some ttlSeconds)
      (some (call.origin.staleWhileRevalidateSeconds + call.origin.staleIfErrorSeconds))
      call.origin.tags (some token) false s.engine with
    | (.error e, engine) => ({ s with engine := engine }.release call.key token).setCall i
        (call.goto (.concludes (.error (FetchCall.putError e))))
    | (.ok _, engine) => { s with engine := engine }.setCall i (call.goto (.concludes (.ok
        ⟨⟨.refreshed, call.origin.name, some status, some (.bytes body), none, attempts⟩, none⟩)))

/-- The next step of a call that waits for nobody. -/
def proceed (s : FetchService) (i : ℕ) : FetchService :=
  match s.calls[i]? with
  | none => s
  | some call =>
    match call.place with
    | .reads => s.read c i call .raised (call.firstRead c)
    | .leaderReads => s.read c i call (fun e => .concludes (.error e)) (call.leaderRead c)
    | .leases => s.lease c i call
    | .fails token e => (s.release call.key token).setCall i (call.goto (.fallsBack token e))
    | .fallsBack token e =>
      match getEntry c.engine call.key s.engine with
      | (.error e', engine) => ({ s with engine := engine }.release call.key token).setCall i
          (call.goto (.concludes (.error (.ofStorage e'))))
      | (.ok result, engine) =>
        match call.fallback c e result with
        | some found => { s with engine := engine }.setCall i (call.goto (.concludes (.ok found)))
        | none => ({ s with engine := engine }.release call.key token).setCall i
            (call.goto (.concludes (.error e)))
    | .concludes outcome => s.setCall i { call.coordinated outcome with led := some outcome }
    | .checks found => s.read c i call .raised (call.lastRead c found)
    | _ => s

/-- What `_request_with_retries` returns. -/
def Accepted (origin : HTTPOrigin) (status : ℤ) : Prop :=
  status ∈ origin.negativeStatuses.map Int.ofNat ∨ 200 ≤ status ∧ status ≤ 299

instance (origin : HTTPOrigin) (status : ℤ) : Decidable (Accepted origin status) := by
  unfold Accepted
  infer_instance

/-- A change of call `i`, by its place. -/
def onCall (s : FetchService) (i : ℕ) (f : FetchCall → FetchPlace → FetchService) : FetchService :=
  match s.calls[i]? with
  | none => s
  | some call => f call call.place

def step (s : FetchService) : FetchEvent → FetchService
  | .client call => { s with engine := call.1.run c.engine s.engine }
  | .get key => s.getValue c key
  | .shutdown => { s with closed := true }
  | .fetch key originName path forceRefresh => s.fetch c key originName path forceRefresh
  | .lead i => s.onCall i fun call place =>
    match place with
    | .coordinates => s.setCall i (call.goto (if call.forceRefresh then .leases else .leaderReads))
    | _ => s
  | .follow i j => s.onCall i fun call place =>
    match place, (s.calls[j]?).bind fun leader => leader.led.map (leader, ·) with
    | .coordinates, some (leader, outcome) =>
      if c.coordinationKey call.origin.name call.key call.path =
          c.coordinationKey leader.origin.name leader.key leader.path then
        s.setCall i (call.coordinated outcome)
      else s
    | _, _ => s
  | .leave i e => s.onCall i fun call place =>
    match place with
    | .coordinates => s.setCall i (call.goto (.raised e))
    | _ => s
  | .responded i status body attempts => s.onCall i fun call place =>
    match place with
    | .requests token =>
      if Accepted call.origin status then
        { s with given := ⟨call.origin.name, call.path, status, body⟩ :: s.given }.setCall i
          (call.goto (.stores token status body attempts))
      else s
    | _ => s
  | .failed i e => s.onCall i fun call place =>
    match place with
    | .requests token =>
      if e.isUnavailable then s.setCall i (call.goto (.fails token e))
      else (s.release call.key token).setCall i (call.goto (.concludes (.error e)))
    | _ => s
  | .ownershipLost i message => s.onCall i fun call place =>
    match place with
    | .stores token _ _ _ =>
      s.setCall i (call.goto (.fails token (.origin (.unavailable message))))
    | _ => s
  | .store i ttlSeconds => s.onCall i fun call place =>
    match place with
    | .stores token status body attempts =>
      s.store c i call token status body attempts ttlSeconds
    | _ => s
  | .proceed i => s.proceed c i

def run (events : List FetchEvent) : FetchService := events.foldl (step c) init

end FetchService

end Origin
end MegaCache
