import MegaCache.Auth.Users
import MegaCache.Lib.JsonAscii
import MegaCache.Protocols.Storage
import MegaCache.Resp.Requests

/-!
# The commands of RESP

The handlers of `_execute` under their own names.  A handler decodes its arguments, calls
`_authorize` and says which calls of the storage it makes.  A key is decoded as Latin-1, one
character for each byte; texts other than keys are UTF-8.  The commands of the control plane do
not call the storage, and are a parameter.
-/

namespace MegaCache.Resp

open Auth (Principal Permission)
open Engine (Stats)
open Protocols

/-! ## Decoding -/

/-- `value.decode("latin-1")`. -/
def latin1 (value : Bytes) : String := String.ofList (value.map fun b => Char.ofNat b.toNat)

/-- `_key`. -/
def key (value : Bytes) : Key := latin1 value

/-- `_keys`. -/
def keys (values : List Bytes) : List Key := values.map key

/-- `value.decode("ascii")`. -/
def ascii? (value : Bytes) : Option String :=
  if value.all fun b => b.toNat < 128 then some (latin1 value) else none

/-- `value.decode("utf-8")`. -/
def utf8? (value : Bytes) : Option String := (Json.decodeUtf8 value).map String.ofList

/-- The result of a decoder, or a `RespCommandError`. -/
def decoded {α : Type} (message : String) : Option α → Except String α
  | some a => .ok a
  | none => .error message

/-- `value.upper()` of bytes, as a text. -/
def upper (value : Bytes) : String := (latin1 value).map Char.toUpper

def lower (value : Bytes) : String := (latin1 value).map Char.toLower

def wrongArity (args : List Bytes) : String :=
  "wrong number of arguments for '" ++ lower (args.headD []) ++ "' command"

def requireArity (args : List Bytes) (expected : ℕ) : Except String Unit :=
  if args.length = expected then .ok () else .error (wrongArity args)

/-- A check that raises a `RespCommandError`. -/
def require (c : Prop) [Decidable c] (message : String) : Except String Unit :=
  if c then .ok () else .error message

def nonNegativeArg (value : Bytes) (field : String) : Except String ℕ :=
  match Decimal.pyInt value with
  | none => .error (field ++ " is not an integer")
  | some n => if n < 0 then .error (field ++ " must not be negative") else .ok n.toNat

def positiveArg (value : Bytes) (field : String) : Except String ℕ := do
  let parsed ← nonNegativeArg value field
  if parsed = 0 then throw (field ++ " must be greater than zero") else pure parsed

/-- `_authorize`. -/
def authorize (p : Principal) (permission : Permission) (keys : List Key) : Except String Unit :=
  if p.allows permission keys then .ok ()
  else .error "NOPERM this user has no permissions to run the command"

/-! ## Replies -/

/-- What a handler of RESP returns. -/
abbrev Result := Value String

section

variable (floats : Json.FloatText)

/-- `json.dumps(value, separators=(",", ":")).encode("utf-8")`. -/
def jsonBytes (j : Json) : Bytes := Json.utf8 (Json.dumpsAscii floats.repr j)

/-- `_value_bytes`; a miss has the value `None`. -/
def valueBytes : Option SnapshotValue → Bytes
  | some (.bytes data) => data
  | some (.json (.str s)) => utf8 s
  | some (.json data) => jsonBytes floats data
  | none => jsonBytes floats .null

/-- The reply for a lookup. -/
def lookupReply (r : CacheResult SnapshotValue) : Result :=
  if r.state = .miss then .null else .bytes (valueBytes floats r.value)

/-- `_duration_milliseconds`. -/
def durationMilliseconds : Deadline → ℤ
  | none => -1
  | some q => max 0 (if 0 ≤ q then ⌊q * 1000⌋ else ⌈q * 1000⌉)

def stateText : CacheState → String
  | .miss => "miss"
  | .fresh => "fresh"
  | .stale => "stale"
  | .lease => "lease"
  | .staleLease => "stale_lease"
  | .loading => "loading"

/-- The reply of `_mc_lease`. -/
def leaseReply (windows : Bool) (r : CacheResult SnapshotValue) : Result :=
  let duration (d : Deadline) : Result := .int (durationMilliseconds d)
  let value : Result := .bytes (valueBytes floats r.value)
  let token : Result := .bytes (utf8 (r.leaseToken.getD ""))
  let rest : List Result :=
    match r.state with
    | .fresh =>
      value :: if windows then [duration r.expiresInSeconds, duration r.staleForSeconds] else []
    | .stale => value :: if windows then [duration r.staleForSeconds] else []
    | .staleLease => value :: token :: if windows then [duration r.staleForSeconds] else []
    | .lease => [token]
    | .loading => [.int ⌊r.retryAfterSeconds * 1000⌋]
    | .miss => []
  .list (.bytes (utf8 (stateText r.state)) :: rest)

end

def okReply : Result := .text "OK"

/-- A reply made from a single call of the storage. -/
def one (c : StorageCall) (reply : StorageAnswer → Result) : Except String (Step Result) :=
  .ok (.call c fun a => .reply (reply a))

def answer (r : Result) : Except String (Step Result) := .ok (.reply r)

/-- The reply for a number that a call returns. -/
def countReply : StorageAnswer → Result
  | .count n => .int n
  | .flag b => .int (if b then 1 else 0)
  | _ => .null

/-! ## The commands of Redis -/

section

variable (p : Principal) (args : List Bytes)

/-- An argument by its position. -/
def arg (index : ℕ) : Bytes := args.getD index []

def ping : Except String (Step Result) :=
  if args.length = 1 then answer (.text "PONG")
  else do
    requireArity args 2
    answer (.bytes (arg args 1))

def echo : Except String (Step Result) := do
  requireArity args 2
  answer (.bytes (arg args 1))

def get (floats : Json.FloatText) : Except String (Step Result) := do
  requireArity args 2
  let k := key (arg args 1)
  authorize p .read [k]
  one (.get k) fun a =>
    match a with
    | .result r => lookupReply floats r
    | _ => .null

/-- The options of a write by RESP. -/
def putOptions (ttl stale : Option ℤ) (tags : List String) (leaseToken : Option String)
    (persistent : Bool) : PutOptions where
  ttlSeconds := (ttl.map Json.int).getD .null
  staleSeconds := (stale.map Json.int).getD .null
  tags := .arr (tags.map .str)
  leaseToken := (leaseToken.map Json.str).getD .null
  persistent := persistent

def set : Except String (Step Result) :=
  if args.length ≠ 3 ∧ args.length ≠ 5 then .error "syntax error"
  else do
    let k := key (arg args 1)
    authorize p .write [k]
    if args.length = 5 then do
      require (upper (arg args 3) = "EX") "only the EX expiration option is supported"
      let ttl ← positiveArg (arg args 4) "expire time"
      one (.put k (.bytes (arg args 2)) (putOptions (some ttl) (some 0) [] none false)) fun _ => okReply
    else one (.put k (.bytes (arg args 2)) (putOptions none none [] none true)) fun _ => okReply

def mget (floats : Json.FloatText) : Except String (Step Result) :=
  if args.length < 2 then .error "wrong number of arguments for 'mget' command"
  else do
    let ks := keys args.tail
    authorize p .read ks
    one (.mget ks) fun a =>
      match a with
      | .results rs => .list (rs.map (lookupReply floats))
      | _ => .null

/-- Keys and values of `mset` in turn. -/
def pairs : List Bytes → List (Key × SnapshotValue)
  | k :: value :: rest => (key k, .bytes value) :: pairs rest
  | _ => []

def mset : Except String (Step Result) :=
  if args.length < 3 ∨ args.length % 2 = 0 then .error "wrong number of arguments for 'mset' command"
  else do
    let values := pairs args.tail
    authorize p .write (values.map Prod.fst)
    one (.mset values) fun _ => okReply

/-- The commands that count keys: `del` and `exists`. -/
def counting (name : String) (permission : Permission) (call : List Key → StorageCall) :
    Except String (Step Result) :=
  if args.length < 2 then .error ("wrong number of arguments for '" ++ name ++ "' command")
  else do
    let ks := keys args.tail
    authorize p permission ks
    one (call ks) countReply

def delete : Except String (Step Result) := counting p args "del" .write .deleteMany

def «exists» : Except String (Step Result) := counting p args "exists" .read .existsCount

def expire : Except String (Step Result) := do
  requireArity args 3
  let k := key (arg args 1)
  authorize p .write [k]
  let ttl ← positiveArg (arg args 2) "expire time"
  one (.expire k ttl) countReply

def ttl : Except String (Step Result) := do
  requireArity args 2
  let k := key (arg args 1)
  authorize p .read [k]
  one (.ttl k) countReply

def dbsize : Except String (Step Result) := do
  requireArity args 1
  authorize p .admin []
  one .size countReply

def flushdb : Except String (Step Result) := do
  requireArity args 1
  authorize p .admin []
  one .flush fun _ => okReply

/-- `_info`; the text of the figures is a function of them. -/
def info (infoText : Stats → ℤ → Bytes) : Except String (Step Result) :=
  if 2 < args.length then .error "wrong number of arguments for 'info' command"
  else do
    authorize p .admin []
    .ok (.call .stats fun a => .call .size fun b => .reply
      (match a, b with
      | .stats s, .count n => .bytes (infoText s n)
      | _, _ => .null))

def select : Except String (Step Result) := do
  requireArity args 2
  authorize p .read []
  require (arg args 1 = utf8 "0") "DB index is out of range"
  answer okReply

def client : Except String (Step Result) := do
  authorize p .read []
  if 2 ≤ args.length ∧ upper (arg args 1) = "SETINFO" then answer okReply
  else if args.length = 2 ∧ upper (arg args 1) = "GETNAME" then answer .null
  else throw "unsupported CLIENT subcommand"

def command : Except String (Step Result) := do
  authorize p .read []
  answer (.list [])

def hello : Except String (Step Result) := do
  authorize p .read []
  require (args.length = 2 ∧ arg args 1 = utf8 "2") "only RESP2 is supported"
  answer (.list [.bytes (utf8 "server"), .bytes (utf8 "megacache"), .bytes (utf8 "version"),
    .bytes (utf8 "1.0.0"), .bytes (utf8 "proto"), .int 2, .bytes (utf8 "mode"),
    .bytes (utf8 "standalone")])

/-! ## Writes and leases of MegaCache -/

structure SetOptions where
  ttl : Option ℤ
  stale : Option ℤ
  leaseToken : Option String
  tags : List String

/-- The loop of `_mc_set` over the options. -/
def setOptions (o : SetOptions) : List Bytes → Except String SetOptions
  | [] => .ok o
  | option :: rest =>
    if upper option = "TTL" ∨ upper option = "STALE" then
      match rest with
      | [] => .error "syntax error"
      | value :: rest => do
        let n ← nonNegativeArg value "duration"
        if upper option = "TTL" then
          if n = 0 then throw "TTL must be greater than zero"
          else setOptions { o with ttl := some n } rest
        else setOptions { o with stale := some n } rest
    else if upper option = "TAGS" then
      match rest with
      | [] => .error "syntax error"
      | value :: rest => do
        let count ← nonNegativeArg value "tag count"
        if rest.length < count then throw "tag count exceeds supplied tags"
        else do
          let tags ← (rest.take count).mapM fun tag => decoded "'utf-8' codec can't decode a tag" (utf8? tag)
          setOptions { o with tags := o.tags ++ tags } (rest.drop count)
    else if upper option = "LEASE" then
      match rest with
      | [] => .error "syntax error"
      | value :: rest => do
        let token ← decoded "lease token must be ASCII" (ascii? value)
        setOptions { o with leaseToken := some token } rest
    else .error "unknown MC.SET option"
termination_by options => options.length

def mcSet : Except String (Step Result) :=
  if args.length < 3 then .error "wrong number of arguments for 'mc.set' command"
  else do
    let k := key (arg args 1)
    authorize p .write [k]
    let o ← setOptions ⟨none, none, none, []⟩ (args.drop 3)
    one (.put k (.bytes (arg args 2)) (putOptions o.ttl o.stale o.tags o.leaseToken false))
      fun _ => okReply

def mcLease (floats : Json.FloatText) : Except String (Step Result) :=
  if args.length ≠ 2 ∧ args.length ≠ 3 then .error "wrong number of arguments for 'mc.lease' command"
  else do
    let windows := args.length = 3 ∧ upper (arg args 2) = "WINDOWS"
    require (args.length = 3 → windows) "unknown MC.LEASE option"
    let k := key (arg args 1)
    authorize p .read [k]
    authorize p .write [k]
    one (.acquireLease k) fun a =>
      match a with
      | .result r => leaseReply floats windows r
      | _ => .null

def mcInvalidate : Except String (Step Result) :=
  if args.length < 2 then .error "wrong number of arguments for 'mc.invalidate' command"
  else do
    authorize p .invalidate []
    let tags ← args.tail.mapM fun tag => decoded "tags must be valid UTF-8" (utf8? tag)
    one (.invalidateTags (.arr (tags.map .str))) countReply

end

/-! ## Extensions of the storage -/

section

variable (floats : Json.FloatText) (has : Method → Bool) (p : Principal) (args : List Bytes)

/-- The reply for a document that a call returns. -/
def documentReply : StorageAnswer → Result
  | .document j => .bytes (jsonBytes floats j)
  | .count n => .bytes (jsonBytes floats (.obj [("degraded", .bool false), ("healthy_nodes", .int 1),
      ("known_keys", .int n), ("total_nodes", .int 1)]))
  | _ => .null

def mcTopology : Except String (Step Result) :=
  if args.length ≠ 1 ∧ args.length ≠ 2 then
    .error "wrong number of arguments for 'mc.topology' command"
  else do
    authorize p .admin []
    if args.length = 2 then
      let k := key (arg args 1)
      if has .ownership then one (.extension .ownership [k] []) (documentReply floats)
      else answer (.bytes (jsonBytes floats (.obj [("key", .str k), ("primary", .str "standalone"),
        ("replicas", .arr [.str "standalone"]), ("ring_version", .int 0)])))
    else if has .topology then one (.extension .topology [] []) (documentReply floats)
    else answer (.bytes (jsonBytes floats (.obj [("degraded", .bool false), ("mode", .str "standalone"),
      ("nodes", .arr [.obj [("node_id", .str "standalone"), ("status", .str "active")]])])))

def mcStatus : Except String (Step Result) := do
  requireArity args 1
  authorize p .admin []
  if has .status then one (.extension .status [] []) (documentReply floats)
  else one .size (documentReply floats)

/-- `_mc_invalidations`, with the epoch of the server. -/
def mcInvalidations (epoch : String) : Except String (Step Result) :=
  if args.length ≠ 1 ∧ args.length ≠ 2 then
    .error "wrong number of arguments for 'mc.invalidations' command"
  else do
    authorize p .read []
    let supplied ←
      if args.length = 2 then
        if 256 < (arg args 1).length then throw "invalidation cursor is too long"
        else (decoded "invalidation cursor must be ASCII" (ascii? (arg args 1))).map some
      else pure none
    let reply (generation : ℤ) : Result :=
      let cursor := epoch ++ ":" ++ String.ofList (Json.intText generation)
      .bytes (jsonBytes floats (.obj [("changed", .bool (supplied.any (cursor ≠ ·))),
        ("cursor", .str cursor), ("epoch", .str epoch), ("generation", .int generation)]))
    if has .invalidationCursor then
      one (.extension .invalidationCursor [] []) fun a =>
        match a with
        | .count n => reply n
        | _ => .null
    else answer (reply 0)

/-- `valid_traceparent`. -/
def validTraceparent (value : String) : Bool :=
  let hex (field : List Char) (length : ℕ) : Bool :=
    field.length = length && field.all fun ch => ch.isDigit || ('a' ≤ ch && ch ≤ 'f')
  match value.toList.splitOn '-' with
  | [version, trace, parent, flags] =>
    hex version 2 && version ≠ ['f', 'f'] && hex trace 32 && trace.any (· ≠ '0') && hex parent 16 &&
      parent.any (· ≠ '0') && hex flags 2
  | _ => false

/-- The text of a trace parent. -/
def traceparentArg (value : Bytes) : Except String String := do
  let text ← decoded "traceparent must be ASCII" (ascii? value)
  let text := text.map Char.toLower
  if validTraceparent text then pure text else throw "invalid W3C traceparent"

/-- `_mc_traceparent`; what it stores on the connection only goes to the origin. -/
def mcTraceparent : Except String (Step Result) := do
  requireArity args 2
  authorize p .read []
  let _ ← traceparentArg (arg args 1)
  answer okReply

/-- The loop of `_mc_fetch` over the options. -/
def fetchOptions (refresh : Bool) (traceparent : Option String) :
    List Bytes → Except String (Bool × Option String)
  | [] => .ok (refresh, traceparent)
  | [option] =>
    if upper option = "REFRESH" then .ok (true, traceparent) else .error "unknown MC.FETCH option"
  | option :: value :: rest =>
    if upper option = "REFRESH" then fetchOptions true traceparent (value :: rest)
    else if upper option = "TRACEPARENT" then do
      let candidate ← traceparentArg value
      fetchOptions refresh (some candidate) rest
    else .error "unknown MC.FETCH option"

def mcFetch : Except String (Step Result) :=
  if args.length < 4 then .error "wrong number of arguments for 'mc.fetch' command"
  else do
    let k := key (arg args 1)
    authorize p .read [k]
    authorize p .write [k]
    require (has .fetch) "HTTP origins are not configured on this server"
    let origin ← decoded "origin name and path must be valid UTF-8" (utf8? (arg args 2))
    let path ← decoded "origin name and path must be valid UTF-8" (utf8? (arg args 3))
    let o ← fetchOptions false none (args.drop 4)
    one (.extension .fetch [k] [.str origin, .str path, .bool o.1, (o.2.map Json.str).getD .null])
      (documentReply floats)

def mcExplain : Except String (Step Result) := do
  requireArity args 2
  let k := key (arg args 1)
  authorize p .read [k]
  require (has .explain) "cache intelligence is not available"
  one (.extension .explain [k] []) (documentReply floats)

/-- A command that hands a document or nothing to a method of some storages. -/
def extended (permission : Permission) (method : Method) (absent : String)
    (arguments : Except String (List Json)) : Except String (Step Result) := do
  authorize p permission []
  require (has method) absent
  let arguments ← arguments
  one (.extension method [] arguments) (documentReply floats)

/-- The document in an argument. -/
def documentArg (value : Bytes) (invalid noObject : String) : Except String (List Json) := do
  match Json.loads floats value with
  | none => throw invalid
  | some (.obj fields) => pure [.obj fields]
  | some _ => throw noObject

def mcOrigins : Except String (Step Result) := do
  requireArity args 1
  authorize p .admin []
  if has .origins then one (.extension .origins [] []) (documentReply floats)
  else answer (.bytes (jsonBytes floats (.obj [])))

/-- The number in an optional last argument. -/
def limitArg (field : String) : Except String (List Json) :=
  if args.length = 1 then .ok [.int 100]
  else (positiveArg (arg args 1) field).map fun n => [.int n]

/-- `_mc_recommendations`, which reads its limit before it looks for the method. -/
def mcRecommendations : Except String (Step Result) :=
  if args.length ≠ 1 ∧ args.length ≠ 2 then
    .error "wrong number of arguments for 'mc.recommendations' command"
  else do
    authorize p .admin []
    let limit ← limitArg args "recommendation limit"
    require (has .recommendations) "cache intelligence is not available"
    one (.extension .recommendations [] limit) (documentReply floats)

/-- `_mc_policy_simulate`, which reads its document before it looks for the method. -/
def mcPolicySimulate : Except String (Step Result) := do
  requireArity args 2
  authorize p .admin []
  let document ← documentArg floats (arg args 1) "simulation input must be valid JSON"
    "simulation input must be a JSON object"
  require (has .simulate) "cache intelligence is not available"
  one (.extension .simulate [] document) (documentReply floats)

def mcExperiments : Except String (Step Result) := do
  requireArity args 1
  extended floats has p .admin .experimentStatus "cache intelligence is not available" (.ok [])

def mcEvent : Except String (Step Result) := do
  requireArity args 2
  extended floats has p .invalidate .ingestEvent "event ingestion is not configured"
    (documentArg floats (arg args 1) "event must be valid JSON" "event must be a JSON object")

def mcEventStatus : Except String (Step Result) := do
  requireArity args 1
  extended floats has p .admin .eventStatus "event ingestion is not configured" (.ok [])

def mcEventRetry : Except String (Step Result) :=
  if args.length ≠ 1 ∧ args.length ≠ 2 then
    .error "wrong number of arguments for 'mc.event.retry' command"
  else extended floats has p .admin .retryEvents "event ingestion is not configured"
    (limitArg args "retry limit")

end

/-! ## Dispatch -/

/-- What the handlers depend on besides the storage. -/
structure Site where
  floats : Json.FloatText
  has : Method → Bool
  epoch : String
  infoText : Stats → ℤ → Bytes
  /-- the commands of the control plane -/
  control : Principal → List Bytes → Except String Result

/-- The names of the commands of the control plane. -/
def controlCommands : List String :=
  ["MC.IDENTITY", "MC.CONTROL.STATUS", "MC.CONTROL.TENANTS", "MC.CONTROL.OPERATION",
    "MC.CONTROL.ORCHESTRATOR", "MC.CONTROL.DEPLOYMENT", "MC.CONTROL.OBSERVE", "MC.BACKUP",
    "MC.DATA.EXPORT", "MC.RESTORE.VALIDATE", "MC.RESTORE", "MC.DR.DRILL",
    "MC.TENANT.DELETE.CHALLENGE", "MC.TENANT.DELETE", "MC.AUDIT", "MC.AUDIT.EXPORT", "MC.AUDIT.PRUNE",
    "MC.BILLING.EXPORT"]

/-- `_execute` of a command other than `AUTH` and `QUIT`. -/
def execute (site : Site) (p : Principal) (args : List Bytes) : Except String (Step Result) :=
  match ascii? (args.headD []) with
  | none => .error "unknown command"
  | some name =>
    match name.map Char.toUpper with
    | "PING" => ping args
    | "ECHO" => echo args
    | "GET" => get p args site.floats
    | "SET" => set p args
    | "MGET" => mget p args site.floats
    | "MSET" => mset p args
    | "DEL" => delete p args
    | "EXISTS" => «exists» p args
    | "EXPIRE" => expire p args
    | "TTL" => ttl p args
    | "DBSIZE" => dbsize p args
    | "FLUSHDB" => flushdb p args
    | "INFO" => info p args site.infoText
    | "SELECT" => select p args
    | "CLIENT" => client p args
    | "COMMAND" => command p
    | "HELLO" => hello p args
    | "MC.SET" => mcSet p args
    | "MC.LEASE" => mcLease p args site.floats
    | "MC.INVALIDATE" => mcInvalidate p args
    | "MC.TOPOLOGY" => mcTopology site.floats site.has p args
    | "MC.STATUS" => mcStatus site.floats site.has p args
    | "MC.FETCH" => mcFetch site.floats site.has p args
    | "MC.ORIGINS" => mcOrigins site.floats site.has p args
    | "MC.EVENT" => mcEvent site.floats site.has p args
    | "MC.EVENT.STATUS" => mcEventStatus site.floats site.has p args
    | "MC.EVENT.RETRY" => mcEventRetry site.floats site.has p args
    | "MC.INVALIDATIONS" => mcInvalidations site.floats site.has p args site.epoch
    | "MC.TRACEPARENT" => mcTraceparent p args
    | "MC.EXPLAIN" => mcExplain site.floats site.has p args
    | "MC.RECOMMENDATIONS" => mcRecommendations site.floats site.has p args
    | "MC.POLICY.SIMULATE" => mcPolicySimulate site.floats site.has p args
    | "MC.EXPERIMENTS" => mcExperiments site.floats site.has p args
    | upperName =>
      if upperName ∈ controlCommands then (site.control p args).map .reply
      else .error ("unknown command '" ++ name.map Char.toLower ++ "', with args beginning with:")

/-- What a client gets for a command: a value, the text of an error, or the end of the
connection. -/
inductive Outcome
  | value (r : Result)
  | commandError (message : String)
  | failure

/-- A command on a cache engine. -/
def respond (site : Site) (c : EngineConfig SnapshotValue) (p : Principal) (args : List Bytes) :
    Engine SnapshotValue → Outcome × Engine SnapshotValue := fun s =>
  match execute site p args with
  | .error message => (.commandError message, s)
  | .ok step =>
    match step.run c s with
    | (.ok r, s') => (.value r, s')
    | (.error e, s') =>
      (if e.kind = .valueError then .commandError e.message else .failure, s')

end MegaCache.Resp
