import MegaCache.Engine.Documents
import MegaCache.Engine.Operations

/-!
# What the protocols ask of the storage

The handlers of RESP and HTTP decode their arguments, check the permissions and then call the
storage.  A handler is a tree of such calls, each with what is done with its result; the calls
are data, so that it can be seen which keys a handler hands to the storage.  On a `CacheEngine`
the calls are its operations.
-/

namespace MegaCache.Protocols

open Engine

/-- The methods that only some storages have, looked up with `getattr`. -/
inductive Method
  | fetch
  | explain
  | ownership
  | topology
  | status
  | origins
  | recommendations
  | simulate
  | experimentStatus
  | ingestEvent
  | eventStatus
  | retryEvents
  | invalidationCursor
deriving DecidableEq, Repr

/-- The arguments of `put` besides key and value.  HTTP passes on whatever its document has. -/
structure PutOptions where
  ttlSeconds : Json
  staleSeconds : Json
  tags : Json
  leaseToken : Json
  persistent : Bool

/-- A call of a storage. -/
inductive StorageCall
  | get (key : Key)
  | mget (keys : List Key)
  | put (key : Key) (value : SnapshotValue) (options : PutOptions)
  | mset (values : List (Key × SnapshotValue))
  | delete (key : Key)
  | deleteMany (keys : List Key)
  | existsCount (keys : List Key)
  | expire (key : Key) (ttlSeconds : ℤ)
  | ttl (key : Key)
  | acquireLease (key : Key)
  | invalidateTags (tags : Json)
  | flush
  | size
  | stats
  | extension (method : Method) (keys : List Key) (arguments : List Json)

/-- The keys that a call takes. -/
def StorageCall.keys : StorageCall → List Key
  | .get key | .put key _ _ | .delete key | .expire key _ | .ttl key | .acquireLease key => [key]
  | .mget keys | .deleteMany keys | .existsCount keys | .extension _ keys _ => keys
  | .mset values => values.map Prod.fst
  | .invalidateTags _ | .flush | .size | .stats => []

/-- What a call returns. -/
inductive StorageAnswer
  | result (r : CacheResult SnapshotValue)
  | results (rs : List (CacheResult SnapshotValue))
  | count (n : ℤ)
  | flag (b : Bool)
  | stats (s : Stats)
  | document (j : Json)
  | done

theorem except_bind_ok {ε α β : Type} {x : Except ε α} {f : α → Except ε β} {b : β} :
    (x >>= f) = .ok b ↔ ∃ a, x = .ok a ∧ f a = .ok b := by
  cases x with
  | error e => simp [bind, Except.bind]
  | ok a => simp [bind, Except.bind]

/-! ## On a cache engine -/

/-- A number of seconds or none; any other value is refused by `_duration`. -/
def seconds? : Json → Option (Option ℤ)
  | .null => some none
  | .int n => some (some n)
  | _ => none

/-- What `_normalize_tags` iterates over; `none` is an item that is no text. -/
def tagItems : Json → Except PyError (List (Option Tag))
  | .str _ => .error (valueError "tags must be an array of strings")
  | .arr items => .ok (items.map fun item =>
    match item with
    | .str s => some s
    | _ => none)
  | .obj fields => .ok (fields.map fun field => some field.1)
  | _ => .error ⟨.typeError, "tags are not iterable"⟩

def tagList (tags : Json) : Except PyError (List Tag) := do
  let items ← tagItems tags
  if 100 < items.length then throw (valueError "an entry may have at most 100 tags")
  else if items.any Option.isNone then
    throw (valueError "tags must contain between 1 and 256 UTF-8 bytes")
  else pure (items.filterMap id)

/-- A lease token; `compare_digest` raises a `TypeError` on a value of another type as on a text
beyond ASCII. -/
def leaseText : Json → Option String
  | .null => none
  | .str s => some s
  | _ => some (String.singleton (Char.ofNat 128))

section

variable (c : EngineConfig SnapshotValue)

/-- `_duration` of a value of any type. -/
def durationOf (value : Json) (default : ℕ) (name : String) (allowZero : Bool) :
    EngineM SnapshotValue ℕ :=
  match seconds? value with
  | some seconds => duration seconds default name allowZero
  | none => throw (valueError (name ++ " must be a " ++
      (if allowZero then "non-negative" else "positive") ++ " integer"))

/-- The checks of `_prepare_put` up to an argument of a type it does not expect. -/
def refuse (key : Key) (options : PutOptions) (tags : Except PyError (List Tag)) :
    EngineM SnapshotValue StorageAnswer := do
  validateKey key
  let _ ← durationOf options.ttlSeconds c.defaultTtlSeconds "ttl_seconds" false
  let _ ← durationOf options.staleSeconds c.defaultStaleSeconds "stale_seconds" true
  let _ ← Prog.fromExcept tags
  throw (valueError "value must be JSON serializable or bytes")

/-- `put` with arguments of any type. -/
def putDocument (key : Key) (value : SnapshotValue) (options : PutOptions) :
    EngineM SnapshotValue StorageAnswer :=
  match seconds? options.ttlSeconds, seconds? options.staleSeconds, tagList options.tags with
  | some ttlSeconds, some staleSeconds, .ok tags => do
    let r ← Engine.put c key value ttlSeconds staleSeconds tags (leaseText options.leaseToken)
      options.persistent
    pure (.result r)
  | _, _, tags => refuse c key options tags

def StorageCall.run : StorageCall → EngineM SnapshotValue StorageAnswer
  | .get key => do
    let r ← getEntry c key
    pure (.result r)
  | .mget keys => do
    let rs ← Engine.mget c keys
    pure (.results rs)
  | .put key value options => putDocument c key value options
  | .mset values => do
    let _ ← Engine.mset c values
    pure .done
  | .delete key => do
    let b ← Engine.delete key
    pure (.flag b)
  | .deleteMany keys => do
    let n ← Engine.deleteMany keys
    pure (.count n)
  | .existsCount keys => do
    let n ← Engine.existsCount c keys
    pure (.count n)
  | .expire key ttlSeconds => do
    let b ← Engine.expire c key ttlSeconds
    pure (.flag b)
  | .ttl key => do
    let n ← Engine.ttl c key
    pure (.count n)
  | .acquireLease key => do
    let r ← Engine.acquireLease c key false
    pure (.result r)
  | .invalidateTags tags => do
    let tags ← Prog.fromExcept (tagList tags)
    let n ← Engine.invalidateTags tags
    pure (.count n)
  | .flush => do
    let n ← Engine.flush
    pure (.count n)
  | .size => do
    let n ← Engine.size c
    pure (.count n)
  | .stats => do
    let s ← Engine.stats c
    pure (.stats s)
  -- an `AttributeError`
  | .extension _ _ _ => throw ⟨.exception, "the storage has no such method"⟩

end

/-! ## Handlers -/

/-- What a handler does once its arguments are decoded and its permissions checked: calls of the
storage, and a reply made from what they return. -/
inductive Step (ρ : Type)
  | reply (r : ρ)
  | call (c : StorageCall) (next : StorageAnswer → Step ρ)

/-- A call that a handler may make, depending on what the earlier ones return. -/
inductive Step.Calls {ρ : Type} : Step ρ → StorageCall → Prop
  | here {c : StorageCall} {next : StorageAnswer → Step ρ} : Calls (.call c next) c
  | later {c c' : StorageCall} {next : StorageAnswer → Step ρ} {a : StorageAnswer} (h : Calls (next a) c') :
      Calls (.call c next) c'

/-- A handler on a cache engine. -/
def Step.run {ρ : Type} (c : EngineConfig SnapshotValue) : Step ρ → EngineM SnapshotValue ρ
  | .reply r => pure r
  | .call request next => do
    let a ← request.run c
    (next a).run c

end MegaCache.Protocols
