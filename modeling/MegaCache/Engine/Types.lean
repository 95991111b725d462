import Mathlib
import MegaCache.Lib.OrderedDict
import MegaCache.Lib.Prog

/-!
# The cache engine: data

The records of `engine.py` and `storage.py`.  Seconds are exact rationals and a
deadline of `math.inf` is `⊤`.  The two sources of outside input of an engine,
`self._clock` and `secrets.token_urlsafe`, are sequences in its configuration;
the engine counts how many readings and tokens it has taken.
-/

namespace MegaCache

abbrev Key := String

abbrev Tag := String

/-- A point in time at which an entry stops being fresh or stale; `⊤` is `math.inf`. -/
abbrev Deadline := WithTop ℚ

/-- The exception classes that the handlers of the source tell apart. -/
inductive ErrorKind
  | valueError
  | typeError
  | runtimeError
  | stopIteration
  | clusterError
  | quorumError
  | fenceError
  | rebalanceError
  | snapshotError
  | snapshotBackpressure
  /-- any other subclass of `Exception` -/
  | exception
  /-- a `BaseException` that is not an `Exception` -/
  | baseException
deriving DecidableEq, Repr

structure PyError where
  kind : ErrorKind
  message : String
deriving DecidableEq, Repr

/-- What `except (ValueError, TypeError)` catches; `ClusterError` derives from `ValueError`. -/
def PyError.isValueOrType (e : PyError) : Bool :=
  match e.kind with
  | .valueError | .typeError | .clusterError | .quorumError | .fenceError
  | .rebalanceError | .snapshotError | .snapshotBackpressure => true
  | .runtimeError | .stopIteration | .exception | .baseException => false

/-- What `except Exception` catches. -/
def PyError.isException (e : PyError) : Bool := e.kind ≠ .baseException

def valueError (message : String) : PyError := ⟨.valueError, message⟩

inductive CacheState
  | miss
  | fresh
  | stale
  | lease
  | staleLease
  | loading
deriving DecidableEq, Repr

structure CacheResult (V : Type) where
  state : CacheState
  value : Option V
  expiresInSeconds : Deadline
  staleForSeconds : Deadline
  leaseToken : Option String
  retryAfterSeconds : ℚ
deriving DecidableEq

/-- `CacheResult(state="miss")`. -/
def CacheResult.miss {V : Type} : CacheResult V := ⟨.miss, none, 0, 0, none, 0⟩

structure Entry (V : Type) where
  value : V
  freshUntil : Deadline
  staleUntil : Deadline
  tags : List Tag
  sizeBytes : ℕ
  configuredTtlSeconds : Option Deadline
  accessCount : ℕ
  lastAccess : ℚ
  loadCostMs : ℚ
deriving DecidableEq

structure Lease where
  token : String
  untilTime : ℚ
  sizeBytes : ℕ
deriving DecidableEq

/-- `StorageEntry`: one cache entry with its remaining windows. -/
structure StorageEntry (V : Type) where
  key : Key
  value : V
  freshForSeconds : Option ℚ
  staleForSeconds : Option ℚ
  tags : List Tag
  persistent : Bool
deriving DecidableEq

/-- The counters of `self._metrics`. -/
inductive Metric
  | rejectedEntries
  | writes
  | deletes
  | expirationsSet
  | flushes
  | invalidations
  | coalesced
  | rejectedLeases
  | leases
  | leaseRenewals
  | loadErrors
  | misses
  | expirations
  | hits
  | staleHits
  | evictions
  | costEvictions
  | lruEvictions
deriving DecidableEq, Repr

structure EngineCheckpoint (V : Type) where
  entries : OrderedDict Key (Entry V)
  usedBytes : ℤ
  leaseBytes : ℤ
  tags : OrderedDict Tag (Finset Key)
  leases : OrderedDict Key Lease
  metrics : OrderedDict Metric ℕ

/-- The journal of one key.  `handle` is the identity of the Python object and
`evicted_keys` is the set of keys of `evictedEntries`. -/
structure MutationCheckpoint (V : Type) where
  handle : ℕ
  key : Key
  entry : Option (Entry V)
  predecessor : Option Key
  lease : Option Lease
  usedBytes : ℤ
  leaseBytes : ℤ
  metrics : OrderedDict Metric ℕ
  evictedEntries : List (Key × Entry V)

/-- The mutable fields of `CacheEngine`, with the numbers of clock readings,
tokens and journals taken so far. -/
structure Engine (V : Type) where
  entries : OrderedDict Key (Entry V)
  usedBytes : ℤ
  leaseBytes : ℤ
  tags : OrderedDict Tag (Finset Key)
  leases : OrderedDict Key Lease
  metrics : OrderedDict Metric ℕ
  activeMutation : Option (MutationCheckpoint V)
  ticks : ℕ
  draws : ℕ
  journals : ℕ

/-- `_snapshot_value` and the byte count of `_entry_size`; `none` is a value
`json` cannot serialize.  Dumping and loading a loaded document changes nothing. -/
structure Codec (V : Type) where
  snapshotValue : V → Option V
  valueBytes : V → Option ℕ
  snapshotValue_idem : ∀ {v w : V}, snapshotValue v = some w → snapshotValue w = some w

/-- The codec on `str` values, which are stored as they are. -/
def textCodec : Codec String where
  snapshotValue := some
  valueBytes v := some v.utf8ByteSize
  snapshotValue_idem _ := rfl

inductive EvictionPolicy
  | lru
  | cost
deriving DecidableEq, Repr

/-- The constructor arguments of `CacheEngine`.  `_eviction_score` is floating
point (`log1p`, `sqrt`); only the order it puts on entries matters, so it is an
arbitrary function here. -/
structure EngineConfig (V : Type) where
  maxEntries : ℕ
  defaultTtlSeconds : ℕ
  defaultStaleSeconds : ℕ
  leaseSeconds : ℕ
  maxMemoryBytes : ℕ
  maxEntryBytes : ℕ
  evictionPolicy : EvictionPolicy
  clock : ℕ → ℚ
  tokenUrlsafe : ℕ → String
  evictionScore : Entry V → ℚ → ℚ
  codec : Codec V
  positive : 0 < maxEntries ∧ 0 < maxMemoryBytes ∧ 0 < maxEntryBytes ∧
    0 < defaultTtlSeconds ∧ 0 < defaultStaleSeconds ∧ 0 < leaseSeconds
  clock_mono : Monotone clock

/-- A clock that advances one second with every reading. -/
theorem ticking_mono : Monotone fun n : ℕ => (n : ℚ) := Nat.mono_cast

/-- A clock that stands still. -/
theorem stopped_mono : Monotone fun _ : ℕ => (0 : ℚ) := monotone_const

abbrev EngineM (V : Type) := Prog (Engine V) PyError

namespace Engine

variable {V : Type}

/-- `CacheEngine(...)`: nothing stored. -/
def init : Engine V where
  entries := .empty
  usedBytes := 0
  leaseBytes := 0
  tags := .empty
  leases := .empty
  metrics := .empty
  activeMutation := none
  ticks := 0
  draws := 0
  journals := 0

/-- `self._metrics[m] += n`. -/
def bump (m : Metric) (n : ℕ) (s : Engine V) : Engine V :=
  { s with metrics := s.metrics.set m ((s.metrics.get? m).getD 0 + n) }

end Engine
end MegaCache
