import Mathlib.Data.Prod.Lex
import Mathlib.Data.String.Basic
import MegaCache.Cluster.Ring
import MegaCache.Engine.Operations

/-!
# The cluster: data

The records of `cluster.py`.  A node's storage is a `CacheEngine`, or a test double
of one whose `put`, `delete` and `restore_entries` may raise after the engine did
its work; `fault` says which of these calls do.  `hashlib` and `json` enter as
functions of the configuration.
-/

namespace MegaCache

inductive ConsistencyProfile
  | one
  | majority
  | all
deriving DecidableEq, Repr

/-- The number of replicas that have to answer, of a positive number of them. -/
def ConsistencyProfile.required (profile : ConsistencyProfile) (replicas : ℕ) : ℕ :=
  match profile with
  | .one => 1
  | .majority => replicas / 2 + 1
  | .all => replicas

structure VersionStamp where
  term : ℕ
  sequence : ℕ
  leaderId : NodeId
deriving DecidableEq, Repr

namespace VersionStamp

/-- The fields as a tuple, which is what the dataclass compares. -/
def toTuple (v : VersionStamp) : ℕ ×ₗ ℕ ×ₗ NodeId := toLex (v.term, toLex (v.sequence, v.leaderId))

theorem toTuple_injective : Function.Injective toTuple := by
  intro v w h
  cases v
  cases w
  simpa [toTuple] using h

instance : LinearOrder VersionStamp := LinearOrder.lift' toTuple toTuple_injective

theorem lt_iff {v w : VersionStamp} : v < w ↔ v.term < w.term ∨ v.term = w.term ∧
    (v.sequence < w.sequence ∨ v.sequence = w.sequence ∧ v.leaderId < w.leaderId) := by
  show toTuple v < toTuple w ↔ _
  simp [toTuple, Prod.Lex.toLex_lt_toLex]

/-- A later term and a later sequence number make a later version. -/
theorem lt_of_le_of_lt {v w : VersionStamp} (ht : v.term ≤ w.term) (hs : v.sequence < w.sequence) :
    v < w := by
  rw [lt_iff]
  rcases ht.lt_or_eq with ht | ht
  · exact .inl ht
  · exact .inr ⟨ht, .inl hs⟩

end VersionStamp

structure FenceToken where
  term : ℕ
  leaderId : NodeId
deriving DecidableEq, Repr

inductive NodeStatus
  | active
  | joining
  | draining
  | down
  | drained
  | removing
  | removed
deriving DecidableEq, Repr

/-- `status in ("active", "joining", "draining")`. -/
def NodeStatus.serves (status : NodeStatus) : Bool :=
  status = .active ∨ status = .joining ∨ status = .draining

/-- `_ReplicaMetadata`. -/
structure ReplicaMetadata where
  version : VersionStamp
  deleted : Bool
  tags : List Tag
deriving DecidableEq, Repr

structure SnapshotRecord (V : Type) where
  entry : Option (StorageEntry V)
  key : Key
  version : VersionStamp
  deleted : Bool
deriving DecidableEq

/-- The record with its entry under the record's own key. -/
def SnapshotRecord.rekeyed {V : Type} (record : SnapshotRecord V) : SnapshotRecord V :=
  { record with entry := record.entry.map fun entry => { entry with key := record.key } }

/-- A `ClusterNode` together with its dictionary of `self._metadata`.  `calls`
counts the calls of its storage that a test double may fail. -/
structure ClusterNode (V : Type) where
  storage : Engine V
  calls : ℕ
  status : NodeStatus
  lastHeartbeat : ℚ
  incarnation : ℤ
  metadata : OrderedDict Key ReplicaMetadata

/-- `_ClusterLease`. -/
structure ClusterLease where
  token : String
  untilTime : ℚ
  fence : FenceToken
deriving DecidableEq

/-- The counters of the coordinator's `self._metrics`. -/
inductive ClusterMetric
  | heartbeats
  | nodeFailures
  | rebalances
  | hotReplicationLimit
  | hotReplicationErrors
  | hotReplications
  | invalidations
  | coalesced
  | rejectedLeases
  | leases
  | leaseRenewals
  | loadErrors
  | replicatedWrites
  | replicatedDeletes
  | readRepairs
  | readRepairErrors
  | tombstonesCollected
  | snapshotBootstraps
  | leadershipChanges
deriving DecidableEq, Repr

structure RebalanceMove where
  key : Key
  sourceNodeId : NodeId
  targetNodeId : NodeId
deriving DecidableEq, Repr

/-- What the identifier of a plan is the digest of. -/
structure PlanPayload where
  base : ℕ
  target : String
  joining : List NodeId
  departing : List NodeId
  moves : List RebalanceMove
  term : ℕ
  leader : NodeId
deriving DecidableEq

structure RebalancePlan where
  planId : String
  fence : FenceToken
  baseRingVersion : ℕ
  targetRing : ConsistentHashRing
  moves : List RebalanceMove
  joiningNodes : List NodeId
  departingNodes : List NodeId
deriving DecidableEq

/-- `_encode_snapshot_record` and `_decode_snapshot_record`.  A record is dumped as
one line of JSON, or not at all when its value has no UTF-8 form, and what was
dumped loads as the record it came from, its entry under the key of the record. -/
structure Wire (V : Type) where
  encode : SnapshotRecord V → Option (List UInt8)
  decode : List UInt8 → Option (SnapshotRecord V)
  decode_encode : ∀ {r b}, encode r = some b → decode b = some r.rekeyed
  encode_line : ∀ {r b}, encode r = some b → b ≠ [] ∧ 10 ∉ b ∧ 13 ∉ b

/-- The constructor arguments of `ClusterStorage`, the storages of its nodes and its
sources of outside input: the clock, the tokens, the order in which a Python set is
walked, and the calls that fail. -/
structure ClusterConfig (V : Type) where
  replicaCount : ℕ
  virtualNodes : ℕ
  consistency : ConsistencyProfile
  heartbeatTimeout : ℚ
  leaseSeconds : ℕ
  snapshotPayloadLimit : ℕ
  snapshotChunkBytes : ℕ
  snapshotMaxInFlight : ℕ
  maxLeases : ℕ
  maxLeaseMemoryBytes : ℕ
  maxRetainedTombstones : ℕ
  maxHotReplicaKeys : ℕ
  clock : ℕ → ℚ
  tokenUrlsafe : ℕ → String
  setOrder : ℕ → Finset String → List String
  hash : RingHash
  hexdigest : List UInt8 → String
  planDigest : PlanPayload → String
  wire : Wire V
  codec : Codec V
  storage : NodeId → EngineConfig V
  fault : NodeId → ℕ → Option PyError
  positive : 0 < replicaCount ∧ 0 < virtualNodes ∧ 0 < heartbeatTimeout ∧ 0 < leaseSeconds ∧
    0 < snapshotPayloadLimit ∧ 0 < snapshotChunkBytes ∧ 0 < snapshotMaxInFlight ∧
    0 < maxLeases ∧ 0 < maxLeaseMemoryBytes ∧ 0 < maxRetainedTombstones ∧ 0 < maxHotReplicaKeys
  clock_mono : Monotone clock
  setOrder_nodup : ∀ n s, (setOrder n s).Nodup
  mem_setOrder : ∀ n s x, x ∈ setOrder n s ↔ x ∈ s
  storage_codec : ∀ id, (storage id).codec = codec

theorem ClusterConfig.virtualNodes_pos {V : Type} (c : ClusterConfig V) : 0 < c.virtualNodes :=
  c.positive.2.1

/-- The mutable fields of `ClusterStorage`, with the numbers of clock readings, of
walks over a set and of tokens taken so far. -/
structure Cluster (V : Type) where
  nodeIds : List NodeId
  node : NodeId → ClusterNode V
  ring : ConsistentHashRing
  leaderId : NodeId
  term : ℕ
  sequence : ℕ
  knownKeys : Finset Key
  catalogKeys : Finset Key
  hotReplicas : OrderedDict Key (Finset NodeId)
  tombstoneGcWatermark : Option VersionStamp
  keyTags : OrderedDict Key (List Tag)
  tagKeys : OrderedDict Tag (Finset Key)
  leases : OrderedDict Key ClusterLease
  leaseBytes : ℤ
  metrics : OrderedDict ClusterMetric ℕ
  ticks : ℕ
  walks : ℕ
  draws : ℕ

abbrev ClusterM (V : Type) := Prog (Cluster V) PyError

def clusterError (message : String) : PyError := ⟨.clusterError, message⟩

def rebalanceError (message : String) : PyError := ⟨.rebalanceError, message⟩

def snapshotError (message : String) : PyError := ⟨.snapshotError, message⟩

/-- `QuorumError(self._quorum_message(operation, required, available))`. -/
def quorumError (operation : String) (required available : ℕ) : PyError :=
  ⟨.quorumError, operation ++ " quorum unavailable: required " ++ toString required ++
    ", received " ++ toString available⟩

/-- What a dictionary access with an unknown node raises. -/
def keyError (id : NodeId) : PyError := ⟨.exception, id⟩

namespace Cluster

variable {V : Type}

/-- `self._metrics[m] += n`. -/
def bump (m : ClusterMetric) (n : ℕ) (s : Cluster V) : Cluster V :=
  { s with metrics := s.metrics.set m ((s.metrics.get? m).getD 0 + n) }

/-- One node changed. -/
def modifyNode (id : NodeId) (f : ClusterNode V → ClusterNode V) (s : Cluster V) : Cluster V :=
  { s with node := Function.update s.node id (f (s.node id)) }

/-- `self._metadata[id].get(key)`. -/
def metadataOf (s : Cluster V) (id : NodeId) (key : Key) : Option ReplicaMetadata :=
  (s.node id).metadata.get? key

/-- `self._metadata[id][key] = metadata`, or its removal for `none`. -/
def putMetadata (id : NodeId) (key : Key) (metadata : Option ReplicaMetadata) (s : Cluster V) :
    Cluster V :=
  s.modifyNode id fun n => { n with
    metadata := match metadata with
      | none => n.metadata.erase key
      | some m => n.metadata.set key m }

def setStatus (id : NodeId) (status : NodeStatus) (s : Cluster V) : Cluster V :=
  s.modifyNode id fun n => { n with status := status }

/-- `FenceToken(self._term, self._leader_id)`. -/
def fence (s : Cluster V) : FenceToken := ⟨s.term, s.leaderId⟩

/-- `self._hot_replicas.get(key, ())`. -/
def hotOf (s : Cluster V) (key : Key) : Finset NodeId := (s.hotReplicas.get? key).getD ∅

/-- The later of two records; the first one stays on a tie, as with `max`. -/
def later (a b : ReplicaMetadata) : ReplicaMetadata := if a.version < b.version then b else a

/-- `max(values, key=lambda item: item.version)`, `none` without values. -/
def latestOf : List ReplicaMetadata → Option ReplicaMetadata
  | [] => none
  | m :: rest => some (rest.foldl later m)

/-- `_latest_metadata_locked`. -/
def latestMetadata (s : Cluster V) (key : Key) : Option ReplicaMetadata :=
  latestOf (s.nodeIds.filterMap fun id => s.metadataOf id key)

/-- Whether the node's storage has an entry of the key. -/
def Holds (s : Cluster V) (id : NodeId) (key : Key) : Prop :=
  ∃ e, (s.node id).storage.entries.get? key = some e

end Cluster
end MegaCache
