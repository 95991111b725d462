import MegaCache.Cluster.Rebalance

/-!
# The cluster: construction, reports and runs

The constructor of `ClusterStorage`, its remaining public methods, and the runs that
a coordinator goes through: any public calls in any order, whether they return or raise.
-/

namespace MegaCache
namespace Engine

variable {V : Type} (c : EngineConfig V)

/-- What `explain_entry` reports of an entry that is there. -/
structure Explanation where
  state : CacheState
  freshForSeconds : Deadline
  staleForSeconds : Deadline
deriving DecidableEq

/-- The entry described at time `now`, `none` for a miss. -/
def explainAt (now : ℚ) (key : Key) (s : Engine V) : Option Explanation :=
  match s.entries.get? key with
  | none => none
  | some entry =>
    if entry.staleUntil ≤ (now : Deadline) then none
    else some ⟨if (now : Deadline) < entry.freshUntil then .fresh else .stale,
      remaining entry.freshUntil now,
      if (now : Deadline) < entry.freshUntil then staleWindow entry
      else remaining entry.staleUntil now⟩

def explainEntry (key : Key) : EngineM V (Option Explanation) := do
  validateKey key
  let now ← readClock c
  let s ← get
  pure (explainAt now key s)

end Engine

namespace Cluster

variable {V : Type} (c : ClusterConfig V)

/-! ## Construction -/

/-- A node handed to the constructor. -/
structure NodeSpec (V : Type) where
  id : NodeId
  storage : Engine V
  status : NodeStatus
  incarnation : ℤ

/-- The first identifier that comes a second time. -/
def firstDuplicate : List NodeId → List NodeId → Option NodeId
  | _, [] => none
  | earlier, id :: rest => if id ∈ earlier then some id else firstDuplicate (id :: earlier) rest

/-- The nodes that take part in the first ring. -/
def ringSpecs (nodes : List (NodeSpec V)) : List (NodeSpec V) :=
  nodes.filter fun n => n.status = .active || n.status = .draining || n.status = .down

/-- The node of an identifier at the start.  Identifiers without a node never matter. -/
def startNode (nodes : List (NodeSpec V)) (now : ℚ) (id : NodeId) : ClusterNode V :=
  match nodes.find? fun n => n.id = id with
  | none => ⟨Engine.init, 0, .removed, now, 1, .empty⟩
  | some n => ⟨n.storage, 0, n.status, now, n.incarnation, .empty⟩

/-- The coordinator with its first ring and leader. -/
def startState (nodes : List (NodeSpec V)) (ring : ConsistentHashRing) (leader : NodeId) :
    Cluster V where
  nodeIds := nodes.map NodeSpec.id
  node := startNode nodes (c.clock 0)
  ring := ring
  leaderId := leader
  term := 1
  sequence := 0
  knownKeys := ∅
  catalogKeys := ∅
  hotReplicas := .empty
  tombstoneGcWatermark := none
  keyTags := .empty
  tagKeys := .empty
  leases := .empty
  leaseBytes := 0
  metrics := .empty
  ticks := 1
  walks := 0
  draws := 0

/-- `ClusterStorage.__init__`; the limits it checks are fields of the configuration. -/
def create (nodes : List (NodeSpec V)) : Except PyError (Cluster V) :=
  if nodes = [] then .error (valueError "a cluster requires at least one node")
  else
    match firstDuplicate [] (nodes.map NodeSpec.id) with
    | some id => .error (valueError ("duplicate node_id " ++ id))
    | none =>
      if h : (ringSpecs nodes).map NodeSpec.id = [] then
        .error (valueError "a cluster requires an active ring member")
      else
        match (sortedIds (((ringSpecs nodes).filter fun n => n.status ≠ .down).map
            NodeSpec.id)).head? with
        | none => .error (valueError "a cluster requires a healthy node")
        | some leader => .ok (startState c nodes
            (.build c.hash ((ringSpecs nodes).map NodeSpec.id) c.virtualNodes 1 h c.virtualNodes_pos)
            leader)

theorem create_eq_ok {c : ClusterConfig V} {nodes : List (NodeSpec V)} {s : Cluster V}
    (h : create c nodes = .ok s) : ∃ ring leader, s = startState c nodes ring leader := by
  unfold create at h
  split_ifs at h
  · split at h <;> cases h
  · split at h
    · cases h
    · split at h
      · cases h
      · exact ⟨_, _, (Except.ok.inj h).symm⟩

/-- `ClusterStorage.single_node`. -/
def singleNode (id : NodeId) (storage : Engine V) : Except PyError (Cluster V) :=
  create c [⟨id, storage, .active, 1⟩]

/-! ## Loads -/

/-- `get_or_load` of a caller that finds no flight registered for the key; the
loader's outcome is `loaded`. -/
def getOrLoad (key : Key) (loaded : Except PyError V) (ttlSeconds staleSeconds : Option ℤ)
    (tags : List Tag) : ClusterM V (CacheResult V) := do
  let cached ← getEntry c key none
  if cached.state ≠ .miss then pure cached
  else
    tryCatch
      (match loaded with
        | .error e => throw e
        | .ok value => put c ⟨key, value, ttlSeconds, staleSeconds, tags, false⟩ none none none)
      fun e => do
        modify (bump .loadErrors 1)
        throw e

/-- `record_load_cost` for a valid duration, on the owners and the hot copies. -/
def recordLoadCost (key : Key) (durationMs : ℚ) : ClusterM V Unit := do
  validateKey key
  let owners ← ringOwners c key
  let s ← get
  Prog.forEach (fun id => onStorage id (Engine.recordLoadCost key durationMs))
    (sortedIds (owners ++ sortedSet c (s.hotOf key)))

/-- `export_entries`: of all live keys for `none`. -/
def exportSelected (selected : Option (List Key)) : ClusterM V (List (StorageEntry V)) :=
  match selected with
  | some selected => exportEntries c selected
  | none => do
    let selected ← keys c
    exportEntries c selected

/-! ## Reports -/

/-- Whether a replica may describe a key: its record is the latest live one, if there is any. -/
def describes (s : Cluster V) (key : Key) (latest : Option ReplicaMetadata) (id : NodeId) : Bool :=
  match latest with
  | none => true
  | some latest =>
    ((s.metadataOf id key).filter fun m => m.version = latest.version && !m.deleted).isSome

/-- The hot copies that may describe a key. -/
def hotDescribers (key : Key) (latest : Option ReplicaMetadata) : ClusterM V (List NodeId) := do
  let s ← get
  Prog.select (fun id => do
    let up ← healthy c id
    pure (up && latest.isSome && describes s key latest id)) (sortedSet c (s.hotOf key))

/-- The first description that is no miss. -/
def firstDescription (key : Key) (latest : Option ReplicaMetadata) :
    List NodeId → ClusterM V (Option Engine.Explanation)
  | [] => pure none
  | id :: rest => do
    let s ← get
    if describes s key latest id then do
      match ← onStorage id (Engine.explainEntry (c.storage id) key) with
      | none => firstDescription key latest rest
      | some found => pure (some found)
    else firstDescription key latest rest

def explainEntry (key : Key) : ClusterM V (Option Engine.Explanation) := do
  validateKey key
  let _ ← detectFailures c
  let owners ← ringOwners c key
  let available ← availableOwners c owners
  let required := c.consistency.required owners.length
  if available.length < required then throw (quorumError "read" required available.length)
  else do
    let s ← get
    if ((s.latestMetadata key).map ReplicaMetadata.deleted).getD false then pure none
    else do
      let hot ← hotDescribers c key (s.latestMetadata key)
      firstDescription c key (s.latestMetadata key) (hot ++ available)

/-- Whether a key is short of available owners or one of them lags. -/
def keyDegraded (key : Key) : ClusterM V Bool := do
  let owners ← ringOwners c key
  let available ← availableOwners c owners
  if available.length < c.consistency.required owners.length then pure true
  else do
    let s ← get
    match s.latestMetadata key with
    | none => pure false
    | some latest => pure (owners.any fun id =>
        !((s.metadataOf id key).filter fun m => latest.version ≤ m.version).isSome)

/-- `_degraded_locked`. -/
def degraded : ClusterM V Bool := do
  let catalog ← walk c Cluster.catalogKeys
  let sound ← Prog.every (fun key => do
    let lag ← keyDegraded c key
    pure !lag) catalog
  if sound then do
    let s ← get
    let up ← Prog.every (healthy c) s.ring.nodeIds
    pure !up
  else pure true

/-- `topology`, of which the leader, the term and whether the cluster is degraded are
kept; `status` reports on it. -/
def topology : ClusterM V (FenceToken × Bool) := do
  let _ ← detectFailures c
  let _ ← readClock c
  let s ← get
  let lag ← degraded c
  pure (s.fence, lag)

/-- The figures of `stats` that come from the coordinator and that the clock decides. -/
structure Stats where
  healthyNodes : ℕ
  degraded : Bool
  retainedTombstones : ℕ
  activeLeases : ℕ

/-- The statistics of one storage; those of a removed node are not asked for. -/
def nodeStats (id : NodeId) : ClusterM V Unit := do
  let s ← get
  if (s.node id).status = .removed then pure ()
  else do
    let _ ← onStorage id (Engine.stats (c.storage id))
    pure ()

def stats : ClusterM V Stats := do
  let now ← readClock c
  modify (purgeExpiredLeases now)
  let s ← get
  Prog.forEach (nodeStats c) s.nodeIds
  let up ← Prog.select (healthy c) s.nodeIds
  let lag ← degraded c
  let live ← Prog.collect (fun lease : ClusterLease => do
    let now ← readClock c
    pure (decide (now < lease.untilTime))) (s.leases.toList.map Prod.snd)
  pure ⟨up.length, lag, tombstoneCount s, live.count true⟩

end Cluster

/-! ## Runs -/

/-- A public call of `ClusterStorage`. -/
inductive ClusterCall (V : Type)
  | get (key : Key) (consistency : Option ConsistencyProfile)
  | put (args : Cluster.PutArgs V) (leaseToken : Option String)
      (consistency : Option ConsistencyProfile) (fence : Option FenceToken)
  | mget (keys : List Key)
  | mset (values : List (Key × V))
  | delete (key : Key) (consistency : Option ConsistencyProfile) (fence : Option FenceToken)
  | deleteMany (keys : List Key)
  | existsCount (keys : List Key)
  | expire (key : Key) (ttlSeconds : ℤ)
  | ttl (key : Key)
  | flush
  | size
  | keys
  | invalidateTags (tags : List Tag)
  | acquireLease (key : Key) (force : Bool)
  | releaseLease (key : Key) (leaseToken : String)
  | renewLease (key : Key) (leaseToken : String)
  | getOrLoad (key : Key) (loaded : Except PyError V) (ttlSeconds staleSeconds : Option ℤ)
      (tags : List Tag)
  | exportEntries (keys : Option (List Key))
  | restoreEntries (entries : List (StorageEntry V))
  | createSnapshot (id : NodeId) (keys : Option (List Key))
  | bootstrapNode (id : NodeId) (session : SnapshotSession)
  | replicateHotKey (key : Key) (extraReplicas : ℕ)
  | releaseHotKey (key : Key)
  | recordLoadCost (key : Key) (durationMs : ℚ)
  | explainEntry (key : Key)
  | topology
  | stats
  | leadership
  | assertFence (fence : FenceToken)
  | heartbeat (id : NodeId) (incarnation : Option ℤ)
  | detectFailures
  | markNodeDown (id : NodeId)
  | addNode (id : NodeId) (storage : Option (Engine V))
  | drainNode (id : NodeId)
  | removeNode (id : NodeId)
  | planRebalance
  | applyRebalance (plan : RebalancePlan)

namespace ClusterCall

variable {V : Type} (c : ClusterConfig V)

/-- The call without its result. -/
def exec : ClusterCall V → ClusterM V Unit
  | .get key consistency => (Cluster.getEntry c key consistency).discard
  | .put args leaseToken consistency fence => (Cluster.put c args leaseToken consistency fence).discard
  | .mget ks => (Cluster.mget c ks).discard
  | .mset values => (Cluster.mset c values).discard
  | .delete key consistency fence => (Cluster.delete c key consistency fence).discard
  | .deleteMany ks => (Cluster.deleteMany c ks).discard
  | .existsCount ks => (Cluster.existsCount c ks).discard
  | .expire key ttlSeconds => (Cluster.expire c key ttlSeconds).discard
  | .ttl key => (Cluster.ttl c key).discard
  | .flush => (Cluster.flush c).discard
  | .size => (Cluster.size c).discard
  | .keys => (Cluster.keys c).discard
  | .invalidateTags tags => (Cluster.invalidateTags c tags).discard
  | .acquireLease key force => (Cluster.acquireLease c key force).discard
  | .releaseLease key leaseToken => (Cluster.releaseLease key leaseToken).discard
  | .renewLease key leaseToken => (Cluster.renewLease c key leaseToken).discard
  | .getOrLoad key loaded ttlSeconds staleSeconds tags =>
    (Cluster.getOrLoad c key loaded ttlSeconds staleSeconds tags).discard
  | .exportEntries ks => (Cluster.exportSelected c ks).discard
  | .restoreEntries entries => (Cluster.restoreEntries c entries).discard
  | .createSnapshot id ks => (Cluster.createSnapshot c id ks).discard
  | .bootstrapNode id session => (Cluster.bootstrapNode c id session).discard
  | .replicateHotKey key extraReplicas => (Cluster.replicateHotKey c key extraReplicas).discard
  | .releaseHotKey key => (Cluster.releaseHotKey c key).discard
  | .recordLoadCost key durationMs => (Cluster.recordLoadCost c key durationMs).discard
  | .explainEntry key => (Cluster.explainEntry c key).discard
  | .topology => (Cluster.topology c).discard
  | .stats => (Cluster.stats c).discard
  | .leadership => (Cluster.leadership c).discard
  | .assertFence fence => (Cluster.assertFence fence).discard
  | .heartbeat id incarnation => (Cluster.heartbeat c id incarnation).discard
  | .detectFailures => (Cluster.detectFailures c).discard
  | .markNodeDown id => (Cluster.markNodeDown c id).discard
  | .addNode id storage => (Cluster.addNode c id storage).discard
  | .drainNode id => (Cluster.drainNode c id).discard
  | .removeNode id => (Cluster.removeNode c id).discard
  | .planRebalance => (Cluster.planRebalance c).discard
  | .applyRebalance plan => (Cluster.applyRebalance c plan).discard

/-- The coordinator after a call, whichever way it ended. -/
def run (call : ClusterCall V) (s : Cluster V) : Cluster V := (exec c call s).2

/-- The calls that change the membership, the ring or the health of nodes themselves. -/
def Membership : ClusterCall V → Prop
  | .heartbeat .. | .markNodeDown .. | .addNode .. | .drainNode .. | .removeNode ..
  | .applyRebalance .. => True
  | _ => False

/-- The calls that are made under a fence. -/
def Presents (fence : FenceToken) : ClusterCall V → Prop
  | .assertFence f => f = fence
  | .put _ _ _ f => f = some fence
  | .delete _ _ f => f = some fence
  | _ => False

end ClusterCall

theorem table_byte (table : List (SnapshotRecord String)) (hsize : table.length ≤ 100)
    {r : SnapshotRecord String} (hr : r ∈ table) :
    (UInt8.ofNat (48 + table.idxOf r)).toNat = 48 + table.idxOf r := by
  have hlt : table.idxOf r < table.length := List.idxOf_lt_length_iff.mpr hr
  rw [UInt8.toNat_ofNat']
  omega

theorem table_decode (table : List (SnapshotRecord String)) (hkeys : ∀ r ∈ table, r.rekeyed = r)
    (hsize : table.length ≤ 100) {r : SnapshotRecord String} {b : List UInt8} :
    (if r ∈ table then some [UInt8.ofNat (48 + table.idxOf r)] else none) = some b →
      (match b with
        | [b] => table[b.toNat - 48]?
        | _ => none) = some r.rekeyed := by
  intro h
  split_ifs at h with hr
  obtain rfl := Option.some.inj h
  have hlt : table.idxOf r < table.length := List.idxOf_lt_length_iff.mpr hr
  simp only [table_byte table hsize hr, Nat.add_sub_cancel_left, List.getElem?_eq_getElem hlt,
    List.getElem_idxOf, hkeys r hr]

theorem table_line (table : List (SnapshotRecord String)) (hsize : table.length ≤ 100)
    {r : SnapshotRecord String} {b : List UInt8}
    (h : (if r ∈ table then some [UInt8.ofNat (48 + table.idxOf r)] else none) = some b) :
    b ≠ [] ∧ 10 ∉ b ∧ 13 ∉ b := by
  split_ifs at h with hr
  obtain rfl := Option.some.inj h
  refine ⟨by simp, ?_, ?_⟩
  all_goals
    rw [List.mem_singleton]
    intro he
    have hlow := congrArg UInt8.toNat he
    rw [table_byte table hsize hr] at hlow
    simp at hlow
    omega

theorem rekeyed_nil : ∀ r ∈ ([] : List (SnapshotRecord String)), r.rekeyed = r := by simp

theorem length_nil_le : ([] : List (SnapshotRecord String)).length ≤ 100 := by simp

/-- The records of a table, each sent as one byte. -/
def tableWire (table : List (SnapshotRecord String)) (hkeys : ∀ r ∈ table, r.rekeyed = r)
    (hsize : table.length ≤ 100) : Wire String where
  encode r := if r ∈ table then some [UInt8.ofNat (48 + table.idxOf r)] else none
  decode line := match line with
    | [b] => table[b.toNat - 48]?
    | _ => none
  decode_encode := table_decode table hkeys hsize
  encode_line := table_line table hsize

/-- The elements of a set in increasing order. -/
def ascending (set : Finset String) : List String :=
  Quot.lift (fun l : List String => l.insertionSort (· ≤ ·)) (by
    intro l l' h
    apply List.Perm.eq_of_pairwise' (List.pairwise_insertionSort _ l) (List.pairwise_insertionSort _ l')
    exact ((List.perm_insertionSort _ l).trans h).trans (List.perm_insertionSort _ l').symm) set.val

theorem ascending_perm (set : Finset String) : (ascending set : Multiset String) = set.val := by
  obtain ⟨m, hm⟩ := set
  induction m using Quot.ind with
  | mk l => exact Quot.sound (List.perm_insertionSort _ l)

/-- A storage for a few text values whose clock stands still. -/
def smallStorage : EngineConfig String where
  maxEntries := 8
  defaultTtlSeconds := 60
  defaultStaleSeconds := 60
  leaseSeconds := 30
  maxMemoryBytes := 4096
  maxEntryBytes := 1024
  evictionPolicy := .lru
  clock _ := 0
  tokenUrlsafe n := String.ofList (List.replicate (n + 1) 't')
  evictionScore _ _ := 0
  codec := textCodec
  positive := by decide
  clock_mono := stopped_mono

/-- A cluster of small storages in which every node of a ring of two owns every key. -/
def smallCluster (clock : ℕ → ℚ) (hclock : Monotone clock) (wire : Wire String)
    (fault : NodeId → ℕ → Option PyError) : ClusterConfig String where
  replicaCount := 2
  virtualNodes := 1
  consistency := .majority
  heartbeatTimeout := 10
  leaseSeconds := 30
  snapshotPayloadLimit := 100
  snapshotChunkBytes := 100
  snapshotMaxInFlight := 1
  maxLeases := 10
  maxLeaseMemoryBytes := 4096
  maxRetainedTombstones := 10
  maxHotReplicaKeys := 10
  clock := clock
  tokenUrlsafe n := String.ofList (List.replicate (n + 1) 't')
  setOrder _ set := ascending set
  hash := ⟨String.length, fun _ _ _ => ""⟩
  hexdigest _ := ""
  planDigest _ := ""
  wire := wire
  codec := textCodec
  storage _ := smallStorage
  fault := fault
  positive := by decide
  clock_mono := hclock
  setOrder_nodup _ set := by
    rw [← Multiset.coe_nodup, ascending_perm]
    exact set.nodup
  mem_setOrder _ set x := by
    rw [← Multiset.mem_coe, ascending_perm, Finset.mem_val]
  storage_codec _ := rfl

namespace Cluster

variable {V : Type} (c : ClusterConfig V)

/-- The coordinator after a run of calls. -/
def runs (s : Cluster V) (calls : List (ClusterCall V)) : Cluster V :=
  calls.foldl (fun s call => ClusterCall.run c call s) s

/-- The states that the runs of a newly created coordinator reach. -/
inductive Reachable : Cluster V → Prop
  | create {nodes s} (h : create c nodes = .ok s) : Reachable s
  | call {s} (op : ClusterCall V) (h : Reachable s) : Reachable (ClusterCall.run c op s)

theorem Reachable.runs {c : ClusterConfig V} {s : Cluster V} (h : Reachable c s) (calls : List (ClusterCall V)) :
    Reachable c (runs c s calls) := by
  induction calls generalizing s with
  | nil => exact h
  | cons call calls ih => exact ih (.call call h)

end Cluster
end MegaCache
