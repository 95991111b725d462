import MegaCache.Cluster.Replication

/-!
# The cluster: snapshots, membership and rebalancing

Snapshots of a node and their installation on another one, the planner of
`ClusterStorage` and the transaction that publishes a new ring.
-/

namespace MegaCache
namespace Cluster

variable {V : Type} (c : ClusterConfig V)

/-! ## Snapshots -/

/-- The record of one key of a node, `none` when there is nothing to send.  An entry
without metadata gets the lowest version of its node. -/
def snapshotRecord (s : Cluster V) (id : NodeId) (entries : List (StorageEntry V)) (key : Key) :
    Option (SnapshotRecord V) :=
  let entry := entries.find? fun e => e.key = key
  match s.metadataOf id key with
  | none => entry.map fun e => ⟨some e, key, ⟨0, 0, id⟩, false⟩
  | some m => some ⟨entry, key, m.version, m.deleted || entry.isNone⟩

/-- The keys a snapshot covers: for `none` all that the node stores or knows of. -/
def snapshotKeys (id : NodeId) (keys : Option (List Key)) : ClusterM V (List Key) :=
  match keys with
  | some keys => pure (fromKeys keys)
  | none => do
    let stored ← onStorage id (Engine.keys (c.storage id))
    let s ← get
    pure (sortedIds (stored ++ (s.node id).metadata.keys))

def createSnapshot (id : NodeId) (keys : Option (List Key)) : ClusterM V SnapshotSession := do
  requireNode id
  let selected ← snapshotKeys c id keys
  let entries ← onStorage id (Engine.exportEntries (c.storage id) (some selected))
  let s ← get
  Prog.fromExcept (buildSession c.snapshot s.ring.version s.fence id
    (selected.filterMap (snapshotRecord s id entries)))

/-- Whether a record brings a tombstone. -/
def SnapshotRecord.dead (record : SnapshotRecord V) : Bool := record.deleted || record.entry.isNone

/-- Whether a record comes too late for a node: it is behind the watermark, behind a
known version, or differs from a known record of its version. -/
def outdated (s : Cluster V) (id : NodeId) (record : SnapshotRecord V) : Prop :=
  (s.metadataOf id record.key = none ∧ s.latestMetadata record.key = none ∧
    ∃ w, s.tombstoneGcWatermark = some w ∧ record.version ≤ w) ∨
  (∃ m, s.metadataOf id record.key = some m ∧ record.version < m.version) ∨
  (∃ m, s.latestMetadata record.key = some m ∧ record.version < m.version) ∨
  (∃ m, s.latestMetadata record.key = some m ∧ m.version = record.version ∧
    m.deleted ≠ SnapshotRecord.dead record) ∨
  (∃ m, s.metadataOf id record.key = some m ∧ m.version = record.version ∧
    m.deleted ≠ SnapshotRecord.dead record)

instance (s : Cluster V) (id : NodeId) (record : SnapshotRecord V) :
    Decidable (outdated s id record) := by
  unfold outdated
  infer_instance

/-- Whether a record is installed on a node; one that is not bound to the fence of
its session is an error. -/
def acceptRecord (id : NodeId) (fence : FenceToken) (record : SnapshotRecord V) :
    ClusterM V Bool := do
  if fence.term < record.version.term ∨
      record.version.term = fence.term ∧ record.version.leaderId ≠ fence.leaderId then
    throw (snapshotError "snapshot record is not bound to its leadership fence")
  else do
    let s ← get
    if outdated s id record then pure false
    else
      match (s.metadataOf id record.key).filter fun m =>
          m.version = record.version && !m.deleted with
      | none => pure true
      | some current => do
        let has ← nodeHasRecord c id record.key current
        pure (!has)

/-- The metadata that a record installs. -/
def recordMetadata (record : SnapshotRecord V) : ReplicaMetadata :=
  ⟨record.version, SnapshotRecord.dead record,
    match record.entry with
    | none => []
    | some entry => entry.tags⟩

/-- The entries that the accepted records bring. -/
def liveEntries (accepted : List (SnapshotRecord V)) : List (StorageEntry V) :=
  accepted.filterMap fun record => if record.deleted then none else record.entry

/-- The live entries restored all at once. -/
def installEntries (id : NodeId) (entries : List (StorageEntry V)) : ClusterM V Unit :=
  if entries.isEmpty then pure ()
  else do
    prevalidateRestore c id entries
    let _ ← storageRestore c id entries
    pure ()

/-- A tombstone deletes, every record leaves its metadata. -/
def installMetadata (id : NodeId) (record : SnapshotRecord V) : ClusterM V Unit := do
  if SnapshotRecord.dead record then do
    let _ ← storageDelete c id record.key
    modify (putMetadata id record.key (some (recordMetadata record)))
  else modify (putMetadata id record.key (some (recordMetadata record)))

/-- The accepted records installed on a node, or nothing at all. -/
def installRecords (id : NodeId) (accepted : List (SnapshotRecord V)) : ClusterM V Unit := do
  let checkpoints ← captureBackendCheckpoints [id]
  let old ← get
  tryCatch (do
    installEntries c id (liveEntries accepted)
    Prog.forEach (installMetadata c id) accepted) fun e => do
      restoreBackendCheckpoints checkpoints
      modify (resetNodes old [id])
      throw e

/-- The records of a session that fits the ring and the fence. -/
def sessionRecords (id : NodeId) (session : SnapshotSession) :
    ClusterM V (List (SnapshotRecord V)) := do
  requireNode id
  let s ← get
  if session.manifest.ringVersion ≠ s.ring.version then
    throw (snapshotError "snapshot uses a stale ring version")
  else if session.manifest.fence ≠ s.fence then
    throw (snapshotError "snapshot uses a stale leadership fence")
  else do
    let records ← Prog.fromExcept (receiveRecords c.snapshot session)
    if ¬(records.map SnapshotRecord.key).Nodup then
      throw (snapshotError "snapshot contains duplicate keys")
    else pure records

/-- `_bootstrap_locked`. -/
def bootstrapNode (id : NodeId) (session : SnapshotSession) : ClusterM V Unit := do
  let records ← sessionRecords c id session
  let accepted ← Prog.select (acceptRecord c id session.manifest.fence) records
  if accepted.isEmpty then modify (bump .snapshotBootstraps 1)
  else do
    installRecords c id accepted
    let _ ← gcTombstones c (some ((accepted.filter SnapshotRecord.deleted).map SnapshotRecord.key))
    modify (bump .snapshotBootstraps 1)

/-! ## Planning -/

/-- Whether an owner with the latest metadata misses the entry. -/
def missesLatest (key : Key) (latest : ReplicaMetadata) (id : NodeId) : ClusterM V Bool := do
  let s ← get
  match (s.metadataOf id key).filter fun m => m.version = latest.version && !m.deleted with
  | none => pure false
  | some _ => catchException (do
      let result ← storageGet c id key
      pure (result.state = .miss)) (pure false)

/-- A live key that a quorum of owners lost is deleted. -/
def reconcileLive (key : Key) (latest : ReplicaMetadata) : ClusterM V Unit := do
  let owners ← ringOwners c key
  let available ← availableOwners c owners
  let required := c.consistency.required owners.length
  if available.length < required then pure ()
  else do
    let absent ← Prog.select (missesLatest c key latest) available
    if required ≤ absent.length then do
      let _ ← deleteKeysTransaction c [key] c.consistency
      pure ()
    else pure ()

def reconcileKey (key : Key) : ClusterM V Unit := do
  let s ← get
  match s.latestMetadata key with
  | none => modify fun s => { s with catalogKeys := s.catalogKeys.erase key }
  | some latest => if latest.deleted then pure () else reconcileLive c key latest

/-- `_reconcile_absent_catalog_keys_locked`. -/
def reconcileAbsentCatalogKeys : ClusterM V Unit := do
  let s ← get
  Prog.forEach (reconcileKey c) (sortedSet c s.catalogKeys)

/-- The members with one of the statuses, sorted. -/
def withStatus (statuses : List NodeStatus) (s : Cluster V) : List NodeId :=
  sortedIds (s.nodeIds.filter fun id => (s.node id).status ∈ statuses)

/-- The members of the ring after the joining nodes came and the departing ones left. -/
def targetIds (s : Cluster V) : List NodeId :=
  sortedIds ((s.ring.nodeIds ++ withStatus [.joining] s).filter fun id =>
    id ∉ withStatus [.draining, .removing] s)

/-- The move of a key to a new owner, if that does not have its record already. -/
def planTarget (key : Key) (latest : ReplicaMetadata) (source : NodeId) (oldOwners : List NodeId)
    (target : NodeId) : ClusterM V (Option RebalanceMove) := do
  let current ← nodeHasRecord c target key latest
  pure (if target ∉ oldOwners ∨ ¬current then some ⟨key, source, target⟩ else none)

/-- The moves of one key. -/
def planKey (targetRing : ConsistentHashRing) (key : Key) : ClusterM V (List RebalanceMove) := do
  let oldOwners ← ringOwners c key
  let newOwners ← ownersIn c targetRing key
  let s ← get
  match s.latestMetadata key with
  | none => throw (rebalanceError ("no healthy latest-version source for key " ++ key))
  | some latest => do
    let candidates ← Prog.select (hasHealthyRecord c key latest) oldOwners
    match candidates.head? with
    | none => throw (rebalanceError ("no healthy latest-version source for key " ++ key))
    | some source => do
      let moves ← Prog.collect (planTarget c key latest source oldOwners) newOwners
      pure (moves.filterMap id)

/-- The plan made from its moves. -/
def makePlan (s : Cluster V) (targetRing : ConsistentHashRing) (moves : List RebalanceMove) :
    RebalancePlan where
  planId := c.planDigest ⟨s.ring.version, targetRing.fingerprint, withStatus [.joining] s,
    withStatus [.draining, .removing] s, moves, s.term, s.leaderId⟩
  fence := s.fence
  baseRingVersion := s.ring.version
  targetRing := targetRing
  moves := moves
  joiningNodes := withStatus [.joining] s
  departingNodes := withStatus [.draining, .removing] s

def planRebalance : ClusterM V RebalancePlan := do
  let _ ← detectFailures c
  reconcileAbsentCatalogKeys c
  let s ← get
  if h : targetIds s = [] then throw (rebalanceError "rebalance would remove every ring member")
  else do
    let targetRing := ConsistentHashRing.build c.hash (targetIds s) c.virtualNodes
      (s.ring.version + 1) h c.virtualNodes_pos
    let moves ← Prog.collect (planKey c targetRing) (sortedSet c s.catalogKeys)
    let s ← get
    pure (makePlan c s targetRing moves.flatten)

/-! ## Publishing a plan -/

def noSourceError (key : Key) : PyError :=
  rebalanceError ("rebalance has no healthy latest-version source for key " ++ key)

/-- The source of a move still has the latest record. -/
def checkSource (move : RebalanceMove) : ClusterM V Unit := do
  let s ← get
  match s.latestMetadata move.key with
  | none => throw (noSourceError move.key)
  | some latest => do
    let ok ← hasHealthyRecord c move.key latest move.sourceNodeId
    if ok then pure () else throw (noSourceError move.key)

/-- One move: a snapshot of the key on its source, installed on its target. -/
def applyMove (move : RebalanceMove) : ClusterM V Unit := do
  requireNode move.sourceNodeId
  requireNode move.targetNodeId
  checkSource c move
  let up ← healthy c move.targetNodeId
  if up then do
    let session ← createSnapshot c move.sourceNodeId (some [move.key])
    bootstrapNode c move.targetNodeId session
  else throw (rebalanceError ("rebalance target " ++ move.targetNodeId ++ " is unavailable"))

/-- One new owner of a key has its latest record. -/
def verifyTarget (key : Key) (latest : ReplicaMetadata) (id : NodeId) : ClusterM V Unit := do
  accessNode id
  let has ← nodeHasRecord c id key latest
  if has then pure ()
  else throw (rebalanceError ("latest version for key " ++ key ++
    " was not verified on target " ++ id))

def verifyKey (plan : RebalancePlan) (key : Key) : ClusterM V Unit := do
  let s ← get
  match s.latestMetadata key with
  | none => pure ()
  | some latest => do
    let owners ← ownersIn c plan.targetRing key
    Prog.forEach (verifyTarget c key latest) owners

/-- A departing node leaves the ring as drained or removed. -/
def departNode (id : NodeId) : ClusterM V Unit := do
  accessNode id
  modify fun s =>
    setStatus id (if (s.node id).status = .draining then .drained else .removed) s

/-- A joining node becomes active. -/
def joinNode (id : NodeId) : ClusterM V Unit := do
  accessNode id
  modify (setStatus id .active)

/-- A former owner gives up a key. -/
def cleanNode (key : Key) (desired : List NodeId) (id : NodeId) : ClusterM V Unit :=
  if id ∈ desired then pure ()
  else do
    let _ ← storageDelete c id key
    modify (putMetadata id key none)

def cleanKey (oldRing : ConsistentHashRing) (key : Key) : ClusterM V Unit := do
  let desired ← ringOwners c key
  Prog.forEach (cleanNode c key desired) oldRing.nodeIds

/-- The hot copies of a key that a new ring leaves. -/
def retainHot (s : Cluster V) (key : Key) (replicas : Finset NodeId) : Finset NodeId :=
  replicas.filter fun id => id ∈ s.nodeIds ∧ (s.node id).status = .active ∧
    id ∉ s.ring.owners c.hash key c.replicaCount

/-- One key of the loop over the hot copies. -/
def retainKey (s : Cluster V) (p : Key × Finset NodeId) : Cluster V :=
  if retainHot c s p.1 p.2 = ∅ then { s with hotReplicas := s.hotReplicas.erase p.1 }
  else { s with hotReplicas := s.hotReplicas.set p.1 (retainHot c s p.1 p.2) }

def retainHotReplicas (s : Cluster V) : Cluster V := s.hotReplicas.toList.foldl (retainKey c) s

/-- The part of `apply_rebalance` that is undone when it raises. -/
def applyBody (plan : RebalancePlan) (oldRing : ConsistentHashRing) : ClusterM V Unit := do
  Prog.forEach (applyMove c) plan.moves
  let catalog ← walk c Cluster.catalogKeys
  Prog.forEach (verifyKey c plan) catalog
  modify fun s => { s with ring := plan.targetRing }
  Prog.forEach joinNode plan.joiningNodes
  Prog.forEach departNode plan.departingNodes
  let catalog ← walk c Cluster.catalogKeys
  Prog.forEach (cleanKey c oldRing) catalog
  modify (retainHotReplicas c)

/-- The nodes whose storages a plan may change. -/
def affectedIds (oldRing : ConsistentHashRing) (plan : RebalancePlan) : List NodeId :=
  sortedIds (oldRing.nodeIds ++ plan.joiningNodes ++
    plan.moves.map RebalanceMove.targetNodeId)

/-- The ring, and metadata and status of the affected nodes, put back. -/
def resetMembership (old : Cluster V) (affected : List NodeId) (s : Cluster V) : Cluster V :=
  { s with
    ring := old.ring
    node := fun id =>
      if id ∈ affected then
        { s.node id with metadata := (old.node id).metadata, status := (old.node id).status }
      else s.node id }

/-- The checks of `apply_rebalance`. -/
def checkPlan (plan : RebalancePlan) : ClusterM V Unit := do
  let _ ← detectFailures c
  assertFence plan.fence
  let s ← get
  if plan.baseRingVersion ≠ s.ring.version then
    throw (rebalanceError "rebalance plan uses a stale ring version")
  else do
    let expected ← planRebalance c
    if expected.planId ≠ plan.planId then
      throw (rebalanceError "rebalance plan no longer matches membership")
    else pure ()

/-- The checkpointed part of `apply_rebalance`. -/
def applyChecked (plan : RebalancePlan) : ClusterM V Unit := do
  let s ← get
  Prog.forEach accessNode (affectedIds s.ring plan)
  let checkpoints ← captureBackendCheckpoints (affectedIds s.ring plan)
  let old ← get
  tryCatch (applyBody c plan old.ring) fun e => do
    restoreBackendCheckpoints checkpoints
    modify (resetMembership old (affectedIds old.ring plan))
    throw e

def applyRebalance (plan : RebalancePlan) : ClusterM V Unit := do
  checkPlan c plan
  applyChecked c plan
  let _ ← gcTombstones c none
  modify (bump .rebalances 1)
  electLeader c

/-! ## Membership -/

/-- `str.isspace` of one character. -/
def isSpace (ch : Char) : Bool :=
  ch.toNat ∈ [9, 10, 11, 12, 13, 28, 29, 30, 31, 32, 133, 160, 5760, 8232, 8233, 8239, 8287, 12288] ||
    8192 ≤ ch.toNat && ch.toNat ≤ 8202

/-- The check of `NodeIdentity`. -/
def checkIdentity (id : NodeId) : ClusterM V Unit :=
  if id = "" ∨ 128 < id.utf8ByteSize ∨ id.toList.any isSpace then
    throw (valueError "node_id must contain 1 to 128 non-whitespace UTF-8 bytes")
  else pure ()

/-- A node that joins with a storage. -/
def joiningNode (storage : Engine V) (now : ℚ) : ClusterNode V where
  storage := storage
  calls := 0
  status := .joining
  lastHeartbeat := now
  incarnation := 1
  metadata := .empty

def addNode (id : NodeId) (storage : Option (Engine V)) : ClusterM V RebalancePlan := do
  let s ← get
  if id ∈ s.nodeIds then throw (clusterError "node already exists")
  else do
    let now ← readClock c
    checkIdentity id
    modify fun s => { s with
      nodeIds := s.nodeIds ++ [id]
      node := Function.update s.node id (joiningNode (storage.getD Engine.init) now) }
    tryCatch (planRebalance c) fun e => do
      modify fun s => { s with nodeIds := s.nodeIds.erase id }
      throw e

/-- `drain_node` and `remove_node`: a ring member gets a departing status and the
rebalance is planned. -/
def departFrom (id : NodeId) (status : NodeStatus) (verb : String) :
    ClusterM V RebalancePlan := do
  requireNode id
  let s ← get
  if id ∉ s.ring.nodeIds then throw (clusterError "node is not an active ring member")
  else if s.ring.nodeIds.length ≤ 1 then
    throw (clusterError ("cannot " ++ verb ++ " the last ring member"))
  else do
    modify (setStatus id status)
    tryCatch (planRebalance c) fun e => do
      modify (setStatus id (s.node id).status)
      throw e

def drainNode (id : NodeId) : ClusterM V RebalancePlan := departFrom c id .draining "drain"

def removeNode (id : NodeId) : ClusterM V RebalancePlan := departFrom c id .removing "remove"

/-- The incarnation a heartbeat reports must not go back. -/
def checkIncarnation (id : NodeId) (incarnation : Option ℤ) : ClusterM V Unit :=
  match incarnation with
  | none => pure ()
  | some i => do
    let s ← get
    if i < (s.node id).incarnation then throw (clusterError "stale node incarnation")
    else modify fun s => s.modifyNode id fun n => { n with incarnation := i }

/-- A node that was heard of at time `now`. -/
def heardOf (id : NodeId) (now : ℚ) (s : Cluster V) : Cluster V :=
  s.modifyNode id fun n => { n with
    lastHeartbeat := now
    status := if n.status = .down then if id ∈ s.ring.nodeIds then .active else .joining
      else n.status }

def heartbeat (id : NodeId) (incarnation : Option ℤ) : ClusterM V Unit := do
  requireNode id
  checkIncarnation id incarnation
  let now ← readClock c
  modify (heardOf id now)
  modify (bump .heartbeats 1)
  electLeader c
  let _ ← gcTombstones c none
  pure ()

def markNodeDown (id : NodeId) : ClusterM V Unit := do
  requireNode id
  modify (setStatus id .down)
  modify (bump .nodeFailures 1)
  electLeader c

/-- `leadership`; the health reports of the coordinator change the state in the same way. -/
def leadership : ClusterM V FenceToken := do
  let _ ← detectFailures c
  let s ← get
  pure s.fence

end Cluster
end MegaCache
