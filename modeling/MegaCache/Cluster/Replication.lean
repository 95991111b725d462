import MegaCache.Cluster.Nodes

/-!
# The cluster: reads and writes

Quorum reads with repair, tombstone collection, replicated writes and the delete
transaction of `ClusterStorage`, and the public methods made from them.
-/

namespace MegaCache
namespace Cluster

variable {V : Type} (c : ClusterConfig V)

/-- `_profile`. -/
def profileOf (consistency : Option ConsistencyProfile) : ConsistencyProfile :=
  consistency.getD c.consistency

/-! ## Tombstones -/

/-- `_node_has_record_locked`. -/
def nodeHasRecord (id : NodeId) (key : Key) (expected : ReplicaMetadata) : ClusterM V Bool := do
  let s ← get
  match s.metadataOf id key with
  | none => pure false
  | some metadata =>
    if metadata.version ≠ expected.version then pure false
    else do
      let exported ← storageExport c id key
      pure (exported.isEmpty = metadata.deleted)

/-- Whether a node is healthy and has the record. -/
def hasHealthyRecord (key : Key) (expected : ReplicaMetadata) (id : NodeId) : ClusterM V Bool := do
  let up ← healthy c id
  if up then nodeHasRecord c id key expected else pure false

/-- The tombstone of a key that every owner has, if it has one. -/
def completeTombstone (key : Key) : ClusterM V (Option ReplicaMetadata) := do
  let s ← get
  match (s.latestMetadata key).filter ReplicaMetadata.deleted with
  | none => pure none
  | some latest => do
    let owners ← ringOwners c key
    let complete ← Prog.every (hasHealthyRecord c key latest) owners
    pure (if complete then some latest else none)

/-- The key taken out of every dictionary of metadata. -/
def eraseMetadata (key : Key) (s : Cluster V) : Cluster V :=
  { s with node := fun id => { s.node id with metadata := (s.node id).metadata.erase key } }

/-- The watermark raised to a version. -/
def raiseWatermark (version : VersionStamp) (s : Cluster V) : Cluster V :=
  { s with tombstoneGcWatermark := match s.tombstoneGcWatermark with
      | none => some version
      | some w => some (max w version) }

/-- What the collection of a complete tombstone does. -/
def dropTombstone (key : Key) (latest : ReplicaMetadata) (s : Cluster V) : Cluster V :=
  let s := raiseWatermark latest.version (eraseMetadata key s)
  let s := { s with
    catalogKeys := s.catalogKeys.erase key
    knownKeys := s.knownKeys.erase key }
  removeLease key (replaceKeyTags key [] s)

/-- One round of `_gc_tombstones_locked`. -/
def gcTombstone (key : Key) : ClusterM V Bool := do
  match ← completeTombstone c key with
  | none => pure false
  | some latest => do
    modify (dropTombstone key latest)
    pure true

/-- The keys a collection looks at: all of the catalog for `none`. -/
def gcSelection (keys : Option (List Key)) : ClusterM V (List Key) :=
  match keys with
  | none => walk c Cluster.catalogKeys
  | some keys => pure (fromKeys keys)

def gcTombstones (keys : Option (List Key)) : ClusterM V ℕ := do
  let selected ← gcSelection c keys
  let removed ← Prog.collect (gcTombstone c) selected
  if removed.count true = 0 then pure 0
  else do
    modify (bump .tombstonesCollected (removed.count true))
    pure (removed.count true)

/-- `_tombstone_count_locked`. -/
def tombstoneCount (s : Cluster V) : ℕ :=
  (s.catalogKeys.filter fun key =>
    ((s.latestMetadata key).map ReplicaMetadata.deleted).getD false).card

/-! ## Reads -/

/-- One replica's answer to a read. -/
structure Response (V : Type) where
  nodeId : NodeId
  result : CacheResult V
  metadata : Option ReplicaMetadata

namespace Response

/-- The version a response is ordered by; a replica without metadata comes first. -/
def version (r : Response V) : VersionStamp :=
  (r.metadata.map ReplicaMetadata.version).getD ⟨0, 0, r.nodeId⟩

/-- A tombstone comes after a hit and a hit after a miss. -/
def rank (r : Response V) : ℕ :=
  if (r.metadata.map ReplicaMetadata.deleted).getD false then 2
  else if r.result.state ≠ .miss then 1 else 0

/-- The order of the tuples `max` compares. -/
def lt (r q : Response V) : Prop :=
  r.version < q.version ∨ r.version = q.version ∧ r.rank < q.rank

instance (r q : Response V) : Decidable (r.lt q) := by
  unfold lt
  infer_instance

/-- The greater of two responses; the first one stays on a tie. -/
def better (r q : Response V) : Response V := if r.lt q then q else r

/-- `max(responses, key=...)`. -/
def best : List (Response V) → Option (Response V)
  | [] => none
  | r :: rest => some (rest.foldl better r)

end Response

/-- The hot copies of a key without one node. -/
def discardHot (key : Key) (id : NodeId) (s : Cluster V) : Cluster V :=
  match s.hotReplicas.get? key with
  | none => s
  | some replicas =>
    if replicas.erase id = ∅ then { s with hotReplicas := s.hotReplicas.erase key }
    else { s with hotReplicas := s.hotReplicas.set key (replicas.erase id) }

def pruneHotReplica (key : Key) (id : NodeId) : ClusterM V Unit := do
  modify (discardHot key id)
  modify (putMetadata id key none)
  catchException (do
    let _ ← storageDelete c id key
    pure ()) (modify (bump .hotReplicationErrors 1))

/-- What a read makes of the answer of a hot copy: a miss is pruned. -/
def acceptHot (key : Key) (id : NodeId) (metadata : Option ReplicaMetadata)
    (result : Option (CacheResult V)) : ClusterM V (Option (Response V)) :=
  match result with
  | none => pure none
  | some result =>
    if result.state = .miss then do
      pruneHotReplica c key id
      pure none
    else pure (some ⟨id, result, metadata⟩)

/-- The answer of a storage, `none` when it raises a `ValueError` or a `TypeError`. -/
def answer (id : NodeId) (key : Key) : ClusterM V (Option (CacheResult V)) :=
  catchValue (do
    let result ← storageGet c id key
    pure (some result)) (pure none)

/-- The response of one hot copy, which is pruned unless it has the latest live version. -/
def hotResponse (key : Key) (latest : Option ReplicaMetadata) (id : NodeId) :
    ClusterM V (Option (Response V)) := do
  let s ← get
  let up ← healthy c id
  if !up || latest.isNone || s.metadataOf id key ≠ latest ||
      (latest.map ReplicaMetadata.deleted).getD false then do
    pruneHotReplica c key id
    pure none
  else do
    let result ← answer c id key
    acceptHot c key id latest result

/-- The responses of the owners; a read of one replica stops at the first. -/
def ownerResponses (key : Key) (profile : ConsistencyProfile) :
    List NodeId → ClusterM V (List (Response V))
  | [] => pure []
  | id :: rest => do
    let result ← answer c id key
    match result with
    | none => ownerResponses key profile rest
    | some result => do
      let s ← get
      if profile = .one then pure [⟨id, result, s.metadataOf id key⟩]
      else do
        let more ← ownerResponses key profile rest
        pure (⟨id, result, s.metadataOf id key⟩ :: more)

/-- The entry that a repair copies: none for a tombstone or a miss. -/
def repairEntry (key : Key) (winner : Response V) (metadata : ReplicaMetadata) :
    ClusterM V (Option (StorageEntry V)) :=
  if metadata.deleted ∨ winner.result.state = .miss then pure none
  else do
    let exported ← storageExport c winner.nodeId key
    pure exported.head?

/-- Whether a repair leaves a replica as it is. -/
def upToDate (metadata : ReplicaMetadata) (r : Response V) : Prop :=
  match r.metadata with
  | none => False
  | some m => metadata.version < m.version ∨ m.version = metadata.version ∧
      (metadata.deleted = true ∧ r.result.state = .miss ∨
        metadata.deleted = false ∧ r.result.state ≠ .miss)

instance (metadata : ReplicaMetadata) (r : Response V) : Decidable (upToDate metadata r) := by
  unfold upToDate
  cases r.metadata <;> infer_instance

/-- The winner's record installed on one replica. -/
def installRecord (id : NodeId) (key : Key) (metadata : ReplicaMetadata)
    (entry : Option (StorageEntry V)) : ClusterM V Unit := do
  match entry with
  | none => do
    let _ ← storageDelete c id key
    modify (putMetadata id key (some metadata))
  | some entry => do
    let _ ← storageRestore c id [entry]
    modify (putMetadata id key (some metadata))

def repairReplica (key : Key) (winner : Response V) (metadata : ReplicaMetadata)
    (entry : Option (StorageEntry V)) (r : Response V) : ClusterM V Unit :=
  if r.nodeId = winner.nodeId ∨ upToDate metadata r then pure ()
  else catchValue (do
    installRecord c r.nodeId key metadata entry
    modify (bump .readRepairs 1)) (modify (bump .readRepairErrors 1))

def readRepair (key : Key) (winner : Response V) (responses : List (Response V)) :
    ClusterM V Unit :=
  match winner.metadata with
  | none => pure ()
  | some metadata => do
    let entry ← repairEntry c key winner metadata
    Prog.forEach (repairReplica c key winner metadata entry) responses

/-- The responses of a read, the hot copies first. -/
def readResponses (key : Key) (profile : ConsistencyProfile) : ClusterM V (List (Response V)) := do
  let _ ← detectFailures c
  let owners ← ringOwners c key
  let available ← availableOwners c owners
  let required := profile.required owners.length
  if available.length < required then throw (quorumError "read" required available.length)
  else do
    let s ← get
    let hot ← Prog.collect (hotResponse c key (s.latestMetadata key))
      (sortedSet c (s.hotOf key))
    let answers ← ownerResponses c key profile available
    if answers.length < required then throw (quorumError "read" required answers.length)
    else pure (hot.filterMap id ++ answers)

/-- What a read returns for its winner: a tombstone is a miss. -/
def winnerResult (winner : Response V) : CacheResult V :=
  if (winner.metadata.map ReplicaMetadata.deleted).getD false then .miss else winner.result

/-- A quorum read that missed forgets the key and its tags. -/
def forgetMissed (key : Key) (s : Cluster V) : Cluster V :=
  replaceKeyTags key [] { s with knownKeys := s.knownKeys.erase key }

/-- The repairs after a read of more than one replica. -/
def settleRead (key : Key) (winner : Response V) (responses : List (Response V)) :
    ClusterM V Unit := do
  readRepair c key winner responses
  let _ ← gcTombstones c (some [key])
  if (winnerResult winner).state = .miss then modify (forgetMissed key) else pure ()

/-- `_read_locked`: the result, the node it came from and that node's metadata. -/
def read (key : Key) (profile : ConsistencyProfile) :
    ClusterM V (CacheResult V × NodeId × Option ReplicaMetadata) := do
  let responses ← readResponses c key profile
  match Response.best responses with
  | none => throw (valueError "max() arg is an empty sequence")
  | some winner => do
    if profile = .one then pure () else settleRead c key winner responses
    pure (winnerResult winner, winner.nodeId, winner.metadata)

def getEntry (key : Key) (consistency : Option ConsistencyProfile) :
    ClusterM V (CacheResult V) := do
  validateKey key
  let r ← read c key (profileOf c consistency)
  pure r.1

/-! ## Replicated writes -/

/-- The arguments of a write. -/
structure PutArgs (V : Type) where
  key : Key
  value : V
  ttlSeconds : Option ℤ
  staleSeconds : Option ℤ
  tags : List Tag
  persistent : Bool

/-- `storage.put(...)`. -/
def storagePut (id : NodeId) (a : PutArgs V) : ClusterM V (CacheResult V) :=
  faulty c id (Engine.put (c.storage id) a.key a.value a.ttlSeconds a.staleSeconds a.tags none
    a.persistent)

/-- The metadata of one key put back as it was in `old`. -/
def resetMetadata (old : Cluster V) (key : Key) (ids : List NodeId) (s : Cluster V) : Cluster V :=
  ids.foldl (fun s id => putMetadata id key (old.metadataOf id key) s) s

/-- The state of the loop of `_replicate_put_locked`. -/
structure WriteProgress (V : Type) where
  checkpoints : Checkpoints V
  successes : List NodeId
  result : Option (CacheResult V)

/-- Everything a write did so far undone. -/
def abortWrite (old : Cluster V) (key : Key) (available : List NodeId)
    (checkpoints : Checkpoints V) {α : Type} (e : PyError) : ClusterM V α := do
  restoreBackendCheckpoints checkpoints
  modify (resetMetadata old key available)
  modify fun s => { s with sequence := old.sequence }
  throw e

/-- The handler of a failed replica: it is restored, and the write goes on unless
the error is a `ValueError`, a `TypeError` or no `Exception`. -/
def replicaFailed (old : Cluster V) (key : Key) (available : List NodeId)
    (progress : WriteProgress V) (id : NodeId) (e : PyError) : ClusterM V (WriteProgress V) := do
  let checkpoints ← popCheckpoint progress.checkpoints id
  modify (resetMetadata old key [id])
  if e.isValueOrType || !e.isException then abortWrite old key available checkpoints e
  else pure { progress with checkpoints := checkpoints }

/-- One replica written. -/
def writeReplica (old : Cluster V) (a : PutArgs V) (available : List NodeId)
    (version : VersionStamp) (progress : WriteProgress V) (id : NodeId) :
    ClusterM V (WriteProgress V) :=
  tryCatch (do
    let written ← storagePut c id a
    modify (putMetadata id a.key (some ⟨version, false, tagTuple a.tags⟩))
    pure { progress with
      successes := progress.successes ++ [id]
      result := some (progress.result.getD written) })
    (replicaFailed old a.key available progress id)

/-- The end of a write: too few replicas undo it. -/
def finishWrite (old : Cluster V) (key : Key) (available : List NodeId) (required : ℕ)
    (progress : WriteProgress V) : ClusterM V (CacheResult V) :=
  if progress.successes.length < required then
    abortWrite old key available progress.checkpoints
      (quorumError "write" required progress.successes.length)
  else do
    commitBackendCheckpoints progress.checkpoints
    modify (bump .replicatedWrites 1)
    match progress.result with
    | none => throw ⟨.exception, "assert result is not None"⟩
    | some result => pure result

/-- The replicas that a write goes to, after every one of them accepted its arguments. -/
def writeTargets (a : PutArgs V) (profile : ConsistencyProfile) :
    ClusterM V (List NodeId × ℕ) := do
  let owners ← ringOwners c a.key
  let available ← availableOwners c owners
  let required := profile.required owners.length
  if available.length < required then throw (quorumError "write" required available.length)
  else do
    Prog.forEach (fun id => prevalidatePut c id a.key a.value a.ttlSeconds a.staleSeconds a.tags
      a.persistent) available
    pure (available, required)

def replicatePut (a : PutArgs V) (profile : ConsistencyProfile) : ClusterM V (CacheResult V) := do
  let (available, required) ← writeTargets c a profile
  let checkpoints ← captureMutationCheckpoints available [a.key]
  let old ← get
  let version ← nextVersion
  let progress ← Prog.fold (writeReplica c old a available version) ⟨checkpoints, [], none⟩
    available
  finishWrite old a.key available required progress

/-- The lease check of a write. -/
def checkLease (key : Key) (leaseToken : Option String) : ClusterM V Unit :=
  match leaseToken with
  | none => pure ()
  | some token => validateLease c key token

/-- The coordinator's books after a key was written. -/
def recordWrite (key : Key) (tags : List Tag) (s : Cluster V) : Cluster V :=
  let s := replaceKeyTags key tags s
  { s with knownKeys := insert key s.knownKeys, catalogKeys := insert key s.catalogKeys }

/-- The fence a caller gave, or the current one. -/
def selectedFence (fence : Option FenceToken) : ClusterM V FenceToken := do
  let s ← get
  pure (fence.getD s.fence)

def put (a : PutArgs V) (leaseToken : Option String) (consistency : Option ConsistencyProfile)
    (fence : Option FenceToken) : ClusterM V (CacheResult V) := do
  validateKey a.key
  let tags ← normalizeTags a.tags
  let _ ← detectFailures c
  let fence ← selectedFence fence
  assertFence fence
  checkLease c a.key leaseToken
  let result ← replicatePut c { a with tags := tags } (profileOf c consistency)
  modify (removeLease a.key)
  modify (recordWrite a.key tags)
  pure result

def mget (keys : List Key) : ClusterM V (List (CacheResult V)) :=
  Prog.collect (fun key => getEntry c key none) keys

/-- The arguments with which `mset` writes one pair. -/
def msetArgs (item : Key × V) : PutArgs V := ⟨item.1, item.2, none, none, [], true⟩

/-- The checks `mset` makes for one pair; the result are the replicas it goes to.
For a key given twice the second check finds no replica that the first did not. -/
def msetCheck (item : Key × V) : ClusterM V (List NodeId) := do
  validateKey item.1
  let (available, _) ← writeTargets c (msetArgs item) c.consistency
  pure available

def msetWrite (item : Key × V) : ClusterM V Unit := do
  let _ ← replicatePut c (msetArgs item) c.consistency
  modify (recordWrite item.1 [])
  modify (removeLease item.1)

/-- The dictionaries of metadata of some nodes put back as they were in `old`. -/
def resetNodes (old : Cluster V) (ids : List NodeId) (s : Cluster V) : Cluster V :=
  { s with node := fun id =>
      if id ∈ ids then { s.node id with metadata := (old.node id).metadata } else s.node id }

/-- The fields of the coordinator that `mset`, `restore_entries` and the delete
transaction all put back. -/
def resetBooks (old s : Cluster V) : Cluster V :=
  { s with
    sequence := old.sequence
    knownKeys := old.knownKeys
    catalogKeys := old.catalogKeys
    keyTags := old.keyTags
    tagKeys := old.tagKeys
    metrics := old.metrics }

/-- The leases put back. -/
def resetLeases (old s : Cluster V) : Cluster V :=
  { s with leases := old.leases, leaseBytes := old.leaseBytes }

def mset (values : List (Key × V)) : ClusterM V Unit := do
  let available ← Prog.collect (msetCheck c) values
  let ids := sortedIds available.flatten
  let checkpoints ← captureBackendCheckpoints ids
  let old ← get
  tryCatch (Prog.forEach (msetWrite c) values) fun e => do
    restoreBackendCheckpoints checkpoints
    modify fun s => resetLeases old (resetBooks old (resetNodes old ids s))
    throw e

/-! ## Deletes -/

/-- The replicas of a key that is deleted. -/
structure Availability where
  key : Key
  available : List NodeId
  required : ℕ
  /-- the delete leaves a tombstone that waits for an unavailable owner -/
  risky : Bool

def deleteCheck (profile : ConsistencyProfile) (key : Key) : ClusterM V Availability := do
  let owners ← ringOwners c key
  let available ← availableOwners c owners
  let required := profile.required owners.length
  if available.length < required then throw (quorumError "delete" required available.length)
  else do
    let s ← get
    pure ⟨key, available, required,
      !((s.latestMetadata key).map ReplicaMetadata.deleted).getD false &&
        decide (available.length < owners.length)⟩

def tombstoneLimitError : PyError :=
  clusterError ("retained tombstone limit reached; recover or remove " ++
    "unavailable replicas before deleting more keys")

/-- The metadata of the selected keys put back on every node. -/
def resetSelected (old : Cluster V) (selected : List Key) (s : Cluster V) : Cluster V :=
  selected.foldl (fun s key => resetMetadata old key old.nodeIds s) s

/-- The outer handler of the delete transaction, with the checkpoints that are left. -/
def abortDelete (old : Cluster V) (selected : List Key) (checkpoints : Checkpoints V) {α : Type}
    (e : PyError) : ClusterM V α := do
  restoreBackendCheckpoints checkpoints
  modify (resetSelected old selected)
  modify fun s => { resetLeases old (resetBooks old s) with
    tombstoneGcWatermark := old.tombstoneGcWatermark }
  throw e

/-- The state of the loop over the nodes; `failed` is an error that ends it. -/
structure DeleteProgress (V : Type) where
  checkpoints : Checkpoints V
  successes : List (Key × NodeId)
  failed : Option PyError

/-- The tombstones of a node's keys. -/
def entomb (id : NodeId) (versions : List (Key × VersionStamp)) (s : Cluster V) : Cluster V :=
  versions.foldl (fun s p => putMetadata id p.1 (some ⟨p.2, true, []⟩) s) s

/-- The handler of a failed node: it is restored, and the loop goes on unless the
error is a `ValueError`, a `TypeError` or no `Exception`. -/
def nodeFailed (old : Cluster V) (selected : List Key) (progress : DeleteProgress V) (id : NodeId)
    (e : PyError) : ClusterM V (DeleteProgress V) := do
  let checkpoints ← popCheckpoint progress.checkpoints id
  modify fun s => selected.foldl (fun s key => resetMetadata old key [id] s) s
  pure { progress with
    checkpoints := checkpoints
    failed := if e.isValueOrType || !e.isException then some e else none }

/-- One node of the delete transaction, with its keys and their versions. -/
def deleteOnNode (old : Cluster V) (selected : List Key) (versions : NodeId → List (Key × VersionStamp))
    (progress : DeleteProgress V) (id : NodeId) : ClusterM V (DeleteProgress V) :=
  if progress.failed.isSome then pure progress
  else tryCatch (do
    Prog.forEach (fun p => do
      let _ ← storageDelete c id p.1
      pure ()) (versions id)
    modify (entomb id (versions id))
    pure { progress with successes := progress.successes ++ (versions id).map fun p => (p.1, id) })
    (nodeFailed old selected progress id)

/-- The quorum check of one key after the loop. -/
def deleteQuorum (successes : List (Key × NodeId)) (a : Availability) : ClusterM V Unit :=
  let n := successes.countP fun p => p.1 = a.key
  if n < a.required then throw (quorumError "delete" a.required n) else pure ()

/-- A hot copy of a deleted key. -/
def deleteHot (key : Key) (id : NodeId) : ClusterM V Unit :=
  catchException (do
    let _ ← storageDelete c id key
    modify (putMetadata id key none)) (modify (bump .hotReplicationErrors 1))

/-- The coordinator's books after a key was deleted. -/
def recordDelete (key : Key) : ClusterM V Unit := do
  modify fun s => replaceKeyTags key [] s
  modify fun s => { s with
    knownKeys := s.knownKeys.erase key
    catalogKeys := insert key s.catalogKeys }
  let hot ← walk c fun s => s.hotOf key
  Prog.forEach (deleteHot c key) hot
  modify fun s => { s with hotReplicas := s.hotReplicas.erase key }
  modify (removeLease key)

/-- The part of the transaction after the loop over the nodes. -/
def deleteFinish (selected : List Key) (availability : List Availability)
    (successes : List (Key × NodeId)) : ClusterM V Unit := do
  Prog.forEach (deleteQuorum successes) availability
  Prog.forEach (recordDelete c) selected
  let _ ← gcTombstones c (some selected)
  let s ← get
  if c.maxRetainedTombstones < tombstoneCount s then throw tombstoneLimitError else pure ()

/-- Whether a read of the key hits. -/
def existed (profile : ConsistencyProfile) (key : Key) : ClusterM V Bool := do
  let r ← read c key profile
  pure (r.1.state ≠ .miss)

/-- A fresh version for a key. -/
def versionFor (key : Key) : ClusterM V (Key × VersionStamp) := do
  let version ← nextVersion
  pure (key, version)

/-- The keys of a node among those deleted, with their versions. -/
def versionsOn (availability : List Availability) (versions : List (Key × VersionStamp))
    (id : NodeId) : List (Key × VersionStamp) :=
  versions.filter fun p => availability.any fun a => a.key = p.1 && a.available.contains id

/-- The body of the transaction: reads, tombstones and the books.  Where the source
has one handler around all of it, each part that can raise has it here, with the
checkpoints that are left at that point. -/
def deleteBody (profile : ConsistencyProfile) (selected : List Key)
    (availability : List Availability) (ids : List NodeId) (old : Cluster V)
    (checkpoints : Checkpoints V) : ClusterM V (Checkpoints V × List Bool) := do
  let hits ← tryCatch (Prog.collect (existed c profile) selected)
    (abortDelete old selected checkpoints)
  let versions ← Prog.collect versionFor selected
  let progress ← tryCatch (Prog.fold
      (deleteOnNode c old selected (versionsOn availability versions)) ⟨checkpoints, [], none⟩ ids)
    (abortDelete old selected checkpoints)
  match progress.failed with
  | some e => abortDelete old selected progress.checkpoints e
  | none => do
    tryCatch (deleteFinish c selected availability progress.successes)
      (abortDelete old selected progress.checkpoints)
    pure (progress.checkpoints, hits)

/-- `_delete_keys_transaction_locked` for the distinct keys `selected`. -/
def deleteSelected (selected : List Key) (profile : ConsistencyProfile) : ClusterM V ℕ := do
  let _ ← gcTombstones c none
  let s ← get
  let availability ← Prog.collect (deleteCheck c profile) selected
  if c.maxRetainedTombstones < tombstoneCount s + availability.countP Availability.risky then
    throw tombstoneLimitError
  else do
    let ids := sortedIds (availability.flatMap Availability.available)
    let old ← get
    let checkpoints ← captureMutationCheckpoints ids selected
    let (checkpoints, hits) ← deleteBody c profile selected availability ids old checkpoints
    commitBackendCheckpoints checkpoints
    modify (bump .replicatedDeletes selected.length)
    pure (hits.count true)

def deleteKeysTransaction (keys : List Key) (profile : ConsistencyProfile) : ClusterM V ℕ := do
  Prog.forEach validateKey keys
  if fromKeys keys = [] then pure 0 else deleteSelected c (fromKeys keys) profile

def delete (key : Key) (consistency : Option ConsistencyProfile) (fence : Option FenceToken) :
    ClusterM V Bool := do
  validateKey key
  let _ ← detectFailures c
  let fence ← selectedFence fence
  assertFence fence
  let n ← deleteKeysTransaction c [key] (profileOf c consistency)
  pure (n ≠ 0)

def deleteMany (keys : List Key) : ClusterM V ℕ := do
  let _ ← detectFailures c
  let s ← get
  assertFence s.fence
  deleteKeysTransaction c keys c.consistency

/-- The keys indexed under one of the tags, sorted. -/
def taggedKeys (tags : List Tag) (s : Cluster V) : List Key :=
  sortedSet c (tags.foldr (fun tag keys => (s.tagKeys.get? tag).getD ∅ ∪ keys) ∅)

def invalidateTags (tags : List Tag) : ClusterM V ℕ := do
  let normalized ← normalizeTags tags
  let s ← get
  if taggedKeys c normalized s = [] then pure 0
  else do
    let removed ← deleteKeysTransaction c (taggedKeys c normalized s) c.consistency
    modify (bump .invalidations removed)
    pure removed

/-! ## Other public methods -/

def existsCount (keys : List Key) : ClusterM V ℕ := do
  let results ← Prog.collect (fun key => getEntry c key none) keys
  pure (results.countP fun r => r.state ≠ .miss)

/-- The entry of a key exported from the node a read came from. -/
def exportHit (key : Key) : ClusterM V (Option (StorageEntry V)) := do
  let r ← read c key c.consistency
  if r.1.state = .miss then pure none
  else do
    let exported ← storageExport c r.2.1 key
    pure exported.head?

def expire (key : Key) (ttlSeconds : ℤ) : ClusterM V Bool := do
  if ttlSeconds ≤ 0 then throw (valueError "ttl_seconds must be a positive integer")
  else do
    match ← exportHit c key with
    | none => pure false
    | some entry => do
      let _ ← replicatePut c ⟨key, entry.value, some ttlSeconds, some 0, entry.tags, false⟩
        c.consistency
      pure true

def ttl (key : Key) : ClusterM V ℤ := do
  let r ← read c key c.consistency
  if r.1.state = .miss then pure (-2) else onStorage r.2.1 (Engine.ttl (c.storage r.2.1) key)

def exportEntries (keys : List Key) : ClusterM V (List (StorageEntry V)) := do
  let exported ← Prog.collect (exportHit c) keys
  pure (exported.filterMap id)

/-- The live ones of some keys. -/
def liveKeys (keys : List Key) : ClusterM V (List Key) :=
  Prog.select (fun key => do
    let r ← getEntry c key none
    pure (r.state ≠ .miss)) keys

def size : ClusterM V ℕ := do
  let known ← walk c Cluster.knownKeys
  let live ← liveKeys c known
  pure live.length

def keys : ClusterM V (List Key) := do
  let known ← walk c Cluster.knownKeys
  liveKeys c (sortedIds known)

/-- One node of `flush`. -/
def flushNode (id : NodeId) : ClusterM V Unit := do
  let s ← get
  if (s.node id).status = .removed then pure ()
  else do
    let _ ← onStorage id (Engine.flush : EngineM V ℕ)
    modify fun s => s.modifyNode id fun n => { n with metadata := .empty }

def flush : ClusterM V ℕ := do
  let _ ← detectFailures c
  let s ← get
  let up ← Prog.select (healthy c) s.ring.nodeIds
  if up.length < s.ring.nodeIds.length then
    throw ⟨.quorumError, "flush requires every ring member to be available"⟩
  else do
    let removed ← size c
    Prog.forEach flushNode s.nodeIds
    let version ← nextVersion
    modify fun s => { s with
      tombstoneGcWatermark := some version
      knownKeys := ∅
      catalogKeys := ∅
      hotReplicas := .empty
      keyTags := .empty
      tagKeys := .empty
      leases := .empty
      leaseBytes := 0 }
    pure removed

/-! ## Restoring entries -/

/-- The replicas of a restored entry. -/
structure RestoreTarget (V : Type) where
  entry : StorageEntry V
  available : List NodeId
  required : ℕ

def restoreCheck (entry : StorageEntry V) : ClusterM V (RestoreTarget V) := do
  let owners ← ringOwners c entry.key
  let available ← availableOwners c owners
  let required := c.consistency.required owners.length
  if available.length < required then throw (quorumError "restore" required available.length)
  else pure ⟨entry, available, required⟩

/-- The entries of `node_entries[id]`. -/
def entriesOn (targets : List (RestoreTarget V)) (id : NodeId) : List (StorageEntry V) :=
  (targets.filter fun t => t.available.contains id).map RestoreTarget.entry

/-- The metadata of the restored entries of one node. -/
def recordRestored (id : NodeId) (versions : List (Key × VersionStamp))
    (entries : List (StorageEntry V)) (s : Cluster V) : Cluster V :=
  entries.foldl (fun s entry =>
    match versions.lookup entry.key with
    | none => s
    | some version =>
      putMetadata id entry.key (some ⟨version, false, tagTuple entry.tags⟩) s) s

/-- The handler of a node that failed to restore. -/
def restoreFailed (old : Cluster V) (checkpoints : Checkpoints V) (id : NodeId)
    (successes : List (Key × NodeId)) (e : PyError) : ClusterM V (List (Key × NodeId)) :=
  if e.isException then do
    restoreNode checkpoints id
    modify (resetNodes old [id])
    if e.isValueOrType then throw e else pure successes
  else throw e

/-- One node of `restore_entries`. -/
def restoreOnNode (old : Cluster V) (checkpoints : Checkpoints V)
    (targets : List (RestoreTarget V)) (versions : List (Key × VersionStamp))
    (successes : List (Key × NodeId)) (id : NodeId) : ClusterM V (List (Key × NodeId)) :=
  tryCatch (do
    let _ ← storageRestore c id (entriesOn targets id)
    modify (recordRestored id versions (entriesOn targets id))
    pure (successes ++ (entriesOn targets id).map fun entry => (entry.key, id)))
    (restoreFailed old checkpoints id successes)

/-- The quorum check of one entry after the loop. -/
def restoreQuorum (successes : List (Key × NodeId)) (t : RestoreTarget V) : ClusterM V Unit :=
  let n := successes.countP fun p => p.1 = t.entry.key
  if n < t.required then throw (quorumError "restore" t.required n) else pure ()

/-- The part of `restore_entries` that is undone when it raises. -/
def restoreBody (old : Cluster V) (checkpoints : Checkpoints V) (targets : List (RestoreTarget V))
    (ids : List NodeId) (entries : List (StorageEntry V)) : ClusterM V Unit := do
  let versions ← Prog.collect (fun entry : StorageEntry V => versionFor entry.key) entries
  let successes ← Prog.fold (restoreOnNode c old checkpoints targets versions) [] ids
  Prog.forEach (restoreQuorum successes) targets
  Prog.forEach (fun entry : StorageEntry V => modify (recordWrite entry.key entry.tags)) entries

def restoreEntries (entries : List (StorageEntry V)) : ClusterM V ℕ := do
  Prog.forEach (fun entry : StorageEntry V => validateKey entry.key) entries
  if ¬(entries.map StorageEntry.key).Nodup then
    throw (valueError "snapshot contains duplicate keys")
  else do
    let targets ← Prog.collect (restoreCheck c) entries
    let ids := fromKeys (targets.flatMap RestoreTarget.available)
    Prog.forEach (fun id => prevalidateRestore c id (entriesOn targets id)) ids
    let checkpoints ← captureBackendCheckpoints ids
    let old ← get
    tryCatch (restoreBody c old checkpoints targets ids entries) fun e => do
      restoreBackendCheckpoints checkpoints
      modify fun s => resetBooks old (resetNodes old ids s)
      throw e
    pure entries.length

/-! ## Hot keys -/

/-- A hot copy recorded. -/
def addHot (key : Key) (id : NodeId) (s : Cluster V) : Cluster V :=
  { s with hotReplicas := s.hotReplicas.set key (insert id (s.hotOf key)) }

/-- One extra copy; the result is whether it was made. -/
def copyHot (key : Key) (metadata : ReplicaMetadata) (exported : List (StorageEntry V))
    (id : NodeId) : ClusterM V Bool :=
  catchValue (do
    let _ ← storageRestore c id exported
    modify (putMetadata id key (some metadata))
    modify (addHot key id)
    pure true) (do
    modify (bump .hotReplicationErrors 1)
    pure false)

/-- The active nodes that do not own the key, sorted. -/
def hotCandidates (owners : List NodeId) : ClusterM V (List NodeId) := do
  let s ← get
  Prog.select (healthy c)
    ((s.nodeIds.filter fun id => id ∉ owners ∧ (s.node id).status = .active).insertionSort (· ≤ ·))

/-- The part of `replicate_hot_key` after the read. -/
def spreadHot (key : Key) (extraReplicas : ℕ) (metadata : ReplicaMetadata)
    (exported : List (StorageEntry V)) : ClusterM V ℕ := do
  let owners ← ringOwners c key
  let candidates ← hotCandidates c owners
  let s ← get
  if (s.hotReplicas.get? key).isNone ∧ c.maxHotReplicaKeys ≤ s.hotReplicas.size then do
    modify (bump .hotReplicationLimit 1)
    pure 0
  else do
    let added ← Prog.collect (copyHot c key metadata exported) (candidates.take extraReplicas)
    if added.count true = 0 then pure 0
    else do
      modify (bump .hotReplications (added.count true))
      pure (added.count true)

def replicateHotKey (key : Key) (extraReplicas : ℕ) : ClusterM V ℕ := do
  validateKey key
  if extraReplicas = 0 then pure 0
  else do
    let r ← read c key c.consistency
    match r.2.2 with
    | none => pure 0
    | some metadata =>
      if r.1.state = .miss ∨ metadata.deleted then pure 0
      else do
        let exported ← storageExport c r.2.1 key
        if exported.isEmpty then pure 0 else spreadHot c key extraReplicas metadata exported

/-- One released copy; the result counts a deleted entry. -/
def releaseHot (key : Key) (owners : List NodeId) (id : NodeId) : ClusterM V ℕ :=
  if id ∈ owners then pure 0
  else catchException (do
    let removed ← storageDelete c id key
    modify (putMetadata id key none)
    pure removed.toNat) (do
    modify (bump .hotReplicationErrors 1)
    pure 0)

def releaseHotKey (key : Key) : ClusterM V ℕ := do
  validateKey key
  let owners ← ringOwners c key
  let hot ← walk c fun s => s.hotOf key
  modify fun s => { s with hotReplicas := s.hotReplicas.erase key }
  let removed ← Prog.collect (releaseHot c key owners) hot
  pure removed.sum

/-! ## Leases -/

/-- A lease issued for a key. -/
def issueLease (key : Key) (token : String) (now : ℚ) (s : Cluster V) : Cluster V :=
  ({ s with
    leases := s.leases.set key ⟨token, now + c.leaseSeconds, s.fence⟩
    leaseBytes := s.leaseBytes + clusterLeaseBytes key token } : Cluster V).bump .leases 1

/-- The part of `acquire_lease` after the read. -/
def grantLease (key : Key) (now : ℚ) (result : CacheResult V) : ClusterM V (CacheResult V) := do
  let owners ← ringOwners c key
  let available ← availableOwners c owners
  let required := c.consistency.required owners.length
  if available.length < required then throw (quorumError "lease" required available.length)
  else do
    let s ← get
    match (s.leases.get? key).filter fun l => now < l.untilTime ∧ l.fence = s.fence with
    | some lease => do
      modify (bump .coalesced 1)
      if result.state = .stale then pure result
      else pure ⟨.loading, none, 0, 0, none, max 0 (lease.untilTime - now)⟩
    | none =>
      if c.maxLeases ≤ s.leases.size ∨
          (c.maxLeaseMemoryBytes : ℤ) <
            s.leaseBytes + clusterLeaseBytes key (c.tokenUrlsafe s.draws) then do
        modify fun s => ({ s with draws := s.draws + 1 } : Cluster V).bump .rejectedLeases 1
        throw (valueError "lease capacity exhausted")
      else do
        modify fun s => { s with draws := s.draws + 1 }
        modify (issueLease c key (c.tokenUrlsafe s.draws) now)
        let expiresIn : Deadline := ((c.leaseSeconds : ℚ) : Deadline)
        if result.state = .stale then
          pure ⟨.staleLease, result.value, expiresIn, result.staleForSeconds,
            some (c.tokenUrlsafe s.draws), 0⟩
        else pure ⟨.lease, none, expiresIn, 0, some (c.tokenUrlsafe s.draws), 0⟩

def acquireLease (key : Key) (force : Bool) : ClusterM V (CacheResult V) := do
  validateKey key
  let now ← readClock c
  let _ ← detectFailures c
  modify (purgeExpiredLeases now)
  let result ← getEntry c key none
  if result.state = .fresh ∧ ¬force then pure result else grantLease c key now result

def releaseLease (key : Key) (leaseToken : String) : ClusterM V Bool := do
  validateKey key
  let s ← get
  match s.leases.get? key with
  | none => pure false
  | some lease => do
    let same ← compareDigest lease.token leaseToken
    if same then do
      modify (removeLease key)
      pure true
    else pure false

def renewLease (key : Key) (leaseToken : String) : ClusterM V Bool := do
  validateKey key
  let now ← readClock c
  let s ← get
  match (s.leases.get? key).filter fun lease => now < lease.untilTime with
  | none => do
    modify (removeLease key)
    pure false
  | some lease => do
    assertFence lease.fence
    let same ← compareDigest lease.token leaseToken
    if same then do
      modify fun s => ({ s with
        leases := s.leases.set key { lease with untilTime := now + c.leaseSeconds } } :
          Cluster V).bump .leaseRenewals 1
      pure true
    else pure false

end Cluster
end MegaCache
