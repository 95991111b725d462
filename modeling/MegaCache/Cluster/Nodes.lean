import MegaCache.Cluster.Snapshot

/-!
# The cluster: nodes, leadership and checkpoints

The helper methods of `ClusterStorage`.  A method runs under the coordinator's
lock, so it is one state transformer.  Nodes named by the ring or by a hot key are
always members of the cluster; only where an identifier comes from a caller is it
looked up with an error.
-/

namespace MegaCache
namespace Cluster

variable {V α : Type} (c : ClusterConfig V)

/-! ## Outside input and storages -/

/-- One reading of `self._clock`. -/
def readClock : ClusterM V ℚ := fun s => (.ok (c.clock s.ticks), { s with ticks := s.ticks + 1 })

/-- The elements of a set in the order in which Python walks it. -/
def walk (set : Cluster V → Finset String) : ClusterM V (List String) :=
  fun s => (.ok (c.setOrder s.walks (set s)), { s with walks := s.walks + 1 })

/-- `sorted(set)`. -/
def sortedSet (set : Finset String) : List String := sortedIds (c.setOrder 0 set)

/-- A method of a node's storage. -/
def onStorage (id : NodeId) (op : EngineM V α) : ClusterM V α := fun s =>
  ((op (s.node id).storage).1,
    s.modifyNode id fun n => { n with storage := (op n.storage).2 })

/-- The outcome of a call that a test double may fail. -/
def afterCall (id : NodeId) (a : α) : ClusterM V α := fun s =>
  (match c.fault id (s.node id).calls with
    | none => .ok a
    | some e => .error e,
    s.modifyNode id fun n => { n with calls := n.calls + 1 })

/-- A method of a node's storage that may raise after it did its work. -/
def faulty (id : NodeId) (op : EngineM V α) : ClusterM V α := do
  let a ← onStorage id op
  afterCall c id a

def storageGet (id : NodeId) (key : Key) : ClusterM V (CacheResult V) :=
  onStorage id (Engine.getEntry (c.storage id) key)

def storageExport (id : NodeId) (key : Key) : ClusterM V (List (StorageEntry V)) :=
  onStorage id (Engine.exportEntries (c.storage id) (some [key]))

def storageDelete (id : NodeId) (key : Key) : ClusterM V Bool := faulty c id (Engine.delete key)

def storageRestore (id : NodeId) (entries : List (StorageEntry V)) : ClusterM V ℕ :=
  faulty c id (Engine.restoreEntries (c.storage id) entries)

/-- `except (ValueError, TypeError)` around a computation. -/
def catchValue (m handler : ClusterM V α) : ClusterM V α :=
  tryCatch m fun e => if e.isValueOrType then handler else throw e

/-- `except Exception` around a computation. -/
def catchException (m handler : ClusterM V α) : ClusterM V α :=
  tryCatch m fun e => if e.isException then handler else throw e

/-- `_node`. -/
def requireNode (id : NodeId) : ClusterM V Unit := do
  let s ← get
  if id ∈ s.nodeIds then pure () else throw (clusterError ("unknown node " ++ id))

/-- `self._nodes[id]` for an identifier that came with a plan. -/
def accessNode (id : NodeId) : ClusterM V Unit := do
  let s ← get
  if id ∈ s.nodeIds then pure () else throw (keyError id)

/-! ## Health and leadership -/

/-- `_healthy`; the clock is only read for a node whose status serves. -/
def healthy (id : NodeId) : ClusterM V Bool := do
  let s ← get
  if (s.node id).status.serves then do
    let now ← readClock c
    pure (now - (s.node id).lastHeartbeat ≤ c.heartbeatTimeout)
  else pure false

def availableOwners (owners : List NodeId) : ClusterM V (List NodeId) :=
  Prog.select (healthy c) owners

/-- `ring.owners(key, self._replica_count)`. -/
def ownersIn (ring : ConsistentHashRing) (key : Key) : ClusterM V (List NodeId) :=
  if key = "" then throw (valueError "key must not be empty")
  else pure (ring.owners c.hash key c.replicaCount)

/-- `self._ring.owners(key, self._replica_count)`. -/
def ringOwners (key : Key) : ClusterM V (List NodeId) := do
  let s ← get
  ownersIn c s.ring key

/-- A new term, led by the first candidate if there is one; the leases end. -/
def newTerm (candidates : List NodeId) (s : Cluster V) : Cluster V :=
  ({ s with
    term := s.term + 1
    leases := .empty
    leaseBytes := 0
    leaderId := candidates.head?.getD s.leaderId } : Cluster V).bump .leadershipChanges 1

def electLeader : ClusterM V Unit := do
  let s ← get
  let up ← Prog.select (healthy c) s.ring.nodeIds
  let candidates :=
    (up.filter fun id => (s.node id).status ≠ .removing).insertionSort (· ≤ ·)
  if s.leaderId ∈ candidates then pure () else modify (newTerm candidates)

/-- The serving nodes whose last heartbeat is too old. -/
def failedAt (now : ℚ) (s : Cluster V) : List NodeId :=
  s.nodeIds.filter fun id =>
    (s.node id).status.serves && decide (c.heartbeatTimeout < now - (s.node id).lastHeartbeat)

def markDown (failed : List NodeId) (s : Cluster V) : Cluster V :=
  ({ s with
    node := fun id =>
      if id ∈ failed then { s.node id with status := .down } else s.node id } :
    Cluster V).bump .nodeFailures failed.length

def detectFailures : ClusterM V (List NodeId) := do
  let now ← readClock c
  let s ← get
  if failedAt c now s = [] then pure []
  else do
    modify (markDown (failedAt c now s))
    electLeader c
    pure ((failedAt c now s).insertionSort (· ≤ ·))

def assertFence (fence : FenceToken) : ClusterM V Unit := do
  let s ← get
  if fence = s.fence then pure ()
  else throw ⟨.fenceError, "stale leadership fence; current term is " ++ toString s.term ++
    " led by " ++ s.leaderId⟩

/-- `_next_version_locked`. -/
def nextVersion : ClusterM V VersionStamp := fun s =>
  (.ok ⟨s.term, s.sequence + 1, s.leaderId⟩, { s with sequence := s.sequence + 1 })

/-! ## Validation, tags and leases -/

def validateKey (key : Key) : ClusterM V Unit :=
  if key = "" ∨ 1024 < key.length then
    throw (valueError "key must contain between 1 and 1024 characters")
  else pure ()

def normalizeTags (tags : List Tag) : ClusterM V (List Tag) :=
  if 100 < tags.length then throw (valueError "an entry may have at most 100 tags")
  else if tags.any fun tag => tag = "" || 256 < tag.utf8ByteSize then
    throw (valueError "tags must contain between 1 and 256 UTF-8 bytes")
  else pure tags

/-- `tuple(dict.fromkeys(keys))`: every key at its first place. -/
def fromKeys (keys : List Key) : List Key := keys.reverse.dedup.reverse

/-- `tuple(sorted(set(tags)))`. -/
def tagTuple (tags : List Tag) : List Tag := Engine.sortedTags tags.dedup

/-- `_replace_key_tags_locked`. -/
def replaceKeyTags (key : Key) (tags : List Tag) (s : Cluster V) : Cluster V :=
  let tagKeys := Engine.discardTags key ((s.keyTags.get? key).getD []) s.tagKeys
  if tags = [] then { s with keyTags := s.keyTags.erase key, tagKeys := tagKeys }
  else { s with
    keyTags := s.keyTags.set key (tagTuple tags)
    tagKeys := Engine.addTags key (tagTuple tags) tagKeys }

/-- The bytes counted for a lease. -/
def clusterLeaseBytes (key : Key) (token : String) : ℕ := key.utf8ByteSize + token.utf8ByteSize + 96

/-- `_remove_lease_locked`; its result is whether there was a lease. -/
def removeLease (key : Key) (s : Cluster V) : Cluster V :=
  match s.leases.get? key with
  | none => s
  | some lease => { s with
      leases := s.leases.erase key
      leaseBytes := s.leaseBytes - clusterLeaseBytes key lease.token }

def purgeExpiredLeases (now : ℚ) (s : Cluster V) : Cluster V :=
  s.leases.toList.foldl (fun s p => if p.2.untilTime ≤ now then removeLease p.1 s else s) s

def compareDigest (a b : String) : ClusterM V Bool :=
  if a.toList.all (·.toNat < 128) && b.toList.all (·.toNat < 128) then pure (a = b)
  else throw ⟨.typeError, "comparing strings with non-ASCII characters is not supported"⟩

/-- `_validate_lease_locked`. -/
def validateLease (key : Key) (token : String) : ClusterM V Unit := do
  let s ← get
  let now ← readClock c
  match (s.leases.get? key).filter fun lease => now < lease.untilTime with
  | none => do
    modify (removeLease key)
    throw (valueError "lease is missing or expired")
  | some lease => do
    assertFence lease.fence
    let same ← compareDigest lease.token token
    if same then pure () else throw (valueError "lease token does not match")

/-! ## Checkpoints of storages -/

/-- A checkpoint of one storage: `("native", ...)` or `("mutation", ...)`.  An engine
has both kinds, so the portable kind of other storages does not occur. -/
inductive BackendCheckpoint (V : Type)
  | native (checkpoint : EngineCheckpoint V)
  | mutation (handle : ℕ)

abbrev Checkpoints (V : Type) := OrderedDict NodeId (BackendCheckpoint V)

def captureOne (checkpoints : Checkpoints V) (id : NodeId) : ClusterM V (Checkpoints V) := do
  let checkpoint ← onStorage id Engine.checkpoint
  pure (checkpoints.set id (.native checkpoint))

def captureBackendCheckpoints (ids : List NodeId) : ClusterM V (Checkpoints V) :=
  Prog.fold captureOne .empty ids

def restoreOneBackendCheckpoint (id : NodeId) : BackendCheckpoint V → ClusterM V Unit
  | .native checkpoint => onStorage id (Engine.restoreCheckpoint checkpoint)
  | .mutation handle => onStorage id (Engine.restoreMutationCheckpoint handle)

def restoreBackendCheckpoints (checkpoints : Checkpoints V) : ClusterM V Unit :=
  Prog.forEach (fun p => restoreOneBackendCheckpoint p.1 p.2) checkpoints.toList

/-- The checkpoint of one node of `checkpoints` restored. -/
def restoreNode (checkpoints : Checkpoints V) (id : NodeId) : ClusterM V Unit :=
  match checkpoints.get? id with
  | none => throw (keyError id)
  | some checkpoint => restoreOneBackendCheckpoint id checkpoint

/-- The checkpoint of one node restored and taken out of `checkpoints`. -/
def popCheckpoint (checkpoints : Checkpoints V) (id : NodeId) : ClusterM V (Checkpoints V) := do
  restoreNode checkpoints id
  pure (checkpoints.erase id)

def commitOne (p : NodeId × BackendCheckpoint V) : ClusterM V Unit :=
  match p.2 with
  | .native _ => pure ()
  | .mutation handle => onStorage p.1 (Engine.commitMutationCheckpoint handle)

def commitBackendCheckpoints (checkpoints : Checkpoints V) : ClusterM V Unit :=
  Prog.forEach commitOne checkpoints.toList

/-- A journal opened on one more node; a failure closes those opened before. -/
def beginOne (key : Key) (checkpoints : Checkpoints V) (id : NodeId) :
    ClusterM V (Checkpoints V) := do
  let handle ← tryCatch (onStorage id (Engine.beginMutationCheckpoint key)) fun e => do
    restoreBackendCheckpoints checkpoints
    throw e
  pure (checkpoints.set id (.mutation handle))

/-- `_capture_mutation_checkpoints_locked`: journals for a single key. -/
def captureMutationCheckpoints (ids : List NodeId) (keys : List Key) :
    ClusterM V (Checkpoints V) :=
  match keys with
  | [key] => Prog.fold (beginOne key) .empty ids
  | _ => captureBackendCheckpoints ids

def prevalidatePut (id : NodeId) (key : Key) (value : V) (ttlSeconds staleSeconds : Option ℤ)
    (tags : List Tag) (persistent : Bool) : ClusterM V Unit :=
  onStorage id
    (Engine.validatePut (c.storage id) key value ttlSeconds staleSeconds tags none persistent)

def prevalidateRestore (id : NodeId) (entries : List (StorageEntry V)) : ClusterM V Unit :=
  onStorage id (Engine.validateRestoreEntries (c.storage id) entries)

end Cluster
end MegaCache
