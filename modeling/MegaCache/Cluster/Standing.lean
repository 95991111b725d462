import MegaCache.Cluster.Operations

/-!
# What the programs of the cluster leave of its leadership

`Aside s s'` says that leader, term, ring and the health of the nodes are the same in
both states, that time went on and that leases at most went away.  Every program that
holds no election is of this kind.  `Carries c R` collects what a relation `R` has to
allow besides that, so that all programs which leave the membership alone keep it.
-/

namespace MegaCache
namespace Cluster

variable {V α : Type} {c : ClusterConfig V} {s s' s'' : Cluster V}

open Prog

/-- The bytes of the leases in the table. -/
def heldLeaseBytes (s : Cluster V) : ℤ :=
  s.leases.sumBy fun p => (clusterLeaseBytes p.1 p.2.token : ℤ)

/-- The coordinator counts as many bytes too many as before, or it starts again with an
empty table. -/
def SameExcess (s s' : Cluster V) : Prop :=
  s'.leaseBytes - heldLeaseBytes s' = s.leaseBytes - heldLeaseBytes s ∨
    s'.leases = .empty ∧ s'.leaseBytes = 0

theorem SameExcess.of_same (hleases : s'.leases = s.leases) (hbytes : s'.leaseBytes = s.leaseBytes) :
    SameExcess s s' := by
  left
  rw [heldLeaseBytes, heldLeaseBytes, hleases, hbytes]

/-- Leases that only go away do not come back after the table was emptied. -/
theorem SameExcess.trans (h : SameExcess s s') (h' : SameExcess s' s'')
    (hleases : ∀ key lease, s''.leases.get? key = some lease → s'.leases.get? key = some lease) :
    SameExcess s s'' := by
  rcases h' with h' | h'
  · rcases h with h | ⟨hempty, hbytes⟩
    · exact .inl (h'.trans h)
    · have hnone : ∀ key, s''.leases.get? key = (.empty : OrderedDict Key ClusterLease).get? key := by
        intro key
        cases hl : s''.leases.get? key with
        | none => rfl
        | some lease =>
          have := hleases key lease hl
          rw [hempty] at this
          cases this
      have hheld : heldLeaseBytes s'' = 0 := OrderedDict.sumBy_congr hnone _
      have hzero : heldLeaseBytes s' = 0 := by
        rw [heldLeaseBytes, hempty]
        rfl
      right
      refine ⟨OrderedDict.ext ?_, by omega⟩
      exact List.Perm.eq_nil (OrderedDict.toList_perm_of_get?_eq hnone)
  · exact .inr h'

/-- Leadership, membership and health are as they were, and no lease is new. -/
structure Aside (s s' : Cluster V) : Prop where
  term : s'.term = s.term
  leaderId : s'.leaderId = s.leaderId
  draws : s'.draws = s.draws
  ring : s'.ring = s.ring
  nodeIds : s'.nodeIds = s.nodeIds
  status : ∀ id, (s'.node id).status = (s.node id).status
  heartbeat : ∀ id, (s'.node id).lastHeartbeat = (s.node id).lastHeartbeat
  ticks : s.ticks ≤ s'.ticks
  leases : ∀ key lease, s'.leases.get? key = some lease → s.leases.get? key = some lease
  account : SameExcess s s'

theorem Aside.refl (s : Cluster V) : Aside s s :=
  ⟨rfl, rfl, rfl, rfl, rfl, fun _ => rfl, fun _ => rfl, le_rfl, fun _ _ h => h, .of_same rfl rfl⟩

theorem Aside.trans (h : Aside s s') (h' : Aside s' s'') : Aside s s'' where
  term := h'.term.trans h.term
  leaderId := h'.leaderId.trans h.leaderId
  draws := h'.draws.trans h.draws
  ring := h'.ring.trans h.ring
  nodeIds := h'.nodeIds.trans h.nodeIds
  status := fun id => (h'.status id).trans (h.status id)
  heartbeat := fun id => (h'.heartbeat id).trans (h.heartbeat id)
  ticks := h.ticks.trans h'.ticks
  leases := fun key lease hl => h.leases key lease (h'.leases key lease hl)
  account := h.account.trans h'.account h'.leases

instance : Std.Refl (Aside (V := V)) := ⟨Aside.refl⟩

instance : IsTrans (Cluster V) Aside := ⟨fun _ _ _ => Aside.trans⟩

/-! ## Single edits -/

/-- Changes of the coordinator's other fields. -/
theorem Aside.of_same (hterm : s'.term = s.term) (hleader : s'.leaderId = s.leaderId)
    (hdraws : s'.draws = s.draws) (hring : s'.ring = s.ring) (hids : s'.nodeIds = s.nodeIds)
    (hnode : s'.node = s.node) (hticks : s'.ticks = s.ticks) (hleases : s'.leases = s.leases)
    (hbytes : s'.leaseBytes = s.leaseBytes) : Aside s s' where
  term := hterm
  leaderId := hleader
  draws := hdraws
  ring := hring
  nodeIds := hids
  status := by simp [hnode]
  heartbeat := by simp [hnode]
  ticks := hticks.ge
  leases := by simp [hleases]
  account := .of_same hleases hbytes

theorem Aside.of_nodes {node : NodeId → ClusterNode V}
    (hstatus : ∀ id, (node id).status = (s.node id).status)
    (hheart : ∀ id, (node id).lastHeartbeat = (s.node id).lastHeartbeat) :
    Aside s { s with node := node } :=
  ⟨rfl, rfl, rfl, rfl, rfl, hstatus, hheart, le_rfl, fun _ _ h => h, .of_same rfl rfl⟩

theorem Aside.modifyNode (id : NodeId) {f : ClusterNode V → ClusterNode V}
    (hstatus : ∀ n, (f n).status = n.status) (hheart : ∀ n, (f n).lastHeartbeat = n.lastHeartbeat)
    (s : Cluster V) : Aside s (s.modifyNode id f) := by
  refine .of_nodes (fun id' => ?_) fun id' => ?_
  all_goals
    by_cases h : id' = id
    · subst h
      simp [hstatus, hheart]
    · simp [h]

theorem Aside.putMetadata (id : NodeId) (key : Key) (m : Option ReplicaMetadata) (s : Cluster V) :
    Aside s (putMetadata id key m s) := by
  unfold Cluster.putMetadata
  exact .modifyNode id (by intro n; rfl) (by intro n; rfl) s

theorem Aside.bump (m : ClusterMetric) (n : ℕ) (s : Cluster V) : Aside s (s.bump m n) :=
  .of_same rfl rfl rfl rfl rfl rfl rfl rfl rfl

/-- A loop of edits. -/
theorem Aside.foldl {β : Type} {f : Cluster V → β → Cluster V} (h : ∀ s b, Aside s (f s b))
    (l : List β) (s : Cluster V) : Aside s (l.foldl f s) := by
  induction l generalizing s with
  | nil => exact .refl s
  | cons b l ih => exact (h s b).trans (ih _)

theorem Aside.removeLease (key : Key) (s : Cluster V) : Aside s (removeLease key s) := by
  unfold Cluster.removeLease
  split
  · exact .refl s
  · rename_i lease hlease
    refine ⟨rfl, rfl, rfl, rfl, rfl, fun _ => rfl, fun _ => rfl, le_rfl, fun k other hl => ?_, .inl ?_⟩
    · rw [OrderedDict.get?_erase] at hl
      split_ifs at hl
      exact hl
    · have hsum := OrderedDict.sumBy_erase hlease
        fun p : Key × ClusterLease => (clusterLeaseBytes p.1 p.2.token : ℤ)
      simp only [heldLeaseBytes, hsum]
      omega

theorem Aside.purgeExpiredLeases (now : ℚ) (s : Cluster V) : Aside s (purgeExpiredLeases now s) := by
  refine Aside.foldl (fun s p => ?_) _ s
  split_ifs
  · exact .removeLease _ s
  · exact .refl s

theorem Aside.replaceKeyTags (key : Key) (tags : List Tag) (s : Cluster V) :
    Aside s (replaceKeyTags key tags s) := by
  unfold Cluster.replaceKeyTags
  dsimp only
  split_ifs
  · exact .of_same rfl rfl rfl rfl rfl rfl rfl rfl rfl
  · exact .of_same rfl rfl rfl rfl rfl rfl rfl rfl rfl

theorem Aside.dropTombstone (key : Key) (latest : ReplicaMetadata) (s : Cluster V) :
    Aside s (dropTombstone key latest s) := by
  have herase : Aside s (eraseMetadata key s) := .of_nodes (fun _ => rfl) fun _ => rfl
  unfold Cluster.dropTombstone
  refine Aside.trans ?_ ((Aside.replaceKeyTags key [] _).trans (.removeLease key _))
  exact herase.trans (.of_same rfl rfl rfl rfl rfl rfl rfl rfl rfl)

theorem Aside.discardHot (key : Key) (id : NodeId) (s : Cluster V) : Aside s (discardHot key id s) := by
  unfold Cluster.discardHot
  split
  · exact .refl s
  · split_ifs
    · exact .of_same rfl rfl rfl rfl rfl rfl rfl rfl rfl
    · exact .of_same rfl rfl rfl rfl rfl rfl rfl rfl rfl

theorem Aside.forgetMissed (key : Key) (s : Cluster V) : Aside s (forgetMissed key s) := by
  unfold Cluster.forgetMissed
  refine Aside.trans ?_ (.replaceKeyTags key [] _)
  exact .of_same rfl rfl rfl rfl rfl rfl rfl rfl rfl

theorem Aside.recordWrite (key : Key) (tags : List Tag) (s : Cluster V) :
    Aside s (recordWrite key tags s) :=
  (Aside.replaceKeyTags key tags s).trans (.of_same rfl rfl rfl rfl rfl rfl rfl rfl rfl)

theorem Aside.resetMetadata (old : Cluster V) (key : Key) (ids : List NodeId) (s : Cluster V) :
    Aside s (resetMetadata old key ids s) :=
  Aside.foldl (fun s id => .putMetadata id key _ s) ids s

theorem Aside.resetNodes (old : Cluster V) (ids : List NodeId) (s : Cluster V) :
    Aside s (resetNodes old ids s) := by
  refine .of_nodes (fun id => ?_) fun id => ?_
  · split_ifs <;> rfl
  · split_ifs <;> rfl

theorem Aside.resetBooks (old s : Cluster V) : Aside s (resetBooks old s) :=
  .of_same rfl rfl rfl rfl rfl rfl rfl rfl rfl

/-! ## Outside input and storages -/

theorem aside_readClock : Rel Aside (readClock c) := fun _ =>
  ⟨rfl, rfl, rfl, rfl, rfl, fun _ => rfl, fun _ => rfl, Nat.le_succ _, fun _ _ h => h,
    .of_same rfl rfl⟩

theorem aside_walk (set : Cluster V → Finset String) : Rel Aside (walk c set) := fun _ =>
  .of_same rfl rfl rfl rfl rfl rfl rfl rfl rfl

theorem aside_onStorage (id : NodeId) (op : EngineM V α) : Rel Aside (onStorage id op) := by
  intro s
  unfold onStorage
  dsimp only
  exact .modifyNode id (by intro n; rfl) (by intro n; rfl) s

theorem aside_afterCall (id : NodeId) (a : α) : Rel Aside (afterCall c id a) := by
  intro s
  unfold afterCall
  dsimp only
  exact .modifyNode id (by intro n; rfl) (by intro n; rfl) s

theorem aside_faulty (id : NodeId) (op : EngineM V α) : Rel Aside (faulty c id op) :=
  Rel.bind (aside_onStorage id op) fun a => aside_afterCall id a

theorem aside_bump (m : ClusterMetric) (n : ℕ) :
    Rel Aside (modify (bump m n) : ClusterM V Unit) :=
  Rel.modify (Aside.bump m n)

theorem aside_catchValue {m handler : ClusterM V α} (hm : Rel Aside m) (hh : Rel Aside handler) :
    Rel Aside (catchValue m handler) :=
  Rel.tryCatch hm fun _ => Rel.ite (fun _ => hh) fun _ => Rel.throw _

theorem aside_catchException {m handler : ClusterM V α} (hm : Rel Aside m)
    (hh : Rel Aside handler) : Rel Aside (catchException m handler) :=
  Rel.tryCatch hm fun _ => Rel.ite (fun _ => hh) fun _ => Rel.throw _

/-! ## Checks -/

theorem aside_requireNode (id : NodeId) : Rel Aside (requireNode id : ClusterM V Unit) :=
  Rel.bind Rel.get fun _ => Rel.ite (fun _ => Rel.pure _) fun _ => Rel.throw _

theorem aside_accessNode (id : NodeId) : Rel Aside (accessNode id : ClusterM V Unit) :=
  Rel.bind Rel.get fun _ => Rel.ite (fun _ => Rel.pure _) fun _ => Rel.throw _

theorem aside_healthy (id : NodeId) : Rel Aside (healthy c id) :=
  Rel.bind Rel.get fun _ => Rel.ite (fun _ => Rel.bind aside_readClock fun _ => Rel.pure _)
    fun _ => Rel.pure _

theorem aside_availableOwners (owners : List NodeId) : Rel Aside (availableOwners c owners) :=
  Rel.select fun id _ => aside_healthy id

theorem aside_ownersIn (ring : ConsistentHashRing) (key : Key) : Rel Aside (ownersIn c ring key) :=
  Rel.ite (fun _ => Rel.throw _) fun _ => Rel.pure _

theorem aside_ringOwners (key : Key) : Rel Aside (ringOwners c key) :=
  Rel.bind Rel.get fun _ => aside_ownersIn _ key

theorem aside_assertFence (fence : FenceToken) : Rel Aside (assertFence fence : ClusterM V Unit) :=
  Rel.bind Rel.get fun _ => Rel.ite (fun _ => Rel.pure _) fun _ => Rel.throw _

/-- A fence passes when it is the current one. -/
theorem assertFence_eq_ok {fence : FenceToken} :
    (assertFence fence : ClusterM V Unit) s = (.ok (), s') ↔ fence = s.fence ∧ s' = s := by
  unfold assertFence
  rw [run_bind_ok (run_get s), run_ite]
  split_ifs with h
  · simp [h, eq_comm]
  · simp [h]

theorem compareDigest_snd (a b : String) (s : Cluster V) : (compareDigest a b s).2 = s := by
  unfold compareDigest
  rw [run_ite]
  split_ifs
  · rfl
  · rfl

theorem aside_selectedFence (fence : Option FenceToken) :
    Rel Aside (selectedFence fence : ClusterM V FenceToken) :=
  Rel.bind Rel.get fun _ => Rel.pure _

theorem aside_nextVersion : Rel Aside (nextVersion : ClusterM V VersionStamp) := fun _ =>
  .of_same rfl rfl rfl rfl rfl rfl rfl rfl rfl

theorem aside_validateKey (key : Key) : Rel Aside (validateKey key : ClusterM V Unit) :=
  Rel.ite (fun _ => Rel.throw _) fun _ => Rel.pure _

theorem aside_normalizeTags (tags : List Tag) :
    Rel Aside (normalizeTags tags : ClusterM V (List Tag)) :=
  Rel.ite (fun _ => Rel.throw _) fun _ => Rel.ite (fun _ => Rel.throw _) fun _ => Rel.pure _

theorem aside_compareDigest (a b : String) : Rel Aside (compareDigest a b : ClusterM V Bool) :=
  Rel.ite (fun _ => Rel.pure _) fun _ => Rel.throw _

theorem aside_checkLease (key : Key) (token : Option String) :
    Rel Aside (checkLease c key token) := by
  cases token with
  | none => exact Rel.pure _
  | some token =>
    refine Rel.bind Rel.get fun s => Rel.bind aside_readClock fun now => ?_
    split
    · exact Rel.bind (Rel.modify (Aside.removeLease key)) fun _ => Rel.throw _
    · exact Rel.bind (aside_assertFence _) fun _ => Rel.bind (aside_compareDigest _ _) fun _ =>
        Rel.ite (fun _ => Rel.pure _) fun _ => Rel.throw _

/-! ## Checkpoints -/

theorem aside_captureBackendCheckpoints (ids : List NodeId) :
    Rel Aside (captureBackendCheckpoints ids : ClusterM V (Checkpoints V)) :=
  Rel.fold (fun _ id _ => Rel.bind (aside_onStorage id _) fun _ => Rel.pure _) _

theorem aside_restoreOneBackendCheckpoint (id : NodeId) (checkpoint : BackendCheckpoint V) :
    Rel Aside (restoreOneBackendCheckpoint id checkpoint) := by
  cases checkpoint with
  | native checkpoint => exact aside_onStorage id _
  | mutation handle => exact aside_onStorage id _

theorem aside_restoreBackendCheckpoints (checkpoints : Checkpoints V) :
    Rel Aside (restoreBackendCheckpoints checkpoints) :=
  Rel.forEach fun p _ => aside_restoreOneBackendCheckpoint p.1 p.2

theorem aside_restoreNode (checkpoints : Checkpoints V) (id : NodeId) :
    Rel Aside (restoreNode checkpoints id) := by
  unfold restoreNode
  split
  · exact Rel.throw _
  · exact aside_restoreOneBackendCheckpoint id _

theorem aside_popCheckpoint (checkpoints : Checkpoints V) (id : NodeId) :
    Rel Aside (popCheckpoint checkpoints id) :=
  Rel.bind (aside_restoreNode checkpoints id) fun _ => Rel.pure _

theorem aside_commitBackendCheckpoints (checkpoints : Checkpoints V) :
    Rel Aside (commitBackendCheckpoints checkpoints) := by
  refine Rel.forEach fun p _ => ?_
  unfold commitOne
  split
  · exact Rel.pure _
  · exact aside_onStorage p.1 _

theorem aside_captureMutationCheckpoints (ids : List NodeId) (keys : List Key) :
    Rel Aside (captureMutationCheckpoints ids keys : ClusterM V (Checkpoints V)) := by
  unfold captureMutationCheckpoints
  split
  · exact Rel.fold (fun checkpoints id _ => Rel.bind (Rel.tryCatch (aside_onStorage id _) fun _ =>
      Rel.bind (aside_restoreBackendCheckpoints checkpoints) fun _ => Rel.throw _)
        fun _ => Rel.pure _) _
  · exact aside_captureBackendCheckpoints ids

/-! ## Tombstones and reads -/

theorem aside_nodeHasRecord (id : NodeId) (key : Key) (expected : ReplicaMetadata) :
    Rel Aside (nodeHasRecord c id key expected) := by
  refine Rel.bind Rel.get fun s => ?_
  split
  · exact Rel.pure _
  · exact Rel.ite (fun _ => Rel.pure _) fun _ => Rel.bind (aside_onStorage id _) fun _ =>
      Rel.pure _

theorem aside_hasHealthyRecord (id : NodeId) (key : Key) (expected : ReplicaMetadata) :
    Rel Aside (hasHealthyRecord c key expected id) :=
  Rel.bind (aside_healthy id) fun _ => Rel.ite (fun _ => aside_nodeHasRecord id key expected)
    fun _ => Rel.pure _

theorem aside_gcTombstone (key : Key) : Rel Aside (gcTombstone c key) := by
  have hcomplete : Rel Aside (completeTombstone c key) := by
    refine Rel.bind Rel.get fun s => ?_
    split
    · exact Rel.pure _
    · exact Rel.bind (aside_ringOwners key) fun _ =>
        Rel.bind (Rel.every fun id _ => aside_hasHealthyRecord id key _) fun _ => Rel.pure _
  refine Rel.bind hcomplete fun o => ?_
  cases o with
  | none => exact Rel.pure _
  | some latest => exact Rel.bind (Rel.modify (Aside.dropTombstone key latest)) fun _ => Rel.pure _

theorem aside_gcTombstones (keys : Option (List Key)) : Rel Aside (gcTombstones c keys) := by
  have hselect : Rel Aside (gcSelection c keys) := by
    cases keys with
    | none => exact aside_walk _
    | some keys => exact Rel.pure _
  exact Rel.bind hselect fun _ => Rel.bind (Rel.collect fun key _ => aside_gcTombstone key)
    fun _ => Rel.ite (fun _ => Rel.pure _) fun _ => Rel.bind (aside_bump _ _) fun _ => Rel.pure _

theorem aside_pruneHotReplica (key : Key) (id : NodeId) : Rel Aside (pruneHotReplica c key id) :=
  Rel.bind (Rel.modify (Aside.discardHot key id)) fun _ =>
    Rel.bind (Rel.modify (Aside.putMetadata id key none)) fun _ =>
      aside_catchException (Rel.bind (aside_faulty id _) fun _ => Rel.pure _) (aside_bump _ _)

theorem aside_answer (id : NodeId) (key : Key) : Rel Aside (answer c id key) :=
  aside_catchValue (Rel.bind (aside_onStorage id _) fun _ => Rel.pure _) (Rel.pure _)

theorem aside_hotResponse (key : Key) (latest : Option ReplicaMetadata) (id : NodeId) :
    Rel Aside (hotResponse c key latest id) := by
  refine Rel.bind Rel.get fun _ => Rel.bind (aside_healthy id) fun _ => Rel.ite
    (fun _ => Rel.bind (aside_pruneHotReplica key id) fun _ => Rel.pure _)
    fun _ => Rel.bind (aside_answer id key) fun result => ?_
  cases result with
  | none => exact Rel.pure _
  | some result =>
    exact Rel.ite (fun _ => Rel.bind (aside_pruneHotReplica key id) fun _ => Rel.pure _)
      fun _ => Rel.pure _

theorem aside_ownerResponses (key : Key) (profile : ConsistencyProfile) (ids : List NodeId) :
    Rel Aside (ownerResponses c key profile ids) := by
  induction ids with
  | nil => exact Rel.pure _
  | cons id rest ih =>
    refine Rel.bind (aside_answer id key) fun result => ?_
    cases result with
    | none => exact ih
    | some result =>
      exact Rel.bind Rel.get fun _ => Rel.ite (fun _ => Rel.pure _) fun _ =>
        Rel.bind ih fun _ => Rel.pure _

theorem aside_installRecord (id : NodeId) (key : Key) (metadata : ReplicaMetadata)
    (entry : Option (StorageEntry V)) : Rel Aside (installRecord c id key metadata entry) := by
  cases entry with
  | none => exact Rel.bind (aside_faulty id _) fun _ => Rel.modify (Aside.putMetadata id key _)
  | some e => exact Rel.bind (aside_faulty id _) fun _ => Rel.modify (Aside.putMetadata id key _)

theorem aside_readRepair (key : Key) (winner : Response V) (responses : List (Response V)) :
    Rel Aside (readRepair c key winner responses) := by
  unfold readRepair
  split
  · exact Rel.pure _
  · refine Rel.bind (Rel.ite (fun _ => Rel.pure _) fun _ => Rel.bind (aside_onStorage _ _)
      fun _ => Rel.pure _) fun entry => Rel.forEach fun r _ => Rel.ite (fun _ => Rel.pure _)
        fun _ => aside_catchValue ?_ (aside_bump _ _)
    exact Rel.bind (aside_installRecord r.nodeId key _ entry) fun _ => aside_bump _ _

theorem aside_settleRead (key : Key) (winner : Response V) (responses : List (Response V)) :
    Rel Aside (settleRead c key winner responses) :=
  Rel.bind (aside_readRepair key winner responses) fun _ => Rel.bind (aside_gcTombstones _)
    fun _ => Rel.ite (fun _ => Rel.modify (Aside.forgetMissed key)) fun _ => Rel.pure _

/-! ## Writes -/

theorem aside_writeTargets (a : PutArgs V) (profile : ConsistencyProfile) :
    Rel Aside (writeTargets c a profile) :=
  Rel.bind (aside_ringOwners _) fun _ => Rel.bind (aside_availableOwners _) fun _ =>
    Rel.ite (fun _ => Rel.throw _) fun _ => Rel.bind (Rel.forEach fun id _ => aside_onStorage id _)
      fun _ => Rel.pure _

theorem aside_abortWrite (old : Cluster V) (key : Key) (available : List NodeId)
    (checkpoints : Checkpoints V) (e : PyError) :
    Rel Aside (abortWrite old key available checkpoints e : ClusterM V α) :=
  Rel.bind (aside_restoreBackendCheckpoints checkpoints) fun _ =>
    Rel.bind (Rel.modify (Aside.resetMetadata old key available)) fun _ =>
      Rel.bind (Rel.modify fun _ => .of_same rfl rfl rfl rfl rfl rfl rfl rfl rfl) fun _ => Rel.throw _

theorem aside_writeReplica (old : Cluster V) (a : PutArgs V) (available : List NodeId)
    (version : VersionStamp) (progress : WriteProgress V) (id : NodeId) :
    Rel Aside (writeReplica c old a available version progress id) := by
  refine Rel.tryCatch (Rel.bind (aside_faulty id _) fun _ =>
    Rel.bind (Rel.modify (Aside.putMetadata id a.key _)) fun _ => Rel.pure _) fun e => ?_
  exact Rel.bind (aside_popCheckpoint _ id) fun _ =>
    Rel.bind (Rel.modify (Aside.resetMetadata old a.key [id])) fun _ =>
      Rel.ite (fun _ => aside_abortWrite old a.key available _ e) fun _ => Rel.pure _

theorem aside_replicatePut (a : PutArgs V) (profile : ConsistencyProfile) :
    Rel Aside (replicatePut c a profile) := by
  refine Rel.bind (aside_writeTargets a profile) fun targets =>
    Rel.bind (aside_captureMutationCheckpoints _ _) fun _ => Rel.bind Rel.get fun old =>
      Rel.bind aside_nextVersion fun version =>
        Rel.bind (Rel.fold (fun p id _ => aside_writeReplica old a _ version p id) _)
          fun progress => ?_
  refine Rel.ite (fun _ => aside_abortWrite old a.key _ _ _) fun _ =>
    Rel.bind (aside_commitBackendCheckpoints _) fun _ => Rel.bind (aside_bump _ _) fun _ => ?_
  split
  · exact Rel.throw _
  · exact Rel.pure _

/-- A failed `mset` puts back the leases it removed. -/
theorem aside_mset (values : List (Key × V)) : Rel Aside (mset c values) := by
  have hcheck : ∀ item : Key × V, Rel Aside (msetCheck c item) := fun item =>
    Rel.bind (aside_validateKey _) fun _ => Rel.bind (aside_writeTargets _ _) fun _ => Rel.pure _
  have hwrite : ∀ item : Key × V, Rel Aside (msetWrite c item) := fun item =>
    Rel.bind (aside_replicatePut _ _) fun _ => Rel.bind (Rel.modify (Aside.recordWrite _ _))
      fun _ => Rel.modify (Aside.removeLease _)
  refine Rel.bind (Rel.collect fun item _ => hcheck item) fun available =>
    Rel.bind (aside_captureBackendCheckpoints _) fun checkpoints =>
      Rel.undo (fun _ => Rel.forEach fun item _ => hwrite item) fun old e => ?_
  refine Rel.bind ((aside_restoreBackendCheckpoints checkpoints).preserves old) fun _ =>
    Rel.bind (Rel.modify fun t ht => ?_) fun _ => Rel.throw _
  have hend := ht.trans (Aside.resetNodes old (sortedIds available.flatten) t)
  exact ⟨hend.term, hend.leaderId, hend.draws, hend.ring, hend.nodeIds, hend.status,
    hend.heartbeat, hend.ticks, fun _ _ h => h, .of_same rfl rfl⟩

theorem aside_versionFor (key : Key) : Rel Aside (versionFor key : ClusterM V (Key × VersionStamp)) :=
  Rel.bind aside_nextVersion fun _ => Rel.pure _

theorem aside_recordRestored (id : NodeId) (versions : List (Key × VersionStamp))
    (entries : List (StorageEntry V)) (s : Cluster V) :
    Aside s (recordRestored id versions entries s) := by
  refine Aside.foldl (fun s entry => ?_) entries s
  split
  · exact .refl s
  · exact .putMetadata id _ _ s

theorem aside_restoreOnNode (old : Cluster V) (checkpoints : Checkpoints V)
    (targets : List (RestoreTarget V)) (versions : List (Key × VersionStamp))
    (successes : List (Key × NodeId)) (id : NodeId) :
    Rel Aside (restoreOnNode c old checkpoints targets versions successes id) := by
  refine Rel.tryCatch (Rel.bind (aside_faulty id _) fun _ =>
    Rel.bind (Rel.modify (aside_recordRestored id versions _)) fun _ => Rel.pure _) fun e => ?_
  exact Rel.ite (fun _ => Rel.bind (aside_restoreNode checkpoints id) fun _ =>
    Rel.bind (Rel.modify (Aside.resetNodes old [id])) fun _ =>
      Rel.ite (fun _ => Rel.throw _) fun _ => Rel.pure _) fun _ => Rel.throw _

theorem aside_restoreEntries (entries : List (StorageEntry V)) :
    Rel Aside (restoreEntries c entries) := by
  have hcheck : ∀ entry : StorageEntry V, Rel Aside (restoreCheck c entry) := fun entry =>
    Rel.bind (aside_ringOwners _) fun _ => Rel.bind (aside_availableOwners _) fun _ =>
      Rel.ite (fun _ => Rel.throw _) fun _ => Rel.pure _
  have hbody : ∀ old checkpoints targets ids,
      Rel Aside (restoreBody c old checkpoints targets ids entries) := fun old checkpoints _ _ =>
    Rel.bind (Rel.collect fun _ _ => aside_versionFor _) fun versions =>
      Rel.bind (Rel.fold (fun p id _ => aside_restoreOnNode old checkpoints _ versions p id) _)
        fun _ => Rel.bind (Rel.forEach fun _ _ => Rel.ite (fun _ => Rel.throw _) fun _ => Rel.pure _)
          fun _ => Rel.forEach fun _ _ => Rel.modify (Aside.recordWrite _ _)
  refine Rel.bind (Rel.forEach fun _ _ => aside_validateKey _) fun _ =>
    Rel.ite (fun _ => Rel.throw _) fun _ => Rel.bind (Rel.collect fun e _ => hcheck e) fun targets =>
      Rel.bind (Rel.forEach fun id _ => aside_onStorage id _) fun _ =>
        Rel.bind (aside_captureBackendCheckpoints _) fun checkpoints => Rel.bind Rel.get fun old =>
          Rel.bind (Rel.tryCatch (hbody old checkpoints _ _) fun e => ?_) fun _ => Rel.pure _
  exact Rel.bind (aside_restoreBackendCheckpoints _) fun _ =>
    Rel.bind (Rel.modify fun s => (Aside.resetNodes old _ s).trans (.resetBooks old _))
      fun _ => Rel.throw _

/-! ## Deletes -/

theorem aside_deleteCheck (profile : ConsistencyProfile) (key : Key) :
    Rel Aside (deleteCheck c profile key) :=
  Rel.bind (aside_ringOwners _) fun _ => Rel.bind (aside_availableOwners _) fun _ =>
    Rel.ite (fun _ => Rel.throw _) fun _ => Rel.bind Rel.get fun _ => Rel.pure _

theorem Aside.entomb (id : NodeId) (versions : List (Key × VersionStamp)) (s : Cluster V) :
    Aside s (entomb id versions s) := by
  unfold Cluster.entomb
  exact Aside.foldl (fun s p => .putMetadata id _ _ s) versions s

theorem aside_deleteOnNode (old : Cluster V) (selected : List Key)
    (versions : NodeId → List (Key × VersionStamp)) (progress : DeleteProgress V) (id : NodeId) :
    Rel Aside (deleteOnNode c old selected versions progress id) := by
  refine Rel.ite (fun _ => Rel.pure _) fun _ => Rel.tryCatch ?_ fun e => ?_
  · exact Rel.bind (Rel.forEach fun _ _ => Rel.bind (aside_faulty id _) fun _ => Rel.pure _)
      fun _ => Rel.bind (Rel.modify (Aside.entomb id _)) fun _ => Rel.pure _
  · exact Rel.bind (aside_popCheckpoint _ id) fun _ => Rel.bind (Rel.modify fun s =>
      Aside.foldl (fun s key => .resetMetadata old key [id] s) selected s) fun _ => Rel.pure _

theorem aside_recordDelete (key : Key) : Rel Aside (recordDelete c key) :=
  Rel.bind (Rel.modify (Aside.replaceKeyTags key [])) fun _ =>
    Rel.bind (Rel.modify fun _ => .of_same rfl rfl rfl rfl rfl rfl rfl rfl rfl) fun _ =>
      Rel.bind (aside_walk _) fun _ => Rel.bind (Rel.forEach fun id _ => aside_catchException
        (Rel.bind (aside_faulty id _) fun _ => Rel.modify (Aside.putMetadata id key none))
        (aside_bump _ _)) fun _ =>
          Rel.bind (Rel.modify fun _ => .of_same rfl rfl rfl rfl rfl rfl rfl rfl rfl) fun _ =>
            Rel.modify (Aside.removeLease key)

theorem aside_deleteFinish (selected : List Key) (availability : List Availability)
    (successes : List (Key × NodeId)) : Rel Aside (deleteFinish c selected availability successes) :=
  Rel.bind (Rel.forEach fun _ _ => Rel.ite (fun _ => Rel.throw _) fun _ => Rel.pure _) fun _ =>
    Rel.bind (Rel.forEach fun key _ => aside_recordDelete key) fun _ =>
      Rel.bind (aside_gcTombstones _) fun _ => Rel.bind Rel.get fun _ =>
        Rel.ite (fun _ => Rel.throw _) fun _ => Rel.pure _

/-! ## Snapshots, hot copies and reports -/

theorem aside_createSnapshot (id : NodeId) (keys : Option (List Key)) :
    Rel Aside (createSnapshot c id keys) := by
  have hkeys : Rel Aside (snapshotKeys c id keys) := by
    cases keys with
    | none => exact Rel.bind (aside_onStorage id _) fun _ => Rel.bind Rel.get fun _ => Rel.pure _
    | some keys => exact Rel.pure _
  exact Rel.bind (aside_requireNode id) fun _ => Rel.bind hkeys fun _ =>
    Rel.bind (aside_onStorage id _) fun _ => Rel.bind Rel.get fun _ => Rel.fromExcept _

theorem aside_acceptRecord (id : NodeId) (fence : FenceToken) (record : SnapshotRecord V) :
    Rel Aside (acceptRecord c id fence record) := by
  refine Rel.ite (fun _ => Rel.throw _) fun _ => Rel.bind Rel.get fun s =>
    Rel.ite (fun _ => Rel.pure _) fun _ => ?_
  split
  · exact Rel.pure _
  · exact Rel.bind (aside_nodeHasRecord id _ _) fun _ => Rel.pure _

theorem aside_installRecords (id : NodeId) (accepted : List (SnapshotRecord V)) :
    Rel Aside (installRecords c id accepted) := by
  have hentries : ∀ entries, Rel Aside (installEntries c id entries) := fun _ =>
    Rel.ite (fun _ => Rel.pure _) fun _ => Rel.bind (aside_onStorage id _) fun _ =>
      Rel.bind (aside_faulty id _) fun _ => Rel.pure _
  have hmeta : ∀ record, Rel Aside (installMetadata c id record) := fun _ =>
    Rel.ite (fun _ => Rel.bind (aside_faulty id _) fun _ =>
      Rel.modify (Aside.putMetadata id _ _)) fun _ => Rel.modify (Aside.putMetadata id _ _)
  refine Rel.bind (aside_captureBackendCheckpoints _) fun checkpoints => Rel.bind Rel.get fun old =>
    Rel.tryCatch (Rel.bind (hentries _) fun _ => Rel.forEach fun r _ => hmeta r) fun e => ?_
  exact Rel.bind (aside_restoreBackendCheckpoints _) fun _ =>
    Rel.bind (Rel.modify (Aside.resetNodes old [id])) fun _ => Rel.throw _

theorem aside_bootstrapNode (id : NodeId) (session : SnapshotSession) :
    Rel Aside (bootstrapNode c id session) := by
  have hrecords : Rel Aside (sessionRecords c id session) :=
    Rel.bind (aside_requireNode id) fun _ => Rel.bind Rel.get fun _ =>
      Rel.ite (fun _ => Rel.throw _) fun _ => Rel.ite (fun _ => Rel.throw _) fun _ =>
        Rel.bind (Rel.fromExcept _) fun _ => Rel.ite (fun _ => Rel.throw _) fun _ => Rel.pure _
  exact Rel.bind hrecords fun _ => Rel.bind (Rel.select fun r _ => aside_acceptRecord id _ r)
    fun _ => Rel.ite (fun _ => aside_bump _ _) fun _ => Rel.bind (aside_installRecords id _)
      fun _ => Rel.bind (aside_gcTombstones _) fun _ => aside_bump _ _

theorem aside_spreadHot (key : Key) (extraReplicas : ℕ) (metadata : ReplicaMetadata)
    (exported : List (StorageEntry V)) : Rel Aside (spreadHot c key extraReplicas metadata exported) := by
  have hcopy : ∀ id, Rel Aside (copyHot c key metadata exported id) := fun id =>
    aside_catchValue (Rel.bind (aside_faulty id _) fun _ =>
      Rel.bind (Rel.modify (Aside.putMetadata id key _)) fun _ =>
        Rel.bind (Rel.modify fun _ => .of_same rfl rfl rfl rfl rfl rfl rfl rfl rfl) fun _ => Rel.pure _)
      (Rel.bind (aside_bump _ _) fun _ => Rel.pure _)
  have hcandidates : ∀ owners, Rel Aside (hotCandidates c owners) := fun _ =>
    Rel.bind Rel.get fun _ => Rel.select fun id _ => aside_healthy id
  exact Rel.bind (aside_ringOwners key) fun _ => Rel.bind (hcandidates _) fun _ =>
    Rel.bind Rel.get fun _ => Rel.ite (fun _ => Rel.bind (aside_bump _ _) fun _ => Rel.pure _)
      fun _ => Rel.bind (Rel.collect fun id _ => hcopy id) fun _ =>
        Rel.ite (fun _ => Rel.pure _) fun _ => Rel.bind (aside_bump _ _) fun _ => Rel.pure _

theorem aside_releaseHotKey (key : Key) : Rel Aside (releaseHotKey c key) :=
  Rel.bind (aside_validateKey key) fun _ => Rel.bind (aside_ringOwners key) fun _ =>
    Rel.bind (aside_walk _) fun _ =>
      Rel.bind (Rel.modify fun _ => .of_same rfl rfl rfl rfl rfl rfl rfl rfl rfl) fun _ =>
        Rel.bind (Rel.collect fun id _ => Rel.ite (fun _ => Rel.pure _) fun _ =>
          aside_catchException (Rel.bind (aside_faulty id _) fun _ =>
            Rel.bind (Rel.modify (Aside.putMetadata id key none)) fun _ => Rel.pure _)
            (Rel.bind (aside_bump _ _) fun _ => Rel.pure _)) fun _ => Rel.pure _

theorem aside_recordLoadCost (key : Key) (durationMs : ℚ) :
    Rel Aside (recordLoadCost c key durationMs) :=
  Rel.bind (aside_validateKey key) fun _ => Rel.bind (aside_ringOwners key) fun _ =>
    Rel.bind Rel.get fun _ => Rel.forEach fun id _ => aside_onStorage id _

theorem aside_degraded : Rel Aside (degraded c) := by
  have hkey : ∀ key, Rel Aside (keyDegraded c key) := by
    intro key
    refine Rel.bind (aside_ringOwners key) fun _ => Rel.bind (aside_availableOwners _) fun _ =>
      Rel.ite (fun _ => Rel.pure _) fun _ => Rel.bind Rel.get fun s => ?_
    split
    · exact Rel.pure _
    · exact Rel.pure _
  exact Rel.bind (aside_walk _) fun _ => Rel.bind (Rel.every fun key _ =>
    Rel.bind (hkey key) fun _ => Rel.pure _) fun _ => Rel.ite (fun _ => Rel.bind Rel.get fun _ =>
      Rel.bind (Rel.every fun id _ => aside_healthy id) fun _ => Rel.pure _) fun _ => Rel.pure _

theorem aside_firstDescription (key : Key) (latest : Option ReplicaMetadata) (ids : List NodeId) :
    Rel Aside (firstDescription c key latest ids) := by
  induction ids with
  | nil => exact Rel.pure _
  | cons id rest ih =>
    refine Rel.bind Rel.get fun s => Rel.ite (fun _ => ?_) fun _ => ih
    refine Rel.bind (aside_onStorage id _) fun found => ?_
    cases found with
    | none => exact ih
    | some found => exact Rel.pure _

theorem aside_stats : Rel Aside (stats c) := by
  have hnode : ∀ id, Rel Aside (nodeStats c id) := fun id =>
    Rel.bind Rel.get fun _ => Rel.ite (fun _ => Rel.pure _) fun _ =>
      Rel.bind (aside_onStorage id _) fun _ => Rel.pure _
  exact Rel.bind aside_readClock fun _ => Rel.bind (Rel.modify (Aside.purgeExpiredLeases _))
    fun _ => Rel.bind Rel.get fun _ => Rel.bind (Rel.forEach fun id _ => hnode id) fun _ =>
      Rel.bind (Rel.select fun id _ => aside_healthy id) fun _ => Rel.bind aside_degraded fun _ =>
        Rel.bind (Rel.collect fun _ _ => Rel.bind aside_readClock fun _ => Rel.pure _) fun _ =>
          Rel.pure _

theorem aside_releaseLease (key : Key) (leaseToken : String) :
    Rel Aside (releaseLease key leaseToken : ClusterM V Bool) := by
  refine Rel.bind (aside_validateKey key) fun _ => Rel.bind Rel.get fun s => ?_
  split
  · exact Rel.pure _
  · exact Rel.bind (aside_compareDigest _ _) fun _ => Rel.ite
      (fun _ => Rel.bind (Rel.modify (Aside.removeLease key)) fun _ => Rel.pure _)
      fun _ => Rel.pure _

/-! ## Programs with elections -/

/-- What a relation between coordinators has to allow for it to hold over reads: programs
that hold no election, and the detection of failures. -/
structure CarriesReads (c : ClusterConfig V) (R : Cluster V → Cluster V → Prop) : Prop where
  refl : ∀ s, R s s
  trans : ∀ {s s' s''}, R s s' → R s' s'' → R s s''
  aside : ∀ {s s'}, Aside s s' → R s s'
  detect : Rel R (detectFailures c)

/-- And for all calls but `acquire_lease`: the leases of a failed transaction put back, and
a lease renewed. -/
structure Carries (c : ClusterConfig V) (R : Cluster V → Cluster V → Prop) : Prop
    extends CarriesReads c R where
  relet : ∀ {s s'}, R s s' → R s (resetLeases s s')
  renew : ∀ key lease now s, s.leases.get? key = some lease →
    R s { s with leases := s.leases.set key { lease with untilTime := now } }

/-- Whether a lease can be added to the table. -/
def Grantable (c : ClusterConfig V) (key : Key) (now : ℚ) (s : Cluster V) : Prop :=
  (∀ lease, s.leases.get? key = some lease → now < lease.untilTime → lease.fence ≠ s.fence) ∧
    s.leases.size < c.maxLeases ∧
    s.leaseBytes + clusterLeaseBytes key (c.tokenUrlsafe s.draws) ≤ c.maxLeaseMemoryBytes

namespace CarriesReads

variable {R : Cluster V → Cluster V → Prop} (h : CarriesReads c R)

include h

theorem toRefl : Std.Refl R := ⟨h.refl⟩

theorem toTrans : IsTrans (Cluster V) R := ⟨fun _ _ _ => h.trans⟩

theorem rel {m : ClusterM V α} (hm : Rel Aside m) : Rel R m := hm.mono fun _ _ => h.aside

theorem read (key : Key) (profile : ConsistencyProfile) : Rel R (read c key profile) := by
  have := h.toRefl
  have := h.toTrans
  have hresponses : Rel R (readResponses c key profile) :=
    Rel.bind h.detect fun _ => h.rel <| Rel.bind (aside_ringOwners key) fun _ =>
      Rel.bind (aside_availableOwners _) fun _ => Rel.ite (fun _ => Rel.throw _) fun _ =>
        Rel.bind Rel.get fun _ => Rel.bind (Rel.collect fun id _ => aside_hotResponse key _ id)
          fun _ => Rel.bind (aside_ownerResponses key profile _) fun _ =>
            Rel.ite (fun _ => Rel.throw _) fun _ => Rel.pure _
  refine Rel.bind hresponses fun responses => ?_
  split
  · exact Rel.throw _
  · exact Rel.ite (fun _ => Rel.pure _) fun _ => Rel.bind (h.rel (aside_settleRead key _ _))
      fun _ => Rel.pure _

theorem getEntry (key : Key) (consistency : Option ConsistencyProfile) :
    Rel R (getEntry c key consistency) :=
  have := h.toRefl
  have := h.toTrans
  Rel.bind (h.rel (aside_validateKey key)) fun _ => Rel.bind (h.read key _) fun _ => Rel.pure _

theorem grantLease {key : Key} {now : ℚ} (result : CacheResult V)
    (hdraw : ∀ s, R s { s with draws := s.draws + 1 })
    (hissue : ∀ s, Grantable c key now s →
      R s (issueLease c key (c.tokenUrlsafe s.draws) now { s with draws := s.draws + 1 })) :
    Rel R (grantLease c key now result) := by
  have := h.toRefl
  have := h.toTrans
  refine Rel.bind (h.rel (aside_ringOwners key)) fun _ =>
    Rel.bind (h.rel (aside_availableOwners _)) fun _ => Rel.ite (fun _ => Rel.throw _) fun _ => ?_
  intro s
  rw [run_bind_ok (run_get s)]
  cases hlease : (s.leases.get? key).filter fun l => now < l.untilTime ∧ l.fence = s.fence with
  | some lease =>
    refine Rel.bind (h.rel (aside_bump _ _)) (fun _ => ?_) s
    exact Rel.ite (fun _ => Rel.pure _) fun _ => Rel.pure _
  | none =>
    dsimp only
    rw [run_ite]
    split_ifs with hfull
    · exact h.trans (hdraw s) (h.aside (.bump _ _ _))
    all_goals
      push Not at hfull
      refine hissue s ⟨fun lease hl hnow hfence => ?_, hfull.1, hfull.2⟩
      rw [hl] at hlease
      simp [Option.filter, hnow, hfence] at hlease

/-- `acquire_lease` adds a lease when there is room for one and none to wait for. -/
theorem acquireLease {key : Key} (force : Bool) (hdraw : ∀ s, R s { s with draws := s.draws + 1 })
    (hissue : ∀ now s, Grantable c key now s →
      R s (issueLease c key (c.tokenUrlsafe s.draws) now { s with draws := s.draws + 1 })) :
    Rel R (acquireLease c key force) := by
  have := h.toRefl
  have := h.toTrans
  refine Rel.bind (h.rel (aside_validateKey key)) fun _ => Rel.bind (h.rel aside_readClock)
    fun now => Rel.bind h.detect fun _ =>
      Rel.bind (h.rel (Rel.modify (Aside.purgeExpiredLeases now))) fun _ =>
        Rel.bind (h.getEntry key none) fun result => Rel.ite (fun _ => Rel.pure _) fun _ => ?_
  exact h.grantLease result (hdraw) (hissue now)

end CarriesReads

namespace Carries

variable {R : Cluster V → Cluster V → Prop} (h : Carries c R)

include h

theorem put (a : PutArgs V) (leaseToken : Option String) (consistency : Option ConsistencyProfile)
    (fence : Option FenceToken) : Rel R (put c a leaseToken consistency fence) :=
  have := h.toRefl
  have := h.toTrans
  Rel.bind (h.rel (aside_validateKey _)) fun _ => Rel.bind (h.rel (aside_normalizeTags _)) fun _ =>
    Rel.bind h.detect fun _ => h.rel <| Rel.bind (aside_selectedFence _) fun _ =>
      Rel.bind (aside_assertFence _) fun _ => Rel.bind (aside_checkLease _ _) fun _ =>
        Rel.bind (aside_replicatePut _ _) fun _ => Rel.bind (Rel.modify (Aside.removeLease _))
          fun _ => Rel.bind (Rel.modify (Aside.recordWrite _ _)) fun _ => Rel.pure _

/-- The handler of a failed transaction is right with respect to where that started. -/
theorem abortDelete (old : Cluster V) (selected : List Key) (checkpoints : Checkpoints V)
    (e : PyError) : Rel (Preserves (R old))
      (abortDelete old selected checkpoints e : ClusterM V α) := by
  have := h.toTrans
  have hselected : Rel R (modify (resetSelected old selected) : ClusterM V Unit) :=
    Rel.modify fun s => h.aside (Aside.foldl (fun s key => .resetMetadata old key _ s) selected s)
  refine Rel.bind ((h.rel (aside_restoreBackendCheckpoints checkpoints)).preserves old) fun _ =>
    Rel.bind (hselected.preserves old) fun _ => Rel.bind (Rel.modify fun s hs => ?_) fun _ =>
      Rel.throw _
  exact h.trans (h.relet (h.trans hs (h.aside (.resetBooks old s))))
    (h.aside (.of_same rfl rfl rfl rfl rfl rfl rfl rfl rfl))

theorem deleteBody (profile : ConsistencyProfile) (selected : List Key)
    (availability : List Availability) (ids : List NodeId) (old : Cluster V)
    (checkpoints : Checkpoints V) : Rel (Preserves (R old))
      (deleteBody c profile selected availability ids old checkpoints) := by
  have := h.toRefl
  have := h.toTrans
  have hread : ∀ key, Rel R (existed c profile key) := fun key =>
    Rel.bind (h.read key profile) fun _ => Rel.pure _
  refine Rel.bind (Rel.tryCatch ((Rel.collect fun key _ => hread key).preserves old)
    fun e => h.abortDelete old selected checkpoints e) fun hits =>
      Rel.bind ((h.rel (Rel.collect fun key _ => aside_versionFor key)).preserves old) fun versions =>
        Rel.bind (Rel.tryCatch ((h.rel (Rel.fold (fun p id _ =>
          aside_deleteOnNode old selected _ p id) _)).preserves old)
          fun e => h.abortDelete old selected checkpoints e) fun progress => ?_
  split
  · exact h.abortDelete old selected _ _
  · exact Rel.bind (Rel.tryCatch ((h.rel (aside_deleteFinish selected availability _)).preserves old)
      fun e => h.abortDelete old selected _ e) fun _ => Rel.pure _

theorem deleteKeysTransaction (keys : List Key) (profile : ConsistencyProfile) :
    Rel R (deleteKeysTransaction c keys profile) := by
  have := h.toRefl
  have := h.toTrans
  refine Rel.bind (h.rel (Rel.forEach fun _ _ => aside_validateKey _)) fun _ =>
    Rel.ite (fun _ => Rel.pure _) fun _ => Rel.bind (h.rel (aside_gcTombstones _)) fun _ =>
      Rel.bind Rel.get fun _ => Rel.bind (h.rel (Rel.collect fun _ _ => aside_deleteCheck _ _))
        fun availability => Rel.ite (fun _ => Rel.throw _) fun _ => Rel.from_get fun old => ?_
  refine Rel.bind ((h.rel (aside_captureMutationCheckpoints _ _)).preserves old) fun _ =>
    Rel.bind (h.deleteBody profile _ availability _ old _) fun _ => Rel.preserves (h.rel ?_) old
  exact Rel.bind (aside_commitBackendCheckpoints _) fun _ => Rel.bind (aside_bump _ _) fun _ =>
    Rel.pure _

theorem delete (key : Key) (consistency : Option ConsistencyProfile) (fence : Option FenceToken) :
    Rel R (delete c key consistency fence) :=
  have := h.toRefl
  have := h.toTrans
  Rel.bind (h.rel (aside_validateKey _)) fun _ => Rel.bind h.detect fun _ =>
    Rel.bind (h.rel (aside_selectedFence _)) fun _ => Rel.bind (h.rel (aside_assertFence _))
      fun _ => Rel.bind (h.deleteKeysTransaction _ _) fun _ => Rel.pure _

theorem deleteMany (keys : List Key) : Rel R (deleteMany c keys) :=
  have := h.toRefl
  have := h.toTrans
  Rel.bind h.detect fun _ => Rel.bind Rel.get fun _ => Rel.bind (h.rel (aside_assertFence _))
    fun _ => h.deleteKeysTransaction _ _

theorem invalidateTags (tags : List Tag) : Rel R (invalidateTags c tags) :=
  have := h.toRefl
  have := h.toTrans
  Rel.bind (h.rel (aside_normalizeTags _)) fun _ => Rel.bind Rel.get fun _ =>
    Rel.ite (fun _ => Rel.pure _) fun _ => Rel.bind (h.deleteKeysTransaction _ _) fun _ =>
      Rel.bind (h.rel (aside_bump _ _)) fun _ => Rel.pure _

theorem mget (keys : List Key) : Rel R (mget c keys) :=
  have := h.toRefl
  have := h.toTrans
  Rel.collect fun key _ => h.getEntry key none

theorem existsCount (keys : List Key) : Rel R (existsCount c keys) :=
  have := h.toRefl
  have := h.toTrans
  Rel.bind (Rel.collect fun key _ => h.getEntry key none) fun _ => Rel.pure _

theorem exportHit (key : Key) : Rel R (exportHit c key) :=
  have := h.toRefl
  have := h.toTrans
  Rel.bind (h.read key _) fun _ => Rel.ite (fun _ => Rel.pure _) fun _ =>
    Rel.bind (h.rel (aside_onStorage _ _)) fun _ => Rel.pure _

theorem expire (key : Key) (ttlSeconds : ℤ) : Rel R (expire c key ttlSeconds) := by
  have := h.toRefl
  have := h.toTrans
  refine Rel.ite (fun _ => Rel.throw _) fun _ => Rel.bind (h.exportHit key) fun entry => ?_
  cases entry with
  | none => exact Rel.pure _
  | some entry => exact Rel.bind (h.rel (aside_replicatePut _ _)) fun _ => Rel.pure _

theorem ttl (key : Key) : Rel R (ttl c key) :=
  have := h.toRefl
  have := h.toTrans
  Rel.bind (h.read key _) fun _ => Rel.ite (fun _ => Rel.pure _) fun _ => h.rel (aside_onStorage _ _)

theorem exportEntries (keys : List Key) : Rel R (exportEntries c keys) :=
  have := h.toRefl
  have := h.toTrans
  Rel.bind (Rel.collect fun key _ => h.exportHit key) fun _ => Rel.pure _

theorem liveKeys (keys : List Key) : Rel R (liveKeys c keys) :=
  have := h.toRefl
  have := h.toTrans
  Rel.select fun key _ => Rel.bind (h.getEntry key none) fun _ => Rel.pure _

theorem size : Rel R (size c) :=
  have := h.toRefl
  have := h.toTrans
  Rel.bind (h.rel (aside_walk _)) fun _ => Rel.bind (h.liveKeys _) fun _ => Rel.pure _

theorem keys : Rel R (keys c) :=
  have := h.toRefl
  have := h.toTrans
  Rel.bind (h.rel (aside_walk _)) fun _ => h.liveKeys _

theorem exportSelected (selected : Option (List Key)) : Rel R (exportSelected c selected) := by
  have := h.toTrans
  cases selected with
  | none => exact Rel.bind h.keys fun _ => h.exportEntries _
  | some selected => exact h.exportEntries selected

theorem flush : Rel R (flush c) := by
  have := h.toRefl
  have := h.toTrans
  have hnode : ∀ id, Rel Aside (flushNode id : ClusterM V Unit) := fun id =>
    Rel.bind Rel.get fun _ => Rel.ite (fun _ => Rel.pure _) fun _ =>
      Rel.bind (aside_onStorage id _) fun _ => Rel.modify fun s =>
        .modifyNode id (by intro n; rfl) (by intro n; rfl) s
  refine Rel.bind h.detect fun _ => Rel.bind Rel.get fun _ =>
    Rel.bind (h.rel (Rel.select fun id _ => aside_healthy id)) fun _ =>
      Rel.ite (fun _ => Rel.throw _) fun _ => Rel.bind h.size fun _ => h.rel ?_
  refine Rel.bind (Rel.forEach fun id _ => hnode id) fun _ => Rel.bind aside_nextVersion fun _ =>
    Rel.bind (Rel.modify fun s => ?_) fun _ => Rel.pure _
  exact ⟨rfl, rfl, rfl, rfl, rfl, fun _ => rfl, fun _ => rfl, le_rfl, fun _ _ h => by simp at h,
    .inr ⟨rfl, rfl⟩⟩

theorem replicateHotKey (key : Key) (extraReplicas : ℕ) :
    Rel R (replicateHotKey c key extraReplicas) := by
  have := h.toRefl
  have := h.toTrans
  refine Rel.bind (h.rel (aside_validateKey key)) fun _ => Rel.ite (fun _ => Rel.pure _) fun _ =>
    Rel.bind (h.read key _) fun r => ?_
  split
  · exact Rel.pure _
  · exact Rel.ite (fun _ => Rel.pure _) fun _ => Rel.bind (h.rel (aside_onStorage _ _)) fun _ =>
      Rel.ite (fun _ => Rel.pure _) fun _ => h.rel (aside_spreadHot _ _ _ _)

theorem getOrLoad (key : Key) (loaded : Except PyError V) (ttlSeconds staleSeconds : Option ℤ)
    (tags : List Tag) : Rel R (getOrLoad c key loaded ttlSeconds staleSeconds tags) := by
  have := h.toRefl
  have := h.toTrans
  refine Rel.bind (h.getEntry key none) fun _ => Rel.ite (fun _ => Rel.pure _) fun _ =>
    Rel.tryCatch ?_ fun _ => Rel.bind (h.rel (aside_bump _ _)) fun _ => Rel.throw _
  cases loaded with
  | error e => exact Rel.throw _
  | ok value => exact h.put _ _ _ _

theorem explainEntry (key : Key) : Rel R (explainEntry c key) := by
  have := h.toTrans
  have hhot : ∀ latest, Rel Aside (hotDescribers c key latest) := fun _ =>
    Rel.bind Rel.get fun _ => Rel.select fun id _ => Rel.bind (aside_healthy id) fun _ => Rel.pure _
  exact Rel.bind (h.rel (aside_validateKey key)) fun _ => Rel.bind h.detect fun _ => h.rel <|
    Rel.bind (aside_ringOwners key) fun _ => Rel.bind (aside_availableOwners _) fun _ =>
      Rel.ite (fun _ => Rel.throw _) fun _ => Rel.bind Rel.get fun _ => Rel.ite (fun _ => Rel.pure _)
        fun _ => Rel.bind (hhot _) fun _ => aside_firstDescription key _ _

theorem topology : Rel R (topology c) :=
  have := h.toTrans
  Rel.bind h.detect fun _ => h.rel <| Rel.bind aside_readClock fun _ => Rel.bind Rel.get fun _ =>
    Rel.bind aside_degraded fun _ => Rel.pure _

theorem leadership : Rel R (leadership c) :=
  have := h.toRefl
  have := h.toTrans
  Rel.bind h.detect fun _ => Rel.bind Rel.get fun _ => Rel.pure _

theorem renewLease (key : Key) (leaseToken : String) : Rel R (renewLease c key leaseToken) := by
  have := h.toRefl
  have := h.toTrans
  refine Rel.bind (h.rel (aside_validateKey key)) fun _ => Rel.bind (h.rel aside_readClock)
    fun now => ?_
  intro s
  rw [run_bind_ok (run_get s)]
  cases hlease : (s.leases.get? key).filter fun lease => now < lease.untilTime with
  | none => exact h.aside (.removeLease key s)
  | some lease =>
    have hget : s.leases.get? key = some lease := (Option.filter_eq_some_iff.mp hlease).1
    dsimp only
    rcases hfence : assertFence lease.fence s with ⟨e | ⟨⟩, t⟩
    · rw [run_bind_error hfence]
      exact (h.rel (aside_assertFence _)).run hfence
    · obtain rfl : t = s := (assertFence_eq_ok.mp hfence).2
      rw [run_bind_ok hfence, run_bind]
      rcases hsame : compareDigest lease.token leaseToken t with ⟨e | b, u⟩
      · exact (h.rel (aside_compareDigest _ _)).run hsame
      · obtain rfl : u = t := by
          have := compareDigest_snd lease.token leaseToken t
          rwa [hsame] at this
        cases b with
        | false => exact h.refl u
        | true => exact h.trans (h.renew key lease _ u hget) (h.aside (.bump _ _ _))

/-- A reconciled key is deleted, dropped from the catalog or left alone. -/
theorem reconcileAbsentCatalogKeys : Rel R (reconcileAbsentCatalogKeys c) := by
  have := h.toRefl
  have := h.toTrans
  have hmiss : ∀ key latest id, Rel Aside (missesLatest c key latest id) := by
    intro key latest id
    refine Rel.bind Rel.get fun s => ?_
    split
    · exact Rel.pure _
    · exact aside_catchException (Rel.bind (aside_onStorage id _) fun _ => Rel.pure _) (Rel.pure _)
  have hlive : ∀ key latest, Rel R (reconcileLive c key latest) := fun key latest =>
    Rel.bind (h.rel (aside_ringOwners key)) fun _ =>
      Rel.bind (h.rel (aside_availableOwners _)) fun _ => Rel.ite (fun _ => Rel.pure _) fun _ =>
        Rel.bind (h.rel (Rel.select fun id _ => hmiss key latest id)) fun _ =>
          Rel.ite (fun _ => Rel.bind (h.deleteKeysTransaction _ _) fun _ => Rel.pure _)
            fun _ => Rel.pure _
  refine Rel.bind Rel.get fun _ => Rel.forEach fun key _ => Rel.bind Rel.get fun s => ?_
  split
  · exact h.rel (Rel.modify fun _ => .of_same rfl rfl rfl rfl rfl rfl rfl rfl rfl)
  · exact Rel.ite (fun _ => Rel.pure _) fun _ => hlive key _

theorem planRebalance : Rel R (planRebalance c) := by
  have := h.toRefl
  have := h.toTrans
  have hkey : ∀ ring key, Rel Aside (planKey c ring key) := by
    intro ring key
    refine Rel.bind (aside_ringOwners key) fun _ => Rel.bind (aside_ownersIn ring key) fun _ =>
      Rel.bind Rel.get fun s => ?_
    split
    · exact Rel.throw _
    · refine Rel.bind (Rel.select fun id _ => aside_hasHealthyRecord id key _) fun candidates => ?_
      split
      · exact Rel.throw _
      · exact Rel.bind (Rel.collect fun id _ => Rel.bind (aside_nodeHasRecord id key _)
          fun _ => Rel.pure _) fun _ => Rel.pure _
  refine Rel.bind h.detect fun _ => Rel.bind h.reconcileAbsentCatalogKeys fun _ =>
    Rel.bind Rel.get fun s => ?_
  split
  · exact Rel.throw _
  · exact Rel.bind (h.rel (Rel.collect fun key _ => hkey _ key)) fun _ => Rel.bind Rel.get
      fun _ => Rel.pure _

/-- Calls that leave the membership alone. -/
theorem exec {call : ClusterCall V} (hcall : ¬call.Membership)
    (hacquire : ∀ key force, call = .acquireLease key force →
      Rel R (Cluster.acquireLease c key force)) : Rel R (ClusterCall.exec c call) := by
  have := h.toRefl
  have := h.toTrans
  cases call with
  | get key consistency => exact (h.getEntry key consistency).discard
  | put args leaseToken consistency fence => exact (h.put args leaseToken consistency fence).discard
  | mget keys => exact (h.mget keys).discard
  | mset values => exact (h.rel (aside_mset values)).discard
  | delete key consistency fence => exact (h.delete key consistency fence).discard
  | deleteMany keys => exact (h.deleteMany keys).discard
  | existsCount keys => exact (h.existsCount keys).discard
  | expire key ttlSeconds => exact (h.expire key ttlSeconds).discard
  | ttl key => exact (h.ttl key).discard
  | flush => exact h.flush.discard
  | size => exact h.size.discard
  | keys => exact h.keys.discard
  | invalidateTags tags => exact (h.invalidateTags tags).discard
  | acquireLease key force => exact (hacquire key force rfl).discard
  | releaseLease key leaseToken => exact (h.rel (aside_releaseLease key leaseToken)).discard
  | renewLease key leaseToken => exact (h.renewLease key leaseToken).discard
  | getOrLoad key loaded ttlSeconds staleSeconds tags =>
    exact (h.getOrLoad key loaded ttlSeconds staleSeconds tags).discard
  | exportEntries keys => exact (h.exportSelected keys).discard
  | restoreEntries entries => exact (h.rel (aside_restoreEntries entries)).discard
  | createSnapshot id keys => exact (h.rel (aside_createSnapshot id keys)).discard
  | bootstrapNode id session => exact (h.rel (aside_bootstrapNode id session)).discard
  | replicateHotKey key extraReplicas => exact (h.replicateHotKey key extraReplicas).discard
  | releaseHotKey key => exact (h.rel (aside_releaseHotKey key)).discard
  | recordLoadCost key durationMs => exact (h.rel (aside_recordLoadCost key durationMs)).discard
  | explainEntry key => exact (h.explainEntry key).discard
  | topology => exact h.topology.discard
  | stats => exact (h.rel aside_stats).discard
  | leadership => exact h.leadership.discard
  | assertFence fence => exact (h.rel (aside_assertFence fence)).discard
  | detectFailures => exact h.detect.discard
  | planRebalance => exact h.planRebalance.discard
  | heartbeat | markNodeDown | addNode | drainNode | removeNode | applyRebalance =>
    exact absurd trivial hcall

/-- The checks before a plan is applied. -/
theorem checkPlan (plan : RebalancePlan) : Rel R (checkPlan c plan) :=
  have := h.toRefl
  have := h.toTrans
  Rel.bind h.detect fun _ => Rel.bind (h.rel (aside_assertFence _)) fun _ => Rel.bind Rel.get
    fun _ => Rel.ite (fun _ => Rel.throw _) fun _ => Rel.bind h.planRebalance fun _ =>
      Rel.ite (fun _ => Rel.throw _) fun _ => Rel.pure _

end Carries
end Cluster
end MegaCache
