import MegaCache.Lib.Prog
import Mathlib.Data.List.Sort

/-!
# The state of the control plane

What `ManagedControlPlane` persists of its tenants and operations, and the mutations that
are made of it.  A mutation is applied to a copy, which is validated and persisted before it
takes effect.
-/

namespace MegaCache
namespace Controlplane
namespace Managed

inductive TenantStatus
  | active
  | suspended
  | deletionPending
  | deleted
deriving DecidableEq, Repr

inductive OperationKind
  | backup
  | dataExport
  | restoreValidate
  | restore
  | drDrill
  | tenantDelete
  | auditExport
deriving DecidableEq, Repr

inductive OperationStatus
  | pending
  | running
  | succeeded
  | failed
deriving DecidableEq, Repr

def OperationStatus.completed : OperationStatus → Bool
  | .pending | .running => false
  | .succeeded | .failed => true

inductive ArtifactKind
  | backup
  | export
  | auditExport
deriving DecidableEq, Repr

/-- The name of an artifact's file. -/
abbrev ArtifactName := ArtifactKind × String

/-- The record of a backup or an export; an audit export has no time of expiry. -/
structure ListedArtifact where
  kind : ArtifactKind
  artifactId : String
  operationId : String
  createdAt : ℚ
  expiresAt : Option ℚ
deriving DecidableEq, Repr

def ListedArtifact.name (item : ListedArtifact) : ArtifactName := (item.kind, item.artifactId)

/-- A drill is recorded by its operation, and so is the last restore. -/
structure TenantState where
  status : TenantStatus
  deletedAt : Option ℚ
  backups : List ListedArtifact
  exports : List ListedArtifact
  drills : List String
  lastRestore : Option String
deriving DecidableEq, Repr

/-- Of its parameters an operation keeps the backup it is about. -/
structure Operation where
  operationId : String
  kind : OperationKind
  tenantId : String
  status : OperationStatus
  actor : String
  idempotencyKey : Option String
  backupId : Option String
  createdAt : ℚ
  startedAt : Option ℚ
  completedAt : Option ℚ
  error : Option String
deriving DecidableEq, Repr

structure ControlState where
  tenants : String → TenantState
  operations : List Operation

/-- The fields of a `TenantDefinition` that bound its records. -/
structure TenantDefinition where
  enabled : Bool
  intervalSeconds : ℕ
  retentionCount : ℕ
  retentionSeconds : ℕ
  exportCount : ℕ
  completedOperations : ℕ
  positive : 0 < retentionCount ∧ 0 < retentionSeconds ∧ 0 < exportCount ∧ 0 < completedOperations

/-- What a control plane is constructed with.  `tokenHex n` is the `n`-th token that
`secrets` gives; no two are the same. -/
structure Settings where
  tenantIds : List String
  definition : String → TenantDefinition
  namespaceFor : String → String
  maxOperations : ℕ
  tokenHex : ℕ → String
  maxOperations_pos : 0 < maxOperations
  tokenHex_injective : Function.Injective tokenHex

variable (c : Settings)

namespace TenantState

def listed (tenant : TenantState) : List ListedArtifact := tenant.backups ++ tenant.exports

/-- `_empty_tenant_state` -/
def empty (enabled : Bool) : TenantState where
  status := if enabled then .active else .suspended
  deletedAt := none
  backups := []
  exports := []
  drills := []
  lastRestore := none

end TenantState

namespace ControlState

/-- `_empty_state` -/
def empty : ControlState where
  tenants tenantId := .empty (c.definition tenantId).enabled
  operations := []

def setTenant (state : ControlState) (tenantId : String) (f : TenantState → TenantState) :
    ControlState :=
  { state with tenants := Function.update state.tenants tenantId (f (state.tenants tenantId)) }

def find (state : ControlState) (operationId : String) : Option Operation :=
  state.operations.find? fun operation => operation.operationId = operationId

end ControlState

/-! ## Validation and persistence -/

def validateTenant (tenantId : String) (tenant : TenantState) : Except String Unit :=
  if (c.definition tenantId).retentionCount < tenant.backups.length then
    throw "tenant backup history exceeds configured limit"
  else if (c.definition tenantId).exportCount < tenant.exports.length then
    throw "tenant export history exceeds configured limit"
  else if 100 < tenant.drills.length then
    throw "tenant drill history exceeds configured limit"
  else pure ()

/-- `_validate_state`: the limits that it holds the records to. -/
def validateState (state : ControlState) : Except String Unit :=
  if c.maxOperations < state.operations.length then
    throw "control operations exceed configured limit"
  else c.tenantIds.forM fun tenantId => validateTenant c tenantId (state.tenants tenantId)

/-- `_mutate_state`.  With a fault the candidate is too long or cannot be written. -/
def mutateState (fault : Option String) (mutation : ControlState → Except String ControlState) :
    Prog ControlState String Unit := fun state =>
  match mutation state with
  | .error error => (.error error, state)
  | .ok candidate =>
    match validateState c candidate, fault with
    | .ok _, none => (.ok (), candidate)
    | .ok _, some error => (.error error, state)
    | .error error, _ => (.error error, state)

/-- `_audit_action`: the record is appended, and the state written with the new head. -/
def auditAction (append write : Option String) : Prog ControlState String Unit :=
  match append with
  | some error => throw error
  | none => mutateState c write pure

/-! ## Operations -/

/-- The first operation of that id is replaced. -/
def updateFirst (operationId : String) (f : Operation → Operation) :
    List Operation → Option (List Operation)
  | [] => none
  | operation :: rest =>
    if operation.operationId = operationId then some (f operation :: rest)
    else (updateFirst operationId f rest).map (operation :: ·)

/-- What `_update_operation` makes of its operation. -/
def Operation.updated (now : ℚ) (status : OperationStatus) (error : Option String)
    (operation : Operation) : Operation :=
  { operation with
    status := status
    startedAt := if status = .running then some now else operation.startedAt
    completedAt := if status.completed then some now else operation.completedAt
    error := error.map fun text => String.ofList (text.toList.take 4096) }

def updateOperation (fault : Option String) (now : ℚ) (operationId : String)
    (status : OperationStatus) (error : Option String) : Prog ControlState String Unit :=
  mutateState c fault fun state =>
    match updateFirst operationId (Operation.updated now status error) state.operations with
    | some operations => pure { state with operations := operations }
    | none => throw "operation is absent from durable state"

def byAge (operations : List Operation) : List Operation :=
  operations.insertionSort fun a b => a.createdAt ≤ b.createdAt

/-- The operations without the first `count` of the chosen ones, oldest first. -/
def pruneOldest (chosen : Operation → Bool) (count : ℕ) (operations : List Operation) :
    List Operation :=
  let removable := ((byAge (operations.filter chosen)).take count).map Operation.operationId
  operations.filter fun operation => operation.operationId ∉ removable

/-- `prune` of `_ensure_operation_capacity_locked`. -/
def pruneOperations (tenantId : String) (count : ℕ) (operations : List Operation) :
    List Operation :=
  let rest := pruneOldest (fun operation => operation.status.completed) count operations
  let own := fun operation : Operation => operation.tenantId = tenantId && operation.status.completed
  pruneOldest own
    ((rest.filter own).length - (c.definition tenantId).completedOperations) rest

def ensureOperationCapacity (fault : Option String) (tenantId : String) :
    Prog ControlState String Unit := do
  let state ← get
  if state.operations.length < c.maxOperations then pure ()
  else if state.operations.all fun operation => !operation.status.completed then
    throw "control operation history capacity is exhausted"
  else
    mutateState c fault fun state => pure { state with
      operations := pruneOperations c tenantId
        (max 1 (state.operations.length - c.maxOperations + 1)) state.operations }

/-- A call that asks for an operation. -/
structure Request where
  kind : OperationKind
  tenantId : String
  actor : String
  idempotencyKey : Option String
  backupId : Option String
deriving DecidableEq, Repr

/-- An operation that the key of a request names. -/
def Request.matches (request : Request) (operation : Operation) : Bool :=
  operation.tenantId = request.tenantId && operation.kind = request.kind &&
    operation.idempotencyKey = request.idempotencyKey

def Request.operation (request : Request) (operationId : String) (now : ℚ) : Operation where
  operationId := operationId
  kind := request.kind
  tenantId := request.tenantId
  status := .pending
  actor := request.actor
  idempotencyKey := request.idempotencyKey
  backupId := request.backupId
  createdAt := now
  startedAt := none
  completedAt := none
  error := none

/-- The steps of recording an operation that can fail. -/
structure RecordFaults where
  prune : Option String
  append : Option String
  audit : Option String
  record : Option String
deriving DecidableEq, Repr

/-- What `enqueue_operation` does under the lock: `true` when the operation is a new one. -/
def recordOperation (faults : RecordFaults) (request : Request) (operationId : String) (now : ℚ) :
    Prog ControlState String Bool := do
  let state ← get
  if request.idempotencyKey.isSome ∧ state.operations.any request.matches then pure false
  else do
    ensureOperationCapacity c faults.prune request.tenantId
    auditAction c faults.append faults.audit
    mutateState c faults.record fun state => pure { state with
      operations := state.operations ++ [request.operation operationId now] }
    pure true

/-- `reset` of `_requeue_incomplete`. -/
def Operation.reset (operation : Operation) : Operation :=
  if operation.status.completed then operation
  else { operation with status := .pending, startedAt := none, completedAt := none, error := none }

def resetIncomplete (fault : Option String) : Prog ControlState String Unit := do
  let state ← get
  if state.operations.all fun operation => operation.status.completed then pure ()
  else mutateState c fault fun state => pure { state with
    operations := state.operations.map Operation.reset }

/-! ## Lists of artifacts -/

/-- `while len(items) > count: removed.append(items.pop(0))`; what was removed comes first. -/
def popSurplus (count : ℕ) (items : List ListedArtifact) :
    List ListedArtifact × List ListedArtifact :=
  items.splitAt (items.length - count)

/-- `while len(items) > 1 and items[0]["created_at"] < cutoff: removed.append(items.pop(0))` -/
def popExpired (cutoff : ℚ) : List ListedArtifact → List ListedArtifact × List ListedArtifact
  | item :: next :: rest =>
    if item.createdAt < cutoff then
      let (removed, kept) := popExpired cutoff (next :: rest)
      (item :: removed, kept)
    else ([], item :: next :: rest)
  | items => ([], items)

def byCreation (items : List ListedArtifact) : List ListedArtifact :=
  items.insertionSort fun a b => a.createdAt ≤ b.createdAt

/-- The list with one record more; what falls out of it comes first. -/
def enlist (tenantId : String) (now : ℚ) (record : ListedArtifact) (items : List ListedArtifact) :
    List ListedArtifact × List ListedArtifact :=
  match record.kind with
  | .backup =>
    let (surplus, rest) := popSurplus (c.definition tenantId).retentionCount
      (byCreation (items ++ [record]))
    let (expired, kept) := popExpired (now - (c.definition tenantId).retentionSeconds) rest
    (surplus ++ expired, kept)
  | .export | .auditExport =>
    popSurplus (c.definition tenantId).exportCount (byCreation (items ++ [record]))

namespace TenantState

/-- The list that an artifact of that kind is in. -/
def itemsOf (tenant : TenantState) : ArtifactKind → List ListedArtifact
  | .backup => tenant.backups
  | .export | .auditExport => tenant.exports

def setItems (tenant : TenantState) (items : List ListedArtifact) : ArtifactKind → TenantState
  | .backup => { tenant with backups := items }
  | .export | .auditExport => { tenant with exports := items }

end TenantState

/-- The mutation of `_perform_backup`, `_perform_data_export` and `_perform_audit_export`. -/
def listArtifact (fault : Option String) (tenantId : String) (now : ℚ) (record : ListedArtifact) :
    Prog ControlState String Unit :=
  mutateState c fault fun state => pure (state.setTenant tenantId fun tenant =>
    tenant.setItems (enlist c tenantId now record (tenant.itemsOf record.kind)).2 record.kind)

/-! ## Retention -/

def expiredBackup (tenantId : String) (now : ℚ) (item : ListedArtifact) : Bool :=
  item.createdAt < now - (c.definition tenantId).retentionSeconds

def expiredExport (tenantId : String) (now : ℚ) (item : ListedArtifact) : Bool :=
  item.expiresAt.getD (item.createdAt + (c.definition tenantId).retentionSeconds) < now

/-- `items[-count:]` -/
def lastItems (count : ℕ) (items : List ListedArtifact) : List ListedArtifact :=
  items.drop (items.length - count)

def retainTenant (tenantId : String) (now : ℚ) (tenant : TenantState) : TenantState :=
  { tenant with
    backups := lastItems (c.definition tenantId).retentionCount
      (tenant.backups.filter fun item => !expiredBackup c tenantId now item)
    exports := lastItems (c.definition tenantId).exportCount
      (tenant.exports.filter fun item => !expiredExport c tenantId now item) }

/-- `removed_artifacts` -/
def expiredNames (state : ControlState) (now : ℚ) : List ArtifactName :=
  c.tenantIds.flatMap fun tenantId =>
    ((state.tenants tenantId).backups.filter (expiredBackup c tenantId now)).map
      (fun item => (ArtifactKind.backup, item.artifactId)) ++
    ((state.tenants tenantId).exports.filter (expiredExport c tenantId now)).map ListedArtifact.name

/-- One round of the loop over the operations, the last of them first, with the number of
completed ones kept for each tenant. -/
def retainOperation (operation : Operation) (acc : List Operation × (String → ℕ)) :
    List Operation × (String → ℕ) :=
  if operation.status.completed then
    if acc.2 operation.tenantId < (c.definition operation.tenantId).completedOperations then
      (operation :: acc.1,
        Function.update acc.2 operation.tenantId (acc.2 operation.tenantId + 1))
    else acc
  else (operation :: acc.1, acc.2)

def retainOperations (operations : List Operation) : List Operation :=
  (operations.foldr (retainOperation c) ([], fun _ => 0)).1

/-- The mutation of `run_retention`. -/
def retention (now : ℚ) (state : ControlState) : ControlState where
  tenants tenantId :=
    if tenantId ∈ c.tenantIds then retainTenant c tenantId now (state.tenants tenantId)
    else state.tenants tenantId
  operations := retainOperations c state.operations

/-! ## Tenants -/

def setStatus (fault : Option String) (tenantId : String) (status : TenantStatus) :
    Prog ControlState String Unit :=
  mutateState c fault fun state => pure (state.setTenant tenantId fun tenant =>
    { tenant with status := status })

/-- `restore` of `_run_operation`. -/
def suspendPending (fault : Option String) (tenantId : String) : Prog ControlState String Unit :=
  mutateState c fault fun state => pure (state.setTenant tenantId fun tenant =>
    if tenant.status = .deletionPending then { tenant with status := .suspended } else tenant)

/-- The mutation of `_perform_delete`. -/
def eraseTenant (fault : Option String) (tenantId : String) (now : ℚ) :
    Prog ControlState String Unit :=
  mutateState c fault fun state => pure (state.setTenant tenantId fun tenant =>
    { tenant with status := .deleted, deletedAt := some now, backups := [], exports := [] })

/-- The mutation of `_perform_drill`; the last hundred are kept. -/
def recordDrill (fault : Option String) (tenantId operationId : String) :
    Prog ControlState String Unit :=
  mutateState c fault fun state => pure (state.setTenant tenantId fun tenant =>
    { tenant with
      drills := (tenant.drills ++ [operationId]).drop (tenant.drills.length + 1 - 100) })

/-- The mutation of `_perform_restore`. -/
def recordRestore (fault : Option String) (tenantId operationId : String) :
    Prog ControlState String Unit :=
  mutateState c fault fun state => pure (state.setTenant tenantId fun tenant =>
    { tenant with lastRestore := some operationId })

/-! ## What the mutations do -/

variable {c} {state state' : ControlState} {fault : Option String}

/-- A candidate takes effect or nothing does. -/
theorem mutateState_cases {mutation : ControlState → Except String ControlState}
    {r : Except String Unit} (h : mutateState c fault mutation state = (r, state')) :
    (r = .ok () ∧ fault = none ∧ mutation state = .ok state' ∧ validateState c state' = .ok ()) ∨
      (∃ error, r = .error error) ∧ state' = state := by
  unfold mutateState at h
  split at h
  · obtain ⟨rfl, rfl⟩ := Prod.mk.inj h
    exact .inr ⟨⟨_, rfl⟩, rfl⟩
  · next candidate hm =>
    split at h
    · next hv =>
      obtain ⟨rfl, rfl⟩ := Prod.mk.inj h
      exact .inl ⟨rfl, rfl, hm, hv⟩
    all_goals
      obtain ⟨rfl, rfl⟩ := Prod.mk.inj h
      exact .inr ⟨⟨_, rfl⟩, rfl⟩

theorem setTenant_self (state : ControlState) (tenantId : String) (f : TenantState → TenantState) :
    (state.setTenant tenantId f).tenants tenantId = f (state.tenants tenantId) :=
  Function.update_self _ _ _

theorem setTenant_ne (state : ControlState) {tenantId tenantId' : String} (h : tenantId' ≠ tenantId)
    (f : TenantState → TenantState) :
    (state.setTenant tenantId f).tenants tenantId' = state.tenants tenantId' :=
  Function.update_of_ne h _ _

/-- The ids of the operations are distinct. -/
abbrev Distinct (operations : List Operation) : Prop :=
  (operations.map Operation.operationId).Nodup

theorem Distinct.eq {operations : List Operation} (h : Distinct operations) {a b : Operation}
    (ha : a ∈ operations) (hb : b ∈ operations) (hid : a.operationId = b.operationId) : a = b :=
  List.inj_on_of_nodup_map h ha hb hid

theorem ControlState.find_eq_some {operationId : String} {operation : Operation}
    (h : state.find operationId = some operation) :
    operation ∈ state.operations ∧ operation.operationId = operationId := by
  refine ⟨List.mem_of_find?_eq_some h, ?_⟩
  have := List.find?_some h
  simpa using this

theorem ControlState.find_of_mem (h : Distinct state.operations) {operation : Operation}
    (hmem : operation ∈ state.operations) : state.find operation.operationId = some operation := by
  cases hfind : state.find operation.operationId with
  | none =>
    have := List.find?_eq_none.mp hfind operation hmem
    simp at this
  | some other =>
    obtain ⟨hother, hid⟩ := find_eq_some hfind
    rw [h.eq hother hmem hid]

/-- An operation that is updated is there, and all others stay as they are. -/
theorem updateFirst_eq_map {operationId : String} {f : Operation → Operation}
    {operations operations' : List Operation} (hn : Distinct operations)
    (h : updateFirst operationId f operations = some operations') :
    (∃ operation ∈ operations, operation.operationId = operationId) ∧
      operations' = operations.map fun operation =>
        if operation.operationId = operationId then f operation else operation := by
  induction operations generalizing operations' with
  | nil => cases h
  | cons operation rest ih =>
    obtain ⟨hhead, hrest⟩ := List.nodup_cons.mp hn
    unfold updateFirst at h
    by_cases hid : operation.operationId = operationId
    · rw [if_pos hid] at h
      obtain rfl := Option.some.inj h
      refine ⟨⟨operation, List.mem_cons_self, hid⟩, ?_⟩
      rw [List.map_cons, if_pos hid]
      congr 1
      have hsame : ∀ other ∈ rest,
          (if other.operationId = operationId then f other else other) = other := by
        intro other hother
        refine if_neg fun heq => hhead ?_
        rw [hid, ← heq]
        exact List.mem_map_of_mem hother
      rw [List.map_congr_left hsame, List.map_id']
    · rw [if_neg hid] at h
      obtain ⟨rest', hupdate, rfl⟩ := Option.map_eq_some_iff.mp h
      obtain ⟨⟨found, hfound, hfid⟩, rfl⟩ := ih hrest hupdate
      refine ⟨⟨found, List.mem_cons_of_mem _ hfound, hfid⟩, ?_⟩
      rw [List.map_cons, if_neg hid]

/-- Some operations that are completed are gone. -/
structure Pruned (operations operations' : List Operation) : Prop where
  sublist : operations'.Sublist operations
  kept : ∀ operation ∈ operations, operation.status.completed = false → operation ∈ operations'

theorem Pruned.refl (operations : List Operation) : Pruned operations operations :=
  ⟨List.Sublist.refl _, fun _ h _ => h⟩

theorem Pruned.trans {a b d : List Operation} (h : Pruned a b) (h' : Pruned b d) : Pruned a d :=
  ⟨h'.sublist.trans h.sublist, fun operation hmem hstatus =>
    h'.kept operation (h.kept operation hmem hstatus) hstatus⟩

theorem Pruned.distinct {operations operations' : List Operation} (h : Pruned operations operations')
    (hn : Distinct operations) : Distinct operations' :=
  hn.sublist (h.sublist.map _)

theorem pruned_pruneOldest {chosen : Operation → Bool} {operations : List Operation}
    (hchosen : ∀ operation, chosen operation = true → operation.status.completed = true)
    (hn : Distinct operations) (count : ℕ) :
    Pruned operations (pruneOldest chosen count operations) := by
  refine ⟨List.filter_sublist, fun operation hmem hstatus => ?_⟩
  refine List.mem_filter.mpr ⟨hmem, ?_⟩
  rw [decide_eq_true_eq]
  intro hremoved
  obtain ⟨other, hother, hid⟩ := List.mem_map.mp hremoved
  have hin := List.mem_of_mem_take hother
  rw [byAge, List.mem_insertionSort, List.mem_filter] at hin
  rw [hn.eq hin.1 hmem hid] at hin
  rw [hchosen operation hin.2] at hstatus
  cases hstatus

theorem pruned_pruneOperations {operations : List Operation} (hn : Distinct operations)
    (tenantId : String) (count : ℕ) :
    Pruned operations (pruneOperations c tenantId count operations) := by
  have hfirst := @pruned_pruneOldest (fun operation => operation.status.completed) operations
    (fun _ h => h) hn count
  refine hfirst.trans (pruned_pruneOldest (fun operation h => ?_) (hfirst.distinct hn) _)
  exact (Bool.and_eq_true_iff.mp h).2

theorem pruned_retainOperations (operations : List Operation) :
    Pruned operations (retainOperations c operations) := by
  unfold retainOperations
  induction operations with
  | nil => exact Pruned.refl _
  | cons operation rest ih =>
    rw [List.foldr_cons]
    set acc := rest.foldr (retainOperation c) ([], fun _ => 0)
    have hcases : (retainOperation c operation acc).1 = operation :: acc.1 ∨
        operation.status.completed = true ∧ (retainOperation c operation acc).1 = acc.1 := by
      unfold retainOperation
      split_ifs with hcompleted hroom
      · exact .inl rfl
      · exact .inr ⟨hcompleted, rfl⟩
      · exact .inl rfl
    rcases hcases with h | ⟨hcompleted, h⟩
    · rw [h]
      refine ⟨ih.sublist.cons_cons operation, fun other hother hstatus => ?_⟩
      rcases List.mem_cons.mp hother with rfl | hother
      · exact List.mem_cons_self
      · exact List.mem_cons_of_mem _ (ih.kept other hother hstatus)
    · rw [h]
      refine ⟨ih.sublist.cons operation, fun other hother hstatus => ?_⟩
      rcases List.mem_cons.mp hother with rfl | hother
      · rw [hcompleted] at hstatus
        cases hstatus
      · exact ih.kept other hother hstatus

theorem popExpired_append (cutoff : ℚ) (items : List ListedArtifact) :
    (popExpired cutoff items).1 ++ (popExpired cutoff items).2 = items := by
  fun_induction popExpired cutoff items with
  | case1 item next rest hlt removed kept heq ih =>
    rw [heq] at ih
    simpa using ih
  | case2 => rfl
  | case3 => rfl

/-- What falls out of a list and what stays is what was in it, and the new record. -/
theorem enlist_perm (tenantId : String) (now : ℚ) (record : ListedArtifact)
    (items : List ListedArtifact) :
    ((enlist c tenantId now record items).1 ++ (enlist c tenantId now record items).2).Perm
      (items ++ [record]) := by
  have hsort : (byCreation (items ++ [record])).Perm (items ++ [record]) :=
    List.perm_insertionSort _ _
  have hsurplus : ∀ count, (popSurplus count (byCreation (items ++ [record]))).1 ++
      (popSurplus count (byCreation (items ++ [record]))).2 = byCreation (items ++ [record]) := by
    intro count
    simp [popSurplus, List.splitAt_eq]
  unfold enlist
  cases record.kind with
  | backup =>
    rw [List.append_assoc, popExpired_append, hsurplus]
    exact hsort
  | «export» =>
    rw [hsurplus]
    exact hsort
  | auditExport =>
    rw [hsurplus]
    exact hsort

end Managed
end Controlplane
end MegaCache
