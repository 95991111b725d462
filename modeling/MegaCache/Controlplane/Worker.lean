import MegaCache.Controlplane.ControlState
import MegaCache.Lib.OrderedDict
import Mathlib.Data.Rat.Floor

/-!
# The operations of the control plane

`ManagedControlPlane` as a system: calls that record operations and queue them, the worker
that runs them, retention, and the process that can stop anywhere and is started again.  An
action makes the smallest step after which the process can be found stopped.
-/

namespace MegaCache
namespace Controlplane
namespace Managed

/-- Where the worker stands in `_run_operation`, with its copy of the operation. -/
inductive WorkerPlace
  | idle
  | taken (operation : Operation)
  | starts (operation : Operation)
  | writes (operation : Operation)
  | lists (operation : Operation) (record : ListedArtifact)
  | withdraws (operation : Operation) (record : ListedArtifact) (error : String)
  | trims (operation : Operation) (names : List ArtifactName)
  | replaced (operation : Operation)
  | drilled (operation : Operation)
  | clears (operation : Operation) (names : List ArtifactName)
  | sweeps (operation : Operation) (names : List ArtifactName)
  | erases (operation : Operation)
  | returned (operation : Operation)
  | audits (operation : Operation)
  | suspends (operation : Operation) (error : String)
  | fails (operation : Operation) (error : String)
  | reports (operation : Operation) (survives : Bool)
  | dead
deriving DecidableEq, Repr

/-- Where a call stands in `enqueue_operation`, and in the handler that
`request_tenant_deletion` has around it. -/
inductive CallPlace
  | admitted
  | puts (operationId : String)
  | overflowed (operationId : String)
  | unwinds
  | returned
  | raised
deriving DecidableEq, Repr

structure Call where
  request : Request
  place : CallPlace
deriving DecidableEq, Repr

/-- What is lost when the process stops.  `requeues` has still to be put into the queue, and
`retentions` are the files that calls of `run_retention` have still to remove. -/
structure Process where
  queue : List String
  worker : WorkerPlace
  requeues : List String
  calls : List Call
  retentions : List (List ArtifactName)
  accepting : String → Bool

/-- A handler has changed what it is there to change. -/
structure Effect where
  operationId : String
  kind : OperationKind
  tenantId : String
deriving DecidableEq, Repr

/-- A file is known by the namespace in it.  `effects` is a record for the proofs. -/
structure ControlPlane where
  state : ControlState
  files : OrderedDict ArtifactName String
  process : Option Process
  tokens : ℕ
  effects : List Effect

def Operation.effect (operation : Operation) : Effect :=
  ⟨operation.operationId, operation.kind, operation.tenantId⟩

/-- The kind of artifact that an operation makes. -/
def OperationKind.artifact : OperationKind → Option ArtifactKind
  | .backup => some .backup
  | .dataExport => some .export
  | .auditExport => some .auditExport
  | _ => none

namespace ControlPlane

variable (c : Settings)

def init : ControlPlane where
  state := .empty c
  files := .empty
  process := none
  tokens := 0
  effects := []

def goto (s : ControlPlane) (p : Process) (place : WorkerPlace) : ControlPlane :=
  { s with process := some { p with worker := place } }

def remove (s : ControlPlane) (name : ArtifactName) : ControlPlane :=
  { s with files := s.files.erase name }

def log (s : ControlPlane) (operation : Operation) : ControlPlane :=
  { s with effects := s.effects ++ [operation.effect] }

/-- The handler of an exception that the operation raised. -/
def raised (operation : Operation) (error : String) : WorkerPlace :=
  if operation.kind = .tenantDelete then .suspends operation error else .fails operation error

/-- A write of the state, which moves the worker on or raises. -/
def attempt (s : ControlPlane) (p : Process) (write : Prog ControlState String Unit)
    (next : WorkerPlace) (handler : String → WorkerPlace) : ControlPlane :=
  match write s.state with
  | (.ok _, state) => { s with state := state }.goto p next
  | (.error error, state) => { s with state := state }.goto p (handler error)

/-! ## The worker -/

/-- The next operation is taken from the queue. -/
def take (s : ControlPlane) (p : Process) : ControlPlane :=
  match p.queue with
  | [] => s
  | operationId :: rest =>
    match s.state.find operationId with
    | none => { s with process := some { p with queue := rest } }
    | some operation => s.goto { p with queue := rest } (.taken operation)

/-- The handlers up to their first change of state or files.  Those of a restore and of a
deletion have then changed or closed the engine. -/
def startPlace (s : ControlPlane) (operation : Operation) (fault : Option String) : WorkerPlace :=
  let tenant := s.state.tenants operation.tenantId
  let proceed (next : WorkerPlace) : WorkerPlace :=
    match fault with
    | some error => raised operation error
    | none => next
  let validated (next : WorkerPlace) : WorkerPlace :=
    if tenant.backups.any fun item => some item.artifactId = operation.backupId then proceed next
    else raised operation "backup is not available"
  match operation.kind with
  | .backup =>
    if tenant.backups.any fun item => item.operationId = operation.operationId then
      .returned operation
    else proceed (.writes operation)
  | .dataExport | .auditExport =>
    if tenant.exports.any fun item => item.operationId = operation.operationId then
      .returned operation
    else proceed (.writes operation)
  | .restoreValidate => validated (.returned operation)
  | .restore =>
    validated (if tenant.lastRestore = some operation.operationId then .returned operation
      else .replaced operation)
  | .drDrill =>
    if operation.operationId ∈ tenant.drills then .returned operation
    else validated (.drilled operation)
  | .tenantDelete =>
    if tenant.status = .deleted then .returned operation
    else proceed (.clears operation (tenant.listed.map ListedArtifact.name))

def start (s : ControlPlane) (p : Process) (operation : Operation) (fault : Option String) :
    ControlPlane :=
  match s.startPlace operation fault with
  | .replaced operation => (s.log operation).goto p (.replaced operation)
  | place => s.goto p place

/-- The artifact is written, and its record made. -/
def write (s : ControlPlane) (p : Process) (operation : Operation) (fault : Option String)
    (now : ℚ) : ControlPlane :=
  match fault, operation.kind.artifact with
  | none, some kind =>
    { s with
      files := s.files.set (kind, c.tokenHex s.tokens) (c.namespaceFor operation.tenantId)
      tokens := s.tokens + 1 }.goto p (.lists operation
        { kind := kind
          artifactId := c.tokenHex s.tokens
          operationId := operation.operationId
          createdAt := now
          expiresAt :=
            if kind = ArtifactKind.export then some (now + (c.definition operation.tenantId).retentionSeconds)
            else none })
  | error, _ => s.goto p (raised operation (error.getD "unsupported artifact kind"))

/-- The files of the records that fell out of the list. -/
def fallen (s : ControlPlane) (tenantId : String) (now : ℚ) (record : ListedArtifact) :
    List ArtifactName :=
  (enlist c tenantId now record ((s.state.tenants tenantId).itemsOf record.kind)).1.map fun item =>
    match record.kind with
    | .backup => (.backup, item.artifactId)
    | .export | .auditExport => item.name

def list (s : ControlPlane) (p : Process) (operation : Operation) (record : ListedArtifact)
    (fault : Option String) : ControlPlane :=
  match listArtifact c fault operation.tenantId record.createdAt record s.state with
  | (.ok _, state) => { s with state := state }.log operation |>.goto p
      (.trims operation (s.fallen c operation.tenantId record.createdAt record))
  | (.error error, state) => { s with state := state }.goto p (.withdraws operation record error)

/-- One file after the other, until one cannot be removed. -/
def removeNext (s : ControlPlane) (p : Process) (operation : Operation) (fault : Option String)
    (names : List ArtifactName) (place : Operation → List ArtifactName → WorkerPlace)
    (next : WorkerPlace) : ControlPlane :=
  match names, fault with
  | [], _ => s.goto p next
  | _ :: _, some error => s.goto p (raised operation error)
  | name :: rest, none => (s.remove name).goto p (place operation rest)

/-- `delete_namespace`, one file of the directory after the other. -/
def sweep (s : ControlPlane) (p : Process) (operation : Operation) (fault : Option String)
    (names : List ArtifactName) : ControlPlane :=
  match names, fault with
  | [], _ => s.goto p (.erases operation)
  | _ :: _, some error => s.goto p (raised operation error)
  | name :: rest, none =>
    match s.files.get? name with
    | none => s.goto p (raised operation "No such file or directory")
    | some tenantNamespace =>
      if tenantNamespace = c.namespaceFor operation.tenantId then
        (s.remove name).goto p (.sweeps operation rest)
      else s.goto p (.sweeps operation rest)

def refuse (p : Process) (tenantId : String) : Process :=
  { p with accepting := Function.update p.accepting tenantId false }

/-- One step of the worker. -/
def work (s : ControlPlane) (p : Process) (fault : Option String) (now : ℚ) : ControlPlane :=
  match p.worker with
  | .idle => s.take p
  | .taken operation =>
    s.attempt p (updateOperation c fault now operation.operationId .running none)
      (.starts operation) (raised operation)
  | .starts operation => s.start p operation fault
  | .writes operation => s.write c p operation fault now
  | .lists operation record => s.list c p operation record fault
  | .withdraws operation record error =>
    match fault with
    | some other => s.goto p (raised operation other)
    | none => (s.remove record.name).goto p (raised operation error)
  | .trims operation names => s.removeNext p operation fault names .trims (.returned operation)
  | .replaced operation =>
    s.attempt p (recordRestore c fault operation.tenantId operation.operationId)
      (.returned operation) (raised operation)
  | .drilled operation =>
    match recordDrill c fault operation.tenantId operation.operationId s.state with
    | (.ok _, state) => { s with state := state }.log operation |>.goto p (.returned operation)
    | (.error error, state) => { s with state := state }.goto p (raised operation error)
  | .clears operation names =>
    s.removeNext p operation fault names .clears (.sweeps operation s.files.keys)
  | .sweeps operation names => s.sweep c p operation fault names
  | .erases operation =>
    match eraseTenant c fault operation.tenantId now s.state with
    | (.ok _, state) => { s with state := state }.log operation |>.goto (refuse p operation.tenantId)
        (.returned operation)
    | (.error error, state) => { s with state := state }.goto p (raised operation error)
  | .returned operation =>
    s.attempt p (updateOperation c fault now operation.operationId .succeeded none)
      (.audits operation) (raised operation)
  | .audits operation => s.attempt p (auditAction c fault none) .idle (raised operation)
  | .suspends operation error =>
    s.attempt (refuse p operation.tenantId) (suspendPending c fault operation.tenantId)
      (.fails operation error) fun _ => .dead
  | .fails operation error =>
    s.attempt p (updateOperation c fault now operation.operationId .failed (some error))
      (.reports operation true) fun _ => .reports operation false
  | .reports _ survives =>
    s.attempt p (auditAction c fault none) (if survives then .idle else .dead) fun _ =>
      if survives then .idle else .dead
  | .dead => s

/-! ## Calls -/

def addCall (s : ControlPlane) (p : Process) (request : Request) : ControlPlane :=
  { s with process := some { p with calls := p.calls ++ [⟨request, .admitted⟩] } }

/-- A call comes in.  A deletion marks its tenant first, under one lock with the gate; for
the others the tenant has to be active, except for an audit export. -/
def request (s : ControlPlane) (p : Process) (r : Request) (fault : Option String) : ControlPlane :=
  if r.tenantId ∉ c.tenantIds then s
  else if r.kind = .tenantDelete then
    if (s.state.tenants r.tenantId).status ≠ .active then s
    else
      match setStatus c fault r.tenantId .deletionPending s.state with
      | (.ok _, state) => { s with state := state }.addCall (refuse p r.tenantId) r
      | (.error _, state) => { s with state := state }
  else if (s.state.tenants r.tenantId).status ≠ .active ∧ r.kind ≠ .auditExport then s
  else s.addCall p r

/-- The exception leaves `enqueue_operation`. -/
def callRaised (call : Call) : Call :=
  { call with place := if call.request.kind = .tenantDelete then .unwinds else .raised }

def setCall (s : ControlPlane) (p : Process) (i : ℕ) (call : Call) : ControlPlane :=
  { s with process := some { p with calls := p.calls.set i call } }

/-- One step of the call `i`. -/
def advance (s : ControlPlane) (p : Process) (i : ℕ) (call : Call) (faults : RecordFaults)
    (fault : Option String) (now : ℚ) : ControlPlane :=
  match call.place with
  | .admitted =>
    match recordOperation c faults call.request (c.tokenHex s.tokens) now s.state with
    | (.ok true, state) => { s with state := state, tokens := s.tokens + 1 }.setCall p i
        { call with place := .puts (c.tokenHex s.tokens) }
    | (.ok false, state) => { s with state := state }.setCall p i { call with place := .returned }
    | (.error _, state) =>
      { s with state := state, tokens := s.tokens + 1 }.setCall p i (callRaised call)
  | .puts operationId =>
    if p.queue.length < c.maxOperations then
      s.setCall { p with queue := p.queue ++ [operationId] } i { call with place := .returned }
    else s.setCall p i { call with place := .overflowed operationId }
  | .overflowed operationId =>
    { s with
      state := (updateOperation c fault now operationId .failed
        (some "operation queue capacity is exhausted") s.state).2 }.setCall p i (callRaised call)
  | .unwinds =>
    match setStatus c fault call.request.tenantId .active s.state with
    | (.ok _, state) => { s with state := state }.setCall
        { p with accepting := Function.update p.accepting call.request.tenantId true } i
        { call with place := .raised }
    | (.error _, state) => { s with state := state }.setCall p i { call with place := .raised }
  | .returned | .raised => s

/-- What `run_scheduled_backups` asks for. -/
def scheduledRequest (state : ControlState) (tenantId : String) (now : ℚ) : Option Request :=
  let interval := (c.definition tenantId).intervalSeconds
  let tenant := state.tenants tenantId
  let last := (tenant.backups.map ListedArtifact.createdAt).foldl max 0
  if tenantId ∉ c.tenantIds ∨ interval = 0 ∨ tenant.status ≠ .active ∨ now - last < interval ∨
      (state.operations.any fun operation => operation.tenantId = tenantId &&
        operation.kind = .backup && !operation.status.completed) then none
  else some ⟨.backup, tenantId, "scheduler", some ("scheduled-" ++ toString ⌊now / interval⌋), none⟩

/-! ## Starting -/

def referenced (state : ControlState) : List ArtifactName :=
  c.tenantIds.flatMap fun tenantId => (state.tenants tenantId).listed.map ListedArtifact.name

/-- The files that `_reconcile_artifacts` removes. -/
def strays (s : ControlPlane) : List ArtifactName :=
  s.files.keys.filter fun name => name ∉ referenced c s.state

def removeAll (s : ControlPlane) (names : List ArtifactName) : ControlPlane := names.foldl remove s

/-- The process of a constructor that has come to `_requeue_incomplete`. -/
def started (state : ControlState) : Process where
  queue := []
  worker := .idle
  requeues := (state.operations.filter fun operation => !operation.status.completed).map
    Operation.operationId
  calls := []
  retentions := []
  accepting tenantId := (state.tenants tenantId).status = .active

/-- The constructor.  It removes the files that nothing names, all of them or the first
`stop`, and puts the operations that are not completed back to where they began. -/
def restart (s : ControlPlane) (stop : Option ℕ) (fault : Option String) : ControlPlane :=
  match stop with
  | some count => s.removeAll ((s.strays c).take count)
  | none =>
    match fault, resetIncomplete c fault s.state with
    | none, (.ok _, state) =>
      { s.removeAll (s.strays c) with state := state, process := some (started state) }
    | _, (_, state) => { s.removeAll (s.strays c) with state := state }

/-- One round of the loop of `_requeue_incomplete`. -/
def requeue (s : ControlPlane) (p : Process) (fault : Option String) (now : ℚ) : ControlPlane :=
  match p.requeues with
  | [] => s
  | operationId :: rest =>
    if p.queue.length < c.maxOperations then
      { s with process := some { p with queue := p.queue ++ [operationId], requeues := rest } }
    else
      match updateOperation c fault now operationId .failed
          (some "operation queue capacity is exhausted after restart") s.state with
      | (.ok _, state) => { s with state := state, process := some { p with requeues := rest } }
      | (.error _, state) => { s with state := state, process := none }

/-! ## Retention -/

def retain (s : ControlPlane) (p : Process) (fault : Option String) (now : ℚ) : ControlPlane :=
  match mutateState c fault (fun state => pure (retention c now state)) s.state with
  | (.ok _, state) => { s with
      state := state
      process := some { p with retentions := p.retentions ++ [expiredNames c s.state now] } }
  | (.error _, state) => { s with state := state }

/-- A call of `run_retention` removes its next file, or raises. -/
def removeRetained (s : ControlPlane) (p : Process) (i : ℕ) (fault : Option String) :
    ControlPlane :=
  match p.retentions[i]?, fault with
  | some (name :: rest), none =>
    { s.remove name with process := some { p with retentions := p.retentions.set i rest } }
  | _, _ => { s with process := some { p with retentions := p.retentions.set i [] } }

end ControlPlane

/-- What can happen next, with what fails and what the clock shows. -/
inductive Action
  | restart (stop : Option ℕ) (fault : Option String)
  | requeue (fault : Option String) (now : ℚ)
  | crash
  | work (fault : Option String) (now : ℚ)
  | request (r : Request) (fault : Option String)
  | call (i : ℕ) (faults : RecordFaults) (fault : Option String) (now : ℚ)
  | schedule (tenantId : String) (now : ℚ)
  | retain (fault : Option String) (now : ℚ)
  | removeRetained (i : ℕ) (fault : Option String)

namespace ControlPlane

variable (c : Settings)

/-- One action; an action that cannot be taken changes nothing.  No call comes in before the
constructor has returned. -/
def step (s : ControlPlane) (a : Action) : ControlPlane :=
  match s.process, a with
  | none, .restart stop fault => s.restart c stop fault
  | none, _ => s
  | some _, .crash => { s with process := none }
  | some p, .requeue fault now => s.requeue c p fault now
  | some p, .work fault now => s.work c p fault now
  | some p, .request r fault => if p.requeues = [] then s.request c p r fault else s
  | some p, .call i faults fault now =>
    match p.calls[i]? with
    | some call => s.advance c p i call faults fault now
    | none => s
  | some p, .schedule tenantId now =>
    match scheduledRequest c s.state tenantId now with
    | some r => s.addCall p r
    | none => s
  | some p, .retain fault now => s.retain c p fault now
  | some p, .removeRetained i fault => s.removeRetained p i fault
  | some _, .restart _ _ => s

def run (actions : List Action) : ControlPlane := actions.foldl (step c) (init c)

end ControlPlane

end Managed
end Controlplane
end MegaCache
