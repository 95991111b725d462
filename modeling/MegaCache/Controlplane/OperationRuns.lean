import MegaCache.Controlplane.Worker

/-!
# Runs of the operations

The status of an operation moves along a few arrows only, an operation that waits for the
worker is pending and waits once, and a tenant whose gate is open is active.
-/

namespace MegaCache
namespace Controlplane
namespace Managed

variable {c : Settings} {state state' : ControlState} {s : ControlPlane} {p : Process}
  {fault : Option String} {now : ℚ}

/-! ## What a write leaves as it was -/

/-- The operations other than the touched one stay, or are gone when they were completed. -/
structure Frame (touched : Option String) (state state' : ControlState) : Prop where
  distinct : Distinct state'.operations
  kept : ∀ {id operation}, state.find id = some operation → some id ≠ touched →
    operation.status.completed = false → state'.find id = some operation
  old : ∀ {id operation}, state'.find id = some operation → some id ≠ touched →
    state.find id = some operation

theorem Frame.of_eq (hn : Distinct state.operations) (h : state'.operations = state.operations) :
    Frame none state state' := by
  have hfind : ∀ id, state'.find id = state.find id := fun id => by
    unfold ControlState.find
    rw [h]
  refine ⟨by rwa [h], fun hop _ _ => ?_, fun hop _ => ?_⟩
  · rwa [hfind]
  · rwa [← hfind]

theorem Frame.widen {touched : Option String} (h : Frame none state state') :
    Frame touched state state' :=
  ⟨h.distinct, fun hop _ => h.kept hop (by simp), fun hop _ => h.old hop (by simp)⟩

theorem Frame.trans {touched : Option String} {state'' : ControlState}
    (h : Frame touched state state') (h' : Frame touched state' state'') :
    Frame touched state state'' :=
  ⟨h'.distinct, fun hop hid hstatus => h'.kept (h.kept hop hid hstatus) hid hstatus,
    fun hop hid => h.old (h'.old hop hid) hid⟩

theorem Pruned.frame (hn : Distinct state.operations)
    (h : Pruned state.operations state'.operations) : Frame none state state' := by
  have hn' := h.distinct hn
  refine ⟨hn', fun hop _ hstatus => ?_, fun hop _ => ?_⟩
  · obtain ⟨hmem, rfl⟩ := ControlState.find_eq_some hop
    exact ControlState.find_of_mem hn' (h.kept _ hmem hstatus)
  · obtain ⟨hmem, rfl⟩ := ControlState.find_eq_some hop
    exact ControlState.find_of_mem hn (h.sublist.subset hmem)

/-- An update of an operation that is there, or nothing. -/
theorem updateOperation_cases {operationId : String} {status : OperationStatus}
    {error : Option String} {r : Except String Unit} (hn : Distinct state.operations)
    (h : updateOperation c fault now operationId status error state = (r, state')) :
    (r = .ok () ∧ Frame (some operationId) state state' ∧ state'.tenants = state.tenants ∧
      ∃ operation, state.find operationId = some operation ∧
        state'.find operationId = some (operation.updated now status error)) ∨
      (∃ error, r = .error error) ∧ state' = state := by
  rcases mutateState_cases h with ⟨hr, -, hm, -⟩ | hfail
  swap
  · exact .inr hfail
  left
  split at hm
  swap
  · cases hm
  · next operations hupdate =>
    obtain rfl := Except.ok.inj hm
    obtain ⟨⟨operation, hmem, hid⟩, rfl⟩ := updateFirst_eq_map hn hupdate
    set f : Operation → Operation := fun other =>
      if other.operationId = operationId then other.updated now status error else other
    have hf : ∀ other, (f other).operationId = other.operationId := by
      intro other
      dsimp only [f]
      split_ifs <;> rfl
    have hn' : Distinct (state.operations.map f) := by
      have hids : (state.operations.map f).map Operation.operationId =
          state.operations.map Operation.operationId := by
        rw [List.map_map]
        exact List.map_congr_left fun other _ => hf other
      rwa [Distinct, hids]
    have hne : ∀ other : Operation, some other.operationId ≠ some operationId → f other = other :=
      fun other h => if_neg fun heq => h (congrArg some heq)
    refine ⟨hr, ⟨hn', fun hop hother _ => ?_, fun {id other} hop hother => ?_⟩, rfl, operation, ?_, ?_⟩
    · obtain ⟨hin, rfl⟩ := ControlState.find_eq_some hop
      refine @ControlState.find_of_mem { state with operations := state.operations.map f } hn' _ ?_
      exact List.mem_map.mpr ⟨_, hin, hne _ hother⟩
    · obtain ⟨hin, rfl⟩ := ControlState.find_eq_some hop
      obtain ⟨before, hbefore, rfl⟩ := List.mem_map.mp hin
      rw [hf] at hother ⊢
      rw [hne before hother]
      exact ControlState.find_of_mem hn hbefore
    · rw [← hid]
      exact ControlState.find_of_mem hn hmem
    · have hfound := @ControlState.find_of_mem { state with operations := state.operations.map f } hn' _
        (List.mem_map_of_mem (f := f) hmem)
      rw [hf, hid] at hfound
      rw [hfound]
      exact congrArg some (if_pos hid)

theorem updateOperation_tenants {operationId : String} {status : OperationStatus}
    {error : Option String} {r : Except String Unit}
    (h : updateOperation c fault now operationId status error state = (r, state')) :
    state'.tenants = state.tenants := by
  rcases mutateState_cases h with ⟨-, -, hm, -⟩ | ⟨-, rfl⟩
  · split at hm
    · obtain rfl := Except.ok.inj hm
      rfl
    · cases hm
  · rfl

theorem auditAction_cases {append write : Option String} {r : Except String Unit}
    (h : auditAction c append write state = (r, state')) : state' = state := by
  unfold auditAction at h
  cases append with
  | some error =>
    obtain ⟨-, rfl⟩ := Prod.mk.inj h
    rfl
  | none =>
    rcases mutateState_cases h with ⟨-, -, hm, -⟩ | ⟨-, hstate⟩
    · exact (Except.ok.inj hm).symm
    · exact hstate

/-- A write of one tenant. -/
theorem setTenant_cases {tenantId : String} {f : TenantState → TenantState}
    {r : Except String Unit}
    (h : mutateState c fault (fun state => pure (state.setTenant tenantId f)) state = (r, state')) :
    (r = .ok () ∧ state' = state.setTenant tenantId f) ∨ (∃ error, r = .error error) ∧ state' = state := by
  rcases mutateState_cases h with ⟨hr, -, hm, -⟩ | hfail
  · exact .inl ⟨hr, (Except.ok.inj hm).symm⟩
  · exact .inr hfail

theorem setTenant_operations {tenantId : String} {f : TenantState → TenantState}
    {r : Except String Unit}
    (h : mutateState c fault (fun state => pure (state.setTenant tenantId f)) state = (r, state')) :
    state'.operations = state.operations := by
  rcases setTenant_cases h with ⟨-, rfl⟩ | ⟨-, rfl⟩ <;> rfl

/-- What is done under the lock: nothing but pruning before it fails or finds the operation of
its key, and a new pending operation at the end. -/
theorem recordOperation_cases {faults : RecordFaults} {request : Request} {operationId : String}
    {r : Except String Bool} (hn : Distinct state.operations)
    (hnew : state.find operationId = none)
    (h : recordOperation c faults request operationId now state = (r, state')) :
    state'.tenants = state.tenants ∧
      (r ≠ .ok true ∧ Frame none state state' ∨
        r = .ok true ∧ Frame (some operationId) state state' ∧
          state'.find operationId = some (request.operation operationId now)) := by
  unfold recordOperation at h
  rw [Prog.run_bind_ok (Prog.run_get state)] at h
  by_cases hkey : request.idempotencyKey.isSome ∧ state.operations.any request.matches
  · rw [if_pos hkey] at h
    obtain ⟨rfl, rfl⟩ := Prod.mk.inj h
    exact ⟨rfl, .inl ⟨by simp, Frame.of_eq hn rfl⟩⟩
  rw [if_neg hkey] at h
  have hcapacity : ∀ {r : Except String Unit} {state₁},
      ensureOperationCapacity c faults.prune request.tenantId state = (r, state₁) →
      state₁.tenants = state.tenants ∧ Pruned state.operations state₁.operations := by
    intro r state₁ hrun
    unfold ensureOperationCapacity at hrun
    rw [Prog.run_bind_ok (Prog.run_get state)] at hrun
    by_cases hroom : state.operations.length < c.maxOperations
    · rw [if_pos hroom] at hrun
      obtain ⟨-, rfl⟩ := Prod.mk.inj hrun
      exact ⟨rfl, Pruned.refl _⟩
    rw [if_neg hroom] at hrun
    by_cases hall : state.operations.all fun operation => !operation.status.completed
    · rw [if_pos hall] at hrun
      obtain ⟨-, rfl⟩ := Prod.mk.inj hrun
      exact ⟨rfl, Pruned.refl _⟩
    rw [if_neg hall] at hrun
    rcases mutateState_cases hrun with ⟨-, -, hm, -⟩ | ⟨-, rfl⟩
    · obtain rfl := Except.ok.inj hm
      exact ⟨rfl, pruned_pruneOperations hn _ _⟩
    · exact ⟨rfl, Pruned.refl _⟩
  rcases hcap : ensureOperationCapacity c faults.prune request.tenantId state with ⟨e | u, state₁⟩
  · rw [Prog.run_bind_error hcap] at h
    obtain ⟨rfl, rfl⟩ := Prod.mk.inj h
    obtain ⟨htenants, hpruned⟩ := hcapacity hcap
    exact ⟨htenants, .inl ⟨by simp, hpruned.frame hn⟩⟩
  obtain ⟨htenants, hpruned⟩ := hcapacity hcap
  rw [Prog.run_bind_ok hcap] at h
  rcases haudit : auditAction c faults.append faults.audit state₁ with ⟨e | u, state₂⟩
  · obtain rfl := auditAction_cases haudit
    rw [Prog.run_bind_error haudit] at h
    obtain ⟨rfl, rfl⟩ := Prod.mk.inj h
    exact ⟨htenants, .inl ⟨by simp, hpruned.frame hn⟩⟩
  obtain rfl := auditAction_cases haudit
  rw [Prog.run_bind_ok haudit] at h
  rcases hrecord : mutateState c faults.record (fun state => pure { state with
      operations := state.operations ++ [request.operation operationId now] }) state₂ with ⟨e | u, state₃⟩
  · rw [Prog.run_bind_error hrecord] at h
    obtain ⟨rfl, rfl⟩ := Prod.mk.inj h
    rcases mutateState_cases hrecord with ⟨hr, -⟩ | ⟨-, rfl⟩
    · cases hr
    · exact ⟨htenants, .inl ⟨by simp, hpruned.frame hn⟩⟩
  rw [Prog.run_bind_ok hrecord] at h
  obtain ⟨rfl, rfl⟩ := Prod.mk.inj h
  rcases mutateState_cases hrecord with ⟨-, -, hm, -⟩ | ⟨⟨_, hr⟩, -⟩
  swap
  · cases hr
  obtain rfl := Except.ok.inj hm
  have hn₂ := hpruned.distinct hn
  have hfresh : ∀ operation ∈ state₂.operations, operation.operationId ≠ operationId := by
    rintro operation hmem rfl
    rw [ControlState.find_of_mem hn (hpruned.sublist.subset hmem)] at hnew
    cases hnew
  have hn₃ : Distinct (state₂.operations ++ [request.operation operationId now]) := by
    rw [Distinct, List.map_append, List.nodup_append]
    refine ⟨hn₂, List.nodup_singleton _, ?_⟩
    intro id hid id' hid'
    obtain ⟨operation, hmem, rfl⟩ := List.mem_map.mp hid
    rw [List.map_singleton, List.mem_singleton] at hid'
    rw [hid']
    exact hfresh operation hmem
  have hframe : Frame (some operationId) state₂ { state₂ with
      operations := state₂.operations ++ [request.operation operationId now] } := by
    refine ⟨hn₃, fun hop _ _ => ?_, fun hop hid => ?_⟩
    · obtain ⟨hmem, rfl⟩ := ControlState.find_eq_some hop
      exact @ControlState.find_of_mem { state₂ with
        operations := state₂.operations ++ [request.operation operationId now] } hn₃ _
        (List.mem_append_left _ hmem)
    · obtain ⟨hmem, rfl⟩ := ControlState.find_eq_some hop
      rcases List.mem_append.mp hmem with hmem | hmem
      · exact ControlState.find_of_mem hn₂ hmem
      · rw [List.mem_singleton.mp hmem] at hid
        exact (hid rfl).elim
  refine ⟨htenants, .inr ⟨rfl, (hpruned.frame hn).widen.trans hframe, ?_⟩⟩
  exact @ControlState.find_of_mem { state₂ with
    operations := state₂.operations ++ [request.operation operationId now] } hn₃ _
        (List.mem_append_right _ (List.mem_singleton_self _))

/-! ## What waits for the worker -/

def ControlState.status (state : ControlState) (id : String) : Option OperationStatus :=
  (state.find id).map Operation.status

/-- An operation that a call has still to queue, or could not queue. -/
def Call.held (call : Call) : Option String :=
  match call.place with
  | .puts operationId | .overflowed operationId => some operationId
  | _ => none

/-- The operations that the worker has still to be given. -/
def Process.awaiting (p : Process) : List String :=
  p.queue ++ (p.requeues ++ p.calls.filterMap Call.held)

namespace WorkerPlace

def operation : WorkerPlace → Option Operation
  | .idle | .dead => none
  | .taken operation | .starts operation | .writes operation | .lists operation _
  | .withdraws operation _ _ | .trims operation _ | .replaced operation | .drilled operation
  | .clears operation _ | .sweeps operation _ | .erases operation | .returned operation
  | .audits operation | .suspends operation _ | .fails operation _ | .reports operation _ =>
    some operation

/-- The status that the operation of a place has, if it is still listed. -/
def expects : WorkerPlace → Option OperationStatus → Prop
  | .idle | .dead | .reports _ _ => fun _ => True
  | .taken _ => fun status => status = some .pending
  | .audits _ => fun status => status = some .succeeded ∨ status = none
  | .suspends _ _ | .fails _ _ => fun status => status ≠ some .failed
  | .starts _ | .writes _ | .lists _ _ | .withdraws _ _ _ | .trims _ _ | .replaced _ | .drilled _
  | .clears _ _ | .sweeps _ _ | .erases _ | .returned _ => fun status => status = some .running

end WorkerPlace

/-- The record of the operation is about the same as the worker's copy. -/
def Copied (state : ControlState) (operation : Operation) : Prop :=
  ∀ record, state.find operation.operationId = some record →
    record.kind = operation.kind ∧ record.tenantId = operation.tenantId

/-- An operation that waits is pending and waits once, and the worker's own is none of them. -/
structure Placed (state : ControlState) (p : Process) : Prop where
  nodup : p.awaiting.Nodup
  pending : ∀ id ∈ p.awaiting, state.status id = some .pending
  apart : ∀ operation, p.worker.operation = some operation → operation.operationId ∉ p.awaiting
  copied : ∀ operation, p.worker.operation = some operation → Copied state operation
  expects : ∀ operation, p.worker.operation = some operation →
    p.worker.expects (state.status operation.operationId)

/-- One of the tokens that were given. -/
def Drawn (c : Settings) (tokens : ℕ) (id : String) : Prop := ∃ n < tokens, id = c.tokenHex n

/-- The invariant of the operations. -/
structure Ordered (c : Settings) (state : ControlState) (process : Option Process) (tokens : ℕ) :
    Prop where
  distinct : Distinct state.operations
  drawn : ∀ id, state.find id ≠ none → Drawn c tokens id
  own : ∀ p operation, process = some p → p.worker.operation = some operation →
    Drawn c tokens operation.operationId
  placed : ∀ p, process = some p → Placed state p

/-- The arrows that the status of an operation moves along; `none` is an operation that is not
listed. -/
inductive Moves : Option OperationStatus → Option OperationStatus → Prop
  | stays (status : Option OperationStatus) : Moves status status
  | recorded : Moves none (some .pending)
  | starts : Moves (some .pending) (some .running)
  | succeeds : Moves (some .running) (some .succeeded)
  | fails {status : OperationStatus} : status ≠ .failed → Moves (some status) (some .failed)
  | requeued : Moves (some .running) (some .pending)
  | forgotten {status : OperationStatus} : status.completed = true → Moves (some status) none

theorem ControlState.status_eq_some {id : String} {status : OperationStatus} :
    state.status id = some status ↔
      ∃ operation, state.find id = some operation ∧ operation.status = status := by
  simp [ControlState.status]

theorem Frame.status_cases {touched : Option String} (h : Frame touched state state') {id : String}
    (hid : some id ≠ touched) : state'.status id = state.status id ∨
      state'.status id = none ∧ ∃ status, state.status id = some status ∧ status.completed = true := by
  unfold ControlState.status
  cases hfind : state'.find id with
  | some operation => exact .inl (by rw [h.old hfind hid])
  | none =>
    cases hbefore : state.find id with
    | none => exact .inl rfl
    | some operation =>
      cases hstatus : operation.status.completed with
      | true => exact .inr ⟨rfl, _, rfl, hstatus⟩
      | false =>
        rw [h.kept hbefore hid hstatus] at hfind
        cases hfind

theorem Frame.moves {touched : Option String} (h : Frame touched state state') {id : String}
    (hid : some id ≠ touched) : Moves (state.status id) (state'.status id) := by
  rcases h.status_cases hid with heq | ⟨hnone, status, hstatus, hcompleted⟩
  · rw [heq]
    exact .stays _
  · rw [hnone, hstatus]
    exact .forgotten hcompleted

theorem Frame.pending {touched : Option String} (h : Frame touched state state') {id : String}
    (hid : some id ≠ touched) (hpending : state.status id = some .pending) :
    state'.status id = some .pending := by
  rcases h.status_cases hid with heq | ⟨-, status, hstatus, hcompleted⟩
  · rw [heq, hpending]
  · rw [hpending] at hstatus
    obtain rfl := Option.some.inj hstatus
    cases hcompleted

theorem Frame.expects {touched : Option String} (h : Frame touched state state') {id : String}
    (hid : some id ≠ touched) {place : WorkerPlace} (hplace : place.expects (state.status id)) :
    place.expects (state'.status id) := by
  rcases h.status_cases hid with heq | ⟨hnone, status, hstatus, hcompleted⟩
  · rwa [heq]
  rw [hstatus] at hplace
  rw [hnone]
  cases place <;> simp_all [WorkerPlace.expects, OperationStatus.completed]

theorem Frame.copied {touched : Option String} (h : Frame touched state state')
    {operation : Operation} (hid : some operation.operationId ≠ touched)
    (hcopied : Copied state operation) : Copied state' operation :=
  fun record hrecord => hcopied record (h.old hrecord hid)

theorem Drawn.mono {tokens tokens' : ℕ} {id : String} (h : Drawn c tokens id)
    (hle : tokens ≤ tokens') : Drawn c tokens' id := by
  obtain ⟨n, hn, rfl⟩ := h
  exact ⟨n, by omega, rfl⟩

theorem not_drawn (c : Settings) (tokens : ℕ) : ¬Drawn c tokens (c.tokenHex tokens) := by
  rintro ⟨n, hn, heq⟩
  have := c.tokenHex_injective heq
  omega

theorem Frame.drawn {touched : Option String} (h : Frame touched state state') {tokens : ℕ}
    (htouched : ∀ id, touched = some id → Drawn c tokens id)
    (hdrawn : ∀ id, state.find id ≠ none → Drawn c tokens id) :
    ∀ id, state'.find id ≠ none → Drawn c tokens id := by
  intro id hfind
  by_cases hid : some id = touched
  · exact htouched id hid.symm
  · obtain ⟨operation, hop⟩ := Option.ne_none_iff_exists'.mp hfind
    exact hdrawn id (by rw [h.old hop hid]; simp)

theorem Ordered.fresh {tokens : ℕ} {process : Option Process} (h : Ordered c state process tokens) :
    state.find (c.tokenHex tokens) = none := by
  by_contra hfind
  exact not_drawn c tokens (h.drawn _ hfind)

/-- Writes of the worker: they touch its own operation at most. -/
theorem Placed.work {touched : Option String} (h : Placed state p) (hframe : Frame touched state state')
    (htouched : ∀ id, touched = some id → ∃ operation, p.worker.operation = some operation ∧
      operation.operationId = id)
    {q : Process} (hq : q.awaiting = p.awaiting)
    (hsame : ∀ operation, q.worker.operation = some operation →
      p.worker.operation = some operation ∧ Copied state' operation ∧
        q.worker.expects (state'.status operation.operationId)) : Placed state' q := by
  refine ⟨hq ▸ h.nodup, fun id hid => ?_, fun operation hop => ?_, fun operation hop => ?_,
    fun operation hop => ?_⟩
  · rw [hq] at hid
    refine hframe.pending (fun heq => ?_) (h.pending id hid)
    obtain ⟨operation, hop, rfl⟩ := htouched id heq.symm
    exact h.apart operation hop hid
  · rw [hq]
    exact h.apart operation (hsame operation hop).1
  · exact (hsame operation hop).2.1
  · exact (hsame operation hop).2.2

/-- Writes of the others leave the worker's operation alone. -/
theorem Placed.frame {touched : Option String} (h : Placed state p) (hframe : Frame touched state state')
    {q : Process} (hworker : q.worker = p.worker)
    (htouched : ∀ operation, p.worker.operation = some operation →
      some operation.operationId ≠ touched)
    (hnodup : q.awaiting.Nodup) (hpending : ∀ id ∈ q.awaiting, state'.status id = some .pending)
    (hapart : ∀ operation, p.worker.operation = some operation → operation.operationId ∉ q.awaiting) :
    Placed state' q := by
  refine ⟨hnodup, hpending, fun operation hop => ?_, fun operation hop => ?_,
    fun operation hop => ?_⟩
  · rw [hworker] at hop
    exact hapart operation hop
  · rw [hworker] at hop
    exact hframe.copied (htouched operation hop) (h.copied operation hop)
  · rw [hworker] at hop ⊢
    exact hframe.expects (htouched operation hop) (h.expects operation hop)

/-- A step keeps the invariant and moves statuses along the arrows. -/
structure Moved (c : Settings) (s s' : ControlPlane) : Prop where
  ordered : Ordered c s'.state s'.process s'.tokens
  moves : ∀ id, Moves (s.state.status id) (s'.state.status id)
  tokens_le : s.tokens ≤ s'.tokens
  new : ∀ id, s.state.find id = none → s'.state.find id ≠ none → ¬Drawn c s.tokens id

theorem Moved.refl (hs : Ordered c s.state s.process s.tokens) : Moved c s s :=
  ⟨hs, fun _ => .stays _, le_rfl, fun _ h h' => (h' h).elim⟩

theorem Frame.new {touched : Option String} (h : Frame touched state state') {id : String}
    (hid : some id ≠ touched) (hnone : state.find id = none) : state'.find id = none := by
  by_contra hfind
  obtain ⟨operation, hop⟩ := Option.ne_none_iff_exists'.mp hfind
  rw [h.old hop hid] at hnone
  cases hnone

section Worker

variable (hs : Ordered c s.state s.process s.tokens) (hp : s.process = some p)
include hs hp

/-- The worker goes on with its operation, of which it may have written the status. -/
theorem Moved.goto (s' : ControlPlane) {touched : Option String}
    (hframe : Frame touched s.state s'.state)
    (htouched : ∀ id, touched = some id → s.state.find id ≠ none ∧
      Moves (s.state.status id) (s'.state.status id) ∧
      ∃ operation, p.worker.operation = some operation ∧ operation.operationId = id)
    (htokens : s.tokens ≤ s'.tokens) {q : Process} (hq : q.awaiting = p.awaiting)
    {place : WorkerPlace}
    (hsame : ∀ operation, place.operation = some operation →
      p.worker.operation = some operation ∧ Copied s'.state operation ∧
        place.expects (s'.state.status operation.operationId)) :
    Moved c s (s'.goto q place) := by
  refine ⟨⟨hframe.distinct, ?_, fun p' operation hp' hop => ?_, fun p' hp' => ?_⟩, fun id => ?_,
    htokens, fun id hnone hfound => ?_⟩
  · exact hframe.drawn (fun id h => (hs.drawn id (htouched id h).1).mono htokens)
      fun id h => (hs.drawn id h).mono htokens
  · obtain rfl := Option.some.inj hp'
    exact (hs.own p operation hp (hsame operation hop).1).mono htokens
  · obtain rfl := Option.some.inj hp'
    exact (hs.placed p hp).work hframe (fun id h => (htouched id h).2.2) hq hsame
  · by_cases hid : some id = touched
    · exact (htouched id hid.symm).2.1
    · exact hframe.moves hid
  · by_cases hid : some id = touched
    · exact ((htouched id hid.symm).1 hnone).elim
    · exact (hfound (hframe.new hid hnone)).elim

/-- The operations stay as they are. -/
theorem Moved.goto_same (s' : ControlPlane) (hstate : s'.state.operations = s.state.operations)
    (htokens : s.tokens ≤ s'.tokens) {q : Process} (hq : q.awaiting = p.awaiting)
    {place : WorkerPlace}
    (hsame : ∀ operation, place.operation = some operation →
      p.worker.operation = some operation ∧ ∀ status, p.worker.expects status → place.expects status) :
    Moved c s (s'.goto q place) := by
  have hfind : ∀ id, s'.state.find id = s.state.find id := fun id => by
    unfold ControlState.find
    rw [hstate]
  have hstatus : ∀ id, s'.state.status id = s.state.status id := fun id => by
    unfold ControlState.status
    rw [hfind]
  refine Moved.goto hs hp s' (Frame.of_eq hs.distinct hstate) (fun id h => by cases h) htokens hq
    fun operation hop => ?_
  obtain ⟨hown, hexpects⟩ := hsame operation hop
  refine ⟨hown, fun record hrecord => ?_, ?_⟩
  · rw [hfind] at hrecord
    exact (hs.placed p hp).copied operation hown record hrecord
  · rw [hstatus]
    exact hexpects _ ((hs.placed p hp).expects operation hown)

theorem Moved.attempt {q : Process} (hq : q.awaiting = p.awaiting)
    {write : Prog ControlState String Unit} {next : WorkerPlace} {handler : String → WorkerPlace}
    (hwrite : ∀ r state', write s.state = (r, state') → state'.operations = s.state.operations)
    (hnext : ∀ operation, next.operation = some operation →
      p.worker.operation = some operation ∧ ∀ status, p.worker.expects status → next.expects status)
    (hhandler : ∀ error operation, (handler error).operation = some operation →
      p.worker.operation = some operation ∧
        ∀ status, p.worker.expects status → (handler error).expects status) :
    Moved c s (s.attempt q write next handler) := by
  unfold ControlPlane.attempt
  split
  · next u state' h =>
    exact Moved.goto_same hs hp { s with state := state' } (hwrite _ _ h) le_rfl hq hnext
  · next error state' h =>
    exact Moved.goto_same hs hp { s with state := state' } (hwrite _ _ h) le_rfl hq
      (hhandler error)

/-- The worker writes the status of its operation. -/
theorem Moved.update {operation : Operation} (hown : p.worker.operation = some operation)
    {status : OperationStatus} {error : Option String} {next : WorkerPlace}
    {handler : String → WorkerPlace}
    (hmoves : ∀ before, p.worker.expects (some before) → Moves (some before) (some status))
    (hnext : ∀ other, next.operation = some other → other = operation ∧ next.expects (some status))
    (hhandler : ∀ error other, (handler error).operation = some other →
      other = operation ∧ ∀ status, p.worker.expects status → (handler error).expects status) :
    Moved c s (s.attempt p
      (updateOperation c fault now operation.operationId status error) next handler) := by
  unfold ControlPlane.attempt
  split
  · next u state' h =>
    rcases updateOperation_cases hs.distinct h with ⟨-, hframe, -, record, hbefore, hafter⟩ | ⟨⟨_, hr⟩, -⟩
    swap
    · cases hr
    have hplaced := hs.placed p hp
    have hstatus : s.state.status operation.operationId = some record.status := by
      simp [ControlState.status, hbefore]
    have hstatus' : state'.status operation.operationId = some status := by
      simp [ControlState.status, hafter, Operation.updated]
    refine Moved.goto hs hp { s with state := state' } hframe (fun id hid => ?_) le_rfl rfl
      fun other hother => ?_
    · obtain rfl := Option.some.inj hid
      refine ⟨by simp [hbefore], ?_, operation, hown, rfl⟩
      show Moves _ (state'.status operation.operationId)
      rw [hstatus, hstatus']
      have hexpects := hplaced.expects operation hown
      rw [hstatus] at hexpects
      exact hmoves _ hexpects
    · obtain ⟨rfl, hexpects⟩ := hnext other hother
      refine ⟨hown, fun after h => ?_, ?_⟩
      · obtain rfl := Option.some.inj (hafter.symm.trans h)
        exact hplaced.copied other hown record hbefore
      · show next.expects (state'.status other.operationId)
        rwa [hstatus']
  · next error state' h =>
    rcases updateOperation_cases hs.distinct h with ⟨hr, -⟩ | ⟨-, rfl⟩
    · cases hr
    refine Moved.goto_same hs hp s rfl le_rfl rfl fun other hother => ?_
    obtain ⟨rfl, hexpects⟩ := hhandler error other hother
    exact ⟨hown, hexpects⟩

end Worker

theorem raised_operation (operation : Operation) (error : String) :
    (ControlPlane.raised operation error).operation = some operation := by
  unfold ControlPlane.raised
  split_ifs <;> rfl

theorem raised_expects {operation : Operation} {error : String} {status : Option OperationStatus}
    (h : status ≠ some .failed) : (ControlPlane.raised operation error).expects status := by
  unfold ControlPlane.raised
  split_ifs <;> exact h

/-- A handler only writes about tenants. -/
theorem setTenant_write {tenantId : String} {f : TenantState → TenantState}
    (r : Except String Unit) (state' : ControlState)
    (h : mutateState c fault (fun state => pure (state.setTenant tenantId f)) state = (r, state')) :
    state'.operations = state.operations :=
  setTenant_operations h

theorem startPlace_cases (s : ControlPlane) (operation : Operation) (fault : Option String) :
    (s.startPlace operation fault).operation = some operation ∧
      ((s.startPlace operation fault).expects = (fun status => status = some .running) ∨
        ∃ error, s.startPlace operation fault = ControlPlane.raised operation error) := by
  have hraised : ∀ error, (ControlPlane.raised operation error).operation = some operation :=
    raised_operation operation
  unfold ControlPlane.startPlace
  cases operation.kind <;> dsimp only
  all_goals
    cases fault <;> dsimp only <;> split_ifs
  all_goals
    first
    | exact ⟨rfl, .inl rfl⟩
    | exact ⟨hraised _, .inr ⟨_, rfl⟩⟩

section Worker

variable (hs : Ordered c s.state s.process s.tokens) (hp : s.process = some p)
include hs hp

/-- The handler of the operation goes on or raises. -/
theorem Moved.handler {operation : Operation} (hown : p.worker.operation = some operation)
    (hrunning : ∀ status, p.worker.expects status → status = some .running) (s' : ControlPlane)
    (hstate : s'.state.operations = s.state.operations) (htokens : s.tokens ≤ s'.tokens)
    {q : Process} (hq : q.awaiting = p.awaiting) {place : WorkerPlace}
    (hplace : place.operation = some operation)
    (hexpects : place.expects (some .running)) : Moved c s (s'.goto q place) := by
  refine Moved.goto_same hs hp s' hstate htokens hq fun other hother => ?_
  rw [hplace] at hother
  obtain rfl := Option.some.inj hother
  refine ⟨hown, fun status hstatus => ?_⟩
  rw [hrunning status hstatus]
  exact hexpects

theorem Moved.removeNext {operation : Operation} (hown : p.worker.operation = some operation)
    (hrunning : ∀ status, p.worker.expects status → status = some .running)
    {names : List ArtifactName} {place : Operation → List ArtifactName → WorkerPlace}
    {next : WorkerPlace} (hplace : ∀ rest, (place operation rest).operation = some operation ∧
      (place operation rest).expects (some .running))
    (hnext : next.operation = some operation ∧ next.expects (some .running)) :
    Moved c s (s.removeNext p operation fault names place next) := by
  unfold ControlPlane.removeNext
  split
  · exact Moved.handler hs hp hown hrunning s rfl le_rfl rfl hnext.1 hnext.2
  · exact Moved.handler hs hp hown hrunning s rfl le_rfl rfl (raised_operation _ _)
      (raised_expects (by simp))
  · next name rest =>
    exact Moved.handler hs hp hown hrunning (s.remove name) rfl le_rfl rfl (hplace rest).1
      (hplace rest).2

theorem Moved.start {operation : Operation} (hworker : p.worker = .starts operation) :
    Moved c s (s.start p operation fault) := by
  have hown : p.worker.operation = some operation := by rw [hworker]; rfl
  have hrunning : ∀ status, p.worker.expects status → status = some .running := by
    rw [hworker]
    exact fun _ h => h
  obtain ⟨hplace, hexpects⟩ := startPlace_cases s operation fault
  have hstart : (s.startPlace operation fault).expects (some .running) := by
    rcases hexpects with h | ⟨error, h⟩
    · rw [h]
    · rw [h]
      exact raised_expects (by simp)
  unfold ControlPlane.start
  split
  · next other heq =>
    rw [heq] at hplace hstart
    obtain rfl := Option.some.inj hplace
    exact Moved.handler hs hp hown hrunning (s.log other) rfl le_rfl rfl rfl hstart
  · exact Moved.handler hs hp hown hrunning s rfl le_rfl rfl hplace hstart

/-- The next operation of the queue is taken. -/
theorem Moved.take (hidle : p.worker = .idle) : Moved c s (s.take p) := by
  have hplaced := hs.placed p hp
  unfold ControlPlane.take
  split
  · exact .refl hs
  next operationId rest hqueue =>
  have hawaiting : p.awaiting = operationId :: { p with queue := rest }.awaiting := by
    simp [Process.awaiting, hqueue]
  have hnodup := hplaced.nodup
  rw [hawaiting] at hnodup
  obtain ⟨hnew, hrest⟩ := List.nodup_cons.mp hnodup
  have hpending : ∀ id ∈ { p with queue := rest }.awaiting, s.state.status id = some .pending :=
    fun id hid => hplaced.pending id (by rw [hawaiting]; exact List.mem_cons_of_mem _ hid)
  have hnone : ∀ operation, p.worker.operation ≠ some operation := by
    rw [hidle]
    exact fun operation h => by cases h
  split
  · refine ⟨⟨hs.distinct, hs.drawn, fun p' operation hp' hop => ?_, fun p' hp' => ?_⟩,
      fun id => .stays _, le_rfl, fun _ h h' => (h' h).elim⟩
    · obtain rfl := Option.some.inj hp'
      exact (hnone operation hop).elim
    obtain rfl := Option.some.inj hp'
    exact ⟨hrest, hpending, fun operation hop => (hnone operation hop).elim,
      fun operation hop => (hnone operation hop).elim, fun operation hop => (hnone operation hop).elim⟩
  · next operation hfind =>
    obtain ⟨hmem, hid⟩ := ControlState.find_eq_some hfind
    refine ⟨⟨hs.distinct, hs.drawn, fun p' other hp' hother => ?_, fun p' hp' => ?_⟩,
      fun id => .stays _, le_rfl, fun _ h h' => (h' h).elim⟩
    · obtain rfl := Option.some.inj hp'
      obtain rfl := Option.some.inj hother
      refine hs.drawn _ ?_
      rw [hid, hfind]
      simp
    obtain rfl := Option.some.inj hp'
    refine ⟨hrest, hpending, fun other hother => ?_, fun other hother record hrecord => ?_,
      fun other hother => ?_⟩
    · obtain rfl := Option.some.inj hother
      rw [hid]
      exact hnew
    · obtain rfl := Option.some.inj hother
      change s.state.find operation.operationId = some record at hrecord
      rw [hid, hfind] at hrecord
      obtain rfl := Option.some.inj hrecord
      exact ⟨rfl, rfl⟩
    · obtain rfl := Option.some.inj hother
      rw [hid]
      exact hplaced.pending operationId (by rw [hawaiting]; exact List.mem_cons_self)

/-- A step of the worker. -/
theorem Moved.work : Moved c s (s.work c p fault now) := by
  have hraise : ∀ {operation : Operation}, p.worker.operation = some operation →
      (∀ status, p.worker.expects status → status ≠ some .failed) → ∀ error other,
      (ControlPlane.raised operation error).operation = some other →
      p.worker.operation = some other ∧ ∀ status, p.worker.expects status →
        (ControlPlane.raised operation error).expects status := by
    intro operation hown hfailed error other hother
    rw [raised_operation] at hother
    obtain rfl := Option.some.inj hother
    exact ⟨hown, fun status h => raised_expects (hfailed status h)⟩
  unfold ControlPlane.work
  split
  · next hworker => exact Moved.take hs hp hworker
  · next operation hworker =>
    refine Moved.update hs hp (by rw [hworker]; rfl) (fun before hbefore => ?_) (fun other hother => ?_)
      fun error other hother => ?_
    · rw [hworker] at hbefore
      obtain rfl := Option.some.inj hbefore
      exact .starts
    · exact ⟨(Option.some.inj hother).symm, rfl⟩
    · rw [raised_operation] at hother
      obtain rfl := Option.some.inj hother
      refine ⟨rfl, fun status hstatus => raised_expects ?_⟩
      rw [hworker] at hstatus
      rw [show status = some .pending from hstatus]
      simp
  · next operation hworker => exact Moved.start hs hp hworker
  · next operation hworker =>
    have hown : p.worker.operation = some operation := by rw [hworker]; rfl
    have hrunning : ∀ status, p.worker.expects status → status = some .running := by
      rw [hworker]
      exact fun _ h => h
    unfold ControlPlane.write
    split
    · exact Moved.handler hs hp hown hrunning ({ s with
        files := s.files.set (_, c.tokenHex s.tokens) (c.namespaceFor operation.tenantId)
        tokens := s.tokens + 1 }) rfl (Nat.le_succ _) rfl rfl rfl
    · exact Moved.handler hs hp hown hrunning s rfl le_rfl rfl (raised_operation _ _)
        (raised_expects (by simp))
  · next operation record hworker =>
    have hown : p.worker.operation = some operation := by rw [hworker]; rfl
    have hrunning : ∀ status, p.worker.expects status → status = some .running := by
      rw [hworker]
      exact fun _ h => h
    unfold ControlPlane.list
    split
    · next u state' h =>
      exact Moved.handler hs hp hown hrunning (ControlPlane.log { s with state := state' } operation)
        (setTenant_operations h) le_rfl rfl rfl rfl
    · next error state' h =>
      exact Moved.handler hs hp hown hrunning { s with state := state' }
        (setTenant_operations h) le_rfl rfl rfl rfl
  · next operation record error hworker =>
    have hown : p.worker.operation = some operation := by rw [hworker]; rfl
    have hrunning : ∀ status, p.worker.expects status → status = some .running := by
      rw [hworker]
      exact fun _ h => h
    split
    · exact Moved.handler hs hp hown hrunning s rfl le_rfl rfl (raised_operation _ _)
        (raised_expects (by simp))
    · exact Moved.handler hs hp hown hrunning (s.remove record.name) rfl le_rfl rfl
        (raised_operation _ _) (raised_expects (by simp))
  · next operation names hworker =>
    exact Moved.removeNext hs hp (by rw [hworker]; rfl) (by rw [hworker]; exact fun _ h => h)
      (fun _ => ⟨rfl, rfl⟩) ⟨rfl, rfl⟩
  · next operation hworker =>
    have hown : p.worker.operation = some operation := by rw [hworker]; rfl
    refine Moved.attempt hs hp rfl setTenant_write (fun other hother => ?_)
      (hraise hown fun status h => ?_)
    · obtain rfl := Option.some.inj hother
      rw [hworker]
      exact ⟨rfl, fun _ h => h⟩
    · rw [hworker] at h
      rw [show status = some .running from h]
      simp
  · next operation hworker =>
    have hown : p.worker.operation = some operation := by rw [hworker]; rfl
    have hrunning : ∀ status, p.worker.expects status → status = some .running := by
      rw [hworker]
      exact fun _ h => h
    split
    · next u state' h =>
      exact Moved.handler hs hp hown hrunning (ControlPlane.log { s with state := state' } operation)
        (setTenant_operations h) le_rfl rfl rfl rfl
    · next error state' h =>
      exact Moved.handler hs hp hown hrunning { s with state := state' }
        (setTenant_operations h) le_rfl rfl (raised_operation _ _) (raised_expects (by simp))
  · next operation names hworker =>
    exact Moved.removeNext hs hp (by rw [hworker]; rfl) (by rw [hworker]; exact fun _ h => h)
      (fun _ => ⟨rfl, rfl⟩) ⟨rfl, rfl⟩
  · next operation names hworker =>
    have hown : p.worker.operation = some operation := by rw [hworker]; rfl
    have hrunning : ∀ status, p.worker.expects status → status = some .running := by
      rw [hworker]
      exact fun _ h => h
    unfold ControlPlane.sweep
    split
    · exact Moved.handler hs hp hown hrunning s rfl le_rfl rfl rfl rfl
    · exact Moved.handler hs hp hown hrunning s rfl le_rfl rfl (raised_operation _ _)
        (raised_expects (by simp))
    · next name rest =>
      split
      · exact Moved.handler hs hp hown hrunning s rfl le_rfl rfl (raised_operation _ _)
          (raised_expects (by simp))
      · split_ifs
        · exact Moved.handler hs hp hown hrunning (s.remove name) rfl le_rfl rfl rfl rfl
        · exact Moved.handler hs hp hown hrunning s rfl le_rfl rfl rfl rfl
  · next operation hworker =>
    have hown : p.worker.operation = some operation := by rw [hworker]; rfl
    have hrunning : ∀ status, p.worker.expects status → status = some .running := by
      rw [hworker]
      exact fun _ h => h
    split
    · next u state' h =>
      exact Moved.handler hs hp hown hrunning (ControlPlane.log { s with state := state' } operation)
        (q := ControlPlane.refuse p operation.tenantId) (setTenant_operations h) le_rfl rfl rfl rfl
    · next error state' h =>
      exact Moved.handler hs hp hown hrunning { s with state := state' }
        (setTenant_operations h) le_rfl rfl (raised_operation _ _) (raised_expects (by simp))
  · next operation hworker =>
    refine Moved.update hs hp (by rw [hworker]; rfl) (fun before hbefore => ?_) (fun other hother => ?_)
      fun error other hother => ?_
    · rw [hworker] at hbefore
      obtain rfl := Option.some.inj hbefore
      exact .succeeds
    · exact ⟨(Option.some.inj hother).symm, .inl rfl⟩
    · rw [raised_operation] at hother
      obtain rfl := Option.some.inj hother
      refine ⟨rfl, fun status hstatus => raised_expects ?_⟩
      rw [hworker] at hstatus
      rw [show status = some .running from hstatus]
      simp
  · next operation hworker =>
    have hown : p.worker.operation = some operation := by rw [hworker]; rfl
    refine Moved.attempt hs hp rfl (fun r state' h => by rw [auditAction_cases h])
      (fun other hother => by cases hother) (hraise hown fun status h => ?_)
    rw [hworker] at h
    rcases h with rfl | rfl <;> simp
  · next operation error hworker =>
    have hown : p.worker.operation = some operation := by rw [hworker]; rfl
    refine Moved.attempt hs hp (q := ControlPlane.refuse p operation.tenantId) rfl setTenant_write
      (fun other hother => ?_) fun error' other hother => ?_
    · obtain rfl := Option.some.inj hother
      rw [hworker]
      exact ⟨rfl, fun _ h => h⟩
    · cases hother
  · next operation error hworker =>
    refine Moved.update hs hp (by rw [hworker]; rfl) (fun before hbefore => ?_) (fun other hother => ?_)
      fun error other hother => ?_
    · rw [hworker] at hbefore
      exact .fails fun heq => hbefore (congrArg some heq)
    · exact ⟨(Option.some.inj hother).symm, trivial⟩
    · exact ⟨(Option.some.inj hother).symm, fun _ _ => trivial⟩
  · next operation survives hworker =>
    refine Moved.attempt hs hp rfl (fun r state' h => by rw [auditAction_cases h])
      (fun other hother => ?_) fun error other hother => ?_
    all_goals
      split_ifs at hother
      all_goals cases hother
  · exact .refl hs

end Worker

/-! ## Calls, retention and restarts -/

/-- What awaits the worker beside the call `i`. -/
def Process.others (p : Process) (i : ℕ) : List String :=
  p.queue ++ (p.requeues ++ (p.calls.eraseIdx i).filterMap Call.held)

theorem filterMap_held_perm {calls : List Call} {call : Call} {i : ℕ} (h : calls[i]? = some call) :
    (calls.filterMap Call.held).Perm
      (call.held.toList ++ (calls.eraseIdx i).filterMap Call.held) := by
  obtain ⟨hi, rfl⟩ := List.getElem?_eq_some_iff.mp h
  refine ((List.getElem_cons_eraseIdx_perm hi).symm.filterMap _).trans ?_
  cases hheld : calls[i].held <;> simp [hheld]

theorem perm_between (a b d e : List String) : (a ++ (b ++ (d ++ e))).Perm (d ++ (a ++ (b ++ e))) := by
  refine ((List.perm_append_comm_assoc b d e).append_left a).trans ?_
  exact List.perm_append_comm_assoc a d (b ++ e)

theorem Process.awaiting_perm {call : Call} {i : ℕ} (h : p.calls[i]? = some call) :
    p.awaiting.Perm (call.held.toList ++ p.others i) :=
  (((filterMap_held_perm h).append_left p.requeues).append_left p.queue).trans (perm_between _ _ _ _)

theorem Process.awaiting_setCall {call : Call} {i : ℕ} (h : p.calls[i]? = some call)
    (accepting : String → Bool) (call' : Call) :
    (Process.awaiting { p with calls := p.calls.set i call', accepting := accepting }).Perm
      (call'.held.toList ++ p.others i) := by
  have hset : (p.calls.set i call')[i]? = some call' := by
    obtain ⟨hi, -⟩ := List.getElem?_eq_some_iff.mp h
    rw [List.getElem?_set_self hi]
  have hperm := filterMap_held_perm hset
  rw [List.eraseIdx_set_eq] at hperm
  exact ((hperm.append_left p.requeues).append_left p.queue).trans (perm_between _ _ _ _)

theorem Moved.crash (hs : Ordered c s.state s.process s.tokens) :
    Moved c s { s with process := none } :=
  ⟨⟨hs.distinct, hs.drawn, fun p' _ hp' => (by cases hp'), fun p' hp' => (by cases hp')⟩,
    fun _ => .stays _, le_rfl, fun _ h h' => (h' h).elim⟩

section Calls

variable (hs : Ordered c s.state s.process s.tokens) (hp : s.process = some p)
include hs hp

/-- A step beside the worker: the operations in `ids` come to wait, and those in `others` keep
waiting. -/
theorem Moved.beside (s' : ControlPlane) {touched : Option String}
    (hframe : Frame touched s.state s'.state) (htokens : s.tokens ≤ s'.tokens) {others ids : List String}
    (hothers : others.Nodup ∧ ∀ id ∈ others, id ∈ p.awaiting)
    (htouched : ∀ id, touched = some id → Moves (s.state.status id) (s'.state.status id) ∧
      (s.state.find id = none → ¬Drawn c s.tokens id) ∧ Drawn c s'.tokens id ∧ id ∉ others ∧ ∀ operation, p.worker.operation = some operation → operation.operationId ≠ id)
    (hids : ids.Nodup ∧ ∀ id ∈ ids, s'.state.status id = some .pending ∧ id ∉ others ∧
      ∀ operation, p.worker.operation = some operation → operation.operationId ≠ id)
    {q : Process} (hprocess : s'.process = some q) (hworker : q.worker = p.worker)
    (hq : q.awaiting.Perm (ids ++ others)) : Moved c s s' := by
  have hplaced := hs.placed p hp
  refine ⟨⟨hframe.distinct, ?_, fun p' operation hp' hop => ?_, fun p' hp' => ?_⟩, fun id => ?_,
    htokens, fun id hnone hfound => ?_⟩
  · exact hframe.drawn (fun id h => (htouched id h).2.2.1) fun id h => (hs.drawn id h).mono htokens
  · rw [hprocess] at hp'
    obtain rfl := Option.some.inj hp'
    rw [hworker] at hop
    exact (hs.own p operation hp hop).mono htokens
  · rw [hprocess] at hp'
    obtain rfl := Option.some.inj hp'
    refine hplaced.frame hframe hworker (fun operation hop heq => ?_) ?_ (fun id hid => ?_)
      fun operation hop hid => ?_
    · exact (htouched _ heq.symm).2.2.2.2 operation hop rfl
    · refine hq.nodup_iff.mpr (List.nodup_append.mpr ⟨hids.1, hothers.1, ?_⟩)
      rintro id hid _ hother rfl
      exact (hids.2 id hid).2.1 hother
    · rcases List.mem_append.mp (hq.mem_iff.mp hid) with hid | hid
      · exact (hids.2 id hid).1
      · refine hframe.pending (fun heq => ?_) (hplaced.pending id (hothers.2 id hid))
        exact (htouched id heq.symm).2.2.2.1 hid
    · rcases List.mem_append.mp (hq.mem_iff.mp hid) with hid | hid
      · exact (hids.2 _ hid).2.2 operation hop rfl
      · exact hplaced.apart operation hop (hothers.2 _ hid)
  · by_cases hid : some id = touched
    · exact (htouched id hid.symm).1
    · exact hframe.moves hid
  · by_cases hid : some id = touched
    · exact (htouched id hid.symm).2.1 hnone
    · exact (hfound (hframe.new hid hnone)).elim

/-- What waits beside the worker stays. -/
theorem Moved.aside (s' : ControlPlane) (hframe : Frame none s.state s'.state)
    (htokens : s.tokens ≤ s'.tokens) {q : Process} (hprocess : s'.process = some q)
    (hworker : q.worker = p.worker) (hq : q.awaiting.Perm p.awaiting) : Moved c s s' := by
  have hplaced := hs.placed p hp
  exact Moved.beside hs hp s' hframe htokens ⟨hplaced.nodup, fun _ h => h⟩
    (fun id h => by cases h) ⟨List.nodup_nil, fun id h => by cases h⟩ hprocess hworker hq

theorem Moved.addCall (s' : ControlPlane) (hframe : Frame none s.state s'.state)
    (htokens : s.tokens ≤ s'.tokens) (r : Request) {q : Process} (hworker : q.worker = p.worker)
    (hq : q.awaiting = p.awaiting) : Moved c s (s'.addCall q r) := by
  refine Moved.aside hs hp _ hframe htokens rfl hworker ?_
  rw [← hq]
  have hnew : Call.held ⟨r, .admitted⟩ = none := rfl
  simp [Process.awaiting, hnew]

theorem Moved.request {r : Request} : Moved c s (s.request c p r fault) := by
  unfold ControlPlane.request
  by_cases hknown : r.tenantId ∉ c.tenantIds
  · rw [if_pos hknown]
    exact .refl hs
  rw [if_neg hknown]
  by_cases hkind : r.kind = .tenantDelete
  · rw [if_pos hkind]
    by_cases hactive : (s.state.tenants r.tenantId).status ≠ .active
    · rw [if_pos hactive]
      exact .refl hs
    rw [if_neg hactive]
    split
    · next u state' h =>
      exact Moved.addCall hs hp { s with state := state' }
        (Frame.of_eq hs.distinct (setTenant_operations h)) le_rfl r rfl rfl
    · next error state' h =>
      exact Moved.aside hs hp { s with state := state' }
        (Frame.of_eq hs.distinct (setTenant_operations h)) le_rfl hp rfl (List.Perm.refl _)
  · rw [if_neg hkind]
    split_ifs
    · exact .refl hs
    · exact Moved.addCall hs hp s (Frame.of_eq hs.distinct rfl) le_rfl r rfl rfl

theorem Moved.retain : Moved c s (s.retain c p fault now) := by
  unfold ControlPlane.retain
  split
  · next u state' h =>
    rcases mutateState_cases h with ⟨-, -, hm, -⟩ | ⟨⟨_, hr⟩, -⟩
    · obtain rfl := Except.ok.inj hm
      refine Moved.aside hs hp _ (Pruned.frame hs.distinct ?_) le_rfl rfl rfl (List.Perm.refl _)
      exact pruned_retainOperations _
    · cases hr
  · next error state' h =>
    rcases mutateState_cases h with ⟨hr, -⟩ | ⟨-, rfl⟩
    · cases hr
    · exact Moved.aside hs hp s (Frame.of_eq hs.distinct rfl) le_rfl hp rfl (List.Perm.refl _)

theorem Moved.removeRetained (i : ℕ) : Moved c s (s.removeRetained p i fault) := by
  unfold ControlPlane.removeRetained
  split
  · exact Moved.aside hs hp _ (Frame.of_eq hs.distinct rfl) le_rfl rfl rfl (List.Perm.refl _)
  · exact Moved.aside hs hp _ (Frame.of_eq hs.distinct rfl) le_rfl rfl rfl (List.Perm.refl _)

end Calls

theorem callRaised_held (call : Call) : (ControlPlane.callRaised call).held = none := by
  unfold ControlPlane.callRaised Call.held
  split_ifs <;> rfl

section Calls

variable (hs : Ordered c s.state s.process s.tokens) (hp : s.process = some p)
include hs hp

theorem Placed.others_sub {call : Call} {i : ℕ} (h : p.calls[i]? = some call) :
    (p.others i).Nodup ∧ ∀ id ∈ p.others i, id ∈ p.awaiting := by
  have hperm := Process.awaiting_perm h
  have hnodup := hperm.nodup_iff.mp (hs.placed p hp).nodup
  exact ⟨(List.nodup_append.mp hnodup).2.1, fun id hid =>
    hperm.mem_iff.mpr (List.mem_append_right _ hid)⟩

/-- The operation that a call holds waits beside no other and is not the worker's. -/
theorem Placed.held {call : Call} {i : ℕ} (h : p.calls[i]? = some call) {id : String}
    (hheld : call.held = some id) : s.state.status id = some .pending ∧ id ∉ p.others i ∧
      ∀ operation, p.worker.operation = some operation → operation.operationId ≠ id := by
  have hplaced := hs.placed p hp
  have hperm := Process.awaiting_perm h
  rw [hheld] at hperm
  have hmem : id ∈ p.awaiting := hperm.mem_iff.mpr (List.mem_append_left _ (by simp))
  have hnodup := hperm.nodup_iff.mp hplaced.nodup
  refine ⟨hplaced.pending id hmem, fun hid => ?_, fun operation hop heq => ?_⟩
  · exact (List.nodup_append.mp hnodup).2.2 id (by simp) id hid rfl
  · exact hplaced.apart operation hop (heq ▸ hmem)

/-- A call goes on without an operation to be queued. -/
theorem Moved.setCall {call call' : Call} {i : ℕ} (h : p.calls[i]? = some call) (s' : ControlPlane)
    (hframe : Frame none s.state s'.state) (htokens : s.tokens ≤ s'.tokens)
    (accepting : String → Bool) (hheld : call'.held = none) :
    Moved c s (s'.setCall { p with accepting := accepting } i call') := by
  have hperm := Process.awaiting_setCall h accepting call'
  rw [hheld] at hperm
  exact Moved.beside hs hp _ hframe htokens (Placed.others_sub hs hp h)
    (fun id hid => by cases hid) ⟨List.nodup_nil, fun id hid => by cases hid⟩ rfl rfl hperm

/-- A step of a call. -/
theorem Moved.advance {call : Call} {i : ℕ} (h : p.calls[i]? = some call) {faults : RecordFaults} :
    Moved c s (s.advance c p i call faults fault now) := by
  unfold ControlPlane.advance
  split
  · have hnew := hs.fresh
    split
    · next state' hrun =>
      obtain ⟨-, ⟨hr, -⟩ | ⟨-, hframe, hfound⟩⟩ := recordOperation_cases hs.distinct hnew hrun
      · exact (hr rfl).elim
      have hmissing : s.state.status (c.tokenHex s.tokens) = none := by
        simp [ControlState.status, hnew]
      have hpending : state'.status (c.tokenHex s.tokens) = some .pending := by
        simp [ControlState.status, hfound, Request.operation]
      have hothers := Placed.others_sub hs hp h
      have hout : c.tokenHex s.tokens ∉ p.others i := by
        intro hid
        rw [(hs.placed p hp).pending _ (hothers.2 _ hid)] at hmissing
        cases hmissing
      have hworker : ∀ operation, p.worker.operation = some operation →
          operation.operationId ≠ c.tokenHex s.tokens := by
        exact fun operation hop heq => not_drawn c s.tokens (heq ▸ hs.own p operation hp hop)
      refine Moved.beside hs hp _ hframe (Nat.le_succ _) hothers (fun id hid => ?_) ⟨List.nodup_singleton (c.tokenHex s.tokens), fun id hid => ?_⟩ rfl rfl ?_
      · obtain rfl := Option.some.inj hid
        refine ⟨?_, fun _ => not_drawn c s.tokens, ⟨s.tokens, Nat.lt_succ_self _, rfl⟩, hout, hworker⟩
        show Moves _ (state'.status _)
        rw [hmissing, hpending]
        exact .recorded
      · rw [List.mem_singleton.mp hid]
        exact ⟨hpending, hout, hworker⟩
      · exact Process.awaiting_setCall h p.accepting _
    · next state' hrun =>
      obtain ⟨-, ⟨-, hframe⟩ | ⟨hr, -⟩⟩ := recordOperation_cases hs.distinct hnew hrun
      · exact Moved.setCall hs hp h { s with state := state' } hframe le_rfl p.accepting rfl
      · cases hr
    · next error state' hrun =>
      obtain ⟨-, ⟨-, hframe⟩ | ⟨hr, -⟩⟩ := recordOperation_cases hs.distinct hnew hrun
      · exact Moved.setCall hs hp h { s with state := state', tokens := s.tokens + 1 } hframe
          (Nat.le_succ _) p.accepting (callRaised_held call)
      · cases hr
  · next operationId hplace =>
    have hheld : call.held = some operationId := by
      unfold Call.held
      rw [hplace]
    obtain ⟨hpending, hout, hworker⟩ := Placed.held hs hp h hheld
    split_ifs
    · have hothers := Placed.others_sub hs hp h
      refine Moved.beside hs hp _ (Frame.of_eq hs.distinct rfl) le_rfl hothers
        (fun id hid => by cases hid) ⟨List.nodup_singleton operationId, fun id hid => ?_⟩ rfl rfl ?_
      · rw [List.mem_singleton.mp hid]
        exact ⟨hpending, hout, hworker⟩
      · have hperm := Process.awaiting_setCall h p.accepting { call with place := .returned }
        show (((p.queue ++ [operationId]) ++ (p.requeues ++ _)).Perm _)
        rw [List.append_assoc]
        refine (List.perm_append_comm_assoc p.queue [operationId] _).trans ?_
        exact hperm.append_left [operationId]
    · have hothers := Placed.others_sub hs hp h
      refine Moved.beside hs hp _ (Frame.of_eq hs.distinct rfl) le_rfl hothers
        (fun id hid => by cases hid) ⟨List.nodup_singleton operationId, fun id hid => ?_⟩ rfl rfl ?_
      · rw [List.mem_singleton.mp hid]
        exact ⟨hpending, hout, hworker⟩
      · exact Process.awaiting_setCall h p.accepting { call with place := .overflowed operationId }
  · next operationId hplace =>
    have hheld : call.held = some operationId := by
      unfold Call.held
      rw [hplace]
    obtain ⟨hpending, hout, hworker⟩ := Placed.held hs hp h hheld
    rcases hrun : updateOperation c fault now operationId .failed
      (some "operation queue capacity is exhausted") s.state with ⟨r, state'⟩
    rcases updateOperation_cases hs.distinct hrun with
      ⟨-, hframe, -, record, hbefore, hafter⟩ | ⟨-, rfl⟩
    · have hperm := Process.awaiting_setCall h p.accepting (ControlPlane.callRaised call)
      rw [callRaised_held] at hperm
      refine Moved.beside hs hp _ hframe le_rfl (Placed.others_sub hs hp h) (fun id hid => ?_)
        ⟨List.nodup_nil, fun id hid => by cases hid⟩ rfl rfl hperm
      obtain rfl := Option.some.inj hid
      refine ⟨?_, fun h => (by rw [hbefore] at h; cases h), hs.drawn _ (by rw [hbefore]; simp), hout, hworker⟩
      show Moves _ (state'.status _)
      rw [hpending, show state'.status operationId = some .failed by
        simp [ControlState.status, hafter, Operation.updated]]
      exact .fails (by simp)
    · exact Moved.setCall hs hp h s (Frame.of_eq hs.distinct rfl) le_rfl p.accepting
        (callRaised_held call)
  · split
    · next u state' hrun =>
      exact Moved.setCall hs hp h { s with state := state' }
        (Frame.of_eq hs.distinct (setTenant_operations hrun)) le_rfl _ rfl
    · next error state' hrun =>
      exact Moved.setCall hs hp h { s with state := state' }
        (Frame.of_eq hs.distinct (setTenant_operations hrun)) le_rfl p.accepting rfl
  · exact .refl hs
  · exact .refl hs

end Calls

/-- One round of the loop that queues the operations of a restart. -/
theorem Moved.requeue (hs : Ordered c s.state s.process s.tokens) (hp : s.process = some p) :
    Moved c s (s.requeue c p fault now) := by
  have hplaced := hs.placed p hp
  unfold ControlPlane.requeue
  split
  · exact .refl hs
  next operationId rest hrequeues =>
  have hperm : p.awaiting.Perm
      ([operationId] ++ (p.queue ++ (rest ++ p.calls.filterMap Call.held))) := by
    unfold Process.awaiting
    rw [hrequeues]
    exact List.perm_append_comm_assoc p.queue [operationId] _
  have hnodup := hperm.nodup_iff.mp hplaced.nodup
  have hothers : (p.queue ++ (rest ++ p.calls.filterMap Call.held)).Nodup ∧
      ∀ id ∈ p.queue ++ (rest ++ p.calls.filterMap Call.held), id ∈ p.awaiting :=
    ⟨(List.nodup_append.mp hnodup).2.1, fun id hid => hperm.mem_iff.mpr (List.mem_append_right _ hid)⟩
  have hmem : operationId ∈ p.awaiting := hperm.mem_iff.mpr (List.mem_append_left _ (by simp))
  have hpending := hplaced.pending operationId hmem
  have hout : operationId ∉ p.queue ++ (rest ++ p.calls.filterMap Call.held) := fun hid =>
    (List.nodup_append.mp hnodup).2.2 operationId (by simp) operationId hid rfl
  have hworker : ∀ operation, p.worker.operation = some operation →
      operation.operationId ≠ operationId :=
    fun operation hop heq => hplaced.apart operation hop (heq ▸ hmem)
  split_ifs
  · refine Moved.beside hs hp _ (Frame.of_eq hs.distinct rfl) le_rfl hothers
      (fun id hid => by cases hid) ⟨List.nodup_singleton operationId, fun id hid => ?_⟩ rfl rfl ?_
    · rw [List.mem_singleton.mp hid]
      exact ⟨hpending, hout, hworker⟩
    · show ((p.queue ++ [operationId]) ++ (rest ++ _)).Perm _
      rw [List.append_assoc]
      exact List.perm_append_comm_assoc p.queue [operationId] _
  · split
    · next u state' hrun =>
      rcases updateOperation_cases hs.distinct hrun with
        ⟨-, hframe, -, record, hbefore, hafter⟩ | ⟨⟨_, hr⟩, -⟩
      swap
      · cases hr
      refine Moved.beside hs hp _ hframe le_rfl hothers (fun id hid => ?_)
        ⟨List.nodup_nil, fun id hid => by cases hid⟩ rfl rfl (List.Perm.refl _)
      obtain rfl := Option.some.inj hid
      refine ⟨?_, fun h => (by rw [hbefore] at h; cases h), hs.drawn _ (by rw [hbefore]; simp), hout, hworker⟩
      show Moves _ (state'.status _)
      rw [hpending, show state'.status operationId = some .failed by
        simp [ControlState.status, hafter, Operation.updated]]
      exact .fails (by simp)
    · next error state' hrun =>
      rcases updateOperation_cases hs.distinct hrun with ⟨hr, -⟩ | ⟨-, rfl⟩
      · cases hr
      · exact Moved.crash hs

theorem Operation.reset_id (operation : Operation) :
    operation.reset.operationId = operation.operationId := by
  unfold Operation.reset
  split_ifs <;> rfl

theorem Operation.reset_status (operation : Operation) : operation.reset.status =
    if operation.status.completed then operation.status else .pending := by
  unfold Operation.reset
  split_ifs <;> rfl

theorem resetIncomplete_cases {r : Except String Unit}
    (h : resetIncomplete c fault state = (r, state')) : state'.tenants = state.tenants ∧
      ((∃ error, r = .error error) ∧ state' = state ∨
        r = .ok () ∧ state'.operations = state.operations.map Operation.reset) := by
  unfold resetIncomplete at h
  rw [Prog.run_bind_ok (Prog.run_get state)] at h
  by_cases hall : state.operations.all fun operation => operation.status.completed
  · rw [if_pos hall] at h
    obtain ⟨rfl, rfl⟩ := Prod.mk.inj h
    refine ⟨rfl, .inr ⟨rfl, ?_⟩⟩
    have hsame : ∀ operation ∈ state.operations, operation.reset = operation := by
      intro operation hmem
      unfold Operation.reset
      rw [if_pos (List.all_eq_true.mp hall operation hmem)]
    rw [List.map_congr_left hsame, List.map_id']
  · rw [if_neg hall] at h
    rcases mutateState_cases h with ⟨rfl, -, hm, -⟩ | ⟨hr, rfl⟩
    · obtain rfl := Except.ok.inj hm
      exact ⟨rfl, .inr ⟨rfl, rfl⟩⟩
    · exact ⟨rfl, .inl ⟨hr, rfl⟩⟩

/-- The operations that are not completed begin again, the others stay. -/
theorem find_reset (h : state'.operations = state.operations.map Operation.reset) (id : String) :
    state'.find id = (state.find id).map Operation.reset := by
  unfold ControlState.find
  rw [h, List.find?_map]
  congr 2
  funext operation
  simp [Operation.reset_id]

theorem removeAll_state (names : List ArtifactName) (s : ControlPlane) :
    (s.removeAll names).state = s.state ∧ (s.removeAll names).tokens = s.tokens ∧
      (s.removeAll names).process = s.process ∧ (s.removeAll names).effects = s.effects := by
  unfold ControlPlane.removeAll
  induction names generalizing s with
  | nil => exact ⟨rfl, rfl, rfl, rfl⟩
  | cons name rest ih => exact ih (s.remove name)

/-- A process that starts has everything to queue that is not completed. -/
theorem placed_started (hn : Distinct state.operations)
    (hreset : ∀ operation ∈ state.operations, operation.status.completed = false →
      operation.status = .pending) : Placed state (ControlPlane.started state) := by
  have hawaiting : (ControlPlane.started state).awaiting =
      (state.operations.filter fun operation => !operation.status.completed).map
        Operation.operationId := by
    simp [Process.awaiting, ControlPlane.started]
  refine ⟨?_, fun id hid => ?_, fun operation hop => (by cases hop), fun operation hop => (by cases hop),
    fun operation hop => (by cases hop)⟩
  · rw [hawaiting]
    exact hn.sublist (List.filter_sublist.map _)
  · rw [hawaiting] at hid
    obtain ⟨operation, hmem, rfl⟩ := List.mem_map.mp hid
    obtain ⟨hin, hstatus⟩ := List.mem_filter.mp hmem
    rw [ControlState.status_eq_some]
    refine ⟨operation, ControlState.find_of_mem hn hin, hreset operation hin ?_⟩
    simpa using hstatus

theorem Moved.restart (hs : Ordered c s.state s.process s.tokens) (hp : s.process = none)
    (stop : Option ℕ) : Moved c s (s.restart c stop fault) := by
  have hstill : ∀ s' : ControlPlane, s'.state = s.state → s'.tokens = s.tokens →
      s'.process = s.process → Moved c s s' := by
    intro s' hstate htokens hprocess
    refine ⟨by rw [hstate, htokens, hprocess]; exact hs, fun id => ?_, htokens.ge, fun id h h' => ?_⟩
    · rw [hstate]
      exact .stays _
    · rw [hstate] at h'
      exact (h' h).elim
  unfold ControlPlane.restart
  cases stop with
  | some count =>
    obtain ⟨hstate, htokens, hprocess, -⟩ := removeAll_state ((s.strays c).take count) s
    exact hstill _ hstate htokens hprocess
  | none =>
    obtain ⟨hstate, htokens, hprocess, -⟩ := removeAll_state (s.strays c) s
    have hreset : ∀ {r state'}, resetIncomplete c fault s.state = (r, state') →
        Distinct state'.operations ∧ (∀ id, Moves (s.state.status id) (state'.status id)) ∧
          (∀ id, state'.find id ≠ none → s.state.find id ≠ none) ∧
          (r = .ok () → ∀ operation ∈ state'.operations, operation.status.completed = false →
            operation.status = .pending) := by
      intro r state' hrun
      obtain ⟨-, ⟨⟨_, rfl⟩, rfl⟩ | ⟨-, hops⟩⟩ := resetIncomplete_cases hrun
      · exact ⟨hs.distinct, fun id => .stays _, fun _ h => h, fun h => by cases h⟩
      have hfind := find_reset hops
      refine ⟨?_, fun id => ?_, fun id hid hnone => ?_, fun _ operation hmem hstatus => ?_⟩
      · have hids : (s.state.operations.map Operation.reset).map Operation.operationId =
            s.state.operations.map Operation.operationId := by
          rw [List.map_map]
          exact List.map_congr_left fun operation _ => operation.reset_id
        rw [Distinct, hops, hids]
        exact hs.distinct
      · unfold ControlState.status
        rw [hfind]
        cases s.state.find id with
        | none => exact .stays _
        | some operation =>
          simp only [Option.map_some, Operation.reset_status]
          cases operation.status with
          | pending => exact .stays _
          | running => exact .requeued
          | succeeded => exact .stays _
          | failed => exact .stays _
      · rw [hfind, hnone] at hid
        exact hid rfl
      · rw [hops] at hmem
        obtain ⟨before, -, rfl⟩ := List.mem_map.mp hmem
        rw [Operation.reset_status] at hstatus ⊢
        split_ifs at hstatus ⊢ with hcompleted
        · rw [hcompleted] at hstatus
          cases hstatus
        · rfl
    dsimp only
    split
    · next _ state' hrun =>
      obtain ⟨hn, hmoves, hold, hpending⟩ := hreset hrun
      refine ⟨⟨hn, fun id hid => ?_, fun p' operation hp' hop => ?_, fun p' hp' => ?_⟩, hmoves,
        htokens.ge, fun id h h' => (hold id h' h).elim⟩
      · rw [htokens]
        exact hs.drawn id (hold id hid)
      · obtain rfl := Option.some.inj hp'
        cases hop
      · obtain rfl := Option.some.inj hp'
        exact placed_started hn (hpending rfl)
    · next _ state' _ hrun =>
      obtain ⟨hn, hmoves, hold, -⟩ := hreset hrun
      refine ⟨⟨hn, fun id hid => ?_, fun p' operation hp' hop => ?_, fun p' hp' => ?_⟩, hmoves,
        htokens.ge, fun id h h' => (hold id h' h).elim⟩
      · rw [htokens]
        exact hs.drawn id (hold id hid)
      · rw [hprocess, hp] at hp'
        cases hp'
      · rw [hprocess, hp] at hp'
        cases hp'

/-- What a step does to the operations. -/
theorem Moved.step (hs : Ordered c s.state s.process s.tokens) (a : Action) :
    Moved c s (s.step c a) := by
  unfold ControlPlane.step
  split
  · next stop fault hp => exact Moved.restart hs hp stop
  · exact .refl hs
  · exact Moved.crash hs
  · next p fault now hp => exact Moved.requeue hs hp
  · next p fault now hp => exact Moved.work hs hp
  · next p r fault hp =>
    split_ifs
    · exact Moved.request hs hp
    · exact .refl hs
  · next p i faults fault now hp =>
    split
    · next call hcall => exact Moved.advance hs hp hcall
    · exact .refl hs
  · next p tenantId now hp =>
    split
    · next r _ => exact Moved.addCall hs hp s (Frame.of_eq hs.distinct rfl) le_rfl r rfl rfl
    · exact .refl hs
  · next p fault now hp => exact Moved.retain hs hp
  · next p i fault hp => exact Moved.removeRetained hs hp i
  · exact .refl hs

theorem ordered_init (c : Settings) : Ordered c (ControlPlane.init c).state
    (ControlPlane.init c).process (ControlPlane.init c).tokens :=
  ⟨List.nodup_nil, fun id h => (h rfl).elim, fun p _ hp => (by cases hp), fun p hp => (by cases hp)⟩

theorem ordered_steps (hs : Ordered c s.state s.process s.tokens) (actions : List Action) :
    Ordered c (actions.foldl (ControlPlane.step c) s).state
      (actions.foldl (ControlPlane.step c) s).process
      (actions.foldl (ControlPlane.step c) s).tokens := by
  induction actions generalizing s with
  | nil => exact hs
  | cons a rest ih => exact ih (Moved.step hs a).ordered

theorem ordered_run (actions : List Action) : Ordered c (ControlPlane.run c actions).state
    (ControlPlane.run c actions).process (ControlPlane.run c actions).tokens :=
  ordered_steps (ordered_init c) actions

/-- A property of the status that every arrow out of a listed status keeps is kept for good. -/
theorem status_steps {P : Option OperationStatus → Prop}
    (hP : ∀ {status after}, P (some status) → Moves (some status) after → P after)
    (hs : Ordered c s.state s.process s.tokens) {id : String} (hdrawn : Drawn c s.tokens id)
    (h : P (s.state.status id)) (actions : List Action) :
    P ((actions.foldl (ControlPlane.step c) s).state.status id) := by
  induction actions generalizing s with
  | nil => exact h
  | cons a rest ih =>
    have hmoved := Moved.step hs a
    refine ih hmoved.ordered (hdrawn.mono hmoved.tokens_le) ?_
    cases hstatus : s.state.status id with
    | some status =>
      rw [hstatus] at h
      exact hP h (hstatus ▸ hmoved.moves id)
    | none =>
      have hnone : s.state.find id = none := Option.map_eq_none_iff.mp hstatus
      have hnone' : (s.step c a).state.find id = none := by
        by_contra hfound
        exact hmoved.new id hnone hfound hdrawn
      rw [hstatus] at h
      unfold ControlState.status
      rw [hnone']
      exact h

/-- The status of an operation moves along the arrows, over restarts as well; a failed one has
failed for good, one that has succeeded never runs again, and one that is forgotten does not come
back. -/
theorem operation_life (c : Settings) (before after : List Action) (id : String) :
    (∀ a, Moves ((ControlPlane.run c before).state.status id)
      ((ControlPlane.run c (before ++ [a])).state.status id)) ∧
    ((ControlPlane.run c before).state.status id = some .failed →
      (ControlPlane.run c (before ++ after)).state.status id ∈ [some .failed, none]) ∧
    ((ControlPlane.run c before).state.status id = some .succeeded →
      (ControlPlane.run c (before ++ after)).state.status id ∈
        [some .succeeded, some .failed, none]) ∧
    (Drawn c (ControlPlane.run c before).tokens id →
      (ControlPlane.run c before).state.status id = none →
        (ControlPlane.run c (before ++ after)).state.status id = none) := by
  have hs := ordered_run (c := c) before
  have hrun : ∀ actions, ControlPlane.run c (before ++ actions) =
      actions.foldl (ControlPlane.step c) (ControlPlane.run c before) :=
    fun actions => List.foldl_append
  have hdrawn : ∀ {status}, (ControlPlane.run c before).state.status id = some status →
      Drawn c (ControlPlane.run c before).tokens id := by
    intro status hstatus
    obtain ⟨operation, hop, -⟩ := ControlState.status_eq_some.mp hstatus
    exact hs.drawn id (by rw [hop]; simp)
  refine ⟨fun a => ?_, fun h => ?_, fun h => ?_, fun hd h => ?_⟩
  · rw [hrun]
    exact (Moved.step hs a).moves id
  · rw [hrun]
    refine status_steps (P := fun status => status ∈ [some .failed, none]) ?_ hs (hdrawn h)
      (by rw [h]; simp) after
    intro status after' hstatus hmoves
    cases hmoves <;> simp_all
  · rw [hrun]
    refine status_steps (P := fun status => status ∈ [some .succeeded, some .failed, none]) ?_ hs
      (hdrawn h) (by rw [h]; simp) after
    intro status after' hstatus hmoves
    cases hmoves <;> simp_all
  · rw [hrun]
    refine status_steps (P := fun status => status = none) ?_ hs hd h after
    intro status after' hstatus _
    cases hstatus

/-- An operation that waits for the worker, in the queue, before it or held by a call, is
pending, waits in one place only and is not the one that the worker is at. -/
theorem operations_wait_once (c : Settings) (actions : List Action) (p : Process)
    (hp : (ControlPlane.run c actions).process = some p) :
    p.awaiting.Nodup ∧
    (∀ id ∈ p.awaiting, (ControlPlane.run c actions).state.status id = some .pending) ∧
    ∀ operation, p.worker.operation = some operation → operation.operationId ∉ p.awaiting := by
  have hplaced := (ordered_run (c := c) actions).placed p hp
  exact ⟨hplaced.nodup, hplaced.pending, hplaced.apart⟩

/-- The tokens `""`, `"a"`, `"aa"` and so on. -/
def unaryToken (n : ℕ) : String := String.ofList (List.replicate n 'a')

theorem unaryToken_injective : Function.Injective unaryToken := by
  intro m n h
  have hlength := congrArg String.length h
  simpa [unaryToken] using hlength

theorem two_positive : 0 < 2 := by decide

def oneTenant : Settings where
  tenantIds := ["acme"]
  definition _ :=
    { enabled := true
      intervalSeconds := 0
      retentionCount := 2
      retentionSeconds := 2
      exportCount := 2
      completedOperations := 2
      positive := ⟨two_positive, two_positive, two_positive, two_positive⟩ }
  namespaceFor tenantId := tenantId
  maxOperations := 2
  tokenHex := unaryToken
  maxOperations_pos := two_positive
  tokenHex_injective := unaryToken_injective

def backupOf (tenantId : String) : Request := ⟨.backup, tenantId, "operator", none, none⟩

def deletionOf (tenantId : String) : Request := ⟨.tenantDelete, tenantId, "operator", none, none⟩

/-- A call that asks for the operation, and the worker's `count` steps after it. -/
def asks (r : Request) (i count : ℕ) : List Action :=
  .request r none :: .call i ⟨none, none, none, none⟩ none 0 ::
    .call i ⟨none, none, none, none⟩ none 0 :: List.replicate count (.work none 0)

/-- Two operations are queued, and the worker has taken one of them. -/
def twoBackups : List Action :=
  .restart none none :: (asks (backupOf "acme") 0 1 ++ asks (backupOf "acme") 1 0)

theorem twoBackups_wait_once : ∃ p, (ControlPlane.run oneTenant twoBackups).process = some p ∧
    p.awaiting.Nodup ∧
    (∀ id ∈ p.awaiting, (ControlPlane.run oneTenant twoBackups).state.status id = some .pending) ∧
    ∀ operation, p.worker.operation = some operation → operation.operationId ∉ p.awaiting :=
  ⟨_, rfl, operations_wait_once oneTenant twoBackups _ rfl⟩

end Managed
end Controlplane
end MegaCache
