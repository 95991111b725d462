import MegaCache.Controlplane.WorkerSteps

/-!
# What one step does

To the limits of the state, to the status of a tenant and to its gate, and to the record of
an operation.
-/

namespace MegaCache
namespace Controlplane
namespace Managed

open Prog

variable {c : Settings} {state state' : ControlState} {s s' : ControlPlane} {p : Process}
  {fault : Option String} {now : ℚ} {a : Action}

/-! ## Limits -/

theorem Works.valid (h : Works c s p fault now s') (hv : Valid c s.state) : Valid c s'.state := by
  cases h with
  | begins _ hrun => exact mutateState_valid hv hrun
  | lists _ hrun => exact mutateState_valid hv hrun
  | restores _ hrun => exact mutateState_valid hv hrun
  | drills _ hrun => exact mutateState_valid hv hrun
  | erases _ hrun => exact mutateState_valid hv hrun
  | succeeds _ hrun => exact mutateState_valid hv hrun
  | suspends _ hrun => exact mutateState_valid hv hrun
  | fails _ hrun => exact mutateState_valid hv hrun
  | _ => exact hv

theorem valid_mutateState (fault : Option String)
    (mutation : ControlState → Except String ControlState) :
    Rel (Preserves (Valid c)) (mutateState c fault mutation) :=
  fun _ hv => mutateState_valid hv rfl

theorem valid_ensureOperationCapacity (fault : Option String) (tenantId : String) :
    Rel (Preserves (Valid c)) (ensureOperationCapacity c fault tenantId) := by
  unfold ensureOperationCapacity
  refine .bind .get fun state => .ite (fun _ => .pure _) fun _ => .ite (fun _ => .throw _) fun _ => ?_
  exact valid_mutateState _ _

theorem valid_auditAction (append write : Option String) :
    Rel (Preserves (Valid c)) (auditAction c append write) := by
  unfold auditAction
  cases append with
  | some error => exact .throw _
  | none => exact valid_mutateState _ _

theorem valid_recordOperation (faults : RecordFaults) (request : Request) (operationId : String)
    (now : ℚ) : Rel (Preserves (Valid c)) (recordOperation c faults request operationId now) := by
  unfold recordOperation
  refine .bind .get fun state => .ite (fun _ => .pure _) fun _ => ?_
  refine .bind (valid_ensureOperationCapacity _ _) fun _ => ?_
  refine .bind (valid_auditAction _ _) fun _ => ?_
  exact .bind (valid_mutateState _ _) fun _ => .pure _

theorem valid_resetIncomplete (fault : Option String) :
    Rel (Preserves (Valid c)) (resetIncomplete c fault) := by
  unfold resetIncomplete
  exact .bind .get fun state => .ite (fun _ => .pure _) fun _ => valid_mutateState _ _

theorem Valid.restart (hv : Valid c s.state) (stop : Option ℕ) :
    Valid c (s.restart c stop fault).state := by
  unfold ControlPlane.restart
  cases stop with
  | some count =>
    dsimp only
    rw [(removeAll_state _ s).1]
    exact hv
  | none =>
    dsimp only
    split
    · next u state' hrun => exact (valid_resetIncomplete _).run hrun hv
    · next error state' _ hrun => exact (valid_resetIncomplete _).run hrun hv

theorem Valid.request (hv : Valid c s.state) (p : Process) (r : Request) :
    Valid c (s.request c p r fault).state := by
  unfold ControlPlane.request
  by_cases hknown : r.tenantId ∉ c.tenantIds
  · rw [if_pos hknown]
    exact hv
  rw [if_neg hknown]
  by_cases hkind : r.kind = .tenantDelete
  swap
  · rw [if_neg hkind]
    split_ifs <;> exact hv
  rw [if_pos hkind]
  by_cases hactive : (s.state.tenants r.tenantId).status ≠ .active
  · rw [if_pos hactive]
    exact hv
  rw [if_neg hactive]
  split
  · next hrun => exact mutateState_valid hv hrun
  · next hrun => exact mutateState_valid hv hrun

theorem Valid.advance (hv : Valid c s.state) (p : Process) (i : ℕ) (call : Call)
    (faults : RecordFaults) : Valid c (s.advance c p i call faults fault now).state := by
  unfold ControlPlane.advance
  split
  · split
    all_goals
      next hrun => exact (valid_recordOperation _ _ _ _).run hrun hv
  · split_ifs <;> exact hv
  · exact valid_mutateState _ _ _ hv
  · split
    · next hrun => exact mutateState_valid hv hrun
    · next hrun => exact mutateState_valid hv hrun
  · exact hv
  · exact hv

theorem Valid.requeue (hv : Valid c s.state) (p : Process) :
    Valid c (s.requeue c p fault now).state := by
  unfold ControlPlane.requeue
  split
  · exact hv
  split_ifs
  · exact hv
  · split
    · next hrun => exact mutateState_valid hv hrun
    · next hrun => exact mutateState_valid hv hrun

theorem Valid.step (hv : Valid c s.state) (hs : Ordered c s.state s.process s.tokens) (a : Action) :
    Valid c (s.step c a).state := by
  unfold ControlPlane.step
  split
  · next stop fault hp => exact hv.restart stop
  · exact hv
  · exact hv
  · next p fault now hp => exact hv.requeue p
  · next p fault now hp => exact (works hs hv hp).valid hv
  · next p r fault hp =>
    split_ifs
    · exact hv.request p r
    · exact hv
  · next p i faults fault now hp =>
    split
    · next call _ => exact hv.advance p i call faults
    · exact hv
  · split <;> exact hv
  · unfold ControlPlane.retain
    split
    · next hrun => exact mutateState_valid hv hrun
    · next hrun => exact mutateState_valid hv hrun
  · unfold ControlPlane.removeRetained
    split <;> exact hv
  · exact hv

theorem valid_empty (c : Settings) : Valid c (.empty c) :=
  valid_iff.mpr ⟨Nat.zero_le _, fun _ _ => validateTenant_ok.mpr
    ⟨Nat.zero_le _, Nat.zero_le _, Nat.zero_le _⟩⟩

theorem run_append_singleton (c : Settings) (actions : List Action) (a : Action) :
    ControlPlane.run c (actions ++ [a]) = (ControlPlane.run c actions).step c a := by
  unfold ControlPlane.run
  rw [List.foldl_append]
  rfl

theorem valid_run (c : Settings) (actions : List Action) :
    Valid c (ControlPlane.run c actions).state := by
  induction actions using List.reverseRecOn with
  | nil => exact valid_empty c
  | append_singleton before a ih =>
    rw [run_append_singleton]
    exact ih.step (ordered_run before) a

/-! ## Tenants -/

def ControlState.tenantStatus (state : ControlState) (tenantId : String) : TenantStatus :=
  (state.tenants tenantId).status

theorem tenantStatus_setTenant (state : ControlState) (tenantId : String)
    (f : TenantState → TenantState) : (state.setTenant tenantId f).tenantStatus =
      Function.update state.tenantStatus tenantId (f (state.tenants tenantId)).status := by
  funext other
  unfold ControlState.tenantStatus
  by_cases h : other = tenantId
  · rw [h, setTenant_self, Function.update_self]
  · rw [setTenant_ne _ h, Function.update_of_ne h]

/-- A write of a tenant that leaves its status. -/
theorem tenantStatus_same {tenantId : String} {f : TenantState → TenantState}
    {r : Except String Unit}
    (h : mutateState c fault (fun state => pure (state.setTenant tenantId f)) state = (r, state'))
    (hf : ∀ tenant, (f tenant).status = tenant.status) :
    state'.tenantStatus = state.tenantStatus := by
  rcases setTenant_cases h with ⟨-, rfl⟩ | ⟨-, rfl⟩
  · rw [tenantStatus_setTenant, hf]
    exact Function.update_eq_self _ _
  · rfl

theorem setStatus_ok {tenantId : String} {status : TenantStatus}
    (h : setStatus c fault tenantId status state = (.ok (), state')) :
    state'.tenantStatus = Function.update state.tenantStatus tenantId status := by
  rcases setTenant_cases h with ⟨-, rfl⟩ | ⟨⟨_, hr⟩, -⟩
  · exact tenantStatus_setTenant _ _ _
  · cases hr

theorem eraseTenant_ok {tenantId : String}
    (h : eraseTenant c fault tenantId now state = (.ok (), state')) :
    state'.tenantStatus = Function.update state.tenantStatus tenantId .deleted ∧
      (state'.tenants tenantId).listed = [] := by
  rcases setTenant_cases h with ⟨-, rfl⟩ | ⟨⟨_, hr⟩, -⟩
  · refine ⟨tenantStatus_setTenant _ _ _, ?_⟩
    rw [setTenant_self]
    rfl
  · cases hr

theorem suspendPending_ok {tenantId : String}
    (h : suspendPending c fault tenantId state = (.ok (), state')) :
    state'.tenantStatus = Function.update state.tenantStatus tenantId
        (if state.tenantStatus tenantId = .deletionPending then .suspended
          else state.tenantStatus tenantId) := by
  rcases setTenant_cases h with ⟨-, rfl⟩ | ⟨⟨_, hr⟩, -⟩
  · rw [tenantStatus_setTenant]
    unfold ControlState.tenantStatus
    split_ifs <;> rfl
  · cases hr

theorem tenantStatus_of_tenants (h : state'.tenants = state.tenants) :
    state'.tenantStatus = state.tenantStatus := by
  unfold ControlState.tenantStatus
  rw [h]

/-- What a step does to the status of the tenants and to their gates. -/
inductive Turns (c : Settings) (a : Action) (s s' : ControlPlane) : Prop
  | keeps : s'.state.tenantStatus = s.state.tenantStatus →
      (∀ q tenantId, s'.process = some q → q.accepting tenantId = true →
        (∃ p, s.process = some p ∧ p.accepting tenantId = true) ∨
          s.process = none ∧ s'.state.tenantStatus tenantId = .active) → Turns c a s s'
  | marks (p : Process) (r : Request) (fault : Option String) : s.process = some p →
      a = .request r fault → r.kind = .tenantDelete →
      s.state.tenantStatus r.tenantId = .active →
      s'.state.tenantStatus = Function.update s.state.tenantStatus r.tenantId .deletionPending →
      s'.process = some { ControlPlane.refuse p r.tenantId with
        calls := p.calls ++ [⟨r, .admitted⟩] } → Turns c a s s'
  | reopens (p : Process) (i : ℕ) (call : Call) (faults : RecordFaults) (now : ℚ) :
      a = .call i faults none now → s.process = some p →
      p.calls[i]? = some call → call.place = .unwinds →
      s'.state.tenantStatus = Function.update s.state.tenantStatus call.request.tenantId .active →
      s'.process = some { p with
        accepting := Function.update p.accepting call.request.tenantId true
        calls := p.calls.set i { call with place := .raised } } → Turns c a s s'
  | suspends (p : Process) (operation : Operation) (error : String) : s.process = some p →
      p.worker = .suspends operation error →
      s'.state.tenantStatus = Function.update s.state.tenantStatus operation.tenantId
        (if s.state.tenantStatus operation.tenantId = .deletionPending then .suspended
          else s.state.tenantStatus operation.tenantId) →
      s'.process = some { ControlPlane.refuse p operation.tenantId with
        worker := .fails operation error } → Turns c a s s'
  | erases (p : Process) (operation : Operation) : s.process = some p →
      p.worker = .erases operation →
      s'.state.tenantStatus = Function.update s.state.tenantStatus operation.tenantId .deleted →
      (s'.state.tenants operation.tenantId).listed = [] →
      s'.process = some { ControlPlane.refuse p operation.tenantId with
        worker := .returned operation } → Turns c a s s'

/-- The gates are as before. -/
theorem Turns.still (hp : s.process = some p)
    (hstatus : s'.state.tenantStatus = s.state.tenantStatus)
    (hgate : ∀ q tenantId, s'.process = some q → q.accepting tenantId = true →
      p.accepting tenantId = true) : Turns c a s s' :=
  .keeps hstatus fun q tenantId hq haccepting => .inl ⟨p, hp, hgate q tenantId hq haccepting⟩

theorem Turns.refl (s : ControlPlane) : Turns c a s s :=
  .keeps rfl fun q _ hq haccepting => .inl ⟨q, hq, haccepting⟩

theorem refuse_accepting {tenantId tenantId' : String}
    (h : (ControlPlane.refuse p tenantId).accepting tenantId' = true) :
    tenantId' ≠ tenantId ∧ p.accepting tenantId' = true := by
  unfold ControlPlane.refuse at h
  dsimp only at h
  by_cases heq : tenantId' = tenantId
  · rw [heq, Function.update_self] at h
    cases h
  · rw [Function.update_of_ne heq] at h
    exact ⟨heq, h⟩

theorem Works.turns (h : Works c s p fault now s') (hp : s.process = some p) : Turns c a s s' := by
  have hgoto : ∀ (s₁ : ControlPlane) (rest : List String) (place : WorkerPlace),
      s₁.state.tenantStatus = s.state.tenantStatus →
      Turns c a s (s₁.goto { p with queue := rest } place) := by
    intro s₁ rest place hstatus
    refine Turns.still hp hstatus fun q tenantId hq haccepting => ?_
    obtain rfl := Option.some.inj hq
    exact haccepting
  cases h with
  | stays => exact .refl s
  | skips _ _ _ =>
    refine Turns.still hp rfl fun q tenantId hq haccepting => ?_
    obtain rfl := Option.some.inj hq
    exact haccepting
  | takes _ _ _ => exact hgoto s _ _ rfl
  | begins _ hrun =>
    exact hgoto _ p.queue _ (tenantStatus_of_tenants (updateOperation_tenants hrun))
  | lists _ hrun =>
    refine hgoto _ p.queue _ (tenantStatus_same hrun fun tenant => ?_)
    unfold TenantState.setItems
    split <;> rfl
  | restores _ hrun => exact hgoto _ p.queue _ (tenantStatus_same hrun fun _ => rfl)
  | drills _ hrun => exact hgoto _ p.queue _ (tenantStatus_same hrun fun _ => rfl)
  | erases hworker hrun => exact .erases p _ hp hworker (eraseTenant_ok hrun).1 (eraseTenant_ok hrun).2 rfl
  | succeeds _ hrun =>
    exact hgoto _ p.queue _ (tenantStatus_of_tenants (updateOperation_tenants hrun))
  | suspends hworker hrun => exact .suspends p _ _ hp hworker (suspendPending_ok hrun) rfl
  | stops _ =>
    refine Turns.still hp rfl fun q tenantId hq haccepting => ?_
    obtain rfl := Option.some.inj hq
    exact (refuse_accepting haccepting).2
  | fails _ hrun =>
    exact hgoto _ p.queue _ (tenantStatus_of_tenants (updateOperation_tenants hrun))
  | makes _ _ _ => exact hgoto _ p.queue _ rfl
  | raises _ _ _ => exact hgoto s p.queue _ rfl
  | finds _ _ => exact hgoto s p.queue _ rfl
  | enters _ _ _ => exact hgoto s p.queue _ rfl
  | replaces _ _ => exact hgoto _ p.queue _ rfl
  | unlisted _ => exact hgoto s p.queue _ rfl
  | withdraws _ => exact hgoto _ p.queue _ rfl
  | trims _ => exact hgoto _ p.queue _ rfl
  | trimmed _ => exact hgoto s p.queue _ rfl
  | clears _ => exact hgoto _ p.queue _ rfl
  | cleared _ => exact hgoto s p.queue _ rfl
  | sweeps _ _ => exact hgoto _ p.queue _ rfl
  | passes _ _ => exact hgoto s p.queue _ rfl
  | swept _ => exact hgoto s p.queue _ rfl
  | audited _ => exact hgoto s p.queue _ rfl
  | strands _ => exact hgoto s p.queue _ rfl
  | reports _ => exact hgoto s p.queue _ rfl

theorem Turns.request (hp : s.process = some p) (r : Request) :
    Turns c (.request r fault) s (s.request c p r fault) := by
  unfold ControlPlane.request
  by_cases hknown : r.tenantId ∉ c.tenantIds
  · rw [if_pos hknown]
    exact .refl s
  rw [if_neg hknown]
  have hadd : ∀ q r, q.accepting = p.accepting → Turns c (.request r fault) s (s.addCall q r) := by
    intro q r hq
    refine Turns.still hp rfl fun q' tenantId hq' haccepting => ?_
    obtain rfl := Option.some.inj hq'
    exact hq ▸ haccepting
  by_cases hkind : r.kind = .tenantDelete
  swap
  · rw [if_neg hkind]
    split_ifs
    · exact .refl s
    · exact hadd p r rfl
  rw [if_pos hkind]
  by_cases hactive : (s.state.tenants r.tenantId).status ≠ .active
  · rw [if_pos hactive]
    exact .refl s
  rw [if_neg hactive]
  split
  · next u state' hrun =>
    exact .marks p r fault hp rfl hkind (not_not.mp hactive) (setStatus_ok hrun) rfl
  · next error state' hrun =>
    obtain rfl := setTenant_error error state' hrun
    exact .refl s

theorem Turns.setCall (hp : s.process = some p) (s₁ : ControlPlane)
    (hstatus : s₁.state.tenantStatus = s.state.tenantStatus) {q : Process}
    (hq : q.accepting = p.accepting) (i : ℕ) (call : Call) : Turns c a s (s₁.setCall q i call) := by
  refine Turns.still hp hstatus fun q' tenantId hq' haccepting => ?_
  obtain rfl := Option.some.inj hq'
  exact hq ▸ haccepting

theorem Turns.advance (hs : Ordered c s.state s.process s.tokens) (hp : s.process = some p)
    {i : ℕ} {call : Call} (hcall : p.calls[i]? = some call) (faults : RecordFaults) :
    Turns c (.call i faults fault now) s (s.advance c p i call faults fault now) := by
  unfold ControlPlane.advance
  split
  · have htenants := fun {r state'} hrun =>
      (@recordOperation_cases c s.state state' now faults call.request _ r hs.distinct hs.fresh hrun).1
    split
    · next state' hrun =>
      exact Turns.setCall hp { s with state := state', tokens := s.tokens + 1 }
        (tenantStatus_of_tenants (htenants hrun)) rfl i _
    · next state' hrun =>
      exact Turns.setCall hp { s with state := state' } (tenantStatus_of_tenants (htenants hrun)) rfl
        i _
    · next error state' hrun =>
      exact Turns.setCall hp { s with state := state', tokens := s.tokens + 1 }
        (tenantStatus_of_tenants (htenants hrun)) rfl i _
  · next operationId _ =>
    split_ifs
    · exact Turns.setCall hp s rfl (q := { p with queue := p.queue ++ [operationId] }) rfl i _
    · exact Turns.setCall hp s rfl rfl i _
  · next operationId _ =>
    rcases hrun : updateOperation c fault now operationId .failed
      (some "operation queue capacity is exhausted") s.state with ⟨r, state'⟩
    exact Turns.setCall hp { s with state := state' }
      (tenantStatus_of_tenants (updateOperation_tenants hrun)) rfl i _
  · next hplace =>
    split
    · next u state' hrun =>
      obtain rfl : fault = none := by
        rcases mutateState_cases hrun with ⟨-, hfault, -⟩ | ⟨⟨_, hr⟩, -⟩
        · exact hfault
        · cases hr
      exact .reopens p i call faults now rfl hp hcall hplace (setStatus_ok hrun) rfl
    · next error state' hrun =>
      obtain rfl := setTenant_error error state' hrun
      exact Turns.setCall hp s rfl rfl i _
  · exact .refl s
  · exact .refl s

theorem Turns.requeue (hp : s.process = some p) : Turns c a s (s.requeue c p fault now) := by
  unfold ControlPlane.requeue
  split
  · exact .refl s
  have hq : ∀ (s₁ : ControlPlane) (q : Process), s₁.state.tenantStatus = s.state.tenantStatus →
      s₁.process = some q → q.accepting = p.accepting → Turns c a s s₁ := by
    intro s₁ q hstatus hprocess hq
    refine Turns.still hp hstatus fun q' tenantId hq' haccepting => ?_
    obtain rfl := Option.some.inj (hprocess.symm.trans hq')
    exact hq ▸ haccepting
  split_ifs
  · exact hq _ _ rfl rfl rfl
  split
  · next u state' hrun =>
    exact hq _ _ (tenantStatus_of_tenants (updateOperation_tenants hrun)) rfl rfl
  · next error state' hrun =>
    refine Turns.still hp (tenantStatus_of_tenants (updateOperation_tenants hrun)) fun q tenantId hq => ?_
    cases hq

theorem tenantStatus_retention (state : ControlState) (now : ℚ) :
    (retention c now state).tenantStatus = state.tenantStatus := by
  funext tenantId
  unfold ControlState.tenantStatus retention
  dsimp only
  split_ifs <;> rfl

theorem Turns.restart (hp : s.process = none) (stop : Option ℕ) :
    Turns c a s (s.restart c stop fault) := by
  unfold ControlPlane.restart
  cases stop with
  | some count =>
    obtain ⟨hstate, -, hprocess, -⟩ := removeAll_state ((s.strays c).take count) s
    refine .keeps (by rw [hstate]) fun q tenantId hq => ?_
    rw [hprocess, hp] at hq
    cases hq
  | none =>
    obtain ⟨-, -, hprocess, -⟩ := removeAll_state (s.strays c) s
    dsimp only
    split
    · next u state' hrun =>
      refine .keeps (tenantStatus_of_tenants (resetIncomplete_cases hrun).1) fun q tenantId hq haccepting => ?_
      obtain rfl := Option.some.inj hq
      exact .inr ⟨hp, of_decide_eq_true haccepting⟩
    · next error state' _ hrun =>
      refine .keeps (tenantStatus_of_tenants (resetIncomplete_cases hrun).1) fun q tenantId hq => ?_
      rw [hprocess, hp] at hq
      cases hq

theorem Turns.step (hs : Ordered c s.state s.process s.tokens) (hv : Valid c s.state) (a : Action) :
    Turns c a s (s.step c a) := by
  unfold ControlPlane.step
  split
  · next stop fault hp => exact Turns.restart hp stop
  · exact .refl s
  · next p hp => exact Turns.still hp rfl fun q _ hq => by cases hq
  · next p fault now hp => exact Turns.requeue hp
  · next p fault now hp => exact (works hs hv hp).turns hp
  · next p r fault hp =>
    split_ifs
    · exact Turns.request hp r
    · exact .refl s
  · next p i faults fault now hp =>
    split
    · next call hcall => exact Turns.advance hs hp hcall faults
    · exact .refl s
  · next p tenantId now hp =>
    split
    · next r _ =>
      refine Turns.still hp rfl fun q tenantId hq haccepting => ?_
      obtain rfl := Option.some.inj hq
      exact haccepting
    · exact .refl s
  · next p fault now hp =>
    unfold ControlPlane.retain
    split
    · next u state' hrun =>
      rcases mutateState_cases hrun with ⟨-, -, hm, -⟩ | ⟨⟨_, hr⟩, -⟩
      · obtain rfl := Except.ok.inj hm
        refine Turns.still hp (tenantStatus_retention s.state now) fun q tenantId hq haccepting => ?_
        obtain rfl := Option.some.inj hq
        exact haccepting
      · cases hr
    · next error state' hrun =>
      rcases mutateState_cases hrun with ⟨hr, -⟩ | ⟨-, rfl⟩
      · cases hr
      · exact .refl s
  · next p i fault hp =>
    unfold ControlPlane.removeRetained
    split
    · refine Turns.still hp rfl fun q tenantId hq haccepting => ?_
      obtain rfl := Option.some.inj hq
      exact haccepting
    · refine Turns.still hp rfl fun q tenantId hq haccepting => ?_
      obtain rfl := Option.some.inj hq
      exact haccepting
  · exact .refl s

/-! ## Operations -/

/-- What a step does to the record of an operation. -/
inductive Changes (c : Settings) (a : Action) (s : ControlPlane) (id : String) :
    Option Operation → Option Operation → Prop
  | stays (x : Option Operation) : Changes c a s id x x
  | forgotten (r : Operation) : r.status.completed = true → Changes c a s id (some r) none
  | recorded (p : Process) (i : ℕ) (call : Call) (faults : RecordFaults) (fault : Option String)
      (now : ℚ) : s.process = some p → a = .call i faults fault now → p.calls[i]? = some call →
      call.place = .admitted → id = c.tokenHex s.tokens →
      Changes c a s id none (some (call.request.operation id now))
  | resets (r : Operation) : s.process = none → Changes c a s id (some r) (some r.reset)
  | begins (p : Process) (operation r : Operation) (now : ℚ) : s.process = some p →
      p.worker = .taken operation → operation.operationId = id →
      Changes c a s id (some r) (some (r.updated now .running none))
  | succeeds (p : Process) (operation r : Operation) (now : ℚ) : s.process = some p →
      p.worker = .returned operation → operation.operationId = id →
      Changes c a s id (some r) (some (r.updated now .succeeded none))
  | fails (p : Process) (operation r : Operation) (error : String) (now : ℚ) :
      s.process = some p → p.worker = .fails operation error → operation.operationId = id →
      Changes c a s id (some r) (some (r.updated now .failed (some error)))
  | overflows (p : Process) (i : ℕ) (call : Call) (r : Operation) (error : String) (now : ℚ) :
      s.process = some p → p.calls[i]? = some call → call.place = .overflowed id →
      Changes c a s id (some r) (some (r.updated now .failed (some error)))
  | requeues (p : Process) (rest : List String) (r : Operation) (error : String) (now : ℚ)
      (fault : Option String) : s.process = some p → a = .requeue fault now →
      p.requeues = id :: rest → c.maxOperations ≤ p.queue.length →
      Changes c a s id (some r) (some (r.updated now .failed (some error)))

theorem Frame.changes {touched : Option String} (h : Frame touched s.state state') {id : String}
    (hid : some id ≠ touched) : Changes c a s id (s.state.find id) (state'.find id) := by
  cases hfind : state'.find id with
  | some operation =>
    rw [h.old hfind hid]
    exact .stays _
  | none =>
    cases hbefore : s.state.find id with
    | none => exact .stays _
    | some operation =>
      cases hstatus : operation.status.completed with
      | true => exact .forgotten operation hstatus
      | false =>
        rw [h.kept hbefore hid hstatus] at hfind
        cases hfind

theorem Frame.changes_none (h : Frame none s.state state') (id : String) :
    Changes c a s id (s.state.find id) (state'.find id) :=
  h.changes (by simp)

/-- An update changes the operation that it is about. -/
theorem changes_update (hn : Distinct s.state.operations) {operationId : String}
    {status : OperationStatus} {error : Option String} {r : Except String Unit}
    (h : updateOperation c fault now operationId status error s.state = (r, state'))
    (hchange : ∀ record, Changes c a s operationId (some record)
      (some (record.updated now status error))) (id : String) :
    Changes c a s id (s.state.find id) (state'.find id) := by
  rcases updateOperation_cases hn h with ⟨-, hframe, -, record, hbefore, hafter⟩ | ⟨-, rfl⟩
  swap
  · exact .stays _
  by_cases hid : id = operationId
  · rw [hid, hbefore, hafter]
    exact hchange record
  · exact hframe.changes fun heq => hid (Option.some.inj heq)

theorem Works.changes (h : Works c s p fault now s') (hs : Ordered c s.state s.process s.tokens)
    (hp : s.process = some p) (id : String) :
    Changes c a s id (s.state.find id) (s'.state.find id) := by
  have htenant : ∀ state' : ControlState, state'.operations = s.state.operations →
      Changes c a s id (s.state.find id) (state'.find id) := fun state' hops =>
    (Frame.of_eq hs.distinct hops).changes_none id
  cases h with
  | begins hworker hrun =>
    exact changes_update hs.distinct hrun (fun record => .begins p _ record now hp hworker rfl) id
  | succeeds hworker hrun =>
    exact changes_update hs.distinct hrun (fun record => .succeeds p _ record now hp hworker rfl) id
  | fails hworker hrun =>
    exact changes_update hs.distinct hrun (fun record => .fails p _ record _ now hp hworker rfl) id
  | lists _ hrun => exact htenant _ (setTenant_operations hrun)
  | restores _ hrun => exact htenant _ (setTenant_operations hrun)
  | drills _ hrun => exact htenant _ (setTenant_operations hrun)
  | erases _ hrun => exact htenant _ (setTenant_operations hrun)
  | suspends _ hrun => exact htenant _ (setTenant_operations hrun)
  | _ => exact .stays _

theorem Changes.advance (hs : Ordered c s.state s.process s.tokens) (hp : s.process = some p)
    {i : ℕ} {call : Call} (hcall : p.calls[i]? = some call) (faults : RecordFaults) (id : String) :
    Changes c (.call i faults fault now) s id (s.state.find id)
      ((s.advance c p i call faults fault now).state.find id) := by
  unfold ControlPlane.advance
  split
  · next hplace =>
    split
    · next state' hrun =>
      obtain ⟨-, ⟨hr, -⟩ | ⟨-, hframe, hfound⟩⟩ := recordOperation_cases hs.distinct hs.fresh hrun
      · exact (hr rfl).elim
      show Changes _ _ _ _ _ (state'.find id)
      by_cases hid : id = c.tokenHex s.tokens
      · rw [hid, hfound, hs.fresh]
        exact .recorded p i call faults fault now hp rfl hcall hplace rfl
      · exact hframe.changes fun heq => hid (Option.some.inj heq)
    · next state' hrun =>
      obtain ⟨-, ⟨-, hframe⟩ | ⟨hr, -⟩⟩ := recordOperation_cases hs.distinct hs.fresh hrun
      · exact hframe.changes_none id
      · cases hr
    · next error state' hrun =>
      obtain ⟨-, ⟨-, hframe⟩ | ⟨hr, -⟩⟩ := recordOperation_cases hs.distinct hs.fresh hrun
      · exact hframe.changes_none id
      · cases hr
  · split_ifs
    · exact .stays _
    · exact .stays _
  · next operationId hplace =>
    rcases hrun : updateOperation c fault now operationId .failed
      (some "operation queue capacity is exhausted") s.state with ⟨r, state'⟩
    exact changes_update hs.distinct hrun
      (fun record => .overflows p i call record _ now hp hcall hplace) id
  · split
    · next hrun => exact (Frame.of_eq hs.distinct (setTenant_operations hrun)).changes_none id
    · next hrun => exact (Frame.of_eq hs.distinct (setTenant_operations hrun)).changes_none id
  · exact .stays _
  · exact .stays _

theorem Changes.requeue (hs : Ordered c s.state s.process s.tokens) (hp : s.process = some p)
    (id : String) : Changes c (.requeue fault now) s id (s.state.find id)
      ((s.requeue c p fault now).state.find id) := by
  unfold ControlPlane.requeue
  split
  · exact .stays _
  next operationId rest hrequeues =>
  split_ifs with hroom
  · exact .stays _
  split
  all_goals
    next hrun =>
    exact changes_update hs.distinct hrun
      (fun record => .requeues p rest record _ now fault hp rfl hrequeues (not_lt.mp hroom)) id

theorem Changes.restart (hp : s.process = none) (stop : Option ℕ) (id : String) :
    Changes c a s id (s.state.find id) ((s.restart c stop fault).state.find id) := by
  unfold ControlPlane.restart
  cases stop with
  | some count =>
    dsimp only
    rw [(removeAll_state _ s).1]
    exact .stays _
  | none =>
    have hreset : ∀ {fault r state'}, resetIncomplete c fault s.state = (r, state') →
        Changes c a s id (s.state.find id) (state'.find id) := by
      intro fault r state' hrun
      obtain ⟨-, ⟨-, rfl⟩ | ⟨-, hops⟩⟩ := resetIncomplete_cases hrun
      · exact .stays _
      rw [find_reset hops]
      cases s.state.find id with
      | none => exact .stays _
      | some record => exact .resets record hp
    dsimp only
    split
    · next hrun => exact hreset hrun
    · next hrun => exact hreset hrun

theorem Changes.step (hs : Ordered c s.state s.process s.tokens) (hv : Valid c s.state) (a : Action)
    (id : String) : Changes c a s id (s.state.find id) ((s.step c a).state.find id) := by
  unfold ControlPlane.step
  split
  · next stop fault hp => exact Changes.restart hp stop id
  · exact .stays _
  · exact .stays _
  · next p fault now hp => exact Changes.requeue hs hp id
  · next p fault now hp => exact (works hs hv hp).changes hs hp id
  · next p r fault hp =>
    split_ifs
    · unfold ControlPlane.request
      by_cases hknown : r.tenantId ∉ c.tenantIds
      · rw [if_pos hknown]
        exact .stays _
      rw [if_neg hknown]
      by_cases hkind : r.kind = .tenantDelete
      swap
      · rw [if_neg hkind]
        split_ifs <;> exact .stays _
      rw [if_pos hkind]
      by_cases hactive : (s.state.tenants r.tenantId).status ≠ .active
      · rw [if_pos hactive]
        exact .stays _
      rw [if_neg hactive]
      split
      · next hrun => exact (Frame.of_eq hs.distinct (setTenant_operations hrun)).changes_none id
      · next hrun => exact (Frame.of_eq hs.distinct (setTenant_operations hrun)).changes_none id
    · exact .stays _
  · next p i faults fault now hp =>
    split
    · next call hcall => exact Changes.advance hs hp hcall faults id
    · exact .stays _
  · split <;> exact .stays _
  · next p fault now hp =>
    unfold ControlPlane.retain
    split
    · next u state' hrun =>
      rcases mutateState_cases hrun with ⟨-, -, hm, -⟩ | ⟨⟨_, hr⟩, -⟩
      · obtain rfl := Except.ok.inj hm
        exact ((pruned_retainOperations _).frame hs.distinct).changes_none id
      · cases hr
    · next error state' hrun =>
      rcases mutateState_cases hrun with ⟨hr, -⟩ | ⟨-, rfl⟩
      · cases hr
      · exact .stays _
  · unfold ControlPlane.removeRetained
    split <;> exact .stays _
  · exact .stays _

/-! ## The place of the worker -/

/-- The worker is idle, where it was, or one step further. -/
theorem worker_step (hs : Ordered c s.state s.process s.tokens) (hv : Valid c s.state) (a : Action)
    {q : Process} (hq : (s.step c a).process = some q) :
    q.worker = .idle ∨ (∃ p, s.process = some p ∧ q.worker = p.worker) ∨
      ∃ p fault now, a = .work fault now ∧ s.process = some p ∧
        Works c s p fault now (s.step c a) := by
  have hsame : ∀ {p : Process}, s.process = some p → s.process = some q →
      ∃ p, s.process = some p ∧ q.worker = p.worker := fun _ h => ⟨q, h, rfl⟩
  unfold ControlPlane.step at hq ⊢
  split at hq
  · next stop fault hp =>
    left
    unfold ControlPlane.restart at hq
    cases stop with
    | some count =>
      rw [(removeAll_state _ s).2.2.1, hp] at hq
      cases hq
    | none =>
      dsimp only at hq
      split at hq
      · obtain rfl := Option.some.inj hq
        rfl
      · rw [(removeAll_state _ s).2.2.1, hp] at hq
        cases hq
  · next hp _ =>
    rw [hp] at hq
    cases hq
  · cases hq
  · next p fault now hp =>
    refine .inr (.inl ⟨p, hp, ?_⟩)
    unfold ControlPlane.requeue at hq
    split at hq
    · rw [hp] at hq
      obtain rfl := Option.some.inj hq
      rfl
    split_ifs at hq
    · obtain rfl := Option.some.inj hq
      rfl
    split at hq
    · obtain rfl := Option.some.inj hq
      rfl
    · cases hq
  · next p fault now hp =>
    exact .inr (.inr ⟨p, fault, now, rfl, hp, works hs hv hp⟩)
  · next p r fault hp =>
    refine .inr (.inl ?_)
    split_ifs at hq
    swap
    · exact hsame hp hq
    unfold ControlPlane.request at hq
    by_cases hknown : r.tenantId ∉ c.tenantIds
    · rw [if_pos hknown] at hq
      exact hsame hp hq
    rw [if_neg hknown] at hq
    by_cases hkind : r.kind = .tenantDelete
    · rw [if_pos hkind] at hq
      by_cases hactive : (s.state.tenants r.tenantId).status ≠ .active
      · rw [if_pos hactive] at hq
        exact hsame hp hq
      rw [if_neg hactive] at hq
      split at hq
      · obtain rfl := Option.some.inj hq
        exact ⟨p, hp, rfl⟩
      · exact hsame hp hq
    · rw [if_neg hkind] at hq
      split_ifs at hq
      · exact hsame hp hq
      · obtain rfl := Option.some.inj hq
        exact ⟨p, hp, rfl⟩
  · next p i faults fault now hp =>
    refine .inr (.inl ?_)
    split at hq
    swap
    · exact hsame hp hq
    unfold ControlPlane.advance at hq
    split at hq
    · split at hq
      all_goals
        obtain rfl := Option.some.inj hq
        exact ⟨p, hp, rfl⟩
    · split_ifs at hq
      all_goals
        obtain rfl := Option.some.inj hq
        exact ⟨p, hp, rfl⟩
    · obtain rfl := Option.some.inj hq
      exact ⟨p, hp, rfl⟩
    · split at hq
      all_goals
        obtain rfl := Option.some.inj hq
        exact ⟨p, hp, rfl⟩
    · exact hsame hp hq
    · exact hsame hp hq
  · next p tenantId now hp =>
    refine .inr (.inl ?_)
    split at hq
    · obtain rfl := Option.some.inj hq
      exact ⟨p, hp, rfl⟩
    · exact hsame hp hq
  · next p fault now hp =>
    refine .inr (.inl ?_)
    unfold ControlPlane.retain at hq
    split at hq
    · obtain rfl := Option.some.inj hq
      exact ⟨p, hp, rfl⟩
    · exact hsame hp hq
  · next p i fault hp =>
    refine .inr (.inl ?_)
    unfold ControlPlane.removeRetained at hq
    split at hq
    all_goals
      obtain rfl := Option.some.inj hq
      exact ⟨p, hp, rfl⟩
  · next p hp => exact .inr (.inl (hsame hp hq))

end Managed
end Controlplane
end MegaCache
