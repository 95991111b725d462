import MegaCache.Controlplane.Calls
import MegaCache.Controlplane.Deletions

/-!
# What became of an operation

An operation that has succeeded has done what it is there to do.  One that has failed may have
done it as well, when a step of it failed after that; where no such step fails, it has not, and
what an operation has come to never changes.
-/

namespace MegaCache
namespace Controlplane
namespace Managed

variable {c : Settings} {s s' : ControlPlane} {p q : Process} {fault : Option String} {now : ℚ}
  {a : Action} {operation : Operation}

/-! ## Effects -/

/-- Nothing that a handler does is done to the tenants. -/
structure Leaves (s s' : ControlPlane) : Prop where
  effects : s'.effects = s.effects
  listed : ∀ tenantId, (s'.state.tenants tenantId).listed ⊆ (s.state.tenants tenantId).listed
  drills : ∀ tenantId, (s'.state.tenants tenantId).drills = (s.state.tenants tenantId).drills
  lastRestore : ∀ tenantId,
    (s'.state.tenants tenantId).lastRestore = (s.state.tenants tenantId).lastRestore
  deleted : ∀ tenantId, (s'.state.tenants tenantId).status = .deleted →
    (s.state.tenants tenantId).status = .deleted

theorem Leaves.of_tenants (heffects : s'.effects = s.effects)
    (h : s'.state.tenants = s.state.tenants) : Leaves s s' := by
  refine ⟨heffects, ?_, ?_, ?_, ?_⟩
  all_goals
    rw [h]
    simp

/-- A mutation of one tenant. -/
theorem Leaves.of_setTenant {tenantId : String} {f : TenantState → TenantState}
    {r : Except String Unit} {state' : ControlState}
    (hrun : mutateState c fault (fun state => pure (state.setTenant tenantId f)) s.state =
      (r, state')) (hstate : s'.state = state') (heffects : s'.effects = s.effects)
    (hf : ∀ tenant, (f tenant).listed ⊆ tenant.listed ∧ (f tenant).drills = tenant.drills ∧
      (f tenant).lastRestore = tenant.lastRestore ∧
        ((f tenant).status = .deleted → tenant.status = .deleted)) : Leaves s s' := by
  subst hstate
  rcases setTenant_cases hrun with ⟨-, hset⟩ | ⟨-, hsame⟩
  swap
  · exact .of_tenants heffects (by rw [hsame])
  have htenant : ∀ other, (s'.state.tenants other).listed ⊆ (s.state.tenants other).listed ∧
      (s'.state.tenants other).drills = (s.state.tenants other).drills ∧
      (s'.state.tenants other).lastRestore = (s.state.tenants other).lastRestore ∧
      ((s'.state.tenants other).status = .deleted → (s.state.tenants other).status = .deleted) := by
    intro other
    rw [hset]
    by_cases h : other = tenantId
    · rw [h, setTenant_self]
      exact hf _
    · rw [setTenant_ne _ h]
      exact ⟨List.Subset.refl _, rfl, rfl, id⟩
  exact ⟨heffects, fun other => (htenant other).1, fun other => (htenant other).2.1,
    fun other => (htenant other).2.2.1, fun other => (htenant other).2.2.2⟩

theorem Leaves.refl (s : ControlPlane) : Leaves s s := .of_tenants rfl rfl

theorem leaves_retention (s : ControlPlane) (now : ℚ) (process : Option Process) :
    Leaves s { s with state := retention c now s.state, process := process } := by
  refine ⟨rfl, fun tenantId => ?_, fun tenantId => ?_, fun tenantId => ?_, fun tenantId => ?_⟩
  · exact ((shrinks_retention s.state now).listed tenantId).subset
  all_goals
    unfold retention retainTenant
    dsimp only
    split_ifs <;> simp

theorem Leaves.restart (stop : Option ℕ) : Leaves s (s.restart c stop fault) := by
  unfold ControlPlane.restart
  cases stop with
  | some count =>
    dsimp only
    exact .of_tenants (removeAll_state _ s).2.2.2 (by rw [(removeAll_state _ s).1])
  | none =>
    dsimp only
    split
    · next hrun => exact .of_tenants (removeAll_state _ s).2.2.2 (resetIncomplete_cases hrun).1
    · next hrun => exact .of_tenants (removeAll_state _ s).2.2.2 (resetIncomplete_cases hrun).1

theorem Leaves.requeue (p : Process) : Leaves s (s.requeue c p fault now) := by
  unfold ControlPlane.requeue
  split
  · exact .refl s
  split_ifs
  · exact .of_tenants rfl rfl
  split
  all_goals
    next hrun => exact .of_tenants rfl (updateOperation_tenants hrun)

theorem Leaves.request (p : Process) (r : Request) : Leaves s (s.request c p r fault) := by
  unfold ControlPlane.request
  by_cases hknown : r.tenantId ∉ c.tenantIds
  · rw [if_pos hknown]
    exact .refl s
  rw [if_neg hknown]
  by_cases hkind : r.kind = .tenantDelete
  · rw [if_pos hkind]
    by_cases hactive : (s.state.tenants r.tenantId).status ≠ .active
    · rw [if_pos hactive]
      exact .refl s
    rw [if_neg hactive]
    split
    · next hrun => exact .of_setTenant hrun rfl rfl (by simp [TenantState.listed])
    · next hrun => exact .of_setTenant hrun rfl rfl (by simp [TenantState.listed])
  · rw [if_neg hkind]
    split_ifs
    · exact .refl s
    · exact .of_tenants rfl rfl

theorem Leaves.advance (hs : Ordered c s.state s.process s.tokens) (p : Process) (i : ℕ)
    (call : Call) (faults : RecordFaults) : Leaves s (s.advance c p i call faults fault now) := by
  unfold ControlPlane.advance
  split
  · split
    all_goals
      next hrun => exact .of_tenants rfl (recordOperation_cases hs.distinct hs.fresh hrun).1
  · split_ifs
    · exact .of_tenants rfl rfl
    · exact .of_tenants rfl rfl
  · exact .of_tenants rfl (updateOperation_tenants rfl)
  · split
    · next hrun => exact .of_setTenant hrun rfl rfl (by simp [TenantState.listed])
    · next hrun => exact .of_setTenant hrun rfl rfl (by simp [TenantState.listed])
  · exact .refl s
  · exact .refl s

/-- Only the worker does what handlers do. -/
theorem leaves_or_works (hs : Ordered c s.state s.process s.tokens) (hv : Valid c s.state)
    (a : Action) : Leaves s (s.step c a) ∨ ∃ p fault now, a = .work fault now ∧
      s.process = some p ∧ Works c s p fault now (s.step c a) := by
  unfold ControlPlane.step
  split
  · next stop fault hp => exact .inl (.restart stop)
  · exact .inl (.refl s)
  · exact .inl (.of_tenants rfl rfl)
  · next p fault now hp => exact .inl (.requeue p)
  · next p fault now hp => exact .inr ⟨p, fault, now, rfl, hp, works hs hv hp⟩
  · next p r fault hp =>
    split_ifs
    · exact .inl (.request p r)
    · exact .inl (.refl s)
  · next p i faults fault now hp =>
    split
    · next call hcall => exact .inl (.advance hs p i call faults)
    · exact .inl (.refl s)
  · split
    · exact .inl (.of_tenants rfl rfl)
    · exact .inl (.refl s)
  · next p fault now hp =>
    left
    unfold ControlPlane.retain
    split
    · next hrun =>
      rcases mutateState_cases hrun with ⟨-, -, hm, -⟩ | ⟨⟨_, hr⟩, -⟩
      · obtain rfl := Except.ok.inj hm
        exact leaves_retention s now _
      · cases hr
    · next hrun =>
      rcases mutateState_cases hrun with ⟨hr, -⟩ | ⟨-, rfl⟩
      · cases hr
      · exact .refl s
  · unfold ControlPlane.removeRetained
    split
    · exact .inl (.of_tenants rfl rfl)
    · exact .inl (.of_tenants rfl rfl)
  · exact .inl (.refl s)

/-- What a step of the worker does to the tenants and the effects. -/
inductive Adds (s : ControlPlane) (p : Process) (s' : ControlPlane) : Prop
  | leaves : Leaves s s' → Adds s p s'
  | logs (operation : Operation) : p.worker.operation = some operation →
      s.state.status operation.operationId = some .running →
      s'.state.operations = s.state.operations → s'.effects = s.effects ++ [operation.effect] →
      (∀ tenantId, ∀ item ∈ (s'.state.tenants tenantId).listed,
        item ∈ (s.state.tenants tenantId).listed ∨ p.worker = .lists operation item) →
      (∀ tenantId, ∀ id ∈ (s'.state.tenants tenantId).drills,
        id ∈ (s.state.tenants tenantId).drills ∨ id = operation.operationId) →
      (∀ tenantId, (s'.state.tenants tenantId).lastRestore =
        (s.state.tenants tenantId).lastRestore) →
      (∀ tenantId, (s'.state.tenants tenantId).status = .deleted →
        (s.state.tenants tenantId).status = .deleted ∨
          operation.kind = .tenantDelete ∧ operation.tenantId = tenantId) → Adds s p s'
  | restores (operation : Operation) : p.worker = .replaced operation → s'.effects = s.effects →
      (∀ tenantId, (s'.state.tenants tenantId).listed = (s.state.tenants tenantId).listed ∧
        (s'.state.tenants tenantId).drills = (s.state.tenants tenantId).drills ∧
          (s'.state.tenants tenantId).status = (s.state.tenants tenantId).status) →
      (∀ tenantId id, (s'.state.tenants tenantId).lastRestore = some id →
        (s.state.tenants tenantId).lastRestore = some id ∨ id = operation.operationId) →
      Adds s p s'

/-- What a mutation of one tenant does to each. -/
theorem tenant_cases {tenantId : String} {f : TenantState → TenantState} {state' : ControlState}
    (hrun : mutateState c fault (fun state => pure (state.setTenant tenantId f)) s.state =
      (.ok (), state')) (other : String) :
    other = tenantId ∧ state'.tenants other = f (s.state.tenants other) ∨
      state'.tenants other = s.state.tenants other := by
  rcases setTenant_cases hrun with ⟨-, rfl⟩ | ⟨⟨_, hr⟩, -⟩
  swap
  · cases hr
  by_cases h : other = tenantId
  · subst h
    exact .inl ⟨rfl, setTenant_self _ _ _⟩
  · exact .inr (setTenant_ne _ h _)

theorem Works.adds (h : Works c s p fault now s') (hs : Ordered c s.state s.process s.tokens)
    (hp : s.process = some p) (hsuits : p.worker.suits) : Adds s p s' := by
  have hrunning : ∀ operation, p.worker.operation = some operation →
      p.worker.expects (s.state.status operation.operationId) :=
    fun operation hown => (hs.placed p hp).expects operation hown
  cases h with
  | stays => exact .leaves (.refl s)
  | begins _ hrun => exact .leaves (.of_tenants rfl (updateOperation_tenants hrun))
  | succeeds _ hrun => exact .leaves (.of_tenants rfl (updateOperation_tenants hrun))
  | fails _ hrun => exact .leaves (.of_tenants rfl (updateOperation_tenants hrun))
  | suspends _ hrun =>
    refine .leaves (.of_setTenant hrun rfl rfl fun tenant => ?_)
    split_ifs <;> simp [TenantState.listed]
  | @replaces operation hworker hkind =>
    have hown : p.worker.operation = some operation := by rw [hworker]; rfl
    have hstatus := hrunning operation hown
    rw [hworker] at hstatus
    exact .logs operation hown hstatus rfl rfl (fun _ _ => .inl)
      (fun _ _ => .inl) (fun _ => rfl) fun _ => .inl
  | @lists operation record state' hworker hrun =>
    have hown : p.worker.operation = some operation := by rw [hworker]; rfl
    have hstatus := hrunning operation hown
    rw [hworker] at hstatus
    have hlists : Lists c s p operation record (ControlPlane.goto
        (ControlPlane.log { s with state := state' } operation) p
          (.trims operation (s.fallen c operation.tenantId record.createdAt record))) := by
      refine ⟨hworker, ?_, rfl, rfl, rfl⟩
      rcases list_cases hrun with ⟨-, hstate⟩ | ⟨⟨_, hr⟩, -⟩
      · exact hstate
      · cases hr
    have hsame : ∀ other, (state'.tenants other).drills = (s.state.tenants other).drills ∧
        (state'.tenants other).lastRestore = (s.state.tenants other).lastRestore ∧
        (state'.tenants other).status = (s.state.tenants other).status := by
      intro other
      rcases tenant_cases hrun other with ⟨-, h⟩ | h
      · rw [h]
        unfold TenantState.setItems
        cases record.kind <;> exact ⟨rfl, rfl, rfl⟩
      · rw [h]
        exact ⟨rfl, rfl, rfl⟩
    refine .logs operation hown hstatus (setTenant_operations hrun) rfl
      (fun tenantId item hitem => ?_) (fun tenantId id hid => .inl ((hsame tenantId).1 ▸ hid))
      (fun tenantId => (hsame tenantId).2.1) fun tenantId h => .inl ((hsame tenantId).2.2 ▸ h)
    rcases hlists.old hitem with hold | ⟨-, rfl⟩
    · exact .inl hold
    · exact .inr hworker
  | @restores operation state' hworker hrun =>
    refine .restores operation hworker rfl (fun other => ?_) fun other id hid => ?_
    · show (state'.tenants other).listed = _ ∧ (state'.tenants other).drills = _ ∧
        (state'.tenants other).status = _
      rcases tenant_cases hrun other with ⟨-, h⟩ | h
      all_goals
        rw [h]
        exact ⟨rfl, rfl, rfl⟩
    · have hid' : (state'.tenants other).lastRestore = some id := hid
      rcases tenant_cases hrun other with ⟨-, h⟩ | h
      all_goals rw [h] at hid'
      · exact .inr (Option.some.inj hid').symm
      · exact .inl hid'
  | @drills operation state' hworker hrun =>
    have hown : p.worker.operation = some operation := by rw [hworker]; rfl
    have hstatus := hrunning operation hown
    rw [hworker] at hstatus
    have hsame : ∀ other, (state'.tenants other).listed = (s.state.tenants other).listed ∧
        (state'.tenants other).lastRestore = (s.state.tenants other).lastRestore ∧
        (state'.tenants other).status = (s.state.tenants other).status := by
      intro other
      rcases tenant_cases hrun other with ⟨-, h⟩ | h
      all_goals
        rw [h]
        exact ⟨rfl, rfl, rfl⟩
    refine .logs operation hown hstatus (setTenant_operations hrun) rfl
      (fun other item hitem => .inl ((hsame other).1 ▸ hitem)) (fun other id hid => ?_)
      (fun other => (hsame other).2.1) fun other h => .inl ((hsame other).2.2 ▸ h)
    have hid' : id ∈ (state'.tenants other).drills := hid
    rcases tenant_cases hrun other with ⟨-, h⟩ | h
    all_goals rw [h] at hid'
    · rcases List.mem_append.mp (List.mem_of_mem_drop hid') with hid' | hid'
      · exact .inl hid'
      · exact .inr (List.mem_singleton.mp hid')
    · exact .inl hid'
  | @erases operation state' hworker hrun =>
    have hown : p.worker.operation = some operation := by rw [hworker]; rfl
    have hstatus := hrunning operation hown
    rw [hworker] at hstatus hsuits
    have hsame : ∀ other, (state'.tenants other).listed ⊆ (s.state.tenants other).listed ∧
        (state'.tenants other).drills = (s.state.tenants other).drills ∧
        (state'.tenants other).lastRestore = (s.state.tenants other).lastRestore ∧
        ((state'.tenants other).status = .deleted → (s.state.tenants other).status = .deleted ∨
          operation.kind = .tenantDelete ∧ operation.tenantId = other) := by
      intro other
      rcases tenant_cases hrun other with ⟨ht, h⟩ | h
      · rw [h]
        exact ⟨List.nil_subset _, rfl, rfl, fun _ => .inr ⟨hsuits, ht.symm⟩⟩
      · rw [h]
        exact ⟨List.Subset.refl _, rfl, rfl, .inl⟩
    exact .logs operation hown hstatus (setTenant_operations hrun) rfl
      (fun other item hitem => .inl ((hsame other).1 hitem))
      (fun other id hid => .inl ((hsame other).2.1 ▸ hid)) (fun other => (hsame other).2.2.1)
      fun other => (hsame other).2.2.2
  | _ => exact .leaves (.of_tenants rfl rfl)

theorem adds_step (hs : Ordered c s.state s.process s.tokens) (hv : Valid c s.state)
    (hsuits : ∀ p, s.process = some p → p.worker.suits) (a : Action) :
    Leaves s (s.step c a) ∨ ∃ p, s.process = some p ∧ Adds s p (s.step c a) := by
  rcases leaves_or_works hs hv a with h | ⟨p, fault, now, -, hp, hworks⟩
  · exact .inl h
  · exact .inr ⟨p, hp, hworks.adds hs hp (hsuits p hp)⟩

theorem effects_step (hs : Ordered c s.state s.process s.tokens) (hv : Valid c s.state)
    (hsuits : ∀ p, s.process = some p → p.worker.suits) (a : Action) :
    (s.step c a).effects = s.effects ∨ ∃ p operation, s.process = some p ∧
      p.worker.operation = some operation ∧
      s.state.status operation.operationId = some .running ∧
      (s.step c a).state.operations = s.state.operations ∧
      (s.step c a).effects = s.effects ++ [operation.effect] := by
  rcases adds_step hs hv hsuits a with h | ⟨p, hp, h⟩
  · exact .inl h.effects
  cases h with
  | leaves h => exact .inl h.effects
  | logs operation hown hstatus hops heffects =>
    exact .inr ⟨p, operation, hp, hown, hstatus, hops, heffects⟩
  | restores operation hworker heffects => exact .inl heffects

/-! ## What has succeeded -/

/-- The operation has done what it is there to do.  A validation does nothing, and a deletion is
done when any deletion of the tenant is. -/
def Done (effects : List Effect) (operation : Operation) : Prop :=
  operation.kind = .restoreValidate ∨ ∃ effect ∈ effects, effect.kind = operation.kind ∧
    effect.tenantId = operation.tenantId ∧
      (effect.operationId = operation.operationId ∨ operation.kind = .tenantDelete)

theorem Done.mono {effects effects' : List Effect} (h : Done effects operation)
    (hsub : effects ⊆ effects') : Done effects' operation :=
  h.imp_right fun ⟨effect, hmem, heffect⟩ => ⟨effect, hsub hmem, heffect⟩

theorem Done.of_effect {effects : List Effect} (h : operation.effect ∈ effects) :
    Done effects operation :=
  .inr ⟨_, h, rfl, rfl, .inl rfl⟩

/-- What the place of the worker says about the effects. -/
def WorkerPlace.Bears (effects : List Effect) : WorkerPlace → Prop
  | .lists operation record => record.operationId = operation.operationId
  | .trims operation _ | .replaced operation => operation.effect ∈ effects
  | .returned operation | .audits operation => Done effects operation
  | _ => True

theorem WorkerPlace.Bears.mono {effects effects' : List Effect} {place : WorkerPlace}
    (h : place.Bears effects) (hsub : effects ⊆ effects') : place.Bears effects' := by
  cases place with
  | trims | replaced => exact hsub h
  | returned | audits => exact Done.mono h hsub
  | _ => exact h

theorem bears_raised (effects : List Effect) (operation : Operation) (error : String) :
    (ControlPlane.raised operation error).Bears effects := by
  rcases raised_cases operation error with h | h
  all_goals
    rw [h]
    trivial

def Performed (effects : List Effect) (id : String) : Prop :=
  ∃ effect ∈ effects, effect.operationId = id

/-- What is recorded of a tenant was done by some operation. -/
structure Accounted (effects : List Effect) (tenantId : String) (tenant : TenantState) : Prop where
  listed : ∀ item ∈ tenant.listed, Performed effects item.operationId
  drilled : ∀ id ∈ tenant.drills, Performed effects id
  restored : ∀ id, tenant.lastRestore = some id → Performed effects id
  deleted : tenant.status = .deleted →
    ∃ effect ∈ effects, effect.kind = .tenantDelete ∧ effect.tenantId = tenantId

/-- The invariant of the effects. -/
structure Effected (c : Settings) (s : ControlPlane) : Prop where
  drawn : ∀ effect ∈ s.effects, Drawn c s.tokens effect.operationId
  agrees : ∀ effect ∈ s.effects, ∀ r, s.state.find effect.operationId = some r → r.effect = effect
  accounted : ∀ tenantId, Accounted s.effects tenantId (s.state.tenants tenantId)
  bears : ∀ p, s.process = some p → p.worker.Bears s.effects
  succeeded : ∀ id r, s.state.find id = some r → r.status = .succeeded → Done s.effects r

/-- An effect of the operation that the worker is at. -/
theorem Effected.done (h : Effected c s) (hs : Ordered c s.state s.process s.tokens)
    (hp : s.process = some p) (hown : p.worker.operation = some operation)
    (hstatus : s.state.status operation.operationId = some .running) {effect : Effect}
    (hmem : effect ∈ s.effects) (hid : effect.operationId = operation.operationId) :
    Done s.effects operation := by
  obtain ⟨r, hfind, -⟩ := ControlState.status_eq_some.mp hstatus
  obtain ⟨hkind, htenant⟩ := (hs.placed p hp).copied operation hown r hfind
  have heq := h.agrees effect hmem r (hid ▸ hfind)
  exact .inr ⟨effect, hmem, by rw [← heq, ← hkind]; rfl, by rw [← heq, ← htenant]; rfl, .inl hid⟩

/-- A handler that finds nothing to do has done it before. -/
theorem Effected.found (h : Effected c s) (hs : Ordered c s.state s.process s.tokens)
    (hp : s.process = some p) (hworker : p.worker = .starts operation)
    (hfound : s.Found operation) : Done s.effects operation := by
  have hown : p.worker.operation = some operation := by rw [hworker]; rfl
  have hstatus := (hs.placed p hp).expects operation hown
  rw [hworker] at hstatus
  have hdone : ∀ effect ∈ s.effects, effect.operationId = operation.operationId →
      Done s.effects operation := fun effect hmem hid => h.done hs hp hown hstatus hmem hid
  unfold ControlPlane.Found at hfound
  cases hkind : operation.kind with
  | backup =>
    rw [hkind] at hfound
    obtain ⟨item, hitem, hid⟩ := hfound
    obtain ⟨effect, hmem, heq⟩ := (h.accounted _).listed item (List.mem_append_left _ hitem)
    exact hdone effect hmem (heq.trans hid)
  | dataExport | auditExport =>
    rw [hkind] at hfound
    obtain ⟨item, hitem, hid⟩ := hfound
    obtain ⟨effect, hmem, heq⟩ := (h.accounted _).listed item (List.mem_append_right _ hitem)
    exact hdone effect hmem (heq.trans hid)
  | restoreValidate => exact .inl hkind
  | restore =>
    rw [hkind] at hfound
    obtain ⟨effect, hmem, heq⟩ := (h.accounted _).restored _ hfound
    exact hdone effect hmem heq
  | drDrill =>
    rw [hkind] at hfound
    obtain ⟨effect, hmem, heq⟩ := (h.accounted _).drilled _ hfound
    exact hdone effect hmem heq
  | tenantDelete =>
    rw [hkind] at hfound
    obtain ⟨effect, hmem, heq, htenant⟩ := (h.accounted _).deleted hfound
    exact .inr ⟨effect, hmem, heq.trans hkind.symm, htenant, .inr hkind⟩

section Step

variable (hs : Ordered c s.state s.process s.tokens) (hv : Valid c s.state)
  (hsuits : ∀ p, s.process = some p → p.worker.suits) (h : Effected c s)
include hs hv hsuits

/-- Effects are only added. -/
theorem effects_sub (a : Action) : s.effects ⊆ (s.step c a).effects := by
  rcases effects_step hs hv hsuits a with heq | ⟨p, operation, -, -, -, -, heq⟩
  · rw [heq]
    exact List.Subset.refl _
  · rw [heq]
    exact List.subset_append_left _ _

include h

theorem Effected.drawn_step {effect : Effect} (hmem : effect ∈ (s.step c a).effects) :
    Drawn c (s.step c a).tokens effect.operationId := by
  have hle := (Moved.step hs a).tokens_le
  rcases effects_step hs hv hsuits a with heq | ⟨p, operation, hp, hown, -, -, heq⟩
  · rw [heq] at hmem
    exact (h.drawn effect hmem).mono hle
  · rw [heq] at hmem
    rcases List.mem_append.mp hmem with hmem | hmem
    · exact (h.drawn effect hmem).mono hle
    · rw [List.mem_singleton.mp hmem]
      exact (hs.own p operation hp hown).mono hle

theorem Effected.agrees_step {effect : Effect} (hmem : effect ∈ (s.step c a).effects)
    {r : Operation} (hfind : (s.step c a).state.find effect.operationId = some r) :
    r.effect = effect := by
  rcases effects_step hs hv hsuits a with heq | ⟨p, operation, hp, hown, -, hops, heq⟩
  · rw [heq] at hmem
    have hchange := Changes.step hs hv a effect.operationId
    rw [hfind] at hchange
    generalize hbefore : s.state.find effect.operationId = before at hchange
    cases hchange with
    | stays => exact h.agrees effect hmem r hbefore
    | recorded p i call faults fault now hp ha hcall hplace hid =>
      -- the effect's token was drawn before this one
      have hdrawn := h.drawn effect hmem
      rw [hid] at hdrawn
      exact (not_drawn c _ hdrawn).elim
    | resets r hp =>
      rw [← h.agrees effect hmem r hbefore]
      unfold Operation.reset
      split_ifs <;> rfl
    | begins p other r now => exact h.agrees effect hmem r hbefore
    | succeeds p other r now => exact h.agrees effect hmem r hbefore
    | fails p other r error now => exact h.agrees effect hmem r hbefore
    | overflows p i call r error now => exact h.agrees effect hmem r hbefore
    | requeues p rest r error now fault => exact h.agrees effect hmem r hbefore
  · have hsame : s.state.find effect.operationId = some r := by
      rw [← hfind]
      unfold ControlState.find
      rw [hops]
    rw [heq] at hmem
    rcases List.mem_append.mp hmem with hmem | hmem
    · exact h.agrees effect hmem r hsame
    · obtain rfl := List.mem_singleton.mp hmem
      obtain ⟨-, hid⟩ := ControlState.find_eq_some hsame
      obtain ⟨hkind, htenant⟩ := (hs.placed p hp).copied operation hown r hsame
      unfold Operation.effect at hid ⊢
      rw [hid, hkind, htenant]

theorem Effected.accounted_step (tenantId : String) :
    Accounted (s.step c a).effects tenantId ((s.step c a).state.tenants tenantId) := by
  have hsub := effects_sub hs hv hsuits a
  have hold : ∀ {P : Effect → Prop}, (∃ effect ∈ s.effects, P effect) →
      ∃ effect ∈ (s.step c a).effects, P effect :=
    fun ⟨effect, hmem, heffect⟩ => ⟨effect, hsub hmem, heffect⟩
  obtain ⟨hlisted, hdrilled, hrestored, hdeleted⟩ := h.accounted tenantId
  have hleaves : Leaves s (s.step c a) →
      Accounted (s.step c a).effects tenantId ((s.step c a).state.tenants tenantId) := fun hl =>
    ⟨fun item hitem => hold (hlisted item (hl.listed tenantId hitem)),
      fun id hid => hold (hdrilled id (hl.drills tenantId ▸ hid)),
      fun id hid => hold (hrestored id (hl.lastRestore tenantId ▸ hid)),
      fun hgone => hold (hdeleted (hl.deleted tenantId hgone))⟩
  rcases adds_step hs hv hsuits a with hl | ⟨p, hp, hadds⟩
  · exact hleaves hl
  cases hadds with
  | leaves hl => exact hleaves hl
  | logs operation hown hstatus hops heffects hitems hdrills hrestore hgones =>
    have hnew : operation.effect ∈ (s.step c a).effects := by
      rw [heffects]
      exact List.mem_append_right _ (List.mem_singleton_self _)
    refine ⟨fun item hitem => ?_, fun id hid => ?_, fun id hid => ?_, fun hgone => ?_⟩
    · rcases hitems tenantId item hitem with hitem | hworker
      · exact hold (hlisted item hitem)
      -- the record that the worker lists bears the name of its operation
      · have hbears := h.bears p hp
        rw [hworker] at hbears
        exact ⟨_, hnew, hbears.symm⟩
    · rcases hdrills tenantId id hid with hid | rfl
      · exact hold (hdrilled id hid)
      · exact ⟨_, hnew, rfl⟩
    · rw [hrestore] at hid
      exact hold (hrestored id hid)
    · rcases hgones tenantId hgone with hgone | ⟨hkind, htenant⟩
      · exact hold (hdeleted hgone)
      · exact ⟨_, hnew, hkind, htenant⟩
  | restores operation hworker heffects hsame hrestore =>
    obtain ⟨hitems, hdrills, hstatus⟩ := hsame tenantId
    refine ⟨fun item hitem => hold (hlisted item (hitems ▸ hitem)),
      fun id hid => hold (hdrilled id (hdrills ▸ hid)), fun id hid => ?_,
      fun hgone => hold (hdeleted (hstatus ▸ hgone))⟩
    rcases hrestore tenantId id hid with hid | rfl
    · exact hold (hrestored id hid)
    · have hbears := h.bears p hp
      rw [hworker] at hbears
      exact hold ⟨_, hbears, rfl⟩

omit hv hsuits in
theorem Effected.bears_works (hw : Works c s p fault now s') (hp : s.process = some p)
    (hsub : s.effects ⊆ s'.effects) (hq : s'.process = some q) : q.worker.Bears s'.effects := by
  have hbefore := h.bears p hp
  cases hw with
  | stays =>
    obtain rfl := Option.some.inj (hp.symm.trans hq)
    exact hbefore
  | skips hworker _ _ =>
    obtain rfl := Option.some.inj hq
    exact hbefore
  | raises _ _ _ =>
    obtain rfl := Option.some.inj hq
    exact bears_raised _ _ _
  | withdraws _ =>
    obtain rfl := Option.some.inj hq
    exact bears_raised _ _ _
  | finds hworker hfound =>
    obtain rfl := Option.some.inj hq
    exact h.found hs hp hworker hfound
  | enters _ hne hbegins =>
    obtain rfl := Option.some.inj hq
    obtain ⟨rfl, -⟩ | ⟨rfl, -⟩ | ⟨rfl, -⟩ | ⟨rfl, -⟩ := hbegins
    · trivial
    · exact (hne rfl).elim
    · trivial
    · trivial
  | replaces _ _ =>
    obtain rfl := Option.some.inj hq
    exact List.mem_append_right _ (List.mem_singleton_self _)
  | makes _ _ _ =>
    obtain rfl := Option.some.inj hq
    rfl
  | lists _ _ =>
    obtain rfl := Option.some.inj hq
    exact List.mem_append_right _ (List.mem_singleton_self _)
  | trims hworker =>
    rw [hworker] at hbefore
    obtain rfl := Option.some.inj hq
    exact hbefore
  | trimmed hworker =>
    rw [hworker] at hbefore
    obtain rfl := Option.some.inj hq
    exact Done.of_effect hbefore
  | restores hworker _ =>
    rw [hworker] at hbefore
    obtain rfl := Option.some.inj hq
    exact Done.of_effect hbefore
  | drills _ _ =>
    obtain rfl := Option.some.inj hq
    exact Done.of_effect (List.mem_append_right _ (List.mem_singleton_self _))
  | erases _ _ =>
    obtain rfl := Option.some.inj hq
    exact Done.of_effect (List.mem_append_right _ (List.mem_singleton_self _))
  | succeeds hworker _ =>
    rw [hworker] at hbefore
    obtain rfl := Option.some.inj hq
    exact hbefore
  | @reports operation survives _ =>
    obtain rfl := Option.some.inj hq
    cases survives <;> trivial
  | _ =>
    obtain rfl := Option.some.inj hq
    trivial

theorem Effected.bears_step (hq : (s.step c a).process = some q) :
    q.worker.Bears (s.step c a).effects := by
  have hsub := effects_sub hs hv hsuits a
  rcases worker_step hs hv a hq with hidle | ⟨p, hp, hsame⟩ | ⟨p, fault, now, -, hp, hworks⟩
  · rw [hidle]
    trivial
  · rw [hsame]
    exact (h.bears p hp).mono hsub
  · exact h.bears_works hs hworks hp hsub hq

theorem Effected.succeeded_step {id : String} {r : Operation}
    (hfind : (s.step c a).state.find id = some r) (hstatus : r.status = .succeeded) :
    Done (s.step c a).effects r := by
  refine Done.mono ?_ (effects_sub hs hv hsuits a)
  have hchange := Changes.step hs hv a id
  rw [hfind] at hchange
  generalize hbefore : s.state.find id = before at hchange
  cases hchange with
  | stays => exact h.succeeded id r hbefore hstatus
  | recorded p i call faults fault now hp ha hcall hplace hid => cases hstatus
  | resets r hp =>
    unfold Operation.reset at hstatus ⊢
    split_ifs at hstatus ⊢
    exact h.succeeded id r hbefore hstatus
  | begins p other r now hp hworker hid => cases hstatus
  | succeeds p other r now hp hworker hid =>
    -- the handler has returned, and the worker's copy is about the same as the record
    have hbears := h.bears p hp
    rw [hworker] at hbears
    have howned : p.worker.operation = some other := by rw [hworker]; rfl
    obtain ⟨hkind, htenant⟩ := (hs.placed p hp).copied other howned r (hid ▸ hbefore)
    have hown := (ControlState.find_eq_some hbefore).2.trans hid.symm
    unfold Done Operation.updated
    dsimp only
    rw [hkind, htenant, hown]
    exact hbears
  | fails p other r error now hp hworker hid => cases hstatus
  | overflows p i call r error now hp hcall hplace => cases hstatus
  | requeues p rest r error now fault hp ha hrequeues hfull => cases hstatus

theorem Effected.step (a : Action) : Effected c (s.step c a) where
  drawn _ hmem := h.drawn_step hs hv hsuits hmem
  agrees _ hmem _ hfind := h.agrees_step hs hv hsuits hmem hfind
  accounted := h.accounted_step hs hv hsuits
  bears _ hq := h.bears_step hs hv hsuits hq
  succeeded _ _ hfind hstatus := h.succeeded_step hs hv hsuits hfind hstatus

end Step

theorem effected_run (c : Settings) (actions : List Action) :
    Effected c (ControlPlane.run c actions) := by
  induction actions using List.reverseRecOn with
  | nil =>
    refine ⟨fun effect hmem => (by cases hmem), fun effect hmem => (by cases hmem),
      fun tenantId => ⟨fun item hitem => (by cases hitem), fun id hid => (by cases hid),
        fun id hid => (by cases hid), fun hdeleted => ?_⟩, fun p hp => (by cases hp),
      fun id r hfind => (by cases hfind)⟩
    have hstatus : (if (c.definition tenantId).enabled then TenantStatus.active
      else TenantStatus.suspended) = .deleted := hdeleted
    split_ifs at hstatus
  | append_singleton before a ih =>
    rw [run_append_singleton]
    exact ih.step (ordered_run before) (valid_run c before) (fun p hp => suits_run c before hp) a

/-- An operation that has succeeded has done what it is there to do, whatever failed or stopped on
the way; and what is recorded of a tenant was done by an operation of that name. -/
theorem succeeded_done (c : Settings) (actions : List Action) :
    let s := ControlPlane.run c actions
    (∀ id r, s.state.find id = some r → r.status = .succeeded → Done s.effects r) ∧
      (∀ effect ∈ s.effects, ∀ r, s.state.find effect.operationId = some r → r.effect = effect) ∧
      ∀ tenantId, Accounted s.effects tenantId (s.state.tenants tenantId) := by
  have h := effected_run c actions
  exact ⟨h.succeeded, h.agrees, h.accounted⟩

/-! ## What has failed -/

/-- The operation that a place is about to fail. -/
def WorkerPlace.failing : WorkerPlace → Option Operation
  | .withdraws operation _ _ | .suspends operation _ | .fails operation _ => some operation
  | _ => none

/-- The step does not fail for an operation that is done already. -/
def ControlPlane.Honours (s : ControlPlane) (a : Action) : Prop :=
  ∀ p operation fault now, s.process = some p → p.worker.operation = some operation →
    p.worker.inTry = true → a = .work fault now →
    Performed s.effects operation.operationId ∨ p.worker = .audits operation →
    fault = none ∧ ¬s.Stumbles p

/-- What has failed, or is about to, was not done. -/
structure Undone (s : ControlPlane) : Prop where
  failing : ∀ p operation, s.process = some p → p.worker.failing = some operation →
    ¬Performed s.effects operation.operationId ∧
      s.state.status operation.operationId ≠ some .succeeded
  failed : ∀ id, s.state.status id = some .failed → ¬Performed s.effects id

theorem failing_raised (operation : Operation) (error : String) :
    (ControlPlane.raised operation error).failing = some operation := by
  rcases raised_cases operation error with h | h
  all_goals
    rw [h]
    rfl

theorem WorkerPlace.expects_unsucceeded {place : WorkerPlace} (htry : place.inTry = true)
    (haudits : place ≠ .audits operation) (hown : place.operation = some operation)
    {status : Option OperationStatus} (h : place.expects status) : status ≠ some .succeeded := by
  cases place with
  | idle | suspends | fails | reports | dead => cases htry
  | audits other =>
    obtain rfl := Option.some.inj hown
    exact (haudits rfl).elim
  | taken =>
    have hstatus : status = some .pending := h
    simp [hstatus]
  | _ =>
    have hstatus : status = some .running := h
    simp [hstatus]

/-- An operation is completed by the worker only, since the queue always has room. -/
theorem completed_before (hs : Ordered c s.state s.process s.tokens) (hv : Valid c s.state)
    (hroomy : Roomy s) {id : String} {status : OperationStatus}
    (hcompleted : status.completed = true) (h : (s.step c a).state.status id = some status) :
    s.state.status id = some status ∨
      ∃ p operation, s.process = some p ∧ operation.operationId = id ∧
        (status = .failed ∧ (∃ error, p.worker = .fails operation error) ∨
          status = .succeeded ∧ p.worker = .returned operation) := by
  obtain ⟨r, hfind, hstatus⟩ := ControlState.status_eq_some.mp h
  subst hstatus
  have hchange := Changes.step hs hv a id
  rw [hfind] at hchange
  generalize hbefore : s.state.find id = before at hchange
  cases hchange with
  | stays => exact .inl (ControlState.status_eq_some.mpr ⟨r, hbefore, rfl⟩)
  | recorded p i call faults fault now hp ha hcall hplace hid => cases hcompleted
  | resets r hp =>
    refine .inl (ControlState.status_eq_some.mpr ⟨r, hbefore, ?_⟩)
    unfold Operation.reset at hcompleted ⊢
    split_ifs at hcompleted ⊢
    · rfl
    · cases hcompleted
  | begins p other r now hp hworker hid => cases hcompleted
  | succeeds p other r now hp hworker hid => exact .inr ⟨p, other, hp, hid, .inr ⟨rfl, hworker⟩⟩
  | fails p other r error now hp hworker hid =>
    exact .inr ⟨p, other, hp, hid, .inl ⟨rfl, error, hworker⟩⟩
  | overflows p i call r error now hp hcall hplace =>
    exact (hroomy p call id hp (List.mem_of_getElem? hcall) hplace).elim
  | requeues p rest r error now fault hp ha hrequeues hfull =>
    have hroom := room_requeues hs hv hp (by simp [hrequeues])
    omega

theorem Undone.failing_works (h : Undone s) (hs : Ordered c s.state s.process s.tokens)
    (hw : Works c s p fault now s') (hp : s.process = some p)
    (hhonours : s.Honours (.work fault now)) (hq : s'.process = some q)
    (hfailing : q.worker.failing = some operation) :
    ¬Performed s'.effects operation.operationId ∧
      s'.state.status operation.operationId ≠ some .succeeded := by
  have hplaced := hs.placed p hp
  cases hw with
  | stays => exact h.failing q operation hq hfailing
  | skips hworker _ _ =>
    obtain rfl := Option.some.inj hq
    rw [show WorkerPlace.failing _ = _ from congrArg _ hworker] at hfailing
    cases hfailing
  | @raises other error hown htry hcause =>
    obtain rfl := Option.some.inj hq
    obtain rfl := Option.some.inj ((failing_raised other error).symm.trans hfailing)
    -- a step that raises is not one of those that the run is spared
    have hnot : ¬(Performed s.effects other.operationId ∨ p.worker = .audits other) := by
      intro hdone
      obtain ⟨hfault, hstumbles⟩ := hhonours p other fault now hp hown htry rfl hdone
      exact hcause.elim (· hfault) hstumbles
    obtain ⟨hundone, haudits⟩ := not_or.mp hnot
    exact ⟨hundone, WorkerPlace.expects_unsucceeded htry haudits hown (hplaced.expects other hown)⟩
  | @unlisted other record error hworker hfault =>
    obtain rfl := Option.some.inj hq
    obtain rfl := Option.some.inj hfailing
    have hown : p.worker.operation = some other := by rw [hworker]; rfl
    have htry : p.worker.inTry = true := by rw [hworker]; rfl
    refine ⟨fun hdone => hfault (hhonours p other fault now hp hown htry rfl (.inl hdone)).1, ?_⟩
    exact WorkerPlace.expects_unsucceeded htry (by rw [hworker]; simp) hown
      (hplaced.expects other hown)
  | @withdraws other record error hworker =>
    obtain rfl := Option.some.inj hq
    obtain rfl := Option.some.inj ((failing_raised other error).symm.trans hfailing)
    exact h.failing p other hp (by rw [hworker]; rfl)
  | @suspends other error state' hworker hrun =>
    obtain rfl := Option.some.inj hq
    obtain rfl := Option.some.inj hfailing
    obtain ⟨hundone, hstatus⟩ := h.failing p other hp (by rw [hworker]; rfl)
    have hsame : state'.status other.operationId = s.state.status other.operationId := by
      unfold ControlState.status ControlState.find
      rw [setTenant_operations hrun]
    exact ⟨hundone, fun heq => hstatus (hsame.symm.trans heq)⟩
  | enters _ _ hbegins =>
    obtain rfl := Option.some.inj hq
    obtain ⟨rfl, -⟩ | ⟨rfl, -⟩ | ⟨rfl, -⟩ | ⟨rfl, -⟩ := hbegins <;> cases hfailing
  | @reports other survives _ =>
    obtain rfl := Option.some.inj hq
    cases survives <;> cases hfailing
  | _ =>
    obtain rfl := Option.some.inj hq
    cases hfailing

theorem Undone.step (h : Undone s) (hs : Ordered c s.state s.process s.tokens)
    (hv : Valid c s.state) (hsuits : ∀ p, s.process = some p → p.worker.suits) (hroomy : Roomy s)
    (hhonours : s.Honours a) : Undone (s.step c a) where
  failing q operation hq hfailing := by
    have hworks : ∀ {p fault now}, a = .work fault now → s.process = some p →
        Works c s p fault now (s.step c a) → ¬Performed (s.step c a).effects operation.operationId ∧
          (s.step c a).state.status operation.operationId ≠ some .succeeded := by
      intro p fault now ha hp hw
      exact h.failing_works hs hw hp (ha ▸ hhonours) hq hfailing
    rcases leaves_or_works hs hv a with hl | ⟨p, fault, now, ha, hp, hw⟩
    swap
    · exact hworks ha hp hw
    rcases worker_step hs hv a hq with hidle | ⟨p, hp, hsame⟩ | ⟨p, fault, now, ha, hp, hw⟩
    · rw [hidle] at hfailing
      cases hfailing
    · rw [hsame] at hfailing
      obtain ⟨hundone, hstatus⟩ := h.failing p operation hp hfailing
      refine ⟨by rwa [hl.effects], fun hsucceeded => ?_⟩
      rcases completed_before hs hv hroomy rfl hsucceeded with
        hbefore | ⟨p', other, hp', -, ⟨hne, -⟩ | ⟨-, hworker⟩⟩
      · exact hstatus hbefore
      · cases hne
      · obtain rfl := Option.some.inj (hp.symm.trans hp')
        rw [hworker] at hfailing
        cases hfailing
    · exact hworks ha hp hw
  failed id hstatus hdone := by
    rcases effects_step hs hv hsuits a with heq | ⟨p, operation, hp, hown, hrunning, hops, heq⟩
    · rw [heq] at hdone
      rcases completed_before hs hv hroomy rfl hstatus with
        hbefore | ⟨p, operation, hp, rfl, ⟨-, error, hworker⟩ | ⟨hne, -⟩⟩
      · exact h.failed id hbefore hdone
      · exact (h.failing p operation hp (by rw [hworker]; rfl)).1 hdone
      · cases hne
    -- what is done by this step is still running
    · have hbefore : s.state.status id = some .failed := by
        rw [← hstatus]
        unfold ControlState.status ControlState.find
        rw [hops]
      obtain ⟨effect, hmem, hid⟩ := hdone
      rw [heq] at hmem
      rcases List.mem_append.mp hmem with hmem | hmem
      · exact h.failed id hbefore ⟨effect, hmem, hid⟩
      · obtain rfl := List.mem_singleton.mp hmem
        obtain rfl : operation.operationId = id := hid
        cases hrunning.symm.trans hbefore

/-- A status that an operation has come to stays, until the operation is forgotten. -/
theorem Undone.completed_step (h : Undone s) (hs : Ordered c s.state s.process s.tokens)
    (hv : Valid c s.state) (hroomy : Roomy s) {id : String} {status : OperationStatus}
    (hcompleted : status.completed = true) (hbefore : s.state.status id = some status)
    (a : Action) : (s.step c a).state.status id ∈ [some status, none] := by
  have hmoves := (Moved.step hs a).moves id
  rw [hbefore] at hmoves
  generalize hafter : (s.step c a).state.status id = after at hmoves
  cases hmoves with
  | stays => simp
  | forgotten => simp
  | starts => cases hcompleted
  | succeeds => cases hcompleted
  | requeued => cases hcompleted
  | fails hne =>
    rcases completed_before hs hv hroomy rfl hafter with
      hfailed | ⟨p, operation, hp, rfl, ⟨-, error, hworker⟩ | ⟨hsame, -⟩⟩
    · exact (hne (Option.some.inj (hbefore.symm.trans hfailed))).elim
    · have hunsucceeded := (h.failing p operation hp (by rw [hworker]; rfl)).2
      cases status with
      | succeeded => exact (hunsucceeded hbefore).elim
      | failed => exact (hne rfl).elim
      | pending | running => cases hcompleted
    · cases hsame

/-- No step fails for an operation that is done already. -/
def Honouring (c : Settings) (actions : List Action) : Prop :=
  ∀ before a, before ++ [a] <+: actions → (ControlPlane.run c before).Honours a

theorem Honouring.of_prefix {actions before : List Action} (h : Honouring c actions)
    (hpre : before <+: actions) : Honouring c before :=
  fun before' a hpre' => h before' a (hpre'.trans hpre)

theorem undone_run {actions : List Action} (h : Honouring c actions) :
    Undone (ControlPlane.run c actions) := by
  induction actions using List.reverseRecOn with
  | nil => exact ⟨fun p operation hp => (by cases hp), fun id hstatus => (by cases hstatus)⟩
  | append_singleton before a ih =>
    rw [run_append_singleton]
    exact (ih (h.of_prefix (List.prefix_append _ _))).step (ordered_run before) (valid_run c before)
      (fun p hp => suits_run c before hp) (roomy_run c before) (h before a (List.prefix_refl _))

theorem completed_run {before after : List Action} (h : Honouring c (before ++ after)) {id : String}
    {status : OperationStatus} (hcompleted : status.completed = true)
    (hbefore : (ControlPlane.run c before).state.status id = some status) :
    (ControlPlane.run c (before ++ after)).state.status id ∈ [some status, none] ∧
      Drawn c (ControlPlane.run c (before ++ after)).tokens id := by
  induction after using List.reverseRecOn with
  | nil =>
    obtain ⟨operation, hfind, -⟩ := ControlState.status_eq_some.mp hbefore
    rw [List.append_nil]
    exact ⟨by simp [hbefore], (ordered_run before).drawn id (by simp [hfind])⟩
  | append_singleton rest a ih =>
    rw [← List.append_assoc] at h ⊢
    have hrest := h.of_prefix (List.prefix_append _ _)
    have hs := ordered_run (c := c) (before ++ rest)
    obtain ⟨hstatus, hdrawn⟩ := ih hrest
    rw [run_append_singleton]
    refine ⟨?_, hdrawn.mono (Moved.step hs a).tokens_le⟩
    rcases List.mem_pair.mp hstatus with hstatus | hnone
    · have hundone := undone_run hrest
      exact hundone.completed_step hs (valid_run c _) (roomy_run c _) hcompleted hstatus a
    -- a forgotten operation does not come back, since its token is drawn
    · have hafter := status_steps (P := (· = none)) (fun h _ => by cases h) hs hdrawn hnone [a]
      exact List.mem_pair.mpr (.inr hafter)

/-- As long as no step fails for an operation that is done already, an operation that has failed
has done nothing and is named nowhere, and what an operation has come to never changes. -/
theorem failed_undone (c : Settings) (actions : List Action) (h : Honouring c actions) :
    (∀ id, (ControlPlane.run c actions).state.status id = some .failed →
      ¬Performed (ControlPlane.run c actions).effects id ∧ ∀ tenantId,
        let tenant := (ControlPlane.run c actions).state.tenants tenantId
        (∀ item ∈ tenant.listed, item.operationId ≠ id) ∧ id ∉ tenant.drills ∧
          tenant.lastRestore ≠ some id) ∧
    ∀ before after, before ++ after = actions → ∀ id status, status.completed = true →
      (ControlPlane.run c before).state.status id = some status →
        (ControlPlane.run c actions).state.status id ∈ [some status, none] := by
  refine ⟨fun id hstatus => ?_, ?_⟩
  · have hundone := (undone_run h).failed id hstatus
    refine ⟨hundone, fun tenantId => ?_⟩
    have haccounted := (effected_run c actions).accounted tenantId
    refine ⟨fun item hitem heq => ?_, fun hid => ?_, fun hrestore => ?_⟩
    · exact hundone (heq ▸ haccounted.listed item hitem)
    · exact hundone (haccounted.drilled id hid)
    · exact hundone (haccounted.restored id hrestore)
  · rintro before after rfl id status hcompleted hbefore
    exact (completed_run h hcompleted hbefore).1

/-- Nothing is done, and the worker is not behind a success. -/
def ControlPlane.untouched (s : ControlPlane) : Bool :=
  s.effects.isEmpty && s.process.all fun p =>
    match p.worker with
    | .audits _ => false
    | _ => true

theorem honours_of_untouched (h : s.untouched = true) (a : Action) : s.Honours a := by
  obtain ⟨heffects, hworker⟩ := Bool.and_eq_true_iff.mp h
  rintro p operation fault now hp - - - (⟨effect, hmem, -⟩ | haudits)
  · rw [List.isEmpty_iff.mp heffects] at hmem
    cases hmem
  · rw [hp, Option.all_some, haudits] at hworker
    cases hworker

theorem honouring_of_untouched {actions : List Action}
    (h : actions.inits.all fun before => (ControlPlane.run c before).untouched) :
    Honouring c actions := by
  intro before a hpre
  refine honours_of_untouched (List.all_eq_true.mp h before ?_) a
  exact (List.mem_inits _ _).mpr ((List.prefix_append _ _).trans hpre)

/-- A backup whose artifact is written but cannot be listed. -/
def unlistedBackup : List Action :=
  .restart none none :: (asks (backupOf "acme") 0 0 ++ List.replicate 4 (.work none 0) ++
    [.work (some "disk full") 0, .work none 0, .work none 0])

theorem unlistedBackup_undone :
    (ControlPlane.run oneTenant unlistedBackup).state.status (unaryToken 0) = some .failed ∧
      ¬Performed (ControlPlane.run oneTenant unlistedBackup).effects (unaryToken 0) := by
  have hstatus : (ControlPlane.run oneTenant unlistedBackup).state.status (unaryToken 0) =
    some .failed := by decide +kernel
  refine ⟨hstatus, ((failed_undone oneTenant unlistedBackup ?_).1 _ hstatus).1⟩
  exact honouring_of_untouched (by decide +kernel)

/-- A backup that is done, and fails since its success cannot be audited. -/
def unauditedBackup : List Action :=
  .restart none none :: (asks (backupOf "acme") 0 0 ++ List.replicate 7 (.work none 0) ++
    [.work (some "audit log full") 0, .work none 0])

example : let s := ControlPlane.run oneTenant unauditedBackup
    s.state.status (unaryToken 0) = some .failed ∧
      s.effects.map Effect.operationId = [unaryToken 0] := by decide +kernel

end Managed
end Controlplane
end MegaCache
