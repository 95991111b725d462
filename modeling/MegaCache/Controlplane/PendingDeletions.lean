import MegaCache.Controlplane.Calls
import MegaCache.Controlplane.Deletions

/-!
# Deletions under way

`request_tenant_deletion` marks the tenant, records and queues the operation, and takes the mark
back when that fails.  A marked tenant has an operation behind it that can still run, or the
call that marked it, as long as no such call is cut short: by the end of the process, by a key
that names an older operation, or by a write that fails when the mark is taken back.
-/

namespace MegaCache
namespace Controlplane
namespace Managed

variable {c : Settings} {s s' : ControlPlane} {p q : Process} {a : Action} {tenantId id : String}

/-- A deletion of the tenant that can still run. -/
def Underway (state : ControlState) (tenantId id : String) : Prop :=
  ∃ operation, state.find id = some operation ∧ operation.kind = .tenantDelete ∧
    operation.tenantId = tenantId ∧ operation.status.completed = false

/-- A call that has marked its tenant and has recorded no operation. -/
def Call.Unbacked (call : Call) : Prop :=
  call.request.kind = .tenantDelete ∧ (call.place = .admitted ∨ call.place = .unwinds)

/-- The call `i` is one that has marked its tenant and has recorded no operation. -/
def ControlPlane.Marks (s : ControlPlane) (i : ℕ) (call : Call) : Prop :=
  (∃ p, s.process = some p ∧ p.calls[i]? = some call) ∧ call.Unbacked

/-- The step does not cut short a call that has marked its tenant. -/
structure ControlPlane.Watches (s : ControlPlane) (a : Action) : Prop where
  stopped : ∀ i call, s.Marks i call → a ≠ .crash
  recalled : ∀ i call faults fault now, s.Marks i call → a = .call i faults fault now →
    call.place = .admitted → call.request.idempotencyKey.isSome →
      s.state.operations.any call.request.matches = false
  unwound : ∀ i call faults fault now, s.Marks i call → a = .call i faults fault now →
    call.place = .unwinds → fault = none

/-- What the place of the worker says about the tenant of its operation. -/
def WorkerPlace.Stands (state : ControlState) : WorkerPlace → Prop
  | .returned operation | .audits operation =>
    operation.kind = .tenantDelete → state.tenantStatus operation.tenantId = .deleted
  | .suspends operation _ => operation.kind = .tenantDelete ∧
    (Underway state operation.tenantId operation.operationId ∨
      state.tenantStatus operation.tenantId = .deleted)
  | .fails operation _ => operation.kind = .tenantDelete →
    state.tenantStatus operation.tenantId ≠ .deletionPending ∧
      state.tenantStatus operation.tenantId ≠ .active
  | _ => True

/-- The invariant of deletions. -/
structure Backed (s : ControlPlane) : Prop where
  marked : ∀ i call, s.Marks i call →
    s.state.tenantStatus call.request.tenantId = .deletionPending
  alone : ∀ i call id, s.Marks i call → ¬Underway s.state call.request.tenantId id
  unique : ∀ i j call call', s.Marks i call → s.Marks j call' →
    call.request.tenantId = call'.request.tenantId → i = j
  active : ∀ tenantId id, Underway s.state tenantId id → s.state.tenantStatus tenantId ≠ .active
  single : ∀ tenantId id id', Underway s.state tenantId id → Underway s.state tenantId id' → id = id'
  pending : ∀ tenantId, s.state.tenantStatus tenantId = .deletionPending →
    (∃ id, Underway s.state tenantId id) ∨ ∃ i call, s.Marks i call ∧ call.request.tenantId = tenantId
  deletes : ∀ (p : Process) (call : Call), s.process = some p → call ∈ p.calls →
    call.place = .unwinds → call.request.kind = .tenantDelete
  stands : ∀ p, s.process = some p → p.worker.Stands s.state

/-! ## Operations and calls -/

section Before

variable (hs : Ordered c s.state s.process s.tokens) (hv : Valid c s.state)
include hs hv

/-- A deletion is under way that was before, or a call has just recorded it. -/
theorem underway_before (h : Underway (s.step c a).state tenantId id) :
    Underway s.state tenantId id ∨ ∃ p i call faults fault now, s.process = some p ∧
      a = .call i faults fault now ∧ p.calls[i]? = some call ∧ call.place = .admitted ∧
      call.request.kind = .tenantDelete ∧ call.request.tenantId = tenantId ∧
      id = c.tokenHex s.tokens := by
  obtain ⟨operation, hfind, hkind, htenant, hstatus⟩ := h
  have hchange := Changes.step hs hv a id
  rw [hfind] at hchange
  generalize hbefore : s.state.find id = before at hchange
  cases hchange with
  | stays => exact .inl ⟨operation, hbefore, hkind, htenant, hstatus⟩
  | recorded p i call faults fault now hp ha hcall hplace hid =>
    exact .inr ⟨p, i, call, faults, fault, now, hp, ha, hcall, hplace, hkind, htenant, hid⟩
  | resets r hp =>
    refine .inl ⟨r, hbefore, ?_⟩
    unfold Operation.reset at hkind htenant hstatus
    split_ifs at hkind htenant hstatus with hcompleted
    · exact ⟨hkind, htenant, hstatus⟩
    · exact ⟨hkind, htenant, Bool.eq_false_iff.mpr hcompleted⟩
  | begins p other r now hp hworker hid =>
    refine .inl ⟨r, hbefore, hkind, htenant, ?_⟩
    have hexpects := (hs.placed p hp).expects other (by rw [hworker]; rfl)
    rw [hworker] at hexpects
    obtain ⟨r', hr', hpending⟩ := ControlState.status_eq_some.mp hexpects
    rw [hid, hbefore] at hr'
    obtain rfl := Option.some.inj hr'
    rw [hpending]
    rfl
  | succeeds p other r now hp hworker hid => cases hstatus
  | fails p other r error now hp hworker hid => cases hstatus
  | overflows p i call r error now hp hcall hplace => cases hstatus
  | requeues p rest r error now fault hp ha hrequeues hfull => cases hstatus

/-- A deletion stays under way until the worker says that it has succeeded or failed. -/
theorem underway_after (hroomy : Roomy s) (h : Underway s.state tenantId id) :
    Underway (s.step c a).state tenantId id ∨ ∃ p operation, s.process = some p ∧
      operation.kind = .tenantDelete ∧ operation.tenantId = tenantId ∧
      (p.worker = .returned operation ∨ ∃ error, p.worker = .fails operation error) := by
  obtain ⟨operation, hfind, hkind, htenant, hstatus⟩ := h
  have hchange := Changes.step hs hv a id
  rw [hfind] at hchange
  have hcopied : ∀ p other, s.process = some p → p.worker.operation = some other →
      other.operationId = id → other.kind = .tenantDelete ∧ other.tenantId = tenantId := by
    intro p other hp hown hid
    obtain ⟨hkind', htenant'⟩ := (hs.placed p hp).copied other hown operation (hid ▸ hfind)
    exact ⟨hkind' ▸ hkind, htenant' ▸ htenant⟩
  generalize hafter : (s.step c a).state.find id = after at hchange
  cases hchange with
  | stays => exact .inl ⟨operation, hafter, hkind, htenant, hstatus⟩
  | forgotten _ hcompleted =>
    rw [hcompleted] at hstatus
    cases hstatus
  | resets r hp =>
    refine .inl ⟨_, hafter, ?_⟩
    unfold Operation.reset
    split_ifs with hcompleted
    · exact ⟨hkind, htenant, hstatus⟩
    · exact ⟨hkind, htenant, rfl⟩
  | begins p other r now hp hworker hid => exact .inl ⟨_, hafter, hkind, htenant, rfl⟩
  | succeeds p other r now hp hworker hid =>
    obtain ⟨hkind', htenant'⟩ := hcopied p other hp (by rw [hworker]; rfl) hid
    exact .inr ⟨p, other, hp, hkind', htenant', .inl hworker⟩
  | fails p other r error now hp hworker hid =>
    obtain ⟨hkind', htenant'⟩ := hcopied p other hp (by rw [hworker]; rfl) hid
    exact .inr ⟨p, other, hp, hkind', htenant', .inr ⟨error, hworker⟩⟩
  | overflows p i call r error now hp hcall hplace =>
    exact (hroomy p call id hp (List.mem_of_getElem? hcall) hplace).elim
  | requeues p rest r error now fault hp ha hrequeues hfull =>
    have hroom := room_requeues hs hv hp (by simp [hrequeues])
    omega

/-- A call marks its tenant that did so before, or it is a new one. -/
theorem marks_before (hroomy : Roomy s) {i : ℕ} {call : Call} (h : (s.step c a).Marks i call) :
    (∃ call', s.Marks i call' ∧ call'.request = call.request ∧
      ∀ faults fault now, a = .call i faults fault now →
        call'.place = .admitted ∧ (s.step c a).state.find (c.tokenHex s.tokens) = none) ∨
    (s.state.tenantStatus call.request.tenantId = .active ∧
      (s.step c a).state.tenantStatus call.request.tenantId = .deletionPending ∧
      (∀ j faults fault now, a ≠ .call j faults fault now) ∧
      ∀ j call', (s.step c a).Marks j call' → j = i ∨ s.Marks j call') := by
  obtain ⟨⟨q, hq, hcall⟩, hunbacked⟩ := h
  cases Asks.step hs hv a with
  | stops hstops =>
    rw [hstops] at hq
    cases hq
  | begins q' hp hq' hcalls =>
    obtain rfl := Option.some.inj (hq'.symm.trans hq)
    rw [hcalls] at hcall
    cases hcall
  | keeps p q' hp hq' hcalls hrests =>
    obtain rfl := Option.some.inj (hq'.symm.trans hq)
    rw [hcalls] at hcall
    refine .inl ⟨call, ⟨⟨p, hp, hcall⟩, hunbacked⟩, rfl, fun faults fault now ha => ?_⟩
    rcases hrests i faults fault now call ha hcall, hunbacked.2 with ⟨h | h, h' | h'⟩
    all_goals cases h.symm.trans h'
  | adds p q' r hp hq' hcalls hnot hmarks =>
    obtain rfl := Option.some.inj (hq'.symm.trans hq)
    have hbefore : ∀ j call', q'.calls[j]? = some call' →
        p.calls[j]? = some call' ∨ j = p.calls.length ∧ call' = ⟨r, .admitted⟩ := by
      intro j call' hj
      rw [hcalls, List.getElem?_append] at hj
      split_ifs at hj with hlt
      · exact .inl hj
      · rw [List.getElem?_singleton] at hj
        split_ifs at hj with hzero
        exact .inr ⟨by omega, (Option.some.inj hj).symm⟩
    rcases hbefore i call hcall with hi | ⟨rfl, rfl⟩
    · exact .inl ⟨call, ⟨⟨p, hp, hi⟩, hunbacked⟩, rfl, fun faults fault now ha =>
        (hnot i faults fault now ha).elim⟩
    · obtain ⟨hactive, hpending⟩ := hmarks hunbacked.1
      refine .inr ⟨hactive, hpending, hnot, ?_⟩
      rintro j call' ⟨⟨q'', hq'', hj⟩, hunbacked'⟩
      obtain rfl := Option.some.inj (hq'.symm.trans hq'')
      rcases hbefore j call' hj with hj | ⟨rfl, -⟩
      · exact .inr ⟨⟨p, hp, hj⟩, hunbacked'⟩
      · exact .inl rfl
  | answers p q' j other place faults fault now hp hq' ha hother hcalls hanswers =>
    obtain rfl := Option.some.inj (hq'.symm.trans hq)
    rw [hcalls, List.getElem?_set] at hcall
    split_ifs at hcall with hj hlt
    · obtain rfl := Option.some.inj hcall
      subst hj
      obtain ⟨hkind, hplace⟩ := hunbacked
      cases hanswers with
      | refuses hadmitted hnone =>
        exact .inl ⟨other, ⟨⟨p, hp, hother⟩, hkind, .inl hadmitted⟩, rfl,
          fun _ _ _ _ => ⟨hadmitted, hnone⟩⟩
      | yields hoverflowed =>
        exact (hroomy p other _ hp (List.mem_of_getElem? hother) hoverflowed).elim
      | _ => rcases hplace with h | h <;> cases h
    · refine .inl ⟨call, ⟨⟨p, hp, hcall⟩, hunbacked⟩, rfl, fun faults' fault' now' ha' => ?_⟩
      rw [ha] at ha'
      exact (hj (Action.call.inj ha').1).elim

/-- A call that has marked its tenant does so still, or has an operation now, or the tenant is
active again. -/
theorem marks_after (hw : s.Watches a) {i : ℕ} {call : Call} (h : s.Marks i call) :
    (∃ call', (s.step c a).Marks i call' ∧ call'.request = call.request) ∨
      (∃ id, Underway (s.step c a).state call.request.tenantId id) ∨
      (s.step c a).state.tenantStatus call.request.tenantId = .active := by
  obtain ⟨p, hp, hcall⟩ := h.1
  have hkeeps : ∀ q, (s.step c a).process = some q → q.calls[i]? = some call →
      ∃ call', (s.step c a).Marks i call' ∧ call'.request = call.request :=
    fun q hq hcall' => ⟨call, ⟨⟨q, hq, hcall'⟩, h.2⟩, rfl⟩
  cases Asks.step hs hv a with
  | stops hstops hwhy =>
    -- the process ends by a crash only, since what is requeued finds room
    obtain hnone | ha | ⟨p', hp', hrequeues, hfull⟩ := hwhy
    · rw [hp] at hnone
      cases hnone
    · exact (hw.stopped i call h ha).elim
    · have hroom := room_requeues hs hv hp' hrequeues
      omega
  | begins q hnone hq hcalls =>
    rw [hp] at hnone
    cases hnone
  | keeps p' q hp' hq hcalls hrests =>
    obtain rfl := Option.some.inj (hp.symm.trans hp')
    exact .inl (hkeeps q hq (hcalls ▸ hcall))
  | adds p' q r hp' hq hcalls hnot hmarks =>
    obtain rfl := Option.some.inj (hp.symm.trans hp')
    refine .inl (hkeeps q hq ?_)
    rw [hcalls, List.getElem?_append_left (List.getElem?_eq_some_iff.mp hcall).1]
    exact hcall
  | answers p' q j other place faults fault now hp' hq ha hother hcalls hanswers =>
    obtain rfl := Option.some.inj (hp.symm.trans hp')
    by_cases hj : j = i
    swap
    · refine .inl (hkeeps q hq ?_)
      rw [hcalls, List.getElem?_set_ne hj]
      exact hcall
    subst hj
    obtain rfl := Option.some.inj (hcall.symm.trans hother)
    have hset : q.calls[j]? = some { call with place := place } := by
      rw [hcalls, List.getElem?_set_self (List.getElem?_eq_some_iff.mp hcall).1]
    obtain ⟨hkind, hplace⟩ := h.2
    cases hanswers with
    | records now' hadmitted hfound =>
      exact .inr (.inl ⟨_, _, hfound, hkind, rfl, rfl⟩)
    | recalls hadmitted hkey hmatches =>
      rw [hw.recalled j call faults fault now h ha hadmitted hkey] at hmatches
      cases hmatches
    | refuses hadmitted hnone =>
      refine .inl ⟨_, ⟨⟨q, hq, hset⟩, hkind, .inr ?_⟩, rfl⟩
      unfold ControlPlane.callRaised
      rw [if_pos hkind]
    | unwinds hunwinds hactive =>
      exact .inr (.inr (hactive (hw.unwound j call faults fault now h ha hunwinds)))
    | queues hputs hroom => rcases hplace with h' | h' <;> cases hputs.symm.trans h'
    | overflows hputs hroom => rcases hplace with h' | h' <;> cases hputs.symm.trans h'
    | yields hoverflowed => rcases hplace with h' | h' <;> cases hoverflowed.symm.trans h'

end Before

/-- The deletion that the worker is at is under way. -/
theorem underway_worker (hs : Ordered c s.state s.process s.tokens) (hp : s.process = some p)
    {operation : Operation} (hown : p.worker.operation = some operation)
    (hkind : operation.kind = .tenantDelete) {status : OperationStatus}
    (hstatus : s.state.status operation.operationId = some status)
    (hcompleted : status.completed = false) :
    Underway s.state operation.tenantId operation.operationId := by
  obtain ⟨record, hfind, rfl⟩ := ControlState.status_eq_some.mp hstatus
  obtain ⟨hkind', htenant⟩ := (hs.placed p hp).copied operation hown record hfind
  exact ⟨record, hfind, hkind' ▸ hkind, htenant, hcompleted⟩

theorem underway_erases (hs : Ordered c s.state s.process s.tokens)
    (hsuits : ∀ p, s.process = some p → p.worker.suits) (hp : s.process = some p)
    {operation : Operation} (hworker : p.worker = .erases operation) :
    Underway s.state operation.tenantId operation.operationId := by
  have hown : p.worker.operation = some operation := by rw [hworker]; rfl
  have hsuit := hsuits p hp
  have hexpects := (hs.placed p hp).expects operation hown
  rw [hworker] at hsuit hexpects
  exact underway_worker hs hp hown hsuit hexpects rfl

/-! ## The status of the tenants -/

section Status

variable (hs : Ordered c s.state s.process s.tokens) (hv : Valid c s.state)
  (hsuits : ∀ p, s.process = some p → p.worker.suits) (h : Backed s)
include hs hv

theorem status_pending (hpending : (s.step c a).state.tenantStatus tenantId = .deletionPending) :
    s.state.tenantStatus tenantId = .deletionPending ∨
      ∃ i call, (s.step c a).Marks i call ∧ call.request.tenantId = tenantId := by
  cases Turns.step hs hv a with
  | keeps hstatus hgate => exact .inl (hstatus ▸ hpending)
  | marks p r fault hp ha hkind hactive hstatus hprocess =>
    by_cases ht : tenantId = r.tenantId
    · refine .inr ⟨p.calls.length, ⟨r, .admitted⟩, ⟨⟨_, hprocess, ?_⟩, hkind, .inl rfl⟩, ht.symm⟩
      rw [List.getElem?_append_right le_rfl, Nat.sub_self]
      rfl
    · rw [hstatus, Function.update_of_ne ht] at hpending
      exact .inl hpending
  | reopens p i call faults now ha hp hcall hplace hstatus hprocess =>
    rw [hstatus] at hpending
    by_cases ht : tenantId = call.request.tenantId
    · rw [ht, Function.update_self] at hpending
      cases hpending
    · rw [Function.update_of_ne ht] at hpending
      exact .inl hpending
  | suspends p operation error hp hworker hstatus hprocess =>
    rw [hstatus] at hpending
    by_cases ht : tenantId = operation.tenantId
    · rw [ht, Function.update_self] at hpending
      split_ifs at hpending with hbefore
      exact (hbefore hpending).elim
    · rw [Function.update_of_ne ht] at hpending
      exact .inl hpending
  | erases p operation hp hworker hstatus hlisted hprocess =>
    rw [hstatus] at hpending
    by_cases ht : tenantId = operation.tenantId
    · rw [ht, Function.update_self] at hpending
      cases hpending
    · rw [Function.update_of_ne ht] at hpending
      exact .inl hpending

/-- A tenant becomes active again by the call that has marked it, and only so. -/
theorem status_active (h : Backed s)
    (hactive : (s.step c a).state.tenantStatus tenantId = .active) :
    s.state.tenantStatus tenantId = .active ∨ ∃ i call faults now, s.Marks i call ∧
      a = .call i faults none now ∧ call.place = .unwinds ∧ call.request.tenantId = tenantId := by
  cases Turns.step hs hv a with
  | keeps hstatus hgate => exact .inl (hstatus ▸ hactive)
  | marks p r fault hp ha hkind hbefore hstatus hprocess =>
    rw [hstatus] at hactive
    by_cases ht : tenantId = r.tenantId
    · rw [ht, Function.update_self] at hactive
      cases hactive
    · rw [Function.update_of_ne ht] at hactive
      exact .inl hactive
  | reopens p i call faults now ha hp hcall hplace hstatus hprocess =>
    rw [hstatus] at hactive
    by_cases ht : tenantId = call.request.tenantId
    · have hkind := h.deletes p call hp (List.mem_of_getElem? hcall) hplace
      exact .inr ⟨i, call, faults, now, ⟨⟨p, hp, hcall⟩, hkind, .inr hplace⟩, ha, hplace, ht.symm⟩
    · rw [Function.update_of_ne ht] at hactive
      exact .inl hactive
  | suspends p operation error hp hworker hstatus hprocess =>
    rw [hstatus] at hactive
    by_cases ht : tenantId = operation.tenantId
    · rw [ht, Function.update_self] at hactive
      split_ifs at hactive
      rw [ht]
      exact .inl hactive
    · rw [Function.update_of_ne ht] at hactive
      exact .inl hactive
  | erases p operation hp hworker hstatus hlisted hprocess =>
    rw [hstatus] at hactive
    by_cases ht : tenantId = operation.tenantId
    · rw [ht, Function.update_self] at hactive
      cases hactive
    · rw [Function.update_of_ne ht] at hactive
      exact .inl hactive

/-- A tenant that is neither active nor pending stays as it is, or is deleted. -/
theorem status_rests (h : Backed s) (hactive : s.state.tenantStatus tenantId ≠ .active)
    (hpending : s.state.tenantStatus tenantId ≠ .deletionPending) :
    (s.step c a).state.tenantStatus tenantId = s.state.tenantStatus tenantId ∨
      (s.step c a).state.tenantStatus tenantId = .deleted := by
  cases Turns.step hs hv a with
  | keeps hstatus hgate => exact .inl (congrFun hstatus tenantId)
  | marks p r fault hp ha hkind hbefore hstatus hprocess =>
    left
    rw [hstatus, Function.update_of_ne]
    rintro rfl
    exact hactive hbefore
  | reopens p i call faults now ha hp hcall hplace hstatus hprocess =>
    left
    rw [hstatus, Function.update_of_ne]
    rintro rfl
    have hkind := h.deletes p call hp (List.mem_of_getElem? hcall) hplace
    exact hpending (h.marked i call ⟨⟨p, hp, hcall⟩, hkind, .inr hplace⟩)
  | suspends p operation error hp hworker hstatus hprocess =>
    left
    rw [hstatus]
    by_cases ht : tenantId = operation.tenantId
    · rw [ht, Function.update_self, if_neg (ht ▸ hpending)]
    · rw [Function.update_of_ne ht]
  | erases p operation hp hworker hstatus hlisted hprocess =>
    rw [hstatus]
    by_cases ht : tenantId = operation.tenantId
    · right
      rw [ht, Function.update_self]
    · left
      rw [Function.update_of_ne ht]

/-- A tenant that is marked without an operation stays so, or is active again. -/
theorem status_marked (hsuits : ∀ p, s.process = some p → p.worker.suits) (h : Backed s) {i : ℕ}
    {call : Call} (hmarks : s.Marks i call) :
    (s.step c a).state.tenantStatus call.request.tenantId = .deletionPending ∨
      ∃ faults now, a = .call i faults none now ∧ call.place = .unwinds := by
  have hpending := h.marked i call hmarks
  have halone := h.alone i call
  cases Turns.step hs hv a with
  | keeps hstatus hgate => exact .inl (hstatus ▸ hpending)
  | marks p r fault hp ha hkind hbefore hstatus hprocess =>
    left
    rw [hstatus]
    by_cases ht : call.request.tenantId = r.tenantId
    · rw [ht, Function.update_self]
    · rwa [Function.update_of_ne ht]
  | reopens p j call' faults now ha hp hcall hplace hstatus hprocess =>
    have hkind := h.deletes p call' hp (List.mem_of_getElem? hcall) hplace
    have hmarks' : s.Marks j call' := ⟨⟨p, hp, hcall⟩, hkind, .inr hplace⟩
    by_cases ht : call.request.tenantId = call'.request.tenantId
    -- no two calls have marked one tenant, so that it is this one that gives up
    · obtain rfl := h.unique i j call call' hmarks hmarks' ht
      obtain ⟨⟨p', hp', hcall'⟩, -⟩ := hmarks
      obtain rfl := Option.some.inj (hp.symm.trans hp')
      obtain rfl := Option.some.inj (hcall.symm.trans hcall')
      exact .inr ⟨faults, now, ha, hplace⟩
    · left
      rw [hstatus]
      rwa [Function.update_of_ne ht]
  | suspends p operation error hp hworker hstatus hprocess =>
    left
    rw [hstatus]
    by_cases ht : call.request.tenantId = operation.tenantId
    · have hstands := h.stands p hp
      rw [hworker] at hstands
      obtain ⟨-, hunderway | hdeleted⟩ := hstands
      · exact (halone _ hmarks (ht ▸ hunderway)).elim
      · rw [← ht, hpending] at hdeleted
        cases hdeleted
    · rwa [Function.update_of_ne ht]
  | erases p operation hp hworker hstatus hlisted hprocess =>
    left
    rw [hstatus]
    by_cases ht : call.request.tenantId = operation.tenantId
    · exact (halone _ hmarks (ht ▸ underway_erases hs hsuits hp hworker)).elim
    · rwa [Function.update_of_ne ht]

end Status

/-! ## The place of the worker -/

section Arrivals

variable {fault : Option String} {now : ℚ} {operation : Operation} {error : String}
  (h : Works c s p fault now s') (hp : s.process = some p) (hq : s'.process = some q)
include h hp hq

theorem Works.to_audits (hplace : q.worker = .audits operation) :
    p.worker = .audits operation ∨ p.worker = .returned operation := by
  cases h with
  | stays =>
    obtain rfl := Option.some.inj (hp.symm.trans hq)
    exact .inl hplace
  | skips _ _ _ =>
    obtain rfl := Option.some.inj hq
    exact .inl hplace
  | raises _ _ _ =>
    obtain rfl := Option.some.inj hq
    cases raised_outside hplace
  | withdraws _ =>
    obtain rfl := Option.some.inj hq
    cases raised_outside hplace
  | enters _ _ hbegins =>
    obtain rfl := Option.some.inj hq
    obtain ⟨rfl, -⟩ | ⟨rfl, -⟩ | ⟨rfl, -⟩ | ⟨rfl, -⟩ := hbegins <;> cases hplace
  | succeeds hworker _ =>
    obtain rfl := Option.some.inj hq
    obtain rfl := WorkerPlace.audits.inj hplace
    exact .inr hworker
  | @reports operation' survives _ =>
    obtain rfl := Option.some.inj hq
    cases survives <;> cases hplace
  | _ =>
    obtain rfl := Option.some.inj hq
    cases hplace

/-- The handler of a deletion that raised. -/
theorem Works.to_suspends (hplace : q.worker = .suspends operation error) :
    p.worker = .suspends operation error ∨ operation.kind = .tenantDelete ∧
      p.worker.operation = some operation ∧ p.worker.inTry = true ∧ s'.state = s.state := by
  have hraised : ∀ {operation' error'}, ControlPlane.raised operation' error' = .suspends operation error →
      operation' = operation ∧ operation.kind = .tenantDelete := by
    intro operation' error' heq
    unfold ControlPlane.raised at heq
    split_ifs at heq with hkind
    obtain ⟨rfl, -⟩ := WorkerPlace.suspends.inj heq
    exact ⟨rfl, hkind⟩
  cases h with
  | stays =>
    obtain rfl := Option.some.inj (hp.symm.trans hq)
    exact .inl hplace
  | skips _ _ _ =>
    obtain rfl := Option.some.inj hq
    exact .inl hplace
  | raises hown htry hwhy =>
    obtain rfl := Option.some.inj hq
    obtain ⟨rfl, hkind⟩ := hraised hplace
    exact .inr ⟨hkind, hown, htry, rfl⟩
  | withdraws hworker =>
    obtain rfl := Option.some.inj hq
    obtain ⟨rfl, hkind⟩ := hraised hplace
    exact .inr ⟨hkind, by rw [hworker]; rfl, by rw [hworker]; rfl, rfl⟩
  | enters _ _ hbegins =>
    obtain rfl := Option.some.inj hq
    obtain ⟨rfl, -⟩ | ⟨rfl, -⟩ | ⟨rfl, -⟩ | ⟨rfl, -⟩ := hbegins <;> cases hplace
  | @reports operation' survives _ =>
    obtain rfl := Option.some.inj hq
    cases survives <;> cases hplace
  | _ =>
    obtain rfl := Option.some.inj hq
    cases hplace

theorem Works.to_fails (hplace : q.worker = .fails operation error)
    (hkind : operation.kind = .tenantDelete) :
    p.worker = .fails operation error ∨ p.worker = .suspends operation error ∧
      s'.state.tenantStatus operation.tenantId ≠ .deletionPending := by
  have hraised : ∀ {operation' error'}, ControlPlane.raised operation' error' ≠ .fails operation error := by
    intro operation' error' heq
    unfold ControlPlane.raised at heq
    split_ifs at heq with hkind'
    obtain ⟨rfl, -⟩ := WorkerPlace.fails.inj heq
    exact hkind' hkind
  cases h with
  | stays =>
    obtain rfl := Option.some.inj (hp.symm.trans hq)
    exact .inl hplace
  | skips _ _ _ =>
    obtain rfl := Option.some.inj hq
    exact .inl hplace
  | raises _ _ _ =>
    obtain rfl := Option.some.inj hq
    exact (hraised hplace).elim
  | withdraws _ =>
    obtain rfl := Option.some.inj hq
    exact (hraised hplace).elim
  | enters _ _ hbegins =>
    obtain rfl := Option.some.inj hq
    obtain ⟨rfl, -⟩ | ⟨rfl, -⟩ | ⟨rfl, -⟩ | ⟨rfl, -⟩ := hbegins <;> cases hplace
  | suspends hworker hrun =>
    obtain rfl := Option.some.inj hq
    obtain ⟨rfl, rfl⟩ := WorkerPlace.fails.inj hplace
    refine .inr ⟨hworker, fun hpending => ?_⟩
    have hpending' := (congrFun (suspendPending_ok hrun) _).symm.trans hpending
    rw [Function.update_self] at hpending'
    split_ifs at hpending' with hbefore
    exact hbefore hpending'
  | @reports operation' survives _ =>
    obtain rfl := Option.some.inj hq
    cases survives <;> cases hplace
  | _ =>
    obtain rfl := Option.some.inj hq
    cases hplace

end Arrivals

/-! ## Steps -/

section Step

variable (hs : Ordered c s.state s.process s.tokens) (hv : Valid c s.state)
  (hsuits : ∀ p, s.process = some p → p.worker.suits) (hroomy : Roomy s) (h : Backed s)
include hs hv h

omit hv in
/-- The worker does not leave a deletion that it has begun without a trace in its tenant. -/
theorem Backed.underway_or_deleted (hp : s.process = some p) {operation : Operation}
    (hown : p.worker.operation = some operation) (htry : p.worker.inTry = true)
    (hkind : operation.kind = .tenantDelete) :
    Underway s.state operation.tenantId operation.operationId ∨
      s.state.tenantStatus operation.tenantId = .deleted := by
  have hexpects := (hs.placed p hp).expects operation hown
  have hstands := h.stands p hp
  generalize hworker : p.worker = place at hexpects hstands htry
  rw [hworker] at hown
  cases place with
  | idle | dead | suspends | fails | reports => cases htry
  | audits other =>
    obtain rfl := Option.some.inj hown
    exact .inr (hstands hkind)
  | _ => exact .inl (underway_worker hs hp (by rw [hworker]; exact hown) hkind hexpects rfl)

include hsuits hroomy in
theorem Backed.stands_step (hq : (s.step c a).process = some q) :
    q.worker.Stands (s.step c a).state := by
  -- what holds of the tenant before the step holds after it
  have hdeleted : ∀ {tenantId}, s.state.tenantStatus tenantId = .deleted →
      (s.step c a).state.tenantStatus tenantId = .deleted := by
    intro tenantId hbefore
    rcases status_rests hs hv h (a := a) (by rw [hbefore]; simp) (by rw [hbefore]; simp) with hsame | h'
    · rw [hsame, hbefore]
    · exact h'
  have hother : ∀ {tenantId}, s.state.tenantStatus tenantId ≠ .deletionPending ∧
      s.state.tenantStatus tenantId ≠ .active →
      (s.step c a).state.tenantStatus tenantId ≠ .deletionPending ∧
        (s.step c a).state.tenantStatus tenantId ≠ .active := by
    intro tenantId hbefore
    rcases status_rests hs hv h (a := a) hbefore.2 hbefore.1 with hsame | h'
    · rw [hsame]
      exact hbefore
    · rw [h']
      simp
  have hsame : ∀ p, s.process = some p → p.worker.Stands (s.step c a).state := by
    intro p hp
    have hstands := h.stands p hp
    generalize hworker : p.worker = place at hstands ⊢
    cases place with
    | returned operation | audits operation => exact fun hkind => hdeleted (hstands hkind)
    | suspends operation error =>
      obtain ⟨hkind, hunderway | hgone⟩ := hstands
      · refine ⟨hkind, .inl ?_⟩
        rcases underway_after hs hv hroomy (a := a) hunderway with h' |
          ⟨p', other, hp', -, -, hplace | ⟨_, hplace⟩⟩
        · exact h'
        all_goals
          obtain rfl := Option.some.inj (hp.symm.trans hp')
          rw [hworker] at hplace
          cases hplace
      · exact ⟨hkind, .inr (hdeleted hgone)⟩
    | fails operation error => exact fun hkind => hother (hstands hkind)
    | _ => trivial
  rcases worker_step hs hv a hq with hidle | ⟨p, hp, hkept⟩ | ⟨p, fault, now, ha, hp, hworks⟩
  · rw [hidle]
    trivial
  · rw [hkept]
    exact hsame p hp
  have hsuit := hsuits p hp
  have hbefore := hsame p hp
  generalize hplace : q.worker = place
  cases place with
  | returned operation =>
    intro hkind
    rcases hworks.to_returned hp hq hplace with hworker | ⟨-, hfound⟩ | hworker | hworker |
      hworker | ⟨-, hgone⟩
    · rw [hworker] at hbefore
      exact hbefore hkind
    · refine hdeleted ?_
      unfold ControlPlane.Found at hfound
      rwa [hkind] at hfound
    · rw [hworker] at hsuit
      exact (hsuit (by rw [hkind]; rfl)).elim
    · rw [hworker] at hsuit
      cases hkind.symm.trans hsuit
    · rw [hworker] at hsuit
      cases hkind.symm.trans hsuit
    · exact hgone
  | audits operation =>
    rcases hworks.to_audits hp hq hplace with hworker | hworker
    all_goals
      rw [hworker] at hbefore
      exact hbefore
  | suspends operation error =>
    rcases hworks.to_suspends hp hq hplace with hworker | ⟨hkind, hown, htry, hstate⟩
    · rw [hworker] at hbefore
      exact hbefore
    · refine ⟨hkind, ?_⟩
      rw [hstate]
      exact h.underway_or_deleted hs hp hown htry hkind
  | fails operation error =>
    intro hkind
    rcases hworks.to_fails hp hq hplace hkind with hworker | ⟨hworker, hpending⟩
    · rw [hworker] at hbefore
      exact hbefore hkind
    · refine ⟨hpending, fun hactive => ?_⟩
      have hstands := h.stands p hp
      rw [hworker] at hstands
      rcases status_active hs hv h hactive with hactive' | ⟨i, call, faults, now', -, ha', -⟩
      · obtain ⟨-, hunderway | hgone⟩ := hstands
        · exact h.active _ _ hunderway hactive'
        · cases hgone.symm.trans hactive'
      · cases ha.symm.trans ha'
  | _ => trivial

theorem Backed.deletes_step {call : Call} (hq : (s.step c a).process = some q)
    (hmem : call ∈ q.calls) (hplace : call.place = .unwinds) :
    call.request.kind = .tenantDelete := by
  cases Asks.step hs hv a with
  | stops hstops =>
    rw [hstops] at hq
    cases hq
  | begins q' hp hq' hcalls =>
    obtain rfl := Option.some.inj (hq'.symm.trans hq)
    rw [hcalls] at hmem
    cases hmem
  | keeps p q' hp hq' hcalls =>
    obtain rfl := Option.some.inj (hq'.symm.trans hq)
    rw [hcalls] at hmem
    exact h.deletes p call hp hmem hplace
  | adds p q' r hp hq' hcalls =>
    obtain rfl := Option.some.inj (hq'.symm.trans hq)
    rw [hcalls] at hmem
    rcases List.mem_append.mp hmem with hmem | hmem
    · exact h.deletes p call hp hmem hplace
    · rw [List.mem_singleton.mp hmem] at hplace
      cases hplace
  | answers p q' i other place faults fault now hp hq' ha hcall hcalls hanswers =>
    obtain rfl := Option.some.inj (hq'.symm.trans hq)
    rw [hcalls] at hmem
    rcases List.mem_or_eq_of_mem_set hmem with hmem | rfl
    · exact h.deletes p call hp hmem hplace
    have hraised : (ControlPlane.callRaised other).place = .unwinds →
        other.request.kind = .tenantDelete := by
      unfold ControlPlane.callRaised
      split_ifs with hkind
      · exact fun _ => hkind
      · rintro ⟨⟩
    cases hanswers with
    | refuses _ _ => exact hraised hplace
    | yields _ => exact hraised hplace
    | _ => cases hplace

include hsuits hroomy in
theorem Backed.marked_step {i : ℕ} {call : Call} (hmarks : (s.step c a).Marks i call) :
    (s.step c a).state.tenantStatus call.request.tenantId = .deletionPending := by
  rcases marks_before hs hv hroomy hmarks with ⟨call', hmarks', hrequest, hplace⟩ | ⟨-, hpending, -, -⟩
  · rw [← hrequest]
    rcases status_marked hs hv hsuits h hmarks' (a := a) with hpending | ⟨faults, now, ha, hunwinds⟩
    · exact hpending
    · cases (hplace faults none now ha).1.symm.trans hunwinds
  · exact hpending

include hroomy in
theorem Backed.alone_step {i : ℕ} {call : Call} (hmarks : (s.step c a).Marks i call) :
    ¬Underway (s.step c a).state call.request.tenantId id := by
  intro hunderway
  rcases marks_before hs hv hroomy hmarks, underway_before hs hv hunderway with
    ⟨⟨call', hmarks', hrequest, hplace⟩ | ⟨hactive, -, hnot, -⟩, hbefore |
      ⟨p, j, other, faults, fault, now, hp, ha, hother, hadmitted, hkind, htenant, hid⟩⟩
  · exact h.alone i call' id hmarks' (hrequest ▸ hbefore)
  · obtain rfl := h.unique i j call' other hmarks'
      ⟨⟨p, hp, hother⟩, hkind, .inl hadmitted⟩ (by rw [hrequest, htenant])
    obtain ⟨operation, hfind, -⟩ := hunderway
    rw [hid, (hplace faults fault now ha).2] at hfind
    cases hfind
  · exact h.active _ id hbefore hactive
  · exact hnot j faults fault now ha

include hroomy in
theorem Backed.unique_step {i j : ℕ} {call call' : Call} (hi : (s.step c a).Marks i call)
    (hj : (s.step c a).Marks j call') (htenant : call.request.tenantId = call'.request.tenantId) :
    i = j := by
  rcases marks_before hs hv hroomy hi, marks_before hs hv hroomy hj with
    ⟨⟨before, hbefore, hrequest, -⟩ | ⟨hactive, -, -, hothers⟩,
      ⟨before', hbefore', hrequest', -⟩ | ⟨hactive', -, -, hothers'⟩⟩
  · exact h.unique i j before before' hbefore hbefore' (by rw [hrequest, hrequest', htenant])
  · rcases hothers' i call hi with hij | hmarks
    · exact hij
    · have hpending := h.marked i call hmarks
      rw [htenant, hactive'] at hpending
      cases hpending
  all_goals
    rcases hothers j call' hj with hij | hmarks
    · exact hij.symm
    · have hpending := h.marked j call' hmarks
      rw [← htenant, hactive] at hpending
      cases hpending

theorem Backed.active_step (hunderway : Underway (s.step c a).state tenantId id) :
    (s.step c a).state.tenantStatus tenantId ≠ .active := by
  intro hactive
  rcases status_active hs hv h hactive, underway_before hs hv hunderway with
    ⟨hbefore | ⟨i, call, faults, now, hmarks, ha, hunwinds, rfl⟩, hunderway' |
      ⟨p, j, other, faults', fault', now', hp, ha', hother, hadmitted, hkind, htenant, hid⟩⟩
  · exact h.active tenantId id hunderway' hbefore
  · have hpending := h.marked j other ⟨⟨p, hp, hother⟩, hkind, .inl hadmitted⟩
    rw [htenant, hbefore] at hpending
    cases hpending
  · exact h.alone i call id hmarks hunderway'
  · obtain ⟨rfl, -⟩ := Action.call.inj (ha.symm.trans ha')
    obtain ⟨⟨p', hp', hcall⟩, -⟩ := hmarks
    obtain rfl := Option.some.inj (hp.symm.trans hp')
    obtain rfl := Option.some.inj (hcall.symm.trans hother)
    cases hadmitted.symm.trans hunwinds

theorem Backed.single_step {id' : String} (hid : Underway (s.step c a).state tenantId id)
    (hid' : Underway (s.step c a).state tenantId id') : id = id' := by
  rcases underway_before hs hv hid, underway_before hs hv hid' with
    ⟨hbefore | ⟨p, i, call, _, _, _, hp, -, hcall, hplace, hkind, htenant, hnew⟩,
      hbefore' | ⟨p', i', call', _, _, _, hp', -, hcall', hplace', hkind', htenant', hnew'⟩⟩
  · exact h.single tenantId id id' hbefore hbefore'
  · exact (h.alone i' call' id ⟨⟨p', hp', hcall'⟩, hkind', .inl hplace'⟩ (htenant' ▸ hbefore)).elim
  · exact (h.alone i call id' ⟨⟨p, hp, hcall⟩, hkind, .inl hplace⟩ (htenant ▸ hbefore')).elim
  · rw [hnew, hnew']

include hroomy in
theorem Backed.pending_step (hw : s.Watches a)
    (hpending : (s.step c a).state.tenantStatus tenantId = .deletionPending) :
    (∃ id, Underway (s.step c a).state tenantId id) ∨
      ∃ i call, (s.step c a).Marks i call ∧ call.request.tenantId = tenantId := by
  rcases status_pending hs hv hpending with hbefore | hmarks
  swap
  · exact .inr hmarks
  rcases h.pending tenantId hbefore with ⟨id, hunderway⟩ | ⟨i, call, hmarks, rfl⟩
  · rcases underway_after hs hv hroomy (a := a) hunderway with hafter | ⟨p, operation, hp, hkind, rfl, hplace⟩
    · exact .inl ⟨id, hafter⟩
    have hstands := h.stands p hp
    rcases hplace with hworker | ⟨error, hworker⟩
    all_goals rw [hworker] at hstands
    · cases hbefore.symm.trans (hstands hkind)
    · exact ((hstands hkind).1 hbefore).elim
  · rcases marks_after hs hv hw hmarks with ⟨call', hmarks', hrequest⟩ | hunderway | hactive
    · exact .inr ⟨i, call', hmarks', by rw [hrequest]⟩
    · exact .inl hunderway
    · cases hactive.symm.trans hpending

include hsuits hroomy in
theorem Backed.step (hw : s.Watches a) : Backed (s.step c a) where
  marked _ _ hmarks := h.marked_step hs hv hsuits hroomy hmarks
  alone _ _ _ hmarks := h.alone_step hs hv hroomy hmarks
  unique _ _ _ _ hi hj htenant := h.unique_step hs hv hroomy hi hj htenant
  active _ _ hunderway := h.active_step hs hv hunderway
  single _ _ _ hid hid' := h.single_step hs hv hid hid'
  pending _ hpending := h.pending_step hs hv hroomy hw hpending
  deletes _ _ hq hmem hplace := h.deletes_step hs hv hq hmem hplace
  stands _ hq := h.stands_step hs hv hsuits hroomy hq

end Step

/-! ## Runs -/

/-- No step of the run cuts short a call that has marked its tenant. -/
def Watched (c : Settings) (actions : List Action) : Prop :=
  ∀ before a, before ++ [a] <+: actions → (ControlPlane.run c before).Watches a

/-- A call that takes its mark back leaves the tenant active and its gate open. -/
theorem reopened (c : Settings) (hv : Valid c s.state) {i : ℕ} {call : Call}
    (hmarks : s.Marks i call) (hplace : call.place = .unwinds) (faults : RecordFaults) (now : ℚ) :
    (s.step c (.call i faults none now)).Serves call.request.tenantId := by
  obtain ⟨⟨p, hp, hcall⟩, -⟩ := hmarks
  have hstep : s.step c (.call i faults none now) = s.advance c p i call faults none now := by
    unfold ControlPlane.step
    rw [hp]
    dsimp only
    rw [hcall]
  rw [hstep]
  unfold ControlPlane.advance
  rw [hplace]
  dsimp only
  split
  · next u state' hrun =>
    refine ⟨(congrFun (setStatus_ok hrun) _).trans (Function.update_self _ _ _), _, rfl, ?_⟩
    exact Function.update_self _ _ _
  · next error state' hrun => exact (setStatus_fault hv hrun rfl).elim

end Managed
end Controlplane
end MegaCache
