import MegaCache.Controlplane.Steps

/-!
# Calls and the room in the queue

What a step does to the calls.  The operations that wait are different records of the state,
and the state holds no more of them than the queue has places, so the queue is never full.
-/

namespace MegaCache
namespace Controlplane
namespace Managed

variable {c : Settings} {s s' : ControlPlane} {p q : Process} {fault : Option String} {now : ℚ}
  {a : Action}

/-! ## Room -/

/-- Everything that waits is a record of its own. -/
theorem awaiting_length_le (hs : Ordered c s.state s.process s.tokens) (hv : Valid c s.state)
    (hp : s.process = some p) : p.awaiting.length ≤ c.maxOperations := by
  have hplaced := hs.placed p hp
  have hsub : p.awaiting ⊆ s.state.operations.map Operation.operationId := by
    intro id hid
    obtain ⟨operation, hfind, -⟩ := ControlState.status_eq_some.mp (hplaced.pending id hid)
    obtain ⟨hmem, rfl⟩ := ControlState.find_eq_some hfind
    exact List.mem_map_of_mem hmem
  have hlength := (hplaced.nodup.subperm hsub).length_le
  rw [List.length_map] at hlength
  exact hlength.trans (valid_iff.mp hv).1

theorem Process.awaiting_length (p : Process) : p.awaiting.length =
    p.queue.length + (p.requeues.length + (p.calls.filterMap Call.held).length) := by
  unfold Process.awaiting
  rw [List.length_append, List.length_append]

/-- There is room for what is to be queued again. -/
theorem room_requeues (hs : Ordered c s.state s.process s.tokens) (hv : Valid c s.state)
    (hp : s.process = some p) (h : p.requeues ≠ []) : p.queue.length < c.maxOperations := by
  have hlength := awaiting_length_le hs hv hp
  rw [p.awaiting_length] at hlength
  have hpos := List.length_pos_iff.mpr h
  omega

/-- There is room for the operation that a call holds. -/
theorem room_held (hs : Ordered c s.state s.process s.tokens) (hv : Valid c s.state)
    (hp : s.process = some p) {i : ℕ} {call : Call} (hcall : p.calls[i]? = some call)
    (hheld : call.held ≠ none) : p.queue.length < c.maxOperations := by
  have hlength := awaiting_length_le hs hv hp
  rw [p.awaiting_length] at hlength
  obtain ⟨id, hid⟩ := Option.ne_none_iff_exists'.mp hheld
  have hmem : id ∈ p.calls.filterMap Call.held :=
    List.mem_filterMap.mpr ⟨call, List.mem_of_getElem? hcall, hid⟩
  have hpos := List.length_pos_of_mem hmem
  omega

/-! ## Calls -/

/-- Where a call goes from where it stands. -/
inductive Answers (c : Settings) (s s' : ControlPlane) (p : Process) (call : Call)
    (fault : Option String) : CallPlace → Prop
  | records (now : ℚ) : call.place = .admitted → s'.state.find (c.tokenHex s.tokens) =
      some (call.request.operation (c.tokenHex s.tokens) now) →
      Answers c s s' p call fault (.puts (c.tokenHex s.tokens))
  | recalls : call.place = .admitted → call.request.idempotencyKey.isSome →
      s.state.operations.any call.request.matches → Answers c s s' p call fault .returned
  | refuses : call.place = .admitted → s'.state.find (c.tokenHex s.tokens) = none →
      Answers c s s' p call fault (ControlPlane.callRaised call).place
  | queues {id : String} : call.place = .puts id → p.queue.length < c.maxOperations →
      Answers c s s' p call fault .returned
  | overflows {id : String} : call.place = .puts id → c.maxOperations ≤ p.queue.length →
      Answers c s s' p call fault (.overflowed id)
  | yields {id : String} : call.place = .overflowed id →
      Answers c s s' p call fault (ControlPlane.callRaised call).place
  | unwinds : call.place = .unwinds → (fault = none →
      s'.state.tenantStatus call.request.tenantId = .active) → Answers c s s' p call fault .raised

/-- An operation is given back that was there before. -/
theorem recordOperation_recalls {state state' : ControlState} {faults : RecordFaults}
    {request : Request} {operationId : String}
    (h : recordOperation c faults request operationId now state = (.ok false, state')) :
    request.idempotencyKey.isSome ∧ state.operations.any request.matches := by
  by_contra hkey
  unfold recordOperation at h
  rw [Prog.run_bind_ok (Prog.run_get state), if_neg hkey] at h
  rcases hcap : ensureOperationCapacity c faults.prune request.tenantId state with ⟨e | u, state₁⟩
  · rw [Prog.run_bind_error hcap] at h
    cases h
  rw [Prog.run_bind_ok hcap] at h
  rcases haudit : auditAction c faults.append faults.audit state₁ with ⟨e | u, state₂⟩
  · rw [Prog.run_bind_error haudit] at h
    cases h
  rw [Prog.run_bind_ok haudit] at h
  rcases hrecord : mutateState c faults.record (fun state => pure { state with
      operations := state.operations ++ [request.operation operationId now] }) state₂ with ⟨e | u, state₃⟩
  · rw [Prog.run_bind_error hrecord] at h
    cases h
  · rw [Prog.run_bind_ok hrecord] at h
    cases h

/-- What a step does to the calls. -/
inductive Asks (c : Settings) (a : Action) (s s' : ControlPlane) : Prop
  | stops : s'.process = none → (s.process = none ∨ a = .crash ∨
      ∃ p, s.process = some p ∧ p.requeues ≠ [] ∧ c.maxOperations ≤ p.queue.length) → Asks c a s s'
  | begins (q : Process) : s.process = none → s'.process = some q → q.calls = [] → Asks c a s s'
  | keeps (p q : Process) : s.process = some p → s'.process = some q → q.calls = p.calls →
      (∀ i faults fault now (call : Call), a = .call i faults fault now →
        p.calls[i]? = some call → call.place = .returned ∨ call.place = .raised) → Asks c a s s'
  | adds (p q : Process) (r : Request) : s.process = some p → s'.process = some q →
      q.calls = p.calls ++ [⟨r, .admitted⟩] → (∀ i faults fault now, a ≠ .call i faults fault now) →
      (r.kind = .tenantDelete → s.state.tenantStatus r.tenantId = .active ∧
        s'.state.tenantStatus r.tenantId = .deletionPending) → Asks c a s s'
  | answers (p q : Process) (i : ℕ) (call : Call) (place : CallPlace) (faults : RecordFaults)
      (fault : Option String) (now : ℚ) : s.process = some p → s'.process = some q →
      a = .call i faults fault now → p.calls[i]? = some call →
      q.calls = p.calls.set i { call with place := place } → Answers c s s' p call fault place →
      Asks c a s s'

/-- The calls stay as they are when the step is not one of them. -/
theorem Asks.still (hp : s.process = some p) (hq : s'.process = some q) (hcalls : q.calls = p.calls)
    (ha : ∀ i faults fault now, a ≠ .call i faults fault now) : Asks c a s s' :=
  .keeps p q hp hq hcalls fun i faults fault now _ h => (ha i faults fault now h).elim

theorem Works.asks (h : Works c s p fault now s') (hp : s.process = some p) :
    Asks c (.work fault now) s s' := by
  have hwork : ∀ i faults fault' now', Action.work fault now ≠ .call i faults fault' now' := by simp
  cases h with
  | stays => exact .still hp hp rfl hwork
  | _ => exact .still hp rfl rfl hwork

theorem Asks.request (hp : s.process = some p) (r : Request) :
    Asks c (.request r fault) s (s.request c p r fault) := by
  have hrequest : ∀ i faults fault' now, Action.request r fault ≠ .call i faults fault' now := by simp
  unfold ControlPlane.request
  by_cases hknown : r.tenantId ∉ c.tenantIds
  · rw [if_pos hknown]
    exact .still hp hp rfl hrequest
  rw [if_neg hknown]
  by_cases hkind : r.kind = .tenantDelete
  · rw [if_pos hkind]
    by_cases hactive : (s.state.tenants r.tenantId).status ≠ .active
    · rw [if_pos hactive]
      exact .still hp hp rfl hrequest
    rw [if_neg hactive]
    split
    · next u state' hrun =>
      refine .adds p _ r hp rfl rfl hrequest fun _ => ?_
      exact ⟨not_not.mp hactive, (congrFun (setStatus_ok hrun) _).trans (Function.update_self _ _ _)⟩
    · exact .still hp hp rfl hrequest
  · rw [if_neg hkind]
    split_ifs
    · exact .still hp hp rfl hrequest
    · exact .adds p _ r hp rfl rfl hrequest fun h => (hkind h).elim

theorem Asks.advance (hs : Ordered c s.state s.process s.tokens) (hv : Valid c s.state)
    (hp : s.process = some p) {i : ℕ} {call : Call} (hcall : p.calls[i]? = some call)
    (faults : RecordFaults) :
    Asks c (.call i faults fault now) s (s.advance c p i call faults fault now) := by
  unfold ControlPlane.advance
  split
  · next hplace =>
    split
    · next state' hrun =>
      refine .answers p _ i call _ faults fault now hp rfl rfl hcall rfl (.records now hplace ?_)
      obtain ⟨-, ⟨hr, -⟩ | ⟨-, -, hfound⟩⟩ := recordOperation_cases hs.distinct hs.fresh hrun
      · exact (hr rfl).elim
      · exact hfound
    · next state' hrun =>
      obtain ⟨hkey, hmatches⟩ := recordOperation_recalls hrun
      exact .answers p _ i call _ faults fault now hp rfl rfl hcall rfl (.recalls hplace hkey hmatches)
    · next error state' hrun =>
      refine .answers p _ i call _ faults fault now hp rfl rfl hcall rfl (.refuses hplace ?_)
      obtain ⟨-, ⟨-, hframe⟩ | ⟨hr, -⟩⟩ := recordOperation_cases hs.distinct hs.fresh hrun
      · show state'.find _ = none
        cases hfind : state'.find (c.tokenHex s.tokens) with
        | none => rfl
        | some operation =>
          have hbefore := hframe.old hfind (by simp)
          rw [hs.fresh] at hbefore
          cases hbefore
      · cases hr
  · next id hplace =>
    split_ifs with hroom
    · exact .answers p _ i call _ faults fault now hp rfl rfl hcall rfl (.queues hplace hroom)
    · exact .answers p _ i call _ faults fault now hp rfl rfl hcall rfl
        (.overflows hplace (not_lt.mp hroom))
  · next id hplace =>
    exact .answers p _ i call _ faults fault now hp rfl rfl hcall rfl (.yields hplace)
  · next hplace =>
    split
    · next u state' hrun =>
      refine .answers p _ i call _ faults fault now hp rfl rfl hcall rfl (.unwinds hplace fun _ => ?_)
      exact (congrFun (setStatus_ok hrun) _).trans (Function.update_self _ _ _)
    · next error state' hrun =>
      refine .answers p _ i call _ faults fault now hp rfl rfl hcall rfl (.unwinds hplace fun hnone => ?_)
      exact (setStatus_fault hv hrun hnone).elim
  · next hplace =>
    refine .keeps p p hp hp rfl fun i' faults' fault' now' call' ha hcall' => .inl ?_
    obtain ⟨rfl, -⟩ := Action.call.inj ha
    obtain rfl := Option.some.inj (hcall.symm.trans hcall')
    exact hplace
  · next hplace =>
    refine .keeps p p hp hp rfl fun i' faults' fault' now' call' ha hcall' => .inr ?_
    obtain ⟨rfl, -⟩ := Action.call.inj ha
    obtain rfl := Option.some.inj (hcall.symm.trans hcall')
    exact hplace

theorem Asks.step (hs : Ordered c s.state s.process s.tokens) (hv : Valid c s.state) (a : Action) :
    Asks c a s (s.step c a) := by
  unfold ControlPlane.step
  split
  · next stop fault hp =>
    unfold ControlPlane.restart
    cases stop with
    | some count =>
      refine .stops ?_ (.inl hp)
      dsimp only
      rw [(removeAll_state _ s).2.2.1, hp]
    | none =>
      dsimp only
      split
      · exact .begins _ hp rfl rfl
      · refine .stops ?_ (.inl hp)
        dsimp only
        rw [(removeAll_state _ s).2.2.1, hp]
  · next hp _ => exact .stops hp (.inl hp)
  · exact .stops rfl (.inr (.inl rfl))
  · next p fault now hp =>
    unfold ControlPlane.requeue
    split
    · exact .still hp hp rfl (by simp)
    next operationId rest hrequeues =>
    split_ifs with hroom
    · exact .still hp rfl rfl (by simp)
    split
    · exact .still hp rfl rfl (by simp)
    · exact .stops rfl (.inr (.inr ⟨p, hp, by simp [hrequeues], not_lt.mp hroom⟩))
  · next p fault now hp => exact (works hs hv hp).asks hp
  · next p r fault hp =>
    split_ifs
    · exact Asks.request hp r
    · exact .still hp hp rfl (by simp)
  · next p i faults fault now hp =>
    split
    · next call hcall => exact Asks.advance hs hv hp hcall faults
    · next hnone =>
      refine .keeps p p hp hp rfl fun i' faults' fault' now' call' ha hcall' => ?_
      obtain ⟨rfl, -⟩ := Action.call.inj ha
      rw [hnone] at hcall'
      cases hcall'
  · next p tenantId now hp =>
    split
    · next r hr =>
      refine .adds p _ r hp rfl rfl (by simp) fun hkind => ?_
      unfold ControlPlane.scheduledRequest at hr
      dsimp only at hr
      split_ifs at hr
      obtain rfl := Option.some.inj hr
      cases hkind
    · exact .still hp hp rfl (by simp)
  · next p fault now hp =>
    unfold ControlPlane.retain
    split
    · exact .still hp rfl rfl (by simp)
    · exact .still hp hp rfl (by simp)
  · next p i fault hp =>
    unfold ControlPlane.removeRetained
    split
    · exact .still hp rfl rfl (by simp)
    · exact .still hp rfl rfl (by simp)
  · next p hp => exact .still hp hp rfl (by simp)

/-- No call has found the queue full. -/
def Roomy (s : ControlPlane) : Prop :=
  ∀ p call id, s.process = some p → call ∈ p.calls → call.place ≠ .overflowed id

theorem Answers.not_overflowed {call : Call} {place : CallPlace} (h : Answers c s s' p call fault place)
    (hs : Ordered c s.state s.process s.tokens) (hv : Valid c s.state) (hp : s.process = some p)
    {i : ℕ} (hcall : p.calls[i]? = some call) (id : String) : place ≠ .overflowed id := by
  have hraised : (ControlPlane.callRaised call).place ≠ .overflowed id := by
    unfold ControlPlane.callRaised
    split_ifs <;> simp
  cases h with
  | refuses hplace _ => exact hraised
  | yields hplace => exact hraised
  | overflows hplace hfull =>
    have hroom := room_held hs hv hp hcall (by simp [Call.held, hplace])
    omega
  | _ => simp

theorem Roomy.step (h : Roomy s) (hs : Ordered c s.state s.process s.tokens)
    (hv : Valid c s.state) (a : Action) : Roomy (s.step c a) := by
  intro q call id hq hmem
  cases Asks.step hs hv a with
  | stops hstops =>
    rw [hstops] at hq
    cases hq
  | begins q' hp hq' hcalls =>
    obtain rfl := Option.some.inj (hq'.symm.trans hq)
    rw [hcalls] at hmem
    cases hmem
  | keeps p q' hp hq' hcalls hrests =>
    obtain rfl := Option.some.inj (hq'.symm.trans hq)
    rw [hcalls] at hmem
    exact h p call id hp hmem
  | adds p q' r hp hq' hcalls =>
    obtain rfl := Option.some.inj (hq'.symm.trans hq)
    rw [hcalls] at hmem
    rcases List.mem_append.mp hmem with hmem | hmem
    · exact h p call id hp hmem
    · rw [List.mem_singleton.mp hmem]
      simp
  | answers p q' i call' place faults fault now hp hq' ha hcall hcalls hanswers =>
    obtain rfl := Option.some.inj (hq'.symm.trans hq)
    rw [hcalls] at hmem
    rcases List.mem_or_eq_of_mem_set hmem with hmem | rfl
    · exact h p call id hp hmem
    · exact hanswers.not_overflowed hs hv hp hcall id

theorem roomy_run (c : Settings) (actions : List Action) : Roomy (ControlPlane.run c actions) := by
  induction actions using List.reverseRecOn with
  | nil =>
    intro p call id hp
    cases hp
  | append_singleton before a ih =>
    rw [run_append_singleton]
    exact ih.step (ordered_run before) (valid_run c before) a

end Managed
end Controlplane
end MegaCache
