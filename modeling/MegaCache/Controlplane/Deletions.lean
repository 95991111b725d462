import MegaCache.Controlplane.Listings
import MegaCache.Controlplane.Steps

/-!
# Deleted tenants

A tenant that is deleted keeps no artifact and serves nothing, and stays deleted, unless the
worker writes an artifact for it later on or a call that failed to delete it makes it active
again.
-/

namespace MegaCache
namespace Controlplane
namespace Managed

variable {c : Settings} {s s' : ControlPlane} {p : Process} {fault : Option String} {now : ℚ}
  {a : Action}

/-! ## Places and kinds -/

/-- The kind of operation that the worker can be at a place with. -/
def WorkerPlace.suits : WorkerPlace → Prop
  | .writes operation | .lists operation _ | .withdraws operation _ _ | .trims operation _ =>
    operation.kind.artifact ≠ none
  | .replaced operation => operation.kind = .restore
  | .drilled operation => operation.kind = .drDrill
  | .clears operation _ | .sweeps operation _ | .erases operation => operation.kind = .tenantDelete
  | .idle | .taken _ | .starts _ | .returned _ | .audits _ | .suspends _ _ | .fails _ _
  | .reports _ _ | .dead => True

theorem raised_cases (operation : Operation) (error : String) :
    ControlPlane.raised operation error = .suspends operation error ∨
      ControlPlane.raised operation error = .fails operation error := by
  unfold ControlPlane.raised
  split_ifs
  · exact .inl rfl
  · exact .inr rfl

/-- What raises leaves the `try` of `_run_operation`. -/
theorem raised_outside {operation : Operation} {error : String} {place : WorkerPlace}
    (h : ControlPlane.raised operation error = place) : place.inTry = false := by
  rcases raised_cases operation error with hraised | hraised
  all_goals
    rw [← h, hraised]
    rfl

theorem suits_raised (operation : Operation) (error : String) :
    (ControlPlane.raised operation error).suits := by
  rcases raised_cases operation error with h | h
  all_goals
    rw [h]
    trivial

theorem suits_begins {operation : Operation} {place : WorkerPlace}
    (h : s.Begins operation place) : place.suits := by
  obtain ⟨rfl, hkind⟩ | ⟨rfl, hkind⟩ | ⟨rfl, hkind⟩ | ⟨rfl, hkind⟩ := h
  all_goals exact hkind

theorem Works.suits (h : Works c s p fault now s') (hp : s.process = some p)
    (hsuits : p.worker.suits) {q : Process} (hq : s'.process = some q) : q.worker.suits := by
  cases h with
  | stays =>
    obtain rfl := Option.some.inj (hp.symm.trans hq)
    exact hsuits
  | skips _ _ _ =>
    obtain rfl := Option.some.inj hq
    exact hsuits
  | raises _ _ _ =>
    obtain rfl := Option.some.inj hq
    exact suits_raised _ _
  | withdraws _ =>
    obtain rfl := Option.some.inj hq
    exact suits_raised _ _
  | enters _ _ hbegins =>
    obtain rfl := Option.some.inj hq
    exact suits_begins hbegins
  | replaces _ hkind =>
    obtain rfl := Option.some.inj hq
    exact hkind
  | makes hworker _ _ =>
    rw [hworker] at hsuits
    obtain rfl := Option.some.inj hq
    exact hsuits
  | lists hworker _ =>
    rw [hworker] at hsuits
    obtain rfl := Option.some.inj hq
    exact hsuits
  | unlisted hworker =>
    rw [hworker] at hsuits
    obtain rfl := Option.some.inj hq
    exact hsuits
  | trims hworker =>
    rw [hworker] at hsuits
    obtain rfl := Option.some.inj hq
    exact hsuits
  | clears hworker =>
    rw [hworker] at hsuits
    obtain rfl := Option.some.inj hq
    exact hsuits
  | cleared hworker =>
    rw [hworker] at hsuits
    obtain rfl := Option.some.inj hq
    exact hsuits
  | sweeps hworker _ =>
    rw [hworker] at hsuits
    obtain rfl := Option.some.inj hq
    exact hsuits
  | passes hworker _ =>
    rw [hworker] at hsuits
    obtain rfl := Option.some.inj hq
    exact hsuits
  | swept hworker =>
    rw [hworker] at hsuits
    obtain rfl := Option.some.inj hq
    exact hsuits
  | @reports operation survives _ =>
    obtain rfl := Option.some.inj hq
    cases survives <;> trivial
  | _ =>
    obtain rfl := Option.some.inj hq
    trivial

theorem suits_run (c : Settings) (actions : List Action) {p : Process}
    (hp : (ControlPlane.run c actions).process = some p) : p.worker.suits := by
  induction actions using List.reverseRecOn generalizing p with
  | nil => cases hp
  | append_singleton before a ih =>
    rw [run_append_singleton] at hp
    rcases worker_step (ordered_run before) (valid_run c before) a hp with
      hidle | ⟨p', hp', hsame⟩ | ⟨p', fault, now, -, hp', hworks⟩
    · rw [hidle]
      trivial
    · rw [hsame]
      exact ih hp'
    · exact hworks.suits hp' (ih hp') hp

/-! ## Gates -/

/-- A gate is open for an active tenant only. -/
def Gated (s : ControlPlane) : Prop :=
  ∀ p tenantId, s.process = some p → p.accepting tenantId = true →
    s.state.tenantStatus tenantId = .active

theorem Gated.step (h : Gated s) (hs : Ordered c s.state s.process s.tokens)
    (hv : Valid c s.state) (a : Action) : Gated (s.step c a) := by
  intro q tenantId hq haccepting
  cases Turns.step hs hv a with
  | keeps hstatus hgate =>
    rw [hstatus]
    rcases hgate q tenantId hq haccepting with ⟨p, hp, hbefore⟩ | ⟨-, hactive⟩
    · exact h p tenantId hp hbefore
    · rw [← hstatus]
      exact hactive
  | marks p r fault hp ha hkind hactive hstatus hprocess =>
    obtain rfl := Option.some.inj (hprocess.symm.trans hq)
    obtain ⟨hne, hbefore⟩ := refuse_accepting haccepting
    rw [hstatus, Function.update_of_ne hne]
    exact h p tenantId hp hbefore
  | reopens p i call faults now ha hp hcall hplace hstatus hprocess =>
    obtain rfl := Option.some.inj (hprocess.symm.trans hq)
    rw [hstatus]
    dsimp only at haccepting
    by_cases heq : tenantId = call.request.tenantId
    · rw [heq, Function.update_self]
    · rw [Function.update_of_ne heq] at haccepting ⊢
      exact h p tenantId hp haccepting
  | suspends p operation error hp hworker hstatus hprocess =>
    obtain rfl := Option.some.inj (hprocess.symm.trans hq)
    obtain ⟨hne, hbefore⟩ := refuse_accepting haccepting
    rw [hstatus, Function.update_of_ne hne]
    exact h p tenantId hp hbefore
  | erases p operation hp hworker hstatus hlisted hprocess =>
    obtain rfl := Option.some.inj (hprocess.symm.trans hq)
    obtain ⟨hne, hbefore⟩ := refuse_accepting haccepting
    rw [hstatus, Function.update_of_ne hne]
    exact h p tenantId hp hbefore

theorem gated_run (c : Settings) (actions : List Action) : Gated (ControlPlane.run c actions) := by
  induction actions using List.reverseRecOn with
  | nil =>
    intro p tenantId hp
    cases hp
  | append_singleton before a ih =>
    rw [run_append_singleton]
    exact ih.step (ordered_run before) (valid_run c before) a

/-! ## Deleted for good -/

/-- `engine_for` and `begin_operation` let a request of the tenant through. -/
def ControlPlane.Serves (s : ControlPlane) (tenantId : String) : Prop :=
  s.state.tenantStatus tenantId = .active ∧ ∃ p, s.process = some p ∧ p.accepting tenantId = true

/-- Nothing is left of the tenant. -/
structure Gone (c : Settings) (s : ControlPlane) (tenantId : String) : Prop where
  listed : (s.state.tenants tenantId).listed = []
  files : ∀ name, s.files.get? name ≠ some (c.namespaceFor tenantId)
  refused : ¬s.Serves tenantId ∧ ∀ p, s.process = some p → p.accepting tenantId = false

/-- The step neither writes an artifact into the namespace of a deleted tenant nor makes a
deleted tenant active again. -/
structure ControlPlane.Respects (c : Settings) (s : ControlPlane) (a : Action) : Prop where
  written : ∀ p operation tenantId now, s.process = some p → p.worker = .writes operation →
    a = .work none now → s.state.tenantStatus tenantId = .deleted →
    c.namespaceFor operation.tenantId ≠ c.namespaceFor tenantId
  reopened : ∀ p i call faults now, s.process = some p → p.calls[i]? = some call →
    call.place = .unwinds → a = .call i faults none now →
    s.state.tenantStatus call.request.tenantId ≠ .deleted

theorem deleted_stays (hs : Ordered c s.state s.process s.tokens) (hv : Valid c s.state)
    (hr : s.Respects c a) {tenantId : String} (h : s.state.tenantStatus tenantId = .deleted) :
    (s.step c a).state.tenantStatus tenantId = .deleted := by
  cases Turns.step hs hv a with
  | keeps hstatus hgate => rwa [hstatus]
  | marks p r fault hp ha hkind hactive hstatus hprocess =>
    rw [hstatus]
    by_cases heq : tenantId = r.tenantId
    · rw [← heq, h] at hactive
      cases hactive
    · rwa [Function.update_of_ne heq]
  | reopens p i call faults now ha hp hcall hplace hstatus hprocess =>
    rw [hstatus]
    by_cases heq : tenantId = call.request.tenantId
    · rw [heq] at h
      exact (hr.reopened p i call faults now hp hcall hplace ha h).elim
    · rwa [Function.update_of_ne heq]
  | suspends p operation error hp hworker hstatus hprocess =>
    -- the handler of a failed deletion suspends a tenant only while it is pending
    rw [hstatus]
    by_cases heq : tenantId = operation.tenantId
    · rw [← heq, Function.update_self, h]
      rfl
    · rwa [Function.update_of_ne heq]
  | erases p operation hp hworker hstatus hlisted hprocess =>
    rw [hstatus]
    by_cases heq : tenantId = operation.tenantId
    · rw [heq, Function.update_self]
    · rwa [Function.update_of_ne heq]

/-- What a step deletes, and what was deleted before. -/
theorem deleted_before (hs : Ordered c s.state s.process s.tokens) (hv : Valid c s.state)
    {tenantId : String} (h : (s.step c a).state.tenantStatus tenantId = .deleted) :
    s.state.tenantStatus tenantId = .deleted ∨
      ∃ p operation, s.process = some p ∧ p.worker = .erases operation ∧
        operation.tenantId = tenantId ∧ ((s.step c a).state.tenants tenantId).listed = [] := by
  cases Turns.step hs hv a with
  | keeps hstatus hgate =>
    rw [hstatus] at h
    exact .inl h
  | marks p r fault hp ha hkind hactive hstatus hprocess =>
    rw [hstatus] at h
    by_cases heq : tenantId = r.tenantId
    · rw [heq, Function.update_self] at h
      cases h
    · rw [Function.update_of_ne heq] at h
      exact .inl h
  | reopens p i call faults now ha hp hcall hplace hstatus hprocess =>
    rw [hstatus] at h
    by_cases heq : tenantId = call.request.tenantId
    · rw [heq, Function.update_self] at h
      cases h
    · rw [Function.update_of_ne heq] at h
      exact .inl h
  | suspends p operation error hp hworker hstatus hprocess =>
    rw [hstatus] at h
    by_cases heq : tenantId = operation.tenantId
    · rw [heq, Function.update_self] at h
      split_ifs at h
      rw [heq]
      exact .inl h
    · rw [Function.update_of_ne heq] at h
      exact .inl h
  | erases p operation hp hworker hstatus hlisted hprocess =>
    rw [hstatus] at h
    by_cases heq : tenantId = operation.tenantId
    · exact .inr ⟨p, operation, hp, hworker, heq.symm, heq ▸ hlisted⟩
    · rw [Function.update_of_ne heq] at h
      exact .inl h

/-- Files are only taken away, unless an artifact is written. -/
theorem Handles.files (h : Handles c a s s') {name : ArtifactName} {x : String}
    (hname : s'.files.get? name = some x) : s.files.get? name = some x ∨
      ∃ p operation now, a = .work none now ∧ s.process = some p ∧ p.worker = .writes operation ∧
        x = c.namespaceFor operation.tenantId := by
  have herase : ∀ other, s'.files = s.files.erase other → s.files.get? name = some x := by
    intro other hfiles
    rw [hfiles, OrderedDict.get?_erase] at hname
    split_ifs at hname
    exact hname
  cases h with
  | keeps hquiet hfiles =>
    rw [hfiles] at hname
    exact .inl hname
  | discards p other hp hquiet hfiles hother => exact .inl (herase other hfiles)
  | strikes p other now ha hp hquiet hstate hfiles hother => exact .inl (herase other hfiles)
  | reconciles hp hquiet hkept hfiles => exact .inl (hfiles name x hname)
  | makes p operation record now ha hp hworker hid hown heq =>
    subst heq
    have hset : (s.files.set record.name (c.namespaceFor operation.tenantId)).get? name = some x :=
      hname
    rw [OrderedDict.get?_set] at hset
    split_ifs at hset
    · exact .inr ⟨p, operation, now, ha, hp, hworker, (Option.some.inj hset).symm⟩
    · exact .inl hset
  | lists p operation record hp hlists =>
    rw [hlists.files_eq] at hname
    exact .inl hname
  | retains p now hp heq =>
    subst heq
    exact .inl hname

/-- A tenant without artifacts gets one only by the worker's record. -/
theorem Handles.listed_nil (h : Handles c a s s') {tenantId : String}
    (hnil : (s.state.tenants tenantId).listed = []) : (s'.state.tenants tenantId).listed = [] ∨
      ∃ p operation record, s.process = some p ∧ p.worker = .lists operation record ∧
        operation.tenantId = tenantId := by
  have hshrinks : Shrinks s.state s'.state → (s'.state.tenants tenantId).listed = [] := by
    intro hshrinks
    have hsub := hshrinks.listed tenantId
    rw [hnil] at hsub
    exact List.subperm_nil.mp hsub
  cases h with
  | keeps hquiet hfiles => exact .inl (hshrinks hquiet.shrinks)
  | discards p other hp hquiet hfiles hother => exact .inl (hshrinks hquiet.shrinks)
  | strikes p other now ha hp hquiet hstate hfiles hother => exact .inl (hshrinks hquiet.shrinks)
  | reconciles hp hquiet hkept hfiles => exact .inl (hshrinks hquiet.shrinks)
  | makes p operation record now ha hp hworker hid hown heq =>
    subst heq
    exact .inl hnil
  | lists p operation record hp hlists =>
    by_cases ht : tenantId = operation.tenantId
    · exact .inr ⟨p, operation, record, hp, hlists.worker, ht.symm⟩
    · rw [hlists.tenant_ne ht]
      exact .inl hnil
  | retains p now hp heq =>
    subst heq
    exact .inl (hshrinks (shrinks_retention s.state now))

/-- Deleted tenants have nothing left, what the worker is to list is not for one of them, and
what `delete_namespace` has still to look at has all files of its tenant. -/
structure Swept (c : Settings) (s : ControlPlane) : Prop where
  gone : ∀ tenantId, s.state.tenantStatus tenantId = .deleted →
    (s.state.tenants tenantId).listed = [] ∧
      ∀ name, s.files.get? name ≠ some (c.namespaceFor tenantId)
  lists : ∀ p operation record, s.process = some p → p.worker = .lists operation record →
    s.state.tenantStatus operation.tenantId ≠ .deleted
  sweeps : ∀ p operation names, s.process = some p → p.worker = .sweeps operation names →
    ∀ name, s.files.get? name = some (c.namespaceFor operation.tenantId) → name ∈ names
  erases : ∀ p operation, s.process = some p → p.worker = .erases operation →
    ∀ name, s.files.get? name ≠ some (c.namespaceFor operation.tenantId)

section Places

variable {operation : Operation} {q : Process} (h : Works c s p fault now s')
  (hp : s.process = some p) (hq : s'.process = some q)
include h hp hq

/-- How the worker comes to list a record. -/
theorem Works.to_lists {record : ListedArtifact} (hplace : q.worker = .lists operation record) :
    p.worker = .lists operation record ∨ p.worker = .writes operation ∧ fault = none := by
  cases h with
  | stays =>
    obtain rfl := Option.some.inj (hp.symm.trans hq)
    exact .inl hplace
  | skips _ _ _ =>
    obtain rfl := Option.some.inj hq
    exact .inl hplace
  | raises _ _ _ =>
    obtain rfl := Option.some.inj hq
    cases raised_outside hplace
  | withdraws _ =>
    obtain rfl := Option.some.inj hq
    cases raised_outside hplace
  | enters _ _ hbegins =>
    obtain rfl := Option.some.inj hq
    obtain ⟨rfl, -⟩ | ⟨rfl, -⟩ | ⟨rfl, -⟩ | ⟨rfl, -⟩ := hbegins <;> cases hplace
  | makes hworker hfault _ =>
    obtain rfl := Option.some.inj hq
    obtain ⟨rfl, -⟩ := WorkerPlace.lists.inj hplace
    exact .inr ⟨hworker, hfault⟩
  | @reports operation' survives _ =>
    obtain rfl := Option.some.inj hq
    cases survives <;> cases hplace
  | _ =>
    obtain rfl := Option.some.inj hq
    cases hplace

/-- How the worker comes to what `delete_namespace` has still to look at. -/
theorem Works.to_sweeps {names : List ArtifactName} (hplace : q.worker = .sweeps operation names) :
    (p.worker = .sweeps operation names ∧ s'.files = s.files) ∨
      (∃ name, p.worker = .sweeps operation (name :: names) ∧
        (s'.files = s.files.erase name ∨
          s.files.get? name ≠ some (c.namespaceFor operation.tenantId) ∧ s'.files = s.files)) ∨
      names = s.files.keys ∧ s'.files = s.files := by
  cases h with
  | stays =>
    obtain rfl := Option.some.inj (hp.symm.trans hq)
    exact .inl ⟨hplace, rfl⟩
  | skips _ _ _ =>
    obtain rfl := Option.some.inj hq
    exact .inl ⟨hplace, rfl⟩
  | raises _ _ _ =>
    obtain rfl := Option.some.inj hq
    cases raised_outside hplace
  | withdraws _ =>
    obtain rfl := Option.some.inj hq
    cases raised_outside hplace
  | enters _ _ hbegins =>
    obtain rfl := Option.some.inj hq
    obtain ⟨rfl, -⟩ | ⟨rfl, -⟩ | ⟨rfl, -⟩ | ⟨rfl, -⟩ := hbegins <;> cases hplace
  | cleared hworker =>
    obtain rfl := Option.some.inj hq
    obtain ⟨rfl, rfl⟩ := WorkerPlace.sweeps.inj hplace
    exact .inr (.inr ⟨rfl, rfl⟩)
  | sweeps hworker _ =>
    obtain rfl := Option.some.inj hq
    obtain ⟨rfl, rfl⟩ := WorkerPlace.sweeps.inj hplace
    exact .inr (.inl ⟨_, hworker, .inl rfl⟩)
  | passes hworker hother =>
    obtain rfl := Option.some.inj hq
    obtain ⟨rfl, rfl⟩ := WorkerPlace.sweeps.inj hplace
    exact .inr (.inl ⟨_, hworker, .inr ⟨hother, rfl⟩⟩)
  | @reports operation' survives _ =>
    obtain rfl := Option.some.inj hq
    cases survives <;> cases hplace
  | _ =>
    obtain rfl := Option.some.inj hq
    cases hplace

/-- How the worker comes to the mutation of `_perform_delete`. -/
theorem Works.to_erases (hplace : q.worker = .erases operation) :
    (p.worker = .erases operation ∨ p.worker = .sweeps operation []) ∧ s'.files = s.files := by
  cases h with
  | stays =>
    obtain rfl := Option.some.inj (hp.symm.trans hq)
    exact ⟨.inl hplace, rfl⟩
  | skips _ _ _ =>
    obtain rfl := Option.some.inj hq
    exact ⟨.inl hplace, rfl⟩
  | raises _ _ _ =>
    obtain rfl := Option.some.inj hq
    cases raised_outside hplace
  | withdraws _ =>
    obtain rfl := Option.some.inj hq
    cases raised_outside hplace
  | enters _ _ hbegins =>
    obtain rfl := Option.some.inj hq
    obtain ⟨rfl, -⟩ | ⟨rfl, -⟩ | ⟨rfl, -⟩ | ⟨rfl, -⟩ := hbegins <;> cases hplace
  | swept hworker =>
    obtain rfl := Option.some.inj hq
    obtain rfl := WorkerPlace.erases.inj hplace
    exact ⟨.inr hworker, rfl⟩
  | @reports operation' survives _ =>
    obtain rfl := Option.some.inj hq
    cases survives <;> cases hplace
  | _ =>
    obtain rfl := Option.some.inj hq
    cases hplace

/-- How a handler comes to its end. -/
theorem Works.to_returned (hplace : q.worker = .returned operation) :
    p.worker = .returned operation ∨ (p.worker = .starts operation ∧ s.Found operation) ∨
      p.worker = .trims operation [] ∨ p.worker = .replaced operation ∨
      p.worker = .drilled operation ∨
      p.worker = .erases operation ∧ s'.state.tenantStatus operation.tenantId = .deleted := by
  cases h with
  | stays =>
    obtain rfl := Option.some.inj (hp.symm.trans hq)
    exact .inl hplace
  | skips _ _ _ =>
    obtain rfl := Option.some.inj hq
    exact .inl hplace
  | raises _ _ _ =>
    obtain rfl := Option.some.inj hq
    cases raised_outside hplace
  | withdraws _ =>
    obtain rfl := Option.some.inj hq
    cases raised_outside hplace
  | enters _ _ hbegins =>
    obtain rfl := Option.some.inj hq
    obtain ⟨rfl, -⟩ | ⟨rfl, -⟩ | ⟨rfl, -⟩ | ⟨rfl, -⟩ := hbegins <;> cases hplace
  | finds hworker hfound =>
    obtain rfl := Option.some.inj hq
    obtain rfl := WorkerPlace.returned.inj hplace
    exact .inr (.inl ⟨hworker, hfound⟩)
  | trimmed hworker =>
    obtain rfl := Option.some.inj hq
    obtain rfl := WorkerPlace.returned.inj hplace
    exact .inr (.inr (.inl hworker))
  | restores hworker _ =>
    obtain rfl := Option.some.inj hq
    obtain rfl := WorkerPlace.returned.inj hplace
    exact .inr (.inr (.inr (.inl hworker)))
  | drills hworker _ =>
    obtain rfl := Option.some.inj hq
    obtain rfl := WorkerPlace.returned.inj hplace
    exact .inr (.inr (.inr (.inr (.inl hworker))))
  | erases hworker hrun =>
    obtain rfl := Option.some.inj hq
    obtain rfl := WorkerPlace.returned.inj hplace
    exact .inr (.inr (.inr (.inr (.inr ⟨hworker,
      (congrFun (eraseTenant_ok hrun).1 _).trans (Function.update_self _ _ _)⟩))))
  | @reports operation' survives _ =>
    obtain rfl := Option.some.inj hq
    cases survives <;> cases hplace
  | _ =>
    obtain rfl := Option.some.inj hq
    cases hplace

end Places

section Sweep

variable (hs : Ordered c s.state s.process s.tokens) (hv : Valid c s.state) (h : Swept c s)
  (hr : s.Respects c a) {tenantId : String}
include hs hv h hr

theorem Swept.gone_step (hdeleted : (s.step c a).state.tenantStatus tenantId = .deleted) :
    ((s.step c a).state.tenants tenantId).listed = [] ∧
      ∀ name, (s.step c a).files.get? name ≠ some (c.namespaceFor tenantId) := by
  have hhandles := Handles.step hs a
  rcases deleted_before hs hv hdeleted with hbefore | ⟨p, operation, hp, hworker, rfl, hlisted⟩
  -- a tenant that was deleted gets neither a record nor a file
  · obtain ⟨hnil, hfiles⟩ := h.gone tenantId hbefore
    refine ⟨?_, fun name hname => ?_⟩
    · rcases hhandles.listed_nil hnil with hnil' | ⟨p, operation, record, hp, hworker, rfl⟩
      · exact hnil'
      · exact (h.lists p operation record hp hworker hbefore).elim
    · rcases hhandles.files hname with hname' | ⟨p, operation, now, ha, hp, hworker, heq⟩
      · exact hfiles name hname'
      · exact hr.written p operation tenantId now hp hworker ha hbefore heq.symm
  -- one that this step deletes was swept before
  · refine ⟨hlisted, fun name hname => ?_⟩
    rcases hhandles.files hname with hname' | ⟨q, operation', now, -, hq, hworker', -⟩
    · exact h.erases p operation hp hworker name hname'
    · obtain rfl := Option.some.inj (hp.symm.trans hq)
      rw [hworker] at hworker'
      cases hworker'

/-- The worker is not about to list a record of a tenant that this step deletes. -/
theorem Swept.lists_step {q : Process} {operation : Operation} {record : ListedArtifact}
    (hq : (s.step c a).process = some q) (hplace : q.worker = .lists operation record) :
    (s.step c a).state.tenantStatus operation.tenantId ≠ .deleted := by
  intro hdeleted
  have hbefore : ∀ p, s.process = some p → (∀ other, p.worker ≠ .erases other) →
      s.state.tenantStatus operation.tenantId = .deleted := by
    intro p hp hworker
    rcases deleted_before hs hv hdeleted with h | ⟨p', other, hp', herases, -⟩
    · exact h
    · obtain rfl := Option.some.inj (hp.symm.trans hp')
      exact (hworker other herases).elim
  have hstays : ∀ p, s.process = some p → p.worker = .lists operation record → False := by
    intro p hp hworker
    exact h.lists p operation record hp hworker (hbefore p hp fun other => by simp [hworker])
  rcases worker_step hs hv a hq with hidle | ⟨p, hp, hsame⟩ | ⟨p, fault, now, ha, hp, hworks⟩
  · rw [hidle] at hplace
    cases hplace
  · exact hstays p hp (hsame ▸ hplace)
  -- an artifact is written first, and not for a deleted tenant
  · rcases hworks.to_lists hp hq hplace with hworker | ⟨hworker, rfl⟩
    · exact hstays p hp hworker
    · exact hr.written p operation operation.tenantId now hp hworker ha
        (hbefore p hp fun other => by simp [hworker]) rfl

omit hr in
theorem Swept.sweeps_step {q : Process} {operation : Operation} {names : List ArtifactName}
    (hq : (s.step c a).process = some q) (hplace : q.worker = .sweeps operation names)
    {name : ArtifactName}
    (hname : (s.step c a).files.get? name = some (c.namespaceFor operation.tenantId)) :
    name ∈ names := by
  have hhandles := Handles.step hs a
  rcases worker_step hs hv a hq with hidle | ⟨p, hp, hsame⟩ | ⟨p, fault, now, -, hp, hworks⟩
  · rw [hidle] at hplace
    cases hplace
  · rw [hsame] at hplace
    rcases hhandles.files hname with hname' | ⟨p', operation', now, -, hp', hworker, -⟩
    · exact h.sweeps p operation names hp hplace name hname'
    · obtain rfl := Option.some.inj (hp.symm.trans hp')
      rw [hplace] at hworker
      cases hworker
  · rcases hworks.to_sweeps hp hq hplace with ⟨hworker, hfiles⟩ | ⟨other, hworker, hrest⟩ |
      ⟨rfl, hfiles⟩
    · rw [hfiles] at hname
      exact h.sweeps p operation names hp hworker name hname
    · have hleft := h.sweeps p operation (other :: names) hp hworker name
      rcases hrest with hfiles | ⟨hother, hfiles⟩
      · rw [hfiles, OrderedDict.get?_erase] at hname
        split_ifs at hname with hne
        exact (List.mem_cons.mp (hleft hname)).resolve_left hne
      · rw [hfiles] at hname
        refine (List.mem_cons.mp (hleft hname)).resolve_left fun heq => ?_
        rw [heq] at hname
        exact hother hname
    · rw [hfiles] at hname
      exact OrderedDict.mem_keys.mpr ⟨_, hname⟩

omit hr in
theorem Swept.erases_step {q : Process} {operation : Operation}
    (hq : (s.step c a).process = some q) (hplace : q.worker = .erases operation)
    (name : ArtifactName) :
    (s.step c a).files.get? name ≠ some (c.namespaceFor operation.tenantId) := by
  intro hname
  have hhandles := Handles.step hs a
  rcases worker_step hs hv a hq with hidle | ⟨p, hp, hsame⟩ | ⟨p, fault, now, -, hp, hworks⟩
  · rw [hidle] at hplace
    cases hplace
  · rw [hsame] at hplace
    rcases hhandles.files hname with hname' | ⟨p', operation', now, -, hp', hworker, -⟩
    · exact h.erases p operation hp hplace name hname'
    · obtain rfl := Option.some.inj (hp.symm.trans hp')
      rw [hplace] at hworker
      cases hworker
  · obtain ⟨hworker | hworker, hfiles⟩ := hworks.to_erases hp hq hplace
    all_goals rw [hfiles] at hname
    · exact h.erases p operation hp hworker name hname
    · exact List.not_mem_nil (h.sweeps p operation [] hp hworker name hname)

theorem Swept.step : Swept c (s.step c a) where
  gone _ hdeleted := h.gone_step hs hv hr hdeleted
  lists _ _ _ hq hplace := h.lists_step hs hv hr hq hplace
  sweeps _ _ _ hq hplace _ hname := h.sweeps_step hs hv hq hplace hname
  erases _ _ hq hplace := h.erases_step hs hv hq hplace

end Sweep

/-- What a deletion has come to: its handler has returned, or it has succeeded. -/
structure Settled (s : ControlPlane) : Prop where
  returned : ∀ p operation, s.process = some p → p.worker = .returned operation →
    operation.kind = .tenantDelete → s.state.tenantStatus operation.tenantId = .deleted
  succeeded : ∀ id operation, s.state.find id = some operation →
    operation.kind = .tenantDelete → operation.status = .succeeded →
      s.state.tenantStatus operation.tenantId = .deleted

section Settle

variable (hs : Ordered c s.state s.process s.tokens) (hv : Valid c s.state)
  (hsuits : ∀ p, s.process = some p → p.worker.suits) (h : Settled s) (hr : s.Respects c a)
include hs hv h hr

include hsuits in
theorem Settled.returned_step {q : Process} {operation : Operation}
    (hq : (s.step c a).process = some q) (hplace : q.worker = .returned operation)
    (hkind : operation.kind = .tenantDelete) :
    (s.step c a).state.tenantStatus operation.tenantId = .deleted := by
  rcases worker_step hs hv a hq with hidle | ⟨p, hp, hsame⟩ | ⟨p, fault, now, ha, hp, hworks⟩
  · rw [hidle] at hplace
    cases hplace
  · exact deleted_stays hs hv hr (h.returned p operation hp (hsame ▸ hplace) hkind)
  have hsuit := hsuits p hp
  rcases hworks.to_returned hp hq hplace with hworker | ⟨-, hfound⟩ | hworker | hworker |
    hworker | ⟨-, hdeleted⟩
  · exact deleted_stays hs hv hr (h.returned p operation hp hworker hkind)
  · refine deleted_stays hs hv hr ?_
    unfold ControlPlane.Found at hfound
    rwa [hkind] at hfound
  · rw [hworker] at hsuit
    refine (hsuit ?_).elim
    rw [hkind]
    rfl
  · rw [hworker] at hsuit
    cases hkind.symm.trans hsuit
  · rw [hworker] at hsuit
    cases hkind.symm.trans hsuit
  · exact hdeleted

theorem Settled.succeeded_step {id : String} {operation : Operation}
    (hfind : (s.step c a).state.find id = some operation) (hkind : operation.kind = .tenantDelete)
    (hstatus : operation.status = .succeeded) :
    (s.step c a).state.tenantStatus operation.tenantId = .deleted := by
  refine deleted_stays hs hv hr ?_
  have hchange := Changes.step hs hv a id
  rw [hfind] at hchange
  generalize hbefore : s.state.find id = before at hchange
  cases hchange with
  | stays => exact h.succeeded id operation hbefore hkind hstatus
  | recorded p i call faults fault now hp ha hcall hplace hid => cases hstatus
  | resets r hp =>
    unfold Operation.reset at hkind hstatus ⊢
    split_ifs at hkind hstatus ⊢
    exact h.succeeded id r hbefore hkind hstatus
  | begins p other r now hp hworker hid => cases hstatus
  | succeeds p other r now hp hworker hid =>
    have hcopied := (hs.placed p hp).copied other (by rw [hworker]; rfl)
    obtain ⟨hsame, htenant⟩ := hcopied r (hid ▸ hbefore)
    have hdeleted := h.returned p other hp hworker (hsame.symm.trans hkind)
    rwa [← htenant] at hdeleted
  | fails p other r error now hp hworker hid => cases hstatus
  | overflows p i call r error now hp hcall hplace => cases hstatus
  | requeues p rest r error now fault hp ha hrequeues hfull => cases hstatus

include hsuits in
theorem Settled.step : Settled (s.step c a) where
  returned _ _ hq hplace hkind := h.returned_step hs hv hsuits hr hq hplace hkind
  succeeded _ _ hfind hkind hstatus := h.succeeded_step hs hv hr hfind hkind hstatus

end Settle

/-! ## Runs -/

/-- Every step of the run respects the deleted tenants. -/
def Respectful (c : Settings) (actions : List Action) : Prop :=
  ∀ before a, before ++ [a] <+: actions → (ControlPlane.run c before).Respects c a

theorem Respectful.of_prefix {actions before : List Action} (h : Respectful c actions)
    (hpre : before <+: actions) : Respectful c before :=
  fun before' a hpre' => h before' a (hpre'.trans hpre)

theorem swept_run {actions : List Action} (h : Respectful c actions) :
    Swept c (ControlPlane.run c actions) ∧ Settled (ControlPlane.run c actions) := by
  induction actions using List.reverseRecOn with
  | nil =>
    have hprocess : ∀ p, (ControlPlane.run c []).process = some p → False := fun p hp => by cases hp
    refine ⟨⟨fun tenantId _ => ⟨rfl, fun name hname => ?_⟩, fun p _ _ hp => (hprocess p hp).elim,
      fun p _ _ hp => (hprocess p hp).elim, fun p _ hp => (hprocess p hp).elim⟩,
      ⟨fun p _ hp => (hprocess p hp).elim, fun id operation hfind => by cases hfind⟩⟩
    cases hname
  | append_singleton before a ih =>
    obtain ⟨hswept, hsettled⟩ := ih (h.of_prefix (List.prefix_append _ _))
    have hs := ordered_run (c := c) before
    have hr := h before a (List.prefix_refl _)
    rw [run_append_singleton]
    exact ⟨hswept.step hs (valid_run c before) hr,
      hsettled.step hs (valid_run c before) (fun p hp => suits_run c before hp) hr⟩

theorem deleted_run {before after : List Action} (h : Respectful c (before ++ after))
    {tenantId : String} (hdeleted : (ControlPlane.run c before).state.tenantStatus tenantId = .deleted) :
    (ControlPlane.run c (before ++ after)).state.tenantStatus tenantId = .deleted := by
  induction after using List.reverseRecOn with
  | nil => rwa [List.append_nil]
  | append_singleton rest a ih =>
    rw [← List.append_assoc] at h ⊢
    rw [run_append_singleton]
    exact deleted_stays (ordered_run _) (valid_run c _) (h _ a (List.prefix_refl _))
      (ih (h.of_prefix (List.prefix_append _ _)))

/-- A deleted tenant has nothing left, as long as the steps respect it. -/
theorem gone_run {actions : List Action} (h : Respectful c actions) {tenantId : String}
    (hdeleted : (ControlPlane.run c actions).state.tenantStatus tenantId = .deleted) :
    Gone c (ControlPlane.run c actions) tenantId := by
  obtain ⟨hlisted, hfiles⟩ := (swept_run h).1.gone tenantId hdeleted
  refine ⟨hlisted, hfiles, fun hserves => ?_, fun p hp => ?_⟩
  · rw [hserves.1] at hdeleted
    cases hdeleted
  · cases haccepting : p.accepting tenantId with
    | false => rfl
    | true =>
      rw [gated_run c actions p tenantId hp haccepting] at hdeleted
      cases hdeleted

/-- A step that does not respect a deleted tenant leaves a file of it, or makes it active. -/
theorem respects_of_gone {before : List Action} {a : Action}
    (h : ∀ tenantId, (ControlPlane.run c before).state.tenantStatus tenantId = .deleted →
      (ControlPlane.run c (before ++ [a])).state.tenantStatus tenantId = .deleted ∧
        Gone c (ControlPlane.run c (before ++ [a])) tenantId) :
    (ControlPlane.run c before).Respects c a := by
  simp only [run_append_singleton] at h
  have hsuits := fun p hp => suits_run c before (p := p) hp
  have hv := valid_run c before
  generalize ControlPlane.run c before = s at h hsuits hv ⊢
  refine ⟨fun p operation tenantId now hp hworker ha hdeleted hsame => ?_,
    fun p i call faults now hp hcall hplace ha hdeleted => ?_⟩
  · have hsuit := hsuits p hp
    rw [hworker] at hsuit
    obtain ⟨kind, hkind⟩ := Option.ne_none_iff_exists'.mp hsuit
    refine (h tenantId hdeleted).2.files (kind, c.tokenHex s.tokens) ?_
    rw [ha, ← hsame]
    simp only [ControlPlane.step, hp, ControlPlane.work, hworker, ControlPlane.write, hkind]
    exact OrderedDict.get?_set_self _ _ _
  · have hafter := (h _ hdeleted).1
    rw [ha] at hafter
    simp only [ControlPlane.step, hp, hcall, ControlPlane.advance, hplace] at hafter
    split at hafter
    · next u state' hrun =>
      have hactive := congrFun (setStatus_ok hrun) call.request.tenantId
      rw [Function.update_self] at hactive
      cases hactive.symm.trans hafter
    · next error state' hrun => exact setStatus_fault hv hrun rfl

/-- A deleted tenant stays deleted and has nothing left, no record, no file and no open gate,
exactly as long as no artifact is written into its namespace later on and no call that failed to
delete it makes it active again; and then a deletion that has succeeded is such a one. -/
theorem deletion_final (c : Settings) (actions : List Action) :
    ((∀ before after tenantId, before ++ after <+: actions →
        (ControlPlane.run c before).state.tenantStatus tenantId = .deleted →
        (ControlPlane.run c (before ++ after)).state.tenantStatus tenantId = .deleted ∧
          Gone c (ControlPlane.run c (before ++ after)) tenantId) ↔ Respectful c actions) ∧
    (Respectful c actions → ∀ before after, before ++ after = actions →
      ∀ id operation, (ControlPlane.run c before).state.find id = some operation →
        operation.kind = .tenantDelete → operation.status = .succeeded →
        (ControlPlane.run c actions).state.tenantStatus operation.tenantId = .deleted ∧
          Gone c (ControlPlane.run c actions) operation.tenantId) := by
  have hfinal : ∀ before after tenantId, Respectful c (before ++ after) →
      (ControlPlane.run c before).state.tenantStatus tenantId = .deleted →
      (ControlPlane.run c (before ++ after)).state.tenantStatus tenantId = .deleted ∧
        Gone c (ControlPlane.run c (before ++ after)) tenantId := by
    intro before after tenantId h hdeleted
    exact ⟨deleted_run h hdeleted, gone_run h (deleted_run h hdeleted)⟩
  refine ⟨⟨fun h before a hpre => ?_, fun h before after tenantId hpre => ?_⟩, ?_⟩
  · exact respects_of_gone fun tenantId hdeleted => h before [a] tenantId hpre hdeleted
  · exact hfinal before after tenantId (h.of_prefix hpre)
  · rintro h before after rfl id operation hfind hkind hstatus
    refine hfinal before after _ h ?_
    exact (swept_run (h.of_prefix (List.prefix_append _ _))).2.succeeded id operation hfind hkind hstatus

/-- A backup that is admitted before the deletion and recorded behind it. -/
def lateBackup : List Action :=
  .restart none none :: .request (backupOf "acme") none :: (asks (deletionOf "acme") 1 0 ++
    .call 0 ⟨none, none, none, none⟩ none 0 :: .call 0 ⟨none, none, none, none⟩ none 0 ::
      List.replicate 14 (.work none 0))

example : let s := ControlPlane.run oneTenant lateBackup
    s.state.tenantStatus "acme" = .deleted ∧ ((s.state.tenants "acme").listed.map
      ListedArtifact.name) = [(.backup, unaryToken 2)] := by decide +kernel

end Managed
end Controlplane
end MegaCache
