import MegaCache.Controlplane.OperationRuns

/-!
# Steps of the worker

The ways in which the worker can go on from where it stands, and what makes it raise.  States
that are written are within their limits, so a write can only fail with a fault.
-/

namespace MegaCache
namespace Controlplane
namespace Managed

variable {c : Settings} {state state' : ControlState} {s : ControlPlane} {p : Process}
  {fault : Option String} {now : ℚ}

/-! ## Limits -/

theorem validateTenant_ok {tenantId : String} {tenant : TenantState} :
    validateTenant c tenantId tenant = .ok () ↔
      tenant.backups.length ≤ (c.definition tenantId).retentionCount ∧
        tenant.exports.length ≤ (c.definition tenantId).exportCount ∧ tenant.drills.length ≤ 100 := by
  unfold validateTenant
  split_ifs with hbackups hexports hdrills
  · exact iff_of_false (by simp) (by omega)
  · exact iff_of_false (by simp) (by omega)
  · exact iff_of_false (by simp) (by omega)
  · exact iff_of_true rfl (by omega)

theorem forM_ok {α : Type} {f : α → Except String Unit} {l : List α} :
    l.forM f = .ok () ↔ ∀ a ∈ l, f a = .ok () := by
  induction l with
  | nil => simp [pure, Except.pure]
  | cons a l ih =>
    rw [List.forall_mem_cons, ← ih]
    show (f a >>= fun _ => l.forM f) = .ok () ↔ _
    cases f a with
    | error e => simp [bind, Except.bind]
    | ok u => simp [bind, Except.bind]

/-- A state within its limits. -/
def Valid (c : Settings) (state : ControlState) : Prop := validateState c state = .ok ()

theorem valid_iff : Valid c state ↔ state.operations.length ≤ c.maxOperations ∧
    ∀ tenantId ∈ c.tenantIds, validateTenant c tenantId (state.tenants tenantId) = .ok () := by
  unfold Valid validateState
  split_ifs with hlength
  · exact iff_of_false (by simp) (by omega)
  · rw [forM_ok]
    simp [not_lt.mp hlength]

/-- A write succeeds without a fault when its candidate is within the limits. -/
theorem mutateState_ok {mutation : ControlState → Except String ControlState}
    (hm : mutation state = .ok state') (hv : Valid c state') :
    mutateState c none mutation state = (.ok (), state') := by
  unfold mutateState
  rw [hm]
  dsimp only
  rw [show validateState c state' = .ok () from hv]

theorem mutateState_valid {mutation : ControlState → Except String ControlState}
    {r : Except String Unit} (hv : Valid c state)
    (h : mutateState c fault mutation state = (r, state')) : Valid c state' := by
  rcases mutateState_cases h with ⟨-, -, -, hv'⟩ | ⟨-, rfl⟩
  · exact hv'
  · exact hv

/-- A tenant is written whose lists are within their limits. -/
theorem Valid.setTenant (hv : Valid c state) {tenantId : String} {f : TenantState → TenantState}
    (hf : tenantId ∈ c.tenantIds → validateTenant c tenantId (f (state.tenants tenantId)) = .ok ()) :
    Valid c (state.setTenant tenantId f) := by
  obtain ⟨hlength, htenants⟩ := valid_iff.mp hv
  refine valid_iff.mpr ⟨hlength, fun other hother => ?_⟩
  by_cases heq : other = tenantId
  · subst heq
    rw [setTenant_self]
    exact hf hother
  · rw [setTenant_ne _ heq]
    exact htenants other hother

/-- The lists of the tenant do not get longer. -/
theorem Valid.setTenant_le (hv : Valid c state) {tenantId : String} {f : TenantState → TenantState}
    (hf : ∀ tenant, (f tenant).backups.length ≤ tenant.backups.length ∧
      (f tenant).exports.length ≤ tenant.exports.length ∧
        ((f tenant).drills.length ≤ tenant.drills.length ∨ (f tenant).drills.length ≤ 100)) :
    Valid c (state.setTenant tenantId f) := by
  refine hv.setTenant fun htenant => ?_
  have htenants := validateTenant_ok.mp ((valid_iff.mp hv).2 tenantId htenant)
  have hle := hf (state.tenants tenantId)
  exact validateTenant_ok.mpr (by omega)

theorem updateFirst_isSome {operationId : String} {f : Operation → Operation}
    {operations : List Operation} :
    (updateFirst operationId f operations).isSome ↔
      ∃ operation ∈ operations, operation.operationId = operationId := by
  induction operations with
  | nil => simp [updateFirst]
  | cons operation rest ih =>
    unfold updateFirst
    split_ifs with hid
    · simp [hid]
    · simp [hid, ih]

theorem updateFirst_length {operationId : String} {f : Operation → Operation}
    {operations operations' : List Operation}
    (h : updateFirst operationId f operations = some operations') :
    operations'.length = operations.length := by
  induction operations generalizing operations' with
  | nil => cases h
  | cons operation rest ih =>
    unfold updateFirst at h
    split_ifs at h
    · obtain rfl := Option.some.inj h
      rfl
    · obtain ⟨rest', hrest, rfl⟩ := Option.map_eq_some_iff.mp h
      rw [List.length_cons, List.length_cons, ih hrest]

/-- An operation that is listed is updated, unless there is a fault. -/
theorem updateOperation_ok (hv : Valid c state) (now : ℚ) {operationId : String}
    (status : OperationStatus) (error : Option String) (hfind : state.find operationId ≠ none) :
    ∃ state', updateOperation c none now operationId status error state = (.ok (), state') := by
  obtain ⟨operation, hop⟩ := Option.ne_none_iff_exists'.mp hfind
  obtain ⟨hmem, hid⟩ := ControlState.find_eq_some hop
  obtain ⟨operations, hupdate⟩ := Option.isSome_iff_exists.mp
    (updateFirst_isSome (f := Operation.updated now status error).mpr ⟨operation, hmem, hid⟩)
  refine ⟨{ state with operations := operations }, mutateState_ok ?_ ?_⟩
  · rw [hupdate]
    rfl
  · obtain ⟨hlength, htenants⟩ := valid_iff.mp hv
    refine valid_iff.mpr ⟨?_, htenants⟩
    rw [updateFirst_length hupdate]
    exact hlength

theorem auditAction_ok (hv : Valid c state) : auditAction c none none state = (.ok (), state) :=
  mutateState_ok rfl hv

/-! ## The worker -/

namespace WorkerPlace

/-- The places in the `try` of `_run_operation`. -/
def inTry : WorkerPlace → Bool
  | .idle | .suspends _ _ | .fails _ _ | .reports _ _ | .dead => false
  | _ => true

end WorkerPlace

/-- A handler that finds nothing to do. -/
def ControlPlane.Found (s : ControlPlane) (operation : Operation) : Prop :=
  match operation.kind with
  | .backup => ∃ item ∈ (s.state.tenants operation.tenantId).backups,
      item.operationId = operation.operationId
  | .dataExport | .auditExport => ∃ item ∈ (s.state.tenants operation.tenantId).exports,
      item.operationId = operation.operationId
  | .restoreValidate => True
  | .restore => (s.state.tenants operation.tenantId).lastRestore = some operation.operationId
  | .drDrill => operation.operationId ∈ (s.state.tenants operation.tenantId).drills
  | .tenantDelete => (s.state.tenants operation.tenantId).status = .deleted

/-- The places at which a handler begins to change something; a restore has then changed it. -/
def ControlPlane.Begins (s : ControlPlane) (operation : Operation) (place : WorkerPlace) : Prop :=
  place = .writes operation ∧ operation.kind.artifact ≠ none ∨
    place = .replaced operation ∧ operation.kind = .restore ∨
    place = .drilled operation ∧ operation.kind = .drDrill ∨
    place = .clears operation ((s.state.tenants operation.tenantId).listed.map ListedArtifact.name) ∧
      operation.kind = .tenantDelete

/-- What makes the worker raise without a fault. -/
def ControlPlane.Stumbles (s : ControlPlane) (p : Process) : Prop :=
  (∃ operation error, p.worker = .starts operation ∧
      s.startPlace operation none = raised operation error) ∨
    (∃ operation, p.worker = .writes operation ∧ operation.kind.artifact = none) ∨
    ∃ operation name rest, p.worker = .sweeps operation (name :: rest) ∧ s.files.get? name = none

/-- The ways in which the worker goes on. -/
inductive Works (c : Settings) (s : ControlPlane) (p : Process) (fault : Option String) (now : ℚ) :
    ControlPlane → Prop
  | stays : Works c s p fault now s
  | skips {operationId : String} {rest : List String} : p.worker = .idle →
      p.queue = operationId :: rest → s.state.find operationId = none →
      Works c s p fault now { s with process := some { p with queue := rest } }
  | takes {operation : Operation} {rest : List String} : p.worker = .idle →
      p.queue = operation.operationId :: rest →
      s.state.find operation.operationId = some operation →
      Works c s p fault now (s.goto { p with queue := rest } (.taken operation))
  | raises {operation : Operation} {error : String} : p.worker.operation = some operation →
      p.worker.inTry = true → fault ≠ none ∨ s.Stumbles p →
      Works c s p fault now (s.goto p (ControlPlane.raised operation error))
  | begins {operation : Operation} {state' : ControlState} : p.worker = .taken operation →
      updateOperation c fault now operation.operationId .running none s.state = (.ok (), state') →
      Works c s p fault now (ControlPlane.goto { s with state := state' } p (.starts operation))
  | finds {operation : Operation} : p.worker = .starts operation → s.Found operation →
      Works c s p fault now (s.goto p (.returned operation))
  | enters {operation : Operation} {place : WorkerPlace} : p.worker = .starts operation →
      place ≠ .replaced operation → s.Begins operation place → Works c s p fault now (s.goto p place)
  | replaces {operation : Operation} : p.worker = .starts operation → operation.kind = .restore →
      Works c s p fault now ((s.log operation).goto p (.replaced operation))
  | makes {operation : Operation} {kind : ArtifactKind} {expiresAt : Option ℚ} :
      p.worker = .writes operation → fault = none → operation.kind.artifact = some kind →
      Works c s p fault now (ControlPlane.goto { s with
        files := s.files.set (kind, c.tokenHex s.tokens) (c.namespaceFor operation.tenantId)
        tokens := s.tokens + 1 } p (.lists operation
          ⟨kind, c.tokenHex s.tokens, operation.operationId, now, expiresAt⟩))
  | lists {operation : Operation} {record : ListedArtifact} {state' : ControlState} :
      p.worker = .lists operation record →
      listArtifact c fault operation.tenantId record.createdAt record s.state = (.ok (), state') →
      Works c s p fault now ((ControlPlane.log { s with state := state' } operation).goto p
        (.trims operation (s.fallen c operation.tenantId record.createdAt record)))
  | unlisted {operation : Operation} {record : ListedArtifact} {error : String} :
      p.worker = .lists operation record → fault ≠ none →
      Works c s p fault now (s.goto p (.withdraws operation record error))
  | withdraws {operation : Operation} {record : ListedArtifact} {error : String} :
      p.worker = .withdraws operation record error →
      Works c s p fault now ((s.remove record.name).goto p (ControlPlane.raised operation error))
  | trims {operation : Operation} {name : ArtifactName} {rest : List ArtifactName} :
      p.worker = .trims operation (name :: rest) →
      Works c s p fault now ((s.remove name).goto p (.trims operation rest))
  | trimmed {operation : Operation} : p.worker = .trims operation [] →
      Works c s p fault now (s.goto p (.returned operation))
  | restores {operation : Operation} {state' : ControlState} : p.worker = .replaced operation →
      recordRestore c fault operation.tenantId operation.operationId s.state = (.ok (), state') →
      Works c s p fault now (ControlPlane.goto { s with state := state' } p (.returned operation))
  | drills {operation : Operation} {state' : ControlState} : p.worker = .drilled operation →
      recordDrill c fault operation.tenantId operation.operationId s.state = (.ok (), state') →
      Works c s p fault now ((ControlPlane.log { s with state := state' } operation).goto p
        (.returned operation))
  | clears {operation : Operation} {name : ArtifactName} {rest : List ArtifactName} :
      p.worker = .clears operation (name :: rest) →
      Works c s p fault now ((s.remove name).goto p (.clears operation rest))
  | cleared {operation : Operation} : p.worker = .clears operation [] →
      Works c s p fault now (s.goto p (.sweeps operation s.files.keys))
  | sweeps {operation : Operation} {name : ArtifactName} {rest : List ArtifactName} :
      p.worker = .sweeps operation (name :: rest) →
      s.files.get? name = some (c.namespaceFor operation.tenantId) →
      Works c s p fault now ((s.remove name).goto p (.sweeps operation rest))
  | passes {operation : Operation} {name : ArtifactName} {rest : List ArtifactName} :
      p.worker = .sweeps operation (name :: rest) →
      s.files.get? name ≠ some (c.namespaceFor operation.tenantId) →
      Works c s p fault now (s.goto p (.sweeps operation rest))
  | swept {operation : Operation} : p.worker = .sweeps operation [] →
      Works c s p fault now (s.goto p (.erases operation))
  | erases {operation : Operation} {state' : ControlState} : p.worker = .erases operation →
      eraseTenant c fault operation.tenantId now s.state = (.ok (), state') →
      Works c s p fault now ((ControlPlane.log { s with state := state' } operation).goto
        (ControlPlane.refuse p operation.tenantId) (.returned operation))
  | succeeds {operation : Operation} {state' : ControlState} : p.worker = .returned operation →
      updateOperation c fault now operation.operationId .succeeded none s.state = (.ok (), state') →
      Works c s p fault now (ControlPlane.goto { s with state := state' } p (.audits operation))
  | audited {operation : Operation} : p.worker = .audits operation →
      Works c s p fault now (s.goto p .idle)
  | suspends {operation : Operation} {error : String} {state' : ControlState} :
      p.worker = .suspends operation error →
      suspendPending c fault operation.tenantId s.state = (.ok (), state') →
      Works c s p fault now (ControlPlane.goto { s with state := state' }
        (ControlPlane.refuse p operation.tenantId) (.fails operation error))
  | stops {operation : Operation} {error : String} : p.worker = .suspends operation error →
      fault ≠ none →
      Works c s p fault now (s.goto (ControlPlane.refuse p operation.tenantId) .dead)
  | fails {operation : Operation} {error : String} {state' : ControlState} :
      p.worker = .fails operation error →
      updateOperation c fault now operation.operationId .failed (some error) s.state =
        (.ok (), state') →
      Works c s p fault now (ControlPlane.goto { s with state := state' } p
        (.reports operation true))
  | strands {operation : Operation} {error : String} : p.worker = .fails operation error →
      fault ≠ none ∨ s.state.find operation.operationId = none →
      Works c s p fault now (s.goto p (.reports operation false))
  | reports {operation : Operation} {survives : Bool} : p.worker = .reports operation survives →
      Works c s p fault now (s.goto p (if survives then .idle else .dead))

/-- What `_run_operation` comes to after the handlers were chosen. -/
theorem startPlace_steps (s : ControlPlane) (operation : Operation) (fault : Option String) :
    (s.startPlace operation fault = .returned operation ∧ s.Found operation) ∨
      s.Begins operation (s.startPlace operation fault) ∨
      ∃ error, s.startPlace operation fault = ControlPlane.raised operation error ∧
        (fault ≠ none ∨ s.startPlace operation none = ControlPlane.raised operation error) := by
  unfold ControlPlane.startPlace ControlPlane.Found ControlPlane.Begins
  cases hkind : operation.kind with
  | backup =>
    dsimp only
    split_ifs with hfound
    · exact .inl ⟨rfl, by simpa using hfound⟩
    · cases fault with
      | none => exact .inr (.inl (.inl ⟨rfl, by simp [OperationKind.artifact]⟩))
      | some error => exact .inr (.inr ⟨error, rfl, .inl (by simp)⟩)
  | dataExport =>
    dsimp only
    split_ifs with hfound
    · exact .inl ⟨rfl, by simpa using hfound⟩
    · cases fault with
      | none => exact .inr (.inl (.inl ⟨rfl, by simp [OperationKind.artifact]⟩))
      | some error => exact .inr (.inr ⟨error, rfl, .inl (by simp)⟩)
  | auditExport =>
    dsimp only
    split_ifs with hfound
    · exact .inl ⟨rfl, by simpa using hfound⟩
    · cases fault with
      | none => exact .inr (.inl (.inl ⟨rfl, by simp [OperationKind.artifact]⟩))
      | some error => exact .inr (.inr ⟨error, rfl, .inl (by simp)⟩)
  | restoreValidate =>
    dsimp only
    split_ifs with hbackup
    · cases fault with
      | none => exact .inl ⟨rfl, trivial⟩
      | some error => exact .inr (.inr ⟨error, rfl, .inl (by simp)⟩)
    · exact .inr (.inr ⟨_, rfl, .inr rfl⟩)
  | restore =>
    dsimp only
    split_ifs with hbackup hlast
    · cases fault with
      | none => exact .inl ⟨rfl, hlast⟩
      | some error => exact .inr (.inr ⟨error, rfl, .inl (by simp)⟩)
    · cases fault with
      | none => exact .inr (.inl (.inr (.inl ⟨rfl, rfl⟩)))
      | some error => exact .inr (.inr ⟨error, rfl, .inl (by simp)⟩)
    · exact .inr (.inr ⟨_, rfl, .inr rfl⟩)
  | drDrill =>
    dsimp only
    split_ifs with hfound hbackup
    · exact .inl ⟨rfl, hfound⟩
    · cases fault with
      | none => exact .inr (.inl (.inr (.inr (.inl ⟨rfl, rfl⟩))))
      | some error => exact .inr (.inr ⟨error, rfl, .inl (by simp)⟩)
    · exact .inr (.inr ⟨_, rfl, .inr rfl⟩)
  | tenantDelete =>
    dsimp only
    split_ifs with hdeleted
    · exact .inl ⟨rfl, hdeleted⟩
    · cases fault with
      | none => exact .inr (.inl (.inr (.inr (.inr ⟨rfl, rfl⟩))))
      | some error => exact .inr (.inr ⟨error, rfl, .inl (by simp)⟩)

/-- A write that moves the worker on, or raises and leaves the state. -/
theorem attempt_cases {q : Process} {write : Prog ControlState String Unit} {next : WorkerPlace}
    {handler : String → WorkerPlace}
    (hw : ∀ error state', write s.state = (.error error, state') → state' = s.state) :
    (∃ state', write s.state = (.ok (), state') ∧
      s.attempt q write next handler = ControlPlane.goto { s with state := state' } q next) ∨
      ∃ error, write s.state = (.error error, s.state) ∧
        s.attempt q write next handler = s.goto q (handler error) := by
  unfold ControlPlane.attempt
  rcases hrun : write s.state with ⟨error | u, state'⟩
  · obtain rfl := hw error state' hrun
    exact .inr ⟨error, rfl, rfl⟩
  · exact .inl ⟨state', rfl, rfl⟩

theorem updateOperation_error {operationId : String} {status : OperationStatus}
    {error : Option String} (e : String) (state' : ControlState)
    (h : updateOperation c fault now operationId status error state = (.error e, state')) :
    state' = state := by
  rcases mutateState_cases h with ⟨hr, -⟩ | ⟨-, rfl⟩
  · cases hr
  · rfl

theorem setTenant_error {tenantId : String} {f : TenantState → TenantState} (e : String)
    (state' : ControlState)
    (h : mutateState c fault (fun state => pure (state.setTenant tenantId f)) state =
      (.error e, state')) : state' = state := by
  rcases setTenant_cases h with ⟨hr, -⟩ | ⟨-, rfl⟩
  · cases hr
  · rfl

/-- A write of a tenant whose lists do not get longer fails with a fault only. -/
theorem setTenant_fault (hv : Valid c state) {tenantId e : String} {f : TenantState → TenantState}
    (h : mutateState c fault (fun state => pure (state.setTenant tenantId f)) state =
      (.error e, state'))
    (hf : ∀ tenant, (f tenant).backups.length ≤ tenant.backups.length ∧
      (f tenant).exports.length ≤ tenant.exports.length ∧
        ((f tenant).drills.length ≤ tenant.drills.length ∨ (f tenant).drills.length ≤ 100)) :
    fault ≠ none := by
  rintro rfl
  have hok : mutateState c none (fun state => pure (state.setTenant tenantId f)) state =
      (.ok (), state.setTenant tenantId f) := mutateState_ok rfl (hv.setTenant_le hf)
  rw [hok] at h
  cases h

theorem updateOperation_fault (hv : Valid c state) {operationId : String} {status : OperationStatus}
    {error : Option String} (hfind : state.find operationId ≠ none) {e : String}
    {state' : ControlState}
    (h : updateOperation c fault now operationId status error state = (.error e, state')) :
    fault ≠ none := by
  rintro rfl
  obtain ⟨state'', hok⟩ := updateOperation_ok hv now status error hfind
  rw [hok] at h
  cases h

theorem recordRestore_fault (hv : Valid c state) {tenantId operationId e : String}
    (h : recordRestore c fault tenantId operationId state = (.error e, state')) : fault ≠ none := by
  unfold recordRestore at h
  exact setTenant_fault hv h fun tenant => ⟨le_rfl, le_rfl, .inl le_rfl⟩

theorem recordDrill_fault (hv : Valid c state) {tenantId operationId e : String}
    (h : recordDrill c fault tenantId operationId state = (.error e, state')) : fault ≠ none := by
  unfold recordDrill at h
  refine setTenant_fault hv h fun tenant => ⟨le_rfl, le_rfl, .inr ?_⟩
  rw [List.length_drop, List.length_append, List.length_singleton]
  omega

theorem eraseTenant_fault (hv : Valid c state) {tenantId e : String}
    (h : eraseTenant c fault tenantId now state = (.error e, state')) : fault ≠ none := by
  unfold eraseTenant at h
  exact setTenant_fault hv h fun tenant => ⟨Nat.zero_le _, Nat.zero_le _, .inl le_rfl⟩

theorem setStatus_fault (hv : Valid c state) {tenantId e : String} {status : TenantStatus}
    (h : setStatus c fault tenantId status state = (.error e, state')) : fault ≠ none := by
  unfold setStatus at h
  exact setTenant_fault hv h fun tenant => ⟨le_rfl, le_rfl, .inl le_rfl⟩

theorem suspendPending_fault (hv : Valid c state) {tenantId e : String}
    (h : suspendPending c fault tenantId state = (.error e, state')) : fault ≠ none := by
  unfold suspendPending at h
  refine setTenant_fault hv h fun tenant => ?_
  split_ifs <;> exact ⟨le_rfl, le_rfl, .inl le_rfl⟩

theorem popExpired_length_le (cutoff : ℚ) (items : List ListedArtifact) :
    (popExpired cutoff items).2.length ≤ items.length := by
  fun_induction popExpired cutoff items with
  | case1 item next rest hexpired removed kept hpop ih =>
    rw [hpop] at ih
    exact ih.trans (Nat.le_succ _)
  | case2 item next rest hkept => exact le_rfl
  | case3 items hshort => exact le_rfl

theorem popSurplus_length_le (count : ℕ) (items : List ListedArtifact) :
    (popSurplus count items).2.length ≤ count := by
  unfold popSurplus
  rw [List.splitAt_eq, List.length_drop]
  omega

/-- The lists of a tenant hold a new record within their limits. -/
theorem validateTenant_enlist {tenantId : String} {tenant : TenantState} {record : ListedArtifact}
    (hv : validateTenant c tenantId tenant = .ok ()) : validateTenant c tenantId (tenant.setItems
      (enlist c tenantId now record (tenant.itemsOf record.kind)).2 record.kind) = .ok () := by
  obtain ⟨hbackups, hexports, hdrills⟩ := validateTenant_ok.mp hv
  refine validateTenant_ok.mpr ?_
  unfold enlist
  cases hkind : record.kind with
  | backup =>
    refine ⟨?_, hexports, hdrills⟩
    exact (popExpired_length_le _ _).trans (popSurplus_length_le _ _)
  | «export» => exact ⟨hbackups, popSurplus_length_le _ _, hdrills⟩
  | auditExport => exact ⟨hbackups, popSurplus_length_le _ _, hdrills⟩

theorem listArtifact_fault (hv : Valid c state) {tenantId e : String} {record : ListedArtifact}
    (h : listArtifact c fault tenantId now record state = (.error e, state')) : fault ≠ none := by
  rintro rfl
  have hok : listArtifact c none tenantId now record state = (.ok (), state.setTenant tenantId
      fun tenant => tenant.setItems
        (enlist c tenantId now record (tenant.itemsOf record.kind)).2 record.kind) :=
    mutateState_ok rfl (hv.setTenant fun htenant =>
      validateTenant_enlist ((valid_iff.mp hv).2 tenantId htenant))
  rw [hok] at h
  cases h

theorem find_of_status {id : String} {status : OperationStatus}
    (h : state.status id = some status) : state.find id ≠ none := by
  obtain ⟨operation, hop, -⟩ := ControlState.status_eq_some.mp h
  rw [hop]
  simp

theorem works_start {operation : Operation} (hworker : p.worker = .starts operation) :
    Works c s p fault now (s.start p operation fault) := by
  rcases startPlace_steps s operation fault with ⟨hplace, hfound⟩ | hbegins | ⟨error, hplace, hwhy⟩
  · unfold ControlPlane.start
    rw [hplace]
    exact .finds hworker hfound
  · unfold ControlPlane.start
    rcases id hbegins with ⟨hplace, -⟩ | ⟨hplace, hkind⟩ | ⟨hplace, -⟩ | ⟨hplace, -⟩
    · rw [hplace] at hbegins ⊢
      exact .enters hworker (by simp) hbegins
    · rw [hplace]
      exact .replaces hworker hkind
    · rw [hplace] at hbegins ⊢
      exact .enters hworker (by simp) hbegins
    · rw [hplace] at hbegins ⊢
      exact .enters hworker (by simp) hbegins
  · have hgoto : s.start p operation fault = s.goto p (ControlPlane.raised operation error) := by
      unfold ControlPlane.start
      rw [hplace]
      unfold ControlPlane.raised
      split_ifs <;> rfl
    rw [hgoto]
    refine .raises (by rw [hworker]; rfl) (by rw [hworker]; rfl) ?_
    rcases hwhy with hfault | hwhy
    · exact .inl hfault
    · exact .inr (.inl ⟨operation, error, hworker, hwhy⟩)

theorem works_write {operation : Operation} (hworker : p.worker = .writes operation) :
    Works c s p fault now (s.write c p operation fault now) := by
  have hown : p.worker.operation = some operation := by rw [hworker]; rfl
  unfold ControlPlane.write
  cases hkind : operation.kind.artifact with
  | none =>
    cases fault with
    | some error => exact .raises hown (by rw [hworker]; rfl) (.inl (by simp))
    | none => exact .raises hown (by rw [hworker]; rfl) (.inr (.inr (.inl ⟨operation, hworker, hkind⟩)))
  | some kind =>
    cases fault with
    | some error => exact .raises hown (by rw [hworker]; rfl) (.inl (by simp))
    | none => exact .makes hworker rfl hkind

/-- Where the worker goes from a state within its limits. -/
theorem works (hs : Ordered c s.state s.process s.tokens) (hv : Valid c s.state)
    (hp : s.process = some p) : Works c s p fault now (s.work c p fault now) := by
  have hexpects := (hs.placed p hp).expects
  unfold ControlPlane.work
  split
  · next hworker =>
    unfold ControlPlane.take
    split
    · exact .stays
    · next operationId rest hqueue =>
      split
      · next hfind => exact .skips hworker hqueue hfind
      · next operation hfind =>
        obtain ⟨-, rfl⟩ := ControlState.find_eq_some hfind
        exact .takes hworker hqueue hfind
  · next operation hworker =>
    have hown : p.worker.operation = some operation := by rw [hworker]; rfl
    have hstatus := hexpects operation hown
    rw [hworker] at hstatus
    rcases attempt_cases (s := s) (q := p) updateOperation_error with
      ⟨state', hrun, heq⟩ | ⟨error, hrun, heq⟩
    · rw [heq]
      exact .begins hworker hrun
    · rw [heq]
      refine .raises hown (by rw [hworker]; rfl) (.inl ?_)
      exact updateOperation_fault hv (find_of_status hstatus) hrun
  · next operation hworker => exact works_start hworker
  · next operation hworker => exact works_write hworker
  · next operation record hworker =>
    unfold ControlPlane.list
    split
    · next u state' hrun => exact .lists hworker hrun
    · next error state' hrun =>
      have hfault := listArtifact_fault hv hrun
      obtain rfl := setTenant_error error state' hrun
      exact .unlisted hworker hfault
  · next operation record error hworker =>
    have hown : p.worker.operation = some operation := by rw [hworker]; rfl
    cases fault with
    | some other => exact .raises hown (by rw [hworker]; rfl) (.inl (by simp))
    | none => exact .withdraws hworker
  · next operation names hworker =>
    have hown : p.worker.operation = some operation := by rw [hworker]; rfl
    unfold ControlPlane.removeNext
    split
    · exact .trimmed hworker
    · exact .raises hown (by rw [hworker]; rfl) (.inl (by simp))
    · exact .trims hworker
  · next operation hworker =>
    have hown : p.worker.operation = some operation := by rw [hworker]; rfl
    rcases attempt_cases (s := s) (q := p) setTenant_error with
      ⟨state', hrun, heq⟩ | ⟨error, hrun, heq⟩
    · unfold recordRestore
      rw [heq]
      exact .restores hworker hrun
    · unfold recordRestore
      rw [heq]
      refine .raises hown (by rw [hworker]; rfl) (.inl ?_)
      exact recordRestore_fault hv hrun
  · next operation hworker =>
    have hown : p.worker.operation = some operation := by rw [hworker]; rfl
    split
    · next u state' hrun => exact .drills hworker hrun
    · next error state' hrun =>
      have hfault := recordDrill_fault hv hrun
      obtain rfl := setTenant_error error state' hrun
      exact .raises hown (by rw [hworker]; rfl) (.inl hfault)
  · next operation names hworker =>
    have hown : p.worker.operation = some operation := by rw [hworker]; rfl
    unfold ControlPlane.removeNext
    split
    · exact .cleared hworker
    · exact .raises hown (by rw [hworker]; rfl) (.inl (by simp))
    · exact .clears hworker
  · next operation names hworker =>
    have hown : p.worker.operation = some operation := by rw [hworker]; rfl
    unfold ControlPlane.sweep
    split
    · exact .swept hworker
    · exact .raises hown (by rw [hworker]; rfl) (.inl (by simp))
    · next name rest =>
      split
      · next hget =>
        exact .raises hown (by rw [hworker]; rfl) (.inr (.inr (.inr ⟨operation, name, rest, hworker, hget⟩)))
      · next tenantNamespace hget =>
        split_ifs with hnamespace
        · exact .sweeps hworker (by rw [hget, hnamespace])
        · refine .passes hworker fun heq => hnamespace ?_
          rw [hget] at heq
          exact Option.some.inj heq
  · next operation hworker =>
    have hown : p.worker.operation = some operation := by rw [hworker]; rfl
    split
    · next u state' hrun => exact .erases hworker hrun
    · next error state' hrun =>
      have hfault := eraseTenant_fault hv hrun
      obtain rfl := setTenant_error error state' hrun
      exact .raises hown (by rw [hworker]; rfl) (.inl hfault)
  · next operation hworker =>
    have hown : p.worker.operation = some operation := by rw [hworker]; rfl
    have hstatus := hexpects operation hown
    rw [hworker] at hstatus
    rcases attempt_cases (s := s) (q := p) updateOperation_error with
      ⟨state', hrun, heq⟩ | ⟨error, hrun, heq⟩
    · rw [heq]
      exact .succeeds hworker hrun
    · rw [heq]
      refine .raises hown (by rw [hworker]; rfl) (.inl ?_)
      exact updateOperation_fault hv (find_of_status hstatus) hrun
  · next operation hworker =>
    have hown : p.worker.operation = some operation := by rw [hworker]; rfl
    rcases attempt_cases (s := s) (q := p) (fun error state' h => auditAction_cases h) with
      ⟨state', hrun, heq⟩ | ⟨error, hrun, heq⟩
    · obtain rfl := auditAction_cases hrun
      rw [heq]
      exact .audited hworker
    · rw [heq]
      refine .raises hown (by rw [hworker]; rfl) (.inl ?_)
      rintro rfl
      rw [auditAction_ok hv] at hrun
      cases hrun
  · next operation error hworker =>
    rcases attempt_cases (s := s) (q := ControlPlane.refuse p operation.tenantId) setTenant_error with
      ⟨state', hrun, heq⟩ | ⟨error, hrun, heq⟩
    · unfold suspendPending
      rw [heq]
      exact .suspends hworker hrun
    · unfold suspendPending
      rw [heq]
      exact .stops hworker (suspendPending_fault hv hrun)
  · next operation error hworker =>
    rcases attempt_cases (s := s) (q := p) updateOperation_error with
      ⟨state', hrun, heq⟩ | ⟨error, hrun, heq⟩
    · rw [heq]
      exact .fails hworker hrun
    · rw [heq]
      refine .strands hworker (or_iff_not_imp_right.mpr fun hfind => ?_)
      exact updateOperation_fault hv hfind hrun
  · next operation survives hworker =>
    rcases attempt_cases (s := s) (q := p) (fun error state' h => auditAction_cases h) with
      ⟨state', hrun, heq⟩ | ⟨error, hrun, heq⟩
    · obtain rfl := auditAction_cases hrun
      rw [heq]
      exact .reports hworker
    · rw [heq]
      exact .reports hworker
  · exact .stays

end Managed
end Controlplane
end MegaCache
