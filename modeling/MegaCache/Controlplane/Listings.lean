import MegaCache.Controlplane.OperationRuns

/-!
# Listed artifacts and their files

Backups and exports are listed in the state and lie as files in a directory.  A file that is
to be removed is taken out of the lists first, everywhere but in the deletion of a tenant.
-/

namespace MegaCache
namespace Controlplane
namespace Managed

variable {c : Settings} {state state' : ControlState} {s : ControlPlane} {p : Process}
  {fault : Option String} {now : ℚ}

/-- A record of some tenant names the file. -/
def Listed (state : ControlState) (name : ArtifactName) : Prop :=
  ∃ tenantId, ∃ item ∈ (state.tenants tenantId).listed, item.name = name

/-- The record of an artifact that is written and not yet listed. -/
def WorkerPlace.record : WorkerPlace → Option ListedArtifact
  | .lists _ record | .withdraws _ record _ => some record
  | _ => none

def WorkerPlace.trimmed : WorkerPlace → List ArtifactName
  | .trims _ names => names
  | _ => []

/-- The files that are about to be removed. -/
def Process.doomed (p : Process) : List ArtifactName := p.worker.trimmed ++ p.retentions.flatten

/-- Files have one record, a file that is about to be removed has none, and neither has one that
was just written. -/
structure Named (c : Settings) (s : ControlPlane) : Prop where
  nodup : ∀ tenantId, ((s.state.tenants tenantId).listed.map ListedArtifact.name).Nodup
  unique : ∀ {tenantId tenantId' : String} {item item' : ListedArtifact},
    item ∈ (s.state.tenants tenantId).listed → item' ∈ (s.state.tenants tenantId').listed →
      item.name = item'.name → tenantId = tenantId'
  backups : ∀ {tenantId item}, item ∈ (s.state.tenants tenantId).backups → item.kind = .backup
  exports : ∀ {tenantId item}, item ∈ (s.state.tenants tenantId).exports → item.kind ≠ .backup
  drawn : ∀ {tenantId item}, item ∈ (s.state.tenants tenantId).listed →
    Drawn c s.tokens item.artifactId
  doomed : ∀ p, s.process = some p → ∀ name ∈ p.doomed,
    Drawn c s.tokens name.2 ∧ ¬Listed s.state name
  record : ∀ p record, s.process = some p → p.worker.record = some record →
    Drawn c s.tokens record.artifactId ∧ ¬Listed s.state record.name ∧ record.name ∉ p.doomed

/-- Records are only taken away. -/
structure Shrinks (state state' : ControlState) : Prop where
  backups : ∀ tenantId, (state'.tenants tenantId).backups.Subperm (state.tenants tenantId).backups
  exports : ∀ tenantId, (state'.tenants tenantId).exports.Subperm (state.tenants tenantId).exports

theorem Shrinks.of_eq
    (h : ∀ tenantId, (state'.tenants tenantId).backups = (state.tenants tenantId).backups ∧
      (state'.tenants tenantId).exports = (state.tenants tenantId).exports) : Shrinks state state' :=
  ⟨fun tenantId => (h tenantId).1 ▸ List.Subperm.refl _,
    fun tenantId => (h tenantId).2 ▸ List.Subperm.refl _⟩

theorem Shrinks.of_tenants (h : state'.tenants = state.tenants) : Shrinks state state' :=
  .of_eq fun tenantId => by simp [h]

theorem Shrinks.listed (h : Shrinks state state') (tenantId : String) :
    (state'.tenants tenantId).listed.Subperm (state.tenants tenantId).listed :=
  (h.backups tenantId).append (h.exports tenantId)

theorem Shrinks.not_listed (h : Shrinks state state') {name : ArtifactName}
    (hname : ¬Listed state name) : ¬Listed state' name := by
  rintro ⟨tenantId, item, hitem, heq⟩
  exact hname ⟨tenantId, item, (h.listed tenantId).subset hitem, heq⟩

theorem nodup_map_of_subperm {α β : Type} {l l' : List α} (f : α → β) (h : l.Subperm l')
    (hn : (l'.map f).Nodup) : (l.map f).Nodup := by
  obtain ⟨l'', hperm, hsub⟩ := h
  exact (hperm.map f).nodup_iff.mp (hn.sublist (hsub.map f))

/-- A step that lists nothing new. -/
theorem Named.shrink (h : Named c s) {s' : ControlPlane} (hshrinks : Shrinks s.state s'.state)
    (htokens : s.tokens ≤ s'.tokens)
    (hdoomed : ∀ q, s'.process = some q → ∀ name ∈ q.doomed,
      Drawn c s'.tokens name.2 ∧ ¬Listed s'.state name)
    (hrecord : ∀ q record, s'.process = some q → q.worker.record = some record →
      Drawn c s'.tokens record.artifactId ∧ ¬Listed s'.state record.name ∧ record.name ∉ q.doomed) :
    Named c s' where
  nodup tenantId := nodup_map_of_subperm _ (hshrinks.listed tenantId) (h.nodup tenantId)
  unique hitem hitem' heq :=
    h.unique ((hshrinks.listed _).subset hitem) ((hshrinks.listed _).subset hitem') heq
  backups hitem := h.backups ((hshrinks.backups _).subset hitem)
  exports hitem := h.exports ((hshrinks.exports _).subset hitem)
  drawn hitem := (h.drawn ((hshrinks.listed _).subset hitem)).mono htokens
  doomed := hdoomed
  record := hrecord

/-- A step that lists no record, makes none and dooms no file. -/
structure Quiet (s s' : ControlPlane) : Prop where
  shrinks : Shrinks s.state s'.state
  tokens_le : s.tokens ≤ s'.tokens
  doomed : ∀ q, s'.process = some q → ∀ name ∈ q.doomed, ∃ p, s.process = some p ∧ name ∈ p.doomed
  record : ∀ q record, s'.process = some q → q.worker.record = some record →
    ∃ p, s.process = some p ∧ p.worker.record = some record

theorem Named.quiet (h : Named c s) {s' : ControlPlane} (hquiet : Quiet s s') : Named c s' := by
  refine h.shrink hquiet.shrinks hquiet.tokens_le (fun q hq name hname => ?_)
    fun q record hq hrecord => ?_
  · obtain ⟨p, hp, hdoomed⟩ := hquiet.doomed q hq name hname
    obtain ⟨hdrawn, hlisted⟩ := h.doomed p hp name hdoomed
    exact ⟨hdrawn.mono hquiet.tokens_le, hquiet.shrinks.not_listed hlisted⟩
  · obtain ⟨p, hp, hbefore⟩ := hquiet.record q record hq hrecord
    obtain ⟨hdrawn, hlisted, hout⟩ := h.record p record hp hbefore
    refine ⟨hdrawn.mono hquiet.tokens_le, hquiet.shrinks.not_listed hlisted, fun hname => ?_⟩
    obtain ⟨p', hp', hdoomed⟩ := hquiet.doomed q hq _ hname
    obtain rfl := Option.some.inj (hp.symm.trans hp')
    exact hout hdoomed

/-! ## Listing -/

/-- The records of a tenant after one more was listed, with those that fell out. -/
theorem setItems_perm (tenant : TenantState) (tenantId : String) (record : ListedArtifact) :
    ((enlist c tenantId now record (tenant.itemsOf record.kind)).1 ++
      (tenant.setItems (enlist c tenantId now record (tenant.itemsOf record.kind)).2
        record.kind).listed).Perm (tenant.listed ++ [record]) := by
  have hperm := enlist_perm (c := c) tenantId now record (tenant.itemsOf record.kind)
  revert hperm
  generalize enlist c tenantId now record (tenant.itemsOf record.kind) = lists
  intro hperm
  unfold TenantState.listed
  cases hkind : record.kind with
  | backup =>
    rw [hkind] at hperm
    simp only [TenantState.setItems, TenantState.itemsOf] at hperm ⊢
    rw [← List.append_assoc]
    refine (hperm.append_right tenant.exports).trans ?_
    rw [List.append_assoc, List.append_assoc]
    exact List.perm_append_comm.append_left tenant.backups
  | «export» =>
    rw [hkind] at hperm
    simp only [TenantState.setItems, TenantState.itemsOf] at hperm ⊢
    refine (List.perm_append_comm_assoc _ _ _).trans ?_
    rw [List.append_assoc]
    exact hperm.append_left tenant.backups
  | auditExport =>
    rw [hkind] at hperm
    simp only [TenantState.setItems, TenantState.itemsOf] at hperm ⊢
    refine (List.perm_append_comm_assoc _ _ _).trans ?_
    rw [List.append_assoc]
    exact hperm.append_left tenant.backups

/-- The state in which one more record is listed. -/
theorem list_cases {operation : Operation} {record : ListedArtifact} {r : Except String Unit}
    (h : listArtifact c fault operation.tenantId record.createdAt record s.state = (r, state')) :
    (r = .ok () ∧ state' = s.state.setTenant operation.tenantId fun tenant =>
      tenant.setItems (enlist c operation.tenantId record.createdAt record
        (tenant.itemsOf record.kind)).2 record.kind) ∨ (∃ error, r = .error error) ∧ state' = s.state :=
  setTenant_cases h

theorem itemsOf_kind (h : Named c s) {tenantId : String} {kind : ArtifactKind} {item : ListedArtifact}
    (hitem : item ∈ (s.state.tenants tenantId).itemsOf kind) :
    item ∈ (s.state.tenants tenantId).listed ∧ (kind = .backup ↔ item.kind = .backup) := by
  unfold TenantState.listed
  cases kind with
  | backup => exact ⟨List.mem_append_left _ hitem, iff_of_true rfl (h.backups hitem)⟩
  | «export» =>
    exact ⟨List.mem_append_right _ hitem, iff_of_false (by simp) (h.exports hitem)⟩
  | auditExport =>
    exact ⟨List.mem_append_right _ hitem, iff_of_false (by simp) (h.exports hitem)⟩

/-- The files of the records that fell out are known by the names of these. -/
theorem mem_fallen (h : Named c s) {tenantId : String} {record : ListedArtifact}
    {name : ArtifactName} (hname : name ∈ s.fallen c tenantId now record) :
    ∃ item ∈ (enlist c tenantId now record
      ((s.state.tenants tenantId).itemsOf record.kind)).1, item.name = name := by
  obtain ⟨item, hitem, rfl⟩ := List.mem_map.mp hname
  refine ⟨item, hitem, ?_⟩
  cases hkind : record.kind with
  | backup =>
    have hmem := (enlist_perm (c := c) tenantId now record
      ((s.state.tenants tenantId).itemsOf record.kind)).subset (List.mem_append_left _ hitem)
    have hbackup : item.kind = .backup := by
      rcases List.mem_append.mp hmem with hmem | hmem
      · exact (itemsOf_kind h hmem).2.mp hkind
      · rw [List.mem_singleton.mp hmem]
        exact hkind
    exact Prod.ext hbackup rfl
  | «export» => rfl
  | auditExport => rfl

/-- The record is listed, and what falls out of its list is doomed. -/
structure Lists (c : Settings) (s : ControlPlane) (p : Process) (operation : Operation)
    (record : ListedArtifact) (s' : ControlPlane) : Prop where
  worker : p.worker = .lists operation record
  state_eq : s'.state = s.state.setTenant operation.tenantId fun tenant =>
    tenant.setItems (enlist c operation.tenantId record.createdAt record
      (tenant.itemsOf record.kind)).2 record.kind
  tokens_eq : s'.tokens = s.tokens
  files_eq : s'.files = s.files
  process_eq : s'.process = some { p with
    worker := .trims operation (s.fallen c operation.tenantId record.createdAt record) }

section Lists

variable {operation : Operation} {record : ListedArtifact} {s' : ControlPlane}
  (hlists : Lists c s p operation record s')
include hlists

theorem Lists.tenant_self : s'.state.tenants operation.tenantId =
    (s.state.tenants operation.tenantId).setItems (enlist c operation.tenantId record.createdAt
      record ((s.state.tenants operation.tenantId).itemsOf record.kind)).2 record.kind := by
  rw [hlists.state_eq, setTenant_self]

theorem Lists.tenant_ne {tenantId : String} (h : tenantId ≠ operation.tenantId) :
    s'.state.tenants tenantId = s.state.tenants tenantId := by
  rw [hlists.state_eq, setTenant_ne _ h]

theorem Lists.perm : ((enlist c operation.tenantId record.createdAt record
      ((s.state.tenants operation.tenantId).itemsOf record.kind)).1 ++
        (s'.state.tenants operation.tenantId).listed).Perm
      ((s.state.tenants operation.tenantId).listed ++ [record]) := by
  rw [hlists.tenant_self]
  exact setItems_perm (s.state.tenants operation.tenantId) operation.tenantId record

/-- An item of the new lists is an old one or the record. -/
theorem Lists.old {tenantId : String} {item : ListedArtifact}
    (hitem : item ∈ (s'.state.tenants tenantId).listed) :
    item ∈ (s.state.tenants tenantId).listed ∨ tenantId = operation.tenantId ∧ item = record := by
  by_cases ht : tenantId = operation.tenantId
  · rw [ht] at hitem ⊢
    rcases List.mem_append.mp (hlists.perm.subset (List.mem_append_right _ hitem)) with hitem | hitem
    · exact .inl hitem
    · exact .inr ⟨rfl, List.mem_singleton.mp hitem⟩
  · rw [hlists.tenant_ne ht] at hitem
    exact .inl hitem

theorem Lists.kinds (h : Named c s) {tenantId : String} {item : ListedArtifact} :
    (item ∈ (s'.state.tenants tenantId).backups → item.kind = .backup) ∧
      (item ∈ (s'.state.tenants tenantId).exports → item.kind ≠ .backup) := by
  by_cases ht : tenantId = operation.tenantId
  swap
  · rw [hlists.tenant_ne ht]
    exact ⟨h.backups, h.exports⟩
  rw [ht, hlists.tenant_self]
  have hkind : item ∈ (enlist c operation.tenantId record.createdAt record
      ((s.state.tenants operation.tenantId).itemsOf record.kind)).2 →
      (record.kind = .backup ↔ item.kind = .backup) := by
    intro hitem
    have hmem := (enlist_perm (c := c) operation.tenantId record.createdAt record
      ((s.state.tenants operation.tenantId).itemsOf record.kind)).subset
        (List.mem_append_right _ hitem)
    rcases List.mem_append.mp hmem with hmem | hmem
    · exact (itemsOf_kind h hmem).2
    · rw [List.mem_singleton.mp hmem]
  revert hkind
  generalize (enlist c operation.tenantId record.createdAt record
    ((s.state.tenants operation.tenantId).itemsOf record.kind)).2 = items
  intro hkind
  cases hcase : record.kind with
  | backup => exact ⟨fun hitem => (hkind hitem).mp hcase, h.exports⟩
  | «export» => exact ⟨h.backups, fun hitem heq => by simp [(hkind hitem).mpr heq] at hcase⟩
  | auditExport => exact ⟨h.backups, fun hitem heq => by simp [(hkind hitem).mpr heq] at hcase⟩

/-- The record's file is a new one, so no two files among the old and the new are the same. -/
theorem Lists.nodup (h : Named c s) (hnew : ¬Listed s.state record.name) :
    (((enlist c operation.tenantId record.createdAt record
      ((s.state.tenants operation.tenantId).itemsOf record.kind)).1 ++
        (s'.state.tenants operation.tenantId).listed).map ListedArtifact.name).Nodup := by
  refine (hlists.perm.map ListedArtifact.name).nodup_iff.mpr ?_
  rw [List.map_append, List.nodup_append]
  refine ⟨h.nodup operation.tenantId, List.nodup_singleton _, ?_⟩
  intro name hname name' hname' heq
  obtain ⟨item, hitem, rfl⟩ := List.mem_map.mp hname
  rw [List.map_singleton, List.mem_singleton] at hname'
  exact hnew ⟨operation.tenantId, item, hitem, heq.trans hname'⟩

/-- What falls out is listed no more. -/
theorem Lists.fallen (h : Named c s) (hnew : ¬Listed s.state record.name)
    (hdrawn : Drawn c s.tokens record.artifactId) {name : ArtifactName}
    (hname : name ∈ s.fallen c operation.tenantId record.createdAt record) :
    Drawn c s.tokens name.2 ∧ ¬Listed s'.state name := by
  have hnodup := hlists.nodup h hnew
  rw [List.map_append, List.nodup_append] at hnodup
  obtain ⟨item, hitem, rfl⟩ := mem_fallen h hname
  have hbefore := List.mem_append.mp (hlists.perm.subset (List.mem_append_left _ hitem))
  refine ⟨?_, ?_⟩
  · rcases hbefore with hmem | hmem
    · exact h.drawn hmem
    · rw [List.mem_singleton.mp hmem]
      exact hdrawn
  rintro ⟨tenantId, item', hitem', heq⟩
  by_cases ht : tenantId = operation.tenantId
  · rw [ht] at hitem'
    exact hnodup.2.2 _ (List.mem_map_of_mem hitem) _ (List.mem_map_of_mem hitem') heq.symm
  rcases hlists.old hitem' with hin | ⟨hsame, -⟩
  swap
  · exact ht hsame
  rcases hbefore with hmem | hmem
  · exact ht (h.unique hin hmem heq)
  · rw [List.mem_singleton.mp hmem] at heq
    exact hnew ⟨tenantId, item', hin, heq⟩

theorem Named.list (h : Named c s) (hp : s.process = some p) : Named c s' := by
  have hrecord : p.worker.record = some record := by
    rw [hlists.worker]
    rfl
  obtain ⟨hdrawn, hnew, hout⟩ := h.record p record hp hrecord
  refine ⟨fun t => ?_, fun {t t' item item'} hitem hitem' heq => ?_, (hlists.kinds h).1,
    (hlists.kinds h).2, fun hitem => ?_, fun q hq name hname => ?_, fun q record' hq hrecord' => ?_⟩
  · by_cases ht : t = operation.tenantId
    · have hnodup := hlists.nodup h hnew
      rw [List.map_append, List.nodup_append] at hnodup
      rw [ht]
      exact hnodup.2.1
    · rw [hlists.tenant_ne ht]
      exact h.nodup t
  · rcases hlists.old hitem with hin | ⟨ht, hrec⟩ <;>
      rcases hlists.old hitem' with hin' | ⟨ht', hrec'⟩
    · exact h.unique hin hin' heq
    · rw [hrec'] at heq
      exact (hnew ⟨t, item, hin, heq⟩).elim
    · rw [hrec] at heq
      exact (hnew ⟨t', item', hin', heq.symm⟩).elim
    · exact ht.trans ht'.symm
  · rw [hlists.tokens_eq]
    rcases hlists.old hitem with hin | ⟨-, rfl⟩
    · exact h.drawn hin
    · exact hdrawn
  · rw [hlists.process_eq] at hq
    obtain rfl := Option.some.inj hq
    rw [hlists.tokens_eq]
    rcases List.mem_append.mp hname with hname | hname
    · exact hlists.fallen h hnew hdrawn hname
    have hdoomed : name ∈ p.doomed := List.mem_append_right _ hname
    obtain ⟨hname', hlisted⟩ := h.doomed p hp name hdoomed
    refine ⟨hname', ?_⟩
    rintro ⟨t, item, hitem, rfl⟩
    rcases hlists.old hitem with hin | ⟨-, rfl⟩
    · exact hlisted ⟨t, item, hin, rfl⟩
    · exact hout hdoomed
  · rw [hlists.process_eq] at hq
    obtain rfl := Option.some.inj hq
    cases hrecord'

end Lists

/-! ## The other steps -/

/-- A write of a tenant that takes no more than records away. -/
theorem shrinks_setTenant {tenantId : String} {f : TenantState → TenantState}
    {r : Except String Unit}
    (h : mutateState c fault (fun state => pure (state.setTenant tenantId f)) state = (r, state'))
    (hf : ∀ tenant, (f tenant).backups.Subperm tenant.backups ∧
      (f tenant).exports.Subperm tenant.exports) : Shrinks state state' := by
  rcases setTenant_cases h with ⟨-, rfl⟩ | ⟨-, rfl⟩
  swap
  · exact .of_tenants rfl
  refine ⟨fun t => ?_, fun t => ?_⟩
  all_goals
    by_cases ht : t = tenantId
    · rw [ht, setTenant_self]
      first
      | exact (hf _).1
      | exact (hf _).2
    · rw [setTenant_ne _ ht]

theorem shrinks_setStatus {tenantId : String} {status : TenantStatus} {r : Except String Unit}
    (h : setStatus c fault tenantId status state = (r, state')) : Shrinks state state' :=
  shrinks_setTenant h fun _ => ⟨.refl _, .refl _⟩

theorem shrinks_suspendPending {tenantId : String} {r : Except String Unit}
    (h : suspendPending c fault tenantId state = (r, state')) : Shrinks state state' := by
  refine shrinks_setTenant h fun tenant => ?_
  split_ifs <;> exact ⟨.refl _, .refl _⟩

theorem shrinks_eraseTenant {tenantId : String} {r : Except String Unit}
    (h : eraseTenant c fault tenantId now state = (r, state')) : Shrinks state state' :=
  shrinks_setTenant h fun _ => ⟨List.nil_subperm, List.nil_subperm⟩

theorem shrinks_recordDrill {tenantId operationId : String} {r : Except String Unit}
    (h : recordDrill c fault tenantId operationId state = (r, state')) : Shrinks state state' :=
  shrinks_setTenant h fun _ => ⟨.refl _, .refl _⟩

theorem shrinks_recordRestore {tenantId operationId : String} {r : Except String Unit}
    (h : recordRestore c fault tenantId operationId state = (r, state')) : Shrinks state state' :=
  shrinks_setTenant h fun _ => ⟨.refl _, .refl _⟩

theorem shrinks_retention (state : ControlState) (now : ℚ) :
    Shrinks state (retention c now state) := by
  refine ⟨fun t => ?_, fun t => ?_⟩
  all_goals
    unfold retention
    dsimp only
    split_ifs
    · exact ((List.drop_sublist _ _).trans List.filter_sublist).subperm
    · exact .refl _

/-- What retention takes out of the lists is no longer listed. -/
theorem not_listed_retention (h : Named c s) {name : ArtifactName}
    (hname : name ∈ expiredNames c s.state now) :
    Drawn c s.tokens name.2 ∧ ¬Listed (retention c now s.state) name := by
  obtain ⟨tenantId, htenant, hname⟩ := List.mem_flatMap.mp hname
  have hkept : ∀ t item, item ∈ ((retention c now s.state).tenants t).listed →
      item ∈ (s.state.tenants t).listed := fun t _ =>
    fun hitem => ((shrinks_retention s.state now).listed t).subset hitem
  have hretained : (retention c now s.state).tenants tenantId =
      retainTenant c tenantId now (s.state.tenants tenantId) := if_pos htenant
  have hnodup := h.nodup tenantId
  rw [TenantState.listed, List.map_append, List.nodup_append] at hnodup
  rcases List.mem_append.mp hname with hname | hname
  · obtain ⟨item, hitem, rfl⟩ := List.mem_map.mp hname
    obtain ⟨hin, hexpired⟩ := List.mem_filter.mp hitem
    have hitemName : item.name = (.backup, item.artifactId) := Prod.ext (h.backups hin) rfl
    have hlisted : item ∈ (s.state.tenants tenantId).listed := List.mem_append_left _ hin
    refine ⟨h.drawn hlisted, ?_⟩
    rintro ⟨t, item', hitem', heq⟩
    rw [← hitemName] at heq
    obtain rfl := h.unique (hkept t item' hitem') hlisted heq
    rw [hretained] at hitem'
    rcases List.mem_append.mp hitem' with hitem' | hitem'
    · obtain ⟨hin', hfresh⟩ := List.mem_filter.mp (List.mem_of_mem_drop hitem')
      rw [List.inj_on_of_nodup_map hnodup.1 hin' hin heq, hexpired] at hfresh
      cases hfresh
    · obtain ⟨hin', -⟩ := List.mem_filter.mp (List.mem_of_mem_drop hitem')
      exact hnodup.2.2 _ (List.mem_map_of_mem hin) _ (List.mem_map_of_mem hin') heq.symm
  · obtain ⟨item, hitem, rfl⟩ := List.mem_map.mp hname
    obtain ⟨hin, hexpired⟩ := List.mem_filter.mp hitem
    have hlisted : item ∈ (s.state.tenants tenantId).listed := List.mem_append_right _ hin
    refine ⟨h.drawn hlisted, ?_⟩
    rintro ⟨t, item', hitem', heq⟩
    obtain rfl := h.unique (hkept t item' hitem') hlisted heq
    rw [hretained] at hitem'
    rcases List.mem_append.mp hitem' with hitem' | hitem'
    · obtain ⟨hin', -⟩ := List.mem_filter.mp (List.mem_of_mem_drop hitem')
      exact hnodup.2.2 _ (List.mem_map_of_mem hin') _ (List.mem_map_of_mem hin) heq
    · obtain ⟨hin', hfresh⟩ := List.mem_filter.mp (List.mem_of_mem_drop hitem')
      rw [List.inj_on_of_nodup_map hnodup.2.1 hin' hin heq, hexpired] at hfresh
      cases hfresh

theorem raised_record (operation : Operation) (error : String) :
    (ControlPlane.raised operation error).record = none ∧
      (ControlPlane.raised operation error).trimmed = [] := by
  unfold ControlPlane.raised
  split_ifs <;> exact ⟨rfl, rfl⟩

theorem startPlace_record (s : ControlPlane) (operation : Operation) (fault : Option String) :
    (s.startPlace operation fault).record = none ∧ (s.startPlace operation fault).trimmed = [] := by
  unfold ControlPlane.startPlace
  cases operation.kind <;> dsimp only
  all_goals
    cases fault <;> dsimp only <;> split_ifs
  all_goals
    first
    | exact ⟨rfl, rfl⟩
    | exact raised_record _ _

/-! ## Files -/

/-- The removal of a file by a deletion, while the worker is at the file. -/
def Process.strikes (c : Settings) (files : OrderedDict ArtifactName String) (p : Process)
    (name : ArtifactName) : Prop :=
  ∃ operation rest, p.worker = .clears operation (name :: rest) ∨
    p.worker = .sweeps operation (name :: rest) ∧
      files.get? name = some (c.namespaceFor operation.tenantId)

/-- What a step does with records and files. -/
inductive Handles (c : Settings) (a : Action) (s s' : ControlPlane) : Prop
  | keeps : Quiet s s' → s'.files = s.files → Handles c a s s'
  | discards (p : Process) (name : ArtifactName) : s.process = some p → Quiet s s' →
      s'.files = s.files.erase name →
      (name ∈ p.doomed ∨ (∃ record, p.worker.record = some record ∧ record.name = name) ∧
        ∀ q, s'.process = some q → q.worker.record = none) → Handles c a s s'
  | strikes (p : Process) (name : ArtifactName) (now : ℚ) : a = .work none now →
      s.process = some p → Quiet s s' → s'.state = s.state → s'.files = s.files.erase name → p.strikes c s.files name → Handles c a s s'
  | reconciles : s.process = none → Quiet s s' →
      (∀ name ∈ s.files.keys, name ∈ ControlPlane.referenced c s.state → name ∈ s'.files.keys) →
      (∀ name x, s'.files.get? name = some x → s.files.get? name = some x) → Handles c a s s'
  | makes (p : Process) (operation : Operation) (record : ListedArtifact) (now : ℚ) :
      a = .work none now → s.process = some p → p.worker = .writes operation →
      record.artifactId = c.tokenHex s.tokens → record.operationId = operation.operationId →
      s' = ControlPlane.goto { s with
        files := s.files.set record.name (c.namespaceFor operation.tenantId)
        tokens := s.tokens + 1 } p (.lists operation record) → Handles c a s s'
  | lists (p : Process) (operation : Operation) (record : ListedArtifact) : s.process = some p →
      Lists c s p operation record s' → Handles c a s s'
  | retains (p : Process) (now : ℚ) : s.process = some p →
      s' = { s with
        state := retention c now s.state
        process := some { p with
          retentions := p.retentions ++ [expiredNames c s.state now] } } → Handles c a s s'

section Worker

variable {a : Action} (hp : s.process = some p)
include hp

/-- The worker goes on and holds no record. -/
theorem Quiet.goto (s' : ControlPlane) (hshrinks : Shrinks s.state s'.state)
    (htokens : s.tokens ≤ s'.tokens) {q : Process} (hq : q.retentions = p.retentions)
    {place : WorkerPlace} (hplace : place.record = none)
    (htrimmed : ∀ name ∈ place.trimmed, name ∈ p.worker.trimmed) : Quiet s (s'.goto q place) := by
  refine ⟨hshrinks, htokens, fun q' hq' name hname => ⟨p, hp, ?_⟩, fun q' record hq' hrecord => ?_⟩
  · obtain rfl := Option.some.inj hq'
    rcases List.mem_append.mp hname with hname | hname
    · exact List.mem_append_left _ (htrimmed name hname)
    · refine List.mem_append_right _ ?_
      rw [← hq]
      exact hname
  · obtain rfl := Option.some.inj hq'
    rw [show ({ q with worker := place } : Process).worker.record = none from hplace] at hrecord
    cases hrecord

/-- The worker goes on to a place that neither trims nor holds a record. -/
theorem Quiet.plain (s' : ControlPlane) (hshrinks : Shrinks s.state s'.state)
    (htokens : s.tokens ≤ s'.tokens) {q : Process} (hq : q.retentions = p.retentions)
    {place : WorkerPlace} (hplace : place.record = none ∧ place.trimmed = []) :
    Quiet s (s'.goto q place) := by
  refine Quiet.goto hp s' hshrinks htokens hq hplace.1 fun name hname => ?_
  rw [hplace.2] at hname
  cases hname

theorem Handles.attempt {q : Process} (hq : q.retentions = p.retentions)
    {write : Prog ControlState String Unit} {next : WorkerPlace} {handler : String → WorkerPlace}
    (hwrite : ∀ r state', write s.state = (r, state') → Shrinks s.state state')
    (hnext : next.record = none ∧ next.trimmed = [])
    (hhandler : ∀ error, (handler error).record = none ∧ (handler error).trimmed = []) :
    Handles c a s (s.attempt q write next handler) := by
  unfold ControlPlane.attempt
  split
  · next u state' hrun =>
    exact .keeps (Quiet.plain hp { s with state := state' } (hwrite _ _ hrun) le_rfl hq hnext) rfl
  · next error state' hrun =>
    exact .keeps (Quiet.plain hp { s with state := state' } (hwrite _ _ hrun) le_rfl hq
      (hhandler error)) rfl

/-- The worker goes on with the state as it was. -/
theorem Handles.plain {place : WorkerPlace} (hplace : place.record = none ∧ place.trimmed = []) :
    Handles c a s (s.goto p place) :=
  .keeps (Quiet.plain hp s (.of_tenants rfl) le_rfl rfl hplace) rfl

theorem Handles.take : Handles c a s (s.take p) := by
  unfold ControlPlane.take
  split
  · exact .keeps ⟨.of_tenants rfl, le_rfl, fun q hq name hname => ⟨q, hq, hname⟩,
      fun q record hq hrecord => ⟨q, hq, hrecord⟩⟩ rfl
  split
  · refine .keeps ⟨.of_tenants rfl, le_rfl, fun q hq name hname => ⟨p, hp, ?_⟩,
      fun q record hq hrecord => ⟨p, hp, ?_⟩⟩ rfl
    all_goals obtain rfl := Option.some.inj hq
    · exact hname
    · exact hrecord
  · next rest _ _ operation _ =>
    exact .keeps (Quiet.plain hp s (.of_tenants rfl) le_rfl (q := { p with queue := rest }) rfl
      (show (WorkerPlace.taken operation).record = none ∧ _ from ⟨rfl, rfl⟩)) rfl

/-- An artifact has a new name. -/
theorem Handles.write (ha : a = .work fault now) {operation : Operation}
    (hworker : p.worker = .writes operation) : Handles c a s (s.write c p operation fault now) := by
  unfold ControlPlane.write
  split
  · next kind _ =>
    exact .makes p operation
      { kind := kind
        artifactId := c.tokenHex s.tokens
        operationId := operation.operationId
        createdAt := now
        expiresAt :=
          if kind = ArtifactKind.export then
            some (now + (c.definition operation.tenantId).retentionSeconds)
          else none }
      now ha hp hworker rfl rfl rfl
  · exact Handles.plain hp (raised_record _ _)

theorem Handles.list {operation : Operation} {record : ListedArtifact}
    (hworker : p.worker = .lists operation record) :
    Handles c a s (s.list c p operation record fault) := by
  unfold ControlPlane.list
  split
  · next u state' hrun =>
    rcases list_cases hrun with ⟨-, hstate⟩ | ⟨⟨_, hr⟩, -⟩
    · exact .lists p operation record hp ⟨hworker, hstate, rfl, rfl, rfl⟩
    · cases hr
  · next error state' hrun =>
    rcases list_cases hrun with ⟨hr, -⟩ | ⟨-, rfl⟩
    · cases hr
    refine .keeps ⟨.of_tenants rfl, le_rfl, fun q hq name hname => ⟨p, hp, ?_⟩,
      fun q record' hq hrecord => ⟨p, hp, ?_⟩⟩ rfl
    all_goals obtain rfl := Option.some.inj hq
    · simpa [Process.doomed, WorkerPlace.trimmed, hworker] using hname
    · rw [hworker]
      exact hrecord

/-- `delete_namespace` removes files of the tenant only. -/
theorem Handles.sweep (ha : a = .work fault now) {operation : Operation} {names : List ArtifactName}
    (hworker : p.worker = .sweeps operation names) :
    Handles c a s (s.sweep c p operation fault names) := by
  have hsweeps : ∀ rest, (WorkerPlace.sweeps operation rest).record = none ∧
      (WorkerPlace.sweeps operation rest).trimmed = [] := fun _ => ⟨rfl, rfl⟩
  unfold ControlPlane.sweep
  split
  · exact Handles.plain hp (show (WorkerPlace.erases operation).record = none ∧ _ from ⟨rfl, rfl⟩)
  · exact Handles.plain hp (raised_record _ _)
  · next name rest =>
    split
    · exact Handles.plain hp (raised_record _ _)
    · next tenantNamespace hget =>
      split_ifs with hnamespace
      · refine .strikes p name now ha hp (Quiet.plain hp (s.remove name) (.of_tenants rfl) le_rfl rfl
          (hsweeps rest)) rfl rfl ⟨operation, rest, .inr ⟨hworker, ?_⟩⟩
        rw [hget, hnamespace]
      · exact Handles.plain hp (hsweeps rest)

theorem Handles.work (ha : a = .work fault now) : Handles c a s (s.work c p fault now) := by
  have hraised : ∀ operation : Operation, ∀ error : String,
      (ControlPlane.raised operation error).record = none ∧
        (ControlPlane.raised operation error).trimmed = [] := raised_record
  unfold ControlPlane.work
  split
  · exact Handles.take hp
  · exact Handles.attempt hp rfl (fun r state' hrun => .of_tenants (updateOperation_tenants hrun))
      ⟨rfl, rfl⟩ (hraised _)
  · next operation hworker =>
    unfold ControlPlane.start
    split
    · next other heq =>
      exact .keeps (Quiet.plain hp (s.log other) (.of_tenants rfl) le_rfl rfl
        (show (WorkerPlace.replaced other).record = none ∧ _ from ⟨rfl, rfl⟩)) rfl
    · exact Handles.plain hp (startPlace_record s operation fault)
  · next operation hworker => exact Handles.write hp ha hworker
  · next operation record hworker => exact Handles.list hp hworker
  · next operation record error hworker =>
    split
    · exact Handles.plain hp (hraised _ _)
    · have hrecord : p.worker.record = some record := by
        rw [hworker]
        rfl
      refine .discards p record.name hp (Quiet.plain hp (s.remove record.name) (.of_tenants rfl)
        le_rfl rfl (hraised operation error)) rfl (.inr ⟨⟨record, hrecord, rfl⟩, fun q hq => ?_⟩)
      obtain rfl := Option.some.inj hq
      exact (hraised operation error).1
  · next operation names hworker =>
    have htrimmed : p.worker.trimmed = names := by
      rw [hworker]
      rfl
    unfold ControlPlane.removeNext
    split
    · exact Handles.plain hp (show (WorkerPlace.returned operation).record = none ∧ _ from ⟨rfl, rfl⟩)
    · exact Handles.plain hp (hraised _ _)
    · next name rest =>
      refine .discards p name hp (Quiet.goto hp (s.remove name) (.of_tenants rfl) le_rfl rfl
        (show (WorkerPlace.trims operation rest).record = none from rfl) fun other hother => ?_) rfl
        (.inl (List.mem_append_left _ ?_))
      · rw [htrimmed]
        exact List.mem_cons_of_mem _ hother
      · rw [htrimmed]
        exact List.mem_cons_self
  · exact Handles.attempt hp rfl (fun r state' hrun => shrinks_recordRestore hrun) ⟨rfl, rfl⟩
      (hraised _)
  · next operation hworker =>
    split
    · next u state' hrun =>
      exact .keeps (Quiet.plain hp (ControlPlane.log { s with state := state' } operation)
        (shrinks_recordDrill hrun) le_rfl rfl
        (show (WorkerPlace.returned operation).record = none ∧ _ from ⟨rfl, rfl⟩)) rfl
    · next error state' hrun =>
      exact .keeps (Quiet.plain hp { s with state := state' } (shrinks_recordDrill hrun) le_rfl rfl
        (hraised operation error)) rfl
  · next operation names hworker =>
    unfold ControlPlane.removeNext
    split
    · exact Handles.plain hp
        (show (WorkerPlace.sweeps operation s.files.keys).record = none ∧ _ from ⟨rfl, rfl⟩)
    · exact Handles.plain hp (hraised _ _)
    · next name rest =>
      exact .strikes p name now ha hp (Quiet.plain hp (s.remove name) (.of_tenants rfl) le_rfl rfl
        (show (WorkerPlace.clears operation rest).record = none ∧ _ from ⟨rfl, rfl⟩)) rfl rfl
        ⟨operation, rest, .inl hworker⟩
  · next operation names hworker => exact Handles.sweep hp ha hworker
  · next operation hworker =>
    split
    · next u state' hrun =>
      exact .keeps (Quiet.plain hp (ControlPlane.log { s with state := state' } operation)
        (shrinks_eraseTenant hrun) le_rfl (q := ControlPlane.refuse p operation.tenantId) rfl
        (show (WorkerPlace.returned operation).record = none ∧ _ from ⟨rfl, rfl⟩)) rfl
    · next error state' hrun =>
      exact .keeps (Quiet.plain hp { s with state := state' } (shrinks_eraseTenant hrun) le_rfl rfl
        (hraised operation error)) rfl
  · exact Handles.attempt hp rfl (fun r state' hrun => .of_tenants (updateOperation_tenants hrun))
      ⟨rfl, rfl⟩ (hraised _)
  · exact Handles.attempt hp rfl
      (fun r state' hrun => .of_tenants (by rw [auditAction_cases hrun])) ⟨rfl, rfl⟩ (hraised _)
  · next operation error hworker =>
    exact Handles.attempt hp (q := ControlPlane.refuse p operation.tenantId) rfl
      (fun r state' hrun => shrinks_suspendPending hrun) ⟨rfl, rfl⟩ fun _ => ⟨rfl, rfl⟩
  · exact Handles.attempt hp rfl (fun r state' hrun => .of_tenants (updateOperation_tenants hrun))
      ⟨rfl, rfl⟩ fun _ => ⟨rfl, rfl⟩
  · refine Handles.attempt hp rfl
      (fun r state' hrun => .of_tenants (by rw [auditAction_cases hrun])) ?_ fun _ => ?_
    all_goals split_ifs <;> exact ⟨rfl, rfl⟩
  · exact .keeps ⟨.of_tenants rfl, le_rfl, fun q hq name hname => ⟨q, hq, hname⟩,
      fun q record hq hrecord => ⟨q, hq, hrecord⟩⟩ rfl

end Worker

section Calls

variable {a : Action}

/-- A step beside the worker that lists nothing. -/
theorem Handles.beside (hp : s.process = some p) {s' : ControlPlane}
    (hshrinks : Shrinks s.state s'.state) (htokens : s.tokens ≤ s'.tokens)
    (hfiles : s'.files = s.files)
    (hprocess : ∀ q, s'.process = some q → q.worker = p.worker ∧ q.retentions = p.retentions) :
    Handles c a s s' := by
  refine .keeps ⟨hshrinks, htokens, fun q hq _ hname => ⟨p, hp, ?_⟩,
    fun q _ hq hrecord => ⟨p, hp, ?_⟩⟩ hfiles
  all_goals obtain ⟨hworker, hretentions⟩ := hprocess q hq
  · rwa [Process.doomed, hworker, hretentions] at hname
  · rwa [hworker] at hrecord

theorem Handles.refl (s : ControlPlane) : Handles c a s s :=
  .keeps ⟨.of_tenants rfl, le_rfl, fun q hq _ hname => ⟨q, hq, hname⟩,
    fun q _ hq hrecord => ⟨q, hq, hrecord⟩⟩ rfl

theorem Handles.addCall (hp : s.process = some p) (s' : ControlPlane)
    (hshrinks : Shrinks s.state s'.state) (htokens : s.tokens ≤ s'.tokens)
    (hfiles : s'.files = s.files) (r : Request) {q : Process} (hworker : q.worker = p.worker)
    (hretentions : q.retentions = p.retentions) : Handles c a s (s'.addCall q r) := by
  refine Handles.beside hp hshrinks htokens hfiles fun q' hq' => ?_
  obtain rfl := Option.some.inj hq'
  exact ⟨hworker, hretentions⟩

theorem Handles.setCall (hp : s.process = some p) (s' : ControlPlane)
    (hshrinks : Shrinks s.state s'.state) (htokens : s.tokens ≤ s'.tokens)
    (hfiles : s'.files = s.files) (i : ℕ) (call : Call) {q : Process} (hworker : q.worker = p.worker)
    (hretentions : q.retentions = p.retentions) : Handles c a s (s'.setCall q i call) := by
  refine Handles.beside hp hshrinks htokens hfiles fun q' hq' => ?_
  obtain rfl := Option.some.inj hq'
  exact ⟨hworker, hretentions⟩

theorem Handles.request (hp : s.process = some p) (r : Request) :
    Handles c a s (s.request c p r fault) := by
  unfold ControlPlane.request
  by_cases hknown : r.tenantId ∉ c.tenantIds
  · rw [if_pos hknown]
    exact .refl s
  rw [if_neg hknown]
  by_cases hkind : r.kind = .tenantDelete
  · rw [if_pos hkind]
    by_cases hactive : (s.state.tenants r.tenantId).status ≠ .active
    · rw [if_pos hactive]
      exact .refl s
    rw [if_neg hactive]
    split
    · next u state' hrun =>
      exact Handles.addCall hp { s with state := state' } (shrinks_setStatus hrun) le_rfl rfl r rfl rfl
    · next error state' hrun =>
      refine Handles.beside hp (shrinks_setStatus hrun) le_rfl rfl fun q hq => ?_
      obtain rfl := Option.some.inj (hp.symm.trans hq)
      exact ⟨rfl, rfl⟩
  · rw [if_neg hkind]
    split_ifs
    · exact .refl s
    · exact Handles.addCall hp s (.of_tenants rfl) le_rfl rfl r rfl rfl

theorem Handles.advance (hs : Ordered c s.state s.process s.tokens) (hp : s.process = some p)
    (i : ℕ) (call : Call) (faults : RecordFaults) :
    Handles c a s (s.advance c p i call faults fault now) := by
  unfold ControlPlane.advance
  split
  · have htenants := fun {r state'} hrun =>
      (@recordOperation_cases c s.state state' now faults call.request _ r hs.distinct hs.fresh hrun).1
    split
    · next state' hrun =>
      exact Handles.setCall hp { s with state := state', tokens := s.tokens + 1 }
        (.of_tenants (htenants hrun)) (Nat.le_succ _) rfl i _ rfl rfl
    · next state' hrun =>
      exact Handles.setCall hp { s with state := state' } (.of_tenants (htenants hrun)) le_rfl rfl i _
        rfl rfl
    · next error state' hrun =>
      exact Handles.setCall hp { s with state := state', tokens := s.tokens + 1 }
        (.of_tenants (htenants hrun)) (Nat.le_succ _) rfl i _ rfl rfl
  · split_ifs
    · exact Handles.setCall hp s (.of_tenants rfl) le_rfl rfl i _ rfl rfl
    · exact Handles.setCall hp s (.of_tenants rfl) le_rfl rfl i _ rfl rfl
  · next operationId _ =>
    rcases hrun : updateOperation c fault now operationId .failed
      (some "operation queue capacity is exhausted") s.state with ⟨r, state'⟩
    exact Handles.setCall hp { s with state := state' } (.of_tenants (updateOperation_tenants hrun))
      le_rfl rfl i _ rfl rfl
  · split
    · next u state' hrun =>
      exact Handles.setCall hp { s with state := state' } (shrinks_setStatus hrun) le_rfl rfl i _ rfl rfl
    · next error state' hrun =>
      exact Handles.setCall hp { s with state := state' } (shrinks_setStatus hrun) le_rfl rfl i _ rfl rfl
  · exact .refl s
  · exact .refl s

theorem Handles.requeue (hp : s.process = some p) :
    Handles c a s (s.requeue c p fault now) := by
  unfold ControlPlane.requeue
  split
  · exact .refl s
  split_ifs
  · refine Handles.beside hp (.of_tenants rfl) le_rfl rfl fun q hq => ?_
    obtain rfl := Option.some.inj hq
    exact ⟨rfl, rfl⟩
  · split
    · next u state' hrun =>
      refine Handles.beside hp (.of_tenants (updateOperation_tenants hrun)) le_rfl rfl fun q hq => ?_
      obtain rfl := Option.some.inj hq
      exact ⟨rfl, rfl⟩
    · next error state' hrun =>
      exact Handles.beside hp (.of_tenants (updateOperation_tenants hrun)) le_rfl rfl
        fun q hq => by cases hq

theorem Handles.retain (hp : s.process = some p) : Handles c a s (s.retain c p fault now) := by
  unfold ControlPlane.retain
  split
  · next u state' hrun =>
    rcases mutateState_cases hrun with ⟨-, -, hm, -⟩ | ⟨⟨_, hr⟩, -⟩
    · obtain rfl := Except.ok.inj hm
      exact .retains p now hp rfl
    · cases hr
  · next error state' hrun =>
    rcases mutateState_cases hrun with ⟨hr, -⟩ | ⟨-, rfl⟩
    · cases hr
    · exact .refl _

theorem mem_flatten_set {lists : List (List ArtifactName)} {i : ℕ} {rest : List ArtifactName}
    {name : ArtifactName} (hrest : ∀ other ∈ rest, other ∈ lists.flatten)
    (h : name ∈ (lists.set i rest).flatten) : name ∈ lists.flatten := by
  obtain ⟨names, hnames, hname⟩ := List.mem_flatten.mp h
  rcases List.mem_or_eq_of_mem_set hnames with hnames | rfl
  · exact List.mem_flatten.mpr ⟨names, hnames, hname⟩
  · exact hrest name hname

theorem Handles.removeRetained (hp : s.process = some p) (i : ℕ) :
    Handles c a s (s.removeRetained p i fault) := by
  have hquiet : ∀ s' : ControlPlane, ∀ rest, s'.state = s.state → s'.tokens = s.tokens →
      s'.process = some { p with retentions := p.retentions.set i rest } →
      (∀ other ∈ rest, other ∈ p.retentions.flatten) → Quiet s s' := by
    intro s' rest hstate htokens hprocess hrest
    refine ⟨.of_tenants (by rw [hstate]), htokens.ge, fun q hq other hother => ⟨p, hp, ?_⟩,
      fun q record hq hrecord => ⟨p, hp, ?_⟩⟩
    all_goals
      rw [hprocess] at hq
      obtain rfl := Option.some.inj hq
    · rcases List.mem_append.mp hother with hother | hother
      · exact List.mem_append_left _ hother
      · exact List.mem_append_right _ (mem_flatten_set hrest hother)
    · exact hrecord
  unfold ControlPlane.removeRetained
  split
  · next name rest hget =>
    have hmem : ∀ other ∈ name :: rest, other ∈ p.retentions.flatten := fun other hother =>
      List.mem_flatten.mpr ⟨_, List.mem_of_getElem? hget, hother⟩
    exact .discards p name hp (hquiet _ rest rfl rfl rfl fun other hother =>
      hmem other (List.mem_cons_of_mem _ hother)) rfl
      (.inl (List.mem_append_right _ (hmem name List.mem_cons_self)))
  · exact .keeps (hquiet _ [] rfl rfl rfl fun other hother => by cases hother) rfl

theorem removeAll_keys (names : List ArtifactName) (s : ControlPlane) {name : ArtifactName} :
    name ∈ (s.removeAll names).files.keys ↔ name ∈ s.files.keys ∧ name ∉ names := by
  unfold ControlPlane.removeAll
  induction names generalizing s with
  | nil => simp
  | cons other rest ih =>
    rw [List.foldl_cons, ih]
    have herase : name ∈ (s.remove other).files.keys ↔ name ∈ s.files.keys ∧ name ≠ other := by
      simp only [ControlPlane.remove, OrderedDict.mem_keys, OrderedDict.get?_erase]
      split_ifs with heq <;> simp [heq]
    rw [herase, List.mem_cons, not_or, and_assoc]

theorem removeAll_get? (names : List ArtifactName) (s : ControlPlane) {name : ArtifactName}
    {x : String} (h : (s.removeAll names).files.get? name = some x) :
    s.files.get? name = some x := by
  unfold ControlPlane.removeAll at h
  induction names generalizing s with
  | nil => exact h
  | cons other rest ih =>
    have hget := ih (s.remove other) h
    unfold ControlPlane.remove at hget
    rw [OrderedDict.get?_erase] at hget
    split_ifs at hget
    exact hget

theorem Handles.restart (hp : s.process = none) (stop : Option ℕ) :
    Handles c a s (s.restart c stop fault) := by
  have hstrays : ∀ names, (∀ name ∈ names, name ∈ s.strays c) → ∀ name ∈ s.files.keys,
      name ∈ ControlPlane.referenced c s.state → name ∈ (s.removeAll names).files.keys := by
    intro names hnames name hname hlisted
    rw [removeAll_keys]
    refine ⟨hname, fun hin => ?_⟩
    have hstray := (List.mem_filter.mp (hnames name hin)).2
    rw [decide_eq_true_eq] at hstray
    exact hstray hlisted
  have hquiet : ∀ s' : ControlPlane, s'.state.tenants = s.state.tenants → s'.tokens = s.tokens →
      (∀ q, s'.process = some q → q = ControlPlane.started s'.state) → Quiet s s' := by
    intro s' htenants htokens hprocess
    refine ⟨.of_tenants htenants, htokens.ge, fun q hq name hname => ?_, fun q record hq hrecord => ?_⟩
    · rw [hprocess q hq] at hname
      cases hname
    · rw [hprocess q hq] at hrecord
      cases hrecord
  unfold ControlPlane.restart
  cases stop with
  | some count =>
    obtain ⟨hstate, htokens, hprocess, -⟩ := removeAll_state ((s.strays c).take count) s
    refine .reconciles hp (hquiet _ (by rw [hstate]) htokens fun q hq => ?_)
      (hstrays _ fun name hname => List.mem_of_mem_take hname) fun name x => removeAll_get? _ s
    rw [hprocess, hp] at hq
    cases hq
  | none =>
    obtain ⟨-, htokens, hprocess, -⟩ := removeAll_state (s.strays c) s
    dsimp only
    split
    · next u state' hrun =>
      refine .reconciles hp (hquiet _ (resetIncomplete_cases hrun).1 htokens fun q hq => ?_)
        (hstrays _ fun name hname => hname) fun name x => removeAll_get? _ s
      exact (Option.some.inj hq).symm
    · next error state' _ hrun =>
      refine .reconciles hp (hquiet _ (resetIncomplete_cases hrun).1 htokens fun q hq => ?_)
        (hstrays _ fun name hname => hname) fun name x => removeAll_get? _ s
      rw [hprocess, hp] at hq
      cases hq

end Calls

theorem Handles.step (hs : Ordered c s.state s.process s.tokens) (a : Action) :
    Handles c a s (s.step c a) := by
  unfold ControlPlane.step
  split
  · next stop fault hp => exact Handles.restart hp stop
  · exact .refl s
  · next p hp => exact Handles.beside hp (.of_tenants rfl) le_rfl rfl fun q hq => by cases hq
  · next p fault now hp => exact Handles.requeue hp
  · next p fault now hp => exact Handles.work hp rfl
  · next p r fault hp =>
    split_ifs
    · exact Handles.request hp r
    · exact .refl s
  · next p i faults fault now hp =>
    split
    · next call hcall => exact Handles.advance hs hp i call faults
    · exact .refl s
  · next p tenantId now hp =>
    split
    · next r _ => exact Handles.addCall hp s (.of_tenants rfl) le_rfl rfl r rfl rfl
    · exact .refl s
  · next p fault now hp => exact Handles.retain hp
  · next p i fault hp => exact Handles.removeRetained hp i
  · exact .refl s

/-! ## Runs -/

theorem listed_of_referenced {name : ArtifactName}
    (h : name ∈ ControlPlane.referenced c state) : Listed state name := by
  obtain ⟨tenantId, -, hname⟩ := List.mem_flatMap.mp h
  obtain ⟨item, hitem, heq⟩ := List.mem_map.mp hname
  exact ⟨tenantId, item, hitem, heq⟩

theorem Shrinks.referenced (h : Shrinks state state') {name : ArtifactName}
    (hname : name ∈ ControlPlane.referenced c state') : name ∈ ControlPlane.referenced c state := by
  obtain ⟨tenantId, htenant, hname⟩ := List.mem_flatMap.mp hname
  obtain ⟨item, hitem, rfl⟩ := List.mem_map.mp hname
  exact List.mem_flatMap.mpr ⟨tenantId, htenant, List.mem_map_of_mem ((h.listed tenantId).subset hitem)⟩

theorem Lists.referenced {operation : Operation} {record : ListedArtifact} {s' : ControlPlane}
    (h : Lists c s p operation record s') {name : ArtifactName}
    (hname : name ∈ ControlPlane.referenced c s'.state) :
    name ∈ ControlPlane.referenced c s.state ∨ name = record.name := by
  obtain ⟨tenantId, htenant, hname⟩ := List.mem_flatMap.mp hname
  obtain ⟨item, hitem, rfl⟩ := List.mem_map.mp hname
  rcases h.old hitem with hitem | ⟨-, rfl⟩
  · exact .inl (List.mem_flatMap.mpr ⟨tenantId, htenant, List.mem_map_of_mem hitem⟩)
  · exact .inr rfl

theorem listed_of_expired (h : Named c s) {name : ArtifactName}
    (hname : name ∈ expiredNames c s.state now) : Listed s.state name := by
  obtain ⟨tenantId, -, hname⟩ := List.mem_flatMap.mp hname
  rcases List.mem_append.mp hname with hname | hname
  · obtain ⟨item, hitem, rfl⟩ := List.mem_map.mp hname
    have hin := List.mem_of_mem_filter hitem
    exact ⟨tenantId, item, List.mem_append_left _ hin, Prod.ext (h.backups hin) rfl⟩
  · obtain ⟨item, hitem, rfl⟩ := List.mem_map.mp hname
    exact ⟨tenantId, item, List.mem_append_right _ (List.mem_of_mem_filter hitem), rfl⟩

/-- Every step keeps the names apart. -/
theorem Named.handles (h : Named c s) {a : Action} {s' : ControlPlane} (hs' : Handles c a s s') :
    Named c s' := by
  cases hs' with
  | keeps hquiet hfiles => exact h.quiet hquiet
  | discards p name hp hquiet hfiles hname => exact h.quiet hquiet
  | strikes p name now ha hp hquiet hstate hfiles hname => exact h.quiet hquiet
  | reconciles hp hquiet hfiles _ => exact h.quiet hquiet
  | makes p operation record now ha hp hworker hid hown heq =>
    have hnew := not_drawn c s.tokens
    subst heq
    refine h.shrink (.of_tenants rfl) (Nat.le_succ _) (fun q hq name hname => ?_)
      fun q record' hq hrecord => ?_
    · obtain rfl := Option.some.inj hq
      obtain ⟨hdrawn, hlisted⟩ := h.doomed p hp name (List.mem_append_right _ hname)
      exact ⟨hdrawn.mono (Nat.le_succ _), hlisted⟩
    · obtain rfl := Option.some.inj hq
      obtain rfl := Option.some.inj hrecord
      refine ⟨⟨s.tokens, Nat.lt_succ_self _, hid⟩, ?_, fun hname => ?_⟩
      · rintro ⟨t, item, hitem, heq⟩
        have hdrawn := h.drawn hitem
        rw [show item.artifactId = record.artifactId from congrArg Prod.snd heq, hid] at hdrawn
        exact hnew hdrawn
      · have hdrawn := (h.doomed p hp _ (List.mem_append_right _ hname)).1
        rw [show record.name.2 = c.tokenHex s.tokens from hid] at hdrawn
        exact hnew hdrawn
  | lists p operation record hp hlists => exact Named.list hlists h hp
  | retains p now hp heq =>
    subst heq
    have hshrinks := shrinks_retention (c := c) s.state now
    refine h.shrink hshrinks le_rfl (fun q hq name hname => ?_) fun q record hq hrecord => ?_
    all_goals obtain rfl := Option.some.inj hq
    · have hname' : name ∈ p.doomed ++ expiredNames c s.state now := by
        simpa [Process.doomed] using hname
      rcases List.mem_append.mp hname' with hname | hname
      · obtain ⟨hdrawn, hlisted⟩ := h.doomed p hp name hname
        exact ⟨hdrawn, hshrinks.not_listed hlisted⟩
      · exact not_listed_retention h hname
    · obtain ⟨hdrawn, hlisted, hout⟩ := h.record p record hp hrecord
      refine ⟨hdrawn, hshrinks.not_listed hlisted, fun hname => ?_⟩
      have hname' : record.name ∈ p.doomed ++ expiredNames c s.state now := by
        simpa [Process.doomed] using hname
      rcases List.mem_append.mp hname' with hname | hname
      · exact hout hname
      · exact hlisted (listed_of_expired h hname)

theorem named_init (c : Settings) : Named c (ControlPlane.init c) :=
  ⟨fun tenantId => List.nodup_nil, fun h => (by cases h), fun h => (by cases h),
    fun h => (by cases h), fun h => (by cases h), fun p hp => (by cases hp),
    fun p record hp => (by cases hp)⟩

theorem named_run (actions : List Action) : Named c (ControlPlane.run c actions) := by
  induction actions using List.reverseRecOn with
  | nil => exact named_init c
  | append_singleton before a ih =>
    unfold ControlPlane.run
    rw [List.foldl_append]
    exact ih.handles (Handles.step (ordered_run before) a)

/-- Every listed artifact has its file, and so has a record that is not listed yet. -/
structure Stored (c : Settings) (s : ControlPlane) : Prop where
  listed : ∀ name ∈ ControlPlane.referenced c s.state, name ∈ s.files.keys
  record : ∀ p record, s.process = some p → p.worker.record = some record →
    record.name ∈ s.files.keys

/-- The step is not one in which a deletion removes the file of a listed artifact. -/
def ControlPlane.Spares (c : Settings) (s : ControlPlane) (a : Action) : Prop :=
  ∀ p name now, s.process = some p → p.strikes c s.files name → a = .work none now →
    name ∉ ControlPlane.referenced c s.state

theorem mem_keys_erase {files : OrderedDict ArtifactName String} {name other : ArtifactName} :
    other ∈ (files.erase name).keys ↔ other ∈ files.keys ∧ other ≠ name := by
  simp only [OrderedDict.mem_keys, OrderedDict.get?_erase]
  split_ifs with heq <;> simp [heq]

theorem mem_keys_set {files : OrderedDict ArtifactName String} {name other : ArtifactName}
    {tenantNamespace : String} :
    other ∈ (files.set name tenantNamespace).keys ↔ other = name ∨ other ∈ files.keys := by
  simp only [OrderedDict.mem_keys, OrderedDict.get?_set]
  split_ifs with heq <;> simp [heq]

theorem Quiet.stored (h : Stored c s) {s' : ControlPlane} (hquiet : Quiet s s')
    (hlisted : ∀ name ∈ ControlPlane.referenced c s'.state, name ∈ s.files.keys →
      name ∈ s'.files.keys)
    (hrecord : ∀ p q record, s.process = some p → p.worker.record = some record →
      s'.process = some q → q.worker.record = some record → record.name ∈ s.files.keys →
        record.name ∈ s'.files.keys) : Stored c s' := by
  refine ⟨fun name hname => ?_, fun q record hq hq' => ?_⟩
  · exact hlisted name hname (h.listed name (hquiet.shrinks.referenced hname))
  · obtain ⟨p, hp, hp'⟩ := hquiet.record q record hq hq'
    exact hrecord p q record hp hp' hq hq' (h.record p record hp hp')

theorem Process.strikes_record {files : OrderedDict ArtifactName String} {name : ArtifactName}
    (h : p.strikes c files name) : p.worker.record = none := by
  obtain ⟨operation, rest, hworker | ⟨hworker, -⟩⟩ := h
  all_goals
    rw [hworker]
    rfl

/-- A step that spares the listed files keeps them. -/
theorem Stored.handles (h : Stored c s) (hn : Named c s) {a : Action} {s' : ControlPlane}
    (hs' : Handles c a s s') (hspares : s.Spares c a) : Stored c s' := by
  cases hs' with
  | keeps hquiet hfiles =>
    refine hquiet.stored h (fun name _ hname => ?_) fun _ _ record _ _ _ _ hname => ?_
    all_goals rwa [hfiles]
  | discards p name hp hquiet hfiles hname =>
    have hout : ¬Listed s.state name ∧ ∀ q record, p.worker.record = some record →
        s'.process = some q → q.worker.record = some record → record.name ≠ name := by
      rcases hname with hdoomed | ⟨⟨record, hrecord, rfl⟩, hgone⟩
      · refine ⟨(hn.doomed p hp name hdoomed).2, fun q record hrecord _ _ heq => ?_⟩
        exact (hn.record p record hp hrecord).2.2 (heq ▸ hdoomed)
      · refine ⟨(hn.record p record hp hrecord).2.1, fun q record' _ hq hq' => ?_⟩
        rw [hgone q hq] at hq'
        cases hq'
    refine hquiet.stored h (fun other hother hin => ?_) fun p' q record hp' hp'' hq hq' hin => ?_
    all_goals rw [hfiles, mem_keys_erase]
    · refine ⟨hin, fun heq => hout.1 ?_⟩
      rw [← heq]
      exact listed_of_referenced (hquiet.shrinks.referenced hother)
    · obtain rfl := Option.some.inj (hp.symm.trans hp')
      exact ⟨hin, hout.2 q record hp'' hq hq'⟩
  | strikes p name now ha hp hquiet hstate hfiles hstrikes =>
    have hspared := hspares p name now hp hstrikes ha
    refine hquiet.stored h (fun other hother hin => ?_) fun p' q record hp' hp'' hq hq' hin => ?_
    · rw [hfiles, mem_keys_erase]
      refine ⟨hin, fun heq => hspared ?_⟩
      rw [← heq]
      exact hquiet.shrinks.referenced hother
    · obtain rfl := Option.some.inj (hp.symm.trans hp')
      rw [Process.strikes_record hstrikes] at hp''
      cases hp''
  | reconciles hp hquiet hfiles _ =>
    refine hquiet.stored h (fun name hname hin => ?_) fun p q record hp' => ?_
    · exact hfiles name hin (hquiet.shrinks.referenced hname)
    · rw [hp] at hp'
      cases hp'
  | makes p operation record now ha hp hworker hid hown heq =>
    subst heq
    refine ⟨fun name hname => ?_, fun q record' hq hrecord => ?_⟩
    · exact mem_keys_set.mpr (.inr (h.listed name hname))
    · obtain rfl := Option.some.inj hq
      obtain rfl := Option.some.inj hrecord
      exact mem_keys_set.mpr (.inl rfl)
  | lists p operation record hp hlists =>
    refine ⟨fun name hname => ?_, fun q record' hq hrecord => ?_⟩
    · rw [hlists.files_eq]
      rcases hlists.referenced hname with hname | rfl
      · exact h.listed name hname
      · exact h.record p record hp (by rw [hlists.worker]; rfl)
    · rw [hlists.process_eq] at hq
      obtain rfl := Option.some.inj hq
      cases hrecord
  | retains p now hp heq =>
    subst heq
    refine ⟨fun name hname => ?_, fun q record hq hrecord => ?_⟩
    · exact h.listed name ((shrinks_retention s.state now).referenced hname)
    · obtain rfl := Option.some.inj hq
      exact h.record p record hp hrecord

/-- A file that a deletion removes is gone, and what was listed still is. -/
theorem strikes_gone (hp : s.process = some p) {name : ArtifactName}
    (hstrikes : p.strikes c s.files name) (now : ℚ) :
    (s.step c (.work none now)).state = s.state ∧ name ∉ (s.step c (.work none now)).files.keys := by
  have hstep : s.step c (.work none now) = s.work c p none now := by
    unfold ControlPlane.step
    rw [hp]
  rw [hstep]
  unfold ControlPlane.work
  obtain ⟨operation, rest, hworker | ⟨hworker, hget⟩⟩ := hstrikes
  · rw [hworker]
    exact ⟨rfl, (s.files.notMem_keys_erase name)⟩
  · rw [hworker]
    simp only [ControlPlane.sweep, hget, if_true]
    exact ⟨rfl, (s.files.notMem_keys_erase name)⟩

theorem stored_init (c : Settings) : Stored c (ControlPlane.init c) := by
  refine ⟨fun name hname => ?_, fun p record hp => (by cases hp)⟩
  obtain ⟨tenantId, item, hitem, -⟩ := listed_of_referenced hname
  cases hitem

theorem stored_run {actions : List Action}
    (h : ∀ before a, before ++ [a] <+: actions → (ControlPlane.run c before).Spares c a) :
    Stored c (ControlPlane.run c actions) := by
  induction actions using List.reverseRecOn with
  | nil => exact stored_init c
  | append_singleton before a ih =>
    have hbefore := ih fun before' a' hpre => h before' a' (hpre.trans (List.prefix_append _ _))
    have hrun : ControlPlane.run c (before ++ [a]) = (ControlPlane.run c before).step c a := by
      unfold ControlPlane.run
      rw [List.foldl_append]
      rfl
    rw [hrun]
    exact hbefore.handles (named_run before) (Handles.step (ordered_run before) a)
      (h before a (List.prefix_refl _))

/-- A constructor leaves no file that is not listed, whether it goes on from there or raises. -/
theorem restart_listed (c : Settings) (s : ControlPlane) {fault : Option String}
    {name : ArtifactName} (hname : name ∈ (s.restart c none fault).files.keys) :
    name ∈ ControlPlane.referenced c (s.restart c none fault).state := by
  have hkept : ∀ {state'}, state'.tenants = s.state.tenants →
      name ∈ (s.removeAll (s.strays c)).files.keys → name ∈ ControlPlane.referenced c state' := by
    intro state' htenants hin
    obtain ⟨hin, hstray⟩ := (removeAll_keys _ s).mp hin
    by_contra hout
    refine hstray (List.mem_filter.mpr ⟨hin, ?_⟩)
    rw [decide_eq_true_eq]
    intro hlisted
    refine hout ?_
    unfold ControlPlane.referenced at hlisted ⊢
    rwa [htenants]
  unfold ControlPlane.restart at hname ⊢
  dsimp only at hname ⊢
  split at hname
  all_goals
    next hrun =>
    simp only
    exact hkept (resetIncomplete_cases hrun).1 hname

/-- The files of the listed artifacts are there all along when no deletion removes one of them,
and only then; a restart removes the files that are not listed. -/
theorem listed_files_iff (c : Settings) (actions : List Action) :
    ((∀ before, before <+: actions → ∀ name ∈ ControlPlane.referenced c (ControlPlane.run c before).state,
        name ∈ (ControlPlane.run c before).files.keys) ↔
      ∀ before a, before ++ [a] <+: actions → (ControlPlane.run c before).Spares c a) ∧
    ((ControlPlane.run c actions).process = none → ∀ fault,
      ∀ name ∈ (ControlPlane.run c (actions ++ [.restart none fault])).files.keys,
        name ∈ ControlPlane.referenced c (ControlPlane.run c (actions ++ [.restart none fault])).state) := by
  refine ⟨⟨fun h before a hpre p name now hp hstrikes ha hlisted => ?_,
    fun h before hpre => ?_⟩, fun hp fault name hname => ?_⟩
  · have hafter := h (before ++ [a]) hpre name
    rw [show ControlPlane.run c (before ++ [a]) = (ControlPlane.run c before).step c a by
      simp [ControlPlane.run], ha] at hafter
    obtain ⟨hstate, hgone⟩ := strikes_gone hp hstrikes now
    rw [hstate] at hafter
    exact hgone (hafter hlisted)
  · exact (stored_run fun before' a' hpre' => h before' a' (hpre'.trans hpre)).listed
  · have hrun : ControlPlane.run c (actions ++ [.restart none fault]) =
        (ControlPlane.run c actions).restart c none fault := by
      simp [ControlPlane.run] at hp ⊢
      simp [ControlPlane.step, hp]
    rw [hrun] at hname ⊢
    exact restart_listed c _ hname

/-- A backup, and the deletion of its tenant that is stopped after the first file. -/
def stoppedDeletion : List Action :=
  .restart none none :: (asks (backupOf "acme") 0 8 ++ asks (deletionOf "acme") 1 4 ++ [.crash])

/-- A backup can be listed when its file is gone. -/
theorem listed_file_gone : ¬∀ (c : Settings) (actions : List Action),
    ∀ name ∈ ControlPlane.referenced c (ControlPlane.run c actions).state,
      name ∈ (ControlPlane.run c actions).files.keys := by
  intro h
  have hname := h oneTenant stoppedDeletion (.backup, unaryToken 1)
  revert hname
  decide +kernel

end Managed
end Controlplane
end MegaCache
