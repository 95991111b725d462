import MegaCache.Cluster.Standing

/-!
# Fencing

Elections, terms and what they do to fences and leases.  `Leads c s s'` says how the
leadership of a coordinator develops and `Steady c leader term s s'` that a healthy leader
stays; both hold along every call.
-/

namespace MegaCache
namespace Cluster

variable {V α : Type} {c : ClusterConfig V} {s s' s'' : Cluster V}

open Prog

/-! ## Elections -/

/-- A node is healthy at a time: it serves and its last heartbeat is recent. -/
def Healthy (c : ClusterConfig V) (s : Cluster V) (id : NodeId) (now : ℚ) : Prop :=
  (s.node id).status.serves = true ∧ now - (s.node id).lastHeartbeat ≤ c.heartbeatTimeout

/-- The coordinator after some clock readings. -/
def atTick (s : Cluster V) (n : ℕ) : Cluster V := { s with ticks := n }

theorem Healthy.earlier {id : NodeId} {now later : ℚ} (h : Healthy c s id later)
    (hle : now ≤ later) : Healthy c s id now :=
  ⟨h.1, by linarith [h.2]⟩

/-- A check of one node's health. -/
theorem healthy_run (id : NodeId) (s : Cluster V) : ∃ b n, healthy c id s = (.ok b, s.atTick n) ∧
    s.ticks ≤ n ∧ (b = true → s.ticks < n) ∧ (b = true ↔ Healthy c s id (c.clock s.ticks)) := by
  unfold healthy
  rw [run_bind_ok (run_get s), run_ite]
  split_ifs with h
  · refine ⟨_, s.ticks + 1, rfl, Nat.le_succ _, fun _ => Nat.lt_succ_self _, ?_⟩
    simp [Healthy, h]
  · exact ⟨false, s.ticks, rfl, le_rfl, by simp, by simp [Healthy, h]⟩

/-- The nodes that a loop over their health finds healthy. -/
theorem select_healthy (ids : List NodeId) (s : Cluster V) :
    ∃ up n, Prog.select (healthy c) ids s = (.ok up, s.atTick n) ∧ s.ticks ≤ n ∧
      (∀ id ∈ up, id ∈ ids ∧ ∃ m, s.ticks ≤ m ∧ m < n ∧ Healthy c s id (c.clock m)) ∧
      ∀ id ∈ ids, Healthy c s id (c.clock n) → id ∈ up := by
  induction ids generalizing s with
  | nil => exact ⟨[], s.ticks, rfl, le_rfl, by simp, by simp⟩
  | cons x ids ih =>
    obtain ⟨b, n, hrun, hn, hlt, hb⟩ := healthy_run (c := c) x s
    obtain ⟨up, k, hrest, hk, hup, hall⟩ := ih (s.atTick n)
    have hnk : n ≤ k := hk
    refine ⟨if b then x :: up else up, k, ?_, hn.trans hnk, fun id hid => ?_, fun id hid hh => ?_⟩
    · rw [Prog.select, run_bind_ok hrun, run_bind_ok hrest]
      rfl
    · have hmem : id ∈ up → id ∈ x :: ids ∧
          ∃ m, s.ticks ≤ m ∧ m < k ∧ Healthy c s id (c.clock m) := by
        intro h
        obtain ⟨h₁, m, h₂, h₃, h₄⟩ := hup id h
        have hnm : n ≤ m := h₂
        exact ⟨List.mem_cons_of_mem x h₁, m, hn.trans hnm, h₃, h₄⟩
      cases b with
      | false => exact hmem hid
      | true =>
        rcases List.mem_cons.mp hid with rfl | hid
        · exact ⟨List.mem_cons_self, s.ticks, le_rfl, (hlt rfl).trans_le hnk, hb.mp rfl⟩
        · exact hmem hid
    · rcases List.mem_cons.mp hid with rfl | hid
      · have hthen : b = true := hb.mpr (hh.earlier (c.clock_mono (hn.trans hnk)))
        simp [hthen]
      · have hin : id ∈ up := hall id hid hh
        split_ifs
        · exact List.mem_cons_of_mem x hin
        · exact hin

/-- What an election does: it either keeps a leader that it found healthy, or it opens a new
term under a ring member that it found healthy, or under the old leader if there is none. -/
theorem electLeader_cases (s : Cluster V) : ∃ n, s.ticks ≤ n ∧
    ((electLeader c s = (.ok (), s.atTick n) ∧ s.leaderId ∈ s.ring.nodeIds ∧
        ∃ m, s.ticks ≤ m ∧ m < n ∧ Healthy c s s.leaderId (c.clock m)) ∨
      ∃ candidates, electLeader c s = (.ok (), newTerm candidates (s.atTick n)) ∧
        (s.leaderId ∈ s.ring.nodeIds → ¬Healthy c s s.leaderId (c.clock n)) ∧
        (∀ id ∈ candidates, id ∈ s.ring.nodeIds ∧
          ∃ m, s.ticks ≤ m ∧ m < n ∧ Healthy c s id (c.clock m)) ∧
        ∀ id ∈ s.ring.nodeIds, Healthy c s id (c.clock n) → id ∈ candidates) := by
  obtain ⟨up, n, hrun, hn, hup, hall⟩ := select_healthy (c := c) s.ring.nodeIds s
  have hmem : ∀ id, id ∈ (up.filter fun id => (s.node id).status ≠ .removing).insertionSort (· ≤ ·) ↔
      id ∈ up := by
    intro id
    rw [List.mem_insertionSort, List.mem_filter]
    refine ⟨And.left, fun h => ⟨h, ?_⟩⟩
    obtain ⟨_, m, _, _, hserves, _⟩ := hup id h
    rw [decide_eq_true_iff]
    intro hremoving
    rw [hremoving] at hserves
    exact absurd hserves (by decide)
  refine ⟨n, hn, ?_⟩
  unfold electLeader
  rw [run_bind_ok (run_get s), run_bind_ok hrun, run_ite]
  split_ifs with hlead
  · exact .inl ⟨rfl, hup _ ((hmem _).mp hlead)⟩
  · refine .inr ⟨_, rfl, fun hring hh => hlead ((hmem _).mpr (hall _ hring hh)),
      fun id hid => hup id ((hmem id).mp hid), fun id hid hh => (hmem id).mpr (hall id hid hh)⟩

/-- After an election with a healthy ring member the leader is one that it found healthy. -/
theorem electLeader_leader (s : Cluster V) : ∃ s', electLeader c s = (.ok (), s') ∧
    s'.nodeIds = s.nodeIds ∧ s'.ring = s.ring ∧ s'.node = s.node ∧ s.ticks ≤ s'.ticks ∧
    ((∃ id ∈ s'.ring.nodeIds, Healthy c s' id (c.clock s'.ticks)) → s'.leaderId ∈ s'.ring.nodeIds ∧
      ∃ m, s.ticks ≤ m ∧ m < s'.ticks ∧ Healthy c s' s'.leaderId (c.clock m)) := by
  obtain ⟨n, hn, ⟨hrun, hlead⟩ | ⟨candidates, hrun, _, hfound, hall⟩⟩ := electLeader_cases (c := c) s
  · exact ⟨_, hrun, rfl, rfl, rfl, hn, fun _ => hlead⟩
  · refine ⟨_, hrun, rfl, rfl, rfl, hn, ?_⟩
    rintro ⟨id, hid, hh⟩
    obtain ⟨first, rest, hc⟩ := List.exists_cons_of_ne_nil (List.ne_nil_of_mem (hall id hid hh))
    have hleader : (newTerm candidates (s.atTick n)).leaderId = first := by
      rw [hc]
      rfl
    rw [hleader]
    exact hfound first (by simp [hc])

/-! ## Programs without elections -/

/-- Leader and term are as they were and no lease is new; ring and statuses may differ. -/
structure Calm (s s' : Cluster V) : Prop where
  term : s'.term = s.term
  leaderId : s'.leaderId = s.leaderId
  draws : s'.draws = s.draws
  nodeIds : s'.nodeIds = s.nodeIds
  heartbeat : ∀ id, (s'.node id).lastHeartbeat = (s.node id).lastHeartbeat
  ticks : s.ticks ≤ s'.ticks
  leases : ∀ key lease, s'.leases.get? key = some lease → s.leases.get? key = some lease
  account : SameExcess s s'

instance : Std.Refl (Calm (V := V)) :=
  ⟨fun _ => ⟨rfl, rfl, rfl, rfl, fun _ => rfl, le_rfl, fun _ _ h => h, .of_same rfl rfl⟩⟩

instance : IsTrans (Cluster V) Calm :=
  ⟨fun _ _ _ h h' => ⟨h'.term.trans h.term, h'.leaderId.trans h.leaderId, h'.draws.trans h.draws,
    h'.nodeIds.trans h.nodeIds, fun id => (h'.heartbeat id).trans (h.heartbeat id),
    h.ticks.trans h'.ticks, fun key lease hl => h.leases key lease (h'.leases key lease hl),
    h.account.trans h'.account h'.leases⟩⟩

theorem Aside.calm (h : Aside s s') : Calm s s' :=
  ⟨h.term, h.leaderId, h.draws, h.nodeIds, h.heartbeat, h.ticks, h.leases, h.account⟩

theorem Calm.setStatus (id : NodeId) (status : NodeStatus) (s : Cluster V) :
    Calm s (setStatus id status s) := by
  refine ⟨rfl, rfl, rfl, rfl, fun id' => ?_, le_rfl, fun _ _ h => h, .of_same rfl rfl⟩
  by_cases h : id' = id
  · subst h
    simp [Cluster.setStatus, modifyNode]
  · simp [Cluster.setStatus, modifyNode, h]

/-- Nothing between the checkpoints and the final election of a rebalance elects. -/
theorem calm_applyChecked (plan : RebalancePlan) : Rel Calm (applyChecked c plan) := by
  have calm : ∀ {β : Type} {m : ClusterM V β}, Rel Aside m → Rel Calm m := fun h =>
    h.mono fun _ _ h => h.calm
  have hmove : ∀ move, Rel Calm (applyMove c move) := by
    intro move
    have hsource : Rel Aside (checkSource c move) := by
      refine Rel.bind Rel.get fun s => ?_
      split
      · exact Rel.throw _
      · exact Rel.bind (aside_hasHealthyRecord _ _ _) fun _ =>
          Rel.ite (fun _ => Rel.pure _) fun _ => Rel.throw _
    exact calm <| Rel.bind (aside_requireNode _) fun _ => Rel.bind (aside_requireNode _) fun _ =>
      Rel.bind hsource fun _ => Rel.bind (aside_healthy _) fun _ =>
        Rel.ite (fun _ => Rel.bind (aside_createSnapshot _ _) fun _ => aside_bootstrapNode _ _)
          fun _ => Rel.throw _
  have hverify : ∀ key, Rel Calm (verifyKey c plan key) := by
    intro key
    refine calm (Rel.bind Rel.get fun s => ?_)
    split
    · exact Rel.pure _
    · exact Rel.bind (aside_ownersIn _ _) fun _ => Rel.forEach fun id _ =>
        Rel.bind (aside_accessNode id) fun _ => Rel.bind (aside_nodeHasRecord id _ _) fun _ =>
          Rel.ite (fun _ => Rel.pure _) fun _ => Rel.throw _
  have hclean : ∀ ring key, Rel Calm (cleanKey c ring key) := fun ring key =>
    calm <| Rel.bind (aside_ringOwners key) fun _ => Rel.forEach fun id _ =>
      Rel.ite (fun _ => Rel.pure _) fun _ => Rel.bind (aside_faulty id _) fun _ =>
        Rel.modify (Aside.putMetadata id key none)
  have hretain : ∀ s : Cluster V, Aside s (retainHotReplicas c s) := by
    intro s
    refine Aside.foldl (fun s p => ?_) _ s
    unfold retainKey
    split_ifs
    · exact .of_same rfl rfl rfl rfl rfl rfl rfl rfl rfl
    · exact .of_same rfl rfl rfl rfl rfl rfl rfl rfl rfl
  have hpublish : Rel Calm (modify fun s => { s with ring := plan.targetRing } : ClusterM V Unit) :=
    Rel.modify fun _ =>
      ⟨rfl, rfl, rfl, rfl, fun _ => rfl, le_rfl, fun _ _ h => h, .of_same rfl rfl⟩
  have hbody : ∀ ring, Rel Calm (applyBody c plan ring) := fun ring =>
    Rel.bind (Rel.forEach fun move _ => hmove move) fun _ => Rel.bind (calm (aside_walk _)) fun _ =>
      Rel.bind (Rel.forEach fun key _ => hverify key) fun _ => Rel.bind hpublish fun _ =>
        Rel.bind (Rel.forEach fun id _ => Rel.bind (calm (aside_accessNode id)) fun _ =>
          Rel.modify (Calm.setStatus id _)) fun _ =>
          Rel.bind (Rel.forEach fun id _ => Rel.bind (calm (aside_accessNode id)) fun _ =>
            Rel.modify fun s => Calm.setStatus id _ s) fun _ => Rel.bind (calm (aside_walk _))
              fun _ => Rel.bind (Rel.forEach fun key _ => hclean ring key) fun _ =>
                Rel.modify fun s => (hretain s).calm
  have hreset : ∀ (old : Cluster V) affected,
      Rel Calm (modify (resetMembership old affected) : ClusterM V Unit) := by
    refine fun old affected => Rel.modify fun s =>
      ⟨rfl, rfl, rfl, rfl, fun id => ?_, le_rfl, fun _ _ h => h, .of_same rfl rfl⟩
    simp only [resetMembership]
    split_ifs <;> rfl
  exact Rel.bind Rel.get fun _ => Rel.bind (Rel.forEach fun id _ => calm (aside_accessNode id))
    fun _ => Rel.bind (calm (aside_captureBackendCheckpoints _)) fun _ => Rel.bind Rel.get
      fun old => Rel.tryCatch (hbody _) fun _ =>
        Rel.bind (calm (aside_restoreBackendCheckpoints _)) fun _ => Rel.bind (hreset old _)
          fun _ => Rel.throw _

/-! ## Calls that change the membership -/

/-- What a relation between coordinators has to allow for all calls but `acquire_lease`:
elections, other statuses and rings, and nodes that come and go. -/
structure Manages (c : ClusterConfig V) (R : Cluster V → Cluster V → Prop) : Prop
    extends Carries c R where
  calm : ∀ {s s'}, Calm s s' → R s s'
  elect : Rel R (electLeader c)
  members : ∀ s nodeIds node, R s { s with nodeIds := nodeIds, node := node }

namespace Manages

variable {R : Cluster V → Cluster V → Prop} (h : Manages c R)

include h

theorem calmly {m : ClusterM V α} (hm : Rel Calm m) : Rel R m := hm.mono fun _ _ => h.calm

theorem heartbeat (id : NodeId) (incarnation : Option ℤ) : Rel R (heartbeat c id incarnation) := by
  have := h.toRefl
  have := h.toTrans
  have hcheck : Rel Aside (checkIncarnation id incarnation : ClusterM V Unit) := by
    cases incarnation with
    | none => exact Rel.pure _
    | some i =>
      exact Rel.bind Rel.get fun _ => Rel.ite (fun _ => Rel.throw _) fun _ => Rel.modify fun s =>
        .modifyNode id (by intro n; rfl) (by intro n; rfl) s
  have hheard : ∀ now, Rel R (modify (heardOf id now) : ClusterM V Unit) := fun _ =>
    Rel.modify fun s => h.members s s.nodeIds _
  exact Rel.bind (h.rel (aside_requireNode id)) fun _ => Rel.bind (h.rel hcheck) fun _ =>
    Rel.bind (h.rel aside_readClock) fun _ => Rel.bind (hheard _) fun _ =>
      Rel.bind (h.rel (aside_bump _ _)) fun _ => Rel.bind h.elect fun _ =>
        Rel.bind (h.rel (aside_gcTombstones _)) fun _ => Rel.pure _

theorem markNodeDown (id : NodeId) : Rel R (markNodeDown c id) :=
  have := h.toTrans
  Rel.bind (h.rel (aside_requireNode id)) fun _ =>
    Rel.bind (h.calmly (Rel.modify (Calm.setStatus id _))) fun _ =>
      Rel.bind (h.rel (aside_bump _ _)) fun _ => h.elect

theorem addNode (id : NodeId) (storage : Option (Engine V)) : Rel R (addNode c id storage) := by
  have := h.toRefl
  have := h.toTrans
  have hids : ∀ f : Cluster V → List NodeId × (NodeId → ClusterNode V), Rel R
      (modify fun s => { s with nodeIds := (f s).1, node := (f s).2 } : ClusterM V Unit) := fun _ =>
    Rel.modify fun s => h.members s _ _
  refine Rel.bind Rel.get fun _ => Rel.ite (fun _ => Rel.throw _) fun _ =>
    Rel.bind (h.rel aside_readClock) fun now => Rel.bind (Rel.ite (fun _ => Rel.throw _)
      fun _ => Rel.pure _) fun _ => Rel.bind (hids fun s => (s.nodeIds ++ [id],
        Function.update s.node id (joiningNode (storage.getD Engine.init) now))) fun _ =>
          Rel.tryCatch h.planRebalance fun _ => Rel.bind ?_ fun _ => Rel.throw _
  exact hids fun s => (s.nodeIds.erase id, s.node)

theorem departFrom (id : NodeId) (status : NodeStatus) (verb : String) :
    Rel R (departFrom c id status verb) :=
  have := h.toRefl
  have := h.toTrans
  Rel.bind (h.rel (aside_requireNode id)) fun _ => Rel.bind Rel.get fun _ =>
    Rel.ite (fun _ => Rel.throw _) fun _ => Rel.ite (fun _ => Rel.throw _) fun _ =>
      Rel.bind (h.calmly (Rel.modify (Calm.setStatus id _))) fun _ =>
        Rel.tryCatch h.planRebalance fun _ =>
          Rel.bind (h.calmly (Rel.modify (Calm.setStatus id _))) fun _ => Rel.throw _

theorem applyRebalance (plan : RebalancePlan) : Rel R (applyRebalance c plan) :=
  have := h.toTrans
  Rel.bind (h.checkPlan plan) fun _ => Rel.bind (h.calmly (calm_applyChecked plan)) fun _ =>
    Rel.bind (h.rel (aside_gcTombstones _)) fun _ => Rel.bind (h.rel (aside_bump _ _)) fun _ =>
      h.elect

theorem exec (call : ClusterCall V) (hacquire : ∀ key force, call = .acquireLease key force →
    Rel R (Cluster.acquireLease c key force)) : Rel R (ClusterCall.exec c call) := by
  have := h.toRefl
  have := h.toTrans
  by_cases hcall : call.Membership
  · cases call with
    | heartbeat id incarnation => exact (h.heartbeat id incarnation).discard
    | markNodeDown id => exact (h.markNodeDown id).discard
    | addNode id storage => exact (h.addNode id storage).discard
    | drainNode id => exact (h.departFrom id _ _).discard
    | removeNode id => exact (h.departFrom id _ _).discard
    | applyRebalance plan => exact (h.applyRebalance plan).discard
    | _ => exact hcall.elim
  · exact h.toCarries.exec hcall hacquire

end Manages

/-! ## How leadership develops -/

/-- Terms do not go back, a term has one leader, and a lease is an old one or comes with a
token drawn since. -/
structure Leads (c : ClusterConfig V) (s s' : Cluster V) : Prop where
  term : s.term ≤ s'.term
  leader : s'.term = s.term → s'.leaderId = s.leaderId
  draws : s.draws ≤ s'.draws
  leases : ∀ key lease, s'.leases.get? key = some lease →
    (∃ old, s.leases.get? key = some old ∧ lease.token = old.token ∧ lease.fence = old.fence) ∨
    ∃ m, s.draws ≤ m ∧ m < s'.draws ∧ lease.token = c.tokenUrlsafe m ∧ lease.fence.term ≤ s'.term

theorem Calm.leads (h : Calm s s') : Leads c s s' where
  term := h.term.ge
  leader := fun _ => h.leaderId
  draws := h.draws.ge
  leases := fun key lease hl => .inl ⟨lease, h.leases key lease hl, rfl, rfl⟩

theorem Leads.refl (s : Cluster V) : Leads c s s := Calm.leads (refl_of Calm s)

theorem Leads.trans (h : Leads c s s') (h' : Leads c s' s'') : Leads c s s'' where
  term := h.term.trans h'.term
  leader := by
    intro heq
    have hmid : s'.term = s.term := le_antisymm (heq ▸ h'.term) h.term
    rw [h'.leader (heq.trans hmid.symm), h.leader hmid]
  draws := h.draws.trans h'.draws
  leases := by
    intro key lease hl
    rcases h'.leases key lease hl with ⟨mid, hmid, htoken, hfence⟩ | ⟨m, h₁, h₂, h₃, h₄⟩
    · rcases h.leases key mid hmid with ⟨old, hold, ht, hf⟩ | ⟨m, h₁, h₂, h₃, h₄⟩
      · exact .inl ⟨old, hold, htoken.trans ht, hfence.trans hf⟩
      · refine .inr ⟨m, h₁, h₂.trans_le h'.draws, htoken.trans h₃, ?_⟩
        rw [hfence]
        exact h₄.trans h'.term
    · exact .inr ⟨m, h.draws.trans h₁, h₂, h₃, h₄⟩

instance : Std.Refl (Leads c) := ⟨Leads.refl⟩

instance : IsTrans (Cluster V) (Leads c) := ⟨fun _ _ _ => Leads.trans⟩

theorem leads_electLeader : Rel (Leads c) (electLeader c) := by
  intro s
  obtain ⟨n, hn, ⟨hrun, _⟩ | ⟨candidates, hrun, _⟩⟩ := electLeader_cases (c := c) s
  · rw [hrun]
    exact Calm.leads ⟨rfl, rfl, rfl, rfl, fun _ => rfl, hn, fun _ _ h => h, .of_same rfl rfl⟩
  · rw [hrun]
    refine ⟨Nat.le_succ _, fun h => ?_, le_rfl, fun _ _ h => ?_⟩
    · exact absurd h (Nat.succ_ne_self _)
    · simp [newTerm, bump] at h

theorem calm_markDown (failed : List NodeId) (s : Cluster V) : Calm s (markDown failed s) := by
  refine ⟨rfl, rfl, rfl, rfl, fun id => ?_, le_rfl, fun _ _ h => h, .of_same rfl rfl⟩
  simp only [markDown, bump]
  split_ifs <;> rfl

theorem leads_detectFailures : Rel (Leads c) (detectFailures c) :=
  Rel.bind (fun s => (aside_readClock s).calm.leads) fun _ => Rel.bind Rel.get fun _ =>
    Rel.ite (fun _ => Rel.pure _) fun _ =>
      Rel.bind (Rel.modify fun s => (calm_markDown _ s).leads) fun _ =>
        Rel.bind leads_electLeader fun _ => Rel.pure _

theorem leads_manages : Manages c (Leads c) where
  refl := Leads.refl
  trans := Leads.trans
  aside := fun h => h.calm.leads
  detect := leads_detectFailures
  relet := fun h => ⟨h.term, h.leader, h.draws, fun _ lease hl => .inl ⟨lease, hl, rfl, rfl⟩⟩
  renew := by
    intro key old now s hold
    refine ⟨le_rfl, fun _ => rfl, le_rfl, fun k lease hl => .inl ?_⟩
    simp only [OrderedDict.get?_set] at hl
    split_ifs at hl with hk
    · obtain rfl := Option.some.inj hl
      exact ⟨old, hk ▸ hold, rfl, rfl⟩
    · exact ⟨lease, hl, rfl, rfl⟩
  calm := Calm.leads
  elect := leads_electLeader
  members := fun _ _ _ => ⟨le_rfl, fun _ => rfl, le_rfl, fun _ lease hl => .inl ⟨lease, hl, rfl, rfl⟩⟩

theorem leads_aside {m : ClusterM V α} (h : Rel Aside m) : Rel (Leads c) m :=
  h.mono fun _ _ h => h.calm.leads

theorem leads_acquireLease (key : Key) (force : Bool) : Rel (Leads c) (acquireLease c key force) := by
  apply leads_manages.acquireLease force
  · intro s
    exact ⟨le_rfl, fun _ => rfl, Nat.le_succ _, fun _ lease hl => .inl ⟨lease, hl, rfl, rfl⟩⟩
  · intro now s _
    refine ⟨le_rfl, fun _ => rfl, Nat.le_succ _, fun k lease hl => ?_⟩
    simp only [issueLease, bump, OrderedDict.get?_set] at hl
    split_ifs at hl
    · obtain rfl := Option.some.inj hl
      exact .inr ⟨s.draws, le_rfl, Nat.lt_succ_self _, rfl, le_rfl⟩
    · exact .inl ⟨lease, hl, rfl, rfl⟩

theorem leads_exec (call : ClusterCall V) : Rel (Leads c) (ClusterCall.exec c call) :=
  leads_manages.exec call fun key force _ => leads_acquireLease key force

theorem leads_runs (s : Cluster V) (calls : List (ClusterCall V)) : Leads c s (runs c s calls) := by
  induction calls generalizing s with
  | nil => exact .refl s
  | cons call calls ih => exact (leads_exec call s).trans (ih _)

/-! ## A healthy leader stays -/

/-- A member of the ring that serves. -/
def Stands (s : Cluster V) (id : NodeId) : Prop :=
  id ∈ s.nodeIds ∧ id ∈ s.ring.nodeIds ∧ (s.node id).status.serves = true

/-- The node leads the term and stands. -/
def Leading (leader : NodeId) (term : ℕ) (s : Cluster V) : Prop :=
  s.leaderId = leader ∧ s.term = term ∧ Stands s leader

/-- A leader whose heartbeat is recent until the end still leads then. -/
structure Steady (c : ClusterConfig V) (leader : NodeId) (term : ℕ) (s s' : Cluster V) : Prop where
  ticks : s.ticks ≤ s'.ticks
  member : leader ∈ s.nodeIds → leader ∈ s'.nodeIds ∧
    (s'.node leader).lastHeartbeat = (s.node leader).lastHeartbeat
  leads : Leading leader term s →
    c.clock s'.ticks - (s.node leader).lastHeartbeat ≤ c.heartbeatTimeout → Leading leader term s'

variable {leader : NodeId} {term : ℕ}

theorem Steady.refl (s : Cluster V) : Steady c leader term s s :=
  ⟨le_rfl, fun h => ⟨h, rfl⟩, fun h _ => h⟩

theorem Steady.trans (h : Steady c leader term s s') (h' : Steady c leader term s' s'') :
    Steady c leader term s s'' where
  ticks := h.ticks.trans h'.ticks
  member := by
    intro hin
    obtain ⟨hin', heq⟩ := h.member hin
    obtain ⟨hin'', heq'⟩ := h'.member hin'
    exact ⟨hin'', heq'.trans heq⟩
  leads := by
    intro hlead htime
    have hmid : c.clock s'.ticks ≤ c.clock s''.ticks := c.clock_mono h'.ticks
    refine h'.leads (h.leads hlead (by linarith)) ?_
    rw [(h.member hlead.2.2.1).2]
    exact htime

/-- The same with the heartbeat looked up at the end. -/
theorem Steady.leads_at_end (h : Steady c leader term s s') (hl : Leading leader term s)
    (htime : c.clock s'.ticks - (s'.node leader).lastHeartbeat ≤ c.heartbeatTimeout) :
    Leading leader term s' :=
  h.leads hl ((h.member hl.2.2.1).2 ▸ htime)

instance : Std.Refl (Steady c leader term) := ⟨Steady.refl⟩

instance : IsTrans (Cluster V) (Steady c leader term) := ⟨fun _ _ _ => Steady.trans⟩

theorem Aside.steady (h : Aside s s') : Steady c leader term s s' where
  ticks := h.ticks
  member := fun hin => ⟨h.nodeIds ▸ hin, h.heartbeat leader⟩
  leads := by
    rintro ⟨hl, ht, hin, hring, hserves⟩ _
    exact ⟨h.leaderId.trans hl, h.term.trans ht, h.nodeIds ▸ hin, h.ring ▸ hring,
      (h.status leader).symm ▸ hserves⟩

theorem steady_electLeader : Rel (Steady c leader term) (electLeader c) := by
  intro s
  obtain ⟨n, hn, ⟨hrun, _⟩ | ⟨candidates, hrun, hnot, _⟩⟩ := electLeader_cases (c := c) s
  · rw [hrun]
    exact ⟨hn, fun h => ⟨h, rfl⟩, fun h _ => h⟩
  · rw [hrun]
    refine ⟨hn, fun h => ⟨h, rfl⟩, ?_⟩
    rintro ⟨rfl, _, hin, hring, hserves⟩ htime
    exact absurd ⟨hserves, htime⟩ (hnot hring)

theorem steady_detectFailures : Rel (Steady c leader term) (detectFailures c) := by
  intro s
  unfold detectFailures
  have hread : Steady c leader term s (s.atTick (s.ticks + 1)) := (aside_readClock (c := c) s).steady
  rw [run_bind_ok (show readClock c s = (.ok (c.clock s.ticks), s.atTick (s.ticks + 1)) from rfl),
    run_bind_ok (run_get _), run_ite]
  split_ifs
  · exact hread
  · have hdown : Steady c leader term s (markDown
        (failedAt c (c.clock s.ticks) (s.atTick (s.ticks + 1))) (s.atTick (s.ticks + 1))) := by
      refine ⟨Nat.le_succ _, fun h => ⟨h, ?_⟩, ?_⟩
      · simp only [markDown, bump]
        split_ifs <;> rfl
      · rintro ⟨hl, ht, hin, hring, hserves⟩ htime
        have hmono : c.clock s.ticks ≤ c.clock (s.ticks + 1) := c.clock_mono (Nat.le_succ _)
        have hlive : leader ∉ failedAt c (c.clock s.ticks) (s.atTick (s.ticks + 1)) := by
          intro hfailed
          have hlate := (List.mem_filter.mp hfailed).2
          simp only [Bool.and_eq_true, decide_eq_true_eq] at hlate
          have hlate' : c.heartbeatTimeout < c.clock s.ticks - (s.node leader).lastHeartbeat := hlate.2
          have htime' : c.clock (s.ticks + 1) - (s.node leader).lastHeartbeat ≤
            c.heartbeatTimeout := htime
          linarith
        refine ⟨hl, ht, hin, hring, ?_⟩
        simp only [markDown, bump, if_neg hlive]
        exact hserves
    exact hdown.trans ((Rel.bind steady_electLeader fun _ => Rel.pure _) _)

theorem steady_carries : Carries c (Steady c leader term) where
  refl := Steady.refl
  trans := Steady.trans
  aside := Aside.steady
  detect := steady_detectFailures
  relet := fun h => ⟨h.ticks, h.member, h.leads⟩
  renew := fun _ _ _ _ _ => ⟨le_rfl, fun h => ⟨h, rfl⟩, fun h _ => h⟩

theorem steady_acquireLease (key : Key) (force : Bool) :
    Rel (Steady c leader term) (acquireLease c key force) :=
  steady_carries.acquireLease force (fun _ => ⟨le_rfl, fun h => ⟨h, rfl⟩, fun h _ => h⟩)
    fun _ _ _ => ⟨le_rfl, fun h => ⟨h, rfl⟩, fun h _ => h⟩

theorem steady_aside {m : ClusterM V α} (h : Rel Aside m) : Rel (Steady c leader term) m :=
  h.mono fun _ _ h => h.steady

/-- The leader may only get a status that serves. -/
theorem Steady.setStatus {id : NodeId} {status : NodeStatus}
    (h : id = leader → status.serves = true) (s : Cluster V) :
    Steady c leader term s (setStatus id status s) := by
  refine ⟨le_rfl, fun hin => ⟨hin, (Calm.setStatus id status s).heartbeat leader⟩, ?_⟩
  rintro ⟨hl, ht, hin, hring, hserves⟩ _
  refine ⟨hl, ht, hin, hring, ?_⟩
  by_cases he : id = leader
  · subst he
    simpa [Cluster.setStatus, modifyNode] using h rfl
  · simpa [Cluster.setStatus, modifyNode, Ne.symm he] using hserves

theorem requireNode_cases (id : NodeId) (s : Cluster V) :
    requireNode id s = (.ok (), s) ∨ ∃ e, requireNode id s = (.error e, s) := by
  unfold requireNode
  rw [run_bind_ok (run_get s), run_ite]
  split_ifs
  · exact .inl rfl
  · exact .inr ⟨_, rfl⟩

theorem Aside.leading (h : Aside s s') (hl : Leading leader term s) : Leading leader term s' := by
  obtain ⟨hleader, hterm, hin, hring, hserves⟩ := hl
  exact ⟨h.leaderId.trans hleader, h.term.trans hterm, h.nodeIds ▸ hin, h.ring ▸ hring,
    (h.status leader).symm ▸ hserves⟩

/-- A node that is heard of keeps a status that serves. -/
theorem Leading.heardOf (h : Leading leader term s) (id : NodeId) (now : ℚ) :
    Leading leader term (heardOf id now s) := by
  obtain ⟨hleader, hterm, hin, hring, hserves⟩ := h
  refine ⟨hleader, hterm, hin, hring, ?_⟩
  by_cases he : id = leader
  · subst he
    have hup : (s.node id).status ≠ .down := by
      intro hdown
      rw [hdown] at hserves
      exact absurd hserves (by decide)
    simpa [Cluster.heardOf, modifyNode, hup] using hserves
  · simpa [Cluster.heardOf, modifyNode, Ne.symm he] using hserves

/-- The part of a heartbeat after the node was heard of. -/
theorem steady_afterHeartbeat : Rel (Steady c leader term) (do
    modify (bump .heartbeats 1)
    electLeader c
    let _ ← gcTombstones c none
    pure () : ClusterM V Unit) :=
  Rel.bind (steady_aside (aside_bump _ _)) fun _ => Rel.bind steady_electLeader fun _ =>
    Rel.bind (steady_aside (aside_gcTombstones _)) fun _ => Rel.pure _

theorem aside_checkIncarnation (id : NodeId) (incarnation : Option ℤ) :
    Rel Aside (checkIncarnation id incarnation : ClusterM V Unit) := by
  cases incarnation with
  | none => exact Rel.pure _
  | some i =>
    exact Rel.bind Rel.get fun _ => Rel.ite (fun _ => Rel.throw _) fun _ => Rel.modify fun s =>
      .modifyNode id (by intro n; rfl) (by intro n; rfl) s

/-- A heartbeat, also one of the leader itself, leaves a recent leader where it is. -/
theorem heartbeat_keeps_leader (id : NodeId) (incarnation : Option ℤ) (h : Leading leader term s)
    (hrun : (heartbeat c id incarnation s).2 = s')
    (htime : c.clock s'.ticks - (s'.node leader).lastHeartbeat ≤ c.heartbeatTimeout) :
    Leading leader term s' := by
  unfold heartbeat at hrun
  rcases requireNode_cases id s with hreq | ⟨e, hreq⟩
  · rw [run_bind_ok hreq] at hrun
    rcases hcheck : checkIncarnation id incarnation s with ⟨e | ⟨⟩, s₁⟩
    · have hside : Aside s s₁ := (aside_checkIncarnation id incarnation).run hcheck
      rw [run_bind_error hcheck] at hrun
      exact hrun ▸ hside.leading h
    · have hside : Aside s s₁ := (aside_checkIncarnation id incarnation).run hcheck
      rw [run_bind_ok hcheck, run_bind_ok (show readClock c s₁ = (.ok (c.clock s₁.ticks),
        s₁.atTick (s₁.ticks + 1)) from rfl), run_bind_ok (run_modify _ _)] at hrun
      have hheard := ((aside_readClock (c := c) s₁).leading (hside.leading h)).heardOf id
        (c.clock s₁.ticks)
      have hrest : Steady c leader term _ _ := steady_afterHeartbeat
        (heardOf id (c.clock s₁.ticks) (s₁.atTick (s₁.ticks + 1)))
      rw [hrun] at hrest
      exact hrest.leads_at_end hheard htime
  · rw [run_bind_error hreq] at hrun
    exact hrun ▸ h

theorem steady_markNodeDown {id : NodeId} (hid : id ≠ leader) :
    Rel (Steady c leader term) (markNodeDown c id) :=
  Rel.bind (steady_aside (aside_requireNode id)) fun _ =>
    Rel.bind (Rel.modify (Steady.setStatus fun he => absurd he hid)) fun _ =>
      Rel.bind (steady_aside (aside_bump _ _)) fun _ => steady_electLeader

/-- A node that is marked as down does not stand afterwards. -/
theorem markNodeDown_not_stands (id : NodeId) (s : Cluster V) :
    (markNodeDown c id s).2 = s ∨ ¬Stands (markNodeDown c id s).2 id := by
  unfold markNodeDown
  rcases requireNode_cases id s with hreq | ⟨e, hreq⟩
  · right
    rw [run_bind_ok hreq, run_bind_ok (run_modify _ s), run_bind_ok (run_modify _ _)]
    obtain ⟨t, hrun, _, _, hnode, _⟩ := electLeader_leader (c := c)
      (bump .nodeFailures 1 (setStatus id .down s))
    rw [hrun]
    rintro ⟨_, _, hserves⟩
    rw [hnode] at hserves
    simp [bump, setStatus, modifyNode, NodeStatus.serves] at hserves
  · left
    rw [run_bind_error hreq]

theorem steady_addNode {id : NodeId} (hid : id ≠ leader) (storage : Option (Engine V)) :
    Rel (Steady c leader term) (addNode c id storage) := by
  have hjoin : ∀ now, Rel (Steady c leader term) (modify fun s => { s with
      nodeIds := s.nodeIds ++ [id]
      node := Function.update s.node id (joiningNode (storage.getD Engine.init) now) } :
        ClusterM V Unit) := by
    refine fun now => Rel.modify fun s => ⟨le_rfl, fun hin => ⟨?_, ?_⟩, ?_⟩
    · exact List.mem_append_left _ hin
    · simp [hid.symm]
    · rintro ⟨hl, ht, hin, hring, hserves⟩ _
      exact ⟨hl, ht, List.mem_append_left _ hin, hring, by simpa [hid.symm] using hserves⟩
  have hleave : Rel (Steady c leader term) (modify fun s => { s with
      nodeIds := s.nodeIds.erase id } : ClusterM V Unit) := by
    refine Rel.modify fun s => ⟨le_rfl, fun hin => ⟨?_, rfl⟩, ?_⟩
    · exact (List.mem_erase_of_ne hid.symm).mpr hin
    · rintro ⟨hl, ht, hin, hring, hserves⟩ _
      exact ⟨hl, ht, (List.mem_erase_of_ne hid.symm).mpr hin, hring, hserves⟩
  exact Rel.bind Rel.get fun _ => Rel.ite (fun _ => Rel.throw _) fun _ =>
    Rel.bind (steady_aside aside_readClock) fun now => Rel.bind (Rel.ite (fun _ => Rel.throw _)
      fun _ => Rel.pure _) fun _ => Rel.bind (hjoin now) fun _ =>
        Rel.tryCatch steady_carries.planRebalance fun _ => Rel.bind hleave fun _ => Rel.throw _

theorem steady_departFrom {id : NodeId} {status : NodeStatus} (verb : String)
    (hnew : id = leader → status.serves = true)
    (hold : id = leader → (s.node id).status.serves = true) :
    Steady c leader term s (departFrom c id status verb s).2 := by
  unfold departFrom
  rcases requireNode_cases id s with hreq | ⟨e, hreq⟩
  · rw [run_bind_ok hreq, run_bind_ok (run_get s), run_ite, run_ite]
    split_ifs
    · exact .refl s
    · exact Rel.bind (Rel.modify (Steady.setStatus hnew)) (fun _ => Rel.tryCatch
        steady_carries.planRebalance fun _ => Rel.bind (Rel.modify (Steady.setStatus hold))
          fun _ => Rel.throw _) s
    · exact .refl s
  · rw [run_bind_error hreq]
    exact .refl s

/-- The ring that a rebalance leaves decides whether its leader stays. -/
theorem applyRebalance_keeps_leader (plan : RebalancePlan) (h : Leading leader term s)
    (hrun : (applyRebalance c plan s).2 = s') (hstands : Stands s' leader)
    (htime : c.clock s'.ticks - (s'.node leader).lastHeartbeat ≤ c.heartbeatTimeout) :
    Leading leader term s' := by
  -- the leader leads when the checks are over, and until the ring is published nobody is elected
  have hmid : ∀ s₁, Steady c leader term s s₁ → s₁.ticks ≤ s'.ticks →
      (s'.node leader).lastHeartbeat = (s₁.node leader).lastHeartbeat → Leading leader term s₁ := by
    intro s₁ hst hticks hheart
    have hmono : c.clock s₁.ticks ≤ c.clock s'.ticks := c.clock_mono hticks
    refine hst.leads_at_end h ?_
    rw [hheart] at htime
    linarith
  have hcalm : ∀ s₁, Steady c leader term s s₁ → Calm s₁ s' → Leading leader term s' := by
    intro s₁ hst hcalm
    obtain ⟨hl, ht, _⟩ := hmid s₁ hst hcalm.ticks (hcalm.heartbeat leader)
    exact ⟨hcalm.leaderId.trans hl, hcalm.term.trans ht, hstands⟩
  unfold applyRebalance at hrun
  rcases hcheck : checkPlan c plan s with ⟨e | ⟨⟩, s₁⟩
  · rw [run_bind_error hcheck] at hrun
    have hst : Steady c leader term s s₁ := (steady_carries.checkPlan plan).run hcheck
    exact hcalm s' (hrun ▸ hst) (refl_of Calm s')
  · have hst : Steady c leader term s s₁ := (steady_carries.checkPlan plan).run hcheck
    rw [run_bind_ok hcheck] at hrun
    rcases happly : applyChecked c plan s₁ with ⟨e | ⟨⟩, s₂⟩
    · rw [run_bind_error happly] at hrun
      exact hcalm s₁ hst (hrun ▸ (calm_applyChecked plan).run happly)
    · have h₂ : Calm s₁ s₂ := (calm_applyChecked plan).run happly
      rw [run_bind_ok happly] at hrun
      rcases hgc : gcTombstones c none s₂ with ⟨e | n, s₃⟩
      · rw [run_bind_error hgc] at hrun
        exact hcalm s₁ hst (hrun ▸ trans_of Calm h₂ ((aside_gcTombstones _).run hgc).calm)
      · have h₃ : Calm s₁ (bump .rebalances 1 s₃) := trans_of Calm h₂
          (((aside_gcTombstones _).run hgc).trans (.bump _ _ _)).calm
        rw [run_bind_ok hgc, run_bind_ok (run_modify _ _)] at hrun
        obtain ⟨t, helect, hids, hring, hnode, hticks, _⟩ := electLeader_leader (c := c)
          (bump .rebalances 1 s₃)
        obtain rfl : t = s' := by rwa [helect] at hrun
        have hfinal : Steady c leader term _ _ := steady_electLeader.run helect
        refine hfinal.leads_at_end ?_ htime
        obtain ⟨hl, ht, _⟩ := hmid s₁ hst (h₃.ticks.trans hticks)
          (by rw [hnode]; exact h₃.heartbeat leader)
        refine ⟨h₃.leaderId.trans hl, h₃.term.trans ht, ?_⟩
        rw [Stands, hids, hring, hnode] at hstands
        exact hstands

/-- **A leader that stays in the ring and healthy is not replaced.** -/
theorem leader_stays (call : ClusterCall V) (hcall : ∀ id, call = .removeNode id → id ≠ s.leaderId)
    (h : Stands s s.leaderId) (h' : Stands (ClusterCall.run c call s) s.leaderId)
    (htime : Healthy c (ClusterCall.run c call s) s.leaderId
      (c.clock (ClusterCall.run c call s).ticks)) :
    (ClusterCall.run c call s).fence = s.fence := by
  have hlead : Leading s.leaderId s.term s := ⟨rfl, rfl, h⟩
  suffices hl : Leading s.leaderId s.term (ClusterCall.run c call s) by
    rw [fence, fence, hl.1, hl.2.1]
  by_cases hmember : call.Membership
  · have hsnd : ∀ {β : Type} (m : ClusterM V β), (m.discard s).2 = (m s).2 := fun m =>
      run_bind_pure m (fun _ => ()) s
    cases call with
    | heartbeat id incarnation =>
      exact heartbeat_keeps_leader id incarnation hlead (hsnd _).symm htime.2
    | markNodeDown id =>
      by_cases hid : id = s.leaderId
      · rcases markNodeDown_not_stands (c := c) id s with hsame | hdown
        · rw [ClusterCall.run, ClusterCall.exec, hsnd, hsame]
          exact hlead
        · rw [ClusterCall.run, ClusterCall.exec, hsnd, ← hid] at h'
          exact absurd h' hdown
      · exact ((steady_markNodeDown hid).discard s).leads_at_end hlead htime.2
    | addNode id storage =>
      by_cases hid : id = s.leaderId
      · have hsame : (addNode c id storage s).2 = s := by
          unfold addNode
          rw [run_bind_ok (run_get s), run_ite, if_pos (hid ▸ h.1)]
          rfl
        rw [ClusterCall.run, ClusterCall.exec, hsnd, hsame]
        exact hlead
      · exact ((steady_addNode hid storage).discard s).leads_at_end hlead htime.2
    | drainNode id =>
      have hst : Steady c s.leaderId s.term s (departFrom c id .draining "drain" s).2 :=
        steady_departFrom "drain" (fun _ => by decide) (fun he => he ▸ h.2.2)
      rw [ClusterCall.run, ClusterCall.exec, hsnd] at htime ⊢
      exact hst.leads_at_end hlead htime.2
    | removeNode id =>
      have hne : id ≠ s.leaderId := hcall id rfl
      have hst : Steady c s.leaderId s.term s (departFrom c id .removing "remove" s).2 :=
        steady_departFrom "remove" (fun he => absurd he hne) (fun he => absurd he hne)
      rw [ClusterCall.run, ClusterCall.exec, hsnd] at htime ⊢
      exact hst.leads_at_end hlead htime.2
    | applyRebalance plan =>
      exact applyRebalance_keeps_leader plan hlead (hsnd _).symm h' htime.2
    | _ => exact hmember.elim
  · have hsteady : Rel (Steady c s.leaderId s.term) (ClusterCall.exec c call) :=
      steady_carries.exec hmember fun key force _ => steady_acquireLease key force
    exact (hsteady s).leads_at_end hlead htime.2

/-! ## Fences -/

/-- A fence of the past or of another leader never becomes the current one. -/
theorem Leads.fence_ne {fence : FenceToken} (h : Leads c s s') (hne : fence ≠ s.fence)
    (hterm : fence.term ≤ s.term) : fence ≠ s'.fence := by
  rintro rfl
  have heq : s'.term = s.term := le_antisymm hterm h.term
  apply hne
  rw [Cluster.fence, Cluster.fence, heq, h.leader heq]

theorem assertFence_error {fence : FenceToken} (hne : fence ≠ s.fence) :
    ∃ e, assertFence fence s = (.error e, s) := by
  unfold assertFence
  rw [run_bind_ok (run_get s), run_ite, if_neg hne]
  exact ⟨_, rfl⟩

/-- A program that first detects failures and checks a fence of the past raises. -/
theorem fenceCheck_error {fence : FenceToken} (hne : fence ≠ s.fence) (hterm : fence.term ≤ s.term)
    (rest : ClusterM V α) : ∃ e, ((do
      let _ ← detectFailures c
      let fence ← selectedFence (some fence)
      assertFence fence
      rest : ClusterM V α) s).1 = .error e := by
  rcases hdetect : detectFailures c s with ⟨e | ids, s₁⟩
  · exact ⟨e, by rw [run_bind_error hdetect]⟩
  · have hlead : Leads c s s₁ := leads_detectFailures.run hdetect
    obtain ⟨e, he⟩ := assertFence_error (hlead.fence_ne hne hterm)
    rw [run_bind_ok hdetect, run_bind_ok (show selectedFence (some fence) s₁ = (.ok fence, s₁) from rfl),
      run_bind_error he]
    exact ⟨e, rfl⟩

/-- A call under a fence of the past raises. -/
theorem presents_error {fence : FenceToken} (hne : fence ≠ s.fence) (hterm : fence.term ≤ s.term)
    {call : ClusterCall V} (hcall : call.Presents fence) :
    ∃ e, (ClusterCall.exec c call s).1 = .error e := by
  have hdiscard : ∀ {β : Type} {m : ClusterM V β}, (∃ e, (m s).1 = .error e) →
      ∃ e, (m.discard s).1 = .error e := by
    rintro β m ⟨e, he⟩
    have hm : m s = (.error e, (m s).2) := Prod.ext he rfl
    exact ⟨e, by rw [Prog.discard, run_bind_error hm]⟩
  cases call with
  | assertFence f =>
    obtain rfl : f = fence := hcall
    obtain ⟨e, he⟩ := assertFence_error hne
    exact hdiscard ⟨e, by rw [he]⟩
  | put args leaseToken consistency f =>
    obtain rfl : f = some fence := hcall
    refine hdiscard ?_
    unfold put
    rcases hkey : validateKey args.key s with ⟨e | ⟨⟩, s₁⟩
    · exact ⟨e, by rw [run_bind_error hkey]⟩
    · obtain rfl : s₁ = s := by
        have := congrArg Prod.snd hkey
        unfold validateKey at this
        rw [run_ite] at this
        split_ifs at this <;> exact this.symm
      rcases htags : normalizeTags args.tags s₁ with ⟨e | tags, s₂⟩
      · exact ⟨e, by rw [run_bind_ok hkey, run_bind_error htags]⟩
      · obtain rfl : s₂ = s₁ := by
          have := congrArg Prod.snd htags
          unfold normalizeTags at this
          rw [run_ite, run_ite] at this
          split_ifs at this <;> exact this.symm
        rw [run_bind_ok hkey, run_bind_ok htags]
        exact fenceCheck_error hne hterm _
  | delete key consistency f =>
    obtain rfl : f = some fence := hcall
    refine hdiscard ?_
    unfold delete
    rcases hkey : validateKey key s with ⟨e | ⟨⟩, s₁⟩
    · exact ⟨e, by rw [run_bind_error hkey]⟩
    · obtain rfl : s₁ = s := by
        have := congrArg Prod.snd hkey
        unfold validateKey at this
        rw [run_ite] at this
        split_ifs at this <;> exact this.symm
      rw [run_bind_ok hkey]
      exact fenceCheck_error hne hterm _
  | _ => exact hcall.elim

/-! ## Leases -/

/-- No lease is from a later term. -/
def Tenured (s : Cluster V) : Prop :=
  ∀ key lease, s.leases.get? key = some lease → lease.fence.term ≤ s.term

theorem Leads.tenured (h : Leads c s s') (hs : Tenured s) : Tenured s' := by
  intro key lease hl
  rcases h.leases key lease hl with ⟨old, hold, _, hfence⟩ | ⟨m, _, _, _, hterm⟩
  · rw [hfence]
    exact (hs key old hold).trans h.term
  · exact hterm

theorem Reachable.tenured (h : Reachable c s) : Tenured s := by
  induction h with
  | create h =>
    obtain ⟨ring, leader, rfl⟩ := create_eq_ok h
    intro key lease hl
    simp [startState] at hl
  | call op _ ih => exact (leads_exec op _).tenured ih

/-- An accepted lease is the current one of its key and of the current term. -/
theorem validateLease_ok {key : Key} {token : String}
    (h : validateLease c key token s = (.ok (), s')) : ∃ lease, s.leases.get? key = some lease ∧
      lease.fence = s.fence ∧ lease.token = token ∧ Aside s s' := by
  have hside : Aside s s' := (aside_checkLease key (some token)).run h
  unfold validateLease at h
  rw [run_bind_ok (run_get s), run_bind_ok (show readClock c s = (.ok (c.clock s.ticks),
    s.atTick (s.ticks + 1)) from rfl)] at h
  cases hl : (s.leases.get? key).filter fun lease => c.clock s.ticks < lease.untilTime with
  | none =>
    rw [hl] at h
    simp [run_bind] at h
  | some lease =>
    rw [hl] at h
    dsimp only at h
    rw [bind_eq_ok] at h
    obtain ⟨⟨⟩, s₁, hfence, h⟩ := h
    obtain ⟨hcurrent, rfl⟩ := assertFence_eq_ok.mp hfence
    rw [bind_eq_ok] at h
    obtain ⟨b, s₂, hsame, h⟩ := h
    have hb : b = true := by
      cases b with
      | false => simp at h
      | true => rfl
    refine ⟨lease, (Option.filter_eq_some_iff.mp hl).1, hcurrent, ?_, hside⟩
    unfold compareDigest at hsame
    rw [run_ite] at hsame
    split_ifs at hsame
    · simpa [hb] using congrArg Prod.fst hsame
    · cases hsame

/-- A lease that was issued before a state and is accepted later is accepted in its term. -/
theorem Leads.same_term (htoken : Function.Injective c.tokenUrlsafe) (hs : Tenured s)
    (h : Leads c s s') {n : ℕ} (hn : n < s.draws) {key : Key} {lease : ClusterLease}
    (hl : s'.leases.get? key = some lease) (hfence : lease.fence = s'.fence)
    (heq : lease.token = c.tokenUrlsafe n) : s'.term = s.term := by
  rcases h.leases key lease hl with ⟨old, hold, _, hfence'⟩ | ⟨m, hm, _, htok, _⟩
  · have hterm := hs key old hold
    rw [← hfence', hfence] at hterm
    exact le_antisymm hterm h.term
  · have : m = n := htoken (htok.symm.trans heq)
    omega

theorem put_lease_term (htoken : Function.Injective c.tokenUrlsafe) (hs : Tenured s)
    (h : Leads c s s') {n : ℕ} (hn : n < s.draws) {a : PutArgs V}
    {consistency : Option ConsistencyProfile} {fence : Option FenceToken} {r : CacheResult V}
    (hput : put c a (some (c.tokenUrlsafe n)) consistency fence s' = (.ok r, s'')) :
    s''.term = s.term := by
  unfold put at hput
  rw [bind_eq_ok] at hput
  obtain ⟨⟨⟩, s₁, hkey, hput⟩ := hput
  rw [bind_eq_ok] at hput
  obtain ⟨tags, s₂, htags, hput⟩ := hput
  rw [bind_eq_ok] at hput
  obtain ⟨ids, s₃, hdetect, hput⟩ := hput
  rw [bind_eq_ok] at hput
  obtain ⟨f, s₄, hselect, hput⟩ := hput
  rw [bind_eq_ok] at hput
  obtain ⟨⟨⟩, s₅, hfence, hput⟩ := hput
  rw [bind_eq_ok] at hput
  obtain ⟨⟨⟩, s₆, hlease, hput⟩ := hput
  have hlead : Leads c s s₅ :=
    ((((h.trans ((leads_aside (aside_validateKey _)).run hkey)).trans
      ((leads_aside (aside_normalizeTags _)).run htags)).trans (leads_detectFailures.run hdetect)).trans
      ((leads_aside (aside_selectedFence _)).run hselect)).trans
      ((leads_aside (aside_assertFence _)).run hfence)
  obtain ⟨lease, hl, hcurrent, htok, hside⟩ := validateLease_ok hlease
  have hrest : Aside s₆ s'' := by
    have hprog : Rel Aside (do
        let result ← replicatePut c { a with tags := tags } (profileOf c consistency)
        modify (removeLease a.key)
        modify (recordWrite a.key tags)
        pure result : ClusterM V (CacheResult V)) :=
      Rel.bind (aside_replicatePut _ _) fun _ => Rel.bind (Rel.modify (Aside.removeLease _))
        fun _ => Rel.bind (Rel.modify (Aside.recordWrite _ _)) fun _ => Rel.pure _
    exact hprog.run hput
  rw [hrest.term, hside.term]
  exact hlead.same_term htoken hs hn hl hcurrent htok

theorem renewLease_term (htoken : Function.Injective c.tokenUrlsafe) (hs : Tenured s)
    (h : Leads c s s') {n : ℕ} (hn : n < s.draws) {key : Key}
    (hrenew : renewLease c key (c.tokenUrlsafe n) s' = (.ok true, s'')) : s''.term = s.term := by
  unfold renewLease at hrenew
  rw [bind_eq_ok] at hrenew
  obtain ⟨⟨⟩, s₁, hkey, hrenew⟩ := hrenew
  rw [bind_eq_ok] at hrenew
  obtain ⟨now, s₂, hclock, hrenew⟩ := hrenew
  have hlead : Leads c s s₂ := (h.trans ((leads_aside (aside_validateKey _)).run hkey)).trans
    ((leads_aside aside_readClock).run hclock)
  rw [run_bind_ok (run_get s₂)] at hrenew
  cases hl : (s₂.leases.get? key).filter fun lease => now < lease.untilTime with
  | none =>
    rw [hl] at hrenew
    simp [run_bind] at hrenew
  | some lease =>
    rw [hl] at hrenew
    dsimp only at hrenew
    rw [bind_eq_ok] at hrenew
    obtain ⟨⟨⟩, s₃, hfence, hrenew⟩ := hrenew
    obtain ⟨hcurrent, rfl⟩ := assertFence_eq_ok.mp hfence
    rw [bind_eq_ok] at hrenew
    obtain ⟨b, s₄, hsame, hrenew⟩ := hrenew
    obtain rfl : s₄ = s₃ := by
      have := compareDigest_snd lease.token (c.tokenUrlsafe n) s₃
      rw [hsame] at this
      exact this
    cases b with
    | false => simp at hrenew
    | true =>
      rw [← (Prod.mk.inj hrenew).2]
      change s₄.term = s.term
      refine hlead.same_term htoken hs hn (Option.filter_eq_some_iff.mp hl).1 hcurrent ?_
      unfold compareDigest at hsame
      rw [run_ite] at hsame
      split_ifs at hsame
      · simpa using congrArg Prod.fst hsame
      · cases hsame

/-! ## The fencing contract -/

/-- What fencing promises from a state on. -/
structure Fenced (c : ClusterConfig V) (s : Cluster V) : Prop where
  /-- the term never decreases -/
  term : ∀ calls, s.term ≤ (runs c s calls).term
  /-- a term has one leader -/
  leader : ∀ calls, (runs c s calls).term = s.term → (runs c s calls).leaderId = s.leaderId
  /-- a fence of no later term that a call was refused under is refused forever after -/
  refused : ∀ fence call s' e, call.Presents fence → ClusterCall.exec c call s = (.error e, s') →
    e.kind = .fenceError → fence ≠ s'.fence → fence.term ≤ s'.term → ∀ calls,
      ∀ call' : ClusterCall V, call'.Presents fence →
        ∃ e', (ClusterCall.exec c call' (runs c s' calls)).1 = .error e'
  /-- a token drawn so far is accepted by a write in this term only -/
  put_lease : ∀ calls n a consistency fence r s', n < s.draws →
    put c a (some (c.tokenUrlsafe n)) consistency fence (runs c s calls) = (.ok r, s') →
      s'.term = s.term
  /-- a token drawn so far is renewed in this term only -/
  renew_lease : ∀ calls n key s', n < s.draws →
    renewLease c key (c.tokenUrlsafe n) (runs c s calls) = (.ok true, s') → s'.term = s.term
  /-- a leader that stays a healthy ring member through a call is not replaced by it -/
  stays : ∀ call : ClusterCall V, (∀ id, call = .removeNode id → id ≠ s.leaderId) →
    Stands s s.leaderId → Stands (ClusterCall.run c call s) s.leaderId →
    Healthy c (ClusterCall.run c call s) s.leaderId (c.clock (ClusterCall.run c call s).ticks) →
      (ClusterCall.run c call s).fence = s.fence

/-- **Fencing.**  In every reachable state terms only grow, have one leader each, and fences
and leases of the past are refused; and every election that leaves a healthy ring member
leaves a leader among those that it found healthy. -/
theorem fencing (htoken : Function.Injective c.tokenUrlsafe) (hs : Reachable c s) :
    Fenced c s ∧ ∀ t : Cluster V, ∃ t', electLeader c t = (.ok (), t') ∧ t'.ring = t.ring ∧
      t'.node = t.node ∧
      ((∃ id ∈ t'.ring.nodeIds, Healthy c t' id (c.clock t'.ticks)) → t'.leaderId ∈ t'.ring.nodeIds ∧
        ∃ m, t.ticks ≤ m ∧ m < t'.ticks ∧ Healthy c t' t'.leaderId (c.clock m)) := by
  constructor
  · exact {
      term := fun calls => (leads_runs s calls).term
      leader := fun calls => (leads_runs s calls).leader
      refused := fun fence call s' e _ _ _ hne hterm calls call' hcall' =>
        presents_error ((leads_runs s' calls).fence_ne hne hterm)
          (hterm.trans (leads_runs s' calls).term) hcall'
      put_lease := fun calls n _ _ _ _ _ hn hput =>
        put_lease_term htoken hs.tenured (leads_runs s calls) hn hput
      renew_lease := fun calls n _ _ hn hrenew =>
        renewLease_term htoken hs.tenured (leads_runs s calls) hn hrenew
      stays := fun call hcall h h' htime => leader_stays call hcall h h' htime }
  · intro t
    obtain ⟨t', hrun, _, hring, hnode, _, hleader⟩ := electLeader_leader (c := c) t
    exact ⟨t', hrun, hring, hnode, hleader⟩

/-- A clock that goes on while the first election after the start asks for the nodes' health. -/
def jumpingClock (n : ℕ) : ℚ := if n = 0 then 0 else if n = 1 then 5 else if n = 2 then 10 else 11

theorem jumpingClock_mono : Monotone jumpingClock := by
  refine monotone_nat_of_le_succ fun n => ?_
  unfold jumpingClock
  split_ifs <;> norm_num <;> omega

def jumpingCluster : ClusterConfig String :=
  smallCluster jumpingClock jumpingClock_mono (tableWire [] rekeyed_nil length_nil_le) fun _ _ => none

def twoNodes : List (NodeSpec String) :=
  [⟨"a", Engine.init, .active, 1⟩, ⟨"b", Engine.init, .active, 1⟩]

instance (c : ClusterConfig V) (s : Cluster V) (id : NodeId) (now : ℚ) :
    Decidable (Healthy c s id now) := by
  unfold Healthy
  infer_instance

/-- A fence of the next term is refused before its election and accepted after it; and an
election finds its leader healthy whose heartbeat is too old when it ends. -/
theorem future_fence_accepted : ∃ s, create jumpingCluster twoNodes = .ok s ∧
    (ClusterCall.exec jumpingCluster (.assertFence ⟨2, "b"⟩) s).1 = .error ⟨.fenceError,
      "stale leadership fence; current term is 1 led by a"⟩ ∧
    (ClusterCall.exec jumpingCluster (.assertFence ⟨2, "b"⟩)
      (runs jumpingCluster s [.markNodeDown "a"])).1 = .ok () ∧
    (runs jumpingCluster s [.heartbeat "b" none]).leaderId = "a" ∧
    "b" ∈ (runs jumpingCluster s [.heartbeat "b" none]).ring.nodeIds ∧
    Healthy jumpingCluster (runs jumpingCluster s [.heartbeat "b" none]) "b"
      (jumpingClock (runs jumpingCluster s [.heartbeat "b" none]).ticks) ∧
    ¬Healthy jumpingCluster (runs jumpingCluster s [.heartbeat "b" none]) "a"
      (jumpingClock (runs jumpingCluster s [.heartbeat "b" none]).ticks) := by
  refine ⟨_, rfl, rfl, ?_, ?_, ?_, ?_, ?_⟩
  all_goals decide +kernel

def stillCluster : ClusterConfig String :=
  smallCluster (fun _ => 0) stopped_mono (tableWire [] rekeyed_nil length_nil_le) fun _ _ => none

/-- A lease taken before the leader went down. -/
theorem fencing_two_nodes : ∃ s, create stillCluster twoNodes = .ok s ∧
    (runs stillCluster s [.acquireLease "k" false]).draws = 1 ∧
    (runs stillCluster s [.acquireLease "k" false, .markNodeDown "a"]).term = 2 ∧
    Fenced stillCluster (runs stillCluster s [.acquireLease "k" false]) := by
  have htoken : Function.Injective stillCluster.tokenUrlsafe := by
    intro m n h
    have hlen := congrArg String.length h
    simpa [stillCluster, smallCluster] using hlen
  have hcreate : ∃ s, create stillCluster twoNodes = .ok s := ⟨_, rfl⟩
  obtain ⟨s, hs⟩ := hcreate
  refine ⟨s, hs, ?_, ?_, (fencing htoken ((Reachable.create hs).runs _)).1⟩
  all_goals
    obtain rfl := Except.ok.inj hs
    decide +kernel

end Cluster
end MegaCache
