import MegaCache.Cluster.Fencing

/-!
# The accounts of the cluster's leases

`_lease_bytes` is kept up by hand: `acquire_lease` adds what a lease takes and
`_remove_lease_locked` takes it off.  It never falls below what the leases of the table
take, and the limits hold.  It is exact as long as `acquire_lease` does not write over a
lease, which it does where a rolled back delete left one of an earlier fence behind.
-/

namespace MegaCache
namespace Cluster

variable {V α : Type} {c : ClusterConfig V} {s s' : Cluster V}

open Prog

theorem heldLeaseBytes_nonneg (s : Cluster V) : 0 ≤ heldLeaseBytes s :=
  OrderedDict.sumBy_nonneg _ fun _ => Int.natCast_nonneg _

/-- Leases that only went away take no more bytes. -/
theorem heldLeaseBytes_le (h : ∀ key lease, s'.leases.get? key = some lease →
    s.leases.get? key = some lease) : heldLeaseBytes s' ≤ heldLeaseBytes s :=
  OrderedDict.sumBy_le_of_get? h fun _ => Int.natCast_nonneg _

/-- The table with one lease more, or another one for its key. -/
theorem heldLeaseBytes_set (key : Key) (lease : ClusterLease) (hleases :
    s'.leases = s.leases.set key lease) : heldLeaseBytes s' =
      (s.leases.erase key).sumBy (fun p => (clusterLeaseBytes p.1 p.2.token : ℤ)) +
        clusterLeaseBytes key lease.token := by
  rw [heldLeaseBytes, hleases, OrderedDict.sumBy_set]

/-- A lease renewed in place takes as much as before. -/
theorem heldLeaseBytes_renewed {key : Key} {lease : ClusterLease} (now : ℚ)
    (h : s.leases.get? key = some lease) : heldLeaseBytes
      { s with leases := s.leases.set key { lease with untilTime := now } } = heldLeaseBytes s := by
  have herase := OrderedDict.sumBy_erase h
    fun p : Key × ClusterLease => (clusterLeaseBytes p.1 p.2.token : ℤ)
  rw [heldLeaseBytes_set (s := s) key { lease with untilTime := now } rfl, herase, heldLeaseBytes]
  dsimp only
  omega

/-! ## The limits -/

/-- The table of leases is within its limits, and what it takes is counted. -/
structure WithinLimits (c : ClusterConfig V) (s : Cluster V) : Prop where
  size : s.leases.size ≤ c.maxLeases
  held : heldLeaseBytes s ≤ s.leaseBytes
  limit : s.leaseBytes ≤ c.maxLeaseMemoryBytes

theorem WithinLimits.of_empty (hleases : s.leases = .empty) (hbytes : s.leaseBytes = 0) :
    WithinLimits c s := by
  have hheld : heldLeaseBytes s = 0 := by
    rw [heldLeaseBytes, hleases]
    rfl
  refine ⟨?_, by omega, by omega⟩
  rw [hleases]
  exact Nat.zero_le _

theorem WithinLimits.of_same (hs : WithinLimits c s) (hleases : s'.leases = s.leases)
    (hbytes : s'.leaseBytes = s.leaseBytes) : WithinLimits c s' := by
  refine ⟨?_, ?_, ?_⟩
  · rw [hleases]
    exact hs.size
  · rw [heldLeaseBytes, hleases, hbytes]
    exact hs.held
  · rw [hbytes]
    exact hs.limit

theorem Calm.withinLimits (h : Calm s s') (hs : WithinLimits c s) : WithinLimits c s' := by
  rcases h.account with hbytes | ⟨hleases, hbytes⟩
  · have hheld := heldLeaseBytes_le h.leases
    have hsize := OrderedDict.size_le_of_get? h.leases
    have := hs.size
    have := hs.held
    have := hs.limit
    exact ⟨by omega, by omega, by omega⟩
  · exact .of_empty hleases hbytes

theorem withinLimits_electLeader : Rel (Preserves (WithinLimits c)) (electLeader c) := by
  intro s hs
  obtain ⟨n, _, ⟨hrun, _⟩ | ⟨candidates, hrun, _⟩⟩ := electLeader_cases (c := c) s
  · rw [hrun]
    exact hs.of_same rfl rfl
  · rw [hrun]
    exact .of_empty rfl rfl

theorem withinLimits_detectFailures : Rel (Preserves (WithinLimits c)) (detectFailures c) :=
  Rel.bind (fun s hs => (aside_readClock s).calm.withinLimits hs) fun _ => Rel.bind Rel.get fun _ =>
    Rel.ite (fun _ => Rel.pure _) fun _ =>
      Rel.bind (Rel.modify fun s hs => (calm_markDown _ s).withinLimits hs) fun _ =>
        Rel.bind withinLimits_electLeader fun _ => Rel.pure _

theorem withinLimits_manages : Manages c (Preserves (WithinLimits c)) where
  refl := fun _ h => h
  trans := fun h h' hs => h' (h hs)
  aside := fun h => h.calm.withinLimits
  detect := withinLimits_detectFailures
  relet := fun _ hs => hs.of_same rfl rfl
  renew := by
    intro key lease now s hlease hs
    have hsize := OrderedDict.size_erase hlease
    refine ⟨?_, ?_, hs.limit⟩
    · rw [OrderedDict.size_set, hsize]
      exact hs.size
    · rw [heldLeaseBytes_renewed now hlease]
      exact hs.held
  calm := Calm.withinLimits
  elect := withinLimits_electLeader
  members := fun _ _ _ hs => hs.of_same rfl rfl

theorem heldLeaseBytes_issueLease (key : Key) (now : ℚ) :
    heldLeaseBytes (issueLease c key (c.tokenUrlsafe s.draws) now { s with draws := s.draws + 1 }) =
      (s.leases.erase key).sumBy (fun p => (clusterLeaseBytes p.1 p.2.token : ℤ)) +
        clusterLeaseBytes key (c.tokenUrlsafe s.draws) :=
  heldLeaseBytes_set key ⟨c.tokenUrlsafe s.draws, now + c.leaseSeconds, s.fence⟩ rfl

/-- A lease is added when there is room for it, whether one goes away for it or not. -/
theorem withinLimits_acquireLease (key : Key) (force : Bool) :
    Rel (Preserves (WithinLimits c)) (acquireLease c key force) := by
  apply withinLimits_manages.acquireLease force
  · intro s hs
    exact hs.of_same rfl rfl
  · rintro now s ⟨_, hroom, hbytes⟩ hs
    have hheld := heldLeaseBytes_issueLease (c := c) (s := s) key now
    have herase : (s.leases.erase key).sumBy (fun p => (clusterLeaseBytes p.1 p.2.token : ℤ)) ≤
        heldLeaseBytes s := by
      apply OrderedDict.sumBy_le_of_get? _ fun _ => Int.natCast_nonneg _
      intro k lease hl
      rw [OrderedDict.get?_erase] at hl
      split_ifs at hl
      exact hl
    have hsize := s.leases.size_erase_le key
    have := hs.held
    refine ⟨?_, ?_, hbytes⟩
    · show (s.leases.set key _).size ≤ _
      rw [OrderedDict.size_set]
      omega
    · rw [hheld]
      show (s.leases.erase key).sumBy (fun p => (clusterLeaseBytes p.1 p.2.token : ℤ)) +
        (clusterLeaseBytes key (c.tokenUrlsafe s.draws) : ℤ) ≤
          s.leaseBytes + (clusterLeaseBytes key (c.tokenUrlsafe s.draws) : ℤ)
      omega

theorem Reachable.withinLimits (h : Reachable c s) : WithinLimits c s := by
  induction h with
  | create h =>
    obtain ⟨ring, leader, rfl⟩ := create_eq_ok h
    exact .of_empty rfl rfl
  | call op _ ih =>
    exact withinLimits_manages.exec op (fun key force _ => withinLimits_acquireLease key force) _ ih

/-! ## Exact accounts -/

/-- `_lease_bytes` is what the leases of the table take. -/
def Exact (s : Cluster V) : Prop := s.leaseBytes = heldLeaseBytes s

theorem Exact.of_empty (hleases : s.leases = .empty) (hbytes : s.leaseBytes = 0) : Exact s := by
  rw [Exact, heldLeaseBytes, hleases, hbytes]
  rfl

theorem Exact.of_same (hs : Exact s) (hleases : s'.leases = s.leases)
    (hbytes : s'.leaseBytes = s.leaseBytes) : Exact s' := by
  rw [Exact, heldLeaseBytes, hleases, hbytes]
  exact hs

theorem Calm.exact (h : Calm s s') (hs : Exact s) : Exact s' := by
  rcases h.account with hbytes | ⟨hleases, hbytes⟩
  · unfold Exact at hs ⊢
    omega
  · exact .of_empty hleases hbytes

theorem exact_electLeader : Rel (Preserves Exact) (electLeader c) := by
  intro s hs
  obtain ⟨n, _, ⟨hrun, _⟩ | ⟨candidates, hrun, _⟩⟩ := electLeader_cases (c := c) s
  · rw [hrun]
    exact hs.of_same rfl rfl
  · rw [hrun]
    exact .of_empty rfl rfl

theorem exact_manages : Manages c (Preserves Exact) where
  refl := fun _ h => h
  trans := fun h h' hs => h' (h hs)
  aside := fun h => h.calm.exact
  detect := Rel.bind (fun s hs => (aside_readClock s).calm.exact hs) fun _ => Rel.bind Rel.get fun _ =>
    Rel.ite (fun _ => Rel.pure _) fun _ =>
      Rel.bind (Rel.modify fun s hs => (calm_markDown _ s).exact hs) fun _ =>
        Rel.bind exact_electLeader fun _ => Rel.pure _
  relet := fun _ hs => hs.of_same rfl rfl
  renew := by
    intro key lease now s hlease hs
    rw [Exact, heldLeaseBytes_renewed now hlease]
    exact hs
  calm := Calm.exact
  elect := exact_electLeader
  members := fun _ _ _ hs => hs.of_same rfl rfl

/-! ### Leases that are written over -/

/-- The leases of the key that have not run out at the `n`-th clock reading are of the
current fence. -/
def Current (c : ClusterConfig V) (key : Key) (n : ℕ) (s : Cluster V) : Prop :=
  ∀ lease, s.leases.get? key = some lease → c.clock n < lease.untilTime → lease.fence = s.fence

theorem Calm.current {key : Key} {n : ℕ} (h : Calm s s') (hs : Current c key n s) :
    Current c key n s' := by
  intro lease hl hnow
  have hfence : s'.fence = s.fence := by
    unfold fence
    rw [h.term, h.leaderId]
  rw [hfence]
  exact hs lease (h.leases key lease hl) hnow

/-- An election leaves no lease of another fence. -/
theorem current_detectFailures (key : Key) (n : ℕ) :
    Rel (Preserves (Current c key n)) (detectFailures c) := by
  have helect : Rel (Preserves (Current c key n)) (electLeader c) := by
    intro s hs
    obtain ⟨m, _, ⟨hrun, _⟩ | ⟨candidates, hrun, _⟩⟩ := electLeader_cases (c := c) s
    · rw [hrun]
      exact hs
    · rw [hrun]
      intro lease hl
      cases hl
  exact Rel.bind (fun s hs => (aside_readClock s).calm.current hs) fun _ => Rel.bind Rel.get fun _ =>
    Rel.ite (fun _ => Rel.pure _) fun _ =>
      Rel.bind (Rel.modify fun s hs => (calm_markDown _ s).current hs) fun _ =>
        Rel.bind helect fun _ => Rel.pure _

/-- Two invariants of reads are one. -/
theorem CarriesReads.and {I J : Cluster V → Prop} (h : CarriesReads c (Preserves I))
    (h' : CarriesReads c (Preserves J)) : CarriesReads c (Preserves fun s => I s ∧ J s) where
  refl := fun _ hs => hs
  trans := fun hr hr' hs => hr' (hr hs)
  aside := fun ha hs => ⟨h.aside ha hs.1, h'.aside ha hs.2⟩
  detect := fun s hs => ⟨h.detect s hs.1, h'.detect s hs.2⟩

theorem current_reads (key : Key) (n : ℕ) : CarriesReads c (Preserves (Current c key n)) where
  refl := fun _ hs => hs
  trans := fun h h' hs => h' (h hs)
  aside := fun h => h.calm.current
  detect := current_detectFailures key n

/-- No lease of the key had run out at the `n`-th clock reading. -/
def Unexpired (c : ClusterConfig V) (key : Key) (n : ℕ) (s : Cluster V) : Prop :=
  ∀ lease, s.leases.get? key = some lease → c.clock n < lease.untilTime

theorem Calm.unexpired {key : Key} {n : ℕ} (h : Calm s s') (hs : Unexpired c key n s) :
    Unexpired c key n s' :=
  fun lease hl => hs lease (h.leases key lease hl)

theorem unexpired_reads (key : Key) (n : ℕ) : CarriesReads c (Preserves (Unexpired c key n)) where
  refl := fun _ hs => hs
  trans := fun h h' hs => h' (h hs)
  aside := fun h => h.calm.unexpired
  detect := by
    have helect : Rel (Preserves (Unexpired c key n)) (electLeader c) := by
      intro s hs
      obtain ⟨m, _, ⟨hrun, _⟩ | ⟨candidates, hrun, _⟩⟩ := electLeader_cases (c := c) s
      · rw [hrun]
        exact hs
      · rw [hrun]
        intro lease hl
        cases hl
    exact Rel.bind (fun s hs => (aside_readClock s).calm.unexpired hs) fun _ => Rel.bind Rel.get
      fun _ => Rel.ite (fun _ => Rel.pure _) fun _ =>
        Rel.bind (Rel.modify fun s hs => (calm_markDown _ s).unexpired hs) fun _ =>
          Rel.bind helect fun _ => Rel.pure _

/-- A purge leaves no lease that has run out. -/
theorem unexpired_purge (key : Key) (n : ℕ) (s : Cluster V) :
    Unexpired c key n (purgeExpiredLeases (c.clock n) s) := by
  intro lease hl
  have hmem : (key, lease) ∈ s.leases.toList :=
    OrderedDict.mem_toList.mpr ((Aside.purgeExpiredLeases (c.clock n) s).leases key lease hl)
  by_contra hexpired
  rw [not_lt] at hexpired
  have hstep : ∀ (s : Cluster V) (p : Key × ClusterLease),
      Aside s (if p.2.untilTime ≤ c.clock n then removeLease p.1 s else s) := by
    intro s p
    split_ifs
    · exact .removeLease _ s
    · exact .refl s
  -- once the loop comes to the lease it is gone, and leases only go away
  have hgone : ∀ (l : List (Key × ClusterLease)) (s : Cluster V), (key, lease) ∈ l →
      (l.foldl (fun s p => if p.2.untilTime ≤ c.clock n then removeLease p.1 s else s) s).leases.get?
        key = none := by
    intro l
    induction l with
    | nil =>
      intro s hp
      cases hp
    | cons p l ih =>
      intro s hp
      rw [List.foldl_cons]
      rcases List.mem_cons.mp hp with rfl | hp
      · rw [if_pos hexpired]
        have hnone : (removeLease key s).leases.get? key = none := by
          unfold removeLease
          split
          · assumption
          · simp
        cases hget : (l.foldl _ (removeLease key s)).leases.get? key with
        | none => rfl
        | some other =>
          have := (Aside.foldl hstep l (removeLease key s)).leases key other hget
          rw [hnone] at this
          cases this
      · exact ih _ hp
  have := hgone s.leases.toList s hmem
  unfold purgeExpiredLeases at hl
  rw [this] at hl
  cases hl

/-- Exact accounts of a table in which every lease of the key can be waited for. -/
def Orderly (c : ClusterConfig V) (key : Key) (n : ℕ) (s : Cluster V) : Prop :=
  Exact s ∧ Current c key n s ∧ Unexpired c key n s

theorem orderly_reads (key : Key) (n : ℕ) : CarriesReads c (Preserves (Orderly c key n)) :=
  exact_manages.toCarriesReads.and ((current_reads key n).and (unexpired_reads key n))

/-- Where no lease of the key is in the table, a new one is counted as it is added. -/
theorem orderly_grantLease (key : Key) (n : ℕ) (result : CacheResult V) :
    Rel (Preserves (Orderly c key n)) (grantLease c key (c.clock n) result) := by
  apply (orderly_reads key n).grantLease result
  · rintro s ⟨hexact, hcurrent, hunexpired⟩
    exact ⟨hexact.of_same rfl rfl, hcurrent, hunexpired⟩
  · rintro s ⟨hfree, _, _⟩ ⟨hexact, hcurrent, hunexpired⟩
    have hnone : s.leases.get? key = none := by
      cases hl : s.leases.get? key with
      | none => rfl
      | some lease =>
        have hnow := hunexpired lease hl
        exact absurd (hcurrent lease hl hnow) (hfree lease hl hnow)
    have hheld := heldLeaseBytes_issueLease (c := c) (s := s) key (c.clock n)
    have hnew : ∀ lease, (issueLease c key (c.tokenUrlsafe s.draws) (c.clock n)
        { s with draws := s.draws + 1 }).leases.get? key = some lease →
          lease = ⟨c.tokenUrlsafe s.draws, c.clock n + c.leaseSeconds, s.fence⟩ := by
      intro lease hl
      simp only [issueLease, bump, OrderedDict.get?_set_self] at hl
      exact (Option.some.inj hl).symm
    refine ⟨?_, fun lease hl _ => ?_, fun lease hl => ?_⟩
    · rw [Exact, hheld, OrderedDict.erase_eq_self hnone]
      show s.leaseBytes + (clusterLeaseBytes key (c.tokenUrlsafe s.draws) : ℤ) =
        heldLeaseBytes s + (clusterLeaseBytes key (c.tokenUrlsafe s.draws) : ℤ)
      rw [hexact]
    · rw [hnew lease hl]
      rfl
    · rw [hnew lease hl]
      have hpos : (0 : ℚ) < c.leaseSeconds := by
        exact_mod_cast c.positive.2.2.2.1
      show c.clock n < c.clock n + c.leaseSeconds
      linarith

theorem exact_acquireLease {key : Key} (force : Bool) (hs : Exact s) (hc : Current c key s.ticks s) :
    Exact (acquireLease c key force s).2 := by
  have hrest : Rel (Preserves (Orderly c key s.ticks)) (do
      let result ← getEntry c key none
      if result.state = .fresh ∧ ¬force then pure result
      else grantLease c key (c.clock s.ticks) result : ClusterM V (CacheResult V)) :=
    Rel.bind ((orderly_reads key s.ticks).getEntry key none) fun result =>
      Rel.ite (fun _ => Rel.pure _) fun _ => orderly_grantLease key s.ticks result
  have hkey : ∃ r, (validateKey key : ClusterM V Unit) s = (r, s) := by
    unfold validateKey
    rw [run_ite]
    split_ifs
    · exact ⟨_, rfl⟩
    · exact ⟨_, rfl⟩
  obtain ⟨e | ⟨⟩, hkey⟩ := hkey
  · rw [acquireLease, run_bind_error hkey]
    exact hs
  · rw [acquireLease, run_bind_ok hkey, run_bind_ok (show readClock c s =
      (.ok (c.clock s.ticks), s.atTick (s.ticks + 1)) from rfl)]
    rcases hdetect : detectFailures c (s.atTick (s.ticks + 1)) with ⟨e | ids, s₁⟩
    · rw [run_bind_error hdetect]
      exact exact_manages.detect.run hdetect (hs.of_same rfl rfl)
    · have hexact := exact_manages.detect.run hdetect (hs.of_same rfl rfl)
      have hcurrent := (current_detectFailures key s.ticks).run hdetect hc
      have hpurge := (Aside.purgeExpiredLeases (c.clock s.ticks) s₁).calm
      rw [run_bind_ok hdetect, run_bind_ok (run_modify _ _)]
      exact (hrest _ ⟨hpurge.exact hexact, hpurge.current hcurrent, unexpired_purge key _ s₁⟩).1

/-! ## The accounts of a run -/

/-- `acquire_lease` would write over a lease: one of the key under another fence than the
current one has not run out. -/
def Stranded (c : ClusterConfig V) (s : Cluster V) (key : Key) : Prop :=
  ∃ lease, s.leases.get? key = some lease ∧ c.clock s.ticks < lease.untilTime ∧ lease.fence ≠ s.fence

/-- The states that the runs of a newly created coordinator reach without an `acquire_lease`
for a key with such a lease. -/
inductive ReachableInOrder (c : ClusterConfig V) : Cluster V → Prop
  | create {nodes : List (NodeSpec V)} {t : Cluster V} (h : create c nodes = .ok t) :
    ReachableInOrder c t
  | call {t : Cluster V} (op : ClusterCall V) (h : ReachableInOrder c t)
      (horder : ∀ key force, op = .acquireLease key force → ¬Stranded c t key) :
    ReachableInOrder c (ClusterCall.run c op t)

theorem ReachableInOrder.exact (h : ReachableInOrder c s) : Exact s := by
  induction h with
  | create h =>
    obtain ⟨ring, leader, rfl⟩ := create_eq_ok h
    exact .of_empty rfl rfl
  | @call t op _ horder ih =>
    by_cases hop : ∃ key force, op = .acquireLease key force
    · obtain ⟨key, force, rfl⟩ := hop
      have hcurrent : Current c key t.ticks t := by
        intro lease hl hnow
        by_contra hfence
        exact horder key force rfl ⟨lease, hl, hnow, hfence⟩
      have hrun : ClusterCall.run c (.acquireLease key force) t = (acquireLease c key force t).2 :=
        run_bind_pure _ _ _
      rw [hrun]
      exact exact_acquireLease force ih hcurrent
    · exact exact_manages.exec op (fun key force heq => absurd ⟨key, force, heq⟩ hop) t ih

/-- **Lease accounts.**  In every reachable state `_lease_bytes` is at least what the leases of
the table take, which is never negative, and the table is within its limits; and it is exactly
that in every state of a run in which `acquire_lease` is not called for a key with an unexpired
lease of another fence. -/
theorem lease_accounts (h : Reachable c s) :
    (0 ≤ heldLeaseBytes s ∧ heldLeaseBytes s ≤ s.leaseBytes ∧
      s.leaseBytes ≤ c.maxLeaseMemoryBytes ∧ s.leases.size ≤ c.maxLeases) ∧
    (ReachableInOrder c s → s.leaseBytes = heldLeaseBytes s) := by
  have hlimits := h.withinLimits
  exact ⟨⟨heldLeaseBytes_nonneg s, hlimits.held, hlimits.limit, hlimits.size⟩, fun h => h.exact⟩

/-- A clock that passes the heartbeat timeout of one node while a delete is under way. -/
def lateClock (n : ℕ) : ℚ := if n < 8 then 0 else if n < 11 then 5 else if n < 14 then 10 else 11

theorem lateClock_mono : Monotone lateClock := by
  refine monotone_nat_of_le_succ fun n => ?_
  unfold lateClock
  split_ifs <;> norm_num <;> omega

def lateCluster : ClusterConfig String :=
  smallCluster lateClock lateClock_mono (tableWire [] rekeyed_nil length_nil_le) fun _ _ => none

/-- The delete finds the leader of the lease's term gone, misses its quorum and puts the lease
back, which the next `acquire_lease` writes over. -/
theorem lease_counted_twice : ∃ s, create lateCluster twoNodes = .ok s ∧
    (let s' := runs lateCluster s [.acquireLease "k" false, .heartbeat "b" none,
      .delete "k" none none, .heartbeat "a" none, .acquireLease "k" false]
    s'.leaseBytes = 197 ∧ heldLeaseBytes s' = 99 ∧ s'.leases.size = 1) := by
  refine ⟨_, rfl, ?_⟩
  decide +kernel

/-- A lease that ends with its term, and one of the next term. -/
theorem lease_accounts_two_terms : ∃ s, create stillCluster twoNodes = .ok s ∧
    (let s' := runs stillCluster s [.acquireLease "k" false, .markNodeDown "a",
      .heartbeat "a" none, .acquireLease "k" false]
    s'.term = 2 ∧ s'.leases.size = 1 ∧ 0 ≤ heldLeaseBytes s' ∧
      s'.leaseBytes = heldLeaseBytes s') := by
  have hcreate : ∃ s, create stillCluster twoNodes = .ok s := ⟨_, rfl⟩
  obtain ⟨s, hs⟩ := hcreate
  have hfirst : ¬Stranded stillCluster s "k" := by
    obtain rfl := Except.ok.inj hs
    unfold Stranded
    decide
  have hsecond : ¬Stranded stillCluster (runs stillCluster s [.acquireLease "k" false,
      .markNodeDown "a", .heartbeat "a" none]) "k" := by
    obtain rfl := Except.ok.inj hs
    unfold Stranded
    decide +kernel
  have horder : ReachableInOrder stillCluster (runs stillCluster s [.acquireLease "k" false,
      .markNodeDown "a", .heartbeat "a" none, .acquireLease "k" false]) := by
    refine .call _ (.call _ (.call _ (.call _ (.create hs) ?_) ?_) ?_) ?_
    · rintro _ _ ⟨⟩
      exact hfirst
    · rintro _ _ ⟨⟩
    · rintro _ _ ⟨⟩
    · rintro _ _ ⟨⟩
      exact hsecond
  have haccounts := lease_accounts ((Reachable.create hs).runs [.acquireLease "k" false,
    .markNodeDown "a", .heartbeat "a" none, .acquireLease "k" false])
  refine ⟨s, hs, ?_, ?_, haccounts.1.1, haccounts.2 horder⟩
  all_goals
    obtain rfl := Except.ok.inj hs
    decide +kernel

end Cluster
end MegaCache
