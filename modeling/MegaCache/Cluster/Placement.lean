import Mathlib.Data.String.Basic
import MegaCache.Lib.FirstSeen
import MegaCache.Cluster.Ring

/-!
# Placement on the ring

`owners` is the first part of one list, the preference of the key: every node of
the ring at the place where the walk from the key's token first meets it.  The
preference on a ring with one node more is the old preference with that node put
in somewhere.
-/

namespace MegaCache

theorem RingPoint.le_total (p q : RingPoint) : p.le q ∨ q.le p := by
  rcases lt_trichotomy p.token q.token with ht | ht | ht
  · exact .inl (.inl ht)
  · rcases lt_trichotomy p.nodeId q.nodeId with hn | hn | hn
    · exact .inl (.inr ⟨ht, .inl hn⟩)
    · rcases Nat.le_total p.virtualNode q.virtualNode with hv | hv
      · exact .inl (.inr ⟨ht, .inr ⟨hn, hv⟩⟩)
      · exact .inr (.inr ⟨ht.symm, .inr ⟨hn.symm, hv⟩⟩)
    · exact .inr (.inr ⟨ht.symm, .inl hn⟩)
  · exact .inr (.inl ht)

theorem RingPoint.token_le {p q : RingPoint} (h : p.le q) : p.token ≤ q.token := by
  rcases h with h | ⟨h, -⟩ <;> omega

theorem RingPoint.le_trans {p q r : RingPoint} (hpq : p.le q) (hqr : q.le r) : p.le r := by
  rcases hpq with h₁ | ⟨h₁, h₂⟩
  · exact .inl (lt_of_lt_of_le h₁ (token_le hqr))
  · rcases hqr with h₃ | ⟨h₃, h₄⟩
    · exact .inl (h₁ ▸ h₃)
    · refine .inr ⟨h₁.trans h₃, ?_⟩
      rcases h₂ with h₂ | ⟨h₂, hv⟩ <;> rcases h₄ with h₄ | ⟨h₄, hw⟩
      · exact .inl (h₂.trans h₄)
      · exact .inl (h₄ ▸ h₂)
      · exact .inl (h₂ ▸ h₄)
      · exact .inr ⟨h₂.trans h₄, hv.trans hw⟩

theorem RingPoint.le_antisymm {p q : RingPoint} (hpq : p.le q) (hqp : q.le p) : p = q := by
  have ht : p.token = q.token := Nat.le_antisymm (token_le hpq) (token_le hqp)
  rcases hpq with h | ⟨-, hpq⟩
  · omega
  rcases hqp with h | ⟨-, hqp⟩
  · omega
  rcases hpq with hn | ⟨hn, hv⟩ <;> rcases hqp with hm | ⟨hm, hw⟩
  · exact absurd hm (lt_asymm hn)
  · exact absurd (hm ▸ hn) (lt_irrefl _)
  · exact absurd (hn ▸ hm) (lt_irrefl _)
  · have hvn : p.virtualNode = q.virtualNode := Nat.le_antisymm hv hw
    cases p
    cases q
    simp_all

instance : Std.Total RingPoint.le := ⟨RingPoint.le_total⟩
instance : IsTrans RingPoint RingPoint.le := ⟨fun _ _ _ => RingPoint.le_trans⟩
instance : Std.Antisymm RingPoint.le := ⟨fun _ _ => RingPoint.le_antisymm⟩

/-- The ids enter the ring as a set. -/
theorem sortedIds_congr {ids ids' : List NodeId} (h : ∀ id, id ∈ ids' ↔ id ∈ ids) :
    sortedIds ids' = sortedIds ids := by
  have hperm : (sortedIds ids').Perm (sortedIds ids) := by
    refine (List.perm_ext_iff_of_nodup (sortedIds_nodup _) (sortedIds_nodup _)).mpr ?_
    intro id
    rw [mem_sortedIds, mem_sortedIds, h]
  exact hperm.eq_of_pairwise' (List.pairwise_insertionSort _ _) (List.pairwise_insertionSort _ _)

theorem ringPoints_sorted (h : RingHash) (nodeIds : List NodeId) (virtualNodes : ℕ) :
    (ringPoints h nodeIds virtualNodes).Pairwise RingPoint.le :=
  List.pairwise_insertionSort _ _

theorem ringPoints_nodup (h : RingHash) {nodeIds : List NodeId} (virtualNodes : ℕ)
    (hnodup : nodeIds.Nodup) : (ringPoints h nodeIds virtualNodes).Nodup := by
  refine (List.perm_insertionSort _ _).nodup_iff.mpr (List.nodup_flatMap.mpr ⟨?_, ?_⟩)
  · intro id _
    refine List.nodup_range.map ?_
    intro v w hvw
    exact congrArg RingPoint.virtualNode hvw
  · refine hnodup.imp ?_
    intro a b hab p hpa hpb
    simp only [List.mem_map] at hpa hpb
    obtain ⟨v, -, rfl⟩ := hpa
    obtain ⟨w, -, hw⟩ := hpb
    exact hab (congrArg RingPoint.nodeId hw).symm

/-- Taking a new node's points out of the larger ring gives the smaller ring. -/
theorem ringPoints_filter (h : RingHash) {ids : List NodeId} {node : NodeId} (virtualNodes : ℕ)
    (hnode : node ∉ ids) :
    (ringPoints h (sortedIds (node :: ids)) virtualNodes).filter (fun p => p.nodeId ≠ node) =
      ringPoints h (sortedIds ids) virtualNodes := by
  refine List.Perm.eq_of_pairwise' ((ringPoints_sorted _ _ _).filter _) (ringPoints_sorted _ _ _) ?_
  refine (List.perm_ext_iff_of_nodup ((ringPoints_nodup _ _ (sortedIds_nodup _)).filter _)
    (ringPoints_nodup _ _ (sortedIds_nodup _))).mpr ?_
  intro p
  simp only [List.mem_filter, mem_ringPoints, mem_sortedIds, List.mem_cons, decide_eq_true_eq]
  constructor
  · rintro ⟨⟨id, hid, v, hv, rfl⟩, hne⟩
    exact ⟨id, hid.resolve_left hne, v, hv, rfl⟩
  · rintro ⟨id, hid, v, hv, rfl⟩
    exact ⟨⟨id, .inr hid, v, hv, rfl⟩, ne_of_mem_of_not_mem hid hnode⟩

namespace ConsistentHashRing

/-- Every node of the ring, at the place where the walk first meets it. -/
def preference (r : ConsistentHashRing) (h : RingHash) (key : Key) : List NodeId :=
  ((FirstSeen.around (fun p => p.token ≤ h.token key) r.points).map RingPoint.nodeId).eraseDups

theorem preference_nodup (r : ConsistentHashRing) (h : RingHash) (key : Key) :
    (r.preference h key).Nodup :=
  FirstSeen.nodup_eraseDups _

/-- The loop extends the owners found so far by the nodes it meets first. -/
theorem collectOwners_eq {wanted : ℕ} (l : List RingPoint) {owners : List NodeId}
    (hlt : owners.length < wanted) :
    collectOwners wanted l owners =
      (owners ++ ((l.map RingPoint.nodeId).filter fun id => id ∉ owners).eraseDups).take wanted := by
  induction l generalizing owners with
  | nil => simp [collectOwners, List.take_of_length_le hlt.le]
  | cons p rest ih =>
    unfold collectOwners
    split_ifs with hp hw
    · rw [ih hlt]
      simp [hp]
    · -- the last owner wanted
      have hlen : (owners ++ [p.nodeId]).length = wanted := by simpa using hw
      simp only [List.map_cons, List.filter_cons, hp, not_false_eq_true, decide_true, if_true,
        List.eraseDups_cons]
      conv_rhs => rw [List.append_cons owners p.nodeId, List.take_left' hlen]
    · rw [ih (by simp only [List.length_append, List.length_singleton]; omega)]
      simp only [List.map_cons, List.filter_cons, hp, not_false_eq_true, decide_true, if_true,
        List.eraseDups_cons, List.filter_filter, List.append_assoc, List.singleton_append]
      congr 4
      apply List.filter_congr
      intro id _
      by_cases hid : id = p.nodeId <;> simp [hid]

variable (h : RingHash) (ids : List NodeId) (virtualNodes version : ℕ)
  (hids : ids ≠ []) (hv : 0 < virtualNodes) (key : Key)

theorem mem_preference {id : NodeId} :
    id ∈ (build h ids virtualNodes version hids hv).preference h key ↔ id ∈ ids := by
  simp only [preference, List.mem_eraseDups, List.mem_map, FirstSeen.mem_around]
  constructor
  · rintro ⟨p, hp, rfl⟩
    exact mem_sortedIds.mp ((build h ids virtualNodes version hids hv).points_mem p hp)
  · intro hid
    exact ⟨_, mem_ringPoints.mpr ⟨id, mem_sortedIds.mpr hid, 0, hv, rfl⟩, rfl⟩

theorem preference_length :
    ((build h ids virtualNodes version hids hv).preference h key).length = ids.toFinset.card := by
  rw [← List.toFinset_card_of_nodup (preference_nodup _ h key)]
  congr 1
  ext id
  rw [List.mem_toFinset, List.mem_toFinset, mem_preference]

theorem build_nodeIds_length :
    (build h ids virtualNodes version hids hv).nodeIds.length = ids.toFinset.card := by
  show (sortedIds ids).length = _
  rw [← List.toFinset_card_of_nodup (sortedIds_nodup ids)]
  congr 1
  ext id
  rw [List.mem_toFinset, List.mem_toFinset, mem_sortedIds]

/-- The walk of `owners` is the one of the preference. -/
theorem points_rotate :
    let r := build h ids virtualNodes version hids hv
    r.points.rotate (bisectRight (r.points.map RingPoint.token) (h.token key)) =
      FirstSeen.around (fun p => p.token ≤ h.token key) r.points := by
  intro r
  have hsorted : r.points.Pairwise fun p q =>
      decide (q.token ≤ h.token key) = true → decide (p.token ≤ h.token key) = true := by
    refine (ringPoints_sorted h (sortedIds ids) virtualNodes).imp ?_
    intro p q hpq hq
    simpa using (RingPoint.token_le hpq).trans (by simpa using hq)
  rw [← FirstSeen.rotate_takeWhile hsorted, bisectRight, List.takeWhile_map, List.length_map]
  rfl

theorem owners_eq_take {n : ℕ} (hn : 0 < n) :
    (build h ids virtualNodes version hids hv).owners h key n =
      ((build h ids virtualNodes version hids hv).preference h key).take n := by
  have hcard := preference_length h ids virtualNodes version hids hv key
  have hpos : 0 < ids.toFinset.card := by
    rw [← hcard, List.length_pos_iff_ne_nil]
    obtain ⟨id, hid⟩ := List.exists_mem_of_ne_nil ids hids
    exact List.ne_nil_of_mem ((mem_preference h ids virtualNodes version hids hv key).mpr hid)
  simp only [owners]
  rw [points_rotate, build_nodeIds_length, collectOwners_eq _ (lt_min hn hpos), ← hcard]
  simp only [List.not_mem_nil, not_false_eq_true, decide_true, List.filter_true, List.nil_append]
  exact List.take_eq_take_min.symm

/-- The preference on a ring with one node more. -/
theorem preference_filter {node : NodeId} (hnode : node ∉ ids) :
    ((build h (node :: ids) virtualNodes version (List.cons_ne_nil _ _) hv).preference h key).filter
        (fun id => id ≠ node) =
      (build h ids virtualNodes version hids hv).preference h key := by
  unfold preference
  rw [← FirstSeen.filter_eraseDups, List.filter_map]
  show (List.map _ (List.filter (fun p : RingPoint => p.nodeId ≠ node) _)).eraseDups = _
  rw [FirstSeen.filter_around]
  show (List.map _ (FirstSeen.around _ (List.filter _ (ringPoints h (sortedIds (node :: ids))
    virtualNodes)))).eraseDups = _
  rw [ringPoints_filter h virtualNodes hnode]
  rfl

/-- Consistent hashing: `n` owners or all nodes, in an order that depends on the set
of ids only; more owners extend the list, and a node that joins takes a place in it
without moving the others. -/
theorem consistent_placement {n : ℕ} (hn : 0 < n) {r : ConsistentHashRing}
    (hr : r = build h ids virtualNodes version hids hv) :
    ((r.owners h key n).length = min n ids.toFinset.card ∧ (r.owners h key n).Nodup ∧
      ∀ id ∈ r.owners h key n, id ∈ ids) ∧
    r.owners h key n <+: r.owners h key (n + 1) ∧
    (∀ ids' version', (∀ id, id ∈ ids' ↔ id ∈ ids) → ∀ hids',
      (build h ids' virtualNodes version' hids' hv).owners h key n = r.owners h key n) ∧
    ∀ node ∉ ids, ∀ version',
      let joined := build h (node :: ids) virtualNodes version' (List.cons_ne_nil _ _) hv
      (joined.owners h key n).filter (fun id => id ≠ node) <+: r.owners h key n ∧
        (r.owners h key n).length ≤ ((joined.owners h key n).filter fun id => id ≠ node).length + 1 := by
  subst hr
  set r := build h ids virtualNodes version hids hv
  have htake : r.owners h key n = (r.preference h key).take n :=
    owners_eq_take h ids virtualNodes version hids hv key hn
  have hlength : (r.owners h key n).length = min n ids.toFinset.card := by
    rw [htake, List.length_take, preference_length]
  refine ⟨⟨hlength, owners_nodup r h key n, ?_⟩, ?_, ?_, ?_⟩
  · intro id hid
    exact mem_sortedIds.mp (owners_subset r h key n hid)
  · rw [htake, owners_eq_take h ids virtualNodes version hids hv key (Nat.succ_pos n)]
    exact List.take_prefix_take_left (Nat.le_succ n)
  · intro ids' version' hsame hids'
    rw [htake, owners_eq_take h ids' virtualNodes version' hids' hv key hn]
    show List.take n (preference ⟨sortedIds ids', _, _, ringPoints h (sortedIds ids') _, _, _, _, _⟩
      h key) = _
    congr 1
    show (List.map _ (FirstSeen.around _ (ringPoints h (sortedIds ids') virtualNodes))).eraseDups = _
    rw [sortedIds_congr hsame]
    rfl
  · intro node hnode version' joined
    have hjoined : joined.owners h key n = (joined.preference h key).take n :=
      owners_eq_take h (node :: ids) virtualNodes version' (List.cons_ne_nil _ _) hv key hn
    have hfilter : (joined.preference h key).filter (fun id => id ≠ node) = r.preference h key :=
      preference_filter h ids virtualNodes version' hids hv key hnode
    refine ⟨?_, ?_⟩
    · rw [htake, hjoined, ← hfilter]
      exact FirstSeen.filter_take_prefix _ _ _
    · have hnodup := owners_nodup joined h key n
      have hlen : (joined.owners h key n).length = min n (node :: ids).toFinset.card := by
        rw [hjoined, List.length_take, preference_length]
      have hcard : (node :: ids).toFinset.card = ids.toFinset.card + 1 := by
        simp [hnode]
      have hone := FirstSeen.length_le_filter_ne hnodup node
      omega

/-- A hash under which every point of the ring and the key share one token. -/
def oneToken : RingHash := ⟨fun _ => 7, fun _ _ _ => ""⟩

theorem consistent_placement_oneToken :
    let r := build oneToken ["c", "a", "c"] 2 1 (by decide) (by decide)
    let joined := build oneToken ["b", "c", "a", "c"] 2 1 (by decide) (by decide)
    r.owners oneToken "k" 2 = ["a", "c"] ∧ joined.owners oneToken "k" 2 = ["a", "b"] ∧
      (joined.owners oneToken "k" 2).filter (fun id => id ≠ "b") <+: r.owners oneToken "k" 2 := by
  intro r joined
  refine ⟨by decide, by decide, ?_⟩
  exact ((consistent_placement oneToken ["c", "a", "c"] 2 1 (by decide) (by decide) "k"
    (by decide) rfl).2.2.2 "b" (by decide) 1).1

end ConsistentHashRing
end MegaCache
