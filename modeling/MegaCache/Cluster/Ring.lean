import Mathlib.Data.List.Rotate
import MegaCache.Engine.Types

/-!
# The consistent hash ring

`ConsistentHashRing` of `cluster.py`.  `hashlib` enters through `RingHash`: the
first eight bytes of the SHA-256 digest of a text as a big-endian number, and the
fingerprint of a placement.  Both are arbitrary functions here.
-/

namespace MegaCache

abbrev NodeId := String

/-- One virtual node: token, node and number. -/
structure RingPoint where
  token : ℕ
  nodeId : NodeId
  virtualNode : ℕ
deriving DecidableEq, Repr

/-- The order of the tuples `(token, node_id, virtual_node)`. -/
def RingPoint.le (p q : RingPoint) : Prop :=
  p.token < q.token ∨ p.token = q.token ∧
    (p.nodeId < q.nodeId ∨ p.nodeId = q.nodeId ∧ p.virtualNode ≤ q.virtualNode)

instance (p q : RingPoint) : Decidable (p.le q) := by
  unfold RingPoint.le
  infer_instance

structure RingHash where
  token : String → ℕ
  fingerprint : List NodeId → ℕ → List RingPoint → String

/-- The text hashed for one virtual node. -/
def ringPayload (nodeId : NodeId) (virtualNode : ℕ) : String :=
  "megacache-ring-v1\x00" ++ nodeId ++ "\x00" ++ toString virtualNode

/-- `sorted(set(ids))`. -/
def sortedIds (ids : List NodeId) : List NodeId := ids.dedup.insertionSort (· ≤ ·)

theorem mem_sortedIds {ids : List NodeId} {id : NodeId} : id ∈ sortedIds ids ↔ id ∈ ids := by
  simp [sortedIds]

theorem sortedIds_nodup (ids : List NodeId) : (sortedIds ids).Nodup :=
  (List.perm_insertionSort _ _).nodup_iff.mpr (List.nodup_dedup ids)

/-- The ring of a nonempty set of nodes, each with at least one virtual node. -/
structure ConsistentHashRing where
  nodeIds : List NodeId
  virtualNodes : ℕ
  version : ℕ
  points : List RingPoint
  fingerprint : String
  nodup : nodeIds.Nodup
  /-- every point belongs to a node of the ring -/
  points_mem : ∀ p ∈ points, p.nodeId ∈ nodeIds
  points_ne_nil : points ≠ []
deriving DecidableEq

/-- The virtual nodes of the members, in ring order. -/
def ringPoints (h : RingHash) (nodeIds : List NodeId) (virtualNodes : ℕ) : List RingPoint :=
  (nodeIds.flatMap fun id => (List.range virtualNodes).map fun v =>
    ⟨h.token (ringPayload id v), id, v⟩).insertionSort RingPoint.le

theorem mem_ringPoints {h : RingHash} {nodeIds : List NodeId} {virtualNodes : ℕ} {p : RingPoint} :
    p ∈ ringPoints h nodeIds virtualNodes ↔ ∃ id ∈ nodeIds, ∃ v < virtualNodes,
      ⟨h.token (ringPayload id v), id, v⟩ = p := by
  simp [ringPoints]

namespace ConsistentHashRing

/-- `ConsistentHashRing(node_ids, virtual_nodes, version)`; the constructor
rejects an empty set of nodes and no virtual nodes. -/
def build (h : RingHash) (ids : List NodeId) (virtualNodes version : ℕ)
    (hids : ids ≠ []) (hv : 0 < virtualNodes) : ConsistentHashRing where
  nodeIds := sortedIds ids
  virtualNodes := virtualNodes
  version := version
  points := ringPoints h (sortedIds ids) virtualNodes
  fingerprint := h.fingerprint (sortedIds ids) virtualNodes
    (ringPoints h (sortedIds ids) virtualNodes)
  nodup := sortedIds_nodup ids
  points_mem := by
    intro p hp
    obtain ⟨id, hid, v, hv, rfl⟩ := mem_ringPoints.mp hp
    exact hid
  points_ne_nil := by
    obtain ⟨id, hid⟩ := List.exists_mem_of_ne_nil ids hids
    exact List.ne_nil_of_mem (mem_ringPoints.mpr ⟨id, mem_sortedIds.mpr hid, 0, hv, rfl⟩)

/-- The loop of `owners`: the first `wanted` distinct nodes. -/
def collectOwners (wanted : ℕ) : List RingPoint → List NodeId → List NodeId
  | [], owners => owners
  | p :: rest, owners =>
    if p.nodeId ∈ owners then collectOwners wanted rest owners
    else if owners.length + 1 = wanted then owners ++ [p.nodeId]
    else collectOwners wanted rest (owners ++ [p.nodeId])

/-- `bisect.bisect_right` in the sorted tokens. -/
def bisectRight (tokens : List ℕ) (token : ℕ) : ℕ := (tokens.takeWhile (· ≤ token)).length

/-- `owners` of a nonempty key: the walk starts behind the key's token and goes
once around the ring. -/
def owners (r : ConsistentHashRing) (h : RingHash) (key : Key) (replicaCount : ℕ) : List NodeId :=
  let wanted := min replicaCount r.nodeIds.length
  let index := bisectRight (r.points.map RingPoint.token) (h.token key)
  collectOwners wanted (r.points.rotate index) []

theorem collectOwners_nodup (wanted : ℕ) (l : List RingPoint) {owners : List NodeId}
    (h : owners.Nodup) : (collectOwners wanted l owners).Nodup := by
  induction l generalizing owners with
  | nil => exact h
  | cons p rest ih =>
    have hsnoc : p.nodeId ∉ owners → (owners ++ [p.nodeId]).Nodup := by
      intro hp
      simpa [List.nodup_append, h] using fun a ha => ne_of_mem_of_not_mem ha hp
    unfold collectOwners
    split_ifs with hp
    · exact ih h
    · exact hsnoc hp
    · exact ih (hsnoc hp)

theorem collectOwners_subset (wanted : ℕ) (l : List RingPoint) (owners : List NodeId) {id : NodeId}
    (h : id ∈ collectOwners wanted l owners) : id ∈ owners ∨ ∃ p ∈ l, p.nodeId = id := by
  induction l generalizing owners with
  | nil => exact .inl h
  | cons p rest ih =>
    have hrest : id ∈ collectOwners wanted rest (owners ++ [p.nodeId]) ∨ id ∈ owners ++ [p.nodeId] →
        id ∈ owners ∨ ∃ q ∈ p :: rest, q.nodeId = id := by
      intro hor
      have hmem : id ∈ owners ++ [p.nodeId] ∨ ∃ q ∈ rest, q.nodeId = id := by
        rcases hor with hc | hm
        · exact ih _ hc
        · exact .inl hm
      rcases hmem with hm | ⟨q, hq, hid⟩
      · simp only [List.mem_append, List.mem_singleton] at hm
        exact hm.imp_right fun hm => ⟨p, List.mem_cons_self, hm.symm⟩
      · exact .inr ⟨q, List.mem_cons_of_mem p hq, hid⟩
    unfold collectOwners at h
    split_ifs at h with hp hw
    · exact (ih _ h).imp_right fun ⟨q, hq, hid⟩ => ⟨q, List.mem_cons_of_mem p hq, hid⟩
    · exact hrest (.inr h)
    · exact hrest (.inl h)

theorem subset_collectOwners (wanted : ℕ) (l : List RingPoint) (owners : List NodeId) :
    owners ⊆ collectOwners wanted l owners := by
  induction l generalizing owners with
  | nil => exact List.Subset.refl _
  | cons p rest ih =>
    unfold collectOwners
    split_ifs
    · exact ih owners
    · exact List.subset_append_left _ _
    · exact List.Subset.trans (List.subset_append_left _ _) (ih _)

theorem owners_nodup (r : ConsistentHashRing) (h : RingHash) (key : Key) (n : ℕ) :
    (r.owners h key n).Nodup :=
  collectOwners_nodup _ _ List.nodup_nil

theorem owners_subset (r : ConsistentHashRing) (h : RingHash) (key : Key) (n : ℕ) {id : NodeId}
    (hid : id ∈ r.owners h key n) : id ∈ r.nodeIds := by
  rcases collectOwners_subset _ _ _ hid with hid | ⟨p, hp, rfl⟩
  · cases hid
  · exact r.points_mem p (List.mem_rotate.mp hp)

theorem owners_ne_nil (r : ConsistentHashRing) (h : RingHash) (key : Key) (n : ℕ) :
    r.owners h key n ≠ [] := by
  show collectOwners _ (r.points.rotate _) [] ≠ []
  cases hl : r.points.rotate (bisectRight (r.points.map RingPoint.token) (h.token key)) with
  | nil => exact absurd (List.rotate_eq_nil_iff.mp hl) r.points_ne_nil
  | cons p rest =>
    have hmem : p.nodeId ∈ collectOwners (min n r.nodeIds.length) (p :: rest) [] := by
      unfold collectOwners
      split_ifs with h₁
      · cases h₁
      · simp
      · exact subset_collectOwners _ _ _ (by simp)
    exact List.ne_nil_of_mem hmem

end ConsistentHashRing
end MegaCache
