import Mathlib

/-!
# Bounded breadth-first search

A search from a queue of nodes with their depths, which gives up when it would visit too
many nodes or follow an edge too deep.  A search that does not give up returns exactly
what the graph reaches (`mem_explore`).
-/

namespace MegaCache
namespace Search

variable {K : Type} [DecidableEq K]

inductive Exceeded
  | nodes
  | depth
deriving DecidableEq, Repr

variable (children : K → List K) (maxDepth : ℕ)

/-- The search with room for so many more nodes.  Nodes of the queue that were visited
meanwhile are skipped. -/
def explore : ℕ → List K → List (K × ℕ) → Except Exceeded (List K)
  | 0, visited, queue =>
    match queue.dropWhile fun p => p.1 ∈ visited with
    | [] => .ok visited
    | _ :: _ => .error .nodes
  | room + 1, visited, queue =>
    match queue.dropWhile fun p => p.1 ∈ visited with
    | [] => .ok visited
    | (key, depth) :: rest =>
      if children key ≠ [] ∧ maxDepth ≤ depth then .error .depth
      else
        explore room (key :: visited)
          (rest ++ ((children key).filter (· ∉ key :: visited)).map (·, depth + 1))

/-- The nodes that can be reached from the roots. -/
def Reaches (roots : Set K) (k : K) : Prop :=
  ∃ root ∈ roots, Relation.ReflTransGen (fun a b => b ∈ children a) root k

/-- What is still to do: every node that was seen is visited or queued. -/
def Pending (visited : List K) (queue : List (K × ℕ)) (k : K) : Prop :=
  k ∈ visited ∨ k ∈ queue.map Prod.fst

variable {children} {maxDepth}

theorem pending_dropWhile {visited : List K} {queue : List (K × ℕ)} {k : K} :
    Pending visited (queue.dropWhile fun p => p.1 ∈ visited) k ↔ Pending visited queue k := by
  induction queue with
  | nil => rfl
  | cons p queue ih =>
    by_cases hp : p.1 ∈ visited
    · rw [List.dropWhile_cons_of_pos (by simpa using hp), ih]
      simp only [Pending, List.map_cons, List.mem_cons]
      constructor
      · rintro (h | h)
        · exact .inl h
        · exact .inr (.inr h)
      · rintro (h | rfl | h)
        · exact .inl h
        · exact .inl hp
        · exact .inr h
    · rw [List.dropWhile_cons_of_neg (by simpa using hp)]

/-- Visiting a node turns its children into pending nodes. -/
theorem pending_visit {visited : List K} {key : K} {depth : ℕ} {rest : List (K × ℕ)} {k : K} :
    Pending (key :: visited)
      (rest ++ ((children key).filter (· ∉ key :: visited)).map (·, depth + 1)) k ↔
    Pending visited ((key, depth) :: rest) k ∨ k ∈ children key := by
  simp only [Pending, List.map_append, List.mem_append, List.map_cons, List.mem_cons,
    List.map_map, List.mem_map, List.mem_filter, decide_eq_true_eq, Function.comp_apply,
    exists_eq_right]
  by_cases hv : k = key ∨ k ∈ visited
  · simp only [hv, true_or, true_iff]
    rcases hv with rfl | hv
    · exact .inl (.inr (.inl rfl))
    · exact .inl (.inl hv)
  · rw [not_or] at hv
    simp [hv.1, hv.2]

/-- What a search has found: all that was pending, closed under the edges, and nothing
that was not reached. -/
def Found (children : K → List K) (visited : List K) (queue : List (K × ℕ))
    (result : List K) : Prop :=
  (∀ k, Pending visited queue k → k ∈ result) ∧
  (∀ v ∈ result, ∀ k ∈ children v, k ∈ result) ∧
  ∀ k ∈ result, Reaches children {v | Pending visited queue v} k

theorem found_of_empty {visited : List K} {queue : List (K × ℕ)}
    (hclosed : ∀ v ∈ visited, ∀ k ∈ children v, Pending visited queue k)
    (hempty : queue.dropWhile (fun p => p.1 ∈ visited) = []) :
    Found children visited queue visited := by
  have hall : ∀ k, Pending visited queue k → k ∈ visited := by
    intro k hk
    rw [← pending_dropWhile, hempty] at hk
    simpa [Pending] using hk
  exact ⟨hall, fun v hv k hk => hall k (hclosed v hv k hk), fun k hk => ⟨k, .inl hk, .refl⟩⟩

theorem found_of_explore {room : ℕ} {visited result : List K} {queue : List (K × ℕ)}
    (hclosed : ∀ v ∈ visited, ∀ k ∈ children v, Pending visited queue k)
    (h : explore children maxDepth room visited queue = .ok result) :
    Found children visited queue result := by
  induction room generalizing visited queue with
  | zero =>
    rw [explore] at h
    cases hq : queue.dropWhile (fun p => p.1 ∈ visited) with
    | nil =>
      simp only [hq, Except.ok.injEq] at h
      exact h ▸ found_of_empty hclosed hq
    | cons p rest => simp [hq] at h
  | succ room ih =>
    rw [explore] at h
    cases hq : queue.dropWhile (fun p => p.1 ∈ visited) with
    | nil =>
      simp only [hq, Except.ok.injEq] at h
      exact h ▸ found_of_empty hclosed hq
    | cons p rest =>
      obtain ⟨key, depth⟩ := p
      simp only [hq] at h
      split_ifs at h with hdeep
      have hpending : ∀ k, Pending visited ((key, depth) :: rest) k ↔ Pending visited queue k := by
        intro k
        rw [← hq, pending_dropWhile]
      have hkey : Pending visited queue key := (hpending key).mp (.inr (by simp))
      have hclosed' : ∀ v ∈ key :: visited, ∀ k ∈ children v, Pending (key :: visited)
          (rest ++ ((children key).filter (· ∉ key :: visited)).map (·, depth + 1)) k := by
        intro v hv k hk
        rw [pending_visit, hpending]
        rcases List.mem_cons.mp hv with rfl | hv
        · exact .inr hk
        · exact .inl (hclosed v hv k hk)
      obtain ⟨hall, hchildren, hreach⟩ := ih hclosed' h
      refine ⟨fun k hk => hall k ?_, hchildren, fun k hk => ?_⟩
      · exact pending_visit.mpr (.inl ((hpending k).mpr hk))
      · obtain ⟨root, hroot, hpath⟩ := hreach k hk
        rcases pending_visit.mp hroot with hroot | hchild
        · exact ⟨root, (hpending root).mp hroot, hpath⟩
        · exact ⟨key, hkey, Relation.ReflTransGen.head hchild hpath⟩

/-- A search from the roots that does not give up finds what they reach. -/
theorem mem_explore {room : ℕ} {roots result : List K}
    (h : explore children maxDepth room [] (roots.map (·, 0)) = .ok result) (k : K) :
    k ∈ result ↔ Reaches children {v | v ∈ roots} k := by
  obtain ⟨hall, hchildren, hreach⟩ := found_of_explore (by simp) h
  have hpending : ∀ v, Pending [] (roots.map (·, 0)) v ↔ v ∈ roots := by
    intro v
    simp [Pending, List.map_map, Function.comp_def]
  constructor
  · intro hk
    obtain ⟨root, hroot, hpath⟩ := hreach k hk
    exact ⟨root, (hpending root).mp hroot, hpath⟩
  · rintro ⟨root, hroot, hpath⟩
    induction hpath with
    | refl => exact hall root ((hpending root).mpr hroot)
    | tail _ hedge ih => exact hchildren _ ih _ hedge

/-! ## When a search gives up -/

section Walks

omit [DecidableEq K]

/-- A walk of so many edges from a root. -/
inductive ReachesIn (children : K → List K) (roots : Set K) : ℕ → K → Prop
  | root {k : K} (h : k ∈ roots) : ReachesIn children roots 0 k
  | edge {n : ℕ} {v k : K} (h : ReachesIn children roots n v) (hk : k ∈ children v) :
      ReachesIn children roots (n + 1) k

theorem ReachesIn.reaches {roots : Set K} {n : ℕ} {k : K} (h : ReachesIn children roots n k) :
    Reaches children roots k := by
  induction h with
  | root hk => exact ⟨_, hk, .refl⟩
  | edge _ hk ih =>
    obtain ⟨root, hroot, hpath⟩ := ih
    exact ⟨root, hroot, hpath.tail hk⟩

theorem exists_reachesIn {roots : Set K} {k : K} (h : Reaches children roots k) :
    ∃ n, ReachesIn children roots n k := by
  obtain ⟨root, hroot, hpath⟩ := h
  induction hpath with
  | refl => exact ⟨0, .root hroot⟩
  | tail _ hk ih =>
    obtain ⟨n, hn⟩ := ih
    exact ⟨n + 1, hn.edge hk⟩

end Walks

/-- A node with edges at the distance `maxDepth` or farther from the roots. -/
def Deep (children : K → List K) (maxDepth : ℕ) (roots : Set K) (k : K) : Prop :=
  Reaches children roots k ∧ children k ≠ [] ∧ ∀ n, ReachesIn children roots n k → maxDepth ≤ n

/-- What holds of the visited nodes and the queue of a search from `roots`: no node is queued
nearer than it is, the queue is in the order of the distances, and the children of a visited node
are visited or queued as near as the node allows. -/
structure Ordered (children : K → List K) (roots : Set K) (visited : List K)
    (queue : List (K × ℕ)) : Prop where
  nodup : visited.Nodup
  reached : ∀ v ∈ visited, Reaches children roots v
  sound : ∀ p ∈ queue, ReachesIn children roots p.2 p.1
  sorted : queue.Pairwise fun p q => p.2 ≤ q.2
  narrow : ∀ p ∈ queue, ∀ q ∈ queue, q.2 ≤ p.2 + 1
  start : ∀ k ∈ roots, k ∈ visited ∨ (k, 0) ∈ queue
  closed : ∀ v ∈ visited, ∀ n, ReachesIn children roots n v → ∀ k ∈ children v,
    k ∈ visited ∨ ∃ m ≤ n + 1, (k, m) ∈ queue

namespace Ordered

variable {roots : Set K} {visited : List K} {queue : List (K × ℕ)}

/-- A node that is not yet visited is at least as far as some queued node. -/
theorem nearest (h : Ordered children roots visited queue) {n : ℕ} {k : K}
    (hk : ReachesIn children roots n k) (hnot : k ∉ visited) :
    ∃ p ∈ queue, p.1 ∉ visited ∧ p.2 ≤ n := by
  induction hk with
  | root hroot =>
    rcases h.start _ hroot with hv | hq
    · exact absurd hv hnot
    · exact ⟨_, hq, hnot, le_rfl⟩
  | @edge n v k hv hchild ih =>
    by_cases hvisited : v ∈ visited
    · rcases h.closed v hvisited n hv k hchild with hk | ⟨m, hm, hq⟩
      · exact absurd hk hnot
      · exact ⟨_, hq, hnot, hm⟩
    · obtain ⟨p, hp, hpv, hle⟩ := ih hvisited
      exact ⟨p, hp, hpv, hle.trans (Nat.le_succ n)⟩

/-- Skipped nodes are not missed. -/
theorem dropWhile (h : Ordered children roots visited queue) :
    Ordered children roots visited (queue.dropWhile fun p => p.1 ∈ visited) := by
  have hsub : ∀ p ∈ queue.dropWhile (fun p => p.1 ∈ visited), p ∈ queue :=
    fun p hp => List.dropWhile_subset _ hp
  have hkeep : ∀ p ∈ queue, p.1 ∈ visited ∨ p ∈ queue.dropWhile (fun p => p.1 ∈ visited) := by
    intro p hp
    rw [← List.takeWhile_append_dropWhile (p := fun p : K × ℕ => p.1 ∈ visited) (l := queue)] at hp
    rcases List.mem_append.mp hp with hp | hp
    · left
      simpa using List.mem_takeWhile_imp hp
    · exact .inr hp
  refine ⟨h.nodup, h.reached, fun p hp => h.sound p (hsub p hp),
    h.sorted.sublist (List.dropWhile_sublist _),
    fun p hp q hq => h.narrow p (hsub p hp) q (hsub q hq), fun k hk => ?_, fun v hv n hn k hk => ?_⟩
  · rcases h.start k hk with hv | hq
    · exact .inl hv
    · exact hkeep _ hq
  · rcases h.closed v hv n hn k hk with hv | ⟨m, hm, hq⟩
    · exact .inl hv
    · rcases hkeep _ hq with hv | hq
      · exact .inl hv
      · exact .inr ⟨m, hm, hq⟩

/-- The first node of the queue is visited at its distance. -/
theorem head_le {key : K} {depth : ℕ} {rest : List (K × ℕ)}
    (h : Ordered children roots visited ((key, depth) :: rest)) {n : ℕ} {k : K}
    (hk : ReachesIn children roots n k) (hnot : k ∉ visited) : depth ≤ n := by
  obtain ⟨p, hp, -, hle⟩ := h.nearest hk hnot
  rcases List.mem_cons.mp hp with rfl | hp
  · exact hle
  · exact ((List.pairwise_cons.mp h.sorted).1 p hp).trans hle

theorem visit {key : K} {depth : ℕ} {rest : List (K × ℕ)}
    (h : Ordered children roots visited ((key, depth) :: rest)) (hnot : key ∉ visited) :
    Ordered children roots (key :: visited)
      (rest ++ ((children key).filter (· ∉ key :: visited)).map (·, depth + 1)) := by
  have hkey : ReachesIn children roots depth key := h.sound _ List.mem_cons_self
  have hrest : ∀ p ∈ rest, depth ≤ p.2 ∧ p.2 ≤ depth + 1 := by
    intro p hp
    exact ⟨(List.pairwise_cons.mp h.sorted).1 p hp,
      h.narrow _ List.mem_cons_self p (List.mem_cons_of_mem _ hp)⟩
  have hnew : ∀ p ∈ ((children key).filter (· ∉ key :: visited)).map (·, depth + 1),
      p.2 = depth + 1 ∧ p.1 ∈ children key := by
    intro p hp
    obtain ⟨k, hk, rfl⟩ := List.mem_map.mp hp
    exact ⟨rfl, (List.mem_filter.mp hk).1⟩
  -- what was queued is still queued, unless it is the visited node
  have hkept : ∀ k m, (k, m) ∈ (key, depth) :: rest → k ∈ key :: visited ∨
      (k, m) ∈ rest ++ ((children key).filter (· ∉ key :: visited)).map (·, depth + 1) := by
    intro k m hp
    rcases List.mem_cons.mp hp with heq | hp
    · exact .inl (by rw [(Prod.mk.inj heq).1]; exact List.mem_cons_self)
    · exact .inr (List.mem_append_left _ hp)
  refine ⟨List.nodup_cons.mpr ⟨hnot, h.nodup⟩, ?_, ?_, ?_, ?_, ?_, ?_⟩
  · intro v hv
    rcases List.mem_cons.mp hv with rfl | hv
    · exact hkey.reaches
    · exact h.reached v hv
  · intro p hp
    rcases List.mem_append.mp hp with hp | hp
    · exact h.sound p (List.mem_cons_of_mem _ hp)
    · obtain ⟨hdepth, hchild⟩ := hnew p hp
      rw [hdepth]
      exact hkey.edge hchild
  · rw [List.pairwise_append]
    refine ⟨(List.pairwise_cons.mp h.sorted).2, ?_, fun p hp q hq => ?_⟩
    · exact List.pairwise_map.mpr (List.pairwise_of_forall fun _ _ => le_rfl)
    · rw [(hnew q hq).1]
      exact (hrest p hp).2
  · intro p hp q hq
    have hp' : depth ≤ p.2 := by
      rcases List.mem_append.mp hp with hp | hp
      · exact (hrest p hp).1
      · rw [(hnew p hp).1]
        exact Nat.le_succ _
    have hq' : q.2 ≤ depth + 1 := by
      rcases List.mem_append.mp hq with hq | hq
      · exact (hrest q hq).2
      · rw [(hnew q hq).1]
    omega
  · intro k hk
    rcases h.start k hk with hv | hq
    · exact .inl (List.mem_cons_of_mem _ hv)
    · exact hkept k 0 hq
  · intro v hv n hn k hk
    by_cases hvisited : k ∈ key :: visited
    · exact .inl hvisited
    · right
      rcases List.mem_cons.mp hv with rfl | hv
      · have hle := h.head_le hn hnot
        refine ⟨depth + 1, by omega, List.mem_append_right _ (List.mem_map.mpr ⟨k, ?_, rfl⟩)⟩
        exact List.mem_filter.mpr ⟨hk, by simpa using hvisited⟩
      · rcases h.closed v hv n hn k hk with hv | ⟨m, hm, hq⟩
        · exact absurd (List.mem_cons_of_mem _ hv) hvisited
        · rcases hkept k m hq with hv | hq
          · exact absurd hv hvisited
          · exact ⟨m, hm, hq⟩

end Ordered

/-- How a search ends: with the nodes it visited, each of them once and at a distance below the
limit if it has edges; or with more nodes than there is room for; or at a deep node. -/
def Ends (children : K → List K) (maxDepth : ℕ) (roots : Set K) (limit : ℕ) :
    Except Exceeded (List K) → Prop
  | .ok result => result.Nodup ∧ result.length ≤ limit ∧ ∀ k ∈ result, ¬Deep children maxDepth roots k
  | .error .nodes => ∃ l : List K, l.Nodup ∧ l.length = limit + 1 ∧ ∀ k ∈ l, Reaches children roots k
  | .error .depth => ∃ k, Deep children maxDepth roots k

theorem notMem_of_dropWhile {visited : List K} {queue rest : List (K × ℕ)} {p : K × ℕ}
    (h : (queue.dropWhile fun p => p.1 ∈ visited) = p :: rest) : p.1 ∉ visited := by
  induction queue with
  | nil => cases h
  | cons q queue ih =>
    by_cases hq : q.1 ∈ visited
    · rw [List.dropWhile_cons_of_pos (by simpa using hq)] at h
      exact ih h
    · rw [List.dropWhile_cons_of_neg (by simpa using hq)] at h
      obtain rfl := (List.cons.inj h).1
      exact hq

theorem ends_explore {roots : Set K} {visited : List K} {queue : List (K × ℕ)}
    (h : Ordered children roots visited queue)
    (hshallow : ∀ k ∈ visited, ¬Deep children maxDepth roots k) (room : ℕ) :
    Ends children maxDepth roots (visited.length + room)
      (explore children maxDepth room visited queue) := by
  induction room generalizing visited queue with
  | zero =>
    rw [explore]
    have hdrop := h.dropWhile
    cases hq : queue.dropWhile (fun p => p.1 ∈ visited) with
    | nil => exact ⟨h.nodup, le_rfl, hshallow⟩
    | cons p rest =>
      rw [hq] at hdrop
      have hnot := notMem_of_dropWhile hq
      refine ⟨p.1 :: visited, List.nodup_cons.mpr ⟨hnot, h.nodup⟩, rfl, fun k hk => ?_⟩
      rcases List.mem_cons.mp hk with rfl | hk
      · exact (hdrop.sound p List.mem_cons_self).reaches
      · exact h.reached k hk
  | succ room ih =>
    rw [explore]
    have hdrop := h.dropWhile
    cases hq : queue.dropWhile (fun p => p.1 ∈ visited) with
    | nil => exact ⟨h.nodup, Nat.le_add_right _ _, hshallow⟩
    | cons p rest =>
      obtain ⟨key, depth⟩ := p
      rw [hq] at hdrop
      have hnot := notMem_of_dropWhile hq
      have hkey := hdrop.sound _ List.mem_cons_self
      dsimp only
      split_ifs with hdeep
      · exact ⟨key, hkey.reaches, hdeep.1, fun n hn => hdeep.2.trans (hdrop.head_le hn hnot)⟩
      · have hnext := ih (hdrop.visit hnot) (fun k hk => ?_)
        · rwa [List.length_cons, Nat.add_right_comm] at hnext
        · rcases List.mem_cons.mp hk with rfl | hk
          · exact fun hd => hdeep ⟨hd.2.1, hd.2.2 depth hkey⟩
          · exact hshallow k hk

/-- A search from roots ends as it should. -/
theorem ends_explore_roots {room : ℕ} {roots : List K} :
    Ends children maxDepth {v | v ∈ roots} room
      (explore children maxDepth room [] (roots.map (·, 0))) := by
  have h : Ordered children {v | v ∈ roots} [] (roots.map (·, 0)) := by
    refine ⟨List.nodup_nil, by simp, ?_, ?_, ?_, ?_, by simp⟩
    · intro p hp
      obtain ⟨k, hk, rfl⟩ := List.mem_map.mp hp
      exact .root hk
    · exact List.pairwise_map.mpr (List.pairwise_of_forall fun _ _ => le_rfl)
    · intro p hp q hq
      obtain ⟨k, -, rfl⟩ := List.mem_map.mp hp
      obtain ⟨k', -, rfl⟩ := List.mem_map.mp hq
      exact Nat.le_succ 0
    · exact fun k hk => .inr (List.mem_map.mpr ⟨k, hk, rfl⟩)
  have hends : Ends children maxDepth {v | v ∈ roots} (0 + room) _ :=
    ends_explore h (fun k hk => absurd hk List.not_mem_nil) room
  rwa [Nat.zero_add] at hends

end Search
end MegaCache
