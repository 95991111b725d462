import MegaCache.Events.Closure

/-!
# The dependency graph

`DependencyGraph` as it is built: `add_dependency` with its bounds and the search for a cycle, and
`expand` of the graph that a sequence of calls leaves behind.
-/

namespace MegaCache
namespace Events

/-- The bounds of a `DependencyGraph`. -/
structure GraphBounds where
  maxNodes : ℕ
  maxEdges : ℕ
  maxFanout : ℕ
  maxDepth : ℕ
  maxInvalidationNodes : ℕ
  positive : 0 < maxNodes ∧ 0 < maxEdges ∧ 0 < maxFanout ∧ 0 < maxDepth ∧ 0 < maxInvalidationNodes

/-- The data of a `DependencyGraph`. -/
structure Dependencies where
  edges : OrderedDict Key (Finset Key)
  nodes : Finset Key
  edgeCount : ℕ

/-- `_validate_cache_key`. -/
def validateCacheKey (key : Key) : Except Failure Unit :=
  raiseIf (key = "" ∨ 1024 < key.utf8ByteSize)
    (.eventError "cache key must contain 1 to 1024 UTF-8 bytes")

namespace Dependencies

def empty : Dependencies := ⟨.empty, ∅, 0⟩

def children (g : Dependencies) (k : Key) : Finset Key := (g.edges.get? k).getD ∅

/-- The children of a key, sorted. -/
def dependents (g : Dependencies) (k : Key) : List Key := (g.children k).sort (· ≤ ·)

def Edge (g : Dependencies) (a b : Key) : Prop := b ∈ g.children a

@[simp] theorem mem_dependents {g : Dependencies} {a b : Key} : b ∈ g.dependents a ↔ g.Edge a b := by
  simp [dependents, Edge]

theorem children_of_notMem {g : Dependencies} {k : Key} (h : k ∉ g.edges.keys) :
    g.children k = ∅ := by
  rw [children, OrderedDict.get?_eq_none.mpr h]
  rfl

/-- The loop of `_reachable_locked`, with the top of the stack at the head. -/
def reachable (g : Dependencies) (target : Key) (pending : List Key) (seen : Finset Key) : Bool :=
  match pending with
  | [] => false
  | node :: pending =>
    if node = target then true
    else if node ∈ seen then g.reachable target pending seen
    else g.reachable target (g.dependents node ++ pending) (insert node seen)
termination_by ((g.edges.keys.toFinset \ seen).card, pending.length)
decreasing_by
  · exact Prod.Lex.right _ (Nat.lt_succ_self _)
  · rename_i hseen
    by_cases hk : node ∈ g.edges.keys
    · -- another key that has an entry is seen
      refine Prod.Lex.left _ _ (Finset.card_lt_card ?_)
      refine Finset.ssubset_iff_of_subset ?_ |>.mpr ⟨node, by simp [hk, hseen], by simp⟩
      exact Finset.sdiff_subset_sdiff le_rfl (Finset.subset_insert _ _)
    · have hsame : g.edges.keys.toFinset \ insert node seen = g.edges.keys.toFinset \ seen := by
        ext k
        simp only [Finset.mem_sdiff, List.mem_toFinset, Finset.mem_insert, not_or]
        exact ⟨fun h => ⟨h.1, h.2.2⟩, fun h => ⟨h.1, fun he => hk (he ▸ h.1), h.2⟩⟩
      rw [hsame, dependents, children_of_notMem hk]
      exact Prod.Lex.right _ (by simp)

/-- `self._edges[key]` of a `defaultdict`. -/
def touch (key : Key) (g : Dependencies) : Dependencies :=
  match g.edges.get? key with
  | some _ => g
  | none => { g with edges := g.edges.set key ∅ }

def cycleError : Failure := .dependencyGraphError "dependency would create a cycle"

def addDependency (b : GraphBounds) (dependency dependent : Key) (g : Dependencies) :
    Except Failure Unit × Dependencies :=
  match validateCacheKey dependency, validateCacheKey dependent with
  | .error e, _ => (.error e, g)
  | .ok _, .error e => (.error e, g)
  | .ok _, .ok _ =>
    if dependency = dependent then (.error cycleError, g)
    else
      let g := g.touch dependency
      let newNodes := {dependency, dependent} \ g.nodes
      if dependent ∈ g.children dependency then (.ok (), g)
      else if b.maxNodes < g.nodes.card + newNodes.card then
        (.error (.dependencyGraphError "dependency graph node limit exceeded"), g)
      else if b.maxEdges ≤ g.edgeCount then
        (.error (.dependencyGraphError "dependency graph edge limit exceeded"), g)
      else if b.maxFanout ≤ (g.children dependency).card then
        (.error (.dependencyGraphError "dependency graph fanout limit exceeded"), g)
      else if g.reachable dependency [dependent] ∅ then (.error cycleError, g)
      else
        (.ok (),
          { edges := g.edges.set dependency (insert dependent (g.children dependency))
            nodes := g.nodes ∪ newNodes
            edgeCount := g.edgeCount + 1 })

/-- The graph after some calls, whether they return or raise. -/
def built (b : GraphBounds) (calls : List (Key × Key)) : Dependencies :=
  calls.foldl (fun g call => (g.addDependency b call.1 call.2).2) empty

/-- What `expand` uses of the graph. -/
def toGraph (b : GraphBounds) (g : Dependencies) : DependencyGraph :=
  ⟨g.dependents, b.maxDepth, b.maxInvalidationNodes⟩

def builtGraph (b : GraphBounds) (calls : List (Key × Key)) : DependencyGraph :=
  (built b calls).toGraph b

/-! ## The search for a cycle -/

section Reachable

variable {g : Dependencies} {target : Key} {pending : List Key} {seen : Finset Key}

/-- A path that leaves the seen keys goes on through a pending one. -/
theorem exists_pending (hclosed : ∀ v ∈ seen, ∀ c, g.Edge v c → c ∈ seen ∨ c ∈ pending)
    {v : Key} (hv : v ∈ seen) (hpath : Relation.ReflTransGen g.Edge v target) (ht : target ∉ seen) :
    ∃ c ∈ pending, c ∉ seen ∧ Relation.ReflTransGen g.Edge c target := by
  induction hpath using Relation.ReflTransGen.head_induction_on with
  | refl => exact absurd hv ht
  | @head v c hedge hrest ih =>
    by_cases hc : c ∈ seen
    · exact ih hc
    · rcases hclosed v hv c hedge with hs | hp
      · exact absurd hs hc
      · exact ⟨c, hp, hc, hrest⟩

theorem reachable_iff (ht : target ∉ seen)
    (hclosed : ∀ v ∈ seen, ∀ c, g.Edge v c → c ∈ seen ∨ c ∈ pending) :
    g.reachable target pending seen = true ↔
      ∃ p ∈ pending, Relation.ReflTransGen g.Edge p target := by
  fun_induction reachable g target pending seen with
  | case1 seen => simp
  | case2 seen pending =>
    simp only [true_iff]
    exact ⟨target, List.mem_cons_self, .refl⟩
  | case3 seen node pending hne hseen ih =>
    have hclosed' : ∀ v ∈ seen, ∀ c, g.Edge v c → c ∈ seen ∨ c ∈ pending := by
      intro v hv c hc
      rcases hclosed v hv c hc with hs | hp
      · exact .inl hs
      · rcases List.mem_cons.mp hp with rfl | hp
        · exact .inl hseen
        · exact .inr hp
    rw [ih ht hclosed']
    constructor
    · rintro ⟨p, hp, hpath⟩
      exact ⟨p, List.mem_cons_of_mem _ hp, hpath⟩
    · rintro ⟨p, hp, hpath⟩
      rcases List.mem_cons.mp hp with rfl | hp
      · obtain ⟨c, hc, -, hrest⟩ := exists_pending hclosed' hseen hpath ht
        exact ⟨c, hc, hrest⟩
      · exact ⟨p, hp, hpath⟩
  | case4 seen node pending hne hseen ih =>
    have ht' : target ∉ insert node seen := by
      rw [Finset.mem_insert, not_or]
      exact ⟨fun h => hne h.symm, ht⟩
    have hclosed' : ∀ v ∈ insert node seen, ∀ c, g.Edge v c →
        c ∈ insert node seen ∨ c ∈ g.dependents node ++ pending := by
      intro v hv c hc
      rw [Finset.mem_insert, List.mem_append]
      rcases Finset.mem_insert.mp hv with rfl | hv
      · exact .inr (.inl (mem_dependents.mpr hc))
      · rcases hclosed v hv c hc with hs | hp
        · exact .inl (.inr hs)
        · rcases List.mem_cons.mp hp with rfl | hp
          · exact .inl (.inl rfl)
          · exact .inr (.inr hp)
    rw [ih ht' hclosed']
    constructor
    · rintro ⟨p, hp, hpath⟩
      rcases List.mem_append.mp hp with hp | hp
      · exact ⟨node, List.mem_cons_self, hpath.head (mem_dependents.mp hp)⟩
      · exact ⟨p, List.mem_cons_of_mem _ hp, hpath⟩
    · rintro ⟨p, hp, hpath⟩
      rcases List.mem_cons.mp hp with rfl | hp
      · rcases hpath.cases_head with rfl | ⟨c, hedge, hrest⟩
        · exact absurd rfl hne
        · exact ⟨c, List.mem_append_left _ (mem_dependents.mpr hedge), hrest⟩
      · exact ⟨p, List.mem_append_right _ hp, hpath⟩

end Reachable

/-! ## What a call does -/

section Calls

variable {b : GraphBounds} {g g' : Dependencies} {dependency dependent : Key}

/-- The number of edges in the table. -/
def storedEdges (g : Dependencies) : ℤ := g.edges.sumBy fun p => (p.2.card : ℤ)

/-- Graphs with the same edges and nodes. -/
structure Same (g g' : Dependencies) : Prop where
  children : g'.children = g.children
  nodes : g'.nodes = g.nodes
  edgeCount : g'.edgeCount = g.edgeCount
  storedEdges : g'.storedEdges = g.storedEdges

/-- A new edge, within the bounds and without a way back. -/
structure Added (b : GraphBounds) (dependency dependent : Key) (g g' : Dependencies) : Prop where
  valid : validateCacheKey dependent = .ok ()
  ne : dependency ≠ dependent
  noWayBack : ¬Relation.ReflTransGen g.Edge dependent dependency
  edge : ∀ x y, g'.Edge x y ↔ g.Edge x y ∨ x = dependency ∧ y = dependent
  nodes : ∀ k, k ∈ g'.nodes ↔ k ∈ g.nodes ∨ k = dependency ∨ k = dependent
  nodes_le : g'.nodes.card ≤ b.maxNodes
  edgeCount : g'.edgeCount = g.edgeCount + 1
  edgeCount_le : g'.edgeCount ≤ b.maxEdges
  fanout_le : ∀ k, (g'.children k).card ≤ max (g.children k).card b.maxFanout
  storedEdges : g'.storedEdges = g.storedEdges + 1

theorem Same.refl (g : Dependencies) : Same g g := ⟨rfl, rfl, rfl, rfl⟩

theorem same_touch (key : Key) (g : Dependencies) : Same g (g.touch key) := by
  unfold touch
  cases hk : g.edges.get? key with
  | some set => exact .refl g
  | none =>
    refine ⟨?_, rfl, rfl, ?_⟩
    · funext k
      simp only [children, OrderedDict.get?_set]
      split_ifs with he
      · rw [he, hk]
        rfl
      · rfl
    · simp [storedEdges, OrderedDict.sumBy_set, OrderedDict.erase_eq_self hk]

theorem storedEdges_set (g : Dependencies) (key : Key) (set : Finset Key) (nodes : Finset Key)
    (n : ℕ) : storedEdges ⟨g.edges.set key set, nodes, n⟩ =
      g.storedEdges - (g.children key).card + set.card := by
  unfold storedEdges
  rw [OrderedDict.sumBy_set]
  cases hk : g.edges.get? key with
  | none => simp [children, hk, OrderedDict.erase_eq_self hk]
  | some old => simp [children, hk, OrderedDict.sumBy_erase hk]

theorem addDependency_cases : Same g (g.addDependency b dependency dependent).2 ∨
    Added b dependency dependent g (g.addDependency b dependency dependent).2 := by
  unfold addDependency
  cases validateCacheKey dependency with
  | error e => exact .inl (.refl g)
  | ok _ =>
    cases hvalid : validateCacheKey dependent with
    | error e => exact .inl (.refl g)
    | ok _ =>
      have htouch := same_touch dependency g
      dsimp only
      split_ifs with hne hknown hnodes hedges hfanout hback
      · exact .inl (.refl g)
      · exact .inl htouch
      · exact .inl htouch
      · exact .inl htouch
      · exact .inl htouch
      · exact .inl htouch
      · right
        have hedge : (g.touch dependency).Edge = g.Edge := by
          funext x y
          rw [Edge, Edge, htouch.children]
        rw [htouch.children] at hknown hfanout
        rw [htouch.nodes] at hnodes
        rw [htouch.edgeCount] at hedges
        have hchildren : ∀ k, children ⟨(g.touch dependency).edges.set dependency
            (insert dependent ((g.touch dependency).children dependency)),
            (g.touch dependency).nodes ∪ ({dependency, dependent} \ (g.touch dependency).nodes),
            (g.touch dependency).edgeCount + 1⟩ k =
            if k = dependency then insert dependent (g.children dependency) else g.children k := by
          intro k
          rw [children, OrderedDict.get?_set, ← htouch.children]
          split_ifs <;> rfl
        refine ⟨hvalid, hne, ?_, ?_, ?_, ?_, ?_, ?_, ?_, ?_⟩
        · intro hpath
          apply hback
          rw [reachable_iff (by simp) (by simp), hedge]
          exact ⟨dependent, by simp, hpath⟩
        · intro x y
          rw [Edge, hchildren, Edge]
          split_ifs with he
          · rw [he, Finset.mem_insert]
            simp [or_comm]
          · simp [he]
        · intro k
          rw [htouch.nodes]
          simp only [Finset.mem_union, Finset.mem_sdiff, Finset.mem_insert, Finset.mem_singleton]
          tauto
        · rw [htouch.nodes, Finset.card_union_of_disjoint Finset.disjoint_sdiff]
          omega
        · rw [htouch.edgeCount]
        · show (g.touch dependency).edgeCount + 1 ≤ b.maxEdges
          rw [htouch.edgeCount]
          omega
        · intro k
          rw [hchildren]
          split_ifs with he
          · rw [Finset.card_insert_of_notMem hknown]
            omega
          · exact le_max_left _ _
        · rw [storedEdges_set, htouch.storedEdges, htouch.children,
            Finset.card_insert_of_notMem hknown]
          push_cast
          ring

/-- The invariant of a graph that is built by calls. -/
structure Sound (b : GraphBounds) (g : Dependencies) : Prop where
  acyclic : ∀ k, ¬Relation.TransGen g.Edge k k
  edgeCount_eq : (g.edgeCount : ℤ) = g.storedEdges
  nodes : ∀ k, k ∈ g.nodes ↔ ∃ x, g.Edge k x ∨ g.Edge x k
  nodes_le : g.nodes.card ≤ b.maxNodes
  edgeCount_le : g.edgeCount ≤ b.maxEdges
  fanout_le : ∀ k, (g.children k).card ≤ b.maxFanout

theorem Sound.empty : Sound b Dependencies.empty where
  acyclic k h := by
    obtain ⟨x, hx, -⟩ := Relation.TransGen.head'_iff.mp h
    simp [Edge, children, Dependencies.empty] at hx
  edgeCount_eq := rfl
  nodes k := by simp [Edge, children, Dependencies.empty]
  nodes_le := Nat.zero_le _
  edgeCount_le := Nat.zero_le _
  fanout_le k := by simp [children, Dependencies.empty]

theorem Sound.same (h : Sound b g) (hs : Same g g') : Sound b g' := by
  have hedge : g'.Edge = g.Edge := by
    funext x y
    rw [Edge, Edge, hs.children]
  refine ⟨?_, ?_, ?_, ?_, ?_, ?_⟩
  · rw [hedge]
    exact h.acyclic
  · rw [hs.edgeCount, hs.storedEdges]
    exact h.edgeCount_eq
  · rw [hedge, hs.nodes]
    exact h.nodes
  · rw [hs.nodes]
    exact h.nodes_le
  · rw [hs.edgeCount]
    exact h.edgeCount_le
  · rw [hs.children]
    exact h.fanout_le

/-- A path that uses the new edge comes to its beginning and goes on from its end. -/
theorem Added.path (h : Added b dependency dependent g g') {x y : Key}
    (hpath : Relation.TransGen g'.Edge x y) : Relation.TransGen g.Edge x y ∨
      Relation.ReflTransGen g.Edge x dependency ∧ Relation.ReflTransGen g.Edge dependent y := by
  induction hpath with
  | single hxy =>
    rcases (h.edge _ _).mp hxy with hold | ⟨rfl, rfl⟩
    · exact .inl (.single hold)
    · exact .inr ⟨.refl, .refl⟩
  | tail hrest hxy ih =>
    rcases (h.edge _ _).mp hxy with hold | ⟨rfl, rfl⟩
    · rcases ih with hpath | ⟨hto, hfrom⟩
      · exact .inl (hpath.tail hold)
      · exact .inr ⟨hto, hfrom.tail hold⟩
    · rcases ih with hpath | ⟨hto, hfrom⟩
      · exact .inr ⟨hpath.to_reflTransGen, .refl⟩
      · exact .inr ⟨hto, .refl⟩

theorem Sound.added (h : Sound b g) (ha : Added b dependency dependent g g') : Sound b g' where
  acyclic k hk := by
    rcases ha.path hk with hold | ⟨hto, hfrom⟩
    · exact h.acyclic k hold
    · exact ha.noWayBack (hfrom.trans hto)
  edgeCount_eq := by
    rw [ha.edgeCount, ha.storedEdges, ← h.edgeCount_eq]
    push_cast
    ring
  nodes k := by
    simp only [ha.nodes, h.nodes, ha.edge]
    constructor
    · rintro (⟨x, hx | hx⟩ | rfl | rfl)
      · exact ⟨x, .inl (.inl hx)⟩
      · exact ⟨x, .inr (.inl hx)⟩
      · exact ⟨dependent, .inl (.inr ⟨rfl, rfl⟩)⟩
      · exact ⟨dependency, .inr (.inr ⟨rfl, rfl⟩)⟩
    · rintro ⟨x, (hx | ⟨rfl, rfl⟩) | (hx | ⟨rfl, rfl⟩)⟩
      · exact .inl ⟨x, .inl hx⟩
      · exact .inr (.inl rfl)
      · exact .inl ⟨x, .inr hx⟩
      · exact .inr (.inr rfl)
  nodes_le := ha.nodes_le
  edgeCount_le := ha.edgeCount_le
  fanout_le k := (ha.fanout_le k).trans (max_le (h.fanout_le k) le_rfl)

/-- What every call keeps holds of the graph that the calls leave. -/
theorem built_induction {P : Dependencies → Prop} (hempty : P .empty)
    (hsame : ∀ {g g'}, P g → Same g g' → P g')
    (hadded : ∀ {g g' x y}, P g → Added b x y g g' → P g') (calls : List (Key × Key)) :
    P (built b calls) := by
  suffices h : ∀ g, P g → P
      (calls.foldl (fun g call => (g.addDependency b call.1 call.2).2) g) from h _ hempty
  induction calls with
  | nil => exact fun g hg => hg
  | cons call calls ih =>
    intro g hg
    rw [List.foldl_cons]
    apply ih
    have hcases : Same g (g.addDependency b call.1 call.2).2 ∨
        Added b call.1 call.2 g (g.addDependency b call.1 call.2).2 := addDependency_cases
    rcases hcases with hs | ha
    · exact hsame hg hs
    · exact hadded hg ha

theorem sound_built (b : GraphBounds) (calls : List (Key × Key)) : Sound b (built b calls) :=
  built_induction .empty Sound.same Sound.added calls

theorem valid_of_edge_built {calls : List (Key × Key)} :
    ∀ x y, (built b calls).Edge x y → validateCacheKey y = .ok () := by
  refine built_induction (P := fun g => ∀ x y, g.Edge x y → validateCacheKey y = .ok ())
    ?_ ?_ ?_ calls
  · intro x y hxy
    simp [Edge, children, Dependencies.empty] at hxy
  · intro g g' hg hs x y hxy
    rw [Edge, hs.children] at hxy
    exact hg x y hxy
  · intro g g' x' y' hg ha x y hxy
    rcases (ha.edge x y).mp hxy with hold | ⟨-, rfl⟩
    · exact hg x y hold
    · exact ha.valid

end Calls

end Dependencies

/-! ## Expansion -/

namespace DependencyGraph

variable {graph : DependencyGraph} {seeds seeds' : List Key}

/-- What the seeds reach. -/
def reached (graph : DependencyGraph) (seeds : List Key) : Set Key :=
  {k | Search.Reaches graph.dependents {v | v ∈ seeds} k}

/-- A traversal stays within the bounds: it reaches so many nodes at most, and none with
dependents at the maximal distance or beyond. -/
def WithinBounds (graph : DependencyGraph) (seeds : List Key) : Prop :=
  (graph.reached seeds).encard ≤ graph.maxInvalidationNodes ∧
    ∀ k, ¬Search.Deep graph.dependents graph.maxDepth {v | v ∈ seeds} k

theorem reached_congr (h : ∀ k, k ∈ seeds ↔ k ∈ seeds') :
    graph.reached seeds = graph.reached seeds' := by
  have hseeds : {v | v ∈ seeds} = {v | v ∈ seeds'} := Set.ext h
  unfold reached
  rw [hseeds]

theorem withinBounds_congr (h : ∀ k, k ∈ seeds ↔ k ∈ seeds') :
    graph.WithinBounds seeds ↔ graph.WithinBounds seeds' := by
  have hseeds : {v | v ∈ seeds} = {v | v ∈ seeds'} := Set.ext h
  unfold WithinBounds reached
  rw [hseeds]

theorem encard_of_nodup {l : List Key} (h : l.Nodup) : {k | k ∈ l}.encard = l.length := by
  have hset : {k | k ∈ l} = (l.toFinset : Set Key) := by
    ext k
    simp
  rw [hset, Set.encard_coe_eq_coe_finsetCard, List.toFinset_card_of_nodup h]

theorem expand_of_withinBounds (h : graph.WithinBounds seeds) :
    ∃ keys, graph.expand seeds = .ok keys ∧ (∀ k, k ∈ keys ↔ k ∈ graph.reached seeds) ∧
      keys.Pairwise (· < ·) := by
  have hends : Search.Ends graph.dependents graph.maxDepth {v | v ∈ seeds}
      graph.maxInvalidationNodes (Search.explore graph.dependents graph.maxDepth
        graph.maxInvalidationNodes [] (seeds.map (·, 0))) := Search.ends_explore_roots
  cases hr : Search.explore graph.dependents graph.maxDepth graph.maxInvalidationNodes []
      (seeds.map (·, 0)) with
  | error e =>
    rw [hr] at hends
    cases e with
    | nodes =>
      obtain ⟨l, hl, hlength, hall⟩ := hends
      have hle : {k | k ∈ l}.encard ≤ graph.maxInvalidationNodes := by
        exact (Set.encard_le_encard hall).trans h.1
      rw [encard_of_nodup hl, hlength, Nat.cast_le] at hle
      omega
    | depth =>
      obtain ⟨k, hk⟩ := hends
      exact absurd hk (h.2 k)
  | ok visited =>
    rw [hr] at hends
    refine ⟨visited.insertionSort (· ≤ ·), ?_, fun k => ?_, ?_⟩
    · unfold expand
      rw [hr]
      rfl
    · rw [List.mem_insertionSort, Search.mem_explore hr]
      rfl
    · have hnodup : (visited.insertionSort (· ≤ ·)).Nodup :=
        (List.perm_insertionSort _ visited).nodup_iff.mpr hends.1
      exact (List.pairwise_insertionSort (· ≤ ·) visited).imp₂ (fun _ _ hle hne => lt_of_le_of_ne hle hne) hnodup

theorem expand_of_not_withinBounds (h : ¬graph.WithinBounds seeds) :
    ∃ message, graph.expand seeds = .error (.dependencyGraphError message) := by
  have hends : Search.Ends graph.dependents graph.maxDepth {v | v ∈ seeds}
      graph.maxInvalidationNodes (Search.explore graph.dependents graph.maxDepth
        graph.maxInvalidationNodes [] (seeds.map (·, 0))) := Search.ends_explore_roots
  unfold expand
  cases hr : Search.explore graph.dependents graph.maxDepth graph.maxInvalidationNodes []
      (seeds.map (·, 0)) with
  | error e => cases e <;> exact ⟨_, rfl⟩
  | ok visited =>
    rw [hr] at hends
    obtain ⟨hnodup, hlength, hshallow⟩ := hends
    refine absurd ⟨?_, fun k hk => ?_⟩ h
    · have hset : graph.reached seeds = {k | k ∈ visited} := by
        ext k
        exact (Search.mem_explore hr k).symm
      rw [hset, encard_of_nodup hnodup]
      exact_mod_cast hlength
    · exact hshallow k ((Search.mem_explore hr k).mpr hk.1) hk

/-- The order and the repetition of the seeds do not matter. -/
theorem expand_congr (h : ∀ k, k ∈ seeds ↔ k ∈ seeds') :
    (graph.expand seeds').toOption = (graph.expand seeds).toOption := by
  by_cases hbounds : graph.WithinBounds seeds
  · have hbounds' := (withinBounds_congr h).mp hbounds
    obtain ⟨keys, hkeys, hmem, hsorted⟩ := expand_of_withinBounds hbounds
    obtain ⟨keys', hkeys', hmem', hsorted'⟩ := expand_of_withinBounds hbounds'
    have heq : keys' = keys := by
      refine List.Perm.eq_of_pairwise' hsorted' hsorted ?_
      refine (List.perm_ext_iff_of_nodup ?_ ?_).mpr fun k => ?_
      · exact hsorted'.imp ne_of_lt
      · exact hsorted.imp ne_of_lt
      · rw [hmem, hmem', reached_congr h]
    rw [hkeys, hkeys', heq]
  · have hbounds' := fun hb => hbounds ((withinBounds_congr h).mpr hb)
    obtain ⟨message, hraises⟩ := expand_of_not_withinBounds hbounds
    obtain ⟨message', hraises'⟩ := expand_of_not_withinBounds hbounds'
    rw [hraises, hraises']
    rfl

end DependencyGraph

/-- Whatever calls built a graph, it is acyclic, within its bounds, and its counters are right; and
from any seeds `expand` returns what they reach, sorted, or raises where the traversal would
leave its bounds, whatever the order and repetition of the seeds. -/
theorem dependency_graph_expands (b : GraphBounds) (calls : List (Key × Key)) :
    Dependencies.Sound b (.built b calls) ∧ ∀ seeds : List Key,
      ((Dependencies.builtGraph b calls).WithinBounds seeds →
        ∃ keys, (Dependencies.builtGraph b calls).expand seeds = .ok keys ∧
          (∀ k, k ∈ keys ↔ k ∈ (Dependencies.builtGraph b calls).reached seeds) ∧
          keys.Pairwise (· < ·)) ∧
      (¬(Dependencies.builtGraph b calls).WithinBounds seeds → ∃ message,
        (Dependencies.builtGraph b calls).expand seeds = .error (.dependencyGraphError message)) ∧
      ∀ seeds', (∀ k, k ∈ seeds ↔ k ∈ seeds') →
        ((Dependencies.builtGraph b calls).expand seeds').toOption =
          ((Dependencies.builtGraph b calls).expand seeds).toOption := by
  exact ⟨Dependencies.sound_built b calls, fun seeds =>
    ⟨DependencyGraph.expand_of_withinBounds, DependencyGraph.expand_of_not_withinBounds,
      fun _ => DependencyGraph.expand_congr⟩⟩

end Events
end MegaCache
