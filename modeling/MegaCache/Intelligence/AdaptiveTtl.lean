import MegaCache.Intelligence.Types

/-!
# The adaptive TTL

The TTL that is computed from the counters stays within its bounds, and more changes or
fewer accesses do not make it longer.  Over any calls the changes that were counted for a
key are fewer than its loads and its mutations.
-/

namespace MegaCache
namespace Intelligence

/-! ## The formula -/

theorem changeFactor_antitone : Antitone changeFactor := by
  intro x y hxy
  unfold changeFactor
  split_ifs <;> linarith

theorem reuseFactor_mono {x y f g : ℚ} (hxy : x ≤ y) (hfg : f ≤ g) :
    reuseFactor x f ≤ reuseFactor y g := by
  unfold reuseFactor
  split_ifs
  · exact min_le_min hfg le_rfl
  · exact min_le_min hfg (by norm_num)
  · exact (min_le_left _ _).trans hfg
  · linarith
  · exact min_le_min hfg le_rfl
  · exact (min_le_left _ _).trans hfg
  · linarith
  · linarith
  · exact hfg

theorem changeRate_mono (loads : ℕ) : Monotone (changeRate loads) := by
  intro changes changes' h
  unfold changeRate
  have hcast : (changes : ℚ) ≤ changes' := by exact_mod_cast h
  gcongr

/-- The bounds of the computed TTL. -/
theorem calculateAdaptiveTtl_bounds {configuredTtl minTtl maxTtl : ℤ} (hconfigured : 1 ≤ configuredTtl)
    (hmin : 1 ≤ minTtl) (hmax : minTtl ≤ maxTtl) (loads changes accesses : ℕ) :
    1 ≤ calculateAdaptiveTtl configuredTtl loads changes accesses minTtl maxTtl ∧
      calculateAdaptiveTtl configuredTtl loads changes accesses minTtl maxTtl ≤ configuredTtl ∧
      (2 ≤ loads →
        calculateAdaptiveTtl configuredTtl loads changes accesses minTtl maxTtl ≤ maxTtl ∧
        min configuredTtl minTtl ≤
          calculateAdaptiveTtl configuredTtl loads changes accesses minTtl maxTtl) := by
  unfold calculateAdaptiveTtl
  split_ifs with hloads
  · exact ⟨hconfigured, le_rfl, fun h => by omega⟩
  · dsimp only
    generalize roundHalfEven _ = value
    refine ⟨le_max_left _ _, ?_, fun _ => ⟨?_, ?_⟩⟩ <;> omega

/-- More changes or fewer accesses do not make the TTL longer. -/
theorem calculateAdaptiveTtl_le {configuredTtl minTtl maxTtl : ℤ} (hconfigured : 1 ≤ configuredTtl)
    (loads : ℕ) {changes changes' accesses accesses' : ℕ} (hchanges : changes ≤ changes')
    (haccesses : accesses' ≤ accesses) :
    calculateAdaptiveTtl configuredTtl loads changes' accesses' minTtl maxTtl ≤
      calculateAdaptiveTtl configuredTtl loads changes accesses minTtl maxTtl := by
  unfold calculateAdaptiveTtl
  split_ifs with hloads
  · exact le_rfl
  have hreuse : (accesses' : ℚ) / max 1 loads ≤ accesses / max 1 loads := by
    have hcast : (accesses' : ℚ) ≤ accesses := by exact_mod_cast haccesses
    gcongr
  have hfactor := reuseFactor_mono hreuse (changeFactor_antitone (changeRate_mono loads hchanges))
  have hpositive : (0 : ℚ) ≤ configuredTtl := by
    have hcast : (1 : ℚ) ≤ configuredTtl := by exact_mod_cast hconfigured
    linarith
  have hvalue := roundHalfEven_mono (mul_le_mul_of_nonneg_left hfactor hpositive)
  exact max_le_max le_rfl (min_le_min le_rfl (min_le_min le_rfl (max_le_max le_rfl hvalue)))

/-- The loads, changes and accesses for a call of `adaptive_ttl`. -/
def evidenceFor (c : Settings) (key : Key) (cacheClass : String) (st : State) : ℕ × ℕ × ℕ :=
  evidence (item c key cacheClass st.telemetry).1 (st.classes.get? (c.boundedClass cacheClass))

/-- The calls of `adaptive_ttl` that do not just return the configured TTL. -/
def Adapts (c : Settings) (key : Key) (cacheClass : String) (st : State) : Prop :=
  c.adaptiveTtlEnabled = true ∧ candidateFor c st.experiment key = true ∧
    2 ≤ (evidenceFor c key cacheClass st).1

section

variable {c : Settings} {key : Key} {cacheClass : String} {configuredTtl : ℤ} {st : State}

theorem adaptiveTtl_of_adapts (h : Adapts c key cacheClass st) :
    (adaptiveTtl c key cacheClass configuredTtl st).1 =
      calculateAdaptiveTtl configuredTtl (evidenceFor c key cacheClass st).1
        (evidenceFor c key cacheClass st).2.1 (evidenceFor c key cacheClass st).2.2
        c.minTtlSeconds c.maxTtlSeconds := by
  obtain ⟨henabled, hcandidate, -⟩ := h
  unfold adaptiveTtl
  rw [if_pos henabled]
  dsimp only
  rw [if_pos hcandidate]
  rfl

theorem adaptiveTtl_of_not_adapts (h : ¬Adapts c key cacheClass st) :
    (adaptiveTtl c key cacheClass configuredTtl st).1 = configuredTtl := by
  unfold adaptiveTtl
  split_ifs with henabled
  · dsimp only
    split_ifs with hcandidate
    · have hloads : ¬2 ≤ (evidenceFor c key cacheClass st).1 := fun hle =>
        h ⟨henabled, hcandidate, hle⟩
      exact if_pos (not_le.mp hloads)
    · rfl
  · rfl

theorem adaptiveTtl_bounds (hconfigured : 1 ≤ configuredTtl) :
    (1 ≤ (adaptiveTtl c key cacheClass configuredTtl st).1 ∧
      (adaptiveTtl c key cacheClass configuredTtl st).1 ≤ configuredTtl) ∧
      (Adapts c key cacheClass st →
        (adaptiveTtl c key cacheClass configuredTtl st).1 ≤ c.maxTtlSeconds ∧
        min configuredTtl c.minTtlSeconds ≤ (adaptiveTtl c key cacheClass configuredTtl st).1) := by
  by_cases h : Adapts c key cacheClass st
  · rw [adaptiveTtl_of_adapts h]
    obtain ⟨hpos, hle, hadapted⟩ := calculateAdaptiveTtl_bounds hconfigured c.ttl_ok.1 c.ttl_ok.2
      (evidenceFor c key cacheClass st).1 (evidenceFor c key cacheClass st).2.1
      (evidenceFor c key cacheClass st).2.2
    exact ⟨⟨hpos, hle⟩, fun _ => hadapted h.2.2⟩
  · rw [adaptiveTtl_of_not_adapts h]
    exact ⟨⟨hconfigured, le_rfl⟩, fun hadapts => absurd hadapts h⟩

end

/-! ## Calls -/

/-- The calls of the facade and of the origin cache, with what the storage answered. -/
inductive Event
  | get (now : ℚ) (timestamp : ℤ) (outcome : SaveOutcome) (key : Key) (state : CacheState)
  | put (key : Key) (value : SnapshotValue)
  | mset (values : List (Key × SnapshotValue))
  | delete (key : Key) (deleted : Bool)
  | deleteMany (keys : List Key) (deleted : ℕ)
  | recordOriginLoad (now : ℚ) (key : Key) (cacheClass : String) (durationSeconds : ℚ)
      (value : List UInt8)
  | adaptiveTtl (key : Key) (cacheClass : String) (configuredTtl : ℤ)

section

variable (c : Settings)

def step (st : State) : Event → State
  | .get now timestamp outcome key state => get c now timestamp outcome key state st
  | .put key value => put c key value st
  | .mset values => mset c values st
  | .delete key deleted => delete c key deleted st
  | .deleteMany keys deleted => deleteMany c keys deleted st
  | .recordOriginLoad now key cacheClass durationSeconds value =>
    recordOriginLoad c now key cacheClass durationSeconds value st
  | .adaptiveTtl key cacheClass configuredTtl => (adaptiveTtl c key cacheClass configuredTtl st).2

/-- The bodies that were loaded, with their keys. -/
def Event.loads : Event → List (Key × List UInt8)
  | .recordOriginLoad _ key _ _ value => [(key, value)]
  | _ => []

/-- The values that were put or deleted, with their keys. -/
def Event.mutations : Event → List (Key × List UInt8)
  | .put key value => [(key, encoded c value)]
  | .mset values => values.map fun q => (q.1, encoded c q.2)
  | .delete key deleted => if deleted then [(key, encoded c (.json .null))] else []
  | .deleteMany keys deleted => if deleted = 0 then [] else keys.map fun key => (key, encoded c (.json .null))
  | _ => []

/-- The state after calls from the start on. -/
def run (file : StateFile) (events : List Event) : State := events.foldl (step c) (init c file)

end

/-! ## What is counted -/

section

variable {c : Settings} {V : Type} {P P' : String → V → Prop} {d : OrderedDict String V}

/-- Every value of a dictionary has a property. -/
def Each (P : String → V → Prop) (d : OrderedDict String V) : Prop := ∀ k v, d.get? k = some v → P k v

theorem Each.mono (h : Each P d) (himp : ∀ k v, P k v → P' k v) : Each P' d := fun k v hv =>
  himp k v (h k v hv)

theorem Each.popFirst (h : Each P d) : Each P (popFirst d) := by
  unfold Intelligence.popFirst
  split
  · exact h
  · intro k v hv
    rw [OrderedDict.get?_erase] at hv
    split_ifs at hv
    exact h k v hv

/-- A key is touched and its value replaced. -/
theorem Each.touch (h : Each P d) (limit : ℕ) {key : String} {fresh : V} (hfresh : P key fresh)
    (himp : ∀ k v, P k v → P' k v) {f : V → V} (hf : ∀ v, P key v → P' key (f v)) :
    P key (touch limit key fresh d).1 ∧
      Each P' ((touch limit key fresh d).2.set key (f (touch limit key fresh d).1)) := by
  unfold Intelligence.touch
  cases hget : d.get? key with
  | some value =>
    have hvalue := h key value hget
    refine ⟨hvalue, ?_⟩
    intro k v hv
    simp only [OrderedDict.get?_set, OrderedDict.get?_moveToEnd] at hv
    split_ifs at hv with hk
    · obtain rfl := Option.some.inj hv
      subst hk
      exact hf value hvalue
    · exact himp k v (h k v hv)
  | none =>
    refine ⟨hfresh, ?_⟩
    have hkept : Each P (if limit ≤ d.size then Intelligence.popFirst d else d) := by
      split_ifs
      · exact h.popFirst
      · exact h
    dsimp only
    generalize (if limit ≤ d.size then Intelligence.popFirst d else d) = kept at hkept ⊢
    intro k v hv
    simp only [OrderedDict.get?_set] at hv
    split_ifs at hv with hk
    · obtain rfl := Option.some.inj hv
      subst hk
      exact hf fresh hfresh
    · exact himp k v (hkept k v hv)

end

/-- All values of the pairs with this key are the same. -/
def Same (l : List (Key × List UInt8)) (key : Key) : Prop :=
  ∀ data data', (key, data) ∈ l → (key, data') ∈ l → data = data'

/-- What is counted for a key, after these loads and mutations. -/
structure Counted (c : Settings) (loads mutations : List (Key × List UInt8)) (key : Key)
    (item : Telemetry) : Prop where
  load_mem : ∀ f, item.lastLoadFingerprint = some f →
    0 < item.loads ∧ ∃ body, (key, body) ∈ loads ∧ f = c.fingerprint body
  mutation_mem : ∀ f, item.lastFingerprint = some f →
    0 < item.mutations ∧ ∃ value, (key, value) ∈ mutations ∧ f = c.fingerprint value
  changes_le : item.changes ≤ (item.loads - 1) + (item.mutations - 1)
  changes_eq : Same loads key → Same mutations key → item.changes = 0

section

variable {c : Settings} {loads loads' mutations mutations' : List (Key × List UInt8)} {key : Key}
  {found : Telemetry} {st : State}

theorem Same.mono (h : Same loads' key) (hsub : loads ⊆ loads') : Same loads key :=
  fun _ _ hdata hdata' => h _ _ (hsub hdata) (hsub hdata')

theorem Counted.mono (h : Counted c loads mutations key found) (hloads : loads ⊆ loads')
    (hmutations : mutations ⊆ mutations') : Counted c loads' mutations' key found where
  load_mem f hf := by
    obtain ⟨hpos, body, hbody, heq⟩ := h.load_mem f hf
    exact ⟨hpos, body, hloads hbody, heq⟩
  mutation_mem f hf := by
    obtain ⟨hpos, value, hvalue, heq⟩ := h.mutation_mem f hf
    exact ⟨hpos, value, hmutations hvalue, heq⟩
  changes_le := h.changes_le
  changes_eq hsame hsame' := h.changes_eq (hsame.mono hloads) (hsame'.mono hmutations)

theorem Counted.fresh (cacheClass : String) : Counted c loads mutations key { cacheClass := cacheClass } where
  load_mem _ hf := by cases hf
  mutation_mem _ hf := by cases hf
  changes_le := Nat.zero_le _
  changes_eq _ _ := rfl

/-- A load is a change only if there was an earlier one with another body. -/
theorem Counted.loaded (h : Counted c loads mutations key found) {value : List UInt8}
    (hmem : (key, value) ∈ loads) (cacheClass : String) (now durationSeconds : ℚ) :
    Counted c loads mutations key (found.loaded cacheClass now durationSeconds (c.fingerprint value)) where
  load_mem f hf := ⟨Nat.succ_pos _, value, hmem, (Option.some.inj hf).symm⟩
  mutation_mem := h.mutation_mem
  changes_le := by
    have hle := h.changes_le
    simp only [Telemetry.loaded]
    cases hlast : found.lastLoadFingerprint with
    | none =>
      simp only [Option.any_none, Bool.false_eq_true, if_false]
      omega
    | some f =>
      have hpos := (h.load_mem f hlast).1
      split_ifs <;> omega
  changes_eq hsame hsame' := by
    have hzero := h.changes_eq hsame hsame'
    simp only [Telemetry.loaded]
    cases hlast : found.lastLoadFingerprint with
    | none => simpa using hzero
    | some f =>
      obtain ⟨-, body, hbody, rfl⟩ := h.load_mem f hlast
      rw [hsame body value hbody hmem]
      simpa using hzero

theorem Counted.mutated (h : Counted c loads mutations key found) {value : List UInt8}
    (hmem : (key, value) ∈ mutations) :
    Counted c loads mutations key (found.mutated (c.fingerprint value)) where
  load_mem := h.load_mem
  mutation_mem f hf := ⟨Nat.succ_pos _, value, hmem, (Option.some.inj hf).symm⟩
  changes_le := by
    have hle := h.changes_le
    simp only [Telemetry.mutated]
    cases hlast : found.lastFingerprint with
    | none =>
      simp only [Option.any_none, Bool.false_eq_true, if_false]
      omega
    | some f =>
      have hpos := (h.mutation_mem f hlast).1
      split_ifs <;> omega
  changes_eq hsame hsame' := by
    have hzero := h.changes_eq hsame hsame'
    simp only [Telemetry.mutated]
    cases hlast : found.lastFingerprint with
    | none => simpa using hzero
    | some f =>
      obtain ⟨-, earlier, hearlier, rfl⟩ := h.mutation_mem f hlast
      rw [hsame' earlier value hearlier hmem]
      simpa using hzero

/-- What the calls keep. -/
structure Inv (c : Settings) (loads mutations : List (Key × List UInt8)) (st : State) : Prop where
  items : Each (Counted c loads mutations) st.telemetry
  classes : Each (fun _ counts => counts.changes ≤ counts.loads) st.classes

theorem Inv.mono (h : Inv c loads mutations st) (hloads : loads ⊆ loads')
    (hmutations : mutations ⊆ mutations') : Inv c loads' mutations' st :=
  ⟨h.items.mono fun _ _ hcounted => hcounted.mono hloads hmutations, h.classes⟩

/-- An update of the item of a key. -/
theorem Inv.item (h : Inv c loads mutations st) (key : Key) (cacheClass : String)
    {f : Telemetry → Telemetry}
    (hf : ∀ v, Counted c loads mutations key v → Counted c loads mutations key (f v)) :
    Each (Counted c loads mutations)
      ((item c key cacheClass st.telemetry).2.set key (f (item c key cacheClass st.telemetry).1)) :=
  (h.items.touch c.telemetryMaxKeys (.fresh _) (fun _ _ hcounted => hcounted) hf).2

theorem Inv.countClass (h : Inv c loads mutations st) (cacheClass : String) {f : ClassCounts → ClassCounts}
    (hf : ∀ v : ClassCounts, v.changes ≤ v.loads → (f v).changes ≤ (f v).loads) :
    Each (fun _ counts => counts.changes ≤ counts.loads) (countClass c cacheClass f st.classes) :=
  have hfresh : ({} : ClassCounts).changes ≤ ({} : ClassCounts).loads := le_rfl
  (h.classes.touch c.telemetryMaxClasses hfresh (fun _ _ hle => hle) hf).2

theorem Inv.recordOriginLoad (h : Inv c loads mutations st) {value : List UInt8}
    (hmem : (key, value) ∈ loads) (now : ℚ) (cacheClass : String) (durationSeconds : ℚ) :
    Inv c loads mutations (recordOriginLoad c now key cacheClass durationSeconds value st) := by
  unfold Intelligence.recordOriginLoad
  split_ifs
  · refine ⟨h.item key cacheClass fun v hv => hv.loaded hmem _ now durationSeconds, ?_⟩
    refine h.countClass _ ?_
    intro v hv
    dsimp only
    split_ifs <;> omega
  · exact h

theorem Inv.recordMutation (h : Inv c loads mutations st) {value : SnapshotValue}
    (hmem : (key, encoded c value) ∈ mutations) : Inv c loads mutations (recordMutation c key value st) :=
  ⟨h.item key _ fun _ hv => hv.mutated hmem, h.classes⟩

theorem saveState_eq (outcome : SaveOutcome) (st : State) :
    (saveState c outcome st).telemetry = st.telemetry ∧ (saveState c outcome st).classes = st.classes := by
  unfold saveState
  split_ifs
  · cases outcome <;> exact ⟨rfl, rfl⟩
  · exact ⟨rfl, rfl⟩

theorem recordExperiment_eq (timestamp : ℤ) (outcome : SaveOutcome) (key : Key) (state : CacheState)
    (st : State) :
    (recordExperiment c timestamp outcome key state st).telemetry = st.telemetry ∧
      (recordExperiment c timestamp outcome key state st).classes = st.classes := by
  unfold recordExperiment
  split_ifs
  · exact ⟨rfl, rfl⟩
  · dsimp only
    split_ifs
    · exact saveState_eq outcome _
    · exact ⟨rfl, rfl⟩

theorem Inv.recordAccess (h : Inv c loads mutations st) (now : ℚ) (timestamp : ℤ)
    (outcome : SaveOutcome) (key : Key) (state : CacheState) :
    Inv c loads mutations (recordAccess c now timestamp outcome key state st) := by
  unfold Intelligence.recordAccess
  constructor
  · rw [(recordExperiment_eq ..).1]
    exact h.item key _ fun _ hv => ⟨hv.load_mem, hv.mutation_mem, hv.changes_le, hv.changes_eq⟩
  · rw [(recordExperiment_eq ..).2]
    exact h.countClass _ fun _ hv => hv

theorem Inv.mutationsFold (values : List (Key × SnapshotValue)) (h : Inv c loads mutations st)
    (hmem : ∀ q ∈ values, (q.1, encoded c q.2) ∈ mutations) :
    Inv c loads mutations (values.foldl (fun st q => Intelligence.recordMutation c q.1 q.2 st) st) := by
  induction values generalizing st with
  | nil => exact h
  | cons q values ih =>
    refine ih (h.recordMutation (hmem q List.mem_cons_self)) ?_
    intro q' hq'
    exact hmem q' (List.mem_cons_of_mem _ hq')

/-- One call, whose loads and mutations are among those that are looked at. -/
theorem Inv.step (h : Inv c loads mutations st) (event : Event) (hloads : event.loads ⊆ loads)
    (hmutations : event.mutations c ⊆ mutations) : Inv c loads mutations (step c st event) := by
  cases event with
  | get now timestamp outcome key state =>
    simp only [Intelligence.step, Intelligence.get]
    split_ifs
    · exact h.recordAccess now timestamp outcome key state
    · exact h
  | put key value =>
    simp only [Intelligence.step, Intelligence.put]
    split_ifs
    · exact h.recordMutation (hmutations (by simp [Event.mutations]))
    · exact h
  | mset values =>
    simp only [Intelligence.step, Intelligence.mset]
    split_ifs
    · refine h.mutationsFold values ?_
      intro q hq
      exact hmutations (List.mem_map.mpr ⟨q, hq, rfl⟩)
    · exact h
  | delete key deleted =>
    simp only [Intelligence.step, Intelligence.delete]
    split_ifs with hdeleted
    · exact h.recordMutation (hmutations (by simp [Event.mutations, hdeleted.2]))
    · exact h
  | deleteMany keys deleted =>
    simp only [Intelligence.step, Intelligence.deleteMany]
    split_ifs with hdeleted
    · have hfold := h.mutationsFold (keys.map fun key => (key, .json .null)) (by
        intro q hq
        obtain ⟨key, hkey, rfl⟩ := List.mem_map.mp hq
        exact hmutations (by simp [Event.mutations, hdeleted.2, hkey]))
      rwa [List.foldl_map] at hfold
    · exact h
  | recordOriginLoad now key cacheClass durationSeconds value =>
    exact h.recordOriginLoad (hloads (by simp [Event.loads])) now cacheClass durationSeconds
  | adaptiveTtl key cacheClass configuredTtl =>
    have hitem := h.item key cacheClass (f := fun v => { v with baseTtlSeconds := some configuredTtl })
      fun _ hv => ⟨hv.load_mem, hv.mutation_mem, hv.changes_le, hv.changes_eq⟩
    simp only [Intelligence.step, Intelligence.adaptiveTtl]
    split_ifs
    · exact ⟨hitem, h.classes⟩
    · exact ⟨hitem, h.classes⟩
    · exact h

theorem init_eq (file : StateFile) :
    (init c file).telemetry = OrderedDict.empty ∧ (init c file).classes = OrderedDict.empty := by
  unfold init
  split
  · unfold loadState
    split_ifs <;> exact ⟨rfl, rfl⟩
  · exact ⟨rfl, rfl⟩

theorem run_inv (c : Settings) (file : StateFile) (events : List Event) :
    Inv c (events.flatMap Event.loads) (events.flatMap (Event.mutations c)) (run c file events) := by
  unfold run
  have hstart : Inv c (events.flatMap Event.loads) (events.flatMap (Event.mutations c)) (init c file) := by
    constructor
    · rw [(init_eq file).1]
      intro k v hv
      cases hv
    · rw [(init_eq file).2]
      intro k v hv
      cases hv
  have hmem : ∀ event ∈ events, event.loads ⊆ events.flatMap Event.loads ∧
      event.mutations c ⊆ events.flatMap (Event.mutations c) := by
    intro event hevent
    exact ⟨fun _ hq => List.mem_flatMap.mpr ⟨event, hevent, hq⟩,
      fun _ hq => List.mem_flatMap.mpr ⟨event, hevent, hq⟩⟩
  generalize events.flatMap Event.loads = loads at hstart hmem ⊢
  generalize events.flatMap (Event.mutations c) = mutations at hstart hmem ⊢
  generalize init c file = st at hstart
  induction events generalizing st with
  | nil => exact hstart
  | cons event events ih =>
    obtain ⟨hloads, hmutations⟩ := hmem event List.mem_cons_self
    exact ih (fun e he => hmem e (List.mem_cons_of_mem _ he)) _ (hstart.step event hloads hmutations)

end

/-- The bounds of the adaptive TTL, and of the counters it is computed from over any calls. -/
theorem adaptive_ttl (c : Settings) :
    (∀ (configuredTtl minTtl maxTtl : ℤ) (loads changes accesses : ℕ),
      1 ≤ configuredTtl → 1 ≤ minTtl → minTtl ≤ maxTtl →
      1 ≤ calculateAdaptiveTtl configuredTtl loads changes accesses minTtl maxTtl ∧
        calculateAdaptiveTtl configuredTtl loads changes accesses minTtl maxTtl ≤ configuredTtl ∧
        (2 ≤ loads →
          calculateAdaptiveTtl configuredTtl loads changes accesses minTtl maxTtl ≤ maxTtl ∧
          min configuredTtl minTtl ≤
            calculateAdaptiveTtl configuredTtl loads changes accesses minTtl maxTtl) ∧
        ∀ changes' accesses', changes ≤ changes' → accesses' ≤ accesses →
          calculateAdaptiveTtl configuredTtl loads changes' accesses' minTtl maxTtl ≤
            calculateAdaptiveTtl configuredTtl loads changes accesses minTtl maxTtl) ∧
    (∀ (st : State) (key : Key) (cacheClass : String) (configuredTtl : ℤ), 1 ≤ configuredTtl →
      (1 ≤ (adaptiveTtl c key cacheClass configuredTtl st).1 ∧
        (adaptiveTtl c key cacheClass configuredTtl st).1 ≤ configuredTtl) ∧
        (Adapts c key cacheClass st →
          (adaptiveTtl c key cacheClass configuredTtl st).1 ≤ c.maxTtlSeconds ∧
          min configuredTtl c.minTtlSeconds ≤ (adaptiveTtl c key cacheClass configuredTtl st).1) ∧
        (¬Adapts c key cacheClass st →
          (adaptiveTtl c key cacheClass configuredTtl st).1 = configuredTtl)) ∧
    ∀ (file : StateFile) (events : List Event),
      (∀ key found, (run c file events).telemetry.get? key = some found →
        found.changes ≤ (found.loads - 1) + (found.mutations - 1) ∧
        (found.mutations ≤ 1 → changeRate found.loads found.changes ≤ 1) ∧
        (Same (events.flatMap Event.loads) key → Same (events.flatMap (Event.mutations c)) key →
          found.changes = 0)) ∧
      ∀ name counts, (run c file events).classes.get? name = some counts →
        counts.changes ≤ counts.loads ∧ (2 ≤ counts.loads → changeRate counts.loads counts.changes ≤ 2) := by
  refine ⟨?_, ?_, ?_⟩
  · intro configuredTtl minTtl maxTtl loads changes accesses hconfigured hmin hmax
    obtain ⟨hpos, hle, hadapted⟩ :=
      calculateAdaptiveTtl_bounds hconfigured hmin hmax loads changes accesses
    exact ⟨hpos, hle, hadapted, fun _ _ hchanges haccesses =>
      calculateAdaptiveTtl_le hconfigured loads hchanges haccesses⟩
  · intro st key cacheClass configuredTtl hconfigured
    obtain ⟨hrange, hadapted⟩ := @adaptiveTtl_bounds c key cacheClass _ st hconfigured
    exact ⟨hrange, hadapted, adaptiveTtl_of_not_adapts⟩
  · intro file events
    have hinv := run_inv c file events
    constructor
    · intro key found hfound
      have hcounted := hinv.items key found hfound
      refine ⟨hcounted.changes_le, ?_, hcounted.changes_eq⟩
      intro hmutations
      have hle := hcounted.changes_le
      have hchanges : found.changes ≤ max 1 (found.loads - 1) := by omega
      have hcast : (found.changes : ℚ) ≤ (max 1 (found.loads - 1) : ℕ) := by exact_mod_cast hchanges
      unfold changeRate
      rw [div_le_one (by positivity)]
      simpa using hcast
    · intro name counts hcounts
      have hle := hinv.classes name counts hcounts
      refine ⟨hle, ?_⟩
      intro hloads
      have hchanges : counts.changes ≤ 2 * max 1 (counts.loads - 1) := by omega
      have hcast : (counts.changes : ℚ) ≤ (2 * max 1 (counts.loads - 1) : ℕ) := by
        exact_mod_cast hchanges
      unfold changeRate
      rw [div_le_iff₀ (by positivity)]
      simpa using hcast

/-! ## Puts that count as changes -/

/-- A digest that tells texts of different lengths apart. -/
def lengthHashes : Controlplane.Hashes where
  hmac _ message := ⟨List.replicate 32 (UInt8.ofNat message.length), by simp⟩
  sha256 data := ⟨List.replicate 32 (UInt8.ofNat data.length), by simp⟩

def smallSettings : Settings where
  enabled := true
  adaptiveTtl := true
  minTtlSeconds := 5
  maxTtlSeconds := 3600
  telemetryMaxKeys := 10000
  telemetryMaxClasses := 128
  hotKeyThreshold := 100
  hotKeyWindowSeconds := 60
  hotKeyExtraReplicas := 1
  experiment := false
  experimentId := "adaptive-ttl-v1"
  experimentAllocationPercent := 0
  experimentMinSamples := 100
  experimentMaxMissRegression := 1/20
  hasStateFile := false
  hashes := lengthHashes
  repr _ := []
  sixDigits _ := ""
  ttl_ok := by decide
  bounds_pos := by decide
  allocation_le := by decide
  regression_nonneg := by norm_num

/-- Two puts of different values are a change of a key that was never loaded. -/
theorem puts_counted : ¬ ∀ (c : Settings) (file : StateFile) (events : List Event) (key : Key)
    (found : Telemetry), (run c file events).telemetry.get? key = some found →
    found.changes ≤ found.loads - 1 := by
  intro h
  have hcounts : ((run smallSettings .absent [.put "key" (.bytes [1]), .put "key" (.bytes [1, 2])]).telemetry.get?
      "key").map (fun found => (found.changes, found.loads)) = some (1, 0) := by
    decide
  obtain ⟨found, hfound, heq⟩ := Option.map_eq_some_iff.mp hcounts
  have hle := h _ _ _ _ found hfound
  rw [Prod.mk.injEq] at heq
  omega

end Intelligence
end MegaCache
