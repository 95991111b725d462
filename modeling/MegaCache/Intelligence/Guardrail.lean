import MegaCache.Intelligence.AdaptiveTtl

/-!
# The guardrail of the experiment

The experiment is rolled back at the first access after which both arms have enough samples
and the candidate misses too often, and never runs again: not in this process, and not after
a restart when the decision was written.
-/

namespace MegaCache
namespace Intelligence

/-- The accesses that a call records. -/
def Event.access : Event → Option (Key × CacheState)
  | .get _ _ _ key state => some (key, state)
  | _ => none

def Experiment.samples (e : Experiment) : ℕ × ℕ × ℕ × ℕ :=
  (e.controlHits, e.controlMisses, e.candidateHits, e.candidateMisses)

/-- One more sample, in the arm of its key. -/
def Experiment.sample (c : Settings) (e : Experiment) (access : Key × CacheState) : Experiment :=
  e.count (runningArm c access.1) (isMiss access.2)

/-- The samples of these accesses in both arms. -/
def tally (c : Settings) (accesses : List (Key × CacheState)) : Experiment :=
  accesses.foldl (Experiment.sample c) { status := .running }

section

variable {c : Settings} {e : Experiment} {st : State} {key : Key} {state : CacheState} {timestamp : ℤ}
  {outcome : SaveOutcome} {event : Event}

/-! ## One call -/

theorem fails_congr {e e' : Experiment} (h : e.samples = e'.samples) : e.fails c ↔ e'.fails c := by
  simp only [Experiment.samples, Prod.mk.injEq] at h
  obtain ⟨h₁, h₂, h₃, h₄⟩ := h
  simp only [Experiment.fails, Experiment.controlTotal, Experiment.candidateTotal,
    Experiment.controlRate, Experiment.candidateRate, h₁, h₂, h₃, h₄]

theorem sample_congr {e e' : Experiment} (h : e.samples = e'.samples) (access : Key × CacheState) :
    (e.sample c access).samples = (e'.sample c access).samples := by
  simp only [Experiment.samples, Prod.mk.injEq] at h
  obtain ⟨h₁, h₂, h₃, h₄⟩ := h
  unfold Experiment.sample Experiment.count Experiment.samples
  split <;> simp only [h₁, h₂, h₃, h₄]

theorem sample_status (e : Experiment) (access : Key × CacheState) :
    (e.sample c access).status = e.status := by
  unfold Experiment.sample Experiment.count
  split <;> rfl

/-- No samples do not fail. -/
theorem not_fails_nil : ¬(tally c []).fails c := by
  rintro ⟨hcontrol, -, -⟩
  have hpos := c.bounds_pos.2.2.2.2
  simp only [tally, List.foldl_nil, Experiment.controlTotal] at hcontrol
  omega

theorem arm_running (henabled : c.experimentEnabled = true) (hrunning : e.status = .running) (key : Key) :
    arm c e key = runningArm c key := by
  unfold arm
  rw [if_neg]
  rintro (h | h)
  · rw [henabled] at h
    cases h
  · exact h hrunning

theorem saveState_experiment (outcome : SaveOutcome) (st : State) :
    (saveState c outcome st).experiment.status = st.experiment.status ∧
      (saveState c outcome st).experiment.samples = st.experiment.samples := by
  unfold saveState
  split_ifs
  · cases outcome <;> exact ⟨rfl, rfl⟩
  · exact ⟨rfl, rfl⟩

variable (st timestamp outcome key state) in
/-- An access while the experiment runs is a sample, and the end of the experiment if it
fails with it. -/
theorem recordExperiment_running (henabled : c.experimentEnabled = true)
    (hrunning : st.experiment.status = .running) :
    (recordExperiment c timestamp outcome key state st).experiment.samples =
        (st.experiment.sample c (key, state)).samples ∧
      (recordExperiment c timestamp outcome key state st).experiment.status =
        if (st.experiment.sample c (key, state)).fails c then .rolledBack else .running := by
  have hcount : st.experiment.count (arm c st.experiment key) (isMiss state) =
      st.experiment.sample c (key, state) := by
    rw [arm_running henabled hrunning]
    rfl
  unfold recordExperiment
  rw [if_neg (by simp [henabled, hrunning]), hcount]
  dsimp only
  split_ifs with hfails
  · obtain ⟨hstatus, hsamples⟩ := saveState_experiment (c := c) outcome { st with
      experiment := { st.experiment.sample c (key, state) with
        status := .rolledBack
        rollbackReason := .str (rollbackReason c (st.experiment.sample c (key, state))) }
      audit := lastHundred (st.audit ++ [rollbackDecision
        (rollbackReason c (st.experiment.sample c (key, state))) timestamp]) }
    exact ⟨hsamples, hstatus⟩
  · exact ⟨rfl, (sample_status _ _).trans hrunning⟩

theorem recordExperiment_stopped (hstopped : st.experiment.status ≠ .running) :
    recordExperiment c timestamp outcome key state st = st :=
  if_pos (.inr hstopped)

theorem mset_experiment (values : List (Key × SnapshotValue)) (st : State) :
    (values.foldl (fun st q => recordMutation c q.1 q.2 st) st).experiment = st.experiment ∧
      (values.foldl (fun st q => recordMutation c q.1 q.2 st) st).file = st.file := by
  induction values generalizing st with
  | nil => exact ⟨rfl, rfl⟩
  | cons q values ih => exact ih (recordMutation c q.1 q.2 st)

/-- Only accesses touch the experiment and its file. -/
theorem step_experiment (hevent : event.access = none) :
    (step c st event).experiment = st.experiment ∧ (step c st event).file = st.file := by
  cases event with
  | get => cases hevent
  | put key value =>
    simp only [step, put]
    split_ifs <;> exact ⟨rfl, rfl⟩
  | mset values =>
    simp only [step, mset]
    split_ifs
    · exact mset_experiment values st
    · exact ⟨rfl, rfl⟩
  | delete key deleted =>
    simp only [step, delete]
    split_ifs <;> exact ⟨rfl, rfl⟩
  | deleteMany keys deleted =>
    simp only [step, deleteMany]
    split_ifs
    · have hfold := mset_experiment (c := c) (keys.map fun key => (key, .json .null)) st
      rwa [List.foldl_map] at hfold
    · exact ⟨rfl, rfl⟩
  | recordOriginLoad now key cacheClass durationSeconds value =>
    simp only [step, recordOriginLoad]
    split_ifs <;> exact ⟨rfl, rfl⟩
  | adaptiveTtl key cacheClass configuredTtl =>
    simp only [step, adaptiveTtl]
    split_ifs <;> exact ⟨rfl, rfl⟩

theorem enabled_of_experiment (henabled : c.experimentEnabled = true) : c.enabled = true :=
  (Bool.and_eq_true_iff.mp henabled).2

variable (st timestamp outcome key state) in
/-- An access, as far as the experiment is concerned. -/
theorem step_access (hon : c.enabled = true) (now : ℚ) :
    ∃ st', st'.experiment = st.experiment ∧ st'.file = st.file ∧ st'.audit = st.audit ∧
      step c st (.get now timestamp outcome key state) =
        recordExperiment c timestamp outcome key state st' := by
  refine ⟨{ st with
    telemetry := (item c key (classForKey key) st.telemetry).2.set key
      ((item c key (classForKey key) st.telemetry).1.accessed c now state)
    classes := countClass c (item c key (classForKey key) st.telemetry).1.cacheClass
      (fun counts =>
        { counts with
          accesses := counts.accesses + 1
          hits := counts.hits + if isMiss state then 0 else 1
          misses := counts.misses + if isMiss state then 1 else 0 }) st.classes }, rfl, rfl, rfl, ?_⟩
  simp only [step, get]
  rw [if_pos hon]
  rfl

/-! ## The rollback -/

/-- What the experiment is after these accesses: it has the samples of all of them while it
runs, and it runs as long as no first part of them fails. -/
structure Follows (c : Settings) (accesses : List (Key × CacheState)) (e : Experiment) : Prop where
  running : (∀ p, p <+: accesses → ¬(tally c p).fails c) → e.status = .running ∧
    e.samples = (tally c accesses).samples
  stopped : ∀ p, p <+: accesses → (tally c p).fails c → e.status = .rolledBack

theorem tally_append (accesses : List (Key × CacheState)) (access : Key × CacheState) :
    tally c (accesses ++ [access]) = (tally c accesses).sample c access := by
  simp [tally]

theorem Follows.access (henabled : c.experimentEnabled = true) {accesses : List (Key × CacheState)}
    (h : Follows c accesses st.experiment) :
    Follows c (accesses ++ [(key, state)])
      (recordExperiment c timestamp outcome key state st).experiment := by
  by_cases hbefore : ∃ p, p <+: accesses ∧ (tally c p).fails c
  · -- the experiment was over before
    obtain ⟨p, hp, hfails⟩ := hbefore
    have hstatus := h.stopped p hp hfails
    rw [recordExperiment_stopped (by rw [hstatus]; decide)]
    refine ⟨fun hnone => ?_, fun _ _ _ => hstatus⟩
    exact absurd hfails (hnone p (hp.trans (List.prefix_append _ _)))
  · push Not at hbefore
    obtain ⟨hrunning, hsamples⟩ := h.running hbefore
    obtain ⟨hnext, hstatus⟩ :=
      recordExperiment_running st key state timestamp outcome henabled hrunning
    have hsame := sample_congr (c := c) hsamples (key, state)
    rw [← tally_append] at hsame
    rw [if_congr (fails_congr hsame) rfl rfl] at hstatus
    constructor
    · intro hnone
      rw [if_neg (hnone _ (List.prefix_refl _))] at hstatus
      exact ⟨hstatus, hnext.trans hsame⟩
    · intro p hp hfails
      rcases List.prefix_concat_iff.mp hp with rfl | hp
      · rw [if_pos hfails] at hstatus
        exact hstatus
      · exact absurd hfails (hbefore p hp)

theorem Follows.step (henabled : c.experimentEnabled = true) {accesses : List (Key × CacheState)}
    (h : Follows c accesses st.experiment) (event : Event) :
    Follows c (accesses ++ event.access.toList) (step c st event).experiment := by
  cases event with
  | get now timestamp outcome key state =>
    obtain ⟨st', hexperiment, -, -, hstep⟩ :=
      step_access st key state timestamp outcome (enabled_of_experiment henabled) now
    rw [hstep]
    rw [← hexperiment] at h
    exact h.access henabled
  | put | mset | delete | deleteMany | recordOriginLoad | adaptiveTtl =>
    rw [(step_experiment rfl).1]
    simpa [Event.access] using h

theorem run_follows (henabled : c.experimentEnabled = true) (file : StateFile)
    (hstart : (init c file).experiment.status = .running) (events : List Event) :
    Follows c (events.filterMap Event.access) (run c file events).experiment := by
  induction events using List.reverseRecOn with
  | nil =>
    have hsamples : (init c file).experiment.samples = (tally c []).samples := by
      unfold init
      split
      · unfold loadState
        split_ifs <;> rfl
      · rfl
    refine ⟨fun _ => ⟨hstart, hsamples⟩, ?_⟩
    intro p hp hfails
    rw [List.prefix_nil.mp hp] at hfails
    exact absurd hfails not_fails_nil
  | append_singleton events event ih =>
    have hnext := ih.step henabled event
    have hlast : [event].filterMap Event.access = event.access.toList := by
      cases h : event.access <;> simp [h]
    rw [List.filterMap_append, hlast, run, List.foldl_append]
    exact hnext

/-- The experiment is over exactly when the samples of some first accesses fail. -/
theorem run_rolledBack (henabled : c.experimentEnabled = true) (file : StateFile)
    (hstart : (init c file).experiment.status = .running) (events : List Event) :
    (run c file events).experiment.status = .rolledBack ↔
      ∃ p, p <+: events.filterMap Event.access ∧ (tally c p).fails c := by
  have hfollows := run_follows henabled file hstart events
  constructor
  · intro hstatus
    by_contra hnone
    push Not at hnone
    have hrunning := (hfollows.running hnone).1
    rw [hstatus] at hrunning
    cases hrunning
  · rintro ⟨p, hp, hfails⟩
    exact hfollows.stopped p hp hfails

/-! ## The latch -/

/-- Once it is over, no call touches the experiment or its file. -/
theorem step_stopped (hstopped : st.experiment.status = .rolledBack) (event : Event) :
    (step c st event).experiment = st.experiment ∧ (step c st event).file = st.file := by
  cases event with
  | get now timestamp outcome key state =>
    by_cases hon : c.enabled = true
    · obtain ⟨st', hexperiment, hfile, -, hstep⟩ :=
        step_access st key state timestamp outcome hon now
      rw [hstep, recordExperiment_stopped (by rw [hexperiment, hstopped]; decide)]
      exact ⟨hexperiment, hfile⟩
    · simp only [step, get]
      rw [if_neg hon]
      exact ⟨rfl, rfl⟩
  | put | mset | delete | deleteMany | recordOriginLoad | adaptiveTtl => exact step_experiment rfl

/-- And no TTL is adapted. -/
theorem adaptiveTtl_stopped (henabled : c.experimentEnabled = true)
    (hstopped : st.experiment.status = .rolledBack) (key : Key) (cacheClass : String)
    (configuredTtl : ℤ) : (adaptiveTtl c key cacheClass configuredTtl st).1 = configuredTtl := by
  apply adaptiveTtl_of_not_adapts
  rintro ⟨-, hcandidate, -⟩
  unfold candidateFor arm at hcandidate
  rw [if_pos henabled, if_pos (.inr (by rw [hstopped]; decide))] at hcandidate
  exact absurd hcandidate (by decide)

/-- A document that tells that the experiment with this name is over. -/
def Persisted (experimentId : String) (file : StateFile) : Prop :=
  ∃ fields, file = .document (.obj fields) ∧
    Controlplane.isText (Controlplane.item fields "experiment_id") experimentId = true ∧
    Controlplane.isText (Controlplane.item fields "status") "rolled_back" = true

/-- The document that is written at the rollback. -/
theorem persisted_stateDocument (hstopped : e.status = .rolledBack) (audit : List Json) :
    Persisted c.experimentId (.document (stateDocument c e audit)) := by
  refine ⟨_, rfl, ?_, ?_⟩
  · simp [Controlplane.isText, Controlplane.item, List.lookup]
  · simp [Controlplane.isText, Controlplane.item, List.lookup, hstopped, statusText]

theorem init_persisted {file : StateFile} (hfile : c.hasStateFile = true)
    (h : Persisted c.experimentId file) :
    (init c file).experiment.status = .rolledBack ∧ (init c file).file = file := by
  obtain ⟨fields, rfl, hid, hstatus⟩ := h
  simp only [init, hfile, if_true, loadState, hid, hstatus, and_self, fresh]

/-- The rollback is in the file unless writing it has failed. -/
theorem step_persisted (henabled : c.experimentEnabled = true) (hfile : c.hasStateFile = true)
    (hrunning : st.experiment.status = .running) {now : ℚ} (houtcome : outcome ≠ .failed)
    (hstopped : (step c st (.get now timestamp outcome key state)).experiment.status = .rolledBack) :
    Persisted c.experimentId (step c st (.get now timestamp outcome key state)).file := by
  obtain ⟨st', hexperiment, -, -, hstep⟩ :=
    step_access st key state timestamp outcome (enabled_of_experiment henabled) now
  rw [← hexperiment] at hrunning
  rw [hstep] at hstopped ⊢
  unfold recordExperiment at hstopped ⊢
  rw [if_neg (by simp [henabled, hrunning])] at hstopped ⊢
  dsimp only at hstopped ⊢
  split_ifs at hstopped ⊢ with hfails
  · unfold saveState
    rw [if_pos hfile]
    cases outcome with
    | failed => exact absurd rfl houtcome
    | written => exact persisted_stateDocument rfl _
    | writtenThenFailed => exact persisted_stateDocument rfl _
  · have hstatus := sample_status (c := c) st'.experiment (key, state)
    rw [arm_running henabled hrunning] at hstopped
    rw [hrunning] at hstatus
    exact absurd (hstatus.symm.trans hstopped) (by decide)

end

/-- A process with its settings. -/
structure Process where
  settings : Settings
  state : State

/-- A call, or a restart with settings that may be others. -/
inductive Act
  | call (event : Event)
  | restart (settings : Settings)

def Process.act (p : Process) : Act → Process
  | .call event => ⟨p.settings, step p.settings p.state event⟩
  | .restart settings => ⟨settings, init settings p.state.file⟩

/-- A restart goes on with the same experiment and a state file. -/
def Act.Continues (experimentId : String) : Act → Prop
  | .call _ => True
  | .restart settings => settings.experimentEnabled = true ∧ settings.hasStateFile = true ∧
      settings.experimentId = experimentId

/-- The experiment is over, here and in the file. -/
structure Latched (experimentId : String) (p : Process) : Prop where
  enabled : p.settings.experimentEnabled = true
  stopped : p.state.experiment.status = .rolledBack
  persisted : Persisted experimentId p.state.file

section

variable {experimentId : String} {p : Process}

theorem Latched.act (h : Latched experimentId p) {act : Act} (hact : act.Continues experimentId) :
    Latched experimentId (p.act act) := by
  cases act with
  | call event =>
    obtain ⟨hexperiment, hfile⟩ := step_stopped (c := p.settings) h.stopped event
    refine ⟨h.enabled, ?_, ?_⟩
    · exact (congrArg Experiment.status hexperiment).trans h.stopped
    · have hpersisted := h.persisted
      rw [← hfile] at hpersisted
      exact hpersisted
  | restart settings =>
    obtain ⟨henabled, hfile, rfl⟩ := hact
    obtain ⟨hstatus, hsame⟩ := init_persisted hfile h.persisted
    refine ⟨henabled, hstatus, ?_⟩
    have hpersisted := h.persisted
    rw [← hsame] at hpersisted
    exact hpersisted

theorem Latched.acts (h : Latched experimentId p) {acts : List Act}
    (hacts : ∀ act ∈ acts, act.Continues experimentId) :
    Latched experimentId (acts.foldl Process.act p) := by
  induction acts generalizing p with
  | nil => exact h
  | cons act acts ih =>
    refine ih (h.act (hacts act List.mem_cons_self)) ?_
    intro a ha
    exact hacts a (List.mem_cons_of_mem _ ha)

end

theorem stopped_calls {c : Settings} {st : State} (hstopped : st.experiment.status = .rolledBack)
    (events : List Event) : (events.foldl (step c) st).experiment = st.experiment := by
  induction events generalizing st with
  | nil => rfl
  | cons event events ih =>
    have hstep := (step_stopped (c := c) hstopped event).1
    have hnext : (step c st event).experiment.status = .rolledBack := by
      rw [hstep]
      exact hstopped
    exact (ih hnext).trans hstep

/-- No TTL is adapted any more, and no call is sampled. -/
structure Over (p : Process) : Prop where
  status : p.state.experiment.status = .rolledBack
  ttl : ∀ key cacheClass configuredTtl,
    (adaptiveTtl p.settings key cacheClass configuredTtl p.state).1 = configuredTtl
  samples : ∀ event, (step p.settings p.state event).experiment.samples = p.state.experiment.samples

theorem over_of_stopped {p : Process} (henabled : p.settings.experimentEnabled = true)
    (hstopped : p.state.experiment.status = .rolledBack) : Over p where
  status := hstopped
  ttl key cacheClass configuredTtl := adaptiveTtl_stopped henabled hstopped key cacheClass configuredTtl
  samples event := congrArg Experiment.samples (step_stopped hstopped event).1

/-- The experiment of a process is rolled back exactly at the first access with which its
samples fail; it stays so in this process, and after restarts if the decision was written. -/
theorem experiment_guardrail (c : Settings) :
    (∀ file, c.experimentEnabled = true → (init c file).experiment.status = .running → ∀ events,
      ((run c file events).experiment.status = .rolledBack ↔
        ∃ p, p <+: events.filterMap Event.access ∧ (tally c p).fails c) ∧
      ((run c file events).experiment.status = .running →
        (run c file events).experiment.samples =
          (tally c (events.filterMap Event.access)).samples)) ∧
    (∀ (st : State) (events : List Event), c.experimentEnabled = true → st.experiment.status = .rolledBack →
      Over ⟨c, events.foldl (step c) st⟩) ∧
    ∀ (st : State) now timestamp outcome key state, c.experimentEnabled = true → c.hasStateFile = true →
      st.experiment.status = .running → outcome ≠ .failed →
      (step c st (.get now timestamp outcome key state)).experiment.status = .rolledBack →
      ∀ acts : List Act, (∀ act ∈ acts, act.Continues c.experimentId) →
        Over (acts.foldl Process.act ⟨c, step c st (.get now timestamp outcome key state)⟩) := by
  refine ⟨?_, ?_, ?_⟩
  · intro file henabled hstart events
    refine ⟨run_rolledBack henabled file hstart events, ?_⟩
    intro hrunning
    refine ((run_follows henabled file hstart events).running ?_).2
    intro p hp hfails
    have hstopped := (run_rolledBack henabled file hstart events).mpr ⟨p, hp, hfails⟩
    rw [hrunning] at hstopped
    cases hstopped
  · intro st events henabled hstopped
    refine over_of_stopped henabled ?_
    rw [stopped_calls hstopped]
    exact hstopped
  · intro st now timestamp outcome key state henabled hfile hrunning houtcome hstopped acts hacts
    have hlatched : Latched c.experimentId ⟨c, step c st (.get now timestamp outcome key state)⟩ :=
      ⟨henabled, hstopped, step_persisted henabled hfile hrunning houtcome hstopped⟩
    have hlast := hlatched.acts hacts
    exact over_of_stopped hlast.enabled hlast.stopped

/-- One sample for each arm is enough here. -/
def guardedSettings : Settings :=
  { smallSettings with
    experiment := true
    experimentAllocationPercent := 50
    experimentMinSamples := 1
    bounds_pos := by decide
    allocation_le := by decide }

example : (run guardedSettings .absent
    [.get 0 0 .written "abc" .fresh, .get 0 0 .written "a" .miss]).experiment.status = .rolledBack := by
  decide +kernel

end Intelligence
end MegaCache
