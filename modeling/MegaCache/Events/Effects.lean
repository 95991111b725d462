import MegaCache.Engine.TimedMap
import MegaCache.Events.Ingest

/-!
# What the programs of the store and the ingestor do

`Calm` is what happens between two updates of the durable state: the state stays, and the
trace grows by storage calls only.  `mutate_cases` lists the ways an update can end, and
`prepareAndApply_ok` says that an event that was applied had its whole closure removed.
-/

namespace MegaCache
namespace Events

open Prog

variable {V : Type} {g : Ingestor V}

/-- Moments of storage calls. -/
def StorageOnly (moments : List (Moment V)) : Prop := ∀ m ∈ moments, ∃ engine, m = .storage engine

/-- The durable state and its copy in memory stay, the engine stays sound, and the trace
grows by storage calls. -/
structure Calm (g : Ingestor V) (w w' : World V) : Prop where
  memory : w'.memory = w.memory
  file : w'.file = w.file
  sound : Engine.Sound g.engine w.engine → Engine.Sound g.engine w'.engine
  ticks : w.ticks ≤ w'.ticks
  trace : ∃ new, StorageOnly new ∧ w'.trace = new ++ w.trace

theorem Calm.refl (w : World V) : Calm g w w :=
  ⟨rfl, rfl, id, le_rfl, [], by simp [StorageOnly], rfl⟩

theorem Calm.trans {w w' w'' : World V} (h : Calm g w w') (h' : Calm g w' w'') : Calm g w w'' := by
  obtain ⟨new, hnew, ht⟩ := h.trace
  obtain ⟨new', hnew', ht'⟩ := h'.trace
  refine ⟨h'.memory.trans h.memory, h'.file.trans h.file, fun hs => h'.sound (h.sound hs),
    h.ticks.trans h'.ticks, new' ++ new, ?_, ?_⟩
  · intro m hm
    rcases List.mem_append.mp hm with hm | hm
    · exact hnew' m hm
    · exact hnew m hm
  · rw [ht', ht, List.append_assoc]

instance : Std.Refl (Calm g) := ⟨Calm.refl⟩

instance : IsTrans (World V) (Calm g) := ⟨fun _ _ _ => Calm.trans⟩

theorem Calm.durable {w w' : World V} (h : Calm g w w') : w'.durable = w.durable := by
  rw [World.durable, h.file, World.durable]

/-- The file was replaced by `candidate`, and else nothing happened but storage calls. -/
structure Written (g : Ingestor V) (candidate : State) (w w' : World V) : Prop where
  file : w'.file = some candidate
  sound : Engine.Sound g.engine w.engine → Engine.Sound g.engine w'.engine
  ticks : w.ticks ≤ w'.ticks
  trace : ∃ new, StorageOnly new ∧ w'.trace = new ++ w.trace

theorem Written.durable {candidate : State} {w w' : World V} (h : Written g candidate w w') :
    w'.durable = candidate := by
  rw [World.durable, h.file, Option.getD_some]

theorem Calm.written {w w₁ w' : World V} {candidate : State} (h : Calm g w w₁)
    (h' : Written g candidate w₁ w') : Written g candidate w w' := by
  obtain ⟨new, hnew, ht⟩ := h.trace
  obtain ⟨new', hnew', ht'⟩ := h'.trace
  refine ⟨h'.file, fun hs => h'.sound (h.sound hs), h.ticks.trans h'.ticks, new' ++ new, ?_, ?_⟩
  · intro m hm
    rcases List.mem_append.mp hm with hm | hm
    · exact hnew' m hm
    · exact hnew m hm
  · rw [ht', ht, List.append_assoc]

namespace Ingestor

theorem calm_time : Rel (Calm g) (g.time : EventM V ℚ) :=
  fun w => ⟨rfl, rfl, id, Nat.le_succ w.ticks, [], by simp [StorageOnly], rfl⟩

theorem calm_nextLuck : Rel (Calm g) (g.nextLuck : EventM V Fate) :=
  fun _ => ⟨rfl, rfl, fun hs => Engine.Call.sound_calls _ hs, le_rfl, [], by simp [StorageOnly], rfl⟩

/-- Programs of the engine that keep it sound. -/
def KeepsSound {α : Type} (g : Ingestor V) (call : EngineM V α) : Prop :=
  ∀ engine, Engine.Sound g.engine engine → Engine.Sound g.engine (call engine).2

theorem keepsSound_deleteMany (keys : List Key) : g.KeepsSound (Engine.deleteMany keys) :=
  fun _ hs => Engine.Call.sound (.deleteMany keys) hs

theorem keepsSound_invalidateTags (tags : List Tag) : g.KeepsSound (Engine.invalidateTags tags) :=
  fun _ hs => Engine.Call.sound (.invalidateTags tags) hs

theorem calm_onEngine {α : Type} {call : EngineM V α} (hc : g.KeepsSound call) :
    Rel (Calm g) (onEngine call) := by
  intro w
  have hsound := hc w.engine
  unfold onEngine
  rcases hrun : call w.engine with ⟨e | a, engine⟩ <;> rw [hrun] at hsound
  · exact ⟨rfl, rfl, hsound, le_rfl, [], by simp [StorageOnly], rfl⟩
  · exact ⟨rfl, rfl, hsound, le_rfl, [.storage engine], by simp [StorageOnly], rfl⟩

theorem calm_storageCall {α : Type} {call : EngineM V α} (hc : g.KeepsSound call) :
    Rel (Calm g) (g.storageCall call) := by
  refine Rel.bind calm_nextLuck fun fate => ?_
  cases fate with
  | proceeds => exact calm_onEngine hc
  | raises error => exact Rel.throw _
  | stops done => exact Rel.throw _

theorem calm_advanceCheckpoint (event : ChangeEvent) (s : State) :
    Rel (Calm g) (g.advanceCheckpoint event s : EventM V State) :=
  Rel.bind (Rel.fromExcept _) fun _ => Rel.bind calm_time fun _ => Rel.pure _

theorem calm_completed (event : ChangeEvent) (s : State) :
    Rel (Calm g) (g.completed event s : EventM V State) :=
  Rel.bind (Rel.fromExcept _) fun _ =>
    Rel.bind (calm_advanceCheckpoint event s) fun _ => Rel.pure _

theorem calm_queued (event : ChangeEvent) (failedAt : ℚ) (error : String) (s : State) :
    Rel (Calm g) (g.queued event failedAt error s : EventM V State) :=
  Rel.bind (Rel.fromExcept _) fun _ => Rel.bind (Rel.fromExcept _) fun _ =>
    Rel.bind (calm_advanceCheckpoint event _) fun _ => Rel.pure _

theorem calm_ensureCompleteCapacity (event : ChangeEvent) :
    Rel (Calm g) (g.ensureCompleteCapacity event : EventM V Unit) :=
  Rel.bind Rel.get fun w => Rel.bind (calm_completed event w.memory) fun _ => Rel.fromExcept _

theorem calm_result (outcome : Outcome) (event : ChangeEvent) (error : Option String) :
    Rel (Calm g) (result outcome event error : EventM V EventResult) :=
  Rel.bind Rel.get fun _ => Rel.pure _

theorem calm_removeAll {items : List String} {call : EngineM V ℕ} (hc : g.KeepsSound call) :
    Rel (Calm g) (g.removeAll items call) :=
  Rel.ite (fun _ => Rel.pure 0) fun _ => calm_storageCall hc

theorem calm_applyEvent (event : ChangeEvent) :
    Rel (Calm g) (g.applyEvent event : EventM V EventResult) := by
  refine Rel.bind (Rel.fromExcept _) fun closure => ?_
  exact Rel.bind (calm_removeAll (keepsSound_deleteMany _)) fun _ =>
    Rel.bind (calm_removeAll (keepsSound_invalidateTags _)) fun _ => Rel.pure _

theorem calm_prepareAndApply (event : ChangeEvent) :
    Rel (Calm g) (g.prepareAndApply event : EventM V EventResult) :=
  Rel.bind (Rel.fromExcept _) fun prepared => calm_applyEvent prepared

/-! ## An event that was applied -/

theorem removeAll_ok {items : List String} {call : EngineM V ℕ} {n : ℕ} {w w' : World V}
    (hs : Engine.Sound g.engine w.engine) (h : g.removeAll items call w = (.ok n, w')) :
    items = [] ∨ ∃ e₀ e₁, Engine.Sound g.engine e₀ ∧ call e₀ = (.ok n, e₁) ∧
      w'.trace = .storage e₁ :: w.trace := by
  unfold removeAll at h
  rw [run_ite] at h
  split_ifs at h with hitems
  · exact .inl hitems
  · right
    rw [storageCall, bind_eq_ok] at h
    obtain ⟨fate, w₁, hluck, h⟩ := h
    have hcalm : Calm g w w₁ := calm_nextLuck.run hluck
    have htrace : w₁.trace = w.trace := by
      rw [← (Prod.mk.inj hluck).2]
    cases fate with
    | raises error => simp at h
    | stops done => simp at h
    | proceeds =>
      simp only [onEngine] at h
      rcases hrun : call w₁.engine with ⟨e | a, engine⟩ <;> rw [hrun] at h
      · simp at h
      · obtain ⟨ha, rfl⟩ := Prod.mk.inj h
        obtain rfl : a = n := by simpa using ha
        exact ⟨w₁.engine, engine, hcalm.sound hs, hrun, by rw [← htrace]⟩

end Ingestor

/-- In these moments everything in the closure of an event was removed: of each key there
is one without an entry, and of each tag one where no entry has it. -/
def Cleared (g : Ingestor V) (event : ChangeEvent) (moments : List (Moment V)) : Prop :=
  ∃ keys tags, g.IsClosure event keys tags ∧
    (∀ k ∈ keys, ∃ engine, .storage engine ∈ moments ∧ engine.entries.get? k = none) ∧
    ∀ t ∈ tags, ∃ engine, .storage engine ∈ moments ∧
      ∀ k entry, engine.entries.get? k = some entry → t ∉ entry.tags

namespace Ingestor

theorem prepareAndApply_ok {event : ChangeEvent} {r : EventResult} {w w' : World V}
    (hs : Engine.Sound g.engine w.engine) (h : g.prepareAndApply event w = (.ok r, w')) :
    r.outcome = .processed ∧
    ∃ new, StorageOnly new ∧ w'.trace = new ++ w.trace ∧ Cleared g event new := by
  obtain ⟨new, hnew, htrace⟩ := ((calm_prepareAndApply event).run h).trace
  rw [prepareAndApply, bind_eq_ok] at h
  obtain ⟨prepared, w₀, hprep, h⟩ := h
  obtain ⟨hp, rfl⟩ := fromExcept_eq_ok.mp hprep
  rw [applyEvent, bind_eq_ok] at h
  obtain ⟨closure, w₀, hclosure, h⟩ := h
  obtain ⟨hc, rfl⟩ := fromExcept_eq_ok.mp hclosure
  rw [bind_eq_ok] at h
  obtain ⟨n, w₁, hkeys, h⟩ := h
  rw [bind_eq_ok] at h
  obtain ⟨m, w₂, htags, h⟩ := h
  obtain ⟨hr, rfl⟩ := Prod.mk.inj h
  obtain ⟨new₁, hnew₁, htrace₁⟩ := ((calm_removeAll (keepsSound_deleteMany _)).run hkeys).trace
  have hs₁ := ((calm_removeAll (keepsSound_deleteMany _)).run hkeys).sound hs
  obtain ⟨new₂, -, htrace₂⟩ := ((calm_removeAll (keepsSound_invalidateTags _)).run htags).trace
  have hsplit : new = new₂ ++ new₁ := by
    rw [htrace₂, htrace₁, ← List.append_assoc] at htrace
    exact (List.append_cancel_right htrace).symm
  refine ⟨?_, new, hnew, htrace, closure.keys, closure.tags, closureOf_spec hp hc, ?_, ?_⟩
  · obtain rfl := Except.ok.inj hr
    rfl
  · intro k hk
    obtain hnil | ⟨e₀, e₁, -, hrun, ht⟩ := removeAll_ok hs hkeys
    · simp [hnil] at hk
    · have hmem : .storage e₁ ∈ new₁ := by
        have hone : [Moment.storage e₁] ++ w.trace = new₁ ++ w.trace := ht.symm.trans htrace₁
        simp [← List.append_cancel_right hone]
      refine ⟨e₁, by simp [hsplit, hmem], ?_⟩
      rw [Engine.deleteMany, bind_eq_ok] at hrun
      obtain ⟨l, e', hl, hrun⟩ := hrun
      obtain rfl : e' = e₁ := (Prod.mk.inj hrun).2
      exact Engine.deleteMany_absent g.engine hl k hk
  · intro t ht'
    obtain hnil | ⟨e₀, e₁, hs₀, hrun, ht⟩ := removeAll_ok hs₁ htags
    · simp [hnil] at ht'
    · have hmem : .storage e₁ ∈ new₂ := by
        have hone : [Moment.storage e₁] ++ w₁.trace = new₂ ++ w₁.trace := ht.symm.trans htrace₂
        simp [← List.append_cancel_right hone]
      refine ⟨e₁, by simp [hsplit, hmem], ?_⟩
      intro k entry hk
      obtain ⟨e, he⟩ | ⟨n, he⟩ := Engine.invalidateTags_cases closure.tags e₀
      · rw [he] at hrun
        simp at hrun
      · rw [he] at hrun
        obtain rfl := (Prod.mk.inj hrun).2
        rw [Engine.get?_invalidateLocked hs₀.accounts.indexes, Option.filter_eq_some_iff] at hk
        have hnone : ¬∃ t ∈ closure.tags, t ∈ entry.tags := by simpa using hk.2
        exact fun hmem => hnone ⟨t, ht', hmem⟩

/-! ## Updates of the durable state -/

/-- A replacement of the file succeeds, fails without effect, or is the last thing the
process does. -/
theorem persist_cases {s : State} {w w' : World V} {r : Except Failure Unit}
    (h : g.persist s w = (r, w')) :
    (r = .ok () ∧ Written g s w w' ∧ w'.memory = w.memory) ∨
    (∃ e, r = .error e ∧ Calm g w w') ∨
    (r = .error .stopped ∧ Written g s w w' ∧ w'.memory = w.memory) := by
  unfold persist at h
  rw [run_bind, fromExcept] at h
  cases hb : raiseIf (g.limits.maxStateBytes < g.stateBytes s)
      (.eventBackpressure "event state exceeds configured byte limit") with
  | error e =>
    rw [hb] at h
    obtain ⟨rfl, rfl⟩ := Prod.mk.inj h
    exact .inr (.inl ⟨_, rfl, Calm.refl w⟩)
  | ok u =>
    have hcalm : Calm g w (g.nextLuck w).2 := calm_nextLuck w
    have hw : ∀ w₁ : World V, Written g s w₁ { w₁ with file := some s } := fun w₁ =>
      ⟨rfl, id, le_rfl, [], by simp [StorageOnly], rfl⟩
    have hluck : g.nextLuck w = (.ok (w.luck.headD Luck.calm).fate, (g.nextLuck w).2) := rfl
    rw [hb] at h
    simp only at h
    rw [run_bind_ok hluck] at h
    cases hfate : (w.luck.headD Luck.calm).fate with
    | proceeds =>
      rw [hfate] at h
      obtain ⟨rfl, rfl⟩ := Prod.mk.inj h
      exact .inl ⟨rfl, hcalm.written (hw _), rfl⟩
    | raises error =>
      rw [hfate] at h
      obtain ⟨rfl, rfl⟩ := Prod.mk.inj h
      exact .inr (.inl ⟨_, rfl, hcalm⟩)
    | stops done =>
      rw [hfate] at h
      cases done with
      | false =>
        obtain ⟨rfl, rfl⟩ := Prod.mk.inj h
        exact .inr (.inl ⟨_, rfl, hcalm⟩)
      | true =>
        obtain ⟨rfl, rfl⟩ := Prod.mk.inj h
        exact .inr (.inr ⟨rfl, hcalm.written (hw _), rfl⟩)

/-- The ways an update can end: it is done, in memory and on disk; it raises and both
stay; or the process stops once the file is replaced. -/
theorem mutate_cases {α : Type} {mutation : State → EventM V (α × State)}
    (hq : ∀ s, Rel (Calm g) (mutation s)) {w w' : World V} {r : Except Failure α}
    (h : g.mutate mutation w = (r, w')) :
    (∃ e, r = .error e ∧ Calm g w w') ∨
    ∃ a candidate w₁, mutation w.memory w = (.ok (a, candidate), w₁) ∧ Calm g w w₁ ∧
      Written g candidate w w' ∧
      (r = .error .stopped ∧ w'.memory = w.memory ∨ r = .ok a ∧ w'.memory = candidate) := by
  unfold mutate at h
  simp only [run_bind, run_get] at h
  have hcalm := hq w.memory w
  rcases hm : mutation w.memory w with ⟨e | ⟨a, candidate⟩, w₁⟩ <;> rw [hm] at h hcalm
  · obtain ⟨rfl, rfl⟩ := Prod.mk.inj h
    exact .inl ⟨e, rfl, hcalm⟩
  · simp only [fromExcept] at h
    cases hv : g.validateStateLimits candidate with
    | error e =>
      rw [hv] at h
      obtain ⟨rfl, rfl⟩ := Prod.mk.inj h
      exact .inl ⟨e, rfl, hcalm⟩
    | ok u =>
      rw [hv] at h
      rcases hp : g.persist candidate w₁ with ⟨e | u', w₂⟩ <;> simp only [hp] at h
      · obtain ⟨rfl, rfl⟩ := Prod.mk.inj h
        obtain ⟨hok, -⟩ | ⟨e', -, hcalm'⟩ | ⟨hstop, hw, hmem⟩ := persist_cases hp
        · cases hok
        · exact .inl ⟨e, rfl, hcalm.trans hcalm'⟩
        · cases hstop
          exact .inr ⟨a, candidate, w₁, rfl, hcalm, hcalm.written hw,
            .inl ⟨rfl, hmem.trans hcalm.memory⟩⟩
      · obtain ⟨rfl, rfl⟩ := Prod.mk.inj h
        obtain ⟨-, hw, -⟩ | ⟨e', he, -⟩ | ⟨hstop, -⟩ := persist_cases hp
        · have hwritten := hcalm.written hw
          have hw' : Written g candidate w { w₂ with memory := candidate } :=
            ⟨hwritten.file, hwritten.sound, hwritten.ticks, hwritten.trace⟩
          exact .inr ⟨a, candidate, w₁, rfl, hcalm, hw', .inr ⟨rfl, rfl⟩⟩
        · cases he
        · cases hstop

/-- `mutate_cases` of an update without a result. -/
theorem edit_cases {f : State → EventM V State} (hq : ∀ s, Rel (Calm g) (f s)) {w w' : World V}
    {r : Except Failure Unit} (h : g.edit f w = (r, w')) :
    (∃ e, r = .error e ∧ Calm g w w') ∨
    ∃ candidate w₁, f w.memory w = (.ok candidate, w₁) ∧ Calm g w w₁ ∧
      Written g candidate w w' ∧
      (r = .error .stopped ∧ w'.memory = w.memory ∨ r = .ok () ∧ w'.memory = candidate) := by
  obtain herr | ⟨⟨⟩, candidate, w₁, hm, hc, hw, hr⟩ :=
    mutate_cases (fun s => Rel.bind (hq s) fun _ => Rel.pure _) h
  · exact .inl herr
  · right
    rw [bind_eq_ok] at hm
    obtain ⟨s, w₂, hf, hpure⟩ := hm
    obtain ⟨heq, rfl⟩ := Prod.mk.inj hpure
    obtain ⟨-, rfl⟩ := Prod.mk.inj (Except.ok.inj heq)
    exact ⟨s, w₂, hf, hc, hw, hr⟩

end Ingestor

end Events
end MegaCache
