import MegaCache.Events.Replay

/-!
# Redelivery of a webhook

`ingest_webhook` claims the delivery of a request before it looks at the event.  A call that
raises leaves the event as new as it was; what it may leave behind is the claim, and the
claim decides whether the same request can be sent again.
-/

namespace MegaCache
namespace Events

open Prog

variable {V : Type} {g : Ingestor V} {w w' : World V} {e : ChangeEvent}

/-! ## Calls that raise -/

/-- The storage calls of an ingestor raise only what `except Exception` catches. -/
def RaisesExceptions {α : Type} (call : EngineM V α) : Prop :=
  Triple (fun _ => True) call (fun _ _ => True) fun error _ => error.isException = true

theorem raisesExceptions_deleteMany (keys : List Key) :
    RaisesExceptions (Engine.deleteMany keys : EngineM V ℕ) := by
  have hdelete : ∀ key, RaisesExceptions (Engine.delete key : EngineM V Bool) := by
    intro key s _
    unfold Engine.delete Engine.validateKey
    rw [run_bind, run_ite]
    split_ifs
    · rfl
    · trivial
  have hcollect : RaisesExceptions (Prog.collect Engine.delete keys : EngineM V (List Bool)) := by
    induction keys with
    | nil => exact Triple.pure [] fun _ _ => trivial
    | cons key keys ih =>
      exact Triple.bind (hdelete key) fun _ => Triple.bind ih fun _ => Triple.pure _ fun _ _ => trivial
  exact Triple.bind hcollect fun _ => Triple.pure _ fun _ _ => trivial

theorem raisesExceptions_invalidateTags (tags : List Tag) :
    RaisesExceptions (Engine.invalidateTags tags : EngineM V ℕ) := by
  have hnormalize : RaisesExceptions (Engine.normalizeTags tags : EngineM V (List Tag)) := by
    intro s _
    unfold Engine.normalizeTags
    rw [run_ite, run_ite]
    split_ifs <;> trivial
  exact Triple.bind hnormalize fun _ _ _ => trivial

namespace Ingestor

theorem unchanged_of_calm {α : Type} {r : Except Failure α} (h : Calm g w w') : Unchanged r w w' :=
  fun _ _ _ => ⟨h.memory, h.file⟩

theorem unchanged_edit {f : State → EventM V State} (hq : ∀ s, Rel (Calm g) (f s))
    {r : Except Failure Unit} (h : g.edit f w = (r, w')) : Unchanged r w w' := by
  obtain ⟨e, -, hc⟩ | ⟨candidate, w₁, -, -, -, hr⟩ := edit_cases hq h
  · exact unchanged_of_calm hc
  · intro f' hf hne
    obtain ⟨hr, -⟩ | ⟨hr, -⟩ := hr <;> rw [hr] at hf
    · exact absurd (Except.error.inj hf).symm hne
    · cases hf

theorem size_takeBytes (n : ℕ) (text : List Char) :
    (String.ofList (takeBytes n text)).utf8ByteSize ≤ n := by
  induction text generalizing n with
  | nil => simp [takeBytes]
  | cons ch rest ih =>
    rw [takeBytes]
    split_ifs with hfit
    · have hrest := ih (n - ch.utf8Size)
      rw [String.ofList_cons]
      simp
      omega
    · simp

/-- The text of a letter is always within its limit. -/
theorem size_boundedError (error : String) :
    (g.boundedError error).utf8ByteSize ≤ g.limits.maxErrorBytes := by
  unfold boundedError
  split_ifs with hfits hsmall
  · exact hfits
  · exact size_takeBytes _ _
  · have hsize := size_takeBytes (g.limits.maxErrorBytes - 3) error.toList
    have hdots : ("...").utf8ByteSize = 3 := by decide
    rw [String.utf8ByteSize_append, hdots]
    omega

/-- The `try` of `ingest`: the event was applied, or the failure is raised on, or it goes to
the queue. -/
theorem applyOrQueue_cases {res : Except Failure (EventResult × Bool)}
    (h : g.applyOrQueue e w = (res, w')) :
    (∃ x, g.prepareAndApply e w = (.ok x, w') ∧ res = .ok (x, true)) ∨
    ∃ f w₁, g.prepareAndApply e w = (.error f, w₁) ∧
      ((isRejection f = true ∧ res = .error f ∧ w' = w₁) ∨
        isRejection f = false ∧
          ((∃ f', g.deadLetter e f.text w₁ = (.error f', w') ∧ res = .error f') ∨
            g.deadLetter e f.text w₁ = (.ok (), w') ∧
              ∃ x, x.outcome = .deadLetter ∧ res = .ok (x, false))) := by
  rw [applyOrQueue, run_tryCatch] at h
  rcases happ : g.prepareAndApply e w with ⟨f | x, w₁⟩
  · right
    rw [run_bind_error happ] at h
    simp only at h
    refine ⟨f, w₁, rfl, ?_⟩
    cases hrej : isRejection f with
    | true =>
      rw [hrej, if_pos rfl] at h
      obtain ⟨rfl, rfl⟩ := Prod.mk.inj h
      exact .inl ⟨rfl, rfl, rfl⟩
    | false =>
      right
      rw [hrej, if_neg (by simp)] at h
      rcases hd : g.deadLetter e f.text w₁ with ⟨f' | ⟨⟩, w₂⟩
      · rw [run_bind_error hd] at h
        obtain ⟨rfl, rfl⟩ := Prod.mk.inj h
        exact ⟨rfl, .inl ⟨f', rfl, rfl⟩⟩
      · rw [run_bind_ok hd] at h
        obtain ⟨rfl, rfl⟩ := Prod.mk.inj h
        exact ⟨rfl, .inr ⟨rfl, _, rfl, rfl⟩⟩
  · rw [run_bind_ok happ] at h
    obtain ⟨rfl, rfl⟩ := Prod.mk.inj h
    exact .inl ⟨x, rfl, rfl⟩

/-- An `ingest` that raises leaves the durable state and its copy as they were. -/
theorem unchanged_ingest {f : Failure} (h : g.ingest e w = (.error f, w')) (hf : f ≠ .stopped) :
    w'.memory = w.memory ∧ w'.file = w.file := by
  have hedit : ∀ {f₁ : State → EventM V State}, (∀ s, Rel (Calm g) (f₁ s)) → ∀ {u : World V},
      g.edit f₁ u = (.error f, w') → w'.memory = u.memory ∧ w'.file = u.file :=
    fun hq _ hu => unchanged_edit hq hu f rfl hf
  rw [ingest, bind_eq_error] at h
  obtain h | ⟨_, w₁, h₁, h⟩ := h
  · obtain ⟨-, rfl⟩ := fromExcept_eq_error.mp h
    exact ⟨rfl, rfl⟩
  obtain ⟨-, rfl⟩ := fromExcept_eq_ok.mp h₁
  rw [bind_eq_error] at h
  obtain h | ⟨_, w₁, h₁, h⟩ := h
  · obtain ⟨-, rfl⟩ := fromExcept_eq_error.mp h
    exact ⟨rfl, rfl⟩
  obtain ⟨-, rfl⟩ := fromExcept_eq_ok.mp h₁
  rw [run_bind_ok (run_get w), run_ite, run_ite] at h
  split_ifs at h
  · cases h
  · cases h
  rw [bind_eq_error] at h
  obtain h | ⟨_, w₁, h₁, h⟩ := h
  · have hc := (calm_ensureCompleteCapacity e).run h
    exact ⟨hc.memory, hc.file⟩
  have hc₁ := (calm_ensureCompleteCapacity e).run h₁
  rw [← hc₁.memory, ← hc₁.file]
  rw [bind_eq_error] at h
  obtain h | ⟨⟨x, applied⟩, w₂, h₂, h⟩ := h
  · obtain ⟨x, -, hres⟩ | ⟨f₁, w₂, happ, hend⟩ := applyOrQueue_cases h
    · cases hres
    have hc₂ := (calm_prepareAndApply e).run happ
    rw [← hc₂.memory, ← hc₂.file]
    obtain ⟨-, -, rfl⟩ | ⟨-, ⟨f', hd, hres⟩ | ⟨-, x, -, hres⟩⟩ := hend
    · exact ⟨rfl, rfl⟩
    · obtain rfl := Except.error.inj hres
      exact hedit (calm_queued e (g.clock w₂.ticks) _) (u := (g.time w₂).2) hd
    · cases hres
  · rw [bind_eq_error] at h
    obtain h | ⟨_, w₃, -, h⟩ := h
    · rw [run_ite] at h
      split_ifs at h with happlied
      · obtain ⟨x', happ, -⟩ | ⟨f₁, w₃, -, hend⟩ := applyOrQueue_cases h₂
        · have hc₂ := (calm_prepareAndApply e).run happ
          rw [← hc₂.memory, ← hc₂.file]
          exact hedit (calm_completed e) h
        · -- an event in the queue is not completed
          obtain ⟨-, hres, -⟩ | ⟨-, ⟨f', -, hres⟩ | ⟨-, x', -, hres⟩⟩ := hend
          · cases hres
          · cases hres
          · rw [(Prod.mk.inj (Except.ok.inj hres)).2] at happlied
            cases happlied
      · cases h
    · cases h

/-! ## Calls that nothing disturbs -/

theorem fromExcept_ok {α : Type} {x : Except Failure α} {a : α} (h : x = .ok a) (w : World V) :
    fromExcept x w = (.ok a, w) := by
  rw [h, fromExcept]

theorem raiseIf_skipped {c : Prop} [Decidable c] (h : ¬c) (failure : Failure) (w : World V) :
    fromExcept (raiseIf c failure) w = (.ok (), w) :=
  fromExcept_ok (raiseIf_ok.mpr h) w

theorem nextLuck_undisturbed (hl : w.luck = []) : g.nextLuck w = (.ok .proceeds, w) := by
  obtain ⟨engine, memory, file, ticks, luck, trace⟩ := w
  obtain rfl : luck = [] := hl
  rfl

theorem validateStateLimits_ok {s : State} : g.validateStateLimits s = .ok () ↔
    s.checkpoints.size ≤ g.limits.maxStreams ∧
    (s.checkpoints.toList.any fun p => g.cursorTooLong p.2.cursor) = false ∧
    s.seen.length ≤ g.limits.maxSeenEvents ∧ s.replayTokens.length ≤ g.limits.maxReplayTokens ∧
    g.validateDeadLetters s.deadLetters = .ok () ∧ g.stateBytes s ≤ g.limits.maxStateBytes := by
  unfold validateStateLimits
  generalize (s.checkpoints.toList.any fun p => g.cursorTooLong p.2.cursor) = long
  simp only [← not_lt]
  rcases g.validateDeadLetters s.deadLetters with f | ⟨⟩ <;> cases long <;> split_ifs <;>
    simp_all [bind, Except.bind, throw, throwThe, MonadExceptOf.throw, pure, Except.pure]

theorem persist_undisturbed {s : State} (hl : w.luck = [])
    (hs : g.validateStateLimits s = .ok ()) :
    g.persist s w = (.ok (), { w with file := some s }) := by
  obtain ⟨-, -, -, -, -, hsize⟩ := validateStateLimits_ok.mp hs
  rw [persist, run_bind_ok (raiseIf_skipped (not_lt.mpr hsize) _ w),
    run_bind_ok (nextLuck_undisturbed hl)]
  rfl

theorem mutate_undisturbed {α : Type} {mutation : State → EventM V (α × State)} {a : α} {s : State}
    {w₁ : World V} (hm : mutation w.memory w = (.ok (a, s), w₁)) (hl : w₁.luck = [])
    (hs : g.validateStateLimits s = .ok ()) :
    g.mutate mutation w = (.ok a, { w₁ with file := some s, memory := s }) := by
  rw [mutate, run_bind_ok (run_get w), run_bind_ok hm]
  dsimp only
  rw [run_bind_ok (fromExcept_ok hs w₁), run_bind_ok (persist_undisturbed hl hs)]
  rfl

/-- The cause of a failure is gone: the event is within the limits, whether it is completed
or queued, and its closure is within the bounds of the graph. -/
structure Room (g : Ingestor V) (e : ChangeEvent) (s : State) : Prop where
  enabled : g.rules ≠ []
  valid : g.validateEvent e = .ok ()
  stream : g.checkAdvance e s = .ok ()
  completes : ∀ t, g.validateStateLimits (g.committed e t s) = .ok ()
  letters : ∀ t error,
    g.validateDeadLetters (lettersWith e t (g.boundedError error) s.deadLetters) = .ok ()
  queues : ∀ t t' error, g.validateStateLimits (g.committed e t'
    { s with deadLetters := lettersWith e t (g.boundedError error) s.deadLetters }) = .ok ()
  graph : ∀ f, (g.schemas.prepare g.py e >>= g.closureOf) = .error f → isRejection f = false

/-- The event was not dealt with. -/
def Fresh (s : State) (e : ChangeEvent) : Prop := e.eventId ∉ s.seen ∧ ¬Below s e

theorem advanceCheckpoint_room {s : State} (h : g.checkAdvance e s = .ok ()) (w : World V) :
    g.advanceCheckpoint e s w = (.ok { s with
      checkpoints := s.checkpoints.set e.checkpointKey
        ⟨e.source, e.stream, e.position, e.cursor, e.eventId, g.clock w.ticks⟩ },
      (g.time w).2) := by
  rw [advanceCheckpoint, run_bind_ok (fromExcept_ok h w)]
  rfl

theorem Room.completed {s : State} (h : Room g e s) (w : World V) :
    g.completed e s w = (.ok (g.committed e (g.clock w.ticks) s), (g.time w).2) := by
  rw [Ingestor.completed, run_bind_ok (fromExcept_ok h.valid w),
    run_bind_ok (advanceCheckpoint_room h.stream w)]
  rfl

theorem Room.queued {s : State} (h : Room g e s) (t : ℚ) (error : String) (w : World V) :
    g.queued e t (g.boundedError error) s w = (.ok (g.committed e (g.clock w.ticks) { s with
      deadLetters := lettersWith e t (g.boundedError error) s.deadLetters }), (g.time w).2) := by
  have hstream : g.checkAdvance e { s with
      deadLetters := lettersWith e t (g.boundedError error) s.deadLetters } = .ok () := h.stream
  rw [Ingestor.queued, run_bind_ok (fromExcept_ok h.valid w),
    run_bind_ok (fromExcept_ok (h.letters t error) w),
    run_bind_ok (advanceCheckpoint_room hstream w)]
  rfl

theorem edit_undisturbed {f : State → EventM V State} {s : State} {w₁ : World V}
    (hf : f w.memory w = (.ok s, w₁)) (hl : w₁.luck = []) (hs : g.validateStateLimits s = .ok ()) :
    ∃ w', g.edit f w = (.ok (), w') ∧ w'.durable = s := by
  refine ⟨_, mutate_undisturbed (a := ()) ?_ hl hs, rfl⟩
  rw [run_bind_ok hf]
  rfl

theorem Room.complete (h : Room g e w.memory) (hl : w.luck = []) :
    ∃ t w', g.complete e w = (.ok (), w') ∧ w'.durable = g.committed e t w.memory := by
  obtain ⟨w', hrun, hw'⟩ := edit_undisturbed (h.completed w) hl (h.completes _)
  exact ⟨g.clock w.ticks, w', hrun, hw'⟩

theorem Room.deadLetter (h : Room g e w.memory) (hl : w.luck = []) (error : String) :
    ∃ t s w', g.deadLetter e error w = (.ok (), w') ∧ w'.durable = g.committed e t s := by
  have hqueued := h.queued (g.clock w.ticks) error (g.time w).2
  obtain ⟨w', hrun, hw'⟩ := edit_undisturbed hqueued hl (h.queues _ _ _)
  exact ⟨_, _, w', hrun, hw'⟩

theorem below_committed (g : Ingestor V) (e : ChangeEvent) (t : ℚ) (s : State) :
    Below (g.committed e t s) e := by
  refine ⟨⟨e.source, e.stream, e.position, e.cursor, e.eventId, t⟩, ?_, le_rfl⟩
  simp [committed, rememberSeen]

/-- Storage calls without failures around them. -/
structure Undisturbed (w w' : World V) : Prop where
  memory : w'.memory = w.memory
  luck : w.luck = [] → w'.luck = []

instance : Std.Refl (Undisturbed (V := V)) := ⟨fun _ => ⟨rfl, id⟩⟩

instance : IsTrans (World V) Undisturbed :=
  ⟨fun _ _ _ h h' => ⟨h'.memory.trans h.memory, fun hl => h'.luck (h.luck hl)⟩⟩

theorem undisturbed_removeAll (items : List String) (call : EngineM V ℕ) :
    Rel Undisturbed (g.removeAll items call) := by
  refine Rel.ite (fun _ => Rel.pure 0) fun _ => ?_
  refine Rel.bind (fun w => ⟨rfl, fun hl => ?_⟩) fun fate => ?_
  · show w.luck.tail = []
    rw [hl, List.tail_nil]
  · cases fate with
    | raises error => exact Rel.throw _
    | stops done => exact Rel.throw _
    | proceeds =>
      intro w
      show Undisturbed w (onEngine call w).2
      unfold onEngine
      rcases call w.engine with ⟨e | a, engine⟩ <;> exact ⟨rfl, id⟩

theorem removeAll_error {items : List String} {call : EngineM V ℕ} (hc : RaisesExceptions call)
    (hl : w.luck = []) {f : Failure} (h : g.removeAll items call w = (.error f, w')) :
    isRejection f = false := by
  unfold removeAll at h
  rw [run_ite] at h
  split_ifs at h
  · cases h
  · rw [storageCall, run_bind_ok (nextLuck_undisturbed hl)] at h
    simp only [onEngine] at h
    rcases hrun : call w.engine with ⟨error | a, engine⟩ <;> rw [hrun] at h
    · obtain ⟨hf, -⟩ := Prod.mk.inj h
      obtain rfl := Except.error.inj hf
      have herr : error.isException = true := hc.error trivial hrun
      simp [isRejection, Failure.isException, herr]
    · cases h

theorem prepareAndApply_outcome {r : EventResult} (h : g.prepareAndApply e w = (.ok r, w')) :
    r.outcome = .processed := by
  rw [prepareAndApply, bind_eq_ok] at h
  obtain ⟨prepared, w₁, -, h⟩ := h
  rw [applyEvent, bind_eq_ok] at h
  obtain ⟨closure, w₂, -, h⟩ := h
  rw [bind_eq_ok] at h
  obtain ⟨n, w₃, -, h⟩ := h
  rw [bind_eq_ok] at h
  obtain ⟨m, w₄, -, h⟩ := h
  obtain rfl := Except.ok.inj (Prod.mk.inj h).1
  rfl

/-- An event that cannot be applied goes to the queue. -/
theorem Room.apply (h : Room g e w.memory) (hl : w.luck = []) {r : Except Failure EventResult}
    (hrun : g.prepareAndApply e w = (r, w')) :
    Undisturbed w w' ∧ (∀ x, r = .ok x → x.outcome = .processed) ∧
      ∀ f, r = .error f → isRejection f = false := by
  have hq : Rel Undisturbed (g.prepareAndApply e : EventM V EventResult) :=
    Rel.bind (Rel.fromExcept _) fun _ => Rel.bind (Rel.fromExcept _) fun _ =>
      Rel.bind (undisturbed_removeAll _ _) fun _ =>
        Rel.bind (undisturbed_removeAll _ _) fun _ => Rel.pure _
  refine ⟨hq.run hrun, ?_, ?_⟩
  · rintro x rfl
    exact prepareAndApply_outcome hrun
  · rintro f rfl
    rw [prepareAndApply, bind_eq_error] at hrun
    obtain hrun | ⟨prepared, w₁, hprep, hrun⟩ := hrun
    · obtain ⟨hf, -⟩ := fromExcept_eq_error.mp hrun
      exact h.graph f (by rw [hf]; rfl)
    obtain ⟨hp, rfl⟩ := fromExcept_eq_ok.mp hprep
    rw [applyEvent, bind_eq_error] at hrun
    obtain hrun | ⟨closure, w₁, hclosure, hrun⟩ := hrun
    · obtain ⟨hf, -⟩ := fromExcept_eq_error.mp hrun
      exact h.graph f (by rw [hp]; exact hf)
    obtain ⟨hc, rfl⟩ := fromExcept_eq_ok.mp hclosure
    rw [bind_eq_error] at hrun
    obtain hrun | ⟨n, w₁, hkeys, hrun⟩ := hrun
    · exact removeAll_error (raisesExceptions_deleteMany _) hl hrun
    have hl₁ := ((undisturbed_removeAll _ _).run hkeys).luck hl
    rw [bind_eq_error] at hrun
    obtain hrun | ⟨m, w₂, -, hrun⟩ := hrun
    · exact removeAll_error (raisesExceptions_invalidateTags _) hl₁ hrun
    · cases hrun

/-- A new event with room is processed or queued. -/
theorem Room.ingest (h : Room g e w.memory) (hnew : Fresh w.memory e) (hl : w.luck = []) :
    ∃ x w', g.ingest e w = (.ok x, w') ∧ (x.outcome = .processed ∨ x.outcome = .deadLetter) ∧
      Below w'.durable e := by
  have hposition : ¬(w.memory.checkpoints.get? e.checkpointKey).any (e.position ≤ ·.position) = true := by
    intro hany
    cases hp : w.memory.checkpoints.get? e.checkpointKey with
    | none => simp [hp] at hany
    | some p => exact hnew.2 ⟨p, hp, by simpa [hp] using hany⟩
  have hcapacity : g.ensureCompleteCapacity e w = (.ok (), (g.time w).2) := by
    rw [ensureCompleteCapacity, run_bind_ok (run_get w), run_bind_ok (h.completed w)]
    exact fromExcept_ok (h.completes _) _
  rw [Ingestor.ingest, run_bind_ok (raiseIf_skipped h.enabled _ w),
    run_bind_ok (fromExcept_ok h.valid w), run_bind_ok (run_get w), run_ite, if_neg hnew.1, run_ite,
    if_neg hposition, run_bind_ok hcapacity]
  have h₁ : Room g e (g.time w).2.memory := h
  have hl₁ : (g.time w).2.luck = [] := hl
  rcases hq : g.applyOrQueue e (g.time w).2 with ⟨res, w₂⟩
  obtain ⟨x, happ, rfl⟩ | ⟨f, w₁, happ, hend⟩ := applyOrQueue_cases hq
  · obtain ⟨hu, hout, -⟩ := h₁.apply hl₁ happ
    have h₂ : Room g e w₂.memory := by
      rw [hu.memory]
      exact h₁
    obtain ⟨t, w₃, hc, hdur⟩ := h₂.complete (hu.luck hl₁)
    refine ⟨x, w₃, ?_, .inl (hout x rfl), hdur ▸ below_committed g e t _⟩
    rw [run_bind_ok hq]
    exact run_bind_ok hc _
  · obtain ⟨hu, -, herr⟩ := h₁.apply hl₁ happ
    have h₂ : Room g e w₁.memory := by
      rw [hu.memory]
      exact h₁
    obtain ⟨t, s, w₃, hd, hdur⟩ := h₂.deadLetter (hu.luck hl₁) f.text
    obtain ⟨hrej, -⟩ | ⟨-, ⟨f', hd', -⟩ | ⟨hd', x, hout, rfl⟩⟩ := hend
    · rw [herr f rfl] at hrej
      cases hrej
    · rw [hd] at hd'
      cases hd'
    · rw [hd] at hd'
      obtain ⟨-, rfl⟩ := Prod.mk.inj hd'
      refine ⟨x, w₃, ?_, .inr hout, hdur ▸ below_committed g e t s⟩
      rw [run_bind_ok hq]
      rfl

end Ingestor

namespace Automation

variable {a : Automation V} {r : Request} {source : WebhookSource} {raw delivery : String}
  {timestamp : ℤ}

/-- The body of a request is a document of `e`, read at time `now`. -/
def Carries (a : Automation V) (r : Request) (now : ℚ) (e : ChangeEvent) : Prop :=
  ∃ fields, a.loads r.body = some (.obj fields) ∧
    textField (withSource r.sourceName fields) "source" = some r.sourceName ∧
    missingFields (withSource r.sourceName fields) = [] ∧
    checked a.ingestor.py (withSource r.sourceName fields)
      (timestampOf (withSource r.sourceName fields) now) = .ok e

/-- A live claim of the delivery of a request. -/
def Held (source : WebhookSource) (delivery : String) (now : ℚ) (s : State) : Prop :=
  ∃ claim ∈ liveClaims now s, claim.key = lengthFramedKey [source.name, delivery]

/-- The state once the delivery is claimed. -/
def afterClaim (source : WebhookSource) (delivery : String) (now : ℚ) (s : State) : State :=
  { s with replayTokens := liveClaims now s ++ [claimOf source delivery now] }

theorem Authentic.authenticate (h : Authentic a r (a.ingestor.clock w.ticks) source raw delivery timestamp) :
    a.authenticate r w = a.claim source delivery (a.ingestor.clock w.ticks) (a.ingestor.time w).2 := by
  unfold Automation.authenticate
  rw [h.configured]
  simp only [h.dated, h.delivered, h.signed]
  rw [run_bind_ok (Ingestor.fromExcept_ok h.identifier w), h.read]
  simp only
  rw [run_bind_ok (show a.ingestor.time w = (.ok (a.ingestor.clock w.ticks), (a.ingestor.time w).2)
    from rfl), run_bind_ok (Ingestor.raiseIf_skipped (not_lt.mpr h.near) _ _),
    run_bind_ok (Ingestor.raiseIf_skipped (not_not.mpr rfl) _ _)]

theorem Carries.ingestBody (h : Carries a r (a.ingestor.clock w.ticks) e) :
    a.ingestBody r w = a.ingestor.submit e (a.ingestor.time w).2 := by
  obtain ⟨fields, hloads, hsource, hmissing, hchecked⟩ := h
  unfold Automation.ingestBody
  rw [hloads]
  simp only
  rw [run_bind_ok (Ingestor.raiseIf_skipped (not_not.mpr hsource) _ w), fromDict]
  have hdict : (do
      fromExcept (raiseIf (missingFields (withSource r.sourceName fields) ≠ [])
        (.eventError ("event is missing required fields: " ++
          String.intercalate ", " (missingFields (withSource r.sourceName fields)))))
      let now ← a.ingestor.time
      fromExcept (checked a.ingestor.py (withSource r.sourceName fields)
        (timestampOf (withSource r.sourceName fields) now)) : EventM V ChangeEvent) w =
      (.ok e, (a.ingestor.time w).2) := by
    rw [run_bind_ok (Ingestor.raiseIf_skipped (not_not.mpr hmissing) _ w),
      run_bind_ok (show a.ingestor.time w = (.ok (a.ingestor.clock w.ticks), (a.ingestor.time w).2)
        from rfl), hchecked]
    rfl
  rw [run_bind_ok hdict]

/-- A delivery with a live claim is refused, whatever else happens. -/
theorem Held.refused (h : Held source delivery (a.ingestor.clock w.ticks) w.memory)
    (hauth : Authentic a r (a.ingestor.clock w.ticks) source raw delivery timestamp) :
    ∃ f, (a.ingestWebhook r w).1 = .error f := by
  rw [ingestWebhook, run_bind]
  rcases hrules : fromExcept (raiseIf (a.ingestor.rules = [])
      (.eventIngestionDisabled Ingestor.disabledMessage)) w with ⟨f | ⟨⟩, w₁⟩
  · exact ⟨f, rfl⟩
  obtain ⟨-, rfl⟩ := fromExcept_eq_ok.mp hrules
  simp only
  rw [run_bind, hauth.authenticate]
  rcases hclaim : a.claim source delivery (a.ingestor.clock w.ticks) (a.ingestor.time w).2 with
    ⟨f | ⟨⟩, w₁⟩
  · exact ⟨f, rfl⟩
  obtain ⟨f, hf, -⟩ | ⟨claims, -, -, ⟨-, f, hf⟩ | ⟨-, hfree⟩⟩ := claim_cases hclaim
  · cases hf
  · cases hf
  · obtain ⟨claim, hmem, hkey⟩ := h
    exact absurd hkey (hfree claim hmem)

theorem not_any_of_not_held {s : State} {now : ℚ} (hfree : ¬Held source delivery now s) :
    ¬((s.replayTokens.filter fun claim => now < claim.expiresAt).any fun claim =>
      claim.key = lengthFramedKey [source.name, delivery]) = true := by
  intro hany
  obtain ⟨claim, hmem, hkey⟩ := List.any_eq_true.mp hany
  exact hfree ⟨claim, hmem, by simpa using hkey⟩

theorem claimed_free {s : State} {now : ℚ} (hfree : ¬Held source delivery now s)
    (hcount : (liveClaims now s).length < g.limits.maxReplayTokens) (w : World V) :
    g.claimed (lengthFramedKey [source.name, delivery]) (now + source.toleranceSeconds) now s w =
      (.ok (true, afterClaim source delivery now s), w) := by
  unfold liveClaims at hcount
  rw [Ingestor.claimed, run_ite, if_neg (not_any_of_not_held hfree), run_ite,
    if_neg (not_le.mpr hcount)]
  rfl

/-- A delivery without a live claim is claimed. -/
theorem Authentic.claimed
    (hauth : Authentic a r (a.ingestor.clock w.ticks) source raw delivery timestamp)
    (hfree : ¬Held source delivery (a.ingestor.clock w.ticks) w.memory) (hl : w.luck = [])
    (hcount : (liveClaims (a.ingestor.clock w.ticks) w.memory).length <
      a.ingestor.limits.maxReplayTokens)
    (hs : a.ingestor.validateStateLimits
      (afterClaim source delivery (a.ingestor.clock w.ticks) w.memory) = .ok ()) :
    ∃ w', a.authenticate r w = (.ok (), w') ∧ w'.luck = [] ∧ w'.ticks = w.ticks + 1 ∧
      w'.memory = afterClaim source delivery (a.ingestor.clock w.ticks) w.memory := by
  have hclaimed := claimed_free (g := a.ingestor) hfree hcount (a.ingestor.time w).2
  have hmutate := Ingestor.mutate_undisturbed (w := (a.ingestor.time w).2) hclaimed hl hs
  rw [hauth.authenticate]
  refine ⟨{ (a.ingestor.time w).2 with
    file := some (afterClaim source delivery (a.ingestor.clock w.ticks) w.memory)
    memory := afterClaim source delivery (a.ingestor.clock w.ticks) w.memory }, ?_, hl, rfl, rfl⟩
  rw [claim, Ingestor.claimReplayToken, run_bind_ok hmutate]
  exact Ingestor.raiseIf_skipped (by simp) _ _

/-- There is room for a request: for the claim of its delivery and for its event. -/
structure Accommodates (a : Automation V) (source : WebhookSource) (delivery : String) (now : ℚ)
    (e : ChangeEvent) (s : State) : Prop where
  count : (liveClaims now s).length < a.ingestor.limits.maxReplayTokens
  claim : a.ingestor.validateStateLimits (afterClaim source delivery now s) = .ok ()
  event : a.ingestor.Room e (afterClaim source delivery now s)

theorem Accommodates.ingestWebhook
    (h : Accommodates a source delivery (a.ingestor.clock w.ticks) e w.memory)
    (hauth : Authentic a r (a.ingestor.clock w.ticks) source raw delivery timestamp)
    (hfree : ¬Held source delivery (a.ingestor.clock w.ticks) w.memory)
    (hcarries : Carries a r (a.ingestor.clock (w.ticks + 1)) e)
    (hnew : Ingestor.Fresh w.memory e) (hl : w.luck = []) :
    ∃ x w', a.ingestWebhook r w = (.ok x, w') ∧
      (x.outcome = .processed ∨ x.outcome = .deadLetter) ∧ Below w'.durable e := by
  obtain ⟨w₁, hrun₁, hl₁, hticks, hmem⟩ := hauth.claimed hfree hl h.count h.claim
  rw [Automation.ingestWebhook, run_bind_ok (Ingestor.raiseIf_skipped h.event.enabled _ w),
    run_bind_ok hrun₁]
  have hcarries₁ : Carries a r (a.ingestor.clock w₁.ticks) e := by
    rw [hticks]
    exact hcarries
  rw [hcarries₁.ingestBody]
  -- the world in which `ingest` runs
  let w₂ : World V := { (a.ingestor.time w₁).2 with
    trace := .submitted e :: (a.ingestor.time w₁).2.trace }
  have hmem₂ : w₂.memory = afterClaim source delivery (a.ingestor.clock w.ticks) w.memory := hmem
  have hroom : a.ingestor.Room e w₂.memory := by
    rw [hmem₂]
    exact h.event
  have hnew₂ : Ingestor.Fresh w₂.memory e := by
    rw [hmem₂]
    exact hnew
  obtain ⟨x, w₃, hrun₃, hout, hbelow⟩ := hroom.ingest hnew₂ hl₁
  refine ⟨x, { w₃ with trace := .answered e x.outcome :: w₃.trace }, ?_, hout, hbelow⟩
  show ((a.ingestor.ingest e >>= fun r => _) w₂) = _
  rw [run_bind_ok hrun₃]
  rfl

theorem ingestBody_failed {f : Failure} (hrun : a.ingestBody r w = (.error f, w'))
    (hf : f ≠ .stopped) : w'.memory = w.memory ∧ w'.file = w.file := by
  unfold Automation.ingestBody at hrun
  cases hloads : a.loads r.body with
  | none =>
    rw [hloads] at hrun
    obtain ⟨-, rfl⟩ := Prod.mk.inj hrun
    exact ⟨rfl, rfl⟩
  | some document =>
    rw [hloads] at hrun
    cases document with
    | obj fields =>
      simp only at hrun
      rw [bind_eq_error] at hrun
      obtain hrun | ⟨_, w₁, h₁, hrun⟩ := hrun
      · obtain ⟨-, rfl⟩ := fromExcept_eq_error.mp hrun
        exact ⟨rfl, rfl⟩
      obtain ⟨-, rfl⟩ := fromExcept_eq_ok.mp h₁
      have hdict : Rel (Calm a.ingestor) (a.fromDict (withSource r.sourceName fields)) :=
        Rel.bind (Rel.fromExcept _) fun _ => Rel.bind Ingestor.calm_time fun _ => Rel.fromExcept _
      rw [bind_eq_error] at hrun
      obtain hrun | ⟨event, w₁, h₁, hrun⟩ := hrun
      · exact ⟨(hdict.run hrun).memory, (hdict.run hrun).file⟩
      rw [← (hdict.run h₁).memory, ← (hdict.run h₁).file]
      rw [Ingestor.submit, bind_eq_error] at hrun
      obtain hrun | ⟨_, w₂, h₂, hrun⟩ := hrun
      · cases hrun
      obtain ⟨-, rfl⟩ := Prod.mk.inj h₂
      rw [bind_eq_error] at hrun
      obtain hrun | ⟨x, w₃, -, hrun⟩ := hrun
      · exact Ingestor.unchanged_ingest (w := { w₁ with trace := .submitted event :: w₁.trace })
          hrun hf
      · cases hrun
    | _ =>
      obtain ⟨-, rfl⟩ := Prod.mk.inj hrun
      exact ⟨rfl, rfl⟩

/-- A claim that is free is made, in memory and on disk, or the call raises. -/
theorem claim_free {now : ℚ} (hfree : ¬Held source delivery now w.memory)
    {res : Except Failure Unit} (hrun : a.claim source delivery now w = (res, w')) :
    (∃ f, res = .error f ∧ (f ≠ .stopped → w'.memory = w.memory ∧ w'.file = w.file)) ∨
    res = .ok () ∧ w'.memory = afterClaim source delivery now w.memory ∧
      w'.file = some (afterClaim source delivery now w.memory) := by
  rw [claim, run_bind] at hrun
  rcases hc : a.ingestor.claimReplayToken (lengthFramedKey [source.name, delivery])
    (now + source.toleranceSeconds) now w with ⟨f | b, w₁⟩
  all_goals
    rw [hc] at hrun
    obtain ⟨f', hf, hcalm⟩ | ⟨b', candidate, w₂, hm, -, hw, hr⟩ := Ingestor.mutate_cases
      (Ingestor.claimReplayToken_calm _ _ _) hc
  · obtain ⟨rfl, rfl⟩ := Prod.mk.inj hrun
    exact .inl ⟨f, rfl, fun _ => ⟨hcalm.memory, hcalm.file⟩⟩
  · obtain ⟨rfl, rfl⟩ := Prod.mk.inj hrun
    obtain ⟨hstop, -⟩ | ⟨hok, -⟩ := hr
    · exact .inl ⟨f, rfl, fun hne => absurd (Except.error.inj hstop) hne⟩
    · cases hok
  · cases hf
  · obtain ⟨hstop, -⟩ | ⟨hok, hmem⟩ := hr
    · cases hstop
    obtain rfl := Except.ok.inj hok
    have hcount : (liveClaims now w.memory).length < a.ingestor.limits.maxReplayTokens := by
      by_contra hfull
      have hthrow : a.ingestor.claimed (lengthFramedKey [source.name, delivery])
          (now + source.toleranceSeconds) now w.memory w = (.error
            (.eventBackpressure "webhook replay claim capacity is exhausted"), w) := by
        unfold liveClaims at hfull
        rw [Ingestor.claimed, run_ite, if_neg (not_any_of_not_held hfree), run_ite,
          if_pos (not_lt.mp hfull)]
        rfl
      rw [hthrow] at hm
      cases hm
    rw [claimed_free hfree hcount] at hm
    obtain ⟨rfl, rfl⟩ := Prod.mk.inj (Except.ok.inj (Prod.mk.inj hm).1)
    obtain ⟨rfl, rfl⟩ := Prod.mk.inj hrun
    exact .inr ⟨rfl, hmem, hw.file⟩

/-- A call that raises before the delivery is claimed changes nothing; one that raises
later leaves the claim, and nothing else. -/
theorem ingestWebhook_failed
    (hauth : Authentic a r (a.ingestor.clock w.ticks) source raw delivery timestamp)
    (hfree : ¬Held source delivery (a.ingestor.clock w.ticks) w.memory) {f : Failure}
    (hrun : a.ingestWebhook r w = (.error f, w')) (hf : f ≠ .stopped) :
    (w'.memory = w.memory ∧ w'.file = w.file) ∨
    (w'.memory = afterClaim source delivery (a.ingestor.clock w.ticks) w.memory ∧
      w'.file = some w'.memory) := by
  rw [Automation.ingestWebhook, bind_eq_error] at hrun
  obtain hrun | ⟨_, w₁, hrules, hrun⟩ := hrun
  · obtain ⟨-, rfl⟩ := fromExcept_eq_error.mp hrun
    exact .inl ⟨rfl, rfl⟩
  obtain ⟨-, rfl⟩ := fromExcept_eq_ok.mp hrules
  rw [bind_eq_error, hauth.authenticate] at hrun
  obtain hrun | ⟨⟨⟩, w₁, hclaim, hrun⟩ := hrun
  · left
    obtain ⟨f', hf', hsame⟩ | ⟨hok, -⟩ := claim_free (w := (a.ingestor.time w).2) hfree hrun
    · obtain rfl := Except.error.inj hf'
      exact hsame hf
    · cases hok
  · right
    obtain ⟨f', hf', -⟩ | ⟨-, hmem, hfile⟩ := claim_free (w := (a.ingestor.time w).2) hfree hclaim
    · cases hf'
    obtain ⟨hm, hd⟩ := ingestBody_failed hrun hf
    exact ⟨hm.trans hmem, by rw [hd, hm, hmem, hfile]⟩

/-- A delivery that is free stays free until it is claimed. -/
theorem not_held_later {s : State} {now now' : ℚ} (h : ¬Held source delivery now s)
    (hle : now ≤ now') : ¬Held source delivery now' s := by
  rintro ⟨claim, hmem, hkey⟩
  obtain ⟨hclaim, hlive⟩ := List.mem_filter.mp hmem
  have hnow : now < claim.expiresAt := hle.trans_lt (by simpa using hlive)
  exact h ⟨claim, List.mem_filter.mpr ⟨hclaim, by simpa using hnow⟩, hkey⟩

theorem held_afterClaim {s : State} {now now' : ℚ} (h : now' < now + source.toleranceSeconds) :
    Held source delivery now' (afterClaim source delivery now s) := by
  refine ⟨claimOf source delivery now, List.mem_filter.mpr ⟨?_, ?_⟩, rfl⟩
  · exact List.mem_append_right _ (List.mem_singleton_self _)
  · exact decide_eq_true h

/-- A signed request whose `ingest_webhook` raises leaves its event as new as it was.  Either
its delivery was not claimed and nothing changed, or it is claimed until the tolerance after
that call is over.  In any later state a signed request is refused while its delivery is
claimed; without a claim, and with room for it, a new event that it carries is processed or
queued. -/
theorem webhook_redelivery (a : Automation V) {r : Request} {w w₁ : World V}
    {source : WebhookSource} {raw delivery : String} {timestamp : ℤ}
    (hauth : Authentic a r (a.ingestor.clock w.ticks) source raw delivery timestamp)
    (hfree : ¬Held source delivery (a.ingestor.clock w.ticks) w.memory) {f : Failure}
    (hrun : a.ingestWebhook r w = (.error f, w₁)) (hf : f ≠ .stopped) :
    (∀ e, Ingestor.Fresh w.memory e → Ingestor.Fresh w₁.memory e) ∧
    ((w₁.memory = w.memory ∧ w₁.file = w.file ∧
        ∀ now, a.ingestor.clock w.ticks ≤ now → ¬Held source delivery now w₁.memory) ∨
      (w₁.memory = afterClaim source delivery (a.ingestor.clock w.ticks) w.memory ∧
        w₁.file = some w₁.memory ∧
        ∀ now < a.ingestor.clock w.ticks + source.toleranceSeconds,
          Held source delivery now w₁.memory)) ∧
    ∀ (r' : Request) (w₂ : World V) (source' : WebhookSource) (raw' delivery' : String)
      (timestamp' : ℤ),
      Authentic a r' (a.ingestor.clock w₂.ticks) source' raw' delivery' timestamp' →
      (Held source' delivery' (a.ingestor.clock w₂.ticks) w₂.memory →
        ∃ f', (a.ingestWebhook r' w₂).1 = .error f') ∧
      ∀ e, ¬Held source' delivery' (a.ingestor.clock w₂.ticks) w₂.memory →
        Carries a r' (a.ingestor.clock (w₂.ticks + 1)) e → Ingestor.Fresh w₂.memory e →
        Accommodates a source' delivery' (a.ingestor.clock w₂.ticks) e w₂.memory → w₂.luck = [] →
        ∃ x w₃, a.ingestWebhook r' w₂ = (.ok x, w₃) ∧
          (x.outcome = .processed ∨ x.outcome = .deadLetter) ∧ Below w₃.durable e := by
  have hleft := ingestWebhook_failed hauth hfree hrun hf
  refine ⟨fun e hnew => ?_, ?_, fun r' w₂ source' raw' delivery' timestamp' hauth' => ⟨?_, ?_⟩⟩
  · obtain ⟨hm, -⟩ | ⟨hm, -⟩ := hleft <;> rw [hm]
    · exact hnew
    · exact hnew
  · obtain ⟨hm, hfile⟩ | ⟨hm, hfile⟩ := hleft
    · exact .inl ⟨hm, hfile, fun now hle => hm ▸ not_held_later hfree hle⟩
    · exact .inr ⟨hm, hfile, fun now hlt => hm ▸ held_afterClaim hlt⟩
  · exact fun hheld => hheld.refused hauth'
  · exact fun e hfree' hcarries hnew hroom hl =>
      hroom.ingestWebhook hauth' hfree' hcarries hnew hl

def shop : WebhookSource := ⟨"shop", List.replicate 16 0, 300, Hooks.zeros_valid⟩

def hookFields : List (String × Json) :=
  [("event_id", .str "e1"), ("stream", .str "products"), ("position", .int 7),
    ("operation", .str "update"), ("payload", .obj []), ("timestamp", .int 100),
    ("source", .str "shop")]

/-- One webhook source whose requests carry the same event. -/
def hookAutomation : Automation String where
  ingestor := { smallIngestor with
    py := ⟨fun text => if text = "100" then some 100 else none, fun _ => "", fun _ => 1⟩
    clock := fun n => 100 + n
    clock_mono := fun m n hmn => by simpa using hmn }
  sources := [shop]
  hexdigest _ _ := "5a"
  loads _ := some (.obj hookFields)

def hookEvent : ChangeEvent :=
  ⟨"e1", "shop", "products", 7, "update", [], (100 : ℤ), none, none⟩

/-- A delivery of the event at second 100. -/
def hookRequest (delivery : String) : Request :=
  ⟨"shop", some "100", some "sha256=5a", some delivery, []⟩

/-- The process right after its start. -/
def hookProcess : Process String := Process.init.step hookAutomation.ingestor (.restart [])

/-- The file cannot be replaced when the event is completed. -/
def diskFull : List (Luck String) := [.calm, .calm, .calm, ⟨[], .raises ⟨.valueError, ""⟩⟩]

/-- The world after the first attempt. -/
def hookFailed : World String :=
  (hookAutomation.ingestWebhook (hookRequest "d1") { hookProcess.world with luck := diskFull }).2

theorem hookFailed_eq : hookAutomation.ingestWebhook (hookRequest "d1")
    { hookProcess.world with luck := diskFull } = (.error .osError, hookFailed) := by
  refine Prod.ext ?_ rfl
  decide +kernel

theorem hookRequest_authentic {delivery : String}
    (hid : validateIdentifier delivery "webhook delivery" = .ok ()) {now : ℚ}
    (hnear : |now - 100| ≤ 300) :
    Authentic hookAutomation (hookRequest delivery) now shop "100" delivery 100 :=
  ⟨rfl, rfl, rfl, rfl, by exact_mod_cast hnear, hid, rfl⟩

theorem hookRequest_carries (delivery : String) (now : ℚ) :
    Carries hookAutomation (hookRequest delivery) now hookEvent := by
  refine ⟨hookFields, rfl, rfl, rfl, ?_⟩
  have hid : ¬("e1" = "" ∨ 256 < "e1".utf8ByteSize ∨ "e1".toList.any isSpace) := by decide
  have hsource : validateIdentifier "shop" "event source" = .ok () := by decide
  have hstream : validateIdentifier "products" "event stream" = .ok () := by decide
  show checked _ hookFields _ = _
  unfold checked
  rw [show textField hookFields "event_id" = some "e1" from rfl,
    show textField hookFields "source" = some "shop" from rfl,
    show textField hookFields "stream" = some "products" from rfl]
  simp only [if_neg hid, Option.getD_some, hsource, hstream]
  rfl

theorem hookLetter_fits (t : ℚ) (error : String) : hookAutomation.ingestor.validateDeadLetters
    (Ingestor.lettersWith hookEvent t (hookAutomation.ingestor.boundedError error) []) = .ok () := by
  have hsize := Ingestor.size_boundedError (g := hookAutomation.ingestor) error
  simp [Ingestor.lettersWith, Ingestor.validateDeadLetters, Ingestor.deadLetterBytes,
    not_lt.mpr hsize]
  rfl

theorem hookEvent_room {s : State} (hstreams : s.checkpoints = .empty) (hseen : s.seen = [])
    (hletters : s.deadLetters = []) (hclaims : s.replayTokens.length ≤ 10) :
    hookAutomation.ingestor.Room hookEvent s where
  enabled := by decide
  valid := rfl
  stream := by
    unfold Ingestor.checkAdvance
    rw [hstreams]
    rfl
  completes t := by
    rw [Ingestor.validateStateLimits_ok]
    simp only [Ingestor.committed, Ingestor.rememberSeen, hstreams, hseen, hletters]
    exact ⟨show 1 ≤ 10 by decide, rfl, show 1 ≤ 10 by decide, hclaims, rfl, show 1 ≤ 1000 by decide⟩
  letters t error := by
    rw [hletters]
    exact hookLetter_fits t error
  queues t t' error := by
    rw [Ingestor.validateStateLimits_ok]
    simp only [Ingestor.committed, Ingestor.rememberSeen, hstreams, hseen, hletters]
    exact ⟨show 1 ≤ 10 by decide, rfl, show 1 ≤ 10 by decide, hclaims, hookLetter_fits t error,
      show 1 ≤ 1000 by decide⟩
  graph f hf := by
    have hok : (hookAutomation.ingestor.schemas.prepare hookAutomation.ingestor.py hookEvent >>=
        hookAutomation.ingestor.closureOf).isOk = true := rfl
    rw [hf] at hok
    cases hok

/-- The first attempt left the claim of its delivery. -/
theorem hookFailed_memory : hookFailed.memory = afterClaim shop "d1" 100 State.empty := by
  have hauth : Authentic hookAutomation (hookRequest "d1")
      (hookAutomation.ingestor.clock hookProcess.world.ticks) shop "100" "d1" 100 :=
    hookRequest_authentic (by decide) (by decide +kernel)
  have hfree : ¬Held shop "d1" (hookAutomation.ingestor.clock hookProcess.world.ticks)
      hookProcess.world.memory := by
    rintro ⟨claim, hmem, -⟩
    cases hmem
  obtain ⟨hm, -⟩ | ⟨hm, -⟩ := ingestWebhook_failed
    (w := { hookProcess.world with luck := diskFull }) hauth hfree hookFailed_eq (by decide)
  · have hclaims : hookFailed.memory.replayTokens ≠ [] := by decide +kernel
    rw [hm] at hclaims
    exact absurd rfl hclaims
  · have hclock : hookAutomation.ingestor.clock hookProcess.world.ticks = 100 := by decide +kernel
    have hm' : hookFailed.memory = afterClaim shop "d1"
        (hookAutomation.ingestor.clock hookProcess.world.ticks) State.empty := hm
    rw [hm', hclock]

theorem hookFailed_accommodates (delivery : String) (now : ℚ) :
    Accommodates hookAutomation shop delivery now hookEvent hookFailed.memory := by
  have hlive : (liveClaims now hookFailed.memory).length ≤ 1 := by
    rw [hookFailed_memory]
    exact List.length_filter_le _ _
  have hclaims : (afterClaim shop delivery now hookFailed.memory).replayTokens.length ≤ 10 := by
    simp only [afterClaim, List.length_append, List.length_singleton]
    omega
  refine ⟨hlive.trans_lt (show 1 < 10 by decide), ?_, ?_⟩
  · rw [hookFailed_memory] at hclaims ⊢
    rw [Ingestor.validateStateLimits_ok]
    exact ⟨show 0 ≤ 10 by decide, rfl, show 0 ≤ 10 by decide, hclaims, rfl, show 1 ≤ 1000 by decide⟩
  · rw [hookFailed_memory] at hclaims ⊢
    exact hookEvent_room rfl rfl rfl hclaims

theorem hookEvent_fresh : Ingestor.Fresh hookProcess.world.memory hookEvent := by
  refine ⟨List.not_mem_nil, ?_⟩
  rintro ⟨p, hp, -⟩
  cases hp

/-- The same request again, when the file can be written. -/
theorem hookRequest_refused :
    ¬ ∀ (a : Automation String) (p : Process String) (r : Request) (luck : List (Luck String))
      (source : WebhookSource) (raw delivery : String) (timestamp : ℤ) (e : ChangeEvent)
      (w₁ : World String), Runs a.ingestor p → p.up = true →
      Authentic a r (a.ingestor.clock p.world.ticks) source raw delivery timestamp →
      Carries a r (a.ingestor.clock (p.world.ticks + 1)) e → Ingestor.Fresh p.world.memory e →
      a.ingestWebhook r { p.world with luck := luck } = (.error .osError, w₁) →
      Authentic a r (a.ingestor.clock w₁.ticks) source raw delivery timestamp →
      Carries a r (a.ingestor.clock (w₁.ticks + 1)) e → Ingestor.Fresh w₁.memory e →
      Accommodates a source delivery (a.ingestor.clock w₁.ticks) e w₁.memory →
      ∃ x w₂, a.ingestWebhook r { w₁ with luck := [] } = (.ok x, w₂) ∧
        (x.outcome = .processed ∨ x.outcome = .deadLetter) := by
  intro h
  have hfresh : Ingestor.Fresh hookFailed.memory hookEvent := by
    rw [hookFailed_memory]
    exact ⟨by simp [afterClaim, State.empty], by simp [Below, afterClaim, State.empty]⟩
  obtain ⟨x, w₂, hrun, -⟩ := h hookAutomation hookProcess (hookRequest "d1") diskFull shop "100" "d1"
    100 hookEvent hookFailed (.step .init trivial) rfl
    (hookRequest_authentic (by decide) (by decide +kernel)) (hookRequest_carries "d1" _)
    hookEvent_fresh hookFailed_eq
    (hookRequest_authentic (by decide) (by decide +kernel)) (hookRequest_carries "d1" _) hfresh
    (hookFailed_accommodates "d1" _)
  have hrefused : (hookAutomation.ingestWebhook (hookRequest "d1") { hookFailed with luck := [] }).1 =
      .error (.webhookAuthError "webhook delivery was already received") := by decide +kernel
  rw [hrun] at hrefused
  cases hrefused

/-- The event in a new delivery, when the file can be written. -/
theorem hookRequest_redelivered :
    ∃ x w₂, hookAutomation.ingestWebhook (hookRequest "d2") { hookFailed with luck := [] } =
      (.ok x, w₂) ∧ (x.outcome = .processed ∨ x.outcome = .deadLetter) := by
  have hauth : Authentic hookAutomation (hookRequest "d1")
      (hookAutomation.ingestor.clock hookProcess.world.ticks) shop "100" "d1" 100 :=
    hookRequest_authentic (by decide) (by decide +kernel)
  have hfree : ¬Held shop "d1" (hookAutomation.ingestor.clock hookProcess.world.ticks)
      hookProcess.world.memory := by
    rintro ⟨claim, hmem, -⟩
    cases hmem
  obtain ⟨hfresh, -, hlater⟩ := webhook_redelivery hookAutomation
    (w := { hookProcess.world with luck := diskFull }) hauth hfree hookFailed_eq (by decide)
  have hfree₂ : ¬Held shop "d2" (hookAutomation.ingestor.clock hookFailed.ticks)
      hookFailed.memory := by
    rintro ⟨claim, hmem, hkey⟩
    rw [hookFailed_memory] at hmem
    obtain rfl : claim = claimOf shop "d1" 100 := List.mem_singleton.mp (List.mem_filter.mp hmem).1
    exact absurd (lengthFramedKey_inj hkey).2 (by decide)
  obtain ⟨x, w₂, hrun, hout, -⟩ := (hlater (hookRequest "d2") { hookFailed with luck := [] } shop "100" "d2" 100
    (hookRequest_authentic (by decide) (by decide +kernel))).2 hookEvent hfree₂
    (hookRequest_carries "d2" _) (hfresh hookEvent hookEvent_fresh)
    (hookFailed_accommodates "d2" _) rfl
  exact ⟨x, w₂, hrun, hout⟩

end Automation

end Events
end MegaCache
