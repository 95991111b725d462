import MegaCache.Events.Ledger

/-!
# No event is skipped

Runs of `ingest` and `retry_dead_letters` over one engine and one state file, with webhook
claims, storage and persistence failures, stops of the process at any point and restarts.
-/

namespace MegaCache
namespace Events

open Prog

variable {V : Type} {g : Ingestor V}

/-- No checkpoint goes back or disappears. -/
def Advances (s s' : State) : Prop :=
  ∀ key p, s.checkpoints.get? key = some p →
    ∃ p', s'.checkpoints.get? key = some p' ∧ p.position ≤ p'.position

theorem Advances.refl (s : State) : Advances s s := fun _ p hp => ⟨p, hp, le_rfl⟩

theorem Advances.trans {s s' s'' : State} (h : Advances s s') (h' : Advances s' s'') :
    Advances s s'' := by
  intro key p hp
  obtain ⟨p', hp', hle⟩ := h key p hp
  obtain ⟨p'', hp'', hle'⟩ := h' key p' hp'
  exact ⟨p'', hp'', hle.trans hle'⟩

/-- The checkpoint of the event's stream moved from below the event to the event. -/
def Raised (s s' : State) (e : ChangeEvent) : Prop :=
  (∀ p, s.checkpoints.get? e.checkpointKey = some p → p.position < e.position) ∧
  ∃ p, s'.checkpoints.get? e.checkpointKey = some p ∧ p.position = e.position

theorem Raised.below {s s' : State} {e : ChangeEvent} (h : Raised s s' e) : Below s' e := by
  obtain ⟨-, p, hp, hpos⟩ := h
  exact ⟨p, hp, hpos.ge⟩

/-- A world reached from `w₀` whose durable state accounts for what was submitted. -/
structure Standing (g : Ingestor V) (w₀ w : World V) : Prop where
  ledger : Ledger g w.durable w.trace
  sound : Engine.Sound g.engine w.engine
  advances : Advances w₀.durable w.durable
  trace : ∃ new, w.trace = new ++ w₀.trace

/-- Memory and file agree. -/
def Synced (w : World V) : Prop := w.memory = w.durable

theorem Synced.calm {w w' : World V} (h : Synced w) (hc : Calm g w w') : Synced w' := by
  rw [Synced, hc.memory, hc.durable]
  exact h

/-- How a call ends: unless the process stopped, memory and file agree. -/
structure Ends {α : Type} (g : Ingestor V) (w₀ : World V) (r : Except Failure α) (w : World V) :
    Prop where
  standing : Standing g w₀ w
  synced : r ≠ .error .stopped → Synced w

namespace Standing

variable {w₀ w w' : World V}

theorem calm (h : Standing g w₀ w) (hc : Calm g w w') : Standing g w₀ w' := by
  obtain ⟨new, hnew, htrace⟩ := hc.trace
  obtain ⟨older, hold⟩ := h.trace
  refine ⟨?_, hc.sound h.sound, ?_, new ++ older, ?_⟩
  · rw [hc.durable, htrace]
    exact h.ledger.storage hnew
  · rw [hc.durable]
    exact h.advances
  · rw [htrace, hold, List.append_assoc]

theorem written (h : Standing g w₀ w) {candidate : State} (hw : Written g candidate w w')
    (hl : Ledger g candidate w.trace) (ha : Advances w.durable candidate) :
    Standing g w₀ w' := by
  obtain ⟨new, hnew, htrace⟩ := hw.trace
  obtain ⟨older, hold⟩ := h.trace
  refine ⟨?_, hw.sound h.sound, ?_, new ++ older, ?_⟩
  · rw [hw.durable, htrace]
    exact hl.storage hnew
  · rw [hw.durable]
    exact h.advances.trans ha
  · rw [htrace, hold, List.append_assoc]

theorem rebase (h : Standing g w₀ w) : Standing g w w :=
  ⟨h.ledger, h.sound, Advances.refl _, [], rfl⟩

theorem trans (h : Standing g w₀ w) (h' : Standing g w w') : Standing g w₀ w' := by
  obtain ⟨new, hnew⟩ := h.trace
  obtain ⟨new', hnew'⟩ := h'.trace
  exact ⟨h'.ledger, h'.sound, h.advances.trans h'.advances, new' ++ new, by
    rw [hnew', hnew, List.append_assoc]⟩

theorem submitted (h : Standing g w₀ w) {e : ChangeEvent} (he : Submitted w₀.trace e) :
    Submitted w.trace e := by
  obtain ⟨new, hnew⟩ := h.trace
  rw [Submitted, hnew]
  exact List.mem_append_right _ he

theorem ends_calm {α : Type} (h : Standing g w₀ w) (hs : Synced w) (hc : Calm g w w')
    (r : Except Failure α) : Ends g w₀ r w' :=
  ⟨h.calm hc, fun _ => hs.calm hc⟩

/-- An update whose result accounts for what was submitted. -/
theorem edit {f : State → EventM V State} (hq : ∀ s, Rel (Calm g) (f s)) (h : Standing g w₀ w)
    (hs : Synced w)
    (hcand : ∀ candidate w₁, f w.durable w = (.ok candidate, w₁) →
      Ledger g candidate w.trace ∧ Advances w.durable candidate)
    {r : Except Failure Unit} (hrun : g.edit f w = (r, w')) : Ends g w₀ r w' := by
  obtain ⟨e, -, hc⟩ | ⟨candidate, w₁, hm, -, hw, hr⟩ := Ingestor.edit_cases hq hrun
  · exact h.ends_calm hs hc r
  · obtain ⟨hl, ha⟩ := hcand candidate w₁ (hs ▸ hm)
    refine ⟨h.written hw hl ha, fun hstop => ?_⟩
    obtain ⟨hr, -⟩ | ⟨-, hmem⟩ := hr
    · exact absurd hr hstop
    · rw [Synced, hmem, hw.durable]

end Standing

/-! ## Commits -/

namespace Ingestor

theorem mem_rememberSeen {id eventId : String} {s : State}
    (h : id ∈ (g.rememberSeen eventId s).seen) : id ∈ s.seen ∨ id = eventId := by
  have hmem := List.mem_of_mem_drop h
  rcases List.mem_append.mp hmem with hmem | hmem
  · exact .inl (List.mem_of_mem_erase hmem)
  · exact .inr (by simpa using hmem)

/-- The state after the checkpoint of a stream moved to an event. -/
def committed (g : Ingestor V) (e : ChangeEvent) (committedAt : ℚ) (s : State) : State :=
  g.rememberSeen e.eventId { s with
    checkpoints := s.checkpoints.set e.checkpointKey
      ⟨e.source, e.stream, e.position, e.cursor, e.eventId, committedAt⟩ }

theorem advanceCheckpoint_ok {e : ChangeEvent} {s s' : State} {w w' : World V}
    (h : g.advanceCheckpoint e s w = (.ok s', w')) :
    ∃ t, g.rememberSeen e.eventId s' = g.committed e t s := by
  rw [advanceCheckpoint, bind_eq_ok] at h
  obtain ⟨_, w₁, -, h⟩ := h
  rw [bind_eq_ok] at h
  obtain ⟨t, w₂, -, h⟩ := h
  obtain ⟨hs, -⟩ := Prod.mk.inj h
  obtain rfl := Except.ok.inj hs
  exact ⟨t, rfl⟩

theorem completed_ok {e : ChangeEvent} {s s' : State} {w w' : World V}
    (h : g.completed e s w = (.ok s', w')) : ∃ t, s' = g.committed e t s := by
  rw [completed, bind_eq_ok] at h
  obtain ⟨_, w₁, -, h⟩ := h
  rw [bind_eq_ok] at h
  obtain ⟨s₁, w₂, ha, h⟩ := h
  obtain ⟨t, ht⟩ := advanceCheckpoint_ok ha
  obtain ⟨hs, -⟩ := Prod.mk.inj h
  obtain rfl := Except.ok.inj hs
  exact ⟨t, ht⟩

theorem committed_advances {e : ChangeEvent} {t : ℚ} {s : State} (hnew : ¬Below s e) :
    Advances s (g.committed e t s) := by
  intro key p hp
  by_cases hkey : key = e.checkpointKey
  · subst hkey
    refine ⟨⟨e.source, e.stream, e.position, e.cursor, e.eventId, t⟩,
      OrderedDict.get?_set_self _ _ _, ?_⟩
    exact (not_le.mp fun hle => hnew ⟨p, hp, hle⟩).le
  · refine ⟨p, ?_, le_rfl⟩
    rw [committed, rememberSeen, OrderedDict.get?_set, if_neg hkey, hp]

theorem committed_raised {e : ChangeEvent} {t : ℚ} {s s₁ : State} (hnew : ¬Below s e)
    (hc : s₁.checkpoints = s.checkpoints) : Raised s (g.committed e t s₁) e := by
  constructor
  · exact fun p hp => not_le.mp fun hle => hnew ⟨p, hp, hle⟩
  · refine ⟨⟨e.source, e.stream, e.position, e.cursor, e.eventId, t⟩, ?_, rfl⟩
    rw [committed, rememberSeen, hc]
    exact OrderedDict.get?_set_self _ _ _

theorem map_event_updateFirst {p : DeadLetter → Bool} {f : DeadLetter → DeadLetter}
    (hf : ∀ d, (f d).event = d.event) (letters : List DeadLetter) :
    (updateFirst p f letters).map (·.event) = letters.map (·.event) := by
  induction letters with
  | nil => rfl
  | cons d letters ih =>
    rw [updateFirst]
    split_ifs with hp
    · simp [hf]
    · simp [ih]

/-- A failed event is in the queue, or an event with its id was. -/
theorem map_event_lettersWith (e : ChangeEvent) (t : ℚ) (error : String)
    (letters : List DeadLetter) :
    ((∃ x ∈ letters.map (·.event), x.eventId = e.eventId) ∧
      (lettersWith e t error letters).map (·.event) = letters.map (·.event)) ∨
    (lettersWith e t error letters).map (·.event) = letters.map (·.event) ++ [e] := by
  unfold lettersWith
  split_ifs with hany
  · left
    constructor
    · simpa using hany
    · apply map_event_updateFirst
      exact fun _ => rfl
  · right
    simp

/-! ## One call -/

variable {w₀ w w' : World V} {e : ChangeEvent}

/-- Unless the process stopped, a call that raised changed nothing. -/
def Unchanged {α : Type} (r : Except Failure α) (w w' : World V) : Prop :=
  ∀ f, r = .error f → f ≠ .stopped → w'.memory = w.memory ∧ w'.file = w.file

/-- An update that moves the checkpoint of a stream to a new event. -/
theorem commit_ends {f : State → EventM V State} (hq : ∀ s, Rel (Calm g) (f s))
    (h : Standing g w₀ w) (hs : Synced w) (hnew : ¬Below w.durable e)
    (hcand : ∀ candidate w₁, f w.durable w = (.ok candidate, w₁) → ∃ t letters,
      candidate = g.committed e t { w.durable with deadLetters := letters } ∧
      Ledger g candidate w.trace)
    {r : Except Failure Unit} (hrun : g.edit f w = (r, w')) :
    Ends g w₀ r w' ∧ (r = .ok () → Raised w.durable w'.durable e) ∧ Unchanged r w w' := by
  refine ⟨?_, ?_, ?_⟩
  · refine h.edit hq hs (fun candidate w₁ hm => ?_) hrun
    obtain ⟨t, letters, rfl, hl⟩ := hcand candidate w₁ hm
    refine ⟨hl, ?_⟩
    intro key p hp
    exact committed_advances (s := { w.durable with deadLetters := letters }) hnew key p hp
  all_goals obtain ⟨f', hr, hc⟩ | ⟨candidate, w₁, hm, -, hw, hr⟩ := edit_cases hq hrun
  · rintro rfl
    cases hr
  · intro _
    obtain ⟨t, letters, rfl, -⟩ := hcand candidate w₁ (hs ▸ hm)
    rw [hw.durable]
    exact committed_raised hnew rfl
  · exact fun f _ _ => ⟨hc.memory, hc.file⟩
  · intro f hf hne
    obtain ⟨hr, -⟩ | ⟨hr, -⟩ := hr
    · rw [hr] at hf
      exact absurd (Except.error.inj hf).symm hne
    · rw [hr] at hf
      cases hf

theorem complete_ends (h : Standing g w₀ w) (hs : Synced w) (he : Submitted w.trace e)
    (hnew : ¬Below w.durable e) (hi : Invalidated g w.trace e) {r : Except Failure Unit}
    (hrun : g.complete e w = (r, w')) :
    Ends g w₀ r w' ∧ (r = .ok () → Raised w.durable w'.durable e) ∧ Unchanged r w w' := by
  refine commit_ends (calm_completed e) h hs hnew (fun candidate w₁ hm => ?_) hrun
  obtain ⟨t, rfl⟩ := completed_ok hm
  refine ⟨t, w.durable.deadLetters, rfl, ?_⟩
  exact h.ledger.commit he hnew rfl rfl (fun _ => mem_rememberSeen) (fun _ => .inl) (fun _ => id)
    (.inl hi)

theorem queued_ok {t : ℚ} {error : String} {s s' : State} (h : g.queued e t error s w = (.ok s', w')) :
    ∃ t', s' = g.committed e t' { s with deadLetters := lettersWith e t error s.deadLetters } := by
  rw [queued, bind_eq_ok] at h
  obtain ⟨_, w₁, -, h⟩ := h
  rw [bind_eq_ok] at h
  obtain ⟨_, w₂, -, h⟩ := h
  rw [bind_eq_ok] at h
  obtain ⟨s₁, w₃, ha, h⟩ := h
  obtain ⟨t', ht⟩ := advanceCheckpoint_ok ha
  obtain ⟨hs, -⟩ := Prod.mk.inj h
  obtain rfl := Except.ok.inj hs
  exact ⟨t', ht⟩

/-- The queue with a failed event accounts for it. -/
theorem queued_ledger {s : State} {trace : List (Moment V)} (h : Ledger g s trace)
    (he : Submitted trace e) (hnew : ¬Below s e) (t t' : ℚ) (error : String) :
    Ledger g (g.committed e t' { s with deadLetters := lettersWith e t error s.deadLetters })
      trace := by
  obtain ⟨⟨y, hy, hid⟩, heq⟩ | heq := map_event_lettersWith e t error s.deadLetters
  · -- the queue had an event with this id, so it had this event
    obtain rfl := h.unique y e (h.queue y hy) he (.inl hid)
    have hsame : ∀ x, Queued (g.committed y t' { s with
        deadLetters := lettersWith y t error s.deadLetters }) x ↔ Queued s x := by
      intro x
      show x ∈ (lettersWith y t error s.deadLetters).map (·.event) ↔ _
      rw [heq, Queued]
    exact h.commit he hnew rfl rfl (fun _ => mem_rememberSeen) (fun x hx => .inl ((hsame x).mp hx))
      (fun x hx => (hsame x).mpr hx) (.inr ((hsame y).mpr hy))
  · have hmore : ∀ x, Queued (g.committed e t' { s with
        deadLetters := lettersWith e t error s.deadLetters }) x ↔ Queued s x ∨ x = e := by
      intro x
      show x ∈ (lettersWith e t error s.deadLetters).map (·.event) ↔ _
      rw [heq, List.mem_append, List.mem_singleton, Queued]
    exact h.commit he hnew rfl rfl (fun _ => mem_rememberSeen) (fun x hx => (hmore x).mp hx)
      (fun x hx => (hmore x).mpr (.inl hx)) (.inr ((hmore e).mpr (.inr rfl)))

theorem deadLetter_ends (h : Standing g w₀ w) (hs : Synced w) (he : Submitted w.trace e)
    (hnew : ¬Below w.durable e) {error : String} {r : Except Failure Unit}
    (hrun : g.deadLetter e error w = (r, w')) :
    Ends g w₀ r w' ∧ (r = .ok () → Raised w.durable w'.durable e) ∧ Unchanged r w w' := by
  -- reading the clock changes nothing that matters here
  have hc : Calm g w (g.time w).2 := calm_time w
  have hd : (g.time w).2.durable = w.durable := hc.durable
  have he₁ : Submitted (g.time w).2.trace e := he
  have hrun' : g.edit (g.queued e (g.clock w.ticks) (g.boundedError error)) (g.time w).2 =
      (r, w') := hrun
  exact commit_ends (calm_queued e _ _) (h.calm hc) (hs.calm hc) hnew (fun candidate w₁ hm => by
    obtain ⟨t, rfl⟩ := queued_ok hm
    exact ⟨t, _, rfl, queued_ledger (h.calm hc).ledger he₁ hnew _ _ _⟩) hrun'

/-- How an `ingest` of a submitted event ends. -/
structure Ingested (g : Ingestor V) (w₀ : World V) (e : ChangeEvent) (w : World V)
    (r : Except Failure EventResult) (w' : World V) : Prop where
  ends : Ends g w₀ r w'
  below : ∀ x, r = .ok x → Below w'.durable e
  raised : ∀ x, r = .ok x → (x.outcome = .processed ∨ x.outcome = .deadLetter) →
    Raised w.durable w'.durable e
  unchanged : Unchanged r w w'

theorem Ingested.error (h : Standing g w₀ w) (hs : Synced w) (hc : Calm g w w') (f : Failure) :
    Ingested g w₀ e w (.error f) w' where
  ends := h.ends_calm hs hc _
  below := by simp
  raised := by simp
  unchanged := fun _ _ _ => ⟨hc.memory, hc.file⟩

/-- An event that was dealt with before. -/
theorem Ingested.known (h : Standing g w₀ w) (hs : Synced w) (hb : Below w.durable e)
    {outcome : Outcome} (ho : outcome = .duplicate ∨ outcome = .replayed)
    {r : Except Failure EventResult} (hrun : result outcome e none w = (r, w')) :
    Ingested g w₀ e w r w' := by
  obtain ⟨rfl, rfl⟩ := Prod.mk.inj hrun
  refine ⟨⟨h, fun _ => hs⟩, fun _ _ => hb, fun x hx hout => ?_, by simp [Unchanged]⟩
  obtain rfl := Except.ok.inj hx
  rcases ho with rfl | rfl <;> simp at hout

/-- A new event is applied and completed, or queued, or the call raises. -/
theorem applied_ends (h : Standing g w₀ w) (hs : Synced w) (he : Submitted w.trace e)
    (hnew : ¬Below w.durable e) {r : Except Failure EventResult}
    (hrun : (do
      let (r, applied) ← g.applyOrQueue e
      (if applied then g.complete e else pure ())
      pure r : EventM V EventResult) w = (r, w')) : Ingested g w₀ e w r w' := by
  rw [run_bind, applyOrQueue, run_tryCatch, run_bind] at hrun
  rcases ha : g.prepareAndApply e w with ⟨f | x, w₁⟩
  · have hc : Calm g w w₁ := (calm_prepareAndApply e).run ha
    simp only [ha, run_ite] at hrun
    split_ifs at hrun with hrej
    · obtain ⟨rfl, rfl⟩ := Prod.mk.inj hrun
      exact Ingested.error h hs hc f
    · rw [run_bind] at hrun
      have he₁ : Submitted w₁.trace e := by
        obtain ⟨new, -, ht⟩ := hc.trace
        rw [ht]
        exact List.mem_append_right _ he
      have hnew₁ : ¬Below w₁.durable e := hc.durable ▸ hnew
      rcases hd : g.deadLetter e f.text w₁ with ⟨f' | u, w₂⟩ <;>
        obtain ⟨hends, hraised, hun⟩ := deadLetter_ends (h.calm hc) (hs.calm hc) he₁ hnew₁ hd
      · simp only [hd] at hrun
        obtain ⟨rfl, rfl⟩ := Prod.mk.inj hrun
        refine ⟨⟨hends.standing, fun hne => hends.synced (by simpa using hne)⟩, by simp, by simp,
          fun f hf hne => ?_⟩
        obtain ⟨hm, hfile⟩ := hun f (by simpa using hf) hne
        exact ⟨hm.trans hc.memory, hfile.trans hc.file⟩
      · simp only [hd] at hrun
        obtain ⟨rfl, rfl⟩ := Prod.mk.inj hrun
        have hr : Raised w.durable w₂.durable e := hc.durable ▸ hraised rfl
        exact ⟨⟨hends.standing, fun _ => hends.synced (by simp)⟩, fun _ _ => hr.below,
          fun _ _ _ => hr, by simp [Unchanged]⟩
  · have hc : Calm g w w₁ := (calm_prepareAndApply e).run ha
    obtain ⟨hout, new, hnew', htrace, hcleared⟩ := prepareAndApply_ok h.sound ha
    have he₁ : Submitted w₁.trace e := by
      rw [htrace]
      exact List.mem_append_right _ he
    have hi : Invalidated g w₁.trace e := by
      rw [htrace]
      exact he.invalidated hcleared
    have hnew₁ : ¬Below w₁.durable e := hc.durable ▸ hnew
    simp only [ha, run_pure, ↓reduceIte] at hrun
    rw [run_bind] at hrun
    rcases hd : g.complete e w₁ with ⟨f' | u, w₂⟩ <;>
      obtain ⟨hends, hraised, hun⟩ := complete_ends (h.calm hc) (hs.calm hc) he₁ hnew₁ hi hd
    · simp only [hd] at hrun
      obtain ⟨rfl, rfl⟩ := Prod.mk.inj hrun
      refine ⟨⟨hends.standing, fun hne => hends.synced (by simpa using hne)⟩, by simp, by simp,
        fun f hf hne => ?_⟩
      obtain ⟨hm, hfile⟩ := hun f (by simpa using hf) hne
      exact ⟨hm.trans hc.memory, hfile.trans hc.file⟩
    · simp only [hd] at hrun
      obtain ⟨rfl, rfl⟩ := Prod.mk.inj hrun
      have hr : Raised w.durable w₂.durable e := hc.durable ▸ hraised rfl
      exact ⟨⟨hends.standing, fun _ => hends.synced (by simp)⟩, fun _ _ => hr.below,
        fun _ _ _ => hr, by simp [Unchanged]⟩

theorem ingest_ends (h : Standing g w₀ w) (hs : Synced w) (he : Submitted w.trace e)
    {r : Except Failure EventResult} (hrun : g.ingest e w = (r, w')) : Ingested g w₀ e w r w' := by
  rw [ingest, run_bind, fromExcept] at hrun
  rcases hrules : raiseIf (g.rules = []) (.eventIngestionDisabled disabledMessage) with f | u <;>
    rw [hrules] at hrun <;> simp only at hrun
  · obtain ⟨rfl, rfl⟩ := Prod.mk.inj hrun
    exact Ingested.error h hs (Calm.refl w) f
  rw [run_bind, fromExcept] at hrun
  rcases hvalid : g.validateEvent e with f | u <;> rw [hvalid] at hrun <;> simp only at hrun
  · obtain ⟨rfl, rfl⟩ := Prod.mk.inj hrun
    exact Ingested.error h hs (Calm.refl w) f
  rw [run_bind, run_get] at hrun
  simp only [run_ite] at hrun
  rw [hs] at hrun
  split_ifs at hrun with hseen hpos
  · -- the id is in the history, so this very event was dealt with
    obtain ⟨x, hx, hid, hb⟩ := h.ledger.seen _ hseen
    obtain rfl := h.ledger.unique x e hx he (.inl hid)
    exact Ingested.known h hs hb (.inl rfl) hrun
  · cases hp : w.durable.checkpoints.get? e.checkpointKey with
    | none => simp [hp] at hpos
    | some p => exact Ingested.known h hs ⟨p, hp, by simpa [hp] using hpos⟩ (.inr rfl) hrun
  · have hnew : ¬Below w.durable e := by
      rintro ⟨p, hp, hle⟩
      simp [hp, hle] at hpos
    rw [run_bind] at hrun
    rcases hcap : g.ensureCompleteCapacity e w with ⟨f | u, w₁⟩
    all_goals
      have hc : Calm g w w₁ := (calm_ensureCompleteCapacity e).run hcap
      simp only [hcap] at hrun
    · obtain ⟨rfl, rfl⟩ := Prod.mk.inj hrun
      exact Ingested.error h hs hc f
    · have he₁ : Submitted w₁.trace e := by
        obtain ⟨new, -, ht⟩ := hc.trace
        rw [ht]
        exact List.mem_append_right _ he
      obtain ⟨hends, hbelow, hraised, hun⟩ :=
        applied_ends (h.calm hc) (hs.calm hc) he₁ (hc.durable ▸ hnew) hrun
      refine ⟨hends, hbelow, fun x hx ho => hc.durable ▸ hraised x hx ho, fun f hf hne => ?_⟩
      obtain ⟨hm, hfile⟩ := hun f hf hne
      exact ⟨hm.trans hc.memory, hfile.trans hc.file⟩

theorem submit_ends (h : Standing g w₀ w) (hs : Synced w) (ho : InOrder w.trace e)
    {r : Except Failure EventResult} (hrun : g.submit e w = (r, w')) : Ingested g w₀ e w r w' := by
  obtain ⟨older, hold⟩ := h.trace
  have h₁ : Standing g w₀ { w with trace := .submitted e :: w.trace } :=
    ⟨h.ledger.submit ho, h.sound, h.advances, .submitted e :: older, by simp [hold]⟩
  have he₁ : Submitted (.submitted e :: w.trace) e := List.mem_cons_self
  rw [submit, run_bind, run_modify] at hrun
  simp only at hrun
  rw [run_bind] at hrun
  rcases hi : g.ingest e { w with trace := .submitted e :: w.trace } with ⟨f | x, w₁⟩ <;>
    simp only [hi] at hrun <;> obtain ⟨rfl, rfl⟩ := Prod.mk.inj hrun <;>
    obtain ⟨hends, hbelow, hraised, hun⟩ := ingest_ends h₁.rebase hs he₁ hi
  · exact ⟨⟨h₁.trans hends.standing, hends.synced⟩, by simp, by simp, hun⟩
  · have hb := hbelow x rfl
    have hall := h₁.trans hends.standing
    obtain ⟨new, hnew⟩ := hall.trace
    have hledger := hall.ledger.answer x.outcome (hends.standing.submitted he₁) hb
    refine ⟨⟨⟨hledger, hall.sound, hall.advances, .answered e x.outcome :: new, by simp [hnew]⟩,
      hends.synced⟩, fun _ _ => hb, fun y hy hout => ?_, by simp [Unchanged]⟩
    obtain rfl := Except.ok.inj hy
    exact hraised x rfl hout

/-! ## Retries, claims and restarts -/

theorem updateDeadLetter_ends (h : Standing g w₀ w) (hs : Synced w) {eventId error : String}
    {t : ℚ} {r : Except Failure Unit} (hrun : g.updateDeadLetter eventId error t w = (r, w')) :
    Ends g w₀ r w' := by
  refine h.edit (fun s => Rel.bind (Rel.fromExcept _) fun _ => Rel.pure _) hs
    (fun candidate w₁ hm => ?_) hrun
  rw [bind_eq_ok] at hm
  obtain ⟨_, w₂, -, hpure⟩ := hm
  obtain ⟨heq, -⟩ := Prod.mk.inj hpure
  obtain rfl := Except.ok.inj heq
  have hsame : ∀ x, Queued { w.durable with
      deadLetters := lettersAgain eventId t (g.boundedError error) w.durable.deadLetters } x ↔
      Queued w.durable x := by
    intro x
    simp only [Queued, lettersAgain, map_event_updateFirst (f := failedAgain t _) fun _ => rfl]
  exact ⟨h.ledger.keep rfl rfl (fun x hx => (hsame x).mp hx) fun x hx => .inr ((hsame x).mpr hx),
    Advances.refl _⟩

theorem removeDeadLetter_ends (h : Standing g w₀ w) (hs : Synced w) (he : Submitted w.trace e)
    (hi : Invalidated g w.trace e) {r : Except Failure Unit}
    (hrun : g.removeDeadLetter e.eventId w = (r, w')) : Ends g w₀ r w' := by
  refine h.edit (fun s => Rel.pure _) hs (fun candidate w₁ hm => ?_) hrun
  obtain ⟨heq, -⟩ := Prod.mk.inj hm
  obtain rfl := Except.ok.inj heq
  refine ⟨h.ledger.keep rfl rfl (fun x hx => ?_) (fun x hx => ?_), Advances.refl _⟩
  · obtain ⟨d, hd, rfl⟩ := List.mem_map.mp hx
    exact List.mem_map.mpr ⟨d, List.mem_of_mem_filter hd, rfl⟩
  · by_cases hid : x.eventId = e.eventId
    · -- only the event itself has this id
      obtain rfl := h.ledger.unique x e (h.ledger.queue x hx) he (.inl hid)
      exact .inl hi
    · obtain ⟨d, hd, rfl⟩ := List.mem_map.mp hx
      exact .inr (List.mem_map.mpr ⟨d, List.mem_filter.mpr ⟨hd, by simpa using hid⟩, rfl⟩)

theorem retryLetter_ends (h : Standing g w₀ w) (hs : Synced w) {d : DeadLetter}
    (hd : Submitted w.trace d.event) {limit : ℤ} {current : ℚ} {counts : Retried}
    {r : Except Failure Retried} (hrun : g.retryLetter limit current counts d w = (r, w')) :
    Ends g w₀ r w' := by
  rw [retryLetter, run_ite] at hrun
  split_ifs at hrun with hskip
  · obtain ⟨rfl, rfl⟩ := Prod.mk.inj hrun
    exact h.ends_calm hs (Calm.refl w) _
  rw [run_bind, caught, run_tryCatch, run_bind] at hrun
  rcases ha : g.prepareAndApply d.event w with ⟨f | x, w₁⟩
  · have hc : Calm g w w₁ := (calm_prepareAndApply d.event).run ha
    simp only [ha, run_ite] at hrun
    split_ifs at hrun with hex
    · simp only [run_pure] at hrun
      rw [run_bind] at hrun
      rcases hu : g.updateDeadLetter d.event.eventId f.text current w₁ with ⟨f' | u, w₂⟩ <;>
        simp only [hu] at hrun <;> obtain ⟨rfl, rfl⟩ := Prod.mk.inj hrun <;>
        obtain ⟨hst, hsy⟩ := updateDeadLetter_ends (h.calm hc) (hs.calm hc) hu
      · exact ⟨hst, fun hne => hsy (by simpa using hne)⟩
      · exact ⟨hst, fun _ => hsy (by simp)⟩
    · obtain ⟨rfl, rfl⟩ := Prod.mk.inj hrun
      exact h.ends_calm hs hc _
  · have hc : Calm g w w₁ := (calm_prepareAndApply d.event).run ha
    obtain ⟨-, new, -, htrace, hcleared⟩ := prepareAndApply_ok h.sound ha
    have hi : Invalidated g w₁.trace d.event := by
      rw [htrace]
      exact hd.invalidated hcleared
    have hd₁ : Submitted w₁.trace d.event := (h.rebase.calm hc).submitted hd
    simp only [ha, run_pure] at hrun
    rw [run_bind] at hrun
    rcases hu : g.removeDeadLetter d.event.eventId w₁ with ⟨f' | u, w₂⟩ <;>
      simp only [hu] at hrun <;> obtain ⟨rfl, rfl⟩ := Prod.mk.inj hrun <;>
      obtain ⟨hst, hsy⟩ := removeDeadLetter_ends (h.calm hc) (hs.calm hc) hd₁ hi hu
    · exact ⟨hst, fun hne => hsy (by simpa using hne)⟩
    · exact ⟨hst, fun _ => hsy (by simp)⟩

theorem retryLetters_ends {limit : ℤ} {current : ℚ} {letters : List DeadLetter}
    {counts : Retried} (h : Standing g w₀ w) (hs : Synced w)
    (hd : ∀ d ∈ letters, Submitted w.trace d.event) {r : Except Failure Retried}
    (hrun : Prog.fold (g.retryLetter limit current) counts letters w = (r, w')) :
    Ends g w₀ r w' := by
  induction letters generalizing counts w with
  | nil =>
    obtain ⟨rfl, rfl⟩ := Prod.mk.inj hrun
    exact h.ends_calm hs (Calm.refl w) _
  | cons d letters ih =>
    rw [Prog.fold, run_bind] at hrun
    rcases hone : g.retryLetter limit current counts d w with ⟨f | counts', w₁⟩
    all_goals
      have hfirst := retryLetter_ends h.rebase hs (hd d List.mem_cons_self) hone
      simp only [hone] at hrun
    · obtain ⟨rfl, rfl⟩ := Prod.mk.inj hrun
      exact ⟨h.trans hfirst.standing, hfirst.synced⟩
    · exact ih (h.trans hfirst.standing) (hfirst.synced (by simp))
        (fun d' hd' => hfirst.standing.submitted (hd d' (List.mem_cons_of_mem _ hd'))) hrun

theorem retryDeadLetters_ends (h : Standing g w₀ w) (hs : Synced w) {limit : ℤ}
    {r : Except Failure Retried} (hrun : g.retryDeadLetters limit w = (r, w')) :
    Ends g w₀ r w' := by
  rw [retryDeadLetters, run_bind, fromExcept] at hrun
  rcases hlimit : raiseIf (limit ≤ 0) (.eventError "retry limit must be positive") with f | u <;>
    rw [hlimit] at hrun <;> simp only at hrun
  · obtain ⟨rfl, rfl⟩ := Prod.mk.inj hrun
    exact h.ends_calm hs (Calm.refl w) _
  have hc : Calm g w (g.time w).2 := calm_time w
  rw [run_bind_ok (show g.time w = (.ok (g.clock w.ticks), (g.time w).2) from rfl), run_bind,
    fromExcept] at hrun
  rcases hrules : raiseIf (g.rules = []) (.eventIngestionDisabled disabledMessage) with f | u <;>
    rw [hrules] at hrun <;> simp only at hrun
  · obtain ⟨rfl, rfl⟩ := Prod.mk.inj hrun
    exact h.ends_calm hs hc _
  rw [run_bind, run_get] at hrun
  refine retryLetters_ends (h.calm hc) (hs.calm hc) (fun d hd => ?_) hrun
  have hd' : d ∈ w.durable.deadLetters := hs ▸ hd
  exact h.ledger.queue d.event (List.mem_map_of_mem hd')

theorem claimReplayToken_calm (token : String) (expiresAt current : ℚ) (s : State) :
    Rel (Calm g) (g.claimed token expiresAt current s : EventM V (Bool × State)) := by
  unfold claimed
  exact Rel.ite (fun _ => Rel.pure _) fun _ => Rel.ite (fun _ => Rel.throw _) fun _ => Rel.pure _

/-- A claim only changes the claims. -/
theorem claimed_ok {token : String} {expiresAt current : ℚ} {s s' : State} {b : Bool}
    (h : g.claimed token expiresAt current s w = (.ok (b, s'), w')) :
    ∃ replay, s' = { s with replayTokens := replay } := by
  unfold claimed at h
  rw [run_ite, run_ite] at h
  split_ifs at h
  · obtain ⟨heq, -⟩ := Prod.mk.inj h
    obtain ⟨-, rfl⟩ := Prod.mk.inj (Except.ok.inj heq)
    exact ⟨_, rfl⟩
  · cases h
  · obtain ⟨heq, -⟩ := Prod.mk.inj h
    obtain ⟨-, rfl⟩ := Prod.mk.inj (Except.ok.inj heq)
    exact ⟨_, rfl⟩

theorem claims_ledger {s : State} {trace : List (Moment V)} (h : Ledger g s trace)
    (replay : List ReplayClaim) : Ledger g { s with replayTokens := replay } trace :=
  h.keep rfl rfl (fun _ => id) fun _ => .inr

theorem claimReplayToken_ends (h : Standing g w₀ w) (hs : Synced w) {token : String}
    {expiresAt current : ℚ} {r : Except Failure Bool}
    (hrun : g.claimReplayToken token expiresAt current w = (r, w')) : Ends g w₀ r w' := by
  obtain ⟨f, -, hc⟩ | ⟨b, candidate, w₁, hm, -, hw, hr⟩ :=
    mutate_cases (claimReplayToken_calm token expiresAt current) hrun
  · exact h.ends_calm hs hc r
  · obtain ⟨replay, rfl⟩ := claimed_ok hm
    rw [hs] at hw hr
    refine ⟨h.written hw (claims_ledger h.ledger replay) (Advances.refl _), fun hne => ?_⟩
    obtain ⟨hr, -⟩ | ⟨-, hmem⟩ := hr
    · exact absurd hr hne
    · rw [Synced, hmem, hw.durable]

/-- The ways a start can end: it raises and nothing changes, there is no file, dead claims
were dropped and the file is written anew, or nothing was dropped. -/
theorem load_cases {r : Except Failure Unit} (hrun : g.load w = (r, w')) :
    (∃ f, r = .error f ∧ Calm g w w') ∨
    (r = .ok () ∧ w.file = none ∧ w' = { w with memory := State.empty }) ∨
    ∃ s replay w₁, w.file = some s ∧ Prog.select g.unexpired s.replayTokens w = (.ok replay, w₁) ∧
      Calm g w w₁ ∧
      ((Written g { s with replayTokens := replay } w₁ w' ∧
        ((∃ f, r = .error f) ∨ w'.memory = { s with replayTokens := replay })) ∨
      (replay = s.replayTokens ∧ r = .ok () ∧ w' = { w₁ with memory := s })) := by
  rw [load, run_bind, run_get] at hrun
  simp only at hrun
  cases hf : w.file with
  | none =>
    rw [hf] at hrun
    obtain ⟨rfl, rfl⟩ := Prod.mk.inj hrun
    refine .inr (.inl ⟨rfl, rfl, ?_⟩)
    rw [← hf]
  | some s =>
    rw [hf] at hrun
    simp only at hrun
    rw [run_bind, fromExcept] at hrun
    rcases hbytes : raiseIf (g.limits.maxStateBytes < g.stateBytes s)
        (.eventBackpressure "existing event state exceeds configured byte limit") with f | u <;>
      rw [hbytes] at hrun <;> simp only at hrun
    · obtain ⟨rfl, rfl⟩ := Prod.mk.inj hrun
      exact .inl ⟨f, rfl, Calm.refl w⟩
    rw [run_bind] at hrun
    have hkeep : ∀ claim ∈ s.replayTokens, Rel (Calm g) (g.unexpired claim : EventM V Bool) :=
      fun _ _ => Rel.bind calm_time fun _ => Rel.pure _
    rcases hsel : Prog.select g.unexpired s.replayTokens w with ⟨f | replay, w₁⟩ <;>
      have hc : Calm g w w₁ := (Rel.select hkeep).run hsel <;> simp only [hsel] at hrun
    · obtain ⟨rfl, rfl⟩ := Prod.mk.inj hrun
      exact .inl ⟨f, rfl, hc⟩
    have hsub : replay.Sublist s.replayTokens := (Rel.select_round hkeep hsel).1
    rw [run_bind, fromExcept] at hrun
    rcases hvalid : g.validateStateLimits { s with replayTokens := replay } with f | u <;>
      rw [hvalid] at hrun <;> simp only at hrun
    · obtain ⟨rfl, rfl⟩ := Prod.mk.inj hrun
      exact .inl ⟨f, rfl, hc⟩
    rw [run_bind, run_ite] at hrun
    split_ifs at hrun with hlen
    · rcases hp : g.persist { s with replayTokens := replay } w₁ with ⟨f | u, w₂⟩ <;>
        simp only [hp] at hrun <;> obtain ⟨rfl, rfl⟩ := Prod.mk.inj hrun <;>
        obtain ⟨hok, hw, -⟩ | ⟨f', herr, hc'⟩ | ⟨hstop, hw, -⟩ := persist_cases hp
      · cases hok
      · exact .inl ⟨f, rfl, hc.trans hc'⟩
      · exact .inr (.inr ⟨s, replay, w₁, rfl, hsel, hc, .inl ⟨hw, .inl ⟨f, rfl⟩⟩⟩)
      · exact .inr (.inr ⟨s, replay, w₁, rfl, hsel, hc,
          .inl ⟨⟨hw.file, hw.sound, hw.ticks, hw.trace⟩, .inr rfl⟩⟩)
      · cases herr
      · cases hstop
    · have hsame : replay = s.replayTokens := hsub.eq_of_length (not_not.mp hlen)
      obtain ⟨rfl, rfl⟩ := Prod.mk.inj hrun
      refine .inr (.inr ⟨s, replay, w₁, rfl, hsel, hc, .inr ⟨hsame, rfl, ?_⟩⟩)
      rw [hsame]

theorem load_ends (h : Standing g w₀ w) {r : Except Failure Unit} (hrun : g.load w = (r, w')) :
    Standing g w₀ w' ∧ (r = .ok () → Synced w') := by
  obtain ⟨f, rfl, hc⟩ | ⟨rfl, hfile, rfl⟩ | ⟨s, replay, w₁, hfile, -, hc, hend⟩ := load_cases hrun
  · exact ⟨h.calm hc, by simp⟩
  · refine ⟨⟨h.ledger, h.sound, h.advances, h.trace⟩, fun _ => ?_⟩
    show State.empty = w.file.getD State.empty
    rw [hfile, Option.getD_none]
  · have hdur : w₁.durable = s := by rw [hc.durable, World.durable, hfile, Option.getD_some]
    have hst := h.calm hc
    obtain ⟨hw, hr⟩ | ⟨-, -, rfl⟩ := hend
    · have hl : Ledger g s w₁.trace := hdur ▸ hst.ledger
      refine ⟨hst.written hw (claims_ledger hl replay) ?_, fun hok => ?_⟩
      · rw [hdur]
        exact Advances.refl _
      · obtain ⟨f, rfl⟩ | hmem := hr
        · cases hok
        · rw [Synced, hmem, hw.durable]
    · exact ⟨⟨hst.ledger, hst.sound, hst.advances, hst.trace⟩, fun _ => hdur.symm⟩

end Ingestor

/-! ## Runs -/

/-- A call of the ingestor or a claim of a webhook. -/
inductive EventCall
  | ingest (event : ChangeEvent)
  | retry (limit : ℤ)
  | claim (token : String) (expiresAt current : ℚ)

/-- The call, with the outcome of an `ingest`. -/
def EventCall.run (g : Ingestor V) : EventCall → EventM V (Option Outcome)
  | .ingest event => do
    let r ← g.submit event
    pure (some r.outcome)
  | .retry limit => do
    let _ ← g.retryDeadLetters limit
    pure none
  | .claim token expiresAt current => do
    let _ ← g.claimReplayToken token expiresAt current
    pure none

/-- Whether an `ingest` comes in order; other calls may come at any time. -/
def EventCall.Admissible (w : World V) : EventCall → Prop
  | .ingest event => InOrder w.trace event
  | .retry _ => True
  | .claim _ _ _ => True

inductive Action (V : Type)
  | call (c : EventCall) (luck : List (Luck V))
  | clients (calls : List (Engine.Call V))
  | restart (luck : List (Luck V))

/-- A world, and whether a process is running in it. -/
structure Process (V : Type) where
  world : World V
  up : Bool

namespace Process

/-- Before the first start: no file. -/
def init : Process V := ⟨⟨Engine.init, State.empty, none, 0, [], []⟩, false⟩

/-- The process after a call. -/
def after {α : Type} : Except Failure α × World V → Process V
  | (.error .stopped, w) => ⟨w, false⟩
  | (_, w) => ⟨w, true⟩

@[simp] theorem after_world {α : Type} (x : Except Failure α × World V) :
    (after x).world = x.2 := by
  unfold after
  split <;> rfl

def step (g : Ingestor V) (p : Process V) : Action V → Process V
  | .call c luck => if p.up then after (c.run g { p.world with luck := luck }) else p
  | .clients calls =>
    if p.up then
      { p with world := { p.world with
        engine := calls.foldl (fun e call => call.run g.engine e) p.world.engine } }
    else p
  | .restart luck =>
    match g.load { p.world with engine := Engine.init, luck := luck } with
    | (.ok _, w) => ⟨w, true⟩
    | (.error _, w) => ⟨w, false⟩

/-- Calls are made to a running process and events are submitted in order. -/
def Admissible (p : Process V) : Action V → Prop
  | .call c _ => p.up = true ∧ c.Admissible p.world
  | .clients _ => True
  | .restart _ => True

end Process

inductive Runs (g : Ingestor V) : Process V → Prop
  | init : Runs g .init
  | step {p : Process V} {a : Action V} : Runs g p → p.Admissible a → Runs g (p.step g a)

theorem EventCall.ends {c : EventCall} {w₀ w w' : World V} (h : Standing g w₀ w) (hs : Synced w)
    (hadm : c.Admissible w) {r : Except Failure (Option Outcome)} (hrun : c.run g w = (r, w')) :
    Ends g w₀ r w' ∧ ∀ e, c = .ingest e → Ingestor.Unchanged r w w' ∧
      ∀ o, r = .ok (some o) → (o = .processed ∨ o = .deadLetter) →
        Raised w.durable w'.durable e := by
  cases c with
  | ingest event =>
    rw [EventCall.run, run_bind] at hrun
    rcases hsub : g.submit event w with ⟨f | x, w₁⟩ <;> simp only [hsub] at hrun <;>
      obtain ⟨rfl, rfl⟩ := Prod.mk.inj hrun <;>
      obtain ⟨⟨hst, hsy⟩, -, hraised, hun⟩ := Ingestor.submit_ends h hs hadm hsub
    · refine ⟨⟨hst, fun hne => hsy (by simpa using hne)⟩, fun e _ => ⟨fun f hf => ?_, by simp⟩⟩
      exact hun f (by simpa using hf)
    · refine ⟨⟨hst, fun _ => hsy (by simp)⟩, fun e he => ⟨by simp [Ingestor.Unchanged], ?_⟩⟩
      intro o ho hout
      obtain rfl : x.outcome = o := Option.some.inj (Except.ok.inj ho)
      obtain rfl : event = e := EventCall.ingest.inj he
      exact hraised x rfl hout
  | retry limit =>
    rw [EventCall.run, run_bind] at hrun
    rcases hret : g.retryDeadLetters limit w with ⟨f | x, w₁⟩ <;> simp only [hret] at hrun <;>
      obtain ⟨rfl, rfl⟩ := Prod.mk.inj hrun <;>
      obtain ⟨hst, hsy⟩ := Ingestor.retryDeadLetters_ends h hs hret
    · exact ⟨⟨hst, fun hne => hsy (by simpa using hne)⟩, by simp⟩
    · exact ⟨⟨hst, fun _ => hsy (by simp)⟩, by simp⟩
  | claim token expiresAt current =>
    rw [EventCall.run, run_bind] at hrun
    rcases hcl : g.claimReplayToken token expiresAt current w with ⟨f | x, w₁⟩ <;>
      simp only [hcl] at hrun <;> obtain ⟨rfl, rfl⟩ := Prod.mk.inj hrun <;>
      obtain ⟨hst, hsy⟩ := Ingestor.claimReplayToken_ends h hs hcl
    · exact ⟨⟨hst, fun hne => hsy (by simpa using hne)⟩, by simp⟩
    · exact ⟨⟨hst, fun _ => hsy (by simp)⟩, by simp⟩

namespace Process

/-- The durable state of a process accounts for what was submitted, and a running process
has it in memory. -/
structure Fit (g : Ingestor V) (p : Process V) : Prop where
  standing : Standing g p.world p.world
  synced : p.up = true → Synced p.world

/-- A step keeps the account, and no checkpoint goes back. -/
theorem Fit.step {p : Process V} (h : p.Fit g) {a : Action V} (ha : p.Admissible a) :
    Standing g p.world (p.step g a).world ∧
      ((p.step g a).up = true → Synced (p.step g a).world) := by
  cases a with
  | call c luck =>
    obtain ⟨hup, hadm⟩ := ha
    have hst : Standing g p.world { p.world with luck := luck } :=
      ⟨h.standing.ledger, h.standing.sound, h.standing.advances, h.standing.trace⟩
    simp only [Process.step, hup, ↓reduceIte]
    rcases hrun : c.run g { p.world with luck := luck } with ⟨f | x, w⟩
    · obtain ⟨⟨hst', hsy⟩, -⟩ := EventCall.ends hst (h.synced hup) hadm hrun
      by_cases hf : f = .stopped
      · subst hf
        exact ⟨hst', by simp [after]⟩
      · have hafter : after ((.error f : Except Failure (Option Outcome)), w) = ⟨w, true⟩ := by
          cases f <;> first | rfl | exact absurd rfl hf
        rw [hafter]
        exact ⟨hst', fun _ => hsy (by simpa using hf)⟩
    · obtain ⟨⟨hst', hsy⟩, -⟩ := EventCall.ends hst (h.synced hup) hadm hrun
      exact ⟨hst', fun _ => hsy (by simp)⟩
  | clients calls =>
    simp only [Process.step]
    split_ifs with hup
    · exact ⟨⟨h.standing.ledger, Engine.Call.sound_calls calls h.standing.sound,
        h.standing.advances, h.standing.trace⟩, fun _ => h.synced hup⟩
    · exact ⟨h.standing, h.synced⟩
  | restart luck =>
    have hst : Standing g p.world { p.world with engine := Engine.init, luck := luck } :=
      ⟨h.standing.ledger, Engine.Sound.init g.engine, h.standing.advances, h.standing.trace⟩
    simp only [Process.step]
    rcases hrun : g.load { p.world with engine := Engine.init, luck := luck } with ⟨f | u, w⟩ <;>
      obtain ⟨hst', hsy⟩ := Ingestor.load_ends hst hrun
    · exact ⟨hst', by simp⟩
    · exact ⟨hst', fun _ => hsy rfl⟩

end Process

theorem Runs.fit {p : Process V} (h : Runs g p) : p.Fit g := by
  induction h with
  | init =>
    exact ⟨⟨Ledger.empty, Engine.Sound.init g.engine, Advances.refl _, [], rfl⟩, fun _ => rfl⟩
  | step _ ha ih =>
    obtain ⟨hst, hsy⟩ := ih.step ha
    exact ⟨hst.rebase, hsy⟩

/-- An ingestor with one rule, which removes the key of a product and its tag. -/
def smallIngestor : Ingestor String where
  py := ⟨fun _ => none, fun _ => "", fun _ => 1⟩
  limits := ⟨10, 10, 10, 1000, 10, 1000, 100, 100, 100, by decide⟩
  rules := [⟨"products", ["product"], ["products"], [], [], [], [], none⟩]
  graph := ⟨fun key => if key = "product" then ["listing"] else [], 4, 10⟩
  schemas := ⟨[], []⟩
  namespaces := []
  engine := Engine.smallConfig
  clock n := n
  known := by simp
  clock_mono := ticking_mono

end Events
end MegaCache
