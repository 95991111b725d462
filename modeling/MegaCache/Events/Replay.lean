import MegaCache.Events.Delivery

/-!
# Webhook replays

`authenticate` accepts a request inside the tolerance around its timestamp and claims its
delivery for the tolerance after the acceptance.  Runs mix such calls with ingestion,
retries and restarts of the store from its file.
-/

namespace MegaCache
namespace Events

open Prog

variable {V : Type} {g : Ingestor V}

/-- Memory and file have the same claims. -/
def Agree (w : World V) : Prop := w.memory.replayTokens = w.durable.replayTokens

/-- A program that has nothing to do with claims. -/
structure Apart (w w' : World V) : Prop where
  ticks : w.ticks ≤ w'.ticks
  claims : Agree w → Agree w' ∧ w'.durable.replayTokens = w.durable.replayTokens

instance : Std.Refl (Apart (V := V)) := ⟨fun _ => ⟨le_rfl, fun h => ⟨h, rfl⟩⟩⟩

instance : IsTrans (World V) Apart where
  trans _ _ _ h h' := ⟨h.ticks.trans h'.ticks, fun hw => by
    obtain ⟨hw', heq⟩ := h.claims hw
    obtain ⟨hw'', heq'⟩ := h'.claims hw'
    exact ⟨hw'', heq'.trans heq⟩⟩

theorem Calm.agree {w w' : World V} (h : Calm g w w') (hw : Agree w) : Agree w' := by
  rw [Agree, h.memory, h.durable]
  exact hw

theorem Calm.apart {w w' : World V} (h : Calm g w w') : Apart w w' :=
  ⟨h.ticks, fun hw => ⟨h.agree hw, by rw [h.durable]⟩⟩

namespace Ingestor

theorem apart_of_calm {α : Type} {m : EventM V α} (h : Rel (Calm g) m) : Rel Apart m :=
  h.mono fun _ _ => Calm.apart

theorem apart_edit {f : State → EventM V State} (hq : ∀ s, Rel (Calm g) (f s))
    (hf : ∀ s w s' w', f s w = (.ok s', w') → s'.replayTokens = s.replayTokens) :
    Rel Apart (g.edit f) := by
  intro w
  obtain ⟨e, -, hc⟩ | ⟨candidate, w₁, hm, -, hw, hr⟩ :=
    edit_cases hq (show g.edit f w = ((g.edit f w).1, (g.edit f w).2) from rfl)
  · exact hc.apart
  · have hsame : candidate.replayTokens = w.memory.replayTokens := hf _ _ _ _ hm
    refine ⟨hw.ticks, fun hagree => ?_⟩
    have hdur : (g.edit f w).2.durable.replayTokens = w.durable.replayTokens := by
      rw [hw.durable, hsame, hagree]
    refine ⟨?_, hdur⟩
    obtain ⟨-, hmem⟩ | ⟨-, hmem⟩ := hr
    · rw [Agree, hdur, hmem, hagree]
    · rw [Agree, hmem, hw.durable]

theorem apart_complete (e : ChangeEvent) : Rel Apart (g.complete e : EventM V Unit) := by
  refine apart_edit (calm_completed e) fun s w s' w' h => ?_
  obtain ⟨t, rfl⟩ := completed_ok h
  rfl

theorem apart_deadLetter (e : ChangeEvent) (error : String) :
    Rel Apart (g.deadLetter e error : EventM V Unit) := by
  refine Rel.bind (apart_of_calm calm_time) fun t => ?_
  refine apart_edit (calm_queued e t _) fun s w s' w' h => ?_
  obtain ⟨t', rfl⟩ := queued_ok h
  rfl

theorem apart_ingest (e : ChangeEvent) : Rel Apart (g.ingest e : EventM V EventResult) := by
  have hqueue : Rel Apart (g.applyOrQueue e : EventM V (EventResult × Bool)) := by
    refine Rel.tryCatch (Rel.bind (apart_of_calm (calm_prepareAndApply e)) fun _ => Rel.pure _)
      fun f => Rel.ite (fun _ => Rel.throw _) fun _ => Rel.bind (apart_deadLetter e _) fun _ => ?_
    exact Rel.bind (apart_of_calm (g := g) (calm_result _ e _)) fun _ => Rel.pure _
  refine Rel.bind (Rel.fromExcept _) fun _ => Rel.bind (Rel.fromExcept _) fun _ =>
    Rel.bind Rel.get fun w => Rel.ite (fun _ => apart_of_calm (g := g) (calm_result _ e _)) fun _ =>
    Rel.ite (fun _ => apart_of_calm (g := g) (calm_result _ e _)) fun _ => ?_
  refine Rel.bind (apart_of_calm (calm_ensureCompleteCapacity e)) fun _ =>
    Rel.bind hqueue fun x => ?_
  exact Rel.bind (Rel.ite (fun _ => apart_complete e) fun _ => Rel.pure _) fun _ => Rel.pure _

theorem apart_submit (e : ChangeEvent) : Rel Apart (g.submit e : EventM V EventResult) :=
  Rel.bind (Rel.modify fun _ => ⟨le_rfl, fun h => ⟨h, rfl⟩⟩) fun _ =>
    Rel.bind (apart_ingest e) fun _ =>
      Rel.bind (Rel.modify fun _ => ⟨le_rfl, fun h => ⟨h, rfl⟩⟩) fun _ => Rel.pure _

theorem apart_retryLetter (limit : ℤ) (current : ℚ) (counts : Retried) (d : DeadLetter) :
    Rel Apart (g.retryLetter limit current counts d : EventM V Retried) := by
  refine Rel.ite (fun _ => Rel.pure _) fun _ => Rel.bind ?_ fun x => ?_
  · exact Rel.tryCatch
      (Rel.bind (apart_of_calm (calm_prepareAndApply d.event)) fun _ => Rel.pure _)
      fun f => Rel.ite (fun _ => Rel.pure _) fun _ => Rel.throw _
  · cases x with
    | none =>
      refine Rel.bind (apart_edit (fun s => Rel.pure _) fun s w s' w' h => ?_) fun _ => Rel.pure _
      obtain rfl := Except.ok.inj (Prod.mk.inj h).1
      rfl
    | some f =>
      refine Rel.bind (apart_edit (fun s => Rel.bind (Rel.fromExcept _) fun _ => Rel.pure _)
        fun s w s' w' h => ?_) fun _ => Rel.pure _
      rw [bind_eq_ok] at h
      obtain ⟨_, w₁, -, h⟩ := h
      obtain rfl := Except.ok.inj (Prod.mk.inj h).1
      rfl

theorem apart_retryDeadLetters (limit : ℤ) :
    Rel Apart (g.retryDeadLetters limit : EventM V Retried) :=
  Rel.bind (Rel.fromExcept _) fun _ => Rel.bind (apart_of_calm calm_time) fun _ =>
    Rel.bind (Rel.fromExcept _) fun _ => Rel.bind Rel.get fun _ =>
      Rel.fold (fun counts d _ => apart_retryLetter limit _ counts d) _

end Ingestor

/-- Claims that are live later are kept. -/
structure Retains (g : Ingestor V) (w w' : World V) : Prop where
  ticks : w.ticks ≤ w'.ticks
  kept : ∀ claim ∈ w.durable.replayTokens, g.clock w'.ticks < claim.expiresAt →
    claim ∈ w'.durable.replayTokens

theorem Apart.retains {w w' : World V} (h : Apart w w') (hw : Agree w) : Retains g w w' :=
  ⟨h.ticks, fun claim hc _ => by
    rw [(h.claims hw).2]
    exact hc⟩

/-- The claims that are live at a time. -/
def liveClaims (now : ℚ) (s : State) : List ReplayClaim :=
  s.replayTokens.filter fun claim => now < claim.expiresAt

/-- What a claim does to the state: it is refused because of a live one, or made. -/
theorem claimed_cases {token : String} {expiresAt current : ℚ} {s s' : State} {b : Bool}
    {w w' : World V} (h : g.claimed token expiresAt current s w = (.ok (b, s'), w')) :
    (b = false ∧ s' = { s with replayTokens := liveClaims current s }) ∨
    (b = true ∧ s' = { s with replayTokens := liveClaims current s ++ [⟨token, expiresAt⟩] } ∧
      ∀ claim ∈ liveClaims current s, claim.key ≠ token) := by
  unfold Ingestor.claimed at h
  rw [run_ite, run_ite] at h
  split_ifs at h with hany hfull
  · obtain ⟨rfl, rfl⟩ := Prod.mk.inj (Except.ok.inj (Prod.mk.inj h).1)
    exact .inl ⟨rfl, rfl⟩
  · cases h
  · obtain ⟨rfl, rfl⟩ := Prod.mk.inj (Except.ok.inj (Prod.mk.inj h).1)
    refine .inr ⟨rfl, rfl, fun claim hclaim hkey => hany ?_⟩
    exact List.any_eq_true.mpr ⟨claim, hclaim, by simpa using hkey⟩

namespace Automation

variable {a : Automation V}

/-- The delivery of a request claimed for its tolerance. -/
def claimOf (source : WebhookSource) (delivery : String) (now : ℚ) : ReplayClaim :=
  ⟨lengthFramedKey [source.name, delivery], now + source.toleranceSeconds⟩

/-- A claim is refused because of one that is live, made, or cannot be stored. -/
theorem claim_cases {source : WebhookSource} {delivery : String} {now : ℚ} {w w' : World V}
    {r : Except Failure Unit} (h : a.claim source delivery now w = (r, w')) :
    (∃ f, r = .error f ∧ Calm a.ingestor w w') ∨
    ∃ claims, Written a.ingestor { w.memory with replayTokens := claims } w w' ∧
      ((r = .error .stopped ∧ w'.memory = w.memory) ∨
        w'.memory = { w.memory with replayTokens := claims }) ∧
      ((claims = liveClaims now w.memory ∧ (∃ f, r = .error f)) ∨
        (claims = liveClaims now w.memory ++ [claimOf source delivery now] ∧
          ∀ claim ∈ liveClaims now w.memory, claim.key ≠ lengthFramedKey [source.name, delivery])) := by
  rw [claim, run_bind] at h
  rcases hc : a.ingestor.claimReplayToken (lengthFramedKey [source.name, delivery])
    (now + source.toleranceSeconds) now w with ⟨f | b, w₁⟩
  all_goals
    simp only [hc] at h
    obtain ⟨f', hf, hcalm⟩ | ⟨b', candidate, w₂, hm, -, hw, hr⟩ := Ingestor.mutate_cases
      (Ingestor.claimReplayToken_calm _ _ _) hc
  · obtain ⟨rfl, rfl⟩ := Prod.mk.inj h
    exact .inl ⟨f, rfl, hcalm⟩
  · obtain ⟨rfl, rfl⟩ := Prod.mk.inj h
    right
    obtain ⟨hstop, hmem⟩ | ⟨hok, -⟩ := hr
    · obtain rfl := Except.error.inj hstop
      obtain ⟨hb, rfl⟩ | ⟨hb, rfl, hfree⟩ := claimed_cases hm
      · exact ⟨_, hw, .inl ⟨rfl, hmem⟩, .inl ⟨rfl, _, rfl⟩⟩
      · exact ⟨_, hw, .inl ⟨rfl, hmem⟩, .inr ⟨rfl, hfree⟩⟩
    · cases hok
  · cases hf
  · right
    obtain ⟨hstop, -⟩ | ⟨hok, hmem⟩ := hr
    · cases hstop
    obtain rfl := Except.ok.inj hok
    obtain ⟨rfl, rfl⟩ | ⟨rfl, rfl, hfree⟩ := claimed_cases hm
    · obtain ⟨rfl, rfl⟩ := Prod.mk.inj h
      exact ⟨_, hw, .inr hmem, .inl ⟨rfl, _, rfl⟩⟩
    · obtain ⟨rfl, rfl⟩ := Prod.mk.inj h
      exact ⟨_, hw, .inr hmem, .inr ⟨rfl, hfree⟩⟩

/-- What `authenticate` checks before it claims the delivery at time `now`. -/
structure Authentic (a : Automation V) (r : Request) (now : ℚ) (source : WebhookSource)
    (rawTimestamp delivery : String) (timestamp : ℤ) : Prop where
  configured : a.sources.find? (·.name = r.sourceName) = some source
  dated : r.timestamp = some rawTimestamp
  delivered : r.delivery = some delivery
  read : a.ingestor.py.int rawTimestamp = some timestamp
  near : |now - timestamp| ≤ source.toleranceSeconds
  identifier : validateIdentifier delivery "webhook delivery" = .ok ()
  signed : r.signature = some ("sha256=" ++ a.hexdigest source.secret
    (webhookSignaturePayload r.sourceName rawTimestamp delivery r.body))

theorem authenticate_cases {r : Request} {w w' : World V} {res : Except Failure Unit}
    (h : a.authenticate r w = (res, w')) :
    (∃ f, res = .error f ∧ Calm a.ingestor w w') ∨
    ∃ source rawTimestamp delivery timestamp,
      Authentic a r (a.ingestor.clock w.ticks) source rawTimestamp delivery timestamp ∧
      a.claim source delivery (a.ingestor.clock w.ticks) (a.ingestor.time w).2 = (res, w') := by
  have hcalm : Calm a.ingestor w (a.ingestor.time w).2 := Ingestor.calm_time w
  unfold authenticate at h
  cases hsource : a.sources.find? (·.name = r.sourceName) with
  | none =>
    simp only [hsource] at h
    obtain ⟨rfl, rfl⟩ := Prod.mk.inj h
    exact .inl ⟨_, rfl, Calm.refl w⟩
  | some source =>
    simp only [hsource] at h
    rcases hts : r.timestamp with - | rawTimestamp <;> rcases hsig : r.signature with - | supplied <;>
      rcases hdel : r.delivery with - | delivery <;> simp only [hts, hsig, hdel] at h
    case some.some.some =>
      rw [run_bind, fromExcept] at h
      rcases hid : validateIdentifier delivery "webhook delivery" with f | ⟨⟩ <;>
        rw [hid] at h <;> simp only at h
      · obtain ⟨rfl, rfl⟩ := Prod.mk.inj h
        exact .inl ⟨_, rfl, Calm.refl w⟩
      cases hint : a.ingestor.py.int rawTimestamp with
      | none =>
        simp only [hint] at h
        obtain ⟨rfl, rfl⟩ := Prod.mk.inj h
        exact .inl ⟨_, rfl, Calm.refl w⟩
      | some timestamp =>
        simp only [hint] at h
        rw [run_bind_ok (show a.ingestor.time w =
          (.ok (a.ingestor.clock w.ticks), (a.ingestor.time w).2) from rfl), run_bind,
          fromExcept] at h
        rcases hnear : raiseIf ((source.toleranceSeconds : ℚ) <
            |a.ingestor.clock w.ticks - timestamp|)
            (.webhookAuthError "webhook timestamp is outside tolerance") with f | u <;>
          rw [hnear] at h <;> simp only at h
        · obtain ⟨rfl, rfl⟩ := Prod.mk.inj h
          exact .inl ⟨_, rfl, hcalm⟩
        rw [run_bind, fromExcept] at h
        rcases hs : raiseIf (supplied ≠ "sha256=" ++ a.hexdigest source.secret
            (webhookSignaturePayload r.sourceName rawTimestamp delivery r.body))
            (.webhookAuthError "webhook signature is invalid") with f | u <;>
          rw [hs] at h <;> simp only at h
        · obtain ⟨rfl, rfl⟩ := Prod.mk.inj h
          exact .inl ⟨_, rfl, hcalm⟩
        exact .inr ⟨source, rawTimestamp, delivery, timestamp,
          ⟨hsource, hts, hdel, hint, not_lt.mp (raiseIf_ok.mp hnear), hid,
            by rw [hsig, not_not.mp (raiseIf_ok.mp hs)]⟩, h⟩
    all_goals
      -- a header is missing
      obtain ⟨rfl, rfl⟩ := Prod.mk.inj h
      exact .inl ⟨_, rfl, Calm.refl w⟩

end Automation

/-! ## Runs -/

/-- What identifies a signed request. -/
def Request.identity (r : Request) : String × Option String × Option String × List UInt8 :=
  (r.sourceName, r.timestamp, r.delivery, r.body)

inductive HookAction (V : Type)
  | authenticate (r : Request) (luck : List (Luck V))
  | ingest (event : ChangeEvent) (luck : List (Luck V))
  | retry (limit : ℤ) (luck : List (Luck V))
  | restart (luck : List (Luck V))

/-- A process and the requests it accepted, each with the time of the acceptance. -/
structure Hooks (V : Type) where
  process : Process V
  accepted : List (Request × ℚ)

namespace Hooks

def init : Hooks V := ⟨.init, []⟩

/-- The requests accepted after a call of `authenticate`. -/
def noting (a : Automation V) (h : Hooks V) (r : Request) :
    Except Failure Unit → List (Request × ℚ)
  | .ok _ => (r, a.ingestor.clock h.process.world.ticks) :: h.accepted
  | .error _ => h.accepted

def step (a : Automation V) (h : Hooks V) : HookAction V → Hooks V
  | .authenticate r luck =>
    if h.process.up then
      ⟨.after (a.authenticate r { h.process.world with luck := luck }),
        h.noting a r (a.authenticate r { h.process.world with luck := luck }).1⟩
    else h
  | .ingest event luck =>
    if h.process.up then
      { h with process := .after (a.ingestor.submit event { h.process.world with luck := luck }) }
    else h
  | .retry limit luck =>
    if h.process.up then
      { h with process :=
          .after (a.ingestor.retryDeadLetters limit { h.process.world with luck := luck }) }
    else h
  | .restart luck => { h with process := h.process.step a.ingestor (.restart luck) }

def run (a : Automation V) (actions : List (HookAction V)) : Hooks V :=
  actions.foldl (step a) init

/-- A request reaches `authenticate` after the second of its timestamp. -/
def Past (a : Automation V) (h : Hooks V) : HookAction V → Prop
  | .authenticate r _ => ∀ raw ∈ r.timestamp, ∀ timestamp ∈ a.ingestor.py.int raw,
    (timestamp : ℚ) < a.ingestor.clock h.process.world.ticks
  | _ => True

/-- An accepted request cannot be accepted again: until its claim is over there is a live
claim for its delivery, and after that its timestamp is too old. -/
def Watched (a : Automation V) (claims : List ReplayClaim) (ticks : ℕ) (x : Request × ℚ) : Prop :=
  ∃ source raw delivery timestamp,
    Automation.Authentic a x.1 x.2 source raw delivery timestamp ∧ (timestamp : ℚ) < x.2 ∧
    (a.ingestor.clock ticks < x.2 + source.toleranceSeconds →
      ∃ claim ∈ claims, claim.key = lengthFramedKey [source.name, delivery] ∧
        x.2 + source.toleranceSeconds ≤ claim.expiresAt)

structure Inv (a : Automation V) (h : Hooks V) : Prop where
  agree : h.process.up = true → Agree h.process.world
  once : (h.accepted.map (·.1.identity)).Nodup
  watched : ∀ x ∈ h.accepted,
    Watched a h.process.world.durable.replayTokens h.process.world.ticks x

variable {a : Automation V} {h : Hooks V}

theorem Watched.later {claims claims' : List ReplayClaim} {ticks ticks' : ℕ} {x : Request × ℚ}
    (hx : Watched a claims ticks x) (hle : ticks ≤ ticks')
    (hkept : ∀ claim ∈ claims, a.ingestor.clock ticks' < claim.expiresAt → claim ∈ claims') :
    Watched a claims' ticks' x := by
  obtain ⟨source, raw, delivery, timestamp, hauth, hpast, hclaim⟩ := hx
  refine ⟨source, raw, delivery, timestamp, hauth, hpast, fun hlive => ?_⟩
  have hclock := a.ingestor.clock_mono hle
  obtain ⟨claim, hmem, hkey, hexp⟩ := hclaim (hclock.trans_lt hlive)
  exact ⟨claim, hkept claim hmem (hlive.trans_le hexp), hkey, hexp⟩

theorem Inv.watched_later (hi : Inv a h) {w : World V}
    (hr : Retains a.ingestor h.process.world w) :
    ∀ x ∈ h.accepted, Watched a w.durable.replayTokens w.ticks x :=
  fun x hx => (hi.watched x hx).later hr.ticks hr.kept

/-- A call that has nothing to do with claims. -/
theorem Inv.apart (hi : Inv a h) (hup : h.process.up = true) {α : Type} {m : EventM V α}
    (hm : Rel Apart m) (luck : List (Luck V)) :
    Inv a { h with process := .after (m { h.process.world with luck := luck }) } := by
  have happart : Apart h.process.world (m { h.process.world with luck := luck }).2 :=
    ⟨(hm { h.process.world with luck := luck }).ticks,
      (hm { h.process.world with luck := luck }).claims⟩
  refine ⟨fun _ => ?_, hi.once, ?_⟩
  · rw [Process.after_world]
    exact (happart.claims (hi.agree hup)).1
  · rw [Process.after_world]
    exact hi.watched_later (happart.retains (hi.agree hup))

/-- Claims that are live after they were loaded are kept. -/
theorem mem_select_unexpired {claims kept : List ReplayClaim} {w w' : World V}
    (hsel : Prog.select g.unexpired claims w = (.ok kept, w')) :
    ∀ claim ∈ claims, g.clock w'.ticks < claim.expiresAt → claim ∈ kept := by
  induction claims generalizing w kept with
  | nil => simp
  | cons claim claims ih =>
    rw [Prog.select, bind_eq_ok] at hsel
    obtain ⟨b, w₁, hb, hsel⟩ := hsel
    rw [bind_eq_ok] at hsel
    obtain ⟨rest, w₂, hrest, hsel⟩ := hsel
    obtain ⟨hkept, rfl⟩ := Prod.mk.inj hsel
    obtain rfl := Except.ok.inj hkept
    have hcalm : Calm g w w₂ := ((Rel.bind Ingestor.calm_time fun _ => Rel.pure _ :
      Rel (Calm g) (g.unexpired claim)).run hb).trans
        ((Rel.select fun _ _ => Rel.bind Ingestor.calm_time fun _ => Rel.pure _).run hrest)
    have hbit : b = decide (g.clock w.ticks < claim.expiresAt) :=
      (Except.ok.inj (Prod.mk.inj hb).1).symm
    intro c hc hlive
    rcases List.mem_cons.mp hc with rfl | hc
    · have hnow : g.clock w.ticks < c.expiresAt :=
        (g.clock_mono hcalm.ticks).trans_lt hlive
      simp [hbit, hnow]
    · have hmem := ih hrest c hc hlive
      split_ifs
      · exact List.mem_cons_of_mem _ hmem
      · exact hmem

theorem load_retains {w w' : World V} {r : Except Failure Unit} (hrun : g.load w = (r, w')) :
    Retains g w w' ∧ (r = .ok () → Agree w') := by
  obtain ⟨f, rfl, hc⟩ | ⟨-, hfile, rfl⟩ | ⟨s, replay, w₁, hfile, hsel, hc, hend⟩ :=
    Ingestor.load_cases hrun
  · refine ⟨⟨hc.ticks, fun claim hclaim _ => ?_⟩, by simp⟩
    rw [hc.durable]
    exact hclaim
  · refine ⟨⟨le_rfl, fun claim hclaim _ => hclaim⟩, fun _ => ?_⟩
    show [] = (w.file.getD State.empty).replayTokens
    rw [hfile]
    rfl
  · have hdur : w.durable = s := by rw [World.durable, hfile, Option.getD_some]
    have hkept := mem_select_unexpired hsel
    rw [← hdur] at hkept
    obtain ⟨hw, hr⟩ | ⟨hsame, -, rfl⟩ := hend
    · refine ⟨⟨hc.ticks.trans hw.ticks, fun claim hclaim hlive => ?_⟩, fun hok => ?_⟩
      · rw [hw.durable]
        exact hkept claim hclaim ((g.clock_mono hw.ticks).trans_lt hlive)
      · obtain ⟨f, rfl⟩ | hmem := hr
        · cases hok
        · rw [Agree, hmem, hw.durable]
    · refine ⟨⟨hc.ticks, fun claim hclaim _ => ?_⟩, fun _ => ?_⟩
      · show claim ∈ w₁.durable.replayTokens
        rw [hc.durable]
        exact hclaim
      · show s.replayTokens = w₁.durable.replayTokens
        rw [hc.durable, hdur]

theorem Inv.restart (hi : Inv a h) (luck : List (Luck V)) : Inv a (h.step a (.restart luck)) := by
  simp only [step, Process.step]
  rcases hrun : a.ingestor.load { h.process.world with engine := Engine.init, luck := luck } with
    ⟨f | ⟨⟩, w'⟩ <;> obtain ⟨hr, hagree⟩ := load_retains hrun
  · exact ⟨by simp, hi.once, hi.watched_later ⟨hr.ticks, hr.kept⟩⟩
  · exact ⟨fun _ => hagree rfl, hi.once, hi.watched_later ⟨hr.ticks, hr.kept⟩⟩

/-- A request that was accepted before is not accepted again. -/
theorem Watched.refused {claims : List ReplayClaim} {ticks : ℕ} {x : Request × ℚ} {r : Request}
    (hx : Watched a claims ticks x) (hid : x.1.identity = r.identity) {source : WebhookSource}
    {raw delivery : String} {timestamp : ℤ}
    (hauth : Automation.Authentic a r (a.ingestor.clock ticks) source raw delivery timestamp) :
    ∃ claim ∈ claims, claim.key = lengthFramedKey [source.name, delivery] ∧
      a.ingestor.clock ticks < claim.expiresAt := by
  obtain ⟨source', raw', delivery', timestamp', hauth', hpast, hclaim⟩ := hx
  obtain ⟨hname, hts, hdel, -⟩ := by simpa [Request.identity] using hid
  obtain rfl : source' = source := by
    have hs := hauth'.configured
    rw [hname, hauth.configured] at hs
    exact (Option.some.inj hs).symm
  obtain rfl : delivery' = delivery := by
    have hd := hauth'.delivered
    rw [hdel, hauth.delivered] at hd
    exact (Option.some.inj hd).symm
  obtain rfl : raw' = raw := by
    have ht := hauth'.dated
    rw [hts, hauth.dated] at ht
    exact (Option.some.inj ht).symm
  obtain rfl : timestamp' = timestamp := by
    have ht := hauth'.read
    rw [hauth.read] at ht
    exact (Option.some.inj ht).symm
  have hnear := (abs_le.mp hauth.near).2
  obtain ⟨claim, hmem, hkey, hexp⟩ := hclaim (by linarith)
  exact ⟨claim, hmem, hkey, lt_of_lt_of_le (by linarith) hexp⟩

theorem Inv.authenticate (hi : Inv a h) (hup : h.process.up = true) {r : Request}
    {luck : List (Luck V)} (hpast : Past a h (.authenticate r luck)) :
    Inv a (h.step a (.authenticate r luck)) := by
  have hagree := hi.agree hup
  simp only [step, hup, ↓reduceIte]
  rcases hrun : a.authenticate r { h.process.world with luck := luck } with ⟨res, w'⟩
  obtain ⟨f, rfl, hc⟩ | ⟨source, raw, delivery, timestamp, hauth, hclaim⟩ :=
    Automation.authenticate_cases hrun
  · have happart : Apart h.process.world w' := ⟨hc.apart.ticks, hc.apart.claims⟩
    refine ⟨fun _ => ?_, hi.once, ?_⟩
    · rw [Process.after_world]
      exact (happart.claims hagree).1
    · rw [Process.after_world]
      exact hi.watched_later (happart.retains hagree)
  obtain ⟨f, rfl, hc⟩ | ⟨claims, hw, hmem, hres⟩ := Automation.claim_cases hclaim
  · have happart : Apart h.process.world w' :=
      ⟨(Nat.le_succ _).trans hc.apart.ticks, hc.apart.claims⟩
    refine ⟨fun _ => ?_, hi.once, ?_⟩
    · rw [Process.after_world]
      exact (happart.claims hagree).1
    · rw [Process.after_world]
      exact hi.watched_later (happart.retains hagree)
  have hticks : h.process.world.ticks ≤ w'.ticks := (Nat.le_succ _).trans hw.ticks
  have hdur : w'.durable.replayTokens = claims := by rw [hw.durable]
  -- a claim that is live now survives, whether the new one is made or not
  have hlive : ∀ claim ∈ h.process.world.durable.replayTokens,
      a.ingestor.clock h.process.world.ticks < claim.expiresAt →
      claim ∈ liveClaims (a.ingestor.clock h.process.world.ticks) h.process.world.memory := by
    intro claim hclaim hexp
    refine List.mem_filter.mpr ⟨?_, by simpa using hexp⟩
    rw [hagree]
    exact hclaim
  have hretains : Retains a.ingestor h.process.world w' := by
    refine ⟨hticks, fun claim hclaim hexp => ?_⟩
    have hstill := hlive claim hclaim ((a.ingestor.clock_mono hticks).trans_lt hexp)
    rw [hdur]
    obtain ⟨rfl, -⟩ | ⟨rfl, -⟩ := hres
    · exact hstill
    · exact List.mem_append_left _ hstill
  have hagree' : res ≠ .error .stopped → Agree w' := by
    intro hne
    obtain ⟨hstop, -⟩ | hmem := hmem
    · exact absurd hstop hne
    · rw [Agree, hmem, hdur]
  have hwatched := hi.watched_later hretains
  rcases res with f | ⟨⟩
  · refine ⟨fun hup' => ?_, hi.once, by simpa [noting] using hwatched⟩
    rw [Process.after_world]
    apply hagree'
    rintro ⟨⟩
    simp [Process.after] at hup'
  · obtain ⟨-, f, hf⟩ | ⟨rfl, hfree⟩ := hres
    · cases hf
    refine ⟨fun _ => by simpa using hagree' (by simp), ?_, ?_⟩
    · refine List.nodup_cons.mpr ⟨fun hmem => ?_, hi.once⟩
      obtain ⟨x, hx, hid⟩ := List.mem_map.mp hmem
      obtain ⟨claim, hclaim, hkey, hexp⟩ := (hi.watched x hx).refused hid hauth
      exact hfree claim (hlive claim hclaim hexp) hkey
    · intro x hx
      rw [Process.after_world]
      rcases List.mem_cons.mp hx with rfl | hx
      · have hts : (timestamp : ℚ) < a.ingestor.clock h.process.world.ticks :=
          hpast raw hauth.dated timestamp hauth.read
        refine ⟨source, raw, delivery, timestamp, hauth, hts, fun _ => ?_⟩
        refine ⟨Automation.claimOf source delivery (a.ingestor.clock h.process.world.ticks), ?_,
          rfl, le_rfl⟩
        rw [hdur]
        simp
      · exact hwatched x hx

theorem Inv.step (hi : Inv a h) {action : HookAction V} (hpast : Past a h action) :
    Inv a (h.step a action) := by
  by_cases hup : h.process.up = true
  · cases action with
    | authenticate r luck => exact hi.authenticate hup hpast
    | ingest event luck =>
      simp only [Hooks.step, hup, ↓reduceIte]
      exact hi.apart hup (Ingestor.apart_submit event) luck
    | retry limit luck =>
      simp only [Hooks.step, hup, ↓reduceIte]
      exact hi.apart hup (Ingestor.apart_retryDeadLetters limit) luck
    | restart luck => exact hi.restart luck
  · cases action with
    | authenticate r luck => simpa [Hooks.step, hup] using hi
    | ingest event luck => simpa [Hooks.step, hup] using hi
    | retry limit luck => simpa [Hooks.step, hup] using hi
    | restart luck => exact hi.restart luck

/-- Every request of a run reaches `authenticate` after the second of its timestamp. -/
def AllPast (a : Automation V) : Hooks V → List (HookAction V) → Prop
  | _, [] => True
  | h, action :: actions => Past a h action ∧ AllPast a (h.step a action) actions

theorem Inv.run (hi : Inv a h) {actions : List (HookAction V)} (hpast : AllPast a h actions) :
    Inv a (actions.foldl (Hooks.step a) h) := by
  induction actions generalizing h with
  | nil => exact hi
  | cons action actions ih => exact ih (hi.step hpast.1) hpast.2

/-- If every request reaches `authenticate` after the second of its timestamp, each signed
request is accepted at most once. -/
theorem webhook_accepted_once (a : Automation V) (actions : List (HookAction V))
    (hpast : AllPast a init actions) :
    ((run a actions).accepted.map (·.1.identity)).Nodup := by
  have hinit : Inv a (init : Hooks V) := ⟨fun _ => rfl, List.nodup_nil, by simp [init]⟩
  exact (hinit.run hpast).once

theorem zeros_valid : 16 ≤ (List.replicate 16 (0 : UInt8)).length ∧ 0 < 300 := by decide

/-- One webhook source with a tolerance of 300 seconds; the clock first shows 100 and then
400. -/
def smallAutomation : Automation String where
  ingestor := { smallIngestor with
    py := ⟨fun text => if text = "100" then some 100 else if text = "50" then some 50 else none,
      fun _ => "", fun _ => 1⟩
    clock := fun n => if n = 0 then 100 else 400
    clock_mono := by
      intro m n hmn
      rcases Nat.eq_zero_or_pos m with rfl | hm
      · dsimp
        split_ifs <;> norm_num
      · have hn : n ≠ 0 := by omega
        simp [hm.ne', hn] }
  sources := [⟨"shop", List.replicate 16 0, 300, zeros_valid⟩]
  hexdigest _ _ := "5a"
  loads _ := none

/-- A request signed for the second it arrives in, or for one before. -/
def signedRequest (timestamp : String) : Request :=
  ⟨"shop", some timestamp, some "sha256=5a", some "d1", []⟩

/-- The same request at 100 and at 400. -/
theorem signedRequest_twice :
    ¬ ∀ (a : Automation String) (actions : List (HookAction String)),
      ((run a actions).accepted.map (·.1.identity)).Nodup := by
  intro h
  have htwice : ((run smallAutomation [.restart [], .authenticate (signedRequest "100") [],
      .authenticate (signedRequest "100") []]).accepted.map (·.1.identity)).length = 2 ∧
      ¬((run smallAutomation [.restart [], .authenticate (signedRequest "100") [],
      .authenticate (signedRequest "100") []]).accepted.map (·.1.identity)).Nodup := by
    decide +kernel
  exact htwice.2 (h _ _)

/-- A request dated 50 that arrives at 100 and again at 400. -/
theorem signedRequest_once :
    (run smallAutomation [.restart [], .authenticate (signedRequest "50") [],
      .authenticate (signedRequest "50") []]).accepted.length = 1 ∧
    ((run smallAutomation [.restart [], .authenticate (signedRequest "50") [],
      .authenticate (signedRequest "50") []]).accepted.map (·.1.identity)).Nodup := by
  refine ⟨by decide +kernel, webhook_accepted_once _ _ ⟨trivial, ?_, ?_, trivial⟩⟩
  all_goals
    rintro raw ⟨⟩ timestamp hts
    have hdate : timestamp = 50 := by
      have hread : smallAutomation.ingestor.py.int "50" = some 50 := by decide
      rw [hread] at hts
      exact (Option.some.inj hts).symm
    subst hdate
    decide +kernel

end Hooks

end Events
end MegaCache
