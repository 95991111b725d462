import MegaCache.Origin.Breaker
import MegaCache.Origin.Requests

/-!
# Slots, probes and retries

A step of a call changes the budgets and the bucket of retry tokens by what it changes in the
call's own record.  Summed over the calls, the counters are what the calls hold, so nothing
leaks; the bounds follow from the checks of `acquire` and `consume_retry`.
-/

namespace MegaCache
namespace Origin

namespace AdmissionBudget

variable {b : AdmissionBudget}

/-- No more active and waiting requests than allowed. -/
structure Limited (b : AdmissionBudget) : Prop where
  active : b.active ≤ b.maximum
  waiting : b.waiting ≤ b.maximumQueue

/-- What a pass over the budget did; `was` tells whether the request waited before. -/
structure Passed (was : Bool) (b : AdmissionBudget) (result : Admission × AdmissionBudget) :
    Prop where
  active : result.2.active = b.active + if result.1 = .admitted then 1 else 0
  waiting : result.2.waiting = b.waiting - was.toInt + if result.1 = .waits then 1 else 0
  limited : b.Limited → result.2.Limited

theorem retry_passed (expired : Bool) (b : AdmissionBudget) : Passed true b (b.retry expired) := by
  unfold retry
  split_ifs with hfull hexpired
  · exact ⟨by simp, by simp, fun h => ⟨h.active, by have := h.waiting; simp; omega⟩⟩
  · exact ⟨by simp, by simp, fun h => h⟩
  · exact ⟨by simp, by simp, fun h => ⟨by simp; omega, by have := h.waiting; simp; omega⟩⟩

theorem wake_passed (expired : Bool) (b : AdmissionBudget) : Passed true b (b.wake expired) := by
  unfold wake
  split_ifs with hclosed
  · exact ⟨by simp, by simp, fun h => ⟨h.active, by have := h.waiting; simp; omega⟩⟩
  · exact retry_passed expired b

theorem acquire_passed (expired : Bool) (b : AdmissionBudget) :
    Passed false b (b.acquire expired) := by
  unfold acquire
  split_ifs with hclosed hactive hqueue
  · exact ⟨by simp, by simp, fun h => h⟩
  · exact ⟨by simp, by simp, fun h => ⟨by simp; omega, h.waiting⟩⟩
  · exact ⟨by simp, by simp, fun h => ⟨h.active, h.waiting⟩⟩
  · -- the request queues up; the pass below lets it out again unless it waits
    have hpass := retry_passed expired { b with waiting := b.waiting + 1 }
    refine ⟨hpass.active, ?_, fun h => hpass.limited ⟨h.active, ?_⟩⟩
    · rw [hpass.waiting]
      simp
    · show b.waiting + 1 ≤ b.maximumQueue
      omega

theorem Limited.release (h : b.Limited) : b.release.Limited :=
  ⟨by have := h.active; simp [AdmissionBudget.release]; omega, h.waiting⟩

end AdmissionBudget

namespace Runtime

/-- The bucket of retry tokens: what was granted and what is left came from the capacity and the
refills since the start. -/
structure Bucket (origin : HTTPOrigin) (start now : ℚ) (r : Runtime) : Prop where
  tokens : 0 ≤ r.retryTokens
  spent : r.granted + r.retryTokens ≤ origin.retryBudgetCapacity +
    (r.retryUpdatedAt - start) * origin.retryBudgetRefillPerSecond
  updated : r.retryUpdatedAt ≤ now

variable {origin : HTTPOrigin} {start now : ℚ} {r : Runtime}


theorem Bucket.init (origin : HTTPOrigin) (start : ℚ) : Bucket origin start start (.init origin start) where
  tokens := by simp [Runtime.init]
  spent := by simp [Runtime.init]
  updated := le_rfl

/-- Time goes by. -/
theorem Bucket.elapse (h : Bucket origin start now r) {later : ℚ} (hle : now ≤ later) :
    Bucket origin start later r :=
  ⟨h.tokens, h.spent, h.updated.trans hle⟩

/-- The granted retries within the budget. -/
theorem Bucket.granted_le (h : Bucket origin start now r) : (r.granted : ℚ) ≤
    origin.retryBudgetCapacity + (now - start) * origin.retryBudgetRefillPerSecond := by
  have hrate : 0 < origin.retryBudgetRefillPerSecond := origin.positive.2.2.2.2.2.2.1
  calc (r.granted : ℚ) ≤ r.granted + r.retryTokens := le_add_of_nonneg_right h.tokens
    _ ≤ _ := h.spent
    _ ≤ _ := by
      have hup := h.updated
      gcongr

theorem Bucket.consumeRetry (h : Bucket origin start now r) :
    Bucket origin start now (r.consumeRetry origin now).2 := by
  have hrate : 0 < origin.retryBudgetRefillPerSecond := origin.positive.2.2.2.2.2.2.1
  have helapsed : max 0 (now - r.retryUpdatedAt) = now - r.retryUpdatedAt :=
    max_eq_right (sub_nonneg.mpr h.updated)
  have hnonneg : 0 ≤ r.refilled origin now := by
    refine le_min (Nat.cast_nonneg _) (add_nonneg h.tokens ?_)
    exact mul_nonneg (le_max_left _ _) hrate.le
  have hspent : r.granted + r.refilled origin now ≤ origin.retryBudgetCapacity +
      (now - start) * origin.retryBudgetRefillPerSecond := by
    calc r.granted + r.refilled origin now
        ≤ r.granted + (r.retryTokens +
            (now - r.retryUpdatedAt) * origin.retryBudgetRefillPerSecond) := by
          rw [Runtime.refilled, helapsed]
          gcongr
          exact min_le_right _ _
      _ = r.granted + r.retryTokens +
            (now - r.retryUpdatedAt) * origin.retryBudgetRefillPerSecond := by ring
      _ ≤ origin.retryBudgetCapacity +
            (r.retryUpdatedAt - start) * origin.retryBudgetRefillPerSecond +
            (now - r.retryUpdatedAt) * origin.retryBudgetRefillPerSecond := by
          have hspent := h.spent
          linarith
      _ = _ := by ring
  unfold Runtime.consumeRetry
  split_ifs with hlow
  · exact ⟨hnonneg, hspent, le_rfl⟩
  · refine ⟨sub_nonneg.mpr (not_lt.mp hlow), ?_, le_rfl⟩
    push_cast
    linarith

end Runtime

namespace Place

/-- Within the `try` block of an attempt, up to the release of the global slot. -/
def inTry : Place → Bool
  | .loops | .asks | .concludes _ | .sleeps | .returned _ _ | .ended _ => false
  | _ => true

/-- Within the `try` block, up to the release of the origin's slot. -/
def keepsOrigin : Place → Bool
  | .releasesGlobal _ => false
  | place => place.inTry

/-- The global slot is not taken yet. -/
def beforeGlobal : Place → Bool
  | .acquiresGlobal | .waitsGlobal => true
  | _ => false

/-- The origin's slot is not taken yet. -/
def beforeOrigin : Place → Bool
  | .acquiresGlobal | .waitsGlobal | .acquiresOrigin | .waitsOrigin => true
  | _ => false

/-- Between two attempts. -/
def between : Place → Bool
  | .loops | .sleeps => true
  | _ => false

/-- Counted in `waiting` of the global budget. -/
def globalWaits (place : Place) : ℤ := if place = .waitsGlobal then 1 else 0

/-- Counted in `waiting` of the origin's budget. -/
def originWaits (place : Place) : ℤ := if place = .waitsOrigin then 1 else 0

end Place

/-- What the record of a call says at its place. -/
structure Request.Shape (origin : HTTPOrigin) (call : Request) : Prop where
  globalSlots : call.globalSlots = if call.place.inTry && call.acquiredGlobal then 1 else 0
  originSlots : call.originSlots = if call.place.keepsOrigin && call.acquiredOrigin then 1 else 0
  beforeGlobal : call.place.beforeGlobal = true → call.acquiredGlobal = false
  beforeOrigin : call.place.beforeOrigin = true → call.acquiredOrigin = false
  attempts : call.attempts ≤ origin.retryAttempts + if call.place.between then 0 else 1
  granted : call.attempts ≤ call.granted + if call.place.between then 0 else 1

namespace Working

variable {origin : HTTPOrigin} {now start : ℚ} {w w' w'' : Working}

/-- A step that changes the budgets by what it changes in the record of the call. -/
structure Balanced (origin : HTTPOrigin) (now : ℚ) (w w' : Working) : Prop where
  runtime : w'.call.runtime = w.call.runtime
  globalActive : w'.global.active - w'.call.globalSlots = w.global.active - w.call.globalSlots
  globalWaiting : w'.global.waiting - w'.call.place.globalWaits =
    w.global.waiting - w.call.place.globalWaits
  originActive : w'.runtime.admission.active - w'.call.originSlots =
    w.runtime.admission.active - w.call.originSlots
  originWaiting : w'.runtime.admission.waiting - w'.call.place.originWaits =
    w.runtime.admission.waiting - w.call.place.originWaits
  granted : (w'.runtime.granted : ℤ) - w'.call.granted = w.runtime.granted - w.call.granted
  globalLimited : w.global.Limited → w'.global.Limited
  originLimited : w.runtime.admission.Limited → w'.runtime.admission.Limited
  bucket : ∀ start, w.runtime.Bucket origin start now → w'.runtime.Bucket origin start now

theorem Balanced.refl (w : Working) : Balanced origin now w w :=
  ⟨rfl, rfl, rfl, rfl, rfl, rfl, id, id, fun _ => id⟩

theorem Balanced.trans (h : Balanced origin now w w') (h' : Balanced origin now w' w'') :
    Balanced origin now w w'' where
  runtime := h'.runtime.trans h.runtime
  globalActive := h'.globalActive.trans h.globalActive
  globalWaiting := h'.globalWaiting.trans h.globalWaiting
  originActive := h'.originActive.trans h.originActive
  originWaiting := h'.originWaiting.trans h.originWaiting
  granted := h'.granted.trans h.granted
  globalLimited hl := h'.globalLimited (h.globalLimited hl)
  originLimited hl := h'.originLimited (h.originLimited hl)
  bucket start hb := h'.bucket start (h.bucket start hb)

theorem Balanced.goto {place : Place} (hg : place.globalWaits = w.call.place.globalWaits)
    (ho : place.originWaits = w.call.place.originWaits) :
    Balanced origin now w (w.goto place) where
  runtime := rfl
  globalActive := rfl
  globalWaiting := by rw [Working.goto, hg]
  originActive := rfl
  originWaiting := by rw [Working.goto, ho]
  granted := rfl
  globalLimited := id
  originLimited := id
  bucket _ := id

/-- The breaker holds no slot and no token. -/
theorem Balanced.settled (w : Working) (breaker : Breaker) : Balanced origin now w (w.settled breaker) :=
  ⟨rfl, rfl, rfl, rfl, rfl, rfl, id, id, fun _ hb => ⟨hb.tokens, hb.spent, hb.updated⟩⟩

theorem Balanced.recordSuccess (w : Working) : Balanced origin now w w.recordSuccess :=
  ⟨rfl, rfl, rfl, rfl, rfl, rfl, id, id, fun _ hb => ⟨hb.tokens, hb.spent, hb.updated⟩⟩

theorem Balanced.recordFailure (w : Working) :
    Balanced origin now w (w.recordFailure origin now) :=
  ⟨rfl, rfl, rfl, rfl, rfl, rfl, id, id, fun _ hb => ⟨hb.tokens, hb.spent, hb.updated⟩⟩

/-- A pass over the global budget, by a call that waits for it if `was`. -/
theorem Balanced.globalAdmission {was : Bool} {result : Admission × AdmissionBudget}
    (h : w.global.Passed was result) (hg : w.call.place.globalWaits = was.toInt)
    (ho : w.call.place.originWaits = 0) : Balanced origin now w (w.globalAdmission result) := by
  obtain ⟨admission, b⟩ := result
  have hactive : b.active = _ := h.active
  have hwaiting : b.waiting = _ := h.waiting
  cases admission with
  | admitted =>
    refine ⟨rfl, ?_, ?_, rfl, ?_, rfl, h.limited, id, fun _ => id⟩
    · show b.active - (w.call.globalSlots + 1) = _
      rw [hactive]
      simp
    · show b.waiting - 0 = _
      rw [hwaiting, hg]
      simp
    · show w.runtime.admission.waiting - 0 = _
      rw [ho]
  | refused e =>
    refine ⟨rfl, ?_, ?_, rfl, ?_, rfl, h.limited, id, fun _ => id⟩
    · show b.active - w.call.globalSlots = _
      rw [hactive]
      simp
    · show b.waiting - 0 = _
      rw [hwaiting, hg]
      simp
    · show w.runtime.admission.waiting - 0 = _
      rw [ho]
  | waits =>
    refine ⟨rfl, ?_, ?_, rfl, ?_, rfl, h.limited, id, fun _ => id⟩
    · show b.active - w.call.globalSlots = _
      rw [hactive]
      simp
    · show b.waiting - 1 = _
      rw [hwaiting, hg]
      simp
    · show w.runtime.admission.waiting - 0 = _
      rw [ho]

/-- A pass over the origin's budget, by a call that waits for it if `was`. -/
theorem Balanced.originAdmission {was : Bool} {result : Admission × AdmissionBudget}
    (h : w.runtime.admission.Passed was result) (hg : w.call.place.globalWaits = 0)
    (ho : w.call.place.originWaits = was.toInt) :
    Balanced origin now w (w.originAdmission result) := by
  obtain ⟨admission, b⟩ := result
  have hactive : b.active = _ := h.active
  have hwaiting : b.waiting = _ := h.waiting
  have hbucket : ∀ start, w.runtime.Bucket origin start now →
      Runtime.Bucket origin start now { w.runtime with admission := b } :=
    fun _ hb => ⟨hb.tokens, hb.spent, hb.updated⟩
  cases admission with
  | admitted =>
    refine ⟨rfl, rfl, ?_, ?_, ?_, rfl, id, h.limited, hbucket⟩
    · show w.global.waiting - 0 = _
      rw [hg]
    · show b.active - (w.call.originSlots + 1) = _
      rw [hactive]
      simp
    · show b.waiting - 0 = _
      rw [hwaiting, ho]
      simp
  | refused e =>
    refine ⟨rfl, rfl, ?_, ?_, ?_, rfl, id, h.limited, hbucket⟩
    · show w.global.waiting - 0 = _
      rw [hg]
    · show b.active - w.call.originSlots = _
      rw [hactive]
      simp
    · show b.waiting - 0 = _
      rw [hwaiting, ho]
      simp
  | waits =>
    refine ⟨rfl, rfl, ?_, ?_, ?_, rfl, id, h.limited, hbucket⟩
    · show w.global.waiting - 0 = _
      rw [hg]
    · show b.active - w.call.originSlots = _
      rw [hactive]
      simp
    · show b.waiting - 1 = _
      rw [hwaiting, ho]
      simp

theorem Balanced.allowRequest (hplace : w.call.place = .asks) :
    Balanced origin now w (w.allowRequest origin now) := by
  have hbucket : ∀ (b : Breaker) start, w.runtime.Bucket origin start now →
      Runtime.Bucket origin start now { w.runtime with breaker := b } :=
    fun _ _ hb => ⟨hb.tokens, hb.spent, hb.updated⟩
  unfold Working.allowRequest
  split
  · next b _ =>
    exact ⟨rfl, rfl, by rw [hplace]; rfl, rfl, by rw [hplace]; rfl, rfl, id, id, hbucket b⟩
  · next b _ =>
    exact ⟨rfl, rfl, by rw [hplace]; rfl, rfl, by rw [hplace]; rfl, rfl, id, id, hbucket b⟩

/-- Places in which a call does not wait for a slot. -/
theorem Balanced.moves {place place' : Place} (hplace : w.call.place = place)
    (hg : place'.globalWaits = place.globalWaits) (ho : place'.originWaits = place.originWaits) :
    Balanced origin now w (w.goto place') :=
  .goto (hplace ▸ hg) (hplace ▸ ho)

theorem Balanced.judge {response : Response} (hplace : w.call.place = .judges response) :
    Balanced origin now w (w.judge origin now response) := by
  cases response with
  | other => exact .moves hplace rfl rfl
  | response status body =>
    dsimp only [Working.judge]
    split_ifs
    · exact .moves hplace rfl rfl
    · exact .moves hplace rfl rfl
    · exact (Balanced.recordSuccess w).trans (.moves hplace rfl rfl)
    · exact (Balanced.recordSuccess w).trans (.moves hplace rfl rfl)
    · exact (Balanced.recordFailure w).trans (.moves hplace rfl rfl)
    · exact (Balanced.recordSuccess w).trans (.moves hplace rfl rfl)

theorem Balanced.handle {e : Raised} (hplace : w.call.place = .raised e) (closed : Bool) :
    Balanced origin now w (w.handle origin now closed e) := by
  have hunavailable : ∀ e', Balanced origin now w (w.handleUnavailable origin now closed e') := by
    intro e'
    unfold Working.handleUnavailable
    split_ifs
    · exact (Balanced.settled w _).trans (.moves hplace rfl rfl)
    · exact .moves hplace rfl rfl
    · exact (Balanced.settled w _).trans (.moves hplace rfl rfl)
  rcases e with (_ | _ | _ | _) | _ | _ | _
  · exact (Balanced.settled w _).trans (.moves hplace rfl rfl)
  · exact hunavailable _
  · exact (Balanced.settled w _).trans (.moves hplace rfl rfl)
  · exact .moves hplace rfl rfl
  · exact hunavailable _
  · exact (Balanced.settled w _).trans (.moves hplace rfl rfl)
  · exact .moves hplace rfl rfl

theorem Balanced.finish {place : Place} (hplace : w.call.place = place)
    (hg : place.globalWaits = 0) (ho : place.originWaits = 0) (ending : Ending) :
    Balanced origin now w (w.finish ending) := by
  cases ending with
  | returns status body => exact .moves hplace hg.symm ho.symm
  | raises e => exact .moves hplace hg.symm ho.symm
  | fails error => exact .moves hplace hg.symm ho.symm

theorem Balanced.conclude {error : Raised} (hplace : w.call.place = .concludes error) :
    Balanced origin now w (w.conclude origin now error) := by
  unfold Working.conclude
  split_ifs
  · exact .moves hplace rfl rfl
  · have hbucket := fun start (hb : w.runtime.Bucket origin start now) => hb.consumeRetry
    unfold Runtime.consumeRetry at hbucket ⊢
    split_ifs at hbucket ⊢
    · exact ⟨rfl, rfl, by rw [hplace]; rfl, rfl, by rw [hplace]; rfl, rfl, id, id, hbucket⟩
    · refine ⟨rfl, rfl, by rw [hplace]; rfl, rfl, by rw [hplace]; rfl, ?_, id, id, hbucket⟩
      show ((w.runtime.granted + 1 : ℕ) : ℤ) - ((w.call.granted + 1 : ℕ) : ℤ) = _
      push_cast
      ring

theorem Balanced.proceed (closed expired : Bool) (w : Working) :
    Balanced origin now w (w.proceed origin now closed expired) := by
  cases hplace : w.call.place with
  | loops =>
    simp only [Working.proceed, hplace]
    split_ifs
    · exact .moves hplace rfl rfl
    · exact ⟨rfl, rfl, by rw [hplace]; rfl, rfl, by rw [hplace]; rfl, rfl, id, id, fun _ => id⟩
  | asks =>
    simp only [Working.proceed, hplace]
    exact .allowRequest hplace
  | acquiresGlobal =>
    simp only [Working.proceed, hplace]
    exact .globalAdmission (AdmissionBudget.acquire_passed expired _) (by rw [hplace]; rfl)
      (by rw [hplace]; rfl)
  | waitsGlobal =>
    simp only [Working.proceed, hplace]
    exact .globalAdmission (AdmissionBudget.wake_passed expired _) (by rw [hplace]; rfl)
      (by rw [hplace]; rfl)
  | acquiresOrigin =>
    simp only [Working.proceed, hplace]
    exact .originAdmission (AdmissionBudget.acquire_passed expired _) (by rw [hplace]; rfl)
      (by rw [hplace]; rfl)
  | waitsOrigin =>
    simp only [Working.proceed, hplace]
    exact .originAdmission (AdmissionBudget.wake_passed expired _) (by rw [hplace]; rfl)
      (by rw [hplace]; rfl)
  | resolves =>
    simp only [Working.proceed, hplace]
    exact .refl w
  | sends =>
    simp only [Working.proceed, hplace]
    exact .refl w
  | received response =>
    simp only [Working.proceed, hplace]
    split_ifs
    · exact .moves hplace rfl rfl
    · exact .moves hplace rfl rfl
  | judges response =>
    simp only [Working.proceed, hplace]
    exact .judge hplace
  | raised e =>
    simp only [Working.proceed, hplace]
    exact .handle hplace closed
  | releasesOrigin ending =>
    simp only [Working.proceed, hplace]
    split_ifs
    · refine ⟨rfl, rfl, by rw [hplace]; rfl, ?_, by rw [hplace]; rfl, rfl, id, .release,
        fun _ hb => ⟨hb.tokens, hb.spent, hb.updated⟩⟩
      show w.runtime.admission.active - 1 - (w.call.originSlots - 1) = _
      ring
    · exact .moves hplace rfl rfl
  | releasesGlobal ending =>
    simp only [Working.proceed, hplace]
    split_ifs
    · refine Balanced.trans ?_ (.finish rfl rfl rfl ending)
      refine ⟨rfl, ?_, by rw [hplace]; rfl, rfl, by rw [hplace], rfl, .release, id, fun _ => id⟩
      show w.global.active - 1 - (w.call.globalSlots - 1) = _
      ring
    · exact .finish hplace rfl rfl ending
  | concludes error =>
    simp only [Working.proceed, hplace]
    exact .conclude hplace
  | sleeps =>
    simp only [Working.proceed, hplace]
    exact .refl w
  | returned status body =>
    simp only [Working.proceed, hplace]
    exact .refl w
  | ended e =>
    simp only [Working.proceed, hplace]
    exact .refl w

theorem Balanced.resolved (c : TrafficConfig) (result : Except Raised (List String)) (w : Working) :
    Balanced origin now w (w.resolved origin c result) := by
  unfold Working.resolved
  split
  · next hplace =>
    split
    · exact .moves hplace rfl rfl
    · exact .moves hplace rfl rfl
  · exact .refl w

theorem Balanced.answered (result : Except Raised Response) (w : Working) :
    Balanced origin now w (w.answered result) := by
  unfold Working.answered
  split
  · next hplace =>
    split
    · exact .moves hplace rfl rfl
    · exact .moves hplace rfl rfl
  · exact .refl w

theorem Balanced.slept (closed : Bool) (raised : Option Raised) (w : Working) :
    Balanced origin now w (w.slept closed raised) := by
  unfold Working.slept
  split
  · next hplace =>
    split
    · exact .moves hplace rfl rfl
    · split_ifs
      · exact .moves hplace rfl rfl
      · exact .moves hplace rfl rfl
  · exact .refl w

/-! ### The record of a call -/

theorem shape_settled {b : Breaker} (h : w.call.Shape origin) :
    (w.settled b).call.Shape origin :=
  ⟨h.globalSlots, h.originSlots, h.beforeGlobal, h.beforeOrigin, h.attempts, h.granted⟩

theorem shape_recordSuccess (h : w.call.Shape origin) : w.recordSuccess.call.Shape origin :=
  ⟨h.globalSlots, h.originSlots, h.beforeGlobal, h.beforeOrigin, h.attempts, h.granted⟩

theorem shape_recordFailure (h : w.call.Shape origin) :
    (w.recordFailure origin now).call.Shape origin :=
  ⟨h.globalSlots, h.originSlots, h.beforeGlobal, h.beforeOrigin, h.attempts, h.granted⟩

/-- Two places that differ in nothing the record speaks about. -/
theorem shape_moves {place place' : Place} (hplace : w.call.place = place)
    (h : w.call.Shape origin) (htry : place'.inTry = place.inTry)
    (hkeeps : place'.keepsOrigin = place.keepsOrigin)
    (hglobal : place'.beforeGlobal = true → place.beforeGlobal = true)
    (horigin : place'.beforeOrigin = true → place.beforeOrigin = true)
    (hbetween : place'.between = true → place.between = true) :
    (w.goto place').call.Shape origin := by
  have hle : (if place.between = true then 0 else 1) ≤ if place'.between = true then 0 else 1 := by
    split_ifs <;> simp_all
  refine ⟨?_, ?_, fun hb => ?_, fun hb => ?_, ?_, ?_⟩
  · show w.call.globalSlots = if place'.inTry && w.call.acquiredGlobal then 1 else 0
    rw [htry, ← hplace]
    exact h.globalSlots
  · show w.call.originSlots = if place'.keepsOrigin && w.call.acquiredOrigin then 1 else 0
    rw [hkeeps, ← hplace]
    exact h.originSlots
  · exact h.beforeGlobal (by rw [hplace]; exact hglobal hb)
  · exact h.beforeOrigin (by rw [hplace]; exact horigin hb)
  · have hattempts := h.attempts
    rw [hplace] at hattempts
    exact hattempts.trans (Nat.add_le_add_left hle _)
  · have hgranted := h.granted
    rw [hplace] at hgranted
    exact hgranted.trans (Nat.add_le_add_left hle _)

theorem shape_allowRequest (hplace : w.call.place = .asks) (h : w.call.Shape origin) :
    (w.allowRequest origin now).call.Shape origin := by
  have hglobal := h.globalSlots
  have horigin := h.originSlots
  have hattempts := h.attempts
  have hgranted := h.granted
  rw [hplace] at hglobal horigin hattempts hgranted
  unfold Working.allowRequest
  split
  · exact ⟨hglobal, horigin, nofun, nofun, hattempts, hgranted⟩
  · exact ⟨hglobal, horigin, fun _ => rfl, fun _ => rfl, hattempts, hgranted⟩

theorem shape_globalAdmission {result : Admission × AdmissionBudget}
    (hplace : w.call.place = .acquiresGlobal ∨ w.call.place = .waitsGlobal)
    (h : w.call.Shape origin) : (w.globalAdmission result).call.Shape origin := by
  have hfree : w.call.acquiredGlobal = false := by
    rcases hplace with hplace | hplace <;> exact h.beforeGlobal (by rw [hplace]; rfl)
  have hfree' : w.call.acquiredOrigin = false := by
    rcases hplace with hplace | hplace <;> exact h.beforeOrigin (by rw [hplace]; rfl)
  have hglobal : w.call.globalSlots = 0 := by
    rw [h.globalSlots, hfree, Bool.and_false]
    rfl
  have horigin : w.call.originSlots = 0 := by
    rw [h.originSlots, hfree', Bool.and_false]
    rfl
  have hattempts : w.call.attempts ≤ origin.retryAttempts + 1 :=
    h.attempts.trans (by split_ifs <;> omega)
  have hgranted : w.call.attempts ≤ w.call.granted + 1 :=
    h.granted.trans (by split_ifs <;> omega)
  obtain ⟨admission, b⟩ := result
  cases admission with
  | admitted =>
    refine ⟨?_, ?_, nofun, fun _ => hfree', hattempts, hgranted⟩
    · show w.call.globalSlots + 1 = 1
      rw [hglobal, zero_add]
    · show w.call.originSlots = if w.call.acquiredOrigin then 1 else 0
      rw [horigin, hfree']
      rfl
  | refused e =>
    refine ⟨?_, ?_, nofun, nofun, hattempts, hgranted⟩
    · show w.call.globalSlots = if w.call.acquiredGlobal then 1 else 0
      rw [hglobal, hfree]
      rfl
    · show w.call.originSlots = if w.call.acquiredOrigin then 1 else 0
      rw [horigin, hfree']
      rfl
  | waits =>
    refine ⟨?_, ?_, fun _ => hfree, fun _ => hfree', hattempts, hgranted⟩
    · show w.call.globalSlots = if w.call.acquiredGlobal then 1 else 0
      rw [hglobal, hfree]
      rfl
    · show w.call.originSlots = if w.call.acquiredOrigin then 1 else 0
      rw [horigin, hfree']
      rfl

theorem shape_originAdmission {result : Admission × AdmissionBudget}
    (hplace : w.call.place = .acquiresOrigin ∨ w.call.place = .waitsOrigin)
    (h : w.call.Shape origin) : (w.originAdmission result).call.Shape origin := by
  have hfree : w.call.acquiredOrigin = false := by
    rcases hplace with hplace | hplace <;> exact h.beforeOrigin (by rw [hplace]; rfl)
  have horigin : w.call.originSlots = 0 := by
    rw [h.originSlots, hfree, Bool.and_false]
    rfl
  have hglobal : w.call.globalSlots = if w.call.acquiredGlobal then 1 else 0 := by
    have hslots := h.globalSlots
    rcases hplace with hplace | hplace <;> rwa [hplace] at hslots
  have hattempts : w.call.attempts ≤ origin.retryAttempts + 1 :=
    h.attempts.trans (by split_ifs <;> omega)
  have hgranted : w.call.attempts ≤ w.call.granted + 1 :=
    h.granted.trans (by split_ifs <;> omega)
  obtain ⟨admission, b⟩ := result
  cases admission with
  | admitted =>
    refine ⟨hglobal, ?_, nofun, nofun, hattempts, hgranted⟩
    show w.call.originSlots + 1 = 1
    rw [horigin, zero_add]
  | refused e =>
    refine ⟨hglobal, ?_, nofun, nofun, hattempts, hgranted⟩
    show w.call.originSlots = if w.call.acquiredOrigin then 1 else 0
    rw [horigin, hfree]
    rfl
  | waits =>
    refine ⟨hglobal, ?_, nofun, fun _ => hfree, hattempts, hgranted⟩
    show w.call.originSlots = if w.call.acquiredOrigin then 1 else 0
    rw [horigin, hfree]
    rfl

theorem shape_judge {response : Response} (hplace : w.call.place = .judges response)
    (h : w.call.Shape origin) : (w.judge origin now response).call.Shape origin := by
  cases response with
  | other => exact shape_moves hplace h rfl rfl nofun nofun nofun
  | response status body =>
    dsimp only [Working.judge]
    split_ifs
    · exact shape_moves hplace h rfl rfl nofun nofun nofun
    · exact shape_moves hplace h rfl rfl nofun nofun nofun
    · exact shape_moves hplace (shape_recordSuccess h) rfl rfl nofun nofun nofun
    · exact shape_moves hplace (shape_recordSuccess h) rfl rfl nofun nofun nofun
    · exact shape_moves hplace (shape_recordFailure h) rfl rfl nofun nofun nofun
    · exact shape_moves hplace (shape_recordSuccess h) rfl rfl nofun nofun nofun

theorem shape_handle {e : Raised} (hplace : w.call.place = .raised e) (closed : Bool)
    (h : w.call.Shape origin) : (w.handle origin now closed e).call.Shape origin := by
  have hunavailable : ∀ e', (w.handleUnavailable origin now closed e').call.Shape origin := by
    intro e'
    unfold Working.handleUnavailable
    split_ifs
    · exact shape_moves hplace (shape_settled h) rfl rfl nofun nofun nofun
    · exact shape_moves hplace h rfl rfl nofun nofun nofun
    · exact shape_moves hplace (shape_settled h) rfl rfl nofun nofun nofun
  rcases e with (_ | _ | _ | _) | _ | _ | _
  · exact shape_moves hplace (shape_settled h) rfl rfl nofun nofun nofun
  · exact hunavailable _
  · exact shape_moves hplace (shape_settled h) rfl rfl nofun nofun nofun
  · exact shape_moves hplace h rfl rfl nofun nofun nofun
  · exact hunavailable _
  · exact shape_moves hplace (shape_settled h) rfl rfl nofun nofun nofun
  · exact shape_moves hplace h rfl rfl nofun nofun nofun

/-- The end of an attempt that holds no slot any more. -/
theorem shape_finish (hslots : w.call.globalSlots = 0 ∧ w.call.originSlots = 0)
    (hattempts : w.call.attempts ≤ origin.retryAttempts + 1)
    (hgranted : w.call.attempts ≤ w.call.granted + 1) (ending : Ending) :
    (w.finish ending).call.Shape origin := by
  cases ending with
  | returns status body => exact ⟨hslots.1, hslots.2, nofun, nofun, hattempts, hgranted⟩
  | raises e => exact ⟨hslots.1, hslots.2, nofun, nofun, hattempts, hgranted⟩
  | fails error => exact ⟨hslots.1, hslots.2, nofun, nofun, hattempts, hgranted⟩

theorem shape_conclude {error : Raised} (hplace : w.call.place = .concludes error)
    (h : w.call.Shape origin) : (w.conclude origin now error).call.Shape origin := by
  have hglobal := h.globalSlots
  have horigin := h.originSlots
  have hattempts := h.attempts
  have hgranted := h.granted
  rw [hplace] at hglobal horigin hattempts hgranted
  unfold Working.conclude
  split_ifs with hlast
  · exact ⟨hglobal, horigin, nofun, nofun, hattempts, hgranted⟩
  · push Not at hlast
    split
    · exact ⟨hglobal, horigin, nofun, nofun, hattempts, hgranted⟩
    · exact ⟨hglobal, horigin, nofun, nofun, hlast.2, hgranted⟩

theorem shape_proceed (closed expired : Bool) (h : w.call.Shape origin) :
    (w.proceed origin now closed expired).call.Shape origin := by
  have hattempts : w.call.attempts ≤ origin.retryAttempts + 1 :=
    h.attempts.trans (by split_ifs <;> omega)
  have hgranted : w.call.attempts ≤ w.call.granted + 1 :=
    h.granted.trans (by split_ifs <;> omega)
  cases hplace : w.call.place with
  | loops =>
    simp only [Working.proceed, hplace]
    split_ifs
    · exact shape_moves hplace h rfl rfl nofun nofun nofun
    · have hglobal := h.globalSlots
      have horigin := h.originSlots
      have hmade := h.attempts
      have hfree := h.granted
      rw [hplace] at hglobal horigin hmade hfree
      exact ⟨hglobal, horigin, nofun, nofun, Nat.add_le_add_right hmade 1,
        Nat.add_le_add_right hfree 1⟩
  | asks =>
    simp only [Working.proceed, hplace]
    exact shape_allowRequest hplace h
  | acquiresGlobal =>
    simp only [Working.proceed, hplace]
    exact shape_globalAdmission (.inl hplace) h
  | waitsGlobal =>
    simp only [Working.proceed, hplace]
    exact shape_globalAdmission (.inr hplace) h
  | acquiresOrigin =>
    simp only [Working.proceed, hplace]
    exact shape_originAdmission (.inl hplace) h
  | waitsOrigin =>
    simp only [Working.proceed, hplace]
    exact shape_originAdmission (.inr hplace) h
  | resolves =>
    simp only [Working.proceed, hplace]
    exact h
  | sends =>
    simp only [Working.proceed, hplace]
    exact h
  | received response =>
    simp only [Working.proceed, hplace]
    split_ifs
    · exact shape_moves hplace h rfl rfl nofun nofun nofun
    · exact shape_moves hplace h rfl rfl nofun nofun nofun
  | judges response =>
    simp only [Working.proceed, hplace]
    exact shape_judge hplace h
  | raised e =>
    simp only [Working.proceed, hplace]
    exact shape_handle hplace closed h
  | releasesOrigin ending =>
    have hglobal := h.globalSlots
    have horigin := h.originSlots
    rw [hplace] at hglobal horigin
    simp only [Working.proceed, hplace]
    split_ifs with hheld
    · refine ⟨hglobal, ?_, nofun, nofun, hattempts, hgranted⟩
      show w.call.originSlots - 1 = 0
      rw [horigin, hheld]
      rfl
    · refine ⟨hglobal, ?_, nofun, nofun, hattempts, hgranted⟩
      show w.call.originSlots = 0
      rw [Bool.not_eq_true] at hheld
      rw [horigin, hheld]
      rfl
  | releasesGlobal ending =>
    have hglobal := h.globalSlots
    have horigin := h.originSlots
    rw [hplace] at hglobal horigin
    simp only [Working.proceed, hplace]
    split_ifs with hheld
    · refine shape_finish ?_ ?_ ?_ ending
      · refine ⟨?_, horigin⟩
        show w.call.globalSlots - 1 = 0
        rw [hglobal, hheld]
        rfl
      · exact hattempts
      · exact hgranted
    · refine shape_finish ⟨?_, horigin⟩ hattempts hgranted ending
      rw [Bool.not_eq_true] at hheld
      rw [hglobal, hheld]
      rfl
  | concludes error =>
    simp only [Working.proceed, hplace]
    exact shape_conclude hplace h
  | sleeps =>
    simp only [Working.proceed, hplace]
    exact h
  | returned status body =>
    simp only [Working.proceed, hplace]
    exact h
  | ended e =>
    simp only [Working.proceed, hplace]
    exact h

theorem shape_resolved (c : TrafficConfig) (result : Except Raised (List String))
    (h : w.call.Shape origin) : (w.resolved origin c result).call.Shape origin := by
  unfold Working.resolved
  split
  · next hplace =>
    split
    · exact shape_moves hplace h rfl rfl nofun nofun nofun
    · exact shape_moves hplace h rfl rfl nofun nofun nofun
  · exact h

theorem shape_answered (result : Except Raised Response) (h : w.call.Shape origin) :
    (w.answered result).call.Shape origin := by
  unfold Working.answered
  split
  · next hplace =>
    split
    · exact shape_moves hplace h rfl rfl nofun nofun nofun
    · exact shape_moves hplace h rfl rfl nofun nofun nofun
  · exact h

theorem shape_slept (closed : Bool) (raised : Option Raised) (h : w.call.Shape origin) :
    (w.slept closed raised).call.Shape origin := by
  unfold Working.slept
  split
  · next hplace =>
    split
    · exact shape_moves hplace h rfl rfl nofun nofun nofun
    · split_ifs
      · exact shape_moves hplace h rfl rfl nofun nofun nofun
      · exact shape_moves hplace h rfl rfl nofun nofun fun _ => rfl
  · exact h

end Working

/-! ## Sums over the calls -/

/-- What the calls have of something, together. -/
def total (f : Request → ℤ) (calls : List Request) : ℤ := (calls.map f).sum

/-- Only the calls to one origin count. -/
def atRuntime (r : ℕ) (f : Request → ℤ) (call : Request) : ℤ := if call.runtime = r then f call else 0

theorem total_append (f : Request → ℤ) (calls : List Request) (call : Request) :
    total f (calls ++ [call]) = total f calls + f call := by
  simp [total]

theorem total_set {f : Request → ℤ} {calls : List Request} {i : ℕ} {a : Request}
    (h : calls[i]? = some a) (b : Request) :
    total f (calls.set i b) = total f calls + (f b - f a) := by
  induction calls generalizing i with
  | nil => simp at h
  | cons call calls ih =>
    cases i with
    | zero =>
      obtain rfl : call = a := by simpa using h
      simp only [total, List.set_cons_zero, List.map_cons, List.sum_cons]
      ring
    | succ i =>
      have hrest := ih (i := i) (by simpa using h)
      simp only [total, List.set_cons_succ, List.map_cons, List.sum_cons] at hrest ⊢
      rw [hrest]
      ring

theorem total_nonneg {f : Request → ℤ} {calls : List Request} (h : ∀ call ∈ calls, 0 ≤ f call) :
    0 ≤ total f calls := by
  apply List.sum_nonneg
  intro x hx
  obtain ⟨call, hmem, rfl⟩ := List.mem_map.mp hx
  exact h call hmem

theorem total_le {f g : Request → ℤ} {calls : List Request} (h : ∀ call ∈ calls, f call ≤ g call) :
    total f calls ≤ total g calls :=
  List.sum_le_sum h

namespace Traffic

variable {c : TrafficConfig} {t : Traffic}

structure Inv (c : TrafficConfig) (t : Traffic) : Prop where
  globalActive : t.global.active = total (·.globalSlots) t.calls
  globalWaiting : t.global.waiting = total (·.place.globalWaits) t.calls
  originActive : ∀ r, (t.runtimes r).admission.active = total (atRuntime r (·.originSlots)) t.calls
  originWaiting : ∀ r, (t.runtimes r).admission.waiting =
    total (atRuntime r (·.place.originWaits)) t.calls
  granted : ∀ r, ((t.runtimes r).granted : ℤ) = total (atRuntime r (·.granted)) t.calls
  globalLimited : t.global.Limited
  originLimited : ∀ r, (t.runtimes r).admission.Limited
  bucket : ∀ r, (t.runtimes r).Bucket (c.origins r) c.start t.now
  shape : ∀ call ∈ t.calls, call.Shape (c.origins call.runtime)

theorem Inv.init (c : TrafficConfig) : Inv c (init c) where
  globalActive := rfl
  globalWaiting := rfl
  originActive _ := rfl
  originWaiting _ := rfl
  granted _ := rfl
  globalLimited := ⟨Int.natCast_nonneg _, Int.natCast_nonneg _⟩
  originLimited _ := ⟨Int.natCast_nonneg _, Int.natCast_nonneg _⟩
  bucket r := .init (c.origins r) c.start
  shape := by simp [Traffic.init]

/-- A counter of an origin after a step of one of its calls, or of another origin's. -/
theorem counter_commit {v : Runtime → ℤ} {f : Request → ℤ} {i : ℕ} {call : Request}
    {w : Working} (hi : t.calls[i]? = some call) (hruntime : w.call.runtime = call.runtime)
    (h : ∀ r, v (t.runtimes r) = total (atRuntime r f) t.calls)
    (hbalanced : v w.runtime - f w.call = v (t.runtimes call.runtime) - f call) (r : ℕ) :
    v ((t.commit i w).runtimes r) = total (atRuntime r f) (t.commit i w).calls := by
  show v (Function.update t.runtimes w.call.runtime w.runtime r) = total _ (t.calls.set i w.call)
  rw [total_set hi, ← h r, hruntime]
  by_cases hr : r = call.runtime
  · subst hr
    rw [Function.update_self, atRuntime, atRuntime, if_pos hruntime, if_pos rfl]
    omega
  · rw [Function.update_of_ne hr, atRuntime, atRuntime, if_neg (by rw [hruntime]; exact Ne.symm hr),
      if_neg (Ne.symm hr)]
    omega

theorem Inv.stepCall (h : Inv c t) {i : ℕ} {f : HTTPOrigin → Working → Working}
    (hbalanced : ∀ origin w, Working.Balanced origin t.now w (f origin w))
    (hshape : ∀ origin w, w.call.Shape origin → (f origin w).call.Shape origin) :
    Inv c (t.stepCall c i f) := by
  unfold Traffic.stepCall
  cases hi : t.calls[i]? with
  | none => exact h
  | some call =>
    have hb := hbalanced (c.origins call.runtime) (t.working call)
    have hruntime : (f (c.origins call.runtime) (t.working call)).call.runtime = call.runtime :=
      hb.runtime
    have hglobal : ∀ (value : AdmissionBudget → ℤ) (g : Request → ℤ),
        value t.global = total g t.calls →
        value (f (c.origins call.runtime) (t.working call)).global -
          g (f (c.origins call.runtime) (t.working call)).call = value t.global - g call →
        value (f (c.origins call.runtime) (t.working call)).global =
          total g (t.calls.set i (f (c.origins call.runtime) (t.working call)).call) := by
      intro value g htotal hstep
      rw [total_set hi, ← htotal]
      omega
    refine ⟨hglobal (·.active) _ h.globalActive hb.globalActive,
      hglobal (·.waiting) _ h.globalWaiting hb.globalWaiting,
      counter_commit (v := (·.admission.active)) hi hruntime h.originActive hb.originActive,
      counter_commit (v := (·.admission.waiting)) hi hruntime h.originWaiting hb.originWaiting,
      counter_commit (v := (·.granted)) hi hruntime h.granted hb.granted,
      hb.globalLimited h.globalLimited, fun r => ?_, fun r => ?_, fun other hmem => ?_⟩
    · show (Function.update t.runtimes _ _ r).admission.Limited
      rw [hruntime]
      by_cases hr : r = call.runtime
      · subst hr
        rw [Function.update_self]
        exact hb.originLimited (h.originLimited _)
      · rw [Function.update_of_ne hr]
        exact h.originLimited r
    · show (Function.update t.runtimes _ _ r).Bucket _ _ t.now
      rw [hruntime]
      by_cases hr : r = call.runtime
      · subst hr
        rw [Function.update_self]
        exact hb.bucket _ (h.bucket _)
      · rw [Function.update_of_ne hr]
        exact h.bucket r
    · rcases List.mem_or_eq_of_mem_set hmem with hmem | rfl
      · exact h.shape other hmem
      · rw [hruntime]
        exact hshape _ _ (h.shape call (List.mem_of_getElem? hi))

/-- A change that no counter notices. -/
theorem Inv.closeAdmission (h : Inv c t) (r : ℕ) : Inv c (t.step c (.closeAdmission r)) := by
  have hsame : ∀ {β : Type} (g : Runtime → β), (∀ runtime : Runtime,
      g { runtime with admission := runtime.admission.close } = g runtime) →
      ∀ r', g ((t.step c (.closeAdmission r)).runtimes r') = g (t.runtimes r') := by
    intro β g hg r'
    show g (Function.update t.runtimes r _ r') = _
    by_cases hr : r' = r
    · subst hr
      rw [Function.update_self, hg]
    · rw [Function.update_of_ne hr]
  refine ⟨h.globalActive, h.globalWaiting, fun r' => ?_, fun r' => ?_, fun r' => ?_,
    h.globalLimited, fun r' => ?_, fun r' => ?_, h.shape⟩
  · exact (hsame (·.admission.active) (fun _ => rfl) r').trans (h.originActive r')
  · exact (hsame (·.admission.waiting) (fun _ => rfl) r').trans (h.originWaiting r')
  · exact (hsame (fun runtime => (runtime.granted : ℤ)) (fun _ => rfl) r').trans (h.granted r')
  · have hlimited := hsame (fun runtime => runtime.admission.Limited)
      (fun _ => propext ⟨fun hl => ⟨hl.active, hl.waiting⟩, fun hl => ⟨hl.active, hl.waiting⟩⟩) r'
    exact hlimited.mpr (h.originLimited r')
  · have hbucket := hsame (Runtime.Bucket (c.origins r') c.start t.now)
      (fun _ => propext ⟨fun hb => ⟨hb.tokens, hb.spent, hb.updated⟩,
        fun hb => ⟨hb.tokens, hb.spent, hb.updated⟩⟩) r'
    exact hbucket.mpr (h.bucket r')

theorem Inv.request (h : Inv c t) (r : ℕ) : Inv c (t.step c (.request r)) := by
  -- a new call has nothing yet
  have hnew : ∀ f : Request → ℤ, f (newRequest r) = 0 →
      total f (t.step c (.request r)).calls = total f t.calls := by
    intro f hf
    rw [Traffic.step, total_append, hf, add_zero]
  have hzero : ∀ r' (f : Request → ℤ), f (newRequest r) = 0 → atRuntime r' f (newRequest r) = 0 := by
    intro r' f hf
    rw [atRuntime, hf, ite_self]
  refine ⟨?_, ?_, fun r' => ?_, fun r' => ?_, fun r' => ?_, h.globalLimited, h.originLimited,
    h.bucket, fun call hmem => ?_⟩
  · exact h.globalActive.trans (hnew _ rfl).symm
  · exact h.globalWaiting.trans (hnew _ rfl).symm
  · exact (h.originActive r').trans (hnew _ (hzero r' _ rfl)).symm
  · exact (h.originWaiting r').trans (hnew _ (hzero r' _ rfl)).symm
  · exact (h.granted r').trans (hnew _ (hzero r' _ rfl)).symm
  · rcases List.mem_append.mp hmem with hmem | hmem
    · exact h.shape call hmem
    · rw [List.mem_singleton.mp hmem]
      exact ⟨rfl, rfl, nofun, nofun, Nat.zero_le _, Nat.zero_le _⟩

theorem Inv.step (h : Inv c t) (event : TrafficEvent) : Inv c (t.step c event) := by
  cases event with
  | elapse seconds =>
    exact { h with bucket := fun r => (h.bucket r).elapse (le_add_of_nonneg_right seconds.2) }
  | shutdown => exact { h with }
  | closeGlobal =>
    exact { h with globalLimited := ⟨h.globalLimited.active, h.globalLimited.waiting⟩ }
  | closeAdmission r => exact h.closeAdmission r
  | request r => exact h.request r
  | proceed i expired late =>
    exact h.stepCall (fun _ w => .proceed _ expired w) fun _ _ => Working.shape_proceed _ expired
  | resolved i result =>
    exact h.stepCall (fun _ w => .resolved c result w) fun _ _ => Working.shape_resolved c result
  | answered i result =>
    exact h.stepCall (fun _ w => .answered result w) fun _ _ => Working.shape_answered result
  | slept i raised =>
    exact h.stepCall (fun _ w => .slept _ raised w) fun _ _ => Working.shape_slept _ raised

theorem Inv.run (c : TrafficConfig) (events : List TrafficEvent) : Inv c (run c events) := by
  unfold Traffic.run
  induction events using List.reverseRecOn with
  | nil => exact .init c
  | append_singleton events event ih =>
    rw [List.foldl_append]
    exact ih.step event

end Traffic

/-! ## Probes -/

namespace Place

/-- How often the probe of an attempt is settled by the time the call is at a place. -/
def settledBy (recorded : Bool) : Place → ℕ
  | .raised _ => recorded.toNat
  | .releasesOrigin _ | .releasesGlobal _ => 1
  | _ => 0

/-- Where the outcome of the attempt may be recorded already. -/
def afterRecord : Place → Bool
  | .raised (.nonRetryable _) | .releasesOrigin _ | .releasesGlobal _ => true
  | _ => false

end Place

namespace Request

/-- The probe of the attempt that is under way. -/
def openProbe (call : Request) : List ℕ :=
  if call.place.inTry && call.halfOpen then [call.place.settledBy call.breakerRecorded] else []

/-- Every probe before the one under way was settled once. -/
structure Settles (call : Request) : Prop where
  probes : ∃ rest, call.probes = call.openProbe ++ rest ∧ ∀ n ∈ rest, n = 1
  recorded : call.place.inTry = true → call.breakerRecorded = true → call.place.afterRecord = true

variable {call call' : Request}

/-- A step that settles nothing. -/
theorem Settles.moves (h : call.Settles) (hprobes : call'.probes = call.probes)
    (hopen : call'.openProbe = call.openProbe)
    (hrecorded : call'.place.inTry = true → call'.breakerRecorded = true →
      call'.place.afterRecord = true) : call'.Settles := by
  refine ⟨?_, hrecorded⟩
  rw [hprobes, hopen]
  exact h.probes

/-- A step that settles the probe under way. -/
theorem Settles.settle (h : call.Settles) (hin : call.place.inTry = true)
    (hdue : call.place.settledBy call.breakerRecorded = 0) (hhalf : call'.halfOpen = call.halfOpen)
    (hprobes : call'.probes = if call.halfOpen then call.probes.modifyHead (· + 1) else call.probes)
    (hin' : call'.place.inTry = true) (hdue' : call'.place.settledBy call'.breakerRecorded = 1)
    (hafter : call'.place.afterRecord = true) : call'.Settles := by
  refine ⟨?_, fun _ _ => hafter⟩
  obtain ⟨rest, hrest, hone⟩ := h.probes
  refine ⟨rest, ?_, hone⟩
  rw [hprobes, hrest, openProbe, openProbe, hin, hin', hhalf, hdue, hdue']
  cases call.halfOpen <;> rfl

end Request

namespace Working

variable {origin : HTTPOrigin} {now : ℚ} {w : Working}

/-- A step within the `try` block before anything is recorded. -/
theorem settles_goto {place place' : Place} (hplace : w.call.place = place) (h : w.call.Settles)
    (hin : place.inTry = true) (hafter : place.afterRecord = false)
    (hdue : place.settledBy false = 0) (hin' : place'.inTry = true)
    (hdue' : place'.settledBy false = 0) : (w.goto place').call.Settles := by
  have hfresh : w.call.breakerRecorded = false := by
    by_contra hrecorded
    have hrec := h.recorded (by rw [hplace, hin]) (by simpa using hrecorded)
    rw [hplace, hafter] at hrec
    cases hrec
  refine h.moves rfl ?_ fun _ hrecorded => ?_
  · rw [Request.openProbe, Request.openProbe]
    show (if place'.inTry && w.call.halfOpen then [place'.settledBy w.call.breakerRecorded] else []) = _
    rw [hplace, hin, hin', hfresh, hdue, hdue']
  · have hrecorded' : w.call.breakerRecorded = true := hrecorded
    rw [hfresh] at hrecorded'
    cases hrecorded'

/-- A step outside the `try` block. -/
theorem settles_outside {place place' : Place} (hplace : w.call.place = place) (h : w.call.Settles)
    (hout : place.inTry = false) (hout' : place'.inTry = false) : (w.goto place').call.Settles := by
  refine h.moves rfl ?_ fun hin => ?_
  · rw [Request.openProbe, Request.openProbe]
    show (if place'.inTry && w.call.halfOpen then _ else _) = _
    rw [hplace, hout, hout']
    rfl
  · have hin' : place'.inTry = true := hin
    rw [hout'] at hin'
    cases hin'

theorem settles_allowRequest (hplace : w.call.place = .asks) (h : w.call.Settles) :
    (w.allowRequest origin now).call.Settles := by
  obtain ⟨rest, hrest, hone⟩ := h.probes
  rw [Request.openProbe, hplace] at hrest
  unfold Working.allowRequest
  split
  · exact ⟨⟨rest, hrest, hone⟩, nofun⟩
  · next halfOpen b _ =>
    refine ⟨⟨rest, ?_, hone⟩, nofun⟩
    show (if halfOpen then 0 :: w.call.probes else w.call.probes) = _
    rw [hrest]
    cases halfOpen <;> rfl

theorem settles_globalAdmission {result : Admission × AdmissionBudget}
    (hplace : w.call.place = .acquiresGlobal ∨ w.call.place = .waitsGlobal)
    (h : w.call.Settles) : (w.globalAdmission result).call.Settles := by
  have hgoto : ∀ place', place'.inTry = true → place'.settledBy false = 0 →
      (w.goto place').call.Settles := by
    intro place' hin' hdue'
    rcases hplace with hplace | hplace
    · exact settles_goto hplace h rfl rfl rfl hin' hdue'
    · exact settles_goto hplace h rfl rfl rfl hin' hdue'
  obtain ⟨admission, b⟩ := result
  cases admission with
  | admitted => exact (hgoto .acquiresOrigin rfl rfl).moves rfl rfl (hgoto .acquiresOrigin rfl rfl).recorded
  | refused e => exact hgoto (.raised (.origin e)) rfl rfl
  | waits => exact hgoto .waitsGlobal rfl rfl

theorem settles_originAdmission {result : Admission × AdmissionBudget}
    (hplace : w.call.place = .acquiresOrigin ∨ w.call.place = .waitsOrigin)
    (h : w.call.Settles) : (w.originAdmission result).call.Settles := by
  have hgoto : ∀ place', place'.inTry = true → place'.settledBy false = 0 →
      (w.goto place').call.Settles := by
    intro place' hin' hdue'
    rcases hplace with hplace | hplace
    · exact settles_goto hplace h rfl rfl rfl hin' hdue'
    · exact settles_goto hplace h rfl rfl rfl hin' hdue'
  obtain ⟨admission, b⟩ := result
  cases admission with
  | admitted => exact (hgoto .resolves rfl rfl).moves rfl rfl (hgoto .resolves rfl rfl).recorded
  | refused e => exact hgoto (.raised (.origin e)) rfl rfl
  | waits => exact hgoto .waitsOrigin rfl rfl

theorem settles_judge {response : Response} (hplace : w.call.place = .judges response)
    (h : w.call.Settles) : (w.judge origin now response).call.Settles := by
  have hin : w.call.place.inTry = true := by rw [hplace]; rfl
  have hdue : w.call.place.settledBy w.call.breakerRecorded = 0 := by rw [hplace]; rfl
  cases response with
  | other => exact settles_goto hplace h rfl rfl rfl rfl rfl
  | response status body =>
    dsimp only [Working.judge]
    split_ifs
    · exact settles_goto hplace h rfl rfl rfl rfl rfl
    · exact settles_goto hplace h rfl rfl rfl rfl rfl
    · exact h.settle hin hdue rfl rfl rfl rfl rfl
    · exact h.settle hin hdue rfl rfl rfl rfl rfl
    · exact h.settle hin hdue rfl rfl rfl rfl rfl
    · exact h.settle hin hdue rfl rfl rfl rfl rfl

end Working

/-- An exception whose handler settles the probe. -/
def Raised.isHandled : Raised → Bool
  | .origin (.circuitOpen _) | .other _ => false
  | _ => true

namespace Working

variable {origin : HTTPOrigin} {now : ℚ} {w : Working}

/-- An attempt that is no probe has nothing to settle. -/
theorem settles_handle_plain {e : Raised} (hplace : w.call.place = .raised e) (closed : Bool)
    (h : w.call.Settles) (hplain : w.call.halfOpen = false) :
    (w.handle origin now closed e).call.Settles := by
  obtain ⟨rest, hrest, hone⟩ := h.probes
  rw [Request.openProbe, hplain, Bool.and_false] at hrest
  have hstay : ∀ ending, (w.goto (.releasesOrigin ending)).call.Settles := by
    intro ending
    refine ⟨⟨rest, ?_, hone⟩, fun _ _ => rfl⟩
    show w.call.probes = Request.openProbe _ ++ rest
    rw [hrest, Request.openProbe]
    show _ = (if true && w.call.halfOpen then _ else _) ++ rest
    rw [hplain]
    rfl
  have hsettled : ∀ ending b, ((w.settled b).goto (.releasesOrigin ending)).call.Settles := by
    intro ending b
    have hsame : ((w.settled b).goto (.releasesOrigin ending)).call =
        (w.goto (.releasesOrigin ending)).call := by
      simp [Working.settled, Working.goto, hplain]
    rw [hsame]
    exact hstay ending
  have hunavailable : ∀ e', (w.handleUnavailable origin now closed e').call.Settles := by
    intro e'
    unfold Working.handleUnavailable
    split_ifs
    · exact hsettled _ _
    · exact hstay _
    · exact hsettled _ _
  rcases e with (_ | _ | _ | _) | _ | _ | _
  · exact hsettled _ _
  · exact hunavailable _
  · exact hsettled _ _
  · exact hstay _
  · exact hunavailable _
  · exact hsettled _ _
  · exact hstay _

/-- A probe is settled by the handler, unless its outcome was recorded before. -/
theorem settles_handle_probe {e : Raised} (hplace : w.call.place = .raised e) {closed : Bool}
    (h : w.call.Settles) (hhandled : e.isHandled = true)
    (hopen : w.call.breakerRecorded = true → closed = false) :
    (w.handle origin now closed e).call.Settles := by
  have hin : w.call.place.inTry = true := by rw [hplace]; rfl
  cases hrecorded : w.call.breakerRecorded with
  | true =>
    -- only a response that must not be retried is raised after its outcome was recorded
    have hafter := h.recorded hin hrecorded
    rw [hplace] at hafter
    obtain ⟨message, rfl⟩ : ∃ message, e = .nonRetryable message := by
      rcases e with _ | message | _ | _
      · cases hafter
      · exact ⟨message, rfl⟩
      · cases hafter
      · cases hafter
    simp only [Working.handle, Working.handleUnavailable, hopen hrecorded, hrecorded]
    refine h.moves rfl ?_ fun _ _ => rfl
    rw [Request.openProbe, Request.openProbe, hplace]
    show (if true && w.call.halfOpen then [1] else []) = _
    rw [hrecorded]
    rfl
  | false =>
    have hdue : w.call.place.settledBy w.call.breakerRecorded = 0 := by
      rw [hplace, hrecorded]
      rfl
    have hunavailable : ∀ e', (w.handleUnavailable origin now closed e').call.Settles := by
      intro e'
      simp only [Working.handleUnavailable, hrecorded, Bool.false_eq_true, ↓reduceIte]
      split_ifs with hclosed
      · exact h.settle hin hdue rfl rfl rfl rfl rfl
      · exact h.settle hin hdue rfl rfl rfl rfl rfl
    rcases e with (_ | _ | _ | _) | _ | _ | _
    · exact h.settle hin hdue rfl rfl rfl rfl rfl
    · exact hunavailable _
    · exact h.settle hin hdue rfl rfl rfl rfl rfl
    · cases hhandled
    · exact hunavailable _
    · exact h.settle hin hdue rfl rfl rfl rfl rfl
    · cases hhandled

/-- The end of an attempt. -/
theorem settles_finish {ending : Ending} {place : Place} (hplace : w.call.place = place)
    (hin : place.inTry = true) (hdue : ∀ recorded, place.settledBy recorded = 1)
    (h : w.call.Settles) : (w.finish ending).call.Settles := by
  obtain ⟨rest, hrest, hone⟩ := h.probes
  rw [Request.openProbe, hplace, hin, hdue] at hrest
  have hall : ∀ n ∈ w.call.probes, n = 1 := by
    intro n hmem
    rw [hrest] at hmem
    rcases List.mem_append.mp hmem with hmem | hmem
    · cases hhalf : w.call.halfOpen
      · simp [hhalf] at hmem
      · simpa [hhalf] using hmem
    · exact hone n hmem
  cases ending with
  | returns status body => exact ⟨⟨w.call.probes, rfl, hall⟩, nofun⟩
  | raises e => exact ⟨⟨w.call.probes, rfl, hall⟩, nofun⟩
  | fails error => exact ⟨⟨w.call.probes, rfl, hall⟩, nofun⟩

/-- What the probe of a call relies on before its next step. -/
def Meets (closed : Bool) (call : Request) : Prop :=
  ∀ e, call.place = .raised e → call.halfOpen = true →
    e.isHandled = true ∧ (call.breakerRecorded = true → closed = false)

theorem settles_proceed {closed : Bool} (expired : Bool) (h : w.call.Settles)
    (hmeets : Meets closed w.call) : (w.proceed origin now closed expired).call.Settles := by
  cases hplace : w.call.place with
  | loops =>
    simp only [Working.proceed, hplace]
    split_ifs
    · exact settles_outside hplace h rfl rfl
    · have hasks : (w.goto .asks).call.Settles := settles_outside hplace h rfl rfl
      exact hasks.moves rfl rfl nofun
  | asks =>
    simp only [Working.proceed, hplace]
    exact settles_allowRequest hplace h
  | acquiresGlobal =>
    simp only [Working.proceed, hplace]
    exact settles_globalAdmission (.inl hplace) h
  | waitsGlobal =>
    simp only [Working.proceed, hplace]
    exact settles_globalAdmission (.inr hplace) h
  | acquiresOrigin =>
    simp only [Working.proceed, hplace]
    exact settles_originAdmission (.inl hplace) h
  | waitsOrigin =>
    simp only [Working.proceed, hplace]
    exact settles_originAdmission (.inr hplace) h
  | resolves =>
    simp only [Working.proceed, hplace]
    exact h
  | sends =>
    simp only [Working.proceed, hplace]
    exact h
  | received response =>
    simp only [Working.proceed, hplace]
    split_ifs
    · exact settles_goto hplace h rfl rfl rfl rfl rfl
    · exact settles_goto hplace h rfl rfl rfl rfl rfl
  | judges response =>
    simp only [Working.proceed, hplace]
    exact settles_judge hplace h
  | raised e =>
    simp only [Working.proceed, hplace]
    cases hhalf : w.call.halfOpen with
    | false => exact settles_handle_plain hplace closed h hhalf
    | true =>
      obtain ⟨hhandled, hopen⟩ := hmeets e hplace hhalf
      exact settles_handle_probe hplace h hhandled hopen
  | releasesOrigin ending =>
    have hnext : (w.goto (.releasesGlobal ending)).call.Settles := by
      refine h.moves rfl ?_ fun _ _ => rfl
      rw [Request.openProbe, Request.openProbe, hplace]
      rfl
    simp only [Working.proceed, hplace]
    split_ifs
    · exact hnext.moves rfl rfl fun _ _ => rfl
    · exact hnext
  | releasesGlobal ending =>
    simp only [Working.proceed, hplace]
    split_ifs
    · refine settles_finish rfl rfl (fun _ => rfl) ?_
      refine h.moves rfl ?_ fun _ _ => rfl
      rw [Request.openProbe, Request.openProbe, hplace]
    · exact settles_finish hplace rfl (fun _ => rfl) h
  | concludes error =>
    simp only [Working.proceed, hplace, Working.conclude]
    split_ifs
    · exact settles_outside hplace h rfl rfl
    · split
      · exact settles_outside hplace h rfl rfl
      · have hsleeps : (w.goto .sleeps).call.Settles := settles_outside hplace h rfl rfl
        exact hsleeps.moves rfl rfl nofun
  | sleeps =>
    simp only [Working.proceed, hplace]
    exact h
  | returned status body =>
    simp only [Working.proceed, hplace]
    exact h
  | ended e =>
    simp only [Working.proceed, hplace]
    exact h

theorem settles_resolved (c : TrafficConfig) (result : Except Raised (List String))
    (h : w.call.Settles) : (w.resolved origin c result).call.Settles := by
  unfold Working.resolved
  split
  · next hplace =>
    split
    · exact settles_goto hplace h rfl rfl rfl rfl rfl
    · exact settles_goto hplace h rfl rfl rfl rfl rfl
  · exact h

theorem settles_answered (result : Except Raised Response) (h : w.call.Settles) :
    (w.answered result).call.Settles := by
  unfold Working.answered
  split
  · next hplace =>
    split
    · exact settles_goto hplace h rfl rfl rfl rfl rfl
    · exact settles_goto hplace h rfl rfl rfl rfl rfl
  · exact h

theorem settles_slept (closed : Bool) (raised : Option Raised) (h : w.call.Settles) :
    (w.slept closed raised).call.Settles := by
  unfold Working.slept
  split
  · next hplace =>
    split
    · exact settles_outside hplace h rfl rfl
    · split_ifs
      · exact settles_outside hplace h rfl rfl
      · exact settles_outside hplace h rfl rfl
  · exact h

end Working

namespace Traffic

variable {c : TrafficConfig} {t : Traffic}

/-- The step lets no half-open probe out unsettled, and settles none a second time: its resolver
or transport raised nothing that the handlers pass on, and after a response that must not be
retried no shutdown is seen. -/
def Meets (t : Traffic) : TrafficEvent → Prop
  | .proceed i _ late => ∀ call, t.calls[i]? = some call → Working.Meets (t.closed && !late) call
  | _ => True

/-- Every step of a run meets the condition. -/
def Guarded (c : TrafficConfig) (events : List TrafficEvent) : Prop :=
  ∀ before event after, events = before ++ event :: after → (run c before).Meets event

/-- Every probe of a call that is over was settled once. -/
def Settled (t : Traffic) : Prop :=
  ∀ call ∈ t.calls, call.place.isExit = true → ∀ n ∈ call.probes, n = 1

theorem settles_stepCall {i : ℕ} {f : HTTPOrigin → Working → Working}
    (h : ∀ call ∈ t.calls, call.Settles)
    (hstep : ∀ call, t.calls[i]? = some call →
      (f (c.origins call.runtime) (t.working call)).call.Settles) :
    ∀ call ∈ (t.stepCall c i f).calls, call.Settles := by
  unfold Traffic.stepCall
  cases hi : t.calls[i]? with
  | none => exact h
  | some call =>
    intro other hmem
    rcases List.mem_or_eq_of_mem_set hmem with hmem | rfl
    · exact h other hmem
    · exact hstep call hi

theorem settles_step (h : ∀ call ∈ t.calls, call.Settles) {event : TrafficEvent}
    (hmeets : t.Meets event) : ∀ call ∈ (t.step c event).calls, call.Settles := by
  cases event with
  | elapse seconds => exact h
  | shutdown => exact h
  | closeGlobal => exact h
  | closeAdmission r => exact h
  | request r =>
    intro call hmem
    rcases List.mem_append.mp hmem with hmem | hmem
    · exact h call hmem
    · rw [List.mem_singleton.mp hmem]
      exact ⟨⟨[], rfl, nofun⟩, nofun⟩
  | proceed i expired late =>
    exact settles_stepCall h fun call hi =>
      Working.settles_proceed expired (h call (List.mem_of_getElem? hi)) (hmeets call hi)
  | resolved i result =>
    exact settles_stepCall h fun call hi =>
      Working.settles_resolved c result (h call (List.mem_of_getElem? hi))
  | answered i result =>
    exact settles_stepCall h fun call hi =>
      Working.settles_answered result (h call (List.mem_of_getElem? hi))
  | slept i raised =>
    exact settles_stepCall h fun call hi =>
      Working.settles_slept _ raised (h call (List.mem_of_getElem? hi))

theorem settles_run {events : List TrafficEvent} (hguarded : Guarded c events) :
    ∀ call ∈ (run c events).calls, call.Settles := by
  induction events using List.reverseRecOn with
  | nil => exact fun call hmem => absurd hmem List.not_mem_nil
  | append_singleton events event ih =>
    have hbefore : Guarded c events := by
      intro before e after heq
      exact hguarded before e (after ++ [event]) (by simp [heq])
    have hstep := settles_step (c := c) (ih hbefore) (hguarded events event [] rfl)
    unfold Traffic.run at hstep ⊢
    rw [List.foldl_append]
    exact hstep

/-- What holds of every service, whatever the resolvers and transports do. -/
structure Bounded (c : TrafficConfig) (t : Traffic) : Prop where
  global : 0 ≤ t.global.active ∧ t.global.active ≤ t.global.maximum ∧
    0 ≤ t.global.waiting ∧ t.global.waiting ≤ t.global.maximumQueue
  origins : ∀ r, 0 ≤ (t.runtimes r).admission.active ∧
    (t.runtimes r).admission.active ≤ (t.runtimes r).admission.maximum ∧
    0 ≤ (t.runtimes r).admission.waiting ∧
    (t.runtimes r).admission.waiting ≤ (t.runtimes r).admission.maximumQueue
  held : t.global.active = total (·.globalSlots) t.calls ∧
    ∀ r, (t.runtimes r).admission.active = total (atRuntime r (·.originSlots)) t.calls
  released : ∀ call ∈ t.calls, call.place.isExit = true →
    call.globalSlots = 0 ∧ call.originSlots = 0
  attempts : ∀ call ∈ t.calls, call.attempts ≤ (c.origins call.runtime).retryAttempts + 1
  retries : ∀ r, total (atRuntime r fun call => ((call.attempts - 1 : ℕ) : ℤ)) t.calls ≤
    (t.runtimes r).granted
  granted : ∀ r, ((t.runtimes r).granted : ℚ) ≤ (c.origins r).retryBudgetCapacity +
    (t.now - c.start) * (c.origins r).retryBudgetRefillPerSecond

theorem Inv.bounded (h : Inv c t) : Bounded c t := by
  have hglobal : ∀ call ∈ t.calls, 0 ≤ call.globalSlots := by
    intro call hmem
    rw [(h.shape call hmem).globalSlots]
    split_ifs <;> simp
  have horigin : ∀ call ∈ t.calls, 0 ≤ call.originSlots := by
    intro call hmem
    rw [(h.shape call hmem).originSlots]
    split_ifs <;> simp
  have hat : ∀ (r : ℕ) (f : Request → ℤ), (∀ call ∈ t.calls, 0 ≤ f call) →
      0 ≤ total (atRuntime r f) t.calls := by
    intro r f hf
    refine total_nonneg fun call hmem => ?_
    rw [atRuntime]
    split_ifs
    · exact hf call hmem
    · exact le_rfl
  have hwaits : ∀ place : Place, 0 ≤ place.globalWaits ∧ 0 ≤ place.originWaits := by
    intro place
    rw [Place.globalWaits, Place.originWaits]
    constructor <;> split_ifs <;> simp
  refine ⟨⟨?_, h.globalLimited.active, ?_, h.globalLimited.waiting⟩, fun r => ⟨?_,
    (h.originLimited r).active, ?_, (h.originLimited r).waiting⟩,
    ⟨h.globalActive, h.originActive⟩, fun call hmem hexit => ?_, fun call hmem => ?_, fun r => ?_,
    fun r => (h.bucket r).granted_le⟩
  · rw [h.globalActive]
    exact total_nonneg hglobal
  · rw [h.globalWaiting]
    exact total_nonneg fun call _ => (hwaits call.place).1
  · rw [h.originActive r]
    exact hat r _ horigin
  · rw [h.originWaiting r]
    exact hat r _ fun call _ => (hwaits call.place).2
  · have hglobalSlots := (h.shape call hmem).globalSlots
    have horiginSlots := (h.shape call hmem).originSlots
    cases hplace : call.place <;> rw [hplace] at hexit hglobalSlots horiginSlots <;>
      first
        | exact absurd hexit Bool.false_ne_true
        | exact ⟨hglobalSlots, horiginSlots⟩
  · exact (h.shape call hmem).attempts.trans (by split_ifs <;> omega)
  · rw [h.granted r]
    refine total_le fun call hmem => ?_
    have hmade : call.attempts ≤ call.granted + 1 :=
      (h.shape call hmem).granted.trans (by split_ifs <;> omega)
    rw [atRuntime, atRuntime]
    split_ifs
    · omega
    · exact le_rfl

theorem origin_work_bounded (c : TrafficConfig) (events : List TrafficEvent) :
    Bounded c (run c events) ∧ (Guarded c events → Settled (run c events)) := by
  refine ⟨(Inv.run c events).bounded, fun hguarded call hmem hexit n hn => ?_⟩
  obtain ⟨rest, hrest, hone⟩ := (settles_run hguarded call hmem).probes
  have hnone : call.openProbe = [] := by
    rw [Request.openProbe]
    cases hplace : call.place <;> rw [hplace] at hexit <;>
      first
        | exact absurd hexit Bool.false_ne_true
        | rfl
  rw [hrest, hnone] at hn
  exact hone n hn

/-- One origin; every address is allowed. -/
def oneOrigin : TrafficConfig := ⟨fun _ => Gate.brittle, 4, 4, 0, fun _ _ => .allowed⟩

/-- The steps of call `i` up to its resolver. -/
def admission (i : ℕ) : List TrafficEvent := List.replicate 4 (.proceed i false false)

/-- The first request times out and opens the breaker.  Ten seconds later the second one is the
half-open probe, and its transport raises an exception that no handler expects. -/
def lostProbe : List TrafficEvent :=
  .request 0 :: admission 0 ++
  [.resolved 0 (.ok ["192.0.2.1"]), .answered 0 (.error (.io "timed out")),
    .proceed 0 false false, .elapse 10, .request 0] ++
  admission 1 ++
  [.resolved 1 (.ok ["192.0.2.1"]), .answered 1 (.error (.other "ValueError")),
    .proceed 1 false false, .proceed 1 false false, .proceed 1 false false]

theorem lostProbe_unsettled :
    ¬ ∀ (c : TrafficConfig) (events : List TrafficEvent),
      Bounded c (run c events) ∧ Settled (run c events) := by
  intro h
  have hcalls : ((run oneOrigin lostProbe).calls.map fun call => (call.place, call.probes)) =
      [(.releasesOrigin (.fails (.origin (.unavailable "origin request failed: timed out"))), []),
        (.ended (.other "ValueError"), [0])] := by
    decide +kernel
  have hsettled := (h oneOrigin lostProbe).2
  obtain ⟨call, hmem, heq⟩ := List.mem_map.mp (show (Place.ended (.other "ValueError"), [0]) ∈
    (run oneOrigin lostProbe).calls.map fun call => (call.place, call.probes) by
      rw [hcalls]; simp)
  obtain ⟨hplace, hprobes⟩ := Prod.mk.inj heq
  have hone := hsettled call hmem (by rw [hplace]; rfl) 0 (by rw [hprobes]; simp)
  exact absurd hone zero_ne_one

end Traffic

end Origin
end MegaCache
