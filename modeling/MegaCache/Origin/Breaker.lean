import MegaCache.Origin.Types

/-!
# The circuit breaker

Any number of requests share one `_OriginRuntime`.  Each asks `allow_request` and, once
admitted, reports one outcome with the flag it was given.  Every method holds the
runtime's lock and reads the clock once, so a run is a sequence of these calls and of
clock advances.
-/

namespace MegaCache
namespace Origin

/-- What an admitted request was told, and when. -/
structure Ticket where
  probe : Bool
  admittedAt : ℚ
deriving DecidableEq, Repr

/-- What happened to the breaker. -/
inductive Event
  | opened (time : ℚ)
  | admitted (time : ℚ)
  | closedBy (ticket : Ticket)
deriving DecidableEq, Repr

inductive Outcome
  | success
  | failure
  | cancelProbe
deriving DecidableEq, Repr

inductive Action
  | elapse (seconds : ℚ≥0)
  | request
  | report (i : ℕ) (outcome : Outcome)

/-- A runtime's breaker with its clock, the admitted requests that have not reported yet,
and what happened so far, newest first. -/
structure Gate where
  breaker : Breaker
  now : ℚ
  unfinished : List Ticket
  history : List Event
deriving DecidableEq, Repr

namespace Gate

def init (start : ℚ) : Gate := ⟨Breaker.init, start, [], []⟩

/-- The number of admitted and unfinished probes. -/
def probes (g : Gate) : ℕ := g.unfinished.countP (·.probe)

variable (origin : HTTPOrigin)

def reported (g : Gate) (p : Ticket) : Outcome → Breaker
  | .success => g.breaker.success p.probe
  | .failure => g.breaker.failure origin g.now p.probe
  | .cancelProbe => g.breaker.cancelProbe p.probe

def noted (g : Gate) (p : Ticket) : Outcome → List Event
  | .success => if g.breaker.state = .closed then [] else [.closedBy p]
  | .failure => if g.breaker.Trips origin p.probe then [.opened g.now] else []
  | .cancelProbe => []

def apply (g : Gate) : Action → Gate
  | .elapse seconds => { g with now := g.now + seconds }
  | .request =>
    match g.breaker.allowRequest origin g.now with
    | (none, b) => { g with breaker := b }
    | (some probe, b) =>
      { g with
        breaker := b
        unfinished := ⟨probe, g.now⟩ :: g.unfinished
        history := .admitted g.now :: g.history }
  | .report i outcome =>
    match g.unfinished[i]? with
    | none => g
    | some p =>
      { g with
        breaker := g.reported origin p outcome
        unfinished := g.unfinished.eraseIdx i
        history := g.noted origin p outcome ++ g.history }

/-- The gate after a sequence of actions. -/
def run (start : ℚ) (actions : List Action) : Gate :=
  actions.foldl (apply origin) (init start)

/-- What an opening allows later: no admission before its time is over, and closing only by
a probe admitted after that. -/
def Respects : Event → Event → Prop
  | .admitted u, .opened t => t + origin.breakerOpenSeconds ≤ u
  | .closedBy p, .opened t => p.probe = true ∧ t + origin.breakerOpenSeconds ≤ p.admittedAt
  | _, _ => True

/-- The protocol of the breaker. -/
structure Protocol (g : Gate) : Prop where
  history : g.history.Pairwise (Respects origin)
  probes : g.breaker.state = .halfOpen →
    g.probes = g.breaker.halfOpenActive ∧ g.breaker.halfOpenActive ≤ origin.breakerHalfOpenRequests

/-- No success is reported to an open breaker, none by a request that is no probe to a
half-open one, and the breaker does not become half-open over an unfinished probe. -/
def Meets (g : Gate) : Action → Prop
  | .elapse _ => True
  | .request => g.breaker.state = .opened → g.breaker.openUntil ≤ g.now → g.probes = 0
  | .report i .success => ∀ p, g.unfinished[i]? = some p →
    g.breaker.state ≠ .opened ∧ (g.breaker.state = .halfOpen → p.probe = true)
  | .report _ .failure => True
  | .report _ .cancelProbe => True

/-- What the protocol rests on, in every state whose steps met the condition. -/
structure Inv (g : Gate) : Prop where
  active : g.probes = g.breaker.halfOpenActive
  past : ∀ t, .opened t ∈ g.history → t ≤ g.now
  admitted : ∀ p ∈ g.unfinished, p.admittedAt ≤ g.now
  waited : g.breaker.state ≠ .opened → ∀ t, .opened t ∈ g.history →
    t + origin.breakerOpenSeconds ≤ g.now
  waits : g.breaker.state = .opened → ∀ t, .opened t ∈ g.history →
    t + origin.breakerOpenSeconds ≤ g.breaker.openUntil
  since : g.breaker.state = .opened → ∃ t, .opened t ∈ g.history ∧
    ∀ p ∈ g.unfinished, p.admittedAt ≤ t
  bounded : g.breaker.state = .halfOpen →
    g.breaker.halfOpenActive ≤ origin.breakerHalfOpenRequests
  after : g.breaker.state = .halfOpen → ∀ p ∈ g.unfinished, p.probe = true →
    ∀ t, .opened t ∈ g.history → t + origin.breakerOpenSeconds ≤ p.admittedAt
  reopened : g.breaker.state = .halfOpen → ∃ t, .opened t ∈ g.history
  history : g.history.Pairwise (Respects origin)

theorem Inv.protocol {origin : HTTPOrigin} {g : Gate} (h : Inv origin g) : Protocol origin g :=
  ⟨h.history, fun hs => ⟨h.active, h.bounded hs⟩⟩

theorem Inv.init (start : ℚ) : Inv origin (init start) where
  active := rfl
  past := by simp [Gate.init]
  admitted := by simp [Gate.init]
  waited := by simp [Gate.init]
  waits := by simp [Gate.init]
  since := by simp [Gate.init, Breaker.init]
  bounded := by simp [Gate.init, Breaker.init]
  after := by simp [Gate.init]
  reopened := by simp [Gate.init, Breaker.init]
  history := by simp [Gate.init]

end Gate

/-- What `allow_request` does in each state. -/
theorem Breaker.allowRequest_cases (origin : HTTPOrigin) (now : ℚ) (b : Breaker) :
    (b.state = .opened ∧ now < b.openUntil ∧ b.allowRequest origin now = (none, b)) ∨
    (b.state = .closed ∧ b.allowRequest origin now = (some false, b)) ∨
    (b.state = .halfOpen ∧ origin.breakerHalfOpenRequests ≤ b.halfOpenActive ∧
      b.allowRequest origin now = (none, b)) ∨
    (b.state = .halfOpen ∧ b.halfOpenActive < origin.breakerHalfOpenRequests ∧
      b.allowRequest origin now =
        (some true, { b with halfOpenActive := b.halfOpenActive + 1 })) ∨
    (b.state = .opened ∧ b.openUntil ≤ now ∧
      b.allowRequest origin now =
        (some true, { b with state := .halfOpen, halfOpenActive := 1 })) := by
  have hmax : 0 < origin.breakerHalfOpenRequests := origin.positive.2.2.2.2.2.2.2.2.2
  cases hs : b.state with
  | closed => simp [allowRequest, refreshed, hs]
  | halfOpen =>
    by_cases hb : origin.breakerHalfOpenRequests ≤ b.halfOpenActive
    · simp [allowRequest, refreshed, hs, hb]
    · simp [allowRequest, refreshed, hs, hb, not_le.mp hb]
  | opened =>
    by_cases hn : b.openUntil ≤ now
    · simp [allowRequest, refreshed, hs, hn, hmax.ne']
    · simp [allowRequest, refreshed, hs, hn, not_le.mp hn]

namespace Gate

variable {origin : HTTPOrigin} {g : Gate}

theorem Inv.elapse (h : Inv origin g) (seconds : ℚ≥0) :
    Inv origin (g.apply origin (.elapse seconds)) := by
  have hle : g.now ≤ g.now + seconds := by simp
  exact { h with
    past := fun t ht => (h.past t ht).trans hle
    admitted := fun p hp => (h.admitted p hp).trans hle
    waited := fun hs t ht => (h.waited hs t ht).trans hle }

/-- A request admitted to a breaker that is not open. -/
theorem Inv.admit (h : Inv origin g) {probe : Bool} {b : Breaker}
    (hs : b.state ≠ .opened) (hhalf : b.state = .halfOpen → ∃ t, .opened t ∈ g.history)
    (hactive : b.halfOpenActive = g.probes + probe.toNat)
    (hbound : b.state = .halfOpen → b.halfOpenActive ≤ origin.breakerHalfOpenRequests)
    (hwaited : ∀ t, .opened t ∈ g.history → t + origin.breakerOpenSeconds ≤ g.now)
    (hafter : b.state = .halfOpen → ∀ p ∈ g.unfinished, p.probe = true →
      ∀ t, .opened t ∈ g.history → t + origin.breakerOpenSeconds ≤ p.admittedAt) :
    Inv origin { g with
      breaker := b
      unfinished := ⟨probe, g.now⟩ :: g.unfinished
      history := .admitted g.now :: g.history } where
  active := by
    rw [hactive]
    cases probe <;> simp [probes]
  past t ht := h.past t (by simpa using ht)
  admitted := by
    intro p hp
    obtain rfl | hp := List.mem_cons.mp hp
    · exact le_rfl
    · exact h.admitted p hp
  waited _ t ht := hwaited t (by simpa using ht)
  waits hs' := absurd hs' hs
  since hs' := absurd hs' hs
  bounded := hbound
  after := by
    intro hs' p hp hprobe t ht
    have ht' : .opened t ∈ g.history := by simpa using ht
    obtain rfl | hp := List.mem_cons.mp hp
    · exact hwaited t ht'
    · exact hafter hs' p hp hprobe t ht'
  reopened hs' := by
    obtain ⟨t, ht⟩ := hhalf hs'
    exact ⟨t, List.mem_cons_of_mem _ ht⟩
  history := by
    refine List.pairwise_cons.mpr ⟨fun e he => ?_, h.history⟩
    cases e with
    | opened t => exact hwaited t he
    | admitted _ => trivial
    | closedBy _ => trivial

theorem Inv.request (h : Inv origin g) (hm : Meets g .request) :
    Inv origin (g.apply origin .request) := by
  obtain ⟨hs, hlt, he⟩ | ⟨hs, he⟩ | ⟨hs, hle, he⟩ | ⟨hs, hlt, he⟩ | ⟨hs, hle, he⟩ :=
    g.breaker.allowRequest_cases origin g.now
  · simpa only [apply, he] using h
  · simp only [apply, he]
    apply h.admit
    · simp [hs]
    · simp [hs]
    · simpa using h.active.symm
    · simp [hs]
    · exact h.waited (by simp [hs])
    · simp [hs]
  · simpa only [apply, he] using h
  · simp only [apply, he]
    apply h.admit
    · simp [hs]
    · exact fun _ => h.reopened hs
    · simpa using h.active.symm
    · exact fun _ => hlt
    · exact h.waited (by simp [hs])
    · exact fun _ => h.after hs
  · -- the breaker becomes half-open, over no unfinished probe
    have hzero : g.probes = 0 := hm hs hle
    simp only [apply, he]
    apply h.admit
    · simp
    · intro _
      obtain ⟨t, ht, -⟩ := h.since hs
      exact ⟨t, ht⟩
    · simp [hzero]
    · exact fun _ => origin.positive.2.2.2.2.2.2.2.2.2
    · exact fun t ht => (h.waits hs t ht).trans hle
    · intro _ p hp hprobe
      have hnone := List.countP_eq_zero.mp hzero p hp
      exact absurd hprobe hnone

/-! ## Reports -/

/-- The gate without the `i`th unfinished request. -/
def without (g : Gate) (i : ℕ) (b : Breaker) (events : List Event) : Gate :=
  { g with breaker := b, unfinished := g.unfinished.eraseIdx i, history := events ++ g.history }

theorem apply_report {i : ℕ} {p : Ticket} (hp : g.unfinished[i]? = some p) (outcome : Outcome) :
    g.apply origin (.report i outcome) =
      g.without i (g.reported origin p outcome) (g.noted origin p outcome) := by
  simp [apply, hp, without]

theorem without_active (h : Inv origin g) {i : ℕ} {p : Ticket}
    (hp : g.unfinished[i]? = some p) {b : Breaker} {events : List Event}
    (hb : b.halfOpenActive = (g.breaker.settle p.probe).halfOpenActive) :
    (g.without i b events).probes = b.halfOpenActive := by
  obtain ⟨hi, rfl⟩ := List.getElem?_eq_some_iff.mp hp
  have hcount := (List.getElem_cons_eraseIdx_perm hi).countP_eq (·.probe)
  have hactive : g.unfinished.countP (·.probe) = g.breaker.halfOpenActive := h.active
  rw [hb]
  show (g.unfinished.eraseIdx i).countP (·.probe) = _
  cases hprobe : (g.unfinished[i]).probe with
  | false => simpa [hprobe, Breaker.settle, hactive] using hcount
  | true =>
    simp only [List.countP_cons, hprobe, ↓reduceIte] at hcount
    simp only [Breaker.settle, ↓reduceIte]
    omega

theorem mem_without {i : ℕ} {b : Breaker} {events : List Event} {q : Ticket}
    (hq : q ∈ (g.without i b events).unfinished) : q ∈ g.unfinished :=
  (List.eraseIdx_subset) hq

/-- A report that leaves the state and the history as they are. -/
theorem Inv.stay (h : Inv origin g) {i : ℕ} {p : Ticket} (hp : g.unfinished[i]? = some p)
    {b : Breaker} (hb : b.halfOpenActive = (g.breaker.settle p.probe).halfOpenActive)
    (hstate : b.state = g.breaker.state)
    (huntil : b.state = .opened → b.openUntil = g.breaker.openUntil) :
    Inv origin (g.without i b []) where
  active := without_active h hp hb
  past := h.past
  admitted q hq := h.admitted q (mem_without hq)
  waited hs := h.waited (hstate ▸ hs)
  waits hs t ht := (h.waits (hstate ▸ hs) t ht).trans (huntil hs).ge
  since hs := by
    obtain ⟨t, ht, hall⟩ := h.since (hstate ▸ hs)
    exact ⟨t, ht, fun q hq => hall q (mem_without hq)⟩
  bounded hs := by
    refine le_trans ?_ (h.bounded (hstate ▸ hs))
    show b.halfOpenActive ≤ _
    rw [hb]
    cases p.probe <;> simp [Breaker.settle]
  after hs q hq := h.after (hstate ▸ hs) q (mem_without hq)
  reopened hs := h.reopened (hstate ▸ hs)
  history := h.history

theorem Inv.success (h : Inv origin g) {i : ℕ} (hm : Meets g (.report i .success)) :
    Inv origin (g.apply origin (.report i .success)) := by
  cases hp : g.unfinished[i]? with
  | none => simpa [apply, hp] using h
  | some p =>
    rw [apply_report hp]
    obtain ⟨hopen, hhalf⟩ := hm p hp
    by_cases hs : g.breaker.state = .closed
    · simp only [noted, if_pos hs]
      exact h.stay hp rfl hs.symm (by simp [reported, Breaker.success])
    · have hhalfOpen : g.breaker.state = .halfOpen := by
        cases hst : g.breaker.state <;> simp_all
      have hwaited := h.waited hopen
      simp only [noted, if_neg hs]
      exact {
        active := without_active h hp rfl
        past := fun t ht => h.past t (by simpa [without] using ht)
        admitted := fun q hq => h.admitted q (mem_without hq)
        waited := fun _ t ht => hwaited t (by simpa [without] using ht)
        waits := by simp [without, reported, Breaker.success]
        since := by simp [without, reported, Breaker.success]
        bounded := by simp [without, reported, Breaker.success]
        after := by simp [without, reported, Breaker.success]
        reopened := by simp [without, reported, Breaker.success]
        history := by
          -- a probe closes the breaker, and it was admitted after every opening
          refine List.pairwise_cons.mpr ⟨fun e he => ?_, h.history⟩
          cases e with
          | opened t =>
            have hmem : p ∈ g.unfinished := List.mem_of_getElem? hp
            exact ⟨hhalf hhalfOpen, h.after hhalfOpen p hmem (hhalf hhalfOpen) t he⟩
          | admitted _ => trivial
          | closedBy _ => trivial }

theorem Inv.failure (h : Inv origin g) (i : ℕ) :
    Inv origin (g.apply origin (.report i .failure)) := by
  cases hp : g.unfinished[i]? with
  | none => simpa [apply, hp] using h
  | some p =>
    rw [apply_report hp]
    have hsettle : (g.breaker.settle p.probe).state = g.breaker.state ∧
        (g.breaker.settle p.probe).openUntil = g.breaker.openUntil := by
      cases p.probe <;> simp [Breaker.settle]
    by_cases ht : g.breaker.Trips origin p.probe
    · have hpos : g.now ≤ g.now + origin.breakerOpenSeconds := by
        linarith [origin.breakerOpenSeconds_pos]
      have hbefore : ∀ t, .opened t ∈ .opened g.now :: g.history → t ≤ g.now := by
        intro t ht'
        obtain he | ht' := List.mem_cons.mp ht'
        · cases he
          exact le_rfl
        · exact h.past t ht'
      simp only [noted, if_pos ht, reported, Breaker.failure]
      exact {
        active := without_active h hp rfl
        past := hbefore
        admitted := fun q hq => h.admitted q (mem_without hq)
        waited := by simp [without]
        waits := fun _ t ht' => by
          have := hbefore t ht'
          simpa [without] using this
        since := fun _ => ⟨g.now, by simp [without], fun q hq => h.admitted q (mem_without hq)⟩
        bounded := by simp [without]
        after := by simp [without]
        reopened := by simp [without]
        history := List.pairwise_cons.mpr ⟨fun _ _ => trivial, h.history⟩ }
    · simp only [noted, if_neg ht, reported, Breaker.failure]
      exact h.stay hp rfl hsettle.1 (fun _ => hsettle.2)

theorem Inv.cancelProbe (h : Inv origin g) (i : ℕ) :
    Inv origin (g.apply origin (.report i .cancelProbe)) := by
  cases hp : g.unfinished[i]? with
  | none => simpa [apply, hp] using h
  | some p =>
    rw [apply_report hp]
    refine h.stay hp rfl ?_ (fun _ => ?_)
    all_goals
      simp only [reported, Breaker.cancelProbe]
      cases p.probe <;> simp [Breaker.settle]

theorem Inv.apply (h : Inv origin g) {a : Action} (hm : Meets g a) :
    Inv origin (g.apply origin a) := by
  match a with
  | .elapse seconds => exact h.elapse seconds
  | .request => exact h.request hm
  | .report i .success => exact h.success hm
  | .report i .failure => exact h.failure i
  | .report i .cancelProbe => exact h.cancelProbe i

/-! ## The condition is exact -/

/-- A step that does not meet the condition breaks the protocol. -/
theorem Inv.meets (h : Inv origin g) {a : Action} (hp : Protocol origin (g.apply origin a)) :
    Meets g a := by
  match a with
  | .elapse _ => trivial
  | .report _ .failure => trivial
  | .report _ .cancelProbe => trivial
  | .request =>
    intro hs hle
    have he := (g.breaker.allowRequest_cases origin g.now).resolve_left (by simp [hle, not_lt])
    simp only [hs, reduceCtorEq, false_and, false_or, true_and, hle] at he
    have hcount := (hp.probes (by simp [Gate.apply, he])).1
    simpa [Gate.apply, he, probes] using hcount
  | .report i .success =>
    intro p hi
    have hmem : p ∈ g.unfinished := List.mem_of_getElem? hi
    rw [apply_report hi] at hp
    constructor
    · intro hs
      obtain ⟨t, ht, hall⟩ := h.since hs
      have hev := hp.history
      simp only [without, noted, hs, reduceCtorEq, ↓reduceIte, List.singleton_append,
        List.pairwise_cons] at hev
      have hlate := (hev.1 _ ht).2
      linarith [hall p hmem, origin.breakerOpenSeconds_pos]
    · intro hs
      obtain ⟨t, ht⟩ := h.reopened hs
      have hev := hp.history
      simp only [without, noted, hs, reduceCtorEq, ↓reduceIte, List.singleton_append,
        List.pairwise_cons] at hev
      exact (hev.1 _ ht).1

/-- Every step of the run meets the condition. -/
def Guarded (origin : HTTPOrigin) (start : ℚ) (actions : List Action) : Prop :=
  ∀ before a after, actions = before ++ a :: after → Meets (run origin start before) a

theorem run_snoc (start : ℚ) (actions : List Action) (a : Action) :
    run origin start (actions ++ [a]) = (run origin start actions).apply origin a := by
  simp [run]

theorem Guarded.inv {start : ℚ} {actions : List Action} (h : Guarded origin start actions) :
    Inv origin (run origin start actions) := by
  induction actions using List.reverseRecOn with
  | nil => exact Inv.init origin start
  | append_singleton actions a ih =>
    rw [run_snoc]
    have hbefore : Guarded origin start actions := by
      intro before b after hab
      exact h before b (after ++ [a]) (by simp [hab])
    exact (ih hbefore).apply (h actions a [] rfl)

/-- In every state of a run the breaker keeps its protocol, exactly if every step of the
run meets the condition. -/
theorem breaker_protocol (origin : HTTPOrigin) (start : ℚ) (actions : List Action) :
    (∀ before, before <+: actions → Protocol origin (run origin start before)) ↔
      Guarded origin start actions := by
  constructor
  · intro h
    induction actions using List.reverseRecOn with
    | nil => intro before a after hab; simp at hab
    | append_singleton actions a ih =>
      have hbefore := ih fun before hb => h before (hb.trans (List.prefix_append _ _))
      intro before b after hab
      obtain rfl | ⟨after, c, rfl⟩ := after.eq_nil_or_concat
      · obtain ⟨rfl, hb⟩ := List.append_inj' hab rfl
        have hlast := h (actions ++ [a]) List.prefix_rfl
        rw [run_snoc] at hlast
        cases hb
        exact hbefore.inv.meets hlast
      · have hab' : actions ++ [a] = (before ++ b :: after) ++ [c] := by simpa using hab
        obtain ⟨rfl, -⟩ := List.append_inj' hab' rfl
        exact hbefore before b after rfl
  · intro h before hb
    obtain ⟨after, rfl⟩ := hb
    have hg : Guarded origin start before := by
      intro first a rest hab
      exact h first a (rest ++ after) (by simp [hab])
    exact hg.inv.protocol

/-- An origin whose breaker opens at the first failure, for ten seconds. -/
def brittle : HTTPOrigin where
  name := "api"
  host := "origin.test"
  port := 443
  allowedHosts := ["origin.test"]
  allowedPorts := [443]
  ttlSeconds := 60
  staleWhileRevalidateSeconds := 0
  staleIfErrorSeconds := 0
  refreshAheadSeconds := 0
  negativeTtlSeconds := 5
  negativeStatuses := [404]
  queueTimeoutSeconds := 1
  maxResponseBytes := 1024
  maxConcurrency := 4
  maxQueue := 4
  retryAttempts := 1
  retryBudgetCapacity := 2
  retryBudgetRefillPerSecond := 1
  breakerFailureThreshold := 1
  breakerOpenSeconds := 10
  breakerHalfOpenRequests := 1
  tags := []
  positive := by norm_num
  negative_client := by simp

/-- Two requests are admitted; one fails and opens the breaker, the other succeeds later
and closes it, and a third is admitted at once. -/
def slowSuccess : List Action :=
  [.request, .request, .report 0 .failure, .elapse 1, .report 0 .success, .request]

theorem slowSuccess_admitted :
    ¬ ∀ (origin : HTTPOrigin) (start : ℚ) (actions : List Action),
      Protocol origin (run origin start actions) := by
  intro h
  have hev := (h brittle 0 slowSuccess).history
  have he : (run brittle 0 slowSuccess).history =
      [.admitted 1, .closedBy ⟨false, 0⟩, .opened 0, .admitted 0, .admitted 0] := by
    decide +kernel
  rw [he] at hev
  have hwait : (0 : ℚ) + brittle.breakerOpenSeconds ≤ 1 := by
    simp only [List.pairwise_cons] at hev
    exact hev.1 (.opened 0) (by simp)
  norm_num [brittle] at hwait

end Gate

end Origin
end MegaCache
