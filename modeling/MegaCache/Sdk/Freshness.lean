import MegaCache.Sdk.Coherence

/-!
# Clocks

The threads of a client and its server under one clock.  A reading that a step takes may be
as old as the previous step of its thread: between any two steps, and between a reading and
the lock it is taken for, any time can pass.  Each value remembers where it comes from: when
the server answered, and the windows that were left then, capped by the policy.

The client measures how long a command took and hands the rest of the windows to the local
cache, which adds it to a reading of its own.  What passes between these two readings is
added to the deadlines.
-/

namespace MegaCache.Sdk

open Prog Client

variable {V : Type}

/-- Where a value comes from: the reading before the command, the instant at which the
server answered or wrote it, and the windows that it had then. -/
structure Origin where
  started : ℚ
  answered : ℚ
  fresh : ℚ
  stale : ℚ
deriving DecidableEq

def Origin.freshLimit (o : Origin) : ℚ := o.answered + o.fresh

def Origin.staleLimit (o : Origin) : ℚ := o.answered + o.fresh + o.stale

/-- The reading that ends the measured time of a command, and the windows the client counts
from its start. -/
structure Measure where
  measured : ℚ
  freshBudget : ℚ
  staleBudget : ℚ

/-- An answer out of the local cache, at the reading that decided on it. -/
structure Report where
  reading : ℚ
  state : CachedState
  origin : Origin
deriving DecidableEq

structure Timed (V : Type) where
  client : Client V
  now : ℚ
  /-- the instant of the last step of a thread -/
  last : Thread → ℚ
  /-- of the value a thread has got from the server -/
  origin : Thread → Origin
  measure : Thread → Measure
  /-- of the local entries, and the reading with which each was put -/
  entries : Key → Origin
  putAt : Key → ℚ
  /-- of the stale value that a thread keeps for the case of an error -/
  held : Thread → Origin
  /-- of the stale value that a flight ended with, and when its event was set -/
  flights : ℕ → Origin
  finishedAt : ℕ → ℚ
  reports : List Report

/-- A window of the server, capped by the policy. -/
def capped (policy : ℤ) : Deadline → ℚ
  | none => policy
  | some seconds => min policy seconds

/-- The answer to `MC.LEASE`: the windows are those at the second reading that
`acquire_lease` makes, under the lock. -/
def leaseOrigin (c : ClientConfig V) (policy : CachePolicy) (key : Key) (started : ℚ)
    (server : MutationClock V) : Origin :=
  let answered := c.server.clock (server.storage.ticks + 1)
  match (Engine.acquireLease c.server key false server.storage).1 with
  | .error _ => ⟨started, answered, 0, 0⟩
  | .ok r =>
    ⟨started, answered,
      if r.state = .fresh then capped policy.ttlSeconds r.expiresInSeconds else 0,
      capped policy.staleSeconds r.staleForSeconds⟩

/-- The value that `MC.SET` wrote; the deadlines are counted from the first reading. -/
def storeOrigin (c : ClientConfig V) (policy : CachePolicy) (started : ℚ)
    (server : MutationClock V) : Origin :=
  ⟨started, c.server.clock server.storage.ticks, policy.ttlSeconds, policy.staleSeconds⟩

/-- What a follower returns of the flight it waited for. -/
def followed (flight : Flight V) (now : ℚ) : Option (CachedValue V) :=
  flight.result.filter fun r =>
    r.state ≠ .staleIfError || r.staleDeadline.any fun deadline => now < deadline

/-- The thread that makes the step, and its readings. -/
def Move.turn : Move V → Option (Thread × Input V)
  | .advance t i => some (t, i)
  | _ => none

namespace Timed

def init : Timed V where
  client := .init
  now := 0
  last := fun _ => 0
  origin := fun _ => ⟨0, 0, 0, 0⟩
  measure := fun _ => ⟨0, 0, 0⟩
  entries := fun _ => ⟨0, 0, 0, 0⟩
  putAt := fun _ => 0
  held := fun _ => ⟨0, 0, 0, 0⟩
  flights := fun _ => ⟨0, 0, 0, 0⟩
  finishedAt := fun _ => 0
  reports := []

/-- What is remembered of a step of the thread `t`. -/
def note (c : ClientConfig V) (t : Thread) (i : Input V) (instant : ℚ) (tm : Timed V) : Timed V :=
  match tm.client.threads t with
  | .leasing lead _ =>
    let origin := leaseOrigin c lead.load.policy lead.load.key i.time tm.client.server
    { tm with origin := Function.update tm.origin t origin }
  | .sending (.store lead _ _ started) =>
    let origin := storeOrigin c lead.load.policy started tm.client.server
    { tm with origin := Function.update tm.origin t origin }
  | .leased lead _ _ result _ =>
    let freshBudget :=
      if result.state = .fresh then budget lead.load.policy.ttlSeconds result.expiresInSeconds else 0
    let staleBudget := budget lead.load.policy.staleSeconds result.staleForSeconds
    { tm with
      measure := Function.update tm.measure t ⟨i.time, freshBudget, staleBudget⟩
      held := if result.state = .staleLease ∧ result.value.isSome then
        Function.update tm.held t (tm.origin t) else tm.held }
  | .returning (.store lead _ _ _) _ _ _ =>
    let measure := ⟨i.time, lead.load.policy.ttlSeconds, lead.load.policy.staleSeconds⟩
    { tm with measure := Function.update tm.measure t measure }
  | .looking load =>
    match (tm.client.localCache.get i.time load.key).1 with
    | none => tm
    | some cached =>
      { tm with
        held := Function.update tm.held t (tm.entries load.key)
        reports := ⟨i.time, cached.state, tm.entries load.key⟩ :: tm.reports }
  | .admitting lead a _ =>
    match (admitIfGeneration c lead.load.key a i.time tm.client).1 with
    | .ok true =>
      { tm with
        entries := Function.update tm.entries lead.load.key (tm.origin t)
        putAt := Function.update tm.putAt lead.load.key i.time }
    | _ => tm
  | .failing lead _ =>
    match usableStale lead i.time with
    | none => { tm with finishedAt := Function.update tm.finishedAt lead.flight instant }
    | some _ =>
      { tm with
        flights := Function.update tm.flights lead.flight (tm.held t)
        finishedAt := Function.update tm.finishedAt lead.flight instant
        reports := ⟨i.time, .staleIfError, tm.held t⟩ :: tm.reports }
  | .concluding lead _ =>
    { tm with finishedAt := Function.update tm.finishedAt lead.flight instant }
  | .waiting _ flight =>
    match tm.client.begun[flight]?.bind fun f => followed f i.time with
    | some ⟨_, .staleIfError, _⟩ =>
      { tm with reports := ⟨i.time, .staleIfError, tm.flights flight⟩ :: tm.reports }
    -- any other result of a flight is the answer of the server or of the loader
    | _ => tm
  | _ => tm

/-- The thread `t` has made a step to `s'`. -/
def moved (t : Thread) (instant : ℚ) (s' : Client V) (tm : Timed V) : Timed V :=
  { tm with client := s', now := instant, last := Function.update tm.last t instant }

/-- The clock after a move that led the client to `s'` at the given instant. -/
def after (c : ClientConfig V) (move : Move V) (instant : ℚ) (s' : Client V) (tm : Timed V) :
    Timed V :=
  match move with
  | .environment _ => { tm with client := s', now := instant }
  | .mutate t _ | .getOrLoad t _ _ => tm.moved t instant s'
  | .advance t i => (tm.note c t i instant).moved t instant s'

/-- The flight that a thread waits for. -/
def waitsFor (t : Thread) (tm : Timed V) : Option ℕ :=
  match tm.client.threads t with
  | .waiting _ flight => some flight
  | _ => none

/-- What one clock for all says of a move: the clock does not go back; the readings of a
thread are taken since its previous step, those of the server inside the command, and that
of a follower after the event was set. -/
def Legal (c : ClientConfig V) (move : Move V) (instant : ℚ) (s' : Client V) (tm : Timed V) : Prop :=
  tm.now ≤ instant ∧
    (∀ n < s'.server.storage.ticks, tm.client.server.storage.ticks ≤ n →
      c.server.clock n ≤ instant) ∧
    ∀ turn ∈ move.turn, tm.last turn.1 ≤ turn.2.time ∧ turn.2.time ≤ turn.2.later ∧
      turn.2.later ≤ instant ∧
      (∀ n < s'.server.storage.ticks, tm.client.server.storage.ticks ≤ n →
        turn.2.time ≤ c.server.clock n) ∧
      ∀ flight ∈ tm.waitsFor turn.1, tm.finishedAt flight ≤ turn.2.time

instance (c : ClientConfig V) (move : Move V) (instant : ℚ) (s' : Client V) (tm : Timed V) :
    Decidable (tm.Legal c move instant s') := by
  unfold Legal
  infer_instance

end Timed

/-- The reading with which a value is put comes no later after the one that ended the
measure than the server's answer came after the start, but for what was cut off the windows
on their way. -/
def OnTime (o : Origin) (m : Measure) (reading : ℚ) : Prop :=
  reading - m.measured ≤ (o.answered - o.started) +
    if m.measured - o.started < m.freshBudget then o.fresh - m.freshBudget
    else (o.fresh + o.stale) - (m.freshBudget + m.staleBudget)

instance (o : Origin) (m : Measure) (reading : ℚ) : Decidable (OnTime o m reading) := by
  unfold OnTime
  infer_instance

/-- The delays that a move may have: values are put on time, and a lookup whose reading is
older than the entry it finds was made while the value was fresh. -/
def Prompt (tm : Timed V) (move : Move V) : Prop :=
  match move with
  | .advance t i =>
    match tm.client.threads t with
    | .admitting _ a _ =>
      a.generation = tm.client.mutationGeneration → OnTime (tm.origin t) (tm.measure t) i.time
    | .looking load =>
      tm.putAt load.key ≤ i.time ∨ i.time < (tm.entries load.key).freshLimit
    | _ => True
  | _ => True

/-- Runs under one clock, every move of which meets a condition. -/
inductive TimedRun (c : ClientConfig V) (meets : Timed V → Move V → Prop) : Timed V → Prop
  | init : TimedRun c meets .init
  | step {tm : Timed V} {s' : Client V} (h : TimedRun c meets tm) (move : Move V) (instant : ℚ)
      (hs : move.step c tm.client = some s') (hl : tm.Legal c move instant s')
      (hm : meets tm move) : TimedRun c meets (tm.after c move instant s')

/-! ## The windows of the server -/

section

open MegaCache.Engine

variable {c : EngineConfig V} {key : Key} {s s' : Engine V} {r : CacheResult V}

/-- The windows that `acquire_lease` reports are those of the entry at its second reading. -/
def LeaseWindows (entry : Entry V) (now : ℚ) (r : CacheResult V) : Prop :=
  (now : Deadline) < entry.staleUntil ∧
    (r.state = .fresh → r.expiresInSeconds = remaining entry.freshUntil now ∧
      r.staleForSeconds = staleWindow entry) ∧
    (r.state = .stale ∨ r.state = .staleLease →
      r.staleForSeconds = remaining entry.staleUntil now)

theorem lookupAt_windows (now : ℚ) (count : Bool) (s : Engine V)
    (h : (lookupAt now key count s).1.state ≠ .miss) :
    ∃ entry, s.entries.get? key = some entry ∧ LeaseWindows entry now (lookupAt now key count s).1 := by
  unfold lookupAt at h ⊢
  split
  · rename_i hnone
    rw [hnone] at h
    exact absurd rfl h
  · rename_i entry hentry
    refine ⟨entry, hentry, ?_⟩
    rw [hentry] at h
    dsimp only at h
    split_ifs at h ⊢ with hle hfresh
    · exact absurd rfl h
    · exact ⟨not_le.mp hle, fun _ => ⟨rfl, rfl⟩, by simp [freshResult]⟩
    · exact ⟨not_le.mp hle, by simp [staleResult], fun _ => rfl⟩

theorem acquireLease_windows (h : acquireLease c key false s = (.ok r, s')) :
    s.ticks + 2 ≤ s'.ticks ∧
      (r.state = .fresh ∨ r.state = .stale ∨ r.state = .staleLease →
        ∃ entry, s.entries.get? key = some entry ∧
          LeaseWindows entry (c.clock (s.ticks + 1)) r) := by
  rw [acquireLease, bind_eq_ok] at h
  obtain ⟨_, s₁, hkey, h⟩ := h
  obtain ⟨rfl, -⟩ := validateKey_ok hkey
  rw [bind_eq_ok] at h
  obtain ⟨now, s₂, hnow, h⟩ := h
  cases hnow
  rw [acquireLocked, bind_eq_ok] at h
  obtain ⟨_, s₃, hpurge, h⟩ := h
  cases hpurge
  rw [bind_eq_ok] at h
  obtain ⟨cached, s₄, hlookup, h⟩ := h
  obtain ⟨hentries, hticks⟩ := purgeExpiredLeases_entries_ticks (c.clock s₁.ticks)
    { s₁ with ticks := s₁.ticks + 1 }
  have hafter := lookup_ticks hlookup
  have hcached := lookup_result hlookup
  rw [hticks] at hafter hcached
  have hfound : cached.state ≠ .miss → ∃ entry, s₁.entries.get? key = some entry ∧
      LeaseWindows entry (c.clock (s₁.ticks + 1)) cached := by
    intro hstate
    rw [hcached] at hstate ⊢
    obtain ⟨entry, hget, hw⟩ := lookupAt_windows _ _ _ hstate
    rw [hentries] at hget
    exact ⟨entry, hget, hw⟩
  have hle : s₁.ticks + 2 ≤ s₄.ticks := hafter.ge
  by_cases hfresh : cached.state = .fresh ∧ ¬false = true
  · rw [if_pos hfresh] at h
    cases h
    exact ⟨hle, fun _ => hfound (by rw [hfresh.1]; decide)⟩
  · rw [if_neg hfresh, bind_eq_ok] at h
    obtain ⟨s₅, s₆, hget, h⟩ := h
    cases hget
    generalize (s₄.leases.get? key).filter
      (fun lease => decide (c.clock s₁.ticks < lease.untilTime)) = found at h
    by_cases hstale : cached.state = .stale
    · -- the stale value, with a lease or without
      have hstate : cached.state ≠ .miss := by
        rw [hstale]
        decide
      cases found with
      | some lease =>
        obtain ⟨_, s₇, hbump, h⟩ := bind_eq_ok.mp h
        cases hbump
        rw [if_pos hstale] at h
        cases h
        exact ⟨hle, fun _ => hfound hstate⟩
      | none =>
        obtain ⟨token, s₇, hdraw, h⟩ := bind_eq_ok.mp h
        cases hdraw
        dsimp only at h
        rw [if_pos hstale] at h
        split_ifs at h with hfull
        · obtain ⟨_, s₈, -, h⟩ := bind_eq_ok.mp h
          cases h
        · obtain ⟨_, s₈, hset, h⟩ := bind_eq_ok.mp h
          cases hset
          obtain ⟨_, s₉, hbump, h⟩ := bind_eq_ok.mp h
          cases hbump
          cases h
          refine ⟨hle, fun _ => ?_⟩
          obtain ⟨entry, hget, hlive, -, hwindow⟩ := hfound hstate
          exact ⟨entry, hget, hlive, by simp, fun _ => hwindow (.inl hstale)⟩
    · cases found with
      | some lease =>
        obtain ⟨_, s₇, hbump, h⟩ := bind_eq_ok.mp h
        cases hbump
        rw [if_neg hstale] at h
        cases h
        exact ⟨hle, by simp⟩
      | none =>
        obtain ⟨token, s₇, hdraw, h⟩ := bind_eq_ok.mp h
        cases hdraw
        dsimp only at h
        rw [if_neg hstale] at h
        split_ifs at h with hfull
        · obtain ⟨_, s₈, -, h⟩ := bind_eq_ok.mp h
          cases h
        · obtain ⟨_, s₈, hset, h⟩ := bind_eq_ok.mp h
          cases hset
          obtain ⟨_, s₉, hbump, h⟩ := bind_eq_ok.mp h
          cases hbump
          cases h
          exact ⟨hle, by simp⟩

theorem remaining_nonneg (deadline : Deadline) (now : ℚ) : 0 ≤ remaining deadline now := by
  cases deadline with
  | none => exact le_top
  | some t => exact WithTop.coe_le_coe.mpr (le_max_left 0 (t - now))

theorem staleWindow_nonneg (entry : Entry V) : 0 ≤ staleWindow entry := by
  unfold staleWindow
  split
  · exact WithTop.coe_le_coe.mpr (le_max_left _ _)
  · exact le_top
  · exact le_rfl

/-- What the client counts is never more than the capped window. -/
theorem budget_le_capped (policy : ℤ) {window : Deadline} (h : 0 ≤ window) :
    budget policy (some (windowSeconds window)) ≤ capped policy window := by
  cases window with
  | none => exact (if_pos (by norm_num [windowSeconds])).le
  | some seconds =>
    have hnonneg : (0 : ℚ) ≤ seconds := WithTop.coe_le_coe.mp h
    have hfloor : (0 : ℤ) ≤ ⌊seconds * 1000⌋ := Int.floor_nonneg.mpr (by positivity)
    have hfloor' : (0 : ℚ) ≤ (⌊seconds * 1000⌋ : ℚ) := by exact_mod_cast hfloor
    have hwindow : windowSeconds (some seconds) = (⌊seconds * 1000⌋ : ℚ) / 1000 := by
      simp only [windowSeconds]
      rw [max_eq_right hfloor]
    have hle : windowSeconds (some seconds) ≤ seconds := by
      rw [hwindow, div_le_iff₀ (by norm_num)]
      exact Int.floor_le _
    have hpos : ¬windowSeconds (some seconds) < 0 := by
      rw [hwindow, not_lt]
      positivity
    unfold budget capped
    dsimp only
    rw [if_neg hpos]
    exact min_le_min_left _ hle

end

/-! ## Deadlines of a local entry -/

/-- An entry is fresh within the window of its origin, or not after it was put; and it ends
within the windows of its origin if it was ever stale. -/
def EntryWithin (o : Origin) (putAt : ℚ) (e : LocalEntry V) : Prop :=
  (e.freshUntil ≤ o.freshLimit ∨ e.freshUntil ≤ putAt) ∧
    (e.freshUntil < e.staleUntil → e.staleUntil ≤ o.staleLimit)

/-- The measure fits the origin. -/
def Measures (o : Origin) (m : Measure) : Prop :=
  o.started ≤ m.measured ∧ m.freshBudget ≤ o.fresh ∧ m.staleBudget ≤ o.stale

/-- What the client hands to the local cache. -/
def handed (o : Origin) (m : Measure) : ℚ × ℚ :=
  remainingWindows m.freshBudget m.staleBudget (elapsedSince o.started m.measured)

theorem handed_fresh {o : Origin} {m : Measure} (hle : o.started ≤ m.measured)
    (h : m.measured - o.started < m.freshBudget) :
    handed o m = (m.freshBudget - (m.measured - o.started), max 0 m.staleBudget) := by
  unfold handed remainingWindows elapsedSince
  rw [max_eq_right (sub_nonneg.mpr hle)]
  have hfresh : max 0 (m.freshBudget - (m.measured - o.started)) =
      m.freshBudget - (m.measured - o.started) := max_eq_right (sub_nonneg.mpr h.le)
  rw [hfresh]
  apply Prod.ext
  · rfl
  · dsimp only
    rcases le_total 0 m.staleBudget with hs | hs
    · rw [max_eq_right hs, max_eq_right (a := 0) (b := m.freshBudget + _ - _) (by linarith),
        max_eq_right (by linarith)]
      ring
    · rw [max_eq_left hs, max_eq_left]
      rw [sub_nonpos, max_le_iff]
      constructor <;> linarith

theorem handed_stale {o : Origin} {m : Measure} (hle : o.started ≤ m.measured)
    (h : ¬m.measured - o.started < m.freshBudget) :
    handed o m = (0, max 0 (m.freshBudget + m.staleBudget - (m.measured - o.started))) := by
  unfold handed remainingWindows elapsedSince
  rw [max_eq_right (sub_nonneg.mpr hle)]
  have hfresh : max 0 (m.freshBudget - (m.measured - o.started)) = 0 :=
    max_eq_left (sub_nonpos.mpr (not_lt.mp h))
  rw [hfresh]
  dsimp only
  rw [sub_zero, max_eq_right (le_max_left _ _)]

/-- The condition is the exact one for the first deadline that is still to come. -/
theorem onTime_iff {o : Origin} {m : Measure} (hle : o.started ≤ m.measured)
    (hleft : 0 < (handed o m).1 + (handed o m).2) (reading : ℚ) :
    OnTime o m reading ↔
      if 0 < (handed o m).1 then reading + (handed o m).1 ≤ o.freshLimit
      else reading + (handed o m).1 + (handed o m).2 ≤ o.staleLimit := by
  unfold OnTime Origin.freshLimit Origin.staleLimit
  by_cases h : m.measured - o.started < m.freshBudget
  · rw [handed_fresh hle h, if_pos h, if_pos (sub_pos.mpr h)]
    constructor <;> intro hle <;> linarith
  · rw [handed_stale hle h] at hleft ⊢
    rw [if_neg h, if_neg (lt_irrefl _), zero_add] at *
    have hmax : max 0 (m.freshBudget + m.staleBudget - (m.measured - o.started)) =
        m.freshBudget + m.staleBudget - (m.measured - o.started) := by
      rcases max_choice 0 (m.freshBudget + m.staleBudget - (m.measured - o.started)) with h0 | h0
      · rw [h0] at hleft
        exact absurd hleft (lt_irrefl _)
      · exact h0
    rw [hmax]
    constructor <;> intro hle <;> linarith

/-- An entry put on time. -/
theorem entryWithin_handed {o : Origin} {m : Measure} (hm : Measures o m) {reading : ℚ}
    (h : OnTime o m reading) (value : V) (sizeBytes : ℕ) :
    EntryWithin o reading ⟨value, reading + (handed o m).1,
      reading + (handed o m).1 + (handed o m).2, sizeBytes⟩ := by
  obtain ⟨hle, hfresh, hstale⟩ := hm
  unfold OnTime at h
  unfold EntryWithin Origin.freshLimit Origin.staleLimit
  dsimp only
  by_cases hleft : m.measured - o.started < m.freshBudget
  · rw [if_pos hleft] at h
    rw [handed_fresh hle hleft]
    refine ⟨.inl (by linarith), fun hlt => ?_⟩
    rcases max_choice 0 m.staleBudget with h0 | h0 <;> rw [h0] at hlt ⊢ <;> linarith
  · rw [if_neg hleft] at h
    rw [handed_stale hle hleft]
    refine ⟨.inr (by linarith), fun hlt => ?_⟩
    rcases max_choice 0 (m.freshBudget + m.staleBudget - (m.measured - o.started)) with h0 | h0 <;>
      rw [h0] at hlt ⊢ <;> linarith

/-! ## The invariant -/

variable {c : ClientConfig V} {tm tm' : Timed V} {t u : Thread}

/-- The answer was in time. -/
def Report.InTime (r : Report) : Prop :=
  (r.state = .fresh → r.reading < r.origin.freshLimit) ∧
    (r.state = .stale ∨ r.state = .staleIfError → r.reading < r.origin.staleLimit)

/-- A deadline that no reading from `since` on meets after the windows of the origin. -/
def DeadlineWithin (o : Origin) (since deadline : ℚ) : Prop :=
  deadline ≤ o.staleLimit ∨ deadline ≤ since

theorem DeadlineWithin.mono {o : Origin} {since later deadline : ℚ}
    (h : DeadlineWithin o since deadline) (hle : since ≤ later) : DeadlineWithin o later deadline :=
  h.imp_right fun hd => hd.trans hle

namespace Timed

def HeldWithin (tm : Timed V) (t : Thread) (stale : Option (Held V)) : Prop :=
  ∀ held ∈ stale, ∀ deadline, held.cached.staleDeadline = some deadline →
    DeadlineWithin (tm.held t) (tm.last t) deadline

/-- The windows with which a value is written, once the command has been sent. -/
def StoreWithin (tm : Timed V) (t : Thread) (sent : Bool) : Task V → Prop
  | .call _ => True
  | .store lead _ _ started =>
    tm.HeldWithin t lead.stale ∧ started ≤ tm.last t ∧
      (sent = true → tm.origin t = ⟨started, (tm.origin t).answered, lead.load.policy.ttlSeconds,
        lead.load.policy.staleSeconds⟩)

/-- The windows that an answer to `MC.LEASE` names. -/
def LeaseWithin (o : Origin) (policy : CachePolicy) (result : LeaseResult V) : Prop :=
  (result.state = .fresh → budget policy.ttlSeconds result.expiresInSeconds ≤ o.fresh) ∧
    (result.state ≠ .fresh → o.fresh = 0) ∧
    (result.state = .fresh ∨ result.state = .stale ∨ result.state = .staleLease →
      budget policy.staleSeconds result.staleForSeconds ≤ o.stale)

def PcWithin (tm : Timed V) (t : Thread) : Pc V → Prop
  | .idle | .polling _ _ | .looking _ | .waiting _ _ => True
  | .acquiring task | .sending task => tm.StoreWithin t false task
  | .replied task _ _ | .returning task _ _ _ => tm.StoreWithin t true task
  | .joining _ stale => tm.HeldWithin t stale
  | .leading lead | .leasing lead _ | .loading lead _ | .failing lead _ =>
    tm.HeldWithin t lead.stale
  | .leased lead _ started result _ =>
    tm.HeldWithin t lead.stale ∧ (tm.origin t).started = started ∧ started ≤ tm.last t ∧
      started ≤ (tm.origin t).answered ∧ LeaseWithin (tm.origin t) lead.load.policy result
  | .admitting lead a result =>
    tm.HeldWithin t lead.stale ∧ result.state ≠ .staleIfError ∧
      Measures (tm.origin t) (tm.measure t) ∧
      (a.freshSeconds, a.staleSeconds) = handed (tm.origin t) (tm.measure t)
  | .concluding lead result => tm.HeldWithin t lead.stale ∧ result.state ≠ .staleIfError

def FlightWithin (tm : Timed V) (n : ℕ) (flight : Flight V) : Prop :=
  ∀ r, flight.result = some r → r.state = .staleIfError → ∀ deadline, r.staleDeadline = some deadline →
    DeadlineWithin (tm.flights n) (tm.finishedAt n) deadline

structure Inv (tm : Timed V) : Prop where
  entries : ∀ key e, tm.client.localCache.entries.get? key = some e →
    EntryWithin (tm.entries key) (tm.putAt key) e
  flights : ∀ n flight, tm.client.begun[n]? = some flight → tm.FlightWithin n flight
  reports : ∀ r ∈ tm.reports, r.InTime
  threads : ∀ t, tm.PcWithin t (tm.client.threads t)

theorem Inv.init : (init : Timed V).Inv where
  entries _ _ h := by cases h
  flights _ _ h := by cases h
  reports _ h := absurd h List.not_mem_nil
  threads _ := trivial

/-- What a thread remembers stays as it is; time may pass for it. -/
structure Same (t : Thread) (tm tm' : Timed V) : Prop where
  held : tm'.held t = tm.held t
  origin : tm'.origin t = tm.origin t
  measure : tm'.measure t = tm.measure t
  last : tm.last t ≤ tm'.last t

theorem HeldWithin.mono {stale : Option (Held V)} (h : tm.HeldWithin t stale)
    (hheld : tm'.held t = tm.held t) (hlast : tm.last t ≤ tm'.last t) : tm'.HeldWithin t stale := by
  intro held hh deadline hd
  rw [hheld]
  exact DeadlineWithin.mono (h held hh deadline hd) hlast

theorem StoreWithin.mono {task : Task V} {sent : Bool} (h : tm.StoreWithin t sent task)
    (hsame : Same t tm tm') : tm'.StoreWithin t sent task := by
  cases task with
  | call m => trivial
  | store lead value leaseToken started =>
    obtain ⟨hheld, hle, horigin⟩ := h
    refine ⟨hheld.mono hsame.held hsame.last, hle.trans hsame.last, ?_⟩
    rw [hsame.origin]
    exact horigin

theorem PcWithin.mono {pc : Pc V} (h : tm.PcWithin t pc) (hsame : Same t tm tm') :
    tm'.PcWithin t pc := by
  have hheld : ∀ {stale : Option (Held V)}, tm.HeldWithin t stale → tm'.HeldWithin t stale :=
    fun hstale => hstale.mono hsame.held hsame.last
  cases pc with
  | idle | polling | looking | waiting => trivial
  | acquiring task | sending task | replied task | returning task => exact StoreWithin.mono h hsame
  | joining load stale => exact hheld h
  | leading lead | leasing lead | loading lead | failing lead => exact hheld h
  | leased lead expected started result ranAt =>
    obtain ⟨hstale, hstarted, hle, hanswered, hlease⟩ := h
    refine ⟨hheld hstale, ?_, hle.trans hsame.last, ?_, ?_⟩
    · rw [hsame.origin]
      exact hstarted
    · rw [hsame.origin]
      exact hanswered
    · rw [hsame.origin]
      exact hlease
  | admitting lead a result =>
    obtain ⟨hstale, hstate, hmeasures, hhanded⟩ := h
    refine ⟨hheld hstale, hstate, ?_, ?_⟩
    · rw [hsame.origin, hsame.measure]
      exact hmeasures
    · rw [hsame.origin, hsame.measure]
      exact hhanded
  | concluding lead result => exact ⟨hheld h.1, h.2⟩

/-! ## Steps -/

/-- A step of the thread `t` from what it shows of the shared data and of itself. -/
theorem Inv.move (h : tm.Inv) (pc : Pc V)
    (hthreads : tm'.client.threads = Function.update tm.client.threads t pc)
    (hothers : ∀ u, u ≠ t → Same u tm tm') (hpc : tm'.PcWithin t pc)
    (hentries : ∀ key e, tm'.client.localCache.entries.get? key = some e →
      EntryWithin (tm'.entries key) (tm'.putAt key) e)
    (hflights : ∀ n flight, tm'.client.begun[n]? = some flight → tm'.FlightWithin n flight)
    (hreports : ∀ r ∈ tm'.reports, r.InTime) : tm'.Inv where
  entries := hentries
  flights := hflights
  reports := hreports
  threads u := by
    rw [hthreads]
    by_cases hu : u = t
    · subst hu
      rw [Function.update_self]
      exact hpc
    · rw [Function.update_of_ne hu]
      exact (h.threads u).mono (hothers u hu)

/-- The local cache, the flights and the reports are as they were, or less is in the cache. -/
structure Quiet (tm tm' : Timed V) : Prop where
  cache : ∀ key e, tm'.client.localCache.entries.get? key = some e →
    tm.client.localCache.entries.get? key = some e
  entries : tm'.entries = tm.entries
  putAt : tm'.putAt = tm.putAt
  begun : ∀ (n : ℕ) (flight : Flight V), tm'.client.begun[n]? = some flight →
    flight.result = none ∨ tm.client.begun[n]? = some flight
  flights : tm'.flights = tm.flights
  finishedAt : tm'.finishedAt = tm.finishedAt
  reports : tm'.reports = tm.reports

theorem Inv.quiet (h : tm.Inv) (pc : Pc V)
    (hthreads : tm'.client.threads = Function.update tm.client.threads t pc)
    (hothers : ∀ u, u ≠ t → Same u tm tm') (hq : Quiet tm tm') (hpc : tm'.PcWithin t pc) :
    tm'.Inv := by
  apply h.move pc hthreads hothers hpc
  · intro key e he
    rw [hq.entries, hq.putAt]
    exact h.entries key e (hq.cache key e he)
  · intro n flight hn r hr hstate deadline hd
    rcases hq.begun n flight hn with hnone | hold
    · rw [hnone] at hr
      cases hr
    · rw [hq.flights, hq.finishedAt]
      exact h.flights n flight hold r hr hstate deadline hd
  · rw [hq.reports]
    exact h.reports

variable {i : Input V} {instant : ℚ} {s' : Client V}

theorem moved_same_of_ne (hu : u ≠ t) : Same u tm (tm.moved t instant s') :=
  ⟨rfl, rfl, rfl, (Function.update_of_ne hu _ _).ge⟩

theorem moved_same (hle : tm.last t ≤ instant) : Same t tm (tm.moved t instant s') :=
  ⟨rfl, rfl, rfl, by simpa [moved] using hle⟩

theorem Same.trans {tm₁ tm₂ : Timed V} (h : Same t tm tm₁) (h' : Same t tm₁ tm₂) : Same t tm tm₂ :=
  ⟨h'.held.trans h.held, h'.origin.trans h.origin, h'.measure.trans h.measure, h.last.trans h'.last⟩

theorem note_same_of_ne (hu : u ≠ t) : Same u tm (tm.note c t i instant) := by
  unfold note
  split <;> first | exact ⟨rfl, rfl, rfl, le_rfl⟩ | skip
  · exact ⟨rfl, Function.update_of_ne hu _ _, rfl, le_rfl⟩
  · exact ⟨rfl, Function.update_of_ne hu _ _, rfl, le_rfl⟩
  · refine ⟨?_, rfl, Function.update_of_ne hu _ _, le_rfl⟩
    dsimp only
    split_ifs
    · exact Function.update_of_ne hu _ _
    · rfl
  · exact ⟨rfl, rfl, Function.update_of_ne hu _ _, le_rfl⟩
  · split
    · exact ⟨rfl, rfl, rfl, le_rfl⟩
    · exact ⟨Function.update_of_ne hu _ _, rfl, rfl, le_rfl⟩
  · split <;> exact ⟨rfl, rfl, rfl, le_rfl⟩
  · split <;> exact ⟨rfl, rfl, rfl, le_rfl⟩
  · split <;> exact ⟨rfl, rfl, rfl, le_rfl⟩

theorem after_same_of_ne (hu : u ≠ t) : Same u tm (tm.after c (.advance t i) instant s') :=
  (note_same_of_ne hu).trans (moved_same_of_ne hu)

/-- A step of which nothing is remembered. -/
theorem Inv.goto (h : tm.Inv) (hnote : tm.note c t i instant = tm) (pc : Pc V)
    (hthreads : s'.threads = Function.update tm.client.threads t pc)
    (hcache : ∀ key e, s'.localCache.entries.get? key = some e →
      tm.client.localCache.entries.get? key = some e)
    (hbegun : ∀ (n : ℕ) (flight : Flight V), s'.begun[n]? = some flight →
      flight.result = none ∨ tm.client.begun[n]? = some flight)
    (hpc : (tm.moved t instant s').PcWithin t pc) :
    (tm.after c (.advance t i) instant s').Inv := by
  have hafter : tm.after c (.advance t i) instant s' = tm.moved t instant s' :=
    congrArg (moved t instant s') hnote
  rw [hafter]
  exact h.quiet pc hthreads (fun u hu => moved_same_of_ne hu)
    ⟨hcache, rfl, rfl, hbegun, rfl, rfl, rfl⟩ hpc

theorem command_eq {α : Type} (wire : Wire) (m : ClockM V α) (s : Client V) :
    ∃ server, (s.command wire m).2 = { s with server := server } := by
  cases wire with
  | delivered => exact ⟨_, rfl⟩
  | lost ran => exact ⟨_, rfl⟩

/-- A stage of `_poll_invalidations`. -/
theorem pollStep_cases (load : Load) (s : Client V) (stage : Poll) :
    ∃ pc, (pollStep c t load i s stage).threads = Function.update s.threads t pc ∧
      (∀ tm : Timed V, tm.PcWithin t pc) ∧ (pollStep c t load i s stage).begun = s.begun ∧
      ∀ key e, (pollStep c t load i s stage).localCache.entries.get? key = some e →
        s.localCache.entries.get? key = some e := by
  have hquiet : ∀ (pc : Pc V) (s₁ : Client V), (∀ tm : Timed V, tm.PcWithin t pc) →
      s₁.threads = s.threads → s₁.begun = s.begun →
      (∀ key e, s₁.localCache.entries.get? key = some e → s.localCache.entries.get? key = some e) →
      ∃ pc', (s₁.goto t pc).threads = Function.update s.threads t pc' ∧
        (∀ tm : Timed V, tm.PcWithin t pc') ∧ (s₁.goto t pc).begun = s.begun ∧
        ∀ key e, (s₁.goto t pc).localCache.entries.get? key = some e →
          s.localCache.entries.get? key = some e :=
    fun pc s₁ hpc hthreads hbegun hcache => ⟨pc, by rw [← hthreads]; rfl, hpc, hbegun, hcache⟩
  have hsame : ∀ key e, s.localCache.entries.get? key = some e →
      s.localCache.entries.get? key = some e := fun _ _ he => he
  unfold pollStep
  cases stage with
  | start => dsimp only; split_ifs <;> exact hquiet _ s (fun _ => trivial) rfl rfl hsame
  | asking now => dsimp only; split <;> exact hquiet _ s (fun _ => trivial) rfl rfl hsame
  | fetched document now =>
    dsimp only
    split_ifs <;> exact hquiet _ s (fun _ => trivial) rfl rfl hsame
  | sawCursor document now =>
    dsimp only
    split_ifs <;> exact hquiet _ s (fun _ => trivial) rfl rfl hsame
  | sawEpoch document now =>
    dsimp only
    split_ifs <;> exact hquiet _ s (fun _ => trivial) rfl rfl hsame
  | changed document now =>
    exact hquiet _ s.mutationSucceeded (fun _ => trivial) rfl rfl fun _ _ he => by cases he
  | setCursor document now =>
    exact hquiet _ { s with cursor := some document.cursor } (fun _ => trivial) rfl rfl hsame
  | setEpoch document now =>
    exact hquiet _ { s with cursorEpoch := document.epoch } (fun _ => trivial) rfl rfl hsame
  | setGeneration document now =>
    exact hquiet _ { s with cursorGeneration := document.generation } (fun _ => trivial) rfl rfl hsame
  | setLastPoll now => exact hquiet _ { s with lastPoll := now } (fun _ => trivial) rfl rfl hsame

/-- What a lookup reports is in time, and the deadline of a stale hit is within the windows. -/
theorem inTime_of_get {o : Origin} {putAt now : ℚ} {e : LocalEntry V} {state : CachedState}
    (h : EntryWithin o putAt e) (hprompt : putAt ≤ now ∨ now < o.freshLimit)
    (hlive : now < e.staleUntil) (hstate : state = if now < e.freshUntil then .fresh else .stale) :
    (⟨now, state, o⟩ : Report).InTime ∧ (state ≠ .fresh → e.staleUntil ≤ o.staleLimit) := by
  obtain ⟨hfresh, hstale⟩ := h
  by_cases hlt : now < e.freshUntil
  · rw [if_pos hlt] at hstate
    subst hstate
    refine ⟨⟨fun _ => ?_, fun hne => ?_⟩, fun hne => absurd rfl hne⟩
    · rcases hfresh with hle | hle
      · exact hlt.trans_le hle
      · exact hprompt.resolve_left (hlt.trans_le hle).not_ge
    · rcases hne with hne | hne <;> cases hne
  · rw [if_neg hlt] at hstate
    subst hstate
    have hle := hstale ((not_lt.mp hlt).trans_lt hlive)
    exact ⟨⟨fun hne => (by cases hne), fun _ => hlive.trans_le hle⟩, fun _ => hle⟩

/-- The local lookup of `get_or_load`. -/
theorem Inv.look (h : tm.Inv) {load : Load} {n : ℕ} (hth : tm.client.threads t = .looking load)
    (hprompt : tm.putAt load.key ≤ i.time ∨ i.time < (tm.entries load.key).freshLimit) :
    (tm.after c (.advance t i) instant
      { lookLocally t load i.time tm.client with steps := n }).Inv := by
  cases hget : (tm.client.localCache.get i.time load.key).1 with
  | none =>
    have hnote : tm.note c t i instant = tm := by simp only [note, hth, hget]
    have hlook : lookLocally t load i.time tm.client =
        Client.goto t (.joining load none)
          { tm.client with localCache := (tm.client.localCache.get i.time load.key).2 } := by
      simp only [lookLocally, hget]
    rw [hlook]
    refine h.goto hnote (.joining load none) rfl ?_ (fun _ _ hn => .inr hn) ?_
    · intro key e he
      exact LocalCache.get?_of_get he
    · intro held hh
      cases hh
  | some cached =>
    obtain ⟨e, he, hlive, hdeadline, hstate⟩ := LocalCache.get_eq_some hget
    obtain ⟨hreport, hwithin⟩ := inTime_of_get (h.entries _ _ he) hprompt hlive hstate
    obtain ⟨pc, hthreads, hcache, hbegun, hpc⟩ : ∃ pc,
        (lookLocally t load i.time tm.client).threads = Function.update tm.client.threads t pc ∧
        (lookLocally t load i.time tm.client).localCache =
          (tm.client.localCache.get i.time load.key).2 ∧
        (lookLocally t load i.time tm.client).begun = tm.client.begun ∧
        (pc = .idle ∨ cached.state ≠ .fresh ∧
          pc = .joining load (some ⟨cached, some (tm.client.obtainedAt load.key)⟩)) := by
      unfold lookLocally
      simp only [hget]
      split_ifs with hfresh
      · exact ⟨_, rfl, rfl, rfl, .inl rfl⟩
      · exact ⟨_, rfl, rfl, rfl, .inr ⟨hfresh, rfl⟩⟩
    have hnote : tm.note c t i instant =
        { tm with
          held := Function.update tm.held t (tm.entries load.key)
          reports := ⟨i.time, cached.state, tm.entries load.key⟩ :: tm.reports } := by
      simp only [note, hth, hget]
    have hafter : tm.after c (.advance t i) instant
        { lookLocally t load i.time tm.client with steps := n } =
        moved t instant { lookLocally t load i.time tm.client with steps := n }
          { tm with
            held := Function.update tm.held t (tm.entries load.key)
            reports := ⟨i.time, cached.state, tm.entries load.key⟩ :: tm.reports } :=
      congrArg (moved t instant _) hnote
    rw [hafter]
    apply h.move pc hthreads
    · intro u hu
      exact ⟨Function.update_of_ne hu _ _, rfl, rfl, (Function.update_of_ne hu _ _).ge⟩
    · rcases hpc with rfl | ⟨hne, rfl⟩
      · trivial
      · rintro held ⟨⟩ deadline hd
        rw [hdeadline] at hd
        cases hd
        left
        simpa [moved] using hwithin hne
    · intro key e' he'
      have hcached : (tm.client.localCache.get i.time load.key).2.entries.get? key = some e' := by
        rw [← hcache]
        exact he'
      exact h.entries key e' (LocalCache.get?_of_get hcached)
    · intro m flight hm
      exact h.flights m flight (hbegun ▸ hm)
    · intro r hr
      rcases List.mem_cons.mp hr with rfl | hr
      · exact hreport
      · exact h.reports r hr

/-! ## Commands -/

theorem lease_eq_ok {key : Key} {server server' : MutationClock V} {result : LeaseResult V}
    (h : lease c.server key server = (.ok result, server')) :
    ∃ r, Engine.acquireLease c.server key false server.storage = (.ok r, server'.storage) ∧
      result.state = r.state ∧
      (r.state = .fresh → result.expiresInSeconds = some (windowSeconds r.expiresInSeconds)) ∧
      (r.state = .fresh ∨ r.state = .stale ∨ r.state = .staleLease →
        result.staleForSeconds = some (windowSeconds r.staleForSeconds)) := by
  rw [lease, bind_eq_ok] at h
  obtain ⟨r, server₁, hr, h⟩ := h
  have hacquire : Engine.acquireLease c.server key false server.storage = (.ok r, server₁.storage) := by
    have h₁ := congrArg Prod.fst hr
    have h₂ := congrArg (fun p => p.2.storage) hr
    exact Prod.ext h₁ h₂
  cases h
  refine ⟨r, hacquire, rfl, fun hfresh => if_pos hfresh, fun hstate => if_neg ?_⟩
  rintro (hlease | hlease) <;> rw [hlease] at hstate <;> simp at hstate

/-- The origin of an answer to `MC.LEASE`. -/
theorem lease_within {key : Key} {policy : CachePolicy} {started : ℚ}
    {server server' : MutationClock V} {result : LeaseResult V}
    (h : lease c.server key server = (.ok result, server')) :
    server.storage.ticks + 2 ≤ server'.storage.ticks ∧
      LeaseWithin (leaseOrigin c policy key started server) policy result := by
  obtain ⟨r, hr, hstate, hexpires, hstale⟩ := lease_eq_ok h
  obtain ⟨hticks, hwindows⟩ := acquireLease_windows hr
  have horigin : leaseOrigin c policy key started server =
      ⟨started, c.server.clock (server.storage.ticks + 1),
        if r.state = .fresh then capped policy.ttlSeconds r.expiresInSeconds else 0,
        capped policy.staleSeconds r.staleForSeconds⟩ := by
    simp only [leaseOrigin, hr]
  rw [horigin, LeaseWithin, hstate]
  refine ⟨hticks, fun hfresh => ?_, fun hne => if_neg hne, fun hany => ?_⟩
  · obtain ⟨entry, -, -, hfreshWindows, -⟩ := hwindows (.inl hfresh)
    rw [hexpires hfresh, if_pos hfresh]
    apply budget_le_capped
    rw [(hfreshWindows hfresh).1]
    exact remaining_nonneg _ _
  · obtain ⟨entry, -, -, hfreshWindows, hstaleWindows⟩ := hwindows hany
    rw [hstale hany]
    apply budget_le_capped
    rcases hany with hfresh | hother
    · rw [(hfreshWindows hfresh).2]
      exact staleWindow_nonneg _
    · rw [hstaleWindows hother]
      exact remaining_nonneg _ _

/-- `startAdmission` with what the client hands on. -/
theorem pcWithin_startAdmission {lead : Lead V} {a : Admission V} {result : CachedValue V}
    (hheld : tm.HeldWithin t lead.stale) (hstate : result.state ≠ .staleIfError)
    (hm : Measures (tm.origin t) (tm.measure t))
    (ha : (a.freshSeconds, a.staleSeconds) = handed (tm.origin t) (tm.measure t)) :
    tm.PcWithin t (startAdmission lead a result) := by
  unfold startAdmission
  split_ifs
  · exact ⟨hheld, hstate, hm, ha⟩
  · exact ⟨hheld, hstate⟩

/-- What the client hands on of a stale answer. -/
theorem handed_of_stale {o : Origin} {measured staleBudget : ℚ} (hle : o.started ≤ measured) :
    handed o ⟨measured, 0, staleBudget⟩ =
      (0, max 0 (staleBudget - elapsedSince o.started measured)) := by
  have hnot : ¬measured - o.started < 0 := not_lt.mpr (sub_nonneg.mpr hle)
  rw [handed_stale hle hnot, zero_add]
  unfold elapsedSince
  rw [max_eq_right (sub_nonneg.mpr hle)]

/-- The deadline kept for a stale answer. -/
theorem deadlineWithin_after {o : Origin} {budget now : ℚ} (hanswered : o.started ≤ o.answered)
    (hfresh : o.fresh = 0) (hbudget : budget ≤ o.stale) :
    DeadlineWithin o now (deadlineAfter o.started budget now) := by
  unfold DeadlineWithin deadlineAfter Origin.staleLimit
  rw [hfresh]
  rcases max_choice 0 (budget - max 0 (now - o.started)) with h | h <;> rw [h]
  · right
    exact (add_zero now).le
  · left
    have := le_max_right 0 (now - o.started)
    linarith

/-- What `get_or_load` does with the answer to `MC.LEASE`. -/
theorem Inv.leased (h : tm.Inv) {lead : Lead V} {expected ranAt n : ℕ} {started : ℚ}
    {result : LeaseResult V} (hth : tm.client.threads t = .leased lead expected started result ranAt)
    (hlast : tm.last t ≤ i.time) (hlater : i.time ≤ i.later) (hinstant : i.later ≤ instant) :
    (tm.after c (.advance t i) instant
      { Client.goto t (afterLease lead expected started result ranAt i) tm.client with
        steps := n }).Inv := by
  have hpc := h.threads t
  rw [hth] at hpc
  obtain ⟨hheld, rfl, hle, hanswered, hfresh, hzero, hstale⟩ := hpc
  have hstarted : (tm.origin t).started ≤ i.time := hle.trans hlast
  refine h.quiet (afterLease lead expected _ result ranAt i) rfl (fun u hu => after_same_of_ne hu)
    ?_ ?_
  · simp only [after, note, hth]
    exact ⟨fun _ _ he => he, rfl, rfl, fun _ _ hn => .inr hn, rfl, rfl, rfl⟩
  · simp only [after, note, hth]
    have hsame : ∀ {tm' : Timed V}, tm'.held t = tm.held t → tm.last t ≤ tm'.last t →
        tm'.HeldWithin t lead.stale := fun hh ht => hheld.mono hh ht
    have hinst : tm.last t ≤ instant := hlast.trans (hlater.trans hinstant)
    unfold afterLease
    cases hstate : result.state <;> cases hvalue : result.value <;>
      simp only [reduceCtorEq, false_and, and_false, if_false, true_and, Option.isSome_some,
        Option.isSome_none, Bool.false_eq_true, if_true]
    case fresh.some value =>
      apply pcWithin_startAdmission
      · exact hsame rfl (by simpa [moved] using hinst)
      · simp
      · simp only [moved, Function.update_self]
        exact ⟨hstarted, hfresh hstate, hstale (.inl hstate)⟩
      · simp only [moved, Function.update_self]
        rfl
    case stale.some value =>
      apply pcWithin_startAdmission
      · exact hsame rfl (by simpa [moved] using hinst)
      · simp
      · simp only [moved, Function.update_self]
        exact ⟨hstarted, (hzero (by rw [hstate]; decide)).ge, hstale (.inr (.inl hstate))⟩
      · simp only [moved, Function.update_self]
        exact (handed_of_stale hstarted).symm
    case staleLease.some value =>
      rintro held ⟨⟩ deadline hd
      cases hd
      simp only [moved, Function.update_self]
      exact (deadlineWithin_after hanswered (hzero (by rw [hstate]; decide))
        (hstale (.inr (.inr hstate)))).mono hinstant
    all_goals exact hsame rfl (by simpa [moved] using hinst)

/-- `_admit_if_generation` puts the value, or it leaves everything as it is. -/
theorem admitIfGeneration_eq (c : ClientConfig V) (key : Key) (a : Admission V) (now : ℚ)
    (s : Client V) :
    (∃ r, admitIfGeneration c key a now s = (r, s) ∧ r ≠ .ok true) ∨
      a.generation = s.mutationGeneration ∧ admitIfGeneration c key a now s = (.ok true, { s with
        localCache := s.localCache.store c.limits key ⟨a.value, now + a.freshSeconds,
          now + a.freshSeconds + a.staleSeconds, key.utf8ByteSize + c.limits.len a.value⟩
        obtainedAt := Function.update s.obtainedAt key a.obtainedAt }) := by
  unfold admitIfGeneration
  split_ifs with hgen
  · exact .inl ⟨_, rfl, by simp⟩
  · rcases LocalCache.put_eq c.limits key a.value a.freshSeconds a.staleSeconds now s.localCache
      with ⟨r, hput, hne⟩ | hput
    · left
      rw [hput]
      rcases r with e | (_ | _)
      · exact ⟨_, rfl, hne⟩
      · exact ⟨_, rfl, hne⟩
      · exact absurd rfl hne
    · right
      rw [hput]
      exact ⟨not_not.mp hgen, rfl⟩

/-- The value on its way into the local cache is put, or it is not. -/
theorem Inv.admitting (h : tm.Inv) {lead : Lead V} {a : Admission V} {result : CachedValue V}
    {n : ℕ} (hth : tm.client.threads t = .admitting lead a result)
    (hprompt : a.generation = tm.client.mutationGeneration →
      OnTime (tm.origin t) (tm.measure t) i.time)
    (hlast : tm.last t ≤ instant) (pc : Pc V)
    (hpc : ∀ tm' : Timed V, tm'.HeldWithin t lead.stale → tm'.PcWithin t pc) :
    (tm.after c (.advance t i) instant
      { Client.goto t pc (admitIfGeneration c lead.load.key a i.time tm.client).2 with
        steps := n }).Inv := by
  have hlead := h.threads t
  rw [hth] at hlead
  obtain ⟨hheld, -, hmeasures, hhanded⟩ := hlead
  obtain ⟨hfresh, hstale⟩ := Prod.mk.inj hhanded
  rcases admitIfGeneration_eq c lead.load.key a i.time tm.client with
    ⟨r, hadmitted, hne⟩ | ⟨hgen, hadmitted⟩
  · -- nothing was put
    have hnote : tm.note c t i instant = tm := by
      simp only [note, hth, hadmitted]
    rw [hadmitted]
    exact h.goto hnote pc rfl (fun _ _ he => he) (fun _ _ hn => .inr hn)
      (hpc _ (hheld.mono rfl (by simpa [moved] using hlast)))
  · -- the entry has been put
    rw [hadmitted]
    refine h.move pc rfl (fun u hu => after_same_of_ne hu) ?_ ?_ ?_ ?_
    · simp only [after, note, hth, hadmitted]
      exact hpc _ (hheld.mono rfl (by simpa [moved] using hlast))
    · intro key e he
      simp only [after, note, hth, hadmitted, moved]
      rcases LocalCache.get?_of_store he with ⟨rfl, rfl⟩ | ⟨hne, hold⟩
      · rw [Function.update_self, Function.update_self, hfresh, hstale]
        exact entryWithin_handed hmeasures (hprompt hgen) _ _
      · rw [Function.update_of_ne hne, Function.update_of_ne hne]
        exact h.entries key e hold
    · simp only [after, note, hth, hadmitted]
      exact h.flights
    · simp only [after, note, hth, hadmitted]
      exact h.reports

/-- The flights after one of them is over. -/
theorem flights_set {flight : ℕ} {new : Flight V} {o : ℕ → Origin} {at' : ℕ → ℚ}
    (h : ∀ n f, tm.client.begun[n]? = some f → tm.FlightWithin n f)
    (hbegun : tm'.client.begun = tm.client.begun.set flight new) (ho : tm'.flights = o)
    (hat : tm'.finishedAt = at') (hof : ∀ n, n ≠ flight → o n = tm.flights n ∧ at' n = tm.finishedAt n)
    (hnew : tm'.FlightWithin flight new) :
    ∀ n f, tm'.client.begun[n]? = some f → tm'.FlightWithin n f := by
  intro n f hn
  rw [hbegun, List.getElem?_set] at hn
  split_ifs at hn with heq hlt
  · subst heq
    cases hn
    exact hnew
  · obtain ⟨hflight, hfinished⟩ := hof n (Ne.symm heq)
    intro r hr hstate deadline hd
    rw [ho, hat, hflight, hfinished]
    exact h n f hn r hr hstate deadline hd

/-- A load that ends with a value of the server or of the loader. -/
theorem Inv.concluding (h : tm.Inv) {lead : Lead V} {result : CachedValue V} {n : ℕ}
    (hth : tm.client.threads t = .concluding lead result) :
    (tm.after c (.advance t i) instant
      { Client.goto t .idle (tm.client.finish lead (some result) none) with steps := n }).Inv := by
  have hpc := h.threads t
  rw [hth] at hpc
  refine h.move .idle rfl (fun u hu => after_same_of_ne hu) trivial ?_ ?_ ?_
  · simp only [after, note, hth]
    exact h.entries
  · simp only [after, note, hth]
    refine flights_set h.flights rfl rfl rfl
      (fun m hm => ⟨rfl, Function.update_of_ne hm _ _⟩) ?_
    intro r hr hstate
    cases hr
    exact absurd hstate hpc.2
  · simp only [after, note, hth]
    exact h.reports

/-- A load that ends with an error, or with the stale value kept for it. -/
theorem Inv.failing (h : tm.Inv) {lead : Lead V} {error : PyError} {n : ℕ}
    (hth : tm.client.threads t = .failing lead error) (hlast : tm.last t ≤ i.time) :
    (tm.after c (.advance t i) instant
      { afterError t lead error i tm.client with steps := n }).Inv := by
  have hheld := h.threads t
  rw [hth] at hheld
  cases hstale : usableStale lead i.time with
  | none =>
    have herror : afterError t lead error i tm.client =
        Client.goto t .idle (tm.client.finish lead none (some error)) := by
      simp only [afterError, hstale]
    rw [herror]
    refine h.move .idle rfl (fun u hu => after_same_of_ne hu) trivial ?_ ?_ ?_
    · simp only [after, note, hth, hstale]
      exact h.entries
    · simp only [after, note, hth, hstale]
      refine flights_set h.flights rfl rfl rfl
        (fun m hm => ⟨rfl, Function.update_of_ne hm _ _⟩) ?_
      intro r hr
      cases hr
    · simp only [after, note, hth, hstale]
      exact h.reports
  | some held =>
    obtain ⟨hmem, husable⟩ := Option.filter_eq_some_iff.mp hstale
    obtain ⟨deadline, hdeadline, hlt⟩ : ∃ deadline,
        held.cached.staleDeadline = some deadline ∧ i.time < deadline := by
      have hany := (Bool.and_eq_true_iff.mp husable).2
      cases hd : held.cached.staleDeadline with
      | none =>
        rw [hd] at hany
        cases hany
      | some deadline =>
        rw [hd] at hany
        exact ⟨deadline, rfl, by simpa using hany⟩
    have hwithin := hheld held hmem deadline hdeadline
    have hlimit : deadline ≤ (tm.held t).staleLimit :=
      hwithin.resolve_right fun hle => absurd (hlt.trans_le (hle.trans hlast)) (lt_irrefl _)
    obtain ⟨hthreads, hcache, hbegun⟩ :
        (afterError t lead error i tm.client).threads = Function.update tm.client.threads t .idle ∧
        (afterError t lead error i tm.client).localCache = tm.client.localCache ∧
        (afterError t lead error i tm.client).begun = tm.client.begun.set lead.flight
          ⟨true, some ⟨held.cached.value, .staleIfError, held.cached.staleDeadline⟩, some error⟩ := by
      unfold afterError
      simp only [hstale]
      split <;> exact ⟨rfl, rfl, rfl⟩
    refine h.move .idle hthreads (fun u hu => after_same_of_ne hu) trivial ?_ ?_ ?_
    · simp only [after, note, hth, hstale]
      intro key e he
      exact h.entries key e (hcache ▸ he)
    · simp only [after, note, hth, hstale]
      refine flights_set h.flights hbegun rfl rfl
        (fun m hm => ⟨Function.update_of_ne hm _ _, Function.update_of_ne hm _ _⟩) ?_
      intro r hr _ d hd
      cases hr
      rw [hdeadline] at hd
      cases hd
      left
      simpa [moved] using hlimit
    · simp only [after, note, hth, hstale]
      intro r hr
      rcases List.mem_cons.mp hr with rfl | hr
      · exact ⟨fun hne => (by cases hne), fun _ => hlt.trans_le hlimit⟩
      · exact h.reports r hr

/-- A follower returns what the flight ended with. -/
theorem Inv.waiting (h : tm.Inv) {load : Load} {flight n : ℕ}
    (hth : tm.client.threads t = .waiting load flight)
    (hevent : tm.finishedAt flight ≤ i.time) :
    (tm.after c (.advance t i) instant
      { Client.goto t .idle tm.client with steps := n }).Inv := by
  have hreports : ∀ r ∈ (tm.note c t i instant).reports, r.InTime := by
    simp only [note, hth]
    split
    · rename_i value deadline hfollowed
      obtain ⟨f, hf, hresult⟩ := Option.bind_eq_some_iff.mp hfollowed
      obtain ⟨hr, hlive⟩ := Option.filter_eq_some_iff.mp hresult
      intro r hmem
      rcases List.mem_cons.mp hmem with rfl | hmem
      · refine ⟨fun hne => (by cases hne), fun _ => ?_⟩
        cases deadline with
        | none => simp at hlive
        | some deadline =>
          have hlt : i.time < deadline := by simpa using hlive
          have hwithin := h.flights flight f hf _ hr rfl deadline rfl
          exact hlt.trans_le (hwithin.resolve_right fun hle => absurd (hlt.trans_le (hle.trans hevent))
            (lt_irrefl _))
      · exact h.reports r hmem
    · exact h.reports
  have hsame : (tm.note c t i instant).entries = tm.entries ∧
      (tm.note c t i instant).putAt = tm.putAt ∧ (tm.note c t i instant).flights = tm.flights ∧
      (tm.note c t i instant).finishedAt = tm.finishedAt := by
    simp only [note, hth]
    split <;> exact ⟨rfl, rfl, rfl, rfl⟩
  obtain ⟨hentries, hput, hflights, hfinished⟩ := hsame
  refine h.move .idle rfl (fun u hu => after_same_of_ne hu) trivial ?_ ?_ hreports
  · intro key e he
    simp only [after, moved, hentries, hput]
    exact h.entries key e he
  · intro m f hm r hr hstate deadline hd
    simp only [after, moved, hflights, hfinished]
    exact h.flights m f hm r hr hstate deadline hd

/-! ## Runs -/

/-- Every step of a thread keeps the invariant. -/
theorem Inv.advance (h : tm.Inv) {e : Client V} (he : tm.client.advance c t i = some e) {n : ℕ}
    (hl : tm.Legal c (.advance t i) instant { e with steps := n })
    (hprompt : Prompt tm (.advance t i)) :
    (tm.after c (.advance t i) instant { e with steps := n }).Inv := by
  obtain ⟨hlast, hlater, hinstant, hserver, hevent⟩ := hl.2.2 (t, i) rfl
  have hinst : tm.last t ≤ instant := hlast.trans (hlater.trans hinstant)
  have hpc := h.threads t
  have hmoved : ∀ {pc : Pc V} {s' : Client V}, tm.PcWithin t pc →
      (tm.moved t instant s').PcWithin t pc := fun hp => hp.mono (moved_same hinst)
  unfold Client.advance at he
  unfold Prompt at hprompt
  dsimp only at hprompt
  cases hth : tm.client.threads t with
  | idle =>
    rw [hth] at he
    cases he
  | acquiring task =>
    rw [hth] at he hpc
    dsimp only at he
    split_ifs at he
    obtain rfl := Option.some.inj he
    have hnote : tm.note c t i instant = tm := by simp only [note, hth]
    exact h.goto hnote (.sending task) rfl (fun _ _ he => he) (fun _ _ hn => .inr hn) (hmoved hpc)
  | sending task =>
    rw [hth] at he hpc
    obtain rfl := Option.some.inj he
    obtain ⟨server, hcommand⟩ := command_eq i.wire (task.mutation.serve c.server) tm.client
    rw [hcommand]
    cases task with
    | call m =>
      have hnote : tm.note c t i instant = tm := by simp only [note, hth]
      exact h.goto hnote _ rfl (fun _ _ he => he) (fun _ _ hn => .inr hn) (hmoved hpc)
    | store lead value leaseToken started =>
      obtain ⟨hheld, hle, -⟩ := hpc
      refine h.quiet (.replied _ _ _) rfl (fun u hu => after_same_of_ne hu) ?_ ?_
      · simp only [after, note, hth]
        exact ⟨fun _ _ he => he, rfl, rfl, fun _ _ hn => .inr hn, rfl, rfl, rfl⟩
      · simp only [after, note, hth]
        refine ⟨hheld.mono rfl (by simpa [moved] using hinst), ?_, fun _ => ?_⟩
        · simpa [moved] using hle.trans hinst
        · simp only [moved, Function.update_self]
          rfl
  | replied task reply ranAt =>
    rw [hth] at he hpc
    have hnote : tm.note c t i instant = tm := by simp only [note, hth]
    cases reply with
    | error error =>
      cases task with
      | call m =>
        obtain rfl := Option.some.inj he
        exact h.goto hnote .idle rfl (fun _ _ he => he) (fun _ _ hn => .inr hn) trivial
      | store lead value leaseToken started =>
        obtain rfl := Option.some.inj he
        exact h.goto hnote (.failing lead error) rfl (fun _ _ he => he) (fun _ _ hn => .inr hn)
          (hpc.1.mono rfl (by simpa [moved] using hinst))
    | ok reply =>
      have he' : some (Client.goto t (.returning task reply
          (if reply.changed then tm.client.mutationSucceeded else tm.client).mutationGeneration ranAt)
          (if reply.changed then tm.client.mutationSucceeded else tm.client)) = some e := by
        cases task <;> exact he
      obtain rfl := Option.some.inj he'
      cases hchanged : reply.changed with
      | false => exact h.goto hnote _ rfl (fun _ _ he => he) (fun _ _ hn => .inr hn) (hmoved hpc)
      | true =>
        exact h.goto hnote _ rfl (fun _ _ he => (by cases he)) (fun _ _ hn => .inr hn) (hmoved hpc)
  | returning task reply generation ranAt =>
    rw [hth] at he hpc
    cases task with
    | call m =>
      obtain rfl := Option.some.inj he
      have hnote : tm.note c t i instant = tm := by simp only [note, hth]
      exact h.goto hnote .idle rfl (fun _ _ he => he) (fun _ _ hn => .inr hn) trivial
    | store lead value leaseToken started =>
      obtain rfl := Option.some.inj he
      obtain ⟨hheld, hle, horigin⟩ := hpc
      refine h.quiet _ rfl (fun u hu => after_same_of_ne hu) ?_ ?_
      · simp only [after, note, hth]
        exact ⟨fun _ _ he => he, rfl, rfl, fun _ _ hn => .inr hn, rfl, rfl, rfl⟩
      · simp only [after, note, hth]
        apply pcWithin_startAdmission
        · exact hheld.mono rfl (by simpa [moved] using hinst)
        · simp
        · simp only [moved, Function.update_self]
          rw [horigin rfl]
          exact ⟨hle.trans hlast, le_rfl, le_rfl⟩
        · simp only [moved, Function.update_self]
          rw [horigin rfl]
          rfl
  | polling load stage =>
    rw [hth] at he
    obtain rfl := Option.some.inj he
    obtain ⟨pc, hthreads, hwithin, hbegun, hcache⟩ :=
      @pollStep_cases V c t i load tm.client stage
    have hnote : tm.note c t i instant = tm := by simp only [note, hth]
    exact h.goto hnote pc hthreads hcache (fun _ _ hn => .inr (hbegun ▸ hn)) (hwithin _)
  | looking load =>
    rw [hth] at he hprompt
    obtain rfl := Option.some.inj he
    exact h.look hth hprompt
  | joining load stale =>
    rw [hth] at he hpc
    have hnote : tm.note c t i instant = tm := by simp only [note, hth]
    dsimp only at he
    split at he
    · obtain rfl := Option.some.inj he
      exact h.goto hnote _ rfl (fun _ _ he => he) (fun _ _ hn => .inr hn) trivial
    · obtain rfl := Option.some.inj he
      refine h.goto hnote (.leading _) rfl (fun _ _ he => he) (fun m flight hn => ?_) (hmoved hpc)
      -- the new flight has no result
      have happend : (tm.client.begun ++ [⟨false, none, none⟩])[m]? = some flight := hn
      rw [List.getElem?_append] at happend
      split_ifs at happend
      · exact .inr happend
      · left
        rw [List.mem_singleton.mp (List.mem_of_getElem? happend)]
  | waiting load flight =>
    rw [hth] at he
    dsimp only at he
    split_ifs at he
    obtain rfl := Option.some.inj he
    exact h.waiting hth (hevent flight (by simp only [waitsFor, hth]; rfl))
  | leading lead =>
    rw [hth] at he hpc
    obtain rfl := Option.some.inj he
    have hnote : tm.note c t i instant = tm := by simp only [note, hth]
    exact h.goto hnote (.leasing lead _) rfl (fun _ _ he => he) (fun _ _ hn => .inr hn)
      (HeldWithin.mono hpc rfl (by simpa [moved] using hinst))
  | leasing lead expected =>
    rw [hth] at he hpc
    have hheld : ∀ {tm' : Timed V}, tm'.held t = tm.held t → tm.last t ≤ tm'.last t →
        tm'.HeldWithin t lead.stale := fun hh ht => HeldWithin.mono hpc hh ht
    obtain ⟨server, hcommand⟩ := command_eq i.wire (lease c.server lead.load.key) tm.client
    rcases hrun : tm.client.command i.wire (lease c.server lead.load.key) with ⟨error | result, s₁⟩
    · simp only [hrun] at he hcommand
      obtain rfl := Option.some.inj he
      rw [hcommand]
      refine h.quiet (.failing lead error) rfl (fun u hu => after_same_of_ne hu) ?_ ?_
      · simp only [after, note, hth]
        exact ⟨fun _ _ he => he, rfl, rfl, fun _ _ hn => .inr hn, rfl, rfl, rfl⟩
      · simp only [after, note, hth]
        exact hheld rfl (by simpa [moved] using hinst)
    · have hserved : lease c.server lead.load.key tm.client.server = (.ok result, s₁.server) := by
        unfold command at hrun
        split at hrun
        · obtain ⟨h₁, h₂⟩ := Prod.mk.inj hrun
          rw [← h₂]
          exact Prod.ext h₁ rfl
        · cases (Prod.mk.inj hrun).1
      simp only [hrun] at he hcommand
      obtain rfl := Option.some.inj he
      obtain ⟨hticks, hlease⟩ := @lease_within V c _ lead.load.policy i.time _ _ _ hserved
      rw [hcommand] at hserver hticks ⊢
      have hanswered := hserver (tm.client.server.storage.ticks + 1) hticks (Nat.le_succ _)
      refine h.quiet (.leased lead expected i.time result _) rfl (fun u hu => after_same_of_ne hu)
        ?_ ?_
      · simp only [after, note, hth]
        exact ⟨fun _ _ he => he, rfl, rfl, fun _ _ hn => .inr hn, rfl, rfl, rfl⟩
      · have horigin : (leaseOrigin c lead.load.policy lead.load.key i.time
            tm.client.server).started = i.time ∧ (leaseOrigin c lead.load.policy lead.load.key i.time
            tm.client.server).answered = c.server.clock (tm.client.server.storage.ticks + 1) := by
          unfold leaseOrigin
          split <;> exact ⟨rfl, rfl⟩
        simp only [after, note, hth]
        refine ⟨hheld rfl (by simpa [moved] using hinst), ?_, ?_, ?_, ?_⟩
        · simpa [moved] using horigin.1
        · simpa [moved] using hlater.trans hinstant
        · simpa [moved, horigin.2] using hanswered
        · simpa [moved] using hlease
  | leased lead expected started result ranAt =>
    rw [hth] at he
    obtain rfl := Option.some.inj he
    exact h.leased hth hlast hlater hinstant
  | admitting lead a result =>
    rw [hth] at he hprompt hpc
    have hstep := h.admitting (n := n) (c := c) hth hprompt hinst
    dsimp only at he
    rcases hr : admitIfGeneration c lead.load.key a i.time tm.client with ⟨error | b, s₁⟩ <;>
      rw [hr] at he hstep <;> obtain rfl := Option.some.inj he
    · exact hstep (.failing lead error) fun _ hheld => hheld
    · exact hstep (.concluding lead result) fun _ hheld => ⟨hheld, hpc.2.1⟩
  | loading lead leaseToken =>
    rw [hth] at he hpc
    have hnote : tm.note c t i instant = tm := by simp only [note, hth]
    have hheld : ∀ {s' : Client V}, (tm.moved t instant s').HeldWithin t lead.stale :=
      HeldWithin.mono hpc rfl (by simpa [moved] using hinst)
    dsimp only at he
    split at he <;> obtain rfl := Option.some.inj he
    · refine h.goto hnote (.acquiring _) rfl (fun _ _ he => he) (fun _ _ hn => .inr hn) ?_
      refine ⟨hheld, ?_, fun hsent => by cases hsent⟩
      simpa [moved] using hlater.trans hinstant
    · exact h.goto hnote (.failing lead _) rfl (fun _ _ he => he) (fun _ _ hn => .inr hn) hheld
  | failing lead error =>
    rw [hth] at he
    obtain rfl := Option.some.inj he
    exact h.failing hth hlast
  | concluding lead result =>
    rw [hth] at he
    obtain rfl := Option.some.inj he
    exact h.concluding hth

/-- Every legal move with prompt readings keeps the invariant. -/
theorem Inv.step (h : tm.Inv) {move : Move V} {s' : Client V} (hs : move.step c tm.client = some s')
    (hl : tm.Legal c move instant s') (hprompt : Prompt tm move) :
    (tm.after c move instant s').Inv := by
  obtain ⟨e, he, rfl⟩ := Option.map_eq_some_iff.mp hs
  cases move with
  | environment call =>
    obtain rfl := Option.some.inj he
    exact ⟨h.entries, h.flights, h.reports, fun u => (h.threads u).mono ⟨rfl, rfl, rfl, le_rfl⟩⟩
  | mutate t m =>
    unfold Move.effect at he
    dsimp only at he
    split at he
    · obtain rfl := Option.some.inj he
      exact h.quiet (t := t) (.acquiring (.call m)) rfl (fun u hu => moved_same_of_ne hu)
        ⟨fun _ _ he => he, rfl, rfl, fun _ _ hn => .inr hn, rfl, rfl, rfl⟩ trivial
    · cases he
  | getOrLoad t key policy =>
    unfold Move.effect at he
    dsimp only at he
    split at he
    · obtain rfl := Option.some.inj he
      exact h.quiet (t := t) (.polling ⟨key, policy, tm.client.steps⟩ .start) rfl
        (fun u hu => moved_same_of_ne hu)
        ⟨fun _ _ he => he, rfl, rfl, fun _ _ hn => .inr hn, rfl, rfl, rfl⟩ trivial
    · cases he
  | advance t i => exact h.advance he hl hprompt

end Timed

theorem TimedRun.inv (h : TimedRun c Prompt tm) : tm.Inv := by
  induction h with
  | init => exact .init
  | step h move instant hs hl hprompt ih => exact ih.step hs hl hprompt

/-- In every run whose values are put on time, the local cache answers within the windows
that the server left, and stale values are returned within them; and the delay that is
allowed for an entry is the exact one. -/
theorem local_answers_within_windows :
    (∀ tm : Timed V, TimedRun c Prompt tm → ∀ r ∈ tm.reports,
      (r.state = .fresh → r.reading < r.origin.answered + r.origin.fresh) ∧
      (r.state = .stale ∨ r.state = .staleIfError →
        r.reading < r.origin.answered + r.origin.fresh + r.origin.stale)) ∧
    ∀ (o : Origin) (m : Measure) (reading : ℚ), o.started ≤ m.measured →
      0 < (handed o m).1 + (handed o m).2 → (OnTime o m reading ↔
        if 0 < (handed o m).1 then reading + (handed o m).1 ≤ o.answered + o.fresh
        else reading + (handed o m).1 + (handed o m).2 ≤ o.answered + o.fresh + o.stale) :=
  ⟨fun _ h r hr => h.inv.reports r hr, fun _ _ reading hle hleft => onTime_iff hle hleft reading⟩

/-! ## A delay before the value is put -/

/-- The run of a list of moves at their instants, if all of them are legal. -/
def Timed.runAll (c : ClientConfig V) : List (Move V × ℚ) → Timed V → Option (Timed V)
  | [], tm => some tm
  | (move, instant) :: moves, tm =>
    (move.step c tm.client).bind fun s' =>
      if tm.Legal c move instant s' then runAll c moves (tm.after c move instant s') else none

theorem TimedRun.runAll {moves : List (Move V × ℚ)} (h : TimedRun c (fun _ _ => True) tm)
    (hs : Timed.runAll c moves tm = some tm') : TimedRun c (fun _ _ => True) tm' := by
  induction moves generalizing tm with
  | nil =>
    obtain rfl := Option.some.inj hs
    exact h
  | cons p moves ih =>
    obtain ⟨move, instant⟩ := p
    obtain ⟨s', hstep, hrest⟩ := Option.bind_eq_some_iff.mp hs
    split_ifs at hrest with hl
    exact ih (h.step move instant hstep hl trivial) hrest

/-- A step whose readings are all taken at its instant. -/
def at' (t : Thread) (instant : ℚ) : Move String × ℚ :=
  (.advance t ⟨instant, instant, .delivered, .ok ""⟩, instant)

/-- The server writes a value for ten seconds at time 0 and answers a lease at time 3; the
client has measured the time of the command at once, and puts the value at time 100. -/
def lateMoves : List (Move String × ℚ) :=
  [(.mutate 0 (.put "a" "1" (some 10) (some 10) [] none), 0), at' 0 0,
    (.advance 0 ⟨0, 0, .delivered, .ok ""⟩, 1), at' 0 1, at' 0 1,
    (.getOrLoad 1 "a" smallPolicy, 1), at' 1 1, at' 1 1, at' 1 1, at' 1 1,
    (.advance 1 ⟨2, 2, .delivered, .ok ""⟩, 3), at' 1 3, at' 1 100, at' 1 100,
    (.getOrLoad 2 "a" smallPolicy, 100), at' 2 100, at' 2 100]

/-- The local cache calls a value fresh long after the server has dropped it. -/
theorem late_put_outlives_server : ∃ tm : Timed String, TimedRun smallClient (fun _ _ => True) tm ∧
    ∃ r ∈ tm.reports, r.state = .fresh ∧ r.origin = ⟨2, 3, 7, 10⟩ ∧
      r.origin.answered + r.origin.fresh + r.origin.stale < r.reading := by
  have hrun : (Timed.runAll smallClient lateMoves .init).map Timed.reports =
      some [⟨100, .fresh, ⟨2, 3, 7, 10⟩⟩] := by
    decide +kernel
  obtain ⟨tm, htm, hreports⟩ := Option.map_eq_some_iff.mp hrun
  refine ⟨tm, TimedRun.init.runAll htm, ⟨100, .fresh, ⟨2, 3, 7, 10⟩⟩, ?_, rfl, rfl, by norm_num⟩
  rw [hreports]
  exact List.mem_singleton_self _

end MegaCache.Sdk
