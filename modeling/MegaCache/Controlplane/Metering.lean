import MegaCache.Lib.Rollup
import MegaCache.Lib.RoundHalfEven

/-!
# Metering

Every request of a tenant is counted twice in the control state: in the period of its hour,
of which a bounded number are kept, and in the cumulative counters.  A count is one
read-modify-write of the whole state, and one that cannot be written is given up.  Over any
run with failed writes, crashes and restarts the counters are those of the updates that
reached the file.
-/

namespace MegaCache
namespace Controlplane

open Rollup

/-! ## The usage of a tenant -/

/-- `2**63 - 1`, where the counters and the sequence stop. -/
def maxInteger : ℕ := 2 ^ 63 - 1

inductive CounterName
  | operations
  | errors
  | requestBytes
  | responseBytes
  | originOperations
  | connections
deriving DecidableEq, Repr

def counterNames : List CounterName :=
  [.operations, .errors, .requestBytes, .responseBytes, .originOperations, .connections]

/-- The counters of a period.  A name that the document does not have counts zero. -/
structure UsageCounters where
  count : CounterName → ℕ
  firstSequence : Option ℕ
  lastSequence : Option ℕ

/-- `_empty_usage_counters`. -/
def emptyUsageCounters : UsageCounters := ⟨fun _ => 0, none, none⟩

structure Usage where
  periods : OrderedDict String UsageCounters
  cumulative : CounterName → ℕ

def Usage.empty : Usage := ⟨OrderedDict.empty, emptyUsageCounters.count⟩

/-- The control state as far as requests are metered in it. -/
structure MeterState where
  meterSequence : ℕ
  usage : OrderedDict String Usage

/-- What `_record_usage` is told of a request. -/
structure MeteredRequest where
  protocol : String
  operation : String
  requestBytes : ℕ
  responseBytes : ℕ
  success : Bool
  connections : ℕ

def MeteredRequest.increments (r : MeteredRequest) : CounterName → ℕ
  | .operations => if r.protocol = "connection" then 0 else 1
  | .errors => if r.success then 0 else 1
  | .requestBytes => r.requestBytes
  | .responseBytes => r.responseBytes
  | .originOperations =>
    if r.operation = "MC.FETCH" ∨ r.operation = "POST /v1/fetch/{key}" then 1 else 0
  | .connections => r.connections

def addIncrements (count increments : CounterName → ℕ) (name : CounterName) : ℕ :=
  addCapped maxInteger (count name) (increments name)

/-- The counters of a period with one more request. -/
def UsageCounters.record (sequence : ℕ) (increments : CounterName → ℕ) (counters : UsageCounters) :
    UsageCounters where
  count := addIncrements counters.count increments
  firstSequence := some (min (counters.firstSequence.getD sequence) sequence)
  lastSequence := some sequence

/-- The periods before the oldest ones are deleted. -/
def Usage.recorded (period : String) (sequence : ℕ) (increments : CounterName → ℕ) (usage : Usage) :
    OrderedDict String UsageCounters :=
  usage.periods.set period
    (((usage.periods.get? period).getD emptyUsageCounters).record sequence increments)

def Usage.record (limit : ℕ) (period : String) (sequence : ℕ) (increments : CounterName → ℕ)
    (usage : Usage) : Usage where
  periods := retain limit (usage.recorded period sequence increments)
  cumulative := addIncrements usage.cumulative increments

def nextSequence (state : MeterState) : ℕ := min maxInteger (state.meterSequence + 1)

/-- The mutation of `_record_usage`; without usage of the tenant it raises. -/
def mutation (limit : ℕ) (tenantId period : String) (r : MeteredRequest) (state : MeterState) :
    Option MeterState :=
  (state.usage.get? tenantId).map fun usage =>
    { meterSequence := nextSequence state
      usage := state.usage.set tenantId
        (usage.record limit period (nextSequence state) r.increments) }

/-! ## Hours -/

/-- The year, month and day of a day counted from 1970-01-01. -/
def civilDate (days : ℤ) : ℤ × ℤ × ℤ :=
  -- years from the first of March, in eras of 400 years
  let era := (days + 719468) / 146097
  let dayOfEra := (days + 719468) % 146097
  let yearOfEra := (dayOfEra - dayOfEra / 1460 + dayOfEra / 36524 - dayOfEra / 146096) / 365
  let dayOfYear := dayOfEra - (365 * yearOfEra + yearOfEra / 4 - yearOfEra / 100)
  let monthFromMarch := (5 * dayOfYear + 2) / 153
  let month := if monthFromMarch < 10 then monthFromMarch + 3 else monthFromMarch - 9
  (yearOfEra + era * 400 + (if month ≤ 2 then 1 else 0), month,
    dayOfYear - (153 * monthFromMarch + 2) / 5 + 1)

def padded (width : ℕ) (n : ℤ) : List Char := (Nat.toDigits 10 n.toNat).leftpad width '0'

/-- The hour of a clock reading as `_record_usage` writes it; `fromtimestamp` raises outside
of the years 1 to 9999. -/
def usagePeriod (clock : ℚ) : Option String :=
  let hour := roundHalfEven (clock * 1000000) / 3600000000
  let (year, month, day) := civilDate (hour / 24)
  if 1 ≤ year ∧ year ≤ 9999 then
    some (String.ofList (padded 4 year ++ '-' :: padded 2 month ++ '-' :: padded 2 day ++
      'T' :: padded 2 (hour % 24) ++ ":00Z".toList))
  else none

example : usagePeriod 1709251199 = some "2024-02-29T23:00Z" := by decide +kernel

def digitValue (c : Char) : ℕ := c.toNat - 48

def isAsciiDigit (c : Char) : Bool := '0' ≤ c && c ≤ '9'

def daysInMonth (year month : ℕ) : ℕ :=
  if month = 2 then if year % 4 = 0 ∧ (year % 100 ≠ 0 ∨ year % 400 = 0) then 29 else 28
  else if month = 4 ∨ month = 6 ∨ month = 9 ∨ month = 11 then 30 else 31

/-- `_usage_period` accepts a text. -/
def isUsagePeriod (value : String) : Bool :=
  match value.toList with
  | [y₁, y₂, y₃, y₄, '-', m₁, m₂, '-', d₁, d₂, 'T', h₁, h₂, ':', '0', '0', 'Z'] =>
    let two := fun a b => 10 * digitValue a + digitValue b
    let year := 100 * two y₁ y₂ + two y₃ y₄
    [y₁, y₂, y₃, y₄, m₁, m₂, d₁, d₂, h₁, h₂].all isAsciiDigit && decide (1 ≤ year) &&
      decide (1 ≤ two m₁ m₂ ∧ two m₁ m₂ ≤ 12) &&
      decide (1 ≤ two d₁ d₂ ∧ two d₁ d₂ ≤ daysInMonth year (two m₁ m₂)) &&
      decide (two h₁ h₂ ≤ 23)
  | _ => false

/-! ## The control plane -/

/-- How many periods are kept for each configured tenant. -/
structure UsageRetention where
  usagePeriods : OrderedDict String ℕ
  positive : ∀ tenantId limit, usagePeriods.get? tenantId = some limit → 1 ≤ limit

def withinRange (count : CounterName → ℕ) : Bool :=
  counterNames.all fun name => decide (count name ≤ maxInteger)

def Usage.valid (limit : ℕ) (usage : Usage) : Bool :=
  decide (usage.periods.size ≤ limit) &&
    usage.periods.toList.all (fun p => isUsagePeriod p.1 && withinRange p.2.count) &&
    withinRange usage.cumulative

/-- `_validate_state` on the usage. -/
def validateState (definition : UsageRetention) (state : MeterState) : Bool :=
  definition.usagePeriods.toList.all fun p =>
    match state.usage.get? p.1 with
    | none => false
    | some usage => usage.valid p.2

/-- `setdefault` of the usage of the configured tenants. -/
def addMissing (tenantIds : List String) (usage : OrderedDict String Usage) :
    OrderedDict String Usage :=
  tenantIds.foldl (fun usage tenantId =>
    if (usage.get? tenantId).isSome then usage else usage.set tenantId .empty) usage

/-- The state that a process starts with, and whether it differs from the file. -/
def initialState (definition : UsageRetention) : Option MeterState → MeterState × Bool
  | none => (⟨0, addMissing definition.usagePeriods.keys OrderedDict.empty⟩, true)
  | some loaded =>
    (⟨loaded.meterSequence, addMissing definition.usagePeriods.keys loaded.usage⟩,
      definition.usagePeriods.keys.any fun tenantId => (loaded.usage.get? tenantId).isNone)

/-- `_load_or_initialize_state`; a tenant in the file that is not configured raises. -/
def loadOrInitializeState (definition : UsageRetention) (loaded : Option MeterState) :
    Option (MeterState × Bool) :=
  let (state, changed) := initialState definition loaded
  if state.usage.keys.all (fun tenantId => (definition.usagePeriods.get? tenantId).isSome) &&
      validateState definition state then
    some (state, changed)
  else none

/-- How `_state_store.persist` ends: the file is replaced, or it raises and the file is as it
was, or the process dies before or after the file is replaced.  A state that the rest of
`_validate_state` refuses counts as one that could not be written. -/
inductive WriteOutcome
  | written
  | failed
  | crashed (replaced : Bool)
deriving DecidableEq, Repr

/-- An update of the usage that is in the file. -/
structure UsageUpdate where
  tenantId : String
  period : String
  increments : CounterName → ℕ
  sequence : ℕ
  pruned : List String

/-- The state file, the state of the process while there is one, and what has been
recorded in the file so far. -/
structure MeteredPlane where
  disk : Option MeterState
  memory : Option (UsageRetention × MeterState)
  updates : List UsageUpdate

namespace MeteredPlane

def init : MeteredPlane := ⟨none, none, []⟩

/-- The candidate is written and becomes the state of the process. -/
def commit (definition : UsageRetention) (candidate : MeterState) (recorded : List UsageUpdate)
    (outcome : WriteOutcome) (p : MeteredPlane) : MeteredPlane :=
  match outcome with
  | .written => ⟨some candidate, some (definition, candidate), p.updates ++ recorded⟩
  | .failed => p
  | .crashed true => ⟨some candidate, none, p.updates ++ recorded⟩
  | .crashed false => { p with memory := none }

def updateOf (limit : ℕ) (tenantId period : String) (r : MeteredRequest) (state : MeterState) :
    UsageUpdate where
  tenantId := tenantId
  period := period
  increments := r.increments
  sequence := nextSequence state
  pruned := (state.usage.get? tenantId).elim [] fun usage =>
    dropped limit (usage.recorded period (nextSequence state) r.increments)

/-- `_record_usage`: what raises in the mutation or in the write is logged. -/
def recordUsage (clock : ℚ) (tenantId : String) (r : MeteredRequest) (outcome : WriteOutcome)
    (p : MeteredPlane) : MeteredPlane :=
  match p.memory with
  | none => p
  | some (definition, state) =>
    match definition.usagePeriods.get? tenantId, usagePeriod clock with
    | some limit, some period =>
      match mutation limit tenantId period r state with
      | none => p
      | some candidate =>
        if validateState definition candidate then
          p.commit definition candidate [updateOf limit tenantId period r state] outcome
        else p
    | _, _ => p

/-- A process is started; if the state cannot be loaded or written it ends at once. -/
def start (definition : UsageRetention) (outcome : WriteOutcome) (p : MeteredPlane) : MeteredPlane :=
  match loadOrInitializeState definition p.disk with
  | none => { p with memory := none }
  | some (state, false) => { p with memory := some (definition, state) }
  | some (state, true) => { p with memory := none }.commit definition state [] outcome

end MeteredPlane

inductive MeterEvent
  /-- `acquire_connection`; `refused` when the gate of the tenant raises. -/
  | acquireConnection (clock : ℚ) (tenantId : String) (refused : Bool) (outcome : WriteOutcome)
  | observeTenantRequest (clock : ℚ) (tenantId protocol operation : String)
      (requestBytes responseBytes : ℤ) (success : Bool) (outcome : WriteOutcome)
  | start (definition : UsageRetention) (outcome : WriteOutcome)
  | stop

namespace MeteredPlane

def step (p : MeteredPlane) : MeterEvent → MeteredPlane
  | .acquireConnection clock tenantId refused outcome =>
    if refused then p
    else p.recordUsage clock tenantId ⟨"connection", "open", 0, 0, true, 1⟩ outcome
  | .observeTenantRequest clock tenantId protocol operation requestBytes responseBytes success
      outcome =>
    p.recordUsage clock tenantId
      ⟨protocol, operation, requestBytes.toNat, responseBytes.toNat, success, 0⟩ outcome
  | .start definition outcome => p.start definition outcome
  | .stop => { p with memory := none }

def run (events : List MeterEvent) : MeteredPlane := events.foldl step init

end MeteredPlane

/-! ## The usage of one tenant -/

/-- What a list of updates adds to a counter. -/
def total (name : CounterName) (updates : List UsageUpdate) : ℕ :=
  (updates.map fun u => u.increments name).sum

/-- The updates in a period since it was last created. -/
def recordedIn (period : String) (updates : List UsageUpdate) : List UsageUpdate :=
  updates.foldl (fun found u =>
    if period ∈ u.pruned then [] else if u.period = period then found ++ [u] else found) []

/-- The sum of a counter over the periods that are kept. -/
def Usage.retained (name : CounterName) (usage : Usage) : ℤ :=
  usage.periods.sumBy fun p => p.2.count name

variable {name : CounterName} {updates : List UsageUpdate} {usage : Usage} {limit sequence : ℕ}
variable {period : String} {increments : CounterName → ℕ} {u : UsageUpdate}

@[simp] theorem total_append (updates : List UsageUpdate) (u : UsageUpdate) :
    total name (updates ++ [u]) = total name updates + u.increments name := by
  simp [total]

theorem recordedIn_append (period : String) (updates : List UsageUpdate) (u : UsageUpdate) :
    recordedIn period (updates ++ [u]) =
      if period ∈ u.pruned then []
      else if u.period = period then recordedIn period updates ++ [u]
      else recordedIn period updates := by
  rw [recordedIn, List.foldl_append]
  rfl

theorem mem_of_mem_recordedIn (h : u ∈ recordedIn period updates) : u ∈ updates := by
  induction updates using List.reverseRecOn with
  | nil => exact h
  | append_singleton updates v ih =>
    rw [recordedIn_append] at h
    rw [List.mem_append, List.mem_singleton]
    split_ifs at h
    · cases h
    · exact (List.mem_append.mp h).imp ih List.mem_singleton.mp
    · exact .inl (ih h)

/-- What the counters of a period held before. -/
def Usage.countBefore (usage : Usage) (period : String) (name : CounterName) : ℕ :=
  ((usage.periods.get? period).getD emptyUsageCounters).count name

theorem retained_eq (usage : Usage) (period : String) (name : CounterName) :
    usage.retained name =
      (usage.periods.erase period).sumBy (fun p => p.2.count name) + usage.countBefore period name := by
  unfold Usage.retained Usage.countBefore
  cases h : usage.periods.get? period with
  | none =>
    rw [OrderedDict.erase_eq_self h]
    simp [emptyUsageCounters]
  | some counters =>
    rw [OrderedDict.sumBy_erase h]
    simp

theorem countBefore_le (usage : Usage) (period : String) (name : CounterName) :
    (usage.countBefore period name : ℤ) ≤ usage.retained name := by
  rw [retained_eq usage period name]
  have := (usage.periods.erase period).sumBy_nonneg fun p => Int.natCast_nonneg (p.2.count name)
  omega

/-- The sum over the periods after a request, before periods are deleted. -/
theorem sumBy_recorded :
    (usage.recorded period sequence increments).sumBy (fun p => p.2.count name) =
      usage.retained name - usage.countBefore period name +
        addCapped maxInteger (usage.countBefore period name) (increments name) := by
  rw [Usage.recorded, OrderedDict.sumBy_set, retained_eq usage period name, add_sub_cancel_right]
  rfl

theorem retained_record_le :
    (usage.record limit period sequence increments).retained name ≤
      usage.retained name + increments name := by
  have hdrop := sumBy_retain_le limit (usage.recorded period sequence increments)
    fun p => Int.natCast_nonneg (p.2.count name)
  have hcap := addCapped_le_add maxInteger (usage.countBefore period name) (increments name)
  rw [sumBy_recorded] at hdrop
  apply hdrop.trans
  omega

theorem retained_record_eq
    (hdropped : dropped limit (usage.recorded period sequence increments) = [])
    (hcap : usage.retained name + increments name ≤ maxInteger) :
    (usage.record limit period sequence increments).retained name =
      usage.retained name + increments name := by
  have hsame : (usage.record limit period sequence increments).retained name =
      (usage.recorded period sequence increments).sumBy fun p => p.2.count name :=
    OrderedDict.sumBy_congr (retain_of_dropped hdropped) _
  have hle := countBefore_le usage period name
  rw [hsame, sumBy_recorded, addCapped_eq (by omega)]
  push_cast
  omega

/-- The usage of a tenant after its updates. -/
structure Usage.Accounts (usage : Usage) (updates : List UsageUpdate) : Prop where
  cumulative : ∀ name, usage.cumulative name = min maxInteger (total name updates)
  retained_le : ∀ name, total name updates ≤ maxInteger → usage.retained name ≤ total name updates
  retained_eq : ∀ name, total name updates ≤ maxInteger → (∀ u ∈ updates, u.pruned = []) →
    usage.retained name = total name updates
  sequences : ∀ period counters, usage.periods.get? period = some counters →
    ∃ first last, counters.firstSequence = some first ∧ counters.lastSequence = some last ∧
      ∀ u ∈ recordedIn period updates, first ≤ u.sequence ∧ u.sequence ≤ last
  absent : ∀ period, usage.periods.get? period = none → recordedIn period updates = []

theorem accounts_empty : Usage.empty.Accounts [] where
  cumulative _ := rfl
  retained_le _ _ := le_rfl
  retained_eq _ _ _ := rfl
  sequences _ _ h := by cases h
  absent _ _ := rfl

/-- The counters that `record` leaves in the period of the request. -/
theorem sequences_recorded (h : usage.Accounts updates)
    (hsequence : ∀ v ∈ updates, v.sequence ≤ u.sequence) :
    ∃ first last,
      (((usage.periods.get? u.period).getD emptyUsageCounters).record u.sequence
        u.increments).firstSequence = some first ∧
      (((usage.periods.get? u.period).getD emptyUsageCounters).record u.sequence
        u.increments).lastSequence = some last ∧
      ∀ v ∈ recordedIn u.period updates ++ [u], first ≤ v.sequence ∧ v.sequence ≤ last := by
  refine ⟨_, _, rfl, rfl, fun v hv => ?_⟩
  have hlast : v.sequence ≤ u.sequence := by
    rcases List.mem_append.mp hv with hv | hv
    · exact hsequence v (mem_of_mem_recordedIn hv)
    · rw [List.mem_singleton.mp hv]
  refine ⟨?_, hlast⟩
  cases hget : usage.periods.get? u.period with
  | none =>
    rw [h.absent _ hget, List.nil_append, List.mem_singleton] at hv
    rw [hv]
    exact min_le_right _ _
  | some counters =>
    obtain ⟨first, last, hfirst, -, hall⟩ := h.sequences _ _ hget
    rcases List.mem_append.mp hv with hv | hv
    · apply le_trans (min_le_left _ _)
      simp only [Option.getD_some, hfirst]
      exact (hall v hv).1
    · rw [List.mem_singleton.mp hv]
      exact min_le_right _ _

theorem Usage.Accounts.record (h : usage.Accounts updates)
    (hsequence : ∀ v ∈ updates, v.sequence ≤ u.sequence)
    (hpruned : u.pruned = dropped limit (usage.recorded u.period u.sequence u.increments)) :
    (usage.record limit u.period u.sequence u.increments).Accounts (updates ++ [u]) where
  cumulative name := by
    rw [total_append, ← addCapped_min, ← h.cumulative name]
    rfl
  retained_le name hcap := by
    rw [total_append] at hcap ⊢
    have hbefore := h.retained_le name (by omega)
    apply retained_record_le.trans
    push_cast
    omega
  retained_eq name hcap hnone := by
    rw [total_append] at hcap ⊢
    have hbefore := h.retained_eq name (by omega) fun v hv => hnone v (List.mem_append_left _ hv)
    have hdropped := hnone u (List.mem_append_right _ (List.mem_singleton_self u))
    rw [hpruned] at hdropped
    rw [retained_record_eq hdropped (by omega), hbefore]
    push_cast
    rfl
  sequences period counters hget := by
    have hkept : period ∉ u.pruned := hpruned ▸ notMem_dropped hget
    have hbefore := get?_of_retain hget
    rw [recordedIn_append, if_neg hkept]
    rw [Usage.recorded, OrderedDict.get?_set] at hbefore
    split_ifs at hbefore ⊢ with hperiod hsame hsame
    · subst hperiod
      cases hbefore
      exact sequences_recorded h hsequence
    · exact absurd hperiod.symm hsame
    · exact absurd hsame.symm hperiod
    · exact h.sequences _ _ hbefore
  absent period hget := by
    rw [recordedIn_append]
    split_ifs with hdropped hsame
    · rfl
    · -- the period of the request is there unless it was dropped
      rw [hpruned] at hdropped
      subst hsame
      have hrecorded := (get?_retain hdropped).symm.trans hget
      rw [Usage.recorded, OrderedDict.get?_set_self] at hrecorded
      cases hrecorded
    · rw [hpruned] at hdropped
      have hrecorded := (get?_retain hdropped).symm.trans hget
      rw [Usage.recorded, OrderedDict.get?_set, if_neg (Ne.symm hsame)] at hrecorded
      exact h.absent _ hrecorded

/-! ## The whole state -/

def ofTenant (tenantId : String) (updates : List UsageUpdate) : List UsageUpdate :=
  updates.filter fun u => u.tenantId = tenantId

theorem ofTenant_append (tenantId : String) (updates : List UsageUpdate) (u : UsageUpdate) :
    ofTenant tenantId (updates ++ [u]) =
      if u.tenantId = tenantId then ofTenant tenantId updates ++ [u]
      else ofTenant tenantId updates := by
  unfold ofTenant
  rw [List.filter_append]
  split_ifs with h <;> simp [h]

/-- The usage in a state is that of the updates. -/
structure MeterState.Accounts (state : MeterState) (updates : List UsageUpdate) : Prop where
  sequence : state.meterSequence = min maxInteger updates.length
  sequence_le : ∀ u ∈ updates, u.sequence ≤ state.meterSequence
  known : ∀ u ∈ updates, state.usage.get? u.tenantId ≠ none
  usage : ∀ tenantId usage, state.usage.get? tenantId = some usage →
    usage.Accounts (ofTenant tenantId updates)

variable {state candidate : MeterState} {tenantId : String} {r : MeteredRequest}
variable {definition : UsageRetention} {p : MeteredPlane}

theorem ofTenant_of_unknown (h : state.Accounts updates) (hget : state.usage.get? tenantId = none) :
    ofTenant tenantId updates = [] := by
  apply List.filter_eq_nil_iff.mpr
  intro u hu
  simp only [decide_eq_true_eq]
  rintro rfl
  exact h.known u hu hget

theorem le_nextSequence (h : state.Accounts updates) : state.meterSequence ≤ nextSequence state := by
  have hle : state.meterSequence ≤ maxInteger := h.sequence ▸ min_le_left _ _
  unfold nextSequence
  omega

theorem mutation_cases (h : mutation limit tenantId period r state = some candidate) :
    ∃ usage, state.usage.get? tenantId = some usage ∧
      candidate = ⟨nextSequence state, state.usage.set tenantId
        (usage.record limit period (nextSequence state) r.increments)⟩ := by
  obtain ⟨usage, hget, rfl⟩ := Option.map_eq_some_iff.mp h
  exact ⟨usage, hget, rfl⟩

/-- One metered request, if its state is written. -/
theorem MeterState.Accounts.mutation (h : state.Accounts updates)
    (hm : mutation limit tenantId period r state = some candidate) :
    candidate.Accounts (updates ++ [MeteredPlane.updateOf limit tenantId period r state]) := by
  obtain ⟨usage, hget, rfl⟩ := mutation_cases hm
  have hle := le_nextSequence h
  constructor
  · have hsequence := h.sequence
    simp only [nextSequence, List.length_append, List.length_singleton]
    omega
  · intro u hu
    rcases List.mem_append.mp hu with hu | hu
    · exact (h.sequence_le u hu).trans hle
    · rw [List.mem_singleton.mp hu]
      exact le_rfl
  · intro u hu
    rw [OrderedDict.get?_set]
    split_ifs with hsame
    · exact Option.some_ne_none _
    · rcases List.mem_append.mp hu with hu | hu
      · exact h.known u hu
      · rw [List.mem_singleton.mp hu] at hsame
        exact absurd rfl hsame
  · intro other found hfound
    rw [OrderedDict.get?_set] at hfound
    have htenant : (MeteredPlane.updateOf limit tenantId period r state).tenantId = tenantId := rfl
    rw [ofTenant_append, htenant]
    split_ifs at hfound with hsame
    · rw [hsame, if_pos rfl]
      cases hfound
      have hpruned : (MeteredPlane.updateOf limit tenantId period r state).pruned =
          dropped limit (usage.recorded period (nextSequence state) r.increments) := by
        simp only [MeteredPlane.updateOf, hget, Option.elim]
      exact (h.usage _ _ hget).record
        (fun v hv => (h.sequence_le v (List.mem_filter.mp hv).1).trans hle) hpruned
    · rw [if_neg fun heq => hsame (Eq.symm heq)]
      exact h.usage _ _ hfound

/-! ## Checks -/

theorem validateState_iff : validateState definition state = true ↔
    ∀ tenantId limit, definition.usagePeriods.get? tenantId = some limit →
      ∃ usage, state.usage.get? tenantId = some usage ∧ usage.valid limit = true := by
  unfold validateState
  rw [List.all_eq_true]
  constructor
  · intro h tenantId limit hlimit
    have hone := h (tenantId, limit) (OrderedDict.mem_toList.mpr hlimit)
    dsimp only at hone
    split at hone
    · cases hone
    · exact ⟨_, ‹_›, hone⟩
  · rintro h ⟨tenantId, limit⟩ hmem
    obtain ⟨usage, hget, hvalid⟩ := h tenantId limit (OrderedDict.mem_toList.mp hmem)
    dsimp only
    rw [hget]
    exact hvalid

theorem withinRange_addIncrements (count increments : CounterName → ℕ) :
    withinRange (addIncrements count increments) = true := by
  apply List.all_eq_true.mpr
  intro name _
  exact decide_eq_true (addCapped_le _ _ _)

theorem valid_iff : usage.valid limit = true ↔ usage.periods.size ≤ limit ∧
    (∀ period counters, usage.periods.get? period = some counters →
      isUsagePeriod period = true ∧ withinRange counters.count = true) ∧
    withinRange usage.cumulative = true := by
  unfold Usage.valid
  rw [Bool.and_eq_true, Bool.and_eq_true, decide_eq_true_eq, List.all_eq_true, and_assoc]
  simp only [Prod.forall, OrderedDict.mem_toList, Bool.and_eq_true]

theorem valid_record (h : usage.valid limit = true) (hperiod : isUsagePeriod period = true) :
    (usage.record limit period sequence increments).valid limit = true := by
  obtain ⟨-, hperiods, -⟩ := valid_iff.mp h
  refine valid_iff.mpr ⟨size_retain_le _ _, ?_, withinRange_addIncrements _ _⟩
  intro other counters hget
  have hbefore := get?_of_retain hget
  rw [Usage.recorded, OrderedDict.get?_set] at hbefore
  split_ifs at hbefore with hsame
  · subst hsame
    cases hbefore
    exact ⟨hperiod, withinRange_addIncrements _ _⟩
  · exact hperiods _ _ hbefore

/-- A request leaves a state that passes the check. -/
theorem validateState_mutation (h : validateState definition state = true)
    (hlimit : definition.usagePeriods.get? tenantId = some limit)
    (hperiod : isUsagePeriod period = true)
    (hm : mutation limit tenantId period r state = some candidate) :
    validateState definition candidate = true := by
  obtain ⟨usage, hget, rfl⟩ := mutation_cases hm
  rw [validateState_iff] at h ⊢
  intro other bound hbound
  obtain ⟨found, hfound, hvalid⟩ := h other bound hbound
  simp only [OrderedDict.get?_set]
  split_ifs with hsame
  · subst hsame
    rw [hlimit] at hbound
    rw [hget] at hfound
    cases hbound
    cases hfound
    exact ⟨_, rfl, valid_record hvalid hperiod⟩
  · exact ⟨found, hfound, hvalid⟩

/-! ## Runs -/

/-- The state of the process is the one in the file, and both are those of the updates. -/
structure MeteredPlane.Inv (p : MeteredPlane) : Prop where
  memory : ∀ definition state, p.memory = some (definition, state) →
    p.disk = some state ∧ validateState definition state = true
  disk : ∀ state, p.disk = some state → state.Accounts p.updates
  fresh : p.disk = none → p.updates = []
  sequences : ∀ i u, p.updates[i]? = some u → u.sequence = min maxInteger (i + 1)

theorem init_inv : MeteredPlane.init.Inv where
  memory _ _ h := by cases h
  disk _ h := by cases h
  fresh _ := rfl
  sequences _ _ h := by cases h

theorem MeteredPlane.Inv.stop (h : p.Inv) : { p with memory := none }.Inv where
  memory _ _ hmem := by cases hmem
  disk := h.disk
  fresh := h.fresh
  sequences := h.sequences

theorem MeteredPlane.Inv.commit (h : p.Inv) {recorded : List UsageUpdate}
    (hvalid : validateState definition candidate = true)
    (haccounts : candidate.Accounts (p.updates ++ recorded))
    (hsequences : ∀ i u, (p.updates ++ recorded)[i]? = some u → u.sequence = min maxInteger (i + 1))
    (outcome : WriteOutcome) : (p.commit definition candidate recorded outcome).Inv := by
  match outcome with
  | .written =>
    refine ⟨fun _ _ hmem => ?_, fun _ hdisk => ?_, fun hdisk => ?_, hsequences⟩
    · cases hmem
      exact ⟨rfl, hvalid⟩
    · cases hdisk
      exact haccounts
    · cases hdisk
  | .failed => exact h
  | .crashed true =>
    refine ⟨fun _ _ hmem => ?_, fun _ hdisk => ?_, fun hdisk => ?_, hsequences⟩
    · cases hmem
    · cases hdisk
      exact haccounts
    · cases hdisk
  | .crashed false => exact h.stop

theorem MeteredPlane.Inv.recordUsage (h : p.Inv) (clock : ℚ) (tenantId : String)
    (r : MeteredRequest) (outcome : WriteOutcome) :
    (p.recordUsage clock tenantId r outcome).Inv := by
  unfold MeteredPlane.recordUsage
  split
  · exact h
  · rename_i definition state hmemory
    obtain ⟨hdisk, -⟩ := h.memory _ _ hmemory
    split
    · split
      · exact h
      · rename_i limit period _ _ candidate hm
        split_ifs with hvalid
        · apply h.commit hvalid ((h.disk _ hdisk).mutation hm)
          intro i u hu
          rw [List.getElem?_append] at hu
          split_ifs at hu with hlt
          · exact h.sequences i u hu
          · -- the sequence of the new update
            have hi : i = p.updates.length := by
              have := (List.getElem?_eq_some_iff.mp hu).1
              simp only [List.length_singleton] at this
              omega
            subst hi
            simp only [Nat.sub_self, List.getElem?_cons_zero, Option.some.injEq] at hu
            rw [← hu]
            have hsequence := (h.disk _ hdisk).sequence
            simp only [MeteredPlane.updateOf, nextSequence]
            omega
        · exact h
    · exact h

/-- Tenants that are added to a state have no usage and no updates. -/
theorem accounts_setEmpty (h : state.Accounts updates) (hget : state.usage.get? tenantId = none) :
    MeterState.Accounts ⟨state.meterSequence, state.usage.set tenantId .empty⟩ updates where
  sequence := h.sequence
  sequence_le := h.sequence_le
  known u hu := by
    rw [OrderedDict.get?_set]
    split_ifs
    · exact Option.some_ne_none _
    · exact h.known u hu
  usage other found hfound := by
    rw [OrderedDict.get?_set] at hfound
    split_ifs at hfound with hsame
    · cases hfound
      rw [hsame, ofTenant_of_unknown h hget]
      exact accounts_empty
    · exact h.usage _ _ hfound

theorem accounts_addMissing (tenantIds : List String) (h : state.Accounts updates) :
    MeterState.Accounts ⟨state.meterSequence, addMissing tenantIds state.usage⟩ updates := by
  induction tenantIds generalizing state with
  | nil => exact h
  | cons tenantId tenantIds ih =>
    rw [addMissing, List.foldl_cons]
    split_ifs with hknown
    · exact ih h
    · exact ih (accounts_setEmpty h (Option.not_isSome_iff_eq_none.mp hknown))

theorem accounts_nil : MeterState.Accounts ⟨0, OrderedDict.empty⟩ [] where
  sequence := rfl
  sequence_le _ h := by cases h
  known _ h := by cases h
  usage _ _ h := by cases h

theorem addMissing_of_known {tenantIds : List String} {found : OrderedDict String Usage}
    (h : ∀ tenantId ∈ tenantIds, (found.get? tenantId).isSome) : addMissing tenantIds found = found := by
  induction tenantIds with
  | nil => rfl
  | cons tenantId tenantIds ih =>
    rw [addMissing, List.foldl_cons, if_pos (h _ (List.mem_cons_self ..))]
    exact ih fun other hother => h other (List.mem_cons_of_mem _ hother)

/-- What a process starts with has the usage that the file has. -/
theorem MeteredPlane.Inv.initialState (h : p.Inv) (definition : UsageRetention) :
    (initialState definition p.disk).1.Accounts p.updates := by
  cases hdisk : p.disk with
  | none =>
    rw [h.fresh hdisk]
    exact accounts_addMissing _ accounts_nil
  | some loaded => exact accounts_addMissing _ (h.disk _ hdisk)

theorem initialState_unchanged {loaded : Option MeterState}
    (h : (initialState definition loaded).2 = false) :
    loaded = some (initialState definition loaded).1 := by
  cases loaded with
  | none => cases h
  | some loaded =>
    simp only [initialState, List.any_eq_false, Option.isNone_iff_eq_none] at h
    rw [initialState, addMissing_of_known]
    exact fun tenantId hmem => Option.isSome_iff_ne_none.mpr (h tenantId hmem)

theorem loadOrInitializeState_cases {loaded : Option MeterState} {changed : Bool}
    (h : loadOrInitializeState definition loaded = some (state, changed)) :
    initialState definition loaded = (state, changed) ∧ validateState definition state = true := by
  unfold loadOrInitializeState at h
  dsimp only at h
  split_ifs at h with hcheck
  rw [Option.some.injEq] at h
  have hstate : (initialState definition loaded).1 = state := congrArg Prod.fst h
  rw [hstate] at hcheck
  exact ⟨h, (Bool.and_eq_true_iff.mp hcheck).2⟩

theorem MeteredPlane.Inv.start (h : p.Inv) (definition : UsageRetention) (outcome : WriteOutcome) :
    (p.start definition outcome).Inv := by
  have haccounts := h.initialState definition
  unfold MeteredPlane.start
  split
  · exact h.stop
  · rename_i state hload
    obtain ⟨hinitial, hvalid⟩ := loadOrInitializeState_cases hload
    have hsame := initialState_unchanged (congrArg Prod.snd hinitial)
    rw [hinitial] at hsame
    refine ⟨fun _ _ hmem => ?_, h.disk, h.fresh, h.sequences⟩
    cases hmem
    exact ⟨hsame, hvalid⟩
  · rename_i state hload
    obtain ⟨hinitial, hvalid⟩ := loadOrInitializeState_cases hload
    rw [hinitial] at haccounts
    apply h.stop.commit hvalid
    · rw [List.append_nil]
      exact haccounts
    · rw [List.append_nil]
      exact h.sequences

theorem MeteredPlane.Inv.step (h : p.Inv) (event : MeterEvent) : (p.step event).Inv := by
  cases event with
  | acquireConnection clock tenantId refused outcome =>
    simp only [MeteredPlane.step]
    split_ifs
    · exact h
    · exact h.recordUsage _ _ _ _
  | observeTenantRequest => exact h.recordUsage _ _ _ _
  | start definition outcome => exact h.start _ _
  | stop => exact h.stop

theorem run_inv (events : List MeterEvent) : (MeteredPlane.run events).Inv := by
  induction events using List.reverseRecOn with
  | nil => exact init_inv
  | append_singleton events event ih =>
    rw [MeteredPlane.run, List.foldl_append]
    exact ih.step event

/-- The usage in the file, and in the process, is that of the updates that were written:
the cumulative counters are their capped sums, the periods that are kept hold no more, and
all of it while none was dropped; the sequences of a period bracket those of its updates,
and the updates are numbered up to the cap. -/
theorem usage_conservation (events : List MeterEvent) :
    (∀ state, (MeteredPlane.run events).disk = some state →
      state.meterSequence = min maxInteger (MeteredPlane.run events).updates.length ∧
      (∀ u ∈ (MeteredPlane.run events).updates, state.usage.get? u.tenantId ≠ none) ∧
      ∀ tenantId usage, state.usage.get? tenantId = some usage →
        (∀ name, usage.cumulative name =
          min maxInteger (total name (ofTenant tenantId (MeteredPlane.run events).updates))) ∧
        (∀ name, total name (ofTenant tenantId (MeteredPlane.run events).updates) ≤ maxInteger →
          usage.retained name ≤ usage.cumulative name ∧
          ((∀ u ∈ ofTenant tenantId (MeteredPlane.run events).updates, u.pruned = []) →
            usage.retained name = usage.cumulative name)) ∧
        ∀ period counters, usage.periods.get? period = some counters →
          ∃ first last, counters.firstSequence = some first ∧ counters.lastSequence = some last ∧
            ∀ u ∈ recordedIn period (ofTenant tenantId (MeteredPlane.run events).updates),
              first ≤ u.sequence ∧ u.sequence ≤ last) ∧
      ((MeteredPlane.run events).disk = none → (MeteredPlane.run events).updates = []) ∧
      (∀ definition state, (MeteredPlane.run events).memory = some (definition, state) →
        (MeteredPlane.run events).disk = some state) ∧
      ∀ i u, (MeteredPlane.run events).updates[i]? = some u → u.sequence = min maxInteger (i + 1) := by
  have hinv := run_inv events
  refine ⟨fun state hdisk => ?_, hinv.fresh, fun _ _ h => (hinv.memory _ _ h).1, hinv.sequences⟩
  have haccounts := hinv.disk state hdisk
  refine ⟨haccounts.sequence, haccounts.known, fun tenantId usage hget => ?_⟩
  have husage := haccounts.usage tenantId usage hget
  refine ⟨husage.cumulative, fun name hcap => ?_, husage.sequences⟩
  have hcumulative : usage.cumulative name =
      total name (ofTenant tenantId (MeteredPlane.run events).updates) := by
    rw [husage.cumulative name]
    exact min_eq_right hcap
  rw [hcumulative]
  exact ⟨husage.retained_le name hcap, husage.retained_eq name hcap⟩

/-! ## The end of the sequence -/

/-- A request of a configured tenant is recorded when the state can be written. -/
theorem recordUsage_written {clock : ℚ} (h : p.Inv) (hmemory : p.memory = some (definition, state))
    (hlimit : definition.usagePeriods.get? tenantId = some limit)
    (hclock : usagePeriod clock = some period) (hperiod : isUsagePeriod period = true) :
    (p.recordUsage clock tenantId r .written).updates.length = p.updates.length + 1 ∧
      ∃ candidate, (p.recordUsage clock tenantId r .written).memory = some (definition, candidate) := by
  have hvalid := (h.memory _ _ hmemory).2
  obtain ⟨usage, hget, -⟩ := validateState_iff.mp hvalid _ _ hlimit
  have hm : mutation limit tenantId period r state = some
      ⟨nextSequence state, state.usage.set tenantId
        (usage.record limit period (nextSequence state) r.increments)⟩ := by
    rw [mutation, hget]
    rfl
  have hcandidate := validateState_mutation hvalid hlimit hperiod hm
  unfold MeteredPlane.recordUsage
  simp only [hmemory, hlimit, hclock, hm, hcandidate, if_true, MeteredPlane.commit,
    List.length_append, List.length_singleton, true_and]
  exact ⟨_, rfl⟩

def oneTenant : UsageRetention where
  usagePeriods := OrderedDict.empty.set "tenant" 1
  positive := by
    intro tenantId limit h
    rw [OrderedDict.get?_set] at h
    split_ifs at h
    · cases h
      exact le_rfl
    · cases h

/-- A connection of the tenant is opened, and the state written. -/
def opened : MeterEvent := .acquireConnection 0 "tenant" false .written

theorem run_opened (n : ℕ) :
    (MeteredPlane.run (.start oneTenant .written :: List.replicate n opened)).updates.length = n ∧
      ∃ state, (MeteredPlane.run (.start oneTenant .written :: List.replicate n opened)).memory =
        some (oneTenant, state) := by
  induction n with
  | zero => exact ⟨rfl, _, rfl⟩
  | succ n ih =>
    obtain ⟨hlength, state, hmemory⟩ := ih
    have hclock : usagePeriod 0 = some "1970-01-01T00:00Z" := by decide +kernel
    have hnext := @recordUsage_written 1 "1970-01-01T00:00Z" _ "tenant"
      ⟨"connection", "open", 0, 0, true, 1⟩ _ _ 0 (run_inv _) hmemory (by decide) hclock (by decide)
    rw [hlength] at hnext
    have hrun : MeteredPlane.run (.start oneTenant .written :: List.replicate (n + 1) opened) =
        (MeteredPlane.run (.start oneTenant .written :: List.replicate n opened)).step opened := by
      rw [List.replicate_succ', ← List.cons_append, MeteredPlane.run, List.foldl_append]
      rfl
    rw [hrun]
    exact hnext

/-- After `2 ^ 63 - 1` updates the sequence stays where it is. -/
theorem sequence_stops : ¬ ∀ (events : List MeterEvent) (i : ℕ) (u : UsageUpdate),
    (MeteredPlane.run events).updates[i]? = some u → u.sequence = i + 1 := by
  intro h
  obtain ⟨hlength, -⟩ := run_opened (maxInteger + 1)
  have hlt : maxInteger < (MeteredPlane.run
      (.start oneTenant .written :: List.replicate (maxInteger + 1) opened)).updates.length := by
    rw [hlength]
    exact Nat.lt_succ_self _
  have hget := List.getElem?_eq_getElem hlt
  have hcapped := (run_inv _).sequences _ _ hget
  rw [h _ _ _ hget] at hcapped
  omega

end Controlplane
end MegaCache
