import MegaCache.Origin.Types

/-!
# Requests under admission control

Any number of `_request_with_retries` calls share a service: its shutdown flag, the global
budget and, for each origin, a budget, a breaker and a bucket of retry tokens.  Every block
under a lock is one step of a call, and so are the reads of the shutdown flag, the resolver
and the transport.  The steps of different calls come in any order, between clock advances
and the steps of `begin_shutdown`.
-/

namespace MegaCache
namespace Origin

/-- `_AdmissionBudget`. -/
structure AdmissionBudget where
  maximum : ℕ
  maximumQueue : ℕ
  active : ℤ
  waiting : ℤ
  rejected : ℕ
  closed : Bool
deriving DecidableEq, Repr

/-- How `acquire` goes on when it lets go of the lock. -/
inductive Admission
  | admitted
  | refused (e : OriginError)
  | waits
deriving DecidableEq, Repr

def shutDown : OriginError := .unavailable "origin service is shutting down"

namespace AdmissionBudget

def init (maximum maximumQueue : ℕ) : AdmissionBudget := ⟨maximum, maximumQueue, 0, 0, 0, false⟩

/-- One pass of the loop in `acquire`; `expired` says that no time remains. -/
def retry (expired : Bool) (b : AdmissionBudget) : Admission × AdmissionBudget :=
  if b.maximum ≤ b.active then
    if expired then
      (.refused (.overloaded "origin request queue wait timed out"),
        { b with rejected := b.rejected + 1, waiting := b.waiting - 1 })
    else (.waits, b)
  else (.admitted, { b with active := b.active + 1, waiting := b.waiting - 1 })

/-- `acquire` up to its first wait. -/
def acquire (expired : Bool) (b : AdmissionBudget) : Admission × AdmissionBudget :=
  if b.closed then (.refused shutDown, b)
  else if b.active < b.maximum then (.admitted, { b with active := b.active + 1 })
  else if b.maximumQueue ≤ b.waiting then
    (.refused (.overloaded "origin request queue is full"), { b with rejected := b.rejected + 1 })
  else retry expired { b with waiting := b.waiting + 1 }

/-- A wait of `acquire` ends. -/
def wake (expired : Bool) (b : AdmissionBudget) : Admission × AdmissionBudget :=
  if b.closed then (.refused shutDown, { b with waiting := b.waiting - 1 })
  else retry expired b

def release (b : AdmissionBudget) : AdmissionBudget := { b with active := b.active - 1 }

def close (b : AdmissionBudget) : AdmissionBudget := { b with closed := true }

end AdmissionBudget

/-- The parts of `_OriginRuntime` that requests write; `granted` counts the retries allowed. -/
structure Runtime where
  admission : AdmissionBudget
  breaker : Breaker
  retryTokens : ℚ
  retryUpdatedAt : ℚ
  granted : ℕ
deriving DecidableEq, Repr

namespace Runtime

variable (origin : HTTPOrigin)

def init (start : ℚ) : Runtime :=
  ⟨.init origin.maxConcurrency origin.maxQueue, .init, origin.retryBudgetCapacity, start, 0⟩

/-- The tokens after the refill that `consume_retry` starts with. -/
def refilled (now : ℚ) (r : Runtime) : ℚ :=
  min origin.retryBudgetCapacity
    (r.retryTokens + max 0 (now - r.retryUpdatedAt) * origin.retryBudgetRefillPerSecond)

def consumeRetry (now : ℚ) (r : Runtime) : Bool × Runtime :=
  if r.refilled origin now < 1 then
    (false, { r with retryTokens := r.refilled origin now, retryUpdatedAt := now })
  else
    (true, { r with
      retryTokens := r.refilled origin now - 1
      retryUpdatedAt := now
      granted := r.granted + 1 })

end Runtime

/-- An exception, by the first `except` clause that matches it. -/
inductive Raised
  | origin (e : OriginError)
  | nonRetryable (message : String)
  /-- `OSError`, `TimeoutError` or `HTTPException` -/
  | io (message : String)
  | other (message : String)
deriving DecidableEq, Repr

/-- What the transport returns. -/
inductive Response
  | response (status : ℤ) (body : List UInt8)
  | other
deriving DecidableEq, Repr

/-- How the `try` block of one attempt ends. -/
inductive Ending
  | returns (status : ℤ) (body : List UInt8)
  | raises (e : Raised)
  | fails (error : Raised)
deriving DecidableEq, Repr

/-- Where a call is. -/
inductive Place
  /-- the top of the loop -/
  | loops
  | asks
  | acquiresGlobal
  | waitsGlobal
  | acquiresOrigin
  | waitsOrigin
  | resolves
  | sends
  /-- a response arrived; the shutdown flag is read next -/
  | received (response : Response)
  | judges (response : Response)
  | raised (e : Raised)
  | releasesOrigin (ending : Ending)
  | releasesGlobal (ending : Ending)
  /-- after the `try` block -/
  | concludes (error : Raised)
  | sleeps
  | returned (status : ℤ) (body : List UInt8)
  | ended (e : Raised)
deriving DecidableEq, Repr

/-- The call has returned or raised. -/
def Place.isExit : Place → Bool
  | .returned _ _ | .ended _ => true
  | _ => false

/-- A call of `_request_with_retries`.  The last four fields record what it did: slots taken
less slots released, how often each of its half-open probes was settled, newest first, and the
retries it was granted. -/
structure Request where
  runtime : ℕ
  place : Place
  attempts : ℕ
  halfOpen : Bool
  acquiredGlobal : Bool
  acquiredOrigin : Bool
  breakerRecorded : Bool
  globalSlots : ℤ
  originSlots : ℤ
  probes : List ℕ
  granted : ℕ
deriving DecidableEq, Repr

/-- What the address checks say about a resolved address. -/
inductive AddressVerdict
  | allowed
  | invalid
  | blocked (address : String)
deriving DecidableEq, Repr

/-- The configuration of a service; `inspect` stands for `ipaddress.ip_address` and
`_address_is_allowed`. -/
structure TrafficConfig where
  origins : ℕ → HTTPOrigin
  globalMaxConcurrency : ℕ
  globalMaxQueue : ℕ
  start : ℚ
  inspect : HTTPOrigin → String → AddressVerdict

/-- `_validated_addresses`, given what the resolver returned or raised. -/
def validatedAddresses (c : TrafficConfig) (origin : HTTPOrigin)
    (resolved : Except Raised (List String)) : Except Raised (List String) :=
  if origin.host ∉ origin.allowedHosts ∨ origin.port ∉ origin.allowedPorts then
    .error (.origin (.policy "origin authority is not allowed"))
  else
    match resolved with
    | .error e => .error e
    | .ok found =>
      if found.eraseDups = [] then
        .error (.origin (.unavailable "origin DNS resolution returned no addresses"))
      else
        match found.eraseDups.findSome? fun text =>
          match c.inspect origin text with
          | .allowed => none
          | .invalid => some "origin resolver returned an invalid address"
          | .blocked address => some (String.join
            ["origin resolved to non-public or special-use address ", address,
              " without an explicit network allowlist"]) with
        | some message => .error (.origin (.policy message))
        | none => .ok found.eraseDups

/-- `_RETRYABLE_STATUS` -/
def retryableStatus : List ℤ := [408, 425, 429, 500, 502, 503, 504]

/-- A call with the budgets and the runtime that it works on. -/
structure Working where
  call : Request
  global : AdmissionBudget
  runtime : Runtime

namespace Working

def goto (w : Working) (place : Place) : Working := { w with call := { w.call with place := place } }

/-- The probe of this attempt, if it is one, is settled once more. -/
def settled (w : Working) (breaker : Breaker) : Working :=
  { w with
    call := { w.call with
      probes := if w.call.halfOpen then w.call.probes.modifyHead (· + 1) else w.call.probes }
    runtime := { w.runtime with breaker := breaker } }

variable (origin : HTTPOrigin) (now : ℚ)

def success (w : Working) : Working := w.settled (w.runtime.breaker.success w.call.halfOpen)

def failure (w : Working) : Working :=
  w.settled (w.runtime.breaker.failure origin now w.call.halfOpen)

def cancelProbe (w : Working) : Working := w.settled (w.runtime.breaker.cancelProbe w.call.halfOpen)

/-- `runtime.success(half_open); breaker_recorded = True` -/
def recordSuccess (w : Working) : Working :=
  { w.success with call := { w.success.call with breakerRecorded := true } }

def recordFailure (w : Working) : Working :=
  { w.failure origin now with call := { (w.failure origin now).call with breakerRecorded := true } }

/-- `allow_request` and the assignments before the `try` block. -/
def allowRequest (w : Working) : Working :=
  match w.runtime.breaker.allowRequest origin now with
  | (none, b) =>
    { w with runtime := { w.runtime with breaker := b } }.goto
      (.ended (.origin (.circuitOpen (if b.state = BreakerState.opened
        then "origin circuit breaker is open"
        else "origin circuit breaker half-open probe is busy"))))
  | (some halfOpen, b) =>
    { w with
      runtime := { w.runtime with breaker := b }
      call := { w.call with
        place := .acquiresGlobal
        halfOpen := halfOpen
        acquiredGlobal := false
        acquiredOrigin := false
        breakerRecorded := false
        probes := if halfOpen then 0 :: w.call.probes else w.call.probes } }

/-- What became of the slot of the global budget. -/
def globalAdmission (w : Working) : Admission × AdmissionBudget → Working
  | (.admitted, b) =>
    { w with
      global := b
      call := { w.call with
        place := .acquiresOrigin
        acquiredGlobal := true
        globalSlots := w.call.globalSlots + 1 } }
  | (.refused e, b) => { w with global := b }.goto (.raised (.origin e))
  | (.waits, b) => { w with global := b }.goto .waitsGlobal

/-- What became of the slot of the origin's budget. -/
def originAdmission (w : Working) : Admission × AdmissionBudget → Working
  | (.admitted, b) =>
    { w with
      runtime := { w.runtime with admission := b }
      call := { w.call with
        place := .resolves
        acquiredOrigin := true
        originSlots := w.call.originSlots + 1 } }
  | (.refused e, b) =>
    { w with runtime := { w.runtime with admission := b } }.goto (.raised (.origin e))
  | (.waits, b) => { w with runtime := { w.runtime with admission := b } }.goto .waitsOrigin

/-- The checks of a response, up to the end of the `try` block. -/
def judge (w : Working) : Response → Working
  | .other =>
    w.goto (.raised (.origin (.unavailable "origin transport returned an invalid response")))
  | .response status body =>
    if status < 100 ∨ 599 < status then
      w.goto (.raised (.origin (.unavailable "origin transport returned an invalid response")))
    else if origin.maxResponseBytes < body.length then
      w.goto (.raised (.origin (.unavailable "origin response exceeds configured limit")))
    else if status ∈ origin.negativeStatuses.map Int.ofNat then
      w.recordSuccess.goto (.releasesOrigin (.returns status body))
    else if 200 ≤ status ∧ status ≤ 299 then
      w.recordSuccess.goto (.releasesOrigin (.returns status body))
    else if status ∉ retryableStatus then
      w.recordSuccess.goto (.raised (.nonRetryable ("origin returned HTTP " ++ toString status)))
    else
      (w.recordFailure origin now).goto (.releasesOrigin (.fails
        (.origin (.unavailable ("origin returned HTTP " ++ toString status)))))

/-- The `except OriginUnavailable` clause. -/
def handleUnavailable (w : Working) (closed : Bool) (e : Raised) : Working :=
  if closed then w.cancelProbe.goto (.releasesOrigin (.raises e))
  else if w.call.breakerRecorded then w.goto (.releasesOrigin (.fails e))
  else (w.failure origin now).goto (.releasesOrigin (.fails e))

/-- The `except` clauses. -/
def handle (w : Working) (closed : Bool) : Raised → Working
  | .origin (.circuitOpen message) =>
    w.goto (.releasesOrigin (.raises (.origin (.circuitOpen message))))
  | .origin (.overloaded message) =>
    w.cancelProbe.goto (.releasesOrigin (.raises (.origin (.overloaded message))))
  | .origin (.policy message) =>
    w.cancelProbe.goto (.releasesOrigin (.raises (.origin (.policy message))))
  | .origin (.unavailable message) =>
    w.handleUnavailable origin now closed (.origin (.unavailable message))
  | .nonRetryable message => w.handleUnavailable origin now closed (.nonRetryable message)
  | .io message =>
    (w.failure origin now).goto (.releasesOrigin (.fails
      (.origin (.unavailable ("origin request failed: " ++ message)))))
  | .other message => w.goto (.releasesOrigin (.raises (.other message)))

/-- The end of the `finally` block. -/
def finish (w : Working) : Ending → Working
  | .returns status body => w.goto (.returned status body)
  | .raises e => w.goto (.ended e)
  | .fails error => w.goto (.concludes error)

def isNonRetryable : Raised → Bool
  | .nonRetryable _ => true
  | _ => false

/-- The decision to try again. -/
def conclude (w : Working) (error : Raised) : Working :=
  if isNonRetryable error ∨ origin.retryAttempts < w.call.attempts then w.goto (.ended error)
  else
    match w.runtime.consumeRetry origin now with
    | (false, r) => { w with runtime := r }.goto (.ended error)
    | (true, r) =>
      { w with
        runtime := r
        call := { w.call with place := .sleeps, granted := w.call.granted + 1 } }

/-- The next step of a call that does not wait for the resolver, the transport or the backoff.
`closed` is the shutdown flag. -/
def proceed (closed expired : Bool) (w : Working) : Working :=
  match w.call.place with
  | .loops =>
    if closed then w.goto (.ended (.origin shutDown))
    else { w with call := { w.call with place := .asks, attempts := w.call.attempts + 1 } }
  | .asks => w.allowRequest origin now
  | .acquiresGlobal => w.globalAdmission (w.global.acquire expired)
  | .waitsGlobal => w.globalAdmission (w.global.wake expired)
  | .acquiresOrigin => w.originAdmission (w.runtime.admission.acquire expired)
  | .waitsOrigin => w.originAdmission (w.runtime.admission.wake expired)
  | .received response =>
    if closed then w.goto (.raised (.origin shutDown)) else w.goto (.judges response)
  | .judges response => w.judge origin now response
  | .raised e => w.handle origin now closed e
  | .releasesOrigin ending =>
    if w.call.acquiredOrigin then
      { w with
        runtime := { w.runtime with admission := w.runtime.admission.release }
        call := { w.call with
          place := .releasesGlobal ending
          originSlots := w.call.originSlots - 1 } }
    else w.goto (.releasesGlobal ending)
  | .releasesGlobal ending =>
    if w.call.acquiredGlobal then
      { w with
        global := w.global.release
        call := { w.call with globalSlots := w.call.globalSlots - 1 } }.finish ending
    else w.finish ending
  | .concludes error => w.conclude origin now error
  | .resolves | .sends | .sleeps | .returned _ _ | .ended _ => w

/-- The resolver returned or raised. -/
def resolved (c : TrafficConfig) (result : Except Raised (List String)) (w : Working) : Working :=
  match w.call.place with
  | .resolves =>
    match validatedAddresses c origin result with
    | .error e => w.goto (.raised e)
    | .ok _ => w.goto .sends
  | _ => w

/-- The transport returned or raised. -/
def answered (result : Except Raised Response) (w : Working) : Working :=
  match w.call.place with
  | .sends =>
    match result with
    | .error e => w.goto (.raised e)
    | .ok response => w.goto (.received response)
  | _ => w

/-- `_sleep_backoff` ends; `raised` is what the random source or the sleeper raised. -/
def slept (closed : Bool) (raised : Option Raised) (w : Working) : Working :=
  match w.call.place with
  | .sleeps =>
    match raised with
    | some e => w.goto (.ended e)
    | none => if closed then w.goto (.ended (.origin shutDown)) else w.goto .loops
  | _ => w

end Working

/-- A service with the calls made so far. -/
structure Traffic where
  now : ℚ
  closed : Bool
  global : AdmissionBudget
  runtimes : ℕ → Runtime
  calls : List Request

inductive TrafficEvent
  | elapse (seconds : ℚ≥0)
  | shutdown
  | closeGlobal
  | closeAdmission (runtime : ℕ)
  | request (runtime : ℕ)
  /-- `late`: the shutdown flag was read before it was set -/
  | proceed (i : ℕ) (expired late : Bool)
  | resolved (i : ℕ) (result : Except Raised (List String))
  | answered (i : ℕ) (result : Except Raised Response)
  | slept (i : ℕ) (raised : Option Raised)

namespace Traffic

variable (c : TrafficConfig)

def init : Traffic where
  now := c.start
  closed := false
  global := .init c.globalMaxConcurrency c.globalMaxQueue
  runtimes r := .init (c.origins r) c.start
  calls := []

/-- What call `i` works on. -/
def working (t : Traffic) (call : Request) : Working := ⟨call, t.global, t.runtimes call.runtime⟩

/-- The service after a step of call `i`. -/
def commit (t : Traffic) (i : ℕ) (w : Working) : Traffic :=
  { t with
    global := w.global
    runtimes := Function.update t.runtimes w.call.runtime w.runtime
    calls := t.calls.set i w.call }

/-- A step of call `i`. -/
def stepCall (t : Traffic) (i : ℕ) (f : HTTPOrigin → Working → Working) : Traffic :=
  match t.calls[i]? with
  | none => t
  | some call => t.commit i (f (c.origins call.runtime) (t.working call))

/-- A call of `_request_with_retries` that begins. -/
def newRequest (runtime : ℕ) : Request :=
  ⟨runtime, .loops, 0, false, false, false, false, 0, 0, [], 0⟩

def step (t : Traffic) : TrafficEvent → Traffic
  | .elapse seconds => { t with now := t.now + seconds }
  | .shutdown => { t with closed := true }
  | .closeGlobal => { t with global := t.global.close }
  | .closeAdmission r => { t with
      runtimes := Function.update t.runtimes r
        { t.runtimes r with admission := (t.runtimes r).admission.close } }
  | .request r => { t with calls := t.calls ++ [newRequest r] }
  | .proceed i expired late =>
    t.stepCall c i fun origin => Working.proceed origin t.now (t.closed && !late) expired
  | .resolved i result => t.stepCall c i fun origin => Working.resolved origin c result
  | .answered i result => t.stepCall c i fun _ => Working.answered result
  | .slept i raised => t.stepCall c i fun _ => Working.slept t.closed raised

def run (events : List TrafficEvent) : Traffic := events.foldl (step c) (init c)

end Traffic

end Origin
end MegaCache
