import Mathlib

/-!
# Origins: data

The records of `origin.py` that its protection logic reads.  Seconds are exact rationals.
-/

namespace MegaCache
namespace Origin

/-- `HTTPOrigin`, with the fields that admission, retries, the circuit breaker and the
cache policy read. -/
structure HTTPOrigin where
  name : String
  host : String
  port : ℕ
  allowedHosts : List String
  allowedPorts : List ℕ
  ttlSeconds : ℕ
  staleWhileRevalidateSeconds : ℕ
  staleIfErrorSeconds : ℕ
  refreshAheadSeconds : ℕ
  negativeTtlSeconds : ℕ
  negativeStatuses : List ℕ
  queueTimeoutSeconds : ℚ
  maxResponseBytes : ℕ
  maxConcurrency : ℕ
  maxQueue : ℕ
  retryAttempts : ℕ
  retryBudgetCapacity : ℕ
  retryBudgetRefillPerSecond : ℚ
  breakerFailureThreshold : ℕ
  breakerOpenSeconds : ℚ
  breakerHalfOpenRequests : ℕ
  tags : List String
  positive : 0 < ttlSeconds ∧ 0 < negativeTtlSeconds ∧ 0 < queueTimeoutSeconds ∧
    0 < maxResponseBytes ∧ 0 < maxConcurrency ∧ 0 < retryBudgetCapacity ∧
    0 < retryBudgetRefillPerSecond ∧ 0 < breakerFailureThreshold ∧ 0 < breakerOpenSeconds ∧
    0 < breakerHalfOpenRequests
  negative_client : ∀ status ∈ negativeStatuses, 400 ≤ status ∧ status ≤ 499

theorem HTTPOrigin.breakerOpenSeconds_pos (origin : HTTPOrigin) : 0 < origin.breakerOpenSeconds :=
  origin.positive.2.2.2.2.2.2.2.2.1

/-- The exceptions of `origin.py`; all but `OriginPolicyError` are `OriginUnavailable`. -/
inductive OriginError
  | policy (message : String)
  | unavailable (message : String)
  | overloaded (message : String)
  | circuitOpen (message : String)
deriving DecidableEq, Repr

inductive BreakerState
  | closed
  | opened
  | halfOpen
deriving DecidableEq, Repr

/-- The breaker fields of `_OriginRuntime`. -/
structure Breaker where
  state : BreakerState
  failures : ℕ
  openUntil : ℚ
  halfOpenActive : ℕ
deriving DecidableEq, Repr

namespace Breaker

/-- The breaker of a new runtime. -/
def init : Breaker := ⟨.closed, 0, 0, 0⟩

variable (origin : HTTPOrigin)

/-- An open breaker whose time is over becomes half-open. -/
def refreshed (now : ℚ) (b : Breaker) : Breaker :=
  if b.state = .opened ∧ b.openUntil ≤ now then { b with state := .halfOpen, halfOpenActive := 0 }
  else b

/-- `allow_request`: whether the request is a probe, or `none` for `CircuitOpen`. -/
def allowRequest (now : ℚ) (b : Breaker) : Option Bool × Breaker :=
  match (b.refreshed now).state with
  | .opened => (none, b.refreshed now)
  | .closed => (some false, b.refreshed now)
  | .halfOpen =>
    if origin.breakerHalfOpenRequests ≤ (b.refreshed now).halfOpenActive then
      (none, b.refreshed now)
    else (some true, { b.refreshed now with
      halfOpenActive := (b.refreshed now).halfOpenActive + 1 })

/-- One probe less, not below zero. -/
def settle (halfOpen : Bool) (b : Breaker) : Breaker :=
  if halfOpen then { b with halfOpenActive := b.halfOpenActive - 1 } else b

def success (halfOpen : Bool) (b : Breaker) : Breaker :=
  { b.settle halfOpen with state := .closed, failures := 0, openUntil := 0 }

/-- Whether one more failure opens the breaker. -/
def Trips (halfOpen : Bool) (b : Breaker) : Prop :=
  halfOpen = true ∨ origin.breakerFailureThreshold ≤ b.failures + 1

instance (halfOpen : Bool) (b : Breaker) : Decidable (Trips origin halfOpen b) := by
  unfold Trips
  infer_instance

def failure (now : ℚ) (halfOpen : Bool) (b : Breaker) : Breaker :=
  if Trips origin halfOpen b then
    { b.settle halfOpen with
      state := .opened
      failures := b.failures + 1
      openUntil := now + origin.breakerOpenSeconds }
  else { b.settle halfOpen with failures := b.failures + 1 }

def cancelProbe (halfOpen : Bool) (b : Breaker) : Breaker := b.settle halfOpen

end Breaker

end Origin
end MegaCache
