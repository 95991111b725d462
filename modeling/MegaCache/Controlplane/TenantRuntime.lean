import MegaCache.Lib.TokenBucket
import MegaCache.Origin.Requests

/-!
# Rate limits

`_TenantRuntime` of the control plane: the gate that a tenant's requests pass, with its
token bucket, its connections and its maintenance window.  The retry budget of an origin is
a bucket of the same kind, and the limits of both are those of `TokenBucket`.
-/

namespace MegaCache
namespace Controlplane

open TokenBucket

/-- The quotas that the gate of a tenant reads. -/
structure OperationQuotas where
  opsPerSecond : ℕ
  burstOps : ℕ
  maxConnections : ℕ
  positive : 0 < opsPerSecond ∧ 0 < burstOps ∧ 0 < maxConnections
  burst_le : opsPerSecond ≤ burstOps

structure TenantRuntime where
  tokens : ℚ
  lastRefill : ℚ
  connections : ℕ
  activeOperations : ℕ
  accepting : Bool
  maintenance : Bool
  quotaRejections : ℕ
  connectionRejections : ℕ
deriving DecidableEq, Repr

/-- How `begin_operation` ends. -/
inductive Verdict
  | admitted
  | unavailable (message : String)
  | quotaExceeded (message : String)
deriving DecidableEq, Repr

namespace TenantRuntime

variable (quotas : OperationQuotas)

def init (enabled : Bool) (start : ℚ) : TenantRuntime :=
  ⟨quotas.burstOps, start, 0, 0, enabled, false, 0, 0⟩

def setAccepting (value : Bool) (r : TenantRuntime) : TenantRuntime := { r with accepting := value }

/-- `acquire_connection`, and whether it raised. -/
def acquireConnection (r : TenantRuntime) : Bool × TenantRuntime :=
  if quotas.maxConnections ≤ r.connections then
    (true, { r with connectionRejections := r.connectionRejections + 1 })
  else (false, { r with connections := r.connections + 1 })

def releaseConnection (r : TenantRuntime) : TenantRuntime :=
  { r with connections := r.connections - 1 }

/-- The tokens after the refill that `begin_operation` makes. -/
def refilled (now : ℚ) (r : TenantRuntime) : ℚ :=
  min quotas.burstOps (r.tokens + max 0 (now - r.lastRefill) * quotas.opsPerSecond)

def beginOperation (now : ℚ) (allowUnavailable : Bool) (r : TenantRuntime) :
    Verdict × TenantRuntime :=
  if r.accepting = false ∧ allowUnavailable = false then
    (.unavailable "tenant data plane is not accepting work", r)
  else if r.maintenance = true ∧ allowUnavailable = false then
    (.unavailable "tenant data plane is in a maintenance window", r)
  else if r.refilled quotas now < 1 then
    (.quotaExceeded "tenant operation quota is exhausted",
      { r with
        tokens := r.refilled quotas now
        lastRefill := now
        quotaRejections := r.quotaRejections + 1 })
  else
    (.admitted,
      { r with
        tokens := r.refilled quotas now - 1
        lastRefill := now
        activeOperations := r.activeOperations + 1 })

def endOperation (r : TenantRuntime) : TenantRuntime :=
  { r with activeOperations := r.activeOperations - 1 }

/-- The other methods of a runtime.  `begin_maintenance` closes the gate first; when the
requests inside take too long it opens it again and raises. -/
inductive Step (quotas : OperationQuotas) : TenantRuntime → TenantRuntime → Prop
  | setAccepting (value : Bool) (r : TenantRuntime) : Step quotas r (r.setAccepting value)
  | acquireConnection (r : TenantRuntime) : Step quotas r (r.acquireConnection quotas).2
  | releaseConnection (r : TenantRuntime) : Step quotas r r.releaseConnection
  | endOperation (r : TenantRuntime) : Step quotas r r.endOperation
  | closeGate (r : TenantRuntime) : Step quotas r { r with maintenance := true }
  | openGate (r : TenantRuntime) : Step quotas r { r with maintenance := false }

/-- What a call of `begin_operation` adds to the calls that came to the bucket. -/
def recorded (now : ℚ) (calls : List (ℚ × Bool)) : Verdict → List (ℚ × Bool)
  | .admitted => (now, true) :: calls
  | .quotaExceeded _ => (now, false) :: calls
  | .unavailable _ => calls

/-- A runtime made at `start`, and the calls of `begin_operation` that came to the bucket,
the newest one first.  The clock does not go back. -/
inductive Run (quotas : OperationQuotas) (start : ℚ) : TenantRuntime → List (ℚ × Bool) → Prop
  | create (enabled : Bool) : Run quotas start (init quotas enabled start) []
  | beginOperation {r : TenantRuntime} {calls : List (ℚ × Bool)} (now : ℚ)
      (allowUnavailable : Bool) (h : Run quotas start r calls) (hle : r.lastRefill ≤ now) :
      Run quotas start (r.beginOperation quotas now allowUnavailable).2
        (recorded now calls (r.beginOperation quotas now allowUnavailable).1)
  | step {r r' : TenantRuntime} {calls : List (ℚ × Bool)} (h : Run quotas start r calls)
      (hs : Step quotas r r') : Run quotas start r' calls

def limits : Limits ℚ where
  capacity := quotas.burstOps
  rate := quotas.opsPerSecond
  capacity_nonneg := Nat.cast_nonneg _
  rate_nonneg := Nat.cast_nonneg _

def bucket (r : TenantRuntime) : Bucket ℚ := ⟨r.tokens, r.lastRefill⟩

variable {quotas} {start now : ℚ} {r r' : TenantRuntime} {calls : List (ℚ × Bool)}

theorem refilled_eq : r.refilled quotas now = TokenBucket.refilled (limits quotas) now r.bucket := rfl

theorem Step.bucket_eq (h : Step quotas r r') : r'.bucket = r.bucket := by
  cases h with
  | acquireConnection =>
    unfold TenantRuntime.acquireConnection
    split_ifs <;> rfl
  | setAccepting | releaseConnection | endOperation | closeGate | openGate => rfl

/-- A call that the gate lets through takes from the bucket. -/
theorem beginOperation_cases (now : ℚ) (allowUnavailable : Bool) (r : TenantRuntime)
    (calls : List (ℚ × Bool)) :
    ((r.beginOperation quotas now allowUnavailable).2 = r ∧
      recorded now calls (r.beginOperation quotas now allowUnavailable).1 = calls ∧
      ∃ message, (r.beginOperation quotas now allowUnavailable).1 = .unavailable message) ∨
    ((r.beginOperation quotas now allowUnavailable).2.bucket =
        (take (limits quotas) now r.bucket).2 ∧
      recorded now calls (r.beginOperation quotas now allowUnavailable).1 =
        (now, (take (limits quotas) now r.bucket).1) :: calls) := by
  unfold beginOperation
  split_ifs with hclosed hmaintenance hlow
  · exact .inl ⟨rfl, rfl, _, rfl⟩
  · exact .inl ⟨rfl, rfl, _, rfl⟩
  · rw [refilled_eq] at hlow
    unfold take
    rw [if_pos hlow]
    exact .inr ⟨rfl, rfl⟩
  · rw [refilled_eq] at hlow
    unfold take
    rw [if_neg hlow]
    exact .inr ⟨rfl, rfl⟩

theorem Run.bucket (h : Run quotas start r calls) :
    TokenBucket.Run (limits quotas) start r.bucket calls := by
  induction h with
  | create => exact .create
  | @beginOperation r calls now allowUnavailable h hle ih =>
    obtain ⟨hr, hcalls, -⟩ | ⟨hr, hcalls⟩ :=
      @beginOperation_cases quotas now allowUnavailable r calls
    · rw [hr, hcalls]
      exact ih
    · rw [hr, hcalls]
      exact ih.call now hle
  | step h hs ih =>
    rw [hs.bucket_eq]
    exact ih

theorem take_of_quotaExceeded {allowUnavailable : Bool} {message : String}
    (h : (r.beginOperation quotas now allowUnavailable).1 = .quotaExceeded message) :
    (take (limits quotas) now r.bucket).1 = false := by
  unfold beginOperation at h
  split_ifs at h with _ _ hlow
  rw [refilled_eq] at hlow
  unfold take
  rw [if_pos hlow]

end TenantRuntime

end Controlplane

namespace Origin
namespace Runtime

open TokenBucket

variable (origin : HTTPOrigin)

/-- A runtime made at `start`, and its calls of `consume_retry`, the newest one first.  The
other methods leave the tokens and the time of the last refill alone. -/
inductive RetryRun (start : ℚ) : Runtime → List (ℚ × Bool) → Prop
  | create : RetryRun start (init origin start) []
  | consumeRetry {r : Runtime} {calls : List (ℚ × Bool)} (now : ℚ) (h : RetryRun start r calls)
      (hle : r.retryUpdatedAt ≤ now) :
      RetryRun start (r.consumeRetry origin now).2 ((now, (r.consumeRetry origin now).1) :: calls)
  | other {r r' : Runtime} {calls : List (ℚ × Bool)} (h : RetryRun start r calls)
      (htokens : r'.retryTokens = r.retryTokens) (hupdated : r'.retryUpdatedAt = r.retryUpdatedAt) :
      RetryRun start r' calls

def limits : Limits ℚ where
  capacity := origin.retryBudgetCapacity
  rate := origin.retryBudgetRefillPerSecond
  capacity_nonneg := Nat.cast_nonneg _
  rate_nonneg := origin.positive.2.2.2.2.2.2.1.le

def bucket (r : Runtime) : Bucket ℚ := ⟨r.retryTokens, r.retryUpdatedAt⟩

variable {origin} {start now : ℚ} {r : Runtime} {calls : List (ℚ × Bool)}

theorem consumeRetry_fst : (r.consumeRetry origin now).1 = (take (limits origin) now r.bucket).1 := by
  unfold consumeRetry take
  rw [show TokenBucket.refilled (limits origin) now r.bucket = r.refilled origin now from rfl]
  split_ifs <;> rfl

theorem consumeRetry_bucket :
    (r.consumeRetry origin now).2.bucket = (take (limits origin) now r.bucket).2 := by
  unfold consumeRetry take
  rw [show TokenBucket.refilled (limits origin) now r.bucket = r.refilled origin now from rfl]
  split_ifs <;> rfl

theorem RetryRun.bucket (h : RetryRun origin start r calls) :
    TokenBucket.Run (limits origin) start r.bucket calls := by
  induction h with
  | create => exact .create
  | @consumeRetry r calls now h hle ih =>
    rw [consumeRetry_bucket, consumeRetry_fst]
    exact ih.call now hle
  | @other r r' calls h htokens hupdated ih =>
    have hbucket : r'.bucket = r.bucket := by
      unfold Runtime.bucket
      rw [htokens, hupdated]
    rw [hbucket]
    exact ih

end Runtime
end Origin

namespace Controlplane

open TokenBucket

/-- The gate of a tenant and the retry budget of an origin: the tokens stay in the bucket,
a window of length `d` has at most the capacity and the refill of `d` admitted calls, and a
call is turned away only if one more would be too many for a window that ends with it. -/
theorem rate_limits (quotas : OperationQuotas) (origin : Origin.HTTPOrigin) :
    (∀ start r calls, TenantRuntime.Run quotas start r calls →
      (0 ≤ r.tokens ∧ r.tokens ≤ quotas.burstOps) ∧
      (∀ u d : ℚ, 0 ≤ d → (admittedIn u (u + d) calls : ℚ) ≤
        quotas.burstOps + quotas.opsPerSecond * d) ∧
      ∀ now allowUnavailable message, r.lastRefill ≤ now →
        (r.beginOperation quotas now allowUnavailable).1 = .quotaExceeded message →
        ∃ u, start ≤ u ∧ u ≤ now ∧
          quotas.burstOps + quotas.opsPerSecond * (now - u) < (admittedIn u now calls : ℚ) + 1) ∧
    ∀ start r calls, Origin.Runtime.RetryRun origin start r calls →
      (0 ≤ r.retryTokens ∧ r.retryTokens ≤ origin.retryBudgetCapacity) ∧
      (∀ u d : ℚ, 0 ≤ d → (admittedIn u (u + d) calls : ℚ) ≤
        origin.retryBudgetCapacity + origin.retryBudgetRefillPerSecond * d) ∧
      ∀ now, r.retryUpdatedAt ≤ now → (r.consumeRetry origin now).1 = false →
        ∃ u, start ≤ u ∧ u ≤ now ∧
          origin.retryBudgetCapacity + origin.retryBudgetRefillPerSecond * (now - u) <
            (admittedIn u now calls : ℚ) + 1 := by
  constructor
  · intro start r calls h
    have hrun := h.bucket
    refine ⟨⟨hrun.tokens_nonneg, hrun.tokens_le⟩, fun u d hd => hrun.admittedIn_le hd, ?_⟩
    intro now allowUnavailable message hle hrefused
    exact hrun.exists_full hle (TenantRuntime.take_of_quotaExceeded hrefused)
  · intro start r calls h
    have hrun := h.bucket
    refine ⟨⟨hrun.tokens_nonneg, hrun.tokens_le⟩, fun u d hd => hrun.admittedIn_le hd, ?_⟩
    intro now hle hrefused
    rw [Origin.Runtime.consumeRetry_fst] at hrefused
    exact hrun.exists_full hle hrefused

end Controlplane
end MegaCache
