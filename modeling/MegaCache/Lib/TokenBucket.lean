import Mathlib.Algebra.Order.Field.Basic
import Mathlib.Tactic

/-!
# Token buckets

A bucket is refilled at a rate up to a capacity whenever a call asks for a token.  The
calls it admits in a window of time stay within the capacity and the refill of the window,
and it turns a call away only if some window that ends there has no room for one more.
-/

namespace MegaCache
namespace TokenBucket

variable {K : Type} [Field K] [LinearOrder K] [IsStrictOrderedRing K]

structure Limits (K : Type) [Field K] [LinearOrder K] where
  capacity : K
  rate : K
  capacity_nonneg : 0 ≤ capacity
  rate_nonneg : 0 ≤ rate

structure Bucket (K : Type) where
  tokens : K
  updated : K
deriving DecidableEq

variable (l : Limits K)

/-- The tokens there are at `now`. -/
def refilled (now : K) (b : Bucket K) : K :=
  min l.capacity (b.tokens + max 0 (now - b.updated) * l.rate)

/-- A call at `now` takes a token if there is a whole one. -/
def take (now : K) (b : Bucket K) : Bool × Bucket K :=
  if refilled l now b < 1 then (false, ⟨refilled l now b, now⟩)
  else (true, ⟨refilled l now b - 1, now⟩)

/-- How many of the calls, each with its time and whether it was admitted, were admitted
from `u` on and not after `v`. -/
def admittedIn (u v : K) (calls : List (K × Bool)) : ℕ :=
  calls.countP fun call => call.2 ∧ u ≤ call.1 ∧ call.1 ≤ v

/-- Calls at times that do not go back, the newest one first, on a bucket that was full
at `start`. -/
inductive Run (start : K) : Bucket K → List (K × Bool) → Prop
  | create : Run start ⟨l.capacity, start⟩ []
  | call {b : Bucket K} {calls : List (K × Bool)} (now : K) (h : Run start b calls)
      (hle : b.updated ≤ now) :
      Run start (take l now b).2 ((now, (take l now b).1) :: calls)

variable {l} {start now u v : K} {b : Bucket K} {calls : List (K × Bool)}

omit [IsStrictOrderedRing K] in
theorem refilled_le_capacity : refilled l now b ≤ l.capacity := min_le_left _ _

theorem refilled_le (hle : b.updated ≤ now) :
    refilled l now b ≤ b.tokens + (now - b.updated) * l.rate := by
  unfold refilled
  rw [max_eq_right (sub_nonneg.mpr hle)]
  exact min_le_right _ _

theorem refilled_nonneg (h : 0 ≤ b.tokens) : 0 ≤ refilled l now b := by
  apply le_min l.capacity_nonneg
  exact add_nonneg h (mul_nonneg (le_max_left _ _) l.rate_nonneg)

omit [IsStrictOrderedRing K] in
theorem take_updated : (take l now b).2.updated = now := by
  unfold take
  split_ifs <;> rfl

omit [Field K] [IsStrictOrderedRing K] in
theorem admittedIn_cons (call : K × Bool) :
    admittedIn u v (call :: calls) = admittedIn u v calls +
      if call.2 ∧ u ≤ call.1 ∧ call.1 ≤ v then 1 else 0 := by
  simp [admittedIn, List.countP_cons]

omit [IsStrictOrderedRing K] in
/-- What a call adds to the admitted ones of a window it belongs to, it takes from the
bucket. -/
theorem take_tokens (hu : u ≤ now) :
    (admittedIn u now ((now, (take l now b).1) :: calls) : K) + (take l now b).2.tokens =
      admittedIn u now calls + refilled l now b := by
  rw [admittedIn_cons]
  unfold take
  split_ifs with hlow hcall hcall
  · simp at hcall
  · simp
  · push_cast
    ring
  · simp [hu] at hcall

omit [IsStrictOrderedRing K] in
theorem Run.start_le (h : Run l start b calls) : start ≤ b.updated := by
  induction h with
  | create => exact le_rfl
  | call now h hle ih =>
    rw [take_updated]
    exact ih.trans hle

omit [IsStrictOrderedRing K] in
/-- No call is later than the bucket's time. -/
theorem Run.time_le (h : Run l start b calls) {call : K × Bool} (hcall : call ∈ calls) :
    call.1 ≤ b.updated := by
  induction h with
  | create => cases hcall
  | call now h hle ih =>
    rw [take_updated]
    rcases List.mem_cons.mp hcall with rfl | hcall
    · exact le_rfl
    · exact (ih hcall).trans hle

theorem Run.tokens_nonneg (h : Run l start b calls) : 0 ≤ b.tokens := by
  induction h with
  | create => exact l.capacity_nonneg
  | call now h hle ih =>
    unfold take
    split_ifs with hlow
    · exact refilled_nonneg ih
    · exact sub_nonneg.mpr (not_lt.mp hlow)

theorem Run.tokens_le (h : Run l start b calls) : b.tokens ≤ l.capacity := by
  induction h with
  | create => exact le_rfl
  | @call b calls now h hle ih =>
    have hcapacity : refilled l now b ≤ l.capacity := refilled_le_capacity
    unfold take
    split_ifs with hlow
    · exact hcapacity
    · dsimp only
      linarith

omit [IsStrictOrderedRing K] in
/-- Up to the newest call, a window's end past it changes nothing. -/
theorem Run.admittedIn_eq (h : Run l start b calls) (hv : b.updated ≤ v) :
    admittedIn u v calls = admittedIn u b.updated calls := by
  apply List.countP_congr
  intro call hcall
  have htime := h.time_le hcall
  simp [htime, htime.trans hv]

omit [IsStrictOrderedRing K] in
theorem Run.admittedIn_eq_zero (h : Run l start b calls) (hu : b.updated < u) :
    admittedIn u v calls = 0 := by
  apply List.countP_eq_zero.mpr
  intro call hcall
  have htime := (h.time_le hcall).trans_lt hu
  simp [not_le.mpr htime]

/-- The admitted calls since `u` and the tokens left came from the capacity and the refill
since `u`. -/
theorem Run.spent_le (h : Run l start b calls) (hu : u ≤ b.updated) :
    (admittedIn u b.updated calls : K) + b.tokens ≤ l.capacity + l.rate * (b.updated - u) := by
  induction h generalizing u with
  | create =>
    have hrefill : 0 ≤ l.rate * (start - u) := mul_nonneg l.rate_nonneg (sub_nonneg.mpr hu)
    simpa [admittedIn] using hrefill
  | @call b calls now h hle ih =>
    rw [take_updated] at hu ⊢
    rw [take_tokens hu, h.admittedIn_eq hle]
    rcases le_or_gt u b.updated with hold | hnew
    · have hspent := ih hold
      have hrefilled : refilled l now b ≤ b.tokens + (now - b.updated) * l.rate := refilled_le hle
      linarith
    · -- no call in the window yet, so the bucket is at most full
      have hrefill : 0 ≤ l.rate * (now - u) := mul_nonneg l.rate_nonneg (sub_nonneg.mpr hu)
      have hcapacity : refilled l now b ≤ l.capacity := refilled_le_capacity
      rw [h.admittedIn_eq_zero hnew]
      push_cast
      linarith

/-- In every window the admitted calls stay within the capacity and the refill. -/
theorem Run.admittedIn_le (h : Run l start b calls) {d : K} (hd : 0 ≤ d) :
    (admittedIn u (u + d) calls : K) ≤ l.capacity + l.rate * d := by
  have hroom : 0 ≤ l.capacity + l.rate * d :=
    add_nonneg l.capacity_nonneg (mul_nonneg l.rate_nonneg hd)
  induction h with
  | create => simpa [admittedIn] using hroom
  | @call b calls now h hle ih =>
    by_cases hin : u ≤ now ∧ now ≤ u + d
    · have hrun := Run.call now h hle
      have hspent := hrun.spent_le (u := u) (by rw [take_updated]; exact hin.1)
      have htokens := hrun.tokens_nonneg
      have hend := hrun.admittedIn_eq (u := u) (v := u + d) (by rw [take_updated]; exact hin.2)
      rw [take_updated] at hspent hend
      have hlength : l.rate * (now - u) ≤ l.rate * d :=
        mul_le_mul_of_nonneg_left (by linarith [hin.2]) l.rate_nonneg
      rw [hend]
      linarith
    · rw [admittedIn_cons, if_neg fun hcall => hin hcall.2]
      simpa using ih

/-- Some window that ends now had all its tokens taken, up to those that are left. -/
theorem Run.exists_spent (h : Run l start b calls) : ∃ u, start ≤ u ∧ u ≤ b.updated ∧
    l.capacity + l.rate * (b.updated - u) ≤ admittedIn u b.updated calls + b.tokens := by
  induction h with
  | create => exact ⟨start, le_rfl, le_rfl, by simp [admittedIn]⟩
  | @call b calls now h hle ih =>
    have hmax : max 0 (now - b.updated) = now - b.updated := max_eq_right (sub_nonneg.mpr hle)
    rcases le_total l.capacity (b.tokens + max 0 (now - b.updated) * l.rate) with hfull | hpart
    · -- the refill was cut off: the window starts anew
      have hrefilled : refilled l now b = l.capacity := min_eq_left hfull
      refine ⟨now, h.start_le.trans hle, by rw [take_updated], ?_⟩
      rw [take_updated, take_tokens le_rfl, hrefilled]
      have hcount : (0 : K) ≤ admittedIn now now calls := Nat.cast_nonneg _
      linarith
    · obtain ⟨u, hstart, hu, hspent⟩ := ih
      have hrefilled : refilled l now b = b.tokens + (now - b.updated) * l.rate := by
        rw [← hmax]
        exact min_eq_right hpart
      refine ⟨u, hstart, by rw [take_updated]; exact hu.trans hle, ?_⟩
      rw [take_updated, take_tokens (hu.trans hle), hrefilled, h.admittedIn_eq hle]
      linarith

/-- A call is turned away only if one more would be too many for a window that ends with it. -/
theorem Run.exists_full (h : Run l start b calls) (hle : b.updated ≤ now)
    (hrefused : (take l now b).1 = false) : ∃ u, start ≤ u ∧ u ≤ now ∧
      l.capacity + l.rate * (now - u) < admittedIn u now calls + 1 := by
  have hlow : refilled l now b < 1 := by
    unfold take at hrefused
    split_ifs at hrefused with hlow
    exact hlow
  obtain ⟨u, hstart, hu, hspent⟩ := (Run.call now h hle).exists_spent
  rw [take_updated] at hu hspent
  rw [take_tokens hu] at hspent
  exact ⟨u, hstart, hu, by linarith⟩

end TokenBucket
end MegaCache
