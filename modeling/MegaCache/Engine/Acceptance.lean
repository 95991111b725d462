import MegaCache.Engine.Writes

/-!
# When a write is accepted

`put` accepts a write exactly when `validate_put` does, and whether it does depends
on the arguments and on the leases alone.
-/

namespace MegaCache
namespace Engine

open Prog

variable {V : Type} {c : EngineConfig V}

/-- A check: its outcome does not depend on the state, which it leaves alone. -/
def Checks {α : Type} (m : EngineM V α) : Prop := ∃ x, m = fromExcept x

theorem Checks.pure {α : Type} (a : α) : Checks (Pure.pure a : EngineM V α) := ⟨.ok a, rfl⟩

theorem Checks.throw {α : Type} (e : PyError) : Checks (throw e : EngineM V α) := ⟨.error e, rfl⟩

theorem Checks.bind {α β : Type} {m : EngineM V α} {f : α → EngineM V β} (hm : Checks m)
    (hf : ∀ a, Checks (f a)) : Checks (m >>= f) := by
  obtain ⟨x, rfl⟩ := hm
  cases x with
  | error e => exact ⟨.error e, rfl⟩
  | ok a =>
    obtain ⟨y, hy⟩ := hf a
    exact ⟨y, hy⟩

theorem Checks.ite {α : Type} {b : Prop} [Decidable b] {m n : EngineM V α} (hm : Checks m)
    (hn : Checks n) : Checks (if b then m else n) := by
  split
  · exact hm
  · exact hn

theorem checks_validateKey (key : Key) : Checks (validateKey (V := V) key) :=
  .ite (.throw _) (.pure _)

theorem checks_duration (value : Option ℤ) (d : ℕ) (name : String) (z : Bool) :
    Checks (duration (V := V) value d name z) := .ite (.throw _) (.pure _)

theorem checks_putWindows (ttlSeconds staleSeconds : Option ℤ) (persistent : Bool) :
    Checks (putWindows c ttlSeconds staleSeconds persistent) :=
  .ite (.ite (.throw _) (.pure _))
    (.bind (checks_duration _ _ _ _) fun _ => .bind (checks_duration _ _ _ _) fun _ => .pure _)

theorem checks_normalizeTags (tags : List Tag) : Checks (normalizeTags (V := V) tags) :=
  .ite (.throw _) (.ite (.throw _) (.pure _))

theorem checks_snapshotValue (value : V) : Checks (snapshotValue c value) := by
  unfold snapshotValue
  split
  · exact .throw _
  · exact .pure _

theorem checks_entrySize (key : Key) (value : V) (tags : List Tag) :
    Checks (entrySize c key value tags) := by
  unfold entrySize
  split
  · exact .throw _
  · exact .pure _

/-- `m` and `n` return the same, whatever states they start from. -/
def SameResult {α : Type} (m n : EngineM V α) : Prop := ∀ s s', (m s).1 = (n s').1

theorem Checks.sameResult {α β : Type} {m : EngineM V α} {f g : α → EngineM V β} (hm : Checks m)
    (h : ∀ a, SameResult (f a) (g a)) : SameResult (m >>= f) (m >>= g) := by
  obtain ⟨x, rfl⟩ := hm
  cases x with
  | error e =>
    intro s s'
    rfl
  | ok a => exact h a

/-- Counting a rejection does not change the outcome of `_prepare_put`. -/
theorem preparePut_sameResult (key : Key) (value : V) (ttlSeconds staleSeconds : Option ℤ)
    (tags : List Tag) (persistent count count' : Bool) :
    SameResult (preparePut c key value ttlSeconds staleSeconds tags persistent count)
      (preparePut c key value ttlSeconds staleSeconds tags persistent count') := by
  refine (checks_validateKey key).sameResult fun _ => (checks_putWindows _ _ _).sameResult fun _ =>
    (checks_normalizeTags tags).sameResult fun _ => (checks_snapshotValue value).sameResult fun _ =>
      (checks_entrySize _ _ _).sameResult fun n => ?_
  intro s s'
  by_cases h₁ : c.maxEntryBytes < n
  · rw [if_pos h₁, if_pos h₁]
    rfl
  · rw [if_neg h₁, if_neg h₁]
    by_cases h₂ : c.maxMemoryBytes < n
    · rw [if_pos h₂, if_pos h₂]
      rfl
    · rw [if_neg h₂, if_neg h₂]
      rfl

/-- Whether `validate_put` lets an unguarded write through. -/
def Admits (c : EngineConfig V) (s : Engine V) (key : Key) (value : V)
    (ttlSeconds staleSeconds : Option ℤ) (tags : List Tag) (persistent : Bool) : Prop :=
  (validatePut c key value ttlSeconds staleSeconds tags none persistent s).1 = .ok ()

variable {key : Key} {value : V} {ttlSeconds staleSeconds : Option ℤ} {tags : List Tag}
  {persistent : Bool} {s s' : Engine V}

theorem admits_iff : Admits c s key value ttlSeconds staleSeconds tags persistent ↔
    ∃ p, preparePut c key value ttlSeconds staleSeconds tags persistent true s = (.ok p, s) ∧
      p.sizeBytes + reservedBytes key s ≤ c.maxMemoryBytes := by
  have hsame := preparePut_sameResult (c := c) key value ttlSeconds staleSeconds tags persistent
    false true s s
  unfold Admits validatePut
  rcases hf : preparePut c key value ttlSeconds staleSeconds tags persistent false s with
    ⟨e | p, s₁⟩ <;> rw [hf] at hsame
  · rw [run_bind_error hf]
    constructor
    · intro h
      cases h
    · rintro ⟨p, hp, _⟩
      rw [hp] at hsame
      cases hsame
  · obtain ⟨rfl, _⟩ := preparePut_ok hf
    rw [run_bind_ok hf]
    rcases ht : preparePut c key value ttlSeconds staleSeconds tags persistent true s₁ with
      ⟨e | p', s₂⟩ <;> rw [ht] at hsame
    · cases hsame
    · obtain ⟨rfl, _⟩ := preparePut_ok ht
      obtain rfl : p = p' := Except.ok.inj hsame
      change ((if (c.maxMemoryBytes : ℤ) < p.sizeBytes + reservedBytes key s₂ then
        throw (valueError "entry exceeds available cache memory") else pure () : EngineM V Unit)
          { s₂ with ticks := s₂.ticks + 1 }).1 = .ok () ↔ _
      by_cases hcap : (c.maxMemoryBytes : ℤ) < p.sizeBytes + reservedBytes key s₂
      · rw [if_pos hcap]
        constructor
        · intro h
          cases h
        · rintro ⟨q, hq, hle⟩
          obtain rfl : p = q := by simpa using hq
          omega
      · rw [if_neg hcap]
        exact ⟨fun _ => ⟨p, rfl, not_lt.mp hcap⟩, fun _ => rfl⟩

/-- Acceptance reads the leases only. -/
theorem Admits.congr (h : Admits c s key value ttlSeconds staleSeconds tags persistent)
    (hl : s'.leases = s.leases) (hb : s'.leaseBytes = s.leaseBytes) :
    Admits c s' key value ttlSeconds staleSeconds tags persistent := by
  obtain ⟨p, hp, hle⟩ := admits_iff.mp h
  have hsame := preparePut_sameResult (c := c) key value ttlSeconds staleSeconds tags persistent
    true true s s'
  rcases hp' : preparePut c key value ttlSeconds staleSeconds tags persistent true s' with
    ⟨e | p', s₁⟩ <;> rw [hp, hp'] at hsame
  · cases hsame
  · obtain ⟨rfl, _⟩ := preparePut_ok hp'
    obtain rfl : p = p' := Except.ok.inj hsame
    refine admits_iff.mpr ⟨p, hp', ?_⟩
    simpa only [reservedBytes, hl, hb] using hle

/-- `put` returns exactly the writes that `validate_put` lets through. -/
theorem put_ok_iff (hs : Sound c s) :
    (∃ r s', put c key value ttlSeconds staleSeconds tags none persistent s = (.ok r, s')) ↔
      Admits c s key value ttlSeconds staleSeconds tags persistent := by
  rw [admits_iff]
  have htick : Sound c { s with ticks := s.ticks + 1 } :=
    hs.edits Permit.nothing_shrinking (Edits.one (.tick s))
  constructor
  · rintro ⟨r, s', h⟩
    rw [put, bind_eq_ok] at h
    obtain ⟨p, s₀, hp, h⟩ := h
    obtain ⟨rfl, _⟩ := preparePut_ok hp
    change putLocked c key none persistent p (c.clock s₀.ticks)
      { s₀ with ticks := s₀.ticks + 1 } = (.ok r, s') at h
    rcases putLocked_cases key none persistent p htick.accounts htick.bounded
        ⟨s₀.ticks, Nat.lt_succ_self _, rfl⟩ with
      ⟨e, s₁, h₁, _⟩ | ⟨r₁, s₁, s₂, h₁, _, hle, _⟩ <;> rw [h₁] at h
    · simp at h
    · exact ⟨p, hp, hle⟩
  · rintro ⟨p, hp, hle⟩
    rw [put, run_bind_ok hp]
    change ∃ r s', putLocked c key none persistent p (c.clock s.ticks)
      { s with ticks := s.ticks + 1 } = (.ok r, s')
    rcases putLocked_cases key none persistent p htick.accounts htick.bounded
        ⟨s.ticks, Nat.lt_succ_self _, rfl⟩ with
      ⟨e, s₁, _, _, _, hcap⟩ | ⟨r₁, s₁, s₂, h₁, _⟩
    · -- an unguarded write is refused for the memory only
      exact absurd (hcap rfl) (not_lt.mpr hle)
    · exact ⟨r₁, s₂, h₁⟩

end Engine
end MegaCache
