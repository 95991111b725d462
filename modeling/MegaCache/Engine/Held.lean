import MegaCache.Engine.Refinement

/-!
# A key that holds an entry

What the operations on one key return while the engine holds an entry for it: a lookup before
the stale deadline finds its value, a delete takes it out, `expire` moves its deadlines and a
lease comes with its value.
-/

namespace MegaCache
namespace Engine

open Prog

variable {V : Type} {c : EngineConfig V} {key : Key} {s : Engine V} {e : Entry V}

theorem validateKey_run (hk : key ≠ "" ∧ key.length ≤ 1024) (s : Engine V) :
    validateKey key s = (.ok (), s) := by
  unfold validateKey
  rw [if_neg (by push Not; exact hk)]
  rfl

theorem validateKey_refused (hk : ¬(key ≠ "" ∧ key.length ≤ 1024)) (s : Engine V) :
    validateKey key s = (.error (valueError "key must contain between 1 and 1024 characters"), s) := by
  unfold validateKey
  rw [if_pos (by rw [not_and_or] at hk; push Not at hk; exact hk)]
  rfl

/-- A result that carries a value. -/
structure Carries (v : V) (r : CacheResult V) : Prop where
  value : r.value = some v
  state : r.state = .fresh ∨ r.state = .stale ∨ r.state = .staleLease

theorem Carries.not_miss {v : V} {r : CacheResult V} (h : Carries v r) : r.state ≠ .miss := by
  rcases h.state with hs | hs | hs <;> rw [hs] <;> decide

theorem resultAt_held {now : ℚ} (hlive : (now : Deadline) < e.staleUntil) :
    (resultAt now (some e.written)).value = some e.value ∧
      (resultAt now (some e.written)).state = if (now : Deadline) < e.freshUntil then .fresh else .stale := by
  have hdead : ¬e.written.staleUntil ≤ (now : Deadline) := not_le.mpr hlive
  simp only [resultAt, if_neg hdead]
  by_cases hfresh : (now : Deadline) < e.freshUntil
  · rw [if_pos hfresh, if_pos (show (now : Deadline) < e.written.freshUntil from hfresh)]
    exact ⟨rfl, rfl⟩
  · rw [if_neg hfresh, if_neg (show ¬(now : Deadline) < e.written.freshUntil from hfresh)]
    exact ⟨rfl, rfl⟩

/-- What a lookup finds before the stale deadline. -/
theorem lookup_held (count : Bool) (h : s.entries.get? key = some e)
    (hlive : (c.clock s.ticks : Deadline) < e.staleUntil) :
    ∃ r s', lookup c key count s = (.ok r, s') ∧ r.value = some e.value ∧
      r.state = (if (c.clock s.ticks : Deadline) < e.freshUntil then .fresh else .stale) ∧
      s'.entries.get? key = some (touched count (c.clock s.ticks) e) := by
  refine ⟨_, _, rfl, ?_⟩
  have hresult : (lookupAt (c.clock s.ticks) key count { s with ticks := s.ticks + 1 }).1 =
      resultAt (c.clock s.ticks) (some e.written) := by
    rw [lookupAt_result]
    simp [h]
  obtain ⟨hvalue, hstate⟩ := resultAt_held hlive
  refine ⟨?_, ?_, ?_⟩
  · exact (congrArg CacheResult.value hresult).trans hvalue
  · exact (congrArg CacheResult.state hresult).trans hstate
  · unfold lookupAt
    simp only [h, if_neg (not_le.mpr hlive)]
    split_ifs <;> simp [countIf_entries, OrderedDict.get?_setLast]

theorem getEntry_held (hk : key ≠ "" ∧ key.length ≤ 1024) (h : s.entries.get? key = some e)
    (hlive : (c.clock s.ticks : Deadline) < e.staleUntil) :
    ∃ r s', getEntry c key s = (.ok r, s') ∧ Carries e.value r := by
  obtain ⟨r, s', hr, hvalue, hstate, -⟩ := lookup_held (c := c) true h hlive
  refine ⟨r, s', by rw [getEntry, run_bind_ok (validateKey_run hk s), hr], hvalue, ?_⟩
  rw [hstate]
  split_ifs
  · exact .inl rfl
  · exact .inr (.inl rfl)

theorem delete_held (hk : key ≠ "" ∧ key.length ≤ 1024) (h : s.entries.get? key = some e) :
    ∃ s', delete key s = (.ok true, s') ∧ s'.entries.get? key = none := by
  obtain ⟨s', hs'⟩ : ∃ s', delete key s = (.ok true, s') := by
    refine ⟨(deleteLocked key s).2, ?_⟩
    rw [delete, run_bind_ok (validateKey_run hk s), run_lift]
    simp [deleteLocked, h]
  refine ⟨s', hs', ?_⟩
  rw [delete_ok hs']
  exact OrderedDict.get?_erase_self _ _

theorem deleteMany_held (hk : key ≠ "" ∧ key.length ≤ 1024) (h : s.entries.get? key = some e) :
    ∃ s', deleteMany [key] s = (.ok 1, s') ∧ s'.entries.get? key = none := by
  obtain ⟨s', hs', hnone⟩ := delete_held hk h
  refine ⟨s', ?_, hnone⟩
  have hcollect : collect delete [key] s = (.ok [true], s') := by
    rw [collect, run_bind_ok hs']
    rfl
  rw [deleteMany, run_bind_ok hcollect]
  rfl

/-- A key without an entry is not counted. -/
theorem deleteMany_absent_one (h : s.entries.get? key = none) :
    (deleteMany [key] s).1 ≠ .ok 1 := by
  by_cases hk : key ≠ "" ∧ key.length ≤ 1024
  · have hdelete : ∃ s', delete key s = (.ok false, s') := by
      refine ⟨(deleteLocked key s).2, ?_⟩
      rw [delete, run_bind_ok (validateKey_run hk s), run_lift]
      simp [deleteLocked, h]
    obtain ⟨s', hs'⟩ := hdelete
    have hcollect : collect delete [key] s = (.ok [false], s') := by
      rw [collect, run_bind_ok hs']
      rfl
    rw [deleteMany, run_bind_ok hcollect]
    simp
  · have hdelete := run_bind_error (validateKey_refused hk s) fun _ => Prog.lift (deleteLocked key)
    have hcollect := run_bind_error hdelete fun b => do
      let bs ← collect delete []
      pure (b :: bs)
    have hmany := run_bind_error hcollect fun existed : List Bool => pure (existed.count true)
    rw [show deleteMany [key] s = _ from hmany]
    simp

theorem expire_held (hk : key ≠ "" ∧ key.length ≤ 1024) (h : s.entries.get? key = some e)
    (hlive : (c.clock s.ticks : Deadline) < e.staleUntil) {n : ℕ} (hn : 0 < n) :
    ∃ s' e', expire c key n s = (.ok true, s') ∧ s'.entries.get? key = some e' ∧
      e'.value = e.value ∧ e'.freshUntil = ((c.clock (s.ticks + 1) + n : ℚ) : Deadline) ∧
      e'.staleUntil = ((c.clock (s.ticks + 1) + n : ℚ) : Deadline) := by
  obtain ⟨r, s₁, hr, hvalue, hstate, hkept⟩ := lookup_held (c := c) false h hlive
  have hduration : duration (V := V) (some (n : ℤ)) 0 "ttl_seconds" false s = (.ok n, s) := by
    unfold duration
    simp only [Option.getD_some]
    rw [if_neg (by simp; omega)]
    simp
  have hmiss : r.state ≠ .miss := by
    rw [hstate]
    split_ifs <;> decide
  refine ⟨bump .expirationsSet 1 (updateEntry key (expiringEntry (c.clock s₁.ticks + n) n)
    { s₁ with ticks := s₁.ticks + 1 }),
    expiringEntry (c.clock s₁.ticks + n) n (touched false (c.clock s.ticks) e), ?_, ?_, ?_⟩
  · rw [expire, run_bind_ok (validateKey_run hk s), run_bind_ok hduration, run_bind_ok hr, if_neg hmiss]
    rfl
  · rw [bump_entries, get?_updateEntry, if_pos rfl, hkept]
    rfl
  · rw [lookup_ticks hr]
    exact ⟨rfl, rfl, rfl⟩

/-- A lease is granted or refused, and comes with the value that is held. -/
theorem acquireLease_held (hk : key ≠ "" ∧ key.length ≤ 1024) (h : s.entries.get? key = some e)
    (hlive : (c.clock (s.ticks + 1) : Deadline) < e.staleUntil) :
    (∃ r s', acquireLease c key false s = (.ok r, s') ∧ Carries e.value r ∧
      ((c.clock (s.ticks + 1) : Deadline) < e.freshUntil → r.state = .fresh)) ∨
    (¬(c.clock (s.ticks + 1) : Deadline) < e.freshUntil ∧
      ∃ s', acquireLease c key false s = (.error (valueError "lease capacity exhausted"), s')) := by
  have hrun : acquireLease c key false s =
      acquireLocked c key false (c.clock s.ticks) { s with ticks := s.ticks + 1 } := by
    rw [acquireLease, run_bind_ok (validateKey_run hk s)]
    rfl
  obtain ⟨hentries, hticks⟩ := purgeExpiredLeases_entries_ticks (c.clock s.ticks)
    { s with ticks := s.ticks + 1 }
  obtain ⟨cached, s₁, hlook, hvalue, hstate, -⟩ := lookup_held (c := c)
    (s := purgeExpiredLeases (c.clock s.ticks) { s with ticks := s.ticks + 1 }) true
    (by rw [hentries]; exact h) (by rw [hticks]; exact hlive)
  rw [hticks] at hstate
  rw [hrun]
  simp only [acquireLocked, run_bind, run_modify, hlook]
  by_cases hfresh : (c.clock (s.ticks + 1) : Deadline) < e.freshUntil
  · have hstate' : cached.state = .fresh := hstate.trans (if_pos hfresh)
    left
    rw [if_pos ⟨hstate', by simp⟩]
    exact ⟨cached, s₁, rfl, ⟨hvalue, .inl hstate'⟩, fun _ => hstate'⟩
  · have hstate' : cached.state = .stale := hstate.trans (if_neg hfresh)
    rw [if_neg (by simp [hstate'])]
    rcases hl : (s₁.leases.get? key).filter fun lease => c.clock s.ticks < lease.untilTime with _ | lease
    · by_cases hcap : c.maxEntries ≤ s₁.leases.size ∨ (c.maxMemoryBytes : ℤ) < s₁.usedBytes +
          ((key.utf8ByteSize + (c.tokenUrlsafe s₁.draws).utf8ByteSize + 64 : ℕ) : ℤ)
      · right
        refine ⟨hfresh, ?_⟩
        simp only [run_bind, run_get, hl, drawToken, if_pos hcap, run_modify, run_throw]
        exact ⟨_, rfl⟩
      · left
        simp only [run_bind, run_get, hl, drawToken, if_neg hcap, run_modify, hstate', ↓reduceIte,
          run_pure]
        exact ⟨_, _, rfl, ⟨hvalue, .inr (.inr rfl)⟩, fun hf => absurd hf hfresh⟩
    · left
      simp only [run_bind, run_get, hl, run_modify, hstate', ↓reduceIte, run_pure]
      exact ⟨cached, _, rfl, ⟨hvalue, .inr (.inl hstate')⟩, fun hf => absurd hf hfresh⟩

end Engine
end MegaCache
