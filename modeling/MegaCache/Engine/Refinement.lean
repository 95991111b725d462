import MegaCache.Engine.TimedMap

/-!
# Runs of the engine refine the timed map

A traced run carries the timed map along with the session.  Restoring a journal
or a checkpoint takes the map back to where it was when the journal was opened
or the checkpoint taken.
-/

namespace MegaCache
namespace Engine

open Prog

variable {V : Type} {c : EngineConfig V}

/-- A session with the map it refines, and the maps that may come back. -/
structure Traced (V : Type) where
  session : Session V
  map : TimedMap V
  /-- the map when the open journal was opened -/
  atBegin : TimedMap V
  /-- the maps when the checkpoints were taken -/
  saved : List (TimedMap V)

def Traced.init : Traced V := ⟨⟨Engine.init, []⟩, .empty, .empty, []⟩

def Traced.nextMap (c : EngineConfig V) (t : Traced V) : Event V → TimedMap V
  | .call op => t.map.afterCall c t.session.engine op
  | .restoreCheckpoint i => (t.saved[i]?).getD t.map
  | .restoreMutation handle =>
    match (restoreMutationCheckpoint handle t.session.engine).1 with
    | .ok _ => t.atBegin
    | .error _ => t.map
  | _ => t.map

def Traced.apply (c : EngineConfig V) (t : Traced V) (event : Event V) : Traced V where
  session := t.session.apply c event
  map := t.nextMap c event
  atBegin :=
    match event with
    | .beginMutation key =>
      match (beginMutationCheckpoint key t.session.engine).1 with
      | .ok _ => t.map
      | .error _ => t.atBegin
    | _ => t.atBegin
  saved :=
    match event with
    | .checkpoint => t.saved ++ [t.map]
    | _ => t.saved

inductive TracedRun (c : EngineConfig V) : Traced V → Prop
  | init : TracedRun c .init
  | step {t : Traced V} (h : TracedRun c t) (event : Event V) (ha : event.Allowed t.session) :
      TracedRun c (t.apply c event)

/-- Every reachable session has a traced run. -/
theorem Reachable.traced {s : Session V} (h : Reachable c s) :
    ∃ t, TracedRun c t ∧ t.session = s := by
  induction h with
  | init => exact ⟨.init, .init, rfl⟩
  | step _ event ha ih =>
    obtain ⟨t, ht, rfl⟩ := ih
    exact ⟨t.apply c event, ht.step event ha, rfl⟩

structure Traced.Inv (c : EngineConfig V) (t : Traced V) : Prop where
  session : t.session.Inv c
  refines : Refines t.session.engine.entries t.map
  saved : List.Forall₂ (fun p m => Refines p.entries m) t.session.checkpoints t.saved
  journal : ∀ j, t.session.engine.activeMutation = some j →
    ∃ s₀, Journaling s₀ j.key j.handle t.session.engine j ∧ Refines s₀.entries t.atBegin

theorem Traced.Inv.call {t : Traced V} (h : t.Inv c) (op : Call V)
    (ha : (Event.call op).Allowed t.session) : (t.apply c (.call op)).Inv c where
  session := h.session.call op ha
  refines := op.refines h.session.sound h.refines
  saved := h.saved
  journal := by
    intro j hj
    change (op.run c t.session.engine).activeMutation = some j at hj
    cases hact : t.session.engine.activeMutation with
    | none =>
      rw [op.activeMutation_none hact] at hj
      cases hj
    | some j₀ =>
      obtain ⟨s₀, hjour, hs₀⟩ := h.journal j₀ hact
      obtain ⟨j', hj'⟩ := Journaling.edits ((ha j₀ hact).edits (c := c) t.session.engine)
        ⟨j₀, hjour⟩
      obtain rfl : j' = j := Option.some.inj (hj'.active.symm.trans hj)
      refine ⟨s₀, ?_, hs₀⟩
      rw [hj'.key_eq, hj'.handle_eq]
      exact hj'

theorem Traced.Inv.apply {t : Traced V} (h : t.Inv c) (event : Event V)
    (ha : event.Allowed t.session) : (t.apply c event).Inv c := by
  have hsession := h.session.apply event ha
  cases event with
  | call op => exact h.call op ha
  | checkpoint =>
    exact ⟨hsession, h.refines, List.rel_append h.saved (.cons h.refines .nil), h.journal⟩
  | restoreCheckpoint i =>
    refine ⟨hsession, ?_, ?_, ?_⟩
    · simp only [Traced.apply, Session.apply, Traced.nextMap]
      cases hp : t.session.checkpoints[i]? with
      | none =>
        have hlen := h.saved.length_eq
        have : t.saved[i]? = none := by
          rw [List.getElem?_eq_none_iff] at hp ⊢
          omega
        simpa [this] using h.refines
      | some p =>
        obtain ⟨hi, hpi⟩ := List.getElem?_eq_some_iff.mp hp
        have hi' : i < t.saved.length := h.saved.length_eq ▸ hi
        have hrel := h.saved.get hi hi'
        simp only [List.getElem?_eq_getElem hi', Option.getD_some]
        have hget : t.session.checkpoints.get ⟨i, hi⟩ = p := hpi
        rw [hget] at hrel
        exact hrel
    · simp only [Traced.apply, Session.apply]
      split <;> exact h.saved
    · intro j hj
      have hnone : t.session.engine.activeMutation = none := ha
      simp only [Traced.apply, Session.apply] at hj
      split at hj
      · exact absurd (hnone.symm.trans hj) (by simp)
      · exact absurd (hnone.symm.trans hj) (by simp)
  | beginMutation key =>
    rcases beginMutationCheckpoint_cases key t.session.engine with ⟨e, hb⟩ | ⟨_, hb⟩
    · refine ⟨hsession, ?_, h.saved, ?_⟩ <;>
        simp only [Traced.apply, Session.apply, hb, Traced.nextMap]
      · exact h.refines
      · exact h.journal
    · refine ⟨hsession, ?_, h.saved, ?_⟩ <;>
        simp only [Traced.apply, Session.apply, hb, Traced.nextMap]
      · exact h.refines
      · intro j hj
        obtain rfl := Option.some.inj hj
        exact ⟨t.session.engine, Journaling.opened key t.session.engine, h.refines⟩
  | commitMutation handle =>
    rcases validateActiveMutation_cases handle t.session.engine with ⟨j, _, _, hv⟩ | ⟨e, hv⟩
    · refine ⟨hsession, ?_, h.saved, ?_⟩ <;>
        simp only [Traced.apply, Session.apply, commitMutationCheckpoint, run_bind, hv, run_modify,
          Traced.nextMap]
      · exact h.refines
      · simp
    · refine ⟨hsession, ?_, h.saved, ?_⟩ <;>
        simp only [Traced.apply, Session.apply, commitMutationCheckpoint, run_bind, hv,
          Traced.nextMap]
      · exact h.refines
      · exact h.journal
  | restoreMutation handle =>
    rcases validateActiveMutation_cases handle t.session.engine with ⟨j, hj, _, hv⟩ | ⟨e, hv⟩
    · obtain ⟨s₀, hjour, hs₀⟩ := h.journal j hj
      refine ⟨hsession, ?_, h.saved, ?_⟩ <;>
        simp only [Traced.apply, Session.apply, restoreMutationCheckpoint, run_bind, hv, run_modify,
          Traced.nextMap]
      · exact hs₀.congr (get?_rollback_entries hjour)
      · intro j' hj'
        rw [rollback_activeMutation] at hj'
        cases hj'
    · refine ⟨hsession, ?_, h.saved, ?_⟩ <;>
        simp only [Traced.apply, Session.apply, restoreMutationCheckpoint, run_bind, hv,
          Traced.nextMap]
      · exact h.refines
      · exact h.journal

theorem TracedRun.inv {t : Traced V} (h : TracedRun c t) : t.Inv c := by
  induction h with
  | init =>
    exact ⟨Reachable.init.inv, by simp [Traced.init, Refines, Engine.init], .nil,
      by simp [Traced.init, Engine.init]⟩
  | step _ event ha ih => exact ih.apply event ha

/-! ## Results of the reading calls -/

theorem resultAt_state (now : ℚ) (w : Option (Written V)) : (resultAt now w).state = .miss ∨
    (resultAt now w).state = .fresh ∨ (resultAt now w).state = .stale := by
  unfold resultAt
  cases w with
  | none => exact .inl rfl
  | some w =>
    dsimp only
    split_ifs
    · exact .inl rfl
    · exact .inr (.inl rfl)
    · exact .inr (.inr rfl)

theorem Refines.mget {m : TimedMap V} {keys : List Key} {rs : List (CacheResult V)}
    {s s' : Engine V} (h : Refines s.entries m) (hr : mget c keys s = (.ok rs, s')) {i : ℕ}
    {k : Key} {r : CacheResult V} (hk : keys[i]? = some k) (hi : rs[i]? = some r) :
    Answers m k (c.clock (s.ticks + i)) r := by
  unfold Engine.mget at hr
  induction keys generalizing s rs i with
  | nil => simp at hk
  | cons key keys ih =>
    rw [collect, bind_eq_ok] at hr
    obtain ⟨r₀, s₁, hget, hr⟩ := hr
    rw [bind_eq_ok] at hr
    obtain ⟨rs₁, s₂, hrest, hr⟩ := hr
    obtain ⟨rfl, rfl⟩ : r₀ :: rs₁ = rs ∧ s₂ = s' := by simpa using hr
    cases i with
    | zero =>
      obtain rfl : key = k := by simpa using hk
      obtain rfl : r₀ = r := by simpa using hi
      exact h.getEntry hget
    | succ i =>
      have hthin : Edits c Permit.thinning s s₁ :=
        (edits_getEntry (p := Permit.thinning) trivial trivial).run hget
      have hticks := lookup_ticks (getEntry_ok hget)
      have := ih (h.thinned hthin) hrest (by simpa using hk) (by simpa using hi)
      rwa [hticks, Nat.add_right_comm, Nat.add_assoc] at this

/-- As `Answers`; a stale value handed out together with a lease is reported as `stale_lease`. -/
def AnswersLease (m : TimedMap V) (key : Key) (t : ℚ) (r : CacheResult V) : Prop :=
  ∀ v, r.value = some v → m key = .unknown ∨ ∃ w, m key = .written w ∧ v = w.value ∧
    (t : Deadline) < w.staleUntil ∧ (r.state = .fresh ↔ (t : Deadline) < w.freshUntil) ∧
    (r.state = .stale ∨ r.state = .staleLease ∧ r.leaseToken ≠ none ↔
      w.freshUntil ≤ (t : Deadline))

theorem purgeExpiredLeases_entries_ticks (now : ℚ) (s : Engine V) :
    (purgeExpiredLeases now s).entries = s.entries ∧ (purgeExpiredLeases now s).ticks = s.ticks := by
  have hfold : ∀ (l : List (Key × Lease)) (u : Engine V),
      (l.foldl (fun s q => if q.2.untilTime ≤ now then removeLease q.1 s else s) u).entries =
          u.entries ∧
        (l.foldl (fun s q => if q.2.untilTime ≤ now then removeLease q.1 s else s) u).ticks =
          u.ticks := by
    intro l
    induction l with
    | nil => exact fun _ => ⟨rfl, rfl⟩
    | cons q l ih =>
      intro u
      rw [List.foldl_cons, (ih _).1, (ih _).2]
      split_ifs <;> simp
  exact hfold _ _

theorem Refines.acquireLease {m : TimedMap V} {key : Key} {force : Bool} {r : CacheResult V}
    {s s' : Engine V} (h : Refines s.entries m)
    (hr : acquireLease c key force s = (.ok r, s')) :
    AnswersLease m key (c.clock (s.ticks + 1)) r := by
  rw [Engine.acquireLease, bind_eq_ok] at hr
  obtain ⟨_, s₀, hkey, hr⟩ := hr
  obtain ⟨rfl, _⟩ := validateKey_ok hkey
  change acquireLocked c key force (c.clock s₀.ticks) { s₀ with ticks := s₀.ticks + 1 } =
    (.ok r, s') at hr
  obtain ⟨cached, s₁, hl, _, hcases⟩ := acquireLocked_cases (c := c) key force
    (s := { s₀ with ticks := s₀.ticks + 1 }) ⟨s₀.ticks, Nat.lt_succ_self _, rfl⟩
  obtain ⟨hpe, hpt⟩ := purgeExpiredLeases_entries_ticks (c.clock s₀.ticks)
    { s₀ with ticks := s₀.ticks + 1 }
  have hcached : cached = resultAt (c.clock (s₀.ticks + 1))
      ((s₀.entries.get? key).map Entry.written) := by
    rw [lookup_result hl, lookupAt_result, hpe, hpt]
  have hans : Answers m key (c.clock (s₀.ticks + 1)) cached := by
    have := h.answers key (c.clock (s₀.ticks + 1)) true
    rwa [lookupAt_result, ← hcached] at this
  have hstate : cached.state ≠ .staleLease := by
    have hs := resultAt_state (c.clock (s₀.ticks + 1)) ((s₀.entries.get? key).map Entry.written)
    rw [← hcached] at hs
    rcases hs with hs | hs | hs <;> simp [hs]
  intro v hv
  rcases hcases with ⟨r', s'', ha, _, hres⟩ | ⟨res, ha, _, _, _, htok, hres⟩ <;> rw [ha] at hr
  · obtain ⟨rfl, rfl⟩ : r' = .ok r ∧ s'' = s' := by simpa using hr
    rcases (hres r rfl).2 with rfl | hnone
    · rcases hans v hv with hu | ⟨w, hw, hval, hlt, hfresh, hstale⟩
      · exact .inl hu
      · exact .inr ⟨w, hw, hval, hlt, hfresh, by simpa [hstate] using hstale⟩
    · rw [hv] at hnone
      cases hnone
  · obtain ⟨rfl, rfl⟩ : res = r ∧ granted c key (c.clock s₀.ticks) s₁ = s' := by simpa using hr
    rcases hres with ⟨_, hnone⟩ | ⟨hst, hcs, hval⟩
    · rw [hv] at hnone
      cases hnone
    · rw [hv] at hval
      rcases hans v hval.symm with hu | ⟨w, hw, hval', hlt, hfresh, hstale⟩
      · exact .inl hu
      · have hle : w.freshUntil ≤ ((c.clock (s₀.ticks + 1) : ℚ) : Deadline) := hstale.mp hcs
        exact .inr ⟨w, hw, hval', hlt, by simp [hst, hle], by simp [hst, htok, hle]⟩

/-! ## Calls about other keys -/

/-- The number of entries evicted so far. -/
def evictions (s : Engine V) : ℕ := (s.metrics.get? .evictions).getD 0

/-- Whether a call writes, deletes or reschedules the entry of `k`. -/
def Call.Concerns (s : Engine V) (k : Key) : Call V → Prop
  | .put key .. | .delete key | .expire key _ | .getOrLoad key .. => key = k
  | .mset values => k ∈ values.map Prod.fst
  | .deleteMany ks => k ∈ ks
  | .restoreEntries entries => k ∈ entries.map StorageEntry.key
  | .invalidateTags tags => ∃ e, s.entries.get? k = some e ∧ ∃ t ∈ tags, t ∈ e.tags
  | .flush => True
  | _ => False

/-- Every edit but writing, dropping and rescheduling the entry of `k`. -/
def Permit.sparing (k : Key) : Permit V :=
  { (Permit.anything : Permit V) with
    drop := (· ≠ k)
    store := fun k' _ => k' ≠ k
    update := fun k' f => k' ≠ k ∨ ∀ e, (f e).written = e.written }

theorem Permit.sparing_writes {k key : Key} (h : key ≠ k) :
    (Permit.sparing k : Permit V).Writes key :=
  ⟨trivial, trivial, fun _ => h, trivial, trivial⟩

/-- What the edits that spare `k` leave of its entry: all that was written, or
nothing after an eviction or after its stale deadline. -/
structure Spared (c : EngineConfig V) (k : Key) (s u : Engine V) : Prop where
  evictions_le : evictions s ≤ evictions u
  entry : (u.entries.get? k).map Entry.written = (s.entries.get? k).map Entry.written ∨
    u.entries.get? k = none ∧ (evictions s < evictions u ∨
      ∃ e i, s.entries.get? k = some e ∧ i < u.ticks ∧ e.staleUntil ≤ (c.clock i : Deadline))

theorem evictions_bump (n : Metric) (a : ℕ) (s : Engine V) :
    evictions s ≤ evictions (s.bump n a) := by
  unfold evictions bump
  rw [OrderedDict.get?_set]
  split_ifs with h
  · subst h
    simp
  · exact le_rfl

theorem evictions_evicted (k : Key) (s : Engine V) :
    evictions ((removeEntry k s).bump .evictions 1) = evictions s + 1 := by
  simp [evictions, bump]

theorem Spared.frame {k : Key} {s u u' : Engine V} (h : Spared c k s u)
    (he : (u'.entries.get? k).map Entry.written = (u.entries.get? k).map Entry.written)
    (hm : evictions u ≤ evictions u') (ht : u.ticks ≤ u'.ticks) : Spared c k s u' := by
  refine ⟨h.evictions_le.trans hm, ?_⟩
  rcases h.entry with hs | ⟨hn, hs⟩
  · exact .inl (he.trans hs)
  · right
    rw [hn, Option.map_none, Option.map_eq_none_iff] at he
    refine ⟨he, ?_⟩
    rcases hs with hs | ⟨e, i, hg, hi, hd⟩
    · exact .inl (hs.trans_le hm)
    · exact .inr ⟨e, i, hg, hi.trans_le ht, hd⟩

theorem Spared.edit {k : Key} {s u u' : Engine V} (hu : Edit c (Permit.sparing k) u u')
    (h : Spared c k s u) : Spared c k s u' := by
  have hother : ∀ k', k' ≠ k → Spared c k s (removeEntry k' u) := by
    intro k' hk
    refine h.frame ?_ (by simp [evictions]) (by simp)
    rw [removeEntry_entries, OrderedDict.get?_erase, if_neg hk.symm]
  cases hu with
  | tick => exact h.frame rfl le_rfl (Nat.le_succ _)
  | draw => exact h.frame rfl le_rfl le_rfl
  | bump n a => exact h.frame rfl (evictions_bump n a u) le_rfl
  | touch a t hp hg =>
    rename_i k' e
    refine h.frame ?_ le_rfl le_rfl
    rw [OrderedDict.get?_setLast]
    split_ifs with hk
    · rw [hk, hg]
      rfl
    · rfl
  | expire hp hg hi hd =>
    rename_i k' e i
    by_cases hk : k' = k
    · subst hk
      refine ⟨by simpa [evictions] using h.evictions_le, .inr ⟨by simp, .inr ?_⟩⟩
      -- what expired is what was there at the beginning
      rcases h.entry with hs | ⟨hn, _⟩
      · rw [hg, Option.map_some, eq_comm, Option.map_eq_some_iff] at hs
        obtain ⟨e₀, he₀, hw⟩ := hs
        have hsame : e₀.staleUntil = e.staleUntil := congrArg Written.staleUntil hw
        exact ⟨e₀, i, he₀, by simpa using hi, hsame ▸ hd⟩
      · rw [hg] at hn
        cases hn
    · exact hother k' hk
  | evict hm hv =>
    rename_i k'
    by_cases hk : k' = k
    · subst hk
      have hlt : evictions s < evictions ((removeEntry k' u).bump .evictions 1) := by
        have := h.evictions_le
        rw [evictions_evicted]
        omega
      exact ⟨hlt.le, .inr ⟨by simp, .inl hlt⟩⟩
    · exact (hother k' hk).frame rfl (evictions_bump _ _ _) le_rfl
  | drop hp => exact hother _ hp
  | store hp =>
    rename_i k' e
    have hp' : k' ≠ k := hp
    refine h.frame ?_ (by simp [evictions, storeEntry]) (by simp [storeEntry])
    rw [get?_storeEntry, if_neg hp'.symm]
  | update hp hf =>
    rename_i k' f
    refine h.frame ?_ ?_ ?_
    · rw [get?_updateEntry]
      split_ifs with hk
      · subst hk
        rcases hp with hp | hp
        · exact absurd rfl hp
        · cases u.entries.get? k <;> simp [hp]
      · rfl
    · unfold updateEntry
      split <;> exact le_rfl
    · unfold updateEntry
      split <;> exact le_rfl
  | lapse hp hg hi hd => exact h.frame (by simp) (by simp [evictions]) (by simp)
  | release hp => exact h.frame (by simp) (by simp [evictions]) (by simp)
  | grant hp hg => exact h.frame rfl le_rfl le_rfl
  | renew t hp hg => exact h.frame rfl le_rfl le_rfl

theorem Spared.edits {k : Key} {s s' : Engine V} (hs : Edits c (Permit.sparing k) s s') :
    Spared c k s s' :=
  Edits.keep (I := Spared c k s) (fun _ _ => Spared.edit) hs ⟨le_rfl, .inl rfl⟩

theorem Call.edits_sparing {op : Call V} {k : Key} {s : Engine V} (hs : Sound c s)
    (h : ¬op.Concerns s k) : Edits c (Permit.sparing k) s (op.run c s) := by
  have hw : ∀ key, key ≠ k → (Permit.sparing k : Permit V).Writes key :=
    fun key => Permit.sparing_writes
  cases op with
  | get key => exact edits_getEntry trivial trivial s
  | mget keys => exact edits_mget (fun _ _ => trivial) (fun _ _ => trivial) s
  | put key => exact edits_put (hw key h) _ _ _ _ _ _ s
  | mset values =>
    refine edits_mset (fun item hi => hw item.1 ?_) s
    rintro rfl
    exact h (List.mem_map_of_mem hi)
  | delete key => exact edits_delete (p := Permit.sparing k) h trivial s
  | deleteMany keys =>
    refine edits_deleteMany (p := Permit.sparing k) (fun key hk => ?_) (fun _ _ => trivial) s
    rintro rfl
    exact h hk
  | existsCount keys => exact edits_existsCount (fun _ _ => trivial) (fun _ _ => trivial) s
  | expire key =>
    exact edits_expire (p := Permit.sparing k) trivial trivial (fun _ _ => .inl h) _ s
  | ttl key => exact edits_ttl trivial trivial s
  | flush => exact absurd trivial h
  | size => exact edits_size (fun _ => trivial) (fun _ => trivial) s
  | keys => exact edits_keys (fun _ => trivial) s
  | exportEntries keys => exact edits_exportEntries (fun _ => trivial) s
  | restoreEntries entries =>
    refine edits_restoreEntries (p := Permit.sparing k) (fun _ => trivial) (fun item hi _ => ?_) s
    rintro rfl
    exact h (List.mem_map_of_mem hi)
  | validatePut => exact edits_validatePut _ _ _ _ _ _ _ s
  | validateRestoreEntries entries => exact edits_validateRestoreEntries (fun _ => trivial) _ s
  | invalidateTags tags =>
    change Edits c (Permit.sparing k) s (Engine.invalidateTags tags s).2
    rcases invalidateTags_cases tags s with ⟨e, hr⟩ | ⟨n, hr⟩ <;> rw [hr]
    refine edits_invalidateLocked (p := Permit.sparing k) (fun key hk => ?_) (fun _ _ => trivial)
    rintro rfl
    exact h ((mem_taggedKeys hs.accounts.indexes).mp hk)
  | acquireLease key force =>
    exact edits_acquireLease force trivial trivial (fun _ => trivial) (fun _ => trivial) s
  | releaseLease key => exact edits_releaseLease trivial _ s
  | renewLease key => exact edits_renewLease trivial trivial _ s
  | getOrLoad key => exact edits_getOrLoad (hw key h) _ _ _ _ s
  | recordLoadCost key durationMs =>
    exact edits_recordLoadCost (fun _ => Or.inr fun _ => rfl) durationMs s
  | stats => exact edits_stats (fun _ => trivial) (fun _ => trivial) (fun _ => trivial) s

/-- A call that does not concern `k` leaves the result for `k` at any later time
as it was, unless it evicts `k`. -/
theorem Call.result_spared {op : Call V} {k : Key} {s : Engine V} (hs : Sound c s)
    (h : ¬op.Concerns s k) {time : ℚ} (ht : ∀ i < (op.run c s).ticks, c.clock i ≤ time) :
    (lookupAt time k false (op.run c s)).1 = (lookupAt time k false s).1 ∨
      (lookupAt time k false (op.run c s)).1 = .miss ∧
        evictions s < evictions (op.run c s) := by
  have hsp := Spared.edits (Call.edits_sparing hs h)
  rw [lookupAt_result, lookupAt_result]
  rcases hsp.entry with he | ⟨hn, hev | ⟨e, i, hg, hi, hd⟩⟩
  · exact .inl (by rw [he])
  · exact .inr ⟨by rw [hn]; rfl, hev⟩
  · left
    have hle : e.written.staleUntil ≤ (time : Deadline) :=
      hd.trans (WithTop.coe_le_coe.mpr (ht i hi))
    rw [hn, hg]
    simp [resultAt, hle]

/-! ## The refinement -/

/-- Whatever value a reading call returns is the one the timed map holds, in the
state its deadlines give it, and calls about other keys can only evict it. -/
theorem engine_refines_timedMap {t : Traced V} (h : TracedRun c t) :
    let s := t.session.engine
    (∀ k r s', getEntry c k s = (.ok r, s') → Answers t.map k (c.clock s.ticks) r) ∧
    (∀ keys rs s', mget c keys s = (.ok rs, s') → ∀ (i : ℕ) k r, keys[i]? = some k →
      rs[i]? = some r → Answers t.map k (c.clock (s.ticks + i)) r) ∧
    (∀ k force r s', acquireLease c k force s = (.ok r, s') →
      AnswersLease t.map k (c.clock (s.ticks + 1)) r) ∧
    (∀ k loaded ttlSeconds staleSeconds tags r s',
      getOrLoad c k loaded ttlSeconds staleSeconds tags s = (.ok r, s') →
      (∀ cached s₁, getEntry c k s = (.ok cached, s₁) → cached.state ≠ .miss) →
      Answers t.map k (c.clock s.ticks) r) ∧
    ∀ (op : Call V) k time, ¬op.Concerns s k → (∀ i < (op.run c s).ticks, c.clock i ≤ time) →
      (lookupAt time k false (op.run c s)).1 = (lookupAt time k false s).1 ∨
        (lookupAt time k false (op.run c s)).1 = .miss ∧
          evictions s < evictions (op.run c s) := by
  obtain ⟨hsession, hrefines, _, _⟩ := h.inv
  refine ⟨?_, ?_, ?_, ?_, ?_⟩
  · intro k r s' hr
    exact hrefines.getEntry hr
  · intro keys rs s' hr i k r hk hi
    exact hrefines.mget hr hk hi
  · intro k force r s' hr
    exact hrefines.acquireLease hr
  · intro k loaded ttlSeconds staleSeconds tags r s' hr hhit
    rw [getOrLoad_eq] at hr
    rcases hg : getEntry c k t.session.engine with ⟨e | cached, s₁⟩ <;> simp only [hg] at hr
    · simp at hr
    · rw [if_pos (hhit cached s₁ hg)] at hr
      obtain ⟨rfl, rfl⟩ : cached = r ∧ s₁ = s' := by simpa using hr
      exact hrefines.getEntry hg
  · intro op k time hop ht
    exact Call.result_spared hsession.sound hop ht

/-- An entry that is fresh for one second, read after four. -/
def staleTrace : Traced String :=
  Traced.init.apply smallConfig (.call (.put "a" "1" (some 1) none [] none false))

theorem staleTrace_run : TracedRun smallConfig staleTrace := .step .init _ (by decide)

theorem staleTrace_refines :
    staleTrace.map "a" = .written ⟨"1", ((1 : ℚ) : Deadline), ((61 : ℚ) : Deadline), []⟩ ∧
      ∀ r s', acquireLease smallConfig "a" false staleTrace.session.engine = (.ok r, s') →
        AnswersLease staleTrace.map "a" (smallConfig.clock 3) r := by
  have hticks : staleTrace.session.engine.ticks = 2 := by decide +kernel
  refine ⟨by decide +kernel, ?_⟩
  intro r s' hr
  have := (engine_refines_timedMap staleTrace_run).2.2.1 "a" false r s' hr
  rwa [hticks] at this

/-- In the stale window `acquire_lease` returns the value in the state `stale_lease`. -/
theorem acquireLease_not_stale :
    ¬∀ t : Traced String, TracedRun smallConfig t → ∀ k force r s',
      acquireLease smallConfig k force t.session.engine = (.ok r, s') →
        Answers t.map k (smallConfig.clock (t.session.engine.ticks + 1)) r := by
  intro h
  have hres : (acquireLease smallConfig "a" false staleTrace.session.engine).1 =
      .ok ⟨.staleLease, some "1", ((30 : ℚ) : Deadline), ((58 : ℚ) : Deadline), some "t", 0⟩ := by
    decide +kernel
  have hmap : staleTrace.map "a" =
      .written ⟨"1", ((1 : ℚ) : Deadline), ((61 : ℚ) : Deadline), []⟩ := by
    decide +kernel
  have hticks : staleTrace.session.engine.ticks = 2 := by decide +kernel
  have hans := h staleTrace staleTrace_run "a" false _ _ (Prod.ext hres rfl) "1" rfl
  rw [hmap, hticks] at hans
  rcases hans with hu | ⟨w, hw, _, _, _, hstale⟩
  · cases hu
  · obtain rfl := Slot.written.inj hw
    have hle : ((1 : ℚ) : Deadline) ≤ ((smallConfig.clock 3 : ℚ) : Deadline) := by decide
    exact absurd (hstale.mpr hle) (by decide)

end Engine
end MegaCache
