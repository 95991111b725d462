import MegaCache.Engine.Journal

/-!
# Runs of the cache engine

A session is an engine together with the checkpoints taken of it.  A run applies
public calls to it in any order, whether they return or raise.  While a journal
is open only its key may be read or written, as the replication coordinator does.
-/

namespace MegaCache
namespace Engine

open Prog

variable {V : Type} {c : EngineConfig V}

/-- A public call of `CacheEngine` other than those of checkpoints and journals. -/
inductive Call (V : Type)
  | get (key : Key)
  | mget (keys : List Key)
  | put (key : Key) (value : V) (ttlSeconds staleSeconds : Option ℤ) (tags : List Tag)
      (leaseToken : Option String) (persistent : Bool)
  | mset (values : List (Key × V))
  | delete (key : Key)
  | deleteMany (keys : List Key)
  | existsCount (keys : List Key)
  | expire (key : Key) (ttlSeconds : ℤ)
  | ttl (key : Key)
  | flush
  | size
  | keys
  | exportEntries (keys : Option (List Key))
  | restoreEntries (entries : List (StorageEntry V))
  | validatePut (key : Key) (value : V) (ttlSeconds staleSeconds : Option ℤ) (tags : List Tag)
      (leaseToken : Option String) (persistent : Bool)
  | validateRestoreEntries (entries : List (StorageEntry V))
  | invalidateTags (tags : List Tag)
  | acquireLease (key : Key) (force : Bool)
  | releaseLease (key : Key) (leaseToken : String)
  | renewLease (key : Key) (leaseToken : String)
  | getOrLoad (key : Key) (loaded : Except PyError V) (ttlSeconds staleSeconds : Option ℤ)
      (tags : List Tag)
  | recordLoadCost (key : Key) (durationMs : ℚ)
  | stats

/-- The engine after a call, whichever way it ended. -/
def Call.run (c : EngineConfig V) : Call V → Engine V → Engine V
  | .get key, s => (getEntry c key s).2
  | .mget ks, s => (Engine.mget c ks s).2
  | .put key value ttlSeconds staleSeconds tags leaseToken persistent, s =>
    (Engine.put c key value ttlSeconds staleSeconds tags leaseToken persistent s).2
  | .mset values, s => (Engine.mset c values s).2
  | .delete key, s => (Engine.delete key s).2
  | .deleteMany ks, s => (Engine.deleteMany ks s).2
  | .existsCount ks, s => (Engine.existsCount c ks s).2
  | .expire key ttlSeconds, s => (Engine.expire c key ttlSeconds s).2
  | .ttl key, s => (Engine.ttl c key s).2
  | .flush, s => (Engine.flush s).2
  | .size, s => (Engine.size c s).2
  | .keys, s => (Engine.keys c s).2
  | .exportEntries ks, s => (Engine.exportEntries c ks s).2
  | .restoreEntries entries, s => (Engine.restoreEntries c entries s).2
  | .validatePut key value ttlSeconds staleSeconds tags leaseToken persistent, s =>
    (Engine.validatePut c key value ttlSeconds staleSeconds tags leaseToken persistent s).2
  | .validateRestoreEntries entries, s => (Engine.validateRestoreEntries c entries s).2
  | .invalidateTags tags, s => (Engine.invalidateTags tags s).2
  | .acquireLease key force, s => (Engine.acquireLease c key force s).2
  | .releaseLease key leaseToken, s => (Engine.releaseLease key leaseToken s).2
  | .renewLease key leaseToken, s => (Engine.renewLease c key leaseToken s).2
  | .getOrLoad key loaded ttlSeconds staleSeconds tags, s =>
    (Engine.getOrLoad c key loaded ttlSeconds staleSeconds tags s).2
  | .recordLoadCost key durationMs, s => (Engine.recordLoadCost key durationMs s).2
  | .stats, s => (Engine.stats c s).2

/-- The calls that may be made while a journal of `key` is open. -/
def Call.Keyed (key : Key) : Call V → Prop
  | .get k | .put k .. | .delete k | .expire k _ | .ttl k => k = key
  | .restoreEntries entries => ∀ item ∈ entries, item.key = key
  | _ => False

/-- Of these, the ones that leave every other key's entry alone unless it is evicted. -/
def Call.Single (key : Key) : Call V → Prop
  | .get k | .put k .. | .delete k | .expire k _ => k = key
  | _ => False

/-- An engine and the checkpoints taken of it. -/
structure Session (V : Type) where
  engine : Engine V
  checkpoints : List (EngineCheckpoint V)

inductive Event (V : Type)
  | call (op : Call V)
  | checkpoint
  | restoreCheckpoint (i : ℕ)
  | beginMutation (key : Key)
  | commitMutation (handle : ℕ)
  | restoreMutation (handle : ℕ)

/-- The state of the engine that `checkpoint` copies. -/
def captured (s : Engine V) : EngineCheckpoint V :=
  ⟨s.entries, s.usedBytes, s.leaseBytes, s.tags, s.leases, s.metrics⟩

def Session.apply (c : EngineConfig V) (s : Session V) : Event V → Session V
  | .call op => { s with engine := op.run c s.engine }
  | .checkpoint => { s with checkpoints := s.checkpoints ++ [captured s.engine] }
  | .restoreCheckpoint i =>
    match s.checkpoints[i]? with
    | none => s
    | some p => { s with engine := (Engine.restoreCheckpoint p s.engine).2 }
  | .beginMutation key => { s with engine := (beginMutationCheckpoint key s.engine).2 }
  | .commitMutation handle => { s with engine := (commitMutationCheckpoint handle s.engine).2 }
  | .restoreMutation handle => { s with engine := (restoreMutationCheckpoint handle s.engine).2 }

/-- While a journal is open, only its key is used and no checkpoint is. -/
def Event.Allowed (s : Session V) : Event V → Prop
  | .call op => ∀ j, s.engine.activeMutation = some j → op.Keyed j.key
  | .checkpoint | .restoreCheckpoint _ => s.engine.activeMutation = none
  | .beginMutation _ | .commitMutation _ | .restoreMutation _ => True

instance (key : Key) (op : Call V) : Decidable (op.Keyed key) := by
  cases op <;> unfold Call.Keyed <;> infer_instance

instance (key : Key) (op : Call V) : Decidable (op.Single key) := by
  cases op <;> unfold Call.Single <;> infer_instance

instance (s : Session V) (event : Event V) : Decidable (event.Allowed s) :=
  match event with
  | .call op => decidable_of_iff (∀ j ∈ s.engine.activeMutation, op.Keyed j.key) Iff.rfl
  | .checkpoint => decidable_of_iff (s.engine.activeMutation.isNone) Option.isNone_iff_eq_none
  | .restoreCheckpoint _ =>
    decidable_of_iff (s.engine.activeMutation.isNone) Option.isNone_iff_eq_none
  | .beginMutation _ | .commitMutation _ | .restoreMutation _ => isTrue trivial

/-- The sessions that runs of public calls lead to. -/
inductive Reachable (c : EngineConfig V) : Session V → Prop
  | init : Reachable c ⟨init, []⟩
  | step {s : Session V} (h : Reachable c s) (event : Event V) (ha : event.Allowed s) :
      Reachable c (s.apply c event)

/-- Every event of a run is allowed when it is applied. -/
def Session.AllowedRun (c : EngineConfig V) : Session V → List (Event V) → Prop
  | _, [] => True
  | s, event :: events => event.Allowed s ∧ AllowedRun c (s.apply c event) events

instance decidableAllowedRun (c : EngineConfig V) :
    (s : Session V) → (events : List (Event V)) → Decidable (s.AllowedRun c events)
  | _, [] => isTrue trivial
  | s, event :: events =>
    have := decidableAllowedRun c (s.apply c event) events
    inferInstanceAs (Decidable (event.Allowed s ∧ (s.apply c event).AllowedRun c events))

theorem Reachable.run {s : Session V} (h : Reachable c s) (events : List (Event V))
    (ha : s.AllowedRun c events) : Reachable c (events.foldl (Session.apply c) s) := by
  induction events generalizing s with
  | nil => exact h
  | cons event events ih => exact ih (h.step event ha.1) ha.2

/-! ## The edits of a call -/

/-- Every edit of every key. -/
def Permit.anything : Permit V where
  touch _ := True
  expire _ := True
  drop _ := True
  store _ _ := True
  update _ _ := True
  lapse _ := True
  release _ := True
  grant _ _ := True
  renew _ := True

theorem Permit.anything_writes (key : Key) : (Permit.anything : Permit V).Writes key :=
  ⟨trivial, trivial, fun _ => trivial, trivial, trivial⟩

theorem Permit.journaled_writes (key : Key) : (Permit.journaled key : Permit V).Writes key :=
  ⟨rfl, trivial, fun _ => rfl, rfl, rfl⟩

theorem Permit.confined_writes (key : Key) : (Permit.confined key : Permit V).Writes key :=
  ⟨rfl, rfl, fun _ => rfl, rfl, rfl⟩

theorem edits_restoreEntries {p : Permit V} {entries : List (StorageEntry V)}
    (hx : ∀ k, p.expire k) (hs : ∀ item ∈ entries, ∀ e, p.store item.key e) (s : Engine V) :
    Edits c p s (restoreEntries c entries s).2 := by
  have hpurge : (Permit.purges : Permit V).Le p := { Permit.nothing_le p with expire := fun k _ => hx k }
  rcases restoreEntries_cases (c := c) entries s with
    ⟨e, s', h, hed⟩ | ⟨prepared, now, s₁, h, hed, _, hfrom, _⟩
  · rw [h]
    exact hed.mono hpurge
  · rw [h]
    refine (hed.mono hpurge).trans (edits_storeAll ?_ s₁)
    intro q hq e
    obtain ⟨item, hitem, hr⟩ := hfrom.restores q hq
    exact hr.key_eq ▸ hs item hitem e

theorem edits_acquireLease {p : Permit V} {key : Key} (force : Bool) (ht : p.touch key)
    (hx : p.expire key) (hl : ∀ k, p.lapse k) (hg : ∀ l, p.grant key l) :
    Rel (Edits c p) (acquireLease c key force) := by
  refine Rel.bind (edits_validateKey key) fun _ => edits_clocked fun now s hnow => ?_
  have hacq : (Permit.acquiring key : Permit V).Le p :=
    { Permit.nothing_le p with
      touch := fun _ hk => hk ▸ ht
      expire := fun _ hk => hk ▸ hx
      lapse := fun k _ => hl k }
  obtain ⟨cached, s₁, _, hed, hcases⟩ := acquireLocked_cases key force hnow
  rcases hcases with ⟨r, s', h, hed', _⟩ | ⟨res, h, hnone, _, _, _, _⟩
  · rw [h]
    exact (hed.mono hacq).trans (hed'.mono hacq)
  · rw [h]
    exact (hed.mono hacq).trans (((Edits.one (.draw s₁)).tail
      (.grant _ (l := issuedLease c key now s₁) (hg _) hnone)).tail (.bump _ _ _))

theorem Call.edits (call : Call V) (hf : call ≠ .flush) (s : Engine V) :
    Edits c Permit.anything s (call.run c s) := by
  have hw := Permit.anything_writes (V := V)
  cases call with
  | get key => exact edits_getEntry trivial trivial s
  | mget keys => exact edits_mget (fun _ _ => trivial) (fun _ _ => trivial) s
  | put key => exact edits_put (hw key) _ _ _ _ _ _ s
  | mset values => exact edits_mset (fun item _ => hw item.1) s
  | delete key => exact edits_delete trivial trivial s
  | deleteMany keys => exact edits_deleteMany (fun _ _ => trivial) (fun _ _ => trivial) s
  | existsCount keys => exact edits_existsCount (fun _ _ => trivial) (fun _ _ => trivial) s
  | expire key => exact edits_expire trivial trivial (fun _ _ => trivial) _ s
  | ttl key => exact edits_ttl trivial trivial s
  | flush => exact absurd rfl hf
  | size => exact edits_size (fun _ => trivial) (fun _ => trivial) s
  | keys => exact edits_keys (fun _ => trivial) s
  | exportEntries keys => exact edits_exportEntries (fun _ => trivial) s
  | restoreEntries entries =>
    exact edits_restoreEntries (fun _ => trivial) (fun _ _ _ => trivial) s
  | validatePut => exact edits_validatePut _ _ _ _ _ _ _ s
  | validateRestoreEntries entries => exact edits_validateRestoreEntries (fun _ => trivial) _ s
  | invalidateTags tags => exact edits_invalidateTags (fun _ => trivial) (fun _ => trivial) _ s
  | acquireLease key force =>
    exact edits_acquireLease force trivial trivial (fun _ => trivial) (fun _ => trivial) s
  | releaseLease key => exact edits_releaseLease trivial _ s
  | renewLease key => exact edits_renewLease trivial trivial _ s
  | getOrLoad key => exact edits_getOrLoad (hw key) _ _ _ _ s
  | recordLoadCost key => exact edits_recordLoadCost (fun _ => trivial) _ s
  | stats => exact edits_stats (fun _ => trivial) (fun _ => trivial) (fun _ => trivial) s

theorem Call.Keyed.edits {call : Call V} {key : Key} (h : call.Keyed key) (s : Engine V) :
    Edits c (Permit.journaled key) s (call.run c s) := by
  have hw := Permit.journaled_writes (V := V) key
  cases call with
  | get k =>
    obtain rfl := h
    exact edits_getEntry hw.touch hw.expire s
  | put k =>
    obtain rfl := h
    exact edits_put hw _ _ _ _ _ _ s
  | delete k =>
    obtain rfl := h
    exact edits_delete rfl hw.release s
  | expire k =>
    obtain rfl := h
    exact edits_expire hw.touch hw.expire (fun _ _ => rfl) _ s
  | ttl k =>
    obtain rfl := h
    exact edits_ttl hw.touch hw.expire s
  | restoreEntries entries => exact edits_restoreEntries (fun _ => trivial) (fun i hi _ => h i hi) s
  | _ => exact h.elim

theorem Call.Single.edits {call : Call V} {key : Key} (h : call.Single key) (s : Engine V) :
    Edits c (Permit.confined key) s (call.run c s) := by
  have hw := Permit.confined_writes (V := V) key
  cases call with
  | get k =>
    obtain rfl := h
    exact edits_getEntry hw.touch hw.expire s
  | put k =>
    obtain rfl := h
    exact edits_put hw _ _ _ _ _ _ s
  | delete k =>
    obtain rfl := h
    exact edits_delete rfl hw.release s
  | expire k =>
    obtain rfl := h
    exact edits_expire hw.touch hw.expire (fun _ _ => rfl) _ s
  | _ => exact h.elim

/-! ## The representation invariant -/

theorem Sound.init (c : EngineConfig V) : Sound c init := ⟨Accounts.init, Bounded.init c⟩

/-- The invariant reads the five coupled structures only. -/
theorem Sound.of_data {s s' : Engine V} (h : Sound c s) (he : s'.entries = s.entries)
    (ht : s'.tags = s.tags) (hl : s'.leases = s.leases) (hu : s'.usedBytes = s.usedBytes)
    (hb : s'.leaseBytes = s.leaseBytes) : Sound c s' := by
  obtain ⟨ha, hbd⟩ := h
  refine ⟨⟨?_, ?_, ?_⟩, ?_, ?_, ?_⟩
  · rw [hb, hl]
    exact ha.leaseBytes_eq
  · rw [hu, hb, he]
    exact ha.usedBytes_eq
  · rw [ht, he]
    exact ha.indexes
  · rw [hu]
    exact hbd.usedBytes_le
  · rw [he]
    exact hbd.entries_le
  · rw [hl]
    exact hbd.leases_le

theorem Sound.flush {s : Engine V} (_ : Sound c s) : Sound c (flush s).2 where
  accounts := ⟨rfl, rfl, Indexes.empty⟩
  bounded := ⟨by simp [Engine.flush], by simp [Engine.flush], by simp [Engine.flush]⟩

theorem Permit.reads_shrinking : (Permit.reads : Permit V).Shrinking :=
  ⟨fun _ _ h => h, fun _ _ h => h⟩

/-- Every edit except writing entries and issuing leases. -/
def Permit.keeping : Permit V :=
  { Permit.anything with
    store := fun _ _ => False
    grant := fun _ _ => False }

theorem Permit.keeping_shrinking : (Permit.keeping : Permit V).Shrinking :=
  ⟨fun _ _ h => h, fun _ _ h => h⟩

theorem Call.sound (call : Call V) {s : Engine V} (h : Sound c s) : Sound c (call.run c s) := by
  have hkeep : ∀ s', Edits c Permit.keeping s s' → Sound c s' :=
    fun s' hs => h.edits Permit.keeping_shrinking hs
  cases call with
  | get key => exact hkeep _ (edits_getEntry trivial trivial s)
  | mget keys => exact hkeep _ (edits_mget (fun _ _ => trivial) (fun _ _ => trivial) s)
  | put => exact sound_put _ _ _ _ _ _ _ s h
  | mset values => exact sound_mset values s h
  | delete key => exact hkeep _ (edits_delete trivial trivial s)
  | deleteMany keys => exact hkeep _ (edits_deleteMany (fun _ _ => trivial) (fun _ _ => trivial) s)
  | existsCount keys =>
    exact hkeep _ (edits_existsCount (fun _ _ => trivial) (fun _ _ => trivial) s)
  | expire key => exact hkeep _ (edits_expire trivial trivial (fun _ _ => trivial) _ s)
  | ttl key => exact hkeep _ (edits_ttl trivial trivial s)
  | flush => exact h.flush
  | size => exact hkeep _ (edits_size (fun _ => trivial) (fun _ => trivial) s)
  | keys => exact hkeep _ (edits_keys (fun _ => trivial) s)
  | exportEntries keys => exact hkeep _ (edits_exportEntries (fun _ => trivial) s)
  | restoreEntries entries => exact sound_restoreEntries entries s h
  | validatePut => exact hkeep _ (edits_validatePut _ _ _ _ _ _ _ s)
  | validateRestoreEntries entries =>
    exact hkeep _ (edits_validateRestoreEntries (fun _ => trivial) _ s)
  | invalidateTags tags =>
    exact hkeep _ (edits_invalidateTags (fun _ => trivial) (fun _ => trivial) _ s)
  | acquireLease key force => exact sound_acquireLease key force s h
  | releaseLease key => exact hkeep _ (edits_releaseLease trivial _ s)
  | renewLease key => exact hkeep _ (edits_renewLease trivial trivial _ s)
  | getOrLoad => exact sound_getOrLoad _ _ _ _ _ s h
  | recordLoadCost key => exact hkeep _ (edits_recordLoadCost (fun _ => trivial) _ s)
  | stats =>
    exact hkeep _ (edits_stats (fun _ => trivial) (fun _ => trivial) (fun _ => trivial) s)

/-- No edit opens a journal. -/
theorem Edits.idle {p : Permit V} {s s' : Engine V} (hs : Edits c p s s')
    (h : s.activeMutation = none) : s'.activeMutation = none := by
  refine Edits.keep (I := fun u => u.activeMutation = none) ?_ hs h
  intro u u' hu hn
  have hremove : ∀ k, (removeEntry k u).activeMutation = none := by
    intro k
    unfold removeEntry
    split
    · exact hn
    · simp [hn]
  cases hu with
  | tick | draw | bump => exact hn
  | touch a t hp hg => exact hn
  | expire hp hg hi hd => exact hremove _
  | evict hm hv => exact hremove _
  | drop hp => exact hremove _
  | store hp => exact hremove _
  | update hp hf =>
    unfold updateEntry
    split <;> exact hn
  | lapse hp hg hi hd => simpa using hn
  | release hp => simpa using hn
  | grant hp hg => exact hn
  | renew t hp hg => exact hn

/-- No call opens a journal. -/
theorem Call.activeMutation_none (call : Call V) {s : Engine V} (h : s.activeMutation = none) :
    (call.run c s).activeMutation = none := by
  by_cases hf : call = .flush
  · subst hf
    exact h
  exact (call.edits hf s).idle h

/-- The invariant of a session: it covers the states that can still come back. -/
structure Session.Inv (c : EngineConfig V) (s : Session V) : Prop where
  sound : Sound c s.engine
  saved : ∀ p ∈ s.checkpoints, ∀ u, Sound c (restoreCheckpoint p u).2
  journal : ∀ j, s.engine.activeMutation = some j →
    ∃ s₀, Sound c s₀ ∧ Journaling s₀ j.key j.handle s.engine j

/-- An allowed call leaves the journal that was open, if any. -/
theorem Event.Allowed.journaling {s : Session V} {call : Call V}
    (ha : (Event.call call).Allowed s) {j : MutationCheckpoint V}
    (hj : (call.run c s.engine).activeMutation = some j) :
    ∃ j₀, s.engine.activeMutation = some j₀ ∧
      ∀ s₀, Journaling s₀ j₀.key j₀.handle s.engine j₀ →
        Journaling s₀ j.key j.handle (call.run c s.engine) j := by
  cases hact : s.engine.activeMutation with
  | none =>
    rw [call.activeMutation_none hact] at hj
    cases hj
  | some j₀ =>
    refine ⟨j₀, rfl, fun s₀ hjour => ?_⟩
    obtain ⟨j', hj'⟩ := Journaling.edits ((ha j₀ hact).edits (c := c) s.engine) ⟨j₀, hjour⟩
    obtain rfl : j' = j := Option.some.inj (hj'.active.symm.trans hj)
    rw [hj'.key_eq, hj'.handle_eq]
    exact hj'

theorem Session.Inv.call {s : Session V} (h : s.Inv c) (call : Call V)
    (ha : (Event.call call).Allowed s) : (s.apply c (.call call)).Inv c where
  sound := call.sound h.sound
  saved := h.saved
  journal := by
    intro j hj
    obtain ⟨j₀, hact, hjour⟩ := ha.journaling hj
    obtain ⟨s₀, hs₀, hj₀⟩ := h.journal j₀ hact
    exact ⟨s₀, hs₀, hjour s₀ hj₀⟩

theorem validateActiveMutation_cases (handle : ℕ) (s : Engine V) :
    (∃ j, s.activeMutation = some j ∧ j.handle = handle ∧
      validateActiveMutation handle s = (.ok j, s)) ∨
    ∃ e, validateActiveMutation handle s = (.error e, s) := by
  unfold validateActiveMutation
  rw [run_bind_ok (run_get s)]
  cases ha : s.activeMutation with
  | none => exact .inr ⟨_, rfl⟩
  | some j =>
    by_cases hj : j.handle = handle
    · exact .inl ⟨j, rfl, hj, by simp [hj]⟩
    · exact .inr ⟨_, by simp only [hj, ↓reduceIte]; rfl⟩

theorem validateActiveMutation_ok {j : MutationCheckpoint V} {s : Engine V}
    (h : s.activeMutation = some j) : validateActiveMutation j.handle s = (.ok j, s) := by
  rw [validateActiveMutation, run_bind_ok (run_get s)]
  simp [h]

theorem rollback_activeMutation (j : MutationCheckpoint V) (s : Engine V) :
    (rollback j s).activeMutation = none := by
  have hevicted : ∀ (l : List (Key × Entry V)) (u : Engine V), u.activeMutation = none →
      (l.foldl (fun s q => restoreEvicted q s) u).activeMutation = none := by
    intro l
    induction l with
    | nil => exact fun _ hu => hu
    | cons q l ih =>
      intro u hu
      refine ih _ ?_
      simp only [restoreEvicted, removeEntry]
      split
      · exact hu
      · simp [hu]
  have hothers : (othersRestored j s).activeMutation = none := by
    refine hevicted _ _ ?_
    rw [removeLease_activeMutation]
    unfold removeEntry
    split <;> rfl
  rw [rollback_eq]
  unfold restoreJournaled
  split <;> exact hothers

theorem Session.Inv.apply {s : Session V} (h : s.Inv c) (event : Event V) (ha : event.Allowed s) :
    (s.apply c event).Inv c := by
  cases event with
  | call call => exact h.call call ha
  | checkpoint =>
    refine ⟨h.sound, ?_, h.journal⟩
    intro p hp u
    rcases List.mem_append.mp hp with hp | hp
    · exact h.saved p hp u
    · obtain rfl : p = captured s.engine := by simpa using hp
      exact h.sound.of_data rfl rfl rfl rfl rfl
  | restoreCheckpoint i =>
    simp only [Session.apply]
    cases hp : s.checkpoints[i]? with
    | none => exact h
    | some p =>
      refine ⟨h.saved p (List.mem_of_getElem? hp) s.engine, h.saved, ?_⟩
      intro j hj
      have hnone : s.engine.activeMutation = none := ha
      exact absurd (hnone.symm.trans hj) (by simp)
  | beginMutation key =>
    rcases beginMutationCheckpoint_cases key s.engine with ⟨e, hb⟩ | ⟨_, hb⟩ <;>
      simp only [Session.apply, hb]
    · exact h
    · refine ⟨h.sound.of_data rfl rfl rfl rfl rfl, h.saved, ?_⟩
      intro j hj
      obtain rfl := Option.some.inj hj
      exact ⟨s.engine, h.sound, Journaling.opened key s.engine⟩
  | commitMutation handle =>
    simp only [Session.apply, commitMutationCheckpoint, run_bind]
    rcases validateActiveMutation_cases handle s.engine with ⟨j, _, _, hv⟩ | ⟨e, hv⟩
    · simp only [hv, run_modify]
      exact ⟨h.sound.of_data rfl rfl rfl rfl rfl, h.saved, by simp⟩
    · simp only [hv]
      exact h
  | restoreMutation handle =>
    simp only [Session.apply, restoreMutationCheckpoint, run_bind]
    rcases validateActiveMutation_cases handle s.engine with ⟨j, hj, _, hv⟩ | ⟨e, hv⟩
    · simp only [hv, run_modify]
      obtain ⟨s₀, hs₀, hjour⟩ := h.journal j hj
      refine ⟨⟨rollback_accounts hjour hs₀.accounts h.sound.accounts.indexes,
        rollback_bounded hjour hs₀.bounded⟩, h.saved, ?_⟩
      intro j' hj'
      rw [rollback_activeMutation] at hj'
      cases hj'
    · simp only [hv]
      exact h

theorem Reachable.inv {s : Session V} (h : Reachable c s) : s.Inv c := by
  induction h with
  | init => exact ⟨Sound.init c, by simp, by simp [Engine.init]⟩
  | step _ event ha ih => exact ih.apply event ha

/-- In every reachable session the byte counters are the sums over the leases and
the entries, the limits hold, and the tag index is the inverse of the entries'
tags without empty buckets. -/
theorem reachable_representation {s : Session V} (h : Reachable c s) :
    s.engine.leaseBytes = leaseSum s.engine.leases ∧
    s.engine.usedBytes = leaseSum s.engine.leases + entryBytes s.engine.entries ∧
    s.engine.usedBytes ≤ c.maxMemoryBytes ∧
    s.engine.entries.size ≤ c.maxEntries ∧
    s.engine.leases.size ≤ c.maxEntries ∧
    (∀ t k, k ∈ s.engine.bucket t ↔ ∃ e, s.engine.entries.get? k = some e ∧ t ∈ e.tags) ∧
    ∀ t, s.engine.tags.get? t ≠ some ∅ := by
  obtain ⟨ha, hb⟩ := h.inv.sound
  refine ⟨ha.leaseBytes_eq, ?_, hb.usedBytes_le, hb.entries_le, hb.leases_le, ha.indexes.mem_iff,
    ha.indexes.nonempty⟩
  rw [← ha.leaseBytes_eq]
  exact ha.usedBytes_eq

theorem small_positive :
    0 < 2 ∧ 0 < 4096 ∧ 0 < 1024 ∧ 0 < 60 ∧ 0 < 60 ∧ 0 < 30 := by decide

/-- An engine for text values with room for two entries, whose clock advances one
second with every reading. -/
def smallConfig : EngineConfig String where
  maxEntries := 2
  defaultTtlSeconds := 60
  defaultStaleSeconds := 60
  leaseSeconds := 30
  maxMemoryBytes := 4096
  maxEntryBytes := 1024
  evictionPolicy := .lru
  clock n := n
  tokenUrlsafe n := String.ofList (List.replicate (n + 1) 't')
  evictionScore _ _ := 0
  codec := textCodec
  positive := small_positive
  clock_mono := ticking_mono

/-- Three writes in a cache of two entries, the last one under a journal that is rolled back. -/
def smallRun : List (Event String) :=
  [.call (.put "a" "1" none none ["t"] none false),
    .call (.put "b" "2" none none [] none false),
    .beginMutation "c",
    .call (.put "c" "3" none none ["t"] none false),
    .restoreMutation 0]

theorem smallRun_representation :
    let s := smallRun.foldl (Session.apply smallConfig) ⟨init, []⟩
    s.engine.entries.keys = ["a", "b"] ∧
      s.engine.usedBytes = leaseSum s.engine.leases + entryBytes s.engine.entries := by
  have hr := Reachable.init.run smallRun (by decide +kernel : Session.AllowedRun smallConfig _ _)
  exact ⟨by decide +kernel, (reachable_representation hr).2.1⟩

/-! ## Exact rollback -/

/-- Two engines with the same data; the order of the tag index and of the leases,
which are plain dictionaries, does not count. -/
structure SameData (s s' : Engine V) : Prop where
  entries : s.entries = s'.entries
  tags : ∀ t, s.tags.get? t = s'.tags.get? t
  leases : ∀ k, s.leases.get? k = s'.leases.get? k
  usedBytes : s.usedBytes = s'.usedBytes
  leaseBytes : s.leaseBytes = s'.leaseBytes
  metrics : s.metrics = s'.metrics

theorem Journaled.opened (key : Key) (s : Engine V) : Journaled s key s.journals
    { s with journals := s.journals + 1, activeMutation := some (openedJournal key s) } :=
  ⟨_, Journaling.opened key s, rfl⟩

theorem Journaled.calls (hlru : c.evictionPolicy = .lru) {key : Key} {handle : ℕ}
    {s₀ s : Engine V} (calls : List (Call V)) (hc : ∀ call ∈ calls, call.Single key)
    (h : Journaled s₀ key handle s) :
    Journaled s₀ key handle (calls.foldl (fun u call => call.run c u) s) := by
  induction calls generalizing s with
  | nil => exact h
  | cons call calls ih =>
    exact ih (fun d hd => hc d (List.mem_cons_of_mem call hd))
      (h.edits hlru ((hc call List.mem_cons_self).edits s))

theorem Call.sound_calls {s : Engine V} (calls : List (Call V)) (h : Sound c s) :
    Sound c (calls.foldl (fun u call => call.run c u) s) := by
  induction calls generalizing s with
  | nil => exact h
  | cons call calls ih => exact ih (call.sound h)

/-- Under `lru`, whatever is done to the journaled key between the opening and the
restoring of its journal, the restored state is the one at the opening, as it is
when a full checkpoint is restored. -/
theorem restoreMutationCheckpoint_exact (hlru : c.evictionPolicy = .lru) {s : Session V}
    (hr : Reachable c s) {key : Key} {handle : ℕ} {s₁ : Engine V}
    (hb : beginMutationCheckpoint key s.engine = (.ok handle, s₁)) (calls : List (Call V))
    (hc : ∀ call ∈ calls, call.Single key) :
    ∃ s₂, restoreMutationCheckpoint handle (calls.foldl (fun u call => call.run c u) s₁) =
        (.ok (), s₂) ∧
      SameData s₂ s.engine ∧
      ∃ p u s₃, checkpoint s.engine = (.ok p, u) ∧
        restoreCheckpoint p (calls.foldl (fun u call => call.run c u) u) = (.ok (), s₃) ∧
        SameData s₂ s₃ := by
  have hs := hr.inv.sound
  rcases beginMutationCheckpoint_cases key s.engine with ⟨e, hb'⟩ | ⟨_, hb'⟩ <;>
    rw [hb'] at hb
  · cases hb
  obtain ⟨rfl, rfl⟩ : s.engine.journals = handle ∧ _ = s₁ := by
    simpa only [Prod.mk.injEq, Except.ok.injEq] using hb
  set s₁ : Engine V := { s.engine with
    journals := s.engine.journals + 1
    activeMutation := some (openedJournal key s.engine) } with hs₁
  have hsound : Sound c (calls.foldl (fun u call => call.run c u) s₁) :=
    Call.sound_calls calls (hs.of_data rfl rfl rfl rfl rfl)
  obtain ⟨j, hj, ho⟩ := (Journaled.opened key s.engine).calls hlru calls hc
  have hsame : SameData (rollback j (calls.foldl (fun u call => call.run c u) s₁)) s.engine := by
    have hacc := rollback_accounts hj hs.accounts hsound.accounts.indexes
    refine ⟨rollback_entries hj ho, ?_, get?_rollback_leases hj, hj.usedBytes_eq, hj.leaseBytes_eq,
      hj.metrics_eq⟩
    exact hs.accounts.indexes.get?_eq hacc.indexes (get?_rollback_entries hj)
  refine ⟨_, ?_, hsame, captured s.engine, s.engine, _, rfl, rfl, ?_⟩
  · have hv := validateActiveMutation_ok hj.active
    rw [hj.handle_eq] at hv
    rw [restoreMutationCheckpoint, run_bind_ok hv]
    rfl
  · exact ⟨hsame.entries, hsame.tags, hsame.leases, hsame.usedBytes, hsame.leaseBytes,
      hsame.metrics⟩

/-- Writes that evict, a read, a shortened life and a removal, all of one key. -/
def smallCalls : List (Call String) :=
  [.put "c" "3" none none ["t"] none false, .get "c", .expire "c" 5, .delete "c",
    .put "c" "4" none none [] none true]

theorem smallCalls_exact :
    let s : Session String := (smallRun.take 2).foldl (Session.apply smallConfig) ⟨init, []⟩
    let s₁ := (beginMutationCheckpoint "c" s.engine).2
    let u := smallCalls.foldl (fun u call => call.run smallConfig u) s₁
    u.entries.keys = ["b", "c"] ∧
      ∃ s₂, restoreMutationCheckpoint 0 u = (.ok (), s₂) ∧ SameData s₂ s.engine := by
  intro s s₁ u
  have hr : Reachable smallConfig s :=
    Reachable.init.run _ (by decide +kernel : Session.AllowedRun smallConfig _ _)
  have hidle : s.engine.journals = 0 ∧ s.engine.activeMutation.isNone := by decide +kernel
  have hb : beginMutationCheckpoint "c" s.engine = (.ok 0, s₁) := by
    have h := beginMutationCheckpoint_ok (by decide : "c" ≠ "" ∧ "c".length ≤ 1024)
      (Option.isNone_iff_eq_none.mp hidle.2)
    exact Prod.ext (by rw [h, hidle.1]) rfl
  have hc : ∀ call ∈ smallCalls, call.Single "c" := by decide
  obtain ⟨s₂, h₂, hsame, _⟩ := restoreMutationCheckpoint_exact rfl hr hb smallCalls hc
  exact ⟨by decide +kernel, s₂, h₂, hsame⟩

end Engine
end MegaCache
