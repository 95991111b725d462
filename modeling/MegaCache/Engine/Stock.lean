import MegaCache.Engine.TimedMap

/-!
# What every entry satisfies

An entry of a reachable engine has passed the checks of the call that wrote it: its key, its
tags and its size are within the limits, its value is what the codec makes of it, and it
either has no deadlines or a stale deadline not before the fresh one.
-/

namespace MegaCache
namespace Engine

open Prog

variable {V : Type} {c : EngineConfig V}

/-- An entry as the checked writes leave it. -/
structure Genuine (c : EngineConfig V) (k : Key) (e : Entry V) : Prop where
  key : k ≠ "" ∧ k.length ≤ 1024
  tags : e.tags.Nodup ∧ TagsFit e.tags
  value : c.codec.snapshotValue e.value = some e.value
  sized : Sized c k e.value e.tags e.sizeBytes
  size_le : e.sizeBytes ≤ c.maxEntryBytes ∧ e.sizeBytes ≤ c.maxMemoryBytes
  windows : (e.freshUntil = ⊤ ∧ e.staleUntil = ⊤) ∨
    ∃ f t : ℚ, e.freshUntil = (f : Deadline) ∧ e.staleUntil = (t : Deadline) ∧ f ≤ t

/-- Every entry is genuine. -/
def Stocked (c : EngineConfig V) (s : Engine V) : Prop :=
  ∀ k e, s.entries.get? k = some e → Genuine c k e

theorem TagsFit.dedup {tags : List Tag} (h : TagsFit tags) : TagsFit tags.dedup :=
  ⟨(List.dedup_sublist tags).length_le.trans h.1, fun tag ht => h.2 tag (List.mem_dedup.mp ht)⟩

theorem Genuine.touched {k : Key} {e : Entry V} (h : Genuine c k e) (a : ℕ) (t : ℚ) :
    Genuine c k { e with accessCount := a, lastAccess := t } :=
  ⟨h.key, h.tags, h.value, h.sized, h.size_le, h.windows⟩

theorem Genuine.expiring {k : Key} {e : Entry V} (h : Genuine c k e) (deadline : ℚ) (n : ℕ) :
    Genuine c k (expiringEntry deadline n e) :=
  ⟨h.key, h.tags, h.value, h.sized, h.size_le, .inr ⟨deadline, deadline, rfl, rfl, le_rfl⟩⟩

theorem Genuine.written {key : Key} {value : V} {ttlSeconds staleSeconds : Option ℤ}
    {tags : List Tag} {persistent : Bool} {p : PreparedPut V}
    (h : Prepared c key value ttlSeconds staleSeconds tags persistent p) (now : ℚ)
    (existing : Option (Entry V)) : Genuine c key (writtenEntry p persistent now existing) where
  key := ⟨h.key_ne, h.key_le⟩
  tags := by
    change p.tags.Nodup ∧ TagsFit p.tags
    rw [h.tags_eq]
    exact ⟨List.nodup_dedup tags, h.tags_fit.dedup⟩
  value := c.codec.snapshotValue_idem h.value_eq
  sized := h.sized
  size_le := ⟨h.size_le_entry, h.size_le⟩
  windows := by
    have hw := h.windows
    unfold PutWindows at hw
    simp only [writtenEntry]
    split_ifs at hw
    · obtain ⟨httl, -⟩ := Prod.mk.inj hw
      left
      simp [httl]
    · obtain ⟨n, httl, -, -⟩ := hw
      dsimp only at httl
      refine .inr ⟨now + n, now + n + p.stale, ?_, ?_, le_add_of_nonneg_right p.stale.cast_nonneg⟩
      · rw [httl]
        rfl
      · rw [httl]
        rfl

theorem Genuine.restored {item : StorageEntry V} {q : PreparedRestore V}
    (hkey : item.key ≠ "" ∧ item.key.length ≤ 1024) (h : RestoresFrom c item q) (now : ℚ) :
    Genuine c q.key (restoredEntry now q) where
  key := h.key_eq ▸ hkey
  tags := by
    change q.tags.Nodup ∧ TagsFit q.tags
    rw [h.tags_eq]
    exact ⟨List.nodup_dedup item.tags, h.tags_fit.dedup⟩
  value := c.codec.snapshotValue_idem h.value_eq
  sized := h.key_eq ▸ h.sized
  size_le := h.size_le
  windows := by
    have hw := h.windows
    unfold RestoreWindows at hw
    simp only [restoredEntry]
    split_ifs at hw
    · left
      simp [hw]
    · obtain ⟨f, t, -, -, -, ht, hq⟩ := hw
      right
      simp only [hq]
      exact ⟨now + f, now + f + t, rfl, rfl, le_add_of_nonneg_right ht⟩

/-! ## Edits -/

/-- Only genuine entries are stored and only in genuine ways changed. -/
structure Permit.Stocks (c : EngineConfig V) (p : Permit V) : Prop where
  store : ∀ k e, p.store k e → Genuine c k e
  update : ∀ k f, p.update k f → ∀ e, Genuine c k e → Genuine c k (f e)

theorem Stocked.init : Stocked c (init : Engine V) := by
  intro k e hg
  simp [Engine.init] at hg

theorem Stocked.removeEntry {s : Engine V} (h : Stocked c s) (key : Key) :
    Stocked c (removeEntry key s) := by
  intro k e hg
  rw [removeEntry_entries, OrderedDict.get?_erase] at hg
  split_ifs at hg
  exact h k e hg

theorem Stocked.storeEntry {s : Engine V} (h : Stocked c s) {key : Key} {entry : Entry V}
    (he : Genuine c key entry) : Stocked c (storeEntry key entry s) := by
  intro k e hg
  rw [get?_storeEntry] at hg
  split_ifs at hg with hk
  · rw [hk, ← Option.some.inj hg]
    exact he
  · exact h k e hg

theorem Stocked.edit {p : Permit V} (hp : p.Stocks c) {s s' : Engine V} (hs : Edit c p s s')
    (h : Stocked c s) : Stocked c s' := by
  cases hs with
  | tick | draw | bump | grant | renew => exact h
  | @touch k e a t hk hg =>
    intro k' e' hg'
    dsimp only at hg'
    rw [OrderedDict.get?_setLast] at hg'
    split_ifs at hg' with hkk
    · rw [hkk, ← Option.some.inj hg']
      exact (h k e hg).touched a t
    · exact h k' e' hg'
  | expire | drop => exact h.removeEntry _
  | evict => exact h.removeEntry _
  | @store k e hst => exact h.storeEntry (hp.store k e hst)
  | @update k f hup hf =>
    intro k' e' hg'
    unfold updateEntry at hg'
    split at hg'
    · exact h k' e' hg'
    · rename_i entry hentry
      rw [OrderedDict.get?_set] at hg'
      split_ifs at hg' with hkk
      · rw [hkk, ← Option.some.inj hg']
        exact hp.update k f hup entry (h k entry hentry)
      · exact h k' e' hg'
  | lapse | release =>
    intro k' e' hg'
    rw [removeLease_entries] at hg'
    exact h k' e' hg'

theorem Stocked.edits {p : Permit V} (hp : p.Stocks c) {s s' : Engine V} (hs : Edits c p s s')
    (h : Stocked c s) : Stocked c s' :=
  Edits.keep (fun _ _ => Stocked.edit hp) hs h

/-! ## Calls -/

/-- Every edit but the writing of entries, with the changes that `expire` and
`record_load_cost` make. -/
def Permit.stocking (c : EngineConfig V) : Permit V :=
  { (Permit.anything : Permit V) with
    store := fun k e => Genuine c k e
    update := fun k f => ∀ e, Genuine c k e → Genuine c k (f e) }

theorem Permit.stocking_stocks (c : EngineConfig V) : (Permit.stocking c).Stocks c :=
  ⟨fun _ _ h => h, fun _ _ h => h⟩

theorem stocked_edits {α : Type} {m : EngineM V α} (h : Rel (Edits c (Permit.stocking c)) m) :
    Rel (Preserves (Stocked c)) m :=
  h.mono fun _ _ hs hstock => hstock.edits (Permit.stocking_stocks c) hs

theorem Stocked.put {s : Engine V} (hs : Sound c s) (h : Stocked c s) (key : Key) (value : V)
    (ttlSeconds staleSeconds : Option ℤ) (tags : List Tag) (token : Option String)
    (persistent : Bool) :
    Stocked c (put c key value ttlSeconds staleSeconds tags token persistent s).2 := by
  rcases hput : Engine.put c key value ttlSeconds staleSeconds tags token persistent s with
    ⟨e | r, s'⟩
  · exact h.edits (p := Permit.lapseOf key) ⟨fun _ _ h => h.elim, fun _ _ h => h.elim⟩
      (put_error hs hput)
  · obtain ⟨p, s₁, hprep, -, hed, hlook⟩ := put_ok hs hput
    have hstored : Stocked c (Engine.written key p persistent (c.clock s.ticks)
        { s with ticks := s.ticks + 1 }) := by
      intro k e hg
      unfold Engine.written at hg
      rw [bump_entries, removeLease_entries] at hg
      exact Stocked.storeEntry (s := { s with ticks := s.ticks + 1 }) h (Genuine.written hprep _ _)
        k e hg
    have hs₁ : Stocked c s₁ :=
      hstored.edits (p := Permit.nothing) ⟨fun _ _ h => h.elim, fun _ _ h => h.elim⟩ hed
    exact hs₁.edits (p := Permit.stocking c) (Permit.stocking_stocks c)
      ((edits_lookup false trivial trivial).run hlook)

theorem Stocked.mset {s : Engine V} (hs : Sound c s) (h : Stocked c s) (values : List (Key × V)) :
    Stocked c (mset c values s).2 := by
  have hwrites : Prog.Rel (Preserves fun s => Sound c s ∧ Stocked c s) (Engine.mset c values) := by
    refine Rel.bind (Rel.forEach fun item _ s hs => ?_) fun _ => Rel.forEach fun item _ =>
      Rel.bind (fun s hs => ?_) fun _ => Rel.pure _
    · exact ⟨sound_edits Permit.nothing_shrinking (edits_msetCheck item) s hs.1,
        stocked_edits (edits_msetCheck item) s hs.2⟩
    · exact ⟨sound_put _ _ _ _ _ _ _ s hs.1, hs.2.put hs.1 _ _ _ _ _ _ _⟩
  exact (hwrites s ⟨hs, h⟩).2

theorem Stocked.restoreAll {prepared : List (PreparedRestore V)} {now : ℚ} {s : Engine V}
    (h : Stocked c s) (hp : ∀ q ∈ prepared, Genuine c q.key (restoredEntry now q)) :
    Stocked c (restoreAll now prepared s) := by
  induction prepared generalizing s with
  | nil => exact h
  | cons q prepared ih =>
    exact ih (h.storeEntry (hp q List.mem_cons_self)) fun r hr => hp r (List.mem_cons_of_mem q hr)

theorem Stocked.restoreEntries {s : Engine V} (h : Stocked c s)
    (entries : List (StorageEntry V)) : Stocked c (restoreEntries c entries s).2 := by
  have hpurge : (Permit.purges : Permit V).Stocks c :=
    ⟨fun _ _ h => h.elim, fun _ _ h => h.elim⟩
  rcases restoreEntries_cases (c := c) entries s with
    ⟨e, s', hr, hed⟩ | ⟨prepared, now, s₁, hr, hed, -, hfrom, -⟩
  · rw [hr]
    exact h.edits hpurge hed
  · rw [hr]
    refine Stocked.restoreAll (h.edits hpurge hed) fun q hq => ?_
    obtain ⟨item, hitem, hres⟩ := hfrom.restores q hq
    exact Genuine.restored (hfrom.keys_fit item hitem) hres now

theorem Stocked.getOrLoad {s : Engine V} (hs : Sound c s) (h : Stocked c s) (key : Key)
    (loaded : Except PyError V) (ttlSeconds staleSeconds : Option ℤ) (tags : List Tag) :
    Stocked c (getOrLoad c key loaded ttlSeconds staleSeconds tags s).2 := by
  have hread : Stocked c (Engine.getEntry c key s).2 :=
    stocked_edits (edits_getEntry (p := Permit.stocking c) trivial trivial) s h
  have hsread : Sound c (Engine.getEntry c key s).2 :=
    sound_edits (Permit.readsOf_shrinking key) (edits_getEntry rfl rfl) s hs
  rw [getOrLoad_eq]
  rcases hg : Engine.getEntry c key s with ⟨e | cached, s₁⟩ <;> rw [hg] at hread hsread
  · exact hread
  · dsimp only
    split_ifs
    · exact hread
    · cases loaded with
      | error e => exact hread
      | ok value =>
        have hput := hread.put hsread key value ttlSeconds staleSeconds tags none false
        dsimp only at hput ⊢
        rcases hp : Engine.put c key value ttlSeconds staleSeconds tags none false s₁ with
          ⟨e | r, s₂⟩ <;> rw [hp] at hput <;> exact hput

theorem Stocked.call {s : Engine V} (hs : Sound c s) (h : Stocked c s) (call : Call V) :
    Stocked c (call.run c s) := by
  have hall : ∀ s', Edits c (Permit.stocking c) s s' → Stocked c s' := fun s' =>
    fun hed => h.edits (Permit.stocking_stocks c) hed
  cases call with
  | get key => exact hall _ (edits_getEntry trivial trivial s)
  | mget keys => exact hall _ (edits_mget (fun _ _ => trivial) (fun _ _ => trivial) s)
  | put => exact h.put hs _ _ _ _ _ _ _
  | mset values => exact h.mset hs values
  | delete key => exact hall _ (edits_delete trivial trivial s)
  | deleteMany keys => exact hall _ (edits_deleteMany (fun _ _ => trivial) (fun _ _ => trivial) s)
  | existsCount keys => exact hall _ (edits_existsCount (fun _ _ => trivial) (fun _ _ => trivial) s)
  | expire key =>
    exact hall _ (edits_expire trivial trivial (fun d n _ he => he.expiring d n) _ s)
  | ttl key => exact hall _ (edits_ttl trivial trivial s)
  | flush =>
    intro k e hg
    simp [Call.run, flush] at hg
  | size => exact hall _ (edits_size (fun _ => trivial) (fun _ => trivial) s)
  | keys => exact hall _ (edits_keys (fun _ => trivial) s)
  | exportEntries keys => exact hall _ (edits_exportEntries (fun _ => trivial) s)
  | restoreEntries entries => exact h.restoreEntries entries
  | validatePut => exact hall _ (edits_validatePut _ _ _ _ _ _ _ s)
  | validateRestoreEntries => exact hall _ (edits_validateRestoreEntries (fun _ => trivial) _ s)
  | invalidateTags => exact hall _ (edits_invalidateTags (fun _ => trivial) (fun _ => trivial) _ s)
  | acquireLease key force =>
    exact hall _ (edits_acquireLease force trivial trivial (fun _ => trivial) (fun _ => trivial) s)
  | releaseLease key => exact hall _ (edits_releaseLease trivial _ s)
  | renewLease key => exact hall _ (edits_renewLease trivial trivial _ s)
  | getOrLoad => exact h.getOrLoad hs _ _ _ _ _
  | recordLoadCost key =>
    refine hall _ (edits_recordLoadCost (fun cost e he => ?_) _ s)
    exact ⟨he.key, he.tags, he.value, he.sized, he.size_le, he.windows⟩
  | stats => exact hall _ (edits_stats (fun _ => trivial) (fun _ => trivial) (fun _ => trivial) s)

/-! ## Sessions -/

/-- The entries that are there, and those that can still come back. -/
structure Session.Stock (c : EngineConfig V) (s : Session V) : Prop where
  stocked : Stocked c s.engine
  saved : ∀ p ∈ s.checkpoints, ∀ u, Stocked c (restoreCheckpoint p u).2
  journal : ∀ j, s.engine.activeMutation = some j →
    ∃ s₀, Stocked c s₀ ∧ Journaling s₀ j.key j.handle s.engine j

theorem Session.Stock.apply {s : Session V} (h : s.Stock c) (hinv : s.Inv c) (event : Event V)
    (ha : event.Allowed s) : (s.apply c event).Stock c := by
  cases event with
  | call call =>
    refine ⟨h.stocked.call hinv.sound call, h.saved, fun j hj => ?_⟩
    obtain ⟨j₀, hact, hjour⟩ := ha.journaling hj
    obtain ⟨s₀, hs₀, hj₀⟩ := h.journal j₀ hact
    exact ⟨s₀, hs₀, hjour s₀ hj₀⟩
  | checkpoint =>
    refine ⟨h.stocked, fun p hp u => ?_, h.journal⟩
    rcases List.mem_append.mp hp with hp | hp
    · exact h.saved p hp u
    · obtain rfl : p = captured s.engine := by simpa using hp
      exact h.stocked
  | restoreCheckpoint i =>
    simp only [Session.apply]
    cases hp : s.checkpoints[i]? with
    | none => exact h
    | some p =>
      refine ⟨h.saved p (List.mem_of_getElem? hp) s.engine, h.saved, fun j hj => ?_⟩
      have hnone : s.engine.activeMutation = none := ha
      exact absurd (hnone.symm.trans hj) (by simp)
  | beginMutation key =>
    rcases beginMutationCheckpoint_cases key s.engine with ⟨e, hb⟩ | ⟨_, hb⟩ <;>
      simp only [Session.apply, hb]
    · exact h
    · refine ⟨h.stocked, h.saved, fun j hj => ?_⟩
      obtain rfl := Option.some.inj hj
      exact ⟨s.engine, h.stocked, Journaling.opened key s.engine⟩
  | commitMutation handle =>
    simp only [Session.apply, commitMutationCheckpoint, run_bind]
    rcases validateActiveMutation_cases handle s.engine with ⟨j, _, _, hv⟩ | ⟨e, hv⟩
    · simp only [hv, run_modify]
      exact ⟨h.stocked, h.saved, by simp⟩
    · simp only [hv]
      exact h
  | restoreMutation handle =>
    simp only [Session.apply, restoreMutationCheckpoint, run_bind]
    rcases validateActiveMutation_cases handle s.engine with ⟨j, hj, _, hv⟩ | ⟨e, hv⟩
    · simp only [hv, run_modify]
      obtain ⟨s₀, hs₀, hjour⟩ := h.journal j hj
      refine ⟨fun k e hg => ?_, h.saved, fun j' hj' => ?_⟩
      · dsimp only at hg
        rw [get?_rollback_entries hjour] at hg
        exact hs₀ k e hg
      · rw [rollback_activeMutation] at hj'
        cases hj'
    · simp only [hv]
      exact h

theorem Reachable.stocked {s : Session V} (h : Reachable c s) : Stocked c s.engine := by
  have hstock : s.Stock c := by
    induction h with
    | init => exact ⟨Stocked.init, by simp, by simp [Engine.init]⟩
    | step hr event ha ih => exact ih.apply hr.inv event ha
  exact hstock.stocked

end Engine
end MegaCache
