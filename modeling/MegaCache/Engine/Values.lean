import MegaCache.Engine.TimedMap

/-!
# The stored value of a key

A coordinator of several engines only cares which value an engine stores for a key.
`Keeps c K` is what an operation on the keys `K` leaves of all others: a value stays or
is lost.  The module gives this frame for the operations a coordinator uses, and what
each of them does to its own keys.
-/

namespace MegaCache
namespace Engine

variable {V : Type} {c : EngineConfig V} {K : Key → Prop} {s s' s'' : Engine V} {key : Key}

open Prog

/-- The value stored for a key. -/
def valueOf (s : Engine V) (key : Key) : Option V := (s.entries.get? key).map Entry.value

/-- Accounts in order, and only values that went through the codec. -/
structure Fit (c : EngineConfig V) (s : Engine V) : Prop where
  sound : Sound c s
  snapshots : ∀ k v, s.valueOf k = some v → c.codec.snapshotValue v = some v

/-- A fit engine after an operation on the keys `K`: outside `K` a value stays or is
lost, and no journal was opened. -/
structure Kept (c : EngineConfig V) (K : Key → Prop) (s s' : Engine V) : Prop where
  fit : Fit c s'
  idle : s.activeMutation = none → s'.activeMutation = none
  value : ∀ k, ¬K k → s'.valueOf k = s.valueOf k ∨ s'.valueOf k = none

/-- What an operation on the keys `K` makes of a fit engine. -/
def Keeps (c : EngineConfig V) (K : Key → Prop) (s s' : Engine V) : Prop :=
  Fit c s → Kept c K s s'

/-- No key at all. -/
def noKey : Key → Prop := fun _ => False

theorem Keeps.refl (c : EngineConfig V) (K : Key → Prop) (s : Engine V) : Keeps c K s s :=
  fun h => ⟨h, id, fun _ _ => .inl rfl⟩

theorem Keeps.trans (h : Keeps c K s s') (h' : Keeps c K s' s'') : Keeps c K s s'' := by
  intro hf
  have h₁ := h hf
  have h₂ := h' h₁.fit
  refine ⟨h₂.fit, h₂.idle ∘ h₁.idle, fun k hk => ?_⟩
  rcases h₂.value k hk with he | he
  · rw [he]
    exact h₁.value k hk
  · exact .inr he

instance : Std.Refl (Keeps c K) := ⟨Keeps.refl c K⟩

instance : IsTrans (Engine V) (Keeps c K) := ⟨fun _ _ _ => Keeps.trans⟩

theorem Keeps.mono {K' : Key → Prop} (h : Keeps c K s s') (hK : ∀ k, K k → K' k) :
    Keeps c K' s s' := by
  intro hf
  have h₁ := h hf
  exact ⟨h₁.fit, h₁.idle, fun k hk => h₁.value k fun hk' => hk (hK k hk')⟩

/-! ## Frames -/

/-- A thinned engine keeps or loses each value. -/
theorem value_of_thins (h : Thins K s.entries s'.entries) {k : Key} (hk : ¬K k) :
    s'.valueOf k = s.valueOf k ∨ s'.valueOf k = none := by
  unfold valueOf
  cases he' : s'.entries.get? k with
  | none => exact .inr rfl
  | some e' =>
    obtain ⟨e, he, hw⟩ := h k e' hk he'
    have hv : e.value = e'.value := congrArg Written.value hw
    exact .inl (by simp [he, hv])

theorem Fit.of_values (h : Fit c s) (hs : Sound c s')
    (hv : ∀ k, s'.valueOf k = s.valueOf k ∨ s'.valueOf k = none) : Fit c s' where
  sound := hs
  snapshots := by
    intro k v hk
    rcases hv k with he | he
    · exact h.snapshots k v (he ▸ hk)
    · rw [he] at hk
      cases hk

/-- Edits that store nothing keep or lose each value. -/
theorem Keeps.of_edits {p : Permit V} (hp : p.ThinsOff noKey) (hshrink : p.Shrinking)
    (h : Edits c p s s') : Keeps c K s s' := by
  have hv : ∀ k, s'.valueOf k = s.valueOf k ∨ s'.valueOf k = none := fun k =>
    value_of_thins (Thins.edits hp h) id
  exact fun hf => ⟨hf.of_values (hf.sound.edits hshrink h) hv, h.idle, fun k _ => hv k⟩

theorem Permit.shrinks_thinsOff : (Permit.shrinks : Permit V).ThinsOff noKey :=
  ⟨fun _ _ h => h, fun _ _ h => h.elim⟩

theorem Permit.nothing_thinsOff : (Permit.nothing : Permit V).ThinsOff noKey :=
  ⟨fun _ _ h => h, fun _ _ h => h.elim⟩

theorem Permit.lapseOf_thinsOff (key : Key) : (Permit.lapseOf key : Permit V).ThinsOff noKey :=
  ⟨fun _ _ h => h, fun _ _ h => h.elim⟩

theorem Permit.purges_thinsOff : (Permit.purges : Permit V).ThinsOff noKey :=
  ⟨fun _ _ h => h, fun _ _ h => h.elim⟩

theorem Permit.shrinks_shrinking : (Permit.shrinks : Permit V).Shrinking :=
  ⟨fun _ _ h => h, fun _ _ h => h⟩

/-- An operation that only takes entries and leases away. -/
theorem keeps_of_edits {α : Type} {m : EngineM V α} (h : Rel (Edits c Permit.shrinks) m) :
    Rel (Keeps c K) m :=
  fun s => Keeps.of_edits Permit.shrinks_thinsOff Permit.shrinks_shrinking (h s)

theorem keeps_getEntry (key : Key) : Rel (Keeps c K) (getEntry c key) :=
  keeps_of_edits (edits_getEntry trivial trivial)

theorem keeps_ttl (key : Key) : Rel (Keeps c K) (ttl c key) :=
  keeps_of_edits (edits_ttl trivial trivial)

theorem keeps_exportEntries (keys : Option (List Key)) : Rel (Keeps c K) (exportEntries c keys) :=
  keeps_of_edits (edits_exportEntries fun _ => trivial)

theorem keeps_keys : Rel (Keeps c K) (keys c) := keeps_of_edits (edits_keys fun _ => trivial)

theorem keeps_delete (key : Key) : Rel (Keeps c K) (delete (V := V) key) :=
  keeps_of_edits (edits_delete trivial trivial)

theorem keeps_validatePut (key : Key) (value : V) (ttlSeconds staleSeconds : Option ℤ)
    (tags : List Tag) (token : Option String) (persistent : Bool) :
    Rel (Keeps c K) (validatePut c key value ttlSeconds staleSeconds tags token persistent) :=
  keeps_of_edits (edits_validatePut _ _ _ _ _ _ _)

theorem keeps_validateRestoreEntries (entries : List (StorageEntry V)) :
    Rel (Keeps c K) (validateRestoreEntries c entries) :=
  keeps_of_edits (edits_validateRestoreEntries (fun _ => trivial) entries)

theorem keeps_flush : Rel (Keeps c K) (flush : EngineM V ℕ) := by
  intro s h
  refine ⟨h.of_values h.sound.flush fun k => .inr ?_, id, fun k _ => .inr ?_⟩ <;>
    simp [flush, valueOf]

theorem keeps_commitMutationCheckpoint (handle : ℕ) :
    Rel (Keeps c K) (commitMutationCheckpoint (V := V) handle) := by
  intro s
  rcases validateActiveMutation_cases handle s with ⟨j, _, _, hv⟩ | ⟨e, hv⟩
  · rw [commitMutationCheckpoint, run_bind_ok hv]
    exact fun h => ⟨⟨h.sound.of_data rfl rfl rfl rfl rfl, h.snapshots⟩, fun _ => rfl,
      fun _ _ => .inl rfl⟩
  · rw [commitMutationCheckpoint, run_bind_error hv]
    exact Keeps.refl c K s

/-! ## What an operation does to its own keys -/

theorem touched_value (count : Bool) (now : ℚ) (e : Entry V) :
    (touched count now e).value = e.value := by
  unfold touched
  split <;> rfl

/-- A lookup misses and leaves no value, or returns the stored value and keeps it. -/
theorem lookupAt_value (now : ℚ) (key : Key) (count : Bool) (s : Engine V) :
    ((lookupAt now key count s).1.state = .miss ∧
      (lookupAt now key count s).2.valueOf key = none) ∨
    ((lookupAt now key count s).1.state ≠ .miss ∧
      ∃ v, (lookupAt now key count s).1.value = some v ∧ s.valueOf key = some v ∧
        (lookupAt now key count s).2.valueOf key = some v) := by
  unfold lookupAt valueOf
  cases he : s.entries.get? key with
  | none => exact .inl ⟨rfl, by simp [countIf_entries, he]⟩
  | some e =>
    dsimp only
    split_ifs with hd hf
    · exact .inl ⟨rfl, by simp [countIf_entries, removeEntry_entries]⟩
    · exact .inr ⟨by simp [freshResult], e.value, rfl, rfl,
        by simp [countIf_entries, OrderedDict.get?_setLast, touched_value]⟩
    · exact .inr ⟨by simp [staleResult], e.value, rfl, rfl,
        by simp [countIf_entries, OrderedDict.get?_setLast, touched_value]⟩

theorem getEntry_value {r : CacheResult V} (h : getEntry c key s = (.ok r, s')) :
    (r.state = .miss ∧ s'.valueOf key = none) ∨
    (r.state ≠ .miss ∧ ∃ v, r.value = some v ∧ s.valueOf key = some v ∧ s'.valueOf key = some v) := by
  have hl := getEntry_ok h
  rw [lookup_eq] at hl
  obtain ⟨rfl, rfl⟩ := Prod.mk.inj hl |>.imp Except.ok.inj id
  exact lookupAt_value (c.clock s.ticks) key true { s with ticks := s.ticks + 1 }

theorem put_value {value : V} {ttlSeconds staleSeconds : Option ℤ} {tags : List Tag}
    {token : Option String} {persistent : Bool} {r : CacheResult V} (hs : Sound c s)
    (h : put c key value ttlSeconds staleSeconds tags token persistent s = (.ok r, s')) :
    ∃ v, c.codec.snapshotValue value = some v ∧
      (s'.valueOf key = some v ∨ s'.valueOf key = none) ∧
      ∀ k, k ≠ key → s'.valueOf k = s.valueOf k ∨ s'.valueOf k = none := by
  obtain ⟨p, s₁, hp, _, hedits, hl⟩ := put_ok hs h
  refine ⟨p.storedValue, hp.value_eq, ?_⟩
  have hthin : Thins noKey
      (written key p persistent (c.clock s.ticks) { s with ticks := s.ticks + 1 }).entries
      s'.entries := by
    refine (Thins.edits Permit.nothing_thinsOff hedits).trans ?_
    exact Thins.edits (Permit.shrinks_thinsOff (V := V))
      ((edits_lookup (c := c) false trivial trivial).run hl)
  have hwritten : ∀ k, (written key p persistent (c.clock s.ticks)
      { s with ticks := s.ticks + 1 }).valueOf k =
      if k = key then some p.storedValue else s.valueOf k := by
    intro k
    unfold valueOf
    rw [get?_written]
    split_ifs <;> rfl
  constructor
  · have := value_of_thins hthin (k := key) id
    rwa [hwritten, if_pos rfl] at this
  · intro k hk
    have := value_of_thins hthin (k := k) id
    rwa [hwritten, if_neg hk] at this

theorem keeps_put (key : Key) (value : V) (ttlSeconds staleSeconds : Option ℤ) (tags : List Tag)
    (token : Option String) (persistent : Bool) :
    Rel (Keeps c (· = key)) (put c key value ttlSeconds staleSeconds tags token persistent) := by
  intro s hf
  rcases h : put c key value ttlSeconds staleSeconds tags token persistent s with ⟨e | r, s'⟩
  · exact Keeps.of_edits (Permit.lapseOf_thinsOff key) (Permit.lapseOf_shrinking key)
      (put_error hf.sound h) hf
  · obtain ⟨v, hv, hkey, hothers⟩ := put_value hf.sound h
    have hsound := (sound_put (c := c) key value ttlSeconds staleSeconds tags token persistent).run h
      hf.sound
    refine ⟨⟨hsound, ?_⟩, ?_, hothers⟩
    · intro k w hk
      by_cases hkk : k = key
      · subst hkk
        rcases hkey with he | he <;> rw [he] at hk
        · obtain rfl := Option.some.inj hk
          exact c.codec.snapshotValue_idem hv
        · cases hk
      · rcases hothers k hkk with he | he <;> rw [he] at hk
        · exact hf.snapshots k w hk
        · cases hk
    · intro hidle
      obtain ⟨p, s₁, _, _, hedits, hl⟩ := put_ok hf.sound h
      have hw : (written key p persistent (c.clock s.ticks)
          { s with ticks := s.ticks + 1 }).activeMutation = none := by
        have := (Edits.one (.store (c := c) (p := Permit.anything)
          { s with ticks := s.ticks + 1 } (k := key)
          (e := writtenEntry p persistent (c.clock s.ticks) (s.entries.get? key)) trivial)).idle hidle
        simpa [written] using this
      exact ((edits_lookup (c := c) (p := Permit.shrinks) false trivial trivial).run hl).idle
        (hedits.idle hw)

/-- A deletion of a bad key raises, any other one takes the entry away. -/
theorem delete_cases (key : Key) (s : Engine V) :
    (∃ e, delete key s = (.error e, s) ∧ (key = "" ∨ 1024 < key.length)) ∨
    ∃ b s', delete key s = (.ok b, s') ∧ s'.entries = s.entries.erase key := by
  by_cases hk : key = "" ∨ 1024 < key.length
  · refine .inl ⟨valueError "key must contain between 1 and 1024 characters", ?_, hk⟩
    simp [delete, validateKey, hk, run_bind]
  · have hrun : ∃ b s', delete key s = (.ok b, s') := by
      simp [delete, validateKey, hk, run_bind, Prog.lift]
    obtain ⟨b, s', hrun⟩ := hrun
    exact .inr ⟨b, s', hrun, delete_ok hrun⟩

/-! ### Exporting and restoring -/

/-- An entry that a restore does not skip. -/
def Unspent (item : StorageEntry V) : Prop :=
  ∀ w, RestoreWindows item w → windowsSpent w = false

/-- An entry that is exported has a window left. -/
theorem unspent_exportedEntry {now : ℚ} {e : Entry V} (h : ¬e.staleUntil ≤ (now : Deadline)) :
    Unspent (exportedEntry now key e) := by
  intro w hw
  unfold RestoreWindows at hw
  split_ifs at hw with hp
  · rw [hw]
    rfl
  · obtain ⟨f, t, hf, ht, _, _, rfl⟩ := hw
    simp only [exportedEntry] at hf ht
    cases hfu : e.freshUntil with
    | none =>
      rw [hfu] at hf
      cases hf
    | some fu =>
      cases hsu : e.staleUntil with
      | none =>
        rw [hfu, hsu] at ht
        cases ht
      | some su =>
        rw [hfu] at hf ht
        rw [hsu] at ht
        have hlt : now < su := by
          have hsu' : e.staleUntil = ((su : ℚ) : Deadline) := hsu
          rw [hsu', not_le] at h
          exact_mod_cast h
        obtain rfl : max 0 (fu - now) = f := Option.some.inj hf
        obtain rfl : max 0 (su - max now fu) = t := Option.some.inj ht
        simp only [windowsSpent, decide_eq_false_iff_not, not_le]
        -- either the fresh window is still open or the stale one is
        rcases le_or_gt fu now with hle | hgt
        · have : 0 < max 0 (su - max now fu) := by
            rw [max_eq_left hle]
            exact lt_max_of_lt_right (by linarith)
          have := le_max_left 0 (fu - now)
          linarith
        · have : 0 < max 0 (fu - now) := lt_max_of_lt_right (by linarith)
          have := le_max_left 0 (su - max now fu)
          linarith

/-- What an export of some keys returns and leaves. -/
structure Exported (keys : List Key) (s s' : Engine V) (l : List (StorageEntry V)) : Prop where
  entry : ∀ e ∈ l, e.key ∈ keys ∧ s'.valueOf e.key = some e.value ∧ Unspent e
  found : ∀ k ∈ keys, s'.valueOf k ≠ none → ∃ e ∈ l, e.key = k
  kept : ∀ k, s'.entries.get? k = s.entries.get? k ∨ k ∈ keys ∧ s'.entries.get? k = none

theorem valueOf_congr {k : Key} (h : s'.entries.get? k = s.entries.get? k) :
    s'.valueOf k = s.valueOf k := by
  unfold valueOf
  rw [h]

/-- What `exportOne` leaves: an expired entry goes. -/
theorem get?_exportOne (now : ℚ) (key : Key) (s : Engine V) (k : Key) :
    (exportOne now key s).2.entries.get? k =
      if k = key then (s.entries.get? k).filter fun e => (now : Deadline) < e.staleUntil
      else s.entries.get? k := by
  unfold exportOne
  by_cases hk : k = key
  · subst hk
    rw [if_pos rfl]
    cases he : s.entries.get? k with
    | none => exact he
    | some e =>
      dsimp only
      by_cases hd : e.staleUntil ≤ (now : Deadline)
      · simp [hd, Option.filter_some]
      · simp [hd, he, Option.filter_some, lt_of_not_ge hd]
  · rw [if_neg hk]
    cases he : s.entries.get? key with
    | none => rfl
    | some e =>
      dsimp only
      split_ifs with hd
      · rw [removeEntry_entries, OrderedDict.get?_erase, if_neg hk]
      · rfl

theorem exportOne_fst (now : ℚ) (key : Key) (s : Engine V) :
    (exportOne now key s).1 =
      ((s.entries.get? key).filter fun e => (now : Deadline) < e.staleUntil).map
        (exportedEntry now key) := by
  unfold exportOne
  cases he : s.entries.get? key with
  | none => rfl
  | some e =>
    dsimp only
    by_cases hd : e.staleUntil ≤ (now : Deadline)
    · simp [hd]
    · simp [hd, lt_of_not_ge hd]

/-- The loop of an export: the live entries of the keys, which stay. -/
theorem collect_exportOne (now : ℚ) (keys : List Key) (s : Engine V) :
    ∃ l s', (collect (fun key => Prog.lift (exportOne now key)) keys : EngineM V _) s =
        (.ok l, s') ∧
      (∀ k, s'.entries.get? k =
        if k ∈ keys then (s.entries.get? k).filter fun e => (now : Deadline) < e.staleUntil
        else s.entries.get? k) ∧
      l = keys.map fun k =>
        ((s.entries.get? k).filter fun e => (now : Deadline) < e.staleUntil).map
          (exportedEntry now k) := by
  induction keys generalizing s with
  | nil => exact ⟨[], s, rfl, by simp, rfl⟩
  | cons key keys ih =>
    obtain ⟨l, s', hrun, hget, hl⟩ := ih (exportOne now key s).2
    refine ⟨(exportOne now key s).1 :: l, s', ?_, ?_, ?_⟩
    · rw [collect, run_bind_ok (run_lift _ s), run_bind_ok hrun]
      rfl
    · intro k
      rw [hget k, get?_exportOne]
      by_cases hk : k = key
      · simp [hk, Option.filter_filter]
      · simp [hk]
    · rw [List.map_cons, exportOne_fst, hl]
      congr 1
      refine List.map_congr_left fun k _ => ?_
      rw [get?_exportOne]
      split_ifs with hk
      · simp [Option.filter_filter]
      · rfl

theorem exportEntries_exported (keys : List Key) (s : Engine V) :
    ∃ l s', exportEntries c (some keys) s = (.ok l, s') ∧ Exported keys s s' l := by
  obtain ⟨l, s', hrun, hget, hl⟩ := collect_exportOne (c.clock s.ticks) keys
    { s with ticks := s.ticks + 1 }
  refine ⟨l.filterMap id, s', ?_, ?_, ?_, ?_⟩
  · have hclock : readClock c s = (.ok (c.clock s.ticks), { s with ticks := s.ticks + 1 }) := rfl
    rw [exportEntries, run_bind_ok hclock, run_bind_ok (run_get _), Option.getD_some,
      run_bind_ok hrun]
    rfl
  · intro e he
    rw [hl] at he
    simp only [List.filterMap_map, List.mem_filterMap, Function.comp_apply, id_eq,
      Option.map_eq_some_iff, Option.filter_eq_some_iff] at he
    obtain ⟨k, hk, x, ⟨hx, hlive⟩, rfl⟩ := he
    refine ⟨hk, ?_, unspent_exportedEntry (not_le_of_gt (of_decide_eq_true hlive))⟩
    have := hget k
    rw [if_pos hk, hx, Option.filter_some, if_pos hlive] at this
    show (s'.entries.get? k).map Entry.value = some x.value
    rw [this]
    rfl
  · intro k hk hne
    have hk' := hget k
    rw [if_pos hk] at hk'
    unfold valueOf at hne
    rw [hk'] at hne
    obtain ⟨x, hx, hlive⟩ : ∃ x, s.entries.get? k = some x ∧
        (c.clock s.ticks : Deadline) < x.staleUntil := by simpa using hne
    refine ⟨exportedEntry (c.clock s.ticks) k x, ?_, rfl⟩
    rw [hl]
    simp only [List.filterMap_map, List.mem_filterMap, Function.comp_apply, id_eq]
    exact ⟨k, hk, by simp [hx, hlive]⟩
  · intro k
    have hk' := hget k
    by_cases hk : k ∈ keys
    · rw [if_pos hk] at hk'
      cases hx : (s.entries.get? k).filter fun e => (c.clock s.ticks : Deadline) < e.staleUntil with
      | none => exact .inr ⟨hk, hk'.trans hx⟩
      | some x => exact .inl (hk'.trans (hx.trans (Option.filter_eq_some_iff.mp hx).1.symm))
    · rw [if_neg hk] at hk'
      exact .inl hk'

/-- What a restore leaves: the entries that are not spent, with their values. -/
theorem restoreEntries_value {entries : List (StorageEntry V)} {n : ℕ}
    (h : restoreEntries c entries s = (.ok n, s')) :
    ∀ item ∈ entries, Unspent item → ∀ v, c.codec.snapshotValue item.value = some v →
      s'.valueOf item.key = some v := by
  rcases restoreEntries_cases (c := c) entries s with ⟨e, t, he, _⟩ | ⟨prepared, now, s₁, he, _, _, hp, _⟩
  · rw [he] at h
    cases h
  · rw [he] at h
    obtain ⟨_, rfl⟩ := Prod.mk.inj h
    intro item hitem hun v hv
    rcases hp.covers item hitem with ⟨q, hq, hr⟩ | ⟨w, hw, hspent⟩
    · show ((restoreAll now prepared s₁).entries.get? item.key).map Entry.value = some v
      rw [← hr.key_eq, get?_restoreAll_of_mem hp.nodup hq]
      have : some q.value = some v := hr.value_eq.symm.trans hv
      simpa [restoredEntry] using this
    · rw [hun w hw] at hspent
      cases hspent

theorem restoreAll_activeMutation (now : ℚ) (prepared : List (PreparedRestore V)) {s : Engine V}
    (h : s.activeMutation = none) : (restoreAll now prepared s).activeMutation = none := by
  induction prepared generalizing s with
  | nil => exact h
  | cons q prepared ih =>
    refine ih (s := storeEntry q.key (restoredEntry now q) s) ?_
    unfold storeEntry removeEntry
    split <;> simp [h]

theorem keeps_restoreEntries (entries : List (StorageEntry V)) :
    Rel (Keeps c (· ∈ entries.map StorageEntry.key)) (restoreEntries c entries) := by
  intro s hf
  have hsound := sound_restoreEntries (c := c) entries s
  rcases restoreEntries_cases (c := c) entries s with ⟨e, s', he, hedits⟩ |
    ⟨prepared, now, s₁, he, hedits, _, hp, _⟩
  · rw [he]
    exact Keeps.of_edits Permit.purges_thinsOff Permit.purges_shrinking hedits hf
  · rw [he] at hsound ⊢
    have hthin : ∀ k, s₁.valueOf k = s.valueOf k ∨ s₁.valueOf k = none := fun k =>
      value_of_thins (Thins.edits Permit.purges_thinsOff hedits) id
    have hkeys : ∀ q ∈ prepared, q.key ∈ entries.map StorageEntry.key := by
      intro q hq
      obtain ⟨item, hitem, hr⟩ := hp.restores q hq
      exact hr.key_eq ▸ List.mem_map_of_mem hitem
    refine ⟨⟨hsound hf.sound, ?_⟩, ?_, ?_⟩
    · intro k v hk
      by_cases hmem : k ∈ prepared.map PreparedRestore.key
      · obtain ⟨q, hq, rfl⟩ := List.mem_map.mp hmem
        obtain ⟨item, _, hr⟩ := hp.restores q hq
        unfold valueOf at hk
        rw [get?_restoreAll_of_mem hp.nodup hq] at hk
        obtain rfl : q.value = v := by simpa [restoredEntry] using hk
        exact c.codec.snapshotValue_idem hr.value_eq
      · rw [valueOf_congr (get?_restoreAll_of_notMem hmem s₁)] at hk
        rcases hthin k with he | he <;> rw [he] at hk
        · exact hf.snapshots k v hk
        · cases hk
    · intro hidle
      exact restoreAll_activeMutation now prepared (hedits.idle hidle)
    · intro k hk
      have hmem : k ∉ prepared.map PreparedRestore.key := by
        intro hm
        obtain ⟨q, hq, rfl⟩ := List.mem_map.mp hm
        exact hk (hkeys q hq)
      rw [valueOf_congr (get?_restoreAll_of_notMem hmem s₁)]
      exact hthin k

end Engine
end MegaCache
