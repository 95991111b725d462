import MegaCache.Engine.Invariant

/-!
# The edits of each operation

For every public operation, the elementary edits it consists of and the keys it
makes them on.  Writes, restores and leases are split at the edit that needs a
capacity check.
-/

namespace MegaCache
namespace Engine

open Prog

variable {V : Type} {c : EngineConfig V} {p : Permit V}

/-! ## Reads and removals -/

/-- A loop over the entries that removes some of them: the entry of a key not
yet visited is still the one the loop saw. -/
theorem edits_removeEntries (l : List (Key × Entry V)) (cond : Key × Entry V → Prop)
    [DecidablePred cond] {s : Engine V} (hn : (l.map Prod.fst).Nodup)
    (hl : ∀ q ∈ l, s.entries.get? q.1 = some q.2)
    (hstep : ∀ (u : Engine V) (q : Key × Entry V), q ∈ l → cond q → s.ticks ≤ u.ticks →
      u.entries.get? q.1 = some q.2 → Edits c p u (removeEntry q.1 u)) :
    Edits c p s (l.foldl (fun s q => if cond q then removeEntry q.1 s else s) s) := by
  induction l generalizing s with
  | nil => exact .refl
  | cons q l ih =>
    simp only [List.map_cons, List.nodup_cons] at hn
    rw [List.foldl_cons]
    by_cases hc : cond q
    · rw [if_pos hc]
      refine (hstep s q List.mem_cons_self hc le_rfl (hl q List.mem_cons_self)).trans
        (ih hn.2 ?_ ?_)
      · intro r hr
        have hne : r.1 ≠ q.1 := fun he => hn.1 (he ▸ List.mem_map_of_mem hr)
        rw [removeEntry_entries, OrderedDict.get?_erase, if_neg hne]
        exact hl r (List.mem_cons_of_mem q hr)
      · intro u r hr hcr hu
        exact hstep u r (List.mem_cons_of_mem q hr) hcr (by simpa using hu)
    · rw [if_neg hc]
      exact ih hn.2 (fun r hr => hl r (List.mem_cons_of_mem q hr))
        fun u r hr => hstep u r (List.mem_cons_of_mem q hr)

theorem edits_purgeExpiredEntries {now : ℚ} (hx : ∀ k, p.expire k) {s : Engine V}
    (hnow : ∃ i < s.ticks, now = c.clock i) : Edits c p s (purgeExpiredEntries now s) := by
  obtain ⟨i, hi, rfl⟩ := hnow
  refine edits_removeEntries s.entries.toList (fun q => q.2.staleUntil ≤ (c.clock i : Deadline))
    s.entries.nodup (fun q hq => OrderedDict.mem_toList.mp hq) ?_
  intro u q _ hd hu hg
  exact Edits.one (.expire u (hx q.1) hg (hi.trans_le hu) hd)

/-- The same for the loop over the leases. -/
theorem edits_purgeLeases (l : List (Key × Lease)) {now : ℚ} {i : ℕ} (hnow : now = c.clock i)
    (hx : ∀ k, p.lapse k) {s : Engine V} (hi : i < s.ticks) (hn : (l.map Prod.fst).Nodup)
    (hl : ∀ q ∈ l, s.leases.get? q.1 = some q.2) :
    Edits c p s (l.foldl (fun s q => if q.2.untilTime ≤ now then removeLease q.1 s else s) s) := by
  induction l generalizing s with
  | nil => exact .refl
  | cons q l ih =>
    simp only [List.map_cons, List.nodup_cons] at hn
    rw [List.foldl_cons]
    by_cases hd : q.2.untilTime ≤ now
    · rw [if_pos hd]
      refine (Edits.one (.lapse s (hx q.1) (hl q List.mem_cons_self) hi (hnow ▸ hd))).trans
        (ih (by simpa using hi) hn.2 ?_)
      intro r hr
      have hne : r.1 ≠ q.1 := fun he => hn.1 (he ▸ List.mem_map_of_mem hr)
      rw [removeLease_leases, OrderedDict.get?_erase, if_neg hne]
      exact hl r (List.mem_cons_of_mem q hr)
    · rw [if_neg hd]
      exact ih hi hn.2 fun r hr => hl r (List.mem_cons_of_mem q hr)

theorem edits_purgeExpiredLeases {now : ℚ} (hx : ∀ k, p.lapse k) {s : Engine V}
    (hnow : ∃ i < s.ticks, now = c.clock i) : Edits c p s (purgeExpiredLeases now s) := by
  obtain ⟨i, hi, rfl⟩ := hnow
  exact edits_purgeLeases s.leases.toList rfl hx hi s.leases.nodup
    fun q hq => OrderedDict.mem_toList.mp hq

/-- The locked part of an operation that starts with a clock reading. -/
theorem edits_clocked {α : Type} {f : ℚ → EngineM V α}
    (h : ∀ (now : ℚ) (s : Engine V), (∃ i < s.ticks, now = c.clock i) →
      Edits c p s (f now s).2) : Rel (Edits c p) (readClock c >>= f) := by
  intro s
  exact (Edits.one (.tick s)).trans (h _ _ ⟨s.ticks, Nat.lt_succ_self _, rfl⟩)

theorem edits_get : Rel (Edits c p) (get : EngineM V (Engine V)) := fun _ => .refl

theorem edits_mget {keys : List Key} (ht : ∀ k ∈ keys, p.touch k) (hx : ∀ k ∈ keys, p.expire k) :
    Rel (Edits c p) (mget c keys) :=
  Rel.collect fun k hk => edits_getEntry (ht k hk) (hx k hk)

theorem edits_deleteLocked {key : Key} (hd : p.drop key) (hr : p.release key) (s : Engine V) :
    Edits c p s (deleteLocked key s).2 := by
  have h : Edits c p s (removeLease key (removeEntry key s)) :=
    (Edits.one (.drop s hd)).tail (.release _ hr)
  unfold deleteLocked
  dsimp only
  split
  · exact h.tail (.bump _ _ _)
  · exact h

theorem edits_delete {key : Key} (hd : p.drop key) (hr : p.release key) :
    Rel (Edits c p) (delete (V := V) key) :=
  Rel.bind (edits_validateKey key) fun _ s => edits_deleteLocked hd hr s

theorem edits_deleteMany {keys : List Key} (hd : ∀ k ∈ keys, p.drop k)
    (hr : ∀ k ∈ keys, p.release k) : Rel (Edits c p) (deleteMany (V := V) keys) :=
  Rel.bind (Rel.collect fun k hk => edits_delete (hd k hk) (hr k hk)) fun _ => Rel.pure _

theorem edits_existsCount {keys : List Key} (ht : ∀ k ∈ keys, p.touch k)
    (hx : ∀ k ∈ keys, p.expire k) : Rel (Edits c p) (existsCount c keys) :=
  Rel.bind (Rel.collect fun k hk => edits_lookup false (ht k hk) (hx k hk)) fun _ => Rel.pure _

theorem edits_ttl {key : Key} (ht : p.touch key) (hx : p.expire key) :
    Rel (Edits c p) (ttl c key) := by
  refine Rel.bind (edits_validateKey key) fun _ => Rel.bind (edits_lookup false ht hx) fun r =>
    Rel.ite (fun _ => Rel.pure _) fun _ => Rel.bind edits_get fun s => ?_
  split
  · exact Rel.pure _
  · split
    · exact Rel.pure _
    · exact Rel.bind edits_readClock fun _ => Rel.pure _

theorem edits_size (ht : ∀ k, p.touch k) (hx : ∀ k, p.expire k) : Rel (Edits c p) (size c) :=
  Rel.bind edits_get fun _ =>
    Rel.bind (Rel.collect fun k _ => edits_lookup false (ht k) (hx k)) fun _ =>
      Rel.bind edits_get fun _ => Rel.pure _

theorem edits_keys (hx : ∀ k, p.expire k) : Rel (Edits c p) (keys c) :=
  edits_clocked fun now s hnow =>
    (edits_purgeExpiredEntries hx hnow : Edits c p s (purgeExpiredEntries now s))

theorem edits_exportOne {now : ℚ} {key : Key} (hx : p.expire key) {s : Engine V}
    (hnow : ∃ i < s.ticks, now = c.clock i) : Edits c p s (exportOne now key s).2 := by
  obtain ⟨i, hi, rfl⟩ := hnow
  unfold exportOne
  split
  · exact .refl
  · rename_i e hg
    split
    · rename_i hd
      exact Edits.one (.expire s hx hg hi hd)
    · exact .refl

/-- A loop whose body uses a clock reading made before it. -/
theorem edits_collect_clocked {α β : Type} {now : ℚ} {body : α → EngineM V β} {xs : List α}
    (h : ∀ x ∈ xs, ∀ s : Engine V, (∃ i < s.ticks, now = c.clock i) → Edits c p s (body x s).2)
    {s : Engine V} (hnow : ∃ i < s.ticks, now = c.clock i) :
    Edits c p s (collect body xs s).2 := by
  induction xs generalizing s with
  | nil => exact .refl
  | cons x xs ih =>
    have hx := h x List.mem_cons_self s hnow
    simp only [collect, run_bind]
    rcases hb : body x s with ⟨e | y, s'⟩ <;> rw [hb] at hx
    · exact hx
    · obtain ⟨i, hi, rfl⟩ := hnow
      have hrest := ih (fun y hy => h y (List.mem_cons_of_mem x hy))
        ⟨i, hi.trans_le hx.ticks_le, rfl⟩
      dsimp only
      rcases hc : collect body xs s' with ⟨e | ys, s''⟩ <;> rw [hc] at hrest <;>
        exact hx.trans hrest

theorem edits_exportEntries {keys : Option (List Key)} (hx : ∀ k, p.expire k) :
    Rel (Edits c p) (exportEntries c keys) := by
  refine edits_clocked fun now s hnow => ?_
  rw [run_bind_ok (run_get s), run_bind_pure]
  exact edits_collect_clocked (fun k _ s hs => edits_exportOne (hx k) hs) hnow

theorem edits_validateLease (key : Key) (token : Option String) (now : ℚ) :
    Rel (Edits c p) (validateLease (V := V) key token now) := by
  unfold validateLease
  split
  · exact Rel.pure _
  · refine Rel.bind edits_get fun s => ?_
    split
    · exact Rel.throw _
    · exact Rel.ite (fun _ => Rel.throw _) fun _ => Rel.bind (edits_compareDigest _ _) fun _ =>
        Rel.ite (fun _ => Rel.pure _) fun _ => Rel.throw _

theorem edits_validatePut (key : Key) (value : V) (ttlSeconds staleSeconds : Option ℤ)
    (tags : List Tag) (token : Option String) (persistent : Bool) :
    Rel (Edits c p) (validatePut c key value ttlSeconds staleSeconds tags token persistent) :=
  Rel.bind (edits_preparePut _ _ _ _ _ _ _) fun _ => Rel.bind edits_readClock fun _ =>
    Rel.bind (edits_validateLease _ _ _) fun _ => Rel.bind edits_get fun _ =>
      Rel.ite (fun _ => Rel.throw _) fun _ => Rel.pure _

theorem edits_restoreWindows (item : StorageEntry V) : Rel (Edits c p) (restoreWindows item) :=
  Rel.ite (fun _ => Rel.pure _) fun _ => Rel.bind (edits_snapshotDuration _ _) fun _ =>
    Rel.bind (edits_snapshotDuration _ _) fun _ => Rel.pure _

theorem edits_prepareRestoreOne (item : StorageEntry V) :
    Rel (Edits c p) (prepareRestoreOne c item) :=
  Rel.bind (edits_normalizeTags _) fun _ => Rel.bind (edits_snapshotValue _) fun _ =>
    Rel.bind (edits_restoreWindows item) fun _ => Rel.ite (fun _ => Rel.pure _) fun _ =>
      Rel.bind (edits_entrySize _ _ _) fun _ => Rel.ite (fun _ => Rel.throw _) fun _ => Rel.pure _

theorem edits_prepareRestoreEntries (entries : List (StorageEntry V)) :
    Rel (Edits c p) (prepareRestoreEntries c entries) :=
  Rel.bind (Rel.forEach fun _ _ => edits_validateKey _) fun _ =>
    Rel.ite (fun _ => Rel.throw _) fun _ =>
      Rel.bind (Rel.collect fun _ _ => edits_prepareRestoreOne _) fun _ => Rel.pure _

theorem edits_validatePreparedRestoreCapacity (prepared : List (PreparedRestore V)) :
    Rel (Edits c p) (validatePreparedRestoreCapacity c prepared) :=
  Rel.bind edits_get fun _ => Rel.ite (fun _ => Rel.throw _) fun _ => Rel.pure _

theorem edits_validateRestoreEntries (hx : ∀ k, p.expire k) (entries : List (StorageEntry V)) :
    Rel (Edits c p) (validateRestoreEntries c entries) := by
  refine Rel.bind (edits_prepareRestoreEntries entries) fun prepared =>
    edits_clocked fun now s hnow => ?_
  simp only [run_bind, run_modify]
  exact (edits_purgeExpiredEntries hx hnow).trans
    (edits_validatePreparedRestoreCapacity prepared _)

/-! ## Leases and tags -/

theorem edits_releaseLocked {key : Key} (hr : p.release key) (token : String) :
    Rel (Edits c p) (releaseLocked (V := V) key token) := by
  refine Rel.bind edits_get fun s => ?_
  split
  · exact Rel.pure _
  · exact Rel.bind (edits_compareDigest _ _) fun _ => Rel.ite
      (fun _ => Rel.bind (fun s => Edits.one (.release s hr)) fun _ => Rel.pure _)
      fun _ => Rel.pure _

theorem edits_releaseLease {key : Key} (hr : p.release key) (token : String) :
    Rel (Edits c p) (releaseLease (V := V) key token) :=
  Rel.bind (edits_validateKey key) fun _ => edits_releaseLocked hr token

theorem edits_renewLocked {key : Key} (hl : p.lapse key) (hr : p.renew key) (token : String)
    {now : ℚ} {s : Engine V} (hnow : ∃ i < s.ticks, now = c.clock i) :
    Edits c p s (renewLocked c key token now s).2 := by
  obtain ⟨i, hi, rfl⟩ := hnow
  simp only [renewLocked, run_bind, run_get]
  cases hg : s.leases.get? key with
  | none => exact .refl
  | some lease =>
    by_cases hd : lease.untilTime ≤ c.clock i
    · simp only [hd, ↓reduceIte, run_bind, run_modify]
      exact Edits.one (.lapse s hl hg hi hd)
    · simp only [hd, ↓reduceIte, run_bind, compareDigest, run_ite]
      split_ifs with ha
      · by_cases htok : lease.token = token
        · subst htok
          simp only [run_pure, decide_true, ↓reduceIte, run_modify]
          exact (Edits.one (.renew s _ hr hg)).tail (.bump _ _ _)
        · simp only [run_pure, htok, decide_false, Bool.false_eq_true, ↓reduceIte]
          exact .refl
      · exact .refl

theorem edits_renewLease {key : Key} (hl : p.lapse key) (hr : p.renew key) (token : String) :
    Rel (Edits c p) (renewLease c key token) :=
  Rel.bind (edits_validateKey key) fun _ =>
    edits_clocked fun _ _ hnow => edits_renewLocked hl hr token hnow

theorem edits_dropAll (l : List Key) (hd : ∀ k ∈ l, p.drop k) (hr : ∀ k ∈ l, p.release k)
    (s : Engine V) :
    Edits c p s (l.foldl (fun s k => removeLease k (removeEntry k s)) s) := by
  induction l generalizing s with
  | nil => exact .refl
  | cons k l ih =>
    have hk := List.mem_cons_self (a := k) (l := l)
    exact ((Edits.one (.drop s (hd k hk))).tail (.release _ (hr k hk))).trans
      (ih (fun k' h => hd k' (List.mem_cons_of_mem k h))
        (fun k' h => hr k' (List.mem_cons_of_mem k h)) _)

theorem edits_invalidateLocked {tags : List Tag} {s : Engine V}
    (hd : ∀ k ∈ taggedKeys tags s, p.drop k) (hr : ∀ k ∈ taggedKeys tags s, p.release k) :
    Edits c p s (invalidateLocked tags s).2 :=
  (edits_dropAll _ hd hr s).tail (.bump _ _ _)

theorem edits_invalidateTags (hd : ∀ k, p.drop k) (hr : ∀ k, p.release k) (tags : List Tag) :
    Rel (Edits c p) (invalidateTags (V := V) tags) :=
  Rel.bind (edits_normalizeTags tags) fun _ _ =>
    edits_invalidateLocked (fun k _ => hd k) fun k _ => hr k

theorem edits_stats (ht : ∀ k, p.touch k) (hx : ∀ k, p.expire k) (hl : ∀ k, p.lapse k) :
    Rel (Edits c p) (stats c) := by
  refine edits_clocked fun now s hnow => ?_
  rw [run_bind_ok (run_modify _ s)]
  refine (edits_purgeExpiredLeases hl hnow).trans ?_
  refine Rel.bind edits_get (fun _ => Rel.bind (edits_size ht hx) fun _ =>
    Rel.bind edits_get fun _ => Rel.bind (Rel.collect fun _ _ => ?_) fun _ => Rel.pure _) _
  exact Rel.bind edits_readClock fun _ => Rel.pure _

theorem edits_expire {key : Key} (ht : p.touch key) (hx : p.expire key)
    (hu : ∀ d n, p.update key (expiringEntry d n)) (ttlSeconds : ℤ) :
    Rel (Edits c p) (expire c key ttlSeconds) := by
  refine Rel.bind (edits_validateKey key) fun _ => Rel.bind (edits_duration _ _ _ _) fun n =>
    Rel.bind (edits_lookup false ht hx) fun _ => Rel.ite (fun _ => Rel.pure _) fun _ =>
      Rel.bind edits_readClock fun now => Rel.bind ?_ fun _ =>
        Rel.bind (edits_bump _ _) fun _ => Rel.pure _
  exact edits_modify fun s => Edits.one (.update s (hu _ _) fun _ => ⟨rfl, rfl⟩)

theorem edits_recordLoadCost {key : Key}
    (hu : ∀ cost : Entry V → ℚ, p.update key fun e => { e with loadCostMs := cost e })
    (durationMs : ℚ) : Rel (Edits c p) (recordLoadCost (V := V) key durationMs) :=
  Rel.ite (fun _ => Rel.throw _) fun _ =>
    edits_modify fun s => Edits.one (.update s (hu _) fun _ => ⟨rfl, rfl⟩)

/-! ## Writes -/

/-- All edits of one key that a write may need. -/
structure Permit.Writes (p : Permit V) (key : Key) : Prop where
  touch : p.touch key
  expire : p.expire key
  store : ∀ e, p.store key e
  lapse : p.lapse key
  release : p.release key

theorem edits_putLocked {key : Key} (hw : p.Writes key) (token : Option String)
    (persistent : Bool) (q : PreparedPut V) {now : ℚ} {s : Engine V}
    (hnow : ∃ i < s.ticks, now = c.clock i) :
    Edits c p s (putLocked c key token persistent q now s).2 := by
  have hcheck := edits_checkLease hw.lapse token hnow
  rcases hc : checkLease key token now s with ⟨e | ⟨⟩, s₁⟩ <;> rw [hc] at hcheck
  · rw [putLocked, run_bind_error hc]
    exact hcheck
  · rw [putLocked, run_bind_ok hc]
    refine hcheck.trans (Rel.bind edits_get (fun u => Rel.ite (fun _ => ?_) fun _ => ?_) s₁)
    · exact Rel.bind (edits_bump _ _) fun _ => Rel.throw _
    · exact Rel.bind (fun s => Edits.one (.store s (hw.store _))) fun _ =>
        Rel.bind (fun s => Edits.one (.release s hw.release)) fun _ =>
          Rel.bind (edits_bump _ _) fun _ => Rel.bind edits_evictIfNeeded fun _ =>
            edits_lookup false hw.touch hw.expire

theorem edits_put {key : Key} (hw : p.Writes key) (value : V) (ttlSeconds staleSeconds : Option ℤ)
    (tags : List Tag) (token : Option String) (persistent : Bool) :
    Rel (Edits c p) (put c key value ttlSeconds staleSeconds tags token persistent) :=
  Rel.bind (edits_preparePut _ _ _ _ _ _ _) fun q =>
    edits_clocked fun _ _ hnow => edits_putLocked hw token persistent q hnow

theorem edits_msetCheck (item : Key × V) : Rel (Edits c p) (msetCheck c item) :=
  Rel.bind (edits_validateKey _) fun _ => Rel.bind (edits_entrySize _ _ _) fun _ =>
    Rel.ite (fun _ => Rel.bind (edits_bump _ _) fun _ => Rel.throw _) fun _ => Rel.pure _

theorem edits_mset {values : List (Key × V)} (hw : ∀ item ∈ values, p.Writes item.1) :
    Rel (Edits c p) (mset c values) :=
  Rel.bind (Rel.forEach fun item _ => edits_msetCheck item) fun _ =>
    Rel.forEach fun item hi => Rel.bind (edits_put (hw item hi) _ _ _ _ _ _) fun _ => Rel.pure _

theorem edits_getOrLoad {key : Key} (hw : p.Writes key) (loaded : Except PyError V)
    (ttlSeconds staleSeconds : Option ℤ) (tags : List Tag) :
    Rel (Edits c p) (getOrLoad c key loaded ttlSeconds staleSeconds tags) := by
  refine Rel.bind (edits_validateKey key) fun _ =>
    Rel.bind (edits_lookup true hw.touch hw.expire) fun cached =>
      Rel.ite (fun _ => Rel.pure _) fun _ => Rel.tryCatch ?_ fun e =>
        Rel.bind (edits_bump _ _) fun _ => Rel.throw _
  cases loaded with
  | error e => exact Rel.throw _
  | ok value => exact edits_put hw _ _ _ _ _ _

theorem edits_storeAll {now : ℚ} {prepared : List (PreparedRestore V)}
    (hs : ∀ q ∈ prepared, ∀ e, p.store q.key e) (s : Engine V) :
    Edits c p s (prepared.foldl (fun s q => storeEntry q.key (restoredEntry now q) s) s) := by
  induction prepared generalizing s with
  | nil => exact .refl
  | cons q prepared ih =>
    exact (Edits.one (.store s (hs q List.mem_cons_self _))).trans
      (ih (fun r hr => hs r (List.mem_cons_of_mem q hr)) _)

end Engine
end MegaCache
