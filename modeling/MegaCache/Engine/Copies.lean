import MegaCache.Engine.Acceptance
import MegaCache.Engine.Stock
import MegaCache.Engine.Values
import MegaCache.Lib.TwoRuns

/-!
# Copies of an engine

An engine restored from the export of another one holds the same entries in the same order.
Their deadlines differ only where both are over when the copy is made, so reads, tag
invalidations and, while leases take the same room, writes and evictions are the same from then
on.
-/

namespace MegaCache
namespace Engine

open Prog

variable {V : Type} {c : EngineConfig V} {t : ℚ} {s u : Engine V}

/-- Two entries that nothing tells apart from time `t` on. -/
structure Copied (t : ℚ) (e e' : Entry V) : Prop where
  value : e'.value = e.value
  tags : ∀ tag, tag ∈ e'.tags ↔ tag ∈ e.tags
  sizeBytes : e'.sizeBytes = e.sizeBytes
  staleUntil : e'.staleUntil = e.staleUntil
  freshUntil : e'.freshUntil = e.freshUntil ∨
    e.freshUntil ≤ (t : Deadline) ∧ e'.freshUntil ≤ (t : Deadline)

/-- Copied entries under the same keys, in the same order. -/
abbrev CopiedAll (t : ℚ) (d d' : OrderedDict Key (Entry V)) : Prop :=
  OrderedDict.Alike (fun _ => Copied t) d d'

/-- The entries that two copies hold for a key. -/
theorem copied_get? {d d' : OrderedDict Key (Entry V)} (h : CopiedAll t d d') (key : Key) :
    d.get? key = none ∧ d'.get? key = none ∨
      ∃ e e', d.get? key = some e ∧ d'.get? key = some e' ∧ Copied t e e' := by
  have hget := h.get? key
  cases hd : d.get? key with
  | none =>
    rw [hd] at hget
    cases hd' : d'.get? key with
    | none => exact .inl ⟨rfl, rfl⟩
    | some e => rw [hd'] at hget; cases hget
  | some e =>
    rw [hd] at hget
    cases hd' : d'.get? key with
    | none => rw [hd'] at hget; cases hget
    | some e' =>
      rw [hd'] at hget
      cases hget with
      | some he => exact .inr ⟨e, e', rfl, rfl, he⟩

/-! ## Reads -/

theorem Copied.touched {e e' : Entry V} (h : Copied t e e') (count : Bool) (now : ℚ) :
    Copied t (touched count now e) (touched count now e') := by
  unfold Engine.touched
  split_ifs
  · exact ⟨h.value, h.tags, h.sizeBytes, h.staleUntil, h.freshUntil⟩
  · exact h

/-- A later reading of the clock is before both fresh deadlines or before none. -/
theorem Copied.fresh_iff {e e' : Entry V} (h : Copied t e e') {now : ℚ} (hnow : t ≤ now) :
    (now : Deadline) < e'.freshUntil ↔ (now : Deadline) < e.freshUntil := by
  rcases h.freshUntil with heq | ⟨hle, hle'⟩
  · rw [heq]
  · have hnow' : (t : Deadline) ≤ (now : Deadline) := WithTop.coe_le_coe.mpr hnow
    exact iff_of_false (not_lt.mpr (hle'.trans hnow')) (not_lt.mpr (hle.trans hnow'))

theorem Copied.freshResult {e e' : Entry V} (h : Copied t e e') {now : ℚ} (hnow : t ≤ now)
    (hfresh : (now : Deadline) < e.freshUntil) : freshResult now e' = freshResult now e := by
  have heq : e'.freshUntil = e.freshUntil := by
    refine h.freshUntil.resolve_right fun hle => ?_
    exact absurd hfresh (not_lt.mpr (hle.1.trans (WithTop.coe_le_coe.mpr hnow)))
  simp only [Engine.freshResult, staleWindow, h.value, heq, h.staleUntil]

theorem Copied.staleResult {e e' : Entry V} (h : Copied t e e') (now : ℚ) :
    staleResult now e' = staleResult now e := by
  simp only [Engine.staleResult, h.value, h.staleUntil]

/-- A lookup in copies finds the same and leaves copies. -/
theorem lookupAt_copied (h : CopiedAll t s.entries u.entries) {now : ℚ} (hnow : t ≤ now) (key : Key)
    (count : Bool) : (lookupAt now key count s).1 = (lookupAt now key count u).1 ∧
      CopiedAll t (lookupAt now key count s).2.entries (lookupAt now key count u).2.entries := by
  unfold lookupAt
  rcases copied_get? h key with ⟨hs, hu⟩ | ⟨e, e', hs, hu, he⟩
  · rw [hs, hu]
    simp only [countIf_entries]
    exact ⟨trivial, h⟩
  · rw [hs, hu]
    have hlast := h.setLast (k := key) (he.touched count now)
    dsimp only
    rw [he.staleUntil]
    split_ifs with hexpired hfresh hfresh' hfresh'
    · refine ⟨rfl, ?_⟩
      simp only [countIf_entries, removeEntry_entries]
      exact h.erase key
    · refine ⟨(he.freshResult hnow hfresh).symm, ?_⟩
      simp only [countIf_entries]
      exact hlast
    · exact absurd ((he.fresh_iff hnow).mpr hfresh) hfresh'
    · exact absurd ((he.fresh_iff hnow).mp hfresh') hfresh
    · refine ⟨(he.staleResult now).symm, ?_⟩
      simp only [countIf_entries]
      exact hlast

/-! ## Tags -/

theorem dropAll_toList (l : List Key) (s : Engine V) :
    (l.foldl (fun s k => removeLease k (removeEntry k s)) s).entries.toList =
      s.entries.toList.filter fun q => q.1 ∉ l := by
  induction l generalizing s with
  | nil => simp
  | cons k l ih =>
    rw [List.foldl_cons, ih, removeLease_entries, removeEntry_entries]
    simp only [OrderedDict.erase, List.filter_filter]
    refine List.filter_congr fun q _ => ?_
    simp [Bool.and_comm]

/-- The same keys dropped from copies. -/
theorem dropAll_copied {l l' : List Key} (hl : ∀ k, k ∈ l' ↔ k ∈ l)
    (h : CopiedAll t s.entries u.entries) :
    CopiedAll t (l.foldl (fun s k => removeLease k (removeEntry k s)) s).entries
      (l'.foldl (fun s k => removeLease k (removeEntry k s)) u).entries := by
  unfold CopiedAll OrderedDict.Alike
  rw [dropAll_toList, dropAll_toList]
  refine List.rel_filter ?_ h
  intro p q hpq
  simp [hpq.1, hl]

/-- Copies have entries with the same tags. -/
theorem taggedKeys_copied (hs : Indexes s.tags s.entries) (hu : Indexes u.tags u.entries)
    (h : CopiedAll t s.entries u.entries) (tags : List Tag) (k : Key) :
    k ∈ taggedKeys tags u ↔ k ∈ taggedKeys tags s := by
  rw [mem_taggedKeys hs, mem_taggedKeys hu]
  rcases copied_get? h k with ⟨hk, hk'⟩ | ⟨e, e', hk, hk', he⟩
  · simp [hk, hk']
  · simp [hk, hk', he.tags]

/-! ## Exports -/

/-- The entries that are not over at `now`. -/
def liveAt (now : ℚ) (q : Key × Entry V) : Bool := (now : Deadline) < q.2.staleUntil

theorem exportOne_entries (now : ℚ) (key : Key) (s : Engine V) :
    (exportOne now key s).2.entries.toList =
      s.entries.toList.filter fun q => q.1 ≠ key ∨ liveAt now q := by
  have hkey : ∀ {e : Entry V}, s.entries.get? key = some e → ∀ q ∈ s.entries.toList, q.1 = key →
      q.2 = e := by
    rintro e he ⟨k, x⟩ hq rfl
    exact Option.some.inj ((OrderedDict.mem_toList.mp hq).symm.trans he)
  unfold exportOne
  cases he : s.entries.get? key with
  | none =>
    refine (List.filter_eq_self.mpr fun q hq => ?_).symm
    have hne : q.1 ≠ key := by
      rintro rfl
      exact OrderedDict.get?_eq_none.mp he (List.mem_map_of_mem hq)
    simp [hne]
  | some e =>
    dsimp only
    split_ifs with hexpired
    · rw [removeEntry_entries]
      refine List.filter_congr fun q hq => ?_
      by_cases hq' : q.1 = key
      · have hdead : liveAt now q = false := by
          rw [liveAt, hkey he q hq hq']
          exact decide_eq_false (not_lt.mpr hexpired)
        simp [hq', hdead]
      · simp [hq']
    · refine (List.filter_eq_self.mpr fun q hq => ?_).symm
      by_cases hq' : q.1 = key
      · have hlive : liveAt now q = true := by
          rw [liveAt, hkey he q hq hq']
          exact decide_eq_true (not_le.mp hexpired)
        simp [hlive]
      · simp [hq']

theorem exportOne_leases (now : ℚ) (key : Key) (s : Engine V) :
    (exportOne now key s).2.leases = s.leases ∧ (exportOne now key s).2.ticks = s.ticks := by
  unfold exportOne
  cases s.entries.get? key with
  | none => exact ⟨rfl, rfl⟩
  | some e =>
    dsimp only
    split_ifs
    · exact ⟨removeEntry_leases key s, removeEntry_ticks key s⟩
    · exact ⟨rfl, rfl⟩

/-- What the loop of an export leaves, in order. -/
theorem collect_exportOne_state (now : ℚ) (keys : List Key) (s : Engine V) :
    let s' := ((collect (fun key => Prog.lift (exportOne now key)) keys : EngineM V _) s).2
    s'.entries.toList = s.entries.toList.filter (fun q => q.1 ∉ keys ∨ liveAt now q) ∧
      s'.leases = s.leases ∧ s'.ticks = s.ticks := by
  induction keys generalizing s with
  | nil => exact ⟨by simp [collect], rfl, rfl⟩
  | cons key keys ih =>
    obtain ⟨hentries, hleases, hticks⟩ := ih (exportOne now key s).2
    obtain ⟨hleases', hticks'⟩ := exportOne_leases now key s
    have hstate : ((collect (fun key => Prog.lift (exportOne now key)) (key :: keys) :
        EngineM V _) s).2 = ((collect (fun key => Prog.lift (exportOne now key)) keys :
          EngineM V _) (exportOne now key s).2).2 := by
      rw [collect, run_bind_ok (run_lift _ s), run_bind]
      rcases (collect (fun key => Prog.lift (exportOne now key)) keys : EngineM V _)
        (exportOne now key s).2 with ⟨e | l, s'⟩ <;> rfl
    dsimp only
    rw [hstate]
    refine ⟨?_, hleases.trans hleases', hticks.trans hticks'⟩
    rw [hentries, exportOne_entries, List.filter_filter]
    refine List.filter_congr fun q _ => ?_
    by_cases hq : q.1 = key <;> by_cases hlive : liveAt now q = true <;> simp [hq, hlive]

/-- What a live entry contributes to an export of all keys. -/
theorem exported_of_mem {d : OrderedDict Key (Entry V)} {now : ℚ} {q : Key × Entry V}
    (hq : q ∈ d.toList) :
    ((d.get? q.1).filter fun e => (now : Deadline) < e.staleUntil).map (exportedEntry now q.1) =
      if liveAt now q then some (exportedEntry now q.1 q.2) else none := by
  rw [OrderedDict.mem_toList.mp hq]
  unfold liveAt
  by_cases hlive : (now : Deadline) < q.2.staleUntil
  · simp [hlive]
  · simp [hlive, not_lt.mp hlive]

/-- An export of all keys leaves the live entries, which it returns in their order. -/
theorem exportEntries_all (s : Engine V) :
    ∃ s₁, exportEntries c none s = (.ok (s₁.entries.toList.map fun q =>
        exportedEntry (c.clock s.ticks) q.1 q.2), s₁) ∧
      s₁.entries.toList = s.entries.toList.filter (liveAt (c.clock s.ticks)) ∧
      s₁.leases = s.leases ∧ s₁.ticks = s.ticks + 1 := by
  obtain ⟨l, s₁, hrun, -, hl⟩ := collect_exportOne (c.clock s.ticks) s.entries.keys
    { s with ticks := s.ticks + 1 }
  obtain ⟨hentries, hleases, hticks⟩ := collect_exportOne_state (c.clock s.ticks) s.entries.keys
    { s with ticks := s.ticks + 1 }
  rw [hrun] at hentries hleases hticks
  have hlive : s₁.entries.toList = s.entries.toList.filter (liveAt (c.clock s.ticks)) := by
    refine hentries.trans (List.filter_congr fun q hq => ?_)
    have hmem : q.1 ∈ s.entries.keys := List.mem_map_of_mem hq
    simp [hmem]
  refine ⟨s₁, ?_, hlive, hleases, hticks⟩
  have hclock : readClock c s = (.ok (c.clock s.ticks), { s with ticks := s.ticks + 1 }) := rfl
  rw [exportEntries, run_bind_ok hclock, run_bind_ok (run_get _), Option.getD_none,
    run_bind_ok hrun, run_pure, hl, hlive]
  refine congrArg (fun x => (Except.ok x, s₁)) ?_
  rw [OrderedDict.keys, List.map_map, List.filterMap_map, ← List.filterMap_eq_filter,
    List.map_filterMap]
  refine List.filterMap_congr fun q hq => ?_
  refine (exported_of_mem hq).trans ?_
  by_cases h : liveAt (c.clock s.ticks) q = true
  · simp [h, Option.guard]
  · simp [h, Option.guard]

/-! ## Restores -/

/-- The entry that is prepared from an exported one. -/
def preparedCopy (now : ℚ) (key : Key) (e : Entry V) : PreparedRestore V where
  key := key
  value := e.value
  tags := sortedTags e.tags
  sizeBytes := e.sizeBytes
  windows := match e.freshUntil, e.staleUntil with
    | some f, some d => some (max 0 (f - now), max 0 (d - max now f))
    | _, _ => none

theorem sortedTags_perm (tags : List Tag) : List.Perm (sortedTags tags) tags :=
  List.perm_insertionSort _ tags

theorem TagsFit.sorted {tags : List Tag} (h : TagsFit tags) : TagsFit (sortedTags tags) :=
  ⟨(sortedTags_perm tags).length_eq.trans_le h.1,
    fun tag ht => h.2 tag ((sortedTags_perm tags).mem_iff.mp ht)⟩

/-- The order of the tags does not matter for the size. -/
theorem metadataBytes_sorted (key : Key) (tags : List Tag) :
    metadataBytes key (sortedTags tags) = metadataBytes key tags := by
  rw [metadataBytes, metadataBytes, ((sortedTags_perm tags).map String.utf8ByteSize).sum_eq]

theorem snapshotDuration_run {q : ℚ} (h : 0 ≤ q) (name : String) (s : Engine V) :
    snapshotDuration (some q) name s = (.ok q, s) := by
  rw [snapshotDuration, if_neg (not_lt.mpr h)]
  rfl

/-- The windows that an exported entry carries. -/
theorem restoreWindows_exported {now : ℚ} {key : Key} {e : Entry V} (he : Genuine c key e)
    (s : Engine V) :
    restoreWindows (exportedEntry now key e) s = (.ok (preparedCopy now key e).windows, s) := by
  rcases he.windows with ⟨hf, ht⟩ | ⟨f, d, hf, hd, -⟩
  · simp only [restoreWindows, exportedEntry, preparedCopy, hf]
    rfl
  · have hfinite : ¬decide (((f : ℚ) : Deadline) = ⊤) = true := by simp
    simp only [restoreWindows, exportedEntry, preparedCopy, hf, hd]
    rw [if_neg hfinite, run_bind_ok (snapshotDuration_run (le_max_left _ _) _ s),
      run_bind_ok (snapshotDuration_run (le_max_left _ _) _ s)]
    rfl

theorem prepareRestoreOne_exported {now : ℚ} {key : Key} {e : Entry V} (he : Genuine c key e)
    (hlive : (now : Deadline) < e.staleUntil) (s : Engine V) :
    prepareRestoreOne c (exportedEntry now key e) s = (.ok (some (preparedCopy now key e)), s) := by
  have hwindows : restoreWindows (exportedEntry now key e) s =
      (.ok (preparedCopy now key e).windows, s) := restoreWindows_exported he s
  have hunspent : windowsSpent (preparedCopy now key e).windows = false :=
    unspent_exportedEntry (not_le.mpr hlive) _ (restoreWindows_ok hwindows).2
  have hvalue : snapshotValue c e.value s = (.ok e.value, s) := by
    rw [snapshotValue, he.value]
    rfl
  have hdedup : (sortedTags e.tags).dedup = sortedTags e.tags :=
    ((sortedTags_perm e.tags).nodup_iff.mpr he.tags.1).dedup
  have hsize : entrySize c key e.value (sortedTags e.tags) s = (.ok e.sizeBytes, s) := by
    obtain ⟨m, hm, hn⟩ := he.sized
    rw [entrySize, hm, hn, metadataBytes_sorted]
    rfl
  rw [prepareRestoreOne]
  change (normalizeTags (sortedTags e.tags) >>= _ : EngineM V _) s = _
  rw [run_bind_ok (normalizeTags_fit he.tags.2.sorted s)]
  change (snapshotValue c e.value >>= _ : EngineM V _) s = _
  rw [run_bind_ok hvalue, run_bind_ok hwindows, hunspent, if_neg Bool.false_ne_true, hdedup]
  change (entrySize c key e.value (sortedTags e.tags) >>= _ : EngineM V _) s = _
  rw [run_bind_ok hsize, if_neg]
  · rfl
  · rintro (h | h)
    · exact absurd he.size_le.1 (not_le.mpr h)
    · exact absurd he.size_le.2 (not_le.mpr h)

/-- A restored copy of an entry. -/
theorem copied_restored {now : ℚ} {key : Key} {e : Entry V} (he : Genuine c key e)
    (hlive : (now : Deadline) < e.staleUntil) :
    Copied now e (restoredEntry now (preparedCopy now key e)) := by
  rcases he.windows with ⟨hf, ht⟩ | ⟨f, d, hf, hd, hle⟩
  · refine ⟨rfl, fun tag => (sortedTags_perm e.tags).mem_iff, rfl, ?_, .inl ?_⟩
    · simp only [restoredEntry, preparedCopy, hf]
      exact ht.symm
    · simp only [restoredEntry, preparedCopy, hf]
  · have hd' : now < d := by
      rw [hd] at hlive
      exact_mod_cast hlive
    have hfresh : now + max 0 (f - now) = max now f := by
      rw [← max_add_add_left, add_zero, add_sub_cancel]
    have hstale : now + max 0 (f - now) + max 0 (d - max now f) = d := by
      rw [hfresh, max_eq_right (sub_nonneg.mpr (max_le hd'.le hle)), add_sub_cancel]
    refine ⟨rfl, fun tag => (sortedTags_perm e.tags).mem_iff, rfl, ?_, ?_⟩
    · simp only [restoredEntry, preparedCopy, hf, hd]
      exact congrArg (fun q : ℚ => (q : Deadline)) hstale
    · simp only [restoredEntry, preparedCopy, hf, hd, hfresh]
      -- a fresh deadline that is over is moved up to the reading
      rcases le_total f now with hover | hopen
      · rw [max_eq_left hover]
        exact .inr ⟨WithTop.coe_le_coe.mpr hover, le_rfl⟩
      · rw [max_eq_right hopen]
        exact .inl rfl

/-- Entries as an export finds them. -/
structure Exportable (c : EngineConfig V) (now : ℚ) (l : List (Key × Entry V)) : Prop where
  nodup : (l.map Prod.fst).Nodup
  genuine : ∀ q ∈ l, Genuine c q.1 q.2
  live : ∀ q ∈ l, (now : Deadline) < q.2.staleUntil

theorem Exportable.tail {now : ℚ} {q : Key × Entry V} {l : List (Key × Entry V)}
    (h : Exportable c now (q :: l)) : Exportable c now l :=
  ⟨(List.nodup_cons.mp h.nodup).2, fun r hr => h.genuine r (List.mem_cons_of_mem q hr),
    fun r hr => h.live r (List.mem_cons_of_mem q hr)⟩

theorem forEach_validateKey_exported {now : ℚ} {l : List (Key × Entry V)} (h : Exportable c now l)
    (s : Engine V) :
    forEach (fun item : StorageEntry V => validateKey item.key)
      (l.map fun q => exportedEntry now q.1 q.2) s = (.ok (), s) := by
  induction l with
  | nil => rfl
  | cons q l ih =>
    obtain ⟨hne, hlen⟩ := (h.genuine q List.mem_cons_self).key
    have hkey : validateKey q.1 s = (.ok (), s) := by
      rw [validateKey, if_neg (not_or.mpr ⟨hne, not_lt.mpr hlen⟩)]
      rfl
    rw [List.map_cons, forEach]
    exact (run_bind_ok hkey _).trans (ih h.tail)

theorem collect_exported {now : ℚ} {l : List (Key × Entry V)} (h : Exportable c now l)
    (s : Engine V) :
    collect (prepareRestoreOne c) (l.map fun q => exportedEntry now q.1 q.2) s =
      (.ok (l.map fun q => some (preparedCopy now q.1 q.2)), s) := by
  induction l with
  | nil => rfl
  | cons q l ih =>
    have hq := prepareRestoreOne_exported (h.genuine q List.mem_cons_self)
      (h.live q List.mem_cons_self) s
    rw [List.map_cons, collect, run_bind_ok hq, run_bind_ok (ih h.tail)]
    rfl

theorem prepareRestoreEntries_exported {now : ℚ} {l : List (Key × Entry V)} (h : Exportable c now l)
    (s : Engine V) :
    prepareRestoreEntries c (l.map fun q => exportedEntry now q.1 q.2) s =
      (.ok (l.map fun q => preparedCopy now q.1 q.2), s) := by
  have hnodup : ¬¬((l.map fun q => exportedEntry now q.1 q.2).map StorageEntry.key).Nodup := by
    rw [List.map_map]
    exact not_not.mpr h.nodup
  rw [prepareRestoreEntries, run_bind_ok (forEach_validateKey_exported h s), if_neg hnodup,
    run_bind_ok (collect_exported h s), run_pure, List.filterMap_map]
  exact congrArg (fun x => (Except.ok x, s)) (congrFun List.filterMap_eq_map l)

/-- Prepared entries that are new are appended. -/
theorem restoreAll_toList {now : ℚ} {prepared : List (PreparedRestore V)} {s : Engine V}
    (hn : (prepared.map PreparedRestore.key).Nodup)
    (hnew : ∀ q ∈ prepared, s.entries.get? q.key = none) :
    (restoreAll now prepared s).entries.toList =
      s.entries.toList ++ prepared.map fun q => (q.key, restoredEntry now q) := by
  induction prepared generalizing s with
  | nil => exact (List.append_nil _).symm
  | cons q prepared ih =>
    rw [List.map_cons, List.nodup_cons] at hn
    have hq := hnew q List.mem_cons_self
    have hstored : (storeEntry q.key (restoredEntry now q) s).entries.toList =
        s.entries.toList ++ [(q.key, restoredEntry now q)] := by
      rw [storeEntry_entries]
      exact congrArg (fun d : OrderedDict Key (Entry V) => d.toList ++ [(q.key, restoredEntry now q)])
        (OrderedDict.erase_eq_self hq)
    have hrest := @ih (storeEntry q.key (restoredEntry now q) s) hn.2 fun r hr => by
      have hne : r.key ≠ q.key := fun he => hn.1 (he ▸ List.mem_map_of_mem hr)
      rw [get?_storeEntry, if_neg hne]
      exact hnew r (List.mem_cons_of_mem q hr)
    refine hrest.trans ?_
    rw [hstored, List.append_assoc]
    rfl

/-- The engine that a restore of exported entries leaves. -/
def copyOf (now : ℚ) (l : List (Key × Entry V)) : Engine V :=
  restoreAll now (l.map fun q => preparedCopy now q.1 q.2) { (init : Engine V) with ticks := 2 }

/-- Exported entries that fit are restored at the time of the export. -/
theorem restoreEntries_exported {now : ℚ} {l : List (Key × Entry V)} (h : Exportable c now l)
    (hfirst : c.clock 0 = now) (hsecond : c.clock 1 = now) (hcount : l.length ≤ c.maxEntries)
    (hbytes : (l.map fun q => (q.2.sizeBytes : ℤ)).sum ≤ c.maxMemoryBytes) :
    restoreEntries c (l.map fun q => exportedEntry now q.1 q.2) init =
      (.ok l.length, copyOf now l) := by
  have hclock : readClock c (init : Engine V) = (.ok now, { (init : Engine V) with ticks := 1 }) := by
    rw [← hfirst]
    rfl
  have hcapacity : validatePreparedRestoreCapacity c (l.map fun q => preparedCopy now q.1 q.2)
      { (init : Engine V) with ticks := 1 } = (.ok (), { (init : Engine V) with ticks := 1 }) := by
    have hempty : ((l.map fun q => preparedCopy now q.1 q.2).filterMap fun q =>
        (init : Engine V).entries.get? q.key) = [] :=
      List.filterMap_eq_nil_iff.mpr fun _ _ => rfl
    rw [validatePreparedRestoreCapacity, run_bind_ok (run_get _)]
    dsimp only
    rw [hempty, if_neg]
    · rfl
    · rintro (hmore | hmore)
      · have hzero : ((init : Engine V).entries.size : ℤ) = 0 := rfl
        rw [hzero, List.length_map, List.length_nil] at hmore
        omega
      · have hzero : (init : Engine V).usedBytes = 0 := rfl
        have hsizes : ((l.map fun q => preparedCopy now q.1 q.2).map fun p => (p.sizeBytes : ℤ)) =
            l.map fun q => (q.2.sizeBytes : ℤ) := List.map_map
        rw [hsizes, hzero, List.map_nil, List.sum_nil] at hmore
        omega
  rw [restoreEntries, run_bind_ok (prepareRestoreEntries_exported h _), run_bind_ok hclock,
    run_bind_ok (run_modify _ _)]
  change (validatePreparedRestoreCapacity c (l.map fun q => preparedCopy now q.1 q.2) >>= _ :
    EngineM V _) { (init : Engine V) with ticks := 1 } = _
  rw [run_bind_ok hcapacity]
  have hclock' : readClock c { (init : Engine V) with ticks := 1 } =
      (.ok now, { (init : Engine V) with ticks := 2 }) := by
    rw [← hsecond]
    rfl
  rw [run_bind_ok hclock', run_bind_ok (run_modify _ _), run_pure, List.length_map]
  rfl

theorem copyOf_copied {now : ℚ} (h : Exportable c now s.entries.toList) :
    CopiedAll now s.entries (copyOf now s.entries.toList).entries := by
  have hkeys : ((s.entries.toList.map fun q => preparedCopy now q.1 q.2).map
      PreparedRestore.key).Nodup := by
    rw [List.map_map]
    exact h.nodup
  have hlist := @restoreAll_toList V now (s.entries.toList.map fun q => preparedCopy now q.1 q.2)
    { (init : Engine V) with ticks := 2 } hkeys fun _ _ => rfl
  unfold CopiedAll OrderedDict.Alike
  rw [copyOf, hlist, List.map_map]
  refine List.forall₂_map_right_iff.mpr (List.forall₂_same.mpr fun q hq => ⟨rfl, ?_⟩)
  exact copied_restored (h.genuine q hq) (h.live q hq)

theorem restoreAll_ticks (now : ℚ) (prepared : List (PreparedRestore V)) (s : Engine V) :
    (restoreAll now prepared s).ticks = s.ticks := by
  induction prepared generalizing s with
  | nil => rfl
  | cons q prepared ih =>
    refine (ih (storeEntry q.key (restoredEntry now q) s)).trans ?_
    exact removeEntry_ticks q.key s

/-! ## Writes -/

/-- The same engine with another clock. -/
def withClock (c : EngineConfig V) (clock : ℕ → ℚ) (h : Monotone clock) : EngineConfig V :=
  { c with clock := clock, clock_mono := h }

/-- Two engines whose entries are copies, beside the same leases, and whose clocks run alike. -/
structure Mirrors (c : EngineConfig V) (clock : ℕ → ℚ) (t : ℚ) (s u : Engine V) : Prop where
  entries : CopiedAll t s.entries u.entries
  usedBytes : u.usedBytes = s.usedBytes
  leaseBytes : u.leaseBytes = s.leaseBytes
  leases : u.leases = s.leases
  clocks : ∀ i, clock (u.ticks + i) = c.clock (s.ticks + i)
  late : t ≤ c.clock s.ticks

variable {clock : ℕ → ℚ} {hmono : Monotone clock} {key : Key}

theorem Mirrors.bump (h : Mirrors c clock t s u) (m m' : Metric) (n n' : ℕ) :
    Mirrors c clock t (s.bump m n) (u.bump m' n') :=
  ⟨h.entries, h.usedBytes, h.leaseBytes, h.leases, h.clocks, h.late⟩

theorem Mirrors.countIf (h : Mirrors c clock t s u) (count : Bool) (m : Metric) :
    Mirrors c clock t (countIf count m s) (countIf count m u) := by
  unfold Engine.countIf
  split_ifs
  · exact h.bump m m 1 1
  · exact h

theorem Mirrors.tick (h : Mirrors c clock t s u) :
    Mirrors c clock t { s with ticks := s.ticks + 1 } { u with ticks := u.ticks + 1 } := by
  refine ⟨h.entries, h.usedBytes, h.leaseBytes, h.leases, fun i => ?_, ?_⟩
  · have := h.clocks (1 + i)
    rwa [← Nat.add_assoc, ← Nat.add_assoc] at this
  · exact h.late.trans (c.clock_mono (Nat.le_succ s.ticks))

theorem Mirrors.removeEntry (h : Mirrors c clock t s u) (key : Key) :
    Mirrors c clock t (removeEntry key s) (removeEntry key u) := by
  refine ⟨?_, ?_, ?_, ?_, ?_, ?_⟩
  · rw [removeEntry_entries, removeEntry_entries]
    exact h.entries.erase key
  · rcases copied_get? h.entries key with ⟨hs, hu⟩ | ⟨e, e', hs, hu, he⟩
    · rw [removeEntry_of_none hs, removeEntry_of_none hu, h.usedBytes]
    · rw [usedBytes_removeEntry hs, usedBytes_removeEntry hu, h.usedBytes, he.sizeBytes]
  · rw [removeEntry_leaseBytes, removeEntry_leaseBytes, h.leaseBytes]
  · rw [removeEntry_leases, removeEntry_leases, h.leases]
  · rw [removeEntry_ticks, removeEntry_ticks]
    exact h.clocks
  · rw [removeEntry_ticks]
    exact h.late

theorem Mirrors.removeLease (h : Mirrors c clock t s u) (key : Key) :
    Mirrors c clock t (removeLease key s) (removeLease key u) := by
  have hleases := h.leases
  unfold Engine.removeLease
  rw [hleases]
  cases s.leases.get? key with
  | none => exact h
  | some lease =>
    refine ⟨h.entries, ?_, ?_, ?_, h.clocks, h.late⟩
    · exact congrArg (· - (lease.sizeBytes : ℤ)) h.usedBytes
    · exact congrArg (· - (lease.sizeBytes : ℤ)) h.leaseBytes
    · rfl

theorem Mirrors.storeEntry (h : Mirrors c clock t s u) {e e' : Entry V} (he : Copied t e e') :
    Mirrors c clock t (storeEntry key e s) (storeEntry key e' u) := by
  have hremoved := h.removeEntry key
  refine ⟨hremoved.entries.set he, ?_, hremoved.leaseBytes, hremoved.leases, hremoved.clocks,
    hremoved.late⟩
  change (Engine.removeEntry key u).usedBytes + e'.sizeBytes =
    (Engine.removeEntry key s).usedBytes + e.sizeBytes
  rw [hremoved.usedBytes, he.sizeBytes]

theorem Mirrors.lookupAt (h : Mirrors c clock t s u) {now : ℚ} (hnow : t ≤ now) (count : Bool) :
    (lookupAt now key count s).1 = (lookupAt now key count u).1 ∧
      Mirrors c clock t (lookupAt now key count s).2 (lookupAt now key count u).2 := by
  refine ⟨(lookupAt_copied h.entries hnow key count).1, ?_⟩
  unfold Engine.lookupAt
  rcases copied_get? h.entries key with ⟨hs, hu⟩ | ⟨e, e', hs, hu, he⟩
  · rw [hs, hu]
    exact h.countIf _ _
  · rw [hs, hu]
    have hlast : Mirrors c clock t
        { s with entries := s.entries.setLast key (touched count now e) }
        { u with entries := u.entries.setLast key (touched count now e') } :=
      ⟨h.entries.setLast (he.touched count now), h.usedBytes, h.leaseBytes, h.leases, h.clocks, h.late⟩
    dsimp only
    rw [he.staleUntil]
    split_ifs with hexpired hfresh hfresh' hfresh'
    · exact ((h.removeEntry key).countIf _ _).countIf _ _
    · exact hlast.countIf _ _
    · exact absurd ((he.fresh_iff hnow).mpr hfresh) hfresh'
    · exact absurd ((he.fresh_iff hnow).mp hfresh') hfresh
    · exact hlast.countIf _ _

/-! ## Programs -/

/-- A program that takes the same course on engines that mirror each other. -/
abbrev Mirrored (c : EngineConfig V) (clock : ℕ → ℚ) (t : ℚ) {α : Type} (m m' : EngineM V α) : Prop :=
  Agree (Mirrors c clock t) Eq m m'

theorem mirrored_checks {α : Type} {m : EngineM V α} (h : Checks m) : Mirrored c clock t m m := by
  obtain ⟨x, rfl⟩ := h
  exact Agree.fromExcept (.refl (fun _ => rfl) x)

/-- Both clocks give the same reading, which is not before `t`. -/
theorem agree_readClock : Agree (Mirrors c clock t) (fun a b => a = b ∧ t ≤ a) (readClock c)
    (readClock (withClock c clock hmono)) := by
  intro s u h
  refine ⟨.ok ⟨?_, h.late⟩, h.tick⟩
  exact (h.clocks 0).symm

theorem mirrored_lookup (key : Key) (count : Bool) :
    Mirrored c clock t (lookup c key count) (lookup (withClock c clock hmono) key count) := by
  refine agree_readClock.bind ?_
  rintro now _ ⟨rfl, hnow⟩
  exact Agree.lift fun _ _ h => h.lookupAt hnow count

theorem mirrored_preparePut (key : Key) (value : V) (ttlSeconds staleSeconds : Option ℤ)
    (tags : List Tag) (persistent count : Bool) :
    Mirrored c clock t (preparePut c key value ttlSeconds staleSeconds tags persistent count)
      (preparePut (withClock c clock hmono) key value ttlSeconds staleSeconds tags persistent count) := by
  refine (mirrored_checks (checks_validateKey key)).bind_eq fun _ => ?_
  refine (mirrored_checks (checks_putWindows _ _ _)).bind_eq fun windows => ?_
  refine (mirrored_checks (checks_normalizeTags tags)).bind_eq fun normalized => ?_
  refine (mirrored_checks (checks_snapshotValue value)).bind_eq fun stored => ?_
  refine (mirrored_checks (checks_entrySize _ _ _)).bind_eq fun sizeBytes => ?_
  have hrefuse : ∀ e, Mirrored c clock t
      (modify (countIf count .rejectedEntries) >>= fun _ => throw e : EngineM V (PreparedPut V))
      (modify (countIf count .rejectedEntries) >>= fun _ => throw e) := fun e =>
    (Agree.modify fun _ _ h => h.countIf _ _).bind_eq fun _ => Agree.throw e
  exact Agree.ite Iff.rfl (fun _ => hrefuse _) fun _ =>
    Agree.ite Iff.rfl (fun _ => hrefuse _) fun _ => Agree.pure rfl

theorem mirrored_checkLease (token : Option String) (now : ℚ) :
    Mirrored c clock t (checkLease (V := V) key token now) (checkLease key token now) := by
  unfold checkLease
  cases token with
  | none => exact Agree.pure rfl
  | some token =>
    refine Agree.get.bind fun s u h => ?_
    rw [h.leases]
    cases s.leases.get? key with
    | none => exact Agree.throw _
    | some lease =>
      refine Agree.ite Iff.rfl (fun _ => ?_) fun _ => ?_
      · exact (Agree.modify fun _ _ h => h.removeLease key).bind_eq fun _ => Agree.throw _
      · refine (mirrored_checks (.ite (.pure _) (.throw _))).bind_eq fun same => ?_
        exact Agree.ite Iff.rfl (fun _ => Agree.pure rfl) fun _ => Agree.throw _

theorem Mirrors.overLimit_iff (h : Mirrors c clock t s u) :
    overLimit c s ↔ overLimit (withClock c clock hmono) u := by
  unfold overLimit
  rw [h.usedBytes, h.entries.size_eq]
  rfl

theorem mirrored_victim (hlru : c.evictionPolicy = .lru) :
    Mirrored c clock t (victim c) (victim (withClock c clock hmono)) := by
  have hlru' : (withClock c clock hmono).evictionPolicy = .lru := hlru
  unfold victim
  rw [hlru, hlru']
  exact Agree.get.bind fun s u h => Agree.pure (by rw [h.entries.keys_eq])

theorem mirrored_evictLoop (hlru : c.evictionPolicy = .lru) (n : ℕ) :
    Mirrored c clock t (evictLoop c n) (evictLoop (withClock c clock hmono) n) := by
  induction n with
  | zero =>
    exact Agree.get.bind fun s u h => Agree.ite h.overLimit_iff (fun _ => Agree.throw _)
      fun _ => Agree.pure rfl
  | succ n ih =>
    refine Agree.get.bind fun s u h => Agree.ite h.overLimit_iff (fun _ => ?_) fun _ => Agree.pure rfl
    refine (mirrored_victim hlru).bind_eq fun chosen => ?_
    cases chosen with
    | none => exact Agree.throw _
    | some key =>
      refine (Agree.modify fun _ _ h => h.removeEntry key).bind_eq fun _ => ?_
      refine (Agree.modify fun _ _ h => h.bump _ _ _ _).bind_eq fun _ => ?_
      exact (Agree.modify fun _ _ h => h.bump _ _ _ _).bind_eq fun _ => ih

theorem mirrored_evictIfNeeded (hlru : c.evictionPolicy = .lru) :
    Mirrored c clock t (evictIfNeeded c) (evictIfNeeded (withClock c clock hmono)) := by
  refine Agree.get.bind fun s u h => ?_
  rw [h.entries.size_eq]
  exact mirrored_evictLoop hlru _

theorem Mirrors.reservedBytes (h : Mirrors c clock t s u) (key : Key) :
    reservedBytes key u = reservedBytes key s := by
  unfold Engine.reservedBytes
  rw [h.leaseBytes, h.leases]

theorem copied_written (p : PreparedPut V) (persistent : Bool) (now : ℚ) (x y : Option (Entry V)) :
    Copied t (writtenEntry p persistent now x) (writtenEntry p persistent now y) :=
  ⟨rfl, fun _ => Iff.rfl, rfl, rfl, .inl rfl⟩

/-- A write takes the same course on both engines. -/
theorem mirrored_put (hlru : c.evictionPolicy = .lru) (key : Key) (value : V)
    (ttlSeconds staleSeconds : Option ℤ) (tags : List Tag) (token : Option String)
    (persistent : Bool) :
    Mirrored c clock t (put c key value ttlSeconds staleSeconds tags token persistent)
      (put (withClock c clock hmono) key value ttlSeconds staleSeconds tags token persistent) := by
  refine (mirrored_preparePut _ _ _ _ _ _ _).bind_eq fun p => ?_
  refine agree_readClock.bind ?_
  rintro now _ ⟨rfl, -⟩
  refine (mirrored_checkLease token now).bind_eq fun _ => ?_
  refine Agree.get.bind fun s u h => Agree.ite ?_ (fun _ => ?_) fun _ => ?_
  · rw [h.reservedBytes]
    rfl
  · exact (Agree.modify fun _ _ h => h.bump _ _ _ _).bind_eq fun _ => Agree.throw _
  · refine (Agree.modify fun _ _ h => h.storeEntry (copied_written p _ _ _ _)).bind_eq fun _ => ?_
    refine (Agree.modify fun _ _ h => h.removeLease key).bind_eq fun _ => ?_
    refine (Agree.modify fun _ _ h => h.bump _ _ _ _).bind_eq fun _ => ?_
    exact (mirrored_evictIfNeeded hlru).bind_eq fun _ => mirrored_lookup key false

/-! ## Copies made by an export and a restore -/

/-- The arguments of a `put`. -/
structure PutCall (V : Type) where
  key : Key
  value : V
  ttlSeconds : Option ℤ
  staleSeconds : Option ℤ
  tags : List Tag
  leaseToken : Option String
  persistent : Bool

def PutCall.run (c : EngineConfig V) (a : PutCall V) : EngineM V (CacheResult V) :=
  put c a.key a.value a.ttlSeconds a.staleSeconds a.tags a.leaseToken a.persistent

/-- The engine after some writes, accepted or refused. -/
def afterPuts (c : EngineConfig V) (puts : List (PutCall V)) (s : Engine V) : Engine V :=
  puts.foldl (fun s a => (a.run c s).2) s

/-- The keys that a write takes out. -/
def evictedBy (c : EngineConfig V) (a : PutCall V) (s : Engine V) : List Key :=
  s.entries.keys.filter fun key => key ∉ (a.run c s).2.entries.keys

theorem Mirrors.afterPuts (hlru : c.evictionPolicy = .lru) (h : Mirrors c clock t s u)
    (puts : List (PutCall V)) :
    Mirrors c clock t (afterPuts c puts s) (afterPuts (withClock c clock hmono) puts u) := by
  induction puts generalizing s u with
  | nil => exact h
  | cons a puts ih => exact ih (mirrored_put hlru _ _ _ _ _ _ _ s u h).2

theorem entryBytes_copied {d d' : OrderedDict Key (Entry V)} (h : CopiedAll t d d') :
    entryBytes d' = entryBytes d := by
  unfold entryBytes OrderedDict.sumBy
  replace h : List.Forall₂ (fun p q => p.1 = q.1 ∧ Copied t p.2 q.2) d.toList d'.toList := h
  revert h
  generalize d.toList = l
  generalize d'.toList = l'
  intro h
  induction h with
  | nil => rfl
  | cons hpq _ ih =>
    rw [List.map_cons, List.map_cons, List.sum_cons, List.sum_cons, ih, hpq.2.sizeBytes]

theorem Genuine.withClock {e : Entry V} (h : Genuine c key e) : Genuine (withClock c clock hmono) key e :=
  ⟨h.key, h.tags, h.value, h.sized, h.size_le, h.windows⟩

theorem invalidateTags_copied (hs : Indexes s.tags s.entries) (hu : Indexes u.tags u.entries)
    (h : CopiedAll t s.entries u.entries) (tags : List Tag) :
    (invalidateTags tags u).1 = (invalidateTags tags s).1 ∧
      CopiedAll t (invalidateTags tags s).2.entries (invalidateTags tags u).2.entries := by
  obtain ⟨x, hx⟩ := checks_normalizeTags (V := V) tags
  cases x with
  | error e =>
    rw [invalidateTags, hx]
    exact ⟨rfl, h⟩
  | ok normalized =>
    rw [invalidateTags, hx]
    refine ⟨?_, dropAll_copied (taggedKeys_copied hs hu h normalized) h⟩
    have hperm : List.Perm (taggedKeys normalized u) (taggedKeys normalized s) :=
      (List.perm_ext_iff_of_nodup ((List.nodup_dedup _).filter _) ((List.nodup_dedup _).filter _)).mpr
        (taggedKeys_copied hs hu h normalized)
    refine congrArg Except.ok ((hperm.countP_eq _).trans (List.countP_congr fun key _ => ?_))
    rcases copied_get? h key with ⟨hk, hk'⟩ | ⟨e, e', hk, hk', -⟩ <;> rw [hk, hk']
    rfl

/-- Engine `s` at the time of an export of all its keys, its copy, and what nothing done later
tells apart.  Leases are not part of an export, and they take memory. -/
theorem copy_agrees {s : Session V} (hr : Reachable c s) {clock : ℕ → ℚ} (hmono : Monotone clock)
    (hfirst : clock 0 = c.clock s.engine.ticks) (hsecond : clock 1 = c.clock s.engine.ticks) :
    ∃ items s₁ u₁, exportEntries c none s.engine = (.ok items, s₁) ∧
      restoreEntries (withClock c clock hmono) items init = (.ok items.length, u₁) ∧
      (∀ key count now, c.clock s.engine.ticks ≤ now →
        (lookupAt now key count u₁).1 = (lookupAt now key count s₁).1) ∧
      (∀ tags, (invalidateTags tags u₁).1 = (invalidateTags tags s₁).1 ∧
        (invalidateTags tags u₁).2.entries.keys = (invalidateTags tags s₁).2.entries.keys) ∧
      (c.evictionPolicy = .lru → s.engine.leases = .empty →
        (∀ i, clock (u₁.ticks + i) = c.clock (s₁.ticks + i)) →
        ∀ puts a, (a.run (withClock c clock hmono) (afterPuts (withClock c clock hmono) puts u₁)).1 =
            (a.run c (afterPuts c puts s₁)).1 ∧
          evictedBy (withClock c clock hmono) a (afterPuts (withClock c clock hmono) puts u₁) =
            evictedBy c a (afterPuts c puts s₁)) := by
  obtain ⟨s₁, hexport, hlive, hleases, hticks⟩ := exportEntries_all (c := c) s.engine
  have hrun : (Call.exportEntries none).run c s.engine = s₁ := congrArg Prod.snd hexport
  have hsound : Sound c s₁ := hrun ▸ Call.sound _ hr.inv.sound
  have hstocked : Stocked c s₁ := hrun ▸ hr.stocked.call hr.inv.sound _
  have hexportable : Exportable c (c.clock s.engine.ticks) s₁.entries.toList := by
    refine ⟨s₁.entries.nodup, fun q hq => hstocked q.1 q.2 (OrderedDict.mem_toList.mp hq), ?_⟩
    intro q hq
    rw [hlive] at hq
    exact of_decide_eq_true (List.mem_filter.mp hq).2
  have hexportable' : Exportable (withClock c clock hmono) (c.clock s.engine.ticks)
      s₁.entries.toList :=
    ⟨hexportable.nodup, fun q hq => (hexportable.genuine q hq).withClock, hexportable.live⟩
  have hbytes : (s₁.entries.toList.map fun q => (q.2.sizeBytes : ℤ)).sum ≤ c.maxMemoryBytes := by
    have hused := hsound.accounts.usedBytes_eq
    have hle := hsound.bounded.usedBytes_le
    have hnonneg := hsound.accounts.leaseBytes_nonneg
    unfold entryBytes OrderedDict.sumBy at hused
    omega
  have hrestore := restoreEntries_exported hexportable' hfirst hsecond hsound.bounded.entries_le hbytes
  have hcopied := copyOf_copied hexportable
  have hsound' : Sound (withClock c clock hmono)
      (copyOf (c.clock s.engine.ticks) s₁.entries.toList) :=
    (sound_restoreEntries (c := withClock c clock hmono) _).run hrestore (Sound.init _)
  refine ⟨_, s₁, copyOf (c.clock s.engine.ticks) s₁.entries.toList, hexport, ?_, ?_, ?_, ?_⟩
  · rw [hrestore, List.length_map]
  · intro key count now hnow
    exact (lookupAt_copied hcopied hnow key count).1.symm
  · intro tags
    obtain ⟨hreply, hstate⟩ := invalidateTags_copied hsound.accounts.indexes
      hsound'.accounts.indexes hcopied tags
    exact ⟨hreply, hstate.keys_eq.symm⟩
  · intro hlru hnone hclocks puts a
    have hempty : s₁.leases = .empty := hleases.trans hnone
    have hempty' : (copyOf (c.clock s.engine.ticks) s₁.entries.toList).leases = .empty :=
      restoreAll_leases _ _ _
    have hleaseBytes : (copyOf (c.clock s.engine.ticks) s₁.entries.toList).leaseBytes =
        s₁.leaseBytes := by
      rw [hsound.accounts.leaseBytes_eq, hsound'.accounts.leaseBytes_eq, hempty, hempty']
    have hmirrors : Mirrors c clock (c.clock s.engine.ticks) s₁
        (copyOf (c.clock s.engine.ticks) s₁.entries.toList) := by
      refine ⟨hcopied, ?_, hleaseBytes, hempty'.trans hempty.symm, hclocks, ?_⟩
      · rw [hsound.accounts.usedBytes_eq, hsound'.accounts.usedBytes_eq, hleaseBytes,
          entryBytes_copied hcopied]
      · exact c.clock_mono (by omega)
    have hafter : Mirrors c clock (c.clock s.engine.ticks) (afterPuts c puts s₁)
        (afterPuts (withClock c clock hmono) puts (copyOf (c.clock s.engine.ticks) s₁.entries.toList)) :=
      hmirrors.afterPuts hlru puts
    obtain ⟨hreply, hstate⟩ := @mirrored_put V c _ clock hmono hlru a.key a.value a.ttlSeconds
      a.staleSeconds a.tags a.leaseToken a.persistent _ _ hafter
    refine ⟨hreply.eq.symm, ?_⟩
    unfold evictedBy
    rw [hafter.entries.keys_eq]
    refine List.filter_congr fun key _ => ?_
    rw [PutCall.run, PutCall.run, hstate.entries.keys_eq]

/-- A clock that stands still for a restore at time `k + 1` and goes on from there. -/
def restingClock (k n : ℕ) : ℚ := ((max (k + 1) (n + k) : ℕ) : ℚ)

theorem restingClock_mono (k : ℕ) : Monotone (restingClock k) := by
  intro m n h
  have hmax : max (k + 1) (m + k) ≤ max (k + 1) (n + k) := by omega
  exact Nat.cast_le.mpr hmax

def writtenRun : List (Event String) :=
  [.call (.put "a" "1" none none ["t"] none false), .call (.put "b" "2" (some 1) (some 9) [] none false)]

def writtenSession : Session String := writtenRun.foldl (Session.apply smallConfig) ⟨init, []⟩

/-- A copy made in the stale window of an entry. -/
theorem written_copy_agrees : ∃ items s₁ u₁,
    exportEntries smallConfig none writtenSession.engine = (.ok items, s₁) ∧
    restoreEntries (withClock smallConfig (restingClock 3) (restingClock_mono 3)) items init =
      (.ok items.length, u₁) ∧
    (lookupAt 5 "b" true u₁).1 = (lookupAt 5 "b" true s₁).1 ∧
    ((∀ i, restingClock 3 (u₁.ticks + i) = smallConfig.clock (s₁.ticks + i)) →
      evictedBy (withClock smallConfig (restingClock 3) (restingClock_mono 3))
        ⟨"c", "3", none, none, [], none, false⟩ u₁ =
      evictedBy smallConfig ⟨"c", "3", none, none, [], none, false⟩ s₁) := by
  have hr : Reachable smallConfig writtenSession :=
    Reachable.init.run writtenRun (by decide +kernel : Session.AllowedRun smallConfig _ _)
  obtain ⟨items, s₁, u₁, hexport, hrestore, hget, -, hputs⟩ :=
    copy_agrees hr (restingClock_mono 3) (by decide +kernel) (by decide +kernel)
  refine ⟨items, s₁, u₁, hexport, hrestore, hget "b" true 5 (by decide +kernel), fun hclocks => ?_⟩
  exact (hputs rfl (by decide +kernel) hclocks [] _).2

/-- Room for two entries, or for one beside a lease. -/
def copiedConfig : EngineConfig String :=
  { smallConfig with
    maxMemoryBytes := 300
    maxEntryBytes := 200
    positive := by decide }

def leasedRun : List (Event String) :=
  [.call (.put "a" "1" none none [] none false), .call (.acquireLease "x" false)]

def copiedSession : Session String := leasedRun.foldl (Session.apply copiedConfig) ⟨init, []⟩

/-- The lease, which is not exported, takes the room of an entry. -/
theorem lease_evicts : Reachable copiedConfig copiedSession ∧ copiedConfig.evictionPolicy = .lru ∧
    ∃ items s₁ u₁, exportEntries copiedConfig none copiedSession.engine = (.ok items, s₁) ∧
      restoreEntries (withClock copiedConfig (restingClock 3) (restingClock_mono 3)) items init =
        (.ok items.length, u₁) ∧
      (∀ i, restingClock 3 (u₁.ticks + i) = copiedConfig.clock (s₁.ticks + i)) ∧
      evictedBy (withClock copiedConfig (restingClock 3) (restingClock_mono 3))
          ⟨"b", "2", none, none, [], none, false⟩ u₁ ≠
        evictedBy copiedConfig ⟨"b", "2", none, none, [], none, false⟩ s₁ := by
  have hr : Reachable copiedConfig copiedSession :=
    Reachable.init.run leasedRun (by decide +kernel : Session.AllowedRun copiedConfig _ _)
  refine ⟨hr, rfl, (exportEntries copiedConfig none copiedSession.engine).1.toOption.getD [],
    (exportEntries copiedConfig none copiedSession.engine).2,
    (restoreEntries (withClock copiedConfig (restingClock 3) (restingClock_mono 3))
      ((exportEntries copiedConfig none copiedSession.engine).1.toOption.getD []) init).2,
    Prod.ext (by decide +kernel) rfl, Prod.ext (by decide +kernel) rfl, fun i => ?_,
    by decide +kernel⟩
  have hticks : (exportEntries copiedConfig none copiedSession.engine).2.ticks = 5 := by
    decide +kernel
  have hticks' : (restoreEntries (withClock copiedConfig (restingClock 3) (restingClock_mono 3))
      ((exportEntries copiedConfig none copiedSession.engine).1.toOption.getD []) init).2.ticks = 2 := by
    decide +kernel
  rw [hticks, hticks', restingClock, max_eq_right (by omega)]
  change ((2 + i + 3 : ℕ) : ℚ) = ((5 + i : ℕ) : ℚ)
  exact congrArg Nat.cast (by omega)

end Engine
end MegaCache
