import MegaCache.Controlplane.AuditEvidence
import MegaCache.Controlplane.AuditSegments

/-!
# The audit log across restarts

What the log has in memory and what is in its directory, after any calls: the directory holds
the history behind some number up to the anchor, so that it loads with the anchor and the
records after it.
-/

namespace MegaCache
namespace Controlplane

section

variable {s : AuditSettings} {p p' : KeyProvider} {history : List AuditRecord} {r : AuditRecord}
  {log log' : AuditLog} {dir dir' : AuditDirectory} {a c n : ℕ} {previous : String}

/-! ## Reading back -/

/-- A record up to the anchor is passed over. -/
theorem MadeRecord.verify_skip (h : MadeRecord s p n previous r) (hle : n + 1 ≤ a) (hash : String)
    (sequence : ℕ) : verifyLine s p a hash sequence (recordLine s.floats r) = .ok none := by
  have hsize : (recordLine s.floats r).length ≤ s.maxRecordBytes := by
    simpa [recordLine] using h.size
  have hnumber : (intValue (.int ((n : ℤ) + 1))).any (fun k => decide (k ≤ (a : ℤ))) = true := by
    simpa [intValue] using by omega
  rw [verifyLine, except_bind_ok]
  refine ⟨(), ensure_ok.mpr hsize, ?_⟩
  rw [h.loads]
  simp only [h.item_document (show "sequence" ≠ "hash" by decide), h.item_sequence]
  rw [if_pos hnumber]

/-- By induction on the records of a segment: those after the anchor are found. -/
theorem Chained.verifyLines (h : Chained s p history) {l rest : List AuditRecord}
    (hl : history.drop n = l ++ rest) :
    verifyLines s p a (hashAt history (max a n)) (max a n) (l.map (recordLine s.floats)) =
      .ok (l.filter fun r => a < r.sequence) := by
  induction l generalizing n with
  | nil => rfl
  | cons r l ih =>
    have hn : history[n]? = some r := by
      rw [← List.head?_drop, hl]
      rfl
    have hdrop : history.drop (n + 1) = l ++ rest := by
      rw [← List.drop_drop, hl]
      rfl
    have hmade := h n r hn
    have hsequence := h.sequence_eq hn
    have hrest := ih hdrop
    rw [List.map_cons, Controlplane.verifyLines, except_bind_ok]
    rcases Nat.lt_or_ge n a with hlt | hge
    · have hmax : max a (n + 1) = max a n := by omega
      rw [hmax] at hrest
      refine ⟨none, hmade.verify_skip hlt _ _, ?_⟩
      rw [List.filter_cons_of_neg (by simpa using by omega)]
      exact hrest
    · have hmax : max a n = n := Nat.max_eq_right hge
      have hmax' : max a (n + 1) = n + 1 := by omega
      rw [hmax', hashAt_succ hn] at hrest
      rw [hmax]
      refine ⟨some r, hmade.verify hge, ?_⟩
      rw [List.filter_cons_of_pos (by simpa using by omega)]
      dsimp only
      rw [hrest]
      rfl

theorem notMem_line (r : AuditRecord) :
    (10 : UInt8) ∉ Json.utf8 (Json.dumps s.floats.repr r.document) :=
  (Json.plain_dumps s.floats.plain_repr r.document).utf8.1

theorem lines_segmentText (l : List AuditRecord) :
    lines 10 (segmentText s.floats l) = l.map (recordLine s.floats) := by
  have hparts : ∀ part ∈ l.map fun r => Json.utf8 (Json.dumps s.floats.repr r.document),
      (10 : UInt8) ∉ part := by
    intro part hpart
    obtain ⟨r, -, rfl⟩ := List.mem_map.mp hpart
    exact notMem_line r
  have hlines := lines_flatMap hparts
  rw [List.flatMap_map, List.map_map] at hlines
  exact hlines

/-- A segment that loading keeps: it has records after the anchor, or there is no anchor. -/
def kept (a : ℕ) (q : ℕ × List AuditRecord) : Bool := a = 0 || (rangeAfter a q.2).isSome

/-- What `_load_and_verify` makes of a log and a directory for some segments. -/
structure Loaded (parts : Parts) (log log' : AuditLog) (dir dir' : AuditDirectory) : Prop where
  anchorSequence : log'.anchorSequence = log.anchorSequence
  anchorHash : log'.anchorHash = log.anchorHash
  records : log'.records =
    log.records ++ parts.records.filter fun r => log.anchorSequence < r.sequence
  segments : log'.segments = log.segments ++ (parts.filter (kept log.anchorSequence)).map Prod.fst
  ranges : log'.segmentRanges.toList =
    log.segmentRanges.toList ++ rangesAfter log.anchorSequence parts
  anchor : dir'.anchor = dir.anchor
  files : dir'.segments = dir.segments.eraseAll
    ((parts.filter fun q => !kept log.anchorSequence q).map Prod.fst)

theorem rangesAfter_cons (b : ℕ) (q : ℕ × List AuditRecord) (parts : Parts) :
    rangesAfter b (q :: parts) =
      ((rangeAfter b q.2).map fun range => (q.1, range)).toList ++ rangesAfter b parts := by
  rw [rangesAfter, List.filterMap_cons]
  cases rangeAfter b q.2 <;> rfl

theorem filter_eq_nil_iff_rangeAfter {b : ℕ} {l : List AuditRecord} :
    l.filter (fun r => b < r.sequence) = [] ↔ rangeAfter b l = none := by
  rw [rangeAfter_eq_none, List.filter_eq_nil_iff]
  simp

/-- One segment put into the log. -/
theorem addSegment_loaded {q : ℕ × List AuditRecord} (hq : Numbered n q.2)
    (hsequence : log.sequence = max log.anchorSequence n) (hnew : q.1 ∉ log.segmentRanges.keys)
    (dir : AuditDirectory) : Loaded [q] log (addSegment log dir q.1
        (q.2.filter fun r => log.anchorSequence < r.sequence)).1 dir
      (addSegment log dir q.1 (q.2.filter fun r => log.anchorSequence < r.sequence)).2 := by
  have hrecords : Parts.records [q] = q.2 := by simp [Parts.records]
  cases hrange : rangeAfter log.anchorSequence q.2 with
  | none =>
    have hnil := filter_eq_nil_iff_rangeAfter.mpr hrange
    have hranges : rangesAfter log.anchorSequence [q] = [] := by simp [rangesAfter, hrange]
    rw [hnil]
    rcases Nat.eq_zero_or_pos log.anchorSequence with hzero | hpos
    · have hkept : kept log.anchorSequence q = true := by simp [kept, hzero]
      rw [addSegment, if_neg (by simp), if_neg (by omega)]
      refine ⟨rfl, rfl, ?_, ?_, ?_, rfl, ?_⟩
      · rw [hrecords, hnil, List.append_nil]
      · simp [hkept]
      · rw [hranges, List.append_nil]
      · simp [hkept, OrderedDict.eraseAll]
    · have hkept : kept log.anchorSequence q = false := by simp [kept, hrange]; omega
      rw [addSegment, if_neg (by simp), if_pos hpos]
      refine ⟨rfl, rfl, ?_, ?_, ?_, rfl, ?_⟩
      · rw [hrecords, hnil, List.append_nil]
      · simp [hkept]
      · rw [hranges, List.append_nil]
      · simp [hkept, OrderedDict.eraseAll]
  | some range =>
    have hne : q.2.filter (fun r => log.anchorSequence < r.sequence) ≠ [] := by
      rw [Ne, filter_eq_nil_iff_rangeAfter, hrange]
      simp
    have hkept : kept log.anchorSequence q = true := by simp [kept, hrange]
    obtain ⟨heq, hlt, -⟩ := rangeAfter_last hq hrange
    have hlength : (q.2.filter fun r => log.anchorSequence < r.sequence).length =
        q.2.length - (log.anchorSequence - n) := by
      rw [hq.filter_eq, List.length_drop]
    have hpair : (log.sequence + 1,
        log.sequence + (q.2.filter fun r => log.anchorSequence < r.sequence).length) = range := by
      rw [heq, hsequence, hlength]
      exact Prod.ext rfl (by dsimp only; omega)
    rw [addSegment, if_pos hne]
    refine ⟨rfl, rfl, ?_, ?_, ?_, rfl, ?_⟩
    · rw [hrecords]
    · simp [hkept]
    · dsimp only
      rw [hpair, OrderedDict.toList_set_new hnew]
      simp [rangesAfter, hrange]
    · simp [hkept, OrderedDict.eraseAll]

theorem Loaded.cons {q : ℕ × List AuditRecord} {parts : Parts} {log₁ : AuditLog}
    {dir₁ : AuditDirectory} (h : Loaded [q] log log₁ dir dir₁) (h' : Loaded parts log₁ log' dir₁ dir') :
    Loaded (q :: parts) log log' dir dir' := by
  have hanchor := h.anchorSequence
  have hcons (f : ℕ × List AuditRecord → Bool) :
      (q :: parts).filter f = [q].filter f ++ parts.filter f := List.filter_append [q] parts
  refine ⟨h'.anchorSequence.trans hanchor, h'.anchorHash.trans h.anchorHash, ?_, ?_, ?_,
    h'.anchor.trans h.anchor, ?_⟩
  · rw [h'.records, h.records, hanchor, List.append_assoc, ← List.filter_append]
    simp [Parts.records]
  · rw [h'.segments, h.segments, hanchor, hcons, List.map_append, List.append_assoc]
  · rw [h'.ranges, h.ranges, hanchor, List.append_assoc, ← rangesAfter_append]
    rfl
  · rw [h'.files, h.files, hanchor, hcons, List.map_append, OrderedDict.eraseAll, OrderedDict.eraseAll,
      OrderedDict.eraseAll, List.foldl_append]

/-- The end of a log after a part of the history was added to it. -/
theorem Chained.end_append (h : Chained s p history) {l rest : List AuditRecord}
    (hl : history.drop n = l ++ rest) (hn : n ≤ history.length)
    (hsequence : log.sequence = max log.anchorSequence n)
    (hhead : log.headHash = hashAt history (max log.anchorSequence n))
    (hanchor : log'.anchorSequence = log.anchorSequence) (hhash : log'.anchorHash = log.anchorHash)
    (hrecords : log'.records = log.records ++ l.filter fun r => log.anchorSequence < r.sequence) :
    log'.sequence = max log.anchorSequence (n + l.length) ∧
      log'.headHash = hashAt history (max log.anchorSequence (n + l.length)) := by
  have hnumbered := h.numbered.drop n
  rw [Nat.zero_add, Nat.min_eq_left hn, hl, Numbered.append_iff] at hnumbered
  rw [hnumbered.1.filter_eq] at hrecords
  rcases Nat.lt_or_ge log.anchorSequence (n + l.length) with hlt | hge
  · have hmax : max log.anchorSequence (n + l.length) = n + l.length := by omega
    rw [hmax]
    by_cases hnil : l = []
    · subst hnil
      have hsame : max log.anchorSequence n = n := by
        rw [List.length_nil] at hlt
        omega
      rw [List.drop_nil, List.append_nil] at hrecords
      rw [hsame] at hsequence hhead
      rw [List.length_nil, Nat.add_zero, ← hsequence, AuditLog.sequence, AuditLog.headHash, hrecords,
        hanchor, hhash, hsequence, ← hhead]
      exact ⟨hsequence ▸ rfl, rfl⟩
    · have hpos := List.length_pos_of_ne_nil hnil
      obtain ⟨r, hr⟩ : ∃ r, l.getLast? = some r := ⟨_, List.getLast?_eq_some_getLast hnil⟩
      have hlast : log'.records.getLast? = some r := by
        rw [hrecords, List.getLast?_append, List.getLast?_drop, if_neg (by omega), hr]
        rfl
      have hnumber := hnumbered.1.getLast?_sequence hr
      have hmem : r ∈ history := by
        have hdrop : r ∈ history.drop n := hl ▸ List.mem_append_left _ (List.mem_of_getLast? hr)
        exact List.mem_of_mem_drop hdrop
      simp only [AuditLog.sequence, AuditLog.headHash, hlast]
      exact ⟨hnumber, by rw [← hnumber, h.hashAt_sequence hmem]⟩
  · have hmax : max log.anchorSequence (n + l.length) = log.anchorSequence := by omega
    have hsame : max log.anchorSequence n = log.anchorSequence := by omega
    rw [List.drop_eq_nil_iff.mpr (by omega), List.append_nil] at hrecords
    rw [hsame] at hsequence hhead
    rw [hmax]
    simp only [AuditLog.sequence, AuditLog.headHash] at hsequence hhead ⊢
    rw [hrecords, hanchor, hhash]
    exact ⟨hsequence, hhead⟩

/-- By induction on the segments: what the files of a history load to. -/
theorem Chained.loadSegments (h : Chained s p history) {parts : Parts}
    (hnumbers : (parts.map Prod.fst).Pairwise (· < ·))
    (hsizes : ∀ q ∈ parts, (segmentText s.floats q.2).length ≤ s.segmentBytes + s.maxRecordBytes)
    (hparts : history.drop n = parts.records) (hn : n ≤ history.length)
    (hsequence : log.sequence = max log.anchorSequence n)
    (hhead : log.headHash = hashAt history (max log.anchorSequence n))
    (hnew : ∀ q ∈ parts, q.1 ∉ log.segmentRanges.keys) (dir : AuditDirectory) :
    ∃ log' dir', loadSegments s p (parts.map (segmentFile s.floats)) log dir = .ok (log', dir') ∧
      Loaded parts log log' dir dir' := by
  induction parts generalizing n log dir with
  | nil =>
    refine ⟨log, dir, rfl, rfl, rfl, ?_, ?_, ?_, rfl, ?_⟩
    · simp [Parts.records]
    · simp
    · simp [rangesAfter]
    · simp [OrderedDict.eraseAll]
  | cons q parts ih =>
    have hrecords : history.drop n = q.2 ++ Parts.records parts := hparts
    have hrest : history.drop (n + q.2.length) = Parts.records parts := by
      rw [← List.drop_drop, hrecords, List.drop_left]
    have hle : n + q.2.length ≤ history.length := by
      have hlength := congrArg List.length hrecords
      rw [List.length_drop, List.length_append] at hlength
      omega
    have hnumbered := h.numbered.drop n
    rw [Nat.zero_add, Nat.min_eq_left hn, hrecords, Numbered.append_iff] at hnumbered
    have hverify : verifySegment s p log.anchorSequence log.headHash log.sequence
        (segmentFile s.floats q).2 = .ok (q.2.filter fun r => log.anchorSequence < r.sequence) := by
      rw [verifySegment]
      simp only [except_bind_ok, ensure_ok, exists_const]
      refine ⟨rfl, hsizes q List.mem_cons_self, ?_⟩
      rw [hsequence, hhead]
      show Controlplane.verifyLines s p _ _ _ (lines 10 (segmentText s.floats q.2)) = _
      rw [lines_segmentText]
      exact h.verifyLines hrecords
    obtain ⟨log₁, dir₁, hadd⟩ : ∃ log₁ dir₁, addSegment log dir q.1
        (q.2.filter fun r => log.anchorSequence < r.sequence) = (log₁, dir₁) := ⟨_, _, rfl⟩
    have hloaded : Loaded [q] log log₁ dir dir₁ := by
      have hq := addSegment_loaded hnumbered.1 hsequence (hnew q List.mem_cons_self) dir
      rw [hadd] at hq
      exact hq
    obtain ⟨hsequence₁, hhead₁⟩ := h.end_append hrecords hn hsequence hhead hloaded.anchorSequence
      hloaded.anchorHash (by rw [hloaded.records]; simp [Parts.records])
    rw [← hloaded.anchorSequence] at hsequence₁ hhead₁
    have hlater := List.pairwise_cons.mp hnumbers
    have hnew₁ : ∀ q' ∈ parts, q'.1 ∉ log₁.segmentRanges.keys := by
      intro q' hq' hmem
      rw [OrderedDict.keys, hloaded.ranges, List.map_append, List.mem_append] at hmem
      rcases hmem with hmem | hmem
      · exact hnew q' (List.mem_cons_of_mem q hq') hmem
      · obtain ⟨⟨number, range⟩, hrange, heq⟩ := List.mem_map.mp hmem
        obtain ⟨l, hl, -⟩ := mem_rangesAfter.mp hrange
        cases List.mem_singleton.mp hl
        have hlt := hlater.1 q'.1 (List.mem_map_of_mem hq')
        exact absurd hlt (by rw [← heq]; exact lt_irrefl _)
    obtain ⟨log₂, dir₂, hload, hloaded₂⟩ := ih hlater.2
      (fun q' hq' => hsizes q' (List.mem_cons_of_mem q hq')) hrest hle hsequence₁ hhead₁ hnew₁ dir₁
    refine ⟨log₂, dir₂, ?_, hloaded.cons hloaded₂⟩
    rw [List.map_cons]
    show loadSegments s p ((q.1, (segmentFile s.floats q).2) :: _) log dir = _
    rw [Controlplane.loadSegments, hverify]
    dsimp only [bind, Except.bind]
    rw [hadd]
    exact hload

/-! ## The anchor -/

theorem isHash_hex (d : Digest) : isHash d.hex = true := by
  have hdigit : ∀ k < 16, ((Json.hexDigit k).isDigit ||
      decide ('a' ≤ Json.hexDigit k) && decide (Json.hexDigit k ≤ 'f')) = true := by
    decide
  have hlength : d.hex.toList.length = 64 := by
    have hpairs (l : List UInt8) : (l.flatMap fun b =>
        [Json.hexDigit (b.toNat / 16), Json.hexDigit (b.toNat % 16)]).length = 2 * l.length := by
      induction l with
      | nil => rfl
      | cons b l ih =>
        rw [List.flatMap_cons, List.length_append, ih, List.length_cons]
        simp only [List.length_cons, List.length_nil]
        omega
    rw [Digest.hex, String.toList_ofList, hpairs, d.2]
  rw [isHash, hlength, Bool.and_eq_true, List.all_eq_true]
  refine ⟨rfl, fun ch hch => ?_⟩
  rw [Digest.hex, String.toList_ofList] at hch
  obtain ⟨b, -, hb⟩ := List.mem_flatMap.mp hch
  have hlt := b.toNat_lt
  simp only [List.mem_cons, List.not_mem_nil, or_false] at hb
  rcases hb with rfl | rfl
  · exact hdigit _ (by omega)
  · exact hdigit _ (by omega)

theorem fieldNames_insertField (name : String) (value : Json) (items : List (String × Json)) :
    fieldNames (Json.insertField name value items) = insert name (fieldNames items) := by
  induction items with
  | nil => rfl
  | cons q items ih =>
    unfold Json.insertField
    split_ifs with hlt heq
    · simp [fieldNames]
    · simp [fieldNames, heq]
    · simp only [fieldNames, List.map_cons, List.toFinset_cons] at ih ⊢
      rw [ih, Finset.insert_comm]

theorem MadeRecord.isHash (h : MadeRecord s p n previous r) : Controlplane.isHash r.hash = true := by
  obtain ⟨timestamp, keyId, tenantNamespace, actor, action, outcome, details, key, -, -, -, -, -,
    hhash⟩ := h.body
  rw [hhash]
  exact isHash_hex _

/-- The anchor that was written is loaded. -/
theorem loadAnchor_written {sequence : ℕ} {hash : String} {payload : Bytes}
    (h : anchorPayload s p sequence hash = .ok payload) (hhash : isHash hash = true)
    (hdir : dir.anchor = some ⟨payload, true⟩) : loadAnchor s p dir = .ok (sequence, hash) := by
  simp only [anchorPayload, except_bind_ok, ensure_ok, exists_const, KeyProvider.get_ok, raised_ok,
    canonical_ok] at h
  obtain ⟨key, hkey, message, ⟨hfinite, rfl⟩, text, ⟨-, rfl⟩, hsize, h⟩ := h
  cases h
  have hbody := ordered_anchorBody sequence hash p.activeKeyId
  have hnone : "signature" ∉ (anchorBody sequence hash p.activeKeyId).map Prod.fst := by
    show "signature" ∉ (["hash", "key_id", "sequence", "version"] : List String)
    decide
  have hitem {name : String} (hname : name ≠ "signature") (value : Json) :
      item (Json.insertField "signature" value (anchorBody sequence hash p.activeKeyId)) name =
        item (anchorBody sequence hash p.activeKeyId) name := by
    rw [← item_filter_ne hname, filter_insertField hnone]
  rw [loadAnchor, hdir]
  simp only [except_bind_ok, ensure_ok, exists_const, identifier_ok, KeyProvider.get_ok, raised_ok,
    canonical_ok]
  refine ⟨trivial, _, readJsonFile_ok.mpr ⟨hsize, Json.loads_dumps (ordered_insertField hbody trivial)⟩,
    ?_, p.activeKeyId, ⟨(hitem (by decide) _).trans rfl, p.activeKeyId_ok⟩, key, hkey, _, ⟨?_, rfl⟩, ?_⟩
  · rw [fieldNames_insertField]
    show insert "signature" (["hash", "key_id", "sequence", "version"] : List String).toFinset = _
    decide
  · rw [filter_insertField hnone]
    exact hfinite
  · have hversion : item (anchorBody sequence hash p.activeKeyId) "version" = .int 1 := by
      simp [anchorBody, item, List.lookup]
    have hsequence : item (anchorBody sequence hash p.activeKeyId) "sequence" = .int sequence := by
      simp [anchorBody, item, List.lookup]
    have htext : item (anchorBody sequence hash p.activeKeyId) "hash" = .str hash := by
      simp [anchorBody, item]
    rw [hitem (by decide), hversion, hitem (by decide), hsequence, hitem (by decide), htext,
      item_insertField, filter_insertField hnone]
    simp only [isOne, intValue, except_bind_ok, ensure_ok, exists_const, decide_true]
    exact ⟨⟨Int.natCast_nonneg _, hhash⟩, true, compareHex_hex _, rfl, rfl⟩

/-- Keys that are kept open the same anchor. -/
theorem loadAnchor_rotates {anchor : ℕ × String} (h : loadAnchor s p dir = .ok anchor)
    (hp : p.Rotates p') : loadAnchor s p' dir = .ok anchor := by
  unfold loadAnchor at h ⊢
  split at h
  · exact h
  next file hfile =>
    simp only [except_bind_ok, KeyProvider.get_ok] at h ⊢
    obtain ⟨u, hprotected, fields, hfields, v, hnames, keyId, hkeyId, key, hkey, hrest⟩ := h
    exact ⟨u, hprotected, fields, hfields, v, hnames, keyId, hkeyId, key, hp _ _ hkey, hrest⟩

/-- Some of the files are removed, from the first one on, or all of them. -/
theorem unlinkSegments_eq {budget : Option ℕ} {numbers : List ℕ} {done : Bool} {removed : ℕ}
    (hnodup : numbers.Nodup) (hfiles : ∀ number ∈ numbers, dir.segments.get? number ≠ none)
    (h : unlinkSegments budget numbers log dir = (done, removed, log', dir')) :
    ∃ k, log' = { log with segmentRanges := log.segmentRanges.eraseAll (numbers.take k) } ∧
      dir' = { dir with segments := dir.segments.eraseAll (numbers.take k) } ∧
      (done = true → numbers.length ≤ k) := by
  induction numbers generalizing budget log dir done removed with
  | nil =>
    cases h
    exact ⟨0, rfl, rfl, fun _ => le_rfl⟩
  | cons number numbers ih =>
    rw [unlinkSegments] at h
    obtain ⟨hnew, hrest⟩ := List.nodup_cons.mp hnodup
    split at h
    next hnone => exact absurd hnone (hfiles number List.mem_cons_self)
    · by_cases hbudget : budget = some 0
      · rw [if_pos hbudget] at h
        cases h
        exact ⟨0, rfl, rfl, fun hdone => by cases hdone⟩
      · rw [if_neg hbudget] at h
        obtain ⟨done', removed', log₁, dir₁, hunlink⟩ :
            ∃ done' removed' log₁ dir₁, unlinkSegments (budget.map (· - 1)) numbers
              { log with segmentRanges := log.segmentRanges.erase number }
              { dir with segments := dir.segments.erase number } = (done', removed', log₁, dir₁) :=
          ⟨_, _, _, _, rfl⟩
        rw [hunlink] at h
        cases h
        have hleft : ∀ n ∈ numbers, (dir.segments.erase number).get? n ≠ none := by
          intro n hn
          have hne : n ≠ number := fun heq => hnew (heq ▸ hn)
          rw [OrderedDict.get?_erase, if_neg hne]
          exact hfiles n (List.mem_cons_of_mem number hn)
        obtain ⟨k, hlog, hdir, hdone⟩ := ih hrest hleft hunlink
        refine ⟨k + 1, ?_, ?_, fun h => Nat.succ_le_succ (hdone h)⟩
        · rw [hlog, List.take_succ_cons]
          rfl
        · rw [hdir, List.take_succ_cons]
          rfl

end

/-! ## What is stored -/

/-- The log in memory has the records of the history after `b`, and the directory those after
`c`, in segments that the log has listed with their ranges. -/
structure Stored (s : AuditSettings) (p : KeyProvider) (history : List AuditRecord) (log : AuditLog)
    (dir : AuditDirectory) (b c : ℕ) (parts : Parts) : Prop where
  laid : Laid c parts
  records : parts.records = history.drop c
  stored_le : c ≤ log.anchorSequence
  base_le : b ≤ log.anchorSequence
  memory : log.records = history.drop b
  above : Above b parts
  files : dir.segments.toList = parts.map (segmentFile s.floats)
  ranges : log.segmentRanges.toList = rangesAfter b parts
  listed : ∀ q ∈ parts, q.1 ∈ log.segments
  segments : log.segments.Pairwise (· < ·)
  segments_le : log.segments.length ≤ s.maxSegments
  numbers : ∀ n ∈ log.segments, n < 100000000
  sizes : ∀ q ∈ parts, (segmentText s.floats q.2).length ≤ s.segmentBytes + s.maxRecordBytes
  anchor : loadAnchor s p dir = .ok (log.anchorSequence, log.anchorHash)

/-- The log has a place for the record: it fits into the last segment, or the next segment has a
number of eight digits and, where the log has as many segments as it may, each of them has a
file. -/
def HasPlace (s : AuditSettings) (log : AuditLog) (dir : AuditDirectory) (payloadBytes : ℕ) : Prop :=
  ∀ current, log.segments.getLast? = some current →
    segmentSize dir current + payloadBytes ≤ s.segmentBytes ∨
      current + 1 < 100000000 ∧
        (log.segments.length = s.maxSegments → ∀ n ∈ log.segments, n ∈ dir.segments.keys)

section

variable {s : AuditSettings} {p p' : KeyProvider} {history : List AuditRecord} {r : AuditRecord}
  {log log' : AuditLog} {dir dir' : AuditDirectory} {b c : ℕ} {parts : Parts}

theorem le_getLast_of_pairwise {l : List ℕ} (h : l.Pairwise (· < ·)) {last : ℕ}
    (hlast : l.getLast? = some last) : ∀ n ∈ l, n ≤ last := by
  obtain ⟨init, rfl⟩ := List.getLast?_eq_some_iff.mp hlast
  intro n hn
  rcases List.mem_append.mp hn with hn | hn
  · exact le_of_lt ((List.pairwise_append.mp h).2.2 n hn last (by simp))
  · exact (List.mem_singleton.mp hn).le

theorem Stored.keys (h : Stored s p history log dir b c parts) :
    dir.segments.keys = parts.map Prod.fst := by
  rw [OrderedDict.keys, h.files, List.map_map]
  rfl

/-- A log with a place for the record takes a number of eight digits. -/
theorem Stored.number_lt (h : Stored s p history log dir b c parts) {payloadBytes number : ℕ}
    (hsegment : segmentForAppend s log dir payloadBytes = (.ok number, log'))
    (hplace : HasPlace s log dir payloadBytes) : number < 100000000 := by
  rcases segmentForAppend_cases hsegment with ⟨-, hnumber, -⟩ | ⟨current, hcurrent, hcases⟩
  · cases hnumber
    omega
  · have hmem := List.mem_of_getLast? hcurrent
    rcases hcases with ⟨-, hnumber, -⟩ | ⟨-, -, ⟨err, hnumber⟩, -⟩ | ⟨hover, -, hnumber, -⟩
    · cases hnumber
      exact h.numbers _ hmem
    · cases hnumber
    · cases hnumber
      rcases hplace current hcurrent with hfits | ⟨hnext, -⟩
      · omega
      · exact hnext

/-- The number for the next record is not below any other, and with the record the file is not
too long.  The files of the log may be longer than those that it looks at. -/
theorem Stored.reserve (h : Stored s p history log dir b c parts) {payloadBytes number : ℕ}
    (hsegment : segmentForAppend s log dir' payloadBytes = (.ok number, log'))
    (hshort : ∀ n, segmentSize dir' n ≤ segmentSize dir n) (hlt : number < 100000000)
    (hpayload : payloadBytes ≤ s.maxRecordBytes) :
    Stored s p history log' dir b c parts ∧ number ∈ log'.segments ∧ (∀ q ∈ parts, q.1 ≤ number) ∧
      segmentSize dir' number + payloadBytes ≤ s.segmentBytes + s.maxRecordBytes := by
  rcases segmentForAppend_cases hsegment with ⟨hnil, hnumber, rfl⟩ | ⟨current, hcurrent, hcases⟩
  · cases hnumber
    have hempty : parts = [] := by
      rw [List.eq_nil_iff_forall_not_mem]
      intro q hq
      have hlisted := h.listed q hq
      rw [hnil] at hlisted
      cases hlisted
    subst hempty
    have hsize : segmentSize dir 1 = 0 := by
      rw [segmentSize, get?_segments_none h.files (by simp)]
      rfl
    have hsize' := hshort 1
    refine ⟨⟨h.laid, h.records, h.stored_le, h.base_le, h.memory, h.above, h.files, h.ranges, by simp,
      by simp, s.maxSegments_pos, by simp, by simp, h.anchor⟩, by simp, by simp, by omega⟩
  · have hlast := le_getLast_of_pairwise h.segments hcurrent
    have hmem := List.mem_of_getLast? hcurrent
    rcases hcases with ⟨hfits, hnumber, rfl⟩ | ⟨-, -, ⟨err, hnumber⟩, -⟩ | ⟨-, hroom, hnumber, rfl⟩
    · cases hnumber
      exact ⟨h, hmem, fun q hq => hlast q.1 (h.listed q hq), by omega⟩
    · cases hnumber
    · cases hnumber
      have hle : ∀ q ∈ parts, q.1 ≤ current := fun q hq => hlast q.1 (h.listed q hq)
      have hsize : segmentSize dir (current + 1) = 0 := by
        rw [segmentSize, get?_segments_none h.files fun q hq => by have := hle q hq; omega]
        rfl
      have hsize' := hshort (current + 1)
      refine ⟨⟨h.laid, h.records, h.stored_le, h.base_le, h.memory, h.above, h.files, h.ranges, ?_, ?_,
        ?_, ?_, h.sizes, h.anchor⟩, by simp, fun q hq => (hle q hq).trans (Nat.le_succ _), by omega⟩
      · exact fun q hq => List.mem_append_left _ (h.listed q hq)
      · rw [List.pairwise_append]
        refine ⟨h.segments, by simp, fun n hn m hm => ?_⟩
        have hn' := hlast n hn
        rw [List.mem_singleton.mp hm]
        omega
      · rw [List.length_append, List.length_singleton]
        exact hroom
      · intro n hn
        rcases List.mem_append.mp hn with hn | hn
        · exact h.numbers n hn
        · rw [List.mem_singleton.mp hn]
          exact hlt

theorem Stored.put_sizes (h : Stored s p history log dir b c parts) {number : ℕ}
    (hle : ∀ q ∈ parts, q.1 ≤ number) {l : List AuditRecord}
    (hsize : segmentSize dir number + (segmentText s.floats l).length ≤
      s.segmentBytes + s.maxRecordBytes) :
    ∀ q ∈ parts.put number l,
      (segmentText s.floats q.2).length ≤ s.segmentBytes + s.maxRecordBytes := by
  intro q hq
  rcases mem_put h.laid.numbers hle hq with hq | rfl | ⟨old, hold, rfl⟩
  · exact h.sizes q hq
  · exact (Nat.le_add_left _ _).trans hsize
  · have hget := get?_segments h.files hold
    rw [segmentSize, hget, Option.elim_some] at hsize
    rw [segmentText, List.flatMap_append, List.length_append]
    exact hsize

/-- An empty file, or one that nothing was written to. -/
theorem Stored.touch (h : Stored s p history log dir b c parts) {number : ℕ}
    (hnumber : number ∈ log.segments) (hle : ∀ q ∈ parts, q.1 ≤ number)
    (hsize : segmentSize dir number ≤ s.segmentBytes + s.maxRecordBytes) :
    Stored s p history log (appendFile dir number []) b c (parts.put number []) where
  laid := h.laid.put hle trivial
  records := by
    rw [put_records h.laid.numbers hle, List.append_nil]
    exact h.records
  stored_le := h.stored_le
  base_le := h.base_le
  memory := h.memory
  above := by
    intro q hq hne
    rcases mem_put h.laid.numbers hle hq with hq | rfl | ⟨old, hold, rfl⟩
    · exact h.above q hq hne
    · exact absurd rfl hne
    · rw [List.append_nil] at hne ⊢
      exact h.above _ hold hne
  files := put_files (l := []) h.laid.numbers hle h.files
  ranges := h.ranges.trans (put_nil_ranges h.laid.numbers hle).symm
  listed := by
    intro q hq
    rcases mem_put h.laid.numbers hle hq with hq | rfl | ⟨old, hold, rfl⟩
    · exact h.listed q hq
    · exact hnumber
    · exact hnumber
  segments := h.segments
  segments_le := h.segments_le
  numbers := h.numbers
  sizes := h.put_sizes hle (by simpa [segmentText] using hsize)
  anchor := h.anchor

/-- A record behind the others, in memory and in its file. -/
theorem Stored.append (h : Stored s p history log dir b c parts) {number : ℕ}
    (hnumber : number ∈ log.segments) (hle : ∀ q ∈ parts, q.1 ≤ number)
    (hanchor : log.anchorSequence ≤ history.length) (hr : r.sequence = history.length + 1)
    (hsize : segmentSize dir number + (recordLine s.floats r).length ≤
      s.segmentBytes + s.maxRecordBytes) :
    Stored s p (history ++ [r])
      { log with
        records := log.records ++ [r]
        segmentRanges := extendRange log.segmentRanges number r.sequence }
      (appendFile dir number (recordLine s.floats r)) b c (parts.put number [r]) := by
  have hc := h.stored_le.trans hanchor
  have hb := h.base_le.trans hanchor
  have htext : segmentText s.floats [r] = recordLine s.floats r := by simp [segmentText]
  have hlength : c + parts.records.length = history.length := by
    rw [h.records, List.length_drop]
    omega
  have hlt : b < r.sequence := by omega
  refine ⟨h.laid.put hle ⟨by omega, trivial⟩, ?_, h.stored_le, h.base_le, ?_, ?_, ?_, ?_, ?_, h.segments,
    h.segments_le, h.numbers, h.put_sizes hle (htext ▸ hsize), h.anchor⟩
  · rw [put_records h.laid.numbers hle, h.records, List.drop_append_of_le_length hc]
  · rw [List.drop_append_of_le_length hb]
    exact congrArg (· ++ [r]) h.memory
  · intro q hq hne
    rcases mem_put h.laid.numbers hle hq with hq | rfl | ⟨old, hold, rfl⟩
    · exact h.above q hq hne
    · rw [← List.nil_append [r], rangeAfter_append hlt]
      simp
    · rw [rangeAfter_append hlt]
      simp
  · rw [← htext]
    exact put_files h.laid.numbers hle h.files
  · exact put_ranges h.laid.numbers hle h.ranges hlt
  · intro q hq
    rcases mem_put h.laid.numbers hle hq with hq | rfl | ⟨old, hold, rfl⟩
    · exact h.listed q hq
    · exact hnumber
    · exact hnumber

theorem rangesAfter_congr {b b' : ℕ} (h : ∀ q ∈ parts, rangeAfter b q.2 = rangeAfter b' q.2) :
    rangesAfter b parts = rangesAfter b' parts := by
  apply List.filterMap_congr
  intro q hq
  rw [h q hq]

theorem rangeAfter_of_all {l : List AuditRecord} {b b' : ℕ} (hb : ∀ r ∈ l, b < r.sequence)
    (hb' : ∀ r ∈ l, b' < r.sequence) : rangeAfter b l = rangeAfter b' l := by
  have hall {b : ℕ} (h : ∀ r ∈ l, b < r.sequence) : l.filter (fun r => b < r.sequence) = l :=
    List.filter_eq_self.mpr fun r hr => decide_eq_true (h r hr)
  rw [rangeAfter, rangeAfter, hall hb, hall hb']

/-- The files that a prune has removed, and the anchor that it has written before. -/
theorem Stored.unlink (h : Stored s p history log dir b c parts) (hchained : Chained s p history)
    (hholds : Holds history log) {through anchorSequence : ℕ} {anchorRecord : AuditRecord}
    {payload : Bytes} (hwork : PruneWork s p log through anchorSequence anchorRecord payload) (k : ℕ) :
    ∃ j, Stored s p history
      { log with
        anchorSequence := anchorSequence, anchorHash := anchorRecord.hash
        segmentRanges := log.segmentRanges.eraseAll
          (((eligibleSegments log through).map Prod.fst).take k) }
      ⟨some ⟨payload, true⟩,
        dir.segments.eraseAll (((eligibleSegments log through).map Prod.fst).take k)⟩
      b (c + j) (parts.filter fun q =>
        q.1 ∉ ((eligibleSegments log through).map Prod.fst).take k) := by
  obtain ⟨hmem, hnumber, hlt⟩ := hwork.anchor hholds hchained
  have hb : b < anchorSequence := hlt b (h.base_le.trans hholds.anchor_le) h.memory
  have hc : c < anchorSequence := by
    have hmax := foldr_max_mem (l := (eligibleSegments log through).map Prod.snd)
      (by simpa using hwork.eligible)
    rw [← hwork.sequence_eq] at hmax
    obtain ⟨⟨n, m⟩, hm, rfl⟩ := List.mem_map.mp hmax
    obtain ⟨-, l, first, hl, -⟩ := (mem_eligible h.laid.numbers h.ranges).mp hm
    obtain ⟨-, -, r, hr, hrm⟩ := eligible_last h.laid h.ranges hm hl rfl
    exact hrm ▸ h.laid.lt_of_mem hl hr
  obtain ⟨j, hle, hrecords, hlaid⟩ := h.laid.prune h.ranges h.above through k
  rw [← hwork.sequence_eq, Nat.max_eq_right hc.le] at hle
  have hsub {q : ℕ × List AuditRecord} (hq : q ∈ parts.filter fun q =>
      q.1 ∉ ((eligibleSegments log through).map Prod.fst).take k) : q ∈ parts :=
    (List.mem_filter.mp hq).1
  refine ⟨j, hlaid, ?_, hle, hb.le, h.memory, fun q hq => h.above q (hsub hq), ?_, ?_,
    fun q hq => h.listed q (hsub hq), h.segments, h.segments_le, h.numbers,
    fun q hq => h.sizes q (hsub hq), ?_⟩
  · rw [hrecords, h.records, List.drop_drop]
  · exact eraseAll_files (fun q _ => by simp) h.files
  · rw [OrderedDict.toList_eraseAll, h.ranges, rangesAfter_filter]
  · obtain ⟨n, hn⟩ := List.mem_iff_getElem?.mp hmem
    exact loadAnchor_written hwork.payload_eq (hchained n _ hn).isHash rfl

/-- Whatever a prune does, what is stored is in order afterwards. -/
theorem Stored.prune (h : Stored s p history log dir b c parts) (hchained : Chained s p history)
    (hholds : Holds history log) {fault : PruneFault} {through : ℕ} {expectedHash : String}
    {result : Except AuditFailure PruneResult}
    (hprune : pruneExported s p fault through expectedHash log dir = (result, log', dir')) :
    ∃ b c parts, Stored s p history log' dir' b c parts := by
  rcases pruneExported_cases hprune with ⟨rfl, rfl⟩ |
    ⟨anchorSequence, anchorRecord, payload, done, removed, log₁, hwork, hunlink, rfl⟩
  · exact ⟨b, c, parts, h⟩
  · have hsorted := eligible_sorted through h.laid.numbers h.ranges
    have hnodup : ((eligibleSegments log through).map Prod.fst).Nodup :=
      List.Pairwise.map _ (fun _ _ hlt => ne_of_lt hlt) hsorted
    have hfiles : ∀ number ∈ (eligibleSegments log through).map Prod.fst,
        ({ dir with anchor := some ⟨payload, true⟩ } : AuditDirectory).segments.get? number ≠ none := by
      intro number hnumber
      obtain ⟨⟨n, m⟩, hm, rfl⟩ := List.mem_map.mp hnumber
      obtain ⟨-, l, first, hl, -⟩ := (mem_eligible h.laid.numbers h.ranges).mp hm
      show dir.segments.get? n ≠ none
      rw [get?_segments h.files hl]
      simp
    obtain ⟨k, hlog, hdir, hdone⟩ := unlinkSegments_eq hnodup hfiles hunlink
    obtain ⟨j, hstored⟩ := h.unlink hchained hholds hwork k
    subst hlog hdir
    cases done with
    | false => exact ⟨b, c + j, _, hstored⟩
    | true =>
      have hall : ((eligibleSegments log through).map Prod.fst).take k =
          (eligibleSegments log through).map Prod.fst := List.take_of_length_le (hdone rfl)
      rw [hall] at hstored ⊢
      have hafter : ∀ q ∈ parts.filter fun q => q.1 ∉ (eligibleSegments log through).map Prod.fst,
          ∀ r ∈ q.2, anchorSequence < r.sequence := by
        intro q hq r hr
        obtain ⟨hmem, hout⟩ := List.mem_filter.mp hq
        rw [hwork.sequence_eq]
        exact h.laid.prune_all h.ranges h.above hwork.eligible hmem (by simpa using hout) hr
      have hb : b ≤ anchorSequence := hstored.base_le
      refine ⟨anchorSequence, c + j, _, hstored.laid, hstored.records, hstored.stored_le, le_rfl, ?_, ?_,
        hstored.files, ?_, ?_, hstored.segments.filter _,
        (List.length_filter_le _ _).trans hstored.segments_le, ?_, hstored.sizes, hstored.anchor⟩
      · show log.records.filter _ = _
        rw [h.memory, hchained.filter_drop (h.base_le.trans hholds.anchor_le), Nat.max_eq_left hb]
      · intro q hq hne
        rw [Ne, rangeAfter_eq_none]
        intro hle
        obtain ⟨r, hr⟩ := List.exists_mem_of_ne_nil _ hne
        exact absurd (hafter q hq r hr) (not_lt.mpr (hle r hr))
      · exact hstored.ranges.trans (rangesAfter_congr fun q hq => rangeAfter_of_all
          (fun r hr => hb.trans_lt (hafter q hq r hr)) (hafter q hq))
      · intro q hq
        exact List.mem_filter.mpr ⟨hstored.listed q hq, (List.mem_filter.mp hq).2⟩
      · exact fun n hn => hstored.numbers n (List.mem_filter.mp hn).1

theorem rangesAfter_kept (a : ℕ) (parts : Parts) :
    rangesAfter a (parts.filter (kept a)) = rangesAfter a parts := by
  induction parts with
  | nil => rfl
  | cons q parts ih =>
    cases hq : kept a q with
    | true => rw [List.filter_cons_of_pos hq, rangesAfter_cons, rangesAfter_cons, ih]
    | false =>
      have hnone : rangeAfter a q.2 = none := by
        simp only [kept, Bool.or_eq_false_iff, Option.isSome_eq_false_iff,
          Option.isNone_iff_eq_none] at hq
        exact hq.2
      rw [List.filter_cons_of_neg (by simp [hq]), rangesAfter_cons, ih, hnone]
      rfl

theorem loadAnchor_congr (h : dir'.anchor = dir.anchor) : loadAnchor s p dir' = loadAnchor s p dir := by
  rw [loadAnchor, loadAnchor, h]

/-- What is stored loads, and the log that is loaded goes on with the same directory. -/
theorem Stored.load (h : Stored s p history log dir b c parts) (hchained : Chained s p history)
    (hholds : Holds history log) :
    ∃ log' dir', loadLog s p dir = .ok (log', dir') ∧ Continues log log' ∧
      log'.segmentRanges.toList = rangesAfter log.anchorSequence parts ∧
      ∃ j, Stored s p history log' dir' log.anchorSequence (c + j)
        (parts.filter (kept log.anchorSequence)) := by
  have hanchor := hholds.anchor_le
  have hc := h.stored_le.trans hanchor
  have hnumbers : ∀ q ∈ parts, q.1 < 100000000 := fun q hq => h.numbers q.1 (h.listed q hq)
  have hnames : segmentNames dir = parts.map (segmentFile s.floats) := by
    rw [segmentNames, h.files, List.filter_eq_self.mpr]
    · apply List.Pairwise.insertionSort_eq
      rw [List.pairwise_map]
      exact (List.pairwise_map.mp h.laid.numbers).imp fun hlt => le_of_lt hlt
    · intro item hitem
      obtain ⟨q, hq, rfl⟩ := List.mem_map.mp hitem
      exact decide_eq_true (hnumbers q hq)
  have hcount : parts.length ≤ s.maxSegments := by
    have hsub : parts.map Prod.fst ⊆ log.segments := by
      intro n hn
      obtain ⟨q, hq, rfl⟩ := List.mem_map.mp hn
      exact h.listed q hq
    have hnodup : (parts.map Prod.fst).Nodup := h.laid.numbers.imp ne_of_lt
    have hlength := (hnodup.subperm hsub).length_le
    rw [List.length_map] at hlength
    exact hlength.trans h.segments_le
  have hmax : max log.anchorSequence c = log.anchorSequence := Nat.max_eq_left h.stored_le
  obtain ⟨log', dir', hload, hloaded⟩ := @Chained.loadSegments s p history
    ⟨log.anchorSequence, log.anchorHash, [], [], OrderedDict.empty⟩ c hchained parts
    h.laid.numbers h.sizes h.records.symm hc hmax.symm
    (hholds.anchor_eq.trans (congrArg (hashAt history) hmax.symm)) (fun q _ => by simp) dir
  have hrecords : log'.records = history.drop log.anchorSequence := by
    rw [hloaded.records, List.nil_append, h.records, hchained.filter_drop hc, hmax]
  have hcontinues : Continues log log' := by
    refine ⟨hloaded.anchorSequence, hloaded.anchorHash, ?_⟩
    rw [hrecords, h.memory, hchained.filter_drop (h.base_le.trans hanchor), Nat.max_eq_left h.base_le]
  refine ⟨log', dir', ?_, hcontinues, hloaded.ranges, ?_⟩
  · simp only [loadLog, except_bind_ok, ensure_ok, exists_const]
    refine ⟨_, h.anchor, ?_, ?_⟩
    · rw [hnames, List.length_map]
      exact hcount
    · rw [hnames]
      exact hload
  · -- what is left after loading: the segments with records after the anchor
    have hout : ∀ q ∈ parts, kept log.anchorSequence q = false →
        ∀ r ∈ q.2, r.sequence ≤ log.anchorSequence := by
      intro q _ hfalse
      simp only [kept, Bool.or_eq_false_iff, Option.isSome_eq_false_iff, Option.isNone_iff_eq_none]
        at hfalse
      exact rangeAfter_eq_none.mp hfalse.2
    have hkeep : ∀ q ∈ parts, kept log.anchorSequence q = true → q.2 ≠ [] →
        ∃ r ∈ q.2, log.anchorSequence < r.sequence := by
      intro q hq htrue hne
      by_contra hnone
      push Not at hnone
      obtain ⟨r, hr⟩ := List.exists_mem_of_ne_nil _ hne
      have hpos := h.laid.lt_of_mem hq hr
      have hle := hnone r hr
      simp only [kept, rangeAfter_eq_none.mpr hnone, Option.isSome_none, Bool.or_false,
        decide_eq_true_eq] at htrue
      omega
    obtain ⟨j, hle, hleft, hlaid⟩ := h.laid.filter hout hkeep
    rw [Nat.max_eq_right h.stored_le] at hle
    have hsub {q : ℕ × List AuditRecord} (hq : q ∈ parts.filter (kept log.anchorSequence)) :
        q ∈ parts := (List.mem_filter.mp hq).1
    have hsegments : log'.segments = (parts.filter (kept log.anchorSequence)).map Prod.fst := by
      rw [hloaded.segments, List.nil_append]
    have hlisted : ∀ n ∈ log'.segments, n ∈ log.segments := by
      intro n hn
      rw [hsegments] at hn
      obtain ⟨q, hq, rfl⟩ := List.mem_map.mp hn
      exact h.listed q (hsub hq)
    refine ⟨j, hlaid, ?_, hcontinues.anchorSequence ▸ hle, hcontinues.anchorSequence.ge, hrecords, ?_, ?_,
      ?_, ?_, ?_, ?_, fun n hn => h.numbers n (hlisted n hn), fun q hq => h.sizes q (hsub hq), ?_⟩
    · rw [hleft, h.records, List.drop_drop]
    · intro q hq hne
      obtain ⟨r, hr, hlt⟩ := hkeep q (hsub hq) (List.mem_filter.mp hq).2 hne
      rw [Ne, rangeAfter_eq_none]
      intro hall
      exact absurd hlt (not_lt.mpr (hall r hr))
    · rw [hloaded.files]
      refine eraseAll_files ?_ h.files
      intro q hq
      constructor
      · intro htrue hmem
        obtain ⟨q', hq', heq⟩ := List.mem_map.mp hmem
        obtain ⟨hq'', hfalse⟩ := List.mem_filter.mp hq'
        rw [part_unique h.laid.numbers hq'' hq heq, htrue] at hfalse
        cases hfalse
      · intro hmem
        by_contra hfalse
        exact hmem (List.mem_map_of_mem (List.mem_filter.mpr ⟨hq, by simpa using hfalse⟩))
    · rw [hloaded.ranges]
      exact (rangesAfter_kept log.anchorSequence parts).symm
    · intro q hq
      rw [hsegments]
      exact List.mem_map_of_mem hq
    · rw [hsegments]
      exact hlaid.numbers
    · rw [hsegments, List.length_map]
      exact (List.length_filter_le _ _).trans hcount
    · rw [loadAnchor_congr hloaded.anchor, hcontinues.anchorSequence, hcontinues.anchorHash]
      exact h.anchor

end

end Controlplane
end MegaCache
