import MegaCache.Controlplane.AuditRestarts
import MegaCache.Lib.DictRelation

/-!
# Appends that are cut

An append may raise, or the process end, when the first bytes of its line are in the file.  If
nothing is there, or a crash leaves the whole line, with or without its line feed, the directory
still loads; nothing may be written behind a line without a line feed.
-/

namespace MegaCache
namespace Controlplane

/-! ## Runs -/

/-- `append` before its write: the record of the entry has this line and goes to this segment, and
`log` is the log then. -/
structure Writing (s : AuditSettings) (st : AuditState) (timestamp : ℚ) (e : AuditEntry)
    (r : AuditRecord) (line : Bytes) (number : ℕ) (log : AuditLog) : Prop where
  check : e.check s = .ok ()
  record : makeRecord s st.provider st.log e timestamp = .ok (r, line)
  segment : segmentForAppend s st.log st.dir (line.length + 1) = (.ok number, log)

/-- The directory with the first `k` bytes of the payload. -/
def cutFile (dir : AuditDirectory) (number : ℕ) (line : Bytes) (k : ℕ) : AuditDirectory :=
  appendFile dir number ((line ++ [10]).take k)

inductive AuditEvent
  | call (call : AuditCall)
  /-- an append raises when `k` bytes are in the file -/
  | raised (k : ℕ) (timestamp : ℚ) (e : AuditEntry)
  /-- the process ends there and is started again -/
  | crashed (k : ℕ) (timestamp : ℚ) (e : AuditEntry)

/-- An event, with the records that it acknowledges.  A record that the start after a crash finds
behind the history joins it. -/
inductive EventStep (s : AuditSettings) :
    AuditState → AuditEvent → List AuditRecord → AuditState → Prop
  | call {st st' : AuditState} {call : AuditCall} (h : AuditStep s st call st') :
      EventStep s st (.call call) (st'.history.drop st.history.length) st'
  | raised {st : AuditState} {k : ℕ} {timestamp : ℚ} {e : AuditEntry} {r : AuditRecord}
      {line : Bytes} {number : ℕ} {log : AuditLog} (h : Writing s st timestamp e r line number log) :
      EventStep s st (.raised k timestamp e) []
        { st with log := log, dir := cutFile st.dir number line k }
  | crashed {st : AuditState} {k : ℕ} {timestamp : ℚ} {e : AuditEntry} {r : AuditRecord}
      {line : Bytes} {number : ℕ} {log log' : AuditLog} {dir : AuditDirectory}
      {checkpoint : ℕ × String} (h : Writing s st timestamp e r line number log)
      (hload : loadLog s st.provider (cutFile st.dir number line k) = .ok (log', dir))
      (hcheckpoint : reconcile st.checkpoint log' = .ok checkpoint) :
      EventStep s st (.crashed k timestamp e) [] { st with
        log := log', dir := dir, checkpoint := checkpoint
        history := st.history ++ log'.records.filter fun r => st.history.length < r.sequence }

/-- The runs whose events meet a condition, with the records that were acknowledged. -/
inductive AuditRun (s : AuditSettings) (meets : AuditState → AuditEvent → Prop) :
    AuditState → List AuditRecord → Prop
  | start (p : KeyProvider) : AuditRun s meets (AuditState.start p) []
  | step {st st' : AuditState} {acknowledged returned : List AuditRecord} {event : AuditEvent}
      (hrun : AuditRun s meets st acknowledged) (hmeets : meets st event)
      (hstep : EventStep s st event returned st') : AuditRun s meets st' (acknowledged ++ returned)

/-- The file of the segment is empty or ends with a line feed. -/
def Whole (dir : AuditDirectory) (number : ℕ) : Prop :=
  ∀ file ∈ dir.segments.get? number, file.payload = [] ∨ file.payload.getLast? = some 10

/-- The condition on an event: an append that raises has written nothing, a crash leaves nothing or
the whole line, and nothing is written behind a line without a line feed. -/
def Recoverable (s : AuditSettings) (st : AuditState) : AuditEvent → Prop
  | .call (.append fault timestamp e) => ∀ r line number log,
      Writing s st timestamp e r line number log →
      number < 100000000 ∧ (fault = .none → Whole st.dir number)
  | .call _ => True
  | .raised k timestamp e => ∀ r line number log,
      Writing s st timestamp e r line number log → number < 100000000 ∧ k = 0
  | .crashed k timestamp e => ∀ r line number log,
      Writing s st timestamp e r line number log →
      number < 100000000 ∧ (k = 0 ∨ line.length ≤ k ∧ Whole st.dir number)

/-- The directory loads with the acknowledged records behind its anchor, in one chain. -/
def Reloads (s : AuditSettings) (p : KeyProvider) (dir : AuditDirectory) (checkpoint : ℕ × String)
    (acknowledged : List AuditRecord) : Prop :=
  ∃ log dir' checkpoint', loadLog s p dir = .ok (log, dir') ∧
    LinkedFrom log.anchorSequence log.anchorHash log.records ∧
    (acknowledged.filter fun r => log.anchorSequence < r.sequence).Sublist log.records ∧
    reconcile checkpoint log = .ok checkpoint'

/-! ## Lines without a line feed -/

/-- The line of a record. -/
def recordText (floats : Json.FloatText) (r : AuditRecord) : Bytes :=
  Json.utf8 (Json.dumps floats.repr r.document)

/-- A file like another one, whose last line may miss its line feed. -/
def TornFile (floats : Json.FloatText) (file whole : StoredFile) : Prop :=
  file = whole ∨ ∃ front r,
    Json.loadsBytes floats (recordText floats r) = Json.loadsBytes floats (recordLine floats r) ∧
    file = ⟨segmentText floats front ++ recordText floats r, true⟩ ∧
    whole = ⟨segmentText floats (front ++ [r]), true⟩

structure Torn (floats : Json.FloatText) (dir whole : AuditDirectory) : Prop where
  anchor : dir.anchor = whole.anchor
  segments : OrderedDict.Related (TornFile floats) dir.segments whole.segments

section

variable {s : AuditSettings} {st st' : AuditState} {p : KeyProvider} {history acknowledged : List AuditRecord}
  {log log' : AuditLog} {dir dir' whole whole' : AuditDirectory} {file file' : StoredFile}
  {r : AuditRecord} {line : Bytes} {b c n number k : ℕ} {parts : Parts} {timestamp : ℚ} {e : AuditEntry}
  {previous : String} {floats : Json.FloatText}

theorem Torn.refl (dir : AuditDirectory) : Torn floats dir dir :=
  ⟨rfl, .refl (fun _ => .inl rfl) _⟩

theorem recordText_ne_nil (floats : Json.FloatText) (r : AuditRecord) : recordText floats r ≠ [] := by
  have hlength : 0 < (recordText floats r).length := by
    rw [recordText, Json.utf8, AuditRecord.document]
    obtain ⟨rest, hrest⟩ : ∃ rest, Json.dumps floats.repr
        (.obj (Json.insertField "hash" (.str r.hash) r.body)) = '{' :: rest := by
      unfold Json.dumps
      exact ⟨_, rfl⟩
    rw [hrest, List.flatMap_cons, List.length_append, String.length_utf8EncodeChar]
    exact Nat.lt_of_lt_of_le (Char.utf8Size_pos '{') (Nat.le_add_right _ _)
  exact List.ne_nil_of_length_pos hlength

theorem notMem_recordText (floats : Json.FloatText) (r : AuditRecord) :
    (10 : UInt8) ∉ recordText floats r :=
  (Json.plain_dumps floats.plain_repr r.document).utf8.1

theorem segmentText_concat (front : List AuditRecord) (r : AuditRecord) :
    segmentText floats (front ++ [r]) = segmentText floats front ++ recordText floats r ++ [10] := by
  rw [segmentText, List.flatMap_append, List.flatMap_singleton, List.append_assoc]
  rfl

/-- A line without its line feed is read as the same record. -/
theorem MadeRecord.loads_text (h : MadeRecord s p n previous r) :
    Json.loadsBytes s.floats (recordText s.floats r) =
      Json.loadsBytes s.floats (recordLine s.floats r) := by
  rw [h.loads]
  exact Json.loadsBytes_dumps (ordered_insertField h.ordered trivial) insertField_ne_nil

theorem TornFile.size_le (h : TornFile floats file file') :
    file.payload.length ≤ file'.payload.length := by
  obtain rfl | ⟨front, r, -, rfl, rfl⟩ := h
  · exact le_rfl
  · rw [segmentText_concat]
    simp

theorem TornFile.eq_of_whole (h : TornFile floats file file')
    (hwhole : file.payload = [] ∨ file.payload.getLast? = some 10) : file = file' := by
  obtain rfl | ⟨front, r, -, rfl, rfl⟩ := h
  · rfl
  · exfalso
    have hne := recordText_ne_nil floats r
    rcases hwhole with hnil | hlast
    · exact hne (List.append_eq_nil_iff.mp hnil).2
    · rw [List.getLast?_append, List.getLast?_eq_some_getLast hne, Option.some_or] at hlast
      have hmem : (10 : UInt8) ∈ recordText floats r :=
        Option.some.inj hlast ▸ List.getLast_mem hne
      exact notMem_recordText floats r hmem

theorem Torn.size_le (h : Torn floats dir whole) (n : ℕ) : segmentSize dir n ≤ segmentSize whole n := by
  unfold segmentSize
  obtain ⟨hd, hw⟩ | ⟨file, file', hd, hw, hfile⟩ := h.segments.get? n
  · rw [hd, hw]
  · rw [hd, hw]
    exact hfile.size_le

/-- A file that may be written to is the same in both directories. -/
theorem Torn.get?_eq (h : Torn floats dir whole) (hwhole : Whole dir n) :
    dir.segments.get? n = whole.segments.get? n := by
  obtain ⟨hd, hw⟩ | ⟨file, file', hd, hw, hfile⟩ := h.segments.get? n
  · rw [hd, hw]
  · rw [hd, hw, hfile.eq_of_whole (hwhole file hd)]

theorem Torn.append (h : Torn floats dir whole) (hwhole : Whole dir number) (payload : Bytes) :
    Torn floats (appendFile dir number payload) (appendFile whole number payload) := by
  refine ⟨h.anchor, ?_⟩
  unfold appendFile
  rw [h.get?_eq hwhole]
  exact h.segments.set number (.inl rfl)

/-- Nothing is added to a file. -/
theorem Torn.touch (h : Torn floats dir whole) :
    Torn floats (appendFile dir number []) (appendFile whole number []) := by
  refine ⟨h.anchor, h.segments.set number ?_⟩
  obtain ⟨hd, hw⟩ | ⟨file, file', hd, hw, hfile⟩ := h.segments.get? number
  · rw [hd, hw]
    exact .inl rfl
  · rw [hd, hw, Option.elim_some, Option.elim_some, List.append_nil, List.append_nil]
    obtain rfl | ⟨front, r, hloads, rfl, rfl⟩ := hfile
    · exact .inl rfl
    · exact .inr ⟨front, r, hloads, rfl, rfl⟩

/-! ## Loading -/

theorem verifyLine_text (hloads : Json.loadsBytes s.floats (recordText s.floats r) =
      Json.loadsBytes s.floats (recordLine s.floats r)) {a sequence : ℕ} {result : Option AuditRecord}
    (h : verifyLine s p a previous sequence (recordLine s.floats r) = .ok result) :
    verifyLine s p a previous sequence (recordText s.floats r) = .ok result := by
  have hlength : (recordLine s.floats r).length = (recordText s.floats r).length + 1 := by
    simp [recordLine, recordText]
  rw [verifyLine, except_bind_ok] at h ⊢
  obtain ⟨⟨⟩, hsize, h⟩ := h
  refine ⟨(), ensure_ok.mpr ?_, ?_⟩
  · have hle := ensure_ok.mp hsize
    omega
  · rw [hloads]
    exact h

/-- By induction on the lines before the last one. -/
theorem verifyLines_last {front : List Bytes} {raw raw' : Bytes} {a : ℕ}
    (hlast : ∀ previous sequence result, verifyLine s p a previous sequence raw' = .ok result →
      verifyLine s p a previous sequence raw = .ok result)
    {previous : String} {sequence : ℕ} {records : List AuditRecord}
    (h : verifyLines s p a previous sequence (front ++ [raw']) = .ok records) :
    verifyLines s p a previous sequence (front ++ [raw]) = .ok records := by
  induction front generalizing previous sequence records with
  | nil =>
    rw [List.nil_append, verifyLines, except_bind_ok] at h ⊢
    obtain ⟨result, hresult, h⟩ := h
    exact ⟨result, hlast _ _ _ hresult, h⟩
  | cons first front ih =>
    rw [List.cons_append, verifyLines, except_bind_ok] at h ⊢
    obtain ⟨result, hresult, h⟩ := h
    refine ⟨result, hresult, ?_⟩
    cases result with
    | none => exact ih h
    | some r =>
      rw [except_bind_ok] at h ⊢
      obtain ⟨records', hrecords', h⟩ := h
      exact ⟨records', ih hrecords', h⟩

theorem lines_segmentText_append (front : List AuditRecord) (rest : Bytes) :
    lines 10 (segmentText s.floats front ++ rest) =
      front.map (recordLine s.floats) ++ lines 10 rest := by
  induction front with
  | nil => rfl
  | cons r front ih =>
    have hsplit : segmentText s.floats (r :: front) ++ rest =
        recordText s.floats r ++ 10 :: (segmentText s.floats front ++ rest) := by
      simp [segmentText, recordLine, recordText]
    rw [hsplit, lines_append (notMem_recordText s.floats r), ih]
    rfl

theorem lines_text (r : AuditRecord) : lines 10 (recordText s.floats r) = [recordText s.floats r] := by
  have hmem := notMem_recordText s.floats r
  have hne := recordText_ne_nil s.floats r
  generalize recordText s.floats r = text at hmem hne
  induction text with
  | nil => exact absurd rfl hne
  | cons byte text ih =>
    obtain ⟨hbyte, htext⟩ := not_or.mp (List.mem_cons.not.mp hmem)
    rw [lines, if_neg (Ne.symm hbyte)]
    cases text with
    | nil => rfl
    | cons byte' text => rw [ih htext (by simp)]

theorem TornFile.verifySegment (h : TornFile s.floats file file') {a sequence : ℕ}
    {records : List AuditRecord}
    (hverify : verifySegment s p a previous sequence file' = .ok records) :
    verifySegment s p a previous sequence file = .ok records := by
  obtain rfl | ⟨front, r, hloads, rfl, rfl⟩ := h
  · exact hverify
  · simp only [Controlplane.verifySegment, except_bind_ok, ensure_ok, exists_const] at hverify ⊢
    obtain ⟨hprotected, hsize, hlines⟩ := hverify
    refine ⟨hprotected, ?_, ?_⟩
    · rw [segmentText_concat, List.length_append] at hsize
      omega
    · rw [lines_segmentText, List.map_append] at hlines
      rw [lines_segmentText_append, lines_text]
      exact verifyLines_last (fun _ _ _ => verifyLine_text hloads) hlines

theorem addSegment_torn (h : Torn floats dir whole) (log : AuditLog) (number : ℕ)
    (records : List AuditRecord) :
    (addSegment log dir number records).1 = (addSegment log whole number records).1 ∧
    Torn floats (addSegment log dir number records).2 (addSegment log whole number records).2 := by
  unfold addSegment
  split_ifs
  · exact ⟨rfl, h⟩
  · exact ⟨rfl, h.anchor, h.segments.erase number⟩
  · exact ⟨rfl, h⟩

/-- By induction on the files: what loads from whole files loads. -/
theorem loadSegments_torn {files files' : List (ℕ × StoredFile)}
    (hfiles : List.Forall₂ (fun q q' => q.1 = q'.1 ∧ TornFile s.floats q.2 q'.2) files files')
    (h : Torn s.floats dir whole) (hload : loadSegments s p files' log whole = .ok (log', whole')) :
    ∃ dir', loadSegments s p files log dir = .ok (log', dir') ∧ Torn s.floats dir' whole' := by
  induction hfiles generalizing log dir whole with
  | nil =>
    cases hload
    exact ⟨dir, rfl, h⟩
  | @cons q q' files files' hq _ ih =>
    obtain ⟨number, file⟩ := q
    obtain ⟨number', file'⟩ := q'
    obtain ⟨rfl, hfile⟩ := hq
    rw [loadSegments, except_bind_ok] at hload
    obtain ⟨records, hverify, hload⟩ := hload
    obtain ⟨hlog, htorn⟩ := addSegment_torn h log number records
    obtain ⟨dir', hrest, htorn'⟩ := ih htorn hload
    refine ⟨dir', ?_, htorn'⟩
    rw [loadSegments, except_bind_ok]
    refine ⟨records, hfile.verifySegment hverify, ?_⟩
    dsimp only
    rw [hlog]
    exact hrest

theorem segmentNames_eq (hsorted : dir.segments.keys.Pairwise (· < ·))
    (hlt : ∀ n ∈ dir.segments.keys, n < 100000000) : segmentNames dir = dir.segments.toList := by
  rw [segmentNames, List.filter_eq_self.mpr]
  · apply List.Pairwise.insertionSort_eq
    exact (List.pairwise_map.mp hsorted).imp fun hlt => le_of_lt hlt
  · intro item hitem
    exact decide_eq_true (hlt item.1 (List.mem_map_of_mem hitem))

/-- What is stored loads, also where the line feed at the end of a file is missing. -/
theorem Stored.load_torn (h : Stored s p history log whole b c parts) (htorn : Torn s.floats dir whole)
    (hchained : Chained s p history) (hholds : Holds history log) :
    ∃ log' dir', loadLog s p dir = .ok (log', dir') ∧ Continues log log' ∧
      ∃ whole' b c parts, Stored s p history log' whole' b c parts ∧ Torn s.floats dir' whole' := by
  obtain ⟨log', whole', hload, hcontinues, -, j, hstored⟩ := h.load hchained hholds
  have hkeys : whole.segments.keys = parts.map Prod.fst := h.keys
  have hnames : segmentNames whole = whole.segments.toList := by
    refine segmentNames_eq (hkeys ▸ h.laid.numbers) ?_
    rw [hkeys]
    intro n hn
    obtain ⟨q, hq, rfl⟩ := List.mem_map.mp hn
    exact h.numbers q.1 (h.listed q hq)
  have hnames' : segmentNames dir = dir.segments.toList := by
    refine segmentNames_eq (htorn.segments.keys ▸ hkeys ▸ h.laid.numbers) ?_
    rw [htorn.segments.keys, hkeys]
    intro n hn
    obtain ⟨q, hq, rfl⟩ := List.mem_map.mp hn
    exact h.numbers q.1 (h.listed q hq)
  simp only [loadLog, except_bind_ok, ensure_ok, exists_const] at hload
  obtain ⟨anchor, hanchor, hcount, hload⟩ := hload
  rw [hnames] at hcount hload
  obtain ⟨dir', hload', htorn'⟩ := loadSegments_torn htorn.segments htorn hload
  refine ⟨log', dir', ?_, hcontinues, whole', _, _, _, hstored, htorn'⟩
  simp only [loadLog, except_bind_ok, ensure_ok, exists_const]
  refine ⟨anchor, (loadAnchor_congr htorn.anchor).trans hanchor, ?_, ?_⟩
  · rw [hnames', htorn.segments.length_eq]
    exact hcount
  · rw [hnames']
    exact hload'

/-! ## Pruning -/

theorem unlinkSegments_torn {budget : Option ℕ} {numbers : List ℕ} {done : Bool} {removed : ℕ}
    (h : Torn floats dir whole)
    (hunlink : unlinkSegments budget numbers log dir = (done, removed, log', dir')) :
    ∃ whole', unlinkSegments budget numbers log whole = (done, removed, log', whole') ∧
      Torn floats dir' whole' := by
  induction numbers generalizing budget log dir whole done removed with
  | nil =>
    cases hunlink
    exact ⟨whole, rfl, h⟩
  | cons number numbers ih =>
    rw [unlinkSegments] at hunlink ⊢
    obtain ⟨hd, hw⟩ | ⟨file, file', hd, hw, -⟩ := h.segments.get? number
    · rw [hd] at hunlink
      rw [hw]
      exact ih h hunlink
    · rw [hd] at hunlink
      rw [hw]
      dsimp only at hunlink ⊢
      split_ifs at hunlink ⊢
      · cases hunlink
        exact ⟨whole, rfl, h⟩
      · obtain ⟨done₁, removed₁, log₁, dir₁, hrest⟩ : ∃ done₁ removed₁ log₁ dir₁,
            unlinkSegments (budget.map (· - 1)) numbers
              { log with segmentRanges := log.segmentRanges.erase number }
              { dir with segments := dir.segments.erase number } = (done₁, removed₁, log₁, dir₁) :=
          ⟨_, _, _, _, rfl⟩
        rw [hrest] at hunlink
        cases hunlink
        have htorn : Torn floats { dir with segments := dir.segments.erase number }
            { whole with segments := whole.segments.erase number } :=
          ⟨h.anchor, h.segments.erase number⟩
        obtain ⟨whole₁, hrest', htorn₁⟩ := ih htorn hrest
        exact ⟨whole₁, by rw [hrest'], htorn₁⟩

/-- A prune does the same to whole files. -/
theorem pruneExported_torn {fault : PruneFault} {through : ℕ} {expectedHash : String}
    {result : Except AuditFailure PruneResult} (h : Torn floats dir whole)
    (hprune : pruneExported s p fault through expectedHash log dir = (result, log', dir')) :
    ∃ whole', pruneExported s p fault through expectedHash log whole = (result, log', whole') ∧
      Torn floats dir' whole' := by
  unfold pruneExported at hprune ⊢
  split at hprune
  · cases hprune
    exact ⟨whole, rfl, h⟩
  · cases hprune
    exact ⟨whole, rfl, h⟩
  · dsimp only at hprune ⊢
    by_cases heligible : eligibleSegments log through = []
    · rw [if_pos heligible] at hprune ⊢
      cases hprune
      exact ⟨whole, rfl, h⟩
    · rw [if_neg heligible] at hprune ⊢
      split at hprune
      · cases hprune
        exact ⟨whole, rfl, h⟩
      next anchorRecord hrecord =>
        split at hprune
        · cases hprune
          exact ⟨whole, rfl, h⟩
        next payload hpayload =>
          by_cases hfault : fault = .anchor
          · rw [if_pos hfault] at hprune ⊢
            cases hprune
            exact ⟨whole, rfl, h⟩
          · rw [if_neg hfault] at hprune ⊢
            have hanchored (payload : Bytes) : Torn floats { dir with anchor := some ⟨payload, true⟩ }
                { whole with anchor := some ⟨payload, true⟩ } := ⟨rfl, h.segments⟩
            split at hprune
            all_goals
              next hunlink =>
                cases hprune
                obtain ⟨whole', hunlink', htorn'⟩ := unlinkSegments_torn (hanchored payload) hunlink
                rw [hunlink']
                exact ⟨whole', rfl, htorn'⟩

/-! ## Writing -/

theorem Stored.segmentSize_le (h : Stored s p history log dir b c parts) (n : ℕ) :
    segmentSize dir n ≤ s.segmentBytes + s.maxRecordBytes := by
  by_cases hn : ∃ q ∈ parts, q.1 = n
  · obtain ⟨q, hq, rfl⟩ := hn
    rw [segmentSize, get?_segments h.files hq]
    exact h.sizes q hq
  · push Not at hn
    rw [segmentSize, get?_segments_none h.files hn]
    exact Nat.zero_le _

/-- What is in a file: the lines of some records. -/
theorem Stored.before (h : Stored s p history log dir b c parts) (n : ℕ) :
    ∃ front, (dir.segments.get? n).elim [] (fun file => file.payload) =
      segmentText s.floats front := by
  by_cases hn : ∃ q ∈ parts, q.1 = n
  · obtain ⟨q, hq, rfl⟩ := hn
    exact ⟨q.2, by rw [get?_segments h.files hq]; rfl⟩
  · push Not at hn
    exact ⟨[], by rw [get?_segments_none h.files hn]; rfl⟩

/-- The whole line of a record, or all but its line feed, behind a whole file. -/
theorem Torn.cut (h : Torn s.floats dir whole) (hstored : Stored s p history log whole b c parts)
    (hwhole : Whole dir number) (hmade : MadeRecord s p n previous r)
    (hk : (recordText s.floats r).length ≤ k) :
    Torn s.floats (cutFile dir number (recordText s.floats r) k)
      (appendFile whole number (recordLine s.floats r)) := by
  have hline : recordLine s.floats r = recordText s.floats r ++ [10] := rfl
  rw [hline]
  rcases Nat.eq_or_lt_of_le hk with heq | hlt
  · -- the line feed is missing
    have htake : (recordText s.floats r ++ [10]).take k = recordText s.floats r := by
      rw [← heq, List.take_left]
    obtain ⟨front, hfront⟩ := hstored.before number
    refine ⟨h.anchor, ?_⟩
    unfold cutFile appendFile
    rw [htake, h.get?_eq hwhole]
    refine h.segments.set number (.inr ⟨front, r, hmade.loads_text, ?_, ?_⟩)
    · rw [hfront]
    · rw [hfront, segmentText_concat, List.append_assoc]
  · have htake : (recordText s.floats r ++ [10]).take k = recordText s.floats r ++ [10] := by
      apply List.take_of_length_le
      rw [List.length_append, List.length_singleton]
      exact hlt
    unfold cutFile
    rw [htake]
    exact h.append hwhole _

/-! ## What a run keeps -/

structure Kept (s : AuditSettings) (st : AuditState) (acknowledged : List AuditRecord) : Prop where
  sound : Sound s st
  stored : ∃ whole b c parts, Stored s st.provider st.history st.log whole b c parts ∧
    Torn s.floats st.dir whole
  sublist : acknowledged.Sublist st.history

theorem Kept.start (p : KeyProvider) : Kept s (AuditState.start p) [] := by
  obtain ⟨b, c, parts, hstored⟩ := (Durable.start (s := s) p).stored
  exact ⟨.start p, ⟨_, b, c, parts, hstored, .refl _⟩, List.nil_sublist _⟩

/-- A segment was taken for the record. -/
theorem Kept.taken (h : Kept s st acknowledged) (hw : Writing s st timestamp e r line number log)
    (hlt : number < 100000000) :
    ∃ whole b c parts, Stored s st.provider st.history log whole b c parts ∧
      Torn s.floats st.dir whole ∧ number ∈ log.segments ∧ (∀ q ∈ parts, q.1 ≤ number) ∧
      segmentSize st.dir number + (line.length + 1) ≤ s.segmentBytes + s.maxRecordBytes := by
  obtain ⟨whole, b, c, parts, hstored, htorn⟩ := h.stored
  obtain ⟨hmade, rfl, -⟩ := makeRecord_ok hw.record
  exact ⟨whole, b, c, parts, (hstored.reserve hw.segment htorn.size_le hlt hmade.size).1, htorn,
    (hstored.reserve hw.segment htorn.size_le hlt hmade.size).2⟩

/-- Nothing of the record was written. -/
theorem Kept.touched (h : Kept s st acknowledged) (hw : Writing s st timestamp e r line number log)
    (hlt : number < 100000000) :
    ∃ whole b c parts, Stored s st.provider st.history log whole b c parts ∧
      Torn s.floats (appendFile st.dir number []) whole := by
  obtain ⟨whole, b, c, parts, hstored, htorn, hnumber, hle, -⟩ := h.taken hw hlt
  exact ⟨_, b, c, _, hstored.touch hnumber hle (hstored.segmentSize_le number), htorn.touch⟩

/-- The line of the record was written, at least up to its line feed. -/
theorem Kept.written (h : Kept s st acknowledged) (hw : Writing s st timestamp e r line number log)
    (hlt : number < 100000000) (hwhole : Whole st.dir number) (hk : line.length ≤ k) :
    ∃ whole b c parts, Stored s st.provider (st.history ++ [r])
        { log with
          records := log.records ++ [r]
          segmentRanges := extendRange log.segmentRanges number r.sequence } whole b c parts ∧
      Torn s.floats (cutFile st.dir number line k) whole := by
  obtain ⟨whole, b, c, parts, hstored, htorn, hnumber, hle, hsize⟩ := h.taken hw hlt
  obtain ⟨hmade, rfl, -⟩ := makeRecord_ok hw.record
  obtain ⟨segments, rfl⟩ := segmentForAppend_frame hw.segment
  have hsequence : r.sequence = st.history.length + 1 := by
    rw [hmade.sequence_eq, (h.sound.holds.head h.sound.chained).1]
  have hsame : segmentSize st.dir number = segmentSize whole number := by
    rw [segmentSize, segmentSize, htorn.get?_eq hwhole]
  rw [hsame] at hsize
  exact ⟨_, b, c, _, hstored.append hnumber hle h.sound.holds.anchor_le hsequence
    (by simpa [recordLine] using hsize), htorn.cut hstored hwhole hmade hk⟩

/-- What was kept loads. -/
theorem Kept.load (h : Kept s st acknowledged) :
    ∃ log dir, loadLog s st.provider st.dir = .ok (log, dir) ∧ Continues st.log log ∧
      ∃ whole b c parts, Stored s st.provider st.history log whole b c parts ∧
        Torn s.floats dir whole := by
  obtain ⟨whole, b, c, parts, hstored, htorn⟩ := h.stored
  exact hstored.load_torn htorn h.sound.chained h.sound.holds

theorem Kept.continues (h : Kept s st acknowledged)
    (hload : loadLog s st.provider st.dir = .ok (log, dir)) : Continues st.log log := by
  obtain ⟨log', dir', hload', hcontinues, -⟩ := h.load
  rw [hload] at hload'
  cases hload'
  exact hcontinues

theorem Kept.restart (h : Kept s st acknowledged) {checkpoint : ℕ × String}
    (hload : loadLog s st.provider st.dir = .ok (log, dir))
    (hcheckpoint : reconcile st.checkpoint log = .ok checkpoint) :
    Kept s { st with log := log, dir := dir, checkpoint := checkpoint } acknowledged := by
  have hcontinues := h.continues hload
  obtain ⟨log', dir', hload', -, hstored⟩ := h.load
  rw [hload] at hload'
  cases hload'
  exact ⟨h.sound.step (.restart hload hcheckpoint) fun _ => hcontinues, hstored, h.sublist⟩

theorem Kept.reloads (h : Kept s st acknowledged) :
    Reloads s st.provider st.dir st.checkpoint acknowledged := by
  obtain ⟨log, dir, hload, hcontinues, -⟩ := h.load
  obtain ⟨checkpoint, hreconcile⟩ := h.sound.reconciles hcontinues
  refine ⟨log, dir, checkpoint, hload, h.sound.linkedFrom hcontinues, ?_, hreconcile⟩
  have hfilter := h.sound.chained.filter_drop (a := log.anchorSequence) (Nat.zero_le _)
  rw [List.drop_zero, Nat.max_eq_left (Nat.zero_le _)] at hfilter
  rw [h.sound.records_eq hcontinues, ← hfilter]
  exact h.sublist.filter _

/-- The records behind a number that a log has after it was loaded. -/
theorem Kept.found (h : Kept s st acknowledged)
    (hload : loadLog s st.provider st.dir = .ok (log, dir)) (hn : st.log.anchorSequence ≤ n) :
    log.records.filter (fun r => n < r.sequence) = st.history.drop n := by
  have hcontinues := h.continues hload
  have hanchor : log.anchorSequence ≤ n := hcontinues.anchorSequence ▸ hn
  rw [h.sound.records_eq hcontinues, h.sound.chained.filter_drop
    (hcontinues.anchorSequence ▸ h.sound.holds.anchor_le), Nat.max_eq_left hanchor]

/-- The state that a cut leaves to the next start: nothing was written, or the record was. -/
theorem Kept.cut (h : Kept s st acknowledged) (hw : Writing s st timestamp e r line number log)
    (hmeets : Recoverable s st (.crashed k timestamp e)) :
    ∃ history log', Kept s { st with
        log := log', dir := cutFile st.dir number line k, history := history } acknowledged ∧
      log'.anchorSequence = st.log.anchorSequence ∧ st.history <+: history := by
  obtain ⟨segments, hlog⟩ := segmentForAppend_frame hw.segment
  obtain ⟨hlt, rfl | ⟨hk, hwhole⟩⟩ := hmeets _ _ _ _ hw
  · obtain ⟨hchained, hholds, hsigned, hcheckpoint⟩ := h.sound
    refine ⟨st.history, log, ⟨⟨hchained, ?_, hsigned, hcheckpoint⟩, h.touched hw hlt, h.sublist⟩, ?_,
      List.prefix_rfl⟩
    · rw [hlog]
      exact hholds.of_frame
    · rw [hlog]
  · refine ⟨st.history ++ [r], _, ⟨?_, h.written hw hlt hwhole hk, h.sublist.trans
      (List.sublist_append_left _ _)⟩, ?_, List.prefix_append _ _⟩
    · subst hlog
      obtain ⟨hchained, hholds, hsigned, hcheckpoint⟩ := h.sound.written hw.record segments
        (extendRange st.log.segmentRanges number r.sequence)
      exact ⟨hchained, hholds, hsigned, hcheckpoint⟩
    · rw [hlog]

theorem append_ok_fault {fault : AppendFault}
    (h : append s p fault timestamp e log dir = (.ok r, log', dir')) : fault = .none := by
  unfold append at h
  split at h
  · cases h
  · split at h
    · cases h
    · split at h
      · cases h
      · cases fault with
        | none => rfl
        | beforeOpen => cases h
        | afterOpen => cases h

theorem append_unchecked {fault : AppendFault} {err : Raised} (hcheck : e.check s = .error err) :
    append s p fault timestamp e log dir = (.error (.raised err), log, dir) := by
  rw [append, hcheck]

/-- A call that changes neither the history nor, except for a prune, what is stored. -/
theorem Kept.frame (h : Kept s st acknowledged) (hsound : Sound s st')
    (hhistory : st'.history = st.history)
    (hstored : ∃ whole b c parts, Stored s st'.provider st'.history st'.log whole b c parts ∧
      Torn s.floats st'.dir whole) :
    Kept s st' (acknowledged ++ st'.history.drop st.history.length) := by
  refine ⟨hsound, hstored, ?_⟩
  rw [hhistory, List.drop_length, List.append_nil]
  exact h.sublist

theorem Kept.call {call : AuditCall} (h : Kept s st acknowledged) (hcall : AuditStep s st call st')
    (hmeets : Recoverable s st (.call call)) :
    Kept s st' (acknowledged ++ st'.history.drop st.history.length) := by
  have hsound : Sound s st' := by
    refine h.sound.step hcall ?_
    rintro rfl
    cases hcall with
    | restart hload _ => exact h.continues hload
  obtain ⟨whole, b, c, parts, hstored, htorn⟩ := h.stored
  cases hcall with
  | @appended fault timestamp e r log dir key happend hkey =>
    cases hcheck : e.check s with
    | error err =>
      rw [append_unchecked hcheck] at happend
      cases happend
    | ok u =>
      rcases append_cases happend with ⟨⟨err, herr⟩, -⟩ |
        ⟨r', line, number, log₁, hmake, hsegment, ⟨herr, -⟩ | ⟨hr, rfl, rfl⟩⟩
      · cases herr
      · cases herr
      · cases hr
        have hw : Writing s st timestamp e r line number log₁ := ⟨hcheck, hmake, hsegment⟩
        obtain ⟨hlt, hwhole⟩ := hmeets _ _ _ _ hw
        have hfault : fault = .none := append_ok_fault happend
        have hwritten := h.written hw hlt (hwhole hfault) (Nat.le_succ _)
        have htake : cutFile st.dir number line (line.length + 1) =
            appendFile st.dir number (line ++ [10]) := by
          unfold cutFile
          rw [List.take_of_length_le (by simp)]
        rw [htake] at hwritten
        refine ⟨hsound, hwritten, ?_⟩
        dsimp only
        rw [List.drop_left]
        exact h.sublist.append (List.Sublist.refl _)
  | @appendRaised fault timestamp e err log dir happend =>
    refine h.frame hsound rfl ?_
    cases hcheck : e.check s with
    | error err =>
      rw [append_unchecked hcheck] at happend
      cases happend
      exact ⟨whole, b, c, parts, hstored, htorn⟩
    | ok u =>
      rcases append_cases happend with ⟨-, rfl, rfl⟩ |
        ⟨r', line, number, log₁, hmake, hsegment, ⟨-, rfl, hdir⟩ | ⟨herr, -⟩⟩
      · exact ⟨whole, b, c, parts, hstored, htorn⟩
      · have hw : Writing s st timestamp e r' line number log := ⟨hcheck, hmake, hsegment⟩
        obtain ⟨hlt, -⟩ := hmeets _ _ _ _ hw
        rcases hdir with rfl | rfl
        · obtain ⟨whole', b', c', parts', hstored', htorn', -⟩ := h.taken hw hlt
          exact ⟨whole', b', c', parts', hstored', htorn'⟩
        · exact h.touched hw hlt
      · cases herr
  | pruned hprune _ =>
    obtain ⟨whole', hprune', htorn'⟩ := pruneExported_torn htorn hprune
    obtain ⟨b', c', parts', hstored'⟩ := hstored.prune h.sound.chained h.sound.holds hprune'
    exact h.frame hsound rfl ⟨whole', b', c', parts', hstored', htorn'⟩
  | anchored hprune _ _ =>
    obtain ⟨whole', hprune', htorn'⟩ := pruneExported_torn htorn hprune
    obtain ⟨b', c', parts', hstored'⟩ := hstored.prune h.sound.chained h.sound.holds hprune'
    exact h.frame hsound rfl ⟨whole', b', c', parts', hstored', htorn'⟩
  | rotate hrotates =>
    exact h.frame hsound rfl ⟨whole, b, c, parts,
      { hstored with anchor := loadAnchor_rotates hstored.anchor hrotates }, htorn⟩
  | checkpoint _ => exact h.frame hsound rfl ⟨whole, b, c, parts, hstored, htorn⟩
  | restart hload hcheckpoint =>
    exact h.frame hsound rfl (h.restart hload hcheckpoint).stored

theorem Kept.step {event : AuditEvent} {returned : List AuditRecord} (h : Kept s st acknowledged)
    (hstep : EventStep s st event returned st') (hmeets : Recoverable s st event) :
    Kept s st' (acknowledged ++ returned) := by
  cases hstep with
  | raised hw =>
    obtain ⟨hlt, rfl⟩ := hmeets _ _ _ _ hw
    obtain ⟨hchained, hholds, hsigned, hcheckpoint⟩ := h.sound
    obtain ⟨segments, hlog⟩ := segmentForAppend_frame hw.segment
    refine ⟨⟨hchained, ?_, hsigned, hcheckpoint⟩, h.touched hw hlt, ?_⟩
    · rw [hlog]
      exact hholds.of_frame
    · rw [List.append_nil]
      exact h.sublist
  | crashed hw hload hcheckpoint =>
    obtain ⟨history, log', hcut, hanchor, hhistory⟩ := h.cut hw hmeets
    have hkept := hcut.restart hload hcheckpoint
    have hfound := hcut.found hload (hanchor ▸ h.sound.holds.anchor_le)
    obtain ⟨later, rfl⟩ := hhistory
    dsimp only at hfound
    rw [List.drop_left] at hfound
    rw [hfound, List.append_nil]
    exact hkept
  | call hcall => exact h.call hcall hmeets

theorem AuditRun.kept (h : AuditRun s (Recoverable s) st acknowledged) : Kept s st acknowledged := by
  induction h with
  | start p => exact .start p
  | step _ hmeets hstep ih => exact ih.step hstep hmeets

/-- In every state of a run whose events meet the condition, and after each cut by a crash that
meets it, the directory loads with what was acknowledged, in one chain; and an append that has a
place succeeds unless there are as many files as there may be. -/
theorem audit_log_survives_cuts (hrun : AuditRun s (Recoverable s) st acknowledged) :
    Reloads s st.provider st.dir st.checkpoint acknowledged ∧
    (∀ k timestamp e r line number log, Writing s st timestamp e r line number log →
      Recoverable s st (.crashed k timestamp e) →
      Reloads s st.provider (cutFile st.dir number line k) st.checkpoint acknowledged) ∧
    ∀ timestamp e r line, e.check s = .ok () →
      makeRecord s st.provider st.log e timestamp = .ok (r, line) →
      Meets s st (.append .none timestamp e) → st.dir.segments.size < s.maxSegments →
      (append s st.provider .none timestamp e st.log st.dir).1 = .ok r := by
  have hkept := hrun.kept
  refine ⟨hkept.reloads, ?_, ?_⟩
  · intro k timestamp e r line number log hw hmeets
    obtain ⟨history, log', hcut, -, -⟩ := hkept.cut hw hmeets
    exact hcut.reloads
  · intro timestamp e r line hcheck hmake hmeets hsize
    obtain ⟨whole, b, c, parts, hstored, -⟩ := hkept.stored
    exact append_listed hstored.segments hstored.segments_le hcheck hmake hmeets hsize

end

/-- The first append of the small history. -/
theorem smallWriting : Writing smallAudit (AuditState.start smallKeys) 0 smallEntry smallRecord
    smallLine 1 { (AuditState.start smallKeys).log with segments := [1] } :=
  ⟨smallEntry_check, smallRecord_made, rfl⟩

theorem smallWriting_unique {r : AuditRecord} {line : Bytes} {number : ℕ} {log : AuditLog}
    (h : Writing smallAudit (AuditState.start smallKeys) 0 smallEntry r line number log) :
    line = smallLine ∧ number = 1 := by
  have hrecord := smallWriting.record.symm.trans h.record
  obtain ⟨-, rfl⟩ := Prod.mk.inj (Except.ok.inj hrecord)
  have hsegment := smallWriting.segment.symm.trans h.segment
  exact ⟨rfl, (Except.ok.inj (Prod.mk.inj hsegment).1).symm⟩

/-- A crash after the first line without its line feed, and the state after the first append. -/
theorem smallHistory_survives_cuts :
    Reloads smallAudit smallKeys (cutFile (AuditState.start smallKeys).dir 1 smallLine smallLine.length)
      (0, zeroHash) [] ∧
    Reloads smallAudit smallAuditState.provider smallAuditState.dir smallAuditState.checkpoint
      [smallRecord] := by
  have hwhole : Whole (AuditState.start smallKeys).dir 1 := by
    intro file hfile
    cases hfile
  refine ⟨(audit_log_survives_cuts (.start smallKeys)).2.1 smallLine.length 0 smallEntry _ _ _ _
    smallWriting ?_, (audit_log_survives_cuts (.step (.start smallKeys) ?_ (.call smallAuditState_step))).1⟩
  · intro r line number log hw
    obtain ⟨rfl, rfl⟩ := smallWriting_unique hw
    exact ⟨by decide, .inr ⟨le_rfl, hwhole⟩⟩
  · intro r line number log hw
    obtain ⟨rfl, rfl⟩ := smallWriting_unique hw
    exact ⟨by decide, fun _ => hwhole⟩

/-- The first byte of a line is in the file: the directory does not load any more. -/
theorem oneByte_refused :
    ¬ ∀ (s : AuditSettings) (st : AuditState) (acknowledged : List AuditRecord),
      AuditRun s (fun _ _ => True) st acknowledged →
      Reloads s st.provider st.dir st.checkpoint acknowledged := by
  intro h
  have hrun : AuditRun smallAudit (fun _ _ => True) _ _ :=
    .step (.start smallKeys) trivial (.raised (k := 1) smallWriting)
  obtain ⟨log, dir, checkpoint, hload, -⟩ := h _ _ _ hrun
  have hloaded : loadLog smallAudit smallKeys (cutFile (AuditState.start smallKeys).dir 1 smallLine 1) =
      .ok (log, dir) := hload
  have hrefused : (loadLog smallAudit smallKeys
      (cutFile (AuditState.start smallKeys).dir 1 smallLine 1)).toOption.isSome = false := by
    decide
  rw [hloaded] at hrefused
  cases hrefused

end Controlplane
end MegaCache
