import MegaCache.Controlplane.AuditDurability

/-!
# Runs of the audit log

Any calls of the log, with faults of the file system, rotations of the keys and restarts in
between.  As long as each append has a place for its record, what is in the directory loads with
the records that the log had, the checkpoint is accepted, and the next append succeeds unless
the directory has as many segments as it may.
-/

namespace MegaCache
namespace Controlplane

/-- The condition on a call: an append has a place for its record. -/
def Meets (s : AuditSettings) (st : AuditState) : AuditCall → Prop
  | .append _ timestamp e => ∀ r line, makeRecord s st.provider st.log e timestamp = .ok (r, line) →
      HasPlace s st.log st.dir (line.length + 1)
  | _ => True

/-- The states of runs all of whose calls meet the condition. -/
def MetRun (s : AuditSettings) (st : AuditState) : Prop :=
  ∃ p, Relation.ReflTransGen (fun st st' => ∃ call, AuditStep s st call st' ∧ Meets s st call)
    (AuditState.start p) st

/-- Records with consecutive numbers, each with the hash of the one before. -/
def LinkedFrom : ℕ → String → List AuditRecord → Prop
  | _, _, [] => True
  | n, hash, r :: rest =>
    r.sequence = n + 1 ∧ item r.body "previous_hash" = .str hash ∧ LinkedFrom (n + 1) r.hash rest

/-- Ranges that follow one another from the number after `n` up to `last`. -/
def Partitions : ℕ → List (ℕ × ℕ) → ℕ → Prop
  | n, [], last => n = last
  | n, range :: rest, last => range.1 = n + 1 ∧ n < range.2 ∧ Partitions range.2 rest last

/-- What holds in every state of such a run. -/
structure Durable (s : AuditSettings) (st : AuditState) : Prop where
  sound : Sound s st
  stored : ∃ b c parts, Stored s st.provider st.history st.log st.dir b c parts

section

variable {s : AuditSettings} {st st' : AuditState} {call : AuditCall} {p : KeyProvider}
  {history : List AuditRecord} {c n : ℕ} {parts : Parts}

theorem Chained.linkedFrom (h : Chained s p history) {l : List AuditRecord}
    (hl : history.drop n = l) : LinkedFrom n (hashAt history n) l := by
  induction l generalizing n with
  | nil => trivial
  | cons r l ih =>
    have hn : history[n]? = some r := by
      rw [← List.head?_drop, hl]
      rfl
    have hdrop : history.drop (n + 1) = l := by
      rw [← List.drop_drop, hl]
      rfl
    have hrest := ih hdrop
    rw [hashAt_succ hn] at hrest
    exact ⟨h.sequence_eq hn, (h n r hn).item_previous, hrest⟩

/-- By induction on the segments: their ranges follow one another. -/
theorem Laid.partitions (h : Laid c parts) (a : ℕ) :
    Partitions (max a c) ((rangesAfter a parts).map Prod.snd) (max a (c + parts.records.length)) := by
  induction parts generalizing c with
  | nil => rfl
  | cons q parts ih =>
    have hlength : Parts.records (q :: parts) = q.2 ++ Parts.records parts := rfl
    have hrest := ih h.tail
    rw [Nat.add_assoc, ← List.length_append, ← hlength] at hrest
    rw [rangesAfter_cons, List.map_append]
    cases hrange : rangeAfter a q.2 with
    | none =>
      have hmax : max a (c + q.2.length) = max a c := by
        rcases List.eq_nil_or_concat' q.2 with hnil | ⟨init, r, hconcat⟩
        · rw [hnil, List.length_nil, Nat.add_zero]
        · have hlast := h.head.getLast?_sequence (by rw [hconcat, List.getLast?_concat])
          have hle := rangeAfter_eq_none.mp hrange r (by rw [hconcat]; simp)
          omega
      rw [hmax] at hrest
      exact hrest
    | some range =>
      obtain ⟨heq, hlt, hne⟩ := rangeAfter_last h.head hrange
      have hpos := List.length_pos_of_ne_nil hne
      have hmax : max a (c + q.2.length) = c + q.2.length := by omega
      rw [hmax] at hrest
      subst heq
      refine ⟨rfl, ?_, hrest⟩
      show max a c < c + q.2.length
      omega

/-! ## What a run keeps -/

theorem Durable.start (p : KeyProvider) : Durable s (AuditState.start p) := by
  refine ⟨.start p, 0, 0, [], .start, rfl, le_rfl, le_rfl, rfl, ?_, rfl, rfl, ?_, List.Pairwise.nil,
    Nat.zero_le _, ?_, ?_, rfl⟩
  · exact fun q hq => nomatch hq
  · exact fun q hq => nomatch hq
  · exact fun n hn => nomatch hn
  · exact fun q hq => nomatch hq

/-- A restart goes on where the log ended. -/
theorem Durable.continues (h : Durable s st) (hstep : AuditStep s st call st')
    (hcall : call = .restart) : Continues st.log st'.log := by
  obtain ⟨b, c, parts, hstored⟩ := h.stored
  obtain ⟨log', dir', hload, hcontinues, -⟩ := hstored.load h.sound.chained h.sound.holds
  cases hstep with
  | restart hload' _ =>
    rw [hload] at hload'
    cases hload'
    exact hcontinues
  | _ => cases hcall

theorem Durable.step (h : Durable s st) (hstep : AuditStep s st call st') (hmeets : Meets s st call) :
    Durable s st' := by
  refine ⟨h.sound.step hstep (h.continues hstep), ?_⟩
  obtain ⟨⟨hchained, hholds, -, -⟩, b, c, parts, hstored⟩ := h
  have hhead := hholds.head hchained
  cases hstep with
  | @appended fault timestamp e r log dir key happend hkey =>
    rcases append_cases happend with ⟨⟨err, herr⟩, -⟩ |
      ⟨r', line, number, log₁, hmake, hsegment, ⟨herr, -⟩ | ⟨hr, rfl, rfl⟩⟩
    · cases herr
    · cases herr
    · cases hr
      obtain ⟨hmade, rfl, -⟩ := makeRecord_ok hmake
      have hlt := hstored.number_lt hsegment (hmeets r _ hmake)
      obtain ⟨hreserved, hnumber, hle, hsize⟩ :=
        hstored.reserve hsegment (fun _ => le_rfl) hlt hmade.size
      obtain ⟨segments, rfl⟩ := segmentForAppend_frame hsegment
      have hsequence : r.sequence = st.history.length + 1 := by rw [hmade.sequence_eq, hhead.1]
      have hline : (recordLine s.floats r).length =
          (Json.utf8 (Json.dumps s.floats.repr r.document)).length + 1 := by simp [recordLine]
      rw [← hline] at hsize
      exact ⟨b, c, _, hreserved.append hnumber hle hholds.anchor_le hsequence hsize⟩
  | @appendRaised fault timestamp e err log dir happend =>
    rcases append_cases happend with ⟨-, rfl, rfl⟩ |
      ⟨r', line, number, log₁, hmake, hsegment, ⟨-, rfl, hdir⟩ | ⟨herr, -⟩⟩
    · exact ⟨b, c, parts, hstored⟩
    · obtain ⟨hmade, hline, -⟩ := makeRecord_ok hmake
      have hlt := hstored.number_lt hsegment (hmeets r' _ hmake)
      obtain ⟨hreserved, hnumber, hle, hsize⟩ :=
        hstored.reserve hsegment (fun _ => le_rfl) hlt (hline ▸ hmade.size)
      rcases hdir with rfl | rfl
      · exact ⟨b, c, parts, hreserved⟩
      · exact ⟨b, c, _, hreserved.touch hnumber hle (by omega)⟩
    · cases herr
  | pruned hprune _ => exact hstored.prune hchained hholds hprune
  | anchored hprune _ _ => exact hstored.prune hchained hholds hprune
  | rotate hrotates =>
    exact ⟨b, c, parts, { hstored with anchor := loadAnchor_rotates hstored.anchor hrotates }⟩
  | checkpoint _ => exact ⟨b, c, parts, hstored⟩
  | restart hload _ =>
    obtain ⟨log', dir', hload', -, -, j, hstored'⟩ := hstored.load hchained hholds
    rw [hload'] at hload
    cases hload
    exact ⟨_, _, _, hstored'⟩

theorem MetRun.durable (h : MetRun s st) : Durable s st := by
  obtain ⟨p, hrun⟩ := h
  induction hrun with
  | refl => exact .start p
  | tail _ hstep ih =>
    obtain ⟨call, hstep, hmeets⟩ := hstep
    exact ih.step hstep hmeets

/-- Such a run is one linear history. -/
theorem MetRun.linear (h : MetRun s st) : Linear s st := by
  obtain ⟨p, hrun⟩ := h
  refine ⟨p, ?_⟩
  induction hrun with
  | refl => exact .refl
  | tail hrun hstep ih =>
    obtain ⟨call, hstep, hmeets⟩ := hstep
    have hdurable := MetRun.durable ⟨p, hrun⟩
    exact ih.tail ⟨call, hstep, hdurable.continues hstep⟩

/-- The next append of a record that can be made succeeds, unless there are too many files. -/
theorem append_listed (hsegments : st.log.segments.Pairwise (· < ·))
    (hle : st.log.segments.length ≤ s.maxSegments) {timestamp : ℚ} {e : AuditEntry} {r : AuditRecord}
    {line : Bytes} (hcheck : e.check s = .ok ())
    (hmake : makeRecord s st.provider st.log e timestamp = .ok (r, line))
    (hmeets : Meets s st (.append .none timestamp e)) (hsize : st.dir.segments.size < s.maxSegments) :
    (append s st.provider .none timestamp e st.log st.dir).1 = .ok r := by
  obtain ⟨number, log', hsegment⟩ : ∃ number log', segmentForAppend s st.log st.dir (line.length + 1) =
      (number, log') := ⟨_, _, rfl⟩
  have hnumber : ∃ n, number = .ok n := by
    rcases segmentForAppend_cases hsegment with ⟨-, hnumber, -⟩ | ⟨current, hcurrent, hcases⟩
    · exact ⟨_, hnumber⟩
    · rcases hcases with ⟨-, hnumber, -⟩ | ⟨hover, hfull, -⟩ | ⟨-, -, hnumber, -⟩
      · exact ⟨_, hnumber⟩
      · exfalso
        have hlength := le_antisymm hle hfull
        rcases hmeets r line hmake current hcurrent with hfits | ⟨-, hfiles⟩
        · omega
        · have hnodup : st.log.segments.Nodup := hsegments.imp ne_of_lt
          have hcard := (hnodup.subperm (hfiles hlength)).length_le
          rw [OrderedDict.keys, List.length_map] at hcard
          have hcount : st.dir.segments.toList.length < s.maxSegments := hsize
          omega
      · exact ⟨_, hnumber⟩
  obtain ⟨n, rfl⟩ := hnumber
  rw [append, hcheck, hmake]
  dsimp only
  rw [hsegment]

/-! ## What loads -/

section

variable {log : AuditLog}

theorem Sound.records_eq (h : Sound s st) (hlog : Continues st.log log) :
    log.records = st.history.drop log.anchorSequence := by
  obtain ⟨b, hb, hrecords⟩ := h.holds.records_eq
  rw [hlog.records, hlog.anchorSequence, hrecords,
    h.chained.filter_drop (hb.trans h.holds.anchor_le), Nat.max_eq_left hb]

/-- The records of a log that goes on are in one chain behind its anchor. -/
theorem Sound.linkedFrom (h : Sound s st) (hlog : Continues st.log log) :
    LinkedFrom log.anchorSequence log.anchorHash log.records := by
  rw [(h.holds.continues h.chained hlog).anchor_eq]
  exact h.chained.linkedFrom (h.records_eq hlog).symm

theorem Sound.reconciles (h : Sound s st) (hlog : Continues st.log log) :
    ∃ checkpoint, reconcile st.checkpoint log = .ok checkpoint := by
  obtain ⟨hsequence, hhead⟩ := (h.holds.continues h.chained hlog).head h.chained
  have hcheckpoint := h.checkpoint
  simp only [reconcile, except_bind_ok, ensure_ok, exists_const, hsequence, hhead]
  by_cases hlt : st.checkpoint.1 < st.history.length
  · exact ⟨_, hcheckpoint.1, fun heq => absurd hlt (by omega), if_pos hlt⟩
  · refine ⟨_, hcheckpoint.1, fun heq => ?_, if_neg hlt⟩
    rw [hcheckpoint.2, heq]

end

/-- In every state of a run whose appends have a place, the directory loads with the records and
the anchor that the log has, the checkpoint is accepted, and an append that has a place
succeeds unless there are as many files as there may be. -/
theorem audit_log_survives (hrun : MetRun s st) :
    (∃ log dir checkpoint, loadLog s st.provider st.dir = .ok (log, dir) ∧ Continues st.log log ∧
      LinkedFrom log.anchorSequence log.anchorHash log.records ∧
      log.segmentRanges.keys.Pairwise (· < ·) ∧
      Partitions log.anchorSequence (log.segmentRanges.toList.map Prod.snd) log.sequence ∧
      reconcile st.checkpoint log = .ok checkpoint) ∧
    ∀ timestamp e r line, e.check s = .ok () →
      makeRecord s st.provider st.log e timestamp = .ok (r, line) →
      Meets s st (.append .none timestamp e) → st.dir.segments.size < s.maxSegments →
      (append s st.provider .none timestamp e st.log st.dir).1 = .ok r := by
  obtain ⟨hsound, b, c, parts, hstored⟩ := hrun.durable
  refine ⟨?_, fun timestamp e r line hcheck hmake hmeets hsize =>
    append_listed hstored.segments hstored.segments_le hcheck hmake hmeets hsize⟩
  obtain ⟨log, dir, hload, hcontinues, hranges, -⟩ := hstored.load hsound.chained hsound.holds
  obtain ⟨checkpoint, hreconcile⟩ := hsound.reconciles hcontinues
  refine ⟨log, dir, checkpoint, hload, hcontinues, hsound.linkedFrom hcontinues, ?_, ?_, hreconcile⟩
  · rw [OrderedDict.keys, hranges, List.pairwise_map]
    exact rangesAfter_sorted hstored.laid.numbers
  · have hle := hsound.holds.anchor_le
    have hlast : c + parts.records.length = st.history.length := by
      rw [hstored.records, List.length_drop]
      have hc := hstored.stored_le
      omega
    have hpartitions := hstored.laid.partitions st.log.anchorSequence
    rw [Nat.max_eq_left hstored.stored_le, hlast, Nat.max_eq_right hle, ← hranges] at hpartitions
    rw [hcontinues.anchorSequence,
      ((hsound.holds.continues hsound.chained hcontinues).head hsound.chained).1]
    exact hpartitions

end

/-- The small history loads again, and a second append to it succeeds if it has a place. -/
theorem smallAuditState_survives :
    (∃ log dir checkpoint, loadLog smallAudit smallAuditState.provider smallAuditState.dir = .ok (log, dir) ∧
      Continues smallAuditState.log log ∧
      LinkedFrom log.anchorSequence log.anchorHash log.records ∧
      log.segmentRanges.keys.Pairwise (· < ·) ∧
      Partitions log.anchorSequence (log.segmentRanges.toList.map Prod.snd) log.sequence ∧
      reconcile smallAuditState.checkpoint log = .ok checkpoint) ∧
    ∀ timestamp e r line, e.check smallAudit = .ok () →
      makeRecord smallAudit smallAuditState.provider smallAuditState.log e timestamp = .ok (r, line) →
      Meets smallAudit smallAuditState (.append .none timestamp e) →
      smallAuditState.dir.segments.size < smallAudit.maxSegments →
      (append smallAudit smallAuditState.provider .none timestamp e smallAuditState.log smallAuditState.dir).1 =
        .ok r :=
  audit_log_survives ⟨smallKeys, .single ⟨_, smallAuditState_step, fun _ _ _ _ hlast => by cases hlast⟩⟩

/-! ## An append that is refused too early -/

/-- A log of two segments with room for one record each. -/
def twoSegments : AuditSettings :=
  ⟨⟨fun _ _ => zeroDigest, fun _ => zeroDigest⟩, plainFloats, 1024, 2, 2048, kilobyte_le, by decide,
    by decide⟩

theorem ordered_nulls (n : ℕ) : Json.OrderedItems (List.replicate n .null) := by
  induction n with
  | zero => trivial
  | succ n ih => exact ⟨trivial, ih⟩

/-- An entry whose record takes more than half of a segment. -/
def longEntry : AuditEntry :=
  ⟨"actor", "action", "ok", none, [("items", .arr (List.replicate 100 .null))],
    ⟨List.pairwise_singleton _ _, ordered_nulls 100, trivial⟩⟩

def appended (x : AuditLog × AuditDirectory) : AuditLog × AuditDirectory :=
  (append twoSegments smallKeys .none 0 longEntry x.1 x.2).2

/-- The log and the directory before the first append. -/
def nothingAppended : AuditLog × AuditDirectory :=
  ((AuditState.start smallKeys).log, (AuditState.start smallKeys).dir)

/-- After two records, a prune up to the second one whose second removal raises. -/
def halfPruned (x : AuditLog × AuditDirectory) : AuditLog × AuditDirectory :=
  (pruneExported twoSegments smallKeys (.unlink 1) 2 zeroDigest.hex x.1 x.2).2

section

variable {s : AuditSettings} {st : AuditState} {p : KeyProvider} {key : Bytes}
  {x : AuditLog × AuditDirectory}

theorem exists_append (hp : st.provider = p) (hkey : p.key p.activeKeyId = some key)
    (hst : (st.log, st.dir) = x) {timestamp : ℚ} {e : AuditEntry}
    (hok : (append s p .none timestamp e x.1 x.2).1.toOption.isSome = true) :
    ∃ st' call, AuditStep s st call st' ∧ st'.provider = p ∧
      (st'.log, st'.dir) = (append s p .none timestamp e x.1 x.2).2 := by
  subst hp hst
  obtain ⟨result, log, dir, happend⟩ : ∃ result log dir,
      append s st.provider .none timestamp e st.log st.dir = (result, log, dir) := ⟨_, _, _, rfl⟩
  rw [happend] at hok ⊢
  cases result with
  | error err => cases hok
  | ok r => exact ⟨_, _, .appended happend hkey, rfl, rfl⟩

theorem exists_prune (hp : st.provider = p) (hkey : p.key p.activeKeyId = some key)
    (hst : (st.log, st.dir) = x) (fault : PruneFault) (through : ℕ) (expectedHash : String) :
    ∃ st' call, AuditStep s st call st' ∧ st'.provider = p ∧
      (st'.log, st'.dir) = (pruneExported s p fault through expectedHash x.1 x.2).2 := by
  subst hp hst
  obtain ⟨result, log, dir, hprune⟩ : ∃ result log dir,
      pruneExported s st.provider fault through expectedHash st.log st.dir = (result, log, dir) :=
    ⟨_, _, _, rfl⟩
  rw [hprune]
  by_cases hanchor : dir.anchor = st.dir.anchor
  · exact ⟨_, _, .pruned hprune hanchor, rfl, rfl⟩
  · exact ⟨_, _, .anchored hprune hanchor hkey, rfl, rfl⟩

end

theorem halfPruned_reachable : ∃ st, Relation.ReflTransGen
    (fun st st' => ∃ call, AuditStep twoSegments st call st') (AuditState.start smallKeys) st ∧
    st.provider = smallKeys ∧
    (st.log, st.dir) = halfPruned (appended (appended nothingAppended)) := by
  have hkey : smallKeys.key smallKeys.activeKeyId = some (List.replicate 32 7) := rfl
  have hfirst : (append twoSegments smallKeys .none 0 longEntry nothingAppended.1
      nothingAppended.2).1.toOption.isSome = true := by
    decide +kernel
  have hsecond : (append twoSegments smallKeys .none 0 longEntry (appended nothingAppended).1
      (appended nothingAppended).2).1.toOption.isSome = true := by
    decide +kernel
  obtain ⟨st₁, call₁, hstep₁, hp₁, hst₁⟩ :=
    @exists_append twoSegments (AuditState.start smallKeys) smallKeys _ nothingAppended rfl hkey rfl 0
      longEntry hfirst
  have hone : (st₁.log, st₁.dir) = appended nothingAppended := hst₁
  obtain ⟨st₂, call₂, hstep₂, hp₂, hst₂⟩ := exists_append hp₁ hkey hone hsecond
  have htwo : (st₂.log, st₂.dir) = appended (appended nothingAppended) := hst₂
  obtain ⟨st₃, call₃, hstep₃, hp₃, hst₃⟩ :=
    @exists_prune twoSegments _ _ _ _ hp₂ hkey htwo (.unlink 1) 2 zeroDigest.hex
  have hpruned : (st₃.log, st₃.dir) = halfPruned (appended (appended nothingAppended)) := hst₃
  exact ⟨st₃, ((Relation.ReflTransGen.single ⟨call₁, hstep₁⟩).tail ⟨call₂, hstep₂⟩).tail
    ⟨call₃, hstep₃⟩, hp₃, hpruned⟩

theorem halfPruned_refused :
    (halfPruned (appended (appended nothingAppended))).2.segments.size < twoSegments.maxSegments ∧
    (makeRecord twoSegments smallKeys (halfPruned (appended (appended nothingAppended))).1 longEntry
      0).toOption.isSome = true ∧
    (append twoSegments smallKeys .none 0 longEntry
      (halfPruned (appended (appended nothingAppended))).1
      (halfPruned (appended (appended nothingAppended))).2).1.toOption.isSome = false := by
  decide +kernel

theorem exists_ok {ε α : Type} {x : Except ε α} (h : x.toOption.isSome = true) : ∃ a, x = .ok a := by
  cases x with
  | error e => cases h
  | ok a => exact ⟨a, rfl⟩

theorem exists_error {ε α : Type} {x : Except ε α} (h : x.toOption.isSome = false) :
    ∃ e, x = .error e := by
  cases x with
  | error e => exact ⟨e, rfl⟩
  | ok a => cases h

/-- With one file of two left, an append that needs another one is refused: the removed segment is
still counted. -/
theorem append_refused_early : ∃ st, Relation.ReflTransGen
    (fun st st' => ∃ call, AuditStep twoSegments st call st') (AuditState.start smallKeys) st ∧
    st.dir.segments.size < twoSegments.maxSegments ∧ longEntry.check twoSegments = .ok () ∧
    (∃ made, makeRecord twoSegments st.provider st.log longEntry 0 = .ok made) ∧
    ∃ err, (append twoSegments st.provider .none 0 longEntry st.log st.dir).1 = .error err := by
  obtain ⟨st, hrun, hp, hst⟩ := halfPruned_reachable
  obtain ⟨hsize, hmake, hrefused⟩ := halfPruned_refused
  have hcheck : (longEntry.check twoSegments).toOption.isSome = true := by
    decide +kernel
  rw [← hst] at hsize
  rw [← hst, ← hp] at hmake hrefused
  obtain ⟨u, hu⟩ := exists_ok hcheck
  exact ⟨st, hrun, hsize, hu, exists_ok hmake, exists_error hrefused⟩

end Controlplane
end MegaCache
