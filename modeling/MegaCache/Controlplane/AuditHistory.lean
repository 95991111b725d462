import MegaCache.Controlplane.AuditLog

/-!
# Genuine histories of the audit log

The calls of one log with the directory it works on, the checkpoint that the control plane
keeps of it, and what its calls have made: the records, the anchors and the messages whose
codes they have written.  Whatever directory can be made of these codes and of other bytes,
what loads of it is a part of the history behind one of its anchors.
-/

namespace MegaCache
namespace Controlplane

/-- `_reconcile_audit_checkpoint`: the checkpoint that is kept afterwards. -/
def reconcile (checkpoint : ℕ × String) (log : AuditLog) : Except Raised (ℕ × String) := do
  ensure (checkpoint.1 ≤ log.sequence) (.failure ⟨.controlPlaneError,
    "audit history is missing records referenced by state"⟩)
  ensure (log.sequence = checkpoint.1 → log.headHash = checkpoint.2) (.failure ⟨.controlPlaneError,
    "audit checkpoint does not match retained audit history"⟩)
  if checkpoint.1 < log.sequence then .ok (log.sequence, log.headHash) else .ok checkpoint

/-! ## The calls of a log -/

/-- The canonical text of an object. -/
def objectText (floats : Json.FloatText) (items : List (String × Json)) : Bytes :=
  Json.utf8 (Json.dumps floats.repr (.obj items))

/-- A log with its directory and its checkpoint, and what its calls have made. -/
structure AuditState where
  provider : KeyProvider
  dir : AuditDirectory
  log : AuditLog
  checkpoint : ℕ × String
  history : List AuditRecord
  anchors : List (ℕ × String)
  signed : List (Bytes × Bytes)

/-- The log of an empty directory. -/
def AuditState.start (p : KeyProvider) : AuditState :=
  ⟨p, ⟨none, OrderedDict.empty⟩, ⟨0, zeroHash, [], [], OrderedDict.empty⟩, (0, zeroHash), [], [], []⟩

inductive AuditCall
  | append (fault : AppendFault) (timestamp : ℚ) (e : AuditEntry)
  | prune (fault : PruneFault) (through : ℕ) (expectedHash : String)
  | rotate
  | checkpoint
  | restart

/-- A call of the log, whether it returns or raises, a rotation of the keys that keeps the old
ones, the storing of a record as the checkpoint, or a restart with the directory as it is. -/
inductive AuditStep (s : AuditSettings) : AuditState → AuditCall → AuditState → Prop
  | appended {st : AuditState} {fault : AppendFault} {timestamp : ℚ} {e : AuditEntry}
      {r : AuditRecord} {log : AuditLog} {dir : AuditDirectory} {key : Bytes}
      (h : append s st.provider fault timestamp e st.log st.dir = (.ok r, log, dir))
      (hkey : st.provider.key st.provider.activeKeyId = some key) :
      AuditStep s st (.append fault timestamp e) { st with
        log := log, dir := dir, history := st.history ++ [r]
        signed := (auditKey s.hashes key "audit-record", objectText s.floats r.body) :: st.signed }
  | appendRaised {st : AuditState} {fault : AppendFault} {timestamp : ℚ} {e : AuditEntry}
      {err : AuditFailure} {log : AuditLog} {dir : AuditDirectory}
      (h : append s st.provider fault timestamp e st.log st.dir = (.error err, log, dir)) :
      AuditStep s st (.append fault timestamp e) { st with log := log, dir := dir }
  | pruned {st : AuditState} {fault : PruneFault} {through : ℕ} {expectedHash : String}
      {result : Except AuditFailure PruneResult} {log : AuditLog} {dir : AuditDirectory}
      (h : pruneExported s st.provider fault through expectedHash st.log st.dir = (result, log, dir))
      (hanchor : dir.anchor = st.dir.anchor) :
      AuditStep s st (.prune fault through expectedHash) { st with log := log, dir := dir }
  | anchored {st : AuditState} {fault : PruneFault} {through : ℕ} {expectedHash : String}
      {result : Except AuditFailure PruneResult} {log : AuditLog} {dir : AuditDirectory} {key : Bytes}
      (h : pruneExported s st.provider fault through expectedHash st.log st.dir = (result, log, dir))
      (hanchor : dir.anchor ≠ st.dir.anchor)
      (hkey : st.provider.key st.provider.activeKeyId = some key) :
      AuditStep s st (.prune fault through expectedHash) { st with
        log := log, dir := dir, anchors := (log.anchorSequence, log.anchorHash) :: st.anchors
        signed := (auditKey s.hashes key "audit-anchor", objectText s.floats
          (anchorBody log.anchorSequence log.anchorHash st.provider.activeKeyId)) :: st.signed }
  | rotate {st : AuditState} {p : KeyProvider} (h : st.provider.Rotates p) :
      AuditStep s st .rotate { st with provider := p }
  | checkpoint {st : AuditState} {r : AuditRecord} (h : r ∈ st.history) :
      AuditStep s st .checkpoint { st with checkpoint := (r.sequence, r.hash) }
  | restart {st : AuditState} {log : AuditLog} {dir : AuditDirectory} {checkpoint : ℕ × String}
      (hload : loadLog s st.provider st.dir = .ok (log, dir))
      (hcheckpoint : reconcile st.checkpoint log = .ok checkpoint) :
      AuditStep s st .restart { st with log := log, dir := dir, checkpoint := checkpoint }

/-- A log that goes on where the other one ended. -/
structure Continues (log log' : AuditLog) : Prop where
  anchorSequence : log'.anchorSequence = log.anchorSequence
  anchorHash : log'.anchorHash = log.anchorHash
  records : log'.records = log.records.filter fun r => log.anchorSequence < r.sequence

/-- The states of one linear history: after a restart the log goes on where it ended. -/
def Linear (s : AuditSettings) (st : AuditState) : Prop :=
  ∃ p, Relation.ReflTransGen (fun st st' => ∃ call, AuditStep s st call st' ∧
    (call = .restart → Continues st.log st'.log)) (AuditState.start p) st

/-! ## Objects and their text -/

section

variable {floats : Json.FloatText} {items items' : List (String × Json)}

theorem lookup_filter_ne {name other : String} (h : name ≠ other) :
    (items.filter fun p => p.1 ≠ other).lookup name = items.lookup name := by
  induction items with
  | nil => rfl
  | cons p items ih =>
    by_cases hp : p.1 = other
    · have hname : (name == p.1) = false := by simp [hp, h]
      rw [List.filter_cons_of_neg (by simp [hp]), ih, List.lookup_cons, hname]
    · rw [List.filter_cons_of_pos (by simp [hp]), List.lookup_cons, List.lookup_cons, ih]

theorem item_filter_ne {name other : String} (h : name ≠ other) :
    item (items.filter fun p => p.1 ≠ other) name = item items name := by
  rw [item, item, lookup_filter_ne h]

theorem ordered_insertField {name : String} {value : Json} (h : (Json.obj items).Ordered)
    (hv : value.Ordered) : (Json.obj (Json.insertField name value items)).Ordered :=
  ⟨Json.insertField_sorted h.1, h.2.insertField hv⟩

theorem insertField_ne_nil {name : String} {value : Json} : Json.insertField name value items ≠ [] := by
  cases items with
  | nil => simp [Json.insertField]
  | cons p items =>
    unfold Json.insertField
    split_ifs <;> simp

theorem item_insertField {name : String} {value : Json} :
    item (Json.insertField name value items) name = value := by
  induction items with
  | nil => simp [Json.insertField, item]
  | cons p items ih =>
    unfold Json.insertField
    split_ifs with hlt heq
    · simp [item]
    · simp [item]
    · have hname : (name == p.1) = false := by simp [heq]
      rw [item, List.lookup_cons, hname]
      exact ih

/-- Without the new item the object is what it was. -/
theorem filter_insertField {name : String} {value : Json} (h : name ∉ items.map Prod.fst) :
    (Json.insertField name value items).filter (fun p => p.1 ≠ name) = items := by
  induction items with
  | nil => simp [Json.insertField]
  | cons p items ih =>
    have hne : p.1 ≠ name := fun heq => h (by simp [heq])
    have hrest : name ∉ items.map Prod.fst := fun hmem => h (List.mem_cons_of_mem _ hmem)
    have hself : items.filter (fun p => p.1 ≠ name) = items := by
      rw [List.filter_eq_self]
      intro q hq
      have hq' : q.1 ≠ name := fun heq => hrest (heq ▸ List.mem_map_of_mem hq)
      simpa using hq'
    unfold Json.insertField
    split_ifs with hlt heq
    · rw [List.filter_cons_of_neg (by simp), List.filter_cons_of_pos (by simpa using hne), hself]
    · exact absurd heq.symm hne
    · rw [List.filter_cons_of_pos (by simpa using hne), ih hrest]

theorem finite_insertField {name : String} {value : Json} (h : (Json.obj items).finite = true)
    (hv : value.finite = true) : (Json.obj (Json.insertField name value items)).finite = true := by
  simp only [Json.finite] at h ⊢
  induction items with
  | nil => simp [Json.insertField, Json.finiteFields, hv]
  | cons p items ih =>
    rw [Json.finiteFields, Bool.and_eq_true] at h
    unfold Json.insertField
    split_ifs
    · simp [Json.finiteFields, hv, h.1, h.2]
    · simp [Json.finiteFields, hv, h.2]
    · simp [Json.finiteFields, h.1, ih h.2]

end

/-! ## Records of a history -/

/-- The hash of the record with this number, `_ZERO_HASH` for the number 0. -/
def hashAt (history : List AuditRecord) : ℕ → String
  | 0 => zeroHash
  | n + 1 => (history[n]?.map AuditRecord.hash).getD zeroHash

/-- The record that `append` makes with the number `n + 1` after the hash `previous`. -/
structure MadeRecord (s : AuditSettings) (p : KeyProvider) (n : ℕ) (previous : String)
    (r : AuditRecord) : Prop where
  body : ∃ timestamp keyId tenantNamespace actor action outcome details key,
    r.body = recordBody (n + 1) timestamp keyId previous tenantNamespace actor action outcome
      details ∧
    details.Ordered ∧ details.finite = true ∧ isIdentifier keyId = true ∧
    p.key keyId = some key ∧
    r.hash = (s.hashes.hmac (auditKey s.hashes key "audit-record") (objectText s.floats r.body)).hex
  size : (Json.utf8 (Json.dumps s.floats.repr r.document)).length + 1 ≤ s.maxRecordBytes

section

variable {s : AuditSettings} {p p' : KeyProvider} {n : ℕ} {previous : String} {r : AuditRecord}

theorem names_recordBody (sequence : ℕ) (timestamp : ℚ) (keyId previousHash : String)
    (tenantNamespace : Option String) (actor action outcome : String) (details : Json) :
    (recordBody sequence timestamp keyId previousHash tenantNamespace actor action outcome
      details).map Prod.fst = ["action", "actor", "details", "key_id", "outcome", "previous_hash",
        "sequence", "tenant_namespace", "timestamp", "version"] := rfl

namespace MadeRecord

theorem names (h : MadeRecord s p n previous r) : r.body.map Prod.fst = ["action", "actor",
    "details", "key_id", "outcome", "previous_hash", "sequence", "tenant_namespace", "timestamp",
    "version"] := by
  obtain ⟨timestamp, keyId, tenantNamespace, actor, action, outcome, details, key, hbody, -⟩ := h.body
  rw [hbody, names_recordBody]

theorem ordered (h : MadeRecord s p n previous r) : (Json.obj r.body).Ordered := by
  refine ⟨?_, ?_⟩
  · rw [h.names]
    decide
  · obtain ⟨timestamp, keyId, tenantNamespace, actor, action, outcome, details, key, hbody, hordered,
      -⟩ := h.body
    rw [hbody]
    cases tenantNamespace <;> simp [recordBody, Json.OrderedFields, Json.Ordered, hordered]

theorem finite (h : MadeRecord s p n previous r) : (Json.obj r.body).finite = true := by
  obtain ⟨timestamp, keyId, tenantNamespace, actor, action, outcome, details, key, hbody, -, hfinite,
    -⟩ := h.body
  rw [hbody]
  cases tenantNamespace <;> simp [recordBody, Json.finite, Json.finiteFields, hfinite]

theorem item_sequence (h : MadeRecord s p n previous r) : item r.body "sequence" = .int (n + 1) := by
  obtain ⟨timestamp, keyId, tenantNamespace, actor, action, outcome, details, key, hbody, -⟩ := h.body
  rw [hbody]
  simp [recordBody, item, List.lookup]

theorem item_previous (h : MadeRecord s p n previous r) :
    item r.body "previous_hash" = .str previous := by
  obtain ⟨timestamp, keyId, tenantNamespace, actor, action, outcome, details, key, hbody, -⟩ := h.body
  rw [hbody]
  simp [recordBody, item, List.lookup]

theorem sequence_eq (h : MadeRecord s p n previous r) : r.sequence = n + 1 := by
  obtain ⟨timestamp, keyId, tenantNamespace, actor, action, outcome, details, key, hbody, -⟩ := h.body
  rw [AuditRecord.sequence, hbody]
  simp [recordBody, List.lookup]

theorem rotates (h : MadeRecord s p n previous r) (hp : p.Rotates p') :
    MadeRecord s p' n previous r := by
  obtain ⟨timestamp, keyId, tenantNamespace, actor, action, outcome, details, key, hbody, hordered,
    hfinite, hident, hkey, hhash⟩ := h.body
  exact ⟨⟨timestamp, keyId, tenantNamespace, actor, action, outcome, details, key, hbody, hordered,
    hfinite, hident, hp _ _ hkey, hhash⟩, h.size⟩

end MadeRecord

/-- What `append` makes of an entry. -/
theorem makeRecord_ok {log : AuditLog} {e : AuditEntry} {timestamp : ℚ} {line : Bytes}
    (h : makeRecord s p log e timestamp = .ok (r, line)) :
    MadeRecord s p log.sequence log.headHash r ∧
      line = Json.utf8 (Json.dumps s.floats.repr r.document) ∧
      ∀ key, p.key p.activeKeyId = some key → r.hash =
        (s.hashes.hmac (auditKey s.hashes key "audit-record") (objectText s.floats r.body)).hex := by
  simp only [makeRecord, except_bind_ok, ensure_ok, raised_ok, canonical_ok, KeyProvider.get_ok,
    exists_const] at h
  obtain ⟨key, hkey, message, ⟨hfinite, hmessage⟩, line', ⟨-, hline⟩, hsize, h⟩ := h
  simp only [Except.ok.injEq, Prod.mk.injEq] at h
  obtain ⟨hr, rfl⟩ := h
  subst hmessage
  have hdetails : (Json.obj e.details).finite = true := by
    simp only [recordBody, Json.finite, Json.finiteFields, Bool.and_eq_true] at hfinite
    exact hfinite.2.2.1
  refine ⟨⟨⟨timestamp, p.activeKeyId, e.tenantNamespace, e.actor, e.action, e.outcome,
    .obj e.details, key, ?_, e.details_ordered, hdetails, p.activeKeyId_ok, hkey, ?_⟩, ?_⟩, ?_, ?_⟩
  · rw [← hr]
  · rw [← hr]
    rfl
  · rw [← hr, ← hline]
    exact hsize
  · rw [← hr]
    exact hline
  · intro key' hkey'
    rw [hkey] at hkey'
    cases hkey'
    rw [← hr]
    rfl

theorem hashAt_append (history : List AuditRecord) (r : AuditRecord) {n : ℕ}
    (h : n ≤ history.length) : hashAt (history ++ [r]) n = hashAt history n := by
  cases n with
  | zero => rfl
  | succ n => rw [hashAt, hashAt, List.getElem?_append_left h]

theorem hashAt_succ {history : List AuditRecord} {n : ℕ} (h : history[n]? = some r) :
    hashAt history (n + 1) = r.hash := by
  rw [hashAt, h]
  rfl

end

/-- Records with the numbers after `n`. -/
def Numbered : ℕ → List AuditRecord → Prop
  | _, [] => True
  | n, r :: rest => r.sequence = n + 1 ∧ Numbered (n + 1) rest

namespace Numbered

variable {n a : ℕ} {l l' : List AuditRecord} {r : AuditRecord}

theorem append_iff : Numbered n (l ++ l') ↔ Numbered n l ∧ Numbered (n + l.length) l' := by
  induction l generalizing n with
  | nil => simp [Numbered]
  | cons r l ih =>
    have hn : n + (l.length + 1) = n + 1 + l.length := by omega
    rw [List.cons_append, Numbered, Numbered, ih, List.length_cons, hn, and_assoc]

theorem drop (h : Numbered n l) (k : ℕ) : Numbered (n + min k l.length) (l.drop k) := by
  rw [← List.take_append_drop k l, append_iff, List.length_take] at h
  exact h.2

theorem lt_of_mem (h : Numbered n l) (hr : r ∈ l) : n < r.sequence ∧ r.sequence ≤ n + l.length := by
  induction l generalizing n with
  | nil => cases hr
  | cons q l ih =>
    rw [List.length_cons]
    rcases List.mem_cons.mp hr with rfl | hr
    · have hsequence := h.1
      omega
    · have hrest := ih h.2 hr
      omega

/-- The records with the numbers after `a`. -/
theorem filter_eq (h : Numbered n l) (a : ℕ) :
    l.filter (fun r => a < r.sequence) = l.drop (a - n) := by
  induction l generalizing n with
  | nil => simp
  | cons r l ih =>
    rcases Nat.lt_or_ge a (n + 1) with ha | ha
    · have hall : ∀ q ∈ r :: l, decide (a < q.sequence) = true := by
        intro q hq
        have hlt := h.lt_of_mem hq
        exact decide_eq_true (by omega)
      have hzero : a - n = 0 := by omega
      rw [List.filter_eq_self.mpr hall, hzero, List.drop_zero]
    · have hsequence := h.1
      have hsucc : a - n = a - (n + 1) + 1 := by omega
      rw [List.filter_cons_of_neg (by simpa using by omega), ih h.2, hsucc, List.drop_succ_cons]

/-- The number of a record says where it stands. -/
theorem find?_eq (h : Numbered n l) (hr : r ∈ l) :
    l.find? (fun q => q.sequence = r.sequence) = some r := by
  induction l generalizing n with
  | nil => cases hr
  | cons q l ih =>
    rcases List.mem_cons.mp hr with rfl | hr
    · rw [List.find?_cons_of_pos (by simp)]
    · have hlt := h.2.lt_of_mem hr
      have hq := h.1
      rw [List.find?_cons_of_neg (by simpa using by omega), ih h.2 hr]

theorem getLast?_sequence (h : Numbered n l) (hr : l.getLast? = some r) :
    r.sequence = n + l.length := by
  obtain ⟨init, rfl⟩ := List.getLast?_eq_some_iff.mp hr
  have hlast := (append_iff.mp h).2.1
  rw [List.length_append, List.length_singleton]
  omega

end Numbered

/-- The records of a history: numbered from 1 on, each after the hash of the one before. -/
def Chained (s : AuditSettings) (p : KeyProvider) (history : List AuditRecord) : Prop :=
  ∀ n r, history[n]? = some r → MadeRecord s p n (hashAt history n) r

section

variable {s : AuditSettings} {p p' : KeyProvider} {history : List AuditRecord} {r : AuditRecord}

theorem Chained.append (h : Chained s p history)
    (hr : MadeRecord s p history.length (hashAt history history.length) r) :
    Chained s p (history ++ [r]) := by
  intro n r' hn
  have hlt : n < (history ++ [r]).length := (List.getElem?_eq_some_iff.mp hn).1
  rw [List.length_append, List.length_singleton] at hlt
  rw [hashAt_append history r (by omega)]
  rcases Nat.lt_or_ge n history.length with hn' | hn'
  · rw [List.getElem?_append_left hn'] at hn
    exact h n r' hn
  · obtain rfl : n = history.length := by omega
    rw [List.getElem?_concat_length] at hn
    cases hn
    exact hr

theorem Chained.rotates (h : Chained s p history) (hp : p.Rotates p') : Chained s p' history :=
  fun n r hn => (h n r hn).rotates hp

theorem Chained.sequence_eq (h : Chained s p history) {n : ℕ} (hn : history[n]? = some r) :
    r.sequence = n + 1 := (h n r hn).sequence_eq

theorem Chained.numbered (h : Chained s p history) : Numbered 0 history := by
  induction history using List.reverseRecOn with
  | nil => trivial
  | append_singleton history r ih =>
    have hinit : Chained s p history := by
      intro n q hn
      have hlt : n < history.length := (List.getElem?_eq_some_iff.mp hn).1
      rw [← hashAt_append history r hlt.le]
      exact h n q (by rw [List.getElem?_append_left hlt, hn])
    have hr := h.sequence_eq (List.getElem?_concat_length (l := history) (a := r))
    exact Numbered.append_iff.mpr ⟨ih hinit, by omega, trivial⟩

/-- The number of a record says where it stands. -/
theorem Chained.getElem_of_mem (h : Chained s p history) (hr : r ∈ history) :
    0 < r.sequence ∧ r.sequence ≤ history.length ∧ history[r.sequence - 1]? = some r := by
  obtain ⟨n, hn⟩ := List.mem_iff_getElem?.mp hr
  have hsequence := h.sequence_eq hn
  have hlt : n < history.length := (List.getElem?_eq_some_iff.mp hn).1
  refine ⟨by omega, by omega, ?_⟩
  rw [hsequence, Nat.add_sub_cancel]
  exact hn

theorem Chained.hashAt_sequence (h : Chained s p history) (hr : r ∈ history) :
    hashAt history r.sequence = r.hash := by
  obtain ⟨hpos, -, hget⟩ := h.getElem_of_mem hr
  have hsucc : r.sequence = r.sequence - 1 + 1 := by omega
  rw [hsucc]
  exact hashAt_succ hget

/-- The records after the number `a` among those after the number `b`. -/
theorem Chained.filter_drop (h : Chained s p history) {a b : ℕ} (hb : b ≤ history.length) :
    (history.drop b).filter (fun r => a < r.sequence) = history.drop (max a b) := by
  have hnumbered := h.numbered.drop b
  rw [Nat.zero_add, Nat.min_eq_left hb] at hnumbered
  rw [hnumbered.filter_eq, List.drop_drop]
  congr 1
  omega

end

/-! ## What stands behind a state -/

/-- The log in memory holds the records of the history after some number up to its anchor. -/
structure Holds (history : List AuditRecord) (log : AuditLog) : Prop where
  anchor_le : log.anchorSequence ≤ history.length
  anchor_eq : log.anchorHash = hashAt history log.anchorSequence
  records_eq : ∃ b ≤ log.anchorSequence, log.records = history.drop b

section

variable {s : AuditSettings} {p : KeyProvider} {history : List AuditRecord} {log log' : AuditLog}

theorem getLast?_drop {b : ℕ} (h : b < history.length) :
    (history.drop b).getLast? = history.getLast? := by
  rw [List.getLast?_drop, if_neg (by omega)]

/-- The log in memory ends where the history ends. -/
theorem Holds.head (h : Holds history log) (hchained : Chained s p history) :
    log.sequence = history.length ∧ log.headHash = hashAt history history.length := by
  obtain ⟨b, hb, hrecords⟩ := h.records_eq
  have hle := h.anchor_le
  rcases Nat.lt_or_ge b history.length with hlt | hge
  · obtain ⟨r, hr⟩ : ∃ r, history.getLast? = some r := by
      rw [← Option.isSome_iff_exists, List.getLast?_isSome]
      rintro rfl
      simp at hlt
    have hsequence : r.sequence = history.length := by
      rw [hchained.numbered.getLast?_sequence hr, Nat.zero_add]
    have hmem := List.mem_of_getLast? hr
    simp only [AuditLog.sequence, AuditLog.headHash, hrecords, getLast?_drop hlt, hr]
    exact ⟨hsequence, by rw [← hsequence, hchained.hashAt_sequence hmem]⟩
  · have hnil : log.records = [] := by rw [hrecords, List.drop_eq_nil_iff.mpr hge]
    have hend : log.anchorSequence = history.length := by omega
    simp only [AuditLog.sequence, AuditLog.headHash, hnil, List.getLast?_nil]
    exact ⟨hend, by rw [h.anchor_eq, hend]⟩

theorem Holds.mem (h : Holds history log) {r : AuditRecord} (hr : r ∈ log.records) : r ∈ history := by
  obtain ⟨b, -, hrecords⟩ := h.records_eq
  exact List.mem_of_mem_drop (hrecords ▸ hr)

/-- A log that goes on where another ended holds the same history. -/
theorem Holds.continues (h : Holds history log) (hchained : Chained s p history)
    (hlog : Continues log log') : Holds history log' := by
  obtain ⟨b, hb, hrecords⟩ := h.records_eq
  have hle := h.anchor_le
  refine ⟨hlog.anchorSequence ▸ hle, ?_, log.anchorSequence, hlog.anchorSequence ▸ le_rfl, ?_⟩
  · rw [hlog.anchorHash, hlog.anchorSequence, h.anchor_eq]
  · rw [hlog.records, hrecords, hchained.filter_drop (by omega), Nat.max_eq_left hb]

end

/-- A message whose code was written: the body of a record, whose hash is the code, or an
anchor. -/
def Genuine (s : AuditSettings) (st : AuditState) (key message : Bytes) : Prop :=
  (∃ r ∈ st.history, message = objectText s.floats r.body ∧ r.hash = (s.hashes.hmac key message).hex) ∨
  ∃ a ∈ st.anchors, ∃ keyId, message = objectText s.floats (anchorBody a.1 a.2 keyId)

/-- What holds in every state of a linear history. -/
structure Sound (s : AuditSettings) (st : AuditState) : Prop where
  chained : Chained s st.provider st.history
  holds : Holds st.history st.log
  signed : ∀ q ∈ st.signed, Genuine s st q.1 q.2
  checkpoint : st.checkpoint.1 ≤ st.history.length ∧
    st.checkpoint.2 = hashAt st.history st.checkpoint.1

/-! ## What a call does -/

section

variable {s : AuditSettings} {p : KeyProvider} {log log' : AuditLog} {dir dir' : AuditDirectory}

/-- The segment for the next record: the first one, the last one if the record fits into it,
or a new one unless there are too many. -/
theorem segmentForAppend_cases {payloadBytes : ℕ} {number : Except Raised ℕ}
    (h : segmentForAppend s log dir payloadBytes = (number, log')) :
    (log.segments = [] ∧ number = .ok 1 ∧ log' = { log with segments := [1] }) ∨
    ∃ current, log.segments.getLast? = some current ∧
      ((segmentSize dir current + payloadBytes ≤ s.segmentBytes ∧ number = .ok current ∧ log' = log) ∨
        (s.segmentBytes < segmentSize dir current + payloadBytes ∧
          s.maxSegments ≤ log.segments.length ∧ (∃ err, number = .error err) ∧ log' = log) ∨
        (s.segmentBytes < segmentSize dir current + payloadBytes ∧
          log.segments.length < s.maxSegments ∧ number = .ok (current + 1) ∧
          log' = { log with segments := log.segments ++ [current + 1] })) := by
  unfold segmentForAppend at h
  split at h
  next hlast =>
    cases h
    exact .inl ⟨List.getLast?_eq_none_iff.mp hlast, rfl, rfl⟩
  next current hlast =>
    refine .inr ⟨current, hlast, ?_⟩
    split_ifs at h with hfits hfull <;> cases h
    · exact .inl ⟨hfits, rfl, rfl⟩
    · exact .inr (.inl ⟨not_le.mp hfits, hfull, ⟨_, rfl⟩, rfl⟩)
    · exact .inr (.inr ⟨not_le.mp hfits, not_le.mp hfull, rfl, rfl⟩)

theorem segmentForAppend_error {payloadBytes : ℕ} {err : Raised}
    (h : segmentForAppend s log dir payloadBytes = (.error err, log')) : log' = log := by
  rcases segmentForAppend_cases h with ⟨-, hnumber, -⟩ | ⟨current, -, h⟩
  · cases hnumber
  · rcases h with ⟨-, -, hlog⟩ | ⟨-, -, -, hlog⟩ | ⟨-, -, hnumber, -⟩
    · exact hlog
    · exact hlog
    · cases hnumber

/-- A record on its way changes the list of the segments only. -/
theorem segmentForAppend_frame {payloadBytes : ℕ} {number : Except Raised ℕ}
    (h : segmentForAppend s log dir payloadBytes = (number, log')) :
    ∃ segments, log' = { log with segments := segments } := by
  rcases segmentForAppend_cases h with ⟨-, -, hlog⟩ | ⟨current, -, h⟩
  · exact ⟨_, hlog⟩
  · rcases h with ⟨-, -, hlog⟩ | ⟨-, -, -, hlog⟩ | ⟨-, -, -, hlog⟩
    · exact ⟨_, hlog⟩
    · exact ⟨_, hlog⟩
    · exact ⟨_, hlog⟩

/-- The ways in which `append` ends: before it has a segment, while it opens the file, and
with the record in memory and in the file. -/
theorem append_cases {fault : AppendFault} {timestamp : ℚ} {e : AuditEntry}
    {result : Except AuditFailure AuditRecord}
    (h : append s p fault timestamp e log dir = (result, log', dir')) :
    ((∃ err, result = .error err) ∧ log' = log ∧ dir' = dir) ∨
    ∃ r line number log₁, makeRecord s p log e timestamp = .ok (r, line) ∧
      segmentForAppend s log dir (line.length + 1) = (.ok number, log₁) ∧
      ((result = .error .fileSystem ∧ log' = log₁ ∧
          (dir' = dir ∨ dir' = appendFile dir number [])) ∨
        (result = .ok r ∧ dir' = appendFile dir number (line ++ [10]) ∧
          log' = { log₁ with
            records := log₁.records ++ [r]
            segmentRanges := extendRange log₁.segmentRanges number r.sequence })) := by
  unfold append at h
  split at h
  · cases h
    exact .inl ⟨⟨_, rfl⟩, rfl, rfl⟩
  · split at h
    · cases h
      exact .inl ⟨⟨_, rfl⟩, rfl, rfl⟩
    next r line hmake =>
      split at h
      next err log₁ hsegment =>
        cases h
        exact .inl ⟨⟨_, rfl⟩, segmentForAppend_error hsegment, rfl⟩
      next number log₁ hsegment =>
        refine .inr ⟨r, line, number, log₁, hmake, hsegment, ?_⟩
        cases fault <;> cases h
        · exact .inr ⟨rfl, rfl, rfl⟩
        · exact .inl ⟨rfl, rfl, .inl rfl⟩
        · exact .inl ⟨rfl, rfl, .inr rfl⟩

/-- Removing files changes nothing but the files and their ranges. -/
theorem unlinkSegments_frame {budget : Option ℕ} {numbers : List ℕ} {done : Bool} {removed : ℕ}
    (h : unlinkSegments budget numbers log dir = (done, removed, log', dir')) :
    dir'.anchor = dir.anchor ∧ log'.anchorSequence = log.anchorSequence ∧
      log'.anchorHash = log.anchorHash ∧ log'.records = log.records ∧ log'.segments = log.segments := by
  induction numbers generalizing budget log dir done removed with
  | nil =>
    cases h
    exact ⟨rfl, rfl, rfl, rfl, rfl⟩
  | cons number numbers ih =>
    rw [unlinkSegments] at h
    split at h
    · exact ih h
    · split_ifs at h
      · cases h
        exact ⟨rfl, rfl, rfl, rfl, rfl⟩
      · obtain ⟨done', removed', log₁, dir₁, hrest⟩ :
            ∃ done' removed' log₁ dir₁, unlinkSegments (budget.map (· - 1)) numbers
              { log with segmentRanges := log.segmentRanges.erase number }
              { dir with segments := dir.segments.erase number } = (done', removed', log₁, dir₁) :=
          ⟨_, _, _, _, rfl⟩
        rw [hrest] at h
        cases h
        have hframe := ih hrest
        exact hframe

/-- What `prune_exported` has to do: the last number of the segments that it removes, the
record with this number, and the anchor that it writes for it. -/
structure PruneWork (s : AuditSettings) (p : KeyProvider) (log : AuditLog) (through : ℕ)
    (anchorSequence : ℕ) (anchorRecord : AuditRecord) (payload : Bytes) : Prop where
  eligible : eligibleSegments log through ≠ []
  sequence_eq : anchorSequence = ((eligibleSegments log through).map Prod.snd).foldr max 0
  record : log.records.find? (fun r => r.sequence = anchorSequence) = some anchorRecord
  payload_eq : anchorPayload s p anchorSequence anchorRecord.hash = .ok payload

/-- The ways in which `prune_exported` ends: with nothing done, with the anchor written and
some of the files removed, and with all of them removed. -/
theorem pruneExported_cases {fault : PruneFault} {through : ℕ} {expectedHash : String}
    {result : Except AuditFailure PruneResult}
    (h : pruneExported s p fault through expectedHash log dir = (result, log', dir')) :
    (log' = log ∧ dir' = dir) ∨
    ∃ anchorSequence anchorRecord payload done removed log₁,
      PruneWork s p log through anchorSequence anchorRecord payload ∧
      unlinkSegments fault.budget ((eligibleSegments log through).map Prod.fst)
        { log with anchorSequence := anchorSequence, anchorHash := anchorRecord.hash }
        { dir with anchor := some ⟨payload, true⟩ } = (done, removed, log₁, dir') ∧
      log' = (if done then { log₁ with
          segments := log₁.segments.filter fun number =>
            number ∉ (eligibleSegments log through).map Prod.fst
          records := log₁.records.filter fun r => anchorSequence < r.sequence }
        else log₁) := by
  unfold pruneExported at h
  split at h
  · cases h
    exact .inl ⟨rfl, rfl⟩
  · cases h
    exact .inl ⟨rfl, rfl⟩
  · dsimp only at h
    by_cases heligible : eligibleSegments log through = []
    · rw [if_pos heligible] at h
      cases h
      exact .inl ⟨rfl, rfl⟩
    · rw [if_neg heligible] at h
      split at h
      · cases h
        exact .inl ⟨rfl, rfl⟩
      next anchorRecord hrecord =>
        split at h
        · cases h
          exact .inl ⟨rfl, rfl⟩
        next payload hpayload =>
          by_cases hfault : fault = .anchor
          · rw [if_pos hfault] at h
            cases h
            exact .inl ⟨rfl, rfl⟩
          · rw [if_neg hfault] at h
            refine .inr ⟨((eligibleSegments log through).map Prod.snd).foldr max 0, anchorRecord,
              payload, ?_⟩
            split at h
            next hunlink =>
              cases h
              exact ⟨false, _, _, ⟨heligible, rfl, hrecord, hpayload⟩, hunlink, rfl⟩
            next hunlink =>
              cases h
              exact ⟨true, _, _, ⟨heligible, rfl, hrecord, hpayload⟩, hunlink, rfl⟩

end

/-! ## What a linear history keeps -/

section

variable {s : AuditSettings} {p : KeyProvider} {history : List AuditRecord} {log log' : AuditLog}
  {dir dir' : AuditDirectory} {st st' : AuditState} {call : AuditCall}

theorem Holds.of_frame (h : Holds history log) {segments : List ℕ}
    {ranges : OrderedDict ℕ (ℕ × ℕ)} :
    Holds history { log with segments := segments, segmentRanges := ranges } :=
  ⟨h.anchor_le, h.anchor_eq, h.records_eq⟩

theorem Holds.append (h : Holds history log) (r : AuditRecord) {segments : List ℕ}
    {ranges : OrderedDict ℕ (ℕ × ℕ)} :
    Holds (history ++ [r]) { log with
      records := log.records ++ [r], segments := segments, segmentRanges := ranges } := by
  obtain ⟨b, hb, hrecords⟩ := h.records_eq
  have hle := h.anchor_le
  refine ⟨?_, ?_, b, hb, ?_⟩
  · rw [List.length_append]
    exact hle.trans (Nat.le_add_right _ _)
  · rw [hashAt_append history r hle]
    exact h.anchor_eq
  · rw [List.drop_append_of_le_length (hb.trans hle)]
    exact congrArg (· ++ [r]) hrecords

/-- The anchor of a prune is a record in memory. -/
theorem PruneWork.anchor (h : Holds history log) (hchained : Chained s p history)
    {through anchorSequence : ℕ} {anchorRecord : AuditRecord} {payload : Bytes}
    (hwork : PruneWork s p log through anchorSequence anchorRecord payload) :
    anchorRecord ∈ history ∧ anchorRecord.sequence = anchorSequence ∧
      ∀ b, b ≤ history.length → log.records = history.drop b → b < anchorSequence := by
  have hmem := List.mem_of_find?_eq_some hwork.record
  have hsequence : anchorRecord.sequence = anchorSequence := by
    simpa using List.find?_some hwork.record
  refine ⟨h.mem hmem, hsequence, fun b hb hrecords => ?_⟩
  have hnumbered := hchained.numbered.drop b
  rw [Nat.zero_add, Nat.min_eq_left hb, ← hrecords] at hnumbered
  rw [← hsequence]
  exact (hnumbered.lt_of_mem hmem).1

theorem Holds.prune (h : Holds history log) (hchained : Chained s p history) {fault : PruneFault}
    {through : ℕ} {expectedHash : String} {result : Except AuditFailure PruneResult}
    (hprune : pruneExported s p fault through expectedHash log dir = (result, log', dir')) :
    Holds history log' := by
  rcases pruneExported_cases hprune with ⟨rfl, -⟩ |
    ⟨anchorSequence, anchorRecord, payload, done, removed, log₁, hwork, hunlink, rfl⟩
  · exact h
  · obtain ⟨-, hsequence, hhash, hrecords, hsegments⟩ := unlinkSegments_frame hunlink
    obtain ⟨hmem, hnumber, hlt⟩ := hwork.anchor h hchained
    obtain ⟨b, hb, hdrop⟩ := h.records_eq
    have hbound := hb.trans h.anchor_le
    have hb' := hlt b hbound hdrop
    have hle : anchorSequence ≤ history.length := hnumber ▸ (hchained.getElem_of_mem hmem).2.1
    have heq : anchorRecord.hash = hashAt history anchorSequence := by
      rw [← hnumber, hchained.hashAt_sequence hmem]
    have hlog : Holds history log₁ := by
      refine ⟨hsequence ▸ hle, ?_, b, hsequence ▸ hb'.le, hrecords.trans hdrop⟩
      rw [hhash, hsequence]
      exact heq
    cases done with
    | false => exact hlog
    | true =>
      refine ⟨hlog.anchor_le, hlog.anchor_eq, anchorSequence, hsequence.ge, ?_⟩
      show log₁.records.filter _ = _
      rw [hrecords, hdrop, hchained.filter_drop hbound, Nat.max_eq_left hb'.le]

theorem Genuine.mono {key message : Bytes} (hhistory : st.history ⊆ st'.history)
    (hanchors : st.anchors ⊆ st'.anchors) (h : Genuine s st key message) :
    Genuine s st' key message := by
  rcases h with ⟨r, hr, h⟩ | ⟨a, ha, h⟩
  · exact .inl ⟨r, hhistory hr, h⟩
  · exact .inr ⟨a, hanchors ha, h⟩

/-- The checkpoint that is kept is the old one or the end of the log. -/
theorem reconcile_ok {checkpoint checkpoint' : ℕ × String}
    (h : reconcile checkpoint log = .ok checkpoint') :
    checkpoint' = checkpoint ∨ checkpoint' = (log.sequence, log.headHash) := by
  simp only [reconcile, except_bind_ok, ensure_ok, exists_const] at h
  obtain ⟨-, -, h⟩ := h
  split_ifs at h <;> cases h
  · exact .inr rfl
  · exact .inl rfl

theorem Sound.start (p : KeyProvider) : Sound s (AuditState.start p) where
  chained := by
    intro n r hn
    cases hn
  holds := ⟨le_rfl, rfl, 0, le_rfl, rfl⟩
  signed := by
    intro q hq
    cases hq
  checkpoint := ⟨le_rfl, rfl⟩

/-- The next record, in memory and in the history. -/
theorem Sound.written (h : Sound s st) {timestamp : ℚ} {e : AuditEntry} {r : AuditRecord}
    {line : Bytes} (hmake : makeRecord s st.provider st.log e timestamp = .ok (r, line))
    (segments : List ℕ) (ranges : OrderedDict ℕ (ℕ × ℕ)) :
    Sound s { st with
      log := { st.log with
        records := st.log.records ++ [r], segments := segments, segmentRanges := ranges }
      history := st.history ++ [r] } := by
  obtain ⟨hchained, hholds, hsigned, hcheckpoint⟩ := h
  obtain ⟨hmade, -, -⟩ := makeRecord_ok hmake
  obtain ⟨hsequence, hhead⟩ := hholds.head hchained
  rw [hsequence, hhead] at hmade
  refine ⟨hchained.append hmade, hholds.append r, ?_, ?_, ?_⟩
  · exact fun q hq => (hsigned q hq).mono (List.subset_append_left _ _) (List.Subset.refl _)
  · exact hcheckpoint.1.trans (by simp)
  · rw [hashAt_append st.history r hcheckpoint.1]
    exact hcheckpoint.2

theorem Sound.step (h : Sound s st) (hstep : AuditStep s st call st')
    (hlinear : call = .restart → Continues st.log st'.log) : Sound s st' := by
  have hsound := h
  obtain ⟨hchained, hholds, hsigned, hcheckpoint⟩ := h
  cases hstep with
  | @appended fault timestamp e r log dir key happend hkey =>
    rcases append_cases happend with ⟨⟨err, herr⟩, -⟩ |
      ⟨r', line, number, log₁, hmake, hsegment, ⟨herr, -⟩ | ⟨hr, -, rfl⟩⟩
    · cases herr
    · cases herr
    · cases hr
      obtain ⟨-, -, hhash⟩ := makeRecord_ok hmake
      obtain ⟨segments, rfl⟩ := segmentForAppend_frame hsegment
      obtain ⟨hchained', hholds', hsigned', hcheckpoint'⟩ := hsound.written hmake segments
        (extendRange st.log.segmentRanges number r.sequence)
      refine ⟨hchained', hholds', ?_, hcheckpoint'⟩
      intro q hq
      rcases List.mem_cons.mp hq with rfl | hq
      · exact .inl ⟨r, List.mem_append_right _ (List.mem_singleton_self r), rfl, hhash key hkey⟩
      · exact hsigned' q hq
  | @appendRaised fault timestamp e err log dir happend =>
    rcases append_cases happend with ⟨-, rfl, -⟩ |
      ⟨r', line, number, log₁, -, hsegment, ⟨-, rfl, -⟩ | ⟨herr, -⟩⟩
    · exact ⟨hchained, hholds, hsigned, hcheckpoint⟩
    · obtain ⟨segments, rfl⟩ := segmentForAppend_frame hsegment
      exact ⟨hchained, hholds.of_frame, hsigned, hcheckpoint⟩
    · cases herr
  | pruned hprune _ => exact ⟨hchained, hholds.prune hchained hprune, hsigned, hcheckpoint⟩
  | @anchored fault through expectedHash result log dir key hprune hanchor hkey =>
    refine ⟨hchained, hholds.prune hchained hprune, ?_, hcheckpoint⟩
    intro q hq
    rcases List.mem_cons.mp hq with rfl | hq
    · exact .inr ⟨_, List.mem_cons_self, st.provider.activeKeyId, rfl⟩
    · have hold : Genuine s st q.1 q.2 := hsigned q hq
      refine hold.mono ?_ ?_
      · exact List.Subset.refl _
      · exact List.subset_cons_self _ _
  | rotate hrotates => exact ⟨hchained.rotates hrotates, hholds, hsigned, hcheckpoint⟩
  | checkpoint hr =>
    exact ⟨hchained, hholds, hsigned, (hchained.getElem_of_mem hr).2.1,
      (hchained.hashAt_sequence hr).symm⟩
  | restart hload hreconcile =>
    have hholds' := hholds.continues hchained (hlinear rfl)
    obtain ⟨hsequence, hhead⟩ := hholds'.head hchained
    refine ⟨hchained, hholds', hsigned, ?_⟩
    rcases reconcile_ok hreconcile with rfl | rfl
    · exact hcheckpoint
    · exact ⟨hsequence.le, by rw [hsequence, hhead]⟩

theorem Linear.sound (h : Linear s st) : Sound s st := by
  obtain ⟨p, hrun⟩ := h
  induction hrun with
  | refl => exact .start p
  | tail _ hstep ih =>
    obtain ⟨call, hstep, hlinear⟩ := hstep
    exact ih.step hstep hlinear

end

end Controlplane
end MegaCache
