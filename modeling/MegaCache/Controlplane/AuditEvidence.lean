import MegaCache.Controlplane.ArtifactStore
import MegaCache.Controlplane.AuditSegments

/-!
# Tamper evidence of the audit log

Whatever directory is loaded, as long as each code that stands in it under a key of the
provider is one that the history has written for the same message, the records in memory are
a contiguous part of the history, directly behind one of its anchors.
-/

namespace MegaCache
namespace Controlplane

/-- A value that stands in a directory as a code: the hash of a line of a segment, or the
signature of the anchor. -/
inductive Presents (s : AuditSettings) (dir : AuditDirectory) : Json → Prop
  | line {number : ℕ} {file : StoredFile} {raw : Bytes} {fields : List (String × Json)}
      (hfile : (number, file) ∈ dir.segments.toList) (hraw : raw ∈ lines 10 file.payload)
      (hload : Json.loadsBytes s.floats raw = some (.obj fields)) :
      Presents s dir (item fields "hash")
  | anchor {file : StoredFile} {fields : List (String × Json)} (hfile : dir.anchor = some file)
      (hload : Json.loads s.floats file.payload = some (.obj fields)) :
      Presents s dir (item fields "signature")

section

variable {s : AuditSettings} {st : AuditState} {p : KeyProvider} {dir : AuditDirectory}
  {log log' : AuditLog} {r : AuditRecord} {raw : Bytes}

theorem ordered_anchorBody (sequence : ℕ) (hash keyId : String) :
    (Json.obj (anchorBody sequence hash keyId)).Ordered := by
  refine ⟨?_, by simp [anchorBody, Json.OrderedFields, Json.Ordered]⟩
  show (["hash", "key_id", "sequence", "version"] : List String).Pairwise (· < ·)
  decide

theorem isNumber_int {n : ℤ} {k : ℕ} : isNumber (.int n) k = true ↔ n = k := by
  simp [isNumber]

/-! ## Reading back -/

section

variable {p : KeyProvider} {a n : ℕ} {previous : String}

theorem MadeRecord.loads (h : MadeRecord s p n previous r) :
    Json.loadsBytes s.floats (recordLine s.floats r) =
      some (.obj (Json.insertField "hash" (.str r.hash) r.body)) :=
  Json.loadsBytes_line (ordered_insertField h.ordered trivial) insertField_ne_nil

theorem MadeRecord.notMem_hash (h : MadeRecord s p n previous r) : "hash" ∉ r.body.map Prod.fst := by
  rw [h.names]
  decide

theorem MadeRecord.item_document (h : MadeRecord s p n previous r) {name : String}
    (hname : name ≠ "hash") :
    item (Json.insertField "hash" (.str r.hash) r.body) name = item r.body name := by
  rw [← item_filter_ne hname, filter_insertField h.notMem_hash]

/-- A record after the anchor is verified behind the one before it. -/
theorem MadeRecord.verify (h : MadeRecord s p n previous r) (hlt : a ≤ n) :
    verifyLine s p a previous n (recordLine s.floats r) = .ok (some r) := by
  have hsize : (recordLine s.floats r).length ≤ s.maxRecordBytes := by
    simpa [recordLine] using h.size
  have hnumber : ¬(intValue (.int ((n : ℤ) + 1))).any (fun k => decide (k ≤ (a : ℤ))) = true := by
    simpa [intValue] using by omega
  obtain ⟨timestamp, keyId, tenantNamespace, actor, action, outcome, details, key, hbody, -, -,
    hkeyId, hkey, hhash⟩ := h.body
  have hid : item r.body "key_id" = .str keyId := by
    rw [hbody]
    simp [recordBody, item, List.lookup]
  rw [verifyLine, except_bind_ok]
  refine ⟨(), ensure_ok.mpr hsize, ?_⟩
  rw [h.loads]
  simp only [h.item_document (show "sequence" ≠ "hash" by decide), h.item_sequence,
    filter_insertField h.notMem_hash, item_insertField]
  rw [if_neg hnumber]
  simp only [except_bind_ok, identifier_ok, KeyProvider.get_ok, raised_ok, canonical_ok, ensure_ok,
    exists_const]
  refine ⟨keyId, ⟨(h.item_document (by decide)).trans hid, hkeyId⟩, key, hkey, _, ⟨h.finite, rfl⟩,
    true, ?_, ⟨rfl, ?_, ?_⟩, trivial⟩
  · have htag := compareHex_hex
      (s.hashes.hmac (auditKey s.hashes key "audit-record") (objectText s.floats r.body))
    rw [← hhash] at htag
    exact htag
  · rw [h.item_document (by decide), h.item_previous]
    exact isText_iff.mpr rfl
  · exact isNumber_int.mpr (by push_cast; rfl)

end

/-! ## What is read -/

theorem prefix_append {α : Type} {l₁ l₂ l : List α} (h₁ : l₁ <+: l) (h₂ : l₂ <+: l.drop l₁.length) :
    l₁ ++ l₂ <+: l := by
  obtain ⟨t, rfl⟩ := h₁
  rw [List.drop_left] at h₂
  exact (List.prefix_append_right_inj l₁).mpr h₂

end

/-! ## A small history -/

def smallEntry : AuditEntry := ⟨"actor", "action", "ok", none, [], ⟨List.Pairwise.nil, trivial⟩⟩

def smallBody : List (String × Json) :=
  recordBody 1 0 "k1" zeroHash none "actor" "action" "ok" (.obj [])

/-- Hash functions that tell only this message from all others. -/
def smallAuditHashes : Hashes where
  hmac _ message := if message = objectText plainFloats smallBody then oneDigest else zeroDigest
  sha256 _ := zeroDigest

theorem kilobyte_le : 1024 ≤ 1024 := le_rfl

def smallAudit : AuditSettings :=
  ⟨smallAuditHashes, plainFloats, 1024, 1, 512, kilobyte_le, by decide, by decide⟩

def smallRecord : AuditRecord := ⟨smallBody, oneDigest.hex⟩

def smallLine : Bytes := Json.utf8 (Json.dumps plainFloats.repr smallRecord.document)

/-- The state after the entry was appended. -/
def smallAuditState : AuditState :=
  ⟨smallKeys, appendFile ⟨none, OrderedDict.empty⟩ 1 (smallLine ++ [10]),
    ⟨0, zeroHash, [smallRecord], [1], extendRange OrderedDict.empty 1 smallRecord.sequence⟩,
    (0, zeroHash), [smallRecord], [],
    [(auditKey smallAuditHashes (List.replicate 32 7) "audit-record",
      objectText plainFloats smallBody)]⟩

theorem smallEntry_check : smallEntry.check smallAudit = .ok () := by
  have hok : (smallEntry.check smallAudit).toOption.isSome = true := by
    decide
  cases hcheck : smallEntry.check smallAudit with
  | error e =>
    rw [hcheck] at hok
    cases hok
  | ok u => rfl

theorem smallRecord_tag (key : Bytes) :
    smallAuditHashes.hmac key (objectText plainFloats smallBody) = oneDigest := by
  simp only [smallAuditHashes, if_true]

theorem smallRecord_made : makeRecord smallAudit smallKeys (AuditState.start smallKeys).log smallEntry 0 =
    .ok (smallRecord, smallLine) := by
  have hrecord : (⟨smallBody, (smallAuditHashes.hmac
      (auditKey smallAuditHashes (List.replicate 32 7) "audit-record")
      (objectText plainFloats smallBody)).hex⟩ : AuditRecord) = smallRecord := by
    rw [smallRecord_tag, smallRecord]
  have hfinite : (Json.obj smallBody).finite = true := by
    decide
  have hdocument : smallRecord.document.finite = true := by
    decide
  have hsize : smallLine.length + 1 ≤ smallAudit.maxRecordBytes := by
    decide +kernel
  simp only [makeRecord, except_bind_ok, ensure_ok, raised_ok, canonical_ok, KeyProvider.get_ok,
    exists_const]
  refine ⟨List.replicate 32 7, rfl, _, ⟨hfinite, rfl⟩, smallLine, ?_, hsize, ?_⟩
  · exact ⟨by rw [← hrecord] at hdocument; exact hdocument, congrArg
      (fun r => Json.utf8 (Json.dumps plainFloats.repr (AuditRecord.document r))) hrecord.symm⟩
  · exact congrArg (fun r => Except.ok (r, smallLine)) hrecord

theorem smallAuditState_step : AuditStep smallAudit (AuditState.start smallKeys)
    (.append .none 0 smallEntry) smallAuditState := by
  have happend : append smallAudit smallKeys .none 0 smallEntry (AuditState.start smallKeys).log
      (AuditState.start smallKeys).dir =
      (.ok smallRecord, smallAuditState.log, smallAuditState.dir) := by
    rw [append, smallEntry_check, smallRecord_made]
    rfl
  exact .appended happend rfl

end Controlplane
end MegaCache
