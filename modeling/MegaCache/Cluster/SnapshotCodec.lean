import MegaCache.Lib.Base64
import MegaCache.Engine.Documents
import MegaCache.Cluster.Snapshot

/-!
# The lines of a snapshot

`_encode_snapshot_record` and `_decode_snapshot_record`: a record as a JSON document
and back.  `json.loads` is a parameter.
-/

namespace MegaCache

/-- The parts of the `json` module that are not written out: the text of a number with
a fractional part, and `json.loads` of the UTF-8 text of a line. -/
structure JsonModule where
  repr : ℚ → List Char
  loads : List UInt8 → Option Json
  repr_plain : ∀ x, Json.Plain (repr x)

def valueDocument : SnapshotValue → Json
  | .bytes data => .obj [("data", .str (String.ofList (Base64.encode data))), ("type", .str "bytes")]
  | .json data => .obj [("data", data), ("type", .str "json")]

def entryDocument (entry : StorageEntry SnapshotValue) : Json :=
  .obj [
    ("fresh_for_seconds", secondsDocument entry.freshForSeconds),
    ("persistent", .bool entry.persistent),
    ("stale_for_seconds", secondsDocument entry.staleForSeconds),
    ("tags", .arr (entry.tags.map .str)),
    ("value", valueDocument entry.value)]

/-- The document of a record, its keys in the order in which they are dumped. -/
def recordDocument (record : SnapshotRecord SnapshotValue) : Json :=
  .obj [
    ("deleted", .bool record.deleted),
    ("entry", match record.entry with | none => .null | some entry => entryDocument entry),
    ("key", .str record.key),
    ("version", .arr [.int record.version.term, .int record.version.sequence,
      .str record.version.leaderId])]

/-- A number of seconds or `None`. -/
def readSeconds : Json → Option (Option ℚ)
  | .null => some none
  | .float x => some (some x)
  | _ => none

def readText : Json → Option String
  | .str s => some s
  | _ => none

def readBool : Json → Option Bool
  | .bool b => some b
  | _ => none

def readNat : Json → Option ℕ
  | .int (.ofNat n) => some n
  | _ => none

def readItems : Json → Option (List Json)
  | .arr items => some items
  | _ => none

/-- `base64.b64decode(data, validate=True)` or the JSON data, by the type of the value. -/
def readValue (document : Json) : Option SnapshotValue := do
  let type ← (← document.get? "type") |> readText
  let data ← document.get? "data"
  if type = "bytes" then do
    let text ← readText data
    let bytes ← Base64.decode text.toList
    pure (.bytes bytes)
  else if type = "json" then pure (.json data)
  else none

def readEntry (key : Key) : Json → Option (Option (StorageEntry SnapshotValue))
  | .null => some none
  | document => do
    let value ← (← document.get? "value") |> readValue
    let fresh ← (← document.get? "fresh_for_seconds") |> readSeconds
    let stale ← (← document.get? "stale_for_seconds") |> readSeconds
    let tags ← (← document.get? "tags") |> readItems
    let tags ← tags.mapM readText
    let persistent ← (← document.get? "persistent") |> readBool
    pure (some ⟨key, value, fresh, stale, tags, persistent⟩)

def readVersion (document : Json) : Option VersionStamp :=
  match document with
  | .arr (term :: sequence :: leader :: _) => do
    let term ← readNat term
    let sequence ← readNat sequence
    let leader ← readText leader
    pure ⟨term, sequence, leader⟩
  | _ => none

/-- The record of a document.  Where a field has another JSON type than the encoder
writes, the record has none and the line is malformed. -/
def readRecord (document : Json) : Option (SnapshotRecord SnapshotValue) := do
  let key ← (← document.get? "key") |> readText
  let version ← (← document.get? "version") |> readVersion
  let deleted ← (← document.get? "deleted") |> readBool
  let entry ← (← document.get? "entry") |> readEntry key
  pure ⟨entry, key, version, deleted⟩

section

variable (json : JsonModule)

/-- `_encode_snapshot_record`. -/
def encodeSnapshotRecord (record : SnapshotRecord SnapshotValue) : List UInt8 :=
  Json.utf8 (Json.dumps json.repr (recordDocument record))

/-- `_decode_snapshot_record`; `none` is a malformed line. -/
def decodeSnapshotRecord (line : List UInt8) : Option (SnapshotRecord SnapshotValue) := do
  let document ← json.loads line
  readRecord document

/-! ## Reading back -/

theorem readValue_document (value : SnapshotValue) : readValue (valueDocument value) = some value := by
  cases value with
  | bytes data => simp [readValue, valueDocument, Json.get?, readText, List.lookup, Base64.decode_encode]
  | json data => simp [readValue, valueDocument, Json.get?, readText, List.lookup]

theorem readSeconds_document (x : Option ℚ) : readSeconds (secondsDocument x) = some x := by
  cases x <;> rfl

theorem readText_tags (tags : List Tag) : tags.mapM (readText ∘ Json.str) = some tags := by
  induction tags with
  | nil => rfl
  | cons tag tags ih => simp [readText, ih]

theorem readEntry_document (key : Key) (entry : StorageEntry SnapshotValue) :
    readEntry key (entryDocument entry) = some (some { entry with key := key }) := by
  simp [readEntry, entryDocument, Json.get?, List.lookup, readValue_document, readSeconds_document,
    readItems, readText_tags, readBool]

theorem readRecord_document (record : SnapshotRecord SnapshotValue) :
    readRecord (recordDocument record) = some record.rekeyed := by
  obtain ⟨entry, key, version, deleted⟩ := record
  cases entry with
  | none => simp [readRecord, recordDocument, Json.get?, List.lookup, readText, readVersion, readNat,
      readBool, readEntry, SnapshotRecord.rekeyed]
  | some entry => simp [readRecord, recordDocument, Json.get?, List.lookup, readText, readVersion,
      readNat, readBool, readEntry_document, SnapshotRecord.rekeyed]

variable {json}

/-- A document that `json.loads` reads back makes a record that the decoder reads back. -/
theorem decodeSnapshotRecord_encode {record : SnapshotRecord SnapshotValue}
    (h : json.loads (encodeSnapshotRecord json record) = some (recordDocument record)) :
    decodeSnapshotRecord json (encodeSnapshotRecord json record) = some record.rekeyed := by
  unfold decodeSnapshotRecord
  rw [h]
  exact readRecord_document record

theorem encodeSnapshotRecord_line (record : SnapshotRecord SnapshotValue) :
    encodeSnapshotRecord json record ≠ [] ∧ 10 ∉ encodeSnapshotRecord json record ∧
      13 ∉ encodeSnapshotRecord json record := by
  refine ⟨?_, (Json.plain_dumps json.repr_plain _).utf8⟩
  unfold encodeSnapshotRecord recordDocument Json.dumps Json.utf8
  rw [List.cons_append, List.flatMap_cons]
  exact List.append_ne_nil_of_left_ne_nil String.utf8EncodeChar_ne_nil _

end
end MegaCache
