import MegaCache.Engine.Documents
import MegaCache.Engine.Operations
import MegaCache.Lib.Base64

/-!
# Artifacts of the control plane

The document that a backup or an export is made of, and reading it back: `_encode_value`,
`_decode_value`, `_entries_document`, `_document_entries`, with the parts of
`EncryptedArtifactStore` that turn a document into its plaintext and back.  Encryption is left
out: an artifact stands for its plaintext.
-/

namespace MegaCache
namespace Controlplane

/-- The exceptions that the control plane tells apart. -/
inductive ErrorClass
  | controlPlaneError
  | controlPlaneCapacity
  | artifactError
  /-- raised by the engine -/
  | valueError
deriving DecidableEq, Repr

structure Failure where
  kind : ErrorClass
  message : String
deriving DecidableEq, Repr

def artifactError (message : String) : Failure := ⟨.artifactError, message⟩

section

variable (floats : Json.FloatText)

/-- `_canonical` -/
def canonical (value : Json) : Except Failure (List UInt8) :=
  if value.finite then .ok (Json.utf8 (Json.dumps floats.repr value))
  else .error ⟨.controlPlaneError, "value is not valid bounded JSON"⟩

/-! ## Writing -/

/-- `_encode_value` -/
def encodeValue : SnapshotValue → Json
  | .bytes data =>
    .obj [("encoding", .str "base64"), ("value", .str (String.ofList (Base64.encode data)))]
  | .json data => .obj [("encoding", .str "json"), ("value", data)]

/-- One item of the list `entries` of the document. -/
def artifactEntry (entry : StorageEntry SnapshotValue) : Json :=
  .obj [
    ("fresh_for_seconds", secondsDocument entry.freshForSeconds),
    ("key", .str entry.key),
    ("persistent", .bool entry.persistent),
    ("stale_for_seconds", secondsDocument entry.staleForSeconds),
    ("tags", .arr (entry.tags.map .str)),
    ("value", encodeValue entry.value)]

/-- `values.sort(key=lambda item: item["key"])` -/
def sortedByKey (entries : List (StorageEntry SnapshotValue)) :
    List (StorageEntry SnapshotValue) :=
  entries.insertionSort fun a b => a.key ≤ b.key

/-- `_entries_document` -/
def entriesDocument (tenantNamespace : String) (entries : List (StorageEntry SnapshotValue))
    (purpose : String) (createdAt : ℚ) : Json :=
  .obj [
    ("created_at", .float createdAt),
    ("entries", .arr ((sortedByKey entries).map artifactEntry)),
    ("purpose", .str purpose),
    ("tenant_namespace", .str tenantNamespace),
    ("version", .int 1)]

/-- The plaintext of an artifact, within the limit of the store. -/
def artifactPlaintext (kind : String) (maximumBytes : ℕ) (document : Json) :
    Except Failure (List UInt8) := do
  let plaintext ← canonical floats document
  if maximumBytes < plaintext.length then
    throw ⟨.controlPlaneCapacity, kind ++ " payload exceeds configured byte limit"⟩
  else pure plaintext

/-! ## Reading -/

/-- The names of the items of an object. -/
def fieldNames (fields : List (String × Json)) : Finset String := (fields.map Prod.fst).toFinset

/-- `_decode_value` -/
def decodeValue : Json → Except Failure SnapshotValue
  | .obj fields =>
    if fieldNames fields ≠ {"encoding", "value"} then
      .error (artifactError "artifact entry contains an invalid value")
    else
      match fields.lookup "encoding", fields.lookup "value" with
      | some (.str "json"), some value => do
        let _ ← canonical floats value
        pure (.json value)
      | some (.str "base64"), some (.str text) =>
        match Base64.decode text.toList with
        | none => .error (artifactError "artifact entry contains invalid base64")
        | some data => .ok (.bytes data)
      | _, _ => .error (artifactError "artifact entry contains an unsupported encoding")
  | _ => .error (artifactError "artifact entry contains an invalid value")

/-- A finite number that is no `bool`. -/
def number : Json → Option ℚ
  | .int n => some n
  | .float x => some x
  | _ => none

/-- `value == 1` -/
def isOne : Json → Bool
  | .int n => n = 1
  | .float x => x = 1
  | .bool b => b
  | _ => false

def entryFields : Finset String :=
  {"key", "value", "fresh_for_seconds", "stale_for_seconds", "tags", "persistent"}

/-- A tag of an entry, if it is one. -/
def readTag : Json → Option Tag
  | .str tag => if tag ≠ "" ∧ tag.utf8ByteSize ≤ 1024 then some tag else none
  | _ => none

/-- The key, the tags and the kind of an entry, if they are valid. -/
def readIdentity (seen : List Key) (fields : List (String × Json)) :
    Option (Key × List Tag × Bool) :=
  match fields.lookup "key", fields.lookup "tags", fields.lookup "persistent" with
  | some (.str key), some (.arr items), some (.bool persistent) =>
    if key ≠ "" ∧ key.length ≤ 1024 ∧ key ∉ seen then
      match items.mapM readTag with
      | some tags => if tags.Nodup then some (key, tags, persistent) else none
      | none => none
    else none
  | _, _, _ => none

/-- What is left of two windows after `age` seconds. -/
def remainingWindows (age fresh stale : ℚ) : Option (ℚ × ℚ) :=
  let totalRemaining := fresh + stale - age
  if totalRemaining ≤ 0 then none
  else
    let freshRemaining := max 0 (fresh - age)
    some (freshRemaining, max 0 (totalRemaining - freshRemaining))

/-- The windows of an entry, `none` when they are over. -/
def readWindows (age : ℚ) (persistent : Bool) (fresh stale : Json) :
    Except Failure (Option (Option ℚ × Option ℚ)) :=
  if persistent then
    match fresh, stale with
    | .null, .null => .ok (some (none, none))
    | _, _ => .error (artifactError "persistent artifact entries cannot contain deadlines")
  else
    match number fresh, number stale with
    | some fresh, some stale =>
      if 0 < fresh ∧ 0 ≤ stale then
        .ok ((remainingWindows age fresh stale).map fun w => (some w.1, some w.2))
      else .error (artifactError "artifact entry contains invalid freshness windows")
    | _, _ => .error (artifactError "artifact entry contains invalid freshness windows")

/-- The loop of `_document_entries` over the items that are left. -/
def readEntries (age : ℚ) : List Key → List Json →
    Except Failure (List (StorageEntry SnapshotValue))
  | _, [] => .ok []
  | seen, .obj fields :: rest =>
    if fieldNames fields ≠ entryFields then
      .error (artifactError "artifact entry has unsupported fields")
    else
      match readIdentity seen fields with
      | none => .error (artifactError "artifact entry validation failed")
      | some (key, tags, persistent) => do
        let windows ← readWindows age persistent
          ((fields.lookup "fresh_for_seconds").getD .null)
          ((fields.lookup "stale_for_seconds").getD .null)
        match windows with
        | none => readEntries age (key :: seen) rest
        | some (fresh, stale) => do
          let value ← decodeValue floats ((fields.lookup "value").getD .null)
          let entries ← readEntries age (key :: seen) rest
          pure (⟨key, value, fresh, stale, tags, persistent⟩ :: entries)
  | _, _ :: _ => .error (artifactError "artifact contains an invalid entry")

/-- `_document_entries` -/
def documentEntries (document : Json) (tenantNamespace purpose : String) (now : ℚ) :
    Except Failure (List (StorageEntry SnapshotValue)) :=
  match document.get? "version", document.get? "purpose", document.get? "tenant_namespace",
    document.get? "entries" with
  | some version, some (.str purpose'), some (.str namespace'), some (.arr items) =>
    if isOne version ∧ purpose' = purpose ∧ namespace' = tenantNamespace then
      match (document.get? "created_at").bind number with
      | some createdAt =>
        if 0 ≤ createdAt then readEntries floats (max 0 (now - createdAt)) [] items
        else .error ⟨.controlPlaneError,
          "artifact created_at must be a finite number not below 0"⟩
      | none => .error ⟨.controlPlaneError,
          "artifact created_at must be a finite number not below 0"⟩
    else .error (artifactError "artifact payload identity is invalid")
  | _, _, _, _ => .error (artifactError "artifact payload identity is invalid")

/-- The document of a plaintext. -/
def readArtifact (plaintext : List UInt8) : Except Failure Json :=
  match Json.loads floats plaintext with
  | none => .error (artifactError "artifact plaintext is invalid")
  | some (.obj fields) => .ok (.obj fields)
  | some _ => .error (artifactError "artifact plaintext must contain an object")

end
end Controlplane
end MegaCache
