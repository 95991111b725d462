import MegaCache.Controlplane.Keys
import MegaCache.Lib.JsonEncoding
import MegaCache.Lib.OrderedDict
import MegaCache.Lib.TextFrames

/-!
# The audit log

`TamperEvidentAuditLog`: records in a chain of hashes, kept in memory and in the segment
files of a directory, and an anchor file that says up to which record they were pruned.
`append` and `prune_exported` take a fault, which makes one of their file operations
raise; a crash leaves the directory as it is and loses the log in memory.
-/

namespace MegaCache
namespace Controlplane

/-- The parameters of a log. -/
structure AuditSettings where
  hashes : Hashes
  floats : Json.FloatText
  segmentBytes : ℕ
  maxSegments : ℕ
  maxRecordBytes : ℕ
  segmentBytes_le : 1024 ≤ segmentBytes
  maxSegments_pos : 1 ≤ maxSegments
  maxRecordBytes_le : 512 ≤ maxRecordBytes

/-- `_ZERO_HASH` -/
def zeroHash : String := String.ofList (List.replicate 64 '0')

/-- A record: its items without the hash, in the order of their keys, and the hash. -/
structure AuditRecord where
  body : List (String × Json)
  hash : String

/-- `record["sequence"]` -/
def AuditRecord.sequence (r : AuditRecord) : ℕ :=
  match r.body.lookup "sequence" with
  | some (.int n) => n.toNat
  | _ => 0

/-- The files of the directory `audit`: the anchor and the segments by their numbers. -/
structure AuditDirectory where
  anchor : Option StoredFile
  segments : OrderedDict ℕ StoredFile

/-- The log in memory. -/
structure AuditLog where
  anchorSequence : ℕ
  anchorHash : String
  records : List AuditRecord
  segments : List ℕ
  segmentRanges : OrderedDict ℕ (ℕ × ℕ)

namespace AuditLog

def headHash (log : AuditLog) : String :=
  match log.records.getLast? with
  | none => log.anchorHash
  | some r => r.hash

def sequence (log : AuditLog) : ℕ :=
  match log.records.getLast? with
  | none => log.anchorSequence
  | some r => r.sequence

end AuditLog

/-! ## Records and anchors as text -/

def auditKey (c : Hashes) (key : Bytes) (label : String) : Bytes := deriveKey c key (textBytes label)

/-- The items of a record without its hash, in the order of their keys. -/
def recordBody (sequence : ℕ) (timestamp : ℚ) (keyId previousHash : String)
    (tenantNamespace : Option String) (actor action outcome : String) (details : Json) :
    List (String × Json) :=
  [("action", .str action), ("actor", .str actor), ("details", details), ("key_id", .str keyId),
    ("outcome", .str outcome), ("previous_hash", .str previousHash), ("sequence", .int sequence),
    ("tenant_namespace", (tenantNamespace.map .str).getD .null), ("timestamp", .float timestamp),
    ("version", .int 1)]

/-- The record with its hash as one object. -/
def AuditRecord.document (r : AuditRecord) : Json :=
  .obj (Json.insertField "hash" (.str r.hash) r.body)

/-- The items of an anchor without its signature, in the order of their keys. -/
def anchorBody (sequence : ℕ) (hash keyId : String) : List (String × Json) :=
  [("hash", .str hash), ("key_id", .str keyId), ("sequence", .int sequence), ("version", .int 1)]

/-! ## Appending -/

/-- The arguments of `append`. -/
structure AuditEntry where
  actor : String
  action : String
  outcome : String
  tenantNamespace : Option String
  details : List (String × Json)
  details_ordered : (Json.obj details).Ordered

/-- `_bounded_text` of a text. -/
def boundedText (value name : String) (maximum : ℕ) : Except Raised Unit :=
  ensure (value ≠ "" ∧ value.utf8ByteSize ≤ maximum) (.failure ⟨.controlPlaneError,
    name ++ " must contain 1 to " ++ toString maximum ++ " UTF-8 bytes"⟩)

/-- The checks of `append` before it takes the lock. -/
def AuditEntry.check (s : AuditSettings) (e : AuditEntry) : Except Raised Unit := do
  boundedText e.actor "audit actor" 256
  let _ ← identifier (.str e.action) "audit action"
  let _ ← identifier (.str e.outcome) "audit outcome"
  match e.tenantNamespace with
  | none => pure ()
  | some ns => do
    let _ ← identifier (.str ns) "tenant namespace"
    pure ()
  let bounded ← raised (canonical s.floats (.obj e.details))
  ensure (bounded.length ≤ 8192)
    (.failure ⟨.controlPlaneCapacity, "audit details exceed byte limit"⟩)

/-- The record that `append` makes, and its line without the line feed. -/
def makeRecord (s : AuditSettings) (p : KeyProvider) (log : AuditLog) (e : AuditEntry)
    (timestamp : ℚ) : Except Raised (AuditRecord × Bytes) := do
  let body := recordBody (log.sequence + 1) timestamp p.activeKeyId log.headHash e.tenantNamespace
    e.actor e.action e.outcome (.obj e.details)
  let key ← p.get p.activeKeyId
  let message ← raised (canonical s.floats (.obj body))
  let r : AuditRecord := ⟨body, (s.hashes.hmac (auditKey s.hashes key "audit-record") message).hex⟩
  let line ← raised (canonical s.floats r.document)
  ensure (line.length + 1 ≤ s.maxRecordBytes)
    (.failure ⟨.controlPlaneCapacity, "audit record exceeds byte limit"⟩)
  .ok (r, line)

/-- `st_size` of a segment, 0 without a file. -/
def segmentSize (dir : AuditDirectory) (number : ℕ) : ℕ :=
  (dir.segments.get? number).elim 0 fun file => file.payload.length

/-- `_segment_for_append`: the segment, and the log with the number it may have taken. -/
def segmentForAppend (s : AuditSettings) (log : AuditLog) (dir : AuditDirectory)
    (payloadBytes : ℕ) : Except Raised ℕ × AuditLog :=
  match log.segments.getLast? with
  | none => (.ok 1, { log with segments := [1] })
  | some current =>
    if segmentSize dir current + payloadBytes ≤ s.segmentBytes then (.ok current, log)
    else if s.maxSegments ≤ log.segments.length then
      (.error (.failure ⟨.controlPlaneCapacity, "audit segment capacity is exhausted; export " ++
        "records and increase the configured retention bound"⟩), log)
    else (.ok (current + 1), { log with segments := log.segments ++ [current + 1] })

/-- What the file system does to `append`: nothing, or it raises before the file exists, or
it raises when the file exists and nothing was written. -/
inductive AppendFault
  | none
  | beforeOpen
  | afterOpen
deriving DecidableEq, Repr

/-- `os.open` with `O_CREAT`, and `payload` written behind what is there. -/
def appendFile (dir : AuditDirectory) (number : ℕ) (payload : Bytes) : AuditDirectory :=
  let before := (dir.segments.get? number).elim [] fun file => file.payload
  { dir with segments := dir.segments.set number ⟨before ++ payload, true⟩ }

/-- The range of a segment that got the record with this number. -/
def extendRange (ranges : OrderedDict ℕ (ℕ × ℕ)) (number sequence : ℕ) : OrderedDict ℕ (ℕ × ℕ) :=
  ranges.set number (((ranges.get? number).elim sequence Prod.fst), sequence)

/-- What the calls of the log raise: an exception of their own or of the file system, or the
`StopIteration` of `next`. -/
inductive AuditFailure
  | raised (e : Raised)
  | fileSystem
  | stopIteration
deriving DecidableEq, Repr

/-- `append`, at the time `timestamp`. -/
def append (s : AuditSettings) (p : KeyProvider) (fault : AppendFault) (timestamp : ℚ)
    (e : AuditEntry) (log : AuditLog) (dir : AuditDirectory) :
    Except AuditFailure AuditRecord × AuditLog × AuditDirectory :=
  match e.check s with
  | .error err => (.error (.raised err), log, dir)
  | .ok () =>
    match makeRecord s p log e timestamp with
    | .error err => (.error (.raised err), log, dir)
    | .ok (r, line) =>
      match segmentForAppend s log dir (line.length + 1) with
      | (.error err, log) => (.error (.raised err), log, dir)
      | (.ok number, log) =>
        match fault with
        | .beforeOpen => (.error .fileSystem, log, dir)
        | .afterOpen => (.error .fileSystem, log, appendFile dir number [])
        | .none =>
          (.ok r, { log with
            records := log.records ++ [r]
            segmentRanges := extendRange log.segmentRanges number r.sequence },
            appendFile dir number (line ++ [10]))

/-! ## Pruning -/

/-- What `prune_exported` returns. -/
structure PruneResult where
  removedSegments : ℕ
  anchorSequence : ℕ
  anchorHash : String
deriving DecidableEq, Repr

/-- The payload of `_write_anchor`. -/
def anchorPayload (s : AuditSettings) (p : KeyProvider) (sequence : ℕ) (hash : String) :
    Except Raised Bytes := do
  let key ← p.get p.activeKeyId
  let body := anchorBody sequence hash p.activeKeyId
  let message ← raised (canonical s.floats (.obj body))
  let signature := (s.hashes.hmac (auditKey s.hashes key "audit-anchor") message).hex
  let payload ← raised (canonical s.floats (.obj (Json.insertField "signature" (.str signature) body)))
  ensure (payload.length ≤ s.maxRecordBytes)
    (.failure ⟨.controlPlaneCapacity, "durable state exceeds configured byte limit"⟩)
  .ok payload

/-- The loop over the segments to be removed.  `budget` is the number of removals after which
the next one raises. -/
def unlinkSegments : Option ℕ → List ℕ → AuditLog → AuditDirectory →
    Bool × ℕ × AuditLog × AuditDirectory
  | _, [], log, dir => (true, 0, log, dir)
  | budget, number :: rest, log, dir =>
    match dir.segments.get? number with
    | none => unlinkSegments budget rest log dir
    | some _ =>
      if budget = some 0 then (false, 0, log, dir)
      else
        let (done, removed, log, dir) := unlinkSegments (budget.map (· - 1)) rest
          { log with segmentRanges := log.segmentRanges.erase number }
          { dir with segments := dir.segments.erase number }
        (done, removed + 1, log, dir)

/-- What the file system does to `prune_exported`: nothing, or it raises at the anchor, or
after so many removals. -/
inductive PruneFault
  | none
  | anchor
  | unlink (removed : ℕ)
deriving DecidableEq, Repr

def PruneFault.budget : PruneFault → Option ℕ
  | unlink removed => some removed
  | _ => Option.none

/-- The segments that hold no record after `through`, in the order of their numbers. -/
def eligibleSegments (log : AuditLog) (through : ℕ) : List (ℕ × ℕ) :=
  ((log.segmentRanges.toList.filter fun item => item.2.2 ≤ through).map
    fun item => (item.1, item.2.2)).insertionSort fun a b => a.1 ≤ b.1

/-- `[a-f0-9]{64}` -/
def isHash (s : String) : Bool :=
  s.toList.length = 64 && s.toList.all fun ch => ch.isDigit || 'a' ≤ ch && ch ≤ 'f'

/-- The checks of `prune_exported` before it takes the lock. -/
def pruneCheck (through : ℕ) (expectedHash : String) : Except Raised Unit := do
  ensure (1 ≤ through ∧ through < 2 ^ 63) (.failure ⟨.controlPlaneError,
    "audit prune sequence must be an integer from 1 through 9223372036854775807"⟩)
  ensure (isHash expectedHash = true) (.failure ⟨.controlPlaneError, "audit prune hash is invalid"⟩)

/-- The record that the caller confirms to have exported. -/
def confirmedRecord (log : AuditLog) (through : ℕ) (expectedHash : String) :
    Except Raised AuditRecord :=
  match log.records.find? fun r => r.sequence = through with
  | some r => do
    ensure (r.hash = expectedHash) (.failure ⟨.controlPlaneError,
      "audit prune confirmation does not match retained history"⟩)
    .ok r
  | none => .error (.failure ⟨.controlPlaneError,
      "audit prune confirmation does not match retained history"⟩)

/-- `prune_exported` -/
def pruneExported (s : AuditSettings) (p : KeyProvider) (fault : PruneFault) (through : ℕ)
    (expectedHash : String) (log : AuditLog) (dir : AuditDirectory) :
    Except AuditFailure PruneResult × AuditLog × AuditDirectory :=
  match pruneCheck through expectedHash, confirmedRecord log through expectedHash with
  | .error err, _ => (.error (.raised err), log, dir)
  | .ok (), .error err => (.error (.raised err), log, dir)
  | .ok (), .ok _ =>
    let eligible := eligibleSegments log through
    if eligible = [] then (.ok ⟨0, log.anchorSequence, log.anchorHash⟩, log, dir)
    else
      let anchorSequence := (eligible.map Prod.snd).foldr max 0
      match log.records.find? fun r => r.sequence = anchorSequence with
      | none => (.error .stopIteration, log, dir)
      | some anchorRecord =>
        match anchorPayload s p anchorSequence anchorRecord.hash with
        | .error err => (.error (.raised err), log, dir)
        | .ok payload =>
          if fault = .anchor then (.error .fileSystem, log, dir)
          else
            let dir := { dir with anchor := some ⟨payload, true⟩ }
            let log := { log with
              anchorSequence := anchorSequence, anchorHash := anchorRecord.hash }
            match unlinkSegments fault.budget (eligible.map Prod.fst) log dir with
            | (false, _, log, dir) => (.error .fileSystem, log, dir)
            | (true, removed, log, dir) =>
              (.ok ⟨removed, log.anchorSequence, log.anchorHash⟩, { log with
                segments := log.segments.filter fun number => number ∉ eligible.map Prod.fst
                records := log.records.filter fun r => anchorSequence < r.sequence }, dir)

/-! ## Loading -/

def anchorFields : Finset String := {"version", "sequence", "hash", "key_id", "signature"}

/-- A value that is an `int`; the truth values are 0 and 1. -/
def intValue : Json → Option ℤ
  | .int n => some n
  | .bool b => some (if b then 1 else 0)
  | _ => none

/-- `_load_anchor`: the number and the hash of the anchor, if there is one. -/
def loadAnchor (s : AuditSettings) (p : KeyProvider) (dir : AuditDirectory) :
    Except Raised (ℕ × String) :=
  match dir.anchor with
  | none => .ok (0, zeroHash)
  | some file => do
    ensure (file.isProtected = true)
      (.failure ⟨.controlPlaneError, "audit anchor must be a protected regular file"⟩)
    let fields ← readJsonFile s.floats s.maxRecordBytes "audit anchor" file.payload
    ensure (fieldNames fields = anchorFields)
      (.failure ⟨.controlPlaneError, "audit anchor has unsupported fields"⟩)
    let body := fields.filter fun item => item.1 ≠ "signature"
    let keyId ← identifier (item fields "key_id") "audit anchor key id"
    let key ← p.get keyId
    let message ← raised (canonical s.floats (.obj body))
    let expected := s.hashes.hmac (auditKey s.hashes key "audit-anchor") message
    match isOne (item fields "version"), intValue (item fields "sequence"), item fields "hash",
        item fields "signature" with
    | true, some sequence, .str hash, .str signature => do
      ensure (0 ≤ sequence ∧ isHash hash = true)
        (.failure ⟨.controlPlaneError, "audit anchor verification failed"⟩)
      let authentic ← compareHex signature expected
      ensure (authentic = true)
        (.failure ⟨.controlPlaneError, "audit anchor verification failed"⟩)
      .ok (sequence.toNat, hash)
    | _, _, _, _ => .error (.failure ⟨.controlPlaneError, "audit anchor verification failed"⟩)

/-- `value == n` for a number. -/
def isNumber (value : Json) (n : ℕ) : Bool :=
  match value with
  | .int k => k = n
  | .float x => x = n
  | .bool b => (if b then 1 else 0) = n
  | _ => false

def chainFailed : Raised := .failure ⟨.controlPlaneError, "audit chain verification failed"⟩

/-- One line of a segment: nothing when its record is not after the anchor, else the record,
which must follow `previous` with the next number after `sequence`. -/
def verifyLine (s : AuditSettings) (p : KeyProvider) (anchorSequence : ℕ) (previous : String)
    (sequence : ℕ) (raw : Bytes) : Except Raised (Option AuditRecord) := do
  ensure (raw.length ≤ s.maxRecordBytes)
    (.failure ⟨.controlPlaneCapacity, "existing audit record exceeds configured limit"⟩)
  match Json.loadsBytes s.floats raw with
  | none => .error (.failure ⟨.controlPlaneError, "audit log contains invalid JSON"⟩)
  | some (.obj fields) =>
    let body := fields.filter fun item => item.1 ≠ "hash"
    if (intValue (item fields "sequence")).any (fun n => decide (n ≤ (anchorSequence : ℤ))) then
      .ok none
    else do
      let keyId ← identifier (item fields "key_id") "audit key id"
      let key ← p.get keyId
      let message ← raised (canonical s.floats (.obj body))
      match item fields "hash" with
      | .str supplied => do
        let authentic ← compareHex supplied
          (s.hashes.hmac (auditKey s.hashes key "audit-record") message)
        ensure (authentic = true ∧ isText (item fields "previous_hash") previous = true ∧
          isNumber (item fields "sequence") (sequence + 1) = true) chainFailed
        .ok (some ⟨body, supplied⟩)
      | _ => .error chainFailed
  | some _ => .error (.failure ⟨.controlPlaneError, "audit log contains an invalid record"⟩)

/-- The lines of a segment, and the records after the anchor in them. -/
def verifyLines (s : AuditSettings) (p : KeyProvider) (anchorSequence : ℕ) :
    String → ℕ → List Bytes → Except Raised (List AuditRecord)
  | _, _, [] => .ok []
  | previous, sequence, raw :: rest => do
    match ← verifyLine s p anchorSequence previous sequence raw with
    | none => verifyLines s p anchorSequence previous sequence rest
    | some r => do
      let records ← verifyLines s p anchorSequence r.hash (sequence + 1) rest
      .ok (r :: records)

/-- One segment file: its records after the anchor. -/
def verifySegment (s : AuditSettings) (p : KeyProvider) (anchorSequence : ℕ) (previous : String)
    (sequence : ℕ) (file : StoredFile) : Except Raised (List AuditRecord) := do
  ensure (file.isProtected = true)
    (.failure ⟨.controlPlaneError, "audit segments must be protected regular files"⟩)
  ensure (file.payload.length ≤ s.segmentBytes + s.maxRecordBytes)
    (.failure ⟨.controlPlaneCapacity, "existing audit segment exceeds configured limit"⟩)
  verifyLines s p anchorSequence previous sequence (lines 10 file.payload)

/-- The segment that `_load_and_verify` has verified, put into the log; a segment without
records after the anchor is removed once there is an anchor. -/
def addSegment (log : AuditLog) (dir : AuditDirectory) (number : ℕ) (records : List AuditRecord) :
    AuditLog × AuditDirectory :=
  if records ≠ [] then
    ({ log with
      records := log.records ++ records
      segments := log.segments ++ [number]
      segmentRanges := log.segmentRanges.set number
        (log.sequence + 1, log.sequence + records.length) }, dir)
  else if 0 < log.anchorSequence then (log, { dir with segments := dir.segments.erase number })
  else ({ log with segments := log.segments ++ [number] }, dir)

/-- The loop of `_load_and_verify` over the segments in order. -/
def loadSegments (s : AuditSettings) (p : KeyProvider) :
    List (ℕ × StoredFile) → AuditLog → AuditDirectory → Except Raised (AuditLog × AuditDirectory)
  | [], log, dir => .ok (log, dir)
  | (number, file) :: rest, log, dir => do
    let records ← verifySegment s p log.anchorSequence log.headHash log.sequence file
    let (log, dir) := addSegment log dir number records
    loadSegments s p rest log dir

/-- The segments whose names have eight digits, in the order of their numbers. -/
def segmentNames (dir : AuditDirectory) : List (ℕ × StoredFile) :=
  (dir.segments.toList.filter fun item => item.1 < 100000000).insertionSort fun a b => a.1 ≤ b.1

/-- The constructor: `_load_anchor` and `_load_and_verify`. -/
def loadLog (s : AuditSettings) (p : KeyProvider) (dir : AuditDirectory) :
    Except Raised (AuditLog × AuditDirectory) := do
  let (anchorSequence, anchorHash) ← loadAnchor s p dir
  ensure ((segmentNames dir).length ≤ s.maxSegments)
    (.failure ⟨.controlPlaneCapacity, "existing audit segments exceed configured limit"⟩)
  loadSegments s p (segmentNames dir) ⟨anchorSequence, anchorHash, [], [], OrderedDict.empty⟩ dir

end Controlplane
end MegaCache
