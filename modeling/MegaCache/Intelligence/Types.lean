import MegaCache.Controlplane.Keys
import MegaCache.Engine.Documents
import MegaCache.Lib.JsonAscii
import MegaCache.Lib.RoundHalfEven

/-!
# Cache intelligence

`CacheIntelligence`: bounded counters for each key and class, the adaptive TTL that is
computed from them, and the experiment on it.  What the methods tell the storage, its hot
keys and the metrics are not part of this.
-/

namespace MegaCache
namespace Intelligence

open Controlplane (Hashes Digest.hex)

/-- `_Telemetry` -/
structure Telemetry where
  cacheClass : String
  accesses : ℕ := 0
  hits : ℕ := 0
  misses : ℕ := 0
  staleHits : ℕ := 0
  mutations : ℕ := 0
  loads : ℕ := 0
  changes : ℕ := 0
  loadLatencyMs : ℚ := 0
  lastAccess : ℚ := 0
  lastLoad : ℚ := 0
  lastFingerprint : Option String := none
  lastLoadFingerprint : Option String := none
  lastReplication : ℚ := 0
  baseTtlSeconds : Option ℤ := none
deriving DecidableEq, Repr

/-- The counters of a class. -/
structure ClassCounts where
  loads : ℕ := 0
  changes : ℕ := 0
  accesses : ℕ := 0
  hits : ℕ := 0
  misses : ℕ := 0
deriving DecidableEq, Repr

inductive ExperimentStatus
  | disabled
  | running
  | rolledBack
deriving DecidableEq, Repr

inductive Arm
  | control
  | candidate
deriving DecidableEq, Repr

structure Experiment where
  status : ExperimentStatus
  controlHits : ℕ := 0
  controlMisses : ℕ := 0
  candidateHits : ℕ := 0
  candidateMisses : ℕ := 0
  rollbackReason : Json := .null
  persistenceError : Option String := none

/-- What is found at the path of the state file; `unreadable` stands for all that
`_load_state` counts as an error. -/
inductive StateFile
  | absent
  | unreadable
  | document (j : Json)

structure Settings where
  enabled : Bool
  adaptiveTtl : Bool
  minTtlSeconds : ℤ
  maxTtlSeconds : ℤ
  telemetryMaxKeys : ℕ
  telemetryMaxClasses : ℕ
  hotKeyThreshold : ℕ
  hotKeyWindowSeconds : ℕ
  hotKeyExtraReplicas : ℕ
  experiment : Bool
  experimentId : String
  experimentAllocationPercent : ℕ
  experimentMinSamples : ℕ
  experimentMaxMissRegression : ℚ
  hasStateFile : Bool
  hashes : Hashes
  /-- The text of a number in JSON. -/
  repr : ℚ → List Char
  /-- `"{:.6f}".format` -/
  sixDigits : ℚ → String
  ttl_ok : 0 < minTtlSeconds ∧ minTtlSeconds ≤ maxTtlSeconds
  bounds_pos : 0 < telemetryMaxKeys ∧ 0 < telemetryMaxClasses ∧ 0 < hotKeyThreshold ∧
    0 < hotKeyWindowSeconds ∧ 0 < experimentMinSamples
  allocation_le : experimentAllocationPercent ≤ 100
  regression_nonneg : 0 ≤ experimentMaxMissRegression

namespace Settings

variable (c : Settings)

def adaptiveTtlEnabled : Bool := c.adaptiveTtl && c.enabled

def experimentEnabled : Bool := c.experiment && c.enabled

/-- `hashlib.sha256(data).hexdigest()` -/
def fingerprint (data : List UInt8) : String := Digest.hex (c.hashes.sha256 data)

/-- `_bounded_class` -/
def boundedClass (value : String) : String :=
  if value = "" then "default"
  else if (Json.utf8 value.toList).length ≤ 64 then value
  else String.ofList ((c.fingerprint (Json.utf8 value.toList)).toList.take 16)

end Settings

/-- `_class_for_key` -/
def classForKey (key : Key) : String :=
  let start := String.ofList (key.toList.takeWhile (· ≠ ':'))
  if start ≠ "" ∧ (Json.utf8 start.toList).length ≤ 64 then start else "other"

structure State where
  telemetry : OrderedDict Key Telemetry
  classes : OrderedDict String ClassCounts
  experiment : Experiment
  audit : List Json
  file : StateFile

/-- `popitem(last=False)` -/
def popFirst {K V : Type} [DecidableEq K] (d : OrderedDict K V) : OrderedDict K V :=
  match d.keys with
  | [] => d
  | k :: _ => d.erase k

/-- The value of a key, moved to the end, or a new one, for which the oldest one is dropped
when there are too many. -/
def touch {V : Type} (limit : ℕ) (key : String) (fresh : V) (d : OrderedDict String V) :
    V × OrderedDict String V :=
  match d.get? key with
  | some value => (value, d.moveToEnd key)
  | none => (fresh, (if limit ≤ d.size then popFirst d else d).set key fresh)

/-! ## Telemetry -/

section

variable (c : Settings)

/-- `_item` -/
def item (key : Key) (cacheClass : String) (telemetry : OrderedDict Key Telemetry) :
    Telemetry × OrderedDict Key Telemetry :=
  touch c.telemetryMaxKeys key { cacheClass := c.boundedClass cacheClass } telemetry

/-- `_class` -/
def classCounts (cacheClass : String) (classes : OrderedDict String ClassCounts) :
    ClassCounts × OrderedDict String ClassCounts :=
  touch c.telemetryMaxClasses (c.boundedClass cacheClass) {} classes

/-- The class after an update of its counters. -/
def countClass (cacheClass : String) (f : ClassCounts → ClassCounts)
    (classes : OrderedDict String ClassCounts) : OrderedDict String ClassCounts :=
  let (counts, classes) := classCounts c cacheClass classes
  classes.set (c.boundedClass cacheClass) (f counts)

/-- The item after a load from the origin at `now`. -/
def Telemetry.loaded (cacheClass : String) (now durationSeconds : ℚ) (fingerprint : String)
    (item : Telemetry) : Telemetry :=
  { item with
    cacheClass := cacheClass
    loads := item.loads + 1
    changes := item.changes + if item.lastLoadFingerprint.any (· ≠ fingerprint) then 1 else 0
    loadLatencyMs :=
      if item.loads = 0 then max 0 (durationSeconds * 1000)
      else item.loadLatencyMs * (8/10) + max 0 (durationSeconds * 1000) * (2/10)
    lastLoadFingerprint := some fingerprint
    lastLoad := now }

def recordOriginLoad (now : ℚ) (key : Key) (cacheClass : String) (durationSeconds : ℚ)
    (value : List UInt8) (st : State) : State :=
  if c.enabled then
    let (found, telemetry) := item c key cacheClass st.telemetry
    let fingerprint := c.fingerprint value
    let changed := if found.lastLoadFingerprint.any (· ≠ fingerprint) then 1 else 0
    { st with
      telemetry := telemetry.set key
        (found.loaded (c.boundedClass cacheClass) now durationSeconds fingerprint)
      classes := countClass c (c.boundedClass cacheClass)
        (fun counts => { counts with loads := counts.loads + 1, changes := counts.changes + changed })
        st.classes }
  else st

/-- What `_record_mutation` takes the fingerprint of. -/
def encoded : SnapshotValue → List UInt8
  | .bytes data => data
  | .json j => Json.utf8 (Json.dumpsAscii c.repr j)

/-- The item after a mutation. -/
def Telemetry.mutated (fingerprint : String) (item : Telemetry) : Telemetry :=
  { item with
    changes := item.changes + if item.lastFingerprint.any (· ≠ fingerprint) then 1 else 0
    lastFingerprint := some fingerprint
    mutations := item.mutations + 1 }

/-- `_record_mutation`; the value of a deletion is `None`. -/
def recordMutation (key : Key) (value : SnapshotValue) (st : State) : State :=
  let (found, telemetry) := item c key (classForKey key) st.telemetry
  { st with telemetry := telemetry.set key (found.mutated (c.fingerprint (encoded c value))) }

/-! ## The experiment -/

/-- The bucket of a key: the first eight bytes of its digest modulo 100. -/
def bucket (key : Key) : ℕ :=
  (((c.hashes.sha256 (Json.utf8 (c.experimentId.toList ++ '\x00' :: key.toList))).1.take 8).foldl
    (fun n b => 256 * n + b.toNat) 0) % 100

/-- The arm of a key while the experiment runs. -/
def runningArm (key : Key) : Arm :=
  if bucket c key < c.experimentAllocationPercent then .candidate else .control

/-- `_arm` -/
def arm (e : Experiment) (key : Key) : Arm :=
  if c.experimentEnabled = false ∨ e.status ≠ .running then .control else runningArm c key

/-- `_candidate_for` -/
def candidateFor (e : Experiment) (key : Key) : Bool :=
  if c.experimentEnabled then arm c e key = .candidate else true

/-- The states of a result that count as misses. -/
def isMiss : CacheState → Bool
  | .miss | .lease | .loading => true
  | .fresh | .stale | .staleLease => false

def Experiment.count (arm : Arm) (miss : Bool) (e : Experiment) : Experiment :=
  match arm, miss with
  | .control, false => { e with controlHits := e.controlHits + 1 }
  | .control, true => { e with controlMisses := e.controlMisses + 1 }
  | .candidate, false => { e with candidateHits := e.candidateHits + 1 }
  | .candidate, true => { e with candidateMisses := e.candidateMisses + 1 }

def Experiment.controlTotal (e : Experiment) : ℕ := e.controlHits + e.controlMisses

def Experiment.candidateTotal (e : Experiment) : ℕ := e.candidateHits + e.candidateMisses

def Experiment.controlRate (e : Experiment) : ℚ := e.controlMisses / e.controlTotal

def Experiment.candidateRate (e : Experiment) : ℚ := e.candidateMisses / e.candidateTotal

/-- Both arms have enough samples, and the candidate misses too often. -/
def Experiment.fails (e : Experiment) : Prop :=
  c.experimentMinSamples ≤ e.controlTotal ∧ c.experimentMinSamples ≤ e.candidateTotal ∧
    e.controlRate + c.experimentMaxMissRegression < e.candidateRate

instance (e : Experiment) : Decidable (e.fails c) := by
  unfold Experiment.fails
  infer_instance

def rollbackReason (e : Experiment) : String :=
  "candidate miss rate " ++ c.sixDigits e.candidateRate ++ " exceeded control " ++
    c.sixDigits e.controlRate ++ " plus guardrail " ++ c.sixDigits c.experimentMaxMissRegression

/-- How `_save_state_locked` ends: the file replaced, an error before that, or an error
after it. -/
inductive SaveOutcome
  | written
  | failed
  | writtenThenFailed
deriving DecidableEq, Repr

def statusText : ExperimentStatus → String
  | .disabled => "disabled"
  | .running => "running"
  | .rolledBack => "rolled_back"

/-- The items of the state document in the order of their keys. -/
def stateDocument (e : Experiment) (audit : List Json) : Json :=
  .obj [
    ("audit", .arr audit),
    ("experiment_id", .str c.experimentId),
    ("rollback_reason", e.rollbackReason),
    ("status", .str (statusText e.status)),
    ("version", .int 1)]

def persistenceFailed : String :=
  "rollback remains disabled in this process, but the decision may not survive restart " ++
    "because state persistence failed"

/-- `_save_state_locked` -/
def saveState (outcome : SaveOutcome) (st : State) : State :=
  if c.hasStateFile then
    match outcome with
    | .written =>
      { st with
        file := .document (stateDocument c st.experiment st.audit)
        experiment := { st.experiment with persistenceError := none } }
    | .failed => { st with experiment := { st.experiment with persistenceError := some persistenceFailed } }
    | .writtenThenFailed =>
      { st with
        file := .document (stateDocument c st.experiment st.audit)
        experiment := { st.experiment with persistenceError := some persistenceFailed } }
  else st

/-- `audit[-100:]` -/
def lastHundred (audit : List Json) : List Json := audit.drop (audit.length - 100)

/-- The entry of the audit for a rollback. -/
def rollbackDecision (reason : String) (timestamp : ℤ) : Json :=
  .obj [("decision", .str "automatic_rollback"), ("reason", .str reason), ("timestamp", .int timestamp)]

/-- `_record_experiment_locked`, at the wall clock's `timestamp`. -/
def recordExperiment (timestamp : ℤ) (outcome : SaveOutcome) (key : Key) (state : CacheState)
    (st : State) : State :=
  if c.experimentEnabled = false ∨ st.experiment.status ≠ .running then st
  else
    let e := st.experiment.count (arm c st.experiment key) (isMiss state)
    if e.fails c then
      saveState c outcome { st with
        experiment := { e with status := .rolledBack, rollbackReason := .str (rollbackReason c e) }
        audit := lastHundred (st.audit ++ [rollbackDecision (rollbackReason c e) timestamp]) }
    else { st with experiment := e }

/-- The item after an access at `now`; the count begins anew after a pause. -/
def Telemetry.accessed (now : ℚ) (state : CacheState) (item : Telemetry) : Telemetry :=
  let accesses := (if (c.hotKeyWindowSeconds : ℚ) < now - item.lastAccess then 0 else item.accesses) + 1
  { item with
    accesses := accesses
    lastAccess := now
    misses := item.misses + if isMiss state then 1 else 0
    staleHits := item.staleHits + if state = .stale ∨ state = .staleLease then 1 else 0
    hits := item.hits + if state = .fresh then 1 else 0
    lastReplication :=
      if 0 < c.hotKeyExtraReplicas ∧ c.hotKeyThreshold ≤ accesses ∧
        (c.hotKeyWindowSeconds : ℚ) ≤ now - item.lastReplication then now else item.lastReplication }

/-- `_record_access` -/
def recordAccess (now : ℚ) (timestamp : ℤ) (outcome : SaveOutcome) (key : Key) (state : CacheState)
    (st : State) : State :=
  let (found, telemetry) := item c key (classForKey key) st.telemetry
  recordExperiment c timestamp outcome key state { st with
    telemetry := telemetry.set key (found.accessed c now state)
    classes := countClass c found.cacheClass (fun counts =>
      { counts with
        accesses := counts.accesses + 1
        hits := counts.hits + if isMiss state then 0 else 1
        misses := counts.misses + if isMiss state then 1 else 0 }) st.classes }

/-- The state before `_load_state`. -/
def fresh (file : StateFile) : State where
  telemetry := OrderedDict.empty
  classes := OrderedDict.empty
  experiment := { status := if c.experimentEnabled then .running else .disabled }
  audit := []
  file := file

/-- What `_load_state` does with the items of the document. -/
def loadState (fields : List (String × Json)) (st : State) : State :=
  if Controlplane.isText (Controlplane.item fields "experiment_id") c.experimentId = true ∧
      Controlplane.isText (Controlplane.item fields "status") "rolled_back" = true then
    { st with
      experiment := { st.experiment with
        status := .rolledBack
        rollbackReason := Controlplane.item fields "rollback_reason" }
      audit := match Controlplane.item fields "audit" with
        | .arr audit => lastHundred audit
        | _ => st.audit }
  else st

/-- `__init__` -/
def init (file : StateFile) : State :=
  match file with
  | .document (.obj fields) => if c.hasStateFile then loadState c fields (fresh c file) else fresh c file
  | _ => fresh c file

/-! ## The adaptive TTL -/

/-- The factor for an observed change rate. -/
def changeFactor (changeRate : ℚ) : ℚ :=
  if 1/2 ≤ changeRate then 1/4
  else if 1/4 ≤ changeRate then 1/2
  else if 1/10 ≤ changeRate then 3/4
  else 1

/-- The factor after the accesses for each load are looked at. -/
def reuseFactor (reusePerLoad factor : ℚ) : ℚ :=
  if reusePerLoad < 1 then min factor (1/2)
  else if reusePerLoad < 3 then min factor (3/4)
  else factor

/-- `changes / max(1, loads - 1)` -/
def changeRate (loads changes : ℕ) : ℚ := changes / max 1 (loads - 1 : ℕ)

def calculateAdaptiveTtl (configuredTtl : ℤ) (loads changes accesses : ℕ) (minTtl maxTtl : ℤ) : ℤ :=
  if loads < 2 then configuredTtl
  else
    let factor := reuseFactor (accesses / max 1 loads) (changeFactor (changeRate loads changes))
    max 1 (min configuredTtl (min maxTtl (max minTtl (roundHalfEven (configuredTtl * factor)))))

/-- The loads, changes and accesses that `adaptive_ttl` computes with: those of the class
until the key has two loads of its own. -/
def evidence (found : Telemetry) (aggregate : Option ClassCounts) : ℕ × ℕ × ℕ :=
  match aggregate with
  | some counts =>
    if found.loads < 2 then (counts.loads, counts.changes, counts.accesses)
    else (found.loads, found.changes, found.accesses)
  | none => (found.loads, found.changes, found.accesses)

def adaptiveTtl (key : Key) (cacheClass : String) (configuredTtl : ℤ) (st : State) : ℤ × State :=
  if c.adaptiveTtlEnabled then
    let (found, telemetry) := item c key cacheClass st.telemetry
    let st := { st with
      telemetry := telemetry.set key { found with baseTtlSeconds := some configuredTtl } }
    if candidateFor c st.experiment key then
      let (loads, changes, accesses) := evidence found (st.classes.get? (c.boundedClass cacheClass))
      (calculateAdaptiveTtl configuredTtl loads changes accesses c.minTtlSeconds c.maxTtlSeconds, st)
    else (configuredTtl, st)
  else (configuredTtl, st)

/-! ## The facade -/

/-- `get`, `acquire_lease` and `get_or_load`, when the storage answered with `state`. -/
def get (now : ℚ) (timestamp : ℤ) (outcome : SaveOutcome) (key : Key) (state : CacheState)
    (st : State) : State :=
  if c.enabled then recordAccess c now timestamp outcome key state st else st

/-- `put`, when the storage has taken the value. -/
def put (key : Key) (value : SnapshotValue) (st : State) : State :=
  if c.enabled then recordMutation c key value st else st

/-- `mset`, when the storage has taken the values. -/
def mset (values : List (Key × SnapshotValue)) (st : State) : State :=
  if c.enabled then values.foldl (fun st q => recordMutation c q.1 q.2 st) st else st

/-- `delete`, when the storage has said whether there was something to delete. -/
def delete (key : Key) (deleted : Bool) (st : State) : State :=
  if c.enabled = true ∧ deleted = true then recordMutation c key (.json .null) st else st

/-- `delete_many`, when the storage has said how much it deleted. -/
def deleteMany (keys : List Key) (deleted : ℕ) (st : State) : State :=
  if c.enabled = true ∧ deleted ≠ 0 then
    keys.foldl (fun st key => recordMutation c key (.json .null) st) st
  else st

end

end Intelligence
end MegaCache
