import MegaCache.Events.Redelivery
import MegaCache.Lib.JsonLoads

/-!
# Record adapters

The four adapters that turn change records into events over one ingestor.  A record without an
id of its own gets one that is made of its coordinates but not of its source.
-/

namespace MegaCache
namespace Events

open Prog

variable {V : Type}

/-! ## Records -/

structure KafkaRecord where
  topic : String
  partition : ℤ
  offset : ℤ
  value : List UInt8
  timestamp : Option ℚ

/-- The fields that the records of the connectors share. -/
structure ChangeRow where
  operation : String
  row : List (String × Json)
  eventId : Option String
  schemaId : Option String
  timestamp : Option ℚ

structure PostgresLogicalRecord extends ChangeRow where
  slot : String
  lsn : String
  ordinal : Option ℤ

structure MySQLBinlogRecord extends ChangeRow where
  serverId : String
  sequence : ℤ
  binlogFile : String
  binlogPosition : ℤ
  table : String

structure MongoChangeRecord extends ChangeRow where
  database : String
  collection : String
  sequence : ℤ
  resumeToken : String

/-! ## Positions of PostgreSQL -/

/-- `int(text, 16)` of hexadecimal digits. -/
def hexNumber (digits : List Char) : ℕ :=
  digits.foldl (fun n ch => 16 * n + (Json.hexValue ch).getD 0) 0

def isHex (digits : List Char) : Bool :=
  digits ≠ [] && digits.all fun ch => (Json.hexValue ch).isSome

def parsePostgresLsn (value : String) : Except Failure ℕ :=
  match value.toList.splitOn '/' with
  | [high, low] =>
    if isHex high && isHex low then
      if 0xFFFFFFFF < hexNumber high ∨ 0xFFFFFFFF < hexNumber low then
        throw (.eventError "PostgreSQL LSN halves must fit 32 bits")
      else pure ((hexNumber high <<< 32) + hexNumber low)
    else throw (.eventError "PostgreSQL LSN must use HEX/HEX")
  | _ => throw (.eventError "PostgreSQL LSN must use HEX/HEX")

/-- What `feed` compares records by. -/
def PostgresLogicalRecord.orderedPosition (record : PostgresLogicalRecord) :
    Except Failure (ℕ × ℕ) := do
  let ordinal ← match record.ordinal with
    | some n =>
      if n < 0 ∨ 0xFFFFFFFF < n then
        throw (.eventError "PostgreSQL records require a stable 0-based ordinal")
      else pure n.toNat
    | none => throw (.eventError "PostgreSQL records require a stable 0-based ordinal")
  let lsn ← parsePostgresLsn record.lsn
  pure (lsn, ordinal)

def postgresPosition (p : ℕ × ℕ) : ℕ := (p.1 <<< 32) ||| p.2

/-- The order of tuples. -/
def precedes (p q : ℕ × ℕ) : Bool := p.1 < q.1 || p.1 = q.1 && p.2 < q.2

/-! ## Events of records -/

/-- `document[name] = value`. -/
def setItem (name : String) (value : Json) : List (String × Json) → List (String × Json)
  | [] => [(name, value)]
  | field :: fields =>
    if field.1 = name then (name, value) :: fields else field :: setItem name value fields

/-- `record.event_id or fallback`. -/
def eventIdOr (eventId : Option String) (fallback : String) : String :=
  match eventId with
  | some text => if text = "" then fallback else text
  | none => fallback

def KafkaRecord.fallbackId (record : KafkaRecord) : String :=
  record.topic ++ ":" ++ toString record.partition ++ ":" ++ toString record.offset

def KafkaRecord.document (sourceName : String) (record : KafkaRecord)
    (document : List (String × Json)) : List (String × Json) :=
  let document := setItem "source" (.str sourceName) document
  let document := setItem "stream" (.str (record.topic ++ ":" ++ toString record.partition)) document
  let document := setItem "position" (.int record.offset) document
  let document := setItem "cursor" (.str (toString record.offset)) document
  let document := if (document.lookup "event_id").isNone then
    document ++ [("event_id", .str record.fallbackId)] else document
  match record.timestamp with
  | none => document
  | some timestamp => setItem "timestamp" (.float timestamp) document

namespace Automation

variable (a : Automation V)

def eventFromRecord (sourceName : String) (record : KafkaRecord) : EventM V ChangeEvent := do
  match a.loads record.value with
  | none => throw (.eventError "Kafka record value must be a JSON event")
  | some (.obj document) => a.fromDict (record.document sourceName document)
  | some _ => throw (.eventError "Kafka record value must be a JSON object")

/-- `ChangeEvent(...)` of a row. -/
def rowEvent (sourceName stream eventId cursor : String) (position : ℤ) (row : ChangeRow) :
    EventM V ChangeEvent := do
  let timestamp ← match row.timestamp with
    | none => a.ingestor.time
    | some timestamp => pure timestamp
  fromExcept (checked a.ingestor.py
    [("event_id", .str eventId), ("source", .str sourceName), ("stream", .str stream),
      ("position", .int position), ("operation", .str row.operation), ("payload", .obj row.row),
      ("schema_id", optionalText row.schemaId), ("cursor", .str cursor)] (some timestamp))

def postgresEvent (sourceName : String) (record : PostgresLogicalRecord) (p : ℕ × ℕ) :
    EventM V ChangeEvent :=
  a.rowEvent sourceName record.slot
    (eventIdOr record.eventId (record.slot ++ ":" ++ record.lsn ++ ":" ++ toString p.2))
    record.lsn (postgresPosition p) record.toChangeRow

def mysqlEvent (sourceName : String) (record : MySQLBinlogRecord) : EventM V ChangeEvent :=
  let cursor := record.binlogFile ++ ":" ++ toString record.binlogPosition
  a.rowEvent sourceName record.serverId
    (eventIdOr record.eventId (record.serverId ++ ":" ++ cursor ++ ":" ++ record.table))
    cursor record.sequence record.toChangeRow

def mongoEvent (sourceName : String) (record : MongoChangeRecord) : EventM V ChangeEvent :=
  let stream := record.database ++ "." ++ record.collection
  a.rowEvent sourceName stream
    (eventIdOr record.eventId
      (stream ++ ":" ++ toString record.sequence ++ ":" ++ record.resumeToken))
    record.resumeToken record.sequence record.toChangeRow

/-- A record of one of the adapters. -/
inductive ChangeRecord
  | kafka (record : KafkaRecord)
  | postgres (record : PostgresLogicalRecord) (p : ℕ × ℕ)
      (admitted : record.orderedPosition = .ok p)
  | mysql (record : MySQLBinlogRecord)
  | mongo (record : MongoChangeRecord)

def eventOf (sourceName : String) : ChangeRecord → EventM V ChangeEvent
  | .kafka record => a.eventFromRecord sourceName record
  | .postgres record p _ => a.postgresEvent sourceName record p
  | .mysql record => a.mysqlEvent sourceName record
  | .mongo record => a.mongoEvent sourceName record

def ingestRecord (sourceName : String) (record : ChangeRecord) : EventM V EventResult := do
  let event ← a.eventOf sourceName record
  a.ingestor.submit event

/-! ## Batches -/

/-- The key by which `consume_once` sorts. -/
def kafkaLe (r r' : KafkaRecord) : Bool :=
  r.topic < r'.topic || r.topic = r'.topic &&
    (r.partition < r'.partition || r.partition = r'.partition && r.offset ≤ r'.offset)

/-- `consume_once` of polled records: the results and the offsets to commit. -/
def consumeOnce (sourceName : String) (records : List KafkaRecord) :
    EventM V (List EventResult × OrderedDict (String × ℤ) ℤ) := do
  let ordered := records.insertionSort fun r r' => kafkaLe r r' = true
  let results ← Prog.collect (fun record => a.ingestRecord sourceName (.kafka record)) ordered
  pure (results, ordered.foldl (fun offsets record =>
    offsets.set (record.topic, record.partition) (record.offset + 1)) .empty)

/-- The records of a batch with their positions. -/
def positioned : List PostgresLogicalRecord → Except Failure (List ChangeRecord × List (ℕ × ℕ))
  | [] => pure ([], [])
  | record :: records =>
    match h : record.orderedPosition with
    | .error e => throw e
    | .ok p => do
      let (rest, positions) ← positioned records
      pure (.postgres record p h :: rest, p :: positions)

def postgresFeed (sourceName : String) (batch : List PostgresLogicalRecord) :
    EventM V (List EventResult) := do
  let (records, positions) ← fromExcept (positioned batch)
  fromExcept (raiseIf (((positions.zip positions.tail).any fun q => !precedes q.1 q.2) = true)
    (.eventError "PostgreSQL records must be a strictly ordered change batch"))
  Prog.collect (a.ingestRecord sourceName) records

def mysqlFeed (sourceName : String) (records : List MySQLBinlogRecord) :
    EventM V (List EventResult) :=
  Prog.collect (fun record => a.ingestRecord sourceName (.mysql record)) records

def mongoFeed (sourceName : String) (records : List MongoChangeRecord) :
    EventM V (List EventResult) :=
  Prog.collect (fun record => a.ingestRecord sourceName (.mongo record)) records

end Automation

/-! ## Positions -/

theorem orderedPosition_bound {record : PostgresLogicalRecord} {p : ℕ × ℕ}
    (h : record.orderedPosition = .ok p) : p.2 < 2 ^ 32 := by
  unfold PostgresLogicalRecord.orderedPosition at h
  cases hordinal : record.ordinal with
  | none =>
    rw [hordinal] at h
    cases h
  | some n =>
    rw [hordinal] at h
    dsimp only at h
    split_ifs at h with hbad
    · cases h
    · cases hlsn : parsePostgresLsn record.lsn with
      | error e =>
        rw [hlsn] at h
        cases h
      | ok lsn =>
        rw [hlsn] at h
        obtain rfl : (lsn, n.toNat) = p := Except.ok.inj h
        show n.toNat < 2 ^ 32
        omega

theorem postgresPosition_eq {p : ℕ × ℕ} (h : p.2 < 2 ^ 32) :
    postgresPosition p = 2 ^ 32 * p.1 + p.2 := by
  rw [postgresPosition, ← Nat.shiftLeft_add_eq_or_of_lt h, Nat.shiftLeft_eq, Nat.mul_comm]

/-- Positions grow with LSN and ordinal. -/
theorem postgresPosition_lt_iff {p q : ℕ × ℕ} (hp : p.2 < 2 ^ 32) (hq : q.2 < 2 ^ 32) :
    postgresPosition p < postgresPosition q ↔ p.1 < q.1 ∨ p.1 = q.1 ∧ p.2 < q.2 := by
  rw [postgresPosition_eq hp, postgresPosition_eq hq]
  omega

/-! ## What the store remembers -/

/-- Ids and checkpoints are among the given ones. -/
structure Within (ids : Set String) (places : Set (String × ℕ)) (s : State) : Prop where
  seen : ∀ id ∈ s.seen, id ∈ ids
  checkpoints : ∀ key p, s.checkpoints.get? key = some p → (key, p.position) ∈ places

theorem Within.mono {ids ids' : Set String} {places places' : Set (String × ℕ)} {s : State}
    (h : Within ids places s) (hids : ids ⊆ ids') (hplaces : places ⊆ places') :
    Within ids' places' s :=
  ⟨fun id hid => hids (h.seen id hid), fun key p hp => hplaces (h.checkpoints key p hp)⟩

/-- The trace grows, and memory and file stay among the given ids and places. -/
structure Keeps (ids : Set String) (places : Set (String × ℕ)) (w w' : World V) : Prop where
  grows : ∃ new, w'.trace = new ++ w.trace
  within : Within ids places w.memory → Within ids places w.durable →
    Within ids places w'.memory ∧ Within ids places w'.durable

variable {ids : Set String} {places : Set (String × ℕ)} {g : Ingestor V} {w w' : World V}
  {e : ChangeEvent}

instance : Std.Refl (Keeps (V := V) ids places) :=
  ⟨fun _ => ⟨⟨[], rfl⟩, fun hm hd => ⟨hm, hd⟩⟩⟩

instance : IsTrans (World V) (Keeps ids places) where
  trans _ _ _ h h' := by
    obtain ⟨new, hnew⟩ := h.grows
    obtain ⟨new', hnew'⟩ := h'.grows
    refine ⟨⟨new' ++ new, by rw [hnew', hnew, List.append_assoc]⟩, fun hm hd => ?_⟩
    obtain ⟨hm₁, hd₁⟩ := h.within hm hd
    exact h'.within hm₁ hd₁

theorem Calm.keeps (h : Calm g w w') : Keeps ids places w w' := by
  obtain ⟨new, -, hnew⟩ := h.trace
  refine ⟨⟨new, hnew⟩, fun hm hd => ?_⟩
  rw [h.memory, h.durable]
  exact ⟨hm, hd⟩

namespace Ingestor

theorem keeps_of_calm {α : Type} {m : EventM V α} (h : Rel (Calm g) m) :
    Rel (Keeps ids places) m :=
  h.mono fun _ _ => Calm.keeps

theorem keeps_mutate {α : Type} {mutation : State → EventM V (α × State)}
    (hq : ∀ s, Rel (Calm g) (mutation s))
    (hm : ∀ s w x s' w', mutation s w = (.ok (x, s'), w') →
      Within ids places s → Within ids places s') :
    Rel (Keeps ids places) (g.mutate mutation) := by
  intro w
  obtain ⟨f, -, hc⟩ | ⟨x, candidate, w₁, hrun, -, hw, hr⟩ :=
    mutate_cases hq (show g.mutate mutation w = ((g.mutate mutation w).1, (g.mutate mutation w).2)
      from rfl)
  · exact hc.keeps
  · obtain ⟨new, -, hnew⟩ := hw.trace
    refine ⟨⟨new, hnew⟩, fun hmem hdur => ?_⟩
    have hcandidate := hm _ _ _ _ _ hrun hmem
    rw [hw.durable]
    obtain ⟨-, hsame⟩ | ⟨-, hsame⟩ := hr <;> rw [hsame]
    · exact ⟨hmem, hcandidate⟩
    · exact ⟨hcandidate, hcandidate⟩

theorem keeps_edit {f : State → EventM V State} (hq : ∀ s, Rel (Calm g) (f s))
    (hf : ∀ s w s' w', f s w = (.ok s', w') → Within ids places s → Within ids places s') :
    Rel (Keeps ids places) (g.edit f) := by
  refine keeps_mutate (fun s => Rel.bind (hq s) fun _ => Rel.pure _) fun s w x s' w' h hs => ?_
  rw [bind_eq_ok] at h
  obtain ⟨s₁, w₁, hrun, hpure⟩ := h
  obtain ⟨heq, -⟩ := Prod.mk.inj hpure
  obtain ⟨-, rfl⟩ := Prod.mk.inj (Except.ok.inj heq)
  exact hf _ _ _ _ hrun hs

/-- An edit of the queue or of the claims. -/
theorem keeps_edit_same {f : State → EventM V State} (hq : ∀ s, Rel (Calm g) (f s))
    (hf : ∀ s w s' w', f s w = (.ok s', w') →
      s'.seen = s.seen ∧ s'.checkpoints = s.checkpoints) :
    Rel (Keeps ids places) (g.edit f) := by
  refine keeps_edit hq fun s w s' w' h hs => ?_
  obtain ⟨hseen, hcheckpoints⟩ := hf s w s' w' h
  refine ⟨?_, ?_⟩
  · rw [hseen]
    exact hs.seen
  · rw [hcheckpoints]
    exact hs.checkpoints

theorem within_committed (hid : e.eventId ∈ ids) (hplace : (e.checkpointKey, e.position) ∈ places)
    {s : State} (h : Within ids places s) (t : ℚ) (letters : List DeadLetter) :
    Within ids places (g.committed e t { s with deadLetters := letters }) where
  seen id hmem := by
    rcases mem_rememberSeen hmem with hold | rfl
    · exact h.seen id hold
    · exact hid
  checkpoints key p hp := by
    rw [committed, rememberSeen] at hp
    by_cases hkey : key = e.checkpointKey
    · subst hkey
      rw [OrderedDict.get?_set_self] at hp
      obtain rfl := Option.some.inj hp
      exact hplace
    · rw [OrderedDict.get?_set, if_neg hkey] at hp
      exact h.checkpoints key p hp

section Submitted

variable (hid : e.eventId ∈ ids) (hplace : (e.checkpointKey, e.position) ∈ places)

include hid hplace

theorem keeps_complete : Rel (Keeps ids places) (g.complete e : EventM V Unit) := by
  refine keeps_edit (calm_completed e) fun s w s' w' h hs => ?_
  obtain ⟨t, rfl⟩ := completed_ok h
  exact within_committed hid hplace hs t s.deadLetters

theorem keeps_deadLetter (error : String) :
    Rel (Keeps ids places) (g.deadLetter e error : EventM V Unit) := by
  refine Rel.bind (keeps_of_calm calm_time) fun t => ?_
  refine keeps_edit (calm_queued e t _) fun s w s' w' h hs => ?_
  obtain ⟨t', rfl⟩ := queued_ok h
  exact within_committed hid hplace hs t' _

theorem keeps_ingest : Rel (Keeps ids places) (g.ingest e : EventM V EventResult) := by
  have hresult : ∀ outcome error, Rel (Keeps ids places)
      (result outcome e error : EventM V EventResult) :=
    fun outcome error => keeps_of_calm (g := g) (calm_result outcome e error)
  have hqueue : Rel (Keeps ids places) (g.applyOrQueue e : EventM V (EventResult × Bool)) := by
    refine Rel.tryCatch (Rel.bind (keeps_of_calm (calm_prepareAndApply e)) fun _ => Rel.pure _)
      fun f => Rel.ite (fun _ => Rel.throw _) fun _ => ?_
    exact Rel.bind (keeps_deadLetter hid hplace _) fun _ =>
      Rel.bind (hresult _ _) fun _ => Rel.pure _
  refine Rel.bind (Rel.fromExcept _) fun _ => Rel.bind (Rel.fromExcept _) fun _ =>
    Rel.bind Rel.get fun w => Rel.ite (fun _ => hresult _ _) fun _ =>
    Rel.ite (fun _ => hresult _ _) fun _ => ?_
  refine Rel.bind (keeps_of_calm (calm_ensureCompleteCapacity e)) fun _ =>
    Rel.bind hqueue fun x => ?_
  exact Rel.bind (Rel.ite (fun _ => keeps_complete hid hplace) fun _ => Rel.pure _)
    fun _ => Rel.pure _

theorem keeps_submit : Rel (Keeps ids places) (g.submit e : EventM V EventResult) := by
  refine Rel.bind (Rel.modify fun w => ⟨⟨[.submitted e], rfl⟩, fun hm hd => ⟨hm, hd⟩⟩) fun _ => ?_
  refine Rel.bind (keeps_ingest hid hplace) fun r => ?_
  exact Rel.bind (Rel.modify fun w => ⟨⟨[.answered e r.outcome], rfl⟩, fun hm hd => ⟨hm, hd⟩⟩)
    fun _ => Rel.pure _

end Submitted

theorem keeps_retryDeadLetters (limit : ℤ) :
    Rel (Keeps ids places) (g.retryDeadLetters limit : EventM V Retried) := by
  have hletter : ∀ current counts d,
      Rel (Keeps ids places) (g.retryLetter limit current counts d : EventM V Retried) := by
    intro current counts d
    refine Rel.ite (fun _ => Rel.pure _) fun _ => Rel.bind ?_ fun x => ?_
    · exact Rel.tryCatch
        (Rel.bind (keeps_of_calm (calm_prepareAndApply d.event)) fun _ => Rel.pure _)
        fun f => Rel.ite (fun _ => Rel.pure _) fun _ => Rel.throw _
    · cases x with
      | none =>
        refine Rel.bind (keeps_edit_same (fun s => Rel.pure _) fun s w s' w' h => ?_)
          fun _ => Rel.pure _
        obtain rfl := Except.ok.inj (Prod.mk.inj h).1
        exact ⟨rfl, rfl⟩
      | some f =>
        refine Rel.bind (keeps_edit_same (fun s => Rel.bind (Rel.fromExcept _) fun _ => Rel.pure _)
          fun s w s' w' h => ?_) fun _ => Rel.pure _
        rw [bind_eq_ok] at h
        obtain ⟨_, w₁, -, h⟩ := h
        obtain rfl := Except.ok.inj (Prod.mk.inj h).1
        exact ⟨rfl, rfl⟩
  exact Rel.bind (Rel.fromExcept _) fun _ => Rel.bind (keeps_of_calm calm_time) fun _ =>
    Rel.bind (Rel.fromExcept _) fun _ => Rel.bind Rel.get fun _ =>
      Rel.fold (fun counts d _ => hletter _ counts d) _

theorem keeps_claimReplayToken (token : String) (expiresAt current : ℚ) :
    Rel (Keeps ids places) (g.claimReplayToken token expiresAt current : EventM V Bool) := by
  refine keeps_mutate (claimReplayToken_calm token expiresAt current) fun s w x s' w' h hs => ?_
  obtain ⟨replay, rfl⟩ := claimed_ok h
  exact ⟨hs.seen, hs.checkpoints⟩

theorem load_keeps {r : Except Failure Unit} (hrun : g.load w = (r, w'))
    (h : Within ids places w.durable) : (∃ new, w'.trace = new ++ w.trace) ∧
      Within ids places w'.durable ∧ (r = .ok () → Within ids places w'.memory) := by
  obtain ⟨f, rfl, hc⟩ | ⟨-, hfile, rfl⟩ | ⟨s, replay, w₁, hfile, -, hc, hend⟩ := load_cases hrun
  · obtain ⟨new, -, hnew⟩ := hc.trace
    refine ⟨⟨new, hnew⟩, ?_, fun hok => by cases hok⟩
    rw [hc.durable]
    exact h
  · refine ⟨⟨[], rfl⟩, h, fun _ => ?_⟩
    exact ⟨by simp [State.empty], by simp [State.empty]⟩
  · have hs : Within ids places { s with replayTokens := replay } := by
      rw [World.durable, hfile, Option.getD_some] at h
      exact ⟨h.seen, h.checkpoints⟩
    obtain ⟨new, -, hnew⟩ := hc.trace
    obtain ⟨hw, hr⟩ | ⟨rfl, rfl, rfl⟩ := hend
    · obtain ⟨new', -, hnew'⟩ := hw.trace
      refine ⟨⟨new' ++ new, by rw [hnew', hnew, List.append_assoc]⟩, hw.durable ▸ hs, ?_⟩
      rintro rfl
      obtain ⟨f, hf⟩ | hmem := hr
      · cases hf
      · rw [hmem]
        exact hs
    · refine ⟨⟨new, hnew⟩, ?_, fun _ => hs⟩
      show Within ids places w₁.durable
      rw [hc.durable]
      exact h

end Ingestor

/-! ## Runs -/

open Automation (ChangeRecord)

variable {a : Automation V} {p : Process V}

/-- What a run of adapters over one ingestor reaches, with retries, claims, other events, other
clients of the engine, stops and restarts in between. -/
inductive FeedRuns (a : Automation V) : Process V → Prop
  | init : FeedRuns a .init
  | luck {p : Process V} (luck : List (Luck V)) :
    FeedRuns a p → FeedRuns a ⟨{ p.world with luck := luck }, p.up⟩
  | record {p : Process V} (sourceName : String) (record : ChangeRecord) :
    FeedRuns a p → p.up = true →
    FeedRuns a (.after (a.ingestRecord sourceName record p.world))
  | other {p : Process V} (action : Action V) :
    FeedRuns a p → FeedRuns a (p.step a.ingestor action)

/-- The ids and the places of the submitted events. -/
def idsOf (trace : List (Moment V)) : Set String := {id | ∃ e, Submitted trace e ∧ e.eventId = id}

def placesOf (trace : List (Moment V)) : Set (String × ℕ) :=
  {place | ∃ e, Submitted trace e ∧ (e.checkpointKey, e.position) = place}

/-- What a process remembers comes from submitted events. -/
structure Sourced (p : Process V) : Prop where
  durable : Within (idsOf p.world.trace) (placesOf p.world.trace) p.world.durable
  memory : p.up = true → Within (idsOf p.world.trace) (placesOf p.world.trace) p.world.memory

theorem Within.grow {trace : List (Moment V)} {s : State}
    (h : Within (idsOf trace) (placesOf trace) s) (new : List (Moment V)) :
    Within (idsOf (new ++ trace)) (placesOf (new ++ trace)) s := by
  refine h.mono ?_ ?_
  · rintro id ⟨e, he, hid⟩
    exact ⟨e, List.mem_append_right _ he, hid⟩
  · rintro place ⟨e, he, hplace⟩
    exact ⟨e, List.mem_append_right _ he, hplace⟩

theorem Sourced.after {α : Type} (h : Sourced p) (hup : p.up = true)
    {x : Except Failure α × World V}
    (hx : Keeps (idsOf x.2.trace) (placesOf x.2.trace) p.world x.2) : Sourced (.after x) := by
  obtain ⟨⟨new, hnew⟩, hwithin⟩ := hx
  have hmemory := (h.memory hup).grow new
  have hdurable := h.durable.grow new
  rw [← hnew] at hmemory hdurable
  obtain ⟨hm, hd⟩ := hwithin hmemory hdurable
  refine ⟨?_, fun _ => ?_⟩
  · rw [Process.after_world]
    exact hd
  · rw [Process.after_world]
    exact hm

theorem submit_submitted (e : ChangeEvent) (w : World V) : Submitted (g.submit e w).2.trace e := by
  have hrest : Rel (Keeps Set.univ Set.univ) (do
      let r ← g.ingest e
      modify fun w => { w with trace := .answered e r.outcome :: w.trace }
      pure r : EventM V EventResult) :=
    Rel.bind (Ingestor.keeps_ingest trivial trivial) fun r =>
      Rel.bind (Rel.modify fun w => ⟨⟨[.answered e r.outcome], rfl⟩, fun hm hd => ⟨hm, hd⟩⟩)
        fun _ => Rel.pure _
  obtain ⟨new, hnew⟩ := (hrest { w with trace := .submitted e :: w.trace }).grows
  have htrace : (g.submit e w).2.trace = new ++ .submitted e :: w.trace := hnew
  rw [htrace]
  exact List.mem_append_right _ List.mem_cons_self

theorem keeps_submit_self (e : ChangeEvent) (w : World V) :
    Keeps (idsOf (g.submit e w).2.trace) (placesOf (g.submit e w).2.trace) w (g.submit e w).2 := by
  have hid : e.eventId ∈ idsOf (g.submit e w).2.trace := ⟨e, submit_submitted e w, rfl⟩
  have hplace : (e.checkpointKey, e.position) ∈ placesOf (g.submit e w).2.trace :=
    ⟨e, submit_submitted e w, rfl⟩
  exact Ingestor.keeps_submit hid hplace w

theorem calm_eventOf (sourceName : String) (record : ChangeRecord) :
    Rel (Calm a.ingestor) (a.eventOf sourceName record) := by
  have hrow : ∀ stream eventId cursor position row,
      Rel (Calm a.ingestor) (a.rowEvent sourceName stream eventId cursor position row) := by
    intro stream eventId cursor position row
    unfold Automation.rowEvent
    cases row.timestamp with
    | none => exact Rel.bind Ingestor.calm_time fun _ => Rel.fromExcept _
    | some timestamp => exact Rel.bind (Rel.pure timestamp) fun _ => Rel.fromExcept _
  cases record with
  | kafka record =>
    show Rel _ (a.eventFromRecord sourceName record)
    unfold Automation.eventFromRecord
    split
    · exact Rel.throw _
    · exact Rel.bind (Rel.fromExcept _) fun _ => Rel.bind Ingestor.calm_time fun _ =>
        Rel.fromExcept _
    · exact Rel.throw _
  | postgres record q admitted => exact hrow _ _ _ _ _
  | mysql record => exact hrow _ _ _ _ _
  | mongo record => exact hrow _ _ _ _ _

theorem Sourced.record (h : Sourced p) (hup : p.up = true) (sourceName : String)
    (record : ChangeRecord) : Sourced (.after (a.ingestRecord sourceName record p.world)) := by
  refine h.after hup ?_
  rcases hevent : a.eventOf sourceName record p.world with ⟨f | e, w₁⟩
  · have hrun : a.ingestRecord sourceName record p.world = (.error f, w₁) := run_bind_error hevent _
    rw [hrun]
    exact ((calm_eventOf sourceName record).run hevent).keeps
  · have hrun : a.ingestRecord sourceName record p.world = a.ingestor.submit e w₁ :=
      run_bind_ok hevent _
    rw [hrun]
    exact trans_of (Keeps _ _) ((calm_eventOf sourceName record).run hevent).keeps
      (keeps_submit_self e w₁)

theorem Sourced.step (h : Sourced p) (action : Action V) : Sourced (p.step g action) := by
  cases action with
  | call c luck =>
    simp only [Process.step]
    split_ifs with hup
    · have hluck : Sourced ⟨{ p.world with luck := luck }, p.up⟩ := ⟨h.durable, h.memory⟩
      refine hluck.after hup ?_
      cases c with
      | ingest e =>
        have hsame : (EventCall.run g (.ingest e) { p.world with luck := luck }).2 =
            (g.submit e { p.world with luck := luck }).2 := by
          rw [EventCall.run, run_bind]
          rcases g.submit e { p.world with luck := luck } with ⟨f | r, w₁⟩ <;> rfl
        rw [hsame]
        exact keeps_submit_self e _
      | retry limit =>
        exact Rel.bind (Ingestor.keeps_retryDeadLetters limit) (fun _ => Rel.pure _) _
      | claim token expiresAt current =>
        exact Rel.bind (Ingestor.keeps_claimReplayToken token expiresAt current)
          (fun _ => Rel.pure _) _
    · exact h
  | clients calls =>
    simp only [Process.step]
    split_ifs with hup
    · exact ⟨h.durable, h.memory⟩
    · exact h
  | restart luck =>
    simp only [Process.step]
    rcases hrun : g.load { p.world with engine := Engine.init, luck := luck } with ⟨f | u, w⟩
    all_goals
      obtain ⟨new, hnew⟩ := (@Ingestor.load_keeps V Set.univ Set.univ _ _ _ _ hrun
        ⟨fun _ _ => trivial, fun _ _ _ => trivial⟩).1
      have hdurable : Within (idsOf w.trace) (placesOf w.trace)
          ({ p.world with engine := Engine.init, luck := luck } : World V).durable := by
        rw [hnew]
        exact h.durable.grow new
      obtain ⟨-, hd, hm⟩ := Ingestor.load_keeps hrun hdurable
    · exact ⟨hd, fun hup => by cases hup⟩
    · exact ⟨hd, fun _ => hm rfl⟩

theorem FeedRuns.sourced (h : FeedRuns a p) : Sourced p := by
  induction h with
  | init => exact ⟨⟨by simp [Process.init, World.durable, State.empty],
      by simp [Process.init, World.durable, State.empty]⟩, by simp [Process.init]⟩
  | luck luck _ ih => exact ⟨ih.durable, ih.memory⟩
  | record sourceName record _ hup ih => exact ih.record hup sourceName record
  | other action _ ih => exact ih.step action

/-! ## Batches -/

/-- A batch is a sequence of records. -/
theorem FeedRuns.collect {α : Type} {body : α → EventM V EventResult}
    (hbody : ∀ x, ∃ sourceName record, body x = a.ingestRecord sourceName record) (xs : List α)
    (h : FeedRuns a p) (hup : p.up = true) : FeedRuns a (.after (Prog.collect body xs p.world)) := by
  induction xs generalizing p with
  | nil =>
    obtain ⟨w, up⟩ := p
    obtain rfl : up = true := hup
    exact h
  | cons x xs ih =>
    obtain ⟨sourceName, record, hx⟩ := hbody x
    have hone := h.record sourceName record hup
    rw [← hx] at hone
    rcases hrun : body x p.world with ⟨f | r, w⟩ <;> rw [hrun] at hone
    · rw [Prog.collect, run_bind_error hrun]
      cases f <;> exact hone
    · have hrest := ih hone rfl
      have hw : (Process.after ((.ok r : Except Failure EventResult), w)).world = w := rfl
      rw [hw] at hrest
      rw [Prog.collect, run_bind_ok hrun]
      rcases hrs : Prog.collect body xs w with ⟨f | rs, w'⟩ <;> rw [hrs] at hrest
      · rw [run_bind_error hrs]
        cases f <;> exact hrest
      · rw [run_bind_ok hrs]
        exact hrest

theorem orderedPosition_error {record : PostgresLogicalRecord} {f : Failure}
    (h : record.orderedPosition = .error f) : f ≠ .stopped := by
  rintro rfl
  unfold PostgresLogicalRecord.orderedPosition at h
  cases hordinal : record.ordinal with
  | none =>
    rw [hordinal] at h
    cases h
  | some n =>
    rw [hordinal] at h
    dsimp only at h
    split_ifs at h
    · cases h
    · cases hlsn : parsePostgresLsn record.lsn with
      | ok lsn =>
        rw [hlsn] at h
        cases h
      | error e =>
        rw [hlsn] at h
        obtain rfl : e = .stopped := Except.error.inj h
        unfold parsePostgresLsn at hlsn
        split at hlsn
        · split_ifs at hlsn <;> cases hlsn
        · cases hlsn

theorem positioned_error {batch : List PostgresLogicalRecord} {f : Failure}
    (h : Automation.positioned batch = .error f) : f ≠ .stopped := by
  induction batch with
  | nil => cases h
  | cons record batch ih =>
    unfold Automation.positioned at h
    split at h
    · rename_i e he
      obtain rfl : e = f := Except.error.inj h
      exact orderedPosition_error he
    · cases hrest : Automation.positioned batch with
      | error e =>
        rw [hrest] at h
        obtain rfl : e = f := Except.error.inj h
        exact ih hrest
      | ok rest =>
        rw [hrest] at h
        cases h

theorem FeedRuns.raise {α : Type} (h : FeedRuns a p) (hup : p.up = true) {f : Failure}
    (hf : f ≠ .stopped) : FeedRuns a (.after ((.error f : Except Failure α), p.world)) := by
  obtain ⟨w, up⟩ := p
  obtain rfl : up = true := hup
  cases f <;> first | exact h | exact absurd rfl hf

/-- What a batch of any adapter leaves is reached record by record. -/
theorem FeedRuns.batch (h : FeedRuns a p) (hup : p.up = true) (sourceName : String) :
    (∀ records, FeedRuns a (.after (a.consumeOnce sourceName records p.world))) ∧
    (∀ records, FeedRuns a (.after (a.postgresFeed sourceName records p.world))) ∧
    (∀ records, FeedRuns a (.after (a.mysqlFeed sourceName records p.world))) ∧
    ∀ records, FeedRuns a (.after (a.mongoFeed sourceName records p.world)) := by
  refine ⟨fun records => ?_, fun records => ?_, fun records => ?_, fun records => ?_⟩
  · have hall := h.collect (fun record => ⟨sourceName, .kafka record, rfl⟩)
      (records.insertionSort fun r r' => Automation.kafkaLe r r' = true) hup
    rw [Automation.consumeOnce]
    rcases hrun : Prog.collect (fun record => a.ingestRecord sourceName (.kafka record))
        (records.insertionSort fun r r' => Automation.kafkaLe r r' = true) p.world with ⟨f | rs, w⟩ <;>
      rw [hrun] at hall
    · rw [run_bind_error hrun]
      cases f <;> exact hall
    · rw [run_bind_ok hrun]
      exact hall
  · rw [Automation.postgresFeed]
    cases hpositioned : Automation.positioned records with
    | error f => exact h.raise hup (positioned_error hpositioned)
    | ok positioned =>
      obtain ⟨changes, positions⟩ := positioned
      rw [run_bind_ok (show fromExcept (.ok (changes, positions)) p.world = (.ok (changes, positions), p.world)
        from rfl)]
      dsimp only
      by_cases horder : ((positions.zip positions.tail).any fun q => !precedes q.1 q.2) = true
      · rw [raiseIf, if_pos horder]
        exact h.raise hup (by simp)
      · rw [raiseIf, if_neg horder]
        exact h.collect (fun record => ⟨sourceName, record, rfl⟩) changes hup
  · exact h.collect (fun record => ⟨sourceName, .mysql record, rfl⟩) records hup
  · exact h.collect (fun record => ⟨sourceName, .mongo record, rfl⟩) records hup

/-! ## Suppressed records -/

/-- The event is beyond every submitted event of its stream. -/
def NewIn (trace : List (Moment V)) (e : ChangeEvent) : Prop :=
  ∀ e', Submitted trace e' → SameStream e' e → e'.position < e.position

namespace Ingestor

/-- An event that the store does not know is processed or queued. -/
theorem ingest_outcome {r : EventResult} (h : g.ingest e w = (.ok r, w')) :
    (e.eventId ∈ w.memory.seen → r.outcome = .duplicate) ∧
    (e.eventId ∉ w.memory.seen → ¬Below w.memory e →
      r.outcome = .processed ∨ r.outcome = .deadLetter) := by
  rw [ingest, bind_eq_ok] at h
  obtain ⟨_, w₁, h₁, h⟩ := h
  obtain ⟨-, rfl⟩ := fromExcept_eq_ok.mp h₁
  rw [bind_eq_ok] at h
  obtain ⟨_, w₁, h₁, h⟩ := h
  obtain ⟨-, rfl⟩ := fromExcept_eq_ok.mp h₁
  rw [run_bind_ok (run_get w), run_ite, run_ite] at h
  split_ifs at h with hseen hposition
  · refine ⟨fun _ => ?_, fun hnot => absurd hseen hnot⟩
    obtain rfl := Except.ok.inj (Prod.mk.inj h).1
    rfl
  · refine ⟨fun hmem => absurd hmem hseen, fun _ hnew => absurd ?_ hnew⟩
    cases hp : w.memory.checkpoints.get? e.checkpointKey with
    | none => simp [hp] at hposition
    | some p => exact ⟨p, hp, by simpa [hp] using hposition⟩
  · refine ⟨fun hmem => absurd hmem hseen, fun _ _ => ?_⟩
    rw [bind_eq_ok] at h
    obtain ⟨_, w₁, -, h⟩ := h
    rw [bind_eq_ok] at h
    obtain ⟨⟨x, applied⟩, w₂, hqueue, h⟩ := h
    rw [bind_eq_ok] at h
    obtain ⟨_, w₃, -, h⟩ := h
    obtain rfl := Except.ok.inj (Prod.mk.inj h).1
    obtain ⟨y, happ, hres⟩ | ⟨f, w₄, -, ⟨-, hres, -⟩ | ⟨-, ⟨f', -, hres⟩ | ⟨-, y, hout, hres⟩⟩⟩ :=
      applyOrQueue_cases hqueue
    · obtain ⟨rfl, -⟩ := Prod.mk.inj (Except.ok.inj hres)
      exact .inl (prepareAndApply_outcome happ)
    · cases hres
    · cases hres
    · obtain ⟨rfl, -⟩ := Prod.mk.inj (Except.ok.inj hres)
      exact .inr hout

end Ingestor

theorem Sourced.not_below (h : Sourced p) (hup : p.up = true) (hnew : NewIn p.world.trace e) :
    ¬Below p.world.memory e := by
  rintro ⟨checkpoint, hcheckpoint, hle⟩
  obtain ⟨e', hsubmitted, hplace⟩ := (h.memory hup).checkpoints _ _ hcheckpoint
  obtain ⟨hkey, hposition⟩ := Prod.mk.inj hplace
  have hlt := hnew e' hsubmitted (sameStream_iff.mpr hkey)
  omega

/-- In every run, a record that is new in its stream is suppressed exactly when its id is one that
the store remembers; such an id is that of an earlier event, of any source.  Batches are sequences
of records, and positions of PostgreSQL grow with LSN and ordinal. -/
theorem records_suppressed_iff (h : FeedRuns a p) (hup : p.up = true) {sourceName : String}
    {record : ChangeRecord} {r : EventResult} {w₁ : World V}
    (hevent : a.eventOf sourceName record p.world = (.ok e, w₁)) (hnew : NewIn p.world.trace e)
    (hsubmit : a.ingestor.submit e w₁ = (.ok r, w')) :
    ((r.outcome ≠ .duplicate ∧ r.outcome ≠ .replayed) ↔ e.eventId ∉ p.world.memory.seen) ∧
    (∀ id ∈ p.world.memory.seen, ∃ e', Submitted p.world.trace e' ∧ e'.eventId = id) ∧
    (∀ sourceName, (∀ records, FeedRuns a (.after (a.consumeOnce sourceName records p.world))) ∧
      (∀ records, FeedRuns a (.after (a.postgresFeed sourceName records p.world))) ∧
      (∀ records, FeedRuns a (.after (a.mysqlFeed sourceName records p.world))) ∧
      ∀ records, FeedRuns a (.after (a.mongoFeed sourceName records p.world))) ∧
    ∀ s s' q q', PostgresLogicalRecord.orderedPosition s = .ok q →
      PostgresLogicalRecord.orderedPosition s' = .ok q' →
      (postgresPosition q < postgresPosition q' ↔ q.1 < q'.1 ∨ q.1 = q'.1 ∧ q.2 < q'.2) := by
  have hmemory : w₁.memory = p.world.memory := ((calm_eventOf sourceName record).run hevent).memory
  have hbelow := h.sourced.not_below hup hnew
  rw [Ingestor.submit, run_bind_ok (run_modify _ _), bind_eq_ok] at hsubmit
  obtain ⟨r', w₂, hingest, hsubmit⟩ := hsubmit
  rw [bind_eq_ok] at hsubmit
  obtain ⟨_, w₃, -, hsubmit⟩ := hsubmit
  obtain rfl := Except.ok.inj (Prod.mk.inj hsubmit).1
  obtain ⟨hseen, hunseen⟩ := Ingestor.ingest_outcome hingest
  rw [hmemory] at hseen hunseen
  refine ⟨⟨fun hout hmem => hout.1 (hseen hmem), fun hnot => ?_⟩, ?_, ?_, ?_⟩
  · rcases hunseen hnot hbelow with hout | hout <;> simp [hout]
  · exact (h.sourced.memory hup).seen
  · exact h.batch hup
  · intro s s' q q' hq hq'
    exact postgresPosition_lt_iff (orderedPosition_bound hq) (orderedPosition_bound hq')

/-- The source, the stream, the position and the id of an event. -/
def coordinates (e : ChangeEvent) : String × String × ℕ × String :=
  (e.source, e.stream, e.position, e.eventId)

/-- The coordinates of the submitted events. -/
def submissions (trace : List (Moment V)) : List (String × String × ℕ × String) :=
  trace.filterMap fun
    | .submitted e => some (coordinates e)
    | .answered _ _ | .storage _ => none

theorem newIn_of_submissions {trace : List (Moment V)}
    (h : ∀ c ∈ submissions trace, c.1 = e.source → c.2.1 = e.stream → c.2.2.1 < e.position) :
    NewIn trace e := by
  intro e' hsubmitted hsame
  exact h (coordinates e') (List.mem_filterMap.mpr ⟨_, hsubmitted, rfl⟩) hsame.1 hsame.2

/-- Every record carries the same small document. -/
def feedAutomation : Automation String :=
  { Automation.hookAutomation with
    loads := fun _ => some (.obj [("operation", .str "update"), ("payload", .obj [])]) }

def orderRecord (offset : ℤ) : ChangeRecord := .kafka ⟨"orders", 0, offset, [], some 100⟩

/-- The process after the source `eu` fed a record. -/
def fedProcess : Process String :=
  .after (feedAutomation.ingestRecord "eu" (orderRecord 7)
    (Process.init.step feedAutomation.ingestor (.restart [])).world)

theorem fedProcess_runs : FeedRuns feedAutomation fedProcess :=
  .record "eu" (orderRecord 7) (.other (.restart []) .init) (by decide)

theorem fedProcess_submissions :
    submissions fedProcess.world.trace = [("eu", "orders:0", 7, "orders:0:7")] := by
  decide

theorem fedProcess_event (sourceName : String) (offset : ℤ) {c : String × String × ℕ × String}
    (h : (feedAutomation.eventOf sourceName (orderRecord offset) fedProcess.world).1.toOption.map
      coordinates = some c) :
    ∃ e w₁, feedAutomation.eventOf sourceName (orderRecord offset) fedProcess.world = (.ok e, w₁) ∧
      coordinates e = c := by
  rcases hrun : feedAutomation.eventOf sourceName (orderRecord offset) fedProcess.world with
    ⟨f | e, w₁⟩ <;> rw [hrun] at h
  · cases h
  · exact ⟨e, w₁, rfl, Option.some.inj h⟩

theorem next_offset_processed : ∃ r w',
    feedAutomation.ingestRecord "eu" (orderRecord 8) fedProcess.world = (.ok r, w') ∧
      r.outcome ≠ .duplicate ∧ r.outcome ≠ .replayed := by
  obtain ⟨e, w₁, hevent, hcoordinates⟩ := fedProcess_event "eu" 8
    (c := ("eu", "orders:0", 8, "orders:0:8")) (by decide)
  have hrun : (feedAutomation.ingestRecord "eu" (orderRecord 8) fedProcess.world).1.toOption.isSome =
      true := by
    decide
  have hseen : "orders:0:8" ∉ fedProcess.world.memory.seen := by decide
  obtain ⟨hsource, hstream, hposition, hid⟩ : e.source = "eu" ∧ e.stream = "orders:0" ∧
      e.position = 8 ∧ e.eventId = "orders:0:8" := by
    simpa [coordinates] using hcoordinates
  have hnew : NewIn fedProcess.world.trace e := by
    apply newIn_of_submissions
    rw [fedProcess_submissions, hposition]
    simp
  have hsame : feedAutomation.ingestRecord "eu" (orderRecord 8) fedProcess.world =
      feedAutomation.ingestor.submit e w₁ := run_bind_ok hevent _
  rcases hsubmit : feedAutomation.ingestor.submit e w₁ with ⟨f | r, w'⟩
  · rw [hsame, hsubmit] at hrun
    cases hrun
  · refine ⟨r, w', hsame.trans hsubmit, ?_⟩
    exact (records_suppressed_iff fedProcess_runs (by decide +kernel) hevent hnew hsubmit).1.mpr
      (by rw [hid]; exact hseen)

/-- Another source feeds the same topic, partition and offset.  Its stream is new, and its record
is suppressed. -/
theorem other_source_suppressed : "eu" ≠ "us" ∧ FeedRuns feedAutomation fedProcess ∧
    (∃ e w₁, feedAutomation.eventOf "us" (orderRecord 7) fedProcess.world = (.ok e, w₁) ∧
      e.source = "us" ∧ NewIn fedProcess.world.trace e) ∧
    (feedAutomation.ingestRecord "us" (orderRecord 7) fedProcess.world).1.toOption.map (·.outcome) =
      some .duplicate := by
  refine ⟨by decide, fedProcess_runs, ?_, by decide⟩
  obtain ⟨e, w₁, hevent, hcoordinates⟩ := fedProcess_event "us" 7
    (c := ("us", "orders:0", 7, "orders:0:7")) (by decide)
  have hsource : e.source = "us" := congrArg Prod.fst hcoordinates
  refine ⟨e, w₁, hevent, hsource, newIn_of_submissions ?_⟩
  rw [fedProcess_submissions, hsource]
  simp

end Events
end MegaCache
