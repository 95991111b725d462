import MegaCache.Engine.Runs
import MegaCache.Events.Closure

/-!
# The checkpoint store

`AtomicCheckpointStore` over a world with one durable file, which is replaced whole or not
at all.  Every storage call and every replacement of the file takes the next `Luck`: what
other clients of the engine did before it, and whether it goes ahead, raises, or the
process stops there.
-/

namespace MegaCache
namespace Events

open Prog

variable {V : Type}

inductive Fate
  | proceeds
  | raises (error : PyError)
  /-- the process stops, before or after the effect -/
  | stops (done : Bool)
deriving DecidableEq, Repr

structure Luck (V : Type) where
  others : List (Engine.Call V)
  fate : Fate

def Luck.calm : Luck V := ⟨[], .proceeds⟩

/-- What a run is later asked about: submissions, answers, and the engine right after a
storage call of the ingestor returned. -/
inductive Moment (V : Type)
  | submitted (event : ChangeEvent)
  | answered (event : ChangeEvent) (outcome : Outcome)
  | storage (engine : Engine V)

structure World (V : Type) where
  engine : Engine V
  memory : State
  file : Option State
  ticks : ℕ
  luck : List (Luck V)
  /-- newest first -/
  trace : List (Moment V)

/-- The state that survives the process. -/
def World.durable (w : World V) : State := w.file.getD State.empty

abbrev EventM (V : Type) := Prog (World V) Failure

namespace Ingestor

variable (g : Ingestor V)

/-- `time.time()`. -/
def time : EventM V ℚ :=
  Prog.lift fun w => (g.clock w.ticks, { w with ticks := w.ticks + 1 })

def nextLuck : EventM V Fate :=
  Prog.lift fun w =>
    ((w.luck.headD Luck.calm).fate,
      { w with
        engine := (w.luck.headD Luck.calm).others.foldl (fun e call => call.run g.engine e) w.engine
        luck := w.luck.tail })

/-- A program of the engine. -/
def onEngine {α : Type} (call : EngineM V α) : EventM V α := fun w =>
  match call w.engine with
  | (.ok a, engine) => (.ok a, { w with engine := engine, trace := .storage engine :: w.trace })
  | (.error error, engine) => (.error (.storage error), { w with engine := engine })

/-- A call of the storage. -/
def storageCall {α : Type} (call : EngineM V α) : EventM V α := do
  match ← g.nextLuck with
  | .raises error => throw (.storage error)
  | .stops _ => throw .stopped
  | .proceeds => onEngine call

/-! ## Limits -/

def stateBytes (s : State) : ℕ := g.py.encodedSize s.toJson

def deadLetterBytes (letters : List DeadLetter) : ℕ :=
  (letters.map fun d => g.py.encodedSize d.toJson).sum

def cursorTooLong (cursor : Option String) : Bool :=
  cursor.any fun text => g.limits.maxCursorBytes < text.utf8ByteSize

def validateEvent (event : ChangeEvent) : Except Failure Unit := do
  if g.limits.maxPayloadBytes < g.py.encodedSize (.obj event.payload) then
    throw (.eventError "event payload exceeds configured byte limit")
  if g.cursorTooLong event.cursor then
    throw (.eventError "event cursor exceeds configured byte limit")

def validateDeadLetters (letters : List DeadLetter) : Except Failure Unit := do
  if g.limits.maxDeadLetters < letters.length then
    throw (.eventBackpressure "dead-letter count capacity is exhausted")
  if g.limits.maxDeadLetterBytes < g.deadLetterBytes letters then
    throw (.eventBackpressure "dead-letter byte capacity is exhausted")
  letters.forM fun d => do
    if g.limits.maxPayloadBytes < g.py.encodedSize (.obj d.event.payload) then
      throw (.eventBackpressure "existing DLQ payload exceeds configured byte limit")
    if g.cursorTooLong d.event.cursor then
      throw (.eventBackpressure "existing DLQ cursor exceeds configured byte limit")
    if g.limits.maxErrorBytes < d.error.utf8ByteSize then
      throw (.eventBackpressure "existing DLQ error exceeds configured byte limit")

def validateStateLimits (s : State) : Except Failure Unit := do
  if g.limits.maxStreams < s.checkpoints.size then
    throw (.eventBackpressure "existing event streams exceed configured limit")
  if s.checkpoints.toList.any fun p => g.cursorTooLong p.2.cursor then
    throw (.eventBackpressure "existing event cursor exceeds configured byte limit")
  if g.limits.maxSeenEvents < s.seen.length then
    throw (.eventBackpressure "existing seen-event history exceeds configured limit")
  if g.limits.maxReplayTokens < s.replayTokens.length then
    throw (.eventBackpressure "existing replay claims exceed configured limit")
  g.validateDeadLetters s.deadLetters
  if g.limits.maxStateBytes < g.stateBytes s then
    throw (.eventBackpressure "event state exceeds configured byte limit")

/-! ## Updates -/

/-- `_persist_locked`: a new file in place of the old one. -/
def persist (s : State) : EventM V Unit := do
  fromExcept (raiseIf (g.limits.maxStateBytes < g.stateBytes s)
    (.eventBackpressure "event state exceeds configured byte limit"))
  match ← g.nextLuck with
  | .proceeds => modify fun w => { w with file := some s }
  | .raises _ => throw .osError
  | .stops false => throw .stopped
  | .stops true => do
    modify fun w => { w with file := some s }
    throw .stopped

/-- `_mutate`: an edit of a copy of the state, which takes its place once it is durable. -/
def mutate {α : Type} (mutation : State → EventM V (α × State)) : EventM V α := do
  let w ← get
  let (a, candidate) ← mutation w.memory
  fromExcept (g.validateStateLimits candidate)
  g.persist candidate
  modify fun w => { w with memory := candidate }
  pure a

/-- An update without a result. -/
def edit (f : State → EventM V State) : EventM V Unit :=
  g.mutate fun s => do
    let s ← f s
    pure ((), s)

/-- The checks of `_advance_checkpoint`. -/
def checkAdvance (event : ChangeEvent) (s : State) : Except Failure Unit :=
  match s.checkpoints.get? event.checkpointKey with
  | none =>
    raiseIf (g.limits.maxStreams ≤ s.checkpoints.size)
      (.eventBackpressure "event stream capacity is exhausted")
  | some current =>
    raiseIf (event.position < current.position)
      (.eventError "checkpoint cannot move backwards")

def advanceCheckpoint (event : ChangeEvent) (s : State) : EventM V State := do
  fromExcept (g.checkAdvance event s)
  let committedAt ← g.time
  pure { s with
    checkpoints := s.checkpoints.set event.checkpointKey
      ⟨event.source, event.stream, event.position, event.cursor, event.eventId, committedAt⟩ }

def rememberSeen (eventId : String) (s : State) : State :=
  { s with
    seen := (s.seen.erase eventId ++ [eventId]).drop
      ((s.seen.erase eventId ++ [eventId]).length - g.limits.maxSeenEvents) }

/-- The edit of `complete`. -/
def completed (event : ChangeEvent) (s : State) : EventM V State := do
  fromExcept (g.validateEvent event)
  let s ← g.advanceCheckpoint event s
  pure (g.rememberSeen event.eventId s)

def ensureCompleteCapacity (event : ChangeEvent) : EventM V Unit := do
  let w ← get
  let candidate ← g.completed event w.memory
  fromExcept (g.validateStateLimits candidate)

def complete (event : ChangeEvent) : EventM V Unit := g.edit (g.completed event)

/-- The longest beginning of a text within so many bytes. -/
def takeBytes : ℕ → List Char → List Char
  | _, [] => []
  | n, ch :: rest => if ch.utf8Size ≤ n then ch :: takeBytes (n - ch.utf8Size) rest else []

def boundedError (error : String) : String :=
  if error.utf8ByteSize ≤ g.limits.maxErrorBytes then error
  else if g.limits.maxErrorBytes ≤ 3 then
    String.ofList (takeBytes g.limits.maxErrorBytes error.toList)
  else String.ofList (takeBytes (g.limits.maxErrorBytes - 3) error.toList) ++ "..."

/-- A letter after one more failure. -/
def failedAgain (failedAt : ℚ) (error : String) (d : DeadLetter) : DeadLetter :=
  { d with
    error := error
    attempts := d.attempts + 1
    lastFailedAt := failedAt
    retryAfter := failedAt + min 3600 (2 ^ min d.attempts 12) }

/-- The first element that satisfies `p`, changed. -/
def updateFirst {α : Type} (p : α → Bool) (f : α → α) : List α → List α
  | [] => []
  | a :: l => if p a then f a :: l else a :: updateFirst p f l

/-- The queue with an event that failed. -/
def lettersWith (event : ChangeEvent) (failedAt : ℚ) (error : String)
    (letters : List DeadLetter) : List DeadLetter :=
  if letters.any fun d => d.event.eventId = event.eventId then
    updateFirst (fun d => d.event.eventId = event.eventId)
      (fun d => { failedAgain failedAt error d with retryable := true }) letters
  else letters ++ [⟨event, error, 1, failedAt, failedAt, failedAt + 1, true⟩]

/-- The edit of `dead_letter`. -/
def queued (event : ChangeEvent) (failedAt : ℚ) (error : String) (s : State) : EventM V State := do
  fromExcept (g.validateEvent event)
  fromExcept (g.validateDeadLetters (lettersWith event failedAt error s.deadLetters))
  let s ← g.advanceCheckpoint event
    { s with deadLetters := lettersWith event failedAt error s.deadLetters }
  pure (g.rememberSeen event.eventId s)

def deadLetter (event : ChangeEvent) (error : String) : EventM V Unit := do
  let failedAt ← g.time
  g.edit (g.queued event failedAt (g.boundedError error))

/-- The queue after one more failure of an event that is in it. -/
def lettersAgain (eventId : String) (failedAt : ℚ) (error : String)
    (letters : List DeadLetter) : List DeadLetter :=
  updateFirst (fun d => d.event.eventId = eventId) (failedAgain failedAt error) letters

def updateDeadLetter (eventId error : String) (failedAt : ℚ) : EventM V Unit :=
  g.edit fun s => do
    fromExcept (if s.deadLetters.any fun d => d.event.eventId = eventId then
      g.validateDeadLetters (lettersAgain eventId failedAt (g.boundedError error) s.deadLetters)
      else pure ())
    pure { s with
      deadLetters := lettersAgain eventId failedAt (g.boundedError error) s.deadLetters }

def removeDeadLetter (eventId : String) : EventM V Unit :=
  g.edit fun s =>
    pure { s with deadLetters := s.deadLetters.filter fun d => d.event.eventId ≠ eventId }

/-- The edit of `claim_replay_token`: dead claims go, and the token is claimed if it is
free. -/
def claimed (token : String) (expiresAt current : ℚ) (s : State) : EventM V (Bool × State) :=
  let replay := s.replayTokens.filter fun claim => current < claim.expiresAt
  if replay.any fun claim => claim.key = token then
    pure (false, { s with replayTokens := replay })
  else if g.limits.maxReplayTokens ≤ replay.length then
    throw (.eventBackpressure "webhook replay claim capacity is exhausted")
  else pure (true, { s with replayTokens := replay ++ [⟨token, expiresAt⟩] })

def claimReplayToken (token : String) (expiresAt current : ℚ) : EventM V Bool :=
  g.mutate (g.claimed token expiresAt current)

/-- Whether a claim is still live when it is loaded. -/
def unexpired (claim : ReplayClaim) : EventM V Bool := do
  let now ← g.time
  pure (decide (now < claim.expiresAt))

/-- The constructor of the store: the file is read and its dead claims are dropped. -/
def load : EventM V Unit := do
  let w ← get
  match w.file with
  | none => modify fun w => { w with memory := State.empty }
  | some s => do
    fromExcept (raiseIf (g.limits.maxStateBytes < g.stateBytes s)
      (.eventBackpressure "existing event state exceeds configured byte limit"))
    let replay ← Prog.select g.unexpired s.replayTokens
    fromExcept (g.validateStateLimits { s with replayTokens := replay })
    (if replay.length ≠ s.replayTokens.length then g.persist { s with replayTokens := replay }
      else pure ())
    modify fun w => { w with memory := { s with replayTokens := replay } }

end Ingestor

end Events
end MegaCache
