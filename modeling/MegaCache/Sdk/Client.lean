import MegaCache.Engine.MutationClock
import MegaCache.Sdk.LocalCache

/-!
# Threads that share a Python client

`get_or_load` and the mutations of `MegaCacheClient`, as threads that take one step at a
time against a server with a cache engine.  A step is what runs under one lock, one
command on the connection, or one access to a field that no lock protects.  What a step
reads from outside (the time, the loader's outcome, whether the connection holds) is its
`Input`.  Steps are numbered, and the state remembers when each local entry was read from
or written to the server, which mutations have returned and what was answered locally.
-/

namespace MegaCache.Sdk

open Prog

variable {V : Type}

structure CachePolicy where
  ttlSeconds : ℤ
  staleSeconds : ℤ
  tags : List Tag
  staleIfError : Bool
deriving DecidableEq, Repr

structure ClientConfig (V : Type) where
  server : EngineConfig V
  limits : LocalLimits V
  invalidationPollSeconds : ℚ
  /-- `server.invalidation_epoch` -/
  invalidationEpoch : String

/-! ## Commands -/

/-- The calls of the client that change the server. -/
inductive Mutation (V : Type)
  | set (key : Key) (value : V) (expireSeconds : Option ℤ)
  | mset (values : List (Key × V))
  | put (key : Key) (value : V) (ttlSeconds staleSeconds : Option ℤ) (tags : List Tag)
      (leaseToken : Option String)
  | delete (keys : List Key)
  | expire (key : Key) (seconds : ℤ)
  | invalidate (tags : List Tag)
deriving DecidableEq

inductive Reply
  | ok
  | integer (n : ℕ)
deriving DecidableEq, Repr

/-- Whether the client counts the reply as a change: `if result`. -/
def Reply.changed : Reply → Bool
  | .ok => true
  | .integer n => n ≠ 0

def wrongArity : PyError := ⟨.exception, "wrong number of arguments"⟩

/-- The server's handler of a mutation. -/
def Mutation.serve (c : EngineConfig V) : Mutation V → ClockM V Reply
  | .set key value none => do
    let _ ← MutationClock.put c key value none none [] none true
    pure .ok
  | .set key value (some ttl) => do
    if ttl ≤ 0 then throw ⟨.exception, "expire time must be positive"⟩ else pure ()
    let _ ← MutationClock.put c key value (some ttl) (some 0) [] none false
    pure .ok
  | .mset values => do
    if values = [] then throw wrongArity else pure ()
    MutationClock.mset c values
    pure .ok
  | .put key value ttlSeconds staleSeconds tags leaseToken => do
    let _ ← MutationClock.put c key value ttlSeconds staleSeconds tags leaseToken false
    pure .ok
  | .delete keys => do
    if keys = [] then throw wrongArity else pure ()
    let n ← MutationClock.deleteMany keys
    pure (.integer n)
  | .expire key seconds => do
    let b ← MutationClock.expire c key seconds
    pure (.integer (if b then 1 else 0))
  | .invalidate tags => do
    if tags = [] then throw wrongArity else pure ()
    let n ← MutationClock.invalidateTags tags
    pure (.integer n)

/-- `LeaseResult`; the windows come back as milliseconds, `-1` when unlimited. -/
structure LeaseResult (V : Type) where
  state : CacheState
  value : Option V
  leaseToken : Option String
  retryAfterSeconds : ℚ
  expiresInSeconds : Option ℚ
  staleForSeconds : Option ℚ

/-- `_duration_milliseconds` on the server and `_lease_milliseconds` on the client. -/
def windowSeconds : Deadline → ℚ
  | none => -1 / 1000
  | some seconds => max 0 ⌊seconds * 1000⌋ / 1000

/-- `MC.LEASE key WINDOWS`. -/
def lease (c : EngineConfig V) (key : Key) : ClockM V (LeaseResult V) := do
  let result ← MutationClock.forward (Engine.acquireLease c key false)
  pure
    { state := result.state
      value := result.value
      leaseToken := result.leaseToken
      retryAfterSeconds := ⌊result.retryAfterSeconds * 1000⌋ / 1000
      expiresInSeconds := if result.state = .fresh then some (windowSeconds result.expiresInSeconds)
        else none
      staleForSeconds := if result.state = .lease ∨ result.state = .loading then none
        else some (windowSeconds result.staleForSeconds) }

/-- The answer to `MC.INVALIDATIONS`. -/
structure Document where
  cursor : String
  epoch : Option String
  generation : Option ℕ
deriving DecidableEq, Repr

def invalidations (c : ClientConfig V) (t : MutationClock V) : Document where
  cursor := c.invalidationEpoch ++ ":" ++ toString t.invalidationCursor
  epoch := some c.invalidationEpoch
  generation := some t.invalidationCursor

/-! ## Threads -/

abbrev Thread := ℕ

/-- A running `get_or_load`, with the step at which it started. -/
structure Load where
  key : Key
  policy : CachePolicy
  startedAt : ℕ

/-- A stale value kept for the case of an error.  One that was found in the local cache
carries the step at which it had been obtained from the server. -/
structure Held (V : Type) where
  cached : CachedValue V
  obtainedAt : Option ℕ

/-- A `get_or_load` that leads a flight. -/
structure Lead (V : Type) where
  load : Load
  flight : ℕ
  stale : Option (Held V)

/-- What the mutation lock is taken for: a call of the application, or the write of a value
that `get_or_load` has loaded. -/
inductive Task (V : Type)
  | call (m : Mutation V)
  | store (lead : Lead V) (value : V) (leaseToken : Option String) (started : ℚ)

def Task.mutation : Task V → Mutation V
  | .call m => m
  | .store lead value leaseToken _ =>
    .put lead.load.key value (some lead.load.policy.ttlSeconds)
      (some lead.load.policy.staleSeconds) lead.load.policy.tags leaseToken

/-- Where `_poll_invalidations` is; the three stages after `fetched` read the fields of the
last cursor one by one. -/
inductive Poll
  | start
  | asking (now : ℚ)
  | fetched (document : Document) (now : ℚ)
  | sawCursor (document : Document) (now : ℚ)
  | sawEpoch (document : Document) (now : ℚ)
  | changed (document : Document) (now : ℚ)
  | setCursor (document : Document) (now : ℚ)
  | setEpoch (document : Document) (now : ℚ)
  | setGeneration (document : Document) (now : ℚ)
  | setLastPoll (now : ℚ)

/-- A value on its way into the local cache, obtained from the server at the given step. -/
structure Admission (V : Type) where
  generation : ℕ
  value : V
  freshSeconds : ℚ
  staleSeconds : ℚ
  obtainedAt : ℕ

/-- What a thread does next. -/
inductive Pc (V : Type)
  | idle
  /-- waits for the mutation lock -/
  | acquiring (task : Task V)
  /-- holds the mutation lock and sends the command -/
  | sending (task : Task V)
  /-- holds the mutation lock and the reply to the command the server ran at the given step -/
  | replied (task : Task V) (reply : Except PyError Reply) (ranAt : ℕ)
  /-- holds the mutation lock and returns; the generation is that of `_mutation_succeeded` -/
  | returning (task : Task V) (reply : Reply) (generation : ℕ) (ranAt : ℕ)
  | polling (load : Load) (stage : Poll)
  | looking (load : Load)
  | joining (load : Load) (stale : Option (Held V))
  | waiting (load : Load) (flight : ℕ)
  /-- at the head of the loop, before `_current_generation` -/
  | leading (lead : Lead V)
  | leasing (lead : Lead V) (expected : ℕ)
  | leased (lead : Lead V) (expected : ℕ) (started : ℚ) (result : LeaseResult V) (ranAt : ℕ)
  | admitting (lead : Lead V) (admission : Admission V) (result : CachedValue V)
  | loading (lead : Lead V) (leaseToken : Option String)
  | failing (lead : Lead V) (error : PyError)
  | concluding (lead : Lead V) (result : CachedValue V)

structure Flight (V : Type) where
  finished : Bool
  result : Option (CachedValue V)
  error : Option PyError

/-- A mutation that returned normally. -/
structure Completed (V : Type) where
  mutation : Mutation V
  reply : Reply
  tookEffectAt : ℕ
  returnedAt : ℕ
deriving DecidableEq

/-- A result of `get_or_load` out of the local cache. -/
structure Served (V : Type) where
  key : Key
  value : V
  startedAt : ℕ
  obtainedAt : ℕ
deriving DecidableEq

structure Client (V : Type) where
  server : MutationClock V
  localCache : LocalCache V
  cursor : Option String
  cursorEpoch : Option String
  cursorGeneration : Option ℕ
  lastPoll : ℚ
  mutationLock : Option Thread
  mutationGeneration : ℕ
  /-- the flight registered for a key -/
  flights : Key → Option ℕ
  /-- every flight ever begun -/
  begun : List (Flight V)
  threads : Thread → Pc V
  /-- the number of steps made -/
  steps : ℕ
  /-- when the local entry of a key was obtained from the server -/
  obtainedAt : Key → ℕ
  completed : List (Completed V)
  served : List (Served V)

def Client.init : Client V where
  server := .init
  localCache := .init
  cursor := none
  cursorEpoch := none
  cursorGeneration := none
  lastPoll := 0
  mutationLock := none
  mutationGeneration := 0
  flights := fun _ => none
  begun := []
  threads := fun _ => .idle
  steps := 0
  obtainedAt := fun _ => 0
  completed := []
  served := []

/-- How the connection behaves: the reply arrives, or the connection breaks before or after
the server ran the command. -/
inductive Wire
  | delivered
  | lost (ran : Bool)

/-- What a step reads from outside; `later` is a second reading of the time. -/
structure Input (V : Type) where
  time : ℚ
  later : ℚ
  wire : Wire
  loaded : Except PyError V

/-! ## Steps -/

namespace Client

def goto (t : Thread) (pc : Pc V) (s : Client V) : Client V :=
  { s with threads := Function.update s.threads t pc }

/-- `_mutation_succeeded`. -/
def mutationSucceeded (s : Client V) : Client V :=
  { s with
    mutationGeneration := s.mutationGeneration + 1
    localCache := s.localCache.clear }

def connectionError : PyError := ⟨.exception, "connection failed"⟩

/-- One command on the connection. -/
def command {α : Type} (wire : Wire) (m : ClockM V α) (s : Client V) :
    Except PyError α × Client V :=
  match wire with
  | .delivered => ((m s.server).1, { s with server := (m s.server).2 })
  | .lost ran =>
    (.error connectionError, { s with server := if ran then (m s.server).2 else s.server })

/-- The `finally` block of `get_or_load`, with the result and the error of the flight. -/
def finish (lead : Lead V) (result : Option (CachedValue V)) (error : Option PyError)
    (s : Client V) : Client V :=
  { s with
    begun := s.begun.set lead.flight ⟨true, result, error⟩
    flights := if s.flights lead.load.key = some lead.flight then
      Function.update s.flights lead.load.key none else s.flights }

def pollStep (c : ClientConfig V) (t : Thread) (load : Load) (i : Input V) (s : Client V) :
    Poll → Client V
  | .start =>
    if i.time - s.lastPoll < c.invalidationPollSeconds then s.goto t (.looking load)
    else s.goto t (.polling load (.asking i.time))
  | .asking now =>
    match i.wire with
    | .delivered => s.goto t (.polling load (.fetched (invalidations c s.server) now))
    | .lost _ => s.goto t .idle
  | .fetched document now =>
    if s.cursor = none then s.goto t (.polling load (.setCursor document now))
    else s.goto t (.polling load (.sawCursor document now))
  | .sawCursor document now =>
    if document.epoch = none ∨ document.generation = none then
      if some document.cursor ≠ s.cursor then s.goto t (.polling load (.changed document now))
      else s.goto t (.polling load (.setCursor document now))
    else if document.epoch ≠ s.cursorEpoch then s.goto t (.polling load (.changed document now))
    else s.goto t (.polling load (.sawEpoch document now))
  | .sawEpoch document now =>
    if document.generation ≠ s.cursorGeneration then
      s.goto t (.polling load (.changed document now))
    else s.goto t (.polling load (.setCursor document now))
  | .changed document now => s.mutationSucceeded.goto t (.polling load (.setCursor document now))
  | .setCursor document now =>
    { s with cursor := some document.cursor }.goto t (.polling load (.setEpoch document now))
  | .setEpoch document now =>
    { s with cursorEpoch := document.epoch }.goto t (.polling load (.setGeneration document now))
  | .setGeneration document now =>
    { s with cursorGeneration := document.generation }.goto t (.polling load (.setLastPoll now))
  | .setLastPoll now => { s with lastPoll := now }.goto t (.looking load)

/-- `_elapsed_since`. -/
def elapsedSince (started now : ℚ) : ℚ := max 0 (now - started)

/-- `_deadline_after`. -/
def deadlineAfter (started budget now : ℚ) : ℚ := now + max 0 (budget - max 0 (now - started))

/-- `_remaining_windows`. -/
def remainingWindows (freshBudget staleBudget elapsed : ℚ) : ℚ × ℚ :=
  let fresh := max 0 (freshBudget - elapsed)
  let hard := max 0 (freshBudget + staleBudget - elapsed)
  (fresh, max 0 (hard - fresh))

/-- The smaller of the policy's window and the server's, when the server names one. -/
def budget (policy : ℤ) (window : Option ℚ) : ℚ :=
  match window with
  | none => policy
  | some w => if w < 0 then policy else min policy w

/-- The way into the local cache, unless no window is left. -/
def startAdmission (lead : Lead V) (a : Admission V) (result : CachedValue V) : Pc V :=
  if 0 < a.freshSeconds + a.staleSeconds then .admitting lead a result
  else .concluding lead result

/-- What `get_or_load` does with the answer to `MC.LEASE`. -/
def afterLease (lead : Lead V) (expected : ℕ) (started : ℚ) (r : LeaseResult V) (ranAt : ℕ)
    (i : Input V) : Pc V :=
  let policy := lead.load.policy
  let staleBudget := budget policy.staleSeconds r.staleForSeconds
  match r.state, r.value with
  | .fresh, some value =>
    let w := remainingWindows (budget policy.ttlSeconds r.expiresInSeconds) staleBudget
      (elapsedSince started i.time)
    startAdmission lead ⟨expected, value, w.1, w.2, ranAt⟩ ⟨value, .fresh, none⟩
  | .stale, some value =>
    startAdmission lead ⟨expected, value, 0, max 0 (staleBudget - elapsedSince started i.time), ranAt⟩
      ⟨value, .stale, some (deadlineAfter started staleBudget i.later)⟩
  | .lease, _ => .loading lead r.leaseToken
  | .staleLease, none => .loading lead r.leaseToken
  | .staleLease, some value =>
    .loading
      { lead with
        stale := some ⟨⟨value, .stale, some (deadlineAfter started staleBudget i.later)⟩, none⟩ }
      r.leaseToken
  -- `loading` sleeps, any other answer starts the next round at once
  | _, _ => .leading lead

/-- `_admit_if_generation`. -/
def admitIfGeneration (c : ClientConfig V) (key : Key) (a : Admission V) (now : ℚ)
    (s : Client V) : Except PyError Bool × Client V :=
  if a.generation ≠ s.mutationGeneration then (.ok false, s)
  else
    match s.localCache.put c.limits key a.value a.freshSeconds a.staleSeconds now with
    | (.ok true, l) =>
      (.ok true, { s with
        localCache := l
        obtainedAt := Function.update s.obtainedAt key a.obtainedAt })
    | (r, l) => (r, { s with localCache := l })

/-- The stale value that the `except` block may return. -/
def usableStale (lead : Lead V) (now : ℚ) : Option (Held V) :=
  lead.stale.filter fun held =>
    lead.load.policy.staleIfError && held.cached.staleDeadline.any fun deadline => now < deadline

/-- The `except` block of `get_or_load`. -/
def afterError (t : Thread) (lead : Lead V) (error : PyError) (i : Input V) (s : Client V) :
    Client V :=
  match usableStale lead i.time with
  | none => (s.finish lead none (some error)).goto t .idle
  | some held =>
    let result : CachedValue V := ⟨held.cached.value, .staleIfError, held.cached.staleDeadline⟩
    let s := (s.finish lead (some result) (some error)).goto t .idle
    match held.obtainedAt with
    | none => s
    | some obtained =>
      { s with served := ⟨lead.load.key, result.value, lead.load.startedAt, obtained⟩ :: s.served }

/-- `local.get` and the immediate return of a fresh hit. -/
def lookLocally (t : Thread) (load : Load) (now : ℚ) (s : Client V) : Client V :=
  let s' := { s with localCache := (s.localCache.get now load.key).2 }
  let obtained := s.obtainedAt load.key
  match (s.localCache.get now load.key).1 with
  | none => s'.goto t (.joining load none)
  | some cached =>
    if cached.state = .fresh then
      { s'.goto t .idle with
        served := ⟨load.key, cached.value, load.startedAt, obtained⟩ :: s.served }
    else s'.goto t (.joining load (some ⟨cached, some obtained⟩))

/-- The end of a section under the mutation lock. -/
def release (s : Client V) : Client V := { s with mutationLock := none }

/-- The next step of a thread; `none` while it has to wait. -/
def advance (c : ClientConfig V) (t : Thread) (i : Input V) (s : Client V) : Option (Client V) :=
  match s.threads t with
  | .idle => none
  | .acquiring task =>
    if s.mutationLock = none then some (goto t (.sending task) { s with mutationLock := some t })
    else none
  | .sending task =>
    let r := s.command i.wire (task.mutation.serve c.server)
    some (r.2.goto t (.replied task r.1 s.steps))
  | .replied (.call _) (.error _) _ => some (s.release.goto t .idle)
  | .replied (.store lead _ _ _) (.error e) _ => some (s.release.goto t (.failing lead e))
  | .replied task (.ok reply) ranAt =>
    let s := if reply.changed then s.mutationSucceeded else s
    some (s.goto t (.returning task reply s.mutationGeneration ranAt))
  | .returning (.call m) reply _ ranAt =>
    some (goto t .idle
      { s.release with completed := ⟨m, reply, ranAt, s.steps⟩ :: s.completed })
  | .returning (.store lead value _ started) _ generation ranAt =>
    let w := remainingWindows lead.load.policy.ttlSeconds lead.load.policy.staleSeconds
      (elapsedSince started i.time)
    some (s.release.goto t
      (startAdmission lead ⟨generation, value, w.1, w.2, ranAt⟩ ⟨value, .loaded, none⟩))
  | .polling load stage => some (pollStep c t load i s stage)
  | .looking load => some (lookLocally t load i.time s)
  | .joining load stale =>
    match s.flights load.key with
    | some flight => some (s.goto t (.waiting load flight))
    | none =>
      some (goto t (.leading ⟨load, s.begun.length, stale⟩) { s with
        begun := s.begun ++ [⟨false, none, none⟩]
        flights := Function.update s.flights load.key (some s.begun.length) })
  -- a follower returns the flight's result or raises its error
  | .waiting _ flight =>
    if s.begun[flight]?.any Flight.finished then some (s.goto t .idle) else none
  | .leading lead => some (s.goto t (.leasing lead s.mutationGeneration))
  | .leasing lead expected =>
    match s.command i.wire (lease c.server lead.load.key) with
    | (.ok result, s') => some (s'.goto t (.leased lead expected i.time result s.steps))
    | (.error e, s') => some (s'.goto t (.failing lead e))
  | .leased lead expected started result ranAt =>
    some (s.goto t (afterLease lead expected started result ranAt i))
  | .admitting lead a result =>
    match admitIfGeneration c lead.load.key a i.time s with
    | (.ok _, s') => some (s'.goto t (.concluding lead result))
    | (.error e, s') => some (s'.goto t (.failing lead e))
  | .loading lead leaseToken =>
    match i.loaded with
    | .ok value => some (s.goto t (.acquiring (.store lead value leaseToken i.time)))
    | .error e => some (s.goto t (.failing lead e))
  | .failing lead e => some (afterError t lead e i s)
  | .concluding lead result => some ((s.finish lead (some result) none).goto t .idle)

end Client

/-- What can happen next: a call of some other client or of the server itself, a new call
of the application on an idle thread, or a step of a thread. -/
inductive Move (V : Type)
  | environment (call : MutationClock.BackendCall V)
  | mutate (t : Thread) (m : Mutation V)
  | getOrLoad (t : Thread) (key : Key) (policy : CachePolicy)
  | advance (t : Thread) (i : Input V)

/-- The effect of a move, without the count of steps. -/
def Move.effect (c : ClientConfig V) (s : Client V) : Move V → Option (Client V)
  | .environment call => some { s with server := call.run c.server s.server }
  | .mutate t m =>
    match s.threads t with
    | .idle => some (s.goto t (.acquiring (.call m)))
    | _ => none
  | .getOrLoad t key policy =>
    match s.threads t with
    | .idle => some (s.goto t (.polling ⟨key, policy, s.steps⟩ .start))
    | _ => none
  | .advance t i => s.advance c t i

/-- One move. -/
def Move.step (c : ClientConfig V) (s : Client V) (move : Move V) : Option (Client V) :=
  (move.effect c s).map fun s' => { s' with steps := s.steps + 1 }

/-- The clients that some interleaving of threads leads to. -/
inductive Interleaving (c : ClientConfig V) : Client V → Prop
  | init : Interleaving c .init
  | step {s s' : Client V} (h : Interleaving c s) (move : Move V) (hs : move.step c s = some s') :
      Interleaving c s'

/-- The client after a list of moves. -/
def Move.runAll (c : ClientConfig V) : List (Move V) → Client V → Option (Client V)
  | [], s => some s
  | move :: moves, s => (move.step c s).bind (runAll c moves)

theorem Interleaving.run {c : ClientConfig V} {s s' : Client V} (h : Interleaving c s)
    {moves : List (Move V)} (hs : Move.runAll c moves s = some s') : Interleaving c s' := by
  induction moves generalizing s with
  | nil =>
    obtain rfl := Option.some.inj hs
    exact h
  | cons move moves ih =>
    obtain ⟨s₁, h₁, hrest⟩ := Option.bind_eq_some_iff.mp hs
    exact ih (h.step move h₁) hrest

end MegaCache.Sdk
