import MegaCache.Sdk.Client

/-!
# Calls that share a Node client

`getOrLoad`, `pollInvalidations` and the mutations of `MegaCacheClient` in `index.js`, as
calls that take one step at a time: what runs between two awaits, or one command on the server.
The local cache, the arithmetic of the windows and the commands are those of the Python client,
with times in seconds.  The queue of mutations lets the next one start when the call that waited
for the last one has gone on: its reply needs a turn of the event loop of its own.
-/

namespace MegaCache.Sdk.Node

open Prog

variable {V : Type}

/-- What a call does next. -/
inductive Pc (V : Type)
  | idle
  /-- waits in `mutationQueue` -/
  | queued (task : Task V)
  | sending (task : Task V)
  /-- the reply to the command that the server ran at the given step -/
  | replied (task : Task V) (reply : Except PyError Reply) (ranAt : ℕ)
  /-- `mutationSucceeded` was called where the reply reports a change -/
  | returning (task : Task V) (reply : Reply) (ranAt : ℕ)
  /-- `MC.INVALIDATIONS` is sent, by `getOrLoad` or by a caller of `pollInvalidations` -/
  | asking (load : Option Load)
  | polled (load : Option Load) (document : Document)
  | looking (load : Load)
  | waiting (load : Load) (flight : ℕ)
  | leasing (lead : Lead V) (expectedGeneration : ℕ) (leaseStarted : ℚ)
  | leased (lead : Lead V) (expectedGeneration : ℕ) (leaseStarted : ℚ) (lease : LeaseResult V)
      (ranAt : ℕ)
  /-- the timeout of an answer `loading` -/
  | sleeping (lead : Lead V)
  | loading (lead : Lead V) (leaseToken : Option String)
  | failing (lead : Lead V) (error : PyError)
  /-- the flight is resolved; a value out of the local cache carries the step of its read -/
  | consuming (lead : Lead V) (result : CachedValue V) (obtainedAt : Option ℕ)

/-- An answer to `MC.INVALIDATIONS` that was processed. -/
structure Polled where
  generation : ℕ
  processedAt : ℕ
deriving DecidableEq

/-- A mutation by others, with the cursor of the server after it. -/
structure Foreign where
  cursor : ℕ
  tookEffectAt : ℕ
deriving DecidableEq

structure Client (V : Type) where
  server : MutationClock V
  localCache : LocalCache V
  cursor : Option String
  cursorEpoch : Option String
  cursorGeneration : Option ℕ
  lastPoll : ℚ
  /-- the call that `mutationQueue` waits for -/
  mutationQueue : Option Thread
  generation : ℕ
  flights : Key → Option ℕ
  /-- every flight ever begun, and whether it is resolved -/
  begun : List Bool
  calls : Thread → Pc V
  /-- the number of steps made -/
  steps : ℕ
  /-- when the local entry of a key was read from or written to the server -/
  obtainedAt : Key → ℕ
  completed : List (Completed V)
  polls : List Polled
  foreign : List Foreign
  served : List (Served V)

def Client.init : Client V where
  server := .init
  localCache := .init
  cursor := none
  cursorEpoch := none
  cursorGeneration := none
  lastPoll := 0
  mutationQueue := none
  generation := 0
  flights := fun _ => none
  begun := []
  calls := fun _ => .idle
  steps := 0
  obtainedAt := fun _ => 0
  completed := []
  polls := []
  foreign := []
  served := []

/-- What a step reads from outside: `Date.now()`, `performance.now()`, a second reading of it,
how the connection behaves and what the loader returns. -/
structure Input (V : Type) where
  wall : ℚ
  time : ℚ
  later : ℚ
  wire : Wire
  loaded : Except PyError V

namespace Client

def goto (t : Thread) (pc : Pc V) (s : Client V) : Client V :=
  { s with calls := Function.update s.calls t pc }

def mutationSucceeded (s : Client V) : Client V :=
  { s with generation := s.generation + 1, localCache := s.localCache.clear }

/-- One command on the connection. -/
def command {α : Type} (wire : Wire) (m : ClockM V α) (s : Client V) :
    Except PyError α × Client V :=
  match wire with
  | .delivered => ((m s.server).1, { s with server := (m s.server).2 })
  | .lost ran =>
    (.error Sdk.Client.connectionError,
      { s with server := if ran then (m s.server).2 else s.server })

/-- The `finally` block of a flight. -/
def finish (lead : Lead V) (s : Client V) : Client V :=
  { s with
    begun := s.begun.set lead.flight true
    flights := Function.update s.flights lead.load.key none }

/-! ## `pollInvalidations` -/

/-- Where `pollInvalidations` returns to. -/
def afterPoll (load : Option Load) : Pc V :=
  match load with
  | none => .idle
  | some load => .looking load

/-- `changed`. -/
def cursorChanged (document : Document) (s : Client V) : Prop :=
  s.cursor ≠ none ∧
    if document.epoch = none ∨ document.generation = none then some document.cursor ≠ s.cursor
    else document.epoch ≠ s.cursorEpoch ∨ document.generation ≠ s.cursorGeneration

instance (document : Document) (s : Client V) : Decidable (cursorChanged document s) := by
  unfold cursorChanged
  infer_instance

/-- The first half of `pollInvalidations`. -/
def startPoll (c : ClientConfig V) (t : Thread) (load : Option Load) (wall : ℚ) (s : Client V) :
    Client V :=
  if wall - s.lastPoll < c.invalidationPollSeconds then s.goto t (afterPoll load)
  else s.goto t (.asking load)

/-- The second half. -/
def endPoll (t : Thread) (load : Option Load) (document : Document) (wall : ℚ) (s : Client V) :
    Client V :=
  let s := if cursorChanged document s then s.mutationSucceeded else s
  goto t (afterPoll load)
    { s with
      cursor := some document.cursor
      cursorEpoch := document.epoch
      cursorGeneration := document.generation
      lastPoll := wall
      polls := ⟨document.generation.getD 0, s.steps⟩ :: s.polls }

/-! ## `getOrLoad` -/

/-- `admitIfGeneration`. -/
def admitIfGeneration (c : ClientConfig V) (generation : ℕ) (key : Key) (value : V)
    (w : ℚ × ℚ) (ranAt : ℕ) (now : ℚ) (s : Client V) : Except PyError Bool × Client V :=
  if generation ≠ s.generation then (.ok false, s)
  else
    match s.localCache.put c.limits key value w.1 w.2 now with
    | (.ok true, l) =>
      (.ok true, { s with
        localCache := l
        obtainedAt := Function.update s.obtainedAt key ranAt })
    | (r, l) => (r, { s with localCache := l })

/-- A value admitted to the local cache, unless no window is left, and the end of the flight. -/
def admitAndReturn (c : ClientConfig V) (t : Thread) (lead : Lead V) (generation : ℕ)
    (w : ℚ × ℚ) (ranAt : ℕ) (now : ℚ) (result : CachedValue V) (s : Client V) : Client V :=
  if 0 < w.1 + w.2 then
    match admitIfGeneration c generation lead.load.key result.value w ranAt now s with
    | (.ok _, s) => (s.finish lead).goto t (.consuming lead result none)
    | (.error e, s) => s.goto t (.failing lead e)
  else (s.finish lead).goto t (.consuming lead result none)

def protocolError : PyError := ⟨.exception, "invalid MC.LEASE response"⟩

/-- What `getOrLoad` does with the answer to `MC.LEASE`. -/
def afterLease (c : ClientConfig V) (t : Thread) (lead : Lead V) (expectedGeneration : ℕ)
    (leaseStarted : ℚ) (lease : LeaseResult V) (ranAt : ℕ) (now later : ℚ) (s : Client V) :
    Client V :=
  let policy := lead.load.policy
  let elapsed := Sdk.Client.elapsedSince leaseStarted now
  let staleBudget := Sdk.Client.budget policy.staleSeconds lease.staleForSeconds
  match lease.state, lease.value with
  | .fresh, some value =>
    admitAndReturn c t lead expectedGeneration
      (Sdk.Client.remainingWindows (Sdk.Client.budget policy.ttlSeconds lease.expiresInSeconds)
        staleBudget elapsed) ranAt now ⟨value, .fresh, none⟩ s
  | .stale, some value =>
    admitAndReturn c t lead expectedGeneration (0, max 0 (staleBudget - elapsed)) ranAt now
      ⟨value, .stale, some (Sdk.Client.deadlineAfter leaseStarted staleBudget later)⟩ s
  | .loading, _ => s.goto t (.sleeping lead)
  | .lease, _ => s.goto t (.loading lead lease.leaseToken)
  | .staleLease, some value =>
    s.goto t (.loading
      { lead with
        stale := some ⟨⟨value, .stale,
          some (Sdk.Client.deadlineAfter leaseStarted staleBudget later)⟩, none⟩ }
      lease.leaseToken)
  | _, _ => s.goto t (.failing lead protocolError)

/-- The `catch` block of a flight. -/
def afterError (t : Thread) (lead : Lead V) (now : ℚ) (s : Client V) : Client V :=
  match Sdk.Client.usableStale lead now with
  | none => (s.finish lead).goto t .idle
  | some held =>
    (s.finish lead).goto t
      (.consuming lead ⟨held.cached.value, .staleIfError, held.cached.staleDeadline⟩ held.obtainedAt)

/-- `consumeFlight` of the call that began the flight. -/
def consume (t : Thread) (lead : Lead V) (result : CachedValue V) (obtainedAt : Option ℕ) (now : ℚ)
    (s : Client V) : Client V :=
  if result.state = .staleIfError ∧ ¬result.staleDeadline.any (fun deadline => now < deadline) then
    s.goto t .idle
  else
    match obtainedAt with
    | none => s.goto t .idle
    | some obtained =>
      { s.goto t .idle with
        served := ⟨lead.load.key, result.value, lead.load.startedAt, obtained⟩ :: s.served }

/-- The head of the loop: the generation is read and `MC.LEASE` sent. -/
def startLease (t : Thread) (lead : Lead V) (now : ℚ) (s : Client V) : Client V :=
  s.goto t (.leasing lead s.generation now)

/-- A flight joined or begun. -/
def fly (t : Thread) (load : Load) (stale : Option (Held V)) (now : ℚ) (s : Client V) : Client V :=
  match s.flights load.key with
  | some flight => s.goto t (.waiting load flight)
  | none =>
    startLease t ⟨load, s.begun.length, stale⟩ now
      { s with
        begun := s.begun ++ [false]
        flights := Function.update s.flights load.key (some s.begun.length) }

/-- `local.get` and what follows it up to the next `await`. -/
def look (t : Thread) (load : Load) (now : ℚ) (s : Client V) : Client V :=
  let obtained := s.obtainedAt load.key
  let found := (s.localCache.get now load.key).1
  let s := { s with localCache := (s.localCache.get now load.key).2 }
  match found with
  | none => fly t load none now s
  | some cached =>
    if cached.state = .fresh then
      { s.goto t .idle with
        served := ⟨load.key, cached.value, load.startedAt, obtained⟩ :: s.served }
    else fly t load (some ⟨cached, some obtained⟩) now s

/-! ## Steps -/

/-- The next step of a call; `none` while it has to wait. -/
def advance (c : ClientConfig V) (t : Thread) (i : Input V) (s : Client V) : Option (Client V) :=
  match s.calls t with
  | .idle => none
  | .queued task =>
    if s.mutationQueue = none then some (goto t (.sending task) { s with mutationQueue := some t })
    else none
  | .sending task =>
    let r := s.command i.wire (task.mutation.serve c.server)
    some (r.2.goto t (.replied task r.1 s.steps))
  | .replied (.call _) (.error _) _ => some (goto t .idle { s with mutationQueue := none })
  | .replied (.store lead _ _ _) (.error e) _ =>
    some (goto t (.failing lead e) { s with mutationQueue := none })
  | .replied task (.ok reply) ranAt =>
    let s := if reply.changed then s.mutationSucceeded else s
    some (s.goto t (.returning task reply ranAt))
  | .returning (.call m) reply ranAt =>
    some (goto t .idle
      { s with mutationQueue := none, completed := ⟨m, reply, ranAt, s.steps⟩ :: s.completed })
  -- `ownGeneration` is read here, behind the `await` of `put`
  | .returning (.store lead value _ putStarted) _ ranAt =>
    let w := Sdk.Client.remainingWindows lead.load.policy.ttlSeconds lead.load.policy.staleSeconds
      (Sdk.Client.elapsedSince putStarted i.time)
    some (admitAndReturn c t lead s.generation w ranAt i.time ⟨value, .loaded, none⟩
      { s with mutationQueue := none })
  | .asking load =>
    match i.wire with
    | .delivered => some (s.goto t (.polled load (invalidations c s.server)))
    | .lost _ => some (s.goto t .idle)
  | .polled load document => some (endPoll t load document i.wall s)
  | .looking load => some (look t load i.time s)
  | .waiting _ flight => if s.begun[flight]? = some true then some (s.goto t .idle) else none
  | .leasing lead expectedGeneration leaseStarted =>
    match s.command i.wire (lease c.server lead.load.key) with
    | (.ok result, s') => some (s'.goto t (.leased lead expectedGeneration leaseStarted result s.steps))
    | (.error e, s') => some (s'.goto t (.failing lead e))
  | .leased lead expectedGeneration leaseStarted result ranAt =>
    some (afterLease c t lead expectedGeneration leaseStarted result ranAt i.time i.later s)
  | .sleeping lead => some (startLease t lead i.time s)
  | .loading lead leaseToken =>
    match i.loaded with
    | .ok value => some (s.goto t (.queued (.store lead value leaseToken i.time)))
    | .error e => some (s.goto t (.failing lead e))
  | .failing lead _ => some (afterError t lead i.time s)
  | .consuming lead result obtainedAt => some (consume t lead result obtainedAt i.time s)

end Client

/-- What can happen next: a call of some other client or of the server itself, a new call of
the application, or a step of a call. -/
inductive Move (V : Type)
  | environment (call : MutationClock.BackendCall V)
  | mutate (t : Thread) (m : Mutation V)
  | poll (t : Thread) (wall : ℚ)
  | getOrLoad (t : Thread) (key : Key) (policy : CachePolicy) (wall : ℚ)
  | advance (t : Thread) (i : Input V)

/-- A call of others, remembered when the server counts it. -/
def Client.others (c : ClientConfig V) (call : MutationClock.BackendCall V) (s : Client V) : Client V :=
  let server := call.run c.server s.server
  { s with
    server := server
    foreign := if s.server.invalidationCursor < server.invalidationCursor then
      ⟨server.invalidationCursor, s.steps⟩ :: s.foreign else s.foreign }

/-- The effect of a move, without the count of steps. -/
def Move.effect (c : ClientConfig V) (s : Client V) : Move V → Option (Client V)
  | .environment call => some (s.others c call)
  | .mutate t m =>
    match s.calls t with
    | .idle => some (s.goto t (.queued (.call m)))
    | _ => none
  | .poll t wall =>
    match s.calls t with
    | .idle => some (s.startPoll c t none wall)
    | _ => none
  | .getOrLoad t key policy wall =>
    match s.calls t with
    | .idle => some (s.startPoll c t (some ⟨key, policy, s.steps⟩) wall)
    | _ => none
  | .advance t i => s.advance c t i

def Move.step (c : ClientConfig V) (s : Client V) (move : Move V) : Option (Client V) :=
  (move.effect c s).map fun s' => { s' with steps := s.steps + 1 }

/-- The clients that some interleaving of calls leads to when every move meets `P`. -/
inductive Interleaving (c : ClientConfig V) (P : Client V → Move V → Prop) : Client V → Prop
  | init : Interleaving c P .init
  | step {s s' : Client V} (h : Interleaving c P s) (move : Move V) (hp : P s move)
      (hs : move.step c s = some s') : Interleaving c P s'

/-- The client after a list of moves. -/
def Move.runAll (c : ClientConfig V) : List (Move V) → Client V → Option (Client V)
  | [], s => some s
  | move :: moves, s => (move.step c s).bind (runAll c moves)

end MegaCache.Sdk.Node
