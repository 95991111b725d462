import MegaCache.Resp.NodeClient

/-!
# The connection of the Node client

`RespConnection` of `index.js` as a state and the callbacks that its sockets and its
callers run, one after the other.  A socket that was destroyed has no more data and is not
connected any more, but its `close` event and its failed writes may come later.  What a
waiter was settled with is kept, with the sockets that had a part in it.
-/

namespace MegaCache.Resp.Node

abbrev Outcome := Except Failure (Value Bytes)

/-- `{ resolve, reject }` of one command, with the socket the command went to. -/
structure Waiter where
  id : ℕ
  socket : ℕ
deriving DecidableEq

structure Settlement where
  waiter : Waiter
  outcome : Outcome
  /-- the sockets whose bytes or events settled the waiter -/
  causes : List ℕ

/-- The fields of a `RespConnection`; sockets are numbered as they are created.  `connecting`
is the socket of the attempt that is under way, and `auth` the waiter of its `AUTH`. -/
structure RespConnection where
  socket : Option ℕ
  pendingSocket : Option ℕ
  connecting : Option ℕ
  auth : Option ℕ
  connected : List ℕ
  destroyed : List ℕ
  buffer : Bytes
  /-- the sockets that the bytes of the buffer are from -/
  sources : List ℕ
  waiters : List Waiter
  settled : List Settlement
  sockets : ℕ
  commands : ℕ

/-- The options that decide what a connection does. -/
structure ConnectionOptions extends Options where
  password : Bool

/-! ## Replies for waiters -/

/-- How the loop of `drain` ends: it waits for more bytes, `parse` threw, or nobody waits. -/
inductive DrainEnd
  | waiting
  | broken
  | finished
deriving DecidableEq

structure Drained where
  answered : List (Waiter × Outcome)
  waiters : List Waiter
  buffer : Bytes
  finish : DrainEnd

/-- The outcome of a waiter for a decoded reply. -/
def Decoded.outcome (d : Decoded) : Outcome :=
  match d.result with
  | .error line => .error (.command line)
  | .ok value => .ok value

/-- The loop of `drain`. -/
def drainLoop (o : Options) : List Waiter → Bytes → Drained
  | [], buffer => ⟨[], [], buffer, .finished⟩
  | waiter :: rest, buffer =>
    match parseReply o buffer with
    | .error e => ⟨(waiter :: rest).map fun w => (w, .error e), [], [], .broken⟩
    | .ok none => ⟨[], waiter :: rest, buffer, .waiting⟩
    | .ok (some decoded) =>
      let later := drainLoop o rest (buffer.drop decoded.next)
      { later with answered := (waiter, decoded.outcome) :: later.answered }

namespace RespConnection

def init : RespConnection := ⟨none, none, none, none, [], [], [], [], [], [], 0, 0⟩

/-- `socket.destroy()`. -/
def destroy (k : ℕ) (s : RespConnection) : RespConnection := { s with destroyed := k :: s.destroyed }

/-- `this.socket?.destroy()` and the like. -/
def destroyOption (k : Option ℕ) (s : RespConnection) : RespConnection :=
  { s with destroyed := k.toList ++ s.destroyed }

/-- A socket that was created and not destroyed. -/
def Alive (s : RespConnection) (k : ℕ) : Prop := k < s.sockets ∧ k ∉ s.destroyed

instance (s : RespConnection) (k : ℕ) : Decidable (s.Alive k) := by
  unfold Alive
  infer_instance

/-- Waiters settled from the front. -/
def settle (answered : List (Waiter × Outcome)) (causes : List ℕ) (s : RespConnection) :
    RespConnection :=
  { s with settled := s.settled ++ answered.map fun a => ⟨a.1, a.2, causes⟩ }

/-- `fail`, called for the sockets `causes`. -/
def fail (error : Failure) (causes : List ℕ) (s : RespConnection) : RespConnection :=
  { s.settle (s.waiters.map fun w => (w, .error error)) causes with waiters := [] }

/-- `this.buffer = Buffer.alloc(0)`. -/
def clearBuffer (s : RespConnection) : RespConnection := { s with buffer := [], sources := [] }

/-- `poison`. -/
def poison (error : Failure) (causes : List ℕ) (s : RespConnection) : RespConnection :=
  let s := (s.fail error causes).clearBuffer
  let s := (s.destroyOption s.pendingSocket).destroyOption s.socket
  { s with pendingSocket := none, socket := none }

/-- The state that the loop of `drain` leaves. -/
def drained (d : Drained) (s : RespConnection) : RespConnection :=
  { s.settle d.answered s.sources with waiters := d.waiters, buffer := d.buffer }

/-- `drain`. -/
def drain (o : Options) (s : RespConnection) : RespConnection :=
  let d := drainLoop o s.waiters s.buffer
  let t := s.drained d
  match d.finish with
  | .waiting => t
  | .broken => t.clearBuffer.destroyOption t.socket
  | .finished =>
    if t.buffer ≠ [] then t.poison (.protocol "unsolicited response") t.sources else t

/-- The attempt of a socket was rejected. -/
def giveUp (k : ℕ) (s : RespConnection) : RespConnection :=
  if s.connecting = some k then { s with connecting := none, auth := none } else s

/-- `rejectConnect` of a socket. -/
def rejectConnect (k : ℕ) (s : RespConnection) : RespConnection :=
  ({ s with pendingSocket := none } : RespConnection).giveUp k

/-- `writeConnected`: the command goes to a socket and its waiter to the queue. -/
def writeConnected (k : ℕ) (s : RespConnection) : RespConnection :=
  { s with waiters := s.waiters ++ [⟨s.commands, k⟩], commands := s.commands + 1 }

/-- `connect`: a new socket, unless there is one or will be. -/
def connect (s : RespConnection) : RespConnection :=
  if s.connecting.isSome ∨ ∃ k, s.socket = some k ∧ k ∉ s.destroyed then s
  else { s.clearBuffer with
    sockets := s.sockets + 1
    pendingSocket := some s.sockets
    connecting := some s.sockets
    auth := none }

/-- The end of `onConnect` when the connection can be used. -/
def establish (k : ℕ) (s : RespConnection) : RespConnection :=
  { s with socket := some k, pendingSocket := none, connecting := none, auth := none }

/-- A socket that is connected. -/
def opened (k : ℕ) (s : RespConnection) : RespConnection := { s with connected := k :: s.connected }

/-- `writeConnected` of the command `AUTH`. -/
def writeAuth (k : ℕ) (s : RespConnection) : RespConnection :=
  { s.writeConnected k with auth := some s.commands }

/-- `onConnect` of a socket, up to the reply of `AUTH` where there is a password. -/
def onConnect (o : ConnectionOptions) (k : ℕ) (s : RespConnection) : RespConnection :=
  if s.connecting = some k ∧ k ∉ s.destroyed ∧ k ∉ s.connected then
    if o.password then (s.opened k).writeAuth k else (s.opened k).establish k
  else s

/-- The bytes of `OK`. -/
def okText : Bytes := [79, 75]

/-- Whether `AUTH` was answered with `OK`. -/
def authorized (auth : ℕ) (s : RespConnection) : Bool :=
  s.settled.any fun x => x.waiter.id = auth &&
    match x.outcome with
    | .ok (.text text) => text = okText
    | _ => false

/-- The rest of `onConnect`, after the waiter of `AUTH` was settled. -/
def onAuthorized (k : ℕ) (s : RespConnection) : RespConnection :=
  match s.auth with
  | none => s
  | some auth =>
    if s.connecting = some k ∧ ∀ w ∈ s.waiters, w.id ≠ auth then
      if s.authorized auth ∧ k ∉ s.destroyed then s.establish k
      else (s.destroy k).giveUp k
    else s

/-- The rest of `command`, after `connect` returned. -/
def command (s : RespConnection) : RespConnection :=
  match s.socket with
  | none => s
  | some k => if k ∈ s.destroyed then s else s.writeConnected k

/-- The buffer with the bytes of a `data` event. -/
def received (k : ℕ) (chunk : Bytes) (s : RespConnection) : RespConnection :=
  { s with buffer := s.buffer ++ chunk, sources := s.sources ++ [k] }

/-- The handler of `data`. -/
def onData (o : ConnectionOptions) (k : ℕ) (chunk : Bytes) (s : RespConnection) : RespConnection :=
  if s.Alive k ∧ k ∈ s.connected then
    let s := s.received k chunk
    if o.maxResponseBytes * max 1 s.waiters.length < s.buffer.length ∨ s.waiters = [] then
      ((s.fail (.protocol "unsolicited or oversized response") s.sources).clearBuffer).destroy k
    else s.drain o.toOptions
  else s

/-- The handlers of `error`, which follows at once when a socket is destroyed with an error. -/
def onError (k : ℕ) (s : RespConnection) : RespConnection :=
  let s := if s.connecting = some k ∧ k ∉ s.connected then s.rejectConnect k else s
  (s.destroy k).fail .connection [k]

/-- The end of the handler of `close`. -/
def release (k : ℕ) (s : RespConnection) : RespConnection :=
  if s.socket = some k then { s.clearBuffer with socket := none } else s

/-- The handler of `close`. -/
def onClose (k : ℕ) (s : RespConnection) : RespConnection :=
  let s := (s.destroy k).fail .connection [k]
  if s.pendingSocket = some k then (s.rejectConnect k).release k else s.release k

/-- The callback of a failed `socket.write`. -/
def onWriteError (k : ℕ) (s : RespConnection) : RespConnection :=
  ((s.fail .connection [k]).clearBuffer).destroy k

/-- The callback of `setTimeout`: the socket is destroyed with an error. -/
def onTimeout (k : ℕ) (s : RespConnection) : RespConnection :=
  if s.Alive k then s.onError k else s

end RespConnection

/-- What runs next. -/
inductive Callback
  | connect
  | onConnect (k : ℕ)
  | onAuthorized (k : ℕ)
  | command
  | data (k : ℕ) (chunk : Bytes)
  | error (k : ℕ)
  | close (k : ℕ)
  | writeError (k : ℕ)
  | timeout (k : ℕ)
  | poison

def RespConnection.step (o : ConnectionOptions) (s : RespConnection) : Callback → RespConnection
  | .connect => s.connect
  | .onConnect k => s.onConnect o k
  | .onAuthorized k => s.onAuthorized k
  | .command => s.command
  | .data k chunk => s.onData o k chunk
  | .error k => s.onError k
  | .close k => s.onClose k
  | .writeError k => s.onWriteError k
  | .timeout k => s.onTimeout k
  | .poison => s.poison .connection []

/-! ## A stream of replies -/

/-- What the waiters of a stream of replies get: one that cannot be decoded is for all of the
waiters that are left. -/
def answers : List Reply → List Outcome
  | [] => []
  | r :: rest =>
    match verdict r 0 with
    | .error e => List.replicate (rest.length + 1) (.error e)
    | .ok _ => Reply.answer r :: answers rest

/-- The replies of a stream are within the limits. -/
def WithinLimits (o : Options) (replies : List Reply) : Prop :=
  ∀ r ∈ replies, Within o o.maxResponseDepth r ∧ r.encode.length ≤ o.maxResponseBytes

theorem verdict_error {r : Reply} {next : ℕ} {e : Failure} (h : verdict r next = .error e) :
    verdict r 0 = .error e := by
  cases r with
  | error text => cases h
  | _ =>
    simp only [verdict] at h ⊢
    cases hanswer : Reply.answer _ with
    | error e' =>
      rw [hanswer] at h
      exact h
    | ok v =>
      rw [hanswer] at h
      cases h

theorem verdict_result {r : Reply} {next : ℕ} {d : Decoded} (h : verdict r next = .ok (some d)) :
    d.next = next ∧ d.outcome = Reply.answer r ∧ ∃ d', verdict r 0 = .ok d' := by
  cases r with
  | error text =>
    obtain rfl := Option.some.inj (Except.ok.inj h)
    exact ⟨rfl, rfl, _, rfl⟩
  | _ =>
    simp only [verdict] at h ⊢
    cases hanswer : Reply.answer _ with
    | error e' =>
      rw [hanswer] at h
      cases h
    | ok v =>
      rw [hanswer] at h
      obtain rfl := Option.some.inj (Except.ok.inj h)
      exact ⟨rfl, rfl, _, rfl⟩

theorem zip_replicate {α : Type} (ws : List Waiter) (x : α) :
    ws.zip (List.replicate ws.length x) = ws.map fun w => (w, x) := by
  induction ws with
  | nil => rfl
  | cons w ws ih =>
    rw [List.length_cons, List.replicate_succ, List.zip_cons_cons, ih]
    rfl

/-- The loop of `drain` on the first bytes of a stream, as many replies as waiters: it breaks and
all waiters have what the stream gives them, or they will have it after the loop went on. -/
theorem drainLoop_stream {o : Options} {ws : List Waiter} {replies : List Reply} {b x : Bytes}
    (hlen : replies.length = ws.length) (hwithin : WithinLimits o replies)
    (hb : b ++ x = encodeItems replies) :
    ((drainLoop o ws b).finish = .broken ∧ (drainLoop o ws b).waiters = [] ∧
      (drainLoop o ws b).answered = ws.zip (answers replies)) ∨
    ((drainLoop o ws b).finish = .waiting ∧ parseReply o (drainLoop o ws b).buffer = .ok none ∨
      (drainLoop o ws b).finish = .finished ∧ (drainLoop o ws b).waiters = []) ∧
    ∃ rest, rest.length = (drainLoop o ws b).waiters.length ∧ WithinLimits o rest ∧
      (drainLoop o ws b).buffer ++ x = encodeItems rest ∧
      (drainLoop o ws b).answered ++ (drainLoop o ws b).waiters.zip (answers rest) =
        ws.zip (answers replies) := by
  induction ws generalizing replies b with
  | nil =>
    obtain rfl := List.length_eq_zero_iff.mp hlen
    exact .inr ⟨.inr ⟨rfl, rfl⟩, [], rfl, hwithin, hb, rfl⟩
  | cons w ws ih =>
    cases replies with
    | nil => cases hlen
    | cons r replies =>
      have hlen' : replies.length = ws.length := Nat.succ.inj hlen
      have hr := hwithin r List.mem_cons_self
      have hreplies : WithinLimits o replies := fun q hq => hwithin q (List.mem_cons_of_mem r hq)
      obtain ⟨hwhole, hpart⟩ := parseReply_whole hr.1 hr.2 hb
      -- a failure is for every waiter
      have hbroken : ∀ e n, parseReply o b = .error e → verdict r n = .error e →
          (drainLoop o (w :: ws) b).finish = .broken ∧ (drainLoop o (w :: ws) b).waiters = [] ∧
            (drainLoop o (w :: ws) b).answered = (w :: ws).zip (answers (r :: replies)) := by
        intro e n hparse hverdict
        have hanswers : answers (r :: replies) = List.replicate (w :: ws).length (.error e) := by
          rw [answers, verdict_error hverdict, List.length_cons, hlen']
        rw [drainLoop, hparse, hanswers, zip_replicate]
        exact ⟨rfl, rfl, rfl⟩
      rcases Nat.lt_or_ge b.length r.encode.length with hlt | hge
      · rcases hpart hlt with hnone | ⟨e, hparse, hverdict⟩
        · right
          have hloop : drainLoop o (w :: ws) b = ⟨[], w :: ws, b, .waiting⟩ := by
            rw [drainLoop, hnone]
          rw [hloop]
          exact ⟨.inl ⟨rfl, hnone⟩, r :: replies, hlen, hwithin, hb, rfl⟩
        · exact .inl (hbroken e _ hparse hverdict)
      · have hparse := hwhole hge
        rcases verdict_cases r r.encode.length with ⟨result, hverdict⟩ | ⟨e, hverdict⟩
        · obtain ⟨-, houtcome, d', hzero⟩ := verdict_result hverdict
          have hanswers : answers (r :: replies) = Reply.answer r :: answers replies := by
            rw [answers, hzero]
          have hloop : drainLoop o (w :: ws) b =
              { drainLoop o ws (b.drop r.encode.length) with
                answered := (w, Reply.answer r) :: (drainLoop o ws (b.drop r.encode.length)).answered } := by
            rw [drainLoop, hparse, hverdict]
            dsimp only
            rw [houtcome]
          have hrest : b.drop r.encode.length ++ x = encodeItems replies := by
            have hdrop := congrArg (List.drop r.encode.length) hb
            rwa [List.drop_append_of_le_length hge, encodeItems, List.drop_left] at hdrop
          rw [hloop, hanswers, List.zip_cons_cons]
          rcases ih hlen' hreplies hrest with ⟨hfinish, hws, hanswered⟩ | ⟨hend, rest, h₁, h₂, h₃, h₄⟩
          · exact .inl ⟨hfinish, hws, congrArg _ hanswered⟩
          · exact .inr ⟨hend, rest, h₁, h₂, h₃, congrArg _ h₄⟩
        · exact .inl (hbroken e _ (hparse.trans hverdict) hverdict)

theorem answers_length (replies : List Reply) : (answers replies).length = replies.length := by
  induction replies with
  | nil => rfl
  | cons r rest ih =>
    rw [answers]
    cases verdict r 0 with
    | error e => exact List.length_replicate
    | ok d => exact congrArg (· + 1) ih

/-- The size of a stream within the limits. -/
theorem length_encodeItems {o : Options} {replies : List Reply} (h : WithinLimits o replies) :
    (encodeItems replies).length ≤ o.maxResponseBytes * replies.length := by
  induction replies with
  | nil => simp [encodeItems]
  | cons r rest ih =>
    have hr := (h r List.mem_cons_self).2
    have hrest := ih fun q hq => h q (List.mem_cons_of_mem r hq)
    rw [encodeItems, List.length_append, List.length_cons, Nat.mul_add, Nat.mul_one]
    omega

namespace RespConnection

/-- The waiters that were settled and what with. -/
def outcomes (s : RespConnection) : List (Waiter × Outcome) :=
  s.settled.map fun x => (x.waiter, x.outcome)

theorem outcomes_settle (answered : List (Waiter × Outcome)) (causes : List ℕ) (s : RespConnection) :
    (s.settle answered causes).outcomes = s.outcomes ++ answered := by
  rw [outcomes, settle, List.map_append, List.map_map]
  exact congrArg _ (List.map_id answered)

/-- A connection on the way through a stream of which `x` is still to come: all waiters are
settled, or they will be with what the rest of the stream gives them. -/
def Midway (o : Options) (k : ℕ) (x : Bytes) (settled : List (Waiter × Outcome))
    (s : RespConnection) : Prop :=
  s.waiters = [] ∧ s.outcomes = settled ∨
  (s.Alive k ∧ k ∈ s.connected) ∧ (s.waiters = [] ∨ parseReply o s.buffer = .ok none) ∧
  ∃ replies, replies.length = s.waiters.length ∧ WithinLimits o replies ∧
    s.buffer ++ x = encodeItems replies ∧ s.outcomes ++ s.waiters.zip (answers replies) = settled

/-- Nobody waits at the end of the stream. -/
theorem Midway.finished {o : Options} {k : ℕ} {settled : List (Waiter × Outcome)} {s : RespConnection}
    (h : Midway o k [] settled s) : s.waiters = [] ∧ s.outcomes = settled := by
  obtain h | ⟨-, hend, replies, hlen, hwithin, hbuffer, hsettled⟩ := h
  · exact h
  · have hws : s.waiters = [] := by
      refine hend.elim id fun hnone => ?_
      cases replies with
      | nil => exact List.length_eq_zero_iff.mp hlen.symm
      | cons r rest =>
        -- a whole reply would have been decoded
        have hr := hwithin r List.mem_cons_self
        rw [List.append_nil, encodeItems] at hbuffer
        have hwhole := (parseReply_whole hr.1 hr.2 ((List.append_nil _).trans hbuffer)).1
          (by rw [hbuffer, List.length_append]; omega)
        rcases verdict_cases r r.encode.length with ⟨result, hv⟩ | ⟨e, hv⟩
        all_goals
          rw [hwhole, hv] at hnone
          cases hnone
    refine ⟨hws, ?_⟩
    rwa [hws, List.zip_nil_left, List.append_nil] at hsettled

/-- Bytes for nobody, or more than the waiters may get. -/
theorem onData_fail {o : ConnectionOptions} {k : ℕ} {chunk : Bytes} {s : RespConnection}
    (h : s.Alive k ∧ k ∈ s.connected)
    (hlimit : o.maxResponseBytes * max 1 s.waiters.length < (s.buffer ++ chunk).length ∨
      s.waiters = []) :
    s.onData o k chunk = (((s.received k chunk).fail
      (.protocol "unsolicited or oversized response") (s.sources ++ [k])).clearBuffer).destroy k := by
  rw [onData, if_pos h]
  exact if_pos hlimit

theorem onData_drain {o : ConnectionOptions} {k : ℕ} {chunk : Bytes} {s : RespConnection}
    (h : s.Alive k ∧ k ∈ s.connected)
    (hlimit : ¬(o.maxResponseBytes * max 1 s.waiters.length < (s.buffer ++ chunk).length ∨
      s.waiters = [])) :
    s.onData o k chunk = (s.received k chunk).drain o.toOptions := by
  rw [onData, if_pos h]
  exact if_neg hlimit

theorem onData_finished {o : ConnectionOptions} {k : ℕ} {chunk : Bytes} {s : RespConnection}
    (h : s.waiters = []) :
    (s.onData o k chunk).waiters = [] ∧ (s.onData o k chunk).outcomes = s.outcomes := by
  by_cases halive : s.Alive k ∧ k ∈ s.connected
  · rw [onData_fail halive (.inr h)]
    refine ⟨rfl, (outcomes_settle _ _ _).trans ?_⟩
    have hnobody : (s.received k chunk).waiters = [] := h
    rw [hnobody, List.map_nil, List.append_nil]
    rfl
  · rw [onData, if_neg halive]
    exact ⟨h, rfl⟩

theorem outcomes_drained (d : Drained) (s : RespConnection) :
    (s.drained d).outcomes = s.outcomes ++ d.answered :=
  outcomes_settle d.answered s.sources s

theorem drain_midway {o : Options} {k : ℕ} {x : Bytes} {settled : List (Waiter × Outcome)}
    {s : RespConnection} {replies : List Reply} (halive : s.Alive k ∧ k ∈ s.connected)
    (hlen : replies.length = s.waiters.length) (hwithin : WithinLimits o replies)
    (hbuffer : s.buffer ++ x = encodeItems replies)
    (hsettled : s.outcomes ++ s.waiters.zip (answers replies) = settled) :
    Midway o k x settled (s.drain o) := by
  rw [drain]
  rcases drainLoop_stream hlen hwithin hbuffer with
    ⟨hfinish, hrest, hanswered⟩ | ⟨hend, rest, hrlen, hrwithin, hrbuffer, hranswered⟩
  · left
    rw [hfinish]
    dsimp only
    refine ⟨hrest, (outcomes_drained _ s).trans ?_⟩
    rw [hanswered, hsettled]
  · right
    rw [← hsettled, ← hranswered, ← List.append_assoc, ← outcomes_drained]
    rcases hend with ⟨hfinish, hnone⟩ | ⟨hfinish, hnil⟩
    · rw [hfinish]
      exact ⟨halive, .inr hnone, rest, hrlen, hrwithin, hrbuffer, rfl⟩
    · -- all bytes of the stream are used up
      have hempty : (s.drained (drainLoop o s.waiters s.buffer)).buffer = [] := by
        rw [hnil] at hrlen
        rw [List.length_eq_zero_iff.mp hrlen] at hrbuffer
        exact (List.append_eq_nil_iff.mp hrbuffer).1
      rw [hfinish]
      dsimp only
      rw [if_neg (not_not.mpr hempty)]
      exact ⟨halive, .inl hnil, rest, hrlen, hrwithin, hrbuffer, rfl⟩

theorem onData_midway {o : ConnectionOptions} {k : ℕ} {chunk x : Bytes}
    {settled : List (Waiter × Outcome)} {s : RespConnection}
    (h : Midway o.toOptions k (chunk ++ x) settled s) :
    Midway o.toOptions k x settled (s.onData o k chunk) := by
  by_cases hws : s.waiters = []
  · have hdone : s.outcomes = settled := by
      obtain h | ⟨-, -, replies, -, -, -, hsettled⟩ := h
      · exact h.2
      · rwa [hws, List.zip_nil_left, List.append_nil] at hsettled
    obtain ⟨h₁, h₂⟩ := @onData_finished o k chunk s hws
    exact .inl ⟨h₁, h₂.trans hdone⟩
  · obtain h | ⟨halive, -, replies, hlen, hwithin, hbuffer, hsettled⟩ := h
    · exact absurd h.1 hws
    rw [← List.append_assoc] at hbuffer
    have hsize : ¬(o.maxResponseBytes * max 1 s.waiters.length < (s.buffer ++ chunk).length ∨
        s.waiters = []) := by
      have hbound := length_encodeItems hwithin
      have hpos : 0 < s.waiters.length := List.length_pos_iff.mpr hws
      rw [← hbuffer, List.length_append, hlen] at hbound
      rw [max_eq_right hpos, or_iff_left hws]
      omega
    rw [onData_drain halive hsize]
    exact @drain_midway o.toOptions k x settled (s.received k chunk) replies halive hlen hwithin hbuffer hsettled

end RespConnection

end MegaCache.Resp.Node
