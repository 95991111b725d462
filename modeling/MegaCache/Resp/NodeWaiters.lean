import MegaCache.Resp.NodeConnection

/-!
# The waiters of the Node client

What every run of a `RespConnection` keeps: at most one socket can be written to, all waiters
are for it, and the bytes of the buffer are from it.  Waiters are settled once and in order.
The handlers of a socket that is gone still settle the waiters of its successor.
-/

namespace MegaCache.Resp.Node

namespace RespConnection

/-- What holds of a connection between two callbacks. -/
structure Sound (s : RespConnection) : Prop where
  /-- only the socket in use and the one of the attempt are not destroyed -/
  alive : ∀ k, s.Alive k → s.socket = some k ∨ s.connecting = some k
  single : ∀ k, s.socket = some k → k ∉ s.destroyed → s.connecting = none
  pending : ∀ k, s.connecting = some k → k ∉ s.destroyed → s.pendingSocket = some k
  created : ∀ k, s.socket = some k ∨ s.connecting = some k → k < s.sockets
  queued : ∀ w ∈ s.waiters, s.Alive w.socket
  auth : s.connecting.isSome → ∀ w ∈ s.waiters, s.auth = some w.id
  sources : ∀ k, s.Alive k → ∀ c ∈ s.sources, c = k
  /-- `AUTH` is written when the socket connects -/
  fresh : ∀ k, s.connecting = some k → k ∉ s.connected → s.auth = none
  order : s.settled.map (·.waiter.id) ++ s.waiters.map (·.id) = List.range s.commands

theorem Sound.init : Sound init := by
  refine ⟨?_, ?_, ?_, ?_, ?_, ?_, ?_, ?_, rfl⟩
  · rintro k ⟨hk, -⟩
    cases hk
  · intro k h
    cases h
  · intro k h
    cases h
  · rintro k (h | h) <;> cases h
  · intro w hw
    cases hw
  · intro _ w hw
    cases hw
  · intro k _ c hc
    cases hc
  · intro k h
    cases h

/-- There is one socket at most. -/
theorem Sound.unique {s : RespConnection} (h : Sound s) {j k : ℕ} (hj : s.Alive j)
    (hk : s.Alive k) : j = k := by
  rcases h.alive j hj with hsocket | hconnecting
  · rcases h.alive k hk with hsocket' | hconnecting'
    · exact Option.some.inj (hsocket.symm.trans hsocket')
    · have hnone := h.single j hsocket hj.2
      rw [hnone] at hconnecting'
      cases hconnecting'
  · rcases h.alive k hk with hsocket' | hconnecting'
    · have hnone := h.single k hsocket' hk.2
      rw [hnone] at hconnecting
      cases hconnecting
    · exact Option.some.inj (hconnecting.symm.trans hconnecting')

/-! ## Steps that settle waiters -/

/-- Some waiters were settled from the front and the rest still wait; what is destroyed now has
no waiters, and what else is kept was there before. -/
structure Settles (causes : List ℕ) (s t : RespConnection) : Prop where
  waiters : ∃ answered : List (Waiter × Outcome), s.waiters = answered.map Prod.fst ++ t.waiters ∧
    t.settled = s.settled ++ answered.map fun a => ⟨a.1, a.2, causes⟩
  sockets : t.sockets = s.sockets
  commands : t.commands = s.commands
  connected : t.connected = s.connected
  destroyed : ∀ k ∈ s.destroyed, k ∈ t.destroyed
  /-- what waits is not destroyed -/
  alive : ∀ w ∈ t.waiters, w.socket ∈ t.destroyed → w.socket ∈ s.destroyed
  socket : ∀ k, t.socket = some k → s.socket = some k
  kept : ∀ k, s.socket = some k → k ∉ t.destroyed → t.socket = some k
  connecting : ∀ k, t.connecting = some k → s.connecting = some k ∧ t.auth = s.auth
  attempt : ∀ k, s.connecting = some k → k ∉ t.destroyed → t.connecting = some k
  pending : ∀ k, s.pendingSocket = some k → k ∉ t.destroyed → t.connecting = some k →
    t.pendingSocket = some k
  sources : t.sources = s.sources ∨ t.sources = []

theorem Sound.settles {causes : List ℕ} {s t : RespConnection} (h : Sound s)
    (hst : Settles causes s t) : Sound t := by
  have halive : ∀ k, t.Alive k → s.Alive k := fun k hk =>
    ⟨hst.sockets ▸ hk.1, fun hd => hk.2 (hst.destroyed k hd)⟩
  obtain ⟨answered, hwaiters, hsettled⟩ := hst.waiters
  have hmem : ∀ w ∈ t.waiters, w ∈ s.waiters := fun w hw => by
    rw [hwaiters]
    exact List.mem_append_right _ hw
  refine ⟨?_, ?_, ?_, ?_, ?_, ?_, ?_, ?_, ?_⟩
  · intro k hk
    exact (h.alive k (halive k hk)).imp (hst.kept k · hk.2) (hst.attempt k · hk.2)
  · intro k hk hd
    have hnone := h.single k (hst.socket k hk) fun hs => hd (hst.destroyed k hs)
    cases hc : t.connecting with
    | none => rfl
    | some j =>
      rw [(hst.connecting j hc).1] at hnone
      cases hnone
  · intro k hk hd
    have hs := (hst.connecting k hk).1
    exact hst.pending k (h.pending k hs fun hs => hd (hst.destroyed k hs)) hd hk
  · intro k hk
    rw [hst.sockets]
    exact h.created k (hk.imp (hst.socket k) fun hk => (hst.connecting k hk).1)
  · intro w hw
    have hs := h.queued w (hmem w hw)
    exact ⟨by rw [hst.sockets]; exact hs.1, fun hd => hs.2 (hst.alive w hw hd)⟩
  · intro hc w hw
    obtain ⟨k, hk⟩ := Option.isSome_iff_exists.mp hc
    obtain ⟨hs, hauth⟩ := hst.connecting k hk
    rw [hauth]
    exact h.auth (by rw [hs]; rfl) w (hmem w hw)
  · intro k hk c hc
    rcases hst.sources with hs | hs
    · exact h.sources k (halive k hk) c (hs ▸ hc)
    · rw [hs] at hc
      cases hc
  · intro k hk hc
    obtain ⟨hs, hauth⟩ := hst.connecting k hk
    rw [hauth]
    exact h.fresh k hs (hst.connected ▸ hc)
  · rw [hsettled, hst.commands, ← h.order, hwaiters]
    simp only [List.map_append, List.map_map, List.append_assoc]
    rfl

theorem Settles.trans {causes : List ℕ} {s t u : RespConnection} (h : Settles causes s t)
    (h' : Settles causes t u) : Settles causes s u := by
  obtain ⟨first, hws, hsettled⟩ := h.waiters
  obtain ⟨second, hws', hsettled'⟩ := h'.waiters
  refine ⟨⟨first ++ second, ?_, ?_⟩, h'.sockets.trans h.sockets, h'.commands.trans h.commands,
    h'.connected.trans h.connected, fun k hk => h'.destroyed k (h.destroyed k hk), ?_,
    fun k hk => h.socket k (h'.socket k hk), ?_, ?_, ?_, ?_, ?_⟩
  · rw [hws, hws', List.map_append, List.append_assoc]
  · rw [hsettled', hsettled, List.map_append, List.append_assoc]
  · intro w hw hd
    have hwt : w ∈ t.waiters := by
      rw [hws']
      exact List.mem_append_right _ hw
    exact h.alive w hwt (h'.alive w hw hd)
  · intro k hk hd
    exact h'.kept k (h.kept k hk fun ht => hd (h'.destroyed k ht)) hd
  · intro k hk
    obtain ⟨ht, hauth⟩ := h'.connecting k hk
    obtain ⟨hs, hauth'⟩ := h.connecting k ht
    exact ⟨hs, hauth.trans hauth'⟩
  · intro k hk hd
    exact h'.attempt k (h.attempt k hk fun ht => hd (h'.destroyed k ht)) hd
  · intro k hk hd hc
    have ht := (h'.connecting k hc).1
    exact h'.pending k (h.pending k hk (fun ht => hd (h'.destroyed k ht)) ht) hd hc
  · rcases h'.sources with hs | hs
    · rw [hs]
      exact h.sources
    · exact .inr hs

theorem Settles.refl (causes : List ℕ) (s : RespConnection) : Settles causes s s :=
  ⟨⟨[], rfl, (List.append_nil _).symm⟩, rfl, rfl, rfl, fun _ => id, fun _ _ => id, fun _ => id,
    fun _ hk _ => hk, fun _ hk => ⟨hk, rfl⟩, fun _ hk _ => hk, fun _ hk _ _ => hk, .inl rfl⟩

/-- Waiters settled and nothing else. -/
theorem Settles.answered (answered : List (Waiter × Outcome)) {causes : List ℕ}
    {s t : RespConnection} {rest : List Waiter} {b : Bytes}
    (hws : s.waiters = answered.map Prod.fst ++ rest)
    (ht : t = { s.settle answered causes with waiters := rest, buffer := b }) :
    Settles causes s t := by
  subst ht
  exact ⟨⟨answered, hws, rfl⟩, rfl, rfl, rfl, fun _ => id, fun _ _ => id, fun _ => id,
    fun _ hk _ => hk, fun _ hk => ⟨hk, rfl⟩, fun _ hk _ => hk, fun _ hk _ _ => hk, .inl rfl⟩

theorem Settles.fail (error : Failure) (causes : List ℕ) (s : RespConnection) :
    Settles causes s (s.fail error causes) :=
  .answered (s.waiters.map fun w => (w, .error error))
    (by rw [List.map_map, List.append_nil]; exact (List.map_id _).symm) rfl

theorem Settles.clearBuffer (causes : List ℕ) (s : RespConnection) :
    Settles causes s s.clearBuffer :=
  ⟨⟨[], rfl, (List.append_nil _).symm⟩, rfl, rfl, rfl, fun _ => id, fun _ _ => id, fun _ => id,
    fun _ hk _ => hk, fun _ hk => ⟨hk, rfl⟩, fun _ hk _ => hk, fun _ hk _ _ => hk, .inr rfl⟩

/-- Sockets are destroyed when nobody waits. -/
theorem Settles.destroyOption (causes : List ℕ) (k : Option ℕ) {s : RespConnection}
    (h : s.waiters = []) : Settles causes s (s.destroyOption k) := by
  refine ⟨⟨[], rfl, (List.append_nil _).symm⟩, rfl, rfl, rfl,
    fun _ => List.mem_append_right k.toList, ?_, fun _ => id, fun _ hk _ => hk,
    fun _ hk => ⟨hk, rfl⟩, fun _ hk _ => hk, fun _ hk _ _ => hk, .inl rfl⟩
  intro w hw
  change w ∈ s.waiters at hw
  rw [h] at hw
  cases hw

theorem Settles.destroy (causes : List ℕ) (k : ℕ) {s : RespConnection} (h : s.waiters = []) :
    Settles causes s (s.destroy k) :=
  .destroyOption causes (some k) h

/-- The attempt of a destroyed socket is given up. -/
theorem Settles.giveUp (causes : List ℕ) {k : ℕ} {s : RespConnection} (h : k ∈ s.destroyed) :
    Settles causes s (s.giveUp k) := by
  unfold RespConnection.giveUp
  split_ifs with hk
  · refine ⟨⟨[], rfl, (List.append_nil _).symm⟩, rfl, rfl, rfl, fun _ => id, fun _ _ => id,
      fun _ => id, fun _ hk _ => hk, ?_, ?_, ?_, .inl rfl⟩
    · intro j hj
      cases hj
    · intro j hj hd
      obtain rfl := Option.some.inj (hk.symm.trans hj)
      exact absurd h hd
    · intro j _ _ hj
      cases hj
  · exact .refl causes s

theorem Settles.rejectConnect (causes : List ℕ) {k : ℕ} {s : RespConnection} (h : k ∈ s.destroyed)
    (hk : s.connecting = some k ∨ s.pendingSocket = some k) :
    Settles causes s (s.rejectConnect k) := by
  have hgive := @Settles.giveUp causes k { s with pendingSocket := none } h
  refine ⟨hgive.waiters, hgive.sockets, hgive.commands, hgive.connected, hgive.destroyed,
    hgive.alive, hgive.socket, hgive.kept, hgive.connecting, hgive.attempt, ?_, hgive.sources⟩
  intro j hj hd hc
  exfalso
  by_cases hconnecting : s.connecting = some k
  · have hnone : (s.rejectConnect k).connecting = none := by
      unfold RespConnection.rejectConnect RespConnection.giveUp
      rw [if_pos hconnecting]
    rw [hnone] at hc
    cases hc
  · have hpending := hk.resolve_left hconnecting
    obtain rfl := Option.some.inj (hj.symm.trans hpending)
    exact hd (hgive.destroyed j h)

/-- The fields of destroyed sockets are reset. -/
theorem Settles.forget (causes : List ℕ) {s t : RespConnection} {pending : Option ℕ}
    (h : ∀ k, s.socket = some k → k ∈ s.destroyed)
    (hpending : ∀ k, s.pendingSocket = some k → pending = some k ∨ k ∈ s.destroyed)
    (ht : t = { s with socket := none, pendingSocket := pending }) : Settles causes s t := by
  subst ht
  refine ⟨⟨[], rfl, (List.append_nil _).symm⟩, rfl, rfl, rfl, fun _ => id, fun _ _ => id, ?_,
    fun k hk hd => absurd (h k hk) hd, fun _ hk => ⟨hk, rfl⟩, fun _ hk _ => hk, ?_, .inl rfl⟩
  · intro k hk
    cases hk
  · intro k hk hd _
    exact (hpending k hk).resolve_right hd

theorem Settles.poison (error : Failure) (causes : List ℕ) (s : RespConnection) :
    Settles causes s (s.poison error causes) := by
  have hfail := (Settles.fail error causes s).trans (.clearBuffer causes _)
  have hpending := hfail.trans (.destroyOption causes s.pendingSocket rfl)
  have hsocket := hpending.trans (.destroyOption causes s.socket rfl)
  refine hsocket.trans (@Settles.forget causes _ _ none ?_ ?_ rfl)
  · intro k hk
    exact List.mem_append_left _ (Option.mem_toList.mpr hk)
  · intro k hk
    exact .inr (List.mem_append_right _ (List.mem_append_left _ (Option.mem_toList.mpr hk)))

/-! ## The handlers -/

/-- The loop of `drain` answers waiters from the front. -/
theorem drainLoop_waiters (o : Options) (ws : List Waiter) (b : Bytes) :
    ws = (drainLoop o ws b).answered.map Prod.fst ++ (drainLoop o ws b).waiters := by
  induction ws generalizing b with
  | nil => rfl
  | cons w ws ih =>
    rw [drainLoop]
    rcases parseReply o b with e | _ | d
    · simp [List.map_map, Function.comp_def]
    · rfl
    · exact congrArg (w :: ·) (ih _)

theorem drainLoop_ended {o : Options} {ws : List Waiter} {b : Bytes}
    (h : (drainLoop o ws b).finish ≠ .waiting) : (drainLoop o ws b).waiters = [] := by
  induction ws generalizing b with
  | nil => rfl
  | cons w ws ih =>
    rw [drainLoop] at h ⊢
    rcases hp : parseReply o b with e | _ | d
    · rfl
    · rw [hp] at h
      exact absurd rfl h
    · rw [hp] at h
      exact ih h

theorem Settles.drain (o : Options) (s : RespConnection) : Settles s.sources s (s.drain o) := by
  have hloop : Settles s.sources s (s.drained (drainLoop o s.waiters s.buffer)) :=
    .answered _ (drainLoop_waiters o s.waiters s.buffer) rfl
  rw [RespConnection.drain]
  cases hfinish : (drainLoop o s.waiters s.buffer).finish with
  | waiting => exact hloop
  | broken =>
    have hnobody := drainLoop_ended (hfinish.trans_ne (by decide))
    exact (hloop.trans (.clearBuffer _ _)).trans (.destroyOption _ _ hnobody)
  | finished =>
    split_ifs
    · exact hloop.trans (.poison _ _ _)
    · exact hloop

theorem Settles.onWriteError (k : ℕ) (s : RespConnection) : Settles [k] s (s.onWriteError k) :=
  ((Settles.fail .connection [k] s).trans (.clearBuffer _ _)).trans (.destroy _ k rfl)

theorem Settles.failed (k : ℕ) (s : RespConnection) :
    Settles [k] s ((s.destroy k).fail .connection [k]) :=
  (Settles.fail .connection [k] s).trans (.destroy [k] k rfl)

/-- A waiter does not notice when an attempt is rejected. -/
theorem rejectConnect_failed (k : ℕ) (error : Failure) (causes : List ℕ) (s : RespConnection) :
    ((s.rejectConnect k).destroy k).fail error causes =
      ((s.destroy k).fail error causes).rejectConnect k := by
  unfold rejectConnect giveUp
  split_ifs with h₁ h₂ h₂
  · rfl
  · exact absurd h₁ h₂
  · exact absurd h₂ h₁
  · rfl

theorem Settles.onError (k : ℕ) (s : RespConnection) : Settles [k] s (s.onError k) := by
  have hgone : k ∈ ((s.destroy k).fail .connection [k]).destroyed := List.mem_cons_self
  unfold RespConnection.onError
  split_ifs with h
  · rw [rejectConnect_failed]
    exact (Settles.failed k s).trans (.rejectConnect [k] hgone (.inl h.1))
  · exact .failed k s

theorem Settles.release (causes : List ℕ) {k : ℕ} {s : RespConnection} (h : k ∈ s.destroyed) :
    Settles causes s (s.release k) := by
  unfold RespConnection.release
  split_ifs with hsocket
  · refine (Settles.clearBuffer causes s).trans (@Settles.forget causes _ _ s.pendingSocket ?_ ?_ rfl)
    · intro j hj
      obtain rfl := Option.some.inj (hsocket.symm.trans hj)
      exact h
    · exact fun _ => .inl
  · exact .refl causes s

theorem Settles.onClose (k : ℕ) (s : RespConnection) : Settles [k] s (s.onClose k) := by
  have hgone : k ∈ ((s.destroy k).fail .connection [k]).destroyed := List.mem_cons_self
  unfold RespConnection.onClose
  dsimp only
  split_ifs with hpending
  · have hreject := Settles.rejectConnect [k] hgone (.inr hpending)
    exact ((Settles.failed k s).trans hreject).trans (.release [k] (hreject.destroyed k hgone))
  · exact (Settles.failed k s).trans (.release [k] hgone)

/-! ## Steps -/

/-- The socket whose attempt ends may be used. -/
theorem Sound.establish {k : ℕ} {s : RespConnection} (h : Sound s) (hk : s.connecting = some k) :
    Sound (s.establish k) := by
  refine ⟨?_, fun _ _ _ => rfl, ?_, ?_, h.queued, ?_, h.sources, ?_, h.order⟩
  · intro j hj
    left
    rcases h.alive j hj with hsocket | hconnecting
    · rw [h.single j hsocket hj.2] at hk
      cases hk
    · exact hk.symm.trans hconnecting
  · intro j hj
    cases hj
  · rintro j (hj | hj)
    · obtain rfl := Option.some.inj hj
      exact h.created _ (.inr hk)
    · cases hj
  · intro hj
    cases hj
  · intro j hj
    cases hj

theorem Sound.writeConnected {k : ℕ} {s : RespConnection} (h : Sound s) (hk : s.Alive k)
    (hnone : s.connecting = none) : Sound (s.writeConnected k) := by
  refine ⟨h.alive, h.single, h.pending, h.created, ?_, ?_, h.sources, h.fresh, ?_⟩
  · intro w hw
    rcases List.mem_append.mp hw with hw | hw
    · exact h.queued w hw
    · obtain rfl := List.mem_singleton.mp hw
      exact hk
  · intro hj
    change s.connecting.isSome at hj
    rw [hnone] at hj
    cases hj
  · change s.settled.map _ ++ (s.waiters ++ [(⟨s.commands, k⟩ : Waiter)]).map _ =
      List.range (s.commands + 1)
    rw [List.map_append, ← List.append_assoc, h.order, List.range_succ]
    rfl

theorem Sound.command {s : RespConnection} (h : Sound s) : Sound s.command := by
  unfold RespConnection.command
  cases hsocket : s.socket with
  | none => exact h
  | some k =>
    dsimp only
    split_ifs with hk
    · exact h
    · exact h.writeConnected ⟨h.created k (.inl hsocket), hk⟩ (h.single k hsocket hk)

theorem Sound.opened {s : RespConnection} (h : Sound s) (k : ℕ) : Sound (s.opened k) :=
  ⟨h.alive, h.single, h.pending, h.created, h.queued, h.auth, h.sources,
    fun j hj hc => h.fresh j hj fun hs => hc (List.mem_cons_of_mem k hs), h.order⟩

theorem Sound.writeAuth {k : ℕ} {s : RespConnection} (h : Sound s) (hk : s.connecting = some k)
    (hconnected : k ∈ s.connected) (hdestroyed : k ∉ s.destroyed) (hnobody : s.waiters = []) :
    Sound (s.writeAuth k) := by
  have hwaiters : (s.writeAuth k).waiters = [⟨s.commands, k⟩] := congrArg (· ++ _) hnobody
  refine ⟨h.alive, h.single, h.pending, h.created, ?_, ?_, h.sources, ?_, ?_⟩
  · intro w hw
    rw [hwaiters] at hw
    obtain rfl := List.mem_singleton.mp hw
    exact ⟨h.created k (.inr hk), hdestroyed⟩
  · intro _ w hw
    rw [hwaiters] at hw
    obtain rfl := List.mem_singleton.mp hw
    rfl
  · intro j hj hc
    obtain rfl := Option.some.inj (hk.symm.trans hj)
    exact absurd hconnected hc
  · have horder := h.order
    rw [hnobody, List.map_nil, List.append_nil] at horder
    rw [hwaiters]
    change s.settled.map _ ++ [s.commands] = List.range (s.commands + 1)
    rw [horder, List.range_succ]

/-- Nobody waits for a socket before `AUTH` is written to it. -/
theorem Sound.nobody {k : ℕ} {s : RespConnection} (h : Sound s) (hk : s.connecting = some k)
    (hauth : ∀ w ∈ s.waiters, s.auth ≠ some w.id) : s.waiters = [] := by
  refine List.eq_nil_iff_forall_not_mem.mpr fun w hw => hauth w hw ?_
  exact h.auth (by rw [hk]; rfl) w hw

theorem Sound.onConnect {o : ConnectionOptions} {k : ℕ} {s : RespConnection} (h : Sound s) :
    Sound (s.onConnect o k) := by
  unfold RespConnection.onConnect
  split_ifs with hk hpassword
  · obtain ⟨hconnecting, hdestroyed, hconnected⟩ := hk
    have hnobody := h.nobody hconnecting fun w _ => by
      rw [h.fresh k hconnecting hconnected]
      exact Option.some_ne_none _ ∘ Eq.symm
    exact (h.opened k).writeAuth hconnecting List.mem_cons_self hdestroyed hnobody
  · exact (h.opened k).establish hk.1
  · exact h

theorem Sound.onAuthorized {k : ℕ} {s : RespConnection} (h : Sound s) : Sound (s.onAuthorized k) := by
  unfold RespConnection.onAuthorized
  cases hauth : s.auth with
  | none => exact h
  | some auth =>
    dsimp only
    split_ifs with hk hok
    · exact h.establish hk.1
    · have hnobody := h.nobody hk.1 fun w hw hid => by
        rw [hauth] at hid
        exact hk.2 w hw (Option.some.inj hid).symm
      exact h.settles ((Settles.destroy [] k hnobody).trans (.giveUp [] List.mem_cons_self))
    · exact h

/-- A new socket when no other can be used. -/
theorem Sound.connect {s : RespConnection} (h : Sound s) : Sound s.connect := by
  unfold RespConnection.connect
  split_ifs with hbusy
  · exact h
  · obtain ⟨hconnecting, hsocket⟩ := not_or.mp hbusy
    have hdead : ∀ k, ¬s.Alive k := by
      intro k hk
      rcases h.alive k hk with hs | hc
      · exact hsocket ⟨k, hs, hk.2⟩
      · exact hconnecting (by rw [hc]; rfl)
    have hnobody : s.waiters = [] :=
      List.eq_nil_iff_forall_not_mem.mpr fun w hw => hdead w.socket (h.queued w hw)
    refine ⟨?_, ?_, ?_, ?_, ?_, ?_, ?_, ?_, h.order⟩
    · rintro k ⟨hk, hd⟩
      right
      have hlast : ¬k < s.sockets := fun hlt => hdead k ⟨hlt, hd⟩
      exact congrArg some (Nat.le_antisymm (not_lt.mp hlast) (Nat.lt_succ_iff.mp hk))
    · intro k hs hd
      exact absurd ⟨k, hs, hd⟩ hsocket
    · exact fun k hk _ => hk
    · rintro k (hk | hk)
      · exact Nat.lt_succ_of_lt (h.created k (.inl hk))
      · obtain rfl := Option.some.inj hk
        exact Nat.lt_succ_self _
    · intro w hw
      change w ∈ s.waiters at hw
      rw [hnobody] at hw
      cases hw
    · intro _ w hw
      change w ∈ s.waiters at hw
      rw [hnobody] at hw
      cases hw
    · intro k _ c hc
      cases hc
    · exact fun _ _ _ => rfl

theorem Sound.received {k : ℕ} {s : RespConnection} (h : Sound s) (hk : s.Alive k) (chunk : Bytes) :
    Sound (s.received k chunk) := by
  refine ⟨h.alive, h.single, h.pending, h.created, h.queued, h.auth, ?_, h.fresh, h.order⟩
  intro j hj c hc
  rcases List.mem_append.mp hc with hc | hc
  · exact h.sources j hj c hc
  · rw [List.mem_singleton.mp hc]
    exact h.unique hk hj

/-- Bytes of a socket settle with bytes of the socket. -/
theorem Settles.onData {o : ConnectionOptions} {k : ℕ} {chunk : Bytes} {s : RespConnection}
    (hk : s.Alive k ∧ k ∈ s.connected) :
    Settles (s.sources ++ [k]) (s.received k chunk) (s.onData o k chunk) := by
  rw [RespConnection.onData, if_pos hk]
  dsimp only
  split_ifs
  · exact ((Settles.fail _ _ (s.received k chunk)).trans (.clearBuffer _ _)).trans (.destroy _ k rfl)
  · exact .drain o.toOptions (s.received k chunk)

theorem Sound.step {o : ConnectionOptions} {s : RespConnection} (h : Sound s) (e : Callback) :
    Sound (s.step o e) := by
  cases e with
  | connect => exact h.connect
  | onConnect k => exact h.onConnect
  | onAuthorized k => exact h.onAuthorized
  | command => exact h.command
  | data k chunk =>
    by_cases hk : s.Alive k ∧ k ∈ s.connected
    · exact (h.received hk.1 chunk).settles (.onData hk)
    · have hstep : s.step o (.data k chunk) = s := if_neg hk
      rwa [hstep]
  | error k => exact h.settles (.onError k s)
  | close k => exact h.settles (.onClose k s)
  | writeError k => exact h.settles (.onWriteError k s)
  | timeout k =>
    by_cases hk : s.Alive k
    · have hstep : s.step o (.timeout k) = s.onError k := if_pos hk
      rw [hstep]
      exact h.settles (.onError k s)
    · have hstep : s.step o (.timeout k) = s := if_neg hk
      rwa [hstep]
  | poison => exact h.settles (.poison .connection [] s)

/-! ## Whose bytes and events -/

/-- Every waiter was settled by its own socket, or by the caller. -/
def Own (s : RespConnection) : Prop := ∀ x ∈ s.settled, ∀ c ∈ x.causes, c = x.waiter.socket

/-- An event of a socket that no waiter is for any more. -/
def Late (s : RespConnection) : Callback → Prop
  | .error k | .close k | .writeError k => ∃ w ∈ s.waiters, w.socket ≠ k
  | _ => False

theorem Settles.own {causes : List ℕ} {s t : RespConnection} (h : Settles causes s t)
    (hown : ∀ w ∈ s.waiters, ∀ c ∈ causes, c = w.socket) : Own t ↔ Own s := by
  obtain ⟨answered, hwaiters, hsettled⟩ := h.waiters
  unfold Own
  rw [hsettled]
  constructor
  · exact fun ht x hx => ht x (List.mem_append_left _ hx)
  · intro hs x hx
    rcases List.mem_append.mp hx with hx | hx
    · exact hs x hx
    · obtain ⟨a, ha, rfl⟩ := List.mem_map.mp hx
      refine hown a.1 ?_
      rw [hwaiters]
      exact List.mem_append_left _ (List.mem_map_of_mem ha)

/-- A handler that settles all waiters settles those of other sockets too. -/
theorem Settles.own_iff {k : ℕ} {s t : RespConnection} (h : Settles [k] s t) (ht : t.waiters = []) :
    Own t ↔ Own s ∧ ¬∃ w ∈ s.waiters, w.socket ≠ k := by
  obtain ⟨answered, hwaiters, hsettled⟩ := h.waiters
  rw [ht, List.append_nil] at hwaiters
  constructor
  · intro hown
    refine ⟨fun x hx => hown x (by rw [hsettled]; exact List.mem_append_left _ hx), ?_⟩
    rintro ⟨w, hw, hne⟩
    rw [hwaiters] at hw
    obtain ⟨a, ha, rfl⟩ := List.mem_map.mp hw
    have hx : (⟨a.1, a.2, [k]⟩ : Settlement) ∈ t.settled := by
      rw [hsettled]
      exact List.mem_append_right _ (List.mem_map_of_mem ha)
    exact hne (hown _ hx k List.mem_cons_self).symm
  · rintro ⟨hown, hnone⟩
    refine (h.own ?_).mpr hown
    intro w hw c hc
    rw [List.mem_singleton.mp hc]
    by_contra hne
    exact hnone ⟨w, hw, Ne.symm hne⟩

theorem onError_waiters (k : ℕ) (s : RespConnection) : (s.onError k).waiters = [] := by
  unfold onError
  split_ifs <;> rfl

theorem giveUp_waiters (k : ℕ) (s : RespConnection) : (s.giveUp k).waiters = s.waiters := by
  unfold giveUp
  split_ifs <;> rfl

theorem release_waiters (k : ℕ) (s : RespConnection) : (s.release k).waiters = s.waiters := by
  unfold release
  split_ifs <;> rfl

theorem onClose_waiters (k : ℕ) (s : RespConnection) : (s.onClose k).waiters = [] := by
  unfold onClose
  dsimp only
  split_ifs
  · exact (release_waiters k _).trans (giveUp_waiters k _)
  · exact release_waiters k _

theorem connect_settled (s : RespConnection) : s.connect.settled = s.settled := by
  unfold connect
  split_ifs <;> rfl

theorem onConnect_settled (o : ConnectionOptions) (k : ℕ) (s : RespConnection) :
    (s.onConnect o k).settled = s.settled := by
  unfold onConnect
  split_ifs <;> rfl

theorem onAuthorized_settled (k : ℕ) (s : RespConnection) :
    (s.onAuthorized k).settled = s.settled := by
  unfold onAuthorized giveUp
  cases s.auth with
  | none => rfl
  | some auth =>
    dsimp only
    split_ifs <;> rfl

theorem command_settled (s : RespConnection) : s.command.settled = s.settled := by
  unfold command
  cases s.socket with
  | none => rfl
  | some k =>
    dsimp only
    split_ifs <;> rfl

/-- What a step adds is by the socket of the waiter, unless the event is of another socket. -/
theorem own_step {o : ConnectionOptions} {s : RespConnection} (h : Sound s) (e : Callback) :
    Own (s.step o e) ↔ Own s ∧ ¬Late s e := by
  have hsame : ∀ {t : RespConnection}, t.settled = s.settled → (Own t ↔ Own s ∧ ¬False) := by
    intro t ht
    rw [Own, ht, not_false_iff, and_true]
    rfl
  cases e with
  | connect => exact hsame (connect_settled s)
  | onConnect k => exact hsame (onConnect_settled o k s)
  | onAuthorized k => exact hsame (onAuthorized_settled k s)
  | command => exact hsame (command_settled s)
  | data k chunk =>
    by_cases hk : s.Alive k ∧ k ∈ s.connected
    · have hreceived := h.received hk.1 chunk
      rw [show (¬Late s (.data k chunk)) = True from not_false_eq_true, and_true]
      refine (Settles.onData hk).own ?_
      -- the bytes of the buffer and the waiters are of the one socket there is
      intro w hw c hc
      exact hreceived.sources w.socket (hreceived.queued w hw) c hc
    · exact hsame (congrArg settled (if_neg hk))
  | error k => exact (Settles.onError k s).own_iff (onError_waiters k s)
  | close k => exact (Settles.onClose k s).own_iff (onClose_waiters k s)
  | writeError k => exact (Settles.onWriteError k s).own_iff rfl
  | timeout k =>
    by_cases hk : s.Alive k
    · have hstep : s.step o (.timeout k) = s.onError k := if_pos hk
      rw [hstep, show (¬Late s (.timeout k)) = True from not_false_eq_true, and_true]
      refine (Settles.onError k s).own fun w hw c hc => ?_
      rw [List.mem_singleton.mp hc]
      exact h.unique hk (h.queued w hw)
    · exact hsame (congrArg settled (if_neg hk))
  | poison =>
    rw [show (¬Late s .poison) = True from not_false_eq_true, and_true]
    refine (Settles.poison .connection [] s).own fun w _ c hc => ?_
    cases hc

/-! ## Runs -/

/-- The callbacks of a program one after the other. -/
def run (o : ConnectionOptions) (events : List Callback) (s : RespConnection) : RespConnection :=
  events.foldl (step o) s

/-- No error, close or failed write of a socket comes while a command to another one waits. -/
def Timely (o : ConnectionOptions) : RespConnection → List Callback → Prop
  | _, [] => True
  | s, e :: events => ¬Late s e ∧ Timely o (s.step o e) events

theorem Sound.run {o : ConnectionOptions} {s : RespConnection} (h : Sound s)
    (events : List Callback) : Sound (s.run o events) := by
  induction events generalizing s with
  | nil => exact h
  | cons e events ih => exact ih (h.step e)

theorem own_run {o : ConnectionOptions} {s : RespConnection} (h : Sound s) (events : List Callback) :
    Own (s.run o events) ↔ Own s ∧ Timely o s events := by
  induction events generalizing s with
  | nil => exact (and_iff_left trivial).symm
  | cons e events ih =>
    refine (ih (h.step e)).trans ?_
    rw [own_step h e, Timely, and_assoc]

theorem run_midway {o : ConnectionOptions} {k : ℕ} {chunks : List Bytes}
    {settled : List (Waiter × Outcome)} {s : RespConnection}
    (h : Midway o.toOptions k chunks.flatten settled s) :
    (s.run o (chunks.map (.data k))).waiters = [] ∧
      (s.run o (chunks.map (.data k))).outcomes = settled := by
  induction chunks generalizing s with
  | nil => exact h.finished
  | cons chunk chunks ih =>
    rw [List.flatten_cons] at h
    exact ih (onData_midway h)

/-- A stream of replies that answers the waiters in order settles them as it does in one event,
however it is cut. -/
theorem run_stream {o : ConnectionOptions} {k : ℕ} {s : RespConnection} {replies : List Reply}
    (hk : s.Alive k ∧ k ∈ s.connected) (hbuffer : s.buffer = [])
    (hlen : replies.length = s.waiters.length) (hwithin : WithinLimits o.toOptions replies)
    {chunks : List Bytes} (hchunks : chunks.flatten = encodeItems replies) :
    (s.run o (chunks.map (.data k))).waiters = [] ∧
      (s.run o (chunks.map (.data k))).outcomes = s.outcomes ++ s.waiters.zip (answers replies) := by
  refine run_midway (.inr ⟨hk, ?_, replies, hlen, hwithin, ?_, rfl⟩)
  · rw [hbuffer]
    exact .inr rfl
  · rw [hbuffer, List.nil_append, hchunks]

end RespConnection

open RespConnection

/-- What `parse` makes of the first bytes of a stream. -/
theorem parseReply_first {o : Options} {r : Reply} (h : Within o o.maxResponseDepth r)
    (hsize : r.encode.length ≤ o.maxResponseBytes) {b x rest : Bytes} (hb : b ++ x = r.encode ++ rest) :
    (parseReply o b = .ok none → b.length < r.encode.length) ∧
    (b.length < r.encode.length →
      parseReply o b = .ok none ∨ ∃ e, ∀ y, parseReply o (b ++ y) = .error e) := by
  obtain ⟨hwhole, hpart⟩ := parseReply_whole h hsize hb
  constructor
  · intro hnone
    by_contra hge
    rw [hwhole (not_lt.mp hge)] at hnone
    rcases verdict_cases r r.encode.length with ⟨result, hv⟩ | ⟨e, hv⟩
    all_goals
      rw [hv] at hnone
      cases hnone
  · intro hlt
    refine (hpart hlt).imp_right ?_
    rintro ⟨e, herror, -⟩
    refine ⟨e, fun y => ?_⟩
    refine (parse_stable o 0 (o.maxResponseDepth + 1) 0 b y fun hnone => ?_).trans herror
    cases herror.symm.trans hnone

/-- The waiters of a connection over any run: they are settled once and in order, and a stream of
replies is read alike however it is cut; they are settled by their own socket if and only if the
events of other sockets come in time. -/
theorem waiters_settled (o : ConnectionOptions) (events : List Callback) :
    (((init.run o events).settled.map (·.waiter) ++ (init.run o events).waiters).map (·.id) =
      List.range (init.run o events).commands) ∧
    (∀ (k : ℕ) (replies : List Reply) (chunks : List Bytes),
      (init.run o events).Alive k ∧ k ∈ (init.run o events).connected →
      (init.run o events).buffer = [] → replies.length = (init.run o events).waiters.length →
      WithinLimits o.toOptions replies → chunks.flatten = encodeItems replies →
        ((init.run o events).run o (chunks.map (.data k))).waiters = [] ∧
        ((init.run o events).run o (chunks.map (.data k))).outcomes =
          ((init.run o events).run o [.data k (encodeItems replies)]).outcomes ∧
        ((init.run o events).run o (chunks.map (.data k))).outcomes.map Prod.fst =
          (init.run o events).outcomes.map Prod.fst ++ (init.run o events).waiters) ∧
    (∀ (r : Reply) (b x rest : Bytes), Within o.toOptions o.maxResponseDepth r →
      r.encode.length ≤ o.maxResponseBytes → b ++ x = r.encode ++ rest →
        (parseReply o.toOptions b = .ok none → b.length < r.encode.length) ∧
        (b.length < r.encode.length → parseReply o.toOptions b = .ok none ∨
          ∃ e, ∀ y, parseReply o.toOptions (b ++ y) = .error e)) ∧
    ((∀ x ∈ (init.run o events).settled, ∀ c ∈ x.causes, c = x.waiter.socket) ↔
      Timely o init events) := by
  have hsound := Sound.init.run (o := o) events
  refine ⟨?_, ?_, fun r b x rest h hsize hb => parseReply_first h hsize hb, ?_⟩
  · rw [List.map_append, List.map_map]
    exact hsound.order
  · intro k replies chunks hk hbuffer hlen hwithin hchunks
    obtain ⟨hnobody, hcut⟩ := run_stream hk hbuffer hlen hwithin hchunks
    have hone := (@run_stream o k _ replies hk hbuffer hlen hwithin [encodeItems replies]
      (List.append_nil _)).2
    refine ⟨hnobody, hcut.trans hone.symm, ?_⟩
    rw [hcut, List.map_append, List.map_fst_zip]
    rw [answers_length, hlen]
  · have hown : Own init := by
      intro x hx
      cases hx
    exact (own_run Sound.init events).trans (and_iff_right hown)

/-- Two commands whose replies come in pieces. -/
theorem two_waiters_settled :
    ((init.run ⟨⟨64, 64, 8, 4⟩, false⟩ [.connect, .onConnect 0, .command, .command]).run
        ⟨⟨64, 64, 8, 4⟩, false⟩ [.data 0 [43, 79], .data 0 [75, 13, 10, 42], .data 0 [45, 49, 13],
          .data 0 [10]]).outcomes.map Prod.fst = [⟨0, 0⟩, ⟨1, 0⟩] ∧
      Timely ⟨⟨64, 64, 8, 4⟩, false⟩ init [.connect, .onConnect 0, .command, .command] := by
  have h := waiters_settled ⟨⟨64, 64, 8, 4⟩, false⟩ [.connect, .onConnect 0, .command, .command]
  refine ⟨(h.2.1 0 [.simple [79, 75], .nullArray] [[43, 79], [75, 13, 10, 42], [45, 49, 13], [10]]
    (by decide) rfl rfl ?_ rfl).2.2, h.2.2.2.mp ?_⟩
  · intro r hr
    rcases List.mem_pair.mp hr with rfl | rfl
    · exact ⟨.simple (by decide), by decide⟩
    · exact ⟨.nullArray, by decide⟩
  · intro x hx
    cases hx

/-- The `close` event of a socket that timed out settles the command written to the next one. -/
theorem late_close_settles :
    ¬∀ x ∈ (init.run ⟨⟨64, 64, 8, 4⟩, false⟩ [.connect, .onConnect 0, .timeout 0, .connect,
      .onConnect 1, .command, .close 0]).settled, ∀ c ∈ x.causes, c = x.waiter.socket := by
  decide

end MegaCache.Resp.Node
