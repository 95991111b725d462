import MegaCache.Sdk.Coherence
import MegaCache.Sdk.NodeClient

/-!
# Coherence of the local cache of the Node client

The argument is that of the Python client, about the latest step at which a mutation took effect
that the client has seen: every local entry is at least that recent, and so is every leased value
whose generation is still the current one.  A value that `getOrLoad` has written itself is
admitted under the generation that is current later, behind the `await` of `put`.  It is recent
enough if no answer that was processed in between reports a later mutation.
-/

namespace MegaCache.Sdk.Node

open Prog

variable {V : Type} {c : ClientConfig V}

namespace Client

variable {s s' : Client V} {floor floor' : ℕ} {t u : Thread}

/-- Nothing obtained at the step `obtained` and returned by a call started at `started` is older
than a mutation that was seen before: one of the client that has returned, or one of others that
a processed answer reports. -/
def Covers (s : Client V) (started obtained : ℕ) : Prop :=
  (∀ m ∈ s.completed, m.reply.changed = true → m.returnedAt < started →
    m.tookEffectAt ≤ obtained) ∧
  ∀ p ∈ s.polls, p.processedAt < started → ∀ m ∈ s.foreign, m.cursor ≤ p.generation →
    m.tookEffectAt ≤ obtained

/-- A running call that is past its poll; its stale value, if it came from the local cache, is
recent enough. -/
def HeldOk (s : Client V) (load : Load) (stale : Option (Held V)) : Prop :=
  load.startedAt ≤ s.steps ∧ s.cursor ≠ none ∧
    ∀ held ∈ stale, ∀ obtained, held.obtainedAt = some obtained → Covers s load.startedAt obtained

def TaskOk (s : Client V) : Task V → Prop
  | .call _ => True
  | .store lead _ _ _ => HeldOk s lead.load lead.stale

/-- The step at which the server stored a value that is still to be admitted. -/
def pendingStore : Pc V → Option ℕ
  | .replied (.store _ _ _ _) (.ok _) ranAt => some ranAt
  | .returning (.store _ _ _ _) _ ranAt => some ranAt
  | _ => none

theorem pendingStore_replied {task : Task V} {reply : Except PyError Reply} {ranAt r : ℕ}
    (h : pendingStore (.replied task reply ranAt) = some r) : r = ranAt := by
  cases task <;> cases reply <;> simp [pendingStore] at h
  exact h.symm

/-- What holds of a call at `pc` when the mutations seen took effect at the step `floor` at the
latest. -/
def PcOk (floor : ℕ) (s : Client V) (t : Thread) : Pc V → Prop
  | .idle => True
  | .queued task => TaskOk s task
  | .sending task => TaskOk s task ∧ s.mutationQueue = some t
  | .replied task reply ranAt =>
    TaskOk s task ∧ s.mutationQueue = some t ∧ ranAt ≤ s.steps ∧
      ∀ r, pendingStore (.replied task reply ranAt) = some r → floor ≤ r
  | .returning task reply ranAt =>
    TaskOk s task ∧ s.mutationQueue = some t ∧ (reply.changed = true → ranAt ≤ floor) ∧
      ∀ r, pendingStore (.returning task reply ranAt) = some r → floor ≤ r
  | .asking load => ∀ l ∈ load, l.startedAt ≤ s.steps
  | .polled load document =>
    (∀ l ∈ load, l.startedAt ≤ s.steps) ∧ document.epoch ≠ none ∧
      ∃ g, document.generation = some g ∧ g ≤ s.server.invalidationCursor
  | .looking load | .waiting load _ => HeldOk s load none
  | .leasing lead expected _ => HeldOk s lead.load lead.stale ∧ expected ≤ s.generation
  | .leased lead expected _ _ ranAt =>
    HeldOk s lead.load lead.stale ∧ expected ≤ s.generation ∧
      (expected = s.generation → floor ≤ ranAt)
  | .sleeping lead | .loading lead _ | .failing lead _ => HeldOk s lead.load lead.stale
  | .consuming lead _ obtained =>
    HeldOk s lead.load none ∧ ∀ o, obtained = some o → Covers s lead.load.startedAt o

/-- The invariant of all interleavings. -/
structure Inv (floor : ℕ) (s : Client V) : Prop where
  floor_le : floor ≤ s.steps
  completed : ∀ m ∈ s.completed, m.reply.changed = true → m.tookEffectAt ≤ floor
  polled : ∀ p ∈ s.polls, p.generation ≤ s.server.invalidationCursor ∧
    ∀ m ∈ s.foreign, m.cursor ≤ p.generation → m.tookEffectAt ≤ floor
  current : ∀ g, s.cursorGeneration = some g → g ≤ s.server.invalidationCursor ∧
    ∀ m ∈ s.foreign, m.cursor ≤ g → m.tookEffectAt ≤ floor
  foreign : ∀ m ∈ s.foreign, m.tookEffectAt ≤ s.steps
  first : s.cursor = none → ∀ key, ¬s.localCache.Holds key
  entries : ∀ key, s.localCache.Holds key → floor ≤ s.obtainedAt key
  served : ∀ r ∈ s.served, r.startedAt ≤ s.steps ∧ Covers s r.startedAt r.obtainedAt
  calls : ∀ t, PcOk floor s t (s.calls t)

theorem Inv.init : Inv 0 (init : Client V) where
  floor_le := le_rfl
  completed _ h := absurd h List.not_mem_nil
  polled _ h := absurd h List.not_mem_nil
  current g h := by cases h
  foreign _ h := absurd h List.not_mem_nil
  first _ _ := LocalCache.not_holds_init
  entries _ h := absurd h LocalCache.not_holds_init
  served _ h := absurd h List.not_mem_nil
  calls _ := trivial

/-! ## What other calls may do -/

/-- What a call relies on later: what is seen later does not concern a call that has started. -/
structure Extends (s s' : Client V) : Prop where
  steps : s.steps ≤ s'.steps
  server : s.server.invalidationCursor ≤ s'.server.invalidationCursor
  cursor : s.cursor ≠ none → s'.cursor ≠ none
  covers : ∀ started obtained, started ≤ s.steps → Covers s started obtained →
    Covers s' started obtained

theorem HeldOk.mono {load : Load} {stale : Option (Held V)} (h : HeldOk s load stale)
    (he : Extends s s') : HeldOk s' load stale :=
  ⟨h.1.trans he.steps, he.cursor h.2.1, fun held hh o ho => he.covers _ _ h.1 (h.2.2 held hh o ho)⟩

theorem TaskOk.mono {task : Task V} (h : TaskOk s task) (he : Extends s s') : TaskOk s' task := by
  cases task with
  | call => trivial
  | store => exact HeldOk.mono h he

theorem HeldOk.plain {load : Load} {stale : Option (Held V)} (h : HeldOk s load stale) :
    HeldOk s load none :=
  ⟨h.1, h.2.1, fun held hh => by cases hh⟩

/-- What happens to the floor: it stays under the same generation, or the generation grows, or
no call is past its first poll. -/
def Advances (floor floor' : ℕ) (s s' : Client V) : Prop :=
  floor' = floor ∧ s'.generation = s.generation ∨ s.generation < s'.generation ∨
    s.cursor = none ∧ s'.generation = s.generation

theorem PcOk.mono {pc : Pc V} (h : PcOk floor s u pc) (he : Extends s s')
    (hlock : s.mutationQueue = some u → s'.mutationQueue = some u) (hle : floor ≤ floor')
    (ha : Advances floor floor' s s')
    (hp : ∀ r, pendingStore pc = some r → floor ≤ r → floor' ≤ r) : PcOk floor' s' u pc := by
  have hgen : s.generation ≤ s'.generation := by
    rcases ha with ⟨-, hsame⟩ | hlt | ⟨-, hsame⟩ <;> omega
  cases pc with
  | idle => trivial
  | queued task => exact TaskOk.mono h he
  | sending task => exact ⟨h.1.mono he, hlock h.2⟩
  | replied task reply ranAt =>
    obtain ⟨htask, hl, hsteps, hpending⟩ := h
    exact ⟨htask.mono he, hlock hl, hsteps.trans he.steps, fun r hr => hp r hr (hpending r hr)⟩
  | returning task reply ranAt =>
    obtain ⟨htask, hl, hchanged, hpending⟩ := h
    exact ⟨htask.mono he, hlock hl, fun hc => (hchanged hc).trans hle,
      fun r hr => hp r hr (hpending r hr)⟩
  | asking load => exact fun l hl => (h l hl).trans he.steps
  | polled load document =>
    obtain ⟨hload, hepoch, g, hg, hle⟩ := h
    exact ⟨fun l hl => (hload l hl).trans he.steps, hepoch, g, hg, hle.trans he.server⟩
  | looking | waiting | sleeping | loading | failing => exact HeldOk.mono h he
  | leasing lead expected started => exact ⟨h.1.mono he, h.2.trans hgen⟩
  | leased lead expected started result ranAt =>
    obtain ⟨hlead, hexpected, hf⟩ := h
    refine ⟨hlead.mono he, hexpected.trans hgen, fun heq => ?_⟩
    rcases ha with ⟨rfl, hsame⟩ | hlt | ⟨hnone, -⟩
    · exact hf (by omega)
    · omega
    · exact absurd hnone hlead.2.1
  | consuming lead result obtained =>
    exact ⟨h.1.mono he, fun o ho => he.covers _ _ h.1.1 (h.2 o ho)⟩

/-! ## Steps -/

/-- A step of the call `t` and what the other calls see of it. -/
structure Progress (floor floor' : ℕ) (s s' : Client V) (t : Thread) (pc : Pc V) : Prop where
  calls : s'.calls = Function.update s.calls t pc
  floor_le : floor ≤ floor'
  extends_ : Extends s s'
  lock : ∀ u ≠ t, s.mutationQueue = some u → s'.mutationQueue = some u
  advances : Advances floor floor' s s'
  pending : ∀ u ≠ t, ∀ r, pendingStore (s.calls u) = some r → floor ≤ r → floor' ≤ r

theorem Progress.pcOk {pc : Pc V} (h : Progress floor floor' s s' t pc)
    (hcalls : ∀ u, PcOk floor s u (s.calls u)) (hpc : PcOk floor' s' t pc) (u : Thread) :
    PcOk floor' s' u (s'.calls u) := by
  rw [h.calls]
  by_cases hu : u = t
  · subst hu
    rw [Function.update_self]
    exact hpc
  · rw [Function.update_of_ne hu]
    exact (hcalls u).mono h.extends_ (h.lock u hu) h.floor_le h.advances (h.pending u hu)

/-- The state after a step. -/
def counted (s s' : Client V) : Client V := { s' with steps := s.steps + 1 }

/-- A step that counts no mutation and reads no answer of others. -/
structure Calm (s s' : Client V) : Prop where
  steps : s.steps ≤ s'.steps
  server : s.server.invalidationCursor ≤ s'.server.invalidationCursor
  cursor : s'.cursor = s.cursor
  cursorGeneration : s'.cursorGeneration = s.cursorGeneration
  generation : s'.generation = s.generation
  polls : s'.polls = s.polls
  foreign : s'.foreign = s.foreign

/-- What is added to the completed mutations returns now. -/
def Adds (floor : ℕ) (s s' : Client V) : Prop :=
  ∀ m ∈ s'.completed, m ∈ s.completed ∨
    s.steps ≤ m.returnedAt ∧ (m.reply.changed = true → m.tookEffectAt ≤ floor)

theorem Calm.extends (h : Calm s s') (ha : Adds floor s s') : Extends s s' := by
  refine ⟨h.steps, h.server, fun hc => h.cursor ▸ hc, fun started obtained hle hcov => ⟨?_, ?_⟩⟩
  · intro m hm hchanged hlt
    rcases ha m hm with hold | ⟨hnow, -⟩
    · exact hcov.1 m hold hchanged hlt
    · omega
  · rw [h.polls, h.foreign]
    exact hcov.2

theorem Inv.calm (h : Inv floor s) {pc : Pc V} (hc : Calm s s')
    (ht : s'.calls = Function.update s.calls t pc) (hadds : Adds floor s s')
    (hserved : ∀ r ∈ s'.served, r ∈ s.served ∨
      r.startedAt ≤ s'.steps ∧ Covers s' r.startedAt r.obtainedAt)
    (hentries : ∀ key, s'.localCache.Holds key →
      (s.localCache.Holds key ∨ s.cursor ≠ none) ∧ floor ≤ s'.obtainedAt key)
    (hlock : ∀ u ≠ t, s.mutationQueue = some u → s'.mutationQueue = some u)
    (hpc : PcOk floor s' t pc) : Inv floor s' where
  floor_le := h.floor_le.trans hc.steps
  completed m hm hchanged := by
    rcases hadds m hm with hold | ⟨-, hle⟩
    · exact h.completed m hold hchanged
    · exact hle hchanged
  polled p hp := by
    obtain ⟨hle, hcover⟩ := h.polled p (hc.polls ▸ hp)
    exact ⟨hle.trans hc.server, fun m hm => hcover m (hc.foreign ▸ hm)⟩
  current g hg := by
    obtain ⟨hle, hcover⟩ := h.current g (hc.cursorGeneration ▸ hg)
    exact ⟨hle.trans hc.server, fun m hm => hcover m (hc.foreign ▸ hm)⟩
  foreign m hm := (h.foreign m (hc.foreign ▸ hm)).trans hc.steps
  first hnone key hk := by
    rw [hc.cursor] at hnone
    rcases (hentries key hk).1 with hold | hsome
    · exact h.first hnone key hold
    · exact hsome hnone
  entries key hk := (hentries key hk).2
  served r hr := by
    rcases hserved r hr with hold | hnew
    · obtain ⟨hle, hcov⟩ := h.served r hold
      exact ⟨hle.trans hc.steps, (hc.extends hadds).covers _ _ hle hcov⟩
    · exact hnew
  calls :=
    (Progress.mk ht le_rfl (hc.extends hadds) hlock (.inl ⟨rfl, hc.generation⟩)
      (fun _ _ _ _ hle => hle)).pcOk h.calls hpc

/-- A calm step that at most takes entries out of the local cache. -/
structure Quiet (s s' : Client V) : Prop extends Calm s s' where
  completed : s'.completed = s.completed
  served : s'.served = s.served
  obtainedAt : s'.obtainedAt = s.obtainedAt
  entries : ∀ key, s'.localCache.Holds key → s.localCache.Holds key

theorem Quiet.refl (s : Client V) : Quiet s s :=
  ⟨⟨le_rfl, le_rfl, rfl, rfl, rfl, rfl, rfl⟩, rfl, rfl, rfl, fun _ h => h⟩

theorem Quiet.adds (h : Quiet s s') : Adds floor s s' := fun _ hm => .inl (h.completed ▸ hm)

theorem Quiet.extends (h : Quiet s s') : Extends s s' := h.toCalm.extends (h.adds : Adds 0 s s')

theorem Inv.quiet (h : Inv floor s) {pc : Pc V} (hq : Quiet s s')
    (ht : s'.calls = Function.update s.calls t pc)
    (hlock : ∀ u ≠ t, s.mutationQueue = some u → s'.mutationQueue = some u)
    (hpc : PcOk floor s' t pc) : Inv floor s' := by
  refine h.calm hq.toCalm ht hq.adds (fun r hr => .inl (hq.served ▸ hr)) ?_ hlock hpc
  intro key hk
  have hold := hq.entries key hk
  refine ⟨.inl hold, ?_⟩
  rw [hq.obtainedAt]
  exact h.entries key hold

theorem Quiet.counted {s₁ : Client V} (hq : Quiet s s₁) (t : Thread) (pc : Pc V) :
    Quiet s (counted s (s₁.goto t pc)) :=
  ⟨⟨Nat.le_succ _, hq.server, hq.cursor, hq.cursorGeneration, hq.generation, hq.polls, hq.foreign⟩,
    hq.completed, hq.served, hq.obtainedAt, hq.entries⟩

/-- A step to a new place that leaves the queue as it is. -/
theorem Inv.goto {s₁ : Client V} {pc : Pc V} (h : Inv floor s) (hq : Quiet s s₁)
    (ht : s₁.calls = s.calls) (hqueue : s₁.mutationQueue = s.mutationQueue)
    (hpc : PcOk floor (counted s (s₁.goto t pc)) t pc) :
    Inv floor (counted s (s₁.goto t pc)) := by
  refine h.quiet (hq.counted t pc) ?_ ?_ hpc
  · simp only [counted, Client.goto, ht]
  · intro u _ hu
    exact hqueue.trans hu

/-- No other call waits for the lock that `t` gives back. -/
theorem other_lock (hl : s.mutationQueue = some t) :
    ∀ u ≠ t, s.mutationQueue = some u → s'.mutationQueue = some u := by
  intro u hu hsome
  rw [hl] at hsome
  exact absurd (Option.some.inj hsome).symm hu

/-! ## The invalidation cursor of the server -/

/-- The cursor of the server never goes back over a command. -/
def Forward (t t' : MutationClock V) : Prop := t.invalidationCursor ≤ t'.invalidationCursor

instance : Std.Refl (Forward (V := V)) := ⟨fun _ => le_rfl⟩

instance : IsTrans (MutationClock V) Forward := ⟨fun _ _ _ h h' => Nat.le_trans h h'⟩

theorem forward_counting {α : Type} (counts : α → Bool) (m : EngineM V α) :
    Rel Forward (MutationClock.counting counts m) := by
  intro t
  change t.generation ≤ (MutationClock.counting counts m t).2.generation
  rw [MutationClock.counting_run]
  rcases m t.storage with ⟨e | a, s⟩
  · exact le_rfl
  · dsimp only
    split <;> omega

/-- A handler that checks its arguments, runs one counted call and answers. -/
theorem forward_answered {α : Type} (counts : α → Bool) (m : EngineM V α) (answer : α → Reply) :
    Rel Forward (MutationClock.counting counts m >>= fun a => pure (answer a)) :=
  Rel.bind (forward_counting counts m) fun _ => Rel.pure _

theorem forward_serve (c : EngineConfig V) (m : Mutation V) : Rel Forward (m.serve c) := by
  cases m with
  | set key value expireSeconds =>
    cases expireSeconds with
    | none => exact forward_answered _ _ fun _ => .ok
    | some ttl =>
      exact Rel.ite (fun _ => Rel.bind (Rel.throw _) fun _ => forward_answered _ _ fun _ => .ok)
        fun _ => forward_answered _ _ fun _ => .ok
  | mset values =>
    exact Rel.ite (fun _ => Rel.bind (Rel.throw _) fun _ => forward_answered _ _ fun _ => .ok)
      fun _ => forward_answered _ _ fun _ => .ok
  | put => exact forward_answered _ _ fun _ => .ok
  | delete keys =>
    exact Rel.ite (fun _ => Rel.bind (Rel.throw _) fun _ => forward_answered _ _ Reply.integer)
      fun _ => forward_answered _ _ Reply.integer
  | expire => exact forward_answered _ _ fun b : Bool => .integer (if b then 1 else 0)
  | invalidate tags =>
    exact Rel.ite (fun _ => Rel.bind (Rel.throw _) fun _ => forward_answered _ _ Reply.integer)
      fun _ => forward_answered _ _ Reply.integer

theorem forward_lease (c : EngineConfig V) (key : Key) : Rel Forward (lease c key) :=
  Rel.bind (fun t => Nat.le_refl t.generation) fun _ => Rel.pure _

theorem quiet_command {α : Type} (wire : Wire) {m : ClockM V α} (hm : Rel Forward m) :
    Quiet s (s.command wire m).2 := by
  cases wire with
  | delivered => exact ⟨⟨le_rfl, hm _, rfl, rfl, rfl, rfl, rfl⟩, rfl, rfl, rfl, fun _ h => h⟩
  | lost ran =>
    refine ⟨⟨le_rfl, ?_, rfl, rfl, rfl, rfl, rfl⟩, rfl, rfl, rfl, fun _ h => h⟩
    cases ran with
    | false => exact le_rfl
    | true => exact hm _

theorem command_calls {α : Type} (wire : Wire) (m : ClockM V α) :
    (s.command wire m).2.calls = s.calls ∧
      (s.command wire m).2.mutationQueue = s.mutationQueue := by
  cases wire <;> exact ⟨rfl, rfl⟩

/-! ## The local cache -/

theorem Quiet.finish {s₁ : Client V} (hq : Quiet s s₁) (lead : Lead V) : Quiet s (s₁.finish lead) :=
  ⟨⟨hq.steps, hq.server, hq.cursor, hq.cursorGeneration, hq.generation, hq.polls, hq.foreign⟩,
    hq.completed, hq.served, hq.obtainedAt, hq.entries⟩

/-- The flight of a call ends; the call itself may have had the lock until then. -/
theorem Inv.finished {s₁ : Client V} {lead : Lead V} {pc : Pc V} (h : Inv floor s)
    (hq : Quiet s s₁) (ht : s₁.calls = s.calls)
    (hlock : ∀ u ≠ t, s.mutationQueue = some u → s₁.mutationQueue = some u)
    (hpc : PcOk floor (counted s ((s₁.finish lead).goto t pc)) t pc) :
    Inv floor (counted s ((s₁.finish lead).goto t pc)) := by
  refine h.quiet ((hq.finish lead).counted t pc) ?_ hlock hpc
  simp only [counted, Client.goto, Client.finish, ht]

/-- A value enters the local cache only if nothing was seen that is later than it. -/
theorem Inv.admit {s₁ : Client V} {lead : Lead V} {generation ranAt : ℕ} (h : Inv floor s)
    (hq : Quiet s s₁) (ht : s₁.calls = s.calls)
    (hlock : ∀ u ≠ t, s.mutationQueue = some u → s₁.mutationQueue = some u)
    (hlead : HeldOk s lead.load lead.stale) (hf : generation = s.generation → floor ≤ ranAt)
    (w : ℚ × ℚ) (now : ℚ) (result : CachedValue V) :
    Inv floor (counted s (admitAndReturn c t lead generation w ranAt now result s₁)) := by
  have hdone : Inv floor (counted s ((s₁.finish lead).goto t (.consuming lead result none))) := by
    refine h.finished hq ht hlock ⟨hlead.plain.mono ((hq.finish lead).counted t _).extends, ?_⟩
    intro o ho
    cases ho
  unfold admitAndReturn admitIfGeneration
  split_ifs with hw hg
  · exact hdone
  · rw [ne_eq, not_not, hq.generation] at hg
    rcases LocalCache.put_cases c.limits lead.load.key result.value w.1 w.2 now s₁.localCache with
      ⟨r, hput, hr⟩ | ⟨l, hput, hholds⟩ <;> rw [hput]
    · cases r with
      | error e =>
        have hq' := hq.counted t (.failing lead e)
        have hcalls : (counted s (s₁.goto t (.failing lead e))).calls =
            Function.update s.calls t (.failing lead e) := by
          simp only [counted, Client.goto, ht]
        exact h.quiet hq' hcalls hlock (hlead.mono hq'.extends)
      | ok b =>
        cases b with
        | false => exact hdone
        | true => exact absurd rfl hr
    · have hcalls : (counted s ((Client.finish lead { s₁ with
          localCache := l
          obtainedAt := Function.update s₁.obtainedAt lead.load.key ranAt }).goto t
            (.consuming lead result none))).calls =
          Function.update s.calls t (.consuming lead result none) := by
        simp only [counted, Client.goto, Client.finish, ht]
      have hc : Calm s (counted s ((Client.finish lead { s₁ with
          localCache := l
          obtainedAt := Function.update s₁.obtainedAt lead.load.key ranAt }).goto t
            (.consuming lead result none))) :=
        ⟨Nat.le_succ _, hq.server, hq.cursor, hq.cursorGeneration, hq.generation, hq.polls, hq.foreign⟩
      refine h.calm hc hcalls hq.adds (fun r hr => .inl (hq.served ▸ hr)) ?_ hlock ?_
      · intro key hk
        refine ⟨.inr hlead.2.1, ?_⟩
        change floor ≤ Function.update s₁.obtainedAt lead.load.key ranAt key
        by_cases hkey : key = lead.load.key
        · rw [hkey, Function.update_self]
          exact hf hg
        · rw [Function.update_of_ne hkey, hq.obtainedAt]
          rcases hholds key hk with he | he
          · exact absurd he hkey
          · exact h.entries key (hq.entries key he)
      · refine ⟨hlead.plain.mono (hc.extends (hq.adds : Adds 0 s _)), ?_⟩
        intro o ho
        cases ho
  · exact hdone

/-- The local entry of a key covers what was seen before it is read. -/
theorem Inv.covers (h : Inv floor s) {key : Key} (hk : s.localCache.Holds key) (started : ℕ) :
    Covers s started (s.obtainedAt key) :=
  ⟨fun m hm hc _ => (h.completed m hm hc).trans (h.entries key hk),
    fun p hp _ m hm hle => ((h.polled p hp).2 m hm hle).trans (h.entries key hk)⟩

/-- A value is served that covers what was seen before the call started. -/
theorem Inv.serve {s₁ : Client V} {r : Served V} (h : Inv floor s) (hq : Quiet s s₁)
    (ht : s₁.calls = s.calls) (hqueue : s₁.mutationQueue = s.mutationQueue)
    (hle : r.startedAt ≤ s.steps) (hcov : Covers s r.startedAt r.obtainedAt) :
    Inv floor (counted s { s₁.goto t .idle with served := r :: s.served }) := by
  have hc : Calm s (counted s { s₁.goto t .idle with served := r :: s.served }) :=
    ⟨Nat.le_succ _, hq.server, hq.cursor, hq.cursorGeneration, hq.generation, hq.polls, hq.foreign⟩
  have hcalls : (counted s { s₁.goto t .idle with served := r :: s.served }).calls =
      Function.update s.calls t .idle := by
    simp only [counted, Client.goto, ht]
  refine h.calm hc hcalls hq.adds ?_ ?_ (fun u _ hu => hqueue.trans hu) trivial
  · intro q hqr
    rcases List.mem_cons.mp hqr with rfl | hold
    · exact .inr ⟨hle.trans (Nat.le_succ _), (hc.extends (hq.adds : Adds 0 s _)).covers _ _ hle hcov⟩
    · exact .inl hold
  · intro key hk
    have hold := hq.entries key hk
    refine ⟨.inl hold, ?_⟩
    change floor ≤ s₁.obtainedAt key
    rw [hq.obtainedAt]
    exact h.entries key hold

theorem Inv.fly {s₁ : Client V} {load : Load} {stale : Option (Held V)} (h : Inv floor s)
    (hq : Quiet s s₁) (ht : s₁.calls = s.calls) (hqueue : s₁.mutationQueue = s.mutationQueue)
    (hload : HeldOk s load stale) (now : ℚ) :
    Inv floor (counted s (Client.fly t load stale now s₁)) := by
  unfold Client.fly startLease
  split
  · exact h.goto hq ht hqueue (hload.plain.mono (hq.counted t _).extends)
  · have hq' : Quiet s { s₁ with
        begun := s₁.begun ++ [false]
        flights := Function.update s₁.flights load.key (some s₁.begun.length) } :=
      ⟨⟨hq.steps, hq.server, hq.cursor, hq.cursorGeneration, hq.generation, hq.polls, hq.foreign⟩,
        hq.completed, hq.served, hq.obtainedAt, hq.entries⟩
    exact h.goto hq' ht hqueue ⟨hload.mono (hq'.counted t _).extends, le_rfl⟩

theorem Inv.look {load : Load} (h : Inv floor s) (hload : HeldOk s load none) (now : ℚ) :
    Inv floor (counted s (Client.look t load now s)) := by
  have hq : Quiet s { s with localCache := (s.localCache.get now load.key).2 } :=
    ⟨⟨le_rfl, le_rfl, rfl, rfl, rfl, rfl, rfl⟩, rfl, rfl, rfl, fun _ hk => LocalCache.holds_of_get hk⟩
  unfold Client.look
  dsimp only
  cases hg : (s.localCache.get now load.key).1 with
  | none => exact h.fly hq rfl rfl hload now
  | some cached =>
    have hcov := h.covers (LocalCache.get_some hg) load.startedAt
    dsimp only
    split_ifs
    · exact h.serve hq rfl rfl hload.1 hcov
    · -- a stale entry is kept for the case of an error
      refine h.fly hq rfl rfl ⟨hload.1, hload.2.1, ?_⟩ now
      intro held hh obtained ho
      obtain rfl : (⟨cached, some (s.obtainedAt load.key)⟩ : Held V) = held := by simpa using hh
      obtain rfl : s.obtainedAt load.key = obtained := by simpa using ho
      exact hcov

theorem Inv.consume {lead : Lead V} {result : CachedValue V} {obtained : Option ℕ}
    (h : Inv floor s) (hlead : HeldOk s lead.load none)
    (hcov : ∀ o, obtained = some o → Covers s lead.load.startedAt o) (now : ℚ) :
    Inv floor (counted s (Client.consume t lead result obtained now s)) := by
  unfold Client.consume
  split_ifs
  · exact h.goto (.refl s) rfl rfl trivial
  · cases obtained with
    | none => exact h.goto (.refl s) rfl rfl trivial
    | some o => exact h.serve (.refl s) rfl rfl hlead.1 (hcov o rfl)

theorem Inv.error {lead : Lead V} (h : Inv floor s) (hlead : HeldOk s lead.load lead.stale)
    (now : ℚ) : Inv floor (counted s (afterError t lead now s)) := by
  unfold afterError
  cases hu : Sdk.Client.usableStale lead now with
  | none => exact h.finished (.refl s) rfl (fun _ _ hu => hu) trivial
  | some held =>
    have hheld : lead.stale = some held := (Option.filter_eq_some_iff.mp hu).1
    have he := (((Quiet.refl s).finish lead).counted t (.consuming lead
      ⟨held.cached.value, .staleIfError, held.cached.staleDeadline⟩ held.obtainedAt)).extends
    refine h.finished (.refl s) rfl (fun _ _ hu => hu) ⟨hlead.plain.mono he, ?_⟩
    intro o ho
    exact he.covers _ _ hlead.1 (hlead.2.2 held (by rw [hheld]; rfl) o ho)

theorem Inv.leased {lead : Lead V} {expected ranAt : ℕ} (h : Inv floor s)
    (hlead : HeldOk s lead.load lead.stale) (hf : expected = s.generation → floor ≤ ranAt)
    (started : ℚ) (result : LeaseResult V) (now later : ℚ) :
    Inv floor (counted s (afterLease c t lead expected started result ranAt now later s)) := by
  have hmono : ∀ pc : Pc V, HeldOk (counted s (s.goto t pc)) lead.load lead.stale :=
    fun pc => hlead.mono ((Quiet.refl s).counted t pc).extends
  unfold afterLease
  dsimp only
  split
  · exact h.admit (.refl s) rfl (fun _ _ hu => hu) hlead hf _ _ _
  · exact h.admit (.refl s) rfl (fun _ _ hu => hu) hlead hf _ _ _
  · exact h.goto (.refl s) rfl rfl (hmono _)
  · exact h.goto (.refl s) rfl rfl (hmono _)
  · -- a stale value from the server does not count as local
    refine h.goto (.refl s) rfl rfl ⟨(hmono _).1, (hmono (.failing lead protocolError)).2.1, ?_⟩
    intro held hh obtained ho
    obtain rfl := Option.some.inj hh
    cases ho
  · exact h.goto (.refl s) rfl rfl (hmono _)

/-! ## Mutations and answers -/

/-- The reply to a mutation is read: from now on the mutation is seen. -/
theorem Inv.replied {task : Task V} {reply : Reply} {ranAt : ℕ} (h : Inv floor s)
    (hth : s.calls t = .replied task (.ok reply) ranAt) :
    ∃ floor', Inv floor' (counted s (Client.goto t (.returning task reply ranAt)
      (if reply.changed then s.mutationSucceeded else s))) := by
  have hpc := h.calls t
  rw [hth] at hpc
  obtain ⟨htask, hl, hsteps, hpending⟩ := hpc
  have hpending' : ∀ r, pendingStore (.returning task reply ranAt) = some r → floor ≤ r ∧ ranAt ≤ r := by
    cases task with
    | call => exact fun r hr => by cases hr
    | store lead value token started =>
      intro r hr
      obtain rfl := Option.some.inj hr
      exact ⟨hpending _ rfl, le_rfl⟩
  cases hc : reply.changed with
  | false =>
    refine ⟨floor, h.goto (.refl s) rfl rfl
      ⟨htask.mono ((Quiet.refl s).counted t _).extends, hl, ?_, fun r hr => (hpending' r hr).1⟩⟩
    rw [hc]
    intro hfalse
    cases hfalse
  | true =>
    have he : Extends s (counted s (s.mutationSucceeded.goto t (.returning task reply ranAt))) :=
      ⟨Nat.le_succ _, le_rfl, fun hcur => hcur, fun _ _ _ hcov => hcov⟩
    have hp : Progress floor (max floor ranAt) s
        (counted s (s.mutationSucceeded.goto t (.returning task reply ranAt))) t
        (.returning task reply ranAt) := by
      refine ⟨rfl, le_max_left _ _, he, fun u _ hu => hu, .inr (.inl (Nat.lt_succ_self _)), ?_⟩
      -- nobody else has a write under way while `t` has the queue
      intro u hu r hr
      have hpu := h.calls u
      cases hcu : s.calls u <;> rw [hcu] at hr hpu <;> try cases hr
      · exact absurd (Option.some.inj (hl.symm.trans hpu.2.1)).symm hu
      · exact absurd (Option.some.inj (hl.symm.trans hpu.2.1)).symm hu
    refine ⟨max floor ranAt, ?_⟩
    exact
      { floor_le := (max_le h.floor_le hsteps).trans (Nat.le_succ _)
        completed := fun m hm hch => (h.completed m hm hch).trans (le_max_left _ _)
        polled := fun p hp => ⟨(h.polled p hp).1,
          fun m hm hle => ((h.polled p hp).2 m hm hle).trans (le_max_left _ _)⟩
        current := fun g hg => ⟨(h.current g hg).1,
          fun m hm hle => ((h.current g hg).2 m hm hle).trans (le_max_left _ _)⟩
        foreign := fun m hm => (h.foreign m hm).trans (Nat.le_succ _)
        first := fun _ _ hk => absurd hk (LocalCache.not_holds_clear (l := s.localCache))
        entries := fun _ hk => absurd hk (LocalCache.not_holds_clear (l := s.localCache))
        served := fun r hr => ⟨(h.served r hr).1.trans (Nat.le_succ _), (h.served r hr).2⟩
        calls := hp.pcOk h.calls ⟨htask.mono he, hl, fun _ => le_max_right _ _,
          fun r hr => max_le (hpending' r hr).1 (hpending' r hr).2⟩ }

/-- A mutation returns. -/
theorem Inv.returned {m : Mutation V} {reply : Reply} {ranAt : ℕ} (h : Inv floor s)
    (hl : s.mutationQueue = some t) (hchanged : reply.changed = true → ranAt ≤ floor) :
    Inv floor (counted s (Client.goto t .idle
      { s with
        mutationQueue := none
        completed := ⟨m, reply, ranAt, s.steps⟩ :: s.completed })) := by
  refine h.calm ⟨Nat.le_succ _, le_rfl, rfl, rfl, rfl, rfl, rfl⟩ rfl ?_ (fun r hr => .inl hr)
    (fun key hk => ⟨.inl hk, h.entries key hk⟩) (other_lock hl) trivial
  intro q hq
  rcases List.mem_cons.mp hq with rfl | hold
  · exact .inr ⟨le_rfl, hchanged⟩
  · exact .inl hold

/-- Mutations of others that are not yet reported change nothing that was seen. -/
theorem Inv.others (h : Inv floor s) (call : MutationClock.BackendCall V) :
    Inv floor (counted s (s.others c call)) := by
  have hforeign : ∀ m ∈ (s.others c call).foreign, m ∈ s.foreign ∨
      s.server.invalidationCursor < m.cursor ∧ m.tookEffectAt = s.steps := by
    intro m hm
    simp only [Client.others] at hm
    split_ifs at hm with hlt
    · rcases List.mem_cons.mp hm with rfl | hold
      · exact .inr ⟨hlt, rfl⟩
      · exact .inl hold
    · exact .inl hm
  have hserver : s.server.invalidationCursor ≤ (s.others c call).server.invalidationCursor :=
    call.cursor_le
  have hseen : ∀ g ≤ s.server.invalidationCursor, ∀ b,
      (∀ m ∈ s.foreign, m.cursor ≤ g → m.tookEffectAt ≤ b) →
      ∀ m ∈ (s.others c call).foreign, m.cursor ≤ g → m.tookEffectAt ≤ b := by
    intro g hg b hb m hm hle
    rcases hforeign m hm with hold | ⟨hlt, -⟩
    · exact hb m hold hle
    · omega
  have he : Extends s (counted s (s.others c call)) :=
    ⟨Nat.le_succ _, hserver, fun hc => hc, fun started obtained _ hcov => ⟨hcov.1,
      fun p hp hlt => hseen _ (h.polled p hp).1 _ (hcov.2 p hp hlt)⟩⟩
  exact
    { floor_le := h.floor_le.trans (Nat.le_succ _)
      completed := h.completed
      polled := fun p hp => ⟨(h.polled p hp).1.trans hserver,
        hseen _ (h.polled p hp).1 _ (h.polled p hp).2⟩
      current := fun g hg => ⟨(h.current g hg).1.trans hserver,
        hseen _ (h.current g hg).1 _ (h.current g hg).2⟩
      foreign := fun m hm => by
        rcases hforeign m hm with hold | ⟨-, heq⟩
        · exact (h.foreign m hold).trans (Nat.le_succ _)
        · exact heq.le.trans (Nat.le_succ _)
      first := h.first
      entries := h.entries
      served := fun r hr => ⟨(h.served r hr).1.trans (Nat.le_succ _),
        he.covers _ _ (h.served r hr).1 (h.served r hr).2⟩
      calls := fun u => (h.calls u).mono he (fun hu => hu) le_rfl (.inl ⟨rfl, rfl⟩)
        fun _ _ hle => hle }

/-- The latest of some steps, and of `n`. -/
theorem exists_latest (n : ℕ) (l : List ℕ) :
    ∃ b, n ≤ b ∧ (∀ x ∈ l, x ≤ b) ∧ ∀ r, n ≤ r → (∀ x ∈ l, x ≤ r) → b ≤ r := by
  induction l with
  | nil => exact ⟨n, le_rfl, fun x hx => absurd hx List.not_mem_nil, fun r hr _ => hr⟩
  | cons x l ih =>
    obtain ⟨b, hn, hl, hb⟩ := ih
    refine ⟨max x b, hn.trans (le_max_right _ _), ?_, ?_⟩
    · intro y hy
      rcases List.mem_cons.mp hy with rfl | hy
      · exact le_max_left _ _
      · exact (hl y hy).trans (le_max_right _ _)
    · intro r hr hall
      exact max_le (hall x List.mem_cons_self) (hb r hr fun y hy => hall y (List.mem_cons_of_mem _ hy))

/-- The client when an answer is processed, apart from the generation and the local cache. -/
structure Answered (document : Document) (pc : Pc V) (t : Thread) (s s' : Client V) : Prop where
  steps : s'.steps = s.steps + 1
  server : s'.server = s.server
  cursor : s'.cursor ≠ none
  cursorGeneration : s'.cursorGeneration = document.generation
  mutationQueue : s'.mutationQueue = s.mutationQueue
  calls : s'.calls = Function.update s.calls t pc
  obtainedAt : s'.obtainedAt = s.obtainedAt
  completed : s'.completed = s.completed
  polls : s'.polls = ⟨document.generation.getD 0, s.steps⟩ :: s.polls
  foreign : s'.foreign = s.foreign
  served : s'.served = s.served

theorem answered_endPoll (t : Thread) (load : Option Load) (document : Document) (wall : ℚ)
    (s : Client V) :
    Answered document (afterPoll load) t s (counted s (endPoll t load document wall s)) := by
  unfold endPoll
  split_ifs <;> exact ⟨rfl, rfl, Option.some_ne_none _, rfl, rfl, rfl, rfl, rfl, rfl, rfl, rfl⟩

theorem Answered.extends {document : Document} {pc : Pc V} (ha : Answered document pc t s s') :
    Extends s s' := by
  refine ⟨by rw [ha.steps]; exact Nat.le_succ _, by rw [ha.server], fun _ => ha.cursor,
    fun started obtained hst hcov => ⟨by rw [ha.completed]; exact hcov.1, ?_⟩⟩
  rw [ha.polls, ha.foreign]
  intro p hp hlt
  rcases List.mem_cons.mp hp with rfl | hold
  · -- the answer is processed after the start of whatever is running
    exact absurd hst (not_le.mpr hlt)
  · exact hcov.2 p hold hlt

/-- An answer to `MC.INVALIDATIONS` is processed: what it reports is seen from now on.  A write
that is still to be admitted must not be older. -/
theorem Inv.answered {load : Option Load} {document : Document} (h : Inv floor s)
    (hth : s.calls t = .polled load document) (wall : ℚ)
    (hprompt : ∀ u ranAt, pendingStore (s.calls u) = some ranAt → ∀ m ∈ s.foreign,
      m.cursor ≤ document.generation.getD 0 → m.tookEffectAt ≤ ranAt) :
    ∃ floor', Inv floor' (counted s (endPoll t load document wall s)) := by
  have hpc := h.calls t
  rw [hth] at hpc
  obtain ⟨hload, hepoch, g, hg, hgle⟩ := hpc
  have ha := answered_endPoll t load document wall s
  obtain ⟨floor', hle, hreach, hleast⟩ := exists_latest floor
    ((s.foreign.filter fun m => m.cursor ≤ g).map Foreign.tookEffectAt)
  have hseen : ∀ m ∈ s.foreign, m.cursor ≤ g → m.tookEffectAt ≤ floor' := by
    intro m hm hcur
    exact hreach _ (List.mem_map_of_mem (List.mem_filter.mpr ⟨hm, by simpa using hcur⟩))
  have hbound : ∀ r, floor ≤ r → (∀ m ∈ s.foreign, m.cursor ≤ g → m.tookEffectAt ≤ r) →
      floor' ≤ r := by
    intro r hr hall
    refine hleast r hr ?_
    intro x hx
    obtain ⟨m, hm, rfl⟩ := List.mem_map.mp hx
    obtain ⟨hm, hcur⟩ := List.mem_filter.mp hm
    exact hall m hm (by simpa using hcur)
  have hsteps : floor' ≤ s.steps := hbound _ h.floor_le fun m hm _ => h.foreign m hm
  -- entries are left only when nothing new is reported
  have hkept : Advances floor floor' s (counted s (endPoll t load document wall s)) ∧
      ∀ key, (counted s (endPoll t load document wall s)).localCache.Holds key →
        floor' ≤ s.obtainedAt key := by
    unfold endPoll
    by_cases hch : cursorChanged document s
    · rw [if_pos hch]
      exact ⟨.inr (.inl (Nat.lt_succ_self _)),
        fun key hk => absurd hk (LocalCache.not_holds_clear (l := s.localCache))⟩
    · rw [if_neg hch]
      by_cases hnone : s.cursor = none
      · exact ⟨.inr (.inr ⟨hnone, rfl⟩), fun key hk => absurd hk (h.first hnone key)⟩
      · have hsame : s.cursorGeneration = some g := by
          unfold cursorChanged at hch
          rw [if_neg (by simp [hepoch, hg])] at hch
          by_contra hne
          exact hch ⟨hnone, .inr fun heq => hne (heq.symm.trans hg)⟩
        obtain rfl : floor' = floor := le_antisymm (hbound _ le_rfl (h.current g hsame).2) hle
        exact ⟨.inl ⟨rfl, rfl⟩, h.entries⟩
  have hprogress : Progress floor floor' s (counted s (endPoll t load document wall s)) t
      (afterPoll load) := by
    refine ⟨ha.calls, hle, ha.extends, fun u _ hu => ha.mutationQueue.trans hu, hkept.1, ?_⟩
    intro u _ r hr hfloor
    refine hbound r hfloor fun m hm hcur => hprompt u r hr m hm ?_
    rw [hg]
    exact hcur
  refine ⟨floor', ?_⟩
  exact
    { floor_le := by
        rw [ha.steps]
        exact hsteps.trans (Nat.le_succ _)
      completed := fun m hm hch => (h.completed m (ha.completed ▸ hm) hch).trans hle
      polled := by
        intro p hp
        rw [ha.server, ha.foreign]
        rw [ha.polls, hg] at hp
        rcases List.mem_cons.mp hp with rfl | hold
        · exact ⟨hgle, hseen⟩
        · exact ⟨(h.polled p hold).1, fun m hm hcur => ((h.polled p hold).2 m hm hcur).trans hle⟩
      current := by
        intro g' hg'
        rw [ha.cursorGeneration, hg] at hg'
        obtain rfl := Option.some.inj hg'
        rw [ha.server, ha.foreign]
        exact ⟨hgle, hseen⟩
      foreign := by
        rw [ha.foreign, ha.steps]
        exact fun m hm => (h.foreign m hm).trans (Nat.le_succ _)
      first := fun hnone => absurd hnone ha.cursor
      entries := by
        rw [ha.obtainedAt]
        exact hkept.2
      served := by
        intro r hr
        rw [ha.served] at hr
        obtain ⟨hst, hcov⟩ := h.served r hr
        exact ⟨hst.trans ha.extends.steps, ha.extends.covers _ _ hst hcov⟩
      calls := hprogress.pcOk h.calls (by
        cases load with
        | none => trivial
        | some load =>
          exact ⟨(hload load rfl).trans ha.extends.steps, ha.cursor, fun held hh => by cases hh⟩) }

/-! ## All steps -/

/-- When the steps keep the promise: the first poll of a `getOrLoad` waits for an answer, and
no answer is processed that reports a mutation which took effect after a write that is still to
be admitted. -/
def Prompt (c : ClientConfig V) (s : Client V) : Move V → Prop
  | .getOrLoad _ _ _ wall => s.cursor = none → c.invalidationPollSeconds ≤ wall - s.lastPoll
  | .advance t _ =>
    match s.calls t with
    | .polled _ document => ∀ u ranAt, pendingStore (s.calls u) = some ranAt → ∀ m ∈ s.foreign,
        m.cursor ≤ document.generation.getD 0 → m.tookEffectAt ≤ ranAt
    | _ => True
  | _ => True

theorem Inv.advance {i : Input V} (h : Inv floor s) (hp : Prompt c s (.advance t i))
    (hs : s.advance c t i = some s') : ∃ floor', Inv floor' (counted s s') := by
  have hpc := h.calls t
  unfold Client.advance at hs
  cases hth : s.calls t with
  | idle =>
    rw [hth] at hs
    cases hs
  | queued task =>
    rw [hth] at hs hpc
    dsimp only at hs
    split_ifs at hs with hfree
    obtain rfl := Option.some.inj hs
    have hq : Quiet s { s with mutationQueue := some t } :=
      ⟨⟨le_rfl, le_rfl, rfl, rfl, rfl, rfl, rfl⟩, rfl, rfl, rfl, fun _ hk => hk⟩
    refine ⟨floor, h.quiet (hq.counted t (.sending task)) rfl ?_
      ⟨TaskOk.mono hpc (hq.counted t _).extends, rfl⟩⟩
    intro u _ hu
    rw [hfree] at hu
    cases hu
  | sending task =>
    rw [hth] at hs hpc
    obtain rfl := Option.some.inj hs
    obtain ⟨htask, hl⟩ := hpc
    have hq := quiet_command (s := s) i.wire (forward_serve c.server task.mutation)
    obtain ⟨hcalls, hqueue⟩ := command_calls (s := s) i.wire (task.mutation.serve c.server)
    refine ⟨floor, h.goto hq hcalls hqueue
      ⟨htask.mono (hq.counted t _).extends, hqueue.trans hl, Nat.le_succ _, ?_⟩⟩
    intro r hr
    obtain rfl := pendingStore_replied hr
    exact h.floor_le
  | replied task reply ranAt =>
    rw [hth] at hs hpc
    obtain ⟨htask, hl, hsteps, hpending⟩ := hpc
    cases reply with
    | error e =>
      have hq : Quiet s { s with mutationQueue := none } :=
        ⟨⟨le_rfl, le_rfl, rfl, rfl, rfl, rfl, rfl⟩, rfl, rfl, rfl, fun _ hk => hk⟩
      cases task with
      | call m =>
        obtain rfl := Option.some.inj hs
        exact ⟨floor, h.quiet (hq.counted t .idle) rfl (other_lock hl) trivial⟩
      | store lead value token started =>
        obtain rfl := Option.some.inj hs
        exact ⟨floor, h.quiet (hq.counted t (.failing lead e)) rfl (other_lock hl)
          (HeldOk.mono htask (hq.counted t _).extends)⟩
    | ok reply =>
      have hs' : some (Client.goto t (.returning task reply ranAt)
          (if reply.changed then s.mutationSucceeded else s)) = some s' := by
        cases task <;> exact hs
      obtain rfl := Option.some.inj hs'
      exact h.replied hth
  | returning task reply ranAt =>
    rw [hth] at hs hpc
    obtain ⟨htask, hl, hchanged, hpending⟩ := hpc
    cases task with
    | call m =>
      obtain rfl := Option.some.inj hs
      exact ⟨floor, h.returned hl hchanged⟩
    | store lead value token started =>
      obtain rfl := Option.some.inj hs
      have hq : Quiet s { s with mutationQueue := none } :=
        ⟨⟨le_rfl, le_rfl, rfl, rfl, rfl, rfl, rfl⟩, rfl, rfl, rfl, fun _ hk => hk⟩
      exact ⟨floor, h.admit hq rfl (other_lock hl) htask (fun _ => hpending ranAt rfl) _ _ _⟩
  | asking load =>
    rw [hth] at hs hpc
    dsimp only at hs
    split at hs <;> obtain rfl := Option.some.inj hs
    · exact ⟨floor, h.goto (.refl s) rfl rfl ⟨fun l hl => (hpc l hl).trans (Nat.le_succ _),
        Option.some_ne_none _, _, rfl, le_rfl⟩⟩
    · exact ⟨floor, h.goto (.refl s) rfl rfl trivial⟩
  | polled load document =>
    rw [hth] at hs
    obtain rfl := Option.some.inj hs
    refine h.answered hth i.wall ?_
    simpa only [Prompt, hth] using hp
  | looking load =>
    rw [hth] at hs hpc
    obtain rfl := Option.some.inj hs
    exact ⟨floor, h.look hpc i.time⟩
  | waiting load flight =>
    rw [hth] at hs
    dsimp only at hs
    split_ifs at hs
    obtain rfl := Option.some.inj hs
    exact ⟨floor, h.goto (.refl s) rfl rfl trivial⟩
  | leasing lead expected started =>
    rw [hth] at hs hpc
    obtain ⟨hlead, hle⟩ := hpc
    have hq := quiet_command (s := s) i.wire (forward_lease c.server lead.load.key)
    obtain ⟨hcalls, hqueue⟩ := command_calls (s := s) i.wire (lease c.server lead.load.key)
    dsimp only at hs
    rcases hcmd : s.command i.wire (lease c.server lead.load.key) with ⟨e | result, s₁⟩ <;>
      rw [hcmd] at hs hq hcalls hqueue <;> obtain rfl := Option.some.inj hs
    · exact ⟨floor, h.goto hq hcalls hqueue (HeldOk.mono hlead (hq.counted t _).extends)⟩
    · refine ⟨floor, h.goto hq hcalls hqueue
        ⟨HeldOk.mono hlead (hq.counted t _).extends, ?_, fun _ => h.floor_le⟩⟩
      exact hle.trans hq.generation.ge
  | leased lead expected started result ranAt =>
    rw [hth] at hs hpc
    obtain rfl := Option.some.inj hs
    exact ⟨floor, h.leased hpc.1 hpc.2.2 started result i.time i.later⟩
  | sleeping lead =>
    rw [hth] at hs hpc
    obtain rfl := Option.some.inj hs
    exact ⟨floor, h.goto (.refl s) rfl rfl
      ⟨HeldOk.mono hpc ((Quiet.refl s).counted t _).extends, le_rfl⟩⟩
  | loading lead token =>
    rw [hth] at hs hpc
    dsimp only at hs
    split at hs <;> obtain rfl := Option.some.inj hs
    · exact ⟨floor, h.goto (.refl s) rfl rfl (HeldOk.mono hpc ((Quiet.refl s).counted t _).extends)⟩
    · exact ⟨floor, h.goto (.refl s) rfl rfl (HeldOk.mono hpc ((Quiet.refl s).counted t _).extends)⟩
  | failing lead e =>
    rw [hth] at hs hpc
    obtain rfl := Option.some.inj hs
    exact ⟨floor, h.error hpc i.time⟩
  | consuming lead result obtained =>
    rw [hth] at hs hpc
    obtain rfl := Option.some.inj hs
    exact ⟨floor, h.consume hpc.1 hpc.2 i.time⟩

theorem Inv.polling {load : Option Load} (h : Inv floor s) (wall : ℚ)
    (hstarted : ∀ l ∈ load, l.startedAt = s.steps)
    (hfirst : load ≠ none → s.cursor = none → c.invalidationPollSeconds ≤ wall - s.lastPoll) :
    Inv floor (counted s (s.startPoll c t load wall)) := by
  have hload : ∀ l ∈ load, l.startedAt ≤ s.steps + 1 := by
    intro l hl
    rw [hstarted l hl]
    exact Nat.le_succ _
  unfold startPoll
  split_ifs with hskip
  · cases load with
    | none => exact h.goto (.refl s) rfl rfl trivial
    | some load =>
      refine h.goto (.refl s) rfl rfl ⟨hload load rfl, ?_, fun held hh => by cases hh⟩
      intro hnone
      exact absurd (hfirst (Option.some_ne_none _) hnone) (not_le.mpr hskip)
  · exact h.goto (.refl s) rfl rfl hload

theorem Inv.step {move : Move V} (h : Inv floor s) (hp : Prompt c s move)
    (hs : move.step c s = some s') : ∃ floor', Inv floor' s' := by
  obtain ⟨e, he, rfl⟩ := Option.map_eq_some_iff.mp hs
  cases move with
  | environment call =>
    obtain rfl := Option.some.inj he
    exact ⟨floor, h.others call⟩
  | mutate t m =>
    unfold Move.effect at he
    dsimp only at he
    split at he
    · obtain rfl := Option.some.inj he
      exact ⟨floor, h.goto (.refl s) rfl rfl trivial⟩
    · cases he
  | poll t wall =>
    unfold Move.effect at he
    dsimp only at he
    split at he
    · obtain rfl := Option.some.inj he
      exact ⟨floor, h.polling wall (fun l hl => by cases hl) fun hne => absurd rfl hne⟩
    · cases he
  | getOrLoad t key policy wall =>
    unfold Move.effect at he
    dsimp only at he
    split at he
    · obtain rfl := Option.some.inj he
      refine ⟨floor, h.polling wall (fun l hl => ?_) fun _ => hp⟩
      obtain rfl := Option.some.inj hl
      rfl
    · cases he
  | advance t i => exact h.advance hp he

end Client

theorem Interleaving.inv {s : Client V} (h : Interleaving c (Client.Prompt c) s) :
    ∃ floor, s.Inv floor := by
  induction h with
  | init => exact ⟨0, .init⟩
  | step _ move hp hs ih =>
    obtain ⟨floor, hinv⟩ := ih
    exact hinv.step hp hs

/-- When every step keeps the promise `Prompt`, a `getOrLoad` answers from the local cache only
with values that were read from or written to the server no earlier than every mutation took
effect that the client had seen when the call started: its own that had returned and changed
something, and those of others that a processed answer reports. -/
theorem answers_cover_seen_mutations {s : Client V} (h : Interleaving c (Client.Prompt c) s)
    {r : Served V} (hr : r ∈ s.served) :
    (∀ m ∈ s.completed, m.reply.changed = true → m.returnedAt < r.startedAt →
      m.tookEffectAt ≤ r.obtainedAt) ∧
    ∀ p ∈ s.polls, p.processedAt < r.startedAt → ∀ m ∈ s.foreign, m.cursor ≤ p.generation →
      m.tookEffectAt ≤ r.obtainedAt := by
  obtain ⟨floor, hinv⟩ := h.inv
  exact (hinv.served r hr).2

/-! ## Two interleavings -/

theorem Interleaving.run {P : Client V → Move V → Prop} {s s' : Client V}
    (h : Interleaving c P s) (hP : ∀ s move, P s move) {moves : List (Move V)}
    (hs : Move.runAll c moves s = some s') : Interleaving c P s' := by
  induction moves generalizing s with
  | nil =>
    obtain rfl := Option.some.inj hs
    exact h
  | cons move moves ih =>
    obtain ⟨s₁, h₁, hrest⟩ := Option.bind_eq_some_iff.mp hs
    exact ih (h.step move (hP s move) h₁) hrest

/-- Whether a move is prompt because nobody has the queue when an answer is processed. -/
def Move.unhurried (c : ClientConfig V) (s : Client V) : Move V → Bool
  | .getOrLoad _ _ _ wall => s.cursor ≠ none ∨ c.invalidationPollSeconds ≤ wall - s.lastPoll
  | .advance t _ =>
    match s.calls t with
    | .polled _ _ => s.mutationQueue = none
    | _ => true
  | _ => true

theorem Client.Inv.prompt {s : Client V} {floor : ℕ} (h : s.Inv floor) {move : Move V}
    (hm : move.unhurried c s = true) : Client.Prompt c s move := by
  cases move with
  | environment => trivial
  | mutate => trivial
  | poll => trivial
  | getOrLoad t key policy wall =>
    intro hnone
    simpa [Move.unhurried, hnone] using hm
  | advance t i =>
    unfold Move.unhurried at hm
    unfold Client.Prompt
    dsimp only at hm ⊢
    split
    · rename_i hth
      rw [hth] at hm
      have hfree : s.mutationQueue = none := by simpa using hm
      -- a pending write belongs to the call that has the queue
      intro u ranAt hpending
      have hpu := h.calls u
      cases hcu : s.calls u <;> rw [hcu] at hpending hpu <;> try cases hpending
      · exact absurd (hfree.symm.trans hpu.2.1) (Option.some_ne_none _).symm
      · exact absurd (hfree.symm.trans hpu.2.1) (Option.some_ne_none _).symm
    · trivial

/-- The client after a list of unhurried moves. -/
def Move.runUnhurried (c : ClientConfig V) : List (Move V) → Client V → Option (Client V)
  | [], s => some s
  | move :: moves, s =>
    if move.unhurried c s then (move.step c s).bind (runUnhurried c moves) else none

theorem Interleaving.runUnhurried {s s' : Client V} (h : Interleaving c (Client.Prompt c) s)
    {moves : List (Move V)} (hs : Move.runUnhurried c moves s = some s') :
    Interleaving c (Client.Prompt c) s' := by
  induction moves generalizing s with
  | nil =>
    obtain rfl := Option.some.inj hs
    exact h
  | cons move moves ih =>
    obtain ⟨floor, hinv⟩ := h.inv
    unfold Move.runUnhurried at hs
    split_ifs at hs with hm
    obtain ⟨s₁, h₁, hrest⟩ := Option.bind_eq_some_iff.mp hs
    exact ih (h.step move (hinv.prompt hm) h₁) hrest

/-- The next `n` steps of a call. -/
def turns (t : Thread) (n : ℕ) : List (Move String) :=
  List.replicate n (.advance t ⟨2000, 0, 0, .delivered, .ok "1"⟩)

def deletion : Move String := .environment (.storage (.delete "a"))

/-- Every value is read again after a mutation. -/
def quietMoves : List (Move String) :=
  .mutate 0 (.put "a" "0" none none [] none) :: turns 0 4 ++
    deletion :: .getOrLoad 0 "a" smallPolicy 1000 :: turns 0 11 ++
    deletion :: .poll 1 3000 :: turns 1 2 ++
    .getOrLoad 0 "a" smallPolicy 2500 :: turns 0 9 ++ .getOrLoad 2 "a" smallPolicy 2500 :: turns 2 1

theorem small_answers_cover : ∃ (s : Client String) (r : Served String),
    Interleaving smallClient (Client.Prompt smallClient) s ∧ r ∈ s.served ∧
    (∀ m ∈ s.completed, m.reply.changed = true → m.returnedAt < r.startedAt →
      m.tookEffectAt ≤ r.obtainedAt) ∧
    ∀ p ∈ s.polls, p.processedAt < r.startedAt → ∀ m ∈ s.foreign, m.cursor ≤ p.generation →
      m.tookEffectAt ≤ r.obtainedAt := by
  have hrun : ((Move.runUnhurried smallClient quietMoves .init).map Client.served) =
      some [⟨"a", "1", 32, 28⟩] := by
    decide +kernel
  obtain ⟨s, hs, hserved⟩ := Option.map_eq_some_iff.mp hrun
  have hi : Interleaving smallClient (Client.Prompt smallClient) s := Interleaving.init.runUnhurried hs
  have hr : (⟨"a", "1", 32, 28⟩ : Served String) ∈ s.served := by
    rw [hserved]
    exact List.mem_singleton_self _
  exact ⟨s, _, hi, hr, answers_cover_seen_mutations hi hr⟩

/-- The write of a loaded value and an answer that reports a later deletion are read together:
the answer is processed between the end of the write and the reading of `ownGeneration`. -/
def overtakenMoves : List (Move String) :=
  .getOrLoad 0 "a" smallPolicy 1000 :: turns 0 8 ++
    deletion :: .poll 1 3000 :: turns 1 1 ++ turns 0 1 ++ turns 1 1 ++ turns 0 2 ++
    .getOrLoad 2 "a" smallPolicy 2500 :: turns 2 1

/-- The value is admitted under the generation that the answer has begun, and served. -/
theorem deleted_value_served : ∃ (s : Client String) (p : Polled) (m : Foreign) (r : Served String),
    Interleaving smallClient (fun _ _ => True) s ∧ p ∈ s.polls ∧ m ∈ s.foreign ∧ r ∈ s.served ∧
      m.cursor ≤ p.generation ∧ p.processedAt < r.startedAt ∧ r.obtainedAt < m.tookEffectAt := by
  have hrun : ((Move.runAll smallClient overtakenMoves .init).map fun s =>
      (s.polls, s.foreign, s.served)) =
      some ([⟨2, 13⟩, ⟨0, 2⟩], [⟨2, 9⟩], [⟨"a", "1", 16, 8⟩]) := by
    decide +kernel
  obtain ⟨s, hs, heq⟩ := Option.map_eq_some_iff.mp hrun
  obtain ⟨hp, hrest⟩ := Prod.mk.inj heq
  obtain ⟨hf, hv⟩ := Prod.mk.inj hrest
  refine ⟨s, ⟨2, 13⟩, ⟨2, 9⟩, ⟨"a", "1", 16, 8⟩, Interleaving.init.run (fun _ _ => trivial) hs,
    ?_, ?_, ?_, ?_⟩
  · rw [hp]
    exact List.mem_cons_self
  · rw [hf]
    exact List.mem_singleton_self _
  · rw [hv]
    exact List.mem_singleton_self _
  · decide

end MegaCache.Sdk.Node
