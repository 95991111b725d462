import MegaCache.Sdk.Client

/-!
# Coherence of the local cache

Once a mutation that changed something has returned, a `get_or_load` that starts later
gets nothing out of the local cache that was obtained from the server before the mutation
took effect.

The argument is about one number, the latest step at which a mutation took effect that
has since advanced the generation.  Every local entry is at least that recent, and so is
every value on its way into the cache whose generation is still the current one.
-/

namespace MegaCache.Sdk

open Prog

variable {V : Type} {c : ClientConfig V}

/-- Nothing obtained at the step `obtained` and returned by a call started at `started` is
older than a mutation that changed something and returned before. -/
def Covers (completed : List (Completed V)) (started obtained : ℕ) : Prop :=
  ∀ m ∈ completed, m.reply.changed = true → m.returnedAt < started → m.tookEffectAt ≤ obtained

namespace Client

variable {s s' : Client V} {floor floor' : ℕ} {t u : Thread}

/-- A running call whose stale value, if it came from the local cache, is recent enough. -/
def HeldOk (s : Client V) (load : Load) (stale : Option (Held V)) : Prop :=
  load.startedAt ≤ s.steps ∧ ∀ held ∈ stale, ∀ obtained, held.obtainedAt = some obtained →
    Covers s.completed load.startedAt obtained

def TaskOk (s : Client V) : Task V → Prop
  | .call _ => True
  | .store lead _ _ _ => HeldOk s lead.load lead.stale

/-- What holds of a thread `t` at `pc` when the mutations behind the current generation took
effect at the step `floor` at the latest. -/
def PcOk (floor : ℕ) (s : Client V) (t : Thread) : Pc V → Prop
  | .idle => True
  | .acquiring task => TaskOk s task
  | .sending task => TaskOk s task ∧ s.mutationLock = some t
  | .replied task _ ranAt => TaskOk s task ∧ s.mutationLock = some t ∧ floor ≤ ranAt ∧ ranAt ≤ s.steps
  | .returning task reply generation ranAt =>
    TaskOk s task ∧ s.mutationLock = some t ∧ (reply.changed = true → ranAt ≤ floor) ∧
      generation ≤ s.mutationGeneration ∧ (generation = s.mutationGeneration → floor ≤ ranAt)
  | .polling load _ | .looking load | .waiting load _ => HeldOk s load none
  | .joining load stale => HeldOk s load stale
  | .leading lead | .loading lead _ | .failing lead _ | .concluding lead _ =>
    HeldOk s lead.load lead.stale
  | .leasing lead expected => HeldOk s lead.load lead.stale ∧ expected ≤ s.mutationGeneration
  | .leased lead expected _ _ ranAt =>
    HeldOk s lead.load lead.stale ∧ expected ≤ s.mutationGeneration ∧
      (expected = s.mutationGeneration → floor ≤ ranAt)
  | .admitting lead a _ =>
    HeldOk s lead.load lead.stale ∧ a.generation ≤ s.mutationGeneration ∧
      (a.generation = s.mutationGeneration → floor ≤ a.obtainedAt)

/-- The invariant of all interleavings. -/
structure Inv (floor : ℕ) (s : Client V) : Prop where
  floor_le : floor ≤ s.steps
  completed : ∀ m ∈ s.completed, m.reply.changed = true → m.tookEffectAt ≤ floor
  entries : ∀ key, s.localCache.Holds key → floor ≤ s.obtainedAt key
  served : ∀ r ∈ s.served, r.startedAt ≤ s.steps ∧ Covers s.completed r.startedAt r.obtainedAt
  threads : ∀ t, PcOk floor s t (s.threads t)

theorem Inv.init : Inv 0 (init : Client V) where
  floor_le := le_rfl
  completed _ h := absurd h List.not_mem_nil
  entries _ h := absurd h LocalCache.not_holds_init
  served _ h := absurd h List.not_mem_nil
  threads _ := trivial

/-! ## What other threads may do -/

/-- Later completions do not concern a call that has already started. -/
def Extends (s s' : Client V) : Prop :=
  s.steps ≤ s'.steps ∧
    ∀ started obtained, started ≤ s.steps → Covers s.completed started obtained →
      Covers s'.completed started obtained

theorem HeldOk.mono {load : Load} {stale : Option (Held V)} (h : HeldOk s load stale)
    (he : Extends s s') : HeldOk s' load stale :=
  ⟨h.1.trans he.1, fun held hh o ho => he.2 _ _ h.1 (h.2 held hh o ho)⟩

theorem TaskOk.mono {task : Task V} (h : TaskOk s task) (he : Extends s s') : TaskOk s' task := by
  cases task with
  | call => trivial
  | store => exact HeldOk.mono h he

/-- The generation and the floor stay, or the generation grows; then the floor grows at most,
and not while the thread holds the mutation lock. -/
def Advances (floor floor' : ℕ) (s s' : Client V) (u : Thread) : Prop :=
  floor' = floor ∧ s'.mutationGeneration = s.mutationGeneration ∨
    s.mutationGeneration < s'.mutationGeneration ∧ (s.mutationLock = some u → floor' = floor)

theorem PcOk.mono {pc : Pc V} (h : PcOk floor s u pc) (he : Extends s s')
    (hlock : s.mutationLock = some u → s'.mutationLock = some u)
    (ha : Advances floor floor' s s' u) : PcOk floor' s' u pc := by
  -- a generation that was current or older
  have hgen : ∀ {g at' : ℕ}, g ≤ s.mutationGeneration →
      (g = s.mutationGeneration → floor ≤ at') →
      g ≤ s'.mutationGeneration ∧ (g = s'.mutationGeneration → floor' ≤ at') := by
    intro g at' hg hf
    rcases ha with ⟨rfl, hsame⟩ | ⟨hlt, _⟩
    · rw [hsame]
      exact ⟨hg, hf⟩
    · exact ⟨by omega, fun hge => by omega⟩
  have hmono : s.mutationGeneration ≤ s'.mutationGeneration := by
    rcases ha with ⟨_, hsame⟩ | ⟨hlt, _⟩ <;> omega
  have hfloor : s.mutationLock = some u → floor' = floor := by
    intro hl
    rcases ha with ⟨hf, _⟩ | ⟨_, hf⟩
    · exact hf
    · exact hf hl
  cases pc with
  | idle => trivial
  | acquiring task => exact TaskOk.mono h he
  | sending task => exact ⟨h.1.mono he, hlock h.2⟩
  | replied task reply ranAt =>
    obtain ⟨htask, hl, hle, hsteps⟩ := h
    exact ⟨htask.mono he, hlock hl, hfloor hl ▸ hle, hsteps.trans he.1⟩
  | returning task reply generation ranAt =>
    obtain ⟨htask, hl, hchanged, hg, hf⟩ := h
    exact ⟨htask.mono he, hlock hl, hfloor hl ▸ hchanged, hgen hg hf⟩
  | polling | looking | waiting | joining | leading | loading | failing | concluding =>
    exact HeldOk.mono h he
  | leasing lead expected => exact ⟨h.1.mono he, h.2.trans hmono⟩
  | leased lead expected started result ranAt => exact ⟨h.1.mono he, hgen h.2.1 h.2.2⟩
  | admitting lead a result => exact ⟨h.1.mono he, hgen h.2.1 h.2.2⟩

/-! ## Steps -/

/-- A step of the thread `t`: what it must show of the shared data, of itself, and what the
other threads see of it. -/
theorem Inv.move (h : Inv floor s) (pc : Pc V) (ht : s'.threads = Function.update s.threads t pc)
    (hfloor : floor' ≤ s'.steps)
    (hcompleted : ∀ m ∈ s'.completed, m.reply.changed = true → m.tookEffectAt ≤ floor')
    (hentries : ∀ key, s'.localCache.Holds key → floor' ≤ s'.obtainedAt key)
    (hserved : ∀ r ∈ s'.served, r ∈ s.served ∨
      r.startedAt ≤ s'.steps ∧ Covers s'.completed r.startedAt r.obtainedAt)
    (he : Extends s s')
    (hlock : ∀ u ≠ t, s.mutationLock = some u → s'.mutationLock = some u)
    (ha : ∀ u ≠ t, Advances floor floor' s s' u) (hpc : PcOk floor' s' t pc) : Inv floor' s' where
  floor_le := hfloor
  completed := hcompleted
  entries := hentries
  served r hr := by
    rcases hserved r hr with hold | hnew
    · obtain ⟨hle, hcov⟩ := h.served r hold
      exact ⟨hle.trans he.1, he.2 _ _ hle hcov⟩
    · exact hnew
  threads u := by
    rw [ht]
    by_cases hu : u = t
    · subst hu
      rw [Function.update_self]
      exact hpc
    · rw [Function.update_of_ne hu]
      exact (h.threads u).mono he (hlock u hu) (ha u hu)

/-- A step that at most takes entries out of the local cache. -/
structure Quiet (s s' : Client V) : Prop where
  steps : s.steps ≤ s'.steps
  completed : s'.completed = s.completed
  served : s'.served = s.served
  lock : s'.mutationLock = s.mutationLock
  generation : s'.mutationGeneration = s.mutationGeneration
  obtainedAt : s'.obtainedAt = s.obtainedAt
  entries : ∀ key, s'.localCache.Holds key → s.localCache.Holds key

theorem Quiet.extends (h : Quiet s s') : Extends s s' :=
  ⟨h.steps, fun _ _ _ hc => h.completed ▸ hc⟩

theorem Inv.quiet (h : Inv floor s) (pc : Pc V) (ht : s'.threads = Function.update s.threads t pc)
    (hq : Quiet s s') (hpc : PcOk floor s' t pc) : Inv floor s' :=
  h.move pc ht (h.floor_le.trans hq.steps)
    (fun m hm => h.completed m (hq.completed ▸ hm))
    (fun key hk => hq.obtainedAt ▸ h.entries key (hq.entries key hk))
    (fun _ hr => .inl (hq.served ▸ hr)) hq.extends
    (fun _ _ hl => hq.lock ▸ hl) (fun _ _ => .inl ⟨rfl, hq.generation⟩) hpc

/-- The local entry of a key, read by a call that started earlier, covers what had returned. -/
theorem Inv.covers (h : Inv floor s) {key : Key} (hk : s.localCache.Holds key) (started : ℕ) :
    Covers s.completed started (s.obtainedAt key) :=
  fun m hm hc _ => (h.completed m hm hc).trans (h.entries key hk)

/-- The state after a step. -/
def counted (s s' : Client V) : Client V := { s' with steps := s.steps + 1 }

theorem Quiet.refl (s : Client V) : Quiet s s := ⟨le_rfl, rfl, rfl, rfl, rfl, rfl, fun _ h => h⟩

theorem Inv.goto {s₁ : Client V} {pc : Pc V} (h : Inv floor s) (hq : Quiet s s₁)
    (ht : s₁.threads = s.threads) (hpc : PcOk floor (counted s (s₁.goto t pc)) t pc) :
    Inv floor (counted s (s₁.goto t pc)) := by
  refine h.quiet pc ?_ ?_ hpc
  · simp only [counted, Client.goto, ht]
  · exact ⟨Nat.le_succ _, hq.completed, hq.served, hq.lock, hq.generation, hq.obtainedAt, hq.entries⟩

theorem extends_counted {s₁ : Client V} (h : s₁.completed = s.completed) :
    Extends s (counted s s₁) :=
  ⟨Nat.le_succ _, fun _ _ _ hc => (h.symm ▸ hc : Covers s₁.completed _ _)⟩

/-- `_mutation_succeeded` for a mutation that took effect at `floor'`, or for a poll with the
floor as it was. -/
theorem Inv.succeeded {pc : Pc V} (h : Inv floor s)
    (ht : s'.threads = Function.update s.threads t pc) (hs : Quiet s.mutationSucceeded s')
    (hle : floor ≤ floor') (hfloor : floor' ≤ s.steps)
    (hlock : floor' = floor ∨ s.mutationLock = some t) (hpc : PcOk floor' s' t pc) :
    Inv floor' s' := by
  have hcompleted : s'.completed = s.completed := hs.completed
  refine h.move pc ht (hfloor.trans hs.steps) ?_ ?_ ?_ ?_ ?_ ?_ hpc
  · intro m hm hc
    exact (h.completed m (hcompleted ▸ hm) hc).trans hle
  · intro key hk
    exact absurd (hs.entries key hk) (LocalCache.not_holds_clear (l := s.localCache))
  · intro r hr
    rw [hs.served] at hr
    exact .inl hr
  · exact ⟨hs.steps, fun _ _ _ hcov => hcompleted ▸ hcov⟩
  · intro u _ hl
    rw [hs.lock]
    exact hl
  · intro u hu
    right
    refine ⟨?_, fun hl => ?_⟩
    · rw [hs.generation]
      exact Nat.lt_succ_self _
    · rcases hlock with hf | hf
      · exact hf
      · rw [hf] at hl
        exact absurd (Option.some.inj hl).symm hu

theorem Inv.poll (h : Inv floor s) {load : Load} {stage : Poll} (i : Input V)
    (hpc : s.threads t = .polling load stage) :
    Inv floor (counted s (pollStep c t load i s stage)) := by
  have hload : HeldOk s load none := by
    have := h.threads t
    rwa [hpc] at this
  have hload' : ∀ (s₁ : Client V) (pc : Pc V), s₁.completed = s.completed →
      HeldOk (counted s (s₁.goto t pc)) load none := fun s₁ pc hc => hload.mono (extends_counted hc)
  cases stage with
  | start =>
    simp only [pollStep]
    split_ifs
    · exact h.goto (.refl s) rfl (hload' _ _ rfl)
    · exact h.goto (.refl s) rfl (hload' _ _ rfl)
  | asking now =>
    simp only [pollStep]
    split
    · exact h.goto (.refl s) rfl (hload' _ _ rfl)
    · exact h.goto (.refl s) rfl trivial
  | fetched document now =>
    simp only [pollStep]
    split_ifs
    · exact h.goto (.refl s) rfl (hload' _ _ rfl)
    · exact h.goto (.refl s) rfl (hload' _ _ rfl)
  | sawCursor document now =>
    simp only [pollStep]
    split_ifs
    · exact h.goto (.refl s) rfl (hload' _ _ rfl)
    · exact h.goto (.refl s) rfl (hload' _ _ rfl)
    · exact h.goto (.refl s) rfl (hload' _ _ rfl)
    · exact h.goto (.refl s) rfl (hload' _ _ rfl)
  | sawEpoch document now =>
    simp only [pollStep]
    split_ifs
    · exact h.goto (.refl s) rfl (hload' _ _ rfl)
    · exact h.goto (.refl s) rfl (hload' _ _ rfl)
  | changed document now =>
    exact h.succeeded rfl ⟨Nat.le_succ _, rfl, rfl, rfl, rfl, rfl, fun _ hk => hk⟩ le_rfl h.floor_le
      (.inl rfl) (hload' _ _ rfl)
  | setCursor document now =>
    have hq : Quiet s { s with cursor := some document.cursor } := ⟨le_rfl, rfl, rfl, rfl, rfl, rfl, fun _ hk => hk⟩
    exact h.goto hq rfl (hload' _ _ rfl)
  | setEpoch document now =>
    have hq : Quiet s { s with cursorEpoch := document.epoch } := ⟨le_rfl, rfl, rfl, rfl, rfl, rfl, fun _ hk => hk⟩
    exact h.goto hq rfl (hload' _ _ rfl)
  | setGeneration document now =>
    have hq : Quiet s { s with cursorGeneration := document.generation } := ⟨le_rfl, rfl, rfl, rfl, rfl, rfl, fun _ hk => hk⟩
    exact h.goto hq rfl (hload' _ _ rfl)
  | setLastPoll now =>
    have hq : Quiet s { s with lastPoll := now } := ⟨le_rfl, rfl, rfl, rfl, rfl, rfl, fun _ hk => hk⟩
    exact h.goto hq rfl (hload' _ _ rfl)

/-- `local.get` returns nothing that a returned mutation had outdated. -/
theorem Inv.look (h : Inv floor s) {load : Load} (now : ℚ) (hpc : s.threads t = .looking load) :
    Inv floor (counted s (lookLocally t load now s)) := by
  have hload : HeldOk s load none := by
    have := h.threads t
    rwa [hpc] at this
  have hstarted : load.startedAt ≤ s.steps + 1 := hload.1.trans (Nat.le_succ _)
  have hholds : ∀ key, (s.localCache.get now load.key).2.Holds key → s.localCache.Holds key :=
    fun key hk => LocalCache.holds_of_get hk
  unfold lookLocally
  cases hg : (s.localCache.get now load.key).1 with
  | none =>
    refine h.goto ⟨le_rfl, rfl, rfl, rfl, rfl, rfl, hholds⟩ rfl ?_
    exact ⟨hstarted, fun held hh => by cases hh⟩
  | some cached =>
    have hcov := h.covers (LocalCache.get_some hg) load.startedAt
    dsimp only
    split_ifs
    · -- a fresh hit is served at once
      refine h.move .idle rfl (h.floor_le.trans (Nat.le_succ _)) h.completed
        (fun key hk => h.entries key (hholds key hk)) ?_ ⟨Nat.le_succ _, fun _ _ _ hc => hc⟩
        (fun _ _ hl => hl) (fun _ _ => .inl ⟨rfl, rfl⟩) trivial
      intro r hr
      rcases List.mem_cons.mp hr with rfl | hr
      · exact .inr ⟨hstarted, hcov⟩
      · exact .inl hr
    · -- a stale one is kept for the case of an error
      refine h.goto ⟨le_rfl, rfl, rfl, rfl, rfl, rfl, hholds⟩ rfl ?_
      refine ⟨hstarted, ?_⟩
      intro held hh obtained ho
      obtain rfl : (⟨cached, some (s.obtainedAt load.key)⟩ : Held V) = held := by simpa using hh
      obtain rfl : s.obtainedAt load.key = obtained := by simpa using ho
      exact hcov

theorem quiet_command {α : Type} (wire : Wire) (m : ClockM V α) : Quiet s (s.command wire m).2 := by
  cases wire <;> exact ⟨le_rfl, rfl, rfl, rfl, rfl, rfl, fun _ h => h⟩

theorem command_threads {α : Type} (wire : Wire) (m : ClockM V α) :
    (s.command wire m).2.threads = s.threads := by
  cases wire <;> rfl

theorem quiet_finish (lead : Lead V) (result : Option (CachedValue V)) (error : Option PyError) :
    Quiet s (s.finish lead result error) := ⟨le_rfl, rfl, rfl, rfl, rfl, rfl, fun _ h => h⟩

/-- The way into the local cache keeps what is known of the value. -/
theorem pcOk_startAdmission {lead : Lead V} {a : Admission V} {result : CachedValue V}
    (hlead : HeldOk s lead.load lead.stale) (hle : a.generation ≤ s.mutationGeneration)
    (hf : a.generation = s.mutationGeneration → floor ≤ a.obtainedAt) :
    PcOk floor s t (startAdmission lead a result) := by
  unfold startAdmission
  split_ifs
  · exact ⟨hlead, hle, hf⟩
  · exact hlead

theorem pcOk_afterLease {lead : Lead V} {expected ranAt : ℕ} {started : ℚ} {r : LeaseResult V}
    (i : Input V) (hlead : HeldOk s lead.load lead.stale) (hle : expected ≤ s.mutationGeneration)
    (hf : expected = s.mutationGeneration → floor ≤ ranAt) :
    PcOk floor s t (afterLease lead expected started r ranAt i) := by
  unfold afterLease
  dsimp only
  split
  · exact pcOk_startAdmission hlead hle hf
  · exact pcOk_startAdmission hlead hle hf
  · exact hlead
  · exact hlead
  · -- a stale value from the server does not count as local
    refine ⟨hlead.1, ?_⟩
    intro held hh obtained ho
    obtain rfl := Option.some.inj hh
    cases ho
  · exact hlead

theorem Inv.error (h : Inv floor s) {lead : Lead V} (e : PyError) (i : Input V)
    (hlead : HeldOk s lead.load lead.stale) :
    Inv floor (counted s (afterError t lead e i s)) := by
  unfold afterError
  cases hu : usableStale lead i.time with
  | none => exact h.goto (quiet_finish _ _ _) rfl trivial
  | some held =>
    dsimp only
    cases ho : held.obtainedAt with
    | none => exact h.goto (quiet_finish _ _ _) rfl trivial
    | some obtained =>
      have hheld : lead.stale = some held := (Option.filter_eq_some_iff.mp hu).1
      have hcov := hlead.2 held (by rw [hheld]; rfl) obtained ho
      refine h.move .idle rfl (h.floor_le.trans (Nat.le_succ _)) h.completed h.entries ?_
        ⟨Nat.le_succ _, fun _ _ _ hc => hc⟩ (fun _ _ hl => hl) (fun _ _ => .inl ⟨rfl, rfl⟩) trivial
      intro r hr
      rcases List.mem_cons.mp hr with rfl | hr
      · exact .inr ⟨hlead.1.trans (Nat.le_succ _), hcov⟩
      · exact .inl hr

/-- Only a value of the current generation gets into the local cache. -/
theorem Inv.admitted (h : Inv floor s) (key : Key) {a : Admission V} (now : ℚ)
    (hf : a.generation = s.mutationGeneration → floor ≤ a.obtainedAt) (pc : Pc V)
    (hpc : PcOk floor (counted s ((admitIfGeneration c key a now s).2.goto t pc)) t pc) :
    Inv floor (counted s ((admitIfGeneration c key a now s).2.goto t pc)) := by
  unfold admitIfGeneration at hpc ⊢
  by_cases hg : a.generation = s.mutationGeneration
  · simp only [hg, ne_eq, not_true_eq_false, ↓reduceIte] at hpc ⊢
    rcases LocalCache.put_cases c.limits key a.value a.freshSeconds a.staleSeconds now
        s.localCache with ⟨r, hput, hr⟩ | ⟨l, hput, hholds⟩ <;> rw [hput] at hpc ⊢
    · split at hpc
      · rename_i heq
        exact absurd (Prod.mk.inj heq).1 hr
      · rename_i heq
        obtain ⟨rfl, rfl⟩ := Prod.mk.inj heq
        exact h.goto (.refl s) rfl hpc
    · dsimp only at hpc ⊢
      refine h.move pc rfl (h.floor_le.trans (Nat.le_succ _)) h.completed ?_
        (fun r hr => .inl hr) ⟨Nat.le_succ _, fun _ _ _ hc => hc⟩ (fun _ _ hl => hl)
        (fun _ _ => .inl ⟨rfl, rfl⟩) hpc
      intro k hk
      change floor ≤ Function.update s.obtainedAt key a.obtainedAt k
      by_cases hkey : k = key
      · rw [hkey, Function.update_self]
        exact hf hg
      · rw [Function.update_of_ne hkey]
        rcases hholds k hk with he | he
        · exact absurd he hkey
        · exact h.entries k he
  · simp only [ne_eq, hg, not_false_eq_true, ↓reduceIte] at hpc ⊢
    exact h.goto (.refl s) rfl hpc

theorem admitIfGeneration_completed (key : Key) (a : Admission V) (now : ℚ) :
    (admitIfGeneration c key a now s).2.completed = s.completed := by
  unfold admitIfGeneration
  split
  · rfl
  · split <;> rfl

/-- The mutation lock is given back by the thread that holds it. -/
theorem Inv.released (h : Inv floor s) {pc : Pc V} (hl : s.mutationLock = some t)
    (hpc : PcOk floor (counted s (s.release.goto t pc)) t pc) :
    Inv floor (counted s (s.release.goto t pc)) := by
  refine h.move pc rfl (h.floor_le.trans (Nat.le_succ _)) h.completed h.entries
    (fun r hr => .inl hr) ⟨Nat.le_succ _, fun _ _ _ hc => hc⟩ ?_ (fun _ _ => .inl ⟨rfl, rfl⟩) hpc
  intro u hu hu'
  rw [hl] at hu'
  exact absurd (Option.some.inj hu').symm hu

/-- A mutation returns. -/
theorem Inv.returned (h : Inv floor s) {m : Mutation V} {reply : Reply} {ranAt : ℕ}
    (hl : s.mutationLock = some t) (hchanged : reply.changed = true → ranAt ≤ floor) :
    Inv floor (counted s (Client.goto t .idle
      { s.release with completed := ⟨m, reply, ranAt, s.steps⟩ :: s.completed })) := by
  refine h.move .idle rfl (h.floor_le.trans (Nat.le_succ _)) ?_ h.entries
    (fun r hr => .inl hr) ⟨Nat.le_succ _, ?_⟩ ?_ (fun _ _ => .inl ⟨rfl, rfl⟩) trivial
  · intro q hq hc
    rcases List.mem_cons.mp hq with rfl | hq
    · exact hchanged hc
    · exact h.completed q hq hc
  · -- what has started by now did not start after this return
    intro started obtained hle hcov q hq hc hlt
    rcases List.mem_cons.mp hq with rfl | hq
    · exact absurd hle (not_le.mpr hlt)
    · exact hcov q hq hc hlt
  · intro u hu hu'
    rw [hl] at hu'
    exact absurd (Option.some.inj hu').symm hu

/-- Every step of a thread keeps the invariant. -/
theorem Inv.advance (h : Inv floor s) {i : Input V} (hs : s.advance c t i = some s') :
    ∃ floor', Inv floor' (counted s s') := by
  have hpc := h.threads t
  unfold Client.advance at hs
  cases hth : s.threads t with
  | idle =>
    rw [hth] at hs
    cases hs
  | acquiring task =>
    rw [hth] at hs hpc
    dsimp only at hs
    split_ifs at hs with hfree
    obtain rfl := Option.some.inj hs
    refine ⟨floor, h.move (.sending task) rfl (h.floor_le.trans (Nat.le_succ _)) h.completed
      h.entries (fun r hr => .inl hr) ⟨Nat.le_succ _, fun _ _ _ hc => hc⟩ ?_
      (fun _ _ => .inl ⟨rfl, rfl⟩) ⟨TaskOk.mono hpc (extends_counted rfl), rfl⟩⟩
    intro u _ hl
    rw [hfree] at hl
    cases hl
  | sending task =>
    rw [hth] at hs hpc
    obtain rfl := Option.some.inj hs
    obtain ⟨htask, hl⟩ := hpc
    have hq := quiet_command (s := s) i.wire (task.mutation.serve c.server)
    refine ⟨floor, h.goto hq (command_threads _ _) ⟨htask.mono (extends_counted hq.completed), ?_, h.floor_le, Nat.le_succ _⟩⟩
    exact hq.lock.trans hl
  | replied task reply ranAt =>
    rw [hth] at hs hpc
    obtain ⟨htask, hl, hle, hsteps⟩ := hpc
    cases reply with
    | error e =>
      cases task with
      | call m =>
        obtain rfl := Option.some.inj hs
        exact ⟨floor, h.released hl trivial⟩
      | store lead value token started =>
        obtain rfl := Option.some.inj hs
        exact ⟨floor, h.released hl (HeldOk.mono htask (extends_counted rfl))⟩
    | ok reply =>
      have hs' : some (Client.goto t (.returning task reply
          (if reply.changed then s.mutationSucceeded else s).mutationGeneration ranAt)
          (if reply.changed then s.mutationSucceeded else s)) = some s' := by
        cases task <;> exact hs
      obtain rfl := Option.some.inj hs'
      cases hc : reply.changed with
      | false =>
        refine ⟨floor, h.goto (.refl s) rfl ⟨htask.mono (extends_counted rfl), hl, ?_, le_rfl, fun _ => hle⟩⟩
        rw [hc]
        intro hfalse
        cases hfalse
      | true =>
        -- the server ran the command at `ranAt`, after every mutation counted before
        refine ⟨ranAt, h.succeeded rfl ⟨Nat.le_succ _, rfl, rfl, rfl, rfl, rfl, fun _ hk => hk⟩ hle
          hsteps (.inr hl) ⟨htask.mono (extends_counted rfl), hl, fun _ => le_rfl, le_rfl, fun _ => le_rfl⟩⟩
  | returning task reply generation ranAt =>
    rw [hth] at hs hpc
    obtain ⟨htask, hl, hchanged, hgen, hf⟩ := hpc
    cases task with
    | call m =>
      obtain rfl := Option.some.inj hs
      exact ⟨floor, h.returned hl hchanged⟩
    | store lead value token started =>
      obtain rfl := Option.some.inj hs
      exact ⟨floor, h.released hl (pcOk_startAdmission
        (HeldOk.mono htask (extends_counted rfl)) hgen hf)⟩
  | polling load stage =>
    rw [hth] at hs
    obtain rfl := Option.some.inj hs
    exact ⟨floor, h.poll i hth⟩
  | looking load =>
    rw [hth] at hs
    obtain rfl := Option.some.inj hs
    exact ⟨floor, h.look i.time hth⟩
  | joining load stale =>
    rw [hth] at hs hpc
    dsimp only at hs
    split at hs
    · obtain rfl := Option.some.inj hs
      exact ⟨floor, h.goto (.refl s) rfl ⟨hpc.1.trans (Nat.le_succ _), fun held hh => by cases hh⟩⟩
    · obtain rfl := Option.some.inj hs
      exact ⟨floor, h.goto ⟨le_rfl, rfl, rfl, rfl, rfl, rfl, fun _ hk => hk⟩ rfl
        (HeldOk.mono hpc (extends_counted rfl))⟩
  | waiting load flight =>
    rw [hth] at hs
    dsimp only at hs
    split_ifs at hs
    obtain rfl := Option.some.inj hs
    exact ⟨floor, h.goto (.refl s) rfl trivial⟩
  | leading lead =>
    rw [hth] at hs hpc
    obtain rfl := Option.some.inj hs
    exact ⟨floor, h.goto (.refl s) rfl ⟨HeldOk.mono hpc (extends_counted rfl), le_rfl⟩⟩
  | leasing lead expected =>
    rw [hth] at hs hpc
    obtain ⟨hlead, hle⟩ := hpc
    have hq := quiet_command (s := s) i.wire (lease c.server lead.load.key)
    have hthreads := command_threads (s := s) i.wire (lease c.server lead.load.key)
    dsimp only at hs
    rcases hcmd : s.command i.wire (lease c.server lead.load.key) with ⟨e | result, s₁⟩ <;>
      rw [hcmd] at hs hq hthreads <;> obtain rfl := Option.some.inj hs
    · exact ⟨floor, h.goto hq hthreads (HeldOk.mono hlead (extends_counted hq.completed))⟩
    · refine ⟨floor, h.goto hq hthreads ⟨HeldOk.mono hlead (extends_counted hq.completed), ?_, fun _ => h.floor_le⟩⟩
      exact hle.trans hq.generation.ge
  | leased lead expected started result ranAt =>
    rw [hth] at hs hpc
    obtain rfl := Option.some.inj hs
    obtain ⟨hlead, hle, hf⟩ := hpc
    exact ⟨floor, h.goto (.refl s) rfl (pcOk_afterLease i (HeldOk.mono hlead (extends_counted rfl)) hle hf)⟩
  | admitting lead a result =>
    rw [hth] at hs hpc
    obtain ⟨hlead, hle, hf⟩ := hpc
    dsimp only at hs
    rcases hr : admitIfGeneration c lead.load.key a i.time s with ⟨e | b, s₁⟩ <;> rw [hr] at hs <;>
      obtain rfl := Option.some.inj hs
    · have := h.admitted (c := c) (t := t) lead.load.key i.time hf (.failing lead e)
        (HeldOk.mono hlead (extends_counted (admitIfGeneration_completed _ _ _)))
      rw [hr] at this
      exact ⟨floor, this⟩
    · have := h.admitted (c := c) (t := t) lead.load.key i.time hf (.concluding lead result)
        (HeldOk.mono hlead (extends_counted (admitIfGeneration_completed _ _ _)))
      rw [hr] at this
      exact ⟨floor, this⟩
  | loading lead token =>
    rw [hth] at hs hpc
    dsimp only at hs
    split at hs <;> obtain rfl := Option.some.inj hs
    · exact ⟨floor, h.goto (.refl s) rfl (HeldOk.mono hpc (extends_counted rfl))⟩
    · exact ⟨floor, h.goto (.refl s) rfl (HeldOk.mono hpc (extends_counted rfl))⟩
  | failing lead e =>
    rw [hth] at hs hpc
    obtain rfl := Option.some.inj hs
    exact ⟨floor, h.error e i hpc⟩
  | concluding lead result =>
    rw [hth] at hs
    obtain rfl := Option.some.inj hs
    exact ⟨floor, h.goto (quiet_finish _ _ _) rfl trivial⟩

theorem Inv.step (h : Inv floor s) {move : Move V} (hs : move.step c s = some s') :
    ∃ floor', Inv floor' s' := by
  obtain ⟨e, he, rfl⟩ := Option.map_eq_some_iff.mp hs
  cases move with
  | environment call =>
    obtain rfl := Option.some.inj he
    have hq : Quiet s (counted s { s with server := call.run c.server s.server }) :=
      ⟨Nat.le_succ _, rfl, rfl, rfl, rfl, rfl, fun _ hk => hk⟩
    refine ⟨floor, h.quiet (t := 0) (s.threads 0) (Function.update_eq_self 0 s.threads).symm hq ?_⟩
    exact (h.threads 0).mono hq.extends (fun hl => hl) (.inl ⟨rfl, rfl⟩)
  | mutate t m =>
    unfold Move.effect at he
    dsimp only at he
    split at he
    · obtain rfl := Option.some.inj he
      exact ⟨floor, h.goto (.refl s) rfl trivial⟩
    · cases he
  | getOrLoad t key policy =>
    unfold Move.effect at he
    dsimp only at he
    split at he
    · obtain rfl := Option.some.inj he
      exact ⟨floor, h.goto (.refl s) rfl ⟨Nat.le_succ _, fun held hh => by cases hh⟩⟩
    · cases he
  | advance t i => exact h.advance he

end Client

theorem Interleaving.inv {s : Client V} (h : Interleaving c s) : ∃ floor, s.Inv floor := by
  induction h with
  | init => exact ⟨0, .init⟩
  | step _ move hs ih =>
    obtain ⟨floor, hinv⟩ := ih
    exact hinv.step hs

/-- In every interleaving of threads, a `get_or_load` that starts after a mutation has
returned with a reply that reports a change answers from the local cache only with values
that were read from or written to the server no earlier than that mutation took effect. -/
theorem local_answers_follow_mutations {s : Client V} (h : Interleaving c s) {m : Completed V}
    (hm : m ∈ s.completed) (hchanged : m.reply.changed = true) {r : Served V} (hr : r ∈ s.served)
    (hlater : m.returnedAt < r.startedAt) : m.tookEffectAt ≤ r.obtainedAt := by
  obtain ⟨floor, hinv⟩ := h.inv
  exact (hinv.served r hr).2 m hm hchanged hlater

/-! ## Two interleavings -/

def smallClient : ClientConfig String where
  server := Engine.smallConfig
  limits := ⟨10, 1000, String.utf8ByteSize, by decide⟩
  invalidationPollSeconds := 1000
  invalidationEpoch := "e"

def smallPolicy : CachePolicy := ⟨60, 60, [], true⟩

/-- The next `n` steps of a thread, at time zero. -/
def turns (t : Thread) (n : ℕ) : List (Move String) :=
  List.replicate n (.advance t ⟨0, 0, .delivered, .ok ""⟩)

/-- A value is written to the server and read into the local cache. -/
def fillMoves : List (Move String) :=
  .mutate 0 (.put "a" "1" none none [] none) :: turns 0 4 ++
    .getOrLoad 1 "a" smallPolicy :: turns 1 8

def readMoves : List (Move String) := .getOrLoad 2 "a" smallPolicy :: turns 2 2

theorem local_answers_follow_put : ∃ (s : Client String) (m : Completed String) (r : Served String),
    Interleaving smallClient s ∧ m ∈ s.completed ∧ m.reply.changed = true ∧ r ∈ s.served ∧
      m.returnedAt < r.startedAt ∧ m.tookEffectAt ≤ r.obtainedAt := by
  have hrun : ((Move.runAll smallClient (fillMoves ++ readMoves) .init).map fun s =>
      (s.completed, s.served)) =
      some ([⟨.put "a" "1" none none [] none, .ok, 2, 4⟩], [⟨"a", "1", 14, 10⟩]) := by
    decide +kernel
  obtain ⟨s, hs, heq⟩ := Option.map_eq_some_iff.mp hrun
  obtain ⟨hc, hv⟩ := Prod.mk.inj heq
  have hi : Interleaving smallClient s := Interleaving.init.run hs
  have hm : (⟨.put "a" "1" none none [] none, .ok, 2, 4⟩ : Completed String) ∈ s.completed := by
    rw [hc]
    exact List.mem_singleton_self _
  have hr : (⟨"a", "1", 14, 10⟩ : Served String) ∈ s.served := by
    rw [hv]
    exact List.mem_singleton_self _
  have hlater : 4 < 14 := by decide
  exact ⟨s, _, _, hi, hm, rfl, hr, hlater, local_answers_follow_mutations hi hm rfl hr hlater⟩

/-- The server evicts the key on its own, and the client deletes it. -/
def evictMoves : List (Move String) :=
  [.environment (.storage (.put "b" "2" none none [] none false)),
    .environment (.storage (.put "c" "3" none none [] none false)),
    .mutate 0 (.delete ["a"])] ++ turns 0 4

/-- A deletion that finds nothing on the server leaves the local entry in place. -/
theorem deleted_key_served_locally :
    ∃ (s : Client String) (m : Completed String) (r : Served String),
      Interleaving smallClient s ∧ m ∈ s.completed ∧ m.mutation = .delete ["a"] ∧ r ∈ s.served ∧
        r.key = "a" ∧ m.returnedAt < r.startedAt ∧ r.obtainedAt < m.tookEffectAt := by
  have hrun : ((Move.runAll smallClient (fillMoves ++ evictMoves ++ readMoves) .init).map fun s =>
      (s.completed, s.served)) =
      some ([⟨.delete ["a"], .integer 0, 18, 20⟩, ⟨.put "a" "1" none none [] none, .ok, 2, 4⟩],
        [⟨"a", "1", 21, 10⟩]) := by
    decide +kernel
  obtain ⟨s, hs, heq⟩ := Option.map_eq_some_iff.mp hrun
  obtain ⟨hc, hv⟩ := Prod.mk.inj heq
  have hi : Interleaving smallClient s := Interleaving.init.run hs
  refine ⟨s, ⟨.delete ["a"], .integer 0, 18, 20⟩, ⟨"a", "1", 21, 10⟩, hi, ?_, rfl, ?_, rfl, ?_, ?_⟩
  · rw [hc]
    exact List.mem_cons_self
  · rw [hv]
    exact List.mem_singleton_self _
  · decide
  · decide

end MegaCache.Sdk
