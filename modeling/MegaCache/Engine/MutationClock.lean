import MegaCache.Engine.Acceptance
import MegaCache.Engine.Refinement

/-!
# The invalidation cursor

`MutationClock` wraps a storage and counts the calls that changed it.  A client that
polls the counter may keep its copies as long as the counter stands still, so a call
that changes what can be read must move it.
-/

namespace MegaCache

/-- A storage and the number of mutations noticed so far. -/
structure MutationClock (V : Type) where
  storage : Engine V
  generation : ℕ

abbrev ClockM (V : Type) := Prog (MutationClock V) PyError

namespace MutationClock

open Prog Engine

variable {V : Type} (c : EngineConfig V)

def init : MutationClock V := ⟨Engine.init, 0⟩

def invalidationCursor (t : MutationClock V) : ℕ := t.generation

/-- A call passed on to the storage, as `__getattr__` does for most of them. -/
def forward {α : Type} (m : EngineM V α) : ClockM V α :=
  fun t => ((m t.storage).1, { t with storage := (m t.storage).2 })

/-- `_changed`. -/
def changed : ClockM V Unit := modify fun t => { t with generation := t.generation + 1 }

/-- A call that is counted when it returns a result that `counts`. -/
def counting {α : Type} (counts : α → Bool) (m : EngineM V α) : ClockM V α := do
  let result ← forward m
  if counts result then changed else pure ()
  pure result

def put (key : Key) (value : V) (ttlSeconds staleSeconds : Option ℤ) (tags : List Tag)
    (leaseToken : Option String) (persistent : Bool) : ClockM V (CacheResult V) :=
  counting (fun _ => true)
    (Engine.put c key value ttlSeconds staleSeconds tags leaseToken persistent)

def mset (values : List (Key × V)) : ClockM V Unit :=
  counting (fun _ => true) (Engine.mset c values)

def delete (key : Key) : ClockM V Bool := counting id (Engine.delete key)

def deleteMany (keys : List Key) : ClockM V ℕ := counting (· ≠ 0) (Engine.deleteMany keys)

def expire (key : Key) (ttlSeconds : ℤ) : ClockM V Bool :=
  counting id (Engine.expire c key ttlSeconds)

def flush : ClockM V ℕ := counting (· ≠ 0) Engine.flush

def invalidateTags (tags : List Tag) : ClockM V ℕ :=
  counting (· ≠ 0) (Engine.invalidateTags tags)

def restoreEntries (entries : List (StorageEntry V)) : ClockM V ℕ :=
  counting (· ≠ 0) (Engine.restoreEntries c entries)

/-- A call of `StorageBackend`; the last three do not reach the stored data otherwise. -/
inductive BackendCall (V : Type)
  | storage (op : Call V)
  | coordinate (key : Key) (loaded : Except PyError V)
  | observeRequest
  | prometheusMetrics

/-- The wrapper after a call, whichever way it ended. -/
def BackendCall.run : BackendCall V → MutationClock V → MutationClock V
  | .storage (.put key value ttlSeconds staleSeconds tags leaseToken persistent), t =>
    (put c key value ttlSeconds staleSeconds tags leaseToken persistent t).2
  | .storage (.mset values), t => (mset c values t).2
  | .storage (.delete key), t => (delete key t).2
  | .storage (.deleteMany keys), t => (deleteMany keys t).2
  | .storage (.expire key ttlSeconds), t => (expire c key ttlSeconds t).2
  | .storage .flush, t => (flush t).2
  | .storage (.invalidateTags tags), t => (invalidateTags tags t).2
  | .storage (.restoreEntries entries), t => (restoreEntries c entries t).2
  -- every other call goes through `__getattr__`
  | .storage op, t => { t with storage := op.run c t.storage }
  -- the leader of a flight that nobody else has registered
  | .coordinate key loaded, t =>
    (forward (do validateKey key; fromExcept loaded : EngineM V V) t).2
  -- the request counters are not part of the stored data
  | .observeRequest, t => t
  | .prometheusMetrics, t => (forward (stats c) t).2

/-! ## Calls that the cursor may overlook -/

variable {c}

/-- Whether `_validate_key` accepts the key. -/
def ValidKey (key : Key) : Prop := ¬(key = "" ∨ 1024 < key.length)

instance (key : Key) : Decidable (ValidKey key) := by
  unfold ValidKey
  infer_instance

/-- No entry is held for the key, or one that some clock reading showed expired. -/
def Dead (c : EngineConfig V) (s : Engine V) (key : Key) : Prop :=
  ∀ e, s.entries.get? key = some e → ∃ i < s.ticks, e.staleUntil ≤ (c.clock i : Deadline)

/-- The next clock reading finds an entry of the key within its deadlines. -/
def Live (c : EngineConfig V) (s : Engine V) (key : Key) : Prop :=
  ∃ e, s.entries.get? key = some e ∧ (c.clock s.ticks : Deadline) < e.staleUntil

instance (s : Engine V) (key : Key) : Decidable (Live c s key) :=
  decidable_of_iff ((s.entries.get? key).any fun e => (c.clock s.ticks : Deadline) < e.staleUntil)
    (by simp [Live, Option.any_eq_true])

/-- Every pair is admitted beside the leases that the writes before it leave. -/
def AllAdmitted (c : EngineConfig V) : Engine V → List (Key × V) → Prop
  | _, [] => True
  | s, item :: values =>
    Admits c s item.1 item.2 none none [] true ∧ AllAdmitted c (removeLease item.1 s) values

/-- Every edit but writing, dropping and rescheduling entries. -/
def passive : Permit V :=
  { (Permit.anything : Permit V) with
    drop := fun _ => False
    store := fun _ _ => False
    update := fun _ f => ∀ e, (f e).written = e.written }

theorem passive_le_sparing (k : Key) : (passive : Permit V).Le (Permit.sparing k) where
  touch _ h := h
  expire _ h := h
  drop _ h := h.elim
  store _ _ h := h.elim
  update _ _ h := .inr h
  lapse _ h := h
  release _ h := h
  grant _ _ h := h
  renew _ h := h

theorem nothing_le_passive : (Permit.nothing : Permit V).Le passive := Permit.nothing_le _

/-- The storage offers what it offered before, less what expired or was evicted. -/
def Quiet (c : EngineConfig V) (s s' : Engine V) : Prop := ∀ k, Spared c k s s'

theorem Quiet.of_edits {s s' : Engine V} (h : Edits c passive s s') : Quiet c s s' :=
  fun k => Spared.edits (h.mono (passive_le_sparing k))

theorem Quiet.trans {s s' s'' : Engine V} (h : Quiet c s s') (h' : Quiet c s' s'')
    (ht : s'.ticks ≤ s''.ticks) : Quiet c s s'' := by
  intro k
  have h₁ := h k
  have h₂ := h' k
  refine ⟨h₁.evictions_le.trans h₂.evictions_le, ?_⟩
  rcases h₂.entry with he | ⟨hn, hev | ⟨e, i, hg, hi, hd⟩⟩
  · exact (h₁.frame he h₂.evictions_le ht).entry
  · exact .inr ⟨hn, .inl (h₁.evictions_le.trans_lt hev)⟩
  · -- what expired in the second half was there at the beginning
    rcases h₁.entry with hs | ⟨hn', _⟩
    · rw [hg, Option.map_some, eq_comm, Option.map_eq_some_iff] at hs
      obtain ⟨e₀, he₀, hw⟩ := hs
      have hsame : e₀.staleUntil = e.staleUntil := congrArg Written.staleUntil hw
      exact .inr ⟨hn, .inr ⟨e₀, i, he₀, hi, hsame ▸ hd⟩⟩
    · rw [hg] at hn'
      cases hn'

/-! ## Bulk calls -/

theorem delete_invalid {key : Key} (h : ¬ValidKey key) (s : Engine V) :
    Engine.delete key s =
      (.error (valueError "key must contain between 1 and 1024 characters"), s) := by
  have hk : key = "" ∨ 1024 < key.length := not_not.mp h
  simp [Engine.delete, validateKey, hk, run_bind]

theorem delete_valid {key : Key} (h : ValidKey key) (s : Engine V) :
    Engine.delete key s = (.ok (s.entries.get? key).isSome, (deleteLocked key s).2) := by
  have hk : ¬(key = "" ∨ 1024 < key.length) := h
  simp [Engine.delete, validateKey, hk, run_bind, deleteLocked]

theorem deleteLocked_entries (key : Key) (s : Engine V) :
    (deleteLocked key s).2.entries = s.entries.erase key := by
  simp only [deleteLocked]
  split <;> simp

theorem deleteLocked_ticks (key : Key) (s : Engine V) :
    (deleteLocked key s).2.ticks = s.ticks := by
  simp only [deleteLocked]
  split <;> simp

theorem Dead.delete {key k : Key} {s : Engine V} (h : Dead c s k) :
    Dead c (deleteLocked key s).2 k := by
  intro e he
  rw [deleteLocked_entries, OrderedDict.get?_erase] at he
  rw [deleteLocked_ticks]
  split_ifs at he
  exact h e he

theorem deleteAll_ok {keys : List Key} (h : ∀ k ∈ keys, ValidKey k) (s : Engine V) :
    ∃ l s', collect Engine.delete keys s = (.ok l, s') := by
  induction keys generalizing s with
  | nil => exact ⟨[], s, rfl⟩
  | cons key keys ih =>
    obtain ⟨l, s', hl⟩ := ih (fun k hk => h k (List.mem_cons_of_mem _ hk)) (deleteLocked key s).2
    refine ⟨(s.entries.get? key).isSome :: l, s', ?_⟩
    rw [collect, run_bind_ok (delete_valid (h key List.mem_cons_self) s), run_bind_ok hl]
    rfl

theorem msetCheck_ok {item : Key × V} {s s' : Engine V} (h : msetCheck c item s = (.ok (), s')) :
    s' = s := by
  rw [msetCheck, bind_eq_ok] at h
  obtain ⟨_, s₁, hkey, h⟩ := h
  rw [bind_eq_ok] at h
  obtain ⟨n, s₂, hn, h⟩ := h
  obtain ⟨rfl, _⟩ := validateKey_ok hkey
  obtain ⟨rfl, -⟩ := entrySize_ok hn
  split_ifs at h
  · simp [run_bind] at h
  · exact (by simpa using h : s₂ = s').symm

theorem forEach_msetCheck_ok {values : List (Key × V)} {s s' : Engine V}
    (h : forEach (msetCheck c) values s = (.ok (), s')) :
    s' = s ∧ ∀ item ∈ values, (msetCheck c item s).1 = .ok () := by
  induction values generalizing s with
  | nil => exact ⟨(by simpa [forEach] using h : s = s').symm, by simp⟩
  | cons item values ih =>
    rw [forEach, bind_eq_ok] at h
    obtain ⟨⟨⟩, s₁, hitem, h⟩ := h
    obtain rfl := msetCheck_ok hitem
    obtain ⟨rfl, hrest⟩ := ih h
    refine ⟨rfl, ?_⟩
    intro q hq
    rcases List.mem_cons.mp hq with rfl | hq
    · rw [hitem]
    · exact hrest q hq

theorem AllAdmitted.congr {values : List (Key × V)} {s s' : Engine V} (h : AllAdmitted c s values)
    (hl : s'.leases = s.leases) (hb : s'.leaseBytes = s.leaseBytes) : AllAdmitted c s' values := by
  induction values generalizing s s' with
  | nil => trivial
  | cons item values ih =>
    refine ⟨h.1.congr hl hb, ih h.2 ?_ ?_⟩
    · rw [removeLease_leases, removeLease_leases, hl]
    · simp only [removeLease, hl]
      split <;> simp [hb]

/-- An accepted `put` takes the key's lease and no other. -/
theorem put_leases {key : Key} {value : V} {ttlSeconds staleSeconds : Option ℤ} {tags : List Tag}
    {token : Option String} {persistent : Bool} {s s' : Engine V} {r : CacheResult V}
    (hs : Sound c s)
    (h : Engine.put c key value ttlSeconds staleSeconds tags token persistent s = (.ok r, s')) :
    s'.leases = (removeLease key s).leases ∧ s'.leaseBytes = (removeLease key s).leaseBytes := by
  obtain ⟨p, s₁, _, _, hed, hl⟩ := put_ok hs h
  have hleases : s'.leases = (removeLease key s).leases := by
    rw [lookup_eq, Prod.mk.injEq] at hl
    rw [← hl.2, lookupAt_leases]
    change s₁.leases = _
    rw [leases_edits_nothing hed]
    simp [Engine.written, storeEntry_leases]
  have hs' : Sound c s' := sound_put key value ttlSeconds staleSeconds tags token persistent |>.run h hs
  have hrem : Accounts (removeLease key s) := hs.accounts.removeLease key
  exact ⟨hleases, by rw [hs'.accounts.leaseBytes_eq, hrem.leaseBytes_eq, hleases]⟩

theorem forEach_msetWrite_ok {values : List (Key × V)} {s : Engine V} (hs : Sound c s)
    (h : AllAdmitted c s values) : ∃ s', forEach (msetWrite c) values s = (.ok (), s') := by
  induction values generalizing s with
  | nil => exact ⟨s, rfl⟩
  | cons item values ih =>
    obtain ⟨r, s₁, hput⟩ := (put_ok_iff hs).mpr h.1
    obtain ⟨hl, hb⟩ := put_leases hs hput
    have hs₁ : Sound c s₁ := (sound_put _ _ _ _ _ _ _).run hput hs
    obtain ⟨s', hrest⟩ := ih hs₁ (h.2.congr hl hb)
    refine ⟨s', ?_⟩
    have hwrite : msetWrite c item s = (.ok (), s₁) := by
      rw [msetWrite, run_bind_ok hput]
      rfl
    rw [forEach, run_bind_ok hwrite, hrest]

theorem lookup_state_of_live {key : Key} {count : Bool} {s s' : Engine V} {r : CacheResult V}
    (h : Live c s key) (hl : lookup c key count s = (.ok r, s')) : r.state ≠ .miss := by
  obtain ⟨e, he, hlt⟩ := h
  rw [lookup_eq, Prod.mk.injEq, Except.ok.injEq] at hl
  rw [← hl.1, lookupAt_result]
  simp only [he, Option.map_some, resultAt, Entry.written, not_le.mpr hlt, ↓reduceIte]
  split <;> simp

/-- A call the cursor has not overlooked: it moved, or nothing readable was changed. -/
structure Noticed (c : EngineConfig V) (t t' : MutationClock V) : Prop where
  cursor_le : t.invalidationCursor ≤ t'.invalidationCursor
  ticks_le : t.storage.ticks ≤ t'.storage.ticks
  quiet : t'.invalidationCursor = t.invalidationCursor → Quiet c t.storage t'.storage

theorem Noticed.trans {t t' t'' : MutationClock V} (h : Noticed c t t') (h' : Noticed c t' t'') :
    Noticed c t t'' := by
  have h₁ := h.cursor_le
  have h₂ := h'.cursor_le
  refine ⟨h₁.trans h₂, h.ticks_le.trans h'.ticks_le, fun he => ?_⟩
  exact (h.quiet (by omega)).trans (h'.quiet (by omega)) h'.ticks_le

theorem Noticed.of_edits {t t' : MutationClock V} (hg : t'.generation = t.generation)
    (h : Edits c passive t.storage t'.storage) : Noticed c t t' :=
  ⟨hg.ge, h.ticks_le, fun _ => .of_edits h⟩

theorem counting_run {α : Type} (counts : α → Bool) (m : EngineM V α) (t : MutationClock V) :
    (counting counts m t).2 = match m t.storage with
      | (.ok a, s) => ⟨s, if counts a then t.generation + 1 else t.generation⟩
      | (.error _, s) => ⟨s, t.generation⟩ := by
  unfold counting
  rcases hm : m t.storage with ⟨e | a, s⟩
  · have hf : forward m t = (.error e, ⟨s, t.generation⟩) := by simp [forward, hm]
    rw [run_bind_error hf]
  · have hf : forward m t = (.ok a, ⟨s, t.generation⟩) := by simp [forward, hm]
    rw [run_bind_ok hf]
    cases hc : counts a <;> simp [run_bind, changed, hc]

/-- A counted call is noticed if it changes nothing readable when it is not counted. -/
theorem Noticed.counting {α : Type} {counts : α → Bool} {m : EngineM V α} {t : MutationClock V}
    (ht : t.storage.ticks ≤ (m t.storage).2.ticks)
    (hok : ∀ a s, m t.storage = (.ok a, s) → counts a = false → Quiet c t.storage s)
    (herr : ∀ e s, m t.storage = (.error e, s) → Edits c passive t.storage s) :
    Noticed c t (counting counts m t).2 := by
  rw [counting_run]
  rcases hm : m t.storage with ⟨e | a, s⟩ <;> rw [hm] at ht
  · exact .of_edits rfl (herr e s hm)
  · refine ⟨?_, ht, ?_⟩
    · change t.generation ≤ if counts a then t.generation + 1 else t.generation
      split <;> omega
    · intro he
      refine hok a s hm ?_
      cases hc : counts a with
      | false => rfl
      | true =>
        change (if counts a then t.generation + 1 else t.generation) = t.generation at he
        simp [hc] at he

theorem Call.ticks_le (op : Call V) (s : Engine V) : s.ticks ≤ (op.run c s).ticks := by
  by_cases hf : op = .flush
  · subst hf
    exact le_rfl
  · exact (op.edits hf s).ticks_le

variable {t : MutationClock V}

/-- A call acts on the storage as it does without the wrapper. -/
theorem BackendCall.sound (call : BackendCall V) (hs : Sound c t.storage) :
    Sound c (call.run c t).storage := by
  have hcount : ∀ {α : Type} (counts : α → Bool) (m : EngineM V α),
      Sound c (m t.storage).2 → Sound c (counting counts m t).2.storage := by
    intro α counts m h
    rw [counting_run]
    rcases hm : m t.storage with ⟨e | a, s⟩ <;> rw [hm] at h <;> exact h
  cases call with
  | storage op =>
    have h := op.sound hs
    cases op with
    | put | mset | delete | deleteMany | expire | flush | invalidateTags | restoreEntries =>
      exact hcount _ _ h
    | _ => exact h
  | coordinate key loaded =>
    exact hs.edits Permit.nothing_shrinking
      (Rel.bind (edits_validateKey key) (fun _ => Rel.fromExcept loaded) _)
  | observeRequest => exact hs
  | prometheusMetrics => exact Call.sound .stats hs

theorem BackendCall.cursor_le (call : BackendCall V) :
    t.invalidationCursor ≤ (call.run c t).invalidationCursor := by
  have hcount : ∀ {α : Type} (counts : α → Bool) (m : EngineM V α),
      t.generation ≤ (counting counts m t).2.generation := by
    intro α counts m
    rw [counting_run]
    rcases m t.storage with ⟨e | a, s⟩
    · exact le_rfl
    · dsimp only
      split <;> omega
  cases call with
  | storage op =>
    cases op with
    | put | mset | delete | deleteMany | expire | flush | invalidateTags | restoreEntries =>
      exact hcount _ _
    | _ => exact le_rfl
  | _ => exact le_rfl

/-! ## Runs -/

/-- The wrappers that runs of calls lead to. -/
inductive Reachable (c : EngineConfig V) : MutationClock V → Prop
  | init : Reachable c init
  | step {t : MutationClock V} (h : Reachable c t) (call : BackendCall V) :
      Reachable c (call.run c t)

theorem Reachable.sound (h : Reachable c t) : Sound c t.storage := by
  induction h with
  | init => exact Sound.init c
  | step _ call ih => exact call.sound ih

def runAll (c : EngineConfig V) (calls : List (BackendCall V)) (t : MutationClock V) :
    MutationClock V := calls.foldl (fun t call => call.run c t) t

end MutationClock
end MegaCache
