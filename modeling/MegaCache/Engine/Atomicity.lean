import MegaCache.Engine.MutationClock

/-!
# Bulk calls that raise

`mset` checks the size of every pair before it writes any, but `put` also counts the memory that
leases reserve, so a later write can be refused behind earlier ones.  `delete_many` checks each
key when its turn comes.
-/

namespace MegaCache
namespace Engine

open Prog
open MutationClock (ValidKey AllAdmitted delete_valid delete_invalid deleteLocked_entries
  msetCheck_ok forEach_msetCheck_ok forEach_msetWrite_ok put_leases deleteAll_ok)

variable {V : Type} {c : EngineConfig V} {s s' : Engine V}

/-- Everything is as before, except for the counter of rejected entries. -/
structure Untouched (s s' : Engine V) : Prop where
  entries : s'.entries = s.entries
  tags : s'.tags = s.tags
  leases : s'.leases = s.leases
  usedBytes : s'.usedBytes = s.usedBytes
  leaseBytes : s'.leaseBytes = s.leaseBytes
  metrics : ∀ m, m ≠ .rejectedEntries → s'.metrics.get? m = s.metrics.get? m

instance : Std.Refl (Untouched (V := V)) := ⟨fun _ => ⟨rfl, rfl, rfl, rfl, rfl, fun _ _ => rfl⟩⟩

instance : IsTrans (Engine V) (Untouched (V := V)) where
  trans _ _ _ h h' :=
    ⟨h'.entries.trans h.entries, h'.tags.trans h.tags, h'.leases.trans h.leases,
      h'.usedBytes.trans h.usedBytes, h'.leaseBytes.trans h.leaseBytes,
      fun m hm => (h'.metrics m hm).trans (h.metrics m hm)⟩

theorem untouched_rejected (s : Engine V) : Untouched s (s.bump .rejectedEntries 1) where
  entries := rfl
  tags := rfl
  leases := rfl
  usedBytes := rfl
  leaseBytes := rfl
  metrics m hm := by
    change (s.metrics.set .rejectedEntries _).get? m = _
    rw [OrderedDict.get?_set, if_neg hm]

theorem Checks.untouched {α : Type} {m : EngineM V α} (h : Checks m) : Rel Untouched m := by
  obtain ⟨x, rfl⟩ := h
  exact Rel.fromExcept x

theorem Checks.preserves {α : Type} {m : EngineM V α} (h : Checks m) {I : Engine V → Prop} :
    Rel (Preserves I) m := by
  obtain ⟨x, rfl⟩ := h
  exact Rel.fromExcept x

theorem untouched_preparePut (key : Key) (value : V) (ttlSeconds staleSeconds : Option ℤ)
    (tags : List Tag) (persistent : Bool) :
    Rel Untouched (preparePut c key value ttlSeconds staleSeconds tags persistent true) := by
  have hreject : Rel Untouched (modify (countIf true .rejectedEntries) : EngineM V Unit) :=
    Rel.modify untouched_rejected
  refine Rel.bind (checks_validateKey key).untouched fun _ => ?_
  refine Rel.bind (checks_putWindows _ _ _).untouched fun _ => ?_
  refine Rel.bind (checks_normalizeTags _).untouched fun _ => ?_
  refine Rel.bind (checks_snapshotValue _).untouched fun _ => ?_
  refine Rel.bind (checks_entrySize _ _ _).untouched fun _ => ?_
  refine Rel.ite (fun _ => Rel.bind hreject fun _ => Rel.throw _) fun _ => ?_
  exact Rel.ite (fun _ => Rel.bind hreject fun _ => Rel.throw _) fun _ => Rel.pure _

/-- A refused write without a lease token changes nothing. -/
theorem untouched_put_error {key : Key} {value : V} {ttlSeconds staleSeconds : Option ℤ}
    {tags : List Tag} {persistent : Bool} {e : PyError} (hs : Sound c s)
    (h : put c key value ttlSeconds staleSeconds tags none persistent s = (.error e, s')) :
    Untouched s s' := by
  rw [put, bind_eq_error] at h
  rcases h with h | ⟨p, s₀, hp, h⟩
  · exact (untouched_preparePut _ _ _ _ _ _).run h
  · obtain ⟨rfl, -⟩ := preparePut_ok hp
    have htick : Sound c { s₀ with ticks := s₀.ticks + 1 } :=
      hs.edits Permit.nothing_shrinking (Edits.one (.tick s₀))
    change putLocked c key none persistent p (c.clock s₀.ticks)
      { s₀ with ticks := s₀.ticks + 1 } = (.error e, s') at h
    rcases putLocked_cases key none persistent p htick.accounts htick.bounded
        ⟨s₀.ticks, Nat.lt_succ_self _, rfl⟩ with
      ⟨e₁, s₁, h₁, -, -, hcap⟩ | ⟨r₁, s₁, s₂, h₁, -⟩
    · -- the write is refused for the memory, before anything is stored
      have hrun : putLocked c key none persistent p (c.clock s₀.ticks)
          { s₀ with ticks := s₀.ticks + 1 } =
          (.error (valueError "entry exceeds available cache memory"),
            bump .rejectedEntries 1 { s₀ with ticks := s₀.ticks + 1 }) := by
        simp [putLocked, checkLease, run_bind, hcap rfl]
      rw [hrun, Prod.mk.injEq] at h
      have htick' : Untouched s₀ { s₀ with ticks := s₀.ticks + 1 } :=
        ⟨rfl, rfl, rfl, rfl, rfl, fun _ _ => rfl⟩
      rw [← h.2]
      exact trans_of Untouched htick' (untouched_rejected _)
    · rw [h₁] at h
      cases h

theorem untouched_msetCheck (item : Key × V) : Rel Untouched (msetCheck c item) := by
  refine Rel.bind (checks_validateKey _).untouched fun _ => ?_
  refine Rel.bind (checks_entrySize _ _ _).untouched fun _ => ?_
  exact Rel.ite (fun _ => Rel.bind (Rel.modify untouched_rejected) fun _ => Rel.throw _)
    fun _ => Rel.pure _

/-! ## Writes leave a trace -/

/-- The value of a counter. -/
def counter (m : Metric) (s : Engine V) : ℕ := (s.metrics.get? m).getD 0

theorem counter_bump (m n : Metric) (a : ℕ) (s : Engine V) :
    counter m (s.bump n a) = if m = n then counter m s + a else counter m s := by
  unfold counter bump
  rw [OrderedDict.get?_set]
  split_ifs with h
  · subst h
    rfl
  · rfl

theorem counter_removeEntry (m : Metric) (key : Key) (s : Engine V) :
    counter m (removeEntry key s) = counter m s := by
  unfold counter
  rw [removeEntry_metrics]

theorem counter_edits {p : Permit V} (h : Edits c p s s') (m : Metric) :
    counter m s ≤ counter m s' := by
  refine Edits.keep (I := fun u => counter m s ≤ counter m u) ?_ h le_rfl
  intro u u' hu hle
  cases hu with
  | bump n a =>
    rw [counter_bump]
    split_ifs <;> omega
  | evict hm hv =>
    rw [counter_bump, counter_removeEntry]
    split_ifs <;> omega
  | update hp hf =>
    refine hle.trans (le_of_eq ?_)
    unfold counter updateEntry
    split <;> rfl
  | _ => simpa [counter, storeEntry] using hle

/-- An accepted write is counted. -/
theorem counter_put {key : Key} {value : V} {ttlSeconds staleSeconds : Option ℤ} {tags : List Tag}
    {token : Option String} {persistent : Bool} {r : CacheResult V} (hs : Sound c s)
    (h : put c key value ttlSeconds staleSeconds tags token persistent s = (.ok r, s')) :
    counter .writes s < counter .writes s' := by
  obtain ⟨p, s₁, -, -, hed, hl⟩ := put_ok hs h
  have hwritten : counter .writes (Engine.written key p persistent (c.clock s.ticks)
      { s with ticks := s.ticks + 1 }) = counter .writes s + 1 := by
    rw [Engine.written, counter_bump, if_pos rfl]
    simp [counter, storeEntry]
  have hevicted := counter_edits hed .writes
  have hread : Edits c (Permit.readsOf key) s₁ s' := (edits_lookup false rfl rfl).run hl
  have hlookup := counter_edits hread .writes
  omega

theorem edits_msetWrites (values : List (Key × V)) :
    Rel (Edits c Permit.anything) (forEach (msetWrite c) values) :=
  Rel.forEach fun item _ =>
    Rel.bind (edits_put (Permit.anything_writes item.1) _ _ _ _ _ _) fun _ => Rel.pure _

/-- A loop of writes that returns has been admitted at every turn. -/
theorem allAdmitted_of_writes {values : List (Key × V)} (hs : Sound c s)
    (h : forEach (msetWrite c) values s = (.ok (), s')) : AllAdmitted c s values := by
  induction values generalizing s with
  | nil => trivial
  | cons item values ih =>
    rw [forEach, bind_eq_ok] at h
    obtain ⟨⟨⟩, s₁, hwrite, hrest⟩ := h
    rw [msetWrite, bind_eq_ok] at hwrite
    obtain ⟨r, s₂, hput, hpure⟩ := hwrite
    obtain rfl : s₂ = s₁ := by simpa using hpure
    obtain ⟨hl, hb⟩ := put_leases hs hput
    have hs₁ : Sound c s₂ := (sound_put _ _ _ _ _ _ _).run hput hs
    exact ⟨(put_ok_iff hs).mp ⟨r, s₂, hput⟩, (ih hs₁ hrest).congr hl.symm hb.symm⟩

theorem forEach_msetCheck_run {values : List (Key × V)}
    (h : ∀ item ∈ values, (msetCheck c item s).1 = .ok ()) :
    forEach (msetCheck c) values s = (.ok (), s) := by
  induction values with
  | nil => rfl
  | cons item values ih =>
    have hitem : msetCheck c item s = (.ok (), s) := by
      rcases hrun : msetCheck c item s with ⟨e | ⟨⟩, s₁⟩
      · have hok := h item List.mem_cons_self
        rw [hrun] at hok
        cases hok
      · rw [msetCheck_ok hrun]
    rw [forEach, run_bind_ok hitem]
    exact ih fun q hq => h q (List.mem_cons_of_mem item hq)

/-- When a raising `mset` leaves no trace. -/
theorem mset_untouched_iff {values : List (Key × V)} (hs : Sound c s) :
    (∀ e s', mset c values s = (.error e, s') → Untouched s s') ↔
      (∃ item ∈ values, (msetCheck c item s).1 ≠ .ok ()) ∨
        (∀ item ∈ values.head?, ¬Admits c s item.1 item.2 none none [] true) ∨
          AllAdmitted c s values := by
  constructor
  · intro h
    by_contra hcon
    push Not at hcon
    obtain ⟨hchecks, ⟨item, hhead, hfirst⟩, hall⟩ := hcon
    obtain ⟨rest, rfl⟩ : ∃ rest, values = item :: rest := List.head?_eq_some_iff.mp hhead
    -- the first pair is written, and a later one is refused
    obtain ⟨r, s₁, hput⟩ := (put_ok_iff hs).mpr hfirst
    have hwrite : msetWrite c item s = (.ok (), s₁) := by
      rw [msetWrite, run_bind_ok hput]
      rfl
    have hcheck := forEach_msetCheck_run hchecks
    rcases hrest : forEach (msetWrite c) rest s₁ with ⟨e | ⟨⟩, s'⟩
    · have hrun : mset c (item :: rest) s = (.error e, s') := by
        rw [mset, run_bind_ok hcheck, forEach, run_bind_ok hwrite, hrest]
      have hkept := (h e s' hrun).metrics .writes (by decide)
      have hgrows := counter_put hs hput
      have hmono := counter_edits ((edits_msetWrites rest).run hrest) .writes
      have hsame : counter .writes s' = counter .writes s := congrArg (Option.getD · 0) hkept
      omega
    · have hwrites : forEach (msetWrite c) (item :: rest) s = (.ok (), s') := by
        rw [forEach, run_bind_ok hwrite, hrest]
      exact hall (allAdmitted_of_writes hs hwrites)
  · intro hcond e s' h
    rw [mset, bind_eq_error] at h
    rcases h with h | ⟨⟨⟩, s₁, hcheck, h⟩
    · exact (Rel.forEach fun item _ => untouched_msetCheck item : Rel Untouched _).run h
    · obtain ⟨rfl, hok⟩ := forEach_msetCheck_ok hcheck
      rcases hcond with ⟨item, hi, hbad⟩ | hfirst | hall
      · exact absurd (hok item hi) hbad
      · cases values with
        | nil => cases h
        | cons item values =>
          rw [forEach, bind_eq_error] at h
          rcases h with h | ⟨⟨⟩, s₂, h₂, _⟩
          · rw [msetWrite, bind_eq_error] at h
            rcases h with h | ⟨r, s₂, _, h⟩
            · exact untouched_put_error hs h
            · cases h
          · rw [msetWrite, bind_eq_ok] at h₂
            obtain ⟨r, s₃, hput, _⟩ := h₂
            exact absurd ((put_ok_iff hs).mp ⟨r, s₃, hput⟩) (hfirst item rfl)
      · obtain ⟨u, hu⟩ := forEach_msetWrite_ok hs hall
        rw [hu] at h
        cases h

/-! ## Bulk deletions -/

/-- Nothing is stored or leased under the key. -/
def Vacant (s : Engine V) (key : Key) : Prop :=
  s.entries.get? key = none ∧ s.leases.get? key = none

theorem deleteLocked_leases (key : Key) (s : Engine V) :
    (deleteLocked key s).2.leases = s.leases.erase key := by
  simp only [deleteLocked]
  split <;> simp

theorem deleteLocked_vacant {key : Key} (h : Vacant s key) : (deleteLocked key s).2 = s := by
  simp [deleteLocked, removeEntry_of_none h.1, removeLease_of_none h.2, h.1]

theorem Vacant.deleteLocked {k : Key} (h : Vacant s k) (key : Key) :
    Vacant (deleteLocked key s).2 k := by
  constructor
  · rw [deleteLocked_entries, OrderedDict.get?_erase, h.1, ite_self]
  · rw [deleteLocked_leases, OrderedDict.get?_erase, h.2, ite_self]

theorem vacant_delete (key k : Key) :
    Rel (Preserves fun u : Engine V => Vacant u k) (delete key) :=
  Rel.bind (checks_validateKey key).preserves fun _ _ h => h.deleteLocked key

/-- Deletions leave nothing under the valid keys in front. -/
theorem collect_delete_vacant (keys : List Key) (s : Engine V) :
    ∀ k ∈ keys.takeWhile (fun k => ValidKey k), Vacant (collect delete keys s).2 k := by
  induction keys generalizing s with
  | nil => simp
  | cons key keys ih =>
    by_cases hk : ValidKey key
    · rw [List.takeWhile_cons_of_pos (by simpa using hk)]
      have hgone : Vacant (Engine.deleteLocked key s).2 key := by
        constructor
        · rw [deleteLocked_entries, OrderedDict.get?_erase, if_pos rfl]
        · rw [deleteLocked_leases, OrderedDict.get?_erase, if_pos rfl]
      have hstate : (collect delete (key :: keys) s).2 =
          (collect delete keys (Engine.deleteLocked key s).2).2 := by
        rw [collect, run_bind_ok (delete_valid hk s), run_bind_pure]
      rw [hstate]
      intro k hm
      rcases List.mem_cons.mp hm with rfl | hm
      · exact (Rel.collect fun key _ => vacant_delete key k :
          Rel (Preserves fun u : Engine V => Vacant u k) _) _ hgone
      · exact ih _ k hm
    · rw [List.takeWhile_cons_of_neg (by simpa using hk)]
      simp

/-- Deletions of keys with nothing under them change nothing. -/
theorem collect_delete_idle {keys : List Key} {s : Engine V}
    (h : ∀ k ∈ keys.takeWhile (fun k => ValidKey k), Vacant s k) :
    (collect delete keys s).2 = s := by
  induction keys with
  | nil => rfl
  | cons key keys ih =>
    by_cases hk : ValidKey key
    · rw [List.takeWhile_cons_of_pos (by simpa using hk)] at h
      rw [collect, run_bind_ok (delete_valid hk s), run_bind_pure,
        deleteLocked_vacant (h key List.mem_cons_self)]
      exact ih fun k hm => h k (List.mem_cons_of_mem key hm)
    · rw [collect, run_bind_error (delete_invalid hk s)]

theorem collect_delete_error {keys : List Key} (h : ∃ k ∈ keys, ¬ValidKey k) (s : Engine V) :
    ∃ e s', collect delete keys s = (.error e, s') := by
  induction keys generalizing s with
  | nil => simp at h
  | cons key keys ih =>
    by_cases hk : ValidKey key
    · have hrest : ∃ k ∈ keys, ¬ValidKey k := by simpa [hk] using h
      obtain ⟨e, s', hrun⟩ := ih hrest (Engine.deleteLocked key s).2
      refine ⟨e, s', ?_⟩
      rw [collect, run_bind_ok (delete_valid hk s), run_bind_error hrun]
    · exact ⟨_, s, run_bind_error (delete_invalid hk s) _⟩

/-- When a raising `delete_many` leaves no trace. -/
theorem deleteMany_untouched_iff {keys : List Key} :
    (∀ e s', deleteMany keys s = (.error e, s') → Untouched s s') ↔
      (∀ k ∈ keys, ValidKey k) ∨ ∀ k ∈ keys.takeWhile (fun k => ValidKey k), Vacant s k := by
  constructor
  · intro h
    by_cases hall : ∀ k ∈ keys, ValidKey k
    · exact .inl hall
    · push Not at hall
      obtain ⟨e, s', hrun⟩ := collect_delete_error hall s
      have hsame := h e s' (by rw [deleteMany, run_bind_error hrun])
      refine .inr fun k hk => ?_
      have hvacant := collect_delete_vacant keys s k hk
      rw [hrun] at hvacant
      exact ⟨by rw [← hsame.entries, hvacant.1], by rw [← hsame.leases, hvacant.2]⟩
  · rintro (hall | hvacant) e s' h <;> rw [deleteMany, bind_eq_error] at h
    · obtain ⟨l, u, hrun⟩ := deleteAll_ok hall s
      rw [hrun] at h
      simp at h
    · rcases h with h | ⟨l, u, -, h⟩
      · have hidle := collect_delete_idle hvacant
        rw [h] at hidle
        rw [show s' = s from hidle]
        exact refl_of Untouched s
      · cases h

/-- A bulk call that raises leaves the stored data, the tag index and the leases as they were
exactly when it is refused before its first pair, or finds nothing under the keys before the
invalid one. -/
theorem bulk_calls_atomic {s : Session V} (hr : Reachable c s) :
    (∀ values, (∀ e s', mset c values s.engine = (.error e, s') → Untouched s.engine s') ↔
      (∃ item ∈ values, (msetCheck c item s.engine).1 ≠ .ok ()) ∨
        (∀ item ∈ values.head?, ¬Admits c s.engine item.1 item.2 none none [] true) ∨
          AllAdmitted c s.engine values) ∧
    (∀ keys, (∀ e s', deleteMany keys s.engine = (.error e, s') → Untouched s.engine s') ↔
      (∀ k ∈ keys, ValidKey k) ∨
        ∀ k ∈ keys.takeWhile (fun k => ValidKey k), Vacant s.engine k) :=
  ⟨fun _ => mset_untouched_iff hr.inv.sound, fun _ => deleteMany_untouched_iff⟩

/-- Room for one small entry beside one lease. -/
def narrowConfig : EngineConfig String where
  maxEntries := 2
  defaultTtlSeconds := 60
  defaultStaleSeconds := 60
  leaseSeconds := 30
  maxMemoryBytes := 200
  maxEntryBytes := 200
  evictionPolicy := .lru
  clock n := n
  tokenUrlsafe n := String.ofList (List.replicate (n + 1) 't')
  evictionScore _ _ := 0
  codec := textCodec
  positive := by decide
  clock_mono := ticking_mono

/-- The only call so far took a lease. -/
def leasedSession : Session String :=
  Session.apply narrowConfig ⟨init, []⟩ (.call (.acquireLease "x" false))

theorem leasedSession_reachable : Reachable narrowConfig leasedSession :=
  Reachable.init.step _ (by decide)

/-- The second pair fits by itself, but not beside the lease of another key. -/
theorem mset_keeps_first_pair : Reachable narrowConfig leasedSession ∧
    (mset narrowConfig [("a", "1"), ("b", "22222222")] leasedSession.engine).1 =
      .error (valueError "entry exceeds available cache memory") ∧
    leasedSession.engine.entries.keys = [] ∧
    (mset narrowConfig [("a", "1"), ("b", "22222222")] leasedSession.engine).2.entries.keys =
      ["a"] :=
  ⟨leasedSession_reachable, by decide, by decide, by decide⟩

theorem bulk_calls_atomic_leased :
    Untouched leasedSession.engine
      (mset narrowConfig [("b", "222222222222222222222")] leasedSession.engine).2 ∧
    Untouched leasedSession.engine (deleteMany ["a", ""] leasedSession.engine).2 := by
  obtain ⟨hmset, hdelete⟩ := bulk_calls_atomic leasedSession_reachable
  refine ⟨?_, ?_⟩
  · refine (hmset [("b", "222222222222222222222")]).mpr (.inr (.inl ?_))
      (valueError "entry exceeds available cache memory") _ ?_
    · intro item hitem
      obtain rfl : ("b", "222222222222222222222") = item := by simpa using hitem
      unfold Admits
      decide
    · exact Prod.ext (by decide) rfl
  · refine (hdelete ["a", ""]).mpr (.inr ?_)
      (valueError "key must contain between 1 and 1024 characters") _ ?_
    · have hfront : (["a", ""] : List Key).takeWhile (fun k => ValidKey k) = ["a"] := by
        decide
      rw [hfront]
      intro k hk
      obtain rfl : k = "a" := by simpa using hk
      exact ⟨by decide, by decide⟩
    · exact Prod.ext (by decide) rfl

end Engine
end MegaCache
