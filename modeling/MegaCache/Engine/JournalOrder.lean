import MegaCache.Engine.Evictions

/-!
# The order behind a rollback

A rollback puts the entries that the mutation took out back in front.  The order of the entries
is what it was exactly when they came from there: under `cost` a victim may come from the middle,
and a restore takes out whatever has expired.
-/

namespace MegaCache
namespace Engine

open Prog

variable {V : Type} {c : EngineConfig V} {s₀ s s' : Engine V} {key : Key} {handle : ℕ}
  {j : MutationCheckpoint V}

/-! ## Rolling back -/

theorem rollback_entries_erase (hj : Journaling s₀ key handle s j) :
    ((rollback j s).entries.erase key).keys =
      j.evictedEntries.map Prod.fst ++ (s.entries.erase key).keys := by
  have hback : (rollback j s).entries.erase key = (othersRestored j s).entries.erase key := by
    change (restoreJournaled j (othersRestored j s)).entries.erase key = _
    unfold restoreJournaled
    cases j.entry with
    | none => rfl
    | some e =>
      dsimp only
      cases j.predecessor with
      | none => rw [hj.key_eq, OrderedDict.erase_setFirst]
      | some a => rw [hj.key_eq, OrderedDict.erase_setAfter]
  have hothers : (othersRestored j s).entries.get? key = none := by
    rw [get?_othersRestored hj, OrderedDict.get?_erase_self]
  rw [hback, OrderedDict.erase_eq_self hothers, OrderedDict.keys, othersRestored_entries hj,
    List.map_append]
  rfl

theorem orderKept_iff (hj : Journaling s₀ key handle s j) : OrderKept s₀ s key j ↔
    j.evictedEntries.map Prod.fst ++ (s.entries.erase key).keys = (s₀.entries.erase key).keys := by
  have hkeys : (othersRestored j s).entries.keys =
      j.evictedEntries.map Prod.fst ++ (s.entries.erase key).keys := by
    rw [OrderedDict.keys, othersRestored_entries hj, List.map_append]
    rfl
  rw [OrderKept, ← othersRestored_entries hj, ← hkeys]
  constructor
  · intro h
    rw [OrderedDict.keys, OrderedDict.keys, h]
  · intro h
    rw [OrderedDict.ext_keys h (get?_othersRestored hj)]

/-- The order of the entries comes back exactly when the ones taken out stood before the others
that stayed. -/
theorem rollback_keys_iff (hj : Journaling s₀ key handle s j) :
    (rollback j s).entries.keys = s₀.entries.keys ↔ OrderKept s₀ s key j := by
  constructor
  · intro h
    rw [orderKept_iff hj, ← rollback_entries_erase hj, OrderedDict.keys_erase,
      OrderedDict.keys_erase, h]
  · intro h
    rw [rollback_entries hj h]

theorem restoreMutationCheckpoint_run (hj : Journaling s₀ key handle s j) :
    (restoreMutationCheckpoint handle s).2 = rollback j s := by
  have hv := validateActiveMutation_ok hj.active
  rw [hj.handle_eq] at hv
  rw [restoreMutationCheckpoint, run_bind_ok hv]
  rfl

/-- With every entry still there nothing has been journaled. -/
theorem evictedEntries_of_entries (hj : Journaling s₀ key handle s j)
    (h : s.entries = s₀.entries) : j.evictedEntries = [] := by
  refine List.eq_nil_iff_forall_not_mem.mpr fun q hq => ?_
  obtain ⟨-, hthere, hgone⟩ := hj.evicted q hq
  rw [h, hthere] at hgone
  cases hgone

theorem orderKept_of_entries (hj : Journaling s₀ key handle s j) (h : s.entries = s₀.entries) :
    OrderKept s₀ s key j := by
  rw [OrderKept, evictedEntries_of_entries hj h, h, List.nil_append]

/-! ## Evictions -/

/-- Whatever a round takes out, the key aside, is the first of the other entries left. -/
inductive TakesFront (c : EngineConfig V) (key : Key) : Engine V → Prop
  | done {s : Engine V} (h : ¬overLimit c s) : TakesFront c key s
  | round {s : Engine V} {k : Key} (ho : overLimit c s) (hk : chosen c s = some k)
      (hfront : k ≠ key → (s.entries.erase key).keys.head? = some k)
      (h : TakesFront c key (evicted c k s)) : TakesFront c key s

theorem cons_eq_iff_head {K : Type} [DecidableEq K] {k : K} {l rest : List K} (h : l.Nodup) :
    k :: rest = l ↔ l.head? = some k ∧ rest = l.filter (· ≠ k) := by
  cases l with
  | nil => simp
  | cons a l =>
    obtain ⟨hnot, -⟩ := List.nodup_cons.mp h
    have hfilter : l.filter (· ≠ a) = l := by
      refine List.filter_eq_self.mpr fun b hb => ?_
      have hne : b ≠ a := fun he => hnot (he ▸ hb)
      simpa using hne
    rw [List.head?_cons, Option.some.injEq, List.cons.injEq, eq_comm (a := k)]
    refine and_congr_right ?_
    rintro rfl
    rw [List.filter_cons_of_neg (by simp), hfilter]

theorem Evicts.takesFront_iff {keys : List Key} (h : Evicts c s keys s') (key : Key) :
    TakesFront c key s ↔
      keys.filter (· ≠ key) ++ (s'.entries.erase key).keys = (s.entries.erase key).keys := by
  induction h with
  | done ho => exact ⟨fun _ => rfl, fun _ => .done ho⟩
  | @round s s' k keys ho hk h ih =>
    have hstep : TakesFront c key s ↔
        (k ≠ key → (s.entries.erase key).keys.head? = some k) ∧ TakesFront c key (evicted c k s) := by
      constructor
      · rintro (⟨ho'⟩ | ⟨-, hk', hfront, hrest⟩)
        · exact absurd ho ho'
        · obtain rfl : k = _ := Option.some.inj (hk.symm.trans hk')
          exact ⟨hfront, hrest⟩
      · exact fun ⟨hfront, hrest⟩ => .round ho hk hfront hrest
    rw [hstep, ih, evicted_entries]
    by_cases hown : k = key
    · subst hown
      simp [OrderedDict.erase_erase]
    · rw [List.filter_cons_of_pos (by simpa using hown), List.cons_append,
        cons_eq_iff_head (OrderedDict.nodup_keys _), OrderedDict.erase_comm,
        OrderedDict.keys_erase _ k]
      exact and_congr_left' ⟨fun hfront => hfront hown, fun hfront _ => hfront⟩

/-- The victims other than the key join the journal, in their turn. -/
theorem Evicts.journal {keys : List Key} (h : Evicts c s keys s')
    (hj : Journaling s₀ key handle s j) : ∃ j', Journaling s₀ key handle s' j' ∧
      j'.evictedEntries.map Prod.fst = j.evictedEntries.map Prod.fst ++ keys.filter (· ≠ key) := by
  induction h generalizing j with
  | done => exact ⟨j, hj, by simp⟩
  | @round s s' k keys ho hk h ih =>
    have htick : Journaling s₀ key handle { s with ticks := roundTicks c s } j :=
      hj.frame rfl (fun _ _ => rfl) fun _ _ => rfl
    by_cases hown : k = key
    · subst hown
      have hnext : Journaling s₀ k handle (evicted c k s) j :=
        htick.removeOwn.frame rfl (fun _ _ => rfl) fun _ _ => rfl
      obtain ⟨j', hj', hkeys⟩ := ih hnext
      exact ⟨j', hj', by rw [hkeys, List.filter_cons_of_neg (by simp)]⟩
    · obtain ⟨e, he⟩ := OrderedDict.mem_keys.mp (chosen_mem hk)
      have hnext : Journaling s₀ key handle (evicted c k s)
          { j with evictedEntries := j.evictedEntries ++ [(k, e)] } :=
        (htick.removeOther hown he).frame rfl (fun _ _ => rfl) fun _ _ => rfl
      obtain ⟨j', hj', hkeys⟩ := ih hnext
      refine ⟨j', hj', ?_⟩
      rw [hkeys, List.filter_cons_of_pos (by simpa using hown)]
      simp

/-! ## Writes -/

/-- A lookup of the journaled key leaves the others and the journal alone. -/
theorem Journaling.lookup {r : CacheResult V} (hj : Journaling s₀ key handle s j)
    (h : lookup c key false s = (.ok r, s')) :
    Journaling s₀ key handle s' j ∧ s'.entries.erase key = s.entries.erase key := by
  rw [lookup_eq, Prod.mk.injEq] at h
  rw [← h.2]
  refine ⟨?_, lookupAt_erase _ _ _ _⟩
  have htick : Journaling s₀ key handle { s with ticks := s.ticks + 1 } j :=
    hj.frame rfl (fun _ _ => rfl) fun _ _ => rfl
  unfold lookupAt
  split
  · exact htick
  · next e he =>
    split
    · exact htick.removeOwn
    · have hmoved : Journaling s₀ key handle { s with
          ticks := s.ticks + 1
          entries := s.entries.setLast key (touched false (c.clock s.ticks) e) } j := by
        refine htick.frame rfl (fun k hk => ?_) fun _ _ => rfl
        rw [OrderedDict.get?_setLast, if_neg hk]
      dsimp only
      split <;> exact hmoved

theorem Journaling.written (hj : Journaling s₀ key handle s j) (p : PreparedPut V)
    (persistent : Bool) (now : ℚ) :
    Journaling s₀ key handle (written key p persistent now s) j ∧
      (written key p persistent now s).entries.erase key = s.entries.erase key := by
  constructor
  · exact (hj.storeEntry _).removeLease.frame rfl (fun _ _ => rfl) fun _ _ => rfl
  · rw [written_entries, OrderedDict.erase_setLast]

/-- When the rollback of a write gives the order back. -/
theorem put_orderKept_iff (hs : Sound c s) (hj : Journaling s₀ key handle s j)
    (hentries : s.entries = s₀.entries) (value : V) (ttlSeconds staleSeconds : Option ℤ)
    (tags : List Tag) (token : Option String) (persistent : Bool) : ∃ j', Journaling s₀ key handle
        (put c key value ttlSeconds staleSeconds tags token persistent s).2 j' ∧
      (OrderKept s₀ (put c key value ttlSeconds staleSeconds tags token persistent s).2 key j' ↔
        ∀ p, AcceptsPut c s key value ttlSeconds staleSeconds tags token persistent p →
          TakesFront c key (Engine.written key p persistent (c.clock s.ticks)
            { s with ticks := s.ticks + 1 })) := by
  rcases hput : put c key value ttlSeconds staleSeconds tags token persistent s with ⟨e | r, s'⟩
  · have hpermit : (Permit.lapseOf key : Permit V).Le (Permit.journaled key) :=
      { Permit.nothing_le _ with lapse := fun _ h => h }
    have hed : Edits c (Permit.journaled key) s s' := (put_error hs hput).mono hpermit
    obtain ⟨j', hj'⟩ := Journaling.edits hed ⟨j, hj⟩
    obtain ⟨-, hsame⟩ := put_refused hs hput
    refine ⟨j', hj', fun _ p hp => ?_, fun _ => orderKept_of_entries hj' (hsame.trans hentries)⟩
    obtain ⟨r, u, hok⟩ := put_accepted hs hp
    rw [hput] at hok
    cases hok
  · obtain ⟨p, keys, s₁, haccepts, hevicts, hlook⟩ := put_evicts hput
    have htick : Journaling s₀ key handle { s with ticks := s.ticks + 1 } j :=
      hj.frame rfl (fun _ _ => rfl) fun _ _ => rfl
    obtain ⟨hwritten, hothers⟩ := htick.written p persistent (c.clock s.ticks)
    obtain ⟨j₁, hj₁, hkeys⟩ := hevicts.journal hwritten
    obtain ⟨hj', herase⟩ := hj₁.lookup hlook
    have hempty := evictedEntries_of_entries hj hentries
    refine ⟨j₁, hj', ?_⟩
    rw [orderKept_iff hj', hkeys, hempty, List.map_nil, List.nil_append, herase]
    have hfront := hevicts.takesFront_iff key
    rw [hothers] at hfront
    change _ ↔ _ = (s.entries.erase key).keys at hfront
    rw [← hentries, ← hfront]
    constructor
    · intro h q hq
      obtain rfl : p = q := by simpa [haccepts.prepared] using hq.prepared
      exact h
    · exact fun h => h p haccepts

/-! ## Restores -/

/-- The entry has passed its stale deadline. -/
def Lapsed (now : ℚ) (q : Key × Entry V) : Prop := q.2.staleUntil ≤ (now : Deadline)

instance (now : ℚ) : DecidablePred (Lapsed (V := V) now) := fun q => by
  unfold Lapsed
  infer_instance

theorem filter_append_filter_iff {α : Type} (p : α → Prop) [DecidablePred p] (l : List α) :
    l.filter p ++ l.filter (fun a => ¬p a) = l ↔ l.Pairwise fun a b => p b → p a := by
  induction l with
  | nil => simp
  | cons a l ih =>
    rw [List.pairwise_cons, ← ih]
    by_cases ha : p a
    · simp [ha]
    · have hfront : ∀ front rest : List α, (∀ b ∈ front, p b) →
          (front ++ a :: rest = a :: l ↔ front = [] ∧ rest = l) := by
        intro front rest hall
        cases front with
        | nil => simp
        | cons b front =>
          have hb : b ≠ a := fun he => ha (he ▸ hall b List.mem_cons_self)
          simp [hb]
      rw [List.filter_cons_of_neg (by simpa using ha), List.filter_cons_of_pos (by simpa using ha),
        hfront _ _ fun b hb => by simpa using (List.mem_filter.mp hb).2]
      constructor
      · rintro ⟨hnone, hrest⟩
        have hnot : ∀ b ∈ l, ¬p b := by simpa [List.filter_eq_nil_iff] using hnone
        exact ⟨fun b hb hpb => absurd hpb (hnot b hb), by rw [hnone, hrest, List.nil_append]⟩
      · rintro ⟨hnot, hsplit⟩
        have hnone : l.filter p = [] := by
          simpa [List.filter_eq_nil_iff] using fun b hb hpb => ha (hnot b hb hpb)
        rw [hnone, List.nil_append] at hsplit
        exact ⟨hnone, hsplit⟩

/-- A purge takes the expired entries out and journals them in their order, the key aside. -/
theorem purge_journal {now : ℚ} (l : List (Key × Entry V)) (hn : (l.map Prod.fst).Nodup)
    (hl : ∀ q ∈ l, s.entries.get? q.1 = some q.2) (hj : Journaling s₀ key handle s j) :
    ∃ j', Journaling s₀ key handle
        (l.foldl (fun s q => if q.2.staleUntil ≤ (now : Deadline) then removeEntry q.1 s else s) s) j' ∧
      j'.evictedEntries = j.evictedEntries ++ l.filter (fun q => Lapsed now q ∧ q.1 ≠ key) ∧
      (l.foldl (fun s q => if q.2.staleUntil ≤ (now : Deadline) then removeEntry q.1 s else s)
        s).entries.toList = s.entries.toList.filter fun q => q.1 ∉ (l.filter fun q => Lapsed now q).map Prod.fst := by
  induction l generalizing s j with
  | nil => exact ⟨j, hj, by simp, by simp⟩
  | cons q l ih =>
    rw [List.map_cons, List.nodup_cons] at hn
    have hq := hl q List.mem_cons_self
    rw [List.foldl_cons]
    by_cases hd : q.2.staleUntil ≤ (now : Deadline)
    · have hheld : ∀ r ∈ l, (removeEntry q.1 s).entries.get? r.1 = some r.2 := by
        intro r hr
        have hne : r.1 ≠ q.1 := fun he => hn.1 (he ▸ List.mem_map_of_mem hr)
        rw [removeEntry_entries, OrderedDict.get?_erase, if_neg hne]
        exact hl r (List.mem_cons_of_mem q hr)
      have hlist : ∀ gone : List Key,
          (removeEntry q.1 s).entries.toList.filter (fun r => r.1 ∉ gone) =
            s.entries.toList.filter fun r => r.1 ∉ q.1 :: gone := by
        intro gone
        rw [removeEntry_entries]
        simp only [OrderedDict.erase, List.filter_filter]
        refine List.filter_congr fun r _ => ?_
        simp [Bool.and_comm]
      have hgone : ((q :: l).filter fun q => Lapsed now q) = q :: l.filter fun q => Lapsed now q :=
        List.filter_cons_of_pos (decide_eq_true (show Lapsed now q from hd))
      rw [if_pos hd, hgone, List.map_cons, ← hlist]
      by_cases hk : q.1 = key
      · have hown : Journaling s₀ key handle (removeEntry q.1 s) j := by
          rw [hk]
          exact hj.removeOwn
        obtain ⟨j', hj', hev, hrest⟩ := ih hn.2 hheld hown
        refine ⟨j', hj', ?_, hrest⟩
        rw [hev, List.filter_cons_of_neg (by simp [hk])]
      · obtain ⟨j', hj', hev, hrest⟩ := ih hn.2 hheld (hj.removeOther hk hq)
        refine ⟨j', hj', ?_, hrest⟩
        rw [hev, List.filter_cons_of_pos (by simpa [Lapsed, hk] using hd)]
        simp
    · have hlive : ((q :: l).filter fun q => Lapsed now q) = l.filter fun q => Lapsed now q :=
        List.filter_cons_of_neg (mt of_decide_eq_true hd)
      have hlive' : ((q :: l).filter fun q => Lapsed now q ∧ q.1 ≠ key) =
          l.filter fun q => Lapsed now q ∧ q.1 ≠ key :=
        List.filter_cons_of_neg (by simp [Lapsed, hd])
      rw [if_neg hd, hlive, hlive']
      exact ih hn.2 (fun r hr => hl r (List.mem_cons_of_mem q hr)) hj

theorem Checks.forEach {α : Type} {body : α → EngineM V Unit} (h : ∀ x, Checks (body x))
    (xs : List α) : Checks (forEach body xs) := by
  induction xs with
  | nil => exact .pure ()
  | cons x xs ih => exact .bind (h x) fun _ => ih

theorem Checks.collect {α β : Type} {body : α → EngineM V β} (h : ∀ x, Checks (body x))
    (xs : List α) : Checks (collect body xs) := by
  induction xs with
  | nil => exact .pure []
  | cons x xs ih => exact .bind (h x) fun _ => .bind ih fun _ => .pure _

theorem checks_snapshotDuration (value : Option ℚ) (name : String) :
    Checks (snapshotDuration (V := V) value name) := by
  unfold snapshotDuration
  split
  · exact .throw _
  · exact .ite (.throw _) (.pure _)

theorem checks_prepareRestoreOne (item : StorageEntry V) : Checks (prepareRestoreOne c item) := by
  refine .bind (checks_normalizeTags _) fun _ => .bind (checks_snapshotValue _) fun _ => ?_
  refine .bind (.ite (.pure _) (.bind (checks_snapshotDuration _ _) fun _ =>
    .bind (checks_snapshotDuration _ _) fun _ => .pure _)) fun _ => ?_
  exact .ite (.pure _) (.bind (checks_entrySize _ _ _) fun _ => .ite (.throw _) (.pure _))

theorem checks_prepareRestoreEntries (entries : List (StorageEntry V)) :
    Checks (prepareRestoreEntries c entries) :=
  .bind (.forEach (fun item => checks_validateKey item.key) entries) fun _ =>
    .ite (.throw _) (.bind (.collect checks_prepareRestoreOne entries) fun _ => .pure _)

/-- Entries of the journaled key alone are stored. -/
theorem Journaling.restoreAll {now : ℚ} {prepared : List (PreparedRestore V)}
    (hp : ∀ q ∈ prepared, q.key = key) (hj : Journaling s₀ key handle s j) :
    Journaling s₀ key handle (restoreAll now prepared s) j ∧
      (restoreAll now prepared s).entries.erase key = s.entries.erase key := by
  induction prepared generalizing s with
  | nil => exact ⟨hj, rfl⟩
  | cons q prepared ih =>
    have hq := hp q List.mem_cons_self
    have hstep : Journaling s₀ key handle (Engine.storeEntry q.key (restoredEntry now q) s) j := by
      rw [hq]
      exact hj.storeEntry _
    obtain ⟨hrest, herase⟩ := ih (fun r hr => hp r (List.mem_cons_of_mem q hr)) hstep
    refine ⟨hrest, herase.trans ?_⟩
    rw [storeEntry_entries, hq, OrderedDict.erase_setLast]

theorem validatePreparedRestoreCapacity_state (prepared : List (PreparedRestore V)) (s : Engine V) :
    (validatePreparedRestoreCapacity c prepared s).2 = s := by
  rw [validatePreparedRestoreCapacity, run_bind_ok (run_get s)]
  split_ifs <;> rfl

/-- When the rollback of a restore of the journaled key gives the order back. -/
theorem restore_orderKept_iff (hj : Journaling s₀ key handle s j) (hentries : s.entries = s₀.entries)
    {item : StorageEntry V} (hk : item.key = key) :
    ∃ j', Journaling s₀ key handle (restoreEntries c [item] s).2 j' ∧
      (OrderKept s₀ (restoreEntries c [item] s).2 key j' ↔
        (∃ e, (prepareRestoreEntries c [item] s).1 = .error e) ∨
          (s.entries.erase key).toList.Pairwise fun q r =>
            Lapsed (c.clock s.ticks) r → Lapsed (c.clock s.ticks) q) := by
  obtain ⟨x, hx⟩ := checks_prepareRestoreEntries (c := c) [item]
  have hprep : prepareRestoreEntries c [item] s = (x, s) := by rw [hx]; rfl
  rcases x with e | prepared
  · have hrun : restoreEntries c [item] s = (.error e, s) := run_bind_error hprep _
    rw [hrun, hprep]
    exact ⟨j, hj, fun _ => .inl ⟨e, rfl⟩, fun _ => orderKept_of_entries hj hentries⟩
  · obtain ⟨-, hfrom⟩ := prepareRestoreEntries_ok hprep
    have hkeys : ∀ q ∈ prepared, q.key = key := by
      intro q hq
      obtain ⟨i, hi, hr⟩ := hfrom.restores q hq
      rw [hr.key_eq, List.mem_singleton.mp hi, hk]
    set u : Engine V := purgeExpiredEntries (c.clock s.ticks) { s with ticks := s.ticks + 1 }
      with hu
    have htick : Journaling s₀ key handle { s with ticks := s.ticks + 1 } j :=
      hj.frame rfl (fun _ _ => rfl) fun _ _ => rfl
    obtain ⟨j', hj' : Journaling s₀ key handle u j', hev, hlist : u.entries.toList = _⟩ :=
      purge_journal (s := { s with ticks := s.ticks + 1 }) s.entries.toList s.entries.nodup
        (fun q hq => OrderedDict.mem_toList.mp hq) htick
    -- behind the purge only the key itself may change
    obtain ⟨hfinal, herase⟩ : Journaling s₀ key handle (restoreEntries c [item] s).2 j' ∧
        (restoreEntries c [item] s).2.entries.erase key = u.entries.erase key := by
      have hcap := validatePreparedRestoreCapacity_state (c := c) prepared u
      rcases hc : validatePreparedRestoreCapacity c prepared u with ⟨e | ⟨⟩, u'⟩
      · rw [hc] at hcap
        obtain rfl : u' = u := hcap
        have hrun : (restoreEntries c [item] s).2 = u := by
          simp only [restoreEntries, run_bind, hprep, readClock, run_modify, ← hu, hc]
        rw [hrun]
        exact ⟨hj', rfl⟩
      · rw [hc] at hcap
        obtain rfl : u' = u := hcap
        have hrun : (restoreEntries c [item] s).2 =
            Engine.restoreAll (c.clock u.ticks) prepared { u with ticks := u.ticks + 1 } := by
          simp only [restoreEntries, run_bind, hprep, readClock, run_modify, ← hu, hc, run_pure]
          rfl
        rw [hrun]
        exact Journaling.restoreAll hkeys (hj'.frame rfl (fun _ _ => rfl) fun _ _ => rfl)
    refine ⟨j', hfinal, ?_⟩
    have hexpired : j'.evictedEntries =
        (s.entries.erase key).toList.filter fun q => Lapsed (c.clock s.ticks) q := by
      rw [hev, evictedEntries_of_entries hj hentries, List.nil_append]
      simp only [OrderedDict.erase, List.filter_filter]
      refine List.filter_congr fun q _ => ?_
      simp
    have hlive : (u.entries.erase key).toList =
        (s.entries.erase key).toList.filter fun q => ¬Lapsed (c.clock s.ticks) q := by
      simp only [OrderedDict.erase, hlist, List.filter_filter]
      refine List.filter_congr fun q hq => ?_
      have hmem : q.1 ∈ (s.entries.toList.filter fun q => Lapsed (c.clock s.ticks) q).map Prod.fst ↔
          Lapsed (c.clock s.ticks) q := by
        constructor
        · intro hm
          obtain ⟨r, hr, hkey⟩ := List.mem_map.mp hm
          obtain ⟨hr, hlapsed⟩ := List.mem_filter.mp hr
          have hget := OrderedDict.mem_toList.mp hr
          rw [hkey, OrderedDict.mem_toList.mp hq, Option.some.injEq] at hget
          rw [Lapsed, hget]
          exact of_decide_eq_true hlapsed
        · intro hlapsed
          exact List.mem_map_of_mem (List.mem_filter.mpr ⟨hq, decide_eq_true hlapsed⟩)
      simp [hmem, Bool.and_comm]
    rw [OrderKept, ← hentries, herase, hexpired, hlive, eq_comm, filter_append_filter_iff, hprep]
    simp

/-- A journal that is rolled back behind one write, or one restore, of its key gives the order of
the entries back exactly when every victim was the first of the other entries left, or no other
expired entry stood behind a live one. -/
theorem journal_restores_order {s : Session V} (hr : Reachable c s) {s₁ : Engine V}
    (hb : beginMutationCheckpoint key s.engine = (.ok handle, s₁)) :
    (∀ value ttlSeconds staleSeconds tags token persistent,
      (restoreMutationCheckpoint handle (put c key value ttlSeconds staleSeconds tags token
          persistent s₁).2).2.entries.keys = s.engine.entries.keys ↔
        ∀ p, AcceptsPut c s₁ key value ttlSeconds staleSeconds tags token persistent p →
          TakesFront c key (Engine.written key p persistent (c.clock s₁.ticks)
            { s₁ with ticks := s₁.ticks + 1 })) ∧
    ∀ item : StorageEntry V, item.key = key →
      ((restoreMutationCheckpoint handle (restoreEntries c [item] s₁).2).2.entries.keys =
          s.engine.entries.keys ↔
        (∃ e, (prepareRestoreEntries c [item] s₁).1 = .error e) ∨
          (s₁.entries.erase key).toList.Pairwise fun q r =>
            Lapsed (c.clock s₁.ticks) r → Lapsed (c.clock s₁.ticks) q) := by
  have hs := hr.inv.sound
  rcases beginMutationCheckpoint_cases key s.engine with ⟨e, hb'⟩ | ⟨-, hb'⟩ <;>
    rw [hb'] at hb
  · cases hb
  obtain ⟨rfl, rfl⟩ : s.engine.journals = handle ∧ _ = s₁ := by
    simpa only [Prod.mk.injEq, Except.ok.injEq] using hb
  have hopened := Journaling.opened key s.engine
  constructor
  · intro value ttlSeconds staleSeconds tags token persistent
    have hsound : Sound c { s.engine with
        journals := s.engine.journals + 1
        activeMutation := some (openedJournal key s.engine) } := hs.of_data rfl rfl rfl rfl rfl
    obtain ⟨j, hj, hiff⟩ := put_orderKept_iff hsound hopened rfl value ttlSeconds staleSeconds tags
      token persistent
    rw [restoreMutationCheckpoint_run hj, rollback_keys_iff hj, hiff]
  · intro item hk
    obtain ⟨j, hj, hiff⟩ := restore_orderKept_iff (c := c) hopened rfl hk
    rw [restoreMutationCheckpoint_run hj, rollback_keys_iff hj, hiff]

/-- Room for two entries, of which the biggest goes. -/
def pickyConfig : EngineConfig String :=
  { smallConfig with
    evictionPolicy := .cost
    evictionScore := fun entry _ => 1 / entry.sizeBytes }

def pickySession : Session String :=
  ([.call (.put "a" "1" none none [] none false), .call (.put "b" "22" none none [] none false)] :
    List (Event String)).foldl (Session.apply pickyConfig) ⟨init, []⟩

theorem pickySession_reachable : Reachable pickyConfig pickySession :=
  Reachable.init.run _ (by decide +kernel : Session.AllowedRun pickyConfig _ _)

/-- The victim stood behind another entry, and comes back in front of it. -/
theorem rollback_moves_victim : Reachable pickyConfig pickySession ∧
    pickySession.engine.entries.keys = ["a", "b"] ∧
    (restoreMutationCheckpoint 0 (put pickyConfig "c" "3" none none [] none false
      (beginMutationCheckpoint "c" pickySession.engine).2).2).2.entries.keys = ["b", "a"] :=
  ⟨pickySession_reachable, by decide +kernel, by decide +kernel⟩

/-- The full cache of two live entries, with a journal open for a third key. -/
def crowdedOpened : Engine String := (beginMutationCheckpoint "c" crowdedSession.engine).2

theorem crowded_rollback :
    (restoreMutationCheckpoint 0 (restoreEntries smallConfig
      [⟨"c", "3", some 5, some 5, [], false⟩] crowdedOpened).2).2.entries.keys =
        crowdedSession.engine.entries.keys := by
  have hb : beginMutationCheckpoint "c" crowdedSession.engine = (.ok 0, crowdedOpened) :=
    Prod.ext (by decide +kernel) rfl
  obtain ⟨-, hrestore⟩ := journal_restores_order crowdedSession_reachable hb
  exact (hrestore _ rfl).mpr (.inr (by decide +kernel))

end Engine
end MegaCache
