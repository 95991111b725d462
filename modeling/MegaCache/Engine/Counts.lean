import MegaCache.Engine.MutationClock
import MegaCache.Engine.Stock

/-!
# What the removing operations count

`get`, `exists` and `size` look at the deadlines of an entry.  `delete`, `delete_many`,
`invalidate_tags` and `flush` count the entries that they take out, among them those that have
expired since they were last looked up.
-/

namespace MegaCache
namespace Engine

open Prog
open MutationClock (Live ValidKey delete_valid delete_invalid deleteLocked_entries lookup_state_of_live)

variable {V : Type} {c : EngineConfig V} {s s' : Engine V} {key : Key}

/-- An entry of the key is held that the next clock reading finds expired. -/
def Expired (c : EngineConfig V) (s : Engine V) (key : Key) : Prop :=
  ∃ e, s.entries.get? key = some e ∧ e.staleUntil ≤ (c.clock s.ticks : Deadline)

/-- An entry of the key is held that has one of the tags. -/
def Tagged (s : Engine V) (tags : List Tag) (key : Key) : Prop :=
  ∃ e, s.entries.get? key = some e ∧ ∃ tag ∈ tags, tag ∈ e.tags

instance (s : Engine V) (tags : List Tag) (key : Key) : Decidable (Tagged s tags key) :=
  decidable_of_iff ((s.entries.get? key).any fun e => ∃ tag ∈ tags, tag ∈ e.tags)
    (by simp [Tagged, Option.any_eq_true])

theorem not_expired_iff : ¬Expired c s key ↔ (s.entries.get? key).isSome → Live c s key := by
  constructor
  · intro h hsome
    obtain ⟨e, he⟩ := Option.isSome_iff_exists.mp hsome
    exact ⟨e, he, not_le.mp fun hle => h ⟨e, he, hle⟩⟩
  · rintro h ⟨e, he, hle⟩
    obtain ⟨e', he', hlt⟩ := h (by rw [he]; rfl)
    obtain rfl : e = e' := Option.some.inj (he.symm.trans he')
    exact absurd hle (not_le.mpr hlt)

theorem isSome_of_live (h : Live c s key) : (s.entries.get? key).isSome := by
  obtain ⟨e, he, -⟩ := h
  rw [he]
  rfl

/-- A lookup misses unless the key is live. -/
theorem lookup_miss_iff {count : Bool} {r : CacheResult V} (h : lookup c key count s = (.ok r, s')) :
    r.state ≠ .miss ↔ Live c s key := by
  refine ⟨fun hstate => ?_, fun hlive => lookup_state_of_live hlive h⟩
  rw [lookup_result h, lookupAt_result] at hstate
  cases he : s.entries.get? key with
  | none => exact absurd (by rw [he]; rfl) hstate
  | some e =>
    refine ⟨e, he, not_le.mp fun hle => hstate ?_⟩
    have hdead : e.written.staleUntil ≤ (c.clock s.ticks : Deadline) := hle
    rw [he, Option.map_some]
    simp only [resultAt, if_pos hdead]
    rfl

theorem getEntry_valid (hk : ValidKey key) (s : Engine V) : getEntry c key s = lookup c key true s := by
  have hkey : ¬(key = "" ∨ 1024 < key.length) := hk
  rw [getEntry, run_bind]
  simp [validateKey, hkey]

theorem getEntry_invalid (hk : ¬ValidKey key) (s : Engine V) :
    getEntry c key s = (.error (valueError "key must contain between 1 and 1024 characters"), s) := by
  have hkey : key = "" ∨ 1024 < key.length := not_not.mp hk
  rw [getEntry, run_bind]
  simp [validateKey, hkey]

theorem Genuine.validKey {e : Entry V} (h : Genuine c key e) : ValidKey key := by
  unfold ValidKey
  rw [not_or, not_lt]
  exact h.key

/-! ## `delete` -/

theorem delete_counts (hs : Stocked c s) :
    ((∃ s', delete key s = (.ok true, s')) ↔
      ∃ r s', getEntry c key s = (.ok r, s') ∧ r.state ≠ .miss) ↔ ¬Expired c s key := by
  by_cases hk : ValidKey key
  · have hdelete : (∃ s', delete key s = (.ok true, s')) ↔ (s.entries.get? key).isSome := by
      rw [delete_valid hk]
      simp
    have hget : (∃ r s', getEntry c key s = (.ok r, s') ∧ r.state ≠ .miss) ↔ Live c s key := by
      rw [getEntry_valid hk, lookup_eq]
      constructor
      · rintro ⟨r, s', h, hstate⟩
        exact (lookup_miss_iff (lookup_eq key true s ▸ h)).mp hstate
      · intro hlive
        exact ⟨_, _, rfl, lookup_state_of_live hlive (lookup_eq key true s)⟩
    rw [hdelete, hget, not_expired_iff]
    exact ⟨fun h => h.mp, fun h => ⟨h, isSome_of_live⟩⟩
  · -- both calls raise, and no entry has such a key
    rw [delete_invalid hk, getEntry_invalid hk]
    have hnone : ¬Expired c s key := by
      rintro ⟨e, he, -⟩
      exact hk (hs key e he).validKey
    simp [hnone]

/-! ## `delete_many` -/

theorem card_filter_eq_iff {α : Type} {S : Finset α} {P Q : α → Prop} [DecidablePred P]
    [DecidablePred Q] (h : ∀ x, P x → Q x) :
    (S.filter Q).card = (S.filter P).card ↔ ∀ x ∈ S, Q x → P x := by
  have hsub : S.filter P ⊆ S.filter Q := Finset.monotone_filter_right S fun x _ => h x
  constructor
  · intro hcard x hx hq
    have heq := Finset.eq_of_subset_of_card_le hsub hcard.le
    have hmem : x ∈ S.filter P := heq ▸ Finset.mem_filter.mpr ⟨hx, hq⟩
    exact (Finset.mem_filter.mp hmem).2
  · intro hall
    congr 1
    exact Finset.filter_congr fun x hx => ⟨hall x hx, h x⟩

/-- A list of deletions reports each held key once. -/
theorem collect_delete_count {keys : List Key} {l : List Bool}
    (h : collect Engine.delete keys s = (.ok l, s')) :
    l.count true = (keys.toFinset.filter fun k => (s.entries.get? k).isSome).card := by
  induction keys generalizing s l with
  | nil =>
    obtain rfl : l = [] := by simpa [collect, eq_comm] using congrArg Prod.fst h
    rfl
  | cons key keys ih =>
    rw [collect, bind_eq_ok] at h
    obtain ⟨b, s₁, hb, h⟩ := h
    rw [bind_eq_ok] at h
    obtain ⟨bs, s₂, hbs, h⟩ := h
    obtain ⟨rfl, rfl⟩ : b :: bs = l ∧ s₂ = s' := by simpa using h
    by_cases hk : ValidKey key
    · rw [delete_valid hk, Prod.mk.injEq, Except.ok.injEq] at hb
      obtain ⟨rfl, rfl⟩ := hb
      -- what is left after the first deletion are the other held keys
      have hrest : (keys.toFinset.filter fun k => ((deleteLocked key s).2.entries.get? k).isSome) =
          ((key :: keys).toFinset.filter fun k => (s.entries.get? k).isSome).erase key := by
        ext k
        simp only [Finset.mem_filter, List.mem_toFinset, Finset.mem_erase, List.mem_cons,
          deleteLocked_entries, OrderedDict.get?_erase]
        by_cases he : k = key <;> simp [he]
      rw [List.count_cons, ih hbs, hrest]
      by_cases hsome : (s.entries.get? key).isSome
      · have hmem : key ∈ (key :: keys).toFinset.filter fun k => (s.entries.get? k).isSome := by
          simp [hsome]
        rw [Finset.card_erase_of_mem hmem]
        have hpos := Finset.card_pos.mpr ⟨key, hmem⟩
        simp only [hsome, BEq.rfl, ↓reduceIte]
        omega
      · have hnot : key ∉ (key :: keys).toFinset.filter fun k => (s.entries.get? k).isSome := by
          simp [hsome]
        rw [Finset.erase_eq_of_notMem hnot]
        simp [hsome]
    · rw [delete_invalid hk] at hb
      cases hb

theorem deleteMany_counts {keys : List Key} {n : ℕ} (h : deleteMany keys s = (.ok n, s')) :
    n = (keys.toFinset.filter fun key => Live c s key).card ↔ ∀ key ∈ keys, ¬Expired c s key := by
  rw [deleteMany, bind_eq_ok] at h
  obtain ⟨l, s₁, hl, h⟩ := h
  obtain ⟨rfl, -⟩ : l.count true = n ∧ s₁ = s' := by simpa using h
  rw [collect_delete_count hl, card_filter_eq_iff fun _ => isSome_of_live]
  simp only [List.mem_toFinset, not_expired_iff]

/-! ## `invalidate_tags` -/

theorem taggedKeys_toFinset (hi : Indexes s.tags s.entries) (tags : List Tag) :
    (taggedKeys tags s).toFinset = s.entries.keys.toFinset.filter fun key => Tagged s tags key := by
  ext key
  rw [List.mem_toFinset, mem_taggedKeys hi, Finset.mem_filter, List.mem_toFinset]
  constructor
  · rintro ⟨e, he, htag⟩
    exact ⟨OrderedDict.mem_keys.mpr ⟨e, he⟩, e, he, htag⟩
  · exact And.right

theorem invalidateLocked_count (hi : Indexes s.tags s.entries) (tags : List Tag) :
    (invalidateLocked tags s).1 = (s.entries.keys.toFinset.filter fun key => Tagged s tags key).card := by
  have hall : (taggedKeys tags s).countP (fun key => (s.entries.get? key).isSome) =
      (taggedKeys tags s).length := by
    rw [List.countP_eq_length]
    intro key hkey
    obtain ⟨e, he, -⟩ := (mem_taggedKeys hi).mp hkey
    rw [he]
    rfl
  have hnodup : (taggedKeys tags s).Nodup := (List.nodup_dedup _).filter _
  rw [← taggedKeys_toFinset hi, List.toFinset_card_of_nodup hnodup]
  exact hall

theorem invalidateTags_counts (hs : Sound c s) {tags : List Tag} {n : ℕ}
    (h : invalidateTags tags s = (.ok n, s')) :
    n = (s.entries.keys.toFinset.filter fun key => Tagged s tags key ∧ Live c s key).card ↔
      ∀ key, Tagged s tags key → ¬Expired c s key := by
  rw [invalidateTags, bind_eq_ok] at h
  obtain ⟨normalized, s₁, hn, h⟩ := h
  obtain ⟨rfl, rfl, -⟩ := normalizeTags_ok hn
  obtain rfl : (invalidateLocked normalized s₁).1 = n := by
    have := congrArg Prod.fst h
    exact Except.ok.inj this
  rw [invalidateLocked_count hs.accounts.indexes, card_filter_eq_iff fun _ h => h.1]
  constructor
  · intro hall key htag
    have hmem : key ∈ s₁.entries.keys.toFinset := by
      obtain ⟨e, he, -⟩ := htag
      exact List.mem_toFinset.mpr (OrderedDict.mem_keys.mpr ⟨e, he⟩)
    exact not_expired_iff.mpr fun _ => (hall key hmem htag).2
  · intro hall key _ htag
    have hsome : (s₁.entries.get? key).isSome := by
      obtain ⟨e, he, -⟩ := htag
      rw [he]
      rfl
    exact ⟨htag, not_expired_iff.mp (hall key htag) hsome⟩

/-! ## `flush` -/

/-- The entries of a list that have expired when their turn comes, one reading for each. -/
def expiredInTurn (c : EngineConfig V) : ℕ → List (Key × Entry V) → ℕ
  | _, [] => 0
  | n, p :: l => (if p.2.staleUntil ≤ (c.clock n : Deadline) then 1 else 0) + expiredInTurn c (n + 1) l

theorem expiredInTurn_eq_zero {n : ℕ} {l : List (Key × Entry V)} :
    expiredInTurn c n l = 0 ↔
      ∀ i p, l[i]? = some p → (c.clock (n + i) : Deadline) < p.2.staleUntil := by
  induction l generalizing n with
  | nil => simp [expiredInTurn]
  | cons q l ih =>
    rw [expiredInTurn, Nat.add_eq_zero_iff, ih]
    constructor
    · rintro ⟨hq, hl⟩ i p hp
      cases i with
      | zero =>
        obtain rfl : q = p := by simpa using hp
        refine not_le.mp fun hle => absurd hq ?_
        rw [if_pos (show q.2.staleUntil ≤ (c.clock n : Deadline) from hle)]
        exact one_ne_zero
      | succ i =>
        have := hl i p (by simpa using hp)
        rwa [show n + 1 + i = n + (i + 1) by omega] at this
    · intro hall
      refine ⟨if_neg (not_le.mpr (hall 0 q rfl)), fun i p hp => ?_⟩
      have := hall (i + 1) p (by simpa using hp)
      rwa [show n + (i + 1) = n + 1 + i by omega] at this

theorem lookup_run (key : Key) (s : Engine V) : ∃ r s', lookup c key false s = (.ok r, s') ∧
    s'.ticks = s.ticks + 1 ∧ (∀ k, k ≠ key → s'.entries.get? k = s.entries.get? k) ∧
    ∀ e, s.entries.get? key = some e → s'.entries.size +
      (if e.staleUntil ≤ (c.clock s.ticks : Deadline) then 1 else 0) = s.entries.size := by
  refine ⟨_, _, rfl, @lookup_ticks _ c key false s _ _ rfl, ?_, ?_⟩
  · intro k hk
    change (lookupAt _ key false _).2.entries.get? k = _
    unfold lookupAt
    cases he : s.entries.get? key with
    | none => simp [countIf_entries]
    | some e =>
      dsimp only
      split_ifs
      · simp [countIf_entries, OrderedDict.get?_erase, hk]
      · simp [countIf_entries, OrderedDict.get?_setLast, hk]
      · simp [countIf_entries, OrderedDict.get?_setLast, hk]
  · intro e he
    have hsize := OrderedDict.size_erase he
    change (lookupAt _ key false _).2.entries.size + _ = _
    unfold lookupAt
    simp only [he]
    split_ifs
    · simpa [countIf_entries] using hsize
    · simpa [countIf_entries] using hsize
    · simpa [countIf_entries] using hsize

/-- Looking up a list of held keys takes out those that have expired in turn. -/
theorem lookups_size {l : List (Key × Entry V)} (hn : (l.map Prod.fst).Nodup)
    (hl : ∀ p ∈ l, s.entries.get? p.1 = some p.2) :
    ∃ rs s', collect (fun key => lookup c key false) (l.map Prod.fst) s = (.ok rs, s') ∧
      s'.entries.size + expiredInTurn c s.ticks l = s.entries.size := by
  induction l generalizing s with
  | nil => exact ⟨[], s, rfl, rfl⟩
  | cons p l ih =>
    rw [List.map_cons, List.nodup_cons] at hn
    obtain ⟨r, s₁, hrun, hticks, hkeep, hsize⟩ := lookup_run (c := c) p.1 s
    have hheld : ∀ q ∈ l, s₁.entries.get? q.1 = some q.2 := by
      intro q hq
      have hne : q.1 ≠ p.1 := fun he => hn.1 (he ▸ List.mem_map_of_mem hq)
      rw [hkeep q.1 hne]
      exact hl q (List.mem_cons_of_mem p hq)
    obtain ⟨rs, s', hrest, hsize'⟩ := ih hn.2 hheld
    have hfirst := hsize p.2 (hl p List.mem_cons_self)
    refine ⟨r :: rs, s', ?_, ?_⟩
    · rw [List.map_cons, collect, run_bind_ok hrun, run_bind_ok hrest]
      rfl
    · rw [hticks] at hsize'
      rw [expiredInTurn]
      omega

theorem size_run (s : Engine V) :
    ∃ n s', size c s = (.ok n, s') ∧ n + expiredInTurn c s.ticks s.entries.toList = s.entries.size := by
  obtain ⟨rs, s', hrun, hsize⟩ := lookups_size (c := c) s.entries.nodup
    fun p hp => OrderedDict.mem_toList.mp hp
  refine ⟨s'.entries.size, s', ?_, hsize⟩
  rw [size, run_bind_ok (run_get s)]
  change (collect (fun key => lookup c key false) (s.entries.toList.map Prod.fst) >>= _) s = _
  rw [run_bind_ok hrun]
  rfl

/-- The removing operations count as `get` and `size` do exactly when no entry that they take out
has expired. -/
theorem removal_counts {s : Session V} (hr : Reachable c s) :
    (∀ key, ((∃ s', delete key s.engine = (.ok true, s')) ↔
      ∃ r s', getEntry c key s.engine = (.ok r, s') ∧ r.state ≠ .miss) ↔ ¬Expired c s.engine key) ∧
    (∀ keys n s', deleteMany keys s.engine = (.ok n, s') →
      (n = (keys.toFinset.filter fun key => Live c s.engine key).card ↔
        ∀ key ∈ keys, ¬Expired c s.engine key)) ∧
    (∀ tags n s', invalidateTags tags s.engine = (.ok n, s') →
      (n = (s.engine.entries.keys.toFinset.filter fun key =>
          Tagged s.engine tags key ∧ Live c s.engine key).card ↔
        ∀ key, Tagged s.engine tags key → ¬Expired c s.engine key)) ∧
    ((flush s.engine).1 = (size c s.engine).1 ↔
      ∀ i p, s.engine.entries.toList[i]? = some p →
        (c.clock (s.engine.ticks + i) : Deadline) < p.2.staleUntil) := by
  refine ⟨fun key => delete_counts hr.stocked, fun keys n s' h => deleteMany_counts h,
    fun tags n s' h => invalidateTags_counts hr.inv.sound h, ?_⟩
  obtain ⟨n, s', hrun, hsize⟩ := size_run (c := c) s.engine
  rw [hrun, ← expiredInTurn_eq_zero]
  change Except.ok s.engine.entries.size = Except.ok n ↔ _
  rw [Except.ok.injEq]
  omega

/-- An entry that expires before the next reading of the clock. -/
def lapsedRun : List (Event String) := [.call (.put "a" "1" (some 2) (some 0) [] none false)]

def lapsedSession : Session String := lapsedRun.foldl (Session.apply smallConfig) ⟨init, []⟩

theorem lapsedSession_reachable : Reachable smallConfig lapsedSession :=
  Reachable.init.run lapsedRun (by decide : Session.AllowedRun smallConfig _ _)

theorem lapsed_delete_counted : Reachable smallConfig lapsedSession ∧
    (delete "a" lapsedSession.engine).1 = .ok true ∧
      (getEntry smallConfig "a" lapsedSession.engine).1 = .ok .miss :=
  ⟨lapsedSession_reachable, by decide +kernel, by decide +kernel⟩

theorem removal_counts_lapsed : ¬Expired smallConfig lapsedSession.engine "b" ∧
    ((flush lapsedSession.engine).1 ≠ (size smallConfig lapsedSession.engine).1) := by
  obtain ⟨hdelete, -, -, hflush⟩ := removal_counts lapsedSession_reachable
  refine ⟨(hdelete "b").mp ?_, fun h => ?_⟩
  · have hno : (delete "b" lapsedSession.engine).1 = .ok false := by decide +kernel
    have hmiss : (getEntry smallConfig "b" lapsedSession.engine).1 = .ok .miss := by decide +kernel
    constructor
    · rintro ⟨s', hs'⟩
      rw [hs'] at hno
      cases hno
    · rintro ⟨r, s', hr, hstate⟩
      rw [hr] at hmiss
      exact absurd (congrArg CacheResult.state (Except.ok.inj hmiss)) hstate
  · have hlive := hflush.mp h 0
    revert hlive
    decide +kernel

end Engine
end MegaCache
