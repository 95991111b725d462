import MegaCache.Engine.Operations
import MegaCache.Lib.TwoRuns

/-!
# Engines that differ in values only

Two engines are twins for a set of keys when they agree in everything but the values of the
entries outside the set.  Sizes, deadlines, tags, the order of the entries, leases and counters are
the same, so under the LRU policy an operation takes the same branches on both, and what it
returns differs at most in a value outside the set.
-/

namespace MegaCache
namespace Engine

open Prog

variable {V : Type} {c : EngineConfig V} {I : Key → Prop} {s t : Engine V} {key : Key}

/-- The same entry up to its value; with `same` also the value. -/
def Veiled (same : Prop) (e e' : Entry V) : Prop := ∃ v, e' = { e with value := v } ∧ (same → v = e.value)

/-- The same result up to its value; with `same` also the value. -/
def Resembles (same : Prop) (r r' : CacheResult V) : Prop :=
  ∃ v, r' = { r with value := v } ∧ (same → v = r.value)

/-- Values that take the same bytes, before and after they are stored. -/
structure SameBytes (c : EngineConfig V) (v w : V) : Prop where
  raw : c.codec.valueBytes v = c.codec.valueBytes w
  stored : Option.Rel (fun a b => c.codec.valueBytes a = c.codec.valueBytes b)
    (c.codec.snapshotValue v) (c.codec.snapshotValue w)

/-- The values that two runs may write under a key. -/
def Paired (c : EngineConfig V) (same : Prop) (v w : V) : Prop := SameBytes c v w ∧ (same → v = w)

/-- Engines without a journal that agree in all but the values outside `I`. -/
structure Twin (I : Key → Prop) (s t : Engine V) : Prop where
  entries : OrderedDict.Alike (fun key => Veiled (I key)) s.entries t.entries
  rest : t = { s with entries := t.entries }
  idle : s.activeMutation = none

theorem Veiled.refl (same : Prop) (e : Entry V) : Veiled same e e := ⟨e.value, rfl, fun _ => rfl⟩

theorem Resembles.refl (same : Prop) (r : CacheResult V) : Resembles same r r :=
  ⟨r.value, rfl, fun _ => rfl⟩

theorem Resembles.eq {same : Prop} {r r' : CacheResult V} (h : Resembles same r r') (hs : same) :
    r = r' := by
  obtain ⟨v, rfl, hv⟩ := h
  rw [hv hs]

theorem Resembles.state {same : Prop} {r r' : CacheResult V} (h : Resembles same r r') :
    r'.state = r.state := by
  obtain ⟨v, rfl, -⟩ := h
  rfl

theorem Paired.refl (c : EngineConfig V) (same : Prop) (v : V) : Paired c same v v := by
  refine ⟨⟨rfl, ?_⟩, fun _ => rfl⟩
  cases c.codec.snapshotValue v with
  | none => exact .none
  | some w => exact .some rfl

theorem Twin.refl (h : s.activeMutation = none) : Twin I s s :=
  ⟨.refl (fun _ => Veiled.refl _) _, rfl, h⟩

/-- What two twins are: one engine with two dictionaries. -/
theorem Twin.exists (h : Twin I s t) :
    ∃ d, t = { s with entries := d } ∧ s.activeMutation = none ∧
      OrderedDict.Alike (fun key => Veiled (I key)) s.entries d :=
  ⟨t.entries, h.rest, h.idle, h.entries⟩

theorem Twin.of_entries {d : OrderedDict Key (Entry V)} (hidle : s.activeMutation = none)
    (h : OrderedDict.Alike (fun key => Veiled (I key)) s.entries d) :
    Twin I s { s with entries := d } :=
  ⟨h, rfl, hidle⟩

/-- The entries that two twins hold for a key. -/
theorem Twin.get? (h : Twin I s t) (key : Key) :
    s.entries.get? key = none ∧ t.entries.get? key = none ∨
      ∃ e v, s.entries.get? key = some e ∧ t.entries.get? key = some { e with value := v } ∧
        (I key → v = e.value) := by
  have hget := h.entries.get? key
  cases hs : s.entries.get? key with
  | none =>
    rw [hs] at hget
    cases ht : t.entries.get? key with
    | none => exact .inl ⟨rfl, rfl⟩
    | some e => rw [ht] at hget; cases hget
  | some e =>
    rw [hs] at hget
    cases ht : t.entries.get? key with
    | none => rw [ht] at hget; cases hget
    | some e' =>
      rw [ht] at hget
      cases hget with
      | some hv =>
        obtain ⟨v, rfl, hv⟩ := hv
        exact .inr ⟨e, v, rfl, rfl, hv⟩

/-! ## Elementary steps -/

theorem Twin.bump (h : Twin I s t) (m : Metric) (n : ℕ) : Twin I (s.bump m n) (t.bump m n) := by
  obtain ⟨d, rfl, hidle, hd⟩ := h.exists
  exact .of_entries hidle hd

theorem Twin.countIf (h : Twin I s t) (count : Bool) (m : Metric) :
    Twin I (countIf count m s) (countIf count m t) := by
  unfold Engine.countIf
  split_ifs
  · exact h.bump m 1
  · exact h

theorem Twin.tick (h : Twin I s t) :
    Twin I { s with ticks := s.ticks + 1 } { t with ticks := t.ticks + 1 } := by
  obtain ⟨d, rfl, hidle, hd⟩ := h.exists
  exact .of_entries (s := { s with ticks := s.ticks + 1 }) hidle hd

theorem Twin.draw (h : Twin I s t) :
    Twin I { s with draws := s.draws + 1 } { t with draws := t.draws + 1 } := by
  obtain ⟨d, rfl, hidle, hd⟩ := h.exists
  exact .of_entries (s := { s with draws := s.draws + 1 }) hidle hd

theorem Twin.removeLease (h : Twin I s t) (key : Key) : Twin I (removeLease key s) (removeLease key t) := by
  obtain ⟨d, rfl, hidle, hd⟩ := h.exists
  unfold Engine.removeLease
  dsimp only
  split
  · exact .of_entries hidle hd
  · exact ⟨hd, rfl, hidle⟩

theorem Twin.removeEntry (h : Twin I s t) (key : Key) : Twin I (removeEntry key s) (removeEntry key t) := by
  unfold Engine.removeEntry
  rcases h.get? key with ⟨hs, ht⟩ | ⟨e, v, hs, ht, hv⟩
  · rw [hs, ht]
    exact h
  · rw [hs, ht]
    obtain ⟨d, rfl, hidle, hd⟩ := h.exists
    dsimp only
    rw [hidle]
    exact ⟨hd.erase key, rfl, rfl⟩

/-- An entry put behind all others. -/
theorem Twin.setLast (h : Twin I s t) {e e' : Entry V} (he : Veiled (I key) e e') :
    Twin I { s with entries := s.entries.setLast key e } { t with entries := t.entries.setLast key e' } := by
  obtain ⟨d, rfl, hidle, hd⟩ := h.exists
  exact ⟨hd.setLast he, rfl, hidle⟩

theorem Twin.storeEntry (h : Twin I s t) {e e' : Entry V} (he : Veiled (I key) e e') :
    Twin I (storeEntry key e s) (storeEntry key e' t) := by
  unfold Engine.storeEntry
  obtain ⟨d, hd, hidle, hdict⟩ := (h.removeEntry key).exists
  obtain ⟨v, rfl, hv⟩ := he
  rw [hd]
  exact ⟨hdict.set ⟨v, rfl, hv⟩, rfl, hidle⟩

theorem Twin.updateEntry (h : Twin I s t) {f : Entry V → Entry V}
    (hf : ∀ e v, f { e with value := v } = { f e with value := v } ∧ (f e).value = e.value) :
    Twin I (updateEntry key f s) (updateEntry key f t) := by
  unfold Engine.updateEntry
  rcases h.get? key with ⟨hs, ht⟩ | ⟨e, v, hs, ht, hv⟩
  · rw [hs, ht]
    exact h
  · rw [hs, ht]
    obtain ⟨d, rfl, hidle, hd⟩ := h.exists
    have hentry : Veiled (I key) (f e) (f { e with value := v }) :=
      ⟨v, (hf e v).1, fun hi => (hv hi).trans (hf e v).2.symm⟩
    exact ⟨hd.set hentry, rfl, hidle⟩

theorem Twin.foldl {α : Type} {step : Engine V → α → Engine V}
    (hstep : ∀ s t a, Twin I s t → Twin I (step s a) (step t a)) (xs : List α) (h : Twin I s t) :
    Twin I (xs.foldl step s) (xs.foldl step t) := by
  induction xs generalizing s t with
  | nil => exact h
  | cons x xs ih => exact ih (hstep s t x h)

theorem Twin.purgeExpiredLeases (h : Twin I s t) (now : ℚ) :
    Twin I (purgeExpiredLeases now s) (purgeExpiredLeases now t) := by
  have hleases : t.leases = s.leases := by rw [h.rest]
  unfold Engine.purgeExpiredLeases
  rw [hleases]
  refine Twin.foldl (fun s t p hst => ?_) _ h
  split_ifs
  · exact hst.removeLease p.1
  · exact hst

theorem touched_veiled (count : Bool) (now : ℚ) (e : Entry V) (v : V) :
    touched count now { e with value := v } = { touched count now e with value := v } := by
  unfold touched
  split_ifs <;> rfl

theorem touched_keeps_value (count : Bool) (now : ℚ) (e : Entry V) :
    (touched count now e).value = e.value := by
  unfold touched
  split_ifs <;> rfl

theorem Twin.lookupAt (h : Twin I s t) (now : ℚ) (count : Bool) :
    Resembles (I key) (lookupAt now key count s).1 (lookupAt now key count t).1 ∧
      Twin I (lookupAt now key count s).2 (lookupAt now key count t).2 := by
  unfold Engine.lookupAt
  rcases h.get? key with ⟨hs, ht⟩ | ⟨e, v, hs, ht, hv⟩
  · rw [hs, ht]
    exact ⟨.refl _ _, h.countIf _ _⟩
  · rw [hs, ht]
    dsimp only
    have htouched : Veiled (I key) (touched count now e) (touched count now { e with value := v }) :=
      ⟨v, touched_veiled count now e v, fun hi => (hv hi).trans (touched_keeps_value count now e).symm⟩
    have hstate := h.setLast htouched
    split_ifs
    · exact ⟨.refl _ _, ((h.removeEntry key).countIf _ _).countIf _ _⟩
    · exact ⟨⟨some v, rfl, fun hi => by rw [hv hi]; rfl⟩, hstate.countIf _ _⟩
    · exact ⟨⟨some v, rfl, fun hi => by rw [hv hi]; rfl⟩, hstate.countIf _ _⟩

/-! ## Operations -/

/-- A program that takes the same course on twins; its results are in `Q`. -/
abbrev Alike (I : Key → Prop) {α α' : Type} (Q : α → α' → Prop) (m : EngineM V α) (m' : EngineM V α') :
    Prop :=
  Agree (Twin I) Q m m'

theorem alike_validateKey (key : Key) : Alike I Eq (validateKey (V := V) key) (validateKey key) :=
  Agree.ite Iff.rfl (fun _ => Agree.throw _) fun _ => Agree.pure rfl

theorem alike_duration (value : Option ℤ) (default : ℕ) (name : String) (allowZero : Bool) :
    Alike I Eq (duration (V := V) value default name allowZero) (duration value default name allowZero) :=
  Agree.ite Iff.rfl (fun _ => Agree.throw _) fun _ => Agree.pure rfl

theorem alike_normalizeTags (tags : List Tag) :
    Alike I Eq (normalizeTags (V := V) tags) (normalizeTags tags) :=
  Agree.ite Iff.rfl (fun _ => Agree.throw _) fun _ =>
    Agree.ite Iff.rfl (fun _ => Agree.throw _) fun _ => Agree.pure rfl

theorem alike_compareDigest (a b : String) :
    Alike I Eq (compareDigest (V := V) a b) (compareDigest a b) :=
  Agree.ite Iff.rfl (fun _ => Agree.pure rfl) fun _ => Agree.throw _

theorem alike_readClock : Alike I Eq (readClock c) (readClock c) := by
  intro s t h
  refine ⟨?_, h.tick⟩
  have hticks : t.ticks = s.ticks := by rw [h.rest]
  simp only [readClock, hticks]
  exact .ok rfl

theorem alike_drawToken : Alike I Eq (drawToken c) (drawToken c) := by
  intro s t h
  refine ⟨?_, h.draw⟩
  have hdraws : t.draws = s.draws := by rw [h.rest]
  simp only [drawToken, hdraws]
  exact .ok rfl

theorem alike_lookup (key : Key) (count : Bool) :
    Alike I (Resembles (I key)) (lookup c key count) (lookup c key count) :=
  alike_readClock.bind_eq fun now => Agree.lift fun _ _ h => h.lookupAt now count

theorem alike_getEntry (key : Key) :
    Alike I (Resembles (I key)) (getEntry c key) (getEntry c key) :=
  (alike_validateKey key).bind_eq fun _ => alike_lookup key true

/-- A number of lookups one after the other. -/
theorem alike_lookups {op : Key → EngineM V (CacheResult V)}
    (hop : ∀ key, Alike I (Resembles (I key)) (op key) (op key)) (keys : List Key) :
    Alike I (List.Forall₂ (Resembles (∀ key ∈ keys, I key))) (collect op keys) (collect op keys) := by
  have hkeys : List.Forall₂ (fun x y => x = y ∧ x ∈ keys) keys keys :=
    List.forall₂_same.mpr fun _ hx => ⟨rfl, hx⟩
  refine Agree.collect hkeys ?_
  rintro key _ ⟨rfl, hmem⟩
  refine (hop key).mono ?_
  rintro r _ ⟨v, rfl, hv⟩
  exact ⟨v, rfl, fun hall => hv (hall key hmem)⟩

theorem forall₂_resembles_eq {same : Prop} {rs rs' : List (CacheResult V)}
    (h : List.Forall₂ (Resembles same) rs rs') (hs : same) : rs = rs' :=
  List.forall₂_eq_eq_eq ▸ h.imp fun _ _ hr => hr.eq hs

theorem countP_resembles {same : Prop} {rs rs' : List (CacheResult V)}
    (h : List.Forall₂ (Resembles same) rs rs') :
    (rs.countP fun r => r.state ≠ .miss) = rs'.countP fun r => r.state ≠ .miss := by
  induction h with
  | nil => rfl
  | cons hr _ ih => simp only [List.countP_cons, hr.state, ih]

theorem alike_mget (keys : List Key) :
    Alike I (List.Forall₂ (Resembles (∀ key ∈ keys, I key))) (mget c keys) (mget c keys) :=
  alike_lookups (fun key => alike_getEntry key) keys

theorem alike_existsCount (keys : List Key) : Alike I Eq (existsCount c keys) (existsCount c keys) :=
  (alike_lookups (fun key => alike_lookup key false) keys).bind fun _ _ h =>
    Agree.pure (countP_resembles h)

theorem Twin.deleteLocked (h : Twin I s t) (key : Key) :
    (deleteLocked key s).1 = (deleteLocked key t).1 ∧
      Twin I (deleteLocked key s).2 (deleteLocked key t).2 := by
  have hstate := (h.removeEntry key).removeLease key
  unfold Engine.deleteLocked
  rcases h.get? key with ⟨hs, ht⟩ | ⟨e, v, hs, ht, -⟩
  · rw [hs, ht]
    exact ⟨rfl, hstate⟩
  · rw [hs, ht]
    exact ⟨rfl, hstate.bump _ _⟩

theorem alike_delete (key : Key) : Alike I Eq (delete (V := V) key) (delete key) :=
  (alike_validateKey key).bind_eq fun _ => Agree.lift fun _ _ h => h.deleteLocked key

theorem alike_deleteMany (keys : List Key) : Alike I Eq (deleteMany (V := V) keys) (deleteMany keys) := by
  have hkeys : List.Forall₂ Eq keys keys := List.forall₂_same.mpr fun _ _ => rfl
  refine (Agree.collect (Q := Eq) hkeys fun key _ h => ?_).bind fun bs bs' h => Agree.pure ?_
  · subst h
    exact alike_delete key
  · rw [List.forall₂_eq_eq_eq] at h
    rw [h]

theorem expiringEntry_veiled (deadline : ℚ) (ttl : ℕ) (e : Entry V) (v : V) :
    expiringEntry deadline ttl { e with value := v } =
      { expiringEntry deadline ttl e with value := v } ∧
      (expiringEntry deadline ttl e).value = e.value :=
  ⟨rfl, rfl⟩

theorem alike_expire (key : Key) (ttlSeconds : ℤ) :
    Alike I Eq (expire c key ttlSeconds) (expire c key ttlSeconds) := by
  refine (alike_validateKey key).bind_eq fun _ => ?_
  refine (alike_duration _ _ _ _).bind_eq fun ttl => ?_
  refine (alike_lookup key false).bind fun r r' hr => ?_
  refine Agree.ite (by rw [hr.state]) (fun _ => Agree.pure rfl) fun _ => ?_
  refine alike_readClock.bind_eq fun now => ?_
  refine (Agree.modify fun _ _ h => h.updateEntry (expiringEntry_veiled _ _)).bind_eq fun _ => ?_
  exact (Agree.modify fun _ _ h => h.bump _ _).bind_eq fun _ => Agree.pure rfl

theorem alike_ttl (key : Key) : Alike I Eq (ttl c key) (ttl c key) := by
  refine (alike_validateKey key).bind_eq fun _ => ?_
  refine (alike_lookup key false).bind fun r r' hr => ?_
  refine Agree.ite (by rw [hr.state]) (fun _ => Agree.pure rfl) fun _ => ?_
  refine Agree.get.bind fun s t h => ?_
  rcases h.get? key with ⟨hs, ht⟩ | ⟨e, v, hs, ht, -⟩
  · rw [hs, ht]
    exact Agree.pure rfl
  · rw [hs, ht]
    dsimp only
    cases e.freshUntil with
    | none => exact Agree.pure rfl
    | some deadline => exact alike_readClock.bind_eq fun now => Agree.pure rfl

/-! ## Writes -/

theorem Twin.overLimit_iff (h : Twin I s t) : overLimit c s ↔ overLimit c t := by
  have hbytes : t.usedBytes = s.usedBytes := by rw [h.rest]
  unfold overLimit
  rw [h.entries.size_eq, hbytes]

theorem alike_evictLoop (hlru : c.evictionPolicy = .lru) (n : ℕ) :
    Alike I Eq (evictLoop c n) (evictLoop c n) := by
  induction n with
  | zero =>
    refine Agree.get.bind fun s t h => ?_
    exact Agree.ite h.overLimit_iff (fun _ => Agree.throw _) fun _ => Agree.pure rfl
  | succ n ih =>
    refine Agree.get.bind fun s t h => ?_
    refine Agree.ite h.overLimit_iff (fun _ => ?_) fun _ => Agree.pure rfl
    -- the least recently used key is the first one of both
    have hvictim : Alike I Eq (victim c) (victim c) := by
      unfold victim
      rw [hlru]
      exact Agree.get.bind fun s t h => Agree.pure (by rw [h.entries.keys_eq])
    refine hvictim.bind_eq fun key? => ?_
    cases key? with
    | none => exact Agree.throw _
    | some key =>
      refine (Agree.modify fun _ _ h => h.removeEntry key).bind_eq fun _ => ?_
      refine (Agree.modify fun _ _ h => h.bump _ _).bind_eq fun _ => ?_
      exact (Agree.modify fun _ _ h => h.bump _ _).bind_eq fun _ => ih

theorem alike_evictIfNeeded (hlru : c.evictionPolicy = .lru) :
    Alike I Eq (evictIfNeeded c) (evictIfNeeded c) := by
  refine Agree.get.bind fun s t h => ?_
  rw [h.entries.size_eq]
  exact alike_evictLoop hlru _

/-- The arguments of two writes after their checks. -/
def PreparedPut.Veiled (same : Prop) (p q : PreparedPut V) : Prop :=
  ∃ v, q = { p with storedValue := v } ∧ (same → v = p.storedValue)

theorem alike_putWindows (ttlSeconds staleSeconds : Option ℤ) (persistent : Bool) :
    Alike I Eq (putWindows c ttlSeconds staleSeconds persistent)
      (putWindows c ttlSeconds staleSeconds persistent) := by
  refine Agree.ite Iff.rfl (fun _ => ?_) fun _ => ?_
  · exact Agree.ite Iff.rfl (fun _ => Agree.throw _) fun _ => Agree.pure rfl
  · refine (alike_duration _ _ _ _).bind_eq fun ttl => ?_
    exact (alike_duration _ _ _ _).bind_eq fun stale => Agree.pure rfl

theorem alike_snapshotValue {same : Prop} {v w : V} (h : Paired c same v w) :
    Alike I (fun a b => c.codec.valueBytes a = c.codec.valueBytes b ∧ (same → a = b))
      (snapshotValue c v) (snapshotValue c w) := by
  have hstored := h.1.stored
  unfold snapshotValue
  cases hv : c.codec.snapshotValue v with
  | none =>
    rw [hv] at hstored
    cases hw : c.codec.snapshotValue w with
    | none => exact Agree.throw _
    | some b => rw [hw] at hstored; cases hstored
  | some a =>
    rw [hv] at hstored
    cases hw : c.codec.snapshotValue w with
    | none => rw [hw] at hstored; cases hstored
    | some b =>
      rw [hw] at hstored
      cases hstored with
      | some hbytes =>
        refine Agree.pure ⟨hbytes, fun hs => ?_⟩
        rw [h.2 hs, hw] at hv
        exact (Option.some.inj hv).symm

theorem alike_entrySize (key : Key) {v w : V} (h : c.codec.valueBytes v = c.codec.valueBytes w)
    (tags : List Tag) : Alike I Eq (entrySize c key v tags) (entrySize c key w tags) := by
  unfold entrySize
  rw [h]
  cases c.codec.valueBytes w with
  | none => exact Agree.throw _
  | some n => exact Agree.pure rfl

theorem alike_preparePut {same : Prop} {v w : V} (h : Paired c same v w) (key : Key)
    (ttlSeconds staleSeconds : Option ℤ) (tags : List Tag) (persistent countRejection : Bool) :
    Alike I (PreparedPut.Veiled same)
      (preparePut c key v ttlSeconds staleSeconds tags persistent countRejection)
      (preparePut c key w ttlSeconds staleSeconds tags persistent countRejection) := by
  refine (alike_validateKey key).bind_eq fun _ => ?_
  refine (alike_putWindows _ _ _).bind_eq fun windows => ?_
  refine (alike_normalizeTags tags).bind_eq fun normalized => ?_
  refine (alike_snapshotValue h).bind fun a b hab => ?_
  refine (alike_entrySize key hab.1 _).bind_eq fun sizeBytes => ?_
  refine Agree.ite Iff.rfl (fun _ => ?_) fun _ => ?_
  · exact (Agree.modify fun _ _ h => h.countIf _ _).bind_eq fun _ => Agree.throw _
  refine Agree.ite Iff.rfl (fun _ => ?_) fun _ => ?_
  · exact (Agree.modify fun _ _ h => h.countIf _ _).bind_eq fun _ => Agree.throw _
  · exact Agree.pure ⟨b, rfl, fun hs => (hab.2 hs).symm⟩

theorem Twin.leases_eq (h : Twin I s t) : t.leases = s.leases := by rw [h.rest]

theorem alike_checkLease (key : Key) (leaseToken : Option String) (now : ℚ) :
    Alike I Eq (checkLease (V := V) key leaseToken now) (checkLease key leaseToken now) := by
  cases leaseToken with
  | none => exact Agree.pure rfl
  | some token =>
    refine Agree.get.bind fun s t h => ?_
    rw [h.leases_eq]
    cases s.leases.get? key with
    | none => exact Agree.throw _
    | some lease =>
      refine Agree.ite Iff.rfl (fun _ => ?_) fun _ => ?_
      · exact (Agree.modify fun _ _ h => h.removeLease key).bind_eq fun _ => Agree.throw _
      · refine (alike_compareDigest _ _).bind_eq fun same => ?_
        exact Agree.ite Iff.rfl (fun _ => Agree.pure rfl) fun _ => Agree.throw _

theorem Twin.reservedBytes_eq (h : Twin I s t) (key : Key) : reservedBytes key t = reservedBytes key s := by
  rw [h.rest]
  rfl

/-- The entries that two writes put in place of what twins hold. -/
theorem writtenEntry_veiled (h : Twin I s t) {p q : PreparedPut V} (hp : PreparedPut.Veiled (I key) p q)
    (persistent : Bool) (now : ℚ) :
    Veiled (I key) (writtenEntry p persistent now (s.entries.get? key))
      (writtenEntry q persistent now (t.entries.get? key)) := by
  obtain ⟨w, rfl, hw⟩ := hp
  rcases h.get? key with ⟨hs, ht⟩ | ⟨e, v, hs, ht, -⟩
  · rw [hs, ht]
    exact ⟨w, rfl, hw⟩
  · rw [hs, ht]
    exact ⟨w, rfl, hw⟩

theorem alike_putLocked (hlru : c.evictionPolicy = .lru) {p q : PreparedPut V}
    (hp : PreparedPut.Veiled (I key) p q) (leaseToken : Option String) (persistent : Bool) (now : ℚ) :
    Alike I (Resembles (I key)) (putLocked c key leaseToken persistent p now)
      (putLocked c key leaseToken persistent q now) := by
  have hsize : q.sizeBytes = p.sizeBytes := by
    obtain ⟨v, rfl, -⟩ := hp
    rfl
  refine (alike_checkLease key leaseToken now).bind_eq fun _ => ?_
  refine Agree.get.bind fun s t h => ?_
  refine Agree.ite (by rw [hsize, h.reservedBytes_eq]) (fun _ => ?_) fun _ => ?_
  · exact (Agree.modify fun _ _ h => h.bump _ _).bind_eq fun _ => Agree.throw _
  · have hentry := writtenEntry_veiled h hp persistent now
    refine (Agree.modify fun _ _ h => h.storeEntry hentry).bind_eq fun _ => ?_
    refine (Agree.modify fun _ _ h => h.removeLease key).bind_eq fun _ => ?_
    refine (Agree.modify fun _ _ h => h.bump _ _).bind_eq fun _ => ?_
    exact (alike_evictIfNeeded hlru).bind_eq fun _ => alike_lookup key false

theorem alike_put (hlru : c.evictionPolicy = .lru) {v w : V} (h : Paired c (I key) v w)
    (ttlSeconds staleSeconds : Option ℤ) (tags : List Tag) (leaseToken : Option String)
    (persistent : Bool) :
    Alike I (Resembles (I key)) (put c key v ttlSeconds staleSeconds tags leaseToken persistent)
      (put c key w ttlSeconds staleSeconds tags leaseToken persistent) :=
  (alike_preparePut h key _ _ _ _ _).bind fun _ _ hp =>
    alike_readClock.bind_eq fun _ => alike_putLocked hlru hp _ _ _

/-- The pairs that two runs may write with one `mset`. -/
def PairedItem (c : EngineConfig V) (I : Key → Prop) (x y : Key × V) : Prop :=
  x.1 = y.1 ∧ Paired c (I x.1) x.2 y.2

theorem alike_mset (hlru : c.evictionPolicy = .lru) {xs ys : List (Key × V)}
    (h : List.Forall₂ (PairedItem c I) xs ys) : Alike I Eq (mset c xs) (mset c ys) := by
  have hcheck : Alike I Eq (forEach (msetCheck c) xs) (forEach (msetCheck c) ys) := by
    refine Agree.forEach h ?_
    rintro ⟨key, v⟩ ⟨_, w⟩ ⟨rfl, hp⟩
    refine (alike_validateKey key).bind_eq fun _ => ?_
    refine (alike_entrySize key hp.1.raw []).bind_eq fun sizeBytes => ?_
    refine Agree.ite Iff.rfl (fun _ => ?_) fun _ => Agree.pure rfl
    exact (Agree.modify fun _ _ h => h.bump _ _).bind_eq fun _ => Agree.throw _
  refine hcheck.bind_eq fun _ => Agree.forEach h ?_
  rintro ⟨key, v⟩ ⟨_, w⟩ ⟨rfl, hp⟩
  exact (alike_put hlru hp _ _ _ _ _).bind fun _ _ _ => Agree.pure rfl

/-! ## Leases -/

/-- The lease that `acquire_lease` hands out. -/
theorem Twin.addLease (h : Twin I s t) (key : Key) (lease : Lease) (n : ℕ) :
    Twin I { s with leases := s.leases.set key lease, usedBytes := s.usedBytes + n,
                    leaseBytes := s.leaseBytes + n }
      { t with leases := t.leases.set key lease, usedBytes := t.usedBytes + n,
               leaseBytes := t.leaseBytes + n } := by
  obtain ⟨d, rfl, hidle, hd⟩ := h.exists
  exact ⟨hd, rfl, hidle⟩

theorem alike_acquireLocked (key : Key) (force : Bool) (now : ℚ) :
    Alike I (Resembles (I key)) (acquireLocked c key force now) (acquireLocked c key force now) := by
  refine (Agree.modify fun _ _ h => h.purgeExpiredLeases now).bind_eq fun _ => ?_
  refine (alike_lookup key true).bind fun r r' hr => ?_
  refine Agree.ite (by rw [hr.state]) (fun _ => Agree.pure hr) fun _ => ?_
  refine Agree.get.bind fun s t h => ?_
  rw [h.leases_eq]
  cases (s.leases.get? key).filter fun lease => now < lease.untilTime with
  | some lease =>
    refine (Agree.modify fun _ _ h => h.bump _ _).bind_eq fun _ => ?_
    exact Agree.ite (by rw [hr.state]) (fun _ => Agree.pure hr) fun _ => Agree.pure (.refl _ _)
  | none =>
    refine alike_drawToken.bind_eq fun token => ?_
    have hbytes : t.usedBytes = s.usedBytes := by rw [h.rest]
    refine Agree.ite (by rw [hbytes]) (fun _ => ?_) fun _ => ?_
    · exact (Agree.modify fun _ _ h => h.bump _ _).bind_eq fun _ => Agree.throw _
    · refine (Agree.modify fun _ _ h => h.addLease key _ _).bind_eq fun _ => ?_
      refine (Agree.modify fun _ _ h => h.bump _ _).bind_eq fun _ => ?_
      refine Agree.ite (by rw [hr.state]) (fun _ => Agree.pure ?_) fun _ => Agree.pure (.refl _ _)
      obtain ⟨v, rfl, hv⟩ := hr
      exact ⟨v, rfl, hv⟩

theorem alike_acquireLease (key : Key) (force : Bool) :
    Alike I (Resembles (I key)) (acquireLease c key force) (acquireLease c key force) :=
  (alike_validateKey key).bind_eq fun _ => alike_readClock.bind_eq fun now =>
    alike_acquireLocked key force now

/-! ## Operations on all keys -/

theorem Twin.invalidateLocked (h : Twin I s t) (tags : List Tag) :
    (invalidateLocked tags s).1 = (invalidateLocked tags t).1 ∧
      Twin I (invalidateLocked tags s).2 (invalidateLocked tags t).2 := by
  have hselected : taggedKeys tags t = taggedKeys tags s := by
    have hbucket : t.bucket = s.bucket := by
      rw [h.rest]
      rfl
    unfold taggedKeys
    rw [h.entries.keys_eq, h.leases_eq, hbucket]
  have hremoved : ∀ key, (s.entries.get? key).isSome = (t.entries.get? key).isSome := by
    intro key
    rcases h.get? key with ⟨hs, ht⟩ | ⟨e, v, hs, ht, -⟩ <;> rw [hs, ht] <;> rfl
  have hcount : ((taggedKeys tags s).countP fun key => (s.entries.get? key).isSome) =
      (taggedKeys tags s).countP fun key => (t.entries.get? key).isSome := by
    simp only [hremoved]
  unfold Engine.invalidateLocked
  dsimp only
  rw [hselected, hcount]
  refine ⟨rfl, Twin.bump (Twin.foldl (fun s t key hst => ?_) _ h) _ _⟩
  exact (hst.removeEntry key).removeLease key

theorem alike_invalidateTags (tags : List Tag) :
    Alike I Eq (invalidateTags (V := V) tags) (invalidateTags tags) :=
  (alike_normalizeTags tags).bind_eq fun _ => Agree.lift fun _ _ h => h.invalidateLocked _

theorem alike_flush : Alike I Eq (flush : EngineM V ℕ) flush := by
  refine Agree.lift fun s t h => ⟨h.entries.size_eq, ?_⟩
  obtain ⟨d, rfl, hidle, -⟩ := h.exists
  exact ⟨OrderedDict.alike_empty, rfl, hidle⟩

theorem alike_size : Alike I Eq (size c) (size c) := by
  refine Agree.get.bind fun s t h => ?_
  rw [h.entries.keys_eq]
  refine (alike_lookups (fun key => alike_lookup key false) _).bind fun _ _ _ => ?_
  exact Agree.get.bind fun s t h => Agree.pure h.entries.size_eq

theorem alike_stats : Alike I Eq (stats c) (stats c) := by
  refine alike_readClock.bind_eq fun now => ?_
  refine (Agree.modify fun _ _ h => h.purgeExpiredLeases now).bind_eq fun _ => ?_
  refine Agree.get.bind fun s t h => ?_
  refine alike_size.bind_eq fun entries => ?_
  refine Agree.get.bind fun s' t' h' => ?_
  obtain ⟨d, rfl, -, -⟩ := h.exists
  obtain ⟨d', rfl, -, -⟩ := h'.exists
  have hsame : List.Forall₂ Eq (s'.leases.toList.map Prod.snd) (s'.leases.toList.map Prod.snd) :=
    List.forall₂_same.mpr fun _ _ => rfl
  refine (Agree.collect (Q := Eq) hsame fun lease _ heq => ?_).bind fun bs bs' hbs => Agree.pure ?_
  · subst heq
    exact alike_readClock.bind_eq fun _ => Agree.pure rfl
  · rw [List.forall₂_eq_eq_eq] at hbs
    rw [hbs]

end Engine
end MegaCache
