import MegaCache.Engine.Runs

/-!
# The cache as a timed map

What the cache is for, without its order, sizes and leases: a map from keys to
the last value written, with the deadlines until which it is fresh and stale.
`TimedMap.afterCall` says how each public call changes this map.  An entry of
the engine is always the one the map holds for its key; the converse fails, as
entries may be evicted or purged.
-/

namespace MegaCache

/-- What was last written to a key. -/
structure Written (V : Type) where
  value : V
  freshUntil : Deadline
  staleUntil : Deadline
  tags : List Tag
deriving DecidableEq

/-- What the map knows of a key.  Nothing is known of the keys of an `mset` that raised. -/
inductive Slot (V : Type)
  | absent
  | written (w : Written V)
  | unknown
deriving DecidableEq

abbrev TimedMap (V : Type) := Key → Slot V

def Entry.written {V : Type} (e : Entry V) : Written V :=
  ⟨e.value, e.freshUntil, e.staleUntil, e.tags⟩

namespace TimedMap

open Engine Prog

variable {V : Type} (c : EngineConfig V)

def empty : TimedMap V := fun _ => .absent

def write (key : Key) (w : Option (Written V)) (m : TimedMap V) : TimedMap V :=
  match w with
  | none => m
  | some w => fun k => if k = key then .written w else m k

def remove (keys : List Key) (m : TimedMap V) : TimedMap V :=
  fun k => if k ∈ keys then .absent else m k

def forget (keys : List Key) (m : TimedMap V) : TimedMap V :=
  fun k => if k ∈ keys then .unknown else m k

/-- The slots whose tags meet `tags` emptied. -/
def removeTagged (tags : List Tag) (m : TimedMap V) : TimedMap V := fun k =>
  match m k with
  | .written w => if ∃ t ∈ tags, t ∈ w.tags then .absent else .written w
  | slot => slot

/-- Both deadlines of a key moved. -/
def reschedule (key : Key) (deadline : ℚ) (m : TimedMap V) : TimedMap V := fun k =>
  match m k with
  | .written w =>
    if k = key then .written { w with freshUntil := deadline, staleUntil := deadline }
    else .written w
  | slot => slot

/-- What a `put` at time `now` writes; `none` when the value cannot be stored. -/
def putRecord (value : V) (ttlSeconds staleSeconds : Option ℤ) (tags : List Tag)
    (persistent : Bool) (now : ℚ) : Option (Written V) :=
  let ttl : ℤ := ttlSeconds.getD c.defaultTtlSeconds
  let stale : ℤ := staleSeconds.getD c.defaultStaleSeconds
  (c.codec.snapshotValue value).map fun stored =>
    { value := stored
      freshUntil := if persistent then ⊤ else ((now + ttl : ℚ) : Deadline)
      staleUntil := if persistent then ⊤ else ((now + ttl + stale : ℚ) : Deadline)
      tags := tags.dedup }

/-- What `restore_entries` at time `now` writes for an item; nothing when no window is left. -/
def restoreRecord (item : StorageEntry V) (now : ℚ) : Option (Written V) :=
  (c.codec.snapshotValue item.value).bind fun stored =>
    if item.persistent then some ⟨stored, ⊤, ⊤, item.tags.dedup⟩
    else
      match item.freshForSeconds, item.staleForSeconds with
      | some f, some t =>
        if f + t ≤ 0 then none
        else some ⟨stored, ((now + f : ℚ) : Deadline), ((now + f + t : ℚ) : Deadline),
          item.tags.dedup⟩
      | _, _ => none

/-- The map after a `put` made in state `s`. -/
def afterPut (s : Engine V) (key : Key) (value : V) (ttlSeconds staleSeconds : Option ℤ)
    (tags : List Tag) (leaseToken : Option String) (persistent : Bool) (m : TimedMap V) :
    TimedMap V :=
  match (put c key value ttlSeconds staleSeconds tags leaseToken persistent s).1 with
  | .error _ => m
  | .ok _ =>
    m.write key (putRecord c value ttlSeconds staleSeconds tags persistent (c.clock s.ticks))

/-- The map after a call made in state `s`.  Reads, leases and statistics leave it alone, and
so does a call that raises, except `mset`. -/
def afterCall (s : Engine V) : Call V → TimedMap V → TimedMap V
  | .put key value ttlSeconds staleSeconds tags leaseToken persistent, m =>
    afterPut c s key value ttlSeconds staleSeconds tags leaseToken persistent m
  | .mset values, m =>
    match (mset c values s).1 with
    | .error _ => m.forget (values.map Prod.fst)
    | .ok _ => values.foldl
      (fun m item => m.write item.1 (putRecord c item.2 none none [] true 0)) m
  | .delete key, m =>
    match (Engine.delete key s).1 with
    | .error _ => m
    | .ok _ => m.remove [key]
  | .deleteMany keys, m =>
    match (Engine.deleteMany keys s).1 with
    | .error _ => m
    | .ok _ => m.remove keys
  | .expire key ttlSeconds, m =>
    match (Engine.expire c key ttlSeconds s).1 with
    | .ok true => m.reschedule key (c.clock (s.ticks + 1) + ttlSeconds)
    | _ => m
  | .flush, _ => empty
  | .restoreEntries entries, m =>
    match (Engine.restoreEntries c entries s).1 with
    | .error _ => m
    | .ok _ => entries.foldl
      (fun m item => m.write item.key (restoreRecord c item (c.clock (s.ticks + 1)))) m
  | .invalidateTags tags, m =>
    match (Engine.invalidateTags tags s).1 with
    | .error _ => m
    | .ok _ => m.removeTagged tags
  | .getOrLoad key loaded ttlSeconds staleSeconds tags, m =>
    match loaded, (getEntry c key s).1 with
    | .ok value, .ok cached =>
      if cached.state = .miss then
        afterPut c (getEntry c key s).2 key value ttlSeconds staleSeconds tags none false m
      else m
    | _, _ => m
  | _, m => m

end TimedMap

namespace Engine

open Prog

variable {V : Type} {c : EngineConfig V}

/-! ## The refinement relation -/

/-- Every entry is the one the map holds. -/
def Refines (d : OrderedDict Key (Entry V)) (m : TimedMap V) : Prop :=
  ∀ k e, d.get? k = some e → m k = .unknown ∨ m k = .written e.written

/-- Outside `K`, the entries of `d'` are entries of `d` up to their statistics. -/
def Thins (K : Key → Prop) (d d' : OrderedDict Key (Entry V)) : Prop :=
  ∀ k e', ¬K k → d'.get? k = some e' → ∃ e, d.get? k = some e ∧ e.written = e'.written

theorem Thins.refl (K : Key → Prop) (d : OrderedDict Key (Entry V)) : Thins K d d :=
  fun _ e' _ h => ⟨e', h, rfl⟩

theorem Thins.trans {K : Key → Prop} {d d' d'' : OrderedDict Key (Entry V)} (h : Thins K d d')
    (h' : Thins K d' d'') : Thins K d d'' := by
  intro k e'' hk hg
  obtain ⟨e', he', hw'⟩ := h' k e'' hk hg
  obtain ⟨e, he, hw⟩ := h k e' hk he'
  exact ⟨e, he, hw.trans hw'⟩

theorem Thins.mono {K K' : Key → Prop} {d d' : OrderedDict Key (Entry V)} (h : Thins K d d')
    (hK : ∀ k, K k → K' k) : Thins K' d d' :=
  fun k e' hk hg => h k e' (fun hk' => hk (hK k hk')) hg

theorem Thins.get?_none {K : Key → Prop} {d d' : OrderedDict Key (Entry V)} (h : Thins K d d')
    {k : Key} (hk : ¬K k) (hn : d.get? k = none) : d'.get? k = none := by
  cases hg : d'.get? k with
  | none => rfl
  | some e' =>
    obtain ⟨e, he, _⟩ := h k e' hk hg
    rw [hn] at he
    cases he

/-- Edits that neither write nor change what was written, outside `K`. -/
structure Permit.ThinsOff (K : Key → Prop) (p : Permit V) : Prop where
  store : ∀ k e, p.store k e → K k
  update : ∀ k f, p.update k f → K k ∨ ∀ e, (f e).written = e.written

theorem Thins.edit {K : Key → Prop} {p : Permit V} (hp : p.ThinsOff K) {s s' : Engine V}
    (hs : Edit c p s s') : Thins K s.entries s'.entries := by
  have hremove : ∀ k, Thins K s.entries (removeEntry k s).entries := by
    intro k k' e' _ hg
    rw [removeEntry_entries, OrderedDict.get?_erase] at hg
    split_ifs at hg
    exact ⟨e', hg, rfl⟩
  cases hs with
  | tick | draw | bump => exact Thins.refl K s.entries
  | touch a t hp' hg =>
    rename_i k e
    intro k' e' _ hg'
    rw [OrderedDict.get?_setLast] at hg'
    split_ifs at hg' with hk
    · obtain rfl := Option.some.inj hg'
      exact ⟨e, hk ▸ hg, rfl⟩
    · exact ⟨e', hg', rfl⟩
  | expire hp' hg hi hd => exact hremove _
  | evict hm hv => exact hremove _
  | drop hp' => exact hremove _
  | store hp' =>
    intro k' e' hk hg
    rw [get?_storeEntry] at hg
    split_ifs at hg with he
    · exact absurd (he ▸ hp.store _ _ hp') hk
    · exact ⟨e', hg, rfl⟩
  | update hp' hf =>
    intro k' e' hk hg
    rw [get?_updateEntry] at hg
    split_ifs at hg with he
    · subst he
      obtain ⟨e, hge, rfl⟩ := Option.map_eq_some_iff.mp hg
      rcases hp.update _ _ hp' with hK | hsame
      · exact absurd hK hk
      · exact ⟨e, hge, (hsame e).symm⟩
    · exact ⟨e', hg, rfl⟩
  | lapse hp' hg hi hd => simpa using Thins.refl K s.entries
  | release hp' => simpa using Thins.refl K s.entries
  | grant hp' hg => exact Thins.refl K s.entries
  | renew t hp' hg => exact Thins.refl K s.entries

theorem Thins.edits {K : Key → Prop} {p : Permit V} (hp : p.ThinsOff K) {s s' : Engine V}
    (hs : Edits c p s s') : Thins K s.entries s'.entries := by
  induction hs with
  | refl => exact Thins.refl K s.entries
  | tail _ hstep ih => exact ih.trans (Thins.edit hp hstep)

theorem Refines.thins {d d' : OrderedDict Key (Entry V)} {m : TimedMap V} (h : Refines d m)
    (ht : Thins (fun _ => False) d d') : Refines d' m := by
  intro k e' hg
  obtain ⟨e, he, hw⟩ := ht k e' not_false hg
  exact hw ▸ h k e he

/-- Every edit that neither writes an entry nor changes what was written. -/
def Permit.thinning : Permit V :=
  { (Permit.anything : Permit V) with
    store := fun _ _ => False
    update := fun _ f => ∀ e, (f e).written = e.written }

theorem Permit.thinning_thinsOff (K : Key → Prop) : (Permit.thinning : Permit V).ThinsOff K :=
  ⟨fun _ _ h => h.elim, fun _ _ h => .inr h⟩

/-- What `mset` may do besides thinning: write its own keys. -/
def Permit.writing (values : List (Key × V)) : Permit V :=
  { (Permit.anything : Permit V) with
    store := fun k _ => k ∈ values.map Prod.fst
    update := fun _ _ => False }

theorem Permit.lapseOf_le_thinning (key : Key) :
    (Permit.lapseOf key : Permit V).Le Permit.thinning :=
  { Permit.nothing_le Permit.thinning with lapse := fun _ _ => trivial }

theorem Permit.purges_le_thinning : (Permit.purges : Permit V).Le Permit.thinning :=
  { Permit.nothing_le Permit.thinning with expire := fun _ _ => trivial }

theorem Refines.thinned {s s' : Engine V} {m : TimedMap V} (h : Refines s.entries m)
    (hs : Edits c Permit.thinning s s') : Refines s'.entries m :=
  h.thins (Thins.edits (Permit.thinning_thinsOff _) hs)

theorem Refines.congr {d d' : OrderedDict Key (Entry V)} {m : TimedMap V} (h : Refines d m)
    (hd : ∀ k, d'.get? k = d.get? k) : Refines d' m :=
  fun k e hg => h k e (hd k ▸ hg)

theorem Refines.remove {d : OrderedDict Key (Entry V)} {m : TimedMap V} (h : Refines d m)
    {keys : List Key} (hk : ∀ k ∈ keys, d.get? k = none) : Refines d (m.remove keys) := by
  intro k e hg
  have hn : k ∉ keys := fun hm => by
    have := hk k hm
    rw [hg] at this
    cases this
  simpa [TimedMap.remove, hn] using h k e hg

/-- A write of one key, with whatever happens to the others. -/
theorem Refines.write {d d' : OrderedDict Key (Entry V)} {m : TimedMap V} (h : Refines d m)
    {key : Key} (ht : Thins (· = key) d d') {w : Written V}
    (hw : ∀ e, d'.get? key = some e → e.written = w) : Refines d' (m.write key (some w)) := by
  intro k e' hg
  by_cases hk : k = key
  · subst hk
    right
    simp [TimedMap.write, hw e' hg]
  · obtain ⟨e, he, hwe⟩ := ht k e' hk hg
    simpa [TimedMap.write, hk, hwe] using h k e he

theorem Refines.forget {d d' : OrderedDict Key (Entry V)} {m : TimedMap V} (h : Refines d m)
    {keys : List Key} (ht : Thins (· ∈ keys) d d') : Refines d' (m.forget keys) := by
  intro k e' hg
  by_cases hk : k ∈ keys
  · left
    simp [TimedMap.forget, hk]
  · obtain ⟨e, he, hwe⟩ := ht k e' hk hg
    simpa [TimedMap.forget, hk, hwe] using h k e he

/-! ## Lookups -/

theorem countIf_entries (count : Bool) (n : Metric) (s : Engine V) :
    (countIf count n s).entries = s.entries := by
  cases count <;> rfl

/-- The result of a lookup depends on what was written only. -/
def resultAt (now : ℚ) (w : Option (Written V)) : CacheResult V :=
  match w with
  | none => .miss
  | some w =>
    if w.staleUntil ≤ (now : Deadline) then .miss
    else if (now : Deadline) < w.freshUntil then
      { state := .fresh
        value := some w.value
        expiresInSeconds := remaining w.freshUntil now
        staleForSeconds := match w.staleUntil, w.freshUntil with
          | some a, some b => ((max 0 (a - b) : ℚ) : Deadline)
          | none, some _ => ⊤
          | _, none => 0
        leaseToken := none
        retryAfterSeconds := 0 }
    else
      { state := .stale
        value := some w.value
        expiresInSeconds := 0
        staleForSeconds := remaining w.staleUntil now
        leaseToken := none
        retryAfterSeconds := 0 }

theorem lookupAt_result (now : ℚ) (key : Key) (count : Bool) (s : Engine V) :
    (lookupAt now key count s).1 = resultAt now ((s.entries.get? key).map Entry.written) := by
  unfold lookupAt
  cases hg : s.entries.get? key with
  | none => rfl
  | some e =>
    simp only [Option.map_some, resultAt, Entry.written]
    split_ifs with h₁ h₂
    · rfl
    · rfl
    · rfl

/-- How a result relates to what the map holds for the key at time `t`. -/
def Answers (m : TimedMap V) (key : Key) (t : ℚ) (r : CacheResult V) : Prop :=
  ∀ v, r.value = some v → m key = .unknown ∨ ∃ w, m key = .written w ∧ v = w.value ∧
    (t : Deadline) < w.staleUntil ∧ (r.state = .fresh ↔ (t : Deadline) < w.freshUntil) ∧
    (r.state = .stale ↔ w.freshUntil ≤ (t : Deadline))

theorem Refines.answers {s : Engine V} {m : TimedMap V} (h : Refines s.entries m) (key : Key)
    (now : ℚ) (count : Bool) : Answers m key now (lookupAt now key count s).1 := by
  intro v hv
  rw [lookupAt_result] at hv ⊢
  cases hg : s.entries.get? key with
  | none => simp [hg, resultAt, CacheResult.miss] at hv
  | some e =>
    rcases h key e hg with hu | hw
    · exact .inl hu
    · refine .inr ⟨e.written, hw, ?_⟩
      simp only [hg, Option.map_some, resultAt] at hv ⊢
      by_cases h₁ : e.written.staleUntil ≤ (now : Deadline)
      · simp [h₁, CacheResult.miss] at hv
      · by_cases h₂ : (now : Deadline) < e.written.freshUntil
        · simp only [h₁, h₂, ↓reduceIte, Option.some.injEq] at hv ⊢
          exact ⟨hv.symm, not_le.mp h₁, by simp, by simp [h₂]⟩
        · simp only [h₁, h₂, ↓reduceIte, Option.some.injEq] at hv ⊢
          exact ⟨hv.symm, not_le.mp h₁, by simp, by simp [not_lt.mp h₂]⟩

theorem lookup_ticks {key : Key} {count : Bool} {s s' : Engine V} {r : CacheResult V}
    (h : lookup c key count s = (.ok r, s')) : s'.ticks = s.ticks + 1 := by
  rw [lookup_eq, Prod.mk.injEq] at h
  rw [← h.2]
  unfold lookupAt
  have hcount : ∀ (b : Bool) (n : Metric) (u : Engine V), (countIf b n u).ticks = u.ticks := by
    intro b n u
    cases b <;> rfl
  split
  · simp [hcount]
  · split
    · simp [hcount]
    · dsimp only
      split <;> simp [hcount]

theorem getEntry_ok {key : Key} {s s' : Engine V} {r : CacheResult V}
    (h : getEntry c key s = (.ok r, s')) : lookup c key true s = (.ok r, s') := by
  rw [getEntry, bind_eq_ok] at h
  obtain ⟨_, s₁, hkey, h⟩ := h
  obtain ⟨rfl, _⟩ := validateKey_ok hkey
  exact h

theorem lookup_result {key : Key} {count : Bool} {s s' : Engine V} {r : CacheResult V}
    (h : lookup c key count s = (.ok r, s')) :
    r = (lookupAt (c.clock s.ticks) key count s).1 := by
  rw [lookup_eq, Prod.mk.injEq, Except.ok.injEq] at h
  rw [← h.1, lookupAt_result, lookupAt_result]

theorem Refines.getEntry {key : Key} {s s' : Engine V} {m : TimedMap V} {r : CacheResult V}
    (h : Refines s.entries m) (hr : getEntry c key s = (.ok r, s')) :
    Answers m key (c.clock s.ticks) r := by
  rw [lookup_result (getEntry_ok hr)]
  exact h.answers key _ true

/-! ## Simulation, call by call -/

theorem putRecord_eq {key : Key} {value : V} {ttlSeconds staleSeconds : Option ℤ} {tags : List Tag}
    {persistent : Bool} {p : PreparedPut V} {now : ℚ} (existing : Option (Entry V))
    (h : Prepared c key value ttlSeconds staleSeconds tags persistent p) :
    TimedMap.putRecord c value ttlSeconds staleSeconds tags persistent now =
      some (writtenEntry p persistent now existing).written := by
  have hw := h.windows
  unfold PutWindows at hw
  simp only [TimedMap.putRecord, h.value_eq, Option.map_some, Option.some.injEq, Entry.written,
    writtenEntry, h.tags_eq]
  cases persistent with
  | true =>
    simp only [↓reduceIte, Prod.mk.injEq] at hw ⊢
    rw [hw.1, hw.2]
    simp
  | false =>
    simp only [Bool.false_eq_true, ↓reduceIte] at hw ⊢
    obtain ⟨n, hn, httl, hstale⟩ := hw
    have hq : (n : ℚ) = (ttlSeconds.getD (c.defaultTtlSeconds : ℤ) : ℤ) := by
      rw [← httl]
      simp
    have hq' : (p.stale : ℚ) = (staleSeconds.getD (c.defaultStaleSeconds : ℤ) : ℤ) := by
      rw [← hstale]
      simp
    rw [hn, ← hq, ← hq']
    simp only [WithTop.coe_add]

theorem get?_written {key : Key} {p : PreparedPut V} {persistent : Bool} {now : ℚ}
    {s : Engine V} {k : Key} : (written key p persistent now s).entries.get? k =
      if k = key then some (writtenEntry p persistent now (s.entries.get? key))
      else s.entries.get? k := by
  simp [written, get?_storeEntry]

theorem Refines.put {s : Engine V} {m : TimedMap V} (hs : Sound c s) (h : Refines s.entries m)
    (key : Key) (value : V) (ttlSeconds staleSeconds : Option ℤ) (tags : List Tag)
    (token : Option String) (persistent : Bool) :
    Refines (put c key value ttlSeconds staleSeconds tags token persistent s).2.entries
      (m.afterPut c s key value ttlSeconds staleSeconds tags token persistent) := by
  unfold TimedMap.afterPut
  rcases hp : Engine.put c key value ttlSeconds staleSeconds tags token persistent s with
    ⟨e | r, s'⟩
  · -- a rejected write changes no entry
    exact h.thinned ((put_error hs hp).mono (Permit.lapseOf_le_thinning key))
  · obtain ⟨p, s₁, hprep, _, hed, hl⟩ := put_ok hs hp
    have hthin : Thins (fun _ => False)
        (written key p persistent (c.clock s.ticks) { s with ticks := s.ticks + 1 }).entries
        s'.entries := by
      have h₁ : Edits c Permit.thinning _ s₁ := hed.mono (Permit.nothing_le _)
      have h₂ : Edits c Permit.thinning s₁ s' :=
        (edits_lookup (p := Permit.thinning) false trivial trivial).run hl
      exact Thins.edits (Permit.thinning_thinsOff _) (h₁.trans h₂)
    dsimp only
    rw [putRecord_eq (s.entries.get? key) hprep]
    refine h.write ?_ ?_
    · intro k e' hk hg
      obtain ⟨e, he, hw⟩ := hthin k e' not_false hg
      rw [get?_written, if_neg hk] at he
      exact ⟨e, he, hw⟩
    · intro e' hg
      obtain ⟨e, he, hw⟩ := hthin key e' not_false hg
      rw [get?_written, if_pos rfl, Option.some.injEq] at he
      rw [← hw, ← he]

theorem Refines.mset {s : Engine V} {m : TimedMap V} (hs : Sound c s) (h : Refines s.entries m)
    (values : List (Key × V)) :
    Refines (mset c values s).2.entries (m.afterCall c s (.mset values)) := by
  -- on success every pair was written by its own `put`
  have hwrites : ∀ (values : List (Key × V)) (s s' : Engine V) (m : TimedMap V), Sound c s →
      Refines s.entries m → forEach (msetWrite c) values s = (.ok (), s') →
      Refines s'.entries (values.foldl
        (fun m item => m.write item.1 (TimedMap.putRecord c item.2 none none [] true 0)) m) := by
    intro values
    induction values with
    | nil =>
      intro s s' m _ h hok
      simp only [forEach, run_pure, Prod.mk.injEq, true_and] at hok
      exact hok ▸ h
    | cons item values ih =>
      intro s s' m hs h hok
      rw [forEach, bind_eq_ok] at hok
      obtain ⟨_, s₁, hput, hok⟩ := hok
      rw [msetWrite, bind_eq_ok] at hput
      obtain ⟨r, s₂, hput, hret⟩ := hput
      obtain rfl : s₂ = s₁ := by simpa using hret
      have hsound : Sound c s₂ := (sound_put _ _ _ _ _ _ _).run hput hs
      have hstep := h.put hs item.1 item.2 none none [] none true
      rw [TimedMap.afterPut, hput] at hstep
      exact ih s₂ s' _ hsound hstep hok
  have hthin : Thins (· ∈ values.map Prod.fst) s.entries (Engine.mset c values s).2.entries := by
    refine Thins.edits (p := Permit.writing values) ⟨fun _ _ hk => hk, fun _ _ hu => hu.elim⟩
      (edits_mset (fun item hi => ?_) s)
    exact ⟨trivial, trivial, fun _ => List.mem_map_of_mem hi, trivial, trivial⟩
  simp only [TimedMap.afterCall]
  rcases hm : Engine.mset c values s with ⟨e | ⟨⟩, s'⟩
  · rw [hm] at hthin
    exact h.forget hthin
  · rw [Engine.mset, bind_eq_ok] at hm
    obtain ⟨_, s₁, hcheck, hok⟩ := hm
    have hedits : Edits c Permit.nothing s s₁ :=
      (Rel.forEach fun item _ => edits_msetCheck item).run hcheck
    have hs₁ : Sound c s₁ := hs.edits Permit.nothing_shrinking hedits
    exact hwrites values s₁ s' m hs₁ (h.thinned (hedits.mono (Permit.nothing_le _))) hok

theorem delete_ok {key : Key} {b : Bool} {s s' : Engine V} (h : delete key s = (.ok b, s')) :
    s'.entries = s.entries.erase key := by
  rw [delete, bind_eq_ok] at h
  obtain ⟨_, s₁, hkey, h⟩ := h
  obtain ⟨rfl, _⟩ := validateKey_ok hkey
  rw [run_lift, Prod.mk.injEq] at h
  rw [← h.2]
  simp only [deleteLocked]
  split <;> simp

theorem deleteMany_absent (c : EngineConfig V) {keys : List Key} {s s' : Engine V} {l : List Bool}
    (h : collect delete keys s = (.ok l, s')) : ∀ k ∈ keys, s'.entries.get? k = none := by
  induction keys generalizing s l with
  | nil => simp
  | cons key keys ih =>
    rw [collect, bind_eq_ok] at h
    obtain ⟨b, s₁, hdel, h⟩ := h
    rw [bind_eq_ok] at h
    obtain ⟨bs, s₂, hrest, h⟩ := h
    obtain rfl : s₂ = s' := (by simpa using h : _ ∧ s₂ = s').2
    intro k hk
    rcases List.mem_cons.mp hk with rfl | hk
    · have hgone : s₁.entries.get? k = none := by
        rw [delete_ok hdel]
        exact OrderedDict.get?_erase_self _ _
      have hthin : Edits c (Permit.thinning : Permit V) s₁ s₂ :=
        (Rel.collect fun k _ => edits_delete (p := Permit.thinning) (c := c) trivial trivial).run hrest
      exact (Thins.edits (Permit.thinning_thinsOff fun _ => False) hthin).get?_none not_false hgone
    · exact ih hrest k hk

theorem expire_cases (key : Key) (ttlSeconds : ℤ) (s : Engine V) :
    (∃ r s', expire c key ttlSeconds s = (r, s') ∧ r ≠ .ok true ∧
      Edits c (Permit.readsOf key) s s') ∨
    ∃ res s₁, ∃ n : ℕ, lookup c key false s = (.ok res, s₁) ∧ (n : ℤ) = ttlSeconds ∧
      expire c key ttlSeconds s = (.ok true, bump .expirationsSet 1
        (updateEntry key (expiringEntry (c.clock (s.ticks + 1) + n) n)
          { s₁ with ticks := s₁.ticks + 1 })) := by
  rcases hk : validateKey key s with ⟨e | ⟨⟩, s₁⟩
  · left
    exact ⟨_, _, run_bind_error hk _, by simp, (edits_validateKey key).run hk⟩
  obtain ⟨rfl, _⟩ := validateKey_ok hk
  rcases hd : duration (some ttlSeconds) 0 "ttl_seconds" false s₁ with ⟨e | n, s₂⟩
  · left
    refine ⟨.error e, s₂, ?_, by simp, (edits_duration _ _ _ _).run hd⟩
    rw [expire, run_bind_ok hk, run_bind_error hd]
  obtain ⟨rfl, hn⟩ := duration_ok hd
  obtain ⟨res, s₃, hl⟩ : ∃ res s₃, lookup c key false s₂ = (.ok res, s₃) := ⟨_, _, rfl⟩
  by_cases hmiss : res.state = .miss
  · left
    refine ⟨.ok false, s₃, ?_, by simp,
      (edits_lookup (p := Permit.readsOf key) false rfl rfl).run hl⟩
    rw [expire, run_bind_ok hk, run_bind_ok hd, run_bind_ok hl, if_pos hmiss]
    rfl
  · right
    refine ⟨res, s₃, n, hl, by simpa using hn, ?_⟩
    rw [expire, run_bind_ok hk, run_bind_ok hd, run_bind_ok hl, if_neg hmiss, ← lookup_ticks hl]
    rfl

theorem Permit.readsOf_le_thinning (key : Key) :
    (Permit.readsOf key : Permit V).Le Permit.thinning :=
  { Permit.nothing_le Permit.thinning with
    touch := fun _ _ => trivial
    expire := fun _ _ => trivial }

theorem Refines.expire {s : Engine V} {m : TimedMap V} (h : Refines s.entries m) (key : Key)
    (ttlSeconds : ℤ) : Refines (expire c key ttlSeconds s).2.entries
      (m.afterCall c s (.expire key ttlSeconds)) := by
  simp only [TimedMap.afterCall]
  rcases expire_cases (c := c) key ttlSeconds s with
    ⟨r, s', he, hr, hed⟩ | ⟨res, s₁, n, hl, hn, he⟩ <;> rw [he]
  · have hsame := h.thinned (hed.mono (Permit.readsOf_le_thinning key))
    split
    · rename_i hr'
      exact absurd hr' hr
    · exact hsame
  · have h₁ : Refines s₁.entries m :=
      h.thinned ((edits_lookup (p := Permit.thinning) false trivial trivial).run hl)
    intro k e hg
    change (updateEntry key _ { s₁ with ticks := s₁.ticks + 1 }).entries.get? k = some e at hg
    rw [get?_updateEntry] at hg
    have hq : ((n : ℕ) : ℚ) = ((ttlSeconds : ℤ) : ℚ) := by
      rw [← hn]
      simp
    simp only [TimedMap.reschedule]
    by_cases hk : k = key
    · rw [if_pos hk] at hg
      obtain ⟨e₁, he₁, rfl⟩ := Option.map_eq_some_iff.mp hg
      rcases h₁ key e₁ he₁ with hu | hw
      · simp [hk, hu]
      · simp [hk, hw, expiringEntry, Entry.written, hq]
    · rw [if_neg hk] at hg
      rcases h₁ k e hg with hu | hw
      · simp [hu]
      · simp [hw, hk]

theorem foldl_write_of_none {f : StorageEntry V → Option (Written V)} {k : Key}
    (l : List (StorageEntry V)) (h : ∀ item ∈ l, item.key = k → f item = none)
    (m : TimedMap V) : (l.foldl (fun m item => m.write item.key (f item)) m) k = m k := by
  induction l generalizing m with
  | nil => rfl
  | cons item l ih =>
    rw [List.foldl_cons, ih fun i hi => h i (List.mem_cons_of_mem item hi)]
    by_cases hk : item.key = k
    · rw [h item List.mem_cons_self hk]
      rfl
    · have hk' : ¬k = item.key := fun he => hk he.symm
      cases f item <;> simp [TimedMap.write, hk']

theorem foldl_write_of_mem {f : StorageEntry V → Option (Written V)} {item : StorageEntry V}
    {w : Written V} (hf : f item = some w) (l : List (StorageEntry V))
    (hn : (l.map StorageEntry.key).Nodup) (hi : item ∈ l) (m : TimedMap V) :
    (l.foldl (fun m item => m.write item.key (f item)) m) item.key = .written w := by
  induction l generalizing m with
  | nil => simp at hi
  | cons r l ih =>
    simp only [List.map_cons, List.nodup_cons] at hn
    rw [List.foldl_cons]
    rcases List.mem_cons.mp hi with rfl | hi
    · rw [foldl_write_of_none, hf]
      · simp [TimedMap.write]
      · intro i hil hk
        exact absurd (hk ▸ List.mem_map_of_mem hil) hn.1
    · exact ih hn.2 hi _

theorem restoreRecord_eq {item : StorageEntry V} {q : PreparedRestore V} {now : ℚ}
    (h : RestoresFrom c item q) :
    TimedMap.restoreRecord c item now = some (restoredEntry now q).written := by
  have hw := h.windows
  have hu := h.unspent
  unfold RestoreWindows at hw
  simp only [TimedMap.restoreRecord, h.value_eq, Option.bind_some]
  by_cases hp : item.persistent
  · rw [if_pos hp] at hw ⊢
    simp [restoredEntry, Entry.written, hw, h.tags_eq]
  · rw [if_neg hp] at hw ⊢
    obtain ⟨f, t, hf, ht, _, _, hq⟩ := hw
    have hpos : ¬f + t ≤ 0 := by simpa [hq, windowsSpent] using hu
    simp [hf, ht, hpos, restoredEntry, Entry.written, hq, h.tags_eq]

theorem restoreRecord_spent {item : StorageEntry V} {w : Option (ℚ × ℚ)} {now : ℚ}
    (h : RestoreWindows item w) (hs : windowsSpent w = true) :
    TimedMap.restoreRecord c item now = none := by
  unfold RestoreWindows at h
  by_cases hp : item.persistent
  · rw [if_pos hp] at h
    simp [h, windowsSpent] at hs
  · rw [if_neg hp] at h
    obtain ⟨f, t, hf, ht, _, _, rfl⟩ := h
    have hle : f + t ≤ 0 := by simpa [windowsSpent] using hs
    simp only [TimedMap.restoreRecord, hp, Bool.false_eq_true, ↓reduceIte, hf, ht, hle]
    cases c.codec.snapshotValue item.value <;> rfl

theorem Refines.restoreEntries {s : Engine V} {m : TimedMap V} (h : Refines s.entries m)
    (entries : List (StorageEntry V)) : Refines (restoreEntries c entries s).2.entries
      (m.afterCall c s (.restoreEntries entries)) := by
  simp only [TimedMap.afterCall]
  rcases restoreEntries_cases (c := c) entries s with
    ⟨e, s', hr, hed⟩ | ⟨prepared, now, s₁, hr, hed, hnow, hfrom, _⟩ <;> rw [hr]
  · exact h.thinned (hed.mono Permit.purges_le_thinning)
  · have h₁ := h.thinned (hed.mono Permit.purges_le_thinning)
    subst hnow
    intro k e' hg
    dsimp only at hg ⊢
    by_cases hk : k ∈ prepared.map PreparedRestore.key
    · obtain ⟨q, hq, rfl⟩ := List.mem_map.mp hk
      rw [get?_restoreAll_of_mem hfrom.nodup hq, Option.some.injEq] at hg
      obtain ⟨item, hitem, hres⟩ := hfrom.restores q hq
      right
      rw [hres.key_eq, ← hg]
      exact foldl_write_of_mem (restoreRecord_eq hres) entries hfrom.keys_nodup hitem m
    · rw [get?_restoreAll_of_notMem hk] at hg
      rw [foldl_write_of_none]
      · exact h₁ k e' hg
      · intro item hitem hkey
        rcases hfrom.covers item hitem with ⟨q, hq, hres⟩ | ⟨w, hw, hs⟩
        · exact absurd (hkey ▸ hres.key_eq ▸ List.mem_map_of_mem hq) hk
        · exact restoreRecord_spent hw hs

theorem get?_dropAll (l : List Key) (s : Engine V) (k : Key) :
    (l.foldl (fun s k => removeLease k (removeEntry k s)) s).entries.get? k =
      if k ∈ l then none else s.entries.get? k := by
  induction l generalizing s with
  | nil => simp
  | cons a l ih =>
    rw [List.foldl_cons, ih, removeLease_entries, removeEntry_entries, OrderedDict.get?_erase]
    by_cases ha : k = a
    · simp [ha]
    · simp [ha]

/-- The keys that `invalidate_tags` selects are those of the entries with one of the tags. -/
theorem mem_taggedKeys {tags : List Tag} {s : Engine V} (hi : Indexes s.tags s.entries) {k : Key} :
    k ∈ taggedKeys tags s ↔ ∃ e, s.entries.get? k = some e ∧ ∃ t ∈ tags, t ∈ e.tags := by
  have hb : ∀ t, k ∈ s.bucket t ↔ ∃ e, s.entries.get? k = some e ∧ t ∈ e.tags :=
    fun t => hi.mem_iff t k
  simp only [taggedKeys, List.mem_filter, List.mem_dedup, List.mem_append, List.any_eq_true,
    decide_eq_true_eq, hb]
  constructor
  · rintro ⟨_, t, ht, e, he, hte⟩
    exact ⟨e, he, t, ht, hte⟩
  · rintro ⟨e, he, t, ht, hte⟩
    exact ⟨.inl (OrderedDict.mem_keys.mpr ⟨e, he⟩), t, ht, e, he, hte⟩

theorem invalidateTags_cases (tags : List Tag) (s : Engine V) :
    (∃ e, invalidateTags tags s = (.error e, s)) ∨
    ∃ n, invalidateTags tags s = (.ok n, (invalidateLocked tags s).2) := by
  rcases hn : normalizeTags tags s with ⟨e | normalized, s₁⟩
  · left
    refine ⟨e, ?_⟩
    have hs : s₁ = s := by
      unfold normalizeTags at hn
      split_ifs at hn <;> simp at hn <;> exact hn.2.symm
    rw [invalidateTags, run_bind_error hn, hs]
  · obtain ⟨rfl, rfl, -⟩ := normalizeTags_ok hn
    right
    exact ⟨_, run_bind_ok hn _⟩

theorem get?_invalidateLocked {tags : List Tag} {s : Engine V} (hi : Indexes s.tags s.entries)
    (k : Key) : (invalidateLocked tags s).2.entries.get? k =
      (s.entries.get? k).filter fun e => ¬∃ t ∈ tags, t ∈ e.tags := by
  simp only [invalidateLocked, bump_entries, get?_dropAll, mem_taggedKeys hi]
  cases hg : s.entries.get? k with
  | none => simp
  | some e =>
    by_cases ht : ∃ t ∈ tags, t ∈ e.tags
    · rw [if_pos ⟨e, rfl, ht⟩, Option.filter_some_neg]
      simpa using ht
    · rw [if_neg, Option.filter_some_pos]
      · simpa using ht
      · rintro ⟨e', he', ht'⟩
        obtain rfl := Option.some.inj he'
        exact ht ht'

theorem Refines.invalidateTags {s : Engine V} {m : TimedMap V} (hs : Sound c s)
    (h : Refines s.entries m) (tags : List Tag) : Refines (invalidateTags tags s).2.entries
      (m.afterCall c s (.invalidateTags tags)) := by
  simp only [TimedMap.afterCall]
  rcases invalidateTags_cases tags s with ⟨e, hr⟩ | ⟨n, hr⟩ <;> rw [hr]
  · exact h
  · intro k e hg
    rw [get?_invalidateLocked hs.accounts.indexes, Option.filter_eq_some_iff] at hg
    have ht : ¬∃ t ∈ tags, t ∈ e.tags := by simpa using hg.2
    simp only [TimedMap.removeTagged]
    rcases h k e hg.1 with hu | hw
    · simp [hu]
    · have ht' : ¬∃ t ∈ tags, t ∈ e.written.tags := ht
      simp only [hw, ht', ↓reduceIte, or_true]

/-- `get_or_load` after its lookup: the hit is returned, or the loader's outcome decides. -/
theorem getOrLoad_eq (key : Key) (loaded : Except PyError V)
    (ttlSeconds staleSeconds : Option ℤ) (tags : List Tag) (s : Engine V) :
    getOrLoad c key loaded ttlSeconds staleSeconds tags s =
      (match getEntry c key s with
      | (.error e, s₁) => (.error e, s₁)
      | (.ok cached, s₁) =>
        if cached.state ≠ .miss then (.ok cached, s₁)
        else
          match loaded with
          | .error e => (.error e, bump .loadErrors 1 s₁)
          | .ok value =>
            match put c key value ttlSeconds staleSeconds tags none false s₁ with
            | (.ok r, s₂) => (.ok r, s₂)
            | (.error e, s₂) => (.error e, bump .loadErrors 1 s₂)) := by
  unfold Engine.getOrLoad Engine.getEntry
  rw [run_bind, run_bind]
  rcases validateKey key s with ⟨e | ⟨⟩, s₀⟩
  · rfl
  · dsimp only
    rw [run_bind]
    rcases lookup c key true s₀ with ⟨e | cached, s₁⟩
    · rfl
    · dsimp only
      by_cases hc : cached.state ≠ .miss
      · simp only [if_pos hc]
        rfl
      · simp only [if_neg hc]
        rw [run_tryCatch]
        cases loaded with
        | error e => rfl
        | ok value =>
          dsimp only
          rcases put c key value ttlSeconds staleSeconds tags none false s₁ with ⟨e | r, s₂⟩
          · rfl
          · rfl

theorem Refines.getOrLoad {s : Engine V} {m : TimedMap V} (hs : Sound c s)
    (h : Refines s.entries m) (key : Key) (loaded : Except PyError V)
    (ttlSeconds staleSeconds : Option ℤ) (tags : List Tag) :
    Refines (getOrLoad c key loaded ttlSeconds staleSeconds tags s).2.entries
      (m.afterCall c s (.getOrLoad key loaded ttlSeconds staleSeconds tags)) := by
  have hread : Edits c Permit.thinning s (Engine.getEntry c key s).2 :=
    edits_getEntry (p := Permit.thinning) trivial trivial s
  have hsread : Sound c (Engine.getEntry c key s).2 :=
    sound_edits (Permit.readsOf_shrinking key) (edits_getEntry rfl rfl) s hs
  rw [getOrLoad_eq]
  simp only [TimedMap.afterCall]
  rcases hg : Engine.getEntry c key s with ⟨e | cached, s₁⟩ <;> rw [hg] at hread hsread
  · have h₁ := h.thinned hread
    cases loaded <;> exact h₁
  · have h₁ := h.thinned hread
    by_cases hc : cached.state = .miss
    · simp only [hc, ne_eq, not_true_eq_false, ↓reduceIte]
      cases loaded with
      | error e => exact h₁
      | ok value =>
        have hput := h₁.put hsread key value ttlSeconds staleSeconds tags none false
        dsimp only at hput ⊢
        rw [if_pos hc]
        rcases hp : Engine.put c key value ttlSeconds staleSeconds tags none false s₁ with
          ⟨e | r, s₂⟩ <;> rw [hp] at hput <;> exact hput
    · simp only [hc, ne_eq, not_false_eq_true, ↓reduceIte]
      cases loaded with
      | error e => exact h₁
      | ok value =>
        dsimp only
        rw [if_neg hc]
        exact h₁

/-- Every public call takes a refining engine to one that refines the map after the call. -/
theorem Call.refines (call : Call V) {s : Engine V} {m : TimedMap V} (hs : Sound c s)
    (h : Refines s.entries m) : Refines (call.run c s).entries (m.afterCall c s call) := by
  have hthin : ∀ s', Edits c Permit.thinning s s' → Refines s'.entries m := fun s' => h.thinned
  cases call with
  | get key => exact hthin _ (edits_getEntry trivial trivial s)
  | mget keys => exact hthin _ (edits_mget (fun _ _ => trivial) (fun _ _ => trivial) s)
  | put => exact h.put hs _ _ _ _ _ _ _
  | mset values => exact h.mset hs values
  | delete key =>
    have hdel := hthin (Engine.delete key s).2 (edits_delete trivial trivial s)
    simp only [Call.run, TimedMap.afterCall]
    rcases hd : Engine.delete key s with ⟨e | b, s'⟩ <;> rw [hd] at hdel
    · exact hdel
    · refine hdel.remove ?_
      intro k hk
      obtain rfl : k = key := by simpa using hk
      rw [delete_ok hd]
      exact OrderedDict.get?_erase_self _ _
  | deleteMany keys =>
    have hdel := hthin (Engine.deleteMany keys s).2
      (edits_deleteMany (fun _ _ => trivial) (fun _ _ => trivial) s)
    simp only [Call.run, TimedMap.afterCall]
    rcases hd : Engine.deleteMany keys s with ⟨e | n, s'⟩ <;> rw [hd] at hdel
    · exact hdel
    · rw [Engine.deleteMany, bind_eq_ok] at hd
      obtain ⟨l, s₁, hc, hret⟩ := hd
      obtain rfl : s₁ = s' := (by simpa using hret : _ ∧ s₁ = s').2
      exact hdel.remove (deleteMany_absent c hc)
  | existsCount keys =>
    exact hthin _ (edits_existsCount (fun _ _ => trivial) (fun _ _ => trivial) s)
  | expire key ttlSeconds => exact h.expire key ttlSeconds
  | ttl key => exact hthin _ (edits_ttl trivial trivial s)
  | flush =>
    intro k e hg
    simp [Call.run, Engine.flush] at hg
  | size => exact hthin _ (edits_size (fun _ => trivial) (fun _ => trivial) s)
  | keys => exact hthin _ (edits_keys (fun _ => trivial) s)
  | exportEntries keys => exact hthin _ (edits_exportEntries (fun _ => trivial) s)
  | restoreEntries entries => exact h.restoreEntries entries
  | validatePut => exact hthin _ (edits_validatePut _ _ _ _ _ _ _ s)
  | validateRestoreEntries entries =>
    exact hthin _ (edits_validateRestoreEntries (fun _ => trivial) _ s)
  | invalidateTags tags => exact h.invalidateTags hs tags
  | acquireLease key force =>
    exact hthin _ (edits_acquireLease force trivial trivial (fun _ => trivial)
      (fun _ => trivial) s)
  | releaseLease key => exact hthin _ (edits_releaseLease trivial _ s)
  | renewLease key => exact hthin _ (edits_renewLease trivial trivial _ s)
  | getOrLoad => exact h.getOrLoad hs _ _ _ _ _
  | recordLoadCost key durationMs =>
    exact hthin _ (edits_recordLoadCost (fun _ _ => rfl) durationMs s)
  | stats =>
    exact hthin _ (edits_stats (fun _ => trivial) (fun _ => trivial) (fun _ => trivial) s)

end Engine
end MegaCache
