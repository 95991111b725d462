import MegaCache.Engine.OperationEdits

/-!
# Writes, restores and leases

What `put`, `restore_entries` and `acquire_lease` do on each exit.  Their
capacity checks are what keeps the limits; in particular the eviction loop
always ends within them.
-/

namespace MegaCache
namespace Engine

open Prog

variable {V : Type} {c : EngineConfig V}

/-! ## Checks that leave the state alone -/

theorem validateKey_ok {key : Key} {s s' : Engine V}
    (h : validateKey key s = (.ok (), s')) : s' = s ∧ key ≠ "" ∧ key.length ≤ 1024 := by
  unfold validateKey at h
  split_ifs at h with hk
  · simp at h
  · simp only [run_pure, Prod.mk.injEq, true_and] at h
    push Not at hk
    exact ⟨h.symm, hk⟩

theorem duration_ok {value : Option ℤ} {d : ℕ} {name : String} {z : Bool} {s s' : Engine V}
    {n : ℕ} (h : duration value d name z s = (.ok n, s')) :
    s' = s ∧ (n : ℤ) = value.getD d := by
  unfold duration at h
  by_cases hz : value.getD d < (if z then 0 else 1)
  · rw [if_pos hz] at h
    simp at h
  · rw [if_neg hz] at h
    simp only [run_pure, Prod.mk.injEq, Except.ok.injEq] at h
    refine ⟨h.2.symm, ?_⟩
    have hnonneg : 0 ≤ value.getD (d : ℤ) := by
      cases z <;> simp at hz <;> omega
    omega

/-- The tags that an entry may have. -/
def TagsFit (tags : List Tag) : Prop :=
  tags.length ≤ 100 ∧ ∀ tag ∈ tags, tag ≠ "" ∧ tag.utf8ByteSize ≤ 256

theorem normalizeTags_ok {tags normalized : List Tag} {s s' : Engine V}
    (h : normalizeTags tags s = (.ok normalized, s')) :
    s' = s ∧ normalized = tags ∧ TagsFit tags := by
  unfold normalizeTags at h
  split_ifs at h with hlen htag
  · simp at h
  · simp at h
  · simp only [run_pure, Prod.mk.injEq, Except.ok.injEq] at h
    refine ⟨h.2.symm, h.1.symm, not_lt.mp hlen, ?_⟩
    simpa only [List.any_eq_true, Bool.or_eq_true, decide_eq_true_eq, not_exists, not_and, not_or,
      not_lt] using htag

theorem normalizeTags_fit {tags : List Tag} (h : TagsFit tags) (s : Engine V) :
    normalizeTags tags s = (.ok tags, s) := by
  have hany : ¬(tags.any fun tag => tag = "" || 256 < tag.utf8ByteSize) = true := by
    simpa only [List.any_eq_true, Bool.or_eq_true, decide_eq_true_eq, not_exists, not_and, not_or,
      not_lt] using h.2
  rw [normalizeTags, if_neg (not_lt.mpr h.1), if_neg hany]
  rfl

theorem snapshotValue_ok {value stored : V} {s s' : Engine V}
    (h : snapshotValue c value s = (.ok stored, s')) :
    s' = s ∧ c.codec.snapshotValue value = some stored := by
  unfold snapshotValue at h
  cases hv : c.codec.snapshotValue value with
  | none => simp [hv] at h
  | some w =>
    simp only [hv, run_pure, Prod.mk.injEq, Except.ok.injEq] at h
    exact ⟨h.2.symm, congrArg some h.1⟩

/-- The number of bytes counted for an entry. -/
def Sized (c : EngineConfig V) (key : Key) (value : V) (tags : List Tag) (n : ℕ) : Prop :=
  ∃ m, c.codec.valueBytes value = some m ∧ n = m + metadataBytes key tags

theorem entrySize_ok {key : Key} {value : V} {tags : List Tag} {n : ℕ} {s s' : Engine V}
    (h : entrySize c key value tags s = (.ok n, s')) : s' = s ∧ Sized c key value tags n := by
  unfold entrySize at h
  cases hv : c.codec.valueBytes value with
  | none => simp [hv] at h
  | some m =>
    simp only [hv, run_pure, Prod.mk.injEq, Except.ok.injEq] at h
    exact ⟨h.2.symm, m, hv, h.1.symm⟩

/-- The windows of a write: infinite for a persistent one, else given or by default. -/
def PutWindows (c : EngineConfig V) (ttlSeconds staleSeconds : Option ℤ) (persistent : Bool)
    (w : Deadline × ℕ) : Prop :=
  if persistent then w = (⊤, 0)
  else ∃ n : ℕ, w.1 = ((n : ℚ) : Deadline) ∧ (n : ℤ) = ttlSeconds.getD c.defaultTtlSeconds ∧
    (w.2 : ℤ) = staleSeconds.getD c.defaultStaleSeconds

theorem putWindows_ok {ttlSeconds staleSeconds : Option ℤ} {persistent : Bool}
    {w : Deadline × ℕ} {s s' : Engine V}
    (h : putWindows c ttlSeconds staleSeconds persistent s = (.ok w, s')) :
    s' = s ∧ PutWindows c ttlSeconds staleSeconds persistent w := by
  unfold putWindows at h
  unfold PutWindows
  cases persistent with
  | true =>
    rw [if_pos rfl] at h ⊢
    split_ifs at h
    · simp at h
    · simp only [run_pure, Prod.mk.injEq, Except.ok.injEq] at h
      exact ⟨h.2.symm, h.1.symm⟩
  | false =>
    rw [if_neg (by simp), bind_eq_ok] at h
    rw [if_neg (by simp)]
    obtain ⟨n, s₁, hn, h⟩ := h
    rw [bind_eq_ok] at h
    obtain ⟨m, s₂, hm, h⟩ := h
    obtain ⟨rfl, httl⟩ := duration_ok hn
    obtain ⟨rfl, hstale⟩ := duration_ok hm
    simp only [run_pure, Prod.mk.injEq, Except.ok.injEq] at h
    obtain ⟨rfl, rfl⟩ := h
    exact ⟨rfl, n, rfl, httl, hstale⟩

/-- What `_prepare_put` promises about the arguments it hands on. -/
structure Prepared (c : EngineConfig V) (key : Key) (value : V)
    (ttlSeconds staleSeconds : Option ℤ) (tags : List Tag) (persistent : Bool)
    (p : PreparedPut V) : Prop where
  key_ne : key ≠ ""
  key_le : key.length ≤ 1024
  value_eq : c.codec.snapshotValue value = some p.storedValue
  windows : PutWindows c ttlSeconds staleSeconds persistent (p.ttl, p.stale)
  tags_eq : p.tags = tags.dedup
  tags_fit : TagsFit tags
  sized : Sized c key p.storedValue p.tags p.sizeBytes
  size_le : p.sizeBytes ≤ c.maxMemoryBytes
  size_le_entry : p.sizeBytes ≤ c.maxEntryBytes

theorem preparePut_ok {key : Key} {value : V} {ttlSeconds staleSeconds : Option ℤ}
    {tags : List Tag} {persistent count : Bool} {p : PreparedPut V} {s s' : Engine V}
    (h : preparePut c key value ttlSeconds staleSeconds tags persistent count s = (.ok p, s')) :
    s' = s ∧ Prepared c key value ttlSeconds staleSeconds tags persistent p := by
  rw [preparePut, bind_eq_ok] at h
  obtain ⟨_, s₁, hkey, h⟩ := h
  rw [bind_eq_ok] at h
  obtain ⟨w, s₂, hw, h⟩ := h
  rw [bind_eq_ok] at h
  obtain ⟨norm, s₃, hnorm, h⟩ := h
  rw [bind_eq_ok] at h
  obtain ⟨v, s₄, hv, h⟩ := h
  rw [bind_eq_ok] at h
  obtain ⟨n, s₅, hn, h⟩ := h
  obtain ⟨rfl, hne, hle⟩ := validateKey_ok hkey
  obtain ⟨rfl, hwindows⟩ := putWindows_ok hw
  obtain ⟨rfl, rfl, hfit⟩ := normalizeTags_ok hnorm
  obtain ⟨rfl, hstored⟩ := snapshotValue_ok hv
  obtain ⟨rfl, hsized⟩ := entrySize_ok hn
  split_ifs at h with h₁ h₂
  · simp [run_bind] at h
  · simp [run_bind] at h
  · simp only [run_pure, Prod.mk.injEq, Except.ok.injEq] at h
    obtain ⟨rfl, rfl⟩ := h
    exact ⟨rfl, hne, hle, hstored, hwindows, rfl, hfit, hsized, not_lt.mp h₂, not_lt.mp h₁⟩

/-- The lease that a guarded write at time `now` needs. -/
def Guarded (key : Key) (token : Option String) (now : ℚ) (s : Engine V) : Prop :=
  ∀ t, token = some t → ∃ l, s.leases.get? key = some l ∧ now < l.untilTime ∧ l.token = t

theorem compareDigest_ok {a b : String} {same : Bool} {s s' : Engine V}
    (h : compareDigest a b s = (.ok same, s')) : s' = s ∧ (same = true ↔ a = b) := by
  unfold compareDigest at h
  split_ifs at h
  · simp only [run_pure, Prod.mk.injEq, Except.ok.injEq] at h
    obtain ⟨rfl, rfl⟩ := h
    exact ⟨rfl, by simp⟩
  · simp at h

theorem checkLease_ok {key : Key} {token : Option String} {now : ℚ} {s s' : Engine V}
    (h : checkLease key token now s = (.ok (), s')) : s' = s ∧ Guarded key token now s := by
  unfold checkLease at h
  cases token with
  | none =>
    simp only [run_pure, Prod.mk.injEq, true_and] at h
    exact ⟨h.symm, by simp [Guarded]⟩
  | some t =>
    dsimp only at h
    rw [run_bind_ok (run_get s)] at h
    cases hg : s.leases.get? key with
    | none => simp [hg] at h
    | some l =>
      simp only [hg] at h
      by_cases hd : l.untilTime ≤ now
      · simp [hd, run_bind] at h
      · simp only [hd, ↓reduceIte] at h
        rw [bind_eq_ok] at h
        obtain ⟨same, s₁, hsame, h⟩ := h
        obtain ⟨rfl, hiff⟩ := compareDigest_ok hsame
        split_ifs at h with ht
        · simp only [run_pure, Prod.mk.injEq, true_and] at h
          refine ⟨h.symm, ?_⟩
          intro t' ht'
          rw [Option.some.injEq] at ht'
          exact ⟨l, hg, not_le.mp hd, ht' ▸ hiff.mp ht⟩
        · simp at h

/-- The lease check changes no entry. -/
theorem checkLease_entries (key : Key) (token : Option String) (now : ℚ) (s : Engine V) :
    (checkLease key token now s).2.entries = s.entries := by
  unfold checkLease
  cases token with
  | none => rfl
  | some t =>
    dsimp only
    rw [run_bind_ok (run_get s)]
    cases hg : s.leases.get? key with
    | none => rfl
    | some l =>
      dsimp only
      by_cases hd : l.untilTime ≤ now
      · rw [if_pos hd]
        exact removeLease_entries key s
      · rw [if_neg hd, compareDigest]
        split_ifs
        · rw [run_bind_ok (run_pure _ s)]
          split_ifs <;> rfl
        · rfl

/-! ## Eviction -/

theorem entryBytes_of_size_zero {d : OrderedDict Key (Entry V)} (h : d.size = 0) :
    entryBytes d = 0 := by
  have : d.toList = [] := List.length_eq_zero_iff.mp h
  simp [entryBytes, OrderedDict.sumBy, this]

/-- With the accounts in order and the leases within the memory limit, the
eviction loop ends normally and within both limits. -/
theorem evictLoop_ok (n : ℕ) {s : Engine V} (h : Accounts s)
    (hl : s.leaseBytes ≤ c.maxMemoryBytes) (hn : s.entries.size = n) :
    ∃ s', evictLoop c n s = (.ok (), s') ∧ ¬overLimit c s' := by
  induction n generalizing s with
  | zero =>
    have hu : s.usedBytes = s.leaseBytes := by
      rw [h.usedBytes_eq, entryBytes_of_size_zero hn]
      omega
    have ho : ¬overLimit c s := by
      unfold overLimit
      omega
    refine ⟨s, ?_, ho⟩
    simp [evictLoop, run_bind, ho]
  | succ n ih =>
    by_cases ho : overLimit c s
    · obtain ⟨o, m, hv, hkey, hnone⟩ := victim_spec (c := c) s
      cases o with
      | none => simp [hnone rfl] at hn
      | some k =>
        obtain ⟨e, he⟩ := OrderedDict.mem_keys.mp (hkey k rfl).1
        have hs₁ : Accounts ({ s with ticks := s.ticks + m } : Engine V) :=
          ⟨h.leaseBytes_eq, h.usedBytes_eq, h.indexes⟩
        have hr := hs₁.removeEntry k
        have hsize := OrderedDict.size_erase he
        have hlease : ∀ x y : Metric, (bump x 1 (bump y 1
            (removeEntry k { s with ticks := s.ticks + m }))).leaseBytes ≤ c.maxMemoryBytes := by
          intro x y
          simpa using hl
        have hent : ∀ x y : Metric, (bump x 1 (bump y 1
            (removeEntry k { s with ticks := s.ticks + m }))).entries.size = n := by
          intro x y
          simp only [bump_entries, removeEntry_entries]
          omega
        have hacc : ∀ x y : Metric, Accounts (bump x 1 (bump y 1
            (removeEntry k { s with ticks := s.ticks + m }))) :=
          fun x y => ⟨hr.leaseBytes_eq, hr.usedBytes_eq, hr.indexes⟩
        simp only [evictLoop, run_bind, run_get, ho, ↓reduceIte, hv, run_modify]
        exact ih (hacc _ _) (hlease _ _) (hent _ _)
    · exact ⟨s, by simp [evictLoop, run_bind, ho], ho⟩

theorem evictIfNeeded_ok {s : Engine V} (h : Accounts s)
    (hl : s.leaseBytes ≤ c.maxMemoryBytes) :
    ∃ s', evictIfNeeded c s = (.ok (), s') ∧ ¬overLimit c s' :=
  evictLoop_ok s.entries.size h hl rfl

/-! ## `put` -/

theorem Permit.nothing_shrinking : (Permit.nothing : Permit V).Shrinking :=
  ⟨fun _ _ h => h, fun _ _ h => h⟩

/-- The edits of a rejected write: at most an expired lease of the key goes. -/
def Permit.lapseOf (key : Key) : Permit V := { Permit.nothing with lapse := (· = key) }

/-- The edits of reading one key. -/
def Permit.readsOf (key : Key) : Permit V :=
  { Permit.nothing with touch := (· = key), expire := (· = key) }

theorem Permit.lapseOf_shrinking (key : Key) : (Permit.lapseOf key : Permit V).Shrinking :=
  ⟨fun _ _ h => h, fun _ _ h => h⟩

theorem Permit.readsOf_shrinking (key : Key) : (Permit.readsOf key : Permit V).Shrinking :=
  ⟨fun _ _ h => h, fun _ _ h => h⟩

/-- The state in which an accepted write has stored its entry and consumed the
lease, before evictions. -/
def written (key : Key) (p : PreparedPut V) (persistent : Bool) (now : ℚ) (s : Engine V) :
    Engine V :=
  bump .writes 1 (removeLease key
    (storeEntry key (writtenEntry p persistent now (s.entries.get? key)) s))

/-- The two exits of the locked part of `put`. -/
theorem putLocked_cases (key : Key) (token : Option String) (persistent : Bool)
    (p : PreparedPut V) {now : ℚ} {s : Engine V} (ha : Accounts s) (hb : Bounded c s)
    (hnow : ∃ i < s.ticks, now = c.clock i) :
    (∃ e s', putLocked c key token persistent p now s = (.error e, s') ∧
      Edits c (Permit.lapseOf key) s s' ∧ s'.entries = s.entries ∧
      (token = none → (c.maxMemoryBytes : ℤ) < p.sizeBytes + reservedBytes key s)) ∨
    ∃ r s' s'', putLocked c key token persistent p now s = (.ok r, s'') ∧
      Guarded key token now s ∧ p.sizeBytes + reservedBytes key s ≤ c.maxMemoryBytes ∧
      Edits c Permit.nothing (written key p persistent now s) s' ∧ ¬overLimit c s' ∧
      lookup c key false s' = (.ok r, s'') := by
  have hcheck : Edits c (Permit.lapseOf key) s (checkLease key token now s).2 :=
    edits_checkLease rfl token hnow
  have hentries := checkLease_entries key token now s
  rcases hc : checkLease key token now s with ⟨e | ⟨⟩, s₁⟩
  · rw [hc] at hcheck hentries
    refine .inl ⟨e, s₁, run_bind_error hc _, hcheck, hentries, ?_⟩
    rintro rfl
    cases hc
  · obtain ⟨rfl, hg⟩ := checkLease_ok hc
    by_cases hcap : (c.maxMemoryBytes : ℤ) < p.sizeBytes + reservedBytes key s₁
    · refine .inl ⟨valueError "entry exceeds available cache memory",
        bump .rejectedEntries 1 s₁, ?_, Edits.one (.bump _ _ _), rfl, fun _ => hcap⟩
      simp [putLocked, run_bind, hc, hcap]
    · have haw : Accounts (written key p persistent now s₁) := by
        have h := (ha.storeEntry key (writtenEntry p persistent now (s₁.entries.get? key))).removeLease
          key
        exact ⟨h.leaseBytes_eq, h.usedBytes_eq, h.indexes⟩
      have hlw : (written key p persistent now s₁).leaseBytes ≤ c.maxMemoryBytes := by
        have hle := hb.usedBytes_le
        have hlu := ha.leaseBytes_le
        have hrl : (removeLease key (storeEntry key
            (writtenEntry p persistent now (s₁.entries.get? key)) s₁)).leaseBytes ≤
            s₁.leaseBytes := by
          unfold removeLease storeEntry
          split <;> simp
        change (removeLease key (storeEntry key
            (writtenEntry p persistent now (s₁.entries.get? key)) s₁)).leaseBytes ≤ _
        omega
      obtain ⟨s', hev, hno⟩ := evictIfNeeded_ok haw hlw
      have hed : Edits c Permit.nothing (written key p persistent now s₁) s' :=
        edits_evictIfNeeded.run hev
      refine .inr ⟨_, s', _, ?_, hg, not_lt.mp hcap, hed, hno, rfl⟩
      change evictIfNeeded c (bump .writes 1 (removeLease key (storeEntry key
        (writtenEntry p persistent now (s₁.entries.get? key)) s₁))) = _ at hev
      simp only [putLocked, run_bind, hc, run_get, hcap, ↓reduceIte, run_modify, hev]
      rfl

/-! ## `restore_entries` -/

theorem forEach_validateKey_ok {entries : List (StorageEntry V)} {s s' : Engine V}
    (h : forEach (fun item : StorageEntry V => validateKey item.key) entries s = (.ok (), s')) :
    s' = s ∧ ∀ item ∈ entries, item.key ≠ "" ∧ item.key.length ≤ 1024 := by
  induction entries generalizing s with
  | nil =>
    simp only [forEach, run_pure, Prod.mk.injEq, true_and] at h
    exact ⟨h.symm, by simp⟩
  | cons item entries ih =>
    rw [forEach, bind_eq_ok] at h
    obtain ⟨_, s₁, hkey, h⟩ := h
    obtain ⟨rfl, hitem⟩ := validateKey_ok hkey
    obtain ⟨rfl, hrest⟩ := ih h
    exact ⟨rfl, List.forall_mem_cons.mpr ⟨hitem, hrest⟩⟩

theorem snapshotDuration_ok {value : Option ℚ} {name : String} {q : ℚ} {s s' : Engine V}
    (h : snapshotDuration value name s = (.ok q, s')) : s' = s ∧ value = some q ∧ 0 ≤ q := by
  unfold snapshotDuration at h
  cases value with
  | none => simp at h
  | some x =>
    dsimp only at h
    split_ifs at h with hx
    · simp at h
    · simp only [run_pure, Prod.mk.injEq, Except.ok.injEq] at h
      obtain ⟨rfl, rfl⟩ := h
      exact ⟨rfl, rfl, not_lt.mp hx⟩

/-- The windows that a portable entry carries. -/
def RestoreWindows (item : StorageEntry V) (w : Option (ℚ × ℚ)) : Prop :=
  if item.persistent then w = none
  else ∃ f t, item.freshForSeconds = some f ∧ item.staleForSeconds = some t ∧ 0 ≤ f ∧ 0 ≤ t ∧
    w = some (f, t)

theorem restoreWindows_ok {item : StorageEntry V} {w : Option (ℚ × ℚ)} {s s' : Engine V}
    (h : restoreWindows item s = (.ok w, s')) : s' = s ∧ RestoreWindows item w := by
  unfold restoreWindows at h
  unfold RestoreWindows
  split_ifs at h ⊢ with hp
  · simp only [run_pure, Prod.mk.injEq, Except.ok.injEq] at h
    exact ⟨h.2.symm, h.1.symm⟩
  · rw [bind_eq_ok] at h
    obtain ⟨f, s₁, hf, h⟩ := h
    rw [bind_eq_ok] at h
    obtain ⟨t, s₂, ht, h⟩ := h
    obtain ⟨rfl, hf', hf0⟩ := snapshotDuration_ok hf
    obtain ⟨rfl, ht', ht0⟩ := snapshotDuration_ok ht
    simp only [run_pure, Prod.mk.injEq, Except.ok.injEq] at h
    obtain ⟨rfl, rfl⟩ := h
    exact ⟨rfl, f, t, hf', ht', hf0, ht0, rfl⟩

/-- What is restored from a portable entry with a window left. -/
structure RestoresFrom (c : EngineConfig V) (item : StorageEntry V) (q : PreparedRestore V) :
    Prop where
  key_eq : q.key = item.key
  value_eq : c.codec.snapshotValue item.value = some q.value
  windows : RestoreWindows item q.windows
  unspent : windowsSpent q.windows = false
  tags_eq : q.tags = item.tags.dedup
  tags_fit : TagsFit item.tags
  sized : Sized c item.key q.value q.tags q.sizeBytes
  size_le : q.sizeBytes ≤ c.maxEntryBytes ∧ q.sizeBytes ≤ c.maxMemoryBytes

theorem prepareRestoreOne_ok {item : StorageEntry V} {o : Option (PreparedRestore V)}
    {s s' : Engine V} (h : prepareRestoreOne c item s = (.ok o, s')) :
    s' = s ∧ (∀ q, o = some q → RestoresFrom c item q) ∧
      (o = none → ∃ w, RestoreWindows item w ∧ windowsSpent w = true) := by
  rw [prepareRestoreOne, bind_eq_ok] at h
  obtain ⟨norm, s₁, hnorm, h⟩ := h
  rw [bind_eq_ok] at h
  obtain ⟨v, s₂, hv, h⟩ := h
  rw [bind_eq_ok] at h
  obtain ⟨w, s₃, hw, h⟩ := h
  obtain ⟨rfl, rfl, hfit⟩ := normalizeTags_ok hnorm
  obtain ⟨rfl, hstored⟩ := snapshotValue_ok hv
  obtain ⟨rfl, hwindows⟩ := restoreWindows_ok hw
  split_ifs at h with hspent
  · simp only [run_pure, Prod.mk.injEq, Except.ok.injEq] at h
    obtain ⟨rfl, rfl⟩ := h
    exact ⟨rfl, by simp, fun _ => ⟨w, hwindows, hspent⟩⟩
  · rw [bind_eq_ok] at h
    obtain ⟨n, s₄, hn, h⟩ := h
    obtain ⟨rfl, hsized⟩ := entrySize_ok hn
    split_ifs at h with hlimits
    · simp at h
    · simp only [run_pure, Prod.mk.injEq, Except.ok.injEq] at h
      obtain ⟨rfl, rfl⟩ := h
      refine ⟨rfl, ?_, by simp⟩
      intro q hq
      rw [Option.some.injEq] at hq
      subst hq
      push Not at hlimits
      exact ⟨rfl, hstored, hwindows, by simpa using hspent, rfl, hfit, hsized, hlimits⟩

theorem collect_prepareRestoreOne_ok {entries : List (StorageEntry V)}
    {os : List (Option (PreparedRestore V))} {s s' : Engine V}
    (h : collect (prepareRestoreOne c) entries s = (.ok os, s')) :
    s' = s ∧
      ((os.filterMap id).map PreparedRestore.key).Sublist (entries.map StorageEntry.key) ∧
      (∀ q ∈ os.filterMap id, ∃ item ∈ entries, RestoresFrom c item q) ∧
      ∀ item ∈ entries, (∃ q ∈ os.filterMap id, RestoresFrom c item q) ∨
        ∃ w, RestoreWindows item w ∧ windowsSpent w = true := by
  induction entries generalizing s os with
  | nil =>
    simp only [collect, run_pure, Prod.mk.injEq, Except.ok.injEq] at h
    obtain ⟨rfl, rfl⟩ := h
    simp
  | cons item entries ih =>
    rw [collect, bind_eq_ok] at h
    obtain ⟨o, s₁, ho, h⟩ := h
    rw [bind_eq_ok] at h
    obtain ⟨rest, s₂, hrest, h⟩ := h
    simp only [run_pure, Prod.mk.injEq, Except.ok.injEq] at h
    obtain ⟨rfl, rfl⟩ := h
    obtain ⟨rfl, hone, hnone⟩ := prepareRestoreOne_ok ho
    obtain ⟨rfl, hsub, hfrom, hall⟩ := ih hrest
    cases o with
    | none =>
      simp only [List.filterMap_cons, id_eq, List.map_cons]
      refine ⟨trivial, hsub.cons _, ?_, ?_⟩
      · intro q hq
        obtain ⟨it, hit, hr⟩ := hfrom q hq
        exact ⟨it, List.mem_cons_of_mem _ hit, hr⟩
      · intro it hit
        rcases List.mem_cons.mp hit with rfl | hit
        · exact .inr (hnone rfl)
        · exact hall it hit
    | some q =>
      have hq := hone q rfl
      simp only [List.filterMap_cons, id_eq, List.map_cons, hq.key_eq]
      refine ⟨trivial, hsub.cons_cons _, ?_, ?_⟩
      · intro r hr
        rcases List.mem_cons.mp hr with rfl | hr
        · exact ⟨item, List.mem_cons_self, hq⟩
        · obtain ⟨it, hit, hr⟩ := hfrom r hr
          exact ⟨it, List.mem_cons_of_mem _ hit, hr⟩
      · intro it hit
        rcases List.mem_cons.mp hit with rfl | hit
        · exact .inl ⟨q, List.mem_cons_self, hq⟩
        · rcases hall it hit with ⟨r, hr, hfr⟩ | hw
          · exact .inl ⟨r, List.mem_cons_of_mem _ hr, hfr⟩
          · exact .inr hw

/-- What `_prepare_restore_entries` hands on. -/
structure PreparedFrom (c : EngineConfig V) (entries : List (StorageEntry V))
    (prepared : List (PreparedRestore V)) : Prop where
  keys_fit : ∀ item ∈ entries, item.key ≠ "" ∧ item.key.length ≤ 1024
  keys_nodup : (entries.map StorageEntry.key).Nodup
  nodup : (prepared.map PreparedRestore.key).Nodup
  restores : ∀ q ∈ prepared, ∃ item ∈ entries, RestoresFrom c item q
  covers : ∀ item ∈ entries, (∃ q ∈ prepared, RestoresFrom c item q) ∨
    ∃ w, RestoreWindows item w ∧ windowsSpent w = true

theorem prepareRestoreEntries_ok {entries : List (StorageEntry V)}
    {prepared : List (PreparedRestore V)} {s s' : Engine V}
    (h : prepareRestoreEntries c entries s = (.ok prepared, s')) :
    s' = s ∧ PreparedFrom c entries prepared := by
  rw [prepareRestoreEntries, bind_eq_ok] at h
  obtain ⟨_, s₁, hkeys, h⟩ := h
  obtain ⟨rfl, hfit⟩ := forEach_validateKey_ok hkeys
  split_ifs at h with hn
  · rw [bind_eq_ok] at h
    obtain ⟨os, s₂, hos, h⟩ := h
    obtain ⟨rfl, hsub, hfrom, hall⟩ := collect_prepareRestoreOne_ok hos
    simp only [run_pure, Prod.mk.injEq, Except.ok.injEq] at h
    obtain ⟨rfl, rfl⟩ := h
    exact ⟨rfl, hfit, hn, hsub.nodup hn, hfrom, hall⟩
  · simp at h

/-- The entries of `prepared` written one after another. -/
def restoreAll (now : ℚ) (prepared : List (PreparedRestore V)) (s : Engine V) : Engine V :=
  prepared.foldl (fun s q => storeEntry q.key (restoredEntry now q) s) s

theorem storeEntry_leases (k : Key) (e : Entry V) (s : Engine V) :
    (storeEntry k e s).leases = s.leases := by
  simp [storeEntry]

theorem storeEntry_leaseBytes (k : Key) (e : Entry V) (s : Engine V) :
    (storeEntry k e s).leaseBytes = s.leaseBytes := by
  simp [storeEntry]

theorem get?_storeEntry (k k' : Key) (e : Entry V) (s : Engine V) :
    (storeEntry k e s).entries.get? k' = if k' = k then some e else s.entries.get? k' := by
  rw [storeEntry_entries, OrderedDict.get?_setLast]

theorem restoreAll_leases (now : ℚ) (prepared : List (PreparedRestore V)) (s : Engine V) :
    (restoreAll now prepared s).leases = s.leases := by
  induction prepared generalizing s with
  | nil => rfl
  | cons q prepared ih => exact (ih _).trans (storeEntry_leases _ _ _)

theorem get?_restoreAll_of_notMem {now : ℚ} {prepared : List (PreparedRestore V)} {k : Key}
    (hk : k ∉ prepared.map PreparedRestore.key) (s : Engine V) :
    (restoreAll now prepared s).entries.get? k = s.entries.get? k := by
  induction prepared generalizing s with
  | nil => rfl
  | cons q prepared ih =>
    rw [List.map_cons, List.mem_cons, not_or] at hk
    have hstep : restoreAll now (q :: prepared) s =
        restoreAll now prepared (storeEntry q.key (restoredEntry now q) s) := rfl
    rw [hstep, ih hk.2, get?_storeEntry, if_neg hk.1]

theorem get?_restoreAll_of_mem {now : ℚ} {prepared : List (PreparedRestore V)}
    (hn : (prepared.map PreparedRestore.key).Nodup) {q : PreparedRestore V} (hq : q ∈ prepared)
    (s : Engine V) :
    (restoreAll now prepared s).entries.get? q.key = some (restoredEntry now q) := by
  induction prepared generalizing s with
  | nil => simp at hq
  | cons r prepared ih =>
    simp only [List.map_cons, List.nodup_cons] at hn
    have hstep : restoreAll now (r :: prepared) s =
        restoreAll now prepared (storeEntry r.key (restoredEntry now r) s) := rfl
    rw [hstep]
    rcases List.mem_cons.mp hq with rfl | hq
    · rw [get?_restoreAll_of_notMem hn.1, get?_storeEntry, if_pos rfl]
    · exact ih hn.2 hq _

/-- The count and the bytes that `_validate_prepared_restore_capacity` predicts. -/
theorem restoreAll_size {prepared : List (PreparedRestore V)} {s : Engine V}
    (hn : (prepared.map PreparedRestore.key).Nodup) (now : ℚ) :
    let replaced := prepared.filterMap fun q => s.entries.get? q.key
    ((restoreAll now prepared s).entries.size : ℤ) =
        s.entries.size - replaced.length + prepared.length ∧
      (restoreAll now prepared s).usedBytes =
        s.usedBytes - (replaced.map fun e => (e.sizeBytes : ℤ)).sum +
          (prepared.map fun q => (q.sizeBytes : ℤ)).sum := by
  induction prepared generalizing s with
  | nil => simp [restoreAll]
  | cons q prepared ih =>
    simp only [List.map_cons, List.nodup_cons] at hn
    obtain ⟨hsize, hused⟩ := ih (s := storeEntry q.key (restoredEntry now q) s) hn.2
    have hsame : (prepared.filterMap fun r =>
          (storeEntry q.key (restoredEntry now q) s).entries.get? r.key) =
        prepared.filterMap fun r => s.entries.get? r.key := by
      apply List.filterMap_congr
      intro r hr
      have hne : r.key ≠ q.key := fun he => hn.1 (he ▸ List.mem_map_of_mem hr)
      rw [get?_storeEntry, if_neg hne]
    rw [hsame] at hsize hused
    have hcons : restoreAll now (q :: prepared) s =
        restoreAll now prepared (storeEntry q.key (restoredEntry now q) s) := rfl
    have hstored : ((storeEntry q.key (restoredEntry now q) s).entries.size : ℤ) =
        (s.entries.erase q.key).size + 1 := by
      rw [storeEntry_entries, OrderedDict.size_setLast]
      push_cast
      ring
    have hbytes : (storeEntry q.key (restoredEntry now q) s).usedBytes =
        (removeEntry q.key s).usedBytes + q.sizeBytes := rfl
    simp only [List.filterMap_cons, List.length_cons, List.map_cons, List.sum_cons]
    cases hg : s.entries.get? q.key with
    | none =>
      rw [hcons, hsize, hused, hstored, hbytes, removeEntry_of_none hg,
        OrderedDict.erase_eq_self hg]
      push_cast
      constructor <;> ring
    | some e =>
      have herase := OrderedDict.size_erase hg
      simp only [List.map_cons, List.sum_cons, List.length_cons]
      rw [hcons, hsize, hused, hstored, hbytes, usedBytes_removeEntry hg, ← herase]
      push_cast
      constructor <;> ring

/-- The edits of purging expired entries. -/
def Permit.purges : Permit V := { Permit.nothing with expire := fun _ => True }

/-- Writing entries. -/
def Permit.stores : Permit V := { Permit.nothing with store := fun _ _ => True }

theorem Permit.purges_shrinking : (Permit.purges : Permit V).Shrinking :=
  ⟨fun _ _ h => h, fun _ _ h => h⟩

theorem purgeExpiredEntries_ticks (now : ℚ) (s : Engine V) :
    (purgeExpiredEntries now s).ticks = s.ticks := by
  have hfold : ∀ (l : List (Key × Entry V)) (u : Engine V),
      (l.foldl (fun s q => if q.2.staleUntil ≤ (now : Deadline) then removeEntry q.1 s else s)
        u).ticks = u.ticks := by
    intro l
    induction l with
    | nil => exact fun _ => rfl
    | cons q l ih =>
      intro u
      rw [List.foldl_cons, ih]
      split_ifs
      · exact removeEntry_ticks _ _
      · rfl
  exact hfold _ _

/-- The two exits of `restore_entries`. -/
theorem restoreEntries_cases (entries : List (StorageEntry V)) (s : Engine V) :
    (∃ e s', restoreEntries c entries s = (.error e, s') ∧ Edits c Permit.purges s s') ∨
    ∃ prepared now s₁, restoreEntries c entries s =
        (.ok prepared.length, restoreAll now prepared s₁) ∧
      Edits c Permit.purges s s₁ ∧ now = c.clock (s.ticks + 1) ∧
      PreparedFrom c entries prepared ∧
      (Bounded c s → Bounded c (restoreAll now prepared s₁)) := by
  have hprep : Edits c Permit.purges s (prepareRestoreEntries c entries s).2 :=
    edits_prepareRestoreEntries entries s
  rcases hp : prepareRestoreEntries c entries s with ⟨e | prepared, s₁⟩ <;> rw [hp] at hprep
  · exact .inl ⟨e, s₁, run_bind_error hp _, hprep⟩
  · obtain ⟨rfl, hfrom⟩ := prepareRestoreEntries_ok hp
    -- the purge at the first reading, then the capacity check
    set s₂ : Engine V := purgeExpiredEntries (c.clock s₁.ticks) { s₁ with ticks := s₁.ticks + 1 }
      with hs₂
    have hpurge : Edits c Permit.purges s₁ s₂ :=
      (Edits.one (.tick s₁)).trans (edits_purgeExpiredEntries (fun _ => trivial)
        ⟨s₁.ticks, Nat.lt_succ_self _, rfl⟩)
    rcases hc : validatePreparedRestoreCapacity c prepared s₂ with ⟨e | ⟨⟩, s₃⟩
    · have hcap : Edits c Permit.purges s₂ s₃ :=
        (edits_validatePreparedRestoreCapacity prepared).run hc
      refine .inl ⟨e, s₃, ?_, hpurge.trans hcap⟩
      simp only [restoreEntries, run_bind, hp, readClock, run_modify, ← hs₂, hc]
    · have hok := hc
      simp only [validatePreparedRestoreCapacity, run_bind, run_get, run_ite] at hok
      split_ifs at hok with hover
      · simp at hok
      · simp only [run_pure, Prod.mk.injEq, true_and] at hok
        subst hok
        set s₃ : Engine V := { s₂ with ticks := s₂.ticks + 1 } with hs₃
        refine .inr ⟨prepared, c.clock s₂.ticks, s₃, ?_, hpurge.tail (.tick s₂),
          congrArg c.clock (purgeExpiredEntries_ticks _ _), hfrom, ?_⟩
        · simp only [restoreEntries, run_bind, hp, readClock, run_modify, ← hs₂, hc, run_pure]
          rfl
        · intro hb
          have hb₂ : Bounded c s₂ := hb.edits Permit.purges_shrinking hpurge
          obtain ⟨hsize, hused⟩ := restoreAll_size (s := s₃) hfrom.nodup (c.clock s₂.ticks)
          push Not at hover
          refine ⟨?_, ?_, ?_⟩
          · rw [hused]
            exact hover.2
          · have := hover.1
            rw [← Int.ofNat_le]
            rw [hsize]
            exact this
          · rw [restoreAll_leases]
            exact hb₂.leases_le

/-! ## `acquire_lease` -/

theorem get?_purgeLeases (l : List (Key × Lease)) (now : ℚ) (s : Engine V) (k : Key) :
    (l.foldl (fun s q => if q.2.untilTime ≤ now then removeLease q.1 s else s) s).leases.get? k =
      if ∃ q ∈ l, q.1 = k ∧ q.2.untilTime ≤ now then none else s.leases.get? k := by
  induction l generalizing s with
  | nil => simp
  | cons q l ih =>
    rw [List.foldl_cons, ih]
    simp only [List.exists_mem_cons_iff]
    by_cases hd : q.2.untilTime ≤ now
    · by_cases hk : q.1 = k
      · have hk' : k = q.1 := hk.symm
        simp [hd, hk']
      · have hk' : ¬k = q.1 := fun h => hk h.symm
        simp only [hd, ↓reduceIte, removeLease_leases, OrderedDict.get?_erase, hk, hk', false_and,
          false_or]
    · simp only [hd, ↓reduceIte, and_false, false_or]

/-- After the purge exactly the leases whose deadline is still ahead are left. -/
theorem get?_purgeExpiredLeases (now : ℚ) (s : Engine V) (k : Key) :
    (purgeExpiredLeases now s).leases.get? k =
      (s.leases.get? k).filter fun l => now < l.untilTime := by
  unfold purgeExpiredLeases
  rw [get?_purgeLeases]
  cases hg : s.leases.get? k with
  | none => simp
  | some l =>
    have hl : (∃ q ∈ s.leases.toList, q.1 = k ∧ q.2.untilTime ≤ now) ↔ l.untilTime ≤ now := by
      constructor
      · rintro ⟨⟨k', l'⟩, hq, rfl, hd⟩
        rw [OrderedDict.mem_toList.mp hq, Option.some.injEq] at hg
        exact hg ▸ hd
      · intro hd
        exact ⟨(k, l), OrderedDict.mem_toList.mpr hg, rfl, hd⟩
    by_cases hd : l.untilTime ≤ now
    · simp only [hl, hd, ↓reduceIte]
      exact (Option.filter_some_neg (by simpa using hd)).symm
    · simp only [hl, hd, ↓reduceIte]
      exact (Option.filter_some_pos (by simpa using hd)).symm

/-- Issuing leases. -/
def Permit.grants : Permit V := { Permit.nothing with grant := fun _ _ => True }

/-- The edits of `acquire_lease` before it issues a lease. -/
def Permit.acquiring (key : Key) : Permit V :=
  { Permit.readsOf key with lapse := fun _ => True }

theorem Permit.acquiring_shrinking (key : Key) : (Permit.acquiring key : Permit V).Shrinking :=
  ⟨fun _ _ h => h, fun _ _ h => h⟩

theorem lookup_eq (key : Key) (count : Bool) (s : Engine V) :
    lookup c key count s =
      (.ok (lookupAt (c.clock s.ticks) key count { s with ticks := s.ticks + 1 }).1,
        (lookupAt (c.clock s.ticks) key count { s with ticks := s.ticks + 1 }).2) := rfl

theorem countIf_leases (count : Bool) (m : Metric) (s : Engine V) :
    (countIf count m s).leases = s.leases := by
  cases count <;> rfl

theorem lookupAt_leases (now : ℚ) (key : Key) (count : Bool) (s : Engine V) :
    (lookupAt now key count s).2.leases = s.leases := by
  unfold lookupAt
  split
  · exact countIf_leases _ _ _
  · split
    · simp [countIf_leases]
    · dsimp only
      split <;> simp [countIf_leases]

theorem lookupAt_leaseToken (now : ℚ) (key : Key) (count : Bool) (s : Engine V) :
    (lookupAt now key count s).1.leaseToken = none := by
  unfold lookupAt
  split
  · rfl
  · split
    · rfl
    · dsimp only
      split <;> rfl

/-- The lease that `acquire_lease` issues at time `now` with the next token. -/
def issuedLease (c : EngineConfig V) (key : Key) (now : ℚ) (s : Engine V) : Lease where
  token := c.tokenUrlsafe s.draws
  untilTime := now + c.leaseSeconds
  sizeBytes := key.utf8ByteSize + (c.tokenUrlsafe s.draws).utf8ByteSize + 64

/-- The state after a lease was issued. -/
def granted (c : EngineConfig V) (key : Key) (now : ℚ) (s : Engine V) : Engine V :=
  bump .leases 1 { s with
    draws := s.draws + 1
    leases := s.leases.set key (issuedLease c key now s)
    usedBytes := s.usedBytes + (issuedLease c key now s).sizeBytes
    leaseBytes := s.leaseBytes + (issuedLease c key now s).sizeBytes }

/-- The two ways through the locked part of `acquire_lease`: it answers from
what it finds, or it issues a lease to a key that has none. -/
theorem acquireLocked_cases (key : Key) (force : Bool) {now : ℚ} {s : Engine V}
    (hnow : ∃ i < s.ticks, now = c.clock i) :
    ∃ cached s₁, lookup c key true (purgeExpiredLeases now s) = (.ok cached, s₁) ∧
      Edits c (Permit.acquiring key) s s₁ ∧
      ((∃ r s', acquireLocked c key force now s = (r, s') ∧ Edits c (Permit.acquiring key) s₁ s' ∧
          ∀ res, r = .ok res → res.leaseToken = none ∧ (res = cached ∨ res.value = none)) ∨
        ∃ res, acquireLocked c key force now s = (.ok res, granted c key now s₁) ∧
          s₁.leases.get? key = none ∧ s₁.leases.size < c.maxEntries ∧
          s₁.usedBytes + (issuedLease c key now s₁).sizeBytes ≤ c.maxMemoryBytes ∧
          res.leaseToken = some (c.tokenUrlsafe s₁.draws) ∧
          (res.state = .lease ∧ res.value = none ∨
            res.state = .staleLease ∧ cached.state = .stale ∧ res.value = cached.value)) := by
  have hpurge : Edits c (Permit.acquiring key) s (purgeExpiredLeases now s) :=
    edits_purgeExpiredLeases (fun _ => trivial) hnow
  have hlook : Edits c (Permit.acquiring key) (purgeExpiredLeases now s)
      (lookup c key true (purgeExpiredLeases now s)).2 :=
    edits_lookup true (p := Permit.acquiring key) rfl rfl _
  obtain ⟨cached, s₁, hl⟩ : ∃ cached s₁,
      lookup c key true (purgeExpiredLeases now s) = (.ok cached, s₁) := ⟨_, _, rfl⟩
  rw [hl] at hlook
  refine ⟨cached, s₁, hl, hpurge.trans hlook, ?_⟩
  have hleases : s₁.leases.get? key = (s.leases.get? key).filter fun l => now < l.untilTime := by
    rw [← get?_purgeExpiredLeases]
    have := congrArg (fun r => r.2.leases) hl
    simp only [lookup_eq, lookupAt_leases] at this
    rw [← this]
  have htoken : cached.leaseToken = none := by
    rw [lookup_eq, Prod.mk.injEq, Except.ok.injEq] at hl
    rw [← hl.1]
    exact lookupAt_leaseToken _ _ _ _
  by_cases hfresh : cached.state = .fresh ∧ ¬force
  · refine .inl ⟨.ok cached, s₁, ?_, .refl, ?_⟩
    · simp only [acquireLocked, run_bind, run_modify, hl]
      rw [if_pos hfresh]
      rfl
    · intro res hres
      obtain rfl := Except.ok.inj hres
      exact ⟨htoken, .inl rfl⟩
  cases hg : s₁.leases.get? key with
  | some lease =>
    have hlive : now < lease.untilTime := by
      rw [hg] at hleases
      have := Option.filter_eq_some_iff.mp hleases.symm
      simpa using this.2
    have hf : (some lease).filter (fun l : Lease => decide (now < l.untilTime)) = some lease := by
      simp [hlive]
    left
    by_cases hstale : cached.state = .stale
    · refine ⟨.ok cached, bump .coalesced 1 s₁, ?_, Edits.one (.bump _ _ _), ?_⟩
      · simp only [acquireLocked, run_bind, run_modify, hl]
        rw [if_neg hfresh]
        simp only [run_bind, run_get, hg, hf, run_modify, hstale, ↓reduceIte, run_pure]
      · intro res hres
        obtain rfl := Except.ok.inj hres
        exact ⟨htoken, .inl rfl⟩
    · refine ⟨.ok ⟨.loading, none, 0, 0, none, max 0 (lease.untilTime - now)⟩,
        bump .coalesced 1 s₁, ?_, Edits.one (.bump _ _ _), ?_⟩
      · simp only [acquireLocked, run_bind, run_modify, hl]
        rw [if_neg hfresh]
        simp only [run_bind, run_get, hg, hf, run_modify, hstale, ↓reduceIte, run_pure]
      · intro res hres
        obtain rfl := Except.ok.inj hres
        exact ⟨rfl, .inr rfl⟩
  | none =>
    by_cases hcap : c.maxEntries ≤ s₁.leases.size ∨
        (c.maxMemoryBytes : ℤ) < s₁.usedBytes + (issuedLease c key now s₁).sizeBytes
    · refine .inl ⟨.error (valueError "lease capacity exhausted"),
        bump .rejectedLeases 1 { s₁ with draws := s₁.draws + 1 }, ?_,
        (Edits.one (.draw _)).tail (.bump _ _ _), by simp⟩
      have hcap' := hcap
      simp only [issuedLease] at hcap'
      simp only [acquireLocked, run_bind, run_modify, hl]
      rw [if_neg hfresh]
      simp only [run_bind, run_get, hg, Option.filter_none, drawToken, hcap', ↓reduceIte,
        run_modify, run_throw]
    · have hcap' := hcap
      simp only [issuedLease] at hcap'
      push Not at hcap
      by_cases hstale : cached.state = .stale
      · refine .inr ⟨⟨.staleLease, cached.value, ((c.leaseSeconds : ℚ) : Deadline),
          cached.staleForSeconds, some (c.tokenUrlsafe s₁.draws), 0⟩, ?_, rfl, hcap.1, hcap.2, rfl,
          .inr ⟨rfl, hstale, rfl⟩⟩
        simp only [acquireLocked, run_bind, run_modify, hl]
        rw [if_neg hfresh]
        simp only [run_bind, run_get, hg, Option.filter_none, drawToken, hcap',
          ↓reduceIte, run_modify, hstale, run_pure]
        rfl
      · refine .inr ⟨⟨.lease, none, ((c.leaseSeconds : ℚ) : Deadline), 0,
          some (c.tokenUrlsafe s₁.draws), 0⟩, ?_, rfl, hcap.1, hcap.2, rfl, .inl ⟨rfl, rfl⟩⟩
        simp only [acquireLocked, run_bind, run_modify, hl]
        rw [if_neg hfresh]
        simp only [run_bind, run_get, hg, Option.filter_none, drawToken, hcap',
          ↓reduceIte, run_modify, hstale, run_pure]
        rfl

/-! ## The invariant across writes -/

/-- The accounts agree and the limits hold. -/
structure Sound (c : EngineConfig V) (s : Engine V) : Prop where
  accounts : Accounts s
  bounded : Bounded c s

theorem Sound.edits {p : Permit V} (hp : p.Shrinking) {s s' : Engine V} (hs : Edits c p s s')
    (h : Sound c s) : Sound c s' :=
  ⟨h.accounts.edits hs, h.bounded.edits hp hs⟩

theorem leases_edits_nothing {s s' : Engine V} (hs : Edits c Permit.nothing s s') :
    s'.leases = s.leases := by
  refine Edits.keep (I := fun u => u.leases = s.leases) ?_ hs rfl
  intro u u' hu ih
  cases hu with
  | tick | draw | bump => exact ih
  | evict hm hv => simpa using ih
  | touch a t hp hg => exact hp.elim
  | expire hp hg hi hd => exact hp.elim
  | drop hp => exact hp.elim
  | store hp => exact hp.elim
  | update hp hf => exact hp.elim
  | lapse hp hg hi hd => exact hp.elim
  | release hp => exact hp.elim
  | grant hp hg => exact hp.elim
  | renew t hp hg => exact hp.elim

theorem Sound.written {key : Key} {p : PreparedPut V} {persistent : Bool} {now : ℚ}
    {s s' : Engine V} (h : Sound c s)
    (hs : Edits c Permit.nothing (written key p persistent now s) s') (ho : ¬overLimit c s') :
    Sound c s' := by
  have haw : Accounts (Engine.written key p persistent now s) := by
    have ha := (h.accounts.storeEntry key
      (writtenEntry p persistent now (s.entries.get? key))).removeLease key
    exact ⟨ha.leaseBytes_eq, ha.usedBytes_eq, ha.indexes⟩
  unfold overLimit at ho
  push Not at ho
  refine ⟨haw.edits hs, ho.2, ho.1, ?_⟩
  rw [leases_edits_nothing hs]
  have hl : (Engine.written key p persistent now s).leases = s.leases.erase key := by
    simp [Engine.written, storeEntry_leases]
  rw [hl]
  exact (s.leases.size_erase_le key).trans h.bounded.leases_le

theorem Sound.putLocked (key : Key) (token : Option String) (persistent : Bool)
    (p : PreparedPut V) {now : ℚ} {s : Engine V} (hnow : ∃ i < s.ticks, now = c.clock i)
    (h : Sound c s) : Sound c (putLocked c key token persistent p now s).2 := by
  rcases putLocked_cases key token persistent p h.accounts h.bounded hnow with
    ⟨e, s', hs, hed, _⟩ | ⟨r, s', s'', hs, _, _, hed, ho, hl⟩
  · rw [hs]
    exact h.edits (Permit.lapseOf_shrinking key) hed
  · rw [hs]
    have hlook : Edits c (Permit.readsOf key) s' s'' :=
      (edits_lookup (p := Permit.readsOf key) false rfl rfl).run hl
    exact (h.written hed ho).edits (Permit.readsOf_shrinking key) hlook

/-- What an accepted `put` has done. -/
theorem put_ok {key : Key} {value : V} {ttlSeconds staleSeconds : Option ℤ} {tags : List Tag}
    {token : Option String} {persistent : Bool} {s s' : Engine V} {r : CacheResult V}
    (hs : Sound c s)
    (h : put c key value ttlSeconds staleSeconds tags token persistent s = (.ok r, s')) :
    ∃ p s₁, Prepared c key value ttlSeconds staleSeconds tags persistent p ∧
      Guarded key token (c.clock s.ticks) s ∧
      Edits c Permit.nothing (Engine.written key p persistent (c.clock s.ticks)
        { s with ticks := s.ticks + 1 }) s₁ ∧
      lookup c key false s₁ = (.ok r, s') := by
  rw [put, bind_eq_ok] at h
  obtain ⟨p, s₀, hp, h⟩ := h
  obtain ⟨rfl, hprep⟩ := preparePut_ok hp
  have htick : Sound c { s₀ with ticks := s₀.ticks + 1 } :=
    hs.edits Permit.nothing_shrinking (Edits.one (.tick s₀))
  change putLocked c key token persistent p (c.clock s₀.ticks)
    { s₀ with ticks := s₀.ticks + 1 } = (.ok r, s') at h
  rcases putLocked_cases key token persistent p htick.accounts htick.bounded
      ⟨s₀.ticks, Nat.lt_succ_self _, rfl⟩ with
    ⟨e, s₁, h₁, _⟩ | ⟨r₁, s₁, s₂, h₁, hg, _, hed, _, hl⟩ <;> rw [h₁] at h
  · simp at h
  · obtain ⟨rfl, rfl⟩ : r₁ = r ∧ s₂ = s' := by simpa using h
    exact ⟨p, s₁, hprep, hg, hed, hl⟩

/-- A rejected `put` at most drops an expired lease of its key. -/
theorem put_error {key : Key} {value : V} {ttlSeconds staleSeconds : Option ℤ} {tags : List Tag}
    {token : Option String} {persistent : Bool} {s s' : Engine V} {e : PyError}
    (hs : Sound c s)
    (h : put c key value ttlSeconds staleSeconds tags token persistent s = (.error e, s')) :
    Edits c (Permit.lapseOf key) s s' := by
  rw [put, bind_eq_error] at h
  rcases h with h | ⟨p, s₀, hp, h⟩
  · exact (edits_preparePut _ _ _ _ _ _ _).run h
  · obtain ⟨rfl, hprep⟩ := preparePut_ok hp
    have htick : Sound c { s₀ with ticks := s₀.ticks + 1 } :=
      hs.edits Permit.nothing_shrinking (Edits.one (.tick s₀))
    change putLocked c key token persistent p (c.clock s₀.ticks)
      { s₀ with ticks := s₀.ticks + 1 } = (.error e, s') at h
    rcases putLocked_cases key token persistent p htick.accounts htick.bounded
        ⟨s₀.ticks, Nat.lt_succ_self _, rfl⟩ with
      ⟨e₁, s₁, h₁, hed, _⟩ | ⟨r₁, s₁, s₂, h₁, _⟩ <;> rw [h₁] at h
    · obtain ⟨rfl, rfl⟩ : e₁ = e ∧ s₁ = s' := by simpa using h
      exact (Edits.one (.tick s₀)).trans hed
    · simp at h

theorem sound_edits {α : Type} {p : Permit V} (hp : p.Shrinking) {m : EngineM V α}
    (h : Rel (Edits c p) m) : Rel (Preserves (Sound c)) m :=
  h.mono fun _ _ hs hsound => hsound.edits hp hs

/-- A call whose locked part receives a clock reading made before it. -/
theorem sound_clocked {α : Type} {f : ℚ → EngineM V α}
    (h : ∀ (now : ℚ) (s : Engine V), (∃ i < s.ticks, now = c.clock i) → Sound c s →
      Sound c (f now s).2) : Rel (Preserves (Sound c)) (readClock c >>= f) := by
  intro s hs
  have htick : Sound c { s with ticks := s.ticks + 1 } :=
    hs.edits Permit.nothing_shrinking (Edits.one (.tick s))
  exact h _ _ ⟨s.ticks, Nat.lt_succ_self _, rfl⟩ htick

theorem sound_put (key : Key) (value : V) (ttlSeconds staleSeconds : Option ℤ) (tags : List Tag)
    (token : Option String) (persistent : Bool) :
    Rel (Preserves (Sound c)) (put c key value ttlSeconds staleSeconds tags token persistent) :=
  Rel.bind (sound_edits Permit.nothing_shrinking (edits_preparePut _ _ _ _ _ _ _)) fun p =>
    sound_clocked fun _ _ hnow hs => hs.putLocked key token persistent p hnow

theorem sound_mset (values : List (Key × V)) : Rel (Preserves (Sound c)) (mset c values) :=
  Rel.bind (Rel.forEach fun item _ => sound_edits Permit.nothing_shrinking (edits_msetCheck item))
    fun _ => Rel.forEach fun _ _ => Rel.bind (sound_put _ _ _ _ _ _ _) fun _ => Rel.pure _

theorem sound_getOrLoad (key : Key) (loaded : Except PyError V)
    (ttlSeconds staleSeconds : Option ℤ) (tags : List Tag) :
    Rel (Preserves (Sound c)) (getOrLoad c key loaded ttlSeconds staleSeconds tags) := by
  have hbump : Rel (Preserves (Sound c)) (modify (bump .loadErrors 1) : EngineM V Unit) :=
    sound_edits Permit.nothing_shrinking (edits_bump _ _)
  refine Rel.bind (sound_edits Permit.nothing_shrinking (edits_validateKey key)) fun _ =>
    Rel.bind (sound_edits (Permit.readsOf_shrinking key) (edits_lookup true rfl rfl)) fun cached =>
      Rel.ite (fun _ => Rel.pure _) fun _ => Rel.tryCatch ?_ fun e =>
        Rel.bind hbump fun _ => Rel.throw _
  cases loaded with
  | error e => exact Rel.throw _
  | ok value => exact sound_put _ _ _ _ _ _ _

theorem sound_restoreEntries (entries : List (StorageEntry V)) :
    Rel (Preserves (Sound c)) (restoreEntries c entries) := by
  intro s hs
  rcases restoreEntries_cases (c := c) entries s with
    ⟨e, s', h, hed⟩ | ⟨prepared, now, s₁, h, hed, _, _, hb⟩
  · rw [h]
    exact hs.edits Permit.purges_shrinking hed
  · rw [h]
    have hstore : Edits c (Permit.stores : Permit V) s₁ (restoreAll now prepared s₁) :=
      edits_storeAll (fun _ _ _ => trivial) s₁
    exact ⟨(hs.accounts.edits hed).edits hstore, hb hs.bounded⟩

theorem sound_acquireLease (key : Key) (force : Bool) :
    Rel (Preserves (Sound c)) (acquireLease c key force) := by
  refine Rel.bind (sound_edits Permit.nothing_shrinking (edits_validateKey key)) fun _ =>
    sound_clocked fun now s hnow hs => ?_
  obtain ⟨cached, s₁, _, hed, hcases⟩ := acquireLocked_cases key force hnow
  have hs₁ : Sound c s₁ := hs.edits (Permit.acquiring_shrinking key) hed
  rcases hcases with ⟨r, s', h, hed', _⟩ | ⟨res, h, hnone, hsize, hmem, _, _⟩
  · rw [h]
    exact hs₁.edits (Permit.acquiring_shrinking key) hed'
  · rw [h]
    have hgrant : Edits c (Permit.grants : Permit V) s₁ (granted c key now s₁) :=
      ((Edits.one (.draw s₁)).tail
        (.grant _ (l := issuedLease c key now s₁) trivial hnone)).tail (.bump _ _ _)
    refine ⟨hs₁.accounts.edits hgrant, hmem, hs₁.bounded.entries_le, ?_⟩
    simp only [granted, bump_leases, OrderedDict.size_set, OrderedDict.erase_eq_self hnone]
    omega

end Engine
end MegaCache
