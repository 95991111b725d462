import MegaCache.Controlplane.Artifacts
import MegaCache.Engine.Stock
import MegaCache.Engine.Values

/-!
# Backups and what they restore

`_perform_backup` writes what `export_entries` gives at one time, `_validated_backup` reads it
at a later time and restores it into an empty engine with the quotas of the tenant.

The export of an entry in its stale window has a fresh window of zero seconds, and the reader
refuses such an entry and with it the whole artifact.  Without such entries the reader gives
exactly what `export_entries` would give at the later time, and the restored engine answers as
the one that was left alone.
-/

namespace MegaCache

/-- The engine's configuration while its clock stands at `now`. -/
def EngineConfig.atTime {V : Type} (c : EngineConfig V) (now : ℚ) : EngineConfig V :=
  { c with
    clock := fun _ => now
    clock_mono := monotone_const }

namespace Controlplane

open Engine

/-- The limits of a tenant that its engine enforces. -/
structure TenantQuotas where
  maxEntries : ℕ
  maxBytes : ℕ
  maxEntryBytes : ℕ
  positive : 0 < maxEntries ∧ 0 < maxBytes ∧ 0 < maxEntryBytes
  entry_le : maxEntryBytes ≤ maxBytes

/-- What an engine is configured with besides the limits. -/
structure EngineSettings where
  defaultTtlSeconds : ℕ
  defaultStaleSeconds : ℕ
  leaseSeconds : ℕ
  evictionPolicy : EvictionPolicy
  clock : ℕ → ℚ
  tokenUrlsafe : ℕ → String
  evictionScore : Entry SnapshotValue → ℚ → ℚ
  positive : 0 < defaultTtlSeconds ∧ 0 < defaultStaleSeconds ∧ 0 < leaseSeconds
  clock_mono : Monotone clock

/-- `CacheEngine(max_entries=..., max_memory_bytes=..., max_entry_bytes=...)` -/
def TenantQuotas.engine (q : TenantQuotas) (settings : EngineSettings) (floats : Json.FloatText) :
    EngineConfig SnapshotValue where
  maxEntries := q.maxEntries
  defaultTtlSeconds := settings.defaultTtlSeconds
  defaultStaleSeconds := settings.defaultStaleSeconds
  leaseSeconds := settings.leaseSeconds
  maxMemoryBytes := q.maxBytes
  maxEntryBytes := q.maxEntryBytes
  evictionPolicy := settings.evictionPolicy
  clock := settings.clock
  tokenUrlsafe := settings.tokenUrlsafe
  evictionScore := settings.evictionScore
  codec := documentCodec floats
  positive := ⟨q.positive.1, q.positive.2.1, q.positive.2.2, settings.positive⟩
  clock_mono := settings.clock_mono

section

variable (floats : Json.FloatText)

/-- The artifact of a backup: the export at the engine's time `t`, and the document with the
reading `createdAt` of the control plane's clock. -/
def backup (c : EngineConfig SnapshotValue) (tenantNamespace : String) (maximumBytes : ℕ)
    (t createdAt : ℚ) (s : Engine SnapshotValue) :
    Except Failure (List UInt8) × Engine SnapshotValue :=
  match exportEntries (c.atTime t) none s with
  | (.error e, s') => (.error ⟨.valueError, e.message⟩, s')
  | (.ok entries, s') =>
    (artifactPlaintext floats "backup" maximumBytes
      (entriesDocument tenantNamespace entries "backup" createdAt), s')

/-- The entries of a backup, read at time `now` of the control plane's clock. -/
def readBackup (plaintext : List UInt8) (tenantNamespace : String) (now : ℚ) :
    Except Failure (List (StorageEntry SnapshotValue)) := do
  let document ← readArtifact floats plaintext
  documentEntries floats document tenantNamespace "backup" now

end

/-! ## One entry -/

section

variable {floats : Json.FloatText} {age : ℚ} {item : StorageEntry SnapshotValue}

/-- An entry as `export_entries` makes them. -/
structure Portable (item : StorageEntry SnapshotValue) : Prop where
  key : item.key ≠ "" ∧ item.key.length ≤ 1024
  tags : item.tags.Nodup ∧ TagsFit item.tags
  value : item.value.Ordered
  windows : (item.persistent = true ∧ item.freshForSeconds = none ∧ item.staleForSeconds = none) ∨
    ∃ f t, item.persistent = false ∧ item.freshForSeconds = some f ∧
      item.staleForSeconds = some t ∧ 0 ≤ t

/-- The entry after `age` seconds, if anything is left of its windows. -/
def aged (age : ℚ) (item : StorageEntry SnapshotValue) : Option (StorageEntry SnapshotValue) :=
  match item.freshForSeconds, item.staleForSeconds with
  | some fresh, some stale =>
    (remainingWindows age fresh stale).map fun w =>
      { item with freshForSeconds := some w.1, staleForSeconds := some w.2 }
  | _, _ => some item

/-- The entry has a fresh window left, or no windows. -/
def InFreshWindow (item : StorageEntry SnapshotValue) : Prop :=
  ∀ f, item.freshForSeconds = some f → 0 < f

theorem decodeValue_encodeValue {v : SnapshotValue} (h : (encodeValue v).finite = true) :
    decodeValue floats (encodeValue v) = .ok v := by
  cases v with
  | bytes data =>
    have hnames : fieldNames [("encoding", Json.str "base64"),
        ("value", Json.str (String.ofList (Base64.encode data)))] = {"encoding", "value"} := by
      simp [fieldNames]
    simp [decodeValue, encodeValue, hnames, List.lookup, Base64.decode_encode]
  | json data =>
    have hnames : fieldNames [("encoding", Json.str "json"), ("value", data)] =
        {"encoding", "value"} := by
      simp [fieldNames]
    have hdata : data.finite = true := by
      simpa [encodeValue, Json.finite, Json.finiteFields] using h
    simp [decodeValue, encodeValue, hnames, List.lookup, canonical, hdata]

theorem mapM_readTag {tags : List Tag} (h : ∀ tag ∈ tags, tag ≠ "" ∧ tag.utf8ByteSize ≤ 256) :
    (tags.map Json.str).mapM readTag = some tags := by
  induction tags with
  | nil => rfl
  | cons tag tags ih =>
    obtain ⟨hne, hle⟩ := h tag List.mem_cons_self
    have htag : readTag (.str tag) = some tag := by
      simp [readTag, hne, hle.trans (by decide : 256 ≤ 1024)]
    simp [htag, ih fun t ht => h t (List.mem_cons_of_mem tag ht)]

/-- The items of the document of an entry. -/
def entryItems (item : StorageEntry SnapshotValue) : List (String × Json) := [
  ("fresh_for_seconds", secondsDocument item.freshForSeconds),
  ("key", .str item.key),
  ("persistent", .bool item.persistent),
  ("stale_for_seconds", secondsDocument item.staleForSeconds),
  ("tags", .arr (item.tags.map .str)),
  ("value", encodeValue item.value)]

theorem fieldNames_entryItems (item : StorageEntry SnapshotValue) :
    fieldNames (entryItems item) = entryFields := by
  simp only [fieldNames, entryItems, List.map_cons, List.map_nil]
  decide

theorem readIdentity_entryItems (h : Portable item) {seen : List Key} (hseen : item.key ∉ seen) :
    readIdentity seen (entryItems item) = some (item.key, item.tags, item.persistent) := by
  simp [readIdentity, entryItems, List.lookup, h.key, hseen, mapM_readTag h.tags.2.2, h.tags.1]

/-- The windows that the reader finds in an entry with a fresh window left. -/
theorem readWindows_portable (h : Portable item) (hfresh : InFreshWindow item) (age : ℚ) :
    readWindows age item.persistent (secondsDocument item.freshForSeconds)
        (secondsDocument item.staleForSeconds) =
      .ok ((aged age item).map fun e => (e.freshForSeconds, e.staleForSeconds)) := by
  rcases h.windows with ⟨hp, hf, ht⟩ | ⟨f, t, hp, hf, ht, hnonneg⟩
  · simp [readWindows, aged, hp, hf, ht, secondsDocument]
  · have hpos := hfresh f hf
    simp only [readWindows, aged, hp, hf, ht, secondsDocument, number, hpos, hnonneg, and_self,
      Bool.false_eq_true, ↓reduceIte, Option.map_map]
    rfl

theorem readWindows_stale (h : Portable item) (hstale : ¬InFreshWindow item) (age : ℚ) :
    readWindows age item.persistent (secondsDocument item.freshForSeconds)
        (secondsDocument item.staleForSeconds) =
      .error (artifactError "artifact entry contains invalid freshness windows") := by
  rcases h.windows with ⟨hp, hf, ht⟩ | ⟨f, t, hp, hf, ht, hnonneg⟩
  · exact absurd (fun f' hf' => by rw [hf] at hf'; cases hf') hstale
  · have hneg : ¬0 < f := by
      intro hpos
      refine hstale fun f' hf' => ?_
      rw [hf] at hf'
      rwa [← Option.some.inj hf']
    simp [readWindows, hp, hf, ht, secondsDocument, number, hneg]

theorem aged_eq {e : StorageEntry SnapshotValue} (h : aged age item = some e) :
    e = { item with freshForSeconds := e.freshForSeconds, staleForSeconds := e.staleForSeconds } := by
  unfold aged at h
  split at h
  · obtain ⟨w, -, rfl⟩ := Option.map_eq_some_iff.mp h
    rfl
  · rw [← Option.some.inj h]

/-- One round of the reader over what was written for an entry. -/
theorem readEntries_step (h : Portable item) {seen : List Key} (hseen : item.key ∉ seen)
    (age : ℚ) (rest : List Json) :
    readEntries floats age seen (artifactEntry item :: rest) = (do
      let windows ← readWindows age item.persistent (secondsDocument item.freshForSeconds)
        (secondsDocument item.staleForSeconds)
      match windows with
      | none => readEntries floats age (item.key :: seen) rest
      | some (fresh, stale) => do
        let value ← decodeValue floats (encodeValue item.value)
        let entries ← readEntries floats age (item.key :: seen) rest
        pure (⟨item.key, value, fresh, stale, item.tags, item.persistent⟩ :: entries)) := by
  change readEntries floats age seen (.obj (entryItems item) :: rest) = _
  rw [readEntries, if_neg (not_not.mpr (fieldNames_entryItems item)),
    readIdentity_entryItems h hseen]
  rfl

theorem readEntries_fresh (h : Portable item) (hfresh : InFreshWindow item)
    (hfinite : (encodeValue item.value).finite = true) {seen : List Key} (hseen : item.key ∉ seen)
    (age : ℚ) (rest : List Json) :
    readEntries floats age seen (artifactEntry item :: rest) =
      (readEntries floats age (item.key :: seen) rest).map ((aged age item).toList ++ ·) := by
  rw [readEntries_step h hseen, readWindows_portable h hfresh, decodeValue_encodeValue hfinite]
  cases haged : aged age item with
  | none =>
    cases readEntries floats age (item.key :: seen) rest <;> rfl
  | some e =>
    have he := aged_eq haged
    cases readEntries floats age (item.key :: seen) rest with
    | error err => rfl
    | ok entries =>
      refine congrArg (fun x => Except.ok (x :: entries)) ?_
      rw [he]

theorem readEntries_stale (h : Portable item) (hstale : ¬InFreshWindow item) {seen : List Key}
    (hseen : item.key ∉ seen) (age : ℚ) (rest : List Json) :
    readEntries floats age seen (artifactEntry item :: rest) =
      .error (artifactError "artifact entry contains invalid freshness windows") := by
  rw [readEntries_step h hseen, readWindows_stale h hstale]
  rfl

/-! ## All entries -/

variable {items : List (StorageEntry SnapshotValue)}

theorem readEntries_all {seen : List Key} (h : ∀ item ∈ items, Portable item)
    (hfinite : ∀ item ∈ items, (encodeValue item.value).finite = true)
    (hnodup : (items.map StorageEntry.key).Nodup) (hseen : ∀ item ∈ items, item.key ∉ seen)
    (hfresh : ∀ item ∈ items, InFreshWindow item) (age : ℚ) :
    readEntries floats age seen (items.map artifactEntry) = .ok (items.filterMap (aged age)) := by
  induction items generalizing seen with
  | nil => rfl
  | cons item items ih =>
    rw [List.map_cons, List.nodup_cons] at hnodup
    have hrest := @ih (item.key :: seen) (fun e he => h e (List.mem_cons_of_mem item he))
      (fun e he => hfinite e (List.mem_cons_of_mem item he)) hnodup.2 (fun e he => ?_)
      (fun e he => hfresh e (List.mem_cons_of_mem item he))
    · rw [List.map_cons, readEntries_fresh (h item List.mem_cons_self)
        (hfresh item List.mem_cons_self) (hfinite item List.mem_cons_self)
        (hseen item List.mem_cons_self), hrest, List.filterMap_cons]
      cases aged age item <;> rfl
    · rw [List.mem_cons, not_or]
      exact ⟨fun heq => hnodup.1 (heq ▸ List.mem_map_of_mem he),
        hseen e (List.mem_cons_of_mem item he)⟩

/-- One entry in its stale window makes the whole artifact unreadable. -/
theorem readEntries_refused {seen : List Key} (h : ∀ item ∈ items, Portable item)
    (hfinite : ∀ item ∈ items, (encodeValue item.value).finite = true)
    (hnodup : (items.map StorageEntry.key).Nodup) (hseen : ∀ item ∈ items, item.key ∉ seen)
    (hstale : ∃ item ∈ items, ¬InFreshWindow item) (age : ℚ) :
    readEntries floats age seen (items.map artifactEntry) =
      .error (artifactError "artifact entry contains invalid freshness windows") := by
  induction items generalizing seen with
  | nil =>
    obtain ⟨item, hitem, -⟩ := hstale
    cases hitem
  | cons item items ih =>
    rw [List.map_cons, List.nodup_cons] at hnodup
    rw [List.map_cons]
    by_cases hfresh : InFreshWindow item
    · have hrest := @ih (item.key :: seen) (fun e he => h e (List.mem_cons_of_mem item he))
        (fun e he => hfinite e (List.mem_cons_of_mem item he)) hnodup.2 (fun e he => ?_) ?_
      · rw [readEntries_fresh (h item List.mem_cons_self) hfresh (hfinite item List.mem_cons_self)
          (hseen item List.mem_cons_self), hrest]
        rfl
      · rw [List.mem_cons, not_or]
        exact ⟨fun heq => hnodup.1 (heq ▸ List.mem_map_of_mem he),
          hseen e (List.mem_cons_of_mem item he)⟩
      · obtain ⟨e, he, hse⟩ := hstale
        rcases List.mem_cons.mp he with rfl | he
        · exact absurd hfresh hse
        · exact ⟨e, he, hse⟩
    · exact readEntries_stale (h item List.mem_cons_self) hfresh (hseen item List.mem_cons_self) age _

/-! ## The document -/

theorem encodeValue_ordered {v : SnapshotValue} (h : v.Ordered) : (encodeValue v).Ordered := by
  have hnames : ["encoding", "value"].Pairwise (· < ·) := by decide
  cases v with
  | bytes data => exact ⟨hnames, trivial, trivial, trivial⟩
  | json data => exact ⟨hnames, trivial, h, trivial⟩

theorem secondsDocument_ordered (x : Option ℚ) : (secondsDocument x).Ordered := by
  cases x <;> trivial

theorem artifactEntry_ordered (h : item.value.Ordered) : (artifactEntry item).Ordered := by
  have hnames : ["fresh_for_seconds", "key", "persistent", "stale_for_seconds", "tags",
      "value"].Pairwise (· < ·) := by decide
  refine ⟨hnames, secondsDocument_ordered _, trivial, trivial, secondsDocument_ordered _, ?_,
    encodeValue_ordered h, trivial⟩
  exact Json.OrderedItems.map fun _ _ => trivial

theorem mem_sortedByKey {e : StorageEntry SnapshotValue} : e ∈ sortedByKey items ↔ e ∈ items :=
  List.mem_insertionSort _

theorem sortedByKey_perm (items : List (StorageEntry SnapshotValue)) :
    (sortedByKey items).Perm items :=
  List.perm_insertionSort _ items

theorem entriesDocument_ordered (h : ∀ item ∈ items, item.value.Ordered)
    (tenantNamespace purpose : String) (createdAt : ℚ) :
    (entriesDocument tenantNamespace items purpose createdAt).Ordered := by
  have hnames : ["created_at", "entries", "purpose", "tenant_namespace", "version"].Pairwise
      (· < ·) := by decide
  refine ⟨hnames, trivial, ?_, trivial, trivial, trivial, trivial⟩
  exact Json.OrderedItems.map fun e he => artifactEntry_ordered (h e (mem_sortedByKey.mp he))

/-- What a readable plaintext was made from. -/
theorem artifactPlaintext_ok {kind : String} {maximumBytes : ℕ} {document : Json}
    {plaintext : List UInt8} (h : artifactPlaintext floats kind maximumBytes document = .ok plaintext) :
    document.finite = true ∧ plaintext = Json.utf8 (Json.dumps floats.repr document) := by
  unfold artifactPlaintext canonical at h
  split_ifs at h with hfinite
  · simp only [Except.bind, bind] at h
    split_ifs at h
    exact ⟨hfinite, (Except.ok.inj h).symm⟩
  · cases h

theorem finite_of_document {tenantNamespace purpose : String} {createdAt : ℚ}
    (h : (entriesDocument tenantNamespace items purpose createdAt).finite = true) :
    ∀ item ∈ items, (encodeValue item.value).finite = true := by
  have hitems : Json.finiteItems ((sortedByKey items).map artifactEntry) = true := by
    simpa [entriesDocument, Json.finite, Json.finiteFields] using h
  intro e he
  have hentry := Json.finiteItems_map hitems e (mem_sortedByKey.mpr he)
  simp only [artifactEntry, Json.finite, Json.finiteFields, Bool.and_eq_true, Bool.and_true] at hentry
  exact hentry.2.2.2.2.2

/-- Reading a backup `d` seconds later comes down to reading its entries at that age. -/
theorem readBackup_eq {tenantNamespace : String} {createdAt d : ℚ} {maximumBytes : ℕ}
    {plaintext : List UInt8} (h : ∀ item ∈ items, item.value.Ordered)
    (hp : artifactPlaintext floats "backup" maximumBytes
      (entriesDocument tenantNamespace items "backup" createdAt) = .ok plaintext)
    (hcreated : 0 ≤ createdAt) (hd : 0 ≤ d) :
    readBackup floats plaintext tenantNamespace (createdAt + d) =
      readEntries floats d [] ((sortedByKey items).map artifactEntry) := by
  obtain ⟨-, rfl⟩ := artifactPlaintext_ok hp
  have hloads := @Json.loads_dumps floats _
    (entriesDocument_ordered h tenantNamespace "backup" createdAt)
  have hread : readArtifact floats (Json.utf8 (Json.dumps floats.repr
      (entriesDocument tenantNamespace items "backup" createdAt))) =
      .ok (entriesDocument tenantNamespace items "backup" createdAt) := by
    rw [readArtifact, hloads]
    rfl
  rw [readBackup, hread]
  simp [documentEntries, entriesDocument, Json.get?, List.lookup, isOne, number, hcreated, hd,
    bind, Except.bind]

end

/-! ## The export -/

section

variable {c : EngineConfig SnapshotValue} {k : Key} {e : Entry SnapshotValue} {t d : ℚ}

theorem exportedEntry_persistent {V : Type} {e : Entry V} (hf : e.freshUntil = ⊤) (t : ℚ) (k : Key) :
    exportedEntry t k e = ⟨k, e.value, none, none, sortedTags e.tags, true⟩ := by
  simp only [exportedEntry, hf]
  rfl

theorem exportedEntry_windows {V : Type} {e : Entry V} {f st : ℚ}
    (hf : e.freshUntil = (f : Deadline)) (hst : e.staleUntil = (st : Deadline)) (t : ℚ) (k : Key) :
    exportedEntry t k e = ⟨k, e.value, some (max 0 (f - t)), some (max 0 (st - max t f)),
      sortedTags e.tags, false⟩ := by
  simp only [exportedEntry, hf, hst]
  rfl

theorem inFreshWindow_exported (h : Genuine c k e) :
    InFreshWindow (exportedEntry t k e) ↔ (t : Deadline) < e.freshUntil := by
  rcases h.windows with ⟨hf, -⟩ | ⟨f, st, hf, hst, -⟩
  · rw [exportedEntry_persistent hf, hf]
    exact iff_of_true (fun _ h => by cases h) (WithTop.coe_lt_top t)
  · rw [exportedEntry_windows hf hst, hf, WithTop.coe_lt_coe]
    constructor
    · intro hin
      have hpos := hin _ rfl
      rw [lt_max_iff] at hpos
      rcases hpos with hpos | hpos <;> linarith
    · rintro hlt f' hf'
      rw [← Option.some.inj hf']
      exact lt_max_of_lt_right (by linarith)

/-- What is left of an exported entry later is what would be exported later. -/
theorem aged_exported (h : Genuine c k e) (hd : 0 ≤ d) (hlive : (t : Deadline) < e.staleUntil) :
    aged d (exportedEntry t k e) =
      if ((t + d : ℚ) : Deadline) < e.staleUntil then some (exportedEntry (t + d) k e) else none := by
  rcases h.windows with ⟨hf, hst⟩ | ⟨f, st, hf, hst, hle⟩
  · rw [exportedEntry_persistent hf, exportedEntry_persistent hf, hst,
      if_pos (WithTop.coe_lt_top _)]
    rfl
  · rw [hst, WithTop.coe_lt_coe] at hlive
    rw [exportedEntry_windows hf hst, exportedEntry_windows hf hst, hst]
    simp only [WithTop.coe_lt_coe]
    -- the two windows together reach to the stale deadline, whichever of them is open
    have htotal : max 0 (f - t) + max 0 (st - max t f) = st - t := by
      rcases le_total f t with hft | hft
      · rw [max_eq_left (sub_nonpos.mpr hft), max_eq_left hft, max_eq_right (by linarith)]
        ring
      · rw [max_eq_right (sub_nonneg.mpr hft), max_eq_right hft, max_eq_right (by linarith)]
        ring
    simp only [aged, remainingWindows, htotal]
    by_cases hlater : t + d < st
    · have hfresh : max 0 (max 0 (f - t) - d) = max 0 (f - (t + d)) := by
        rcases le_total f t with hft | hft
        · rw [max_eq_left (sub_nonpos.mpr hft), max_eq_left (by linarith),
            max_eq_left (by linarith)]
        · rw [max_eq_right (sub_nonneg.mpr hft)]
          congr 1
          ring
      have hstale : max 0 (st - t - d - max 0 (f - (t + d))) = max 0 (st - max (t + d) f) := by
        congr 1
        rcases le_total f (t + d) with hft | hft
        · rw [max_eq_left (by linarith : f - (t + d) ≤ 0), max_eq_left hft]
          ring
        · rw [max_eq_right (by linarith : 0 ≤ f - (t + d)), max_eq_right hft]
          ring
      rw [if_neg (by linarith), if_pos hlater, hfresh, hstale]
      rfl
    · rw [if_pos (by linarith), if_neg hlater]
      rfl

theorem sortedTags_perm (tags : List Tag) : (sortedTags tags).Perm tags :=
  List.perm_insertionSort _ tags

theorem TagsFit.sorted {tags : List Tag} (h : TagsFit tags) : TagsFit (sortedTags tags) := by
  refine ⟨(sortedTags_perm tags).length_eq ▸ h.1, fun tag htag => h.2 tag ?_⟩
  exact (sortedTags_perm tags).mem_iff.mp htag

theorem filterMap_keys_sublist {g : Key → Option (StorageEntry SnapshotValue)}
    (hg : ∀ k item, g k = some item → item.key = k) (keys : List Key) :
    ((keys.filterMap g).map StorageEntry.key).Sublist keys := by
  induction keys with
  | nil => simp
  | cons k keys ih =>
    rw [List.filterMap_cons]
    cases hk : g k with
    | none => exact ih.cons k
    | some item =>
      rw [List.map_cons, hg k item hk]
      exact ih.cons_cons k

/-- `export_entries` at time `t`: the live entries, which stay. -/
theorem exportEntries_live (c : EngineConfig SnapshotValue) (t : ℚ) (s : Engine SnapshotValue) :
    ∃ items s', exportEntries (c.atTime t) none s = (.ok items, s') ∧
      (∀ k, s'.entries.get? k =
        (s.entries.get? k).filter fun e => (t : Deadline) < e.staleUntil) ∧
      (∀ item, item ∈ items ↔ ∃ k e, s.entries.get? k = some e ∧ (t : Deadline) < e.staleUntil ∧
        item = exportedEntry t k e) ∧
      (items.map StorageEntry.key).Nodup := by
  obtain ⟨l, s', hrun, hget, hl⟩ := collect_exportOne t s.entries.keys { s with ticks := s.ticks + 1 }
  have hitems : l.filterMap id = s.entries.keys.filterMap fun k =>
      ((s.entries.get? k).filter fun e => (t : Deadline) < e.staleUntil).map (exportedEntry t k) := by
    rw [hl, List.filterMap_map]
    rfl
  refine ⟨l.filterMap id, s', ?_, fun k => ?_, fun item => ?_, ?_⟩
  · have hclock : readClock (c.atTime t) s = (.ok t, { s with ticks := s.ticks + 1 }) := rfl
    rw [exportEntries, Prog.run_bind_ok hclock, Prog.run_bind_ok (Prog.run_get _),
      Option.getD_none, Prog.run_bind_ok hrun]
    rfl
  · rw [hget k]
    split_ifs with hk
    · rfl
    · have hnone : s.entries.get? k = none := OrderedDict.get?_eq_none.mpr hk
      simp [hnone]
  · rw [hitems, List.mem_filterMap]
    constructor
    · rintro ⟨k, -, hk⟩
      obtain ⟨e, he, rfl⟩ := Option.map_eq_some_iff.mp hk
      obtain ⟨hg, hlive⟩ := Option.filter_eq_some_iff.mp he
      exact ⟨k, e, hg, of_decide_eq_true hlive, rfl⟩
    · rintro ⟨k, e, hg, hlive, rfl⟩
      exact ⟨k, OrderedDict.mem_keys.mpr ⟨e, hg⟩, by simp [hg, hlive]⟩
  · rw [hitems]
    refine (filterMap_keys_sublist (fun k item hk => ?_) _).nodup s.entries.nodup_keys
    obtain ⟨e, -, rfl⟩ := Option.map_eq_some_iff.mp hk
    rfl

end

/-! ## The restored engine -/

section

variable {q : TenantQuotas} {settings settings' : EngineSettings} {floats : Json.FloatText}
  {s : Engine SnapshotValue} {k : Key} {e : Entry SnapshotValue} {t now : ℚ}

theorem exported_portable (h : Genuine (q.engine settings floats) k e) (t : ℚ) :
    Portable (exportedEntry t k e) where
  key := h.key
  tags := ⟨(sortedTags_perm e.tags).nodup_iff.mpr h.tags.1, TagsFit.sorted h.tags.2⟩
  value := @snapshotDocument_ordered floats _ _ h.value
  windows := by
    rcases h.windows with ⟨hf, -⟩ | ⟨f, st, hf, hst, -⟩
    · rw [exportedEntry_persistent hf]
      exact .inl ⟨rfl, rfl, rfl⟩
    · rw [exportedEntry_windows hf hst]
      exact .inr ⟨_, _, rfl, rfl, rfl, le_max_left _ _⟩

theorem metadataBytes_perm {k : Key} {tags tags' : List Tag} (h : tags.Perm tags') :
    metadataBytes k tags = metadataBytes k tags' := by
  unfold metadataBytes
  rw [(h.map String.utf8ByteSize).sum_eq]

theorem restoreWindows_exported {V : Type} {e : Entry V}
    (hw : (e.freshUntil = ⊤ ∧ e.staleUntil = ⊤) ∨
      ∃ f st : ℚ, e.freshUntil = (f : Deadline) ∧ e.staleUntil = (st : Deadline) ∧ f ≤ st)
    (t : ℚ) (k : Key) (s : Engine V) :
    ∃ w, restoreWindows (exportedEntry t k e) s = (.ok w, s) := by
  rcases hw with ⟨hf, -⟩ | ⟨f, st, hf, hst, -⟩
  · rw [exportedEntry_persistent hf]
    exact ⟨none, rfl⟩
  · have hfresh : ¬max 0 (f - t) < 0 := not_lt.mpr (le_max_left _ _)
    have hstale : ¬max 0 (st - max t f) < 0 := not_lt.mpr (le_max_left _ _)
    rw [exportedEntry_windows hf hst]
    refine ⟨some (max 0 (f - t), max 0 (st - max t f)), ?_⟩
    simp only [restoreWindows, Bool.false_eq_true, ↓reduceIte, snapshotDuration, hfresh, hstale,
      Prog.run_bind, Prog.run_pure]

/-- An exported entry passes the checks of an engine with the same quotas. -/
theorem prepareRestoreOne_exported (settings' : EngineSettings) (now : ℚ)
    (h : Genuine (q.engine settings floats) k e)
    (hlive : (t : Deadline) < e.staleUntil) (s : Engine SnapshotValue) :
    ∃ r, prepareRestoreOne ((q.engine settings' floats).atTime now) (exportedEntry t k e) s =
      (.ok (some r), s) ∧ r.key = k ∧ r.sizeBytes = e.sizeBytes := by
  obtain ⟨m, hm, hsize⟩ := h.sized
  have hnodup : (sortedTags e.tags).Nodup := (sortedTags_perm e.tags).nodup_iff.mpr h.tags.1
  have htags : normalizeTags (exportedEntry t k e).tags s = (.ok (sortedTags e.tags), s) :=
    normalizeTags_fit (TagsFit.sorted h.tags.2) s
  have hvalue : snapshotValue ((q.engine settings' floats).atTime now) (exportedEntry t k e).value s =
      (.ok e.value, s) := by
    have hstored : ((q.engine settings' floats).atTime now).codec.snapshotValue
        (exportedEntry t k e).value = some e.value := h.value
    simp only [snapshotValue, hstored, Prog.run_pure]
  obtain ⟨w, hw⟩ := restoreWindows_exported h.windows t k s
  have hspent : windowsSpent w = false :=
    unspent_exportedEntry (not_le.mpr hlive) w (restoreWindows_ok hw).2
  have hbytes : entrySize ((q.engine settings' floats).atTime now) (exportedEntry t k e).key e.value
      (sortedTags e.tags).dedup s = (.ok e.sizeBytes, s) := by
    change entrySize _ k e.value (sortedTags e.tags).dedup s = _
    have hcount : ((q.engine settings' floats).atTime now).codec.valueBytes e.value = some m := hm
    rw [hnodup.dedup, entrySize, hcount, hsize, metadataBytes_perm (sortedTags_perm e.tags)]
    rfl
  have hlimits : ¬(((q.engine settings' floats).atTime now).maxEntryBytes < e.sizeBytes ∨
      ((q.engine settings' floats).atTime now).maxMemoryBytes < e.sizeBytes) := by
    rw [not_or, not_lt, not_lt]
    exact h.size_le
  refine ⟨⟨k, e.value, (sortedTags e.tags).dedup, e.sizeBytes, w⟩, ?_, rfl, rfl⟩
  rw [prepareRestoreOne, Prog.run_bind_ok htags, Prog.run_bind_ok hvalue, Prog.run_bind_ok hw,
    hspent]
  simp only [Bool.false_eq_true, ↓reduceIte]
  rw [Prog.run_bind_ok hbytes, if_neg hlimits]
  rfl

/-- The entries of `items` are exports at time `t` of entries of `s`. -/
def ExportedFrom (s : Engine SnapshotValue) (t : ℚ) (items : List (StorageEntry SnapshotValue)) :
    Prop :=
  ∀ item ∈ items, ∃ k e, s.entries.get? k = some e ∧ (t : Deadline) < e.staleUntil ∧
    item = exportedEntry t k e

theorem collect_exported (settings' : EngineSettings) (now : ℚ)
    {items : List (StorageEntry SnapshotValue)}
    (hstock : Stocked (q.engine settings floats) s) (h : ExportedFrom s t items)
    (u : Engine SnapshotValue) :
    ∃ os, Prog.collect (prepareRestoreOne ((q.engine settings' floats).atTime now)) items u =
        (.ok os, u) ∧
      (os.filterMap id).map PreparedRestore.key = items.map StorageEntry.key ∧
      ∀ r ∈ os.filterMap id, ∃ e, s.entries.get? r.key = some e ∧ r.sizeBytes = e.sizeBytes := by
  induction items with
  | nil => exact ⟨[], rfl, rfl, by simp⟩
  | cons item items ih =>
    obtain ⟨k, e, hg, hlive, rfl⟩ := h item List.mem_cons_self
    obtain ⟨os, hos, hkeys, hsizes⟩ := ih fun i hi => h i (List.mem_cons_of_mem _ hi)
    obtain ⟨r, hr, hkey, hsize⟩ := prepareRestoreOne_exported settings' now (hstock k e hg)
      hlive u
    have hcons : (some r :: os).filterMap id = r :: os.filterMap id := rfl
    refine ⟨some r :: os, ?_, ?_, ?_⟩
    · rw [Prog.collect, Prog.run_bind_ok hr, Prog.run_bind_ok hos]
      rfl
    · rw [hcons, List.map_cons, hkeys, hkey]
      rfl
    · rw [hcons]
      refine List.forall_mem_cons.mpr ⟨⟨e, ?_, hsize⟩, hsizes⟩
      rw [hkey]
      exact hg

theorem forEach_validateKey_fit {V : Type} {items : List (StorageEntry V)}
    (h : ∀ item ∈ items, item.key ≠ "" ∧ item.key.length ≤ 1024) (s : Engine V) :
    Prog.forEach (fun item : StorageEntry V => validateKey item.key) items s = (.ok (), s) := by
  induction items with
  | nil => rfl
  | cons item items ih =>
    obtain ⟨hne, hle⟩ := h item List.mem_cons_self
    have hkey : validateKey item.key s = (.ok (), s) := by
      simp [validateKey, hne, not_lt.mpr hle]
    rw [Prog.forEach, Prog.run_bind_ok hkey]
    exact ih fun i hi => h i (List.mem_cons_of_mem item hi)

/-- An empty engine takes whatever fits into it. -/
theorem restoreEntries_empty {V : Type} {c : EngineConfig V} {items : List (StorageEntry V)}
    {prepared : List (PreparedRestore V)}
    (hprep : prepareRestoreEntries c items init = (.ok prepared, init))
    (hcount : prepared.length ≤ c.maxEntries)
    (hbytes : (prepared.map fun r => (r.sizeBytes : ℤ)).sum ≤ c.maxMemoryBytes) :
    ∃ n s', restoreEntries c items init = (.ok n, s') := by
  have hover : ¬((c.maxEntries : ℤ) < 0 - 0 + prepared.length ∨
      (c.maxMemoryBytes : ℤ) < 0 - 0 + (prepared.map fun r => (r.sizeBytes : ℤ)).sum) := by
    push Not
    constructor <;> omega
  have hreplaced : (prepared.filterMap fun r => (init : Engine V).entries.get? r.key) = [] := by
    simp [Engine.init]
  have hcap : validatePreparedRestoreCapacity c prepared { (init : Engine V) with ticks := 1 } =
      (.ok (), { init with ticks := 1 }) := by
    rw [validatePreparedRestoreCapacity, Prog.run_bind_ok (Prog.run_get _)]
    simp only [hreplaced]
    exact if_neg hover ▸ rfl
  have hclock : readClock c init = (.ok (c.clock 0), { (init : Engine V) with ticks := 1 }) := rfl
  have hpurge : (modify (purgeExpiredEntries (c.clock 0)) : EngineM V Unit)
      { (init : Engine V) with ticks := 1 } = (.ok (), { init with ticks := 1 }) := rfl
  rw [restoreEntries, Prog.run_bind_ok hprep, Prog.run_bind_ok hclock, Prog.run_bind_ok hpurge,
    Prog.run_bind_ok hcap]
  exact ⟨_, _, rfl⟩

/-- The bytes of some of the entries. -/
theorem sum_sizes_le {keys : List Key} (hkeys : ∀ k ∈ keys, ∃ e, s.entries.get? k = some e)
    (hnodup : keys.Nodup) :
    (keys.map fun k => (((s.entries.get? k).map Entry.sizeBytes).getD 0 : ℤ)).sum ≤
      entryBytes s.entries := by
  have hall : s.entries.keys.map (fun k => (((s.entries.get? k).map Entry.sizeBytes).getD 0 : ℤ)) =
      s.entries.toList.map fun p => (p.2.sizeBytes : ℤ) := by
    rw [OrderedDict.keys, List.map_map]
    refine List.map_congr_left fun p hp => ?_
    have hget : s.entries.get? p.1 = some p.2 := OrderedDict.mem_toList.mp hp
    simp [hget]
  obtain ⟨l, hperm, hsub⟩ := hnodup.subperm fun k hk => OrderedDict.mem_keys.mpr (hkeys k hk)
  calc (keys.map fun k => (((s.entries.get? k).map Entry.sizeBytes).getD 0 : ℤ)).sum
      = (l.map fun k => (((s.entries.get? k).map Entry.sizeBytes).getD 0 : ℤ)).sum :=
        ((hperm.map _).sum_eq).symm
    _ ≤ (s.entries.keys.map fun k => (((s.entries.get? k).map Entry.sizeBytes).getD 0 : ℤ)).sum :=
        (hsub.map _).sum_le_sum fun x hx => by
          obtain ⟨k, -, rfl⟩ := List.mem_map.mp hx
          exact Int.natCast_nonneg _
    _ = entryBytes s.entries := by rw [hall]; rfl

/-- Exports of different entries of an engine fit into an empty one with the same quotas. -/
theorem restoreEntries_exported (settings' : EngineSettings) (now : ℚ)
    {items : List (StorageEntry SnapshotValue)}
    (hs : Sound (q.engine settings floats) s) (hstock : Stocked (q.engine settings floats) s)
    (h : ExportedFrom s t items) (hnodup : (items.map StorageEntry.key).Nodup) :
    ∃ n s', restoreEntries ((q.engine settings' floats).atTime now) items init = (.ok n, s') := by
  obtain ⟨os, hos, hkeys, hsizes⟩ := collect_exported settings' now hstock h init
  have hfit : ∀ item ∈ items, item.key ≠ "" ∧ item.key.length ≤ 1024 := by
    intro item hitem
    obtain ⟨k, e, hg, -, rfl⟩ := h item hitem
    exact (hstock k e hg).key
  have hpresent : ∀ k ∈ (os.filterMap id).map PreparedRestore.key, ∃ e, s.entries.get? k = some e := by
    intro k hk
    obtain ⟨r, hr, rfl⟩ := List.mem_map.mp hk
    obtain ⟨e, he, -⟩ := hsizes r hr
    exact ⟨e, he⟩
  have hdistinct : ((os.filterMap id).map PreparedRestore.key).Nodup := hkeys ▸ hnodup
  have hbytes : ((os.filterMap id).map fun r => (r.sizeBytes : ℤ)) =
      ((os.filterMap id).map PreparedRestore.key).map fun k =>
        (((s.entries.get? k).map Entry.sizeBytes).getD 0 : ℤ) := by
    rw [List.map_map]
    refine List.map_congr_left fun r hr => ?_
    obtain ⟨e, he, hsize⟩ := hsizes r hr
    simp [he, hsize]
  refine @restoreEntries_empty _ _ _ (os.filterMap id) ?_ ?_ ?_
  · rw [prepareRestoreEntries, Prog.run_bind_ok (forEach_validateKey_fit hfit _),
      if_neg (not_not.mpr hnodup), Prog.run_bind_ok hos]
    rfl
  · calc (os.filterMap id).length = ((os.filterMap id).map PreparedRestore.key).length := by simp
      _ ≤ s.entries.keys.length :=
        (hdistinct.subperm fun k hk => OrderedDict.mem_keys.mpr (hpresent k hk)).length_le
      _ = s.entries.size := by simp [OrderedDict.keys, OrderedDict.size]
      _ ≤ _ := hs.bounded.entries_le
  · calc ((os.filterMap id).map fun r => (r.sizeBytes : ℤ)).sum
        ≤ entryBytes s.entries := by
          rw [hbytes]
          exact sum_sizes_le hpresent hdistinct
      _ ≤ s.usedBytes := by
        rw [hs.accounts.usedBytes_eq]
        have := hs.accounts.leaseBytes_nonneg
        omega
      _ ≤ _ := hs.bounded.usedBytes_le

/-- The state and the value of a result. -/
def answer {V : Type} (r : CacheResult V) : CacheState × Option V := (r.state, r.value)

/-- What a `get` of a key answers while the clock stands. -/
theorem getEntry_atTime {V : Type} (c : EngineConfig V) (t : ℚ) (key : Key) (s : Engine V) :
    (getEntry (c.atTime t) key s).1 =
      if key = "" ∨ 1024 < key.length then
        .error (valueError "key must contain between 1 and 1024 characters")
      else .ok (resultAt t ((s.entries.get? key).map Entry.written)) := by
  unfold getEntry
  split_ifs with hkey
  · have hbad : validateKey key s =
        (.error (valueError "key must contain between 1 and 1024 characters"), s) := by
      rw [validateKey, if_pos hkey]
      rfl
    rw [Prog.run_bind_error hbad]
  · have hgood : validateKey key s = (.ok (), s) := by
      rw [validateKey, if_neg hkey]
      rfl
    rw [Prog.run_bind_ok hgood, lookup_eq]
    dsimp only
    rw [lookupAt_result]
    rfl

/-- What restored windows answer at once is what the exported entry answers. -/
theorem answer_restored {r : PreparedRestore SnapshotValue}
    (h : Genuine (q.engine settings floats) k e) (hlive : (t : Deadline) < e.staleUntil)
    {c : EngineConfig SnapshotValue} (hcodec : c.codec = documentCodec floats)
    (hr : RestoresFrom c (exportedEntry t k e) r) :
    answer (resultAt now (some (restoredEntry now r).written)) =
      answer (resultAt t (some e.written)) := by
  have hvalue : r.value = e.value := by
    have h₁ : c.codec.snapshotValue e.value = some r.value := hr.value_eq
    rw [hcodec] at h₁
    exact Option.some.inj (h₁.symm.trans h.value)
  have hw := hr.windows
  have hunspent := hr.unspent
  have hlive' : ¬e.staleUntil ≤ (t : Deadline) := not_le.mpr hlive
  rcases h.windows with ⟨hf, hst⟩ | ⟨f, st, hf, hst, hle⟩
  · -- no deadlines on either side
    rw [exportedEntry_persistent hf, RestoreWindows, if_pos rfl] at hw
    simp [answer, resultAt, restoredEntry, Entry.written, hw, hf, hst, hvalue]
  · rw [exportedEntry_windows hf hst, RestoreWindows, if_neg (by simp)] at hw
    obtain ⟨a, b, ha, hb, -, -, hwin⟩ := hw
    obtain rfl := Option.some.inj ha
    obtain rfl := Option.some.inj hb
    rw [hwin, windowsSpent, decide_eq_false_iff_not, not_le] at hunspent
    have hopen : ¬((now + max 0 (f - t) + max 0 (st - max t f) : ℚ) : Deadline) ≤ (now : Deadline) := by
      rw [WithTop.coe_le_coe]
      linarith
    simp only [answer, resultAt, restoredEntry, Entry.written, hwin, hf, hst, hvalue] at hlive' ⊢
    rw [if_neg hopen, if_neg hlive']
    simp only [WithTop.coe_lt_coe]
    by_cases hfresh : t < f
    · rw [if_pos hfresh, if_pos (by rw [max_eq_right (by linarith)]; linarith)]
    · rw [if_neg hfresh, if_neg (by rw [max_eq_left (by linarith)]; linarith)]

/-- What the entries read from a backup are to be at the engine's time `t`: the exports of
exactly those entries of the engine that are live then, and restored into an empty engine they
answer every `get` as the engine does. -/
structure Recovers (c scratch : EngineConfig SnapshotValue) (s : Engine SnapshotValue) (t : ℚ)
    (entries : List (StorageEntry SnapshotValue)) : Prop where
  exact : ∀ item, item ∈ entries ↔ ∃ k e, s.entries.get? k = some e ∧
    (t : Deadline) < e.staleUntil ∧ item = exportedEntry t k e
  distinct : (entries.map StorageEntry.key).Nodup
  restored : ∃ n s', restoreEntries scratch entries init = (.ok n, s') ∧
    ∀ key, (getEntry scratch key s').1.map answer = (getEntry (c.atTime t) key s).1.map answer

theorem recovers_of_exact {entries : List (StorageEntry SnapshotValue)}
    (hs : Sound (q.engine settings floats) s) (hstock : Stocked (q.engine settings floats) s)
    (hexact : ∀ item, item ∈ entries ↔ ∃ k e, s.entries.get? k = some e ∧
      (t : Deadline) < e.staleUntil ∧ item = exportedEntry t k e)
    (hdistinct : (entries.map StorageEntry.key).Nodup) (settings' : EngineSettings) (now : ℚ) :
    Recovers (q.engine settings floats) ((q.engine settings' floats).atTime now) s t entries := by
  have hfrom : ExportedFrom s t entries := fun item hitem => (hexact item).mp hitem
  obtain ⟨n, s', hrun⟩ := restoreEntries_exported settings' now hs hstock hfrom
    hdistinct
  refine ⟨hexact, hdistinct, n, s', hrun, fun key => ?_⟩
  rcases restoreEntries_cases (c := (q.engine settings' floats).atTime now) entries init with
    ⟨e, u, herr, -⟩ | ⟨prepared, now', s₁, hok, hed, hnow, hprep, -⟩
  · rw [hrun] at herr
    cases herr
  have hs' : s' = restoreAll now prepared s₁ := by
    rw [hrun, hnow] at hok
    exact congrArg Prod.snd hok
  have hempty : s₁.entries.get? key = none := by
    have hthin := Thins.edits (Permit.thinning_thinsOff fun _ => False)
      (hed.mono Permit.purges_le_thinning)
    exact hthin.get?_none (fun h => h) (by simp [Engine.init])
  have hscratch : ((q.engine settings' floats).atTime now).atTime now =
      (q.engine settings' floats).atTime now := rfl
  rw [← hscratch, getEntry_atTime, getEntry_atTime, hs']
  split_ifs
  · rfl
  · refine congrArg Except.ok ?_
    by_cases hkey : key ∈ prepared.map PreparedRestore.key
    · obtain ⟨r, hr, rfl⟩ := List.mem_map.mp hkey
      obtain ⟨item, hitem, hres⟩ := hprep.restores r hr
      obtain ⟨k, e, hg, hlive, rfl⟩ := hfrom item hitem
      have hk : r.key = k := hres.key_eq
      rw [get?_restoreAll_of_mem hprep.nodup hr, hk, hg]
      exact answer_restored (hstock k e hg) hlive rfl hres
    · rw [get?_restoreAll_of_notMem hkey, hempty]
      -- no entry of the key is live, or it would have been restored
      cases hg : s.entries.get? key with
      | none => rfl
      | some e =>
        by_cases hlive : (t : Deadline) < e.staleUntil
        · exfalso
          rcases hprep.covers _ ((hexact _).mpr ⟨key, e, hg, hlive, rfl⟩) with
            ⟨r, hr, hres⟩ | ⟨w, hw, hspent⟩
          · have hk : r.key = key := hres.key_eq
            exact hkey (hk ▸ List.mem_map_of_mem hr)
          · rw [unspent_exportedEntry (not_le.mpr hlive) w hw] at hspent
            cases hspent
        · have hle : e.written.staleUntil ≤ (t : Deadline) := not_lt.mp hlive
          simp only [Option.map_some, Option.map_none, resultAt, hle, ↓reduceIte]

/-- What is left of entries has their keys. -/
theorem filterMap_aged_keys (d : ℚ) (l : List (StorageEntry SnapshotValue)) :
    ((l.filterMap (aged d)).map StorageEntry.key).Sublist (l.map StorageEntry.key) := by
  induction l with
  | nil => exact List.Sublist.refl _
  | cons item l ih =>
    rw [List.filterMap_cons]
    cases haged : aged d item with
    | none => exact ih.cons _
    | some left =>
      have hkey : left.key = item.key := by rw [aged_eq haged]
      rw [List.map_cons, List.map_cons, hkey]
      exact ih.cons_cons _

/-- The invariant does not depend on the clock. -/
theorem sound_atTime {V : Type} {c : EngineConfig V} {s : Engine V} (t : ℚ) :
    Sound (c.atTime t) s ↔ Sound c s := by
  constructor
  · rintro ⟨ha, hu, he, hl⟩
    exact ⟨ha, hu, he, hl⟩
  · rintro ⟨ha, hu, he, hl⟩
    exact ⟨ha, hu, he, hl⟩

/-! ## Backups -/

/-- What the plaintext of a backup was made from: the exports of the live entries, in the order
of their keys.  `s'` is the engine after the backup. -/
structure BackupOf (q : TenantQuotas) (settings : EngineSettings) (floats : Json.FloatText)
    (s s' : Engine SnapshotValue) (t : ℚ) (items : List (StorageEntry SnapshotValue)) : Prop where
  stocked : Stocked (q.engine settings floats) s
  sound : Sound (q.engine settings floats) s'
  left : ∀ k, s'.entries.get? k =
    (s.entries.get? k).filter fun e => (t : Deadline) < e.staleUntil
  mem : ∀ item, item ∈ items ↔ ∃ k e, s.entries.get? k = some e ∧
    (t : Deadline) < e.staleUntil ∧ item = exportedEntry t k e
  distinct : (items.map StorageEntry.key).Nodup
  finite : ∀ item ∈ items, (encodeValue item.value).finite = true

theorem BackupOf.portable {s' : Engine SnapshotValue} {items : List (StorageEntry SnapshotValue)}
    (h : BackupOf q settings floats s s' t items) : ∀ item ∈ items, Portable item := by
  intro item hitem
  obtain ⟨k, e, hg, -, rfl⟩ := (h.mem item).mp hitem
  exact exported_portable (h.stocked k e hg) t

/-- A backup that succeeds, and how it is read later. -/
theorem backup_ok {session : Session SnapshotValue}
    (hreach : Reachable (q.engine settings floats) session) {tenantNamespace : String}
    {maximumBytes : ℕ} {createdAt : ℚ≥0} {plaintext : List UInt8} {s' : Engine SnapshotValue}
    (h : backup floats (q.engine settings floats) tenantNamespace maximumBytes t createdAt
      session.engine = (.ok plaintext, s')) :
    ∃ items, BackupOf q settings floats session.engine s' t items ∧
      ∀ d : ℚ, 0 ≤ d → readBackup floats plaintext tenantNamespace (createdAt + d) =
        readEntries floats d [] (items.map artifactEntry) := by
  have hstock := hreach.stocked
  obtain ⟨items, u, hexport, hget, hmem, hnodup⟩ :=
    exportEntries_live (q.engine settings floats) t session.engine
  rw [backup, hexport, Prod.mk.injEq] at h
  obtain ⟨hplain, rfl⟩ := h
  have hsound : Sound (q.engine settings floats) u := by
    have hkept := sound_edits (c := (q.engine settings floats).atTime t) Permit.purges_shrinking
      (@edits_exportEntries _ _ _ none fun _ => trivial) session.engine
      ((sound_atTime t).mpr hreach.inv.sound)
    rw [hexport] at hkept
    exact (sound_atTime t).mp hkept
  have hfinite := finite_of_document (artifactPlaintext_ok hplain).1
  have hvalues : ∀ item ∈ items, item.value.Ordered := by
    intro item hitem
    obtain ⟨k, e, hg, -, rfl⟩ := (hmem item).mp hitem
    exact (exported_portable (hstock k e hg) t).value
  refine ⟨sortedByKey items, ⟨hstock, hsound, hget, fun item => ?_, ?_, fun item hitem => ?_⟩,
    fun d hd => readBackup_eq hvalues hplain createdAt.cast_nonneg hd⟩
  · rw [mem_sortedByKey]
    exact hmem item
  · exact ((sortedByKey_perm items).map StorageEntry.key).nodup_iff.mpr hnodup
  · exact hfinite item (mem_sortedByKey.mp hitem)

/-- An entry in its stale window makes the backup unreadable, at any time. -/
theorem BackupOf.refused {s' : Engine SnapshotValue} {items : List (StorageEntry SnapshotValue)}
    (h : BackupOf q settings floats s s' t items) (hg : s.entries.get? k = some e)
    (hlive : (t : Deadline) < e.staleUntil) (hstale : ¬(t : Deadline) < e.freshUntil) (d : ℚ) :
    readEntries floats d [] (items.map artifactEntry) =
      .error (artifactError "artifact entry contains invalid freshness windows") := by
  have hbad : ∃ item ∈ items, ¬InFreshWindow item :=
    ⟨exportedEntry t k e, (h.mem _).mpr ⟨k, e, hg, hlive, rfl⟩,
      fun hin => hstale ((inFreshWindow_exported (h.stocked k e hg)).mp hin)⟩
  exact readEntries_refused h.portable h.finite h.distinct (by simp) hbad d

/-- Without such entries the backup is read, and recovers the engine. -/
theorem BackupOf.recovers {s' : Engine SnapshotValue} {items : List (StorageEntry SnapshotValue)}
    (h : BackupOf q settings floats s s' t items)
    (hfresh : ∀ k e, s.entries.get? k = some e → (t : Deadline) < e.staleUntil →
      (t : Deadline) < e.freshUntil) {d : ℚ} (hd : 0 ≤ d) :
    readEntries floats d [] (items.map artifactEntry) = .ok (items.filterMap (aged d)) ∧
      ∀ (settings' : EngineSettings) (now : ℚ), Recovers (q.engine settings floats)
        ((q.engine settings' floats).atTime now) s' (t + d) (items.filterMap (aged d)) := by
  have hin : ∀ item ∈ items, InFreshWindow item := by
    intro item hitem
    obtain ⟨k, e, hg, hlive, rfl⟩ := (h.mem item).mp hitem
    exact (inFreshWindow_exported (h.stocked k e hg)).mpr (hfresh k e hg hlive)
  have hstock' : Stocked (q.engine settings floats) s' := by
    intro k e hg
    rw [h.left k] at hg
    exact h.stocked k e (Option.filter_eq_some_iff.mp hg).1
  refine ⟨readEntries_all h.portable h.finite h.distinct (by simp) hin d, fun settings' now =>
    recovers_of_exact h.sound hstock' (fun item => ?_)
      ((filterMap_aged_keys d items).nodup h.distinct) settings' now⟩
  rw [List.mem_filterMap]
  constructor
  · rintro ⟨raw, hraw, haged⟩
    obtain ⟨k, e, hg, hlive, rfl⟩ := (h.mem raw).mp hraw
    rw [aged_exported (h.stocked k e hg) hd hlive] at haged
    split_ifs at haged with hlater
    refine ⟨k, e, ?_, hlater, (Option.some.inj haged).symm⟩
    rw [h.left k, hg]
    simp [hlive]
  · rintro ⟨k, e, hg, hlater, rfl⟩
    rw [h.left k] at hg
    obtain ⟨hg, hlive⟩ := Option.filter_eq_some_iff.mp hg
    have hlive : (t : Deadline) < e.staleUntil := of_decide_eq_true hlive
    refine ⟨exportedEntry t k e, (h.mem _).mpr ⟨k, e, hg, hlive, rfl⟩, ?_⟩
    rw [aged_exported (h.stocked k e hg) hd hlive, if_pos hlater]

/-- What a backup made at the engine's time `t` promises: at every later time its plaintext is
read, and what is read recovers the engine `s` that was left alone. -/
def Restorable (q : TenantQuotas) (settings : EngineSettings) (floats : Json.FloatText)
    (tenantNamespace : String) (plaintext : List UInt8) (t : ℚ) (createdAt : ℚ≥0)
    (s : Engine SnapshotValue) : Prop :=
  ∀ d : ℚ, 0 ≤ d → ∃ entries,
    readBackup floats plaintext tenantNamespace (createdAt + d) = .ok entries ∧
    ∀ (settings' : EngineSettings) (now : ℚ), Recovers (q.engine settings floats)
      ((q.engine settings' floats).atTime now) s (t + d) entries

/-- A backup of any reachable engine keeps its promise exactly when no entry was in its stale
window at the time. -/
theorem backup_restorable {session : Session SnapshotValue}
    (hreach : Reachable (q.engine settings floats) session) {tenantNamespace : String}
    {maximumBytes : ℕ} {createdAt : ℚ≥0} {plaintext : List UInt8} {s' : Engine SnapshotValue}
    (hbackup : backup floats (q.engine settings floats) tenantNamespace maximumBytes t createdAt
      session.engine = (.ok plaintext, s')) :
    Restorable q settings floats tenantNamespace plaintext t createdAt s' ↔
      ∀ k e, session.engine.entries.get? k = some e → (t : Deadline) < e.staleUntil →
        (t : Deadline) < e.freshUntil := by
  obtain ⟨items, hitems, hread⟩ := backup_ok hreach hbackup
  constructor
  · intro hrestorable k e hg hlive
    by_contra hstale
    obtain ⟨entries, hentries, -⟩ := hrestorable 0 le_rfl
    rw [hread 0 le_rfl, hitems.refused hg hlive hstale 0] at hentries
    cases hentries
  · intro hfresh d hd
    obtain ⟨hentries, hrecovers⟩ := hitems.recovers hfresh hd
    exact ⟨_, (hread d hd).trans hentries, hrecovers⟩

end

/-! ## A small tenant -/

/-- Texts of numbers: with `.0` when they are whole, else as a fraction. -/
def plainRepr (x : ℚ) : List Char :=
  if x.den = 1 then Json.intText x.num ++ ['.', '0']
  else Json.intText x.num ++ 'e' :: Nat.toDigits 10 x.den

def plainRead (token : List Char) : Option ℚ :=
  let whole := token.takeWhile fun ch => ch ≠ '.' && ch ≠ 'e'
  match token.dropWhile fun ch => ch ≠ '.' && ch ≠ 'e' with
  | '.' :: _ => (Json.readInt whole).map fun n => (n : ℚ)
  | 'e' :: digits => do
    let n ← Json.readInt whole
    let d ← Json.readNat digits
    pure (n / d)
  | _ => none

def plainFloats : Json.FloatText where
  repr := plainRepr
  read := plainRead
  read_repr := by
    intro x
    have hchars : ∀ ch ∈ Json.intText x.num, (decide (ch ≠ '.') && decide (ch ≠ 'e')) = true := by
      intro ch hch
      rcases Json.readInt_chars (Json.readInt_intText x.num) hch with rfl | hdigit
      · decide
      · simp only [Bool.and_eq_true, decide_eq_true_eq]
        constructor <;> rintro rfl <;> revert hdigit <;> decide
    unfold plainRead plainRepr
    split_ifs with hden
    · simp only [List.takeWhile_append_of_pos hchars, List.dropWhile_append_of_pos hchars]
      simp [Json.readInt_intText, Rat.coe_int_num_of_den_eq_one hden]
    · simp only [List.takeWhile_append_of_pos hchars, List.dropWhile_append_of_pos hchars]
      simp [Json.readInt_intText, Json.readNat_toDigits, Rat.num_div_den]
  repr_digits := by
    intro x ch hch
    have hdigits : ∀ {n : ℕ}, ch ∈ Nat.toDigits 10 n → Json.numberChar ch := fun h =>
      .inl (Nat.isDigit_of_mem_toDigits (by decide) (by decide) h)
    unfold plainRepr at hch
    split_ifs at hch
    · rcases List.mem_append.mp hch with h | h
      · exact Json.numberChar_intText h
      · have h : ch = '.' ∨ ch = '0' := by simpa using h
        rcases h with rfl | rfl <;> decide
    · rcases List.mem_append.mp hch with h | h
      · exact Json.numberChar_intText h
      · rcases List.mem_cons.mp h with rfl | h
        · decide
        · exact hdigits h
  repr_fraction := by
    intro x
    unfold plainRepr
    split_ifs
    · exact .inl (by simp)
    · exact .inr (by simp)

def smallQuotas : TenantQuotas where
  maxEntries := 4
  maxBytes := 1000
  maxEntryBytes := 500
  positive := by decide
  entry_le := by decide

/-- A clock that advances one second with every reading. -/
def smallSettings : EngineSettings where
  defaultTtlSeconds := 60
  defaultStaleSeconds := 60
  leaseSeconds := 5
  evictionPolicy := .lru
  clock := fun n => n
  tokenUrlsafe := fun _ => "token"
  evictionScore := fun _ _ => 0
  positive := by decide
  clock_mono := ticking_mono

/-- One entry, written at time `0`: fresh for ten seconds, then stale for ten. -/
def smallSession : Session SnapshotValue :=
  Session.apply (smallQuotas.engine smallSettings plainFloats) ⟨init, []⟩
    (.call (.put "k" (.json (.str "v")) (some 10) (some 10) [] none false))

theorem smallSession_reachable :
    Reachable (smallQuotas.engine smallSettings plainFloats) smallSession :=
  Reachable.init.step _ fun _ hj => by cases hj

theorem smallSession_entries : smallSession.engine.entries.toList.map
    (fun p => (p.1, p.2.freshUntil, p.2.staleUntil)) =
      [("k", ((10 : ℚ) : Deadline), ((20 : ℚ) : Deadline))] := by
  decide +kernel

/-- The only entry of the session. -/
theorem smallSession_get {k : Key} {e : Entry SnapshotValue}
    (h : smallSession.engine.entries.get? k = some e) :
    e.freshUntil = ((10 : ℚ) : Deadline) ∧ e.staleUntil = ((20 : ℚ) : Deadline) := by
  have hmem : (k, e.freshUntil, e.staleUntil) ∈ smallSession.engine.entries.toList.map
      (fun p => (p.1, p.2.freshUntil, p.2.staleUntil)) :=
    List.mem_map_of_mem (f := fun p : Key × Entry SnapshotValue =>
      (p.1, p.2.freshUntil, p.2.staleUntil)) (OrderedDict.mem_toList.mpr h)
  rw [smallSession_entries, List.mem_singleton, Prod.mk.injEq, Prod.mk.injEq] at hmem
  exact hmem.2

theorem smallBackup_ok (t : ℚ) (ht : t = 5 ∨ t = 15) :
    ∃ plaintext s', backup plainFloats (smallQuotas.engine smallSettings plainFloats) "tenant" 1000 t
      (100 : ℚ≥0) smallSession.engine = (.ok plaintext, s') := by
  have hok : (match (backup plainFloats (smallQuotas.engine smallSettings plainFloats) "tenant" 1000
      t (100 : ℚ≥0) smallSession.engine).1 with | .ok _ => true | .error _ => false) = true := by
    rcases ht with rfl | rfl <;> decide +kernel
  rcases hrun : backup plainFloats (smallQuotas.engine smallSettings plainFloats) "tenant" 1000 t
      (100 : ℚ≥0) smallSession.engine with ⟨e | plaintext, s'⟩
  · rw [hrun] at hok
    cases hok
  · exact ⟨plaintext, s', rfl⟩

/-- A backup made while the entry is fresh can be restored. -/
theorem freshBackup_restorable :
    ∃ plaintext s', backup plainFloats (smallQuotas.engine smallSettings plainFloats) "tenant" 1000 5
      (100 : ℚ≥0) smallSession.engine = (.ok plaintext, s') ∧
      Restorable smallQuotas smallSettings plainFloats "tenant" plaintext 5 100 s' := by
  obtain ⟨plaintext, s', hbackup⟩ := smallBackup_ok 5 (.inl rfl)
  refine ⟨plaintext, s', hbackup, (backup_restorable smallSession_reachable hbackup).mpr ?_⟩
  intro k e hg _
  rw [(smallSession_get hg).1, WithTop.coe_lt_coe]
  norm_num

/-- A backup made while the entry is stale cannot be read at any time. -/
theorem staleBackup_unusable :
    ∃ plaintext s', backup plainFloats (smallQuotas.engine smallSettings plainFloats) "tenant" 1000 15
      (100 : ℚ≥0) smallSession.engine = (.ok plaintext, s') ∧
      readBackup plainFloats plaintext "tenant" 100 =
        .error (artifactError "artifact entry contains invalid freshness windows") ∧
      ¬Restorable smallQuotas smallSettings plainFloats "tenant" plaintext 15 100 s' := by
  obtain ⟨plaintext, s', hbackup⟩ := smallBackup_ok 15 (.inr rfl)
  obtain ⟨items, hitems, hread⟩ := backup_ok smallSession_reachable hbackup
  have hpresent : (smallSession.engine.entries.get? "k").isSome = true := by decide +kernel
  obtain ⟨e, hg⟩ := Option.isSome_iff_exists.mp hpresent
  obtain ⟨hfresh, hstale⟩ := smallSession_get hg
  have hrefused := hitems.refused hg (by rw [hstale, WithTop.coe_lt_coe]; norm_num)
    (by rw [hfresh, WithTop.coe_lt_coe]; norm_num) 0
  have herror := (hread 0 le_rfl).trans hrefused
  refine ⟨plaintext, s', hbackup, by simpa using herror, fun hrestorable => ?_⟩
  obtain ⟨entries, hentries, -⟩ := hrestorable 0 le_rfl
  rw [herror] at hentries
  cases hentries

end Controlplane
end MegaCache
