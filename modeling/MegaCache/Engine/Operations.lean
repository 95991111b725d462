import MegaCache.Engine.Types

/-!
# The cache engine: operations

Each method of `CacheEngine` under its own name.  A method runs under the
engine's lock, so it is one state transformer; `put`, `acquire_lease` and
`renew_lease` read the clock before taking the lock, and their locked parts are
separate definitions that receive that reading.
-/

namespace MegaCache
namespace Engine

variable {V : Type} (c : EngineConfig V)

/-! ## Validation and sizes -/

def validateKey (key : Key) : EngineM V Unit :=
  if key = "" ∨ 1024 < key.length then
    throw (valueError "key must contain between 1 and 1024 characters")
  else pure ()

/-- `_duration`: the selected number of seconds, at least `1`, or `0` with `allowZero`. -/
def duration (value : Option ℤ) (default : ℕ) (name : String) (allowZero : Bool) :
    EngineM V ℕ :=
  let selected := value.getD default
  if selected < (if allowZero then 0 else 1) then
    throw (valueError (name ++ " must be a " ++
      (if allowZero then "non-negative" else "positive") ++ " integer"))
  else pure selected.toNat

/-- `_snapshot_duration`. -/
def snapshotDuration (value : Option ℚ) (name : String) : EngineM V ℚ :=
  match value with
  | none => throw (valueError (name ++ " must be a finite non-negative number"))
  | some q =>
    if q < 0 then throw (valueError (name ++ " must be a finite non-negative number"))
    else pure q

def normalizeTags (tags : List Tag) : EngineM V (List Tag) :=
  if 100 < tags.length then throw (valueError "an entry may have at most 100 tags")
  else if tags.any fun tag => tag = "" || 256 < tag.utf8ByteSize then
    throw (valueError "tags must contain between 1 and 256 UTF-8 bytes")
  else pure tags

def snapshotValue (value : V) : EngineM V V :=
  match c.codec.snapshotValue value with
  | none => throw (valueError "value must be JSON serializable or bytes")
  | some stored => pure stored

/-- The bytes counted for the key and the tags of an entry. -/
def metadataBytes (key : Key) (tags : List Tag) : ℕ :=
  key.utf8ByteSize + (tags.map String.utf8ByteSize).sum + 128

def entrySize (key : Key) (value : V) (tags : List Tag) : EngineM V ℕ :=
  match c.codec.valueBytes value with
  | none => throw (valueError "value must be JSON serializable or bytes")
  | some n => pure (n + metadataBytes key tags)

/-- `secrets.compare_digest`: only ASCII strings can be compared. -/
def compareDigest (a b : String) : EngineM V Bool :=
  if a.toList.all (·.toNat < 128) && b.toList.all (·.toNat < 128) then pure (a = b)
  else throw ⟨.typeError, "comparing strings with non-ASCII characters is not supported"⟩

/-- One reading of `self._clock`. -/
def readClock : EngineM V ℚ := fun s => (.ok (c.clock s.ticks), { s with ticks := s.ticks + 1 })

/-- One call of `secrets.token_urlsafe(24)`. -/
def drawToken : EngineM V String :=
  fun s => (.ok (c.tokenUrlsafe s.draws), { s with draws := s.draws + 1 })

/-! ## Entries, tags and leases -/

/-- `self._tags[tag].add(key)` for every tag. -/
def addTags (key : Key) (tags : List Tag) (index : OrderedDict Tag (Finset Key)) :
    OrderedDict Tag (Finset Key) :=
  tags.foldl (fun d tag => d.set tag (insert key ((d.get? tag).getD ∅))) index

/-- `key` discarded from the bucket of every tag; a bucket that gets empty is popped. -/
def discardTags (key : Key) (tags : List Tag) (index : OrderedDict Tag (Finset Key)) :
    OrderedDict Tag (Finset Key) :=
  tags.foldl (fun d tag =>
    match d.get? tag with
    | none => d
    | some keys => if keys.erase key = ∅ then d.erase tag else d.set tag (keys.erase key)) index

/-- The journal after `key` with `entry` was taken out of the entries. -/
def journalRemoval (key : Key) (entry : Entry V) (j : MutationCheckpoint V) :
    MutationCheckpoint V :=
  if key ≠ j.key ∧ key ∉ j.evictedEntries.map Prod.fst then
    { j with evictedEntries := j.evictedEntries ++ [(key, entry)] }
  else j

/-- `_remove_entry`; its result is whether the key was present. -/
def removeEntry (key : Key) (s : Engine V) : Engine V :=
  match s.entries.get? key with
  | none => s
  | some entry =>
    { s with
      entries := s.entries.erase key
      activeMutation := s.activeMutation.map (journalRemoval key entry)
      usedBytes := s.usedBytes - entry.sizeBytes
      tags := discardTags key entry.tags s.tags }

/-- `_remove_lease`. -/
def removeLease (key : Key) (s : Engine V) : Engine V :=
  match s.leases.get? key with
  | none => s
  | some lease =>
    { s with
      leases := s.leases.erase key
      usedBytes := s.usedBytes - lease.sizeBytes
      leaseBytes := s.leaseBytes - lease.sizeBytes }

def purgeExpiredLeases (now : ℚ) (s : Engine V) : Engine V :=
  s.leases.toList.foldl (fun s p => if p.2.untilTime ≤ now then removeLease p.1 s else s) s

def purgeExpiredEntries (now : ℚ) (s : Engine V) : Engine V :=
  s.entries.toList.foldl
    (fun s p => if p.2.staleUntil ≤ (now : Deadline) then removeEntry p.1 s else s) s

/-- The old entry taken out, the new one appended and indexed. -/
def storeEntry (key : Key) (entry : Entry V) (s : Engine V) : Engine V :=
  let s := removeEntry key s
  { s with
    entries := s.entries.set key entry
    usedBytes := s.usedBytes + entry.sizeBytes
    tags := addTags key entry.tags s.tags }

/-- `max(0, deadline - now)`. -/
def remaining (deadline : Deadline) (now : ℚ) : Deadline :=
  deadline.map fun t => max 0 (t - now)

/-- `max(0, stale_until - fresh_until)`; with both infinite the difference is
not a number and `max` keeps its first argument. -/
def staleWindow (entry : Entry V) : Deadline :=
  match entry.staleUntil, entry.freshUntil with
  | some a, some b => (max 0 (a - b) : ℚ)
  | none, some _ => ⊤
  | _, none => 0

/-- `if count: self._metrics[m] += 1`. -/
def countIf (count : Bool) (m : Metric) (s : Engine V) : Engine V := if count then s.bump m 1 else s

/-- The access statistics of an entry after a lookup. -/
def touched (count : Bool) (now : ℚ) (entry : Entry V) : Entry V :=
  if count then
    { entry with accessCount := min (entry.accessCount + 1) 2147483647, lastAccess := now }
  else entry

/-- What a lookup before the fresh deadline returns. -/
def freshResult (now : ℚ) (entry : Entry V) : CacheResult V where
  state := .fresh
  value := some entry.value
  expiresInSeconds := remaining entry.freshUntil now
  staleForSeconds := staleWindow entry
  leaseToken := none
  retryAfterSeconds := 0

/-- What a lookup between the two deadlines returns. -/
def staleResult (now : ℚ) (entry : Entry V) : CacheResult V where
  state := .stale
  value := some entry.value
  expiresInSeconds := 0
  staleForSeconds := remaining entry.staleUntil now
  leaseToken := none
  retryAfterSeconds := 0

/-- `_lookup`, with the clock reading it makes as an argument. -/
def lookupAt (now : ℚ) (key : Key) (count : Bool) (s : Engine V) :
    CacheResult V × Engine V :=
  match s.entries.get? key with
  | none => (.miss, countIf count .misses s)
  | some entry =>
    if entry.staleUntil ≤ (now : Deadline) then
      (.miss, countIf count .expirations (countIf count .misses (removeEntry key s)))
    else
      let s := { s with entries := s.entries.setLast key (touched count now entry) }
      if (now : Deadline) < entry.freshUntil then
        (freshResult now entry, countIf count .hits s)
      else (staleResult now entry, countIf count .staleHits s)

def lookup (key : Key) (count : Bool) : EngineM V (CacheResult V) := do
  let now ← readClock c
  Prog.lift (lookupAt now key count)

/-! ## Eviction -/

/-- Whether the entry count or the bytes exceed their limits. -/
def overLimit (s : Engine V) : Prop :=
  c.maxEntries < s.entries.size ∨ (c.maxMemoryBytes : ℤ) < s.usedBytes

instance (s : Engine V) : Decidable (overLimit c s) := by
  unfold overLimit
  infer_instance

/-- `min(entries, key=lambda item: (score(item), item))`. -/
def cheapest (score : Entry V → ℚ) : List (Key × Entry V) → Option Key
  | [] => none
  | p :: rest =>
    let best := rest.foldl (fun best q =>
      if score q.2 < score best.2 ∨ score q.2 = score best.2 ∧ q.1 < best.1 then q else best) p
    some best.1

/-- The key that the next round of `_evict_if_needed` takes out. -/
def victim : EngineM V (Option Key) :=
  match c.evictionPolicy with
  | .lru => do
    let s ← get
    pure (s.entries.keys.head?)
  | .cost => do
    let now ← readClock c
    let s ← get
    pure (cheapest (fun entry => c.evictionScore entry now) s.entries.toList)

/-- The `while` loop of `_evict_if_needed`.  Every round takes one entry out, so
the number of entries bounds the rounds; taking the first key of an empty map
raises `StopIteration`. -/
def evictLoop : ℕ → EngineM V Unit
  | 0 => do
    let s ← get
    if overLimit c s then throw ⟨.stopIteration, ""⟩ else pure ()
  | n + 1 => do
    let s ← get
    if overLimit c s then do
      match ← victim c with
      | none => throw ⟨.stopIteration, ""⟩
      | some key =>
        modify (removeEntry key)
        modify (bump .evictions 1)
        modify (bump (match c.evictionPolicy with
          | .cost => .costEvictions
          | .lru => .lruEvictions) 1)
        evictLoop n
    else pure ()

def evictIfNeeded : EngineM V Unit := do
  let s ← get
  evictLoop c s.entries.size

/-! ## Reads and writes -/

def getEntry (key : Key) : EngineM V (CacheResult V) := do
  validateKey key
  lookup c key true

/-- The arguments of a write after `_prepare_put`. -/
structure PreparedPut (V : Type) where
  storedValue : V
  ttl : Deadline
  stale : ℕ
  tags : List Tag
  sizeBytes : ℕ

/-- The fresh and the stale window of a write. -/
def putWindows (ttlSeconds staleSeconds : Option ℤ) (persistent : Bool) :
    EngineM V (Deadline × ℕ) :=
  if persistent then
    if ttlSeconds ≠ none ∨ staleSeconds ≠ none then
      throw (valueError "persistent entries cannot have expiration windows")
    else pure (⊤, 0)
  else do
    let ttl ← duration ttlSeconds c.defaultTtlSeconds "ttl_seconds" false
    let stale ← duration staleSeconds c.defaultStaleSeconds "stale_seconds" true
    pure (((ttl : ℚ) : Deadline), stale)

def preparePut (key : Key) (value : V) (ttlSeconds staleSeconds : Option ℤ) (tags : List Tag)
    (persistent countRejection : Bool) : EngineM V (PreparedPut V) := do
  validateKey key
  let windows ← putWindows c ttlSeconds staleSeconds persistent
  let normalized ← normalizeTags tags
  let storedValue ← snapshotValue c value
  let sizeBytes ← entrySize c key storedValue normalized.dedup
  if c.maxEntryBytes < sizeBytes then do
    modify (countIf countRejection .rejectedEntries)
    throw (valueError ("entry requires " ++ toString sizeBytes ++ " bytes; maximum is " ++
      toString c.maxEntryBytes))
  else if c.maxMemoryBytes < sizeBytes then do
    modify (countIf countRejection .rejectedEntries)
    throw (valueError "entry exceeds total cache memory limit")
  else pure ⟨storedValue, windows.1, windows.2, normalized.dedup, sizeBytes⟩

/-- The lease check of a guarded write. -/
def checkLease (key : Key) (leaseToken : Option String) (now : ℚ) : EngineM V Unit :=
  match leaseToken with
  | none => pure ()
  | some token => do
    let s ← get
    match s.leases.get? key with
    | none => throw (valueError "lease is missing or expired")
    | some lease =>
      if lease.untilTime ≤ now then do
        modify (removeLease key)
        throw (valueError "lease is missing or expired")
      else do
        let same ← compareDigest lease.token token
        if same then pure () else throw (valueError "lease token does not match")

/-- The bytes reserved by the leases of the other keys. -/
def reservedBytes (key : Key) (s : Engine V) : ℤ :=
  s.leaseBytes - match s.leases.get? key with
    | none => 0
    | some lease => lease.sizeBytes

/-- The entry that a write puts in place of `existing`. -/
def writtenEntry (p : PreparedPut V) (persistent : Bool) (now : ℚ)
    (existing : Option (Entry V)) : Entry V where
  value := p.storedValue
  freshUntil := now + p.ttl
  staleUntil := now + p.ttl + ((p.stale : ℚ) : Deadline)
  tags := p.tags
  sizeBytes := p.sizeBytes
  configuredTtlSeconds := if persistent then none else some p.ttl
  accessCount := (existing.map Entry.accessCount).getD 0
  lastAccess := (existing.map Entry.lastAccess).getD now
  loadCostMs := (existing.map Entry.loadCostMs).getD 0

/-- The part of `put` under the lock. -/
def putLocked (key : Key) (leaseToken : Option String) (persistent : Bool) (p : PreparedPut V)
    (now : ℚ) : EngineM V (CacheResult V) := do
  checkLease key leaseToken now
  let s ← get
  if (c.maxMemoryBytes : ℤ) < p.sizeBytes + reservedBytes key s then do
    modify (bump .rejectedEntries 1)
    throw (valueError "entry exceeds available cache memory")
  else do
    modify (storeEntry key (writtenEntry p persistent now (s.entries.get? key)))
    modify (removeLease key)
    modify (bump .writes 1)
    evictIfNeeded c
    lookup c key false

def put (key : Key) (value : V) (ttlSeconds staleSeconds : Option ℤ) (tags : List Tag)
    (leaseToken : Option String) (persistent : Bool) : EngineM V (CacheResult V) := do
  let p ← preparePut c key value ttlSeconds staleSeconds tags persistent true
  let now ← readClock c
  putLocked c key leaseToken persistent p now

/-- The lease check of `validate_put`, which leaves an expired lease in place. -/
def validateLease (key : Key) (leaseToken : Option String) (now : ℚ) : EngineM V Unit :=
  match leaseToken with
  | none => pure ()
  | some token => do
    let s ← get
    match s.leases.get? key with
    | none => throw (valueError "lease is missing or expired")
    | some lease =>
      if lease.untilTime ≤ now then throw (valueError "lease is missing or expired")
      else do
        let same ← compareDigest lease.token token
        if same then pure () else throw (valueError "lease token does not match")

/-- The checks of `put` without its effects. -/
def validatePut (key : Key) (value : V) (ttlSeconds staleSeconds : Option ℤ) (tags : List Tag)
    (leaseToken : Option String) (persistent : Bool) : EngineM V Unit := do
  let p ← preparePut c key value ttlSeconds staleSeconds tags persistent false
  let now ← readClock c
  validateLease key leaseToken now
  let s ← get
  if (c.maxMemoryBytes : ℤ) < p.sizeBytes + reservedBytes key s then
    throw (valueError "entry exceeds available cache memory")
  else pure ()

def mget (keys : List Key) : EngineM V (List (CacheResult V)) := Prog.collect (getEntry c) keys

/-- The size check that `mset` makes for each pair before it writes any. -/
def msetCheck (item : Key × V) : EngineM V Unit := do
  validateKey item.1
  let sizeBytes ← entrySize c item.1 item.2 []
  if c.maxEntryBytes < sizeBytes ∨ c.maxMemoryBytes < sizeBytes then do
    modify (bump .rejectedEntries 1)
    throw (valueError ("entry requires " ++ toString sizeBytes ++ " bytes; maximum is " ++
      toString (min c.maxEntryBytes c.maxMemoryBytes)))
  else pure ()

def msetWrite (item : Key × V) : EngineM V Unit := do
  let _ ← put c item.1 item.2 none none [] none true
  pure ()

def mset (values : List (Key × V)) : EngineM V Unit := do
  Prog.forEach (msetCheck c) values
  Prog.forEach (msetWrite c) values

/-- The part of `delete` under the lock. -/
def deleteLocked (key : Key) (s : Engine V) : Bool × Engine V :=
  let existed := (s.entries.get? key).isSome
  let s := removeLease key (removeEntry key s)
  (existed, if existed then s.bump .deletes 1 else s)

def delete (key : Key) : EngineM V Bool := do
  validateKey key
  Prog.lift (deleteLocked key)

def deleteMany (keys : List Key) : EngineM V ℕ := do
  let existed ← Prog.collect delete keys
  pure (existed.count true)

def existsCount (keys : List Key) : EngineM V ℕ := do
  let results ← Prog.collect (fun key => lookup c key false) keys
  pure (results.countP fun r => r.state ≠ .miss)

/-- An entry changed in place. -/
def updateEntry (key : Key) (f : Entry V → Entry V) (s : Engine V) : Engine V :=
  match s.entries.get? key with
  | none => s
  | some entry => { s with entries := s.entries.set key (f entry) }

/-- Both deadlines of an entry moved to `deadline`. -/
def expiringEntry (deadline : ℚ) (ttl : ℕ) (entry : Entry V) : Entry V :=
  { entry with
    freshUntil := deadline
    staleUntil := deadline
    configuredTtlSeconds := some ((ttl : ℚ) : Deadline) }

def expire (key : Key) (ttlSeconds : ℤ) : EngineM V Bool := do
  validateKey key
  let ttl ← duration (some ttlSeconds) 0 "ttl_seconds" false
  let r ← lookup c key false
  if r.state = .miss then pure false
  else do
    let now ← readClock c
    modify (updateEntry key (expiringEntry (now + ttl) ttl))
    modify (bump .expirationsSet 1)
    pure true

def ttl (key : Key) : EngineM V ℤ := do
  validateKey key
  let r ← lookup c key false
  if r.state = .miss then pure (-2)
  else do
    let s ← get
    match s.entries.get? key with
    | none => pure (-2)
    | some entry =>
      match entry.freshUntil with
      | none => pure (-1)
      | some deadline => do
        let now ← readClock c
        -- `int` truncates towards zero
        pure (max 0 (if 0 ≤ deadline - now then ⌊deadline - now⌋ else ⌈deadline - now⌉))

def flush : EngineM V ℕ :=
  Prog.lift fun s => (s.entries.size,
    ({ s with
      entries := .empty
      tags := .empty
      leases := .empty
      usedBytes := 0
      leaseBytes := 0 } : Engine V).bump .flushes 1)

def size : EngineM V ℕ := do
  let s ← get
  let _ ← Prog.collect (fun key => lookup c key false) s.entries.keys
  let s ← get
  pure s.entries.size

def keys : EngineM V (List Key) := do
  let now ← readClock c
  modify (purgeExpiredEntries now)
  let s ← get
  pure s.entries.keys

/-- `sorted(tags)`. -/
def sortedTags (tags : List Tag) : List Tag := tags.insertionSort (· ≤ ·)

/-- The portable form of a live entry at time `now`. -/
def exportedEntry (now : ℚ) (key : Key) (entry : Entry V) : StorageEntry V where
  key := key
  value := entry.value
  freshForSeconds := match entry.freshUntil with
    | none => none
    | some f => some (max 0 (f - now))
  staleForSeconds := match entry.freshUntil, entry.staleUntil with
    | none, _ => none
    | some f, some t => some (max 0 (t - max now f))
    | some _, none => none
  tags := sortedTags entry.tags
  persistent := entry.freshUntil = ⊤

/-- One round of the loop of `export_entries`. -/
def exportOne (now : ℚ) (key : Key) (s : Engine V) : Option (StorageEntry V) × Engine V :=
  match s.entries.get? key with
  | none => (none, s)
  | some entry =>
    if entry.staleUntil ≤ (now : Deadline) then (none, removeEntry key s)
    else (some (exportedEntry now key entry), s)

def exportEntries (keys : Option (List Key)) : EngineM V (List (StorageEntry V)) := do
  let now ← readClock c
  let s ← get
  let exported ← Prog.collect (fun key => Prog.lift (exportOne now key))
    (keys.getD s.entries.keys)
  pure (exported.filterMap id)

/-! ## Restoring entries -/

structure PreparedRestore (V : Type) where
  key : Key
  value : V
  tags : List Tag
  sizeBytes : ℕ
  /-- `none` for a persistent entry. -/
  windows : Option (ℚ × ℚ)

/-- The windows of a portable entry, `none` for a persistent one. -/
def restoreWindows (item : StorageEntry V) : EngineM V (Option (ℚ × ℚ)) :=
  if item.persistent then pure none
  else do
    let freshFor ← snapshotDuration item.freshForSeconds "fresh_for_seconds"
    let staleFor ← snapshotDuration item.staleForSeconds "stale_for_seconds"
    pure (some (freshFor, staleFor))

/-- Whether no window is left. -/
def windowsSpent (windows : Option (ℚ × ℚ)) : Bool :=
  match windows with
  | none => false
  | some w => w.1 + w.2 ≤ 0

/-- One entry of `_prepare_restore_entries`; an entry without a window left is skipped. -/
def prepareRestoreOne (item : StorageEntry V) : EngineM V (Option (PreparedRestore V)) := do
  let normalized ← normalizeTags item.tags
  let value ← snapshotValue c item.value
  let windows ← restoreWindows item
  if windowsSpent windows then pure none
  else do
    let sizeBytes ← entrySize c item.key value normalized.dedup
    if c.maxEntryBytes < sizeBytes ∨ c.maxMemoryBytes < sizeBytes then
      throw (valueError "snapshot entry exceeds configured limits")
    else pure (some ⟨item.key, value, normalized.dedup, sizeBytes, windows⟩)

def prepareRestoreEntries (entries : List (StorageEntry V)) :
    EngineM V (List (PreparedRestore V)) := do
  Prog.forEach (fun item => validateKey item.key) entries
  if ¬(entries.map StorageEntry.key).Nodup then
    throw (valueError "snapshot contains duplicate keys")
  else do
    let prepared ← Prog.collect (prepareRestoreOne c) entries
    pure (prepared.filterMap id)

/-- `_validate_prepared_restore_capacity`. -/
def validatePreparedRestoreCapacity (prepared : List (PreparedRestore V)) : EngineM V Unit := do
  let s ← get
  let replaced := prepared.filterMap fun p => s.entries.get? p.key
  let finalCount : ℤ := s.entries.size - replaced.length + prepared.length
  let finalBytes : ℤ := s.usedBytes - (replaced.map fun e => (e.sizeBytes : ℤ)).sum +
    (prepared.map fun p => (p.sizeBytes : ℤ)).sum
  if (c.maxEntries : ℤ) < finalCount ∨ (c.maxMemoryBytes : ℤ) < finalBytes then
    throw (valueError "snapshot exceeds available cache capacity")
  else pure ()

/-- The entry restored from a prepared one at time `now`. -/
def restoredEntry (now : ℚ) (p : PreparedRestore V) : Entry V where
  value := p.value
  freshUntil := match p.windows with
    | none => ⊤
    | some w => ((now + w.1 : ℚ) : Deadline)
  staleUntil := match p.windows with
    | none => ⊤
    | some w => ((now + w.1 + w.2 : ℚ) : Deadline)
  tags := p.tags
  sizeBytes := p.sizeBytes
  configuredTtlSeconds := p.windows.map fun w => ((w.1 : ℚ) : Deadline)
  accessCount := 0
  lastAccess := now
  loadCostMs := 0

def restoreEntries (entries : List (StorageEntry V)) : EngineM V ℕ := do
  let prepared ← prepareRestoreEntries c entries
  let purgeTime ← readClock c
  modify (purgeExpiredEntries purgeTime)
  validatePreparedRestoreCapacity c prepared
  let now ← readClock c
  modify fun s => prepared.foldl (fun s p => storeEntry p.key (restoredEntry now p) s) s
  pure prepared.length

def validateRestoreEntries (entries : List (StorageEntry V)) : EngineM V Unit := do
  let prepared ← prepareRestoreEntries c entries
  let purgeTime ← readClock c
  modify (purgeExpiredEntries purgeTime)
  validatePreparedRestoreCapacity c prepared

/-! ## Journals and checkpoints -/

/-- The key directly before `key`, or the last key when `key` is absent. -/
def predecessorOf (key : Key) (keys : List Key) : Option Key :=
  (keys.takeWhile (· ≠ key)).getLast?

def beginMutationCheckpoint (key : Key) : EngineM V ℕ := do
  validateKey key
  let s ← get
  match s.activeMutation with
  | some _ => throw ⟨.runtimeError, "a cache mutation checkpoint is already active"⟩
  | none => do
    modify fun s => { s with
      journals := s.journals + 1
      activeMutation := some {
        handle := s.journals
        key := key
        entry := s.entries.get? key
        predecessor := predecessorOf key s.entries.keys
        lease := s.leases.get? key
        usedBytes := s.usedBytes
        leaseBytes := s.leaseBytes
        metrics := s.metrics
        evictedEntries := [] } }
    pure s.journals

/-- `_validate_active_mutation`. -/
def validateActiveMutation (handle : ℕ) : EngineM V (MutationCheckpoint V) := do
  let s ← get
  match s.activeMutation with
  | none => throw (valueError "invalid cache mutation checkpoint")
  | some j =>
    if j.handle = handle then pure j
    else throw (valueError "invalid cache mutation checkpoint")

def commitMutationCheckpoint (handle : ℕ) : EngineM V Unit := do
  let _ ← validateActiveMutation handle
  modify fun s => { s with activeMutation := none }

/-- An evicted entry put back before all others. -/
def restoreEvicted (p : Key × Entry V) (s : Engine V) : Engine V :=
  let s := removeEntry p.1 s
  { s with
    entries := s.entries.setFirst p.1 p.2
    tags := addTags p.1 p.2.tags s.tags }

/-- The journaled key put back behind its predecessor. -/
def restoreJournaled (j : MutationCheckpoint V) (s : Engine V) : Engine V :=
  match j.entry with
  | none => s
  | some entry =>
    { s with
      entries := match j.predecessor with
        | none => s.entries.setFirst j.key entry
        | some a => s.entries.setAfter a j.key entry
      tags := addTags j.key entry.tags s.tags }

/-- The body of `restore_mutation_checkpoint`. -/
def rollback (j : MutationCheckpoint V) (s : Engine V) : Engine V :=
  let s := removeLease j.key (removeEntry j.key { s with activeMutation := none })
  let s := j.evictedEntries.reverse.foldl (fun s p => restoreEvicted p s) s
  let s := restoreJournaled j s
  { s with
    leases := match j.lease with
      | none => s.leases
      | some lease => s.leases.set j.key lease
    usedBytes := j.usedBytes
    leaseBytes := j.leaseBytes
    metrics := j.metrics }

def restoreMutationCheckpoint (handle : ℕ) : EngineM V Unit := do
  let j ← validateActiveMutation handle
  modify (rollback j)

def checkpoint : EngineM V (EngineCheckpoint V) := do
  let s ← get
  pure ⟨s.entries, s.usedBytes, s.leaseBytes, s.tags, s.leases, s.metrics⟩

def restoreCheckpoint (p : EngineCheckpoint V) : EngineM V Unit :=
  modify fun s => { s with
    entries := p.entries
    usedBytes := p.usedBytes
    leaseBytes := p.leaseBytes
    tags := p.tags
    leases := p.leases
    metrics := p.metrics }

/-! ## Tags and leases -/

/-- The bucket of a tag. -/
def bucket (s : Engine V) (tag : Tag) : Finset Key := (s.tags.get? tag).getD ∅

/-- The keys indexed under one of the tags, of those with an entry or a lease:
for any other key the loop of `invalidate_tags` does nothing. -/
def taggedKeys (tags : List Tag) (s : Engine V) : List Key :=
  (s.entries.keys ++ s.leases.keys).dedup.filter fun key => tags.any fun tag => key ∈ s.bucket tag

/-- The part of `invalidate_tags` under the lock. -/
def invalidateLocked (tags : List Tag) (s : Engine V) : ℕ × Engine V :=
  let selected := taggedKeys tags s
  let removed := selected.countP fun key => (s.entries.get? key).isSome
  let s := selected.foldl (fun s key => removeLease key (removeEntry key s)) s
  (removed, s.bump .invalidations removed)

def invalidateTags (tags : List Tag) : EngineM V ℕ := do
  let normalized ← normalizeTags tags
  Prog.lift (invalidateLocked normalized)

/-- The part of `acquire_lease` under the lock. -/
def acquireLocked (key : Key) (force : Bool) (now : ℚ) : EngineM V (CacheResult V) := do
  modify (purgeExpiredLeases now)
  let cached ← lookup c key true
  if cached.state = .fresh ∧ ¬force then pure cached
  else do
    let s ← get
    match (s.leases.get? key).filter fun lease => now < lease.untilTime with
    | some lease => do
      modify (bump .coalesced 1)
      if cached.state = .stale then pure cached
      else pure ⟨.loading, none, 0, 0, none, max 0 (lease.untilTime - now)⟩
    | none => do
      let token ← drawToken c
      let sizeBytes := key.utf8ByteSize + token.utf8ByteSize + 64
      if c.maxEntries ≤ s.leases.size ∨ (c.maxMemoryBytes : ℤ) < s.usedBytes + sizeBytes then do
        modify (bump .rejectedLeases 1)
        throw (valueError "lease capacity exhausted")
      else do
        modify fun s => { s with
          leases := s.leases.set key ⟨token, now + c.leaseSeconds, sizeBytes⟩
          usedBytes := s.usedBytes + sizeBytes
          leaseBytes := s.leaseBytes + sizeBytes }
        modify (bump .leases 1)
        let expiresIn : Deadline := ((c.leaseSeconds : ℚ) : Deadline)
        if cached.state = .stale then
          pure ⟨.staleLease, cached.value, expiresIn, cached.staleForSeconds, some token, 0⟩
        else pure ⟨.lease, none, expiresIn, 0, some token, 0⟩

def acquireLease (key : Key) (force : Bool) : EngineM V (CacheResult V) := do
  validateKey key
  let now ← readClock c
  acquireLocked c key force now

/-- The part of `release_lease` under the lock. -/
def releaseLocked (key : Key) (leaseToken : String) : EngineM V Bool := do
  let s ← get
  match s.leases.get? key with
  | none => pure false
  | some lease => do
    let same ← compareDigest lease.token leaseToken
    if same then do
      modify (removeLease key)
      pure true
    else pure false

def releaseLease (key : Key) (leaseToken : String) : EngineM V Bool := do
  validateKey key
  releaseLocked key leaseToken

/-- The part of `renew_lease` under the lock. -/
def renewLocked (key : Key) (leaseToken : String) (now : ℚ) : EngineM V Bool := do
  let s ← get
  match s.leases.get? key with
  | none => pure false
  | some lease =>
    if lease.untilTime ≤ now then do
      modify (removeLease key)
      pure false
    else do
      let same ← compareDigest lease.token leaseToken
      if same then do
        modify fun s =>
          { s with leases := s.leases.set key ⟨lease.token, now + c.leaseSeconds, lease.sizeBytes⟩ }
        modify (bump .leaseRenewals 1)
        pure true
      else pure false

def renewLease (key : Key) (leaseToken : String) : EngineM V Bool := do
  validateKey key
  let now ← readClock c
  renewLocked c key leaseToken now

/-! ## Loading and statistics -/

/-- `get_or_load` of a caller that finds no flight registered for the key; the
loader's outcome is `loaded`. -/
def getOrLoad (key : Key) (loaded : Except PyError V) (ttlSeconds staleSeconds : Option ℤ)
    (tags : List Tag) : EngineM V (CacheResult V) := do
  validateKey key
  let cached ← lookup c key true
  if cached.state ≠ .miss then pure cached
  else
    tryCatch
      (match loaded with
        | .error e => throw e
        | .ok value => put c key value ttlSeconds staleSeconds tags none false)
      fun e => do
        modify (bump .loadErrors 1)
        throw e

/-- The figures of `stats` that depend on the stored data. -/
structure Stats where
  metrics : OrderedDict Metric ℕ
  entries : ℕ
  memoryBytes : ℤ
  leaseMemoryBytes : ℤ
  tags : ℕ
  activeLeases : ℕ

def stats : EngineM V Stats := do
  let now ← readClock c
  modify (purgeExpiredLeases now)
  let s ← get
  let entries ← size c
  let s' ← get
  let live ← Prog.collect (fun lease : Lease => do
    let now ← readClock c
    pure (decide (now < lease.untilTime))) (s'.leases.toList.map Prod.snd)
  pure ⟨s.metrics, entries, s'.usedBytes, s'.leaseBytes, s'.tags.size, live.count true⟩

/-- `record_load_cost` for a valid duration: an exponentially weighted mean. -/
def recordLoadCost (key : Key) (durationMs : ℚ) : EngineM V Unit :=
  if durationMs < 0 then
    throw (valueError "duration_ms must be a finite non-negative number")
  else
    modify (updateEntry key fun entry =>
      { entry with loadCostMs :=
          if entry.loadCostMs = 0 then min durationMs 3600000
          else entry.loadCostMs * (4 / 5) + min durationMs 3600000 * (1 / 5) })

end Engine
end MegaCache
