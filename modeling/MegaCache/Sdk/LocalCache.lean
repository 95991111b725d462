import MegaCache.Engine.Types

/-!
# The local cache of the Python client

`LocalCache` of `client.py`: a bounded LRU map from keys to values with a fresh and a
stale deadline.  The readings of `time.monotonic` are arguments.
-/

namespace MegaCache.Sdk

/-- The states of a `CachedValue`. -/
inductive CachedState
  | fresh
  | stale
  | loaded
  | staleIfError
deriving DecidableEq, Repr

structure CachedValue (V : Type) where
  value : V
  state : CachedState
  staleDeadline : Option ℚ
deriving DecidableEq, Repr

structure LocalEntry (V : Type) where
  value : V
  freshUntil : ℚ
  staleUntil : ℚ
  sizeBytes : ℕ
deriving DecidableEq, Repr

structure LocalCache (V : Type) where
  entries : OrderedDict Key (LocalEntry V)
  usedBytes : ℤ
deriving DecidableEq, Repr

/-- The limits of a local cache, with `len` of a value. -/
structure LocalLimits (V : Type) where
  maxEntries : ℕ
  maxMemoryBytes : ℕ
  len : V → ℕ
  positive : 0 < maxEntries ∧ 0 < maxMemoryBytes

namespace LocalCache

variable {V : Type}

def init : LocalCache V := ⟨.empty, 0⟩

/-- `_remove`. -/
def remove (key : Key) (l : LocalCache V) : LocalCache V :=
  match l.entries.get? key with
  | none => l
  | some entry => ⟨l.entries.erase key, l.usedBytes - entry.sizeBytes⟩

def clear (_ : LocalCache V) : LocalCache V := ⟨.empty, 0⟩

def get (now : ℚ) (key : Key) (l : LocalCache V) : Option (CachedValue V) × LocalCache V :=
  match l.entries.get? key with
  | none => (none, l)
  | some entry =>
    if entry.staleUntil ≤ now then (none, l.remove key)
    else
      (some ⟨entry.value, if now < entry.freshUntil then .fresh else .stale, some entry.staleUntil⟩,
        { l with entries := l.entries.moveToEnd key })

/-- The `while` loop of `put`, one oldest entry a round.  It never empties the map: the
entry just written fits alone. -/
def evict (c : LocalLimits V) : ℕ → LocalCache V → LocalCache V
  | 0, l => l
  | n + 1, l =>
    if c.maxEntries < l.entries.size ∨ (c.maxMemoryBytes : ℤ) < l.usedBytes then
      match l.entries.keys.head? with
      | none => l
      | some oldest => evict c n (l.remove oldest)
    else l

/-- The part of `put` under the lock. -/
def store (c : LocalLimits V) (key : Key) (entry : LocalEntry V) (l : LocalCache V) :
    LocalCache V :=
  let l := l.remove key
  let l : LocalCache V := ⟨l.entries.set key entry, l.usedBytes + entry.sizeBytes⟩
  l.evict c l.entries.size

def put (c : LocalLimits V) (key : Key) (value : V) (ttlSeconds staleSeconds now : ℚ) :
    Prog (LocalCache V) PyError Bool :=
  if ttlSeconds < 0 ∨ staleSeconds < 0 ∨ ttlSeconds + staleSeconds ≤ 0 then
    throw (valueError "invalid L1 freshness policy")
  else if c.maxMemoryBytes < key.utf8ByteSize + c.len value then pure false
  else do
    modify (store c key
      ⟨value, now + ttlSeconds, now + ttlSeconds + staleSeconds, key.utf8ByteSize + c.len value⟩)
    pure true

/-! ## What a call leaves -/

variable {c : LocalLimits V} {key k : Key} {l : LocalCache V} {entry e : LocalEntry V}

theorem get?_of_remove (h : (l.remove key).entries.get? k = some e) : l.entries.get? k = some e := by
  unfold remove at h
  split at h
  · exact h
  · rw [OrderedDict.get?_erase] at h
    split_ifs at h
    exact h

theorem get?_of_get {now : ℚ} (h : (l.get now key).2.entries.get? k = some e) :
    l.entries.get? k = some e := by
  unfold get at h
  split at h
  · exact h
  · split at h
    · exact get?_of_remove h
    · rwa [OrderedDict.get?_moveToEnd] at h

theorem get?_of_evict {n : ℕ} (h : (l.evict c n).entries.get? k = some e) :
    l.entries.get? k = some e := by
  induction n generalizing l with
  | zero => exact h
  | succ n ih =>
    unfold evict at h
    split at h
    · split at h
      · exact h
      · exact get?_of_remove (ih h)
    · exact h

theorem get?_of_store (h : (l.store c key entry).entries.get? k = some e) :
    k = key ∧ e = entry ∨ k ≠ key ∧ l.entries.get? k = some e := by
  have hset : ((l.remove key).entries.set key entry).get? k = some e :=
    get?_of_evict (l := ⟨(l.remove key).entries.set key entry, _⟩) h
  rw [OrderedDict.get?_set] at hset
  split_ifs at hset with hk
  · exact .inl ⟨hk, (Option.some.inj hset).symm⟩
  · exact .inr ⟨hk, get?_of_remove hset⟩

/-- A hit, and what it shows of its entry. -/
theorem get_eq_some {now : ℚ} {r : CachedValue V} (h : (l.get now key).1 = some r) :
    ∃ e, l.entries.get? key = some e ∧ now < e.staleUntil ∧ r.staleDeadline = some e.staleUntil ∧
      r.state = if now < e.freshUntil then .fresh else .stale := by
  unfold get at h
  split at h
  · cases h
  · rename_i e he
    split_ifs at h with hle hfresh
    · obtain rfl := Option.some.inj h
      exact ⟨e, he, not_le.mp hle, rfl, (if_pos hfresh).symm⟩
    · obtain rfl := Option.some.inj h
      exact ⟨e, he, not_le.mp hle, rfl, (if_neg hfresh).symm⟩

/-- Whether the cache holds an entry for the key. -/
def Holds (l : LocalCache V) (key : Key) : Prop := l.entries.get? key ≠ none

theorem holds_iff : l.Holds k ↔ ∃ e, l.entries.get? k = some e := Option.ne_none_iff_exists'

theorem not_holds_clear : ¬(clear l).Holds k := by simp [Holds, clear]

theorem not_holds_init : ¬(init : LocalCache V).Holds k := by simp [Holds, init]

theorem holds_of_get {now : ℚ} (h : (l.get now key).2.Holds k) : l.Holds k := by
  obtain ⟨e, he⟩ := holds_iff.mp h
  exact holds_iff.mpr ⟨e, get?_of_get he⟩

/-- A hit comes from an entry. -/
theorem get_some {now : ℚ} {r : CachedValue V} (h : (l.get now key).1 = some r) : l.Holds key := by
  obtain ⟨e, he, -⟩ := get_eq_some h
  exact holds_iff.mpr ⟨e, he⟩

theorem holds_of_store (h : (l.store c key entry).Holds k) : k = key ∨ l.Holds k := by
  obtain ⟨e, he⟩ := holds_iff.mp h
  rcases get?_of_store he with ⟨hk, -⟩ | ⟨-, hold⟩
  · exact .inl hk
  · exact .inr (holds_iff.mpr ⟨e, hold⟩)

/-- A write leaves the cache alone, or stores an entry with deadlines counted from `now`. -/
theorem put_eq (c : LocalLimits V) (key : Key) (value : V) (ttlSeconds staleSeconds now : ℚ)
    (l : LocalCache V) :
    (∃ r, put c key value ttlSeconds staleSeconds now l = (r, l) ∧ r ≠ .ok true) ∨
    put c key value ttlSeconds staleSeconds now l = (.ok true, l.store c key
      ⟨value, now + ttlSeconds, now + ttlSeconds + staleSeconds, key.utf8ByteSize + c.len value⟩) := by
  unfold put
  split_ifs
  · exact .inl ⟨_, rfl, by simp⟩
  · exact .inl ⟨_, rfl, by simp⟩
  · exact .inr rfl

/-- A write leaves the cache alone, or holds no key besides its own that was not held before. -/
theorem put_cases (c : LocalLimits V) (key : Key) (value : V) (ttlSeconds staleSeconds now : ℚ)
    (l : LocalCache V) :
    (∃ r, put c key value ttlSeconds staleSeconds now l = (r, l) ∧ r ≠ .ok true) ∨
    ∃ l', put c key value ttlSeconds staleSeconds now l = (.ok true, l') ∧
      ∀ k, l'.Holds k → k = key ∨ l.Holds k := by
  rcases put_eq c key value ttlSeconds staleSeconds now l with h | h
  · exact .inl h
  · exact .inr ⟨_, h, fun k hk => holds_of_store hk⟩

end LocalCache
end MegaCache.Sdk
