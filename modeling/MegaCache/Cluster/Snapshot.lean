import MegaCache.Cluster.Types

/-!
# Snapshots on the wire

A snapshot is a list of records, one line of JSON each, cut into chunks of a fixed
size.  The sender hands out the chunks one by one and waits for acknowledgements,
the receiver checks every chunk and decodes the records from the whole payload.
The main result of the module is that whatever a receiver decodes from the chunks
of a session is what the session was made from.
-/

namespace MegaCache

structure SnapshotChunk where
  snapshotId : String
  index : ℤ
  payload : List UInt8
  checksum : String
deriving DecidableEq

structure SnapshotManifest where
  snapshotId : String
  sourceNodeId : NodeId
  ringVersion : ℕ
  fence : FenceToken
  chunkCount : ℕ
  entryCount : ℕ
  totalBytes : ℕ
  checksum : String
deriving DecidableEq

structure SnapshotSession where
  manifest : SnapshotManifest
  chunks : List SnapshotChunk
  maxInFlight : ℕ
  nextIndex : ℕ
  outstanding : Finset ℤ
deriving DecidableEq

namespace SnapshotSession

def nextChunk (session : SnapshotSession) :
    Except PyError (Option SnapshotChunk × SnapshotSession) :=
  if session.maxInFlight ≤ session.outstanding.card then
    .error ⟨.snapshotBackpressure, "snapshot sender is waiting for chunk acknowledgements"⟩
  else
    match session.chunks[session.nextIndex]? with
    | none => .ok (none, session)
    | some chunk => .ok (some chunk, { session with
        nextIndex := session.nextIndex + 1
        outstanding := insert chunk.index session.outstanding })

def acknowledge (index : ℤ) (session : SnapshotSession) : Except PyError SnapshotSession :=
  if index ∈ session.outstanding then
    .ok { session with outstanding := session.outstanding.erase index }
  else .error (snapshotError "unknown or duplicate chunk acknowledgement")

end SnapshotSession

structure SnapshotReceiver where
  manifest : SnapshotManifest
  maxPayloadBytes : ℕ
  chunks : OrderedDict ℤ (List UInt8)
  receivedBytes : ℕ

/-- What a transfer needs to know: the limits, the digest and the codec of records. -/
structure SnapshotConfig (V : Type) where
  payloadLimit : ℕ
  chunkBytes : ℕ
  maxInFlight : ℕ
  hexdigest : List UInt8 → String
  encode : SnapshotRecord V → Option (List UInt8)
  decode : List UInt8 → Option (SnapshotRecord V)

/-- The transfers of a cluster. -/
def ClusterConfig.snapshot {V : Type} (c : ClusterConfig V) : SnapshotConfig V where
  payloadLimit := c.snapshotPayloadLimit
  chunkBytes := c.snapshotChunkBytes
  maxInFlight := c.snapshotMaxInFlight
  hexdigest := c.hexdigest
  encode := c.wire.encode
  decode := c.wire.decode

section

variable {V : Type} (c : SnapshotConfig V)

/-- `payload.splitlines()` without the empty lines. -/
def splitLines (payload : List UInt8) : List (List UInt8) :=
  (payload.splitOnP fun b => b = 10 || b = 13).filter (· ≠ [])

/-- The pieces `payload[i : i + size]` for `i` in `range(0, len(payload), size)`. -/
def cutChunks (size : ℕ) (payload : List UInt8) : List (List UInt8) :=
  (List.range ((payload.length + size - 1) / size)).map fun i => (payload.drop (i * size)).take size

/-- A decoded record, or the error of a malformed line. -/
def decodeRecord (line : List UInt8) : Except PyError (SnapshotRecord V) :=
  match c.decode line with
  | none => .error (snapshotError "snapshot record is malformed")
  | some record => .ok record

def encodeRecord (record : SnapshotRecord V) : Except PyError (List UInt8) :=
  match c.encode record with
  | none => .error (snapshotError "snapshot value is not serializable")
  | some line => .ok line

namespace SnapshotReceiver

/-- `receive`; the bytes of a chunk are counted before the limits are checked. -/
def receive (chunk : SnapshotChunk) : Prog SnapshotReceiver PyError Unit := do
  let r ← get
  if chunk.snapshotId ≠ r.manifest.snapshotId then
    throw (snapshotError "snapshot identifier does not match manifest")
  else if chunk.index < 0 ∨ (r.manifest.chunkCount : ℤ) ≤ chunk.index then
    throw (snapshotError "snapshot chunk index is out of range")
  else if (r.chunks.get? chunk.index).isSome then
    throw (snapshotError "duplicate snapshot chunk")
  else if c.hexdigest chunk.payload ≠ chunk.checksum then
    throw (snapshotError "snapshot chunk checksum mismatch")
  else do
    modify fun r => { r with receivedBytes := r.receivedBytes + chunk.payload.length }
    let r ← get
    if r.maxPayloadBytes < r.receivedBytes ∨ r.manifest.totalBytes < r.receivedBytes then
      throw (snapshotError "snapshot exceeds configured payload limit")
    else modify fun r => { r with chunks := r.chunks.set chunk.index chunk.payload }

/-- The chunks put together in the order of their indexes. -/
def payload (r : SnapshotReceiver) : List UInt8 :=
  (List.range r.manifest.chunkCount).flatMap fun i : ℕ => (r.chunks.get? (i : ℤ)).getD []

def records (r : SnapshotReceiver) : Except PyError (List (SnapshotRecord V)) :=
  if r.chunks.size ≠ r.manifest.chunkCount then .error (snapshotError "snapshot is incomplete")
  else if r.payload.length ≠ r.manifest.totalBytes then
    .error (snapshotError "snapshot byte count mismatch")
  else if c.hexdigest r.payload ≠ r.manifest.checksum then
    .error (snapshotError "snapshot checksum mismatch")
  else do
    let records ← (splitLines r.payload).mapM (decodeRecord c)
    if records.length ≠ r.manifest.entryCount then
      .error (snapshotError "snapshot entry count mismatch")
    else .ok records

end SnapshotReceiver

/-- The loop of `_bootstrap_locked` that drains a session into a receiver.  A session
has no more chunks than its length, which bounds the rounds. -/
def drainSession : ℕ → SnapshotSession → Prog SnapshotReceiver PyError Unit
  | 0, _ => pure ()
  | n + 1, session => do
    let (chunk, session) ← Prog.fromExcept session.nextChunk
    match chunk with
    | none => pure ()
    | some chunk => do
      SnapshotReceiver.receive c chunk
      let session ← Prog.fromExcept (session.acknowledge chunk.index)
      drainSession n session

/-- The receiver of `_bootstrap_locked`, before any chunk. -/
def newReceiver (session : SnapshotSession) : SnapshotReceiver :=
  ⟨session.manifest, c.payloadLimit, .empty, 0⟩

/-- The records a receiver gets from a session. -/
def receiveRecords (session : SnapshotSession) : Except PyError (List (SnapshotRecord V)) :=
  match drainSession c (session.chunks.length + 1) session (newReceiver c session) with
  | (.error e, _) => .error e
  | (.ok (), r) => r.records c

/-- `_snapshot_session_locked`. -/
def buildSession (ringVersion : ℕ) (fence : FenceToken) (sourceNodeId : NodeId)
    (records : List (SnapshotRecord V)) : Except PyError SnapshotSession := do
  let lines ← records.mapM (encodeRecord c)
  let payload := lines.flatMap (· ++ [10])
  if c.payloadLimit < payload.length then
    .error (snapshotError "snapshot exceeds configured payload limit")
  else
    let snapshotId := c.hexdigest
      (sourceNodeId.toUTF8.toList ++ (toString ringVersion).toUTF8.toList ++ payload)
    let pieces := cutChunks c.chunkBytes payload
    .ok {
      manifest := {
        snapshotId := snapshotId
        sourceNodeId := sourceNodeId
        ringVersion := ringVersion
        fence := fence
        chunkCount := pieces.length
        entryCount := records.length
        totalBytes := payload.length
        checksum := c.hexdigest payload }
      chunks := pieces.mapIdx fun i piece => ⟨snapshotId, i, piece, c.hexdigest piece⟩
      maxInFlight := c.maxInFlight
      nextIndex := 0
      outstanding := ∅ }

/-! ## What is decoded is what was sent -/

theorem cutChunks_flatten {size : ℕ} (hsize : 0 < size) (payload : List UInt8) :
    (cutChunks size payload).flatten = payload := by
  have hinitial : ∀ m, ((List.range m).map fun i => (payload.drop (i * size)).take size).flatten =
      payload.take (m * size) := by
    intro m
    induction m with
    | zero => simp
    | succ m ih =>
      rw [List.range_succ, List.map_append, List.flatten_append, ih, Nat.succ_mul, List.take_add]
      simp
  have hlen : payload.length ≤ (payload.length + size - 1) / size * size := by
    have hdiv := Nat.div_add_mod (payload.length + size - 1) size
    have hmod := Nat.mod_lt (payload.length + size - 1) hsize
    rw [Nat.mul_comm ((payload.length + size - 1) / size) size]
    omega
  rw [cutChunks, hinitial, List.take_of_length_le hlen]

theorem splitLines_lines {lines : List (List UInt8)}
    (h : ∀ l ∈ lines, l ≠ [] ∧ 10 ∉ l ∧ 13 ∉ l) :
    splitLines (lines.flatMap (· ++ [10])) = lines := by
  induction lines with
  | nil => rfl
  | cons l rest ih =>
    obtain ⟨hne, h10, h13⟩ := h l List.mem_cons_self
    have hl : ∀ b ∈ l, (decide (b = 10) || decide (b = 13)) = false := by
      intro b hb
      have h₁ : b ≠ 10 := ne_of_mem_of_not_mem hb h10
      have h₂ : b ≠ 13 := ne_of_mem_of_not_mem hb h13
      simp [h₁, h₂]
    have ih := ih fun l' hl' => h l' (List.mem_cons_of_mem l hl')
    unfold splitLines at ih ⊢
    rw [List.flatMap_cons, List.append_assoc, List.singleton_append,
      List.splitOnP_append_cons_of_forall_mem hl 10 (by decide), List.filter_cons, ih]
    simp [hne]

theorem except_bind_ok {ε α β : Type} {x : Except ε α} {f : α → Except ε β} {b : β} :
    (x >>= f) = .ok b ↔ ∃ a, x = .ok a ∧ f a = .ok b := by
  cases x <;> simp [bind, Except.bind]

variable {c}

/-- What a transfer relies on: an encoded record is one line and decodes to the record
with its entry under the record's key. -/
def SnapshotConfig.RoundTrips (c : SnapshotConfig V) (record : SnapshotRecord V) : Prop :=
  ∀ line, c.encode record = some line →
    c.decode line = some record.rekeyed ∧ line ≠ [] ∧ 10 ∉ line ∧ 13 ∉ line

theorem ClusterConfig.roundTrips (c : ClusterConfig V) (record : SnapshotRecord V) :
    c.snapshot.RoundTrips record := by
  intro line h
  exact ⟨c.wire.decode_encode h, c.wire.encode_line h⟩

theorem encodeRecord_ok {record : SnapshotRecord V} {line : List UInt8}
    (hc : c.RoundTrips record) (h : encodeRecord c record = .ok line) :
    decodeRecord c line = .ok record.rekeyed ∧ line ≠ [] ∧ 10 ∉ line ∧ 13 ∉ line := by
  unfold encodeRecord at h
  split at h
  · cases h
  · rename_i l hl
    obtain rfl : l = line := by simpa using h
    obtain ⟨hdecode, hline⟩ := hc l hl
    refine ⟨?_, hline⟩
    unfold decodeRecord
    rw [hdecode]

/-- Lines that were encoded from records decode to these records, rekeyed. -/
theorem decode_lines {records : List (SnapshotRecord V)} {lines : List (List UInt8)}
    (hc : ∀ record ∈ records, c.RoundTrips record)
    (h : records.mapM (encodeRecord c) = .ok lines) :
    lines.mapM (decodeRecord c) = .ok (records.map SnapshotRecord.rekeyed) ∧ ∀ l ∈ lines, l ≠ [] ∧ 10 ∉ l ∧ 13 ∉ l := by
  induction records generalizing lines with
  | nil =>
    obtain rfl : lines = [] := by simpa [pure, Except.pure, eq_comm] using h
    simp [pure, Except.pure]
  | cons r rest ih =>
    rw [List.mapM_cons, except_bind_ok] at h
    obtain ⟨l, hl, h⟩ := h
    rw [except_bind_ok] at h
    obtain ⟨ls, hls, h⟩ := h
    obtain rfl : l :: ls = lines := by simpa [pure, Except.pure] using h
    obtain ⟨hdec, hline⟩ := encodeRecord_ok (hc r List.mem_cons_self) hl
    obtain ⟨hrest, hlines⟩ := ih (fun q hq => hc q (List.mem_cons_of_mem r hq)) hls
    refine ⟨?_, ?_⟩
    · rw [List.mapM_cons, hdec, hrest]
      rfl
    · intro l' hl'
      rcases List.mem_cons.mp hl' with rfl | hl'
      · exact hline
      · exact hlines l' hl'

/-- Where `receive` accepts a chunk it keeps its payload. -/
theorem SnapshotReceiver.receive_ok {chunk : SnapshotChunk} {r r' : SnapshotReceiver}
    (h : receive c chunk r = (.ok (), r')) :
    r' = { r with
      receivedBytes := r.receivedBytes + chunk.payload.length
      chunks := r.chunks.set chunk.index chunk.payload } := by
  unfold receive at h
  simp only [Prog.run_bind, Prog.run_get] at h
  split_ifs at h <;> simp_all [Prog.run_bind]
  split_ifs at h
  · simp at h
  · simpa using h.symm

/-- A receiver that got nothing but chunks of `chunks`. -/
def SnapshotReceiver.From (r : SnapshotReceiver) (chunks : List SnapshotChunk) : Prop :=
  ∀ i b, r.chunks.get? i = some b → ∃ chunk ∈ chunks, chunk.index = i ∧ chunk.payload = b

theorem SnapshotReceiver.From.receive {chunk : SnapshotChunk} {r r' : SnapshotReceiver}
    {chunks : List SnapshotChunk} (hr : r.From chunks) (hc : chunk ∈ chunks)
    (h : SnapshotReceiver.receive c chunk r = (.ok (), r')) :
    r'.From chunks ∧ r'.manifest = r.manifest := by
  obtain rfl := receive_ok h
  refine ⟨?_, rfl⟩
  intro i b hb
  rw [OrderedDict.get?_set] at hb
  split_ifs at hb with hi
  · exact ⟨chunk, hc, hi.symm, Option.some.inj hb⟩
  · exact hr i b hb

theorem drainSession_ok {n : ℕ} {session : SnapshotSession} {r r' : SnapshotReceiver}
    (hr : r.From session.chunks) (h : drainSession c n session r = (.ok (), r')) :
    r'.From session.chunks ∧ r'.manifest = r.manifest := by
  induction n generalizing session r with
  | zero =>
    obtain rfl := (Prod.mk.inj h).2
    exact ⟨hr, rfl⟩
  | succ n ih =>
    unfold drainSession at h
    rw [Prog.bind_eq_ok] at h
    obtain ⟨⟨chunk, next⟩, r₀, hrun, h⟩ := h
    obtain ⟨hnext, rfl⟩ := Prod.mk.inj hrun
    unfold SnapshotSession.nextChunk at hnext
    split_ifs at hnext
    split at hnext
    · obtain ⟨rfl, rfl⟩ := Prod.mk.inj (Except.ok.inj hnext)
      obtain rfl := (Prod.mk.inj h).2
      exact ⟨hr, rfl⟩
    · rename_i got hgot
      obtain ⟨rfl, rfl⟩ := Prod.mk.inj (Except.ok.inj hnext)
      simp only [Prog.bind_eq_ok] at h
      obtain ⟨⟨⟩, r₁, hr₁, session₁, r₂, hrun₁, h⟩ := h
      obtain ⟨hack, rfl⟩ := Prod.mk.inj hrun₁
      unfold SnapshotSession.acknowledge at hack
      split_ifs at hack
      obtain rfl := Except.ok.inj hack
      obtain ⟨hfrom, hman⟩ := hr.receive (List.mem_of_getElem? hgot) hr₁
      obtain ⟨hfrom', hman'⟩ := ih (by exact hfrom) h
      exact ⟨hfrom', hman'.trans hman⟩

/-- As many distinct indexes below `n` as there are numbers below `n` are all of them. -/
theorem OrderedDict.get?_of_size_eq {β : Type} {d : OrderedDict ℤ β} {n : ℕ} (hsize : d.size = n)
    (hlt : ∀ i b, d.get? i = some b → 0 ≤ i ∧ i < n) {i : ℕ} (hi : i < n) :
    ∃ b, d.get? (i : ℤ) = some b := by
  have hsub : d.keys ⊆ (List.range n).map (Nat.cast : ℕ → ℤ) := by
    intro j hj
    obtain ⟨b, hb⟩ := OrderedDict.mem_keys.mp hj
    obtain ⟨h₀, h₁⟩ := hlt j b hb
    exact List.mem_map.mpr ⟨j.toNat, List.mem_range.mpr (by omega), by omega⟩
  have hlen : ((List.range n).map (Nat.cast : ℕ → ℤ)).length ≤ d.keys.length := by
    simp [OrderedDict.keys, ← hsize, OrderedDict.size]
  have hperm := (List.subperm_of_subset d.nodup_keys hsub).perm_of_length_le hlen
  exact OrderedDict.mem_keys.mp (hperm.mem_iff.mpr
    (List.mem_map.mpr ⟨i, List.mem_range.mpr hi, rfl⟩))

/-- A session that was built from `records`, as its parts. -/
theorem buildSession_ok {ringVersion : ℕ} {fence : FenceToken} {sourceNodeId : NodeId}
    {records : List (SnapshotRecord V)} {session : SnapshotSession}
    (h : buildSession c ringVersion fence sourceNodeId records = .ok session) :
    ∃ lines, records.mapM (encodeRecord c) = .ok lines ∧
      (lines.flatMap (· ++ [10])).length ≤ c.payloadLimit ∧
      session.manifest.chunkCount = session.chunks.length ∧
      session.manifest.entryCount = records.length ∧
      session.manifest.totalBytes = (lines.flatMap (· ++ [10])).length ∧
      session.manifest.checksum = c.hexdigest (lines.flatMap (· ++ [10])) ∧
      session.chunks = (cutChunks c.chunkBytes (lines.flatMap (· ++ [10]))).mapIdx
        (fun i piece => ⟨session.manifest.snapshotId, i, piece, c.hexdigest piece⟩) ∧
      session.maxInFlight = c.maxInFlight ∧ session.nextIndex = 0 ∧ session.outstanding = ∅ := by
  unfold buildSession at h
  rw [except_bind_ok] at h
  obtain ⟨lines, hlines, h⟩ := h
  dsimp only at h
  split_ifs at h with hlimit
  obtain rfl := Except.ok.inj h
  exact ⟨lines, hlines, Nat.le_of_not_lt hlimit, by simp, rfl, rfl, rfl, rfl, rfl, rfl, rfl⟩

/-- A receiver that kept the pieces of the payload under their numbers has the payload. -/
theorem SnapshotReceiver.payload_eq {r : SnapshotReceiver} {size : ℕ} (hsize : 0 < size)
    {payload : List UInt8} (hcount : r.manifest.chunkCount = (cutChunks size payload).length)
    (hget : ∀ i < (cutChunks size payload).length,
      r.chunks.get? (i : ℤ) = (cutChunks size payload)[i]?) : r.payload = payload := by
  conv_rhs => rw [← cutChunks_flatten hsize payload]
  unfold SnapshotReceiver.payload
  rw [hcount, List.flatMap_def]
  congr 1
  apply List.ext_getElem
  · simp
  · intro i h₁ h₂
    have hi : i < (cutChunks size payload).length := by simpa using h₁
    simp [hget i hi, hi]

/-- The chunks and the manifest of a session that was built from `records`. -/
def SnapshotSession.Carries (c : SnapshotConfig V) (session : SnapshotSession)
    (records : List (SnapshotRecord V)) : Prop :=
  ∃ built, buildSession c session.manifest.ringVersion session.manifest.fence
    session.manifest.sourceNodeId records = .ok built ∧
    session.manifest = built.manifest ∧ session.chunks = built.chunks

/-- Whatever is decoded from the chunks of a session is what the session was built from. -/
theorem receiveRecords_ok {session : SnapshotSession} {records received : List (SnapshotRecord V)}
    (hpos : 0 < c.chunkBytes) (hc : ∀ record ∈ records, c.RoundTrips record)
    (hs : session.Carries c records) (h : receiveRecords c session = .ok received) :
    received = records.map SnapshotRecord.rekeyed := by
  obtain ⟨built, hbuilt, hman, hchunks⟩ := hs
  obtain ⟨lines, hlines, -, hcount, -, -, -, hpieces, -⟩ := buildSession_ok hbuilt
  obtain ⟨hdecode, hline⟩ := decode_lines hc hlines
  unfold receiveRecords at h
  split at h
  · cases h
  rename_i r hr
  obtain ⟨hfrom, hrman⟩ := drainSession_ok (fun i b hb => by cases hb) hr
  unfold SnapshotReceiver.records at h
  split_ifs at h with hsize hbytes hsum
  set pieces := cutChunks c.chunkBytes (lines.flatMap (· ++ [10])) with hpieces'
  have hcount' : r.manifest.chunkCount = pieces.length := by
    rw [hrman]
    show session.manifest.chunkCount = _
    rw [hman, hcount, hpieces, List.length_mapIdx]
  have hgot : ∀ i b, r.chunks.get? i = some b → ∃ j : ℕ, i = j ∧ pieces[j]? = some b := by
    intro i b hb
    obtain ⟨chunk, hmem, hindex, hpayload⟩ := hfrom i b hb
    rw [hchunks, hpieces] at hmem
    obtain ⟨j, hj, rfl⟩ := List.mem_mapIdx.mp hmem
    exact ⟨j, hindex.symm, by rw [← hpayload, List.getElem?_eq_getElem]⟩
  have hall : ∀ i < pieces.length, r.chunks.get? (i : ℤ) = pieces[i]? := by
    intro i hi
    have hlt : ∀ j b, r.chunks.get? j = some b → 0 ≤ j ∧ j < pieces.length := by
      intro j b hb
      obtain ⟨m, rfl, hm⟩ := hgot j b hb
      have := (List.getElem?_eq_some_iff.mp hm).1
      omega
    obtain ⟨b, hb⟩ := OrderedDict.get?_of_size_eq ((not_not.mp hsize).trans hcount') hlt hi
    obtain ⟨m, hm, hb'⟩ := hgot i b hb
    obtain rfl : i = m := by omega
    rw [hb, hb']
  rw [except_bind_ok] at h
  obtain ⟨got, hgot', h⟩ := h
  rw [SnapshotReceiver.payload_eq hpos hcount' hall, splitLines_lines hline, hdecode] at hgot'
  obtain rfl := Except.ok.inj hgot'
  split_ifs at h
  exact (Except.ok.inj h).symm

end
end MegaCache
