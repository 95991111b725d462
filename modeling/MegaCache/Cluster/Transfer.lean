import MegaCache.Cluster.SnapshotCodec

/-!
# Snapshot transfers

The chunks of a session reach a receiver in any order, with other chunks in between
that the receiver rejects.  A chunk that is rejected for its size stays in the byte
count: after it no chunk is accepted any more.  Every other rejection leaves the
receiver as it was, and then the records that come out are those that went in.
-/

namespace MegaCache

/-- `P` holds of every element of the list and of what stands before it. -/
def AtEach {α : Type*} (P : List α → α → Prop) (l : List α) : Prop :=
  ∀ pre x post, l = pre ++ x :: post → P pre x

theorem atEach_nil {α : Type*} (P : List α → α → Prop) : AtEach P [] := by
  intro pre x post h
  simp at h

theorem atEach_concat {α : Type*} {P : List α → α → Prop} {l : List α} {a : α} :
    AtEach P (l ++ [a]) ↔ AtEach P l ∧ P l a := by
  constructor
  · intro h
    refine ⟨?_, h l a [] rfl⟩
    intro pre x post hl
    exact h pre x (post ++ [a]) (by simp [hl])
  · rintro ⟨hl, ha⟩ pre x post h
    rcases List.eq_nil_or_concat post with rfl | ⟨post, b, rfl⟩
    · obtain ⟨rfl, hx⟩ := List.append_inj' h rfl
      obtain rfl := List.singleton_inj.mp hx
      exact ha
    · rw [List.concat_eq_append, ← List.cons_append, ← List.append_assoc] at h
      exact hl pre x post (List.append_inj' h rfl).1

section

variable {V : Type} (c : SnapshotConfig V)

/-- A chunk of the session on the left, any other chunk on the right. -/
abbrev Delivery := SnapshotChunk ⊕ SnapshotChunk

def Delivery.chunk (d : Delivery) : SnapshotChunk := d.elim id id

/-- The chunks of the session among the deliveries. -/
def delivered (deliveries : List Delivery) : List SnapshotChunk := deliveries.filterMap Sum.getLeft?

/-- The receiver after some deliveries; a chunk that is rejected is dropped. -/
def deliver (deliveries : List Delivery) (r : SnapshotReceiver) : SnapshotReceiver :=
  deliveries.foldl (fun r d => (SnapshotReceiver.receive c (Delivery.chunk d) r).2) r

/-- A chunk that fails one of the checks before the one of its size, once the chunks
`arrived` of the session are there. -/
def Misfit (manifest : SnapshotManifest) (arrived : List SnapshotChunk) (chunk : SnapshotChunk) :
    Prop :=
  chunk.snapshotId ≠ manifest.snapshotId ∨
    (chunk.index < 0 ∨ (manifest.chunkCount : ℤ) ≤ chunk.index) ∨
    (∃ own ∈ arrived, own.index = chunk.index) ∨
    c.hexdigest chunk.payload ≠ chunk.checksum

/-- Every chunk that is not of the session is rejected. -/
def StraysRejected (r : SnapshotReceiver) (deliveries : List Delivery) : Prop :=
  AtEach (fun pre d => ∀ stray, d = .inr stray →
    ∃ e, (SnapshotReceiver.receive c stray (deliver c pre r)).1 = .error e) deliveries

/-- Every chunk that is not of the session fails a check before the one of its size. -/
def StraysMisfit (manifest : SnapshotManifest) (deliveries : List Delivery) : Prop :=
  AtEach (fun pre d => ∀ stray, d = .inr stray → Misfit c manifest (delivered pre) stray) deliveries

namespace SnapshotReceiver

/-- The checks of `receive` before the one of the size. -/
def Early (r : SnapshotReceiver) (chunk : SnapshotChunk) : Prop :=
  chunk.snapshotId ≠ r.manifest.snapshotId ∨
    (chunk.index < 0 ∨ (r.manifest.chunkCount : ℤ) ≤ chunk.index) ∨
    (r.chunks.get? chunk.index).isSome ∨ c.hexdigest chunk.payload ≠ chunk.checksum

/-- The receiver with the bytes of a chunk counted. -/
def count (r : SnapshotReceiver) (chunk : SnapshotChunk) : SnapshotReceiver :=
  { r with receivedBytes := r.receivedBytes + chunk.payload.length }

/-- More bytes than the limit or the manifest allow. -/
def Over (r : SnapshotReceiver) : Prop :=
  r.maxPayloadBytes < r.receivedBytes ∨ r.manifest.totalBytes < r.receivedBytes

/-- What `receive` does with a chunk, by the first check that fails. -/
theorem receive_cases (chunk : SnapshotChunk) (r : SnapshotReceiver) :
    (r.Early c chunk ∧ ∃ e, receive c chunk r = (.error e, r)) ∨
    (¬r.Early c chunk ∧ (r.count chunk).Over ∧ ∃ e, receive c chunk r = (.error e, r.count chunk)) ∨
    (¬r.Early c chunk ∧ ¬(r.count chunk).Over ∧ receive c chunk r =
      (.ok (), { r.count chunk with chunks := r.chunks.set chunk.index chunk.payload })) := by
  unfold receive Early
  simp only [Prog.run_bind, Prog.run_get]
  split_ifs with h₁ h₂ h₃ h₄
  · exact .inl ⟨.inl h₁, _, rfl⟩
  · exact .inl ⟨.inr (.inl h₂), _, rfl⟩
  · exact .inl ⟨.inr (.inr (.inl h₃)), _, rfl⟩
  · exact .inl ⟨.inr (.inr (.inr h₄)), _, rfl⟩
  · simp only [Prog.run_bind, Prog.run_get, Prog.run_modify, h₁, h₂, h₃, h₄, or_self,
      Bool.false_eq_true, not_false_eq_true, true_and, false_and, false_or]
    split_ifs with h₅
    · exact .inl ⟨h₅, _, rfl⟩
    · exact .inr ⟨h₅, rfl⟩

end SnapshotReceiver

/-- What the chunks of a session have in common with its manifest. -/
structure SnapshotSession.Sound (session : SnapshotSession) : Prop where
  count : session.manifest.chunkCount = session.chunks.length
  index : session.chunks.map SnapshotChunk.index = (List.range session.chunks.length).map Nat.cast
  id : ∀ chunk ∈ session.chunks, chunk.snapshotId = session.manifest.snapshotId
  digest : ∀ chunk ∈ session.chunks, c.hexdigest chunk.payload = chunk.checksum
  total : (session.chunks.map fun chunk => chunk.payload.length).sum = session.manifest.totalBytes

/-- The receiver holds exactly the chunks that arrived, and has counted nothing else. -/
structure Clean (manifest : SnapshotManifest) (limit : ℕ) (arrived : List SnapshotChunk)
    (r : SnapshotReceiver) : Prop where
  manifest_eq : r.manifest = manifest
  limit_eq : r.maxPayloadBytes = limit
  chunks : ∀ i b, r.chunks.get? i = some b ↔ ∃ chunk ∈ arrived, chunk.index = i ∧ chunk.payload = b
  bytes : r.receivedBytes = (arrived.map fun chunk => chunk.payload.length).sum

/-- The receiver has counted too many bytes while a chunk is still missing. -/
structure Stuck (manifest : SnapshotManifest) (r : SnapshotReceiver) : Prop where
  manifest_eq : r.manifest = manifest
  range : ∀ i b, r.chunks.get? i = some b → 0 ≤ i ∧ i < manifest.chunkCount
  missing : ∃ i < manifest.chunkCount, r.chunks.get? (i : ℤ) = none
  full : r.Over

variable {c}

/-- A stuck receiver stays stuck, whatever it gets. -/
theorem Stuck.receive {manifest : SnapshotManifest} {r : SnapshotReceiver} (h : Stuck manifest r)
    (chunk : SnapshotChunk) : Stuck manifest (SnapshotReceiver.receive c chunk r).2 := by
  have hover : (r.count chunk).Over := by
    have := h.full
    unfold SnapshotReceiver.Over SnapshotReceiver.count at *
    dsimp only
    omega
  rcases SnapshotReceiver.receive_cases c chunk r with ⟨-, e, hr⟩ | ⟨-, -, e, hr⟩ | ⟨-, hnot, -⟩
  · rw [hr]
    exact h
  · rw [hr]
    exact ⟨h.manifest_eq, h.range, h.missing, hover⟩
  · exact absurd hover hnot

theorem Stuck.records {manifest : SnapshotManifest} {r : SnapshotReceiver} (h : Stuck manifest r)
    (records : List (SnapshotRecord V)) : r.records c ≠ .ok records := by
  intro hok
  unfold SnapshotReceiver.records at hok
  split_ifs at hok with hsize
  obtain ⟨i, hi, hnone⟩ := h.missing
  rw [not_not, h.manifest_eq] at hsize
  obtain ⟨b, hb⟩ := OrderedDict.get?_of_size_eq hsize h.range hi
  simp [hb] at hnone

namespace Clean

variable {manifest : SnapshotManifest} {limit : ℕ} {arrived : List SnapshotChunk}
  {r : SnapshotReceiver}

theorem start (manifest : SnapshotManifest) (limit : ℕ) :
    Clean manifest limit [] ⟨manifest, limit, .empty, 0⟩ where
  manifest_eq := rfl
  limit_eq := rfl
  chunks := by simp
  bytes := rfl

/-- The checks of a clean receiver are those against what arrived. -/
theorem early_iff (h : Clean manifest limit arrived r) (chunk : SnapshotChunk) :
    r.Early c chunk ↔ Misfit c manifest arrived chunk := by
  have hsome : (r.chunks.get? chunk.index).isSome ↔ ∃ own ∈ arrived, own.index = chunk.index := by
    rw [Option.isSome_iff_exists]
    constructor
    · rintro ⟨b, hb⟩
      obtain ⟨own, hown, hindex, -⟩ := (h.chunks _ b).mp hb
      exact ⟨own, hown, hindex⟩
    · rintro ⟨own, hown, hindex⟩
      exact ⟨own.payload, (h.chunks _ _).mpr ⟨own, hown, hindex, rfl⟩⟩
  unfold SnapshotReceiver.Early Misfit
  rw [h.manifest_eq, hsome]

/-- A chunk that fails an early check leaves the receiver as it is. -/
theorem misfit (h : Clean manifest limit arrived r) {chunk : SnapshotChunk}
    (hm : Misfit c manifest arrived chunk) :
    Clean manifest limit arrived (SnapshotReceiver.receive c chunk r).2 := by
  have hearly := (h.early_iff chunk).mpr hm
  rcases SnapshotReceiver.receive_cases c chunk r with ⟨-, e, hr⟩ | ⟨hn, -⟩ | ⟨hn, -⟩
  · rw [hr]
    exact h
  · exact absurd hearly hn
  · exact absurd hearly hn

/-- A chunk that is rejected for its size leaves the receiver stuck. -/
theorem oversized (h : Clean manifest limit arrived r) {chunk : SnapshotChunk}
    (hrange : ∀ own ∈ arrived, 0 ≤ own.index ∧ own.index < manifest.chunkCount)
    (hm : ¬Misfit c manifest arrived chunk) {e : PyError}
    (he : (SnapshotReceiver.receive c chunk r).1 = .error e) :
    Stuck manifest (SnapshotReceiver.receive c chunk r).2 := by
  have hearly := mt (h.early_iff chunk).mp hm
  rcases SnapshotReceiver.receive_cases c chunk r with ⟨hy, -⟩ | ⟨-, hover, e, hr⟩ | ⟨-, -, hr⟩
  · exact absurd hy hearly
  · rw [hr]
    refine ⟨h.manifest_eq, ?_, ?_, hover⟩
    · intro i b hb
      obtain ⟨own, hown, rfl, -⟩ := (h.chunks i b).mp hb
      exact hrange own hown
    · -- the index of the chunk itself is missing
      simp only [SnapshotReceiver.Early, not_or, h.manifest_eq] at hearly
      obtain ⟨-, ⟨h₀, h₁⟩, hnone, -⟩ := hearly
      refine ⟨chunk.index.toNat, by omega, ?_⟩
      rw [Int.toNat_of_nonneg (by omega)]
      show r.chunks.get? chunk.index = none
      simpa using hnone
  · rw [hr] at he
    cases he

/-- A chunk of the session that has not arrived yet is accepted. -/
theorem accept (h : Clean manifest limit arrived r) {chunk : SnapshotChunk}
    (hm : ¬Misfit c manifest arrived chunk)
    (hlimit : ((arrived ++ [chunk]).map fun chunk => chunk.payload.length).sum ≤ limit)
    (htotal : ((arrived ++ [chunk]).map fun chunk => chunk.payload.length).sum ≤
      manifest.totalBytes) :
    ∃ r', SnapshotReceiver.receive c chunk r = (.ok (), r') ∧
      Clean manifest limit (arrived ++ [chunk]) r' := by
  have hearly := mt (h.early_iff chunk).mp hm
  have hsum : ((arrived ++ [chunk]).map fun chunk => chunk.payload.length).sum =
      r.receivedBytes + chunk.payload.length := by
    simp [h.bytes]
  have hfits : ¬(r.count chunk).Over := by
    unfold SnapshotReceiver.Over SnapshotReceiver.count
    rw [h.limit_eq, h.manifest_eq]
    dsimp only
    omega
  rcases SnapshotReceiver.receive_cases c chunk r with ⟨hy, -⟩ | ⟨-, hover, -⟩ | ⟨-, -, hr⟩
  · exact absurd hy hearly
  · exact absurd hover hfits
  · refine ⟨_, hr, h.manifest_eq, h.limit_eq, ?_, hsum.symm⟩
    -- no chunk under the index of this one has arrived before
    have hnew : ∀ own ∈ arrived, own.index ≠ chunk.index := by
      intro own hown hindex
      exact hm (.inr (.inr (.inl ⟨own, hown, hindex⟩)))
    intro i b
    show (r.chunks.set chunk.index chunk.payload).get? i = some b ↔ _
    rw [OrderedDict.get?_set]
    split_ifs with hi
    · subst hi
      constructor
      · intro hb
        exact ⟨chunk, by simp, rfl, Option.some.inj hb⟩
      · rintro ⟨own, hown, hindex, rfl⟩
        rcases List.mem_append.mp hown with hown | hown
        · exact absurd hindex (hnew own hown)
        · rw [List.mem_singleton.mp hown]
    · rw [h.chunks]
      constructor
      · rintro ⟨own, hown, hindex, hb⟩
        exact ⟨own, List.mem_append_left _ hown, hindex, hb⟩
      · rintro ⟨own, hown, hindex, hb⟩
        rcases List.mem_append.mp hown with hown | hown
        · exact ⟨own, hown, hindex, hb⟩
        · rw [List.mem_singleton.mp hown] at hindex
          exact absurd hindex.symm hi

end Clean

namespace SnapshotSession.Sound

variable {session : SnapshotSession} (h : session.Sound c)
include h

theorem index_nodup : (session.chunks.map SnapshotChunk.index).Nodup := by
  rw [h.index]
  exact List.nodup_range.map Nat.cast_injective

theorem index_range {chunk : SnapshotChunk} (hc : chunk ∈ session.chunks) :
    0 ≤ chunk.index ∧ chunk.index < session.manifest.chunkCount := by
  have hmem : chunk.index ∈ session.chunks.map SnapshotChunk.index := List.mem_map_of_mem hc
  rw [h.index] at hmem
  obtain ⟨i, hi, hcast⟩ := List.mem_map.mp hmem
  have := List.mem_range.mp hi
  rw [h.count]
  omega

/-- The next chunk of the session passes every check. -/
theorem fits {arrived : List SnapshotChunk} {chunk : SnapshotChunk}
    (hsub : (arrived ++ [chunk]).Subperm session.chunks) :
    ¬Misfit c session.manifest arrived chunk := by
  have hmem : chunk ∈ session.chunks := hsub.subset (by simp)
  have hnodup : ((arrived ++ [chunk]).map SnapshotChunk.index).Nodup := by
    obtain ⟨l, hperm, hl⟩ := hsub
    exact (hperm.map _).nodup_iff.mp (h.index_nodup.sublist (hl.map _))
  have hrange := h.index_range hmem
  rintro (hid | hindex | ⟨own, hown, heq⟩ | hsum)
  · exact hid (h.id chunk hmem)
  · omega
  · simp only [List.map_append, List.map_cons, List.map_nil, List.nodup_append] at hnodup
    exact hnodup.2.2 own.index (List.mem_map_of_mem hown) chunk.index (by simp) heq
  · exact hsum (h.digest chunk hmem)

theorem bytes_le {arrived : List SnapshotChunk} (hsub : arrived.Subperm session.chunks) :
    (arrived.map fun chunk => chunk.payload.length).sum ≤ session.manifest.totalBytes := by
  rw [← h.total]
  obtain ⟨l, hperm, hl⟩ := hsub
  rw [← (hperm.map _).sum_eq]
  exact (hl.map _).sum_le_sum fun _ _ => Nat.zero_le _

/-- The receiver is clean while all strays were misfits, and stuck afterwards. -/
theorem deliver_outcome {limit : ℕ} (hlimit : session.manifest.totalBytes ≤ limit)
    {deliveries : List Delivery} (hsub : (delivered deliveries).Subperm session.chunks)
    (hrej : StraysRejected c ⟨session.manifest, limit, .empty, 0⟩ deliveries) :
    StraysMisfit c session.manifest deliveries ∧ Clean session.manifest limit
        (delivered deliveries) (deliver c deliveries ⟨session.manifest, limit, .empty, 0⟩) ∨
      ¬StraysMisfit c session.manifest deliveries ∧
        Stuck session.manifest (deliver c deliveries ⟨session.manifest, limit, .empty, 0⟩) := by
  -- induction on the deliveries, the last one taken apart
  induction deliveries using List.reverseRecOn with
  | nil => exact .inl ⟨atEach_nil _, Clean.start _ _⟩
  | append_singleton ds d ih =>
    obtain ⟨hrej, hlast⟩ := atEach_concat.mp hrej
    have hdel : delivered (ds ++ [d]) = delivered ds ++ d.getLeft?.toList := by
      cases d <;> simp [delivered]
    have hrun : ∀ r, deliver c (ds ++ [d]) r =
        (SnapshotReceiver.receive c (Delivery.chunk d) (deliver c ds r)).2 := by
      intro r
      simp [deliver]
    have hbefore : (delivered ds).Subperm session.chunks := by
      refine List.Subperm.trans (List.Sublist.subperm ?_) hsub
      rw [hdel]
      exact List.sublist_append_left _ _
    unfold StraysMisfit
    rw [atEach_concat, hrun]
    rcases ih hbefore hrej with ⟨hmis, hclean⟩ | ⟨hmis, hstuck⟩
    · cases d with
      | inl chunk =>
        have hown : delivered (ds ++ [.inl chunk]) = delivered ds ++ [chunk] := by simpa using hdel
        rw [hown] at hsub ⊢
        have hle := h.bytes_le hsub
        obtain ⟨r', hr', hclean'⟩ := hclean.accept (h.fits hsub) (hle.trans hlimit) hle
        refine .inl ⟨⟨hmis, ?_⟩, ?_⟩
        · rintro stray ⟨⟩
        · show Clean _ _ _ (SnapshotReceiver.receive c chunk _).2
          rw [hr']
          exact hclean'
      | inr stray =>
        have hown : delivered (ds ++ [.inr stray]) = delivered ds := by simpa using hdel
        rw [hown]
        by_cases hm : Misfit c session.manifest (delivered ds) stray
        · refine .inl ⟨⟨hmis, ?_⟩, hclean.misfit hm⟩
          rintro stray' ⟨⟩
          exact hm
        · obtain ⟨e, he⟩ := hlast stray rfl
          refine .inr ⟨fun hall => hm (hall.2 stray rfl), ?_⟩
          exact hclean.oversized (fun own hown => h.index_range (hbefore.subset hown)) hm he
    · exact .inr ⟨fun hall => hmis hall.1, hstuck.receive _⟩

end SnapshotSession.Sound

section

variable {ringVersion : ℕ} {fence : FenceToken} {sourceNodeId : NodeId}
  {records : List (SnapshotRecord V)} {session : SnapshotSession}

theorem buildSession_sound (hpos : 0 < c.chunkBytes)
    (h : buildSession c ringVersion fence sourceNodeId records = .ok session) : session.Sound c := by
  obtain ⟨lines, -, -, hcount, -, htotal, -, hchunks, -⟩ := buildSession_ok h
  refine ⟨hcount, ?_, ?_, ?_, ?_⟩
  · rw [hchunks]
    apply List.ext_getElem
    · simp
    · intro i h₁ h₂
      simp
  · intro chunk hc
    rw [hchunks] at hc
    obtain ⟨i, hi, rfl⟩ := List.mem_mapIdx.mp hc
    rfl
  · intro chunk hc
    rw [hchunks] at hc
    obtain ⟨i, hi, rfl⟩ := List.mem_mapIdx.mp hc
    rfl
  · have hmap : session.chunks.map (fun chunk => chunk.payload.length) =
        (cutChunks c.chunkBytes (lines.flatMap (· ++ [10]))).map List.length := by
      rw [hchunks]
      apply List.ext_getElem
      · simp
      · intro i h₁ h₂
        simp
    rw [hmap, ← List.length_flatten, cutChunks_flatten hpos, htotal]

/-- A clean receiver with all chunks of a session returns its records. -/
theorem Clean.complete {limit : ℕ} {arrived : List SnapshotChunk} {r : SnapshotReceiver}
    (hpos : 0 < c.chunkBytes) (hc : ∀ record ∈ records, c.RoundTrips record)
    (hbuilt : buildSession c ringVersion fence sourceNodeId records = .ok session)
    (hr : Clean session.manifest limit arrived r) (hperm : arrived.Perm session.chunks) :
    r.records c = .ok (records.map SnapshotRecord.rekeyed) := by
  have hsound := buildSession_sound hpos hbuilt
  obtain ⟨lines, hlines, -, hcount, hentries, htotal, hsum, hchunks, -⟩ := buildSession_ok hbuilt
  obtain ⟨hdecode, hline⟩ := decode_lines hc hlines
  have hkeys : r.chunks.keys.Perm (session.chunks.map SnapshotChunk.index) := by
    refine (List.perm_ext_iff_of_nodup r.chunks.nodup_keys hsound.index_nodup).mpr ?_
    intro i
    rw [OrderedDict.mem_keys, List.mem_map]
    constructor
    · rintro ⟨b, hb⟩
      obtain ⟨own, hown, hi, -⟩ := (hr.chunks i b).mp hb
      exact ⟨own, hperm.subset hown, hi⟩
    · rintro ⟨own, hown, rfl⟩
      exact ⟨own.payload, (hr.chunks _ _).mpr ⟨own, hperm.symm.subset hown, rfl, rfl⟩⟩
  have hsize : r.chunks.size = r.manifest.chunkCount := by
    rw [hr.manifest_eq, hcount, ← List.length_map (f := SnapshotChunk.index), ← hkeys.length_eq]
    simp [OrderedDict.keys, OrderedDict.size]
  set pieces := cutChunks c.chunkBytes (lines.flatMap (· ++ [10])) with hpieces
  have hget : ∀ i < pieces.length, r.chunks.get? (i : ℤ) = pieces[i]? := by
    intro i hi
    rw [List.getElem?_eq_getElem hi, hr.chunks]
    refine ⟨⟨session.manifest.snapshotId, i, pieces[i], c.hexdigest pieces[i]⟩, ?_, rfl, rfl⟩
    refine hperm.symm.subset ?_
    rw [hchunks]
    exact List.mem_mapIdx.mpr ⟨i, hi, rfl⟩
  have hpayload : r.payload = lines.flatMap (· ++ [10]) := by
    refine SnapshotReceiver.payload_eq hpos ?_ hget
    rw [hr.manifest_eq, hcount, hchunks, List.length_mapIdx]
  unfold SnapshotReceiver.records
  rw [if_neg (not_not.mpr hsize), hpayload, hr.manifest_eq, if_neg (not_not.mpr htotal.symm),
    if_neg (not_not.mpr hsum.symm), splitLines_lines hline, hdecode]
  show (if _ then _ else _) = _
  rw [if_neg (by simp [hentries])]

/-- The loop of `_bootstrap_locked` receives every chunk, the window being open again
after each acknowledgement. -/
theorem drainSession_clean {limit : ℕ} (hsound : session.Sound c) (hflight : 0 < session.maxInFlight)
    (hlimit : session.manifest.totalBytes ≤ limit) (n : ℕ) {state : SnapshotSession}
    (hchunks : state.chunks = session.chunks) (hmax : state.maxInFlight = session.maxInFlight)
    (hout : state.outstanding = ∅) (hn : session.chunks.length < state.nextIndex + n)
    {r : SnapshotReceiver}
    (hr : Clean session.manifest limit (session.chunks.take state.nextIndex) r) :
    ∃ r', drainSession c n state r = (.ok (), r') ∧
      Clean session.manifest limit session.chunks r' := by
  induction n generalizing state r with
  | zero =>
    refine ⟨r, rfl, ?_⟩
    rwa [List.take_of_length_le (by omega)] at hr
  | succ n ih =>
    have hopen : ¬state.maxInFlight ≤ state.outstanding.card := by
      rw [hout, hmax, Finset.card_empty]
      omega
    unfold drainSession SnapshotSession.nextChunk
    rw [if_neg hopen]
    by_cases hend : session.chunks.length ≤ state.nextIndex
    · rw [hchunks, List.getElem?_eq_none hend]
      refine ⟨r, rfl, ?_⟩
      rwa [List.take_of_length_le hend] at hr
    · have hlt : state.nextIndex < session.chunks.length := by omega
      have hsnoc : session.chunks.take (state.nextIndex + 1) =
          session.chunks.take state.nextIndex ++ [session.chunks[state.nextIndex]] := by
        rw [List.take_add_one, List.getElem?_eq_getElem hlt]
        rfl
      have hsub : (session.chunks.take state.nextIndex ++ [session.chunks[state.nextIndex]]).Subperm
          session.chunks := by
        rw [← hsnoc]
        exact (List.take_sublist _ _).subperm
      have hle := hsound.bytes_le hsub
      obtain ⟨r', hr', hclean⟩ := hr.accept (hsound.fits hsub) (hle.trans hlimit) hle
      rw [hchunks, List.getElem?_eq_getElem hlt]
      rw [← hsnoc] at hclean
      have hack : (insert session.chunks[state.nextIndex].index (∅ : Finset ℤ)).erase
          session.chunks[state.nextIndex].index = ∅ := by
        simp
      obtain ⟨r'', hdrain, hdone⟩ := @ih { state with
          nextIndex := state.nextIndex + 1
          outstanding := ∅ } hchunks hmax rfl (by dsimp only; omega) _ hclean
      refine ⟨r'', ?_, hdone⟩
      rw [Prog.run_bind_ok (m := Prog.fromExcept _) rfl]
      show (SnapshotReceiver.receive c session.chunks[state.nextIndex] >>= _) r = _
      rw [Prog.run_bind_ok hr', ← hdrain]
      unfold SnapshotSession.acknowledge
      rw [hout, if_pos (Finset.mem_insert_self _ _)]
      dsimp only
      rw [hack, hchunks]
      rfl

end

end

/-! ## Transfers of JSON lines -/

/-- The transfers of a cluster whose records travel as lines of JSON. -/
def jsonTransfer (json : JsonModule) (payloadLimit chunkBytes maxInFlight : ℕ)
    (hexdigest : List UInt8 → String) : SnapshotConfig SnapshotValue where
  payloadLimit := payloadLimit
  chunkBytes := chunkBytes
  maxInFlight := maxInFlight
  hexdigest := hexdigest
  encode := fun record => some (encodeSnapshotRecord json record)
  decode := decodeSnapshotRecord json

section

variable (json : JsonModule) (payloadLimit chunkBytes maxInFlight : ℕ)
  (hexdigest : List UInt8 → String)

theorem jsonTransfer_roundTrips {record : SnapshotRecord SnapshotValue}
    (h : json.loads (encodeSnapshotRecord json record) = some (recordDocument record)) :
    (jsonTransfer json payloadLimit chunkBytes maxInFlight hexdigest).RoundTrips record := by
  intro line hline
  obtain rfl := Option.some.inj hline
  exact ⟨decodeSnapshotRecord_encode h, encodeSnapshotRecord_line record⟩

theorem jsonTransfer_build {records : List (SnapshotRecord SnapshotValue)}
    (hfit : (records.flatMap fun record => encodeSnapshotRecord json record ++ [10]).length ≤
      payloadLimit) (ringVersion : ℕ) (fence : FenceToken) (sourceNodeId : NodeId) :
    ∃ session, buildSession (jsonTransfer json payloadLimit chunkBytes maxInFlight hexdigest)
      ringVersion fence sourceNodeId records = .ok session := by
  have hlines : records.mapM
      (encodeRecord (jsonTransfer json payloadLimit chunkBytes maxInFlight hexdigest)) =
      .ok (records.map (encodeSnapshotRecord json)) := by
    induction records with
    | nil => rfl
    | cons record rest ih =>
      have hrest : (rest.flatMap fun record => encodeSnapshotRecord json record ++ [10]).length ≤
          payloadLimit := by
        simp only [List.flatMap_cons, List.length_append] at hfit
        omega
      rw [List.mapM_cons, ih hrest]
      rfl
  have hle : ¬payloadLimit <
      ((records.map (encodeSnapshotRecord json)).flatMap (· ++ [10])).length := by
    rw [List.flatMap_map]
    omega
  unfold buildSession
  rw [hlines]
  exact ⟨_, if_neg hle⟩

/-- The entry of a record is stored under the record's own key. -/
def SnapshotRecord.Keyed {V : Type} (record : SnapshotRecord V) : Prop :=
  ∀ entry, record.entry = some entry → entry.key = record.key

theorem SnapshotRecord.rekeyed_eq_iff {V : Type} (record : SnapshotRecord V) :
    record.rekeyed = record ↔ record.Keyed := by
  obtain ⟨entry, key, version, deleted⟩ := record
  cases entry with
  | none => simp [rekeyed, Keyed]
  | some entry =>
    obtain ⟨entryKey, value, fresh, stale, tags, persistent⟩ := entry
    simp [rekeyed, Keyed, eq_comm]

theorem map_rekeyed_eq_iff {V : Type} (records : List (SnapshotRecord V)) :
    records.map SnapshotRecord.rekeyed = records ↔ ∀ record ∈ records, record.Keyed := by
  conv_lhs => rhs; rw [← List.map_id records]
  rw [List.map_inj_left]
  exact forall₂_congr fun record _ => record.rekeyed_eq_iff

/-- A transfer gives the records back if and only if their entries are under their own
keys and no chunk that came in between was rejected for its size. -/
theorem snapshot_transfer (hchunk : 0 < chunkBytes) (hflight : 0 < maxInFlight)
    (records : List (SnapshotRecord SnapshotValue))
    (hloads : ∀ record ∈ records,
      json.loads (encodeSnapshotRecord json record) = some (recordDocument record))
    (hfit : (records.flatMap fun record => encodeSnapshotRecord json record ++ [10]).length ≤
      payloadLimit) (ringVersion : ℕ) (fence : FenceToken) (sourceNodeId : NodeId) :
    let c := jsonTransfer json payloadLimit chunkBytes maxInFlight hexdigest
    ∃ session, buildSession c ringVersion fence sourceNodeId records = .ok session ∧
      (receiveRecords c session = .ok records ↔ ∀ record ∈ records, record.Keyed) ∧
      ∀ limit deliveries, session.manifest.totalBytes ≤ limit →
        (delivered deliveries).Perm session.chunks →
        StraysRejected c ⟨session.manifest, limit, .empty, 0⟩ deliveries →
        ((deliver c deliveries ⟨session.manifest, limit, .empty, 0⟩).records c = .ok records ↔
          (∀ record ∈ records, record.Keyed) ∧ StraysMisfit c session.manifest deliveries) := by
  intro c
  obtain ⟨session, hbuilt⟩ := jsonTransfer_build json payloadLimit chunkBytes maxInFlight hexdigest
    hfit ringVersion fence sourceNodeId
  have hsound := buildSession_sound hchunk hbuilt
  have htrips : ∀ record ∈ records, c.RoundTrips record := fun record hrecord =>
    jsonTransfer_roundTrips json payloadLimit chunkBytes maxInFlight hexdigest (hloads record hrecord)
  have hclean : ∀ {limit arrived r}, Clean session.manifest limit arrived r →
      arrived.Perm session.chunks → (r.records c = .ok records ↔ ∀ record ∈ records, record.Keyed) := by
    intro limit arrived r hr hperm
    rw [hr.complete hchunk htrips hbuilt hperm, Except.ok.injEq, map_rekeyed_eq_iff]
  refine ⟨session, hbuilt, ?_, ?_⟩
  · obtain ⟨lines, -, hle, -, -, htotal, -, -, hmax, hnext, hout⟩ := buildSession_ok hbuilt
    obtain ⟨r, hdrain, hr⟩ := drainSession_clean hsound (by rw [hmax]; exact hflight)
      (htotal.le.trans hle) (session.chunks.length + 1) rfl rfl hout (by omega)
      (r := newReceiver c session) (by rw [hnext]; exact Clean.start _ _)
    unfold receiveRecords
    rw [hdrain]
    exact hclean hr (List.Perm.refl _)
  · intro limit deliveries hlimit hperm hrej
    rcases hsound.deliver_outcome hlimit hperm.subperm hrej with ⟨hmis, hr⟩ | ⟨hmis, hr⟩
    · rw [hclean hr hperm]
      exact ⟨fun hkeyed => ⟨hkeyed, hmis⟩, And.left⟩
    · exact ⟨fun hok => absurd hok (hr.records records), fun hall => absurd hall.2 hmis⟩

end

/-- Among chunks of the session there is no stray. -/
theorem atEach_own {P : List Delivery → SnapshotChunk → Prop} (chunks : List SnapshotChunk) :
    AtEach (fun pre d => ∀ stray, d = .inr stray → P pre stray) (chunks.map .inl) := by
  intro pre d post h stray hd
  have hmem : d ∈ chunks.map (Sum.inl : SnapshotChunk → Delivery) := by
    rw [h]
    simp
  rw [hd] at hmem
  simp at hmem

/-- One record with bytes, as the JSON module dumps and loads it. -/
def sampleRecord : SnapshotRecord SnapshotValue :=
  ⟨some ⟨"k", .bytes [0, 255], none, none, ["t"], true⟩, "k", ⟨1, 1, "a"⟩, false⟩

def sampleLine : List UInt8 := Json.utf8 (Json.dumps (fun _ => ['0']) (recordDocument sampleRecord))

def sampleJson : JsonModule where
  repr := fun _ => ['0']
  loads := fun line => if line = sampleLine then some (recordDocument sampleRecord) else none
  repr_plain := by
    intro x
    simp [Json.Plain]

def sampleTransfer : SnapshotConfig SnapshotValue := jsonTransfer sampleJson 1000 64 1 fun _ => ""

def sampleSession : SnapshotSession where
  manifest := ⟨"", "a", 1, ⟨1, "a"⟩, 3, 1, sampleLine.length + 1, ""⟩
  chunks := (cutChunks 64 (sampleLine ++ [10])).mapIdx fun i piece => ⟨"", i, piece, ""⟩
  maxInFlight := 1
  nextIndex := 0
  outstanding := ∅

theorem sampleSession_built :
    buildSession sampleTransfer 1 ⟨1, "a"⟩ "a" [sampleRecord] = .ok sampleSession := by
  decide +kernel

/-- A chunk that claims to be the first one, with more bytes than the snapshot has. -/
def oversizedChunk : SnapshotChunk := ⟨"", 0, List.replicate 2000 0, ""⟩

/-- The chunks in order, after a chunk that was rejected for its size. -/
theorem oversized_chunk_leaves_trace :
    buildSession sampleTransfer 1 ⟨1, "a"⟩ "a" [sampleRecord] = .ok sampleSession ∧
      sampleRecord.Keyed ∧ sampleSession.manifest.totalBytes ≤ 1000 ∧
      delivered (.inr oversizedChunk :: sampleSession.chunks.map .inl) = sampleSession.chunks ∧
      (SnapshotReceiver.receive sampleTransfer oversizedChunk
        ⟨sampleSession.manifest, 1000, .empty, 0⟩).1 =
        .error (snapshotError "snapshot exceeds configured payload limit") ∧
      ((deliver sampleTransfer (.inr oversizedChunk :: sampleSession.chunks.map .inl)
        ⟨sampleSession.manifest, 1000, .empty, 0⟩).records sampleTransfer).isOk = false := by
  refine ⟨sampleSession_built, ?_, by decide +kernel, by decide +kernel, by decide +kernel,
    by decide +kernel⟩
  simp [SnapshotRecord.Keyed, sampleRecord]

/-- The chunks backwards, and a chunk with a negative index. -/
theorem snapshot_transfer_sample :
    (deliver sampleTransfer (sampleSession.chunks.reverse.map .inl ++ [.inr ⟨"", -1, [], ""⟩])
      ⟨sampleSession.manifest, 1000, .empty, 0⟩).records sampleTransfer = .ok [sampleRecord] := by
  obtain ⟨session, hbuilt, -, htransfer⟩ := snapshot_transfer sampleJson 1000 64 1 (fun _ => "")
    (by decide) (by decide) [sampleRecord] (by simp [sampleJson, encodeSnapshotRecord, sampleLine])
    (by decide +kernel) 1 ⟨1, "a"⟩ "a"
  obtain rfl : sampleSession = session :=
    Except.ok.inj (sampleSession_built.symm.trans hbuilt)
  have hmisfit : ∀ arrived, Misfit sampleTransfer sampleSession.manifest arrived ⟨"", -1, [], ""⟩ :=
    fun arrived => .inr (.inl (.inl (by decide)))
  refine (htransfer 1000 _ (by decide +kernel) ?_ ?_).mpr ⟨?_, ?_⟩
  · have hdelivered : delivered (sampleSession.chunks.reverse.map .inl ++ [.inr ⟨"", -1, [], ""⟩]) =
        sampleSession.chunks.reverse := by
      decide +kernel
    rw [hdelivered]
    exact List.reverse_perm _
  · refine atEach_concat.mpr ⟨atEach_own _, ?_⟩
    rintro stray ⟨⟩
    exact ⟨snapshotError "snapshot chunk index is out of range", by decide +kernel⟩
  · simp [SnapshotRecord.Keyed, sampleRecord]
  · refine atEach_concat.mpr ⟨atEach_own _, ?_⟩
    rintro stray ⟨⟩
    exact hmisfit _

end MegaCache
