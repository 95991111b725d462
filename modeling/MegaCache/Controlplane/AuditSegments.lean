import MegaCache.Controlplane.AuditHistory

/-!
# The segments of a history

Numbered segments, each with a part of the history, as files and as the ranges that the log
keeps in memory: a record goes to the end of the last segment or into a new one, and a prune
takes away segments from the front.
-/

namespace MegaCache

namespace OrderedDict

variable {K V : Type} [DecidableEq K] {d : OrderedDict K V}

theorem toList_set_new {k : K} (h : k ∉ d.keys) (v : V) : (d.set k v).toList = d.toList ++ [(k, v)] := by
  simp [set, h]

theorem toList_set_last {k : K} {v : V} {l : List (K × V)} (h : d.toList = l ++ [(k, v)]) (w : V) :
    (d.set k w).toList = l ++ [(k, w)] := by
  have hmem : k ∈ d.keys := by simp [keys, h]
  have hnodup := d.nodup
  rw [h, List.map_append, List.nodup_append'] at hnodup
  have hl : ∀ p ∈ l, p.1 ≠ k := by
    intro p hp heq
    exact hnodup.2.2 (List.mem_map_of_mem hp) (by simp [heq])
  have hsame : l.map (fun p => if p.1 = k then (k, w) else p) = l := by
    rw [List.map_congr_left fun p hp => if_neg (hl p hp), List.map_id']
  simp [set, hmem, h, hsame]

/-- The dictionary without some keys. -/
def eraseAll (d : OrderedDict K V) (ks : List K) : OrderedDict K V := ks.foldl erase d

theorem toList_eraseAll (d : OrderedDict K V) (ks : List K) :
    (d.eraseAll ks).toList = d.toList.filter fun p => p.1 ∉ ks := by
  induction ks generalizing d with
  | nil => simp [eraseAll]
  | cons k ks ih =>
    rw [eraseAll, List.foldl_cons, ← eraseAll, ih, erase, List.filter_filter]
    congr 1
    funext p
    by_cases h : p.1 = k <;> simp [h]

end OrderedDict

namespace Controlplane

/-- Segments with their records, in the order of their numbers. -/
abbrev Parts := List (ℕ × List AuditRecord)

def Parts.records (parts : Parts) : List AuditRecord := parts.flatMap Prod.snd

/-- The line of a record in a segment. -/
def recordLine (floats : Json.FloatText) (r : AuditRecord) : Bytes :=
  Json.utf8 (Json.dumps floats.repr r.document) ++ [10]

def segmentText (floats : Json.FloatText) (l : List AuditRecord) : Bytes := l.flatMap (recordLine floats)

def segmentFile (floats : Json.FloatText) (q : ℕ × List AuditRecord) : ℕ × StoredFile :=
  (q.1, ⟨segmentText floats q.2, true⟩)

/-- The numbers of the first and the last record after `b`. -/
def rangeAfter (b : ℕ) (l : List AuditRecord) : Option (ℕ × ℕ) :=
  match l.filter fun r => b < r.sequence with
  | [] => none
  | r :: rest => some (r.sequence, ((r :: rest).getLast (List.cons_ne_nil r rest)).sequence)

/-- The ranges of the segments that have records after `b`. -/
def rangesAfter (b : ℕ) (parts : Parts) : List (ℕ × ℕ × ℕ) :=
  parts.filterMap fun q => (rangeAfter b q.2).map fun range => (q.1, range)

/-- Segments in order, with the records after the number `c`. -/
structure Laid (c : ℕ) (parts : Parts) : Prop where
  numbers : (parts.map Prod.fst).Pairwise (· < ·)
  numbered : Numbered c parts.records

section

variable {b c n number : ℕ} {l : List AuditRecord} {r : AuditRecord} {parts : Parts}
  {q q' : ℕ × List AuditRecord}

/-! ## Ranges -/

theorem rangeAfter_eq_none : rangeAfter b l = none ↔ ∀ r ∈ l, r.sequence ≤ b := by
  unfold rangeAfter
  split
  next h => simpa [List.filter_eq_nil_iff] using h
  next q rest h =>
    have hq : q ∈ l.filter fun r => b < r.sequence := h ▸ List.mem_cons_self
    have hlt : b < q.sequence := by simpa using (List.mem_filter.mp hq).2
    refine iff_of_false (by simp) fun hall => ?_
    exact absurd hlt (not_lt.mpr (hall q (List.mem_filter.mp hq).1))

theorem rangeAfter_append (h : b < r.sequence) (l : List AuditRecord) :
    rangeAfter b (l ++ [r]) = some ((rangeAfter b l).elim r.sequence Prod.fst, r.sequence) := by
  have hfilter : (l ++ [r]).filter (fun r => b < r.sequence) =
      l.filter (fun r => b < r.sequence) ++ [r] := by
    rw [List.filter_append, List.filter_cons_of_pos (by simpa using h), List.filter_nil]
  unfold rangeAfter
  rw [hfilter]
  cases l.filter fun r => b < r.sequence with
  | nil => rfl
  | cons q rest => simp

/-- The last record after `b` is the last one. -/
theorem rangeAfter_last (h : Numbered n l) {range : ℕ × ℕ} (hrange : rangeAfter b l = some range) :
    range = (max b n + 1, n + l.length) ∧ b < n + l.length ∧ l ≠ [] := by
  unfold rangeAfter at hrange
  split at hrange
  · cases hrange
  next r rest hfilter =>
    cases hrange
    rw [h.filter_eq] at hfilter
    have hlen := congrArg List.length hfilter
    rw [List.length_drop, List.length_cons] at hlen
    have hnumbered := h.drop (b - n)
    rw [hfilter, Nat.min_eq_left (by omega)] at hnumbered
    have hlast := hnumbered.getLast?_sequence (List.getLast?_eq_some_getLast (List.cons_ne_nil r rest))
    have hfirst := hnumbered.1
    rw [List.length_cons] at hlast
    refine ⟨Prod.ext ?_ ?_, by omega, ?_⟩
    · show r.sequence = _
      omega
    · show ((r :: rest).getLast _).sequence = _
      omega
    · rintro rfl
      simp at hlen

/-! ## Segments in order -/

theorem Laid.start : Laid c [] := ⟨List.Pairwise.nil, trivial⟩

theorem Laid.tail (h : Laid c (q :: parts)) : Laid (c + q.2.length) parts :=
  ⟨(List.pairwise_cons.mp h.numbers).2, (Numbered.append_iff.mp h.numbered).2⟩

theorem Laid.head (h : Laid c (q :: parts)) : Numbered c q.2 := (Numbered.append_iff.mp h.numbered).1

theorem Laid.lt_of_mem (h : Laid c parts) (hq : q ∈ parts) (hr : r ∈ q.2) : c < r.sequence :=
  (h.numbered.lt_of_mem (List.mem_flatMap_of_mem hq hr)).1

theorem Laid.part (h : Laid c parts) (hq : q ∈ parts) : ∃ n, c ≤ n ∧ Numbered n q.2 := by
  induction parts generalizing c with
  | nil => cases hq
  | cons p parts ih =>
    rcases List.mem_cons.mp hq with rfl | hq
    · exact ⟨c, le_rfl, h.head⟩
    · obtain ⟨n, hn, hnumbered⟩ := ih h.tail hq
      exact ⟨n, (Nat.le_add_right _ _).trans hn, hnumbered⟩

/-- The records of an earlier segment have smaller numbers. -/
theorem Laid.lt_of_lt (h : Laid c parts) (hq : q ∈ parts) (hq' : q' ∈ parts) (hlt : q.1 < q'.1)
    {r r' : AuditRecord} (hr : r ∈ q.2) (hr' : r' ∈ q'.2) : r.sequence < r'.sequence := by
  induction parts generalizing c with
  | nil => cases hq
  | cons p parts ih =>
    have hall := (List.pairwise_cons.mp h.numbers).1
    rcases List.mem_cons.mp hq with rfl | hmem
    · rcases List.mem_cons.mp hq' with rfl | hmem'
      · exact absurd hlt (lt_irrefl _)
      · have hfirst := h.head.lt_of_mem hr
        have hlater := h.tail.lt_of_mem hmem' hr'
        omega
    · rcases List.mem_cons.mp hq' with rfl | hmem'
      · exact absurd (hall q.1 (List.mem_map_of_mem hmem)) (by omega)
      · exact ih h.tail hmem hmem'

/-- Segments without records can be left out. -/
theorem records_filter {keep : ℕ × List AuditRecord → Bool}
    (h : ∀ q ∈ parts, keep q = false → q.2 = []) :
    Parts.records (parts.filter keep) = parts.records := by
  induction parts with
  | nil => rfl
  | cons q parts ih =>
    have hrest := ih fun p hp => h p (List.mem_cons_of_mem q hp)
    cases hkeep : keep q with
    | true =>
      rw [List.filter_cons_of_pos hkeep]
      exact congrArg (q.2 ++ ·) hrest
    | false =>
      rw [List.filter_cons_of_neg (by simp [hkeep]), hrest]
      simp [Parts.records, h q List.mem_cons_self hkeep]

/-- If the segments that are left out end at the number `a` and those that are kept have
records after it, the rest of the records is left. -/
theorem Laid.filter (h : Laid c parts) {keep : ℕ × List AuditRecord → Bool} {a : ℕ}
    (hout : ∀ q ∈ parts, keep q = false → ∀ r ∈ q.2, r.sequence ≤ a)
    (hkeep : ∀ q ∈ parts, keep q = true → q.2 ≠ [] → ∃ r ∈ q.2, a < r.sequence) :
    ∃ k, c + k ≤ max c a ∧ Parts.records (parts.filter keep) = parts.records.drop k ∧
      Laid (c + k) (parts.filter keep) := by
  have hnumbers : ((parts.filter keep).map Prod.fst).Pairwise (· < ·) :=
    h.numbers.sublist (List.filter_sublist.map _)
  suffices hrecords : ∃ k, c + k ≤ max c a ∧ k ≤ parts.records.length ∧
      Parts.records (parts.filter keep) = parts.records.drop k by
    obtain ⟨k, hle, hlen, hdrop⟩ := hrecords
    refine ⟨k, hle, hdrop, hnumbers, ?_⟩
    have hnumbered := h.numbered.drop k
    rw [Nat.min_eq_left hlen] at hnumbered
    rw [hdrop]
    exact hnumbered
  clear hnumbers
  induction parts generalizing c with
  | nil => exact ⟨0, by simp, le_rfl, rfl⟩
  | cons q parts ih =>
    have hout' := fun p hp => hout p (List.mem_cons_of_mem q hp)
    have hkeep' := fun p hp => hkeep p (List.mem_cons_of_mem q hp)
    have hcons : Parts.records (q :: parts) = q.2 ++ Parts.records parts := rfl
    by_cases hnil : q.2 = []
    · -- an empty segment changes nothing
      obtain ⟨k, hle, hlen, hdrop⟩ := ih h.tail hout' hkeep'
      rw [hnil, List.length_nil, Nat.add_zero] at hle
      refine ⟨k, hle, by rw [hcons, hnil]; exact hlen, ?_⟩
      rw [hcons, hnil, List.nil_append, ← hdrop]
      cases hq : keep q with
      | true =>
        rw [List.filter_cons_of_pos hq]
        show q.2 ++ _ = _
        rw [hnil, List.nil_append]
        rfl
      | false => rw [List.filter_cons_of_neg (by simp [hq])]
    · cases hq : keep q with
      | true =>
        -- all later records are after `a`, so nothing else is left out
        obtain ⟨r, hr, hlt⟩ := hkeep q List.mem_cons_self hq hnil
        have hrest : ∀ p ∈ parts, keep p = false → p.2 = [] := by
          intro p hp hfalse
          rw [List.eq_nil_iff_forall_not_mem]
          intro r' hr'
          have hle := hout' p hp hfalse r' hr'
          have hnumber := (List.pairwise_cons.mp h.numbers).1 p.1 (List.mem_map_of_mem hp)
          have horder := h.lt_of_lt List.mem_cons_self (List.mem_cons_of_mem q hp) hnumber hr hr'
          omega
        refine ⟨0, by simp, Nat.zero_le _, ?_⟩
        rw [List.filter_cons_of_pos hq, List.drop_zero]
        exact congrArg (q.2 ++ ·) (records_filter hrest)
      | false =>
        obtain ⟨k, hle, hlen, hdrop⟩ := ih h.tail hout' hkeep'
        have hend : c + q.2.length ≤ a := by
          have hlast := List.getLast_mem hnil
          have hnumber := h.head.getLast?_sequence (List.getLast?_eq_some_getLast hnil)
          have hbound := hout q List.mem_cons_self hq _ hlast
          omega
        refine ⟨q.2.length + k, by omega, ?_, ?_⟩
        · rw [hcons, List.length_append]
          omega
        · rw [List.filter_cons_of_neg (by simp [hq]), hdrop, hcons, List.drop_append]
          simp

/-! ## A record behind the others -/

/-- Records put behind those of the last segment, or into a new one with this number. -/
def Parts.put (parts : Parts) (number : ℕ) (l : List AuditRecord) : Parts :=
  match parts.getLast? with
  | none => [(number, l)]
  | some q => if q.1 = number then parts.dropLast ++ [(number, q.2 ++ l)] else parts ++ [(number, l)]

theorem put_cases (h : (parts.map Prod.fst).Pairwise (· < ·)) (hle : ∀ q ∈ parts, q.1 ≤ number) :
    (∃ front old, parts = front ++ [(number, old)] ∧ (∀ q ∈ front, q.1 < number) ∧
      parts.put number l = front ++ [(number, old ++ l)]) ∨
    ((∀ q ∈ parts, q.1 < number) ∧ parts.put number l = parts ++ [(number, l)]) := by
  rcases List.eq_nil_or_concat' parts with rfl | ⟨front, q, rfl⟩
  · exact .inr ⟨by simp, rfl⟩
  · rw [List.map_append, List.pairwise_append] at h
    have hfront : ∀ p ∈ front, p.1 < q.1 := fun p hp =>
      h.2.2 p.1 (List.mem_map_of_mem hp) q.1 (by simp)
    have hlast := hle q (by simp)
    unfold Parts.put
    rw [List.getLast?_concat]
    dsimp only
    split_ifs with hq
    · subst hq
      exact .inl ⟨front, q.2, rfl, hfront, by rw [List.dropLast_concat]⟩
    · refine .inr ⟨?_, rfl⟩
      intro p hp
      rcases List.mem_append.mp hp with hp | hp
      · exact (hfront p hp).trans_le hlast
      · rw [List.mem_singleton.mp hp]
        exact lt_of_le_of_ne hlast hq

theorem put_records (h : (parts.map Prod.fst).Pairwise (· < ·)) (hle : ∀ q ∈ parts, q.1 ≤ number) :
    (parts.put number l).records = parts.records ++ l := by
  rcases put_cases (l := l) h hle with ⟨front, old, rfl, -, hput⟩ | ⟨-, hput⟩
  · rw [hput]
    simp [Parts.records]
  · rw [hput]
    simp [Parts.records]

theorem Laid.put (h : Laid c parts) (hle : ∀ q ∈ parts, q.1 ≤ number)
    (hl : Numbered (c + parts.records.length) l) : Laid c (parts.put number l) := by
  refine ⟨?_, ?_⟩
  · rcases put_cases (l := l) h.numbers hle with ⟨front, old, rfl, -, hput⟩ | ⟨hlt, hput⟩
    · rw [hput]
      simpa using h.numbers
    · rw [hput, List.map_append, List.pairwise_append]
      refine ⟨h.numbers, by simp, ?_⟩
      intro n hn m hm
      obtain ⟨q, hq, rfl⟩ := List.mem_map.mp hn
      rw [List.mem_singleton.mp hm]
      exact hlt q hq
  · rw [put_records h.numbers hle, Numbered.append_iff]
    exact ⟨h.numbered, hl⟩

theorem mem_put (h : (parts.map Prod.fst).Pairwise (· < ·)) (hle : ∀ q ∈ parts, q.1 ≤ number)
    (hq : q ∈ parts.put number l) :
    q ∈ parts ∨ q = (number, l) ∨ ∃ old, (number, old) ∈ parts ∧ q = (number, old ++ l) := by
  rcases put_cases (l := l) h hle with ⟨front, old, rfl, -, hput⟩ | ⟨-, hput⟩
  · rw [hput] at hq
    rcases List.mem_append.mp hq with hq | hq
    · exact .inl (List.mem_append_left _ hq)
    · exact .inr (.inr ⟨old, by simp, List.mem_singleton.mp hq⟩)
  · rw [hput] at hq
    rcases List.mem_append.mp hq with hq | hq
    · exact .inl hq
    · exact .inr (.inl (List.mem_singleton.mp hq))

variable {floats : Json.FloatText} {dir : AuditDirectory} {ranges : OrderedDict ℕ (ℕ × ℕ)}

theorem get?_segments (hfiles : dir.segments.toList = parts.map (segmentFile floats))
    (hq : q ∈ parts) : dir.segments.get? q.1 = some ⟨segmentText floats q.2, true⟩ := by
  rw [← OrderedDict.mem_toList, hfiles]
  exact List.mem_map_of_mem hq

theorem get?_segments_none (hfiles : dir.segments.toList = parts.map (segmentFile floats))
    (hn : ∀ q ∈ parts, q.1 ≠ number) : dir.segments.get? number = none := by
  rw [OrderedDict.get?_eq_none, OrderedDict.keys, hfiles, List.map_map]
  intro hmem
  obtain ⟨q, hq, hnumber⟩ := List.mem_map.mp hmem
  exact hn q hq hnumber

/-- Appending to a file puts the records behind those of the segment. -/
theorem put_files (h : (parts.map Prod.fst).Pairwise (· < ·)) (hle : ∀ q ∈ parts, q.1 ≤ number)
    (hfiles : dir.segments.toList = parts.map (segmentFile floats)) :
    (appendFile dir number (segmentText floats l)).segments.toList =
      (parts.put number l).map (segmentFile floats) := by
  rcases put_cases (l := l) h hle with ⟨front, old, rfl, -, hput⟩ | ⟨hlt, hput⟩
  · have hget := get?_segments hfiles (q := (number, old)) (by simp)
    rw [List.map_append] at hfiles
    have hset := OrderedDict.toList_set_last hfiles
      ⟨segmentText floats old ++ segmentText floats l, true⟩
    rw [hput, List.map_append]
    simp only [appendFile, hget, Option.elim_some]
    rw [hset]
    simp [segmentFile, segmentText]
  · have hget := get?_segments_none hfiles fun q hq => ne_of_lt (hlt q hq)
    simp only [appendFile, hget, Option.elim_none, List.nil_append]
    rw [OrderedDict.toList_set_new (OrderedDict.get?_eq_none.mp hget), hfiles, hput, List.map_append]
    rfl

theorem rangesAfter_append (b : ℕ) (parts parts' : Parts) :
    rangesAfter b (parts ++ parts') = rangesAfter b parts ++ rangesAfter b parts' :=
  List.filterMap_append

theorem mem_rangesAfter {n : ℕ} {range : ℕ × ℕ} :
    (n, range) ∈ rangesAfter b parts ↔ ∃ l, (n, l) ∈ parts ∧ rangeAfter b l = some range := by
  rw [rangesAfter, List.mem_filterMap]
  constructor
  · rintro ⟨⟨m, l⟩, hl, hmap⟩
    obtain ⟨range', hrange, heq⟩ := Option.map_eq_some_iff.mp hmap
    cases heq
    exact ⟨l, hl, hrange⟩
  · rintro ⟨l, hl, hrange⟩
    exact ⟨(n, l), hl, by rw [hrange]; rfl⟩

theorem rangesAfter_notMem (hranges : ranges.toList = rangesAfter b parts)
    (hn : ∀ q ∈ parts, q.1 ≠ number) : number ∉ ranges.keys := by
  intro hmem
  obtain ⟨⟨n, range⟩, hrange, rfl⟩ := List.mem_map.mp hmem
  rw [hranges] at hrange
  obtain ⟨l, hl, -⟩ := mem_rangesAfter.mp hrange
  exact hn _ hl rfl

/-- The range of the segment that got a record. -/
theorem put_ranges (h : (parts.map Prod.fst).Pairwise (· < ·)) (hle : ∀ q ∈ parts, q.1 ≤ number)
    (hranges : ranges.toList = rangesAfter b parts) (hr : b < r.sequence) :
    (extendRange ranges number r.sequence).toList = rangesAfter b (parts.put number [r]) := by
  rcases put_cases (l := [r]) h hle with ⟨front, old, rfl, hlt, hput⟩ | ⟨hlt, hput⟩
  · have hnew : rangesAfter b (front ++ [(number, old ++ [r])]) = rangesAfter b front ++
        [(number, ((rangeAfter b old).elim r.sequence Prod.fst), r.sequence)] := by
      rw [rangesAfter_append]
      simp [rangesAfter, rangeAfter_append hr]
    rw [hput, hnew]
    rw [rangesAfter_append] at hranges
    cases hold : rangeAfter b old with
    | none =>
      have hfront : ranges.toList = rangesAfter b front := by
        rw [hranges]
        simp [rangesAfter, hold]
      have hnone := rangesAfter_notMem hfront fun q hq => ne_of_lt (hlt q hq)
      rw [extendRange, OrderedDict.toList_set_new hnone, OrderedDict.get?_eq_none.mpr hnone, hfront,
        Option.elim_none]
    | some range =>
      have hlast : ranges.toList = rangesAfter b front ++ [(number, range)] := by
        rw [hranges]
        simp [rangesAfter, hold]
      have hget : ranges.get? number = some range := by
        rw [← OrderedDict.mem_toList, hlast]
        simp
      rw [extendRange, OrderedDict.toList_set_last hlast, hget, Option.elim_some]
  · have hnone := rangesAfter_notMem hranges fun q hq => ne_of_lt (hlt q hq)
    have hnew : rangesAfter b (parts ++ [(number, [r])]) = rangesAfter b parts ++
        [(number, r.sequence, r.sequence)] := by
      rw [rangesAfter_append]
      congr 1
      simp [rangesAfter, rangeAfter, hr]
    rw [hput, hnew, extendRange, OrderedDict.toList_set_new hnone, OrderedDict.get?_eq_none.mpr hnone,
      hranges]
    rfl

/-- A file without new records has the range that it had. -/
theorem put_nil_ranges (h : (parts.map Prod.fst).Pairwise (· < ·)) (hle : ∀ q ∈ parts, q.1 ≤ number) :
    rangesAfter b (parts.put number []) = rangesAfter b parts := by
  rcases put_cases (l := []) h hle with ⟨front, old, rfl, -, hput⟩ | ⟨-, hput⟩
  · rw [hput, List.append_nil]
  · rw [hput, rangesAfter_append]
    simp [rangesAfter, rangeAfter]

/-! ## Segments taken away -/

theorem eraseAll_files {keep : ℕ × List AuditRecord → Bool} {ns : List ℕ}
    (hkeep : ∀ q ∈ parts, keep q = true ↔ q.1 ∉ ns)
    (hfiles : dir.segments.toList = parts.map (segmentFile floats)) :
    (dir.segments.eraseAll ns).toList = (parts.filter keep).map (segmentFile floats) := by
  rw [OrderedDict.toList_eraseAll, hfiles, List.filter_map]
  congr 1
  apply List.filter_congr
  intro q hq
  rw [Bool.eq_iff_iff, hkeep q hq]
  exact decide_eq_true_iff

theorem rangesAfter_filter (b : ℕ) (parts : Parts) (ns : List ℕ) :
    (rangesAfter b parts).filter (fun item => item.1 ∉ ns) =
      rangesAfter b (parts.filter fun q => q.1 ∉ ns) := by
  induction parts with
  | nil => rfl
  | cons q parts ih =>
    have hcons (parts : Parts) : rangesAfter b (q :: parts) =
        ((rangeAfter b q.2).map fun range => (q.1, range)).toList ++ rangesAfter b parts := by
      rw [rangesAfter, List.filterMap_cons]
      cases rangeAfter b q.2 <;> rfl
    rw [hcons, List.filter_append, ih]
    by_cases hq : q.1 ∈ ns
    · rw [List.filter_cons_of_neg (by simpa using hq)]
      cases rangeAfter b q.2 <;> simp [hq]
    · rw [List.filter_cons_of_pos (by simpa using hq), hcons]
      cases rangeAfter b q.2 <;> simp [hq]

theorem rangesAfter_sorted (h : (parts.map Prod.fst).Pairwise (· < ·)) :
    (rangesAfter b parts).Pairwise fun x y => x.1 < y.1 := by
  rw [List.pairwise_map] at h
  refine List.Pairwise.filterMap _ ?_ h
  intro q q' hlt x hx y hy
  obtain ⟨range, -, rfl⟩ := Option.map_eq_some_iff.mp hx
  obtain ⟨range', -, rfl⟩ := Option.map_eq_some_iff.mp hy
  exact hlt

variable {log : AuditLog} {through : ℕ}

/-- The segments that a prune removes, with their last numbers. -/
theorem eligible_eq (h : (parts.map Prod.fst).Pairwise (· < ·))
    (hranges : log.segmentRanges.toList = rangesAfter b parts) :
    eligibleSegments log through = ((rangesAfter b parts).filter fun item => item.2.2 ≤ through).map
      fun item => (item.1, item.2.2) := by
  rw [eligibleSegments, hranges]
  apply List.Pairwise.insertionSort_eq
  rw [List.pairwise_map]
  exact ((rangesAfter_sorted h).filter _).imp fun hlt => le_of_lt hlt

theorem eligible_sorted (through : ℕ) (h : (parts.map Prod.fst).Pairwise (· < ·))
    (hranges : log.segmentRanges.toList = rangesAfter b parts) :
    (eligibleSegments log through).Pairwise fun x y => x.1 < y.1 := by
  rw [eligible_eq h hranges, List.pairwise_map]
  exact (rangesAfter_sorted h).filter _

theorem mem_eligible (h : (parts.map Prod.fst).Pairwise (· < ·))
    (hranges : log.segmentRanges.toList = rangesAfter b parts) {m : ℕ} :
    (n, m) ∈ eligibleSegments log through ↔
      m ≤ through ∧ ∃ l first, (n, l) ∈ parts ∧ rangeAfter b l = some (first, m) := by
  rw [eligible_eq h hranges, List.mem_map]
  constructor
  · rintro ⟨⟨n', first, m'⟩, hitem, heq⟩
    cases heq
    obtain ⟨hmem, hle⟩ := List.mem_filter.mp hitem
    obtain ⟨l, hl, hrange⟩ := mem_rangesAfter.mp hmem
    exact ⟨by simpa using hle, l, first, hl, hrange⟩
  · rintro ⟨hle, l, first, hl, hrange⟩
    exact ⟨(n, first, m), List.mem_filter.mpr ⟨mem_rangesAfter.mpr ⟨l, hl, hrange⟩, by simpa using hle⟩,
      rfl⟩

theorem part_unique (h : (parts.map Prod.fst).Pairwise (· < ·)) (hq : q ∈ parts) (hq' : q' ∈ parts)
    (heq : q.1 = q'.1) : q = q' :=
  List.inj_on_of_nodup_map (h.imp ne_of_lt) hq hq' heq

theorem foldr_max_lt {l : List ℕ} {m : ℕ} (hpos : 0 < m) (h : ∀ x ∈ l, x < m) : l.foldr max 0 < m := by
  induction l with
  | nil => exact hpos
  | cons x l ih =>
    exact max_lt (h x List.mem_cons_self) (ih fun y hy => h y (List.mem_cons_of_mem x hy))

theorem foldr_max_mem {l : List ℕ} (h : l ≠ []) : l.foldr max 0 ∈ l := by
  induction l with
  | nil => exact absurd rfl h
  | cons x l ih =>
    rw [List.foldr_cons]
    by_cases hl : l = []
    · simp [hl]
    · rcases max_choice x (l.foldr max 0) with hx | hx
      · rw [hx]
        exact List.mem_cons_self
      · rw [hx]
        exact List.mem_cons_of_mem x (ih hl)

/-- Every segment that has records has some after `b`. -/
def Above (b : ℕ) (parts : Parts) : Prop := ∀ q ∈ parts, q.2 ≠ [] → rangeAfter b q.2 ≠ none

section

variable (h : Laid c parts) (hranges : log.segmentRanges.toList = rangesAfter b parts)

include h hranges

/-- A segment that a prune removes has its last record at the number that comes with it. -/
theorem eligible_last {m : ℕ} (hm : (n, m) ∈ eligibleSegments log through) (hq : q ∈ parts)
    (hn : q.1 = n) : m ≤ through ∧ (∀ r ∈ q.2, r.sequence ≤ m) ∧ ∃ r ∈ q.2, r.sequence = m := by
  obtain ⟨hle, l, first, hl, hrange⟩ := (mem_eligible h.numbers hranges).mp hm
  cases part_unique h.numbers hq hl hn
  obtain ⟨start, -, hnumbered⟩ := h.part hl
  obtain ⟨heq, -, hne⟩ := rangeAfter_last hnumbered hrange
  cases heq
  have hlast := hnumbered.getLast?_sequence (List.getLast?_eq_some_getLast hne)
  exact ⟨hle, fun r hr => (hnumbered.lt_of_mem hr).2, _, List.getLast_mem hne, hlast⟩

/-- A segment that a prune does not remove ends after the number of the prune. -/
theorem not_eligible_last (habove : Above b parts) (hq : q ∈ parts) (hne : q.2 ≠ [])
    (hout : q.1 ∉ (eligibleSegments log through).map Prod.fst) :
    ∃ r ∈ q.2, through < r.sequence := by
  obtain ⟨range, hrange⟩ := Option.ne_none_iff_exists'.mp (habove q hq hne)
  obtain ⟨start, -, hnumbered⟩ := h.part hq
  obtain ⟨heq, -, -⟩ := rangeAfter_last hnumbered hrange
  have hlast := hnumbered.getLast?_sequence (List.getLast?_eq_some_getLast hne)
  refine ⟨_, List.getLast_mem hne, ?_⟩
  by_contra hle
  have hmem : (q.1, start + q.2.length) ∈ eligibleSegments log through := by
    rw [mem_eligible h.numbers hranges]
    exact ⟨by omega, q.2, _, hq, hrange.trans (congrArg some heq)⟩
  exact hout (List.mem_map_of_mem hmem)

/-- Some of the segments that a prune removes, from the first one on. -/
theorem Laid.prune (habove : Above b parts) (through k : ℕ) :
    ∃ j, c + j ≤ max c (((eligibleSegments log through).map Prod.snd).foldr max 0) ∧
      Parts.records (parts.filter fun q =>
        q.1 ∉ ((eligibleSegments log through).map Prod.fst).take k) = parts.records.drop j ∧
      Laid (c + j) (parts.filter fun q =>
        q.1 ∉ ((eligibleSegments log through).map Prod.fst).take k) := by
  have hsorted := eligible_sorted through h.numbers hranges
  have hout : ∀ q ∈ parts, decide (q.1 ∉ ((eligibleSegments log through).map Prod.fst).take k) = false →
      ∀ r ∈ q.2, r.sequence ≤ (((eligibleSegments log through).take k).map Prod.snd).foldr max 0 := by
    intro q hq hremoved r hr
    rw [decide_eq_false_iff_not, not_not, ← List.map_take] at hremoved
    obtain ⟨⟨n, m⟩, hm, hn⟩ := List.mem_map.mp hremoved
    have hlast := eligible_last h hranges (List.mem_of_mem_take hm) hq hn.symm
    exact (hlast.2.1 r hr).trans (List.le_max_of_le' 0 (List.mem_map_of_mem hm) le_rfl)
  have hkeep : ∀ q ∈ parts, decide (q.1 ∉ ((eligibleSegments log through).map Prod.fst).take k) = true →
      q.2 ≠ [] → ∃ r ∈ q.2,
        (((eligibleSegments log through).take k).map Prod.snd).foldr max 0 < r.sequence := by
    intro q hq hleft hne
    rw [decide_eq_true_eq, ← List.map_take] at hleft
    by_cases hin : q.1 ∈ (eligibleSegments log through).map Prod.fst
    · -- it comes after those that are removed
      obtain ⟨⟨n, m⟩, hm, hn⟩ := List.mem_map.mp hin
      obtain ⟨-, -, r, hr, hrm⟩ := eligible_last h hranges hm hq hn.symm
      refine ⟨r, hr, foldr_max_lt (Nat.zero_lt_of_lt (h.lt_of_mem hq hr)) ?_⟩
      intro x hx
      obtain ⟨⟨n', m'⟩, hm', rfl⟩ := List.mem_map.mp hx
      have hlater : (n, m) ∈ (eligibleSegments log through).drop k := by
        rw [← List.take_append_drop k (eligibleSegments log through), List.mem_append] at hm
        exact hm.resolve_left fun htake => hleft (hn ▸ List.mem_map_of_mem htake)
      rw [← List.take_append_drop k (eligibleSegments log through), List.pairwise_append] at hsorted
      have hlt : n' < n := hsorted.2.2 _ hm' _ hlater
      obtain ⟨-, l', first, hl', -⟩ :=
        (mem_eligible h.numbers hranges).mp (List.mem_of_mem_take hm')
      obtain ⟨-, -, r', hr', hrm'⟩ :=
        eligible_last h hranges (List.mem_of_mem_take hm') hl' rfl
      have horder := h.lt_of_lt hl' hq (hn ▸ hlt) hr' hr
      omega
    · obtain ⟨r, hr, hlt⟩ := not_eligible_last h hranges habove hq hne hin
      refine ⟨r, hr, foldr_max_lt (Nat.zero_lt_of_lt hlt) ?_⟩
      intro x hx
      obtain ⟨⟨n', m'⟩, hm', rfl⟩ := List.mem_map.mp hx
      have hle := ((mem_eligible h.numbers hranges).mp (List.mem_of_mem_take hm')).1
      exact hle.trans_lt hlt
  obtain ⟨j, hle, hrecords, hlaid⟩ := h.filter hout hkeep
  refine ⟨j, hle.trans (max_le_max le_rfl ?_), hrecords, hlaid⟩
  refine List.max_le_of_forall_le _ _ ?_
  intro x hx
  obtain ⟨item, hitem, rfl⟩ := List.mem_map.mp hx
  exact List.le_max_of_le' 0 (List.mem_map_of_mem (List.mem_of_mem_take hitem)) le_rfl

/-- When a prune has removed all of them, the records that are left are after its anchor. -/
theorem Laid.prune_all (habove : Above b parts) (hne : eligibleSegments log through ≠ [])
    (hq : q ∈ parts) (hout : q.1 ∉ (eligibleSegments log through).map Prod.fst) (hr : r ∈ q.2) :
    ((eligibleSegments log through).map Prod.snd).foldr max 0 < r.sequence := by
  have hmem := foldr_max_mem (l := (eligibleSegments log through).map Prod.snd) (by simpa using hne)
  obtain ⟨⟨n, m⟩, hm, hmax⟩ := List.mem_map.mp hmem
  rw [← hmax]
  obtain ⟨hle, l, first, hl, -⟩ := (mem_eligible h.numbers hranges).mp hm
  obtain ⟨-, -, r', hr', hrm⟩ := eligible_last h hranges hm hl rfl
  obtain ⟨last, hlast, hlt⟩ := not_eligible_last h hranges habove hq (List.ne_nil_of_mem hr) hout
  rcases lt_trichotomy q.1 n with hbefore | hsame | hafter
  · have horder := h.lt_of_lt hq hl hbefore hlast hr'
    omega
  · exact absurd (hsame ▸ List.mem_map_of_mem hm) hout
  · have horder := h.lt_of_lt hl hq hafter hr' hr
    exact hrm ▸ horder

end

end

end Controlplane
end MegaCache
