import MegaCache.Origin.Lineage
import MegaCache.Origin.Paths

/-!
# Encoded paths

What `validate_origin_path` returns: a path that stays below the allowed prefixes.  A refresh
validates it again, as the worker calls `fetch` with the path of the call that scheduled it.
-/

namespace MegaCache
namespace Origin

open Percent (unquote quote kept hasEscape quotedLength)
open Urls (SplitResult urlsplit splitOnce withQuery initialSlashes join components Plain)

variable {valid : List Char → Bool} {allowed : List AllowedPrefix} {x p : List Char}
  {parsed : SplitResult}

/-! ## Encoded again -/

theorem kept_pathSafe {ch : Char} (h : kept pathSafe ch = true) :
    Percent.isPlain ch = true ∧ ch ≠ '\\' := by
  have hsmall : ch.toNat < 128 := by
    simp only [kept, Bool.and_eq_true, decide_eq_true_eq] at h
    exact h.1
  have hall : ∀ n < 128, kept pathSafe (Char.ofNat n) = true →
      Percent.isPlain (Char.ofNat n) = true ∧ Char.ofNat n ≠ '\\' := by
    decide +kernel
  have hch := hall ch.toNat hsmall
  rw [Char.ofNat_toNat] at hch
  exact hch h

theorem kept_querySafe {ch : Char} (h : kept querySafe ch = true) :
    32 < ch.toNat ∧ ch.toNat < 127 ∧ ch ≠ '#' ∧ ch ≠ '\\' := by
  have hsmall : ch.toNat < 128 := by
    simp only [kept, Bool.and_eq_true, decide_eq_true_eq] at h
    exact h.1
  have hall : ∀ n < 128, kept querySafe (Char.ofNat n) = true →
      32 < (Char.ofNat n).toNat ∧ (Char.ofNat n).toNat < 127 ∧ Char.ofNat n ≠ '#' ∧
        Char.ofNat n ≠ '\\' := by
    decide +kernel
  have hch := hall ch.toNat hsmall
  rw [Char.ofNat_toNat] at hch
  exact hch h

/-- The characters of an encoded path. -/
theorem mem_quote_path {text : List Char} {ch : Char} (h : ch ∈ quote pathSafe text) :
    32 < ch.toNat ∧ ch.toNat < 127 ∧ ch ≠ '?' ∧ ch ≠ '#' ∧ ch ≠ '\\' := by
  rcases Percent.kept_of_mem_quote h with hkept | rfl
  · obtain ⟨hplain, hback⟩ := kept_pathSafe hkept
    obtain ⟨hlow, hhigh, -, hquery, hfragment⟩ := Percent.isPlain_iff.mp hplain
    exact ⟨hlow, hhigh, hquery, hfragment, hback⟩
  · decide

theorem mem_quote_query {text : List Char} {ch : Char} (h : ch ∈ quote querySafe text) :
    kept querySafe ch = true := by
  rcases Percent.kept_of_mem_quote h with hkept | rfl
  · exact hkept
  · decide

theorem unquote_quote_path (text : List Char) : unquote (quote pathSafe text) = text :=
  (Percent.quotes_quote (fun _ h => (kept_pathSafe h).1) text).unquote

theorem mem_encodedPath {ch : Char} (h : ch ∈ encodedPath parsed) :
    32 < ch.toNat ∧ ch.toNat < 127 ∧ ch ≠ '#' ∧ ch ≠ '\\' := by
  rw [encodedPath_eq, List.mem_append] at h
  rcases h with h | h
  · obtain ⟨hlow, hhigh, -, hrest⟩ := mem_quote_path h
    exact ⟨hlow, hhigh, hrest⟩
  · unfold encodedQuery at h
    split_ifs at h
    · cases h
    · rcases List.mem_cons.mp h with rfl | h
      · decide
      · exact kept_querySafe (mem_quote_query h)

theorem query_notMem_quote (text : List Char) : '?' ∉ quote pathSafe text :=
  fun h => (mem_quote_path h).2.2.1 rfl

theorem splitOnce_encodedPath (parsed : SplitResult) :
    splitOnce '?' (encodedPath parsed) =
      (quote pathSafe (normalizedPath (unquote parsed.path)), quote querySafe parsed.query) :=
  Urls.splitOnce_withQuery (query_notMem_quote _)

theorem quote_path_slash (text : List Char) :
    quote pathSafe ('/' :: text) = '/' :: quote pathSafe text :=
  Percent.quote_cons_kept (by decide) text

theorem head_quote_path {text : List Char} (h : text.head? ≠ some '/') :
    (quote pathSafe text).head? ≠ some '/' := by
  cases text with
  | nil => simp [Percent.quote_nil]
  | cons ch text =>
    cases hch : kept pathSafe ch with
    | true =>
      rw [Percent.quote_cons_kept hch]
      exact h
    | false =>
      rw [Percent.quote_cons_other hch]
      obtain ⟨b, bytes, hbytes⟩ := List.exists_cons_of_ne_nil (Percent.utf8EncodeChar_ne_nil ch)
      rw [hbytes]
      simp [Percent.escapeByte]

/-- A path below one slash is split into its parts again. -/
theorem Admitted.urlsplit_encodedPath (h : Admitted valid allowed x parsed)
    (hslashes : initialSlashes (unquote parsed.path) ≠ 2) :
    urlsplit valid (encodedPath parsed) =
      some ⟨[], [], quote pathSafe (normalizedPath (unquote parsed.path)),
        quote querySafe parsed.query, []⟩ := by
  obtain ⟨rest, hrest, heq⟩ := h.normalized_cases
  rw [if_neg hslashes] at heq
  rw [encodedPath, heq, quote_path_slash]
  apply Urls.urlsplit_withQuery (head_quote_path hrest)
  · intro ch hch
    rw [← quote_path_slash, List.mem_append] at hch
    rcases hch with hch | hch
    · exact ⟨(mem_quote_path hch).1, (mem_quote_path hch).2.2.2.1⟩
    · have hkept := kept_querySafe (mem_quote_query hch)
      exact ⟨hkept.1, hkept.2.2.1⟩
  · rw [← quote_path_slash]
    exact query_notMem_quote _

/-- A path below two slashes is no path any more. -/
theorem Admitted.urlsplit_twoSlashes (h : Admitted valid allowed x parsed)
    (hslashes : initialSlashes (unquote parsed.path) = 2) {r : SplitResult}
    (hr : urlsplit valid (encodedPath parsed) = some r) :
    r.netloc ≠ [] ∨ r.path.head? ≠ some '/' := by
  obtain ⟨rest, hrest, heq⟩ := h.normalized_cases
  rw [if_pos hslashes] at heq
  have hsplit : encodedPath parsed =
      '/' :: '/' :: (quote pathSafe rest ++ encodedQuery parsed.query) := by
    rw [encodedPath_eq, heq, quote_path_slash, quote_path_slash]
    rfl
  have hlarge : ∀ ch ∈ quote pathSafe rest ++ encodedQuery parsed.query, 32 < ch.toNat := by
    intro ch hch
    refine (@mem_encodedPath parsed ch ?_).1
    rw [hsplit]
    exact List.mem_cons_of_mem _ (List.mem_cons_of_mem _ hch)
  rw [hsplit] at hr
  refine Urls.urlsplit_twoSlashes ?_ hlarge hr
  cases hquote : quote pathSafe rest with
  | nil =>
    unfold encodedQuery
    split_ifs <;> simp
  | cons ch tail =>
    have hhead := head_quote_path hrest
    rw [hquote] at hhead
    exact hhead

/-- Quoting makes no escape that is refused. -/
theorem unsafeEscape_quote {safe text : List Char} (hslash : kept safe '/' = true)
    (hnul : '\x00' ∉ text) (hback : '\\' ∉ text)
    (hpercent : kept safe '%' = true → unsafeEscape text = false) :
    unsafeEscape (quote safe text) = false := by
  -- the bytes that an upper-case escape with these digits stands for
  have hbyte : ∀ n < 256, ∀ d ∈ [('2', 'f'), ('2', 'F'), ('5', 'c'), ('5', 'C'), ('0', '0')],
      Percent.upperDigit (n / 16) = d.1 → Percent.upperDigit (n % 16) = d.2 →
      n = 47 ∨ n = 92 ∨ n = 0 := by
    decide +kernel
  have hdigit : ∀ d ∈ [('2', 'f'), ('2', 'F'), ('5', 'c'), ('5', 'C'), ('0', '0')],
      d.1 ≠ '%' ∧ d.2 ≠ '%' := by
    decide
  rw [Admitted.unsafeEscape_iff]
  intro d hd
  by_contra hhas
  rw [Bool.not_eq_false] at hhas
  rcases Percent.hasEscape_quote (hdigit d hd).1 (hdigit d hd).2 hhas with
    ⟨hkept, hhas⟩ | ⟨ch, hch, hkept, b, hb, hhigh, hlow⟩
  · rw [Admitted.unsafeEscape_iff.mp (hpercent hkept) d hd] at hhas
    cases hhas
  · have hn := hbyte b.toNat (UInt8.toNat_lt_size b) d hd hhigh hlow
    have hnat := Json.utf8EncodeChar_small hb (by omega)
    rcases hn with hn | hn | hn <;> rw [hn] at hnat
    · rw [Percent.char_eq '/' hnat] at hkept
      rw [hslash] at hkept
      cases hkept
    · rw [Percent.char_eq '\\' hnat] at hch
      exact hback hch
    · rw [Percent.char_eq '\x00' hnat] at hch
      exact hnul hch

theorem isControl_small {ch : Char} (h : isControl ch = true) : ch.toNat < 128 := by
  simp only [isControl, Bool.or_eq_true, decide_eq_true_eq] at h
  omega

namespace Admitted

theorem unsafeEscape_encoded (h : Admitted valid allowed x parsed) :
    unsafeEscape (encodedPath parsed) = false := by
  have hnul : '\x00' ∉ normalizedPath (unquote parsed.path) := by
    intro hmem
    have hcontrol := (h.normalized_chars hmem).1
    exact absurd hcontrol (by decide)
  have hback : '\\' ∉ normalizedPath (unquote parsed.path) :=
    fun hmem => (h.normalized_chars hmem).2 rfl
  have hpath : unsafeEscape (quote pathSafe (normalizedPath (unquote parsed.path))) = false :=
    unsafeEscape_quote (by decide) hnul hback fun hkept => absurd hkept (by decide)
  have hquery : unsafeEscape (quote querySafe parsed.query) = false := by
    refine unsafeEscape_quote (by decide) ?_ (fun hmem => h.backslash (h.parts.2.subset hmem)) ?_
    · intro hmem
      exact absurd (h.plain _ (h.parts.2.subset hmem)) (by decide)
    · intro _
      rw [unsafeEscape_iff]
      intro d hd
      by_contra hhas
      rw [Bool.not_eq_false] at hhas
      have hno := unsafeEscape_iff.mp h.escapes d hd
      rw [Percent.hasEscape_mono h.parts.2 hhas] at hno
      cases hno
  rw [encodedPath_eq, encodedQuery]
  split_ifs
  · rw [List.append_nil]
    exact hpath
  · rw [unsafeEscape_iff] at hpath hquery ⊢
    intro d hd
    have hdigit : ∀ d ∈ [('2', 'f'), ('2', 'F'), ('5', 'c'), ('5', 'C'), ('0', '0')],
        '?' ≠ d.1 ∧ '?' ≠ d.2 := by
      decide
    rw [Percent.hasEscape_append (hdigit d hd).1 (hdigit d hd).2, hpath d hd, Bool.false_or, hasEscape,
      hquery d hd]
    rfl

/-- The query has the same control characters behind its escapes as before. -/
theorem controls_encoded (h : Admitted valid allowed x parsed) :
    ∀ ch ∈ normalizedPath (unquote parsed.path) ++ unquote (quote querySafe parsed.query),
      isControl ch = false := by
  intro ch hch
  by_contra hcontrol
  rw [Bool.not_eq_false] at hcontrol
  rcases List.mem_append.mp hch with hch | hch
  · rw [(h.normalized_chars hch).1] at hcontrol
    cases hcontrol
  · rw [Percent.mem_unquote (isControl_small hcontrol),
      Percent.escapedBytes_quote (by decide),
      ← Percent.mem_unquote (isControl_small hcontrol)] at hch
    rw [h.controls ch (List.mem_append_right _ hch)] at hcontrol
    cases hcontrol

/-- A normalized path is accepted again, and is its own normal form, if its length allows it and it
does not begin with two slashes. -/
theorem again (h : Admitted valid allowed x parsed)
    (hslashes : initialSlashes (unquote parsed.path) ≠ 2)
    (hshort : (encodedPath parsed).length ≤ 4096) :
    validateOriginPath valid allowed (encodedPath parsed) = .ok (encodedPath parsed) := by
  rw [validateOriginPath_iff]
  have hnormal := normalizedPath_normalized h.decoded_ne_nil h.segments hslashes
  refine ⟨_, {
    nonempty := ?_
    short := hshort
    plain := fun ch hch => (mem_encodedPath hch).1.le
    backslash := fun hmem => (mem_encodedPath hmem).2.2.2 rfl
    escapes := h.unsafeEscape_encoded
    split := h.urlsplit_encodedPath hslashes
    relative := ⟨rfl, rfl, rfl⟩
    absolute := ?_
    controls := ?_
    segments := ?_
    within := ?_ }, ?_⟩
  · obtain ⟨rest, -, heq⟩ := h.normalized_cases
    rw [encodedPath_eq, heq, if_neg hslashes, quote_path_slash]
    simp
  · obtain ⟨rest, -, heq⟩ := h.normalized_cases
    dsimp only
    rw [heq, if_neg hslashes, quote_path_slash]
    rfl
  · dsimp only
    rw [unquote_quote_path]
    exact h.controls_encoded
  · dsimp only
    rw [unquote_quote_path]
    exact h.normalized_segments
  · dsimp only
    rw [unquote_quote_path, hnormal]
    exact h.within
  · rw [encodedPath, encodedPath]
    dsimp only
    rw [unquote_quote_path, hnormal, Percent.quote_eq_self fun ch hch => mem_quote_query hch]

/-- Nothing else is accepted again. -/
theorem of_again (h : Admitted valid allowed x parsed)
    (hagain : validateOriginPath valid allowed (encodedPath parsed) = .ok p) :
    initialSlashes (unquote parsed.path) ≠ 2 ∧ (encodedPath parsed).length ≤ 4096 := by
  obtain ⟨parsed', h', -⟩ := validateOriginPath_iff.mp hagain
  refine ⟨fun hslashes => ?_, h'.short⟩
  rcases h.urlsplit_twoSlashes hslashes h'.split with hne | hne
  · exact hne h'.relative.2.1
  · exact hne h'.absolute

end Admitted

/-! ## Confinement -/

theorem matchesPrefix_cases {path text : List Char} (habsolute : path.head? = some '/')
    (h : matchesPrefix path text = true) :
    (text.getLast? = some '/' ∧ (text <+: path ∨ path = text.dropLast)) ∨
      (text.getLast? ≠ some '/' ∧ (path = text ∨ text ++ ['/'] <+: path)) := by
  unfold matchesPrefix at h
  split_ifs at h with hroot hlast
  · subst hroot
    refine .inl ⟨rfl, .inl ?_⟩
    cases path with
    | nil => cases habsolute
    | cons ch rest => exact ⟨rest, by rw [Option.some.inj habsolute]; rfl⟩
  · rw [Bool.or_eq_true, List.isPrefixOf_iff_prefix, decide_eq_true_eq] at h
    exact .inl ⟨hlast, h⟩
  · rw [Bool.or_eq_true, List.isPrefixOf_iff_prefix, decide_eq_true_eq] at h
    exact .inr ⟨hlast, h⟩

/-- The prefix itself, or a path below it. -/
def Below (path text : List Char) : Prop :=
  path = text ∨ (if text.getLast? = some '/' then text else text ++ ['/']) <+: path

instance (path text : List Char) : Decidable (Below path text) := by
  unfold Below
  infer_instance

theorem below_of_matchesPrefix {path text : List Char} (habsolute : path.head? = some '/')
    (h : matchesPrefix path text = true) :
    Below path text ∨ text.getLast? = some '/' ∧ path = text.dropLast := by
  obtain ⟨hlast, hpath | hpath⟩ | ⟨hlast, hpath⟩ := matchesPrefix_cases habsolute h
  · left
    right
    rwa [if_pos hlast]
  · exact .inr ⟨hlast, hpath⟩
  · left
    unfold Below
    rwa [if_neg hlast]

/-- A returned path, read as a reference to a URL. -/
theorem path_confined (valid : List Char → Bool) (allowed : List AllowedPrefix) {x p : List Char}
    (h : validateOriginPath valid allowed x = .ok p) :
    let path := unquote (splitOnce '?' p).1
    (∃ parsed, urlsplit valid x = some parsed ∧ path = normalizedPath (unquote parsed.path)) ∧
    p.head? = some '/' ∧
    (∀ ch ∈ p, 32 < ch.toNat ∧ ch.toNat ≠ 127 ∧ ch ≠ '\\' ∧ ch ≠ '#') ∧
    (initialSlashes path ≠ 2 → urlsplit valid p =
      some ⟨[], [], (splitOnce '?' p).1, (splitOnce '?' p).2, []⟩) ∧
    path.head? = some '/' ∧
    (∀ s ∈ path.splitOn '/', s ≠ ['.'] ∧ s ≠ ['.', '.']) ∧
    (∀ ch ∈ path, 32 ≤ ch.toNat ∧ ch.toNat ≠ 127 ∧ ch ≠ '\\') ∧
    ∃ a ∈ allowed, Below path a.text ∨ a.text.getLast? = some '/' ∧ path = a.text.dropLast := by
  obtain ⟨parsed, hadmitted, rfl⟩ := validateOriginPath_iff.mp h
  have hhead := hadmitted.head_normalized
  obtain ⟨a, ha, hmatch⟩ := hadmitted.within
  dsimp only
  rw [splitOnce_encodedPath, unquote_quote_path]
  refine ⟨⟨parsed, hadmitted.split, rfl⟩, ?_, fun ch hch => ?_, fun hslashes => ?_, hhead,
    hadmitted.normalized_segments, fun ch hch => ?_, a, ha, below_of_matchesPrefix hhead hmatch⟩
  · obtain ⟨rest, -, heq⟩ := hadmitted.normalized_cases
    rw [encodedPath_eq, heq]
    split_ifs <;> rw [quote_path_slash] <;> rfl
  · obtain ⟨hlow, hhigh, hfragment, hback⟩ := mem_encodedPath hch
    exact ⟨hlow, by omega, hback, hfragment⟩
  · apply hadmitted.urlsplit_encodedPath
    intro htwo
    rw [hadmitted.initialSlashes_eq, if_pos htwo] at hslashes
    exact hslashes rfl
  · obtain ⟨hcontrol, hback⟩ := hadmitted.normalized_chars hch
    simp only [isControl, Bool.or_eq_false_iff, decide_eq_false_iff_not] at hcontrol
    exact ⟨by omega, hcontrol.2, hback⟩

def below (text : String) (h : validatePrefix text.toList = some text.toList) : AllowedPrefix :=
  ⟨text.toList, text.toList, h⟩

theorem tea_path_confined :
    validateOriginPath (fun _ => true) [below "/api/" (by decide)] "/api//t%65a?q=%2b".toList =
      .ok "/api/tea?q=%2b".toList ∧
    unquote "/api/tea".toList = "/api/tea".toList ∧
    ∃ a ∈ [below "/api/" (by decide)], Below "/api/tea".toList a.text ∨
      a.text.getLast? = some '/' ∧ "/api/tea".toList = a.text.dropLast := by
  have hvalidate : validateOriginPath (fun _ => true) [below "/api/" (by decide)]
      "/api//t%65a?q=%2b".toList = .ok "/api/tea?q=%2b".toList := by
    decide
  have hpath : unquote (splitOnce '?' "/api/tea?q=%2b".toList).1 = "/api/tea".toList := by
    decide
  have hconfined := path_confined (fun _ => true) [below "/api/" (by decide)] hvalidate
  rw [hpath] at hconfined
  exact ⟨hvalidate, hpath, hconfined.2.2.2.2.2.2.2⟩

/-- The directory of a prefix is admitted without its slash. -/
theorem directory_admitted :
    ¬ ∀ (valid : List Char → Bool) (allowed : List AllowedPrefix) (x p : List Char),
      validateOriginPath valid allowed x = .ok p →
      ∃ a ∈ allowed, Below (unquote (splitOnce '?' p).1) a.text := by
  intro h
  have hvalidate : validateOriginPath (fun _ => true) [below "/api/" (by decide)] "/api".toList =
      .ok "/api".toList := by
    decide
  have hno : ¬∃ a ∈ [below "/api/" (by decide)],
      Below (unquote (splitOnce '?' "/api".toList).1) a.text := by
    decide
  exact hno (h _ _ _ _ hvalidate)

/-! ## Refreshes -/

theorem quotedLength_append (safe a b : List Char) :
    quotedLength safe (a ++ b) = quotedLength safe a + quotedLength safe b := by
  rw [quotedLength, quotedLength, quotedLength, Json.utf8, List.flatMap_append, List.map_append,
    List.sum_append]
  rfl

theorem quotedLength_join {segments : List (List Char)} (h : segments ≠ []) :
    quotedLength pathSafe ('/' :: join segments) =
      (segments.map fun s => 1 + quotedLength pathSafe s).sum := by
  have hslash : ∀ text : List Char,
      quotedLength pathSafe ('/' :: text) = 1 + quotedLength pathSafe text := by
    intro text
    rw [← List.singleton_append, quotedLength_append]
    rfl
  rw [hslash]
  induction segments with
  | nil => exact absurd rfl h
  | cons s segments ih =>
    by_cases hnil : segments = []
    · rw [hnil, Urls.join_singleton]
      simp
    · rw [Urls.join_cons s hnil, quotedLength_append, hslash, ih hnil, List.map_cons, List.sum_cons,
        Nat.add_assoc]

/-- The characters that the segments of a decoded path take when they are quoted, each behind a
slash, and then the query. -/
def encodedLength (parsed : SplitResult) : ℕ :=
  ((components (unquote parsed.path)).map fun s => 1 + quotedLength pathSafe s).sum +
    (ending (unquote parsed.path)).length +
    (if parsed.query = [] then 0 else 1 + quotedLength querySafe parsed.query)

theorem Admitted.length_encodedPath (h : Admitted valid allowed x parsed)
    (hslashes : initialSlashes (unquote parsed.path) ≠ 2) :
    (encodedPath parsed).length = encodedLength parsed := by
  obtain ⟨hmore, heq⟩ := join_normalizedSegments (unquote parsed.path)
  have hending : ((ending (unquote parsed.path)).map fun s => 1 + quotedLength pathSafe s).sum =
      (ending (unquote parsed.path)).length := by
    unfold ending
    split_ifs <;> rfl
  rw [encodedPath_eq, List.length_append, Percent.length_quote,
    normalizedPath_eq h.decoded_ne_nil h.segments, heq, if_neg hslashes, quotedLength_join hmore,
    List.map_append, List.sum_append, hending, encodedLength, encodedQuery]
  split_ifs
  · rfl
  · rw [List.length_cons, Percent.length_quote, Nat.add_comm 1]

theorem Admitted.again_iff (h : Admitted valid allowed x parsed) :
    validateOriginPath valid allowed (encodedPath parsed) = .ok (encodedPath parsed) ↔
      initialSlashes (unquote parsed.path) ≠ 2 ∧ encodedLength parsed ≤ 4096 := by
  constructor
  · intro hagain
    obtain ⟨hslashes, hshort⟩ := h.of_again hagain
    exact ⟨hslashes, h.length_encodedPath hslashes ▸ hshort⟩
  · rintro ⟨hslashes, hshort⟩
    exact h.again hslashes (h.length_encodedPath hslashes ▸ hshort)

/-- The worker's fetch for a job that `call` scheduled is accepted, and addresses the same resource
under the same coordination key and lineage. -/
def Refreshes (c : FetchConfig) (s : FetchService) (call : FetchCall) : Prop :=
  ∃ refresh, (s.fetch c call.key call.origin.name call.path true).calls = s.calls ++ [refresh] ∧
    refresh.origin = call.origin ∧ refresh.path = call.path ∧
    c.coordinationKey refresh.origin.name refresh.key refresh.path =
      c.coordinationKey call.origin.name call.key call.path ∧
    c.sha256 refresh.path = c.sha256 call.path

/-- The call that `fetch` makes. -/
theorem FetchService.fetch_cases {c : FetchConfig} {s : FetchService} {key : Key} {name path : String}
    {force : Bool} {call : FetchCall}
    (h : (s.fetch c key name path force).calls = s.calls ++ [call]) :
    s.closed = false ∧ ∃ origin requestPath,
      c.origins.find? (fun origin => origin.name = name) = some origin ∧
      c.validateOriginPath origin path = .ok requestPath ∧
      call = ⟨key, origin, requestPath, force, .reads, none⟩ := by
  have hself : s.calls ≠ s.calls ++ [call] := by simp
  unfold FetchService.fetch at h
  split_ifs at h with hclosed
  · exact absurd h hself
  · split at h
    · exact absurd h hself
    · next origin hfind =>
      split at h
      · exact absurd h hself
      · next requestPath hvalidate =>
        obtain rfl := List.singleton_injective (List.append_cancel_left h)
        exact ⟨by simpa using hclosed, origin, requestPath, hfind, hvalidate, rfl⟩

/-- A path that was accepted is its own normal form, and every refresh of a call for it is accepted
for the same resource, exactly if the decoded path does not begin with two slashes and the quoted
one is not too long. -/
theorem refresh_addresses_iff (c : FetchConfig) (valid : List Char → Bool)
    (allowed : HTTPOrigin → List AllowedPrefix)
    (hvalidate : ∀ origin x p, c.validateOriginPath origin x = .ok p ↔
      validateOriginPath valid (allowed origin) x.toList = .ok p.toList)
    (s₀ s : FetchService) (hopen : s.closed = false) {key : Key} {name x : String} {call : FetchCall}
    (hcall : (s₀.fetch c key name x false).calls = s₀.calls ++ [call])
    {parsed : SplitResult} (hsplit : urlsplit valid x.toList = some parsed) :
    (c.validateOriginPath call.origin call.path = .ok call.path ∧ Refreshes c s call) ↔
      initialSlashes (unquote parsed.path) ≠ 2 ∧ encodedLength parsed ≤ 4096 := by
  obtain ⟨-, origin, path, hfind, hok, rfl⟩ := FetchService.fetch_cases hcall
  obtain ⟨parsed', hadmitted, hpath⟩ := validateOriginPath_iff.mp ((hvalidate _ _ _).mp hok)
  obtain rfl : parsed = parsed' := Option.some.inj (hsplit.symm.trans hadmitted.split)
  have hname : origin.name = name := by simpa using List.find?_some hfind
  dsimp only
  rw [← hadmitted.again_iff, ← hpath, ← hvalidate]
  refine ⟨fun h => h.1, fun h => ⟨h, ?_⟩⟩
  refine ⟨⟨key, origin, path, true, .reads, none⟩, ?_, rfl, rfl, rfl, rfl⟩
  rw [← hname] at hfind
  unfold FetchService.fetch
  simp only [hopen, hfind, h, Bool.false_eq_true, if_false]

/-- The service with one origin, whose paths are validated. -/
def validating (allowed : List AllowedPrefix) : FetchConfig where
  __ := FetchService.oneOrigin
  validateOriginPath _ path :=
    match validateOriginPath (fun _ => true) allowed path.toList with
    | .ok p => .ok (String.ofList p)
    | .error (.policy message) => .error (.policy message)
    | .error .valueError => .error (.policy "")
  path_plain := by
    intro origin path normalized h
    split at h
    · next p hp =>
      obtain ⟨parsed, -, rfl⟩ := validateOriginPath_iff.mp hp
      obtain rfl := Except.ok.inj h
      rw [String.toList_ofList]
      intro hmem
      exact absurd (mem_encodedPath hmem).1 (by decide)
    · cases h
    · cases h

theorem validating_iff (allowed : List AllowedPrefix) (origin : HTTPOrigin) (x p : String) :
    (validating allowed).validateOriginPath origin x = .ok p ↔
      validateOriginPath (fun _ => true) allowed x.toList = .ok p.toList := by
  change (match validateOriginPath (fun _ => true) allowed x.toList with
    | .ok p => Except.ok (String.ofList p)
    | .error (.policy message) => .error (OriginError.policy message)
    | .error .valueError => .error (OriginError.policy "")) = .ok p ↔ _
  constructor
  · intro h
    split at h
    · next q hq =>
      obtain rfl := Except.ok.inj h
      rw [hq, String.toList_ofList]
    · cases h
    · cases h
  · intro h
    rw [h]
    exact congrArg Except.ok (String.ofList_toList)

theorem tea_refreshed :
    let c := validating [below "/api/" (by decide)]
    let s := FetchService.init.fetch c "k" "api" "/api//t%65a?q=%2b" false
    ∃ call, s.calls = [call] ∧
      c.validateOriginPath call.origin call.path = .ok call.path ∧ Refreshes c s call := by
  dsimp only
  have hok : (validating [below "/api/" (by decide)]).validateOriginPath Gate.brittle
      "/api//t%65a?q=%2b" = .ok "/api/tea?q=%2b" := by
    rw [validating_iff]
    decide
  have hcalls : (FetchService.init.fetch (validating [below "/api/" (by decide)]) "k" "api"
      "/api//t%65a?q=%2b" false).calls =
      [] ++ [⟨"k", Gate.brittle, "/api/tea?q=%2b", false, .reads, none⟩] := by
    have hfind : (validating [below "/api/" (by decide)]).origins.find?
        (fun origin => origin.name = "api") = some Gate.brittle := by
      rfl
    unfold FetchService.fetch
    simp only [FetchService.init, Bool.false_eq_true, if_false, hfind, hok]
  have hsplit : urlsplit (fun _ => true) "/api//t%65a?q=%2b".toList =
      some ⟨[], [], "/api//t%65a".toList, "q=%2b".toList, []⟩ := by
    decide
  refine ⟨_, hcalls, (refresh_addresses_iff (validating [below "/api/" (by decide)]) (fun _ => true)
    (fun _ => [below "/api/" (by decide)]) (validating_iff _) FetchService.init _ ?_ hcalls
    hsplit).mpr ?_⟩
  · unfold FetchService.fetch
    simp only [FetchService.init, Bool.false_eq_true, if_false]
    split
    · rfl
    · split <;> rfl
  · decide

/-- A path that begins with two slashes after it was normalized is refused the next time. -/
theorem twoSlashes_refused :
    ¬ ∀ (valid : List Char → Bool) (allowed : List AllowedPrefix) (x p : List Char),
      validateOriginPath valid allowed x = .ok p → validateOriginPath valid allowed p = .ok p := by
  intro h
  have hfirst : validateOriginPath (fun _ => true) [below "/" (by decide)] "////files/a".toList =
      .ok "//files/a".toList := by
    decide
  have hsecond : validateOriginPath (fun _ => true) [below "/" (by decide)] "//files/a".toList ≠
      .ok "//files/a".toList := by
    decide
  exact hsecond (h _ _ _ _ hfirst)

end Origin
end MegaCache
