import MegaCache.Lib.Quoting
import MegaCache.Lib.Urls

/-!
# Paths of an origin

`validate_origin_path`: a path is decoded once, normalized, compared with the allowed prefixes and
encoded again.
-/

namespace MegaCache
namespace Origin

open Percent (unquote quote kept hasEscape escapedBytes quotedLength)
open Urls (SplitResult urlsplit splitOnce withQuery normpath initialSlashes join components Plain Solid)

/-! ## Prefixes -/

/-- `_validate_prefix` -/
def validatePrefix (value : List Char) : Option (List Char) :=
  if value.head? ≠ some '/' ∨ '\\' ∈ value ∨ '?' ∈ value ∨ '#' ∈ value ∨
      ∃ segment ∈ value.splitOn '/', segment = ['.'] ∨ segment = ['.', '.'] then none
  else if value.getLast? = some '/' ∧ (normpath value).getLast? ≠ some '/' then
    some (normpath value ++ ['/'])
  else some (normpath value)

/-- A prefix that was accepted. -/
structure AllowedPrefix where
  text : List Char
  accepted : ∃ value, validatePrefix value = some text

/-- `_matches_prefix` -/
def matchesPrefix (path text : List Char) : Bool :=
  if text = ['/'] then true
  else if text.getLast? = some '/' then text.isPrefixOf path || path = text.dropLast
  else path = text || (text ++ ['/']).isPrefixOf path

/-! ## Validation -/

inductive PathError
  | policy (message : String)
  /-- raised by `urlsplit` -/
  | valueError
deriving DecidableEq, Repr

/-- The escapes that `validate_origin_path` refuses. -/
def unsafeEscape (path : List Char) : Bool :=
  hasEscape '2' 'f' path || hasEscape '2' 'F' path || hasEscape '5' 'c' path ||
    hasEscape '5' 'C' path || hasEscape '0' '0' path

def isControl (ch : Char) : Bool := ch.toNat < 32 || ch.toNat = 127

/-- The path to compare with the prefixes, from the decoded one. -/
def normalizedPath (decoded : List Char) : List Char :=
  let normalized := normpath decoded
  let normalized :=
    if decoded.getLast? = some '/' ∧ normalized.getLast? ≠ some '/' then normalized ++ ['/']
    else normalized
  if normalized.head? ≠ some '/' then '/' :: normalized else normalized

/-- What stays as it is in a path. -/
def pathSafe : List Char := "/:@!$&'()*+,;=-._~".toList

/-- What stays as it is in a query. -/
def querySafe : List Char := "!$&'()*+,;=:@/?-._~%".toList

def encodedQuery (query : List Char) : List Char :=
  if query = [] then [] else '?' :: quote querySafe query

/-- `validate_origin_path`.  `valid` says which network locations `urlsplit` accepts. -/
def validateOriginPath (valid : List Char → Bool) (allowed : List AllowedPrefix)
    (path : List Char) : Except PathError (List Char) :=
  if path = [] ∨ 4096 < path.length then
    throw (.policy "origin path must contain 1 to 4096 characters")
  else if (path.any fun ch => ch.toNat < 32) ∨ '\\' ∈ path ∨ unsafeEscape path then
    throw (.policy "origin path contains unsafe characters")
  else
    match urlsplit valid path with
    | none => throw .valueError
    | some parsed =>
      if parsed.scheme ≠ [] ∨ parsed.netloc ≠ [] ∨ parsed.fragment ≠ [] ∨
          parsed.path.head? ≠ some '/' then
        throw (.policy "origin fetch accepts only an absolute path, never a URL")
      else if (unquote parsed.path ++ unquote parsed.query).any isControl then
        throw (.policy "origin path contains encoded control characters")
      else if ∃ segment ∈ (unquote parsed.path).splitOn '/',
          segment = ['.'] ∨ segment = ['.', '.'] then
        throw (.policy "origin path must not contain dot segments")
      else if ¬∃ p ∈ allowed, matchesPrefix (normalizedPath (unquote parsed.path)) p.text then
        throw (.policy "origin path is outside the allowed prefixes")
      else
        pure (quote pathSafe (normalizedPath (unquote parsed.path)) ++ encodedQuery parsed.query)

/-! ## Normalized paths -/

/-- What follows the segments of a normalized path. -/
def ending (decoded : List Char) : List (List Char) :=
  if components decoded = [] ∨ decoded.getLast? = some '/' then [[]] else []

/-- The segments of a normalized path: nothing before the first slash, and again nothing after it
if the path began with two. -/
def normalizedSegments (decoded : List Char) : List (List Char) :=
  (if initialSlashes decoded = 2 then [[], []] else [[]]) ++ components decoded ++ ending decoded

theorem head_of_components_eq_nil {decoded : List Char} (hne : decoded ≠ [])
    (h : components decoded = []) : decoded.head? = some '/' := by
  obtain ⟨ch, rest, rfl⟩ := List.exists_cons_of_ne_nil hne
  by_contra hhead
  have hch : ¬(ch == '/') = true := by simpa using hhead
  obtain ⟨s, segments, hsegments⟩ := List.exists_cons_of_ne_nil (List.splitOn_ne_nil '/' rest)
  rw [components, List.splitOn_cons_eq_if_modifyHead, if_neg hch, hsegments,
    List.modifyHead_cons] at h
  simp at h

theorem initialSlashes_cases (path : List Char) :
    (initialSlashes path = 0 ∧ path.head? ≠ some '/') ∨
      (initialSlashes path = 1 ∨ initialSlashes path = 2) ∧ path.head? = some '/' := by
  unfold initialSlashes
  split
  · exact .inr ⟨.inl rfl, rfl⟩
  · exact .inr ⟨.inr rfl, rfl⟩
  · exact .inr ⟨.inl rfl, rfl⟩
  · refine .inl ⟨rfl, fun hhead => ?_⟩
    cases path with
    | nil => cases hhead
    | cons ch rest =>
      obtain rfl := Option.some.inj hhead
      rename_i hno
      exact hno rest rfl

theorem normalizedPath_eq {decoded : List Char} (hne : decoded ≠ [])
    (h : ∀ s ∈ decoded.splitOn '/', Plain s) :
    normalizedPath decoded = join (normalizedSegments decoded) := by
  have hsolid : Solid (components decoded) := Urls.solid_components decoded
  have hnorm := Urls.normpath_plain hne h
  change normpath decoded =
    if List.replicate (initialSlashes decoded) '/' ++ join (components decoded) = [] then ['.']
    else List.replicate (initialSlashes decoded) '/' ++ join (components decoded) at hnorm
  by_cases hnil : components decoded = []
  · -- nothing but slashes
    have hhead := head_of_components_eq_nil hne hnil
    obtain ⟨-, hhead'⟩ | ⟨hk | hk, -⟩ := initialSlashes_cases decoded
    · exact absurd hhead hhead'
    all_goals
      rw [hnil, hk] at hnorm
      rw [normalizedPath, hnorm, normalizedSegments, ending, hnil, hk]
      simp [join, List.replicate]
  · have hjoined : join (components decoded) ≠ [] := hsolid.join_ne_nil hnil
    have hlast : (List.replicate (initialSlashes decoded) '/' ++ join (components decoded)).getLast? ≠
        some '/' := by
      rw [List.getLast?_append, List.getLast?_eq_some_getLast hjoined, Option.some_or,
        ← List.getLast?_eq_some_getLast hjoined]
      exact hsolid.getLast_join
    have hend : (if decoded.getLast? = some '/' then join (components decoded) ++ ['/']
        else join (components decoded)) = join (components decoded ++ ending decoded) := by
      unfold ending
      by_cases hslash : decoded.getLast? = some '/'
      · rw [if_pos hslash, if_pos (.inr hslash), Urls.join_concat hnil]
      · rw [if_neg hslash, if_neg (by simp [hnil, hslash]), List.append_nil]
    have hmore : components decoded ++ ending decoded ≠ [] := by simp [hnil]
    have hnormal : normpath decoded =
        List.replicate (initialSlashes decoded) '/' ++ join (components decoded) := by
      rw [hnorm]
      exact if_neg (by simp [hjoined])
    have hfirst : (if decoded.getLast? = some '/' ∧ (normpath decoded).getLast? ≠ some '/' then
        normpath decoded ++ ['/'] else normpath decoded) =
        List.replicate (initialSlashes decoded) '/' ++
          join (components decoded ++ ending decoded) := by
      rw [← hend, hnormal]
      by_cases hslash : decoded.getLast? = some '/'
      · rw [if_pos ⟨hslash, hlast⟩, if_pos hslash, List.append_assoc]
      · rw [if_neg (by simp [hslash]), if_neg hslash]
    rw [normalizedPath, hfirst, normalizedSegments]
    obtain ⟨hk, -⟩ | ⟨hk | hk, -⟩ := initialSlashes_cases decoded <;> rw [hk]
    · have hhead : (join (components decoded ++ ending decoded)).head? ≠ some '/' := by
        rw [← hend]
        split_ifs
        · rw [List.head?_append_of_ne_nil _ hjoined]
          exact hsolid.head_join
        · exact hsolid.head_join
      rw [List.replicate_zero, List.nil_append, if_pos hhead, if_neg (by decide), List.append_assoc,
        List.singleton_append, Urls.join_cons [] hmore]
      rfl
    · rw [if_neg (by simp), if_neg (by decide), List.append_assoc, List.singleton_append,
        Urls.join_cons [] hmore]
      rfl
    · rw [if_neg (by simp [List.replicate]), if_pos rfl, List.append_assoc]
      change _ = join ([] :: [] :: (components decoded ++ ending decoded))
      rw [Urls.join_cons [] (by simp), Urls.join_cons [] hmore]
      rfl

theorem eq_nil_of_mem_ending {decoded s : List Char} (h : s ∈ ending decoded) : s = [] := by
  unfold ending at h
  split_ifs at h
  · exact List.mem_singleton.mp h
  · cases h

/-- A segment of a normalized path is empty or one of the decoded path. -/
theorem mem_normalizedSegments {decoded s : List Char} (h : s ∈ normalizedSegments decoded) :
    s = [] ∨ s ∈ components decoded := by
  rw [normalizedSegments, List.mem_append, List.mem_append] at h
  rcases h with (h | h) | h
  · left
    split_ifs at h <;> simpa using h
  · exact .inr h
  · exact .inl (eq_nil_of_mem_ending h)

theorem normalizedSegments_ne_nil (decoded : List Char) : normalizedSegments decoded ≠ [] := by
  unfold normalizedSegments
  split_ifs <;> simp

theorem splitOn_normalized (decoded : List Char) :
    (join (normalizedSegments decoded)).splitOn '/' = normalizedSegments decoded := by
  apply Urls.splitOn_join _ (normalizedSegments_ne_nil decoded)
  intro s hs
  rcases mem_normalizedSegments hs with rfl | hs
  · simp
  · exact (Urls.solid_components decoded s hs).2

theorem components_normalized (decoded : List Char) :
    components (join (normalizedSegments decoded)) = components decoded := by
  have hfront : ∀ segments : List (List Char), (∀ s ∈ segments, s = []) →
      segments.filter (fun s => decide (s ≠ [])) = [] := by
    intro segments h
    apply List.filter_eq_nil_iff.mpr
    intro s hs
    simp [h s hs]
  have hself : (components decoded).filter (fun s => decide (s ≠ [])) = components decoded := by
    apply List.filter_eq_self.mpr
    intro s hs
    simpa using (Urls.solid_components decoded s hs).1
  rw [components, splitOn_normalized, normalizedSegments, List.filter_append, List.filter_append,
    hself, hfront (ending decoded) fun s => eq_nil_of_mem_ending, hfront, List.nil_append,
    List.append_nil]
  intro s hs
  split_ifs at hs <;> simpa using hs

/-- A normalized path, one or two slashes taken off. -/
theorem join_normalizedSegments (decoded : List Char) :
    components decoded ++ ending decoded ≠ [] ∧
    join (normalizedSegments decoded) =
      if initialSlashes decoded = 2 then '/' :: '/' :: join (components decoded ++ ending decoded)
      else '/' :: join (components decoded ++ ending decoded) := by
  have hmore : components decoded ++ ending decoded ≠ [] := by
    unfold ending
    by_cases hnil : components decoded = []
    · simp [hnil]
    · simp [hnil]
  refine ⟨hmore, ?_⟩
  rw [normalizedSegments, List.append_assoc]
  split_ifs
  · change join ([] :: [] :: (components decoded ++ ending decoded)) = _
    rw [Urls.join_cons [] (by simp), Urls.join_cons [] hmore]
    rfl
  · rw [List.singleton_append, Urls.join_cons [] hmore]
    rfl

theorem head_join_rest (decoded : List Char) :
    (join (components decoded ++ ending decoded)).head? ≠ some '/' := by
  have hsolid := Urls.solid_components decoded
  by_cases hnil : components decoded = []
  · rw [hnil, ending, if_pos (.inl hnil)]
    simp [join, List.intercalate]
  · unfold ending
    split_ifs
    · rw [Urls.join_concat hnil, List.head?_append_of_ne_nil _ (hsolid.join_ne_nil hnil)]
      exact hsolid.head_join
    · rw [List.append_nil]
      exact hsolid.head_join

theorem initialSlashes_normalized (decoded : List Char) :
    initialSlashes (join (normalizedSegments decoded)) =
      if initialSlashes decoded = 2 then 2 else 1 := by
  have hrest := head_join_rest decoded
  rw [(join_normalizedSegments decoded).2]
  cases hjoin : join (components decoded ++ ending decoded) with
  | nil => split_ifs <;> rfl
  | cons ch rest =>
    rw [hjoin] at hrest
    have hch : ch ≠ '/' := fun hch => hrest (by rw [hch]; rfl)
    split_ifs <;> simp [initialSlashes, hch]

theorem ending_normalized (decoded : List Char) :
    ending (join (normalizedSegments decoded)) = ending decoded := by
  have hsolid := Urls.solid_components decoded
  rw [ending, components_normalized]
  by_cases hnil : components decoded = []
  · rw [if_pos (.inl hnil), ending, if_pos (.inl hnil)]
  · have hlast : (join (normalizedSegments decoded)).getLast? =
        (join (components decoded ++ ending decoded)).getLast? := by
      have hne : join (components decoded ++ ending decoded) ≠ [] := by
        unfold ending
        split_ifs
        · rw [Urls.join_concat hnil]
          simp
        · rw [List.append_nil]
          exact hsolid.join_ne_nil hnil
      obtain ⟨ch, rest, hjoin⟩ := List.exists_cons_of_ne_nil hne
      rw [(join_normalizedSegments decoded).2, hjoin]
      split_ifs <;> rfl
    by_cases hslash : decoded.getLast? = some '/'
    · have hending : ending decoded = [[]] := if_pos (.inr hslash)
      rw [hlast, hending, Urls.join_concat hnil, List.getLast?_append]
      simp
    · have hending : ending decoded = [] := if_neg (by simp [hnil, hslash])
      rw [hlast, hending, List.append_nil]
      exact if_neg (by simp [hnil, hsolid.getLast_join])

/-- A normalized path stays, unless it begins with two slashes. -/
theorem normalizedPath_normalized {decoded : List Char} (hne : decoded ≠ [])
    (h : ∀ s ∈ decoded.splitOn '/', Plain s) (hslashes : initialSlashes decoded ≠ 2) :
    normalizedPath (normalizedPath decoded) = normalizedPath decoded := by
  have hplain : ∀ s ∈ (normalizedPath decoded).splitOn '/', Plain s := by
    rw [normalizedPath_eq hne h, splitOn_normalized]
    intro s hs
    rcases mem_normalizedSegments hs with rfl | hs
    · exact ⟨by simp, by simp⟩
    · exact h s (List.mem_filter.mp hs).1
  have hne' : normalizedPath decoded ≠ [] := by
    rw [normalizedPath_eq hne h, (join_normalizedSegments decoded).2]
    split_ifs <;> simp
  rw [normalizedPath_eq hne' hplain, normalizedPath_eq hne h]
  congr 1
  rw [normalizedSegments, components_normalized, ending_normalized, initialSlashes_normalized,
    if_neg hslashes, if_neg (by decide), normalizedSegments, if_neg hslashes]

/-- Every character of a normalized path is a slash or one of the decoded path. -/
theorem mem_normalizedPath {decoded : List Char} (hne : decoded ≠ [])
    (h : ∀ s ∈ decoded.splitOn '/', Plain s) {ch : Char} (hch : ch ∈ normalizedPath decoded) :
    ch = '/' ∨ ch ∈ decoded := by
  rw [normalizedPath_eq hne h] at hch
  rcases Urls.mem_join hch with hch | ⟨s, hs, hch⟩
  · exact .inl hch
  · rcases mem_normalizedSegments hs with rfl | hs
    · cases hch
    · exact .inr (Urls.mem_of_mem_splitOn (List.mem_filter.mp hs).1 hch)

/-! ## What is accepted -/

variable {valid : List Char → Bool} {allowed : List AllowedPrefix} {x p : List Char}
  {parsed : SplitResult}

/-- The checks of `validate_origin_path`, with what `urlsplit` made of the path. -/
structure Admitted (valid : List Char → Bool) (allowed : List AllowedPrefix) (x : List Char)
    (parsed : SplitResult) : Prop where
  nonempty : x ≠ []
  short : x.length ≤ 4096
  plain : ∀ ch ∈ x, 32 ≤ ch.toNat
  backslash : '\\' ∉ x
  escapes : unsafeEscape x = false
  split : urlsplit valid x = some parsed
  relative : parsed.scheme = [] ∧ parsed.netloc = [] ∧ parsed.fragment = []
  absolute : parsed.path.head? = some '/'
  controls : ∀ ch ∈ unquote parsed.path ++ unquote parsed.query, isControl ch = false
  segments : ∀ s ∈ (unquote parsed.path).splitOn '/', Plain s
  within : ∃ a ∈ allowed, matchesPrefix (normalizedPath (unquote parsed.path)) a.text = true

/-- The path that is returned. -/
def encodedPath (parsed : SplitResult) : List Char :=
  withQuery (quote pathSafe (normalizedPath (unquote parsed.path))) (quote querySafe parsed.query)

theorem quote_eq_nil {safe text : List Char} : quote safe text = [] ↔ text = [] := by
  constructor
  · intro h
    cases text with
    | nil => rfl
    | cons ch text =>
      cases hch : kept safe ch with
      | true =>
        rw [Percent.quote_cons_kept hch] at h
        cases h
      | false =>
        rw [Percent.quote_cons_other hch, List.append_eq_nil_iff] at h
        obtain ⟨b, bytes, hbytes⟩ := List.exists_cons_of_ne_nil (Percent.utf8EncodeChar_ne_nil ch)
        rw [hbytes] at h
        cases h.1
  · rintro rfl
    rfl

theorem encodedPath_eq (parsed : SplitResult) :
    encodedPath parsed = quote pathSafe (normalizedPath (unquote parsed.path)) ++
      encodedQuery parsed.query := by
  unfold encodedPath withQuery encodedQuery
  simp only [quote_eq_nil]
  split_ifs <;> simp

theorem validateOriginPath_iff : validateOriginPath valid allowed x = .ok p ↔
    ∃ parsed, Admitted valid allowed x parsed ∧ p = encodedPath parsed := by
  constructor
  · intro h
    unfold validateOriginPath at h
    split_ifs at h with hlength hunsafe
    rw [not_or, not_lt] at hlength
    simp only [List.any_eq_true, decide_eq_true_eq, not_or, not_exists, not_and, not_lt] at hunsafe
    cases hsplit : urlsplit valid x with
    | none =>
      rw [hsplit] at h
      cases h
    | some parsed =>
      rw [hsplit] at h
      dsimp only at h
      split_ifs at h with hrelative hcontrols hsegments hwithin
      push Not at hrelative hsegments
      simp only [List.any_eq_true, not_exists, not_and, Bool.not_eq_true] at hcontrols
      obtain rfl := Except.ok.inj h
      refine ⟨parsed, ?_, (encodedPath_eq parsed).symm⟩
      exact {
        nonempty := hlength.1
        short := hlength.2
        plain := hunsafe.1
        backslash := hunsafe.2.1
        escapes := Bool.eq_false_iff.mpr hunsafe.2.2
        split := hsplit
        relative := ⟨hrelative.1, hrelative.2.1, hrelative.2.2.1⟩
        absolute := hrelative.2.2.2
        controls := hcontrols
        segments := hsegments
        within := hwithin }
  · rintro ⟨parsed, h, rfl⟩
    have hlength : ¬(x = [] ∨ 4096 < x.length) := by simp [h.nonempty, h.short]
    have hunsafe : ¬((x.any fun ch => ch.toNat < 32) ∨ '\\' ∈ x ∨ unsafeEscape x) := by
      simp only [List.any_eq_true, decide_eq_true_eq, h.backslash, h.escapes, not_or, not_exists,
        not_and, not_lt]
      exact ⟨h.plain, by simp, by simp⟩
    have hrelative : ¬(parsed.scheme ≠ [] ∨ parsed.netloc ≠ [] ∨ parsed.fragment ≠ [] ∨
        parsed.path.head? ≠ some '/') := by
      simp [h.relative, h.absolute]
    have hcontrols : ¬(unquote parsed.path ++ unquote parsed.query).any isControl = true := by
      rw [Bool.not_eq_true, List.any_eq_false]
      intro ch hch
      rw [h.controls ch hch]
      simp
    have hsegments : ¬∃ segment ∈ (unquote parsed.path).splitOn '/',
        segment = ['.'] ∨ segment = ['.', '.'] := by
      rintro ⟨s, hs, hdots⟩
      exact hdots.elim (h.segments s hs).1 (h.segments s hs).2
    unfold validateOriginPath
    rw [if_neg hlength, if_neg hunsafe, h.split]
    dsimp only
    rw [if_neg hrelative, if_neg hcontrols, if_neg hsegments, if_neg (not_not.mpr h.within),
      ← encodedPath_eq]
    rfl

namespace Admitted

theorem parts (h : Admitted valid allowed x parsed) :
    parsed.path <:+: x ∧ parsed.query <:+: x :=
  Urls.urlsplit_parts h.plain h.split

theorem decoded_ne_nil (h : Admitted valid allowed x parsed) : unquote parsed.path ≠ [] := by
  have hmem : '/' ∈ unquote parsed.path := by
    rw [Percent.mem_unquote (by decide)]
    obtain ⟨rest, hrest⟩ : ∃ rest, parsed.path = '/' :: rest := by
      cases hpath : parsed.path with
      | nil =>
        have habsolute := h.absolute
        rw [hpath] at habsolute
        cases habsolute
      | cons ch rest =>
        have habsolute := h.absolute
        rw [hpath] at habsolute
        exact ⟨rest, by rw [Option.some.inj habsolute]⟩
    rw [hrest, Percent.escapedBytes_cons (by decide)]
    exact List.mem_append_left _ (by decide)
  exact List.ne_nil_of_mem hmem

theorem unsafeEscape_iff {path : List Char} : unsafeEscape path = false ↔
    ∀ d ∈ [('2', 'f'), ('2', 'F'), ('5', 'c'), ('5', 'C'), ('0', '0')],
      hasEscape d.1 d.2 path = false := by
  simp [unsafeEscape, and_assoc]

/-- The decoded path has no backslash. -/
theorem backslash_decoded (h : Admitted valid allowed x parsed) : '\\' ∉ unquote parsed.path := by
  rw [Percent.mem_unquote (by decide)]
  intro hmem
  have hescapes := unsafeEscape_iff.mp h.escapes
  rcases Percent.backslash_escaped hmem with hmem | hhas | hhas
  · exact h.backslash (h.parts.1.subset hmem)
  · have hno := hescapes ('5', 'c') (by simp)
    rw [Percent.hasEscape_mono h.parts.1 hhas] at hno
    cases hno
  · have hno := hescapes ('5', 'C') (by simp)
    rw [Percent.hasEscape_mono h.parts.1 hhas] at hno
    cases hno

/-- The characters of the normalized path. -/
theorem normalized_chars (h : Admitted valid allowed x parsed) {ch : Char}
    (hch : ch ∈ normalizedPath (unquote parsed.path)) : isControl ch = false ∧ ch ≠ '\\' := by
  rcases mem_normalizedPath h.decoded_ne_nil h.segments hch with rfl | hmem
  · exact ⟨by decide, by decide⟩
  · refine ⟨h.controls ch (List.mem_append_left _ hmem), ?_⟩
    rintro rfl
    exact h.backslash_decoded hmem

theorem normalized_segments (h : Admitted valid allowed x parsed) :
    ∀ s ∈ (normalizedPath (unquote parsed.path)).splitOn '/', Plain s := by
  rw [normalizedPath_eq h.decoded_ne_nil h.segments, splitOn_normalized]
  intro s hs
  rcases mem_normalizedSegments hs with rfl | hs
  · exact ⟨by simp, by simp⟩
  · exact h.segments s (List.mem_filter.mp hs).1

/-- The normalized path without its first slash, or its first two. -/
theorem normalized_cases (h : Admitted valid allowed x parsed) :
    ∃ rest, rest.head? ≠ some '/' ∧ normalizedPath (unquote parsed.path) =
      if initialSlashes (unquote parsed.path) = 2 then '/' :: '/' :: rest else '/' :: rest := by
  refine ⟨_, head_join_rest (unquote parsed.path), ?_⟩
  rw [normalizedPath_eq h.decoded_ne_nil h.segments]
  exact (join_normalizedSegments _).2

theorem initialSlashes_eq (h : Admitted valid allowed x parsed) :
    initialSlashes (normalizedPath (unquote parsed.path)) =
      if initialSlashes (unquote parsed.path) = 2 then 2 else 1 := by
  rw [normalizedPath_eq h.decoded_ne_nil h.segments, initialSlashes_normalized]

theorem head_normalized (h : Admitted valid allowed x parsed) :
    (normalizedPath (unquote parsed.path)).head? = some '/' := by
  obtain ⟨rest, -, heq⟩ := h.normalized_cases
  rw [heq]
  split_ifs <;> rfl

end Admitted

end Origin
end MegaCache
