import Mathlib

/-!
# Parts of a URL

`urllib.parse.urlsplit` and `posixpath.normpath`.
-/

namespace Urls

/-! ## Parts -/

structure SplitResult where
  scheme : List Char
  netloc : List Char
  path : List Char
  query : List Char
  fragment : List Char
deriving DecidableEq, Repr

def schemeChar (ch : Char) : Bool := ch.isAlphanum || ch ∈ ['+', '-', '.']

/-- `text.split(ch, 1)`, with an empty second part if `ch` is missing. -/
def splitOnce (ch : Char) (text : List Char) : List Char × List Char :=
  (text.takeWhile (· ≠ ch), (text.dropWhile (· ≠ ch)).drop 1)

def splitScheme (url : List Char) : List Char × List Char :=
  match url with
  | [] => ([], url)
  | ch :: _ =>
    if ':' ∈ url ∧ ch.isAlpha ∧ (splitOnce ':' url).1.all schemeChar then
      ((splitOnce ':' url).1.map Char.toLower, (splitOnce ':' url).2)
    else ([], url)

/-- The characters that end a network location. -/
def endsNetloc (ch : Char) : Bool := ch = '/' || ch = '?' || ch = '#'

def splitNetloc : List Char → List Char × List Char
  | '/' :: '/' :: rest =>
    (rest.takeWhile fun ch => !endsNetloc ch, rest.dropWhile fun ch => !endsNetloc ch)
  | url => ([], url)

/-- `urlsplit`.  It raises `ValueError` on a network location that `valid` refuses. -/
def urlsplit (valid : List Char → Bool) (url : List Char) : Option SplitResult :=
  let url := url.dropWhile fun ch => ch.toNat ≤ 32
  let url := url.filter fun ch => ch ∉ ['\t', '\r', '\n']
  let (scheme, url) := splitScheme url
  let (netloc, url) := splitNetloc url
  if netloc ≠ [] ∧ valid netloc = false then none
  else
    let (url, fragment) := splitOnce '#' url
    let (path, query) := splitOnce '?' url
    some ⟨scheme, netloc, path, query, fragment⟩

variable {valid : List Char → Bool} {url : List Char} {r : SplitResult}

theorem splitOnce_fst_part (ch : Char) (text : List Char) : (splitOnce ch text).1 <:+: text :=
  (List.takeWhile_prefix _).isInfix

theorem splitOnce_snd_part (ch : Char) (text : List Char) : (splitOnce ch text).2 <:+: text :=
  ((List.drop_suffix 1 _).trans (List.dropWhile_suffix _)).isInfix

theorem splitScheme_part (url : List Char) : (splitScheme url).2 <:+: url := by
  unfold splitScheme
  split
  · exact List.infix_rfl
  · split_ifs
    · exact splitOnce_snd_part ':' _
    · exact List.infix_rfl

theorem splitNetloc_part (url : List Char) : (splitNetloc url).2 <:+: url := by
  unfold splitNetloc
  split
  · exact ((List.dropWhile_suffix _).trans (List.suffix_append ['/', '/'] _)).isInfix
  · exact List.infix_rfl

/-- Path and query are parts of a URL without control characters. -/
theorem urlsplit_parts (hurl : ∀ ch ∈ url, 32 ≤ ch.toNat) (h : urlsplit valid url = some r) :
    r.path <:+: url ∧ r.query <:+: url := by
  have hfilter : (url.dropWhile fun ch => ch.toNat ≤ 32).filter (fun ch => ch ∉ ['\t', '\r', '\n']) =
      url.dropWhile fun ch => ch.toNat ≤ 32 := by
    apply List.filter_eq_self.mpr
    intro ch hch
    have hle := hurl ch ((List.dropWhile_sublist _).mem hch)
    simp only [List.mem_cons, List.not_mem_nil, or_false, not_or, decide_eq_true_eq]
    refine ⟨?_, ?_, ?_⟩ <;> rintro rfl <;> exact absurd hle (by decide)
  unfold urlsplit at h
  dsimp only at h
  rw [hfilter] at h
  split_ifs at h
  obtain rfl := Option.some.inj h
  have hrest : (splitOnce '#' (splitNetloc (splitScheme
      (url.dropWhile fun ch => ch.toNat ≤ 32)).2).2).1 <:+: url :=
    (splitOnce_fst_part '#' _).trans ((splitNetloc_part _).trans ((splitScheme_part _).trans
      (List.dropWhile_suffix _).isInfix))
  exact ⟨(splitOnce_fst_part '?' _).trans hrest, (splitOnce_snd_part '?' _).trans hrest⟩

theorem splitOnce_of_notMem {ch : Char} {text : List Char} (h : ch ∉ text) :
    splitOnce ch text = (text, []) := by
  have hall : ∀ x ∈ text, decide (x ≠ ch) = true := by
    intro x hx
    rw [decide_eq_true_eq]
    rintro rfl
    exact h hx
  rw [splitOnce, List.takeWhile_eq_self_iff.mpr hall, List.dropWhile_eq_nil_iff.mpr hall]
  rfl

theorem splitOnce_append {ch : Char} {text : List Char} (h : ch ∉ text) (rest : List Char) :
    splitOnce ch (text ++ ch :: rest) = (text, rest) := by
  have hall : ∀ x ∈ text, decide (x ≠ ch) = true := by
    intro x hx
    rw [decide_eq_true_eq]
    rintro rfl
    exact h hx
  rw [splitOnce, List.takeWhile_append_of_pos hall, List.dropWhile_append_of_pos hall]
  simp

/-- A path and a query as `urlsplit` finds them. -/
def withQuery (path query : List Char) : List Char :=
  if query = [] then path else path ++ '?' :: query

theorem splitOnce_withQuery {path query : List Char} (h : '?' ∉ path) :
    splitOnce '?' (withQuery path query) = (path, query) := by
  unfold withQuery
  split_ifs with hquery
  · rw [hquery]
    exact splitOnce_of_notMem h
  · exact splitOnce_append h query

/-- The beginning of `urlsplit` on a text that begins with a slash. -/
theorem urlsplit_slash {rest : List Char} (h : ∀ ch ∈ rest, 32 < ch.toNat) :
    urlsplit valid ('/' :: rest) =
      if (splitNetloc ('/' :: rest)).1 ≠ [] ∧ valid (splitNetloc ('/' :: rest)).1 = false then none
      else
        some ⟨[], (splitNetloc ('/' :: rest)).1,
          (splitOnce '?' (splitOnce '#' (splitNetloc ('/' :: rest)).2).1).1,
          (splitOnce '?' (splitOnce '#' (splitNetloc ('/' :: rest)).2).1).2,
          (splitOnce '#' (splitNetloc ('/' :: rest)).2).2⟩ := by
  have hdrop : ('/' :: rest).dropWhile (fun ch => ch.toNat ≤ 32) = '/' :: rest := rfl
  have hfilter : ('/' :: rest).filter (fun ch => ch ∉ ['\t', '\r', '\n']) = '/' :: rest := by
    apply List.filter_eq_self.mpr
    intro ch hch
    have hle : 32 < ch.toNat := by
      rcases List.mem_cons.mp hch with rfl | hch
      · decide
      · exact h ch hch
    simp only [List.mem_cons, List.not_mem_nil, or_false, not_or, decide_eq_true_eq]
    refine ⟨?_, ?_, ?_⟩ <;> rintro rfl <;> exact absurd hle (by decide)
  have hscheme : splitScheme ('/' :: rest) = ([], '/' :: rest) := by
    rw [splitScheme, if_neg]
    rintro ⟨-, halpha, -⟩
    exact absurd halpha (by decide)
  unfold urlsplit
  simp only [hdrop, hfilter, hscheme]

theorem splitNetloc_single {rest : List Char} (h : rest.head? ≠ some '/') :
    splitNetloc ('/' :: rest) = ([], '/' :: rest) := by
  unfold splitNetloc
  split
  · rename_i heq
    rw [List.cons.inj heq |>.2] at h
    exact absurd rfl h
  · rfl

theorem withQuery_ne {path query : List Char} {c : Char} (h : ∀ ch ∈ path ++ query, ch ≠ c)
    (hc : c ≠ '?') : c ∉ withQuery path query := by
  unfold withQuery
  split_ifs
  · exact fun hmem => h c (List.mem_append_left _ hmem) rfl
  · intro hmem
    rcases List.mem_append.mp hmem with hmem | hmem
    · exact h c (List.mem_append_left _ hmem) rfl
    · rcases List.mem_cons.mp hmem with rfl | hmem
      · exact hc rfl
      · exact h c (List.mem_append_right _ hmem) rfl

/-- A path below one slash, and a query, are found again. -/
theorem urlsplit_withQuery {rest query : List Char} (hrest : rest.head? ≠ some '/')
    (h : ∀ ch ∈ '/' :: rest ++ query, 32 < ch.toNat ∧ ch ≠ '#') (hpath : '?' ∉ '/' :: rest) :
    urlsplit valid (withQuery ('/' :: rest) query) =
      some ⟨[], [], '/' :: rest, query, []⟩ := by
  obtain ⟨tail, htail, hhead⟩ : ∃ tail, withQuery ('/' :: rest) query = '/' :: tail ∧
      tail.head? ≠ some '/' := by
    unfold withQuery
    split_ifs
    · exact ⟨rest, rfl, hrest⟩
    · refine ⟨rest ++ '?' :: query, rfl, ?_⟩
      cases rest with
      | nil => simp
      | cons ch rest => exact hrest
  have hlarge : ∀ ch ∈ tail, 32 < ch.toNat := by
    intro ch hch
    by_contra hle
    refine @withQuery_ne ('/' :: rest) query ch ?_ ?_ ?_
    · rintro ch' hch' rfl
      exact hle (h _ hch').1
    · rintro rfl
      exact hle (by decide)
    · rw [htail]
      exact List.mem_cons_of_mem _ hch
  have hfragment : '#' ∉ '/' :: tail := by
    rw [← htail]
    exact withQuery_ne (fun ch hch => (h ch hch).2) (by decide)
  have hquery := @splitOnce_withQuery ('/' :: rest) query hpath
  rw [htail] at hquery ⊢
  rw [urlsplit_slash hlarge, splitNetloc_single hhead]
  dsimp only
  rw [splitOnce_of_notMem hfragment, if_neg (by simp)]
  dsimp only
  rw [hquery]

/-- Behind two slashes there is a network location, or no path. -/
theorem urlsplit_twoSlashes {rest : List Char} (hrest : rest.head? ≠ some '/')
    (h : ∀ ch ∈ rest, 32 < ch.toNat) (hsplit : urlsplit valid ('/' :: '/' :: rest) = some r) :
    r.netloc ≠ [] ∨ r.path.head? ≠ some '/' := by
  have hlarge : ∀ ch ∈ '/' :: rest, 32 < ch.toNat := by
    simpa using h
  rw [urlsplit_slash hlarge] at hsplit
  split_ifs at hsplit
  obtain rfl := Option.some.inj hsplit
  dsimp only
  by_cases hnetloc : (splitNetloc ('/' :: '/' :: rest)).1 = []
  · right
    intro hhead
    apply hrest
    have hempty : rest.takeWhile (fun ch => !endsNetloc ch) = [] := hnetloc
    have hwhole : rest.dropWhile (fun ch => !endsNetloc ch) = rest := by
      have happend := List.takeWhile_append_dropWhile (p := fun ch => !endsNetloc ch) (l := rest)
      rwa [hempty, List.nil_append] at happend
    have hpre : (splitOnce '?' (splitOnce '#' (splitNetloc ('/' :: '/' :: rest)).2).1).1 <+: rest := by
      refine ((List.takeWhile_prefix _).trans (List.takeWhile_prefix _)).trans ?_
      change rest.dropWhile (fun ch => !endsNetloc ch) <+: rest
      rw [hwhole]
    obtain ⟨back, hback⟩ := hpre
    rw [← hback]
    cases hpath : (splitOnce '?' (splitOnce '#' (splitNetloc ('/' :: '/' :: rest)).2).1).1 with
    | nil =>
      rw [hpath] at hhead
      cases hhead
    | cons ch path =>
      rw [hpath] at hhead
      exact hhead
  · exact .inl hnetloc

/-! ## Normal paths -/

/-- The slashes at the beginning of a normal path. -/
def initialSlashes : List Char → ℕ
  | '/' :: '/' :: '/' :: _ => 1
  | '/' :: '/' :: _ => 2
  | '/' :: _ => 1
  | _ => 0

/-- The loop of `normpath` over the components. -/
def normStep (slashes : ℕ) (new : List (List Char)) (comp : List Char) : List (List Char) :=
  if comp = [] ∨ comp = ['.'] then new
  else if comp ≠ ['.', '.'] ∨ (slashes = 0 ∧ new = []) ∨ new.getLast? = some ['.', '.'] then
    new ++ [comp]
  else new.dropLast

def normpath (path : List Char) : List Char :=
  if path = [] then ['.']
  else
    let comps := (path.splitOn '/').foldl (normStep (initialSlashes path)) []
    let joined := List.replicate (initialSlashes path) '/' ++ ['/'].intercalate comps
    if joined = [] then ['.'] else joined

example : normpath "//a//../b/./c/".toList = "//b/c".toList := by decide

/-- A segment that is no step to a directory. -/
def Plain (segment : List Char) : Prop := segment ≠ ['.'] ∧ segment ≠ ['.', '.']

theorem foldl_normStep {slashes : ℕ} {comps new : List (List Char)} (h : ∀ c ∈ comps, Plain c) :
    comps.foldl (normStep slashes) new = new ++ comps.filter (· ≠ []) := by
  induction comps generalizing new with
  | nil => simp
  | cons comp comps ih =>
    have hplain := h comp List.mem_cons_self
    rw [List.foldl_cons, ih fun c hc => h c (List.mem_cons_of_mem _ hc), normStep]
    by_cases hnil : comp = []
    · simp [hnil]
    · rw [if_neg (by simp [hnil, hplain.1]), if_pos (.inl hplain.2)]
      simp [hnil]

theorem normpath_plain {path : List Char} (hne : path ≠ [])
    (h : ∀ c ∈ path.splitOn '/', Plain c) :
    normpath path =
      let joined := List.replicate (initialSlashes path) '/' ++
        ['/'].intercalate ((path.splitOn '/').filter (· ≠ []))
      if joined = [] then ['.'] else joined := by
  rw [normpath, if_neg hne]
  dsimp only
  rw [foldl_normStep h, List.nil_append]

/-! ## Joined segments -/

/-- `"/".join`. -/
def join (segments : List (List Char)) : List Char := ['/'].intercalate segments

theorem join_cons {segments : List (List Char)} (s : List Char) (h : segments ≠ []) :
    join (s :: segments) = s ++ '/' :: join segments := by
  rw [join, List.intercalate_cons_of_ne_nil h]
  simp [join]

theorem join_singleton (s : List Char) : join [s] = s := List.intercalate_singleton

theorem join_concat {segments : List (List Char)} (h : segments ≠ []) (s : List Char) :
    join (segments ++ [s]) = join segments ++ '/' :: s := by
  induction segments with
  | nil => exact absurd rfl h
  | cons a segments ih =>
    by_cases hnil : segments = []
    · subst hnil
      rw [List.singleton_append, join_cons a (by simp), join_singleton, join_singleton]
    · rw [List.cons_append, join_cons a (by simp), join_cons a hnil, ih hnil, List.append_assoc]
      rfl

theorem splitOn_join {segments : List (List Char)} (h : ∀ s ∈ segments, '/' ∉ s)
    (hne : segments ≠ []) : (join segments).splitOn '/' = segments :=
  List.splitOn_intercalate '/' h hne

theorem join_splitOn (path : List Char) : join (path.splitOn '/') = path :=
  List.intercalate_splitOn '/'

theorem mem_join {segments : List (List Char)} {ch : Char} (h : ch ∈ join segments) :
    ch = '/' ∨ ∃ s ∈ segments, ch ∈ s := by
  induction segments with
  | nil => cases h
  | cons s segments ih =>
    by_cases hnil : segments = []
    · rw [hnil, join_singleton] at h
      exact .inr ⟨s, List.mem_cons_self, h⟩
    · rw [join_cons s hnil, List.mem_append, List.mem_cons] at h
      rcases h with h | h | h
      · exact .inr ⟨s, List.mem_cons_self, h⟩
      · exact .inl h
      · rcases ih h with h | ⟨s', hs', h⟩
        · exact .inl h
        · exact .inr ⟨s', List.mem_cons_of_mem _ hs', h⟩

theorem mem_of_mem_splitOn {path s : List Char} (h : s ∈ path.splitOn '/') {ch : Char}
    (hch : ch ∈ s) : ch ∈ path := by
  rw [← join_splitOn path]
  generalize path.splitOn '/' = segments at h ⊢
  induction segments with
  | nil => cases h
  | cons s' segments ih =>
    by_cases hnil : segments = []
    · subst hnil
      obtain rfl := List.mem_singleton.mp h
      rwa [join_singleton]
    · rw [join_cons s' hnil, List.mem_append, List.mem_cons]
      rcases List.mem_cons.mp h with rfl | h
      · exact .inl hch
      · exact .inr (.inr (ih h))

/-- Segments that are there, and are segments. -/
def Solid (segments : List (List Char)) : Prop := ∀ s ∈ segments, s ≠ [] ∧ '/' ∉ s

theorem Solid.head_join {segments : List (List Char)} (h : Solid segments) :
    (join segments).head? ≠ some '/' := by
  cases segments with
  | nil => simp [join, List.intercalate]
  | cons s segments =>
    obtain ⟨hne, hslash⟩ := h s List.mem_cons_self
    obtain ⟨ch, s, rfl⟩ := List.exists_cons_of_ne_nil hne
    have hch : ch ≠ '/' := fun hch => hslash (hch ▸ List.mem_cons_self)
    by_cases hnil : segments = []
    · rw [hnil, join_singleton]
      simpa using hch
    · rw [join_cons _ hnil]
      simpa using hch

theorem Solid.getLast_join {segments : List (List Char)} (h : Solid segments) :
    (join segments).getLast? ≠ some '/' := by
  rcases List.eq_nil_or_concat segments with rfl | ⟨front, s, rfl⟩
  · simp [join, List.intercalate]
  · obtain ⟨hne, hslash⟩ := h s (by simp)
    have hlast : s.getLast? ≠ some '/' := fun hlast => hslash (List.mem_of_getLast? hlast)
    rw [List.concat_eq_append]
    by_cases hnil : front = []
    · rw [hnil, List.nil_append, join_singleton]
      exact hlast
    · rw [join_concat hnil, List.getLast?_append, List.getLast?_cons]
      rw [List.getLast?_eq_some_getLast hne] at hlast ⊢
      simpa using hlast

theorem Solid.join_ne_nil {segments : List (List Char)} (h : Solid segments) (hne : segments ≠ []) :
    join segments ≠ [] := by
  obtain ⟨s, segments, rfl⟩ := List.exists_cons_of_ne_nil hne
  obtain ⟨hs, -⟩ := h s List.mem_cons_self
  by_cases hnil : segments = []
  · rwa [hnil, join_singleton]
  · rw [join_cons _ hnil]
    simp

/-- The segments of a path that are not empty. -/
def components (path : List Char) : List (List Char) := (path.splitOn '/').filter (· ≠ [])

theorem notMem_of_mem_splitOn {path s : List Char} (h : s ∈ path.splitOn '/') : '/' ∉ s := by
  induction path generalizing s with
  | nil =>
    rw [List.splitOn_nil, List.mem_singleton] at h
    simp [h]
  | cons ch path ih =>
    rw [List.splitOn_cons_eq_if_modifyHead] at h
    split_ifs at h with hch
    · rcases List.mem_cons.mp h with rfl | h
      · simp
      · exact ih h
    · obtain ⟨s', rest, hrest⟩ := List.exists_cons_of_ne_nil (List.splitOn_ne_nil '/' path)
      rw [hrest] at h ih
      rw [List.modifyHead_cons] at h
      rcases List.mem_cons.mp h with rfl | h
      · rw [List.mem_cons, not_or]
        exact ⟨fun heq => hch (beq_iff_eq.mpr heq.symm), ih List.mem_cons_self⟩
      · exact ih (List.mem_cons_of_mem _ h)

theorem solid_components (path : List Char) : Solid (components path) := by
  intro s hs
  obtain ⟨hmem, hne⟩ := List.mem_filter.mp hs
  exact ⟨by simpa using hne, notMem_of_mem_splitOn hmem⟩

end Urls
