import MegaCache.Origin.Breaker
import MegaCache.Origin.Fetch

/-!
# Lineage of fetched values

Every entry that looks like an internal marker object was stored for a response that an origin
gave, and names that origin and path.  The checks of `fetch` compare the two, so an answer from the
cache is a response of the same origin to the same path, except where the fallback after a failed
request finds a fresh negative entry: it returns the marker object as the value.
-/

namespace MegaCache
namespace Origin

open Engine

variable {c : FetchConfig}

/-! ## Stored documents -/

theorem negativeOriginValue_negativeDocument (name path : String) {status : ℤ}
    (h : 400 ≤ status ∧ status ≤ 499) : negativeOriginValue (c.negativeDocument name path status) =
      some ⟨name, c.lineagePath path, status, some (c.sha256 path)⟩ := by
  simp [negativeOriginValue, FetchConfig.negativeDocument, Json.get?, List.lookup, requestHashOf,
    negativeMarker, h]

theorem originValue_negativeDocument (name path : String) (status : ℤ) :
    originValue (c.negativeDocument name path status) = none := by
  simp [originValue, FetchConfig.negativeDocument, Json.get?, List.lookup, negativeMarker,
    valueMarker]

theorem negativeOriginValue_valueDocument (name path : String) (status : ℤ) (body : List UInt8) :
    negativeOriginValue (c.valueDocument name path status body) = none := by
  simp [negativeOriginValue, FetchConfig.valueDocument, Json.get?, List.lookup, negativeMarker,
    valueMarker]

theorem originValue_valueDocument (name path : String) {status : ℤ} (body : List UInt8)
    (h : 200 ≤ status ∧ status ≤ 299) : originValue (c.valueDocument name path status body) =
      some ⟨name, c.lineagePath path, status, body, some (c.sha256 path)⟩ := by
  simp [originValue, FetchConfig.valueDocument, Json.get?, List.lookup, requestHashOf, valueMarker,
    Base64.decode_encode, h]

/-- The digest of a path matches that path only. -/
theorem lineageMatches_sha256 {storedPath path path' : String} :
    c.lineageMatches storedPath (some (c.sha256 path)) path' = true ↔ path = path' := by
  simp only [FetchConfig.lineageMatches, decide_eq_true_eq]
  exact c.sha256_injective.eq_iff

/-- What is written is plain or was stored for a response; a negative entry has no stale window. -/
inductive Accounted (c : FetchConfig) (given : List Given) (w : Written Value) : Prop
  | plain (h : w.value.Plain)
  | positive {g : Given} (hg : g ∈ given) (hstatus : 200 ≤ g.status ∧ g.status ≤ 299)
      (hvalue : w.value = c.valueDocument g.origin g.path g.status g.body)
  | negative {g : Given} (hg : g ∈ given) (hstatus : 400 ≤ g.status ∧ g.status ≤ 499)
      (hvalue : w.value = c.negativeDocument g.origin g.path g.status)
      (hwindow : w.staleUntil ≤ w.freshUntil)

theorem Accounted.mono {given given' : List Given} {w : Written Value} (h : Accounted c given w)
    (hsub : ∀ g ∈ given, g ∈ given') : Accounted c given' w := by
  cases h with
  | plain h => exact .plain h
  | positive hg hstatus hvalue => exact .positive (hsub _ hg) hstatus hvalue
  | negative hg hstatus hvalue hwindow => exact .negative (hsub _ hg) hstatus hvalue hwindow

theorem Accounted.reschedule {given : List Given} (w : Written Value) (d : ℚ)
    (h : Accounted c given w) : Accounted c given { w with freshUntil := d, staleUntil := d } := by
  cases h with
  | plain h => exact .plain h
  | positive hg hstatus hvalue => exact .positive hg hstatus hvalue
  | negative hg hstatus hvalue hwindow => exact .negative hg hstatus hvalue le_rfl

/-- What `put` writes for a value is that value. -/
theorem putRecord_value {value : Value} {ttlSeconds staleSeconds : Option ℤ} {tags : List Tag}
    {persistent : Bool} {now : ℚ} {w : Written Value}
    (h : TimedMap.putRecord c.engine value ttlSeconds staleSeconds tags persistent now = some w) :
    w.value = value := by
  simp only [TimedMap.putRecord, Option.map_eq_some_iff] at h
  obtain ⟨stored, hstored, rfl⟩ := h
  exact c.snapshotValue_eq value stored hstored

theorem restoreRecord_value {item : StorageEntry Value} {now : ℚ} {w : Written Value}
    (h : TimedMap.restoreRecord c.engine item now = some w) : w.value = item.value := by
  simp only [TimedMap.restoreRecord, Option.bind_eq_some_iff] at h
  obtain ⟨stored, hstored, h⟩ := h
  have hsame := c.snapshotValue_eq item.value stored hstored
  split_ifs at h with hpersistent
  · rw [← Option.some.inj h, hsame]
  · split at h
    · split_ifs at h
      rw [← Option.some.inj h, hsame]
    · cases h

/-- Plain calls write plain values. -/
theorem plainCall_writing {call : Engine.Call Value} (h : plainCall call) (given : List Given) :
    call.Writing c.engine (Accounted c given) := by
  cases call with
  | put => exact fun now w hw => .plain (putRecord_value hw ▸ h)
  | mset values => exact fun item hi now w hw => .plain (putRecord_value hw ▸ h item hi)
  | getOrLoad key loaded =>
    cases loaded with
    | error e => trivial
    | ok value => exact fun now w hw => .plain (putRecord_value hw ▸ h)
  | restoreEntries entries => exact fun item hi now w hw => .plain (restoreRecord_value hw ▸ h item hi)
  | _ => trivial

/-! ## Looks into the cache -/

/-- What a `get` of the storage can return. -/
inductive Seen (c : FetchConfig) (given : List Given) (r : CacheResult Value) : Prop
  | miss (hstate : r.state = .miss) (hvalue : r.value = none)
  | plain {v : Value} (hvalue : r.value = some v) (h : v.Plain)
  | positive {g : Given} (hg : g ∈ given) (hstatus : 200 ≤ g.status ∧ g.status ≤ 299)
      (hvalue : r.value = some (c.valueDocument g.origin g.path g.status g.body))
  | negative {g : Given} (hg : g ∈ given) (hstatus : 400 ≤ g.status ∧ g.status ≤ 499)
      (hvalue : r.value = some (c.negativeDocument g.origin g.path g.status))
      (hstate : r.state = .fresh)

theorem seen_getEntry {given : List Given} {s s' : Engine Value}
    (h : Holds (Accounted c given) s) {key : Key} {r : CacheResult Value}
    (hr : getEntry c.engine key s = (.ok r, s')) : Seen c given r := by
  obtain ⟨hstate, hvalue⟩ | ⟨w, hw, hvalue, hstate⟩ := h.getEntry hr
  · exact .miss hstate hvalue
  · cases hw with
    | plain h => exact .plain hvalue h
    | positive hg hstatus hv => exact .positive hg hstatus (hv ▸ hvalue)
    | negative hg hstatus hv hwindow =>
      refine .negative hg hstatus (hv ▸ hvalue) ?_
      obtain hfresh | ⟨-, hlt⟩ := hstate
      · exact hfresh
      · exact absurd hlt (not_lt.mpr hwindow)

/-- A result whose lineage matches: a body of this origin and path, or a fresh negative entry. -/
theorem decoded_cases {given : List Given} {r : CacheResult Value} (h : Seen c given r)
    {call : FetchCall} (hmatch : (call.decoded c r).2 = true) :
    (∃ g ∈ given, (g.origin = call.origin.name ∧ g.path = call.path) ∧
      (200 ≤ g.status ∧ g.status ≤ 299) ∧
      (call.decoded c r).1.value = some (.bytes g.body) ∧
      r.value.bind negativeOriginValue = none) ∨
    ∃ n, r.value.bind negativeOriginValue = some n ∧ r.state = .fresh ∧ (call.decoded c r).1 = r := by
  unfold FetchCall.decoded FetchConfig.decodeCacheResult at hmatch ⊢
  cases h with
  | miss hstate hvalue =>
    simp [hvalue] at hmatch
  | plain hvalue h =>
    simp [hvalue, h.1, h.2] at hmatch
  | @positive g hg hstatus hvalue =>
    left
    rw [hvalue, Option.bind_some, originValue_valueDocument _ _ _ hstatus] at hmatch ⊢
    dsimp only at hmatch ⊢
    split_ifs at hmatch ⊢ with hother
    push Not at hother
    refine ⟨g, hg, ⟨hother.1, ?_⟩, hstatus, rfl, ?_⟩
    · exact lineageMatches_sha256.mp (by simpa using hother.2)
    · rw [Option.bind_some, negativeOriginValue_valueDocument]
  | @negative g hg hstatus hvalue hstate =>
    right
    rw [hvalue, Option.bind_some, Option.bind_some, originValue_negativeDocument,
      negativeOriginValue_negativeDocument _ _ hstatus]
    exact ⟨_, rfl, hstate, rfl⟩

/-! ## Answers -/

/-- An answer to a fetch of a path of an origin: a value is the body of a successful response to
the same path, and an answer from a stored negative response is that response. -/
structure Faithful (given : List Given) (name path : String) (found : Found) : Prop where
  value : ∀ v, found.result.value = some v → ∃ g ∈ given, (g.origin = name ∧ g.path = path) ∧
    (200 ≤ g.status ∧ g.status ≤ 299) ∧ v = .bytes g.body
  negative : ∀ raw n, found.source = some raw → negativeOriginValue raw = some n →
    found.result.state = .negative ∧ found.result.statusCode = some n.status ∧
      found.result.value = none

theorem Faithful.mono {given given' : List Given} {name path : String} {found : Found}
    (h : Faithful given name path found) (hsub : ∀ g ∈ given, g ∈ given') :
    Faithful given' name path found where
  value v hv := by
    obtain ⟨g, hg, hlineage, hstatus, hbody⟩ := h.value v hv
    exact ⟨g, hsub g hg, hlineage, hstatus, hbody⟩
  negative := h.negative

/-- A body of the right lineage. -/
theorem Faithful.body {given : List Given} {call : FetchCall} {r : CacheResult Value}
    {value : Option Value} {state : FetchState} {error : Option String}
    (hvalue : ∀ v, value = some v → ∃ g ∈ given,
      (g.origin = call.origin.name ∧ g.path = call.path) ∧ (200 ≤ g.status ∧ g.status ≤ 299) ∧
        v = .bytes g.body)
    (hsource : r.value.bind negativeOriginValue = none) :
    Faithful given call.origin.name call.path (call.valueFound state value error r.value) where
  value := hvalue
  negative raw n hraw hn := by
    have hraw' : r.value = some raw := hraw
    rw [hraw', Option.bind_some, hn] at hsource
    cases hsource

/-- An answer from an entry whose lineage matches. -/
theorem Faithful.fresh {given : List Given} {call : FetchCall} {r : CacheResult Value}
    (h : Seen c given r) (hmatch : (call.decoded c r).2 = true) :
    Faithful given call.origin.name call.path (call.freshFound (call.decoded c r).1 r.value) := by
  unfold FetchCall.freshFound
  obtain ⟨g, hg, hlineage, hstatus, hvalue, hnone⟩ | ⟨n, hn, -, hsame⟩ := decoded_cases h hmatch
  · rw [hvalue]
    refine .body (fun v hv => ⟨g, hg, hlineage, hstatus, ?_⟩) hnone
    exact (Option.some.inj hv).symm
  · rw [hsame, hn]
    refine ⟨nofun, fun raw m hraw hm => ?_⟩
    have hraw' : r.value = some raw := hraw
    rw [hraw', Option.bind_some, hm] at hn
    rw [Option.some.inj hn]
    exact ⟨rfl, rfl, rfl⟩

/-- An answer with the value of an entry that is not negative. -/
theorem Faithful.positive {given : List Given} {call : FetchCall} {r : CacheResult Value}
    (h : Seen c given r) (hmatch : (call.decoded c r).2 = true)
    (hpositive : r.value.bind negativeOriginValue = none) (state : FetchState)
    (error : Option String) : Faithful given call.origin.name call.path
      (call.valueFound state (call.decoded c r).1.value error r.value) := by
  obtain ⟨g, hg, hlineage, hstatus, hvalue, hnone⟩ | ⟨n, hn, -, -⟩ := decoded_cases h hmatch
  · rw [hvalue]
    refine .body (fun v hv => ⟨g, hg, hlineage, hstatus, ?_⟩) hnone
    exact (Option.some.inj hv).symm
  · rw [hpositive] at hn
    cases hn

/-- A stale entry whose lineage matches is not negative. -/
theorem negative_of_stale {given : List Given} {call : FetchCall} {r : CacheResult Value}
    (h : Seen c given r) (hmatch : (call.decoded c r).2 = true)
    (hstale : (call.decoded c r).1.state = .stale) : r.value.bind negativeOriginValue = none := by
  obtain ⟨g, -, -, -, -, hnone⟩ | ⟨n, -, hfresh, hsame⟩ := decoded_cases h hmatch
  · exact hnone
  · rw [hsame, hfresh] at hstale
    cases hstale

/-- What a place of a call promises. -/
def PlaceOk (given : List Given) (call : FetchCall) : FetchPlace → Prop
  | .stores _ status body _ => ⟨call.origin.name, call.path, status, body⟩ ∈ given ∧
    FetchService.Accepted call.origin status
  | .concludes (.ok found) | .checks found | .answered found =>
    Faithful given call.origin.name call.path found
  | _ => True

structure CallOk (given : List Given) (call : FetchCall) : Prop where
  name : '\x00' ∉ call.origin.name.toList
  path : '\x00' ∉ call.path.toList
  place : PlaceOk given call call.place
  led : ∀ found, call.led = some (.ok found) → Faithful given call.origin.name call.path found

theorem CallOk.mono {given given' : List Given} {call : FetchCall} (h : CallOk given call)
    (hsub : ∀ g ∈ given, g ∈ given') : CallOk given' call where
  name := h.name
  path := h.path
  place := by
    have hplace := h.place
    cases hp : call.place with
    | stores token status body attempts =>
      rw [hp] at hplace
      exact ⟨hsub _ hplace.1, hplace.2⟩
    | concludes outcome =>
      rw [hp] at hplace
      cases outcome with
      | error e => trivial
      | ok found => exact Faithful.mono hplace hsub
    | checks found =>
      rw [hp] at hplace
      exact Faithful.mono hplace hsub
    | answered found =>
      rw [hp] at hplace
      exact Faithful.mono hplace hsub
    | _ => trivial
  led found hfound := (h.led found hfound).mono hsub

theorem CallOk.goto {given : List Given} {call : FetchCall} (h : CallOk given call)
    {place : FetchPlace} (hplace : PlaceOk given call place) : CallOk given (call.goto place) where
  name := h.name
  path := h.path
  place := by
    cases place with
    | concludes outcome => cases outcome <;> exact hplace
    | _ => exact hplace
  led := h.led

theorem FetchCall.coordinated_lineage (call : FetchCall) (outcome : Except Raised Found) :
    (call.coordinated outcome).origin = call.origin ∧
      (call.coordinated outcome).path = call.path := by
  cases outcome with
  | error e => exact ⟨rfl, rfl⟩
  | ok found =>
    dsimp only [FetchCall.coordinated]
    split_ifs
    · exact ⟨rfl, rfl⟩
    · exact ⟨rfl, rfl⟩

/-- After `_coordinate`. -/
theorem CallOk.coordinated {given : List Given} {call : FetchCall} (h : CallOk given call)
    {outcome : Except Raised Found}
    (hfound : ∀ found, outcome = .ok found → Faithful given call.origin.name call.path found) :
    CallOk given (call.coordinated outcome) := by
  cases outcome with
  | error e => exact h.goto trivial
  | ok found =>
    dsimp only [FetchCall.coordinated]
    split_ifs
    · exact h.goto (hfound found rfl)
    · exact h.goto (hfound found rfl)

/-! ## Coordination keys -/

/-- Two texts cut at their first separator. -/
theorem append_cons_inj {α : Type} {x : α} {a a' l l' : List α} (ha : x ∉ a) (ha' : x ∉ a')
    (h : a ++ x :: l = a' ++ x :: l') : a = a' ∧ l = l' := by
  induction a generalizing a' with
  | nil =>
    cases a' with
    | nil => exact ⟨rfl, (List.cons.inj h).2⟩
    | cons y a' =>
      obtain ⟨rfl, -⟩ := List.cons.inj h
      exact absurd List.mem_cons_self ha'
  | cons z a ih =>
    cases a' with
    | nil =>
      obtain ⟨rfl, -⟩ := List.cons.inj h
      exact absurd List.mem_cons_self ha
    | cons y a' =>
      obtain ⟨rfl, htail⟩ := List.cons.inj h
      obtain ⟨rfl, rfl⟩ := ih (fun hx => ha (List.mem_cons_of_mem _ hx))
        (fun hx => ha' (List.mem_cons_of_mem _ hx)) htail
      exact ⟨rfl, rfl⟩

/-- Two texts cut at their last separator. -/
theorem append_cons_inj_right {α : Type} {x : α} {a a' l l' : List α} (hl : x ∉ l) (hl' : x ∉ l')
    (h : a ++ x :: l = a' ++ x :: l') : l = l' := by
  have hrev : l.reverse ++ x :: a.reverse = l'.reverse ++ x :: a'.reverse := by
    simpa using congrArg List.reverse h
  obtain ⟨heq, -⟩ := append_cons_inj (by simpa using hl) (by simpa using hl') hrev
  exact List.reverse_injective heq

theorem coordinationKey_inj {name name' : String} {key key' : Key} {path path' : String}
    (hname : '\x00' ∉ name.toList) (hname' : '\x00' ∉ name'.toList) (hpath : '\x00' ∉ path.toList)
    (hpath' : '\x00' ∉ path'.toList)
    (h : c.coordinationKey name key path = c.coordinationKey name' key' path') :
    name = name' ∧ path = path' := by
  have hlist := congrArg String.toList h
  simp only [FetchConfig.coordinationKey, String.toList_append] at hlist
  have htext := c.sha256_injective (String.toList_injective (List.append_cancel_left hlist))
  have hchars := congrArg String.toList htext
  simp only [String.join, List.foldl_cons, List.foldl_nil, String.toList_append,
    String.toList_empty, List.nil_append, List.append_assoc] at hchars
  have hsplit : name.toList ++ '\x00' :: (key.toList ++ '\x00' :: path.toList) =
      name'.toList ++ '\x00' :: (key'.toList ++ '\x00' :: path'.toList) := by
    simpa using hchars
  obtain ⟨hn, hrest⟩ := append_cons_inj hname hname' hsplit
  exact ⟨String.toList_injective hn, String.toList_injective (append_cons_inj_right hpath hpath' hrest)⟩

namespace FetchService

variable {s : FetchService}

structure Inv (c : FetchConfig) (s : FetchService) : Prop where
  sound : Sound c.engine s.engine
  entries : Holds (Accounted c s.given) s.engine
  calls : ∀ call ∈ s.calls, CallOk s.given call
  gets : ∀ r ∈ s.gets, ∀ v, r.value = some v → v.Plain

theorem Inv.init (c : FetchConfig) : Inv c init where
  sound := Sound.init c.engine
  entries := by simp [Holds, FetchService.init, Engine.init]
  calls := by simp [FetchService.init]
  gets := by simp [FetchService.init]

/-- A call of the storage that writes nothing, plain values or a response. -/
theorem Inv.storage (h : Inv c s) (call : Engine.Call Value)
    (hw : call.Writing c.engine (Accounted c s.given)) :
    Inv c { s with engine := call.run c.engine s.engine } :=
  { h with
    sound := call.sound h.sound
    entries := h.entries.call h.sound Accounted.reschedule hw }

theorem Inv.setCall (h : Inv c s) {call : FetchCall} (hcall : CallOk s.given call) (i : ℕ) :
    Inv c (s.setCall i call) :=
  { h with
    calls := by
      intro other hmem
      rcases List.mem_or_eq_of_mem_set hmem with hmem | rfl
      · exact h.calls other hmem
      · exact hcall }

theorem Inv.release (h : Inv c s) (key : Key) (token : String) : Inv c (s.release key token) :=
  h.storage (.releaseLease key token) trivial

theorem Inv.afterGet (h : Inv c s) (key : Key) :
    Inv c { s with engine := (getEntry c.engine key s.engine).2 } :=
  h.storage (.get key) trivial

theorem Inv.read (h : Inv c s) {i : ℕ} {call : FetchCall} (hcall : CallOk s.given call)
    {raised : Raised → FetchPlace} {next : CacheResult Value → FetchPlace}
    (hraised : ∀ e, PlaceOk s.given call (raised e))
    (hnext : ∀ r, Seen c s.given r → PlaceOk s.given call (next r)) :
    Inv c (s.read c i call raised next) := by
  have hget := h.afterGet call.key
  unfold FetchService.read
  rcases hr : getEntry c.engine call.key s.engine with ⟨e | r, engine⟩
  · rw [hr] at hget
    exact hget.setCall (hcall.goto (hraised _)) i
  · rw [hr] at hget
    exact hget.setCall (hcall.goto (hnext r (seen_getEntry h.entries hr))) i

theorem placeOk_firstRead {given : List Given} {r : CacheResult Value} (h : Seen c given r)
    (call : FetchCall) : PlaceOk given call (call.firstRead c r) := by
  unfold FetchCall.firstRead FetchCall.sighted
  by_cases hmatch : (call.decoded c r).2 = true
  · rw [if_pos hmatch]
    split_ifs with hfresh hstale
    · exact Faithful.fresh h hmatch
    · exact Faithful.positive h hmatch (negative_of_stale h hmatch hstale.2.1) _ _
    · trivial
  · rw [if_neg hmatch]
    split_ifs with hfresh hstale
    · cases hfresh.2
    · cases hstale.2.1
    · trivial

theorem placeOk_leaderRead {given : List Given} {r : CacheResult Value} (h : Seen c given r)
    (call : FetchCall) : PlaceOk given call (call.leaderRead c r) := by
  unfold FetchCall.leaderRead FetchCall.sighted
  by_cases hmatch : (call.decoded c r).2 = true
  · rw [if_pos hmatch]
    split_ifs
    · exact Faithful.fresh h hmatch
    · trivial
  · rw [if_neg hmatch]
    split_ifs with hfresh
    · cases hfresh
    · trivial

theorem placeOk_lastRead {given : List Given} {r : CacheResult Value} (h : Seen c given r)
    (call : FetchCall) (found : Found) : PlaceOk given call (call.lastRead c found r) := by
  unfold FetchCall.lastRead
  split_ifs with hstale hfresh
  · exact Faithful.positive h hstale.1 (negative_of_stale h hstale.1 hstale.2) _ _
  · exact Faithful.fresh h hfresh.1
  · trivial

/-- The fallback, where it finds no fresh negative entry of its own lineage. -/
theorem faithful_fallback {given : List Given} {r : CacheResult Value} (h : Seen c given r)
    {call : FetchCall} {e : Raised} {found : Found} (hfound : call.fallback c e r = some found)
    (hmeets : (call.decoded c r).2 = true → r.state = .fresh →
      r.value.bind negativeOriginValue = none) :
    Faithful given call.origin.name call.path found := by
  unfold FetchCall.fallback at hfound
  split_ifs at hfound with hfresh hstale
  · obtain rfl := Option.some.inj hfound
    obtain ⟨g, -, -, -, -, hnone⟩ | ⟨n, -, hstate, -⟩ := decoded_cases h hfresh.1
    · exact Faithful.positive h hfresh.1 hnone _ _
    · exact Faithful.positive h hfresh.1 (hmeets hfresh.1 hstate) _ _
  · obtain rfl := Option.some.inj hfound
    exact Faithful.positive h hstale.1 (negative_of_stale h hstale.1 hstale.2) _ _

theorem Inv.getValue (h : Inv c s) (key : Key) : Inv c (s.getValue c key) := by
  have hget := h.afterGet key
  unfold FetchService.getValue
  rcases hr : getEntry c.engine key s.engine with ⟨e | r, engine⟩
  · rw [hr] at hget
    exact hget
  · rw [hr] at hget
    refine { hget with gets := fun r' hmem => ?_ }
    rcases List.mem_cons.mp hmem with rfl | hmem
    · intro v hv
      have hseen := seen_getEntry h.entries hr
      split_ifs at hv with hnegative
      · cases hv
      · rw [Bool.not_eq_true, Option.isSome_eq_false_iff, Option.isNone_iff_eq_none] at hnegative
        split at hv
        · rw [← Option.some.inj hv]
          exact ⟨rfl, rfl⟩
        · next hpositive =>
          have hr' : r.value = some v := hv
          rw [hr', Option.bind_some] at hnegative hpositive
          exact ⟨hnegative, hpositive⟩
    · exact h.gets r' hmem

theorem Inv.fetch (h : Inv c s) (key : Key) (originName path : String) (forceRefresh : Bool) :
    Inv c (s.fetch c key originName path forceRefresh) := by
  unfold FetchService.fetch
  split_ifs
  · exact h
  · split
    · exact h
    · next origin horigin =>
      split
      · exact h
      · next requestPath hpath =>
        refine { h with calls := fun call hmem => ?_ }
        rcases List.mem_append.mp hmem with hmem | hmem
        · exact h.calls call hmem
        · rw [List.mem_singleton.mp hmem]
          exact ⟨c.name_plain origin (List.mem_of_find?_eq_some horigin),
            c.path_plain origin path requestPath hpath, trivial, nofun⟩

theorem Inv.lease (h : Inv c s) {i : ℕ} {call : FetchCall} (hcall : CallOk s.given call) :
    Inv c (s.lease c i call) := by
  have hlease : Inv c { s with engine := (acquireLease c.engine call.key true s.engine).2 } :=
    h.storage (.acquireLease call.key true) trivial
  unfold FetchService.lease
  rcases hr : acquireLease c.engine call.key true s.engine with ⟨e | r, engine⟩
  · rw [hr] at hlease
    refine hlease.setCall (hcall.goto ?_) i
    trivial
  · rw [hr] at hlease
    dsimp only
    split
    · refine hlease.setCall (hcall.goto ?_) i
      trivial
    · refine hlease.setCall (hcall.goto ?_) i
      trivial

/-- What the leader stores is accounted for by the response. -/
theorem accounted_negativeDocument {given : List Given} {origin : HTTPOrigin} {path : String}
    {status : ℤ} {body : List UInt8} {tags : List Tag}
    (hgiven : ⟨origin.name, path, status, body⟩ ∈ given)
    (hstatus : status ∈ origin.negativeStatuses.map Int.ofNat) (ttlSeconds : ℤ) :
    ∀ now w, TimedMap.putRecord c.engine (c.negativeDocument origin.name path status)
      (some ttlSeconds) (some 0) tags false now = some w → Accounted c given w := by
  intro now w hw
  have hvalue := putRecord_value hw
  have hrange : 400 ≤ status ∧ status ≤ 499 := by
    obtain ⟨n, hn, rfl⟩ := List.mem_map.mp hstatus
    have hclient := origin.negative_client n hn
    rw [Int.ofNat_eq_natCast]
    omega
  refine .negative hgiven hrange hvalue ?_
  simp only [TimedMap.putRecord, Option.map_eq_some_iff] at hw
  obtain ⟨stored, -, rfl⟩ := hw
  simp

theorem Inv.store (h : Inv c s) {i : ℕ} {call : FetchCall} (hcall : CallOk s.given call)
    (token : String) {status : ℤ} {body : List UInt8} (attempts : ℕ) (ttlSeconds : ℤ)
    (hgiven : ⟨call.origin.name, call.path, status, body⟩ ∈ s.given)
    (haccepted : Accepted call.origin status) :
    Inv c (s.store c i call token status body attempts ttlSeconds) := by
  unfold FetchService.store
  split_ifs with hnegative
  · have hput := h.storage (.put call.key (c.negativeDocument call.origin.name call.path status)
      (some call.origin.negativeTtlSeconds) (some 0) call.origin.tags (some token) false)
      (accounted_negativeDocument hgiven hnegative _)
    dsimp only [Call.run] at hput
    split
    · next e engine hr =>
      rw [hr] at hput
      refine Inv.setCall (hput.release call.key token) (hcall.goto ?_) i
      trivial
    · next r engine hr =>
      rw [hr] at hput
      refine hput.setCall (hcall.goto ?_) i
      exact ⟨nofun, nofun⟩
  · have hrange : 200 ≤ status ∧ status ≤ 299 := haccepted.resolve_left hnegative
    have hput := h.storage (.put call.key (c.valueDocument call.origin.name call.path status body)
      (some ttlSeconds)
      (some (call.origin.staleWhileRevalidateSeconds + call.origin.staleIfErrorSeconds))
      call.origin.tags (some token) false)
      (fun now w hw => .positive hgiven hrange (putRecord_value hw))
    dsimp only [Call.run] at hput
    split
    · next e engine hr =>
      rw [hr] at hput
      refine Inv.setCall (hput.release call.key token) (hcall.goto ?_) i
      trivial
    · next r engine hr =>
      rw [hr] at hput
      refine hput.setCall (hcall.goto ?_) i
      refine ⟨fun v hv => ⟨_, hgiven, ⟨rfl, rfl⟩, hrange, (Option.some.inj hv).symm⟩, nofun⟩

/-- A leader whose request failed does not fall back to a fresh negative entry of its origin and
path. -/
def Meets (c : FetchConfig) (s : FetchService) : FetchEvent → Prop
  | .proceed i => ∀ call, s.calls[i]? = some call → ∀ token e, call.place = .fallsBack token e →
    ∀ r engine, getEntry c.engine call.key s.engine = (.ok r, engine) →
      (call.decoded c r).2 = true → r.state = .fresh → r.value.bind negativeOriginValue = none
  | _ => True

theorem Inv.proceed (h : Inv c s) {i : ℕ} (hmeets : Meets c s (.proceed i)) :
    Inv c (s.proceed c i) := by
  unfold FetchService.proceed
  cases hi : s.calls[i]? with
  | none => exact h
  | some call =>
    have hcall := h.calls call (List.mem_of_getElem? hi)
    have hplace := hcall.place
    dsimp only
    split
    · exact h.read hcall (fun _ => trivial) fun r hr => placeOk_firstRead hr call
    · exact h.read hcall (fun _ => trivial) fun r hr => placeOk_leaderRead hr call
    · exact h.lease hcall
    · next token e _ =>
      refine Inv.setCall (h.release call.key token) (hcall.goto ?_) i
      trivial
    · next token e hp =>
      have hget := h.afterGet call.key
      split
      · next e' engine hr =>
        rw [hr] at hget
        refine Inv.setCall (hget.release call.key token) (hcall.goto ?_) i
        trivial
      · next r engine hr =>
        rw [hr] at hget
        have hseen := seen_getEntry h.entries hr
        split
        · next found hfound =>
          refine hget.setCall (hcall.goto ?_) i
          exact faithful_fallback hseen hfound (hmeets call hi token e hp r engine hr)
        · refine Inv.setCall (hget.release call.key token) (hcall.goto ?_) i
          trivial
    · next outcome hp =>
      have hfound : ∀ found, outcome = .ok found →
          Faithful s.given call.origin.name call.path found := by
        rintro found rfl
        rw [hp] at hplace
        exact hplace
      have hnext := hcall.coordinated hfound
      refine h.setCall ⟨?_, ?_, ?_, ?_⟩ i
      · exact hnext.name
      · exact hnext.path
      · exact hnext.place
      · intro found hled
        obtain ⟨horigin, hpath⟩ := FetchCall.coordinated_lineage call outcome
        show Faithful s.given (call.coordinated outcome).origin.name (call.coordinated outcome).path
          found
        rw [horigin, hpath]
        exact hfound found (Option.some.inj hled)
    · next found hp =>
      exact h.read hcall (fun _ => trivial) fun r hr => placeOk_lastRead hr call found
    · exact h

theorem Inv.onCall (h : Inv c s) {i : ℕ} {f : FetchCall → FetchPlace → FetchService}
    (hf : ∀ call, s.calls[i]? = some call → CallOk s.given call → Inv c (f call call.place)) :
    Inv c (s.onCall i f) := by
  unfold FetchService.onCall
  cases hi : s.calls[i]? with
  | none => exact h
  | some call => exact hf call hi (h.calls call (List.mem_of_getElem? hi))

/-- A follower gets what a leader of its origin and path got. -/
theorem Inv.follow (h : Inv c s) (i j : ℕ) : Inv c (s.step c (.follow i j)) := by
  dsimp only [FetchService.step]
  refine h.onCall fun call _ hcall => ?_
  split
  · next leader outcome _ hleader =>
    split_ifs with hkey
    · simp only [Option.bind_eq_some_iff, Option.map_eq_some_iff, Prod.mk.injEq] at hleader
      obtain ⟨leader', hj, outcome', hled, rfl, rfl⟩ := hleader
      have hok := h.calls leader' (List.mem_of_getElem? hj)
      obtain ⟨hname, hpath⟩ := coordinationKey_inj hcall.name hok.name hcall.path hok.path hkey
      refine h.setCall (hcall.coordinated fun found hfound => ?_) i
      rw [hname, hpath]
      exact hok.led found (hfound ▸ hled)
    · exact h
  · exact h

theorem Inv.responded (h : Inv c s) (i : ℕ) (status : ℤ) (body : List UInt8) (attempts : ℕ) :
    Inv c (s.step c (.responded i status body attempts)) := by
  dsimp only [FetchService.step]
  refine h.onCall fun call _ hcall => ?_
  split
  · next token _ =>
    split_ifs with haccepted
    · have hsub : ∀ g ∈ s.given, g ∈ ⟨call.origin.name, call.path, status, body⟩ :: s.given :=
        fun g hg => List.mem_cons_of_mem _ hg
      have hmore : Inv c { s with
          given := ⟨call.origin.name, call.path, status, body⟩ :: s.given } :=
        ⟨h.sound, h.entries.mono fun w hw => hw.mono hsub,
          fun other hmem => (h.calls other hmem).mono hsub, h.gets⟩
      refine hmore.setCall ((hcall.mono hsub).goto ?_) i
      exact ⟨List.mem_cons_self, haccepted⟩
    · exact h
  · exact h

theorem Inv.step (h : Inv c s) {event : FetchEvent} (hmeets : Meets c s event) :
    Inv c (s.step c event) := by
  cases event with
  | client call => exact h.storage call.1 (plainCall_writing call.2 _)
  | get key => exact h.getValue key
  | shutdown => exact { h with }
  | fetch key originName path forceRefresh => exact h.fetch key originName path forceRefresh
  | lead i =>
    dsimp only [FetchService.step]
    refine h.onCall fun call _ hcall => ?_
    split
    · refine h.setCall (hcall.goto ?_) i
      split_ifs <;> trivial
    · exact h
  | follow i j => exact h.follow i j
  | leave i e =>
    dsimp only [FetchService.step]
    refine h.onCall fun call _ hcall => ?_
    split
    · refine h.setCall (hcall.goto ?_) i
      trivial
    · exact h
  | responded i status body attempts => exact h.responded i status body attempts
  | failed i e =>
    dsimp only [FetchService.step]
    refine h.onCall fun call _ hcall => ?_
    split
    · next token _ =>
      split_ifs
      · refine h.setCall (hcall.goto ?_) i
        trivial
      · refine Inv.setCall (h.release call.key token) (hcall.goto ?_) i
        trivial
    · exact h
  | ownershipLost i message =>
    dsimp only [FetchService.step]
    refine h.onCall fun call _ hcall => ?_
    split
    · refine h.setCall (hcall.goto ?_) i
      trivial
    · exact h
  | store i ttlSeconds =>
    dsimp only [FetchService.step]
    refine h.onCall fun call _ hcall => ?_
    split
    · next token status body attempts hp =>
      have hplace := hcall.place
      rw [hp] at hplace
      exact h.store hcall token attempts ttlSeconds hplace.1 hplace.2
    · exact h
  | proceed i => exact h.proceed hmeets

/-- Every step of a run meets the condition. -/
def Guarded (c : FetchConfig) (events : List FetchEvent) : Prop :=
  ∀ before event after, events = before ++ event :: after → Meets c (run c before) event

theorem Inv.run {events : List FetchEvent} (hguarded : Guarded c events) : Inv c (run c events) := by
  induction events using List.reverseRecOn with
  | nil => exact .init c
  | append_singleton events event ih =>
    have hbefore : Guarded c events := by
      intro before e after heq
      exact hguarded before e (after ++ [event]) (by simp [heq])
    have hstep := (ih hbefore).step (hguarded events event [] rfl)
    unfold FetchService.run at hstep ⊢
    rw [List.foldl_append]
    exact hstep

/-- What `fetch` and `get` may answer. -/
structure Lineage (s : FetchService) : Prop where
  fetched : ∀ call ∈ s.calls, ∀ found, call.place = .answered found →
    Faithful s.given call.origin.name call.path found
  unmarked : ∀ call ∈ s.calls, ∀ found, call.place = .answered found →
    ∀ v, found.result.value = some v → v.Plain
  gets : ∀ r ∈ s.gets, ∀ v, r.value = some v → v.Plain

theorem fetch_lineage (c : FetchConfig) (events : List FetchEvent) (hguarded : Guarded c events) :
    Lineage (run c events) := by
  have h := Inv.run hguarded
  have hfetched : ∀ call ∈ (run c events).calls, ∀ found, call.place = .answered found →
      Faithful (run c events).given call.origin.name call.path found := by
    intro call hmem found hplace
    have hok := (h.calls call hmem).place
    rw [hplace] at hok
    exact hok
  refine ⟨hfetched, fun call hmem found hplace v hv => ?_, h.gets⟩
  obtain ⟨g, -, -, -, rfl⟩ := (hfetched call hmem found hplace).value v hv
  exact ⟨rfl, rfl⟩

/-- Bytes are stored as they are, and so are documents. -/
def valueCodec : Codec Value where
  snapshotValue := some
  valueBytes
    | .bytes body => some body.length
    | .json document => some (Json.utf8 (Json.dumps (fun _ => []) document)).length
  snapshotValue_idem _ := rfl

/-- One origin over a small engine whose clock stands still. -/
def oneOrigin : FetchConfig where
  engine :=
    { maxEntries := 2
      defaultTtlSeconds := 60
      defaultStaleSeconds := 60
      leaseSeconds := 30
      maxMemoryBytes := 4096
      maxEntryBytes := 1024
      evictionPolicy := .lru
      clock := fun _ => 0
      tokenUrlsafe := fun n => String.ofList (List.replicate (n + 1) 't')
      evictionScore := fun _ _ => 0
      codec := valueCodec
      positive := small_positive
      clock_mono := stopped_mono }
  origins := [Gate.brittle]
  validateOriginPath _ path := if path = "/p" then .ok path else .error (.policy "")
  lineagePath path := path
  sha256 text := text
  sha256_injective := Function.injective_id
  snapshotValue_eq _ _ h := (Option.some.inj h).symm
  name_plain := by decide
  path_plain := by
    intro origin path normalized h
    split_ifs at h with hpath
    obtain rfl := Except.ok.inj h
    rw [hpath]
    decide

/-- The events of a fetch whose leader asks the origin. -/
def asked (i : ℕ) (reads : ℕ) : List FetchEvent :=
  [.proceed i, .lead i] ++ List.replicate reads (.proceed i)

/-- A fetch stores a negative response; a forced one fails and falls back to it. -/
def markerReturned : List FetchEvent :=
  .fetch "k" "api" "/p" false :: asked 0 2 ++ [.responded 0 404 [] 1, .store 0 60, .proceed 0] ++
  .fetch "k" "api" "/p" true :: asked 1 1 ++
  [.failed 1 (.origin (.unavailable "origin request failed: timed out")), .proceed 1, .proceed 1,
    .proceed 1]

/-- The state of an answer, whether it has a value, and the negative response its value decodes
to. -/
def answer (call : FetchCall) : Option (FetchState × Bool × Option NegativeValue) :=
  match call.place with
  | .answered found => some (found.result.state, found.result.value.isSome,
      found.result.value.bind negativeOriginValue)
  | _ => none

theorem markerReturned_marker :
    ¬ ∀ (c : FetchConfig) (events : List FetchEvent), Lineage (run c events) := by
  intro h
  have hanswers : (run oneOrigin markerReturned).calls.map answer = [some (.negative, false, none),
      some (.fresh, true, some ⟨"api", "/p", 404, some "/p"⟩)] := by
    decide +kernel
  obtain ⟨call, hmem, hanswer⟩ := List.mem_map.mp (show
    some (.fresh, true, some ⟨"api", "/p", 404, some "/p"⟩) ∈
      (run oneOrigin markerReturned).calls.map answer by rw [hanswers]; simp)
  unfold answer at hanswer
  split at hanswer
  · next found hplace =>
    simp only [Option.some.injEq, Prod.mk.injEq, Option.bind_eq_some_iff] at hanswer
    obtain ⟨-, -, v, hv, hnegative⟩ := hanswer
    have hplain := (h oneOrigin markerReturned).unmarked call hmem found hplace v hv
    rw [hplain.1] at hnegative
    cases hnegative
  · cases hanswer

def isFallback : FetchPlace → Bool
  | .fallsBack _ _ => true
  | _ => false

/-- A run in which no request fails meets the condition. -/
theorem guarded_of_places {events : List FetchEvent} (h : ∀ k < events.length,
    ((run c (events.take k)).calls.all fun call => !isFallback call.place) = true) :
    Guarded c events := by
  rintro before event after rfl
  have hnone := h before.length (by simp)
  rw [List.take_left, List.all_eq_true] at hnone
  cases event with
  | proceed i =>
    intro call hi token e hplace
    have hcall := hnone call (List.mem_of_getElem? hi)
    rw [hplace] at hcall
    cases hcall
  | _ => trivial

/-- A fetch stores a body, and another one finds it. -/
def bodyFetched : List FetchEvent :=
  .fetch "k" "api" "/p" false :: asked 0 2 ++ [.responded 0 200 [104, 105] 1, .store 0 60,
    .proceed 0, .fetch "k" "api" "/p" false, .proceed 1]

theorem bodyFetched_lineage :
    (run oneOrigin bodyFetched).calls.map answer =
      [some (.refreshed, true, none), some (.fresh, true, none)] ∧
      Lineage (run oneOrigin bodyFetched) :=
  ⟨by decide +kernel,
    fetch_lineage oneOrigin bodyFetched (guarded_of_places (by decide +kernel))⟩

end FetchService

end Origin
end MegaCache
