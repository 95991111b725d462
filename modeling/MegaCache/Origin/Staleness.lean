import MegaCache.Origin.Lineage

/-!
# How old an answer of `fetch` may be

An answer from the cache is made from one look into the storage.  The look finds the entry that
some load wrote, and the deadlines of the entry are those of the load: fresh before the time to
live has passed, stale-while-revalidate before that window has passed as well, and stale-if-error
up to the end of both windows.  Which look it is depends on the state of the answer: a follower
shares a fresh answer of its leader, and looks itself before it returns a stale one.
-/

namespace MegaCache
namespace Origin

open Engine

/-- Some step of a run, after the steps before it. -/
def Happens {α : Type} (events : List α) (P : List α → α → Prop) : Prop :=
  ∃ before event after, events = before ++ event :: after ∧ P before event

theorem Happens.more {α : Type} {events : List α} {P : List α → α → Prop} (h : Happens events P)
    (later : List α) : Happens (events ++ later) P := by
  obtain ⟨before, event, after, rfl, hP⟩ := h
  exact ⟨before, event, after ++ later, by simp, hP⟩

theorem Happens.last {α : Type} {events : List α} {event : α} {P : List α → α → Prop}
    (h : P events event) : Happens (events ++ [event]) P :=
  ⟨events, event, [], rfl, h⟩

/-- The places from which the next step is a look into the storage. -/
def FetchPlace.looks : FetchPlace → Bool
  | .reads | .leaderReads | .fallsBack _ _ | .checks _ => true
  | _ => false

namespace Staleness

open FetchService

variable {c : FetchConfig}

/-! ## Loads and looks -/

/-- A load that stored the body of a response. -/
structure Load where
  key : Key
  origin : HTTPOrigin
  path : String
  status : ℤ
  body : List UInt8
  completed : ℚ

namespace Load

def freshUntil (load : Load) : ℚ := load.completed + load.origin.ttlSeconds

/-- The end of the stale-while-revalidate window. -/
def revalidateUntil (load : Load) : ℚ :=
  load.freshUntil + load.origin.staleWhileRevalidateSeconds

/-- The end of the stale-if-error window. -/
def staleUntil (load : Load) : ℚ := load.revalidateUntil + load.origin.staleIfErrorSeconds

/-- What the load wrote. -/
def written (c : FetchConfig) (load : Load) : Written Value where
  value := c.valueDocument load.origin.name load.path load.status load.body
  freshUntil := load.freshUntil
  staleUntil := load.staleUntil
  tags := load.origin.tags.dedup

theorem freshUntil_le (load : Load) : load.freshUntil ≤ load.revalidateUntil := by
  unfold revalidateUntil
  have hwindow : (0 : ℚ) ≤ load.origin.staleWhileRevalidateSeconds := Nat.cast_nonneg _
  linarith

theorem revalidateUntil_le (load : Load) : load.revalidateUntil ≤ load.staleUntil := by
  unfold staleUntil
  have hwindow : (0 : ℚ) ≤ load.origin.staleIfErrorSeconds := Nat.cast_nonneg _
  linarith

end Load

/-- The leader's `put` of a body returns; the load completes when `put` reads the clock. -/
structure Completes (c : FetchConfig) (load : Load) (before : List FetchEvent)
    (event : FetchEvent) : Prop where
  completed : load.completed = c.engine.clock (run c before).engine.ticks
  stored : ∃ i call token attempts r, event = .store i load.origin.ttlSeconds ∧
    (run c before).calls[i]? = some call ∧
    call.place = .stores token load.status load.body attempts ∧
    (call.key = load.key ∧ call.origin = load.origin ∧ call.path = load.path) ∧
    (put c.engine load.key (c.valueDocument load.origin.name load.path load.status load.body)
      (some load.origin.ttlSeconds)
      (some (load.origin.staleWhileRevalidateSeconds + load.origin.staleIfErrorSeconds))
      load.origin.tags (some token) false (run c before).engine).1 = .ok r

/-- Call `i` looks into the storage at `now` and finds what the load wrote before. -/
structure Looks (c : FetchConfig) (i : ℕ) (load : Load) (now : ℚ) (before : List FetchEvent)
    (event : FetchEvent) : Prop where
  proceeds : event = .proceed i
  earlier : Happens before (Completes c load)
  time : now = c.engine.clock (run c before).engine.ticks
  finds : ∃ call entry, (run c before).calls[i]? = some call ∧ call.place.looks = true ∧
    call.key = load.key ∧ (run c before).engine.entries.get? load.key = some entry ∧
    entry.written = load.written c

/-- Call `i` leaves `_coordinate` with the outcome of leader `j`. -/
structure Joins (c : FetchConfig) (i j : ℕ) (before : List FetchEvent) (event : FetchEvent) :
    Prop where
  follows : event = .follow i j
  flight : ∃ call leader, (run c before).calls[i]? = some call ∧ call.place = .coordinates ∧
    (run c before).calls[j]? = some leader ∧ leader.led.isSome = true ∧
    c.coordinationKey call.origin.name call.key call.path =
      c.coordinationKey leader.origin.name leader.key leader.path

/-- The protected refresh of call `j` fails: `_request_with_retries` raises `OriginUnavailable`, or
the lease is no longer owned when it returns. -/
def Fails (c : FetchConfig) (j : ℕ) (before : List FetchEvent) (event : FetchEvent) : Prop :=
  ∃ call token, (run c before).calls[j]? = some call ∧
    ((∃ e, event = .failed j e ∧ e.isUnavailable = true ∧ call.place = .requests token) ∨
      ∃ message status body attempts, event = .ownershipLost j message ∧
        call.place = .stores token status body attempts)

/-- The origin answers the request of call `j` with a body. -/
def Responds (c : FetchConfig) (j : ℕ) (body : List UInt8) (before : List FetchEvent)
    (event : FetchEvent) : Prop :=
  ∃ call token status attempts, (run c before).calls[j]? = some call ∧
    call.place = .requests token ∧ event = .responded j status body attempts ∧
    Accepted call.origin status

/-- A look of call `i` at `now` that found a body of the origin and path. -/
structure Sight (c : FetchConfig) (events : List FetchEvent) (i : ℕ) (origin : HTTPOrigin)
    (path : String) (body : List UInt8) (load : Load) (now : ℚ) : Prop where
  look : Happens events (Looks c i load now)
  origin : load.origin = origin
  path : load.path = path
  body : load.body = body

/-- Call `i` led flight `j` itself, or joined it. -/
def Flight (c : FetchConfig) (events : List FetchEvent) (i j : ℕ) : Prop :=
  j = i ∨ Happens events (Joins c i j)

variable {events : List FetchEvent} {i : ℕ} {origin : HTTPOrigin} {path : String} {found : Found}

theorem Sight.more {body : List UInt8} {load : Load} {now : ℚ}
    (h : Sight c events i origin path body load now) (later : List FetchEvent) :
    Sight c (events ++ later) i origin path body load now :=
  { h with look := h.look.more later }

theorem Flight.more {j : ℕ} (h : Flight c events i j) (later : List FetchEvent) :
    Flight c (events ++ later) i j :=
  h.imp_right fun hjoins => hjoins.more later

/-- What the outcome of a leader was made from. -/
structure Led (c : FetchConfig) (events : List FetchEvent) (i : ℕ) (origin : HTTPOrigin)
    (path : String) (found : Found) : Prop where
  fresh : found.result.state = .fresh → ∀ body, found.result.value = some (.bytes body) →
    ∃ load now, Sight c events i origin path body load now ∧ now < load.freshUntil
  stale : found.result.state ≠ .stale
  failed : found.result.state = .staleIfError → Happens events (Fails c i)
  refreshed : found.result.state = .refreshed → ∀ body, found.result.value = some (.bytes body) →
    Happens events (Responds c i body)
  negative : found.result.state = .negative → found.result.value = none

/-- What the answer to a fetch was made from. -/
structure Timely (c : FetchConfig) (events : List FetchEvent) (i : ℕ) (origin : HTTPOrigin)
    (path : String) (found : Found) : Prop where
  fresh : found.result.state = .fresh → ∀ body, found.result.value = some (.bytes body) →
    ∃ j load now, Flight c events i j ∧ Sight c events j origin path body load now ∧
      now < load.freshUntil
  stale : found.result.state = .stale → ∀ body, found.result.value = some (.bytes body) →
    ∃ load now, Sight c events i origin path body load now ∧ now < load.revalidateUntil
  failed : found.result.state = .staleIfError → ∃ j, Flight c events i j ∧
    Happens events (Fails c j)
  staleIfError : found.result.state = .staleIfError →
    ∀ body, found.result.value = some (.bytes body) →
      ∃ load now, Sight c events i origin path body load now ∧ now < load.staleUntil
  refreshed : found.result.state = .refreshed → ∀ body, found.result.value = some (.bytes body) →
    ∃ j, Flight c events i j ∧ Happens events (Responds c j body)
  negative : found.result.state = .negative → found.result.value = none

theorem Led.more (h : Led c events i origin path found) (later : List FetchEvent) :
    Led c (events ++ later) i origin path found where
  fresh hstate body hbody := by
    obtain ⟨load, now, hsight, hlt⟩ := h.fresh hstate body hbody
    exact ⟨load, now, hsight.more later, hlt⟩
  stale := h.stale
  failed hstate := (h.failed hstate).more later
  refreshed hstate body hbody := (h.refreshed hstate body hbody).more later
  negative := h.negative

theorem Timely.more (h : Timely c events i origin path found) (later : List FetchEvent) :
    Timely c (events ++ later) i origin path found where
  fresh hstate body hbody := by
    obtain ⟨j, load, now, hflight, hsight, hlt⟩ := h.fresh hstate body hbody
    exact ⟨j, load, now, hflight.more later, hsight.more later, hlt⟩
  stale hstate body hbody := by
    obtain ⟨load, now, hsight, hlt⟩ := h.stale hstate body hbody
    exact ⟨load, now, hsight.more later, hlt⟩
  failed hstate := by
    obtain ⟨j, hflight, hfails⟩ := h.failed hstate
    exact ⟨j, hflight.more later, hfails.more later⟩
  staleIfError hstate body hbody := by
    obtain ⟨load, now, hsight, hlt⟩ := h.staleIfError hstate body hbody
    exact ⟨load, now, hsight.more later, hlt⟩
  refreshed hstate body hbody := by
    obtain ⟨j, hflight, hresponds⟩ := h.refreshed hstate body hbody
    exact ⟨j, hflight.more later, hresponds.more later⟩
  negative := h.negative

/-- An outcome other than `stale_if_error` is the answer of every call of the flight. -/
theorem Led.timely {j : ℕ} (h : Led c events j origin path found) (hflight : Flight c events i j)
    (hstate : found.result.state ≠ .staleIfError) : Timely c events i origin path found where
  fresh hfresh body hbody := by
    obtain ⟨load, now, hsight, hlt⟩ := h.fresh hfresh body hbody
    exact ⟨j, load, now, hflight, hsight, hlt⟩
  stale hstale := absurd hstale h.stale
  failed herror := absurd herror hstate
  staleIfError herror := absurd herror hstate
  refreshed hrefreshed body hbody := ⟨j, hflight, h.refreshed hrefreshed body hbody⟩
  negative := h.negative

/-- Whatever its state, an answer that is no new response was found before the last deadline. -/
theorem Timely.alive (h : Timely c events i origin path found)
    (hstate : found.result.state ≠ .refreshed) {body : List UInt8}
    (hbody : found.result.value = some (.bytes body)) :
    ∃ j load now, Flight c events i j ∧ Sight c events j origin path body load now ∧
      now < load.staleUntil := by
  cases hs : found.result.state with
  | fresh =>
    obtain ⟨j, load, now, hflight, hsight, hlt⟩ := h.fresh hs body hbody
    exact ⟨j, load, now, hflight, hsight,
      (hlt.trans_le load.freshUntil_le).trans_le load.revalidateUntil_le⟩
  | stale =>
    obtain ⟨load, now, hsight, hlt⟩ := h.stale hs body hbody
    exact ⟨i, load, now, .inl rfl, hsight, hlt.trans_le load.revalidateUntil_le⟩
  | negative =>
    rw [h.negative hs] at hbody
    cases hbody
  | staleIfError =>
    obtain ⟨load, now, hsight, hlt⟩ := h.staleIfError hs body hbody
    exact ⟨i, load, now, .inl rfl, hsight, hlt⟩
  | refreshed => exact absurd hs hstate

/-! ## One look -/

theorem positive_of_document {name path : String} {status : ℤ} {body : List UInt8}
    {positive : PositiveValue}
    (h : originValue (c.valueDocument name path status body) = some positive) :
    positive = ⟨name, c.lineagePath path, status, body, some (c.sha256 path)⟩ := by
  by_cases hstatus : 200 ≤ status ∧ status ≤ 299
  · rw [originValue_valueDocument _ _ _ hstatus] at h
    exact (Option.some.inj h).symm
  · simp [originValue, FetchConfig.valueDocument, Json.get?, List.lookup, valueMarker,
      hstatus] at h

/-- A body comes from a positive document of the lineage; the times are those of the entry. -/
theorem positive_of_decoded {call : FetchCall} {r : CacheResult Value} {body : List UInt8}
    (hmatch : (call.decoded c r).2 = true)
    (hbody : (call.decoded c r).1.value = some (.bytes body)) :
    ∃ positive, r.value.bind originValue = some positive ∧
      positive.origin = call.origin.name ∧
      c.lineageMatches positive.path positive.requestHash call.path = true ∧
      positive.body = body ∧ (call.decoded c r).1.state = r.state ∧
      (call.decoded c r).1.staleForSeconds = r.staleForSeconds := by
  unfold FetchCall.decoded FetchConfig.decodeCacheResult at hmatch hbody ⊢
  cases hpositive : r.value.bind originValue with
  | some positive =>
    rw [hpositive] at hmatch hbody
    dsimp only at hmatch hbody ⊢
    split_ifs at hmatch hbody with hother
    push Not at hother
    refine ⟨positive, rfl, hother.1, by simpa using hother.2, ?_, ?_, ?_⟩
    · exact Value.bytes.inj (Option.some.inj hbody)
    · rw [if_neg (by push Not; exact hother)]
    · rw [if_neg (by push Not; exact hother)]
  | none =>
    rw [hpositive] at hmatch hbody
    dsimp only at hmatch hbody
    cases hnegative : r.value.bind negativeOriginValue with
    | none =>
      rw [hnegative] at hmatch
      cases hmatch
    | some negative =>
      rw [hnegative] at hbody
      have hvalue : r.value = some (.bytes body) := hbody
      rw [hvalue] at hnegative
      cases hnegative

/-- An origin that `fetch` finds under its name. -/
def Registered (c : FetchConfig) (origin : HTTPOrigin) : Prop :=
  c.origins.find? (fun other => other.name = origin.name) = some origin

theorem Registered.eq {other : HTTPOrigin} (h : Registered c origin) (hother : Registered c other)
    (hname : origin.name = other.name) : origin = other := by
  unfold Registered at h hother
  rw [hname, hother] at h
  exact (Option.some.inj h).symm

/-- What an entry may be: no marked body, or what a load wrote for its key. -/
def Recorded (c : FetchConfig) (events : List FetchEvent) (key : Key) (w : Written Value) : Prop :=
  originValue w.value = none ∨
    ∃ load : Load, Happens events (Completes c load) ∧ load.key = key ∧
      Registered c load.origin ∧ w = load.written c

theorem Recorded.more {key : Key} {w : Written Value} (h : Recorded c events key w)
    (later : List FetchEvent) : Recorded c (events ++ later) key w := by
  obtain h | ⟨load, hload, hkey, horigin, hw⟩ := h
  · exact .inl h
  · exact .inr ⟨load, hload.more later, hkey, horigin, hw⟩

/-- A result from an entry that a load wrote. -/
theorem resultAt_load (c : FetchConfig) (load : Load) (now : ℚ) :
    ((resultAt now (some (load.written c))).state = .fresh → now < load.freshUntil) ∧
    ((resultAt now (some (load.written c))).state = .stale → now < load.staleUntil) ∧
    ((resultAt now (some (load.written c))).state = .stale →
      ((load.origin.staleIfErrorSeconds : ℚ) : Deadline) <
        (resultAt now (some (load.written c))).staleForSeconds → now < load.revalidateUntil) ∧
    ((resultAt now (some (load.written c))).state = .stale → load.freshUntil ≤ now) := by
  simp only [resultAt, Load.written, WithTop.coe_le_coe, WithTop.coe_lt_coe]
  split_ifs with hstale hfresh
  · simp [CacheResult.miss]
  · simpa using hfresh
  · refine ⟨fun hstate => ?_, fun _ => not_le.mp hstale, fun _ hwindow => ?_, fun _ => not_lt.mp hfresh⟩
    · cases hstate
    -- the time that remains is more than the second window
    simp only [remaining, WithTop.map_coe, WithTop.coe_lt_coe] at hwindow
    have hwindow' : (load.origin.staleIfErrorSeconds : ℚ) < load.staleUntil - now := by
      rwa [max_eq_right (by linarith [not_le.mp hstale])] at hwindow
    unfold Load.staleUntil at hwindow'
    linarith

/-! ## The invariant -/

/-- What a place of call `i` was reached with. -/
def PlaceTimely (c : FetchConfig) (events : List FetchEvent) (i : ℕ) (origin : HTTPOrigin)
    (path : String) : FetchPlace → Prop
  | .stores _ _ body _ => Happens events (Responds c i body)
  | .fails _ _ | .fallsBack _ _ => Happens events (Fails c i)
  | .concludes (.ok found) => Led c events i origin path found
  | .checks _ => ∃ j, Flight c events i j ∧ Happens events (Fails c j)
  | .answered found => Timely c events i origin path found
  | _ => True

structure CallTimely (c : FetchConfig) (events : List FetchEvent) (i : ℕ) (call : FetchCall) :
    Prop where
  origin : Registered c call.origin
  path : '\x00' ∉ call.path.toList
  place : PlaceTimely c events i call.origin call.path call.place
  led : ∀ found, call.led = some (.ok found) → Led c events i call.origin call.path found

structure StateTimely (c : FetchConfig) (events : List FetchEvent) (s : FetchService) : Prop where
  sound : Sound c.engine s.engine
  entries : HoldsAt (Recorded c events) s.engine
  calls : ∀ i call, s.calls[i]? = some call → CallTimely c events i call

theorem PlaceTimely.more {place : FetchPlace} (h : PlaceTimely c events i origin path place)
    (later : List FetchEvent) : PlaceTimely c (events ++ later) i origin path place := by
  cases place with
  | stores token status body attempts => exact Happens.more h later
  | fails token e => exact Happens.more h later
  | fallsBack token e => exact Happens.more h later
  | concludes outcome =>
    cases outcome with
    | error e => trivial
    | ok found => exact Led.more h later
  | checks found =>
    obtain ⟨j, hflight, hfails⟩ := h
    exact ⟨j, hflight.more later, hfails.more later⟩
  | answered found => exact Timely.more h later
  | _ => trivial

theorem CallTimely.more {call : FetchCall} (h : CallTimely c events i call)
    (later : List FetchEvent) : CallTimely c (events ++ later) i call where
  origin := h.origin
  path := h.path
  place := h.place.more later
  led found hfound := (h.led found hfound).more later

theorem CallTimely.goto {call : FetchCall} (h : CallTimely c events i call) {place : FetchPlace}
    (hplace : PlaceTimely c events i call.origin call.path place) :
    CallTimely c events i (call.goto place) where
  origin := h.origin
  path := h.path
  place := hplace
  led := h.led

/-- After `_coordinate`, with the outcome of flight `j`. -/
theorem CallTimely.coordinated {call : FetchCall} (h : CallTimely c events i call) {j : ℕ}
    (hflight : Flight c events i j) {outcome : Except Raised Found}
    (hled : ∀ found, outcome = .ok found → Led c events j call.origin call.path found) :
    CallTimely c events i (call.coordinated outcome) := by
  cases outcome with
  | error e => exact h.goto trivial
  | ok found =>
    have hfound := hled found rfl
    dsimp only [FetchCall.coordinated]
    split_ifs with hstate
    · exact h.goto ⟨j, hflight, hfound.failed hstate⟩
    · exact h.goto (hfound.timely hflight hstate)

namespace StateTimely

variable {s : FetchService}

theorem more (h : StateTimely c events s) (later : List FetchEvent) :
    StateTimely c (events ++ later) s where
  sound := h.sound
  entries := h.entries.mono fun _ _ hw => hw.more later
  calls i call hi := (h.calls i call hi).more later

theorem setCall (h : StateTimely c events s) {i : ℕ} {call : FetchCall}
    (hcall : CallTimely c events i call) : StateTimely c events (s.setCall i call) where
  sound := h.sound
  entries := h.entries
  calls := by
    intro k other hk
    simp only [FetchService.setCall, List.getElem?_set] at hk
    split_ifs at hk with heq hlt
    · rw [← heq, ← Option.some.inj hk]
      exact hcall
    · exact h.calls k other hk

/-- A call of the storage that writes no marked body and is no `expire`. -/
theorem storage (h : StateTimely c events s) (call : Engine.Call Value)
    (hexpire : ∀ key ttlSeconds, call ≠ .expire key ttlSeconds)
    (hw : call.WritingAt c.engine (Recorded c events)) :
    StateTimely c events { s with engine := call.run c.engine s.engine } where
  sound := call.sound h.sound
  entries := h.entries.call h.sound (fun key ttlSeconds heq => absurd heq (hexpire key ttlSeconds))
    hw
  calls := h.calls

theorem release (h : StateTimely c events s) (key : Key) (token : String) :
    StateTimely c events (s.release key token) :=
  h.storage (.releaseLease key token) nofun trivial

theorem afterGet (h : StateTimely c events s) (key : Key) :
    StateTimely c events { s with engine := (getEntry c.engine key s.engine).2 } :=
  h.storage (.get key) nofun trivial

/-- What a look that decodes to a body of the lineage found. -/
theorem sight (h : StateTimely c events (run c events)) {i : ℕ} {call : FetchCall}
    (hi : (run c events).calls[i]? = some call) (hlooks : call.place.looks = true)
    {r : CacheResult Value} {engine : Engine Value}
    (hr : getEntry c.engine call.key (run c events).engine = (.ok r, engine)) {body : List UInt8}
    (hmatch : (call.decoded c r).2 = true)
    (hbody : (call.decoded c r).1.value = some (.bytes body)) :
    ∃ load : Load, Sight c (events ++ [.proceed i]) i call.origin call.path body load
        (c.engine.clock (run c events).engine.ticks) ∧
      r = resultAt (c.engine.clock (run c events).engine.ticks) (some (load.written c)) := by
  obtain ⟨positive, hpositive, hname, hlineage, hsame, -, -⟩ := positive_of_decoded hmatch hbody
  have hresult := lookup_result (getEntry_ok hr)
  rw [lookupAt_result] at hresult
  cases hg : (run c events).engine.entries.get? call.key with
  | none =>
    rw [hg, Option.map_none] at hresult
    rw [hresult] at hpositive
    cases hpositive
  | some entry =>
    rw [hg, Option.map_some] at hresult
    have hvalue : originValue entry.written.value = some positive := by
      rw [hresult, resultAt] at hpositive
      split_ifs at hpositive
      · cases hpositive
      · exact hpositive
      · exact hpositive
    obtain hnone | ⟨load, hload, hkey, hregistered, hwritten⟩ := h.entries call.key entry hg
    · rw [hnone] at hvalue
      cases hvalue
    · rw [hwritten] at hvalue hresult
      have hdocument := positive_of_document hvalue
      subst hdocument
      refine ⟨load, ⟨Happens.last ⟨rfl, hload, rfl, call, entry, hi, hlooks, hkey.symm, ?_, hwritten⟩,
        ?_, ?_, hsame⟩, hresult⟩
      · rw [hkey]
        exact hg
      · exact hregistered.eq (h.calls i call hi).origin hname
      · exact lineageMatches_sha256.mp hlineage

end StateTimely

/-! ## Steps -/

theorem run_append (c : FetchConfig) (events : List FetchEvent) (event : FetchEvent) :
    run c (events ++ [event]) = (run c events).step c event := by
  unfold run
  rw [List.foldl_append]
  rfl

/-- The time to live is the one of the origin: `expire` is not called, and a load stores with the
configured number of seconds. -/
def Steady (s : FetchService) : FetchEvent → Prop
  | .client call => ∀ key ttlSeconds, call.1 ≠ .expire key ttlSeconds
  | .store i ttlSeconds => ∀ call, s.calls[i]? = some call → ttlSeconds = call.origin.ttlSeconds
  | _ => True

namespace StateTimely

variable {call : FetchCall}

/-- A look, by what becomes of the call. -/
theorem read (h : StateTimely c events (run c events)) (hi : (run c events).calls[i]? = some call)
    {raised : Raised → FetchPlace} {next : CacheResult Value → FetchPlace}
    (hraised : ∀ e, PlaceTimely c (events ++ [.proceed i]) i call.origin call.path (raised e))
    (hnext : ∀ r engine, getEntry c.engine call.key (run c events).engine = (.ok r, engine) →
      PlaceTimely c (events ++ [.proceed i]) i call.origin call.path (next r)) :
    StateTimely c (events ++ [.proceed i]) ((run c events).read c i call raised next) := by
  have hget := (h.more [.proceed i]).afterGet call.key
  have hcall := (h.calls i call hi).more [.proceed i]
  unfold FetchService.read
  rcases hr : getEntry c.engine call.key (run c events).engine with ⟨e | r, engine⟩
  · rw [hr] at hget
    exact hget.setCall (hcall.goto (hraised _))
  · rw [hr] at hget
    exact hget.setCall (hcall.goto (hnext r engine hr))

/-- The answer from a fresh entry. -/
theorem fresh_sight (h : StateTimely c events (run c events))
    (hi : (run c events).calls[i]? = some call) (hlooks : call.place.looks = true)
    {r : CacheResult Value} {engine : Engine Value}
    (hr : getEntry c.engine call.key (run c events).engine = (.ok r, engine)) {body : List UInt8}
    (hmatch : (call.decoded c r).2 = true) (hfresh : (call.decoded c r).1.state = .fresh)
    (hbody : (call.decoded c r).1.value = some (.bytes body)) :
    ∃ load now, Sight c (events ++ [.proceed i]) i call.origin call.path body load now ∧
      now < load.freshUntil := by
  obtain ⟨-, -, -, -, -, hstate, -⟩ := positive_of_decoded hmatch hbody
  obtain ⟨load, hsight, hresult⟩ := h.sight hi hlooks hr hmatch hbody
  refine ⟨load, _, hsight, (resultAt_load c load _).1 ?_⟩
  rw [← hresult, ← hstate]
  exact hfresh

/-- The answer from a stale entry. -/
theorem stale_sight (h : StateTimely c events (run c events))
    (hi : (run c events).calls[i]? = some call) (hlooks : call.place.looks = true)
    {r : CacheResult Value} {engine : Engine Value}
    (hr : getEntry c.engine call.key (run c events).engine = (.ok r, engine)) {body : List UInt8}
    (hmatch : (call.decoded c r).2 = true) (hstale : (call.decoded c r).1.state = .stale)
    (hbody : (call.decoded c r).1.value = some (.bytes body)) :
    ∃ load now, Sight c (events ++ [.proceed i]) i call.origin call.path body load now ∧
      now < load.staleUntil ∧
      (((call.origin.staleIfErrorSeconds : ℚ) : Deadline) <
        (call.decoded c r).1.staleForSeconds → now < load.revalidateUntil) := by
  obtain ⟨-, -, -, -, -, hstate, hwindow⟩ := positive_of_decoded hmatch hbody
  obtain ⟨load, hsight, hresult⟩ := h.sight hi hlooks hr hmatch hbody
  obtain ⟨-, hlast, hrevalidate, -⟩ := resultAt_load c load
    (c.engine.clock (run c events).engine.ticks)
  rw [← hresult, ← hstate] at hlast hrevalidate
  rw [← hwindow, hsight.origin] at hrevalidate
  exact ⟨load, _, hsight, hlast hstale, hrevalidate hstale⟩

end StateTimely

theorem Led.freshFound {call : FetchCall} {cached : CacheResult Value} {source : Option Value}
    (h : ∀ body, cached.value = some (.bytes body) →
      ∃ load now, Sight c events i origin path body load now ∧ now < load.freshUntil) :
    Led c events i origin path (call.freshFound cached source) := by
  unfold FetchCall.freshFound
  cases cached.value.bind negativeOriginValue with
  | none => exact ⟨fun _ => h, nofun, nofun, nofun, nofun⟩
  | some negative => exact ⟨nofun, nofun, nofun, nofun, fun _ => rfl⟩

theorem freshFound_state (call : FetchCall) (cached : CacheResult Value) (source : Option Value) :
    (call.freshFound cached source).result.state ≠ .staleIfError := by
  unfold FetchCall.freshFound
  cases cached.value.bind negativeOriginValue with
  | none => exact nofun
  | some negative => exact nofun

namespace StateTimely

variable {call : FetchCall}

/-- The first look answers from a fresh entry, or from a stale one of the first window. -/
theorem firstRead (h : StateTimely c events (run c events))
    (hi : (run c events).calls[i]? = some call) (hlooks : call.place.looks = true)
    {r : CacheResult Value} {engine : Engine Value}
    (hr : getEntry c.engine call.key (run c events).engine = (.ok r, engine)) :
    PlaceTimely c (events ++ [.proceed i]) i call.origin call.path (call.firstRead c r) := by
  unfold FetchCall.firstRead FetchCall.sighted
  by_cases hmatch : (call.decoded c r).2 = true
  · rw [if_pos hmatch]
    split_ifs with hfresh hstale
    · refine Led.timely (Led.freshFound fun body hbody => ?_) (.inl rfl) (freshFound_state _ _ _)
      exact h.fresh_sight hi hlooks hr hmatch hfresh.2 hbody
    · refine ⟨nofun, fun _ body hbody => ?_, nofun, nofun, nofun, nofun⟩
      obtain ⟨load, now, hsight, -, hwindow⟩ :=
        h.stale_sight hi hlooks hr hmatch hstale.2.1 hbody
      exact ⟨load, now, hsight, hwindow hstale.2.2⟩
    · trivial
  · rw [if_neg hmatch]
    split_ifs with hfresh hstale
    · cases hfresh.2
    · cases hstale.2.1
    · trivial

theorem leaderRead (h : StateTimely c events (run c events))
    (hi : (run c events).calls[i]? = some call) (hlooks : call.place.looks = true)
    {r : CacheResult Value} {engine : Engine Value}
    (hr : getEntry c.engine call.key (run c events).engine = (.ok r, engine)) :
    PlaceTimely c (events ++ [.proceed i]) i call.origin call.path (call.leaderRead c r) := by
  unfold FetchCall.leaderRead FetchCall.sighted
  by_cases hmatch : (call.decoded c r).2 = true
  · rw [if_pos hmatch]
    split_ifs with hfresh
    · exact Led.freshFound fun body hbody => h.fresh_sight hi hlooks hr hmatch hfresh hbody
    · trivial
  · rw [if_neg hmatch]
    split_ifs with hfresh
    · cases hfresh
    · trivial

/-- The last look of a call whose flight failed. -/
theorem lastRead (h : StateTimely c events (run c events))
    (hi : (run c events).calls[i]? = some call) {found : Found} (hplace : call.place = .checks found)
    {r : CacheResult Value} {engine : Engine Value}
    (hr : getEntry c.engine call.key (run c events).engine = (.ok r, engine)) :
    PlaceTimely c (events ++ [.proceed i]) i call.origin call.path (call.lastRead c found r) := by
  have hlooks : call.place.looks = true := by
    rw [hplace]
    rfl
  have hfailed := ((h.calls i call hi).more [.proceed i]).place
  rw [hplace] at hfailed
  unfold FetchCall.lastRead
  split_ifs with hstale hfresh
  · refine ⟨nofun, nofun, fun _ => hfailed, fun _ body hbody => ?_, nofun, nofun⟩
    obtain ⟨load, now, hsight, hlt, -⟩ := h.stale_sight hi hlooks hr hstale.1 hstale.2 hbody
    exact ⟨load, now, hsight, hlt⟩
  · refine Led.timely (Led.freshFound fun body hbody => ?_) (.inl rfl) (freshFound_state _ _ _)
    exact h.fresh_sight hi hlooks hr hfresh.1 hfresh.2 hbody
  · trivial

/-- The fallback after a failed refresh. -/
theorem fallback (h : StateTimely c events (run c events))
    (hi : (run c events).calls[i]? = some call) {token : String} {e : Raised}
    (hplace : call.place = .fallsBack token e) {r : CacheResult Value} {engine : Engine Value}
    (hr : getEntry c.engine call.key (run c events).engine = (.ok r, engine)) {found : Found}
    (hfound : call.fallback c e r = some found) :
    Led c (events ++ [.proceed i]) i call.origin call.path found := by
  have hlooks : call.place.looks = true := by
    rw [hplace]
    rfl
  have hfailed := ((h.calls i call hi).more [.proceed i]).place
  rw [hplace] at hfailed
  unfold FetchCall.fallback at hfound
  split_ifs at hfound with hfresh hstale
  · obtain rfl := Option.some.inj hfound
    refine ⟨fun _ body hbody => ?_, nofun, nofun, nofun, nofun⟩
    exact h.fresh_sight hi hlooks hr hfresh.1 hfresh.2 hbody
  · obtain rfl := Option.some.inj hfound
    exact ⟨nofun, nofun, fun _ => hfailed, nofun, nofun⟩

theorem lease {s : FetchService} (h : StateTimely c events s) (hcall : CallTimely c events i call) :
    StateTimely c events (s.lease c i call) := by
  have hlease : StateTimely c events
      { s with engine := (acquireLease c.engine call.key true s.engine).2 } :=
    h.storage (.acquireLease call.key true) nofun trivial
  unfold FetchService.lease
  rcases hr : acquireLease c.engine call.key true s.engine with ⟨e | r, engine⟩
  · rw [hr] at hlease
    exact hlease.setCall (hcall.goto trivial)
  · rw [hr] at hlease
    dsimp only
    split
    · exact hlease.setCall (hcall.goto trivial)
    · exact hlease.setCall (hcall.goto trivial)

theorem proceed (h : StateTimely c events (run c events)) (i : ℕ) :
    StateTimely c (events ++ [.proceed i]) ((run c events).proceed c i) := by
  have hmore := h.more [.proceed i]
  unfold FetchService.proceed
  cases hi : (run c events).calls[i]? with
  | none => exact hmore
  | some call =>
    have hcall := (h.calls i call hi).more [.proceed i]
    have hplace := hcall.place
    dsimp only
    split
    · next hp => exact h.read hi (fun _ => trivial) fun r _ hr =>
        h.firstRead hi (by rw [hp]; rfl) hr
    · next hp => exact h.read hi (fun _ => trivial) fun r _ hr =>
        h.leaderRead hi (by rw [hp]; rfl) hr
    · exact hmore.lease hcall
    · next token e hp =>
      rw [hp] at hplace
      exact (hmore.release call.key token).setCall (hcall.goto hplace)
    · next token e hp =>
      have hget := hmore.afterGet call.key
      split
      · next e' engine hr =>
        rw [hr] at hget
        exact (hget.release call.key token).setCall (hcall.goto trivial)
      · next r engine hr =>
        rw [hr] at hget
        split
        · next found hfound =>
          exact hget.setCall (hcall.goto (h.fallback hi hp hr hfound))
        · exact (hget.release call.key token).setCall (hcall.goto trivial)
    · next outcome hp =>
      have hled : ∀ found, outcome = .ok found →
          Led c (events ++ [.proceed i]) i call.origin call.path found := by
        rintro found rfl
        rw [hp] at hplace
        exact hplace
      have hnext := hcall.coordinated (.inl rfl) hled
      obtain ⟨horigin, hpath⟩ := FetchCall.coordinated_lineage call outcome
      refine hmore.setCall ⟨hnext.origin, hnext.path, hnext.place, fun found hfound => ?_⟩
      show Led c _ i (call.coordinated outcome).origin (call.coordinated outcome).path found
      rw [horigin, hpath]
      exact hled found (Option.some.inj hfound)
    · next found hp => exact h.read hi (fun _ => trivial) fun r _ hr => h.lastRead hi hp hr
    · exact hmore

/-- A leader stores a response. -/
theorem store (h : StateTimely c events (run c events)) {i : ℕ}
    (hi : (run c events).calls[i]? = some call) {token : String} {status : ℤ} {body : List UInt8}
    {attempts : ℕ} (hplace : call.place = .stores token status body attempts) :
    StateTimely c (events ++ [.store i call.origin.ttlSeconds])
      ((run c events).store c i call token status body attempts call.origin.ttlSeconds) := by
  have hmore := h.more [.store i call.origin.ttlSeconds]
  have hcall := (h.calls i call hi).more [.store i call.origin.ttlSeconds]
  have hresponds := hcall.place
  rw [hplace] at hresponds
  unfold FetchService.store
  split_ifs with hnegative
  · have hput := hmore.storage
      (.put call.key (c.negativeDocument call.origin.name call.path status)
        (some call.origin.negativeTtlSeconds) (some 0) call.origin.tags (some token) false)
      (fun _ _ hcall => by cases hcall)
      fun now w hw => .inl (by rw [putRecord_value hw]; exact originValue_negativeDocument _ _ _)
    dsimp only [Call.run] at hput
    split
    · next e engine hr =>
      rw [hr] at hput
      exact (hput.release call.key token).setCall (hcall.goto trivial)
    · next r engine hr =>
      rw [hr] at hput
      refine hput.setCall (hcall.goto ⟨fun hstate => ?_, fun hstate => ?_, fun hstate => ?_,
        fun hstate => ?_, fun _ => rfl⟩)
      all_goals cases hstate
  · have hput : StateTimely c (events ++ [.store i call.origin.ttlSeconds])
        { run c events with
          engine := (put c.engine call.key
            (c.valueDocument call.origin.name call.path status body) (some call.origin.ttlSeconds)
            (some (call.origin.staleWhileRevalidateSeconds + call.origin.staleIfErrorSeconds))
            call.origin.tags (some token) false (run c events).engine).2 } := by
      refine ⟨sound_put _ _ _ _ _ _ _ _ h.sound, ?_, hmore.calls⟩
      refine hmore.entries.put h.sound fun r hr w hw => .inr ?_
      refine ⟨⟨call.key, call.origin, call.path, status, body,
        c.engine.clock (run c events).engine.ticks⟩, ?_, rfl, hcall.origin, ?_⟩
      · exact Happens.last ⟨rfl, i, call, token, attempts, r, rfl, hi, hplace, ⟨rfl, rfl, rfl⟩, hr⟩
      · simp only [TimedMap.putRecord, Option.map_eq_some_iff] at hw
        obtain ⟨stored, hstored, rfl⟩ := hw
        rw [c.snapshotValue_eq _ _ hstored]
        simp [Load.written, Load.freshUntil, Load.staleUntil, Load.revalidateUntil, add_assoc]
    split
    · next e engine hr =>
      rw [hr] at hput
      exact (hput.release call.key token).setCall (hcall.goto trivial)
    · next r engine hr =>
      rw [hr] at hput
      refine hput.setCall (hcall.goto ⟨fun hstate => ?_, fun hstate => ?_, fun hstate => ?_,
        fun _ body' hbody => ?_, fun hstate => ?_⟩)
      case refine_4 =>
        obtain rfl := Value.bytes.inj (Option.some.inj hbody)
        exact hresponds
      all_goals cases hstate

/-- A follower has the origin and the path of its leader. -/
theorem follow (h : StateTimely c events (run c events)) (i j : ℕ) :
    StateTimely c (events ++ [.follow i j]) ((run c events).step c (.follow i j)) := by
  have hmore := h.more [.follow i j]
  dsimp only [FetchService.step, FetchService.onCall]
  cases hi : (run c events).calls[i]? with
  | none => exact hmore
  | some call =>
    have hcall := (h.calls i call hi).more [.follow i j]
    dsimp only
    split
    · next leader outcome hp hleader =>
      split_ifs with hkey
      · simp only [Option.bind_eq_some_iff, Option.map_eq_some_iff, Prod.mk.injEq] at hleader
        obtain ⟨leader', hj, outcome', hled, rfl, rfl⟩ := hleader
        have hok := (h.calls j leader' hj).more [.follow i j]
        obtain ⟨hname, hpath⟩ := coordinationKey_inj
          (c.name_plain _ (List.mem_of_find?_eq_some hcall.origin))
          (c.name_plain _ (List.mem_of_find?_eq_some hok.origin)) hcall.path hok.path hkey
        have horigin := hcall.origin.eq hok.origin hname
        have hjoins : Flight c (events ++ [.follow i j]) i j :=
          .inr (Happens.last ⟨rfl, call, leader', hi, hp, hj, by rw [hled]; rfl, hkey⟩)
        refine hmore.setCall (hcall.coordinated hjoins fun found hfound => ?_)
        rw [horigin, hpath]
        exact hok.led found (hfound ▸ hled)
      · exact hmore
    · exact hmore

theorem responded (h : StateTimely c events (run c events)) (i : ℕ) (status : ℤ)
    (body : List UInt8) (attempts : ℕ) :
    StateTimely c (events ++ [.responded i status body attempts])
      ((run c events).step c (.responded i status body attempts)) := by
  have hmore := h.more [.responded i status body attempts]
  dsimp only [FetchService.step, FetchService.onCall]
  cases hi : (run c events).calls[i]? with
  | none => exact hmore
  | some call =>
    have hcall := (h.calls i call hi).more [.responded i status body attempts]
    dsimp only
    split
    · next token hp =>
      split_ifs with haccepted
      · have hsame : StateTimely c (events ++ [.responded i status body attempts])
            { run c events with
              given := ⟨call.origin.name, call.path, status, body⟩ :: (run c events).given } :=
          ⟨hmore.sound, hmore.entries, hmore.calls⟩
        exact hsame.setCall (hcall.goto
          (Happens.last ⟨call, token, status, attempts, hi, hp, rfl, haccepted⟩))
      · exact hmore
    · exact hmore

theorem failed (h : StateTimely c events (run c events)) (i : ℕ) (e : Raised) :
    StateTimely c (events ++ [.failed i e]) ((run c events).step c (.failed i e)) := by
  have hmore := h.more [.failed i e]
  dsimp only [FetchService.step, FetchService.onCall]
  cases hi : (run c events).calls[i]? with
  | none => exact hmore
  | some call =>
    have hcall := (h.calls i call hi).more [.failed i e]
    dsimp only
    split
    · next token hp =>
      split_ifs with hunavailable
      · exact hmore.setCall (hcall.goto
          (Happens.last ⟨call, token, hi, .inl ⟨e, rfl, hunavailable, hp⟩⟩))
      · exact (hmore.release call.key token).setCall (hcall.goto trivial)
    · exact hmore

theorem ownershipLost (h : StateTimely c events (run c events)) (i : ℕ) (message : String) :
    StateTimely c (events ++ [.ownershipLost i message])
      ((run c events).step c (.ownershipLost i message)) := by
  have hmore := h.more [.ownershipLost i message]
  dsimp only [FetchService.step, FetchService.onCall]
  cases hi : (run c events).calls[i]? with
  | none => exact hmore
  | some call =>
    have hcall := (h.calls i call hi).more [.ownershipLost i message]
    dsimp only
    split
    · next token status body attempts hp =>
      exact hmore.setCall (hcall.goto (Happens.last
        ⟨call, token, hi, .inr ⟨message, status, body, attempts, rfl, hp⟩⟩))
    · exact hmore

theorem fetch (h : StateTimely c events (run c events)) (key : Key) (originName path : String)
    (forceRefresh : Bool) :
    StateTimely c events ((run c events).fetch c key originName path forceRefresh) := by
  unfold FetchService.fetch
  split_ifs
  · exact h
  · split
    · exact h
    · next origin horigin =>
      split
      · exact h
      · next requestPath hpath =>
        refine ⟨h.sound, h.entries, fun i call hi => ?_⟩
        rw [List.getElem?_append] at hi
        split_ifs at hi with hlt
        · exact h.calls i call hi
        · have hnew := List.mem_of_getElem? hi
          rw [List.mem_singleton.mp hnew]
          refine ⟨?_, c.path_plain origin path requestPath hpath, trivial, nofun⟩
          have hname := List.find?_some horigin
          rw [decide_eq_true_eq] at hname
          unfold Registered
          rw [hname]
          exact horigin

theorem step (h : StateTimely c events (run c events)) {event : FetchEvent}
    (hsteady : Steady (run c events) event) :
    StateTimely c (events ++ [event]) (run c (events ++ [event])) := by
  rw [run_append]
  have hmore := h.more [event]
  cases event with
  | client call =>
    refine hmore.storage call.1 hsteady ((plainCall_writing call.2 []).at.mono fun _ w hw => .inl ?_)
    cases hw with
    | plain hw => exact hw.2
    | positive hg => cases hg
    | negative hg => cases hg
  | get key =>
    have hget := hmore.afterGet key
    dsimp only [FetchService.step]
    unfold FetchService.getValue
    rcases hr : getEntry c.engine key (run c events).engine with ⟨e | r, engine⟩
    · rw [hr] at hget
      exact hget
    · rw [hr] at hget
      exact ⟨hget.sound, hget.entries, hget.calls⟩
  | shutdown => exact ⟨hmore.sound, hmore.entries, hmore.calls⟩
  | fetch key originName path forceRefresh =>
    exact (h.fetch key originName path forceRefresh).more _
  | lead i =>
    dsimp only [FetchService.step, FetchService.onCall]
    cases hi : (run c events).calls[i]? with
    | none => exact hmore
    | some call =>
      dsimp only
      split
      · refine hmore.setCall ((hmore.calls i call hi).goto ?_)
        split_ifs <;> trivial
      · exact hmore
  | follow i j => exact h.follow i j
  | leave i e =>
    dsimp only [FetchService.step, FetchService.onCall]
    cases hi : (run c events).calls[i]? with
    | none => exact hmore
    | some call =>
      dsimp only
      split
      · exact hmore.setCall ((hmore.calls i call hi).goto trivial)
      · exact hmore
  | responded i status body attempts => exact h.responded i status body attempts
  | failed i e => exact h.failed i e
  | ownershipLost i message => exact h.ownershipLost i message
  | store i ttlSeconds =>
    dsimp only [FetchService.step, FetchService.onCall]
    cases hi : (run c events).calls[i]? with
    | none => exact hmore
    | some call =>
      obtain rfl := hsteady call hi
      dsimp only
      split
      · next token status body attempts hp => exact h.store hi hp
      · exact hmore
  | proceed i => exact h.proceed i

end StateTimely

/-- Every step of a run leaves the time to live as it is configured. -/
def FixedTtl (c : FetchConfig) (events : List FetchEvent) : Prop :=
  ∀ before event after, events = before ++ event :: after → Steady (run c before) event

theorem StateTimely.run {events : List FetchEvent} (hfixed : FixedTtl c events) :
    StateTimely c events (run c events) := by
  induction events using List.reverseRecOn with
  | nil => exact ⟨Sound.init c.engine, by simp [HoldsAt, FetchService.run, FetchService.init,
      Engine.init], by simp [FetchService.run, FetchService.init]⟩
  | append_singleton events event ih =>
    have hbefore : FixedTtl c events := by
      intro before e after heq
      exact hfixed before e (after ++ [event]) (by simp [heq])
    exact (ih hbefore).step (hfixed events event [] rfl)

theorem fetch_timely (c : FetchConfig) (events : List FetchEvent) (hfixed : FixedTtl c events)
    (i : ℕ) (call : FetchCall) (hi : (FetchService.run c events).calls[i]? = some call)
    (found : Found) (hplace : call.place = .answered found) :
    Timely c events i call.origin call.path found ∧
      ∀ body, found.result.value = some (.bytes body) → found.result.state ≠ .refreshed →
        ∃ j load now, Flight c events i j ∧ Sight c events j call.origin call.path body load now ∧
          now < load.staleUntil := by
  have hcall := (StateTimely.run hfixed).calls i call hi
  have htimely := hcall.place
  rw [hplace] at htimely
  exact ⟨htimely, fun body hbody hstate => Timely.alive htimely hstate hbody⟩

/-! ## Two runs -/

/-- `oneOrigin` with a stale-if-error window, where 100 seconds pass after the first `n` readings of
the clock. -/
def ageing (n : ℕ) : FetchConfig where
  engine :=
    { oneOrigin.engine with
      clock := fun k => if k < n then 0 else 100
      clock_mono := by
        intro k m hkm
        dsimp only
        split_ifs
        · exact le_rfl
        · norm_num
        · omega
        · exact le_rfl }
  origins := [{ Gate.brittle with staleIfErrorSeconds := 100 }]
  validateOriginPath := oneOrigin.validateOriginPath
  lineagePath := oneOrigin.lineagePath
  sha256 := oneOrigin.sha256
  sha256_injective := oneOrigin.sha256_injective
  snapshotValue_eq := oneOrigin.snapshotValue_eq
  name_plain := by decide
  path_plain := oneOrigin.path_plain

/-- Whether an event keeps to a time to live. -/
def keepsTtl (ttlSeconds : ℕ) : FetchEvent → Bool
  | .client _ => false
  | .store _ t => t = ttlSeconds
  | _ => true

theorem fixedTtl_of_origins (ttlSeconds : ℕ) (hevents : events.all (keepsTtl ttlSeconds) = true)
    (hcalls : ∀ k < events.length, ((FetchService.run c (events.take k)).calls.all fun call =>
      call.origin.ttlSeconds = ttlSeconds) = true) : FixedTtl c events := by
  rintro before event after rfl
  have hevent := List.all_eq_true.mp hevents event (by simp)
  have hbefore := hcalls before.length (by simp)
  rw [List.take_left, List.all_eq_true] at hbefore
  cases event with
  | client call => cases hevent
  | store i t =>
    intro call hi
    have hcall := hbefore call (List.mem_of_getElem? hi)
    rw [decide_eq_true_eq] at hcall
    rw [hcall]
    exact of_decide_eq_true hevent
  | _ => trivial

/-- Call 0 stores a body while call 1, which missed it, waits to lead; call 1 finds it fresh. -/
def foundFresh : List FetchEvent :=
  .fetch "k" "api" "/p" false :: asked 0 2 ++ [.responded 0 200 [104, 105] 1,
    .fetch "k" "api" "/p" false, .proceed 1, .store 0 60, .proceed 0, .lead 1, .proceed 1,
    .fetch "k" "api" "/p" false]

/-- Call 2 finds the entry stale, and joins the flight of call 1. -/
def sharedLate : List FetchEvent := foundFresh ++ [.proceed 2, .proceed 1, .follow 2 1]

/-- A body is stored; a later request is answered, but its lease is lost before the answer is
stored. -/
def leaseLost : List FetchEvent :=
  .fetch "k" "api" "/p" false :: asked 0 2 ++ [.responded 0 200 [104, 105] 1, .store 0 60,
    .proceed 0, .fetch "k" "api" "/p" false] ++ asked 1 2 ++ [.responded 1 200 [106] 1,
    .ownershipLost 1 "lease", .proceed 1, .proceed 1, .proceed 1, .proceed 1]

/-- The state and the body of an answer. -/
def bodyAnswered (call : FetchCall) : Option (FetchState × List UInt8) :=
  match call.place with
  | .answered found =>
    match found.result.value with
    | some (.bytes body) => some (found.result.state, body)
    | _ => none
  | _ => none

theorem answered_of_bodyAnswered {call : FetchCall} {state : FetchState} {body : List UInt8}
    (h : bodyAnswered call = some (state, body)) : ∃ found, call.place = .answered found ∧
      found.result.state = state ∧ found.result.value = some (.bytes body) := by
  unfold bodyAnswered at h
  split at h
  · next found hplace =>
    split at h
    · next value hvalue =>
      simp only [Option.some.injEq, Prod.mk.injEq] at h
      exact ⟨found, hplace, h.1, h.2 ▸ hvalue⟩
    · cases h
  · cases h

theorem sharedLate_fixed : FixedTtl (ageing 8) sharedLate :=
  fixedTtl_of_origins 60 (by decide) (by decide +kernel)

theorem leaseLost_fixed : FixedTtl (ageing 6) leaseLost :=
  fixedTtl_of_origins 60 (by decide) (by decide +kernel)

/-- What call `i` would find now: the state of the entry, and the body if it is of its lineage. -/
def glance (c : FetchConfig) (s : FetchService) (i : ℕ) : Option (CacheState × List UInt8) :=
  (s.calls[i]?).bind fun call =>
    match call.place.looks, getEntry c.engine call.key s.engine with
    | true, (.ok r, _) =>
      match (call.decoded c r).2, (call.decoded c r).1.value with
      | true, some (.bytes body) => some (r.state, body)
      | _, _ => none
    | _, _ => none

/-- A look that finds a stale entry comes after the time to live. -/
theorem looks_of_glance (h : StateTimely c events (FetchService.run c events)) {i : ℕ}
    {body : List UInt8} (hglance : glance c (FetchService.run c events) i = some (.stale, body)) :
    ∃ load now, Happens (events ++ [.proceed i]) (Looks c i load now) ∧ load.body = body ∧
      load.freshUntil ≤ now := by
  unfold glance at hglance
  rw [Option.bind_eq_some_iff] at hglance
  obtain ⟨call, hi, hlook⟩ := hglance
  split at hlook
  · next r engine hlooks hr =>
    split at hlook
    · next body' hmatch hbody =>
      obtain ⟨hstale, rfl⟩ := Prod.mk.inj (Option.some.inj hlook)
      obtain ⟨load, hsight, hresult⟩ := h.sight hi hlooks hr hmatch hbody
      refine ⟨load, _, hsight.look, hsight.body, ?_⟩
      exact (resultAt_load c load _).2.2.2 (hresult ▸ hstale)
    · cases hlook
  · cases hlook

theorem fetch_untimely :
    (¬ ∀ (c : FetchConfig) (events : List FetchEvent), FixedTtl c events →
      ∀ (i : ℕ) (call : FetchCall) (found : Found), (FetchService.run c events).calls[i]? = some call →
        call.place = .answered found → found.result.state = .fresh →
        ∀ body, found.result.value = some (.bytes body) →
          ∀ load now, Happens events (Looks c i load now) → load.body = body →
            now < load.freshUntil) ∧
    ¬ ∀ (c : FetchConfig) (events : List FetchEvent), FixedTtl c events →
      ∀ (i : ℕ) (call : FetchCall) (found : Found), (FetchService.run c events).calls[i]? = some call →
        call.place = .answered found → found.result.state = .staleIfError →
          ∃ j e, FetchEvent.failed j e ∈ events := by
  constructor
  · intro h
    have hanswer : ((FetchService.run (ageing 8) sharedLate).calls[2]?).bind bodyAnswered =
        some (.fresh, [104, 105]) := by decide +kernel
    obtain ⟨call, hi, hbody⟩ := Option.bind_eq_some_iff.mp hanswer
    obtain ⟨found, hplace, hstate, hvalue⟩ := answered_of_bodyAnswered hbody
    have hfixed : FixedTtl (ageing 8) foundFresh :=
      fixedTtl_of_origins 60 (by decide) (by decide +kernel)
    obtain ⟨load, now, hlook, hload, hlate⟩ := looks_of_glance (StateTimely.run hfixed)
      (show glance (ageing 8) (FetchService.run (ageing 8) foundFresh) 2 =
        some (.stale, [104, 105]) by decide +kernel)
    have hlook' : Happens sharedLate (Looks (ageing 8) 2 load now) := by
      simpa [sharedLate] using hlook.more [.proceed 1, .follow 2 1]
    exact absurd (h _ _ sharedLate_fixed 2 call found hi hplace hstate _ hvalue load now hlook' hload)
      (not_lt.mpr hlate)
  · intro h
    have hanswer : ((FetchService.run (ageing 6) leaseLost).calls[1]?).bind bodyAnswered =
        some (.staleIfError, [104, 105]) := by decide +kernel
    obtain ⟨call, hi, hbody⟩ := Option.bind_eq_some_iff.mp hanswer
    obtain ⟨found, hplace, hstate, -⟩ := answered_of_bodyAnswered hbody
    obtain ⟨j, e, hmem⟩ := h _ _ leaseLost_fixed 1 call found hi hplace hstate
    simp [leaseLost, asked, List.replicate] at hmem

/-- The body of the first load is returned within its stale-if-error window. -/
theorem leaseLost_timely : ∃ call found,
    (FetchService.run (ageing 6) leaseLost).calls[1]? = some call ∧
      call.place = .answered found ∧ found.result.state = .staleIfError ∧
      Timely (ageing 6) leaseLost 1 call.origin call.path found := by
  have hanswer : ((FetchService.run (ageing 6) leaseLost).calls[1]?).bind bodyAnswered =
      some (.staleIfError, [104, 105]) := by decide +kernel
  obtain ⟨call, hi, hbody⟩ := Option.bind_eq_some_iff.mp hanswer
  obtain ⟨found, hplace, hstate, -⟩ := answered_of_bodyAnswered hbody
  exact ⟨call, found, hi, hplace, hstate,
    (fetch_timely (ageing 6) leaseLost leaseLost_fixed 1 call hi found hplace).1⟩

end Staleness

end Origin
end MegaCache
