import MegaCache.Engine.Runs
import MegaCache.Lib.Flights
import MegaCache.Origin.Types

/-!
# Singleflight

Callers of `CacheEngine.get_or_load`, `CacheEngine.coordinate` and `OriginCache._coordinate`
over one engine.  The leader of an origin flight calls `coordinate` for the same key, so it
leads or follows there as well.  Every block under a lock is one step, and so is every loader,
wait and assignment between them; the steps of different callers come in any order, and any
other call of the engine may come between them.
-/

namespace MegaCache
namespace Origin

open Engine Prog

variable {V R : Type}

/-- What a coordinated operation ends with. -/
abbrev Completion (R : Type) := Except PyError R

/-- Where a caller is.  `outer` is the origin flight that it leads meanwhile. -/
inductive Caller (V R : Type)
  /-- `get_or_load`: the loader runs -/
  | loads (key : Key) (id : ℕ) (ttlSeconds staleSeconds : Option ℤ) (tags : List Tag)
  | loaded (key : Key) (id : ℕ) (outcome : Except PyError (CacheResult V))
  | awaitsLoad (id : ℕ)
  /-- `coordinate`: the loader runs -/
  | leads (key : Key) (id : ℕ) (outer : Option ℕ)
  | led (key : Key) (id : ℕ) (outcome : Completion R) (outer : Option ℕ)
  | awaits (key : Key) (id : ℕ) (outer : Option ℕ)
  /-- `_coordinate`: about to call `coordinate` -/
  | calls (key : Key) (outer : ℕ)
  | returned (key : Key) (outer : ℕ) (outcome : Completion R)
  | closes (key : Key) (outer : ℕ) (outcome : Completion R)
  | follows (facade : ℕ) (key : Key) (outer : ℕ)
  /-- a follower that returns or raises, before it is counted out -/
  | leaves (key : Key) (outer : ℕ)

structure Tower (V R : Type) where
  engine : Engine V
  loads : FlightRegistry Key (Except PyError (CacheResult V))
  coordination : FlightRegistry Key (Completion R)
  origins : FlightRegistry Key (Completion R)
  closed : ℕ → Bool
  callers : List (Caller V R)
  loadAnswers : List (Answer (Except PyError (CacheResult V)))
  coordinationAnswers : List (Answer (Completion R))
  originAnswers : List (Answer (Completion R))
  /-- followers that were shed, timed out or shut down -/
  refused : List OriginError

/-- The engine and the `global_max_queue` of each facade over it. -/
structure Setup (V : Type) where
  engine : EngineConfig V
  globalMaxFollowers : ℕ → ℕ

inductive CallerEvent (V R : Type)
  | client (call : Engine.Call V)
  | shutdown (facade : ℕ)
  | getOrLoad (key : Key) (ttlSeconds staleSeconds : Option ℤ) (tags : List Tag)
  | coordinate (key : Key)
  | originCoordinate (facade : ℕ) (origin : HTTPOrigin) (key : Key)
  /-- the loader of `get_or_load` ends -/
  | loaded (i : ℕ) (result : Except PyError V)
  /-- the loader of `coordinate` ends -/
  | finished (i : ℕ) (result : Completion R)
  | proceed (i : ℕ)
  /-- a wait of an origin follower ends without the event -/
  | waited (i : ℕ) (expired : Bool)

namespace Tower

def init : Tower V R :=
  ⟨Engine.init, .init, .init, .init, fun _ => false, [], [], [], [], []⟩

variable (c : Setup V)

/-- `get_or_load` up to the flight. -/
def getOrLoad (t : Tower V R) (key : Key) (ttlSeconds staleSeconds : Option ℤ) (tags : List Tag) :
    Tower V R :=
  match (do validateKey key; lookup c.engine key true : EngineM V (CacheResult V)) t.engine with
  | (.error _, engine) => { t with engine := engine }
  | (.ok cached, engine) =>
    if cached.state ≠ .miss then { t with engine := engine }
    else
      match t.loads.registered.get? key with
      | none =>
        { t with
          engine := engine
          loads := t.loads.register key
          callers := t.callers ++ [.loads key t.loads.next ttlSeconds staleSeconds tags] }
      | some id =>
        { t with
          engine := engine.bump .coalesced 1
          callers := t.callers ++ [.awaitsLoad id] }

/-- `coordinate` up to the flight: the registry, and what the caller does next. -/
def arrive (t : Tower V R) (key : Key) (outer : Option ℕ) :
    Tower V R × (Completion R ⊕ Caller V R) :=
  match (validateKey key : EngineM V Unit) t.engine with
  | (.error e, engine) => ({ t with engine := engine }, .inl (.error e))
  | (.ok _, engine) =>
    match t.coordination.registered.get? key with
    | none =>
      ({ t with engine := engine, coordination := t.coordination.register key },
        .inr (.leads key t.coordination.next outer))
    | some id =>
      ({ t with engine := engine.bump .coalesced 1 }, .inr (.awaits key id outer))

def coordinate (t : Tower V R) (key : Key) : Tower V R :=
  match t.arrive key none with
  | (t, .inl _) => t
  | (t, .inr caller) => { t with callers := t.callers ++ [caller] }

/-- `_coordinate` up to the flight. -/
def originCoordinate (t : Tower V R) (facade : ℕ) (origin : HTTPOrigin) (key : Key) : Tower V R :=
  match t.origins.registered.get? key with
  | none =>
    { t with
      origins := t.origins.register key
      callers := t.callers ++ [.calls key t.origins.next] }
  | some id =>
    if origin.maxQueue ≤ (t.origins.heap id).followers ∨
        c.globalMaxFollowers facade ≤ t.origins.followers then
      { t with refused := .overloaded "origin coalesced follower limit reached" :: t.refused }
    else
      { t with
        origins := t.origins.join id
        callers := t.callers ++ [.follows facade key id] }

/-- The result of a loader, stored. -/
def stored (t : Tower V R) (key : Key) (ttlSeconds staleSeconds : Option ℤ) (tags : List Tag) :
    Except PyError V → Except PyError (CacheResult V) × Engine V
  | .error e => (.error e, t.engine.bump .loadErrors 1)
  | .ok value =>
    match put c.engine key value ttlSeconds staleSeconds tags none false t.engine with
    | (.error e, engine) => (.error e, engine.bump .loadErrors 1)
    | (.ok r, engine) => (.ok r, engine)

/-- The loader of a caller of `get_or_load` ends. -/
def loaded (t : Tower V R) (i : ℕ) (result : Except PyError V) : Tower V R :=
  match t.callers[i]? with
  | some (.loads key id ttlSeconds staleSeconds tags) =>
    { t with
      engine := (t.stored c key ttlSeconds staleSeconds tags result).2
      loads := t.loads.settle id (t.stored c key ttlSeconds staleSeconds tags result).1
      callers := t.callers.set i
        (.loaded key id (t.stored c key ttlSeconds staleSeconds tags result).1) }
  | _ => t

/-- The loader of a caller of `coordinate` ends. -/
def finished (t : Tower V R) (i : ℕ) (result : Completion R) : Tower V R :=
  match t.callers[i]? with
  | some (.leads key id outer) =>
    { t with
      coordination := t.coordination.settle id result
      callers := t.callers.set i (.led key id result outer) }
  | _ => t

/-- A caller of `coordinate` returns, to its own caller or to `_coordinate`. -/
def resume (t : Tower V R) (i : ℕ) (key : Key) (outcome : Completion R) : Option ℕ → Tower V R
  | none => { t with callers := t.callers.eraseIdx i }
  | some outer => { t with callers := t.callers.set i (.returned key outer outcome) }

/-- An origin follower raises. -/
def abandon (t : Tower V R) (i : ℕ) (key : Key) (outer : ℕ) (e : OriginError) : Tower V R :=
  { t with
    callers := t.callers.set i (.leaves key outer)
    refused := e :: t.refused }

def shuttingDown : OriginError := .unavailable "origin service is shutting down"

/-- What a follower whose event is set leaves with. -/
def found {R : Type} (flight : Flight (Except PyError R)) : Except PyError R :=
  flight.outcome.getD (.error ⟨.exception, ""⟩)

/-- The next step of a caller that does not run a loader. -/
def proceed (t : Tower V R) (i : ℕ) : Tower V R :=
  match t.callers[i]? with
  | some (.loaded key id outcome) =>
    { t with
      loads := t.loads.retire key id
      callers := t.callers.eraseIdx i
      loadAnswers := ⟨true, id, outcome⟩ :: t.loadAnswers }
  | some (.awaitsLoad id) =>
    if (t.loads.heap id).isSet then
      { t with
        callers := t.callers.eraseIdx i
        loadAnswers := ⟨false, id, found (t.loads.heap id)⟩ :: t.loadAnswers }
    else t
  | some (.led key id outcome outer) =>
    resume { t with
      coordination := t.coordination.retire key id
      coordinationAnswers := ⟨true, id, outcome⟩ :: t.coordinationAnswers } i key outcome outer
  | some (.awaits key id outer) =>
    if (t.coordination.heap id).isSet then
      resume { t with
        coordinationAnswers :=
          ⟨false, id, found (t.coordination.heap id)⟩ :: t.coordinationAnswers }
        i key (found (t.coordination.heap id)) outer
    else t
  | some (.calls key outer) =>
    match t.arrive key (some outer) with
    | (t, .inl outcome) => { t with callers := t.callers.set i (.returned key outer outcome) }
    | (t, .inr caller) => { t with callers := t.callers.set i caller }
  | some (.returned key outer outcome) =>
    { t with
      origins := t.origins.settle outer outcome
      callers := t.callers.set i (.closes key outer outcome) }
  | some (.closes key outer outcome) =>
    { t with
      origins := t.origins.retireOwn key outer
      callers := t.callers.eraseIdx i
      originAnswers := ⟨true, outer, outcome⟩ :: t.originAnswers }
  | some (.follows facade key outer) =>
    if (t.origins.heap outer).isSet then
      if t.closed facade then t.abandon i key outer shuttingDown
      else
        { t with
          callers := t.callers.set i (.leaves key outer)
          originAnswers := ⟨false, outer, found (t.origins.heap outer)⟩ :: t.originAnswers }
    else t
  | some (.leaves _ outer) =>
    { t with
      origins := t.origins.leave outer
      callers := t.callers.eraseIdx i }
  | _ => t

/-- A wait of an origin follower ends without the event. -/
def waited (t : Tower V R) (i : ℕ) (expired : Bool) : Tower V R :=
  match t.callers[i]? with
  | some (.follows facade key outer) =>
    if (t.origins.heap outer).isSet then t
    else if t.closed facade then t.abandon i key outer shuttingDown
    else if expired then
      t.abandon i key outer (.overloaded "origin coalesced follower wait timed out")
    else t
  | _ => t

def step (t : Tower V R) : CallerEvent V R → Tower V R
  | .client call => { t with engine := call.run c.engine t.engine }
  | .shutdown facade => { t with closed := Function.update t.closed facade true }
  | .getOrLoad key ttlSeconds staleSeconds tags => t.getOrLoad c key ttlSeconds staleSeconds tags
  | .coordinate key => t.coordinate key
  | .originCoordinate facade origin key => t.originCoordinate c facade origin key
  | .loaded i result => t.loaded c i result
  | .finished i result => t.finished i result
  | .proceed i => t.proceed i
  | .waited i expired => t.waited i expired

def run (events : List (CallerEvent V R)) : Tower V R := events.foldl (step c) init

/-! ## The roles of the callers -/

end Tower

namespace Caller

/-- What a caller does with the flights of `get_or_load`. -/
def loadRole : Caller V R → Option (Role Key (Except PyError (CacheResult V)))
  | .loads key id _ _ _ => some (.leading key id)
  | .loaded key id outcome => some (.settled key id outcome)
  | .awaitsLoad id => some (.waiting id)
  | _ => none

/-- What a caller does with the flights of `coordinate`. -/
def coordinationRole : Caller V R → Option (Role Key (Completion R))
  | .leads key id _ => some (.leading key id)
  | .led key id outcome _ => some (.settled key id outcome)
  | .awaits _ id _ => some (.waiting id)
  | _ => none

/-- What a caller does with the flights of `_coordinate`. -/
def originRole : Caller V R → Option (Role Key (Completion R))
  | .leads key _ outer | .led key _ _ outer | .awaits key _ outer => outer.map (.leading key)
  | .calls key outer | .returned key outer _ => some (.leading key outer)
  | .closes key outer outcome => some (.settled key outer outcome)
  | .follows _ _ outer | .leaves _ outer => some (.waiting outer)
  | _ => none

end Caller

/-- The roles of a list of callers. -/
def rolesOf {α β : Type} (f : α → Option β) (callers : List α) : Multiset β :=
  (callers.filterMap f : List β)

section Roles

variable {α β : Type} {f : α → Option β} {l : List α} {i : ℕ} {a b : α}

theorem rolesOf_append (f : α → Option β) (l : List α) (a : α) :
    rolesOf f (l ++ [a]) = (f a).elim 0 ({·}) + rolesOf f l := by
  rw [rolesOf, rolesOf, List.filterMap_append, ← Multiset.coe_add, add_comm]
  congr 1
  cases h : f a <;> simp [h]

theorem rolesOf_cons (f : α → Option β) (l : List α) (a : α) :
    rolesOf f (a :: l) = (f a).elim 0 ({·}) + rolesOf f l := by
  cases h : f a with
  | none => simp [rolesOf, h]
  | some role => simp [rolesOf, h]

/-- The roles of the callers other than the `i`-th. -/
theorem rolesOf_getElem? (h : l[i]? = some a) :
    rolesOf f l = (f a).elim 0 ({·}) + rolesOf f (l.eraseIdx i) := by
  induction l generalizing i with
  | nil => simp at h
  | cons x l ih =>
    cases i with
    | zero =>
      obtain rfl : x = a := by simpa using h
      exact rolesOf_cons f l x
    | succ i =>
      have h' : l[i]? = some a := by simpa using h
      rw [List.eraseIdx_cons_succ, rolesOf_cons, rolesOf_cons, ih h', ← add_assoc, ← add_assoc,
        add_comm ((f x).elim 0 _)]

theorem rolesOf_set (h : l[i]? = some a) :
    rolesOf f (l.set i b) = (f b).elim 0 ({·}) + rolesOf f (l.eraseIdx i) := by
  have hi : i < l.length := (List.getElem?_eq_some_iff.mp h).1
  have hset : (l.set i b)[i]? = some b := by simp [hi]
  rw [rolesOf_getElem? hset]
  congr 2
  rw [List.eraseIdx_set_eq]

theorem rolesOf_append_none (f : α → Option β) (h : f a = none) : rolesOf f (l ++ [a]) = rolesOf f l := by
  rw [rolesOf_append, h, Option.elim_none, zero_add]

theorem rolesOf_append_some (f : α → Option β) {role : β} (h : f a = some role) :
    rolesOf f (l ++ [a]) = role ::ₘ rolesOf f l := by
  rw [rolesOf_append, h, Option.elim_some, Multiset.singleton_add]

theorem rolesOf_set_idle (f : α → Option β) (h : l[i]? = some a) (ha : f a = none)
    (hb : f b = none) : rolesOf f (l.set i b) = rolesOf f l := by
  rw [rolesOf_set h, rolesOf_getElem? h, ha, hb]

theorem rolesOf_set_keep (f : α → Option β) {role : β} (h : l[i]? = some a) (ha : f a = some role)
    (hb : f b = some role) : rolesOf f (l.set i b) = rolesOf f l := by
  rw [rolesOf_set h, rolesOf_getElem? h, ha, hb]

theorem rolesOf_set_some (f : α → Option β) {role : β} (h : l[i]? = some a) (hf : f b = some role) :
    rolesOf f (l.set i b) = role ::ₘ rolesOf f (l.eraseIdx i) := by
  rw [rolesOf_set h, hf, Option.elim_some, Multiset.singleton_add]

theorem rolesOf_some (f : α → Option β) {role : β} (h : l[i]? = some a) (hf : f a = some role) :
    rolesOf f l = role ::ₘ rolesOf f (l.eraseIdx i) := by
  rw [rolesOf_getElem? h, hf, Option.elim_some, Multiset.singleton_add]

theorem rolesOf_none (f : α → Option β) (h : l[i]? = some a) (hf : f a = none) :
    rolesOf f (l.eraseIdx i) = rolesOf f l := by
  rw [rolesOf_getElem? h, hf, Option.elim_none, zero_add]

theorem rolesOf_set_none (f : α → Option β) (h : l[i]? = some a) (hf : f b = none) :
    rolesOf f (l.set i b) = rolesOf f (l.eraseIdx i) := by
  rw [rolesOf_set h, hf, Option.elim_none, zero_add]

theorem countP_rolesOf (p : β → Prop) [DecidablePred p] (l : List α) :
    (rolesOf f l).countP p = l.countP fun a => ((f a).map fun role => decide (p role)).getD false := by
  rw [rolesOf, Multiset.coe_countP, List.countP_filterMap]

end Roles

namespace Tower

variable {c : Setup V} {t : Tower V R}

structure Inv (t : Tower V R) : Prop where
  loads : t.loads.Fits (rolesOf Caller.loadRole t.callers) t.loadAnswers
  coordination :
    t.coordination.Fits (rolesOf Caller.coordinationRole t.callers) t.coordinationAnswers
  origins : t.origins.Fits (rolesOf Caller.originRole t.callers) t.originAnswers
  counted : t.origins.Counted (rolesOf Caller.originRole t.callers)

theorem Inv.init : (init : Tower V R).Inv :=
  ⟨.init, .init, .init, .init⟩

theorem Inv.getOrLoad (h : t.Inv) (key : Key) (ttlSeconds staleSeconds : Option ℤ)
    (tags : List Tag) : (t.getOrLoad c key ttlSeconds staleSeconds tags).Inv := by
  unfold Tower.getOrLoad
  split
  · exact ⟨h.loads, h.coordination, h.origins, h.counted⟩
  · split_ifs with hmiss
    · exact ⟨h.loads, h.coordination, h.origins, h.counted⟩
    · cases hk : t.loads.registered.get? key with
      | none =>
        refine ⟨?_, ?_, ?_, ?_⟩ <;> dsimp only
        · rw [rolesOf_append_some Caller.loadRole rfl]
          exact h.loads.lead hk
        · rw [rolesOf_append_none Caller.coordinationRole rfl]
          exact h.coordination
        · rw [rolesOf_append_none Caller.originRole rfl]
          exact h.origins
        · rw [rolesOf_append_none Caller.originRole rfl]
          exact h.counted
      | some id =>
        refine ⟨?_, ?_, ?_, ?_⟩ <;> dsimp only
        · rw [rolesOf_append_some Caller.loadRole rfl]
          exact h.loads.follow hk
        · rw [rolesOf_append_none Caller.coordinationRole rfl]
          exact h.coordination
        · rw [rolesOf_append_none Caller.originRole rfl]
          exact h.origins
        · rw [rolesOf_append_none Caller.originRole rfl]
          exact h.counted

theorem Inv.originCoordinate (h : t.Inv) (facade : ℕ) (origin : HTTPOrigin) (key : Key) :
    (t.originCoordinate c facade origin key).Inv := by
  unfold Tower.originCoordinate
  cases hk : t.origins.registered.get? key with
  | none =>
    refine ⟨?_, ?_, ?_, ?_⟩ <;> dsimp only
    · rw [rolesOf_append_none Caller.loadRole rfl]
      exact h.loads
    · rw [rolesOf_append_none Caller.coordinationRole rfl]
      exact h.coordination
    · rw [rolesOf_append_some Caller.originRole rfl]
      exact h.origins.lead hk
    · rw [rolesOf_append_some Caller.originRole rfl]
      exact h.counted.lead key
  | some id =>
    dsimp only
    split_ifs with hfull
    · exact ⟨h.loads, h.coordination, h.origins, h.counted⟩
    · refine ⟨?_, ?_, ?_, ?_⟩ <;> dsimp only
      · rw [rolesOf_append_none Caller.loadRole rfl]
        exact h.loads
      · rw [rolesOf_append_none Caller.coordinationRole rfl]
        exact h.coordination
      · rw [rolesOf_append_some Caller.originRole rfl]
        exact h.origins.join hk
      · rw [rolesOf_append_some Caller.originRole rfl]
        exact h.counted.join id

/-- What `coordinate` can do before it waits or runs the loader. -/
theorem arrive_cases (t : Tower V R) (key : Key) (outer : Option ℕ) :
    (∃ e engine, t.arrive key outer = ({ t with engine := engine }, .inl (.error e))) ∨
    (t.coordination.registered.get? key = none ∧ ∃ engine, t.arrive key outer =
      ({ t with engine := engine, coordination := t.coordination.register key },
        .inr (.leads key t.coordination.next outer))) ∨
    ∃ id engine, t.coordination.registered.get? key = some id ∧
      t.arrive key outer = ({ t with engine := engine }, .inr (.awaits key id outer)) := by
  unfold arrive
  split
  · exact .inl ⟨_, _, rfl⟩
  · cases hk : t.coordination.registered.get? key with
    | none => exact .inr (.inl ⟨rfl, _, rfl⟩)
    | some id => exact .inr (.inr ⟨id, _, rfl, rfl⟩)

theorem Inv.coordinate (h : t.Inv) (key : Key) : (t.coordinate key).Inv := by
  unfold Tower.coordinate
  obtain ⟨e, engine, heq⟩ | ⟨hk, engine, heq⟩ | ⟨id, engine, hk, heq⟩ := t.arrive_cases key none
  · rw [heq]
    exact ⟨h.loads, h.coordination, h.origins, h.counted⟩
  · rw [heq]
    refine ⟨?_, ?_, ?_, ?_⟩ <;> dsimp only
    · rw [rolesOf_append_none Caller.loadRole rfl]
      exact h.loads
    · rw [rolesOf_append_some Caller.coordinationRole rfl]
      exact h.coordination.lead hk
    · rw [rolesOf_append_none Caller.originRole rfl]
      exact h.origins
    · rw [rolesOf_append_none Caller.originRole rfl]
      exact h.counted
  · rw [heq]
    refine ⟨?_, ?_, ?_, ?_⟩ <;> dsimp only
    · rw [rolesOf_append_none Caller.loadRole rfl]
      exact h.loads
    · rw [rolesOf_append_some Caller.coordinationRole rfl]
      exact h.coordination.follow hk
    · rw [rolesOf_append_none Caller.originRole rfl]
      exact h.origins
    · rw [rolesOf_append_none Caller.originRole rfl]
      exact h.counted

section Progress

variable {i : ℕ} {key : Key} {id : ℕ} {outer : Option ℕ}

theorem Inv.loaded (h : t.Inv) (i : ℕ) (result : Except PyError V) : (t.loaded c i result).Inv := by
  unfold Tower.loaded
  split
  · next key id ttlSeconds staleSeconds tags hi =>
    have hloads := h.loads
    rw [rolesOf_some Caller.loadRole hi rfl] at hloads
    refine ⟨?_, ?_, ?_, ?_⟩ <;> dsimp only
    · rw [rolesOf_set_some Caller.loadRole hi rfl]
      exact hloads.settle _
    · rw [rolesOf_set_idle Caller.coordinationRole hi rfl rfl]
      exact h.coordination
    · rw [rolesOf_set_idle Caller.originRole hi rfl rfl]
      exact h.origins
    · rw [rolesOf_set_idle Caller.originRole hi rfl rfl]
      exact h.counted
  · exact h

theorem Inv.finished (h : t.Inv) (i : ℕ) (result : Completion R) : (t.finished i result).Inv := by
  unfold Tower.finished
  split
  · next key id outer hi =>
    have hcoordination := h.coordination
    have horigin : rolesOf Caller.originRole (t.callers.set i (.led key id result outer)) =
        rolesOf Caller.originRole t.callers := by
      cases outer with
      | none => exact rolesOf_set_idle Caller.originRole hi rfl rfl
      | some outer => exact rolesOf_set_keep Caller.originRole hi rfl rfl
    rw [rolesOf_some Caller.coordinationRole hi rfl] at hcoordination
    refine ⟨?_, ?_, ?_, ?_⟩ <;> dsimp only
    · rw [rolesOf_set_idle Caller.loadRole hi rfl rfl]
      exact h.loads
    · rw [rolesOf_set_some Caller.coordinationRole hi rfl]
      exact hcoordination.settle result
    · rw [horigin]
      exact h.origins
    · rw [horigin]
      exact h.counted
  · exact h

/-- A caller of `coordinate` returns.  Its origin flight, if it leads one, is as before. -/
theorem Inv.resume {caller : Caller V R} {registry : FlightRegistry Key (Completion R)}
    {answers : List (Answer (Completion R))} (h : t.Inv) (hi : t.callers[i]? = some caller)
    (outcome : Completion R) (hload : caller.loadRole = none)
    (horigin : caller.originRole = outer.map (.leading key))
    (hfits : registry.Fits (rolesOf Caller.coordinationRole (t.callers.eraseIdx i)) answers) :
    (Tower.resume { t with coordination := registry, coordinationAnswers := answers } i key outcome
      outer).Inv := by
  cases outer with
  | none =>
    refine ⟨?_, hfits, ?_, ?_⟩ <;> dsimp only [Tower.resume]
    · rw [rolesOf_none Caller.loadRole hi hload]
      exact h.loads
    · rw [rolesOf_none Caller.originRole hi horigin]
      exact h.origins
    · rw [rolesOf_none Caller.originRole hi horigin]
      exact h.counted
  | some outer =>
    refine ⟨?_, ?_, ?_, ?_⟩ <;> dsimp only [Tower.resume]
    · rw [rolesOf_set_idle Caller.loadRole hi hload rfl]
      exact h.loads
    · rw [rolesOf_set_none Caller.coordinationRole hi rfl]
      exact hfits
    · rw [rolesOf_set_keep Caller.originRole hi horigin rfl]
      exact h.origins
    · rw [rolesOf_set_keep Caller.originRole hi horigin rfl]
      exact h.counted

/-- A follower finds what its flight holds. -/
theorem found_of_outcome {R : Type} {flight : Flight (Except PyError R)} {r : Except PyError R}
    (h : flight.outcome = some r) : found flight = r := by
  rw [found, h, Option.getD_some]

/-- The flight of a follower whose event is set holds what the follower finds. -/
theorem outcome_found {R : Type} {registry : FlightRegistry Key (Except PyError R)}
    {roles : Multiset (Role Key (Except PyError R))} {log : List (Answer (Except PyError R))}
    (h : registry.Fits (.waiting id ::ₘ roles) log) (hs : (registry.heap id).isSet = true) :
    (registry.heap id).outcome = some (found (registry.heap id)) := by
  obtain ⟨r, hr⟩ := h.outcome_of_set hs
  rw [found_of_outcome hr, hr]

/-- A leader of `get_or_load` wakes its followers. -/
theorem Inv.proceed_loaded {outcome : Except PyError (CacheResult V)} (h : t.Inv)
    (hi : t.callers[i]? = some (.loaded key id outcome)) : (t.proceed i).Inv := by
  have hloads := h.loads
  rw [rolesOf_some Caller.loadRole hi rfl] at hloads
  unfold Tower.proceed
  rw [hi]
  refine ⟨hloads.retire, ?_, ?_, ?_⟩ <;> dsimp only
  · rw [rolesOf_none Caller.coordinationRole hi rfl]
    exact h.coordination
  · rw [rolesOf_none Caller.originRole hi rfl]
    exact h.origins
  · rw [rolesOf_none Caller.originRole hi rfl]
    exact h.counted

theorem Inv.proceed_awaitsLoad (h : t.Inv) (hi : t.callers[i]? = some (.awaitsLoad id)) :
    (t.proceed i).Inv := by
  have hloads := h.loads
  rw [rolesOf_some Caller.loadRole hi rfl] at hloads
  unfold Tower.proceed
  rw [hi]
  dsimp only
  split_ifs with hs
  · refine ⟨hloads.unfollow.answer hs (outcome_found hloads hs), ?_, ?_, ?_⟩ <;> dsimp only
    · rw [rolesOf_none Caller.coordinationRole hi rfl]
      exact h.coordination
    · rw [rolesOf_none Caller.originRole hi rfl]
      exact h.origins
    · rw [rolesOf_none Caller.originRole hi rfl]
      exact h.counted
  · exact h

theorem Inv.proceed_led {outcome : Completion R} (h : t.Inv)
    (hi : t.callers[i]? = some (.led key id outcome outer)) : (t.proceed i).Inv := by
  have hcoordination := h.coordination
  rw [rolesOf_some Caller.coordinationRole hi rfl] at hcoordination
  unfold Tower.proceed
  rw [hi]
  exact h.resume hi outcome rfl rfl hcoordination.retire

theorem Inv.proceed_awaits (h : t.Inv) (hi : t.callers[i]? = some (.awaits key id outer)) :
    (t.proceed i).Inv := by
  have hcoordination := h.coordination
  rw [rolesOf_some Caller.coordinationRole hi rfl] at hcoordination
  unfold Tower.proceed
  rw [hi]
  dsimp only
  split_ifs with hs
  · exact h.resume hi _ rfl rfl
      (hcoordination.unfollow.answer hs (outcome_found hcoordination hs))
  · exact h

/-- The leader of an origin flight calls `coordinate`. -/
theorem Inv.proceed_calls {outer : ℕ} (h : t.Inv) (hi : t.callers[i]? = some (.calls key outer)) :
    (t.proceed i).Inv := by
  have hidle := rolesOf_none Caller.coordinationRole hi rfl
  unfold Tower.proceed
  rw [hi]
  dsimp only
  obtain ⟨e, engine, heq⟩ | ⟨hk, engine, heq⟩ | ⟨joined, engine, hk, heq⟩ :=
    t.arrive_cases key (some outer)
  · rw [heq]
    refine ⟨?_, ?_, ?_, ?_⟩ <;> dsimp only
    · rw [rolesOf_set_idle Caller.loadRole hi rfl rfl]
      exact h.loads
    · rw [rolesOf_set_idle Caller.coordinationRole hi rfl rfl]
      exact h.coordination
    · rw [rolesOf_set_keep Caller.originRole hi rfl rfl]
      exact h.origins
    · rw [rolesOf_set_keep Caller.originRole hi rfl rfl]
      exact h.counted
  · rw [heq]
    refine ⟨?_, ?_, ?_, ?_⟩ <;> dsimp only
    · rw [rolesOf_set_idle Caller.loadRole hi rfl rfl]
      exact h.loads
    · rw [rolesOf_set_some Caller.coordinationRole hi rfl, hidle]
      exact h.coordination.lead hk
    · rw [rolesOf_set_keep Caller.originRole hi rfl rfl]
      exact h.origins
    · rw [rolesOf_set_keep Caller.originRole hi rfl rfl]
      exact h.counted
  · rw [heq]
    refine ⟨?_, ?_, ?_, ?_⟩ <;> dsimp only
    · rw [rolesOf_set_idle Caller.loadRole hi rfl rfl]
      exact h.loads
    · rw [rolesOf_set_some Caller.coordinationRole hi rfl, hidle]
      exact h.coordination.follow hk
    · rw [rolesOf_set_keep Caller.originRole hi rfl rfl]
      exact h.origins
    · rw [rolesOf_set_keep Caller.originRole hi rfl rfl]
      exact h.counted

/-- The leader of an origin flight records what `coordinate` returned or raised. -/
theorem Inv.proceed_returned {outer : ℕ} {outcome : Completion R} (h : t.Inv)
    (hi : t.callers[i]? = some (.returned key outer outcome)) : (t.proceed i).Inv := by
  have horigins := h.origins
  have hcounted := h.counted
  rw [rolesOf_some Caller.originRole hi rfl] at horigins hcounted
  unfold Tower.proceed
  rw [hi]
  refine ⟨?_, ?_, ?_, ?_⟩ <;> dsimp only
  · rw [rolesOf_set_idle Caller.loadRole hi rfl rfl]
    exact h.loads
  · rw [rolesOf_set_idle Caller.coordinationRole hi rfl rfl]
    exact h.coordination
  · rw [rolesOf_set_some Caller.originRole hi rfl]
    exact horigins.settle outcome
  · rw [rolesOf_set_some Caller.originRole hi rfl]
    exact hcounted.settle outcome

theorem Inv.proceed_closes {outer : ℕ} {outcome : Completion R} (h : t.Inv)
    (hi : t.callers[i]? = some (.closes key outer outcome)) : (t.proceed i).Inv := by
  have horigins := h.origins
  have hcounted := h.counted
  rw [rolesOf_some Caller.originRole hi rfl] at horigins hcounted
  unfold Tower.proceed
  rw [hi]
  refine ⟨?_, ?_, ?_, ?_⟩ <;> dsimp only
  · rw [rolesOf_none Caller.loadRole hi rfl]
    exact h.loads
  · rw [rolesOf_none Caller.coordinationRole hi rfl]
    exact h.coordination
  · rw [horigins.retireOwn_eq]
    exact horigins.retire
  · rw [horigins.retireOwn_eq]
    exact hcounted.retire

/-- A follower of an origin flight returns or raises; it is still counted. -/
theorem Inv.leaving {facade outer : ℕ} {answers : List (Answer (Completion R))}
    {refused : List OriginError} (h : t.Inv)
    (hi : t.callers[i]? = some (.follows facade key outer))
    (hfits : t.origins.Fits (rolesOf Caller.originRole t.callers) answers) :
    Tower.Inv { t with
      callers := t.callers.set i (.leaves key outer)
      originAnswers := answers
      refused := refused } := by
  refine ⟨?_, ?_, ?_, ?_⟩ <;> dsimp only
  · rw [rolesOf_set_idle Caller.loadRole hi rfl rfl]
    exact h.loads
  · rw [rolesOf_set_idle Caller.coordinationRole hi rfl rfl]
    exact h.coordination
  · rw [rolesOf_set_keep Caller.originRole hi rfl rfl]
    exact hfits
  · rw [rolesOf_set_keep Caller.originRole hi rfl rfl]
    exact h.counted

theorem Inv.proceed_follows {facade outer : ℕ} (h : t.Inv)
    (hi : t.callers[i]? = some (.follows facade key outer)) : (t.proceed i).Inv := by
  have horigins := h.origins
  rw [rolesOf_some Caller.originRole hi rfl] at horigins
  unfold Tower.proceed
  rw [hi]
  dsimp only
  split_ifs with hs hclosed
  · exact h.leaving hi h.origins
  · exact h.leaving hi (h.origins.answer hs (outcome_found horigins hs))
  · exact h

theorem Inv.proceed_leaves {outer : ℕ} (h : t.Inv)
    (hi : t.callers[i]? = some (.leaves key outer)) : (t.proceed i).Inv := by
  have horigins := h.origins
  have hcounted := h.counted
  rw [rolesOf_some Caller.originRole hi rfl] at horigins hcounted
  unfold Tower.proceed
  rw [hi]
  refine ⟨?_, ?_, horigins.leave, hcounted.leave⟩ <;> dsimp only
  · rw [rolesOf_none Caller.loadRole hi rfl]
    exact h.loads
  · rw [rolesOf_none Caller.coordinationRole hi rfl]
    exact h.coordination

theorem Inv.proceed (h : t.Inv) (i : ℕ) : (t.proceed i).Inv := by
  cases hi : t.callers[i]? with
  | none =>
    unfold Tower.proceed
    rw [hi]
    exact h
  | some caller =>
    cases caller with
    | loads key id ttlSeconds staleSeconds tags =>
      unfold Tower.proceed
      rw [hi]
      exact h
    | leads key id outer =>
      unfold Tower.proceed
      rw [hi]
      exact h
    | loaded key id outcome => exact h.proceed_loaded hi
    | awaitsLoad id => exact h.proceed_awaitsLoad hi
    | led key id outcome outer => exact h.proceed_led hi
    | awaits key id outer => exact h.proceed_awaits hi
    | calls key outer => exact h.proceed_calls hi
    | returned key outer outcome => exact h.proceed_returned hi
    | closes key outer outcome => exact h.proceed_closes hi
    | follows facade key outer => exact h.proceed_follows hi
    | leaves key outer => exact h.proceed_leaves hi

theorem Inv.waited (h : t.Inv) (i : ℕ) (expired : Bool) : (t.waited i expired).Inv := by
  unfold Tower.waited
  split
  · next facade key outer hi =>
    split_ifs
    · exact h
    · exact h.leaving hi h.origins
    · exact h.leaving hi h.origins
    · exact h
  · exact h

theorem Inv.step (h : t.Inv) (event : CallerEvent V R) : (t.step c event).Inv := by
  cases event with
  | client call => exact ⟨h.loads, h.coordination, h.origins, h.counted⟩
  | shutdown facade => exact ⟨h.loads, h.coordination, h.origins, h.counted⟩
  | getOrLoad key ttlSeconds staleSeconds tags => exact h.getOrLoad key ttlSeconds staleSeconds tags
  | coordinate key => exact h.coordinate key
  | originCoordinate facade origin key => exact h.originCoordinate facade origin key
  | loaded i result => exact h.loaded i result
  | finished i result => exact h.finished i result
  | proceed i => exact h.proceed i
  | waited i expired => exact h.waited i expired

theorem Inv.run (events : List (CallerEvent V R)) : (run c events).Inv := by
  unfold Tower.run
  induction events using List.reverseRecOn with
  | nil => exact .init
  | append_singleton events event ih =>
    rw [List.foldl_append]
    exact ih.step event

end Progress

/-! ## Limits -/

end Tower

/-- The flight that an origin follower joined, and its key. -/
def Caller.joined : Caller V R → Option (Key × ℕ)
  | .follows _ key outer | .leaves key outer => some (key, outer)
  | _ => none

/-- The callers in `l'` that follow are in `l` already. -/
def Joined (l l' : List (Caller V R)) : Prop :=
  ∀ caller ∈ l', ∀ p, caller.joined = some p → ∃ other ∈ l, other.joined = some p

section Joined

variable {l : List (Caller V R)} {i : ℕ} {a b : Caller V R}

theorem Joined.refl (l : List (Caller V R)) : Joined l l :=
  fun caller hmem _ hp => ⟨caller, hmem, hp⟩

theorem Joined.append (h : a.joined = none) : Joined l (l ++ [a]) := by
  intro caller hmem p hp
  rcases List.mem_append.mp hmem with hmem | hmem
  · exact ⟨caller, hmem, hp⟩
  · rw [List.mem_singleton.mp hmem, h] at hp
    cases hp

theorem Joined.set (h : b.joined = none) : Joined l (l.set i b) := by
  intro caller hmem p hp
  rcases List.mem_or_eq_of_mem_set hmem with hmem | rfl
  · exact ⟨caller, hmem, hp⟩
  · rw [h] at hp
    cases hp

theorem Joined.keep (hi : l[i]? = some a) (h : b.joined = a.joined) : Joined l (l.set i b) := by
  intro caller hmem p hp
  rcases List.mem_or_eq_of_mem_set hmem with hmem | rfl
  · exact ⟨caller, hmem, hp⟩
  · exact ⟨a, List.mem_of_getElem? hi, h.symm.trans hp⟩

theorem Joined.erase (l : List (Caller V R)) (i : ℕ) : Joined l (l.eraseIdx i) :=
  fun caller hmem _ hp => ⟨caller, List.mem_of_mem_eraseIdx hmem, hp⟩

end Joined

namespace Tower

variable {c : Setup V} {t : Tower V R}

/-- A step in which no caller joins a flight. -/
structure Calm (t t' : Tower V R) : Prop where
  joined : Joined t.callers t'.callers
  each : ∀ id, (t'.origins.heap id).followers ≤ (t.origins.heap id).followers
  total : t'.origins.followers ≤ t.origins.followers
  registered : ∀ key id, t'.origins.registered.get? key = some id →
    t.origins.registered.get? key = some id ∨ id = t.origins.next
  next : t.origins.next ≤ t'.origins.next

theorem Calm.of_origins {t' : Tower V R} (ho : t'.origins = t.origins)
    (hc : Joined t.callers t'.callers) : Calm t t' where
  joined := hc
  each id := by rw [ho]
  total := by rw [ho]
  registered key id hget := .inl (by rw [← ho, hget])
  next := by rw [ho]

theorem Calm.getOrLoad (key : Key) (ttlSeconds staleSeconds : Option ℤ) (tags : List Tag) :
    Calm t (t.getOrLoad c key ttlSeconds staleSeconds tags) := by
  unfold Tower.getOrLoad
  split
  · exact .of_origins rfl (.refl _)
  · split_ifs with hmiss
    · exact .of_origins rfl (.refl _)
    · split
      · exact .of_origins rfl (.append rfl)
      · exact .of_origins rfl (.append rfl)

theorem Calm.coordinate (key : Key) : Calm t (t.coordinate key) := by
  unfold Tower.coordinate
  obtain ⟨e, engine, heq⟩ | ⟨hk, engine, heq⟩ | ⟨id, engine, hk, heq⟩ := t.arrive_cases key none
  · rw [heq]
    exact .of_origins rfl (.refl _)
  · rw [heq]
    exact .of_origins rfl (.append rfl)
  · rw [heq]
    exact .of_origins rfl (.append rfl)

theorem Calm.loaded (i : ℕ) (result : Except PyError V) : Calm t (t.loaded c i result) := by
  unfold Tower.loaded
  split
  · exact .of_origins rfl (.set rfl)
  · exact .of_origins rfl (.refl _)

theorem Calm.finished (i : ℕ) (result : Completion R) : Calm t (t.finished i result) := by
  unfold Tower.finished
  split
  · exact .of_origins rfl (.set rfl)
  · exact .of_origins rfl (.refl _)

theorem Calm.resume (t : Tower V R) (registry : FlightRegistry Key (Completion R))
    (answers : List (Answer (Completion R))) (i : ℕ) (key : Key) (outcome : Completion R)
    (outer : Option ℕ) :
    Calm t (Tower.resume { t with coordination := registry, coordinationAnswers := answers } i key
      outcome outer) := by
  cases outer with
  | none => exact .of_origins rfl (.erase _ _)
  | some outer => exact .of_origins rfl (.set rfl)

/-- The number of followers of a flight after a change of another field. -/
theorem followers_update (registry : FlightRegistry Key (Completion R))
    (f : Flight (Completion R) → Flight (Completion R)) (hf : ∀ flight, (f flight).followers ≤ flight.followers) (outer id : ℕ) :
    ((registry.update outer f).heap id).followers ≤ (registry.heap id).followers := by
  rw [FlightRegistry.heap_update]
  split_ifs
  · exact hf _
  · exact le_rfl

theorem Calm.proceed (i : ℕ) : Calm t (t.proceed i) := by
  unfold Tower.proceed
  split
  · exact .of_origins rfl (.erase _ _)
  · split_ifs
    · exact .of_origins rfl (.erase _ _)
    · exact .of_origins rfl (.refl _)
  · exact .resume t _ _ i _ _ _
  · split_ifs
    · exact .resume t _ _ i _ _ _
    · exact .of_origins rfl (.refl _)
  · next key outer hi =>
    obtain ⟨e, engine, heq⟩ | ⟨hk, engine, heq⟩ | ⟨joined, engine, hk, heq⟩ :=
      t.arrive_cases key (some outer)
    all_goals
      rw [heq]
      exact .of_origins rfl (.set rfl)
  · next key outer outcome hi =>
    exact ⟨.set rfl, followers_update t.origins (fun flight =>
      { flight with outcome := some outcome }) (fun _ => le_rfl) outer, le_rfl,
      fun _ _ hget => .inl hget, le_rfl⟩
  · next key outer outcome hi =>
    refine ⟨.erase _ _, followers_update t.origins (fun flight => { flight with isSet := true })
      (fun _ => le_rfl) outer, le_rfl, fun k id hget => .inl ?_, le_rfl⟩
    dsimp only [FlightRegistry.retireOwn] at hget
    split_ifs at hget with hown
    · rw [OrderedDict.get?_erase] at hget
      split_ifs at hget
      exact hget
    · exact hget
  · next facade key outer hi =>
    split_ifs
    · exact .of_origins rfl (.keep hi rfl)
    · exact .of_origins rfl (.keep hi rfl)
    · exact .of_origins rfl (.refl _)
  · next key outer hi =>
    exact ⟨.erase _ _, followers_update t.origins (fun flight =>
      { flight with followers := flight.followers - 1 }) (fun _ => Nat.sub_le _ _) outer,
      Nat.sub_le _ _, fun _ _ hget => .inl hget, le_rfl⟩
  · exact .of_origins rfl (.refl _)

theorem Calm.waited (i : ℕ) (expired : Bool) : Calm t (t.waited i expired) := by
  unfold Tower.waited
  split
  · next facade key outer hi =>
    split_ifs
    · exact .of_origins rfl (.refl _)
    · exact .of_origins rfl (.keep hi rfl)
    · exact .of_origins rfl (.keep hi rfl)
    · exact .of_origins rfl (.refl _)
  · exact .of_origins rfl (.refl _)

/-- The followers stay within the limits; `limit` bounds the queue of each coordination key. -/
structure Within (limit : Key → ℕ) (total : ℕ) (t : Tower V R) : Prop where
  each : ∀ caller ∈ t.callers, ∀ key id, caller.joined = some (key, id) →
    (t.origins.heap id).followers ≤ limit key
  total : t.origins.followers ≤ total
  own : ∀ caller ∈ t.callers, ∀ key id, caller.joined = some (key, id) →
    id < t.origins.next ∧ ∀ k, t.origins.registered.get? k = some id → k = key

variable {limit : Key → ℕ} {total : ℕ}

theorem Within.init : Within limit total (init : Tower V R) where
  each := by simp [Tower.init]
  total := Nat.zero_le _
  own := by simp [Tower.init]

theorem Within.calm {t' : Tower V R} (h : Within limit total t) (hcalm : Calm t t') :
    Within limit total t' where
  each caller hmem key id hjoined := by
    obtain ⟨other, hother, hj⟩ := hcalm.joined caller hmem (key, id) hjoined
    exact (hcalm.each id).trans (h.each other hother key id hj)
  total := hcalm.total.trans h.total
  own caller hmem key id hjoined := by
    obtain ⟨other, hother, hj⟩ := hcalm.joined caller hmem (key, id) hjoined
    obtain ⟨hid, hkey⟩ := h.own other hother key id hj
    refine ⟨hid.trans_le hcalm.next, fun k hk => ?_⟩
    obtain hk | rfl := hcalm.registered k id hk
    · exact hkey k hk
    · exact absurd hid (lt_irrefl _)

end Tower

/-- The limits that a call checks are within the given ones. -/
def CallerEvent.Limited (limit : Key → ℕ) : CallerEvent V R → Prop
  | .originCoordinate _ origin key => origin.maxQueue ≤ limit key
  | _ => True

namespace Tower

variable {c : Setup V} {t : Tower V R} {limit : Key → ℕ} {total : ℕ}

theorem Within.originCoordinate (h : Within limit total t) (hinv : t.Inv) {facade : ℕ}
    {origin : HTTPOrigin} {key : Key} (hlimit : origin.maxQueue ≤ limit key)
    (htotal : c.globalMaxFollowers facade ≤ total) :
    Within limit total (t.originCoordinate c facade origin key) := by
  unfold Tower.originCoordinate
  cases hk : t.origins.registered.get? key with
  | none =>
    refine h.calm ⟨.append rfl, fun _ => le_rfl, le_rfl, fun k id hget => ?_, Nat.le_succ _⟩
    have hget' : (t.origins.registered.set key t.origins.next).get? k = some id := hget
    rw [OrderedDict.get?_set] at hget'
    split_ifs at hget' with hkey
    · exact .inr (Option.some.inj hget').symm
    · exact .inl hget'
  | some id =>
    dsimp only
    split_ifs with hfull
    · exact h.calm (.of_origins rfl (.refl _))
    · push Not at hfull
      have hheap : ∀ j, ((t.origins.join id).heap j).followers =
          if j = id then (t.origins.heap j).followers + 1 else (t.origins.heap j).followers := by
        intro j
        show ((t.origins.update id fun flight =>
          { flight with followers := flight.followers + 1 }).heap j).followers = _
        rw [FlightRegistry.heap_update]
        split_ifs <;> rfl
      -- the followers of this flight all came with its key
      have hid : ∀ caller ∈ t.callers ++ [.follows facade key id], ∀ k j,
          caller.joined = some (k, j) → (j = id → k = key) ∧
            (caller ∈ t.callers ∨ j = id) := by
        intro caller hmem k j hjoined
        rcases List.mem_append.mp hmem with hold | hmem
        · refine ⟨fun hj => ?_, .inl hold⟩
          rw [← hj] at hk
          exact ((h.own caller hold k j hjoined).2 key hk).symm
        · rw [List.mem_singleton.mp hmem] at hjoined
          obtain ⟨rfl, rfl⟩ := Prod.mk.inj (Option.some.inj hjoined)
          exact ⟨fun _ => rfl, .inr rfl⟩
      refine ⟨fun caller hmem k j hjoined => ?_, ?_, fun caller hmem k j hjoined => ?_⟩
      · obtain ⟨hkey, hold⟩ := hid caller hmem k j hjoined
        show ((t.origins.join id).heap j).followers ≤ limit k
        rw [hheap]
        split_ifs with hj
        · rw [hkey hj, hj]
          omega
        · exact h.each caller (hold.resolve_right hj) k j hjoined
      · show t.origins.followers + 1 ≤ total
        omega
      · obtain ⟨hkey, hold⟩ := hid caller hmem k j hjoined
        by_cases hj : j = id
        · subst hj
          rw [hkey rfl]
          have hfollow := hinv.origins.follow hk
          exact ⟨hfollow.created _ (Multiset.mem_cons_self _ _) j (.inr rfl),
            fun k' hk' => hinv.origins.key_unique hk hk'⟩
        · exact h.own caller (hold.resolve_right hj) k j hjoined

theorem Within.step (h : Within limit total t) (hinv : t.Inv) {event : CallerEvent V R}
    (hlimit : event.Limited limit) (htotal : ∀ facade, c.globalMaxFollowers facade ≤ total) :
    Within limit total (t.step c event) := by
  cases event with
  | client call => exact h.calm (.of_origins rfl (.refl _))
  | shutdown facade => exact h.calm (.of_origins rfl (.refl _))
  | getOrLoad key ttlSeconds staleSeconds tags =>
    exact h.calm (.getOrLoad key ttlSeconds staleSeconds tags)
  | coordinate key => exact h.calm (.coordinate key)
  | originCoordinate facade origin key => exact h.originCoordinate hinv hlimit (htotal facade)
  | loaded i result => exact h.calm (.loaded i result)
  | finished i result => exact h.calm (.finished i result)
  | proceed i => exact h.calm (.proceed i)
  | waited i expired => exact h.calm (.waited i expired)

theorem Within.run {events : List (CallerEvent V R)} (hlimit : ∀ event ∈ events, event.Limited limit)
    (htotal : ∀ facade, c.globalMaxFollowers facade ≤ total) :
    Within limit total (run c events) := by
  induction events using List.reverseRecOn with
  | nil => exact .init
  | append_singleton events event ih =>
    have hprefix := ih fun event hmem => hlimit event (List.mem_append_left _ hmem)
    unfold Tower.run at hprefix ⊢
    rw [List.foldl_append]
    exact hprefix.step (.run events) (hlimit event (by simp)) htotal

/-- The callers that wait are those that joined. -/
theorem countP_originRole (t : Tower V R) (p : Option ℕ → Prop) [DecidablePred p] (hp : ¬p none) :
    (rolesOf Caller.originRole t.callers).countP (fun role => p role.awaited) =
      t.callers.countP fun caller => p (caller.joined.map Prod.snd) := by
  rw [countP_rolesOf]
  congr 1
  funext caller
  cases caller with
  | leads key id outer => cases outer <;> simp [Caller.originRole, Caller.joined, Role.awaited, hp]
  | led key id outcome outer =>
    cases outer <;> simp [Caller.originRole, Caller.joined, Role.awaited, hp]
  | awaits key id outer => cases outer <;> simp [Caller.originRole, Caller.joined, Role.awaited, hp]
  | follows facade key outer => rfl
  | leaves key outer => rfl
  | _ => simp [Caller.originRole, Caller.joined, Role.awaited, hp]

end Tower

/-- A caller that runs the loader of its flight, or is about to. -/
def Caller.isLeader : Caller V R → Bool
  | .loads .. | .leads .. | .calls .. => true
  | _ => false

namespace Tower

variable {c : Setup V} {t : Tower V R}

/-- Nobody to wait for. -/
theorem Inv.next (h : t.Inv) (hidle : t.callers = []) (event : CallerEvent V R) :
    ∀ caller ∈ (t.step c event).callers, caller.isLeader = true := by
  have hroles : ∀ {β : Type} (f : Caller V R → Option β), ∀ role ∈ rolesOf f t.callers, False := by
    intro β f role hmem
    rw [hidle] at hmem
    exact Multiset.notMem_zero role hmem
  have hnobody : ∀ i : ℕ, t.callers[i]? = none := by simp [hidle]
  have hsame : ∀ caller ∈ t.callers, caller.isLeader = true := by simp [hidle]
  have happend : ∀ {new : Caller V R}, new.isLeader = true →
      ∀ caller ∈ t.callers ++ [new], caller.isLeader = true := by
    intro new hnew caller hmem
    rw [hidle, List.nil_append, List.mem_singleton] at hmem
    rw [hmem, hnew]
  cases event with
  | client call => exact hsame
  | shutdown facade => exact hsame
  | getOrLoad key ttlSeconds staleSeconds tags =>
    have hk := h.loads.delivers.idle (fun role hmem => (hroles _ role hmem).elim) key
    dsimp only [Tower.step, Tower.getOrLoad]
    split
    · exact hsame
    · split_ifs
      · exact hsame
      · rw [hk]
        exact happend rfl
  | coordinate key =>
    have hk := h.coordination.delivers.idle (fun role hmem => (hroles _ role hmem).elim) key
    dsimp only [Tower.step, Tower.coordinate]
    obtain ⟨e, engine, heq⟩ | ⟨-, engine, heq⟩ | ⟨id, engine, hk', heq⟩ := t.arrive_cases key none
    · rw [heq]
      exact hsame
    · rw [heq]
      exact happend rfl
    · rw [hk] at hk'
      cases hk'
  | originCoordinate facade origin key =>
    have hk := h.origins.delivers.idle (fun role hmem => (hroles _ role hmem).elim) key
    dsimp only [Tower.step, Tower.originCoordinate]
    rw [hk]
    exact happend rfl
  | loaded i result =>
    dsimp only [Tower.step, Tower.loaded]
    rw [hnobody]
    exact hsame
  | finished i result =>
    dsimp only [Tower.step, Tower.finished]
    rw [hnobody]
    exact hsame
  | proceed i =>
    dsimp only [Tower.step, Tower.proceed]
    rw [hnobody]
    exact hsame
  | waited i expired =>
    dsimp only [Tower.step, Tower.waited]
    rw [hnobody]
    exact hsame

/-- What holds of a tower at any time. -/
structure Singleflight (c : Setup V) (events : List (CallerEvent V R)) (t : Tower V R) : Prop where
  loads : t.loads.Delivers (rolesOf Caller.loadRole t.callers) t.loadAnswers
  coordination :
    t.coordination.Delivers (rolesOf Caller.coordinationRole t.callers) t.coordinationAnswers
  origins : t.origins.Delivers (rolesOf Caller.originRole t.callers) t.originAnswers
  followers : ∀ id, (t.origins.heap id).followers =
    t.callers.countP fun caller => caller.joined.map Prod.snd = some id
  registryFollowers : t.origins.followers = t.callers.countP fun caller => caller.joined.isSome
  limits : ∀ limit total, (∀ event ∈ events, event.Limited limit) →
    (∀ facade, c.globalMaxFollowers facade ≤ total) →
    (∀ caller ∈ t.callers, ∀ key id, caller.joined = some (key, id) →
      (t.origins.heap id).followers ≤ limit key) ∧ t.origins.followers ≤ total
  next : t.callers = [] → ∀ event, ∀ caller ∈ (t.step c event).callers, caller.isLeader = true

theorem singleflight (c : Setup V) (events : List (CallerEvent V R)) :
    Singleflight c events (run c events) := by
  have hinv : (run c events).Inv := .run events
  refine ⟨hinv.loads.delivers, hinv.coordination.delivers, hinv.origins.delivers, fun id => ?_, ?_,
    fun limit total hlimit htotal => ?_, hinv.next⟩
  · rw [hinv.counted.each id]
    exact countP_originRole _ (· = some id) nofun
  · rw [hinv.counted.total]
    simpa using countP_originRole (run c events) (fun id => id.isSome = true) nofun
  · have hwithin : Within limit total (run c events) := .run hlimit htotal
    exact ⟨hwithin.each, hwithin.total⟩

end Tower

end Origin
end MegaCache
