import Mathlib
import MegaCache.Lib.OrderedDict

/-!
# Flights

The first caller for a key registers a flight and leads it; later callers find the flight
and wait on it.  The leader records its outcome in the flight, takes the flight out of the
registry and wakes the others.  What the callers of one registry are doing is a multiset of
roles, and `Fits` says how a registry and the roles of its callers belong together; there is
one lemma for each thing a caller can do.
-/

namespace MegaCache

structure Flight (R : Type) where
  followers : ℕ
  outcome : Option R
  isSet : Bool

/-- A flight that was just created. -/
def Flight.fresh {R : Type} : Flight R := ⟨0, none, false⟩

/-- A registry; `heap` holds every flight by the order of its creation. -/
structure FlightRegistry (K R : Type) where
  heap : ℕ → Flight R
  next : ℕ
  registered : OrderedDict K ℕ
  followers : ℕ

/-- What a caller left with: whether it led, its flight and the outcome. -/
structure Answer (R : Type) where
  leader : Bool
  flight : ℕ
  outcome : R

/-- What a caller is doing: its loader runs, its outcome is recorded, or it waits. -/
inductive Role (K R : Type)
  | leading (key : K) (id : ℕ)
  | settled (key : K) (id : ℕ) (outcome : R)
  | waiting (id : ℕ)

namespace Role

variable {K R : Type}

/-- The flight that a caller leads. -/
def led : Role K R → Option ℕ
  | .leading _ id | .settled _ id _ => some id
  | .waiting _ => none

/-- The flight that a caller waits on. -/
def awaited : Role K R → Option ℕ
  | .waiting id => some id
  | _ => none

/-- The caller leads this flight of this key. -/
def Leads (key : K) (id : ℕ) : Role K R → Prop
  | .leading k i | .settled k i _ => k = key ∧ i = id
  | .waiting _ => False

/-- The key whose loader the caller runs. -/
def loads : Role K R → Option K
  | .leading key _ => some key
  | _ => none

theorem Leads.led {key : K} {id : ℕ} {role : Role K R} (h : role.Leads key id) :
    role.led = some id := by
  cases role with
  | leading k i => rw [← h.2, Role.led]
  | settled k i r => rw [← h.2, Role.led]
  | waiting i => exact h.elim

end Role

namespace FlightRegistry

variable {K R : Type} [DecidableEq K]

def init : FlightRegistry K R := ⟨fun _ => .fresh, 0, .empty, 0⟩

/-- A new flight for a key. -/
def register (reg : FlightRegistry K R) (key : K) : FlightRegistry K R :=
  { reg with next := reg.next + 1, registered := reg.registered.set key reg.next }

def update (reg : FlightRegistry K R) (id : ℕ) (f : Flight R → Flight R) : FlightRegistry K R :=
  { reg with heap := Function.update reg.heap id (f (reg.heap id)) }

/-- The outcome of the leader. -/
def settle (reg : FlightRegistry K R) (id : ℕ) (r : R) : FlightRegistry K R :=
  reg.update id fun flight => { flight with outcome := some r }

/-- The flight of a key leaves the registry, and its event is set. -/
def retire (reg : FlightRegistry K R) (key : K) (id : ℕ) : FlightRegistry K R :=
  { reg.update id fun flight => { flight with isSet := true } with
    registered := reg.registered.erase key }

/-- `retire`, if the flight of the key is this one. -/
def retireOwn (reg : FlightRegistry K R) (key : K) (id : ℕ) : FlightRegistry K R :=
  { reg.update id fun flight => { flight with isSet := true } with
    registered := if reg.registered.get? key = some id then reg.registered.erase key
      else reg.registered }

/-- One more follower. -/
def join (reg : FlightRegistry K R) (id : ℕ) : FlightRegistry K R :=
  { reg.update id fun flight => { flight with followers := flight.followers + 1 } with
    followers := reg.followers + 1 }

/-- One follower less. -/
def leave (reg : FlightRegistry K R) (id : ℕ) : FlightRegistry K R :=
  { reg.update id fun flight => { flight with followers := flight.followers - 1 } with
    followers := reg.followers - 1 }

/-- A registry, the roles of its callers and the answers so far. -/
structure Fits (reg : FlightRegistry K R) (roles : Multiset (Role K R)) (log : List (Answer R)) :
    Prop where
  registered : ∀ key id, reg.registered.get? key = some id ↔ ∃ role ∈ roles, role.Leads key id
  single : ∀ id, roles.countP (fun role => role.led = some id) ≤ 1
  created : ∀ role ∈ roles, ∀ id, role.led = some id ∨ role.awaited = some id → id < reg.next
  unborn : ∀ id, reg.next ≤ id → reg.heap id = .fresh
  leading : ∀ key id, .leading key id ∈ roles → (reg.heap id).outcome = none
  settled : ∀ key id r, .settled key id r ∈ roles → (reg.heap id).outcome = some r
  unset : ∀ role ∈ roles, ∀ id, role.led = some id → (reg.heap id).isSet = false
  done : ∀ id < reg.next, (∃ role ∈ roles, role.led = some id) ∨
    (reg.heap id).isSet = true ∧ ∃ r, (reg.heap id).outcome = some r
  told : ∀ a ∈ log, (reg.heap a.flight).outcome = some a.outcome
  set : ∀ id r, (reg.heap id).isSet = true → (reg.heap id).outcome = some r →
    ⟨true, id, r⟩ ∈ log
  heard : ∀ a ∈ log, ⟨true, a.flight, a.outcome⟩ ∈ log

theorem Fits.init : Fits (init : FlightRegistry K R) 0 [] where
  registered := by simp [FlightRegistry.init]
  single := by simp
  created := by simp
  unborn := by simp [FlightRegistry.init]
  leading := by simp
  settled := by simp
  unset := by simp
  done := by simp [FlightRegistry.init]
  told := by simp
  set := by simp [FlightRegistry.init, Flight.fresh]
  heard := by simp

section Fits

variable {reg : FlightRegistry K R} {roles : Multiset (Role K R)} {log : List (Answer R)}
  {key : K} {id : ℕ} {r : R}

/-- A flight has one leader. -/
theorem Fits.alone {role : Role K R} (h : Fits reg (role ::ₘ roles) log) (hl : role.led = some id) :
    ∀ role' ∈ roles, role'.led ≠ some id := by
  intro role' hmem hl'
  have hcount := h.single id
  rw [Multiset.countP_cons, if_pos hl] at hcount
  have hpos : 0 < roles.countP fun role => role.led = some id :=
    Multiset.countP_pos.mpr ⟨role', hmem, hl'⟩
  omega

/-- A key has one leader. -/
theorem Fits.leader_unique {role : Role K R} (h : Fits reg (role ::ₘ roles) log)
    (hl : role.Leads key id) : ∀ role' ∈ roles, ∀ id', ¬role'.Leads key id' := by
  intro role' hmem id' hl'
  have hid := (h.registered key id).mpr ⟨role, Multiset.mem_cons_self _ _, hl⟩
  have hid' := (h.registered key id').mpr ⟨role', Multiset.mem_cons_of_mem hmem, hl'⟩
  obtain rfl := Option.some.inj (hid.symm.trans hid')
  exact h.alone hl.led role' hmem hl'.led

/-- At most one loader of a key runs. -/
theorem Fits.loaders (h : Fits reg roles log) (key : K) :
    roles.countP (fun role => role.loads = some key) ≤ 1 := by
  by_contra hlt
  obtain ⟨role, hmem, hload⟩ : ∃ role ∈ roles, role.loads = some key := by
    rw [← Multiset.countP_pos]
    omega
  obtain ⟨rest, rfl⟩ := Multiset.exists_cons_of_mem hmem
  rw [Multiset.countP_cons, if_pos hload] at hlt
  obtain ⟨role', hmem', hload'⟩ : ∃ role' ∈ rest, role'.loads = some key := by
    rw [← Multiset.countP_pos]
    omega
  have hleads : ∀ {role : Role K R}, role.loads = some key → ∃ id, role.Leads key id := by
    intro role hrole
    cases role with
    | leading k id => exact ⟨id, Option.some.inj hrole, rfl⟩
    | settled k id r => cases hrole
    | waiting id => cases hrole
  obtain ⟨id, hl⟩ := hleads hload
  obtain ⟨id', hl'⟩ := hleads hload'
  exact h.leader_unique hl role' hmem' id' hl'

/-- The first caller for a key. -/
theorem Fits.lead (h : Fits reg roles log) (hk : reg.registered.get? key = none) :
    Fits (reg.register key) (.leading key reg.next ::ₘ roles) log where
  registered k i := by
    show (reg.registered.set key reg.next).get? k = some i ↔ _
    rw [OrderedDict.get?_set]
    constructor
    · intro hget
      split_ifs at hget with hkey
      · exact ⟨_, Multiset.mem_cons_self _ _, hkey.symm, Option.some.inj hget⟩
      · obtain ⟨role, hmem, hl⟩ := (h.registered k i).mp hget
        exact ⟨role, Multiset.mem_cons_of_mem hmem, hl⟩
    · rintro ⟨role, hmem, hl⟩
      rcases Multiset.mem_cons.mp hmem with rfl | hmem
      · rw [if_pos hl.1.symm, ← hl.2]
      · have hget := (h.registered k i).mpr ⟨role, hmem, hl⟩
        have hkey : k ≠ key := by
          rintro rfl
          rw [hk] at hget
          cases hget
        rw [if_neg hkey, hget]
  single i := by
    by_cases hi : i = reg.next
    · subst hi
      have hnone : roles.countP (fun role => role.led = some reg.next) = 0 := by
        rw [Multiset.countP_eq_zero]
        intro role hmem hl
        exact absurd (h.created role hmem _ (.inl hl)) (lt_irrefl _)
      rw [Multiset.countP_cons, hnone]
      split_ifs <;> omega
    · have hne : ¬(Role.leading key reg.next : Role K R).led = some i := by
        simp only [Role.led, Option.some.injEq]
        exact fun heq => hi heq.symm
      rw [Multiset.countP_cons, if_neg hne]
      exact h.single i
  created role hmem i hi := by
    rcases Multiset.mem_cons.mp hmem with rfl | hmem
    · rcases hi with hi | hi
      · rw [← Option.some.inj hi]
        exact Nat.lt_succ_self _
      · cases hi
    · exact Nat.lt_succ_of_lt (h.created role hmem i hi)
  unborn i hi := h.unborn i (Nat.le_of_succ_le hi)
  leading k i hmem := by
    rcases Multiset.mem_cons.mp hmem with heq | hmem
    · obtain ⟨-, rfl⟩ := Role.leading.inj heq
      show (reg.heap reg.next).outcome = none
      rw [h.unborn reg.next le_rfl]
      rfl
    · exact h.leading k i hmem
  settled k i r hmem := by
    rcases Multiset.mem_cons.mp hmem with heq | hmem
    · cases heq
    · exact h.settled k i r hmem
  unset role hmem i hl := by
    rcases Multiset.mem_cons.mp hmem with rfl | hmem
    · obtain rfl := Option.some.inj hl
      show (reg.heap reg.next).isSet = false
      rw [h.unborn reg.next le_rfl]
      rfl
    · exact h.unset role hmem i hl
  done i hi := by
    rcases Nat.lt_succ_iff_lt_or_eq.mp hi with hi | rfl
    · obtain ⟨role, hmem, hl⟩ | hdone := h.done i hi
      · exact .inl ⟨role, Multiset.mem_cons_of_mem hmem, hl⟩
      · exact .inr hdone
    · exact .inl ⟨_, Multiset.mem_cons_self _ _, rfl⟩
  told := h.told
  set := h.set
  heard := h.heard

/-- A caller that finds the flight of its key. -/
theorem Fits.follow (h : Fits reg roles log) (hk : reg.registered.get? key = some id) :
    Fits reg (.waiting id ::ₘ roles) log where
  registered k i := by
    rw [h.registered k i]
    constructor
    · rintro ⟨role, hmem, hl⟩
      exact ⟨role, Multiset.mem_cons_of_mem hmem, hl⟩
    · rintro ⟨role, hmem, hl⟩
      rcases Multiset.mem_cons.mp hmem with rfl | hmem
      · exact hl.elim
      · exact ⟨role, hmem, hl⟩
  single i := by
    rw [Multiset.countP_cons, if_neg (by simp [Role.led])]
    exact h.single i
  created role hmem i hi := by
    rcases Multiset.mem_cons.mp hmem with rfl | hmem
    · obtain ⟨leader, hleader, hl⟩ := (h.registered key id).mp hk
      obtain rfl : id = i := by
        rcases hi with hi | hi
        · cases hi
        · exact Option.some.inj hi
      exact h.created leader hleader id (.inl hl.led)
    · exact h.created role hmem i hi
  unborn := h.unborn
  leading k i hmem := h.leading k i (by simpa using hmem)
  settled k i r hmem := h.settled k i r (by simpa using hmem)
  unset role hmem i hl := by
    rcases Multiset.mem_cons.mp hmem with rfl | hmem
    · cases hl
    · exact h.unset role hmem i hl
  done i hi := by
    obtain ⟨role, hmem, hl⟩ | hdone := h.done i hi
    · exact .inl ⟨role, Multiset.mem_cons_of_mem hmem, hl⟩
    · exact .inr hdone
  told := h.told
  set := h.set
  heard := h.heard

/-- A follower that goes away. -/
theorem Fits.unfollow (h : Fits reg (.waiting id ::ₘ roles) log) : Fits reg roles log where
  registered k i := by
    rw [h.registered k i]
    constructor
    · rintro ⟨role, hmem, hl⟩
      rcases Multiset.mem_cons.mp hmem with rfl | hmem
      · exact hl.elim
      · exact ⟨role, hmem, hl⟩
    · rintro ⟨role, hmem, hl⟩
      exact ⟨role, Multiset.mem_cons_of_mem hmem, hl⟩
  single i := by
    have hcount := h.single i
    rwa [Multiset.countP_cons, if_neg (by simp [Role.led])] at hcount
  created role hmem := h.created role (Multiset.mem_cons_of_mem hmem)
  unborn := h.unborn
  leading k i hmem := h.leading k i (Multiset.mem_cons_of_mem hmem)
  settled k i r hmem := h.settled k i r (Multiset.mem_cons_of_mem hmem)
  unset role hmem := h.unset role (Multiset.mem_cons_of_mem hmem)
  done i hi := by
    obtain ⟨role, hmem, hl⟩ | hdone := h.done i hi
    · rcases Multiset.mem_cons.mp hmem with rfl | hmem
      · cases hl
      · exact .inl ⟨role, hmem, hl⟩
    · exact .inr hdone
  told := h.told
  set := h.set
  heard := h.heard

omit [DecidableEq K] in
theorem heap_update (reg : FlightRegistry K R) (id : ℕ) (f : Flight R → Flight R) (i : ℕ) :
    (reg.update id f).heap i = if i = id then f (reg.heap i) else reg.heap i := by
  by_cases hi : i = id
  · subst hi
    simp [update]
  · simp [update, hi]

/-- The loader of a leader returned or raised. -/
theorem Fits.settle (h : Fits reg (.leading key id ::ₘ roles) log) (r : R) :
    Fits (reg.settle id r) (.settled key id r ::ₘ roles) log := by
  have halone : ∀ role' ∈ roles, role'.led ≠ some id := h.alone rfl
  have hnone := h.leading key id (Multiset.mem_cons_self _ _)
  have hheap : ∀ i, i ≠ id → (reg.settle id r).heap i = reg.heap i := fun i hi => by
    rw [FlightRegistry.settle, heap_update, if_neg hi]
  have hself : (reg.settle id r).heap id = { reg.heap id with outcome := some r } := by
    rw [FlightRegistry.settle, heap_update, if_pos rfl]
  have hset : ∀ i, ((reg.settle id r).heap i).isSet = (reg.heap i).isSet := by
    intro i
    by_cases hi : i = id
    · rw [hi, hself]
    · rw [hheap i hi]
  -- the roles differ only in how far the leader of `id` has got
  have hroles : ∀ p : Role K R → Prop, (p (.settled key id r) ↔ p (.leading key id)) →
      ((∃ role ∈ Role.settled key id r ::ₘ roles, p role) ↔
        ∃ role ∈ Role.leading key id ::ₘ roles, p role) := by
    intro p hp
    simp only [Multiset.mem_cons, exists_eq_or_imp, hp]
  refine ⟨fun k i => ?_, fun i => ?_, fun role hmem i hi => ?_, fun i hi => ?_, fun k i hmem => ?_,
    fun k i r' hmem => ?_, fun role hmem i hl => ?_, fun i hi => ?_, fun a ha => ?_,
    fun i r' hs ho => ?_, h.heard⟩
  · rw [hroles (fun role => role.Leads k i) Iff.rfl]
    exact h.registered k i
  · have hcount := h.single i
    rw [Multiset.countP_cons] at hcount ⊢
    exact hcount
  · rcases Multiset.mem_cons.mp hmem with rfl | hmem
    · exact h.created _ (Multiset.mem_cons_self _ _) i hi
    · exact h.created role (Multiset.mem_cons_of_mem hmem) i hi
  · have hid : id < reg.next := h.created _ (Multiset.mem_cons_self _ _) id (.inl rfl)
    have hi' : reg.next ≤ i := hi
    rw [hheap i (by omega)]
    exact h.unborn i hi
  · rcases Multiset.mem_cons.mp hmem with heq | hmem
    · cases heq
    · rw [hheap i fun hi => halone _ hmem (hi ▸ rfl)]
      exact h.leading k i (Multiset.mem_cons_of_mem hmem)
  · rcases Multiset.mem_cons.mp hmem with heq | hmem
    · obtain ⟨-, rfl, rfl⟩ := Role.settled.inj heq
      rw [hself]
    · rw [hheap i fun hi => halone _ hmem (hi ▸ rfl)]
      exact h.settled k i r' (Multiset.mem_cons_of_mem hmem)
  · rw [hset]
    rcases Multiset.mem_cons.mp hmem with rfl | hmem
    · exact h.unset _ (Multiset.mem_cons_self _ _) i hl
    · exact h.unset role (Multiset.mem_cons_of_mem hmem) i hl
  · rw [hset, hroles (fun role => role.led = some i) Iff.rfl]
    obtain hleader | ⟨hs, r', ho⟩ := h.done i hi
    · exact .inl hleader
    · refine .inr ⟨hs, r', ?_⟩
      rw [hheap i]
      · exact ho
      · rintro rfl
        rw [hnone] at ho
        cases ho
  · have htold := h.told a ha
    rw [hheap a.flight]
    · exact htold
    · intro hi
      rw [hi, hnone] at htold
      cases htold
  · rw [hset] at hs
    have hne : i ≠ id := by
      rintro rfl
      rw [h.unset _ (Multiset.mem_cons_self _ _) i rfl] at hs
      cases hs
    rw [hheap i hne] at ho
    exact h.set i r' hs ho

/-- The leader wakes its followers and leaves with the outcome. -/
theorem Fits.retire (h : Fits reg (.settled key id r ::ₘ roles) log) :
    Fits (reg.retire key id) roles (⟨true, id, r⟩ :: log) := by
  have halone : ∀ role' ∈ roles, role'.led ≠ some id := h.alone rfl
  have hother : ∀ role' ∈ roles, ∀ id', ¬role'.Leads key id' := h.leader_unique ⟨rfl, rfl⟩
  have hout := h.settled key id r (Multiset.mem_cons_self _ _)
  have hheap : ∀ i, (reg.retire key id).heap i =
      if i = id then { reg.heap i with isSet := true } else reg.heap i :=
    fun i => heap_update reg id (fun flight => { flight with isSet := true }) i
  have houtcome : ∀ i, ((reg.retire key id).heap i).outcome = (reg.heap i).outcome := by
    intro i
    rw [hheap]
    split_ifs <;> rfl
  refine ⟨fun k i => ?_, fun i => ?_, fun role hmem => h.created role (Multiset.mem_cons_of_mem hmem),
    fun i hi => ?_, fun k i hmem => ?_, fun k i r' hmem => ?_, fun role hmem i hl => ?_,
    fun i hi => ?_, fun a ha => ?_, fun i r' hs ho => ?_, fun a ha => ?_⟩
  · show (reg.registered.erase key).get? k = some i ↔ _
    rw [OrderedDict.get?_erase]
    split_ifs with hk
    · subst hk
      constructor
      · intro hnone
        cases hnone
      · rintro ⟨role, hmem, hl⟩
        exact (hother role hmem i hl).elim
    · rw [h.registered k i]
      constructor
      · rintro ⟨role, hmem, hl⟩
        rcases Multiset.mem_cons.mp hmem with rfl | hmem
        · exact absurd hl.1.symm hk
        · exact ⟨role, hmem, hl⟩
      · rintro ⟨role, hmem, hl⟩
        exact ⟨role, Multiset.mem_cons_of_mem hmem, hl⟩
  · have hcount := h.single i
    rw [Multiset.countP_cons] at hcount
    omega
  · have hid : id < reg.next := h.created _ (Multiset.mem_cons_self _ _) id (.inl rfl)
    have hi' : reg.next ≤ i := hi
    rw [hheap, if_neg (by omega)]
    exact h.unborn i hi
  · rw [houtcome]
    exact h.leading k i (Multiset.mem_cons_of_mem hmem)
  · rw [houtcome]
    exact h.settled k i r' (Multiset.mem_cons_of_mem hmem)
  · have hne : i ≠ id := by
      rintro rfl
      exact halone role hmem hl
    rw [hheap, if_neg hne]
    exact h.unset role (Multiset.mem_cons_of_mem hmem) i hl
  · rw [houtcome, hheap]
    split_ifs with hid
    · subst hid
      exact .inr ⟨rfl, r, hout⟩
    · obtain ⟨role, hmem, hl⟩ | hdone := h.done i hi
      · rcases Multiset.mem_cons.mp hmem with rfl | hmem
        · exact absurd (Option.some.inj hl).symm hid
        · exact .inl ⟨role, hmem, hl⟩
      · exact .inr hdone
  · rw [houtcome]
    rcases List.mem_cons.mp ha with rfl | ha
    · exact hout
    · exact h.told a ha
  · rw [houtcome] at ho
    rw [hheap] at hs
    split_ifs at hs with hid
    · subst hid
      rw [hout] at ho
      obtain rfl := Option.some.inj ho
      exact List.mem_cons_self
    · exact List.mem_cons_of_mem _ (h.set i r' hs ho)
  · rcases List.mem_cons.mp ha with rfl | ha
    · exact List.mem_cons_self
    · exact List.mem_cons_of_mem _ (h.heard a ha)

/-- The flight of its key is the leader's own. -/
theorem Fits.retireOwn_eq (h : Fits reg (.settled key id r ::ₘ roles) log) :
    reg.retireOwn key id = reg.retire key id := by
  have hown := (h.registered key id).mpr ⟨_, Multiset.mem_cons_self _ _, rfl, rfl⟩
  rw [retireOwn, if_pos hown, FlightRegistry.retire]

/-- A follower that was woken leaves with the outcome of its flight. -/
theorem Fits.answer (h : Fits reg roles log) (hs : (reg.heap id).isSet = true)
    (ho : (reg.heap id).outcome = some r) : Fits reg roles (⟨false, id, r⟩ :: log) :=
  { h with
    told := by
      intro a ha
      rcases List.mem_cons.mp ha with rfl | ha
      · exact ho
      · exact h.told a ha
    set := fun i r' hs ho' => List.mem_cons_of_mem _ (h.set i r' hs ho')
    heard := by
      intro a ha
      rcases List.mem_cons.mp ha with rfl | ha
      · exact List.mem_cons_of_mem _ (h.set id r hs ho)
      · exact List.mem_cons_of_mem _ (h.heard a ha) }

/-- A follower whose flight is set finds its outcome. -/
theorem Fits.outcome_of_set (h : Fits reg (.waiting id ::ₘ roles) log)
    (hs : (reg.heap id).isSet = true) : ∃ r, (reg.heap id).outcome = some r := by
  have hid := h.created _ (Multiset.mem_cons_self _ _) id (.inr rfl)
  obtain ⟨role, hmem, hl⟩ | ⟨-, hout⟩ := h.done id hid
  · rw [h.unset role hmem id hl] at hs
    cases hs
  · exact hout

/-- What followers were told is what their leader left with. -/
theorem Fits.agree (h : Fits reg roles log) {a b : Answer R} (ha : a ∈ log) (hb : b ∈ log)
    (hflight : a.flight = b.flight) : a.outcome = b.outcome := by
  have hout := h.told a ha
  rw [hflight, h.told b hb] at hout
  exact (Option.some.inj hout).symm

/-- What the callers of a registry can rely on. -/
structure Delivers (reg : FlightRegistry K R) (roles : Multiset (Role K R))
    (log : List (Answer R)) : Prop where
  loaders : ∀ key, roles.countP (fun role => role.loads = some key) ≤ 1
  answers : ∀ a ∈ log, ⟨true, a.flight, a.outcome⟩ ∈ log ∧
    ∀ b ∈ log, b.flight = a.flight → b.outcome = a.outcome
  waiting : ∀ id, .waiting id ∈ roles → (∃ role ∈ roles, role.led = some id) ∨
    (reg.heap id).isSet = true ∧ ∃ r, (reg.heap id).outcome = some r ∧ ⟨true, id, r⟩ ∈ log
  idle : (∀ role ∈ roles, role.led = none) → ∀ key, reg.registered.get? key = none

theorem Fits.delivers (h : Fits reg roles log) : Delivers reg roles log where
  loaders := h.loaders
  answers a ha := ⟨h.heard a ha, fun _ hb hflight => h.agree hb ha hflight⟩
  waiting id hmem := by
    obtain hleader | ⟨hs, r, hr⟩ := h.done id (h.created _ hmem id (.inr rfl))
    · exact .inl hleader
    · exact .inr ⟨hs, r, hr, h.set id r hs hr⟩
  idle hidle key := by
    cases hget : reg.registered.get? key with
    | none => rfl
    | some id =>
      obtain ⟨role, hmem, hl⟩ := (h.registered key id).mp hget
      have hled := hl.led
      rw [hidle role hmem] at hled
      cases hled

/-- A flight belongs to one key. -/
theorem Fits.key_unique (h : Fits reg roles log) {key' : K}
    (hk : reg.registered.get? key = some id) (hk' : reg.registered.get? key' = some id) :
    key' = key := by
  obtain ⟨role, hmem, hl⟩ := (h.registered key id).mp hk
  obtain ⟨rest, rfl⟩ := Multiset.exists_cons_of_mem hmem
  obtain ⟨role', hmem', hl'⟩ := (h.registered key' id).mp hk'
  rcases Multiset.mem_cons.mp hmem' with rfl | hmem'
  · cases role' with
    | leading k i => exact hl'.1.symm.trans hl.1
    | settled k i r => exact hl'.1.symm.trans hl.1
    | waiting i => exact hl.elim
  · exact absurd hl'.led (h.alone hl.led role' hmem')

/-! ### Counted followers -/

/-- The counters of followers are the numbers of callers that wait. -/
structure Counted (reg : FlightRegistry K R) (roles : Multiset (Role K R)) : Prop where
  each : ∀ id, (reg.heap id).followers = roles.countP fun role => role.awaited = some id
  total : reg.followers = roles.countP fun role => role.awaited.isSome

omit [DecidableEq K] in
theorem Counted.init : Counted (init : FlightRegistry K R) 0 :=
  ⟨fun _ => rfl, rfl⟩

omit [DecidableEq K] in
/-- A change of a caller that does not wait, before or after. -/
theorem Counted.change {reg' : FlightRegistry K R} {role role' : Role K R}
    (h : Counted reg (role ::ₘ roles)) (hrole : role.awaited = none) (hrole' : role'.awaited = none)
    (hheap : ∀ i, (reg'.heap i).followers = (reg.heap i).followers)
    (hfollowers : reg'.followers = reg.followers) : Counted reg' (role' ::ₘ roles) := by
  refine ⟨fun i => ?_, ?_⟩
  · rw [hheap, h.each i, Multiset.countP_cons, Multiset.countP_cons, hrole, hrole']
  · rw [hfollowers, h.total, Multiset.countP_cons, Multiset.countP_cons, hrole, hrole']

theorem Counted.lead (h : Counted reg roles) (key : K) :
    Counted (reg.register key) (.leading key reg.next ::ₘ roles) := by
  refine ⟨fun i => ?_, ?_⟩
  · rw [Multiset.countP_cons, if_neg (by simp [Role.awaited])]
    exact h.each i
  · rw [Multiset.countP_cons, if_neg (by simp [Role.awaited])]
    exact h.total

omit [DecidableEq K] in
theorem Counted.settle (h : Counted reg (.leading key id ::ₘ roles)) (r : R) :
    Counted (reg.settle id r) (.settled key id r ::ₘ roles) := by
  refine h.change rfl rfl (fun i => ?_) rfl
  rw [FlightRegistry.settle, heap_update]
  split_ifs <;> rfl

theorem Counted.retire (h : Counted reg (.settled key id r ::ₘ roles)) :
    Counted (reg.retire key id) roles := by
  refine ⟨fun i => ?_, ?_⟩
  · have heach := h.each i
    rw [Multiset.countP_cons, if_neg (by simp [Role.awaited])] at heach
    have hheap : ((reg.retire key id).heap i).followers = (reg.heap i).followers := by
      show ((reg.update id fun flight => { flight with isSet := true }).heap i).followers = _
      rw [heap_update]
      split_ifs <;> rfl
    rw [hheap, heach, add_zero]
  · have htotal := h.total
    rw [Multiset.countP_cons, if_neg (by simp [Role.awaited])] at htotal
    exact htotal

omit [DecidableEq K] in
theorem Counted.join (h : Counted reg roles) (id : ℕ) :
    Counted (reg.join id) (.waiting id ::ₘ roles) := by
  refine ⟨fun i => ?_, ?_⟩
  · show ((reg.update id fun flight => { flight with followers := flight.followers + 1 }).heap
      i).followers = _
    rw [heap_update, Multiset.countP_cons]
    by_cases hi : i = id
    · subst hi
      rw [if_pos rfl, if_pos (by simp [Role.awaited])]
      exact congrArg (· + 1) (h.each i)
    · rw [if_neg hi, if_neg (by simpa [Role.awaited] using fun heq => hi heq.symm)]
      exact h.each i
  · rw [Multiset.countP_cons, if_pos (by simp [Role.awaited])]
    exact congrArg (· + 1) h.total

omit [DecidableEq K] in
theorem Counted.leave (h : Counted reg (.waiting id ::ₘ roles)) : Counted (reg.leave id) roles := by
  refine ⟨fun i => ?_, ?_⟩
  · show ((reg.update id fun flight => { flight with followers := flight.followers - 1 }).heap
      i).followers = _
    have heach := h.each i
    rw [Multiset.countP_cons] at heach
    rw [heap_update]
    by_cases hi : i = id
    · subst hi
      rw [if_pos (by simp [Role.awaited])] at heach
      rw [if_pos rfl]
      show (reg.heap i).followers - 1 = _
      omega
    · rw [if_neg (by simpa [Role.awaited] using fun heq => hi heq.symm)] at heach
      rw [if_neg hi]
      omega
  · have htotal := h.total
    rw [Multiset.countP_cons, if_pos (by simp [Role.awaited])] at htotal
    show reg.followers - 1 = _
    omega

/-- The counters say nothing about who leads. -/
theorem Fits.recount {reg' : FlightRegistry K R} (h : Fits reg roles log)
    (hregistered : reg'.registered = reg.registered) (hnext : reg'.next = reg.next)
    (hout : ∀ i, (reg'.heap i).outcome = (reg.heap i).outcome)
    (hset : ∀ i, (reg'.heap i).isSet = (reg.heap i).isSet)
    (hunborn : ∀ i, reg.next ≤ i → reg'.heap i = .fresh) : Fits reg' roles log where
  registered k i := by
    rw [hregistered]
    exact h.registered k i
  single := h.single
  created role hmem i hi := by
    rw [hnext]
    exact h.created role hmem i hi
  unborn i hi := hunborn i (hnext ▸ hi)
  leading k i hmem := (hout i).trans (h.leading k i hmem)
  settled k i r hmem := (hout i).trans (h.settled k i r hmem)
  unset role hmem i hl := (hset i).trans (h.unset role hmem i hl)
  done i hi := by
    rw [hset, hout]
    exact h.done i (hnext ▸ hi)
  told a ha := (hout _).trans (h.told a ha)
  set i r hs ho := h.set i r ((hset i).symm.trans hs) ((hout i).symm.trans ho)
  heard := h.heard

/-- A change of the counter of a flight that exists. -/
theorem Fits.update (h : Fits reg roles log) {f : Flight R → Flight R} (hid : id < reg.next)
    (hf : ∀ flight, (f flight).outcome = flight.outcome ∧ (f flight).isSet = flight.isSet)
    (followers : ℕ) : Fits { reg.update id f with followers := followers } roles log := by
  have hheap := heap_update reg id f
  refine h.recount rfl rfl (fun i => ?_) (fun i => ?_) fun i hi => ?_
  · show ((reg.update id f).heap i).outcome = _
    rw [hheap]
    split_ifs
    · exact (hf _).1
    · rfl
  · show ((reg.update id f).heap i).isSet = _
    rw [hheap]
    split_ifs
    · exact (hf _).2
    · rfl
  · show (reg.update id f).heap i = _
    rw [hheap, if_neg (by omega)]
    exact h.unborn i hi

theorem Fits.join (h : Fits reg roles log) (hk : reg.registered.get? key = some id) :
    Fits (reg.join id) (.waiting id ::ₘ roles) log := by
  have hfollow := h.follow hk
  have hid := hfollow.created _ (Multiset.mem_cons_self _ _) id (.inr rfl)
  exact hfollow.update (f := fun flight => { flight with followers := flight.followers + 1 }) hid
    (fun _ => ⟨rfl, rfl⟩) (reg.followers + 1)

theorem Fits.leave (h : Fits reg (.waiting id ::ₘ roles) log) : Fits (reg.leave id) roles log := by
  have hid := h.created _ (Multiset.mem_cons_self _ _) id (.inr rfl)
  exact h.unfollow.update (f := fun flight => { flight with followers := flight.followers - 1 }) hid
    (fun _ => ⟨rfl, rfl⟩) (reg.followers - 1)

end Fits

end FlightRegistry

end MegaCache
