import MegaCache.Engine.TimedMap

/-!
# What the entries hold

A property of what is written that every write has is a property of every entry, at any time
of any run: reads, removals, evictions and leases write nothing, and `expire` only moves the
two deadlines to the same point.
-/

namespace MegaCache
namespace Engine

open Prog

variable {V : Type} {c : EngineConfig V} {P : Written V → Prop} {Q : Key → Written V → Prop}

/-- Every entry has the property. -/
def Holds (P : Written V → Prop) (s : Engine V) : Prop :=
  ∀ k e, s.entries.get? k = some e → P e.written

/-- Every entry has the property for its key. -/
def HoldsAt (Q : Key → Written V → Prop) (s : Engine V) : Prop :=
  ∀ k e, s.entries.get? k = some e → Q k e.written

/-- Every slot is known and has the property for its key. -/
def KnownAt (Q : Key → Written V → Prop) (m : TimedMap V) : Prop :=
  ∀ k, m k = .absent ∨ ∃ w, m k = .written w ∧ Q k w

/-- The map that an engine stands for. -/
def slots (s : Engine V) : TimedMap V := fun k =>
  match s.entries.get? k with
  | none => .absent
  | some e => .written e.written

theorem refines_slots (s : Engine V) : Refines s.entries s.slots := by
  intro k e hg
  simp [slots, hg]

theorem HoldsAt.known {s : Engine V} (h : HoldsAt Q s) : KnownAt Q s.slots := by
  intro k
  cases hg : s.entries.get? k with
  | none => exact .inl (by simp [slots, hg])
  | some e => exact .inr ⟨e.written, by simp [slots, hg], h k e hg⟩

theorem KnownAt.holds {m : TimedMap V} (h : KnownAt Q m) {s : Engine V}
    (hr : Refines s.entries m) : HoldsAt Q s := by
  intro k e hg
  obtain habsent | ⟨w, hw, hQ⟩ := h k
  · rcases hr k e hg with hu | hu <;> rw [habsent] at hu <;> cases hu
  · rcases hr k e hg with hu | hu
    · rw [hw] at hu
      cases hu
    · rw [hw] at hu
      rw [← Slot.written.inj hu]
      exact hQ

theorem KnownAt.write {m : TimedMap V} (h : KnownAt Q m) {key : Key} {w : Option (Written V)}
    (hw : ∀ w', w = some w' → Q key w') : KnownAt Q (m.write key w) := by
  intro k
  cases w with
  | none => exact h k
  | some w =>
    by_cases hk : k = key
    · exact .inr ⟨w, by simp [TimedMap.write, hk], hk ▸ hw w rfl⟩
    · simpa [TimedMap.write, hk] using h k

theorem KnownAt.remove {m : TimedMap V} (h : KnownAt Q m) (keys : List Key) :
    KnownAt Q (m.remove keys) := by
  intro k
  by_cases hk : k ∈ keys
  · exact .inl (by simp [TimedMap.remove, hk])
  · simpa [TimedMap.remove, hk] using h k

theorem KnownAt.removeTagged {m : TimedMap V} (h : KnownAt Q m) (tags : List Tag) :
    KnownAt Q (m.removeTagged tags) := by
  intro k
  obtain habsent | ⟨w, hw, hQ⟩ := h k
  · exact .inl (by simp [TimedMap.removeTagged, habsent])
  · by_cases ht : ∃ t ∈ tags, t ∈ w.tags
    · exact .inl (by simp only [TimedMap.removeTagged, hw, if_pos ht])
    · exact .inr ⟨w, by simp only [TimedMap.removeTagged, hw, if_neg ht], hQ⟩

theorem KnownAt.reschedule {m : TimedMap V} (h : KnownAt Q m) {key : Key}
    (hQ : ∀ w (d : ℚ), Q key w → Q key { w with freshUntil := d, staleUntil := d })
    (deadline : ℚ) : KnownAt Q (m.reschedule key deadline) := by
  intro k
  obtain habsent | ⟨w, hw, hQw⟩ := h k
  · exact .inl (by simp [TimedMap.reschedule, habsent])
  · by_cases hk : k = key
    · subst hk
      exact .inr ⟨_, by simp only [TimedMap.reschedule, hw, ↓reduceIte], hQ w deadline hQw⟩
    · exact .inr ⟨w, by simp only [TimedMap.reschedule, hw, if_neg hk], hQw⟩

/-- What a call writes to a key has the property for the key, whenever it is made. -/
def Call.WritingAt (c : EngineConfig V) (Q : Key → Written V → Prop) : Call V → Prop
  | .put key value ttlSeconds staleSeconds tags _ persistent => ∀ now w,
    TimedMap.putRecord c value ttlSeconds staleSeconds tags persistent now = some w → Q key w
  | .mset values => ∀ item ∈ values, ∀ now w,
    TimedMap.putRecord c item.2 none none [] true now = some w → Q item.1 w
  | .getOrLoad key (.ok value) ttlSeconds staleSeconds tags => ∀ now w,
    TimedMap.putRecord c value ttlSeconds staleSeconds tags false now = some w → Q key w
  | .restoreEntries entries => ∀ item ∈ entries, ∀ now w,
    TimedMap.restoreRecord c item now = some w → Q item.key w
  | _ => True

/-- What a call writes has the property, whenever it is made. -/
def Call.Writing (c : EngineConfig V) (P : Written V → Prop) : Call V → Prop
  | .put _ value ttlSeconds staleSeconds tags _ persistent => ∀ now w,
    TimedMap.putRecord c value ttlSeconds staleSeconds tags persistent now = some w → P w
  | .mset values => ∀ item ∈ values, ∀ now w,
    TimedMap.putRecord c item.2 none none [] true now = some w → P w
  | .getOrLoad _ (.ok value) ttlSeconds staleSeconds tags => ∀ now w,
    TimedMap.putRecord c value ttlSeconds staleSeconds tags false now = some w → P w
  | .restoreEntries entries => ∀ item ∈ entries, ∀ now w,
    TimedMap.restoreRecord c item now = some w → P w
  | _ => True

theorem Call.Writing.at {call : Call V} (h : call.Writing c P) :
    call.WritingAt c fun _ => P := by
  cases call with
  | getOrLoad key loaded => cases loaded <;> exact h
  | _ => exact h

theorem Call.WritingAt.mono {Q' : Key → Written V → Prop} {call : Call V}
    (h : call.WritingAt c Q) (hQ : ∀ k w, Q k w → Q' k w) : call.WritingAt c Q' := by
  cases call with
  | put => exact fun now w hw => hQ _ w (h now w hw)
  | mset => exact fun item hi now w hw => hQ _ w (h item hi now w hw)
  | getOrLoad key loaded =>
    cases loaded with
    | error e => trivial
    | ok value => exact fun now w hw => hQ _ w (h now w hw)
  | restoreEntries => exact fun item hi now w hw => hQ _ w (h item hi now w hw)
  | _ => trivial

theorem KnownAt.afterPut {m : TimedMap V} (h : KnownAt Q m) {s : Engine V} {key : Key} {value : V}
    {ttlSeconds staleSeconds : Option ℤ} {tags : List Tag} {token : Option String}
    {persistent : Bool}
    (hw : ∀ r, (Engine.put c key value ttlSeconds staleSeconds tags token persistent s).1 = .ok r →
      ∀ w, TimedMap.putRecord c value ttlSeconds staleSeconds tags persistent
        (c.clock s.ticks) = some w → Q key w) :
    KnownAt Q (m.afterPut c s key value ttlSeconds staleSeconds tags token persistent) := by
  unfold TimedMap.afterPut
  split
  · exact h
  · next r hr => exact h.write (hw r hr)

/-- A `put` that, if it returns, writes something with the property. -/
theorem HoldsAt.put {s : Engine V} (hs : Sound c s) (h : HoldsAt Q s) {key : Key} {value : V}
    {ttlSeconds staleSeconds : Option ℤ} {tags : List Tag} {token : Option String}
    {persistent : Bool}
    (hw : ∀ r, (Engine.put c key value ttlSeconds staleSeconds tags token persistent s).1 = .ok r →
      ∀ w, TimedMap.putRecord c value ttlSeconds staleSeconds tags persistent
        (c.clock s.ticks) = some w → Q key w) :
    HoldsAt Q (Engine.put c key value ttlSeconds staleSeconds tags token persistent s).2 :=
  (h.known.afterPut hw).holds ((refines_slots s).put hs key value ttlSeconds staleSeconds tags token
    persistent)

/-- An `mset` of values with the property, also one that raises half-way. -/
theorem HoldsAt.mset {s : Engine V} (hs : Sound c s) (h : HoldsAt Q s) {values : List (Key × V)}
    (hw : ∀ item ∈ values, ∀ now w,
      TimedMap.putRecord c item.2 none none [] true now = some w → Q item.1 w) :
    HoldsAt Q (Engine.mset c values s).2 := by
  have hwrites : Prog.Rel (Preserves fun s => Sound c s ∧ HoldsAt Q s) (Engine.mset c values) := by
    refine Rel.bind (Rel.forEach fun item _ s hs => ?_) fun _ => Rel.forEach fun item hi =>
      Rel.bind (fun s hs => ?_) fun _ => Rel.pure _
    · have hed : Edits c Permit.nothing s (msetCheck c item s).2 := edits_msetCheck item s
      exact ⟨hs.1.edits Permit.nothing_shrinking hed, hs.2.known.holds
        ((refines_slots s).thinned (hed.mono (Permit.nothing_le _)))⟩
    · exact ⟨sound_put _ _ _ _ _ _ _ s hs.1, hs.2.put hs.1 fun _ _ => hw item hi _⟩
  exact (hwrites s ⟨hs, h⟩).2

theorem KnownAt.afterCall {m : TimedMap V} (h : KnownAt Q m) {call : Call V}
    (hQ : ∀ key ttlSeconds, call = .expire key ttlSeconds →
      ∀ w (d : ℚ), Q key w → Q key { w with freshUntil := d, staleUntil := d })
    (hw : call.WritingAt c Q) (hset : ∀ values, call ≠ .mset values) (s : Engine V) :
    KnownAt Q (m.afterCall c s call) := by
  cases call with
  | put => exact h.afterPut fun _ _ => hw _
  | mset values => exact absurd rfl (hset values)
  | delete key =>
    simp only [TimedMap.afterCall]
    split
    · exact h
    · exact h.remove _
  | deleteMany keys =>
    simp only [TimedMap.afterCall]
    split
    · exact h
    · exact h.remove _
  | expire key ttlSeconds =>
    simp only [TimedMap.afterCall]
    split
    · exact h.reschedule (hQ key ttlSeconds rfl) _
    · exact h
  | flush => exact fun _ => .inl rfl
  | restoreEntries entries =>
    simp only [TimedMap.afterCall]
    split
    · exact h
    · -- one write after the other
      clear hset hQ
      have hfold : ∀ (items : List (StorageEntry V)) (m : TimedMap V), KnownAt Q m →
          (∀ item ∈ items, item ∈ entries) → KnownAt Q (items.foldl (fun m item =>
            m.write item.key (TimedMap.restoreRecord c item (c.clock (s.ticks + 1)))) m) := by
        intro items
        induction items with
        | nil => exact fun m hm _ => hm
        | cons item items ih =>
          intro m hm hmem
          exact ih _ (hm.write (hw item (hmem item List.mem_cons_self) _))
            fun other ho => hmem other (List.mem_cons_of_mem item ho)
      exact hfold entries m h fun _ hi => hi
  | invalidateTags tags =>
    simp only [TimedMap.afterCall]
    split
    · exact h
    · exact h.removeTagged tags
  | getOrLoad key loaded ttlSeconds staleSeconds tags =>
    simp only [TimedMap.afterCall]
    split
    · split_ifs
      · exact h.afterPut fun _ _ => hw _
      · exact h
    · exact h
  | _ => exact h

/-- Every public call keeps a property that all it writes has and that `expire` keeps. -/
theorem HoldsAt.call {s : Engine V} (hs : Sound c s) (h : HoldsAt Q s) {call : Call V}
    (hQ : ∀ key ttlSeconds, call = .expire key ttlSeconds →
      ∀ w (d : ℚ), Q key w → Q key { w with freshUntil := d, staleUntil := d })
    (hw : call.WritingAt c Q) : HoldsAt Q (call.run c s) := by
  by_cases hset : ∃ values, call = .mset values
  · obtain ⟨values, rfl⟩ := hset
    exact h.mset hs hw
  · push Not at hset
    exact (h.known.afterCall hQ hw hset s).holds (call.refines hs (refines_slots s))

theorem HoldsAt.mono {Q' : Key → Written V → Prop} {s : Engine V} (h : HoldsAt Q s)
    (hQ : ∀ k w, Q k w → Q' k w) : HoldsAt Q' s :=
  fun k e hg => hQ k _ (h k e hg)

/-- Every public call keeps a property that all it writes has. -/
theorem Holds.call {s : Engine V} (hs : Sound c s) (h : Holds P s)
    (hP : ∀ w (d : ℚ), P w → P { w with freshUntil := d, staleUntil := d }) {call : Call V}
    (hw : call.Writing c P) : Holds P (call.run c s) :=
  HoldsAt.call hs h (fun _ _ _ => hP) hw.at

theorem Holds.mono {Q : Written V → Prop} {s : Engine V} (h : Holds P s) (hPQ : ∀ w, P w → Q w) :
    Holds Q s :=
  fun k e hg => hPQ _ (h k e hg)

/-- What a `get` finds has the property; a stale answer comes from an entry with a stale window. -/
theorem Holds.getEntry {s s' : Engine V} (h : Holds P s) {key : Key} {r : CacheResult V}
    (hr : Engine.getEntry c key s = (.ok r, s')) : (r.state = .miss ∧ r.value = none) ∨
      ∃ w, P w ∧ r.value = some w.value ∧
        (r.state = .fresh ∨ r.state = .stale ∧ w.freshUntil < w.staleUntil) := by
  rw [lookup_result (getEntry_ok hr), lookupAt_result]
  cases hg : s.entries.get? key with
  | none => exact .inl ⟨rfl, rfl⟩
  | some e =>
    rw [Option.map_some, resultAt]
    split_ifs with hstale hfresh
    · exact .inl ⟨rfl, rfl⟩
    · exact .inr ⟨e.written, h key e hg, rfl, .inl rfl⟩
    · refine .inr ⟨e.written, h key e hg, rfl, .inr ⟨rfl, ?_⟩⟩
      exact (not_lt.mp hfresh).trans_lt (not_le.mp hstale)

end Engine
end MegaCache
