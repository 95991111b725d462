import MegaCache.Events.Effects

/-!
# The ledger of events

`Ledger` relates a durable state to the trace of a run: every submitted event at or below
the checkpoint of its stream had its closure invalidated after a submission, or is in the
dead-letter queue.  The lemmas of this module say how each kind of update keeps it.
-/

namespace MegaCache
namespace Events

variable {V : Type} {g : Ingestor V}

/-- The trace has a submission of the event. -/
def Submitted (trace : List (Moment V)) (e : ChangeEvent) : Prop := .submitted e ∈ trace

/-- Some submission of the event was answered. -/
def Answered (trace : List (Moment V)) (e : ChangeEvent) : Prop :=
  ∃ outcome, .answered e outcome ∈ trace

def SameStream (e e' : ChangeEvent) : Prop := e.source = e'.source ∧ e.stream = e'.stream

/-- The event is at or below the checkpoint of its stream. -/
def Below (s : State) (e : ChangeEvent) : Prop :=
  ∃ p, s.checkpoints.get? e.checkpointKey = some p ∧ e.position ≤ p.position

/-- The closure of the event was invalidated after a submission of it. -/
def Invalidated (g : Ingestor V) (trace : List (Moment V)) (e : ChangeEvent) : Prop :=
  ∃ newer older, trace = newer ++ .submitted e :: older ∧ Cleared g e newer

def Queued (s : State) (e : ChangeEvent) : Prop := e ∈ s.deadLetters.map (·.event)

/-- The order in which events may be submitted: ids and places are those of one event, an
earlier event of the stream was answered before, and an event that comes after a later one
was submitted before. -/
structure InOrder (trace : List (Moment V)) (e : ChangeEvent) : Prop where
  unique : ∀ e', Submitted trace e' →
    (e'.eventId = e.eventId ∨ SameStream e' e ∧ e'.position = e.position) → e' = e
  earlier : ∀ e', Submitted trace e' → SameStream e' e → e'.position < e.position →
    Answered trace e'
  later : ∀ e', Submitted trace e' → SameStream e' e → e.position < e'.position →
    Submitted trace e

structure Ledger (g : Ingestor V) (s : State) (trace : List (Moment V)) : Prop where
  unique : ∀ e e', Submitted trace e → Submitted trace e' →
    (e.eventId = e'.eventId ∨ SameStream e e' ∧ e.position = e'.position) → e = e'
  ordered : ∀ e e', Submitted trace e → Submitted trace e' → SameStream e e' →
    e.position < e'.position → Answered trace e
  answered : ∀ e, Answered trace e → Submitted trace e ∧ Below s e
  checkpoint : ∀ key p, s.checkpoints.get? key = some p →
    ∃ e, Submitted trace e ∧ e.checkpointKey = key ∧ e.position = p.position
  seen : ∀ id ∈ s.seen, ∃ e, Submitted trace e ∧ e.eventId = id ∧ Below s e
  queue : ∀ e, Queued s e → Submitted trace e
  accounted : ∀ e, Submitted trace e → Below s e → Invalidated g trace e ∨ Queued s e

theorem sameStream_iff {e e' : ChangeEvent} :
    SameStream e e' ↔ e.checkpointKey = e'.checkpointKey := by
  constructor
  · rintro ⟨hs, ht⟩
    rw [ChangeEvent.checkpointKey, hs, ht, ChangeEvent.checkpointKey]
  · intro h
    exact lengthFramedKey_inj h

theorem SameStream.symm {e e' : ChangeEvent} (h : SameStream e e') : SameStream e' e :=
  ⟨h.1.symm, h.2.symm⟩

theorem Cleared.mono {e : ChangeEvent} {moments moments' : List (Moment V)}
    (h : Cleared g e moments) (hsub : moments ⊆ moments') : Cleared g e moments' := by
  obtain ⟨keys, tags, hc, hk, ht⟩ := h
  refine ⟨keys, tags, hc, fun k hk' => ?_, fun t ht' => ?_⟩
  · obtain ⟨engine, hm, hg⟩ := hk k hk'
    exact ⟨engine, hsub hm, hg⟩
  · obtain ⟨engine, hm, hg⟩ := ht t ht'
    exact ⟨engine, hsub hm, hg⟩

theorem Invalidated.append {e : ChangeEvent} {trace : List (Moment V)} (h : Invalidated g trace e)
    (new : List (Moment V)) : Invalidated g (new ++ trace) e := by
  obtain ⟨newer, older, rfl, hc⟩ := h
  exact ⟨new ++ newer, older, by simp, hc.mono (List.subset_append_right _ _)⟩

/-- What a storage call cleared after a submission. -/
theorem Submitted.invalidated {e : ChangeEvent} {trace new : List (Moment V)}
    (h : Submitted trace e) (hc : Cleared g e new) : Invalidated g (new ++ trace) e := by
  obtain ⟨newer, older, rfl⟩ := List.append_of_mem h
  exact ⟨new ++ newer, older, by simp, hc.mono (List.subset_append_left _ _)⟩

namespace Ledger

variable {s s' : State} {trace : List (Moment V)}

theorem empty : Ledger g State.empty ([] : List (Moment V)) where
  unique := by simp [Submitted]
  ordered := by simp [Submitted]
  answered := by simp [Answered]
  checkpoint := by simp [State.empty]
  seen := by simp [State.empty]
  queue := by simp [Queued, State.empty]
  accounted := by simp [Submitted]

/-- Storage calls say nothing about submissions and answers. -/
theorem storage (h : Ledger g s trace) {new : List (Moment V)} (hnew : StorageOnly new) :
    Ledger g s (new ++ trace) := by
  have hsub : ∀ e, Submitted (new ++ trace) e ↔ Submitted trace e := by
    intro e
    simp only [Submitted, List.mem_append, or_iff_right_iff_imp]
    intro hm
    obtain ⟨engine, he⟩ := hnew _ hm
    cases he
  have hans : ∀ e, Answered (new ++ trace) e ↔ Answered trace e := by
    intro e
    simp only [Answered, List.mem_append]
    refine exists_congr fun outcome => or_iff_right_iff_imp.mpr fun hm => ?_
    obtain ⟨engine, he⟩ := hnew _ hm
    cases he
  refine ⟨?_, ?_, ?_, ?_, ?_, ?_, ?_⟩
  · simpa only [hsub] using h.unique
  · simpa only [hsub, hans] using h.ordered
  · simpa only [hsub, hans] using h.answered
  · simpa only [hsub] using h.checkpoint
  · simpa only [hsub] using h.seen
  · simpa only [hsub] using h.queue
  · intro e he hb
    rcases h.accounted e ((hsub e).mp he) hb with hi | hq
    · exact .inl (hi.append new)
    · exact .inr hq

/-- An event that is submitted in order. -/
theorem submit (h : Ledger g s trace) {e : ChangeEvent} (ho : InOrder trace e) :
    Ledger g s (.submitted e :: trace) := by
  have hsub : ∀ e', Submitted (.submitted e :: trace) e' ↔ e' = e ∨ Submitted trace e' := by
    intro e'
    simp [Submitted]
  have hans : ∀ e', Answered (.submitted e :: trace) e' ↔ Answered trace e' := by
    intro e'
    simp [Answered]
  have hstay : ∀ e', Submitted trace e' → Submitted (.submitted e :: trace) e' :=
    fun e' he' => (hsub e').mpr (.inr he')
  refine ⟨?_, ?_, ?_, ?_, ?_, ?_, ?_⟩
  · intro x y hx hy hxy
    rcases (hsub x).mp hx with hxe | hx' <;> rcases (hsub y).mp hy with hye | hy'
    · exact hxe.trans hye.symm
    · subst hxe
      refine (ho.unique y hy' ?_).symm
      rcases hxy with hid | ⟨hs, hp⟩
      · exact .inl hid.symm
      · exact .inr ⟨hs.symm, hp.symm⟩
    · subst hye
      exact ho.unique x hx' hxy
    · exact h.unique x y hx' hy' hxy
  · intro x y hx hy hs hlt
    rw [hans]
    rcases (hsub x).mp hx with hxe | hx' <;> rcases (hsub y).mp hy with hye | hy'
    · rw [hxe, hye] at hlt
      exact absurd hlt (lt_irrefl _)
    · subst hxe
      exact h.ordered x y (ho.later y hy' hs.symm hlt) hy' hs hlt
    · subst hye
      exact ho.earlier x hx' hs hlt
    · exact h.ordered x y hx' hy' hs hlt
  · intro x hx
    obtain ⟨hx', hb⟩ := h.answered x ((hans x).mp hx)
    exact ⟨hstay x hx', hb⟩
  · intro key p hp
    obtain ⟨x, hx, hk⟩ := h.checkpoint key p hp
    exact ⟨x, hstay x hx, hk⟩
  · intro id hid
    obtain ⟨x, hx, hk⟩ := h.seen id hid
    exact ⟨x, hstay x hx, hk⟩
  · exact fun x hx => hstay x (h.queue x hx)
  · intro x hx hb
    have hx' : Submitted trace x := by
      rcases (hsub x).mp hx with rfl | hx
      · -- a checkpoint at or beyond a new event belongs to an event submitted before
        obtain ⟨p, hp, hle⟩ := hb
        obtain ⟨y, hy, hkey, hpos⟩ := h.checkpoint _ p hp
        have hs : SameStream y x := sameStream_iff.mpr hkey
        rcases hle.lt_or_eq with hlt | heq
        · exact ho.later y hy hs (hpos ▸ hlt)
        · obtain rfl := ho.unique y hy (.inr ⟨hs, hpos.trans heq.symm⟩)
          exact hy
      · exact hx
    rcases h.accounted x hx' hb with hi | hq
    · exact .inl (hi.append [.submitted e])
    · exact .inr hq

theorem answer (h : Ledger g s trace) {e : ChangeEvent} (outcome : Outcome)
    (he : Submitted trace e) (hb : Below s e) : Ledger g s (.answered e outcome :: trace) := by
  have hsub : ∀ e', Submitted (.answered e outcome :: trace) e' ↔ Submitted trace e' := by
    intro e'
    simp [Submitted]
  refine ⟨?_, ?_, ?_, ?_, ?_, ?_, ?_⟩
  · simpa only [hsub] using h.unique
  · intro x y hx hy hs hlt
    obtain ⟨o, ho⟩ := h.ordered x y ((hsub x).mp hx) ((hsub y).mp hy) hs hlt
    exact ⟨o, List.mem_cons_of_mem _ ho⟩
  · rintro x ⟨o, ho⟩
    rw [hsub]
    rcases List.mem_cons.mp ho with heq | ho
    · cases heq
      exact ⟨he, hb⟩
    · exact h.answered x ⟨o, ho⟩
  · simpa only [hsub] using h.checkpoint
  · simpa only [hsub] using h.seen
  · simpa only [hsub] using h.queue
  · intro x hx hxb
    rcases h.accounted x ((hsub x).mp hx) hxb with hi | hq
    · exact .inl (hi.append [.answered e outcome])
    · exact .inr hq

/-- An update that keeps checkpoints and history, and every letter that is not accounted for. -/
theorem keep (h : Ledger g s trace) (hc : s'.checkpoints = s.checkpoints) (hseen : s'.seen = s.seen)
    (hsub : ∀ e, Queued s' e → Queued s e)
    (hletters : ∀ e, Queued s e → Invalidated g trace e ∨ Queued s' e) : Ledger g s' trace := by
  have hbelow : ∀ e, Below s' e ↔ Below s e := by
    intro e
    rw [Below, hc, Below]
  refine ⟨h.unique, h.ordered, ?_, ?_, ?_, fun e he => h.queue e (hsub e he), ?_⟩
  · simpa only [hbelow] using h.answered
  · simpa only [hc] using h.checkpoint
  · simpa only [hbelow, hseen] using h.seen
  · intro e he hb
    rcases h.accounted e he ((hbelow e).mp hb) with hi | hq
    · exact .inl hi
    · exact hletters e hq

/-- The checkpoint of a stream moves on to an event that is accounted for. -/
theorem commit (h : Ledger g s trace) {e : ChangeEvent} {p : Checkpoint} (he : Submitted trace e)
    (hnew : ¬Below s e) (hpos : p.position = e.position)
    (hc : s'.checkpoints = s.checkpoints.set e.checkpointKey p)
    (hseen : ∀ id ∈ s'.seen, id ∈ s.seen ∨ id = e.eventId)
    (hsub : ∀ x, Queued s' x → Queued s x ∨ x = e) (hletters : ∀ x, Queued s x → Queued s' x)
    (hacc : Invalidated g trace e ∨ Queued s' e) : Ledger g s' trace := by
  have hget : ∀ x : ChangeEvent, s'.checkpoints.get? x.checkpointKey =
      if x.checkpointKey = e.checkpointKey then some p
      else s.checkpoints.get? x.checkpointKey := by
    intro x
    rw [hc, OrderedDict.get?_set]
  have hmono : ∀ x, Below s x → Below s' x := by
    rintro x ⟨q, hq, hle⟩
    by_cases hx : x.checkpointKey = e.checkpointKey
    · refine ⟨p, by rw [hget, if_pos hx], ?_⟩
      rw [hx] at hq
      have hlt : q.position < e.position := not_le.mp fun hle' => hnew ⟨q, hq, hle'⟩
      omega
    · exact ⟨q, by rw [hget, if_neg hx, hq], hle⟩
  have hself : Below s' e := ⟨p, by rw [hget, if_pos rfl], hpos.ge⟩
  refine ⟨h.unique, h.ordered, ?_, ?_, ?_, ?_, ?_⟩
  · intro x hx
    obtain ⟨hx', hb⟩ := h.answered x hx
    exact ⟨hx', hmono x hb⟩
  · intro key q hq
    rw [hc, OrderedDict.get?_set] at hq
    split_ifs at hq with hkey
    · obtain rfl := Option.some.inj hq
      exact ⟨e, he, hkey.symm, hpos.symm⟩
    · exact h.checkpoint key q hq
  · intro id hid
    rcases hseen id hid with hid | rfl
    · obtain ⟨x, hx, hxid, hb⟩ := h.seen id hid
      exact ⟨x, hx, hxid, hmono x hb⟩
    · exact ⟨e, he, rfl, hself⟩
  · intro x hx
    rcases hsub x hx with hx | rfl
    · exact h.queue x hx
    · exact he
  · rintro x hx ⟨q, hq, hle⟩
    rw [hget] at hq
    have hold : Below s x → Invalidated g trace x ∨ Queued s' x := fun hb => by
      rcases h.accounted x hx hb with hi | hq
      · exact .inl hi
      · exact .inr (hletters x hq)
    split_ifs at hq with hkey
    · obtain rfl := Option.some.inj hq
      have hs : SameStream x e := sameStream_iff.mpr hkey
      rw [hpos] at hle
      rcases hle.lt_or_eq with hlt | heq
      · -- an earlier event of the stream was answered, so it was accounted for before
        exact hold (h.answered x (h.ordered x e hx he hs hlt)).2
      · obtain rfl := h.unique x e hx he (.inr ⟨hs, heq⟩)
        exact hacc
    · exact hold ⟨q, hq, hle⟩

end Ledger

end Events
end MegaCache
