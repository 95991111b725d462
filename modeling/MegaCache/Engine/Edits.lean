import Mathlib.Logic.Relation
import MegaCache.Engine.Accounting

/-!
# Elementary edits of the cache engine

Every public operation changes the engine by a sequence of elementary edits.
`Edit c p` lists them; the permit `p` says on which keys an operation may make
which edit.  What each edit preserves is then proved once, and holds for every
operation whose edits are permitted.
-/

namespace MegaCache
namespace Engine

variable {V : Type}

/-- Which edits an operation may make. -/
structure Permit (V : Type) where
  /-- move an entry to the end and update its access statistics -/
  touch : Key → Prop
  /-- remove an entry past its stale deadline -/
  expire : Key → Prop
  /-- remove an entry regardless of its deadlines -/
  drop : Key → Prop
  /-- write an entry -/
  store : Key → Entry V → Prop
  /-- change fields of an entry other than its tags and its size -/
  update : Key → (Entry V → Entry V) → Prop
  /-- remove a lease past its deadline -/
  lapse : Key → Prop
  /-- remove a lease regardless of its deadline -/
  release : Key → Prop
  /-- issue a lease -/
  grant : Key → Lease → Prop
  /-- move the deadline of a lease -/
  renew : Key → Prop

namespace Permit

/-- No edit of any entry or lease. -/
def nothing : Permit V where
  touch _ := False
  expire _ := False
  drop _ := False
  store _ _ := False
  update _ _ := False
  lapse _ := False
  release _ := False
  grant _ _ := False
  renew _ := False

/-- What every read may do to the entries. -/
def reads : Permit V := { nothing with touch := fun _ => True, expire := fun _ => True }

/-- Every edit that only takes entries and leases away. -/
def shrinks : Permit V :=
  { nothing with
    touch := fun _ => True
    expire := fun _ => True
    drop := fun _ => True
    lapse := fun _ => True
    release := fun _ => True }

/-- Whatever `p` permits, `q` permits. -/
structure Le (p q : Permit V) : Prop where
  touch : ∀ k, p.touch k → q.touch k
  expire : ∀ k, p.expire k → q.expire k
  drop : ∀ k, p.drop k → q.drop k
  store : ∀ k e, p.store k e → q.store k e
  update : ∀ k f, p.update k f → q.update k f
  lapse : ∀ k, p.lapse k → q.lapse k
  release : ∀ k, p.release k → q.release k
  grant : ∀ k l, p.grant k l → q.grant k l
  renew : ∀ k, p.renew k → q.renew k

theorem nothing_le (p : Permit V) : nothing.Le p where
  touch _ h := h.elim
  expire _ h := h.elim
  drop _ h := h.elim
  store _ _ h := h.elim
  update _ _ h := h.elim
  lapse _ h := h.elim
  release _ h := h.elim
  grant _ _ h := h.elim
  renew _ h := h.elim

end Permit

variable (c : EngineConfig V) (p : Permit V)

/-- One elementary edit. A removal for expiry names the clock reading that showed it,
an eviction is counted and takes the front entry under `lru`. -/
inductive Edit : Engine V → Engine V → Prop
  | tick (s : Engine V) : Edit s { s with ticks := s.ticks + 1 }
  | draw (s : Engine V) : Edit s { s with draws := s.draws + 1 }
  | bump (s : Engine V) (m : Metric) (n : ℕ) : Edit s (s.bump m n)
  | touch (s : Engine V) {k : Key} {e : Entry V} (a : ℕ) (t : ℚ) (hp : p.touch k)
      (hg : s.entries.get? k = some e) :
      Edit s { s with entries := s.entries.setLast k { e with accessCount := a, lastAccess := t } }
  | expire (s : Engine V) {k : Key} {e : Entry V} {i : ℕ} (hp : p.expire k)
      (hg : s.entries.get? k = some e) (hi : i < s.ticks)
      (hd : e.staleUntil ≤ (c.clock i : Deadline)) : Edit s (removeEntry k s)
  | evict (s : Engine V) {k : Key} (hm : k ∈ s.entries.keys)
      (hv : c.evictionPolicy = .lru → s.entries.keys.head? = some k) :
      Edit s ((removeEntry k s).bump .evictions 1)
  | drop (s : Engine V) {k : Key} (hp : p.drop k) : Edit s (removeEntry k s)
  | store (s : Engine V) {k : Key} {e : Entry V} (hp : p.store k e) : Edit s (storeEntry k e s)
  | update (s : Engine V) {k : Key} {f : Entry V → Entry V} (hp : p.update k f)
      (hf : ∀ e, (f e).tags = e.tags ∧ (f e).sizeBytes = e.sizeBytes) :
      Edit s (updateEntry k f s)
  | lapse (s : Engine V) {k : Key} {l : Lease} {i : ℕ} (hp : p.lapse k)
      (hg : s.leases.get? k = some l) (hi : i < s.ticks) (hd : l.untilTime ≤ c.clock i) :
      Edit s (removeLease k s)
  | release (s : Engine V) {k : Key} (hp : p.release k) : Edit s (removeLease k s)
  | grant (s : Engine V) {k : Key} {l : Lease} (hp : p.grant k l) (hg : s.leases.get? k = none) :
      Edit s { s with
        leases := s.leases.set k l
        usedBytes := s.usedBytes + l.sizeBytes
        leaseBytes := s.leaseBytes + l.sizeBytes }
  | renew (s : Engine V) {k : Key} {l : Lease} (t : ℚ) (hp : p.renew k)
      (hg : s.leases.get? k = some l) :
      Edit s { s with leases := s.leases.set k ⟨l.token, t, l.sizeBytes⟩ }

/-- Any number of edits. -/
abbrev Edits : Engine V → Engine V → Prop := Relation.ReflTransGen (Edit c p)

variable {c p}

theorem Edit.mono {q : Permit V} (hpq : p.Le q) {s s' : Engine V} (h : Edit c p s s') :
    Edit c q s s' := by
  cases h with
  | tick => exact .tick s
  | draw => exact .draw s
  | bump m n => exact .bump s m n
  | touch a t hp hg => exact .touch s a t (hpq.touch _ hp) hg
  | expire hp hg hi hd => exact .expire s (hpq.expire _ hp) hg hi hd
  | evict hm hv => exact .evict s hm hv
  | drop hp => exact .drop s (hpq.drop _ hp)
  | store hp => exact .store s (hpq.store _ _ hp)
  | update hp hf => exact .update s (hpq.update _ _ hp) hf
  | lapse hp hg hi hd => exact .lapse s (hpq.lapse _ hp) hg hi hd
  | release hp => exact .release s (hpq.release _ hp)
  | grant hp hg => exact .grant s (hpq.grant _ _ hp) hg
  | renew t hp hg => exact .renew s t (hpq.renew _ hp) hg

/-- What one edit keeps, any number of edits keeps. -/
theorem Edits.keep {I : Engine V → Prop} (h : ∀ s s', Edit c p s s' → I s → I s')
    {s s' : Engine V} (hs : Edits c p s s') (hi : I s) : I s' := by
  induction hs with
  | refl => exact hi
  | tail _ hstep ih => exact h _ _ hstep ih

theorem Edits.one {s s' : Engine V} (h : Edit c p s s') : Edits c p s s' :=
  Relation.ReflTransGen.single h

theorem Edits.mono {q : Permit V} (hpq : p.Le q) {s s' : Engine V} (hs : Edits c p s s') :
    Edits c q s s' := by
  induction hs with
  | refl => exact .refl
  | tail _ hstep ih => exact ih.tail (hstep.mono hpq)

theorem Edits.ticks_le {s s' : Engine V} (h : Edits c p s s') : s.ticks ≤ s'.ticks := by
  refine Edits.keep (I := fun s' => s.ticks ≤ s'.ticks) ?_ h le_rfl
  intro u u' hu hle
  cases hu <;> simp_all [storeEntry, updateEntry]
  · omega
  · split <;> simpa using hle

/-! ## The edits of each operation -/

open Prog

theorem edits_modify {f : Engine V → Engine V} (h : ∀ s, Edits c p s (f s)) :
    Rel (Edits c p) (modify f : EngineM V Unit) := h

theorem edits_bump (m : Metric) (n : ℕ) :
    Rel (Edits c p) (modify (bump m n) : EngineM V Unit) :=
  edits_modify fun s => Edits.one (.bump s m n)

theorem edits_readClock : Rel (Edits c p) (readClock c) := fun s => Edits.one (.tick s)

theorem edits_validateKey (key : Key) : Rel (Edits c p) (validateKey key) :=
  Rel.ite (fun _ => Rel.throw _) fun _ => Rel.pure _

theorem edits_duration (value : Option ℤ) (d : ℕ) (name : String) (z : Bool) :
    Rel (Edits c p) (duration value d name z) :=
  Rel.ite (fun _ => Rel.throw _) fun _ => Rel.pure _

theorem edits_snapshotDuration (value : Option ℚ) (name : String) :
    Rel (Edits c p) (snapshotDuration value name) := by
  unfold snapshotDuration
  split
  · exact Rel.throw _
  · exact Rel.ite (fun _ => Rel.throw _) fun _ => Rel.pure _

theorem edits_normalizeTags (tags : List Tag) : Rel (Edits c p) (normalizeTags tags) :=
  Rel.ite (fun _ => Rel.throw _) fun _ => Rel.ite (fun _ => Rel.throw _) fun _ => Rel.pure _

theorem edits_snapshotValue (value : V) : Rel (Edits c p) (snapshotValue c value) := by
  unfold snapshotValue
  split
  · exact Rel.throw _
  · exact Rel.pure _

theorem edits_entrySize (key : Key) (value : V) (tags : List Tag) :
    Rel (Edits c p) (entrySize c key value tags) := by
  unfold entrySize
  split
  · exact Rel.throw _
  · exact Rel.pure _

theorem edits_compareDigest (a b : String) : Rel (Edits c p) (compareDigest a b) :=
  Rel.ite (fun _ => Rel.pure _) fun _ => Rel.throw _

theorem edits_countIf (count : Bool) (m : Metric) (s : Engine V) :
    Edits c p s (countIf count m s) := by
  cases count
  · exact .refl
  · exact Edits.one (.bump s m 1)

theorem edits_lookupAt {now : ℚ} {key : Key} (count : Bool) (ht : p.touch key)
    (hx : p.expire key) {s : Engine V} (hnow : ∃ i < s.ticks, now = c.clock i) :
    Edits c p s (lookupAt now key count s).2 := by
  obtain ⟨i, hi, rfl⟩ := hnow
  unfold lookupAt
  split
  · exact edits_countIf count _ s
  · rename_i entry hg
    split
    · rename_i hd
      exact ((Edits.one (.expire s hx hg hi hd)).trans (edits_countIf _ _ _)).trans
        (edits_countIf _ _ _)
    · -- the entry is kept: with `count` its statistics change, otherwise only its position
      have hr : Edits c p s
          { s with entries := s.entries.setLast key (touched count (c.clock i) entry) } := by
        cases count
        · exact Edits.one (.touch s entry.accessCount entry.lastAccess ht hg)
        · exact Edits.one (.touch s _ _ ht hg)
      dsimp only
      split
      · exact hr.trans (edits_countIf _ _ _)
      · exact hr.trans (edits_countIf _ _ _)

theorem edits_lookup {key : Key} (count : Bool) (ht : p.touch key) (hx : p.expire key) :
    Rel (Edits c p) (lookup c key count) := by
  intro s
  exact (Edits.one (.tick s)).trans
    (edits_lookupAt count ht hx ⟨s.ticks, Nat.lt_succ_self _, rfl⟩)

theorem edits_getEntry {key : Key} (ht : p.touch key) (hx : p.expire key) :
    Rel (Edits c p) (getEntry c key) :=
  Rel.bind (edits_validateKey key) fun _ => edits_lookup true ht hx

theorem edits_putWindows (ttlSeconds staleSeconds : Option ℤ) (persistent : Bool) :
    Rel (Edits c p) (putWindows c ttlSeconds staleSeconds persistent) := by
  refine Rel.ite (fun _ => ?_) fun _ => ?_
  · exact Rel.ite (fun _ => Rel.throw _) fun _ => Rel.pure _
  · exact Rel.bind (edits_duration _ _ _ _) fun _ =>
      Rel.bind (edits_duration _ _ _ _) fun _ => Rel.pure _

theorem edits_preparePut (key : Key) (value : V) (ttlSeconds staleSeconds : Option ℤ)
    (tags : List Tag) (persistent countRejection : Bool) :
    Rel (Edits c p)
      (preparePut c key value ttlSeconds staleSeconds tags persistent countRejection) := by
  have hreject : Rel (Edits c p)
      (modify (countIf countRejection .rejectedEntries) : EngineM V Unit) :=
    edits_modify (edits_countIf _ _)
  refine Rel.bind (edits_validateKey key) fun _ => Rel.bind (edits_putWindows _ _ _) fun _ =>
    Rel.bind (edits_normalizeTags tags) fun _ => Rel.bind (edits_snapshotValue value) fun _ =>
      Rel.bind (edits_entrySize _ _ _) fun _ => Rel.ite (fun _ => ?_) fun _ =>
        Rel.ite (fun _ => ?_) fun _ => Rel.pure _
  · exact Rel.bind hreject fun _ => Rel.throw _
  · exact Rel.bind hreject fun _ => Rel.throw _

theorem edits_checkLease {key : Key} (hl : p.lapse key) (token : Option String) {now : ℚ}
    {s : Engine V} (hnow : ∃ i < s.ticks, now = c.clock i) :
    Edits c p s (checkLease key token now s).2 := by
  obtain ⟨i, hi, rfl⟩ := hnow
  unfold checkLease
  cases token with
  | none => exact .refl
  | some token =>
    simp only [run_bind, run_get]
    cases hg : s.leases.get? key with
    | none => exact .refl
    | some lease =>
      by_cases hd : lease.untilTime ≤ c.clock i
      · simp only [hd, ↓reduceIte]
        exact Edits.one (.lapse s hl hg hi hd)
      · simp only [hd, ↓reduceIte]
        refine Rel.bind (edits_compareDigest _ _) (fun same => ?_) s
        exact Rel.ite (fun _ => Rel.pure _) fun _ => Rel.throw _

theorem cheapest_mem {score : Entry V → ℚ} {l : List (Key × Entry V)} {k : Key}
    (h : cheapest score l = some k) : k ∈ l.map Prod.fst := by
  cases l with
  | nil => cases h
  | cons q l =>
    have hfold : ∀ (l : List (Key × Entry V)) (b : Key × Entry V),
        l.foldl (fun best q =>
          if score q.2 < score best.2 ∨ score q.2 = score best.2 ∧ q.1 < best.1 then q
          else best) b ∈ b :: l := by
      intro l
      induction l with
      | nil => simp
      | cons r l ih =>
        intro b
        rw [List.foldl_cons]
        split_ifs
        · exact List.mem_cons_of_mem _ (ih r)
        · rcases List.mem_cons.mp (ih b) with hb | hb
          · rw [hb]
            exact List.mem_cons_self
          · exact List.mem_cons_of_mem _ (List.mem_cons_of_mem _ hb)
    simp only [cheapest, Option.some.injEq] at h
    exact h ▸ List.mem_map_of_mem (hfold l q)

/-- The victim is a present key, the front one under `lru`; choosing it at most reads the clock. -/
theorem victim_spec (s : Engine V) : ∃ o n, victim c s = (.ok o, { s with ticks := s.ticks + n }) ∧
    (∀ k, o = some k → k ∈ s.entries.keys ∧
      (c.evictionPolicy = .lru → s.entries.keys.head? = some k)) ∧
    (o = none → s.entries.size = 0) := by
  unfold victim
  cases hpol : c.evictionPolicy with
  | lru =>
    refine ⟨s.entries.keys.head?, 0, rfl, ?_, ?_⟩
    · intro k hk
      exact ⟨List.mem_of_mem_head? hk, fun _ => hk⟩
    · intro h
      simpa [OrderedDict.keys, OrderedDict.size] using h
  | cost =>
    refine ⟨cheapest (fun e => c.evictionScore e (c.clock s.ticks)) s.entries.toList, 1, rfl, ?_, ?_⟩
    · intro k hk
      exact ⟨cheapest_mem hk, by simp⟩
    · intro h
      cases hl : s.entries.toList with
      | nil => simp [OrderedDict.size, hl]
      | cons q l => simp [cheapest, hl] at h

theorem edits_victim : Rel (Edits c p) (victim c) := by
  unfold victim
  split
  · exact Rel.bind (fun _ => .refl) fun _ => Rel.pure _
  · exact Rel.bind edits_readClock fun _ => Rel.bind (fun _ => .refl) fun _ => Rel.pure _

theorem edits_evictLoop (n : ℕ) : Rel (Edits c p) (evictLoop c n) := by
  induction n with
  | zero =>
    exact Rel.bind (fun _ => .refl) fun s => Rel.ite (fun _ => Rel.throw _) fun _ => Rel.pure _
  | succ n ih =>
    intro s
    simp only [evictLoop, run_bind, run_get, run_ite]
    split_ifs with ho
    · obtain ⟨o, m, hv, hkey, _⟩ := victim_spec (c := c) s
      have hvict : Edits c p s { s with ticks := s.ticks + m } := edits_victim.run hv
      simp only [hv]
      cases o with
      | none => exact hvict
      | some k =>
        obtain ⟨hm, hhead⟩ := hkey k rfl
        simp only [run_bind, run_modify]
        exact (hvict.tail (.evict _ hm hhead)).trans
          ((Edits.one (.bump _ _ _)).trans (ih _))
    · exact .refl

theorem edits_evictIfNeeded : Rel (Edits c p) (evictIfNeeded c) :=
  Rel.bind (fun _ => .refl) fun s => edits_evictLoop s.entries.size

end Engine
end MegaCache
