import MegaCache.Lib.OrderedDict
import MegaCache.Lib.Prog

/-!
# Two runs of a program

`Prog.Agree R Q m m'` compares two programs from states related by `R`: both return, with results
related by `Q`, or both raise the same exception, and the states stay related.  The rules follow
the constructs of a program.  `OrderedDict.Alike` relates dictionaries with the same keys in the
same order.
-/

namespace MegaCache
namespace Prog

variable {σ τ ε α α' β β' : Type}

/-- Both computations return related results or both raise the same exception. -/
inductive SameOutcome (Q : α → α' → Prop) : Except ε α → Except ε α' → Prop
  | ok {a : α} {a' : α'} (h : Q a a') : SameOutcome Q (.ok a) (.ok a')
  | error (e : ε) : SameOutcome Q (.error e) (.error e)

def Agree (R : σ → τ → Prop) (Q : α → α' → Prop) (m : Prog σ ε α) (m' : Prog τ ε α') : Prop :=
  ∀ s t, R s t → SameOutcome Q (m s).1 (m' t).1 ∧ R (m s).2 (m' t).2

section Agree

variable {R : σ → τ → Prop} {Q : α → α' → Prop} {m n : Prog σ ε α} {m' n' : Prog τ ε α'}

theorem SameOutcome.mono {Q' : α → α' → Prop} {x : Except ε α} {y : Except ε α'}
    (h : SameOutcome Q x y) (hQ : ∀ a a', Q a a' → Q' a a') : SameOutcome Q' x y := by
  cases h with
  | ok h => exact .ok (hQ _ _ h)
  | error e => exact .error e

theorem SameOutcome.eq {x y : Except ε α} (h : SameOutcome Eq x y) : x = y := by
  cases h with
  | ok h => rw [h]
  | error e => rfl

theorem SameOutcome.refl {Q : α → α → Prop} (hQ : ∀ a, Q a a) (x : Except ε α) :
    SameOutcome Q x x := by
  cases x with
  | ok a => exact .ok (hQ a)
  | error e => exact .error e

theorem Agree.mono {Q' : α → α' → Prop} (h : Agree R Q m m') (hQ : ∀ a a', Q a a' → Q' a a') :
    Agree R Q' m m' := by
  intro s t hst
  obtain ⟨hout, hstate⟩ := h s t hst
  exact ⟨hout.mono hQ, hstate⟩

theorem Agree.pure {a : α} {a' : α'} (h : Q a a') :
    Agree R Q (pure a : Prog σ ε α) (pure a' : Prog τ ε α') :=
  fun _ _ hst => ⟨.ok h, hst⟩

theorem Agree.throw (e : ε) :
    Agree R Q (throw e : Prog σ ε α) (throw e : Prog τ ε α') :=
  fun _ _ hst => ⟨.error e, hst⟩

theorem Agree.get : Agree R R (get : Prog σ ε σ) (get : Prog τ ε τ) :=
  fun _ _ hst => ⟨.ok hst, hst⟩

theorem Agree.modify {f : σ → σ} {f' : τ → τ} (h : ∀ s t, R s t → R (f s) (f' t)) :
    Agree R Eq (modify f : Prog σ ε Unit) (modify f' : Prog τ ε Unit) :=
  fun s t hst => ⟨.ok rfl, h s t hst⟩

theorem Agree.lift {f : σ → α × σ} {f' : τ → α' × τ}
    (h : ∀ s t, R s t → Q (f s).1 (f' t).1 ∧ R (f s).2 (f' t).2) :
    Agree R Q (lift f : Prog σ ε α) (lift f' : Prog τ ε α') := by
  intro s t hst
  obtain ⟨hout, hstate⟩ := h s t hst
  exact ⟨.ok hout, hstate⟩

theorem Agree.fromExcept {x : Except ε α} {y : Except ε α'} (h : SameOutcome Q x y) :
    Agree R Q (fromExcept x : Prog σ ε α) (fromExcept y : Prog τ ε α') :=
  fun _ _ hst => ⟨h, hst⟩

theorem Agree.bind {P : β → β' → Prop} {f : α → Prog σ ε β} {f' : α' → Prog τ ε β'}
    (hm : Agree R Q m m') (hf : ∀ a a', Q a a' → Agree R P (f a) (f' a')) :
    Agree R P (m >>= f) (m' >>= f') := by
  intro s t hst
  obtain ⟨hout, hstate⟩ := hm s t hst
  rw [run_bind, run_bind]
  rcases hs : m s with ⟨x, s'⟩
  rcases ht : m' t with ⟨y, t'⟩
  rw [hs, ht] at hout hstate
  cases hout with
  | ok h => exact hf _ _ h s' t' hstate
  | error e => exact ⟨.error e, hstate⟩

/-- After a part whose results are equal. -/
theorem Agree.bind_eq {P : β → β' → Prop} {m : Prog σ ε α} {m' : Prog τ ε α} {f : α → Prog σ ε β}
    {f' : α → Prog τ ε β'} (hm : Agree R Eq m m') (hf : ∀ a, Agree R P (f a) (f' a)) :
    Agree R P (m >>= f) (m' >>= f') := by
  refine hm.bind fun a a' h => ?_
  subst h
  exact hf a

theorem Agree.ite {c c' : Prop} [Decidable c] [Decidable c'] (hc : c ↔ c')
    (hm : c → Agree R Q m m') (hn : ¬c → Agree R Q n n') :
    Agree R Q (if c then m else n) (if c' then m' else n') := by
  by_cases h : c
  · rw [if_pos h, if_pos (hc.mp h)]
    exact hm h
  · rw [if_neg h, if_neg fun h' => h (hc.mpr h')]
    exact hn h

theorem Agree.forEach {P : β → β' → Prop} {body : β → Prog σ ε Unit} {body' : β' → Prog τ ε Unit}
    {xs : List β} {ys : List β'} (hxs : List.Forall₂ P xs ys)
    (h : ∀ x y, P x y → Agree R Eq (body x) (body' y)) :
    Agree R Eq (Prog.forEach body xs) (Prog.forEach body' ys) := by
  induction hxs with
  | nil => exact Agree.pure rfl
  | cons hxy _ ih => exact (h _ _ hxy).bind_eq fun _ => ih

theorem Agree.collect {P : β → β' → Prop} {body : β → Prog σ ε α} {body' : β' → Prog τ ε α'}
    {xs : List β} {ys : List β'} (hxs : List.Forall₂ P xs ys)
    (h : ∀ x y, P x y → Agree R Q (body x) (body' y)) :
    Agree R (List.Forall₂ Q) (Prog.collect body xs) (Prog.collect body' ys) := by
  induction hxs with
  | nil => exact Agree.pure .nil
  | cons hxy _ ih =>
    exact (h _ _ hxy).bind fun _ _ hq => ih.bind fun _ _ hqs => Agree.pure (.cons hq hqs)

end Agree
end Prog

/-! ## Dictionaries -/

namespace OrderedDict

variable {K V : Type} {E : K → V → V → Prop} {d e : OrderedDict K V}

/-- The same keys in the same order, with related values. -/
def Alike (E : K → V → V → Prop) (d e : OrderedDict K V) : Prop :=
  List.Forall₂ (fun p q => p.1 = q.1 ∧ E p.1 p.2 q.2) d.toList e.toList

theorem Alike.refl (hE : ∀ k v, E k v v) (d : OrderedDict K V) : Alike E d d :=
  List.forall₂_same.mpr fun p _ => ⟨rfl, hE p.1 p.2⟩

theorem Alike.keys_eq (h : Alike E d e) : d.keys = e.keys := by
  unfold keys
  rw [← List.forall₂_eq_eq_eq, List.forall₂_map_left_iff, List.forall₂_map_right_iff]
  exact h.imp fun _ _ hpq => hpq.1

theorem Alike.size_eq (h : Alike E d e) : d.size = e.size := h.length_eq

theorem alike_empty : Alike E (empty : OrderedDict K V) empty := .nil

variable [DecidableEq K]

theorem Alike.get? (h : Alike E d e) (k : K) : Option.Rel (E k) (d.get? k) (e.get? k) := by
  obtain ⟨l, hl⟩ := d
  obtain ⟨m, hm⟩ := e
  replace h : List.Forall₂ (fun p q => p.1 = q.1 ∧ E p.1 p.2 q.2) l m := h
  simp only [OrderedDict.get?]
  clear hl hm
  induction h with
  | nil => exact .none
  | @cons p q _ _ hpq _ ih =>
    obtain ⟨hkey, hval⟩ := hpq
    by_cases hp : p.1 = k
    · have hq : q.1 = k := hkey ▸ hp
      simp only [List.find?_cons, hp, hq, decide_true, Option.map_some]
      exact .some (hp ▸ hval)
    · have hq : q.1 ≠ k := hkey ▸ hp
      simp only [List.find?_cons, hp, hq, decide_false]
      exact ih

theorem Alike.get?_none (h : Alike E d e) {k : K} : d.get? k = none ↔ e.get? k = none := by
  rw [get?_eq_none, get?_eq_none, h.keys_eq]

theorem Alike.erase (h : Alike E d e) (k : K) : Alike E (d.erase k) (e.erase k) := by
  refine List.rel_filter ?_ h
  intro p q hpq
  simp [hpq.1]

theorem Alike.setLast (h : Alike E d e) {k : K} {v w : V} (hv : E k v w) :
    Alike E (d.setLast k v) (e.setLast k w) :=
  List.rel_append (h.erase k) (.cons ⟨rfl, hv⟩ .nil)

theorem Alike.set (h : Alike E d e) {k : K} {v w : V} (hv : E k v w) :
    Alike E (d.set k v) (e.set k w) := by
  by_cases hk : k ∈ d.keys
  · have hk' : k ∈ e.keys := h.keys_eq ▸ hk
    simp only [Alike, OrderedDict.set, hk, hk', ↓reduceDIte]
    refine List.rel_map ?_ h
    intro p q hpq
    dsimp only
    by_cases hp : p.1 = k
    · have hq : q.1 = k := hpq.1 ▸ hp
      rw [if_pos hp, if_pos hq]
      exact ⟨rfl, hv⟩
    · have hq : q.1 ≠ k := hpq.1 ▸ hp
      rw [if_neg hp, if_neg hq]
      exact hpq
  · have hk' : k ∉ e.keys := h.keys_eq ▸ hk
    rw [set_eq_setLast (get?_eq_none.mpr hk), set_eq_setLast (get?_eq_none.mpr hk')]
    exact h.setLast hv

end OrderedDict
end MegaCache
