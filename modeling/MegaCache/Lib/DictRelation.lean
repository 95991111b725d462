import MegaCache.Lib.OrderedDict

/-!
# Related dictionaries

Two dictionaries with the same keys in the same order, and related values.
-/

namespace MegaCache
namespace OrderedDict

variable {K V W : Type} {R : V → W → Prop} {d : OrderedDict K V} {e : OrderedDict K W}

def Related (R : V → W → Prop) (d : OrderedDict K V) (e : OrderedDict K W) : Prop :=
  List.Forall₂ (fun p q => p.1 = q.1 ∧ R p.2 q.2) d.toList e.toList

theorem Related.refl {R : V → V → Prop} (h : ∀ v, R v v) (d : OrderedDict K V) : Related R d d :=
  List.forall₂_same.mpr fun p _ => ⟨rfl, h p.2⟩

theorem map_fst_eq {l : List (K × V)} {m : List (K × W)}
    (h : List.Forall₂ (fun p q => p.1 = q.1 ∧ R p.2 q.2) l m) : l.map Prod.fst = m.map Prod.fst := by
  induction h with
  | nil => rfl
  | cons hpq _ ih => rw [List.map_cons, List.map_cons, hpq.1, ih]

theorem Related.keys (h : Related R d e) : d.keys = e.keys := map_fst_eq h

variable [DecidableEq K]

/-- The values of a key. -/
theorem Related.get? (h : Related R d e) (k : K) :
    (d.get? k = none ∧ e.get? k = none) ∨ ∃ v w, d.get? k = some v ∧ e.get? k = some w ∧ R v w := by
  unfold OrderedDict.get?
  unfold Related at h
  generalize d.toList = l, e.toList = m at h
  induction h with
  | nil => exact .inl ⟨rfl, rfl⟩
  | @cons p q l m hpq _ ih =>
    rw [List.find?_cons, List.find?_cons, ← hpq.1]
    by_cases hk : p.1 = k
    · simp only [hk, decide_true]
      exact .inr ⟨p.2, q.2, rfl, rfl, hpq.2⟩
    · simp only [hk, decide_false]
      exact ih

theorem Related.erase (h : Related R d e) (k : K) : Related R (d.erase k) (e.erase k) := by
  have hfilter : ∀ {l : List (K × V)} {m : List (K × W)},
      List.Forall₂ (fun p q => p.1 = q.1 ∧ R p.2 q.2) l m →
      List.Forall₂ (fun p q => p.1 = q.1 ∧ R p.2 q.2) (l.filter fun p => p.1 ≠ k)
        (m.filter fun q => q.1 ≠ k) := by
    intro l m hlm
    induction hlm with
    | nil => exact .nil
    | @cons p q l m hpq _ ih =>
      by_cases hk : p.1 = k
      · rw [List.filter_cons_of_neg (by simp [hk]), List.filter_cons_of_neg (by simp [← hpq.1, hk])]
        exact ih
      · rw [List.filter_cons_of_pos (by simp [hk]), List.filter_cons_of_pos (by simp [← hpq.1, hk])]
        exact .cons hpq ih
  exact hfilter h

/-- Related values are put under one key. -/
theorem Related.set (h : Related R d e) (k : K) {v : V} {w : W} (hvw : R v w) :
    Related R (d.set k v) (e.set k w) := by
  have hmap : ∀ {l : List (K × V)} {m : List (K × W)},
      List.Forall₂ (fun p q => p.1 = q.1 ∧ R p.2 q.2) l m →
      List.Forall₂ (fun p q => p.1 = q.1 ∧ R p.2 q.2)
        (l.map fun p => if p.1 = k then (k, v) else p) (m.map fun q => if q.1 = k then (k, w) else q) := by
    intro l m hlm
    induction hlm with
    | nil => exact .nil
    | @cons p q l m hpq _ ih =>
      refine .cons ?_ ih
      dsimp only
      rw [← hpq.1]
      split_ifs
      · exact ⟨rfl, hvw⟩
      · exact hpq
  unfold OrderedDict.set Related
  by_cases hk : k ∈ d.keys
  · have hk' : k ∈ e.keys := h.keys ▸ hk
    rw [dif_pos hk, dif_pos hk']
    exact hmap h
  · have hk' : k ∉ e.keys := h.keys ▸ hk
    rw [dif_neg hk, dif_neg hk']
    exact List.rel_append h (.cons ⟨rfl, hvw⟩ .nil)

end OrderedDict
end MegaCache
