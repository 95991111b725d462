import Mathlib.Tactic

/-!
# Programs with state and exceptions

`Prog σ ε α` is a program over a mutable state `σ` that either returns an `α` or
raises an `ε`.  A raise does not undo anything: the state reached so far stays,
and a handler runs on it.  `Triple` states what a program guarantees on both
exits, `Rel` states how the final state relates to the initial one whichever
exit is taken.
-/

namespace MegaCache

/-- A program over the state `σ` that returns an `α` or raises an `ε`. -/
def Prog (σ ε α : Type) := σ → Except ε α × σ

namespace Prog

variable {σ ε α β : Type}

instance : Monad (Prog σ ε) where
  pure a := fun s => (.ok a, s)
  bind m f := fun s =>
    match m s with
    | (.ok a, s') => f a s'
    | (.error e, s') => (.error e, s')

instance : MonadExceptOf ε (Prog σ ε) where
  throw e := fun s => (.error e, s)
  tryCatch m h := fun s =>
    match m s with
    | (.ok a, s') => (.ok a, s')
    | (.error e, s') => h e s'

instance : MonadStateOf σ (Prog σ ε) where
  get := fun s => (.ok s, s)
  set s' := fun _ => (.ok (), s')
  modifyGet f := fun s => (.ok (f s).1, (f s).2)

/-- A total state transformer with a result, as a program that never raises. -/
def lift (f : σ → α × σ) : Prog σ ε α := fun s => (.ok (f s).1, (f s).2)

/-- `for x in xs: body x`. -/
def forEach (body : α → Prog σ ε Unit) : List α → Prog σ ε Unit
  | [] => pure ()
  | x :: xs => do
    body x
    forEach body xs

/-- `tuple(body x for x in xs)`. -/
def collect (body : α → Prog σ ε β) : List α → Prog σ ε (List β)
  | [] => pure []
  | x :: xs => do
    let y ← body x
    let ys ← collect body xs
    pure (y :: ys)

/-- `tuple(x for x in xs if keep x)`. -/
def select (keep : α → Prog σ ε Bool) : List α → Prog σ ε (List α)
  | [] => pure []
  | x :: xs => do
    let b ← keep x
    let ys ← select keep xs
    pure (if b then x :: ys else ys)

/-- `all(test x for x in xs)`, which stops at the first failure. -/
def every (test : α → Prog σ ε Bool) : List α → Prog σ ε Bool
  | [] => pure true
  | x :: xs => do
    let b ← test x
    if b then every test xs else pure false

/-- A loop over `xs` that carries `acc` along. -/
def fold (body : β → α → Prog σ ε β) : β → List α → Prog σ ε β
  | acc, [] => pure acc
  | acc, x :: xs => do
    let acc ← body acc x
    fold body acc xs

/-- The program without its result. -/
def discard (m : Prog σ ε α) : Prog σ ε Unit := do
  let _ ← m
  pure ()

/-- A computation that raises or returns without touching the state. -/
def fromExcept (x : Except ε α) : Prog σ ε α := fun s => (x, s)

@[simp] theorem run_pure (a : α) (s : σ) : (pure a : Prog σ ε α) s = (.ok a, s) := rfl

@[simp] theorem run_throw (e : ε) (s : σ) : (throw e : Prog σ ε α) s = (.error e, s) := rfl

@[simp] theorem run_get (s : σ) : (get : Prog σ ε σ) s = (.ok s, s) := rfl

@[simp] theorem run_set (s s' : σ) : (set s' : Prog σ ε Unit) s = (.ok (), s') := rfl

@[simp] theorem run_modify (f : σ → σ) (s : σ) :
    (modify f : Prog σ ε Unit) s = (.ok (), f s) := rfl

@[simp] theorem run_lift (f : σ → α × σ) (s : σ) :
    (lift f : Prog σ ε α) s = (.ok (f s).1, (f s).2) := rfl

theorem run_bind (m : Prog σ ε α) (f : α → Prog σ ε β) (s : σ) :
    (m >>= f) s = match m s with
      | (.ok a, s') => f a s'
      | (.error e, s') => (.error e, s') := rfl

theorem run_bind_ok {m : Prog σ ε α} {s s' : σ} {a : α} (h : m s = (.ok a, s'))
    (f : α → Prog σ ε β) : (m >>= f) s = f a s' := by
  rw [run_bind, h]

theorem run_bind_error {m : Prog σ ε α} {s s' : σ} {e : ε} (h : m s = (.error e, s'))
    (f : α → Prog σ ε β) : (m >>= f) s = (.error e, s') := by
  rw [run_bind, h]

theorem bind_eq_ok {m : Prog σ ε α} {f : α → Prog σ ε β} {s s'' : σ} {b : β} :
    (m >>= f) s = (.ok b, s'') ↔ ∃ a s', m s = (.ok a, s') ∧ f a s' = (.ok b, s'') := by
  rw [run_bind]
  rcases m s with ⟨e | a, s'⟩ <;> simp

theorem bind_eq_error {m : Prog σ ε α} {f : α → Prog σ ε β} {s s'' : σ} {e : ε} :
    (m >>= f) s = (.error e, s'') ↔ m s = (.error e, s'') ∨
      ∃ a s', m s = (.ok a, s') ∧ f a s' = (.error e, s'') := by
  rw [run_bind]
  rcases m s with ⟨e | a, s'⟩ <;> simp

theorem fromExcept_eq_ok {x : Except ε α} {s s' : σ} {a : α} :
    (fromExcept x : Prog σ ε α) s = (.ok a, s') ↔ x = .ok a ∧ s = s' := by
  simp [fromExcept]

theorem fromExcept_eq_error {x : Except ε α} {s s' : σ} {e : ε} :
    (fromExcept x : Prog σ ε α) s = (.error e, s') ↔ x = .error e ∧ s = s' := by
  simp [fromExcept]

/-- A result computed at the end does not change the state. -/
theorem run_bind_pure (m : Prog σ ε α) (f : α → β) (s : σ) :
    ((m >>= fun a => pure (f a)) s).2 = (m s).2 := by
  rw [run_bind]
  rcases m s with ⟨e | a, s'⟩ <;> rfl

theorem run_tryCatch (m : Prog σ ε α) (h : ε → Prog σ ε α) (s : σ) :
    (tryCatch m h) s = match m s with
      | (.ok a, s') => (.ok a, s')
      | (.error e, s') => h e s' := rfl

theorem run_ite (c : Prop) [Decidable c] (m n : Prog σ ε α) (s : σ) :
    (if c then m else n) s = if c then m s else n s := by
  split_ifs <;> rfl

/-! ## Pre- and postconditions -/

/-- From every state in `P`, the program either returns with `Q` or raises with `E`. -/
def Triple (P : σ → Prop) (m : Prog σ ε α) (Q : α → σ → Prop) (E : ε → σ → Prop) : Prop :=
  ∀ s, P s → match m s with
    | (.ok a, s') => Q a s'
    | (.error e, s') => E e s'

section Triple

variable {P P' : σ → Prop} {Q Q' : α → σ → Prop} {E E' : ε → σ → Prop} {m : Prog σ ε α}

theorem Triple.ok (h : Triple P m Q E) {s s' : σ} {a : α} (hs : P s) (hm : m s = (.ok a, s')) :
    Q a s' := by
  have := h s hs
  rwa [hm] at this

theorem Triple.error (h : Triple P m Q E) {s s' : σ} {e : ε} (hs : P s)
    (hm : m s = (.error e, s')) : E e s' := by
  have := h s hs
  rwa [hm] at this

theorem Triple.of_cases (hok : ∀ s s' a, P s → m s = (.ok a, s') → Q a s')
    (herr : ∀ s s' e, P s → m s = (.error e, s') → E e s') : Triple P m Q E := by
  intro s hs
  rcases hm : m s with ⟨a | a, s'⟩
  · exact herr s s' a hs hm
  · exact hok s s' a hs hm

theorem Triple.conseq (h : Triple P m Q E) (hP : ∀ s, P' s → P s)
    (hQ : ∀ a s, Q a s → Q' a s) (hE : ∀ e s, E e s → E' e s) : Triple P' m Q' E' :=
  Triple.of_cases (fun _ _ _ hs hm => hQ _ _ (h.ok (hP _ hs) hm))
    (fun _ _ _ hs hm => hE _ _ (h.error (hP _ hs) hm))

theorem Triple.pure (a : α) (h : ∀ s, P s → Q a s) : Triple P (pure a : Prog σ ε α) Q E :=
  fun s hs => h s hs

theorem Triple.throw (e : ε) (h : ∀ s, P s → E e s) : Triple P (throw e : Prog σ ε α) Q E :=
  fun s hs => h s hs

theorem Triple.bind {R : β → σ → Prop} {f : α → Prog σ ε β} (hm : Triple P m Q E)
    (hf : ∀ a, Triple (Q a) (f a) R E) : Triple P (m >>= f) R E := by
  intro s hs
  rw [run_bind]
  rcases h : m s with ⟨e | a, s'⟩
  · exact hm.error hs h
  · exact hf a s' (hm.ok hs h)

theorem Triple.tryCatch {h : ε → Prog σ ε α} (hm : Triple P m Q E)
    (hh : ∀ e, Triple (E e) (h e) Q E') : Triple P (tryCatch m h) Q E' := by
  intro s hs
  rw [run_tryCatch]
  rcases hr : m s with ⟨e | a, s'⟩
  · exact hh e s' (hm.error hs hr)
  · exact hm.ok hs hr

/-- A loop keeps what its body keeps. -/
theorem Triple.forEach {I : σ → Prop} {body : α → Prog σ ε Unit} {xs : List α}
    (h : ∀ x ∈ xs, Triple I (body x) (fun _ => I) E) :
    Triple I (forEach body xs) (fun _ => I) E := by
  induction xs with
  | nil => exact Triple.pure () fun _ hs => hs
  | cons x xs ih =>
    exact Triple.bind (h x List.mem_cons_self) fun _ =>
      ih fun y hy => h y (List.mem_cons_of_mem x hy)

end Triple

/-! ## How the final state relates to the initial one -/

/-- Whichever exit is taken, the final state is `R`-related to the initial one. -/
def Rel (R : σ → σ → Prop) (m : Prog σ ε α) : Prop := ∀ s, R s (m s).2

section Rel

variable {R : σ → σ → Prop} {m : Prog σ ε α}

theorem Rel.mono {R' : σ → σ → Prop} (h : Rel R m) (hR : ∀ s s', R s s' → R' s s') :
    Rel R' m :=
  fun s => hR _ _ (h s)

theorem Rel.run (h : Rel R m) {s s' : σ} {r : Except ε α} (hm : m s = (r, s')) : R s s' := by
  have := h s
  rwa [hm] at this

theorem Rel.pure [Std.Refl R] (a : α) : Rel R (pure a : Prog σ ε α) := fun s => refl_of R s

theorem Rel.throw [Std.Refl R] (e : ε) : Rel R (throw e : Prog σ ε α) := fun s => refl_of R s

theorem Rel.get [Std.Refl R] : Rel R (get : Prog σ ε σ) := fun s => refl_of R s

theorem Rel.fromExcept [Std.Refl R] (x : Except ε α) : Rel R (fromExcept x : Prog σ ε α) :=
  fun s => refl_of R s

theorem Rel.modify {f : σ → σ} (h : ∀ s, R s (f s)) : Rel R (modify f : Prog σ ε Unit) := h

theorem Rel.bind [IsTrans σ R] {f : α → Prog σ ε β} (hm : Rel R m) (hf : ∀ a, Rel R (f a)) :
    Rel R (m >>= f) := by
  intro s
  rw [run_bind]
  rcases h : m s with ⟨e | a, s'⟩
  · exact hm.run h
  · exact trans_of R (hm.run h) (hf a s')

/-- The second program only has to be checked from where the first one got to. -/
theorem Rel.bind_ok [IsTrans σ R] {f : α → Prog σ ε β} (hm : Rel R m)
    (hf : ∀ s s' a, m s = (.ok a, s') → R s' (f a s').2) : Rel R (m >>= f) := by
  intro s
  rw [run_bind]
  rcases h : m s with ⟨e | a, s'⟩
  · exact hm.run h
  · exact trans_of R (hm.run h) (hf s s' a h)

theorem Rel.tryCatch [IsTrans σ R] {h : ε → Prog σ ε α} (hm : Rel R m) (hh : ∀ e, Rel R (h e)) :
    Rel R (tryCatch m h) := by
  intro s
  rw [run_tryCatch]
  rcases hr : m s with ⟨e | a, s'⟩
  · exact trans_of R (hm.run hr) (hh e s')
  · exact hm.run hr

theorem Rel.ite {c : Prop} [Decidable c] {n : Prog σ ε α} (hm : c → Rel R m)
    (hn : ¬c → Rel R n) : Rel R (if c then m else n) := by
  split_ifs with h
  · exact hm h
  · exact hn h

variable [Std.Refl R] [IsTrans σ R]

theorem Rel.discard (h : Rel R m) : Rel R m.discard := Rel.bind h fun _ => Rel.pure _

theorem Rel.forEach {body : α → Prog σ ε Unit} {xs : List α} (h : ∀ x ∈ xs, Rel R (body x)) :
    Rel R (Prog.forEach body xs) := by
  induction xs with
  | nil => exact Rel.pure ()
  | cons x xs ih =>
    exact Rel.bind (h x List.mem_cons_self) fun _ =>
      ih fun y hy => h y (List.mem_cons_of_mem x hy)

theorem Rel.collect {body : α → Prog σ ε β} {xs : List α} (h : ∀ x ∈ xs, Rel R (body x)) :
    Rel R (Prog.collect body xs) := by
  induction xs with
  | nil => exact Rel.pure []
  | cons x xs ih =>
    exact Rel.bind (h x List.mem_cons_self) fun _ =>
      Rel.bind (ih fun y hy => h y (List.mem_cons_of_mem x hy)) fun _ => Rel.pure _

theorem Rel.select {keep : α → Prog σ ε Bool} {xs : List α} (h : ∀ x ∈ xs, Rel R (keep x)) :
    Rel R (Prog.select keep xs) := by
  induction xs with
  | nil => exact Rel.pure []
  | cons x xs ih =>
    exact Rel.bind (h x List.mem_cons_self) fun _ =>
      Rel.bind (ih fun y hy => h y (List.mem_cons_of_mem x hy)) fun _ => Rel.pure _

theorem Rel.every {test : α → Prog σ ε Bool} {xs : List α} (h : ∀ x ∈ xs, Rel R (test x)) :
    Rel R (Prog.every test xs) := by
  induction xs with
  | nil => exact Rel.pure true
  | cons x xs ih =>
    exact Rel.bind (h x List.mem_cons_self) fun _ =>
      Rel.ite (fun _ => ih fun y hy => h y (List.mem_cons_of_mem x hy)) fun _ => Rel.pure _

theorem Rel.fold {body : β → α → Prog σ ε β} {xs : List α} (h : ∀ acc, ∀ x ∈ xs, Rel R (body acc x))
    (acc : β) : Rel R (Prog.fold body acc xs) := by
  induction xs generalizing acc with
  | nil => exact Rel.pure acc
  | cons x xs ih =>
    exact Rel.bind (h acc x List.mem_cons_self) fun acc' =>
      ih (fun b y hy => h b y (List.mem_cons_of_mem x hy)) acc'

/-! ### One round of a loop that returned -/

theorem Rel.forEach_round {body : α → Prog σ ε Unit} {xs : List α} (h : ∀ x ∈ xs, Rel R (body x))
    {s s' : σ} (hrun : Prog.forEach body xs s = (.ok (), s')) :
    ∀ x ∈ xs, ∃ s₁ s₂, R s s₁ ∧ body x s₁ = (.ok (), s₂) ∧ R s₂ s' := by
  induction xs generalizing s with
  | nil => simp
  | cons y xs ih =>
    rw [Prog.forEach, bind_eq_ok] at hrun
    obtain ⟨_, s₁, hy, hrest⟩ := hrun
    have hxs := fun x hx => h x (List.mem_cons_of_mem y hx)
    intro x hx
    rcases List.mem_cons.mp hx with rfl | hx
    · exact ⟨s, s₁, refl_of R s, hy, (Rel.forEach hxs).run hrest⟩
    · obtain ⟨t, t', h₁, h₂, h₃⟩ := ih hxs hrest x hx
      exact ⟨t, t', trans_of R ((h y List.mem_cons_self).run hy) h₁, h₂, h₃⟩

theorem Rel.collect_round {body : α → Prog σ ε β} {xs : List α} (h : ∀ x ∈ xs, Rel R (body x))
    {s s' : σ} {ys : List β} (hrun : Prog.collect body xs s = (.ok ys, s')) :
    ∀ y ∈ ys, ∃ x ∈ xs, ∃ s₁ s₂, R s s₁ ∧ body x s₁ = (.ok y, s₂) ∧ R s₂ s' := by
  induction xs generalizing s ys with
  | nil =>
    obtain rfl : ys = [] := by simpa [Prog.collect, eq_comm] using congrArg Prod.fst hrun
    simp
  | cons x xs ih =>
    rw [Prog.collect, bind_eq_ok] at hrun
    obtain ⟨z, s₁, hz, hrun⟩ := hrun
    rw [bind_eq_ok] at hrun
    obtain ⟨zs, s₂, hzs, hrun⟩ := hrun
    obtain ⟨rfl, rfl⟩ : z :: zs = ys ∧ s₂ = s' := by simpa using hrun
    have hxs := fun x' hx => h x' (List.mem_cons_of_mem x hx)
    intro y hy
    rcases List.mem_cons.mp hy with rfl | hy
    · exact ⟨x, List.mem_cons_self, s, s₁, refl_of R s, hz, (Rel.collect hxs).run hzs⟩
    · obtain ⟨x', hx', t, t', h₁, h₂, h₃⟩ := ih hxs hzs y hy
      exact ⟨x', List.mem_cons_of_mem x hx', t, t',
        trans_of R ((h x List.mem_cons_self).run hz) h₁, h₂, h₃⟩

theorem Rel.select_round {keep : α → Prog σ ε Bool} {xs ys : List α} (h : ∀ x ∈ xs, Rel R (keep x))
    {s s' : σ} (hrun : Prog.select keep xs s = (.ok ys, s')) :
    ys.Sublist xs ∧ ∀ y ∈ ys, ∃ s₁ s₂, R s s₁ ∧ keep y s₁ = (.ok true, s₂) ∧ R s₂ s' := by
  induction xs generalizing s ys with
  | nil =>
    obtain rfl : ys = [] := by simpa [Prog.select, eq_comm] using congrArg Prod.fst hrun
    simp
  | cons x xs ih =>
    rw [Prog.select, bind_eq_ok] at hrun
    obtain ⟨b, s₁, hb, hrun⟩ := hrun
    rw [bind_eq_ok] at hrun
    obtain ⟨zs, s₂, hzs, hrun⟩ := hrun
    obtain ⟨rfl, rfl⟩ : (if b then x :: zs else zs) = ys ∧ s₂ = s' := by simpa using hrun
    have hxs := fun x' hx => h x' (List.mem_cons_of_mem x hx)
    obtain ⟨hsub, hrest⟩ := ih hxs hzs
    have hmem : ∀ y ∈ zs, ∃ t t', R s t ∧ keep y t = (.ok true, t') ∧ R t' s₂ := by
      intro y hy
      obtain ⟨t, t', h₁, h₂, h₃⟩ := hrest y hy
      exact ⟨t, t', trans_of R ((h x List.mem_cons_self).run hb) h₁, h₂, h₃⟩
    cases b with
    | false => exact ⟨hsub.cons x, hmem⟩
    | true =>
      refine ⟨hsub.cons_cons x, fun y hy => ?_⟩
      rcases List.mem_cons.mp hy with rfl | hy
      · exact ⟨s, s₁, refl_of R s, hb, (Rel.select hxs).run hzs⟩
      · exact hmem y hy

theorem Rel.every_round {test : α → Prog σ ε Bool} {xs : List α} (h : ∀ x ∈ xs, Rel R (test x))
    {s s' : σ} (hrun : Prog.every test xs s = (.ok true, s')) :
    ∀ x ∈ xs, ∃ s₁ s₂, R s s₁ ∧ test x s₁ = (.ok true, s₂) ∧ R s₂ s' := by
  induction xs generalizing s with
  | nil => simp
  | cons y xs ih =>
    rw [Prog.every, bind_eq_ok] at hrun
    obtain ⟨b, s₁, hb, hrest⟩ := hrun
    have hxs := fun x hx => h x (List.mem_cons_of_mem y hx)
    cases b with
    | false => simp at hrest
    | true =>
      rw [if_pos rfl] at hrest
      intro x hx
      rcases List.mem_cons.mp hx with rfl | hx
      · exact ⟨s, s₁, refl_of R s, hb, (Rel.every hxs).run hrest⟩
      · obtain ⟨t, t', h₁, h₂, h₃⟩ := ih hxs hrest x hx
        exact ⟨t, t', trans_of R ((h y List.mem_cons_self).run hb) h₁, h₂, h₃⟩

end Rel

/-- What held before a program holds after it. -/
def Preserves (I : σ → Prop) (s s' : σ) : Prop := I s → I s'

instance (I : σ → Prop) : Std.Refl (Preserves I) := ⟨fun _ h => h⟩

instance (I : σ → Prop) : IsTrans σ (Preserves I) := ⟨fun _ _ _ h h' hs => h' (h hs)⟩

section Undo

variable {R : σ → σ → Prop}

theorem Rel.preserves [IsTrans σ R] {m : Prog σ ε α} (h : Rel R m) (old : σ) :
    Rel (Preserves (R old)) m :=
  fun s hs => trans_of R hs (h s)

/-- A program that is right with respect to the state it starts from. -/
theorem Rel.from_get [Std.Refl R] {m : σ → Prog σ ε α} (h : ∀ old, Rel (Preserves (R old)) (m old)) :
    Rel R (MonadState.get >>= m) :=
  fun s => h s s (refl_of R s)

/-- A handler that goes back to what it finds in the state before the failed part only has
to be right with respect to that state. -/
theorem Rel.undo {m : σ → Prog σ ε α} {handler : σ → ε → Prog σ ε α} (hm : ∀ s, Rel R (m s))
    (hh : ∀ old e, Rel (Preserves (R old)) (handler old e)) :
    Rel R (MonadState.get >>= fun old => MonadExcept.tryCatch (m old) (handler old)) := by
  intro s
  show R s (MonadExcept.tryCatch (m s) (handler s) s).2
  rw [run_tryCatch]
  rcases hrun : m s s with ⟨e | a, t⟩
  · exact hh s e t ((hm s).run hrun)
  · exact (hm s).run hrun

end Undo

/-! ## Programs over two kinds of state -/

section Follows

variable {τ : Type} {R : τ → σ → Prop}

/-- From related states the two programs both return the same or both raise, and end in
related states. -/
def Follows (R : τ → σ → Prop) (m : Prog σ ε α) (m' : Prog τ ε α) : Prop :=
  ∀ t s, R t s → (m s).1.toOption = (m' t).1.toOption ∧ R (m' t).2 (m s).2

/-- From a related state the program returns, with a result in `Q`, and the state stays
related. -/
def Silent (R : τ → σ → Prop) (m : Prog σ ε α) (Q : α → Prop) : Prop :=
  ∀ t s, R t s → ∃ a s', m s = (.ok a, s') ∧ Q a ∧ R t s'

theorem Follows.pure (a : α) : Follows R (pure a : Prog σ ε α) (pure a : Prog τ ε α) :=
  fun _ _ h => ⟨rfl, h⟩

theorem Follows.throw (e e' : ε) : Follows R (throw e : Prog σ ε α) (throw e' : Prog τ ε α) :=
  fun _ _ h => ⟨rfl, h⟩

/-- The second parts only have to be compared for what the first ones can return. -/
theorem Follows.bind_ok {m : Prog σ ε α} {m' : Prog τ ε α} {f : α → Prog σ ε β}
    {f' : α → Prog τ ε β} (hm : Follows R m m')
    (hf : ∀ t t' a, m' t = (.ok a, t') → Follows R (f a) (f' a)) :
    Follows R (m >>= f) (m' >>= f') := by
  intro t s h
  obtain ⟨hout, hstate⟩ := hm t s h
  rw [run_bind, run_bind]
  rcases hs : m s with ⟨e | a, s'⟩ <;> rcases ht : m' t with ⟨e' | a', t'⟩ <;>
    rw [hs, ht] at hout hstate
  · exact ⟨rfl, hstate⟩
  · cases hout
  · cases hout
  · obtain rfl : a = a' := Option.some.inj hout
    exact hf t t' a ht t' s' hstate

theorem Follows.bind {m : Prog σ ε α} {m' : Prog τ ε α} {f : α → Prog σ ε β} {f' : α → Prog τ ε β}
    (hm : Follows R m m') (hf : ∀ a, Follows R (f a) (f' a)) :
    Follows R (m >>= f) (m' >>= f') :=
  Follows.bind_ok hm fun _ _ a _ => hf a

/-- A silent part of the first program has no counterpart in the second. -/
theorem Follows.skip {m : Prog σ ε α} {Q : α → Prop} {f : α → Prog σ ε β} {m' : Prog τ ε β}
    (hm : Silent R m Q) (hf : ∀ a, Q a → Follows R (f a) m') : Follows R (m >>= f) m' := by
  intro t s h
  obtain ⟨a, s', hrun, hq, hr⟩ := hm t s h
  rw [run_bind_ok hrun]
  exact hf a hq t s' hr

theorem Follows.ite {c : Prop} [Decidable c] {m n : Prog σ ε α} {m' n' : Prog τ ε α}
    (hm : c → Follows R m m') (hn : ¬c → Follows R n n') :
    Follows R (if c then m else n) (if c then m' else n') := by
  split_ifs with h
  · exact hm h
  · exact hn h

theorem Follows.forEach {body : α → Prog σ ε Unit} {body' : α → Prog τ ε Unit} {xs : List α}
    (h : ∀ x ∈ xs, Follows R (body x) (body' x)) :
    Follows R (Prog.forEach body xs) (Prog.forEach body' xs) := by
  induction xs with
  | nil => exact Follows.pure ()
  | cons x xs ih =>
    exact Follows.bind (h x List.mem_cons_self) fun _ =>
      ih fun y hy => h y (List.mem_cons_of_mem x hy)

theorem Follows.collect {body : α → Prog σ ε β} {body' : α → Prog τ ε β} {xs : List α}
    (h : ∀ x ∈ xs, Follows R (body x) (body' x)) :
    Follows R (Prog.collect body xs) (Prog.collect body' xs) := by
  induction xs with
  | nil => exact Follows.pure []
  | cons x xs ih =>
    exact Follows.bind (h x List.mem_cons_self) fun _ =>
      Follows.bind (ih fun y hy => h y (List.mem_cons_of_mem x hy)) fun _ => Follows.pure _

theorem Silent.pure (a : α) {Q : α → Prop} (h : Q a) : Silent R (pure a : Prog σ ε α) Q :=
  fun _ s hs => ⟨a, s, rfl, h, hs⟩

theorem Silent.bind {m : Prog σ ε α} {Q : α → Prop} {f : α → Prog σ ε β} {Q' : β → Prop}
    (hm : Silent R m Q) (hf : ∀ a, Q a → Silent R (f a) Q') : Silent R (m >>= f) Q' := by
  intro t s h
  obtain ⟨a, s', hrun, hq, hr⟩ := hm t s h
  rw [run_bind_ok hrun]
  exact hf a hq t s' hr

end Follows

end Prog
end MegaCache
