import Mathlib.Logic.Basic

/-
  A simp set for reading a computation of the exception
  monad `Except ε` as the conjunction of its checks: a bind
  succeeds when both halves do, a throw never does, and a
  guarded throw succeeds exactly when its guard fails and
  the rest succeeds; and the rules that bound the errors a
  bind or a fold can fail with by those of its parts.

  Key statements include:
    * `Except.bind_eq_ok`
    * `Except.error_bind`
    * `Except.ite_error_eq_ok`
    * `Except.map_eq_ok`
    * `Except.foldlM_cons_eq_ok`, `Except.foldlM_invariant`
    * `Except.bind_errors`, `Except.foldlM_errors`
-/

------------------------------------------------------------
-- Success of Except Computations
------------------------------------------------------------

namespace Except

variable {ε α β : Type}

@[simp] theorem bind_eq_ok
    {x : Except ε α}
    {f : α → Except ε β}
    {b : β} :
    x >>= f = .ok b ↔ ∃ a, x = .ok a ∧ f a = .ok b := by
  cases x with
  | error e => simp [bind, Except.bind]
  | ok a => simp [bind, Except.bind]

@[simp] theorem error_bind
    (e : ε)
    (f : α → Except ε β) :
    (Except.error e >>= f) = .error e := rfl

@[simp] theorem throw_eq_error (e : ε) :
    (throw e : Except ε α) = .error e := rfl

@[simp] theorem map_eq_ok
    {g : α → β}
    {x : Except ε α}
    {b : β} :
    g <$> x = .ok b ↔ ∃ a, x = .ok a ∧ g a = b := by
  cases x with
  | error e => simp [Functor.map, Except.map]
  | ok a => simp [Functor.map, Except.map]

@[simp] theorem pure_eq_ok {a b : α} :
    (pure a : Except ε α) = .ok b ↔ a = b := by
  simp [pure, Except.pure]

/- A guarded throw passes exactly when its guard fails. -/
@[simp] theorem ite_error_eq_ok
    (c : Prop)
    [Decidable c]
    (e : ε)
    (k : Except ε α)
    (a : α) :
    ((if c then Except.error e else k) = .ok a) ↔ ¬ c ∧
      k = .ok a := by
  by_cases h : c
  · simp [h]
  · simp [h]

/-
  A fold succeeds when its first step and the fold of the
  rest do.
-/
@[simp] theorem foldlM_cons_eq_ok
    {f : β → α → Except ε β}
    {b c : β}
    {a : α}
    {l : List α} :
    (a :: l).foldlM f b = .ok c ↔ ∃ b', f b a = .ok b' ∧
      l.foldlM f b' = .ok c := by
  simp [List.foldlM_cons]

/-
  The invariant rule of a fold: what every successful step
  keeps holds after a successful fold.
-/
theorem foldlM_invariant
    {P : β → Prop}
    {f : β → α → Except ε β}
    (hStep : ∀ b a b', P b → f b a = .ok b' → P b')
    {l : List α}
    {b c : β}
    (hP : P b)
    (hFold : l.foldlM f b = .ok c) :
    P c := by
  induction l generalizing b with
  | nil =>
      simp only [List.foldlM_nil, pure_eq_ok] at hFold
      exact hFold ▸ hP
  | cons a l ih =>
      obtain ⟨b', hFirst, hRest⟩ :=
        foldlM_cons_eq_ok.mp hFold
      exact ih (hStep b a b' hP hFirst) hRest

/-
  A bind fails only as one of its halves does: when every
  error of each half satisfies P, so does every error of the
  bind.
-/
theorem bind_errors
    {P : ε → Prop}
    {x : Except ε α}
    {f : α → Except ε β}
    (hFirst : ∀ e, x = .error e → P e)
    (hRest : ∀ a e, f a = .error e → P e) :
    ∀ e, x >>= f = .error e → P e := by
  intro e hBind
  cases x with
  | error e' =>
      rw [error_bind] at hBind
      cases hBind
      exact hFirst _ rfl
  | ok a => exact hRest a e hBind

/-
  A fold fails only as one of its steps does: when every
  error of a step on an element of the list satisfies P, so
  does every error of the fold.
-/
theorem foldlM_errors
    {P : ε → Prop}
    {f : β → α → Except ε β}
    {l : List α}
    (hStep : ∀ a ∈ l, ∀ b e, f b a = .error e → P e)
    (b : β) :
    ∀ e, l.foldlM f b = .error e → P e := by
  induction l generalizing b with
  | nil =>
      intro e hPure
      cases hPure
  | cons a l ih =>
      rw [List.foldlM_cons]
      exact bind_errors (hStep a (List.mem_cons_self ..) b)
        (ih fun a' hMem =>
          hStep a' (List.mem_cons_of_mem a hMem))

end Except
