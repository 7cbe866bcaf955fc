import Mathlib.Logic.Basic

/-
  Steps on a state that may fail, and leave a state when
  they do (core's `EStateM`).  A program of such steps is
  run by rewriting each step with what it does: the lemmas
  here say how a bound step, a step with its error mapped,
  and a step whose error is caught go on from the result of
  the first.

  A program keeps a view of the state when every run,
  returned or failed, ends where it began as the view sees
  it; bound steps that each keep it keep it together.

  Key definitions include:
    * `EStateM.Result.state`, `EStateM.Keeps`

  Key statements include:
    * `EStateM.bind_of_ok`, `EStateM.bind_of_error`
    * `EStateM.bind_eq_ok`, `EStateM.bind_eq_error`
    * `EStateM.adaptExcept_of_ok`,
      `EStateM.adaptExcept_of_error`
    * `EStateM.Keeps.bind`
-/

------------------------------------------------------------
-- Running Bound Steps
------------------------------------------------------------

namespace EStateM

variable {ε ε' σ α β : Type}

@[simp] theorem pure_apply
    (a : α)
    (s : σ) :
    (pure a : EStateM ε σ α) s = .ok a s := rfl

@[simp] theorem throw_apply
    (e : ε)
    (s : σ) :
    (throw e : EStateM ε σ α) s = .error e s := rfl

@[simp] theorem get_apply (s : σ) :
    (get : EStateM ε σ σ) s = .ok s s := rfl

@[simp] theorem modify_apply
    (f : σ → σ)
    (s : σ) :
    (modify f : EStateM ε σ PUnit) s =
      .ok PUnit.unit (f s) := rfl

@[simp] theorem set_apply
    (s' s : σ) :
    (set s' : EStateM ε σ PUnit) s =
      .ok PUnit.unit s' := rfl

@[simp] theorem get_bind
    (f : σ → EStateM ε σ β)
    (s : σ) :
    (get >>= f) s = f s s := rfl

@[simp] theorem pure_bind_apply
    (a : α)
    (f : α → EStateM ε σ β)
    (s : σ) :
    (pure a >>= f) s = f a s := rfl

@[simp] theorem throw_bind
    (e : ε)
    (f : α → EStateM ε σ β)
    (s : σ) :
    (throw e >>= f) s = .error e s := rfl

@[simp] theorem set_bind
    (s' : σ)
    (f : PUnit → EStateM ε σ β)
    (s : σ) :
    (set s' >>= f) s = f PUnit.unit s' := rfl

@[simp] theorem modify_bind
    (g : σ → σ)
    (f : PUnit → EStateM ε σ β)
    (s : σ) :
    (modify g >>= f) s = f PUnit.unit (g s) := rfl

theorem bind_of_ok
    {x : EStateM ε σ α}
    {s s' : σ}
    {a : α}
    (h : x s = .ok a s')
    (f : α → EStateM ε σ β) :
    (x >>= f) s = f a s' := by
  show (match x s with
    | .ok a s => f a s
    | .error e s => .error e s) = f a s'
  rw [h]

theorem bind_of_error
    {x : EStateM ε σ α}
    {s s' : σ}
    {e : ε}
    (h : x s = .error e s')
    (f : α → EStateM ε σ β) :
    (x >>= f) s = .error e s' := by
  show (match x s with
    | .ok a s => f a s
    | .error e s => .error e s) = .error e s'
  rw [h]

theorem adaptExcept_of_ok
    {x : EStateM ε σ α}
    {s s' : σ}
    {a : α}
    (h : x s = .ok a s')
    (f : ε → ε') :
    x.adaptExcept f s = .ok a s' := by
  show (match x s with
    | Result.error e s => Result.error (f e) s
    | Result.ok a s => Result.ok a s) = Result.ok a s'
  rw [h]

theorem adaptExcept_of_error
    {x : EStateM ε σ α}
    {s s' : σ}
    {e : ε}
    (h : x s = .error e s')
    (f : ε → ε') :
    x.adaptExcept f s = .error (f e) s' := by
  show (match x s with
    | Result.error e s => Result.error (f e) s
    | Result.ok a s =>
        Result.ok a s) = Result.error (f e) s'
  rw [h]

/-
  A bound program that succeeded ran both steps to success.
-/
theorem bind_eq_ok
    {x : EStateM ε σ α}
    {f : α → EStateM ε σ β}
    {s s' : σ}
    {b : β} :
    (x >>= f) s = .ok b s' ↔ ∃ a s₁, x s = .ok a s₁ ∧
      f a s₁ = .ok b s' := by
  show (match x s with
    | .ok a s => f a s
    | .error e s => .error e s) = .ok b s' ↔ _
  cases x s with
  | ok a s₁ => simp [and_assoc]
  | error e s₁ => simp

/-
  A bound program that failed failed in its first step or in
  the second.
-/
theorem bind_eq_error
    {x : EStateM ε σ α}
    {f : α → EStateM ε σ β}
    {s s' : σ}
    {e : ε} :
    (x >>= f) s = .error e s' ↔
      x s = .error e s' ∨ ∃ a s₁, x s = .ok a s₁ ∧
        f a s₁ = .error e s' := by
  show (match x s with
    | .ok a s => f a s
    | .error e s => .error e s) = .error e s' ↔ _
  cases x s with
  | ok a s₁ => simp [and_assoc]
  | error e₁ s₁ => simp

end EStateM

------------------------------------------------------------
-- What a Program Keeps
------------------------------------------------------------

namespace EStateM

variable {ε σ α β γ : Type}

/-
  The state a run ends in, whether it returned or failed.
-/
def Result.state : Result ε σ α → σ
  | .ok _ s => s
  | .error _ s => s

@[simp] theorem Result.state_ok
    (a : α)
    (s : σ) :
    (Result.ok a s : Result ε σ α).state = s := rfl

@[simp] theorem Result.state_error
    (e : ε)
    (s : σ) :
    (Result.error e s : Result ε σ α).state = s := rfl

/-
  The program `x` keeps the view `f` of the state: every run
  ends in a state that `f` sees as the one it began in.
-/
def Keeps
    (f : σ → β)
    (x : EStateM ε σ α) : Prop :=
  ∀ s, f (x s).state = f s

theorem Keeps.pure
    (f : σ → β)
    (a : α) :
    Keeps f (pure a : EStateM ε σ α) := fun _ => rfl

theorem Keeps.throw
    (f : σ → β)
    (e : ε) :
    Keeps f (throw e : EStateM ε σ α) := fun _ => rfl

theorem Keeps.bind
    {f : σ → β}
    {x : EStateM ε σ α}
    {g : α → EStateM ε σ γ}
    (hx : Keeps f x)
    (hg : ∀ a, Keeps f (g a)) :
    Keeps f (x >>= g) := by
  intro s
  have hFirst := hx s
  show f (match x s with
    | .ok a s => g a s
    | .error e s => .error e s).state = f s
  cases hRun : x s with
  | ok a s₁ =>
      rw [hRun, Result.state_ok] at hFirst
      exact (hg a s₁).trans hFirst
  | error e s₁ =>
      rw [hRun, Result.state_error] at hFirst
      exact hFirst

end EStateM
