import Mathlib.Logic.Basic

/-
  Undo logs.  A change to a state records an entry that
  knows how to revert it; a log of entries is reverted from
  the last one back, and fails as soon as one revert fails.

  A log undoes the way from `s` to `t` when reverting it in
  `t` gives a state that an observation `view` cannot tell
  from `s`. When every entry's revert sees the state only
  through `view`, the logs of two consecutive stretches undo
  the whole way, so an undo log is proved exact one change
  at a time.

  Key statements include:
    * `UndoLog.revertAll_append`,
      `UndoLog.revertAll_invariant_of_mem`
    * `UndoLog.revertAll_congr`
    * `UndoLog.Undoes.append`
-/

------------------------------------------------------------
-- Reverting a Log
------------------------------------------------------------

namespace UndoLog

variable {σ ε ν : Type}
variable (revert : ε → σ → Option σ)

/- Revert the entries of a log, the last first. -/
def revertAll : List ε → σ → Option σ
  | [], s => some s
  | e :: es, s => (revertAll es s).bind (revert e)

@[simp] theorem revertAll_nil (s : σ) :
    revertAll revert [] s = some s := rfl

@[simp] theorem revertAll_cons
    (e : ε)
    (es : List ε)
    (s : σ) :
    revertAll revert (e :: es) s =
      (revertAll revert es s).bind (revert e) := rfl

/- The later part of a log is reverted first. -/
theorem revertAll_append
    (es₁ es₂ : List ε)
    (s : σ) :
    revertAll revert (es₁ ++ es₂) s =
      (revertAll revert es₂ s).bind (revertAll revert es₁) := by
  induction es₁ with
  | nil =>
      rw [List.nil_append]
      cases revertAll revert es₂ s <;> rfl
  | cons e es₁ ih =>
      rw [List.cons_append, revertAll_cons, ih,
        Option.bind_assoc]
      rfl

/-
  What the reverts of a log's own entries keep holds after
  reverting the log.
-/
theorem revertAll_invariant_of_mem
    {P : σ → Prop}
    {es : List ε}
    (hStep : ∀ e ∈ es, ∀ s r, P s →
      revert e s = some r → P r)
    {s r : σ}
    (hP : P s)
    (hRevert : revertAll revert es s = some r) :
    P r := by
  induction es generalizing r with
  | nil =>
      rw [revertAll_nil, Option.some.injEq] at hRevert
      exact hRevert ▸ hP
  | cons e es ih =>
      rw [revertAll_cons,
        Option.bind_eq_some_iff] at hRevert
      rcases hRevert with ⟨middle, hMiddle, hLast⟩
      have hRest : ∀ e' ∈ es, ∀ s r, P s →
        revert e' s = some r → P r :=
        fun e' he' => hStep e' (List.mem_cons_of_mem e he')
      exact hStep e List.mem_cons_self middle r
        (ih hRest hMiddle) hLast

/-
  What every revert keeps holds after reverting a whole log.
-/
theorem revertAll_invariant
    {P : σ → Prop}
    (hStep : ∀ e s r, P s → revert e s = some r → P r)
    (es : List ε)
    {s r : σ}
    (hP : P s)
    (hRevert : revertAll revert es s = some r) :
    P r :=
  revertAll_invariant_of_mem revert (fun e _ =>
    hStep e) hP hRevert

end UndoLog

------------------------------------------------------------
-- Reverts That See Only a View
------------------------------------------------------------

namespace UndoLog

variable {σ ε ν : Type}
variable (revert : ε → σ → Option σ)

/-
  Every entry's revert reads a state only through `view`.
-/
def Congruent (view : σ → ν) : Prop :=
  ∀ e s s', view s = view s' → (revert e s).map view =
    (revert e s').map view

variable {revert}
variable {view : σ → ν}

theorem bind_congr
    (hCongr : Congruent revert view)
    (e : ε)
    {x y : Option σ}
    (h : x.map view = y.map view) :
    (x.bind (revert e)).map view =
      (y.bind (revert e)).map view := by
  cases x with
  | none =>
      cases y with
      | none => rfl
      | some b => cases h
  | some a =>
      cases y with
      | none => cases h
      | some b =>
          simp only [Option.map_some,
            Option.some.injEq] at h
          exact hCongr e a b h

/-
  A log of congruent entries reverts states with one view
  alike.
-/
theorem revertAll_congr
    (hCongr : Congruent revert view)
    (es : List ε)
    {s s' : σ}
    (hView : view s = view s') :
    (revertAll revert es s).map view =
      (revertAll revert es s').map view := by
  induction es with
  | nil => simp [hView]
  | cons e es ih => exact bind_congr hCongr e ih

end UndoLog

------------------------------------------------------------
-- Logs That Undo
------------------------------------------------------------

namespace UndoLog

variable {σ ε ν : Type}
variable (revert : ε → σ → Option σ)
variable (view : σ → ν)

/-
  Reverting `es` in `t` succeeds and gives back the view of
  `s`.
-/
def Undoes (es : List ε) (s t : σ) : Prop :=
  ∃ r, revertAll revert es t = some r ∧ view r = view s

variable {revert view}

/- A stretch that changes nothing seen needs no entry. -/
theorem Undoes.nil
    {s t : σ}
    (hView : view t = view s) :
    Undoes revert view [] s t :=
  ⟨t, rfl, hView⟩

theorem Undoes.singleton
    {e : ε}
    {s t r : σ}
    (hRevert : revert e t = some r)
    (hView : view r = view s) :
    Undoes revert view [e] s t :=
  ⟨r, hRevert, hView⟩

/-
  The logs of two consecutive stretches undo both: the later
  log brings back the middle state's view, from which the
  earlier log reverts as it would from the middle state
  itself.
-/
theorem Undoes.append
    (hCongr : Congruent revert view)
    {es₁ es₂ : List ε}
    {s t u : σ}
    (h₁ : Undoes revert view es₁ s t)
    (h₂ : Undoes revert view es₂ t u) :
    Undoes revert view (es₁ ++ es₂) s u := by
  rcases h₁ with ⟨r₁, hRevert₁, hView₁⟩
  rcases h₂ with ⟨r₂, hRevert₂, hView₂⟩
  have hAlike := revertAll_congr hCongr es₁ hView₂
  rw [hRevert₁] at hAlike
  cases hRevert : revertAll revert es₁ r₂ with
  | none =>
      rw [hRevert] at hAlike
      cases hAlike
  | some r =>
      rw [hRevert, Option.map_some, Option.map_some,
        Option.some.injEq] at hAlike
      refine ⟨r, ?_, hAlike.trans hView₁⟩
      rw [revertAll_append, hRevert₂]
      exact hRevert

end UndoLog
