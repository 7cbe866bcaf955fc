import Mathlib.Logic.Basic

/-
  Replays of a guarded transition function.

  A system whose steps may be refused (a receive on an empty
  channel, a loop that is not at that point) is a function
  `step : σ → α → Option σ`; `replay` runs a list of actions
  and fails as soon as one of them is refused.  Any
  interleaving of the system's parts is such a list.  An
  invariant that every step keeps holds after every replay.

  Key statements include:
    * `Replay.replay_append`
    * `Replay.invariant_of_forall`, `Replay.invariant`
    * `Replay.isSome_of_forall`
-/

------------------------------------------------------------
-- Replays
------------------------------------------------------------

namespace Replay

variable {σ α : Type}
variable (step : σ → α → Option σ)

/- Run the actions in order; `none` once one is refused. -/
def replay : σ → List α → Option σ
  | s, [] => some s
  | s, a :: actions =>
      match step s a with
      | some t => replay t actions
      | none => none

@[simp] theorem replay_nil (s : σ) :
    replay step s [] = some s := rfl

theorem replay_cons
    (s : σ)
    (a : α)
    (actions : List α) :
    replay step s (a :: actions) =
      (step s a).bind (fun t => replay step t actions) := by
  simp only [replay]
  cases step s a with
  | none => rfl
  | some t => rfl

/-
  A step that is taken is followed by the replay of the
  rest.
-/
theorem replay_cons_of_step
    {s t : σ}
    {a : α}
    (actions : List α)
    (hStep : step s a = some t) :
    replay step s (a :: actions) =
      replay step t actions := by
  simp [replay_cons, hStep]

theorem replay_append
    (s : σ)
    (actions₁ actions₂ : List α) :
    replay step s (actions₁ ++ actions₂) =
      (replay step s actions₁).bind
        (fun t => replay step t actions₂) := by
  induction actions₁ generalizing s with
  | nil => rfl
  | cons a actions₁ ih =>
      cases hStep : step s a with
      | none => simp [replay_cons, hStep]
      | some t =>
          rw [List.cons_append,
            replay_cons_of_step step _ hStep,
            replay_cons_of_step step _ hStep, ih]

end Replay

------------------------------------------------------------
-- Invariants of Replays
------------------------------------------------------------

namespace Replay

variable {σ α : Type}
variable {step : σ → α → Option σ}

/-
  An invariant kept by the steps of the allowed actions
  holds after every replay of allowed actions.
-/
theorem invariant_of_forall
    {Inv : σ → Prop}
    {Allowed : α → Prop}
    (hStep : ∀ s a t, Allowed a → Inv s →
      step s a = some t → Inv t)
    {s t : σ}
    {actions : List α}
    (hAllowed : ∀ a ∈ actions, Allowed a)
    (hInv : Inv s)
    (hReplay : replay step s actions = some t) :
    Inv t := by
  induction actions generalizing s with
  | nil =>
      simp only [replay_nil, Option.some.injEq] at hReplay
      exact hReplay ▸ hInv
  | cons a actions ih =>
      cases hA : step s a with
      | none => simp [replay_cons, hA] at hReplay
      | some u =>
          rw [replay_cons_of_step step _ hA] at hReplay
          have hAllowedA : Allowed a :=
            hAllowed a List.mem_cons_self
          exact ih (fun b hb => hAllowed b
            (List.mem_cons_of_mem a hb))
            (hStep s a u hAllowedA hInv hA) hReplay

/-
  The invariant rule: what holds at the start and is kept by
  every step that is taken holds after every replay.
-/
theorem invariant
    {Inv : σ → Prop}
    (hStep : ∀ s a t, Inv s → step s a = some t → Inv t)
    {s t : σ}
    {actions : List α}
    (hInv : Inv s)
    (hReplay : replay step s actions = some t) :
    Inv t :=
  invariant_of_forall (fun s a t (_ : True) => hStep s a t)
    (fun _ _ => trivial) hInv hReplay

/-
  The progress rule: when every allowed action is taken from
  every state of an invariant that the steps keep, every
  replay of allowed actions from such a state is taken to
  its end.
-/
theorem isSome_of_forall
    {Inv : σ → Prop}
    {Allowed : α → Prop}
    (hStep : ∀ s a t, Allowed a → Inv s →
      step s a = some t → Inv t)
    (hProgress : ∀ s a, Allowed a → Inv s →
      (step s a).isSome)
    {s : σ}
    {actions : List α}
    (hAllowed : ∀ a ∈ actions, Allowed a)
    (hInv : Inv s) :
    (replay step s actions).isSome := by
  induction actions generalizing s with
  | nil => rfl
  | cons a actions ih =>
      have hA : Allowed a := hAllowed a List.mem_cons_self
      obtain ⟨t, hTaken⟩ :=
        Option.isSome_iff_exists.mp (hProgress s a hA hInv)
      rw [replay_cons_of_step step _ hTaken]
      exact ih (fun b hb => hAllowed b
        (List.mem_cons_of_mem a hb))
        (hStep s a t hA hInv hTaken)

end Replay
