import Mathlib.Data.List.Forall2
import PlasmaEvm.Control.Except

/-
  Lists related element by element by `List.Forall₂`: a list
  kept by a filter against the values a partial map gives on
  it, the composition of two such relations through the list
  in the middle, and the results of a `mapM` in `Except`,
  each paired with its input.

  Key statements include:
    * `List.forall₂_filterMap_filter`
    * `List.Forall₂.comp`
    * `List.mapM_eq_ok_iff`
-/

------------------------------------------------------------
-- Filters and Compositions
------------------------------------------------------------

namespace List

variable {α β γ : Type}

/-
  A partial map defined exactly on the elements a filter
  keeps gives, in order, values related to them.
-/
theorem forall₂_filterMap_filter
    {R : β → α → Prop}
    (f : α → Option β)
    (p : α → Bool)
    (l : List α)
    (hKept : ∀ a ∈ l, p a = true → ∃ b,
      f a = some b ∧ R b a)
    (hDropped : ∀ a ∈ l, p a = false → f a = none) :
    Forall₂ R (l.filterMap f) (l.filter p) := by
  induction l with
  | nil => exact Forall₂.nil
  | cons a rest ih =>
      have hRest := ih
        (fun x hx => hKept x (mem_cons_of_mem _ hx))
        (fun x hx => hDropped x (mem_cons_of_mem _ hx))
      cases hp : p a with
      | true =>
          obtain ⟨b, hb, hR⟩ := hKept a mem_cons_self hp
          rw [filterMap_cons_some hb, filter_cons_of_pos hp]
          exact Forall₂.cons hR hRest
      | false =>
          rw [filterMap_cons_none (hDropped a mem_cons_self hp),
            filter_cons_of_neg (by simp [hp])]
          exact hRest

/- Two relations compose through the list in the middle. -/
theorem Forall₂.comp
    {R : α → β → Prop}
    {S : β → γ → Prop}
    {l₁ : List α}
    {l₂ : List β}
    {l₃ : List γ}
    (h₁₂ : Forall₂ R l₁ l₂)
    (h₂₃ : Forall₂ S l₂ l₃) :
    Forall₂ (fun a c => ∃ b, R a b ∧ S b c) l₁ l₃ := by
  induction h₁₂ generalizing l₃ with
  | nil =>
      cases h₂₃
      exact Forall₂.nil
  | cons hR _ ih =>
      cases h₂₃ with
      | cons hS hRest =>
          exact Forall₂.cons ⟨_, hR, hS⟩ (ih hRest)

/- An element on the right is related to one on the left. -/
theorem Forall₂.exists_of_mem_right
    {R : α → β → Prop}
    {l₁ : List α}
    {l₂ : List β}
    (h : Forall₂ R l₁ l₂)
    {b : β}
    (hb : b ∈ l₂) :
    ∃ a ∈ l₁, R a b := by
  induction h with
  | nil => cases hb
  | @cons a b' _ _ hR _ ih =>
      rcases mem_cons.mp hb with rfl | hRest
      · exact ⟨a, mem_cons_self, hR⟩
      · obtain ⟨a', ha', hR'⟩ := ih hRest
        exact ⟨a', mem_cons_of_mem a ha', hR'⟩

end List

------------------------------------------------------------
-- Results of mapM
------------------------------------------------------------

namespace List

variable {ε α β : Type}

/-
  A `mapM` in `Except` succeeds exactly when the function
  succeeds on each element, its results in order.
-/
theorem mapM_eq_ok_iff
    {f : α → Except ε β}
    {l : List α}
    {ys : List β} :
    l.mapM f = .ok ys ↔ Forall₂ (fun a b =>
      f a = .ok b) l ys := by
  induction l generalizing ys with
  | nil =>
      cases ys with
      | nil => simp [pure, Except.pure]
      | cons b ys => simp [pure, Except.pure]
  | cons a l ih =>
      cases ys with
      | nil => simp [List.mapM_cons]
      | cons b ys => simp [List.mapM_cons, ih]

end List
