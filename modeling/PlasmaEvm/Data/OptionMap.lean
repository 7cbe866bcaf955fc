import Mathlib.Logic.Function.Basic

/-
  Maps to `Option` that only grow.  `Extends m m'` says that
  `m'` keeps every entry of `m`.  `insertNew` writes a value
  at a key that has none and keeps the entry there
  otherwise, so that a run of such writes only grows a map,
  and every entry after one is an entry from before or the
  value written.

  Key definitions include:
    * `OptionMap.Extends`, `OptionMap.insertNew`

  Key statements include:
    * `OptionMap.Extends.refl`, `OptionMap.Extends.trans`
    * `OptionMap.extends_insertNew`,
      `OptionMap.insertNew_self`,
      `OptionMap.eq_of_insertNew_eq_some`
-/

------------------------------------------------------------
-- Maps That Only Grow
------------------------------------------------------------

namespace OptionMap

variable {α β : Type}

/- Every entry of `m` is an entry of `m'`. -/
def Extends (m m' : α → Option β) : Prop :=
  ∀ k v, m k = some v → m' k = some v

@[refl] theorem Extends.refl (m : α → Option β) :
    Extends m m :=
  fun _ _ h => h

theorem Extends.trans
    {m₁ m₂ m₃ : α → Option β}
    (h₁₂ : Extends m₁ m₂)
    (h₂₃ : Extends m₂ m₃) :
    Extends m₁ m₃ :=
  fun k v h => h₂₃ k v (h₁₂ k v h)

variable [DecidableEq α]

/-
  The value at a key that has none; a key with an entry
  keeps it.
-/
def insertNew
    (m : α → Option β)
    (k : α)
    (v : β) :
    α → Option β :=
  match m k with
  | some _ => m
  | none => Function.update m k (some v)

theorem extends_insertNew
    (m : α → Option β)
    (k : α)
    (v : β) :
    Extends m (insertNew m k v) := by
  intro k' v' h
  cases hK : m k with
  | some w => simpa only [insertNew, hK] using h
  | none =>
      have hNe : k' ≠ k := fun hEq => by
        rw [hEq, hK] at h
        exact absurd h.symm (Option.some_ne_none v')
      simp only [insertNew, hK]
      rw [Function.update_of_ne hNe]
      exact h

/-
  After the write, the key holds the entry it had, or else
  the value.
-/
theorem insertNew_self (m : α → Option β) (k : α) (v : β) :
    insertNew m k v k = some ((m k).getD v) := by
  cases hK : m k with
  | some w => simp only [insertNew, hK, Option.getD_some]
  | none =>
      simp only [insertNew, hK, Function.update_self,
        Option.getD_none]

/-
  An entry after the write is an entry from before, or the
  value at its key.
-/
theorem eq_of_insertNew_eq_some
    {m : α → Option β}
    {k k' : α}
    {v w : β}
    (h : insertNew m k v k' = some w) :
    m k' = some w ∨ (k' = k ∧ w = v) := by
  cases hK : m k with
  | some u =>
      simp only [insertNew, hK] at h
      exact .inl h
  | none =>
      simp only [insertNew, hK] at h
      by_cases hKey : k' = k
      · subst hKey
        rw [Function.update_self] at h
        exact .inr ⟨rfl, (Option.some.inj h).symm⟩
      · rw [Function.update_of_ne hKey] at h
        exact .inl h

end OptionMap
