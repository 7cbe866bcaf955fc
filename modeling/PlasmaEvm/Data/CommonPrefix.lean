import Mathlib.Data.List.Basic

/-
  The length of the longest common prefix of two lists,
  counted element by element from the front until the first
  difference or the end of either list.  Both lists agree up
  to it, and differ just after it unless one of them ends
  there.

  Key definitions include:
    * `List.commonPrefixLen`

  Key statements include:
    * `List.take_commonPrefixLen`
    * `List.commonPrefixLen_eq_length_iff`
    * `List.getElem_commonPrefixLen_ne`
-/

------------------------------------------------------------
-- The Common Prefix Length
------------------------------------------------------------

namespace List

variable {α : Type} [DecidableEq α]

def commonPrefixLen : List α → List α → Nat
  | a :: as, b :: bs =>
      if a = b then commonPrefixLen as bs + 1 else 0
  | _, _ => 0

@[simp] theorem commonPrefixLen_nil_left (bs : List α) :
    commonPrefixLen [] bs = 0 := rfl

@[simp] theorem commonPrefixLen_nil_right (as : List α) :
    commonPrefixLen as [] = 0 := by
  cases as <;> rfl

@[simp] theorem commonPrefixLen_cons_self
    (a : α)
    (as bs : List α) :
    commonPrefixLen (a :: as) (a :: bs) =
      commonPrefixLen as bs + 1 := by
  simp [commonPrefixLen]

theorem commonPrefixLen_cons_of_ne
    {a b : α}
    (hNe : a ≠ b)
    (as bs : List α) :
    commonPrefixLen (a :: as) (b :: bs) = 0 := by
  simp [commonPrefixLen, hNe]

theorem commonPrefixLen_comm (as bs : List α) :
    commonPrefixLen as bs = commonPrefixLen bs as := by
  induction as generalizing bs with
  | nil => simp
  | cons a as ih =>
      cases bs with
      | nil => simp
      | cons b bs =>
          by_cases hab : a = b
          · subst hab
            simp [ih]
          · rw [commonPrefixLen_cons_of_ne hab,
              commonPrefixLen_cons_of_ne (Ne.symm hab)]

theorem commonPrefixLen_le_left (as bs : List α) :
    commonPrefixLen as bs ≤ as.length := by
  induction as generalizing bs with
  | nil => simp
  | cons a as ih =>
      cases bs with
      | nil => simp
      | cons b bs =>
          unfold commonPrefixLen
          split
          · simpa using ih bs
          · exact Nat.zero_le _

theorem commonPrefixLen_le_right (as bs : List α) :
    commonPrefixLen as bs ≤ bs.length := by
  rw [commonPrefixLen_comm]
  exact commonPrefixLen_le_left bs as

@[simp] theorem commonPrefixLen_self (as : List α) :
    commonPrefixLen as as = as.length := by
  induction as with
  | nil => rfl
  | cons a as ih => simp [ih]

/- Both lists agree up to their common prefix length. -/
theorem take_commonPrefixLen (as bs : List α) :
    as.take (commonPrefixLen as bs) =
      bs.take (commonPrefixLen as bs) := by
  induction as generalizing bs with
  | nil => simp
  | cons a as ih =>
      cases bs with
      | nil => simp
      | cons b bs =>
          by_cases hab : a = b
          · subst hab
            simp [ih bs]
          · simp [commonPrefixLen_cons_of_ne hab]

/-
  Just after the common prefix the lists differ, where both
  go on.
-/
theorem getElem_commonPrefixLen_ne
    (as bs : List α)
    (hA : commonPrefixLen as bs < as.length)
    (hB : commonPrefixLen as bs < bs.length) :
    as[commonPrefixLen as bs] ≠
      bs[commonPrefixLen as bs] := by
  induction as generalizing bs with
  | nil => simp at hA
  | cons a as ih =>
      cases bs with
      | nil => simp at hB
      | cons b bs =>
          by_cases hab : a = b
          · subst hab
            simp only [commonPrefixLen_cons_self,
              length_cons,
              Nat.add_lt_add_iff_right] at hA hB
            simpa using ih bs hA hB
          · simpa [commonPrefixLen_cons_of_ne hab] using hab

theorem commonPrefixLen_eq_length_iff (as bs : List α) :
    commonPrefixLen as bs = as.length ↔ as <+: bs := by
  induction as generalizing bs with
  | nil => simp
  | cons a as ih =>
      cases bs with
      | nil => simp
      | cons b bs =>
          by_cases hab : a = b
          · subst hab
            simp [ih, cons_prefix_cons]
          · simp [commonPrefixLen_cons_of_ne hab,
              cons_prefix_cons, hab]

theorem commonPrefixLen_of_prefix
    {as bs : List α}
    (h : as <+: bs) :
    commonPrefixLen as bs = as.length :=
  (commonPrefixLen_eq_length_iff as bs).mpr h

end List
