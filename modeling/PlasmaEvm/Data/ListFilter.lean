import Mathlib.Data.List.Chain
import Mathlib.Data.List.Sigma
import Mathlib.Order.MinMax

/-
  Facts about walking a list: a filter whose predicate,
  once false, stays false further along the list keeps a
  prefix, so it keeps any chain relation between neighbours;
  and a running minimum of a projection, started from a
  bound above every element, ends at the projection of some
  element and below all of them.

  Key statements include:
    * `List.IsChain.filter_of_pairwise`
    * `List.foldl_min_le`
    * `List.exists_foldl_min_eq`
    * `List.getElem?_filter_length_take`
    * `List.kerase_eq_filter`
-/

------------------------------------------------------------
-- Filters That Keep a Prefix
------------------------------------------------------------

namespace List

variable {α : Type}

/-
  A filter that, once it drops an element, drops every later
  one keeps a prefix, and a prefix of a chain is a chain.
-/
theorem IsChain.filter_of_pairwise
    {R : α → α → Prop}
    {p : α → Bool}
    {l : List α}
    (hChain : l.IsChain R)
    (hClosed : l.Pairwise (fun a b => p a = false →
      p b = false)) :
    (l.filter p).IsChain R := by
  have hPrefix : l.filter p <+: l := by
    have hEq : l.filter p = l.takeWhile p := by
      induction l with
      | nil => rfl
      | cons a l ih =>
          rw [pairwise_cons] at hClosed
          cases hA : p a with
          | true =>
              simp only [filter_cons_of_pos hA,
                takeWhile_cons_of_pos hA,
                ih hChain.tail hClosed.2]
          | false =>
              rw [filter_cons_of_neg (by simp [hA]),
                takeWhile_cons_of_neg (by simp [hA]),
                filter_eq_nil_iff]
              intro b hMem
              simp [hClosed.1 b hMem hA]
    rw [hEq]
    exact takeWhile_prefix p
  exact hChain.prefix hPrefix

end List

------------------------------------------------------------
-- Running Minima
------------------------------------------------------------

namespace List

variable {α β : Type}
variable [LinearOrder β]

/-
  The running minimum never rises above where it started.
-/
theorem foldl_min_le_init
    (f : α → β)
    (xs : List α)
    (init : β) :
    xs.foldl (fun low y => min low (f y)) init ≤ init := by
  induction xs generalizing init with
  | nil => exact le_rfl
  | cons y ys ih => exact (ih _).trans (min_le_left _ _)

/-
  The running minimum of `f` over a list is at most `f` of
  each element.
-/
theorem foldl_min_le
    (f : α → β)
    {xs : List α}
    {x : α}
    (hMem : x ∈ xs)
    (init : β) :
    xs.foldl (fun low y => min low (f y)) init ≤ f x := by
  induction xs generalizing init with
  | nil => simp at hMem
  | cons y ys ih =>
      rw [foldl_cons]
      rcases mem_cons.mp hMem with rfl | hTail
      · exact (foldl_min_le_init f ys _).trans (min_le_right _ _)
      · exact ih hTail _

/-
  The running minimum is where it started or `f` of some
  element.
-/
theorem foldl_min_eq_init_or_mem
    (f : α → β)
    (xs : List α)
    (init : β) :
    xs.foldl (fun low y => min low (f y)) init = init ∨
      ∃ x ∈ xs, xs.foldl (fun low y =>
        min low (f y)) init = f x := by
  induction xs generalizing init with
  | nil => exact Or.inl rfl
  | cons y ys ih =>
      rw [foldl_cons]
      rcases ih (min init (f y))
        with hStart | ⟨x, hMem, hEq⟩
      · rcases min_choice init (f y) with hInit | hY
        · exact Or.inl (hStart.trans hInit)
        · exact Or.inr ⟨y, mem_cons_self, hStart.trans hY⟩
      · exact Or.inr ⟨x, mem_cons_of_mem y hMem, hEq⟩

/-
  Started from a bound above every element, the running
  minimum over a non-empty list is `f` of one of them.
-/
theorem exists_foldl_min_eq
    (f : α → β)
    {xs : List α}
    (hNe : xs ≠ [])
    {init : β}
    (hBound : ∀ x ∈ xs, f x ≤ init) :
    ∃ x ∈ xs, xs.foldl (fun low y =>
      min low (f y)) init = f x := by
  rcases foldl_min_eq_init_or_mem f xs init
    with hStart | hSome
  · rcases exists_mem_of_ne_nil xs hNe with ⟨x, hMem⟩
    have hLe := foldl_min_le f hMem init
    rw [hStart] at hLe
    refine ⟨x, hMem, ?_⟩
    rw [hStart]
    exact le_antisymm hLe (hBound x hMem)
  · exact hSome

end List

------------------------------------------------------------
-- Where a Filter Keeps an Element
------------------------------------------------------------

namespace List

variable {α : Type}

/-
  An element the filter keeps stands, in the filtered list,
  right after what the filter keeps of the elements before
  it.
-/
theorem getElem?_filter_length_take
    {p : α → Bool}
    {l : List α}
    {n : Nat}
    (hn : n < l.length)
    (hp : p l[n] = true) :
    (l.filter p)[((l.take n).filter p).length]? =
      some l[n] := by
  have hSplit : l = l.take n ++ l[n] :: l.drop (n + 1) := by
    rw [← List.drop_eq_getElem_cons hn,
      List.take_append_drop]
  have hFilter : l.filter p = (l.take n).filter p ++ l[n] ::
    (l.drop (n + 1)).filter p := by
    conv_lhs => rw [hSplit]
    rw [List.filter_append, List.filter_cons_of_pos hp]
  rw [hFilter, List.getElem?_append_right
    (Nat.le_refl _), Nat.sub_self]
  rfl

end List

------------------------------------------------------------
-- Erasing a Key
------------------------------------------------------------

namespace List

variable {α : Type}
variable {β : α → Type}
variable [DecidableEq α]

/-
  Where the keys are distinct, erasing a key drops every
  entry under it.
-/
theorem kerase_eq_filter
    (a : α) :
    ∀ {l : List (Sigma β)}, l.NodupKeys →
      l.kerase a = l.filter (fun s => s.1 ≠ a)
  | [], _ => rfl
  | s :: l, hNodup => by
      rcases nodupKeys_cons.mp hNodup with ⟨hFresh, hRest⟩
      by_cases hKey : a = s.1
      · rw [kerase_cons_eq hKey,
          filter_cons_of_neg (by simpa using hKey.symm), eq_comm,
          filter_eq_self]
        intro t hMem
        have hKeyT : t.1 ∈ l.keys := mem_keys_of_mem hMem
        simp only [ne_eq, decide_eq_true_eq]
        intro hEq
        exact hFresh (hKey ▸ hEq ▸ hKeyT)
      · rw [kerase_cons_ne hKey,
          filter_cons_of_pos (by simpa using Ne.symm hKey),
          kerase_eq_filter a hRest]

end List
