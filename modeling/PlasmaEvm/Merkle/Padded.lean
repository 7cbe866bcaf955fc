import Mathlib.Data.Nat.Log

/-
  Binary Merkle trees over a list of leaves, built level by
  level, in which an odd level is padded by combining its
  last node with itself.

  `pairUp` builds the next level, `root` iterates it down to
  a single node, `path` collects the sibling of a position
  at every level below the root, and `climb` is the
  verifier's fold of a leaf along such a path.  The node
  function is arbitrary; binding results assume it is
  injective.

  Main declarations:
    * `PaddedMerkle.climb_path`
    * `PaddedMerkle.exists_path`
    * `PaddedMerkle.length_path`
    * `PaddedMerkle.root_injective`
    * `PaddedMerkle.root_append_getLast`
-/

------------------------------------------------------------
-- Levels
------------------------------------------------------------

namespace PaddedMerkle

variable {α : Type*}
variable (node : α → α → α)

/-
  The next level: neighbours combined in pairs from the
  left, and the last node of an odd level combined with
  itself.
-/
def pairUp : List α → List α
  | [] => []
  | [a] => [node a a]
  | a :: b :: rest => node a b :: pairUp rest

@[simp] theorem pairUp_nil :
    pairUp node ([] : List α) = [] := rfl

@[simp] theorem pairUp_singleton (a : α) :
    pairUp node [a] = [node a a] := rfl

@[simp] theorem pairUp_cons_cons
    (a b : α)
    (rest : List α) :
    pairUp node (a :: b :: rest) =
      node a b :: pairUp node rest := rfl

/- A level of `n` nodes has `⌈n / 2⌉` parents. -/
theorem length_pairUp (l : List α) :
    (pairUp node l).length = (l.length + 1) / 2 := by
  induction l using pairUp.induct with
  | case1 => simp
  | case2 a => simp
  | case3 a b rest ih =>
      simp only [pairUp_cons_cons, List.length_cons, ih]
      omega

/-
  The parent at position `j` combines the nodes at `2j` and
  `2j + 1`, the second replaced by the first when it is
  missing.
-/
theorem getElem?_pairUp
    (l : List α)
    (j : Nat) :
    (pairUp node l)[j]? =
      l[2 * j]?.map
        (fun a => node a (l[2 * j + 1]?.getD a)) := by
  induction l using pairUp.induct generalizing j with
  | case1 => simp
  | case2 a =>
      cases j with
      | zero => simp
      | succ j => simp
  | case3 a b rest ih =>
      cases j with
      | zero => simp
      | succ j =>
          have hEven : 2 * (j + 1) = 2 * j + 2 := by omega
          simp only [pairUp_cons_cons,
            List.getElem?_cons_succ, ih, hEven]

end PaddedMerkle

------------------------------------------------------------
-- Root
------------------------------------------------------------

namespace PaddedMerkle

variable {α : Type*}
variable (node : α → α → α)

/-
  The root: `empty` for no leaves, the node itself for one,
  and otherwise the root of the next level.
-/
def root (empty : α) (l : List α) : α :=
  match l with
  | [] => empty
  | [a] => a
  | a :: b :: rest =>
      root empty (pairUp node (a :: b :: rest))
termination_by l.length
decreasing_by
  simp only [length_pairUp, List.length_cons]
  omega

@[simp] theorem root_nil (empty : α) :
    root node empty [] = empty := by
  rw [root]

@[simp] theorem root_singleton (empty a : α) :
    root node empty [a] = a := by
  rw [root]

/- Above one node the root is the root of the next level. -/
theorem root_of_two_le
    (empty : α)
    (l : List α)
    (hLength : 2 ≤ l.length) :
    root node empty l =
      root node empty (pairUp node l) := by
  match l, hLength with
  | a :: b :: rest, _ => rw [root]

end PaddedMerkle

------------------------------------------------------------
-- Authentication Paths
------------------------------------------------------------

namespace PaddedMerkle

variable {α : Type*}
variable (node : α → α → α)

/-
  One verifier step: an even position is a left child and an
  odd position a right child of its parent.
-/
def step (i : Nat) (h s : α) : α :=
  if i % 2 = 0 then node h s else node s h

/- The verifier's fold of a leaf hash along a path. -/
def climb : α → Nat → List α → α
  | h, _, [] => h
  | h, i, s :: p => climb (step node i h s) (i / 2) p

@[simp] theorem climb_nil (h : α) (i : Nat) :
    climb node h i [] = h := rfl

@[simp] theorem climb_cons
    (h s : α)
    (i : Nat)
    (p : List α) :
    climb node h i (s :: p) =
      climb node (step node i h s) (i / 2) p := rfl

/-
  The sibling of position `i`: its right neighbour when `i`
  is even (itself when it is the last node), its left
  neighbour when `i` is odd.
-/
def sibling (l : List α) (i : Nat) : Option α :=
  if i % 2 = 0 then
    if i + 1 < l.length then l[i + 1]? else l[i]?
  else l[i - 1]?

/-
  The authentication path of position `i`: its sibling on
  every level below the root.
-/
def path (l : List α) (i : Nat) : Option (List α) :=
  if l.length ≤ 1 then some []
  else
    match sibling l i, path (pairUp node l) (i / 2) with
    | some s, some p => some (s :: p)
    | _, _ => none
termination_by l.length
decreasing_by
  simp only [length_pairUp]
  omega

theorem path_of_le_one
    (l : List α)
    (i : Nat)
    (hLength : l.length ≤ 1) :
    path node l i = some [] := by
  rw [path, if_pos hLength]

theorem path_of_two_le
    (l : List α)
    (i : Nat)
    (hLength : 2 ≤ l.length) :
    path node l i =
      match sibling l i,
        path node (pairUp node l) (i / 2) with
      | some s, some p => some (s :: p)
      | _, _ => none := by
  rw [path, if_neg (by omega)]

/- Every position of a level has a sibling. -/
theorem exists_sibling
    (l : List α)
    (i : Nat)
    (hIndex : i < l.length) :
    ∃ s, sibling l i = some s := by
  unfold sibling
  split
  · split
    · exact ⟨l[i + 1], List.getElem?_eq_getElem _⟩
    · exact ⟨l[i], List.getElem?_eq_getElem hIndex⟩
  · exact ⟨l[i - 1], List.getElem?_eq_getElem (by omega)⟩

/-
  One level of the verifier: a node combined with its
  sibling is its parent in the next level.
-/
theorem getElem?_pairUp_step
    (l : List α)
    (i : Nat)
    (a s : α)
    (hNode : l[i]? = some a)
    (hSibling : sibling l i = some s) :
    (pairUp node l)[i / 2]? = some (step node i a s) := by
  rw [getElem?_pairUp]
  unfold sibling at hSibling
  unfold step
  by_cases hParity : i % 2 = 0
  · have hLeft : 2 * (i / 2) = i := by omega
    rw [if_pos hParity] at hSibling
    rw [if_pos hParity, hLeft, hNode]
    have hRight : l[i + 1]?.getD a = s := by
      split at hSibling
      · simp [hSibling]
      · have hNone : l[i + 1]? = none :=
          List.getElem?_eq_none (by omega)
        rw [hNode] at hSibling
        simp [hNone, ← Option.some.inj hSibling]
    simp [hRight]
  · have hLeft : 2 * (i / 2) = i - 1 := by omega
    have hRight : 2 * (i / 2) + 1 = i := by omega
    rw [if_neg hParity] at hSibling
    rw [if_neg hParity, hRight, hLeft, hSibling, hNode]
    simp

end PaddedMerkle

------------------------------------------------------------
-- Correctness of Paths
------------------------------------------------------------

namespace PaddedMerkle

variable {α : Type*}
variable (node : α → α → α)

/-
  A level of at most one node with a node at `i` is `[a]`.
-/
theorem eq_singleton_of_getElem?
    (l : List α)
    (i : Nat)
    (a : α)
    (hLength : l.length ≤ 1)
    (hNode : l[i]? = some a) :
    l = [a] ∧ i = 0 := by
  match l, hLength, hNode with
  | [b], _, hNode =>
      cases i with
      | zero => simpa using hNode
      | succ i => simp at hNode

/- Every position of a level has an authentication path. -/
theorem exists_path
    (l : List α)
    (i : Nat)
    (hIndex : i < l.length) :
    ∃ p, path node l i = some p := by
  induction hSize : l.length using Nat.strong_induction_on
      generalizing l i with
  | _ n ih =>
      by_cases hSmall : l.length ≤ 1
      · exact ⟨[], path_of_le_one node l i hSmall⟩
      · obtain ⟨s, hSibling⟩ := exists_sibling l i hIndex
        have hParentIndex :
            i / 2 < (pairUp node l).length := by
          rw [length_pairUp]
          omega
        have hShorter : (pairUp node l).length < n := by
          rw [length_pairUp]
          omega
        obtain ⟨p, hPath⟩ :=
          ih _ hShorter (pairUp node l) (i / 2)
            hParentIndex rfl
        refine ⟨s :: p, ?_⟩
        rw [path_of_two_le node l i (by omega),
          hSibling, hPath]

/-
  Completeness of paths: climbing from the node at `i` along
  its path reaches the root.
-/
theorem climb_path
    (empty : α)
    (l : List α)
    (i : Nat)
    (a : α)
    (p : List α)
    (hNode : l[i]? = some a)
    (hPath : path node l i = some p) :
    climb node a i p = root node empty l := by
  induction hSize : l.length using Nat.strong_induction_on
      generalizing l i a p with
  | _ n ih =>
      by_cases hSmall : l.length ≤ 1
      · obtain ⟨rfl, rfl⟩ :=
          eq_singleton_of_getElem? l i a hSmall hNode
        rw [path_of_le_one node [a] 0 hSmall] at hPath
        cases hPath
        simp
      · have hIndex : i < l.length := by
          by_contra hOut
          rw [List.getElem?_eq_none (by omega)] at hNode
          cases hNode
        obtain ⟨s, hSibling⟩ := exists_sibling l i hIndex
        have hParentIndex :
            i / 2 < (pairUp node l).length := by
          rw [length_pairUp]
          omega
        obtain ⟨q, hq⟩ :=
          exists_path node (pairUp node l) (i / 2)
            hParentIndex
        rw [path_of_two_le node l i (by omega),
          hSibling, hq] at hPath
        cases hPath
        have hParent :=
          getElem?_pairUp_step node l i a s hNode hSibling
        have hShorter : (pairUp node l).length < n := by
          rw [length_pairUp]
          omega
        calc climb node a i (s :: q)
            = climb node (step node i a s) (i / 2) q := rfl
          _ = root node empty (pairUp node l) :=
              ih _ hShorter _ _ _ _ hParent hq rfl
          _ = root node empty l :=
              (root_of_two_le node empty l (by omega)).symm

/- A path has one sibling per level: `⌈log₂ n⌉` of them. -/
theorem length_path
    (l : List α)
    (i : Nat)
    (p : List α)
    (hPath : path node l i = some p) :
    p.length = Nat.clog 2 l.length := by
  induction hSize : l.length using Nat.strong_induction_on
      generalizing l i p with
  | _ n ih =>
      by_cases hSmall : l.length ≤ 1
      · rw [path_of_le_one node l i hSmall] at hPath
        cases hPath
        rw [← hSize, Nat.clog_of_right_le_one hSmall]
        rfl
      · rw [path_of_two_le node l i (by omega)] at hPath
        cases hSibling : sibling l i with
        | none =>
            rw [hSibling] at hPath
            cases hPath
        | some s =>
            cases hRest : path node (pairUp node l) (i / 2) with
            | none =>
                rw [hSibling, hRest] at hPath
                cases hPath
            | some q =>
                rw [hSibling, hRest] at hPath
                cases hPath
                have hShorter : (pairUp node l).length < n := by
                  rw [length_pairUp]
                  omega
                have hq := ih _ hShorter _ _ _ hRest rfl
                have hLog :
                    Nat.clog 2 l.length =
                      Nat.clog 2 ((l.length + 1) / 2) + 1 := by
                  have hStep :=
                    Nat.clog_of_two_le (b := 2) (n := l.length)
                      (by omega) (by omega)
                  simpa using hStep
                rw [List.length_cons, hq,
                  length_pairUp, ← hSize,
                  hLog]

end PaddedMerkle

------------------------------------------------------------
-- Binding and Padding Collisions
------------------------------------------------------------

namespace PaddedMerkle

variable {α : Type*}
variable (node : α → α → α)

/-
  With an injective node function, two levels of the same
  size with the same parents are equal.
-/
theorem pairUp_injective
    (hNode : Function.Injective2 node)
    (l₁ l₂ : List α)
    (hLength : l₁.length = l₂.length)
    (hParents : pairUp node l₁ = pairUp node l₂) :
    l₁ = l₂ := by
  induction l₁ using pairUp.induct generalizing l₂ with
  | case1 =>
      exact (List.length_eq_zero_iff.mp hLength.symm).symm
  | case2 a =>
      match l₂, hLength with
      | [b], _ =>
          have hPair : node a a = node b b := by
            simpa using hParents
          rw [(hNode hPair).1]
  | case3 a b rest ih =>
      match l₂, hLength with
      | c :: d :: rest₂, hLength =>
          simp only [pairUp_cons_cons, List.cons.injEq]
            at hParents
          obtain ⟨hPair, hRest⟩ := hParents
          obtain ⟨rfl, rfl⟩ := hNode hPair
          have hRestLength : rest.length =
            rest₂.length := by
            simpa using hLength
          rw [ih rest₂ hRestLength hRest]

/-
  With an injective node function, the root binds the leaves
  among levels of one size.
-/
theorem root_injective
    (hNode : Function.Injective2 node)
    (empty : α)
    (l₁ l₂ : List α)
    (hLength : l₁.length = l₂.length)
    (hRoot : root node empty l₁ = root node empty l₂) :
    l₁ = l₂ := by
  induction hSize : l₁.length using Nat.strong_induction_on
      generalizing l₁ l₂ with
  | _ n ih =>
      match l₁, l₂, hLength with
      | [], [], _ => rfl
      | [a], [b], _ =>
          simpa using hRoot
      | a :: b :: rest, c :: d :: rest₂, hLength =>
          rw [root_of_two_le node empty _ (by simp),
            root_of_two_le node empty (c :: d :: rest₂)
              (by simp)] at hRoot
          have hParentLength :
              (pairUp node (a :: b :: rest)).length =
                (pairUp node (c :: d :: rest₂)).length := by
            rw [length_pairUp, length_pairUp, hLength]
          have hShorter :
              (pairUp node (a :: b :: rest)).length < n := by
            rw [length_pairUp, ← hSize]
            simp only [List.length_cons]
            omega
          exact pairUp_injective node hNode _ _ hLength
            (ih _ hShorter _ _ hParentLength hRoot rfl)

/-
  Repeating the last node of an odd level does not change
  the next level: the repeated node takes the place of the
  padding.
-/
theorem pairUp_append_getLast
    (l : List α)
    (a : α)
    (hLast : l.getLast? = some a)
    (hOdd : l.length % 2 = 1) :
    pairUp node (l ++ [a]) = pairUp node l := by
  induction l using pairUp.induct with
  | case1 => simp at hLast
  | case2 b =>
      simp only [List.getLast?_singleton,
        Option.some.injEq] at hLast
      subst hLast
      rfl
  | case3 b c rest ih =>
      have hRestOdd : rest.length % 2 = 1 := by
        simp only [List.length_cons] at hOdd
        omega
      have hRestLast : rest.getLast? = some a := by
        have hNonempty : rest ≠ [] := by
          rintro rfl
          simp at hRestOdd
        rw [← hLast, List.getLast?_cons_cons,
          List.getLast?_cons,
            List.getLast?_eq_some_getLast hNonempty]
        rfl
      simp only [List.cons_append, pairUp_cons_cons,
        ih hRestLast hRestOdd]

/-
  The padding collision: a level of odd size at least three
  and the same level with its last node repeated have the
  same root, whatever the node function.
-/
theorem root_append_getLast
    (empty : α)
    (l : List α)
    (a : α)
    (hLast : l.getLast? = some a)
    (hOdd : l.length % 2 = 1)
    (hSize : 3 ≤ l.length) :
    root node empty (l ++ [a]) = root node empty l := by
  have hLonger : 2 ≤ (l ++ [a]).length := by
    simp only [List.length_append, List.length_singleton]
    omega
  rw [root_of_two_le node empty _ hLonger,
    pairUp_append_getLast node l a hLast hOdd,
    ← root_of_two_le node empty l (by omega)]

end PaddedMerkle
