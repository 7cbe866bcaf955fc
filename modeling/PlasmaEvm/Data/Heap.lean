import Mathlib

/-
  Go's container/heap over a list: the algorithms `up`,
  `down`, `Init`, `Push`, `Pop`, `Remove` and `Fix` of the
  package, with `Less(i, j)` the order of a key of the
  elements and `Swap(i, j)` the exchange of two positions.
  The parent of position `j` is `(j - 1) / 2`, as `up`
  computes it.

  A list is a heap when no element is below its parent's.
  Each sift keeps an invariant that names the pairs it may
  leave out of order (`UpInv`, `SinkInv`): a swap puts the
  pair it sifts in order and hands the hole on to the next
  position, and when the sift stops every pair but those it
  was allowed to skip is in order.  The operations then keep
  the heap, move the elements only by a permutation, and the
  root is the least element.

  Key definitions include:
    * `Heap.less`, `Heap.swap`, `Heap.up`, `Heap.sink`,
      `Heap.down`
    * `Heap.Init`, `Heap.Push`, `Heap.Pop`, `Heap.Remove`,
      `Heap.Fix`
    * `Heap.OrderedExcept`, `Heap.IsHeap`

  Key statements include:
    * `Heap.up_spec`, `Heap.sink_spec`
    * `Heap.Init_spec`, `Heap.Push_spec`, `Heap.Pop_spec`,
      `Heap.Remove_spec`, `Heap.Fix_spec`
    * `Heap.IsHeap.root_le`
-/

------------------------------------------------------------
-- The Algorithms
------------------------------------------------------------

namespace Heap

variable {α β : Type}
variable [LinearOrder β]
variable (key : α → β)

/- The parent of position j; the root is its own. -/
def parent (j : Nat) : Nat :=
  (j - 1) / 2

/-
  h.Less(i, j).  A position past the end, which none of the
  functions below reads, is never less.
-/
def less
    (l : List α)
    (i j : Nat) : Bool :=
  match l[i]?, l[j]? with
  | some a, some b => decide (key a < key b)
  | _, _ => false

/-
  h.Swap(i, j); a position past the end leaves the list as
  it is.
-/
def swap
    (l : List α)
    (i j : Nat) : List α :=
  match l[i]?, l[j]? with
  | some a, some b => (l.set i b).set j a
  | _, _ => l

theorem parent_lt
    {j : Nat}
    (hj : 0 < j) :
    parent j < j := by
  unfold parent
  omega

/-
  up(h, j): while j is below its parent, swap the two and go
  on from the parent.
-/
def up
    (l : List α)
    (j : Nat) : List α :=
  if parent j = j ∨ less key l j (parent j) = false then l
  else up (swap l (parent j) j) (parent j)
termination_by j
decreasing_by
  have hLe : parent j ≤ j := by
    unfold parent
    omega
  omega

/-
  The child of i that down moves to: the right one j1 + 1
  when it is less than the left j1.
-/
def minChild
    (l : List α)
    (j1 n : Nat) : Nat :=
  if j1 + 1 < n ∧ less key l (j1 + 1) j1 = true
    then j1 + 1 else j1

theorem minChild_bounds
    (l : List α)
    (j1 n : Nat) :
    j1 ≤ minChild key l j1 n ∧ (j1 < n →
      minChild key l j1 n < n) := by
  unfold minChild
  split <;> omega

/-
  The loop of down(h, i0, n) from i over the first n
  positions: while a child is less, swap with the lesser
  child and go on from there.  It returns the list and where
  the element stopped. Go's guard j1 < 0 against overflow of
  an int has no counterpart on Nat.
-/
def sink
    (l : List α)
    (i n : Nat) : List α × Nat :=
  let j1 := 2 * i + 1
  if j1 ≥ n then (l, i)
  else
    let j := minChild key l j1 n
    if less key l j i = false then (l, i)
    else sink (swap l i j) j n
termination_by n - i
decreasing_by
  have hBounds := minChild_bounds key l (2 * i + 1) n
  omega

/-
  down(h, i0, n): the list, and whether the element moved.
-/
def down
    (l : List α)
    (i0 n : Nat) : List α × Bool :=
  let (l, i) := sink key l i0 n
  (l, decide (i > i0))

/-
  The loop of Init: down from each position below k, the
  highest first.
-/
def heapify
    (l : List α)
    (n : Nat) : Nat → List α
  | 0 => l
  | k + 1 => heapify (down key l k n).1 n k

/-
  heap.Init(h): for i := n/2 - 1; i >= 0; i-- { down(h, i,
  n) }.
-/
def Init (l : List α) : List α :=
  heapify key l l.length (l.length / 2)

/- heap.Push(h, x): h.Push(x), then up(h, h.Len()-1). -/
def Push
    (l : List α)
    (x : α) : List α :=
  up key (l ++ [x]) l.length

/-
  h.Pop() of the interface: the last element comes off; none
  on an empty list, where Go panics.
-/
def popBack (l : List α) : Option (α × List α) :=
  match l.getLast? with
  | some x => some (x, l.dropLast)
  | none => none

/-
  heap.Pop(h): the root is swapped with the last element,
  sifted down over the others, and popped.  An empty heap
  panics in Swap.
-/
def Pop (l : List α) : Option (α × List α) :=
  if l = [] then none
  else popBack (down key (swap l 0 (l.length - 1)) 0
    (l.length - 1)).1

/-
  heap.Remove(h, i): the element at i is swapped with the
  last, sifted down or else up, and popped.  An index past
  the end panics in Swap.
-/
def Remove
    (l : List α)
    (i : Nat) : Option (α × List α) :=
  let n := l.length - 1
  if l.length ≤ i then none
  else if n ≠ i then
    let (l', moved) := down key (swap l i n) i n
    popBack (if moved then l' else up key l' i)
  else popBack l

/- heap.Fix(h, i): down from i, or else up. -/
def Fix
    (l : List α)
    (i : Nat) : List α :=
  let (l', moved) := down key l i l.length
  if moved then l' else up key l' i

end Heap

------------------------------------------------------------
-- Swaps and Comparisons
------------------------------------------------------------

namespace Heap

variable {α β : Type}
variable [LinearOrder β]
variable (key : α → β)

section Swap

variable {l : List α}
variable {i j : Nat}

theorem swap_of_lt
    (hi : i < l.length)
    (hj : j < l.length) :
    swap l i j = (l.set i l[j]).set j l[i] := by
  simp [swap, List.getElem?_eq_getElem hi,
    List.getElem?_eq_getElem hj]

@[simp] theorem length_swap
    (l : List α)
    (i j : Nat) :
    (swap l i j).length = l.length := by
  unfold swap
  split <;> simp

/-
  The swap reads position i at j and j at i, and leaves
  every other position.
-/
theorem getElem?_swap
    (hi : i < l.length)
    (hj : j < l.length)
    (k : Nat) :
    (swap l i j)[k]? = if k = j
      then l[i]? else if k = i then l[j]? else l[k]? := by
  rw [swap_of_lt hi hj, List.getElem?_set,
    List.getElem?_set]
  by_cases hkj : k = j
  · subst hkj
    simp [hj, List.getElem?_eq_getElem hi]
  · by_cases hki : k = i
    · subst hki
      simp [Ne.symm hkj, hkj, hi,
        List.getElem?_eq_getElem hj]
    · simp [Ne.symm hkj, Ne.symm hki, hkj, hki]

theorem getElem?_swap_left
    (hi : i < l.length)
    (hj : j < l.length) :
    (swap l i j)[i]? = l[j]? := by
  rw [getElem?_swap hi hj]
  split
  · rename_i hij
    rw [hij]
  · rw [if_pos rfl]

theorem getElem?_swap_right
    (hi : i < l.length)
    (hj : j < l.length) :
    (swap l i j)[j]? = l[i]? := by
  rw [getElem?_swap hi hj, if_pos rfl]

theorem getElem?_swap_of_ne
    (hi : i < l.length)
    (hj : j < l.length)
    {k : Nat}
    (hki : k ≠ i)
    (hkj : k ≠ j) :
    (swap l i j)[k]? = l[k]? := by
  rw [getElem?_swap hi hj, if_neg hkj, if_neg hki]

/-
  A swap moves the elements by a permutation
  (Array.swap_perm on the list's array).
-/
theorem swap_perm
    (l : List α)
    (i j : Nat) :
    (swap l i j).Perm l := by
  by_cases hIn : i < l.length ∧ j < l.length
  · rcases hIn with ⟨hi, hj⟩
    have hArray := Array.perm_iff_toList_perm.mp
      (@Array.swap_perm _ l.toArray i j hi hj)
    rw [Array.toList_swap] at hArray
    rw [swap_of_lt hi hj]
    simpa using hArray
  · have hNone : l[i]? = none ∨ l[j]? = none := by
      rcases Decidable.not_and_iff_or_not.mp hIn with hi | hj
      · exact Or.inl (List.getElem?_eq_none (Nat.le_of_not_lt hi))
      · exact Or.inr (List.getElem?_eq_none (Nat.le_of_not_lt hj))
    unfold swap
    rcases hNone with hi | hj
    · rw [hi]
    · rw [hj]
      cases l[i]? <;> exact List.Perm.refl l

end Swap

/- Less compares the keys of the two positions. -/
theorem less_of_getElem?
    {l : List α}
    {i j : Nat}
    {a b : α}
    (ha : l[i]? = some a)
    (hb : l[j]? = some b) :
    less key l i j = decide (key a < key b) := by
  simp [less, ha, hb]

/-
  Where less holds of two positions of the list, their
  elements are there, in that order.
-/
theorem lt_of_less
    {l : List α}
    {i j : Nat}
    (hi : i < l.length)
    (hj : j < l.length)
    (hLess : less key l j i = true) :
    ∃ a b, l[i]? = some a ∧ l[j]? = some b ∧
      key b < key a := by
  have ha := List.getElem?_eq_getElem hi
  have hb := List.getElem?_eq_getElem hj
  refine ⟨_, _, ha, hb, ?_⟩
  rw [less_of_getElem? key hb ha] at hLess
  exact of_decide_eq_true hLess

variable {key}

/- up only swaps, so it permutes the list. -/
theorem up_perm
    (l : List α)
    (j : Nat) :
    (up key l j).Perm l := by
  fun_induction up key l j with
  | case1 l j _ => exact List.Perm.refl l
  | case2 l j _ ih => exact ih.trans (swap_perm l _ _)

/- The loop of down only swaps, so it permutes the list. -/
theorem sink_perm
    (l : List α)
    (i n : Nat) :
    (sink key l i n).1.Perm l := by
  fun_induction sink key l i n with
  | case1 l i _ _ => exact List.Perm.refl l
  | case2 l i _ _ _ _ => exact List.Perm.refl l
  | case3 l i _ _ j _ ih => exact ih.trans (swap_perm l i j)

end Heap

------------------------------------------------------------
-- Ordered Pairs
------------------------------------------------------------

namespace Heap

variable {α β : Type}
variable [LinearOrder β]
variable (key : α → β)

/-
  Every position c of the first n but the root and those
  `skip` names holds an element no less than its parent's.
-/
def OrderedExcept
    (l : List α)
    (n : Nat)
    (skip : Nat → Prop) : Prop :=
  ∀ c, 0 < c → c < n → ¬ skip c →
    ∀ a b, l[parent c]? = some a →
      l[c]? = some b → key a ≤ key b

/- The heap property: no element is below its parent's. -/
def IsHeap (l : List α) : Prop :=
  OrderedExcept key l l.length (fun _ => False)

variable {key}

/- Skipping more pairs asks for less. -/
theorem OrderedExcept.mono
    {l : List α}
    {n : Nat}
    {skip skip' : Nat → Prop}
    (h : OrderedExcept key l n skip)
    (hSkip : ∀ c, 0 < c → skip c → skip' c) :
    OrderedExcept key l n skip' :=
  fun c hc hn hNot => h c hc hn (fun hs =>
    hNot (hSkip c hc hs))

/- Fewer positions ask for less. -/
theorem OrderedExcept.of_le
    {l : List α}
    {n m : Nat}
    {skip : Nat → Prop}
    (h : OrderedExcept key l n skip)
    (hm : m ≤ n) :
    OrderedExcept key l m skip :=
  fun c hc hcm => h c hc (Nat.lt_of_lt_of_le hcm hm)

/-
  The root holds a least element: along the parents down to
  any position the keys do not decrease (strong induction on
  the position, through its parent).
-/
theorem IsHeap.root_le
    {l : List α}
    {x : α}
    (h : IsHeap key l)
    (hRoot : l[0]? = some x) :
    ∀ y ∈ l, key x ≤ key y := by
  have hAt : ∀ (c : Nat) y, l[c]? = some y →
    key x ≤ key y := by
    intro c
    induction c using Nat.strongRecOn with
    | _ c ih =>
        intro y hy
        rcases Nat.eq_zero_or_pos c with rfl | hc
        · rw [hRoot] at hy
          cases hy
          exact le_refl _
        · have hLt : c < l.length :=
            (List.getElem?_eq_some_iff.mp hy).1
          have hParent : parent c < c := parent_lt hc
          have hUp := ih (parent c) hParent l[parent c]
            (List.getElem?_eq_getElem (Nat.lt_trans hParent hLt))
          exact le_trans hUp (h c hc hLt id _ _
            (List.getElem?_eq_getElem
              (Nat.lt_trans hParent hLt)) hy)
  intro y hy
  rcases List.mem_iff_getElem?.mp hy with ⟨c, hc⟩
  exact hAt c y hc

end Heap

------------------------------------------------------------
-- Sifting Up
------------------------------------------------------------

namespace Heap

variable {α β : Type}
variable [LinearOrder β]
variable (key : α → β)

/-
  What up needs at j: every pair but j's own is in order,
  and j's children are no less than j's parent.
-/
structure UpInv
    (l : List α)
    (n j : Nat) : Prop where
  len : n ≤ l.length
  lt : j < n
  except : OrderedExcept key l n (· = j)
  grand : 0 < j → ∀ c, 0 < c → c < n → parent c = j →
    ∀ a b, l[parent j]? = some a →
      l[c]? = some b → key a ≤ key b

variable {key}

/-
  A swap with the parent puts j's pair in order and hands
  the hole on to the parent: the parent's old element moves
  down below j's children, and j's element moves up above
  its sibling.
-/
theorem UpInv.swap
    {l : List α}
    {n j : Nat}
    (h : UpInv key l n j)
    (hj : 0 < j)
    (hLess : less key l j (parent j) = true) :
    UpInv key (swap l (parent j) j) n (parent j) := by
  have hParent := parent_lt hj
  have hjl : j < l.length := Nat.lt_of_lt_of_le h.lt h.len
  have hi : parent j < l.length := Nat.lt_trans hParent hjl
  obtain ⟨a, b, ha, hb, hba⟩ := lt_of_less key hi hjl hLess
  have hAbove : 0 < parent j → ∀ x,
    l[parent (parent j)]? = some x → key x ≤ key a :=
    fun hi0 x hx => h.except (parent j) hi0
      (Nat.lt_trans hParent h.lt)
      (Nat.ne_of_lt hParent) x a hx ha
  refine ⟨by simpa using h.len,
    Nat.lt_trans hParent h.lt, ?_, ?_⟩
  · intro c hc hcn hci x y hx hy
    have hcNe : c ≠ parent j := hci
    by_cases hcj : c = j
    · subst hcj
      rw [getElem?_swap_left hi hjl, hb] at hx
      rw [getElem?_swap_right hi hjl, ha] at hy
      cases hx
      cases hy
      exact le_of_lt hba
    · rw [getElem?_swap_of_ne hi hjl hcNe hcj] at hy
      by_cases hpj : parent c = j
      · rw [hpj, getElem?_swap_right hi hjl, ha] at hx
        cases hx
        exact h.grand hj c hc hcn hpj _ y ha hy
      · by_cases hpi : parent c = parent j
        · rw [hpi, getElem?_swap_left hi hjl, hb] at hx
          cases hx
          have hSib :=
            h.except c hc hcn hcj a y (hpi ▸ ha) hy
          exact le_of_lt (lt_of_lt_of_le hba hSib)
        · rw [getElem?_swap_of_ne hi hjl hpi hpj] at hx
          exact h.except c hc hcn hcj x y hx hy
  · intro hi0 c hc hcn hpc x y hx hy
    have hGrand := parent_lt hi0
    rw [getElem?_swap_of_ne hi hjl (Nat.ne_of_lt hGrand)
      (Nat.ne_of_lt (Nat.lt_trans hGrand hParent))] at hx
    have hxa := hAbove hi0 x hx
    by_cases hcj : c = j
    · subst hcj
      rw [getElem?_swap_right hi hjl, ha] at hy
      cases hy
      exact hxa
    · have hcNe : c ≠ parent j := by
        have := parent_lt hc
        omega
      rw [getElem?_swap_of_ne hi hjl hcNe hcj] at hy
      exact le_trans hxa (h.except c hc hcn hcj a y (hpc ▸ ha) hy)

/-
  Where up stops, at the root or below no parent, every pair
  is in order.
-/
theorem UpInv.stop
    {l : List α}
    {n j : Nat}
    (h : UpInv key l n j)
    (hStop : parent j = j ∨
      less key l j (parent j) = false) :
    OrderedExcept key l n (fun _ => False) := by
  intro c hc hcn _ x y hx hy
  by_cases hcj : c = j
  · subst hcj
    rcases hStop with hRoot | hNotLess
    · exact absurd hRoot (Nat.ne_of_lt (parent_lt hc))
    · rw [less_of_getElem? key hy hx] at hNotLess
      exact not_lt.mp (of_decide_eq_false hNotLess)
  · exact h.except c hc hcn hcj x y hx hy

/-
  up orders every pair of the first n from UpInv, and leaves
  the positions after j.
-/
theorem up_spec
    {l : List α}
    {n j : Nat}
    (h : UpInv key l n j) :
    OrderedExcept key (up key l j) n (fun _ => False) ∧
      ∀ k, j < k → (up key l j)[k]? = l[k]? := by
  fun_induction up key l j with
  | case1 l j hStop =>
      exact ⟨h.stop hStop, fun _ _ => rfl⟩
  | case2 l j hMove ih =>
      rcases not_or.mp hMove with ⟨hNotRoot, hLess⟩
      have hj : 0 < j := by
        unfold parent at hNotRoot
        omega
      have hjl : j < l.length :=
        Nat.lt_of_lt_of_le h.lt h.len
      have hi : parent j < l.length :=
        Nat.lt_trans (parent_lt hj) hjl
      rcases ih (h.swap hj (Bool.not_eq_false _ ▸ hLess))
        with ⟨hOrd, hFrame⟩
      refine ⟨hOrd, ?_⟩
      intro k hk
      have hParent := parent_lt hj
      rw [hFrame k (Nat.lt_trans hParent hk)]
      exact getElem?_swap_of_ne hi hjl (by omega) (by omega)

end Heap

------------------------------------------------------------
-- Sifting Down
------------------------------------------------------------

namespace Heap

variable {α β : Type}
variable [LinearOrder β]
variable (key : α → β)

/-
  What the loop of down needs at i, when it started at i0
  and the pairs whose parent is below lo are none of its
  business: every other pair is in order but those of i with
  its children, and i's own while i is still i0; and i's
  children are no less than i's parent.
-/
structure SinkInv
    (l : List α)
    (n lo i0 i : Nat) : Prop where
  len : n ≤ l.length
  start : lo ≤ i0 ∧ i0 ≤ i
  except : OrderedExcept key l n (fun c => parent c < lo ∨
    parent c = i ∨ (c = i ∧ i = i0))
  grand : 0 < i → lo ≤ parent i → ∀ c, 0 < c →
    c < n → parent c = i →
    ∀ a b, l[parent i]? = some a →
      l[c]? = some b → key a ≤ key b

variable {key}

theorem parent_minChild
    (l : List α)
    (i n : Nat) :
    parent (minChild key l (2 * i + 1) n) = i := by
  unfold minChild parent
  split <;> omega

/-
  The child down picks is no greater than any child of i.
-/
theorem minChild_le
    {l : List α}
    {i n : Nat}
    {c : Nat}
    (hc : 0 < c)
    (hcn : c < n)
    (hpc : parent c = i)
    {x y : α}
    (hx : l[minChild key l (2 * i + 1) n]? = some x)
    (hy : l[c]? = some y) :
    key x ≤ key y := by
  have hChild : c = 2 * i + 1 ∨ c = 2 * i + 2 := by
    unfold parent at hpc
    omega
  unfold minChild at hx
  split at hx
  · rename_i hRight
    rcases hChild with rfl | rfl
    · rw [less_of_getElem? key hx hy] at hRight
      exact le_of_lt (of_decide_eq_true hRight.2)
    · rw [hx] at hy
      cases hy
      exact le_refl _
  · rename_i hLeft
    rcases hChild with rfl | rfl
    · rw [hx] at hy
      cases hy
      exact le_refl _
    · have hNotLess : less key l (2 * i + 1 + 1) (2 * i +
        1) = false := by
        simpa [hcn] using hLeft
      rw [less_of_getElem? key hy hx] at hNotLess
      exact not_lt.mp (of_decide_eq_false hNotLess)

/-
  A swap with the lesser child puts i's pairs in order and
  hands the hole on to that child: its element moves up
  above its sibling and under i's parent, and i's old
  element moves down.
-/
theorem SinkInv.swap
    {l : List α}
    {n lo i0 i : Nat}
    (h : SinkInv key l n lo i0 i)
    (hj1 : 2 * i + 1 < n)
    (hLess : less key l (minChild key l (2 * i + 1) n) i = true) :
    SinkInv key (swap l i (minChild key l (2 * i + 1) n)) n lo i0
      (minChild key l (2 * i + 1) n) := by
  have hBounds := minChild_bounds key l (2 * i + 1) n
  have hParent : parent (minChild key l (2 * i + 1) n) =
    i := parent_minChild l i n
  have hMin : ∀ c, 0 < c → c < n → parent c = i → ∀ x y,
      l[minChild key l (2 * i + 1) n]? = some x →
        l[c]? = some y → key x ≤ key y :=
    fun _ hc hcn hpc _ _ hx hy =>
      minChild_le hc hcn hpc hx hy
  generalize minChild key l (2 * i + 1) n =
    j at hBounds hParent hLess hMin ⊢
  have hjn : j < n := hBounds.2 hj1
  have hjl : j < l.length := Nat.lt_of_lt_of_le hjn h.len
  have hil : i < l.length := by omega
  obtain ⟨a, b, ha, hb, hba⟩ := lt_of_less key hil hjl hLess
  have hStart := h.start
  refine ⟨by simpa using h.len, ⟨hStart.1,
    by omega⟩, ?_, ?_⟩
  · intro c hc hcn hSkip x y hx hy
    have hLo : lo ≤ parent c := Nat.le_of_not_lt (fun hlt =>
      hSkip (Or.inl hlt))
    have hpj : parent c ≠ j := fun heq =>
      hSkip (Or.inr (Or.inl heq))
    by_cases hcj : c = j
    · subst hcj
      rw [hParent, getElem?_swap_left hil hjl, hb] at hx
      rw [getElem?_swap_right hil hjl, ha] at hy
      cases hx
      cases hy
      exact le_of_lt hba
    · by_cases hci : c = i
      · rw [hci] at hx hy hLo
        have hi0 : 0 < i := hci ▸ hc
        have hAbove := parent_lt hi0
        rw [getElem?_swap_of_ne hil hjl
          (Nat.ne_of_lt hAbove) (by omega)] at hx
        rw [getElem?_swap_left hil hjl, hb] at hy
        cases hy
        exact h.grand hi0 hLo j (by omega) hjn hParent x _ hx hb
      · rw [getElem?_swap_of_ne hil hjl hci hcj] at hy
        by_cases hpi : parent c = i
        · rw [hpi, getElem?_swap_left hil hjl, hb] at hx
          cases hx
          exact hMin c hc hcn hpi _ y hb hy
        · rw [getElem?_swap_of_ne hil hjl hpi hpj] at hx
          refine h.except c hc hcn ?_ x y hx hy
          show ¬ (parent c < lo ∨ parent c = i ∨
            (c = i ∧ i = i0))
          omega
  · intro hj0 _ c hc hcn hpc x y hx hy
    have hcj : j < c := by
      have := parent_lt hc
      omega
    rw [hParent, getElem?_swap_left hil hjl, hb] at hx
    cases hx
    rw [getElem?_swap_of_ne hil hjl (by omega) (by omega)] at hy
    refine h.except c hc hcn ?_ _ y (hpc ▸ hb) hy
    show ¬ (parent c < lo ∨ parent c = i ∨ (c = i ∧ i = i0))
    omega

/-
  Where the loop of down stops, i's pairs with its children
  are in order as well.
-/
theorem SinkInv.stop
    {l : List α}
    {n lo i0 i : Nat}
    (h : SinkInv key l n lo i0 i)
    (hStop : 2 * i + 1 ≥ n ∨ less key l (minChild key l (2 *
      i + 1) n) i = false) :
    OrderedExcept key l n (fun c => parent c < lo ∨
      (c = i ∧ i = i0)) := by
  intro c hc hcn hSkip x y hx hy
  by_cases hpc : parent c = i
  · have hChild : 2 * i + 1 ≤ c := by
      unfold parent at hpc
      omega
    rcases hStop with hEnd | hNotLess
    · omega
    · have hBounds := minChild_bounds key l (2 * i + 1) n
      have hjl : minChild key l (2 * i + 1) n < l.length :=
        Nat.lt_of_lt_of_le (hBounds.2 (by omega)) h.len
      rcases (⟨_, List.getElem?_eq_getElem hjl⟩ :
        ∃ b, l[minChild key l (2 * i + 1) n]? =
          some b) with ⟨b, hb⟩
      rw [hpc] at hx
      rw [less_of_getElem? key hb hx] at hNotLess
      exact le_trans (not_lt.mp (of_decide_eq_false
        hNotLess)) (minChild_le hc hcn hpc hb hy)
  · refine h.except c hc hcn ?_ x y hx hy
    have hKept : ¬ (parent c < lo ∨ (c = i ∧
      i = i0)) := hSkip
    show ¬ (parent c < lo ∨ parent c = i ∨ (c = i ∧ i = i0))
    omega

/-
  The loop of down ends with every pair of the first n in
  order but those below lo, and i0's own if the element
  stayed there; it leaves the positions before i and from n
  on.
-/
theorem sink_spec
    {l : List α}
    {n lo i0 i : Nat}
    (h : SinkInv key l n lo i0 i) :
    OrderedExcept key (sink key l i n).1 n
        (fun c => parent c < lo ∨ (c = (sink key l i n).2 ∧
          (sink key l i n).2 = i0)) ∧
      (∀ k, k < i ∨ n ≤ k →
        (sink key l i n).1[k]? = l[k]?) ∧
      ((sink key l i n).2 = i → (sink key l i n).1 = l) ∧
        i ≤ (sink key l i n).2 := by
  fun_induction sink key l i n with
  | case1 l i j1 hEnd =>
      exact ⟨h.stop (Or.inl hEnd), fun _ _ => rfl, fun _ =>
        rfl, Nat.le_refl i⟩
  | case2 l i j1 hj1 j hNotLess =>
      exact ⟨h.stop (Or.inr hNotLess), fun _ _ => rfl,
        fun _ => rfl, Nat.le_refl i⟩
  | case3 l i j1 hj1 j hLess ih =>
      have hj1v : j1 = 2 * i + 1 := rfl
      have hBounds : j1 ≤ j ∧ (j1 < n → j < n) :=
        minChild_bounds key l j1 n
      have hjl : j < l.length :=
        Nat.lt_of_lt_of_le (hBounds.2 (by omega)) h.len
      have hil : i < l.length := by omega
      have hMove : less key l j i = true :=
        by simpa using hLess
      rcases ih (h.swap (by omega) hMove)
        with ⟨hOrd, hFrame, -, hLe⟩
      refine ⟨hOrd, ?_, ?_, ?_⟩
      · intro k hk
        rw [hFrame k (by omega)]
        exact getElem?_swap_of_ne hil hjl (by omega) (by omega)
      · intro hStay
        omega
      · omega

end Heap

------------------------------------------------------------
-- The Operations
------------------------------------------------------------

namespace Heap

variable {α β : Type}
variable [LinearOrder β]
variable {key : α → β}

theorem down_fst
    (l : List α)
    (i0 n : Nat) :
    (down key l i0 n).1 = (sink key l i0 n).1 :=
  rfl

theorem down_snd
    (l : List α)
    (i0 n : Nat) :
    (down key l i0 n).2 =
      decide ((sink key l i0 n).2 > i0) :=
  rfl

section PopBack

variable {l : List α}
variable {x : α}

/-
  Go's h.Pop() takes the last element, and what is before it
  stays in place.
-/
theorem popBack_of_getElem?
    (hx : l[l.length - 1]? = some x) :
    popBack l = some (x, l.dropLast) := by
  simp [popBack, List.getLast?_eq_getElem?, hx]

theorem perm_cons_dropLast
    (hx : l[l.length - 1]? = some x) :
    (x :: l.dropLast).Perm l := by
  have hLast : l.getLast? = some x := by
    rw [List.getLast?_eq_getElem?, hx]
  have hSplit := List.dropLast_append_getLast? x hLast
  calc (x :: l.dropLast).Perm (l.dropLast ++ [x]) :=
    (List.perm_append_singleton x _).symm
    _ = l := hSplit

/-
  A pop shortens the list by one, so the loops that pop
  until a test fails end.
-/
theorem length_of_Pop
    {l l' : List α}
    {x : α}
    (h : Pop key l = some (x, l')) :
    l'.length + 1 = l.length := by
  unfold Pop popBack at h
  split at h
  · cases h
  · rename_i hl
    have hPos : 0 < l.length := List.length_pos_iff.mpr hl
    have hLen : (down key (swap l 0 (l.length -
      1)) 0 (l.length - 1)).1.length = l.length := by
      rw [down_fst,
        (sink_perm _ _ _).length_eq, length_swap]
    split at h
    · cases h
      rw [List.length_dropLast, hLen]
      omega
    · cases h

/-
  A list in order over all positions but the last is a heap
  without it.
-/
theorem isHeap_dropLast
    (h : OrderedExcept key l (l.length - 1) (fun _ => False)) :
    IsHeap key l.dropLast := by
  intro c hc hcn _ a b ha hb
  have hParent := parent_lt hc
  rw [List.length_dropLast] at hcn
  rw [List.getElem?_dropLast, if_pos (by omega)] at ha
  rw [List.getElem?_dropLast, if_pos hcn] at hb
  exact h c hc hcn id a b ha hb

end PopBack

/-
  The loop of Init from k: the pairs whose parent is at k or
  above are in order, and down from k - 1 extends that to k
  - 1.
-/
theorem heapify_spec
    {n : Nat} :
    ∀ (k : Nat) (l : List α), n = l.length →
      OrderedExcept key l n (fun c => parent c < k) →
      OrderedExcept key (heapify key l n k) n (fun _ =>
        False) ∧ (heapify key l n k).Perm l := by
  intro k
  induction k with
  | zero =>
      intro l _ h
      exact ⟨h.mono (fun c _ hlt => Nat.not_lt_zero _ hlt),
        List.Perm.refl l⟩
  | succ k ih =>
      intro l hn h
      have hInv : SinkInv key l n k k k := by
        refine ⟨Nat.le_of_eq hn, ⟨Nat.le_refl k,
          Nat.le_refl k⟩, ?_, ?_⟩
        · refine h.mono (fun c _ hSkip => ?_)
          have hlt : parent c < k + 1 := hSkip
          show parent c < k ∨ parent c = k ∨ (c = k ∧ k = k)
          omega
        · intro hk hLo
          exact absurd hLo (Nat.not_le_of_lt (parent_lt hk))
      rcases sink_spec hInv with ⟨hOrd, -, -, -⟩
      have hPerm : (sink key l k n).1.Perm l :=
        sink_perm l k n
      have hLen : (down key l k n).1.length = l.length := by
        rw [down_fst]
        exact hPerm.length_eq
      have hNext : OrderedExcept key (down key l k n).1 n
        (fun c => parent c < k) := by
        rw [down_fst]
        refine hOrd.mono (fun c hc hSkip => ?_)
        rcases hSkip with hlt | ⟨rfl, hAt⟩
        · exact hlt
        · rw [hAt] at hc ⊢
          exact parent_lt hc
      rcases ih (down key l k n).1
        (hn.trans hLen.symm) hNext with ⟨hHeap, hPerm'⟩
      rw [down_fst] at hPerm'
      exact ⟨hHeap, hPerm'.trans hPerm⟩

/- heap.Init makes a heap of any list, by a permutation. -/
theorem Init_spec
    (l : List α) :
    IsHeap key (Init key l) ∧ (Init key l).Perm l := by
  have hStart : OrderedExcept key l l.length (fun c =>
    parent c < l.length / 2) := by
    intro c hc hcn hSkip
    unfold parent at hSkip
    omega
  rcases heapify_spec (l.length / 2) l rfl hStart
    with ⟨hOrd, hPerm⟩
  refine ⟨?_, hPerm⟩
  unfold IsHeap Init
  rw [hPerm.length_eq]
  exact hOrd

/- heap.Push keeps a heap, and adds the element. -/
theorem Push_spec
    {l : List α}
    (h : IsHeap key l)
    (x : α) :
    IsHeap key (Push key l x) ∧ (Push key l x).Perm
      (l ++ [x]) := by
  have hInv : UpInv key (l ++ [x]) (l.length + 1) l.length := by
    refine ⟨by simp, Nat.lt_succ_self _, ?_, ?_⟩
    · intro c hc hcn hcl a b ha hb
      have hcLt : c < l.length := by
        have : c ≠ l.length := hcl
        omega
      rw [List.getElem?_append_left (Nat.lt_trans
        (parent_lt hc) hcLt)] at ha
      rw [List.getElem?_append_left hcLt] at hb
      exact h c hc hcLt id a b ha hb
    · intro hl c _ hcn hpc
      unfold parent at hpc
      omega
  have hPerm : (up key (l ++ [x]) l.length).Perm (l ++
    [x]) := up_perm (l ++ [x]) l.length
  refine ⟨?_, hPerm⟩
  unfold IsHeap Push
  rw [hPerm.length_eq, List.length_append,
    List.length_singleton]
  exact (up_spec hInv).1

/-
  What Pop and Remove end with: a permutation of the heap,
  in order but for its last position, which holds x; popping
  x leaves a heap.
-/
theorem popBack_spec
    {l L : List α}
    {x : α}
    (hPerm : L.Perm l)
    (hOrd : OrderedExcept key L (l.length - 1) (fun _ => False))
    (hx : L[l.length - 1]? = some x) :
    popBack L = some (x, L.dropLast) ∧
      (x :: L.dropLast).Perm l ∧ IsHeap key L.dropLast := by
  rw [← hPerm.length_eq] at hOrd hx
  exact ⟨popBack_of_getElem? hx,
    (perm_cons_dropLast hx).trans hPerm,
    isHeap_dropLast hOrd⟩

/-
  heap.Pop takes the root off a heap, a least element, and
  keeps the rest a heap: after the swap only the root's
  pairs are out of order, down from the root orders them,
  and the old root waits at the end, past the positions down
  touches.
-/
theorem Pop_spec
    {l : List α}
    (h : IsHeap key l)
    (hl : l ≠ []) :
    ∃ x l', Pop key l = some (x, l') ∧ l[0]? = some x ∧
      (x :: l').Perm l ∧ IsHeap key l' := by
  have h0 : 0 < l.length := List.length_pos_iff.mpr hl
  have hn : l.length - 1 < l.length := by omega
  rcases (⟨_, List.getElem?_eq_getElem h0⟩ : ∃ x,
    l[0]? = some x) with ⟨x, hx⟩
  have hInv : SinkInv key (swap l 0 (l.length -
    1)) (l.length - 1) 0 0 0 := by
    refine ⟨by simp, ⟨Nat.le_refl 0, Nat.le_refl 0⟩, ?_, ?_⟩
    · intro c hc hcn hSkip a b ha hb
      have hKept : ¬ (parent c < 0 ∨ parent c = 0 ∨ (c = 0 ∧
        0 = 0)) := hSkip
      have hParent := parent_lt hc
      rw [getElem?_swap_of_ne h0 hn (by omega) (by omega)] at ha
      rw [getElem?_swap_of_ne h0 hn (by omega) (by omega)] at hb
      exact h c hc (by omega) id a b ha hb
    · intro h00
      exact absurd h00 (Nat.lt_irrefl 0)
  rcases sink_spec hInv with ⟨hOrd, hFrame, -, -⟩
  have hPerm : (sink key (swap l 0 (l.length -
    1)) 0 (l.length - 1)).1.Perm (swap l 0 (l.length - 1)) :=
    sink_perm (swap l 0 (l.length - 1)) 0 (l.length - 1)
  have hLast : (sink key (swap l 0 (l.length -
    1)) 0 (l.length - 1)).1[l.length - 1]? = some x := by
    rw [hFrame (l.length - 1) (Or.inr (Nat.le_refl _)),
      getElem?_swap_right h0 hn, hx]
  have hRoot : OrderedExcept key (sink key (swap l 0
    (l.length - 1)) 0 (l.length - 1)).1
      (l.length - 1) (fun _ => False) := by
    refine hOrd.mono (fun c hc hSkip => ?_)
    rcases hSkip with hlt | ⟨hAt, hStay⟩
    · exact Nat.not_lt_zero _ hlt
    · rw [hAt, hStay] at hc
      exact Nat.lt_irrefl 0 hc
  rcases popBack_spec (hPerm.trans
    (swap_perm l _ _)) hRoot hLast
    with ⟨hPop, hPerm', hHeap⟩
  refine ⟨x, _, ?_, hx, hPerm', hHeap⟩
  rw [Pop, if_neg hl, down_fst, hPop]

/-
  From i, down and else up: if down moved the element every
  pair is in order, and if it did not, up takes it from i.
  Positions from n on stay.
-/
theorem downUp_spec
    {l : List α}
    {n i : Nat}
    (h : SinkInv key l n 0 i i)
    (hi : i < n) :
    OrderedExcept key (if (down key l i n).2
      then (down key l i n).1
        else up key (down key l i n).1 i)
        n (fun _ => False) ∧
      (if (down key l i n).2
        then (down key l i n).1 else up key
          (down key l i n).1 i).Perm l ∧
      ∀ k, n ≤ k →
        (if (down key l i n).2
          then (down key l i n).1
            else up key (down key l i n).1 i)[k]? = l[k]? := by
  rcases sink_spec h with ⟨hOrd, hFrame, hStay, hLe⟩
  have hPerm : (sink key l i n).1.Perm l := sink_perm l i n
  rw [down_fst, down_snd]
  by_cases hMoved : (sink key l i n).2 > i
  · rw [if_pos (decide_eq_true hMoved)]
    refine ⟨hOrd.mono (fun c _ hSkip => ?_), hPerm,
      fun k hk => hFrame k (Or.inr hk)⟩
    rcases hSkip with hlt | ⟨-, hAt⟩
    · exact Nat.not_lt_zero _ hlt
    · omega
  · rw [if_neg (by simpa using hMoved)]
    have hAt : (sink key l i n).2 = i := by omega
    have hSame := hStay hAt
    rw [hAt] at hOrd
    rw [hSame] at hOrd ⊢
    have hUp : UpInv key l n i := by
      refine ⟨h.len, hi, hOrd.mono (fun c _ hSkip => ?_),
        fun hi0 => h.grand hi0 (Nat.zero_le _)⟩
      rcases hSkip with hlt | ⟨hc, -⟩
      · exact absurd hlt (Nat.not_lt_zero _)
      · exact hc
    rcases up_spec hUp with ⟨hOrd', hFrame'⟩
    exact ⟨hOrd', up_perm l i, fun k hk =>
      hFrame' k (by omega)⟩

/-
  heap.Remove takes the element at i off a heap and keeps
  the rest a heap: the last element moved to i may be out of
  order with i's parent or i's children, but not i's
  children with i's parent, and down or else up puts it in
  place.
-/
theorem Remove_spec
    {l : List α}
    (h : IsHeap key l)
    {i : Nat}
    (hi : i < l.length) :
    ∃ x l', Remove key l i = some (x, l') ∧ l[i]? = some x ∧
      (x :: l').Perm l ∧ IsHeap key l' := by
  rcases (⟨_, List.getElem?_eq_getElem hi⟩ : ∃ x,
    l[i]? = some x) with ⟨x, hx⟩
  by_cases hLast : l.length - 1 = i
  · have hxLast : l[l.length - 1]? = some x := hLast ▸ hx
    rcases popBack_spec (List.Perm.refl l) (h.of_le
      (Nat.sub_le _ _)) hxLast with
      ⟨hPop, hPerm, hHeap⟩
    refine ⟨x, l.dropLast, ?_, hx, hPerm, hHeap⟩
    simp only [Remove, if_neg (Nat.not_le_of_lt hi), ne_eq,
      hLast, not_true_eq_false, if_false]
    exact hPop
  · have hn : l.length - 1 < l.length := by omega
    have hin : i < l.length - 1 := by omega
    have hInv : SinkInv key (swap l i (l.length -
      1)) (l.length - 1) 0 i i := by
      refine ⟨by simp, ⟨Nat.zero_le i,
        Nat.le_refl i⟩, ?_, ?_⟩
      · intro c hc hcn hSkip a b ha hb
        have hKept : ¬ (parent c < 0 ∨ parent c = i ∨
          (c = i ∧ i = i)) := hSkip
        have hParent := parent_lt hc
        rw [getElem?_swap_of_ne hi hn (by omega) (by omega)] at ha
        rw [getElem?_swap_of_ne hi hn (by omega) (by omega)] at hb
        exact h c hc (by omega) id a b ha hb
      · intro hi0 _ c hc hcn hpc a b ha hb
        have hParent := parent_lt hi0
        have hChild := parent_lt hc
        rw [getElem?_swap_of_ne hi hn (by omega) (by omega)] at ha
        rw [getElem?_swap_of_ne hi hn (by omega) (by omega)] at hb
        exact le_trans (h i hi0 hi id a x ha hx) (h c hc
          (by omega) id x b (hpc ▸ hx) hb)
    rcases downUp_spec hInv hin with ⟨hOrd, hPerm, hFrame⟩
    have hxLast := hFrame (l.length - 1) (Nat.le_refl _)
    rw [getElem?_swap_right hi hn, hx] at hxLast
    rcases popBack_spec (hPerm.trans
      (swap_perm l _ _)) hOrd hxLast
      with ⟨hPop, hPerm', hHeap⟩
    refine ⟨x, _, ?_, hx, hPerm', hHeap⟩
    simp only [Remove, if_neg (Nat.not_le_of_lt hi), ne_eq,
      hLast, not_false_eq_true, if_true]
    exact hPop

/-
  heap.Fix restores a heap whose element at i changed: the
  pairs of i may be out of order, so long as i's children
  are no less than i's parent.
-/
theorem Fix_spec
    {l : List α}
    {i : Nat}
    (hi : i < l.length)
    (hExcept : OrderedExcept key l l.length (fun c =>
      c = i ∨ parent c = i))
    (hGrand : 0 < i → ∀ c, 0 < c →
      c < l.length → parent c = i →
      ∀ a b, l[parent i]? = some a → l[c]? = some b →
        key a ≤ key b) :
    IsHeap key (Fix key l i) ∧ (Fix key l i).Perm l := by
  have hInv : SinkInv key l l.length 0 i i := by
    refine ⟨Nat.le_refl _, ⟨Nat.zero_le i, Nat.le_refl i⟩,
      ?_, fun hi0 _ => hGrand hi0⟩
    refine hExcept.mono (fun c _ hSkip => ?_)
    rcases hSkip with hc | hpc
    · exact Or.inr (Or.inr ⟨hc, rfl⟩)
    · exact Or.inr (Or.inl hpc)
  rcases downUp_spec hInv hi with ⟨hOrd, hPerm, -⟩
  refine ⟨?_, hPerm⟩
  unfold IsHeap Fix
  rw [hPerm.length_eq]
  exact hOrd

end Heap
