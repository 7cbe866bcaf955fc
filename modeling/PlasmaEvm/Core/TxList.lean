import PlasmaEvm.Core.Types.Transaction
import PlasmaEvm.Data.ListFilter
import Mathlib.Order.MinMax

/-
  The per-account transaction lists of `core/tx_list.go`.

  A `txSortedMap` is modelled by its content read in nonce
  order, the order `Flatten` returns: a list of transactions
  with strictly increasing nonces, the invariant carried as
  a field.  A `txList` adds the strict flag and the cost and
  gas caps of the code.

  Key definitions include:
    * `TxSortedMap` and its `Put`, `Forward`, `Filter`,
      `Cap`, `Remove`, `Ready`
    * `TxList` and its `Add`, `Filter`, `Remove`
    * `Contiguous`

  Key statements include:
    * `TxList.Filter_removed_eq`
    * `TxList.mem_Filter_invalids`
    * `TxList.Filter_remaining_contiguous`
-/

------------------------------------------------------------
-- Nonce-Sorted Maps
------------------------------------------------------------

namespace PlasmaEvm

namespace Core

open PlasmaEvm.Types

/- Strictly increasing nonces. -/
def NonceSorted (txs : List Transaction) : Prop :=
  txs.Pairwise (fun a b => a.nonce < b.nonce)

/-
  `txSortedMap`: the transactions of its `items`, one per
  nonce, in increasing nonce order.
-/
structure TxSortedMap where
  items : List Transaction
  sorted : NonceSorted items

/- `newTxSortedMap()`. -/
def newTxSortedMap : TxSortedMap :=
  ⟨[], List.Pairwise.nil⟩

namespace TxSortedMap

/- `Get(nonce)`. -/
def Get
    (m : TxSortedMap)
    (nonce : Nat) :
    Option Transaction :=
  m.items.find? (fun tx => tx.nonce == nonce)

/-
  Insert by nonce, overwriting a transaction of equal nonce.
-/
def putNonce
    (tx : Transaction) :
    List Transaction → List Transaction
  | [] => [tx]
  | t :: rest =>
      if tx.nonce < t.nonce then tx :: t :: rest
      else if tx.nonce = t.nonce then tx :: rest
      else t :: putNonce tx rest

/-
  Every element after an insertion was inserted or was
  there.
-/
theorem mem_putNonce
    (tx t : Transaction)
    (txs : List Transaction)
    (hMem : t ∈ putNonce tx txs) :
    t = tx ∨ t ∈ txs := by
  induction txs with
  | nil =>
      simp only [putNonce, List.mem_singleton] at hMem
      exact Or.inl hMem
  | cons head rest ih =>
      unfold putNonce at hMem
      split at hMem
      · simpa using hMem
      · split at hMem
        · rcases List.mem_cons.mp hMem with hTx | hRest
          · exact Or.inl hTx
          · exact Or.inr (List.mem_cons_of_mem _ hRest)
        · rcases List.mem_cons.mp hMem with hHead | hRest
          · exact Or.inr (hHead ▸ List.mem_cons_self)
          · rcases ih hRest with hTx | hOld
            · exact Or.inl hTx
            · exact Or.inr (List.mem_cons_of_mem _ hOld)

/- Insertion by nonce keeps the nonces increasing. -/
theorem putNonce_sorted
    (tx : Transaction)
    (txs : List Transaction)
    (hSorted : NonceSorted txs) :
    NonceSorted (putNonce tx txs) := by
  induction txs with
  | nil => exact List.pairwise_singleton _ _
  | cons head rest ih =>
      rcases List.pairwise_cons.mp hSorted
        with ⟨hHead, hRest⟩
      unfold putNonce
      split
      · rename_i hLess
        refine List.Pairwise.cons ?_ hSorted
        intro t hMem
        rcases List.mem_cons.mp hMem with rfl | hRestMem
        · exact hLess
        · exact Nat.lt_trans hLess (hHead t hRestMem)
      · split
        · rename_i _ hEq
          refine List.Pairwise.cons ?_ hRest
          intro t hMem
          rw [hEq]
          exact hHead t hMem
        · rename_i hNotLess hNotEq
          refine List.Pairwise.cons ?_ (ih hRest)
          intro t hMem
          rcases mem_putNonce tx t rest hMem with rfl | hOld
          · omega
          · exact hHead t hOld

/- An inserted transaction is held. -/
theorem mem_putNonce_self
    (tx : Transaction)
    (txs : List Transaction) :
    tx ∈ putNonce tx txs := by
  induction txs with
  | nil => exact List.mem_singleton_self tx
  | cons head rest ih =>
      unfold putNonce
      split
      · exact List.mem_cons_self
      · split
        · exact List.mem_cons_self
        · exact List.mem_cons_of_mem _ ih

/- `Put(tx)`. -/
def Put
    (m : TxSortedMap)
    (tx : Transaction) :
    TxSortedMap :=
  ⟨putNonce tx m.items, putNonce_sorted tx m.items m.sorted⟩

/-
  `Forward(threshold)`: the transactions below the threshold
  are removed and returned, lowest nonce first.
-/
def Forward (m : TxSortedMap) (threshold : Nat) :
    List Transaction × TxSortedMap :=
  (m.items.filter (fun tx => tx.nonce < threshold),
    ⟨m.items.filter (fun tx => ¬ tx.nonce < threshold),
      m.sorted.filter _⟩)

/-
  `Filter(filter)`: the transactions the filter selects are
  removed and returned.
-/
def Filter
    (m : TxSortedMap)
    (filter : Transaction → Bool) :
    List Transaction × TxSortedMap :=
  (m.items.filter filter,
    ⟨m.items.filter (fun tx => !filter tx),
      m.sorted.filter _⟩)

/-
  `Cap(threshold)`: above `threshold` items the highest
  nonces are dropped, the highest first.
-/
def Cap (m : TxSortedMap) (threshold : Nat) :
    List Transaction × TxSortedMap :=
  if m.items.length ≤ threshold then ([], m)
  else
    ((m.items.drop threshold).reverse,
      ⟨m.items.take threshold,
        m.sorted.sublist (List.take_sublist _ _)⟩)

/- `Cap` keeps a prefix of the transactions. -/
theorem Cap_sublist
    (m : TxSortedMap)
    (threshold : Nat) :
    List.Sublist (m.Cap threshold).2.items m.items := by
  unfold Cap
  split
  · exact List.Sublist.refl _
  · exact List.take_sublist _ _

/- `Remove(nonce)`: whether a transaction was deleted. -/
def Remove
    (m : TxSortedMap)
    (nonce : Nat) :
    Bool × TxSortedMap :=
  if m.items.any (fun tx => tx.nonce == nonce) then
    (true, ⟨m.items.filter (fun tx => tx.nonce != nonce),
      m.sorted.filter _⟩)
  else (false, m)

/- `Remove` keeps a sub-list of the transactions. -/
theorem Remove_sublist
    (m : TxSortedMap)
    (nonce : Nat) :
    List.Sublist (m.Remove nonce).2.items m.items := by
  unfold Remove
  split
  · exact List.filter_sublist
  · exact List.Sublist.refl _

/-
  The run of consecutive nonces at the front of a list,
  starting at `next`, and what follows it.
-/
def consecutiveRun (next : Nat) :
    List Transaction → List Transaction × List Transaction
  | [] => ([], [])
  | tx :: rest =>
      if tx.nonce = next then
        let run := consecutiveRun (next + 1) rest
        (tx :: run.1, run.2)
      else ([], tx :: rest)

/- The run and its remainder split the list. -/
theorem consecutiveRun_append
    (next : Nat)
    (txs : List Transaction) :
    (consecutiveRun next txs).1 ++ (consecutiveRun next txs).2 =
      txs := by
  induction txs generalizing next with
  | nil => rfl
  | cons tx rest ih =>
      unfold consecutiveRun
      split
      · simp [ih]
      · rfl

/-
  `Ready(start)`: nothing when the lowest nonce is above
  `start`, otherwise the run of consecutive nonces from the
  lowest one.
-/
def Ready (m : TxSortedMap) (start : Nat) :
    List Transaction × TxSortedMap :=
  match hItems : m.items with
  | [] => ([], m)
  | first :: _ =>
      if start < first.nonce then ([], m)
      else
        let run := consecutiveRun first.nonce m.items
        (run.1,
          ⟨run.2,
            m.sorted.sublist (by
              rw [← consecutiveRun_append first.nonce m.items]
              exact List.sublist_append_right _ _)⟩)

/- `Ready` keeps what follows the run. -/
theorem Ready_sublist
    (m : TxSortedMap)
    (start : Nat) :
    List.Sublist (m.Ready start).2.items m.items := by
  unfold Ready
  split
  · exact List.Sublist.refl _
  · split
    · exact List.Sublist.refl _
    · rename_i first _ _ _
      have hSplit :=
        consecutiveRun_append first.nonce m.items
      have hRest :
          List.Sublist (consecutiveRun first.nonce m.items).2
            ((consecutiveRun first.nonce m.items).1 ++
              (consecutiveRun first.nonce m.items).2) :=
        List.sublist_append_right _ _
      rw [hSplit] at hRest
      exact hRest

/- `Len()`. -/
def Len (m : TxSortedMap) : Nat :=
  m.items.length

/- `Flatten()`: the transactions in nonce order. -/
def Flatten (m : TxSortedMap) : List Transaction :=
  m.items

end TxSortedMap

end Core

end PlasmaEvm

------------------------------------------------------------
-- Transaction Lists
------------------------------------------------------------

namespace PlasmaEvm

namespace Core

open PlasmaEvm.Types

/- Every transaction is within a cost cap and a gas cap. -/
def Capped
    (costcap : Int)
    (gascap : Nat)
    (txs : List Transaction) : Prop :=
  ∀ tx ∈ txs, tx.Cost ≤ costcap ∧ tx.gas ≤ gascap

/- A sub-list of capped transactions is capped. -/
theorem Capped.sublist
    {costcap : Int}
    {gascap : Nat}
    {txs txs' : List Transaction}
    (hCapped : Capped costcap gascap txs)
    (hSub : List.Sublist txs' txs) :
    Capped costcap gascap txs' :=
  fun tx hMem => hCapped tx (hSub.subset hMem)

/-
  `txList`: the transactions of one account, contiguous in
  nonce when `strict` (the pending lists), with `costcap`
  and `gascap`, the highest cost and gas seen since the caps
  were last lowered by `Filter`.  That the caps bound every
  held transaction is carried as a field.
-/
structure TxList where
  strict : Bool
  txs : TxSortedMap
  costcap : Int
  gascap : Nat
  capped : Capped costcap gascap txs.items

/- `newTxList(strict)`. -/
def newTxList (strict : Bool) : TxList :=
  ⟨strict, newTxSortedMap, 0, 0, fun _ hMem =>
    absurd hMem List.not_mem_nil⟩

namespace TxList

/-
  Keep a sub-list of the transactions, with the same caps.
-/
def withTxs
    (l : TxList)
    (txs : TxSortedMap)
    (hSub : List.Sublist txs.items l.txs.items) : TxList :=
  { l with
    txs := txs
    capped := l.capped.sublist hSub }

/-
  `Overlaps(tx)`: a transaction of the same nonce is held.
-/
def Overlaps (l : TxList) (tx : Transaction) : Bool :=
  (l.txs.Get tx.nonce).isSome

/-
  Raising the caps to a new transaction keeps them bounds.
-/
theorem capped_put
    (l : TxList)
    (tx : Transaction) :
    Capped (max l.costcap tx.Cost) (max l.gascap tx.gas)
      (l.txs.Put tx).items := by
  intro t hMem
  rcases TxSortedMap.mem_putNonce tx t l.txs.items hMem
    with rfl | hOld
  · exact ⟨le_max_right _ _, le_max_right _ _⟩
  · rcases l.capped t hOld with ⟨hCost, hGas⟩
    exact ⟨le_max_of_le_left hCost, le_max_of_le_left hGas⟩

/- Store a transaction and raise the caps to cover it. -/
def put (l : TxList) (tx : Transaction) : TxList :=
  ⟨l.strict, l.txs.Put tx, max l.costcap tx.Cost,
    max l.gascap tx.gas,
    capped_put l tx⟩

/-
  `Add(tx, priceBump)`: a transaction of a held nonce must
  raise the old gas price, and by `priceBump` percent, to
  replace it.  Returns whether it was inserted and the
  transaction it replaced.
-/
def Add
    (l : TxList)
    (tx : Transaction)
    (priceBump : Nat) :
    (Bool × Option Transaction) × TxList :=
  match l.txs.Get tx.nonce with
  | some old =>
      let threshold :=
        old.gasPrice * (100 + priceBump) / 100
      if tx.gasPrice ≤ old.gasPrice ∨
        tx.gasPrice < threshold then
        ((false, none), l)
      else ((true, some old), l.put tx)
  | none => ((true, none), l.put tx)

/- `Forward(threshold)`. -/
def Forward (l : TxList) (threshold : Nat) :
    List Transaction × TxList :=
  ((l.txs.Forward threshold).1,
    l.withTxs (l.txs.Forward threshold).2 List.filter_sublist)

/-
  The selector of `Filter`: a cost above the cost limit or
  gas above the gas limit.
-/
def aboveLimits
    (costLimit : Int)
    (gasLimit : Nat)
    (tx : Transaction) : Bool :=
  decide (costLimit < tx.Cost) || decide (gasLimit < tx.gas)

/- What `Filter` keeps is within the lowered caps. -/
theorem capped_filter_aboveLimits
    (l : TxList)
    (costLimit : Int)
    (gasLimit : Nat) :
    Capped costLimit gasLimit
      (l.txs.Filter (aboveLimits costLimit
        gasLimit)).2.items := by
  intro tx hMem
  have hKept :
      (!aboveLimits costLimit gasLimit tx) = true :=
    (List.mem_filter.mp hMem).2
  simp only [aboveLimits, Bool.not_or, Bool.and_eq_true,
    Bool.not_eq_true',
    decide_eq_false_iff_not, Int.not_lt,
      Nat.not_lt] at hKept
  exact hKept

/-
  `Filter(costLimit, gasLimit)`: nothing when the caps are
  within the limits; otherwise the caps are lowered to the
  limits, the transactions above a limit are removed, and a
  strict list also gives up every transaction above the
  lowest removed nonce (the invalids).
-/
def Filter
    (l : TxList)
    (costLimit : Int)
    (gasLimit : Nat) :
    List Transaction × List Transaction × TxList :=
  if l.costcap ≤ costLimit ∧ l.gascap ≤ gasLimit
    then ([], [], l)
  else
    let removed := (l.txs.Filter
      (aboveLimits costLimit gasLimit)).1
    let l : TxList :=
      ⟨l.strict, (l.txs.Filter (aboveLimits
        costLimit gasLimit)).2,
        costLimit, gasLimit, capped_filter_aboveLimits l
          costLimit gasLimit⟩
    if l.strict ∧ removed ≠ [] then
      let lowest :=
        removed.foldl (fun low tx => min low tx.nonce)
          Params.MaxUint64
      let invalids :=
        l.txs.Filter (fun tx => decide (lowest < tx.nonce))
      (removed, invalids.1, l.withTxs invalids.2
        List.filter_sublist)
    else (removed, [], l)

/- `Cap(threshold)`. -/
def Cap (l : TxList) (threshold : Nat) :
    List Transaction × TxList :=
  ((l.txs.Cap threshold).1,
    l.withTxs (l.txs.Cap threshold).2
      (TxSortedMap.Cap_sublist _ _))

/-
  `Remove(tx)`: deletes the transaction of the same nonce; a
  strict list also gives up every higher nonce.
-/
def Remove (l : TxList) (tx : Transaction) :
    Bool × List Transaction × TxList :=
  let removed := l.txs.Remove tx.nonce
  if !removed.1 then (false, [], l)
  else
    let l :=
      l.withTxs removed.2 (TxSortedMap.Remove_sublist _ _)
    if l.strict then
      let invalids :=
        l.txs.Filter (fun t => decide (tx.nonce < t.nonce))
      (true, invalids.1,
        l.withTxs invalids.2 List.filter_sublist)
    else (true, [], l)

/- `Ready(start)`. -/
def Ready (l : TxList) (start : Nat) :
    List Transaction × TxList :=
  ((l.txs.Ready start).1,
    l.withTxs (l.txs.Ready start).2
      (TxSortedMap.Ready_sublist _ _))

/- `Len()`. -/
def Len (l : TxList) : Nat :=
  l.txs.Len

/- `Empty()`. -/
def Empty (l : TxList) : Bool :=
  l.Len == 0

/- `Flatten()`. -/
def Flatten (l : TxList) : List Transaction :=
  l.txs.Flatten

/-
  `Filter` removes exactly the held transactions above a
  limit: when it short-circuits, the caps bound every held
  transaction within the limits.
-/
theorem mem_Filter_removed
    (l : TxList)
    (costLimit : Int)
    (gasLimit : Nat)
    (tx : Transaction) :
    tx ∈ (l.Filter costLimit gasLimit).1 ↔
      tx ∈ l.Flatten ∧ aboveLimits costLimit gasLimit
        tx = true := by
  unfold Filter
  split
  · rename_i hWithin
    simp only [List.not_mem_nil, false_iff, not_and]
    intro hMem hAbove
    rcases l.capped tx hMem with ⟨hCost, hGas⟩
    simp only [aboveLimits, Bool.or_eq_true,
      decide_eq_true_eq] at hAbove
    omega
  · dsimp only
    split <;> exact List.mem_filter

end TxList

end Core

end PlasmaEvm

------------------------------------------------------------
-- Filtering Against the Caps
------------------------------------------------------------

namespace PlasmaEvm

namespace Core

open PlasmaEvm.Types

/-
  Nonces that follow one another by one, as a pending list
  holds them.
-/
def Contiguous (txs : List Transaction) : Prop :=
  txs.IsChain (fun a b => b.nonce = a.nonce + 1)

namespace TxList

/-
  The lowest nonce `Filter` finds among the removed
  transactions.
-/
def lowestNonce (removed : List Transaction) : Nat :=
  removed.foldl (fun low tx =>
    min low tx.nonce) Params.MaxUint64

/-
  No held transaction is above limits that its caps are
  within.
-/
theorem filter_aboveLimits_eq_nil
    (l : TxList)
    {costLimit : Int}
    {gasLimit : Nat}
    (hWithin : l.costcap ≤ costLimit ∧
      l.gascap ≤ gasLimit) :
    l.Flatten.filter (aboveLimits costLimit gasLimit) = [] := by
  rw [List.filter_eq_nil_iff]
  intro tx hMem
  rcases l.capped tx hMem with ⟨hCost, hGas⟩
  simp only [aboveLimits, Bool.or_eq_true,
    decide_eq_true_eq, not_or, Int.not_lt, Nat.not_lt]
  omega

/-
  The removed transactions are those the full scan selects.
  When `Filter` short-circuits, the scan selects none.
-/
theorem Filter_removed_eq
    (l : TxList)
    (costLimit : Int)
    (gasLimit : Nat) :
    (l.Filter costLimit gasLimit).1 =
      l.Flatten.filter (aboveLimits costLimit gasLimit) := by
  unfold Filter
  split
  · rename_i hWithin
    exact (filter_aboveLimits_eq_nil l hWithin).symm
  · dsimp only
    split <;> rfl

/-
  The invalids: in a strict list with something removed, the
  kept transactions above the lowest removed nonce.
-/
theorem Filter_invalids_eq
    (l : TxList)
    (costLimit : Int)
    (gasLimit : Nat) :
    (l.Filter costLimit gasLimit).2.1 =
      if l.strict = true ∧ l.Flatten.filter
        (aboveLimits costLimit gasLimit) ≠ [] then
        (l.Flatten.filter (fun tx =>
          !aboveLimits costLimit gasLimit tx)).filter
          (fun tx => decide (lowestNonce (l.Flatten.filter
            (aboveLimits costLimit gasLimit)) <
            tx.nonce))
      else [] := by
  unfold Filter
  split
  · rename_i hWithin
    simp [filter_aboveLimits_eq_nil l hWithin]
  · dsimp only
    split <;> rename_i hCase <;> split <;> rename_i hCase'
    · rfl
    · exact absurd hCase hCase'
    · exact absurd hCase' hCase
    · rfl

/-
  What stays: in a strict list with something removed, the
  kept transactions up to the lowest removed nonce;
  otherwise all the kept ones.
-/
theorem Filter_remaining_eq
    (l : TxList)
    (costLimit : Int)
    (gasLimit : Nat) :
    (l.Filter costLimit gasLimit).2.2.Flatten =
      if l.strict = true ∧ l.Flatten.filter
        (aboveLimits costLimit gasLimit) ≠ [] then
        (l.Flatten.filter (fun tx =>
          !aboveLimits costLimit gasLimit tx)).filter
          (fun tx => !decide (lowestNonce (l.Flatten.filter
            (aboveLimits costLimit gasLimit)) <
            tx.nonce))
      else l.Flatten.filter (fun tx =>
        !aboveLimits costLimit gasLimit tx) := by
  unfold Filter
  split
  · rename_i hWithin
    have hNone := filter_aboveLimits_eq_nil l hWithin
    rw [List.filter_eq_nil_iff] at hNone
    simp only [ne_eq, not_true_eq_false,
      and_false, if_false,
      filter_aboveLimits_eq_nil l hWithin]
    symm
    rw [List.filter_eq_self]
    intro tx hMem
    simpa using hNone tx hMem
  · dsimp only
    split <;> rename_i hCase <;> split <;> rename_i hCase'
    · rfl
    · exact absurd hCase hCase'
    · exact absurd hCase' hCase
    · rfl

/-
  The invalids are the kept transactions of a strict list
  with a nonce above some removed one, that is, above the
  lowest removed nonce.  The nonces are the code's uint64,
  so the fold from MaxUint64 ends at a removed nonce.
-/
theorem mem_Filter_invalids
    (l : TxList)
    (costLimit : Int)
    (gasLimit : Nat)
    (hNonces : ∀ tx ∈ l.Flatten,
      tx.nonce ≤ Params.MaxUint64)
    (tx : Transaction) :
    tx ∈ (l.Filter costLimit gasLimit).2.1 ↔
      l.strict = true ∧ tx ∈ l.Flatten ∧
        aboveLimits costLimit gasLimit tx = false ∧
        ∃ r ∈ (l.Filter costLimit gasLimit).1,
          r.nonce < tx.nonce := by
  rw [Filter_invalids_eq, Filter_removed_eq]
  by_cases hCase :
      l.strict = true ∧ l.Flatten.filter
        (aboveLimits costLimit gasLimit) ≠ []
  · rw [if_pos hCase]
    rcases List.exists_foldl_min_eq Transaction.nonce hCase.2
        (fun r hMem => hNonces r
          (List.mem_filter.mp hMem).1)
          with ⟨low, hLowMem, hLowEq⟩
    have hLowest :
        lowestNonce (l.Flatten.filter
          (aboveLimits costLimit gasLimit)) = low.nonce :=
      hLowEq
    simp only [List.mem_filter, Bool.not_eq_true',
      decide_eq_true_eq, hLowest]
    constructor
    · rintro ⟨⟨hMem, hKept⟩, hAbove⟩
      exact ⟨hCase.1, hMem, hKept, low,
        List.mem_filter.mp hLowMem, hAbove⟩
    · rintro ⟨-, hMem, hKept, r, hRMem, hLt⟩
      have hLowLe : low.nonce ≤ r.nonce :=
        hLowest ▸ List.foldl_min_le Transaction.nonce
          (List.mem_filter.mpr hRMem) _
      exact ⟨⟨hMem, hKept⟩, lt_of_le_of_lt hLowLe hLt⟩
  · rw [if_neg hCase]
    simp only [List.not_mem_nil, false_iff]
    rintro ⟨hStrict, -, -, r, hRMem, -⟩
    exact hCase ⟨hStrict, List.ne_nil_of_mem hRMem⟩

/-
  A strict list keeps a prefix of its transactions: once one
  is dropped, so is every later one, since a later nonce is
  above the dropped one and so above the lowest removed
  nonce.  A contiguous run therefore stays one.
-/
theorem Filter_remaining_contiguous
    (l : TxList)
    (costLimit : Int)
    (gasLimit : Nat)
    (hStrict : l.strict = true)
    (hRun : Contiguous l.Flatten) :
    Contiguous (l.Filter costLimit gasLimit).2.2.Flatten := by
  have hSorted : NonceSorted l.Flatten := l.txs.sorted
  rw [Filter_remaining_eq]
  split
  · rename_i hCase
    rw [List.filter_filter]
    refine List.IsChain.filter_of_pairwise hRun
      (hSorted.imp_of_mem ?_)
    intro a b hA _ hLt hDropped
    have hBelow :
        lowestNonce (l.Flatten.filter
          (aboveLimits costLimit gasLimit)) < b.nonce := by
      simp only [Bool.and_eq_false_iff, Bool.not_eq_false',
        decide_eq_true_eq] at hDropped
      rcases hDropped with hAbove | hRemoved
      · exact lt_trans hAbove hLt
      · have hLowLe :=
          List.foldl_min_le Transaction.nonce
            (List.mem_filter.mpr ⟨hA, hRemoved⟩)
            Params.MaxUint64
        exact lt_of_le_of_lt hLowLe hLt
    simp [hBelow]
  · rename_i hCase
    have hNone : l.Flatten.filter
      (aboveLimits costLimit gasLimit) = [] := by
      by_contra hSome
      exact hCase ⟨hStrict, hSome⟩
    refine List.IsChain.filter_of_pairwise hRun
      (hSorted.imp_of_mem ?_)
    intro a _ hA _ _ hDropped
    rw [Bool.not_eq_false'] at hDropped
    rw [List.filter_eq_nil_iff] at hNone
    exact absurd hDropped (hNone a hA)

/-
  Every transaction list is within its caps, so `Filter`'s
  short circuit agrees with the full scan: it removes
  exactly the held transactions above a limit, gives as
  invalids exactly the kept transactions of a strict list
  above a removed nonce, and leaves a contiguous run of a
  strict list contiguous.
-/
theorem Filter_matches_full_scan
    (l : TxList)
    (costLimit : Int)
    (gasLimit : Nat)
    (hNonces : ∀ tx ∈ l.Flatten,
      tx.nonce ≤ Params.MaxUint64) :
    Capped l.costcap l.gascap l.Flatten ∧
      (l.Filter costLimit gasLimit).1 =
        l.Flatten.filter (aboveLimits costLimit gasLimit) ∧
      (∀ tx, tx ∈ (l.Filter costLimit gasLimit).2.1 ↔
        l.strict = true ∧ tx ∈ l.Flatten ∧
          aboveLimits costLimit gasLimit tx = false ∧
          ∃ r ∈ (l.Filter costLimit gasLimit).1,
            r.nonce < tx.nonce) ∧
      (l.strict = true → Contiguous l.Flatten →
        Contiguous (l.Filter costLimit gasLimit).2.2.Flatten) :=
  ⟨l.capped, Filter_removed_eq l costLimit gasLimit,
    mem_Filter_invalids l costLimit gasLimit hNonces,
    Filter_remaining_contiguous l costLimit gasLimit⟩

/-
  A strict list of nonces 0, 1, 2 whose middle transaction
  costs more than the balance: it is removed, and the last
  one is invalid.
-/
theorem Filter_matches_full_scan_middle :
    let l := (((newTxList true).put ⟨0, 1, 1, none, 0,
      [], 0, 0, 0⟩).put
      ⟨1, 1, 1, none, 5, [], 0, 0, 0⟩).put ⟨2, 1, 1, none,
        0, [], 0, 0, 0⟩
    (∀ tx ∈ l.Flatten, tx.nonce ≤ Params.MaxUint64) ∧
      Capped l.costcap l.gascap l.Flatten ∧
      (l.Filter 4 10).1 =
        l.Flatten.filter (aboveLimits 4 10) ∧
      (∀ tx, tx ∈ (l.Filter 4 10).2.1 ↔
        l.strict = true ∧ tx ∈ l.Flatten ∧
          aboveLimits 4 10 tx = false ∧
          ∃ r ∈ (l.Filter 4 10).1, r.nonce < tx.nonce) ∧
      (l.strict = true → Contiguous l.Flatten →
        Contiguous (l.Filter 4 10).2.2.Flatten) := by
  intro l
  have hNonces : ∀ tx ∈ l.Flatten,
    tx.nonce ≤ Params.MaxUint64 := by decide
  exact ⟨hNonces, Filter_matches_full_scan l 4 10 hNonces⟩

end TxList

end Core

end PlasmaEvm
