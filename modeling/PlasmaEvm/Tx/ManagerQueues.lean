import PlasmaEvm.Tx.Manager
import Mathlib.Data.List.Perm.Basic
import Mathlib.Data.List.Range

/-
  No raw transaction is lost or duplicated between the three
  queues of an account.  `Add` numbers the raw transactions
  of an account 0, 1, 2, ...; the invariant `QueuesInv` says
  the queues hold each index given out exactly once, with
  `pending` sorted by index.

  `Add`, `clearQueue`, the send phase and a new head keep
  it. `confirmQueue` keeps it when no query of its removal
  loop fails after the first: a failure stops the loop, and
  the raw transactions after it are dropped from
  `unconfirmed` with the loop's partial result.

  Key statements include:
    * `QueuesInv`
    * `QueuesInv.Add`, `QueuesInv.clearQueue`,
      `QueuesInv.sendQueue`, `QueuesInv.confirmQueue`
    * `QueuesInv.run`, `run_keeps_queues`
    * `confirmQueue_loses_raw`
-/

------------------------------------------------------------
-- Indices of Raw Transactions
------------------------------------------------------------

namespace PlasmaEvm

namespace Tx

open PlasmaEvm.Types

open TransactionManager

/-
  The indices of an account's raw transactions, pending
  first.
-/
def indices
    (tm : TransactionManager)
    (addr : Address) :
    List Nat :=
  (tm.queues addr).map RawTransaction.Index

/- The indices of an account's pending raw transactions. -/
def pendingIndices
    (tm : TransactionManager)
    (addr : Address) :
    List Nat :=
  (tm.pending addr).map RawTransaction.Index

/-
  Every index `Add` has given out is held once in the queues
  of the account, `pending` is sorted by index, and an
  account the manager does not know has been given none.
-/
structure QueuesInv
    (tm : TransactionManager)
    (addr : Address) :
    Prop where
  perm : List.Perm (indices tm addr) (List.range
    (tm.numRawTxs addr))
  sorted : (pendingIndices tm addr).Pairwise (· < ·)
  fresh : addr ∉ tm.addresses → tm.numRawTxs addr = 0

/-
  Putting a raw transaction back in place keeps the indices.
-/
@[simp] theorem map_Index_replaceRaw
    (raw : RawTransaction)
    (raws : List RawTransaction) :
    (replaceRaw raw raws).map RawTransaction.Index =
      raws.map RawTransaction.Index := by
  induction raws with
  | nil => rfl
  | cons r rest ih =>
      by_cases hSame : r.Index = raw.Index
      · simp [replaceRaw, hSame] at ih ⊢
        exact ih
      · simp [replaceRaw, hSame] at ih ⊢
        exact ih

/-
  The invariant depends only on the three queues, the index
  counter and the known accounts.
-/
theorem QueuesInv.congr
    {tm tm' : TransactionManager}
    {addr : Address}
    (hInv : QueuesInv tm addr)
    (hPending : pendingIndices tm' addr =
      pendingIndices tm addr)
    (hIndices : indices tm' addr = indices tm addr)
    (hCount : tm'.numRawTxs addr = tm.numRawTxs addr)
    (hKnown : addr ∈ tm.addresses → addr ∈ tm'.addresses) :
    QueuesInv tm' addr where
  perm := by
    rw [hIndices, hCount]
    exact hInv.perm
  sorted := by
    rw [hPending]
    exact hInv.sorted
  fresh := by
    intro hUnknown
    rw [hCount]
    exact hInv.fresh (fun hMem => hUnknown (hKnown hMem))

/-
  A step that leaves an account's three queues, counter and
  membership as they were keeps its invariant.
-/
theorem QueuesInv.frame
    {tm tm' : TransactionManager}
    {addr : Address}
    (hInv : QueuesInv tm addr)
    (hPending : tm'.pending addr = tm.pending addr)
    (hUnconfirmed : tm'.unconfirmed addr =
      tm.unconfirmed addr)
    (hConfirmed : tm'.confirmed addr = tm.confirmed addr)
    (hCount : tm'.numRawTxs addr = tm.numRawTxs addr)
    (hKnown : addr ∈ tm.addresses → addr ∈ tm'.addresses) :
    QueuesInv tm' addr := by
  apply hInv.congr _ _ hCount hKnown
  · simp [pendingIndices, hPending]
  · simp [indices, queues, hPending,
      hUnconfirmed, hConfirmed]

end Tx

end PlasmaEvm

------------------------------------------------------------
-- Adding Keeps the Invariant
------------------------------------------------------------

namespace PlasmaEvm

namespace Tx

open PlasmaEvm.Types

open TransactionManager

variable {tm : TransactionManager}
variable {a : Address}

/- An account the manager does not know holds nothing. -/
theorem QueuesInv.queues_eq_nil
    (hInv : QueuesInv tm a)
    (hUnknown : a ∉ tm.addresses) :
    tm.queues a = [] := by
  have hPerm := hInv.perm
  rw [hInv.fresh hUnknown, List.range_zero,
    List.perm_nil] at hPerm
  simpa [indices] using hPerm

/-
  Opening an account changes nothing the invariant reads.
-/
theorem QueuesInv.openAccount
    (hInv : QueuesInv tm a)
    (addr : Address) :
    QueuesInv (openAccount tm addr) a := by
  unfold Tx.openAccount
  split
  · exact hInv
  · rename_i hNew
    by_cases hSame : a = addr
    · subst hSame
      have hEmpty := hInv.queues_eq_nil hNew
      simp only [queues, List.append_eq_nil_iff] at hEmpty
      obtain ⟨⟨hPending, hUnconfirmed⟩,
        hConfirmed⟩ := hEmpty
      apply hInv.frame <;> simp [hPending,
        hUnconfirmed, hConfirmed]
    · apply hInv.frame <;> simp [hSame]

/- An opened account is known. -/
theorem mem_openAccount
    (tm : TransactionManager)
    (addr : Address) :
    addr ∈ (openAccount tm addr).addresses := by
  unfold openAccount
  split
  · assumption
  · simp

/-
  Queuing a raw transaction of a known account under the
  next index closes the range of indices again.
-/
theorem QueuesInv.enqueueRaw
    (hInv : QueuesInv tm a)
    {addr : Address}
    (hKnown : addr ∈ tm.addresses)
    (raw : RawTransaction) :
    QueuesInv (enqueueRaw tm addr raw) a := by
  by_cases hSame : a = addr
  · subst hSame
    have hBelow : ∀ i ∈ pendingIndices tm a,
      i < tm.numRawTxs a := by
      intro i hPending
      have hHeld : i ∈ indices tm a := by
        simp only [pendingIndices, List.mem_map] at hPending
        obtain ⟨r, hMem, rfl⟩ := hPending
        simp only [indices, queues, List.map_append,
          List.mem_append,
          List.mem_map]
        exact Or.inl (Or.inl ⟨r, hMem, rfl⟩)
      exact List.mem_range.mp (hInv.perm.subset hHeld)
    have hPendingIdx :
        pendingIndices (Tx.enqueueRaw tm a raw) a =
          pendingIndices tm a ++ [tm.numRawTxs a] := by
      simp [Tx.enqueueRaw, pendingIndices]
    have hIdx :
        indices (Tx.enqueueRaw tm a raw) a =
          pendingIndices tm a ++ [tm.numRawTxs a] ++
            ((tm.unconfirmed a ++
              tm.confirmed a).map RawTransaction.Index) := by
      simp [Tx.enqueueRaw, indices, queues, pendingIndices]
    have hCount :
        (Tx.enqueueRaw tm a raw).numRawTxs a =
          tm.numRawTxs a + 1 := by
      simp [Tx.enqueueRaw]
    constructor
    · rw [hIdx, hCount, List.range_succ]
      have hMove :
          List.Perm
            (pendingIndices tm a ++ [tm.numRawTxs a] ++
              (tm.unconfirmed a ++
                tm.confirmed a).map RawTransaction.Index)
            (indices tm a ++ [tm.numRawTxs a]) := by
        rw [List.perm_iff_count]
        intro x
        simp only [indices, queues, pendingIndices,
          List.map_append,
          List.count_append]
        omega
      exact hMove.trans (hInv.perm.append_right _)
    · rw [hPendingIdx, List.pairwise_append]
      refine ⟨hInv.sorted, List.pairwise_singleton _ _, ?_⟩
      intro i hi j hj
      rw [List.mem_singleton] at hj
      rw [hj]
      exact hBelow i hi
    · intro hUnknown
      exact absurd
        (by simpa [Tx.enqueueRaw] using hKnown) hUnknown
  · apply hInv.frame <;> simp [Tx.enqueueRaw, hSame]

/- Opening an account gives out no index. -/
@[simp] theorem openAccount_numRawTxs
    (tm : TransactionManager)
    (addr : Address) :
    (openAccount tm addr).numRawTxs = tm.numRawTxs := by
  unfold openAccount
  split
  · rfl
  · rfl

/- `Add` keeps the invariant of every account. -/
theorem QueuesInv.Add
    (hInv : QueuesInv tm a)
    (ks : Keystore)
    (addr : Address)
    (raw : RawTransaction)
    (duplicate : Bool) :
    QueuesInv (Tx.Add ks tm addr raw duplicate).2 a := by
  rcases Add_cases ks tm addr raw duplicate
    with hEq | hEq | ⟨hashes, hEq⟩
  · rw [hEq]
    exact hInv
  · rw [hEq]
    exact hInv.openAccount addr
  · rw [hEq]
    have hOpened : QueuesInv
        { Tx.openAccount tm addr with rawTxHashes := hashes } a :=
      (hInv.openAccount addr).congr rfl rfl rfl id
    exact hOpened.enqueueRaw (mem_openAccount tm addr) raw

end Tx

end PlasmaEvm

------------------------------------------------------------
-- Clearing Keeps the Invariant
------------------------------------------------------------

namespace PlasmaEvm

namespace Tx

open PlasmaEvm.Types

open TransactionManager

variable {tm : TransactionManager}
variable {a : Address}

/-
  Moving a prefix of the pending list to the end of the
  unconfirmed list permutes the queues.
-/
theorem perm_move_prefix
    {α : Type}
    [DecidableEq α]
    (k : Nat)
    (pending unconfirmed confirmed : List α) :
    List.Perm
      (pending.drop k ++ (unconfirmed ++
        pending.take k) ++ confirmed)
      (pending ++ unconfirmed ++ confirmed) := by
  have hSplit := List.take_append_drop k pending
  rw [List.perm_iff_count]
  intro x
  conv_rhs => rw [← hSplit]
  simp only [List.count_append]
  omega

/- `clearQueue` keeps the invariant of every account. -/
theorem QueuesInv.clearQueue
    (hInv : QueuesInv tm a)
    (backend : Backend)
    (addr : Address) :
    QueuesInv (Tx.clearQueue backend tm addr) a := by
  unfold Tx.clearQueue
  split
  · exact hInv
  obtain ⟨gasPrice, hSnd⟩ := checkMinedLoop_snd backend tm
    (tm.pending addr)
  have hIndex := checkMinedLoop_map_Index backend tm
    (tm.pending addr)
  dsimp only
  rw [hSnd]
  generalize (checkMinedLoop backend tm
    (tm.pending addr)).1 = checked at hIndex
  by_cases hSame : a = addr
  · subst hSame
    have hTake :
        checked.takeWhile RawTransaction.Mined =
          checked.take (checked.takeWhile
            RawTransaction.Mined).length :=
      List.prefix_iff_eq_take.mp (List.takeWhile_prefix _)
    have hChecked : QueuesInv ({ tm with
      gasPrice := gasPrice }.setPending a checked) a := by
      apply hInv.congr
      · simpa [pendingIndices] using hIndex
      · simp [indices, queues, hIndex]
      · rfl
      · exact id
    split
    · exact hChecked
    · generalize (checked.takeWhile
        RawTransaction.Mined).length = k at hTake
      rw [hTake]
      constructor
      · have hPerm := perm_move_prefix k checked
          (tm.unconfirmed a) (tm.confirmed a)
        have hIdx := hChecked.perm
        simp only [indices, queues,
          setPending_pending, ↓reduceIte,
          setPending_unconfirmed, setPending_confirmed,
          setUnconfirmed_unconfirmed,
          setUnconfirmed_confirmed, setPending_numRawTxs,
          setUnconfirmed_numRawTxs] at hIdx ⊢
        exact (hPerm.map RawTransaction.Index).trans hIdx
      · have hSorted := hChecked.sorted
        simp only [pendingIndices,
          setPending_pending, ↓reduceIte,
          List.map_drop] at hSorted ⊢
        exact hSorted.sublist (List.drop_sublist _ _)
      · exact hChecked.fresh
  · split
    · apply hInv.frame <;> simp [hSame]
    · apply hInv.frame <;> simp [hSame]

end Tx

end PlasmaEvm

------------------------------------------------------------
-- Confirming Keeps the Invariant When Every Query Answers
------------------------------------------------------------

namespace PlasmaEvm

namespace Tx

open PlasmaEvm.Types

open TransactionManager

variable {tm : TransactionManager}
variable {a : Address}

/-
  No `Removed` query of the removal loop fails on these raw
  transactions.
-/
def RemovalAnswered
    (backend : Backend)
    (raws : List RawTransaction) : Prop :=
  ∀ raw ∈ raws,
    raw.Removed backend.TransactionReceipt ≠ .error ()

/-
  When every query answers, the removal loop splits the
  unconfirmed raw transactions between those sent again and
  those kept.
-/
theorem removalLoop_perm
    (backend : Backend)
    (raws : List RawTransaction)
    (hAnswered : RemovalAnswered backend raws) :
    List.Perm
      (((removalLoop backend raws).1 ++
        (removalLoop backend raws).2.1).map
        RawTransaction.Index)
      (raws.map RawTransaction.Index) := by
  induction raws with
  | nil => exact List.Perm.refl _
  | cons raw rest ih =>
      have hRest : RemovalAnswered backend rest :=
        fun r hMem =>
          hAnswered r (List.mem_cons_of_mem _ hMem)
      unfold removalLoop
      cases hRemoved : raw.Removed backend.TransactionReceipt with
      | error e =>
          exact absurd hRemoved (hAnswered raw List.mem_cons_self)
      | ok removed =>
          cases removed with
          | true =>
              simp only [List.cons_append, List.map_cons,
                RawTransaction.PrepareToResend_Index]
              exact (ih hRest).cons _
          | false =>
              simp only [List.map_append, List.map_cons]
              have hMiddle :
                  List.Perm
                    ((removalLoop backend rest).1.map
                      RawTransaction.Index ++
                      raw.Index ::
                        (removalLoop backend rest).2.1.map
                          RawTransaction.Index)
                    (raw.Index ::
                      ((removalLoop backend rest).1 ++
                        (removalLoop backend rest).2.1).map
                        RawTransaction.Index) := by
                rw [List.map_append]
                exact List.perm_middle
              exact hMiddle.trans ((ih hRest).cons _)

/-
  A loop that looked at a raw transaction had its first
  query answered: a failure there breaks it before anything
  is looked at.
-/
theorem removed_answered_of_looked
    (backend : Backend)
    (raw : RawTransaction)
    (rest : List RawTransaction)
    (hLooked : (removalLoop backend (raw :: rest)).2.2 = true) :
    raw.Removed backend.TransactionReceipt ≠ .error () := by
  intro hError
  unfold removalLoop at hLooked
  rw [hError] at hLooked
  cases hLooked

/-
  The confirmation loop splits the unconfirmed raw
  transactions.
-/
theorem confirmLoop_map_Index
    (backend : Backend)
    (currentBlockNumber numConfirmed : Nat)
    (raws : List RawTransaction) :
    ((confirmLoop backend currentBlockNumber
      numConfirmed raws).1 ++
        (confirmLoop backend currentBlockNumber
          numConfirmed raws).2).map
      RawTransaction.Index =
      raws.map RawTransaction.Index := by
  induction raws generalizing numConfirmed with
  | nil => rfl
  | cons raw rest ih =>
      unfold confirmLoop
      rcases hConfirmed :
          raw.Confirmed backend.TransactionReceipt
            currentBlockNumber with
        ⟨final, checked⟩
      have hIndex : checked.Index = raw.Index := by
        have h := RawTransaction.Confirmed_Index raw
          backend.TransactionReceipt currentBlockNumber
        rw [hConfirmed] at h
        exact h
      cases final with
      | false => simp [hIndex]
      | true =>
          have hRest := ih (numConfirmed + 1)
          simp only [List.map_append] at hRest
          simp [hIndex, hRest]

/- Sorting by index permutes. -/
theorem sortByIndex_perm (raws : List RawTransaction) :
    List.Perm (sortByIndex raws) raws :=
  List.mergeSort_perm _ _

/-
  Raw transactions of distinct indices come out in
  increasing order.
-/
theorem sortByIndex_sorted
    (raws : List RawTransaction)
    (hNodup : (raws.map RawTransaction.Index).Nodup) :
    ((sortByIndex raws).map
      RawTransaction.Index).Pairwise (· < ·) := by
  have hLe :
      (sortByIndex raws).Pairwise (fun r s =>
        decide (r.Index ≤ s.Index)) :=
    List.pairwise_mergeSort
      (fun r s t hRS hST => by
        simp only [decide_eq_true_eq] at hRS hST ⊢
        omega)
      (fun r s => by
        simp only [Bool.or_eq_true, decide_eq_true_eq]
        omega)
      raws
  have hDistinct : ((sortByIndex raws).map
    RawTransaction.Index).Nodup :=
    ((sortByIndex_perm raws).map
      RawTransaction.Index).nodup_iff.mpr hNodup
  rw [List.Nodup, List.pairwise_map] at hDistinct
  rw [List.pairwise_map]
  refine (hLe.and hDistinct).imp ?_
  rintro r s ⟨hRS, hNe⟩
  simp only [decide_eq_true_eq] at hRS
  omega

/-
  Moving the front of `unconfirmed` to the end of
  `confirmed` permutes the queues.
-/
theorem perm_move_front
    {α : Type}
    [DecidableEq α]
    (pending front rest confirmed : List α) :
    List.Perm (pending ++ rest ++ (confirmed ++ front))
      (pending ++ (front ++ rest) ++ confirmed) := by
  rw [List.perm_iff_count]
  intro x
  simp only [List.count_append]
  omega

/-
  The second half of `confirmQueue` keeps the invariant of
  every account.
-/
theorem QueuesInv.moveConfirmed
    (hInv : QueuesInv tm a)
    (backend : Backend)
    (addr : Address) :
    QueuesInv (Tx.moveConfirmed backend tm addr) a := by
  unfold Tx.moveConfirmed
  dsimp only
  by_cases hSame : a = addr
  · subst hSame
    have hSplit := confirmLoop_map_Index backend
      tm.currentBlockNumber
      (tm.numConfirmedRawTxs a) (tm.unconfirmed a)
    generalize confirmLoop backend tm.currentBlockNumber
      (tm.numConfirmedRawTxs a) (tm.unconfirmed a) =
        confirmed at hSplit
    constructor
    · have hPerm := hInv.perm
      rw [indices, queues, List.map_append,
        List.map_append, ← hSplit,
        List.map_append] at hPerm
      simp only [indices, queues,
        setUnconfirmed_unconfirmed,
        setUnconfirmed_pending, setUnconfirmed_confirmed,
        setConfirmed_pending,
          setConfirmed_confirmed, ↓reduceIte,
        setUnconfirmed_numRawTxs, setConfirmed_numRawTxs,
          List.map_append]
      exact (perm_move_front _ _ _ _).trans hPerm
    · simpa [pendingIndices] using hInv.sorted
    · simpa using hInv.fresh
  · apply hInv.frame <;> simp [hSame]

/-
  The first half of `confirmQueue` keeps the invariant of
  every account when no query after the first fails.
-/
theorem QueuesInv.requeueRemoved
    (hInv : QueuesInv tm a)
    (backend : Backend)
    (addr : Address)
    (hAnswered : RemovalAnswered backend
      (tm.unconfirmed addr).tail) :
    QueuesInv (Tx.requeueRemoved backend tm addr) a := by
  unfold Tx.requeueRemoved
  dsimp only
  split
  · rename_i hLooked
    have hAll : RemovalAnswered backend
      (tm.unconfirmed addr) := by
      cases hRaws : tm.unconfirmed addr with
      | nil =>
          exact fun r hMem => absurd hMem List.not_mem_nil
      | cons raw rest =>
          rw [hRaws] at hLooked hAnswered
          intro r hMem
          rcases List.mem_cons.mp hMem with hHead | hRest
          · rw [hHead]
            exact removed_answered_of_looked backend
              raw rest hLooked
          · exact hAnswered r hRest
    by_cases hSame : a = addr
    · subst hSame
      have hSplit := removalLoop_perm backend
        (tm.unconfirmed a) hAll
      generalize removalLoop backend (tm.unconfirmed a) =
        looked at hSplit
      have hPerm :
          List.Perm
            ((sortByIndex (tm.pending a ++
              looked.1)).map RawTransaction.Index ++
              looked.2.1.map RawTransaction.Index ++
              (tm.confirmed a).map RawTransaction.Index)
            (indices tm a) := by
        have hSort := (sortByIndex_perm
          (tm.pending a ++ looked.1)).map
          RawTransaction.Index
        have hLoop := (hSplit.append_left
          ((tm.pending a).map RawTransaction.Index)).append_right
          ((tm.confirmed a).map RawTransaction.Index)
        have hFront := hSort.append_right
          (looked.2.1.map RawTransaction.Index ++
            (tm.confirmed a).map RawTransaction.Index)
        simp only [List.map_append,
          List.append_assoc] at hFront
        simp only [indices, queues, List.map_append,
          List.append_assoc]
          at hLoop ⊢
        exact hFront.trans hLoop
      have hRange := hPerm.trans hInv.perm
      have hNodup :
          ((sortByIndex (tm.pending a ++ looked.1)).map
            RawTransaction.Index).Nodup := by
        have hAllNodup :=
          hRange.nodup_iff.mpr List.nodup_range
        exact (List.nodup_append.mp
          (List.nodup_append.mp hAllNodup).1).1
      constructor
      · simpa [indices, queues] using hRange
      · have hSorted := sortByIndex_sorted
          (tm.pending a ++ looked.1)
          (((sortByIndex_perm _).map
            RawTransaction.Index).nodup_iff.mp hNodup)
        simpa [pendingIndices] using hSorted
      · simpa using hInv.fresh
    · apply hInv.frame <;> simp [hSame]
  · exact hInv

/-
  `confirmQueue` keeps the invariant of every account when
  no query of its removal loop after the first fails.
-/
theorem QueuesInv.confirmQueue
    (hInv : QueuesInv tm a)
    (backend : Backend)
    (addr : Address)
    (hAnswered : RemovalAnswered backend
      (tm.unconfirmed addr).tail) :
    QueuesInv (Tx.confirmQueue backend tm addr) a := by
  unfold Tx.confirmQueue
  split
  · exact hInv
  · exact (hInv.requeueRemoved backend addr
      hAnswered).moveConfirmed backend addr

end Tx

end PlasmaEvm

------------------------------------------------------------
-- Sending Keeps the Invariant
------------------------------------------------------------

namespace PlasmaEvm

namespace Tx

open PlasmaEvm.Types

open TransactionManager

variable {tm tm' : TransactionManager}
variable {a : Address}

/-
  Two managers agree on everything the invariant of an
  account reads.  The send phase changes raw transactions in
  place, the gas price, the nonces and the known-transaction
  counts, so it ends in a manager that agrees with the one
  it started from.
-/
structure SameIndices
    (tm tm' : TransactionManager)
    (a : Address) : Prop where
  pending : pendingIndices tm' a = pendingIndices tm a
  all : indices tm' a = indices tm a
  count : tm'.numRawTxs a = tm.numRawTxs a
  known : a ∈ tm.addresses → a ∈ tm'.addresses

theorem SameIndices.refl
    (tm : TransactionManager)
    (a : Address) :
    SameIndices tm tm a :=
  ⟨rfl, rfl, rfl, id⟩

theorem SameIndices.trans
    {tm'' : TransactionManager}
    (hFirst : SameIndices tm tm' a)
    (hSecond : SameIndices tm' tm'' a) :
    SameIndices tm tm'' a where
  pending := hSecond.pending.trans hFirst.pending
  all := hSecond.all.trans hFirst.all
  count := hSecond.count.trans hFirst.count
  known := fun hMem => hSecond.known (hFirst.known hMem)

/- The invariant carries over to a manager that agrees. -/
theorem QueuesInv.of_sameIndices
    (hInv : QueuesInv tm a)
    (hSame : SameIndices tm tm' a) :
    QueuesInv tm' a :=
  hInv.congr hSame.pending hSame.all hSame.count hSame.known

/-
  Writing a raw transaction back keeps every account's
  indices.
-/
theorem sameIndices_updateRaw
    (tm : TransactionManager)
    (addr : Address)
    (raw : RawTransaction)
    (a : Address) :
    SameIndices tm (tm.updateRaw addr raw) a := by
  by_cases hSame : a = addr
  · subst hSame
    refine ⟨?_, ?_, rfl, id⟩
    · simp [updateRaw, pendingIndices]
    · simp [updateRaw, indices, queues]
  · refine ⟨?_, ?_, rfl, id⟩
    · simp [updateRaw, pendingIndices, hSame]
    · simp [updateRaw, indices, queues, hSame]

theorem SameIndices.adjustGasPrice
    (hSame : SameIndices tm tm' a)
    (backend : Backend)
    (raw : RawTransaction)
    (decrease : Bool) :
    SameIndices tm (Tx.adjustGasPrice backend tm' raw
      decrease) a := by
  obtain ⟨gasPrice, hAdjust⟩ := adjustGasPrice_eq backend
    tm' raw decrease
  rw [hAdjust]
  exact ⟨hSame.pending, hSame.all, hSame.count, hSame.known⟩

/- An adjustment made only under a condition. -/
theorem SameIndices.adjustGasPrice_if
    (hSame : SameIndices tm tm' a)
    (backend : Backend)
    (raw : RawTransaction)
    (decrease : Bool)
    (c : Prop)
    [Decidable c] :
    SameIndices tm
      (if c
        then Tx.adjustGasPrice backend tm' raw decrease
          else tm') a := by
  split
  · exact hSame.adjustGasPrice backend raw decrease
  · exact hSame

theorem SameIndices.setNumKnownErr
    (hSame : SameIndices tm tm' a)
    (hash : Option Transaction)
    (n : Nat) :
    SameIndices tm (tm'.setNumKnownErr hash n) a :=
  ⟨hSame.pending, hSame.all, hSame.count, hSame.known⟩

/- `send` changes no queue. -/
theorem sameIndices_send
    (ks : Keystore)
    (backend : Backend)
    (tm : TransactionManager)
    (addr : Address)
    (raw : RawTransaction)
    (a : Address) :
    SameIndices tm (send ks backend tm addr raw).2.2 a := by
  unfold send
  split
  · exact SameIndices.refl tm a
  · obtain ⟨nonce, numKnownErr, hLoop⟩ :=
      sendLoop_snd_snd ks backend addr (MaxNumPending + 1) tm raw
    rw [hLoop]
    exact ⟨rfl, rfl, rfl, id⟩

theorem SameIndices.resend
    (hSame : SameIndices tm tm' a)
    (ks : Keystore)
    (backend : Backend)
    (addr : Address)
    (raw : RawTransaction) :
    SameIndices tm (Tx.resend ks backend tm' addr raw) a :=
  (hSame.trans (sameIndices_send ks backend tm' addr raw a)).trans
    (sameIndices_updateRaw _ addr _ a)

/- The send phase changes no queue of any account. -/
theorem sameIndices_sendQueue
    (ks : Keystore)
    (backend : Backend)
    (tm : TransactionManager)
    (addr : Address)
    (queue : List RawTransaction)
    (a : Address) :
    SameIndices tm (sendQueue ks backend tm addr queue) a := by
  unfold sendQueue
  split
  · exact SameIndices.refl tm a
  split
  · exact SameIndices.refl tm a
  · rename_i raw _
    have hSent :
        SameIndices tm
          ((send ks backend tm addr raw).2.2.updateRaw addr
            (send ks backend tm addr raw).2.1) a :=
      (sameIndices_send ks backend tm addr raw a).trans
        (sameIndices_updateRaw _ addr _ a)
    dsimp only
    generalize send ks backend tm addr raw = sent at hSent ⊢
    obtain ⟨⟨hash, err⟩, sentRaw, sentTm⟩ := sent
    generalize sentTm.updateRaw addr sentRaw =
      updated at hSent ⊢
    split
    · exact (hSent.adjustGasPrice backend sentRaw
        false).resend ks backend addr
        sentRaw
    split
    · exact hSent.resend ks backend addr sentRaw
    split
    · exact hSent
    split
    · exact hSent.setNumKnownErr _ _
    · apply SameIndices.resend
      apply SameIndices.adjustGasPrice_if
      apply SameIndices.adjustGasPrice_if
      exact hSent

/- The send phase keeps the invariant of every account. -/
theorem QueuesInv.sendQueue
    (hInv : QueuesInv tm a)
    (ks : Keystore)
    (backend : Backend)
    (addr : Address)
    (queue : List RawTransaction) :
    QueuesInv (Tx.sendQueue ks backend tm addr queue) a :=
  hInv.of_sameIndices (sameIndices_sendQueue ks backend
    tm addr queue a)

end Tx

end PlasmaEvm

------------------------------------------------------------
-- Runs Keep the Invariant
------------------------------------------------------------

namespace PlasmaEvm

namespace Tx

open PlasmaEvm.Types

open TransactionManager

variable {tm : TransactionManager}
variable {a : Address}

/-
  The receipt queries of a backend fail only with "not
  found".
-/
def ReceiptsAnswer (backend : Backend) : Prop :=
  ∀ hash, backend.TransactionReceipt hash ≠ .error .Failed

theorem removalAnswered_of_receiptsAnswer
    {backend : Backend}
    (hAnswer : ReceiptsAnswer backend)
    (raws : List RawTransaction) :
    RemovalAnswered backend raws := by
  intro raw _ hError
  unfold RawTransaction.Removed at hError
  split at hError
  · cases hError
  · rename_i hFailed
    exact hAnswer raw.MinedTxHash hFailed
  · cases hError

/-
  Only a confirm step can break the invariant: a step
  answers when it is not one, or when the receipt queries of
  its backend fail only with "not found".
-/
def ManagerAction.Answers : ManagerAction → Prop
  | .confirm _ backend => ReceiptsAnswer backend
  | _ => True

/- One step keeps the invariant of every account. -/
theorem QueuesInv.step
    (hInv : QueuesInv tm a)
    (ks : Keystore)
    (action : ManagerAction)
    (hAnswers : action.Answers) :
    QueuesInv (Tx.step ks tm action) a := by
  cases action with
  | add addr raw duplicate =>
      exact hInv.Add ks addr raw duplicate
  | clear addr backend => exact hInv.clearQueue backend addr
  | confirm addr backend =>
      exact hInv.confirmQueue backend addr
        (removalAnswered_of_receiptsAnswer hAnswers _)
  | sendPhase addr backend queue =>
      exact hInv.sendQueue ks backend addr queue
  | newHead number => exact hInv.congr rfl rfl rfl id

/- A run keeps the invariant of every account. -/
theorem QueuesInv.run
    (hInv : QueuesInv tm a)
    (ks : Keystore)
    (actions : List ManagerAction)
    (hAnswers : ∀ action ∈ actions, action.Answers) :
    QueuesInv (Tx.run ks tm actions) a := by
  induction actions generalizing tm with
  | nil => exact hInv
  | cons action rest ih =>
      have hStep := hInv.step ks action
        (hAnswers action List.mem_cons_self)
      exact ih hStep (fun b hMem =>
        hAnswers b (List.mem_cons_of_mem _ hMem))

/- A new manager holds no raw transaction. -/
theorem QueuesInv.NewTransactionManager
    {config : Config}
    (hNew : Tx.NewTransactionManager config = .ok tm)
    (a : Address) :
    QueuesInv tm a := by
  unfold Tx.NewTransactionManager at hNew
  split at hNew
  · cases hNew
  · cases hNew
    constructor
    · exact List.Perm.refl _
    · exact List.Pairwise.nil
    · intro _
      rfl

/-
  From a new manager, every run whose confirm steps get
  their receipts keeps each index `Add` gave out in exactly
  one queue of its account, and `pending` sorted by index.
-/
theorem run_keeps_queues
    {config : Config}
    (hNew : Tx.NewTransactionManager config = .ok tm)
    (ks : Keystore)
    (actions : List ManagerAction)
    (hAnswers : ∀ action ∈ actions, action.Answers)
    (a : Address) :
    QueuesInv (Tx.run ks tm actions) a :=
  (QueuesInv.NewTransactionManager hNew a).run ks actions hAnswers

/-
  Under the invariant the queues hold as many raw
  transactions as were numbered.
-/
theorem QueuesInv.length_indices
    (hInv : QueuesInv tm a) :
    (indices tm a).length = tm.numRawTxs a := by
  simpa using hInv.perm.length_eq

end Tx

end PlasmaEvm

------------------------------------------------------------
-- A Failed Query Loses a Raw Transaction
------------------------------------------------------------

namespace PlasmaEvm

namespace Tx

open PlasmaEvm.Types

/- A configuration that fixes the gas price at 10 gwei. -/
def fixedPriceConfig : Config where
  MinGasPrice := 10 * GWei
  MaxGasPrice := 10 * GWei

/- The new manager of that configuration. -/
def emptyManager : TransactionManager where
  config := fixedPriceConfig
  currentBlockNumber := 0
  gasPrice := 10 * GWei
  addresses := []
  confirmed := fun _ => []
  unconfirmed := fun _ => []
  pending := fun _ => []
  nonce := fun _ => 0
  numKnownErr := fun _ => 0
  rawTxHashes := fun _ => []
  numRawTxs := fun _ => 0
  numConfirmedRawTxs := fun _ => 0

/-
  The operator account, and the root-chain contract it
  calls.
-/
def operator : Address := ⟨1⟩

def rootChainContract : Address := ⟨9⟩

/-
  A keystore holding every account, with one signature for
  all.
-/
def testKeystore : Keystore where
  HasAddress := fun _ => true
  Sign := fun _ => (37, 1, 1)

/- A call of the contract with the given payload. -/
def contractCall (payload : Bytes) : RawTransaction :=
  RawTransaction.NewRawTransaction operator 100000
    rootChainContract 0 payload
    false

/-
  The transaction the manager signs for a raw transaction at
  a nonce.
-/
def signedAt
    (raw : RawTransaction)
    (nonce : Nat) :
    Transaction :=
  testKeystore.SignTx ({ raw with
    Nonce := nonce }.ToTransaction (10 * GWei))

/-
  A root chain that has mined the listed transactions of the
  operator, in nonce order, with their receipts, and knows
  no other.  The account nonce is their number, and a
  transaction sent below it is refused as "nonce too low".
-/
def minedChain
    (mined : List (Transaction × Receipt)) :
    Backend where
  TransactionReceipt := fun hash =>
    match hash with
    | some tx =>
        match mined.find? (fun entry => entry.1 == tx) with
        | some entry => .ok entry.2
        | none => .error .NotFound
    | none => .error .NotFound
  TransactionByHash := fun _ => .ok false
  NonceAt := fun _ => .ok mined.length
  SendTransaction := fun tx =>
    if tx.nonce < mined.length then .nonceTooLow else .ok

/- The first call, mined at nonce 0 in block 5. -/
def firstMined : Transaction × Receipt :=
  (signedAt (contractCall [1]) 0, ⟨1, 5⟩)

/- The second call, mined at nonce 1 in block 6. -/
def secondMined : Transaction × Receipt :=
  (signedAt (contractCall [2]) 1, ⟨1, 6⟩)

/-
  Two calls added to the new manager, then three rounds of
  `Start`: the first call is sent, then mined while the
  second is sent, then the second is mined.
-/
def bothMined : TransactionManager :=
  let added :=
    run testKeystore emptyManager
      [.add operator (contractCall [1]) false,
        .add operator (contractCall [2]) false]
  let round1 :=
    tick testKeystore (minedChain []) added operator
  let round2 := tick testKeystore (minedChain
    [firstMined]) round1 operator
  tick testKeystore (minedChain [firstMined,
    secondMined]) round2 operator

/-
  The root chain again, where only the receipt of the first
  call can be read: every other receipt query fails.
-/
def firstReceiptOnly : Backend :=
  { minedChain [firstMined, secondMined] with
    TransactionReceipt := fun hash =>
      if hash = some firstMined.1
        then .ok firstMined.2 else .error .Failed }

/-
  After the three rounds both calls are unconfirmed.  In a
  fourth round the removal loop finds the first call kept,
  then breaks on the failed query of the second, and
  `unconfirmed` becomes the first alone: the second call is
  in no queue.
-/
theorem confirmQueue_loses_raw :
    Tx.NewTransactionManager fixedPriceConfig =
      .ok emptyManager ∧
      indices bothMined operator = [0, 1] ∧
      (bothMined.unconfirmed operator).map
        RawTransaction.Index = [0, 1] ∧
      indices (tick testKeystore firstReceiptOnly
        bothMined operator)
        operator = [0] ∧
      ¬ QueuesInv (tick testKeystore firstReceiptOnly
        bothMined operator)
        operator := by
  have hLost :
      indices (tick testKeystore firstReceiptOnly
        bothMined operator)
          operator = [0] ∧
        (tick testKeystore firstReceiptOnly bothMined
          operator).numRawTxs
          operator = 2 := by
    decide +kernel
  refine ⟨rfl, by decide +kernel,
    by decide +kernel, hLost.1, ?_⟩
  intro hInv
  have hLength := hInv.length_indices
  rw [hLost.1, hLost.2] at hLength
  cases hLength

end Tx

end PlasmaEvm
