import PlasmaEvm.Tx.ManagerQueues
import Mathlib.Data.List.Nodup

/-
  Nonces of the raw transactions of an account.  `Add` gives
  each raw transaction the account's nonce counter and
  raises the counter together with the index counter, so the
  nonce of a raw transaction is its index plus a fixed
  offset, and every transaction signed for it carries that
  nonce.  `RawFits c` says so of one raw transaction and
  `NonceInv c` of the account.

  Two events change a nonce after `Add`: `PrepareToResend`
  resets it to zero when the root chain drops the mined
  transaction, and a "nonce too low" answer of
  `SendTransaction` replaces it, and the counter, by the
  account nonce of the root chain.  A run with neither keeps
  `NonceInv`, so the raw transactions of an account carry
  pairwise distinct nonces.  A reorg followed by a resend
  signs a second raw transaction at the nonce of a mined
  one, and the refresh after it hands the next raw
  transaction a nonce that is in use.

  Key statements include:
    * `RawFits`, `NonceInv`
    * `NonceInv.Add`, `NonceInv.clearQueue`,
      `NonceInv.confirmQueue`, `NonceInv.sendQueue`
    * `NonceInv.run`, `NonceInv.nonces_nodup`,
      `run_nonces_nodup`
    * `reorg_resend_reuses_nonce`
-/

------------------------------------------------------------
-- Raw Transactions That Fit the Nonce Counter
------------------------------------------------------------

namespace PlasmaEvm

namespace Tx

open PlasmaEvm.Types

/-
  A raw transaction fits the offset `c`: its nonce is its
  index plus `c`, and each transaction signed for it, sent
  or mined, carries its nonce.
-/
structure RawFits
    (c : Int)
    (raw : RawTransaction) :
    Prop where
  offset : (raw.Nonce : Int) = raw.Index + c
  pending : ∀ tx ∈ raw.PendingTxs, tx.nonce = raw.Nonce
  mined : ∀ tx ∈ raw.MinedTxHash, tx.nonce = raw.Nonce

/-
  A raw transaction nothing was signed for, as
  `NewRawTransaction` makes it.
-/
def Unsent (raw : RawTransaction) : Prop :=
  raw.PendingTxs = [] ∧ raw.MinedTxHash = none

/-
  The transaction `firstReceipt` finds is one of those it
  looks at.
-/
theorem mem_of_firstReceipt
    {TransactionReceipt : ReceiptQuery}
    {txs : List Transaction}
    {tx : Transaction}
    {receipt : Receipt}
    (hFirst :
      RawTransaction.firstReceipt TransactionReceipt txs =
        some (tx, receipt)) :
    tx ∈ txs := by
  induction txs with
  | nil => cases hFirst
  | cons tx' rest ih =>
      unfold RawTransaction.firstReceipt at hFirst
      split at hFirst
      · cases hFirst
        exact List.mem_cons_self
      · exact List.mem_cons_of_mem _ (ih hFirst)

namespace RawFits

variable {c : Int}
variable {raw : RawTransaction}

/-
  A change that keeps the index, the nonce and the signed
  transactions keeps the fit.
-/
theorem of_same
    (hFits : RawFits c raw)
    {raw' : RawTransaction}
    (hIndex : raw'.Index = raw.Index)
    (hNonce : raw'.Nonce = raw.Nonce)
    (hPending : raw'.PendingTxs = raw.PendingTxs)
    (hMined : raw'.MinedTxHash = raw.MinedTxHash) :
    RawFits c raw' where
  offset := by
    rw [hIndex, hNonce]
    exact hFits.offset
  pending := by
    rw [hPending, hNonce]
    exact hFits.pending
  mined := by
    rw [hMined, hNonce]
    exact hFits.mined

/-
  The mined transaction `CheckMined` records is one of those
  signed.
-/
theorem checkMined
    (hFits : RawFits c raw)
    (TransactionReceipt : ReceiptQuery) :
    RawFits c (raw.CheckMined TransactionReceipt).2 := by
  unfold RawTransaction.CheckMined
  split
  · exact hFits
  · split
    · exact hFits
    · rename_i tx receipt hFirst
      refine ⟨hFits.offset, ?_, ?_⟩
      · intro tx' hMem
        cases hMem
      · intro tx' hMem
        rw [Option.mem_def, Option.some.injEq] at hMem
        subst hMem
        exact hFits.pending tx (mem_of_firstReceipt hFirst)

/- `Confirmed` changes the mined block number alone. -/
theorem confirmed
    (hFits : RawFits c raw)
    (TransactionReceipt : ReceiptQuery)
    (currentBlockNumber : Nat) :
    RawFits c (raw.Confirmed TransactionReceipt
      currentBlockNumber).2 := by
  unfold RawTransaction.Confirmed
  split
  · exact hFits
  · split
    · exact hFits
    · exact hFits.of_same rfl rfl rfl rfl

/-
  Recording a transaction signed at the raw nonce keeps the
  fit.
-/
theorem addPending
    (hFits : RawFits c raw)
    {tx : Transaction}
    {raw' : RawTransaction}
    (hNonce : tx.nonce = raw.Nonce)
    (hAdd : raw.AddPending tx = some raw') :
    RawFits c raw' := by
  unfold RawTransaction.AddPending at hAdd
  split at hAdd
  · cases hAdd
  · cases hAdd
    refine ⟨hFits.offset, ?_, hFits.mined⟩
    intro tx' hMem
    rcases List.mem_append.mp hMem with hOld | hNew
    · exact hFits.pending tx' hOld
    · rw [List.mem_singleton.mp hNew]
      exact hNonce

end RawFits

end Tx

end PlasmaEvm

------------------------------------------------------------
-- The Loops Keep the Fit
------------------------------------------------------------

namespace PlasmaEvm

namespace Tx

open PlasmaEvm.Types

open TransactionManager

variable {c : Int}

/- The root chain still has every mined transaction. -/
def KeepsMined (backend : Backend) : Prop :=
  ∀ hash, backend.TransactionReceipt hash ≠ .error .NotFound

/- The root chain never answers "nonce too low". -/
def NoNonceTooLow (backend : Backend) : Prop :=
  ∀ tx, backend.SendTransaction tx ≠ .nonceTooLow

theorem checkMinedLoop_fits
    (backend : Backend)
    (tm : TransactionManager)
    (raws : List RawTransaction)
    (hFits : ∀ raw ∈ raws, RawFits c raw) :
    ∀ raw ∈ (checkMinedLoop backend tm raws).1,
      RawFits c raw := by
  induction raws generalizing tm with
  | nil =>
      intro raw hMem
      cases hMem
  | cons raw rest ih =>
      have hRaw := (hFits raw List.mem_cons_self).checkMined
        backend.TransactionReceipt
      have hRest : ∀ r ∈ rest, RawFits c r :=
        fun r hMem => hFits r (List.mem_cons_of_mem _ hMem)
      unfold checkMinedLoop
      rcases hCheck : raw.CheckMined
        backend.TransactionReceipt with
        ⟨mined, checked⟩
      rw [hCheck] at hRaw
      cases mined with
      | false =>
          intro r hMem
          rcases List.mem_cons.mp hMem with hHead | hTail
          · rw [hHead]
            exact hRaw
          · exact hRest r hTail
      | true =>
          intro r hMem
          rcases List.mem_cons.mp hMem with hHead | hTail
          · rw [hHead]
            exact hRaw
          · exact ih _ hRest r hTail

/- Without a reorg the removal loop sends nothing again. -/
theorem removalLoop_fst_nil
    {backend : Backend}
    (hKeeps : KeepsMined backend)
    (raws : List RawTransaction) :
    (removalLoop backend raws).1 = [] := by
  induction raws with
  | nil => rfl
  | cons raw rest ih =>
      unfold removalLoop
      cases hRemoved : raw.Removed backend.TransactionReceipt with
      | error e => rfl
      | ok removed =>
          cases removed with
          | false => exact ih
          | true =>
              unfold RawTransaction.Removed at hRemoved
              split at hRemoved
              · exact absurd ‹_› (hKeeps raw.MinedTxHash)
              · cases hRemoved
              · cases hRemoved

/- The removal loop keeps raw transactions it was given. -/
theorem mem_removalLoop_kept
    (backend : Backend)
    (raws : List RawTransaction)
    {raw : RawTransaction}
    (hMem : raw ∈ (removalLoop backend raws).2.1) :
    raw ∈ raws := by
  induction raws with
  | nil => cases hMem
  | cons r rest ih =>
      unfold removalLoop at hMem
      cases hRemoved : r.Removed backend.TransactionReceipt with
      | error e =>
          rw [hRemoved] at hMem
          cases hMem
      | ok removed =>
          rw [hRemoved] at hMem
          cases removed with
          | true => exact List.mem_cons_of_mem _ (ih hMem)
          | false =>
              rcases List.mem_cons.mp hMem
                with hHead | hTail
              · rw [hHead]
                exact List.mem_cons_self
              · exact List.mem_cons_of_mem _ (ih hTail)

theorem confirmLoop_fits
    (backend : Backend)
    (currentBlockNumber numConfirmed : Nat)
    (raws : List RawTransaction)
    (hFits : ∀ raw ∈ raws, RawFits c raw) :
    ∀ raw ∈ (confirmLoop backend currentBlockNumber
      numConfirmed raws).1 ++
        (confirmLoop backend currentBlockNumber
          numConfirmed raws).2,
      RawFits c raw := by
  induction raws generalizing numConfirmed with
  | nil =>
      intro raw hMem
      cases hMem
  | cons raw rest ih =>
      have hRaw := (hFits raw List.mem_cons_self).confirmed
        backend.TransactionReceipt currentBlockNumber
      have hRest : ∀ r ∈ rest, RawFits c r :=
        fun r hMem => hFits r (List.mem_cons_of_mem _ hMem)
      unfold confirmLoop
      rcases hConfirmed :
          raw.Confirmed backend.TransactionReceipt
            currentBlockNumber with
        ⟨final, checked⟩
      rw [hConfirmed] at hRaw
      cases final with
      | false =>
          intro r hMem
          dsimp only [List.nil_append] at hMem
          rcases List.mem_cons.mp hMem with hHead | hTail
          · rw [hHead]
            exact hRaw
          · exact hRest r hTail
      | true =>
          intro r hMem
          rcases List.mem_cons.mp hMem with hHead | hTail
          · rw [hHead]
            exact hRaw.of_same rfl rfl rfl rfl
          · exact ih (numConfirmed + 1) hRest r hTail

/-
  Without a "nonce too low" answer the send loop leaves the
  nonce counter alone.
-/
theorem sendLoop_nonce
    (ks : Keystore)
    {backend : Backend}
    (hNoLow : NoNonceTooLow backend)
    (addr : Address)
    (fuel : Nat)
    (tm : TransactionManager)
    (raw : RawTransaction) :
    (sendLoop ks backend addr fuel tm raw).2.2.nonce
      = tm.nonce := by
  cases fuel with
  | zero => rfl
  | succ fuel =>
      unfold sendLoop
      dsimp only
      split
      · rfl
      split
      · rfl
      split
      · rfl
      · split
        · rfl
        · rfl
        · rfl
        · rfl
        · rfl
        · exact absurd ‹_› (hNoLow _)
        · rfl

/-
  Without a "nonce too low" answer the send loop signs at
  the raw nonce.
-/
theorem sendLoop_fits
    (ks : Keystore)
    {backend : Backend}
    (hNoLow : NoNonceTooLow backend)
    (addr : Address)
    (fuel : Nat)
    (tm : TransactionManager)
    {raw : RawTransaction}
    (hFits : RawFits c raw) :
    RawFits c (sendLoop ks backend addr fuel tm raw).2.1 := by
  cases fuel with
  | zero => exact hFits
  | succ fuel =>
      unfold sendLoop
      dsimp only
      split
      · exact hFits.of_same rfl rfl rfl rfl
      split
      · exact hFits
      split
      · exact hFits
      · rename_i added hAdd
        have hAdded : RawFits c added :=
          hFits.addPending (by simp) hAdd
        have hSent :
            RawFits c
              { added with
                LastSentBlockNumber :=
                  tm.currentBlockNumber } :=
          hAdded.of_same rfl rfl rfl rfl
        split
        · exact hSent
        · exact hSent
        · exact hSent
        · exact hSent
        · exact hSent
        · exact absurd ‹_› (hNoLow _)
        · exact hSent

end Tx

end PlasmaEvm

------------------------------------------------------------
-- The Account Invariant
------------------------------------------------------------

namespace PlasmaEvm

namespace Tx

open PlasmaEvm.Types

open TransactionManager

variable {c : Int}

/-
  The nonce counter of the account is its index counter plus
  `c`, and every raw transaction in its queues fits `c`.
-/
structure NonceInv
    (c : Int)
    (tm : TransactionManager)
    (a : Address) : Prop where
  counter : (tm.nonce a : Int) = tm.numRawTxs a + c
  fits : ∀ raw ∈ tm.queues a, RawFits c raw

variable {tm tm' : TransactionManager}
variable {a : Address}

/-
  A step that keeps the two counters and puts in the queues
  only raw transactions they held or that fit keeps the
  invariant.
-/
theorem NonceInv.of_mem
    (hInv : NonceInv c tm a)
    (hNonce : tm'.nonce a = tm.nonce a)
    (hCount : tm'.numRawTxs a = tm.numRawTxs a)
    (hMem : ∀ raw ∈ tm'.queues a, raw ∈ tm.queues a ∨
      RawFits c raw) :
    NonceInv c tm' a where
  counter := by
    rw [hNonce, hCount]
    exact hInv.counter
  fits := by
    intro raw hRaw
    rcases hMem raw hRaw with hOld | hFits
    · exact hInv.fits raw hOld
    · exact hFits

/-
  A step that leaves the account alone keeps its invariant.
-/
theorem NonceInv.frame
    (hInv : NonceInv c tm a)
    (hQueues : tm'.queues a = tm.queues a)
    (hNonce : tm'.nonce a = tm.nonce a)
    (hCount : tm'.numRawTxs a = tm.numRawTxs a) :
    NonceInv c tm' a :=
  hInv.of_mem hNonce hCount (fun _ hRaw =>
    Or.inl (hQueues ▸ hRaw))

/-
  With the queue invariant, the nonces of the raw
  transactions of the account are pairwise distinct.
-/
theorem NonceInv.nonces_nodup
    (hInv : NonceInv c tm a)
    (hQueues : QueuesInv tm a) :
    ((tm.queues a).map RawTransaction.Nonce).Nodup := by
  have hIndices : ((tm.queues a).map
    RawTransaction.Index).Nodup :=
    hQueues.perm.nodup_iff.mpr List.nodup_range
  have hShift :
      ((tm.queues a).map RawTransaction.Nonce).map
        (fun n : Nat => (n : Int)) =
        ((tm.queues a).map RawTransaction.Index).map
          (fun i : Nat => (i : Int) + c) := by
    simp only [List.map_map]
    apply List.map_congr_left
    intro raw hRaw
    exact (hInv.fits raw hRaw).offset
  have hInjective : Function.Injective (fun i : Nat =>
    (i : Int) + c) := by
    intro i j hEq
    have hCast : (i : Int) = j := by simpa using hEq
    exact_mod_cast hCast
  have hShifted := List.Nodup.map hInjective hIndices
  rw [← hShift] at hShifted
  exact hShifted.of_map _

end Tx

end PlasmaEvm

------------------------------------------------------------
-- Adding, Clearing and Confirming Keep the Invariant
------------------------------------------------------------

namespace PlasmaEvm

namespace Tx

open PlasmaEvm.Types

open TransactionManager

variable {c : Int}
variable {tm : TransactionManager}
variable {a : Address}

@[simp] theorem openAccount_nonce
    (tm : TransactionManager)
    (addr : Address) :
    (openAccount tm addr).nonce = tm.nonce := by
  unfold openAccount
  split
  · rfl
  · rfl

/- Opening an account puts no raw transaction in a queue. -/
theorem mem_queues_openAccount
    {addr : Address}
    {raw : RawTransaction}
    (hMem : raw ∈ (openAccount tm addr).queues a) :
    raw ∈ tm.queues a := by
  unfold openAccount at hMem
  split at hMem
  · exact hMem
  · by_cases hSame : a = addr
    · simp [queues, hSame] at hMem
    · simpa [queues, hSame] using hMem

theorem NonceInv.openAccount
    (hInv : NonceInv c tm a)
    (addr : Address) :
    NonceInv c (openAccount tm addr) a :=
  hInv.of_mem (by simp) (by simp) (fun _ hRaw =>
    Or.inl (mem_queues_openAccount hRaw))

/-
  A raw transaction nothing was signed for takes the two
  counters, which then rise together.
-/
theorem NonceInv.enqueueRaw
    (hInv : NonceInv c tm a)
    (addr : Address)
    {raw : RawTransaction}
    (hUnsent : Unsent raw) :
    NonceInv c (enqueueRaw tm addr raw) a := by
  by_cases hSame : a = addr
  · subst hSame
    have hNew :
        RawFits c { raw with
          Index := tm.numRawTxs a,
          Nonce := tm.nonce a } := by
      refine ⟨hInv.counter, ?_, ?_⟩
      · intro tx hTx
        have hNone : tx ∈ raw.PendingTxs := hTx
        rw [hUnsent.1] at hNone
        cases hNone
      · intro tx hTx
        have hNone : tx ∈ raw.MinedTxHash := hTx
        rw [hUnsent.2] at hNone
        cases hNone
    constructor
    · have hCounter := hInv.counter
      simp only [Tx.enqueueRaw, setPending,
        Function.update_self]
      omega
    · intro r hR
      simp only [Tx.enqueueRaw, queues,
        setPending_pending, ↓reduceIte,
        setPending_unconfirmed, setPending_confirmed,
          List.mem_append,
        List.mem_singleton] at hR
      rcases hR with ((hPending | hRaw) |
        hUnconfirmed) | hConfirmed
      · exact hInv.fits r (by simp [queues, hPending])
      · rw [hRaw]
        exact hNew
      · exact hInv.fits r (by simp [queues, hUnconfirmed])
      · exact hInv.fits r (by simp [queues, hConfirmed])
  · apply hInv.frame
    · simp [Tx.enqueueRaw, queues, hSame]
    · simp [Tx.enqueueRaw, hSame]
    · simp [Tx.enqueueRaw, hSame]

/-
  `Add` of a raw transaction nothing was signed for keeps
  the invariant.
-/
theorem NonceInv.Add
    (hInv : NonceInv c tm a)
    (ks : Keystore)
    (addr : Address)
    {raw : RawTransaction}
    (duplicate : Bool)
    (hUnsent : Unsent raw) :
    NonceInv c (Tx.Add ks tm addr raw duplicate).2 a := by
  rcases Add_cases ks tm addr raw duplicate
    with hEq | hEq | ⟨hashes, hEq⟩
  · rw [hEq]
    exact hInv
  · rw [hEq]
    exact hInv.openAccount addr
  · rw [hEq]
    have hOpened : NonceInv c
        { Tx.openAccount tm addr with rawTxHashes := hashes } a :=
      (hInv.openAccount addr).frame rfl rfl rfl
    exact hOpened.enqueueRaw addr hUnsent

/- `clearQueue` keeps the invariant. -/
theorem NonceInv.clearQueue
    (hInv : NonceInv c tm a)
    (backend : Backend)
    (addr : Address) :
    NonceInv c (Tx.clearQueue backend tm addr) a := by
  unfold Tx.clearQueue
  split
  · exact hInv
  obtain ⟨gasPrice, hSnd⟩ := checkMinedLoop_snd backend tm
    (tm.pending addr)
  dsimp only
  rw [hSnd]
  by_cases hSame : a = addr
  · subst hSame
    have hPending : ∀ raw ∈ tm.pending a, RawFits c raw :=
      fun raw hRaw => hInv.fits raw (by simp [queues, hRaw])
    have hChecked := checkMinedLoop_fits backend tm
      (tm.pending a) hPending
    generalize (checkMinedLoop backend tm
      (tm.pending a)).1 = checked at hChecked
    have hHeld :
        ∀ raw, raw ∈ checked ∨ raw ∈ tm.unconfirmed a ∨
          raw ∈ tm.confirmed a →
          raw ∈ tm.queues a ∨ RawFits c raw := by
      rintro raw (hRaw | hRaw | hRaw)
      · exact Or.inr (hChecked raw hRaw)
      · exact Or.inl (by simp [queues, hRaw])
      · exact Or.inl (by simp [queues, hRaw])
    split
    · refine hInv.of_mem rfl rfl ?_
      intro raw hRaw
      apply hHeld raw
      simpa [queues, or_assoc] using hRaw
    · refine hInv.of_mem rfl rfl ?_
      intro raw hRaw
      apply hHeld raw
      simp only [queues, setPending_pending, ↓reduceIte,
        setPending_unconfirmed, setUnconfirmed_unconfirmed,
        setPending_confirmed, setUnconfirmed_confirmed,
          List.mem_append]
        at hRaw
      rcases hRaw with (hDropped | hUnconfirmed |
        hTaken) | hConfirmed
      · exact Or.inl (List.mem_of_mem_drop hDropped)
      · exact Or.inr (Or.inl hUnconfirmed)
      · exact Or.inl ((List.takeWhile_sublist _).subset hTaken)
      · exact Or.inr (Or.inr hConfirmed)
  · split
    · apply hInv.frame <;> simp [queues, hSame]
    · apply hInv.frame <;> simp [queues, hSame]

/-
  Without a reorg the first half of `confirmQueue` only
  reorders the account's raw transactions.
-/
theorem NonceInv.requeueRemoved
    (hInv : NonceInv c tm a)
    {backend : Backend}
    (hKeeps : KeepsMined backend)
    (addr : Address) :
    NonceInv c (Tx.requeueRemoved backend tm addr) a := by
  unfold Tx.requeueRemoved
  dsimp only
  split
  · refine hInv.of_mem rfl rfl ?_
    intro raw hRaw
    left
    by_cases hSame : a = addr
    · subst hSame
      simp only [queues, setPending_pending, ↓reduceIte,
        setPending_unconfirmed, setUnconfirmed_unconfirmed,
        setPending_confirmed, setUnconfirmed_confirmed,
          List.mem_append,
        removalLoop_fst_nil hKeeps, List.append_nil] at hRaw
      rcases hRaw with (hSorted | hKept) | hConfirmed
      · have hPending := (sortByIndex_perm
          (tm.pending a)).mem_iff.mp hSorted
        simp [queues, hPending]
      · have hUnconfirmed :=
          mem_removalLoop_kept backend _ hKept
        simp [queues, hUnconfirmed]
      · simp [queues, hConfirmed]
    · simpa [queues, hSame] using hRaw
  · exact hInv

/- The second half of `confirmQueue` keeps the invariant. -/
theorem NonceInv.moveConfirmed
    (hInv : NonceInv c tm a)
    (backend : Backend)
    (addr : Address) :
    NonceInv c (Tx.moveConfirmed backend tm addr) a := by
  unfold Tx.moveConfirmed
  dsimp only
  by_cases hSame : a = addr
  · subst hSame
    have hUnconfirmed : ∀ raw ∈ tm.unconfirmed a,
      RawFits c raw :=
      fun raw hRaw => hInv.fits raw (by simp [queues, hRaw])
    have hLoop :=
      confirmLoop_fits backend tm.currentBlockNumber
      (tm.numConfirmedRawTxs a) (tm.unconfirmed a) hUnconfirmed
    refine hInv.of_mem rfl rfl ?_
    intro raw hRaw
    simp only [queues, setUnconfirmed_pending,
      setConfirmed_pending,
      setUnconfirmed_unconfirmed, setUnconfirmed_confirmed,
      setConfirmed_confirmed, ↓reduceIte,
        List.mem_append] at hRaw
    rcases hRaw
      with (hPending | hRest) | hConfirmed | hMoved
    · exact Or.inl (by simp [queues, hPending])
    · exact Or.inr (hLoop raw (List.mem_append_right _ hRest))
    · exact Or.inl (by simp [queues, hConfirmed])
    · exact Or.inr (hLoop raw (List.mem_append_left _ hMoved))
  · apply hInv.frame <;> simp [queues, hSame]

/- Without a reorg `confirmQueue` keeps the invariant. -/
theorem NonceInv.confirmQueue
    (hInv : NonceInv c tm a)
    {backend : Backend}
    (hKeeps : KeepsMined backend)
    (addr : Address) :
    NonceInv c (Tx.confirmQueue backend tm addr) a := by
  unfold Tx.confirmQueue
  split
  · exact hInv
  · exact (hInv.requeueRemoved hKeeps
      addr).moveConfirmed backend addr

end Tx

end PlasmaEvm

------------------------------------------------------------
-- Sending Keeps the Invariant
------------------------------------------------------------

namespace PlasmaEvm

namespace Tx

open PlasmaEvm.Types

open TransactionManager

variable {c : Int}
variable {tm : TransactionManager}
variable {a : Address}

/-
  A raw transaction written back replaces those of its
  index.
-/
theorem mem_replaceRaw
    {raw r : RawTransaction}
    {raws : List RawTransaction}
    (hMem : r ∈ replaceRaw raw raws) :
    r = raw ∨ r ∈ raws := by
  simp only [replaceRaw, List.mem_map] at hMem
  obtain ⟨r', hOld, hEq⟩ := hMem
  split at hEq
  · exact Or.inl hEq.symm
  · rw [← hEq]
    exact Or.inr hOld

/-
  Writing back a raw transaction that fits keeps the
  invariant; another account's write leaves it alone.
-/
theorem NonceInv.updateRaw
    (hInv : NonceInv c tm a)
    {addr : Address}
    {raw : RawTransaction}
    (hFits : addr = a → RawFits c raw) :
    NonceInv c (tm.updateRaw addr raw) a := by
  by_cases hSame : addr = a
  · subst hSame
    refine hInv.of_mem rfl rfl ?_
    intro r hR
    simp only [TransactionManager.updateRaw, queues,
      setConfirmed_pending,
      setUnconfirmed_pending,
      setPending_pending, setConfirmed_unconfirmed,
        setUnconfirmed_unconfirmed,
      setConfirmed_confirmed, ↓reduceIte,
        List.mem_append] at hR
    have hOld :
        ∀ raws : List RawTransaction,
          r ∈ replaceRaw raw raws →
          (∀ r' ∈ raws, r' ∈ tm.queues addr) →
            r ∈ tm.queues addr ∨ RawFits c r := by
      intro raws hMem hHeld
      rcases mem_replaceRaw hMem with hNew | hPrev
      · rw [hNew]
        exact Or.inr (hFits rfl)
      · exact Or.inl (hHeld r hPrev)
    rcases hR with (hPending | hUnconfirmed) | hConfirmed
    · exact hOld _ hPending (fun r' h =>
        by simp [queues, h])
    · exact hOld _ hUnconfirmed (fun r' h =>
        by simp [queues, h])
    · exact hOld _ hConfirmed (fun r' h =>
        by simp [queues, h])
  · apply hInv.frame
    · simp [TransactionManager.updateRaw,
        queues, Ne.symm hSame]
    · rfl
    · rfl

theorem NonceInv.adjustGasPrice
    (hInv : NonceInv c tm a)
    (backend : Backend)
    (raw : RawTransaction)
    (decrease : Bool) :
    NonceInv c (Tx.adjustGasPrice backend tm raw decrease) a := by
  obtain ⟨gasPrice, hAdjust⟩ := adjustGasPrice_eq backend
    tm raw decrease
  rw [hAdjust]
  exact ⟨hInv.counter, hInv.fits⟩

/- An adjustment made only under a condition. -/
theorem NonceInv.adjustGasPrice_if
    (hInv : NonceInv c tm a)
    (backend : Backend)
    (raw : RawTransaction)
    (decrease : Bool)
    (cond : Prop)
    [Decidable cond] :
    NonceInv c
      (if cond
        then Tx.adjustGasPrice backend tm raw decrease
          else tm) a := by
  split
  · exact hInv.adjustGasPrice backend raw decrease
  · exact hInv

theorem NonceInv.setNumKnownErr
    (hInv : NonceInv c tm a)
    (hash : Option Transaction)
    (n : Nat) :
    NonceInv c (tm.setNumKnownErr hash n) a :=
  ⟨hInv.counter, hInv.fits⟩

/-
  Where a raw transaction of a fitting queue now is, it
  fits.
-/
theorem NonceInv.current_fits
    (hInv : NonceInv c tm a)
    {raw : RawTransaction}
    (hFits : RawFits c raw) :
    RawFits c (tm.current a raw) := by
  unfold current
  cases hFind : (tm.queues a).find? (fun r =>
    r.Index == raw.Index) with
  | none => exact hFits
  | some r =>
      exact hInv.fits r (List.mem_of_find?_eq_some hFind)

/-
  Without a "nonce too low" answer `send` keeps the
  invariant, and the raw transaction it returns fits when
  the one it was given does.
-/
theorem NonceInv.send
    (hInv : NonceInv c tm a)
    (ks : Keystore)
    {backend : Backend}
    (hNoLow : NoNonceTooLow backend)
    (addr : Address)
    {raw : RawTransaction}
    (hFits : addr = a → RawFits c raw) :
    NonceInv c (Tx.send ks backend tm addr raw).2.2 a ∧
      (addr = a → RawFits c (Tx.send ks backend tm addr
        raw).2.1) := by
  unfold Tx.send
  split
  · exact ⟨hInv, hFits⟩
  · obtain ⟨nonce, numKnownErr, hLoop⟩ :=
      sendLoop_snd_snd ks backend addr (MaxNumPending + 1) tm raw
    have hNonce := sendLoop_nonce ks hNoLow addr
      (MaxNumPending + 1) tm raw
    refine ⟨?_, fun hSame => sendLoop_fits ks hNoLow addr _
      tm (hFits hSame)⟩
    rw [hLoop] at hNonce ⊢
    exact hInv.frame rfl (congrFun hNonce a) rfl

theorem NonceInv.resend
    (hInv : NonceInv c tm a)
    (ks : Keystore)
    {backend : Backend}
    (hNoLow : NoNonceTooLow backend)
    (addr : Address)
    {raw : RawTransaction}
    (hFits : addr = a → RawFits c raw) :
    NonceInv c (Tx.resend ks backend tm addr raw) a := by
  obtain ⟨hSent, hSentRaw⟩ := hInv.send ks hNoLow addr hFits
  exact hSent.updateRaw hSentRaw

/-
  Without a "nonce too low" answer the send phase keeps the
  invariant, when the raw transactions of its queue fit.
-/
theorem NonceInv.sendQueue
    (hInv : NonceInv c tm a)
    (ks : Keystore)
    {backend : Backend}
    (hNoLow : NoNonceTooLow backend)
    (addr : Address)
    (queue : List RawTransaction)
    (hQueue : addr = a → ∀ raw ∈ queue, RawFits c raw) :
    NonceInv c (Tx.sendQueue ks backend tm addr queue) a := by
  unfold Tx.sendQueue
  split
  · exact hInv
  split
  · exact hInv
  · rename_i raw hFind
    have hRaw : addr = a → RawFits c raw := by
      intro hSame
      obtain ⟨q, hq, hCurrent⟩ :=
        List.mem_map.mp (List.mem_of_find?_eq_some hFind)
      subst hSame
      rw [← hCurrent]
      exact hInv.current_fits (hQueue rfl q hq)
    obtain ⟨hSentInv, hSentRaw⟩ :=
      hInv.send ks hNoLow addr hRaw
    have hSent := hSentInv.updateRaw hSentRaw
    dsimp only
    generalize Tx.send ks backend tm addr raw =
      sent at hSent hSentRaw ⊢
    obtain ⟨⟨hash, err⟩, sentRaw, sentTm⟩ := sent
    generalize sentTm.updateRaw addr sentRaw =
      updated at hSent ⊢
    split
    · exact (hSent.adjustGasPrice backend sentRaw
        false).resend ks hNoLow addr
        hSentRaw
    split
    · exact hSent.resend ks hNoLow addr hSentRaw
    split
    · exact hSent
    split
    · exact hSent.setNumKnownErr _ _
    · apply NonceInv.resend _ ks hNoLow addr hSentRaw
      apply NonceInv.adjustGasPrice_if
      apply NonceInv.adjustGasPrice_if
      exact hSent

end Tx

end PlasmaEvm

------------------------------------------------------------
-- Runs Without Reorgs or Nonce Refreshes
------------------------------------------------------------

namespace PlasmaEvm

namespace Tx

open PlasmaEvm.Types

variable {c : Int}
variable {tm : TransactionManager}
variable {a : Address}

/-
  A step keeps the nonces of account `a` at offset `c` when
  the raw transaction it adds was never signed, no receipt
  query of its confirmation answers "not found", no send is
  answered "nonce too low", and a send phase of `a` works on
  raw transactions that fit.
-/
def ManagerAction.KeepsNonces
    (c : Int)
    (a : Address) :
    ManagerAction → Prop
  | .add _ raw _ => Unsent raw
  | .clear _ _ => True
  | .confirm _ backend => KeepsMined backend
  | .sendPhase addr backend queue =>
      NoNonceTooLow backend ∧ (addr = a →
        ∀ raw ∈ queue, RawFits c raw)
  | .newHead _ => True

/- One step keeps the invariant. -/
theorem NonceInv.step
    (hInv : NonceInv c tm a)
    (ks : Keystore)
    (action : ManagerAction)
    (hKeeps : action.KeepsNonces c a) :
    NonceInv c (Tx.step ks tm action) a := by
  cases action with
  | add addr raw duplicate =>
      exact hInv.Add ks addr duplicate hKeeps
  | clear addr backend => exact hInv.clearQueue backend addr
  | confirm addr backend =>
      exact hInv.confirmQueue hKeeps addr
  | sendPhase addr backend queue =>
      exact hInv.sendQueue ks hKeeps.1 addr queue hKeeps.2
  | newHead number => exact hInv.frame rfl rfl rfl

/- A run keeps the invariant. -/
theorem NonceInv.run
    (hInv : NonceInv c tm a)
    (ks : Keystore)
    (actions : List ManagerAction)
    (hKeeps : ∀ action ∈ actions, action.KeepsNonces c a) :
    NonceInv c (Tx.run ks tm actions) a := by
  induction actions generalizing tm with
  | nil => exact hInv
  | cons action rest ih =>
      have hStep := hInv.step ks action
        (hKeeps action List.mem_cons_self)
      exact ih hStep (fun b hMem =>
        hKeeps b (List.mem_cons_of_mem _ hMem))

/- A new manager starts at offset zero. -/
theorem NonceInv.NewTransactionManager
    {config : Config}
    (hNew : Tx.NewTransactionManager config = .ok tm)
    (a : Address) :
    NonceInv 0 tm a := by
  unfold Tx.NewTransactionManager at hNew
  split at hNew
  · cases hNew
  · cases hNew
    constructor
    · rfl
    · intro raw hRaw
      cases hRaw

/-
  From a new manager, in a run where every receipt query of
  a confirmation answers, no reorg drops a mined transaction
  and no send is refreshed after "nonce too low", the raw
  transactions of an account carry pairwise distinct nonces.
-/
theorem run_nonces_nodup
    {config : Config}
    (hNew : Tx.NewTransactionManager config = .ok tm)
    (ks : Keystore)
    (actions : List ManagerAction)
    (hAnswers : ∀ action ∈ actions, action.Answers)
    (hKeeps : ∀ action ∈ actions, action.KeepsNonces 0 a) :
    (((Tx.run ks tm actions).queues a).map
      RawTransaction.Nonce).Nodup := by
  have hNonces := (NonceInv.NewTransactionManager hNew
    a).run ks actions hKeeps
  have hQueues := (QueuesInv.NewTransactionManager hNew
    a).run ks actions hAnswers
  exact hNonces.nonces_nodup hQueues

end Tx

end PlasmaEvm

------------------------------------------------------------
-- A Reorg Followed by a Resend
------------------------------------------------------------

namespace PlasmaEvm

namespace Tx

open PlasmaEvm.Types

/-
  After both calls of `bothMined` are mined, a reorg drops
  the block of the second: the root chain keeps the first
  alone. `confirmQueue` finds the second removed and
  prepares it to be sent again, at nonce zero.
-/
def afterReorg : TransactionManager :=
  tick testKeystore (minedChain [firstMined]) bothMined operator

/-
  The next round resends the second call: at nonce zero
  first, which the root chain refuses as too low, then at
  the account nonce it reads back.
-/
def afterResend : TransactionManager :=
  tick testKeystore (minedChain [firstMined]) afterReorg operator

/-
  After the reorg the second call waits at nonce 0, the
  nonce of the first call's mined transaction.  The next
  round signs and sends a transaction of the second call at
  nonce 0, then at the refreshed nonce 1, and sets the
  counter to 1: a third call added then takes nonce 1, the
  nonce of the second.
-/
theorem reorg_resend_reuses_nonce :
    (afterReorg.pending operator).map
        (fun raw => (raw.Index, raw.Nonce,
          raw.Mined)) = [(1, 0, false)] ∧
      (afterReorg.unconfirmed operator).map
        (fun raw => (raw.Index, raw.MinedTxHash.map
          Transaction.nonce)) =
        [(0, some 0)] ∧
      (afterResend.pending operator).map
        (fun raw => (raw.Index, raw.Nonce,
          raw.PendingTxs.map Transaction.nonce)) =
        [(1, 1, [0, 1])] ∧
      afterResend.nonce operator = 1 ∧
      ((Add testKeystore afterResend operator (contractCall
        [3]) false).2.pending
        operator).map (fun raw => (raw.Index,
          raw.Nonce)) = [(1, 1), (2, 1)] := by
  decide +kernel

end Tx

end PlasmaEvm
