import PlasmaEvm.Tx.Types
import Mathlib.Tactic.SplitIfs

/-
  The transaction manager of `tx/manager.go`, which signs
  and sends the operator's raw transactions to the root
  chain and follows them from `pending` (to be sent) to
  `unconfirmed` (mined) to `confirmed` (final), and back to
  `pending` when the root chain drops a mined one.

  The manager is a state record with one function per
  method. What the root chain answers during a call is a
  `Backend`, an argument of the call, so that every run with
  any answers is a run of the model.  The keystore's
  accounts and signatures come with `Keystore`.  Raw
  transactions are pointers in the code; here they are
  values, identified by their `Index`, and the send loop
  writes its changes back with `updateRaw`.

  The periodic loop of `Start` is three steps, each under
  the manager's lock in the code: `clearQueue`,
  `confirmQueue` and the send phase `sendQueue`, which reads
  the pending list as it was before the first two (`queue`).

  Key definitions include:
    * `Backend`, `Keystore`, `TransactionManager`,
      `NewTransactionManager`
    * `Add`, `adjustGasPrice`, `clearQueue`, `confirmQueue`
    * `send`, `sendQueue`, `tick`
    * `ManagerAction`, `step`, `run`
-/

------------------------------------------------------------
-- Manager State
------------------------------------------------------------

namespace PlasmaEvm

namespace Tx

open PlasmaEvm.Types

/- `SendDelay`. -/
def SendDelay : Nat := 2

/- `MaxNumKnownTx`. -/
def MaxNumKnownTx : Nat := 5

/- The errors the manager returns or passes on. -/
inductive ManagerError where
  | ErrUnknownAccount
  | ErrDuplicateRaw
  | ErrNoDuplicateRaw
  | ErrTooManyPending
  | ErrKnownTransaction
  | ErrInsufficientFunds
  | ErrReplaceUnderpriced
  | ErrSendFailed
  deriving DecidableEq, Repr

/-
  The answer of `SendTransaction`, as the send loop reads
  the error message.
-/
inductive SendAnswer where
  | ok
  | insufficientFunds
  | replacementUnderpriced
  | transactionUnderpriced
  | knownTransaction
  | nonceTooLow
  | other
  deriving DecidableEq, Repr

/-
  What the root chain answers during one call: receipts, the
  pending flag of `TransactionByHash`, `NonceAt(latest)` and
  the result of `SendTransaction`.
-/
structure Backend where
  TransactionReceipt : ReceiptQuery
  TransactionByHash : Option Transaction → Except Unit Bool
  NonceAt : Address → Except Unit Nat
  SendTransaction : Transaction → SendAnswer

/-
  The operator's keystore: its accounts and its signatures.
-/
structure Keystore where
  HasAddress : Address → Bool
  Sign : Transaction → Nat × Nat × Nat

/- `ks.SignTx(from, tx, chainId)`. -/
def Keystore.SignTx
    (ks : Keystore)
    (tx : Transaction) :
    Transaction :=
  match ks.Sign tx with
  | (v, r, s) => { tx with v := v, r := r, s := s }

/- Signing keeps the nonce. -/
@[simp] theorem Keystore.SignTx_nonce
    (ks : Keystore)
    (tx : Transaction) :
    (ks.SignTx tx).nonce = tx.nonce := by
  unfold Keystore.SignTx
  split
  rfl

/- Signing keeps the payload. -/
@[simp] theorem Keystore.SignTx_payload
    (ks : Keystore)
    (tx : Transaction) :
    (ks.SignTx tx).payload = tx.payload := by
  unfold Keystore.SignTx
  split
  rfl

/- The fields of `Config` the manager reads. -/
structure Config where
  MinGasPrice : Nat
  MaxGasPrice : Nat

/-
  `TransactionManager`, with the database records the code
  reads back: the raw transaction hashes of `Add`'s
  duplicate check, and the counters of raw and confirmed
  transactions.
-/
structure TransactionManager where
  config : Config
  currentBlockNumber : Nat
  gasPrice : Nat
  addresses : List Address
  confirmed : Address → List RawTransaction
  unconfirmed : Address → List RawTransaction
  pending : Address → List RawTransaction
  nonce : Address → Nat
  numKnownErr : Option Transaction → Nat
  rawTxHashes : Address → List Transaction
  numRawTxs : Address → Nat
  numConfirmedRawTxs : Address → Nat

namespace TransactionManager

/- Replace `pending[addr]`. -/
def setPending
    (tm : TransactionManager)
    (addr : Address)
    (raws : List RawTransaction) : TransactionManager :=
  { tm with pending := Function.update tm.pending addr raws }

/- Replace `unconfirmed[addr]`. -/
def setUnconfirmed
    (tm : TransactionManager)
    (addr : Address)
    (raws : List RawTransaction) : TransactionManager :=
  { tm with
    unconfirmed :=
      Function.update tm.unconfirmed addr raws }

/- Replace `confirmed[addr]`. -/
def setConfirmed
    (tm : TransactionManager)
    (addr : Address)
    (raws : List RawTransaction) : TransactionManager :=
  { tm with confirmed := Function.update tm.confirmed addr raws }

/- Replace `nonce[addr]`. -/
def setNonce
    (tm : TransactionManager)
    (addr : Address)
    (n : Nat) : TransactionManager :=
  { tm with nonce := Function.update tm.nonce addr n }

/- Replace `numKnownErr[hash]`. -/
def setNumKnownErr
    (tm : TransactionManager)
    (hash : Option Transaction)
    (n : Nat) : TransactionManager :=
  { tm with numKnownErr := Function.update tm.numKnownErr hash n }

/- The three queues of an account, pending first. -/
def queues (tm : TransactionManager) (addr : Address) :
    List RawTransaction :=
  tm.pending addr ++ tm.unconfirmed addr ++ tm.confirmed addr

/-
  Where a raw transaction now is: the value held under its
  index, which the code reads through its pointer.
-/
def current
    (tm : TransactionManager)
    (addr : Address)
    (raw : RawTransaction) : RawTransaction :=
  ((tm.queues addr).find? (fun r =>
    r.Index == raw.Index)).getD raw

/-
  Put a changed raw transaction back in place of its index.
-/
def replaceRaw
    (raw : RawTransaction)
    (raws : List RawTransaction) : List RawTransaction :=
  raws.map (fun r => if r.Index = raw.Index then raw else r)

/-
  Write back the changes made through a raw transaction's
  pointer.
-/
def updateRaw
    (tm : TransactionManager)
    (addr : Address)
    (raw : RawTransaction) : TransactionManager :=
  ((tm.setPending addr (replaceRaw raw
    (tm.pending addr))).setUnconfirmed
    addr (replaceRaw raw (tm.unconfirmed addr))).setConfirmed
    addr (replaceRaw raw (tm.confirmed addr))

@[simp] theorem setPending_pending
    (tm : TransactionManager)
    (addr a : Address)
    (raws : List RawTransaction) :
    (tm.setPending addr raws).pending a =
      if a = addr then raws else tm.pending a := by
  simp [setPending, Function.update_apply]

@[simp] theorem setUnconfirmed_unconfirmed
    (tm : TransactionManager)
    (addr a : Address)
    (raws : List RawTransaction) :
    (tm.setUnconfirmed addr raws).unconfirmed a =
      if a = addr then raws else tm.unconfirmed a := by
  simp [setUnconfirmed, Function.update_apply]

@[simp] theorem setConfirmed_confirmed
    (tm : TransactionManager)
    (addr a : Address)
    (raws : List RawTransaction) :
    (tm.setConfirmed addr raws).confirmed a =
      if a = addr then raws else tm.confirmed a := by
  simp [setConfirmed, Function.update_apply]

@[simp] theorem setPending_unconfirmed
    (tm : TransactionManager)
    (addr : Address)
    (raws : List RawTransaction) :
    (tm.setPending addr raws).unconfirmed =
      tm.unconfirmed := rfl

@[simp] theorem setPending_confirmed
    (tm : TransactionManager)
    (addr : Address)
    (raws : List RawTransaction) :
    (tm.setPending addr raws).confirmed =
      tm.confirmed := rfl

@[simp] theorem setPending_numRawTxs
    (tm : TransactionManager)
    (addr : Address)
    (raws : List RawTransaction) :
    (tm.setPending addr raws).numRawTxs =
      tm.numRawTxs := rfl

@[simp] theorem setPending_addresses
    (tm : TransactionManager)
    (addr : Address)
    (raws : List RawTransaction) :
    (tm.setPending addr raws).addresses =
      tm.addresses := rfl

@[simp] theorem setUnconfirmed_pending
    (tm : TransactionManager)
    (addr : Address)
    (raws : List RawTransaction) :
    (tm.setUnconfirmed addr raws).pending =
      tm.pending := rfl

@[simp] theorem setUnconfirmed_confirmed
    (tm : TransactionManager)
    (addr : Address)
    (raws : List RawTransaction) :
    (tm.setUnconfirmed addr raws).confirmed =
      tm.confirmed := rfl

@[simp] theorem setUnconfirmed_numRawTxs
    (tm : TransactionManager)
    (addr : Address)
    (raws : List RawTransaction) :
    (tm.setUnconfirmed addr raws).numRawTxs =
      tm.numRawTxs := rfl

@[simp] theorem setUnconfirmed_addresses
    (tm : TransactionManager)
    (addr : Address)
    (raws : List RawTransaction) :
    (tm.setUnconfirmed addr raws).addresses =
      tm.addresses := rfl

@[simp] theorem setConfirmed_pending
    (tm : TransactionManager)
    (addr : Address)
    (raws : List RawTransaction) :
    (tm.setConfirmed addr raws).pending = tm.pending := rfl

@[simp] theorem setConfirmed_unconfirmed
    (tm : TransactionManager)
    (addr : Address)
    (raws : List RawTransaction) :
    (tm.setConfirmed addr raws).unconfirmed =
      tm.unconfirmed := rfl

@[simp] theorem setConfirmed_numRawTxs
    (tm : TransactionManager)
    (addr : Address)
    (raws : List RawTransaction) :
    (tm.setConfirmed addr raws).numRawTxs =
      tm.numRawTxs := rfl

@[simp] theorem setConfirmed_addresses
    (tm : TransactionManager)
    (addr : Address)
    (raws : List RawTransaction) :
    (tm.setConfirmed addr raws).addresses =
      tm.addresses := rfl

@[simp] theorem setPending_nonce
    (tm : TransactionManager)
    (addr : Address)
    (raws : List RawTransaction) :
    (tm.setPending addr raws).nonce = tm.nonce := rfl

@[simp] theorem setUnconfirmed_nonce
    (tm : TransactionManager)
    (addr : Address)
    (raws : List RawTransaction) :
    (tm.setUnconfirmed addr raws).nonce = tm.nonce := rfl

@[simp] theorem setConfirmed_nonce
    (tm : TransactionManager)
    (addr : Address)
    (raws : List RawTransaction) :
    (tm.setConfirmed addr raws).nonce = tm.nonce := rfl

end TransactionManager

/- `params.GWei`. -/
def GWei : Nat := 1000000000

/-
  `NewTransactionManager(ks, backend, db, config)` on an
  empty database: no account is loaded.  `ReadGasPrice` of
  an empty database gives 10 gwei, which is also the price
  of `DefaultConfig` taken when the configured one is zero,
  so the gas price is 10 gwei kept within the configured
  bounds.
-/
def NewTransactionManager
    (config : Config) :
    Except Unit TransactionManager :=
  if config.MaxGasPrice < config.MinGasPrice then .error ()
  else
    let gasPrice := 10 * GWei
    let gasPrice :=
      if gasPrice < config.MinGasPrice
        then config.MinGasPrice else gasPrice
    let gasPrice :=
      if config.MaxGasPrice < gasPrice
        then config.MaxGasPrice else gasPrice
    .ok
      { config := config
        currentBlockNumber := 0
        gasPrice := gasPrice
        addresses := []
        confirmed := fun _ => []
        unconfirmed := fun _ => []
        pending := fun _ => []
        nonce := fun _ => 0
        numKnownErr := fun _ => 0
        rawTxHashes := fun _ => []
        numRawTxs := fun _ => 0
        numConfirmedRawTxs := fun _ => 0 }

end Tx

end PlasmaEvm

------------------------------------------------------------
-- Adding Raw Transactions
------------------------------------------------------------

namespace PlasmaEvm

namespace Tx

open PlasmaEvm.Types

open TransactionManager

/-
  The first raw transaction of an account the manager does
  not know yet opens its three queues.
-/
def openAccount
    (tm : TransactionManager)
    (addr : Address) : TransactionManager :=
  if addr ∈ tm.addresses then tm
  else
    ((({ tm with
      addresses := tm.addresses ++ [addr] }).setConfirmed
      addr []).setUnconfirmed addr []).setPending addr []

/-
  A raw transaction takes the next index and the next nonce
  of the account and joins `pending`.
-/
def enqueueRaw
    (tm : TransactionManager)
    (addr : Address)
    (raw : RawTransaction) : TransactionManager :=
  let i := tm.numRawTxs addr
  let raw := { raw with Index := i, Nonce := tm.nonce addr }
  let tm :=
    { tm with
      numRawTxs := Function.update tm.numRawTxs addr (i + 1)
      nonce :=
        Function.update tm.nonce addr (tm.nonce addr + 1) }
  tm.setPending addr (tm.pending addr ++ [raw])

/-
  `Add(account, raw, duplicate)`: a unique raw transaction
  must not have been added before and a duplicate one must
  have been; then it is numbered and queued.
-/
def Add
    (ks : Keystore)
    (tm : TransactionManager)
    (addr : Address)
    (raw : RawTransaction)
    (duplicate : Bool) :
    Except ManagerError Unit × TransactionManager :=
  if !ks.HasAddress addr
    then (.error .ErrUnknownAccount, tm)
  else
    let tm := openAccount tm addr
    let known := raw.Hash ∈ tm.rawTxHashes addr
    if !duplicate ∧ known then (.error .ErrDuplicateRaw, tm)
    else if duplicate ∧ ¬ known then
      (.error .ErrNoDuplicateRaw, tm)
    else
      let tm :=
        if duplicate then tm
        else
          { tm with
            rawTxHashes :=
              Function.update tm.rawTxHashes addr
              (tm.rawTxHashes addr ++ [raw.Hash]) }
      (.ok (), enqueueRaw tm addr raw)

/-
  What `Add` leaves: the manager as it was, the account
  opened, or the raw transaction queued (after the hash of a
  unique one is recorded).
-/
theorem Add_cases
    (ks : Keystore)
    (tm : TransactionManager)
    (addr : Address)
    (raw : RawTransaction)
    (duplicate : Bool) :
    (Add ks tm addr raw duplicate).2 = tm ∨
      (Add ks tm addr raw duplicate).2 =
        openAccount tm addr ∨
      ∃ rawTxHashes,
        (Add ks tm addr raw duplicate).2 =
          enqueueRaw
            { openAccount tm addr with rawTxHashes := rawTxHashes }
            addr raw := by
  unfold Add
  split
  · exact Or.inl rfl
  · dsimp only
    split
    · exact Or.inr (Or.inl rfl)
    · split
      · exact Or.inr (Or.inl rfl)
      · refine Or.inr (Or.inr ?_)
        split
        · exact ⟨(openAccount tm addr).rawTxHashes, rfl⟩
        · exact ⟨_, rfl⟩

end Tx

end PlasmaEvm

------------------------------------------------------------
-- Clearing and Confirming the Queues
------------------------------------------------------------

namespace PlasmaEvm

namespace Tx

open PlasmaEvm.Types

open TransactionManager

variable (backend : Backend)

/-
  The new gas price of `adjustGasPrice`: 0.4 (or 1.2) times
  the manager's, kept within the configured bounds.
-/
def adjustedGasPrice
    (config : Config)
    (gasPrice : Nat)
    (decrease : Bool) : Nat :=
  let gasPrice := if decrease
    then gasPrice / 10 * 4 else gasPrice / 10 * 12
  let gasPrice :=
    if gasPrice < config.MinGasPrice
      then config.MinGasPrice else gasPrice
  if config.MaxGasPrice < gasPrice
    then config.MaxGasPrice else gasPrice

/-
  `adjustGasPrice(raw, decrease)`: nothing while the mined
  transaction is pending or cannot be read; otherwise the
  adjusted gas price.
-/
def adjustGasPrice
    (tm : TransactionManager)
    (raw : RawTransaction)
    (decrease : Bool) : TransactionManager :=
  let unreadable :=
    raw.Mined &&
      match backend.TransactionByHash raw.MinedTxHash with
      | .ok isPending => isPending
      | .error _ => true
  if unreadable then tm
  else { tm with
    gasPrice :=
      adjustedGasPrice tm.config tm.gasPrice decrease }

/- `adjustGasPrice` changes the gas price alone. -/
theorem adjustGasPrice_eq
    (tm : TransactionManager)
    (raw : RawTransaction)
    (decrease : Bool) :
    ∃ gasPrice,
      adjustGasPrice backend tm raw decrease =
        { tm with gasPrice := gasPrice } := by
  unfold adjustGasPrice
  dsimp only
  split_ifs
  · exact ⟨tm.gasPrice, rfl⟩
  · exact ⟨_, rfl⟩

/-
  The first loop of `clearQueue`: `CheckMined` along the
  pending raw transactions up to the first one not mined;
  each mined one lowers the gas price.
-/
def checkMinedLoop :
    TransactionManager → List RawTransaction →
      List RawTransaction × TransactionManager
  | tm, [] => ([], tm)
  | tm, raw :: rest =>
      match raw.CheckMined backend.TransactionReceipt with
      | (false, raw) => (raw :: rest, tm)
      | (true, raw) =>
          let checked :=
            checkMinedLoop (adjustGasPrice backend
              tm raw true) rest
          (raw :: checked.1, checked.2)

/- The checks keep the indices of the raw transactions. -/
theorem checkMinedLoop_map_Index
    (tm : TransactionManager)
    (raws : List RawTransaction) :
    (checkMinedLoop backend tm raws).1.map RawTransaction.Index =
      raws.map RawTransaction.Index := by
  induction raws generalizing tm with
  | nil => rfl
  | cons raw rest ih =>
      unfold checkMinedLoop
      rcases hCheck : raw.CheckMined
        backend.TransactionReceipt with
        ⟨mined, checked⟩
      have hIndex : checked.Index = raw.Index := by
        have h := RawTransaction.CheckMined_Index raw
          backend.TransactionReceipt
        rw [hCheck] at h
        exact h
      cases mined with
      | false => simp [hIndex]
      | true => simp [hIndex, ih]

/- The checks change the gas price alone. -/
theorem checkMinedLoop_snd
    (tm : TransactionManager)
    (raws : List RawTransaction) :
    ∃ gasPrice,
      (checkMinedLoop backend tm raws).2 =
        { tm with gasPrice := gasPrice } := by
  induction raws generalizing tm with
  | nil => exact ⟨tm.gasPrice, rfl⟩
  | cons raw rest ih =>
      unfold checkMinedLoop
      rcases raw.CheckMined backend.TransactionReceipt
        with ⟨mined, checked⟩
      cases mined with
      | false => exact ⟨tm.gasPrice, rfl⟩
      | true =>
          obtain ⟨adjusted, hAdjust⟩ :=
            adjustGasPrice_eq backend tm checked true
          obtain ⟨gasPrice, hRest⟩ := ih { tm with
            gasPrice := adjusted }
          refine ⟨gasPrice, ?_⟩
          simp only [hAdjust]
          exact hRest

/-
  `clearQueue(addr)`: check which pending raw transactions
  are mined, then move the mined ones at the front of
  `pending` to `unconfirmed`.  The checks change the raw
  transactions through their pointers, so the queues hold
  what they leave.
-/
def clearQueue
    (tm : TransactionManager)
    (addr : Address) : TransactionManager :=
  if tm.pending addr = [] then tm
  else
    let checked :=
      checkMinedLoop backend tm (tm.pending addr)
    let tm := checked.2.setPending addr checked.1
    let minedRaws :=
      checked.1.takeWhile RawTransaction.Mined
    if minedRaws.length = 0 then tm
    else
      (tm.setUnconfirmed addr (tm.unconfirmed addr ++
        minedRaws)).setPending
        addr (checked.1.drop minedRaws.length)

/-
  The removal loop of `confirmQueue`: the raw transactions
  the root chain dropped, prepared to be sent again; those
  kept; and whether any was looked at (`lastRemovedRaw !=
  nil`).  A failed query breaks the loop.
-/
def removalLoop :
    List RawTransaction →
      List RawTransaction × List RawTransaction × Bool
  | [] => ([], [], false)
  | raw :: rest =>
      match raw.Removed backend.TransactionReceipt with
      | .error () => ([], [], false)
      | .ok true =>
          let looked := removalLoop rest
          (raw.PrepareToResend :: looked.1,
            looked.2.1, true)
      | .ok false =>
          let looked := removalLoop rest
          (looked.1, raw :: looked.2.1, true)

/-
  The confirmation loop of `confirmQueue`: the unconfirmed
  raw transactions confirmed at the front, numbered from
  `numConfirmed`, and the rest.
-/
def confirmLoop (currentBlockNumber : Nat) :
    Nat → List RawTransaction → List RawTransaction ×
      List RawTransaction
  | _, [] => ([], [])
  | numConfirmed, raw :: rest =>
      match raw.Confirmed backend.TransactionReceipt
        currentBlockNumber with
      | (false, raw) => ([], raw :: rest)
      | (true, raw) =>
          let confirmed :=
            confirmLoop currentBlockNumber (numConfirmed + 1) rest
          ({ raw with
            ConfirmedIndex := numConfirmed } :: confirmed.1,
            confirmed.2)

/- `sort.Sort(RawTransactionsByIndex(...))`. -/
def sortByIndex
    (raws : List RawTransaction) :
    List RawTransaction :=
  raws.mergeSort (fun a b => decide (a.Index ≤ b.Index))

/-
  The first half of `confirmQueue`: once the removal loop
  has looked at a raw transaction, `unconfirmed` becomes the
  ones kept and those sent again join `pending`, sorted
  again.
-/
def requeueRemoved
    (tm : TransactionManager)
    (addr : Address) : TransactionManager :=
  let looked := removalLoop backend (tm.unconfirmed addr)
  if looked.2.2 then
    (tm.setUnconfirmed addr looked.2.1).setPending addr
      (sortByIndex (tm.pending addr ++ looked.1))
  else tm

/-
  The second half: those confirmed at the front of
  `unconfirmed` move to `confirmed`, numbered on from the
  count of confirmed raw transactions.
-/
def moveConfirmed
    (tm : TransactionManager)
    (addr : Address) : TransactionManager :=
  let numConfirmed := tm.numConfirmedRawTxs addr
  let confirmed :=
    confirmLoop backend tm.currentBlockNumber numConfirmed
      (tm.unconfirmed addr)
  let tm :=
    (tm.setConfirmed addr (tm.confirmed addr ++
      confirmed.1)).setUnconfirmed
      addr confirmed.2
  { tm with
    numConfirmedRawTxs := Function.update
      tm.numConfirmedRawTxs addr
      (numConfirmed + confirmed.1.length) }

/-
  `confirmQueue(addr)`: nothing when `unconfirmed` is empty,
  otherwise its two halves.
-/
def confirmQueue
    (tm : TransactionManager)
    (addr : Address) : TransactionManager :=
  if tm.unconfirmed addr = [] then tm
  else moveConfirmed backend (requeueRemoved backend tm addr) addr

end Tx

end PlasmaEvm

------------------------------------------------------------
-- Sending
------------------------------------------------------------

namespace PlasmaEvm

namespace Tx

open PlasmaEvm.Types

open TransactionManager

variable (ks : Keystore)
variable (backend : Backend)

/-
  The helper `f` of `send`: sign the raw transaction at the
  manager's gas price, record and send the signed one, and
  on "nonce too low" read the account nonce again and retry.
  Returns the hash of the last signed transaction and the
  error.  Every retry first records one more signed
  transaction, and `AddPending` refuses beyond
  `MaxNumPending`, so `MaxNumPending + 1` rounds bound it.
  A known transaction is resubmitted at most MaxNumKnownTx
  times, and a failed `NonceAt` still stores its zero
  result.
-/
def sendLoop (addr : Address) :
    Nat → TransactionManager → RawTransaction →
      (Option Transaction × Option ManagerError) ×
        RawTransaction ×
        TransactionManager
  | 0, tm, raw => ((none, none), raw, tm)
  | fuel + 1, tm, raw =>
      let blockNumber := tm.currentBlockNumber
      if raw.LastSentBlockNumber ≠ 0 ∧
          raw.LastSentBlockNumber + SendDelay ≤
            blockNumber then
        ((none, none), { raw with
          LastSentBlockNumber := blockNumber }, tm)
      else
        let signedTx :=
          ks.SignTx (raw.ToTransaction tm.gasPrice)
        if raw.HasPending signedTx
          then ((some signedTx, none), raw, tm)
        else
          match raw.AddPending signedTx with
          | none =>
              ((some signedTx,
                some .ErrTooManyPending), raw, tm)
          | some raw =>
              let raw := { raw with
                LastSentBlockNumber := blockNumber }
              match backend.SendTransaction signedTx with
              | .ok => ((some signedTx, none), raw, tm)
              | .insufficientFunds =>
                  ((some signedTx,
                    some .ErrInsufficientFunds), raw, tm)
              | .replacementUnderpriced =>
                  ((some signedTx,
                    some .ErrReplaceUnderpriced), raw, tm)
              | .transactionUnderpriced =>
                  ((some signedTx,
                    some .ErrReplaceUnderpriced), raw, tm)
              | .knownTransaction =>
                  let count :=
                    tm.numKnownErr (some signedTx) + 1
                  let count := if count = MaxNumKnownTx
                    then 0 else count
                  ((some signedTx,
                    some .ErrKnownTransaction), raw,
                    tm.setNumKnownErr (some signedTx) count)
              | .nonceTooLow =>
                  match backend.NonceAt addr with
                  | .error () =>
                      sendLoop addr fuel (tm.setNonce addr 0) raw
                  | .ok nonce =>
                      sendLoop addr fuel (tm.setNonce addr nonce)
                        { raw with Nonce := nonce }
              | .other =>
                  ((some signedTx,
                    some .ErrSendFailed), raw, tm)

/-
  The send loop changes the account nonce and the counts of
  known-transaction errors, nothing else of the manager.
-/
theorem sendLoop_snd_snd
    (addr : Address)
    (fuel : Nat)
    (tm : TransactionManager)
    (raw : RawTransaction) :
    ∃ nonce numKnownErr,
      (sendLoop ks backend addr fuel tm raw).2.2 =
        { tm with nonce := nonce, numKnownErr := numKnownErr } := by
  induction fuel generalizing tm raw with
  | zero => exact ⟨tm.nonce, tm.numKnownErr, rfl⟩
  | succ fuel ih =>
      unfold sendLoop
      dsimp only
      split
      · exact ⟨tm.nonce, tm.numKnownErr, rfl⟩
      split
      · exact ⟨tm.nonce, tm.numKnownErr, rfl⟩
      split
      · exact ⟨tm.nonce, tm.numKnownErr, rfl⟩
      split
      · exact ⟨tm.nonce, tm.numKnownErr, rfl⟩
      · exact ⟨tm.nonce, tm.numKnownErr, rfl⟩
      · exact ⟨tm.nonce, tm.numKnownErr, rfl⟩
      · exact ⟨tm.nonce, tm.numKnownErr, rfl⟩
      · exact ⟨tm.nonce, _, rfl⟩
      · split
        · obtain ⟨nonce, numKnownErr, hRetry⟩ :=
            ih (tm.setNonce addr 0) _
          exact ⟨nonce, numKnownErr, by rw [hRetry]; rfl⟩
        · obtain ⟨nonce, numKnownErr, hRetry⟩ :=
            ih (tm.setNonce addr _) _
          exact ⟨nonce, numKnownErr, by rw [hRetry]; rfl⟩
      · exact ⟨tm.nonce, tm.numKnownErr, rfl⟩

/-
  `send(addr, raw)`: a mined raw transaction is not sent
  again.
-/
def send
    (tm : TransactionManager)
    (addr : Address)
    (raw : RawTransaction) :
    (Option Transaction × Option ManagerError) × RawTransaction ×
      TransactionManager :=
  if raw.Mined then ((raw.MinedTxHash, none), raw, tm)
  else sendLoop ks backend addr (MaxNumPending + 1) tm raw

/-
  Send again after a first attempt and write the raw
  transaction back.
-/
def resend
    (tm : TransactionManager)
    (addr : Address)
    (raw : RawTransaction) : TransactionManager :=
  let sent := send ks backend tm addr raw
  sent.2.2.updateRaw addr sent.2.1

/-
  The send phase of the loop of `Start`: the first raw
  transaction of the earlier `queue` not mined by now is
  sent, and sent again after an error or when its
  transaction is not found, with the gas price raised first.
-/
def sendQueue
    (tm : TransactionManager)
    (addr : Address)
    (queue : List RawTransaction) : TransactionManager :=
  if queue = [] then tm
  else
    match (queue.map (tm.current addr)).find? (fun raw =>
      !raw.Mined) with
    | none => tm
    | some raw =>
        let sent := send ks backend tm addr raw
        let hash := sent.1.1
        let err := sent.1.2
        let raw := sent.2.1
        let tm := sent.2.2.updateRaw addr raw
        if err = some .ErrReplaceUnderpriced then
          resend ks backend (adjustGasPrice backend tm raw
            false) addr raw
        else if err = some .ErrInsufficientFunds then
          resend ks backend tm addr raw
        else
          match backend.TransactionReceipt hash with
          | .ok _ => tm
          | .error err2 =>
              if err = some .ErrKnownTransaction ∧
                  tm.numKnownErr hash ≤ MaxNumKnownTx then
                tm.setNumKnownErr hash (tm.numKnownErr hash + 1)
              else
                let fixed := err = some .ErrKnownTransaction
                let tm :=
                  if err2 = .NotFound
                    then adjustGasPrice backend tm raw false
                  else tm
                let fixed := fixed ∨ err2 = .NotFound
                let tm :=
                  if err.isSome ∧ ¬ fixed
                    then adjustGasPrice backend tm raw false
                  else tm
                resend ks backend tm addr raw

/-
  One round of the loop of `Start` for an account, when no
  other step comes between its three parts.
-/
def tick
    (tm : TransactionManager)
    (addr : Address) : TransactionManager :=
  let queue := tm.pending addr
  let tm := clearQueue backend tm addr
  let tm := confirmQueue backend tm addr
  sendQueue ks backend tm addr queue

end Tx

end PlasmaEvm

------------------------------------------------------------
-- Runs
------------------------------------------------------------

namespace PlasmaEvm

namespace Tx

open PlasmaEvm.Types

/-
  The steps of the manager, each done under its lock: an
  `Add`, the three parts of a round of `Start` (the send
  part with the pending list it read at the start of the
  round), `confirmQueue` from `confirmLoop`, and a new
  root-chain head.
-/
inductive ManagerAction where
  | add (addr : Address) (raw : RawTransaction) (duplicate : Bool)
  | clear (addr : Address) (backend : Backend)
  | confirm (addr : Address) (backend : Backend)
  | sendPhase (addr : Address) (backend : Backend)
      (queue : List RawTransaction)
  | newHead (number : Nat)

/- One step of the manager. -/
def step
    (ks : Keystore)
    (tm : TransactionManager) :
    ManagerAction → TransactionManager
  | .add addr raw duplicate =>
      (Add ks tm addr raw duplicate).2
  | .clear addr backend => clearQueue backend tm addr
  | .confirm addr backend => confirmQueue backend tm addr
  | .sendPhase addr backend queue =>
      sendQueue ks backend tm addr queue
  | .newHead number =>
      { tm with currentBlockNumber := number }

/- A run of the manager. -/
def run
    (ks : Keystore)
    (tm : TransactionManager)
    (actions : List ManagerAction) : TransactionManager :=
  actions.foldl (step ks) tm

end Tx

end PlasmaEvm
