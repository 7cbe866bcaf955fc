import PlasmaEvm.Core.Types.Transaction

/-
  The raw transactions of `tx/types.go`: what the operator
  asks the transaction manager to send to the root chain,
  with the signed transactions sent for it and, once one of
  them is mined, its hash.

  A transaction hash is modelled by the transaction itself
  (keccak taken as injective), and the zero hash by `none`.
  The root chain's answers to `TransactionReceipt` are
  arguments of the methods that ask it.

  Key definitions include:
    * `Receipt`, `ReceiptError`
    * `RawTransaction`
    * `RawTransaction.CheckMined`, `RawTransaction.Removed`,
      `RawTransaction.PrepareToResend`,
      `RawTransaction.Confirmed`
-/

------------------------------------------------------------
-- Receipts
------------------------------------------------------------

namespace PlasmaEvm

namespace Tx

open PlasmaEvm.Types

/-
  `MaxNumPending`: signed transactions one raw transaction
  keeps.
-/
def MaxNumPending : Nat := 128

/-
  `Confirmation`: blocks after which a mined transaction is
  final.
-/
def Confirmation : Nat := 32

/- The fields of a root-chain receipt the manager reads. -/
structure Receipt where
  Status : Nat
  BlockNumber : Nat
  deriving DecidableEq, Repr

/-
  Why `TransactionReceipt` gives no receipt: the transaction
  is not known (`ethereum.NotFound`) or the call failed.
-/
inductive ReceiptError where
  | NotFound
  | Failed
  deriving DecidableEq, Repr

/-
  The root chain's receipt query, keyed by transaction hash.
-/
abbrev ReceiptQuery := Option Transaction →
    Except ReceiptError Receipt

end Tx

end PlasmaEvm

------------------------------------------------------------
-- Raw Transactions
------------------------------------------------------------

namespace PlasmaEvm

namespace Tx

open PlasmaEvm.Types

/-
  `RawTransaction`.  `Index` is assigned by `Add`, one per
  account; `Nonce` by `Add` and `send`; `PendingTxs` holds
  the signed transactions sent and `MinedTxHash` the one
  that was mined.  Raw transactions always carry a recipient
  (the root-chain contract), so `Recipient` is not optional.
-/
structure RawTransaction where
  Index : Nat
  ConfirmedIndex : Nat
  ResendCount : Nat
  LastSentBlockNumber : Nat
  Nonce : Nat
  From : Address
  GasLimit : Nat
  Recipient : Address
  Amount : Int
  Payload : Bytes
  AllowRevert : Bool
  PendingTxs : List Transaction
  MinedTxHash : Option Transaction
  MinedBlockNumber : Nat
  Reverted : Bool
  deriving DecidableEq, Repr

namespace RawTransaction

/-
  `NewRawTransaction(from, gasLimit, receipt, amount,
  payload, allowRevert, caption)`.
-/
def NewRawTransaction
    (From : Address)
    (GasLimit : Nat)
    (Recipient : Address)
    (Amount : Int)
    (Payload : Bytes)
    (AllowRevert : Bool) : RawTransaction where
  Index := 0
  ConfirmedIndex := 0
  ResendCount := 0
  LastSentBlockNumber := 0
  Nonce := 0
  From := From
  GasLimit := GasLimit
  Recipient := Recipient
  Amount := Amount
  Payload := Payload
  AllowRevert := AllowRevert
  PendingTxs := []
  MinedTxHash := none
  MinedBlockNumber := 0
  Reverted := false

/-
  `ToTransaction(gasPrice)`: the unsigned transaction at the
  raw nonce.
-/
def ToTransaction
    (raw : RawTransaction)
    (gasPrice : Nat) :
    Transaction where
  nonce := raw.Nonce
  gasPrice := gasPrice
  gas := raw.GasLimit
  recipient := some raw.Recipient
  value := raw.Amount
  payload := raw.Payload
  v := 0
  r := 0
  s := 0

/- `Hash()`: the transaction at nonce 0 and gas price 0. -/
def Hash (raw : RawTransaction) : Transaction :=
  raw.ToTransaction 0

/-
  `AddPending(tx)`: at most `MaxNumPending` signed
  transactions.
-/
def AddPending
    (raw : RawTransaction)
    (tx : Transaction) : Option RawTransaction :=
  if MaxNumPending ≤ raw.PendingTxs.length then none
  else some { raw with PendingTxs := raw.PendingTxs ++ [tx] }

/- `HasPending(tx)`. -/
def HasPending
    (raw : RawTransaction)
    (tx : Transaction) :
    Bool :=
  raw.PendingTxs.contains tx

/- `Mined()`: a mined transaction hash is recorded. -/
def Mined (raw : RawTransaction) : Bool :=
  raw.MinedTxHash.isSome

/-
  The first signed transaction with a receipt.  A failed
  query gives a nil receipt, which the loop skips.
-/
def firstReceipt
    (TransactionReceipt : ReceiptQuery) :
    List Transaction → Option (Transaction × Receipt)
  | [] => none
  | tx :: rest =>
      match TransactionReceipt (some tx) with
      | .ok receipt => some (tx, receipt)
      | .error _ => firstReceipt TransactionReceipt rest

/-
  `CheckMined(backend, false)`: a raw transaction already
  mined stays so; otherwise the first signed transaction
  with a receipt becomes the mined one and the others are
  dropped.
-/
def CheckMined
    (raw : RawTransaction)
    (TransactionReceipt : ReceiptQuery) :
    Bool × RawTransaction :=
  if raw.Mined then (true, raw)
  else
    match firstReceipt TransactionReceipt raw.PendingTxs with
    | none => (false, raw)
    | some (tx, receipt) =>
        (true,
          { raw with
            Reverted := receipt.Status == 0
            MinedBlockNumber := receipt.BlockNumber
            MinedTxHash := some tx
            PendingTxs := [] })

/-
  `Removed(backend)`: the mined transaction is unknown to
  the root chain; another failure of the query is an error.
-/
def Removed
    (raw : RawTransaction)
    (TransactionReceipt : ReceiptQuery) :
    Except Unit Bool :=
  match TransactionReceipt raw.MinedTxHash with
  | .error .NotFound => .ok true
  | .error .Failed => .error ()
  | .ok _ => .ok false

/-
  `PrepareToResend()`: forget the mined transaction and the
  signed ones, and reset the nonce to zero.
-/
def PrepareToResend
    (raw : RawTransaction) :
    RawTransaction :=
  { raw with
    ResendCount := raw.ResendCount + 1
    MinedTxHash := none
    LastSentBlockNumber := 0
    ConfirmedIndex := 0
    Nonce := 0
    MinedBlockNumber := 0
    Reverted := false
    PendingTxs := [] }

/-
  `Confirmed(backend, currentBlockNumber)`: mined at least
  `Confirmation` blocks ago; a found receipt updates the
  mined block number.
-/
def Confirmed
    (raw : RawTransaction)
    (TransactionReceipt : ReceiptQuery)
    (currentBlockNumber : Nat) : Bool × RawTransaction :=
  if !raw.Mined then (false, raw)
  else
    match TransactionReceipt raw.MinedTxHash with
    | .error _ => (false, raw)
    | .ok receipt =>
        (decide (receipt.BlockNumber + Confirmation ≤
          currentBlockNumber),
          { raw with MinedBlockNumber := receipt.BlockNumber })

/- The unsigned transaction is at the raw nonce. -/
@[simp] theorem ToTransaction_nonce
    (raw : RawTransaction)
    (gasPrice : Nat) :
    (raw.ToTransaction gasPrice).nonce = raw.Nonce := rfl

/- The methods above never change `Index`. -/
@[simp] theorem CheckMined_Index
    (raw : RawTransaction)
    (TransactionReceipt : ReceiptQuery) :
    (raw.CheckMined TransactionReceipt).2.Index =
      raw.Index := by
  unfold CheckMined
  split
  · rfl
  · split <;> rfl

@[simp] theorem PrepareToResend_Index
    (raw : RawTransaction) :
    raw.PrepareToResend.Index = raw.Index := rfl

@[simp] theorem Confirmed_Index
    (raw : RawTransaction)
    (TransactionReceipt : ReceiptQuery)
    (currentBlockNumber : Nat) :
    (raw.Confirmed TransactionReceipt
      currentBlockNumber).2.Index =
      raw.Index := by
  unfold Confirmed
  split
  · rfl
  · split <;> rfl

end RawTransaction

end Tx

end PlasmaEvm
