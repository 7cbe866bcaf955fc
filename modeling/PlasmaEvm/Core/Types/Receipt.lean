import PlasmaEvm.Core.Types.DeriveSha

/-
  Receipts of `core/types/receipt.go` and logs of
  `core/types/log.go`: their consensus fields, the status
  codes, and the receipt root of a block header, which the
  plasma chain takes with `DeriveShaFromBMT` over the
  receipts' RLP encodings.

  The RLP encoding `GetRlp` is not modelled: it is a
  parameter, the same for `Receipt.GetRlp()` and
  `Receipts.GetRlp(i)`, which both encode one receipt.  The
  bloom filter is a function of the logs and is left out.

  Key definitions include:
    * `Log`, `Receipt`
    * `ReceiptStatusFailed`, `ReceiptStatusSuccessful`
    * `ReceiptHash`
-/

------------------------------------------------------------
-- Logs and Receipts
------------------------------------------------------------

namespace PlasmaEvm

namespace Types

/-
  `ReceiptStatusFailed`: the status of a failed transaction.
-/
def ReceiptStatusFailed : Nat := 0

/- `ReceiptStatusSuccessful`. -/
def ReceiptStatusSuccessful : Nat := 1

/- The consensus fields of `types.Log`. -/
structure Log where
  Address : Address
  Topics : List Nat
  Data : Bytes
  deriving DecidableEq, Repr

/-
  The consensus fields of `types.Receipt`: the post state
  (empty after Byzantium), the status, the gas used by the
  block up to this transaction, and the logs.
-/
structure Receipt where
  PostState : Bytes
  Status : Nat
  CumulativeGasUsed : Nat
  Logs : List Log
  deriving DecidableEq, Repr

variable {H : Type}
variable (keccak : Keccak H)
variable (GetRlp : Receipt → Bytes)

/-
  `DeriveShaFromBMT(Receipts(receipts))`: the receipt root
  of a block header, as `NewBlock` sets it and
  `ValidateState` checks it.
-/
def ReceiptHash
    (EmptyRootHash : H)
    (receipts : List Receipt) : H :=
  DeriveShaFromBMT keccak EmptyRootHash (receipts.map GetRlp)

end Types

end PlasmaEvm
