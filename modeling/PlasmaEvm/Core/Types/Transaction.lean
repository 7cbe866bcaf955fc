import PlasmaEvm.Common.Types

/-
  Transactions of `core/types/transaction.go`, their sender
  under `EIP155Signer` (`transaction_signing.go`), and the
  protocol constants and intrinsic gas of the core package
  (`params/protocol_params.go`, `core/state_transition.go`).

  Signature recovery (`recoverPlain`, secp256k1) is not
  modelled: it is a parameter of `Sender`.

  Key definitions include:
    * `Transaction`, `Transaction.Cost`,
      `Transaction.Protected`
    * `Sender`
    * `IntrinsicGas`
    * `CoreError`
-/

------------------------------------------------------------
-- Parameters
------------------------------------------------------------

namespace PlasmaEvm

namespace Params

/-
  `params.TxGas`: gas of a transaction that creates nothing.
-/
def TxGas : Nat := 21000

/- `params.TxGasContractCreation`. -/
def TxGasContractCreation : Nat := 53000

/- `params.TxDataZeroGas`: per zero byte of data. -/
def TxDataZeroGas : Nat := 4

/- `params.TxDataNonZeroGasFrontier`. -/
def TxDataNonZeroGasFrontier : Nat := 68

/- `params.TxDataNonZeroGasEIP2028`. -/
def TxDataNonZeroGasEIP2028 : Nat := 16

/- `params.RequestTxGasPrice`: 1 gwei. -/
def RequestTxGasPrice : Nat := 1000000000

/- `params.RequestTxGasLimit`. -/
def RequestTxGasLimit : Nat := 100000

/- `math.MaxUint64`. -/
def MaxUint64 : Nat := 2 ^ 64 - 1

end Params

end PlasmaEvm

------------------------------------------------------------
-- Transactions
------------------------------------------------------------

namespace PlasmaEvm

namespace Types

/-
  The consensus fields of a transaction (`txdata`): nonce,
  gas price, gas limit, recipient (`none` for a contract
  creation), value, payload and signature values.
-/
structure Transaction where
  nonce : Nat
  gasPrice : Nat
  gas : Nat
  recipient : Option Address
  value : Int
  payload : Bytes
  v : Nat
  r : Nat
  s : Nat
  deriving DecidableEq, Repr

/- `tx.Cost()`: `gasPrice * gas + value`. -/
def Transaction.Cost (tx : Transaction) : Int :=
  tx.gasPrice * tx.gas + tx.value

/-
  `tx.Protected()`: every `V` but 27 and 28 marks an EIP-155
  signature, the all-zero signature of request transactions
  included.
-/
def Transaction.Protected (tx : Transaction) : Bool :=
  tx.v != 27 && tx.v != 28

/-
  `EIP155Signer.Sender`: the null address for a protected
  transaction whose `V`, `R` and `S` are all zero, otherwise
  the address `recoverPlain` gives (through the homestead
  signer for unprotected ones; `none` is an error).
-/
def Sender
    (recoverPlain : Transaction → Option Address)
    (tx : Transaction) : Option Address :=
  if tx.Protected && tx.v == 0 && tx.r == 0 && tx.s == 0 then
    some NullAddress
  else recoverPlain tx

/- The request transactions' signature: `V = R = S = 0`. -/
theorem Sender_of_null_signature
    (recoverPlain : Transaction → Option Address)
    (tx : Transaction)
    (hV : tx.v = 0)
    (hR : tx.r = 0)
    (hS : tx.s = 0) :
    Sender recoverPlain tx = some NullAddress := by
  simp [Sender, Transaction.Protected, hV, hR, hS]

end Types

end PlasmaEvm

------------------------------------------------------------
-- Errors and Intrinsic Gas
------------------------------------------------------------

namespace PlasmaEvm

namespace Core

/-
  The errors the core package (and the `vm` errors it passes
  on) returns from the pool and from state transitions.
-/
inductive CoreError where
  | ErrOversizedData
  | ErrNegativeValue
  | ErrGasLimit
  | ErrInvalidSender
  | ErrUnderpriced
  | ErrNonceTooLow
  | ErrNonceTooHigh
  | ErrStaminaGetDelegatee
  | ErrInsufficientValue
  | ErrInsufficientFunds
  | ErrIntrinsicGas
  | ErrReplaceUnderpriced
  | ErrKnownTransaction
  | ErrGasLimitReached
  | ErrOutOfGas
  | ErrInsufficientBalance
  | errInsufficientBalanceForGas
  deriving DecidableEq, Repr

open PlasmaEvm.Params

/-
  `IntrinsicGas(data, contractCreation, isHomestead,
  isEIP2028)`: the base cost plus the per-byte data cost,
  with the code's guards against `uint64` overflow.
-/
def IntrinsicGas
    (data : Bytes)
    (contractCreation isHomestead isEIP2028 : Bool) :
    Except CoreError Nat :=
  let gas :=
    if contractCreation && isHomestead
      then TxGasContractCreation
    else TxGas
  if 0 < data.length then
    let nz := (data.filter (· != 0)).length
    let nonZeroGas :=
      if isEIP2028 then TxDataNonZeroGasEIP2028
      else TxDataNonZeroGasFrontier
    if (MaxUint64 - gas) / nonZeroGas < nz then
      .error .ErrOutOfGas
    else
      let gas := gas + nz * nonZeroGas
      let z := data.length - nz
      if (MaxUint64 - gas) / TxDataZeroGas < z then
        .error .ErrOutOfGas
      else .ok (gas + z * TxDataZeroGas)
  else .ok gas

end Core

end PlasmaEvm
