import PlasmaEvm.Core.Types.Receipt
import PlasmaEvm.Core.Types.Transaction

/-
  Block processing on a validating node
  (`core/state_processor.go`, `core/block_validator.go`,
  `core/evm.go`).  `Process` applies the block's
  transactions in order on the parent state with
  `ApplyTransaction`, whose fee goes to the EVM context's
  beneficiary; with no author passed, that is
  `Engine.Author(header)`, the sealer. `ValidateState` then
  compares the gas used, the receipt root and the state root
  with the header.

  The EVM is a parameter: `Execute` is `ApplyMessage` up to
  its last step, the fee credit, which is modelled.  The
  chain is past Byzantium, so receipts carry no intermediate
  root.  The bloom (a function of the receipts' logs), the
  DAO fork and uncles are left out.

  Key definitions include:
    * `Evm`, `ApplyTransaction`, `processTransactions`,
      `Process`
    * `Header`, `ValidationError`, `ValidateState`,
      `processAndValidate`

  Key statements include:
    * `ValidateState_eq_ok`
    * `ValidateState_root_ne`
-/

------------------------------------------------------------
-- Applying Transactions
------------------------------------------------------------

namespace PlasmaEvm

namespace Core

open PlasmaEvm.Types

/-
  What block processing needs of the EVM over world states
  `σ`.  `Execute beneficiary statedb tx` is `ApplyMessage`
  without its fee credit.  It gives the state after the
  message, the gas it used, whether the VM failed, and its
  logs; `none` is a consensus error.  `AddBalance` is the
  state database's credit.
-/
structure Evm (σ : Type) where
  Execute : Address → σ → Transaction →
    Option (σ × Nat × Bool × List Log)
  AddBalance : σ → Address → Nat → σ

variable {σ : Type}
variable (evm : Evm σ)

/-
  `ApplyTransaction(config, bc, author, gp, statedb, header,
  tx, usedGas, cfg)` for the beneficiary `NewEVMContext`
  takes from `author`.  It gives the state after the
  transaction, its receipt, and the gas the block has used
  so far. `TransitionDb` ends by crediting `gasUsed *
  gasPrice` to the beneficiary.
-/
def ApplyTransaction
    (beneficiary : Address)
    (statedb : σ)
    (usedGas : Nat)
    (tx : Transaction) : Option (σ × Receipt × Nat) :=
  match evm.Execute beneficiary statedb tx with
  | none => none
  | some (statedb, gas, failed, logs) =>
      let usedGas := usedGas + gas
      some (evm.AddBalance statedb beneficiary
        (gas * tx.gasPrice),
        { PostState := []
          Status := if failed then ReceiptStatusFailed
            else ReceiptStatusSuccessful
          CumulativeGasUsed := usedGas
          Logs := logs },
        usedGas)

/-
  The loop of `Process`: every transaction in turn, the
  first error failing the block.
-/
def processTransactions
    (beneficiary : Address) :
    σ → Nat → List Transaction →
      Option (List Receipt × Nat × σ)
  | statedb, usedGas, [] => some ([], usedGas, statedb)
  | statedb, usedGas, tx :: txs =>
      match ApplyTransaction evm beneficiary statedb
        usedGas tx with
      | none => none
      | some (statedb, receipt, usedGas) =>
          (processTransactions beneficiary statedb
            usedGas txs).map
            fun (receipts, usedGas, statedb) =>
              (receipt :: receipts, usedGas, statedb)

/-
  `Process(block, statedb, cfg)`: no author is passed, so
  the fees go to `Author`, the sealer clique recovers from
  the header.
-/
def Process
    (Author : Address)
    (statedb : σ)
    (txs : List Transaction) :
    Option (List Receipt × Nat × σ) :=
  processTransactions evm Author statedb 0 txs

end Core

end PlasmaEvm

------------------------------------------------------------
-- Validating the State
------------------------------------------------------------

namespace PlasmaEvm

namespace Core

open PlasmaEvm.Types

/- The header fields `ValidateState` compares. -/
structure Header (H : Type) where
  GasUsed : Nat
  ReceiptHash : H
  Root : H
  deriving DecidableEq, Repr

/-
  Why a block is refused: `Process` failed, or one of the
  checks of `ValidateState` in its order.
-/
inductive ValidationError where
  | ProcessFailed
  | InvalidGasUsed
  | InvalidReceiptRootHash
  | InvalidMerkleRoot
  deriving DecidableEq, Repr

variable {σ H : Type}
variable [DecidableEq H]
variable (keccak : Keccak H)
variable (GetRlp : Receipt → Bytes)
variable (EmptyRootHash : H)
variable (IntermediateRoot : σ → H)

/-
  `ValidateState(block, statedb, receipts, usedGas)`: the
  header's gas used, its receipt root `DeriveShaFromBMT` of
  the receipts, and its state root.
-/
def ValidateState
    (header : Header H)
    (statedb : σ)
    (receipts : List Receipt)
    (usedGas : Nat) : Except ValidationError Unit :=
  if header.GasUsed ≠ usedGas then .error .InvalidGasUsed
  else if ReceiptHash keccak GetRlp EmptyRootHash receipts ≠
      header.ReceiptHash then .error .InvalidReceiptRootHash
  else if IntermediateRoot statedb ≠ header.Root then
    .error .InvalidMerkleRoot
  else .ok ()

/-
  The import of a block in `insertChain`: `Process` on the
  parent state, then `ValidateState` of what it gives.
-/
def processAndValidate
    (evm : Evm σ)
    (Author : Address)
    (parent : σ)
    (header : Header H)
    (txs : List Transaction) :
    Except ValidationError Unit :=
  match Process evm Author parent txs with
  | none => .error .ProcessFailed
  | some (receipts, usedGas, statedb) =>
      ValidateState keccak GetRlp EmptyRootHash
        IntermediateRoot header
        statedb receipts usedGas

/-
  A header made from the same execution passes every check.
-/
theorem ValidateState_eq_ok
    (statedb : σ)
    (receipts : List Receipt)
    (usedGas : Nat) :
    ValidateState keccak GetRlp EmptyRootHash IntermediateRoot
      ⟨usedGas,
        ReceiptHash keccak GetRlp EmptyRootHash receipts,
        IntermediateRoot statedb⟩ statedb receipts
          usedGas = .ok () := by
  simp [ValidateState]

/-
  With the gas and the receipts agreeing, a different state
  root is the error.
-/
theorem ValidateState_root_ne
    (statedb : σ)
    (receipts : List Receipt)
    (usedGas : Nat)
    (Root : H)
    (hRoot : IntermediateRoot statedb ≠ Root) :
    ValidateState keccak GetRlp EmptyRootHash IntermediateRoot
      ⟨usedGas, ReceiptHash keccak GetRlp EmptyRootHash
        receipts, Root⟩
      statedb receipts usedGas =
        .error .InvalidMerkleRoot := by
  simp [ValidateState, hRoot]

end Core

end PlasmaEvm
