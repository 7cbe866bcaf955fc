import PlasmaEvm.Core.StateProcessor

/-
  Executing transactions in the miner (`miner/worker.go`):
  `commitTransaction`, the loop of
  `commitRequestTransactions` that runs it, and the header
  `commit` has `FinalizeAndAssemble` make.  These are set
  against the validating node's re-execution in
  `Core.StateProcessor`.

  The worker applies every transaction with its coinbase as
  the explicit author; a failed transaction is reverted and
  left out of the block.  Re-executing the block's
  transactions with the same beneficiary gives the worker's
  receipts, gas and state, so the block is accepted.  A
  validating node, though, pays the fees to the sealer,
  while `commitNewWorkForORB` sets the coinbase of a request
  block to the null address.

  The loop is the execution part of
  `commitRequestTransactions` only: its interrupt, gas pool
  and EIP-155 checks are in `Miner.Worker`.

  Key definitions include:
    * `Environment`, `makeCurrent`
    * `commitTransaction`, `commitTransactions`
    * `FinalizeAndAssemble`

  Key statements include:
    * `Process_commitTransactions`
    * `processAndValidate_commitTransactions`
-/

------------------------------------------------------------
-- Committing Transactions
------------------------------------------------------------

namespace PlasmaEvm

namespace Miner

open PlasmaEvm.Types PlasmaEvm.Core

/-
  `w.current` as `commitTransaction` changes it: the state,
  the header's gas used, and the transactions and receipts
  so far.
-/
structure Environment (σ : Type) where
  state : σ
  GasUsed : Nat
  txs : List Transaction
  receipts : List Receipt

variable {σ : Type}
variable (evm : Evm σ)

/-
  `makeCurrent(parent, header)`: the parent's state, nothing
  applied.
-/
def makeCurrent (parent : σ) : Environment σ :=
  ⟨parent, 0, [], []⟩

/-
  `commitTransaction(tx, coinbase)`: `ApplyTransaction` with
  the coinbase as author; on an error the state snapshot is
  reverted and nothing is kept.
-/
def commitTransaction
    (coinbase : Address)
    (current : Environment σ)
    (tx : Transaction) : Except Unit (Environment σ) :=
  match ApplyTransaction evm coinbase current.state
    current.GasUsed tx with
  | none => .error ()
  | some (state, receipt, GasUsed) =>
      .ok { state := state
            GasUsed := GasUsed
            txs := current.txs ++ [tx]
            receipts := current.receipts ++ [receipt] }

/-
  The loop of `commitRequestTransactions` over the requests:
  a request that fails is skipped.
-/
def commitTransactions
    (coinbase : Address)
    (current : Environment σ) :
    List Transaction → Environment σ
  | [] => current
  | tx :: txs =>
      match commitTransaction evm coinbase current tx with
      | .ok current =>
          commitTransactions coinbase current txs
      | .error () => commitTransactions coinbase current txs

variable {H : Type}
variable (keccak : Keccak H)
variable (GetRlp : Receipt → Bytes)
variable (EmptyRootHash : H)
variable (IntermediateRoot : σ → H)

/-
  The header `FinalizeAndAssemble` gives the block: the gas
  used, the receipt root and the state root of the worker's
  execution.
-/
def FinalizeAndAssemble
    (current : Environment σ) :
    Header H :=
  { GasUsed := current.GasUsed
    ReceiptHash := ReceiptHash keccak GetRlp EmptyRootHash
      current.receipts
    Root := IntermediateRoot current.state }

end Miner

end PlasmaEvm

------------------------------------------------------------
-- Re-execution with the Same Beneficiary
------------------------------------------------------------

namespace PlasmaEvm

namespace Miner

open PlasmaEvm.Types PlasmaEvm.Core

variable {σ : Type}
variable (evm : Evm σ)

/-
  The worker's loop adds the transactions it applied and
  their receipts, and running `Process`'s loop on exactly
  those from where the worker started ends where the worker
  ended.  A failed transaction is reverted and left out.
-/
theorem processTransactions_commitTransactions
    (coinbase : Address)
    (txs : List Transaction) :
    ∀ current : Environment σ,
      ∃ applied receipts,
        (commitTransactions evm coinbase current txs).txs =
            current.txs ++ applied ∧
          (commitTransactions evm coinbase current txs).receipts =
            current.receipts ++ receipts ∧
          processTransactions evm coinbase current.state
            current.GasUsed
              applied =
            some (receipts, (commitTransactions evm coinbase
              current txs).GasUsed,
              (commitTransactions evm coinbase current
                txs).state) := by
  induction txs with
  | nil =>
      intro current
      exact ⟨[], [], by simp [commitTransactions],
        by simp [commitTransactions], rfl⟩
  | cons tx txs ih =>
      intro current
      cases hApply : ApplyTransaction evm coinbase current.state
          current.GasUsed tx with
      | none =>
          have hSkip : commitTransactions evm coinbase
            current (tx :: txs) =
              commitTransactions evm coinbase current txs := by
            simp [commitTransactions,
              commitTransaction, hApply]
          rw [hSkip]
          exact ih current
      | some result =>
          obtain ⟨state, receipt, GasUsed⟩ := result
          let next : Environment σ :=
            ⟨state, GasUsed, current.txs ++ [tx],
              current.receipts ++ [receipt]⟩
          have hKeep : commitTransactions evm coinbase
            current (tx :: txs) =
              commitTransactions evm coinbase next txs := by
            simp [commitTransactions,
              commitTransaction, hApply, next]
          obtain ⟨applied, receipts, hTxs, hReceipts,
            hProcess⟩ := ih next
          refine ⟨tx :: applied,
            receipt :: receipts, ?_, ?_, ?_⟩
          · rw [hKeep, hTxs]
            simp [next]
          · rw [hKeep, hReceipts]
            simp [next]
          · rw [hKeep]
            simp [processTransactions, hApply,
              hProcess, next]

/-
  `Process` with the worker's coinbase as the sealer gives
  back the worker's receipts, gas used and state.
-/
theorem Process_commitTransactions
    (coinbase : Address)
    (parent : σ)
    (txs : List Transaction) :
    Process evm coinbase parent
        (commitTransactions evm coinbase
          (makeCurrent parent) txs).txs =
      some ((commitTransactions evm coinbase
        (makeCurrent parent) txs).receipts,
        (commitTransactions evm coinbase
          (makeCurrent parent) txs).GasUsed,
        (commitTransactions evm coinbase
          (makeCurrent parent) txs).state) := by
  obtain ⟨applied, receipts, hTxs, hReceipts, hProcess⟩ :=
    processTransactions_commitTransactions evm coinbase txs
      (makeCurrent parent)
  simp only [makeCurrent,
    List.nil_append] at hTxs hReceipts hProcess ⊢
  rw [Process, hTxs, hReceipts]
  exact hProcess

variable {H : Type}
variable [DecidableEq H]
variable (keccak : Keccak H)
variable (GetRlp : Receipt → Bytes)
variable (EmptyRootHash : H)
variable (IntermediateRoot : σ → H)

/-
  A block the worker assembled is accepted by a node that
  pays the fees to the same account: the sealer of a block
  whose coinbase is the sealer's own.
-/
theorem processAndValidate_commitTransactions
    (coinbase : Address)
    (parent : σ)
    (txs : List Transaction) :
    processAndValidate keccak GetRlp EmptyRootHash
      IntermediateRoot evm
      coinbase parent
      (FinalizeAndAssemble keccak GetRlp EmptyRootHash
        IntermediateRoot
        (commitTransactions evm coinbase
          (makeCurrent parent) txs))
      (commitTransactions evm coinbase
        (makeCurrent parent) txs).txs =
        .ok () := by
  rw [processAndValidate, Process_commitTransactions]
  exact ValidateState_eq_ok keccak GetRlp EmptyRootHash
    IntermediateRoot _ _ _

end Miner

end PlasmaEvm

------------------------------------------------------------
-- Request Blocks on a Validating Node
------------------------------------------------------------

namespace PlasmaEvm

namespace Miner

open PlasmaEvm.Types PlasmaEvm.Core

variable {σ H : Type}
variable [DecidableEq H]

/-
  A request block of one request, assembled as
  `commitNewWorkForORB` does with the coinbase set to the
  null address.  A node that imports it re-executes the
  request with the sealer `operator` as beneficiary.  The
  gas and the receipts agree, but the fee is credited to the
  operator instead of the null address, so `ValidateState`
  refuses the block's state root.  This holds when the
  request applies the same way whoever the beneficiary is,
  the state root tells states apart, and the two credits
  give different states.
-/
theorem request_block_fee_rejected
    (keccak : Keccak H)
    (GetRlp : Receipt → Bytes)
    (EmptyRootHash : H)
    (IntermediateRoot : σ → H)
    (evm : Evm σ)
    (parent : σ)
    (rtx : Transaction)
    (operator : Address)
    (post : σ)
    (gas : Nat)
    (failed : Bool)
    (logs : List Log)
    (hExecute : ∀ beneficiary,
      evm.Execute beneficiary parent rtx = some (post,
        gas, failed, logs))
    (hRoot : Function.Injective IntermediateRoot)
    (hCredit : evm.AddBalance post NullAddress (gas *
      rtx.gasPrice) ≠
      evm.AddBalance post operator (gas * rtx.gasPrice)) :
    (commitTransactions evm NullAddress
      (makeCurrent parent) [rtx]).txs =
        [rtx] ∧
      processAndValidate keccak GetRlp EmptyRootHash
        IntermediateRoot evm
        operator parent
        (FinalizeAndAssemble keccak GetRlp EmptyRootHash
          IntermediateRoot
          (commitTransactions evm NullAddress
            (makeCurrent parent) [rtx]))
        (commitTransactions evm NullAddress
          (makeCurrent parent) [rtx]).txs =
        .error .InvalidMerkleRoot := by
  let receipt : Receipt :=
    { PostState := []
      Status := if failed
        then ReceiptStatusFailed
          else ReceiptStatusSuccessful
      CumulativeGasUsed := gas
      Logs := logs }
  have hApply : ∀ beneficiary,
      ApplyTransaction evm beneficiary parent 0 rtx =
        some (evm.AddBalance post beneficiary (gas *
          rtx.gasPrice), receipt,
          gas) := by
    intro beneficiary
    simp [ApplyTransaction, hExecute, receipt]
  have hWorker : commitTransactions evm NullAddress
    (makeCurrent parent) [rtx] =
      ⟨evm.AddBalance post NullAddress (gas *
        rtx.gasPrice), gas, [rtx],
        [receipt]⟩ := by
    simp [commitTransactions, commitTransaction,
      makeCurrent, hApply]
  have hValidator : Process evm operator parent [rtx] =
      some ([receipt], gas, evm.AddBalance post operator
        (gas * rtx.gasPrice)) := by
    simp [Process, processTransactions, hApply]
  refine ⟨by rw [hWorker], ?_⟩
  rw [hWorker, processAndValidate, hValidator]
  exact ValidateState_root_ne keccak GetRlp EmptyRootHash
    IntermediateRoot _ _ _
    _ (hRoot.ne hCredit.symm)

/-
  Account balances as a world state, indexed by address,
  under an EVM of plain value transfers: the value goes to
  the recipient, the null address pays nothing (as for
  requests), and a transfer uses `TxGas`.
-/
def transferEvm : Evm (List Nat) where
  Execute := fun _ balances tx =>
    let balances :=
      match tx.recipient with
      | some recipient =>
          balances.modify recipient.val (· + tx.value.toNat)
      | none => balances
    some (balances, Params.TxGas, false, [])
  AddBalance := fun balances account amount =>
    balances.modify account.val (· + amount)

/- A request transferring 1 to the account 2. -/
def requestTransfer : Transaction where
  nonce := 0
  gasPrice := Params.RequestTxGasPrice
  gas := Params.RequestTxGasLimit
  recipient := some ⟨2⟩
  value := 1
  payload := []
  v := 0
  r := 0
  s := 0

/- A hash that ignores its input. -/
def constantKeccak : Keccak (List Nat) where
  hash _ := []
  hashPair _ _ := []

theorem request_block_fee_rejected_transfer :
    (commitTransactions transferEvm NullAddress
      (makeCurrent [0, 0, 0])
        [requestTransfer]).txs = [requestTransfer] ∧
      processAndValidate constantKeccak (fun _ =>
        []) [] id transferEvm ⟨1⟩
        [0, 0, 0]
        (FinalizeAndAssemble constantKeccak (fun _ => []) [] id
          (commitTransactions transferEvm NullAddress
            (makeCurrent [0, 0, 0])
            [requestTransfer]))
        (commitTransactions transferEvm NullAddress
          (makeCurrent [0, 0, 0])
          [requestTransfer]).txs =
            .error .InvalidMerkleRoot :=
  request_block_fee_rejected constantKeccak (fun _ =>
    []) [] id transferEvm
    [0, 0, 0] requestTransfer ⟨1⟩ [0, 0,
      1] Params.TxGas false []
    (fun _ => rfl) Function.injective_id (by decide)

end Miner

end PlasmaEvm
