import PlasmaEvm.Core.TxPool

/-
  The three payability checks of the pool under the plasma
  stamina rule.  `validateTx` splits the cost: the
  delegatee's stamina may pay `gasPrice * gas` while the
  balance pays the value.  `promoteExecutables` filters a
  queue by the whole cost against the larger of stamina and
  balance, and `demoteUnexecutables` filters a pending list
  by the whole cost against the balance alone.

  On a transaction `validateTx` accepted the two filters
  drop exactly on cost, and promotion keeps whatever
  demotion keeps; the checks agree on a transaction the
  balance pays for in full.  A transaction paid for by
  stamina, with the value within the balance but the whole
  cost above it, is accepted and then dropped.

  Key statements include:
    * `promoteCostLimit_eq_max`
    * `mem_Filter_removed_of_validateTx`
    * `promote_keeps_of_demote_keeps`
    * `validateTx_balance_funded_kept`
    * `stamina_funded_tx_dropped`
-/

------------------------------------------------------------
-- The Cost Limits of the Filters
------------------------------------------------------------

namespace PlasmaEvm

namespace Core

open PlasmaEvm.Types

/-
  The cost limit of promotion is the larger of the
  delegatee's stamina and the balance.
-/
theorem promoteCostLimit_eq_max
    (pool : TxPool)
    (addr : Address) :
    promoteCostLimit pool addr =
      ((max
        (pool.currentState.GetStamina
          ((pool.currentState.GetDelegatee addr).getD ⟨0⟩))
        (pool.currentState.GetBalance addr) : Nat) : Int) := by
  unfold promoteCostLimit
  dsimp only
  split <;> omega

/-
  A limit at least another drops no more: a transaction kept
  under the smaller cost limit is kept under the larger.
-/
theorem not_mem_Filter_removed_of_le
    (l : TxList)
    (tx : Transaction)
    (gasLimit : Nat)
    {low high : Int}
    (hLe : low ≤ high)
    (hKept : tx ∉ (l.Filter low gasLimit).1) :
    tx ∉ (l.Filter high gasLimit).1 := by
  intro hDropped
  rcases (TxList.mem_Filter_removed l high gasLimit
    tx).mp hDropped with
    ⟨hMem, hAbove⟩
  apply hKept
  refine (TxList.mem_Filter_removed l low gasLimit
    tx).mpr ⟨hMem, ?_⟩
  simp only [TxList.aboveLimits, Bool.or_eq_true,
    decide_eq_true_eq]
    at hAbove ⊢
  omega

/-
  Promotion keeps whatever demotion keeps: its cost limit is
  at least the balance.
-/
theorem promote_keeps_of_demote_keeps
    (pool : TxPool)
    (addr : Address)
    (l : TxList)
    (tx : Transaction)
    (hKept :
      tx ∉ (l.Filter (pool.currentState.GetBalance addr)
        pool.currentMaxGas).1) :
    tx ∉ (l.Filter (promoteCostLimit pool addr)
      pool.currentMaxGas).1 := by
  have hLe :
      (pool.currentState.GetBalance addr : Int) ≤
        promoteCostLimit pool addr := by
    rw [promoteCostLimit_eq_max]
    omega
  exact not_mem_Filter_removed_of_le l tx
    pool.currentMaxGas hLe hKept

end Core

end PlasmaEvm

------------------------------------------------------------
-- Validated Transactions
------------------------------------------------------------

namespace PlasmaEvm

namespace Core

open PlasmaEvm.Types

section Validated

variable {env : TxEnv}
variable {pool : TxPool}
variable {tx : Transaction}
variable {isLocal : Bool}

/-
  A transaction `validateTx` accepted is within the gas
  limit both filters use, so they drop it exactly on its
  cost.
-/
theorem mem_Filter_removed_of_validateTx
    (hValid : validateTx env pool tx isLocal = .ok ())
    (l : TxList)
    (costLimit : Int)
    (hMem : tx ∈ l.Flatten) :
    tx ∈ (l.Filter costLimit pool.currentMaxGas).1 ↔
      costLimit < tx.Cost := by
  have hGas : tx.gas ≤ pool.currentMaxGas :=
    ((validateTx_eq_ok env pool tx isLocal).mp hValid).2.2.1
  rw [TxList.mem_Filter_removed]
  simp only [hMem, TxList.aboveLimits, Bool.or_eq_true,
    decide_eq_true_eq, true_and]
  omega

/-
  The checks agree on a transaction the balance pays for in
  full: neither filter drops it.
-/
theorem validateTx_balance_funded_kept
    (hValid : validateTx env pool tx isLocal = .ok ())
    (addr : Address)
    (l : TxList)
    (hMem : tx ∈ l.Flatten)
    (hFunded : tx.Cost ≤
      (pool.currentState.GetBalance addr : Int)) :
    tx ∉ (l.Filter (pool.currentState.GetBalance addr)
        pool.currentMaxGas).1 ∧
      tx ∉ (l.Filter (promoteCostLimit pool addr)
        pool.currentMaxGas).1 := by
  have hDemote :
      tx ∉ (l.Filter (pool.currentState.GetBalance addr)
        pool.currentMaxGas).1 := by
    rw [mem_Filter_removed_of_validateTx hValid l _ hMem]
    omega
  exact ⟨hDemote, promote_keeps_of_demote_keeps pool
    addr l tx hDemote⟩

end Validated

end Core

end PlasmaEvm

------------------------------------------------------------
-- A Stamina-Funded Transfer
------------------------------------------------------------

namespace PlasmaEvm

namespace Core

open PlasmaEvm.Types

/-
  A head state where account 1 holds a balance of 1 and has
  delegated to account 2, whose stamina is 21000.
-/
def staminaHead : StateView where
  GetNonce := fun _ => 0
  GetBalance := fun addr => if addr = ⟨1⟩ then 1 else 0
  GetDelegatee := fun addr => if addr = ⟨1⟩
    then some ⟨2⟩ else none
  GetStamina := fun addr => if addr = ⟨2⟩ then 21000 else 0

/- Every signature recovers account 1. -/
def staminaEnv : TxEnv where
  recoverPlain := fun _ => some ⟨1⟩
  Size := fun _ => 100

/-
  A transfer of `value` to account 3 at gas price 1 and gas
  21000, signed for chain 1.
-/
def staminaTransfer (value : Int) : Transaction where
  nonce := 0
  gasPrice := 1
  gas := 21000
  recipient := some ⟨3⟩
  value := value
  payload := []
  v := 37
  r := 1
  s := 1

/-
  A new pool with the default configuration on that head.
-/
def staminaPool : TxPool :=
  NewTxPool DefaultTxPoolConfig 1 true staminaHead 8000000

/-
  The checks disagree.  A transfer of value 1 passes
  `validateTx` (the stamina covers the gas, the balance the
  value) and `add` queues it, but promotion drops it, its
  cost 21001 being above the larger of stamina and balance.
  A transfer of value 0 is promoted to pending, but demotion
  drops it, its cost 21000 being above the balance.
-/
theorem stamina_funded_tx_dropped :
    validateTx staminaEnv staminaPool
      (staminaTransfer 1) false = .ok () ∧
    staminaTransfer 1 ∈
      ((add staminaEnv staminaPool (staminaTransfer 1) false
        ⟨false, []⟩).2).queuedOf ⟨1⟩ ∧
    staminaTransfer 1 ∉
      (promoteExecutables
        (add staminaEnv staminaPool (staminaTransfer 1) false
          ⟨false, []⟩).2 [⟨1⟩]).2.all ∧
    staminaTransfer 0 ∈
      (promoteExecutables
        (add staminaEnv staminaPool (staminaTransfer 0) false
          ⟨false, []⟩).2 [⟨1⟩]).2.pendingOf ⟨1⟩ ∧
    staminaTransfer 0 ∉
      (demoteUnexecutables staminaEnv
        (promoteExecutables
          (add staminaEnv staminaPool (staminaTransfer 0) false
            ⟨false, []⟩).2 [⟨1⟩]).2 [⟨1⟩]).all := by
  decide

end Core

end PlasmaEvm
