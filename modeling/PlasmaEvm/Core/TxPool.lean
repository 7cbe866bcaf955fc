import PlasmaEvm.Core.TxList
import PlasmaEvm.Control.Except
import Mathlib.Data.List.AList

/-
  The transaction pool of `core/tx_pool.go` with the plasma
  changes: the stamina-funded check of `validateTx`, the
  null-address short circuit, and request transactions kept
  apart in `pendingRtx`.

  The pool is a state record updated by one function per
  method of the code.  The price-sorted heap (`priced`) is
  not kept: where `add` asks it, its answers are arguments.
  Signature recovery and the RLP size of a transaction come
  with the environment `TxEnv`.

  Key definitions include:
    * `StateView`, `TxEnv`, `TxPoolConfig`, `TxPool`
    * `validateTx`, `enqueueTx`, `promoteTx`, `removeTx`,
      `add`
    * `EnqueueReqeustTxs`
    * `promoteExecutables`, `demoteUnexecutables`
-/

------------------------------------------------------------
-- Pool State
------------------------------------------------------------

namespace PlasmaEvm

namespace Core

open PlasmaEvm.Types

/-
  The head state the pool reads: account nonces and
  balances, and the answers of the stamina contract to
  `GetDelegatee` (`none` when the static call fails) and
  `GetStamina`.
-/
structure StateView where
  GetNonce : Address → Nat
  GetBalance : Address → Nat
  GetDelegatee : Address → Option Address
  GetStamina : Address → Nat

/-
  What the pool takes as given: the pool signer's signature
  recovery and the encoded size `tx.Size()`.
-/
structure TxEnv where
  recoverPlain : Transaction → Option Address
  Size : Transaction → Nat

/- The fields of `TxPoolConfig` the pool logic reads. -/
structure TxPoolConfig where
  NoLocals : Bool
  PriceBump : Nat
  AccountSlots : Nat
  GlobalSlots : Nat
  AccountQueue : Nat
  GlobalQueue : Nat

/- `DefaultTxPoolConfig`. -/
def DefaultTxPoolConfig : TxPoolConfig where
  NoLocals := false
  PriceBump := 10
  AccountSlots := 512
  GlobalSlots := 8192
  AccountQueue := 64
  GlobalQueue := 4096

/-
  Per-account transaction lists
  (`map[common.Address]*txList`).
-/
abbrev AccountLists := AList (fun _ : Address => TxList)

/-
  The pool: the minimal gas price, the head state with the
  pool's virtual nonces (`txNoncer`, which falls back to the
  head state), the block gas limit, the local accounts, the
  pending and queued lists, the request transactions and the
  lookup of all pooled transactions.
-/
structure TxPool where
  config : TxPoolConfig
  gasPrice : Nat
  istanbul : Bool
  currentState : StateView
  pendingNonces : Address → Option Nat
  currentMaxGas : Nat
  locals : List Address
  pending : AccountLists
  pendingRtx : List Transaction
  queue : AccountLists
  all : List Transaction

/-
  `NewTxPool(config, ...)` after its first `reset` to the
  head: no transaction, the minimal price `PriceLimit`, the
  head's state and gas limit, and a fresh nonce tracker.
-/
def NewTxPool
    (config : TxPoolConfig)
    (PriceLimit : Nat)
    (istanbul : Bool)
    (head : StateView)
    (GasLimit : Nat) : TxPool where
  config := config
  gasPrice := PriceLimit
  istanbul := istanbul
  currentState := head
  pendingNonces := fun _ => none
  currentMaxGas := GasLimit
  locals := []
  pending := ∅
  pendingRtx := []
  queue := ∅
  all := []

/- `txMaxSize`: 64 KB. -/
def txMaxSize : Nat := 2 * (32 * 1024)

namespace TxPool

/- `pendingNonces.get(addr)`. -/
def getNonce (pool : TxPool) (addr : Address) : Nat :=
  (pool.pendingNonces addr).getD (pool.currentState.GetNonce addr)

/- `pendingNonces.set(addr, nonce)`. -/
def setNonce
    (pool : TxPool)
    (addr : Address)
    (nonce : Nat) :
    TxPool :=
  { pool with
    pendingNonces := Function.update pool.pendingNonces addr
      (some nonce) }

/- `pendingNonces.setIfLower(addr, nonce)`. -/
def setNonceIfLower
    (pool : TxPool)
    (addr : Address)
    (nonce : Nat) : TxPool :=
  pool.setNonce addr (min (pool.getNonce addr) nonce)

/- `pool.all.Remove(tx.Hash())` for each transaction. -/
def removeAll
    (pool : TxPool)
    (txs : List Transaction) :
    TxPool :=
  { pool with all := txs.foldl List.erase pool.all }

/- The transactions of `pending[addr]`, in nonce order. -/
def pendingOf
    (pool : TxPool)
    (addr : Address) :
    List Transaction :=
  ((pool.pending.lookup addr).map TxList.Flatten).getD []

/- The transactions of `queue[addr]`, in nonce order. -/
def queuedOf
    (pool : TxPool)
    (addr : Address) :
    List Transaction :=
  ((pool.queue.lookup addr).map TxList.Flatten).getD []

end TxPool

/-
  The sender of a pooled transaction, `from, _ :=
  types.Sender(pool.signer, tx)`: the zero address when
  recovery fails.
-/
def senderOf (env : TxEnv) (tx : Transaction) : Address :=
  (Sender env.recoverPlain tx).getD ⟨0⟩

end Core

end PlasmaEvm

------------------------------------------------------------
-- Validation
------------------------------------------------------------

namespace PlasmaEvm

namespace Core

open PlasmaEvm.Types

/-
  The funding checks of `validateTx` for a sender other than
  the null address (the plasma stamina rule) and the
  intrinsic gas check after them: the sender must pay the
  value and either its delegatee's stamina covers
  `gasPrice * gas` or its balance covers the whole cost.
-/
def validateFunds
    (pool : TxPool)
    (tx : Transaction)
    (sender : Address) : Except CoreError Unit := do
  let some delegatee :=
    pool.currentState.GetDelegatee sender
    | throw .ErrStaminaGetDelegatee
  let mgval := tx.gasPrice * tx.gas
  let availableStamina :=
    pool.currentState.GetStamina delegatee
  let balance : Int := pool.currentState.GetBalance sender
  if mgval ≤ availableStamina then
    if balance < tx.value then throw .ErrInsufficientValue
  else
    if balance < tx.Cost then throw .ErrInsufficientFunds
  let intrGas ←
    IntrinsicGas tx.payload tx.recipient.isNone true pool.istanbul
  if tx.gas < intrGas then throw .ErrIntrinsicGas

/-
  `validateTx(tx, local)`: size, value, gas limit, sender,
  price (for remote senders) and nonce; then nothing more
  for the null address, and the funding checks for any
  other.
-/
def validateTx
    (env : TxEnv)
    (pool : TxPool)
    (tx : Transaction)
    (isLocal : Bool) : Except CoreError Unit := do
  if txMaxSize < env.Size tx then throw .ErrOversizedData
  if tx.value < 0 then throw .ErrNegativeValue
  if pool.currentMaxGas < tx.gas then throw .ErrGasLimit
  let some sender := Sender env.recoverPlain tx
    | throw .ErrInvalidSender
  let isLocal := isLocal || pool.locals.contains sender
  if !isLocal && tx.gasPrice < pool.gasPrice then
    throw .ErrUnderpriced
  if tx.nonce < pool.currentState.GetNonce sender then
    throw .ErrNonceTooLow
  if sender = NullAddress then return ()
  validateFunds pool tx sender

/-
  The stamina rule of `validateTx`: with the stamina of the
  delegatee covering `gasPrice * gas` the balance pays the
  value, otherwise it pays the whole cost.
-/
def Payable
    (state : StateView)
    (sender delegatee : Address)
    (tx : Transaction) : Prop :=
  if tx.gasPrice * tx.gas ≤ state.GetStamina delegatee then
    tx.value ≤ (state.GetBalance sender : Int)
  else tx.Cost ≤ (state.GetBalance sender : Int)

/- The gas limit covers the intrinsic gas. -/
def CoversIntrinsicGas
    (pool : TxPool)
    (tx : Transaction) :
    Prop :=
  ∃ intrGas,
    IntrinsicGas tx.payload tx.recipient.isNone true
      pool.istanbul =
      .ok intrGas ∧
    intrGas ≤ tx.gas

/-
  `validateTx` as its checks: the null address passes on the
  first five alone.
-/
theorem validateTx_eq_ok
    (env : TxEnv)
    (pool : TxPool)
    (tx : Transaction)
    (isLocal : Bool) :
    validateTx env pool tx isLocal = .ok () ↔
      env.Size tx ≤ txMaxSize ∧
      0 ≤ tx.value ∧
      tx.gas ≤ pool.currentMaxGas ∧
      ∃ sender,
        Sender env.recoverPlain tx = some sender ∧
        (isLocal = false → sender ∉ pool.locals →
          pool.gasPrice ≤ tx.gasPrice) ∧
        pool.currentState.GetNonce sender ≤ tx.nonce ∧
        (sender = NullAddress ∨ validateFunds pool tx sender
          = .ok ()) := by
  unfold validateTx
  cases hSender : Sender env.recoverPlain tx with
  | none => simp
  | some sender =>
      by_cases hNull : sender = NullAddress
      · simp [hNull]
      · simp [hNull]

end Core

end PlasmaEvm

------------------------------------------------------------
-- Queueing, Promotion and Removal
------------------------------------------------------------

namespace PlasmaEvm

namespace Core

open PlasmaEvm.Types

variable (env : TxEnv)

/-
  `enqueueTx(hash, tx)`: insert into the sender's queue
  (created if missing); a refused replacement is
  `ErrReplaceUnderpriced`; a replaced transaction leaves
  `all`.  Returns whether one was replaced.
-/
def enqueueTx
    (pool : TxPool)
    (tx : Transaction) : Except CoreError Bool × TxPool :=
  let sender := senderOf env tx
  let list :=
    (pool.queue.lookup sender).getD (newTxList false)
  let pool :=
    { pool with queue := pool.queue.insert sender list }
  match list.Add tx pool.config.PriceBump with
  | ((false, _), _) => (.error .ErrReplaceUnderpriced, pool)
  | ((true, old), list) =>
      let all :=
        match old with
        | some old => pool.all.erase old
        | none => pool.all
      let all := if tx ∈ all then all else tx :: all
      (.ok old.isSome,
        { pool with
          queue := pool.queue.insert sender list,
          all := all })

/-
  The first transaction queued for an account opens its
  list.
-/
theorem enqueueTx_of_lookup_none
    (pool : TxPool)
    (tx : Transaction)
    (hUnknown : tx ∉ pool.all)
    (hQueue : pool.queue.lookup (senderOf env tx) = none) :
    enqueueTx env pool tx =
      (.ok false,
        { pool with
          queue := pool.queue.insert (senderOf env tx)
            ((newTxList false).put tx)
          all := tx :: pool.all }) := by
  have hAdd :
      (newTxList false).Add tx pool.config.PriceBump =
        ((true, none), (newTxList false).put tx) := rfl
  unfold enqueueTx
  dsimp only
  rw [hQueue, Option.getD_none, hAdd]
  simp [hUnknown]

/-
  `promoteTx(addr, hash, tx)`: insert into the pending list
  of `addr` (created if missing); a refused transaction
  leaves `all`; otherwise the replaced one does, and the
  virtual nonce of `addr` moves past the transaction.
-/
def promoteTx
    (pool : TxPool)
    (addr : Address)
    (tx : Transaction) : Bool × TxPool :=
  let list :=
    (pool.pending.lookup addr).getD (newTxList true)
  let pool := { pool with
    pending := pool.pending.insert addr list }
  match list.Add tx pool.config.PriceBump with
  | ((false, _), _) =>
      (false, { pool with all := pool.all.erase tx })
  | ((true, old), list) =>
      let all :=
        match old with
        | some old => pool.all.erase old
        | none => pool.all
      let all := if tx ∈ all then all else tx :: all
      let pool :=
        { pool with
          pending := pool.pending.insert addr list,
          all := all }
      (true, pool.setNonce addr (tx.nonce + 1))

/-
  Store a list for an account, deleting the entry when
  empty.
-/
def storeList
    (lists : AccountLists)
    (addr : Address)
    (list : TxList) : AccountLists :=
  if list.Empty
    then lists.erase addr else lists.insert addr list

/-
  `removeTx(hash, outofbound)`: a pooled transaction leaves
  `all`; out of a pending list it takes every higher nonce
  back to the queue and lowers the virtual nonce to its own,
  otherwise it leaves the queue.
-/
def removeTx (pool : TxPool) (tx : Transaction) : TxPool :=
  if tx ∉ pool.all then pool
  else
    let addr := senderOf env tx
    let pool := { pool with all := pool.all.erase tx }
    let fromQueue (pool : TxPool) : TxPool :=
      match pool.queue.lookup addr with
      | none => pool
      | some future =>
          let (_, _, future) := future.Remove tx
          { pool with queue := storeList pool.queue addr future }
    match pool.pending.lookup addr with
    | none => fromQueue pool
    | some pending =>
        match pending.Remove tx with
        | (false, _, _) => fromQueue pool
        | (true, invalids, pending) =>
            let pool :=
              { pool with
                pending :=
                  storeList pool.pending addr pending }
            let pool :=
              invalids.foldl (fun pool tx =>
                (enqueueTx env pool tx).2)
                pool
            pool.setNonceIfLower addr tx.nonce

end Core

end PlasmaEvm

------------------------------------------------------------
-- Adding Transactions
------------------------------------------------------------

namespace PlasmaEvm

namespace Core

open PlasmaEvm.Types

variable (env : TxEnv)

/-
  The answers of the price-sorted heap when `add` finds the
  pool full: `priced.Underpriced(tx, locals)` and the
  transactions `priced.Discard(...)` gives up.
-/
structure PricedAnswer where
  underpriced : Bool
  discard : List Transaction

/-
  `add(tx, local)`: a known or invalid transaction is
  refused; a full pool refuses an underpriced remote one and
  otherwise discards what the heap gives up; a transaction
  of a nonce already pending replaces it in place; any other
  goes to the queue, and a local one marks its sender local.
  Returns whether a transaction was replaced.
-/
def add
    (pool : TxPool)
    (tx : Transaction)
    (isLocal : Bool)
    (priced : PricedAnswer) :
    Except CoreError Bool × TxPool :=
  if tx ∈ pool.all then (.error .ErrKnownTransaction, pool)
  else
    match validateTx env pool tx isLocal with
    | .error err => (.error err, pool)
    | .ok () =>
        let full :=
          pool.config.GlobalSlots + pool.config.GlobalQueue ≤
            pool.all.length
        if full ∧ !isLocal ∧ priced.underpriced then
          (.error .ErrUnderpriced, pool)
        else
          let pool :=
            if full then
              priced.discard.foldl (removeTx env) pool
            else pool
          let sender := senderOf env tx
          let enqueue : Except CoreError Bool × TxPool :=
            match enqueueTx env pool tx with
            | (.error err, pool) => (.error err, pool)
            | (.ok replaced, pool) =>
                let locals :=
                  if isLocal ∧ sender ∉ pool.locals then
                    sender :: pool.locals
                  else pool.locals
                (.ok replaced,
                  { pool with locals := locals })
          match pool.pending.lookup sender with
          | some list =>
              if list.Overlaps tx then
                match list.Add tx pool.config.PriceBump with
                | ((false, _), _) =>
                    (.error .ErrReplaceUnderpriced, pool)
                | ((true, old), list) =>
                    let all :=
                      match old with
                      | some old => pool.all.erase old
                      | none => pool.all
                    (.ok old.isSome,
                      { pool with
                        pending :=
                          pool.pending.insert sender list
                        all := tx :: all })
              else enqueue
          | none => enqueue

/-
  `EnqueueReqeustTxs(rtxs)`: request transactions join
  `pendingRtx` only if every one is sent by the null
  address.
-/
def EnqueueReqeustTxs
    (pool : TxPool)
    (rtxs : List Transaction) :
    Except String Unit × TxPool :=
  if rtxs.all (fun rtx =>
    senderOf env rtx = NullAddress) then
    (.ok (),
      { pool with pendingRtx := pool.pendingRtx ++ rtxs })
  else (.error "invalid request transaction", pool)

/- `PendingRequests()`. -/
def PendingRequests (pool : TxPool) : List Transaction :=
  pool.pendingRtx

/- `RemovePendingRequests()`. -/
def RemovePendingRequests (pool : TxPool) : TxPool :=
  { pool with pendingRtx := [] }

end Core

end PlasmaEvm

------------------------------------------------------------
-- Promotion and Demotion
------------------------------------------------------------

namespace PlasmaEvm

namespace Core

open PlasmaEvm.Types

variable (env : TxEnv)

/-
  The cost limit `promoteExecutables` filters a queue with:
  the larger of the stamina of the account's delegatee (the
  zero address when the call fails) and its balance.
-/
def promoteCostLimit
    (pool : TxPool)
    (addr : Address) :
    Int :=
  let delegatee :=
    (pool.currentState.GetDelegatee addr).getD ⟨0⟩
  let stamina := pool.currentState.GetStamina delegatee
  let balance := pool.currentState.GetBalance addr
  if balance ≤ stamina then stamina else balance

/-
  One account of `promoteExecutables`: drop the queued
  transactions below the account nonce and those above the
  cost limit or the block gas limit, promote the run that
  starts at the virtual nonce, and cap the queue of a remote
  account.  Returns the promoted transactions.
-/
def promoteAccount
    (pool : TxPool)
    (addr : Address) : List Transaction × TxPool :=
  match pool.queue.lookup addr with
  | none => ([], pool)
  | some list =>
      let (forwards, list) :=
        list.Forward (pool.currentState.GetNonce addr)
      let pool := pool.removeAll forwards
      let (drops, _, list) :=
        list.Filter (promoteCostLimit pool addr)
          pool.currentMaxGas
      let pool := pool.removeAll drops
      let (readies, list) := list.Ready (pool.getNonce addr)
      let (promoted, pool) :=
        readies.foldl
          (fun (acc : List Transaction × TxPool) tx =>
            match promoteTx acc.2 addr tx with
            | (true, pool) => (acc.1 ++ [tx], pool)
            | (false, pool) => (acc.1, pool))
          ([], pool)
      let (caps, list) :=
        if addr ∈ pool.locals then ([], list)
        else list.Cap pool.config.AccountQueue
      let pool := pool.removeAll caps
      (promoted, { pool with
        queue := storeList pool.queue addr list })

/- `promoteExecutables(accounts)`. -/
def promoteExecutables
    (pool : TxPool)
    (accounts : List Address) : List Transaction × TxPool :=
  accounts.foldl
    (fun (acc : List Transaction × TxPool) addr =>
      let (promoted, pool) := promoteAccount acc.2 addr
      (acc.1 ++ promoted, pool))
    ([], pool)

/-
  One account of `demoteUnexecutables`: drop the pending
  transactions below the account nonce and those above the
  balance or the block gas limit, queue the invalidated ones
  back, and if the account nonce is then missing in front
  (a gap, "should never happen"), queue the whole list back.
-/
def demoteAccount
    (pool : TxPool)
    (addr : Address) :
    TxPool :=
  match pool.pending.lookup addr with
  | none => pool
  | some list =>
      let nonce := pool.currentState.GetNonce addr
      let (olds, list) := list.Forward nonce
      let pool := pool.removeAll olds
      let (drops, invalids, list) :=
        list.Filter (pool.currentState.GetBalance addr)
          pool.currentMaxGas
      let pool := pool.removeAll drops
      let pool :=
        invalids.foldl (fun pool tx =>
          (enqueueTx env pool tx).2) pool
      let (gapped, list) :=
        if 0 < list.Len ∧ list.txs.Get nonce = none
          then list.Cap 0
        else ([], list)
      let pool :=
        gapped.foldl (fun pool tx =>
          (enqueueTx env pool tx).2) pool
      { pool with pending := storeList pool.pending addr list }

/-
  `demoteUnexecutables()`, over the pending accounts in the
  order the map is ranged.
-/
def demoteUnexecutables
    (pool : TxPool)
    (order : List Address) : TxPool :=
  order.foldl (demoteAccount env) pool

end Core

end PlasmaEvm

