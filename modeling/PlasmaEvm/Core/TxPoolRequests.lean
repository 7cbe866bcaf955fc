import PlasmaEvm.Core.TxPool

/-
  Transactions of the null address in the pool.  A request
  transaction carries the signature V = R = S = 0, which
  `Sender` maps to the null address; the operator hands such
  transactions to the miner through `EnqueueReqeustTxs` and
  `pendingRtx` only.  `validateTx`, however, returns right
  after the nonce check for the null address, so a remote
  transaction with that signature passes with no funding and
  no intrinsic gas check, and `add` queues it like any
  other.

  Key statements include:
    * `validateTx_null_sender`
    * `EnqueueReqeustTxs_null_senders`
    * `add_queues_null_sender`
-/

------------------------------------------------------------
-- Validation of Null-Address Transactions
------------------------------------------------------------

namespace PlasmaEvm

namespace Core

open PlasmaEvm.Types

variable (env : TxEnv)

/-
  For the null address `validateTx` is the size, value, gas
  limit, price and nonce checks alone.
-/
theorem validateTx_null_sender
    (pool : TxPool)
    (tx : Transaction)
    (isLocal : Bool)
    (hSender : Sender env.recoverPlain tx =
      some NullAddress) :
    validateTx env pool tx isLocal = .ok () ↔
      env.Size tx ≤ txMaxSize ∧
      0 ≤ tx.value ∧
      tx.gas ≤ pool.currentMaxGas ∧
      (isLocal = false → NullAddress ∉ pool.locals →
        pool.gasPrice ≤ tx.gasPrice) ∧
      pool.currentState.GetNonce NullAddress ≤ tx.nonce := by
  rw [validateTx_eq_ok]
  constructor
  · rintro ⟨hSize, hValue, hGas, sender, hFrom,
      hPrice, hNonce, -⟩
    have hNull : sender = NullAddress := by
      rw [hSender] at hFrom
      exact (Option.some.inj hFrom).symm
    subst hNull
    exact ⟨hSize, hValue, hGas, hPrice, hNonce⟩
  · rintro ⟨hSize, hValue, hGas, hPrice, hNonce⟩
    exact ⟨hSize, hValue, hGas, NullAddress, hSender,
      hPrice, hNonce,
      Or.inl rfl⟩

/-
  The request path: `EnqueueReqeustTxs` takes a batch only
  when every sender is the null address.
-/
theorem EnqueueReqeustTxs_null_senders
    (pool : TxPool)
    (rtxs : List Transaction)
    (hOk : (EnqueueReqeustTxs env pool rtxs).1 = .ok ()) :
    ∀ rtx ∈ rtxs, senderOf env rtx = NullAddress := by
  unfold EnqueueReqeustTxs at hOk
  split at hOk
  · rename_i hAll
    intro rtx hMem
    simpa using List.all_eq_true.mp hAll rtx hMem
  · cases hOk

end Core

end PlasmaEvm

------------------------------------------------------------
-- Null-Address Transactions Reach the Queue
------------------------------------------------------------

namespace PlasmaEvm

namespace Core

open PlasmaEvm.Types

variable (env : TxEnv)

/-
  A remote transaction of the null address that passes the
  five checks before the short circuit, into a pool with
  room and no list of the null address, is accepted by `add`
  and queued under the null address.
-/
theorem add_queues_null_sender
    (pool : TxPool)
    (tx : Transaction)
    (priced : PricedAnswer)
    (hSender : Sender env.recoverPlain tx =
      some NullAddress)
    (hUnknown : tx ∉ pool.all)
    (hSize : env.Size tx ≤ txMaxSize)
    (hValue : 0 ≤ tx.value)
    (hGas : tx.gas ≤ pool.currentMaxGas)
    (hPrice : pool.gasPrice ≤ tx.gasPrice)
    (hNonce : pool.currentState.GetNonce NullAddress ≤ tx.nonce)
    (hRoom :
      pool.all.length < pool.config.GlobalSlots +
        pool.config.GlobalQueue)
    (hPending : pool.pending.lookup NullAddress = none)
    (hQueue : pool.queue.lookup NullAddress = none) :
    (add env pool tx false priced).1 = .ok false ∧
      tx ∈ (add env pool tx false priced).2.queuedOf
        NullAddress := by
  have hValid : validateTx env pool tx false = .ok () :=
    (validateTx_null_sender env pool tx false hSender).mpr
      ⟨hSize, hValue, hGas, fun _ _ => hPrice, hNonce⟩
  have hNotFull :
      ¬ pool.config.GlobalSlots + pool.config.GlobalQueue ≤
        pool.all.length := by
    omega
  have hFrom : senderOf env tx = NullAddress := by
    simp [senderOf, hSender]
  have hEnqueue :=
    enqueueTx_of_lookup_none env pool tx hUnknown
      (by rw [hFrom]; exact hQueue)
  rw [hFrom] at hEnqueue
  simp only [add, hUnknown, if_false, hValid,
    hNotFull, false_and,
    hEnqueue]
  rw [hFrom, hPending]
  refine ⟨rfl, ?_⟩
  have hHeld : tx ∈ ((newTxList false).put tx).Flatten :=
    TxSortedMap.mem_putNonce_self tx []
  simpa [TxPool.queuedOf] using hHeld

/-
  A head state with no nonce, balance, delegatee or stamina.
-/
def emptyHead : StateView where
  GetNonce := fun _ => 0
  GetBalance := fun _ => 0
  GetDelegatee := fun _ => none
  GetStamina := fun _ => 0

/-
  A remote transaction with the request signature V = R = S
  = 0: nonce 0, gas price 1, gas 21000, no value, to address
  1.
-/
def nullSignedTx : Transaction where
  nonce := 0
  gasPrice := 1
  gas := 21000
  recipient := some ⟨1⟩
  value := 0
  payload := []
  v := 0
  r := 0
  s := 0

/- Recovery of real signatures is never reached. -/
def nullSignedEnv : TxEnv where
  recoverPlain := fun _ => none
  Size := fun _ => 100

/-
  A new pool with the default configuration queues the
  transaction under the null address.
-/
theorem add_queues_null_signed_tx :
    (add nullSignedEnv
        (NewTxPool DefaultTxPoolConfig 1 true emptyHead 8000000)
        nullSignedTx false ⟨false, []⟩).1 = .ok false ∧
      nullSignedTx ∈
        (add nullSignedEnv
          (NewTxPool DefaultTxPoolConfig 1 true emptyHead 8000000)
          nullSignedTx false ⟨false,
            []⟩).2.queuedOf NullAddress :=
  add_queues_null_sender nullSignedEnv
    (NewTxPool DefaultTxPoolConfig 1 true emptyHead 8000000)
    nullSignedTx ⟨false,
      []⟩ (by decide) (by decide) (by decide)
    (by decide) (by decide) (by decide) (by decide)
      (by decide) rfl rfl

end Core

end PlasmaEvm
