import PlasmaEvm.Miner.Worker
import PlasmaEvm.Control.Replay
import PlasmaEvm.Core.TxPoolRequests

/-
  Epochs on the operator's node (`miner/miner.go`,
  `miner/worker.go`, `pls/rootchain_manager.go`).  Every
  `EpochPrepared` event of the root chain starts the miner
  with `Miner.Start`, which resets the epoch environment and
  starts the worker.  The worker then mines non-request
  blocks with `commitNewWork` or request blocks with
  `commitNewWorkForORB`. The root chain submitter stops the
  miner when it takes the `NewMinedBlockEvent` of a block
  after which the epoch is completed.

  The operator is the worker of `Miner.Worker` together with
  the epoch it was last started with.  `Operator.step` runs
  the worker's goroutines, `Miner.Start`, the submitter, and
  any change of the pool by the rest of the node, in any
  order. Under every interleaving the chain stays
  consecutive, and the epoch is completed once `EpochLength`
  blocks are counted.  Once the submitter has stopped an
  idle miner, nothing more is written until the next
  `Miner.Start`.

  Stopping does not reach a task that is already in flight:
  the chain head event of the epoch's last block makes
  `newWorkLoop` commit the next block while the worker still
  runs.  That block is sealed and written after the epoch.

  Key definitions include:
    * `Pending`, `commitNewWork`
    * `EpochPrepared`, `Operator`, `OperatorAction`,
      `Operator.step`

  Key statements include:
    * `Operator.step_cases`
    * `Operator.chain_replay`
    * `Operator.Counts.replay`
    * `Operator.idle_replay`
-/

------------------------------------------------------------
-- Non-Request Blocks
------------------------------------------------------------

namespace PlasmaEvm

namespace Miner

open PlasmaEvm.Types PlasmaEvm.Core

/-
  `Pending()`: the pending transactions of every account, in
  nonce order for each account.
-/
def Pending (pool : TxPool) : List Transaction :=
  pool.pending.entries.flatMap (fun entry =>
    entry.2.Flatten)

variable (config : WorkerConfig)

/-
  `commitNewWork`: the block on the head `CurrentBlock` with
  the pending transactions that apply.  With nothing pending
  there is no task.  `commitTransactions` takes the
  transactions in price and nonce order and skips the rest
  of an account after some errors.  Here they are tried in
  the pool's order, as `commitRequestTransactions` tries
  requests.
-/
def commitNewWork
    (pool : TxPool)
    (CurrentBlock : Nat)
    (interrupt : Option Nat) : Option Block :=
  let pending := Pending pool
  if pending = [] then none
  else
    let number := CurrentBlock + 1
    some ⟨number,
      commitRequestTransactions config number interrupt 0
        (config.GasLimit number) pending⟩

/-
  A task is the next block, holding pending transactions
  only.
-/
theorem commitNewWork_eq_some
    {pool : TxPool}
    {CurrentBlock : Nat}
    {interrupt : Option Nat}
    {block : Block}
    (hWork : commitNewWork config pool CurrentBlock interrupt =
      some block) :
    block.Number = CurrentBlock + 1 ∧
      block.Transactions.Sublist (Pending pool) := by
  unfold commitNewWork at hWork
  dsimp only at hWork
  split at hWork
  · cases hWork
  · cases hWork
    exact ⟨rfl, commitRequestTransactions_sublist
      config _ _ _ _ _⟩

end Miner

end PlasmaEvm

------------------------------------------------------------
-- The Operator's Node
------------------------------------------------------------

namespace PlasmaEvm

namespace Miner

open PlasmaEvm.Types PlasmaEvm.Core

/-
  The fields of an `EpochPrepared` event `Miner.Start`
  reads.
-/
structure EpochPrepared where
  IsRequest : Bool
  StartBlockNumber : Nat
  EndBlockNumber : Nat
  deriving DecidableEq, Repr

/-
  The operator's node: the worker, the epoch `miner.env` was
  last started with, and the number of blocks written when
  it was (the blocks written since are the epoch's).
-/
structure Operator where
  worker : Worker
  epoch : EpochPrepared
  started : Nat

/-
  A step of the node: a commit of `newWorkLoop` and
  `mainLoop` (the trigger and the interrupt), the engine's
  seal, the two halves of `resultLoop`, `Miner.Start` on an
  epoch, the submitter taking the posted event, and a change
  of the pool by the rest of the node (transactions added or
  dropped, requests enqueued, a reset to a new head).
-/
inductive OperatorAction where
  | commit (trigger : Trigger) (interrupt : Option Nat)
  | sealTask
  | result
  | finish
  | start (e : EpochPrepared) (interrupt : Option Nat)
  | submit
  | setPool (pool : TxPool)

namespace Operator

variable (config : WorkerConfig)

/-
  `newWorkLoop` takes a trigger as `Worker.takes` does,
  except that the timer of a non-request epoch asks
  `Pending()`.
-/
def takes (o : Operator) : Trigger → Option Worker
  | .timer =>
      if o.epoch.IsRequest then o.worker.takes .timer
      else if o.worker.running && !o.worker.env.Completed &&
          !(Pending o.worker.pool).isEmpty
            then some o.worker
      else none
  | trigger => o.worker.takes trigger

/-
  `mainLoop` on the request of a commit:
  `commitNewWorkForORB` in a request epoch and
  `commitNewWork` otherwise, then `commit`, which hands the
  task to `taskLoop` only while running.
-/
def commit
    (o : Operator)
    (w : Worker)
    (interrupt : Option Nat) :
    Worker :=
  if o.epoch.IsRequest then w.submit config interrupt
  else
    match commitNewWork config w.pool
      w.CurrentBlock interrupt with
    | some block =>
        if w.running
          then { w with sealing := some block } else w
    | none => w

/-
  `Miner.Start(coinbase, e, false)`: the environment of the
  epoch (nothing mined, its length, not completed), then
  `worker.start`, whose start signal `newWorkLoop` commits.
  The root chain prepares epochs that are not empty.
-/
def start
    (o : Operator)
    (e : EpochPrepared)
    (interrupt : Option Nat) : Option Operator :=
  if e.StartBlockNumber ≤ e.EndBlockNumber then
    let o : Operator :=
      { worker := { o.worker with
          env := ⟨0, e.EndBlockNumber + 1 -
            e.StartBlockNumber, false⟩ }
        epoch := e
        started := o.worker.blocks.length }
    (o.worker.takes .start).map fun w =>
      { o with worker := o.commit config w interrupt }
  else none

/-
  `submitBlockOrEpoch` on the posted event: the miner is
  stopped once the epoch is completed.  The submit
  transactions are left out.
-/
def deliver (o : Operator) : Option Operator :=
  match o.worker.posting with
  | some _ =>
      let w := { o.worker with posting := none }
      some { o with
        worker := if w.env.Completed then { w with
          running := false }
          else w }
  | none => none

/-
  One step of the node.  Only `Miner.Start` sends the start
  signal.
-/
def step (o : Operator) : OperatorAction → Option Operator
  | .commit .start _ => none
  | .commit trigger interrupt =>
      (o.takes trigger).map fun w =>
        { o with worker := o.commit config w interrupt }
  | .sealTask =>
      (o.worker.step config .sealTask).map fun w => { o with
        worker := w }
  | .result =>
      (o.worker.step config .result).map fun w => { o with
        worker := w }
  | .finish =>
      (o.worker.step config .finish).map fun w => { o with
        worker := w }
  | .start e interrupt => o.start config e interrupt
  | .submit => o.deliver
  | .setPool pool =>
      some { o with worker := { o.worker with pool := pool } }

/-
  The node before its first epoch: the stopped worker on the
  head `CurrentBlock`, with no epoch.
-/
def init
    (pool : TxPool)
    (CurrentBlock : Nat) :
    Operator where
  worker := Worker.init pool CurrentBlock 0
  epoch := ⟨false, 0, 0⟩
  started := 0

end Operator

end Miner

end PlasmaEvm

------------------------------------------------------------
-- What a Step Can Do
------------------------------------------------------------

namespace PlasmaEvm

namespace Miner

open PlasmaEvm.Types PlasmaEvm.Core

namespace Operator

variable {config : WorkerConfig}

/-
  A trigger other than the start signal changes the chain
  head events only.
-/
theorem takes_eq
    {o : Operator}
    {trigger : Trigger}
    {w : Worker}
    (hTrigger : trigger ≠ .start)
    (h : o.takes trigger = some w) :
    ∃ chainHeadCh, w =
      { o.worker with chainHeadCh := chainHeadCh } := by
  cases trigger with
  | start => exact absurd rfl hTrigger
  | chainHead =>
      simp only [takes, Worker.takes,
        Option.ite_none_right_eq_some,
        Option.some.injEq] at h
      exact ⟨o.worker.chainHeadCh - 1, h.2.symm⟩
  | timer =>
      simp only [takes, Worker.takes] at h
      split at h <;>
        simp only [Option.ite_none_right_eq_some,
          Option.some.injEq] at h <;>
        exact ⟨o.worker.chainHeadCh, h.2.symm⟩

/-
  A commit sets the task being sealed to the next block, or
  changes nothing.
-/
theorem commit_eq
    (o : Operator)
    (w : Worker)
    (interrupt : Option Nat) :
    o.commit config w interrupt = w ∨
      ∃ block, block.Number = w.CurrentBlock + 1 ∧
        o.commit config w interrupt =
          { w with sealing := some block } := by
  unfold commit
  split
  · rcases Worker.submit_eq config w interrupt with
      hSame | ⟨block, hWork, hSubmit⟩
    · exact .inl hSame
    · exact .inr ⟨block, (commitNewWorkForORB_eq_some
        config hWork).1,
        hSubmit⟩
  · split
    · rename_i block hWork
      split
      · exact .inr ⟨block, (commitNewWork_eq_some
          config hWork).1, rfl⟩
      · exact .inl rfl
    · exact .inl rfl

/- A stopped worker hands no task to `taskLoop`. -/
theorem commit_of_not_running
    (o : Operator)
    {w : Worker}
    (interrupt : Option Nat)
    (hRunning : w.running = false) :
    o.commit config w interrupt = w := by
  unfold commit Worker.submit
  split
  · split <;> simp [hRunning]
  · split <;> simp [hRunning]

/-
  `Miner.Start`: the epoch, its environment and the blocks
  written so far are set, and the running worker commits.
-/
theorem start_eq
    {o o' : Operator}
    {e : EpochPrepared}
    {interrupt : Option Nat}
    (h : o.start config e interrupt = some o') :
    e.StartBlockNumber ≤ e.EndBlockNumber ∧
      ∃ o₁ : Operator, o₁.epoch = e ∧
        o₁.started = o.worker.blocks.length ∧
        o₁.worker = { o.worker with
          env := ⟨0, e.EndBlockNumber + 1 -
            e.StartBlockNumber, false⟩ } ∧
        o' = { o₁ with
          worker := o₁.commit config { o₁.worker with
            running := true }
            interrupt } := by
  unfold start at h
  split at h
  · rename_i hRange
    simp only [Worker.takes, Option.map_some,
      Option.some.injEq] at h
    exact ⟨hRange, _, rfl, rfl, rfl, h.symm⟩
  · cases h

/-
  The submitter frees `resultLoop`, and stops a completed
  epoch.
-/
theorem deliver_eq
    {o o' : Operator}
    (h : o.deliver = some o') :
    ∃ block, o.worker.posting = some block ∧
      o' = { o with
        worker :=
          if o.worker.env.Completed then
            { o.worker with posting := none, running := false }
          else { o.worker with posting := none } } := by
  unfold deliver at h
  split at h
  · rename_i block hPosting
    simp only [Option.some.injEq] at h
    exact ⟨block, hPosting, h.symm⟩
  · cases h

/-
  The inversion of `step`: what each action does, with the
  guards under which it is taken.
-/
theorem step_cases
    {o o' : Operator}
    {a : OperatorAction}
    (hStep : o.step config a = some o') :
    (∃ trigger interrupt w, a = .commit trigger interrupt ∧
      trigger ≠ .start ∧ o.takes trigger = some w ∧
      o' =
        { o with worker := o.commit config w interrupt }) ∨
    (∃ action w, action ∈ [.sealTask, .result, .finish] ∧
      o.worker.step config action = some w ∧ o' = { o with
        worker := w }) ∨
    (∃ e interrupt, a = .start e interrupt ∧
      o.start config e interrupt = some o') ∨
    (a = .submit ∧ o.deliver = some o') ∨
    (∃ pool, a = .setPool pool ∧
      o' = { o with
        worker := { o.worker with pool := pool } }) := by
  cases a with
  | commit trigger interrupt =>
      cases trigger with
      | start => cases hStep
      | chainHead =>
          simp only [step, Option.map_eq_some_iff] at hStep
          obtain ⟨w, hTakes, rfl⟩ := hStep
          exact .inl ⟨.chainHead, interrupt, w, rfl,
            by simp, hTakes, rfl⟩
      | timer =>
          simp only [step, Option.map_eq_some_iff] at hStep
          obtain ⟨w, hTakes, rfl⟩ := hStep
          exact .inl ⟨.timer, interrupt, w, rfl,
            by simp, hTakes, rfl⟩
  | sealTask =>
      simp only [step, Option.map_eq_some_iff] at hStep
      obtain ⟨w, hWorker, rfl⟩ := hStep
      exact .inr (.inl ⟨.sealTask, w,
        by simp, hWorker, rfl⟩)
  | result =>
      simp only [step, Option.map_eq_some_iff] at hStep
      obtain ⟨w, hWorker, rfl⟩ := hStep
      exact .inr (.inl ⟨.result, w, by simp, hWorker, rfl⟩)
  | finish =>
      simp only [step, Option.map_eq_some_iff] at hStep
      obtain ⟨w, hWorker, rfl⟩ := hStep
      exact .inr (.inl ⟨.finish, w, by simp, hWorker, rfl⟩)
  | start e interrupt =>
      exact .inr (.inr (.inl ⟨e, interrupt, rfl, hStep⟩))
  | submit => exact .inr (.inr (.inr (.inl ⟨rfl, hStep⟩)))
  | setPool pool =>
      simp only [step, Option.some.injEq] at hStep
      exact .inr (.inr (.inr (.inr ⟨pool,
        rfl, hStep.symm⟩)))

end Operator

end Miner

end PlasmaEvm

------------------------------------------------------------
-- Invariants of Every Interleaving
------------------------------------------------------------

namespace PlasmaEvm

namespace Miner

open PlasmaEvm.Types PlasmaEvm.Core Replay

namespace Operator

variable {config : WorkerConfig}

/- A commit keeps the chain: its task is the next block. -/
theorem chain_commit
    {base : Nat}
    {w : Worker}
    (o : Operator)
    (interrupt : Option Nat)
    (hChain : Worker.Chain base w) :
    Worker.Chain base (o.commit config w interrupt) := by
  rcases commit_eq o w interrupt
    with hSame | ⟨block, hNumber, hCommit⟩
  · rw [hSame]
    exact hChain
  · rw [hCommit]
    exact hChain.setSealing hNumber

/- Every step of the node keeps the worker's chain. -/
theorem chain_step
    {base : Nat}
    {o o' : Operator}
    {a : OperatorAction}
    (hChain : Worker.Chain base o.worker)
    (hStep : o.step config a = some o') :
    Worker.Chain base o'.worker := by
  rcases step_cases hStep with
    ⟨trigger, interrupt, w, -, hTrigger, hTakes, rfl⟩ |
    ⟨action, w, -, hWorker, rfl⟩ |
    ⟨e, interrupt, -, hStart⟩ |
    ⟨-, hDeliver⟩ |
    ⟨pool, -, rfl⟩
  · obtain ⟨chainHeadCh, rfl⟩ := takes_eq hTrigger hTakes
    exact chain_commit o interrupt
      (hChain.of_fields rfl rfl rfl rfl rfl rfl)
  · exact hChain.step hWorker
  · obtain ⟨-, o₁, -, -, hWorker₁, rfl⟩ := start_eq hStart
    exact chain_commit o₁ interrupt
      (hChain.of_fields (by simp [hWorker₁]) (by simp [hWorker₁])
        (by simp [hWorker₁]) (by simp [hWorker₁])
          (by simp [hWorker₁])
        (by simp [hWorker₁]))
  · obtain ⟨block, -, rfl⟩ := deliver_eq hDeliver
    have hFreed := hChain.clearPosting
    split
    · exact hFreed.of_fields rfl rfl rfl rfl rfl rfl
    · exact hFreed
  · exact hChain.setPool pool

/- Every interleaving keeps the worker's chain. -/
theorem chain_replay
    {base : Nat}
    {o o' : Operator}
    {actions : List OperatorAction}
    (hChain : Worker.Chain base o.worker)
    (hReplay : replay (step config) o actions = some o') :
    Worker.Chain base o'.worker :=
  invariant (fun _ _ _ hChain hStep =>
    chain_step hChain hStep) hChain
    hReplay

/-
  The epoch is completed exactly when it has a length and
  that many blocks are counted.
-/
def Counts (o : Operator) : Prop :=
  o.worker.env.Completed = true ↔
    0 < o.worker.env.EpochLength ∧
      o.worker.env.EpochLength ≤ o.worker.env.NumBlockMined

/- A commit leaves the environment. -/
@[simp] theorem commit_env
    (o : Operator)
    (w : Worker)
    (interrupt : Option Nat) :
    (o.commit config w interrupt).env = w.env := by
  rcases commit_eq o w interrupt
    with hSame | ⟨block, -, hCommit⟩
  · rw [hSame]
  · rw [hCommit]

/- Counting a block completes the epoch at its length. -/
theorem Counts.finishBlock
    {o : Operator}
    {block : Block}
    (hCounts : o.Counts) :
    Counts { o with worker := o.worker.finishBlock block } := by
  unfold Counts at hCounts ⊢
  simp only [Worker.finishBlock]
  split_ifs with hLast
  · simp only [true_iff]
    omega
  · rw [hCounts]
    omega

/- Every step keeps the count. -/
theorem Counts.step
    {o o' : Operator}
    {a : OperatorAction}
    (hCounts : o.Counts)
    (hStep : o.step config a = some o') :
    o'.Counts := by
  rcases step_cases hStep with
    ⟨trigger, interrupt, w, -, hTrigger, hTakes, rfl⟩ |
    ⟨action, w, -, hWorker, rfl⟩ |
    ⟨e, interrupt, -, hStart⟩ |
    ⟨-, hDeliver⟩ |
    ⟨pool, -, rfl⟩
  · obtain ⟨chainHeadCh, rfl⟩ := takes_eq hTrigger hTakes
    simpa [Counts] using hCounts
  · rcases Worker.step_cases hWorker with
      ⟨trigger, interrupt, w₁, -, hTakes, rfl⟩ |
      ⟨sealed, -, -, rfl⟩ |
      ⟨result, rest, -, -, -, -, rfl⟩ |
      ⟨written, -, -, rfl⟩
    · obtain ⟨running, chainHeadCh, rfl⟩ :=
        Worker.takes_eq hTakes
      rcases Worker.submit_eq config
          { o.worker with
            running := running,
            chainHeadCh := chainHeadCh }
          interrupt with hSame | ⟨task, -, hSubmit⟩
      · simpa [Counts, hSame] using hCounts
      · simpa [Counts, hSubmit] using hCounts
    · exact hCounts
    · split
      · exact hCounts
      · exact hCounts
    · exact hCounts.finishBlock
  · obtain ⟨-, o₁, -, -, hWorker₁, rfl⟩ := start_eq hStart
    simp [Counts, hWorker₁]
    omega
  · obtain ⟨block, -, rfl⟩ := deliver_eq hDeliver
    split <;> exact hCounts
  · exact hCounts

theorem Counts.replay
    {o o' : Operator}
    {actions : List OperatorAction}
    (hCounts : o.Counts)
    (hReplay : replay (Operator.step config) o
      actions = some o') :
    o'.Counts :=
  invariant (fun _ _ _ hCounts hStep =>
    hCounts.step hStep) hCounts hReplay

end Operator

end Miner

end PlasmaEvm

------------------------------------------------------------
-- A Stopped Miner
------------------------------------------------------------

namespace PlasmaEvm

namespace Miner

open PlasmaEvm.Types PlasmaEvm.Core Replay

namespace Operator

variable {config : WorkerConfig}

/-
  The miner is stopped and no task is in flight: none is
  being sealed, none is sealed, and none is being written.
-/
structure Idle (o : Operator) : Prop where
  stopped : o.worker.running = false
  sealing : o.worker.sealing = none
  resultCh : o.worker.resultCh = []
  writing : o.worker.writing = none

/- Every action of the node but `Miner.Start`. -/
def NotStart : OperatorAction → Prop
  | .start _ _ => False
  | _ => True

/-
  A step other than `Miner.Start` keeps a stopped miner idle
  and writes nothing.
-/
theorem idle_step
    {o o' : Operator}
    {a : OperatorAction}
    (hNotStart : NotStart a)
    (hIdle : o.Idle)
    (hStep : o.step config a = some o') :
    o'.Idle ∧ o'.worker.blocks = o.worker.blocks := by
  rcases step_cases hStep with
    ⟨trigger, interrupt, w, -, hTrigger, hTakes, rfl⟩ |
    ⟨action, w, hAction, hWorker, rfl⟩ |
    ⟨e, interrupt, rfl, -⟩ |
    ⟨-, hDeliver⟩ |
    ⟨pool, -, rfl⟩
  · obtain ⟨chainHeadCh, rfl⟩ := takes_eq hTrigger hTakes
    have hStopped :
        ({ o.worker with
          chainHeadCh := chainHeadCh } : Worker).running =
          false := hIdle.stopped
    rw [commit_of_not_running o interrupt hStopped]
    exact ⟨⟨hIdle.stopped, hIdle.sealing, hIdle.resultCh,
      hIdle.writing⟩,
      rfl⟩
  · exfalso
    simp only [List.mem_cons, List.not_mem_nil,
      or_false] at hAction
    rcases Worker.step_cases hWorker with
      ⟨trigger, interrupt, w₁, rfl, -, -⟩ |
      ⟨sealed, -, hSealing, -⟩ |
      ⟨result, rest, -, -, -, hResult, -⟩ |
      ⟨written, -, hWriting, -⟩
    · simp at hAction
    · simp [hIdle.sealing] at hSealing
    · simp [hIdle.resultCh] at hResult
    · simp [hIdle.writing] at hWriting
  · exact absurd hNotStart id
  · obtain ⟨block, -, rfl⟩ := deliver_eq hDeliver
    split
    · exact ⟨⟨rfl, hIdle.sealing, hIdle.resultCh,
        hIdle.writing⟩, rfl⟩
    · exact ⟨⟨hIdle.stopped, hIdle.sealing, hIdle.resultCh,
        hIdle.writing⟩,
        rfl⟩
  · exact ⟨⟨hIdle.stopped, hIdle.sealing, hIdle.resultCh,
      hIdle.writing⟩, rfl⟩

/-
  Once the miner is stopped with no task in flight, no block
  is written, whatever the node does, until the next
  `Miner.Start`.
-/
theorem idle_replay
    {o o' : Operator}
    {actions : List OperatorAction}
    (hIdle : o.Idle)
    (hNoStart : ∀ a ∈ actions, NotStart a)
    (hReplay : replay (Operator.step config) o
      actions = some o') :
    o'.Idle ∧ o'.worker.blocks = o.worker.blocks := by
  have hKeep : ∀ s a t, NotStart a →
      s.Idle ∧ s.worker.blocks = o.worker.blocks →
      Operator.step config s a = some t →
      t.Idle ∧ t.worker.blocks = o.worker.blocks := by
    intro s a t hNotStart hInv hStep
    obtain ⟨hIdleNext, hBlocks⟩ :=
      idle_step hNotStart hInv.1 hStep
    exact ⟨hIdleNext, hBlocks.trans hInv.2⟩
  exact invariant_of_forall hKeep hNoStart ⟨hIdle, rfl⟩ hReplay

end Operator

end Miner

end PlasmaEvm

------------------------------------------------------------
-- A Block After the Epoch
------------------------------------------------------------

namespace PlasmaEvm

namespace Miner

open PlasmaEvm.Types PlasmaEvm.Core Replay

/- A transfer of the account 1 of the nonce `nonce`. -/
def accountTransfer (nonce : Nat) : Transaction where
  nonce := nonce
  gasPrice := 1
  gas := Params.TxGas
  recipient := some ⟨2⟩
  value := 1
  payload := []
  v := 27
  r := 1
  s := 1

/-
  A block has room for one transfer, and the transfer of the
  nonce `k` applies in the block `k + 1` only: the account's
  nonce grows by one with every block.
-/
def overrunConfig : WorkerConfig where
  IsEIP155 := fun _ => true
  GasLimit := fun _ => Params.TxGas
  ApplyTransaction := fun number gasPool tx =>
    if tx.nonce + 1 = number ∧ Params.TxGas ≤ gasPool then
      some (gasPool - Params.TxGas)
    else none

/-
  A pool with the transfers of the nonces 0 and 1 pending.
-/
def overrunPool : TxPool :=
  { NewTxPool DefaultTxPoolConfig 1 true emptyHead Params.TxGas with
    pending := (∅ : AccountLists).insert ⟨1⟩
      (((newTxList true).put (accountTransfer 0)).put
        (accountTransfer 1)) }

/-
  A non-request epoch of the single block 1, mined on the
  head 0, where the chain head event of block 1 is committed
  before the submitter stops the miner.  Block 1 is written
  and sends a chain head event; the event's commit finds the
  worker running and makes a task for block 2; block 1
  completes the epoch and the submitter stops the miner; the
  task in flight is sealed and written all the same.
-/
def overrunSchedule : List OperatorAction :=
  [.start ⟨false, 1, 1⟩ none,
   .sealTask,
   .result,
   .commit .chainHead none,
   .finish,
   .submit,
   .sealTask,
   .result,
   .finish,
   .submit]

theorem chain_head_commit_overruns_epoch :
    (replay (Operator.step overrunConfig)
      (Operator.init overrunPool 0)
        overrunSchedule).map
        (fun o => (o.epoch, o.worker.env, o.worker.running,
          (o.worker.blocks.drop o.started).map Block.Number)) =
      some (⟨false, 1, 1⟩, ⟨2, 1, true⟩,
        false, [1, 2]) := by
  decide +kernel

end Miner

end PlasmaEvm
