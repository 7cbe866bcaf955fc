import PlasmaEvm.Core.TxPool

/-
  The request path of the operator's miner
  (`miner/worker.go`): the goroutines that turn the pool's
  request transactions into sealed and written request
  blocks.

    * `newWorkLoop` commits new work on the start signal, on
      every chain head event, and on the recommit timer
      while mining an epoch that is not completed and has
      requests pending;
    * `mainLoop` runs `commitNewWorkForORB` for it: a block
      on the current head with the requests of a snapshot of
      `PendingRequests`;
    * `taskLoop` hands the newest task to the sealing engine
      and interrupts the one sealed before;
    * `resultLoop` writes a sealed block with
      `WriteBlockWithState`, which sends a chain head event,
      then counts it, clears the pool's request transactions
      with `RemovePendingRequests` and posts a
      `NewMinedBlockEvent`, whose delivery it waits for.

  One critical step of a goroutine is one action of
  `Worker.step`, and any interleaving of the goroutines is a
  list of actions.  The EVM is a parameter.  Receipts, state
  roots, timestamps and seal hashes are left out, and with
  them `taskLoop`'s check for a resubmitted task of the same
  seal hash.

  Key definitions include:
    * `Block`, `Block.IsRequest`
    * `commitRequestTransactions`, `commitNewWorkForORB`
    * `Worker`, `WorkerAction`, `Worker.step`

  Key statements include:
    * `commitRequestTransactions_sublist`
    * `commitRequestTransactions_eq_self`
    * `Worker.heldBlocks_step`
    * `Worker.Chain.step`
    * `Worker.blocks_length_step`
-/

------------------------------------------------------------
-- Blocks
------------------------------------------------------------

namespace PlasmaEvm

namespace Miner

open PlasmaEvm.Types PlasmaEvm.Core

/-
  A block as the loops see it: its number and transactions.
-/
structure Block where
  Number : Nat
  Transactions : List Transaction
  deriving DecidableEq, Repr

/-
  `b.IsRequest()`: a block with transactions, each with the
  signature values V = R = S = 0.
-/
def Block.IsRequest (b : Block) : Bool :=
  !b.Transactions.isEmpty &&
    b.Transactions.all (fun tx =>
      tx.v == 0 && tx.r == 0 && tx.s == 0)

theorem Block.IsRequest_of_null_signatures
    (b : Block)
    (hNonempty : b.Transactions ≠ [])
    (hNull : ∀ tx ∈ b.Transactions, tx.v = 0 ∧
      tx.r = 0 ∧ tx.s = 0) :
    b.IsRequest = true := by
  simp only [Block.IsRequest, Bool.and_eq_true,
    Bool.not_eq_true',
    List.isEmpty_eq_false_iff, List.all_eq_true]
  refine ⟨hNonempty, ?_⟩
  intro tx hTx
  obtain ⟨hV, hR, hS⟩ := hNull tx hTx
  simp [hV, hR, hS]

end Miner

end PlasmaEvm

------------------------------------------------------------
-- Committing Request Transactions
------------------------------------------------------------

namespace PlasmaEvm

namespace Miner

open PlasmaEvm.Types PlasmaEvm.Core

/-
  What the request path reads from the chain configuration
  and the EVM: `IsEIP155` of a block number, the gas limit
  `CalcGasLimit` gives the block of a number, and
  `ApplyTransaction` of a transaction in the block of a
  number with the gas pool's gas: the gas left in the pool,
  or `none` for a consensus error (after which the state is
  reverted). For the null address neither the nonce nor the
  balance is checked, so the outcome does not depend on the
  state.
-/
structure WorkerConfig where
  IsEIP155 : Nat → Bool
  GasLimit : Nat → Nat
  ApplyTransaction : Nat → Nat → Transaction → Option Nat

variable (config : WorkerConfig)

/-
  `commitRequestTransactions(rtxs, coinbase, interrupt)` in
  the block `number` from the gas pool `gasPool`: the
  transactions it adds to the block.  `interrupt` is the
  number of requests looked at before a newer commit sets
  the interrupt flag (`none`: it is not set while the loop
  runs). `newWorkLoop` sets it to `commitInterruptResubmit`,
  so the function then returns false and the partial block
  is committed all the same.  A replay-protected request
  waits for EIP-155, and a consensus error skips the request
  silently.
-/
def commitRequestTransactions
    (number : Nat)
    (interrupt : Option Nat)
    (seen : Nat)
    (gasPool : Nat) : List Transaction → List Transaction
  | [] => []
  | rtx :: rtxs =>
      if interrupt = some seen then []
      else if gasPool < Params.TxGas then []
      else if rtx.Protected && !config.IsEIP155 number then
        commitRequestTransactions number interrupt (seen +
          1) gasPool rtxs
      else
        match config.ApplyTransaction number gasPool rtx with
        | none =>
            commitRequestTransactions number interrupt
              (seen + 1) gasPool rtxs
        | some gasPool' =>
            rtx :: commitRequestTransactions number
              interrupt (seen + 1)
              gasPool' rtxs

/-
  The block keeps requests of the snapshot, in its order.
-/
theorem commitRequestTransactions_sublist
    (number : Nat)
    (interrupt : Option Nat)
    (seen gasPool : Nat)
    (rtxs : List Transaction) :
    (commitRequestTransactions config number
      interrupt seen gasPool
      rtxs).Sublist rtxs := by
  induction rtxs generalizing seen gasPool with
  | nil => exact List.Sublist.slnil
  | cons rtx rtxs ih =>
      simp only [commitRequestTransactions]
      split
      · exact List.nil_sublist _
      split
      · exact List.nil_sublist _
      split
      · exact (ih _ _).cons rtx
      split
      · exact (ih _ _).cons rtx
      · exact (ih _ _).cons_cons rtx

/-
  With no interrupt, EIP-155 in force, gas in the pool and
  every request applied without taking gas from it (the null
  address buys none), the block keeps the whole snapshot.
-/
theorem commitRequestTransactions_eq_self
    (number : Nat)
    (seen gasPool : Nat)
    (rtxs : List Transaction)
    (hEIP155 : config.IsEIP155 number = true)
    (hGas : Params.TxGas ≤ gasPool)
    (hApply : ∀ rtx ∈ rtxs,
      config.ApplyTransaction number gasPool rtx =
        some gasPool) :
    commitRequestTransactions config number none
      seen gasPool rtxs =
      rtxs := by
  induction rtxs generalizing seen with
  | nil => rfl
  | cons rtx rtxs ih =>
      have hHead : config.ApplyTransaction number gasPool rtx =
          some gasPool := hApply rtx List.mem_cons_self
      have hTail : ∀ rtx ∈ rtxs,
          config.ApplyTransaction number gasPool rtx =
            some gasPool :=
        fun rtx' hMem => hApply rtx'
          (List.mem_cons_of_mem rtx hMem)
      have hNotLow : ¬ gasPool < Params.TxGas := by omega
      simp [commitRequestTransactions, hNotLow, hEIP155,
        hHead, ih _ hTail]

/-
  `commitNewWorkForORB`: the block on the head
  `CurrentBlock` with the requests of a snapshot of
  `PendingRequests`; with none pending there is no task.
-/
def commitNewWorkForORB
    (pool : TxPool)
    (CurrentBlock : Nat)
    (interrupt : Option Nat) : Option Block :=
  let requestTxs := PendingRequests pool
  if requestTxs = [] then none
  else
    let number := CurrentBlock + 1
    some ⟨number,
      commitRequestTransactions config number interrupt 0
        (config.GasLimit number) requestTxs⟩

/-
  A task is the next block, holding pending requests only.
-/
theorem commitNewWorkForORB_eq_some
    {pool : TxPool}
    {CurrentBlock : Nat}
    {interrupt : Option Nat}
    {block : Block}
    (hWork : commitNewWorkForORB config pool
      CurrentBlock interrupt =
      some block) :
    block.Number = CurrentBlock + 1 ∧
      block.Transactions.Sublist (PendingRequests pool) := by
  unfold commitNewWorkForORB at hWork
  dsimp only at hWork
  split at hWork
  · cases hWork
  · cases hWork
    exact ⟨rfl, commitRequestTransactions_sublist
      config _ _ _ _ _⟩

end Miner

end PlasmaEvm

------------------------------------------------------------
-- The Worker's Loops
------------------------------------------------------------

namespace PlasmaEvm

namespace Miner

open PlasmaEvm.Types PlasmaEvm.Core

/-
  The fields of the epoch environment `w.env` the loops read
  and write: blocks mined so far, the epoch's length, and
  whether the epoch is completed.
-/
structure EpochEnvironment where
  NumBlockMined : Nat
  EpochLength : Nat
  Completed : Bool
  deriving DecidableEq, Repr

/-
  The worker with the pool it shares and the chain it
  writes: whether it is running, its epoch environment, the
  chain head events not yet taken by `newWorkLoop`, the task
  the engine seals, the sealed blocks in `resultCh`, the
  block `resultLoop` has written and not yet announced, the
  block whose `NewMinedBlockEvent` it is posting, the head
  number and the blocks written, in order.
-/
structure Worker where
  running : Bool
  env : EpochEnvironment
  pool : TxPool
  chainHeadCh : Nat
  sealing : Option Block
  resultCh : List Block
  writing : Option Block
  posting : Option Block
  CurrentBlock : Nat
  blocks : List Block

/- What wakes `newWorkLoop` up. -/
inductive Trigger where
  | start
  | chainHead
  | timer
  deriving DecidableEq, Repr

/-
  A step of one goroutine: a commit of new work (the trigger
  and the interrupt seen by `commitRequestTransactions`),
  the engine's seal of the task, and the two halves of
  `resultLoop` around the chain head event.
-/
inductive WorkerAction where
  | commit (trigger : Trigger) (interrupt : Option Nat)
  | sealTask
  | result
  | finish
  deriving DecidableEq, Repr

namespace Worker

variable (config : WorkerConfig)

/-
  `newWorkLoop` takes the trigger: `worker.start` sets the
  running flag, a chain head event is consumed, and the
  timer resubmits only while running an uncompleted epoch
  with requests pending.
-/
def takes (w : Worker) : Trigger → Option Worker
  | .start => some { w with running := true }
  | .chainHead =>
      if 0 < w.chainHeadCh then
        some { w with chainHeadCh := w.chainHeadCh - 1 }
      else none
  | .timer =>
      if w.running && !w.env.Completed &&
          !(PendingRequests w.pool).isEmpty then some w
      else none

/-
  `commitNewWorkForORB`, then `commit`, which hands the task
  to `taskLoop` only while running; its task replaces the
  one being sealed.
-/
def submit (w : Worker) (interrupt : Option Nat) : Worker :=
  match commitNewWorkForORB config w.pool
    w.CurrentBlock interrupt with
  | some block =>
      if w.running
        then { w with sealing := some block } else w
  | none => w

/-
  `resultLoop`'s checks: a block at or below the head (a
  block already written among them) or without transactions
  is dropped.
-/
def accepts (w : Worker) (block : Block) : Bool :=
  w.CurrentBlock <
    block.Number && !block.Transactions.isEmpty

/-
  `WriteBlockWithState`: the block becomes the head and a
  chain head event is sent.
-/
def writeBlock (w : Worker) (block : Block) : Worker :=
  { w with
    CurrentBlock := block.Number
    blocks := w.blocks ++ [block]
    chainHeadCh := w.chainHeadCh + 1
    writing := some block }

/-
  The rest of `resultLoop`: count the block, complete the
  epoch at its length, `RemovePendingRequests`, and post the
  event.
-/
def finishBlock (w : Worker) (block : Block) : Worker :=
  let mined := w.env.NumBlockMined + 1
  { w with
    env := { w.env with
      NumBlockMined := mined
      Completed := if mined = w.env.EpochLength then true
        else w.env.Completed }
    pool := RemovePendingRequests w.pool
    writing := none
    posting := some block }

/-
  One step of one of the worker's goroutines.  `resultLoop`
  takes the next result once the last one is posted.
-/
def step (w : Worker) : WorkerAction → Option Worker
  | .commit trigger interrupt =>
      (w.takes trigger).map (fun w =>
        w.submit config interrupt)
  | .sealTask =>
      match w.sealing with
      | some block =>
          some { w with
            sealing := none,
            resultCh := w.resultCh ++ [block] }
      | none => none
  | .result =>
      match w.writing, w.posting, w.resultCh with
      | none, none, block :: rest =>
          let w := { w with resultCh := rest }
          if w.accepts block
            then some (w.writeBlock block) else some w
      | _, _, _ => none
  | .finish =>
      match w.writing with
      | some block => some (w.finishBlock block)
      | none => none

/-
  The worker before the epoch: stopped, nothing mined, no
  task, no event, on the head `CurrentBlock`.
-/
def init
    (pool : TxPool)
    (CurrentBlock EpochLength : Nat) : Worker where
  running := false
  env := ⟨0, EpochLength, false⟩
  pool := pool
  chainHeadCh := 0
  sealing := none
  resultCh := []
  writing := none
  posting := none
  CurrentBlock := CurrentBlock
  blocks := []

end Worker

end Miner

end PlasmaEvm

------------------------------------------------------------
-- What a Step Can Do
------------------------------------------------------------

namespace PlasmaEvm

namespace Miner

open PlasmaEvm.Types PlasmaEvm.Core

namespace Worker

variable {config : WorkerConfig}

@[simp] theorem takes_pool
    {w w' : Worker}
    {trigger : Trigger}
    (h : w.takes trigger = some w') :
    w'.pool = w.pool := by
  cases trigger <;> simp only [takes, Option.some.injEq,
    Option.ite_none_right_eq_some] at h <;> grind

/-
  Taking a trigger changes the running flag and the chain
  head events only.
-/
theorem takes_eq
    {w w' : Worker}
    {trigger : Trigger}
    (h : w.takes trigger = some w') :
    ∃ running chainHeadCh,
      w' =
        { w with running := running, chainHeadCh := chainHeadCh } := by
  cases trigger with
  | start =>
      simp only [takes, Option.some.injEq] at h
      exact ⟨true, w.chainHeadCh, h.symm⟩
  | chainHead =>
      simp only [takes, Option.ite_none_right_eq_some,
        Option.some.injEq] at h
      exact ⟨w.running, w.chainHeadCh - 1, h.2.symm⟩
  | timer =>
      simp only [takes, Option.ite_none_right_eq_some,
        Option.some.injEq] at h
      exact ⟨w.running, w.chainHeadCh, h.2.symm⟩

/- A commit changes the task being sealed only. -/
theorem submit_eq
    (config : WorkerConfig)
    (w : Worker)
    (interrupt : Option Nat) :
    w.submit config interrupt = w ∨
      ∃ block, commitNewWorkForORB config w.pool
        w.CurrentBlock interrupt =
          some block ∧ w.submit config interrupt =
            { w with sealing := some block } := by
  unfold submit
  split
  · rename_i block hWork
    split
    · exact .inr ⟨block, hWork, rfl⟩
    · exact .inl rfl
  · exact .inl rfl

/-
  A commit leaves the blocks `resultLoop` holds and has
  written.
-/
@[simp] theorem submit_blocks
    (config : WorkerConfig)
    (w : Worker)
    (interrupt : Option Nat) :
    (w.submit config interrupt).blocks = w.blocks := by
  rcases submit_eq config w interrupt
    with hSame | ⟨task, -, hSubmit⟩
  · simp [hSame]
  · simp [hSubmit]

@[simp] theorem submit_writing
    (config : WorkerConfig)
    (w : Worker)
    (interrupt : Option Nat) :
    (w.submit config interrupt).writing = w.writing := by
  rcases submit_eq config w interrupt
    with hSame | ⟨task, -, hSubmit⟩
  · simp [hSame]
  · simp [hSubmit]

@[simp] theorem submit_posting
    (config : WorkerConfig)
    (w : Worker)
    (interrupt : Option Nat) :
    (w.submit config interrupt).posting = w.posting := by
  rcases submit_eq config w interrupt
    with hSame | ⟨task, -, hSubmit⟩
  · simp [hSame]
  · simp [hSubmit]

/-
  The inversion of `step`: what each action does, with the
  guards under which it is taken.
-/
theorem step_cases
    {w w' : Worker}
    {a : WorkerAction}
    (hStep : w.step config a = some w') :
    (∃ trigger interrupt w₁, a = .commit trigger interrupt ∧
      w.takes trigger = some w₁ ∧
        w' = w₁.submit config interrupt) ∨
    (∃ block, a = .sealTask ∧ w.sealing = some block ∧
      w' =
        { w with
          sealing := none,
          resultCh := w.resultCh ++ [block] }) ∨
    (∃ block rest, a = .result ∧ w.writing = none ∧
      w.posting = none ∧
      w.resultCh = block :: rest ∧
      w' = if accepts { w with resultCh := rest } block
        then writeBlock { w with resultCh := rest } block
        else { w with resultCh := rest }) ∨
    (∃ block, a = .finish ∧ w.writing = some block ∧
      w' = w.finishBlock block) := by
  cases a with
  | commit trigger interrupt =>
      simp only [step, Option.map_eq_some_iff] at hStep
      obtain ⟨w₁, hTakes, rfl⟩ := hStep
      exact .inl ⟨trigger, interrupt, w₁, rfl, hTakes, rfl⟩
  | sealTask =>
      simp only [step] at hStep
      split at hStep
      · rename_i block hSealing
        cases hStep
        exact .inr (.inl ⟨block, rfl, hSealing, rfl⟩)
      · cases hStep
  | result =>
      simp only [step] at hStep
      split at hStep
      · rename_i block rest hWriting hPosting hResult
        refine .inr (.inr (.inl ⟨block, rest, rfl,
          hWriting, hPosting,
          hResult, ?_⟩))
        split at hStep <;> simp_all
      · cases hStep
  | finish =>
      simp only [step] at hStep
      split at hStep
      · rename_i block hWriting
        cases hStep
        exact .inr (.inr (.inr ⟨block, rfl, hWriting, rfl⟩))
      · cases hStep

end Worker

end Miner

end PlasmaEvm

------------------------------------------------------------
-- Blocks Held by the Worker
------------------------------------------------------------

namespace PlasmaEvm

namespace Miner

open PlasmaEvm.Types PlasmaEvm.Core

namespace Worker

variable {config : WorkerConfig}

/-
  Every block the worker holds: the task being sealed, the
  sealed blocks, the block written or being posted, and the
  blocks written.
-/
def heldBlocks (w : Worker) : List Block :=
  w.sealing.toList ++ w.resultCh ++ w.writing.toList ++
    w.posting.toList ++ w.blocks

/-
  A step moves blocks between the goroutines; the only new
  block is a commit's, and it holds requests of the pool.
-/
theorem heldBlocks_step
    {w w' : Worker}
    {a : WorkerAction}
    (hStep : w.step config a = some w')
    {block : Block}
    (hHeld : block ∈ w'.heldBlocks) :
    block ∈ w.heldBlocks ∨
      block.Transactions.Sublist (PendingRequests w.pool) := by
  rcases step_cases hStep with
    ⟨trigger, interrupt, w₁, -, hTakes, rfl⟩ |
    ⟨sealed, -, hSealing, rfl⟩ |
    ⟨result, rest, -, -, -, hResult, rfl⟩ |
    ⟨written, -, hWriting, rfl⟩
  · obtain ⟨running, chainHeadCh, rfl⟩ := takes_eq hTakes
    rcases submit_eq config
        { w with running := running, chainHeadCh := chainHeadCh }
        interrupt with hSame | ⟨task, hWork, hSubmit⟩
    · rw [hSame] at hHeld
      exact .inl (by simpa [heldBlocks] using hHeld)
    · rw [hSubmit] at hHeld
      simp only [heldBlocks, Option.toList_some,
        List.cons_append,
        List.mem_cons, List.mem_append] at hHeld
      rcases hHeld with rfl | hOld
      · exact .inr (commitNewWorkForORB_eq_some config hWork).2
      · left
        simp only [heldBlocks, List.mem_append,
          Option.mem_toList,
          List.not_mem_nil, false_or] at hOld ⊢
        tauto
  · left
    simp only [heldBlocks, hSealing, Option.toList_some,
      Option.toList_none, List.nil_append, List.mem_append,
      List.mem_cons] at hHeld ⊢
    grind
  · left
    simp only [heldBlocks, hResult,
      List.mem_append, List.mem_cons]
    split at hHeld <;>
      simp only [heldBlocks, writeBlock, List.mem_append,
        Option.mem_toList,
          List.mem_singleton] at hHeld <;> grind
  · left
    simp only [heldBlocks, finishBlock, hWriting,
      Option.toList_some,
      Option.toList_none, List.mem_append,
        List.mem_singleton,
      List.not_mem_nil] at hHeld ⊢
    grind

/- A step leaves the pool's requests or clears them. -/
theorem pendingRtx_step
    {w w' : Worker}
    {a : WorkerAction}
    (hStep : w.step config a = some w') :
    w'.pool.pendingRtx = w.pool.pendingRtx ∨
      w'.pool.pendingRtx = [] := by
  rcases step_cases hStep with
    ⟨trigger, interrupt, w₁, -, hTakes, rfl⟩ |
    ⟨sealed, -, -, rfl⟩ |
    ⟨result, rest, -, -, -, -, rfl⟩ |
    ⟨written, -, -, rfl⟩
  · left
    rcases submit_eq config w₁ interrupt with
      hSame | ⟨task, -, hSubmit⟩
    · rw [hSame, takes_pool hTakes]
    · rw [hSubmit, takes_pool hTakes]
  · exact .inl rfl
  · left
    split <;> rfl
  · exact .inr rfl

end Worker

end Miner

end PlasmaEvm

------------------------------------------------------------
-- The Written Chain
------------------------------------------------------------

namespace PlasmaEvm

namespace Miner

open PlasmaEvm.Types PlasmaEvm.Core

namespace Worker

variable {config : WorkerConfig}

/-
  The chain the worker writes from the head `base`: the
  blocks written are the next numbers in turn, the head is
  the last of them, every block written or being posted is
  one of them and has transactions, `resultLoop` holds one
  of them at a time, and every task or sealed block is at
  most one above the head.
-/
structure Chain (base : Nat) (w : Worker) : Prop where
  numbers : w.blocks.map Block.Number =
    List.range' (base + 1) w.blocks.length
  head : w.CurrentBlock = base + w.blocks.length
  nonempty : ∀ block ∈ w.blocks, block.Transactions ≠ []
  writing : ∀ block ∈ w.writing, block ∈ w.blocks
  posting : ∀ block ∈ w.posting, block ∈ w.blocks
  exclusive : w.writing = none ∨ w.posting = none
  sealing : ∀ block ∈ w.sealing,
    block.Number ≤ w.CurrentBlock + 1
  resultCh : ∀ block ∈ w.resultCh,
    block.Number ≤ w.CurrentBlock + 1

theorem Chain.init
    (pool : TxPool)
    (base EpochLength : Nat) :
    Chain base (init pool base EpochLength) where
  numbers := rfl
  head := rfl
  nonempty := by simp [Worker.init]
  writing := by simp [Worker.init]
  posting := by simp [Worker.init]
  exclusive := .inl rfl
  sealing := by simp [Worker.init]
  resultCh := by simp [Worker.init]

/- The chain does not read the pool. -/
theorem Chain.setPool
    {base : Nat}
    {w : Worker}
    (hChain : Chain base w)
    (pool : TxPool) :
    Chain base { w with pool := pool } :=
  ⟨hChain.numbers, hChain.head, hChain.nonempty,
    hChain.writing,
    hChain.posting, hChain.exclusive, hChain.sealing,
      hChain.resultCh⟩

/- A delivered event frees `resultLoop`. -/
theorem Chain.clearPosting
    {base : Nat}
    {w : Worker}
    (hChain : Chain base w) :
    Chain base { w with posting := none } :=
  ⟨hChain.numbers, hChain.head, hChain.nonempty,
    hChain.writing,
    by simp, .inr rfl, hChain.sealing, hChain.resultCh⟩

/-
  The chain reads the blocks, the head, the task and what
  `resultLoop` holds, and nothing else of the worker.
-/
theorem Chain.of_fields
    {base : Nat}
    {w w' : Worker}
    (hChain : Chain base w)
    (hBlocks : w'.blocks = w.blocks)
    (hHead : w'.CurrentBlock = w.CurrentBlock)
    (hSealing : w'.sealing = w.sealing)
    (hResultCh : w'.resultCh = w.resultCh)
    (hWriting : w'.writing = w.writing)
    (hPosting : w'.posting = w.posting) :
    Chain base w' := by
  constructor
  · rw [hBlocks]
    exact hChain.numbers
  · rw [hHead, hBlocks]
    exact hChain.head
  · rw [hBlocks]
    exact hChain.nonempty
  · rw [hWriting, hBlocks]
    exact hChain.writing
  · rw [hPosting, hBlocks]
    exact hChain.posting
  · rw [hWriting, hPosting]
    exact hChain.exclusive
  · rw [hSealing, hHead]
    exact hChain.sealing
  · rw [hResultCh, hHead]
    exact hChain.resultCh

/- A task for the next block keeps the chain. -/
theorem Chain.setSealing
    {base : Nat}
    {w : Worker}
    {block : Block}
    (hChain : Chain base w)
    (hNumber : block.Number = w.CurrentBlock + 1) :
    Chain base { w with sealing := some block } := by
  refine ⟨hChain.numbers, hChain.head, hChain.nonempty,
    hChain.writing,
    hChain.posting, hChain.exclusive, ?_, hChain.resultCh⟩
  intro b hb
  cases hb
  exact hNumber.le

/- A commit on the head puts its task one above it. -/
theorem Chain.commit
    {base : Nat}
    {w w₁ : Worker}
    {trigger : Trigger}
    (interrupt : Option Nat)
    (hChain : Chain base w)
    (hTakes : w.takes trigger = some w₁) :
    Chain base (w₁.submit config interrupt) := by
  obtain ⟨running, chainHeadCh, rfl⟩ := takes_eq hTakes
  rcases submit_eq config
      { w with running := running, chainHeadCh := chainHeadCh }
      interrupt with hSame | ⟨task, hWork, hSubmit⟩
  · rw [hSame]
    exact ⟨hChain.numbers, hChain.head, hChain.nonempty,
      hChain.writing,
      hChain.posting, hChain.exclusive, hChain.sealing,
        hChain.resultCh⟩
  · rw [hSubmit]
    have hNumber :=
      (commitNewWorkForORB_eq_some config hWork).1
    refine ⟨hChain.numbers, hChain.head, hChain.nonempty,
      hChain.writing,
      hChain.posting, hChain.exclusive, ?_, hChain.resultCh⟩
    intro block hBlock
    cases hBlock
    exact hNumber.le

/-
  A result above the head is exactly the next block: tasks
  are at most one above the head, and the check drops those
  at or below it.
-/
theorem Chain.result
    {base : Nat}
    {w : Worker}
    {block : Block}
    {rest : List Block}
    (hChain : Chain base w)
    (hPosting : w.posting = none)
    (hResult : w.resultCh = block :: rest) :
    Chain base
      (if accepts { w with resultCh := rest } block
        then writeBlock { w with resultCh := rest } block
        else { w with resultCh := rest }) := by
  have hBelow : block.Number ≤ w.CurrentBlock + 1 :=
    hChain.resultCh block (by simp [hResult])
  have hRest : ∀ b ∈ rest, b.Number ≤ w.CurrentBlock + 1 :=
    fun b hb => hChain.resultCh b (by simp [hResult, hb])
  split
  · rename_i hAccepts
    simp only [accepts, Bool.and_eq_true, decide_eq_true_eq,
      Bool.not_eq_true',
        List.isEmpty_eq_false_iff] at hAccepts
    have hNext : block.Number =
      w.CurrentBlock + 1 := by omega
    refine ⟨?_, ?_, ?_, ?_, ?_, .inr hPosting, ?_, ?_⟩
    · simp [writeBlock, hChain.numbers, hNext, hChain.head,
        List.range'_concat]
      omega
    · simp [writeBlock, hNext, hChain.head]
      omega
    · intro b hb
      simp only [writeBlock, List.mem_append,
        List.mem_singleton] at hb
      rcases hb with hOld | rfl
      · exact hChain.nonempty b hOld
      · exact hAccepts.2
    · simp [writeBlock]
    · intro b hb
      simp [writeBlock, hChain.posting b hb]
    · intro b hb
      have := hChain.sealing b hb
      simp only [writeBlock]
      omega
    · intro b hb
      have := hRest b hb
      simp only [writeBlock]
      omega
  · exact ⟨hChain.numbers, hChain.head, hChain.nonempty,
      hChain.writing,
      hChain.posting, hChain.exclusive,
        hChain.sealing, hRest⟩

/- Every step keeps the chain. -/
theorem Chain.step
    {base : Nat}
    {w w' : Worker}
    {a : WorkerAction}
    (hChain : Chain base w)
    (hStep : w.step config a = some w') :
    Chain base w' := by
  rcases step_cases hStep with
    ⟨trigger, interrupt, w₁, -, hTakes, rfl⟩ |
    ⟨sealed, -, hSealing, rfl⟩ |
    ⟨result, rest, -, -, hPosting, hResult, rfl⟩ |
    ⟨written, -, hWriting, rfl⟩
  · exact hChain.commit interrupt hTakes
  · refine ⟨hChain.numbers, hChain.head, hChain.nonempty,
      hChain.writing,
      hChain.posting, hChain.exclusive, by simp, ?_⟩
    intro b hb
    simp only [List.mem_append, List.mem_singleton] at hb
    rcases hb with hOld | rfl
    · exact hChain.resultCh b hOld
    · exact hChain.sealing b hSealing
  · exact hChain.result hPosting hResult
  · refine ⟨hChain.numbers, hChain.head, hChain.nonempty,
      by simp [finishBlock],
      ?_, .inl rfl, hChain.sealing, hChain.resultCh⟩
    intro b hb
    simp only [finishBlock, Option.mem_def,
      Option.some.injEq] at hb
    subst hb
    exact hChain.writing _ hWriting

/- The written chain only grows. -/
theorem blocks_prefix_step
    {w w' : Worker}
    {a : WorkerAction}
    (hStep : w.step config a = some w') :
    w.blocks <+: w'.blocks := by
  rcases step_cases hStep with
    ⟨trigger, interrupt, w₁, -, hTakes, rfl⟩ |
    ⟨sealed, -, -, rfl⟩ |
    ⟨result, rest, -, -, -, -, rfl⟩ |
    ⟨written, -, -, rfl⟩
  · obtain ⟨running, chainHeadCh, rfl⟩ := takes_eq hTakes
    exact ⟨[], by simp⟩
  · exact ⟨[], by simp⟩
  · split
    · exact List.prefix_append _ _
    · exact ⟨[], by simp⟩
  · exact ⟨[], by simp [finishBlock]⟩

/-
  The blocks `resultLoop` has written and not yet announced.
-/
def unannounced (w : Worker) : Nat :=
  w.writing.toList.length + w.posting.toList.length

/-
  No worker step announces a block: a block written is held
  by `resultLoop` until the handler takes its event.
-/
theorem blocks_length_step
    {base : Nat}
    {w w' : Worker}
    {a : WorkerAction}
    (hChain : Chain base w)
    (hStep : w.step config a = some w') :
    w'.blocks.length + w.unannounced = w.blocks.length +
      w'.unannounced := by
  rcases step_cases hStep with
    ⟨trigger, interrupt, w₁, -, hTakes, rfl⟩ |
    ⟨sealed, -, -, rfl⟩ |
    ⟨result, rest, -, hWriting, hPosting, -, rfl⟩ |
    ⟨written, -, hWriting, rfl⟩
  · obtain ⟨running, chainHeadCh, rfl⟩ := takes_eq hTakes
    simp [unannounced]
  · rfl
  · split
    · simp [writeBlock, unannounced, hWriting, hPosting]
    · rfl
  · have hPosting : w.posting = none := by
      rcases hChain.exclusive with hNone | hNone
      · simp [hNone] at hWriting
      · exact hNone
    simp [finishBlock, unannounced, hWriting, hPosting]

end Worker

end Miner

end PlasmaEvm
