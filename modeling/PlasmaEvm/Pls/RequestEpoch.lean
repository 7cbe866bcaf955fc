import PlasmaEvm.Miner.Worker
import PlasmaEvm.Control.Replay
import PlasmaEvm.Data.Forall2
import PlasmaEvm.Core.TxPoolRequests

/-
  Request epochs on the operator's node
  (`pls/rootchain_manager.go`, `handleEpochPrepared`).  The
  handler reads the bodies of the epoch's request blocks
  from the root chain, one body per request block, one
  request transaction per request, and then hands them to
  the miner one at a time:
  `EnqueueReqeustTxs(bodies[numMinedORBs])`, then a wait for
  the next `NewMinedBlockEvent`, which must carry a request
  block.

  The node is the worker of `Miner.Worker` with the handler
  beside it; `Node.step` interleaves the handler's two steps
  with the worker's goroutines in any order.  Under every
  interleaving the handler never fails and counts one
  written request block per body; mined body by body the
  blocks are the bodies.  The contents are not safe under
  every interleaving: the commit of the chain head event
  that `WriteBlockWithState` sends may still see the
  requests that `resultLoop` has not yet cleared.

  Key definitions include:
    * `requestTx`, `fetchBody`, `prepareBodies`
    * `Handler`, `Node`, `NodeAction`, `Node.step`
    * `round`, `sequentialSchedule`

  Key statements include:
    * `prepareBodies_requests`
    * `Node.Inv.step`
    * `request_epoch_safe`
    * `sequential_epoch_writes_bodies`
-/

------------------------------------------------------------
-- Request Bodies
------------------------------------------------------------

namespace PlasmaEvm

namespace Pls

open PlasmaEvm.Types PlasmaEvm.Core PlasmaEvm.Miner

/-
  The fields of a root chain request (`EROs(requestId)`) a
  body reads.
-/
structure Request where
  IsExit : Bool
  IsTransfer : Bool
  Requestor : Address
  To : Address
  Value : Nat
  TrieKey : Bytes
  TrieValue : Bytes
  deriving DecidableEq, Repr

/-
  The requests of a request block (`ORBs(requestBlockId)`).
-/
structure RequestBlock where
  RequestStart : Nat
  RequestEnd : Nat
  deriving DecidableEq, Repr

/-
  The root chain calls the bodies are read with: `ORBs` and
  `EROs` may fail; a failed `RequestableContracts` gives the
  zero address and a failed ABI packing of
  `applyRequestInChildChain` an empty input, as the handler
  ignores both errors.
-/
structure RootChainView where
  ORBs : Nat → Except Unit RequestBlock
  EROs : Nat → Except Unit Request
  RequestableContracts : Address → Address
  Pack : Bool → Nat → Address → Bytes → Bytes → Bytes

/-
  `new(big.Int).SetBytes(b)`: the big-endian number of `b`.
-/
def SetBytes (b : Bytes) : Nat :=
  b.foldl (fun acc byte => acc * 256 + byte.toNat) 0

variable (rc : RootChainView)

/-
  The request transaction of a request: a transfer to the
  requestor of the trie value, or a call of the requestable
  contract, as the unsigned transaction
  `NewTransaction(0, to, value, RequestTxGasLimit,
  RequestTxGasPrice, input)`.
-/
def requestTx
    (requestId : Nat)
    (request : Request) :
    Transaction :=
  let (recipient, amount, input) :=
    if request.IsTransfer && !request.IsExit then
      (request.Requestor, SetBytes request.TrieValue, [])
    else
      (rc.RequestableContracts request.To, request.Value,
        rc.Pack request.IsExit requestId request.Requestor
          request.TrieKey request.TrieValue)
  { nonce := 0
    gasPrice := Params.RequestTxGasPrice
    gas := Params.RequestTxGasLimit
    recipient := some recipient
    value := amount
    payload := input
    v := 0
    r := 0
    s := 0 }

/- The body of a request block: its requests in id order. -/
def fetchBody
    (orb : RequestBlock) :
    Except Unit (List Transaction) :=
  (List.range' orb.RequestStart (orb.RequestEnd + 1 -
    orb.RequestStart)).mapM
    fun requestId => do
      let request ← rc.EROs requestId
      pure (requestTx rc requestId request)

/-
  `bodies`: one body for each of the `numORBs` request
  blocks from `FirstRequestBlockId`.
-/
def prepareBodies
    (FirstRequestBlockId numORBs : Nat) :
    Except Unit (List (List Transaction)) :=
  (List.range' FirstRequestBlockId numORBs).mapM
    fun requestBlockId => do
      let orb ← rc.ORBs requestBlockId
      fetchBody rc orb

/- Every transaction of the bodies carries V = R = S = 0. -/
def RequestBodies
    (bodies : List (List Transaction)) :
    Prop :=
  ∀ body ∈ bodies, ∀ tx ∈ body, tx.v = 0 ∧
    tx.r = 0 ∧ tx.s = 0

theorem fetchBody_requests
    {orb : RequestBlock}
    {body : List Transaction}
    (hBody : fetchBody rc orb = .ok body) :
    ∀ tx ∈ body, tx.v = 0 ∧ tx.r = 0 ∧ tx.s = 0 := by
  intro tx hTx
  obtain ⟨requestId, -, hRequest⟩ :=
    (List.mapM_eq_ok_iff.mp hBody).exists_of_mem_right hTx
  simp only [Except.bind_eq_ok,
    Except.pure_eq_ok] at hRequest
  obtain ⟨request, -, rfl⟩ := hRequest
  exact ⟨rfl, rfl, rfl⟩

/-
  The handler's bodies: one per request block, of request
  transactions only.
-/
theorem prepareBodies_requests
    {FirstRequestBlockId numORBs : Nat}
    {bodies : List (List Transaction)}
    (hBodies : prepareBodies rc FirstRequestBlockId numORBs
      = .ok bodies) :
    bodies.length = numORBs ∧ RequestBodies bodies := by
  have hEach := List.mapM_eq_ok_iff.mp hBodies
  refine ⟨by simpa using hEach.length_eq.symm, ?_⟩
  intro body hBody
  obtain ⟨requestBlockId, -, hFetch⟩ :=
    hEach.exists_of_mem_right hBody
  simp only [Except.bind_eq_ok] at hFetch
  obtain ⟨orb, -, hOrb⟩ := hFetch
  exact fetchBody_requests rc hOrb

/-
  A body has one transaction for each request of its block.
-/
theorem fetchBody_length
    {orb : RequestBlock}
    {body : List Transaction}
    (hBody : fetchBody rc orb = .ok body) :
    body.length =
      orb.RequestEnd + 1 - orb.RequestStart := by
  simpa using (List.mapM_eq_ok_iff.mp hBody).length_eq.symm

/-
  Request blocks with requests give bodies with
  transactions.
-/
theorem prepareBodies_nonempty
    {FirstRequestBlockId numORBs : Nat}
    {bodies : List (List Transaction)}
    (hOrbs : ∀ requestBlockId orb,
      rc.ORBs requestBlockId = .ok orb →
      orb.RequestStart ≤ orb.RequestEnd)
    (hBodies : prepareBodies rc FirstRequestBlockId numORBs
      = .ok bodies) :
    ∀ body ∈ bodies, body ≠ [] := by
  intro body hBody
  obtain ⟨requestBlockId, -, hFetch⟩ :=
    (List.mapM_eq_ok_iff.mp hBodies).exists_of_mem_right hBody
  simp only [Except.bind_eq_ok] at hFetch
  obtain ⟨orb, hOrb, hFetched⟩ := hFetch
  have hLength := fetchBody_length rc hFetched
  have hStart := hOrbs requestBlockId orb hOrb
  apply List.ne_nil_of_length_pos
  omega

end Pls

end PlasmaEvm

------------------------------------------------------------
-- The Handler's Loop
------------------------------------------------------------

namespace PlasmaEvm

namespace Pls

open PlasmaEvm.Types PlasmaEvm.Core PlasmaEvm.Miner

/- Where the loop of `handleEpochPrepared` stands. -/
inductive HandlerPhase where
  | enqueue
  | waiting
  | done
  | failed
  deriving DecidableEq, Repr

/- The loop's counter and phase. -/
structure Handler where
  numMinedORBs : Nat
  phase : HandlerPhase
  deriving DecidableEq, Repr

/- The operator node in a request epoch. -/
structure Node where
  worker : Worker
  handler : Handler

/-
  A step of the node: one of the worker's goroutines, or the
  handler's enqueue of the next body, or the delivery of the
  event `resultLoop` posts.
-/
inductive NodeAction where
  | worker (action : WorkerAction)
  | enqueue
  | receive
  deriving DecidableEq, Repr

namespace Node

variable (config : WorkerConfig)
variable (env : TxEnv)
variable (bodies : List (List Transaction))

/-
  The top of the loop:
  `EnqueueReqeustTxs(bodies[numMinedORBs])` while blocks are
  left, an error returned as is; the handler returns when
  every block is mined.
-/
def enqueueNext (node : Node) : Node :=
  let n := node.handler.numMinedORBs
  if h : n < bodies.length then
    match EnqueueReqeustTxs env node.worker.pool bodies[n] with
    | (.ok (), pool) =>
        { worker := { node.worker with pool := pool }
          handler :=
            { node.handler with phase := .waiting } }
    | (.error _, _) =>
        { node with
          handler :=
            { node.handler with phase := .failed } }
  else { node with
    handler := { node.handler with phase := .done } }

/-
  `Post(NewMinedBlockEvent)` returns once the handler's
  subscription has the event: a waiting handler counts a
  request block and returns an error on any other block; a
  handler that has returned has unsubscribed.
-/
def deliver (node : Node) (block : Block) : Option Node :=
  let worker := { node.worker with posting := none }
  match node.handler.phase with
  | .waiting =>
      if block.IsRequest then
        some { worker := worker
               handler := ⟨node.handler.numMinedORBs
                 + 1, .enqueue⟩ }
      else
        some { worker := worker
               handler :=
                 { node.handler with phase := .failed } }
  | .done | .failed => some { node with worker := worker }
  | .enqueue => none

/- One step of the node. -/
def step (node : Node) : NodeAction → Option Node
  | .worker action =>
      (node.worker.step config action).map
        fun worker => { node with worker := worker }
  | .enqueue =>
      if node.handler.phase = .enqueue then
        some (enqueueNext env bodies node)
      else none
  | .receive =>
      match node.worker.posting with
      | some block => deliver node block
      | none => none

/-
  The node when the epoch is prepared: the worker before the
  epoch on the head `CurrentBlock`, with the epoch's length,
  and the handler at its first body.
-/
def init (pool : TxPool) (CurrentBlock : Nat) : Node where
  worker := Worker.init pool CurrentBlock bodies.length
  handler := ⟨0, .enqueue⟩

/- The transaction lists of the blocks written, in order. -/
def written (node : Node) : List (List Transaction) :=
  node.worker.blocks.map Block.Transactions

end Node

end Pls

end PlasmaEvm

------------------------------------------------------------
-- What Every Interleaving Keeps
------------------------------------------------------------

namespace PlasmaEvm

namespace Pls

open PlasmaEvm.Types PlasmaEvm.Core PlasmaEvm.Miner

/-
  `EnqueueReqeustTxs` takes a body of request transactions.
-/
theorem EnqueueReqeustTxs_of_requests
    (env : TxEnv)
    (pool : TxPool)
    (body : List Transaction)
    (hBody : ∀ tx ∈ body, tx.v = 0 ∧ tx.r = 0 ∧ tx.s = 0) :
    EnqueueReqeustTxs env pool body =
      (.ok (),
        { pool with pendingRtx := pool.pendingRtx ++ body }) := by
  have hNull : ∀ tx ∈ body, Core.senderOf env tx =
    NullAddress := by
    intro tx hTx
    obtain ⟨hV, hR, hS⟩ := hBody tx hTx
    simp [Core.senderOf, Sender_of_null_signature
      env.recoverPlain tx hV hR hS]
  have hAll : body.all (fun rtx =>
    Core.senderOf env rtx = NullAddress) = true := by
    simpa using hNull
  unfold EnqueueReqeustTxs
  rw [if_pos hAll]

namespace Node

variable {config : WorkerConfig}
variable {env : TxEnv}
variable {bodies : List (List Transaction)}

/-
  What holds in every state of a request epoch on the head
  `base`: the worker's chain; every request the pool or the
  worker holds comes from a body; the handler has not
  failed; it counts at most the epoch's blocks, and only
  blocks written; and while it is subscribed, every block
  written is either counted or still held by `resultLoop`.
-/
structure Inv
    (bodies : List (List Transaction))
    (base : Nat)
    (node : Node) : Prop where
  chain : Worker.Chain base node.worker
  pool : ∀ tx ∈ node.worker.pool.pendingRtx,
    ∃ body ∈ bodies, tx ∈ body
  held : ∀ block ∈ node.worker.heldBlocks,
    ∀ tx ∈ block.Transactions, ∃ body ∈ bodies, tx ∈ body
  notFailed : node.handler.phase ≠ .failed
  mined : node.handler.numMinedORBs ≤ bodies.length
  waiting : node.handler.phase = .waiting →
    node.handler.numMinedORBs < bodies.length
  done : node.handler.phase = .done →
    node.handler.numMinedORBs = bodies.length
  count : node.handler.phase = .enqueue ∨
    node.handler.phase = .waiting →
    node.worker.blocks.length =
      node.handler.numMinedORBs + node.worker.unannounced
  written : node.handler.numMinedORBs ≤
    node.worker.blocks.length

theorem Inv.init
    (pool : TxPool)
    (base : Nat)
    (hPool : pool.pendingRtx = []) :
    Inv bodies base (init bodies pool base) where
  chain := Worker.Chain.init pool base bodies.length
  pool := by simp [Node.init, Worker.init, hPool]
  held :=
    by simp [Node.init, Worker.init, Worker.heldBlocks]
  notFailed := by simp [Node.init]
  mined := by simp [Node.init]
  waiting := by simp [Node.init]
  done := by simp [Node.init]
  count :=
    by simp [Node.init, Worker.init, Worker.unannounced]
  written := by simp [Node.init]

/-
  A worker step: the chain is kept, new tasks hold requests
  of the pool, and no block is announced.
-/
theorem Inv.worker
    {base : Nat}
    {node : Node}
    {w' : Worker}
    {a : WorkerAction}
    (hInv : Inv bodies base node)
    (hStep : node.worker.step config a = some w') :
    Inv bodies base { node with worker := w' } := by
  have hCount := Worker.blocks_length_step hInv.chain hStep
  have hPrefix :=
    (Worker.blocks_prefix_step hStep).length_le
  refine ⟨hInv.chain.step hStep, ?_, ?_,
    hInv.notFailed, hInv.mined,
    hInv.waiting, hInv.done, ?_, ?_⟩
  · rcases Worker.pendingRtx_step hStep with hSame | hEmpty
    · rw [hSame]
      exact hInv.pool
    · simp [hEmpty]
  · intro block hBlock tx hTx
    rcases Worker.heldBlocks_step hStep hBlock
      with hOld | hSnapshot
    · exact hInv.held block hOld tx hTx
    · exact hInv.pool tx (hSnapshot.subset hTx)
  · intro hSubscribed
    have := hInv.count hSubscribed
    dsimp only at this ⊢
    omega
  · dsimp only
    have := hInv.written
    omega

/-
  The handler's enqueue: a body of request transactions
  joins the pool and the handler waits, or the loop ends
  after the last body.
-/
theorem Inv.enqueueNext
    {base : Nat}
    {node : Node}
    (hBodies : RequestBodies bodies)
    (hInv : Inv bodies base node)
    (hPhase : node.handler.phase = .enqueue) :
    Inv bodies base (enqueueNext env bodies node) := by
  unfold Node.enqueueNext
  dsimp only
  split
  · rename_i hLeft
    have hBody := List.getElem_mem hLeft
    rw [EnqueueReqeustTxs_of_requests env _ _ (hBodies _ hBody)]
    refine ⟨hInv.chain.setPool _, ?_, hInv.held,
      by simp, hInv.mined,
      fun _ => hLeft,
        by simp, fun _ => hInv.count (.inl hPhase),
      hInv.written⟩
    intro tx hTx
    rcases List.mem_append.mp hTx with hOld | hNew
    · exact hInv.pool tx hOld
    · exact ⟨_, hBody, hNew⟩
  · rename_i hLast
    refine ⟨hInv.chain, hInv.pool, hInv.held,
      by simp, hInv.mined,
      by simp, fun _ => ?_, by simp, hInv.written⟩
    have := hInv.mined
    dsimp only
    omega

/-
  A posted block is a request block: it is written, so it
  has transactions, and they come from the bodies.
-/
theorem Inv.posting_IsRequest
    {base : Nat}
    {node : Node}
    {block : Block}
    (hBodies : RequestBodies bodies)
    (hInv : Inv bodies base node)
    (hPosting : node.worker.posting = some block) :
    block.IsRequest = true := by
  have hWritten : block ∈ node.worker.blocks :=
    hInv.chain.posting block hPosting
  have hHeld : block ∈ node.worker.heldBlocks := by
    simp [Worker.heldBlocks, hPosting]
  apply Block.IsRequest_of_null_signatures block
    (hInv.chain.nonempty block hWritten)
  intro tx hTx
  obtain ⟨body, hBody, hIn⟩ := hInv.held block hHeld tx hTx
  exact hBodies body hBody tx hIn

/-
  The delivery of the posted event: a waiting handler counts
  the block, which is a request block; a returned handler
  ignores it.
-/
theorem Inv.deliver
    {base : Nat}
    {node node' : Node}
    {block : Block}
    (hBodies : RequestBodies bodies)
    (hInv : Inv bodies base node)
    (hPosting : node.worker.posting = some block)
    (hDeliver : deliver node block = some node') :
    Inv bodies base node' := by
  have hHeld : ∀ b ∈ ({ node.worker with
    posting := none } : Worker).heldBlocks,
      b ∈ node.worker.heldBlocks := by
    intro b hb
    simp only [Worker.heldBlocks, Option.toList_none,
      List.append_nil,
      List.mem_append] at hb ⊢
    tauto
  unfold Node.deliver at hDeliver
  split at hDeliver
  · rename_i hWaiting
    rw [if_pos (hInv.posting_IsRequest hBodies
      hPosting)] at hDeliver
    cases hDeliver
    have hCount := hInv.count (.inr hWaiting)
    simp only [Worker.unannounced, hPosting,
      Option.toList_some,
      List.length_singleton] at hCount
    have hLeft := hInv.waiting hWaiting
    refine ⟨hInv.chain.clearPosting, hInv.pool,
      fun b hb => hInv.held b (hHeld b hb),
        by simp, hLeft, by simp,
      by simp, fun _ => ?_, ?_⟩
    · simp only [Worker.unannounced, Option.toList_none,
        List.length_nil]
      omega
    · dsimp only
      omega
  · rename_i hDone
    cases hDeliver
    refine ⟨hInv.chain.clearPosting, hInv.pool,
      fun b hb => hInv.held b (hHeld b hb),
        hInv.notFailed, hInv.mined,
      hInv.waiting, hInv.done, ?_, hInv.written⟩
    intro hSubscribed
    simp [hDone] at hSubscribed
  · rename_i hFailed
    exact absurd hFailed hInv.notFailed
  · cases hDeliver

/- Every step of the node keeps the invariant. -/
theorem Inv.step
    {base : Nat}
    {node node' : Node}
    {a : NodeAction}
    (hBodies : RequestBodies bodies)
    (hInv : Inv bodies base node)
    (hStep : step config env bodies node a = some node') :
    Inv bodies base node' := by
  cases a with
  | worker action =>
      simp only [Node.step, Option.map_eq_some_iff] at hStep
      obtain ⟨w', hWorker, rfl⟩ := hStep
      exact hInv.worker hWorker
  | enqueue =>
      simp only [Node.step, Option.ite_none_right_eq_some,
        Option.some.injEq] at hStep
      obtain ⟨hPhase, rfl⟩ := hStep
      exact hInv.enqueueNext hBodies hPhase
  | receive =>
      simp only [Node.step] at hStep
      split at hStep
      · rename_i block hPosting
        exact hInv.deliver hBodies hPosting hStep
      · cases hStep

end Node

end Pls

end PlasmaEvm

------------------------------------------------------------
-- Safety under Any Interleaving
------------------------------------------------------------

namespace PlasmaEvm

namespace Pls

open PlasmaEvm.Types PlasmaEvm.Core PlasmaEvm.Miner

theorem Node.Inv.replay
    {config : WorkerConfig}
    {env : TxEnv}
    {bodies : List (List Transaction)}
    {base : Nat}
    {node node' : Node}
    {actions : List NodeAction}
    (hBodies : RequestBodies bodies)
    (hInv : Node.Inv bodies base node)
    (hReplay : Replay.replay (Node.step config env
      bodies) node actions =
      some node') :
    Node.Inv bodies base node' :=
  Replay.invariant (fun _ _ _ hInv hStep =>
    hInv.step hBodies hStep) hInv
    hReplay

/-
  Whatever the order of the worker's goroutines and the
  handler's steps, the handler never fails: every block
  written is a request block made of transactions of the
  bodies, the blocks written are the numbers above the head
  in turn, and a handler that has returned has seen one
  written block for each request block of the epoch.
-/
theorem request_epoch_safe
    (rc : RootChainView)
    (config : WorkerConfig)
    (env : TxEnv)
    (FirstRequestBlockId numORBs : Nat)
    (bodies : List (List Transaction))
    (pool : TxPool)
    (base : Nat)
    (actions : List NodeAction)
    (node : Node)
    (hBodies : prepareBodies rc FirstRequestBlockId
      numORBs = .ok bodies)
    (hPool : pool.pendingRtx = [])
    (hReplay : Replay.replay (Node.step config env bodies)
      (Node.init bodies pool base) actions = some node) :
    node.handler.phase ≠ .failed ∧
      node.worker.blocks.map Block.Number =
        List.range' (base + 1) node.worker.blocks.length ∧
      (∀ block ∈ node.worker.blocks,
        block.IsRequest = true ∧
        ∀ tx ∈ block.Transactions,
          ∃ body ∈ bodies, tx ∈ body) ∧
      (node.handler.phase = .done →
        numORBs ≤ node.worker.blocks.length) := by
  obtain ⟨hLength, hRequests⟩ :=
    prepareBodies_requests rc hBodies
  have hInv : Node.Inv bodies base node :=
    (Node.Inv.init pool base hPool).replay hRequests hReplay
  have hTxs : ∀ block ∈ node.worker.blocks,
    ∀ tx ∈ block.Transactions,
      ∃ body ∈ bodies, tx ∈ body := by
    intro block hBlock
    exact hInv.held block (by simp [Worker.heldBlocks, hBlock])
  refine ⟨hInv.notFailed, hInv.chain.numbers, ?_, ?_⟩
  · intro block hBlock
    refine ⟨?_, hTxs block hBlock⟩
    apply Block.IsRequest_of_null_signatures block
      (hInv.chain.nonempty block hBlock)
    intro tx hTx
    obtain ⟨body, hBody, hIn⟩ := hTxs block hBlock tx hTx
    exact hRequests body hBody tx hIn
  · intro hDone
    have := hInv.written
    rw [hInv.done hDone, hLength] at this
    exact this

end Pls

end PlasmaEvm

------------------------------------------------------------
-- The Epoch Mined Body by Body
------------------------------------------------------------

namespace PlasmaEvm

namespace Pls

open PlasmaEvm.Types PlasmaEvm.Core PlasmaEvm.Miner Replay

/-
  One request block mined with nothing in between: the
  handler enqueues the body, the timer commits it, the
  engine seals it, `resultLoop` writes the block and posts
  its event, the chain head commit finds no request left,
  and the handler takes the event.
-/
def round : List NodeAction :=
  [.enqueue,
   .worker (.commit .timer none),
   .worker .sealTask,
   .worker .result,
   .worker .finish,
   .worker (.commit .chainHead none),
   .receive]

/-
  The epoch mined body by body: the miner starts, each body
  has its round, and the loop ends.
-/
def sequentialSchedule (numORBs : Nat) : List NodeAction :=
  .worker (.commit .start none) ::
    ((List.replicate numORBs round).flatten ++ [.enqueue])

namespace Node

variable {config : WorkerConfig}
variable {env : TxEnv}
variable {bodies : List (List Transaction)}

/-
  The node between two rounds, after `k` of them: mining, no
  task, no result and no request pending, the first `k`
  bodies written, and the handler at body `k`.
-/
structure Between
    (bodies : List (List Transaction))
    (k : Nat)
    (node : Node) : Prop where
  running : node.worker.running = true
  completed : k < bodies.length →
    node.worker.env.Completed = false
  mined : node.worker.env.NumBlockMined = k
  epochLength : node.worker.env.EpochLength = bodies.length
  pool : node.worker.pool.pendingRtx = []
  chainHeadCh : node.worker.chainHeadCh = 0
  sealing : node.worker.sealing = none
  resultCh : node.worker.resultCh = []
  writing : node.worker.writing = none
  posting : node.worker.posting = none
  written : node.written = bodies.take k
  handler : node.handler = ⟨k, .enqueue⟩

/-
  The miner's start finds no request and commits nothing.
-/
theorem Between.start
    (config : WorkerConfig)
    (env : TxEnv)
    (bodies : List (List Transaction))
    (pool : TxPool)
    (base : Nat)
    (hPool : pool.pendingRtx = []) :
    ∃ node,
      Node.step config env bodies (init bodies pool base)
        (.worker (.commit .start none)) = some node ∧
      Between bodies 0 node := by
  simp [Node.step, Node.init, Worker.step,
    Worker.takes, Worker.submit,
    commitNewWorkForORB, PendingRequests,
      Worker.init, hPool]
  exact ⟨rfl, fun _ => rfl, rfl, rfl, hPool, rfl, rfl,
    rfl, rfl, rfl, rfl,
    rfl⟩

/-
  A round writes the next body as the next block: the
  request transactions all apply and take no gas from the
  pool.
-/
theorem Between.next
    {k : Nat}
    {node : Node}
    (hBodies : RequestBodies bodies)
    (hNonempty : ∀ body ∈ bodies, body ≠ [])
    (hEIP155 : ∀ number, config.IsEIP155 number = true)
    (hGas : ∀ number, Params.TxGas ≤ config.GasLimit number)
    (hApply : ∀ number gasPool,
      ∀ body ∈ bodies, ∀ tx ∈ body,
      config.ApplyTransaction number gasPool tx = some gasPool)
    (hBetween : Between bodies k node)
    (hLeft : k < bodies.length) :
    ∃ node', replay (Node.step config env bodies) node
      round = some node' ∧
      Between bodies (k + 1) node' := by
  obtain ⟨⟨running, wenv, pool, chainHeadCh, sealing,
    resultCh, writing,
    posting, CurrentBlock, blocks⟩, handler⟩ := node
  obtain ⟨hRunning, hCompleted, hMined, hLength, hPool,
    hHead, hSealing,
    hResult, hWriting, hPosting, hWritten,
      hHandler⟩ := hBetween
  dsimp only at *
  subst hRunning hHead hSealing hResult hWriting hPosting hHandler
  have hBody : bodies[k] ∈ bodies := List.getElem_mem hLeft
  have hEnqueue :=
    EnqueueReqeustTxs_of_requests env pool bodies[k]
      (hBodies _ hBody)
  have hTxs := commitRequestTransactions_eq_self config
    (CurrentBlock + 1) 0
    (config.GasLimit (CurrentBlock +
      1)) bodies[k] (hEIP155 _) (hGas _)
    (hApply _ _ _ hBody)
  have hRequest : Block.IsRequest ⟨CurrentBlock + 1,
    bodies[k]⟩ = true :=
    Block.IsRequest_of_null_signatures _ (hNonempty _ hBody)
      (hBodies _ hBody)
  simp [Pls.round, replay, Node.step, Node.enqueueNext,
    hLeft, hEnqueue,
    hPool, Worker.step, Worker.takes, hCompleted hLeft,
      PendingRequests,
    hNonempty _ hBody, Worker.submit,
      commitNewWorkForORB, hTxs,
    Worker.accepts, Worker.writeBlock, Worker.finishBlock,
    RemovePendingRequests, Node.deliver, hRequest]
  refine ⟨rfl, ?_, by simp [hMined], hLength, rfl, rfl,
    rfl, rfl, rfl, rfl,
    ?_, rfl⟩
  · intro hNext
    simp only [hMined, hLength, decide_eq_false_iff_not]
    omega
  · simp only [Node.written, List.map_append, List.map_cons,
      List.map_nil] at hWritten ⊢
    rw [hWritten, List.take_add_one,
      List.getElem?_eq_getElem hLeft]
    rfl

/- The rounds of the bodies left, one after the other. -/
theorem Between.rounds
    (hBodies : RequestBodies bodies)
    (hNonempty : ∀ body ∈ bodies, body ≠ [])
    (hEIP155 : ∀ number, config.IsEIP155 number = true)
    (hGas : ∀ number, Params.TxGas ≤ config.GasLimit number)
    (hApply : ∀ number gasPool,
      ∀ body ∈ bodies, ∀ tx ∈ body,
      config.ApplyTransaction number gasPool tx = some gasPool)
    (left : Nat) :
    ∀ k node, Between bodies k node →
      k + left = bodies.length →
      ∃ node', replay (Node.step config env bodies) node
          (List.replicate left round).flatten = some node' ∧
        Between bodies bodies.length node' := by
  induction left with
  | zero =>
      intro k node hBetween hLeft
      exact ⟨node, rfl, by simpa [← hLeft] using hBetween⟩
  | succ left ih =>
      intro k node hBetween hLeft
      obtain ⟨node₁, hRound, hNext⟩ :=
        hBetween.next hBodies hNonempty hEIP155 hGas
          hApply (by omega)
      obtain ⟨node₂, hRest, hLast⟩ :=
        ih (k + 1) node₁ hNext (by omega)
      refine ⟨node₂, ?_, hLast⟩
      rw [List.replicate_succ, List.flatten_cons,
        replay_append, hRound]
      exact hRest

/- After the last round the handler returns. -/
theorem Between.enqueue_done
    (config : WorkerConfig)
    (env : TxEnv)
    {node : Node}
    (hBetween : Between bodies bodies.length node) :
    ∃ node', Node.step config env bodies node
      .enqueue = some node' ∧
      node'.handler = ⟨bodies.length, .done⟩ ∧
        node'.written = bodies := by
  have hHandler := hBetween.handler
  refine ⟨{ node with
    handler := ⟨bodies.length, .done⟩ }, ?_, rfl, ?_⟩
  · simp [Node.step, Node.enqueueNext, hHandler]
  · simpa [Node.written] using hBetween.written

end Node

/-
  Mined body by body, with nothing interleaved, the epoch's
  request blocks are its bodies in order, and the handler
  returns having counted them all.  Each request block of
  the root chain has requests, and the request transactions
  apply with EIP-155 in force and take no gas from the pool.
-/
theorem sequential_epoch_writes_bodies
    (rc : RootChainView)
    (config : WorkerConfig)
    (env : TxEnv)
    (FirstRequestBlockId numORBs : Nat)
    (bodies : List (List Transaction))
    (pool : TxPool)
    (base : Nat)
    (hOrbs : ∀ requestBlockId orb,
      rc.ORBs requestBlockId = .ok orb →
      orb.RequestStart ≤ orb.RequestEnd)
    (hBodies : prepareBodies rc FirstRequestBlockId
      numORBs = .ok bodies)
    (hEIP155 : ∀ number, config.IsEIP155 number = true)
    (hGas : ∀ number, Params.TxGas ≤ config.GasLimit number)
    (hApply : ∀ number gasPool,
      ∀ body ∈ bodies, ∀ tx ∈ body,
      config.ApplyTransaction number gasPool tx = some gasPool)
    (hPool : pool.pendingRtx = []) :
    ∃ node, replay (Node.step config env bodies)
      (Node.init bodies pool base)
        (sequentialSchedule numORBs) = some node ∧
      node.handler = ⟨numORBs, .done⟩ ∧
        node.written = bodies := by
  obtain ⟨hLength, hRequests⟩ :=
    prepareBodies_requests rc hBodies
  have hNonempty := prepareBodies_nonempty rc hOrbs hBodies
  subst hLength
  obtain ⟨node₀, hStart, hBetween₀⟩ :=
    Node.Between.start config env bodies pool base hPool
  obtain ⟨node₁, hRounds, hBetween₁⟩ :=
    Node.Between.rounds hRequests hNonempty hEIP155 hGas hApply
      bodies.length 0 node₀ hBetween₀ (by omega)
  obtain ⟨node₂, hEnd, hHandler, hWritten⟩ :=
    hBetween₁.enqueue_done config env
  refine ⟨node₂, ?_, hHandler, hWritten⟩
  rw [sequentialSchedule, replay_cons_of_step _ _
    hStart, replay_append,
    hRounds]
  simp [replay_cons_of_step _ _ hEnd]

/-
  A root chain whose request block `i` holds the one request
  `i`, a transfer of value 1 to the address `i + 1`.
-/
def racingRootChain : RootChainView where
  ORBs := fun requestBlockId => .ok ⟨requestBlockId,
    requestBlockId⟩
  EROs := fun requestId => .ok
    { IsExit := false
      IsTransfer := true
      Requestor := ⟨requestId + 1⟩
      To := ⟨requestId + 1⟩
      Value := 0
      TrieKey := []
      TrieValue := [1] }
  RequestableContracts := fun _ => NullAddress
  Pack := fun _ _ _ _ _ => []

/-
  The request transaction of a transfer of 1 to `requestor`.
-/
def transferRequestTx (requestor : Nat) : Transaction where
  nonce := 0
  gasPrice := Params.RequestTxGasPrice
  gas := Params.RequestTxGasLimit
  recipient := some ⟨requestor⟩
  value := 1
  payload := []
  v := 0
  r := 0
  s := 0

def firstBody : List Transaction := [transferRequestTx 1]

def secondBody : List Transaction := [transferRequestTx 2]

/-
  EIP-155 in force, a gas limit of 8000000, and request
  transactions that apply without taking gas from the pool.
-/
def racingConfig : WorkerConfig where
  IsEIP155 := fun _ => true
  GasLimit := fun _ => 8000000
  ApplyTransaction := fun _ gasPool _ => some gasPool

def racingPool : TxPool :=
  NewTxPool DefaultTxPoolConfig 1 true emptyHead 8000000

/-
  An epoch of two request blocks where the chain head event
  of the first block is handled before `resultLoop` clears
  the pool's requests.  Block 1 is written with the first
  body and sends a head event; the head event's commit still
  finds the first body pending; block 2 is written with the
  first body again, and the second body is cleared unmined.
-/
def racingSchedule : List NodeAction :=
  [.worker (.commit .start none),
   .enqueue,
   .worker (.commit .timer none),
   .worker .sealTask,
   .worker .result,
   .worker (.commit .chainHead none),
   .worker .finish,
   .receive,
   .enqueue,
   .worker .sealTask,
   .worker .result,
   .worker .finish,
   .receive,
   .enqueue]

theorem chain_head_commit_repeats_body :
    prepareBodies racingRootChain 0 2 =
      .ok [firstBody, secondBody] ∧
      firstBody ≠ secondBody ∧
      (replay (Node.step racingConfig nullSignedEnv
        [firstBody, secondBody])
          (Node.init [firstBody, secondBody] racingPool 0)
          racingSchedule).map (fun node => (node.handler,
            node.written)) =
        some (⟨2, .done⟩, [firstBody, firstBody]) := by
  decide +kernel

end Pls

end PlasmaEvm
