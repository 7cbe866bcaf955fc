import PlasmaEvm.Pls.RequestEpoch
import PlasmaEvm.Miner.Resume
import PlasmaEvm.Control.EStateM

/-
  The lock discipline of `handleEpochPrepared`
  (`pls/rootchain_manager.go`).  The handler takes
  `rcm.lock` on entry and defers its release.  In a request
  epoch of the operator it then releases the lock by hand
  while it waits for the request blocks, and takes it again
  after the wait.

  The mutex is a flag of the handler's state, and `Unlock`
  of a free mutex is Go's fatal error.  The deferred
  `Unlock` runs when the body returns or panics.  Every
  return before the wait, and the return after it, releases
  the lock once.  A return from inside the wait runs the
  deferred `Unlock` on the free mutex: the error of
  `EnqueueReqeustTxs`, which bodies of request transactions
  never raise, and the check of the block type, which fails
  when the first mined block is not a request block.

  Key definitions include:
    * `Pls.EpochPreparedEvent`, `Pls.HandlerEnv`,
      `Pls.HandlerState`
    * `Pls.Lock`, `Pls.Unlock`, `Pls.deferUnlock`
    * `Pls.waitORBs`, `Pls.waitWindow`
    * `Pls.handleEpochPrepared`, `Pls.ReachesWait`

  Key statements include:
    * `Pls.waitORBs_keeps_mu`,
      `Pls.waitORBs_error_of_requests`
    * `Pls.handleEpochPreparedBody_cases`
    * `Pls.handleEpochPreparedBody_of_reaches`,
      `Pls.waitWindow_apply`
    * `Pls.handleEpochPrepared_of_pure`,
      `Pls.handleEpochPrepared_of_wait`
    * `Pls.handleEpochPrepared_mu_free`,
      `Pls.handleEpochPrepared_fatal_iff`
-/

------------------------------------------------------------
-- The Handler and What It Reads
------------------------------------------------------------

namespace PlasmaEvm

namespace Pls

open PlasmaEvm.Types PlasmaEvm.Core PlasmaEvm.Miner

/- `config.NodeMode`. -/
inductive NodeMode where
  | ModeOperator
  | ModeUser
  | ModeChallenger
  deriving DecidableEq, Repr

/-
  The `EpochPrepared` event as the handler reads it: the
  fields `Miner.Start` reads, `EpochIsEmpty`, and
  `Raw.Removed`.
-/
structure EpochPreparedEvent extends RootChainEpochPrepared where
  EpochIsEmpty : Bool
  Removed : Bool
  deriving DecidableEq, Repr

/-
  What the handler reads of the node besides its state: the
  mode, the epoch number of the miner's environment, the
  current fork, the first request block id of `getEpoch`,
  the root chain calls of the bodies and the pool's signer.
-/
structure HandlerEnv where
  NodeMode : NodeMode
  minerEpochNumber : Int
  currentFork : Nat
  getEpoch : Nat → Int → Except Unit Nat
  rc : RootChainView
  txEnv : TxEnv

/- The errors `handleEpochPrepared` returns. -/
inductive HandlerError where
  | removed (epochNumber : Int)
  | stale (epochNumber current : Int)
  | rootChain
  | enqueue (msg : String)
  | invalidBlockType
  deriving DecidableEq, Repr

def HandlerError.msg : HandlerError → String
  | .removed n =>
      "EpochPrepared#" ++ toString n ++
        " event is removed. root chain would had been reorganized."
  | .stale n current =>
      "Epoch#" ++ toString n ++
        " is less than current epoch#" ++ toString current ++ "."
  | .rootChain => "the error of the root chain call"
  | .enqueue msg => msg
  | .invalidBlockType => "Invalid request block type."

/-
  How the handler's goroutine ends other than by returning:
  Go's fatal error on an unlock of a free mutex, which stops
  the process; a runtime panic, which runs the deferred
  calls; and a wait, for an event or a mutex, that nothing
  ends.
-/
inductive Halt where
  | unlockOfUnlocked
  | panic (msg : String)
  | blocked
  deriving DecidableEq, Repr

/-
  The handler's state: whether `rcm.lock` is held, the pool,
  and the `NewMinedBlockEvent`s its subscription will
  deliver, in order.
-/
structure HandlerState where
  mu : Bool
  pool : TxPool
  events : List Block

abbrev HandlerM := EStateM Halt HandlerState

/-
  `rcm.lock.Lock()`: a held mutex is not released to the
  handler here.
-/
def Lock : HandlerM Unit := fun s =>
  if s.mu
    then .error .blocked s else .ok () { s with mu := true }

/-
  `rcm.lock.Unlock()`: "sync: unlock of unlocked mutex" on a
  free one.
-/
def Unlock : HandlerM Unit := fun s =>
  if s.mu then .ok () { s with
    mu := false } else .error .unlockOfUnlocked s

/-
  `defer rcm.lock.Unlock()` around the body: the deferred
  call runs when the body returns or panics, and a panic
  goes on after it; a fatal error or a wait runs nothing.
-/
def deferUnlock
    {α : Type}
    (body : HandlerM α) :
    HandlerM α := fun s =>
  match body s with
  | .ok a s =>
      match Unlock s with
      | .ok _ s => .ok a s
      | .error h s => .error h s
  | .error (.panic msg) s =>
      match Unlock s with
      | .ok _ s => .error (.panic msg) s
      | .error h s => .error h s
  | .error h s => .error h s

/-
  `x.Uint64()` of a big integer: the low 64 bits of its
  absolute value.
-/
def Uint64 (x : Int) : Nat :=
  x.natAbs % 2 ^ 64

/-
  `numORBs`: the epoch's blocks, `EndBlockNumber -
  StartBlockNumber + 1`.
-/
def numORBs (ev : EpochPreparedEvent) : Int :=
  ev.EndBlockNumber - ev.StartBlockNumber + 1

variable (env : HandlerEnv)

/- `rcm.txPool.EnqueueReqeustTxs(body)`. -/
def enqueue
    (body : List Transaction) :
    HandlerM (Except String Unit) := fun s =>
  let (r, pool) := EnqueueReqeustTxs env.txEnv s.pool body
  .ok r { s with pool := pool }

/-
  `<-events.Chan()`: the next mined block; with none left
  the handler waits for ever.
-/
def receive : HandlerM Block := fun s =>
  match s.events with
  | [] => .error .blocked s
  | block :: rest => .ok block { s with events := rest }

/-
  The loop `for numMinedORBs < numORBs.Uint64()`, with `k`
  turns left: enqueue the next body, wait for a mined block,
  and return an error unless it is a request block.  A body
  past the end of `bodies` is Go's index out of range.
-/
def waitORBs
    (bodies : List (List Transaction)) :
    Nat → Nat → HandlerM (Except HandlerError Unit)
  | _, 0 => pure (.ok ())
  | numMinedORBs, k + 1 =>
      match bodies[numMinedORBs]? with
      | none => throw (.panic "index out of range")
      | some body => do
          match ← enqueue env body with
          | .error msg => pure (.error (.enqueue msg))
          | .ok () =>
              let block ← receive
              if !block.IsRequest
                then pure (.error .invalidBlockType)
              else waitORBs bodies (numMinedORBs + 1) k

/-
  The wait for the request blocks: `rcm.lock.Unlock()`, the
  loop, and `rcm.lock.Lock()` when it ends without an error.
-/
def waitWindow
    (bodies : List (List Transaction))
    (n : Nat) : HandlerM (Except HandlerError Unit) := do
  Unlock
  match ← waitORBs env bodies 0 n with
  | .error err => pure (.error err)
  | .ok () =>
      Lock
      pure (.ok ())

/-
  The body of `handleEpochPrepared` after `rcm.lock.Lock()`.
  The `go rcm.miner.Start(...)` of an operator runs on a
  goroutine of its own and is left out.  `bodies` are read
  for the blocks `StartBlockNumber` to `EndBlockNumber`, and
  the loop waits `numORBs.Uint64()` times.
-/
def handleEpochPreparedBody
    (ev : EpochPreparedEvent) :
    HandlerM (Except HandlerError Unit) :=
  if ev.Removed then pure (.error (.removed ev.EpochNumber))
  else if ev.EpochNumber ≤ env.minerEpochNumber then
    pure (.error (.stale ev.EpochNumber env.minerEpochNumber))
  else if ev.EpochIsEmpty then pure (.ok ())
  else if ev.IsRequest && !ev.EpochIsEmpty then
    match env.getEpoch env.currentFork ev.EpochNumber with
    | .error () => pure (.error .rootChain)
    | .ok FirstRequestBlockId =>
        match prepareBodies env.rc FirstRequestBlockId
          (numORBs ev).toNat with
        | .error () => pure (.error .rootChain)
        | .ok bodies =>
            if env.NodeMode ≠ .ModeOperator
              then pure (.ok ())
            else waitWindow env bodies (Uint64 (numORBs ev))
  else pure (.ok ())

/- `handleEpochPrepared(ev)`. -/
def handleEpochPrepared
    (ev : EpochPreparedEvent) :
    HandlerM (Except HandlerError Unit) := do
  Lock
  deferUnlock (handleEpochPreparedBody env ev)

/-
  The handler gets to its wait with `bodies`: a request
  epoch that is new, not removed and not empty, whose bodies
  the root chain gives, on the operator's node.
-/
structure ReachesWait
    (ev : EpochPreparedEvent)
    (bodies : List (List Transaction)) : Prop where
  notRemoved : ev.Removed = false
  newer : env.minerEpochNumber < ev.EpochNumber
  notEmpty : ev.EpochIsEmpty = false
  request : ev.IsRequest = true
  prepared : ∃ FirstRequestBlockId,
    env.getEpoch env.currentFork ev.EpochNumber =
      .ok FirstRequestBlockId ∧
      prepareBodies env.rc FirstRequestBlockId
        (numORBs ev).toNat = .ok bodies
  operator : env.NodeMode = .ModeOperator

end Pls

end PlasmaEvm

------------------------------------------------------------
-- Steps on the Mutex and the Pool
------------------------------------------------------------

namespace PlasmaEvm

namespace Pls

open PlasmaEvm.Types PlasmaEvm.Core PlasmaEvm.Miner EStateM

variable {s : HandlerState}

theorem Lock_of_free (hFree : s.mu = false) :
    Lock s = .ok () { s with mu := true } := by
  simp [Lock, hFree]

theorem Unlock_of_held (hHeld : s.mu = true) :
    Unlock s = .ok () { s with mu := false } := by
  simp [Unlock, hHeld]

theorem Unlock_of_free (hFree : s.mu = false) :
    Unlock s = .error .unlockOfUnlocked s := by
  simp [Unlock, hFree]

variable (env : HandlerEnv)

theorem enqueue_keeps_mu (body : List Transaction) :
    Keeps HandlerState.mu (enqueue env body) := fun _ => rfl

theorem receive_keeps_mu :
    Keeps HandlerState.mu receive := by
  intro s
  unfold receive
  cases s.events <;> rfl

/- The loop neither takes nor releases the mutex. -/
theorem waitORBs_keeps_mu
    (bodies : List (List Transaction)) :
    ∀ i k, Keeps HandlerState.mu (waitORBs env bodies i k)
  | _, 0 => Keeps.pure _ _
  | i, k + 1 => by
      unfold waitORBs
      cases bodies[i]? with
      | none => exact Keeps.throw _ _
      | some body =>
          refine (enqueue_keeps_mu env body).bind fun r => ?_
          cases r with
          | error msg => exact Keeps.pure _ _
          | ok _ =>
              refine (receive_keeps_mu).bind fun block => ?_
              split
              · exact Keeps.pure _ _
              · exact waitORBs_keeps_mu bodies (i + 1) k

/-
  The loop halts by a wait or a panic, never by the fatal
  error of the mutex.
-/
theorem waitORBs_not_fatal
    (bodies : List (List Transaction)) :
    ∀ i k s s', waitORBs env bodies i k s ≠
      .error .unlockOfUnlocked s'
  | _, 0, _, _ => nofun
  | i, k + 1, s, s' => by
      unfold waitORBs
      cases bodies[i]? with
      | none => exact nofun
      | some body =>
          intro hRun
          rcases (bind_eq_error.mp hRun)
            with hEnqueue | ⟨r, s₁, -, hRest⟩
          · exact nomatch hEnqueue
          · cases r with
            | error msg => exact nomatch hRest
            | ok _ =>
                rcases (bind_eq_error.mp hRest)
                  with hReceive | ⟨block, s₂, -, hNext⟩
                · unfold receive at hReceive
                  split at hReceive <;> cases hReceive
                · split at hNext
                  · exact nomatch hNext
                  · exact waitORBs_not_fatal bodies (i +
                      1) k s₂ s' hNext

/-
  With bodies of request transactions, `EnqueueReqeustTxs`
  never fails, and the loop's only error is the type of a
  block.
-/
theorem waitORBs_error_of_requests
    {bodies : List (List Transaction)}
    (hBodies : RequestBodies bodies) :
    ∀ i k s err s', waitORBs env bodies i k s =
      .ok (.error err) s' → err = .invalidBlockType
  | _, 0, _, _, _ => by
      intro hRun
      cases hRun
  | i, k + 1, s, err, s' => by
      unfold waitORBs
      cases hBody : bodies[i]? with
      | none => exact nofun
      | some body =>
          intro hRun
          have hEnqueue : enqueue env body s =
              .ok (.ok ()) { s with
                pool :=
                  { s.pool with
                    pendingRtx :=
                      s.pool.pendingRtx ++ body } } := by
            simp only [enqueue]
            rw [EnqueueReqeustTxs_of_requests
              env.txEnv s.pool body
              (hBodies body (List.mem_of_getElem? hBody))]
          dsimp only at hRun
          rw [bind_of_ok hEnqueue] at hRun
          rcases (bind_eq_ok.mp hRun)
            with ⟨block, s₂, -, hNext⟩
          split at hNext
          · cases hNext
            rfl
          · exact waitORBs_error_of_requests hBodies (i +
              1) k s₂ err s' hNext

/-
  A loop whose next mined block is not a request block
  returns the error of the block type after enqueueing one
  body.
-/
theorem waitORBs_of_not_request
    {bodies : List (List Transaction)}
    {i : Nat}
    {body : List Transaction}
    (hBody : bodies[i]? = some body)
    (hRequests : ∀ tx ∈ body, tx.v = 0 ∧
      tx.r = 0 ∧ tx.s = 0)
    {block : Block}
    {rest : List Block}
    (hEvents : s.events = block :: rest)
    (hNotRequest : block.IsRequest = false)
    (k : Nat) :
    waitORBs env bodies i (k + 1) s =
      .ok (.error .invalidBlockType)
        { s with
          pool :=
            { s.pool with
              pendingRtx := s.pool.pendingRtx ++ body }
          events := rest } := by
  have hEnqueue : enqueue env body s =
      .ok (.ok ()) { s with
        pool :=
          { s.pool with
            pendingRtx :=
              s.pool.pendingRtx ++ body } } := by
    simp only [enqueue]
    rw [EnqueueReqeustTxs_of_requests env.txEnv s.pool
      body hRequests]
  have hReceive : receive { s with
    pool :=
      { s.pool with pendingRtx := s.pool.pendingRtx ++ body } } =
      .ok block { s with
        pool := { s.pool with
          pendingRtx := s.pool.pendingRtx ++ body }
        events := rest } := by
    simp only [receive, hEvents]
  unfold waitORBs
  rw [hBody]
  dsimp only
  rw [bind_of_ok hEnqueue]
  dsimp only
  rw [bind_of_ok hReceive]
  simp [hNotRequest]

end Pls

end PlasmaEvm

------------------------------------------------------------
-- What Each Exit Leaves
------------------------------------------------------------

namespace PlasmaEvm

namespace Pls

open PlasmaEvm.Types PlasmaEvm.Core PlasmaEvm.Miner EStateM

variable (env : HandlerEnv)

/-
  The body returns at once without a step on the mutex, or
  gets to the wait.
-/
theorem handleEpochPreparedBody_cases
    (ev : EpochPreparedEvent) :
    (∃ r, handleEpochPreparedBody env ev = pure r) ∨
      ∃ bodies, ReachesWait env ev bodies ∧
        handleEpochPreparedBody env ev =
          waitWindow env bodies (Uint64 (numORBs ev)) := by
  unfold handleEpochPreparedBody
  by_cases hRemoved : ev.Removed = true
  · exact .inl ⟨_, if_pos hRemoved⟩
  rw [if_neg hRemoved]
  by_cases hStale : ev.EpochNumber ≤ env.minerEpochNumber
  · exact .inl ⟨_, if_pos hStale⟩
  rw [if_neg hStale]
  by_cases hEmpty : ev.EpochIsEmpty = true
  · exact .inl ⟨_, if_pos hEmpty⟩
  rw [if_neg hEmpty]
  by_cases hRequest : (ev.IsRequest && !ev.EpochIsEmpty) = true
  · rw [if_pos hRequest]
    have hIsRequest : ev.IsRequest = true := by
      simp only [Bool.and_eq_true] at hRequest
      exact hRequest.1
    cases hEpoch : env.getEpoch env.currentFork
      ev.EpochNumber with
    | error e => exact .inl ⟨_, rfl⟩
    | ok first =>
        dsimp only
        cases hBodies : prepareBodies env.rc
          first (numORBs ev).toNat with
        | error e => exact .inl ⟨_, rfl⟩
        | ok bodies =>
            dsimp only
            by_cases hMode : env.NodeMode = .ModeOperator
            · refine .inr ⟨bodies, ?_,
                if_neg (not_not_intro hMode)⟩
              exact ⟨by simpa using hRemoved, by omega,
                by simpa using hEmpty, hIsRequest,
                ⟨first, hEpoch, hBodies⟩, hMode⟩
            · exact .inl ⟨_, if_pos hMode⟩
  · exact .inl ⟨_, if_neg hRequest⟩

/-
  A handler that gets to its wait with `bodies` runs the
  wait.
-/
theorem handleEpochPreparedBody_of_reaches
    {ev : EpochPreparedEvent}
    {bodies : List (List Transaction)}
    (hReach : ReachesWait env ev bodies) :
    handleEpochPreparedBody env ev =
      waitWindow env bodies (Uint64 (numORBs ev)) := by
  rcases hReach with ⟨hRemoved, hNewer, hEmpty, hRequest,
    ⟨first, hEpoch, hBodies⟩, hMode⟩
  unfold handleEpochPreparedBody
  rw [if_neg (by simp [hRemoved]),
    if_neg (not_le.mpr hNewer), if_neg (by simp [hEmpty]),
    if_pos (by simp [hRequest, hEmpty])]
  simp only [hEpoch, hBodies]
  exact if_neg (not_not_intro hMode)

/-
  The wait from a held mutex: the loop runs on the free
  mutex; an error it returns is returned with the mutex
  still free, and an end without one takes the mutex again.
-/
theorem waitWindow_apply
    (bodies : List (List Transaction))
    (n : Nat)
    {s : HandlerState}
    (hHeld : s.mu = true) :
    waitWindow env bodies n s =
      match waitORBs env bodies 0 n { s with mu := false } with
      | .ok (.error err) s' => .ok (.error err) s'
      | .ok (.ok ()) s' =>
          .ok (.ok ()) { s' with mu := true }
      | .error h s' => .error h s' := by
  have hFree := waitORBs_keeps_mu env bodies 0 n { s with
    mu := false }
  unfold waitWindow
  rw [bind_of_ok (Unlock_of_held hHeld)]
  cases hLoop : waitORBs env bodies 0 n { s with
    mu := false } with
  | ok r s' =>
      rw [hLoop, Result.state_ok] at hFree
      rw [bind_of_ok hLoop]
      cases r with
      | error err => rfl
      | ok _ =>
          dsimp only
          rw [bind_of_ok (Lock_of_free hFree)]
          rfl
  | error h s' => rw [bind_of_error hLoop]

/-
  From a free mutex, an early return takes and releases it
  once.
-/
theorem handleEpochPrepared_of_pure
    (ev : EpochPreparedEvent)
    {r : Except HandlerError Unit}
    (hBody : handleEpochPreparedBody env ev = pure r)
    {s : HandlerState}
    (hFree : s.mu = false) :
    handleEpochPrepared env ev s = .ok r s := by
  unfold handleEpochPrepared
  rw [bind_of_ok (Lock_of_free hFree)]
  show deferUnlock _ _ = _
  unfold deferUnlock
  rw [hBody, pure_apply]
  dsimp only
  rw [Unlock_of_held rfl]
  cases s
  cases hFree
  rfl

/-
  From a free mutex, a handler that gets to its wait ends as
  its loop does: an error or a panic of the loop meets the
  deferred Unlock on the free mutex.
-/
theorem handleEpochPrepared_of_wait
    (ev : EpochPreparedEvent)
    {bodies : List (List Transaction)}
    (hBody : handleEpochPreparedBody env ev =
      waitWindow env bodies (Uint64 (numORBs ev)))
    {s : HandlerState}
    (hFree : s.mu = false) :
    handleEpochPrepared env ev s =
      match waitORBs env bodies 0 (Uint64 (numORBs ev)) s with
      | .ok (.ok ()) s' => .ok (.ok ()) s'
      | .ok (.error _) s' => .error .unlockOfUnlocked s'
      | .error (.panic _) s' => .error .unlockOfUnlocked s'
      | .error h s' => .error h s' := by
  have hState : ({ { s with
    mu := true } with mu :=
      false } : HandlerState) = s := by
    cases s
    cases hFree
    rfl
  have hKeeps := waitORBs_keeps_mu env bodies 0 (Uint64
    (numORBs ev)) s
  unfold handleEpochPrepared
  rw [bind_of_ok (Lock_of_free hFree)]
  show deferUnlock _ _ = _
  unfold deferUnlock
  rw [hBody, waitWindow_apply env bodies _ rfl, hState]
  cases hLoop : waitORBs env bodies 0 (Uint64 (numORBs ev)) s with
  | ok r s' =>
      rw [hLoop, Result.state_ok, hFree] at hKeeps
      cases r with
      | ok _ =>
          dsimp only
          rw [Unlock_of_held rfl]
          cases s'
          cases hKeeps
          rfl
      | error err =>
          dsimp only
          rw [Unlock_of_free hKeeps]
  | error h s' =>
      rw [hLoop, Result.state_error, hFree] at hKeeps
      cases h with
      | panic msg =>
          dsimp only
          rw [Unlock_of_free hKeeps]
      | unlockOfUnlocked => rfl
      | blocked => rfl

end Pls

end PlasmaEvm

------------------------------------------------------------
-- The Lock Discipline
------------------------------------------------------------

namespace PlasmaEvm

namespace Pls

open PlasmaEvm.Types PlasmaEvm.Core PlasmaEvm.Miner EStateM

variable (env : HandlerEnv)

/-
  `x.Uint64()` of a big integer that fits is the integer.
-/
theorem Uint64_of_lt
    {x : Int}
    (hPos : 0 ≤ x)
    (hLt : x < 2 ^ 64) :
    Uint64 x = x.toNat := by
  unfold Uint64
  omega

/-
  A run of the loop ends in one of two ways that meet the
  deferred Unlock on the free mutex: an error it returns, or
  a panic.
-/
def exitsWait :
    Result Halt HandlerState (Except HandlerError Unit) → Bool
  | .ok (.error _) _ => true
  | .error (.panic _) _ => true
  | _ => false

/-
  From a free mutex the handler leaves it free, whichever
  way it ends: it returns, waits for ever, or stops the
  process.
-/
theorem handleEpochPrepared_mu_free
    (ev : EpochPreparedEvent)
    {s : HandlerState}
    (hFree : s.mu = false) :
    (handleEpochPrepared env ev s).state.mu = false := by
  rcases handleEpochPreparedBody_cases env ev
    with ⟨r, hBody⟩ | ⟨bodies, -, hBody⟩
  · rw [handleEpochPrepared_of_pure env ev hBody hFree]
    exact hFree
  · have hKeeps := waitORBs_keeps_mu env bodies 0 (Uint64
      (numORBs ev)) s
    rw [handleEpochPrepared_of_wait env ev hBody hFree]
    rcases hLoop : waitORBs env bodies 0 (Uint64
      (numORBs ev)) s with r | h <;>
      rw [hLoop] at hKeeps <;> simp only [Result.state_ok,
        Result.state_error] at hKeeps
    · rename_i s'
      cases r <;> simpa [hFree] using hKeeps
    · rename_i s'
      cases h <;> simpa [hFree] using hKeeps

/-
  From a free mutex the handler stops on an unlock of the
  free mutex exactly when it gets to its wait and the loop
  returns an error or panics.
-/
theorem handleEpochPrepared_fatal_iff
    (ev : EpochPreparedEvent)
    {s : HandlerState}
    (hFree : s.mu = false) :
    (∃ s', handleEpochPrepared env ev s =
      .error .unlockOfUnlocked s') ↔
      ∃ bodies, ReachesWait env ev bodies ∧
        exitsWait (waitORBs env bodies 0 (Uint64
          (numORBs ev)) s) = true := by
  constructor
  · rintro ⟨s', hFatal⟩
    rcases handleEpochPreparedBody_cases env ev
      with ⟨r, hBody⟩ | ⟨bodies, hReach, hBody⟩
    · rw [handleEpochPrepared_of_pure env ev hBody
        hFree] at hFatal
      cases hFatal
    · refine ⟨bodies, hReach, ?_⟩
      rw [handleEpochPrepared_of_wait env ev hBody
        hFree] at hFatal
      have hNotFatal := waitORBs_not_fatal env bodies 0
        (Uint64 (numORBs ev)) s
      rcases hLoop : waitORBs env bodies 0 (Uint64
        (numORBs ev)) s with r | h
      · rw [hLoop] at hFatal
        cases r with
        | ok _ => cases hFatal
        | error err => rfl
      · rw [hLoop] at hFatal hNotFatal
        cases h with
        | panic msg => rfl
        | unlockOfUnlocked => exact absurd rfl (hNotFatal _)
        | blocked => cases hFatal
  · rintro ⟨bodies, hReach, hExits⟩
    rw [handleEpochPrepared_of_wait env ev
      (handleEpochPreparedBody_of_reaches env hReach) hFree]
    rcases hLoop : waitORBs env bodies 0 (Uint64
      (numORBs ev)) s with r | h
    · rw [hLoop] at hExits
      cases r with
      | ok _ => cases hExits
      | error err => exact ⟨_, rfl⟩
    · rw [hLoop] at hExits
      cases h with
      | panic msg => exact ⟨_, rfl⟩
      | unlockOfUnlocked => cases hExits
      | blocked => cases hExits

/-
  A request epoch of the operator whose first mined block
  after the handler's subscription is not a request block:
  the handler returns its error from inside the wait, and
  the deferred Unlock stops the process on the free mutex.
-/
theorem handleEpochPrepared_unlocks_free_mutex
    (ev : EpochPreparedEvent)
    {bodies : List (List Transaction)}
    (hReach : ReachesWait env ev bodies)
    (hOrbs : 0 < numORBs ev ∧ numORBs ev < 2 ^ 64)
    {s : HandlerState}
    (hFree : s.mu = false)
    {block : Block}
    {rest : List Block}
    (hEvents : s.events = block :: rest)
    (hNotRequest : block.IsRequest = false) :
    ∃ s', handleEpochPrepared env ev s =
      .error .unlockOfUnlocked s' := by
  rcases hReach.prepared with ⟨first, -, hBodies⟩
  rcases prepareBodies_requests env.rc hBodies
    with ⟨hLength, hRequests⟩
  have hTurns : Uint64 (numORBs ev) =
    ((numORBs ev).toNat - 1) + 1 := by
    rw [Uint64_of_lt hOrbs.1.le hOrbs.2]
    omega
  have hFirst : 0 < bodies.length := by
    rw [hLength]
    omega
  rcases hBody : bodies[0]? with _ | body
  · rw [List.getElem?_eq_none_iff] at hBody
    omega
  rw [handleEpochPrepared_of_wait env ev
    (handleEpochPreparedBody_of_reaches env hReach) hFree,
    hTurns, waitORBs_of_not_request env hBody
      (hRequests body (List.mem_of_getElem? hBody))
      hEvents hNotRequest]
  exact ⟨_, rfl⟩

/-
  One request block is prepared; the first block the
  subscription delivers is block 1 with a signed transfer (V
  = 27, R = S = 1) of a user, which is no request block.
-/
theorem handleEpochPrepared_unlocks_free_mutex_user_block :
    let env : HandlerEnv :=
      { NodeMode := .ModeOperator
        minerEpochNumber := 0
        currentFork := 0
        getEpoch := fun _ _ => .ok 0
        rc := racingRootChain
        txEnv := ⟨fun _ => none, fun _ => 0⟩ }
    let ev : EpochPreparedEvent :=
      { ForkNumber := 0
        EpochNumber := 1
        StartBlockNumber := 1
        EndBlockNumber := 1
        IsRequest := true
        UserActivated := false
        Rebase := false
        EpochIsEmpty := false
        Removed := false }
    let s : HandlerState :=
      { mu := false,
        pool := racingPool,
        events := [⟨1, [⟨0, 1, 21000, some ⟨2⟩, 1,
          [], 27, 1, 1⟩]⟩] }
    ∃ s', handleEpochPrepared env ev s =
      .error .unlockOfUnlocked s' := by
  intro env ev s
  exact handleEpochPrepared_unlocks_free_mutex env ev
    ⟨rfl, by decide, rfl, rfl, ⟨0, rfl, rfl⟩,
      rfl⟩ (by decide) rfl rfl rfl

end Pls

end PlasmaEvm
