import PlasmaEvm.Core.State.Balance
import PlasmaEvm.Core.Types.Transaction
import PlasmaEvm.Control.EStateM
import Mathlib.Tactic.Ring

/-
  The state transition of one message
  (core/state_transition.go, core/gaspool.go, core/evm.go):
  TransitionDb on the StateDB and the block's gas pool.
  When the stamina of the sender's delegatee covers the
  up-front gas cost, the delegatee pays the gas in stamina;
  otherwise the sender pays it in ether, and the null
  address, the sender of request transactions, pays nothing.
  Both ways the gas is bought from the pool first, then the
  intrinsic gas is charged and the EVM runs the message; the
  gas left, with the capped refund, is paid back and
  returned to the pool, and the coinbase gets the gas used
  at the gas price.

  A return with an error keeps what was done before it: the
  model runs in `EStateM`, whose errors carry the state.

  The EVM is a parameter: the calls of the stamina contract,
  and Call and Create with the state each leaves.  The
  static calls' touch of the stamina contract, which moves
  no balance, is left out.  The pool and the gas are Nat, so
  AddGas's panic above 2^64 is not modelled.

  Key definitions include:
    * `Message`, `VmError`, `TransitionError`, `Vm`
    * `StateTransition`, `StateTransition.TransitionDb`,
      `ApplyMessage`
    * `Transfer`, `runTransfers`, `Vm.TransfersWithin`

  Key statements include:
    * `StateTransition.execute_eq_ok`,
      `StateTransition.execute_ok_of`
    * `StateTransition.execute_of_intrinsic_fails`
    * `StateTransition.runMessage_within`,
      `StateTransition.sum_refundGas_fee`
    * `ApplyMessage_ok_of_plain`
-/

------------------------------------------------------------
-- Messages, Errors and the EVM
------------------------------------------------------------

namespace PlasmaEvm

namespace Core

open PlasmaEvm.State

/- Message: what the transition reads of a transaction. -/
structure Message where
  From : Address
  To : Option Address
  GasPrice : Nat
  Gas : Nat
  Value : Int
  Nonce : Nat
  CheckNonce : Bool
  Data : Bytes
  deriving DecidableEq, Repr

/-
  The errors of the EVM (core/vm/errors.go), and the reverts
  and faults of a run.
-/
inductive VmError where
  | ErrOutOfGas
  | ErrCodeStoreOutOfGas
  | ErrDepth
  | ErrTraceLimitReached
  | ErrInsufficientBalance
  | ErrContractAddressCollision
  | ErrNoCompatibleInterpreter
  | errExecutionReverted
  | other
  deriving DecidableEq, Repr

/-
  An error TransitionDb returns: the core package's, or an
  EVM call's.
-/
inductive TransitionError where
  | core (err : CoreError)
  | vm (err : VmError)
  deriving DecidableEq, Repr

/-
  What the transition asks of the EVM.  GetDelegatee and
  GetStamina are static calls of the stamina contract;
  AddStamina and SubtractStamina are calls that change its
  storage; Call and Create give the returned bytes, the gas
  left and the VM error.
-/
structure Vm (H : Type) where
  Coinbase : Address
  IsHomestead : Bool
  IsIstanbul : Bool
  GetDelegatee : StateDB H → Address →
    Except VmError Address
  GetStamina : StateDB H → Address → Except VmError Int
  AddStamina : StateDB H → Address → Int → StateDB H
  SubtractStamina : StateDB H → Address → Int → StateDB H
  Call : StateDB H → Address → Address → Bytes → Nat → Int →
    Bytes × Nat × Option VmError × StateDB H
  Create : StateDB H → Address → Bytes → Nat → Int →
    Bytes × Nat × Option VmError × StateDB H

/-
  StateTransition: the pool, the message, and the gas bought
  and left.
-/
structure StateTransition (H : Type) where
  gp : Nat
  msg : Message
  gas : Nat
  gasPrice : Nat
  initialGas : Nat
  value : Int
  data : Bytes
  state : StateDB H

def NewStateTransition
    {H : Type}
    (msg : Message)
    (gp : Nat)
    (state : StateDB H) : StateTransition H :=
  { gp := gp,
    msg := msg,
    gas := 0,
    gasPrice := msg.GasPrice,
    initialGas := 0,
    value := msg.Value,
    data := msg.Data,
    state := state }

abbrev TransitionM (H : Type) :=
  EStateM TransitionError (StateTransition H)

/- GasPool.SubGas: the pool must hold the amount. -/
def SubGas (gp amount : Nat) : Except CoreError Nat :=
  if gp < amount
    then .error .ErrGasLimitReached else .ok (gp - amount)

/- GasPool.AddGas. -/
def AddGas (gp amount : Nat) : Nat :=
  gp + amount

/-
  int64(x) of a uint64 x: from 2^63 on it wraps to a
  negative value.
-/
def toInt64 (x : Nat) : Int :=
  if x < 2 ^ 63 then x else x - 2 ^ 64

end Core

end PlasmaEvm

------------------------------------------------------------
-- Buying Gas
------------------------------------------------------------

namespace PlasmaEvm

namespace Core

namespace StateTransition

open PlasmaEvm.State

variable {H : Type} [DecidableEq H] [Inhabited H]
variable (vm : Vm H) (db : Database H)

/- gasUsed: the gas bought less the gas left. -/
def gasUsed (st : StateTransition H) : Nat :=
  st.initialGas - st.gas

def useGas (amount : Nat) : TransitionM H Unit := do
  let st ← get
  if st.gas < amount then throw (.core .ErrOutOfGas)
  set { st with gas := st.gas - amount }

/- st.gp.SubGas. -/
def subGas (amount : Nat) : TransitionM H Unit := do
  let st ← get
  match SubGas st.gp amount with
  | .error err => throw (.core err)
  | .ok gp => set { st with gp := gp }

/-
  The gas is bought: the message's gas is added and becomes
  the initial gas.
-/
def addBoughtGas
    (st : StateTransition H) :
    StateTransition H :=
  { st with gas := st.gas + st.msg.Gas, initialGas := st.msg.Gas }

/-
  buyGas: the null address gets its gas for nothing; any
  other sender must hold gas * gasPrice, which the pool's
  gas is bought for and which is then taken from its
  balance.
-/
def buyGas : TransitionM H Unit := do
  let st ← get
  if st.msg.From = NullAddress then
    set (addBoughtGas st)
  else
    let mgval : Int := st.msg.Gas * st.gasPrice
    if st.state.GetBalance db st.msg.From < mgval then
      throw (.core .errInsufficientBalanceForGas)
    subGas st.msg.Gas
    modify fun st =>
      { addBoughtGas st with
        state := st.state.SubBalance db st.msg.From mgval }

/-
  buyDelegateeGas: the same bought against the delegatee's
  stamina.
-/
def buyDelegateeGas
    (delegatee : Address) :
    TransitionM H Unit := do
  let st ← get
  let mgval : Int := st.msg.Gas * st.gasPrice
  match vm.GetStamina st.state delegatee with
  | .error err => throw (.vm err)
  | .ok balance =>
      if balance < mgval
        then throw (.core .errInsufficientBalanceForGas)
      subGas st.msg.Gas
      modify fun st =>
        { addBoughtGas st with
          state :=
            vm.SubtractStamina st.state delegatee mgval }

/-
  The nonce check that preCheck and preDelegateeCheck both
  make.
-/
def checkNonce : TransitionM H Unit := do
  let st ← get
  if st.msg.CheckNonce then
    let nonce := st.state.GetNonce db st.msg.From
    if nonce < st.msg.Nonce
      then throw (.core .ErrNonceTooHigh)
    else if nonce > st.msg.Nonce then throw (.core .ErrNonceTooLow)

def preCheck : TransitionM H Unit := do
  checkNonce db
  buyGas db

def preDelegateeCheck
    (delegatee : Address) :
    TransitionM H Unit := do
  checkNonce db
  buyDelegateeGas vm delegatee

end StateTransition

end Core

end PlasmaEvm

------------------------------------------------------------
-- Running the Message and Paying Back
------------------------------------------------------------

namespace PlasmaEvm

namespace Core

namespace StateTransition

open PlasmaEvm.State

variable {H : Type} [DecidableEq H] [Inhabited H]
variable (vm : Vm H) (db : Database H)

/-
  IntrinsicGas of the message, its error returned as it is.
-/
def intrinsicGas
    (contractCreation : Bool) :
    TransitionM H Nat := do
  let st ← get
  match IntrinsicGas st.data contractCreation vm.IsHomestead
    vm.IsIstanbul with
  | .error err => throw (.core err)
  | .ok gas => pure gas

/-
  The EVM runs the message: a creation, or a call once the
  sender's nonce is raised.  The gas left replaces the gas.
-/
def runMessage :
    TransitionM H (Bytes × Option VmError) := do
  let st ← get
  let sender := st.msg.From
  match st.msg.To with
  | none =>
      let (ret, gas, vmerr, state) :=
        vm.Create st.state sender st.data st.gas st.value
      set { st with gas := gas, state := state }
      pure (ret, vmerr)
  | some recipient =>
      let state := st.state.SetNonce db sender
        (st.state.GetNonce db sender + 1)
      let (ret, gas, vmerr, state) :=
        vm.Call state sender recipient st.data st.gas st.value
      set { st with gas := gas, state := state }
      pure (ret, vmerr)

/-
  refundGas and refundDelegateeGas: the refund counter,
  capped to half the gas used, is added to the gas left,
  which `credit` pays back at the gas price and which goes
  back to the pool.
-/
def refundWith
    (credit : StateTransition H → Int → StateDB H) :
    TransitionM H Unit :=
  modify fun st =>
    let refund :=
      min (gasUsed st / 2) st.state.GetRefund.toNat
    let st := { st with gas := st.gas + refund }
    { st with
      state := credit st (st.gas * st.gasPrice),
      gp := AddGas st.gp st.gas }

def refundGas : TransitionM H Unit :=
  refundWith fun st remaining =>
    st.state.AddBalance db st.msg.From remaining

def refundDelegateeGas
    (delegatee : Address) :
    TransitionM H Unit :=
  refundWith fun st remaining =>
    vm.AddStamina st.state delegatee remaining

/- The coinbase gets the gas used at the gas price. -/
def payCoinbase : TransitionM H Unit :=
  modify fun st =>
    { st with
      state := st.state.AddBalance db vm.Coinbase
        (gasUsed st * st.gasPrice) }

/-
  What both paths of TransitionDb do after `pre` has bought
  the gas: an insufficient balance for the EVM's transfer is
  the one VM error returned as an error; any other only
  marks the message failed.
-/
def execute (pre refund : TransitionM H Unit) :
    TransitionM H (Bytes × Nat × Bool) := do
  pre
  let st ← get
  let gas ← intrinsicGas vm st.msg.To.isNone
  useGas gas
  let (ret, vmerr) ← runMessage vm db
  if vmerr = some .ErrInsufficientBalance then
    throw (.core .ErrInsufficientBalance)
  refund
  payCoinbase vm db
  let st ← get
  pure (ret, gasUsed st, vmerr.isSome)

end StateTransition

end Core

end PlasmaEvm

------------------------------------------------------------
-- TransitionDb
------------------------------------------------------------

namespace PlasmaEvm

namespace Core

open PlasmaEvm.State

variable {H : Type} [DecidableEq H] [Inhabited H]
variable (vm : Vm H) (db : Database H)

/-
  GetDelegatee; its error is dropped and gives the zero
  address.
-/
def delegateeOf
    (s : StateDB H)
    (addr : Address) :
    Address :=
  match vm.GetDelegatee s addr with
  | .ok delegatee => delegatee
  | .error _ => NullAddress

/- GetStamina; its error is dropped and gives zero. -/
def availableStamina
    (s : StateDB H)
    (delegatee : Address) :
    Int :=
  match vm.GetStamina s delegatee with
  | .ok stamina => stamina
  | .error _ => 0

/- msg.GasPrice() * int64(msg.Gas()). -/
def upfrontGasCost (msg : Message) : Int :=
  msg.GasPrice * toInt64 msg.Gas

namespace StateTransition

/-
  TransitionDb: the delegatee pays when its stamina covers
  the up-front gas cost; otherwise the sender pays, and the
  null address gets no refund.
-/
def TransitionDb : TransitionM H (Bytes × Nat × Bool) := do
  let st ← get
  let delegatee := delegateeOf vm st.state st.msg.From
  if upfrontGasCost st.msg ≤ availableStamina vm
    st.state delegatee then
    execute vm db (preDelegateeCheck vm db delegatee)
      (refundDelegateeGas vm delegatee)
  else
    execute vm db (preCheck db)
      (if st.msg.From ≠ NullAddress
        then refundGas db else pure ())

end StateTransition

/- ApplyMessage: TransitionDb of a new transition. -/
def ApplyMessage
    (msg : Message)
    (gp : Nat)
    (state : StateDB H) :
    EStateM.Result TransitionError (StateTransition H)
      (Bytes × Nat × Bool) :=
  StateTransition.TransitionDb vm db
    (NewStateTransition msg gp state)

end Core

end PlasmaEvm

------------------------------------------------------------
-- Transfers
------------------------------------------------------------

namespace PlasmaEvm

namespace Core

open PlasmaEvm.State

variable {H : Type} [DecidableEq H] [Inhabited H]
variable (db : Database H)

/-
  Transfer (core/evm.go): the null address is debited
  nothing.
-/
def Transfer
    (s : StateDB H)
    (sender recipient : Address)
    (amount : Int) : StateDB H :=
  let s := if sender ≠ NullAddress
    then s.SubBalance db sender amount else s
  s.AddBalance db recipient amount

/-
  A run of transfers: sender, recipient and amount of each.
-/
def runTransfers
    (s : StateDB H)
    (ts : List (Address × Address × Int)) :
    StateDB H :=
  ts.foldl (fun s t => Transfer db s t.1 t.2.1 t.2.2) s

/- Transfers between non-null accounts of `S`. -/
def MovesWithin
    (S : Finset Address)
    (ts : List (Address × Address × Int)) :
    Prop :=
  ∀ t ∈ ts, t.1 ∈ S ∧ t.2.1 ∈ S ∧ t.1 ≠ NullAddress ∧
    t.2.1 ≠ NullAddress

/-
  An EVM whose Call and Create move ether only by transfers
  between non-null accounts of `S`, and give back at most
  the gas they were given.
-/
def Vm.TransfersWithin
    (vm : Vm H)
    (S : Finset Address) :
    Prop :=
  (∀ s caller recipient input gas value, ∃ ts,
    MovesWithin S ts ∧
    (vm.Call s caller recipient input gas value).2.2.2 =
      runTransfers db s ts ∧
    (vm.Call s caller recipient input gas value).2.1 ≤ gas) ∧
  (∀ s caller code gas value, ∃ ts, MovesWithin S ts ∧
    (vm.Create s caller code gas value).2.2.2 =
      runTransfers db s ts ∧
    (vm.Create s caller code gas value).2.1 ≤ gas)

variable {db}

theorem Transfer_wellFormed
    {s : StateDB H}
    (hWF : s.WellFormed)
    (sender recipient : Address)
    (amount : Int) :
    (Transfer db s sender recipient amount).WellFormed := by
  unfold Transfer
  split
  · exact (hWF.SubBalance sender amount).AddBalance
      recipient amount
  · exact hWF.AddBalance recipient amount

/-
  A transfer between non-null accounts of `S` keeps the sum
  of their balances.
-/
theorem sum_GetBalance_Transfer
    {s : StateDB H}
    (hWF : s.WellFormed)
    (S : Finset Address)
    {sender recipient : Address}
    (hSender : sender ∈ S)
    (hRecipient : recipient ∈ S)
    (hNotNull : sender ≠ NullAddress)
    (amount : Int) :
    ∑ a ∈ S, (Transfer db s sender recipient
      amount).GetBalance db a =
      ∑ a ∈ S, s.GetBalance db a := by
  unfold Transfer
  rw [if_pos hNotNull, StateDB.sum_GetBalance_AddBalance
    (hWF.SubBalance sender amount) S
    hRecipient,
      StateDB.sum_GetBalance_SubBalance hWF S hSender]
  omega

/-
  A run of such transfers keeps the sum, and the invariant.
-/
theorem sum_GetBalance_runTransfers
    (S : Finset Address)
    {ts : List (Address × Address × Int)}
    (hMoves : MovesWithin S ts) :
    ∀ {s : StateDB H}, s.WellFormed →
      (runTransfers db s ts).WellFormed ∧
        ∑ a ∈ S, (runTransfers db s ts).GetBalance db a =
          ∑ a ∈ S, s.GetBalance db a := by
  induction ts with
  | nil =>
      intro s hWF
      exact ⟨hWF, rfl⟩
  | cons t ts ih =>
      intro s hWF
      rcases hMoves t List.mem_cons_self
        with ⟨hSender, hRecipient, hNotNull, -⟩
      have hRest : MovesWithin S ts := fun t' hMem =>
        hMoves t' (List.mem_cons_of_mem t hMem)
      rcases ih hRest (Transfer_wellFormed hWF t.1 t.2.1
        t.2.2) with ⟨hWF', hSum⟩
      refine ⟨hWF', ?_⟩
      rw [runTransfers, List.foldl_cons] at *
      rw [hSum, sum_GetBalance_Transfer hWF S hSender
        hRecipient hNotNull]

end Core

end PlasmaEvm

------------------------------------------------------------
-- What Each Step Does
------------------------------------------------------------

namespace PlasmaEvm

namespace Core

namespace StateTransition

open PlasmaEvm.State

variable {H : Type} [DecidableEq H] [Inhabited H]
variable {vm : Vm H} {db : Database H}

/-
  A nonce as the message expects it passes the check, which
  reads only.
-/
theorem checkNonce_of_valid
    {st : StateTransition H}
    (hNonce : st.msg.CheckNonce = true →
      st.state.GetNonce db st.msg.From = st.msg.Nonce) :
    checkNonce db st = .ok () st := by
  unfold checkNonce
  cases hCheck : st.msg.CheckNonce
  · simp [hCheck]
  · simp [hCheck, hNonce hCheck]

/-
  The nonce check either passes, reading only, or fails
  where it started.
-/
theorem checkNonce_cases
    (st : StateTransition H) :
    checkNonce db st = .ok () st ∨ ∃ err,
      checkNonce db st = .error err st := by
  unfold checkNonce
  by_cases hCheck : st.msg.CheckNonce = true
  · by_cases hHigh : st.state.GetNonce db
      st.msg.From < st.msg.Nonce
    · simp [hCheck, hHigh]
    · by_cases hLow : st.state.GetNonce db
        st.msg.From > st.msg.Nonce
      · simp [hCheck, hHigh, hLow]
      · simp [hCheck, hHigh, hLow]
  · simp [hCheck]

omit [DecidableEq H] [Inhabited H] in
theorem useGas_of_le
    {st : StateTransition H}
    {amount : Nat}
    (hEnough : amount ≤ st.gas) :
    useGas amount st = .ok ()
      { st with gas := st.gas - amount } := by
  have hNot : ¬ st.gas < amount := by omega
  simp [useGas, hNot]

omit [DecidableEq H] [Inhabited H] in
theorem useGas_of_lt
    {st : StateTransition H}
    {amount : Nat}
    (hShort : st.gas < amount) :
    useGas amount st = .error (.core .ErrOutOfGas) st := by
  simp [useGas, hShort]

omit [DecidableEq H] [Inhabited H] in
theorem subGas_of_le
    {st : StateTransition H}
    {amount : Nat}
    (hEnough : amount ≤ st.gp) :
    subGas amount st = .ok ()
      { st with gp := st.gp - amount } := by
  have hNot : ¬ st.gp < amount := by omega
  simp [subGas, SubGas, hNot]

/-
  A sender other than the null address that holds the gas's
  price, from a pool that holds the gas, buys it: the pool
  gives the gas and the balance pays for it.
-/
theorem buyGas_of_funds
    {st : StateTransition H}
    (hSender : st.msg.From ≠ NullAddress)
    (hFunds : (st.msg.Gas * st.gasPrice : Int) ≤
      st.state.GetBalance db st.msg.From)
    (hPool : st.msg.Gas ≤ st.gp) :
    buyGas db st = .ok ()
      { addBoughtGas st with
        gp := st.gp - st.msg.Gas
        state := st.state.SubBalance db st.msg.From
          (st.msg.Gas * st.gasPrice) } := by
  have hNotShort : ¬ st.state.GetBalance db st.msg.From <
    st.msg.Gas * st.gasPrice := by omega
  unfold buyGas
  simp only [EStateM.get_bind, hSender, if_false, hNotShort]
  rw [EStateM.bind_of_ok (subGas_of_le hPool)]
  rfl

/-
  IntrinsicGas's error is returned where the transition
  stands.
-/
omit [DecidableEq H] [Inhabited H] in
theorem intrinsicGas_of_error
    {st : StateTransition H}
    {contractCreation : Bool}
    {err : CoreError}
    (hErr : IntrinsicGas st.data contractCreation
      vm.IsHomestead vm.IsIstanbul = .error err) :
    intrinsicGas vm contractCreation st =
      .error (.core err) st := by
  simp [intrinsicGas, hErr]

omit [DecidableEq H] [Inhabited H] in
theorem intrinsicGas_of_ok
    {st : StateTransition H}
    {contractCreation : Bool}
    {gas : Nat}
    (hOk : IntrinsicGas st.data contractCreation
      vm.IsHomestead vm.IsIstanbul = .ok gas) :
    intrinsicGas vm contractCreation st = .ok gas st := by
  simp [intrinsicGas, hOk]

end StateTransition

end Core

end PlasmaEvm

------------------------------------------------------------
-- Inverting a Successful Run
------------------------------------------------------------

namespace PlasmaEvm

namespace Core

namespace StateTransition

open PlasmaEvm.State

variable {H : Type} [DecidableEq H] [Inhabited H]
variable {vm : Vm H} {db : Database H}

theorem checkNonce_eq_ok
    {st st' : StateTransition H}
    (h : checkNonce db st = .ok () st') :
    st' = st := by
  have hCases : checkNonce db st = .ok () st ∨ ∃ err,
    checkNonce db st = .error err st :=
    checkNonce_cases st
  rcases hCases with hOk | ⟨err, hErr⟩
  · rw [hOk] at h
    cases h
    rfl
  · rw [hErr] at h
    cases h

/-
  A sender other than the null address that bought its gas
  paid for it.
-/
theorem buyGas_eq_ok
    {st st' : StateTransition H}
    (hSender : st.msg.From ≠ NullAddress)
    (h : buyGas db st = .ok () st') :
    st' = { addBoughtGas st with
      gp := st.gp - st.msg.Gas
      state := st.state.SubBalance db st.msg.From
        (st.msg.Gas * st.gasPrice) } := by
  by_cases hFunds : (st.msg.Gas * st.gasPrice : Int) ≤
    st.state.GetBalance db st.msg.From
  · by_cases hPool : st.msg.Gas ≤ st.gp
    · rw [buyGas_of_funds hSender hFunds hPool] at h
      cases h
      rfl
    · have hShort : st.gp < st.msg.Gas := by omega
      have hNotShort : ¬ st.state.GetBalance db st.msg.From
        < st.msg.Gas * st.gasPrice := by
        omega
      simp [buyGas, hSender, hNotShort, subGas,
        SubGas, hShort] at h
  · have hShort : st.state.GetBalance db st.msg.From <
      st.msg.Gas * st.gasPrice := by omega
    simp [buyGas, hSender, hShort] at h

theorem preCheck_eq_ok
    {st st' : StateTransition H}
    (hSender : st.msg.From ≠ NullAddress)
    (h : preCheck db st = .ok () st') :
    st' = { addBoughtGas st with
      gp := st.gp - st.msg.Gas
      state := st.state.SubBalance db st.msg.From
        (st.msg.Gas * st.gasPrice) } := by
  unfold preCheck at h
  rcases EStateM.bind_eq_ok.mp h with ⟨_, st₀, hCheck, hBuy⟩
  rw [checkNonce_eq_ok hCheck] at hBuy
  exact buyGas_eq_ok hSender hBuy

omit [DecidableEq H] [Inhabited H] in
theorem useGas_eq_ok
    {st st' : StateTransition H}
    {amount : Nat}
    (h : useGas amount st = .ok () st') :
    amount ≤ st.gas ∧ st' =
      { st with gas := st.gas - amount } := by
  by_cases hEnough : amount ≤ st.gas
  · rw [useGas_of_le hEnough] at h
    cases h
    exact ⟨hEnough, rfl⟩
  · rw [useGas_of_lt (by omega)] at h
    cases h

omit [DecidableEq H] [Inhabited H] in
theorem intrinsicGas_eq_ok
    {st st' : StateTransition H}
    {contractCreation : Bool}
    {gas : Nat}
    (h : intrinsicGas vm contractCreation st = .ok gas st') :
    IntrinsicGas st.data contractCreation vm.IsHomestead
      vm.IsIstanbul = .ok gas ∧ st' = st := by
  cases hIntrinsic : IntrinsicGas st.data contractCreation
    vm.IsHomestead vm.IsIstanbul with
  | error err =>
      rw [intrinsicGas_of_error hIntrinsic] at h
      cases h
  | ok gas' =>
      rw [intrinsicGas_of_ok hIntrinsic] at h
      cases h
      exact ⟨rfl, rfl⟩

/-
  A call raises the sender's nonce and runs the EVM from
  there.
-/
theorem runMessage_of_call
    {st : StateTransition H}
    {recipient : Address}
    (hTo : st.msg.To = some recipient) :
    runMessage vm db st =
      .ok ((vm.Call (st.state.SetNonce db st.msg.From
        (st.state.GetNonce db st.msg.From + 1))
          st.msg.From recipient st.data st.gas st.value).1,
        (vm.Call (st.state.SetNonce db st.msg.From
          (st.state.GetNonce db st.msg.From + 1))
          st.msg.From recipient st.data st.gas st.value).2.2.1)
      { st with
        gas := (vm.Call (st.state.SetNonce db st.msg.From
          (st.state.GetNonce db st.msg.From + 1))
          st.msg.From recipient st.data st.gas st.value).2.1
        state := (vm.Call (st.state.SetNonce db st.msg.From
          (st.state.GetNonce db st.msg.From + 1))
          st.msg.From recipient st.data st.gas
            st.value).2.2.2 } := by
  unfold runMessage
  simp only [EStateM.get_bind, hTo]
  rfl

theorem runMessage_of_create
    {st : StateTransition H}
    (hTo : st.msg.To = none) :
    runMessage vm db st =
      .ok ((vm.Create st.state st.msg.From st.data
        st.gas st.value).1,
        (vm.Create st.state st.msg.From st.data st.gas
          st.value).2.2.1)
      { st with
        gas := (vm.Create st.state st.msg.From st.data
          st.gas st.value).2.1
        state := (vm.Create st.state st.msg.From st.data
          st.gas st.value).2.2.2 } := by
  unfold runMessage
  simp only [EStateM.get_bind, hTo]
  rfl

/-
  A successful run of `execute`: `pre`, the intrinsic gas,
  the EVM's run with no insufficient balance, `refund`, and
  the coinbase's fee.
-/
theorem execute_eq_ok
    {pre refund : TransitionM H Unit}
    {st st' : StateTransition H}
    {r : Bytes × Nat × Bool}
    (h : execute vm db pre refund st = .ok r st') :
    ∃ st₁ gas ret vmerr st₃ st₄,
      pre st = .ok () st₁ ∧
      IntrinsicGas st₁.data st₁.msg.To.isNone vm.IsHomestead
        vm.IsIstanbul = .ok gas ∧
      gas ≤ st₁.gas ∧
      runMessage vm db { st₁ with gas := st₁.gas - gas } =
        .ok (ret, vmerr) st₃ ∧
      vmerr ≠ some .ErrInsufficientBalance ∧
      refund st₃ = .ok () st₄ ∧
      st' = { st₄ with
        state := st₄.state.AddBalance db vm.Coinbase
          (gasUsed st₄ * st₄.gasPrice) } := by
  unfold execute at h
  rcases EStateM.bind_eq_ok.mp h
    with ⟨_, st₁, hPre, hAfterPre⟩
  rw [EStateM.get_bind] at hAfterPre
  rcases EStateM.bind_eq_ok.mp hAfterPre
    with ⟨gas, st₁', hIntrinsic, hAfterIntrinsic⟩
  rcases intrinsicGas_eq_ok hIntrinsic
    with ⟨hIntrinsic, rfl⟩
  rcases EStateM.bind_eq_ok.mp hAfterIntrinsic
    with ⟨_, st₂, hUse, hAfterUse⟩
  rcases useGas_eq_ok hUse with ⟨hEnough, rfl⟩
  rcases EStateM.bind_eq_ok.mp hAfterUse
    with ⟨⟨ret, vmerr⟩, st₃, hRun, hAfterRun⟩
  by_cases hBalance : vmerr = some .ErrInsufficientBalance
  · simp [hBalance] at hAfterRun
  · simp only [hBalance, if_false] at hAfterRun
    rcases EStateM.bind_eq_ok.mp hAfterRun
      with ⟨_, st₄, hRefund, hFee⟩
    simp only [payCoinbase, EStateM.modify_bind,
      EStateM.get_bind, EStateM.pure_apply,
      EStateM.Result.ok.injEq] at hFee
    exact ⟨_, gas, ret, vmerr, st₃, st₄, hPre, hIntrinsic,
      hEnough, hRun, hBalance, hRefund,
      hFee.2.symm⟩

/-
  Under an EVM that moves ether only between non-null
  accounts of `S`, a run of the message keeps the sum of
  their balances and the invariant, leaves at most the gas
  it was given, and keeps the message, the gas price and the
  gas bought.
-/
theorem runMessage_within
    {S : Finset Address}
    (hVm : vm.TransfersWithin db S)
    {st st' : StateTransition H}
    {res : Bytes × Option VmError}
    (hWF : st.state.WellFormed)
    (h : runMessage vm db st = .ok res st') :
    st'.state.WellFormed ∧
      ∑ a ∈ S, st'.state.GetBalance db a = ∑ a ∈ S,
        st.state.GetBalance db a ∧
      st'.gas ≤ st.gas ∧
      st'.msg = st.msg ∧ st'.gasPrice = st.gasPrice ∧
        st'.initialGas = st.initialGas := by
  cases hTo : st.msg.To with
  | none =>
      rw [runMessage_of_create hTo] at h
      cases h
      rcases hVm.2 st.state st.msg.From st.data st.gas
        st.value with ⟨ts, hMoves, hState, hGas⟩
      rcases sum_GetBalance_runTransfers S hMoves hWF
        with ⟨hWF', hSum⟩
      rw [← hState] at hWF' hSum
      exact ⟨hWF', hSum, hGas, rfl, rfl, rfl⟩
  | some recipient =>
      rw [runMessage_of_call hTo] at h
      cases h
      have hNonceWF :
          (st.state.SetNonce db st.msg.From
            (st.state.GetNonce db st.msg.From + 1)).WellFormed :=
        hWF.SetNonce _ _
      rcases hVm.1 (st.state.SetNonce db st.msg.From
        (st.state.GetNonce db st.msg.From + 1))
          st.msg.From recipient st.data st.gas st.value
            with ⟨ts, hMoves, hState, hGas⟩
      rcases sum_GetBalance_runTransfers S hMoves hNonceWF
        with ⟨hWF', hSum⟩
      rw [← hState] at hWF' hSum
      refine ⟨hWF', ?_, hGas, rfl, rfl, rfl⟩
      rw [hSum]
      simp only [StateDB.GetBalance_SetNonce hWF]

/-
  The EVM's run always gives a result; its error is part of
  it.
-/
theorem runMessage_ok
    (st : StateTransition H) :
    ∃ res st', runMessage vm db st = .ok res st' := by
  cases hTo : st.msg.To with
  | none => exact ⟨_, _, runMessage_of_create hTo⟩
  | some recipient => exact ⟨_, _, runMessage_of_call hTo⟩

/-
  Once `pre` has bought gas that covers the intrinsic gas,
  and the EVM reports no insufficient balance, `execute`
  succeeds when `refund` does.
-/
theorem execute_ok_of
    {pre refund : TransitionM H Unit}
    {st st₁ : StateTransition H}
    {gas : Nat}
    (hPre : pre st = .ok () st₁)
    (hIntrinsic : IntrinsicGas st₁.data st₁.msg.To.isNone
      vm.IsHomestead vm.IsIstanbul = .ok gas)
    (hEnough : gas ≤ st₁.gas)
    (hVmErr : ∀ res st₃, runMessage vm db
      { st₁ with gas := st₁.gas - gas } = .ok res st₃ →
      res.2 ≠ some .ErrInsufficientBalance)
    (hRefund : ∀ s, ∃ s', refund s = .ok () s') :
    ∃ r st', execute vm db pre refund st = .ok r st' := by
  unfold execute
  rw [EStateM.bind_of_ok hPre]
  simp only [EStateM.get_bind]
  rw [EStateM.bind_of_ok (intrinsicGas_of_ok hIntrinsic),
    EStateM.bind_of_ok (useGas_of_le hEnough)]
  rcases runMessage_ok { st₁ with
    gas := st₁.gas - gas } with ⟨⟨ret, vmerr⟩, st₃, hRun⟩
  rw [EStateM.bind_of_ok hRun]
  have hNotShort : vmerr ≠ some .ErrInsufficientBalance :=
    hVmErr _ _ hRun
  simp only [hNotShort, if_false]
  rcases hRefund st₃ with ⟨st₄, hRefunded⟩
  rw [EStateM.bind_of_ok hRefunded]
  exact ⟨_, _, rfl⟩

end StateTransition

end Core

end PlasmaEvm

------------------------------------------------------------
-- Errors After the Gas Is Bought
------------------------------------------------------------

namespace PlasmaEvm

namespace Core

namespace StateTransition

open PlasmaEvm.State

variable {H : Type} [DecidableEq H] [Inhabited H]
variable {vm : Vm H} {db : Database H}

/-
  Once `pre` has bought the gas, an intrinsic gas that the
  gas does not cover ends the transition with an error, in
  the state `pre` left: nothing gives the gas back to the
  pool.
-/
theorem execute_of_intrinsic_fails
    {pre : TransitionM H Unit}
    (refund : TransitionM H Unit)
    {st st₁ : StateTransition H}
    (hPre : pre st = .ok () st₁)
    (hFail : ∀ gas,
      IntrinsicGas st₁.data st₁.msg.To.isNone vm.IsHomestead
        vm.IsIstanbul = .ok gas →
        st₁.gas < gas) :
    ∃ err,
      execute vm db pre refund st = .error err st₁ := by
  unfold execute
  rw [EStateM.bind_of_ok hPre]
  simp only [EStateM.get_bind]
  cases hIntrinsic : IntrinsicGas st₁.data st₁.msg.To.isNone
    vm.IsHomestead vm.IsIstanbul with
  | error err =>
      exact ⟨.core err,
        by
          rw [EStateM.bind_of_error
            (intrinsicGas_of_error hIntrinsic)]⟩
  | ok gas =>
      refine ⟨.core .ErrOutOfGas, ?_⟩
      rw [EStateM.bind_of_ok (intrinsicGas_of_ok hIntrinsic),
        EStateM.bind_of_error (useGas_of_lt
          (hFail gas hIntrinsic))]

end StateTransition

open PlasmaEvm.State

variable {H : Type} [DecidableEq H] [Inhabited H]

open PlasmaEvm.Core.StateTransition in
/-
  When the delegatee's stamina does not cover the up-front
  cost, the sender pays.
-/
theorem ApplyMessage_of_plain
    {vm : Vm H}
    {db : Database H}
    {msg : Message}
    {gp : Nat}
    {state : StateDB H}
    (hPlain : ¬ upfrontGasCost msg ≤
      availableStamina vm state (delegateeOf vm state msg.From)) :
    ApplyMessage vm db msg gp state =
      execute vm db (preCheck db) (if msg.From ≠ NullAddress
        then refundGas db else pure ())
        (NewStateTransition msg gp state) := by
  unfold ApplyMessage TransitionDb
  simp only [EStateM.get_bind, NewStateTransition]
  rw [if_neg hPlain]

open PlasmaEvm.Core.StateTransition in
/-
  A message on the ether path whose sender can pay for its
  gas, from a pool that holds it, with a gas that covers the
  intrinsic gas, is applied, when the EVM reports no
  insufficient balance.
-/
theorem ApplyMessage_ok_of_plain
    {vm : Vm H}
    {db : Database H}
    {msg : Message}
    {gp : Nat}
    {state : StateDB H}
    (hPlain : ¬ upfrontGasCost msg ≤
      availableStamina vm state (delegateeOf vm state msg.From))
    (hSender : msg.From ≠ NullAddress)
    (hNonce : msg.CheckNonce = true →
      state.GetNonce db msg.From = msg.Nonce)
    (hFunds : (msg.Gas * msg.GasPrice : Int) ≤
      state.GetBalance db msg.From)
    (hPool : msg.Gas ≤ gp)
    {gas : Nat}
    (hIntrinsic : IntrinsicGas msg.Data msg.To.isNone
      vm.IsHomestead vm.IsIstanbul = .ok gas)
    (hCovered : gas ≤ msg.Gas)
    (hCall : ∀ s caller recipient input gas value,
      (vm.Call s caller recipient input gas value).2.2.1 ≠
        some .ErrInsufficientBalance)
    (hCreate : ∀ s caller code gas value,
      (vm.Create s caller code gas value).2.2.1 ≠
        some .ErrInsufficientBalance) :
    ∃ r st',
      ApplyMessage vm db msg gp state = .ok r st' := by
  let st : StateTransition H :=
    NewStateTransition msg gp state
  have hPre : preCheck db st = .ok ()
      { addBoughtGas st with
        gp := st.gp - st.msg.Gas
        state := st.state.SubBalance db st.msg.From
          (st.msg.Gas * st.gasPrice) } := by
    unfold preCheck
    rw [EStateM.bind_of_ok (checkNonce_of_valid hNonce),
      buyGas_of_funds hSender hFunds hPool]
  rw [ApplyMessage_of_plain hPlain]
  refine execute_ok_of hPre hIntrinsic
    (by simpa [st, addBoughtGas, NewStateTransition]) ?_ ?_
  · intro res st₃ hRun
    cases hTo : msg.To with
    | none =>
        rw [runMessage_of_create hTo] at hRun
        cases hRun
        exact hCreate _ _ _ _ _
    | some recipient =>
        rw [runMessage_of_call hTo] at hRun
        cases hRun
        exact hCall _ _ _ _ _ _
  · intro s
    by_cases hNull : msg.From ≠ NullAddress
    · rw [if_pos hNull]
      exact ⟨_, rfl⟩
    · rw [if_neg hNull]
      exact ⟨_, rfl⟩

open PlasmaEvm.Core.StateTransition in
/-
  A message on the ether path whose sender can pay for its
  gas but whose gas does not cover its intrinsic gas fails
  after buyGas has taken the gas from the pool, and the pool
  is not given it back.
-/
theorem ApplyMessage_keeps_bought_gas
    (vm : Vm H)
    (db : Database H)
    (msg : Message)
    (gp : Nat)
    (state : StateDB H)
    (hPlain : ¬ upfrontGasCost msg ≤
      availableStamina vm state (delegateeOf vm state msg.From))
    (hSender : msg.From ≠ NullAddress)
    (hNonce : msg.CheckNonce = true →
      state.GetNonce db msg.From = msg.Nonce)
    (hFunds : (msg.Gas * msg.GasPrice : Int) ≤
      state.GetBalance db msg.From)
    (hPool : msg.Gas ≤ gp)
    (hIntrinsic : ∀ gas,
      IntrinsicGas msg.Data msg.To.isNone vm.IsHomestead
        vm.IsIstanbul = .ok gas → msg.Gas < gas) :
    ∃ err st', ApplyMessage vm db msg gp state =
      .error err st' ∧ st'.gp = gp - msg.Gas := by
  let st : StateTransition H :=
    NewStateTransition msg gp state
  let st₁ : StateTransition H :=
    { addBoughtGas st with
      gp := st.gp - st.msg.Gas
      state := st.state.SubBalance db st.msg.From
        (st.msg.Gas * st.gasPrice) }
  have hPre : preCheck db st = .ok () st₁ := by
    unfold preCheck
    rw [EStateM.bind_of_ok (checkNonce_of_valid hNonce),
      buyGas_of_funds hSender hFunds hPool]
  rcases execute_of_intrinsic_fails (if msg.From ≠
    NullAddress then refundGas db else pure ())
      hPre (fun gas hOk => by
        simpa [st₁, st, addBoughtGas,
          NewStateTransition] using hIntrinsic gas hOk)
          with ⟨err, hErr⟩
  exact ⟨err, st₁,
    (ApplyMessage_of_plain hPlain).trans hErr, rfl⟩

/-
  Sender 2 holds 20000 wei and sends a transfer with 20000
  gas at price 1, below the 21000 intrinsic gas, from a pool
  of 100000.
-/
theorem ApplyMessage_keeps_bought_gas_short :
    let vm : Vm Nat :=
      { Coinbase := ⟨1⟩, IsHomestead := true, IsIstanbul := true,
        GetDelegatee := fun _ _ => .ok NullAddress,
          GetStamina := fun _ _ => .ok 0,
        AddStamina := fun s _ _ => s, SubtractStamina :=
          fun s _ _ => s,
        Call := fun s _ _ _ gas _ => ([], gas, none, s),
        Create := fun s _ _ gas _ => ([], gas, none, s) }
    let db : Database Nat :=
      { keccak := ⟨fun _ => 0, fun _ _ => 0⟩, emptyRoot := 0,
        account := fun a => if a = ⟨2⟩
          then some ⟨0, 20000, 0, 0⟩ else none,
        ContractCode := fun _ => [],
          storage := fun _ _ => 0 }
    let msg : Message :=
      { From := ⟨2⟩, To := some ⟨3⟩, GasPrice := 1, Gas := 20000,
        Value := 0, Nonce := 0, CheckNonce := true, Data := [] }
    let state : StateDB Nat := StateDB.New
    ¬ upfrontGasCost msg ≤ availableStamina vm state
      (delegateeOf vm state msg.From) ∧
      msg.From ≠ NullAddress ∧
      (msg.CheckNonce = true → state.GetNonce db
        msg.From = msg.Nonce) ∧
      (msg.Gas * msg.GasPrice : Int) ≤
        state.GetBalance db msg.From ∧
      msg.Gas ≤ 100000 ∧
      (∀ gas, IntrinsicGas msg.Data msg.To.isNone
        vm.IsHomestead vm.IsIstanbul = .ok gas →
        msg.Gas < gas) ∧
      ∃ err st', ApplyMessage vm db msg 100000 state =
        .error err st' ∧ st'.gp = 100000 - msg.Gas := by
  intro vm db msg state
  have hPlain : ¬ upfrontGasCost msg ≤
    availableStamina vm state (delegateeOf vm state
    msg.From) := by
    decide
  have hSender : msg.From ≠ NullAddress := by decide
  have hNonce : msg.CheckNonce = true →
    state.GetNonce db msg.From = msg.Nonce := by decide
  have hFunds : (msg.Gas * msg.GasPrice : Int) ≤
    state.GetBalance db msg.From := by decide
  have hPool : msg.Gas ≤ 100000 := by decide
  have hIntrinsic : ∀ gas, IntrinsicGas msg.Data
    msg.To.isNone vm.IsHomestead vm.IsIstanbul = .ok gas →
      msg.Gas < gas := by
    intro gas hOk
    have hGas : gas = 21000 := by
      simp [msg, IntrinsicGas, Params.TxGas] at hOk
      omega
    subst hGas
    decide
  exact ⟨hPlain, hSender, hNonce, hFunds, hPool, hIntrinsic,
    ApplyMessage_keeps_bought_gas vm db msg 100000 state
      hPlain hSender hNonce hFunds hPool hIntrinsic⟩

end Core

end PlasmaEvm

------------------------------------------------------------
-- Conservation of Ether
------------------------------------------------------------

namespace PlasmaEvm

namespace Core

namespace StateTransition

open PlasmaEvm.State

variable {H : Type} [DecidableEq H] [Inhabited H]
variable {vm : Vm H} {db : Database H}

/-
  The refund and the fee together pay out the price of all
  the gas bought: the gas left, with the refund, to the
  sender, and the gas used to the coinbase.
-/
theorem sum_refundGas_fee
    {S : Finset Address}
    {st st₄ : StateTransition H}
    (hWF : st.state.WellFormed)
    (hFrom : st.msg.From ∈ S)
    (hCoinbase : vm.Coinbase ∈ S)
    (hLe : st.gas ≤ st.initialGas)
    (hRefund : refundGas db st = .ok () st₄) :
    ∑ a ∈ S, (st₄.state.AddBalance db vm.Coinbase
      (gasUsed st₄ * st₄.gasPrice)).GetBalance db a =
      ∑ a ∈ S, st.state.GetBalance db a + st.initialGas *
        st.gasPrice := by
  simp only [refundGas, refundWith, EStateM.modify_apply,
    EStateM.Result.ok.injEq] at hRefund
  rcases hRefund with ⟨-, rfl⟩
  have hBound : st.gas + min (gasUsed st / 2)
    st.state.GetRefund.toNat ≤ st.initialGas := by
    have hHalf : min (gasUsed st / 2)
      st.state.GetRefund.toNat ≤ gasUsed st / 2 :=
      min_le_left _ _
    unfold gasUsed at hHalf ⊢
    omega
  rw [StateDB.sum_GetBalance_AddBalance
    (hWF.AddBalance _ _) S hCoinbase,
    StateDB.sum_GetBalance_AddBalance hWF S hFrom]
  generalize min (gasUsed st / 2) st.state.GetRefund.toNat =
    refund at hBound ⊢
  simp only [gasUsed]
  push_cast [Nat.cast_sub hBound]
  ring

end StateTransition

open PlasmaEvm.State

variable {H : Type} [DecidableEq H] [Inhabited H]

open PlasmaEvm.Core.StateTransition in
/-
  A message on the ether path from a sender other than the
  null address, applied without error, keeps the sum of the
  balances of any set of accounts that holds the sender, the
  coinbase and every account the EVM moves ether between:
  the sender is debited the price of the gas bought, and the
  refund and the fee give all of it back.
-/
theorem ApplyMessage_conserves_balances
    (vm : Vm H)
    (db : Database H)
    (S : Finset Address)
    (hVm : vm.TransfersWithin db S)
    (msg : Message)
    (gp : Nat)
    (state : StateDB H)
    (hWF : state.WellFormed)
    (hSender : msg.From ≠ NullAddress)
    (hAccounts : msg.From ∈ S ∧ vm.Coinbase ∈ S)
    (hPlain : ¬ upfrontGasCost msg ≤
      availableStamina vm state (delegateeOf vm state msg.From))
    {r : Bytes × Nat × Bool}
    {st' : StateTransition H}
    (hOk : ApplyMessage vm db msg gp state = .ok r st') :
    ∑ a ∈ S, st'.state.GetBalance db a = ∑ a ∈ S,
      state.GetBalance db a := by
  rw [ApplyMessage_of_plain hPlain] at hOk
  rcases execute_eq_ok hOk with
    ⟨st₁, gas, ret, vmerr, st₃, st₄, hPre, -, hEnough, hRun,
      -, hRefund, rfl⟩
  have hBought := preCheck_eq_ok hSender hPre
  subst hBought
  have hWF₁ : (state.SubBalance db msg.From (msg.Gas *
    msg.GasPrice)).WellFormed :=
    hWF.SubBalance _ _
  rcases runMessage_within hVm hWF₁ hRun
    with ⟨hWF₃, hSum₃, hGas₃, hMsg₃, hPrice₃, hInit₃⟩
  simp only [addBoughtGas, NewStateTransition,
    Nat.zero_add] at hSum₃ hGas₃ hMsg₃ hPrice₃ hInit₃
  rw [if_pos hSender] at hRefund
  have hFrom₃ : st₃.msg.From ∈ S := by
    rw [hMsg₃]
    exact hAccounts.1
  have hLe₃ : st₃.gas ≤ st₃.initialGas := by
    rw [hInit₃]
    omega
  rw [sum_refundGas_fee hWF₃ hFrom₃ hAccounts.2 hLe₃
    hRefund, hSum₃,
    StateDB.sum_GetBalance_SubBalance hWF S hAccounts.1,
      hInit₃, hPrice₃]
  omega

/-
  Sender 2 sends 5 wei to account 3 with 50000 gas at price
  1; the EVM moves the value and leaves half the gas, and
  the coinbase is account 1.
-/
theorem ApplyMessage_conserves_balances_transfer :
    let S : Finset Address := {⟨1⟩, ⟨2⟩, ⟨3⟩}
    let db : Database Nat :=
      { keccak := ⟨fun _ => 0, fun _ _ => 0⟩, emptyRoot := 0,
        account := fun a => if a = ⟨2⟩
          then some ⟨0, 100000, 0, 0⟩ else none,
        ContractCode := fun _ => [],
          storage := fun _ _ => 0 }
    let vm : Vm Nat :=
      { Coinbase := ⟨1⟩, IsHomestead := true, IsIstanbul := true,
        GetDelegatee := fun _ _ => .ok NullAddress,
          GetStamina := fun _ _ => .ok 0,
        AddStamina := fun s _ _ => s, SubtractStamina :=
          fun s _ _ => s,
        Call := fun s caller recipient _ gas value =>
          ([], gas / 2, none, runTransfers db s ([(caller,
            recipient, value)].filter
            (fun t => decide (t.1 ∈ S ∧ t.2.1 ∈ S ∧
              t.1 ≠ NullAddress ∧ t.2.1 ≠ NullAddress)))),
        Create := fun s _ _ gas _ => ([], gas, none, s) }
    let msg : Message :=
      { From := ⟨2⟩, To := some ⟨3⟩, GasPrice := 1, Gas := 50000,
        Value := 5, Nonce := 0, CheckNonce := true, Data := [] }
    let state : StateDB Nat := StateDB.New
    vm.TransfersWithin db S ∧ state.WellFormed ∧
      msg.From ≠ NullAddress ∧
      (msg.From ∈ S ∧ vm.Coinbase ∈ S) ∧
      ¬ upfrontGasCost msg ≤ availableStamina vm state
        (delegateeOf vm state msg.From) ∧
      ∃ r st',
        ApplyMessage vm db msg 100000 state = .ok r st' ∧
        ∑ a ∈ S, st'.state.GetBalance db a = ∑ a ∈ S,
          state.GetBalance db a := by
  intro S db vm msg state
  have hVm : vm.TransfersWithin db S := by
    refine ⟨?_, ?_⟩
    · intro s caller recipient input gas value
      refine ⟨[(caller, recipient, value)].filter
          (fun t => decide (t.1 ∈ S ∧ t.2.1 ∈ S ∧
            t.1 ≠ NullAddress ∧ t.2.1 ≠ NullAddress)),
        ?_, rfl, Nat.div_le_self gas 2⟩
      intro t hMem
      simpa using (List.mem_filter.mp hMem).2
    · intro s caller code gas value
      exact ⟨[], fun t hMem => absurd hMem
        List.not_mem_nil, rfl, le_rfl⟩
  have hWF : state.WellFormed := StateDB.WellFormed.New
  have hSender : msg.From ≠ NullAddress := by decide
  have hAccounts : msg.From ∈ S ∧
    vm.Coinbase ∈ S := by decide
  have hPlain : ¬ upfrontGasCost msg ≤
    availableStamina vm state (delegateeOf vm state
    msg.From) := by
    decide
  have hRun : ∃ r st', ApplyMessage vm db msg 100000
    state = .ok r st' :=
    ApplyMessage_ok_of_plain hPlain hSender (by decide)
      (by decide) (by decide)
      (show IntrinsicGas msg.Data msg.To.isNone
        vm.IsHomestead vm.IsIstanbul = .ok 21000 from rfl)
      (by decide) (fun _ _ _ _ _ _ =>
        nofun) (fun _ _ _ _ _ => nofun)
  rcases hRun with ⟨r, st', hOk⟩
  exact ⟨hVm, hWF, hSender, hAccounts, hPlain, r, st', hOk,
    ApplyMessage_conserves_balances vm db S hVm msg 100000
      state hWF hSender hAccounts hPlain hOk⟩

end Core

end PlasmaEvm
