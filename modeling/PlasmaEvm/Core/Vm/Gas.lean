import Mathlib.Data.List.Basic
import PlasmaEvm.Common.Types
import PlasmaEvm.Control.Except

/-
  Gas of memory expansion and of calls in package vm:
  memoryGasCost (gas_table.go), toWordSize (common.go),
  callGas (gas.go), the gas functions of CALL, CALLCODE,
  DELEGATECALL and STATICCALL, the interpreter's charge of
  an operation's dynamic gas and its memory expansion
  (interpreter.go), and the gas a call hands on
  (instructions.go).  Arithmetic is uint64, as in Go;
  SafeAdd and SafeMul are those of common/math.  Of a Memory
  only its length and lastGasCost matter here, and of the
  state only whether the callee's account is empty or
  exists.

  `memoryFee w` is the cost C(w) = 3w + w^2/512 of w words
  of memory.  Along a frame the memory keeps `MemInv`: its
  length is whole words within the cap 0x1FFFFFFFE0, and
  lastGasCost is the cost of its words.  So each charge is
  the difference of the costs, and the charges of a frame
  add up to the cost of its final memory.

  Key definitions include:
    * `Vm.memoryGasCost`, `Vm.toWordSize`, `Vm.memoryOp`,
      `Vm.runFrame`
    * `Vm.callGas`, `Vm.gasCall`, `Vm.gasCallCode`,
      `Vm.gasDelegateCall`, `Vm.gasStaticCall`, `Vm.callOp`
    * `Vm.memoryFee`, `Vm.MemInv`

  Key statements include:
    * `Vm.memoryGasCost_spec`, `Vm.MemInv.memoryOp`,
      `Vm.runFrame_fees`
    * `Vm.callGas_le`, `Vm.gasCallWith_spec`,
      `Vm.callOp_spec`
-/

------------------------------------------------------------
-- Gas Arithmetic
------------------------------------------------------------

namespace PlasmaEvm

namespace Math

def MaxUint64 : UInt64 := 0xFFFFFFFFFFFFFFFF

/- SafeAdd: the sum and whether it overflowed. -/
def SafeAdd (x y : UInt64) : UInt64 × Bool :=
  (x + y, y > MaxUint64 - x)

/- SafeMul: the product and whether it overflowed. -/
def SafeMul (x y : UInt64) : UInt64 × Bool :=
  if x = 0 ∨ y = 0
    then (0, false) else (x * y, y > MaxUint64 / x)

end Math

namespace Vm

/-
  The gas constants these functions read
  (params/protocol_params.go).
-/
def MemoryGas : UInt64 := 3

def QuadCoeffDiv : UInt64 := 512

def CallValueTransferGas : UInt64 := 9000

def CallNewAccountGas : UInt64 := 25000

def CallStipend : UInt64 := 2300

/-
  The errors of gas accounting: errGasUintOverflow, and
  ErrOutOfGas of the interpreter.
-/
inductive VmError where
  | errGasUintOverflow
  | ErrOutOfGas
  deriving DecidableEq, Repr

/-
  A Memory by its length m.Len() and the cost of it charged
  so far.
-/
structure Memory where
  len : Nat
  lastGasCost : UInt64
  deriving DecidableEq, Repr

/- NewMemory. -/
def newMemory : Memory :=
  ⟨0, 0⟩

def Memory.Resize
    (m : Memory)
    (size : UInt64) : Memory :=
  if m.len.toUInt64 < size then { m with
    len := size.toNat } else m

def toWordSize (size : UInt64) : UInt64 :=
  if size > Math.MaxUint64 - 31 then Math.MaxUint64 / 32 + 1
  else (size + 31) / 32

def memoryGasCost
    (mem : Memory)
    (newMemSize : UInt64) :
    Except VmError (UInt64 × Memory) :=
  if newMemSize = 0 then .ok (0, mem)
  else if newMemSize > 0x1FFFFFFFE0
    then .error .errGasUintOverflow
  else
    let newMemSizeWords := toWordSize newMemSize
    let newMemSize := newMemSizeWords * 32
    if newMemSize > mem.len.toUInt64 then
      let square := newMemSizeWords * newMemSizeWords
      let linCoef := newMemSizeWords * MemoryGas
      let quadCoef := square / QuadCoeffDiv
      let newTotalFee := linCoef + quadCoef
      let fee := newTotalFee - mem.lastGasCost
      .ok (fee, { mem with lastGasCost := newTotalFee })
    else .ok (0, mem)

/-
  Contract.UseGas: none when the gas left is short, and then
  nothing is taken.
-/
def UseGas
    (gas amount : UInt64) : Option UInt64 :=
  if gas < amount then none else some (gas - amount)

end Vm

end PlasmaEvm

------------------------------------------------------------
-- A Frame's Memory
------------------------------------------------------------

namespace PlasmaEvm

namespace Vm

/-
  What the interpreter's loop keeps of a frame here:
  contract.Gas and the memory.
-/
structure Frame where
  Gas : UInt64
  mem : Memory
  deriving DecidableEq, Repr

/-
  One operation with a memory operand memSize, in the
  interpreter's loop: the memory size in whole words, the
  dynamic gas (the memory's, and the operation's own part
  `extra` added with SafeAdd), its charge, and the
  expansion.  It returns the memory's gas.
-/
def memoryOp
    (frame : Frame)
    (memSize extra : UInt64) :
    Except VmError (UInt64 × Frame) :=
  let (memorySize, overflow) := Math.SafeMul
    (toWordSize memSize) 32
  if overflow then .error .errGasUintOverflow
  else
    match memoryGasCost frame.mem memorySize with
    | .error _ => .error .ErrOutOfGas
    | .ok (memoryGas, mem) =>
        let (dynamicCost, overflow) :=
          Math.SafeAdd memoryGas extra
        if overflow then .error .ErrOutOfGas
        else
          match UseGas frame.Gas dynamicCost with
          | none => .error .ErrOutOfGas
          | some gas =>
              .ok (memoryGas, ⟨gas, if memorySize > 0
                then mem.Resize memorySize else mem⟩)

/-
  The memory operations of a frame, in order, with the
  memory gas each is charged.
-/
def runFrame :
    Frame → List (UInt64 × UInt64) →
      Except VmError (List UInt64 × Frame)
  | frame, [] => .ok ([], frame)
  | frame, (memSize, extra) :: ops => do
      let (fee, frame) ← memoryOp frame memSize extra
      let (fees, frame) ← runFrame frame ops
      pure (fee :: fees, frame)

end Vm

end PlasmaEvm

------------------------------------------------------------
-- Calls
------------------------------------------------------------

namespace PlasmaEvm

namespace Vm

/-
  callGas: the gas a call hands on.  callCost is the stack's
  word for it; IsUint64 is that it is below 2^64.
-/
def callGas
    (isEip150 : Bool)
    (availableGas base : UInt64)
    (callCost : Nat) : Except VmError UInt64 :=
  if isEip150 then
    let availableGas := availableGas - base
    let gas := availableGas - availableGas / 64
    if ¬ callCost < 2 ^ 64 ∨ gas <
      UInt64.ofNat callCost then .ok gas
    else if ¬ callCost < 2 ^ 64
      then .error .errGasUintOverflow
    else .ok (UInt64.ofNat callCost)
  else if ¬ callCost < 2 ^ 64
    then .error .errGasUintOverflow
  else .ok (UInt64.ofNat callCost)

/-
  The chain rules and the state a call's gas reads.  `empty`
  and `exist` are evm.StateDB.Empty(address) and
  evm.StateDB.Exist(address).
-/
structure CallContext where
  IsEIP150 : Bool
  IsEIP158 : Bool
  empty : Bool
  exist : Bool
  deriving DecidableEq, Repr

/-
  What gasCall and gasCallCode share: the memory's gas added
  to the opcode's own gas `own`, callGas on that base, and
  the base and callGasTemp added.  It returns the charge,
  callGasTemp and the memory.
-/
def gasCallWith
    (own : UInt64)
    (ctx : CallContext)
    (contractGas : UInt64)
    (mem : Memory)
    (memorySize : UInt64)
    (callCost : Nat) :
    Except VmError (UInt64 × UInt64 × Memory) := do
  let (memoryGas, mem) ← memoryGasCost mem memorySize
  let (gas, overflow) := Math.SafeAdd own memoryGas
  if overflow then throw .errGasUintOverflow
  let callGasTemp ← callGas ctx.IsEIP150 contractGas gas callCost
  let (gas, overflow) := Math.SafeAdd gas callGasTemp
  if overflow then throw .errGasUintOverflow
  pure (gas, callGasTemp, mem)

/-
  The own gas of CALL: a new account, under EIP-158 only
  when value moves, and the value.
-/
def callOwnGas
    (ctx : CallContext)
    (transfersValue : Bool) : UInt64 :=
  let gas : UInt64 := 0
  let gas :=
    if ctx.IsEIP158
      then (if transfersValue && ctx.empty
        then gas + CallNewAccountGas else gas)
    else if !ctx.exist then gas + CallNewAccountGas else gas
  if transfersValue then gas + CallValueTransferGas else gas

/-
  gasCall; value is the stack's Back(2) and callCost its
  Back(0).
-/
def gasCall
    (ctx : CallContext)
    (contractGas : UInt64)
    (mem : Memory)
    (memorySize : UInt64)
    (callCost value : Nat) :
    Except VmError (UInt64 × UInt64 × Memory) :=
  gasCallWith (callOwnGas ctx (value !=
    0)) ctx contractGas mem memorySize callCost

def gasCallCode
    (ctx : CallContext)
    (contractGas : UInt64)
    (mem : Memory)
    (memorySize : UInt64)
    (callCost value : Nat) :
    Except VmError (UInt64 × UInt64 × Memory) :=
  gasCallWith (if value != 0
    then CallValueTransferGas else 0) ctx
      contractGas mem memorySize
    callCost

/-
  gasDelegateCall hands the memory's gas to callGas as the
  base, with no SafeAdd before.
-/
def gasDelegateCall
    (ctx : CallContext)
    (contractGas : UInt64)
    (mem : Memory)
    (memorySize : UInt64)
    (callCost : Nat) :
    Except VmError (UInt64 × UInt64 × Memory) := do
  let (gas, mem) ← memoryGasCost mem memorySize
  let callGasTemp ← callGas ctx.IsEIP150 contractGas gas callCost
  let (gas, overflow) := Math.SafeAdd gas callGasTemp
  if overflow then throw .errGasUintOverflow
  pure (gas, callGasTemp, mem)

/- gasStaticCall has the body of gasDelegateCall. -/
def gasStaticCall
    (ctx : CallContext)
    (contractGas : UInt64)
    (mem : Memory)
    (memorySize : UInt64)
    (callCost : Nat) :
    Except VmError (UInt64 × UInt64 × Memory) :=
  gasDelegateCall ctx contractGas mem memorySize callCost

inductive CallKind where
  | CALL
  | CALLCODE
  | DELEGATECALL
  | STATICCALL
  deriving DecidableEq, Repr

def CallKind.dynamicGas
    (kind : CallKind)
    (ctx : CallContext)
    (contractGas : UInt64)
    (mem : Memory)
    (memorySize : UInt64)
    (callCost value : Nat) :
    Except VmError (UInt64 × UInt64 × Memory) :=
  match kind with
  | .CALL =>
      gasCall ctx contractGas mem memorySize callCost value
  | .CALLCODE =>
      gasCallCode ctx contractGas mem memorySize callCost value
  | .DELEGATECALL =>
      gasDelegateCall ctx contractGas mem memorySize callCost
  | .STATICCALL =>
      gasStaticCall ctx contractGas mem memorySize callCost

/-
  The gas opCall and opCallCode hand on: callGasTemp, and
  the stipend when value moves.
-/
def CallKind.calleeGas
    (kind : CallKind)
    (callGasTemp : UInt64)
    (value : Nat) : UInt64 :=
  match kind with
  | .CALL | .CALLCODE =>
      if value != 0
        then callGasTemp + CallStipend else callGasTemp
  | .DELEGATECALL | .STATICCALL => callGasTemp

/-
  A call opcode in the interpreter's loop: the memory size
  in whole words (memorySize, already checked), the dynamic
  gas and its charge, the expansion, and the gas the opcode
  hands to the callee.
-/
def callOp
    (kind : CallKind)
    (ctx : CallContext)
    (frame : Frame)
    (memorySize : UInt64)
    (callCost value : Nat) :
    Except VmError (UInt64 × Frame) :=
  match kind.dynamicGas ctx frame.Gas frame.mem memorySize
    callCost value with
  | .error _ => .error .ErrOutOfGas
  | .ok (dynamicCost, callGasTemp, mem) =>
      match UseGas frame.Gas dynamicCost with
      | none => .error .ErrOutOfGas
      | some gas =>
          .ok (kind.calleeGas callGasTemp value,
            ⟨gas, if memorySize > 0
              then mem.Resize memorySize else mem⟩)

end Vm

end PlasmaEvm

------------------------------------------------------------
-- The Cost of Memory
------------------------------------------------------------

namespace PlasmaEvm

namespace Vm

/-
  C(w) = 3w + floor(w^2 / 512): the cost of w words of
  memory.
-/
def memoryFee (w : Nat) : Nat :=
  w * 3 + w * w / 512

theorem memoryFee_mono
    {a b : Nat}
    (hLe : a ≤ b) :
    memoryFee a ≤ memoryFee b := by
  have hSquare : a * a ≤ b * b := Nat.mul_le_mul hLe hLe
  have hQuad : a * a / 512 ≤ b * b / 512 :=
    Nat.div_le_div_right hSquare
  unfold memoryFee
  omega

/-
  The memory of a frame between operations: whole words
  within the cap 0x1FFFFFFFE0 of memoryGasCost, with
  lastGasCost the cost of them.
-/
def MemInv (mem : Memory) : Prop :=
  mem.len % 32 = 0 ∧ mem.len ≤ 0x1FFFFFFFE0 ∧
    mem.lastGasCost.toNat = memoryFee (mem.len / 32)

theorem MemInv.newMemory : MemInv newMemory := by
  refine ⟨rfl, by decide, rfl⟩

theorem toNat_toWordSize
    {size : UInt64}
    (hSize : size.toNat ≤ 2 ^ 64 - 32) :
    (toWordSize size).toNat = (size.toNat + 31) / 32 := by
  have hNot : ¬ size > Math.MaxUint64 - 31 := by
    rw [gt_iff_lt, UInt64.lt_iff_toNat_lt,
      UInt64.toNat_sub_of_le _ _ (by decide)]
    simp only [Math.MaxUint64, UInt64.reduceToNat]
    omega
  rw [toWordSize, if_neg hNot, UInt64.toNat_div,
    UInt64.toNat_add]
  simp only [UInt64.reduceToNat]
  rw [Nat.mod_eq_of_lt (by omega)]

/-
  Below the cap the cost of w words is computed without
  wrapping.
-/
theorem toNat_newTotalFee
    {w : UInt64}
    (hw : w.toNat ≤ 0xFFFFFFFF) :
    (w * MemoryGas + w * w / QuadCoeffDiv).toNat =
      memoryFee w.toNat := by
  have hSquare : w.toNat * w.toNat ≤ 0xFFFFFFFF *
    0xFFFFFFFF := Nat.mul_le_mul hw hw
  have hMulSelf : (w * w).toNat = w.toNat * w.toNat := by
    rw [UInt64.toNat_mul]
    exact Nat.mod_eq_of_lt (by omega)
  have hLin : (w * MemoryGas).toNat = w.toNat * 3 := by
    rw [UInt64.toNat_mul]
    exact Nat.mod_eq_of_lt
      (by simp only [MemoryGas, UInt64.reduceToNat]; omega)
  have hQuad : (w * w / QuadCoeffDiv).toNat = w.toNat *
    w.toNat / 512 := by
    rw [UInt64.toNat_div, hMulSelf]
    rfl
  have hQuadLe : w.toNat * w.toNat / 512 ≤ 0xFFFFFFFF *
    0xFFFFFFFF / 512 :=
    Nat.div_le_div_right hSquare
  rw [UInt64.toNat_add, hLin, hQuad, memoryFee,
    Nat.mod_eq_of_lt (by omega)]

end Vm

end PlasmaEvm

------------------------------------------------------------
-- Charges of Memory
------------------------------------------------------------

namespace PlasmaEvm

namespace Vm

/-
  On a frame's memory, memoryGasCost charges the cost of the
  words the new size needs over the cost of those there are,
  with no wraparound, and records the cost of the larger of
  the two; it accepts no size over the cap.
-/
theorem memoryGasCost_spec
    {mem mem' : Memory}
    {newMemSize fee : UInt64}
    (hInv : MemInv mem)
    (hCost : memoryGasCost mem newMemSize =
      .ok (fee, mem')) :
    newMemSize.toNat ≤ 0x1FFFFFFFE0 ∧ mem'.len = mem.len ∧
      mem'.lastGasCost.toNat = memoryFee (max (mem.len / 32)
        ((newMemSize.toNat + 31) / 32)) ∧
      fee.toNat = memoryFee (max (mem.len / 32)
        ((newMemSize.toNat + 31) / 32)) -
        memoryFee (mem.len / 32) := by
  rcases hInv with ⟨hWhole, hCap, hLast⟩
  unfold memoryGasCost at hCost
  by_cases hZero : newMemSize = 0
  · rw [if_pos hZero, Except.ok.injEq,
      Prod.mk.injEq] at hCost
    rcases hCost with ⟨rfl, rfl⟩
    subst hZero
    simp [hLast]
  rw [if_neg hZero] at hCost
  by_cases hBig : newMemSize > 0x1FFFFFFFE0
  · rw [if_pos hBig] at hCost
    cases hCost
  rw [if_neg hBig] at hCost
  have hSmall : newMemSize.toNat ≤ 0x1FFFFFFFE0 := by
    simpa [gt_iff_lt, UInt64.lt_iff_toNat_lt] using hBig
  have hWords : (toWordSize newMemSize).toNat =
    (newMemSize.toNat + 31) / 32 :=
    toNat_toWordSize (by omega)
  have hSize : (toWordSize newMemSize * 32).toNat =
    (newMemSize.toNat + 31) / 32 * 32 := by
    rw [UInt64.toNat_mul, hWords]
    exact Nat.mod_eq_of_lt
      (by simp only [UInt64.reduceToNat]; omega)
  have hLen : mem.len.toUInt64.toNat = mem.len := by
    rw [Nat.toUInt64_eq, UInt64.toNat_ofNat']
    exact Nat.mod_eq_of_lt (by omega)
  by_cases hGrow : toWordSize newMemSize * 32 >
    mem.len.toUInt64
  · have hMore : mem.len / 32 <
      (newMemSize.toNat + 31) / 32 := by
      rw [gt_iff_lt, UInt64.lt_iff_toNat_lt,
        hSize, hLen] at hGrow
      omega
    have hTotal := toNat_newTotalFee
      (w := toWordSize newMemSize) (by omega)
    rw [hWords] at hTotal
    simp only [if_pos hGrow, Except.ok.injEq,
      Prod.mk.injEq] at hCost
    rcases hCost with ⟨rfl, rfl⟩
    have hMax : max (mem.len / 32)
      ((newMemSize.toNat + 31) / 32) =
        (newMemSize.toNat + 31) / 32 :=
          Nat.max_eq_right (Nat.le_of_lt hMore)
    have hOld : mem.lastGasCost ≤
      toWordSize newMemSize * MemoryGas +
        toWordSize newMemSize * toWordSize newMemSize /
          QuadCoeffDiv := by
      rw [UInt64.le_iff_toNat_le, hTotal, hLast]
      exact memoryFee_mono (Nat.le_of_lt hMore)
    refine ⟨hSmall, rfl, ?_, ?_⟩
    · rw [hMax, ← hTotal]
    · rw [UInt64.toNat_sub_of_le _ _ hOld,
        hTotal, hLast, hMax]
  · have hLess : (newMemSize.toNat + 31) / 32 ≤
      mem.len / 32 := by
      rw [gt_iff_lt, UInt64.lt_iff_toNat_lt,
        hSize, hLen] at hGrow
      omega
    simp only [if_neg hGrow, Except.ok.injEq,
      Prod.mk.injEq] at hCost
    rcases hCost with ⟨rfl, rfl⟩
    rw [Nat.max_eq_left hLess]
    exact ⟨hSmall, rfl, hLast, by simp⟩

end Vm

end PlasmaEvm

------------------------------------------------------------
-- The Memory Along a Frame
------------------------------------------------------------

namespace PlasmaEvm

namespace Vm

theorem SafeAdd_of_not_overflow
    {x y : UInt64}
    (hOverflow : (Math.SafeAdd x y).2 = false) :
    x.toNat + y.toNat < 2 ^ 64 ∧
      (Math.SafeAdd x y).1.toNat = x.toNat + y.toNat := by
  have hFits : y.toNat ≤ 2 ^ 64 - 1 - x.toNat := by
    have hLe : ¬ y > Math.MaxUint64 - x :=
      by simpa [Math.SafeAdd] using hOverflow
    rw [gt_iff_lt, UInt64.lt_iff_toNat_lt,
      UInt64.toNat_sub_of_le _ _ (UInt64.le_iff_toNat_le.mpr
      (Nat.le_of_lt_succ x.toNat_lt))] at hLe
    simpa [Math.MaxUint64] using hLe
  have hx := x.toNat_lt
  have hSum : x.toNat + y.toNat < 2 ^ 64 := by omega
  refine ⟨hSum, ?_⟩
  rw [Math.SafeAdd, UInt64.toNat_add, Nat.mod_eq_of_lt hSum]

theorem SafeMul_of_not_overflow
    {x y : UInt64}
    (hOverflow : (Math.SafeMul x y).2 = false) :
    (Math.SafeMul x y).1.toNat = x.toNat * y.toNat := by
  unfold Math.SafeMul at hOverflow ⊢
  by_cases hZero : x = 0 ∨ y = 0
  · rw [if_pos hZero]
    rcases hZero with rfl | rfl <;> simp
  · rw [if_neg hZero] at hOverflow ⊢
    have hx : 0 < x.toNat := by
      rcases Nat.eq_zero_or_pos x.toNat with h | h
      · exact absurd (Or.inl (UInt64.toNat_inj.mp
          (h.trans UInt64.toNat_zero.symm))) hZero
      · exact h
    have hLe : ¬ y > Math.MaxUint64 / x :=
      by simpa using hOverflow
    rw [gt_iff_lt, UInt64.lt_iff_toNat_lt,
      UInt64.toNat_div, Nat.not_lt,
      Nat.le_div_iff_mul_le hx] at hLe
    simp only [Math.MaxUint64, UInt64.reduceToNat] at hLe
    rw [UInt64.toNat_mul, Nat.mod_eq_of_lt
      (by rw [Nat.mul_comm]; omega)]

theorem UseGas_eq_some
    {gas amount gas' : UInt64}
    (hUse : UseGas gas amount = some gas') :
    amount.toNat ≤ gas.toNat ∧ gas'.toNat = gas.toNat -
      amount.toNat := by
  unfold UseGas at hUse
  by_cases hShort : gas < amount
  · rw [if_pos hShort] at hUse
    cases hUse
  · rw [if_neg hShort, Option.some.injEq] at hUse
    subst hUse
    have hLe : amount ≤ gas := UInt64.not_lt.mp hShort
    exact ⟨UInt64.le_iff_toNat_le.mp hLe,
      UInt64.toNat_sub_of_le _ _ hLe⟩

theorem Resize_len
    {m : Memory}
    {size : UInt64}
    (hLen : m.len < 2 ^ 64) :
    (m.Resize size).len = max m.len size.toNat ∧
      (m.Resize size).lastGasCost = m.lastGasCost := by
  have hToNat : m.len.toUInt64.toNat = m.len := by
    rw [Nat.toUInt64_eq, UInt64.toNat_ofNat']
    exact Nat.mod_eq_of_lt hLen
  unfold Memory.Resize
  by_cases hGrow : m.len.toUInt64 < size
  · rw [if_pos hGrow]
    rw [UInt64.lt_iff_toNat_lt, hToNat] at hGrow
    exact ⟨(Nat.max_eq_right (Nat.le_of_lt hGrow)).symm, rfl⟩
  · rw [if_neg hGrow]
    rw [UInt64.lt_iff_toNat_lt, hToNat] at hGrow
    exact ⟨(Nat.max_eq_left (Nat.le_of_not_lt hGrow)).symm, rfl⟩

/-
  One memory operation keeps the frame's memory invariant;
  its memory charge is the cost of the memory after it over
  the cost before, and the gas counter drops by exactly what
  it charges.
-/
theorem MemInv.memoryOp
    {frame frame' : Frame}
    {memSize extra fee : UInt64}
    (hInv : MemInv frame.mem)
    (hOp : memoryOp frame memSize extra =
      .ok (fee, frame')) :
    MemInv frame'.mem ∧
      fee.toNat + memoryFee (frame.mem.len / 32) =
        memoryFee (frame'.mem.len / 32) ∧
      frame.Gas.toNat = frame'.Gas.toNat + fee.toNat +
        extra.toNat := by
  unfold Vm.memoryOp at hOp
  rcases hMul : Math.SafeMul (toWordSize memSize) 32
    with ⟨memorySize, overflow⟩
  rw [hMul] at hOp
  cases overflow with
  | true => cases hOp
  | false =>
  have hSize : memorySize.toNat =
    (toWordSize memSize).toNat * 32 := by
    have hProduct := SafeMul_of_not_overflow
      (x := toWordSize memSize) (y := 32) (by rw [hMul])
    rw [hMul] at hProduct
    exact hProduct
  simp only [Bool.false_eq_true, if_false] at hOp
  rcases hCost : memoryGasCost frame.mem memorySize
    with _ | ⟨memoryGas, mem⟩
  · rw [hCost] at hOp
    cases hOp
  rw [hCost] at hOp
  rcases hAdd : Math.SafeAdd memoryGas extra
    with ⟨dynamicCost, overflow⟩
  simp only [hAdd] at hOp
  cases overflow with
  | true => cases hOp
  | false =>
  simp only [Bool.false_eq_true, if_false] at hOp
  rcases hUse : UseGas frame.Gas dynamicCost with _ | gas
  · rw [hUse] at hOp
    cases hOp
  rcases SafeAdd_of_not_overflow (x := memoryGas)
    (y := extra) (by rw [hAdd]) with ⟨-, hDynamic⟩
  simp only [hAdd] at hDynamic
  rcases UseGas_eq_some hUse with ⟨hEnough, hGas⟩
  simp only [hUse, Except.ok.injEq, Prod.mk.injEq] at hOp
  rcases hOp with ⟨rfl, rfl⟩
  rcases hInv with ⟨hWhole, hCap, hLast⟩
  rcases memoryGasCost_spec ⟨hWhole, hCap, hLast⟩ hCost
    with ⟨hSizeCap, hLenSame, hLastNew, hFee⟩
  have hWords : (memorySize.toNat + 31) / 32 =
    (toWordSize memSize).toNat := by omega
  have hAfter : (if memorySize > 0
    then mem.Resize memorySize else mem).len / 32 =
      max (frame.mem.len / 32) ((memorySize.toNat + 31) / 32) ∧
      (if memorySize > 0
        then mem.Resize memorySize
          else mem).lastGasCost = mem.lastGasCost := by
    by_cases hPos : memorySize > 0
    · rw [if_pos hPos]
      rcases @Resize_len mem memorySize (by omega)
        with ⟨hLenResized, hKept⟩
      refine ⟨?_, hKept⟩
      rw [hLenResized, hLenSame]
      omega
    · rw [if_neg hPos]
      have hZero : memorySize.toNat = 0 := by
        simpa [gt_iff_lt, UInt64.lt_iff_toNat_lt] using hPos
      refine ⟨?_, rfl⟩
      rw [hLenSame, hZero]
      omega
  have hGrows := memoryFee_mono (Nat.le_max_left
    (frame.mem.len / 32) ((memorySize.toNat + 31) / 32))
  refine ⟨⟨?_, ?_, ?_⟩, ?_, ?_⟩
  · by_cases hPos : memorySize > 0
    · rw [if_pos hPos, (Resize_len (by omega)).1, hLenSame]
      omega
    · rw [if_neg hPos, hLenSame]
      exact hWhole
  · by_cases hPos : memorySize > 0
    · rw [if_pos hPos, (Resize_len (by omega)).1, hLenSame]
      omega
    · rw [if_neg hPos, hLenSame]
      exact hCap
  · rw [hAfter.2, hAfter.1, hLastNew]
  · rw [hAfter.1, hFee]
    omega
  · dsimp only
    omega

end Vm

end PlasmaEvm

------------------------------------------------------------
-- The Memory of a Whole Frame
------------------------------------------------------------

namespace PlasmaEvm

namespace Vm

/-
  Along a frame the memory invariant holds, the memory
  charges add up to the cost of the final memory over the
  first, and the gas counter drops by exactly what is
  charged.
-/
theorem runFrame_fees :
    ∀ (ops : List (UInt64 × UInt64)) (frame frame' : Frame)
      (fees : List UInt64),
      MemInv frame.mem →
        runFrame frame ops = .ok (fees, frame') →
        MemInv frame'.mem ∧
          (fees.map UInt64.toNat).sum +
            memoryFee (frame.mem.len / 32) =
            memoryFee (frame'.mem.len / 32) ∧
          frame.Gas.toNat =
            frame'.Gas.toNat + (fees.map UInt64.toNat).sum +
              (ops.map fun op => op.2.toNat).sum := by
  intro ops
  induction ops with
  | nil =>
      intro frame frame' fees hInv hRun
      simp only [runFrame, Except.ok.injEq,
        Prod.mk.injEq] at hRun
      rcases hRun with ⟨rfl, rfl⟩
      simp [hInv]
  | cons op ops ih =>
      intro frame frame' fees hInv hRun
      rcases op with ⟨memSize, extra⟩
      simp only [runFrame, Except.bind_eq_ok,
        Except.pure_eq_ok, Prod.exists] at hRun
      rcases hRun with ⟨fee, frame₁, hOp, fees₁, frame₂,
        hRest, hResult⟩
      simp only [Prod.mk.injEq] at hResult
      rcases hResult with ⟨rfl, rfl⟩
      rcases MemInv.memoryOp hInv hOp
        with ⟨hInv₁, hFee, hGas⟩
      rcases ih frame₁ frame₂ fees₁ hInv₁ hRest
        with ⟨hInv₂, hFees, hGasRest⟩
      refine ⟨hInv₂, ?_, ?_⟩
      · simp only [List.map_cons, List.sum_cons]
        omega
      · simp only [List.map_cons, List.sum_cons]
        omega

end Vm

end PlasmaEvm

------------------------------------------------------------
-- The Gas a Call Hands On
------------------------------------------------------------

namespace PlasmaEvm

namespace Vm

/-
  Under EIP-150, with the base within the gas available,
  callGas hands on at most all but one 64th of what the base
  leaves.
-/
theorem callGas_le
    {availableGas base callGasTemp : UInt64}
    {callCost : Nat}
    (hBase : base ≤ availableGas)
    (hCall : callGas true availableGas base callCost =
      .ok callGasTemp) :
    callGasTemp.toNat ≤
      (availableGas.toNat - base.toNat) -
        (availableGas.toNat - base.toNat) / 64 := by
  have hLeft : (availableGas - base).toNat =
    availableGas.toNat - base.toNat :=
    UInt64.toNat_sub_of_le _ _ hBase
  have hSixtyFourth : (availableGas - base) / 64 ≤
    availableGas - base := by
    rw [UInt64.le_iff_toNat_le, UInt64.toNat_div]
    exact Nat.div_le_self _ _
  have hGas : (availableGas - base - (availableGas -
    base) / 64).toNat =
      (availableGas.toNat - base.toNat) -
        (availableGas.toNat - base.toNat) / 64 := by
    rw [UInt64.toNat_sub_of_le _ _ hSixtyFourth,
      UInt64.toNat_div, hLeft]
    rfl
  simp only [callGas, if_true] at hCall
  by_cases hAll : ¬ callCost < 2 ^ 64 ∨
      availableGas - base - (availableGas - base) / 64 <
        UInt64.ofNat callCost
  · rw [if_pos hAll, Except.ok.injEq] at hCall
    exact Nat.le_of_eq (hCall ▸ hGas)
  · rw [if_neg hAll] at hCall
    have hFits : callCost < 2 ^ 64 := by
      by_contra hBig
      exact hAll (Or.inl hBig)
    rw [if_neg (not_not.mpr hFits),
      Except.ok.injEq] at hCall
    have hBelow : ¬ availableGas - base - (availableGas -
      base) / 64 < UInt64.ofNat callCost :=
      fun h => hAll (Or.inr h)
    rw [← hCall, ← hGas]
    exact UInt64.le_iff_toNat_le.mp (UInt64.not_lt.mp hBelow)

/-
  What the call gas functions compute: callGas on a base of
  the own and the memory's gas.
-/
theorem gasCallWith_spec
    {own contractGas memorySize cost callGasTemp : UInt64}
    {ctx : CallContext}
    {mem mem' : Memory}
    {callCost : Nat}
    (hGas : gasCallWith own ctx contractGas mem memorySize
      callCost = .ok (cost, callGasTemp, mem')) :
    ∃ memoryGas base, memoryGasCost mem memorySize =
      .ok (memoryGas, mem') ∧
      base.toNat = own.toNat + memoryGas.toNat ∧
      callGas ctx.IsEIP150 contractGas base callCost =
        .ok callGasTemp ∧
      cost.toNat = base.toNat + callGasTemp.toNat := by
  unfold gasCallWith at hGas
  rcases hCost : memoryGasCost mem memorySize
    with _ | ⟨memoryGas, mem₁⟩
  · rw [hCost] at hGas
    cases hGas
  rw [hCost] at hGas
  simp only [Except.throw_eq_error, bind_pure_comp,
    Except.map_error, Except.error_bind,
    Except.bind_eq_ok, Except.ok.injEq,
      Except.ite_error_eq_ok, Bool.not_eq_true,
      Except.pure_eq_ok,
    Prod.mk.injEq, exists_eq_left'] at hGas
  rcases hGas with ⟨hNoFirst, callGasTemp', hCall,
    hNoSecond, hCostEq, rfl, rfl⟩
  rcases SafeAdd_of_not_overflow hNoFirst with ⟨-, hBase⟩
  rcases SafeAdd_of_not_overflow hNoSecond with ⟨-, hTotal⟩
  exact ⟨memoryGas, (Math.SafeAdd own memoryGas).1, rfl,
    hBase, hCall, hCostEq ▸ hTotal⟩

theorem SafeAdd_zero_left
    (y : UInt64) :
    Math.SafeAdd 0 y = (y, false) := by
  have hFits : y ≤ Math.MaxUint64 := by
    rw [UInt64.le_iff_toNat_le]
    have := y.toNat_lt
    simp only [Math.MaxUint64, UInt64.reduceToNat]
    omega
  simp [Math.SafeAdd, hFits]

/-
  gasDelegateCall is gasCallWith with no own gas: SafeAdd of
  0 never overflows.
-/
theorem gasDelegateCall_eq
    (ctx : CallContext)
    (contractGas : UInt64)
    (mem : Memory)
    (memorySize : UInt64)
    (callCost : Nat) :
    gasDelegateCall ctx contractGas mem memorySize callCost =
      gasCallWith 0 ctx contractGas mem memorySize callCost := by
  unfold gasDelegateCall gasCallWith
  cases memoryGasCost mem memorySize with
  | error e => rfl
  | ok r =>
      simp [bind, Except.bind, SafeAdd_zero_left,
        pure, Except.pure]

/-
  Every call opcode's gas is callGas on some base, plus what
  callGas hands on.
-/
theorem dynamicGas_spec
    {kind : CallKind}
    {ctx : CallContext}
    {contractGas memorySize cost callGasTemp : UInt64}
    {mem mem' : Memory}
    {callCost value : Nat}
    (hGas : kind.dynamicGas ctx contractGas mem memorySize
      callCost value =
      .ok (cost, callGasTemp, mem')) :
    ∃ base : UInt64, callGas ctx.IsEIP150 contractGas base
      callCost = .ok callGasTemp ∧
      cost.toNat = base.toNat + callGasTemp.toNat := by
  have hWith : ∃ own, gasCallWith own ctx contractGas mem
    memorySize callCost =
      .ok (cost, callGasTemp, mem') := by
    cases kind with
    | CALL => exact ⟨_, hGas⟩
    | CALLCODE => exact ⟨_, hGas⟩
    | DELEGATECALL =>
        exact ⟨0, (gasDelegateCall_eq ctx contractGas mem
          memorySize callCost) ▸ hGas⟩
    | STATICCALL =>
        exact ⟨0, (gasDelegateCall_eq ctx contractGas mem
          memorySize callCost) ▸ hGas⟩
  rcases hWith with ⟨own, hOwn⟩
  rcases gasCallWith_spec hOwn with ⟨-, base, -,
    -, hCall, hCost⟩
  exact ⟨base, hCall, hCost⟩

/-
  All but one 64th of what is left leaves room for the
  stipend in 64 bits.
-/
theorem callee_room
    {a : Nat}
    (ha : a < 2 ^ 64) :
    a - a / 64 + 2300 < 2 ^ 64 := by
  omega

theorem toNat_calleeGas
    (kind : CallKind)
    {callGasTemp : UInt64}
    (value : Nat)
    (hRoom : callGasTemp.toNat + 2300 < 2 ^ 64) :
    (kind.calleeGas callGasTemp value).toNat ≤
      callGasTemp.toNat + CallStipend.toNat ∧
      (kind = .DELEGATECALL ∨
        kind = .STATICCALL ∨ value = 0 →
        kind.calleeGas callGasTemp value =
          callGasTemp) := by
  have hStipend : (callGasTemp + CallStipend).toNat =
    callGasTemp.toNat + CallStipend.toNat := by
    rw [UInt64.toNat_add]
    exact Nat.mod_eq_of_lt hRoom
  cases kind with
  | CALL | CALLCODE =>
      by_cases hValue : value = 0
      · simp [CallKind.calleeGas, hValue]
      · have hMoves : (value != 0) = true :=
          by simpa using hValue
        refine ⟨?_, ?_⟩
        · simp only [CallKind.calleeGas, hMoves,
            if_true, hStipend]
          exact Nat.le_refl _
        · rintro (hKind | hKind | hZero)
          · cases hKind
          · cases hKind
          · exact absurd hZero hValue
  | DELEGATECALL | STATICCALL =>
      simp [CallKind.calleeGas]

/-
  Under EIP-150, a call whose dynamic gas is charged has a
  base within the gas available, hands on at most all but
  one 64th of what the base leaves, and the stipend when
  value moves; the gas counter drops by exactly the base and
  what is handed on.
-/
theorem callOp_spec
    {kind : CallKind}
    {ctx : CallContext}
    {frame frame' : Frame}
    {memorySize handed : UInt64}
    {callCost value : Nat}
    (hEip150 : ctx.IsEIP150 = true)
    (hOp : callOp kind ctx frame memorySize callCost value =
      .ok (handed, frame')) :
    ∃ base callGasTemp : UInt64,
      base.toNat ≤ frame.Gas.toNat ∧
      callGasTemp.toNat ≤ (frame.Gas.toNat - base.toNat) -
        (frame.Gas.toNat - base.toNat) / 64 ∧
      frame'.Gas.toNat = frame.Gas.toNat - base.toNat -
        callGasTemp.toNat ∧
      handed = kind.calleeGas callGasTemp value := by
  unfold callOp at hOp
  rcases hGas : kind.dynamicGas ctx frame.Gas frame.mem
    memorySize callCost value with
    _ | ⟨cost, callGasTemp, mem⟩
  · rw [hGas] at hOp
    cases hOp
  rw [hGas] at hOp
  rcases hUse : UseGas frame.Gas cost with _ | gas
  · simp only [hUse] at hOp
    cases hOp
  simp only [hUse, Except.ok.injEq, Prod.mk.injEq] at hOp
  rcases hOp with ⟨rfl, rfl⟩
  rcases dynamicGas_spec hGas with ⟨base, hCall, hCost⟩
  rcases UseGas_eq_some hUse with ⟨hEnough, hLeft⟩
  have hBase : base ≤ frame.Gas := by
    rw [UInt64.le_iff_toNat_le]
    omega
  rw [hEip150] at hCall
  refine ⟨base, callGasTemp, UInt64.le_iff_toNat_le.mp
    hBase, callGas_le hBase hCall, ?_, rfl⟩
  dsimp only
  omega

end Vm

end PlasmaEvm

------------------------------------------------------------
-- Gas Accounting of a Frame
------------------------------------------------------------

namespace PlasmaEvm

namespace Vm

/-
  A frame ends with its memory in whole words within the cap
  and lastGasCost the cost C of its words.  The memory
  charges of a frame add up to the cost C of its final
  memory, each the cost of the words after over the cost of
  those before, with no wraparound; and under EIP-150 a
  charged call has a base within the gas available, hands on
  at most all but one 64th of what the base leaves, plus the
  stipend when value moves, and takes from the caller
  exactly the base and what it hands on.
-/
theorem gas_accounting_exact :
    (∀ (ops : List (UInt64 × UInt64)) (gas : UInt64)
      (fees : List UInt64) (frame : Frame),
      runFrame ⟨gas, newMemory⟩ ops = .ok (fees, frame) →
        MemInv frame.mem ∧
        (fees.map UInt64.toNat).sum =
          memoryFee (frame.mem.len / 32) ∧
          gas.toNat = frame.Gas.toNat +
            (fees.map UInt64.toNat).sum +
            (ops.map fun op => op.2.toNat).sum ∧
          ∀ (newMemSize fee : UInt64) (mem' : Memory),
            memoryGasCost frame.mem newMemSize =
              .ok (fee, mem') →
              fee.toNat = memoryFee (max
                (frame.mem.len / 32)
                ((newMemSize.toNat + 31) / 32)) -
                memoryFee (frame.mem.len / 32)) ∧
      ∀ (kind : CallKind) (ctx : CallContext)
        (frame frame' : Frame) (memorySize handed : UInt64)
        (callCost value : Nat),
        ctx.IsEIP150 = true → callOp kind ctx frame
          memorySize callCost value = .ok (handed, frame') →
          ∃ base callGasTemp : UInt64,
            base.toNat ≤ frame.Gas.toNat ∧
            callGasTemp.toNat ≤ (frame.Gas.toNat -
              base.toNat) - (frame.Gas.toNat - base.toNat) / 64 ∧
            frame'.Gas.toNat = frame.Gas.toNat -
              base.toNat - callGasTemp.toNat ∧
            handed.toNat ≤
              callGasTemp.toNat + CallStipend.toNat ∧
            (kind = .DELEGATECALL ∨ kind = .STATICCALL ∨
              value = 0 → handed = callGasTemp) := by
  constructor
  · intro ops gas fees frame hRun
    rcases runFrame_fees ops ⟨gas,
      newMemory⟩ frame fees MemInv.newMemory hRun with
      ⟨hInv, hFees, hGas⟩
    refine ⟨hInv,
      by simpa [newMemory, memoryFee] using hFees, hGas, ?_⟩
    intro newMemSize fee mem' hCost
    exact (memoryGasCost_spec hInv hCost).2.2.2
  · intro kind ctx frame frame' memorySize handed callCost
      value hEip150 hOp
    rcases callOp_spec hEip150 hOp
      with ⟨base, callGasTemp, hBase, hBound, hLeft, rfl⟩
    have hRoom : callGasTemp.toNat + 2300 < 2 ^ 64 := by
      have hLt := callee_room (Nat.lt_of_le_of_lt
        (Nat.sub_le frame.Gas.toNat base.toNat)
        frame.Gas.toNat_lt)
      omega
    rcases toNat_calleeGas kind value hRoom
      with ⟨hHanded, hNoStipend⟩
    exact ⟨base, callGasTemp, hBase, hBound, hLeft,
      hHanded, hNoStipend⟩

/-
  A CALL moving value, with 100000 gas left, no new account
  and the whole gas asked for: the base is 9000, callGasTemp
  is 89579, all but one 64th of the 91000 left, and the
  callee gets 91879 with the stipend.
-/
theorem call_stipend_exceeds_all_but_one_64th :
    callOp .CALL ⟨true, true, false, true⟩ ⟨100000,
      newMemory⟩ 0 (2 ^ 64) 1 =
        .ok (91879, ⟨100000 - 98579, newMemory⟩) ∧
      (100000 - 9000) - (100000 - 9000) / 64 < 91879 := by
  constructor
  · decide
  · decide

end Vm

end PlasmaEvm
