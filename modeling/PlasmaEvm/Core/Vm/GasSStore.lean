import PlasmaEvm.Core.State.Storage

/-
  The gas of SSTORE and the refund counter (gas_table.go).
  Before Constantinople, and again from Petersburg,
  gasSStore charges by the zeroness of the current and the
  new value and refunds the clearing of a slot.  Net gas
  metering (EIP-1283 in Constantinople, EIP-2200 in
  Istanbul, which adds the reentrancy sentry) also reads the
  value the slot had when the transaction began, and may
  take a clear refund back with SubRefund, which panics
  below zero.

  A transaction runs as call frames: each takes a snapshot,
  runs the callee's operations and reverts to the snapshot
  when it fails.  An SSTORE runs its dynamic gas and then,
  if the gas is there, its write; the frame stops at once
  when the gas is not there.

  Key definitions include:
    * `Vm.gasSStore`, `Vm.gasSStoreEIP2200`, `Vm.netSStore`,
      `Vm.opSstore`
    * `Vm.sstoreStep`, `Vm.Op`, `Vm.interpretOps`,
      `Vm.interpretOp`
-/

------------------------------------------------------------
-- The Gas Functions
------------------------------------------------------------

namespace PlasmaEvm

namespace Vm

open PlasmaEvm.State

/-
  The gas constants of SSTORE (params/protocol_params.go).
-/
def SstoreSetGas : UInt64 := 20000

def SstoreResetGas : UInt64 := 5000

def SstoreClearGas : UInt64 := 5000

def SstoreRefundGas : UInt64 := 15000

def NetSstoreNoopGas : UInt64 := 200

def NetSstoreInitGas : UInt64 := 20000

def NetSstoreCleanGas : UInt64 := 5000

def NetSstoreDirtyGas : UInt64 := 200

def NetSstoreClearRefund : UInt64 := 15000

def NetSstoreResetRefund : UInt64 := 4800

def NetSstoreResetClearRefund : UInt64 := 19800

def SstoreSentryGasEIP2200 : UInt64 := 2300

def SstoreNoopGasEIP2200 : UInt64 := 800

def SstoreDirtyGasEIP2200 : UInt64 := 800

def SstoreInitGasEIP2200 : UInt64 := 20000

def SstoreInitRefundEIP2200 : UInt64 := 19200

def SstoreCleanGasEIP2200 : UInt64 := 5000

def SstoreCleanRefundEIP2200 : UInt64 := 4200

def SstoreClearRefundEIP2200 : UInt64 := 15000

/-
  The fork rules that choose SSTORE's gas (params.Rules).
-/
structure Rules where
  IsConstantinople : Bool
  IsPetersburg : Bool
  IsIstanbul : Bool
  deriving DecidableEq, Repr

/-
  The gas and refunds of net gas metering, which EIP-1283
  and EIP-2200 set apart.
-/
structure NetGas where
  noop : UInt64
  init : UInt64
  clean : UInt64
  dirty : UInt64
  clearRefund : UInt64
  initRefund : UInt64
  cleanRefund : UInt64

/- The net gas metering of EIP-1283, in Constantinople. -/
def netGasEIP1283 : NetGas :=
  ⟨NetSstoreNoopGas, NetSstoreInitGas, NetSstoreCleanGas,
    NetSstoreDirtyGas,
    NetSstoreClearRefund, NetSstoreResetClearRefund,
      NetSstoreResetRefund⟩

/- The net gas metering of EIP-2200, from Istanbul on. -/
def netGasEIP2200 : NetGas :=
  ⟨SstoreNoopGasEIP2200, SstoreInitGasEIP2200,
    SstoreCleanGasEIP2200, SstoreDirtyGasEIP2200,
    SstoreClearRefundEIP2200, SstoreInitRefundEIP2200,
      SstoreCleanRefundEIP2200⟩

variable {H : Type} [DecidableEq H] [Inhabited H]
variable (db : Database H)

/-
  Net gas metering of a write of `y` to the slot `x` of the
  contract at `addr`: the part gasSStore (EIP-1283) and
  gasSStoreEIP2200 share. none stands for the panic of
  SubRefund.
-/
def netSStore
    (g : NetGas)
    (s : StateDB H)
    (addr : Address)
    (x y : H) : Option (UInt64 × StateDB H) :=
  let current := s.GetState db addr x
  let value := y
  if current = value then some (g.noop, s)
  else
    let original := s.GetCommittedState db addr x
    if original = current then
      if original = zeroHash then some (g.init, s)
      else if value = zeroHash then some (g.clean,
        s.AddRefund g.clearRefund)
      else some (g.clean, s)
    else do
      let s ← if original ≠ zeroHash then
          if current = zeroHash
            then s.SubRefund g.clearRefund
          else if value = zeroHash then some (s.AddRefund g.clearRefund)
          else some s
        else some s
      let s := if original = value then
          if original = zeroHash
            then s.AddRefund g.initRefund
          else s.AddRefund g.cleanRefund
        else s
      some (g.dirty, s)

/-
  gasSStore: the legacy metering by zeroness before
  Constantinople and from Petersburg on, net gas metering
  (EIP-1283) in between.
-/
def gasSStore
    (rules : Rules)
    (s : StateDB H)
    (addr : Address)
    (x y : H) : Option (Except String UInt64 × StateDB H) :=
  let current := s.GetState db addr x
  if rules.IsPetersburg || !rules.IsConstantinople then
    if current = zeroHash ∧ y ≠ zeroHash
      then some (.ok SstoreSetGas, s)
    else if current ≠ zeroHash ∧ y = zeroHash then
      some (.ok SstoreClearGas, s.AddRefund SstoreRefundGas)
    else some (.ok SstoreResetGas, s)
  else
    (netSStore db netGasEIP1283 s addr x y).map
      fun (gas, s) => (.ok gas, s)

/-
  gasSStoreEIP2200: net gas metering behind the reentrancy
  sentry.
-/
def gasSStoreEIP2200
    (contractGas : UInt64)
    (s : StateDB H)
    (addr : Address)
    (x y : H) : Option (Except String UInt64 × StateDB H) :=
  if contractGas ≤ SstoreSentryGasEIP2200 then
    some (.error "not enough gas for reentrancy sentry", s)
  else
    (netSStore db netGasEIP2200 s addr x y).map
      fun (gas, s) => (.ok gas, s)

/-
  The dynamic gas of SSTORE in the jump table of the rules:
  gasSStoreEIP2200 from Istanbul on.
-/
def sstoreDynamicGas
    (rules : Rules)
    (contractGas : UInt64)
    (s : StateDB H)
    (addr : Address)
    (x y : H) : Option (Except String UInt64 × StateDB H) :=
  if rules.IsIstanbul
    then gasSStoreEIP2200 db contractGas s addr x y
  else gasSStore db rules s addr x y

/-
  opSstore: write the value at the location in the
  contract's storage.
-/
def opSstore
    (s : StateDB H)
    (addr : Address)
    (loc val : H) : StateDB H :=
  s.SetState db addr loc val

/-
  An SSTORE in the interpreter loop: its dynamic gas, then
  the write if the contract has the gas; false when the
  frame stops with an error (ErrOutOfGas).
-/
def sstoreStep
    (rules : Rules)
    (contractGas : UInt64)
    (s : StateDB H)
    (addr : Address)
    (loc val : H) : Option (StateDB H × Bool) := do
  let (cost, s) ← sstoreDynamicGas db rules
    contractGas s addr loc val
  match cost with
  | .error _ => some (s, false)
  | .ok cost =>
      if contractGas < cost then some (s, false)
      else some (opSstore db s addr loc val, true)

end Vm

end PlasmaEvm

------------------------------------------------------------
-- Call Frames
------------------------------------------------------------

namespace PlasmaEvm

namespace Vm

open PlasmaEvm.State

/-
  The changes of the state only SSTORE makes: a write, and
  taking a refund back.
-/
def bySStore {H : Type} : Mutation H → Bool
  | .SetState _ _ _ => true
  | .SubRefund _ => true
  | _ => false

/-
  What a transaction does to the state, as the interpreter
  and the calls run it.
-/
inductive Op (H : Type) where
  /-
    SSTORE of `value` at `key` by the contract at `addr`,
    with `gas` left
  -/
  | SSTORE (addr : Address) (key value : H) (gas : UInt64)
  /-
    any change another instruction makes: balances, nonces,
    code, SELFDESTRUCT
     with its refund, the account of CREATE, logs and
     preimages
  -/
  | change (m : Mutation H) (hm : bySStore m = false)
  /-
    a call or a creation: the callee's operations, and
    whether it ends in an error
  -/
  | call (body : List (Op H)) (reverted : Bool)

variable {H : Type} [DecidableEq H] [Inhabited H]
variable (db : Database H)

mutual

/-
  Run a frame's operations; false once one stops the frame
  with an error.
-/
def interpretOps
    (rules : Rules) :
    List (Op H) → StateDB H → Option (StateDB H × Bool)
  | [], s => some (s, true)
  | op :: ops, s => do
      let (s, ok) ← interpretOp rules op s
      if ok
        then interpretOps rules ops s else some (s, false)

/-
  Run one operation; none when the code panics.  A call
  takes a snapshot and reverts to it when the callee fails;
  the caller goes on.
-/
def interpretOp
    (rules : Rules) :
    Op H → StateDB H → Option (StateDB H × Bool)
  | .SSTORE addr key value gas, s =>
      sstoreStep db rules gas s addr key value
  | .change m _, s => (m.apply db s).map fun s => (s, true)
  | .call body reverted, s => do
      let (snapshot, s) := s.Snapshot
      let (s, ok) ← interpretOps rules body s
      if ok && !reverted then some (s, true)
      else do
        let s ← s.RevertToSnapshot db snapshot
        some (s, true)

end

end Vm

end PlasmaEvm

------------------------------------------------------------
-- What the Gas of SSTORE Does to the State
------------------------------------------------------------

namespace PlasmaEvm

namespace Vm

open PlasmaEvm.State

variable {H : Type} [DecidableEq H] [Inhabited H]
variable (db : Database H)

/-
  What a run of a frame keeps of the state it starts from:
  the entries it appends undo it, on the view and on the
  committed storage; the invariant holds; the revisions of
  the start stay in front.
-/
structure Extends (s t : StateDB H) : Prop where
  reverts : StateDB.RevertsCommitted db s t
  wellFormed : t.WellFormed
  revisions : ∃ more,
    t.validRevisions = s.validRevisions ++ more

variable {db}

theorem Extends.refl
    {s : StateDB H}
    (hWF : s.WellFormed) :
    Extends db s s :=
  ⟨StateDB.RevertsCommitted.of_view rfl rfl,
    hWF, [], by simp⟩

theorem Extends.trans
    {s t u : StateDB H}
    (h₁ : Extends db s t)
    (h₂ : Extends db t u) :
    Extends db s u := by
  obtain ⟨more₁, hMore₁⟩ := h₁.revisions
  obtain ⟨more₂, hMore₂⟩ := h₂.revisions
  exact ⟨h₁.reverts.trans h₂.reverts, h₂.wellFormed,
    more₁ ++ more₂,
    by rw [hMore₂, hMore₁, List.append_assoc]⟩

/-
  Every change of the StateDB extends the state it is made
  in.
-/
theorem Extends.apply
    {s t : StateDB H}
    (hWF : s.WellFormed)
    {m : Mutation H}
    (hApply : m.apply db s = some t) :
    Extends db s t :=
  ⟨StateDB.RevertsCommitted.apply hWF hApply,
    (StateDB.Reverts.apply hWF hApply).2,
    StateDB.validRevisions_apply hApply⟩

/-
  AddRefund adds its amount when the counter does not wrap.
-/
omit [DecidableEq H] [Inhabited H] in
theorem toNat_AddRefund
    (s : StateDB H)
    (gas : UInt64)
    (hRoom : s.refund.toNat + gas.toNat < 2 ^ 64) :
    (s.AddRefund gas).refund.toNat = s.refund.toNat +
      gas.toNat := by
  show (s.refund + gas).toNat = _
  rw [UInt64.toNat_add, Nat.mod_eq_of_lt hRoom]

/-
  AddRefund leaves the objects; stated for any amount, so no
  literal is unfolded.
-/
omit [DecidableEq H] [Inhabited H] in
theorem AddRefund_stateObjects
    (s : StateDB H)
    (gas : UInt64) :
    (s.AddRefund gas).stateObjects = s.stateObjects := rfl

/-
  SubRefund of no more than the counter returns, and takes
  the amount off.
-/
omit [DecidableEq H] [Inhabited H] in
theorem SubRefund_spec
    (s : StateDB H)
    {gas : UInt64}
    (hLe : gas ≤ s.refund) :
    ∃ t, s.SubRefund gas = some t ∧
      t.stateObjects = s.stateObjects ∧
      t.refund.toNat = s.refund.toNat - gas.toNat := by
  unfold StateDB.SubRefund
  rw [if_neg (UInt64.not_lt.mpr hLe)]
  exact ⟨_, rfl, rfl, UInt64.toNat_sub_of_le _ _ hLe⟩

/-
  One for a slot whose original value is not zero and whose
  value is: one clear refund.
-/
def clearCount (original value : H) : Nat :=
  if original ≠ zeroHash ∧ value = zeroHash then 1 else 0

/- The largest refund one net metered SSTORE adds. -/
def NetGas.refundBound (g : NetGas) : Nat :=
  max g.clearRefund.toNat (max g.initRefund.toNat
    g.cleanRefund.toNat)

/-
  What a gas function does to the state: it changes the
  refund counter and the journal only, and adds at most
  `bound`.
-/
variable (db) in
structure RefundsOnly
    (s t : StateDB H)
    (bound : Nat) :
    Prop where
  extension : Extends db s t
  stateObjects : t.stateObjects = s.stateObjects
  le_bound : t.refund.toNat ≤ s.refund.toNat + bound

/- A gas function that leaves the state changes nothing. -/
theorem RefundsOnly.refl
    {s : StateDB H}
    (hWF : s.WellFormed)
    (bound : Nat) :
    RefundsOnly db s s bound :=
  ⟨Extends.refl hWF, rfl, Nat.le_add_right _ _⟩

/-
  AddRefund after a step that only extended the journal:
  the counter rises by the amount, which must stay within
  the bound.
-/
theorem RefundsOnly.AddRefund
    {s u : StateDB H}
    {bound : Nat}
    (hExt : Extends db s u)
    (hObjects : u.stateObjects = s.stateObjects)
    (gas : UInt64)
    (hFits : u.refund.toNat + gas.toNat < 2 ^ 64)
    (hLe : u.refund.toNat + gas.toNat ≤
      s.refund.toNat + bound) :
    RefundsOnly db s (u.AddRefund gas) bound := by
  have hApply : (Mutation.AddRefund gas).apply db u =
      some (u.AddRefund gas) := rfl
  refine ⟨hExt.trans (Extends.apply hExt.wellFormed hApply),
    hObjects, ?_⟩
  rw [toNat_AddRefund u gas hFits]
  exact hLe

/-
  Net gas metering, branch by branch: it returns where a
  slot that holds a clear refund has it in the counter, adds
  at most the largest refund, and adds a clear refund for a
  slot the write will clear, or takes one back for a slot it
  will fill again.  The cases are the branches of the
  EIP-2200 rules: a noop (1); a clean slot created (2.1.1),
  deleted (2.1.2b) or written (2.1.2); and a dirty slot
  (2.2), recreated (2.2.1.1), when the clear refund it held
  is taken back, deleted (2.2.1.2), or reset to an original
  that is inexistent (2.2.2.1) or existing (2.2.2.2).
-/
theorem netSStore_spec
    (g : NetGas)
    {s : StateDB H}
    (hWF : s.WellFormed)
    (addr : Address)
    (x y : H)
    (hSub : s.GetCommittedState db addr x ≠ zeroHash →
      s.GetState db addr x = zeroHash →
      g.clearRefund ≤ s.refund)
    (hRoom : s.refund.toNat + g.refundBound < 2 ^ 64) :
    ∃ gas t, netSStore db g s addr x y = some (gas, t) ∧
      RefundsOnly db s t g.refundBound ∧
      s.refund.toNat + g.clearRefund.toNat *
        clearCount (s.GetCommittedState db addr x) y ≤
        t.refund.toNat + g.clearRefund.toNat *
          clearCount (s.GetCommittedState db addr x)
            (s.GetState db addr x) := by
  have hBound : g.clearRefund.toNat ≤ g.refundBound ∧
    g.initRefund.toNat ≤ g.refundBound ∧
      g.cleanRefund.toNat ≤ g.refundBound := by
    simp only [NetGas.refundBound]
    omega
  unfold netSStore
  simp only []
  generalize hc : s.GetState db addr x = c at hSub ⊢
  generalize ho : s.GetCommittedState db addr x = o at hSub ⊢
  by_cases hNoop : c = y
  · rw [if_pos hNoop, hNoop]
    exact ⟨_, _, rfl, .refl hWF _, le_rfl⟩
  rw [if_neg hNoop]
  by_cases hClean : o = c
  · rw [if_pos hClean]
    by_cases hInit : o = zeroHash
    · rw [if_pos hInit]
      exact ⟨_, _, rfl, .refl hWF _,
        by simp [clearCount, hInit]⟩
    rw [if_neg hInit]
    by_cases hDelete : y = zeroHash
    · rw [if_pos hDelete]
      have hRefund := toNat_AddRefund s g.clearRefund
        (by omega)
      refine ⟨_, _, rfl, .AddRefund (Extends.refl hWF) rfl _
        (by omega) (by omega), ?_⟩
      simp [clearCount, hInit, hDelete, ← hClean, hRefund]
    · rw [if_neg hDelete]
      exact ⟨_, _, rfl, .refl hWF _,
        by simp [clearCount, hDelete]⟩
  rw [if_neg hClean]
  by_cases hOrig : o = zeroHash
  · rw [if_neg (not_not_intro hOrig), Option.bind_eq_bind,
      Option.bind_some]
    by_cases hReset : o = y
    · rw [if_pos hReset, if_pos hOrig]
      have hRefund := toNat_AddRefund s g.initRefund
        (by omega)
      exact ⟨_, _, rfl, .AddRefund (Extends.refl hWF) rfl _
        (by omega) (by omega),
        by simp [clearCount, hOrig, hRefund]⟩
    · rw [if_neg hReset]
      exact ⟨_, _, rfl, .refl hWF _,
        by simp [clearCount, hOrig]⟩
  rw [if_pos hOrig]
  by_cases hRecreate : c = zeroHash
  · rw [if_pos hRecreate]
    have hLe := hSub hOrig hRecreate
    obtain ⟨u, hSubRefund, hUObjects, hURefund⟩ :=
      SubRefund_spec s hLe
    have hUExt : Extends db s u := Extends.apply hWF
      (show (Mutation.SubRefund g.clearRefund).apply db s =
        some u from hSubRefund)
    have hLeNat : g.clearRefund.toNat ≤ s.refund.toNat :=
      UInt64.le_iff_toNat_le.mp hLe
    have hValue : y ≠ zeroHash := fun h =>
      hNoop (hRecreate.trans h.symm)
    have hCount : clearCount o y = 0 ∧
      clearCount o c = 1 := by
      simp [clearCount, hOrig, hRecreate, hValue]
    rw [hSubRefund, Option.bind_eq_bind, Option.bind_some,
      hCount.1, hCount.2]
    by_cases hReset : o = y
    · rw [if_pos hReset, if_neg hOrig]
      have hRefund := toNat_AddRefund u g.cleanRefund
        (by omega)
      refine ⟨_, _, rfl, .AddRefund hUExt hUObjects _
        (by omega) (by omega), ?_⟩
      rw [hRefund, hURefund]
      omega
    · rw [if_neg hReset]
      refine ⟨_, _, rfl, ⟨hUExt, hUObjects, by omega⟩, ?_⟩
      rw [hURefund]
      omega
  rw [if_neg hRecreate]
  by_cases hDelete : y = zeroHash
  · rw [if_pos hDelete, Option.bind_eq_bind,
      Option.bind_some, if_neg (fun h =>
      hOrig (h.trans hDelete))]
    have hRefund := toNat_AddRefund s g.clearRefund
      (by omega)
    refine ⟨_, _, rfl, .AddRefund (Extends.refl hWF) rfl _
      (by omega) (by omega), ?_⟩
    simp [clearCount, hOrig, hRecreate, hDelete, hRefund]
  rw [if_neg hDelete, Option.bind_eq_bind, Option.bind_some]
  by_cases hReset : o = y
  · rw [if_pos hReset, if_neg hOrig]
    have hRefund := toNat_AddRefund s g.cleanRefund
      (by omega)
    exact ⟨_, _, rfl, .AddRefund (Extends.refl hWF) rfl _
      (by omega) (by omega),
      by simp [clearCount, hDelete, hRecreate]; omega⟩
  · rw [if_neg hReset]
    exact ⟨_, _, rfl, .refl hWF _,
      by simp [clearCount, hDelete]⟩

theorem RefundsOnly.mono
    {s t : StateDB H}
    {b b' : Nat}
    (h : RefundsOnly db s t b)
    (hb : b ≤ b') :
    RefundsOnly db s t b' :=
  ⟨h.extension, h.stateObjects,
    by have := h.le_bound; omega⟩

/- The largest refund one SSTORE adds, under any rules. -/
def sstoreRefundBound : Nat :=
  NetSstoreResetClearRefund.toNat

/-
  The legacy metering refunds the clearing of a slot and
  takes nothing back.  A write from 0 to non 0 adds nothing,
  one from non 0 to 0 the clear refund, and any other keeps
  the slot's zeroness.
-/
theorem gasSStore_spec
    (rules : Rules)
    {s : StateDB H}
    (hWF : s.WellFormed)
    (addr : Address)
    (x y : H)
    (hSub : s.GetCommittedState db addr x ≠ zeroHash →
      s.GetState db addr x = zeroHash →
      NetSstoreClearRefund ≤ s.refund)
    (hRoom : s.refund.toNat + sstoreRefundBound < 2 ^ 64) :
    ∃ gas t,
      gasSStore db rules s addr x y = some (.ok gas, t) ∧
      RefundsOnly db s t sstoreRefundBound ∧
      s.refund.toNat + NetSstoreClearRefund.toNat *
        clearCount (s.GetCommittedState db addr x) y ≤
        t.refund.toNat + NetSstoreClearRefund.toNat *
          clearCount (s.GetCommittedState db addr x)
            (s.GetState db addr x) := by
  unfold gasSStore
  simp only []
  split
  · have hFits : s.refund.toNat + SstoreRefundGas.toNat <
        2 ^ 64 := by
      have hLe : SstoreRefundGas.toNat ≤
        sstoreRefundBound := by
        decide
      omega
    have hRefund := toNat_AddRefund s SstoreRefundGas hFits
    have hClearNat : NetSstoreClearRefund.toNat = 15000 := rfl
    have hRefundNat : SstoreRefundGas.toNat = 15000 := rfl
    have hBoundNat : sstoreRefundBound = 19800 := rfl
    generalize hc : s.GetState db addr x = c
    generalize ho : s.GetCommittedState db addr x = o
    by_cases hSet : c = zeroHash ∧ y ≠ zeroHash
    · rw [if_pos hSet]
      exact ⟨_, _, rfl, .refl hWF _,
        by simp [clearCount, hSet.2]⟩
    rw [if_neg hSet]
    by_cases hClear : c ≠ zeroHash ∧ y = zeroHash
    · rw [if_pos hClear]
      refine ⟨_, _, rfl, .AddRefund (Extends.refl hWF) rfl _
        hFits (by omega), ?_⟩
      have hCount : clearCount o y ≤ 1 ∧
        clearCount o c = 0 :=
        ⟨by unfold clearCount; split <;> omega,
          by simp [clearCount, hClear.1]⟩
      rw [hRefund, hClearNat, hRefundNat]
      omega
    · rw [if_neg hClear]
      have hSame : clearCount o y = clearCount o c := by
        by_cases hY : y = zeroHash
        · have hC : c = zeroHash :=
            Classical.byContradiction fun hC =>
            hClear ⟨hC, hY⟩
          rw [hY, hC]
        · have hC : c ≠ zeroHash := fun hC => hSet ⟨hC, hY⟩
          simp [clearCount, hY, hC]
      exact ⟨_, _, rfl, .refl hWF _, by rw [hSame]⟩
  · obtain ⟨gas, t, hNet, hOnly, hCount⟩ :=
      netSStore_spec netGasEIP1283 hWF addr x y hSub hRoom
    exact ⟨gas, t, by rw [hNet]; rfl, hOnly, hCount⟩

/-
  Net gas metering behind the sentry, within the bound of
  every SSTORE.
-/
theorem gasSStoreEIP2200_spec
    (contractGas : UInt64)
    {s : StateDB H}
    (hWF : s.WellFormed)
    (addr : Address)
    (x y : H)
    (hSub : s.GetCommittedState db addr x ≠ zeroHash →
      s.GetState db addr x = zeroHash →
      NetSstoreClearRefund ≤ s.refund)
    (hRoom : s.refund.toNat + sstoreRefundBound < 2 ^ 64) :
    ∃ cost t, gasSStoreEIP2200 db contractGas s addr x y =
      some (cost, t) ∧
      RefundsOnly db s t sstoreRefundBound ∧
      ∀ gas, cost = .ok gas →
        s.refund.toNat + NetSstoreClearRefund.toNat *
          clearCount (s.GetCommittedState db addr x) y ≤
          t.refund.toNat + NetSstoreClearRefund.toNat *
            clearCount (s.GetCommittedState db addr x)
              (s.GetState db addr x) := by
  unfold gasSStoreEIP2200
  split
  · exact ⟨_, _, rfl, .refl hWF _,
      fun _ hOk => by cases hOk⟩
  · have hBound : netGasEIP2200.refundBound ≤
      sstoreRefundBound := by decide
    obtain ⟨gas, t, hNet, hOnly, hCount⟩ :=
      netSStore_spec netGasEIP2200 hWF addr x y hSub (by omega)
    exact ⟨_, t, by rw [hNet]; rfl, hOnly.mono hBound,
      fun _ _ => hCount⟩

/-
  The dynamic gas of SSTORE changes only the refund counter,
  by at most the bound, and gives a clear refund for the
  slot it will clear; it does not panic where a slot that
  holds a clear refund has it in the counter.
-/
theorem sstoreDynamicGas_spec
    (rules : Rules)
    (contractGas : UInt64)
    {s : StateDB H}
    (hWF : s.WellFormed)
    (addr : Address)
    (x y : H)
    (hSub : s.GetCommittedState db addr x ≠ zeroHash →
      s.GetState db addr x = zeroHash →
      NetSstoreClearRefund ≤ s.refund)
    (hRoom : s.refund.toNat + sstoreRefundBound < 2 ^ 64) :
    ∃ cost t, sstoreDynamicGas db rules contractGas s addr x
      y = some (cost, t) ∧
      RefundsOnly db s t sstoreRefundBound ∧
      ∀ gas, cost = .ok gas →
        s.refund.toNat + NetSstoreClearRefund.toNat *
          clearCount (s.GetCommittedState db addr x) y ≤
          t.refund.toNat + NetSstoreClearRefund.toNat *
            clearCount (s.GetCommittedState db addr x)
              (s.GetState db addr x) := by
  unfold sstoreDynamicGas
  split
  · exact gasSStoreEIP2200_spec contractGas hWF
      addr x y hSub hRoom
  · obtain ⟨gas, t, hGas, hOnly, hCount⟩ :=
      gasSStore_spec rules hWF addr x y hSub hRoom
    exact ⟨_, t, hGas, hOnly, fun _ _ => hCount⟩

end Vm

end PlasmaEvm
