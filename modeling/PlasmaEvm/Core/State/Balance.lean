import PlasmaEvm.Core.State.Revert
import Mathlib.Algebra.BigOperators.Group.Finset.Piecewise

/-
  The balances a StateDB reads under its changes.
  AddBalance and SubBalance move the balance of their
  address by the amount and leave every other balance as it
  was; SetNonce leaves every balance.  Summed over a set of
  accounts, a credit adds its amount when its account is in
  the set, and a debit takes it off.

  Key statements include:
    * `StateDB.readStateObject_updateObject`,
      `StateDB.readStateObject_updateObject_of_keeps`
    * `StateDB.GetBalance_updateObject`
    * `StateDB.WellFormed.AddBalance`,
      `StateDB.WellFormed.SubBalance`
    * `StateDB.GetBalance_AddBalance`,
      `StateDB.GetBalance_SubBalance`
    * `StateDB.sum_GetBalance_AddBalance`,
      `StateDB.sum_GetBalance_SubBalance`
-/

------------------------------------------------------------
-- Reading After a Change
------------------------------------------------------------

namespace PlasmaEvm

namespace State

namespace StateDB

variable {H : Type} [DecidableEq H] [Inhabited H]
variable {db : Database H}

/-
  A getter after an object is stored reads that object at
  its address.
-/
theorem readStateObject_setStateObject
    {α : Type}
    (s : StateDB H)
    (o : StateObject H)
    (addr : Address)
    (read : StateObject H → α)
    (zero : α) :
    (s.setStateObject o).readStateObject db addr read zero =
      if addr = o.address
        then (if o.deleted then zero else read o)
      else s.readStateObject db addr read zero := by
  unfold readStateObject getStateObject
  rw [getDeletedStateObject_setStateObject]
  by_cases hAddr : addr = o.address
  · cases hDeleted : o.deleted <;> simp [hAddr,
      hDeleted, Option.filter]
  · simp [hAddr]

/-
  The object GetOrNewStateObject hands out: the live one,
  else a fresh one.
-/
theorem GetOrNewStateObject_fst
    (s : StateDB H)
    (addr : Address) :
    (s.GetOrNewStateObject db addr).1 =
      (s.getStateObject db addr).getD
        (s.createObject db addr).1.1 := by
  unfold GetOrNewStateObject
  cases s.getStateObject db addr <;> rfl

/-
  GetOrNewStateObject changes no read at another address.
-/
theorem readStateObject_GetOrNewStateObject
    (s : StateDB H)
    {addr b : Address}
    (hB : b ≠ addr)
    {α : Type}
    (read : StateObject H → α)
    (zero : α) :
    (s.GetOrNewStateObject db addr).2.readStateObject
      db b read zero =
      s.readStateObject db b read zero := by
  unfold GetOrNewStateObject
  cases s.getStateObject db addr with
  | some obj => rfl
  | none =>
      simp only [createObject]
      rw [readStateObject_setStateObject]
      simp only [StateObject.setNonce_address,
        StateObject.newObject_address, hB, if_false]
      rfl

/-
  The object GetOrNewStateObject hands out reads as the
  address does, where a fresh one reads nothing.
-/
theorem read_GetOrNewStateObject
    (s : StateDB H)
    (addr : Address)
    {α : Type}
    (read : StateObject H → α)
    (zero : α)
    (hFresh : read (s.createObject db addr).1.1 = zero) :
    read (s.GetOrNewStateObject db addr).1 =
      s.readStateObject db addr read zero := by
  rw [GetOrNewStateObject_fst]
  unfold readStateObject
  cases s.getStateObject db addr with
  | some obj => rfl
  | none => exact hFresh

/-
  A change of the object at `addr` that keeps its address
  and its deleted flag is read at `addr` as the changed
  object, and leaves every other read.
-/
theorem readStateObject_updateObject
    {s : StateDB H}
    (hWF : s.WellFormed)
    (addr b : Address)
    {change : StateObject H → Journal H →
      StateObject H × Journal H}
    (hAddress : ∀ o j, (change o j).1.address = o.address)
    (hDeleted : ∀ o j, (change o j).1.deleted = o.deleted)
    {α : Type}
    (read : StateObject H → α)
    (zero : α) :
    (s.updateObject db addr change).readStateObject
      db b read zero =
      if b = addr then
        read (change (s.GetOrNewStateObject db addr).1
          (s.GetOrNewStateObject db addr).2.journal).1
      else s.readStateObject db b read zero := by
  have hSpec := GetOrNewStateObject_spec db hWF addr
  have hKept : ∀ b, b ≠ addr →
      (s.GetOrNewStateObject db addr).2.readStateObject
        db b read zero =
        s.readStateObject db b read zero :=
    fun b hB =>
      readStateObject_GetOrNewStateObject s hB read zero
  unfold updateObject
  rcases hPair : s.GetOrNewStateObject db addr with ⟨obj, s'⟩
  rw [hPair] at hSpec hKept
  rcases hSpec with ⟨-, -, hObj, hObjAddress⟩
  have hLive := ((getStateObject_eq_some db).mp hObj).2
  dsimp only
  rw [readStateObject_setStateObject, hAddress, hObjAddress,
    hDeleted, hLive]
  by_cases hB : b = addr
  · simp [hB]
  · simp only [hB, if_false]
    exact hKept b hB

/-
  A change that no read `read` sees, of an object made first
  if missing, where a fresh object reads as nothing, changes
  no read.
-/
theorem readStateObject_updateObject_of_keeps
    {s : StateDB H}
    (hWF : s.WellFormed)
    (addr b : Address)
    {change : StateObject H → Journal H →
      StateObject H × Journal H}
    (hAddress : ∀ o j, (change o j).1.address = o.address)
    (hDeleted : ∀ o j, (change o j).1.deleted = o.deleted)
    {α : Type}
    (read : StateObject H → α)
    (zero : α)
    (hKeep : ∀ o j, read (change o j).1 = read o)
    (hFresh : read (s.createObject db addr).1.1 = zero) :
    (s.updateObject db addr change).readStateObject
      db b read zero =
      s.readStateObject db b read zero := by
  rw [readStateObject_updateObject hWF addr b hAddress
    hDeleted, hKeep]
  split
  · rename_i hB
    subst hB
    exact read_GetOrNewStateObject s b read zero hFresh
  · rfl

/-
  A change of the object at `addr` that keeps its address
  and its deleted flag and maps its balance by `balance`
  maps the balance read at `addr` by it, and leaves every
  other balance.
-/
theorem GetBalance_updateObject
    {s : StateDB H}
    (hWF : s.WellFormed)
    (addr b : Address)
    {change : StateObject H → Journal H →
      StateObject H × Journal H}
    (hAddress : ∀ o j, (change o j).1.address = o.address)
    (hDeleted : ∀ o j, (change o j).1.deleted = o.deleted)
    (balance : Int → Int)
    (hBalance : ∀ o j, (change o j).1.data.Balance =
      balance o.data.Balance) :
    (s.updateObject db addr change).GetBalance db b =
      if b = addr
        then balance (s.GetBalance db addr)
          else s.GetBalance db b := by
  have hFresh :
      (s.createObject db addr).1.1.data.Balance = 0 := by
    simp [createObject, StateObject.newObject,
      StateObject.emptyAccount, StateObject.setNonce]
  have hRead := read_GetOrNewStateObject s addr
    (fun o => o.data.Balance) 0 hFresh
  unfold GetBalance
  rw [readStateObject_updateObject hWF addr b hAddress
    hDeleted, hBalance, hRead]

end StateDB

end State

end PlasmaEvm

------------------------------------------------------------
-- Credits and Debits of an Object
------------------------------------------------------------

namespace PlasmaEvm

namespace State

namespace StateObject

variable {H : Type} [DecidableEq H]
variable {db : Database H}

/-
  A credit of zero leaves the object itself; any other sets
  the sum.
-/
theorem AddBalance_fst
    (o : StateObject H)
    (amount : Int)
    (j : Journal H) :
    (o.AddBalance db amount j).1 =
      o.setBalance (o.data.Balance + amount) := by
  unfold AddBalance
  split
  · rename_i hZero
    subst hZero
    rw [Int.add_zero]
    rfl
  · rfl

omit [DecidableEq H] in
theorem SubBalance_fst
    (o : StateObject H)
    (amount : Int)
    (j : Journal H) :
    (o.SubBalance amount j).1 = o.setBalance
      (o.data.Balance - amount) := by
  unfold SubBalance
  split
  · rename_i hZero
    subst hZero
    rw [Int.sub_zero]
    rfl
  · rfl

end StateObject

end State

end PlasmaEvm

------------------------------------------------------------
-- Balances After Credits and Debits
------------------------------------------------------------

namespace PlasmaEvm

namespace State

namespace StateDB

variable {H : Type} [DecidableEq H] [Inhabited H]
variable {db : Database H}

theorem WellFormed.AddBalance
    {s : StateDB H}
    (hWF : s.WellFormed)
    (addr : Address)
    (amount : Int) :
    (s.AddBalance db addr amount).WellFormed :=
  (Reverts.updateObject hWF addr (AddBalance_reverts amount)).2

theorem WellFormed.SubBalance
    {s : StateDB H}
    (hWF : s.WellFormed)
    (addr : Address)
    (amount : Int) :
    (s.SubBalance db addr amount).WellFormed :=
  (Reverts.updateObject hWF addr (SubBalance_reverts amount)).2

theorem WellFormed.SetNonce
    {s : StateDB H}
    (hWF : s.WellFormed)
    (addr : Address)
    (nonce : Nat) :
    (s.SetNonce db addr nonce).WellFormed :=
  (Reverts.updateObject hWF addr (SetNonce_reverts nonce)).2

theorem GetBalance_AddBalance
    {s : StateDB H}
    (hWF : s.WellFormed)
    (addr : Address)
    (amount : Int)
    (b : Address) :
    (s.AddBalance db addr amount).GetBalance db b =
      s.GetBalance db b + if b = addr
        then amount else 0 := by
  unfold AddBalance
  rw [GetBalance_updateObject hWF addr b
    (fun o j => by rw [StateObject.AddBalance_fst]; rfl)
    (fun o j => by rw [StateObject.AddBalance_fst]; rfl)
    (· + amount)
    (fun o j => by rw [StateObject.AddBalance_fst]; rfl)]
  by_cases hB : b = addr
  · subst hB
    simp
  · simp [hB]

theorem GetBalance_SubBalance
    {s : StateDB H}
    (hWF : s.WellFormed)
    (addr : Address)
    (amount : Int)
    (b : Address) :
    (s.SubBalance db addr amount).GetBalance db b =
      s.GetBalance db b - if b = addr
        then amount else 0 := by
  unfold SubBalance
  rw [GetBalance_updateObject hWF addr b
    (fun o j => by rw [StateObject.SubBalance_fst]; rfl)
    (fun o j => by rw [StateObject.SubBalance_fst]; rfl)
    (· - amount)
    (fun o j => by rw [StateObject.SubBalance_fst]; rfl)]
  by_cases hB : b = addr
  · subst hB
    simp
  · simp [hB]

theorem GetBalance_SetNonce
    {s : StateDB H}
    (hWF : s.WellFormed)
    (addr : Address)
    (nonce : Nat)
    (b : Address) :
    (s.SetNonce db addr nonce).GetBalance db b =
      s.GetBalance db b := by
  unfold SetNonce
  rw [GetBalance_updateObject hWF addr b (fun _ _ =>
    rfl) (fun _ _ => rfl) id (fun _ _ => rfl)]
  by_cases hB : b = addr
  · subst hB
    simp
  · simp [hB]

/-
  Over a set of accounts that holds `addr`, a credit adds
  its amount.
-/
theorem sum_GetBalance_AddBalance
    {s : StateDB H}
    (hWF : s.WellFormed)
    (S : Finset Address)
    {addr : Address}
    (hMem : addr ∈ S)
    (amount : Int) :
    ∑ b ∈ S, (s.AddBalance db addr amount).GetBalance db b =
      ∑ b ∈ S, s.GetBalance db b + amount := by
  simp only [GetBalance_AddBalance hWF,
    Finset.sum_add_distrib, Finset.sum_ite_eq', if_pos hMem]

/-
  Over a set of accounts that holds `addr`, a debit takes
  its amount off.
-/
theorem sum_GetBalance_SubBalance
    {s : StateDB H}
    (hWF : s.WellFormed)
    (S : Finset Address)
    {addr : Address}
    (hMem : addr ∈ S)
    (amount : Int) :
    ∑ b ∈ S, (s.SubBalance db addr amount).GetBalance db b =
      ∑ b ∈ S, s.GetBalance db b - amount := by
  simp only [GetBalance_SubBalance hWF,
    Finset.sum_sub_distrib, Finset.sum_ite_eq', if_pos hMem]

end StateDB

end State

end PlasmaEvm
