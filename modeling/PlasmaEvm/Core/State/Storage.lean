import PlasmaEvm.Core.State.Committed
import PlasmaEvm.Core.State.Balance

/-
  The storage the getters read after the StateDB's changes.
  A change of the object at an address, made first if there
  is none, is read at that address only; a fresh object
  reads its storage from the empty trie, which holds
  nothing.  SetState writes the slot it names and no other,
  and moves the committed value with it only in fake
  storage.  The other changes keep every slot's value and
  committed value, but CreateAccount, whose fresh object
  reads none.

  Key definitions include:
    * `Database.EmptyStorage`

  Key statements include:
    * `StateDB.GetState_SetState`,
      `StateDB.GetCommittedState_SetState`
    * `StateDB.readStateObject_CreateAccount`
-/

------------------------------------------------------------
-- Reads Through a Change of One Object
------------------------------------------------------------

namespace PlasmaEvm

namespace State

/- The storage trie at the empty root holds nothing. -/
def Database.EmptyStorage
    {H : Type}
    [Inhabited H]
    (db : Database H) :
    Prop :=
  ∀ key, db.storage db.emptyRoot key = zeroHash

namespace StateDB

variable {H : Type} [DecidableEq H] [Inhabited H]
variable {db : Database H}

/-
  A fresh object reads its storage, committed or not, from
  the empty trie.
-/
theorem createObject_reads
    (s : StateDB H)
    (addr : Address)
    (key : H) :
    (s.createObject db addr).1.1.GetState db key =
      db.storage db.emptyRoot key ∧
      (s.createObject db addr).1.1.GetCommittedState db key
        = db.storage db.emptyRoot key := by
  simp [createObject, StateObject.newObject,
    StateObject.emptyAccount, StateObject.setNonce,
    StateObject.GetState, StateObject.GetCommittedState]

end StateDB

end State

end PlasmaEvm

------------------------------------------------------------
-- Storage After SetState
------------------------------------------------------------

namespace PlasmaEvm

namespace State

namespace StateObject

variable {H : Type} [DecidableEq H]
variable (db : Database H)

@[simp] theorem SetState_address
    (o : StateObject H)
    (key value : H)
    (j : Journal H) :
    (o.SetState db key value j).1.address = o.address := by
  unfold SetState
  split
  · rfl
  · dsimp only
    split <;> rfl

@[simp] theorem SetState_deleted
    (o : StateObject H)
    (key value : H)
    (j : Journal H) :
    (o.SetState db key value j).1.deleted = o.deleted := by
  unfold SetState
  split
  · rfl
  · dsimp only
    split <;> rfl

/-
  SetState writes the slot it names, also when the value is
  already there.
-/
theorem GetState_SetState
    (o : StateObject H)
    (key value k : H)
    (j : Journal H) :
    (o.SetState db key value j).1.GetState db k = if k = key
      then value else o.GetState db k := by
  unfold SetState
  split
  · rename_i fake hFake
    by_cases hK : k = key <;> simp [GetState, hK, hFake]
  · rename_i hFake
    dsimp only
    split
    · rename_i hSame
      split
      · rename_i hK
        rw [hK, hSame]
      · rfl
    · rw [GetState_setState db o key value hFake]
      by_cases hK : k = key <;> simp [hK]

/-
  The committed value moves with a write only in fake
  storage.
-/
theorem GetCommittedState_SetState
    (o : StateObject H)
    (key value k : H)
    (j : Journal H) :
    (o.SetState db key value j).1.GetCommittedState db k =
      if k = key ∧ o.fakeStorage.isSome
        then value else o.GetCommittedState db k := by
  unfold SetState
  split
  · rename_i fake hFake
    by_cases hK : k = key <;>
      simp [GetCommittedState, hK, hFake]
  · rename_i hFake
    dsimp only
    split <;> simp [hFake, GetCommittedState, setState]

end StateObject

namespace StateDB

variable {H : Type} [DecidableEq H] [Inhabited H]
variable {db : Database H}

/-
  Under an empty storage trie, SetState writes the slot it
  names and no other.
-/
theorem GetState_SetState
    {s : StateDB H}
    (hWF : s.WellFormed)
    (hEmpty : db.EmptyStorage)
    (addr : Address)
    (key value : H)
    (a : Address)
    (k : H) :
    (s.SetState db addr key value).GetState db a k =
      if a = addr ∧ k = key
        then value else s.GetState db a k := by
  unfold SetState GetState
  rw [readStateObject_updateObject hWF addr a (fun _ _ =>
    StateObject.SetState_address db _ _ _ _)
    (fun _ _ => StateObject.SetState_deleted db _ _ _ _),
      StateObject.GetState_SetState]
  by_cases hA : a = addr
  · subst hA
    have hRead := read_GetOrNewStateObject s a (fun obj =>
      obj.GetState db k) zeroHash
      (by rw [(createObject_reads s a k).1, hEmpty])
    by_cases hK : k = key <;> simp [hK, hRead]
  · simp [hA]

/-
  Under an empty storage trie, SetState moves the committed
  value of the slot it names, to the value written, only in
  fake storage.
-/
theorem GetCommittedState_SetState
    {s : StateDB H}
    (hWF : s.WellFormed)
    (hEmpty : db.EmptyStorage)
    (addr : Address)
    (key value : H)
    (a : Address)
    (k : H) :
    (s.SetState db addr key value).GetCommittedState db a k =
      if a = addr ∧ k = key ∧ s.readStateObject db addr
        (fun obj => obj.fakeStorage.isSome) false
      then value else s.GetCommittedState db a k := by
  unfold SetState GetCommittedState
  rw [readStateObject_updateObject hWF addr a (fun _ _ =>
    StateObject.SetState_address db _ _ _ _)
    (fun _ _ => StateObject.SetState_deleted db _ _ _ _),
      StateObject.GetCommittedState_SetState]
  by_cases hA : a = addr
  · subst hA
    have hRead := read_GetOrNewStateObject s a (fun obj =>
      obj.GetCommittedState db k) zeroHash
      (by rw [(createObject_reads s a k).2, hEmpty])
    have hFake : (s.GetOrNewStateObject db
      a).1.fakeStorage.isSome =
        s.readStateObject db a (fun obj =>
          obj.fakeStorage.isSome) false :=
      read_GetOrNewStateObject s a (fun obj =>
        obj.fakeStorage.isSome) false rfl
    by_cases hK : k = key
    · subst hK
      simp [hRead, hFake]
    · simp [hK, hRead]
  · simp [hA]

end StateDB

end State

end PlasmaEvm

------------------------------------------------------------
-- Storage After the Other Changes
------------------------------------------------------------

namespace PlasmaEvm

namespace State

namespace StateDB

variable {H : Type} [DecidableEq H] [Inhabited H]
variable {db : Database H}

/-
  Suicide changes no read that its flag and balance do not
  change.
-/
theorem readStateObject_Suicide
    {s : StateDB H}
    (hWF : s.WellFormed)
    (addr b : Address)
    {α : Type}
    (read : StateObject H → α)
    (zero : α)
    (hKeep : ∀ o,
      read (o.markSuicided.setBalance 0) = read o) :
    (s.Suicide db addr).2.readStateObject db b read zero =
      s.readStateObject db b read zero := by
  unfold Suicide
  cases hObj : s.getStateObject db addr with
  | none => rfl
  | some obj =>
      have hFound := (getStateObject_eq_some db).mp hObj
      have hAddress := hWF.address_of_getDeleted db hFound.1
      dsimp only
      rw [readStateObject_setStateObject,
        StateObject.setBalance_address,
        StateObject.markSuicided_address,
          StateObject.setBalance_deleted,
        StateObject.markSuicided_deleted, hFound.2,
          hKeep, hAddress]
      by_cases hB : b = addr
      · subst hB
        simp [readStateObject, hObj]
      · simp only [hB, if_false]
        rfl

/-
  CreateAccount reads a fresh object at its address,
  whatever balance it carries over, and changes no other
  read.
-/
theorem readStateObject_CreateAccount
    (s : StateDB H)
    (addr b : Address)
    {α : Type}
    (read : StateObject H → α)
    (zero : α)
    (hBalance : ∀ o amount,
      read (o.setBalance amount) = read o) :
    (s.CreateAccount db addr).readStateObject db b read zero =
      if b = addr
        then read (s.createObject db addr).1.1
          else s.readStateObject db b read zero := by
  have hFresh : (s.createObject db addr).2.readStateObject
    db b read zero =
      if b = addr
        then read (s.createObject db addr).1.1
          else s.readStateObject db b read zero := by
    simp only [createObject]
    rw [readStateObject_setStateObject]
    by_cases hB : b = addr
    · simp [hB, StateObject.newObject]
    · simp only [hB, StateObject.setNonce_address,
        StateObject.newObject_address, if_false]
      rfl
  have hDeleted : (s.createObject db
    addr).1.1.deleted = false := rfl
  have hAddress : (s.createObject db
    addr).1.1.address = addr := rfl
  unfold CreateAccount
  rcases hCreate : s.createObject db addr
    with ⟨⟨newObj, prev⟩, s'⟩
  rw [hCreate] at hAddress hDeleted hFresh
  cases prev with
  | none => exact hFresh
  | some prev =>
      dsimp only at hFresh hAddress hDeleted ⊢
      rw [readStateObject_setStateObject,
        StateObject.setBalance_address, hAddress, hBalance]
      by_cases hB : b = addr
      · simp [hB, hDeleted]
      · simp only [hB, if_false] at hFresh ⊢
        exact hFresh

end StateDB

end State

end PlasmaEvm
