import PlasmaEvm.Core.State.StateDB
import PlasmaEvm.Control.Replay
import PlasmaEvm.Core.Types.DeriveSha

/-
  RevertToSnapshot is exact.  What the getters read of a
  StateDB is its `view`: the objects at every address, as
  far as the getters see them, the refund counter, the logs
  and the preimages.  Every journal entry reverts on that
  view alone (`revertStep_congruent`), and every change of a
  `Mutation` appends entries that revert it; so after any
  run of mutations the revert of the journal back to a
  snapshot gives back the view of the state the snapshot was
  taken in, and with it every getter.

  Two things escape.  A write to the fake storage of
  `SetStorage` is not journaled, so the storage of an object
  with fake storage is outside the view and is not restored.
  And `RevertToSnapshot` forgets the revision it reverts to
  together with the later ones, so a revision can be
  reverted to once.

  Key definitions include:
    * `StateDB.view`, `StateDB.WellFormed`,
      `StateDB.Reverts`

  Key statements include:
    * `JournalEntry.revert_view`,
      `JournalEntry.revertStep_congruent`
    * `StateDB.Reverts.apply`, `StateDB.Reverts.replay`
-/

------------------------------------------------------------
-- What the Getters See
------------------------------------------------------------

namespace PlasmaEvm

namespace State

/- What the getters of a StateDB read. -/
structure View (H : Type) where
  objects : Address → Option (ObjectView H)
  refund : UInt64
  logs : H → List (Log H)
  logSize : Nat
  preimages : H → Option Bytes

namespace View

variable {H : Type}

/-
  The object at an address unless it is deleted, as
  `getStateObject` finds it.
-/
def live
    (v : View H)
    (addr : Address) :
    Option (ObjectView H) :=
  (v.objects addr).filter fun ov => !ov.deleted

/- An object stored at its address. -/
def store (v : View H) (ov : ObjectView H) : View H :=
  { v with
    objects :=
      Function.update v.objects ov.address (some ov) }

end View

namespace StateDB

section

variable {H : Type}

@[simp] theorem setStateObject_journal
    (s : StateDB H)
    (o : StateObject H) :
    (s.setStateObject o).journal = s.journal := rfl

@[simp] theorem setStateObject_validRevisions
    (s : StateDB H)
    (o : StateObject H) :
    (s.setStateObject o).validRevisions =
      s.validRevisions := rfl

@[simp] theorem setStateObject_nextRevisionId
    (s : StateDB H)
    (o : StateObject H) :
    (s.setStateObject o).nextRevisionId =
      s.nextRevisionId := rfl

end

variable {H : Type} [DecidableEq H] [Inhabited H]
variable (db : Database H)

def view (s : StateDB H) : View H :=
  { objects := fun addr =>
      (s.getDeletedStateObject db addr).map (StateObject.view db),
    refund := s.refund,
    logs := s.logs,
    logSize := s.logSize,
    preimages := s.preimages }

/-
  The invariant of every StateDB: a live object sits at its
  own address, and every valid revision id was handed out
  before.
-/
structure WellFormed (s : StateDB H) : Prop where
  keyed : ∀ addr obj, s.stateObjects addr = some obj →
    obj.address = addr
  revisions : ∀ revision ∈ s.validRevisions,
    revision.id < s.nextRevisionId

theorem getDeletedStateObject_setStateObject
    (s : StateDB H)
    (o : StateObject H)
    (addr : Address) :
    (s.setStateObject o).getDeletedStateObject db addr =
      if addr = o.address
        then some o
          else s.getDeletedStateObject db addr := by
  by_cases hAddr : addr = o.address
  · subst hAddr
    simp [getDeletedStateObject, setStateObject]
  · simp [getDeletedStateObject, setStateObject, hAddr]

@[simp] theorem getStateObject_eq_some
    {s : StateDB H}
    {addr : Address}
    {obj : StateObject H} :
    s.getStateObject db addr = some obj ↔
      s.getDeletedStateObject db addr = some obj ∧
        obj.deleted = false := by
  simp [getStateObject, Option.filter_eq_some_iff]

/-
  Under the invariant, an object found at an address has
  that address.
-/
theorem WellFormed.address_of_getDeleted
    {s : StateDB H}
    (hWF : s.WellFormed)
    {addr : Address}
    {obj : StateObject H}
    (hObj : s.getDeletedStateObject db addr = some obj) :
    obj.address = addr := by
  unfold getDeletedStateObject at hObj
  cases hLive : s.stateObjects addr with
  | some live =>
      rw [hLive] at hObj
      rw [← Option.some.inj hObj]
      exact hWF.keyed addr live hLive
  | none =>
      rw [hLive] at hObj
      rcases Option.map_eq_some_iff.mp hObj
        with ⟨data, -, rfl⟩
      rfl

theorem view_setStateObject
    (s : StateDB H)
    (o : StateObject H) :
    (s.setStateObject o).view db =
      (s.view db).store (o.view db) := by
  simp only [view, View.store, View.mk.injEq]
  refine ⟨?_, rfl, rfl, rfl, rfl⟩
  funext addr
  by_cases hAddr : addr = o.address
  · subst hAddr
    simp [getDeletedStateObject_setStateObject]
  · simp [getDeletedStateObject_setStateObject, hAddr]

end StateDB

end State

end PlasmaEvm

------------------------------------------------------------
-- Reverts See Only the View
------------------------------------------------------------

namespace PlasmaEvm

namespace State

namespace StateDB

variable {H : Type} [DecidableEq H] [Inhabited H]
variable (db : Database H)

/- The live object as the getters see it. -/
theorem getStateObject_view
    (s : StateDB H)
    (addr : Address) :
    (s.getStateObject db addr).map (StateObject.view db) =
      (s.view db).live addr := by
  unfold getStateObject View.live
  cases hObj : s.getDeletedStateObject db addr with
  | none => simp [view, hObj]
  | some obj =>
      cases hDeleted : obj.deleted <;> simp [view,
        Option.filter, hObj, hDeleted]

/- A change of the live object, seen through the view. -/
theorem map_setStateObject_view
    (s : StateDB H)
    (addr : Address)
    (f : StateObject H → StateObject H)
    (F : ObjectView H → ObjectView H)
    (hf : ∀ obj, (f obj).view db = F (obj.view db)) :
    ((s.getStateObject db addr).map fun obj =>
      s.setStateObject (f obj)).map (view db) =
      ((s.view db).live addr).map fun ov =>
        (s.view db).store (F ov) := by
  rw [← getStateObject_view, Option.map_map, Option.map_map]
  congr 1
  funext obj
  simp [view_setStateObject, hf]

theorem view_delete
    (s : StateDB H)
    (account : Address) :
    ({ s with
        stateObjects := Function.update s.stateObjects
          account none } :
      StateDB H).view db =
      { s.view db with
        objects :=
          Function.update (s.view db).objects account
          ((db.account account).map fun data =>
            (StateObject.newObject db account
              data).view db) } := by
  simp only [view, View.mk.injEq, and_true]
  funext addr
  by_cases hAddr : addr = account
  · subst hAddr
    simp [getDeletedStateObject, Option.map_map,
      Function.comp_def]
  · simp [getDeletedStateObject, hAddr]

end StateDB

namespace JournalEntry

variable {H : Type} [DecidableEq H] [Inhabited H]
variable (db : Database H)

/- Reverting an entry, on what the getters see. -/
def revertView
    (entry : JournalEntry H)
    (v : View H) :
    Option (View H) :=
  match entry with
  | createObjectChange account =>
      some { v with
        objects := Function.update v.objects account
          ((db.account account).map fun data =>
            (StateObject.newObject db account data).view db) }
  | resetObjectChange prev => some (v.store (prev.view db))
  | suicideChange account prev prevbalance =>
      match v.live account with
      | some ov =>
          some (v.store
            { ov with suicided := prev, Balance := prevbalance })
      | none => some v
  | balanceChange account prev =>
      (v.live account).map fun ov => v.store { ov with
        Balance := prev }
  | nonceChange account prev =>
      (v.live account).map fun ov => v.store { ov with
        Nonce := prev }
  | storageChange account key prevalue =>
      (v.live account).map fun ov =>
        v.store { ov with
          Storage := ov.Storage.map
            (Function.update · key prevalue) }
  | codeChange account prevcode prevhash =>
      (v.live account).map fun ov => v.store { ov with
        CodeHash := prevhash,
        Code := prevcode }
  | refundChange prev => some { v with refund := prev }
  | addLogChange txhash =>
      match v.logs txhash with
      | [] => none
      | logs =>
          some { v with
            logs := Function.update v.logs txhash
              (if logs.length = 1
                then [] else logs.dropLast),
            logSize := v.logSize - 1 }
  | addPreimageChange hash =>
      some
        { v with
          preimages :=
            Function.update v.preimages hash none }
  | touchChange _ => some v

/-
  Each revert does to the view what `revertView` says, and
  reads nothing else.
-/
theorem revert_view
    (entry : JournalEntry H)
    (s : StateDB H) :
    (entry.revert db s).map (StateDB.view db) =
      entry.revertView db (s.view db) := by
  cases entry with
  | createObjectChange account =>
      simp [revert, revertView, StateDB.view_delete]
  | resetObjectChange prev =>
      simp [revert, revertView, StateDB.view_setStateObject]
  | suicideChange account prev prevbalance =>
      have hLive := StateDB.getStateObject_view db s account
      simp only [revert, revertView]
      cases hObj : s.getStateObject db account with
      | none =>
          rw [hObj] at hLive
          simp [← hLive]
      | some obj =>
          rw [hObj] at hLive
          simp only [Option.map_some] at hLive
          simp only [← hLive, Option.map_some,
            StateDB.view_setStateObject,
            StateObject.view_setBalance]
          rfl
  | balanceChange account prev =>
      exact StateDB.map_setStateObject_view db s account _ _
        (fun obj => StateObject.view_setBalance db obj prev)
  | nonceChange account prev =>
      exact StateDB.map_setStateObject_view db s account _ _
        (fun obj => StateObject.view_setNonce db obj prev)
  | storageChange account key prevalue =>
      exact StateDB.map_setStateObject_view db s account _ _
        (fun obj =>
          StateObject.view_setState db obj key prevalue)
  | codeChange account prevcode prevhash =>
      exact StateDB.map_setStateObject_view db s account _ _
        (fun obj => StateObject.view_setCode db obj
          prevhash prevcode)
  | refundChange prev => rfl
  | addLogChange txhash =>
      simp only [revert, revertView, StateDB.view]
      cases s.logs txhash <;> rfl
  | addPreimageChange hash => rfl
  | touchChange account => rfl

@[simp] theorem view_undirty
    (entry : JournalEntry H)
    (s : StateDB H) :
    (entry.undirty s).view db = s.view db := by
  unfold undirty
  cases entry.dirtied <;> rfl

theorem revertStep_view
    (entry : JournalEntry H)
    (s : StateDB H) :
    (entry.revertStep db s).map (StateDB.view db) =
      entry.revertView db (s.view db) := by
  rw [revertStep, Option.map_map, ← revert_view]
  congr 1
  funext r
  simp

/- The revert loop reads a state only through its view. -/
theorem revertStep_congruent :
    UndoLog.Congruent (revertStep db)
      (StateDB.view db : StateDB H → View H) := by
  intro entry s s' hView
  rw [revertStep_view, revertStep_view, hView]

end JournalEntry

end State

end PlasmaEvm

------------------------------------------------------------
-- Storing Objects in a View
------------------------------------------------------------

namespace PlasmaEvm

namespace State

namespace View

variable {H : Type}

@[simp] theorem store_store
    (v : View H)
    {ov ov' : ObjectView H}
    (hAddress : ov.address = ov'.address) :
    (v.store ov).store ov' = v.store ov' := by
  simp [store, hAddress, Function.update_idem]

theorem store_of_objects
    {v : View H}
    {ov : ObjectView H}
    (hObject : v.objects ov.address = some ov) :
    v.store ov = v := by
  simp only [store]
  rw [← hObject, Function.update_eq_self]

@[simp] theorem live_store
    (v : View H)
    (ov : ObjectView H) :
    (v.store ov).live ov.address = if ov.deleted
      then none else some ov := by
  cases hDeleted : ov.deleted <;> simp [live, store,
    Option.filter, hDeleted]

end View

end State

end PlasmaEvm

------------------------------------------------------------
-- Changes Whose Entries Revert Them
------------------------------------------------------------

namespace PlasmaEvm

namespace State

namespace StateDB

variable {H : Type} [DecidableEq H] [Inhabited H]
variable (db : Database H)

/-
  `t` is `s` after changes whose entries, appended to its
  journal, revert to what the getters see of `s`.
-/
def Reverts (s t : StateDB H) : Prop :=
  ∃ es, t.journal.entries = s.journal.entries ++ es ∧
    UndoLog.Undoes (JournalEntry.revertStep db) (view db) es s t

variable {db}

/- A change that no getter sees needs no entry. -/
theorem Reverts.of_view
    {s t : StateDB H}
    (hEntries : t.journal.entries = s.journal.entries)
    (hView : t.view db = s.view db) :
    Reverts db s t :=
  ⟨[], by simp [hEntries], UndoLog.Undoes.nil hView⟩

/-
  One entry, whose revert on the view of `t` gives the view
  of `s`.
-/
theorem Reverts.single
    {s t : StateDB H}
    (entry : JournalEntry H)
    (hEntries : t.journal.entries =
      s.journal.entries ++ [entry])
    (hRevert : entry.revertView db (t.view db) =
      some (s.view db)) :
    Reverts db s t := by
  have hStep := JournalEntry.revertStep_view db entry t
  rw [hRevert] at hStep
  rcases Option.map_eq_some_iff.mp hStep with ⟨r, hr, hView⟩
  exact ⟨[entry], hEntries,
    UndoLog.Undoes.singleton hr hView⟩

theorem Reverts.trans
    {s t u : StateDB H}
    (h₁ : Reverts db s t)
    (h₂ : Reverts db t u) :
    Reverts db s u := by
  rcases h₁ with ⟨es₁, hEntries₁, hUndoes₁⟩
  rcases h₂ with ⟨es₂, hEntries₂, hUndoes₂⟩
  refine ⟨es₁ ++ es₂,
    by rw [hEntries₂, hEntries₁, List.append_assoc], ?_⟩
  exact UndoLog.Undoes.append
    (JournalEntry.revertStep_congruent db) hUndoes₁ hUndoes₂

end StateDB

end State

end PlasmaEvm

------------------------------------------------------------
-- Creating Objects
------------------------------------------------------------

namespace PlasmaEvm

namespace State

namespace StateDB

variable {H : Type} [DecidableEq H] [Inhabited H]
variable {db : Database H}

omit [DecidableEq H] [Inhabited H] in
theorem WellFormed.setStateObject
    {s : StateDB H}
    (hWF : s.WellFormed)
    (o : StateObject H) :
    (s.setStateObject o).WellFormed := by
  refine ⟨?_, hWF.revisions⟩
  intro addr obj hObj
  by_cases hAddr : addr = o.address
  · subst hAddr
    simp only [StateDB.setStateObject, Function.update_self,
      Option.some.injEq] at hObj
    rw [← hObj]
  · simp only [StateDB.setStateObject,
      Function.update_of_ne hAddr] at hObj
    exact hWF.keyed addr obj hObj

omit [DecidableEq H] [Inhabited H] in
theorem WellFormed.journal
    {s : StateDB H}
    (hWF : s.WellFormed)
    (j : Journal H) :
    ({ s with journal := j } : StateDB H).WellFormed :=
  ⟨hWF.keyed, hWF.revisions⟩

@[simp] theorem view_journal
    (s : StateDB H)
    (j : Journal H) :
    ({ s with journal := j } : StateDB H).view db =
      s.view db := rfl

@[simp] theorem getDeletedStateObject_journal
    (s : StateDB H)
    (j : Journal H)
    (addr : Address) :
    ({ s with journal := j } : StateDB
      H).getDeletedStateObject db addr =
      s.getDeletedStateObject db addr := rfl

@[simp] theorem getStateObject_journal
    (s : StateDB H)
    (j : Journal H)
    (addr : Address) :
    ({ s with journal := j } : StateDB H).getStateObject db addr =
      s.getStateObject db addr := rfl

theorem getStateObject_setStateObject_self
    (s : StateDB H)
    {o : StateObject H}
    (hDeleted : o.deleted = false) :
    (s.setStateObject o).getStateObject db
      o.address = some o := by
  simp [getDeletedStateObject_setStateObject, hDeleted]

/-
  Nothing at an address, and the view sees nothing there.
-/
theorem view_objects_of_getDeleted_none
    {s : StateDB H}
    {addr : Address}
    (hNone : s.getDeletedStateObject db addr = none) :
    (db.account addr).map (fun data =>
      (StateObject.newObject db addr data).view db) =
      (s.view db).objects addr ∧
        s.stateObjects addr = none := by
  unfold getDeletedStateObject at hNone
  cases hLive : s.stateObjects addr with
  | some live =>
      rw [hLive] at hNone
      cases hNone
  | none =>
      rw [hLive] at hNone
      rw [Option.map_eq_none_iff] at hNone
      simp [view, getDeletedStateObject, hLive, hNone]

/-
  createObject is undone: a fresh object by deleting it
  again, a replaced one by storing the old one back.
-/
theorem Reverts.createObject
    {s : StateDB H}
    (hWF : s.WellFormed)
    (addr : Address)
    (o : StateObject H)
    (hAddress : o.address = addr) :
    Reverts db s ((s.createObject db
      addr).2.setStateObject o) := by
  unfold StateDB.createObject
  cases hPrev : s.getDeletedStateObject db addr with
  | none =>
      have hNothing := view_objects_of_getDeleted_none hPrev
      refine Reverts.single (.createObjectChange
        addr) (by simp) ?_
      simp only [JournalEntry.revertView,
        view_setStateObject, view_journal]
      simp only [View.store, StateObject.view_address,
        hAddress, Function.update_idem,
        StateObject.setNonce_address,
          StateObject.newObject_address, hNothing.1,
        Function.update_eq_self]
  | some prev =>
      have hPrevAddress :=
        hWF.address_of_getDeleted db hPrev
      refine Reverts.single (.resetObjectChange prev) (by simp) ?_
      simp only [JournalEntry.revertView,
        view_setStateObject, view_journal]
      have hSame : (s.view db).objects
        (prev.view db).address = some (prev.view db) := by
        simp [view, hPrevAddress, hPrev]
      rw [View.store_store _ (by simp [hPrevAddress, hAddress]),
        View.store_store _ (by simp [hPrevAddress]),
          View.store_of_objects hSame]

/-
  The fresh object is stored last, so storing it again
  changes nothing.
-/
variable (db) in
theorem createObject_fresh
    (s : StateDB H)
    (addr : Address) :
    (s.createObject db addr).2.setStateObject
      (s.createObject db addr).1.1 =
      (s.createObject db addr).2 := by
  simp [StateDB.createObject, StateDB.setStateObject,
    Function.update_idem]

/-
  GetOrNewStateObject finds the live object or creates one;
  either way it leaves a live object at the address and is
  undone.
-/
variable (db) in
theorem GetOrNewStateObject_spec
    {s : StateDB H}
    (hWF : s.WellFormed)
    (addr : Address) :
    let (obj, s') := s.GetOrNewStateObject db addr
    Reverts db s s' ∧ s'.WellFormed ∧
      s'.getStateObject db addr = some obj ∧
        obj.address = addr := by
  unfold GetOrNewStateObject
  cases hObj : s.getStateObject db addr with
  | some obj =>
      rw [getStateObject_eq_some] at hObj
      exact ⟨Reverts.of_view rfl rfl, hWF, by simp [hObj],
        hWF.address_of_getDeleted db hObj.1⟩
  | none =>
      have hFresh := (createObject_fresh db s addr).symm
      have hAddress : (s.createObject db
        addr).1.1.address = addr := rfl
      refine ⟨?_, ?_, ?_, hAddress⟩
      · rw [hFresh]
        exact Reverts.createObject hWF addr _ hAddress
      · simp only [StateDB.createObject]
        exact (hWF.journal _).setStateObject _
      · rw [hFresh, ← hAddress]
        exact getStateObject_setStateObject_self _ rfl

end StateDB

end State

end PlasmaEvm

------------------------------------------------------------
-- Journaled Changes of a Live Object
------------------------------------------------------------

namespace PlasmaEvm

namespace State

namespace StateDB

variable {H : Type} [DecidableEq H] [Inhabited H]
variable {db : Database H}

theorem view_objects_of_getStateObject
    {s : StateDB H}
    {addr : Address}
    {obj : StateObject H}
    (hObj : s.getStateObject db addr = some obj) :
    (s.view db).objects addr = some (obj.view db) := by
  rw [getStateObject_eq_some] at hObj
  simp [view, hObj.1]

/-
  An entry that reverts a changed live object to its old
  view, stored where the change stored it, gives back the
  whole view.
-/
theorem restore_live
    {s : StateDB H}
    {obj : StateObject H}
    (hObj : s.getStateObject db obj.address = some obj)
    (ov : ObjectView H)
    (hAddress : ov.address = obj.address)
    (hDeleted : ov.deleted = false)
    (restore : ObjectView H → ObjectView H)
    (hRestore : restore ov = obj.view db) :
    (((s.view db).store ov).live obj.address).map
        (fun ov' =>
          ((s.view db).store ov).store (restore ov')) =
      some (s.view db) := by
  rw [← hAddress, View.live_store, hDeleted,
    if_neg Bool.false_ne_true, Option.map_some,
    hRestore, View.store_store _ (by simp [hAddress])]
  exact congrArg some (View.store_of_objects
    (view_objects_of_getStateObject hObj))

/-
  The state after a journaled change of the live object
  `obj`.
-/
abbrev afterChange
    (s : StateDB H)
    (change : StateObject H × Journal H) : StateDB H :=
  { s with journal := change.2 }.setStateObject change.1

variable (db)

/-
  A change of the live object `obj` whose entries revert it.
-/
def ObjectChangeReverts
    (change : StateObject H → Journal H →
      StateObject H × Journal H) :
    Prop :=
  ∀ s obj, s.getStateObject db obj.address = some obj →
    Reverts db s (s.afterChange (change obj s.journal))

variable {db}

theorem Reverts.store_same
    {s : StateDB H}
    {obj : StateObject H}
    (hObj : s.getStateObject db obj.address = some obj)
    {j : Journal H}
    (hEntries : j.entries = s.journal.entries) :
    Reverts db s (s.afterChange (obj, j)) := by
  refine Reverts.of_view hEntries ?_
  rw [view_setStateObject, view_journal]
  exact View.store_of_objects
    (view_objects_of_getStateObject hObj)

theorem SetBalance_reverts (amount : Int) :
    ObjectChangeReverts db fun obj =>
      obj.SetBalance amount := by
  intro s obj hObj
  have hDeleted := (getStateObject_eq_some db).mp hObj |>.2
  refine Reverts.single (.balanceChange obj.address
    obj.data.Balance) rfl ?_
  simp only [JournalEntry.revertView, view_setStateObject,
    view_journal, StateObject.SetBalance,
    StateObject.view_setBalance]
  exact restore_live hObj _ rfl hDeleted (fun ov => { ov with
    Balance := obj.data.Balance }) rfl

theorem SetNonce_reverts (nonce : Nat) :
    ObjectChangeReverts db fun obj =>
      obj.SetNonce nonce := by
  intro s obj hObj
  have hDeleted := (getStateObject_eq_some db).mp hObj |>.2
  refine Reverts.single (.nonceChange obj.address
    obj.data.Nonce) rfl ?_
  simp only [JournalEntry.revertView, view_setStateObject,
    view_journal, StateObject.SetNonce,
    StateObject.view_setNonce]
  exact restore_live hObj _ rfl hDeleted (fun ov => { ov with
    Nonce := obj.data.Nonce }) rfl

theorem SetCode_reverts
    (codeHash : H)
    (code : Bytes) :
    ObjectChangeReverts db fun obj =>
      obj.SetCode db codeHash code := by
  intro s obj hObj
  have hDeleted := (getStateObject_eq_some db).mp hObj |>.2
  refine Reverts.single (.codeChange obj.address
    (obj.Code db) obj.data.CodeHash) rfl ?_
  simp only [JournalEntry.revertView, view_setStateObject,
    view_journal, StateObject.SetCode,
    StateObject.view_setCode]
  exact restore_live hObj _ rfl hDeleted
    (fun ov => { ov with
      CodeHash := obj.data.CodeHash,
      Code := obj.Code db }) rfl

omit [DecidableEq H] [Inhabited H] in
theorem touch_entries
    (obj : StateObject H)
    (j : Journal H) :
    (obj.touch j).entries = j.entries ++
      [.touchChange obj.address] := by
  unfold StateObject.touch
  split <;> simp

theorem AddBalance_reverts (amount : Int) :
    ObjectChangeReverts db fun obj =>
      obj.AddBalance db amount := by
  intro s obj hObj
  by_cases hZero : amount = 0
  · simp only [StateObject.AddBalance, hZero, if_true]
    split
    · refine Reverts.single (.touchChange obj.address)
        (touch_entries obj s.journal) ?_
      simp only [JournalEntry.revertView,
        view_setStateObject, view_journal]
      exact congrArg some (View.store_of_objects
        (view_objects_of_getStateObject hObj))
    · exact Reverts.store_same hObj rfl
  · simp only [StateObject.AddBalance, hZero, if_false]
    exact SetBalance_reverts _ s obj hObj

theorem SubBalance_reverts (amount : Int) :
    ObjectChangeReverts db fun obj =>
      obj.SubBalance amount := by
  intro s obj hObj
  by_cases hZero : amount = 0
  · simp only [StateObject.SubBalance, hZero, if_true]
    exact Reverts.store_same hObj rfl
  · simp only [StateObject.SubBalance, hZero, if_false]
    exact SetBalance_reverts _ s obj hObj

/-
  A write to fake storage changes nothing the view sees; any
  other write of a new value records the value it
  overwrites.
-/
theorem SetState_reverts
    (key value : H) :
    ObjectChangeReverts db fun obj =>
      obj.SetState db key value := by
  intro s obj hObj
  have hDeleted := (getStateObject_eq_some db).mp hObj |>.2
  show Reverts db s (s.afterChange
    (obj.SetState db key value s.journal))
  unfold StateObject.SetState
  split
  · rename_i fake hFake
    refine Reverts.of_view rfl ?_
    rw [view_setStateObject, view_journal]
    have hSame : ({ obj with
      fakeStorage :=
        some (Function.update fake key value) } :
        StateObject H).view db = obj.view db := by
      simp [StateObject.view, StateObject.Code, hFake]
    rw [hSame]
    exact View.store_of_objects
      (view_objects_of_getStateObject hObj)
  · rename_i hFake
    dsimp only
    split
    · exact Reverts.store_same hObj rfl
    · refine Reverts.single (.storageChange obj.address key
        (obj.GetState db key)) rfl ?_
      simp only [JournalEntry.revertView,
        view_setStateObject, view_journal,
        StateObject.view_setState]
      refine restore_live hObj _ rfl hDeleted
        (fun ov => { ov with
          Storage := ov.Storage.map (Function.update · key
            (obj.GetState db key)) }) ?_
      simp [StateObject.view, hFake, Function.update_idem]

/-
  A journaled change of the object at an address, made first
  if there is none, is undone, and keeps the invariant.
-/
theorem Reverts.updateObject
    {s : StateDB H}
    (hWF : s.WellFormed)
    (addr : Address)
    {change : StateObject H → Journal H →
      StateObject H × Journal H}
    (hChange : ObjectChangeReverts db change) :
    Reverts db s (s.updateObject db addr change) ∧
      (s.updateObject db addr change).WellFormed := by
  have hSpec := GetOrNewStateObject_spec db hWF addr
  unfold StateDB.updateObject
  rcases hPair : s.GetOrNewStateObject db addr with ⟨obj, s'⟩
  rw [hPair] at hSpec
  rcases hSpec with ⟨hReverts, hWF', hObj, hAddress⟩
  refine ⟨hReverts.trans (hChange s' obj
    (by rw [hAddress]; exact hObj)), ?_⟩
  exact (hWF'.journal _).setStateObject _

end StateDB

end State

end PlasmaEvm

------------------------------------------------------------
-- The Other Changes
------------------------------------------------------------

namespace PlasmaEvm

namespace State

namespace StateDB

variable {H : Type} [DecidableEq H] [Inhabited H]
variable {db : Database H}

/-
  Suicide keeps the old flag and balance, which its revert
  stores back.
-/
theorem Reverts.Suicide
    {s : StateDB H}
    (hWF : s.WellFormed)
    (addr : Address) :
    Reverts db s (s.Suicide db addr).2 ∧
      (s.Suicide db addr).2.WellFormed := by
  unfold StateDB.Suicide
  cases hObj : s.getStateObject db addr with
  | none => exact ⟨Reverts.of_view rfl rfl, hWF⟩
  | some obj =>
      have hFound := (getStateObject_eq_some db).mp hObj
      have hAddress := hWF.address_of_getDeleted db hFound.1
      refine ⟨Reverts.single (.suicideChange addr
        obj.suicided obj.data.Balance) rfl ?_,
        (hWF.journal _).setStateObject _⟩
      subst hAddress
      have hRestore := restore_live hObj
        ((obj.markSuicided.setBalance 0).view db) rfl
        hFound.2 (fun ov => { ov with
          suicided := obj.suicided,
          Balance := obj.data.Balance }) rfl
      have hLive : ((s.view db).store
        ((obj.markSuicided.setBalance 0).view
        db)).live obj.address =
          some ((obj.markSuicided.setBalance 0).view db) := by
        simpa [hFound.2] using View.live_store (s.view db)
          ((obj.markSuicided.setBalance 0).view db)
      rw [hLive, Option.map_some] at hRestore
      simp only [JournalEntry.revertView,
        view_setStateObject, view_journal, hLive]
      exact hRestore

/-
  CreateAccount is undone by the entry of its
  `createObject`, whatever balance the new object then
  carries over.
-/
theorem Reverts.CreateAccount
    {s : StateDB H}
    (hWF : s.WellFormed)
    (addr : Address) :
    Reverts db s (s.CreateAccount db addr) ∧
      (s.CreateAccount db addr).WellFormed := by
  have hCreated : (s.createObject db addr).2.WellFormed := by
    simp only [StateDB.createObject]
    exact (hWF.journal _).setStateObject _
  unfold StateDB.CreateAccount
  rcases hCreate : s.createObject db addr
    with ⟨⟨newObj, prev⟩, s'⟩
  have hFresh := createObject_fresh db s addr
  have hAddress : (s.createObject db
    addr).1.1.address = addr := rfl
  rw [hCreate] at hFresh hAddress hCreated
  cases prev with
  | some prev =>
      have hReverts : Reverts db s _ :=
        Reverts.createObject hWF addr
          (newObj.setBalance prev.data.Balance) hAddress
      rw [hCreate] at hReverts
      exact ⟨hReverts, hCreated.setStateObject _⟩
  | none =>
      have hReverts : Reverts db s _ :=
        Reverts.createObject hWF addr newObj hAddress
      rw [hCreate] at hReverts
      simp only at hFresh hReverts ⊢
      rw [hFresh] at hReverts
      exact ⟨hReverts, hCreated⟩

theorem Reverts.AddRefund
    {s : StateDB H}
    (hWF : s.WellFormed)
    (gas : UInt64) :
    Reverts db s (s.AddRefund gas) ∧
      (s.AddRefund gas).WellFormed :=
  ⟨Reverts.single (.refundChange s.refund) rfl rfl,
    ⟨hWF.keyed, hWF.revisions⟩⟩

theorem Reverts.SubRefund
    {s t : StateDB H}
    (hWF : s.WellFormed)
    (gas : UInt64)
    (hSub : s.SubRefund gas = some t) :
    Reverts db s t ∧ t.WellFormed := by
  unfold StateDB.SubRefund at hSub
  dsimp only at hSub
  split at hSub
  · cases hSub
  · cases hSub
    exact ⟨Reverts.single (.refundChange s.refund) rfl rfl,
      ⟨hWF.keyed, hWF.revisions⟩⟩

/-
  The revert of a log that was appended last takes it off
  again.
-/
theorem revertView_addLogChange
    (v : View H)
    (txhash : H)
    (logs : List (Log H))
    (log : Log H)
    (hLogs : v.logs txhash = logs ++ [log]) :
    JournalEntry.revertView db (.addLogChange txhash) v =
      some
        { v with
          logs := Function.update v.logs txhash logs,
          logSize := v.logSize - 1 } := by
  simp only [JournalEntry.revertView, hLogs]
  cases logs with
  | nil => rfl
  | cons first rest =>
      have hLength :
        (first :: rest ++ [log]).length ≠ 1 := by simp
      rw [List.cons_append] at hLength ⊢
      dsimp only
      rw [if_neg hLength, ← List.cons_append,
        List.dropLast_concat]

theorem Reverts.AddLog
    {s : StateDB H}
    (hWF : s.WellFormed)
    (log : Log H) :
    Reverts db s (s.AddLog log) ∧
      (s.AddLog log).WellFormed := by
  refine ⟨Reverts.single (.addLogChange s.thash) rfl ?_,
    ⟨hWF.keyed, hWF.revisions⟩⟩
  let appended : Log H :=
    { log with
      TxHash := s.thash,
      BlockHash := s.bhash,
      TxIndex := s.txIndex,
      Index := s.logSize }
  rw [revertView_addLogChange _ _ (s.logs s.thash) appended
    (by simp [view, StateDB.AddLog, appended])]
  simp only [view, StateDB.AddLog, Function.update_idem,
    Function.update_eq_self,
    Nat.add_sub_cancel]
  rfl

theorem Reverts.AddPreimage
    {s : StateDB H}
    (hWF : s.WellFormed)
    (hash : H)
    (preimage : Bytes) :
    Reverts db s (s.AddPreimage hash preimage) ∧
      (s.AddPreimage hash preimage).WellFormed := by
  unfold StateDB.AddPreimage
  cases hKnown : s.preimages hash with
  | some known => exact ⟨Reverts.of_view rfl rfl, hWF⟩
  | none =>
      refine ⟨Reverts.single (.addPreimageChange hash) rfl
        ?_, ⟨hWF.keyed, hWF.revisions⟩⟩
      simp only [JournalEntry.revertView, view,
        Function.update_idem, ← hKnown,
        Function.update_eq_self]
      rfl

omit [DecidableEq H] [Inhabited H] in
theorem WellFormed.Snapshot
    {s : StateDB H}
    (hWF : s.WellFormed) :
    s.Snapshot.2.WellFormed := by
  refine ⟨hWF.keyed, ?_⟩
  intro revision hRevision
  simp only [StateDB.Snapshot, List.mem_append,
    List.mem_singleton] at hRevision
  rcases hRevision with hOld | rfl
  · exact Nat.lt_succ_of_lt (hWF.revisions revision hOld)
  · exact Nat.lt_succ_self _

end StateDB

end State

end PlasmaEvm

------------------------------------------------------------
-- Runs of Mutations
------------------------------------------------------------

namespace PlasmaEvm

namespace State

namespace StateDB

variable {H : Type} [DecidableEq H] [Inhabited H]
variable {db : Database H}

/-
  Every mutation is undone by the entries it appends, and
  keeps the invariant.
-/
theorem Reverts.apply
    {s t : StateDB H}
    (hWF : s.WellFormed)
    {m : Mutation H}
    (hApply : m.apply db s = some t) :
    Reverts db s t ∧ t.WellFormed := by
  cases m <;> simp only [Mutation.apply,
    Option.some.injEq] at hApply
  case SubRefund gas =>
    exact Reverts.SubRefund hWF gas hApply
  all_goals subst hApply
  case AddBalance addr amount =>
    exact Reverts.updateObject hWF addr
      (AddBalance_reverts amount)
  case SubBalance addr amount =>
    exact Reverts.updateObject hWF addr
      (SubBalance_reverts amount)
  case SetBalance addr amount =>
    exact Reverts.updateObject hWF addr
      (SetBalance_reverts amount)
  case SetNonce addr nonce =>
    exact Reverts.updateObject hWF addr (SetNonce_reverts nonce)
  case SetCode addr code =>
    exact Reverts.updateObject hWF addr (SetCode_reverts _ code)
  case SetState addr key value =>
    exact Reverts.updateObject hWF addr
      (SetState_reverts key value)
  case Suicide addr => exact Reverts.Suicide hWF addr
  case CreateAccount addr =>
    exact Reverts.CreateAccount hWF addr
  case AddRefund gas => exact Reverts.AddRefund hWF gas
  case AddLog log => exact Reverts.AddLog hWF log
  case AddPreimage hash preimage =>
    exact Reverts.AddPreimage hWF hash preimage
  case Snapshot =>
    exact ⟨Reverts.of_view rfl rfl, hWF.Snapshot⟩

/-
  A whole run of mutations is undone by the entries it
  appends.
-/
theorem Reverts.replay
    {s t : StateDB H}
    (hWF : s.WellFormed)
    {ms : List (Mutation H)}
    (hRun : Replay.replay (Mutation.apply db) s ms = some t) :
    Reverts db s t ∧ t.WellFormed := by
  have hStep : ∀ (u : StateDB H) (m : Mutation H) u',
    Reverts db s u ∧ u.WellFormed →
      m.apply db u = some u' → Reverts db s u' ∧
        u'.WellFormed := by
    intro u m u' hInv hApply
    have hNext := Reverts.apply hInv.2 hApply
    exact ⟨hInv.1.trans hNext.1, hNext.2⟩
  exact Replay.invariant hStep ⟨Reverts.of_view rfl rfl, hWF⟩ hRun

end StateDB

end State

end PlasmaEvm

------------------------------------------------------------
-- Revisions Along a Run
------------------------------------------------------------

namespace PlasmaEvm

namespace State

namespace StateDB

variable {H : Type} [DecidableEq H] [Inhabited H]
variable {db : Database H}

theorem GetOrNewStateObject_validRevisions
    (s : StateDB H)
    (addr : Address) :
    (s.GetOrNewStateObject db addr).2.validRevisions =
      s.validRevisions := by
  unfold GetOrNewStateObject
  split <;> rfl

theorem updateObject_validRevisions
    (s : StateDB H)
    (addr : Address)
    (change : StateObject H → Journal H →
      StateObject H × Journal H) :
    (s.updateObject db addr change).validRevisions =
      s.validRevisions := by
  have hKeep : (s.GetOrNewStateObject db
    addr).2.validRevisions = s.validRevisions :=
    GetOrNewStateObject_validRevisions s addr
  unfold StateDB.updateObject
  rcases hPair : s.GetOrNewStateObject db addr with ⟨obj, s'⟩
  rw [hPair] at hKeep
  exact hKeep

/-
  Only `Snapshot` changes the valid revisions, and it
  appends one.
-/
theorem validRevisions_apply
    {s t : StateDB H}
    {m : Mutation H}
    (hApply : m.apply db s = some t) :
    ∃ more,
      t.validRevisions = s.validRevisions ++ more := by
  cases m <;> simp only [Mutation.apply,
    Option.some.injEq] at hApply
  case SubRefund gas =>
    unfold StateDB.SubRefund at hApply
    dsimp only at hApply
    split at hApply
    · cases hApply
    · cases hApply
      exact ⟨[], by simp⟩
  case Snapshot =>
    subst hApply
    exact ⟨_, rfl⟩
  case Suicide addr =>
    subst hApply
    refine ⟨[], ?_⟩
    unfold StateDB.Suicide
    split <;> simp
  case CreateAccount addr =>
    subst hApply
    refine ⟨[], ?_⟩
    unfold StateDB.CreateAccount
    rcases hCreate : s.createObject db addr
      with ⟨⟨newObj, prev⟩, s'⟩
    have hKeep : (s.createObject db addr).2.validRevisions =
      s.validRevisions := rfl
    rw [hCreate] at hKeep
    cases prev <;> simpa using hKeep
  case AddPreimage hash preimage =>
    subst hApply
    refine ⟨[], ?_⟩
    unfold StateDB.AddPreimage
    split <;> simp
  all_goals
    subst hApply
    exact ⟨[],
      by
        simp [StateDB.AddBalance, StateDB.SubBalance,
          StateDB.SetBalance,
      StateDB.SetNonce, StateDB.SetCode, StateDB.SetState,
        updateObject_validRevisions,
      StateDB.AddRefund, StateDB.AddLog]⟩

theorem validRevisions_replay
    {s t : StateDB H}
    {ms : List (Mutation H)}
    (hRun : Replay.replay (Mutation.apply db) s ms = some t) :
    ∃ more,
      t.validRevisions = s.validRevisions ++ more := by
  have hStep : ∀ (u : StateDB H) (m : Mutation H) u',
      (∃ more,
        u.validRevisions = s.validRevisions ++ more) →
      m.apply db u = some u' → ∃ more,
        u'.validRevisions = s.validRevisions ++ more := by
    rintro u m u' ⟨more, hMore⟩ hApply
    rcases validRevisions_apply hApply with ⟨more', hMore'⟩
    exact ⟨more ++ more',
      by rw [hMore', hMore, List.append_assoc]⟩
  exact Replay.invariant hStep ⟨[], by simp⟩ hRun

end StateDB

end State

end PlasmaEvm

------------------------------------------------------------
-- Reverting to a Snapshot
------------------------------------------------------------

namespace PlasmaEvm

namespace State

namespace StateDB

variable {H : Type} [DecidableEq H] [Inhabited H]
variable {db : Database H}

/-
  The search stops at a fresh revision when every older id
  is smaller.
-/
theorem findIdx_fresh
    {old more : List Revision}
    {fresh : Revision}
    (hOld : ∀ revision ∈ old, revision.id < fresh.id) :
    (old ++ fresh :: more).findIdx (fun revision =>
      decide (fresh.id ≤ revision.id)) =
      old.length := by
  have hSkip : old.findIdx (fun revision =>
    decide (fresh.id ≤ revision.id)) = old.length := by
    rw [List.findIdx_eq_length]
    intro revision hRevision
    simpa using hOld revision hRevision
  rw [List.findIdx_append, hSkip, if_neg (Nat.lt_irrefl _),
    List.findIdx_cons]
  simp

/-
  Reverting to a fresh revision reverts the journal to its
  length and keeps the older revisions.
-/
theorem RevertToSnapshot_fresh
    {t : StateDB H}
    {old more : List Revision}
    {fresh : Revision}
    (hOld : ∀ revision ∈ old, revision.id < fresh.id)
    (hRevisions : t.validRevisions = old ++ fresh :: more) :
    t.RevertToSnapshot db fresh.id =
      (Journal.revert db t fresh.journalIndex).map fun r =>
        { r with validRevisions := old } := by
  unfold RevertToSnapshot
  dsimp only
  rw [hRevisions, findIdx_fresh hOld,
    List.getElem?_append_right (Nat.le_refl _), Nat.sub_self]
  simp [List.take_left']

theorem Journal.revert_append
    {t : StateDB H}
    {base es : List (JournalEntry H)}
    (hEntries : t.journal.entries = base ++ es) :
    Journal.revert db t base.length =
      (UndoLog.revertAll (JournalEntry.revertStep db) es t).map
        fun r =>
          { r with journal := { r.journal with entries := base } } := by
  unfold Journal.revert
  rw [hEntries, List.drop_left, List.take_left]

/-
  A revert to the snapshot of `s` from a state whose journal
  runs on from that of `s` by `es`, and whose revisions run
  on from those of `s` by the snapshot's: `es` is undone,
  the journal cut back to that of `s`, and the revisions of
  `s` put back.
-/
variable (db) in
theorem RevertToSnapshot_of_entries
    {s t : StateDB H}
    (hWF : s.WellFormed)
    {es : List (JournalEntry H)}
    (hEntries : t.journal.entries = s.journal.entries ++ es)
    {more : List Revision}
    (hRevisions : t.validRevisions =
      s.validRevisions ++ ⟨s.nextRevisionId,
        s.journal.length⟩ :: more) :
    t.RevertToSnapshot db s.Snapshot.1 =
      ((UndoLog.revertAll (JournalEntry.revertStep db) es
        t).map fun r =>
          { r with
            journal :=
              { r.journal with
                entries := s.journal.entries } }).map
        fun r =>
          { r with validRevisions := s.validRevisions } := by
  have hRevert : t.RevertToSnapshot db s.Snapshot.1 =
      (Journal.revert db t s.journal.length).map
        fun r =>
          { r with validRevisions := s.validRevisions } :=
    RevertToSnapshot_fresh hWF.revisions hRevisions
  rw [hRevert]
  exact congrArg _ (Journal.revert_append hEntries)

/- A getter reads the same of two states with one view. -/
theorem readStateObject_of_view
    {r s : StateDB H}
    (hView : r.view db = s.view db)
    (addr : Address)
    {α : Type}
    (read : StateObject H → α)
    (zero : α)
    (hRead : ∀ o o', o.view db = o'.view db →
      read o = read o') :
    r.readStateObject db addr read zero =
      s.readStateObject db addr read zero := by
  have hAlike := getStateObject_view db r addr
  rw [hView, ← getStateObject_view db s addr] at hAlike
  unfold readStateObject
  cases hR : r.getStateObject db addr with
  | none =>
      cases hS : s.getStateObject db addr with
      | none => rfl
      | some o' => simp [hR, hS] at hAlike
  | some o =>
      cases hS : s.getStateObject db addr with
      | none => simp [hR, hS] at hAlike
      | some o' =>
          simp only [hR, hS, Option.map_some,
            Option.some.injEq] at hAlike
          exact hRead o o' hAlike

/-
  The storage of an object without fake storage is in its
  view, so `GetState` reads the same of two states with one
  view there.
-/
theorem GetState_of_view
    {r s : StateDB H}
    (hView : r.view db = s.view db)
    (addr : Address)
    (key : H)
    (hFake : ∀ obj, s.getStateObject db addr = some obj →
      obj.fakeStorage = none) :
    r.GetState db addr key = s.GetState db addr key := by
  have hAlike := getStateObject_view db r addr
  rw [hView, ← getStateObject_view db s addr] at hAlike
  unfold GetState readStateObject
  cases hR : r.getStateObject db addr with
  | none =>
      cases hS : s.getStateObject db addr with
      | none => rfl
      | some o' => simp [hR, hS] at hAlike
  | some o =>
      cases hS : s.getStateObject db addr with
      | none => simp [hR, hS] at hAlike
      | some o' =>
          simp only [hR, hS, Option.map_some,
            Option.some.injEq] at hAlike
          have hStorage :=
            congrArg ObjectView.Storage hAlike
          have hNoFake := hFake o' hS
          cases hOFake : o.fakeStorage with
          | some fake =>
              simp [StateObject.view, hOFake,
                hNoFake] at hStorage
          | none =>
              simp only [StateObject.view, hOFake, hNoFake,
                Option.isSome_none,
                Bool.false_eq_true, if_false,
                  Option.some.injEq] at hStorage
              exact congrFun hStorage key

omit [DecidableEq H] in
theorem WellFormed.New :
    (StateDB.New : StateDB H).WellFormed :=
  ⟨by simp [StateDB.New], by simp [StateDB.New]⟩

/-
  A revert keeps the invariant, and leaves the revisions to
  `RevertToSnapshot`.
-/
theorem WellFormed.revertStep
    {s r : StateDB H}
    (hWF : s.WellFormed)
    {entry : JournalEntry H}
    (hRevert : entry.revertStep db s = some r) :
    r.WellFormed ∧ r.validRevisions = s.validRevisions ∧
      r.nextRevisionId = s.nextRevisionId := by
  unfold JournalEntry.revertStep at hRevert
  rcases Option.map_eq_some_iff.mp hRevert
    with ⟨reverted, hReverted, rfl⟩
  have hUndirty : ∀ u : StateDB H,
    (entry.undirty u).stateObjects = u.stateObjects ∧
      (entry.undirty u).validRevisions = u.validRevisions ∧
      (entry.undirty u).nextRevisionId =
        u.nextRevisionId := by
    intro u
    unfold JournalEntry.undirty
    split <;> exact ⟨rfl, rfl, rfl⟩
  suffices hKept : reverted.WellFormed ∧
    reverted.validRevisions = s.validRevisions ∧
      reverted.nextRevisionId = s.nextRevisionId by
    rcases hUndirty reverted with ⟨hObjects,
      hRevisions, hNext⟩
    refine ⟨⟨?_, ?_⟩, hRevisions.trans hKept.2.1,
      hNext.trans hKept.2.2⟩
    · rw [hObjects]
      exact hKept.1.keyed
    · rw [hRevisions, hNext]
      exact hKept.1.revisions
  cases entry with
  | createObjectChange account =>
      simp only [JournalEntry.revert,
        Option.some.injEq] at hReverted
      subst hReverted
      refine ⟨⟨?_, hWF.revisions⟩, rfl, rfl⟩
      intro addr obj hObj
      by_cases hAddr : addr = account
      · subst hAddr
        simp at hObj
      · simp only [Function.update_of_ne hAddr] at hObj
        exact hWF.keyed addr obj hObj
  | resetObjectChange prev =>
      simp only [JournalEntry.revert,
        Option.some.injEq] at hReverted
      subst hReverted
      exact ⟨hWF.setStateObject prev, rfl, rfl⟩
  | suicideChange account prev prevbalance =>
      simp only [JournalEntry.revert] at hReverted
      split at hReverted <;>
        simp only [Option.some.injEq] at hReverted <;>
        subst hReverted
      · exact ⟨hWF.setStateObject _, rfl, rfl⟩
      · exact ⟨hWF, rfl, rfl⟩
  | balanceChange account prev
  | nonceChange account prev
  | storageChange account _ prev
  | codeChange account _ prev =>
      simp only [JournalEntry.revert,
        Option.map_eq_some_iff] at hReverted
      rcases hReverted with ⟨obj, -, rfl⟩
      exact ⟨hWF.setStateObject _, rfl, rfl⟩
  | refundChange prev =>
      simp only [JournalEntry.revert,
        Option.some.injEq] at hReverted
      subst hReverted
      exact ⟨⟨hWF.keyed, hWF.revisions⟩, rfl, rfl⟩
  | addLogChange txhash =>
      simp only [JournalEntry.revert] at hReverted
      split at hReverted
      · cases hReverted
      · simp only [Option.some.injEq] at hReverted
        subst hReverted
        exact ⟨⟨hWF.keyed, hWF.revisions⟩, rfl, rfl⟩
  | addPreimageChange hash =>
      simp only [JournalEntry.revert,
        Option.some.injEq] at hReverted
      subst hReverted
      exact ⟨⟨hWF.keyed, hWF.revisions⟩, rfl, rfl⟩
  | touchChange account =>
      simp only [JournalEntry.revert,
        Option.some.injEq] at hReverted
      subst hReverted
      exact ⟨hWF, rfl, rfl⟩

/-
  RevertToSnapshot keeps the invariant: it keeps a prefix of
  the revisions.
-/
theorem WellFormed.RevertToSnapshot
    {t r : StateDB H}
    (hWF : t.WellFormed)
    {revid : Nat}
    (hRevert : t.RevertToSnapshot db revid = some r) :
    r.WellFormed := by
  unfold StateDB.RevertToSnapshot at hRevert
  dsimp only at hRevert
  split at hRevert
  · cases hRevert
  · split at hRevert
    · cases hRevert
    · rcases Option.map_eq_some_iff.mp hRevert
        with ⟨cut, hCut, rfl⟩
      unfold Journal.revert at hCut
      rcases Option.map_eq_some_iff.mp hCut
        with ⟨reverted, hReverted, rfl⟩
      have hStep : ∀ (entry : JournalEntry H) (u u' : StateDB H),
          (u.WellFormed ∧
            u.validRevisions = t.validRevisions ∧
            u.nextRevisionId = t.nextRevisionId) →
          entry.revertStep db u = some u' →
          (u'.WellFormed ∧
            u'.validRevisions = t.validRevisions ∧
            u'.nextRevisionId = t.nextRevisionId) := by
        intro entry u u' hInv hStep
        have hNext := hInv.1.revertStep hStep
        exact ⟨hNext.1, hNext.2.1.trans hInv.2.1,
          hNext.2.2.trans hInv.2.2⟩
      have hKept := UndoLog.revertAll_invariant
        (JournalEntry.revertStep db) hStep _
        ⟨hWF, rfl, rfl⟩ hReverted
      refine ⟨hKept.1.keyed, ?_⟩
      intro revision hRevision
      have hTaken : revision ∈ t.validRevisions :=
        List.mem_of_mem_take hRevision
      show revision.id < reverted.nextRevisionId
      rw [hKept.2.2]
      exact hWF.revisions revision hTaken

/-
  A revert to a snapshot is exact.  After any run of
  mutations from a snapshot of `s`, with more snapshots in
  between, the revert to it returns and every getter reads
  as in `s`: `GetState` wherever `s` has no fake storage.
  The journal is that of `s` again, and the valid revisions
  are those of `s`: the reverted one is gone with every
  later one.
-/
theorem RevertToSnapshot_restores_getters
    (db : Database H)
    {s t : StateDB H}
    (hWF : s.WellFormed)
    {ms : List (Mutation H)}
    (hRun : Replay.replay (Mutation.apply db)
      s.Snapshot.2 ms = some t) :
    ∃ r, t.RevertToSnapshot db s.Snapshot.1 = some r ∧
      (∀ addr, r.Exist db addr = s.Exist db addr) ∧
      (∀ addr, r.Empty db addr = s.Empty db addr) ∧
      (∀ addr,
        r.GetBalance db addr = s.GetBalance db addr) ∧
      (∀ addr, r.GetNonce db addr = s.GetNonce db addr) ∧
      (∀ addr, r.GetCode db addr = s.GetCode db addr) ∧
      (∀ addr,
        r.GetCodeHash db addr = s.GetCodeHash db addr) ∧
      (∀ addr,
        r.HasSuicided db addr = s.HasSuicided db addr) ∧
      (∀ addr key, (∀ obj, s.getStateObject db addr =
        some obj → obj.fakeStorage = none) →
        r.GetState db addr key = s.GetState db addr key) ∧
      r.GetRefund = s.GetRefund ∧
      (∀ hash, r.GetLogs hash = s.GetLogs hash) ∧
      r.logSize = s.logSize ∧
      r.Preimages = s.Preimages ∧
      r.journal.entries = s.journal.entries ∧
      r.validRevisions = s.validRevisions := by
  rcases (Reverts.replay hWF.Snapshot hRun).1
    with ⟨es, hEntries, r, hRevertAll, hView⟩
  rcases validRevisions_replay hRun with ⟨more, hMore⟩
  have hRevisions : t.validRevisions =
      s.validRevisions ++ ⟨s.nextRevisionId,
        s.journal.length⟩ :: more := by
    simp [hMore, StateDB.Snapshot]
  have hRevert :=
    RevertToSnapshot_of_entries db hWF hEntries hRevisions
  rw [hRevertAll] at hRevert
  refine ⟨_, hRevert, ?_⟩
  have hSame : ({ { r with
    journal :=
      { r.journal with entries := s.journal.entries } } with
      validRevisions := s.validRevisions } : StateDB H).view
        db = s.view db := hView
  refine ⟨fun addr => readStateObject_of_view hSame addr _ _
    fun _ _ _ => rfl,
    fun addr => readStateObject_of_view hSame addr _ _
      fun _ _ h => ?_,
    fun addr => readStateObject_of_view hSame addr _ _ fun _
      _ h => congrArg ObjectView.Balance h,
    fun addr => readStateObject_of_view hSame addr _ _ fun _
      _ h => congrArg ObjectView.Nonce h,
    fun addr => readStateObject_of_view hSame addr _ _ fun _
      _ h => congrArg ObjectView.Code h,
    fun addr => readStateObject_of_view hSame addr _ _ fun _
      _ h => congrArg ObjectView.CodeHash h,
    fun addr => readStateObject_of_view hSame addr _ _ fun _
      _ h => congrArg ObjectView.suicided h,
    fun addr key hFake =>
      GetState_of_view hSame addr key hFake,
    congrArg View.refund hSame,
    fun hash => congrFun (congrArg View.logs hSame) hash,
    congrArg View.logSize hSame,
    congrArg View.preimages hSame,
    rfl, rfl⟩
  have hNonce := congrArg ObjectView.Nonce h
  have hBalance := congrArg ObjectView.Balance h
  have hCodeHash := congrArg ObjectView.CodeHash h
  simp only [StateObject.view] at hNonce hBalance hCodeHash
  simp [StateObject.empty, hNonce, hBalance, hCodeHash]

/- A database with no accounts and empty storage tries. -/
def emptyDatabase : Database Nat :=
  { keccak := Types.natKeccak,
    emptyRoot := 0,
    account := fun _ => none,
    ContractCode := fun _ => [],
    storage := fun _ _ => 0 }

/-
  A database whose account 1 has the storage root 7, where
  slot 1 holds 9; the storage trie at every other root is
  empty.
-/
def storedDatabase : Database Nat :=
  { keccak := Types.natKeccak,
    emptyRoot := 0,
    account := fun addr =>
      if addr = ⟨1⟩
        then some ⟨0, 0, 7, Types.natKeccak.hash []⟩
      else none,
    ContractCode := fun _ => [],
    storage := fun root key =>
      if root = 7 ∧ key = 1 then 9 else 0 }

/-
  A run after a snapshot of the new state: a transfer, a
  storage write, a new account, refunds, a log, a preimage,
  a suicide and code, with a second snapshot among them.
-/
def revertRunMutations : List (Mutation Nat) :=
  [.AddBalance ⟨1⟩ 5, .Snapshot, .SetState ⟨1⟩ 1 2,
    .CreateAccount ⟨2⟩, .AddRefund 3,
   .SubRefund 1, .AddLog ⟨⟨1⟩, [], [], 0, 0, 0, 0⟩,
     .AddPreimage 7 [1], .Suicide ⟨1⟩,
   .SetCode ⟨2⟩ [96]]

def revertRun : StateDB Nat :=
  match Replay.replay (Mutation.apply emptyDatabase)
    (StateDB.New : StateDB Nat).Snapshot.2
      revertRunMutations with
  | some t => t
  | none => StateDB.New

theorem revertRun_restores_getters :
    ∃ r, revertRun.RevertToSnapshot emptyDatabase
      (StateDB.New : StateDB Nat).Snapshot.1 = some r ∧
      (∀ addr, r.Exist emptyDatabase addr =
        StateDB.New.Exist emptyDatabase addr) ∧
      (∀ addr, r.Empty emptyDatabase addr =
        StateDB.New.Empty emptyDatabase addr) ∧
      (∀ addr, r.GetBalance emptyDatabase addr =
        StateDB.New.GetBalance emptyDatabase addr) ∧
      (∀ addr, r.GetNonce emptyDatabase addr =
        StateDB.New.GetNonce emptyDatabase addr) ∧
      (∀ addr, r.GetCode emptyDatabase addr =
        StateDB.New.GetCode emptyDatabase addr) ∧
      (∀ addr, r.GetCodeHash emptyDatabase addr =
        StateDB.New.GetCodeHash emptyDatabase addr) ∧
      (∀ addr, r.HasSuicided emptyDatabase addr =
        StateDB.New.HasSuicided emptyDatabase addr) ∧
      (∀ addr key, (∀ obj, (StateDB.New : StateDB
        Nat).getStateObject emptyDatabase addr = some obj →
          obj.fakeStorage = none) →
        r.GetState emptyDatabase addr key =
          StateDB.New.GetState emptyDatabase addr key) ∧
      r.GetRefund = (StateDB.New : StateDB Nat).GetRefund ∧
      (∀ hash, r.GetLogs hash = (StateDB.New : StateDB
        Nat).GetLogs hash) ∧
      r.logSize = (StateDB.New : StateDB Nat).logSize ∧
      r.Preimages = (StateDB.New : StateDB Nat).Preimages ∧
      r.journal.entries = (StateDB.New : StateDB
        Nat).journal.entries ∧
      r.validRevisions = (StateDB.New : StateDB
        Nat).validRevisions :=
  RevertToSnapshot_restores_getters emptyDatabase WellFormed.New
    (show Replay.replay (Mutation.apply emptyDatabase)
      (StateDB.New : StateDB Nat).Snapshot.2
      revertRunMutations = some revertRun from rfl)

/-
  SetStorage keeps the invariant: it stores the object at
  its address.
-/
theorem WellFormed.SetStorage
    {s : StateDB H}
    (hWF : s.WellFormed)
    (addr : Address)
    (storage : List (H × H)) :
    (s.SetStorage db addr storage).WellFormed := by
  have hSpec := GetOrNewStateObject_spec db hWF addr
  unfold StateDB.SetStorage
  rcases hPair : s.GetOrNewStateObject db addr with ⟨obj, s'⟩
  rw [hPair] at hSpec
  exact hSpec.2.1.setStateObject _

/-
  After the debugging SetStorage has given account 1 fake
  storage, a write to it survives the revert, and the
  revision reverted to cannot be reverted to again.
-/
def fakeStorageState : StateDB Nat :=
  (StateDB.New : StateDB Nat).SetStorage
    emptyDatabase ⟨1⟩ [(1, 1)]

theorem revert_misses_fake_write_and_revision :
    fakeStorageState.WellFormed ∧
    fakeStorageState.GetState emptyDatabase ⟨1⟩ 1 = 1 ∧
    ((fakeStorageState.Snapshot.2.SetState emptyDatabase
      ⟨1⟩ 1 2).RevertToSnapshot
        emptyDatabase fakeStorageState.Snapshot.1).map
      (fun r => (r.GetState emptyDatabase ⟨1⟩ 1,
        (r.RevertToSnapshot emptyDatabase
          fakeStorageState.Snapshot.1).isSome)) =
      some (2, false) :=
  ⟨WellFormed.New.SetStorage ⟨1⟩ [(1, 1)],
    by decide, by decide⟩

end StateDB

end State

end PlasmaEvm
