import PlasmaEvm.Core.State.Revert

/-
  Reverts also bring back the committed storage.
  `GetCommittedState` reads a slot as it stood when the
  transaction began: the fake storage, else the pending
  writes of earlier transactions over the storage trie.  No
  journaled change of a live object touches those layers;
  only `createObject` puts another object at an address, and
  its entry puts the old one back.  So a revert restores the
  committed storage of every object without fake storage,
  together with the view of the getters.

  Key definitions include:
    * `StateDB.GetCommittedState`, `StateDB.committedView`
    * `JournalEntry.revertCommitted`,
      `StateDB.RevertsCommitted`

  Key statements include:
    * `JournalEntry.revertStep_committedView`
    * `JournalEntry.revertStep_congruent_committed`
    * `StateDB.RevertsCommitted.apply`
    * `StateDB.RevertToSnapshot_restores_committed`
-/

------------------------------------------------------------
-- Committed Storage
------------------------------------------------------------

namespace PlasmaEvm

namespace State

namespace StateObject

variable {H : Type}
variable (db : Database H)

/-
  The committed storage of an object as `GetCommittedState`
  reads it, and none for an object with fake storage, whose
  writes are not journaled.
-/
def committedStorage (o : StateObject H) : Option (H → H) :=
  if o.fakeStorage.isSome
    then none else some (o.GetCommittedState db)

@[simp] theorem committedStorage_setBalance
    (o : StateObject H)
    (amount : Int) :
    (o.setBalance amount).committedStorage db =
      o.committedStorage db := rfl

@[simp] theorem committedStorage_setNonce
    (o : StateObject H)
    (nonce : Nat) :
    (o.setNonce nonce).committedStorage db =
      o.committedStorage db := rfl

@[simp] theorem committedStorage_setCode
    (o : StateObject H)
    (codeHash : H)
    (code : Bytes) :
    (o.setCode codeHash code).committedStorage db =
      o.committedStorage db := rfl

@[simp] theorem committedStorage_setState
    [DecidableEq H]
    (o : StateObject H)
    (key value : H) :
    (o.setState key value).committedStorage db =
      o.committedStorage db := rfl

@[simp] theorem committedStorage_markSuicided
    (o : StateObject H) :
    o.markSuicided.committedStorage db =
      o.committedStorage db := rfl

@[simp] theorem committedStorage_suicided
    (o : StateObject H)
    (suicided : Bool) :
    ({ o with suicided := suicided } : StateObject
      H).committedStorage db =
      o.committedStorage db := rfl

end StateObject

namespace StateDB

variable {H : Type} [DecidableEq H] [Inhabited H]
variable (db : Database H)

/-
  GetCommittedState: the committed value of a slot of the
  live object, zero without one.
-/
def GetCommittedState
    (s : StateDB H)
    (addr : Address)
    (hash : H) : H :=
  s.readStateObject db addr (fun obj =>
    obj.GetCommittedState db hash) zeroHash

/-
  The committed storage of the object at each address, also
  of a deleted one.
-/
def committedView
    (s : StateDB H)
    (addr : Address) :
    Option (H → H) :=
  (s.getDeletedStateObject db addr).bind
    (StateObject.committedStorage db)

/-
  What the getters see, and the committed storage beneath.
-/
def viewCommitted
    (s : StateDB H) :
    View H × (Address → Option (H → H)) :=
  (s.view db, s.committedView db)

theorem committedView_setStateObject
    (s : StateDB H)
    (o : StateObject H) :
    (s.setStateObject o).committedView db =
      Function.update (s.committedView db) o.address
        (o.committedStorage db) := by
  funext addr
  by_cases hAddr : addr = o.address
  · subst hAddr
    simp [committedView,
      getDeletedStateObject_setStateObject]
  · simp [committedView,
      getDeletedStateObject_setStateObject, hAddr]

@[simp] theorem committedView_journal
    (s : StateDB H)
    (j : Journal H) :
    ({ s with journal := j } : StateDB H).committedView db =
      s.committedView db := rfl

theorem committedView_of_getDeleted
    {s : StateDB H}
    {addr : Address}
    {obj : StateObject H}
    (hObj : s.getDeletedStateObject db addr = some obj) :
    s.committedView db addr = obj.committedStorage db := by
  simp [committedView, hObj]

theorem committedView_of_getStateObject
    {s : StateDB H}
    {addr : Address}
    {obj : StateObject H}
    (hObj : s.getStateObject db addr = some obj) :
    s.committedView db addr = obj.committedStorage db :=
  committedView_of_getDeleted db
    ((getStateObject_eq_some db).mp hObj).1

/-
  Storing back a changed object with the same committed
  storage changes none.
-/
theorem committedView_setStateObject_of_getDeleted
    {s : StateDB H}
    {o o' : StateObject H}
    (hObj : s.getDeletedStateObject db o.address = some o')
    (hCommitted : o.committedStorage db =
      o'.committedStorage db) :
    (s.setStateObject o).committedView db =
      s.committedView db := by
  rw [committedView_setStateObject,
    hCommitted, ← committedView_of_getDeleted db hObj,
    Function.update_eq_self]

/-
  Under the invariant, the live object the view finds at an
  address has that address.
-/
theorem WellFormed.live_address
    {s : StateDB H}
    (hWF : s.WellFormed)
    {addr : Address}
    {ov : ObjectView H}
    (hLive : (s.view db).live addr = some ov) :
    ov.address = addr := by
  rw [← getStateObject_view] at hLive
  rcases Option.map_eq_some_iff.mp hLive
    with ⟨obj, hObj, rfl⟩
  exact hWF.address_of_getDeleted db
    ((getStateObject_eq_some db).mp hObj).1

end StateDB

end State

end PlasmaEvm

------------------------------------------------------------
-- Reverts on the Committed Storage
------------------------------------------------------------

namespace PlasmaEvm

namespace State

namespace JournalEntry

variable {H : Type} [DecidableEq H] [Inhabited H]
variable (db : Database H)

/-
  The entries whose revert puts another object at an
  address.
-/
def replacesObject : JournalEntry H → Bool
  | createObjectChange _ => true
  | resetObjectChange _ => true
  | _ => false

/-
  Reverting an entry, on the committed storage.  The entries
  of `createObject` put back what was at the address; the
  others store the live object they change, if any, where
  the view finds it.
-/
def revertCommitted
    (entry : JournalEntry H)
    (v : View H)
    (c : Address → Option (H → H)) :
    Address → Option (H → H) :=
  match entry with
  | createObjectChange account =>
      Function.update c account ((db.account
        account).bind fun data =>
        (StateObject.newObject db account
          data).committedStorage db)
  | resetObjectChange prev =>
      Function.update c prev.address (prev.committedStorage db)
  | suicideChange account _ _ | balanceChange account _ |
      nonceChange account _
  | storageChange account _ _ | codeChange account _ _ =>
      match v.live account with
      | some ov => Function.update c ov.address (c account)
      | none => c
  | refundChange _ | addLogChange _ | addPreimageChange _ |
      touchChange _ =>
      c

/-
  A change of the live object at `account`, on the committed
  storage.
-/
theorem committedView_map_setStateObject
    (s : StateDB H)
    (account : Address)
    (f : StateObject H → StateObject H)
    (hf : ∀ obj, (f obj).address = obj.address ∧
      (f obj).committedStorage db = obj.committedStorage db)
    {r : StateDB H}
    (hRevert : ((s.getStateObject db account).map fun obj =>
      s.setStateObject (f obj)) = some r) :
    r.committedView db =
      match (s.view db).live account with
      | some ov =>
          Function.update (s.committedView db) ov.address
            (s.committedView db account)
      | none => s.committedView db := by
  rcases Option.map_eq_some_iff.mp hRevert
    with ⟨obj, hObj, rfl⟩
  rw [← StateDB.getStateObject_view, hObj, Option.map_some,
    StateDB.committedView_setStateObject,
    (hf obj).1, (hf obj).2,
      StateDB.committedView_of_getStateObject db hObj]
  rfl

/-
  Each revert does to the committed storage what
  `revertCommitted` says.
-/
theorem revert_committedView
    (entry : JournalEntry H)
    (s : StateDB H)
    {r : StateDB H}
    (hRevert : entry.revert db s = some r) :
    r.committedView db = entry.revertCommitted db
      (s.view db) (s.committedView db) := by
  cases entry with
  | createObjectChange account =>
      simp only [revert, Option.some.injEq] at hRevert
      subst hRevert
      funext addr
      by_cases hAddr : addr = account
      · subst hAddr
        simp [revertCommitted, StateDB.committedView,
          StateDB.getDeletedStateObject,
          Option.bind_map]
      · simp [revertCommitted, StateDB.committedView,
          StateDB.getDeletedStateObject, hAddr]
  | resetObjectChange prev =>
      simp only [revert, Option.some.injEq] at hRevert
      subst hRevert
      exact StateDB.committedView_setStateObject db s prev
  | suicideChange account prev prevbalance =>
      simp only [revert] at hRevert
      have hLive := StateDB.getStateObject_view db s account
      cases hObj : s.getStateObject db account with
      | none =>
          rw [hObj, Option.some.injEq] at hRevert
          rw [hObj, Option.map_none] at hLive
          subst hRevert
          simp only [revertCommitted, ← hLive]
      | some obj =>
          rw [hObj, Option.some.injEq] at hRevert
          rw [hObj, Option.map_some] at hLive
          subst hRevert
          simp only [revertCommitted, ← hLive,
            StateDB.committedView_setStateObject,
            StateObject.committedStorage_setBalance,
              StateObject.committedStorage_suicided,
            StateDB.committedView_of_getStateObject db hObj]
          rfl
  | balanceChange account prev =>
      exact committedView_map_setStateObject db s account
        (fun obj => obj.setBalance prev)
        (fun _ => ⟨rfl, rfl⟩) hRevert
  | nonceChange account prev =>
      exact committedView_map_setStateObject db s account
        (fun obj => obj.setNonce prev)
        (fun _ => ⟨rfl, rfl⟩) hRevert
  | storageChange account key prevalue =>
      exact committedView_map_setStateObject db s account
        (fun obj => obj.setState key prevalue)
        (fun _ => ⟨rfl, rfl⟩) hRevert
  | codeChange account prevcode prevhash =>
      exact committedView_map_setStateObject db s account
        (fun obj => obj.setCode prevhash prevcode)
        (fun _ => ⟨rfl, rfl⟩) hRevert
  | refundChange prev =>
      simp only [revert, Option.some.injEq] at hRevert
      subst hRevert
      rfl
  | addLogChange txhash =>
      simp only [revert] at hRevert
      split at hRevert
      · cases hRevert
      · simp only [Option.some.injEq] at hRevert
        subst hRevert
        rfl
  | addPreimageChange hash =>
      simp only [revert, Option.some.injEq] at hRevert
      subst hRevert
      rfl
  | touchChange account =>
      simp only [revert, Option.some.injEq] at hRevert
      subst hRevert
      rfl

@[simp] theorem committedView_undirty
    (entry : JournalEntry H)
    (s : StateDB H) :
    (entry.undirty s).committedView db =
      s.committedView db := by
  unfold undirty
  cases entry.dirtied <;> rfl

theorem revertStep_committedView
    (entry : JournalEntry H)
    (s : StateDB H)
    {r : StateDB H}
    (hRevert : entry.revertStep db s = some r) :
    r.committedView db = entry.revertCommitted db
      (s.view db) (s.committedView db) := by
  rcases Option.map_eq_some_iff.mp hRevert
    with ⟨reverted, hReverted, rfl⟩
  rw [committedView_undirty, revert_committedView db
    entry s hReverted]

/-
  The revert loop reads a state only through its view and
  its committed storage.
-/
theorem revertStep_congruent_committed :
    UndoLog.Congruent (revertStep db)
      (StateDB.viewCommitted db : StateDB H → _) := by
  intro entry s s' hSame
  have hView : s.view db = s'.view db :=
    congrArg Prod.fst hSame
  have hCommitted : s.committedView db =
    s'.committedView db := congrArg Prod.snd hSame
  have hAlike := revertStep_view db entry s
  rw [hView, ← revertStep_view db entry s'] at hAlike
  cases hR : entry.revertStep db s with
  | none =>
      cases hR' : entry.revertStep db s' with
      | none => rfl
      | some r' => simp [hR, hR'] at hAlike
  | some r =>
      cases hR' : entry.revertStep db s' with
      | none => simp [hR, hR'] at hAlike
      | some r' =>
          simp only [hR, hR', Option.map_some,
            Option.some.injEq] at hAlike ⊢
          simp only [StateDB.viewCommitted, hAlike,
            revertStep_committedView db entry s hR,
            revertStep_committedView db entry s' hR',
              hView, hCommitted]

/-
  An entry that changes one live object leaves the committed
  storage where every live object sits at its own address.
-/
theorem revertCommitted_eq_self
    {entry : JournalEntry H}
    (hKeep : entry.replacesObject = false)
    {v : View H}
    (hKeyed : ∀ addr ov, v.live addr = some ov →
      ov.address = addr)
    (c : Address → Option (H → H)) :
    entry.revertCommitted db v c = c := by
  have hStore : ∀ account, (match v.live account with
      | some ov => Function.update c ov.address (c account)
      | none => c) = c := by
    intro account
    cases hLive : v.live account with
    | none => rfl
    | some ov =>
        show Function.update c ov.address (c account) = c
        rw [hKeyed account ov hLive]
        exact Function.update_eq_self account c
  cases entry <;> simp only [replacesObject,
    Bool.true_eq_false] at hKeep <;>
    simp only [revertCommitted, hStore]

end JournalEntry

end State

end PlasmaEvm

------------------------------------------------------------
-- Changes Whose Entries Restore the Committed Storage
------------------------------------------------------------

namespace PlasmaEvm

namespace State

namespace StateDB

variable {H : Type} [DecidableEq H] [Inhabited H]
variable (db : Database H)

/-
  `t` is `s` after changes whose entries, appended to its
  journal, revert to what the getters see of `s` and to its
  committed storage.
-/
def RevertsCommitted (s t : StateDB H) : Prop :=
  ∃ es, t.journal.entries = s.journal.entries ++ es ∧
    UndoLog.Undoes (JournalEntry.revertStep db)
      (viewCommitted db) es s t

variable {db}

theorem RevertsCommitted.of_view
    {s t : StateDB H}
    (hEntries : t.journal.entries = s.journal.entries)
    (hView : t.viewCommitted db = s.viewCommitted db) :
    RevertsCommitted db s t :=
  ⟨[], by simp [hEntries], UndoLog.Undoes.nil hView⟩

theorem RevertsCommitted.trans
    {s t u : StateDB H}
    (h₁ : RevertsCommitted db s t)
    (h₂ : RevertsCommitted db t u) :
    RevertsCommitted db s u := by
  rcases h₁ with ⟨es₁, hEntries₁, hUndoes₁⟩
  rcases h₂ with ⟨es₂, hEntries₂, hUndoes₂⟩
  refine ⟨es₁ ++ es₂,
    by rw [hEntries₂, hEntries₁, List.append_assoc], ?_⟩
  exact UndoLog.Undoes.append
    (JournalEntry.revertStep_congruent_committed db)
    hUndoes₁ hUndoes₂

theorem RevertsCommitted.reverts
    {s t : StateDB H}
    (h : RevertsCommitted db s t) :
    Reverts db s t := by
  rcases h with ⟨es, hEntries, r, hRevert, hView⟩
  exact ⟨es, hEntries, r, hRevert, congrArg Prod.fst hView⟩

/-
  Changes that are undone on the view, replace no object and
  keep the committed storage are undone on it too: the
  reverts of their entries leave it as it is.
-/
theorem RevertsCommitted.of_reverts
    {s t : StateDB H}
    (hWF : t.WellFormed)
    (hReverts : Reverts db s t)
    {es : List (JournalEntry H)}
    (hEntries : t.journal.entries = s.journal.entries ++ es)
    (hKeep : ∀ e ∈ es, e.replacesObject = false)
    (hCommitted : t.committedView db = s.committedView db) :
    RevertsCommitted db s t := by
  rcases hReverts with ⟨es', hEntries', r, hRevert, hView⟩
  have hSame : es' = es := List.append_cancel_left
    (hEntries'.symm.trans hEntries)
  subst hSame
  refine ⟨es', hEntries, r, hRevert, ?_⟩
  have hStep : ∀ e ∈ es', ∀ u u', (u.WellFormed ∧
    u.committedView db = t.committedView db) →
      e.revertStep db u = some u' →
      (u'.WellFormed ∧ u'.committedView db =
        t.committedView db) := by
    intro e he u u' hInv hRevertStep
    refine ⟨(hInv.1.revertStep hRevertStep).1, ?_⟩
    rw [JournalEntry.revertStep_committedView db e u hRevertStep,
      JournalEntry.revertCommitted_eq_self db (hKeep e he)
        (fun _ _ hLive =>
          hInv.1.live_address db hLive), hInv.2]
  have hKept := UndoLog.revertAll_invariant_of_mem _ hStep
    ⟨hWF, rfl⟩ hRevert
  show (r.view db, r.committedView db) = (s.view db,
    s.committedView db)
  rw [hView, hKept.2, hCommitted]

/-
  A change undone on the view by one entry, whose revert
  gives back the committed storage.
-/
theorem RevertsCommitted.of_reverts_single
    {s t : StateDB H}
    (hReverts : Reverts db s t)
    (entry : JournalEntry H)
    (hEntries : t.journal.entries =
      s.journal.entries ++ [entry])
    (hCommitted : entry.revertCommitted db (t.view db)
      (t.committedView db) = s.committedView db) :
    RevertsCommitted db s t := by
  rcases hReverts with ⟨es, hEntries', r, hRevert, hView⟩
  have hSame : es = [entry] := List.append_cancel_left
    (hEntries'.symm.trans hEntries)
  subst hSame
  refine ⟨[entry], hEntries, r, hRevert, ?_⟩
  show (r.view db, r.committedView db) = (s.view db,
    s.committedView db)
  rw [hView, JournalEntry.revertStep_committedView db entry
    t hRevert, hCommitted]

/-
  Nothing at an address: no account in the trie and no
  committed storage.
-/
theorem account_of_getDeleted_none
    {s : StateDB H}
    {addr : Address}
    (hNone : s.getDeletedStateObject db addr = none) :
    db.account addr = none ∧
      s.committedView db addr = none := by
  refine ⟨?_, by simp [committedView, hNone]⟩
  unfold getDeletedStateObject at hNone
  split at hNone
  · cases hNone
  · exact Option.map_eq_none_iff.mp hNone

/-
  createObject is undone on the committed storage too: the
  revert of a fresh object finds no account in the trie, and
  the replaced object comes back whole.
-/
theorem RevertsCommitted.createObject
    {s : StateDB H}
    (hWF : s.WellFormed)
    (addr : Address)
    (o : StateObject H)
    (hAddress : o.address = addr) :
    RevertsCommitted db s ((s.createObject db
      addr).2.setStateObject o) := by
  have hReverts : Reverts db s _ :=
    Reverts.createObject hWF addr o hAddress
  unfold StateDB.createObject at hReverts ⊢
  cases hPrev : s.getDeletedStateObject db addr with
  | none =>
      rw [hPrev] at hReverts
      obtain ⟨hAccount, hNothing⟩ :=
        account_of_getDeleted_none hPrev
      refine RevertsCommitted.of_reverts_single hReverts
        (.createObjectChange addr) (by simp) ?_
      simp only [JournalEntry.revertCommitted,
        committedView_setStateObject, committedView_journal,
        hAddress, StateObject.setNonce_address,
          StateObject.newObject_address,
        Function.update_idem, hAccount, Option.bind_none]
      rw [← hNothing, Function.update_eq_self]
  | some prev =>
      rw [hPrev] at hReverts
      have hPrevAddress :=
        hWF.address_of_getDeleted db hPrev
      refine RevertsCommitted.of_reverts_single hReverts
        (.resetObjectChange prev) (by simp) ?_
      simp only [JournalEntry.revertCommitted,
        committedView_setStateObject, committedView_journal,
        hAddress, hPrevAddress,
          StateObject.setNonce_address,
          StateObject.newObject_address,
        Function.update_idem]
      rw [← committedView_of_getDeleted db hPrev,
        Function.update_eq_self]

theorem RevertsCommitted.GetOrNewStateObject
    {s : StateDB H}
    (hWF : s.WellFormed)
    (addr : Address) :
    RevertsCommitted db s (s.GetOrNewStateObject db addr).2 := by
  unfold StateDB.GetOrNewStateObject
  cases s.getStateObject db addr with
  | some obj => exact RevertsCommitted.of_view rfl rfl
  | none =>
      rw [← createObject_fresh db s addr]
      exact RevertsCommitted.createObject hWF addr _ rfl

end StateDB

end State

end PlasmaEvm

------------------------------------------------------------
-- Every Change Restores the Committed Storage
------------------------------------------------------------

namespace PlasmaEvm

namespace State

namespace StateDB

variable {H : Type} [DecidableEq H] [Inhabited H]
variable (db : Database H)

/-
  A journaled change of an object that keeps its address and
  its committed storage, and appends no entry that replaces
  an object.
-/
def ObjectChangeKeeps
    (change : StateObject H → Journal H →
      StateObject H × Journal H) :
    Prop :=
  ∀ obj j, (change obj j).1.address = obj.address ∧
    (change obj j).1.committedStorage db =
      obj.committedStorage db ∧
    ∃ es, (change obj j).2.entries = j.entries ++ es ∧
      ∀ e ∈ es, e.replacesObject = false

variable {db}

omit [DecidableEq H] [Inhabited H] in
theorem SetBalance_keeps (amount : Int) :
    ObjectChangeKeeps db fun obj => obj.SetBalance amount :=
  fun obj _ => ⟨rfl, rfl, [.balanceChange obj.address
    obj.data.Balance], rfl,
    by simp [JournalEntry.replacesObject]⟩

omit [DecidableEq H] [Inhabited H] in
theorem SetNonce_keeps (nonce : Nat) :
    ObjectChangeKeeps db fun obj => obj.SetNonce nonce :=
  fun obj _ => ⟨rfl, rfl, [.nonceChange obj.address
    obj.data.Nonce], rfl,
    by simp [JournalEntry.replacesObject]⟩

omit [Inhabited H] in
theorem SetCode_keeps (codeHash : H) (code : Bytes) :
    ObjectChangeKeeps db fun obj =>
      obj.SetCode db codeHash code :=
  fun obj _ => ⟨rfl, rfl, [.codeChange obj.address
    (obj.Code db) obj.data.CodeHash], rfl,
    by simp [JournalEntry.replacesObject]⟩

omit [Inhabited H] in
theorem AddBalance_keeps (amount : Int) :
    ObjectChangeKeeps db fun obj =>
      obj.AddBalance db amount := by
  intro obj j
  unfold StateObject.AddBalance
  dsimp only
  split
  · refine ⟨rfl, rfl, ?_⟩
    split
    · exact ⟨[.touchChange obj.address],
        touch_entries obj j,
        by simp [JournalEntry.replacesObject]⟩
    · exact ⟨[], by simp, by simp⟩
  · exact SetBalance_keeps _ obj j

omit [DecidableEq H] [Inhabited H] in
theorem SubBalance_keeps (amount : Int) :
    ObjectChangeKeeps db fun obj =>
      obj.SubBalance amount := by
  intro obj j
  unfold StateObject.SubBalance
  dsimp only
  split
  · exact ⟨rfl, rfl, [], by simp, by simp⟩
  · exact SetBalance_keeps _ obj j

/-
  A write to fake storage keeps it fake, so its committed
  storage stays none.
-/
omit [Inhabited H] in
theorem SetState_keeps (key value : H) :
    ObjectChangeKeeps db fun obj =>
      obj.SetState db key value := by
  intro obj j
  unfold StateObject.SetState
  dsimp only
  split
  · rename_i fake hFake
    refine ⟨rfl, ?_, [], by simp, by simp⟩
    simp [StateObject.committedStorage, hFake]
  · split
    · exact ⟨rfl, rfl, [], by simp, by simp⟩
    · exact ⟨rfl, rfl, [.storageChange obj.address key
        (obj.GetState db key)], rfl,
        by simp [JournalEntry.replacesObject]⟩

/-
  A journaled change of the object at an address, made first
  if there is none.
-/
theorem RevertsCommitted.updateObject
    {s : StateDB H}
    (hWF : s.WellFormed)
    (addr : Address)
    {change : StateObject H → Journal H →
      StateObject H × Journal H}
    (hChange : ObjectChangeReverts db change)
    (hKeeps : ObjectChangeKeeps db change) :
    RevertsCommitted db s (s.updateObject db addr change) := by
  have hSpec := GetOrNewStateObject_spec db hWF addr
  have hFirst : RevertsCommitted db s
    (s.GetOrNewStateObject db addr).2 :=
    RevertsCommitted.GetOrNewStateObject hWF addr
  unfold StateDB.updateObject
  rcases hPair : s.GetOrNewStateObject db addr with ⟨obj, s'⟩
  rw [hPair] at hSpec hFirst
  rcases hSpec with ⟨-, hWF', hObj, hAddress⟩
  rcases hKeeps obj s'.journal with ⟨hSameAddress,
    hSameCommitted, es, hEntries, hNoReplace⟩
  have hFound : ({ s' with
    journal := (change obj s'.journal).2 } : StateDB
      H).getDeletedStateObject
      db (change obj s'.journal).1.address = some obj := by
    rw [hSameAddress, hAddress,
      getDeletedStateObject_journal]
    exact ((getStateObject_eq_some db).mp hObj).1
  refine hFirst.trans (RevertsCommitted.of_reverts
    ((hWF'.journal _).setStateObject _)
    (hChange s' obj (by rw [hAddress]; exact hObj))
      hEntries hNoReplace ?_)
  exact committedView_setStateObject_of_getDeleted db
    hFound hSameCommitted

end StateDB

end State

end PlasmaEvm

------------------------------------------------------------
-- The Other Changes and Runs
------------------------------------------------------------

namespace PlasmaEvm

namespace State

namespace StateDB

variable {H : Type} [DecidableEq H] [Inhabited H]
variable {db : Database H}

/-
  Suicide changes the live object's flag and balance, not
  its storage.
-/
theorem RevertsCommitted.Suicide
    {s : StateDB H}
    (hWF : s.WellFormed)
    (addr : Address) :
    RevertsCommitted db s (s.Suicide db addr).2 := by
  obtain ⟨hReverts, hWF'⟩ : Reverts db s
    (s.Suicide db addr).2 ∧
    (s.Suicide db addr).2.WellFormed :=
    Reverts.Suicide hWF addr
  unfold StateDB.Suicide at hReverts hWF' ⊢
  cases hObj : s.getStateObject db addr with
  | none => exact RevertsCommitted.of_view rfl rfl
  | some obj =>
      rw [hObj] at hReverts hWF'
      have hFound := (getStateObject_eq_some db).mp hObj
      have hAt : s.getDeletedStateObject db
        (obj.markSuicided.setBalance 0).address = some obj := by
        rw [StateObject.setBalance_address,
          StateObject.markSuicided_address,
          hWF.address_of_getDeleted db hFound.1]
        exact hFound.1
      exact RevertsCommitted.of_reverts hWF' hReverts rfl
        (by simp [JournalEntry.replacesObject])
        (committedView_setStateObject_of_getDeleted db hAt rfl)

/-
  CreateAccount is the `createObject` of its address, with
  or without the old balance.
-/
theorem RevertsCommitted.CreateAccount
    {s : StateDB H}
    (hWF : s.WellFormed)
    (addr : Address) :
    RevertsCommitted db s (s.CreateAccount db addr) := by
  unfold StateDB.CreateAccount
  rcases hCreate : s.createObject db addr
    with ⟨⟨newObj, prev⟩, s'⟩
  have hFresh := createObject_fresh db s addr
  have hAddress : (s.createObject db
    addr).1.1.address = addr := rfl
  rw [hCreate] at hFresh hAddress
  cases prev with
  | some prev =>
      have hReverts : RevertsCommitted db s _ :=
        RevertsCommitted.createObject hWF addr
          (newObj.setBalance prev.data.Balance) hAddress
      rw [hCreate] at hReverts
      exact hReverts
  | none =>
      have hReverts : RevertsCommitted db s _ :=
        RevertsCommitted.createObject hWF addr newObj hAddress
      rw [hCreate] at hReverts
      simp only at hFresh hReverts ⊢
      rw [hFresh] at hReverts
      exact hReverts

/-
  A change of the counters and records beside the objects.
-/
theorem RevertsCommitted.of_objects
    {s t : StateDB H}
    (hWF : t.WellFormed)
    (hReverts : Reverts db s t)
    (entry : JournalEntry H)
    (hKeep : entry.replacesObject = false)
    (hEntries : t.journal.entries =
      s.journal.entries ++ [entry])
    (hObjects : t.stateObjects = s.stateObjects) :
    RevertsCommitted db s t := by
  refine RevertsCommitted.of_reverts hWF hReverts hEntries
    (by simpa using hKeep) ?_
  funext addr
  simp only [committedView, getDeletedStateObject, hObjects]

/- Every mutation is undone on the committed storage too. -/
theorem RevertsCommitted.apply
    {s t : StateDB H}
    (hWF : s.WellFormed)
    {m : Mutation H}
    (hApply : m.apply db s = some t) :
    RevertsCommitted db s t := by
  have hReverts := Reverts.apply hWF hApply
  cases m <;> simp only [Mutation.apply,
    Option.some.injEq] at hApply
  case SubRefund gas =>
    unfold StateDB.SubRefund at hApply
    dsimp only at hApply
    split at hApply
    · cases hApply
    · cases hApply
      exact RevertsCommitted.of_objects hReverts.2
        hReverts.1 (.refundChange s.refund) rfl rfl rfl
  all_goals subst hApply
  case AddBalance addr amount =>
    exact RevertsCommitted.updateObject hWF addr
      (AddBalance_reverts amount) (AddBalance_keeps amount)
  case SubBalance addr amount =>
    exact RevertsCommitted.updateObject hWF addr
      (SubBalance_reverts amount) (SubBalance_keeps amount)
  case SetBalance addr amount =>
    exact RevertsCommitted.updateObject hWF addr
      (SetBalance_reverts amount) (SetBalance_keeps amount)
  case SetNonce addr nonce =>
    exact RevertsCommitted.updateObject hWF addr
      (SetNonce_reverts nonce) (SetNonce_keeps nonce)
  case SetCode addr code =>
    exact RevertsCommitted.updateObject hWF addr
      (SetCode_reverts _ code) (SetCode_keeps _ code)
  case SetState addr key value =>
    exact RevertsCommitted.updateObject hWF addr
      (SetState_reverts key value)
      (SetState_keeps key value)
  case Suicide addr =>
    exact RevertsCommitted.Suicide hWF addr
  case CreateAccount addr =>
    exact RevertsCommitted.CreateAccount hWF addr
  case AddRefund gas =>
    exact RevertsCommitted.of_objects hReverts.2 hReverts.1
      (.refundChange s.refund) rfl rfl rfl
  case AddLog log =>
    exact RevertsCommitted.of_objects hReverts.2 hReverts.1
      (.addLogChange s.thash) rfl rfl rfl
  case AddPreimage hash preimage =>
    revert hReverts
    unfold StateDB.AddPreimage
    cases s.preimages hash with
    | some known =>
        exact fun _ => RevertsCommitted.of_view rfl rfl
    | none =>
        exact fun hReverts =>
          RevertsCommitted.of_objects hReverts.2 hReverts.1
            (.addPreimageChange hash) rfl rfl rfl
  case Snapshot => exact RevertsCommitted.of_view rfl rfl

/-
  A revert to a fresh snapshot is exact on the committed
  storage as on the view: after changes from the snapshot of
  `s` that its entries undo, with the revisions of `s` and
  the snapshot's in front, the revert returns with the view
  and the committed storage of `s`, its journal and its
  revisions.
-/
theorem RevertToSnapshot_restores_committed
    {s t : StateDB H}
    (hWF : s.WellFormed)
    (hReverts : RevertsCommitted db s.Snapshot.2 t)
    {more : List Revision}
    (hRevisions : t.validRevisions =
      s.validRevisions ++ ⟨s.nextRevisionId,
        s.journal.length⟩ :: more) :
    ∃ r, t.RevertToSnapshot db s.Snapshot.1 = some r ∧
      r.viewCommitted db = s.viewCommitted db ∧
      r.journal.entries = s.journal.entries ∧
      r.validRevisions = s.validRevisions := by
  rcases hReverts with ⟨es, hEntries, r, hRevertAll, hView⟩
  have hRevert :=
    RevertToSnapshot_of_entries db hWF hEntries hRevisions
  rw [hRevertAll] at hRevert
  exact ⟨_, hRevert, hView, rfl, rfl⟩

/-
  The committed storage is undone along every run of
  mutations.
-/
theorem RevertsCommitted.replay
    {s t : StateDB H}
    (hWF : s.WellFormed)
    {ms : List (Mutation H)}
    (hRun : Replay.replay (Mutation.apply db) s ms = some t) :
    RevertsCommitted db s t ∧ t.WellFormed := by
  have hStep : ∀ (u : StateDB H) (m : Mutation H) u',
    RevertsCommitted db s u ∧ u.WellFormed →
      m.apply db u = some u' → RevertsCommitted db s u' ∧
        u'.WellFormed := by
    intro u m u' hInv hApply
    exact ⟨hInv.1.trans (RevertsCommitted.apply hInv.2
      hApply), (Reverts.apply hInv.2 hApply).2⟩
  exact Replay.invariant hStep ⟨RevertsCommitted.of_view
    rfl rfl, hWF⟩ hRun

/-
  The view and the committed storage fix every committed
  value at an address whose live object has no fake storage:
  fake storage is in neither.
-/
theorem GetCommittedState_of_viewCommitted
    {r s : StateDB H}
    (hView : r.viewCommitted db = s.viewCommitted db)
    (addr : Address)
    (key : H)
    (hFake : ∀ obj, s.getStateObject db addr = some obj →
      obj.fakeStorage = none) :
    r.GetCommittedState db addr key =
      s.GetCommittedState db addr key := by
  have hLive : (r.getStateObject db addr).map
    (StateObject.view db) =
      (s.getStateObject db addr).map (StateObject.view db) := by
    have hObjects : r.view db = s.view db :=
      congrArg Prod.fst hView
    rw [getStateObject_view, getStateObject_view, hObjects]
  have hCommitted : r.committedView db addr =
    s.committedView db addr :=
    congrFun (congrArg Prod.snd hView) addr
  unfold GetCommittedState readStateObject
  cases hS : s.getStateObject db addr with
  | none =>
      rw [hS, Option.map_none,
        Option.map_eq_none_iff] at hLive
      rw [hLive]
  | some obj =>
      rw [hS, Option.map_some,
        Option.map_eq_some_iff] at hLive
      obtain ⟨obj', hR, -⟩ := hLive
      rw [hR]
      rw [committedView_of_getStateObject db hR,
        committedView_of_getStateObject db hS] at hCommitted
      simp only [StateObject.committedStorage, hFake obj hS,
        Option.isSome_none,
        Bool.false_eq_true, if_false] at hCommitted
      split at hCommitted
      · cases hCommitted
      · exact congrFun (Option.some.inj hCommitted) key

/-
  A revert to a snapshot restores the committed storage that
  net gas metering reads: after any run of mutations from a
  snapshot of `s`, with more snapshots in between, the
  revert returns and every committed value reads as in `s`,
  wherever `s` has no fake storage.
-/
theorem RevertToSnapshot_restores_GetCommittedState
    (db : Database H)
    {s t : StateDB H}
    (hWF : s.WellFormed)
    {ms : List (Mutation H)}
    (hRun : Replay.replay (Mutation.apply db)
      s.Snapshot.2 ms = some t) :
    ∃ r, t.RevertToSnapshot db s.Snapshot.1 = some r ∧
      ∀ addr key, (∀ obj, s.getStateObject db addr =
        some obj → obj.fakeStorage = none) →
        r.GetCommittedState db addr key =
          s.GetCommittedState db addr key := by
  obtain ⟨hReverts, -⟩ := RevertsCommitted.replay
    hWF.Snapshot hRun
  obtain ⟨more, hMore⟩ := validRevisions_replay hRun
  obtain ⟨r, hRevert, hView, -, -⟩ :=
    RevertToSnapshot_restores_committed hWF hReverts
    (show t.validRevisions = s.validRevisions ++
      ⟨s.nextRevisionId, s.journal.length⟩ :: more by
      simp [hMore, StateDB.Snapshot])
  exact ⟨r, hRevert, fun addr key hFake =>
    GetCommittedState_of_viewCommitted hView addr key hFake⟩

/-
  Account 1 of storedDatabase has slot 1 committed at 9.
  After a snapshot of the new state, a run clears the slot,
  suicides the account, creates it again, whose fresh object
  reads slot 1 committed at 0 from the empty trie, and
  writes the slot.
-/
def recreateRunMutations : List (Mutation Nat) :=
  [.SetState ⟨1⟩ 1 0, .Suicide ⟨1⟩, .CreateAccount ⟨1⟩,
    .SetState ⟨1⟩ 1 5]

/-
  The revert after that run reads the committed 9 of slot 1
  again, as every committed value of the new state.
-/
theorem RevertToSnapshot_restores_GetCommittedState_recreated :
    ∃ t, Replay.replay (Mutation.apply storedDatabase)
        (StateDB.New : StateDB Nat).Snapshot.2
        recreateRunMutations = some t ∧
      ∃ r, t.RevertToSnapshot storedDatabase
          (StateDB.New : StateDB Nat).Snapshot.1 = some r ∧
        ∀ addr key,
          (∀ obj, (StateDB.New : StateDB Nat).getStateObject
              storedDatabase addr = some obj →
            obj.fakeStorage = none) →
          r.GetCommittedState storedDatabase addr key =
            StateDB.New.GetCommittedState
              storedDatabase addr key := by
  obtain ⟨t, hRun⟩ : ∃ t, Replay.replay
      (Mutation.apply storedDatabase)
      (StateDB.New : StateDB Nat).Snapshot.2
      recreateRunMutations = some t := ⟨_, rfl⟩
  exact ⟨t, hRun,
    RevertToSnapshot_restores_GetCommittedState
    storedDatabase WellFormed.New hRun⟩

/-
  Before the revert, the recreated account reads slot 1
  committed at 0.
-/
example :
    ((Replay.replay (Mutation.apply storedDatabase)
        (StateDB.New : StateDB Nat).Snapshot.2
        recreateRunMutations).map fun t =>
      t.GetCommittedState storedDatabase ⟨1⟩ 1) = some 0 ∧
    (StateDB.New : StateDB Nat).GetCommittedState
      storedDatabase ⟨1⟩ 1 = 9 := by
  decide

end StateDB

end State

end PlasmaEvm
