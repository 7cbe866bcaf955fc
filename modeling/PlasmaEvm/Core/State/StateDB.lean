import PlasmaEvm.Core.State.StateObject
import PlasmaEvm.Control.UndoLog

/-
  The StateDB of core/state with its journal.  Every change
  the StateDB or one of its objects makes appends the entry
  that reverts it (journal.go); `Snapshot` remembers the
  length of the journal under a fresh revision id, and
  `RevertToSnapshot` reverts the entries after it, the last
  first, and forgets the revisions from that one on.

  The live objects are a map from addresses; an address that
  is not in it is read from the account trie.  The code
  loads it into the map at that read; here a read does not,
  and a change stores the changed object at its address,
  which leaves every later read as it is in the code.

  Key definitions include:
    * `State.JournalEntry`, `State.Journal`, `State.StateDB`
    * `StateDB.getStateObject`, `StateDB.createObject`
    * `JournalEntry.revert`, `Journal.revert`
    * `StateDB.Snapshot`, `StateDB.RevertToSnapshot`
    * `State.Mutation`, `Mutation.apply`
-/

------------------------------------------------------------
-- Journal Entries
------------------------------------------------------------

namespace PlasmaEvm

namespace State

/-
  journalEntry: one change and what it takes to revert it.
-/
inductive JournalEntry (H : Type) where
  | createObjectChange (account : Address)
  | resetObjectChange (prev : StateObject H)
  | suicideChange (account : Address) (prev : Bool)
      (prevbalance : Int)
  | balanceChange (account : Address) (prev : Int)
  | nonceChange (account : Address) (prev : Nat)
  | storageChange (account : Address) (key prevalue : H)
  | codeChange (account : Address)
      (prevcode : Bytes) (prevhash : H)
  | refundChange (prev : UInt64)
  | addLogChange (txhash : H)
  | addPreimageChange (hash : H)
  | touchChange (account : Address)

namespace JournalEntry

variable {H : Type}

/- The account an entry dirties, if any. -/
def dirtied : JournalEntry H → Option Address
  | createObjectChange account => some account
  | resetObjectChange _ => none
  | suicideChange account _ _ => some account
  | balanceChange account _ => some account
  | nonceChange account _ => some account
  | storageChange account _ _ => some account
  | codeChange account _ _ => some account
  | refundChange _ => none
  | addLogChange _ => none
  | addPreimageChange _ => none
  | touchChange account => some account

end JournalEntry

/-
  The entries since the last commit, and how often each
  account was dirtied.
-/
structure Journal (H : Type) where
  entries : List (JournalEntry H)
  dirties : Address → Int

namespace Journal

variable {H : Type}

def newJournal : Journal H :=
  ⟨[], fun _ => 0⟩

def append
    (j : Journal H)
    (entry : JournalEntry H) :
    Journal H :=
  { entries := j.entries ++ [entry],
    dirties :=
      match entry.dirtied with
      | some addr =>
          Function.update j.dirties addr (j.dirties addr + 1)
      | none => j.dirties }

/-
  dirty: mark an account dirty with no entry (the RIPEMD
  exception).
-/
def dirty (j : Journal H) (addr : Address) : Journal H :=
  { j with
    dirties := Function.update j.dirties addr
      (j.dirties addr + 1) }

def length (j : Journal H) : Nat :=
  j.entries.length

@[simp] theorem append_entries
    (j : Journal H)
    (entry : JournalEntry H) :
    (j.append entry).entries = j.entries ++ [entry] := rfl

@[simp] theorem dirty_entries
    (j : Journal H)
    (addr : Address) :
    (j.dirty addr).entries = j.entries := rfl

end Journal

end State

end PlasmaEvm

------------------------------------------------------------
-- Journaled Changes of an Object
------------------------------------------------------------

namespace PlasmaEvm

namespace State

namespace StateObject

variable {H : Type} [DecidableEq H]
variable (db : Database H)

/-
  The precompile whose touch stays dirty even when reverted.
-/
def ripemd : Address :=
  ⟨3⟩

def touch
    (o : StateObject H)
    (j : Journal H) : Journal H :=
  let j := j.append (.touchChange o.address)
  if o.address = ripemd then j.dirty o.address else j

def SetBalance
    (o : StateObject H)
    (amount : Int)
    (j : Journal H) : StateObject H × Journal H :=
  (o.setBalance amount, j.append
    (.balanceChange o.address o.data.Balance))

/-
  AddBalance: a zero amount only touches an empty account.
-/
def AddBalance
    (o : StateObject H)
    (amount : Int)
    (j : Journal H) : StateObject H × Journal H :=
  if amount = 0 then
    (o, if o.empty db then o.touch j else j)
  else
    o.SetBalance (o.data.Balance + amount) j

def SubBalance
    (o : StateObject H)
    (amount : Int)
    (j : Journal H) : StateObject H × Journal H :=
  if amount = 0 then (o, j)
  else o.SetBalance (o.data.Balance - amount) j

def SetNonce
    (o : StateObject H)
    (nonce : Nat)
    (j : Journal H) : StateObject H × Journal H :=
  (o.setNonce nonce, j.append (.nonceChange
    o.address o.data.Nonce))

def SetCode
    (o : StateObject H)
    (codeHash : H)
    (code : Bytes)
    (j : Journal H) : StateObject H × Journal H :=
  let prevcode := o.Code db
  (o.setCode codeHash code, j.append
    (.codeChange o.address prevcode o.data.CodeHash))

/-
  SetState: a write to fake storage is not journaled;
  otherwise a write of the value already there is dropped.
-/
def SetState
    (o : StateObject H)
    (key value : H)
    (j : Journal H) : StateObject H × Journal H :=
  match o.fakeStorage with
  | some fake =>
      ({ o with
        fakeStorage :=
          some (Function.update fake key value) }, j)
  | none =>
      let prev := o.GetState db key
      if prev = value then (o, j)
      else (o.setState key value,
        j.append (.storageChange o.address key prev))

end StateObject

end State

end PlasmaEvm

------------------------------------------------------------
-- The StateDB
------------------------------------------------------------

namespace PlasmaEvm

namespace State

/- A log of the EVM, with the fields `AddLog` fills in. -/
structure Log (H : Type) where
  Address : Address
  Topics : List H
  Data : Bytes
  TxHash : H
  BlockHash : H
  TxIndex : Nat
  Index : Nat

structure Revision where
  id : Nat
  journalIndex : Nat
  deriving DecidableEq, Repr

structure StateDB (H : Type) where
  stateObjects : Address → Option (StateObject H)
  refund : UInt64
  thash : H
  bhash : H
  txIndex : Nat
  logs : H → List (Log H)
  logSize : Nat
  preimages : H → Option Bytes
  journal : Journal H
  validRevisions : List Revision
  nextRevisionId : Nat

namespace StateDB

variable {H : Type} [DecidableEq H] [Inhabited H]
variable (db : Database H)

/- New: no live object, no log, an empty journal. -/
def New : StateDB H :=
  { stateObjects := fun _ => none,
    refund := 0,
    thash := zeroHash,
    bhash := zeroHash,
    txIndex := 0,
    logs := fun _ => [],
    logSize := 0,
    preimages := fun _ => none,
    journal := Journal.newJournal,
    validRevisions := [],
    nextRevisionId := 0 }

/-
  The object of an address, live or from the trie, also when
  deleted.
-/
def getDeletedStateObject
    (s : StateDB H)
    (addr : Address) : Option (StateObject H) :=
  match s.stateObjects addr with
  | some obj => some obj
  | none =>
      (db.account addr).map (StateObject.newObject db addr)

def getStateObject
    (s : StateDB H)
    (addr : Address) : Option (StateObject H) :=
  (s.getDeletedStateObject db addr).filter
    (fun obj => !obj.deleted)

def setStateObject
    (s : StateDB H)
    (object : StateObject H) : StateDB H :=
  { s with
    stateObjects := Function.update s.stateObjects
      object.address (some object) }

/-
  createObject: a fresh object in place of whatever is at
  the address, also a deleted one, which the journal keeps.
-/
def createObject
    (s : StateDB H)
    (addr : Address) :
    (StateObject H × Option (StateObject H)) × StateDB H :=
  let prev := s.getDeletedStateObject db addr
  let newobj := (StateObject.newObject db addr
    (StateObject.emptyAccount db)).setNonce 0
  let journal :=
    match prev with
    | none => s.journal.append (.createObjectChange addr)
    | some prev =>
        s.journal.append (.resetObjectChange prev)
  ((newobj, prev), { s with
    journal := journal }.setStateObject newobj)

def GetOrNewStateObject
    (s : StateDB H)
    (addr : Address) : StateObject H × StateDB H :=
  match s.getStateObject db addr with
  | some obj => (obj, s)
  | none =>
      ((s.createObject db addr).1.1,
        (s.createObject db addr).2)

end StateDB

end State

end PlasmaEvm

------------------------------------------------------------
-- Getters
------------------------------------------------------------

namespace PlasmaEvm

namespace State

namespace StateDB

variable {H : Type} [DecidableEq H] [Inhabited H]
variable (db : Database H)

/-
  The getters of an account all read the live object, and
  fall back to a zero value when there is none.
-/
def readStateObject
    {α : Type}
    (s : StateDB H)
    (addr : Address)
    (read : StateObject H → α)
    (zero : α) : α :=
  match s.getStateObject db addr with
  | some obj => read obj
  | none => zero

def Exist
    (s : StateDB H)
    (addr : Address) : Bool :=
  s.readStateObject db addr (fun _ => true) false

def Empty
    (s : StateDB H)
    (addr : Address) : Bool :=
  s.readStateObject db addr (fun obj => obj.empty db) true

def GetBalance
    (s : StateDB H)
    (addr : Address) : Int :=
  s.readStateObject db addr (fun obj => obj.data.Balance) 0

def GetNonce
    (s : StateDB H)
    (addr : Address) : Nat :=
  s.readStateObject db addr (fun obj => obj.data.Nonce) 0

def GetCode
    (s : StateDB H)
    (addr : Address) : Bytes :=
  s.readStateObject db addr (fun obj => obj.Code db) []

def GetCodeHash
    (s : StateDB H)
    (addr : Address) : H :=
  s.readStateObject db addr (fun obj =>
    obj.data.CodeHash) zeroHash

def GetState
    (s : StateDB H)
    (addr : Address)
    (hash : H) : H :=
  s.readStateObject db addr (fun obj =>
    obj.GetState db hash) zeroHash

def HasSuicided
    (s : StateDB H)
    (addr : Address) : Bool :=
  s.readStateObject db addr (fun obj => obj.suicided) false

def GetRefund (s : StateDB H) : UInt64 :=
  s.refund

def GetLogs
    (s : StateDB H)
    (hash : H) : List (Log H) :=
  s.logs hash

def Preimages (s : StateDB H) : H → Option Bytes :=
  s.preimages

end StateDB

end State

end PlasmaEvm

------------------------------------------------------------
-- Setters
------------------------------------------------------------

namespace PlasmaEvm

namespace State

namespace StateDB

variable {H : Type} [DecidableEq H] [Inhabited H]
variable (db : Database H)

/-
  Run a journaled change of the object at `addr`, made first
  if there is none, and store the changed object.
-/
def updateObject
    (s : StateDB H)
    (addr : Address)
    (change : StateObject H → Journal H →
      StateObject H × Journal H) :
    StateDB H :=
  let (obj, s) := s.GetOrNewStateObject db addr
  let (obj, journal) := change obj s.journal
  { s with journal := journal }.setStateObject obj

def AddBalance
    (s : StateDB H)
    (addr : Address)
    (amount : Int) : StateDB H :=
  s.updateObject db addr fun obj => obj.AddBalance db amount

def SubBalance
    (s : StateDB H)
    (addr : Address)
    (amount : Int) : StateDB H :=
  s.updateObject db addr fun obj => obj.SubBalance amount

def SetBalance
    (s : StateDB H)
    (addr : Address)
    (amount : Int) : StateDB H :=
  s.updateObject db addr fun obj => obj.SetBalance amount

def SetNonce
    (s : StateDB H)
    (addr : Address)
    (nonce : Nat) : StateDB H :=
  s.updateObject db addr fun obj => obj.SetNonce nonce

def SetCode
    (s : StateDB H)
    (addr : Address)
    (code : Bytes) : StateDB H :=
  s.updateObject db addr fun obj =>
    obj.SetCode db (db.keccak.hash code) code

def SetState
    (s : StateDB H)
    (addr : Address)
    (key value : H) : StateDB H :=
  s.updateObject db addr fun obj =>
    obj.SetState db key value

/-
  SetStorage, for debugging: the given slots become the
  object's fake storage, with no journal entry.
-/
def SetStorage
    (s : StateDB H)
    (addr : Address)
    (storage : List (H × H)) : StateDB H :=
  let (obj, s) := s.GetOrNewStateObject db addr
  let fake := storage.foldl (fun fake slot =>
    Function.update fake slot.1 slot.2)
    (obj.fakeStorage.getD fun _ => zeroHash)
  s.setStateObject { obj with fakeStorage := some fake }

/-
  Suicide: mark the account and clear its balance, if it
  exists.
-/
def Suicide
    (s : StateDB H)
    (addr : Address) : Bool × StateDB H :=
  match s.getStateObject db addr with
  | none => (false, s)
  | some obj =>
      let journal := s.journal.append
        (.suicideChange addr obj.suicided obj.data.Balance)
      (true, { s with
        journal := journal }.setStateObject
          (obj.markSuicided.setBalance 0))

/-
  CreateAccount: a fresh object that keeps the balance of
  the one it replaces.
-/
def CreateAccount
    (s : StateDB H)
    (addr : Address) : StateDB H :=
  let ((newObj, prev), s) := s.createObject db addr
  match prev with
  | some prev =>
      s.setStateObject (newObj.setBalance prev.data.Balance)
  | none => s

def AddRefund
    (s : StateDB H)
    (gas : UInt64) : StateDB H :=
  { s with
    journal := s.journal.append (.refundChange s.refund),
    refund := s.refund + gas }

/-
  SubRefund panics when the refund counter would go below
  zero.
-/
def SubRefund
    (s : StateDB H)
    (gas : UInt64) : Option (StateDB H) :=
  let s := { s with
    journal := s.journal.append (.refundChange s.refund) }
  if gas > s.refund then none
  else some { s with refund := s.refund - gas }

def AddLog
    (s : StateDB H)
    (log : Log H) : StateDB H :=
  let log :=
    { log with
      TxHash := s.thash,
      BlockHash := s.bhash,
      TxIndex := s.txIndex,
      Index := s.logSize }
  { s with
    journal := s.journal.append (.addLogChange s.thash),
    logs := Function.update s.logs s.thash
      (s.logs s.thash ++ [log]),
    logSize := s.logSize + 1 }

/- AddPreimage records a preimage once. -/
def AddPreimage
    (s : StateDB H)
    (hash : H)
    (preimage : Bytes) : StateDB H :=
  match s.preimages hash with
  | some _ => s
  | none =>
      { s with
        journal :=
          s.journal.append (.addPreimageChange hash),
        preimages := Function.update s.preimages hash
          (some preimage) }

end StateDB

end State

end PlasmaEvm

------------------------------------------------------------
-- Reverting the Journal
------------------------------------------------------------

namespace PlasmaEvm

namespace State

namespace JournalEntry

variable {H : Type} [DecidableEq H] [Inhabited H]
variable (db : Database H)

/-
  Revert one change.  An entry of a single account reverts
  on the live object there; none stands for the nil
  dereference of the code when there is no such object.
-/
def revert
    (entry : JournalEntry H)
    (s : StateDB H) :
    Option (StateDB H) :=
  match entry with
  | createObjectChange account =>
      some { s with
        stateObjects := Function.update
          s.stateObjects account none }
  | resetObjectChange prev => some (s.setStateObject prev)
  | suicideChange account prev prevbalance =>
      match s.getStateObject db account with
      | some obj =>
          some (s.setStateObject
            ({ obj with
              suicided := prev }.setBalance prevbalance))
      | none => some s
  | balanceChange account prev =>
      (s.getStateObject db account).map fun obj =>
        s.setStateObject (obj.setBalance prev)
  | nonceChange account prev =>
      (s.getStateObject db account).map fun obj =>
        s.setStateObject (obj.setNonce prev)
  | storageChange account key prevalue =>
      (s.getStateObject db account).map fun obj =>
        s.setStateObject (obj.setState key prevalue)
  | codeChange account prevcode prevhash =>
      (s.getStateObject db account).map fun obj =>
        s.setStateObject (obj.setCode prevhash prevcode)
  | refundChange prev => some { s with refund := prev }
  | addLogChange txhash =>
      match s.logs txhash with
      | [] => none
      | logs =>
          some { s with
            logs := Function.update s.logs txhash
              (if logs.length = 1
                then [] else logs.dropLast),
            logSize := s.logSize - 1 }
  | addPreimageChange hash =>
      some { s with
        preimages := Function.update s.preimages hash none }
  | touchChange _ => some s

/- Forget one dirtying of the entry's account. -/
def undirty
    (entry : JournalEntry H)
    (s : StateDB H) :
    StateDB H :=
  match entry.dirtied with
  | some addr =>
      { s with journal := { s.journal with
          dirties := Function.update s.journal.dirties addr
            (s.journal.dirties addr - 1) } }
  | none => s

/-
  One step of the revert loop: undo the change, then its
  dirtying.
-/
def revertStep
    (entry : JournalEntry H)
    (s : StateDB H) :
    Option (StateDB H) :=
  (entry.revert db s).map entry.undirty

end JournalEntry

namespace Journal

variable {H : Type} [DecidableEq H] [Inhabited H]
variable (db : Database H)

/-
  journal.revert: revert the entries from `snapshot` on, the
  last first, and cut the journal back to `snapshot`
  entries.
-/
def revert
    (s : StateDB H)
    (snapshot : Nat) : Option (StateDB H) :=
  (UndoLog.revertAll (JournalEntry.revertStep db)
    (s.journal.entries.drop snapshot) s).map
    fun r => { r with
      journal :=
        { r.journal with
          entries := s.journal.entries.take snapshot } }

end Journal

end State

end PlasmaEvm

------------------------------------------------------------
-- Snapshots
------------------------------------------------------------

namespace PlasmaEvm

namespace State

namespace StateDB

variable {H : Type} [DecidableEq H] [Inhabited H]
variable (db : Database H)

/-
  Snapshot: a fresh revision id for the current journal
  length.
-/
def Snapshot (s : StateDB H) : Nat × StateDB H :=
  let id := s.nextRevisionId
  (id, { s with
    nextRevisionId := s.nextRevisionId + 1,
    validRevisions := s.validRevisions ++ [⟨id,
      s.journal.length⟩] })

/-
  RevertToSnapshot: `sort.Search` for the first valid
  revision whose id is at least `revid` (the ids are
  increasing, so the binary search finds the first such); a
  missing id panics.
-/
def RevertToSnapshot
    (s : StateDB H)
    (revid : Nat) : Option (StateDB H) :=
  let idx := s.validRevisions.findIdx fun revision =>
    decide (revid ≤ revision.id)
  match s.validRevisions[idx]? with
  | none => none
  | some revision =>
      if revision.id ≠ revid then none
      else
        (Journal.revert db s revision.journalIndex).map
          fun r => { r with
            validRevisions := s.validRevisions.take idx }

end StateDB

/-
  The changes a transaction makes to the state while a
  revision is open.
-/
inductive Mutation (H : Type) where
  | AddBalance (addr : Address) (amount : Int)
  | SubBalance (addr : Address) (amount : Int)
  | SetBalance (addr : Address) (amount : Int)
  | SetNonce (addr : Address) (nonce : Nat)
  | SetCode (addr : Address) (code : Bytes)
  | SetState (addr : Address) (key value : H)
  | Suicide (addr : Address)
  | CreateAccount (addr : Address)
  | AddRefund (gas : UInt64)
  | SubRefund (gas : UInt64)
  | AddLog (log : Log H)
  | AddPreimage (hash : H) (preimage : Bytes)
  | Snapshot

namespace Mutation

variable {H : Type} [DecidableEq H] [Inhabited H]
variable (db : Database H)

/- Make one change; none when it panics. -/
def apply (s : StateDB H) : Mutation H → Option (StateDB H)
  | AddBalance addr amount =>
      some (s.AddBalance db addr amount)
  | SubBalance addr amount =>
      some (s.SubBalance db addr amount)
  | SetBalance addr amount =>
      some (s.SetBalance db addr amount)
  | SetNonce addr nonce => some (s.SetNonce db addr nonce)
  | SetCode addr code => some (s.SetCode db addr code)
  | SetState addr key value =>
      some (s.SetState db addr key value)
  | Suicide addr => some (s.Suicide db addr).2
  | CreateAccount addr => some (s.CreateAccount db addr)
  | AddRefund gas => some (s.AddRefund gas)
  | SubRefund gas => s.SubRefund gas
  | AddLog log => some (s.AddLog log)
  | AddPreimage hash preimage =>
      some (s.AddPreimage hash preimage)
  | Snapshot => some s.Snapshot.2

end Mutation

end State

end PlasmaEvm
