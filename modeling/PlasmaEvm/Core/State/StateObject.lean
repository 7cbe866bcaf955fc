import PlasmaEvm.Common.Types

/-
  The state objects of core/state.  An `Account` is what the
  account trie stores; a `StateObject` is the live copy the
  StateDB keeps of it while a block is processed, with its
  code, its storage layers and its flags.  Everything
  beneath the live objects (the account trie, the code
  store, the storage tries) is the `Database`, which does
  not change while a journal is open.

  Storage is read through its layers in the code's order:
  the fake storage of the debugging `SetStorage` replaces
  all of them, then the dirty writes of this transaction,
  the pending writes of earlier ones, and the storage trie.

  Key definitions include:
    * `State.Account`, `State.Database`, `State.StateObject`
    * `StateObject.Code`, `StateObject.GetState`,
      `StateObject.empty`
    * `StateObject.view`

  Key statements include:
    * `StateObject.view_setBalance`,
      `StateObject.view_setState`
-/

------------------------------------------------------------
-- Accounts and the Database
------------------------------------------------------------

namespace PlasmaEvm

namespace State

/-
  Account: the consensus representation stored in the
  account trie.
-/
structure Account (H : Type) where
  Nonce : Nat
  Balance : Int
  Root : H
  CodeHash : H

/-
  What the StateDB reads beneath its live objects: the
  account trie at its root (`TryGet` and the RLP decoding),
  the contract code store, and the storage trie at each
  root.  Keccak gives the hash of code, and `emptyRoot` is
  the root of the empty trie.
-/
structure Database (H : Type) where
  keccak : Keccak H
  emptyRoot : H
  account : Address → Option (Account H)
  ContractCode : H → Bytes
  storage : H → H → H

variable {H : Type}

/- emptyCodeHash, the hash of no code. -/
def Database.emptyCodeHash (db : Database H) : H :=
  db.keccak.hash []

/-
  The zero hash `common.Hash{}`, which the getters return
  for an account that does not exist.
-/
def zeroHash [Inhabited H] : H :=
  default

end State

end PlasmaEvm

------------------------------------------------------------
-- State Objects
------------------------------------------------------------

namespace PlasmaEvm

namespace State

/-
  A live state object.  `code` is the loaded or written code
  (nil until then).  The dirty and pending storage are
  partial maps; the fake storage, when present, is the whole
  storage.
-/
structure StateObject (H : Type) where
  address : Address
  data : Account H
  code : Option Bytes
  pendingStorage : H → Option H
  dirtyStorage : H → Option H
  fakeStorage : Option (H → H)
  suicided : Bool
  deleted : Bool

namespace StateObject

variable {H : Type} [DecidableEq H]
variable (db : Database H)

/-
  newObject: a fresh object for `data`, whose zero root
  stands for the empty storage trie.
-/
def newObject
    [Inhabited H]
    (address : Address)
    (data : Account H) :
    StateObject H :=
  { address := address,
    data := { data with
      Root := if data.Root = zeroHash
        then db.emptyRoot else data.Root },
    code := none,
    pendingStorage := fun _ => none,
    dirtyStorage := fun _ => none,
    fakeStorage := none,
    suicided := false,
    deleted := false }

@[simp] theorem newObject_address
    [Inhabited H]
    (address : Address)
    (data : Account H) :
    (newObject db address data).address = address := rfl

/-
  Account{} as `newObject` completes it: no nonce, no
  balance, the empty code and, through `newObject`, the
  empty storage trie.
-/
def emptyAccount [Inhabited H] : Account H :=
  ⟨0, 0, zeroHash, db.emptyCodeHash⟩

/-
  The code, loaded from the code store unless written or
  empty.
-/
def Code (o : StateObject H) : Bytes :=
  match o.code with
  | some code => code
  | none =>
      if o.data.CodeHash = db.emptyCodeHash then []
      else db.ContractCode o.data.CodeHash

def GetCommittedState (o : StateObject H) (key : H) : H :=
  match o.fakeStorage with
  | some fake => fake key
  | none =>
      (o.pendingStorage key).getD (db.storage o.data.Root key)

def GetState (o : StateObject H) (key : H) : H :=
  match o.fakeStorage with
  | some fake => fake key
  | none =>
      (o.dirtyStorage key).getD (o.GetCommittedState db key)

/- empty, by EIP-161: no nonce, no balance and no code. -/
def empty (o : StateObject H) : Bool :=
  o.data.Nonce == 0 && o.data.Balance ==
    0 && o.data.CodeHash == db.emptyCodeHash

end StateObject

end State

end PlasmaEvm

------------------------------------------------------------
-- Unjournaled Setters
------------------------------------------------------------

namespace PlasmaEvm

namespace State

namespace StateObject

variable {H : Type}

def setBalance
    (o : StateObject H)
    (amount : Int) :
    StateObject H :=
  { o with data := { o.data with Balance := amount } }

def setNonce
    (o : StateObject H)
    (nonce : Nat) :
    StateObject H :=
  { o with data := { o.data with Nonce := nonce } }

def setCode
    (o : StateObject H)
    (codeHash : H)
    (code : Bytes) :
    StateObject H :=
  { o with
    code := some code,
    data := { o.data with CodeHash := codeHash } }

def setState
    [DecidableEq H]
    (o : StateObject H)
    (key value : H) :
    StateObject H :=
  { o with
    dirtyStorage := Function.update o.dirtyStorage
      key (some value) }

def markSuicided (o : StateObject H) : StateObject H :=
  { o with suicided := true }

@[simp] theorem setBalance_address
    (o : StateObject H)
    (amount : Int) :
    (o.setBalance amount).address = o.address := rfl

@[simp] theorem setNonce_address
    (o : StateObject H)
    (nonce : Nat) :
    (o.setNonce nonce).address = o.address := rfl

@[simp] theorem setCode_address
    (o : StateObject H)
    (codeHash : H)
    (code : Bytes) :
    (o.setCode codeHash code).address = o.address := rfl

@[simp] theorem setState_address
    [DecidableEq H]
    (o : StateObject H)
    (key value : H) :
    (o.setState key value).address = o.address := rfl

@[simp] theorem markSuicided_address (o : StateObject H) :
    o.markSuicided.address = o.address := rfl

@[simp] theorem setBalance_deleted
    (o : StateObject H)
    (amount : Int) :
    (o.setBalance amount).deleted = o.deleted := rfl

@[simp] theorem setNonce_deleted
    (o : StateObject H)
    (nonce : Nat) :
    (o.setNonce nonce).deleted = o.deleted := rfl

@[simp] theorem setCode_deleted
    (o : StateObject H)
    (codeHash : H)
    (code : Bytes) :
    (o.setCode codeHash code).deleted = o.deleted := rfl

@[simp] theorem setState_deleted
    [DecidableEq H]
    (o : StateObject H)
    (key value : H) :
    (o.setState key value).deleted = o.deleted := rfl

@[simp] theorem markSuicided_deleted (o : StateObject H) :
    o.markSuicided.deleted = o.deleted := rfl

@[simp] theorem setBalance_setBalance
    (o : StateObject H)
    (amount amount' : Int) :
    (o.setBalance amount).setBalance amount' =
      o.setBalance amount' := rfl

@[simp] theorem setBalance_self (o : StateObject H) :
    o.setBalance o.data.Balance = o := rfl

@[simp] theorem setNonce_self (o : StateObject H) :
    o.setNonce o.data.Nonce = o := rfl

end StateObject

end State

end PlasmaEvm

------------------------------------------------------------
-- What the Getters See of an Object
------------------------------------------------------------

namespace PlasmaEvm

namespace State

/-
  What the StateDB getters read of an object.  `Storage` is
  the storage as `GetState` reads it, and none for an object
  with fake storage, whose writes the journal does not
  record.
-/
structure ObjectView (H : Type) where
  address : Address
  Nonce : Nat
  Balance : Int
  CodeHash : H
  Code : Bytes
  Storage : Option (H → H)
  suicided : Bool
  deleted : Bool

namespace StateObject

variable {H : Type} [DecidableEq H]
variable (db : Database H)

def view (o : StateObject H) : ObjectView H :=
  { address := o.address,
    Nonce := o.data.Nonce,
    Balance := o.data.Balance,
    CodeHash := o.data.CodeHash,
    Code := o.Code db,
    Storage := if o.fakeStorage.isSome
      then none else some (o.GetState db),
    suicided := o.suicided,
    deleted := o.deleted }

@[simp] theorem view_address (o : StateObject H) :
    (o.view db).address = o.address := rfl

@[simp] theorem view_deleted (o : StateObject H) :
    (o.view db).deleted = o.deleted := rfl

@[simp] theorem view_setBalance
    (o : StateObject H)
    (amount : Int) :
    (o.setBalance amount).view db =
      { o.view db with Balance := amount } := rfl

@[simp] theorem view_setNonce
    (o : StateObject H)
    (nonce : Nat) :
    (o.setNonce nonce).view db =
      { o.view db with Nonce := nonce } := rfl

@[simp] theorem view_setCode
    (o : StateObject H)
    (codeHash : H)
    (code : Bytes) :
    (o.setCode codeHash code).view db =
      { o.view db with CodeHash := codeHash, Code := code } := rfl

@[simp] theorem view_markSuicided (o : StateObject H) :
    o.markSuicided.view db =
      { o.view db with suicided := true } := rfl

/-
  A dirty write shows through every layer but the fake
  storage.
-/
theorem GetState_setState
    (o : StateObject H)
    (key value : H)
    (hFake : o.fakeStorage = none) :
    (o.setState key value).GetState db =
      Function.update (o.GetState db) key value := by
  funext k
  by_cases hKey : k = key
  · subst hKey
    simp [GetState, setState, hFake]
  · simp [GetState, GetCommittedState,
      setState, hFake, hKey]

@[simp] theorem view_setState
    (o : StateObject H)
    (key value : H) :
    (o.setState key value).view db =
      { o.view db with
        Storage :=
          (o.view db).Storage.map (Function.update · key value) } := by
  cases hFake : o.fakeStorage with
  | none =>
      have hSet : (o.setState key value).fakeStorage
        = none := hFake
      simp only [view, hFake, hSet, Option.isSome_none,
        Bool.false_eq_true, if_false,
        Option.map_some,
          GetState_setState db o key value hFake]
      rfl
  | some fake =>
      have hSet : (o.setState key value).fakeStorage =
        some fake := hFake
      simp only [view, hFake, hSet, Option.isSome_some,
        if_true, Option.map_none]
      rfl

end StateObject

end State

end PlasmaEvm
