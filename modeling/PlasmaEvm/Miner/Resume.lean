import PlasmaEvm.Rlp.Decode
import PlasmaEvm.Rlp.Encode

/-
  Resuming the operator's miner (`miner/miner.go`,
  `miner/epoch/epoch.go`, `core/rawdb/accessors_chain.go`).
  The node keeps the environment of its epoch in `miner.env`
  and stores it under `epochEnvKey` with `WriteEpochEnv`
  each time it changes it.  `Miner.Start` with `empty` set
  is how the node resumes: it reads the stored environment
  back and copies it with `epoch.Copy(miner.env,
  previousEnv)`.

  `epoch.Copy(dst, src)` writes the fields of `src` from
  those of `dst`.  The call therefore overwrites the
  environment it has just read with `miner.env` and leaves
  `miner.env` as it was: the stored epoch is never restored.
  When the stored bytes do not decode, `ReadEpochEnv`
  returns nil and `Copy` dereferences it.

  The two differ on the operator's node: the root chain
  manager sets the epoch length of `miner.env` with
  `SetNRBepochLength`, which writes nothing, before it
  resumes the miner.

  Key definitions include:
    * `Epoch.EpochEnvironment`, `Epoch.New`, `Epoch.Copy`
    * `Rawdb.WriteEpochEnv`, `Rawdb.ReadEpochEnv`
    * `Miner`, `Miner.Start`, `Miner.SetNRBepochLength`

  Key statements include:
    * `Epoch.Copy_eq`
    * `Miner.Start_empty_eq`
    * `Miner.Start_stores_env`
    * `Miner.Start_empty_after_SetNRBepochLength`
-/

------------------------------------------------------------
-- Epoch Environments
------------------------------------------------------------

namespace PlasmaEvm

namespace Epoch

/-
  `epoch.EpochEnvironment`: the epoch the operator mines.
  Its big integers are never nil: `New`, the decoder and
  every setter allocate them.  The mutex is left out.
-/
structure EpochEnvironment where
  EpochNumber : Int
  IsRequest : Bool
  UserActivated : Bool
  Rebase : Bool
  Completed : Bool
  NumBlockMined : Int
  EpochLength : Int
  CurrentFork : Int
  LastFinalizedBlock : Int
  StartBlockNumber : Int
  EndBlockNumber : Int
  deriving DecidableEq, Repr

/- `epoch.New()`: every number zero and every flag false. -/
def New : EpochEnvironment where
  EpochNumber := 0
  IsRequest := false
  UserActivated := false
  Rebase := false
  Completed := false
  NumBlockMined := 0
  EpochLength := 0
  CurrentFork := 0
  LastFinalizedBlock := 0
  StartBlockNumber := 0
  EndBlockNumber := 0

/-
  `epoch.Copy(dst, src)`: the two environments after the
  call, `dst` first.  Each field of `src` is set from `dst`.
-/
def Copy
    (dst src : EpochEnvironment) :
    EpochEnvironment × EpochEnvironment :=
  (dst,
    { src with
      EpochNumber := dst.EpochNumber
      IsRequest := dst.IsRequest
      UserActivated := dst.UserActivated
      Rebase := dst.Rebase
      Completed := dst.Completed
      NumBlockMined := dst.NumBlockMined
      EpochLength := dst.EpochLength
      CurrentFork := dst.CurrentFork
      LastFinalizedBlock := dst.LastFinalizedBlock
      StartBlockNumber := dst.StartBlockNumber
      EndBlockNumber := dst.EndBlockNumber })

/- Copy leaves `dst` and makes `src` a copy of it. -/
@[simp]
theorem Copy_eq
    (dst src : EpochEnvironment) :
    Copy dst src = (dst, dst) := rfl

end Epoch

end PlasmaEvm

------------------------------------------------------------
-- Storing the Environment
------------------------------------------------------------

namespace PlasmaEvm

namespace Rawdb

open PlasmaEvm.Rlp PlasmaEvm.Epoch

/-
  The exported fields of `epoch.EpochEnvironment`, none of
  them tagged.
-/
def envFields : Fields :=
  .cons .empty .bigInt <| .cons .empty .bool <| .cons
    .empty .bool <|
    .cons .empty .bool <| .cons .empty .bool <| .cons
      .empty .bigInt <|
    .cons .empty .bigInt <| .cons .empty .bigInt <| .cons
      .empty .bigInt <|
    .cons .empty .bigInt <| .cons .empty .bigInt .nil

/- The environment as the rlp value of its struct. -/
def envValue (e : EpochEnvironment) : Value :=
  .list [.big e.EpochNumber, .bool e.IsRequest,
    .bool e.UserActivated, .bool e.Rebase,
    .bool e.Completed, .big e.NumBlockMined,
      .big e.EpochLength, .big e.CurrentFork,
    .big e.LastFinalizedBlock, .big e.StartBlockNumber,
      .big e.EndBlockNumber]

/- A big integer field the decoder filled. -/
def bigField : Value → Int
  | .big i => i
  | _ => 0

/- A bool field the decoder filled. -/
def boolField : Value → Bool
  | .bool b => b
  | _ => false

/-
  The environment the struct decoder fills in.  It returns a
  list of the eleven fields; nothing else reaches the other
  case.
-/
def envOfValue : Value → EpochEnvironment
  | .list [n, r, u, b, c, m, l, f, lf, s, e] =>
      { EpochNumber := bigField n
        IsRequest := boolField r
        UserActivated := boolField u
        Rebase := boolField b
        Completed := boolField c
        NumBlockMined := bigField m
        EpochLength := bigField l
        CurrentFork := bigField f
        LastFinalizedBlock := bigField lf
        StartBlockNumber := bigField s
        EndBlockNumber := bigField e }
  | _ => New

/-
  `WriteEpochEnv`: the bytes stored under `epochEnvKey`, the
  encoding of the pointer.  An encoding error is `log.Crit`,
  which ends the process.
-/
def WriteEpochEnv
    (e : EpochEnvironment) :
    Except EncodeError Bytes :=
  EncodeToBytes (.ptr (.struct envFields)) (.ptr (envValue e))

/-
  `ReadEpochEnv` on the bytes stored under `epochEnvKey`: a
  new environment when there are none, and nil (`none`) when
  they do not decode into the struct.
-/
def ReadEpochEnv (data : Bytes) : Option EpochEnvironment :=
  if data.length = 0 then some New
  else
    match DecodeBytes (.struct envFields) data with
    | .ok v => some (envOfValue v)
    | .error _ => none

end Rawdb

end PlasmaEvm

------------------------------------------------------------
-- Starting the Miner
------------------------------------------------------------

namespace PlasmaEvm

/-
  The fields of `rootchain.RootChainEpochPrepared` that
  `Miner.Start` reads.
-/
structure Miner.RootChainEpochPrepared where
  ForkNumber : Int
  EpochNumber : Int
  StartBlockNumber : Int
  EndBlockNumber : Int
  IsRequest : Bool
  UserActivated : Bool
  Rebase : Bool
  deriving DecidableEq, Repr

/-
  `miner.Miner` as `Start` sees it: the etherbase, the two
  flags, the epoch environment it shares with the worker,
  the bytes the database holds under `epochEnvKey` (empty
  when none), and whether the worker runs.
-/
structure Miner where
  coinbase : Address
  canStart : Bool
  shouldStart : Bool
  env : Epoch.EpochEnvironment
  db : Bytes
  mining : Bool
  deriving DecidableEq

namespace Miner

/-
  `miner.New`: the environment the backend read, and a miner
  that may start.
-/
def New
    (env : Epoch.EpochEnvironment)
    (db : Bytes) : Miner where
  coinbase := NullAddress
  canStart := true
  shouldStart := false
  env := env
  db := db
  mining := false

/-
  `Stop`: the worker stops and the miner should not start
  after a sync.
-/
def Stop (m : Miner) : Miner :=
  { m with mining := false, shouldStart := false }

/-
  `SetNRBepochLength`: the length of `miner.env`, which is
  not stored.
-/
def SetNRBepochLength
    (m : Miner)
    (length : Int) : Miner :=
  { m with env := { m.env with EpochLength := length } }

/-
  `Miner.Start(coinbase, e, empty)`.  `none` is a node that
  halts: `Copy` on the nil environment of bytes that do not
  decode, or `log.Crit` when the environment does not
  encode.  Of epoch.Copy(miner.env, previousEnv) the first
  argument is miner.env.
-/
def Start
    (m : Miner)
    (coinbase : Address)
    (e : RootChainEpochPrepared)
    (empty : Bool) : Option Miner :=
  let m : Miner := { m with
    shouldStart := true,
    coinbase := coinbase }
  if !m.canStart then some m
  else if empty then
    match Rawdb.ReadEpochEnv m.db with
    | none => none
    | some previousEnv =>
        let (env, _) := Epoch.Copy m.env previousEnv
        let m : Miner := { m with env := env }
        if m.env.EpochLength = 0 then some m.Stop
        else if !m.env.Completed then some { m with
          mining := true }
        else some m.Stop
  else
    let env : Epoch.EpochEnvironment :=
      { m.env with
        IsRequest := e.IsRequest
        UserActivated := e.UserActivated
        Rebase := e.Rebase
        Completed := false
        NumBlockMined := 0
        EpochLength :=
          e.EndBlockNumber - e.StartBlockNumber + 1
        CurrentFork := e.ForkNumber
        EpochNumber := e.EpochNumber
        StartBlockNumber := e.StartBlockNumber
        EndBlockNumber := e.EndBlockNumber }
    match Rawdb.WriteEpochEnv env with
    | .error _ => none
    | .ok data =>
        some { m with env := env, db := data, mining := true }

end Miner

end PlasmaEvm

------------------------------------------------------------
-- What Start Leaves
------------------------------------------------------------

namespace PlasmaEvm

namespace Miner

/-
  With an empty epoch, Start halts on bytes that do not
  decode, and otherwise goes on with `miner.env` as it was:
  stopped when its length is zero or it is completed, mining
  when it is not.
-/
theorem Start_empty_eq
    (m : Miner)
    (coinbase : Address)
    (e : RootChainEpochPrepared)
    (hCan : m.canStart = true) :
    m.Start coinbase e true =
      (Rawdb.ReadEpochEnv m.db).map fun _ =>
        let m :=
          { m with shouldStart := true, coinbase := coinbase }
        if m.env.EpochLength = 0 then m.Stop
        else if !m.env.Completed
          then { m with mining := true }
        else m.Stop := by
  unfold Start
  simp only [hCan, Bool.not_true, Bool.false_eq_true,
    if_false, if_true]
  cases Rawdb.ReadEpochEnv m.db with
  | none => rfl
  | some previousEnv =>
      simp only [Option.map_some, Epoch.Copy_eq]
      by_cases hLen : m.env.EpochLength = 0
      · simp [hLen]
      · simp only [hLen, ↓reduceIte]
        split <;> rename_i hDone <;> simp only [hDone,
          Bool.false_eq_true, ↓reduceIte]

/-
  With an epoch, Start stores the environment it sets: what
  the database holds is the encoding of `miner.env`.
-/
theorem Start_stores_env
    (m : Miner)
    (coinbase : Address)
    (e : RootChainEpochPrepared)
    (hCan : m.canStart = true)
    {m' : Miner}
    (hStart : m.Start coinbase e false = some m') :
    Rawdb.WriteEpochEnv m'.env = .ok m'.db ∧
      m'.mining = true := by
  unfold Start at hStart
  simp only [hCan, Bool.not_true, Bool.false_eq_true,
    if_false] at hStart
  split at hStart
  · cases hStart
  · rename_i data hWrite
    cases hStart
    exact ⟨hWrite, rfl⟩

/-
  The operator's restart: the backend builds the miner on
  the environment it read, the root chain manager sets the
  length of a non-request epoch, and Start resumes with that
  length in place of the stored one.
-/
theorem Start_empty_after_SetNRBepochLength
    (stored : Epoch.EpochEnvironment)
    (data : Bytes)
    (length : Int)
    (coinbase : Address)
    (e : RootChainEpochPrepared)
    (hRead : Rawdb.ReadEpochEnv data = some stored) :
    ∃ m', ((Miner.New stored data).SetNRBepochLength
      length).Start coinbase e true = some m' ∧
      m'.env = { stored with EpochLength := length } ∧
        m'.db = data := by
  have hDb : ((Miner.New stored data).SetNRBepochLength
    length).db = data := rfl
  rw [Start_empty_eq _ coinbase e rfl, hDb, hRead,
    Option.map_some]
  refine ⟨_, rfl, ?_⟩
  dsimp only
  split_ifs <;> exact ⟨rfl, rfl⟩

end Miner

end PlasmaEvm

------------------------------------------------------------
-- Resuming Keeps the Miner's Environment
------------------------------------------------------------

namespace PlasmaEvm

namespace Miner

/-
  Resuming goes on with the environment the miner already
  had: whatever environment the database holds, `miner.env`
  after Start is `miner.env` before it.
-/
theorem Start_empty_keeps_env
    (m : Miner)
    (coinbase : Address)
    (e : RootChainEpochPrepared)
    (stored : Epoch.EpochEnvironment)
    (hCan : m.canStart = true)
    (hStored : Rawdb.ReadEpochEnv m.db = some stored) :
    ∃ m', m.Start coinbase e true = some m' ∧
      m'.env = m.env := by
  rw [Start_empty_eq m coinbase e hCan, hStored,
    Option.map_some]
  refine ⟨_, rfl, ?_⟩
  dsimp only
  split_ifs <;> rfl

/-
  A request epoch of two blocks, one of them mined, is
  stored. The node restarts: the backend reads it into
  `miner.env`, the root chain manager sets the non-request
  epoch length 4, and resuming keeps that length instead of
  the stored 2.
-/
theorem Start_empty_keeps_env_request_epoch :
    let stored : Epoch.EpochEnvironment :=
      { Epoch.New with
        EpochNumber := 3
        IsRequest := true
        NumBlockMined := 1
        EpochLength := 2
        StartBlockNumber := 5
        EndBlockNumber := 6 }
    let data : Bytes := [0xCB, 0x03, 0x01, 0x80, 0x80, 0x80,
      0x01, 0x02, 0x80, 0x80, 0x05, 0x06]
    let m := (Miner.New stored data).SetNRBepochLength 4
    let e : RootChainEpochPrepared := ⟨0, 0, 0, 0,
      false, false, false⟩
    Rawdb.WriteEpochEnv stored = .ok data ∧
      m.canStart = true ∧
      Rawdb.ReadEpochEnv m.db = some stored ∧
      ∃ m', m.Start NullAddress e true = some m' ∧
        m'.env = m.env ∧
        m'.env.EpochLength ≠ stored.EpochLength := by
  intro stored data m e
  have hWrite : Rawdb.WriteEpochEnv stored = .ok data :=
    by decide +kernel
  have hCan : m.canStart = true := rfl
  have hRead : Rawdb.ReadEpochEnv m.db = some stored :=
    by decide +kernel
  rcases Start_empty_keeps_env m NullAddress e stored hCan
    hRead with ⟨m', hStart, hEnv⟩
  refine ⟨hWrite, hCan, hRead, m', hStart, hEnv, ?_⟩
  rw [hEnv]
  decide

end Miner

end PlasmaEvm
