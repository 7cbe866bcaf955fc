import Mathlib

/-
  Total difficulty and the fork choice of core/blockchain.go
  and core/headerchain.go.  Every path that stores a block
  or a header stores its total difficulty, and the canonical
  head follows the greatest one.  The plasma fork changed
  one path: `writeBlockWithState` stores `Difficulty * 2^128
  + Number`, while `HeaderChain.WriteHeader`,
  `insertSideChain` and the known-block skip of
  `insertChain` still add the difficulty to the parent's
  total difficulty, and the genesis stores its difficulty
  alone.

  With clique's difficulty of 0 the two rules disagree: a
  header written by `WriteHeader` gets its parent's total
  difficulty, which ties with the current head and leaves
  the choice to a coin, and a side chain is worth no more
  than the block it forks from, however long it is.

  Key definitions include:
    * `Core.ChainDb`, `Core.blockTd`
    * `ChainDb.canonicalAncestors`, `ChainDb.reorg`
    * `ChainDb.writeBlockWithState`, `ChainDb.WriteHeader`
    * `ChainDb.insertSideChain`, `ChainDb.skipKnownBlocks`

  Key statements include:
    * `ChainDb.GetTd_writeBlockWithState`,
      `ChainDb.GetTd_WriteHeader`
    * `ChainDb.WriteHeader_zero_difficulty_child`
    * `ChainDb.insertSideChain_zero_difficulty`
    * `ChainDb.writeBlockWithState_first_block`
    * `ChainDb.skipKnownBlocks_zero_difficulty`
-/

------------------------------------------------------------
-- The Chain Database
------------------------------------------------------------

namespace PlasmaEvm

namespace Core

/-
  The fields of a block header that the fork choice reads.
-/
structure ChainHeader (H : Type) where
  Hash : H
  ParentHash : H
  Number : Nat
  Difficulty : Nat
  Root : H
  deriving DecidableEq, Repr

inductive WriteStatus where
  | NonStatTy
  | CanonStatTy
  | SideStatTy
  deriving DecidableEq, Repr

/-
  The errors of the insertion paths; `nilTotalDifficulty`
  and `nilHeader` are the nil dereferences of a total
  difficulty or an ancestor header that is not stored.
-/
inductive ChainError where
  | ErrUnknownAncestor
  | ghostStateAttack
  | invalidNewChain
  | nilTotalDifficulty
  | nilHeader
  deriving DecidableEq, Repr

/-
  What the insertion paths read and write of the database:
  the total difficulties and the headers by hash and number,
  whether a block's body is stored, the canonical hash of
  each number, and the heads of the block chain and of the
  header chain.
-/
structure ChainDb (H : Type) where
  td : H → Nat → Option Nat
  headers : H → Nat → Option (ChainHeader H)
  hasBlock : H → Nat → Bool
  canonical : Nat → Option H
  currentBlock : ChainHeader H
  currentHeader : ChainHeader H

/-
  The total difficulty `writeBlockWithState` gives a block.
-/
def blockTd {H : Type} (block : ChainHeader H) : Nat :=
  block.Difficulty * 2 ^ 128 + block.Number

namespace ChainDb

variable {H : Type} [DecidableEq H]

def GetTd
    (db : ChainDb H)
    (hash : H)
    (number : Nat) : Option Nat :=
  db.td hash number

def WriteTd
    (db : ChainDb H)
    (hash : H)
    (number : Nat)
    (td : Nat) : ChainDb H :=
  { db with
    td := fun h n => if h = hash ∧ n = number
      then some td else db.td h n }

def WriteHeaderRecord
    (db : ChainDb H)
    (header : ChainHeader H) : ChainDb H :=
  { db with
    headers := fun h n =>
      if h = header.Hash ∧ n = header.Number
        then some header else db.headers h n }

/- WriteBlock: the header and the body. -/
def WriteBlock
    (db : ChainDb H)
    (block : ChainHeader H) : ChainDb H :=
  { db.WriteHeaderRecord block with
    hasBlock := fun h n => (h = block.Hash ∧
      n = block.Number) || db.hasBlock h n }

def GetBlockByNumber
    (db : ChainDb H)
    (number : Nat) : Option (ChainHeader H) :=
  (db.canonical number).bind fun hash =>
    db.headers hash number

/-
  Genesis.Commit: the genesis block is the head, with its
  difficulty as its total difficulty.
-/
def Commit
    (db : ChainDb H)
    (genesis : ChainHeader H) : ChainDb H :=
  { (db.WriteTd genesis.Hash genesis.Number
      genesis.Difficulty).WriteBlock genesis with
    canonical := Function.update db.canonical genesis.Number
      (some genesis.Hash),
    currentBlock := genesis,
    currentHeader := genesis }

@[simp] theorem GetTd_WriteTd
    (db : ChainDb H)
    (hash : H)
    (number td : Nat) :
    (db.WriteTd hash number td).GetTd hash number = some td := by
  simp [GetTd, WriteTd]

end ChainDb

end Core

end PlasmaEvm

------------------------------------------------------------
-- Canonical Markers
------------------------------------------------------------

namespace PlasmaEvm

namespace Core

namespace ChainDb

variable {H : Type} [DecidableEq H]

/-
  The ancestors a new head brings onto the canonical chain:
  from `hash` at `number` back to the first one already
  canonical, read from the stored headers.  A missing
  ancestor is none; the fuel is the new head's number, which
  a walk that ends at a canonical genesis never exhausts.
-/
def canonicalAncestors
    (db : ChainDb H) :
    Nat → H → Nat → Option (List (Nat × H))
  | 0, _, _ => none
  | fuel + 1, hash, number =>
      if db.canonical number = some hash then some []
      else
        match db.headers hash number with
        | none => none
        | some header =>
            ((number, hash) :: ·) <$>
              canonicalAncestors db fuel
              header.ParentHash (number - 1)

/- WriteCanonicalHash for each ancestor. -/
def writeCanonical
    (canonical : Nat → Option H)
    (ancestors : List (Nat × H)) : Nat → Option H :=
  ancestors.foldl (fun canonical entry =>
    Function.update canonical entry.1 (some entry.2))
    canonical

/-
  The loop that deletes the canonical markers above
  `number`: it stops at the first number with no marker, so
  a marker survives when one below it, above `number`, is
  missing.
-/
def deleteAbove
    (canonical : Nat → Option H)
    (number : Nat) : Nat → Option H :=
  fun i =>
    if number < i ∧ ∀ j < i - number,
      (canonical (number + 1 + j)).isSome then none
    else canonical i

end ChainDb

end Core

end PlasmaEvm

------------------------------------------------------------
-- Writing Blocks and Headers
------------------------------------------------------------

namespace PlasmaEvm

namespace Core

namespace ChainDb

variable {H : Type} [DecidableEq H]

/-
  writeHeadBlock: the block becomes the canonical head; a
  block that was not canonical at its number takes the
  header head along.
-/
def writeHeadBlock
    (db : ChainDb H)
    (block : ChainHeader H) : ChainDb H :=
  let updateHeads :=
    db.canonical block.Number ≠ some block.Hash
  let db := { db with
    canonical := Function.update db.canonical block.Number
      (some block.Hash),
    currentBlock := block }
  if updateHeads
    then { db with currentHeader := block } else db

/-
  The canonical markers of reorg: the new block's ancestors
  back to the first canonical one become canonical, and the
  markers above the head are deleted: above the parent when
  there was an ancestor to write (writeHeadBlock made it the
  head), above the old head otherwise.  writeHeadBlock then
  writes the block's own marker.
-/
def reorg
    (db : ChainDb H)
    (block : ChainHeader H) :
    Except ChainError (ChainDb H) :=
  match db.canonicalAncestors block.Number block.ParentHash
    (block.Number - 1) with
  | none => .error .invalidNewChain
  | some ancestors =>
      let head := if ancestors = []
        then db.currentBlock.Number else block.Number - 1
      .ok { db with
        canonical := deleteAbove
          (writeCanonical db.canonical ancestors) head }

/-
  writeBlockWithState: the parent must be known; the block's
  total difficulty is `blockTd` whatever the parent's is,
  and it becomes the head, after a reorg when its parent is
  not the head, when that exceeds the head's.
-/
def writeBlockWithState
    (db : ChainDb H)
    (block : ChainHeader H) :
    Except ChainError (WriteStatus × ChainDb H) :=
  match db.GetTd block.ParentHash (block.Number - 1) with
  | none => .error .ErrUnknownAncestor
  | some _ =>
      match db.GetTd db.currentBlock.Hash
        db.currentBlock.Number with
      | none => .error .nilTotalDifficulty
      | some localTd =>
          let externTd := blockTd block
          let db := (db.WriteTd block.Hash block.Number
            externTd).WriteBlock block
          if externTd > localTd then
            if block.ParentHash ≠ db.currentBlock.Hash then
              match db.reorg block with
              | .error err => .error err
              | .ok db =>
                  .ok (.CanonStatTy,
                    db.writeHeadBlock block)
            else .ok (.CanonStatTy, db.writeHeadBlock block)
          else .ok (.SideStatTy, db)

/-
  HeaderChain.WriteHeader: the header's total difficulty is
  its parent's plus its difficulty; it becomes the header
  head when that exceeds the head's, and on a tie when the
  coin `mrand.Float64() < 0.5` comes up.  The markers above
  it are deleted and those of its ancestors overwritten,
  both loops reading the markers as they were.
-/
def WriteHeader
    (db : ChainDb H)
    (header : ChainHeader H)
    (coin : Bool) :
    Except ChainError (WriteStatus × ChainDb H) :=
  match db.GetTd header.ParentHash (header.Number - 1) with
  | none => .error .ErrUnknownAncestor
  | some ptd =>
      match db.GetTd db.currentHeader.Hash
        db.currentHeader.Number with
      | none => .error .nilTotalDifficulty
      | some localTd =>
          let externTd := header.Difficulty + ptd
          let db := (db.WriteTd header.Hash header.Number
            externTd).WriteHeaderRecord header
          if externTd > localTd ∨ (externTd = localTd ∧
            coin = true) then
            match db.canonicalAncestors header.Number
              header.ParentHash (header.Number - 1) with
            | none => .error .nilHeader
            | some ancestors =>
                let canonical :=
                  writeCanonical
                  (deleteAbove db.canonical
                  header.Number) ancestors
                .ok (.CanonStatTy, { db with
                  canonical := Function.update canonical
                    header.Number (some header.Hash),
                  currentHeader := header })
          else .ok (.SideStatTy, db)

/-
  writeBlockWithoutState: a side block with the total
  difficulty it is given.
-/
def writeBlockWithoutState
    (db : ChainDb H)
    (block : ChainHeader H)
    (td : Nat) : ChainDb H :=
  (db.WriteTd block.Hash block.Number td).WriteBlock block

end ChainDb

end Core

end PlasmaEvm

------------------------------------------------------------
-- Side Chains and Known Blocks
------------------------------------------------------------

namespace PlasmaEvm

namespace Core

inductive SideChainOutcome where
  | sidechainWrittenToDisk
  | reimport
  deriving DecidableEq, Repr

namespace ChainDb

variable {H : Type} [DecidableEq H]

/-
  A side block of insertSideChain: the running total
  difficulty, from its parent's when there is none yet, plus
  its difficulty; the block is written without state if it
  is new.
-/
def sideBlockTd
    (db : ChainDb H)
    (externTd : Option Nat)
    (block : ChainHeader H) :
    Except ChainError (Nat × ChainDb H) :=
  match externTd.orElse fun _ =>
    db.GetTd block.ParentHash (block.Number - 1) with
  | none => .error .nilTotalDifficulty
  | some parentTd =>
      let externTd := parentTd + block.Difficulty
      .ok (externTd,
        if db.hasBlock block.Hash block.Number then db
        else db.writeBlockWithoutState block externTd)

/-
  The loop of insertSideChain: a canonical block takes its
  own total difficulty, a block with a canonical block's
  root is a ghost-state attack, and any other block is a
  side block.
-/
def sideChainTd
    (current : ChainHeader H) :
    ChainDb H → Option Nat → List (ChainHeader H) →
      Except ChainError (Option Nat × ChainDb H)
  | db, externTd, [] => .ok (externTd, db)
  | db, externTd, block :: rest =>
      let canonical :=
        if block.Number ≤ current.Number
          then db.GetBlockByNumber block.Number else none
      if canonical.map (·.Hash) = some block.Hash then
        sideChainTd current db (db.GetTd block.Hash
          block.Number) rest
      else if canonical.map (·.Root) = some block.Root
        then .error .ghostStateAttack
      else
        match db.sideBlockTd externTd block with
        | .error err => .error err
        | .ok (externTd, db) =>
            sideChainTd current db (some externTd) rest

/-
  insertSideChain: after the loop, a side chain whose total
  difficulty is below the head's stays on disk; otherwise
  its blocks are imported again with their state.
-/
def insertSideChain
    (db : ChainDb H)
    (blocks : List (ChainHeader H)) :
    Except ChainError (SideChainOutcome × ChainDb H) :=
  let current := db.currentBlock
  match sideChainTd current db none blocks with
  | .error err => .error err
  | .ok (externTd, db) =>
      match db.GetTd current.Hash current.Number, externTd with
      | some localTd, some externTd =>
          if localTd > externTd
            then .ok (.sidechainWrittenToDisk, db)
          else .ok (.reimport, db)
      | _, _ => .error .nilTotalDifficulty

/-
  The known-block skip of insertChain: known blocks are
  ignored while the running total difficulty, from the first
  one's parent, does not exceed the head's; the count of
  ignored blocks.
-/
def skipKnownBlocks
    (localTd : Nat) :
    Nat → List (ChainHeader H) → Nat
  | _, [] => 0
  | externTd, block :: rest =>
      let externTd := externTd + block.Difficulty
      if localTd < externTd then 0
      else skipKnownBlocks localTd externTd rest + 1

end ChainDb

end Core

end PlasmaEvm

------------------------------------------------------------
-- The Total Difficulty Each Path Stores
------------------------------------------------------------

namespace PlasmaEvm

namespace Core

namespace ChainDb

variable {H : Type} [DecidableEq H]

@[simp] theorem GetTd_WriteBlock
    (db : ChainDb H)
    (block : ChainHeader H)
    (hash : H)
    (number : Nat) :
    (db.WriteBlock block).GetTd hash number =
      db.GetTd hash number := rfl

@[simp] theorem GetTd_WriteHeaderRecord
    (db : ChainDb H)
    (header : ChainHeader H)
    (hash : H)
    (number : Nat) :
    (db.WriteHeaderRecord header).GetTd hash number =
      db.GetTd hash number := rfl

@[simp] theorem GetTd_writeHeadBlock
    (db : ChainDb H)
    (block : ChainHeader H)
    (hash : H)
    (number : Nat) :
    (db.writeHeadBlock block).GetTd hash number =
      db.GetTd hash number := by
  unfold writeHeadBlock
  dsimp only
  split <;> rfl

/- reorg moves only the canonical markers. -/
theorem GetTd_reorg
    {db db' : ChainDb H}
    {block : ChainHeader H}
    (hReorg : db.reorg block = .ok db')
    (hash : H)
    (number : Nat) :
    db'.GetTd hash number = db.GetTd hash number := by
  unfold reorg at hReorg
  split at hReorg
  · cases hReorg
  · cases hReorg
    rfl

/- The walk stops at once at a canonical block. -/
theorem canonicalAncestors_of_canonical
    {db : ChainDb H}
    {hash : H}
    {number : Nat}
    (hCanonical : db.canonical number = some hash)
    (fuel : Nat) :
    db.canonicalAncestors (fuel + 1) hash number = some [] := by
  rw [canonicalAncestors, if_pos hCanonical]

/-
  writeBlockWithState stores `blockTd`, whatever the
  parent's total difficulty.
-/
theorem GetTd_writeBlockWithState
    {db db' : ChainDb H}
    {block : ChainHeader H}
    {status : WriteStatus}
    (hWrite : db.writeBlockWithState block =
      .ok (status, db')) :
    db'.GetTd block.Hash block.Number =
      some (blockTd block) := by
  unfold writeBlockWithState at hWrite
  split at hWrite
  · cases hWrite
  · split at hWrite
    · cases hWrite
    · dsimp only at hWrite
      split at hWrite
      · split at hWrite
        · split at hWrite
          · cases hWrite
          · rename_i hReorg
            cases hWrite
            simp [GetTd_reorg hReorg]
        · cases hWrite
          simp
      · cases hWrite
        simp

/-
  WriteHeader stores the parent's total difficulty plus the
  header's difficulty.
-/
theorem GetTd_WriteHeader
    {db db' : ChainDb H}
    {header : ChainHeader H}
    {coin : Bool}
    {status : WriteStatus}
    (hWrite : db.WriteHeader header coin =
      .ok (status, db')) :
    ∃ ptd, db.GetTd header.ParentHash (header.Number -
      1) = some ptd ∧
      db'.GetTd header.Hash header.Number =
        some (header.Difficulty + ptd) := by
  unfold WriteHeader at hWrite
  split at hWrite
  · cases hWrite
  · rename_i ptd hParent
    refine ⟨ptd, hParent, ?_⟩
    split at hWrite
    · cases hWrite
    · dsimp only at hWrite
      split at hWrite
      · split at hWrite
        · cases hWrite
        · cases hWrite
          simp [GetTd, WriteTd, WriteHeaderRecord]
      · cases hWrite
        simp [GetTd, WriteTd, WriteHeaderRecord]

/-
  A zero-difficulty child of the current header, whose total
  difficulty follows the `blockTd` rule, gets its parent's
  total difficulty from WriteHeader: one below the rule.
  That ties with the head, so the child becomes the head
  only if the coin comes up.
-/
theorem WriteHeader_zero_difficulty_child
    (db : ChainDb H)
    (header : ChainHeader H)
    (coin : Bool)
    (hParent : header.ParentHash = db.currentHeader.Hash)
    (hNumber : header.Number = db.currentHeader.Number + 1)
    (hZero : header.Difficulty = 0)
    (hHeadZero : db.currentHeader.Difficulty = 0)
    (hHead : db.canonical db.currentHeader.Number =
      some db.currentHeader.Hash)
    (hRule : db.GetTd db.currentHeader.Hash
      db.currentHeader.Number =
      some (blockTd db.currentHeader)) :
    ∃ db', db.WriteHeader header coin =
        .ok (if coin
          then .CanonStatTy else .SideStatTy, db') ∧
      db'.GetTd header.Hash header.Number =
        some (blockTd header - 1) := by
  have hTie : header.Difficulty + blockTd db.currentHeader =
    blockTd db.currentHeader := by
    rw [hZero, Nat.zero_add]
  have hBelowRule : blockTd header - 1 =
    blockTd db.currentHeader := by
    simp [blockTd, hZero, hHeadZero, hNumber]
  unfold WriteHeader
  rw [hParent, hNumber, Nat.add_sub_cancel, hRule]
  dsimp only
  rw [hTie, hBelowRule, ← hNumber]
  cases coin with
  | true =>
      let written := (db.WriteTd header.Hash header.Number
        (blockTd db.currentHeader)).WriteHeaderRecord
        header
      have hHead' : written.canonical
        db.currentHeader.Number =
        some db.currentHeader.Hash := hHead
      have hWalk : written.canonicalAncestors header.Number
        db.currentHeader.Hash
          db.currentHeader.Number = some [] := by
        rw [hNumber]
        exact canonicalAncestors_of_canonical hHead' _
      rw [if_pos (Or.inr ⟨rfl, rfl⟩), hWalk]
      refine ⟨_, rfl, ?_⟩
      simp [GetTd, WriteTd, WriteHeaderRecord]
  | false =>
      refine ⟨_, if_neg (by simp), ?_⟩
      simp [GetTd, WriteTd, WriteHeaderRecord]

end ChainDb

/-
  A clique genesis of difficulty 0, committed on an empty
  database.
-/
def cliqueGenesis : ChainHeader Nat :=
  ⟨0, 0, 0, 0, 0⟩

def cliqueGenesisDb : ChainDb Nat :=
  ChainDb.Commit
    ⟨fun _ _ => none, fun _ _ => none, fun _ _ => false,
      fun _ => none, cliqueGenesis,
      cliqueGenesis⟩
    cliqueGenesis

/- The first header on it, of difficulty 0. -/
def cliqueChild : ChainHeader Nat :=
  ⟨1, 0, 1, 0, 1⟩

theorem cliqueChild_left_to_coin :
    cliqueChild.ParentHash =
      cliqueGenesisDb.currentHeader.Hash ∧
    cliqueChild.Number =
      cliqueGenesisDb.currentHeader.Number + 1 ∧
    cliqueChild.Difficulty = 0 ∧
    cliqueGenesisDb.currentHeader.Difficulty = 0 ∧
    cliqueGenesisDb.canonical
      cliqueGenesisDb.currentHeader.Number =
      some cliqueGenesisDb.currentHeader.Hash ∧
    cliqueGenesisDb.GetTd cliqueGenesisDb.currentHeader.Hash
      cliqueGenesisDb.currentHeader.Number =
      some (blockTd cliqueGenesisDb.currentHeader) ∧
    ∃ db', cliqueGenesisDb.WriteHeader cliqueChild false =
        .ok (if false
          then .CanonStatTy else .SideStatTy, db') ∧
      db'.GetTd cliqueChild.Hash cliqueChild.Number =
        some (blockTd cliqueChild - 1) :=
  ⟨rfl, rfl, rfl, rfl, by decide, by decide,
    ChainDb.WriteHeader_zero_difficulty_child
      cliqueGenesisDb cliqueChild false rfl rfl rfl rfl
      (by decide) (by decide)⟩

namespace ChainDb

end ChainDb

end Core

end PlasmaEvm

------------------------------------------------------------
-- Side Chains of Zero Difficulty
------------------------------------------------------------

namespace PlasmaEvm

namespace Core

namespace ChainDb

variable {H : Type} [DecidableEq H]

/-
  A block off the canonical chain: its number's canonical
  hash is not its hash, and the canonical block there has
  neither its hash nor its root, so insertSideChain takes it
  as a side block.
-/
def OffCanonical
    (db : ChainDb H)
    (block : ChainHeader H) : Prop :=
  db.canonical block.Number ≠ some block.Hash ∧
    ∀ canon, db.GetBlockByNumber block.Number = some canon →
      canon.Hash ≠ block.Hash ∧ canon.Root ≠ block.Root

/-
  `db'` keeps the canonical chain of `db`, its blocks and
  their total difficulties.
-/
structure SameCanonical (db db' : ChainDb H) : Prop where
  canonical : db'.canonical = db.canonical
  currentBlock : db'.currentBlock = db.currentBlock
  blockByNumber : ∀ number, db'.GetBlockByNumber number =
    db.GetBlockByNumber number
  canonicalTd : ∀ hash number,
    db.canonical number = some hash →
    db'.GetTd hash number = db.GetTd hash number

omit [DecidableEq H] in
theorem SameCanonical.refl
    (db : ChainDb H) :
    SameCanonical db db :=
  ⟨rfl, rfl, fun _ => rfl, fun _ _ _ => rfl⟩

omit [DecidableEq H] in
theorem SameCanonical.trans
    {db₁ db₂ db₃ : ChainDb H}
    (h₁ : SameCanonical db₁ db₂)
    (h₂ : SameCanonical db₂ db₃) :
    SameCanonical db₁ db₃ := by
  refine ⟨h₂.canonical.trans h₁.canonical,
    h₂.currentBlock.trans h₁.currentBlock,
    fun number => (h₂.blockByNumber number).trans
      (h₁.blockByNumber number),
    fun hash number hCanonical => ?_⟩
  have hCanonical₂ : db₂.canonical number = some hash := by
    rw [h₁.canonical]
    exact hCanonical
  exact (h₂.canonicalTd hash number hCanonical₂).trans
    (h₁.canonicalTd hash number hCanonical)

omit [DecidableEq H] in
theorem OffCanonical.of_same
    {db db' : ChainDb H}
    {block : ChainHeader H}
    (hOff : OffCanonical db block)
    (hSame : SameCanonical db db') :
    OffCanonical db' block := by
  rcases hOff with ⟨hHash, hFork⟩
  refine ⟨by rw [hSame.canonical]; exact hHash,
    fun canon hCanon => hFork canon ?_⟩
  rw [← hSame.blockByNumber]
  exact hCanon

/-
  Writing a block that is not canonical at its number leaves
  the canonical chain alone.
-/
theorem writeBlockWithoutState_sameCanonical
    {db : ChainDb H}
    {block : ChainHeader H}
    (hHash : db.canonical block.Number ≠ some block.Hash)
    (td : Nat) :
    SameCanonical db (db.writeBlockWithoutState block td) := by
  have hKey : ∀ hash number,
    db.canonical number = some hash →
      ¬(hash = block.Hash ∧ number = block.Number) := by
    rintro hash number hCanonical ⟨rfl, rfl⟩
    exact hHash hCanonical
  refine ⟨rfl, rfl, fun number => ?_,
    fun hash number hCanonical => ?_⟩
  · cases hCanonical : db.canonical number with
    | none =>
        simp [GetBlockByNumber, writeBlockWithoutState,
          WriteBlock, WriteHeaderRecord, WriteTd,
          hCanonical]
    | some hash =>
        simp [GetBlockByNumber, writeBlockWithoutState,
          WriteBlock, WriteHeaderRecord,
          WriteTd, hCanonical, hKey hash number hCanonical]
  · simp [GetTd, writeBlockWithoutState, WriteBlock,
      WriteHeaderRecord, WriteTd,
      hKey hash number hCanonical]

theorem sideBlockTd_sameCanonical
    {db db' : ChainDb H}
    {externTd : Option Nat}
    {block : ChainHeader H}
    {td : Nat}
    (hHash : db.canonical block.Number ≠ some block.Hash)
    (hSide : db.sideBlockTd externTd block =
      .ok (td, db')) :
    SameCanonical db db' := by
  unfold sideBlockTd at hSide
  split at hSide
  · cases hSide
  · cases hSide
    split
    · exact SameCanonical.refl db
    · exact writeBlockWithoutState_sameCanonical hHash _

/-
  A running total difficulty grows by the block's
  difficulty.
-/
theorem sideBlockTd_some
    (db : ChainDb H)
    (td : Nat)
    (block : ChainHeader H) :
    ∃ db', db.sideBlockTd (some td) block = .ok (td +
      block.Difficulty, db') :=
  ⟨_, rfl⟩

/-
  The first side block starts from its parent's total
  difficulty.
-/
theorem sideBlockTd_none
    {db : ChainDb H}
    {block : ChainHeader H}
    {ptd : Nat}
    (hParent : db.GetTd block.ParentHash (block.Number -
      1) = some ptd) :
    ∃ db', db.sideBlockTd none block = .ok (ptd +
      block.Difficulty, db') := by
  unfold sideBlockTd
  rw [Option.orElse_eq_or, Option.none_or, hParent]
  exact ⟨_, rfl⟩

/- One side block of the loop of insertSideChain. -/
theorem sideChainTd_side
    (current : ChainHeader H)
    {db db' : ChainDb H}
    {externTd : Option Nat}
    {block : ChainHeader H}
    {td : Nat}
    (hOff : OffCanonical db block)
    (hSide : db.sideBlockTd externTd block = .ok (td, db'))
    (rest : List (ChainHeader H)) :
    sideChainTd current db externTd (block :: rest) =
      sideChainTd current db' (some td) rest := by
  rw [sideChainTd]
  cases hLookup : (if block.Number ≤ current.Number
    then db.GetBlockByNumber block.Number
      else none) with
  | none => simp [hSide]
  | some canon =>
      have hFork : canon.Hash ≠ block.Hash ∧
        canon.Root ≠ block.Root := by
        split at hLookup
        · exact hOff.2 canon hLookup
        · cases hLookup
      simp [hFork.1, hFork.2, hSide]

/-
  The loop over a side chain of zero-difficulty blocks: the
  running total difficulty never moves, and the canonical
  chain is kept.
-/
theorem sideChainTd_zero_difficulty
    (current : ChainHeader H)
    (td : Nat)
    (blocks : List (ChainHeader H))
    (db : ChainDb H)
    (hZero : ∀ block ∈ blocks, block.Difficulty = 0)
    (hOff : ∀ block ∈ blocks, OffCanonical db block) :
    ∃ db', sideChainTd current db (some td) blocks =
      .ok (some td, db') ∧
      SameCanonical db db' := by
  induction blocks generalizing db with
  | nil => exact ⟨db, rfl, SameCanonical.refl db⟩
  | cons block rest ih =>
      rcases sideBlockTd_some db td block with ⟨db₁, hStep⟩
      rw [hZero block List.mem_cons_self,
        Nat.add_zero] at hStep
      have hSame₁ := sideBlockTd_sameCanonical
        (hOff block List.mem_cons_self).1 hStep
      have hZeroRest : ∀ b ∈ rest, b.Difficulty = 0 :=
        fun b hb => hZero b (List.mem_cons_of_mem block hb)
      have hOffRest : ∀ b ∈ rest, OffCanonical db₁ b :=
        fun b hb => (hOff b (List.mem_cons_of_mem block
          hb)).of_same hSame₁
      rcases ih db₁ hZeroRest hOffRest
        with ⟨db', hRun, hSame'⟩
      refine ⟨db', ?_, hSame₁.trans hSame'⟩
      rw [sideChainTd_side current
        (hOff block List.mem_cons_self) hStep, hRun]

/-
  A side chain of zero-difficulty blocks forking from a
  block whose total difficulty is below the head's is left
  on disk, however long it is.
-/
theorem insertSideChain_zero_difficulty
    (db : ChainDb H)
    (first : ChainHeader H)
    (rest : List (ChainHeader H))
    (ptd localTd : Nat)
    (hZero : ∀ block ∈ first :: rest, block.Difficulty = 0)
    (hOff : ∀ block ∈ first :: rest, OffCanonical db block)
    (hHead : db.canonical db.currentBlock.Number =
      some db.currentBlock.Hash)
    (hParent : db.GetTd first.ParentHash
      (first.Number - 1) = some ptd)
    (hLocal : db.GetTd db.currentBlock.Hash
      db.currentBlock.Number = some localTd)
    (hBelow : ptd < localTd) :
    ∃ db', db.insertSideChain (first :: rest) =
      .ok (.sidechainWrittenToDisk, db') := by
  rcases sideBlockTd_none hParent with ⟨db₁, hFirst⟩
  rw [hZero first List.mem_cons_self,
    Nat.add_zero] at hFirst
  have hSame₁ := sideBlockTd_sameCanonical
    (hOff first List.mem_cons_self).1 hFirst
  have hZeroRest : ∀ b ∈ rest, b.Difficulty = 0 :=
    fun b hb => hZero b (List.mem_cons_of_mem first hb)
  have hOffRest : ∀ b ∈ rest, OffCanonical db₁ b :=
    fun b hb => (hOff b (List.mem_cons_of_mem
      first hb)).of_same hSame₁
  rcases sideChainTd_zero_difficulty db.currentBlock ptd
    rest db₁ hZeroRest hOffRest
    with ⟨db', hRun, hSame'⟩
  have hLocal' : db'.GetTd db.currentBlock.Hash
    db.currentBlock.Number = some localTd := by
    rw [(hSame₁.trans hSame').canonicalTd _ _ hHead, hLocal]
  refine ⟨db', ?_⟩
  unfold insertSideChain
  dsimp only
  rw [sideChainTd_side db.currentBlock
    (hOff first List.mem_cons_self) hFirst, hRun]
  simp [hLocal', hBelow]

end ChainDb

end Core

end PlasmaEvm

------------------------------------------------------------
-- The Genesis and Known Blocks
------------------------------------------------------------

namespace PlasmaEvm

namespace Core

namespace ChainDb

variable {H : Type} [DecidableEq H]

@[simp] theorem Commit_currentBlock
    (db : ChainDb H)
    (genesis : ChainHeader H) :
    (db.Commit genesis).currentBlock = genesis := rfl

@[simp] theorem GetTd_Commit
    (db : ChainDb H)
    (genesis : ChainHeader H) :
    (db.Commit genesis).GetTd genesis.Hash genesis.Number =
      some genesis.Difficulty := by
  simp [Commit, GetTd, WriteBlock,
    WriteHeaderRecord, WriteTd]

/-
  The genesis stores its difficulty, not `blockTd`: on a
  genesis of positive difficulty (the default genesis has
  1), a zero-difficulty first block gets `blockTd` 1, no
  more than the genesis, and stays a side block.
-/
theorem writeBlockWithState_first_block
    (db : ChainDb H)
    (genesis block : ChainHeader H)
    (hGenesis : 0 < genesis.Difficulty)
    (hGenesisNumber : genesis.Number = 0)
    (hParent : block.ParentHash = genesis.Hash)
    (hNumber : block.Number = 1)
    (hZero : block.Difficulty = 0) :
    ∃ db', (db.Commit genesis).writeBlockWithState block =
      .ok (.SideStatTy, db') := by
  have hNotAbove : ¬(blockTd block > genesis.Difficulty) := by
    simp only [blockTd, hZero, hNumber,
      Nat.zero_mul, Nat.zero_add]
    omega
  have hParentTd : (db.Commit genesis).GetTd
    block.ParentHash (block.Number - 1) =
      some genesis.Difficulty := by
    rw [hParent, hNumber,
      Nat.sub_self, ← hGenesisNumber, GetTd_Commit]
  unfold writeBlockWithState
  rw [hParentTd, Commit_currentBlock, GetTd_Commit]
  dsimp only
  exact ⟨_, by rw [if_neg hNotAbove]⟩

omit [DecidableEq H] in
/-
  The known-block skip over zero-difficulty blocks: from a
  total difficulty no greater than the head's, the running
  total never exceeds it, so every known block is ignored.
-/
theorem skipKnownBlocks_zero_difficulty
    (localTd td : Nat)
    (blocks : List (ChainHeader H))
    (hZero : ∀ block ∈ blocks, block.Difficulty = 0)
    (hTd : td ≤ localTd) :
    skipKnownBlocks localTd td blocks = blocks.length := by
  induction blocks with
  | nil => rfl
  | cons block rest ih =>
      have hZeroRest : ∀ b ∈ rest, b.Difficulty = 0 :=
        fun b hb => hZero b (List.mem_cons_of_mem block hb)
      rw [skipKnownBlocks, hZero block
        List.mem_cons_self, Nat.add_zero,
        if_neg (Nat.not_lt.mpr hTd), ih hZeroRest,
          List.length_cons]

end ChainDb

end Core

end PlasmaEvm
