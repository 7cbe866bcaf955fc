import PlasmaEvm.Merkle.Padded
import PlasmaEvm.Common.Types
import Mathlib.Logic.Equiv.List
import Mathlib.Data.Nat.Pairing

/-
  The binary-Merkle commitment of
  `core/types/derive_sha.go`: the root `getBinaryMerkleRoot`
  and `DeriveShaFromBMT`, the proof builder
  `GetMerkleProof`, and the membership check of
  `BMT.checkMembership` (with its Go rendition in
  `TestCheckMembership`).

  Each is translated from the source and then identified
  with the padded Merkle tree of `PaddedMerkle`.

  Main declarations:
    * `getBinaryMerkleRoot_eq_root`
    * `GetMerkleProof_eq_path`
    * `GetMerkleProof_computedHash`,
      `checkMembership_GetMerkleProof`
    * `DeriveShaFromBMT_binding`
    * `DeriveShaFromBMT_duplicate_last`
-/

------------------------------------------------------------
-- Roots
------------------------------------------------------------

namespace PlasmaEvm

namespace Types

variable {H : Type}
variable (keccak : Keccak H)

/-
  `DerivableList`: its `Len()` elements by their
  `GetRlp(i)`.
-/
abbrev DerivableList := List Bytes

/-
  The level loop of `getBinaryMerkleRoot`, repeated in the
  `createTree` closure of `GetMerkleProof`: neighbours are
  hashed in pairs, the last node of an odd level with
  itself.
-/
def nextLevel (level : List H) : List H :=
  PaddedMerkle.pairUp keccak.hashPair level

/-
  `getBinaryMerkleRoot`: `EmptyRootHash` for no leaves, the
  leaf itself for one, and otherwise the root of the next
  level.
-/
def getBinaryMerkleRoot
    (EmptyRootHash : H)
    (level : List H) : H :=
  match level with
  | [] => EmptyRootHash
  | [root] => root
  | a :: b :: rest =>
      getBinaryMerkleRoot EmptyRootHash
        (nextLevel keccak (a :: b :: rest))
termination_by level.length
decreasing_by
  simp only [nextLevel, PaddedMerkle.length_pairUp,
    List.length_cons]
  omega

/-
  `DeriveShaFromBMT`: the root over the elements' hashes.
-/
def DeriveShaFromBMT
    (EmptyRootHash : H)
    (list : DerivableList) : H :=
  getBinaryMerkleRoot keccak EmptyRootHash
    (list.map keccak.hash)

/- The code's root is the padded Merkle root. -/
theorem getBinaryMerkleRoot_eq_root
    (EmptyRootHash : H)
    (level : List H) :
    getBinaryMerkleRoot keccak EmptyRootHash level =
      PaddedMerkle.root keccak.hashPair EmptyRootHash level := by
  induction hSize : level.length using Nat.strong_induction_on
      generalizing level with
  | _ n ih =>
      match level with
      | [] =>
          rw [getBinaryMerkleRoot, PaddedMerkle.root_nil]
      | [a] =>
          rw [getBinaryMerkleRoot,
            PaddedMerkle.root_singleton]
      | a :: b :: rest =>
          have hShorter :
              (nextLevel keccak (a :: b :: rest)).length < n := by
            rw [← hSize, nextLevel,
              PaddedMerkle.length_pairUp]
            simp only [List.length_cons]
            omega
          rw [getBinaryMerkleRoot, ih _ hShorter _ rfl,
            PaddedMerkle.root_of_two_le keccak.hashPair
              EmptyRootHash (a :: b :: rest) (by simp)]
          rfl

end Types

end PlasmaEvm

------------------------------------------------------------
-- Merkle Proofs
------------------------------------------------------------

namespace PlasmaEvm

namespace Types

variable {H : Type}
variable (keccak : Keccak H)

/-
  The `tree` of `GetMerkleProof`: it starts with the leaf
  level, and `createTree` appends the next level while the
  last one has more than one node.
-/
def buildTree (level : List H) : List (List H) :=
  if 1 < level.length then
    level :: buildTree (nextLevel keccak level)
  else [level]
termination_by level.length
decreasing_by
  simp only [nextLevel, PaddedMerkle.length_pairUp]
  omega

/-
  The sibling rule of `GetMerkleProof`: `nodeIndex + 1` for
  an even node, itself when that is the length of the level,
  and `nodeIndex - 1` for an odd node.
-/
def siblingIndex
    (level : List H)
    (nodeIndex : Nat) : Nat :=
  if nodeIndex % 2 = 0 then
    if level.length = nodeIndex + 1 then nodeIndex
    else nodeIndex + 1
  else nodeIndex - 1

/-
  The proof loop of `GetMerkleProof` over `tree[0..depth)`:
  the sibling of the current node on every level but the
  root, the index halving at each level.  An index out of
  the level's range, a panic in Go, is `none`.
-/
def collectProof : List (List H) → Nat → Option (List H)
  | [], _ => some []
  | [_], _ => some []
  | level :: next :: rest, nodeIndex =>
      match level[siblingIndex level nodeIndex]?,
        collectProof (next :: rest) (nodeIndex / 2) with
      | some sibling, some proof => some (sibling :: proof)
      | _, _ => none

/-
  `GetMerkleProof(list, index)`: the empty proof for a
  single element, otherwise the proof loop over the tree of
  the elements' hashes.
-/
def GetMerkleProof
    (list : DerivableList)
    (index : Nat) : Option (List H) :=
  if list.length = 1 then some []
  else collectProof (buildTree keccak
    (list.map keccak.hash)) index

theorem buildTree_of_le_one
    (level : List H)
    (hLength : level.length ≤ 1) :
    buildTree keccak level = [level] := by
  rw [buildTree, if_neg (by omega)]

theorem buildTree_of_two_le
    (level : List H)
    (hLength : 2 ≤ level.length) :
    buildTree keccak level =
      level :: buildTree keccak (nextLevel keccak level) := by
  rw [buildTree, if_pos (by omega)]

/- Every tree starts with the level it was built from. -/
theorem exists_buildTree_eq_cons (level : List H) :
    ∃ rest, buildTree keccak level = level :: rest := by
  by_cases hLength : level.length ≤ 1
  · exact ⟨[], buildTree_of_le_one keccak level hLength⟩
  · exact ⟨_, buildTree_of_two_le keccak level (by omega)⟩

/- The code's sibling rule picks the library's sibling. -/
theorem getElem?_siblingIndex
    (level : List H)
    (nodeIndex : Nat) :
    level[siblingIndex level nodeIndex]? =
      PaddedMerkle.sibling level nodeIndex := by
  unfold siblingIndex PaddedMerkle.sibling
  by_cases hParity : nodeIndex % 2 = 0
  · rw [if_pos hParity, if_pos hParity]
    by_cases hLast : level.length = nodeIndex + 1
    · rw [if_pos hLast, if_neg (by omega)]
    · rw [if_neg hLast]
      by_cases hInside : nodeIndex + 1 < level.length
      · rw [if_pos hInside]
      · rw [if_neg hInside,
          List.getElem?_eq_none (by omega),
          List.getElem?_eq_none (by omega)]
  · rw [if_neg hParity, if_neg hParity]

/-
  The proof loop over the tree of a level is the library's
  authentication path of that level.
-/
theorem collectProof_buildTree
    (level : List H)
    (nodeIndex : Nat) :
    collectProof (buildTree keccak level) nodeIndex =
      PaddedMerkle.path keccak.hashPair level nodeIndex := by
  induction hSize : level.length using Nat.strong_induction_on
      generalizing level nodeIndex with
  | _ n ih =>
      by_cases hSmall : level.length ≤ 1
      · rw [buildTree_of_le_one keccak level hSmall,
          PaddedMerkle.path_of_le_one _ level nodeIndex hSmall]
        rfl
      · have hShorter :
            (nextLevel keccak level).length < n := by
          rw [nextLevel, PaddedMerkle.length_pairUp]
          omega
        rcases exists_buildTree_eq_cons keccak
            (nextLevel keccak level) with ⟨rest, hRest⟩
        have hParent :=
          ih _ hShorter (nextLevel keccak level) (nodeIndex / 2)
            rfl
        rw [hRest] at hParent
        rw [buildTree_of_two_le keccak level (by omega), hRest,
          PaddedMerkle.path_of_two_le _ level nodeIndex
            (by omega),
          collectProof, hParent, getElem?_siblingIndex]
        rfl

/-
  `GetMerkleProof` is the authentication path of the leaf.
-/
theorem GetMerkleProof_eq_path
    (list : DerivableList)
    (index : Nat) :
    GetMerkleProof keccak list index =
      PaddedMerkle.path keccak.hashPair
        (list.map keccak.hash) index := by
  unfold GetMerkleProof
  split
  · rename_i hOne
    rw [PaddedMerkle.path_of_le_one _ _ _ (by simp [hOne])]
  · exact collectProof_buildTree keccak _ index

end Types

end PlasmaEvm

------------------------------------------------------------
-- Membership Checks
------------------------------------------------------------

namespace PlasmaEvm

namespace Types

variable {H : Type}
variable (keccak : Keccak H)

/-
  The fold of `BMT.checkMembership` and of its Go rendition
  in `TestCheckMembership`: the current hash is hashed with
  the next proof element on the side the index gives, and
  the index is halved.
-/
def computedHash (leaf : H) (nodeIndex : Nat) : List H → H
  | [] => leaf
  | proofElement :: proof =>
      computedHash
        (if nodeIndex % 2 = 0 then
          keccak.hashPair leaf proofElement
        else keccak.hashPair proofElement leaf)
        (nodeIndex / 2) proof

/-
  `BMT.checkMembership(leaf, index, rootHash, proof)`, with
  the proof as its list of 32-byte elements, of which there
  must be fewer than sixteen.
-/
def checkMembership
    [DecidableEq H]
    (leaf : H)
    (index : Nat)
    (rootHash : H)
    (proof : List H) : Bool :=
  decide (proof.length < 16) &&
    decide (computedHash keccak leaf index proof = rootHash)

/- The code's fold is the library's verifier fold. -/
theorem computedHash_eq_climb
    (leaf : H)
    (nodeIndex : Nat)
    (proof : List H) :
    computedHash keccak leaf nodeIndex proof =
      PaddedMerkle.climb keccak.hashPair leaf
        nodeIndex proof := by
  induction proof generalizing leaf nodeIndex with
  | nil => rfl
  | cons proofElement proof ih =>
      rw [computedHash, ih, PaddedMerkle.climb_cons]
      rfl

/-
  The proof `GetMerkleProof` returns for an element is a
  path of its leaf in the padded tree: `⌈log₂ n⌉` siblings
  whose climb from the leaf reaches the padded root.
-/
theorem GetMerkleProof_climb
    (EmptyRootHash : H)
    (list : DerivableList)
    (index : Nat)
    (hIndex : index < list.length) :
    ∃ proof,
      GetMerkleProof keccak list index = some proof ∧
        proof.length = Nat.clog 2 list.length ∧
        PaddedMerkle.climb keccak.hashPair
          (keccak.hash list[index]) index
            proof =
          PaddedMerkle.root keccak.hashPair EmptyRootHash
            (list.map keccak.hash) := by
  have hLeafIndex : index <
    (list.map keccak.hash).length := by
    rw [List.length_map]
    exact hIndex
  have hLeaf :
      (list.map keccak.hash)[index]? =
        some (keccak.hash list[index]) := by
    simp [hIndex]
  rcases PaddedMerkle.exists_path keccak.hashPair
      (list.map keccak.hash) index hLeafIndex with
    ⟨proof, hPath⟩
  refine ⟨proof, ?_, ?_, ?_⟩
  · rw [GetMerkleProof_eq_path]
    exact hPath
  · rw [PaddedMerkle.length_path keccak.hashPair _ index proof
      hPath, List.length_map]
  · exact PaddedMerkle.climb_path keccak.hashPair EmptyRootHash
      _ index _ proof hLeaf hPath

/-
  Every element of a non-empty derivable list has a Merkle
  proof of `⌈log₂ n⌉` elements, and folding it from the
  element's hash with the verifier's rule reaches
  `DeriveShaFromBMT` of the list.
-/
theorem GetMerkleProof_computedHash
    (EmptyRootHash : H)
    (list : DerivableList)
    (index : Nat)
    (hIndex : index < list.length) :
    ∃ proof,
      GetMerkleProof keccak list index = some proof ∧
        proof.length = Nat.clog 2 list.length ∧
        computedHash keccak (keccak.hash
          list[index]) index proof =
          DeriveShaFromBMT keccak EmptyRootHash list := by
  obtain ⟨proof, hProof, hLength, hClimb⟩ :=
    GetMerkleProof_climb keccak EmptyRootHash list index hIndex
  refine ⟨proof, hProof, hLength, ?_⟩
  rw [computedHash_eq_climb, DeriveShaFromBMT,
    getBinaryMerkleRoot_eq_root]
  exact hClimb

/-
  For a list of at most `2 ^ 15` elements the proof of each
  element is short enough for `checkMembership`, which then
  accepts it against `DeriveShaFromBMT` of the list.
-/
theorem checkMembership_GetMerkleProof
    [DecidableEq H]
    (EmptyRootHash : H)
    (list : DerivableList)
    (index : Nat)
    (hIndex : index < list.length)
    (hSize : list.length ≤ 2 ^ 15) :
    ∃ proof,
      GetMerkleProof keccak list index = some proof ∧
        checkMembership keccak (keccak.hash list[index]) index
          (DeriveShaFromBMT keccak EmptyRootHash list)
            proof = true := by
  obtain ⟨proof, hProof, hLength, hClimb⟩ :=
    GetMerkleProof_climb keccak EmptyRootHash list index hIndex
  refine ⟨proof, hProof, ?_⟩
  have hShort : proof.length < 16 := by
    have hLog : Nat.clog 2 list.length ≤ 15 :=
      (Nat.clog_le_iff_le_pow (by omega)).mpr hSize
    omega
  have hRoot :
      computedHash keccak (keccak.hash list[index]) index proof =
        DeriveShaFromBMT keccak EmptyRootHash list := by
    rw [computedHash_eq_climb, DeriveShaFromBMT,
      getBinaryMerkleRoot_eq_root]
    exact hClimb
  simp [checkMembership, hShort, hRoot]

end Types

end PlasmaEvm

------------------------------------------------------------
-- Binding
------------------------------------------------------------

namespace PlasmaEvm

namespace Types

variable {H : Type}
variable (keccak : Keccak H)

/-
  With an injective Keccak the root binds the level among
  levels of one length.
-/
theorem getBinaryMerkleRoot_injective
    (hKeccak : keccak.Injective)
    (EmptyRootHash : H)
    (level₁ level₂ : List H)
    (hLength : level₁.length = level₂.length)
    (hRoot :
      getBinaryMerkleRoot keccak EmptyRootHash level₁ =
        getBinaryMerkleRoot keccak EmptyRootHash level₂) :
    level₁ = level₂ := by
  rw [getBinaryMerkleRoot_eq_root,
    getBinaryMerkleRoot_eq_root] at hRoot
  exact PaddedMerkle.root_injective keccak.hashPair hKeccak.2
    EmptyRootHash level₁ level₂ hLength hRoot

/-
  With an injective Keccak, `DeriveShaFromBMT` binds the
  list among lists of one length.
-/
theorem DeriveShaFromBMT_injective
    (hKeccak : keccak.Injective)
    (EmptyRootHash : H)
    (list₁ list₂ : DerivableList)
    (hLength : list₁.length = list₂.length)
    (hRoot :
      DeriveShaFromBMT keccak EmptyRootHash list₁ =
        DeriveShaFromBMT keccak EmptyRootHash list₂) :
    list₁ = list₂ := by
  have hLeaves :
      list₁.map keccak.hash = list₂.map keccak.hash := by
    apply getBinaryMerkleRoot_injective keccak hKeccak
      EmptyRootHash
    · simp only [List.length_map]
      exact hLength
    · exact hRoot
  exact (List.map_injective_iff.mpr hKeccak.1) hLeaves

/-
  The padding collision: repeating the last element of a
  list of odd length at least three leaves
  `DeriveShaFromBMT` unchanged, whatever Keccak is.
-/
theorem DeriveShaFromBMT_append_getLast
    (EmptyRootHash : H)
    (list : DerivableList)
    (last : Bytes)
    (hLast : list.getLast? = some last)
    (hOdd : list.length % 2 = 1)
    (hSize : 3 ≤ list.length) :
    DeriveShaFromBMT keccak EmptyRootHash (list ++ [last]) =
      DeriveShaFromBMT keccak EmptyRootHash list := by
  have hLeafLast :
      (list.map keccak.hash).getLast? =
        some (keccak.hash last) := by
    rw [List.getLast?_map, hLast]
    rfl
  unfold DeriveShaFromBMT
  rw [List.map_append, List.map_singleton,
    getBinaryMerkleRoot_eq_root,
      getBinaryMerkleRoot_eq_root]
  apply PaddedMerkle.root_append_getLast
  · exact hLeafLast
  · rw [List.length_map]
    exact hOdd
  · rw [List.length_map]
    exact hSize

/-
  The commitment binds lists of one length, both for
  derivable lists and for hash lists, and does not bind
  across lengths: a list of odd length at least three shares
  its root with the list that repeats its last element.
-/
theorem DeriveShaFromBMT_binding
    (hKeccak : keccak.Injective)
    (EmptyRootHash : H) :
    (∀ list₁ list₂ : DerivableList,
      list₁.length = list₂.length →
      DeriveShaFromBMT keccak EmptyRootHash list₁ =
        DeriveShaFromBMT keccak EmptyRootHash list₂ →
      list₁ = list₂) ∧
    (∀ level₁ level₂ : List H,
      level₁.length = level₂.length →
      getBinaryMerkleRoot keccak EmptyRootHash level₁ =
        getBinaryMerkleRoot keccak EmptyRootHash level₂ →
      level₁ = level₂) ∧
    (∀ (list : DerivableList) (last : Bytes),
      list.getLast? = some last →
      list.length % 2 = 1 →
      3 ≤ list.length →
      DeriveShaFromBMT keccak EmptyRootHash (list ++ [last]) =
        DeriveShaFromBMT keccak EmptyRootHash list) := by
  refine ⟨?_, ?_, ?_⟩
  · intro list₁ list₂ hLength hRoot
    exact DeriveShaFromBMT_injective keccak hKeccak
      EmptyRootHash list₁ list₂ hLength hRoot
  · intro level₁ level₂ hLength hRoot
    exact getBinaryMerkleRoot_injective keccak hKeccak
      EmptyRootHash level₁ level₂ hLength hRoot
  · intro list last hLast hOdd hSize
    exact DeriveShaFromBMT_append_getLast keccak EmptyRootHash
      list last hLast hOdd hSize

end Types

end PlasmaEvm

------------------------------------------------------------
-- An Injective Keccak
------------------------------------------------------------

namespace PlasmaEvm

namespace Types

/-
  A Keccak that is injective, on natural numbers: a byte
  string by the encoding of its byte values, two hashes by
  `Nat.pair`.
-/
def natKeccak : Keccak Nat where
  hash data := Encodable.encode (data.map UInt8.toNat)
  hashPair := Nat.pair

theorem natKeccak_injective : natKeccak.Injective := by
  constructor
  · intro data₁ data₂ hHash
    have hValues :
        data₁.map UInt8.toNat = data₂.map UInt8.toNat :=
      Encodable.encode_injective hHash
    apply (List.map_injective_iff.mpr _) hValues
    intro byte₁ byte₂ hByte
    exact UInt8.toNat_inj.mp hByte
  · intro a₁ a₂ b₁ b₂ hPair
    exact Nat.pair_eq_pair.mp hPair

/- The binding theorem at the injective Keccak. -/
theorem DeriveShaFromBMT_binding_natKeccak :
    natKeccak.Injective ∧
      ((∀ list₁ list₂ : DerivableList,
        list₁.length = list₂.length →
        DeriveShaFromBMT natKeccak 0 list₁ =
          DeriveShaFromBMT natKeccak 0 list₂ →
        list₁ = list₂) ∧
      (∀ level₁ level₂ : List Nat,
        level₁.length = level₂.length →
        getBinaryMerkleRoot natKeccak 0 level₁ =
          getBinaryMerkleRoot natKeccak 0 level₂ →
        level₁ = level₂) ∧
      (∀ (list : DerivableList) (last : Bytes),
        list.getLast? = some last →
        list.length % 2 = 1 →
        3 ≤ list.length →
        DeriveShaFromBMT natKeccak 0 (list ++ [last]) =
          DeriveShaFromBMT natKeccak 0 list)) :=
  ⟨natKeccak_injective,
    DeriveShaFromBMT_binding natKeccak natKeccak_injective 0⟩

/-
  Even with an injective Keccak two distinct lists can share
  a root: the odd level of `[1, 2, 3]` is padded with a copy
  of its last hash, so `[1, 2, 3]` and `[1, 2, 3, 3]` have
  one root.
-/
theorem DeriveShaFromBMT_duplicate_last :
    natKeccak.Injective ∧
      ([[1], [2], [3]] : DerivableList) ≠ [[1],
        [2], [3], [3]] ∧
      DeriveShaFromBMT natKeccak 0 [[1], [2], [3]] =
        DeriveShaFromBMT natKeccak 0 [[1], [2],
          [3], [3]] := by
  refine ⟨natKeccak_injective, by decide, ?_⟩
  exact (DeriveShaFromBMT_append_getLast natKeccak 0
    [[1], [2], [3]] [3] rfl rfl (by decide)).symm

/- The proof theorem at the last of three elements. -/
theorem GetMerkleProof_computedHash_three :
    2 < ([[1], [2], [3]] : DerivableList).length ∧
      ∃ proof,
        GetMerkleProof natKeccak [[1], [2],
          [3]] 2 = some proof ∧
          proof.length =
            Nat.clog 2 ([[1], [2],
              [3]] : DerivableList).length ∧
          computedHash natKeccak (natKeccak.hash [3]) 2 proof =
            DeriveShaFromBMT natKeccak 0 [[1], [2], [3]] :=
  ⟨by decide,
    GetMerkleProof_computedHash natKeccak 0 [[1], [2], [3]] 2
      (by decide)⟩

end Types

end PlasmaEvm

