import PlasmaEvm.Rlp.Encode
import PlasmaEvm.Data.CommonPrefix

/-
  The nodes of the Merkle-Patricia trie (package trie:
  node.go, encoding.go).  A key is walked nibble by nibble
  in hex encoding: two nibbles for each byte of the key,
  then the terminator 16.  A fullNode branches on the next
  nibble, a shortNode holds a run of nibbles, a valueNode
  holds the value at the end of a key, and a hashNode stands
  for a node of the database not yet loaded.

  Go's nodes are an interface; here they are one inductive
  type, the seventeen children of a fullNode a function of
  the nibble.  The hasher writes its collapsed nodes, whose
  keys are in compact encoding and whose large children are
  hashes, as a second type with their RLP encoding.

  Key definitions include:
    * `Trie.keybytesToHex`, `Trie.hexToCompact`,
      `Trie.compactToHex`, `Trie.hexToKeybytes`,
      `Trie.prefixLen`
    * `Trie.nibblesOf`, `Trie.terminated`
    * `Trie.Rest`
    * `Trie.Node`, `Trie.NodeFlag`, `Trie.Collapsed`,
      `Trie.Node.WF`
    * `Trie.TrieError`, `Trie.resolveHash`
-/

------------------------------------------------------------
-- Keys in Hex and Compact Encoding
------------------------------------------------------------

namespace PlasmaEvm

namespace Trie

/- A nibble of a hex key: 0 to 15, or 16, the terminator. -/
abbrev Nibble := Fin 17

/-
  keybytesToHex: the high and the low nibble of each byte,
  then the terminator.
-/
def keybytesToHex (str : Bytes) : List Nibble :=
  str.flatMap (fun b =>
    [⟨b.toNat / 16, by have := UInt8.toNat_lt b; omega⟩,
     ⟨b.toNat % 16, by omega⟩]) ++ [16]

/-
  The high and the low nibble of a byte, as keybytesToHex
  writes them.
-/
def nibblesOf (b : UInt8) : List Nibble :=
  [⟨b.toNat / 16, by have := UInt8.toNat_lt b; omega⟩,
    ⟨b.toNat % 16, by omega⟩]

/- The terminator of a hex key, when it has one. -/
def terminated (t : Bool) : List Nibble :=
  if t then [16] else []

def hasTerm (s : List Nibble) : Bool :=
  s.getLast? = some 16

/- decodeNibbles: each pair of nibbles as one byte. -/
def decodeNibbles : List Nibble → Bytes
  | n₀ :: n₁ :: rest =>
      (UInt8.ofNat n₀ <<< 4 ||| UInt8.ofNat n₁) ::
        decodeNibbles rest
  | _ => []

/-
  hexToCompact: a flag byte, with the terminator in bit 5
  and an odd length in bit 4 (the first nibble then in its
  low half), and the other nibbles two to a byte.
-/
def hexToCompact (hex : List Nibble) : Bytes :=
  let terminator : UInt8 := if hasTerm hex then 1 else 0
  let hex := if hasTerm hex then hex.dropLast else hex
  let flag := terminator <<< 5
  match hex with
  | n₀ :: rest =>
      if hex.length % 2 = 1
        then (flag ||| (1 : UInt8) <<<
          4 ||| UInt8.ofNat n₀) :: decodeNibbles rest
      else flag :: decodeNibbles hex
  | [] => [flag]

/-
  compactToHex: the nibbles of the compact key with the
  terminator, which stays only when the flag nibble base[0]
  says so, and then the flag nibble, with the padding nibble
  of an even key, chopped.
-/
def compactToHex (compact : Bytes) : List Nibble :=
  match compact with
  | [] => []
  | c₀ :: cs =>
      let base := keybytesToHex (c₀ :: cs)
      match base with
      | [] => []
      | b₀ :: _ =>
          let base := if b₀.val < 2
            then base.dropLast else base
          base.drop (2 - b₀.val % 2)

/-
  hexToKeybytes: a hex key of even length, terminator
  dropped, two nibbles to a byte; an odd length panics.
-/
def hexToKeybytes (hex : List Nibble) : Option Bytes :=
  let hex := if hasTerm hex then hex.dropLast else hex
  if hex.length % 2 ≠ 0 then none
  else some (decodeNibbles hex)

/-
  prefixLen: the length of the common prefix of two keys.
-/
def prefixLen (a b : List Nibble) : Nat :=
  List.commonPrefixLen a b

/-
  The rest of a key from a node on: nothing once the
  terminator is passed, and before it nibbles below 16 and
  then the terminator.
-/
def Rest : Bool → List Nibble → Prop
  | true, k => k = []
  | false, k =>
      ∃ body, (∀ x ∈ body, x ≠ 16) ∧ k = body ++ [16]

end Trie

end PlasmaEvm

------------------------------------------------------------
-- Nodes
------------------------------------------------------------

namespace PlasmaEvm

namespace Trie

/-
  nodeFlag: the cached hash of the node (nil when none), and
  whether it is dirty.
-/
structure NodeFlag where
  hash : Option Bytes
  dirty : Bool
  deriving DecidableEq, Repr

inductive Node where
  | nil
  | fullNode (children : Fin 17 → Node) (flags : NodeFlag)
  | shortNode (key : List Nibble) (val : Node) (flags : NodeFlag)
  | hashNode (hash : Bytes)
  | valueNode (value : Bytes)

/- Trie.newFlag: a node just made is dirty, with no hash. -/
def newFlag : NodeFlag :=
  { hash := none, dirty := true }

namespace Node

/- The comparisons of a node with nil in the code. -/
def isNil : Node → Bool
  | .nil => true
  | _ => false

/-
  cache: the flags of a full or short node; a hash or value
  node has no hash and is dirty.
-/
def cache : Node → Option Bytes × Bool
  | .fullNode _ flags => (flags.hash, flags.dirty)
  | .shortNode _ _ flags => (flags.hash, flags.dirty)
  | _ => (none, true)

end Node

/- The children of a new fullNode, all nil. -/
def emptyChildren : Fin 17 → Node :=
  fun _ => .nil

/-
  The shape of a trie in memory, at a node reached before
  the terminator (`past = false`) or after it.
-/
def Node.WF : Bool → Node → Prop
  | _, .nil => True
  | past, .valueNode _ => past = true
  | past, .shortNode nkey val _ =>
      past = false ∧ nkey ≠ [] ∧ (∀ x ∈ nkey.dropLast,
        x ≠ 16) ∧ val.WF (hasTerm nkey)
  | past, .fullNode children _ =>
      past = false ∧ ∀ i, (children i).WF (decide (i = 16))
  | _, .hashNode _ => False

end Trie

end PlasmaEvm

------------------------------------------------------------
-- Collapsed Nodes and Their Encoding
------------------------------------------------------------

namespace PlasmaEvm

namespace Trie

/-
  A node as the hasher collapses it: a short node's key in
  compact encoding, and each child either embedded or
  replaced by its hash. `nil` is an unset child, which
  fullNode.EncodeRLP writes as nilValueNode.
-/
inductive Collapsed where
  | nil
  | fullNode (children : Fin 17 → Collapsed)
  | shortNode (key : Bytes) (val : Collapsed)
  | hashNode (hash : Bytes)
  | valueNode (value : Bytes)

namespace Collapsed

/-
  rlp.Encode of a collapsed node: a short node is the list
  of its key and its value, a full node the list of its
  seventeen children, and a hash or a value its bytes as a
  string.
-/
def encode : Collapsed → Bytes
  | .nil => Rlp.encodeString []
  | .fullNode children =>
      Rlp.encodeList ((List.finRange 17).flatMap fun i =>
        (children i).encode)
  | .shortNode key val =>
      Rlp.encodeList (Rlp.encodeString key ++ val.encode)
  | .hashNode hash => Rlp.encodeString hash
  | .valueNode value => Rlp.encodeString value

/-
  The hash of a hashed node (hashed.(hashNode)), nil for any
  other.
-/
def asHash : Collapsed → Option Bytes
  | .hashNode hash => some hash
  | _ => none

end Collapsed

/- A node without children as the hasher leaves it. -/
def Node.leafCollapsed : Node → Collapsed
  | .hashNode hash => .hashNode hash
  | .valueNode value => .valueNode value
  | _ => .nil

end Trie

end PlasmaEvm

------------------------------------------------------------
-- Errors and the Database
------------------------------------------------------------

namespace PlasmaEvm

namespace Trie

/-
  The errors of the trie's operations.  MissingNodeError is
  the code's own; `invalidNode` and `indexOutOfRange` are
  its panics (a node of a kind a switch does not expect, a
  key indexed past its end), and `outOfFuel` is the model's
  bound on the recursion.
-/
inductive TrieError where
  | MissingNodeError (nodeHash : Bytes) (path : List Nibble)
  | invalidNode
  | indexOutOfRange
  | outOfFuel
  deriving DecidableEq, Repr

/- The nodes the database holds, by hash (Database.node). -/
abbrev Database := Bytes → Option Node

def resolveHash
    (db : Database)
    (hash : Bytes)
    (pathPrefix : List Nibble) : Except TrieError Node :=
  match db hash with
  | some node => .ok node
  | none => .error (.MissingNodeError hash pathPrefix)

/-
  resolve: a hash node from the database, any other node as
  it is.
-/
def resolve
    (db : Database)
    (n : Node)
    (pathPrefix : List Nibble) : Except TrieError Node :=
  match n with
  | .hashNode hash => resolveHash db hash pathPrefix
  | _ => .ok n

end Trie

end PlasmaEvm
