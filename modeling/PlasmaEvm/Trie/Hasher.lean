import PlasmaEvm.Trie.Ops
import PlasmaEvm.Common.Types

/-
  The hasher (hasher.go) and Trie.Hash.  hash collapses a
  node: a short node's key goes to compact encoding and its
  child, unless a value, is hashed in turn; a full node's
  first sixteen children are hashed, and the seventeenth, a
  value, is kept.  store then replaces the collapsed node by
  the Keccak hash of its encoding, unless that encoding is
  shorter than 32 bytes and the node is not the root. The
  node is given back with the hash cached in its flags, and
  a node with a cached hash is not walked again.

  These are the hasher without a database, as Hash runs it;
  the hasher with a database, which Commit runs to store the
  nodes, is in Trie.Commit, and hashes as this one does
  (`Trie.hashDb_fst`).

  Key definitions include:
    * `Trie.store`, `Trie.hash`, `Trie.hashRoot`,
      `Trie.Hash`
    * `Trie.emptyRoot`
-/

------------------------------------------------------------
-- Collapsing and Hashing
------------------------------------------------------------

namespace PlasmaEvm

namespace Trie

variable (keccak : Keccak Bytes)

/-
  store: a node whose encoding has 32 bytes or more, or the
  root, is replaced by its hash.
-/
def store (n : Collapsed) (force : Bool) : Collapsed :=
  match n with
  | .nil => n
  | .hashNode _ => n
  | _ =>
      let enc := n.encode
      if enc.length < 32 ∧ !force then n
      else .hashNode (keccak.hash enc)

/-
  hash: the node hashed, or collapsed when it stays in its
  parent, and the node with the hashes cached.  hashChildren
  is written out in the two cases that have children.
-/
def hash : Node → Bool → Collapsed × Node
  | .shortNode key val flags, force =>
      match (Node.shortNode key val flags).cache.1 with
      | some cached =>
          (.hashNode cached, .shortNode key val flags)
      | none =>
          let (collapsedVal,
            cachedVal) : Collapsed × Node :=
            match val with
            | .valueNode value => (.valueNode value, val)
            | _ => hash val false
          let hashed := store keccak (.shortNode
            (hexToCompact key) collapsedVal) force
          (hashed, .shortNode key cachedVal { flags with
            hash := hashed.asHash })
  | .fullNode children flags, force =>
      match (Node.fullNode children flags).cache.1 with
      | some cached =>
          (.hashNode cached, .fullNode children flags)
      | none =>
          let hashedChild := fun i =>
            hash (children i) false
          let collapsed : Fin 17 → Collapsed := fun i =>
            if i = 16 ∨ (children i).isNil
              then (children i).leafCollapsed
            else (hashedChild i).1
          let cached : Fin 17 → Node := fun i =>
            if i = 16 ∨ (children i).isNil then children i
            else (hashedChild i).2
          let hashed :=
            store keccak (.fullNode collapsed) force
          (hashed, .fullNode cached { flags with
            hash := hashed.asHash })
  | n, force => (store keccak n.leafCollapsed force, n)

/-
  emptyRoot: the hash of the empty trie, Keccak-256 of the
  RLP of the empty string.
-/
def emptyRoot : Bytes :=
  [0x56, 0xe8, 0x1f, 0x17, 0x1b, 0xcc, 0x55, 0xa6, 0xff,
    0x83, 0x45, 0xe6, 0x92, 0xc0, 0xf8, 0x6e,
   0x5b, 0x48, 0xe0, 0x1b, 0x99, 0x6c, 0xad, 0xc0, 0x01,
     0x62, 0x2f, 0xb5, 0xe3, 0x63, 0xb4, 0x21]

def hashRoot (root : Node) : Collapsed × Node :=
  match root with
  | .nil => (.hashNode emptyRoot, .nil)
  | _ => hash keccak root true

/-
  Hash: the root hash, and the trie with the hashes cached.
  The root's hashed node is a hash node (store forces it);
  anything else would make hash.(hashNode) panic, and gives
  none.
-/
def Hash (t : Trie) : Option Bytes × Trie :=
  let (hashed, cached) := hashRoot keccak t.root
  (hashed.asHash, { t with root := cached })

end Trie

end PlasmaEvm
