import PlasmaEvm.Trie.Node

/-
  The operations of the trie (trie.go): tryGet, insert and
  delete, each walking a hex key down from a node and
  returning the node that replaces it, and the methods
  TryGet, TryUpdate and TryDelete, which run them from the
  root.  insert and delete also return whether the node
  changed; a node they leave unchanged keeps its flags and
  so its cached hash.

  A hash node is loaded from the database before it is
  walked.  The walks recurse once for each node on the path,
  and a loaded node is one more, so they take a fuel.  The
  methods give twice one more than the key's length: each
  nibble is taken by at most one node and one load.

  Key definitions include:
    * `Trie.tryGet`, `Trie.insert`, `Trie.delete`,
      `Trie.remainingPos`
    * `Trie.Trie`, `Trie.TryGet`, `Trie.TryUpdate`,
      `Trie.TryDelete`
-/

------------------------------------------------------------
-- Lookups
------------------------------------------------------------

namespace PlasmaEvm

namespace Trie

/-
  tryGet: the value at `key` from position `pos` on, the
  node that replaces `origNode` once the hash nodes on the
  way are loaded, and whether any was.
-/
def tryGet
    (db : Database) :
    Nat → Node → List Nibble → Nat →
    Except TrieError (Option Bytes × Node × Bool)
  | 0, _, _, _ => .error .outOfFuel
  | fuel + 1, origNode, key, pos =>
      match origNode with
      | .nil => .ok (none, .nil, false)
      | .valueNode value =>
          .ok (some value, origNode, false)
      | .shortNode nkey nval flags =>
          if key.length - pos < nkey.length ∨
            nkey ≠ (key.drop pos).take nkey.length then
            .ok (none, origNode, false)
          else do
            let (value, newnode,
              didResolve) ← tryGet db fuel nval key
              (pos + nkey.length)
            if didResolve then
              return (value,
                .shortNode nkey newnode flags, true)
            return (value, origNode, false)
      | .fullNode children flags =>
          match key[pos]? with
          | none => .error .indexOutOfRange
          | some i => do
              let (value, newnode,
                didResolve) ← tryGet db fuel
                (children i) key (pos + 1)
              if didResolve then
                return (value, .fullNode
                  (Function.update children i
                  newnode) flags, true)
              return (value, origNode, false)
      | .hashNode hash => do
          let child ← resolveHash db hash (key.take pos)
          let (value, newnode,
            _) ← tryGet db fuel child key pos
          return (value, newnode, true)

end Trie

end PlasmaEvm

------------------------------------------------------------
-- Insertion
------------------------------------------------------------

namespace PlasmaEvm

namespace Trie

/-
  insert: `value` at `key` below `n`, reached by
  `pathPrefix`.  A short node whose key is a prefix of `key`
  passes the rest on; any other short node becomes a branch
  where the two keys differ, below a short node of their
  common prefix when it is not empty.  The type assertion
  value.(valueNode) panics on any other inserted node.
-/
def insert
    (db : Database) :
    Nat → Node → List Nibble → List Nibble → Node →
    Except TrieError (Bool × Node)
  | 0, _, _, _, _ => .error .outOfFuel
  | fuel + 1, n, pathPrefix, key, value =>
      if key = [] then
        match n, value with
        | .valueNode v, .valueNode v' => .ok (v ≠ v', value)
        | .valueNode _, _ => .error .invalidNode
        | _, _ => .ok (true, value)
      else
        match n with
        | .shortNode nkey nval _ =>
            let matchlen := prefixLen key nkey
            if matchlen = nkey.length then do
              let (dirty, nn) ←
                insert db fuel nval (pathPrefix ++
                  key.take matchlen) (key.drop matchlen) value
              if !dirty then
                return (false, n)
              return (true, .shortNode nkey nn newFlag)
            else
              match nkey[matchlen]?, key[matchlen]? with
              | some old, some new => do
                  let (_, oldChild) ← insert db fuel .nil
                    (pathPrefix ++ nkey.take (matchlen +
                      1)) (nkey.drop (matchlen + 1)) nval
                  let (_, newChild) ← insert db fuel .nil
                    (pathPrefix ++ key.take (matchlen +
                      1)) (key.drop (matchlen + 1)) value
                  let branch : Node := .fullNode
                    (Function.update
                      (Function.update emptyChildren old
                      oldChild) new newChild)
                    newFlag
                  if matchlen = 0 then
                    return (true, branch)
                  return (true, .shortNode
                    (key.take matchlen) branch newFlag)
              | _, _ => .error .indexOutOfRange
        | .fullNode children _ =>
            match key with
            | [] => .error .indexOutOfRange
            | i :: rest => do
                let (dirty, nn) ← insert db fuel
                  (children i) (pathPrefix ++ [i]) rest value
                if !dirty then
                  return (false, n)
                return (true, .fullNode
                  (Function.update children i nn) newFlag)
        | .nil => .ok (true, .shortNode key value newFlag)
        | .hashNode hash => do
            let rn ← resolveHash db hash pathPrefix
            let (dirty, nn) ← insert db fuel rn
              pathPrefix key value
            if !dirty then
              return (false, rn)
            return (true, nn)
        | .valueNode _ => .error .invalidNode

end Trie

end PlasmaEvm

------------------------------------------------------------
-- Deletion
------------------------------------------------------------

namespace PlasmaEvm

namespace Trie

/-
  The loop of delete over the children left in a full node:
  pos is -1 while none is found, the index of the only one,
  and -2 once a second is found.
-/
inductive Remaining where
  | none
  | one (pos : Fin 17)
  | several

def remainingStep
    (children : Fin 17 → Node) :
    Remaining → Fin 17 → Remaining
  | .none, i => if (children i).isNil then .none else .one i
  | .one pos, i =>
      if (children i).isNil then .one pos else .several
  | .several, _ => .several

def remainingPos (children : Fin 17 → Node) : Remaining :=
  (List.finRange 17).foldl (remainingStep children) .none

/-
  delete: `key` removed below `n`, and the trie kept minimal
  on the way up: a short node over a short node is merged
  into one, and a full node left with one child becomes a
  short node to it.
-/
def delete
    (db : Database) :
    Nat → Node → List Nibble → List Nibble →
    Except TrieError (Bool × Node)
  | 0, _, _, _ => .error .outOfFuel
  | fuel + 1, n, pathPrefix, key =>
      match n with
      | .shortNode nkey nval _ =>
          let matchlen := prefixLen key nkey
          if matchlen < nkey.length then
            .ok (false, n)
          else if matchlen = key.length then
            .ok (true, .nil)
          else do
            let (dirty, child) ←
              delete db fuel nval (pathPrefix ++
                key.take nkey.length) (key.drop nkey.length)
            if !dirty then
              return (false, n)
            match child with
            | .shortNode ckey cval _ =>
                return (true, .shortNode (nkey ++
                  ckey) cval newFlag)
            | _ =>
                return (true, .shortNode nkey child newFlag)
      | .fullNode children _ =>
          match key with
          | [] => .error .indexOutOfRange
          | i :: rest => do
              let (dirty, nn) ← delete db fuel (children i)
                (pathPrefix ++ [i]) rest
              if !dirty then
                return (false, n)
              let children := Function.update children i nn
              match remainingPos children with
              | .one pos =>
                  if pos ≠ 16 then
                    let cnode ← resolve db
                      (children pos) pathPrefix
                    match cnode with
                    | .shortNode ckey cval _ =>
                        return (true,
                          .shortNode (pos :: ckey) cval newFlag)
                    | _ =>
                        return (true,
                          .shortNode [pos] (children pos) newFlag)
                  return (true, .shortNode [pos]
                    (children pos) newFlag)
              | _ =>
                  return (true, .fullNode children newFlag)
      | .valueNode _ => .ok (true, .nil)
      | .nil => .ok (false, .nil)
      | .hashNode hash => do
          let rn ← resolveHash db hash pathPrefix
          let (dirty, nn) ← delete db fuel rn pathPrefix key
          if !dirty then
            return (false, rn)
          return (true, nn)

end Trie

end PlasmaEvm

------------------------------------------------------------
-- The Trie's Methods
------------------------------------------------------------

namespace PlasmaEvm

namespace Trie

structure Trie where
  db : Database
  root : Node

/- The fuel of a walk along a hex key. -/
def walkFuel (key : List Nibble) : Nat :=
  2 * (key.length + 1)

/-
  TryGet: the value at a key, and the trie with the nodes
  loaded on the way.
-/
def TryGet
    (t : Trie)
    (key : Bytes) :
    Except TrieError (Option Bytes × Trie) := do
  let key := keybytesToHex key
  let (value, newroot, didResolve) ← tryGet t.db
    (walkFuel key) t.root key 0
  if didResolve then
    return (value, { t with root := newroot })
  return (value, t)

/-
  TryUpdate: a value at a key; an empty value deletes it.
-/
def TryUpdate
    (t : Trie)
    (key value : Bytes) :
    Except TrieError Trie := do
  let k := keybytesToHex key
  if value.length ≠ 0 then
    let (_, n) ← insert t.db (walkFuel k) t.root [] k
      (.valueNode value)
    return { t with root := n }
  else
    let (_, n) ← delete t.db (walkFuel k) t.root [] k
    return { t with root := n }

def TryDelete
    (t : Trie)
    (key : Bytes) :
    Except TrieError Trie := do
  let k := keybytesToHex key
  let (_, n) ← delete t.db (walkFuel k) t.root [] k
  return { t with root := n }

end Trie

end PlasmaEvm
