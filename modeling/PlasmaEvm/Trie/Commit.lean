import PlasmaEvm.Data.OptionMap
import PlasmaEvm.Trie.Stored

/-
  Commit (trie.go): the hasher run with a database.  hash
  collapses each node as without one, and store writes every
  node it replaces by a hash to the database under that
  hash, first come first kept (Database.insert);
  Database.node gives it back expanded, its keys in hex
  (expandNode).  A node whose hash is cached and which is
  not dirty is its hash.

  A node with hash nodes in it reads through a database
  (`Resolves`) as a node held whole in memory when every
  hash node loads a node that does, and tryGet then reads
  the map of the node in memory. With no hash cached, the
  hasher with a database collapses as the one without, and a
  commit leaves every node of the trie readable through the
  database, given no collision among its nodes.  So a trie
  built by writes, committed to a fresh database, opens
  again by New from its root hash, and TryGet reads from it
  the map of the writes.

  Key definitions include:
    * `Trie.expandNode`, `Trie.Database.insert`
    * `Trie.storeDb`, `Trie.hashChildrenDb`, `Trie.hashDb`,
      `Trie.hashRootDb`, `Trie.Commit`
    * `Trie.Resolves`, `Trie.Committed`,
      `Trie.CollisionFree`

  Key statements include:
    * `Trie.tryGet_of_resolves`, `Trie.TryGet_of_resolves`
    * `Trie.hashDb_fst`, `Trie.Commit_fst`
    * `Trie.storeDb_resolves`, `Trie.hashDb_spec`
    * `Trie.Commit_New_TryGet`
-/

------------------------------------------------------------
-- Committing
------------------------------------------------------------

namespace PlasmaEvm

namespace Trie

/-
  expandNode: a stored node in the form a trie holds it, its
  keys back in hex and `hash` in its flags.
-/
def expandNode (hash : Option Bytes) : Collapsed → Node
  | .shortNode key val =>
      .shortNode (compactToHex key) (expandNode none val)
        { hash := hash, dirty := false }
  | .fullNode children =>
      .fullNode (fun i => expandNode none (children i))
        { hash := hash, dirty := false }
  | .valueNode v => .valueNode v
  | .hashNode h => .hashNode h
  | .nil => .nil

/-
  Database.insert: a node under its hash, as Database.node
  expands it back; a node already there is kept.
-/
def Database.insert
    (db : Database)
    (hash : Bytes)
    (n : Collapsed) :
    Database :=
  OptionMap.insertNew db hash (expandNode (some hash) n)

variable (keccak : Keccak Bytes)

/-
  store, with a database: a node whose encoding is shorter
  than a hash stays in its parent unless forced; any other
  is written to the database under its hash, the one it
  caches or else the hash of its encoding.
-/
def storeDb
    (n : Collapsed)
    (cachedHash : Option Bytes)
    (force : Bool)
    (db : Database) :
    Collapsed × Database :=
  match n with
  | .nil => (n, db)
  | .hashNode _ => (n, db)
  | _ =>
      let enc := n.encode
      if enc.length < 32 ∧ !force then (n, db)
      else
        let hash := cachedHash.getD (keccak.hash enc)
        (.hashNode hash, db.insert hash n)

/-
  The loop of hashChildren over the first sixteen children
  of a full node, the database written along.
-/
def hashChildrenDb
    (children : Fin 17 → Node)
    (hashChild : Fin 17 → Database →
      Collapsed × Node × Database) :
    List (Fin 17) → (Fin 17 → Collapsed) × (Fin 17 →
      Node) × Database →
      (Fin 17 → Collapsed) × (Fin 17 → Node) × Database
  | [], acc => acc
  | i :: is, (collapsed, cached, db) =>
      if (children i).isNil
        then hashChildrenDb children hashChild is
          (collapsed, cached, db)
      else
        let (c, n, db) := hashChild i db
        hashChildrenDb children hashChild is
          (Function.update collapsed i c,
          Function.update cached i n, db)

/-
  The first sixteen children of a full node, in the order
  hashChildren visits them.
-/
def firstSixteen : List (Fin 17) :=
  (List.finRange 16).map Fin.castSucc

/-
  The hash a node caches when it is not dirty, which hash
  with a database returns as it is.
-/
def Node.cleanHash (n : Node) : Option Bytes :=
  match n.cache with
  | (some cached, false) => some cached
  | _ => none

/-
  hash, with a database: a node with a hash cached and not
  dirty is its hash; any other is collapsed as hashChildren
  does, each child hashed into the database in turn, and
  stored.  The node returned caches the hash and is no
  longer dirty.
-/
def hashDb :
    Node → Bool → Database → Collapsed × Node × Database
  | .shortNode key val flags, force, db =>
      match (Node.shortNode key val flags).cleanHash with
      | some cached =>
          (.hashNode cached, .hashNode cached, db)
      | none =>
          let child : Collapsed × Node × Database :=
            match val with
            | .valueNode value =>
                (.valueNode value, val, db)
            | _ => hashDb val false db
          let hashed := storeDb keccak (.shortNode
            (hexToCompact key) child.1) flags.hash force child.2.2
          (hashed.1, .shortNode key child.2.1
            { hash := hashed.1.asHash, dirty := false }, hashed.2)
  | .fullNode children flags, force, db =>
      match (Node.fullNode children flags).cleanHash with
      | some cached =>
          (.hashNode cached, .hashNode cached, db)
      | none =>
          let loop := hashChildrenDb children (fun i db =>
            hashDb (children i) false db)
            firstSixteen (fun i =>
              (children i).leafCollapsed, children, db)
          let hashed := storeDb keccak
            (.fullNode loop.1) flags.hash force loop.2.2
          (hashed.1, .fullNode loop.2.1
            { hash := hashed.1.asHash, dirty := false }, hashed.2)
  | n, force, db =>
      let hashed :=
        storeDb keccak n.leafCollapsed none force db
      (hashed.1, n, hashed.2)

/-
  hashRoot, with a database: the empty root is emptyRoot,
  written nowhere.
-/
def hashRootDb
    (root : Node)
    (db : Database) :
    Collapsed × Node × Database :=
  match root with
  | .nil => (.hashNode emptyRoot, .nil, db)
  | _ => hashDb keccak root true db

/-
  Commit: the root hash, and the trie with the hashes cached
  and its nodes written to the database.  A root whose
  hashed form is no hash node would make hash.(hashNode)
  panic, and gives none.
-/
def Commit (t : Trie) : Option Bytes × Trie :=
  let hashed := hashRootDb keccak t.root t.db
  (hashed.1.asHash,
    { db := hashed.2.2, root := hashed.2.1 })

/-

end Trie

end PlasmaEvm

------------------------------------------------------------
-- Reading Through the Database
------------------------------------------------------------

namespace PlasmaEvm

namespace Trie

A node with hash nodes in it, read through the database:
each hash
  node loads a short or a full node, and the nodes met are
  those of a node held whole in memory, key for key.
-/
inductive Resolves (db : Database) : Node → Node → Prop
  | nil : Resolves db .nil .nil
  | valueNode (v : Bytes) : Resolves db
      (.valueNode v) (.valueNode v)
  | hashNode {h : Bytes} {x m : Node} :
      db h = some x → x.isInner = true → Resolves db x m →
        Resolves db (.hashNode h) m
  | shortNode {key : List Nibble} {val m : Node}
      (flags flags' : NodeFlag) :
      Resolves db val m → Resolves db
        (.shortNode key val flags) (.shortNode key m flags')
  | fullNode {children children' : Fin 17 → Node}
      (flags flags' : NodeFlag) :
      (∀ i, Resolves db (children i) (children' i)) →
        Resolves db (.fullNode children flags)
          (.fullNode children' flags')

/-
  A database that keeps its entries keeps what resolves
  through it.
-/
theorem Resolves.mono
    {db db' : Database}
    (hExt : OptionMap.Extends db db')
    {n m : Node}
    (hRes : Resolves db n m) :
    Resolves db' n m := by
  induction hRes with
  | nil => exact .nil
  | valueNode v => exact .valueNode v
  | hashNode hAt hInner _ ih =>
      exact .hashNode (hExt _ _ hAt) hInner ih
  | shortNode flags flags' _ ih =>
      exact .shortNode flags flags' ih
  | fullNode flags flags' _ ih =>
      exact .fullNode flags flags' ih

/-
  The steps tryGet takes at a node before it reads on: one,
  and one more to load a hash node.
-/
def Node.steps : Node → Nat
  | .hashNode _ => 2
  | _ => 1

theorem Node.steps_pos (n : Node) : 0 < n.steps := by
  cases n <;> simp [Node.steps]

theorem Node.steps_le (n : Node) : n.steps ≤ 2 := by
  cases n <;> simp [Node.steps]

/-
  On a node that resolves to one in memory, tryGet reads the
  map of the node in memory, loading the hash nodes on its
  way, with two steps of fuel for each nibble and two more.
-/
theorem tryGet_of_resolves
    {db : Database} :
    ∀ (fuel : Nat) (n m : Node) (past : Bool)
      (key : List Nibble) (pos : Nat),
      Resolves db n m → m.WF past →
        Rest past (key.drop pos) →
      2 * (key.drop pos).length + n.steps ≤ fuel →
      ∃ n' didResolve, tryGet db fuel n key pos =
        .ok (m.get (key.drop pos), n', didResolve)
  | 0, n, _, _, _, _, _, _, _, hFuel => by
      have hSteps := n.steps_pos
      omega
  | fuel + 1, n, m, past, key, pos, hRes, hWF,
      hRest, hFuel =>
      by
      cases hRes with
      | nil => exact ⟨.nil, false, by simp [tryGet]⟩
      | valueNode v =>
          have hPast : past = true := hWF
          subst hPast
          have hEmpty : key.drop pos = [] := hRest
          exact ⟨.valueNode v, false,
            by simp [tryGet, hEmpty, PrefixMap.single]⟩
      | hashNode hAt hInner hBelow =>
          rename_i h x
          have hSteps : x.steps = 1 := by
            cases x <;>
              first | rfl | exact absurd hInner Bool.false_ne_true
          obtain ⟨n', didResolve, hGet⟩ :=
            tryGet_of_resolves fuel x m past key pos
            hBelow hWF hRest
            (by simp only [Node.steps] at hFuel; omega)
          refine ⟨n', true, ?_⟩
          simp only [tryGet, resolveHash, hAt, bind,
            Except.bind, hGet]
          rfl
      | shortNode flags flags' hVal =>
          rename_i nkey nval mval
          obtain ⟨rfl, hNe, -, hValWF⟩ := hWF
          by_cases hPrefix : nkey <+: key.drop pos
          · have hLe : nkey.length ≤
              (key.drop pos).length := hPrefix.length_le
            have hPos : 0 < nkey.length :=
              List.length_pos_iff.mpr hNe
            have hDrop : (key.drop pos).drop nkey.length =
              key.drop (pos + nkey.length) :=
              List.drop_drop
            have hValSteps := nval.steps_le
            obtain ⟨n', didResolve, hBelow⟩ :=
              tryGet_of_resolves fuel nval mval (hasTerm nkey) key
              (pos + nkey.length) hVal hValWF
                (hDrop ▸ hRest.drop_length hPrefix hNe)
              (by
                rw [← hDrop, List.length_drop]
                simp only [Node.steps] at hFuel
                omega)
            have hFound := mt shortKey_miss_iff.mp
              (not_not.mpr hPrefix)
            have hGet : (Node.shortNode nkey mval
              flags').get (key.drop pos) =
                mval.get (key.drop (pos + nkey.length)) := by
              simp [PrefixMap.prefixed, hPrefix, hDrop]
            rw [hGet]
            cases didResolve
            · exact ⟨_, false,
                by
                  simp only [tryGet, hFound,
                    if_false, hBelow]
                  rfl⟩
            · exact ⟨_, true,
                by
                  simp only [tryGet, hFound,
                    if_false, hBelow]
                  rfl⟩
          · exact ⟨.shortNode nkey nval flags, false,
              by
                simp [tryGet, shortKey_miss_iff.mpr hPrefix,
                  PrefixMap.prefixed_eq_none hPrefix]⟩
      | fullNode flags flags' hChildren =>
          rename_i children children'
          obtain ⟨rfl, hChildrenWF⟩ := hWF
          obtain ⟨i, r, hCons⟩ :=
            List.exists_cons_of_ne_nil hRest.ne_nil
          obtain ⟨hAt, hNext⟩ := drop_eq_cons hCons
          have hChildSteps := (children i).steps_le
          obtain ⟨n', didResolve, hBelow⟩ :=
            tryGet_of_resolves fuel (children i) (children' i)
            (decide (i = 16)) key (pos +
              1) (hChildren i) (hChildrenWF i) (hNext ▸
              (hCons ▸ hRest).tail)
            (by
              rw [hNext]
              rw [hCons] at hFuel
              simp only [Node.steps,
                List.length_cons] at hFuel
              omega)
          have hGet : (Node.fullNode children' flags').get
            (key.drop pos) = (children' i).get r := by
            rw [hCons]
            rfl
          rw [hGet, ← hNext]
          cases didResolve
          · exact ⟨_, false,
              by simp only [tryGet, hAt, hBelow]; rfl⟩
          · exact ⟨_, true,
              by simp only [tryGet, hAt, hBelow]; rfl⟩

end Trie

end PlasmaEvm

------------------------------------------------------------
-- The Hasher With a Database Hashes as Without
------------------------------------------------------------

namespace PlasmaEvm

namespace Trie

variable {keccak : Keccak Bytes}

/-
  With no hash cached, store with a database gives what
  store without one gives.
-/
theorem storeDb_fst
    (c : Collapsed)
    (force : Bool)
    (db : Database) :
    (storeDb keccak c none force db).1 =
      store keccak c force := by
  cases c <;> simp only [storeDb, store] <;> split <;> rfl

theorem mem_firstSixteen {i : Fin 17} :
    i ∈ firstSixteen ↔ i ≠ Fin.last 16 := by
  simp [firstSixteen, Fin.exists_castSucc_eq]

section HashChildrenDb

variable {children : Fin 17 → Node}
variable
    {hashChild : Fin 17 → Database →
      Collapsed × Node × Database}

theorem hashChildrenDb_cons
    (i : Fin 17)
    (is : List (Fin 17))
    (collapsed : Fin 17 → Collapsed)
    (cached : Fin 17 → Node)
    (db : Database) :
    hashChildrenDb children hashChild (i ::
      is) (collapsed, cached, db) =
      if (children i).isNil
        then hashChildrenDb children hashChild is
          (collapsed, cached, db)
      else hashChildrenDb children hashChild is
        (Function.update collapsed i (hashChild i db).1,
          Function.update cached i (hashChild i db).2.1,
          (hashChild i db).2.2) :=
  rfl

/-
  The loop collapses each child it hashes as hashChild does,
  whatever the database.
-/
theorem hashChildrenDb_fst
    {f : Fin 17 → Collapsed}
    (hFst : ∀ i db, (hashChild i db).1 = f i) :
    ∀ (is : List (Fin 17)) (acc : (Fin 17 →
      Collapsed) × (Fin 17 → Node) × Database) (j : Fin 17),
      (hashChildrenDb children hashChild is acc).1 j =
        if j ∈ is ∧ (children j).isNil = false
          then f j else acc.1 j
  | [], acc, j => by simp [hashChildrenDb]
  | i :: is, (collapsed, cached, db), j => by
      rw [hashChildrenDb_cons]
      split
      · rename_i hNil
        rw [hashChildrenDb_fst hFst is]
        by_cases hJ : j = i
        · subst hJ
          simp [hNil]
        · simp [hJ]
      · rename_i hNil
        rw [hashChildrenDb_fst hFst is, hFst]
        by_cases hJ : j = i
        · subst hJ
          simp [hNil]
        · simp [hJ]

/-
  What holds of the database before the loop, and after each
  child, holds after the loop: by induction on the children,
  with the children done so far.
-/
theorem hashChildrenDb_induct
    (Inv : List (Fin 17) → Database → Prop) :
    ∀ (is : List (Fin 17)),
      (∀ i ∈ is, ∀ done db, Inv done db →
        (children i).isNil = false →
        Inv (done ++ [i]) (hashChild i db).2.2) →
      (∀ i ∈ is, ∀ done db, Inv done db →
        (children i).isNil = true → Inv (done ++ [i]) db) →
      ∀ done (acc : (Fin 17 → Collapsed) × (Fin 17 →
        Node) × Database), Inv done acc.2.2 →
        Inv (done ++ is) (hashChildrenDb children
          hashChild is acc).2.2
  | [], _, _, done, acc, hInv =>
      by simpa [hashChildrenDb] using hInv
  | i :: is, hStep, hSkip, done, (collapsed,
      cached, db), hInv =>
      by
      have hRest := hashChildrenDb_induct Inv is
        (fun j hj => hStep j (List.mem_cons_of_mem i hj))
        (fun j hj => hSkip j (List.mem_cons_of_mem i
          hj)) (done ++ [i])
      rw [hashChildrenDb_cons, List.append_cons]
      split
      · exact hRest _ (hSkip i List.mem_cons_self
          done db hInv ‹_›)
      · exact hRest _ (hStep i List.mem_cons_self done db
          hInv (Bool.eq_false_iff.mpr ‹_›))

end HashChildrenDb

/-
  The hasher with a database at a node with no hash cached,
  case by case.
-/
theorem hashDb_nil (force : Bool) (db : Database) :
    hashDb keccak .nil force db = (.nil, .nil, db) :=
  rfl

theorem hashDb_shortNode_valueNode
    (key : List Nibble)
    (v : Bytes)
    (dirty force : Bool)
    (db : Database) :
    hashDb keccak (.shortNode key (.valueNode v) ⟨none,
      dirty⟩) force db =
      ((storeDb keccak (.shortNode (hexToCompact key)
        (.valueNode v)) none force db).1,
        .shortNode key (.valueNode v)
          { hash := (storeDb keccak
              (.shortNode (hexToCompact key) (.valueNode v))
              none force db).1.asHash,
            dirty := false },
        (storeDb keccak (.shortNode (hexToCompact key)
          (.valueNode v)) none force db).2) :=
  rfl

theorem hashDb_shortNode
    {key : List Nibble}
    {val : Node}
    (hVal : ∀ v, val ≠ .valueNode v)
    (dirty force : Bool)
    (db : Database) :
    hashDb keccak (.shortNode key val ⟨none,
      dirty⟩) force db =
      let child := hashDb keccak val false db
      let hashed := storeDb keccak (.shortNode
        (hexToCompact key) child.1) none force child.2.2
      (hashed.1, .shortNode key child.2.1
        { hash := hashed.1.asHash, dirty := false },
        hashed.2) := by
  cases val with
  | valueNode v => exact absurd rfl (hVal v)
  | _ => rfl

theorem hashDb_fullNode
    (children : Fin 17 → Node)
    (dirty force : Bool)
    (db : Database) :
    hashDb keccak (.fullNode children ⟨none,
      dirty⟩) force db =
      let loop := hashChildrenDb children (fun i db =>
        hashDb keccak (children i) false db) firstSixteen
        (fun i => (children i).leafCollapsed, children, db)
      let hashed := storeDb keccak
        (.fullNode loop.1) none force loop.2.2
      (hashed.1, .fullNode loop.2.1
        { hash := hashed.1.asHash, dirty := false }, hashed.2) :=
  rfl

/-
  A short node's child is collapsed as a value, or hashed.
-/
theorem hashChildren_shortNode
    {key : List Nibble}
    {val : Node}
    (hVal : ∀ v, val ≠ .valueNode v)
    (flags : NodeFlag) :
    hashChildren keccak (.shortNode key val flags) =
      .shortNode (hexToCompact key)
      (hash keccak val false).1 := by
  cases val with
  | valueNode v => exact absurd rfl (hVal v)
  | _ => rfl

/-
  The loop of the hasher with a database collapses a full
  node's children as hashChildren does.
-/
theorem hashChildrenDb_hashChildren
    {children : Fin 17 → Node}
    (hFst : ∀ i db, (hashDb keccak
      (children i) false db).1 =
      (hash keccak (children i) false).1)
    (flags : NodeFlag)
    (db : Database) :
    Collapsed.fullNode (hashChildrenDb children (fun i db =>
      hashDb keccak (children i) false db) firstSixteen
        (fun i => (children i).leafCollapsed,
          children, db)).1 =
      hashChildren keccak (.fullNode children flags) := by
  show Collapsed.fullNode _ = Collapsed.fullNode _
  congr 1
  funext j
  rw [hashChildrenDb_fst hFst firstSixteen _ j]
  simp only [mem_firstSixteen]
  by_cases hLast : j = Fin.last 16
  · simp [hLast]
  · by_cases hNil : (children j).isNil =
      true <;> simp [hNil]

/-
  With no hash cached, the hasher with a database collapses
  as the one without.
-/
theorem hashDb_fst :
    ∀ (n : Node), n.NoCache → ∀ force db,
      (hashDb keccak n force db).1 =
        (hash keccak n force).1 := by
  intro n
  induction n with
  | shortNode key val flags ih =>
      intro hNoCache force db
      obtain ⟨cached, dirty⟩ := flags
      obtain rfl : cached = none := hNoCache.1
      rw [hash_eq_store keccak hNoCache]
      by_cases hVal : ∃ v, val = .valueNode v
      · obtain ⟨v, rfl⟩ := hVal
        rw [hashDb_shortNode_valueNode, storeDb_fst]
        rfl
      · have hNotValue : ∀ v, val ≠ .valueNode v :=
          fun v h => hVal ⟨v, h⟩
        rw [hashDb_shortNode hNotValue,
          hashChildren_shortNode hNotValue]
        dsimp only
        rw [storeDb_fst, ih hNoCache.2 false db]
  | fullNode children flags ih =>
      intro hNoCache force db
      obtain ⟨cached, dirty⟩ := flags
      obtain rfl : cached = none := hNoCache.1
      rw [hash_eq_store keccak hNoCache, hashDb_fullNode]
      dsimp only
      rw [storeDb_fst, hashChildrenDb_hashChildren
        (fun i db => ih i (hNoCache.2 i) false db)]
  | _ =>
      intro _ force db; exact @storeDb_fst keccak _ force db

/-
  With no hash cached, the hasher with a database hashes a
  root as the one without.
-/
theorem hashRootDb_fst
    {root : Node}
    (hNoCache : root.NoCache)
    (db : Database) :
    (hashRootDb keccak root db).1 =
      (hashRoot keccak root).1 := by
  cases root with
  | nil => rfl
  | _ => exact hashDb_fst _ hNoCache true db

/-
  Commit gives the root hash Hash gives, on a trie with no
  hash cached.
-/
theorem Commit_fst
    {t : Trie}
    (hNoCache : t.root.NoCache) :
    (Commit keccak t).1 = (Hash keccak t).1 := by
  rw [Hash_fst]
  show (hashRootDb keccak t.root t.db).1.asHash = _
  rw [hashRootDb_fst hNoCache]

end Trie

end PlasmaEvm

------------------------------------------------------------
-- What a Commit Writes
------------------------------------------------------------

namespace PlasmaEvm

namespace Trie

variable {keccak : Keccak Bytes}

variable (keccak) in
/-
  The nodes of `root` a commit writes to the database: those
  with children that store replaces by a hash, the root,
  which is forced, and every other whose encoding is no
  shorter than a hash.
-/
def Persisted (root n : Node) : Prop :=
  root.Below n ∧ n.isInner = true ∧ (n = root ∨
    32 ≤ (hashChildren keccak n).encode.length)

variable (keccak) in
/-
  What a commit of `root` writes: every entry of the
  database is a node of `root` it writes, expanded under the
  hash of its collapsed encoding.
-/
def Committed (root : Node) (db : Database) : Prop :=
  ∀ h x, db h = some x → ∃ n, Persisted keccak root n ∧
    keccak.hash (hashChildren keccak n).encode = h ∧
      x = expandNode (some h) (hashChildren keccak n)

variable (keccak) in
/-
  No collision among the nodes a commit of `root` writes:
  two that collapse differently have different hashes; none
  has the zero hash, where NewDatabase keeps its metaroot,
  whose nil node expandNode cannot read; and the root's hash
  is not emptyRoot, which New reads as the empty trie.  Off
  the zero hash a new database holds nothing, so a fresh
  database is `fun _ => none`.
-/
structure CollisionFree (root : Node) : Prop where
  nodes : ∀ n₁ n₂, Persisted keccak root n₁ →
    Persisted keccak root n₂ →
    keccak.hash (hashChildren keccak n₁).encode =
      keccak.hash (hashChildren keccak n₂).encode →
    hashChildren keccak n₁ = hashChildren keccak n₂
  metaroot : ∀ n, Persisted keccak root n →
    keccak.hash (hashChildren keccak n).encode ≠
      List.replicate 32 0
  root : root.isInner = true →
    keccak.hash (hashChildren keccak root).encode ≠ emptyRoot

theorem committed_empty (root : Node) :
    Committed keccak root (fun _ => none) :=
  fun _ _ h => absurd h.symm (Option.some_ne_none _)

/-
  A node with children, collapsed, is written whole or by
  its hash.
-/
theorem storeDb_hashChildren
    {n : Node}
    (hInner : n.isInner = true)
    (force : Bool)
    (db : Database) :
    storeDb keccak (hashChildren keccak n) none force db =
      if (hashChildren keccak n).encode.length < 32 ∧
        force = false then (hashChildren keccak n, db)
      else (.hashNode (keccak.hash
        (hashChildren keccak n).encode),
        db.insert (keccak.hash (hashChildren keccak
          n).encode) (hashChildren keccak n)) := by
  cases n with
  | shortNode key val flags =>
      show storeDb keccak (.shortNode _ _) none force db = _
      simp [storeDb]
      rfl
  | fullNode children flags =>
      show storeDb keccak (.fullNode _) none force db = _
      simp [storeDb]
      rfl
  | _ => exact absurd hInner Bool.false_ne_true

theorem isInner_expandNode
    {n : Node}
    (hInner : n.isInner = true)
    (hash : Option Bytes) :
    (expandNode hash (hashChildren keccak n)).isInner = true := by
  cases n with
  | shortNode => rfl
  | fullNode => rfl
  | _ => exact absurd hInner Bool.false_ne_true

/-
  A node without children is itself, collapsed and expanded.
-/
theorem resolves_leafCollapsed
    {db : Database}
    {n : Node}
    (hWF : n.WF true) :
    Resolves db (expandNode none n.leafCollapsed) n := by
  cases n with
  | nil => exact .nil
  | valueNode v => exact .valueNode v
  | shortNode => exact absurd hWF.1 (by decide)
  | fullNode => exact absurd hWF.1 (by decide)
  | hashNode => exact hWF.elim

/-
  A short node of the shape, collapsed and expanded, reads
  through the database as the node, given its child does:
  compactToHex gives back its key.
-/
theorem resolves_shortNode
    {db : Database}
    {key : List Nibble}
    {val : Node}
    {flags : NodeFlag}
    (hWF : (Node.shortNode key val flags).WF false)
    (hVal : (∀ v, val ≠ .valueNode v) →
      Resolves db (expandNode none (hash keccak val false).1) val)
    (nodeHash : Option Bytes) :
    Resolves db (expandNode nodeHash (hashChildren keccak
      (.shortNode key val flags)))
      (.shortNode key val flags) := by
  obtain ⟨-, hNe, hDrop, -⟩ := hWF
  obtain ⟨body, hBody, hKey⟩ :=
    exists_body_terminated hNe hDrop
  have hHex : compactToHex (hexToCompact key) = key := by
    have hBack := compactToHex_hexToCompact body
      (hasTerm key) hBody
    rwa [← hKey] at hBack
  by_cases hValue : ∃ v, val = .valueNode v
  · obtain ⟨v, rfl⟩ := hValue
    show Resolves db (.shortNode (compactToHex
      (hexToCompact key)) (.valueNode v) _) _
    rw [hHex]
    exact .shortNode _ _ (.valueNode v)
  · have hNotValue : ∀ v, val ≠ .valueNode v :=
      fun v h => hValue ⟨v, h⟩
    rw [hashChildren_shortNode hNotValue]
    show Resolves db (.shortNode (compactToHex
      (hexToCompact key)) _ _) _
    rw [hHex]
    exact .shortNode _ _ (hVal hNotValue)

/-
  A full node of the shape, collapsed and expanded, reads
  through the database as the node, given the children it
  hashes do.
-/
theorem resolves_fullNode
    {db : Database}
    {children : Fin 17 → Node}
    {flags : NodeFlag}
    (hWF : (Node.fullNode children flags).WF false)
    (hChild : ∀ i, i ≠ Fin.last 16 →
      (children i).isNil = false →
      Resolves db (expandNode none (hash keccak
        (children i) false).1) (children i))
    (nodeHash : Option Bytes) :
    Resolves db (expandNode nodeHash (hashChildren keccak
      (.fullNode children flags)))
      (.fullNode children flags) := by
  refine .fullNode _ _ fun i => ?_
  show Resolves db (expandNode none
    (if i = Fin.last 16 ∨ (children i).isNil
      then (children i).leafCollapsed
      else (hash keccak (children i) false).1)) (children i)
  by_cases hLast : i = Fin.last 16
  · rw [if_pos (Or.inl hLast)]
    subst hLast
    exact resolves_leafCollapsed (hWF.2 (Fin.last 16))
  · by_cases hNil : (children i).isNil = true
    · rw [if_pos (Or.inr hNil)]
      have hIsNil : children i = .nil := by
        cases hC : children i <;> simp_all [Node.isNil]
      rw [hIsNil]
      exact .nil
    · rw [if_neg (by rintro (h | h) <;> contradiction)]
      exact hChild i hLast (Bool.eq_false_iff.mpr hNil)

section Writes

variable {root : Node}

/-
  store writes a node of `root` under its hash: the database
  keeps what it had and stays what a commit of `root`
  writes, and the node then reads through it, kept whole or
  loaded by its hash.  With no collision, an entry already
  under the hash is the same node.
-/
theorem storeDb_resolves
    (hFree : CollisionFree keccak root)
    {n : Node}
    (hBelow : root.Below n)
    (hInner : n.isInner = true)
    {force : Bool}
    (hForce : force = true → n = root)
    {db : Database}
    (hCommitted : Committed keccak root db)
    (hRes : ∀ hash, Resolves db (expandNode hash
      (hashChildren keccak n)) n) :
    OptionMap.Extends db (storeDb keccak
      (hashChildren keccak n) none force db).2 ∧
      Committed keccak root (storeDb keccak
        (hashChildren keccak n) none force db).2 ∧
      Resolves (storeDb keccak (hashChildren keccak n)
        none force db).2
        (expandNode none (storeDb keccak
          (hashChildren keccak n) none force db).1) n := by
  rw [storeDb_hashChildren hInner]
  split
  · exact ⟨.refl db, hCommitted, hRes none⟩
  · rename_i hLarge
    have hPersisted : Persisted keccak root n := by
      refine ⟨hBelow, hInner, ?_⟩
      cases force with
      | true => exact .inl (hForce rfl)
      | false =>
          exact .inr (Nat.le_of_not_lt fun hLt =>
            hLarge ⟨hLt, rfl⟩)
    have hAt : db.insert (keccak.hash
      (hashChildren keccak n).encode) (hashChildren keccak n)
        (keccak.hash (hashChildren keccak n).encode) =
          some (expandNode (some (keccak.hash
            (hashChildren keccak n).encode))
            (hashChildren keccak n)) := by
      rw [Database.insert, OptionMap.insertNew_self]
      cases hOld : db (keccak.hash
        (hashChildren keccak n).encode) with
      | none => rfl
      | some x =>
          obtain ⟨n', hPersisted', hHash, rfl⟩ :=
            hCommitted _ x hOld
          rw [hFree.nodes n' n hPersisted' hPersisted hHash]
          rfl
    have hExt := OptionMap.extends_insertNew db (keccak.hash
      (hashChildren keccak n).encode)
      (expandNode (some (keccak.hash
        (hashChildren keccak n).encode)) (hashChildren keccak n))
    refine ⟨hExt, fun h x hx => ?_,
      .hashNode hAt (isInner_expandNode hInner _)
      ((hRes _).mono hExt)⟩
    rcases OptionMap.eq_of_insertNew_eq_some hx
      with hOld | ⟨rfl, rfl⟩
    · exact hCommitted h x hOld
    · exact ⟨n, hPersisted, rfl, rfl⟩

/-
  The hasher with a database, on a node of `root` of the
  shape and with no hash cached: the database keeps what it
  had and stays what a commit of `root` writes, and the node
  then reads through it from its collapsed form.  By
  induction on the node; a full node's children go one by
  one through the loop, with what the database holds of the
  children done so far as its invariant.
-/
theorem hashDb_spec
    (hFree : CollisionFree keccak root) :
    ∀ (n : Node), root.Below n → n.WF false → n.NoCache →
      ∀ force, (force = true → n = root) →
      ∀ db, Committed keccak root db →
      OptionMap.Extends db (hashDb keccak n force db).2.2 ∧
        Committed keccak root (hashDb keccak n force db).2.2 ∧
        Resolves (hashDb keccak n force db).2.2
          (expandNode none (hashDb keccak n force db).1) n := by
  intro n
  induction n with
  | nil =>
      intro _ _ _ force _ db hCommitted
      rw [hashDb_nil]
      exact ⟨.refl db, hCommitted, .nil⟩
  | valueNode v =>
      exact fun _ hWF => absurd hWF Bool.false_ne_true
  | hashNode h => exact fun _ hWF => hWF.elim
  | shortNode key val flags ih =>
      intro hBelow hWF hNoCache force hForce db hCommitted
      obtain ⟨cached, dirty⟩ := flags
      obtain rfl : cached = none := hNoCache.1
      by_cases hValue : ∃ v, val = .valueNode v
      · obtain ⟨v, rfl⟩ := hValue
        rw [hashDb_shortNode_valueNode]
        exact storeDb_resolves hFree hBelow rfl hForce hCommitted
          (resolves_shortNode hWF fun hNot =>
            absurd rfl (hNot v))
      · have hNotValue : ∀ v, val ≠ .valueNode v :=
          fun v h => hValue ⟨v, h⟩
        obtain ⟨hExt, hCommitted', hRes⟩ :=
          ih (hBelow.trans (.short (.refl val)))
          (hWF.2.2.2.false_of_ne_valueNode hNotValue)
            hNoCache.2 false (fun h =>
            absurd h Bool.false_ne_true)
          db hCommitted
        rw [hashDb_fst val hNoCache.2] at hRes
        rw [hashDb_shortNode hNotValue]
        dsimp only
        rw [hashDb_fst val
          hNoCache.2, ← hashChildren_shortNode
          hNotValue ⟨none, dirty⟩]
        obtain ⟨hExt', hCommitted'', hRes'⟩ :=
          storeDb_resolves hFree hBelow rfl hForce hCommitted'
          (resolves_shortNode hWF fun _ => hRes)
        exact ⟨hExt.trans hExt', hCommitted'', hRes'⟩
  | fullNode children flags ih =>
      intro hBelow hWF hNoCache force hForce db hCommitted
      obtain ⟨cached, dirty⟩ := flags
      obtain rfl : cached = none := hNoCache.1
      have hFst : ∀ i db, (hashDb keccak
        (children i) false db).1 =
        (hash keccak (children i) false).1 :=
        fun i db => hashDb_fst (children i)
          (hNoCache.2 i) false db
      let Inv : List (Fin 17) → Database → Prop :=
        fun done db' =>
        OptionMap.Extends db db' ∧
          Committed keccak root db' ∧
          ∀ j ∈ done, j ≠ Fin.last 16 →
            (children j).isNil = false →
            Resolves db' (expandNode none (hash keccak
              (children j) false).1) (children j)
      have hLoop := hashChildrenDb_induct Inv firstSixteen
        (fun i hi done db' hInv hNil => by
          have hLast := mem_firstSixteen.mp hi
          obtain ⟨hExt, hCommitted', hRes⟩ :=
            ih i (hBelow.trans (.full i (.refl _)))
            (hWF.child hLast) (hNoCache.2 i) false (fun h =>
              absurd h Bool.false_ne_true) db' hInv.2.1
          rw [hFst] at hRes
          refine ⟨hInv.1.trans hExt, hCommitted',
            fun j hj hjLast hjNil => ?_⟩
          rcases List.mem_append.mp hj with hDone | hNew
          · exact (hInv.2.2 j hDone hjLast hjNil).mono hExt
          · rw [List.mem_singleton.mp hNew]
            exact hRes)
        (fun i _ done db' hInv hNil => by
          refine ⟨hInv.1, hInv.2.1,
            fun j hj hjLast hjNil => ?_⟩
          rcases List.mem_append.mp hj with hDone | hNew
          · exact hInv.2.2 j hDone hjLast hjNil
          · rw [List.mem_singleton.mp hNew, hNil] at hjNil
            exact absurd hjNil (by decide))
        [] (fun i =>
          (children i).leafCollapsed, children, db)
        ⟨.refl db, hCommitted, fun _ h =>
          absurd h List.not_mem_nil⟩
      obtain ⟨hExt, hCommitted', hChildren⟩ := hLoop
      rw [hashDb_fullNode]
      dsimp only
      rw [hashChildrenDb_hashChildren hFst]
      obtain ⟨hExt', hCommitted'', hRes⟩ :=
        storeDb_resolves hFree hBelow rfl hForce hCommitted'
        (resolves_fullNode hWF fun i hLast hNil =>
          hChildren i (mem_firstSixteen.mpr hLast) hLast hNil)
      exact ⟨hExt.trans hExt', hCommitted'', hRes⟩

end Writes

end Trie

end PlasmaEvm

------------------------------------------------------------
-- Reopening a Committed Trie
------------------------------------------------------------

namespace PlasmaEvm

namespace Trie

variable {keccak : Keccak Bytes}

theorem Node.steps_of_isInner
    {n : Node}
    (hInner : n.isInner = true) :
    n.steps = 1 := by
  cases n with
  | hashNode => exact absurd hInner Bool.false_ne_true
  | _ => rfl

/-
  A root with children is hashed by the hasher with a
  database, forced.
-/
theorem hashRootDb_of_isInner
    {root : Node}
    (hInner : root.isInner = true)
    (db : Database) :
    hashRootDb keccak root db =
      hashDb keccak root true db := by
  cases root with
  | nil => exact absurd hInner Bool.false_ne_true
  | _ => rfl

/-
  The root, forced, is hashed whole: its hash is the hash of
  its encoding.
-/
theorem hashDb_root
    {root : Node}
    (hInner : root.isInner = true)
    (hNoCache : root.NoCache)
    (db : Database) :
    (hashDb keccak root true db).1 =
      .hashNode (keccak.hash (hashChildren keccak
      root).encode) := by
  have hRoot : (hashRoot keccak root).1 =
    (hash keccak root true).1 := by
    cases root with
    | nil => exact absurd hInner Bool.false_ne_true
    | _ => rfl
  rw [hashDb_fst root hNoCache, ← hRoot,
    hashRoot_of_isInner keccak hInner hNoCache]

/-
  A trie whose root reads through the database as a root in
  memory reads, by TryGet, the map of the root in memory.
-/
theorem TryGet_of_resolves
    {db : Database}
    {x root : Node}
    (hRes : Resolves db x root)
    (hInner : x.isInner = true)
    (hWF : root.WF false)
    (key : Bytes) :
    ∃ t', TryGet { db := db, root := x } key =
      .ok (root.get (keybytesToHex key), t') := by
  obtain ⟨n', didResolve, hGet⟩ :=
    tryGet_of_resolves (walkFuel (keybytesToHex key)) x root false
    (keybytesToHex key) 0 hRes hWF (keybytesToHex_rest key)
    (by
      rw [List.drop_zero,
        Node.steps_of_isInner hInner, walkFuel]
      omega)
  rw [List.drop_zero] at hGet
  cases didResolve
  · exact ⟨_, by simp only [TryGet, hGet]; rfl⟩
  · exact ⟨_, by simp only [TryGet, hGet]; rfl⟩

variable (keccak) in
/-
  A committed trie opens again to the same map.  From a
  fresh database, every run of writes ends in a trie which,
  with no collision among its nodes, Commit writes to the
  database under its root hash; New opens a trie again from
  that hash, and TryGet reads at every key of it what the
  map with the same writes holds there.  A root with
  children goes to the database under its hash and loads
  from there; the empty root is emptyRoot, which New opens
  as the empty trie again.
-/
theorem Commit_New_TryGet (ws : List Write) :
    ∃ t', applyWrites
      { db := fun _ => none, root := .nil } ws = .ok t' ∧
      (CollisionFree keccak t'.root →
        ∃ root t₂, (Commit keccak t').1 = some root ∧
          New root (Commit keccak t').2.db = .ok t₂ ∧
          ∀ key, ∃ t₃, TryGet t₂ key =
            .ok (ws.foldl Write.apply (fun _ =>
            none) key, t₃)) := by
  obtain ⟨t', hRun, hMem, hDb, hContents⟩ :=
    applyWrites_spec ws
    { db := fun _ => none, root := .nil } trivial
  have hMin := applyWrites_minimal (minimal_empty _) hRun
  refine ⟨t', hRun, fun hFree => ?_⟩
  obtain ⟨db, root⟩ := t'
  obtain rfl : db = fun _ => none := hDb
  have hRead : ∀ key, root.get (keybytesToHex key) =
    ws.foldl Write.apply (fun _ => none) key :=
    fun key => congrFun hContents key
  by_cases hInner : root.isInner = true
  · have hNoCache : root.NoCache := hMin.tidy.noCache
    obtain ⟨-, -, hRes⟩ := hashDb_spec hFree root
      (.refl root) hMem hNoCache true (fun _ => rfl) _
      (committed_empty root)
    rw [hashDb_root hInner hNoCache] at hRes
    have hLoad : Resolves (hashDb keccak root true
      fun _ => none).2.2
        (.hashNode (keccak.hash (hashChildren keccak
          root).encode)) root := hRes
    cases hLoad with
    | hashNode hAt hInnerX hResX =>
        rename_i x
        have hZero := hFree.metaroot root
          ⟨.refl root, hInner, .inl rfl⟩
        have hEmpty := hFree.root hInner
        refine ⟨keccak.hash (hashChildren keccak root).encode,
          ⟨(hashDb keccak root true (fun _ => none)).2.2,
            x⟩, ?_, ?_, fun key => ?_⟩
        · show (hashRootDb keccak root fun _ =>
            none).1.asHash = _
          rw [hashRootDb_of_isInner hInner,
            hashDb_root hInner hNoCache]
          rfl
        · show New _ (hashRootDb keccak root
            fun _ => none).2.2 = _
          rw [hashRootDb_of_isInner hInner, New,
            if_pos ⟨hZero, hEmpty⟩]
          simp only [resolveHash, hAt]
          rfl
        · rw [← hRead key]
          exact TryGet_of_resolves hResX hInnerX hMem key
  · have hNil : root = .nil := by
      cases root with
      | nil => rfl
      | valueNode => exact absurd hMem Bool.false_ne_true
      | hashNode => exact hMem.elim
      | _ => exact absurd rfl hInner
    subst hNil
    refine ⟨emptyRoot,
      { db := fun _ => none, root := .nil }, rfl,
      (New_emptyRoot _).1, fun key => ?_⟩
    rw [← hRead key, TryGet_of_inMemory
      (t := { db := fun _ => none, root := .nil }) trivial key]
    exact ⟨_, rfl⟩

/- A trie of one leaf persists only its root. -/
theorem Persisted.eq_of_leaf
    {key : List Nibble}
    {v : Bytes}
    {flags : NodeFlag}
    {n : Node}
    (h : Persisted keccak (.shortNode key
      (.valueNode v) flags) n) :
    n = .shortNode key (.valueNode v) flags := by
  obtain ⟨hBelow, hInner, -⟩ := h
  cases hBelow with
  | refl => rfl
  | short hVal =>
      cases hVal with
      | refl => exact absurd hInner Bool.false_ne_true

/-
  One write, committed with a keccak that gives every input
  the 32 bytes 1: the trie is one leaf, which persists only
  itself, so no two of its nodes collide, and its hash is
  neither the zero hash nor emptyRoot.
-/
theorem Commit_New_TryGet_one_write :
    let kc : Keccak Bytes :=
      ⟨fun _ => List.replicate 32 1, fun a _ => a⟩
    ∃ t', applyWrites { db := fun _ => none, root := .nil }
        [.update [1] [7]] = .ok t' ∧
      CollisionFree kc t'.root ∧
      ∃ root t₂, (Commit kc t').1 = some root ∧
        New root (Commit kc t').2.db = .ok t₂ ∧
        ∀ key, ∃ t₃, TryGet t₂ key =
          .ok ([Write.update [1] [7]].foldl Write.apply
            (fun _ => none) key, t₃) := by
  intro kc
  obtain ⟨t', hRun, hCommit⟩ :=
    Commit_New_TryGet kc [.update [1] [7]]
  have hLeaf : applyWrites { db := fun _ => none, root := .nil }
      [.update [1] [7]] =
      .ok ⟨fun _ => none,
        .shortNode [0, 1, 16] (.valueNode [7]) newFlag⟩ :=
    rfl
  rw [hLeaf] at hRun
  cases hRun
  have hFree : CollisionFree kc
      (.shortNode [0, 1, 16] (.valueNode [7]) newFlag) :=
    { nodes := fun n₁ n₂ h₁ h₂ _ => by
        rw [h₁.eq_of_leaf, h₂.eq_of_leaf]
      metaroot := fun n h => by
        rw [h.eq_of_leaf]
        decide
      root := fun _ => by decide }
  exact ⟨_, hLeaf, hFree, hCommit hFree⟩

/-
  Two values written, committed, and one read back after
  New, with every hash the same 32 bytes.
-/
example :
    (match applyWrites { db := fun _ => none, root := .nil }
      [.update [1, 2] [7], .update [1, 3] [8]] with
      | .ok t =>
          match Commit ⟨fun _ => List.replicate 32 1,
            fun a _ => a⟩ t with
          | (some root, t₁) =>
              (New root t₁.db).toOption.bind fun t₂ =>
                (TryGet t₂ [1, 3]).toOption.map Prod.fst
          | _ => none
      | .error _ => none) = some (some [8]) := by
  decide

end Trie

end PlasmaEvm
