import PlasmaEvm.Trie.Decode
import PlasmaEvm.Trie.RootHash

/-
  What the hasher stores, read back by the decoder.  With no
  hash cached, hash stores the node hashChildren collapses:
  a short node with its key in compact form over a value or
  its hashed child, a full node with its first sixteen
  children hashed.  On a trie of the shape the writes keep,
  tidy and with no empty value, every such node is
  `Collapsed.Stored`, and so decodeNode reads its encoding
  back; as a child it is kept whole when small, and a hash
  of 32 bytes else.

  A run of writes from the empty trie keeps all of this: its
  root hash is the hash of the root's encoding, and the
  encoding of every node below the root reads back.

  Key definitions include:
    * `Trie.hashChildren`
    * `Trie.NonemptyValues`, `Trie.Node.Below`

  Key statements include:
    * `Trie.hash_eq_store`, `Trie.hashRoot_of_isInner`
    * `Trie.stored_store`, `Trie.hashChildren_stored`
    * `Trie.foldl_apply_ne_nil`,
      `Trie.Minimal.nonemptyValues`
    * `Trie.applyWrites_decodeNode`
-/

------------------------------------------------------------
-- What the Hasher Collapses
------------------------------------------------------------

namespace PlasmaEvm

namespace Trie

variable (keccak : Keccak Bytes)

/-
  hashChildren: the node the hasher collapses before store
  encodes it.  A short node's key goes to compact form and
  its child, unless a value, is hashed; a full node's first
  sixteen children are hashed when set, and the seventeenth
  is kept.  `hash` writes it out in the two cases that have
  children.
-/
def hashChildren : Node → Collapsed
  | .shortNode key val _ =>
      .shortNode (hexToCompact key)
        (match val with
          | .valueNode value => .valueNode value
          | _ => (hash keccak val false).1)
  | .fullNode children _ =>
      .fullNode fun i =>
        if i = Fin.last 16 ∨ (children i).isNil
          then (children i).leafCollapsed
        else (hash keccak (children i) false).1
  | n => n.leafCollapsed

/-
  With no hash cached, the hasher stores the node
  hashChildren collapses.
-/
theorem hash_eq_store
    {n : Node}
    (hNoCache : n.NoCache)
    (force : Bool) :
    (hash keccak n force).1 = store keccak
      (hashChildren keccak n) force := by
  cases n with
  | shortNode key val flags =>
      obtain ⟨cached, dirty⟩ := flags
      obtain rfl : cached = none := hNoCache.1
      cases val <;> rfl
  | fullNode children flags =>
      obtain ⟨cached, dirty⟩ := flags
      obtain rfl : cached = none := hNoCache.1
      rfl
  | _ => rfl

/-
  store keeps a short or a full node whose encoding is
  shorter than a hash, unless forced, and hashes any other.
-/
theorem store_shortNode
    (key : Bytes)
    (val : Collapsed)
    (force : Bool) :
    store keccak (.shortNode key val) force =
      if (Collapsed.shortNode key val).encode.length < 32 ∧
        force = false then .shortNode key val
      else .hashNode (keccak.hash
        (Collapsed.shortNode key val).encode) := by
  simp [store]

theorem store_fullNode
    (children : Fin 17 → Collapsed)
    (force : Bool) :
    store keccak (.fullNode children) force =
      if (Collapsed.fullNode children).encode.length < 32 ∧
        force = false then .fullNode children
      else .hashNode (keccak.hash
        (Collapsed.fullNode children).encode) := by
  simp [store]

/-
  The root of a trie, when it has children, is hashed whole:
  its hash is the hash of its encoding.
-/
theorem hashRoot_of_isInner
    {n : Node}
    (hInner : n.isInner = true)
    (hNoCache : n.NoCache) :
    (hashRoot keccak n).1 = .hashNode (keccak.hash
      (hashChildren keccak n).encode) := by
  have hForced : ¬ ((hashChildren keccak n).encode.length <
    32 ∧ true = false) :=
    fun h => absurd h.2 (by decide)
  cases n with
  | shortNode key val flags =>
      show (hash keccak _ true).1 = _
      rw [hash_eq_store keccak hNoCache]
      exact (store_shortNode keccak _ _ true).trans
        (if_neg hForced)
  | fullNode children flags =>
      show (hash keccak _ true).1 = _
      rw [hash_eq_store keccak hNoCache]
      exact (store_fullNode keccak _ true).trans (if_neg hForced)
  | _ => exact absurd hInner Bool.false_ne_true

end Trie

end PlasmaEvm

------------------------------------------------------------
-- Nodes in Stored Form
------------------------------------------------------------

namespace PlasmaEvm

namespace Trie

/-
  A key of the shape: nibbles below 16, then the terminator
  when it has one.
-/
theorem exists_body_terminated
    {key : List Nibble}
    (hNe : key ≠ [])
    (hDrop : ∀ x ∈ key.dropLast, x ≠ 16) :
    ∃ body, (∀ n ∈ body, n.val < 16) ∧
      key = body ++ terminated (hasTerm key) := by
  have hSplit := List.dropLast_append_getLast hNe
  have hLow : ∀ x : Nibble, x ≠ 16 →
    x.val < 16 := fun x hx => by
    have hVal : x.val ≠ 16 := fun h => hx (Fin.ext h)
    omega
  by_cases hLast : key.getLast hNe = 16
  · refine ⟨key.dropLast, fun n hn =>
      hLow n (hDrop n hn), ?_⟩
    have hTerm : hasTerm key = true := by
      simp [hasTerm,
        List.getLast?_eq_some_getLast hNe, hLast]
    rw [hTerm, terminated, if_pos rfl]
    rw [← hLast]
    exact hSplit.symm
  · have hTerm : hasTerm key = false := by
      simp [hasTerm,
        List.getLast?_eq_some_getLast hNe, hLast]
    refine ⟨key, fun n hn => hLow n ?_, ?_⟩
    · rw [← hSplit] at hn
      rcases List.mem_append.mp hn with hIn | hIn
      · exact hDrop n hIn
      · rw [List.mem_singleton.mp hIn]
        exact hLast
    · rw [hTerm, terminated, if_neg Bool.false_ne_true,
        List.append_nil]

/-
  A node of the shape below a full node, other than its
  seventeenth, is of the shape of a node on its own.
-/
theorem Node.WF.child
    {children : Fin 17 → Node}
    {flags : NodeFlag}
    (hWF : (Node.fullNode children flags).WF false)
    {i : Fin 17}
    (hi : i ≠ Fin.last 16) :
    (children i).WF false := by
  have hI : decide (i = 16) = false := decide_eq_false hi
  rw [← hI]
  exact hWF.2 i

/-
  A node of the shape that is no value is of the shape of a
  node on its own.
-/
theorem Node.WF.false_of_ne_valueNode
    {n : Node}
    {past : Bool}
    (hWF : n.WF past)
    (hNotValue : ∀ v, n ≠ .valueNode v) :
    n.WF false := by
  cases n with
  | nil => trivial
  | valueNode v => exact absurd rfl (hNotValue v)
  | shortNode => exact hWF.1 ▸ hWF
  | fullNode => exact hWF.1 ▸ hWF
  | hashNode => exact hWF.elim

/-
  Every value a node stores is not empty, as TryUpdate
  writes them.
-/
def NonemptyValues (n : Node) : Prop :=
  ∀ k v, n.get k = some v → v ≠ []

theorem NonemptyValues.val
    {key : List Nibble}
    {val : Node}
    {flags : NodeFlag}
    (hValues : NonemptyValues (.shortNode key val flags)) :
    NonemptyValues val := fun k v hGet =>
  hValues (key ++ k) v
    (by
      rw [Node.get_shortNode,
        PrefixMap.prefixed_append_apply, hGet])

theorem NonemptyValues.child
    {children : Fin 17 → Node}
    {flags : NodeFlag}
    (hValues : NonemptyValues (.fullNode children flags))
    (i : Fin 17) :
    NonemptyValues (children i) := fun k v hGet =>
  hValues (i :: k) v hGet

variable {keccak : Keccak Bytes}

/-
  A node stored on its own is, in its parent, kept whole
  when small and a hash of 32 bytes else.
-/
theorem stored_store
    (hKeccak : ∀ b, (keccak.hash b).length = 32)
    {c : Collapsed}
    (hStored : c.Stored false) :
    (store keccak c false).Stored true := by
  cases c with
  | shortNode key val =>
      rw [store_shortNode]
      split
      · exact ⟨fun _ => Nat.le_of_lt ‹_ ∧ _›.1, hStored.2⟩
      · exact hKeccak _
  | fullNode children =>
      rw [store_fullNode]
      split
      · exact ⟨fun _ => Nat.le_of_lt ‹_ ∧ _›.1, hStored.2⟩
      · exact hKeccak _
  | _ => exact hStored.elim

/-
  A short node of the shape, tidy, collapses to a stored
  short node, given its child does.
-/
theorem hashChildren_shortNode_stored
    {key : List Nibble}
    {val : Node}
    {flags : NodeFlag}
    (hWF : (Node.shortNode key val flags).WF false)
    (hTidy : (Node.shortNode key val flags).Tidy)
    (hChild : val.WF false → val.Tidy → NonemptyValues val →
      (hash keccak val false).1.Stored true)
    (hValues : NonemptyValues (.shortNode key val flags)) :
    (hashChildren keccak (.shortNode key val
      flags)).Stored false := by
  obtain ⟨-, hNe, hDrop, hValWF⟩ := hWF
  obtain ⟨⟨hKind, hValCanon⟩, ⟨-, hValNoCache⟩⟩ := hTidy
  obtain ⟨body, hBody, hKey⟩ :=
    exists_body_terminated hNe hDrop
  refine ⟨fun h => absurd h Bool.false_ne_true, body,
    hasTerm key, hBody, congrArg hexToCompact hKey, ?_⟩
  cases hTerm : hasTerm key with
  | true =>
      rw [hTerm] at hValWF
      cases val with
      | valueNode v => exact ⟨v, rfl⟩
      | fullNode => exact absurd hValWF.1 (by decide)
      | _ => exact absurd hKind Bool.false_ne_true
  | false =>
      rw [hTerm] at hValWF
      cases val with
      | fullNode children cflags =>
          exact hChild hValWF ⟨hValCanon,
            hValNoCache⟩ hValues.val
      | valueNode => exact absurd hValWF Bool.false_ne_true
      | _ => exact absurd hKind Bool.false_ne_true

/-
  A full node of the shape, tidy, collapses to a stored full
  node, given its children do.
-/
theorem hashChildren_fullNode_stored
    {children : Fin 17 → Node}
    {flags : NodeFlag}
    (hWF : (Node.fullNode children flags).WF false)
    (hTidy : (Node.fullNode children flags).Tidy)
    (hChild : ∀ i, (children i).WF false →
      (children i).Tidy → NonemptyValues (children i) →
      (hash keccak (children i) false).1.Stored true)
    (hValues : NonemptyValues (.fullNode children flags)) :
    (hashChildren keccak (.fullNode children
      flags)).Stored false := by
  have hChildren := hWF.2
  obtain ⟨⟨-, hCanons⟩, ⟨-, hNoCaches⟩⟩ := hTidy
  refine ⟨fun h => absurd h Bool.false_ne_true,
    fun i hi => ?_, ?_⟩
  · have hNotLast : i ≠ Fin.last 16 := fun h => by
      rw [h] at hi
      exact Nat.lt_irrefl 16 hi
    have hChildWF : (children i).WF false :=
      hWF.child hNotLast
    by_cases hNil : (children i).isNil = true
    · have hIsNil : children i = .nil := by
        cases hC : children i <;> simp_all [Node.isNil]
      show Collapsed.Stored true (if i = Fin.last 16 ∨
        (children i).isNil then _ else _)
      rw [if_pos (Or.inr hNil), hIsNil]
      trivial
    · show Collapsed.Stored true (if i = Fin.last 16 ∨
        (children i).isNil then _ else _)
      rw [if_neg (by rintro (h | h) <;> contradiction)]
      exact hChild i hChildWF ⟨hCanons i,
        hNoCaches i⟩ (hValues.child i)
  · beta_reduce
    rw [if_pos (Or.inl rfl)]
    have hLastWF : (children (Fin.last 16)).WF true :=
      hChildren (Fin.last 16)
    cases hC : children (Fin.last 16) with
    | nil => exact .inl rfl
    | valueNode v =>
        refine .inr ⟨v, hValues [Fin.last 16] v ?_, rfl⟩
        show (children (Fin.last 16)).get [] = some v
        rw [hC]
        simp [PrefixMap.single]
    | shortNode =>
        rw [hC] at hLastWF; exact absurd hLastWF.1 (by decide)
    | fullNode =>
        rw [hC] at hLastWF; exact absurd hLastWF.1 (by decide)
    | hashNode => rw [hC] at hLastWF; exact hLastWF.elim

/-
  Every node of a tidy trie in memory with no empty value
  collapses to a node the decoder reads back, and is, in its
  parent, stored whole or by a hash of 32 bytes: by
  induction on the node.
-/
theorem hashChildren_stored
    (hKeccak : ∀ b, (keccak.hash b).length = 32) :
    ∀ (n : Node) (past : Bool), n.WF past → n.Tidy →
      NonemptyValues n →
      (n.isInner = true →
        (hashChildren keccak n).Stored false) ∧
        (past = false →
          (hash keccak n false).1.Stored true) := by
  intro n
  induction n with
  | nil =>
      exact fun _ _ _ _ => ⟨fun h =>
        absurd h Bool.false_ne_true, fun _ => trivial⟩
  | valueNode v =>
      intro past hWF _ _
      exact ⟨fun h => absurd h Bool.false_ne_true,
        fun hPast =>
        absurd (hWF.symm.trans hPast) (by decide)⟩
  | hashNode h => exact fun _ hWF => hWF.elim
  | shortNode key val flags ih =>
      intro past hWF hTidy hValues
      obtain rfl : past = false := hWF.1
      have hInner := hashChildren_shortNode_stored hWF hTidy
        (fun hValWF hValTidy hValValues =>
          (ih false hValWF hValTidy hValValues).2 rfl) hValues
      refine ⟨fun _ => hInner, fun _ => ?_⟩
      rw [hash_eq_store keccak hTidy.noCache]
      exact stored_store hKeccak hInner
  | fullNode children flags ih =>
      intro past hWF hTidy hValues
      obtain rfl : past = false := hWF.1
      have hInner := hashChildren_fullNode_stored hWF hTidy
        (fun i hChildWF hChildTidy hChildValues =>
          (ih i false hChildWF hChildTidy
          hChildValues).2 rfl) hValues
      refine ⟨fun _ => hInner, fun _ => ?_⟩
      rw [hash_eq_store keccak hTidy.noCache]
      exact stored_store hKeccak hInner

/-
  A node below another: the node itself, or below a short
  node's child or a full node's child.
-/
inductive Node.Below : Node → Node → Prop
  | refl (n : Node) : Node.Below n n
  | short {key : List Nibble} {val : Node}
      {flags : NodeFlag} {n : Node} :
      Node.Below val n →
        Node.Below (.shortNode key val flags) n
  | full {children : Fin 17 → Node} {flags : NodeFlag}
      (i : Fin 17) {n : Node} :
      Node.Below (children i) n →
        Node.Below (.fullNode children flags) n

/- A node below a node below another is below it. -/
theorem Node.Below.trans
    {a b c : Node}
    (hAB : a.Below b)
    (hBC : b.Below c) :
    a.Below c := by
  induction hAB with
  | refl => exact hBC
  | short _ ih => exact .short (ih hBC)
  | full i _ ih => exact .full i (ih hBC)

/-
  The shape, the minimal form and values that are not empty
  hold below a node that has them.
-/
theorem Node.Below.tidy
    {root n : Node}
    (hBelow : root.Below n)
    {past : Bool}
    (hWF : root.WF past)
    (hTidy : root.Tidy)
    (hValues : NonemptyValues root) :
    ∃ past', n.WF past' ∧ n.Tidy ∧ NonemptyValues n := by
  induction hBelow generalizing past with
  | refl => exact ⟨past, hWF, hTidy, hValues⟩
  | short _ ih =>
      exact ih hWF.2.2.2 ⟨hTidy.canon.2,
        hTidy.noCache.2⟩ hValues.val
  | full i _ ih =>
      exact ih (hWF.2 i) ⟨hTidy.canon.2 i,
        hTidy.noCache.2 i⟩ (hValues.child i)

end Trie

end PlasmaEvm

------------------------------------------------------------
-- Runs of Writes
------------------------------------------------------------

namespace PlasmaEvm

namespace Trie

/-
  A write keeps every value of a map not empty: an empty
  value removes its key.
-/
theorem Write.apply_ne_nil
    {m : Bytes → Option Bytes}
    (hValues : ∀ k v, m k = some v → v ≠ [])
    (w : Write) :
    ∀ k v, Write.apply m w k = some v → v ≠ [] := by
  intro k v hApply
  cases w with
  | update key value =>
      rcases eq_or_ne k key with rfl | hKey
      · rw [Write.apply, Function.update_self] at hApply
        split at hApply
        · rw [← Option.some.inj hApply]
          exact List.ne_nil_of_length_pos (Nat.pos_of_ne_zero ‹_›)
        · exact absurd hApply.symm (Option.some_ne_none v)
      · rw [Write.apply,
          Function.update_of_ne hKey] at hApply
        exact hValues k v hApply
  | delete key =>
      rcases eq_or_ne k key with rfl | hKey
      · rw [Write.apply, Function.update_self] at hApply
        exact absurd hApply.symm (Option.some_ne_none v)
      · rw [Write.apply,
          Function.update_of_ne hKey] at hApply
        exact hValues k v hApply

/- So does a run of writes, one write at a time. -/
theorem foldl_apply_ne_nil :
    ∀ (ws : List Write) (m : Bytes → Option Bytes), (∀ k v,
      m k = some v → v ≠ []) →
      ∀ k v, ws.foldl Write.apply m k = some v → v ≠ []
  | [], _, hValues => hValues
  | w :: ws, _, hValues =>
      foldl_apply_ne_nil ws _ (Write.apply_ne_nil hValues w)

/-
  A trie in minimal form stores at its root the values of
  its contents.
-/
theorem Minimal.nonemptyValues
    {t : Trie}
    (hMin : Minimal t)
    (hValues : ∀ key v, contents t key = some v → v ≠ []) :
    NonemptyValues t.root := by
  intro k v hGet
  obtain ⟨key, rfl⟩ := hMin.hexKeys k v hGet
  exact hValues key v hGet

variable {keccak : Keccak Bytes}

/-
  What the hasher stores reads back: from the empty trie,
  every run of writes ends in a trie whose root hash, when
  the root has children, is the hash of the root's encoding,
  and every node of which with children encodes to bytes
  that decodeNode reads back as the node with its children
  collapsed.  The hashes are of 32 bytes, and the encoding
  one the RLP header can give the length of.
-/
theorem applyWrites_decodeNode
    (hKeccak : ∀ b, (keccak.hash b).length = 32)
    (db : Database)
    (ws : List Write) :
    ∃ t',
      applyWrites { db := db, root := .nil } ws = .ok t' ∧
      (t'.root.isInner = true →
        (Hash keccak t').1 = some (keccak.hash
          (hashChildren keccak t'.root).encode)) ∧
      ∀ n, t'.root.Below n → n.isInner = true →
        (hashChildren keccak n).encode.length < 256 ^ 8 →
        ∀ hash rest,
          decodeNode ((hashChildren keccak n).encode.length
            + 1) hash ((hashChildren keccak n).encode ++ rest) =
            .ok ((hashChildren keccak n).decoded hash) := by
  obtain ⟨t', hRun, hMem, -, hContents⟩ :=
    applyWrites_spec ws { db := db, root := .nil } trivial
  have hMin := applyWrites_minimal (minimal_empty db) hRun
  have hValues : NonemptyValues t'.root :=
    hMin.nonemptyValues fun key v hGet => by
    rw [hContents] at hGet
    exact foldl_apply_ne_nil ws _ (fun _ v h =>
      absurd h.symm (Option.some_ne_none v)) key v hGet
  refine ⟨t', hRun, fun hInner => ?_,
    fun n hBelow hInner hFits hash rest => ?_⟩
  · rw [Hash_fst, hashRoot_of_isInner keccak hInner
      hMin.tidy.noCache]
    rfl
  · obtain ⟨past, hWF, hTidy, hNodeValues⟩ :=
      hBelow.tidy hMem hMin.tidy hValues
    have hStored := (hashChildren_stored hKeccak n past hWF
      hTidy hNodeValues).1 hInner
    exact decodeNode_encode _ hStored hFits _
      (Nat.lt_succ_self _) hash rest

theorem applyWrites_decodeNode_zeros :
    (∀ b, ((⟨fun _ => List.replicate 32 0, fun a _ =>
      a⟩ : Keccak Bytes).hash b).length = 32) ∧
      ∃ t', applyWrites
        { db := fun _ => none, root := .nil } [.update [1,
        2] [7], .update [1, 3] [8]] = .ok t' ∧
        (t'.root.isInner = true →
          (Hash ⟨fun _ => List.replicate 32 0,
            fun a _ => a⟩ t').1 =
            some (List.replicate 32 0)) ∧
        ∀ n, t'.root.Below n → n.isInner = true →
          (hashChildren ⟨fun _ => List.replicate 32 0,
            fun a _ => a⟩ n).encode.length < 256 ^ 8 →
          ∀ hash rest,
            decodeNode ((hashChildren ⟨fun _ =>
              List.replicate 32 0, fun a _ =>
              a⟩ n).encode.length + 1) hash
                ((hashChildren ⟨fun _ =>
                  List.replicate 32 0, fun a _ =>
                  a⟩ n).encode ++ rest) =
              .ok ((hashChildren ⟨fun _ =>
                List.replicate 32 0, fun a _ =>
                a⟩ n).decoded hash) :=
  ⟨fun _ => List.length_replicate,
    @applyWrites_decodeNode ⟨fun _ =>
      List.replicate 32 0, fun a _ => a⟩
      (fun _ => List.length_replicate) _ _⟩

end Trie

end PlasmaEvm
