import PlasmaEvm.Trie.Minimal
import PlasmaEvm.Trie.Correctness
import PlasmaEvm.Trie.Hasher

/-
  The root hash of a trie is fixed by what it stores.  Two
  nodes of the shape, in minimal form, that store the same
  map have the same nodes up to their flags
  (`Node.withoutFlags`): the map decides whether a node is
  nothing, a value, a short node, whose key is the part all
  the keys below share, or a full node, whose children store
  the maps of its nibbles.  The hasher reads no flag but a
  cached hash, so two such tries with no hash cached have
  one root hash.

  The writes keep a trie `Minimal`: in memory, tidy, and
  storing values at hex keys only.  Two runs of writes from
  empty tries that write the same map therefore end in tries
  with the same nodes and the same root hash, whatever the
  order of the writes and whatever was written and removed
  on the way.

  Key definitions include:
    * `Trie.Node.withoutFlags`, `Trie.Minimal`

  Key statements include:
    * `Trie.Node.exists_get_of_canon`,
      `Trie.Node.get_ne_prefixed`
    * `Trie.Node.withoutFlags_eq_of_get_eq`
    * `Trie.hash_withoutFlags`
    * `Trie.Minimal.written`, `Trie.Write.run_minimal`,
      `Trie.applyWrites_minimal`
    * `Trie.Minimal.withoutFlags_eq`, `Trie.Minimal.Hash_eq`
    * `Trie.applyWrites_empty_minimal`,
      `Trie.Hash_of_same_writes`
-/

------------------------------------------------------------
-- The Map Decides the Nodes
------------------------------------------------------------

namespace PlasmaEvm

namespace Trie

namespace Node

/- The node with every flag in it a new node's. -/
def withoutFlags : Node → Node
  | .shortNode key val _ =>
      .shortNode key val.withoutFlags newFlag
  | .fullNode children _ =>
      .fullNode (fun i => (children i).withoutFlags) newFlag
  | n => n

theorem isNil_of_isFullOrValue
    {n : Node}
    (hKind : n.isFullOrValue = true) :
    n.isNil = false := by
  cases n <;> simp_all [isFullOrValue, isNil]

/- A node of minimal form that is set stores some value. -/
theorem exists_get_of_canon
    {n : Node}
    {past : Bool}
    (hWF : n.WF past)
    (hCanon : n.Canon)
    (hSet : n.isNil = false) :
    ∃ k v, n.get k = some v := by
  induction n generalizing past with
  | nil => exact absurd hSet Bool.noConfusion
  | valueNode v => exact ⟨[], v, by simp [PrefixMap.single]⟩
  | shortNode key val flags ih =>
      obtain ⟨-, -, -, hVal⟩ := hWF
      obtain ⟨hKind, hValCanon⟩ := hCanon
      obtain ⟨k, v, hGet⟩ := ih hVal hValCanon
        (isNil_of_isFullOrValue hKind)
      exact ⟨key ++ k, v,
        by
          rw [get_shortNode,
            PrefixMap.prefixed_append_apply, hGet]⟩
  | fullNode children flags ih =>
      obtain ⟨-, hChildren⟩ := hWF
      obtain ⟨⟨a, -, -, hA, -⟩, hCanons⟩ := hCanon
      obtain ⟨k, v, hGet⟩ :=
        ih a (hChildren a) (hCanons a) hA
      exact ⟨a :: k, v, hGet⟩
  | hashNode => exact hWF.elim

/- A node of minimal form that is set stores something. -/
theorem get_ne_empty
    {n : Node}
    {past : Bool}
    (hWF : n.WF past)
    (hCanon : n.Canon)
    (hSet : n.isNil = false) :
    n.get ≠ PrefixMap.empty := by
  intro hGet
  obtain ⟨k, v, hK⟩ := exists_get_of_canon hWF hCanon hSet
  rw [hGet] at hK
  exact Option.some_ne_none v hK.symm

/- A node of minimal form that stores nothing is nothing. -/
theorem eq_nil_of_get_eq_empty
    {n : Node}
    {past : Bool}
    (hWF : n.WF past)
    (hCanon : n.Canon)
    (hGet : n.get = PrefixMap.empty) :
    n = .nil := by
  cases n with
  | nil => rfl
  | hashNode => exact hWF.elim
  | _ => exact absurd hGet (get_ne_empty hWF hCanon rfl)

/-
  A full node or a value of minimal form stores no map under
  a prefix that is not empty: a value stands at the empty
  key, and a full node has keys at two different nibbles.
-/
theorem get_ne_prefixed
    {n : Node}
    {past : Bool}
    (hWF : n.WF past)
    (hCanon : n.Canon)
    (hKind : n.isFullOrValue = true)
    {d : List Nibble}
    (hD : d ≠ [])
    (g : List Nibble → Option Bytes) :
    n.get ≠ PrefixMap.prefixed d g := by
  intro hEq
  cases n with
  | valueNode v =>
      have hAt := congrFun hEq []
      rw [PrefixMap.prefixed_eq_none (fun hP =>
        hD (List.prefix_nil.mp hP))] at hAt
      simp [PrefixMap.single] at hAt
  | fullNode children flags =>
      obtain ⟨-, hChildren⟩ := hWF
      obtain ⟨⟨a, b, hAB, hA, hB⟩, hCanons⟩ := hCanon
      obtain ⟨ka, va, hGa⟩ := exists_get_of_canon
        (hChildren a) (hCanons a) hA
      obtain ⟨kb, vb, hGb⟩ := exists_get_of_canon
        (hChildren b) (hCanons b) hB
      have hAtA : (Node.fullNode children flags).get (a ::
        ka) = some va := hGa
      have hAtB : (Node.fullNode children flags).get (b ::
        kb) = some vb := hGb
      rw [hEq] at hAtA hAtB
      have hPa : d <+: a :: ka :=
        PrefixMap.prefix_of_prefixed_eq_some hAtA
      have hPb : d <+: b :: kb :=
        PrefixMap.prefix_of_prefixed_eq_some hAtB
      obtain ⟨x, d', rfl⟩ := List.exists_cons_of_ne_nil hD
      exact hAB ((List.cons_prefix_cons.mp hPa).1.symm.trans
        (List.cons_prefix_cons.mp hPb).1)
  | _ => simp [isFullOrValue] at hKind

/-
  A short node's map under a longer key than another's of
  the same map is impossible.
-/
theorem eq_nil_of_prefixed_append
    {key d : List Nibble}
    {val val' : Node}
    {past : Bool}
    (hWF : val.WF past)
    (hCanon : val.Canon)
    (hKind : val.isFullOrValue = true)
    (hGet : PrefixMap.prefixed key val.get =
      PrefixMap.prefixed (key ++ d) val'.get) :
    d = [] := by
  by_contra hD
  rw [PrefixMap.prefixed_append] at hGet
  exact get_ne_prefixed hWF hCanon hKind hD _
    (PrefixMap.prefixed_injective key hGet)

/-
  Two short nodes of minimal form that store the same map
  have one key: one key starts the other, at a key stored,
  and the part in between would put a child's map under a
  prefix.
-/
theorem shortKey_eq
    {key key' : List Nibble}
    {val val' : Node}
    {past past' : Bool}
    (hWF : val.WF past)
    (hWF' : val'.WF past')
    (hCanon : val.Canon)
    (hCanon' : val'.Canon)
    (hKind : val.isFullOrValue = true)
    (hKind' : val'.isFullOrValue = true)
    (hGet : PrefixMap.prefixed key val.get =
      PrefixMap.prefixed key' val'.get) :
    key = key' := by
  obtain ⟨k, v, hK⟩ := exists_get_of_canon hWF hCanon
    (isNil_of_isFullOrValue hKind)
  have hIn : PrefixMap.prefixed key' val'.get (key ++
    k) = some v := by
    rw [← hGet, PrefixMap.prefixed_append_apply, hK]
  rcases List.prefix_or_prefix_of_prefix
    (List.prefix_append key k)
      (PrefixMap.prefix_of_prefixed_eq_some hIn)
        with ⟨d, rfl⟩ | ⟨d, rfl⟩
  · rw [eq_nil_of_prefixed_append hWF hCanon hKind hGet,
      List.append_nil]
  · rw [eq_nil_of_prefixed_append hWF' hCanon' hKind'
      hGet.symm, List.append_nil]

/-
  Two nodes of the shape in minimal form that store the same
  map have the same nodes, up to their flags: by induction
  on the first node, with the second's kind fixed by the
  map.
-/
theorem withoutFlags_eq_of_get_eq
    {n n' : Node}
    {past : Bool}
    (hWF : n.WF past)
    (hWF' : n'.WF past)
    (hCanon : n.Canon)
    (hCanon' : n'.Canon)
    (hGet : n.get = n'.get) :
    n.withoutFlags = n'.withoutFlags := by
  induction n generalizing n' past with
  | nil =>
      rw [eq_nil_of_get_eq_empty hWF' hCanon'
        (hGet.symm.trans get_nil)]
  | valueNode v =>
      have hPast : past = true := hWF
      subst hPast
      cases n' with
      | nil =>
          exact absurd (hGet.trans get_nil)
            (get_ne_empty hWF hCanon rfl)
      | valueNode v' =>
          have hAt := congrFun hGet []
          simp [PrefixMap.single] at hAt
          rw [hAt]
      | shortNode => exact Bool.noConfusion hWF'.1
      | fullNode => exact Bool.noConfusion hWF'.1
      | hashNode => exact hWF'.elim
  | shortNode key val flags ih =>
      have hPast : past = false := hWF.1
      subst hPast
      cases n' with
      | nil =>
          exact absurd (hGet.trans get_nil)
            (get_ne_empty hWF hCanon rfl)
      | valueNode => exact Bool.noConfusion hWF'
      | fullNode children' flags' =>
          exact absurd hGet.symm
            (get_ne_prefixed hWF' hCanon' rfl hWF.2.1 _)
      | shortNode key' val' flags' =>
          obtain ⟨-, -, -, hVal⟩ := hWF
          obtain ⟨-, -, -, hVal'⟩ := hWF'
          obtain ⟨hKind, hValCanon⟩ := hCanon
          obtain ⟨hKind', hValCanon'⟩ := hCanon'
          have hKey : key = key' :=
            shortKey_eq hVal hVal' hValCanon hValCanon'
            hKind hKind' hGet
          subst hKey
          have hValGet : val.get = val'.get :=
            PrefixMap.prefixed_injective key hGet
          rw [withoutFlags, withoutFlags,
            ih hVal hVal' hValCanon hValCanon' hValGet]
      | hashNode => exact hWF'.elim
  | fullNode children flags ih =>
      have hPast : past = false := hWF.1
      subst hPast
      cases n' with
      | nil =>
          exact absurd (hGet.trans get_nil)
            (get_ne_empty hWF hCanon rfl)
      | valueNode => exact Bool.noConfusion hWF'
      | shortNode key' val' flags' =>
          exact absurd hGet (get_ne_prefixed hWF hCanon
            rfl hWF'.2.1 _)
      | fullNode children' flags' =>
          obtain ⟨-, hChildren⟩ := hWF
          obtain ⟨-, hChildren'⟩ := hWF'
          have hMaps := PrefixMap.branch_injective hGet
          have hEach : ∀ i, (children i).withoutFlags =
            (children' i).withoutFlags := fun i =>
            ih i (hChildren i) (hChildren' i) (hCanon.2 i)
              (hCanon'.2 i) (congrFun hMaps i)
          rw [withoutFlags, withoutFlags]
          exact congrArg (Node.fullNode · newFlag) (funext hEach)
      | hashNode => exact hWF'.elim
  | hashNode => exact hWF.elim

end Node

end Trie

end PlasmaEvm

------------------------------------------------------------
-- The Hasher Reads a Node without Its Flags
------------------------------------------------------------

namespace PlasmaEvm

namespace Trie

namespace Node

theorem isNil_withoutFlags (n : Node) :
    n.withoutFlags.isNil = n.isNil := by
  cases n <;> rfl

theorem leafCollapsed_withoutFlags (n : Node) :
    n.withoutFlags.leafCollapsed = n.leafCollapsed := by
  cases n <;> rfl

end Node

variable (keccak : Keccak Bytes)

/-
  With no hash cached, the hasher collapses a node and the
  node without its flags alike: it reads a flag only for a
  cached hash.
-/
theorem hash_withoutFlags
    {n : Node}
    (hNoCache : n.NoCache)
    (force : Bool) :
    (hash keccak n force).1 = (hash keccak
      n.withoutFlags force).1 := by
  induction n generalizing force with
  | shortNode key val flags ih =>
      obtain ⟨hFlags, hVal⟩ := hNoCache
      obtain ⟨cached, dirty⟩ := flags
      subst hFlags
      cases val with
      | valueNode v => rfl
      | _ =>
          exact congrArg (fun c =>
            store keccak (.shortNode
            (hexToCompact key) c) force) (ih hVal false)
  | fullNode children flags ih =>
      obtain ⟨hFlags, hChildren⟩ := hNoCache
      obtain ⟨cached, dirty⟩ := flags
      subst hFlags
      refine congrArg (fun c => store keccak
        (.fullNode c) force) (funext fun i => ?_)
      rw [Node.isNil_withoutFlags,
        Node.leafCollapsed_withoutFlags,
        ih i (hChildren i) false]
  | _ => rfl

/- The root hash reads the root only. -/
theorem Hash_fst (t : Trie) :
    (Hash keccak t).1 = (hashRoot keccak t.root).1.asHash :=
  rfl

/-
  The root hash of a trie with no hash cached, read from its
  nodes without flags.
-/
theorem Hash_withoutFlags
    {t : Trie}
    (hNoCache : t.root.NoCache) :
    (Hash keccak t).1 = (hashRoot keccak
      t.root.withoutFlags).1.asHash := by
  rw [Hash_fst]
  cases hRoot : t.root with
  | nil => rfl
  | hashNode h => rfl
  | _ =>
      rw [hRoot] at hNoCache
      simp only [hashRoot,
        hash_withoutFlags keccak hNoCache true]
      rfl

end Trie

end PlasmaEvm

------------------------------------------------------------
-- Runs of Writes Keep the Minimal Form
------------------------------------------------------------

namespace PlasmaEvm

namespace Trie

/-
  A trie the writes keep: in memory, tidy, with values at
  hex keys only.
-/
structure Minimal (t : Trie) : Prop where
  inMemory : InMemory t
  tidy : t.root.Tidy
  hexKeys : ∀ k v, t.root.get k = some v → ∃ key,
    k = keybytesToHex key

theorem minimal_empty (db : Database) :
    Minimal { db := db, root := .nil } := by
  refine ⟨trivial, Node.tidy_nil, fun k v hGet => ?_⟩
  simp at hGet

variable {t t' : Trie}

/- A tidy write at a key's hex form keeps a trie minimal. -/
theorem Minimal.written
    (hMin : Minimal t)
    {key : Bytes}
    {x : Option Bytes}
    {dirty : Bool}
    {n' : Node}
    (hWritten : Written false t.root
      (keybytesToHex key) x dirty n')
    (hTidy : n'.Tidy) :
    Minimal { t with root := n' } := by
  refine ⟨hWritten.wf, hTidy, fun k v hGet => ?_⟩
  change n'.get k = some v at hGet
  rw [hWritten.get] at hGet
  by_cases hAt : k = keybytesToHex key
  · exact ⟨key, hAt⟩
  · rw [Function.update_of_ne hAt] at hGet
    exact hMin.hexKeys k v hGet

/-
  What TryDelete leaves of a tidy trie in memory is tidy.
-/
theorem TryDelete_tidy
    (hMem : InMemory t)
    (hTidy : t.root.Tidy)
    {key : Bytes}
    (hDelete : TryDelete t key = .ok t') :
    t'.root.Tidy := by
  obtain ⟨⟨dirty, n⟩, hRoot, hResult⟩ :=
    Except.bind_eq_ok.mp hDelete
  obtain rfl : { t with root := n } = t' :=
    Except.ok.inj hResult
  exact (delete_keeps_tidy t.db _ t.root false
    [] _ dirty n hMem (keybytesToHex_rest key)
    (length_lt_walkFuel _) hTidy hRoot).1

/-
  What TryUpdate leaves of a tidy trie in memory is tidy.
-/
theorem TryUpdate_tidy
    (hMem : InMemory t)
    (hTidy : t.root.Tidy)
    {key value : Bytes}
    (hUpdate : TryUpdate t key value = .ok t') :
    t'.root.Tidy := by
  unfold TryUpdate at hUpdate
  split at hUpdate
  · obtain ⟨⟨dirty, n⟩, hRoot, hResult⟩ :=
      Except.bind_eq_ok.mp hUpdate
    obtain rfl : { t with
      root := n } = t' := Except.ok.inj hResult
    exact (insert_keeps_tidy t.db value _ t.root false
      [] _ dirty n hMem (keybytesToHex_rest key)
      (length_lt_walkFuel _) hTidy hRoot).1
  · exact TryDelete_tidy hMem hTidy hUpdate

/- One call keeps a trie minimal. -/
theorem Write.run_minimal
    (hMin : Minimal t)
    {w : Write}
    (hRun : w.run t = .ok t') :
    Minimal t' := by
  cases w with
  | update key value =>
      obtain ⟨dirty, n', hUpdate, hWritten⟩ :=
        TryUpdate_written hMin.inMemory key value
      obtain rfl : { t with
        root := n' } = t' := Except.ok.inj
          (hUpdate.symm.trans hRun)
      exact hMin.written hWritten
        (TryUpdate_tidy hMin.inMemory hMin.tidy hUpdate)
  | delete key =>
      obtain ⟨dirty, n', hDelete, hWritten⟩ :=
        TryDelete_written hMin.inMemory key
      obtain rfl : { t with
        root := n' } = t' := Except.ok.inj
          (hDelete.symm.trans hRun)
      exact hMin.written hWritten
        (TryDelete_tidy hMin.inMemory hMin.tidy hDelete)

/-
  A run of calls keeps a trie minimal, by the invariant rule
  of the fold.
-/
theorem applyWrites_minimal
    (hMin : Minimal t)
    {ws : List Write}
    (hRun : applyWrites t ws = .ok t') :
    Minimal t' :=
  Except.foldlM_invariant (fun _ _ _ hMin hStep =>
    Write.run_minimal hMin hStep) hMin hRun

end Trie

end PlasmaEvm

------------------------------------------------------------
-- One Map, One Root Hash
------------------------------------------------------------

namespace PlasmaEvm

namespace Trie

variable {t₁ t₂ : Trie}

/-
  Two minimal tries with the same contents store one map at
  their roots: at a hex key it is the contents, and off the
  hex keys neither stores anything.
-/
theorem Minimal.root_get_eq
    (hMin₁ : Minimal t₁)
    (hMin₂ : Minimal t₂)
    (hContents : contents t₁ = contents t₂) :
    t₁.root.get = t₂.root.get := by
  funext k
  by_cases hHex : ∃ key, k = keybytesToHex key
  · obtain ⟨key, rfl⟩ := hHex
    exact congrFun hContents key
  · have hNone : ∀ {t : Trie}, Minimal t →
      t.root.get k = none := fun hMin =>
      Option.eq_none_iff_forall_ne_some.mpr fun v hGet =>
        hHex (hMin.hexKeys k v hGet)
    rw [hNone hMin₁, hNone hMin₂]

/-
  Two minimal tries with the same contents have the same
  nodes, up to their flags.
-/
theorem Minimal.withoutFlags_eq
    (hMin₁ : Minimal t₁)
    (hMin₂ : Minimal t₂)
    (hContents : contents t₁ = contents t₂) :
    t₁.root.withoutFlags = t₂.root.withoutFlags :=
  Node.withoutFlags_eq_of_get_eq hMin₁.inMemory
    hMin₂.inMemory hMin₁.tidy.canon hMin₂.tidy.canon
    (hMin₁.root_get_eq hMin₂ hContents)

/-
  Two minimal tries with the same contents have the same
  root hash.
-/
theorem Minimal.Hash_eq
    (keccak : Keccak Bytes)
    (hMin₁ : Minimal t₁)
    (hMin₂ : Minimal t₂)
    (hContents : contents t₁ = contents t₂) :
    (Hash keccak t₁).1 = (Hash keccak t₂).1 := by
  rw [Hash_withoutFlags keccak hMin₁.tidy.noCache,
    Hash_withoutFlags keccak hMin₂.tidy.noCache,
    hMin₁.withoutFlags_eq hMin₂ hContents]

/-
  From an empty trie every run of writes succeeds and ends
  in a minimal trie: no hash cached, no short node above
  anything but a full node or a value, no full node with
  fewer than two children, and the map the writes write
  stored at the keys' hex forms.
-/
theorem applyWrites_empty_minimal
    (db : Database)
    (ws : List Write) :
    ∃ t', applyWrites { db := db, root := .nil } ws =
      .ok t' ∧ Minimal t' ∧
      contents t' =
        ws.foldl Write.apply (fun _ => none) := by
  obtain ⟨t', hRun, -, -, hContents⟩ :=
    applyWrites_spec ws { db := db, root := .nil } trivial
  exact ⟨t', hRun, applyWrites_minimal
    (minimal_empty db) hRun, hContents⟩

/-
  The root hash is fixed by what the trie stores: two runs
  of writes from empty tries that write the same map end in
  tries with the same nodes, up to their flags, and the same
  root hash, whatever the order of the writes and whatever
  was written and removed on the way.
-/
theorem Hash_of_same_writes
    (keccak : Keccak Bytes)
    (db₁ db₂ : Database)
    {ws₁ ws₂ : List Write}
    (hSame : ws₁.foldl Write.apply (fun _ =>
      none) = ws₂.foldl Write.apply (fun _ => none)) :
    ∃ t₁ t₂, applyWrites
      { db := db₁, root := .nil } ws₁ = .ok t₁ ∧
      applyWrites { db := db₂, root := .nil } ws₂ = .ok t₂ ∧
      t₁.root.withoutFlags = t₂.root.withoutFlags ∧
        (Hash keccak t₁).1 = (Hash keccak t₂).1 := by
  obtain ⟨t₁, hRun₁, -, -, hContents₁⟩ :=
    applyWrites_spec ws₁ { db := db₁, root := .nil } trivial
  obtain ⟨t₂, hRun₂, -, -, hContents₂⟩ :=
    applyWrites_spec ws₂ { db := db₂, root := .nil } trivial
  have hMin₁ :=
    applyWrites_minimal (minimal_empty db₁) hRun₁
  have hMin₂ :=
    applyWrites_minimal (minimal_empty db₂) hRun₂
  have hContents : contents t₁ = contents t₂ := by
    rw [hContents₁, hContents₂]
    exact hSame
  exact ⟨t₁, t₂, hRun₁, hRun₂, hMin₁.withoutFlags_eq
    hMin₂ hContents,
    hMin₁.Hash_eq keccak hMin₂ hContents⟩

theorem Hash_of_same_writes_swapped :
    ([.update [1] [7], .update [2]
      [8]] : List Write).foldl Write.apply (fun _ => none) =
        ([.update [2] [8], .update [1]
          [7]] : List Write).foldl Write.apply (fun _ => none) ∧
      ∃ t₁ t₂, applyWrites
        { db := fun _ => none, root := .nil } [.update [1]
        [7], .update [2] [8]] = .ok t₁ ∧
        applyWrites { db := fun _ => none, root := .nil }
          [.update [2] [8], .update [1] [7]] = .ok t₂ ∧
        t₁.root.withoutFlags = t₂.root.withoutFlags ∧
        (Hash ⟨fun b => b, fun a b =>
          a ++ b⟩ t₁).1 = (Hash ⟨fun b => b, fun a b =>
          a ++ b⟩ t₂).1 := by
  have hSame : ([.update [1] [7],
    .update [2] [8]] : List Write).foldl Write.apply
    (fun _ => none) =
      ([.update [2] [8], .update [1]
        [7]] : List Write).foldl Write.apply (fun _ => none) :=
    Function.update_comm (by decide) _ _ _
  exact ⟨hSame, Hash_of_same_writes ⟨fun b => b, fun a b =>
    a ++ b⟩ _ _ hSame⟩

end Trie

end PlasmaEvm
