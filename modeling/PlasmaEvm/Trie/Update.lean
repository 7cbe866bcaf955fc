import PlasmaEvm.Trie.Contents

/-
  insert and delete write the map a node stores.  On a trie
  in memory with a hex key's rest and enough fuel, insert
  returns the node that stores the map with the value
  written at the rest, and delete the node that stores it
  with the rest removed; both keep the shape `Node.WF`, and
  hand back the node itself, not dirty, when nothing
  changed.

  insert splits a short node where its key leaves the key
  written: a branch takes the old node's part at its nibble
  and the value at the new one, below a short node of the
  common part.  delete merges a short node with the short
  node left below it, and turns a full node left with one
  child into a short node to that child, merged with it when
  it is a short node; the map stays the same through both.

  Key definitions include:
    * `Trie.Written`

  Key statements include:
    * `Trie.insert_spec`, `Trie.delete_spec`
    * `Trie.get_fullNode_of_one`
-/

------------------------------------------------------------
-- Keys of Short Nodes
------------------------------------------------------------

namespace PlasmaEvm

namespace Trie

theorem hasTerm_append
    (a : List Nibble)
    {b : List Nibble}
    (hb : b ≠ []) :
    hasTerm (a ++ b) = hasTerm b := by
  simp [hasTerm, List.getLast?_append_of_ne_nil a hb]

theorem hasTerm_singleton (x : Nibble) :
    hasTerm [x] = decide (x = 16) := by
  simp [hasTerm]

theorem hasTerm_of_noTerm
    {l : List Nibble}
    (hNoTerm : ∀ x ∈ l, x ≠ 16) :
    hasTerm l = false := by
  simp only [hasTerm, decide_eq_false_iff_not]
  exact fun hLast =>
    hNoTerm 16 (List.mem_of_getLast? hLast) rfl

/-
  A short node's key that does not end with the terminator
  holds none.
-/
theorem noTerm_of_hasTerm_false
    {nkey : List Nibble}
    (hKey : ∀ x ∈ nkey.dropLast, x ≠ 16)
    (hTerm : hasTerm nkey = false) :
    ∀ x ∈ nkey, x ≠ 16 := by
  intro x hx
  have hNil : nkey ≠ [] := List.ne_nil_of_mem hx
  rw [← List.dropLast_append_getLast hNil] at hx
  rcases List.mem_append.mp hx with hFront | hLast
  · exact hKey x hFront
  · rw [List.mem_singleton.mp hLast]
    intro h16
    simp [hasTerm, List.getLast?_eq_some_getLast
      hNil, h16] at hTerm

/-
  The part of a short node's key after its `m`-th nibble,
  when some is left.
-/
theorem key_drop_of_lt
    {nkey : List Nibble}
    (hKey : ∀ x ∈ nkey.dropLast, x ≠ 16)
    {m : Nat}
    (hm : m < nkey.length)
    (hRest : nkey.drop (m + 1) ≠ []) :
    nkey[m] ≠ 16 ∧
      (∀ x ∈ (nkey.drop (m + 1)).dropLast, x ≠ 16) ∧
      hasTerm (nkey.drop (m + 1)) = hasTerm nkey := by
  have hSplit : nkey = nkey.take (m + 1) ++ nkey.drop (m +
    1) := (List.take_append_drop _ _).symm
  have hDropLast : nkey.dropLast = nkey.take (m + 1) ++
    (nkey.drop (m + 1)).dropLast := by
    conv => lhs; rw [hSplit]
    exact List.dropLast_append_of_ne_nil hRest
  have hTakeLen : m < (nkey.take (m + 1)).length := by
    rw [List.length_take]
    omega
  have hIn := List.getElem_mem hTakeLen
  rw [List.getElem_take] at hIn
  refine ⟨hKey _ ?_, fun x hx => hKey x ?_, ?_⟩
  · rw [hDropLast]
    exact List.mem_append_left _ hIn
  · rw [hDropLast]
    exact List.mem_append_right _ hx
  · conv => rhs; rw [hSplit]
    exact (hasTerm_append _ hRest).symm

end Trie

end PlasmaEvm

------------------------------------------------------------
-- Writing Below Nothing
------------------------------------------------------------

namespace PlasmaEvm

namespace Trie

/-
  insert below nothing: the node itself at the end of a key,
  else a short node to it.
-/
theorem insert_nil
    (db : Database)
    (fuel : Nat)
    (pathPrefix key : List Nibble)
    (value : Node) :
    insert db (fuel + 1) .nil pathPrefix key value =
      .ok (true, if key = []
        then value else .shortNode key value newFlag) := by
  by_cases hKey : key = []
  · subst hKey
    simp [insert]
  · simp [insert, hKey]

theorem get_ite_shortNode
    (key : List Nibble)
    (value : Node) :
    (if key = []
      then value
        else Node.shortNode key value newFlag).get =
      PrefixMap.prefixed key value.get := by
  split
  · next hKey =>
      subst hKey
      simp
  · rfl

/- A value written below nothing, at the rest of a key. -/
theorem wf_leaf
    {past : Bool}
    {key : List Nibble}
    (hRest : Rest past key)
    (v : Bytes) :
    (if key = []
      then Node.valueNode v else .shortNode key
        (.valueNode v) newFlag).WF past := by
  cases past with
  | true =>
      have hKey : key = [] := hRest
      simp [hKey, Node.WF]
  | false =>
      obtain ⟨body, hBody, rfl⟩ := hRest
      simp only [List.append_eq_nil_iff, List.cons_ne_nil,
        and_false, if_false]
      exact ⟨rfl, by simp, by rwa [List.dropLast_concat],
        by simp [hasTerm, Node.WF]⟩

/-
  The old short node's part below a new branch, after the
  nibble where its key leaves the key written.
-/
theorem wf_oldChild
    {nkey : List Nibble}
    {nval : Node}
    (hKey : ∀ x ∈ nkey.dropLast, x ≠ 16)
    (hVal : nval.WF (hasTerm nkey))
    {m : Nat}
    (hm : m < nkey.length) :
    (if nkey.drop (m + 1) = []
      then nval else .shortNode (nkey.drop (m +
        1)) nval newFlag).WF
      (decide (nkey[m] = 16)) := by
  split
  · next hEmpty =>
      have hLast : m + 1 = nkey.length := by
        have := List.drop_eq_nil_iff.mp hEmpty
        omega
      have hTerm : hasTerm nkey =
        decide (nkey[m] = 16) := by
        simp [hasTerm, List.getLast?_eq_getElem?, ← hLast]
      rwa [← hTerm]
  · next hRest =>
      obtain ⟨hOld, hDropLast, hTerm⟩ :=
        key_drop_of_lt hKey hm hRest
      simp only [hOld, decide_false]
      exact ⟨rfl, hRest, hDropLast, by rwa [hTerm]⟩

end Trie

end PlasmaEvm

------------------------------------------------------------
-- Insertion
------------------------------------------------------------

namespace PlasmaEvm

namespace Trie

/-
  A write of `x` at `key` into `n`: the node returned has
  the shape, stores the map written, and is `n` itself when
  not dirty.
-/
structure Written
    (past : Bool)
    (n : Node)
    (key : List Nibble)
    (x : Option Bytes)
    (dirty : Bool)
    (n' : Node) : Prop where
  wf : n'.WF past
  get : n'.get = Function.update n.get key x
  unchanged : dirty = false → n' = n

variable (db : Database)

/-
  insert with `fuel` writes `v` below every node of the
  shape, at every rest of a key that fits.
-/
def InsertsBelow (fuel : Nat) (v : Bytes) : Prop :=
  ∀ (n : Node) (past : Bool) (pathPrefix key : List Nibble),
    n.WF past → Rest past key →
    key.length < fuel →
    ∃ dirty n', insert db fuel n pathPrefix key
      (.valueNode v) = .ok (dirty, n') ∧
      Written past n key (some v) dirty n'

/-
  At the end of the key: a value replaces nothing or a
  value, and is dirty when it differs.
-/
theorem insert_end
    (fuel : Nat)
    {n : Node}
    {past : Bool}
    (hWF : n.WF past)
    (hRest : Rest past [])
    (pathPrefix : List Nibble)
    (v : Bytes) :
    ∃ dirty n', insert db (fuel +
      1) n pathPrefix [] (.valueNode v) = .ok (dirty, n') ∧
      Written past n [] (some v) dirty n' := by
  have hPast : past = true := by
    cases past with
    | true => rfl
    | false => exact absurd rfl hRest.ne_nil
  subst hPast
  cases n with
  | nil =>
      refine ⟨true, .valueNode v, by simp [insert],
        rfl, ?_, nofun⟩
      simp [PrefixMap.single_eq_update]
  | valueNode old =>
      refine ⟨decide (old ≠ v), .valueNode v,
        by simp [insert], rfl, ?_, fun hSame => ?_⟩
      · simp only [Node.get_valueNode,
          PrefixMap.single_eq_update, Function.update_idem]
      · simp only [decide_eq_false_iff_not,
          not_not] at hSame
        rw [hSame]
  | shortNode => exact Bool.noConfusion hWF.1
  | fullNode => exact Bool.noConfusion hWF.1
  | hashNode => exact hWF.elim

/-
  Below nothing, the value, under a short node of the key's
  rest when some is left.
-/
theorem insert_nil_spec
    (fuel : Nat)
    {past : Bool}
    {key : List Nibble}
    (hRest : Rest past key)
    (pathPrefix : List Nibble)
    (v : Bytes) :
    ∃ dirty n', insert db (fuel +
      1) .nil pathPrefix key (.valueNode v) =
        .ok (dirty, n') ∧
      Written past .nil key (some v) dirty n' := by
  refine ⟨true, _, insert_nil db fuel pathPrefix key
    _, ?_, ?_, nofun⟩
  · exact wf_leaf hRest v
  · rw [get_ite_shortNode, Node.get_valueNode,
      PrefixMap.prefixed_single, Node.get_nil]

/-
  A short node whose key starts the key written passes the
  rest on to its child.
-/
theorem insert_shortNode_below
    {fuel : Nat}
    {v : Bytes}
    (hBelow : InsertsBelow db fuel v)
    {nkey : List Nibble}
    {nval : Node}
    {flags : NodeFlag}
    (hWF : (Node.shortNode nkey nval flags).WF false)
    {pathPrefix key : List Nibble}
    (hRest : Rest false key)
    (hFuel : key.length < fuel + 1)
    (hMatch : prefixLen key nkey = nkey.length) :
    ∃ dirty n', insert db (fuel +
      1) (.shortNode nkey nval flags) pathPrefix key
      (.valueNode v) =
        .ok (dirty, n') ∧ Written false
          (.shortNode nkey nval flags) key (some v) dirty n' := by
  obtain ⟨-, hNe, hKeyNoTerm, hVal⟩ := hWF
  have hPrefix : nkey <+: key := by
    rw [prefixLen, List.commonPrefixLen_comm] at hMatch
    exact (List.commonPrefixLen_eq_length_iff nkey key).mp hMatch
  have hPos : 0 < nkey.length := List.length_pos_iff.mpr hNe
  have hLe : nkey.length ≤ key.length := hPrefix.length_le
  have hSplit : key = nkey ++ key.drop nkey.length := by
    conv =>
      lhs; rw [← List.take_append_drop nkey.length key]
    rw [← List.prefix_iff_eq_take.mp hPrefix]
  obtain ⟨dirty, nn, hInsert, hWritten⟩ :=
    hBelow nval (hasTerm nkey)
    (pathPrefix ++ key.take nkey.length)
      (key.drop nkey.length) hVal
    (hRest.drop_length hPrefix hNe)
      (by rw [List.length_drop]; omega)
  have hGet : PrefixMap.prefixed nkey nn.get =
    Function.update (PrefixMap.prefixed nkey nval.get)
    key (some v) := by
    rw [hWritten.get, hSplit,
      PrefixMap.update_prefixed, ← hSplit]
  unfold insert
  simp only [hRest.ne_nil, if_false, hMatch,
    if_true, hInsert]
  cases dirty with
  | false =>
      have hSame : nn = nval := hWritten.unchanged rfl
      subst hSame
      refine ⟨false, _, rfl, ⟨⟨rfl, hNe, hKeyNoTerm, hVal⟩,
        ?_, fun _ => rfl⟩⟩
      rw [Node.get_shortNode]
      exact hGet
  | true =>
      exact ⟨true, _, rfl, ⟨⟨rfl, hNe, hKeyNoTerm,
        hWritten.wf⟩, hGet, nofun⟩⟩

/- A full node's map after a change of one child. -/
theorem get_update_children
    (children : Fin 17 → Node)
    (i : Fin 17)
    (nn : Node) :
    (fun j => (Function.update children i nn j).get) =
      Function.update (fun j =>
        (children j).get) i nn.get := by
  funext j
  by_cases hJ : j = i
  · subst hJ
    simp
  · simp [Function.update_of_ne hJ]

/-
  The node insert leaves where a short node's key parts from
  the key written, after `m` nibbles in common: a branch
  with the old node's part at the old nibble and the new
  value's at the new one, below a short node of the common
  part when there is one.
-/
def splitBranch
    (m : Nat)
    (common : List Nibble)
    (old : Nibble)
    (oldRest : List Nibble)
    (nval : Node)
    (new : Nibble)
    (newRest : List Nibble)
    (value : Node) : Node :=
  let oldChild := if oldRest = []
    then nval else Node.shortNode oldRest nval newFlag
  let newChild := if newRest = []
    then value else Node.shortNode newRest value newFlag
  let branch := Node.fullNode
    (Function.update (Function.update emptyChildren old
      oldChild) new newChild) newFlag
  if m = 0 then branch else .shortNode common branch newFlag

/-
  Where a key written leaves a short node's key, both have a
  nibble left.
-/
theorem split_bounds
    {nkey : List Nibble}
    {nval : Node}
    {flags : NodeFlag}
    (hWF : (Node.shortNode nkey nval flags).WF false)
    {key : List Nibble}
    (hRest : Rest false key)
    (hMatch : prefixLen key nkey ≠ nkey.length) :
    prefixLen key nkey < nkey.length ∧
      prefixLen key nkey < key.length := by
  obtain ⟨-, -, hKeyNoTerm, -⟩ := hWF
  have hmKey : prefixLen key nkey ≤ key.length :=
    List.commonPrefixLen_le_left key nkey
  have hmN : prefixLen key nkey < nkey.length :=
    lt_of_le_of_ne (List.commonPrefixLen_le_right key nkey) hMatch
  refine ⟨hmN, lt_of_le_of_ne hmKey fun hAll => ?_⟩
  have hTake : key.take (prefixLen key nkey) =
    nkey.take (prefixLen key nkey) :=
    List.take_commonPrefixLen key nkey
  have hPrefix : key <+: nkey := by
    rw [hAll, List.take_length] at hTake
    rw [hTake]
    exact List.take_prefix _ _
  have := hRest.length_le_shortKey hPrefix hKeyNoTerm
  omega

/-
  insert at a short node whose key leaves the key written:
  the split, two steps down.
-/
theorem insert_shortNode_split_eq
    (fuel : Nat)
    (nkey : List Nibble)
    (nval : Node)
    (flags : NodeFlag)
    (pathPrefix : List Nibble)
    {key : List Nibble}
    (v : Bytes)
    (hKey : key ≠ [])
    (hmN : prefixLen key nkey < nkey.length)
    (hmK : prefixLen key nkey < key.length) :
    insert db (fuel + 1 + 1) (.shortNode nkey nval flags)
      pathPrefix key (.valueNode v) =
      .ok (true, splitBranch (prefixLen key nkey) (key.take
        (prefixLen key nkey))
        nkey[prefixLen key nkey] (nkey.drop
          (prefixLen key nkey + 1)) nval
        key[prefixLen key nkey] (key.drop
          (prefixLen key nkey + 1)) (.valueNode v)) := by
  unfold insert
  simp only [hKey, if_false]
  rw [if_neg (Nat.ne_of_lt hmN),
    List.getElem?_eq_getElem hmN,
    List.getElem?_eq_getElem hmK]
  simp only [insert_nil]
  unfold splitBranch
  by_cases hm0 : prefixLen key nkey = 0 <;> simp only [hm0,
    if_true, if_false] <;> rfl

/-
  A short node whose key leaves the key written is split
  there: the branch stores the old node's map at the old
  nibble and the value at the new one, below the common
  part.
-/
theorem insert_shortNode_split
    (fuel : Nat)
    {nkey : List Nibble}
    {nval : Node}
    {flags : NodeFlag}
    (hWF : (Node.shortNode nkey nval flags).WF false)
    {pathPrefix key : List Nibble}
    (hRest : Rest false key)
    (v : Bytes)
    (hMatch : prefixLen key nkey ≠ nkey.length) :
    ∃ n', insert db (fuel + 1 + 1)
      (.shortNode nkey nval flags) pathPrefix key (.valueNode v) =
        .ok (true, n') ∧ Written false
          (.shortNode nkey nval flags) key (some v) true n' := by
  obtain ⟨hmN, hmK⟩ := split_bounds hWF hRest hMatch
  refine ⟨_, insert_shortNode_split_eq db fuel nkey nval
    flags pathPrefix v hRest.ne_nil hmN hmK, ?_⟩
  obtain ⟨-, hNe, hKeyNoTerm, hVal⟩ := hWF
  have hTake : key.take (prefixLen key nkey) =
    nkey.take (prefixLen key nkey) :=
    List.take_commonPrefixLen key nkey
  have hNew : key[prefixLen key nkey] ≠
    nkey[prefixLen key nkey] :=
    List.getElem_commonPrefixLen_ne key nkey hmK hmN
  unfold splitBranch
  generalize prefixLen key nkey = m at *
  obtain ⟨hCommon, hFrom⟩ := hRest.drop hmK
  have hCommonLen : (key.take m).length = m := by
    rw [List.length_take]
    omega
  have hKeySplit : key = key.take m ++ key[m] ::
    key.drop (m + 1) := by
    rw [← List.drop_eq_getElem_cons hmK,
      List.take_append_drop]
  have hNkeySplit : nkey = key.take m ++ nkey[m] ::
    nkey.drop (m + 1) := by
    rw [hTake, ← List.drop_eq_getElem_cons hmN,
      List.take_append_drop]
  have hNewRest : Rest (decide (key[m] =
    16)) (key.drop (m + 1)) := by
    rw [List.drop_eq_getElem_cons hmK] at hFrom
    exact hFrom.tail
  have hNewWF := wf_leaf hNewRest v
  have hOldWF := wf_oldChild hKeyNoTerm hVal hmN
  generalize key.take m = common at *
  generalize key.drop (m + 1) = restK at *
  generalize nkey.drop (m + 1) = restN at *
  generalize hOldChild : (if restN = []
    then nval else Node.shortNode restN nval newFlag) = oldChild at *
  generalize hNewChild :
    (if restK = [] then Node.valueNode v
      else Node.shortNode restK (.valueNode v) newFlag) =
      newChild at *
  generalize nkey[m] = old at *
  generalize key[m] = new at *
  let branch := Node.fullNode (Function.update
    (Function.update emptyChildren old oldChild) new
    newChild) newFlag
  show Written false _ _ _ true (if m = 0
    then branch else .shortNode common branch newFlag)
  refine ⟨?_, ?_, nofun⟩
  · have hBranchWF : branch.WF false := by
      refine ⟨rfl, fun i => ?_⟩
      by_cases hI : i = new
      · subst hI
        rw [Function.update_self]
        exact hNewWF
      · rw [Function.update_of_ne hI]
        by_cases hI' : i = old
        · subst hI'
          rw [Function.update_self]
          exact hOldWF
        · rw [Function.update_of_ne hI']
          trivial
    split
    · exact hBranchWF
    · next hm0 =>
        have hNeCommon : common ≠ [] := fun h =>
          hm0 (by rw [← hCommonLen, h, List.length_nil])
        refine ⟨rfl, hNeCommon, fun x hx =>
          hCommon x (List.mem_of_mem_dropLast hx), ?_⟩
        rw [hasTerm_of_noTerm hCommon]
        exact hBranchWF
  · have hOldGet : oldChild.get =
      PrefixMap.prefixed restN nval.get := by
      rw [← hOldChild, get_ite_shortNode]
    have hNewGet : newChild.get =
      PrefixMap.prefixed restK (PrefixMap.single v) := by
      rw [← hNewChild, get_ite_shortNode,
        Node.get_valueNode]
    have hResult : (if m = 0
      then branch else Node.shortNode common branch newFlag).get =
        PrefixMap.prefixed common branch.get := by
      split
      · next hm0 =>
          rw [List.eq_nil_of_length_eq_zero
            (hCommonLen.trans hm0), PrefixMap.prefixed_nil]
      · rfl
    have hBranchGet : branch.get =
      PrefixMap.branch (Function.update
        (Function.update (fun _ =>
          PrefixMap.empty) old oldChild.get) new
          newChild.get) := by
      simp only [branch, Node.get_fullNode,
        get_update_children]
      rfl
    rw [hResult, hBranchGet, Node.get_shortNode, hNkeySplit,
      PrefixMap.prefixed_append,
      PrefixMap.prefixed_cons, hKeySplit,
        PrefixMap.update_prefixed, PrefixMap.update_branch,
      Function.update_of_ne hNew, hOldGet,
        hNewGet, ← PrefixMap.prefixed_single]

/-
  A full node passes the rest of the key on to the child at
  its first nibble.
-/
theorem insert_fullNode
    {fuel : Nat}
    {v : Bytes}
    (hBelow : InsertsBelow db fuel v)
    {children : Fin 17 → Node}
    {flags : NodeFlag}
    (hWF : (Node.fullNode children flags).WF false)
    (pathPrefix : List Nibble)
    {i : Nibble}
    {rest : List Nibble}
    (hRest : Rest false (i :: rest))
    (hFuel : (i :: rest).length < fuel + 1) :
    ∃ dirty n', insert db (fuel +
      1) (.fullNode children flags) pathPrefix (i ::
      rest) (.valueNode v) =
        .ok (dirty, n') ∧ Written false
          (.fullNode children flags) (i ::
          rest) (some v) dirty n' := by
  obtain ⟨-, hChildren⟩ := hWF
  obtain ⟨dirty, nn, hInsert, hWritten⟩ :=
    hBelow (children i) (decide (i = 16))
    (pathPrefix ++ [i]) rest (hChildren i) hRest.tail
      (by simpa using hFuel)
  have hGet : (Node.fullNode (Function.update children i
    nn) newFlag).get =
      Function.update (Node.fullNode children flags).get
        (i :: rest) (some v) := by
    rw [Node.get_fullNode, get_update_children,
      hWritten.get, Node.get_fullNode,
      PrefixMap.update_branch]
  unfold insert
  simp only [List.cons_ne_nil, if_false, hInsert]
  cases dirty with
  | false =>
      have hSame : nn = children i := hWritten.unchanged rfl
      refine ⟨false, _, rfl, ⟨⟨rfl, hChildren⟩,
        ?_, fun _ => rfl⟩⟩
      rw [← hGet, hSame, Function.update_eq_self,
        Node.get_fullNode, Node.get_fullNode]
  | true =>
      refine ⟨true, _, rfl, ⟨⟨rfl, fun j =>
        ?_⟩, hGet, nofun⟩⟩
      by_cases hJ : j = i
      · subst hJ
        rw [Function.update_self]
        exact hWritten.wf
      · rw [Function.update_of_ne hJ]
        exact hChildren j

/-
  insert writes the value at the rest of a hex key into a
  trie in memory, with one step of fuel for each nibble and
  one more: by induction on the fuel, over the node the walk
  is at.
-/
theorem insert_spec
    (v : Bytes) :
    ∀ fuel, InsertsBelow db fuel v
  | 0 =>
      fun _ _ _ _ _ _ hFuel =>
        absurd hFuel (Nat.not_lt_zero _)
  | fuel + 1 => by
      intro n past pathPrefix key hWF hRest hFuel
      by_cases hKey : key = []
      · subst hKey
        exact insert_end db fuel hWF hRest pathPrefix v
      cases n with
      | nil =>
          exact insert_nil_spec db fuel hRest pathPrefix v
      | valueNode =>
          have hPast : past = true := hWF
          subst hPast
          exact absurd hRest hKey
      | shortNode nkey nval flags =>
          have hPast : past = false := hWF.1
          subst hPast
          by_cases hMatch : prefixLen key nkey = nkey.length
          · exact insert_shortNode_below db
              (insert_spec v fuel) hWF hRest hFuel hMatch
          · obtain ⟨fuel', rfl⟩ : ∃ fuel',
              fuel = fuel' + 1 :=
              Nat.exists_eq_succ_of_ne_zero (by
                have := List.length_pos_iff.mpr hKey
                omega)
            obtain ⟨n', hInsert, hWritten⟩ :=
              insert_shortNode_split db fuel' hWF hRest v hMatch
            exact ⟨true, n', hInsert, hWritten⟩
      | fullNode children flags =>
          have hPast : past = false := hWF.1
          subst hPast
          obtain ⟨i, rest, rfl⟩ :=
            List.exists_cons_of_ne_nil hKey
          exact insert_fullNode db
            (insert_spec v fuel) hWF pathPrefix hRest hFuel
      | hashNode => exact hWF.elim

end Trie

end PlasmaEvm

------------------------------------------------------------
-- Deletion
------------------------------------------------------------

namespace PlasmaEvm

namespace Trie

variable (db : Database)

/-
  delete with `fuel` removes every rest of a key that fits,
  below every node of the shape.
-/
def DeletesBelow (fuel : Nat) : Prop :=
  ∀ (n : Node) (past : Bool) (pathPrefix key : List Nibble),
    n.WF past → Rest past key →
    key.length < fuel →
    ∃ dirty n', delete db fuel n pathPrefix key =
      .ok (dirty, n') ∧ Written past n key none dirty n'

/-
  A node of the shape is no hash node, so resolve hands it
  back.
-/
theorem resolve_of_wf
    {n : Node}
    {past : Bool}
    (hWF : n.WF past)
    (pathPrefix : List Nibble) :
    resolve db n pathPrefix = .ok n := by
  cases n with
  | hashNode => exact hWF.elim
  | _ => rfl

/-
  A full node with one child left stores what a short node
  of its nibble to that child does.
-/
theorem get_fullNode_of_one
    {children : Fin 17 → Node}
    {pos : Fin 17}
    (hOthers : ∀ j, j ≠ pos → (children j).isNil = true)
    (flags flags' : NodeFlag) :
    (Node.fullNode children flags).get =
      (Node.shortNode [pos] (children pos) flags').get := by
  have hChildren : (fun j => (children j).get) =
      Function.update (fun _ => PrefixMap.empty) pos
        (children pos).get := by
    funext j
    by_cases hJ : j = pos
    · subst hJ
      simp
    · rw [Function.update_of_ne hJ]
      have hNil := hOthers j hJ
      cases hChild : children j <;> simp_all [Node.isNil]
  rw [Node.get_fullNode, hChildren, Node.get_shortNode,
    PrefixMap.prefixed_cons, PrefixMap.prefixed_nil]

/-
  The steps of delete at a short node and at a full node, as
  its do blocks read; the equations Lean derives for delete
  as a whole take too long to build.
-/
theorem delete_shortNode_eq
    (fuel : Nat)
    (nkey : List Nibble)
    (nval : Node)
    (flags : NodeFlag)
    (pathPrefix key : List Nibble) :
    delete db (fuel + 1) (.shortNode nkey nval flags)
      pathPrefix key =
      if prefixLen key nkey < nkey.length
        then .ok (false, .shortNode nkey nval flags)
      else if prefixLen key nkey = key.length
        then .ok (true, .nil)
      else do
        let (dirty, child) ←
          delete db fuel nval (pathPrefix ++
            key.take nkey.length) (key.drop nkey.length)
        if !dirty then
          return (false, .shortNode nkey nval flags)
        match child with
        | .shortNode ckey cval _ =>
            return (true,
              .shortNode (nkey ++ ckey) cval newFlag)
        | _ =>
            return (true,
              .shortNode nkey child newFlag) := rfl

theorem delete_fullNode_eq
    (fuel : Nat)
    (children : Fin 17 → Node)
    (flags : NodeFlag)
    (pathPrefix : List Nibble)
    (i : Nibble)
    (rest : List Nibble) :
    delete db (fuel + 1) (.fullNode children flags)
      pathPrefix (i :: rest) =
      (delete db fuel (children i) (pathPrefix ++
        [i]) rest).bind fun r =>
        if !r.1 then .ok (false, .fullNode children flags)
        else
          let children := Function.update children i r.2
          match remainingPos children with
          | .one pos =>
              if pos ≠ 16 then
                (resolve db (children pos)
                  pathPrefix).bind fun cnode =>
                  match cnode with
                  | .shortNode ckey cval _ =>
                      .ok (true,
                        .shortNode (pos :: ckey) cval newFlag)
                  | _ =>
                      .ok (true,
                        .shortNode [pos] (children pos) newFlag)
              else .ok (true, .shortNode [pos]
                (children pos) newFlag)
          | _ =>
              .ok (true, .fullNode children newFlag) := by
  rfl

/- Nothing to remove below nothing. -/
theorem delete_nil_spec
    (fuel : Nat)
    (past : Bool)
    (pathPrefix key : List Nibble) :
    ∃ dirty n', delete db (fuel + 1) .nil pathPrefix key =
      .ok (dirty, n') ∧
      Written past .nil key none dirty n' := by
  refine ⟨false, .nil, rfl, ⟨trivial, ?_, fun _ => rfl⟩⟩
  rw [Node.get_nil, PrefixMap.update_empty_none]

/-
  A value goes as a whole; it stands where no key is left.
-/
theorem delete_valueNode_spec
    (fuel : Nat)
    (v : Bytes)
    (pathPrefix : List Nibble) :
    ∃ dirty n', delete db (fuel +
      1) (.valueNode v) pathPrefix [] = .ok (dirty, n') ∧
      Written true (.valueNode v) [] none dirty n' := by
  refine ⟨true, .nil, rfl, ⟨trivial, ?_, nofun⟩⟩
  rw [Node.get_nil, Node.get_valueNode,
    PrefixMap.single_eq_update, Function.update_idem,
    PrefixMap.update_empty_none]

/-
  A short node whose key leaves the key removed: nothing to
  remove.
-/
theorem delete_shortNode_miss
    (fuel : Nat)
    {nkey : List Nibble}
    {nval : Node}
    {flags : NodeFlag}
    (hWF : (Node.shortNode nkey nval flags).WF false)
    (pathPrefix key : List Nibble)
    (hMiss : prefixLen key nkey < nkey.length) :
    ∃ dirty n', delete db (fuel +
      1) (.shortNode nkey nval flags) pathPrefix key =
      .ok (dirty, n') ∧
      Written false (.shortNode nkey nval flags) key
        none dirty n' := by
  have hNot : ¬ nkey <+: key := by
    intro hPrefix
    rw [prefixLen, List.commonPrefixLen_comm,
      List.commonPrefixLen_of_prefix hPrefix] at hMiss
    exact Nat.lt_irrefl _ hMiss
  rw [delete_shortNode_eq, if_pos hMiss]
  refine ⟨false, _, rfl, ⟨hWF, ?_, fun _ => rfl⟩⟩
  rw [eq_comm, Function.update_eq_self_iff,
    Node.get_shortNode,
    PrefixMap.prefixed_eq_none hNot]

/-
  A short node to the end of the key removed goes as a
  whole.
-/
theorem delete_shortNode_whole
    (fuel : Nat)
    {nkey : List Nibble}
    {nval : Node}
    {flags : NodeFlag}
    (hWF : (Node.shortNode nkey nval flags).WF false)
    (pathPrefix : List Nibble)
    {key : List Nibble}
    (hRest : Rest false key)
    (hMatch : ¬ prefixLen key nkey < nkey.length)
    (hAll : prefixLen key nkey = key.length) :
    ∃ dirty n', delete db (fuel +
      1) (.shortNode nkey nval flags) pathPrefix key =
      .ok (dirty, n') ∧
      Written false (.shortNode nkey nval flags) key
        none dirty n' := by
  obtain ⟨-, -, -, hVal⟩ := hWF
  rw [delete_shortNode_eq, if_neg hMatch, if_pos hAll]
  have hSame : nkey = key := by
    have hTake := List.take_commonPrefixLen key nkey
    have hLe := List.commonPrefixLen_le_right key nkey
    rw [← prefixLen] at hTake hLe
    rw [hAll, List.take_length] at hTake
    rw [hTake, List.take_of_length_le (by omega)]
  subst hSame
  rw [Rest.hasTerm_eq_true hRest] at hVal
  refine ⟨true, .nil, rfl, ⟨trivial, ?_, nofun⟩⟩
  rw [Node.get_nil, Node.get_shortNode,
    PrefixMap.update_prefixed_self,
    Node.get_of_wf_past hVal,
    Function.update_idem, PrefixMap.update_empty_none,
      PrefixMap.prefixed_empty]

/-
  A short node whose key starts the key removed removes the
  rest below it, and merges with the short node that may be
  left there.
-/
theorem delete_shortNode_below
    {fuel : Nat}
    (hBelow : DeletesBelow db fuel)
    {nkey : List Nibble}
    {nval : Node}
    {flags : NodeFlag}
    (hWF : (Node.shortNode nkey nval flags).WF false)
    (pathPrefix : List Nibble)
    {key : List Nibble}
    (hRest : Rest false key)
    (hFuel : key.length < fuel + 1)
    (hMatch : ¬ prefixLen key nkey < nkey.length)
    (hLonger : prefixLen key nkey ≠ key.length) :
    ∃ dirty n', delete db (fuel +
      1) (.shortNode nkey nval flags) pathPrefix key =
      .ok (dirty, n') ∧
      Written false (.shortNode nkey nval flags) key
        none dirty n' := by
  obtain ⟨-, hNe, hKeyNoTerm, hVal⟩ := hWF
  have hPos : 0 < nkey.length := List.length_pos_iff.mpr hNe
  have hEq : prefixLen key nkey = nkey.length :=
    le_antisymm (List.commonPrefixLen_le_right key nkey)
      (Nat.not_lt.mp hMatch)
  have hPrefix : nkey <+: key := by
    rw [prefixLen, List.commonPrefixLen_comm] at hEq
    exact (List.commonPrefixLen_eq_length_iff nkey key).mp hEq
  have hSplit : key = nkey ++ key.drop nkey.length := by
    conv =>
      lhs; rw [← List.take_append_drop nkey.length key]
    rw [← List.prefix_iff_eq_take.mp hPrefix]
  obtain ⟨dirty, child, hDelete, hWritten⟩ :=
    hBelow nval (hasTerm nkey)
    (pathPrefix ++ key.take nkey.length)
      (key.drop nkey.length) hVal
    (hRest.drop_length hPrefix hNe)
      (by
        have := hPrefix.length_le
        rw [List.length_drop]
        omega)
  have hGet : PrefixMap.prefixed nkey child.get =
      Function.update (PrefixMap.prefixed nkey
        nval.get) key none := by
    rw [hWritten.get, hSplit,
      PrefixMap.update_prefixed, ← hSplit]
  rw [delete_shortNode_eq, if_neg hMatch,
    if_neg hLonger, hDelete]
  cases dirty with
  | false =>
      have hSame : child = nval := hWritten.unchanged rfl
      subst hSame
      refine ⟨false, _, rfl, ⟨⟨rfl, hNe, hKeyNoTerm, hVal⟩,
        ?_, fun _ => rfl⟩⟩
      rw [Node.get_shortNode]
      exact hGet
  | true =>
      cases hChild : child with
      | shortNode ckey cval cflags =>
          rw [hChild] at hWritten hGet
          obtain ⟨hLevel, hCNe, hCKey, hCVal⟩ := hWritten.wf
          have hNoTerm := noTerm_of_hasTerm_false
            hKeyNoTerm hLevel
          refine ⟨true, _, rfl, ⟨⟨rfl, by simp [hNe],
            fun x hx => ?_, ?_⟩, ?_, nofun⟩⟩
          · rw [List.dropLast_append_of_ne_nil hCNe] at hx
            rcases List.mem_append.mp hx with hFront | hBack
            · exact hNoTerm x hFront
            · exact hCKey x hBack
          · rwa [hasTerm_append nkey hCNe]
          · rw [Node.get_shortNode,
              PrefixMap.prefixed_append, ← Node.get_shortNode
              ckey cval cflags]
            exact hGet
      | _ =>
          rw [hChild] at hWritten hGet
          exact ⟨true, _, rfl, ⟨⟨rfl, hNe, hKeyNoTerm,
            hWritten.wf⟩, hGet, nofun⟩⟩

/-
  A short node of one nibble to a child of the shape at that
  nibble.
-/
theorem wf_shortNode_single
    {pos : Nibble}
    {child : Node}
    (hChild : child.WF (decide (pos = 16)))
    (flags : NodeFlag) :
    (Node.shortNode [pos] child flags).WF false :=
  ⟨rfl, List.cons_ne_nil _ _, by simp,
    by rwa [hasTerm_singleton]⟩

/-
  A nibble before the terminator in front of a short node's
  key.
-/
theorem wf_shortNode_cons
    {pos : Nibble}
    (hPos : pos ≠ 16)
    {ckey : List Nibble}
    {cval : Node}
    {cflags : NodeFlag}
    (hChild : (Node.shortNode ckey cval cflags).WF false)
    (flags : NodeFlag) :
    (Node.shortNode (pos :: ckey) cval flags).WF false := by
  obtain ⟨-, hNe, hKey, hVal⟩ := hChild
  have hTerm : hasTerm (pos :: ckey) = hasTerm ckey :=
    hasTerm_append [pos] hNe
  refine ⟨rfl, List.cons_ne_nil _ _, ?_, by rwa [hTerm]⟩
  rw [List.dropLast_cons_of_ne_nil hNe]
  exact List.forall_mem_cons.mpr ⟨hPos, hKey⟩

/-
  A full node whose child changed keeps the map of its
  children: it stays while two or more are left, and becomes
  a short node of the one nibble left otherwise, merged with
  that child when it is a short node.
-/
theorem delete_fullNode_dirty
    {fuel : Nat}
    {children : Fin 17 → Node}
    (flags : NodeFlag)
    (pathPrefix : List Nibble)
    {i : Nibble}
    {rest : List Nibble}
    {nn : Node}
    (hDelete : delete db fuel (children i) (pathPrefix ++
      [i]) rest = .ok (true, nn))
    (hLeft : ∀ j, (Function.update children i nn j).WF
      (decide (j = 16))) :
    ∃ n', delete db (fuel + 1) (.fullNode children flags)
      pathPrefix (i :: rest) = .ok (true, n') ∧
      n'.WF false ∧ n'.get = (Node.fullNode
        (Function.update children i nn) newFlag).get := by
  rw [delete_fullNode_eq, hDelete]
  simp only [Except.bind, Bool.not_true,
    Bool.false_eq_true, if_false]
  generalize Function.update children i nn = left at hLeft ⊢
  split
  · next pos hRem =>
      have hGet := get_fullNode_of_one
        (remainingPos_eq_one hRem).2 newFlag newFlag
      by_cases hPos : pos = 16
      · rw [if_neg (not_not.mpr hPos)]
        exact ⟨_, rfl, wf_shortNode_single
          (hLeft pos) newFlag, hGet.symm⟩
      · have hAt : (left pos).WF false :=
          by simpa [hPos] using hLeft pos
        rw [if_pos hPos, resolve_of_wf db hAt]
        dsimp only
        split
        · next ckey cval cflags hChild =>
            rw [hChild] at hAt hGet
            refine ⟨_, rfl, wf_shortNode_cons hPos
              hAt newFlag, ?_⟩
            rw [hGet, Node.get_shortNode,
              Node.get_shortNode, Node.get_shortNode]
            exact PrefixMap.prefixed_append [pos] ckey cval.get
        · exact ⟨_, rfl, wf_shortNode_single
            (hLeft pos) newFlag, hGet.symm⟩
  · exact ⟨_, rfl, ⟨rfl, hLeft⟩, rfl⟩

/-
  A full node passes the rest of the key on to the child at
  its first nibble.
-/
theorem delete_fullNode
    {fuel : Nat}
    (hBelow : DeletesBelow db fuel)
    {children : Fin 17 → Node}
    {flags : NodeFlag}
    (hWF : (Node.fullNode children flags).WF false)
    (pathPrefix : List Nibble)
    {i : Nibble}
    {rest : List Nibble}
    (hRest : Rest false (i :: rest))
    (hFuel : (i :: rest).length < fuel + 1) :
    ∃ dirty n', delete db (fuel +
      1) (.fullNode children flags) pathPrefix (i :: rest) =
        .ok (dirty, n') ∧ Written false
          (.fullNode children flags) (i ::
          rest) none dirty n' := by
  obtain ⟨-, hChildren⟩ := hWF
  obtain ⟨dirty, nn, hDelete, hWritten⟩ :=
    hBelow (children i) (decide (i = 16))
    (pathPrefix ++ [i]) rest (hChildren i) hRest.tail
      (by simpa using hFuel)
  have hGet : (Node.fullNode (Function.update children i
    nn) newFlag).get =
      Function.update (Node.fullNode children flags).get
        (i :: rest) none := by
    rw [Node.get_fullNode, get_update_children,
      hWritten.get, Node.get_fullNode,
      PrefixMap.update_branch]
  cases dirty with
  | false =>
      have hSame : nn = children i := hWritten.unchanged rfl
      rw [delete_fullNode_eq, hDelete]
      refine ⟨false, _, rfl, ⟨⟨rfl, hChildren⟩,
        ?_, fun _ => rfl⟩⟩
      rw [← hGet, hSame, Function.update_eq_self,
        Node.get_fullNode, Node.get_fullNode]
  | true =>
      have hLeft : ∀ j, (Function.update children i nn j).WF
        (decide (j = 16)) := by
        intro j
        by_cases hJ : j = i
        · subst hJ
          rw [Function.update_self]
          exact hWritten.wf
        · rw [Function.update_of_ne hJ]
          exact hChildren j
      obtain ⟨n', hDeleted, hWF', hGet'⟩ :=
        delete_fullNode_dirty db flags pathPrefix hDelete hLeft
      exact ⟨true, n', hDeleted, ⟨hWF',
        hGet'.trans hGet, nofun⟩⟩

/-
  delete removes the rest of a hex key from a trie in
  memory, with one step of fuel for each nibble and one
  more: by induction on the fuel, over the node the walk is
  at.
-/
theorem delete_spec :
    ∀ fuel, DeletesBelow db fuel
  | 0 =>
      fun _ _ _ _ _ _ hFuel =>
        absurd hFuel (Nat.not_lt_zero _)
  | fuel + 1 => by
      intro n past pathPrefix key hWF hRest hFuel
      cases n with
      | nil =>
          exact delete_nil_spec db fuel past pathPrefix key
      | valueNode v =>
          have hPast : past = true := hWF
          subst hPast
          have hKey : key = [] := hRest
          subst hKey
          exact delete_valueNode_spec db fuel v pathPrefix
      | shortNode nkey nval flags =>
          have hPast : past = false := hWF.1
          subst hPast
          by_cases hMiss : prefixLen key nkey < nkey.length
          · exact delete_shortNode_miss db fuel hWF
              pathPrefix key hMiss
          by_cases hAll : prefixLen key nkey = key.length
          · exact delete_shortNode_whole db fuel hWF
              pathPrefix hRest hMiss hAll
          · exact delete_shortNode_below db
              (delete_spec fuel) hWF pathPrefix hRest
              hFuel hMiss hAll
      | fullNode children flags =>
          have hPast : past = false := hWF.1
          subst hPast
          obtain ⟨i, rest, rfl⟩ :=
            List.exists_cons_of_ne_nil hRest.ne_nil
          exact delete_fullNode db
            (delete_spec fuel) hWF pathPrefix hRest hFuel
      | hashNode => exact hWF.elim

end Trie

end PlasmaEvm
