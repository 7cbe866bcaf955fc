import PlasmaEvm.Trie.Ops
import PlasmaEvm.Data.PrefixMap

/-
  What a trie stores.  `Node.get` reads a node as a map from
  the rest of a key to the value at its end: a short node is
  the map of its child under its key, a full node the branch
  of the maps of its children, and a value node one value.

  The methods walk hex keys: nibbles below 16 and then the
  terminator (`Rest false`), and nothing once the terminator
  is passed (`Rest true`).  The tries they build keep
  `Node.WF`: before the terminator, short nodes with a key
  and full nodes, whose child 16 is past it; after it, a
  value or nothing; and no hash node, as in a trie held in
  memory.  On such a trie tryGet reads the map, loads
  nothing, and needs one step of fuel for each nibble and
  one more.

  Key definitions include:
    * `Trie.Node.get`

  Key statements include:
    * `Trie.Rest.tail`, `Trie.Rest.drop`,
      `Trie.Rest.drop_length`
    * `Trie.Node.get_of_wf_past`
    * `Trie.shortKey_miss_iff`, `Trie.tryGet_of_wf`
    * `Trie.remainingPos_eq_one`,
      `Trie.remainingPos_eq_none`,
      `Trie.remainingPos_eq_several`
-/

------------------------------------------------------------
-- The Map a Node Stores
------------------------------------------------------------

namespace PlasmaEvm

namespace Trie

/-
  The map a node stores, from the rest of a key to the value
  at its end.
-/
def Node.get : Node → List Nibble → Option Bytes
  | .nil => PrefixMap.empty
  | .valueNode value => PrefixMap.single value
  | .shortNode nkey val _ => PrefixMap.prefixed nkey val.get
  | .fullNode children _ =>
      PrefixMap.branch fun i => (children i).get
  | .hashNode _ => PrefixMap.empty

namespace Node

@[simp] theorem get_nil :
    Node.nil.get = PrefixMap.empty := rfl

@[simp] theorem get_valueNode (value : Bytes) :
    (Node.valueNode value).get =
      PrefixMap.single value := rfl

@[simp] theorem get_shortNode
    (nkey : List Nibble)
    (val : Node)
    (flags : NodeFlag) :
    (Node.shortNode nkey val flags).get =
      PrefixMap.prefixed nkey val.get := rfl

@[simp] theorem get_fullNode
    (children : Fin 17 → Node)
    (flags : NodeFlag) :
    (Node.fullNode children flags).get =
      PrefixMap.branch fun i => (children i).get := rfl

/-
  Past the terminator a node holds at most the value at the
  empty rest.
-/
theorem get_of_wf_past
    {n : Node}
    (hWF : n.WF true) :
    n.get =
      Function.update PrefixMap.empty [] (n.get []) := by
  cases n with
  | nil => simp
  | valueNode value =>
      funext k
      by_cases hK : k = [] <;> simp [PrefixMap.single, hK]
  | shortNode => exact Bool.noConfusion hWF.1
  | fullNode => exact Bool.noConfusion hWF.1
  | hashNode => exact hWF.elim

end Node

end Trie

end PlasmaEvm

------------------------------------------------------------
-- Keys
------------------------------------------------------------

namespace PlasmaEvm

namespace Trie

theorem Rest.ne_nil
    {k : List Nibble}
    (hRest : Rest false k) :
    k ≠ [] := by
  obtain ⟨body, -, rfl⟩ := hRest
  simp

/- A key before the terminator ends with it. -/
theorem Rest.hasTerm_eq_true
    {k : List Nibble}
    (hRest : Rest false k) :
    hasTerm k = true := by
  obtain ⟨body, -, rfl⟩ := hRest
  simp [Trie.hasTerm]

/-
  One nibble on: past the terminator if it was the
  terminator.
-/
theorem Rest.tail
    {i : Nibble}
    {r : List Nibble}
    (hRest : Rest false (i :: r)) :
    Rest (decide (i = 16)) r := by
  obtain ⟨body, hBody, hEq⟩ := hRest
  cases body with
  | nil =>
      obtain ⟨rfl, rfl⟩ := List.cons_eq_cons.mp hEq
      rfl
  | cons b body =>
      obtain ⟨hIB, hR⟩ := List.cons_eq_cons.mp hEq
      have hI : i ≠ 16 := hIB ▸ hBody b List.mem_cons_self
      simp only [hI, decide_false]
      exact ⟨body, fun x hx => hBody x
        (List.mem_cons_of_mem b hx), hR⟩

/-
  Before the end of a key, what is taken holds no terminator
  and the rest is a key.
-/
theorem Rest.drop
    {k : List Nibble}
    (hRest : Rest false k)
    {m : Nat}
    (hm : m < k.length) :
    (∀ x ∈ k.take m, x ≠ 16) ∧ Rest false (k.drop m) := by
  obtain ⟨body, hBody, rfl⟩ := hRest
  have hLe : m ≤ body.length :=
    by simpa using Nat.lt_succ_iff.mp (by simpa using hm)
  refine ⟨fun x hx => hBody x ?_, body.drop m, fun x hx =>
    hBody x (List.mem_of_mem_drop hx), ?_⟩
  · rw [List.take_append_of_le_length hLe] at hx
    exact List.mem_of_mem_take hx
  · exact List.drop_append_of_le_length hLe

/-
  A key that starts with a non-empty piece goes on past the
  terminator exactly when the piece ends with it.
-/
theorem Rest.drop_length
    {k nkey : List Nibble}
    (hRest : Rest false k)
    (hPrefix : nkey <+: k)
    (hNe : nkey ≠ []) :
    Rest (hasTerm nkey) (k.drop nkey.length) := by
  obtain ⟨body, hBody, rfl⟩ := hRest
  rcases List.prefix_concat_iff.mp hPrefix with hAll | hPart
  · subst hAll
    simp [hasTerm, Rest]
  · have hLe : nkey.length ≤ body.length := hPart.length_le
    have hLast : nkey.getLast? ≠ some 16 := by
      intro h
      exact hBody 16 (hPart.subset (List.mem_of_getLast? h)) rfl
    have hTerm : hasTerm nkey = false :=
      by simpa [hasTerm] using hLast
    rw [hTerm, List.drop_append_of_le_length hLe]
    exact ⟨body.drop nkey.length, fun x hx =>
      hBody x (List.mem_of_mem_drop hx), rfl⟩

/-
  A key is no proper prefix of a short node's key: its
  terminator would be inside.
-/
theorem Rest.length_le_shortKey
    {k nkey : List Nibble}
    (hRest : Rest false k)
    (hPrefix : k <+: nkey)
    (hKey : ∀ x ∈ nkey.dropLast, x ≠ 16) :
    nkey.length ≤ k.length := by
  obtain ⟨body, -, rfl⟩ := hRest
  obtain ⟨t, rfl⟩ := hPrefix
  by_contra hLong
  have hT : t ≠ [] := by
    rintro rfl
    simp at hLong
  have hIn : (16 : Nibble) ∈ (body ++ [16] ++ t).dropLast := by
    rw [List.dropLast_append_of_ne_nil hT]
    simp
  exact hKey 16 hIn rfl

end Trie

end PlasmaEvm

------------------------------------------------------------
-- Lookups
------------------------------------------------------------

namespace PlasmaEvm

namespace Trie

/-
  tryGet's test on the key of a short node is the prefix
  test: it misses exactly when the key does not start the
  rest of the path.
-/
theorem shortKey_miss_iff
    {nkey key : List Nibble}
    {pos : Nat} :
    (key.length - pos < nkey.length ∨
      nkey ≠ (key.drop pos).take nkey.length) ↔
      ¬ nkey <+: key.drop pos := by
  rw [List.prefix_iff_eq_take, ← List.length_drop]
  constructor
  · rintro (hShort | hNe) hTake
    · have hLe :=
        (List.prefix_iff_eq_take.mpr hTake).length_le
      omega
    · exact hNe hTake
  · intro hNot
    exact Or.inr hNot

/-
  A full node reads the nibble at the position and goes on
  after it.
-/
theorem drop_eq_cons
    {key r : List Nibble}
    {pos : Nat}
    {i : Nibble}
    (hCons : key.drop pos = i :: r) :
    key[pos]? = some i ∧ key.drop (pos + 1) = r := by
  constructor
  · rw [← List.head?_drop, hCons]
    rfl
  · rw [← List.tail_drop, hCons]
    rfl

/-
  On a trie in memory tryGet reads the map the node stores
  at the rest of the key, loads nothing, and returns the
  node itself, with one step of fuel for each nibble and one
  more.
-/
theorem tryGet_of_wf
    (db : Database) :
    ∀ (fuel : Nat) (n : Node) (past : Bool)
      (key : List Nibble) (pos : Nat),
      n.WF past → Rest past (key.drop pos) →
        (key.drop pos).length < fuel →
      tryGet db fuel n key pos =
        .ok (n.get (key.drop pos), n, false)
  | 0, _, _, _, _, _, _, hFuel =>
      absurd hFuel (Nat.not_lt_zero _)
  | fuel + 1, n, past, key, pos, hWF, hRest, hFuel => by
      cases n with
      | nil => simp [tryGet]
      | valueNode value =>
          have hPast : past = true := hWF
          subst hPast
          have hEmpty : key.drop pos = [] := hRest
          simp [tryGet, hEmpty, PrefixMap.single]
      | shortNode nkey nval flags =>
          obtain ⟨rfl, hNe, -, hVal⟩ := hWF
          by_cases hPrefix : nkey <+: key.drop pos
          · have hLe : nkey.length ≤
              (key.drop pos).length := hPrefix.length_le
            have hPos : 0 < nkey.length :=
              List.length_pos_iff.mpr hNe
            have hDrop : (key.drop pos).drop nkey.length =
              key.drop (pos + nkey.length) :=
              List.drop_drop
            have hBelow := tryGet_of_wf db fuel nval
              (hasTerm nkey) key (pos + nkey.length) hVal
              (hDrop ▸ hRest.drop_length hPrefix hNe)
              (by rw [← hDrop, List.length_drop]; omega)
            have hFound := mt shortKey_miss_iff.mp
              (not_not.mpr hPrefix)
            simp only [tryGet, hFound, if_false, hBelow]
            simp [PrefixMap.prefixed, hPrefix, hDrop]
          · simp [tryGet, shortKey_miss_iff.mpr hPrefix,
              PrefixMap.prefixed_eq_none hPrefix]
      | fullNode children flags =>
          obtain ⟨rfl, hChildren⟩ := hWF
          obtain ⟨i, r, hCons⟩ :=
            List.exists_cons_of_ne_nil hRest.ne_nil
          obtain ⟨hAt, hNext⟩ := drop_eq_cons hCons
          have hBelow := tryGet_of_wf db fuel (children i)
            (decide (i = 16)) key (pos + 1)
            (hChildren i) (hNext ▸ (hCons ▸ hRest).tail)
            (by
              rw [hNext]
              rw [hCons] at hFuel
              simpa using hFuel)
          simp [tryGet, hAt, hBelow, hCons, hNext]
      | hashNode => exact hWF.elim

end Trie

end PlasmaEvm

------------------------------------------------------------
-- The Children Left in a Full Node
------------------------------------------------------------

namespace PlasmaEvm

namespace Trie

/-
  What the loop of delete knows after some of the children:
  none of them is set, one is, or two different ones are.
-/
def RemainingAgrees
    (children : Fin 17 → Node) :
    Remaining → List (Fin 17) → Prop
  | .none, seen => ∀ j ∈ seen, (children j).isNil = true
  | .one pos, seen =>
      pos ∈ seen ∧ (children pos).isNil = false ∧
      ∀ j ∈ seen, j ≠ pos → (children j).isNil = true
  | .several, seen =>
      ∃ i ∈ seen, ∃ j ∈ seen, i ≠ j ∧
        (children i).isNil = false ∧
      (children j).isNil = false

/- One more child, not seen before. -/
theorem RemainingAgrees.step
    {children : Fin 17 → Node}
    {r : Remaining}
    {seen : List (Fin 17)}
    (hAgrees : RemainingAgrees children r seen)
    {i : Fin 17}
    (hNew : i ∉ seen) :
    RemainingAgrees children (remainingStep children r i)
      (seen ++ [i]) := by
  cases r with
  | none =>
      simp only [RemainingAgrees] at hAgrees
      simp only [remainingStep]
      split
      · next hNil =>
          simp only [RemainingAgrees]
          intro j hj
          rcases List.mem_append.mp hj with hOld | hI
          · exact hAgrees j hOld
          · rw [List.mem_singleton.mp hI]
            exact hNil
      · next hSet =>
          simp only [RemainingAgrees]
          refine ⟨by simp, by simpa using hSet,
            fun j hj hNe => ?_⟩
          rcases List.mem_append.mp hj with hOld | hI
          · exact hAgrees j hOld
          · exact absurd (List.mem_singleton.mp hI) hNe
  | one pos =>
      simp only [RemainingAgrees] at hAgrees
      obtain ⟨hPos, hSet, hOthers⟩ := hAgrees
      simp only [remainingStep]
      split
      · next hNil =>
          simp only [RemainingAgrees]
          refine ⟨List.mem_append_left _ hPos, hSet,
            fun j hj hNe => ?_⟩
          rcases List.mem_append.mp hj with hOld | hI
          · exact hOthers j hOld hNe
          · rw [List.mem_singleton.mp hI]
            exact hNil
      · next hSetI =>
          have hNe : pos ≠ i := fun h => hNew (h ▸ hPos)
          exact ⟨pos, List.mem_append_left _ hPos, i,
            by simp, hNe, hSet, by simpa using hSetI⟩
  | several =>
      obtain ⟨a, ha, b, hb, hAB, hA, hB⟩ := hAgrees
      exact ⟨a, List.mem_append_left _ ha, b,
        List.mem_append_left _ hb, hAB, hA, hB⟩

/-
  The loop over the children, by the list of those it has
  still to see.
-/
theorem RemainingAgrees.foldl
    {children : Fin 17 → Node} :
    ∀ (rest : List (Fin 17)) (r : Remaining)
      (seen : List (Fin 17)),
      (seen ++ rest).Nodup →
        RemainingAgrees children r seen →
      RemainingAgrees children (rest.foldl
        (remainingStep children) r) (seen ++ rest)
  | [], r, seen, _, hAgrees => by simpa using hAgrees
  | i :: rest, r, seen, hNodup, hAgrees => by
      have hNew : i ∉ seen := fun hIn =>
        (List.nodup_append.mp hNodup).2.2 i hIn i
          List.mem_cons_self rfl
      have hNext := RemainingAgrees.foldl rest
        (remainingStep children r i) (seen ++ [i])
        (by simpa using hNodup) (hAgrees.step hNew)
      simpa using hNext

/- The loop over all seventeen children. -/
theorem remainingPos_agrees
    (children : Fin 17 → Node) :
    RemainingAgrees children (remainingPos children)
      (List.finRange 17) := by
  have hAll := @RemainingAgrees.foldl children
    (List.finRange 17) .none []
    (by simpa using List.nodup_finRange 17) (fun _ h =>
      absurd h List.not_mem_nil)
  rwa [List.nil_append] at hAll

/- One child left: it is set and every other is nil. -/
theorem remainingPos_eq_one
    {children : Fin 17 → Node}
    {pos : Fin 17}
    (hOne : remainingPos children = .one pos) :
    (children pos).isNil = false ∧ ∀ j, j ≠ pos →
      (children j).isNil = true := by
  have hAll := remainingPos_agrees children
  rw [hOne] at hAll
  exact ⟨hAll.2.1, fun j hNe => hAll.2.2 j
    (List.mem_finRange j) hNe⟩

/- No child left: every one is nil. -/
theorem remainingPos_eq_none
    {children : Fin 17 → Node}
    (hNone : remainingPos children = .none) :
    ∀ j, (children j).isNil = true := by
  have hAll := remainingPos_agrees children
  rw [hNone] at hAll
  exact fun j => hAll j (List.mem_finRange j)

/- Several children left: two different ones are set. -/
theorem remainingPos_eq_several
    {children : Fin 17 → Node}
    (hSeveral : remainingPos children = .several) :
    ∃ i j, i ≠ j ∧ (children i).isNil = false ∧
      (children j).isNil = false := by
  have hAll := remainingPos_agrees children
  rw [hSeveral] at hAll
  obtain ⟨i, -, j, -, hIJ, hI, hJ⟩ := hAll
  exact ⟨i, j, hIJ, hI, hJ⟩

end Trie

end PlasmaEvm
