import PlasmaEvm.Trie.Update
import PlasmaEvm.Control.Except

/-
  The minimal form of a trie, which insert and delete keep.
  In it (`Node.Canon`) a short node stands over a full node
  or a value, never over nothing or over another short node,
  and a full node has two children set or more.  insert
  keeps the form: a split makes a branch of two children,
  and a write below a full node or a value leaves a full
  node or a value.  delete keeps it by its two repairs: a
  short node left over a short node merges with it, and a
  full node left with one child becomes a short node to that
  child, merged with it when it is short.  Neither caches a
  hash (`Node.NoCache`): every node they make has a new
  flag.

  Key definitions include:
    * `Trie.SeveralSet`
    * `Trie.Node.isFullOrValue`, `Trie.Node.isInner`
    * `Trie.Node.Canon`, `Trie.Node.NoCache`,
      `Trie.Node.Tidy`

  Key statements include:
    * `Trie.Node.tidy_shortNode_iff`,
      `Trie.Node.tidy_fullNode_iff`
    * `Trie.insert_keeps_tidy`, `Trie.delete_keeps_tidy`
-/

------------------------------------------------------------
-- Minimal Form
------------------------------------------------------------

namespace PlasmaEvm

namespace Trie

/- Two different children of a full node are set. -/
def SeveralSet (children : Fin 17 → Node) : Prop :=
  ∃ i j, i ≠ j ∧ (children i).isNil = false ∧
    (children j).isNil = false

/-
  A child set stays set, and a new one set keeps two set.
-/
theorem SeveralSet.update
    {children : Fin 17 → Node}
    (hSeveral : SeveralSet children)
    (i : Fin 17)
    {nn : Node}
    (hSet : nn.isNil = false) :
    SeveralSet (Function.update children i nn) := by
  obtain ⟨a, b, hAB, hA, hB⟩ := hSeveral
  have hKeep : ∀ j, (children j).isNil = false →
    (Function.update children i nn j).isNil = false := by
    intro j hJ
    by_cases hJI : j = i
    · subst hJI
      rwa [Function.update_self]
    · rwa [Function.update_of_ne hJI]
  exact ⟨a, b, hAB, hKeep a hA, hKeep b hB⟩

namespace Node

/-
  A full node or a value: what a short node of minimal form
  stands over.
-/
def isFullOrValue : Node → Bool
  | .fullNode _ _ => true
  | .valueNode _ => true
  | _ => false

/-
  A short or a full node: what delete leaves of a full node.
-/
def isInner : Node → Bool
  | .shortNode _ _ _ => true
  | .fullNode _ _ => true
  | _ => false

/-
  Minimal form: a short node stands over a full node or a
  value, and a full node has two children set or more.
-/
def Canon : Node → Prop
  | .shortNode _ val _ =>
      val.isFullOrValue = true ∧ val.Canon
  | .fullNode children _ =>
      SeveralSet children ∧ ∀ i, (children i).Canon
  | _ => True

/- No hash is cached in the node or below it. -/
def NoCache : Node → Prop
  | .shortNode _ val flags =>
      flags.hash = none ∧ val.NoCache
  | .fullNode children flags =>
      flags.hash = none ∧ ∀ i, (children i).NoCache
  | _ => True

/-
  A node as the methods leave it from the empty trie on:
  minimal, with no hash cached.
-/
structure Tidy (n : Node) : Prop where
  canon : n.Canon
  noCache : n.NoCache

theorem tidy_nil : Node.nil.Tidy :=
  ⟨trivial, trivial⟩

theorem tidy_valueNode
    (v : Bytes) :
    (Node.valueNode v).Tidy :=
  ⟨trivial, trivial⟩

theorem tidy_shortNode_iff
    {key : List Nibble}
    {val : Node}
    {flags : NodeFlag} :
    (Node.shortNode key val flags).Tidy ↔
      flags.hash = none ∧ val.isFullOrValue =
        true ∧ val.Tidy := by
  constructor
  · rintro ⟨⟨hKind, hCanon⟩, ⟨hFlags, hNoCache⟩⟩
    exact ⟨hFlags, hKind, hCanon, hNoCache⟩
  · rintro ⟨hFlags, hKind, hCanon, hNoCache⟩
    exact ⟨⟨hKind, hCanon⟩, ⟨hFlags, hNoCache⟩⟩

theorem tidy_fullNode_iff
    {children : Fin 17 → Node}
    {flags : NodeFlag} :
    (Node.fullNode children flags).Tidy ↔
      flags.hash = none ∧ SeveralSet children ∧ ∀ i,
        (children i).Tidy := by
  constructor
  · rintro ⟨⟨hSeveral, hCanon⟩, ⟨hFlags, hNoCache⟩⟩
    exact ⟨hFlags, hSeveral, fun i =>
      ⟨hCanon i, hNoCache i⟩⟩
  · rintro ⟨hFlags, hSeveral, hChildren⟩
    exact ⟨⟨hSeveral, fun i => (hChildren i).canon⟩,
      ⟨hFlags, fun i => (hChildren i).noCache⟩⟩

/-
  A new short node over a full node or a value is tidy when
  its child is.
-/
theorem tidy_shortNode
    (key : List Nibble)
    {val : Node}
    (hKind : val.isFullOrValue = true)
    (hVal : val.Tidy) :
    (Node.shortNode key val newFlag).Tidy :=
  tidy_shortNode_iff.mpr ⟨rfl, hKind, hVal⟩

/-
  A new full node with two children set is tidy when its
  children are.
-/
theorem tidy_fullNode
    {children : Fin 17 → Node}
    (hSeveral : SeveralSet children)
    (hChildren : ∀ i, (children i).Tidy) :
    (Node.fullNode children newFlag).Tidy :=
  tidy_fullNode_iff.mpr ⟨rfl, hSeveral, hChildren⟩

/-
  A node set, not short, of the shape: a full node or a
  value.
-/
theorem isFullOrValue_of_wf
    {n : Node}
    {past : Bool}
    (hWF : n.WF past)
    (hSet : n.isNil = false)
    (hNotShort : ∀ key val flags,
      n ≠ .shortNode key val flags) :
    n.isFullOrValue = true := by
  cases n with
  | nil => exact absurd hSet Bool.noConfusion
  | shortNode key val flags =>
      exact absurd rfl (hNotShort key val flags)
  | hashNode => exact hWF.elim
  | _ => rfl

end Node

end Trie

end PlasmaEvm

------------------------------------------------------------
-- insert Keeps the Form
------------------------------------------------------------

namespace PlasmaEvm

namespace Trie

variable (db : Database)

/-
  insert with `fuel` keeps every tidy node of the shape
  tidy, at every rest of a key that fits; what it leaves is
  never nothing, and is a full node or a value where one
  stood.
-/
def InsertKeepsTidy (fuel : Nat) (v : Bytes) : Prop :=
  ∀ (n : Node) (past : Bool) (pathPrefix key : List Nibble)
    (dirty : Bool) (n' : Node),
    n.WF past → Rest past key → key.length < fuel → n.Tidy →
    insert db fuel n pathPrefix key (.valueNode v) =
      .ok (dirty, n') →
    n'.Tidy ∧ n'.isNil = false ∧ (n.isFullOrValue = true →
      n'.isFullOrValue = true)

/- At the end of the key insert leaves the value. -/
theorem insert_end_result
    {fuel : Nat}
    {n : Node}
    {pathPrefix : List Nibble}
    {v : Bytes}
    {dirty : Bool}
    {n' : Node}
    (hInsert : insert db (fuel +
      1) n pathPrefix [] (.valueNode v) = .ok (dirty, n')) :
    n' = .valueNode v := by
  cases n <;>
    simp [insert] at hInsert <;> exact hInsert.2.symm

/-
  A split leaves a branch of two children, each tidy, under
  a tidy short node.
-/
theorem splitBranch_tidy
    {m : Nat}
    {common : List Nibble}
    {old new : Nibble}
    (hNew : new ≠ old)
    {oldRest newRest : List Nibble}
    {nval : Node}
    (hKind : nval.isFullOrValue = true)
    (hVal : nval.Tidy)
    (v : Bytes) :
    (splitBranch m common old oldRest nval new newRest
      (.valueNode v)).Tidy ∧
      (splitBranch m common old oldRest nval new newRest
        (.valueNode v)).isNil = false := by
  unfold splitBranch
  dsimp only
  generalize hOldChild : (if oldRest = []
    then nval
      else Node.shortNode oldRest nval newFlag) = oldChild
  generalize hNewChild :
    (if newRest = []
      then Node.valueNode v else Node.shortNode newRest
        (.valueNode v) newFlag) = newChild
  have hOld : oldChild.Tidy ∧ oldChild.isNil = false := by
    rw [← hOldChild]
    split
    · exact ⟨hVal,
        by
          cases nval <;> simp_all
            [Node.isFullOrValue, Node.isNil]⟩
    · exact ⟨Node.tidy_shortNode oldRest hKind hVal, rfl⟩
  have hNewTidy : newChild.Tidy ∧
    newChild.isNil = false := by
    rw [← hNewChild]
    split
    · exact ⟨Node.tidy_valueNode v, rfl⟩
    · exact ⟨Node.tidy_shortNode newRest rfl
        (Node.tidy_valueNode v), rfl⟩
  have hBranch : (Node.fullNode (Function.update
    (Function.update emptyChildren old oldChild) new
      newChild) newFlag).Tidy := by
    have hSeveral : SeveralSet (Function.update
      (Function.update emptyChildren old oldChild) new
        newChild) :=
      ⟨new, old, hNew,
        by rw [Function.update_self]; exact hNewTidy.2,
        by
          rw [Function.update_of_ne (Ne.symm hNew),
            Function.update_self]
          exact hOld.2⟩
    refine Node.tidy_fullNode hSeveral fun i => ?_
    by_cases hI : i = new
    · subst hI
      rw [Function.update_self]
      exact hNewTidy.1
    · rw [Function.update_of_ne hI]
      by_cases hI' : i = old
      · subst hI'
        rw [Function.update_self]
        exact hOld.1
      · rw [Function.update_of_ne hI']
        exact Node.tidy_nil
  split
  · exact ⟨hBranch, rfl⟩
  · exact ⟨Node.tidy_shortNode common rfl hBranch, rfl⟩

/-
  A short node whose key starts the key written stays over a
  full node or a value.
-/
theorem insert_shortNode_below_tidy
    {fuel : Nat}
    {v : Bytes}
    (hBelow : InsertKeepsTidy db fuel v)
    {nkey : List Nibble}
    {nval : Node}
    {flags : NodeFlag}
    (hWF : (Node.shortNode nkey nval flags).WF false)
    (hTidy : (Node.shortNode nkey nval flags).Tidy)
    {pathPrefix key : List Nibble}
    (hRest : Rest false key)
    (hFuel : key.length < fuel + 1)
    (hMatch : prefixLen key nkey = nkey.length)
    {dirty : Bool}
    {n' : Node}
    (hInsert : insert db (fuel +
      1) (.shortNode nkey nval flags) pathPrefix key
      (.valueNode v) =
      .ok (dirty, n')) :
    n'.Tidy ∧ n'.isNil = false := by
  obtain ⟨-, hNe, -, hVal⟩ := hWF
  obtain ⟨-, hKind, hValTidy⟩ :=
    Node.tidy_shortNode_iff.mp hTidy
  have hPrefix : nkey <+: key := by
    rw [prefixLen, List.commonPrefixLen_comm] at hMatch
    exact (List.commonPrefixLen_eq_length_iff nkey key).mp hMatch
  have hPos : 0 < nkey.length := List.length_pos_iff.mpr hNe
  unfold insert at hInsert
  simp only [hRest.ne_nil, if_false, hMatch, if_true,
    Except.bind_eq_ok] at hInsert
  obtain ⟨⟨d, nn⟩, hChild, hResult⟩ := hInsert
  obtain ⟨hNnTidy, -, hNnKind⟩ :=
    hBelow nval (hasTerm nkey) _ _ d nn hVal
    (hRest.drop_length hPrefix hNe)
    (by
      have := hPrefix.length_le
      rw [List.length_drop]
      omega)
      hValTidy hChild
  cases d with
  | false =>
      simp only [Bool.not_false, if_true, Except.pure_eq_ok,
        Prod.mk.injEq] at hResult
      rw [← hResult.2]
      exact ⟨hTidy, rfl⟩
  | true =>
      simp only [Bool.not_true, Bool.false_eq_true,
        if_false, Except.pure_eq_ok,
        Prod.mk.injEq] at hResult
      rw [← hResult.2]
      exact ⟨Node.tidy_shortNode nkey
        (hNnKind hKind) hNnTidy, rfl⟩

/-
  A full node stays a full node, with the child written set.
-/
theorem insert_fullNode_tidy
    {fuel : Nat}
    {v : Bytes}
    (hBelow : InsertKeepsTidy db fuel v)
    {children : Fin 17 → Node}
    {flags : NodeFlag}
    (hWF : (Node.fullNode children flags).WF false)
    (hTidy : (Node.fullNode children flags).Tidy)
    (pathPrefix : List Nibble)
    {i : Nibble}
    {rest : List Nibble}
    (hRest : Rest false (i :: rest))
    (hFuel : (i :: rest).length < fuel + 1)
    {dirty : Bool}
    {n' : Node}
    (hInsert : insert db (fuel +
      1) (.fullNode children flags) pathPrefix (i :: rest)
      (.valueNode v) = .ok (dirty, n')) :
    n'.Tidy ∧ n'.isFullOrValue = true := by
  obtain ⟨-, hChildren⟩ := hWF
  obtain ⟨-, hSeveral, hChildrenTidy⟩ :=
    Node.tidy_fullNode_iff.mp hTidy
  unfold insert at hInsert
  simp only [List.cons_ne_nil, if_false,
    Except.bind_eq_ok] at hInsert
  obtain ⟨⟨d, nn⟩, hChild, hResult⟩ := hInsert
  obtain ⟨hNnTidy, hNnSet, -⟩ :=
    hBelow (children i) (decide (i = 16)) _ _ d nn (hChildren i)
    hRest.tail (by simpa using hFuel) (hChildrenTidy i) hChild
  cases d with
  | false =>
      simp only [Bool.not_false, if_true, Except.pure_eq_ok,
        Prod.mk.injEq] at hResult
      rw [← hResult.2]
      exact ⟨hTidy, rfl⟩
  | true =>
      simp only [Bool.not_true, Bool.false_eq_true,
        if_false, Except.pure_eq_ok,
        Prod.mk.injEq] at hResult
      rw [← hResult.2]
      refine ⟨Node.tidy_fullNode
        (hSeveral.update i hNnSet) fun j => ?_, rfl⟩
      by_cases hJ : j = i
      · subst hJ
        rw [Function.update_self]
        exact hNnTidy
      · rw [Function.update_of_ne hJ]
        exact hChildrenTidy j

/-
  insert keeps the form: by induction on the fuel, over the
  node the walk is at.
-/
theorem insert_keeps_tidy
    (v : Bytes) :
    ∀ fuel, InsertKeepsTidy db fuel v
  | 0 =>
      fun _ _ _ _ _ _ _ _ hFuel =>
        absurd hFuel (Nat.not_lt_zero _)
  | fuel + 1 => by
      intro n past pathPrefix key dirty n' hWF hRest
        hFuel hTidy hInsert
      by_cases hKey : key = []
      · subst hKey
        rw [insert_end_result db hInsert]
        exact ⟨Node.tidy_valueNode v, rfl, fun _ => rfl⟩
      cases n with
      | nil =>
          rw [insert_nil, if_neg hKey, Except.ok.injEq,
            Prod.mk.injEq] at hInsert
          rw [← hInsert.2]
          exact ⟨Node.tidy_shortNode key rfl
            (Node.tidy_valueNode v), rfl, nofun⟩
      | valueNode =>
          have hPast : past = true := hWF
          subst hPast
          exact absurd hRest hKey
      | shortNode nkey nval flags =>
          have hPast : past = false := hWF.1
          subst hPast
          suffices hTidy' : n'.Tidy ∧ n'.isNil = false
            from ⟨hTidy'.1, hTidy'.2, nofun⟩
          by_cases hMatch : prefixLen key nkey = nkey.length
          · exact insert_shortNode_below_tidy db
              (insert_keeps_tidy v fuel) hWF hTidy hRest hFuel
              hMatch hInsert
          · obtain ⟨fuel', rfl⟩ : ∃ fuel',
              fuel = fuel' + 1 :=
              Nat.exists_eq_succ_of_ne_zero (by
                have := List.length_pos_iff.mpr hKey
                omega)
            obtain ⟨hmN, hmK⟩ :=
              split_bounds hWF hRest hMatch
            rw [insert_shortNode_split_eq db fuel' nkey nval
              flags pathPrefix v hKey hmN hmK,
              Except.ok.injEq, Prod.mk.injEq] at hInsert
            rw [← hInsert.2]
            obtain ⟨-, hKind, hValTidy⟩ :=
              Node.tidy_shortNode_iff.mp hTidy
            exact splitBranch_tidy
              (List.getElem_commonPrefixLen_ne key nkey hmK
              hmN) hKind hValTidy v
      | fullNode children flags =>
          have hPast : past = false := hWF.1
          subst hPast
          obtain ⟨i, rest, rfl⟩ :=
            List.exists_cons_of_ne_nil hKey
          obtain ⟨hTidy', hKind⟩ :=
            insert_fullNode_tidy db
            (insert_keeps_tidy v fuel) hWF hTidy
            pathPrefix hRest hFuel hInsert
          exact ⟨hTidy',
            by
              cases n' <;> simp_all [Node.isFullOrValue,
                Node.isNil], fun _ => hKind⟩
      | hashNode => exact hWF.elim

end Trie

end PlasmaEvm

------------------------------------------------------------
-- delete Keeps the Form
------------------------------------------------------------

namespace PlasmaEvm

namespace Trie

variable (db : Database)

/-
  delete with `fuel` keeps every tidy node of the shape
  tidy, at every rest of a key that fits; of a full node it
  leaves a short or a full node, never nothing.
-/
def DeleteKeepsTidy (fuel : Nat) : Prop :=
  ∀ (n : Node) (past : Bool) (pathPrefix key : List Nibble)
    (dirty : Bool) (n' : Node),
    n.WF past → Rest past key → key.length < fuel → n.Tidy →
    delete db fuel n pathPrefix key = .ok (dirty, n') →
    n'.Tidy ∧ ∀ children flags, n =
      .fullNode children flags → n'.isInner = true

/-
  What delete leaves of a node of the shape has the shape.
-/
theorem delete_wf
    {fuel : Nat}
    {n : Node}
    {past : Bool}
    {pathPrefix key : List Nibble}
    {dirty : Bool}
    {n' : Node}
    (hWF : n.WF past)
    (hRest : Rest past key)
    (hFuel : key.length < fuel)
    (hDelete : delete db fuel n pathPrefix key =
      .ok (dirty, n')) :
    n'.WF past := by
  obtain ⟨dirty', n'', hDelete', hWritten⟩ :=
    delete_spec db fuel n past pathPrefix key hWF hRest hFuel
  rw [hDelete, Except.ok.injEq, Prod.mk.injEq] at hDelete'
  rw [hDelete'.2]
  exact hWritten.wf

/- Of two children set, one is not the child `i`. -/
theorem SeveralSet.exists_ne
    {children : Fin 17 → Node}
    (hSeveral : SeveralSet children)
    (i : Fin 17) :
    ∃ j, j ≠ i ∧ (children j).isNil = false := by
  obtain ⟨a, b, hAB, hA, hB⟩ := hSeveral
  by_cases hAI : a = i
  · exact ⟨b, fun hBI => hAB (hAI.trans hBI.symm), hB⟩
  · exact ⟨a, hAI, hA⟩

/-
  A short node whose key starts the key removed stands over
  a full node, whose remains are a short node, merged with
  it, or a full one.
-/
theorem delete_shortNode_below_tidy
    {fuel : Nat}
    (hBelow : DeleteKeepsTidy db fuel)
    {nkey : List Nibble}
    {nval : Node}
    {flags : NodeFlag}
    (hWF : (Node.shortNode nkey nval flags).WF false)
    (hTidy : (Node.shortNode nkey nval flags).Tidy)
    {pathPrefix key : List Nibble}
    (hRest : Rest false key)
    (hFuel : key.length < fuel + 1)
    (hMatch : ¬ prefixLen key nkey < nkey.length)
    (hLonger : prefixLen key nkey ≠ key.length)
    {dirty : Bool}
    {n' : Node}
    (hDelete : delete db (fuel +
      1) (.shortNode nkey nval flags) pathPrefix key =
      .ok (dirty, n')) :
    n'.Tidy := by
  obtain ⟨-, hNe, -, hVal⟩ := hWF
  obtain ⟨-, hKind, hValTidy⟩ :=
    Node.tidy_shortNode_iff.mp hTidy
  have hEq : prefixLen key nkey = nkey.length :=
    le_antisymm (List.commonPrefixLen_le_right key nkey)
      (Nat.not_lt.mp hMatch)
  have hPrefix : nkey <+: key := by
    rw [prefixLen, List.commonPrefixLen_comm] at hEq
    exact (List.commonPrefixLen_eq_length_iff nkey key).mp hEq
  have hPos : 0 < nkey.length := List.length_pos_iff.mpr hNe
  have hRestBelow : Rest (hasTerm nkey)
    (key.drop nkey.length) := hRest.drop_length hPrefix hNe
  obtain ⟨children, cflags, rfl⟩ : ∃ children cflags,
    nval = .fullNode children cflags := by
    cases nval with
    | fullNode children cflags =>
        exact ⟨children, cflags, rfl⟩
    | valueNode =>
        have hTerm : hasTerm nkey = true := hVal
        rw [hTerm] at hRestBelow
        have hShort : key.length ≤ nkey.length :=
          List.drop_eq_nil_iff.mp hRestBelow
        have hLe := List.commonPrefixLen_le_left key nkey
        exact absurd (by
          rw [prefixLen] at hEq ⊢
          omega) hLonger
    | _ => simp [Node.isFullOrValue] at hKind
  rw [delete_shortNode_eq, if_neg hMatch, if_neg hLonger,
    Except.bind_eq_ok] at hDelete
  obtain ⟨⟨d, child⟩, hChild, hResult⟩ := hDelete
  obtain ⟨hChildTidy, hInner⟩ :=
    hBelow _ (hasTerm nkey) _ _ d child hVal hRestBelow
    (by
      have := hPrefix.length_le
      rw [List.length_drop]
      omega)
      hValTidy hChild
  have hChildInner := hInner children cflags rfl
  cases d with
  | false =>
      simp only [Bool.not_false, if_true, Except.pure_eq_ok,
        Prod.mk.injEq] at hResult
      rw [← hResult.2]
      exact hTidy
  | true =>
      cases child with
      | shortNode ckey cval cflags' =>
          obtain ⟨-, hCKind, hCTidy⟩ :=
            Node.tidy_shortNode_iff.mp hChildTidy
          simp only [Bool.not_true, Bool.false_eq_true,
            if_false, Except.pure_eq_ok,
            Prod.mk.injEq] at hResult
          rw [← hResult.2]
          exact Node.tidy_shortNode _ hCKind hCTidy
      | fullNode ch fl =>
          simp only [Bool.not_true, Bool.false_eq_true,
            if_false, Except.pure_eq_ok,
            Prod.mk.injEq] at hResult
          rw [← hResult.2]
          exact Node.tidy_shortNode nkey rfl hChildTidy
      | _ => simp [Node.isInner] at hChildInner

/-
  A full node that loses a child stays a full node while two
  are set, and becomes a short node to the one left
  otherwise, merged with it when it is short.
-/
theorem delete_fullNode_tidy
    {fuel : Nat}
    (hBelow : DeleteKeepsTidy db fuel)
    {children : Fin 17 → Node}
    {flags : NodeFlag}
    (hWF : (Node.fullNode children flags).WF false)
    (hTidy : (Node.fullNode children flags).Tidy)
    (pathPrefix : List Nibble)
    {i : Nibble}
    {rest : List Nibble}
    (hRest : Rest false (i :: rest))
    (hFuel : (i :: rest).length < fuel + 1)
    {dirty : Bool}
    {n' : Node}
    (hDelete : delete db (fuel +
      1) (.fullNode children flags) pathPrefix (i :: rest) =
      .ok (dirty, n')) :
    n'.Tidy ∧ n'.isInner = true := by
  obtain ⟨-, hChildren⟩ := hWF
  obtain ⟨-, hSeveral, hChildrenTidy⟩ :=
    Node.tidy_fullNode_iff.mp hTidy
  rw [delete_fullNode_eq] at hDelete
  obtain ⟨⟨d, nn⟩, hChild, hResult⟩ :=
    Except.bind_eq_ok.mp hDelete
  have hRestChild := hRest.tail
  have hFuelChild : rest.length < fuel :=
    by simpa using hFuel
  obtain ⟨hNnTidy, -⟩ := hBelow (children i) (decide (i =
    16)) _ _ d nn (hChildren i)
    hRestChild hFuelChild (hChildrenTidy i) hChild
  cases d with
  | false =>
      simp only [Bool.not_false, if_true, Except.ok.injEq,
        Prod.mk.injEq] at hResult
      rw [← hResult.2]
      exact ⟨hTidy, rfl⟩
  | true =>
      have hNnWF := delete_wf db
        (hChildren i) hRestChild hFuelChild hChild
      simp only [Bool.not_true, Bool.false_eq_true,
        if_false] at hResult
      have hLeft : ∀ j, (Function.update children i nn j).WF
        (decide (j = 16)) ∧
          (Function.update children i nn j).Tidy := by
        intro j
        by_cases hJ : j = i
        · subst hJ
          rw [Function.update_self]
          exact ⟨hNnWF, hNnTidy⟩
        · rw [Function.update_of_ne hJ]
          exact ⟨hChildren j, hChildrenTidy j⟩
      obtain ⟨k, hKI, hKSet⟩ := hSeveral.exists_ne i
      have hKLeft : (Function.update children i nn
        k).isNil = false := by
        rwa [Function.update_of_ne hKI]
      generalize Function.update children i nn =
        left at hLeft hKLeft hResult
      split at hResult
      · next pos hRem =>
          have hPosSet := (remainingPos_eq_one hRem).1
          obtain ⟨hPosWF, hPosTidy⟩ := hLeft pos
          by_cases hPos : pos = 16
          · rw [if_neg (not_not.mpr hPos), Except.ok.injEq,
              Prod.mk.injEq] at hResult
            rw [← hResult.2]
            have hKind : (left pos).isFullOrValue = true :=
              Node.isFullOrValue_of_wf hPosWF hPosSet
                fun key val flags hShort => by
                rw [hShort, hPos] at hPosWF
                exact Bool.noConfusion hPosWF.1
            exact ⟨Node.tidy_shortNode _ hKind hPosTidy, rfl⟩
          · have hAt : (left pos).WF false :=
              by simpa [hPos] using hPosWF
            rw [if_pos hPos,
              resolve_of_wf db hAt] at hResult
            simp only [Except.bind] at hResult
            split at hResult
            · next ckey cval cflags hShort =>
                rw [hShort] at hPosTidy
                obtain ⟨-, hCKind, hCTidy⟩ :=
                  Node.tidy_shortNode_iff.mp hPosTidy
                rw [Except.ok.injEq,
                  Prod.mk.injEq] at hResult
                rw [← hResult.2]
                exact ⟨Node.tidy_shortNode _ hCKind hCTidy, rfl⟩
            · next hNotShort =>
                rw [Except.ok.injEq,
                  Prod.mk.injEq] at hResult
                rw [← hResult.2]
                have hKind : (left pos).isFullOrValue = true :=
                  Node.isFullOrValue_of_wf hAt hPosSet
                    fun key val flags hShort =>
                    hNotShort key val flags hShort
                exact ⟨Node.tidy_shortNode _ hKind hPosTidy, rfl⟩
      · next hNotOne =>
          rw [Except.ok.injEq, Prod.mk.injEq] at hResult
          rw [← hResult.2]
          have hSeveralLeft : SeveralSet left := by
            rcases hRem : remainingPos left with _ | pos | _
            · exact absurd (remainingPos_eq_none hRem k)
                (by rw [hKLeft]; exact Bool.noConfusion)
            · exact absurd hRem (hNotOne pos)
            · exact remainingPos_eq_several hRem
          exact ⟨Node.tidy_fullNode hSeveralLeft fun j =>
            (hLeft j).2, rfl⟩

/-
  delete keeps the form: by induction on the fuel, over the
  node the walk is at.
-/
theorem delete_keeps_tidy :
    ∀ fuel, DeleteKeepsTidy db fuel
  | 0 =>
      fun _ _ _ _ _ _ _ _ hFuel =>
        absurd hFuel (Nat.not_lt_zero _)
  | fuel + 1 => by
      intro n past pathPrefix key dirty n' hWF hRest
        hFuel hTidy hDelete
      cases n with
      | nil =>
          have hNil : delete db (fuel +
            1) .nil pathPrefix key =
              .ok (false, .nil) := rfl
          rw [hNil, Except.ok.injEq,
            Prod.mk.injEq] at hDelete
          rw [← hDelete.2]
          exact ⟨Node.tidy_nil, nofun⟩
      | valueNode v =>
          have hValue : delete db (fuel +
            1) (.valueNode v) pathPrefix key =
            .ok (true, .nil) := rfl
          rw [hValue, Except.ok.injEq,
            Prod.mk.injEq] at hDelete
          rw [← hDelete.2]
          exact ⟨Node.tidy_nil, nofun⟩
      | shortNode nkey nval flags =>
          have hPast : past = false := hWF.1
          subst hPast
          refine ⟨?_, nofun⟩
          by_cases hMiss : prefixLen key nkey < nkey.length
          · rw [delete_shortNode_eq, if_pos hMiss,
              Except.ok.injEq, Prod.mk.injEq] at hDelete
            rw [← hDelete.2]
            exact hTidy
          by_cases hAll : prefixLen key nkey = key.length
          · rw [delete_shortNode_eq, if_neg hMiss,
              if_pos hAll, Except.ok.injEq,
              Prod.mk.injEq] at hDelete
            rw [← hDelete.2]
            exact Node.tidy_nil
          · exact delete_shortNode_below_tidy db
              (delete_keeps_tidy fuel) hWF hTidy hRest hFuel hMiss
              hAll hDelete
      | fullNode children flags =>
          have hPast : past = false := hWF.1
          subst hPast
          obtain ⟨i, rest, rfl⟩ :=
            List.exists_cons_of_ne_nil hRest.ne_nil
          obtain ⟨hTidy', hInner⟩ :=
            delete_fullNode_tidy db
            (delete_keeps_tidy fuel) hWF hTidy
            pathPrefix hRest hFuel hDelete
          exact ⟨hTidy', fun _ _ _ => hInner⟩
      | hashNode => exact hWF.elim

end Trie

end PlasmaEvm
