import PlasmaEvm.Rlp.Split
import PlasmaEvm.Trie.Encoding

/-
  The node decoder of the trie (node.go): decodeNode reads
  the RLP encoding of a short or a full node, with
  decodeShort, decodeFull and decodeRef for the children,
  and every error the code formats, with the path
  `wrapError` keeps.  An embedded child is decoded by
  decodeNode in turn, from a shorter input, so the decoder
  takes a fuel.

  The decoder inverts the encoder on the nodes the hasher
  stores (`Collapsed.Stored`): decodeNode gives back, from
  the encoding of such a node and whatever follows it, the
  node `Collapsed.decoded`, with the compact keys back in
  hex and the embedded children decoded.

  Key definitions include:
    * `Trie.DecodeNodeError`, `Trie.wrapError`
    * `Trie.decodeRef`, `Trie.decodeShort`,
      `Trie.decodeFull`, `Trie.decodeNode`
    * `Trie.Collapsed.Stored`, `Trie.Collapsed.decoded`

  Key statements include:
    * `Trie.decodeRef_stored`, `Trie.decodeShort_encode`,
      `Trie.decodeFull_encode`
    * `Trie.decodeNode_encode`
-/

------------------------------------------------------------
-- The Decoder
------------------------------------------------------------

namespace PlasmaEvm

namespace Trie

/-
  Where a decode error's path passes: a short node, a full
  node, a short node's value, a child.
-/
inductive DecodeContext where
  | short
  | full
  | val
  | child (i : Nat)
  deriving Repr, DecidableEq

/-
  The errors of decodeNode, by the text the code gives each:
  unexpectedEOF is io.ErrUnexpectedEOF; rlp an error of the
  splitter, as it is; decode "decode error: %v";
  invalidCount "invalid number of list elements: %v";
  invalidValue "invalid value node: %v"; oversized
  "oversized embedded node (size is %d bytes, want size <
  %d)"; invalidSize "invalid RLP string size %d (want 0 or
  32)"; and decodeError an error with the path to the child
  it was found in.  outOfFuel is the model's own: the fuel
  bounds the nesting of embedded nodes.
-/
inductive DecodeNodeError where
  | unexpectedEOF
  | rlp (err : Rlp.StreamError)
  | decode (err : Rlp.StreamError)
  | invalidCount (c : Nat)
  | invalidValue (err : Rlp.StreamError)
  | oversized (size : Nat)
  | invalidSize (size : Nat)
  | decodeError (what : DecodeNodeError)
      (stack : List DecodeContext)
  | outOfFuel
  deriving Repr

/-
  wrapError: the context added to the path of a decodeError,
  or a new one.
-/
def wrapError
    (err : DecodeNodeError)
    (ctx : DecodeContext) :
    DecodeNodeError :=
  match err with
  | .decodeError what stack =>
      .decodeError what (stack ++ [ctx])
  | _ => .decodeError err [ctx]

/-
  decodeRef: a child as a full node encodes it.  A list is a
  node embedded in its parent, decoded by `decode`
  (decodeNode with no hash), an empty string is nothing, and
  32 bytes are a hash.  An embedded node must be smaller
  than a hash.
-/
def decodeRef
    (decode : Bytes → Except DecodeNodeError Node)
    (buf : Bytes) :
    Except DecodeNodeError (Node × Bytes) :=
  match Rlp.Split buf with
  | .error err => .error (.rlp err)
  | .ok (kind, val, rest) =>
      if kind = .List then
        if buf.length - rest.length > 32
          then .error (.oversized (buf.length - rest.length))
        else
          match decode buf with
          | .error err => .error err
          | .ok n => .ok (n, rest)
      else if kind = .String ∧ val.length = 0
        then .ok (.nil, rest)
      else if kind = .String ∧ val.length = 32
        then .ok (.hashNode val, rest)
      else .error (.invalidSize val.length)

/-
  decodeShort: the compact key, then a value when the key
  has the terminator, else a child.
-/
def decodeShort
    (decode : Bytes → Except DecodeNodeError Node)
    (hash : Option Bytes)
    (elems : Bytes) :
    Except DecodeNodeError Node :=
  match Rlp.SplitString elems with
  | .error err => .error (.rlp err)
  | .ok (kbuf, rest) =>
      let flag : NodeFlag :=
        { hash := hash, dirty := false }
      let key := compactToHex kbuf
      if hasTerm key then
        match Rlp.SplitString rest with
        | .error err => .error (.invalidValue err)
        | .ok (val, _) =>
            .ok (.shortNode key (.valueNode val) flag)
      else
        match decodeRef decode rest with
        | .error err => .error (wrapError err .val)
        | .ok (r, _) => .ok (.shortNode key r flag)

/-
  The loop of decodeFull: `count` children from the `i`-th
  on.
-/
def decodeRefs
    (decode : Bytes → Except DecodeNodeError Node)
    (i : Nat) :
    Nat → Bytes → Except DecodeNodeError (List Node × Bytes)
  | 0, elems => .ok ([], elems)
  | count + 1, elems =>
      match decodeRef decode elems with
      | .error err => .error (wrapError err (.child i))
      | .ok (cld, rest) =>
          match decodeRefs decode (i + 1) count rest with
          | .error err => .error err
          | .ok (cs, rest') => .ok (cld :: cs, rest')

/-
  decodeFull: sixteen children, then the value, kept when it
  is not empty.  On an error the code also returns the
  children decoded so far, which every caller drops.
-/
def decodeFull
    (decode : Bytes → Except DecodeNodeError Node)
    (hash : Option Bytes)
    (elems : Bytes) :
    Except DecodeNodeError Node :=
  match decodeRefs decode 0 16 elems with
  | .error err => .error err
  | .ok (cs, elems) =>
      match Rlp.SplitString elems with
      | .error err => .error (.rlp err)
      | .ok (val, _) =>
          let children : Fin 17 → Node := fun i =>
            if i.val < 16 then cs.getD i.val .nil
            else if val.length > 0 then .valueNode val
            else .nil
          .ok (.fullNode children
            { hash := hash, dirty := false })

/-
  decodeNode: the RLP encoding of a trie node, a list of two
  values (a short node) or of seventeen (a full node).  An
  embedded child is decoded in turn, from a shorter input:
  the fuel counts the nesting.  The error of the element
  count is dropped, as the code drops it, and the count is 0
  then.
-/
def decodeNode :
    Nat → Option Bytes → Bytes → Except DecodeNodeError Node
  | 0, _, _ => .error .outOfFuel
  | fuel + 1, hash, buf =>
      if buf.length = 0 then .error .unexpectedEOF
      else
        match Rlp.SplitList buf with
        | .error err => .error (.decode err)
        | .ok (elems, _) =>
            let c := match Rlp.CountValues elems with
              | .ok c => c
              | .error _ => 0
            if c = 2
              then (decodeShort (decodeNode fuel none) hash
                elems).mapError (wrapError · .short)
            else if c = 17 then (decodeFull
              (decodeNode fuel none) hash elems).mapError
              (wrapError · .full)
            else .error (.invalidCount c)

end Trie

end PlasmaEvm

------------------------------------------------------------
-- What the Decoder Reads Back
------------------------------------------------------------

namespace PlasmaEvm

namespace Trie

namespace Collapsed

/-
  The collapsed nodes decodeNode reads back, as a child in
  its parent (`ref`) or as a node on its own.  A short
  node's key is the compact form of a hex key, over a value
  when the key has the terminator and over a child
  otherwise; a full node has sixteen children, and nothing
  or a value that is not empty; a child is nothing, a hash
  of 32 bytes, or a node whose encoding is no longer than a
  hash.
-/
def Stored : Bool → Collapsed → Prop
  | true, .nil => True
  | true, .hashNode h => h.length = 32
  | ref, .shortNode key val =>
      (ref = true → (Collapsed.shortNode key
        val).encode.length ≤ 32) ∧
        ∃ body t, (∀ n ∈ body, n.val < 16) ∧
          key = hexToCompact (body ++ terminated t) ∧
          if t
            then ∃ v, val = .valueNode v
              else Stored true val
  | ref, .fullNode children =>
      (ref = true → (Collapsed.fullNode
        children).encode.length ≤ 32) ∧
        (∀ i : Fin 17, i.val < 16 →
          Stored true (children i)) ∧
        (children (Fin.last 16) = .nil ∨ ∃ v, v ≠ [] ∧
          children (Fin.last 16) = .valueNode v)
  | _, _ => False

/-
  The node decodeNode makes of a collapsed node, with `hash`
  in its flags.
-/
def decoded : Collapsed → Option Bytes → Node
  | .nil, _ => .nil
  | .fullNode children, hash =>
      .fullNode (fun i => (children i).decoded none)
        { hash := hash, dirty := false }
  | .shortNode key val, hash =>
      .shortNode (compactToHex key) (val.decoded none)
        { hash := hash, dirty := false }
  | .hashNode h, _ => .hashNode h
  | .valueNode v, _ => .valueNode v

end Collapsed

end Trie

end PlasmaEvm

------------------------------------------------------------
-- Children
------------------------------------------------------------

namespace PlasmaEvm

namespace Trie

open PlasmaEvm.Rlp

/-
  The splitter reads every collapsed node's encoding whole.
-/
theorem whole_encode
    {c : Collapsed}
    (hFits : c.encode.length < 256 ^ 8) :
    Whole c.encode := by
  cases c with
  | fullNode children =>
      exact whole_encodeList (Nat.lt_trans
        (length_lt_encodeList _) hFits)
  | shortNode key val =>
      exact whole_encodeList (Nat.lt_trans
        (length_lt_encodeList _) hFits)
  | _ =>
      exact whole_encodeString (Nat.lt_of_le_of_lt
        (length_le_encodeString _) hFits)

section DecodeRef

variable (decode : Bytes → Except DecodeNodeError Node)

/- decodeRef reads an empty string as nothing. -/
theorem decodeRef_nil (rest : Bytes) :
    decodeRef decode (Collapsed.nil.encode ++ rest) =
      .ok (.nil, rest) := by
  unfold decodeRef
  rw [Collapsed.encode, Split_encodeString_append
    (by decide) rest]
  rfl

/- decodeRef reads 32 bytes as a hash. -/
theorem decodeRef_hashNode
    {h : Bytes}
    (hLen : h.length = 32)
    (rest : Bytes) :
    decodeRef decode ((Collapsed.hashNode h).encode ++
      rest) = .ok (.hashNode h, rest) := by
  have hSingle : isSingleByte h = false := by
    unfold isSingleByte
    split
    · simp at hLen
    · rfl
  unfold decodeRef
  rw [Collapsed.encode, Split_encodeString_append
    (by omega) rest, hSingle]
  simp [hLen]

/-
  decodeRef reads a list no longer than a hash as a node
  embedded in its parent.
-/
theorem decodeRef_embedded
    {payload : Bytes}
    (hFits : payload.length < 256 ^ 8)
    (hSmall : (encodeList payload).length ≤ 32)
    (rest : Bytes)
    {n : Node}
    (hDecode : decode (encodeList payload ++ rest) = .ok n) :
    decodeRef decode (encodeList payload ++ rest) =
      .ok (n, rest) := by
  have hSize : ¬ ((encodeList payload ++ rest).length -
    rest.length > 32) := by
    simp only [List.length_append]
    omega
  unfold decodeRef
  rw [Split_encodeList_append hFits rest]
  simp only [if_true, if_neg hSize, hDecode]

/-
  decodeShort reads back the payload of a short node: the
  compact key of a hex key, then a value after a key with
  the terminator and a child decodeRef reads back after any
  other.
-/
theorem decodeShort_encode
    (hash : Option Bytes)
    {body : List Nibble}
    {t : Bool}
    {val : Collapsed}
    (hBody : ∀ n ∈ body, n.val < 16)
    (hFits : (encodeString (hexToCompact (body ++
      terminated t)) ++ val.encode).length < 256 ^ 8)
    (hVal : if t then ∃ v, val = .valueNode v
      else ∀ rest, decodeRef decode (val.encode ++ rest) =
        .ok (val.decoded none, rest)) :
    decodeShort decode hash (encodeString (hexToCompact
      (body ++ terminated t)) ++ val.encode) =
      .ok (.shortNode (body ++ terminated t)
        (val.decoded none) { hash := hash, dirty := false }) := by
  have hKey := length_le_encodeString (hexToCompact
    (body ++ terminated t))
  rw [List.length_append] at hFits
  have hKeyFits : (hexToCompact (body ++
    terminated t)).length < 256 ^ 8 := by omega
  unfold decodeShort
  rw [SplitString_encodeString_append hKeyFits val.encode]
  dsimp only
  rw [compactToHex_hexToCompact body t hBody,
    hasTerm_terminated hBody t]
  cases t with
  | true =>
      obtain ⟨v, rfl⟩ := hVal
      have hLe := length_le_encodeString v
      have hValue := SplitString_encodeString_append
        (s := v) (by
          rw [Collapsed.encode] at hFits
          omega) []
      rw [List.append_nil] at hValue
      simp only [if_true]
      rw [Collapsed.encode, hValue]
      rfl
  | false =>
      have hRef := hVal []
      rw [List.append_nil] at hRef
      simp only [Bool.false_eq_true, if_false]
      rw [hRef]

/-
  decodeFull's loop reads back children it reads one by one.
-/
theorem decodeRefs_encode :
    ∀ (cs : List Collapsed) (i : Nat) (rest : Bytes),
      (∀ c ∈ cs, ∀ rest', decodeRef decode (c.encode ++
        rest') = .ok (c.decoded none, rest')) →
      decodeRefs decode i cs.length
        ((cs.map Collapsed.encode).flatten ++ rest) =
        .ok (cs.map (Collapsed.decoded · none), rest)
  | [], _, _, _ => rfl
  | c :: cs, i, rest, hRefs => by
      have hFirst := hRefs c List.mem_cons_self
        ((cs.map Collapsed.encode).flatten ++ rest)
      have hNext := decodeRefs_encode cs (i +
        1) rest fun c' hMem => hRefs c'
        (List.mem_cons_of_mem c hMem)
      rw [List.length_cons, List.map_cons,
        List.flatten_cons, List.append_assoc,
        decodeRefs, hFirst]
      simp only [hNext, List.map_cons]

/-
  The children of a full node: the first sixteen, then the
  seventeenth.
-/
theorem flatMap_children (children : Fin 17 → Collapsed) :
    (List.finRange 17).flatMap (fun i =>
      (children i).encode) =
      (((List.finRange 16).map fun j =>
        children j.castSucc).map Collapsed.encode).flatten ++
        (children (Fin.last 16)).encode := by
  rw [List.finRange_succ_last, List.flatMap_append,
    List.flatMap_def, List.map_map, List.map_map]
  simp [Function.comp_def]

/-
  decodeFull reads back the payload of a full node: sixteen
  children decodeRef reads back, then nothing or a value
  that is not empty.
-/
theorem decodeFull_encode
    (hash : Option Bytes)
    {children : Fin 17 → Collapsed}
    (hRefs : ∀ i : Fin 17, i.val < 16 → ∀ rest,
      decodeRef decode ((children i).encode ++ rest) =
        .ok ((children i).decoded none, rest))
    (hLast : children (Fin.last 16) = .nil ∨ ∃ v, v ≠ [] ∧
      children (Fin.last 16) = .valueNode v)
    (hFits : (children (Fin.last 16)).encode.length < 256 ^ 8) :
    decodeFull decode hash ((List.finRange 17).flatMap
      fun i => (children i).encode) =
      .ok (.fullNode (fun i => (children i).decoded none)
        { hash := hash, dirty := false }) := by
  let cs := (List.finRange 16).map fun j =>
    children j.castSucc
  have hLength : cs.length = 16 := by simp [cs]
  have hLoop := decodeRefs_encode decode cs 0 (children
    (Fin.last 16)).encode (by
    intro c hMem rest
    obtain ⟨j, -, rfl⟩ := List.mem_map.mp hMem
    exact hRefs j.castSucc j.isLt rest)
  rw [hLength] at hLoop
  obtain ⟨val, hVal, hKept⟩ : ∃ val,
    Rlp.SplitString (children (Fin.last 16)).encode =
    .ok (val, []) ∧
      (if val.length > 0 then Node.valueNode val else .nil)
        = (children (Fin.last 16)).decoded none := by
    rcases hLast with hNil | ⟨v, hNe, hValue⟩
    · refine ⟨[], ?_, ?_⟩
      · rw [hNil]
        rfl
      · rw [hNil]
        rfl
    · have hSplit := SplitString_encodeString_append
        (s := v)
        (by
          rw [hValue, Collapsed.encode] at hFits
          have := length_le_encodeString v
          omega)
        []
      rw [List.append_nil] at hSplit
      refine ⟨v,
        by rw [hValue, Collapsed.encode]; exact hSplit, ?_⟩
      rw [if_pos (List.length_pos_iff.mpr hNe), hValue]
      rfl
  unfold decodeFull
  rw [flatMap_children, hLoop]
  simp only [hVal]
  congr 2
  funext i
  by_cases hi : i.val < 16
  · rw [if_pos hi]
    simp [cs, hi, List.getD_eq_getElem?_getD]
  · rw [if_neg hi, Fin.eq_last_of_not_lt hi]
    exact hKept

/-
  decodeRef reads back a stored child, given that `decode`
  reads it back when it is a node on its own.
-/
theorem decodeRef_stored
    {c : Collapsed}
    (hStored : c.Stored true)
    (hFits : c.encode.length < 256 ^ 8)
    (hNode : ∀ rest, c.Stored false →
      decode (c.encode ++ rest) = .ok (c.decoded none))
    (rest : Bytes) :
    decodeRef decode (c.encode ++ rest) =
      .ok (c.decoded none, rest) := by
  cases c with
  | nil => exact decodeRef_nil decode rest
  | hashNode h =>
      exact decodeRef_hashNode decode hStored rest
  | valueNode v => exact hStored.elim
  | shortNode key val =>
      exact decodeRef_embedded decode (Nat.lt_trans
        (length_lt_encodeList _) hFits) (hStored.1 rfl) rest
        (hNode rest ⟨fun h => absurd h
          Bool.false_ne_true, hStored.2⟩)
  | fullNode children =>
      exact decodeRef_embedded decode (Nat.lt_trans
        (length_lt_encodeList _) hFits) (hStored.1 rfl) rest
        (hNode rest ⟨fun h => absurd h
          Bool.false_ne_true, hStored.2⟩)

end DecodeRef

end Trie

end PlasmaEvm

------------------------------------------------------------
-- Nodes
------------------------------------------------------------

namespace PlasmaEvm

namespace Trie

open PlasmaEvm.Rlp

/-
  decodeNode reads back a stored short node, given that
  decodeRef reads back its child.
-/
theorem decodeNode_shortNode
    {fuel : Nat}
    (hash : Option Bytes)
    {body : List Nibble}
    {t : Bool}
    {val : Collapsed}
    (hBody : ∀ n ∈ body, n.val < 16)
    (hFits : (Collapsed.shortNode (hexToCompact (body ++
      terminated t)) val).encode.length < 256 ^ 8)
    (hVal : if t then ∃ v, val = .valueNode v
      else ∀ rest, decodeRef (decodeNode fuel none)
        (val.encode ++ rest) = .ok (val.decoded none, rest))
    (rest : Bytes) :
    decodeNode (fuel + 1) hash ((Collapsed.shortNode
      (hexToCompact (body ++ terminated t)) val).encode ++ rest) =
      .ok ((Collapsed.shortNode (hexToCompact (body ++
        terminated t)) val).decoded hash) := by
  let key := hexToCompact (body ++ terminated t)
  have hPayload : (encodeString key ++
    val.encode).length < 256 ^ 8 :=
    Nat.lt_trans (length_lt_encodeList _) hFits
  have hKeyFits : (encodeString key).length < 256 ^ 8 := by
    rw [List.length_append] at hPayload
    omega
  have hValFits : val.encode.length < 256 ^ 8 := by
    rw [List.length_append] at hPayload
    omega
  have hCount : CountValues (encodeString key ++
    val.encode) = .ok 2 := by
    have hTwo := @CountValues_flatten [encodeString key,
      val.encode] (by
      intro e hMem
      rcases List.mem_pair.mp hMem with rfl | rfl
      · exact whole_encodeString (Nat.lt_of_le_of_lt
          (length_le_encodeString key) hKeyFits)
      · exact whole_encode hValFits)
    simpa using hTwo
  have hNe : (encodeList (encodeString key ++ val.encode) ++
    rest).length ≠ 0 := by
    have :=
      length_lt_encodeList (encodeString key ++ val.encode)
    rw [List.length_append]
    omega
  rw [decodeNode, Collapsed.encode, if_neg hNe,
    SplitList_encodeList_append hPayload rest]
  dsimp only
  rw [hCount]
  simp only [if_true]
  rw [decodeShort_encode (decodeNode fuel none) hash
    hBody hPayload hVal]
  simp only [Collapsed.decoded,
    compactToHex_hexToCompact body t hBody]
  rfl

/-
  A short node's child comes before the end of its encoding.
-/
theorem length_val_lt
    (key : Bytes)
    (val : Collapsed) :
    val.encode.length < (Collapsed.shortNode key
      val).encode.length := by
  have hLt := length_lt_encodeList
    (encodeString key ++ val.encode)
  rw [List.length_append] at hLt
  show val.encode.length < (encodeList (encodeString key ++
    val.encode)).length
  omega

/-
  The children of a full node come before the end of its
  encoding.
-/
theorem length_child_lt
    (children : Fin 17 → Collapsed)
    (i : Fin 17) :
    (children i).encode.length <
      (Collapsed.fullNode children).encode.length := by
  have hSub : List.Sublist (children i).encode
    ((List.finRange 17).flatMap fun i =>
    (children i).encode) := by
    rw [List.flatMap_def]
    exact List.sublist_flatten_of_mem (List.mem_map_of_mem
      (List.mem_finRange i))
  exact Nat.lt_of_le_of_lt hSub.length_le (length_lt_encodeList _)

/-
  decodeNode reads back a stored full node, given that
  decodeRef reads back its children.
-/
theorem decodeNode_fullNode
    {fuel : Nat}
    (hash : Option Bytes)
    {children : Fin 17 → Collapsed}
    (hFits : (Collapsed.fullNode
      children).encode.length < 256 ^ 8)
    (hRefs : ∀ i : Fin 17, i.val < 16 → ∀ rest,
      decodeRef (decodeNode fuel none)
        ((children i).encode ++ rest) =
        .ok ((children i).decoded none, rest))
    (hLast : children (Fin.last 16) = .nil ∨ ∃ v, v ≠ [] ∧
      children (Fin.last 16) = .valueNode v)
    (rest : Bytes) :
    decodeNode (fuel + 1) hash ((Collapsed.fullNode
      children).encode ++ rest) =
      .ok ((Collapsed.fullNode children).decoded hash) := by
  let payload := (List.finRange 17).flatMap fun i =>
    (children i).encode
  have hPayload : payload.length < 256 ^ 8 :=
    Nat.lt_trans (length_lt_encodeList _) hFits
  have hChildFits : ∀ i, (children i).encode.length <
    256 ^ 8 := fun i =>
    Nat.lt_trans (length_child_lt children i) hFits
  have hCount : CountValues payload = .ok 17 := by
    have hAll := @CountValues_flatten
      ((List.finRange 17).map fun i =>
      (children i).encode) (by
      intro e hMem
      obtain ⟨i, -, rfl⟩ := List.mem_map.mp hMem
      exact whole_encode (hChildFits i))
    rw [← List.flatMap_def] at hAll
    simpa using hAll
  have hNe : (encodeList payload ++ rest).length ≠ 0 := by
    have := length_lt_encodeList payload
    rw [List.length_append]
    omega
  rw [decodeNode, Collapsed.encode, if_neg hNe,
    SplitList_encodeList_append hPayload rest]
  dsimp only
  rw [hCount]
  simp only [if_true]
  rw [decodeFull_encode (decodeNode fuel none) hash hRefs
    hLast (hChildFits _)]
  rfl

/-
  decodeNode reads back every stored node from its encoding,
  and whatever follows it, with the hash it is given in its
  flags: by induction on the node, a child read by
  decodeRef, and an embedded one by decodeNode with one less
  fuel.
-/
theorem decodeNode_encode :
    ∀ (c : Collapsed), c.Stored false →
      c.encode.length < 256 ^ 8 →
      ∀ fuel, c.encode.length < fuel → ∀ hash rest,
        decodeNode fuel hash (c.encode ++ rest) =
          .ok (c.decoded hash)
  | .nil, hStored, _, _, _, _, _ => hStored.elim
  | .hashNode _, hStored, _, _, _, _, _ => hStored.elim
  | .valueNode _, hStored, _, _, _, _, _ => hStored.elim
  | .shortNode key val, hStored, hFits, fuel,
      hFuel, hash, rest =>
      by
      obtain ⟨-, body, t, hBody, rfl, hVal⟩ := hStored
      obtain ⟨f, rfl⟩ : ∃ f, fuel = f + 1 :=
        ⟨fuel - 1, by omega⟩
      have hValLen := length_val_lt (hexToCompact (body ++
        terminated t)) val
      refine decodeNode_shortNode hash hBody hFits ?_ rest
      cases t with
      | true => exact hVal
      | false =>
          exact decodeRef_stored (decodeNode f none) hVal
            (by omega) (fun rest' hNode =>
            decodeNode_encode val hNode (by omega) f
              (by omega) none rest')
  | .fullNode children, hStored, hFits, fuel,
      hFuel, hash, rest =>
      by
      obtain ⟨-, hRefs, hLast⟩ := hStored
      obtain ⟨f, rfl⟩ : ∃ f, fuel = f + 1 :=
        ⟨fuel - 1, by omega⟩
      refine decodeNode_fullNode hash hFits
        (fun i hi rest' => ?_) hLast rest
      have hChild := length_child_lt children i
      exact decodeRef_stored (decodeNode f none)
        (hRefs i hi) (by omega) (fun rest'' hNode =>
        decodeNode_encode (children i) hNode (by omega) f
          (by omega) none rest'') rest'

end Trie

end PlasmaEvm
