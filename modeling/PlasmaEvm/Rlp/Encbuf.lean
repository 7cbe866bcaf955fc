import PlasmaEvm.Rlp.Encode
import PlasmaEvm.Data.Splice

/-
  The encoder's buffer of package rlp (`encbuf`, encode.go)
  and the writers as the code runs them on it.  The writers
  append string data, string headers included, to `str`; a
  list writer opens the list with `list`, which records
  where its header goes and the size of the list headers so
  far, writes the elements, and closes it with `listEnd`,
  which computes the list's encoded size and adds its
  header's size to `lhsize`.  The list headers are written
  only when the buffer is output, interleaved with the
  string data at their offsets.

  A `listhead` pointer is the head's index in `lheads`.
  Go's int sizes are `Nat` here: the code's sizes are below
  2^63.

  `render` is what the buffer stands for: the string data
  with every list header inserted at its offset.  A writer
  appends a segment of string data and closed list heads
  (`Appends`) whose rendering is the recursive encoding
  `Rlp.writer` of the value, and it fails exactly when that
  fails, with the same error (`Writes`).

  Key definitions include:
    * `Rlp.Listhead`, `Rlp.Encbuf`, `Rlp.intsize`,
      `Rlp.headsize`
    * `Rlp.Encbuf.list`, `Rlp.Encbuf.listEnd`
    * `Rlp.Encbuf.writer`, `Rlp.Encbuf.encode`
    * `Rlp.Encbuf.render`, `Rlp.Encbuf.Appends`,
      `Rlp.Encbuf.Writes`

  Key statements include:
    * `Rlp.length_puthead`
    * `Rlp.Encbuf.Writes.bind`, `Rlp.Encbuf.Writes.list`
    * `Rlp.Encbuf.writer_writes`, `Rlp.Encbuf.encode_writes`
-/

------------------------------------------------------------
-- The Buffer
------------------------------------------------------------

namespace PlasmaEvm

namespace Rlp

/-
  A list's header: its index in the string data, and the
  list's encoded size, headers of nested lists included.
-/
structure Listhead where
  offset : Nat
  size : Nat
  deriving DecidableEq, Repr

/-
  The string data, every list header, and the sum of the
  sizes of the encoded list headers.  The auxiliary
  `sizebuf` only carries header bytes on their way to `str`
  or the output.
-/
structure Encbuf where
  str : Bytes
  lheads : List Listhead
  lhsize : Nat
  deriving DecidableEq, Repr

/- intsize(i): the number of bytes of i, one at least. -/
def intsize (i : Nat) : Nat :=
  if i / 256 = 0 then 1 else intsize (i / 256) + 1
termination_by i
decreasing_by omega

/-
  headsize(size): the size of a header for a payload of that
  size.
-/
def headsize (size : Nat) : Nat :=
  if size < 56 then 1 else 1 + intsize size

/-
  head.encode(buf): the list header, as puthead writes it.
-/
def Listhead.encode (head : Listhead) : Bytes :=
  puthead 0xC0 0xF7 head.size

namespace Encbuf

/- A buffer after reset(): no data, no list. -/
def empty : Encbuf :=
  ⟨[], [], 0⟩

/-
  w.size(): the length of the encoding, list headers
  included.
-/
def size (w : Encbuf) : Nat :=
  w.str.length + w.lhsize

/- w.str = append(w.str, b...). -/
def append
    (w : Encbuf)
    (b : Bytes) : Encbuf :=
  { w with str := w.str ++ b }

/-
  w.encodeString(b): the string with its header, or the byte
  alone.
-/
def encodeString
    (w : Encbuf)
    (b : Bytes) : Encbuf :=
  w.append (Rlp.encodeString b)

/-
  w.list(): a new head at the end of the string data,
  holding for now the size of the list headers so far.
-/
def list (w : Encbuf) : Encbuf × Nat :=
  ({ w with
    lheads := w.lheads ++ [⟨w.str.length, w.lhsize⟩] },
      w.lheads.length)

/-
  w.listEnd(lh): the list's size is what was written since
  it opened, headers of lists closed since included, and its
  header adds to `lhsize`.
-/
def listEnd
    (w : Encbuf)
    (lh : Nat) : Encbuf :=
  match w.lheads[lh]? with
  | some head =>
      let size := w.size - head.offset - head.size
      { w with lheads := w.lheads.set lh ⟨head.offset, size⟩
               lhsize := w.lhsize + headsize size }
  | none => w

/-
  The list writers: open a list, write its contents, close
  it.
-/
def inList
    (body : Encbuf → Except EncodeError Encbuf)
    (w : Encbuf) : Except EncodeError Encbuf :=
  (fun w' => w'.listEnd w.list.2) <$> body w.list.1

mutual

/-
  The writer makeWriter gives a type with the tags of its
  field, run on a value and the buffer.
-/
def writer :
    Ty → Tag → Value → Encbuf → Except EncodeError Encbuf
  | .uint _, _, .uint i, w => .ok (w.append (writeUint i))
  | .bool, _, .bool b, w => .ok (w.append (writeBool b))
  | .string, _, .str s, w => .ok (w.encodeString s)
  | .bigInt, _, .nilPtr, w => .ok (w.append [0x80])
  | .bigInt, _, .big i, w => w.append <$> writeBigInt i
  | .ptr elem, tag, .nilPtr, w =>
      if (tag.nilKind elem).getD elem.defaultNilKind =
        .String then .ok (w.append [0x80])
      else .ok (w.list.1.listEnd w.list.2)
  | .ptr elem, _, .ptr v, w => writer elem .empty v w
  | .slice elem, _, .str b, w =>
      if elem.isByte
        then .ok (w.encodeString b) else .error .mismatch
  | .slice elem, tag, .list vs, w =>
      if elem.isByte then .error .mismatch
      else if tag = .tail then writeElems elem vs w
      else inList (writeElems elem vs) w
  | .array _ elem, _, .str b, w =>
      if elem.isByte
        then .ok (w.encodeString b) else .error .mismatch
  | .array _ elem, tag, .list vs, w =>
      if elem.isByte then .error .mismatch
      else if tag = .tail then writeElems elem vs w
      else inList (writeElems elem vs) w
  | .struct fields, _, .list vs, w =>
      inList (writeFields fields vs) w
  | .iface, _, .nilIface, w => .ok (w.append [0xC0])
  | .iface, _, .iface ty v, w =>
      match ty.tagError with
      | some err => .error (.structTag err)
      | none => writer ty .empty v w
  | _, _, _, _ => .error .mismatch

/-
  The elements of a slice or an array, one after another.
-/
def writeElems
    (elem : Ty) :
    List Value → Encbuf → Except EncodeError Encbuf
  | [], w => .ok w
  | v :: vs, w => do
      let w ← writer elem .empty v w
      writeElems elem vs w

/-
  makeStructWriter's loop: the fields that are not ignored,
  each with its tag.
-/
def writeFields :
    Fields → List Value → Encbuf → Except EncodeError Encbuf
  | .nil, [], w => .ok w
  | .cons .ignored _ rest, _ :: vs, w =>
      writeFields rest vs w
  | .cons tag ty rest, v :: vs, w => do
      let w ← writer ty tag v w
      writeFields rest vs w
  | _, _, _ => .error .mismatch

end

/-
  w.encode(val): the writer of the value's type from the
  type cache.
-/
def encode
    (ty : Ty)
    (v : Value)
    (w : Encbuf) : Except EncodeError Encbuf :=
  match ty.tagError with
  | some err => .error (.structTag err)
  | none => writer ty .empty v w

end Encbuf

end Rlp

end PlasmaEvm

------------------------------------------------------------
-- Header Sizes
------------------------------------------------------------

namespace PlasmaEvm

namespace Rlp

/-
  intsize counts the big-endian bytes of a positive number.
-/
theorem intsize_eq_length
    {i : Nat}
    (hi : 0 < i) :
    intsize i = (BigEndian.toBytes i).length := by
  induction i using Nat.strong_induction_on with
  | _ i ih =>
      have hDigits : (Nat.digits 256 i).length =
        (Nat.digits 256 (i / 256)).length + 1 := by
        rw [Nat.digits_def' (by norm_num) hi,
          List.length_cons]
      rw [BigEndian.toBytes, List.length_reverse,
        List.length_map, hDigits, intsize]
      by_cases hZero : i / 256 = 0
      · rw [if_pos hZero, hZero, Nat.digits_zero,
          List.length_nil]
      · rw [if_neg hZero, ih (i / 256) (by omega)
          (by omega), BigEndian.toBytes,
          List.length_reverse, List.length_map]

/- headsize is the length of the header puthead writes. -/
theorem length_puthead
    (smalltag largetag : UInt8)
    (size : Nat) :
    (puthead smalltag largetag size).length =
      headsize size := by
  unfold puthead headsize
  by_cases hSmall : size < 56
  · rw [if_pos hSmall, if_pos hSmall, List.length_singleton]
  · rw [if_neg hSmall, if_neg hSmall, List.length_cons,
      intsize_eq_length (by omega)]
    omega

end Rlp

end PlasmaEvm

------------------------------------------------------------
-- What a Buffer Stands For
------------------------------------------------------------

namespace PlasmaEvm

namespace Rlp

/- A head as a piece to insert: its header at its offset. -/
def Listhead.piece (head : Listhead) : Nat × Bytes :=
  (head.offset, head.encode)

/- The head with its offset moved on by d. -/
def Listhead.shift
    (d : Nat)
    (head : Listhead) : Listhead :=
  ⟨head.offset + d, head.size⟩

namespace Encbuf

/-
  String data with list heads: the headers inserted at their
  offsets.
-/
def render
    (str : Bytes)
    (heads : List Listhead) : Bytes :=
  Splice.interleave str 0 (heads.map Listhead.piece)

/-
  w' is w with a segment written after it: string data, and
  list heads at offsets from the segment's start, all
  closed, whose headers `lhsize` counts.  The heads w had
  stay as they were.
-/
structure Appends
    (w w' : Encbuf)
    (seg : Bytes)
    (heads : List Listhead) : Prop where
  str : w'.str = w.str ++ seg
  lheads : w'.lheads = w.lheads ++
    heads.map (Listhead.shift w.str.length)
  lhsize : w'.lhsize = w.lhsize +
    Splice.piecesLength (heads.map Listhead.piece)
  bounded : Splice.Bounded seg 0 (heads.map Listhead.piece)

/-
  A run of a writer from w against the recursive encoding:
  where that gives bytes, the writer appends a segment that
  renders as them, and where it fails, the writer fails the
  same way.
-/
def Writes
    (w : Encbuf)
    (r : Except EncodeError Encbuf) :
    Except EncodeError Bytes → Prop
  | .ok b =>
      ∃ w' seg heads, r = .ok w' ∧ Appends w w' seg heads ∧
        render seg heads = b
  | .error e => r = .error e

theorem map_piece_shift
    (d : Nat)
    (heads : List Listhead) :
    (heads.map (Listhead.shift d)).map Listhead.piece =
      Splice.shift d (heads.map Listhead.piece) := by
  simp [Splice.shift, Listhead.piece, Listhead.shift,
    Listhead.encode, Function.comp_def]

theorem map_shift_shift
    (d e : Nat)
    (heads : List Listhead) :
    (heads.map (Listhead.shift e)).map (Listhead.shift d) =
      heads.map (Listhead.shift (d + e)) := by
  rw [List.map_map]
  congr 1
  funext head
  simp only [Function.comp_apply, Listhead.shift]
  congr 1
  omega

/-
  The rendering of a segment is as long as its data and its
  headers.
-/
theorem length_render
    {seg : Bytes}
    {heads : List Listhead}
    (h : Splice.Bounded seg 0 (heads.map Listhead.piece)) :
    (render seg heads).length = seg.length +
      Splice.piecesLength (heads.map Listhead.piece) := by
  rw [render, Splice.length_interleave h, Nat.sub_zero]

/- Appending bytes is a segment of them and no head. -/
theorem Writes.append
    (w : Encbuf)
    (b : Bytes) :
    Writes w (.ok (w.append b)) (.ok b) :=
  ⟨w.append b, b, [], rfl,
    ⟨rfl, (List.append_nil w.lheads).symm,
      (Nat.add_zero w.lhsize).symm, Nat.zero_le _⟩,
    by simp [render]⟩

/-
  A writer followed by another appends the two segments, the
  second's heads shifted past the first's data.
-/
theorem Writes.bind
    {w : Encbuf}
    {r : Except EncodeError Encbuf}
    {ref ref' : Except EncodeError Bytes}
    {k : Encbuf → Except EncodeError Encbuf}
    (h : Writes w r ref)
    (hk : ∀ w' seg heads, Appends w w' seg heads →
      Writes w' (k w') ref') :
    Writes w (r >>= k)
      (do let b ← ref; let b' ← ref'; pure (b ++ b')) := by
  cases ref with
  | error e =>
      have hr : r = .error e := h
      rw [hr]
      rfl
  | ok b =>
      rcases h with
        ⟨w₁, seg₁, heads₁, rfl, hApp₁, hRender₁⟩
      have hNext := hk w₁ seg₁ heads₁ hApp₁
      cases ref' with
      | error e =>
          have hr : k w₁ = .error e := hNext
          show (k w₁) = .error e
          exact hr
      | ok b' =>
          rcases hNext with ⟨w₂, seg₂, heads₂, hk₁,
            hApp₂, hRender₂⟩
          refine ⟨w₂, seg₁ ++ seg₂,
            heads₁ ++ heads₂.map
            (Listhead.shift seg₁.length), hk₁, ?_, ?_⟩
          · refine ⟨by
              rw [hApp₂.str, hApp₁.str,
                List.append_assoc], ?_, ?_, ?_⟩
            · rw [hApp₂.lheads, hApp₁.lheads, hApp₁.str,
                List.map_append, map_shift_shift,
                List.append_assoc, List.length_append]
            · rw [hApp₂.lhsize, hApp₁.lhsize,
                List.map_append, Splice.piecesLength_append,
                map_piece_shift,
                  Splice.piecesLength_shift, Nat.add_assoc]
            · rw [List.map_append, map_piece_shift]
              exact hApp₁.bounded.append hApp₂.bounded
          · rw [render, List.map_append, map_piece_shift,
              Splice.interleave_append hApp₁.bounded]
            rw [← hRender₁, ← hRender₂]
            rfl

/-
  A list around a writer's contents: the head opened before
  them closes with the size of their rendering, so the
  segment renders as the list header and then the contents.
-/
theorem Writes.list
    {w : Encbuf}
    {body : Encbuf → Except EncodeError Encbuf}
    {ref : Except EncodeError Bytes}
    (h : Writes w.list.1 (body w.list.1) ref) :
    Writes w (inList body w) (encodeList <$> ref) := by
  cases ref with
  | error e =>
      have hr : body w.list.1 = .error e := h
      show (fun w' => w'.listEnd w.list.2) <$>
        body w.list.1 = .error e
      rw [hr]
      rfl
  | ok b =>
      rcases h with ⟨w₁, seg, heads, hBody, hApp, hRender⟩
      have hStr₁ : w₁.str = w.str ++ seg := hApp.str
      have hSize₁ : w₁.lhsize = w.lhsize +
        Splice.piecesLength (heads.map Listhead.piece) :=
        hApp.lhsize
      have hHeads₁ : w₁.lheads = w.lheads ++
        ⟨w.str.length, w.lhsize⟩ ::
          heads.map (Listhead.shift w.str.length) := by
        rw [hApp.lheads]
        simp [Encbuf.list]
      have hIdx : w.list.2 = w.lheads.length := rfl
      have hHead : w₁.lheads[w.lheads.length]? =
        some ⟨w.str.length, w.lhsize⟩ := by
        rw [hHeads₁]
        simp
      have hSize : w₁.size - w.str.length -
        w.lhsize = b.length := by
        rw [← hRender, length_render hApp.bounded, size,
          hStr₁, hSize₁, List.length_append]
        omega
      have hEnd : w₁.listEnd w.list.2 =
          { w₁ with
            lheads := w₁.lheads.set w.lheads.length
              ⟨w.str.length, b.length⟩
            lhsize := w₁.lhsize + headsize b.length } := by
        rw [hIdx]
        unfold listEnd
        rw [hHead]
        dsimp only
        rw [hSize]
      refine ⟨w₁.listEnd w.list.2, seg, ⟨0,
        b.length⟩ :: heads, ?_, ⟨?_, ?_, ?_, ?_⟩, ?_⟩
      · rw [inList, hBody]
        rfl
      · rw [hEnd]
        exact hStr₁
      · rw [hEnd]
        show w₁.lheads.set w.lheads.length
          ⟨w.str.length, b.length⟩ = _
        rw [hHeads₁]
        simp [Listhead.shift]
      · rw [hEnd]
        show w₁.lhsize + headsize b.length = _
        rw [hSize₁, List.map_cons, Splice.piecesLength_cons]
        simp only [Listhead.piece, Listhead.encode,
          length_puthead]
        omega
      · exact ⟨Nat.le_refl 0, hApp.bounded⟩
      · rw [render, List.map_cons, Listhead.piece,
          Splice.interleave_cons, List.take_zero,
          List.drop_nil, List.nil_append]
        rw [← render, hRender]
        rfl

@[simp]
theorem Writes.error
    (w : Encbuf)
    (e : EncodeError) :
    Writes w (.error e) (.error e) :=
  rfl

/-
  A writer that fails as the encoding fails, or appends what
  the encoding gives.
-/
theorem Writes.map_append
    (w : Encbuf)
    (r : Except EncodeError Bytes) :
    Writes w (w.append <$> r) r := by
  cases r with
  | error e => rfl
  | ok b => exact Writes.append w b

/- Writing nothing is the empty segment. -/
theorem Writes.pure
    (w : Encbuf) :
    Writes w (.ok w) (.ok []) := by
  have hNil : w.append [] = w := by
    simp [Encbuf.append]
  have hAppend := Writes.append w []
  rwa [hNil] at hAppend

end Encbuf

end Rlp

end PlasmaEvm

------------------------------------------------------------
-- The Writers Write the Encoding
------------------------------------------------------------

namespace PlasmaEvm

namespace Rlp

namespace Encbuf

theorem sliceList_tail_map (r : Except EncodeError Bytes) :
    sliceList .tail <$> r = r := by
  cases r <;> rfl

theorem sliceList_map_of_ne
    {tag : Tag}
    (hTag : tag ≠ .tail)
    (r : Except EncodeError Bytes) :
    sliceList tag <$> r = encodeList <$> r := by
  cases r with
  | error e => rfl
  | ok b =>
      show Except.ok (sliceList tag b) =
        Except.ok (encodeList b)
      rw [sliceList, if_neg hTag]

/-
  makeSliceWriter on the buffer, for a slice or an array of
  a type that is not a byte: a list around the elements,
  none when the field is tagged "tail".
-/
theorem Writes.sliceWriter
    {elem : Ty}
    {vs : List Value}
    (hElems : ∀ w, Writes w (writeElems elem vs w)
      (Rlp.writeElems elem vs))
    (tag : Tag)
    (w : Encbuf) :
    Writes w (if tag = .tail
      then writeElems elem vs w else inList
        (writeElems elem vs) w)
      (sliceList tag <$> Rlp.writeElems elem vs) := by
  by_cases hTail : tag = .tail
  · rw [if_pos hTail, hTail, sliceList_tail_map]
    exact hElems w
  · rw [if_neg hTail, sliceList_map_of_ne hTail]
    exact Writes.list (hElems w.list.1)

mutual

/-
  Every writer, on every buffer, appends a segment that
  renders as the recursive encoding, or fails with its
  error.  The recursion follows the value, as the writers
  do.
-/
theorem writer_writes :
    (v : Value) → (ty : Ty) → (tag : Tag) → (w : Encbuf) →
      Writes w (writer ty tag v w) (Rlp.writer ty tag v)
  | .uint i, ty, tag, w => by
      cases ty <;> simp only [writer,
        Rlp.writer, Writes.error]
      case uint => exact Writes.append w (writeUint i)
  | .bool b, ty, tag, w => by
      cases ty <;> simp only [writer,
        Rlp.writer, Writes.error]
      case bool => exact Writes.append w (writeBool b)
  | .str b, ty, tag, w => by
      cases ty <;> simp only [writer,
        Rlp.writer, Writes.error]
      case string =>
        exact Writes.append w (Rlp.encodeString b)
      case slice elem =>
        split
        · exact Writes.append w (Rlp.encodeString b)
        · rfl
      case array len elem =>
        split
        · exact Writes.append w (Rlp.encodeString b)
        · rfl
  | .big i, ty, tag, w => by
      cases ty <;> simp only [writer,
        Rlp.writer, Writes.error]
      case bigInt =>
        exact Writes.map_append w (writeBigInt i)
  | .nilPtr, ty, tag, w => by
      cases ty <;> simp only [writer,
        Rlp.writer, Writes.error]
      case bigInt => exact Writes.append w [0x80]
      case ptr elem =>
        unfold nilPointer
        split
        · exact Writes.append w [0x80]
        · exact Writes.list (Writes.pure w.list.1)
  | .ptr v, ty, tag, w => by
      cases ty <;> simp only [writer,
        Rlp.writer, Writes.error]
      case ptr elem => exact writer_writes v elem .empty w
  | .list vs, ty, tag, w => by
      cases ty <;> simp only [writer,
        Rlp.writer, Writes.error]
      case slice elem =>
        split
        · rfl
        · exact Writes.sliceWriter
            (writeElems_writes elem vs) tag w
      case array len elem =>
        split
        · rfl
        · exact Writes.sliceWriter
            (writeElems_writes elem vs) tag w
      case struct fields =>
        exact Writes.list (writeFields_writes fields vs w.list.1)
  | .nilIface, ty, tag, w => by
      cases ty <;> simp only [writer,
        Rlp.writer, Writes.error]
      case iface => exact Writes.append w [0xC0]
  | .iface dyn v, ty, tag, w => by
      cases ty <;> simp only [writer,
        Rlp.writer, Writes.error]
      case iface =>
        cases hErr : dyn.tagError with
        | some err => rfl
        | none => exact writer_writes v dyn .empty w

/- The elements of a slice, one writer after another. -/
theorem writeElems_writes :
    (elem : Ty) → (vs : List Value) → (w : Encbuf) →
      Writes w (writeElems elem vs w) (Rlp.writeElems elem vs)
  | _, [], w => Writes.pure w
  | elem, v :: vs, w =>
      Writes.bind (writer_writes v elem .empty w) fun w' _ _
        _ => writeElems_writes elem vs w'

/- The fields of a struct, those tagged "-" skipped. -/
theorem writeFields_writes :
    (fields : Fields) → (vs : List Value) → (w : Encbuf) →
      Writes w (writeFields fields vs w)
        (Rlp.writeFields fields vs)
  | .nil, [], w => Writes.pure w
  | .nil, _ :: _, w => rfl
  | .cons tag _ _, [], w => by cases tag <;> rfl
  | .cons tag ty rest, v :: vs, w => by
      by_cases hIgnored : tag = .ignored
      · subst hIgnored
        simp only [writeFields, Rlp.writeFields]
        exact writeFields_writes rest vs w
      · simp only [writeFields, Rlp.writeFields]
        exact Writes.bind (writer_writes v ty tag w) fun w'
          _ _ _ => writeFields_writes rest vs w'

end

/-
  w.encode(val) appends the encoding EncodeToBytes gives, or
  fails with its error.
-/
theorem encode_writes
    (ty : Ty)
    (v : Value)
    (w : Encbuf) :
    Writes w (encode ty v w) (EncodeToBytes ty v) := by
  unfold encode EncodeToBytes
  cases hErr : ty.tagError with
  | some err => rfl
  | none => exact writer_writes v ty .empty w

end Encbuf

end Rlp

end PlasmaEvm
