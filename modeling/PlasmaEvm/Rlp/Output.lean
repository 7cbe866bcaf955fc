import PlasmaEvm.Rlp.Encbuf

/-
  The three outputs of an encbuf (encode.go).  toBytes
  copies the string data and the list headers into one
  buffer of w.size() bytes, toWriter writes them to an
  io.Writer piece by piece, and the encReader of
  EncodeToReader hands them out through Read, into buffers
  of any size.  Each walks the list heads in order: the
  string data up to a head's offset, then its header, and
  after the last head the rest of the string data.

  A slice expression Go refuses, or a header that does not
  fit in toBytes' buffer, panics: the model's `none`.  An
  io.Writer is a state with its Write, which returns the
  count written and maybe an error; `bufferWrite` takes
  every write, as a bytes.Buffer does. Read's loop ends
  because every turn takes a piece off the reader: a pending
  piece, string data, or a head.

  On a buffer an encoding leaves, all three give its
  rendering, so EncodeToBytes, Encode and EncodeToReader
  give the recursive encoding `Rlp.EncodeToBytes`.

  Key definitions include:
    * `Rlp.Encbuf.toBytes`, `Rlp.Encbuf.toWriter`,
      `Rlp.Encbuf.bufferWrite`
    * `Rlp.Encbuf.EncReader`, `Rlp.Encbuf.EncReader.next`,
      `Rlp.Encbuf.EncReader.Read`
    * `Rlp.Encbuf.EncodeToBytes`, `Rlp.Encbuf.Encode`,
      `Rlp.Encbuf.EncodeToReader`

  Key statements include:
    * `Rlp.Encbuf.toBytes_render`,
      `Rlp.Encbuf.toWriter_render`
    * `Rlp.Encbuf.EncReader.next_spec`,
      `Rlp.Encbuf.EncReader.Read_spec`
    * `Rlp.Encbuf.outputs_refine_recursive`
-/

------------------------------------------------------------
-- Buffers an Encoding Leaves
------------------------------------------------------------

namespace PlasmaEvm

namespace Rlp

namespace Encbuf

/-
  A buffer ready for output: its heads lie in order within
  the string data, and `lhsize` counts their headers.
-/
structure WellFormed (w : Encbuf) : Prop where
  bounded : Splice.Bounded w.str 0 (w.lheads.map Listhead.piece)
  lhsize : w.lhsize = Splice.piecesLength
    (w.lheads.map Listhead.piece)

/-
  What is written into a reset buffer is the whole buffer.
-/
theorem Appends.of_empty
    {w : Encbuf}
    {seg : Bytes}
    {heads : List Listhead}
    (h : Appends empty w seg heads) :
    w.str = seg ∧ w.lheads = heads := by
  have hShift : heads.map (Listhead.shift 0) = heads := by
    have hId : Listhead.shift 0 = id := by
      funext head
      rfl
    rw [hId, List.map_id]
  refine ⟨h.str, ?_⟩
  rw [h.lheads]
  exact hShift

theorem Appends.wellFormed
    {w : Encbuf}
    {seg : Bytes}
    {heads : List Listhead}
    (h : Appends empty w seg heads) :
    WellFormed w := by
  obtain ⟨hStr, hHeads⟩ := h.of_empty
  refine ⟨?_, ?_⟩
  · rw [hStr, hHeads]
    exact h.bounded
  · rw [h.lhsize, hHeads]
    exact Nat.zero_add _

/-
  The size of a buffer ready for output is the length of its
  rendering.
-/
theorem WellFormed.size_eq
    {w : Encbuf}
    (hw : WellFormed w) :
    w.size = (render w.str w.lheads).length := by
  rw [length_render hw.bounded, size, hw.lhsize]

end Encbuf

end Rlp

end PlasmaEvm

------------------------------------------------------------
-- toBytes
------------------------------------------------------------

namespace PlasmaEvm

namespace Rlp

namespace Encbuf

/-
  toBytes' loop over the heads, with out, strpos and pos:
  copy the string data before the head, then puthead the
  header into out[pos:], which panics where the header does
  not fit.
-/
def toBytesLoop
    (str : Bytes) :
    List Listhead → Bytes → Nat → Nat →
      Option (Bytes × Nat × Nat)
  | [], out, strpos, pos => some (out, strpos, pos)
  | head :: rest, out, strpos, pos =>
      match Splice.slice str strpos head.offset with
      | none => none
      | some data =>
          let copied := Splice.copyAt out pos data
          let pos := pos + copied.2
          let strpos := strpos + copied.2
          if pos + head.encode.length ≤ copied.1.length then
            toBytesLoop str rest
              (Splice.copyAt copied.1 pos head.encode).1 strpos
              (pos + head.encode.length)
          else none

/-
  w.toBytes(): the loop over a buffer of w.size() zero
  bytes, then the string data after the last list header.
-/
def toBytes (w : Encbuf) : Option Bytes :=
  match toBytesLoop w.str w.lheads
    (List.replicate w.size 0) 0 0 with
  | none => none
  | some (out, strpos, pos) =>
      (fun data => (Splice.copyAt out pos data).1) <$>
        Splice.slice w.str strpos w.str.length

/-
  From a position at or before the heads, with room for the
  rest of the rendering, the loop copies what the heads emit
  and stops at the last head's offset.
-/
theorem toBytesLoop_spec (str : Bytes) :
    ∀ (heads : List Listhead) (out : Bytes) (strpos pos : Nat),
      Splice.Bounded str strpos (heads.map Listhead.piece) →
      pos + (Splice.interleave str strpos
        (heads.map Listhead.piece)).length ≤ out.length →
      toBytesLoop str heads out strpos pos =
        some ((Splice.copyAt out pos
          (Splice.emitted str strpos
          (heads.map Listhead.piece))).1,
          Splice.lastOffset strpos (heads.map Listhead.piece),
          pos + (Splice.emitted str strpos
            (heads.map Listhead.piece)).length)
  | [], out, strpos, pos, _, _ => by
      simp [toBytesLoop]
  | head :: rest, out, strpos, pos, hBounded, hRoom => by
      have hOff : head.offset ≤ str.length :=
        hBounded.2.le_length
      have hLength := Splice.length_interleave hBounded
      have hRestLength :=
        Splice.length_interleave hBounded.2
      have hStart := hBounded.1
      simp only [List.map_cons, Splice.piecesLength_cons,
        Listhead.piece] at hLength hRoom
      rw [toBytesLoop, Splice.slice_of_le hBounded.1 hOff]
      simp only [List.map_cons, Listhead.piece,
        Splice.emitted_cons, Splice.lastOffset_cons]
      generalize hData : (str.take head.offset).drop strpos = data
      generalize hEmitted : Splice.emitted str head.offset
        (rest.map Listhead.piece) = emitted
      have hDataLength : data.length =
        head.offset - strpos := by
        rw [← hData]
        simp [Nat.min_eq_left hOff]
      have hDataFits : pos + data.length ≤ out.length := by
        omega
      have hHeadFits : pos + data.length +
        head.encode.length ≤ out.length := by
        omega
      have hTail := toBytesLoop_spec str rest
        (Splice.copyAt (Splice.copyAt out pos data).1 (pos +
          data.length) head.encode).1
        head.offset (pos + data.length +
          head.encode.length) hBounded.2
        (by
          rw [Splice.length_copyAt, Splice.length_copyAt]
          omega)
      rw [hEmitted] at hTail
      have hFirst := Splice.copyAt_copyAt out pos data
        head.encode hDataFits
      have hSecond : (Splice.copyAt (Splice.copyAt out pos
        (data ++ head.encode)).1
          (pos + data.length + head.encode.length) emitted).1 =
          (Splice.copyAt out pos (data ++ head.encode ++
            emitted)).1 := by
        have hBoth := Splice.copyAt_copyAt out pos (data ++
          head.encode) emitted
          (by rw [List.length_append]; omega)
        rw [List.length_append, ← Nat.add_assoc] at hBoth
        rw [hBoth]
      have hNext : strpos + data.length = head.offset := by
        omega
      rw [Splice.copyAt_snd_of_fits hDataFits,
        Splice.length_copyAt,
        if_pos hHeadFits, hNext, hTail,
        hFirst]
      dsimp only
      rw [hSecond]
      simp only [List.length_append, Nat.add_assoc]

/- toBytes of a buffer ready for output is its rendering. -/
theorem toBytes_render
    {w : Encbuf}
    (hw : WellFormed w) :
    w.toBytes = some (render w.str w.lheads) := by
  have hZeros : (List.replicate w.size (0 : UInt8)).length =
    w.size := List.length_replicate
  have hWhole := Splice.interleave_eq_emitted w.str 0
    (w.lheads.map Listhead.piece)
  have hLast := hw.bounded.lastOffset_le
  have hSize : w.size = (Splice.emitted w.str 0
    (w.lheads.map Listhead.piece) ++
      w.str.drop (Splice.lastOffset 0
        (w.lheads.map Listhead.piece))).length := by
    rw [hw.size_eq, render, hWhole]
  unfold toBytes
  rw [toBytesLoop_spec w.str w.lheads _ 0 0 hw.bounded
    (by rw [hZeros, hw.size_eq, render, Nat.zero_add])]
  dsimp only
  rw [Splice.slice_of_le hLast (Nat.le_refl _),
    List.take_length]
  simp only [Option.map_eq_map, Option.map_some]
  rw [Splice.copyAt_copyAt _ 0 _ _
    (by rw [hZeros, hSize, List.length_append]; omega),
    Splice.copyAt_zero_of_length_eq (by rw [hZeros, hSize]),
      render, hWhole]

end Encbuf

end Rlp

end PlasmaEvm

------------------------------------------------------------
-- toWriter
------------------------------------------------------------

namespace PlasmaEvm

namespace Rlp

namespace Encbuf

variable {σ ε : Type}

/-
  toWriter's loop over the heads, against an io.Writer's
  Write: the string data before the head, when there is
  some, then the header; an error of Write ends it.
-/
def toWriterLoop
    (write : σ → Bytes → σ × Nat × Option ε)
    (str : Bytes) :
    List Listhead → σ → Nat → Option (σ × Nat × Option ε)
  | [], out, strpos => some (out, strpos, none)
  | head :: rest, out, strpos =>
      let before : Option (σ × Nat × Option ε) :=
        if strpos < head.offset then
          (fun data =>
              let written := write out data
              (written.1, strpos + written.2.1,
                written.2.2)) <$>
            Splice.slice str strpos head.offset
        else some (out, strpos, none)
      match before with
      | none => none
      | some (out, strpos, some err) =>
          some (out, strpos, some err)
      | some (out, strpos, none) =>
          match write out head.encode with
          | (out, _, some err) =>
              some (out, strpos, some err)
          | (out, _, none) =>
              toWriterLoop write str rest out strpos

/-
  w.toWriter(out): the loop, then the string data after the
  last list header.
-/
def toWriter
    (write : σ → Bytes → σ × Nat × Option ε)
    (w : Encbuf)
    (out : σ) : Option (σ × Option ε) :=
  match toWriterLoop write w.str w.lheads out 0 with
  | none => none
  | some (out, _, some err) => some (out, some err)
  | some (out, strpos, none) =>
      if strpos < w.str.length then
        (fun data =>
            let written := write out data
            (written.1, written.2.2)) <$>
          Splice.slice w.str strpos w.str.length
      else some (out, none)

/-
  A bytes.Buffer's Write: it appends what it is given, all
  of it, and never fails.
-/
def bufferWrite
    (ε : Type)
    (buf data : Bytes) :
    Bytes × Nat × Option ε :=
  (buf ++ data, data.length, none)

/- Into a buffer, the loop writes what the heads emit. -/
theorem toWriterLoop_spec (str : Bytes) :
    ∀ (heads : List Listhead) (buf : Bytes) (strpos : Nat),
      Splice.Bounded str strpos (heads.map Listhead.piece) →
      toWriterLoop (bufferWrite ε) str heads buf strpos =
        some (buf ++ Splice.emitted str strpos
          (heads.map Listhead.piece),
          Splice.lastOffset strpos
            (heads.map Listhead.piece), none)
  | [], buf, strpos, _ => by
      simp [toWriterLoop]
  | head :: rest, buf, strpos, hBounded => by
      have hOff : head.offset ≤ str.length :=
        hBounded.2.le_length
      have hBefore : (if strpos < head.offset then
            (fun data => (buf ++ data, strpos + data.length,
              (none : Option ε))) <$>
              Splice.slice str strpos head.offset
          else some (buf, strpos, none)) =
          some (buf ++ (str.take head.offset).drop strpos,
            head.offset, none) := by
        by_cases hLt : strpos < head.offset
        · rw [if_pos hLt,
            Splice.slice_of_le hBounded.1 hOff]
          simp only [Option.map_eq_map, Option.map_some,
            Option.some.injEq, Prod.mk.injEq,
            true_and, and_true, List.length_drop,
              List.length_take]
          omega
        · have hAt : strpos = head.offset :=
            Nat.le_antisymm hBounded.1 (Nat.le_of_not_lt hLt)
          rw [if_neg hLt, hAt]
          simp
      simp only [toWriterLoop, bufferWrite]
      rw [hBefore]
      dsimp only
      rw [toWriterLoop_spec str rest _ head.offset hBounded.2]
      simp [Listhead.piece, List.append_assoc]

/-
  Into a buffer, toWriter writes the rendering, and returns
  no error.
-/
theorem toWriter_render
    {w : Encbuf}
    (hw : WellFormed w)
    (buf : Bytes) :
    w.toWriter (bufferWrite ε) buf = some (buf ++
      render w.str w.lheads, none) := by
  let pieces := w.lheads.map Listhead.piece
  have hLast : Splice.lastOffset 0 pieces ≤ w.str.length :=
    hw.bounded.lastOffset_le
  have hWhole := Splice.interleave_eq_emitted w.str 0 pieces
  unfold toWriter
  rw [toWriterLoop_spec w.str w.lheads buf 0 hw.bounded]
  simp only [render]
  rw [hWhole]
  by_cases hLt : Splice.lastOffset 0 pieces < w.str.length
  · rw [if_pos hLt, Splice.slice_of_le hLast
      (Nat.le_refl _), List.take_length]
    simp [bufferWrite, pieces, List.append_assoc]
  · have hAt : Splice.lastOffset 0 pieces = w.str.length :=
      Nat.le_antisymm hLast (Nat.le_of_not_lt hLt)
    rw [if_neg hLt]
    simp [pieces, ← hAt]

end Encbuf

end Rlp

end PlasmaEvm

------------------------------------------------------------
-- The encReader
------------------------------------------------------------

namespace PlasmaEvm

namespace Rlp

namespace Encbuf

/-
  encReader: the buffer it reads, nil at EOF; the index of
  the list header it reads next; its position in the string
  data; and the piece not yet read, nil when there is none.
-/
structure EncReader where
  buf : Option Encbuf
  lhpos : Nat
  strpos : Nat
  piece : Option Bytes
  deriving DecidableEq, Repr

namespace EncReader

/-
  r.next(): the next piece of data to be read, nil at EOF.
-/
def next
    (r : EncReader) :
    Option (Option Bytes × EncReader) :=
  match r.buf with
  | none => some (none, r)
  | some buf =>
      match r.piece with
      | some piece =>
          some (some piece, r)
      | none =>
          match buf.lheads[r.lhpos]? with
          | some head =>
              if r.strpos < head.offset then
                (fun p => (some p, { r with
                  strpos := head.offset })) <$>
                  Splice.slice buf.str r.strpos head.offset
              else some (some head.encode, { r with
                lhpos := r.lhpos + 1 })
          | none =>
              if r.strpos < buf.str.length then
                (fun p => (some p, { r with
                  strpos := buf.str.length })) <$>
                  Splice.slice buf.str r.strpos buf.str.length
              else some (none, r)

/-
  What a reader has yet to take: its pending piece, its
  heads and its string data.
-/
def left (r : EncReader) : Nat :=
  (if r.piece.isSome then 1 else 0) +
    match r.buf with
    | none => 0
    | some buf =>
        (buf.lheads.length - r.lhpos) +
          (buf.str.length - r.strpos)

/-
  Every piece next hands out takes something off what the
  reader has left.
-/
theorem next_left
    {r r₁ : EncReader}
    {p : Bytes}
    (h : r.next = some (some p, r₁)) :
    { r₁ with piece := none }.left < r.left := by
  unfold next at h
  split at h
  · simp at h
  · rename_i buf hBuf
    split at h
    · simp only [Option.some.injEq, Prod.mk.injEq] at h
      obtain ⟨-, rfl⟩ := h
      simp [left, *]
    · split at h
      · rename_i head hHead
        split at h
        · rename_i hLt
          cases hSlice : Splice.slice buf.str r.strpos
            head.offset with
          | none => simp [hSlice] at h
          | some data =>
              simp only [hSlice, Option.map_eq_map,
                Option.map_some, Option.some.injEq,
                Prod.mk.injEq] at h
              obtain ⟨-, rfl⟩ := h
              have hOff :=
                (Splice.slice_eq_some_iff.mp hSlice).1.2
              simp [left, *]
              omega
        · simp only [Option.some.injEq, Prod.mk.injEq] at h
          obtain ⟨-, rfl⟩ := h
          have hIdx : r.lhpos < buf.lheads.length :=
            (List.getElem?_eq_some_iff.mp hHead).1
          simp [left, *]
          omega
      · split at h
        · rename_i hLt
          simp only [Splice.slice_of_le (Nat.le_of_lt hLt)
            (Nat.le_refl _), Option.map_eq_map,
            Option.map_some, Option.some.injEq,
              Prod.mk.injEq] at h
          obtain ⟨-, rfl⟩ := h
          simp [left, *]
        · simp at h

/-
  Read's loop: take the next piece and copy it into b[n:]; a
  piece that does not fit waits, with what was copied taken
  off it, for the next Read.
-/
def readLoop
    (b : Bytes)
    (n : Nat)
    (r : EncReader) :
    Option (Bytes × Nat × Bool × EncReader) :=
  match _hNext : r.next with
  | none => none
  | some (none, r₁) =>
      some (b, n, true,
        { r₁ with buf := none, piece := none })
  | some (some piece, r₁) =>
      let copied := Splice.copyAt b n piece
      if copied.2 < piece.length then
        some (copied.1, n + copied.2, false, { r₁ with
          piece := some (piece.drop copied.2) })
      else readLoop copied.1 (n + copied.2) { r₁ with
        piece := none }
termination_by r.left
decreasing_by exact next_left _hNext

/-
  r.Read(b): b as Read leaves it, the count n, and whether
  it returned io.EOF.
-/
def Read
    (r : EncReader)
    (b : Bytes) :
    Option (Bytes × Nat × Bool × EncReader) :=
  readLoop b 0 r

end EncReader

end Encbuf

end Rlp

end PlasmaEvm

------------------------------------------------------------
-- What Read Hands Out
------------------------------------------------------------

namespace PlasmaEvm

namespace Rlp

namespace Encbuf

namespace EncReader

/-
  A reader as Read keeps it: the heads still to come lie in
  order after its position in the string data, a released
  reader holds no piece, and a pending piece is never empty.
-/
structure Inv (r : EncReader) : Prop where
  bounded : ∀ buf, r.buf = some buf →
    Splice.Bounded buf.str r.strpos
      ((buf.lheads.drop r.lhpos).map Listhead.piece)
  released : r.buf = none → r.piece = none
  piece : ∀ p, r.piece = some p → p ≠ []

/-
  The bytes a reader has yet to hand out: its pending piece,
  then the rest of the rendering.
-/
def rest (r : EncReader) : Bytes :=
  r.piece.getD [] ++
    match r.buf with
    | none => []
    | some buf =>
        Splice.interleave buf.str r.strpos
          ((buf.lheads.drop r.lhpos).map Listhead.piece)

theorem rest_piece
    (r : EncReader)
    (p : Bytes) :
    { r with piece := some p }.rest = p ++
      { r with piece := none }.rest := by
  simp [rest]

/- A released reader has nothing left. -/
theorem released_inv (r : EncReader) :
    { r with buf := none, piece := none }.Inv :=
  ⟨fun _ h => (by cases h), fun _ => rfl,
    fun _ h => (by cases h)⟩

@[simp]
theorem rest_released (r : EncReader) :
    { r with buf := none, piece := none }.rest = [] :=
  rfl

/-
  A reader on a buffer, with no pending piece, keeps the
  invariant when its heads lie in order.
-/
theorem Inv.of_bounded
    {r : EncReader}
    {buf : Encbuf}
    (hBuf : r.buf = some buf)
    (hPiece : r.piece = none)
    (hBounded : Splice.Bounded buf.str r.strpos
      ((buf.lheads.drop r.lhpos).map Listhead.piece)) :
    r.Inv := by
  refine ⟨fun buf' hBuf' => ?_, fun h =>
    by simp [hBuf] at h, fun _ h => by simp [hPiece] at h⟩
  rw [hBuf, Option.some.injEq] at hBuf'
  rw [← hBuf']
  exact hBounded

/-
  A reader with a buffer keeps the invariant with a piece
  that is not empty.
-/
theorem Inv.withPiece
    {r : EncReader}
    {q : Bytes}
    (hInv : { r with piece := none }.Inv)
    (hBuf : r.buf ≠ none)
    (hq : q ≠ []) :
    { r with piece := some q }.Inv := by
  refine ⟨hInv.bounded, fun h => absurd h hBuf, ?_⟩
  intro q' hq'
  simp only [Option.some.injEq] at hq'
  rw [← hq']
  exact hq

/-
  What next does on a reader Read keeps: at EOF it has
  nothing left; otherwise it hands out a piece that is not
  empty, the front of what is left, and the reader without a
  pending piece keeps the invariant.
-/
theorem next_spec
    {r : EncReader}
    (hInv : r.Inv) :
    (r.next = some (none, r) ∧ r.rest = []) ∨
      ∃ p r₁, r.next = some (some p, r₁) ∧ p ≠ [] ∧
        r₁.buf ≠ none ∧
        { r₁ with piece := none }.Inv ∧
          r.rest = p ++ { r₁ with piece := none }.rest := by
  rcases hBuf : r.buf with _ | buf
  · have hPiece := hInv.released hBuf
    left
    exact ⟨by simp [next, hBuf],
      by simp [rest, hBuf, hPiece]⟩
  rcases hPiece : r.piece with _ | p
  · have hBounded := hInv.bounded buf hBuf
    rcases hHead : buf.lheads[r.lhpos]? with _ | head
    · have hDrop : buf.lheads.drop r.lhpos = [] :=
        List.drop_eq_nil_of_le
          (List.getElem?_eq_none_iff.mp hHead)
      rw [hDrop] at hBounded
      by_cases hLt : r.strpos < buf.str.length
      · right
        refine ⟨buf.str.drop r.strpos, { r with
          strpos := buf.str.length }, ?_, ?_,
          by simp [hBuf], ?_, ?_⟩
        · simp [next, hBuf, hPiece, hHead, hLt,
            Splice.slice_of_le (Nat.le_of_lt hLt)]
        · simp
          omega
        · refine @Inv.of_bounded _ buf (by simp [hBuf]) rfl ?_
          dsimp only
          rw [hDrop]
          exact Nat.le_refl _
        · simp [rest, hBuf, hPiece, hDrop]
      · left
        have hEnd : r.strpos = buf.str.length :=
          Nat.le_antisymm hBounded (Nat.le_of_not_lt hLt)
        exact ⟨by simp [next, hBuf, hPiece, hHead, hLt],
          by simp [rest, hBuf, hPiece, hDrop, hEnd]⟩
    · obtain ⟨hIdx, hAt⟩ :=
        List.getElem?_eq_some_iff.mp hHead
      have hDrop : buf.lheads.drop r.lhpos = head ::
        buf.lheads.drop (r.lhpos + 1) := by
        rw [List.drop_eq_getElem_cons hIdx, hAt]
      rw [hDrop] at hBounded
      have hOff : head.offset ≤ buf.str.length :=
        hBounded.2.le_length
      right
      by_cases hLt : r.strpos < head.offset
      · refine ⟨(buf.str.take head.offset).drop r.strpos, { r with
        strpos := head.offset },
          ?_, ?_, by simp [hBuf], ?_, ?_⟩
        · simp [next, hBuf, hPiece, hHead, hLt,
            Splice.slice_of_le (Nat.le_of_lt hLt) hOff]
        · simp [Nat.min_eq_left hOff]
          omega
        · refine @Inv.of_bounded _ buf (by simp [hBuf]) rfl ?_
          dsimp only
          rw [hDrop]
          exact ⟨Nat.le_refl _, hBounded.2⟩
        · simp [rest, hBuf, hPiece, hDrop, Listhead.piece]
      · have hAtOff : r.strpos = head.offset :=
          Nat.le_antisymm hBounded.1 (Nat.le_of_not_lt hLt)
        refine ⟨head.encode, { r with
          lhpos := r.lhpos + 1 }, ?_, ?_,
            by simp [hBuf], ?_, ?_⟩
        · simp [next, hBuf, hPiece, hHead, hLt]
        · exact puthead_ne_nil 0xC0 0xF7 head.size
        · refine @Inv.of_bounded _ buf (by simp [hBuf]) rfl ?_
          dsimp only
          rw [hAtOff]
          exact hBounded.2
        · simp [rest, hBuf, hPiece, hDrop,
            Listhead.piece, hAtOff]
  · right
    refine ⟨p, r, by simp [next, hBuf, hPiece],
      hInv.piece p hPiece, by simp [hBuf], ?_, ?_⟩
    · exact Inv.of_bounded hBuf rfl (hInv.bounded buf hBuf)
    · have hSame : r = { r with piece := some p } := by
        rw [← hPiece]
      rw [hSame, rest_piece]

theorem readLoop_of_eof
    {r r₁ : EncReader}
    (hNext : r.next = some (none, r₁))
    (b : Bytes)
    (n : Nat) :
    readLoop b n r = some (b, n, true,
      { r₁ with buf := none, piece := none }) := by
  rw [readLoop]
  split <;> simp_all

theorem readLoop_of_piece
    {r r₁ : EncReader}
    {p : Bytes}
    (hNext : r.next = some (some p, r₁))
    (b : Bytes)
    (n : Nat) :
    readLoop b n r =
      if (Splice.copyAt b n p).2 < p.length then
        some ((Splice.copyAt b n p).1,
          n + (Splice.copyAt b n p).2, false,
          { r₁ with piece := some (p.drop (Splice.copyAt b n p).2) })
      else readLoop (Splice.copyAt b n p).1 (n +
        (Splice.copyAt b n p).2) { r₁ with
        piece := none } := by
  rw [readLoop]
  split <;> simp_all

/-
  Read's loop from b[n:], on a reader Read keeps: b takes
  what fits of what the reader had left, the count grows by
  as much, io.EOF comes when all of it fit, and the reader
  keeps the invariant with the rest.  The induction is on
  what is left, which every piece takes down.
-/
theorem readLoop_spec
    (b : Bytes)
    (n : Nat)
    (r : EncReader)
    (hInv : r.Inv)
    (hn : n ≤ b.length) :
    ∃ r', readLoop b n r =
        some ((Splice.copyAt b n r.rest).1,
          n + (Splice.copyAt b n r.rest).2,
          decide (r.rest.length ≤ b.length - n), r') ∧
      r'.Inv ∧ r'.rest = r.rest.drop (b.length - n) := by
  induction hLeft :
    r.rest.length using Nat.strong_induction_on
    generalizing b n r with
  | _ k ih =>
      rcases next_spec hInv with ⟨hNext, hRest⟩ | ⟨p, r₁,
        hNext, hp, hBuf, hInv₁, hRest⟩
      · refine ⟨_, ?_, released_inv r, ?_⟩
        · rw [readLoop_of_eof hNext b n, ← hLeft, hRest]
          simp
        · simp [hRest]
      · have hPos : 0 < p.length :=
          List.length_pos_iff.mpr hp
        have hLength : k = p.length + ({ r₁ with
          piece := none } : EncReader).rest.length := by
          rw [← hLeft, hRest, List.length_append]
        rw [readLoop_of_piece hNext, hRest]
        generalize hR : ({ r₁ with
          piece := none } : EncReader).rest = R at hLength ⊢
        by_cases hFits : p.length ≤ b.length - n
        · have hCount : (Splice.copyAt b n p).2 =
            p.length := Splice.copyAt_snd_of_fits (by omega)
          have hWhole : p.length ≤
            (Splice.copyAt b n (p ++ R)).2 := by
            simp only [Splice.copyAt, List.length_append]
            omega
          obtain ⟨r', hLoop, hInv', hRest'⟩ :=
            ih _ (by rw [hR]; omega)
            (Splice.copyAt b n p).1 (n + p.length) { r₁ with
              piece := none } hInv₁
            (by rw [Splice.length_copyAt]; omega) rfl
          rw [hR, Splice.length_copyAt,
            Splice.copyAt_copyAt b n p _ (by omega)] at hLoop
          rw [hR, Splice.length_copyAt] at hRest'
          rw [hCount, if_neg (Nat.lt_irrefl _), hLoop]
          refine ⟨r', ?_, hInv', ?_⟩
          · have hSum : n + p.length +
              ((Splice.copyAt b n (p ++ R)).2 - p.length) =
                n + (Splice.copyAt b n (p ++ R)).2 := by
              omega
            have hEof : decide (R.length ≤ b.length - (n +
              p.length)) = decide (k ≤ b.length - n) :=
              decide_eq_decide.mpr (by omega)
            rw [hSum, hEof]
          · have hSplit : b.length - n = p.length +
              (b.length - (n + p.length)) := by
              omega
            rw [hRest', hSplit, List.drop_length_add_append]
        · have hCount : (Splice.copyAt b n p).2 =
            b.length - n := by
            simp only [Splice.copyAt]
            omega
          have hEof : decide (k ≤ b.length - n) = false :=
            decide_eq_false (by omega)
          rw [hCount, if_pos (by omega),
            Splice.copyAt_append_of_fills b n p R
            (by omega), hCount,
            hEof]
          refine ⟨_, rfl, hInv₁.withPiece hBuf
            (by simp; omega), ?_⟩
          rw [rest_piece, hR,
            List.drop_append_of_le_length (by omega)]

/-
  r.Read(b) on a reader Read keeps: n is as much of what was
  left as fits in b, b starts with it, io.EOF comes when all
  of it fit, and the reader keeps the invariant with the
  rest.
-/
theorem Read_spec
    (r : EncReader)
    (hInv : r.Inv)
    (b : Bytes) :
    ∃ b' r', r.Read b = some (b',
      min r.rest.length b.length,
      decide (r.rest.length ≤ b.length), r') ∧
      b'.take (min r.rest.length b.length) =
        r.rest.take b.length ∧
      r'.Inv ∧ r'.rest = r.rest.drop b.length := by
  obtain ⟨r', hLoop, hInv', hRest⟩ :=
    readLoop_spec b 0 r hInv (Nat.zero_le _)
  have hCount : (Splice.copyAt b 0 r.rest).2 =
    min r.rest.length b.length := by
    simp [Splice.copyAt]
  refine ⟨(Splice.copyAt b 0 r.rest).1, r',
    ?_, ?_, hInv', ?_⟩
  · rw [Read, hLoop, Nat.zero_add, hCount, Nat.sub_zero]
  · rw [← hCount, Splice.take_copyAt_zero]
  · rw [hRest, Nat.sub_zero]

end EncReader

/-
  A caller reading r with buffers of the given sizes, one
  Read each: what each Read put in b[:n], and whether it
  returned io.EOF.
-/
def readAll
    (r : EncReader) :
    List Nat → Option (List (Bytes × Bool))
  | [] => some []
  | k :: ks =>
      match r.Read (List.replicate k 0) with
      | none => none
      | some (b, n, eof, r) =>
          (fun reads => (b.take n,
            eof) :: reads) <$> readAll r ks

/-
  Reading with buffers of any sizes hands out what the
  reader has left, in chunks that fit.
-/
theorem readAll_spec
    (ks : List Nat) :
    ∀ (r : EncReader), r.Inv → readAll r ks =
      some (Splice.chunks r.rest ks) := by
  induction ks with
  | nil =>
      intro r _
      rfl
  | cons k ks ih =>
      intro r hInv
      obtain ⟨b', r', hRead, hTake, hInv', hRest⟩ :=
        EncReader.Read_spec r hInv (List.replicate k 0)
      rw [List.length_replicate] at hRead hTake hRest
      rw [readAll, hRead]
      simp only [Option.map_eq_map]
      rw [ih r' hInv', hTake, hRest]
      rfl

/-
  A reader on a buffer ready for output hands out the
  buffer's rendering.
-/
theorem EncReader.Inv.of_wellFormed
    {w : Encbuf}
    (hw : WellFormed w) :
    EncReader.Inv ⟨some w, 0, 0, none⟩ :=
  EncReader.Inv.of_bounded rfl rfl (by simpa using hw.bounded)

theorem EncReader.rest_of_wellFormed (w : Encbuf) :
    EncReader.rest ⟨some w, 0, 0,
      none⟩ = render w.str w.lheads := by
  simp [EncReader.rest, render]

end Encbuf

end Rlp

end PlasmaEvm

------------------------------------------------------------
-- EncodeToBytes, Encode and EncodeToReader
------------------------------------------------------------

namespace PlasmaEvm

namespace Rlp

namespace Encbuf

variable {σ ε : Type}

/-
  EncodeToBytes as the code runs it: encode into a reset
  buffer, then toBytes.  `Rlp.EncodeToBytes` is the
  recursive encoding it refines.
-/
def EncodeToBytes
    (ty : Ty)
    (v : Value) :
    Except EncodeError (Option Bytes) :=
  (fun eb => eb.toBytes) <$> encode ty v empty

/-
  Encode(w, val) to a writer that is not an encbuf: encode
  into a reset buffer, then toWriter.
-/
def Encode
    (write : σ → Bytes → σ × Nat × Option ε)
    (out : σ)
    (ty : Ty)
    (v : Value) :
    Except EncodeError (Option (σ × Option ε)) :=
  (fun eb => eb.toWriter write out) <$> encode ty v empty

/-
  EncodeToReader: the size of the encoding, and a reader on
  the buffer.
-/
def EncodeToReader
    (ty : Ty)
    (v : Value) :
    Except EncodeError (Nat × EncReader) :=
  (fun eb => (eb.size, ⟨some eb, 0, 0,
    none⟩)) <$> encode ty v empty

/-
  Encoding into a reset buffer fails as the recursive
  encoding does, or leaves a buffer ready for output that
  renders as it.
-/
theorem encode_empty
    (ty : Ty)
    (v : Value) :
    (∃ e, Rlp.EncodeToBytes ty v = .error e ∧
      encode ty v empty = .error e) ∨
      ∃ b w, Rlp.EncodeToBytes ty v = .ok b ∧
        encode ty v empty = .ok w ∧ WellFormed w ∧
        render w.str w.lheads = b := by
  have hWrites := encode_writes ty v empty
  cases hRef : Rlp.EncodeToBytes ty v with
  | error e =>
      rw [hRef] at hWrites
      exact Or.inl ⟨e, rfl, hWrites⟩
  | ok b =>
      rw [hRef] at hWrites
      obtain ⟨w, seg, heads, hEnc, hApp, hRender⟩ := hWrites
      obtain ⟨hStr, hHeads⟩ := hApp.of_empty
      refine Or.inr ⟨b, w, rfl, hEnc, hApp.wellFormed, ?_⟩
      rw [hStr, hHeads, hRender]

theorem EncodeToBytes_eq
    (ty : Ty)
    (v : Value) :
    EncodeToBytes ty v = some <$>
      Rlp.EncodeToBytes ty v := by
  rcases encode_empty ty v with ⟨e, hRef, hEnc⟩ | ⟨b, w,
    hRef, hEnc, hw, hRender⟩
  · rw [EncodeToBytes, hEnc, hRef]
    rfl
  · rw [EncodeToBytes, hEnc, hRef]
    show Except.ok w.toBytes = Except.ok (some b)
    rw [toBytes_render hw, hRender]

theorem Encode_eq
    (ty : Ty)
    (v : Value)
    (buf : Bytes) :
    Encode (bufferWrite ε) buf ty v = (fun b =>
      some (buf ++ b,
      none)) <$> Rlp.EncodeToBytes ty v := by
  rcases encode_empty ty v with ⟨e, hRef, hEnc⟩ | ⟨b, w,
    hRef, hEnc, hw, hRender⟩
  · rw [Encode, hEnc, hRef]
    rfl
  · rw [Encode, hEnc, hRef]
    show Except.ok (w.toWriter (bufferWrite ε) buf) =
      Except.ok (some (buf ++ b, none))
    rw [toWriter_render hw, hRender]

theorem EncodeToReader_readAll
    (ty : Ty)
    (v : Value)
    (ks : List Nat) :
    (fun sr => (sr.1,
      readAll sr.2 ks)) <$> EncodeToReader ty v =
      (fun b => (b.length, some (Splice.chunks b ks))) <$>
        Rlp.EncodeToBytes ty v := by
  rcases encode_empty ty v with ⟨e, hRef, hEnc⟩ | ⟨b, w,
    hRef, hEnc, hw, hRender⟩
  · rw [EncodeToReader, hEnc, hRef]
    rfl
  · rw [EncodeToReader, hEnc, hRef]
    show Except.ok (w.size, readAll ⟨some w,
      0, 0, none⟩ ks) =
      Except.ok (b.length, some (Splice.chunks b ks))
    rw [readAll_spec ks _ (EncReader.Inv.of_wellFormed hw),
      EncReader.rest_of_wellFormed,
      hw.size_eq, hRender]

/-
  The two-phase encoder refines the recursive encoding: for
  every type and value, EncodeToBytes gives the recursive
  encoding, or fails with its error; Encode writes the same
  bytes to a buffer; and EncodeToReader gives their number
  and a reader that, read with buffers of any sizes, hands
  them out in order, each Read as much as fits, with io.EOF
  once the rest fit.
-/
theorem outputs_refine_recursive
    (ty : Ty)
    (v : Value) :
    EncodeToBytes ty v = some <$> Rlp.EncodeToBytes ty v ∧
      (∀ (ε : Type) (buf : Bytes),
        Encode (bufferWrite ε) buf ty v = (fun b =>
          some (buf ++ b,
          none)) <$> Rlp.EncodeToBytes ty v) ∧
      (∀ ks : List Nat,
        (fun sr => (sr.1, readAll sr.2 ks)) <$>
          EncodeToReader ty v =
          (fun b => (b.length, some
            (Splice.chunks b ks))) <$>
              Rlp.EncodeToBytes ty v) :=
  ⟨EncodeToBytes_eq ty v, fun _ buf => Encode_eq ty v buf,
    EncodeToReader_readAll ty v⟩

end Encbuf

end Rlp

end PlasmaEvm
