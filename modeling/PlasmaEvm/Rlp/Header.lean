import PlasmaEvm.Rlp.Stream
import PlasmaEvm.Rlp.Encode

/-
  The stream reading what the encoder writes.  A header
  written by puthead is read back by readKind as its kind
  and size, in the short form and in the long one, whose
  size bytes have no leading zero and stand for at least 56.
  Kind then keeps that kind, when the value fits in what is
  left, and List enters the list.

  Each lemma takes a stream with room for what it reads and
  says which stream the read leaves: `Stream.consume` of the
  bytes read.

  Key statements include:
    * `Stream.readUint_toBytes`, `Stream.readKind_puthead`
    * `Stream.Kind_puthead`, `Stream.List_encodeList`
-/

------------------------------------------------------------
-- Header Bytes
------------------------------------------------------------

namespace PlasmaEvm

namespace Rlp

/-
  The two header forms, of a string and of a list, with the
  kind each is read as.
-/
inductive HeaderTags : UInt8 → UInt8 → Kind → Prop
  | string : HeaderTags 0x80 0xB7 .String
  | list : HeaderTags 0xC0 0xF7 .List

/- A short string header is a string of its size. -/
theorem string_short_byte :
    ∀ n : Fin 56,
      ¬(0x80 + UInt8.ofNat n.val < 0x80) ∧
        0x80 + UInt8.ofNat n.val < 0xB8 ∧
        ((0x80 + UInt8.ofNat n.val) - 0x80).toNat = n.val := by
  decide

theorem list_short_byte :
    ∀ n : Fin 56,
      ¬(0xC0 + UInt8.ofNat n.val < 0x80) ∧
        ¬(0xC0 + UInt8.ofNat n.val < 0xB8) ∧
        ¬(0xC0 + UInt8.ofNat n.val < 0xC0) ∧
          0xC0 + UInt8.ofNat n.val < 0xF8 ∧
        ((0xC0 + UInt8.ofNat n.val) - 0xC0).toNat = n.val := by
  decide

/-
  A long header's first byte gives the length of the size,
  from 1 to 8.
-/
theorem string_long_byte :
    ∀ k : Fin 9, 0 < k.val →
      ¬(0xB7 + UInt8.ofNat k.val < 0x80) ∧
        ¬(0xB7 + UInt8.ofNat k.val < 0xB8) ∧
        0xB7 + UInt8.ofNat k.val < 0xC0 ∧
          ((0xB7 + UInt8.ofNat k.val) - 0xB7).toNat = k.val := by
  decide

theorem list_long_byte :
    ∀ k : Fin 9, 0 < k.val →
      ¬(0xF7 + UInt8.ofNat k.val < 0x80) ∧
        ¬(0xF7 + UInt8.ofNat k.val < 0xB8) ∧
        ¬(0xF7 + UInt8.ofNat k.val < 0xC0) ∧
          ¬(0xF7 + UInt8.ofNat k.val < 0xF8) ∧
        ((0xF7 + UInt8.ofNat k.val) - 0xF7).toNat = k.val := by
  decide

theorem puthead_of_lt
    {smalltag largetag : UInt8}
    {size : Nat}
    (hShort : size < 56) :
    puthead smalltag largetag size = [smalltag +
      UInt8.ofNat size] := by
  simp [puthead, hShort]

theorem puthead_of_le
    {smalltag largetag : UInt8}
    {size : Nat}
    (hLong : 56 ≤ size) :
    puthead smalltag largetag size =
      (largetag + UInt8.ofNat (BigEndian.toBytes
        size).length) :: BigEndian.toBytes size := by
  simp [puthead, Nat.not_lt.mpr hLong]

/- The size bytes of a long header: one to eight of them. -/
theorem length_toBytes_of_le
    {size : Nat}
    (hLong : 56 ≤ size)
    (hFits : size < 256 ^ 8) :
    0 < (BigEndian.toBytes size).length ∧
      (BigEndian.toBytes size).length < 9 := by
  have hNe := BigEndian.toBytes_ne_nil (Nat.lt_of_lt_of_le
    (by norm_num) hLong)
  have hLe :=
    (BigEndian.length_toBytes_le_iff 8 size).mpr hFits
  exact ⟨List.length_pos_iff.mpr hNe, Nat.lt_succ_of_le hLe⟩

end Rlp

end PlasmaEvm

------------------------------------------------------------
-- Reading Headers
------------------------------------------------------------

namespace PlasmaEvm

namespace Rlp

namespace Stream

theorem readUint_one :
    readUint 1 = (do let b ← readByte; pure b.toNat) := rfl

theorem readUint_add_two (k : Nat) :
    readUint (k + 2) = (do
      let buf ← readFull (k + 2)
      if buf.head? = some 0 then throw .ErrCanonSize
      pure (BigEndian.ofBytes buf)) := rfl

/-
  readUint reads back the shortest bytes of a positive
  number.
-/
theorem readUint_toBytes
    {s : Stream}
    {n : Nat}
    {rest : PlasmaEvm.Bytes}
    (hPos : 0 < n)
    (hRoom : s.Room (BigEndian.toBytes n).length)
    (hInput : s.input = BigEndian.toBytes n ++ rest) :
    readUint (BigEndian.toBytes n).length s =
      .ok n (s.consume (BigEndian.toBytes n).length rest) := by
  have hValue := BigEndian.ofBytes_toBytes n
  have hHead := BigEndian.head_toBytes_ne_zero n
  rcases hBytes : BigEndian.toBytes n
    with _ | ⟨x, _ | ⟨y, tail⟩⟩
  · exact absurd hBytes (BigEndian.toBytes_ne_nil hPos)
  · rw [hBytes] at hRoom hInput hValue
    have hx : x.toNat = n :=
      by simpa [BigEndian.ofBytes] using hValue
    rw [List.length_singleton, readUint_one,
      EStateM.bind_of_ok (readByte_of_room hRoom hInput), hx]
    rfl
  · rw [hBytes] at hRoom hInput hValue hHead
    have hFull : readFull (tail.length + 2) s =
        .ok (x :: y :: tail) (s.consume (x :: y ::
          tail).length rest) :=
      readFull_of_room hRoom hInput
    have hNoZero : ¬((x :: y :: tail).head? = some 0) := hHead
    rw [show (x :: y :: tail).length = tail.length + 2
      from rfl, readUint_add_two,
      EStateM.bind_of_ok hFull]
    simp only [hNoZero, if_false, hValue]
    rfl

theorem readKind_short
    {smalltag largetag : UInt8}
    {kind : Rlp.Kind}
    (hTags : HeaderTags smalltag largetag kind)
    {s : Stream}
    {size : Nat}
    {rest : PlasmaEvm.Bytes}
    (hShort : size < 56)
    (hRoom : s.Room 1)
    (hInput : s.input =
      (smalltag + UInt8.ofNat size) :: rest) :
    ∃ t, readKind s = .ok (kind, size) t ∧
      s.After 1 rest t ∧ t.kind = none := by
  refine ⟨{ s.consume 1 rest with
    byteval := 0 }, ?_, ⟨rfl, rfl, rfl⟩, rfl⟩
  unfold readKind
  rw [readByte_of_room hRoom hInput]
  dsimp only
  cases hTags with
  | string =>
      have hByte := string_short_byte ⟨size, hShort⟩
      rw [if_neg hByte.1, if_pos hByte.2.1, hByte.2.2]
  | list =>
      have hByte := list_short_byte ⟨size, hShort⟩
      rw [if_neg hByte.1, if_neg hByte.2.1,
        if_neg hByte.2.2.1, if_pos hByte.2.2.2.1,
        hByte.2.2.2.2]

/- longSize over the size bytes of a long header. -/
theorem longSize_toBytes
    (kind : Rlp.Kind)
    {s : Stream}
    {size : Nat}
    {rest : PlasmaEvm.Bytes}
    (hLong : 56 ≤ size)
    (hRoom : s.Room (BigEndian.toBytes size).length)
    (hInput : s.input = BigEndian.toBytes size ++ rest) :
    longSize kind (BigEndian.toBytes size).length s =
      .ok (kind, size) (s.consume
        (BigEndian.toBytes size).length rest) := by
  have hUint := readUint_toBytes (Nat.lt_of_lt_of_le
    (by norm_num) hLong) hRoom hInput
  unfold longSize
  rw [EStateM.bind_of_ok hUint]
  simp only [Nat.not_lt.mpr hLong, if_false]
  rfl

theorem readKind_long
    {smalltag largetag : UInt8}
    {kind : Rlp.Kind}
    (hTags : HeaderTags smalltag largetag kind)
    {s : Stream}
    {size : Nat}
    {rest : PlasmaEvm.Bytes}
    (hLong : 56 ≤ size)
    (hFits : size < 256 ^ 8)
    (hRoom : s.Room (1 + (BigEndian.toBytes size).length))
    (hInput : s.input =
      (largetag + UInt8.ofNat (BigEndian.toBytes
        size).length) :: (BigEndian.toBytes size ++ rest)) :
    ∃ t, readKind s = .ok (kind, size) t ∧
      s.After (1 + (BigEndian.toBytes size).length) rest t ∧
        t.kind = none := by
  have hLength := length_toBytes_of_le hLong hFits
  let first := { s.consume 1 (BigEndian.toBytes size ++ rest) with
    byteval := 0 }
  have hFirst : s.After 1 (BigEndian.toBytes size ++
    rest) first := ⟨rfl, rfl, rfl⟩
  have hSize := longSize_toBytes kind hLong
    (hRoom.after hFirst) rfl
  refine ⟨first.consume (BigEndian.toBytes size).length rest, ?_,
    hFirst.trans (Stream.After.consume _ _ _), rfl⟩
  unfold readKind
  rw [readByte_of_room (hRoom.mono (Nat.le_add_right 1 _)) hInput]
  dsimp only
  cases hTags with
  | string =>
      have hTag := string_long_byte ⟨_, hLength.2⟩ hLength.1
      rw [if_neg hTag.1, if_neg hTag.2.1,
        if_pos hTag.2.2.1, hTag.2.2.2]
      exact hSize
  | list =>
      have hTag := list_long_byte ⟨_, hLength.2⟩ hLength.1
      rw [if_neg hTag.1, if_neg hTag.2.1, if_neg hTag.2.2.1,
        if_neg hTag.2.2.2.1, hTag.2.2.2.2]
      exact hSize

/-
  readKind reads a header puthead wrote as its kind and
  size.
-/
theorem readKind_puthead
    {smalltag largetag : UInt8}
    {kind : Rlp.Kind}
    (hTags : HeaderTags smalltag largetag kind)
    {s : Stream}
    {size : Nat}
    {rest : PlasmaEvm.Bytes}
    (hFits : size < 256 ^ 8)
    (hRoom : s.Room (puthead smalltag largetag size).length)
    (hInput : s.input =
      puthead smalltag largetag size ++ rest) :
    ∃ t, readKind s = .ok (kind, size) t ∧
      s.After (puthead smalltag largetag size).length rest t
        ∧ t.kind = none := by
  rcases Nat.lt_or_ge size 56 with hShort | hLong
  · rw [puthead_of_lt hShort] at hRoom hInput ⊢
    exact readKind_short hTags hShort hRoom hInput
  · rw [puthead_of_le hLong] at hRoom hInput ⊢
    rw [List.length_cons, Nat.add_comm] at hRoom ⊢
    exact readKind_long hTags hLong hFits hRoom hInput

/- readKind of a single byte below 0x80. -/
theorem readKind_byte
    {s : Stream}
    {b : UInt8}
    {rest : PlasmaEvm.Bytes}
    (hByte : b < 0x80)
    (hRoom : s.Room 1)
    (hInput : s.input = b :: rest) :
    ∃ t, readKind s = .ok (.Byte, 0) t ∧ s.After 1 rest t ∧
      t.kind = none ∧ t.byteval = b := by
  refine ⟨{ s.consume 1 rest with
    byteval := b }, ?_, ⟨rfl, rfl, rfl⟩, rfl, rfl⟩
  unfold readKind
  rw [readByte_of_room hRoom hInput]
  dsimp only
  rw [if_pos hByte]

end Stream

end Rlp

end PlasmaEvm

------------------------------------------------------------
-- Keeping a Kind and Entering a List
------------------------------------------------------------

namespace PlasmaEvm

namespace Rlp

namespace Stream

/- A value that fits in what is left raises no error. -/
theorem sizeError_of_room
    {s : Stream}
    {size : Nat}
    (hRoom : s.Room size) :
    sizeError size s = none := by
  unfold sizeError
  cases hStack : s.stack with
  | nil => simp [Nat.not_lt.mpr hRoom.1]
  | cons tos rest =>
      have hTos := hRoom.2 tos (by simp [hStack])
      simp [Nat.not_lt.mpr hTos]

theorem readHeader_of_readKind
    {s t : Stream}
    {kind : Rlp.Kind}
    {size : Nat}
    (hRead : readKind s = .ok (kind, size) t)
    (hRoom : t.Room size) :
    readHeader s = .ok (kind, size)
      { t with kind := some kind, size := size, kinderr := none } := by
  unfold readHeader
  rw [hRead]
  dsimp only
  rw [sizeError_of_room hRoom]
  rfl

/-
  Kind, rearmed and with room for a byte, reads a new
  header.
-/
theorem Kind_of_rearmed
    {s : Stream}
    (hKind : s.kind = none)
    (hRoom : s.Room 1) :
    Kind s = readHeader { s with kinderr := none } := by
  unfold Kind
  rw [hKind]
  dsimp only
  cases hStack : s.stack with
  | nil => rfl
  | cons tos rest =>
      have hTos := hRoom.2 tos (by simp [hStack])
      have hNotEnd : tos.pos ≠ tos.size := by omega
      simp only [hNotEnd, if_false]

/-
  Kind reads a header puthead wrote, whose value fits in
  what is left, and keeps it.
-/
theorem Kind_puthead
    {smalltag largetag : UInt8}
    {kind : Rlp.Kind}
    (hTags : HeaderTags smalltag largetag kind)
    {s : Stream}
    {size : Nat}
    {rest : PlasmaEvm.Bytes}
    (hKind : s.kind = none)
    (hFits : size < 256 ^ 8)
    (hRoom : s.Room ((puthead smalltag largetag
      size).length + size))
    (hInput : s.input =
      puthead smalltag largetag size ++ rest) :
    ∃ t, Kind s = .ok (kind, size) t ∧
      s.After (puthead smalltag largetag size).length rest t ∧
      t.kind = some kind ∧ t.kinderr = none := by
  have hHeaderRoom : s.Room (puthead smalltag largetag
    size).length :=
    hRoom.mono (Nat.le_add_right _ _)
  have hOne : s.Room 1 :=
    hHeaderRoom.mono (List.length_pos_iff.mpr
      (puthead_ne_nil smalltag largetag size))
  rcases readKind_puthead hTags hFits (s := { s with
    kinderr := none }) hHeaderRoom hInput with
    ⟨t, hRead, hAfter, -⟩
  have hAfter' : s.After (puthead smalltag largetag
    size).length rest t :=
    ⟨hAfter.input, hAfter.remaining, hAfter.stack⟩
  refine ⟨{ t with
    kind := some kind,
    size := size,
    kinderr := none }, ?_,
    ⟨hAfter.input, hAfter.remaining,
      hAfter.stack⟩, rfl, rfl⟩
  rw [Kind_of_rearmed hKind hOne]
  exact readHeader_of_readKind hRead (hRoom.after hAfter')

/-
  Kind, rearmed, reads a single byte below 0x80 and keeps
  it.
-/
theorem Kind_byte
    {s : Stream}
    {b : UInt8}
    {rest : PlasmaEvm.Bytes}
    (hKind : s.kind = none)
    (hByte : b < 0x80)
    (hRoom : s.Room 1)
    (hInput : s.input = b :: rest) :
    ∃ t, Kind s = .ok (.Byte, 0) t ∧ s.After 1 rest t ∧
      t.kind = some .Byte ∧ t.kinderr = none ∧
        t.byteval = b := by
  rcases readKind_byte (s := { s with
    kinderr := none }) hByte hRoom hInput with
    ⟨t, hRead, hAfter, -, hByteval⟩
  refine ⟨{ t with
    kind := some .Byte,
    size := 0,
    kinderr := none }, ?_,
    ⟨hAfter.input, hAfter.remaining, hAfter.stack⟩,
      rfl, rfl, hByteval⟩
  rw [Kind_of_rearmed hKind hRoom]
  exact readHeader_of_readKind hRead ⟨Nat.zero_le _,
    fun _ _ => Nat.zero_le _⟩

/-
  List enters a list the encoder wrote: its payload is the
  innermost list.
-/
theorem List_encodeList
    {s : Stream}
    {payload rest : PlasmaEvm.Bytes}
    (hKind : s.kind = none)
    (hFits : payload.length < 256 ^ 8)
    (hRoom : s.Room (encodeList payload).length)
    (hInput : s.input = encodeList payload ++ rest) :
    ∃ t, List s = .ok payload.length t ∧
      t.input = payload ++ rest ∧
      t.remaining = s.remaining -
        (puthead 0xC0 0xF7 payload.length).length ∧
      t.stack = ⟨0, payload.length⟩ ::
        advanceStack (puthead 0xC0 0xF7
          payload.length).length s.stack ∧
      t.kind = none := by
  have hRoom' : s.Room ((puthead 0xC0 0xF7
    payload.length).length + payload.length) := by
    simpa [encodeList] using hRoom
  have hInput' : s.input = puthead 0xC0 0xF7 payload.length
    ++ (payload ++ rest) := by
    simpa [encodeList] using hInput
  rcases Kind_puthead HeaderTags.list hKind hFits
    hRoom' hInput' with
    ⟨t, hRead, hAfter, -, -⟩
  refine ⟨{ t with
    stack := ⟨0, payload.length⟩ :: t.stack,
    kind := none,
    size := 0 }, ?_,
    hAfter.input, hAfter.remaining,
      by rw [← hAfter.stack], rfl⟩
  unfold List
  rw [EStateM.bind_of_ok hRead]
  simp only [ne_eq, not_true_eq_false, if_false]
  rfl

end Stream

end Rlp

end PlasmaEvm
