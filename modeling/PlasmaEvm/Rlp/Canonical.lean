import PlasmaEvm.Rlp.Decode
import PlasmaEvm.Rlp.Header

/-
  Decoding what the encoder writes.  decodeByteArray reads a
  byte array of one byte from a single byte below 0x80; when
  that byte is 0, `Uint` fails, its error is dropped, and
  the kind Byte stays kept with the byte 0.  The next
  decoder of the same list then reads that kept byte instead
  of its own value: it fails, or it takes the zero byte
  again without moving, and the list is left with bytes
  unread.

  So a struct whose first field is a [1]byte holding 0 and
  which has another field is never decoded from its own
  encoding, whatever the type and value of that field.

  Key statements include:
    * `decoder_stack_of_keepsZero`
    * `decoder_zero_byte_pair`
    * `DecodeBytes_after_zero_byte_array`
-/

------------------------------------------------------------
-- A Kept Zero Byte
------------------------------------------------------------

namespace PlasmaEvm

namespace Rlp

/-
  The stream a one-byte array of 0 leaves: the kind Byte
  kept, with the byte 0.
-/
structure Stream.KeepsZero (s : Stream) : Prop where
  kind : s.kind = some .Byte
  kinderr : s.kinderr = none
  byteval : s.byteval = 0

namespace Stream

/- A kept kind is given again without reading. -/
theorem Kind_of_kept
    {s : Stream}
    {kind : Rlp.Kind}
    (hKind : s.kind = some kind)
    (hErr : s.kinderr = none) :
    Kind s = .ok (kind, s.size) s := by
  unfold Kind
  rw [hKind]
  dsimp only
  rw [hErr]

theorem Kind_of_keepsZero
    {s : Stream}
    (hZero : s.KeepsZero) :
    Kind s = .ok (.Byte, s.size) s :=
  Kind_of_kept hZero.kind hZero.kinderr

/- uint rejects the kept zero byte, and leaves it kept. -/
theorem uint_of_keepsZero
    {s : Stream}
    (hZero : s.KeepsZero)
    (maxbits : Nat) :
    uint maxbits s = .error .ErrCanonInt s := by
  unfold uint
  rw [EStateM.bind_of_ok (Kind_of_keepsZero hZero)]
  dsimp only
  rw [EStateM.bind_of_ok (EStateM.get_apply s),
    if_pos hZero.byteval]
  rfl

/- Bytes takes the kept zero byte and rearms. -/
theorem Bytes_of_keepsZero
    {s : Stream}
    (hZero : s.KeepsZero) :
    Bytes s = .ok [0] { s with kind := none } := by
  unfold Bytes
  rw [EStateM.bind_of_ok (Kind_of_keepsZero hZero)]
  simp only [← hZero.byteval]
  rfl

theorem List_of_keepsZero
    {s : Stream}
    (hZero : s.KeepsZero) :
    List s = .error .ErrExpectedList s := by
  unfold List
  rw [EStateM.bind_of_ok (Kind_of_keepsZero hZero)]
  rfl

theorem Bool_of_keepsZero
    {s : Stream}
    (hZero : s.KeepsZero) :
    Bool s = .error .ErrCanonInt s := by
  unfold Bool
  rw [EStateM.bind_of_error (uint_of_keepsZero hZero 8)]

/- ListEnd refuses a list whose payload is not all read. -/
theorem ListEnd_of_pos_ne
    {s : Stream}
    {tos : ListPos}
    {outer}
    (hStack : s.stack = tos :: outer)
    (hPos : tos.pos ≠ tos.size) :
    ListEnd s = .error .errNotAtEOL s := by
  unfold ListEnd
  rw [hStack]
  dsimp only
  rw [if_pos hPos]

end Stream

end Rlp

end PlasmaEvm

------------------------------------------------------------
-- Decoders After a Kept Zero Byte
------------------------------------------------------------

namespace PlasmaEvm

namespace Rlp

section KeepsZero

variable {s : Stream}
variable (hZero : s.KeepsZero)
include hZero

theorem decodeUint_of_keepsZero (bits : Nat) :
    decodeUint bits s = .error (wrapStreamError
      .ErrCanonInt) s := by
  unfold decodeUint
  rw [EStateM.bind_of_error (wrap_of_error
    (Stream.uint_of_keepsZero hZero bits))]

theorem decodeBool_of_keepsZero :
    decodeBool s =
      .error (wrapStreamError .ErrCanonInt) s := by
  unfold decodeBool
  rw [EStateM.bind_of_error (wrap_of_error
    (Stream.Bool_of_keepsZero hZero))]

theorem decodeString_of_keepsZero :
    decodeString s =
      .ok (.str [0]) { s with kind := none } := by
  unfold decodeString
  rw [EStateM.bind_of_ok (wrap_of_ok
    (Stream.Bytes_of_keepsZero hZero))]
  rfl

/- A big integer cannot start with the zero byte. -/
theorem decodeBigInt_of_keepsZero :
    decodeBigInt s = .error (wrapStreamError .ErrCanonInt)
      { s with kind := none } := by
  unfold decodeBigInt
  rw [EStateM.bind_of_ok (wrap_of_ok
    (Stream.Bytes_of_keepsZero hZero))]
  rfl

theorem decodeListSlice_of_keepsZero
    (fuel : Nat)
    (elemdec : DecodeM Value) :
    decodeListSlice fuel elemdec s =
      .error (wrapStreamError .ErrExpectedList) s := by
  unfold decodeListSlice
  rw [EStateM.bind_of_error (wrap_of_error
    (Stream.List_of_keepsZero hZero))]

theorem decodeListArray_of_keepsZero
    (vlen : Nat)
    (elemdec : DecodeM Value) :
    decodeListArray vlen elemdec s =
      .error (wrapStreamError .ErrExpectedList) s := by
  unfold decodeListArray
  rw [EStateM.bind_of_error (wrap_of_error
    (Stream.List_of_keepsZero hZero))]

theorem decodeStruct_of_keepsZero
    (fields : DecodeM (List Value)) :
    decodeStruct fields s = .error
      (wrapStreamError .ErrExpectedList) s := by
  unfold decodeStruct
  rw [EStateM.bind_of_error (wrap_of_error
    (Stream.List_of_keepsZero hZero))]

/-
  decodeByteArray reads the kept zero byte again: an array
  of one byte takes it and leaves the stream as it was, with
  the kind still kept; any other length fails.
-/
theorem decodeByteArray_of_keepsZero
    (vlen : Nat)
    {v : Value}
    {t : Stream}
    (h : decodeByteArray vlen s = .ok v t) :
    t = s := by
  unfold decodeByteArray at h
  rw [EStateM.bind_of_ok (raw_of_ok
    (Stream.Kind_of_keepsZero hZero))] at h
  dsimp only at h
  by_cases hEmpty : vlen = 0
  · rw [if_pos hEmpty] at h
    cases h
  · rw [if_neg hEmpty] at h
    by_cases hLong : vlen > 1
    · simp only [if_pos hLong] at h
      cases h
    · have hUint : Stream.Uint s = .error .ErrCanonInt s :=
        Stream.uint_of_keepsZero hZero 64
      simp only [if_neg hLong, bind, EStateM.bind, hUint,
        pure, EStateM.pure] at h
      cases h
      rfl

theorem decodeInterface_of_keepsZero
    (fuel : Nat)
    {v : Value}
    {t : Stream}
    (h : decodeInterface fuel s = .ok v t) :
    t.stack = s.stack := by
  cases fuel with
  | zero => cases h
  | succ fuel =>
      unfold decodeInterface at h
      rw [EStateM.bind_of_ok (raw_of_ok
        (Stream.Kind_of_keepsZero hZero))] at h
      dsimp only at h
      simp only [reduceCtorEq, if_false] at h
      rw [EStateM.bind_of_ok (raw_of_ok
        (Stream.Bytes_of_keepsZero hZero))] at h
      cases h
      rfl

end KeepsZero

/-
  After a kept zero byte, the decoder of any type either
  fails or leaves the lists where they were: it reads
  nothing of the input.
-/
theorem decoder_stack_of_keepsZero (fuel : Nat) :
    (ty : Ty) → {s : Stream} → s.KeepsZero →
      ∀ {v : Value} {t : Stream},
      decoder fuel ty .empty s = .ok v t → t.stack = s.stack
  | .uint bits, s, hZero, v, t, h => by
      simp only [decoder,
        decodeUint_of_keepsZero hZero] at h
      cases h
  | .bool, s, hZero, v, t, h => by
      simp only [decoder,
        decodeBool_of_keepsZero hZero] at h
      cases h
  | .string, s, hZero, v, t, h => by
      simp only [decoder,
        decodeString_of_keepsZero hZero] at h
      cases h
      rfl
  | .bigInt, s, hZero, v, t, h => by
      simp only [decoder,
        decodeBigInt_of_keepsZero hZero] at h
      cases h
  | .ptr elem, s, hZero, v, t, h => by
      simp only [decoder, Tag.nilKind] at h
      unfold decodeSimplePtr at h
      cases hElem : decoder fuel elem .empty s with
      | error err s' =>
          rw [EStateM.bind_of_error hElem] at h
          cases h
      | ok v' s' =>
          rw [EStateM.bind_of_ok hElem] at h
          cases h
          exact decoder_stack_of_keepsZero fuel elem hZero hElem
  | .slice elem, s, hZero, v, t, h => by
      simp only [decoder] at h
      by_cases hByte : elem.isByte
      · rw [if_pos hByte,
          decodeString_of_keepsZero hZero] at h
        cases h
        rfl
      · simp only [hByte, Bool.false_eq_true,
          if_false, reduceCtorEq,
          decodeListSlice_of_keepsZero hZero] at h
  | .array len elem, s, hZero, v, t, h => by
      simp only [decoder] at h
      by_cases hByte : elem.isByte
      · rw [if_pos hByte] at h
        rw [decodeByteArray_of_keepsZero hZero len h]
      · rw [if_neg hByte,
          decodeListArray_of_keepsZero hZero] at h
        cases h
  | .struct fields, s, hZero, v, t, h => by
      simp only [decoder,
        decodeStruct_of_keepsZero hZero] at h
      cases h
  | .iface, s, hZero, v, t, h => by
      simp only [decoder] at h
      exact decodeInterface_of_keepsZero hZero fuel h

end Rlp

end PlasmaEvm

------------------------------------------------------------
-- A Struct After a Zero Byte Array
------------------------------------------------------------

namespace PlasmaEvm

namespace Rlp

/-
  The encoding of a [1]byte holding 0 followed by a field of
  type `ty`.
-/
theorem writer_zero_byte_pair
    {ty : Ty}
    {v : Value}
    {enc : Bytes}
    (h : writer (.struct (.cons .empty (.array 1 (.uint 8))
      (.cons .empty ty .nil))) .empty
      (.list [.str [0], v]) = .ok enc) :
    ∃ w, writer ty .empty v = .ok w ∧
      enc = encodeList (0 :: w) := by
  simp only [writer] at h
  rcases Except.map_eq_ok.mp h with ⟨payload, hFields, rfl⟩
  have hByte : writer (.array 1 (.uint 8)) .empty (.str
    [0]) = .ok [0] := rfl
  simp only [writeFields, hByte] at hFields
  cases hField : writer ty .empty v with
  | error err =>
      rw [hField] at hFields
      cases hFields
  | ok w =>
      rw [hField] at hFields
      cases hFields
      exact ⟨w, rfl, by simp⟩

/-
  A [1]byte read from a single byte that is then kept: the
  array holds 0.
-/
theorem decodeByteArray_one_of_Kind
    {s t : Stream}
    {size : Nat}
    (hKind : Stream.Kind s = .ok (.Byte, size) t)
    (hZero : t.KeepsZero) :
    decodeByteArray 1 s = .ok (.str [0]) t := by
  unfold decodeByteArray
  rw [EStateM.bind_of_ok (raw_of_ok hKind)]
  dsimp only
  have hUint : Stream.Uint t = .error .ErrCanonInt t :=
    Stream.uint_of_keepsZero hZero 64
  simp only [one_ne_zero, if_false, gt_iff_lt, lt_irrefl,
    bind, EStateM.bind, hUint, pure,
    EStateM.pure]
  rfl

/-
  The fields of the struct leave the lists where the zero
  byte left them: the [1]byte keeps its byte, and the second
  field, which reads that kept byte, reads nothing more.
-/
theorem decodeFields_zero_byte_pair_stack
    {fuel : Nat}
    {ty : Ty}
    {s t u : Stream}
    {vs : List Value}
    (hArray : decoder fuel (.array 1 (.uint 8)) .empty s =
      .ok (.str [0]) t)
    (hZero : t.KeepsZero)
    (h : decodeFields fuel (.cons .empty (.array 1
      (.uint 8)) (.cons .empty ty .nil)) s =
      .ok vs u) :
    u.stack = t.stack := by
  rcases decodeFields_cons_empty_of_ok h
    with ⟨v, t', hArray', vs', hRest⟩
  rw [hArray] at hArray'
  cases hArray'
  rcases decodeFields_cons_empty_of_ok hRest
    with ⟨v', u', hField, vs'', hNil⟩
  rw [decodeFields_nil] at hNil
  cases hNil
  exact decoder_stack_of_keepsZero fuel ty hZero hField

/-
  The struct decoder on the encoding of such a struct: it
  enters the list, takes the zero byte, and the list is left
  with the second field's bytes unread.
-/
theorem decoder_zero_byte_pair
    (fuel : Nat)
    (ty : Ty)
    {w : Bytes}
    (hw : w ≠ [])
    (hFits : (0 :: w).length < 256 ^ 8) :
    ∃ err t, decoder fuel (.struct (.cons .empty (.array 1
      (.uint 8)) (.cons .empty ty .nil)))
      .empty (Stream.reset (encodeList (0 :: w))) =
        .error err t := by
  have hReset : (Stream.reset (encodeList (0 :: w))).input =
    encodeList (0 :: w) ++ [] := by
    simp [Stream.reset]
  rcases Stream.List_encodeList rfl hFits ⟨le_rfl,
    by simp [Stream.reset]⟩ hReset with
    ⟨s, hList, hInput, hRemaining, hStack, hKind⟩
  have hStack' : s.stack = [⟨0, w.length + 1⟩] := by
    simp [hStack, Stream.reset, advanceStack]
  have hRoom : s.Room 1 := by
    refine ⟨?_, fun tos hTos => ?_⟩
    · simp [hRemaining, Stream.reset, encodeList]
    · simp only [hStack', List.head?_cons, Option.mem_def,
        Option.some.injEq] at hTos
      rw [← hTos]
      simp
  have hInput' : s.input = 0 :: w := by simp [hInput]
  rcases Stream.Kind_byte hKind
    (by decide : (0 : UInt8) < 0x80) hRoom hInput' with
    ⟨t, hByte, hAfter, hKept, hErr, hZeroByte⟩
  have hZero : t.KeepsZero := ⟨hKept, hErr, hZeroByte⟩
  have hArray : decoder fuel (.array 1 (.uint 8)) .empty s =
    .ok (.str [0]) t :=
    decodeByteArray_one_of_Kind hByte hZero
  have hStackT : t.stack = [⟨1, w.length + 1⟩] := by
    simp [hAfter.stack, hStack', advanceStack]
  show ∃ err u, decodeStruct (decodeFields fuel _)
    _ = .error err u
  unfold decodeStruct
  rw [EStateM.bind_of_ok (wrap_of_ok hList)]
  cases hFields : decodeFields fuel (.cons .empty (.array 1
    (.uint 8)) (.cons .empty ty .nil)) s with
  | error err u =>
      exact ⟨err, u, EStateM.bind_of_error hFields _⟩
  | ok vs u =>
      have hStackU : u.stack = [⟨1, w.length + 1⟩] := by
        rw [decodeFields_zero_byte_pair_stack hArray hZero
          hFields, hStackT]
      have hPos : (⟨1, w.length + 1⟩ : ListPos).pos ≠ (⟨1,
        w.length + 1⟩ : ListPos).size := by
        have hLength : w.length ≠ 0 := by simpa using hw
        simp only
        omega
      rw [EStateM.bind_of_ok hFields]
      exact ⟨_, u, EStateM.bind_of_error (wrap_of_error
        (Stream.ListEnd_of_pos_ne hStackU hPos)) _⟩

/-
  A struct whose first field is a [1]byte holding 0,
  followed by a field of any type and value, is never
  decoded from its encoding.
-/
theorem DecodeBytes_after_zero_byte_array
    (ty : Ty)
    (v : Value)
    (enc : Bytes)
    (hEncode : EncodeToBytes (.struct (.cons .empty
      (.array 1 (.uint 8)) (.cons .empty ty .nil)))
      (.list [.str [0], v]) = .ok enc)
    (hLength : enc.length < 2 ^ 63) :
    ∃ err, DecodeBytes (.struct (.cons .empty (.array 1
      (.uint 8)) (.cons .empty ty .nil))) enc =
      .error err := by
  unfold EncodeToBytes at hEncode
  cases hTag : Ty.tagError (.struct (.cons .empty (.array 1
    (.uint 8)) (.cons .empty ty .nil))) with
  | some err =>
      rw [hTag] at hEncode
      cases hEncode
  | none =>
      rw [hTag] at hEncode
      dsimp only at hEncode
      rcases writer_zero_byte_pair hEncode
        with ⟨w, hField, rfl⟩
      have hw : w ≠ [] := writer_ne_nil v ty .empty
        (by decide) hField
      have hFits : (0 :: w).length < 256 ^ 8 := by
        have hPayload : (0 :: w).length ≤ (encodeList (0 ::
          w)).length := by
          simp [encodeList]
        calc (0 :: w).length ≤ (encodeList (0 ::
          w)).length := hPayload
          _ < 2 ^ 63 := hLength
          _ < 256 ^ 8 := by norm_num
      rcases decoder_zero_byte_pair ((encodeList (0 ::
        w)).length + 1) ty hw hFits with
        ⟨err, t, hDecode⟩
      refine ⟨err, ?_⟩
      unfold DecodeBytes
      rw [hTag]
      dsimp only
      rw [hDecode]

/-
  The struct {[1]byte{0}, uint64 5}: it encodes as C2 00 05,
  which is rejected.
-/
theorem zeroBytePair_rejected :
    EncodeToBytes (.struct (.cons .empty (.array 1
      (.uint 8)) (.cons .empty (.uint 64) .nil)))
        (.list [.str [0],
          .uint 5]) = .ok [0xC2, 0x00, 0x05] ∧
      [(0xC2 : UInt8), 0x00, 0x05].length < 2 ^ 63 ∧
      ∃ err, DecodeBytes (.struct (.cons .empty (.array 1
        (.uint 8)) (.cons .empty (.uint 64) .nil)))
        [0xC2, 0x00, 0x05] = .error err :=
  ⟨rfl, by decide,
    DecodeBytes_after_zero_byte_array (.uint 64) (.uint 5)
      [0xC2, 0x00, 0x05] rfl (by decide)⟩

-- the uint64 reads the kept zero byte, a non-canonical integer
example :
    (DecodeBytes (.struct (.cons .empty (.array 1 (.uint 8))
      (.cons .empty (.uint 64) .nil)))
      [0xC2, 0x00, 0x05]).map (fun _ => ()) =
      .error (.decodeError
        "non-canonical integer (leading zero bytes)") := by
  decide +kernel

/-
  The other way round: C1 00, a list of the single byte 0,
  decodes as the struct {[1]byte{0}, [1]byte{0}}, which
  encodes as C2 00 00.
-/
example :
    ((DecodeBytes (.struct (.cons .empty (.array 1
      (.uint 8)) (.cons .empty (.array 1 (.uint 8)) .nil)))
      [0xC1, 0x00]).toOption.map fun v =>
        (EncodeToBytes
          (.struct (.cons .empty (.array 1 (.uint 8))
            (.cons .empty (.array 1
            (.uint 8)) .nil))) v).toOption) =
      some (some [0xC2, 0x00, 0x00]) := by
  decide +kernel

end Rlp

end PlasmaEvm
