import PlasmaEvm.Rlp.Types
import PlasmaEvm.Data.BigEndian
import PlasmaEvm.Control.Except

/-
  The encoder of package rlp (encode.go).  A string is a
  single byte below 0x80, or a header and its bytes; a list
  is a header and the encodings of its elements.  A header
  is one byte for a size below 56, and otherwise a byte for
  the length of the size and the size's big-endian bytes
  (puthead).

  The writers follow makeWriter case by case.  encbuf
  collects the strings and the list headers apart and joins
  them in toBytes; the model writes each header in front of
  its payload, which is the string toBytes returns.

  Key definitions include:
    * `Rlp.puthead`, `Rlp.encodeString`, `Rlp.writeUint`
    * `Rlp.writer`, `Rlp.EncodeToBytes`

  Key statements include:
    * `writer_ne_nil`
-/

------------------------------------------------------------
-- Headers and Strings
------------------------------------------------------------

namespace PlasmaEvm

namespace Rlp

/-
  The header of a string (0x80, 0xB7) or a list (0xC0, 0xF7)
  of `size` bytes.
-/
def puthead
    (smalltag largetag : UInt8)
    (size : Nat) : Bytes :=
  if size < 56 then [smalltag + UInt8.ofNat size]
  else (largetag + UInt8.ofNat
    (BigEndian.toBytes size).length) :: BigEndian.toBytes size

/-
  A string that is a single byte below 0x80 encodes as
  itself.
-/
def isSingleByte : Bytes → Bool
  | [b] => b ≤ 0x7F
  | _ => false

/-
  encbuf.encodeString, and writeString, which writes a Go
  string the same way.
-/
def encodeString (b : Bytes) : Bytes :=
  if isSingleByte b
    then b else puthead 0x80 0xB7 b.length ++ b

/- A list of an encoded payload. -/
def encodeList (payload : Bytes) : Bytes :=
  puthead 0xC0 0xF7 payload.length ++ payload

def writeUint (i : Nat) : Bytes :=
  if i = 0 then [0x80]
  else if i < 128 then [UInt8.ofNat i]
  else (0x80 + UInt8.ofNat (BigEndian.toBytes i).length) ::
    BigEndian.toBytes i

def writeBool (b : Bool) : Bytes :=
  if b then [0x01] else [0x80]

end Rlp

end PlasmaEvm

------------------------------------------------------------
-- The Writers
------------------------------------------------------------

namespace PlasmaEvm

namespace Rlp

/-
  The errors of the writers.  `mismatch` is a value that is
  not of the writer's type, which Go's types rule out.
-/
inductive EncodeError where
  | negativeBigInt
  | structTag (err : TagError)
  | mismatch
  deriving DecidableEq, Repr

/- writeBigInt: "rlp: cannot encode negative *big.Int". -/
def writeBigInt (i : Int) : Except EncodeError Bytes :=
  if i < 0 then .error .negativeBigInt
  else if i = 0 then .ok [0x80]
  else .ok (encodeString (BigEndian.toBytes i.toNat))

/-
  The encoding of a nil pointer: its field's nil kind, or
  the element type's default.
-/
def nilPointer (elem : Ty) (tag : Tag) : Bytes :=
  if (tag.nilKind elem).getD elem.defaultNilKind = .String
    then [0x80] else [0xC0]

/-
  makeSliceWriter: a list, except for a slice tagged "tail".
-/
def sliceList (tag : Tag) (payload : Bytes) : Bytes :=
  if tag = .tail then payload else encodeList payload

mutual

/- makeWriter for a type and the tags of its field. -/
def writer : Ty → Tag → Value → Except EncodeError Bytes
  | .uint _, _, .uint i => .ok (writeUint i)
  | .bool, _, .bool b => .ok (writeBool b)
  | .string, _, .str s => .ok (encodeString s)
  | .bigInt, _, .nilPtr => .ok [0x80]
  | .bigInt, _, .big i => writeBigInt i
  | .ptr elem, tag, .nilPtr => .ok (nilPointer elem tag)
  | .ptr elem, _, .ptr v => writer elem .empty v
  | .slice elem, _, .str b =>
      if elem.isByte
        then .ok (encodeString b) else .error .mismatch
  | .slice elem, tag, .list vs =>
      if elem.isByte
        then .error .mismatch else sliceList tag <$>
          writeElems elem vs
  | .array _ elem, _, .str b =>
      if elem.isByte
        then .ok (encodeString b) else .error .mismatch
  | .array _ elem, tag, .list vs =>
      if elem.isByte
        then .error .mismatch else sliceList tag <$>
          writeElems elem vs
  | .struct fields, _, .list vs =>
      encodeList <$> writeFields fields vs
  | .iface, _, .nilIface => .ok [0xC0]
  | .iface, _, .iface ty v =>
      match ty.tagError with
      | some err => .error (.structTag err)
      | none => writer ty .empty v
  | _, _, _ => .error .mismatch

/-
  The elements of a slice or an array, one after another.
-/
def writeElems
    (elem : Ty) :
    List Value → Except EncodeError Bytes
  | [] => .ok []
  | v :: vs => do
      let b ← writer elem .empty v
      let bs ← writeElems elem vs
      pure (b ++ bs)

/-
  makeStructWriter: the fields that are not ignored, each
  with its tag.
-/
def writeFields :
    Fields → List Value → Except EncodeError Bytes
  | .nil, [] => .ok []
  | .cons .ignored _ rest, _ :: vs => writeFields rest vs
  | .cons tag ty rest, v :: vs => do
      let b ← writer ty tag v
      let bs ← writeFields rest vs
      pure (b ++ bs)
  | _, _ => .error .mismatch

end

/- EncodeToBytes: the writer of the value's type. -/
def EncodeToBytes
    (ty : Ty)
    (v : Value) :
    Except EncodeError Bytes :=
  match ty.tagError with
  | some err => .error (.structTag err)
  | none => writer ty .empty v

end Rlp

end PlasmaEvm

------------------------------------------------------------
-- Every Value Takes a Byte
------------------------------------------------------------

namespace PlasmaEvm

namespace Rlp

theorem puthead_ne_nil
    (smalltag largetag : UInt8)
    (size : Nat) :
    puthead smalltag largetag size ≠ [] := by
  unfold puthead
  split <;> simp

/- A single byte is a list of one byte below 0x80. -/
theorem isSingleByte_iff
    {s : Bytes} :
    isSingleByte s = true ↔ ∃ c, s = [c] ∧ c ≤ 0x7F := by
  constructor
  · intro hSingle
    cases s with
    | nil => simp [isSingleByte] at hSingle
    | cons c cs =>
        cases cs with
        | nil =>
            exact ⟨c, rfl,
              by simpa [isSingleByte] using hSingle⟩
        | cons => simp [isSingleByte] at hSingle
  · rintro ⟨c, rfl, hLe⟩
    simpa [isSingleByte] using hLe

theorem encodeString_ne_nil
    (b : Bytes) :
    encodeString b ≠ [] := by
  unfold encodeString
  split
  · rename_i hSingle
    obtain ⟨c, rfl, -⟩ := isSingleByte_iff.mp hSingle
    simp
  · simp [puthead_ne_nil]

theorem encodeList_ne_nil
    (payload : Bytes) :
    encodeList payload ≠ [] := by
  simp [encodeList, puthead_ne_nil]

theorem writeUint_ne_nil (i : Nat) : writeUint i ≠ [] := by
  unfold writeUint
  split
  · simp
  · split <;> simp

theorem writeBigInt_ne_nil
    {i : Int}
    {b : Bytes}
    (h : writeBigInt i = .ok b) :
    b ≠ [] := by
  unfold writeBigInt at h
  split at h
  · cases h
  · split at h
    · cases h
      simp
    · cases h
      exact encodeString_ne_nil _

theorem sliceList_ne_nil
    {tag : Tag}
    (hTag : tag ≠ .tail)
    (payload : Bytes) :
    sliceList tag payload ≠ [] := by
  simp [sliceList, hTag, encodeList_ne_nil]

/- Only a slice tagged "tail" may write no byte at all. -/
theorem writer_ne_nil :
    (v : Value) → (ty : Ty) → (tag : Tag) → tag ≠ .tail →
      ∀ {b : Bytes}, writer ty tag v = .ok b → b ≠ []
  | .uint i, ty, tag, _, b, h => by
      cases ty <;> simp only [writer, reduceCtorEq] at h
      cases h
      exact writeUint_ne_nil i
  | .bool x, ty, tag, _, b, h => by
      cases ty <;> simp only [writer, reduceCtorEq] at h
      cases h
      cases x <;> simp [writeBool]
  | .str x, ty, tag, _, b, h => by
      cases ty <;> simp only [writer, reduceCtorEq] at h
      case string =>
        cases h
        exact encodeString_ne_nil x
      case slice elem =>
        split at h
        · cases h
          exact encodeString_ne_nil x
        · cases h
      case array len elem =>
        split at h
        · cases h
          exact encodeString_ne_nil x
        · cases h
  | .big i, ty, tag, _, b, h => by
      cases ty <;> simp only [writer, reduceCtorEq] at h
      exact writeBigInt_ne_nil h
  | .nilPtr, ty, tag, _, b, h => by
      cases ty <;> simp only [writer, reduceCtorEq] at h
      case bigInt =>
        cases h
        simp
      case ptr elem =>
        cases h
        unfold nilPointer
        split <;> simp
  | .ptr inner, ty, tag, _, b, h => by
      cases ty <;> simp only [writer, reduceCtorEq] at h
      case ptr elem =>
        exact writer_ne_nil inner elem .empty (by decide) h
  | .list vs, ty, tag, hTag, b, h => by
      cases ty <;> simp only [writer, reduceCtorEq] at h
      case slice elem =>
        split at h
        · cases h
        · rcases Except.map_eq_ok.mp h
            with ⟨payload, -, rfl⟩
          exact sliceList_ne_nil hTag payload
      case array len elem =>
        split at h
        · cases h
        · rcases Except.map_eq_ok.mp h
            with ⟨payload, -, rfl⟩
          exact sliceList_ne_nil hTag payload
      case struct fields =>
        rcases Except.map_eq_ok.mp h with ⟨payload, -, rfl⟩
        exact encodeList_ne_nil payload
  | .nilIface, ty, tag, _, b, h => by
      cases ty <;> simp only [writer, reduceCtorEq] at h
      cases h
      simp
  | .iface dyn inner, ty, tag, _, b, h => by
      cases ty <;> simp only [writer, reduceCtorEq] at h
      case iface =>
        split at h
        · cases h
        · exact writer_ne_nil inner dyn .empty (by decide) h

end Rlp

end PlasmaEvm
