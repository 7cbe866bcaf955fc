import PlasmaEvm.Rlp.Stream

/-
  The decoders of package rlp (decode.go), one for each case
  of makeDecoder, and DecodeBytes.  A decoder reads one
  value of its type from the stream.  The loops over the
  elements of a slice end at EOL, the end of the list the
  stream is in; a struct decodes each field that is not
  ignored, and an ignored field keeps the zero value of a
  fresh target.

  Two loops have no bound in the code: the element loop of a
  slice, and the nesting of interface values.  The model
  bounds both by a fuel, which DecodeBytes sets to one more
  than the input's length. An element that is read takes at
  least a byte of the input, except when a decoder leaves
  the kind it read unrearmed; running out of fuel is that
  case, where the code loops for ever.

  Key definitions include:
    * `Rlp.DecodeError`, `Rlp.wrapStreamError`
    * `Rlp.decodeByteArray`, `Rlp.decodeSliceElems`,
      `Rlp.decoder`
    * `Rlp.DecodeBytes`
-/

------------------------------------------------------------
-- Decode Errors
------------------------------------------------------------

namespace PlasmaEvm

namespace Rlp

/-
  The errors a decoder returns: a stream error as it is, a
  decodeError with its message (its type and context left
  out), a tag error of the type cache, and the model's end
  of fuel.
-/
inductive DecodeError where
  | stream (err : StreamError)
  | decodeError (msg : String)
  | structTag (err : TagError)
  | outOfFuel
  deriving DecidableEq, Repr

def wrapStreamError : StreamError → DecodeError
  | .ErrCanonInt =>
      .decodeError "non-canonical integer (leading zero bytes)"
  | .ErrCanonSize =>
      .decodeError "non-canonical size information"
  | .ErrExpectedList => .decodeError "expected input list"
  | .ErrExpectedString =>
      .decodeError "expected input string or byte"
  | .errUintOverflow => .decodeError "input string too long"
  | .errNotAtEOL =>
      .decodeError "input list has too many elements"
  | err => .stream err

abbrev DecodeM := EStateM DecodeError Stream

/- A stream method whose error the decoder wraps. -/
def wrap {α : Type} (x : StreamM α) : DecodeM α :=
  x.adaptExcept wrapStreamError

/-
  A stream method whose error the decoder returns as it is.
-/
def raw {α : Type} (x : StreamM α) : DecodeM α :=
  x.adaptExcept .stream

theorem wrap_of_ok
    {α : Type}
    {x : StreamM α}
    {s t : Stream}
    {a : α}
    (h : x s = .ok a t) :
    wrap x s = .ok a t :=
  EStateM.adaptExcept_of_ok h _

theorem wrap_of_error
    {α : Type}
    {x : StreamM α}
    {s t : Stream}
    {err : StreamError}
    (h : x s = .error err t) :
    wrap x s = .error (wrapStreamError err) t :=
  EStateM.adaptExcept_of_error h _

theorem raw_of_ok
    {α : Type}
    {x : StreamM α}
    {s t : Stream}
    {a : α}
    (h : x s = .ok a t) :
    raw x s = .ok a t :=
  EStateM.adaptExcept_of_ok h _

/- Kind.String, the name of a kind in a message. -/
def kindString : Kind → String
  | .Byte => "Byte"
  | .String => "String"
  | .List => "List"

end Rlp

end PlasmaEvm

------------------------------------------------------------
-- Decoders of Strings and Integers
------------------------------------------------------------

namespace PlasmaEvm

namespace Rlp

def decodeUint (bits : Nat) : DecodeM Value := do
  let num ← wrap (Stream.uint bits)
  pure (.uint num)

def decodeBool : DecodeM Value := do
  let b ← wrap Stream.Bool
  pure (.bool b)

/-
  decodeString, and decodeByteSlice, which reads a []byte
  the same way.
-/
def decodeString : DecodeM Value := do
  let b ← wrap Stream.Bytes
  pure (.str b)

/- decodeBigInt: a string with no leading zero byte. -/
def decodeBigInt : DecodeM Value := do
  let b ← wrap Stream.Bytes
  if b.head? = some 0
    then throw (wrapStreamError .ErrCanonInt)
  pure (.big (BigEndian.ofBytes b))

/-
  decodeByteArray: a byte array of `vlen` bytes.  For a
  single byte the error of `Uint` is dropped (`bv, _ :=
  s.Uint()`), and with it the rearm it skips: a zero byte
  leaves its kind to the next read.
-/
def decodeByteArray (vlen : Nat) : DecodeM Value := do
  let (kind, size) ← raw Stream.Kind
  match kind with
  | .Byte => do
      if vlen = 0
        then throw (.decodeError "input string too long")
      if vlen > 1
        then throw (.decodeError "input string too short")
      let bv ← fun s =>
        match Stream.Uint s with
        | .ok bv s => .ok bv s
        | .error _ s => .ok 0 s
      pure (.str [UInt8.ofNat bv])
  | .String => do
      if vlen < size
        then throw (.decodeError "input string too long")
      if vlen > size
        then throw (.decodeError "input string too short")
      let slice ← raw (Stream.readFull vlen)
      if size = 1 ∧ slice.headD 0 < 128
        then throw (wrapStreamError .ErrCanonSize)
      pure (.str slice)
  | .List => throw (wrapStreamError .ErrExpectedString)

end Rlp

end PlasmaEvm

------------------------------------------------------------
-- Decoders of Lists
------------------------------------------------------------

namespace PlasmaEvm

namespace Rlp

/-
  decodeSliceElems: elements until EOL, at most `fuel` of
  them.
-/
def decodeSliceElems
    (elemdec : DecodeM Value) :
    Nat → DecodeM (List Value)
  | 0 => throw .outOfFuel
  | fuel + 1 => fun s =>
      match elemdec s with
      | .error (.stream .EOL) s => .ok [] s
      | .error err s => .error err s
      | .ok v s =>
          match decodeSliceElems elemdec fuel s with
          | .ok vs s => .ok (v :: vs) s
          | .error err s => .error err s

/- decodeListSlice: a list of elements. -/
def decodeListSlice
    (fuel : Nat)
    (elemdec : DecodeM Value) :
    DecodeM Value := do
  let size ← wrap Stream.List
  if size = 0 then
    raw Stream.ListEnd
    return .list []
  let vs ← decodeSliceElems elemdec fuel
  raw Stream.ListEnd
  pure (.list vs)

/-
  The element loop of decodeListArray: at most `vlen`
  elements, until EOL.
-/
def decodeArrayElems
    (elemdec : DecodeM Value) :
    Nat → DecodeM (List Value)
  | 0 => pure []
  | vlen + 1 => fun s =>
      match elemdec s with
      | .error (.stream .EOL) s => .ok [] s
      | .error err s => .error err s
      | .ok v s =>
          match decodeArrayElems elemdec vlen s with
          | .ok vs s => .ok (v :: vs) s
          | .error err s => .error err s

/- decodeListArray: a list of exactly `vlen` elements. -/
def decodeListArray
    (vlen : Nat)
    (elemdec : DecodeM Value) :
    DecodeM Value := do
  let _ ← wrap Stream.List
  let vs ← decodeArrayElems elemdec vlen
  if vs.length < vlen
    then throw (.decodeError "input list has too few elements")
  wrap Stream.ListEnd
  pure (.list vs)

/- The struct decoder: a list of the fields. -/
def decodeStruct
    (fields : DecodeM (List Value)) :
    DecodeM Value := do
  let _ ← wrap Stream.List
  let vs ← fields
  wrap Stream.ListEnd
  pure (.list vs)

/-
  makeSimplePtrDecoder: the element, behind a new pointer.
-/
def decodeSimplePtr
    (elemdec : DecodeM Value) :
    DecodeM Value := do
  let v ← elemdec
  pure (.ptr v)

/-
  makeNilPtrDecoder: an empty value of the field's nil kind
  is a nil pointer.
-/
def decodeNilPtr
    (nilKind : Kind)
    (elemdec : DecodeM Value) :
    DecodeM Value := do
  let (kind, size) ← wrap Stream.Kind
  if kind ≠ .Byte ∧ size = 0 then
    if kind ≠ nilKind then
      throw (.decodeError ("wrong kind of empty value (got "
        ++ kindString kind ++ ", want " ++
        kindString nilKind ++ ")"))
    Stream.rearm.adaptExcept .stream
    return .nilPtr
  decodeSimplePtr elemdec

/-
  decodeInterface: a list of interface values, or a []byte.
-/
def decodeInterface : Nat → DecodeM Value
  | 0 => throw .outOfFuel
  | fuel + 1 => do
      let (kind, _) ← raw Stream.Kind
      if kind = .List then
        let v ← decodeListSlice fuel (decodeInterface fuel)
        return .iface (.slice .iface) v
      let b ← raw Stream.Bytes
      pure (.iface (.slice (.uint 8)) (.str b))

end Rlp

end PlasmaEvm

------------------------------------------------------------
-- The Decoder of a Type
------------------------------------------------------------

namespace PlasmaEvm

namespace Rlp

mutual

/- makeDecoder for a type and the tags of its field. -/
def decoder (fuel : Nat) : Ty → Tag → DecodeM Value
  | .uint bits, _ => decodeUint bits
  | .bool, _ => decodeBool
  | .string, _ => decodeString
  | .bigInt, _ => decodeBigInt
  | .ptr elem, tag =>
      match tag.nilKind elem with
      | none => decodeSimplePtr (decoder fuel elem .empty)
      | some nilKind =>
          decodeNilPtr nilKind (decoder fuel elem .empty)
  | .slice elem, tag =>
      if elem.isByte then decodeString
      else if tag = .tail then .list <$>
        decodeSliceElems (decoder fuel elem .empty) fuel
      else decodeListSlice fuel (decoder fuel elem .empty)
  | .array len elem, _ =>
      if elem.isByte then decodeByteArray len
      else decodeListArray len (decoder fuel elem .empty)
  | .struct fields, _ =>
      decodeStruct (decodeFields fuel fields)
  | .iface, _ => decodeInterface fuel

/-
  The fields of a struct: EOL before the last one is too few
  elements.
-/
def decodeFields
    (fuel : Nat) :
    Fields → DecodeM (List Value)
  | .nil => pure []
  | .cons .ignored ty rest => do
      let vs ← decodeFields fuel rest
      pure (ty.zero :: vs)
  | .cons tag ty rest => fun s =>
      match decoder fuel ty tag s with
      | .error (.stream .EOL) s =>
          .error (.decodeError "too few elements") s
      | .error err s => .error err s
      | .ok v s =>
          match decodeFields fuel rest s with
          | .ok vs s => .ok (v :: vs) s
          | .error err s => .error err s

end

/-
  decodeFields on a field that is not ignored.  Lean
  generates no equation for this case, which overlaps the
  ignored one; it holds by unfolding.
-/
theorem decodeFields_cons_empty
    (fuel : Nat)
    (ty : Ty)
    (rest : Fields)
    (s : Stream) :
    decodeFields fuel (.cons .empty ty rest) s =
      match decoder fuel ty .empty s with
      | .error (.stream .EOL) s =>
          .error (.decodeError "too few elements") s
      | .error err s => .error err s
      | .ok v s =>
          match decodeFields fuel rest s with
          | .ok vs s => .ok (v :: vs) s
          | .error err s => .error err s := rfl

theorem decodeFields_nil
    (fuel : Nat)
    (s : Stream) :
    decodeFields fuel .nil s = .ok [] s := rfl

/-
  A field that is not ignored and decodes: its decoder ran,
  and then the other fields.
-/
theorem decodeFields_cons_empty_of_ok
    {fuel : Nat}
    {ty : Ty}
    {rest : Fields}
    {s t : Stream}
    {vs : List Value}
    (h : decodeFields fuel (.cons .empty ty rest) s = .ok vs t) :
    ∃ v s', decoder fuel ty .empty s = .ok v s' ∧ ∃ vs',
      decodeFields fuel rest s' = .ok vs' t := by
  rw [decodeFields_cons_empty] at h
  split at h
  · cases h
  · cases h
  · rename_i v s' hField
    split at h
    · rename_i vs' t' hRest
      cases h
      exact ⟨v, s', hField, vs', hRest⟩
    · cases h

/-
  DecodeBytes: the value of a type that the input holds, and
  no input left after it.
-/
def DecodeBytes
    (ty : Ty)
    (b : Bytes) :
    Except DecodeError Value :=
  match ty.tagError with
  | some err => .error (.structTag err)
  | none =>
      match decoder (b.length + 1) ty .empty (Stream.reset b) with
      | .error err _ => .error err
      | .ok v s =>
          if s.input ≠ []
            then .error (.stream .ErrMoreThanOneValue) else .ok v

end Rlp

end PlasmaEvm
