import PlasmaEvm.Common.Types

/-
  The Go types and values of package rlp.  A type is named
  by the case of makeDecoder and makeWriter it takes:
  unsigned integers of a width, bool, string, big integers,
  pointers, slices, arrays, structs and the empty interface.
  A slice or an array of `uint8` is a byte string, as
  `isByte` decides in the code.  A struct is the list of its
  exported fields, each with its rlp tag.

  Values carry no type: a byte string, a string or a byte
  array is `str`, and a slice, an array or a struct (every
  field, ignored ones included) is `list`.  An interface
  value carries the dynamic type the encoder looks up.

  The tag checks of parseStructTag, and the nil kind a
  pointer encodes as, are here.

  Key definitions include:
    * `Rlp.Kind`, `Rlp.Tag`, `Rlp.Ty`, `Rlp.Value`
    * `Ty.defaultNilKind`, `Tag.nilKind`, `Ty.tagError`
-/

------------------------------------------------------------
-- Kinds, Tags and Types
------------------------------------------------------------

namespace PlasmaEvm

namespace Rlp

/- The kind of the value ahead in the input. -/
inductive Kind where
  | Byte
  | String
  | List
  deriving DecidableEq, Repr

/-
  The rlp struct tag of a field; `empty` is tags{}, what
  every element type gets.
-/
inductive Tag where
  | empty
  | nil
  | nilString
  | nilList
  | tail
  | ignored
  deriving DecidableEq, Repr

mutual

/-
  The RLP-serialisable types, by the writer and decoder they
  get.
-/
inductive Ty where
  | uint (bits : Nat)
  | bool
  | string
  | bigInt
  | ptr (elem : Ty)
  | slice (elem : Ty)
  | array (len : Nat) (elem : Ty)
  | struct (fields : Fields)
  | iface
  deriving DecidableEq, Repr

/-
  The exported fields of a struct, in order, with their
  tags.
-/
inductive Fields where
  | nil
  | cons (tag : Tag) (ty : Ty) (rest : Fields)
  deriving DecidableEq, Repr

end

/- A Go value of one of the serialisable types. -/
inductive Value where
  | uint (n : Nat)
  | bool (b : Bool)
  | str (bytes : Bytes)
  | big (i : Int)
  | nilPtr
  | ptr (v : Value)
  | list (vs : List Value)
  | nilIface
  | iface (ty : Ty) (v : Value)

end Rlp

end PlasmaEvm

------------------------------------------------------------
-- What the Type Cache Derives
------------------------------------------------------------

namespace PlasmaEvm

namespace Rlp

/- isByte: the element type of a byte string. -/
def Ty.isByte : Ty → Bool
  | .uint 8 => true
  | _ => false

/- A pointer type, as reflect.Ptr: `*big.Int` is one. -/
def Ty.isPtr : Ty → Bool
  | .ptr _ | .bigInt => true
  | _ => false

def Ty.isSlice : Ty → Bool
  | .slice _ => true
  | _ => false

/-
  defaultNilKind: a nil pointer to an integer, a string, a
  bool or a byte string is the empty string; any other is
  the empty list.
-/
def Ty.defaultNilKind : Ty → Kind
  | .uint _ | .string | .bool => .String
  | .slice elem | .array _ elem =>
      if elem.isByte then .String else .List
  | _ => .List

/-
  The empty value a nil pointer of a field with this tag
  stands for, if it may be nil.
-/
def Tag.nilKind (elem : Ty) : Tag → Option Kind
  | .nil => some elem.defaultNilKind
  | .nilString => some .String
  | .nilList => some .List
  | _ => none

/- The errors of parseStructTag. -/
inductive TagError where
  | notPointer (tag : Tag)
  | notLast
  | notSlice
  deriving DecidableEq, Repr

def TagError.err : TagError → String
  | .notPointer _ => "field is not a pointer"
  | .notLast => "must be on last field"
  | .notSlice => "field type is not slice"

/-
  parseStructTag for a field of type `ty`, `isLast` when no
  field follows it.
-/
def Tag.check
    (ty : Ty)
    (isLast : Bool) :
    Tag → Option TagError
  | .nil =>
      if ty.isPtr then none else some (.notPointer .nil)
  | .nilString =>
      if ty.isPtr
        then none else some (.notPointer .nilString)
  | .nilList =>
      if ty.isPtr then none else some (.notPointer .nilList)
  | .tail =>
      if !isLast
        then some .notLast else if ty.isSlice then none
          else some .notSlice
  | _ => none

def Fields.isNil : Fields → Bool
  | .nil => true
  | .cons .. => false

/- The first field whose tag parseStructTag rejects. -/
def Fields.parseError : Fields → Option TagError
  | .nil => none
  | .cons tag ty rest =>
      (tag.check ty rest.isNil).orElse fun _ =>
        rest.parseError

mutual

/-
  The first tag error in a type: a struct's own tags are
  parsed before the types of its fields are generated
  (structFields, then the decoderErr of each field).
-/
def Ty.tagError : Ty → Option TagError
  | .ptr elem | .slice elem | .array _ elem => elem.tagError
  | .struct fields =>
      (Fields.parseError fields).orElse fun _ =>
        fields.typeError
  | _ => none

/- The type errors of the fields that are not ignored. -/
def Fields.typeError : Fields → Option TagError
  | .nil => none
  | .cons .ignored _ rest => rest.typeError
  | .cons _ ty rest =>
      ty.tagError.orElse fun _ => rest.typeError

end


end Rlp

end PlasmaEvm

------------------------------------------------------------
-- Zero Values
------------------------------------------------------------

namespace PlasmaEvm

namespace Rlp

mutual

/-
  The zero value of a type, which an ignored field of a
  fresh target keeps.
-/
def Ty.zero : Ty → Value
  | .uint _ => .uint 0
  | .bool => .bool false
  | .string => .str []
  | .bigInt => .nilPtr
  | .ptr _ => .nilPtr
  | .slice elem => if elem.isByte then .str [] else .list []
  | .array len elem =>
      if elem.isByte
        then .str (List.replicate len 0)
          else .list (List.replicate len elem.zero)
  | .struct fields => .list fields.zero
  | .iface => .nilIface

def Fields.zero : Fields → List Value
  | .nil => []
  | .cons _ ty rest => ty.zero :: rest.zero

end

end Rlp

end PlasmaEvm
