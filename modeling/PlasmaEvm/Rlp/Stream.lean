import PlasmaEvm.Rlp.Types
import PlasmaEvm.Data.BigEndian
import PlasmaEvm.Control.EStateM

/-
  The decoding Stream of package rlp (decode.go).  The
  stream reads a byte reader under two limits: the bytes
  left in the input, and the bytes left in each list it is
  inside (a stack of positions). `Kind` reads the header of
  the next value and keeps it until a read rearms it; a
  header whose value does not fit what is left is an error,
  and so is a size in a form longer than it has to be.

  A method is a step on the stream that may fail, and a
  failing step leaves the stream as the code leaves it: the
  decoders look at the stream after an error (EOL ends a
  list, and decodeByteArray ignores the error of `Uint`).

  Key definitions include:
    * `Rlp.Stream`, `Rlp.StreamError`
    * `Stream.willRead`, `Stream.readKind`, `Stream.Kind`
    * `Stream.Bytes`, `Stream.uint`, `Stream.List`,
      `Stream.ListEnd`
-/

------------------------------------------------------------
-- The Stream
------------------------------------------------------------

namespace PlasmaEvm

namespace Rlp

/-
  The sentinel errors of decode.go, io.EOF and
  io.ErrUnexpectedEOF, and Bool's error.
-/
inductive StreamError where
  | EOL
  | ErrExpectedString
  | ErrExpectedList
  | ErrCanonInt
  | ErrCanonSize
  | ErrElemTooLarge
  | ErrValueTooLarge
  | ErrMoreThanOneValue
  | errNotInList
  | errNotAtEOL
  | errUintOverflow
  | EOF
  | ErrUnexpectedEOF
  | invalidBoolean (num : Nat)
  deriving DecidableEq, Repr

/-
  A list the stream is inside: how much of its payload has
  been read.
-/
structure ListPos where
  pos : Nat
  size : Nat
  deriving DecidableEq, Repr

/-
  The stream: the unread input, the input limit, the kind
  and size of the value ahead (none when rearmed, -1 in the
  code), the byte of a single-byte value, the error of the
  last readKind, and the lists it is inside, innermost
  first.
-/
structure Stream where
  input : Bytes
  remaining : Nat
  kind : Option Kind
  size : Nat
  byteval : UInt8
  kinderr : Option StreamError
  stack : List ListPos
  deriving DecidableEq, Repr

abbrev StreamM := EStateM StreamError Stream

/-
  Reset for DecodeBytes: the input is limited to its own
  length.
-/
def Stream.reset (input : Bytes) : Stream :=
  { input := input,
    remaining := input.length,
    kind := none,
    size := 0,
    byteval := 0,
    kinderr := none,
    stack := [] }

def Stream.rearm : StreamM Unit := fun s =>
  .ok () { s with kind := none }

end Rlp

end PlasmaEvm

------------------------------------------------------------
-- Reading Bytes
------------------------------------------------------------

namespace PlasmaEvm

namespace Rlp

namespace Stream

/- The input limit of a limited stream. -/
def takeRemaining (n : Nat) : StreamM Unit := fun s =>
  if n > s.remaining then .error .ErrValueTooLarge s
  else .ok () { s with remaining := s.remaining - n }

/-
  willRead: rearm Kind, and count `n` bytes in the innermost
  list and the input limit.
-/
def willRead (n : Nat) : StreamM Unit := fun s =>
  let s := { s with kind := none }
  match s.stack with
  | tos :: rest =>
      if n > tos.size - tos.pos
        then .error .ErrElemTooLarge s
      else takeRemaining n { s with
        stack := { tos with pos := tos.pos + n } :: rest }
  | [] => takeRemaining n s

/-
  r.ReadByte on the input; io.EOF becomes
  io.ErrUnexpectedEOF.
-/
def nextByte : StreamM UInt8 := fun s =>
  match s.input with
  | [] => .error .ErrUnexpectedEOF s
  | b :: rest => .ok b { s with input := rest }

/-
  The reads of readFull on the input: what is there, and an
  error if that is short.
-/
def nextBytes
    (n : Nat) :
    StreamM PlasmaEvm.Bytes := fun s =>
  if s.input.length < n
    then .error .ErrUnexpectedEOF { s with
    input := [] }
  else .ok (s.input.take n) { s with input := s.input.drop n }

def readByte : StreamM UInt8 := do
  willRead 1
  nextByte

def readFull (n : Nat) : StreamM PlasmaEvm.Bytes := do
  willRead n
  nextBytes n

/-
  readUint: a big-endian integer of `size` bytes, at most 8;
  two or more must not start with 0.
-/
def readUint (size : Nat) : StreamM Nat :=
  match size with
  | 0 => do
      rearm
      pure 0
  | 1 => do
      let b ← readByte
      pure b.toNat
  | size + 2 => do
      let buf ← readFull (size + 2)
      if buf.head? = some 0 then throw .ErrCanonSize
      pure (BigEndian.ofBytes buf)

end Stream

end Rlp

end PlasmaEvm

------------------------------------------------------------
-- Headers and Kinds
------------------------------------------------------------

namespace PlasmaEvm

namespace Rlp

namespace Stream

/- A size in the long form must be at least 56. -/
def longSize
    (kind : Rlp.Kind)
    (sizesize : Nat) :
    StreamM (Rlp.Kind × Nat) := do
  let size ← readUint sizesize
  if size < 56 then throw .ErrCanonSize
  pure (kind, size)

/-
  At the top level, running out of input is the end of the
  input.
-/
def eofAtTop : StreamError → StreamError
  | .ErrUnexpectedEOF => .EOF
  | .ErrValueTooLarge => .EOF
  | err => err

/- readKind: the header of the next value. -/
def readKind : StreamM (Rlp.Kind × Nat) := fun s =>
  match readByte s with
  | .error err s =>
      .error (if s.stack = [] then eofAtTop err else err) s
  | .ok b s =>
      let s := { s with byteval := 0 }
      if b < 0x80
        then .ok (.Byte, 0) { s with byteval := b }
      else if b < 0xB8 then .ok (.String,
        (b - 0x80).toNat) s
      else if b < 0xC0
        then longSize .String (b - 0xB7).toNat s
      else if b < 0xF8 then .ok (.List, (b - 0xC0).toNat) s
      else longSize .List (b - 0xF7).toNat s

/-
  The error Kind finds in a header it has read: a value
  larger than what is left.
-/
def sizeError
    (size : Nat)
    (s : Stream) :
    Option StreamError :=
  match s.stack with
  | [] =>
      if size > s.remaining
        then some .ErrValueTooLarge else none
  | tos :: _ =>
      if size > tos.size - tos.pos
        then some .ErrElemTooLarge else none

/- Keep a kind, a size and an error until the next rearm. -/
def cacheKind
    (kind : Rlp.Kind)
    (size : Nat)
    (err : Option StreamError) :
    StreamM (Rlp.Kind × Nat) := fun s =>
  let s := { s with
    kind := some kind,
    size := size,
    kinderr := err }
  match err with
  | none => .ok (kind, size) s
  | some err => .error err s

/-
  A new header, kept with its error.  The kind kept with an
  error is never read, as every caller looks at the error
  first.
-/
def readHeader : StreamM (Rlp.Kind × Nat) := fun s =>
  match readKind s with
  | .ok (kind, size) s =>
      cacheKind kind size (sizeError size s) s
  | .error err s => cacheKind .Byte 0 (some err) s

/-
  Kind: the kept kind when there is one; the end of the
  innermost list; or a new header.
-/
def Kind : StreamM (Rlp.Kind × Nat) := fun s =>
  match s.kind with
  | some kind =>
      match s.kinderr with
      | none => .ok (kind, s.size) s
      | some err => .error err s
  | none =>
      let s := { s with kinderr := none }
      match s.stack with
      | tos :: _ =>
          if tos.pos = tos.size
            then .error .EOL s else readHeader s
      | [] => readHeader s

end Stream

end Rlp

end PlasmaEvm

------------------------------------------------------------
-- Values and Lists
------------------------------------------------------------

namespace PlasmaEvm

namespace Rlp

namespace Stream

/-
  Bytes: a single byte, or the bytes of a string, which must
  not be a single byte below 0x80.
-/
def Bytes : StreamM PlasmaEvm.Bytes := do
  let (kind, size) ← Kind
  match kind with
  | .Byte => do
      rearm
      let s ← get
      pure [s.byteval]
  | .String => do
      let b ← readFull size
      if size = 1 ∧ b.headD 0 < 128 then throw .ErrCanonSize
      pure b
  | .List => throw .ErrExpectedString

/-
  uint: an integer of at most `maxbits` bits, in its
  shortest form.
-/
def uint (maxbits : Nat) : StreamM Nat := do
  let (kind, size) ← Kind
  match kind with
  | .Byte => do
      let s ← get
      if s.byteval = 0 then throw .ErrCanonInt
      rearm
      pure s.byteval.toNat
  | .String => do
      if size > maxbits / 8 then throw .errUintOverflow
      let v ← (readUint size).adaptExcept fun err =>
        if err = .ErrCanonSize then .ErrCanonInt else err
      if size > 0 ∧ v < 128 then throw .ErrCanonSize
      pure v
  | .List => throw .ErrExpectedString

def Uint : StreamM Nat :=
  uint 64

def Bool : StreamM Bool := do
  let num ← uint 8
  match num with
  | 0 => pure false
  | 1 => pure true
  | num => throw (.invalidBoolean num)

/-
  List: enter a list, whose payload the stack then counts.
-/
def List : StreamM Nat := do
  let (kind, size) ← Kind
  if kind ≠ .List then throw .ErrExpectedList
  modify fun s => { s with
    stack := ⟨0, size⟩ :: s.stack,
    kind := none,
    size := 0 }
  pure size

/- ListEnd: leave a list whose payload has all been read. -/
def ListEnd : StreamM Unit := fun s =>
  match s.stack with
  | [] => .error .errNotInList s
  | tos :: rest =>
      if tos.pos ≠ tos.size then .error .errNotAtEOL s
      else
        let rest := match rest with
          | [] => []
          | parent :: outer =>
              { parent with
                pos := parent.pos + tos.size } :: outer
        .ok () { s with stack := rest, kind := none, size := 0 }

end Stream

end Rlp

end PlasmaEvm

------------------------------------------------------------
-- Reading Where There Is Room
------------------------------------------------------------

namespace PlasmaEvm

namespace Rlp

/-
  The lists' positions after `n` more bytes are read: only
  the innermost counts them.
-/
def advanceStack (n : Nat) : List ListPos → List ListPos
  | [] => []
  | tos :: rest => { tos with pos := tos.pos + n } :: rest

/-
  Room for `n` more bytes, in the input limit and in the
  innermost list.
-/
def Stream.Room (s : Stream) (n : Nat) : Prop :=
  n ≤ s.remaining ∧ ∀ tos ∈ s.stack.head?,
    n ≤ tos.size - tos.pos

/-
  The stream after reading `n` bytes, with `rest` left in
  the input, rearmed.
-/
def Stream.consume
    (s : Stream)
    (n : Nat)
    (rest : PlasmaEvm.Bytes) :
    Stream :=
  { s with
    input := rest,
    remaining := s.remaining - n,
    stack := advanceStack n s.stack,
    kind := none }

@[simp] theorem advanceStack_zero (stack : List ListPos) :
    advanceStack 0 stack = stack := by
  cases stack <;> simp [advanceStack]

theorem advanceStack_add
    (n m : Nat)
    (stack : List ListPos) :
    advanceStack m (advanceStack n stack) =
      advanceStack (n + m) stack := by
  cases stack <;> simp [advanceStack, Nat.add_assoc]

theorem Stream.Room.mono
    {s : Stream}
    {n m : Nat}
    (hRoom : s.Room n)
    (hLe : m ≤ n) :
    s.Room m :=
  ⟨Nat.le_trans hLe hRoom.1, fun tos hTos =>
    Nat.le_trans hLe (hRoom.2 tos hTos)⟩

/-
  What is left of the room after reading `n` bytes of it.
-/
theorem Stream.Room.consume
    {s : Stream}
    {n m : Nat}
    (hRoom : s.Room (n + m))
    (rest : PlasmaEvm.Bytes) :
    (s.consume n rest).Room m := by
  rcases hRoom with ⟨hRemaining, hList⟩
  refine ⟨by simp only [Stream.consume]; omega,
    fun tos hTos => ?_⟩
  cases hStack : s.stack with
  | nil =>
      simp [Stream.consume, hStack, advanceStack] at hTos
  | cons top outer =>
      have hTop := hList top (by simp [hStack])
      simp only [Stream.consume, hStack, advanceStack,
        List.head?_cons, Option.mem_def,
        Option.some.injEq] at hTos
      rw [← hTos]
      simp only
      omega

/-
  `t` is `s` after its next `n` bytes are read, with `rest`
  left in the input: the input limit and the innermost list
  have counted them.
-/
structure Stream.After
    (s : Stream)
    (n : Nat)
    (rest : PlasmaEvm.Bytes)
    (t : Stream) :
    Prop where
  input : t.input = rest
  remaining : t.remaining = s.remaining - n
  stack : t.stack = advanceStack n s.stack

theorem Stream.After.consume
    (s : Stream)
    (n : Nat)
    (rest : PlasmaEvm.Bytes) :
    s.After n rest (s.consume n rest) :=
  ⟨rfl, rfl, rfl⟩

theorem Stream.After.trans
    {s t u : Stream}
    {n m : Nat}
    {rest rest' : PlasmaEvm.Bytes}
    (h₁ : s.After n rest t)
    (h₂ : t.After m rest' u) :
    s.After (n + m) rest' u :=
  ⟨h₂.input,
    by rw [h₂.remaining, h₁.remaining, Nat.sub_sub],
    by rw [h₂.stack, h₁.stack, advanceStack_add]⟩

/- The room left after reading `n` bytes of it. -/
theorem Stream.Room.after
    {s t : Stream}
    {n m : Nat}
    {rest : PlasmaEvm.Bytes}
    (hRoom : s.Room (n + m))
    (hAfter : s.After n rest t) :
    t.Room m := by
  have hConsumed := hRoom.consume rest
  refine ⟨by rw [hAfter.remaining]; exact hConsumed.1,
    fun tos hTos => hConsumed.2 tos ?_⟩
  rw [hAfter.stack] at hTos
  exact hTos

namespace Stream

theorem willRead_of_room
    {s : Stream}
    {n : Nat}
    (hRoom : s.Room n) :
    willRead n s =
      .ok ()
        { s with
          kind := none,
          remaining := s.remaining - n,
          stack := advanceStack n s.stack } := by
  rcases hRoom with ⟨hRemaining, hList⟩
  unfold willRead
  cases hStack : s.stack with
  | nil =>
      simp [takeRemaining, advanceStack,
        Nat.not_lt.mpr hRemaining]
  | cons tos rest =>
      have hTos := hList tos (by simp [hStack])
      simp [takeRemaining, advanceStack,
        Nat.not_lt.mpr hTos, Nat.not_lt.mpr hRemaining]

theorem readByte_of_room
    {s : Stream}
    {b : UInt8}
    {rest : PlasmaEvm.Bytes}
    (hRoom : s.Room 1)
    (hInput : s.input = b :: rest) :
    readByte s = .ok b (s.consume 1 rest) := by
  unfold readByte
  rw [EStateM.bind_of_ok (willRead_of_room hRoom)]
  simp [nextByte, hInput, Stream.consume]

theorem readFull_of_room
    {s : Stream}
    {bs rest : PlasmaEvm.Bytes}
    (hRoom : s.Room bs.length)
    (hInput : s.input = bs ++ rest) :
    readFull bs.length s =
      .ok bs (s.consume bs.length rest) := by
  unfold readFull
  rw [EStateM.bind_of_ok (willRead_of_room hRoom)]
  simp [nextBytes, hInput, Stream.consume]

end Stream

end Rlp

end PlasmaEvm
