import PlasmaEvm.Rlp.Header

/-
  The byte-slice splitter of package rlp (raw.go) beside the
  stream.  `Split` reads the header of the first value with
  its own `readKind` and `readSize`, and `CountValues`
  splits values off until the input is used up.
  `Stream.Raw` reads the next value with the stream's `Kind`
  and gives it back with a header that `puthead` writes.

  Whatever the splitter reads, the stream reads the same
  way: a header the splitter accepts is a single byte below
  0x80 or the header `puthead` writes for its kind and size,
  and the stream reads either back.  The converse fails on
  one form: the splitter rejects a one-byte string holding a
  byte below 0x80 at the header, while the stream's `Kind`
  and `Raw` never look at the content (only `Bytes` does).

  Key definitions include:
    * `Rlp.readSize`, `Rlp.readKind`, `Rlp.Split`,
      `Rlp.CountValues`
    * `Rlp.Stream.Raw`, `Rlp.Stream.countRaw`

  Key statements include:
    * `Rlp.readKind_eq_ok`
    * `Rlp.Stream.Raw_puthead`, `Rlp.Stream.Raw_of_readKind`
    * `Rlp.Stream.countRaw_of_countValues`
-/

------------------------------------------------------------
-- The Splitter
------------------------------------------------------------

namespace PlasmaEvm

namespace Rlp

/-
  readSize: a size of `slen` bytes, big-endian.  A size
  below 56 should have had no size bytes, and one with a
  leading zero byte is longer than it has to be.
-/
def readSize
    (b : Bytes)
    (slen : Nat) :
    Except StreamError Nat :=
  if slen > b.length then .error .ErrUnexpectedEOF
  else
    let s := BigEndian.ofBytes (b.take slen)
    if s < 56 ∨ b.head? = some 0 then .error .ErrCanonSize
    else .ok s

/-
  readKind on a byte slice: the kind of the first value, the
  size of its header and the size of its content.  A
  one-byte string holding a byte below 0x80 is rejected
  here, and so is a value larger than the slice.
-/
def readKind
    (buf : Bytes) :
    Except StreamError (Kind × Nat × Nat) :=
  match buf with
  | [] => .error .ErrUnexpectedEOF
  | b :: rest =>
      let header : Except StreamError (Kind × Nat × Nat) :=
        if b < 0x80 then .ok (.Byte, 0, 1)
        else if b < 0xB8 then
          if (b - 0x80).toNat = 1 ∧ rest.head?.any (· < 128)
            then .error .ErrCanonSize
          else .ok (.String, 1, (b - 0x80).toNat)
        else if b < 0xC0 then
          (readSize rest (b - 0xB7).toNat).map fun size =>
            (.String, (b - 0xB7).toNat + 1, size)
        else if b < 0xF8 then .ok (.List, 1,
          (b - 0xC0).toNat)
        else
          (readSize rest (b - 0xF7).toNat).map fun size =>
            (.List, (b - 0xF7).toNat + 1, size)
      match header with
      | .error err => .error err
      | .ok (k, tagsize, contentsize) =>
          if contentsize > buf.length - tagsize
            then .error .ErrValueTooLarge
          else .ok (k, tagsize, contentsize)

/-
  Split: the kind and content of the first value, and the
  bytes after it.
-/
def Split
    (b : Bytes) :
    Except StreamError (Kind × Bytes × Bytes) :=
  match readKind b with
  | .error err => .error err
  | .ok (k, ts, cs) =>
      .ok (k, (b.drop ts).take cs, b.drop (ts + cs))

/-
  SplitString: the content of a first value that is a
  string.
-/
def SplitString
    (b : Bytes) :
    Except StreamError (Bytes × Bytes) :=
  match Split b with
  | .error err => .error err
  | .ok (k, content, rest) =>
      if k = .List
        then .error .ErrExpectedString
          else .ok (content, rest)

/-
  SplitList: the content of a first value that is a list.
-/
def SplitList
    (b : Bytes) :
    Except StreamError (Bytes × Bytes) :=
  match Split b with
  | .error err => .error err
  | .ok (k, content, rest) =>
      if k ≠ .List
        then .error .ErrExpectedList
          else .ok (content, rest)

/-
  The loop of CountValues with at most `fuel` turns; every
  value takes at least one byte, so the input's length is
  enough.
-/
def countValues : Nat → Bytes → Except StreamError Nat
  | _, [] => .ok 0
  | 0, _ :: _ => .ok 0
  | fuel + 1, b =>
      match readKind b with
      | .error err => .error err
      | .ok (_, tagsize, size) =>
          (countValues fuel (b.drop (tagsize + size))).map (· + 1)

/- CountValues: the number of values in `b`. -/
def CountValues (b : Bytes) : Except StreamError Nat :=
  countValues b.length b

end Rlp

end PlasmaEvm

------------------------------------------------------------
-- The Stream's Raw Values
------------------------------------------------------------

namespace PlasmaEvm

namespace Rlp

namespace Stream

/-
  Raw: the next value with its header.  The header has been
  read by Kind, so Raw reads the content and puts a new
  header in front of it.
-/
def Raw : StreamM PlasmaEvm.Bytes := do
  let (kind, size) ← Kind
  if kind = .Byte then
    rearm
    let s ← get
    return [s.byteval]
  let content ← readFull size
  if kind = .String
    then pure (puthead 0x80 0xB7 size ++ content)
  else pure (puthead 0xC0 0xF7 size ++ content)

/-
  The values a stream reads with Raw until io.EOF, at most
  `fuel` of them: how many there were, or the first other
  error.
-/
def countRaw : Nat → StreamM Nat
  | 0 => pure 0
  | fuel + 1 => fun s =>
      match Raw s with
      | .error .EOF s => .ok 0 s
      | .error err s => .error err s
      | .ok _ s =>
          match countRaw fuel s with
          | .ok n s => .ok (n + 1) s
          | .error err s => .error err s

end Stream

end Rlp

end PlasmaEvm

------------------------------------------------------------
-- What the Splitter Accepts
------------------------------------------------------------

namespace PlasmaEvm

namespace Rlp

/-
  The first byte of a short string is `0x80` plus its size.
-/
theorem short_string_tag
    {b : UInt8}
    (hAbove : ¬b < 0x80)
    (hBelow : b < 0xB8) :
    0x80 + UInt8.ofNat (b - 0x80).toNat = b ∧
      (b - 0x80).toNat < 56 := by
  simp only [UInt8.ofNat_toNat]
  constructor
  · grind
  · simp only [UInt8.lt_iff_toNat_lt, UInt8.toNat_sub] at *
    simp at *
    omega

/-
  The first byte of a long string is `0xB7` plus the length
  of its size, 1 to 8.
-/
theorem long_string_tag
    {b : UInt8}
    (hAbove : ¬b < 0xB8)
    (hBelow : b < 0xC0) :
    0xB7 + UInt8.ofNat (b - 0xB7).toNat = b ∧
      0 < (b - 0xB7).toNat ∧ (b - 0xB7).toNat ≤ 8 := by
  simp only [UInt8.ofNat_toNat]
  refine ⟨by grind, ?_⟩
  simp only [UInt8.lt_iff_toNat_lt, UInt8.toNat_sub] at *
  simp at *
  omega

theorem short_list_tag
    {b : UInt8}
    (hAbove : ¬b < 0xC0)
    (hBelow : b < 0xF8) :
    0xC0 + UInt8.ofNat (b - 0xC0).toNat = b ∧
      (b - 0xC0).toNat < 56 := by
  simp only [UInt8.ofNat_toNat]
  constructor
  · grind
  · simp only [UInt8.lt_iff_toNat_lt, UInt8.toNat_sub] at *
    simp at *
    omega

theorem long_list_tag
    {b : UInt8}
    (hAbove : ¬b < 0xF8) :
    0xF7 + UInt8.ofNat (b - 0xF7).toNat = b ∧
      0 < (b - 0xF7).toNat ∧ (b - 0xF7).toNat ≤ 8 := by
  have hMax := b.toNat_lt
  simp only [UInt8.ofNat_toNat]
  refine ⟨by grind, ?_⟩
  simp only [UInt8.lt_iff_toNat_lt, UInt8.toNat_sub] at *
  simp at *
  omega

/-
  A size readSize accepts: its bytes are the shortest bytes
  of a size of at least 56.
-/
theorem readSize_eq_ok
    {b : Bytes}
    {slen size : Nat}
    (hLen : 0 < slen)
    (hRead : readSize b slen = .ok size) :
    slen ≤ b.length ∧ 56 ≤ size ∧
      b.take slen = BigEndian.toBytes size := by
  unfold readSize at hRead
  by_cases hShort : slen > b.length
  · rw [if_pos hShort] at hRead
    cases hRead
  rw [if_neg hShort] at hRead
  dsimp only at hRead
  by_cases hCanon : BigEndian.ofBytes (b.take slen) < 56 ∨
    b.head? = some 0
  · rw [if_pos hCanon] at hRead
    cases hRead
  rw [if_neg hCanon] at hRead
  cases hRead
  refine ⟨by omega, by omega, ?_⟩
  symm
  apply BigEndian.toBytes_ofBytes
  rw [List.head?_take, if_neg (by omega)]
  exact fun hZero => hCanon (Or.inr hZero)

/-
  A long header the splitter accepts is the one `puthead`
  writes: the tag plus the length of the size, then the
  size's bytes.
-/
theorem long_header_eq_puthead
    (smalltag : UInt8)
    {largetag b : UInt8}
    {rest : Bytes}
    {size : Nat}
    (hTag : largetag + UInt8.ofNat (b - largetag).toNat = b)
    (hLen : 0 < (b - largetag).toNat)
    (hSmall : (b - largetag).toNat ≤ 8)
    (hRead : readSize rest (b - largetag).toNat = .ok size) :
    (b - largetag).toNat ≤ rest.length ∧
      (b :: rest).take ((b - largetag).toNat + 1) =
        puthead smalltag largetag size ∧
      size < 256 ^ 8 := by
  rcases readSize_eq_ok hLen hRead
    with ⟨hRoom, hLong, hBytes⟩
  have hLength : (BigEndian.toBytes size).length = (b -
    largetag).toNat := by
    rw [← hBytes, List.length_take]
    omega
  refine ⟨hRoom, ?_, ?_⟩
  · rw [puthead_of_le hLong, List.take_succ_cons,
      hBytes, hLength, hTag]
  · rw [← BigEndian.length_toBytes_le_iff]
    omega

/-
  The header a readKind accepts, before the check that the
  value fits.
-/
def HeaderRead
    (buf : Bytes)
    (k : Kind)
    (ts cs : Nat) :
    Prop :=
  ts ≤ buf.length ∧
    ((k = .Byte ∧ ts = 0 ∧ cs = 1 ∧ ∃ b rest,
      buf = b :: rest ∧ b < 0x80) ∨
      ∃ smalltag largetag, HeaderTags smalltag largetag k
        ∧ cs < 256 ^ 8 ∧
        buf.take ts = puthead smalltag largetag cs)

/- A long header of either kind, read by readSize. -/
theorem headerRead_long
    {smalltag largetag b : UInt8}
    {k : Kind}
    (hTags : HeaderTags smalltag largetag k)
    {rest : Bytes}
    {size : Nat}
    (hTag : largetag + UInt8.ofNat (b - largetag).toNat = b)
    (hLen : 0 < (b - largetag).toNat)
    (hSmall : (b - largetag).toNat ≤ 8)
    (hRead : readSize rest (b - largetag).toNat = .ok size) :
    HeaderRead (b :: rest) k ((b - largetag).toNat + 1) size := by
  rcases long_header_eq_puthead smalltag hTag hLen
    hSmall hRead with
    ⟨hRoom, hPut, hFits⟩
  exact ⟨by simp only [List.length_cons]; omega,
    .inr ⟨smalltag, largetag, hTags, hFits, hPut⟩⟩

/-
  What readKind accepts: a single byte below 0x80, or a
  header that `puthead` writes for the value's kind and
  size, and a value that fits in the slice.
-/
theorem readKind_eq_ok
    {buf : Bytes}
    {k : Kind}
    {ts cs : Nat}
    (hRead : readKind buf = .ok (k, ts, cs)) :
    ts + cs ≤ buf.length ∧
      ((k = .Byte ∧ ts = 0 ∧ cs = 1 ∧ ∃ b rest,
        buf = b :: rest ∧ b < 0x80) ∨
        ∃ smalltag largetag, HeaderTags smalltag largetag k
          ∧ cs < 256 ^ 8 ∧
          buf.take ts = puthead smalltag largetag cs) := by
  rcases buf with _ | ⟨b, rest⟩
  · cases hRead
  unfold readKind at hRead
  dsimp only at hRead
  split at hRead
  · cases hRead
  rename_i k₀ ts₀ cs₀ hHeader
  split_ifs at hRead with hTooLarge
  cases hRead
  suffices hRead : HeaderRead (b :: rest) k ts cs by
    have hWithin := hRead.1
    exact ⟨by omega, hRead.2⟩
  by_cases hByte : b < 0x80
  · rw [if_pos hByte] at hHeader
    cases hHeader
    exact ⟨Nat.zero_le _, .inl ⟨rfl, rfl, rfl, b,
      rest, rfl, hByte⟩⟩
  rw [if_neg hByte] at hHeader
  by_cases hShortString : b < 0xB8
  · rw [if_pos hShortString] at hHeader
    by_cases hCanon : (b - 0x80).toNat = 1 ∧
      rest.head?.any (· < 128)
    · rw [if_pos hCanon] at hHeader
      cases hHeader
    rw [if_neg hCanon] at hHeader
    cases hHeader
    have hTag := short_string_tag hByte hShortString
    refine ⟨by simp, .inr ⟨0x80, 0xB7,
      .string, by omega, ?_⟩⟩
    rw [puthead_of_lt hTag.2, hTag.1]
    rfl
  rw [if_neg hShortString] at hHeader
  by_cases hLongString : b < 0xC0
  · rw [if_pos hLongString] at hHeader
    have hTag := long_string_tag hShortString hLongString
    cases hSize : readSize rest (b - 0xB7).toNat with
    | error err =>
        rw [hSize] at hHeader
        cases hHeader
    | ok size =>
        rw [hSize] at hHeader
        cases hHeader
        exact headerRead_long .string hTag.1
          hTag.2.1 hTag.2.2 hSize
  rw [if_neg hLongString] at hHeader
  by_cases hShortList : b < 0xF8
  · rw [if_pos hShortList] at hHeader
    cases hHeader
    have hTag := short_list_tag hLongString hShortList
    refine ⟨by simp, .inr ⟨0xC0, 0xF7, .list, by omega, ?_⟩⟩
    rw [puthead_of_lt hTag.2, hTag.1]
    rfl
  rw [if_neg hShortList] at hHeader
  have hTag := long_list_tag hShortList
  cases hSize : readSize rest (b - 0xF7).toNat with
  | error err =>
      rw [hSize] at hHeader
      cases hHeader
  | ok size =>
      rw [hSize] at hHeader
      cases hHeader
      exact headerRead_long .list hTag.1 hTag.2.1 hTag.2.2 hSize

end Rlp

end PlasmaEvm

------------------------------------------------------------
-- The Stream Reads What the Splitter Reads
------------------------------------------------------------

namespace PlasmaEvm

namespace Rlp

namespace Stream

/-
  Raw, rearmed, reads a single byte below 0x80 as itself.
-/
theorem Raw_byte
    {s : Stream}
    {b : UInt8}
    {rest : PlasmaEvm.Bytes}
    (hKind : s.kind = none)
    (hByte : b < 0x80)
    (hRoom : s.Room 1)
    (hInput : s.input = b :: rest) :
    ∃ t, Raw s = .ok [b] t ∧ s.After 1 rest t ∧
      t.kind = none := by
  rcases Kind_byte hKind hByte hRoom hInput
    with ⟨t, hRead, hAfter, -, -, hByteval⟩
  refine ⟨{ t with
    kind := none }, ?_, ⟨hAfter.input, hAfter.remaining,
      hAfter.stack⟩, rfl⟩
  have hRearm : rearm t =
    .ok () { t with kind := none } := rfl
  unfold Raw
  rw [EStateM.bind_of_ok hRead]
  subst hByteval
  dsimp only
  rw [if_pos rfl, EStateM.bind_of_ok hRearm]
  rfl

/-
  Raw, rearmed, reads a value behind a header puthead wrote,
  and writes the header again.
-/
theorem Raw_puthead
    {smalltag largetag : UInt8}
    {kind : Rlp.Kind}
    (hTags : HeaderTags smalltag largetag kind)
    {s : Stream}
    {content rest : PlasmaEvm.Bytes}
    (hKind : s.kind = none)
    (hFits : content.length < 256 ^ 8)
    (hRoom : s.Room ((puthead smalltag largetag
      content.length).length + content.length))
    (hInput : s.input = puthead smalltag largetag
      content.length ++ (content ++ rest)) :
    ∃ t, Raw s = .ok (puthead smalltag largetag
      content.length ++ content) t ∧
      s.After ((puthead smalltag largetag
        content.length).length + content.length) rest t ∧
      t.kind = none := by
  rcases Kind_puthead hTags hKind hFits hRoom hInput
    with ⟨t, hRead, hAfter, -, -⟩
  have hFull :=
    readFull_of_room (hRoom.after hAfter) hAfter.input
  refine ⟨t.consume content.length rest, ?_,
    hAfter.trans (Stream.After.consume _ _ _), rfl⟩
  unfold Raw
  rw [EStateM.bind_of_ok hRead]
  cases hTags with
  | string =>
      simp only [reduceCtorEq, if_false]
      rw [EStateM.bind_of_ok hFull]
      rfl
  | list =>
      simp only [reduceCtorEq, if_false]
      rw [EStateM.bind_of_ok hFull]
      rfl

/-
  A value the splitter reads from the input of a rearmed
  stream, the stream reads with Raw: the same bytes, header
  included.
-/
theorem Raw_of_readKind
    {s : Stream}
    (hKind : s.kind = none)
    (hRoom : s.Room s.input.length)
    {k : Rlp.Kind}
    {ts cs : Nat}
    (hRead : Rlp.readKind s.input = .ok (k, ts, cs)) :
    (∃ size t, Kind s = .ok (k, size) t) ∧
      ∃ t, Raw s = .ok (s.input.take (ts + cs)) t ∧
        s.After (ts + cs) (s.input.drop (ts + cs)) t ∧
          t.kind = none := by
  rcases readKind_eq_ok hRead with ⟨hWithin, ⟨rfl, rfl, rfl,
    b, rest, hInput, hByte⟩ | ⟨smalltag,
    largetag, hTags, hFits, hHeader⟩⟩
  · have hOne : s.Room 1 :=
      hRoom.mono (by rw [hInput]; simp)
    rcases Kind_byte hKind hByte hOne hInput
      with ⟨t, hKindRead, -⟩
    rcases Raw_byte hKind hByte hOne hInput
      with ⟨t', hRaw, hAfter, hRearmed⟩
    refine ⟨⟨0, t, hKindRead⟩, t', ?_, ?_, hRearmed⟩
    · rw [hInput, hRaw]
      rfl
    · rw [hInput]
      exact hAfter
  · generalize hContent : (s.input.drop ts).take cs = content
    have hLength : content.length = cs := by
      rw [← hContent, List.length_take, List.length_drop]
      omega
    have hTs : (puthead smalltag largetag cs).length = ts := by
      rw [← hHeader, List.length_take]
      omega
    have hSplit : s.input = puthead smalltag largetag cs ++
      (content ++ s.input.drop (ts + cs)) := by
      rw [← hHeader, ← hContent, ← List.drop_drop,
        List.take_append_drop, List.take_append_drop]
    subst hLength
    have hRoom' : s.Room ((puthead smalltag largetag
      content.length).length + content.length) :=
      hRoom.mono (by omega)
    rcases Kind_puthead hTags hKind hFits hRoom' hSplit
      with ⟨t, hKindRead, -⟩
    rcases Raw_puthead hTags hKind hFits hRoom' hSplit
      with ⟨t', hRaw, hAfter, hRearmed⟩
    rw [hTs] at hAfter
    refine ⟨⟨_, t, hKindRead⟩, t', ?_, hAfter, hRearmed⟩
    rw [hRaw, hSplit, ← List.append_assoc,
      List.take_left' (by simp [hTs])]

end Stream

end Rlp

end PlasmaEvm

------------------------------------------------------------
-- Counting Values
------------------------------------------------------------

namespace PlasmaEvm

namespace Rlp

/-
  Every value the splitter reads takes at least one byte.
-/
theorem readKind_consumes
    {buf : Bytes}
    {k : Kind}
    {ts cs : Nat}
    (hRead : readKind buf = .ok (k, ts, cs)) :
    0 < ts + cs := by
  rcases (readKind_eq_ok hRead).2
    with ⟨-, -, rfl, -⟩ | ⟨smalltag,
    largetag, -, -, hHeader⟩
  · omega
  · have hTs : ts ≠ 0 := by
      rintro rfl
      exact puthead_ne_nil smalltag largetag cs
        (by rw [← hHeader, List.take_zero])
    omega

@[simp] theorem countValues_nil
    (fuel : Nat) :
    countValues fuel [] = .ok 0 := by
  cases fuel <;> rfl

/-
  A count of a nonempty input is one more than the count of
  what follows its first value.
-/
theorem countValues_succ
    {fuel n : Nat}
    {b : Bytes}
    (hNonempty : b ≠ [])
    (hCount : countValues (fuel + 1) b = .ok n) :
    ∃ k ts cs m, readKind b = .ok (k, ts, cs) ∧
      countValues fuel (b.drop (ts + cs)) = .ok m ∧
        n = m + 1 := by
  rcases b with _ | ⟨x, xs⟩
  · exact absurd rfl hNonempty
  unfold countValues at hCount
  split at hCount
  · cases hCount
  rename_i k ts cs hRead
  cases hRest : countValues fuel ((x :: xs).drop (ts + cs)) with
  | error err =>
      rw [hRest] at hCount
      cases hCount
  | ok m =>
      rw [hRest] at hCount
      cases hCount
      exact ⟨k, ts, cs, m, hRead, hRest, rfl⟩

namespace Stream

/-
  A stream at the top level, rearmed, whose input limit is
  what is left of its input.
-/
structure Top (s : Stream) : Prop where
  kind : s.kind = none
  stack : s.stack = []
  remaining : s.remaining = s.input.length

theorem Top.reset
    (b : PlasmaEvm.Bytes) :
    (Stream.reset b).Top :=
  ⟨rfl, rfl, rfl⟩

theorem Top.room
    {s : Stream}
    (hTop : s.Top) :
    s.Room s.input.length :=
  ⟨hTop.remaining.ge, by simp [hTop.stack]⟩

/-
  A value read off the front of the input leaves the stream
  at the top level.
-/
theorem Top.after
    {s t : Stream}
    {n : Nat}
    (hTop : s.Top)
    (hAfter : s.After n (s.input.drop n) t)
    (hKind : t.kind = none) :
    t.Top :=
  ⟨hKind, by rw [hAfter.stack, hTop.stack]; rfl,
    by
      rw [hAfter.remaining, hAfter.input, hTop.remaining,
        List.length_drop]⟩

/-
  At the top level, Raw on an empty input meets the end of
  the input.
-/
theorem Raw_eof
    {s : Stream}
    (hTop : s.Top)
    (hEmpty : s.input = []) :
    ∃ t, Raw s = .error .EOF t := by
  rcases s with ⟨input, remaining, kind, size, byteval,
    kinderr, stack⟩
  rcases hTop with ⟨hKind, hStack, hRemaining⟩
  dsimp only at hKind hStack hRemaining hEmpty
  subst hKind hStack hEmpty
  rw [List.length_nil] at hRemaining
  subst hRemaining
  exact ⟨_, rfl⟩

theorem countRaw_eof
    {s : Stream}
    (hTop : s.Top)
    (hEmpty : s.input = [])
    (fuel : Nat) :
    ∃ t, countRaw (fuel + 1) s = .ok 0 t := by
  rcases Raw_eof hTop hEmpty with ⟨t, hRaw⟩
  refine ⟨t, ?_⟩
  simp only [countRaw, hRaw]

/-
  The stream counts the values the splitter counts.  By
  induction on the fuel: each value the splitter splits off
  is one that Raw reads, and the stream stays at the top
  level on what is left.
-/
theorem countRaw_of_countValues
    (fuel : Nat) :
    ∀ {s : Stream} {n : Nat}, s.Top →
      s.input.length ≤ fuel →
      countValues fuel s.input = .ok n → ∃ t,
        countRaw (fuel + 1) s = .ok n t := by
  induction fuel with
  | zero =>
      intro s n hTop hLength hCount
      have hEmpty : s.input = [] :=
        List.eq_nil_of_length_eq_zero (Nat.le_zero.mp hLength)
      rw [hEmpty, countValues_nil,
        Except.ok.injEq] at hCount
      subst hCount
      exact countRaw_eof hTop hEmpty 0
  | succ fuel ih =>
      intro s n hTop hLength hCount
      by_cases hEmpty : s.input = []
      · rw [hEmpty, countValues_nil,
          Except.ok.injEq] at hCount
        subst hCount
        exact countRaw_eof hTop hEmpty (fuel + 1)
      rcases countValues_succ hEmpty hCount
        with ⟨k, ts, cs, m, hRead, hRest, rfl⟩
      rcases (Raw_of_readKind hTop.kind hTop.room hRead).2
        with ⟨t, hRaw, hAfter, hRearmed⟩
      have hLength' : t.input.length ≤ fuel := by
        have hPos := readKind_consumes hRead
        rw [hAfter.input, List.length_drop]
        omega
      rcases ih (hTop.after hAfter hRearmed) hLength'
        (by rw [hAfter.input]; exact hRest) with
        ⟨u, hCountRaw⟩
      refine ⟨u, ?_⟩
      rw [countRaw]
      simp only [hRaw]
      rw [hCountRaw]

end Stream

end Rlp

end PlasmaEvm

------------------------------------------------------------
-- The Splitter Against the Stream
------------------------------------------------------------

namespace PlasmaEvm

namespace Rlp

/-
  What the splitter accepts, the stream reads the same way:
  the first value the splitter splits off, the stream reads
  from the same bytes with the same kind, and Raw gives back
  the bytes before the rest and leaves the rest; and the
  stream reads as many values before the end of the input as
  the splitter counts.
-/
theorem Split_read_by_Stream
    (b : Bytes) :
    (∀ k content rest, Split b = .ok (k, content, rest) →
      (∃ size t,
        Stream.Kind (Stream.reset b) = .ok (k, size) t) ∧
        ∃ t, Stream.Raw (Stream.reset b) =
          .ok (b.take (b.length - rest.length)) t ∧
          t.input = rest) ∧
      ∀ n, CountValues b = .ok n →
        ∃ t, Stream.countRaw (b.length +
          1) (Stream.reset b) = .ok n t := by
  refine ⟨fun k content rest hSplit => ?_,
    fun n hCount => ?_⟩
  · unfold Split at hSplit
    split at hSplit
    · cases hSplit
    rename_i ts cs hRead
    cases hSplit
    have hWithin := (readKind_eq_ok hRead).1
    have hTake : b.length - (b.drop (ts +
      cs)).length = ts + cs := by
      rw [List.length_drop]
      omega
    rcases Stream.Raw_of_readKind (Stream.Top.reset b).kind
      (Stream.Top.reset b).room hRead with
      ⟨hKind, t, hRaw, hAfter, -⟩
    rw [hTake]
    exact ⟨hKind, t, hRaw, hAfter.input⟩
  · exact Stream.countRaw_of_countValues b.length
      (Stream.Top.reset b) le_rfl hCount

/-
  The converse fails on a one-byte string holding a byte
  below 0x80: the splitter rejects it at the header, and
  with it the count, while the stream reads it and counts
  it.
-/
theorem Split_rejects_what_Stream_reads :
    Split [0x81, 0x05] = .error .ErrCanonSize ∧
      (∃ t, Stream.Raw (Stream.reset [0x81,
        0x05]) = .ok [0x81, 0x05] t) ∧
      CountValues [0x81, 0x05] = .error .ErrCanonSize ∧
      ∃ t, Stream.countRaw 3 (Stream.reset [0x81,
        0x05]) = .ok 1 t := by
  have hHeader : puthead 0x80 0xB7 ([0x05] : Bytes).length =
    [0x81] := by decide +kernel
  have hInput : (Stream.reset [0x81, 0x05]).input =
      puthead 0x80 0xB7 ([0x05] : Bytes).length ++
        ([0x05] ++ []) := by
    rw [hHeader]
    rfl
  have hRoom : (Stream.reset [0x81, 0x05]).Room
      ((puthead 0x80 0xB7 ([0x05] : Bytes).length).length +
        ([0x05] : Bytes).length) :=
    (Stream.Top.reset _).room.mono (by rw [hHeader]; decide)
  have hFits : ([0x05] : Bytes).length <
    256 ^ 8 := by decide
  rcases Stream.Raw_puthead HeaderTags.string
    (Stream.Top.reset _).kind hFits hRoom hInput with
    ⟨t, hRaw, hAfter, hRearmed⟩
  rw [hHeader] at hAfter
  have hTop : t.Top :=
    (Stream.Top.reset _).after hAfter hRearmed
  rcases Stream.countRaw_eof hTop hAfter.input 1
    with ⟨u, hCount⟩
  refine ⟨by decide +kernel, ⟨t,
    hRaw.trans (by rw [hHeader]; rfl)⟩,
    by decide +kernel, u, ?_⟩
  rw [Stream.countRaw]
  simp only [hRaw]
  rw [hCount]

end Rlp

end PlasmaEvm
