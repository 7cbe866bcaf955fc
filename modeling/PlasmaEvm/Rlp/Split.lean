import PlasmaEvm.Rlp.Raw

/-
  The byte-slice splitter (raw.go) on what the encoder
  writes. `readKind` reads a header `puthead` wrote as its
  kind, the length of the header and the size of the
  content, when the value fits in what follows; so `Split`
  gives back the content of an encoded string or list and
  the bytes after it.  An encoded value is read whole
  (`Whole`), and `CountValues` of values one after another
  counts them.

  Key definitions include:
    * `Rlp.Whole`

  Key statements include:
    * `Rlp.readKind_puthead_append`
    * `Rlp.readKind_encodeString_append`,
      `Rlp.readKind_encodeList_append`
    * `Rlp.SplitString_encodeString_append`,
      `Rlp.SplitList_encodeList_append`
    * `Rlp.CountValues_flatten`
-/

------------------------------------------------------------
-- Headers
------------------------------------------------------------

namespace PlasmaEvm

namespace Rlp

/-
  The splitter reads a short header puthead wrote, when the
  value fits after it.
-/
theorem readKind_short_append
    {smalltag largetag : UInt8}
    {k : Kind}
    (hTags : HeaderTags smalltag largetag k)
    {size : Nat}
    {payload : Bytes}
    (hShort : size < 56)
    (hCanon : k = .String → size = 1 →
      payload.head?.any (· < 128) = false)
    (hLen : size ≤ payload.length) :
    readKind ((smalltag + UInt8.ofNat size) :: payload) =
      .ok (k, 1, size) := by
  have hFits : ¬ (size > ((smalltag + UInt8.ofNat size) ::
    payload).length - 1) := by
    simp only [List.length_cons]
    omega
  unfold readKind
  cases hTags with
  | string =>
      have hByte := string_short_byte ⟨size, hShort⟩
      have hNoCanon : ¬ (size = 1 ∧
        payload.head?.any (· < 128)) := by
        rintro ⟨hOne, hAny⟩
        rw [hCanon rfl hOne] at hAny
        exact Bool.false_ne_true hAny
      simp only [if_neg hByte.1, if_pos hByte.2.1,
        hByte.2.2, if_neg hNoCanon]
      rw [if_neg hFits]
  | list =>
      have hByte := list_short_byte ⟨size, hShort⟩
      simp only [if_neg hByte.1, if_neg hByte.2.1,
        if_neg hByte.2.2.1, if_pos hByte.2.2.2.1,
        hByte.2.2.2.2]
      rw [if_neg hFits]


/-
  readSize reads back the shortest bytes of a size of at
  least 56.
-/
theorem readSize_toBytes_append
    {size : Nat}
    (hLong : 56 ≤ size)
    (payload : Bytes) :
    readSize (BigEndian.toBytes size ++
      payload) (BigEndian.toBytes size).length = .ok size := by
  have hNe := BigEndian.toBytes_ne_nil (Nat.lt_of_lt_of_le
    (by norm_num) hLong)
  have hTake : (BigEndian.toBytes size ++
    payload).take (BigEndian.toBytes size).length =
      BigEndian.toBytes size := List.take_left' rfl
  have hHead : (BigEndian.toBytes size ++
    payload).head? ≠ some 0 := by
    rw [List.head?_append_of_ne_nil _ hNe]
    exact BigEndian.head_toBytes_ne_zero size
  have hCanon : ¬ (size < 56 ∨ (BigEndian.toBytes size ++
    payload).head? = some 0) :=
    fun h => h.elim (Nat.not_lt.mpr hLong) hHead
  unfold readSize
  rw [if_neg (by simp only [List.length_append]; omega)]
  simp only [hTake,
    BigEndian.ofBytes_toBytes, if_neg hCanon]

/-
  The splitter reads a long header puthead wrote, when the
  value fits after it.
-/
theorem readKind_long_append
    {smalltag largetag : UInt8}
    {k : Kind}
    (hTags : HeaderTags smalltag largetag k)
    {size : Nat}
    {payload : Bytes}
    (hLong : 56 ≤ size)
    (hFits : size < 256 ^ 8)
    (hLen : size ≤ payload.length) :
    readKind ((largetag + UInt8.ofNat
      (BigEndian.toBytes size).length) ::
      (BigEndian.toBytes size ++ payload)) =
      .ok (k,
        (BigEndian.toBytes size).length + 1, size) := by
  have hLength := length_toBytes_of_le hLong hFits
  have hSize := readSize_toBytes_append hLong payload
  have hRoom : ¬ (size > ((largetag +
    UInt8.ofNat (BigEndian.toBytes size).length) ::
      (BigEndian.toBytes size ++ payload)).length -
        ((BigEndian.toBytes size).length + 1)) := by
    simp only [List.length_cons, List.length_append]
    omega
  unfold readKind
  cases hTags with
  | string =>
      have hTag := string_long_byte ⟨_, hLength.2⟩ hLength.1
      simp only [if_neg hTag.1, if_neg hTag.2.1,
        if_pos hTag.2.2.1, hTag.2.2.2, hSize, Except.map]
      rw [if_neg hRoom]
  | list =>
      have hTag := list_long_byte ⟨_, hLength.2⟩ hLength.1
      simp only [if_neg hTag.1, if_neg hTag.2.1,
        if_neg hTag.2.2.1, if_neg hTag.2.2.2.1,
        hTag.2.2.2.2, hSize, Except.map]
      rw [if_neg hRoom]

/-
  The splitter reads any header puthead wrote as its kind,
  its length and the size.
-/
theorem readKind_puthead_append
    {smalltag largetag : UInt8}
    {k : Kind}
    (hTags : HeaderTags smalltag largetag k)
    {size : Nat}
    {payload : Bytes}
    (hFits : size < 256 ^ 8)
    (hCanon : k = .String → size = 1 →
      payload.head?.any (· < 128) = false)
    (hLen : size ≤ payload.length) :
    readKind (puthead smalltag largetag size ++ payload) =
      .ok (k,
        (puthead smalltag largetag size).length, size) := by
  rcases Nat.lt_or_ge size 56 with hShort | hLong
  · rw [puthead_of_lt hShort]
    exact readKind_short_append hTags hShort hCanon hLen
  · rw [puthead_of_le hLong]
    exact readKind_long_append hTags hLong hFits hLen


end Rlp

end PlasmaEvm

------------------------------------------------------------
-- Encoded Strings and Lists
------------------------------------------------------------

namespace PlasmaEvm

namespace Rlp

/-
  The splitter reads an encoded list as a list of its
  payload.
-/
theorem readKind_encodeList_append
    {payload : Bytes}
    (hFits : payload.length < 256 ^ 8)
    (rest : Bytes) :
    readKind (encodeList payload ++ rest) =
      .ok (.List, (puthead 0xC0 0xF7 payload.length).length,
        payload.length) := by
  rw [encodeList, List.append_assoc]
  exact readKind_puthead_append HeaderTags.list hFits
    (fun h => Kind.noConfusion h)
    (by simp only [List.length_append]; omega)

/-
  The splitter reads an encoded string as a byte or a string
  of its content.
-/
theorem readKind_encodeString_append
    {s : Bytes}
    (hFits : s.length < 256 ^ 8)
    (rest : Bytes) :
    readKind (encodeString s ++ rest) =
      if isSingleByte s then .ok (.Byte, 0, 1)
      else .ok (.String,
        (puthead 0x80 0xB7 s.length).length, s.length) := by
  unfold encodeString
  by_cases hSingle : isSingleByte s
  · rw [if_pos hSingle, if_pos hSingle]
    obtain ⟨c, rfl, hLe⟩ := isSingleByte_iff.mp hSingle
    have hLow : c < 0x80 :=
      UInt8.lt_of_le_of_lt hLe (by decide)
    unfold readKind
    simp only [List.singleton_append, if_pos hLow,
      List.length_cons]
    rw [if_neg (by omega)]
  · rw [if_neg hSingle, if_neg hSingle, List.append_assoc]
    refine readKind_puthead_append HeaderTags.string hFits
      (fun _ hOne => ?_)
      (by simp only [List.length_append]; omega)
    obtain ⟨c, rfl⟩ := List.length_eq_one_iff.mp hOne
    have hHigh : ¬ c ≤ 0x7F := fun hLe =>
      hSingle (isSingleByte_iff.mpr ⟨c, rfl, hLe⟩)
    simp only [List.singleton_append, List.head?_cons,
      Option.any_some, decide_eq_false_iff_not]
    intro hLt
    apply hHigh
    rw [UInt8.le_iff_toNat_le]
    rw [UInt8.lt_iff_toNat_lt] at hLt
    simp only [UInt8.reduceToNat] at hLt ⊢
    omega


/- A list's payload comes after its header. -/
theorem length_lt_encodeList (payload : Bytes) :
    payload.length < (encodeList payload).length := by
  have hHead := puthead_ne_nil 0xC0 0xF7 payload.length
  rw [encodeList, List.length_append]
  have := List.length_pos_iff.mpr hHead
  omega

theorem length_le_encodeString (s : Bytes) :
    s.length ≤ (encodeString s).length := by
  unfold encodeString
  split
  · exact le_rfl
  · rw [List.length_append]
    omega

/-
  Split of an encoded list: the list's payload, then what
  follows.
-/
theorem Split_encodeList_append
    {payload : Bytes}
    (hFits : payload.length < 256 ^ 8)
    (rest : Bytes) :
    Split (encodeList payload ++ rest) = .ok (.List,
      payload, rest) := by
  unfold Split
  rw [readKind_encodeList_append hFits rest]
  simp only [encodeList, List.append_assoc, List.drop_left,
    List.take_left, Except.ok.injEq,
    Prod.mk.injEq, true_and]
  rw [← List.drop_drop, List.drop_left, List.drop_left]

/-
  Split of an encoded string: its kind, its content, then
  what follows.
-/
theorem Split_encodeString_append
    {s : Bytes}
    (hFits : s.length < 256 ^ 8)
    (rest : Bytes) :
    Split (encodeString s ++ rest) = .ok (if isSingleByte s
      then .Byte else .String, s, rest) := by
  unfold Split
  rw [readKind_encodeString_append hFits rest]
  by_cases hSingle : isSingleByte s
  · obtain ⟨c, rfl, -⟩ := isSingleByte_iff.mp hSingle
    simp only [if_pos hSingle, encodeString]
    rfl
  · simp only [if_neg hSingle, encodeString,
      List.append_assoc, List.drop_left, List.take_left]
    rw [← List.drop_drop, List.drop_left, List.drop_left]

theorem SplitString_encodeString_append
    {s : Bytes}
    (hFits : s.length < 256 ^ 8)
    (rest : Bytes) :
    SplitString (encodeString s ++ rest) =
      .ok (s, rest) := by
  have hKind : (if isSingleByte s
    then Kind.Byte else Kind.String) ≠ .List := by
    split <;> exact fun h => Kind.noConfusion h
  unfold SplitString
  rw [Split_encodeString_append hFits rest]
  dsimp only
  rw [if_neg hKind]

theorem SplitList_encodeList_append
    {payload : Bytes}
    (hFits : payload.length < 256 ^ 8)
    (rest : Bytes) :
    SplitList (encodeList payload ++ rest) =
      .ok (payload, rest) := by
  unfold SplitList
  rw [Split_encodeList_append hFits rest]
  rfl

end Rlp

end PlasmaEvm

------------------------------------------------------------
-- Counting Values
------------------------------------------------------------

namespace PlasmaEvm

namespace Rlp

/-
  A value the splitter reads whole: its header and content
  are all of its bytes.
-/
def Whole (e : Bytes) : Prop :=
  ∀ rest, ∃ k ts cs, readKind (e ++ rest) = .ok (k, ts,
    cs) ∧ ts + cs = e.length

theorem whole_encodeList
    {payload : Bytes}
    (hFits : payload.length < 256 ^ 8) :
    Whole (encodeList payload) := fun rest =>
  ⟨_, _, _, readKind_encodeList_append hFits rest,
    by simp [encodeList]⟩

theorem whole_encodeString
    {s : Bytes}
    (hFits : s.length < 256 ^ 8) :
    Whole (encodeString s) := by
  intro rest
  rw [readKind_encodeString_append hFits rest]
  by_cases hSingle : isSingleByte s
  · refine ⟨_, _, _, if_pos hSingle, ?_⟩
    simp only [encodeString, if_pos hSingle]
    obtain ⟨c, rfl, -⟩ := isSingleByte_iff.mp hSingle
    rfl
  · exact ⟨_, _, _, if_neg hSingle,
      by simp [encodeString, hSingle]⟩

/-
  A count goes on from what follows the first value read.
-/
theorem countValues_of_readKind
    {b : Bytes}
    {k : Kind}
    {ts cs : Nat}
    (hNe : b ≠ [])
    (hRead : readKind b = .ok (k, ts, cs))
    (fuel : Nat) :
    countValues (fuel + 1) b = (countValues fuel (b.drop
      (ts + cs))).map (· + 1) := by
  rcases b with _ | ⟨x, xs⟩
  · exact absurd rfl hNe
  conv_lhs => unfold countValues
  rw [hRead]

/-
  The splitter counts the values of a run of values it reads
  whole.
-/
theorem countValues_flatten :
    ∀ (es : List Bytes), (∀ e ∈ es, Whole e) → ∀ fuel,
      es.length ≤ fuel →
      countValues fuel es.flatten = .ok es.length
  | [], _, fuel, _ => countValues_nil fuel
  | e :: es, hWhole, fuel, hFuel => by
      obtain ⟨k, ts, cs, hRead, hLen⟩ :=
        hWhole e List.mem_cons_self es.flatten
      have hPos := readKind_consumes hRead
      obtain ⟨f, rfl⟩ : ∃ f, fuel = f + 1 := ⟨fuel - 1,
        by simp only [List.length_cons] at hFuel; omega⟩
      have hNe : e ++ es.flatten ≠ [] := fun h => by
        have := congrArg List.length h
        simp only [List.length_append,
          List.length_nil] at this
        omega
      rw [List.flatten_cons, countValues_of_readKind hNe
        hRead, hLen, List.drop_left,
        countValues_flatten es (fun e' hMem =>
          hWhole e' (List.mem_cons_of_mem e hMem)) f
          (by simp only [List.length_cons] at hFuel; omega)]
      rfl

/-
  CountValues of a run of values read whole: how many there
  are.
-/
theorem CountValues_flatten
    {es : List Bytes}
    (hWhole : ∀ e ∈ es, Whole e) :
    CountValues es.flatten = .ok es.length := by
  apply countValues_flatten es hWhole
  induction es with
  | nil => simp
  | cons e es ih =>
      obtain ⟨k, ts, cs, hRead, hLen⟩ :=
        hWhole e List.mem_cons_self []
      have hPos := readKind_consumes hRead
      have hRest := ih (fun e' hMem =>
        hWhole e' (List.mem_cons_of_mem e hMem))
      simp only [List.flatten_cons, List.length_append,
        List.length_cons]
      omega

end Rlp

end PlasmaEvm
