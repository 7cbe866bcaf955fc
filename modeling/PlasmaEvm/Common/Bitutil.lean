import PlasmaEvm.Common.Types
import PlasmaEvm.Data.ListFilter
import PlasmaEvm.Data.Bitset
import PlasmaEvm.Control.Except

/-
  The sparse bitset compression of package bitutil
  (compress.go). `bitsetEncodeBytes` writes the bitset of
  the nonzero positions of its input, itself encoded the
  same way, then the nonzero bytes;
  `bitsetDecodePartialBytes` decodes the bitset one level
  down and hands the nonzero bytes out to the positions it
  raises. `CompressBytes` keeps its input when the encoding
  is not shorter, and `DecompressBytes` takes an input as
  long as its target as stored uncompressed.

  A runtime panic of the decoder is an outcome of its own:
  an index out of range is `indexOutOfRange`, and a `make`
  of more bytes than the runtime's `maxAlloc` (2^48 on
  amd64) is `lenOutOfRange`; the decoder's own errors are
  the other constructors, under the names of their Go
  variables.

  Key definitions include:
    * `Bitutil.bitsetEncodeBytes`, `Bitutil.CompressBytes`
    * `Bitutil.bitsetDecodePartialBytes`,
      `Bitutil.DecompressBytes`
-/

------------------------------------------------------------
-- Compression
------------------------------------------------------------

namespace PlasmaEvm

namespace Bitutil

/-
  One turn of the loop of bitsetEncodeBytes over `(b, i)`: a
  nonzero byte is kept and raised.
-/
def encodeStep
    (acc : Bytes × Bytes)
    (entry : UInt8 × Nat) : Bytes × Bytes :=
  if entry.1 ≠ 0 then
    (acc.1.modify (entry.2 / 8) (· ||| (1 <<< (7 -
      entry.2 % 8).toUInt8)), acc.2 ++ [entry.1])
  else acc

/-
  The loop of bitsetEncodeBytes: the bitset of the nonzero
  positions and the nonzero bytes.
-/
def encodeScan (data : Bytes) : Bytes × Bytes :=
  data.zipIdx.foldl encodeStep (List.replicate
    ((data.length + 7) / 8) 0, [])

theorem length_encodeScan_fst (data : Bytes) :
    (encodeScan data).1.length = (data.length + 7) / 8 := by
  have hKeep : ∀ (l : List (UInt8 × Nat)) (acc : Bytes × Bytes),
      (l.foldl encodeStep acc).1.length = acc.1.length := by
    intro l
    induction l with
    | nil => intro acc; rfl
    | cons entry l ih =>
        intro acc
        rw [List.foldl_cons, ih]
        unfold encodeStep
        split <;> simp
  rw [encodeScan, hKeep]
  simp

def bitsetEncodeBytes (data : Bytes) : Bytes :=
  if data.length = 0 then []
  else if data.length = 1 then
    if data.headD 0 = 0 then [] else data
  else
    let scan := encodeScan data
    if scan.2.length = 0 then []
    else bitsetEncodeBytes scan.1 ++ scan.2
termination_by data.length
decreasing_by
  rw [length_encodeScan_fst]
  omega

/-
  CompressBytes: the encoding when it is shorter, and a copy
  of the input otherwise.
-/
def CompressBytes (data : Bytes) : Bytes :=
  let out := bitsetEncodeBytes data
  if out.length < data.length then out else data

end Bitutil

end PlasmaEvm

------------------------------------------------------------
-- Decompression
------------------------------------------------------------

namespace PlasmaEvm

namespace Bitutil

/- The outcomes of a decompression that fails. -/
inductive DecompressError where
  | errMissingData
  | errUnreferencedData
  | errExceededTarget
  | errZeroContent
  | indexOutOfRange
  | lenOutOfRange
  deriving DecidableEq, Repr

/-
  The outcomes that are runtime panics, not errors returned.
-/
def DecompressError.panics : DecompressError → Bool
  | .indexOutOfRange => true
  | .lenOutOfRange => true
  | _ => false

/-
  The runtime's maxAlloc on amd64 (malloc.go): makeslice
  panics with `len out of range` on a byte slice longer than
  it.
-/
def maxAlloc : Nat := 2 ^ 48

/- Go's s[i]: the element, or a panic past the end. -/
def index
    (s : Bytes)
    (i : Nat) : Except DecompressError UInt8 :=
  match s[i]? with
  | some b => .ok b
  | none => .error .indexOutOfRange

/-
  Go's s[i] = b: the slice with `b` at `i`, or a panic past
  the end.
-/
def setIndex
    (s : Bytes)
    (i : Nat)
    (b : UInt8) : Except DecompressError Bytes :=
  if i < s.length
    then .ok (s.set i b) else .error .indexOutOfRange

/-
  One turn of the loop that hands out the nonzero bytes: at
  a raised position `i` of the bitset, the byte at `ptr`
  goes to `decomp[i]`.
-/
def decodeStep
    (data nonZeroBitset : Bytes)
    (acc : Bytes × Nat)
    (i : Nat) : Except DecompressError (Bytes × Nat) := do
  let (decomp, ptr) := acc
  let byte ← index nonZeroBitset (i / 8)
  if byte &&& (1 <<< (7 - i % 8).toUInt8) ≠ 0 then
    if ptr ≥ data.length then throw .errMissingData
    if i ≥ decomp.length then throw .errExceededTarget
    let b ← index data ptr
    if b = 0 then throw .errZeroContent
    let decomp ← setIndex decomp i b
    pure (decomp, ptr + 1)
  else pure (decomp, ptr)

/-
  bitsetDecodePartialBytes: the decompressed bytes and how
  much of the input they took, which may be less than all of
  it.  Its make([]byte, target) panics above maxAlloc.
-/
def bitsetDecodePartialBytes
    (data : Bytes)
    (target : Nat) : Except DecompressError (Bytes × Nat) :=
  if target = 0 then .ok ([], 0)
  else if maxAlloc < target then .error .lenOutOfRange
  else
    let decomp := List.replicate target 0
    if data.length = 0 then .ok (decomp, 0)
    else if target = 1 then do
      let b ← index data 0
      let decomp ← setIndex decomp 0 b
      if b ≠ 0 then pure (decomp, 1) else pure (decomp, 0)
    else do
      let (nonZeroBitset, ptr) ← bitsetDecodePartialBytes
        data ((target + 7) / 8)
      (List.range (8 * nonZeroBitset.length)).foldlM
        (decodeStep data nonZeroBitset) (decomp, ptr)
termination_by target
decreasing_by omega

def bitsetDecodeBytes
    (data : Bytes)
    (target : Nat) : Except DecompressError Bytes := do
  let (out, size) ← bitsetDecodePartialBytes data target
  if size ≠ data.length then throw .errUnreferencedData
  pure out

/-
  DecompressBytes: an input as long as its target is a copy
  of what was stored; a shorter one is decoded.  The target
  is a Go int.
-/
def DecompressBytes
    (data : Bytes)
    (target : Int) : Except DecompressError Bytes :=
  if (data.length : Int) > target
    then .error .errExceededTarget
  else if (data.length : Int) = target then .ok data
  else bitsetDecodeBytes data target.toNat

end Bitutil

end PlasmaEvm

------------------------------------------------------------
-- The Encoder's Scan
------------------------------------------------------------

namespace PlasmaEvm

namespace Bitutil

/-
  A turn of the scan keeps a nonzero byte and raises its
  position.
-/
theorem encodeStep_eq
    (acc : Bytes × Bytes)
    (b : UInt8)
    (i : Nat) :
    encodeStep acc (b, i) = if b ≠ 0
      then (Bitset.set acc.1 i, acc.2 ++ [b]) else acc := by
  unfold encodeStep Bitset.set Bitset.orAt
  rw [Bitset.shiftLeft_eq_mask]

/- The byte at `q` of a string grown by one byte. -/
theorem getD_append_singleton
    (l : Bytes)
    (x : UInt8)
    (q : Nat) :
    (l ++ [x]).getD q 0 = if q < l.length
      then l.getD q 0 else if q = l.length
        then x else 0 := by
  rw [List.getD_eq_getElem?_getD,
    List.getD_eq_getElem?_getD]
  by_cases hLt : q < l.length
  · rw [if_pos hLt, List.getElem?_append_left hLt]
  · rw [if_neg hLt, List.getElem?_append_right (by omega)]
    by_cases hEq : q = l.length
    · subst hEq
      simp
    · rw [if_neg hEq,
        List.getElem?_eq_none (by simp; omega)]
      rfl

/-
  The scan over any string, from any bitset: it keeps the
  nonzero bytes in order and raises the positions of the
  nonzero bytes that fall in the bitset.  By induction on
  the string from its end, as the scan's positions count
  from its start.
-/
theorem foldl_encodeStep
    (l bits bytes : Bytes) :
    (l.zipIdx.foldl encodeStep (bits,
      bytes)).2 = bytes ++ l.filter (· != 0) ∧
      (l.zipIdx.foldl encodeStep (bits,
        bytes)).1.length = bits.length ∧
      ∀ q, Bitset.get (l.zipIdx.foldl encodeStep
        (bits, bytes)).1 q =
        (Bitset.get bits q || (decide (q / 8 <
          bits.length) && l.getD q 0 != 0)) := by
  induction l using List.reverseRecOn with
  | nil => simp
  | append_singleton l x ih =>
      rcases ih with ⟨hBytes, hLength, hGet⟩
      rw [List.zipIdx_append, List.foldl_append]
      simp only [Nat.zero_add, List.zipIdx_cons,
        List.zipIdx_nil, List.foldl_cons,
        List.foldl_nil, encodeStep_eq]
      by_cases hZero : x = 0
      · subst hZero
        refine ⟨by simp [hBytes], hLength, fun q => ?_⟩
        rw [if_neg (by simp), hGet q, getD_append_singleton]
        by_cases hLt : q < l.length
        · rw [if_pos hLt]
        · rw [if_neg hLt, List.getD_eq_getElem?_getD,
            List.getElem?_eq_none (by omega)]
          split <;> rfl
      · rw [if_pos hZero]
        refine ⟨by simp [hBytes, hZero],
          by rw [Bitset.length_set, hLength], fun q => ?_⟩
        rw [Bitset.get_set, hGet q, hLength,
          getD_append_singleton]
        by_cases hLt : q < l.length
        · have hNe : l.length ≠ q := by omega
          simp [hLt, hNe]
        · rw [if_neg hLt, List.getD_eq_getElem?_getD,
            List.getElem?_eq_none (by omega)]
          by_cases hEq : q = l.length
          · subst hEq
            have hKept : (x != 0) = true :=
              bne_iff_ne.mpr hZero
            simp [hKept]
          · have hNe : l.length ≠ q := Ne.symm hEq
            simp [hEq, hNe]

theorem encodeScan_snd (data : Bytes) :
    (encodeScan data).2 = data.filter (· != 0) := by
  rw [encodeScan, (foldl_encodeStep data _ []).1,
    List.nil_append]

/-
  The scan's bitset raises exactly the positions of the
  nonzero bytes.
-/
theorem get_encodeScan_fst
    (data : Bytes)
    (q : Nat) :
    Bitset.get (encodeScan data).1 q =
      (data.getD q 0 != 0) := by
  rw [encodeScan, (foldl_encodeStep data _ []).2.2 q,
    Bitset.get_replicate_zero, Bool.false_or,
    List.length_replicate]
  by_cases hLt : q < data.length
  · have hByte : q / 8 < (data.length + 7) / 8 := by omega
    simp [hByte]
  · rw [List.getD_eq_getElem?_getD,
      List.getElem?_eq_none (by omega)]
    simp

end Bitutil

end PlasmaEvm

------------------------------------------------------------
-- The Shape of an Encoding
------------------------------------------------------------

namespace PlasmaEvm

namespace Bitutil

/-
  A string with a nonzero byte has a nonzero byte at some
  position, and the scan raises it.
-/
theorem exists_get_encodeScan
    {data : Bytes}
    (hNonzero : ∃ x ∈ data, x ≠ 0) :
    ∃ y ∈ (encodeScan data).1, y ≠ 0 := by
  rcases hNonzero with ⟨x, hMem, hx⟩
  rcases List.getElem_of_mem hMem with ⟨q, hq, rfl⟩
  have hRaised : Bitset.get (encodeScan data).1 q = true := by
    rw [get_encodeScan_fst, List.getD_eq_getElem?_getD,
      List.getElem?_eq_getElem hq]
    simpa using hx
  unfold Bitset.get at hRaised
  rw [List.getD_eq_getElem?_getD] at hRaised
  cases hByte : (encodeScan data).1[q / 8]? with
  | none => simp [hByte] at hRaised
  | some y =>
      refine ⟨y, List.mem_of_getElem? hByte,
        fun hZero => ?_⟩
      subst hZero
      simp [hByte] at hRaised

theorem bitsetEncodeBytes_singleton
    {x : UInt8}
    (hx : x ≠ 0) :
    bitsetEncodeBytes [x] = [x] := by
  rw [bitsetEncodeBytes]
  simp [hx]

/-
  Two bytes or more, one of them nonzero: the encoded
  bitset, then the nonzero bytes.
-/
theorem bitsetEncodeBytes_of_two_le
    {data : Bytes}
    (hLength : 2 ≤ data.length)
    (hNonzero : ∃ x ∈ data, x ≠ 0) :
    bitsetEncodeBytes data = bitsetEncodeBytes
      (encodeScan data).1 ++ data.filter (· != 0) := by
  have hKept : (data.filter (· != 0)).length ≠ 0 := by
    rcases hNonzero with ⟨x, hMem, hx⟩
    rw [Ne, List.length_eq_zero_iff, List.filter_eq_nil_iff]
    exact fun hNone => by simpa [hx] using hNone x hMem
  rw [bitsetEncodeBytes, if_neg (by omega),
    if_neg (by omega)]
  simp only [encodeScan_snd]
  rw [if_neg hKept]

theorem bitsetEncodeBytes_ne_nil
    {data : Bytes}
    (hNonzero : ∃ x ∈ data, x ≠ 0) :
    bitsetEncodeBytes data ≠ [] := by
  rcases data with _ | ⟨x, _ | ⟨y, rest⟩⟩
  · simp at hNonzero
  · have hx : x ≠ 0 := by simpa using hNonzero
    rw [bitsetEncodeBytes_singleton hx]
    simp
  · rw [bitsetEncodeBytes_of_two_le (by simp) hNonzero]
    rcases hNonzero with ⟨z, hMem, hz⟩
    intro hNil
    have hFiltered := (List.append_eq_nil_iff.mp hNil).2
    rw [List.filter_eq_nil_iff] at hFiltered
    simpa [hz] using hFiltered z hMem

theorem bitsetEncodeBytes_of_zero
    {data : Bytes}
    (hZero : ∀ x ∈ data, x = 0) :
    bitsetEncodeBytes data = [] := by
  rw [bitsetEncodeBytes]
  have hNone : (encodeScan data).2.length = 0 := by
    rw [encodeScan_snd, List.length_eq_zero_iff,
      List.filter_eq_nil_iff]
    intro x hMem
    simp [hZero x hMem]
  rcases data with _ | ⟨x, _ | ⟨y, rest⟩⟩
  · rfl
  · simp [hZero x (by simp)]
  · simp only [List.length_cons]
    rw [if_neg (by omega), if_neg (by omega)]
    simp only [hNone, if_true]

end Bitutil

end PlasmaEvm

------------------------------------------------------------
-- Handing Out the Nonzero Bytes
------------------------------------------------------------

namespace PlasmaEvm

namespace Bitutil

theorem index_of_lt
    {s : Bytes}
    {i : Nat}
    (h : i < s.length) :
    index s i = .ok s[i] := by
  simp [index, List.getElem?_eq_getElem h]

theorem setIndex_of_lt
    {s : Bytes}
    {i : Nat}
    (h : i < s.length)
    (b : UInt8) :
    setIndex s i b = .ok (s.set i b) := by
  simp [setIndex, h]

/-
  The turn at `n` of the loop that hands the nonzero bytes
  of `d` out, when the bitset raises exactly the positions
  of those bytes and they follow `pre` in the input: after
  `n` positions the output is `d` up to `n` and zeros after,
  and the pointer has passed the nonzero bytes before `n`.
-/
theorem decodeStep_handOut
    {d pre rest bs : Bytes}
    (hBits : ∀ q, Bitset.get bs q = (d.getD q 0 != 0))
    {n : Nat}
    (hn : n < 8 * bs.length) :
    decodeStep (pre ++ d.filter (· != 0) ++ rest) bs
        (d.take n ++ List.replicate (d.length - n) 0,
          pre.length + ((d.take n).filter (· != 0)).length) n =
      .ok (d.take (n + 1) ++ List.replicate
        (d.length - (n + 1)) 0,
        pre.length + ((d.take (n + 1)).filter (· !=
          0)).length) := by
  have hByte : n / 8 < bs.length := by omega
  have hTest : (bs[n / 8] &&& (1 <<< (7 - n % 8).toUInt8) ≠
    0) ↔ d.getD n 0 ≠ 0 := by
    have hBit := hBits n
    rw [Bitset.get, List.getD_eq_getElem?_getD,
      List.getElem?_eq_getElem hByte,
      Option.getD_some] at hBit
    rw [Bitset.shiftLeft_eq_mask, ← bne_iff_ne,
      hBit, bne_iff_ne]
  unfold decodeStep
  simp only [index_of_lt hByte, bind, Except.bind]
  by_cases hZero : d.getD n 0 = 0
  · rw [if_neg (fun h => hTest.mp h hZero)]
    by_cases hIn : n < d.length
    · have hAt : d[n] = 0 := by
        rw [List.getD_eq_getElem?_getD,
          List.getElem?_eq_getElem hIn] at hZero
        exact hZero
      have hTake : d.take (n + 1) = d.take n ++ [0] := by
        rw [List.take_add_one,
          List.getElem?_eq_getElem hIn, hAt]
        rfl
      have hZeros : d.length - n = (d.length - (n +
        1)) + 1 := by omega
      rw [hTake, hZeros, List.replicate_succ,
        List.filter_append]
      simp
    · rw [List.take_of_length_le (by omega),
        List.take_of_length_le (by omega)]
      rw [show d.length - n = d.length - (n + 1) by omega]
      rfl
  · rw [if_pos (hTest.mpr hZero)]
    have hIn : n < d.length := by
      by_contra hOut
      rw [List.getD_eq_getElem?_getD,
        List.getElem?_eq_none (by omega)] at hZero
      exact hZero rfl
    have hAt : d[n] ≠ 0 := by
      rw [List.getD_eq_getElem?_getD,
        List.getElem?_eq_getElem hIn] at hZero
      exact hZero
    have hKept := List.getElem?_filter_length_take hIn
      (p := (· != 0))
      (bne_iff_ne.mpr hAt : (d[n] != 0) = true)
    have hPtr : ((d.take n).filter (· != 0)).length <
      (d.filter (· != 0)).length :=
      (List.getElem?_eq_some_iff.mp hKept).1
    have hData : (pre ++ d.filter (· != 0) ++ rest)[pre.length +
        ((d.take n).filter (· != 0)).length]? =
          some d[n] := by
      rw [List.append_assoc, List.getElem?_append_right
        (by omega), Nat.add_sub_cancel_left,
        List.getElem?_append_left hPtr, hKept]
    have hDataLt := (List.getElem?_eq_some_iff.mp hData).1
    have hOut : n < (d.take n ++ List.replicate (d.length -
      n) 0).length := by
      simp
      omega
    rw [if_neg (by omega), if_neg (by omega),
      index_of_lt hDataLt]
    simp only [(List.getElem?_eq_some_iff.mp hData).2,
      if_neg hAt, setIndex_of_lt hOut]
    have hTake : d.take (n + 1) = d.take n ++ [d[n]] := by
      rw [List.take_add_one, List.getElem?_eq_getElem hIn]
      rfl
    have hZeros : d.length - n = (d.length - (n +
      1)) + 1 := by omega
    have hTakeLength : (d.take n).length = n := by
      simp
      omega
    rw [hTake, hZeros, List.replicate_succ,
      List.set_append_right _ _ (by omega), hTakeLength,
      Nat.sub_self]
    have hKeptAt : (d[n] != 0) = true := bne_iff_ne.mpr hAt
    rw [List.filter_append, List.length_append,
      List.filter_cons_of_pos (p := fun x =>
        x != 0) hKeptAt, List.filter_nil,
      List.length_singleton, List.append_assoc,
        List.singleton_append, ← Nat.add_assoc,
      List.set_cons_zero]
    rfl

end Bitutil

end PlasmaEvm

------------------------------------------------------------
-- Decoding What Was Encoded
------------------------------------------------------------

namespace PlasmaEvm

namespace Bitutil

/-
  The whole loop hands every nonzero byte of `d` out to its
  position: by induction on the positions the loop has
  passed.
-/
theorem foldlM_decodeStep_handOut
    {d pre rest bs : Bytes}
    (hBits : ∀ q, Bitset.get bs q = (d.getD q 0 != 0))
    (n : Nat)
    (hn : n ≤ 8 * bs.length) :
    (List.range n).foldlM (decodeStep (pre ++ d.filter (· !=
      0) ++ rest) bs)
        (List.replicate d.length 0, pre.length) =
      .ok (d.take n ++ List.replicate (d.length - n) 0,
        pre.length + ((d.take n).filter (· != 0)).length) := by
  induction n with
  | zero => simp
  | succ n ih =>
      rw [List.range_succ,
        List.foldlM_append, ih (by omega)]
      simp only [bind, Except.bind, List.foldlM_cons,
        List.foldlM_nil]
      rw [decodeStep_handOut hBits (by omega)]
      rfl

/-
  Two bytes or more of target and some input: the bitset one
  level down, then the loop.
-/
theorem bitsetDecodePartialBytes_of_two_le
    {data : Bytes}
    {target : Nat}
    (hTarget : 2 ≤ target)
    (hAlloc : target ≤ maxAlloc)
    (hData : data ≠ []) :
    bitsetDecodePartialBytes data target =
      bitsetDecodePartialBytes data ((target + 7) / 8) >>=
        fun inner =>
          (List.range (8 * inner.1.length)).foldlM
            (decodeStep data inner.1)
            (List.replicate target 0, inner.2) := by
  rw [bitsetDecodePartialBytes, if_neg (by omega),
    if_neg (Nat.not_lt.mpr hAlloc),
    if_neg (by simpa using hData), if_neg (by omega)]

/-
  The decoder reads back what the encoder wrote, from an
  input that may go on after it, when there is a nonzero
  byte to encode and the output fits maxAlloc.  By induction
  on the length, as the encoder recurs on the shorter
  bitset: a single nonzero byte is its own encoding, and a
  longer input is its bitset one level down followed by its
  nonzero bytes.
-/
theorem bitsetDecodePartialBytes_encode
    (n : Nat) :
    ∀ (d rest : Bytes), d.length = n → d.length ≤ maxAlloc →
      (∃ x ∈ d, x ≠ 0) →
      bitsetDecodePartialBytes (bitsetEncodeBytes d ++ rest)
          d.length =
        .ok (d, (bitsetEncodeBytes d).length) := by
  induction n using Nat.strong_induction_on with
  | _ n ih =>
      intro d rest hLength hAlloc hNonzero
      rcases d with _ | ⟨x, _ | ⟨y, tail⟩⟩
      · simp at hNonzero
      · have hx : x ≠ 0 := by simpa using hNonzero
        rw [bitsetEncodeBytes_singleton hx,
          bitsetDecodePartialBytes]
        simp [index, setIndex, hx, maxAlloc]
      · generalize hd : x :: y :: tail = d at *
        have hTwo : 2 ≤ d.length := by
          rw [← hd]
          simp
        have hBitsLength := length_encodeScan_fst d
        have hInner := ih (encodeScan d).1.length (by omega)
          (encodeScan d).1 (d.filter (· != 0) ++ rest) rfl
          (by omega) (exists_get_encodeScan hNonzero)
        rw [← List.append_assoc] at hInner
        have hData : bitsetEncodeBytes (encodeScan d).1 ++
            d.filter (· != 0) ++ rest ≠ [] := by
          simp [bitsetEncodeBytes_ne_nil
            (exists_get_encodeScan hNonzero)]
        rw [bitsetEncodeBytes_of_two_le hTwo hNonzero,
          bitsetDecodePartialBytes_of_two_le hTwo hAlloc hData,
          ← hBitsLength, hInner]
        simp only [bind, Except.bind]
        rw [foldlM_decodeStep_handOut
          (get_encodeScan_fst d) _ le_rfl,
          List.take_of_length_le (by omega),
            Nat.sub_eq_zero_of_le (by omega),
          List.replicate_zero, List.append_nil,
            List.length_append]

end Bitutil

end PlasmaEvm

------------------------------------------------------------
-- The Round Trip, and a Decoder That Never Panics
------------------------------------------------------------

namespace PlasmaEvm

namespace Bitutil

theorem length_CompressBytes_le (data : Bytes) :
    (CompressBytes data).length ≤ data.length := by
  unfold CompressBytes
  dsimp only
  split
  · omega
  · exact le_rfl

/-
  Decompressing what CompressBytes wrote, at the input's
  length, gives the input back.  An encoding that is not
  shorter is kept and copied back; a shorter one with a
  nonzero byte is read back by the decoder; and an input of
  zeros encodes to nothing, which the decoder fills with
  zeros.
-/
theorem DecompressBytes_CompressBytes
    (data : Bytes)
    (hAlloc : data.length ≤ maxAlloc) :
    DecompressBytes (CompressBytes data) data.length =
      .ok data := by
  unfold CompressBytes
  by_cases hShort :
      (bitsetEncodeBytes data).length < data.length
  · rw [if_pos hShort]
    unfold DecompressBytes
    rw [if_neg (by omega), if_neg (by omega),
      Int.toNat_natCast]
    unfold bitsetDecodeBytes
    by_cases hNonzero : ∃ x ∈ data, x ≠ 0
    · have hDecode := bitsetDecodePartialBytes_encode
        data.length data [] rfl hAlloc hNonzero
      rw [List.append_nil] at hDecode
      simp [hDecode]
    · have hZero : ∀ x ∈ data, x = 0 := fun x hMem => by
        by_contra hx
        exact hNonzero ⟨x, hMem, hx⟩
      rw [bitsetEncodeBytes_of_zero hZero] at hShort ⊢
      have hZeros : List.replicate data.length 0 = data :=
        (List.eq_replicate_iff.mpr ⟨rfl, hZero⟩).symm
      rw [bitsetDecodePartialBytes,
        if_neg (by simp at hShort; omega),
        if_neg (Nat.not_lt.mpr hAlloc)]
      simp [hZeros]
  · rw [if_neg hShort]
    simp [DecompressBytes]

/-
  A turn of the distributing loop indexes only within the
  bitset, the input and the output, so it fails with no
  panic.
-/
theorem decodeStep_not_panics
    (data nonZeroBitset : Bytes)
    (acc : Bytes × Nat)
    {i : Nat}
    (hi : i < 8 * nonZeroBitset.length) :
    ∀ e, decodeStep data nonZeroBitset acc i = .error e →
      e.panics = false := by
  rcases acc with ⟨decomp, ptr⟩
  have hByte : i / 8 < nonZeroBitset.length := by omega
  intro e hStep
  unfold decodeStep at hStep
  simp only [index_of_lt hByte, bind, Except.bind] at hStep
  split at hStep
  · by_cases hPtr : ptr ≥ data.length
    · simp only [hPtr, if_true] at hStep
      cases hStep
      rfl
    by_cases hOut : i ≥ decomp.length
    · simp only [hPtr, hOut, if_true, if_false] at hStep
      cases hStep
      rfl
    simp only [hPtr, hOut, if_false,
      index_of_lt (Nat.lt_of_not_le hPtr)] at hStep
    split at hStep
    · cases hStep
      rfl
    · simp [setIndex_of_lt (Nat.lt_of_not_le hOut), pure,
        Except.pure] at hStep
  · cases hStep

/-
  Whatever its input, the partial decoder fails with no
  panic on a target up to maxAlloc: by induction on the
  target, which each level shrinks, with the loop's turns
  bounded by `decodeStep_not_panics`.
-/
theorem bitsetDecodePartialBytes_not_panics
    (target : Nat) :
    target ≤ maxAlloc → ∀ data e,
      bitsetDecodePartialBytes data target = .error e →
        e.panics = false := by
  induction target using Nat.strong_induction_on with
  | _ target ih =>
      intro hAlloc data
      rw [bitsetDecodePartialBytes]
      by_cases hZero : target = 0
      · simp [hZero]
      rw [if_neg hZero, if_neg (Nat.not_lt.mpr hAlloc)]
      by_cases hEmpty : data.length = 0
      · simp [hEmpty]
      rw [if_neg hEmpty]
      by_cases hOne : target = 1
      · subst hOne
        simp [index_of_lt (Nat.pos_of_ne_zero hEmpty),
          setIndex, bind, Except.bind]
        split <;> simp [pure, Except.pure]
      · rw [if_neg hOne]
        apply Except.bind_errors
          (ih _ (by omega) (by omega) data)
        rintro ⟨nonZeroBitset, ptr⟩
        exact Except.foldlM_errors (fun i hMem acc =>
          decodeStep_not_panics data nonZeroBitset acc
            (List.mem_range.mp hMem)) _

/-
  On a target up to maxAlloc, DecompressBytes fails with no
  panic, whatever its input: a longer input or one as long
  as the target is answered before any decoding.
-/
theorem DecompressBytes_not_panics
    (data : Bytes)
    (target : Int)
    (hAlloc : target ≤ maxAlloc) :
    ∀ e, DecompressBytes data target = .error e →
      e.panics = false := by
  unfold DecompressBytes
  split
  · intro e hErr
    cases hErr
    rfl
  split
  · intro e hErr
    cases hErr
  unfold bitsetDecodeBytes
  apply Except.bind_errors
    (bitsetDecodePartialBytes_not_panics _ (by omega) data)
  rintro ⟨out, size⟩ e hErr
  by_cases hSize : size = data.length
  · simp [hSize, pure, Except.pure] at hErr
  · simp only [ne_eq, hSize, not_false_eq_true, if_true,
      Except.throw_eq_error, Except.error_bind] at hErr
    cases hErr
    rfl

/-
  A target above maxAlloc that is longer than the input
  panics in the decoder's first make, before any byte is
  read.
-/
theorem DecompressBytes_lenOutOfRange
    {data : Bytes}
    {target : Int}
    (hBig : maxAlloc < target)
    (hShort : (data.length : Int) < target) :
    DecompressBytes data target =
      .error .lenOutOfRange := by
  unfold DecompressBytes bitsetDecodeBytes
  rw [if_neg (by omega), if_neg (by omega),
    bitsetDecodePartialBytes, if_neg (by omega),
    if_pos (by omega)]
  rfl

/-
  Sparse bitset compression never lengthens its input, and
  decompressing at the input's length gives the input back,
  for every input a Go slice can hold.  Decompression fails
  with no panic on every input and every target up to
  maxAlloc; above it, a target longer than the input panics
  in makeslice.
-/
theorem CompressBytes_round_trip :
    (∀ data : Bytes, data.length ≤ maxAlloc →
      (CompressBytes data).length ≤ data.length ∧
      DecompressBytes (CompressBytes data) data.length =
        .ok data) ∧
    (∀ (data : Bytes) (target : Int) e,
      target ≤ maxAlloc →
      DecompressBytes data target = .error e →
      e.panics = false) ∧
    (∀ (data : Bytes) (target : Int),
      maxAlloc < target → (data.length : Int) < target →
      DecompressBytes data target =
        .error .lenOutOfRange) :=
  ⟨fun data hAlloc => ⟨length_CompressBytes_le data,
      DecompressBytes_CompressBytes data hAlloc⟩,
    fun data target e hAlloc =>
      DecompressBytes_not_panics data target hAlloc e,
    fun _ _ hBig hShort =>
      DecompressBytes_lenOutOfRange hBig hShort⟩

/-
  Four bytes with one nonzero byte compress to the bitset
  byte and that byte, and decompress back at length four.
-/
theorem CompressBytes_round_trip_one_nonzero :
    ([0, 0, 0, 7] : Bytes).length ≤ maxAlloc ∧
    (CompressBytes [0, 0, 0, 7]).length ≤ 4 ∧
    DecompressBytes (CompressBytes [0, 0, 0, 7]) 4 =
      .ok [0, 0, 0, 7] := by
  have hAlloc : ([0, 0, 0,
    7] : Bytes).length ≤ maxAlloc := by
    decide
  exact ⟨hAlloc, CompressBytes_round_trip.1 _ hAlloc⟩

/-
  A decompression of nothing at a target of 2^50 bytes, an
  int Go accepts, panics in makeslice.
-/
theorem DecompressBytes_panics_above_maxAlloc :
    DecompressBytes [] (2 ^ 50) = .error .lenOutOfRange ∧
    DecompressError.lenOutOfRange.panics = true := by
  refine ⟨?_, rfl⟩
  unfold DecompressBytes bitsetDecodeBytes
  rw [if_neg (by decide), if_neg (by decide),
    bitsetDecodePartialBytes, if_neg (by decide),
    if_pos (by decide)]
  rfl

end Bitutil

end PlasmaEvm
