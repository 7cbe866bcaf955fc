import Mathlib

/-
  Go's slice operations over lists, and a list with pieces
  inserted at offsets.

  `copyAt dst pos src` is `copy(dst[pos:], src)`: it writes
  as much of src as fits from pos on and counts what it
  wrote; `slice s i j` is `s[i:j]`, which exists only for i
  ≤ j ≤ len(s).  Into a buffer that is a written prefix
  followed by free room, a copy at the end of the prefix
  that fits extends the prefix.

  `interleave s p pieces` is s from position p on with each
  piece inserted before the element at its offset.  With
  offsets that ascend within s (`Bounded`), its length is
  what s leaves plus the pieces' lengths, and two such lists
  side by side interleave as the first followed by the
  second, the second's offsets shifted by the first's
  length.

  Key definitions include:
    * `Splice.copyAt`, `Splice.slice`
    * `Splice.interleave`, `Splice.Bounded`, `Splice.shift`

  Key statements include:
    * `Splice.copyAt_append_replicate`
    * `Splice.length_interleave`
    * `Splice.interleave_append`
-/

------------------------------------------------------------
-- Copying Into a Buffer
------------------------------------------------------------

namespace Splice

variable {α : Type}

/-
  copy(dst[pos:], src): the bytes of src that fit from pos
  on, and how many.
-/
def copyAt
    (dst : List α)
    (pos : Nat)
    (src : List α) : List α × Nat :=
  let n := min src.length (dst.length - pos)
  (dst.take pos ++ src.take n ++ dst.drop (pos + n), n)

/-
  s[i:j]: the elements from i up to j.  Go refuses it unless
  i ≤ j ≤ cap(s); the model keeps no capacity, and refuses j
  past the length.
-/
def slice
    (s : List α)
    (i j : Nat) : Option (List α) :=
  if i ≤ j ∧ j ≤ s.length
    then some ((s.take j).drop i) else none

theorem slice_eq_some_iff
    {s : List α}
    {i j : Nat}
    {x : List α} :
    slice s i j = some x ↔ (i ≤ j ∧ j ≤ s.length) ∧
      (s.take j).drop i = x := by
  unfold slice
  split <;> simp_all

theorem slice_of_le
    {s : List α}
    {i j : Nat}
    (hij : i ≤ j)
    (hj : j ≤ s.length) :
    slice s i j = some ((s.take j).drop i) :=
  if_pos ⟨hij, hj⟩

@[simp]
theorem length_slice_take_drop
    (s : List α)
    {i j : Nat}
    (hj : j ≤ s.length) :
    ((s.take j).drop i).length = j - i := by
  simp [Nat.min_eq_left hj]

/-
  A copy at the end of what is written, into room it fits,
  extends what is written and uses up that much room.
-/
theorem copyAt_append_replicate
    (written src : List α)
    (k : Nat)
    (z : α)
    (hFits : src.length ≤ k) :
    copyAt (written ++ List.replicate k z) written.length src =
      (written ++ src ++ List.replicate (k - src.length) z,
        src.length) := by
  have hMin : min src.length ((written ++
    List.replicate k z).length - written.length) =
      src.length := by
    simp only [List.length_append, List.length_replicate]
    omega
  simp only [copyAt, hMin, List.take_length]
  refine Prod.ext ?_ rfl
  have hDrop : (written ++ List.replicate k z).drop
    (written.length + src.length) =
      List.replicate (k - src.length) z := by
    rw [List.drop_length_add_append, List.drop_replicate]
  simp [hDrop]

@[simp]
theorem length_copyAt
    (dst : List α)
    (pos : Nat)
    (src : List α) :
    (copyAt dst pos src).1.length = dst.length := by
  simp only [copyAt, List.length_append, List.length_take,
    List.length_drop]
  omega

@[simp]
theorem copyAt_nil
    (dst : List α)
    (pos : Nat) :
    copyAt dst pos [] = (dst, 0) := by
  simp [copyAt]

/- A copy that fits writes all of src. -/
theorem copyAt_snd_of_fits
    {dst src : List α}
    {pos : Nat}
    (hFits : pos + src.length ≤ dst.length) :
    (copyAt dst pos src).2 = src.length := by
  simp only [copyAt]
  omega

/-
  Into the whole of a buffer as long as src, a copy writes
  src.
-/
theorem copyAt_zero_of_length_eq
    {dst src : List α}
    (hLength : src.length = dst.length) :
    copyAt dst 0 src = (src, src.length) := by
  simp [copyAt, hLength]

/-
  What a copy from the start wrote is the front of src that
  fits.
-/
theorem take_copyAt_zero
    (dst src : List α) :
    (copyAt dst 0 src).1.take (copyAt dst 0 src).2 =
      src.take dst.length := by
  simp only [copyAt, List.take_zero, List.nil_append,
    Nat.sub_zero, Nat.zero_add]
  rw [List.take_append_of_le_length (by simp)]
  simp [List.take_take, Nat.min_comm]

/-
  A copy that fills the room from pos on takes no more of
  src than fits.
-/
theorem copyAt_append_of_fills
    (dst : List α)
    (pos : Nat)
    (p q : List α)
    (hFills : dst.length - pos ≤ p.length) :
    copyAt dst pos (p ++ q) = copyAt dst pos p := by
  have hMin : min (p ++ q).length (dst.length - pos) =
    min p.length (dst.length - pos) := by
    simp only [List.length_append]
    omega
  simp only [copyAt, hMin]
  rw [List.take_append_of_le_length (by omega)]

/-
  Copying p, and q right after it, is copying p ++ q, when p
  fits.
-/
theorem copyAt_copyAt
    (dst : List α)
    (pos : Nat)
    (p q : List α)
    (hFits : pos + p.length ≤ dst.length) :
    copyAt (copyAt dst pos p).1 (pos + p.length) q =
      ((copyAt dst pos (p ++ q)).1,
        (copyAt dst pos (p ++ q)).2 - p.length) := by
  let m := min q.length (dst.length - (pos + p.length))
  have hPrefix : (dst.take pos ++ p).length =
    pos + p.length := by
    simp only [List.length_append, List.length_take]
    omega
  have hFirst : copyAt dst pos p = (dst.take pos ++ p ++
    dst.drop (pos + p.length), p.length) := by
    simp only [copyAt]
    rw [Nat.min_eq_left (by omega), List.take_length]
  have hLength : (dst.take pos ++ p ++ dst.drop (pos +
    p.length)).length = dst.length := by
    simp only [List.length_append, List.length_take,
      List.length_drop]
    omega
  have hSecond : copyAt (dst.take pos ++ p ++
    dst.drop (pos + p.length)) (pos + p.length) q =
      (dst.take pos ++ p ++ q.take m ++ dst.drop (pos +
        p.length + m), m) := by
    simp only [copyAt, hLength]
    rw [List.take_left' hPrefix, ← hPrefix,
      List.drop_length_add_append, List.drop_drop, hPrefix]
  have hWhole : copyAt dst pos (p ++ q) =
      (dst.take pos ++ (p ++ q.take m) ++ dst.drop (pos +
        (p.length + m)), p.length + m) := by
    have hMin : min (p ++ q).length (dst.length - pos) =
      p.length + m := by
      simp only [List.length_append, m]
      omega
    simp only [copyAt, hMin, List.take_length_add_append]
  rw [hFirst, hSecond, hWhole]
  simp only [List.append_assoc, Nat.add_assoc,
    Nat.add_sub_cancel_left]

end Splice

------------------------------------------------------------
-- Inserting Pieces at Offsets
------------------------------------------------------------

namespace Splice

variable {α : Type}

/-
  s from position p on, each piece inserted before the
  element at its offset; the pieces stand in the order of
  their offsets.
-/
def interleave
    (s : List α) :
    Nat → List (Nat × List α) → List α
  | p, [] => s.drop p
  | p, (off, piece) :: rest =>
      (s.take off).drop p ++ piece ++ interleave s off rest

/- Offsets that ascend from p on and stay within s. -/
def Bounded (s : List α) : Nat → List (Nat × List α) → Prop
  | p, [] => p ≤ s.length
  | p, (off, _) :: rest => p ≤ off ∧ Bounded s off rest

/- The pieces with their offsets moved on by d. -/
def shift
    (d : Nat)
    (pieces : List (Nat × List α)) :
    List (Nat × List α) :=
  pieces.map fun e => (e.1 + d, e.2)

/- The total length of the pieces. -/
def piecesLength (pieces : List (Nat × List α)) : Nat :=
  (pieces.map fun e => e.2.length).sum

@[simp]
theorem interleave_nil
    (s : List α)
    (p : Nat) :
    interleave s p [] = s.drop p :=
  rfl

@[simp]
theorem interleave_cons
    (s : List α)
    (p off : Nat)
    (piece : List α)
    (rest : List (Nat × List α)) :
    interleave s p ((off, piece) :: rest) =
      (s.take off).drop p ++ piece ++ interleave s off rest :=
  rfl

@[simp]
theorem shift_nil (d : Nat) :
    shift d ([] : List (Nat × List α)) = [] :=
  rfl

@[simp]
theorem shift_cons
    (d off : Nat)
    (piece : List α)
    (rest : List (Nat × List α)) :
    shift d ((off, piece) :: rest) = (off + d,
      piece) :: shift d rest :=
  rfl

@[simp]
theorem shift_zero (pieces : List (Nat × List α)) :
    shift 0 pieces = pieces := by
  simp [shift]

@[simp]
theorem piecesLength_nil :
    piecesLength ([] : List (Nat × List α)) = 0 :=
  rfl

@[simp]
theorem piecesLength_cons
    (off : Nat)
    (piece : List α)
    (rest : List (Nat × List α)) :
    piecesLength ((off, piece) :: rest) = piece.length +
      piecesLength rest := by
  simp [piecesLength]

@[simp]
theorem piecesLength_append (P Q : List (Nat × List α)) :
    piecesLength (P ++ Q) =
      piecesLength P + piecesLength Q := by
  simp [piecesLength]

@[simp]
theorem piecesLength_shift
    (d : Nat)
    (pieces : List (Nat × List α)) :
    piecesLength (shift d pieces) =
      piecesLength pieces := by
  simp [piecesLength, shift, Function.comp_def]

theorem Bounded.le_length
    {s : List α}
    {p : Nat}
    {pieces : List (Nat × List α)}
    (h : Bounded s p pieces) :
    p ≤ s.length := by
  induction pieces generalizing p with
  | nil => exact h
  | cons e rest ih =>
      rcases e with ⟨off, piece⟩
      exact Nat.le_trans h.1 (ih h.2)

theorem Bounded.mono
    {s : List α}
    {p q : Nat}
    {pieces : List (Nat × List α)}
    (h : Bounded s q pieces)
    (hpq : p ≤ q) :
    Bounded s p pieces := by
  cases pieces with
  | nil => exact Nat.le_trans hpq h
  | cons e rest =>
      rcases e with ⟨off, piece⟩
      exact ⟨Nat.le_trans hpq h.1, h.2⟩

/-
  Pieces within t stay within s ++ t once shifted by the
  length of s.
-/
theorem Bounded.shift
    {t : List α}
    {q : Nat}
    {pieces : List (Nat × List α)}
    (h : Bounded t q pieces)
    (s : List α) :
    Bounded (s ++ t) (q + s.length)
      (Splice.shift s.length pieces) := by
  induction pieces generalizing q with
  | nil =>
      simp only [shift_nil, Bounded, List.length_append]
      have := h
      simp only [Bounded] at this
      omega
  | cons e rest ih =>
      rcases e with ⟨off, piece⟩
      exact ⟨Nat.add_le_add_right h.1 _, ih h.2⟩

/-
  The pieces of s, then those of t shifted past s, are the
  pieces of s ++ t.
-/
theorem Bounded.append
    {s t : List α}
    {p : Nat}
    {P Q : List (Nat × List α)}
    (hP : Bounded s p P)
    (hQ : Bounded t 0 Q) :
    Bounded (s ++ t) p (P ++ Splice.shift s.length Q) := by
  induction P generalizing p with
  | nil =>
      have hShift := hQ.shift s
      rw [Nat.zero_add] at hShift
      exact hShift.mono hP
  | cons e rest ih =>
      rcases e with ⟨off, piece⟩
      exact ⟨hP.1, ih hP.2⟩

/- What s leaves from p on, and every piece. -/
theorem length_interleave
    {s : List α}
    {p : Nat}
    {pieces : List (Nat × List α)}
    (h : Bounded s p pieces) :
    (interleave s p pieces).length = s.length - p +
      piecesLength pieces := by
  induction pieces generalizing p with
  | nil => simp
  | cons e rest ih =>
      rcases e with ⟨off, piece⟩
      have hOff : off ≤ s.length := h.2.le_length
      rw [interleave_cons, List.length_append,
        List.length_append, ih h.2,
        length_slice_take_drop s hOff, piecesLength_cons]
      have := h.1
      omega

/-
  Past the end of s, the shifted pieces of t interleave t.
-/
theorem interleave_shift
    (s t : List α)
    (p : Nat)
    (pieces : List (Nat × List α)) :
    interleave (s ++ t) (p + s.length)
      (shift s.length pieces) = interleave t p pieces := by
  induction pieces generalizing p with
  | nil =>
      rw [shift_nil, interleave_nil, interleave_nil,
        Nat.add_comm, List.drop_length_add_append]
  | cons e rest ih =>
      rcases e with ⟨off, piece⟩
      rw [shift_cons, interleave_cons, interleave_cons,
        ih off, Nat.add_comm off,
        List.take_length_add_append, Nat.add_comm p,
          List.drop_length_add_append]

/-
  From a position within s, what s leaves, then t with its
  pieces.
-/
theorem interleave_append_shift
    (s t : List α)
    {p : Nat}
    (hp : p ≤ s.length)
    (pieces : List (Nat × List α)) :
    interleave (s ++ t) p (shift s.length pieces) =
      s.drop p ++ interleave t 0 pieces := by
  cases pieces with
  | nil =>
      rw [shift_nil, interleave_nil, interleave_nil,
        List.drop_append_of_le_length hp,
        List.drop_zero]
  | cons e rest =>
      rcases e with ⟨off, piece⟩
      have hTail := interleave_shift s t off rest
      rw [shift_cons, interleave_cons, interleave_cons,
        hTail, Nat.add_comm off,
        List.take_length_add_append,
          List.drop_append_of_le_length hp, List.drop_zero,
        List.append_assoc, List.append_assoc,
          List.append_assoc]

/-
  Two lists side by side, with the second's pieces shifted
  past the first, interleave as the first and then the
  second.
-/
theorem interleave_append
    {s t : List α}
    {p : Nat}
    {P : List (Nat × List α)}
    (hP : Bounded s p P)
    (Q : List (Nat × List α)) :
    interleave (s ++ t) p (P ++ shift s.length Q) =
      interleave s p P ++ interleave t 0 Q := by
  induction P generalizing p with
  | nil =>
      rw [List.nil_append, interleave_nil,
        interleave_append_shift s t hP Q]
  | cons e rest ih =>
      rcases e with ⟨off, piece⟩
      have hOff : off ≤ s.length := hP.2.le_length
      rw [List.cons_append, interleave_cons,
        interleave_cons, ih hP.2,
        List.take_append_of_le_length hOff]
      simp only [List.append_assoc]

/-
  What a loop over the pieces emits: s up to each offset,
  then the piece; the rest of s, from the last offset on,
  comes after it.
-/
def emitted
    (s : List α) :
    Nat → List (Nat × List α) → List α
  | _, [] => []
  | p, (off, piece) :: rest =>
      (s.take off).drop p ++ piece ++ emitted s off rest

/- The offset of the last piece, or p when there is none. -/
def lastOffset : Nat → List (Nat × List α) → Nat
  | p, [] => p
  | _, (off, _) :: rest => lastOffset off rest

@[simp]
theorem emitted_nil
    (s : List α)
    (p : Nat) :
    emitted s p [] = [] :=
  rfl

@[simp]
theorem emitted_cons
    (s : List α)
    (p off : Nat)
    (piece : List α)
    (rest : List (Nat × List α)) :
    emitted s p ((off, piece) :: rest) =
      (s.take off).drop p ++ piece ++ emitted s off rest :=
  rfl

@[simp]
theorem lastOffset_nil (p : Nat) :
    lastOffset p ([] : List (Nat × List α)) = p :=
  rfl

@[simp]
theorem lastOffset_cons
    (p off : Nat)
    (piece : List α)
    (rest : List (Nat × List α)) :
    lastOffset p ((off,
      piece) :: rest) = lastOffset off rest :=
  rfl

theorem interleave_eq_emitted
    (s : List α)
    (p : Nat)
    (pieces : List (Nat × List α)) :
    interleave s p pieces = emitted s p pieces ++
      s.drop (lastOffset p pieces) := by
  induction pieces generalizing p with
  | nil => rfl
  | cons e rest ih =>
      rcases e with ⟨off, piece⟩
      rw [interleave_cons, emitted_cons,
        lastOffset_cons, ih off]
      simp only [List.append_assoc]

theorem Bounded.lastOffset_le
    {s : List α}
    {p : Nat}
    {pieces : List (Nat × List α)}
    (h : Bounded s p pieces) :
    lastOffset p pieces ≤ s.length := by
  induction pieces generalizing p with
  | nil => exact h
  | cons e rest ih =>
      rcases e with ⟨off, piece⟩
      exact ih h.2

end Splice

------------------------------------------------------------
-- Reading in Chunks
------------------------------------------------------------

namespace Splice

variable {α : Type}

/-
  A list read with buffers of the given sizes: each read
  gets what fits of what is left, and reports the end once
  what is left fits.
-/
def chunks (s : List α) : List Nat → List (List α × Bool)
  | [] => []
  | k :: ks =>
      (s.take k,
        decide (s.length ≤ k)) :: chunks (s.drop k) ks

end Splice
