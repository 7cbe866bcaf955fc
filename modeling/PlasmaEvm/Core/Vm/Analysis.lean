import Mathlib.Data.Nat.Size
import PlasmaEvm.Common.Types
import PlasmaEvm.Data.Bitset

/-
  The JUMPDEST analysis of package vm (analysis.go) and the
  jump check of a contract (contract.go).  `codeBitmap`
  sweeps the code linearly and marks, in a `bitvec` one byte
  every eight positions and four bytes of slack, the
  positions of PUSH data, eight at a time with `set8` and
  one at a time with `set`.  Go's index expressions panic
  out of range: every index here is checked, and `none` is
  the panic.  `validJumpdest` reads the bitmap at a
  destination after its own checks; the cache of analyses by
  code hash holds what `codeBitmap` gives, so it is left
  out.

  `Reaches code pc p` is the linear sweep as a relation:
  from the instruction at `pc` the sweep reaches the
  instruction at `p`.  The bitmap marks exactly the
  positions that are no instruction start, and the sweep
  writes inside the bitmap on every code.

  Key definitions include:
    * `Vm.set`, `Vm.set8`, `Vm.codeSegment`, `Vm.codeBitmap`
    * `Vm.validJumpdest`
    * `Vm.Reaches`, `Vm.IsData`

  Key statements include:
    * `Vm.get_set8`, `Vm.setData_spec`, `Vm.sweep_spec`
    * `Vm.reaches_iff_not_isData`
    * `Vm.codeBitmap_spec`, `Vm.validJumpdest_spec`
    * `Vm.jumpdest_analysis_exact`
-/

------------------------------------------------------------
-- The Bit Vector
------------------------------------------------------------

namespace PlasmaEvm

namespace Vm

/- The opcodes the analysis reads (opcodes.go). -/
def PUSH1 : UInt8 := 0x60

def PUSH32 : UInt8 := 0x7f

def JUMPDEST : UInt8 := 0x5b

/- bits[i] |= m: none when Go's index i is out of range. -/
def orIndex
    (bits : Bytes)
    (i : Nat)
    (m : UInt8) : Option Bytes :=
  if i < bits.length
    then some (Bitset.orAt bits i m) else none

def set
    (bits : Bytes)
    (pos : Nat) : Option Bytes :=
  orIndex bits (pos / 8) (0x80 >>> (pos % 8).toUInt8)

def set8
    (bits : Bytes)
    (pos : Nat) : Option Bytes := do
  let bits ← orIndex bits (pos / 8) (0xFF >>> (pos % 8).toUInt8)
  orIndex bits (pos / 8 + 1) (~~~(0xFF >>> (pos % 8).toUInt8))

def codeSegment
    (bits : Bytes)
    (pos : Nat) : Option Bool :=
  if h : pos / 8 < bits.length then
    some ((bits[pos / 8] &&& (0x80 >>> (pos % 8).toUInt8)) == 0)
  else none

end Vm

end PlasmaEvm

------------------------------------------------------------
-- The Analysis
------------------------------------------------------------

namespace PlasmaEvm

namespace Vm

/-
  The second inner loop: for ; numbits > 0; numbits-- {
  bits.set(pc); pc++ }.
-/
def setTail
    (bits : Bytes)
    (pc : Nat) : Nat → Option (Bytes × Nat)
  | 0 => some (bits, pc)
  | numbits + 1 => do
      let bits ← set bits pc
      setTail bits (pc + 1) numbits

/-
  The first inner loop, for ; numbits >= 8; numbits -= 8
  { bits.set8(pc); pc += 8 }, and then the second.
-/
def setData
    (bits : Bytes)
    (pc numbits : Nat) : Option (Bytes × Nat) :=
  if numbits ≥ 8 then do
    let bits ← set8 bits pc
    setData bits (pc + 8) (numbits - 8)
  else setTail bits pc numbits
termination_by numbits

theorem setTail_pc
    {bits bits' : Bytes} :
    ∀ {pc pc' numbits : Nat}, setTail bits pc numbits =
      some (bits', pc') → pc' = pc + numbits := by
  intro pc pc' numbits
  induction numbits generalizing bits pc with
  | zero =>
      intro hTail
      cases hTail
      rfl
  | succ numbits ih =>
      intro hTail
      simp only [setTail, Option.bind_eq_bind,
        Option.bind_eq_some_iff] at hTail
      rcases hTail with ⟨bits₁, -, hRest⟩
      rw [ih hRest]
      omega

/- The inner loops move pc past the push data. -/
theorem setData_pc
    {bits bits' : Bytes}
    {pc pc' numbits : Nat}
    (hData : setData bits pc numbits = some (bits', pc')) :
    pc' = pc + numbits := by
  induction numbits using Nat.strongRecOn
    generalizing bits pc with
  | _ numbits ih =>
      rw [setData] at hData
      split at hData
      · simp only [Option.bind_eq_bind,
          Option.bind_eq_some_iff] at hData
        rcases hData with ⟨bits₁, -, hRest⟩
        rw [ih (numbits - 8) (by omega) hRest]
        omega
      · exact setTail_pc hData

/-
  The outer loop from pc: a PUSHn skips its n bytes of data
  after marking them, every other opcode is one byte.
-/
def sweep
    (code bits : Bytes)
    (pc : Nat) : Option Bytes :=
  if h : pc < code.length then
    let op := code[pc]
    if op ≥ PUSH1 ∧ op ≤ PUSH32 then
      let numbits := op - PUSH1 + 1
      match hData : setData bits (pc + 1) numbits.toNat with
      | none => none
      | some (bits, pc') => sweep code bits pc'
    else sweep code bits (pc + 1)
  else some bits
termination_by code.length - pc
decreasing_by
  · have hpc := setData_pc hData
    omega
  · omega

/-
  codeBitmap: a bitmap four bytes longer than the code
  needs.
-/
def codeBitmap (code : Bytes) : Option Bytes :=
  sweep code (List.replicate (code.length / 8 + 1 + 4) 0) 0

/-
  Contract.validJumpdest on the contract's code.  dest is a
  stack word, so a number; dest.BitLen() is its size and
  dest.Uint64() its low 64 bits.
-/
def validJumpdest
    (code : Bytes)
    (dest : Nat) : Option Bool :=
  let udest := dest % 2 ^ 64
  if 63 ≤ dest.size ∨ udest ≥ code.length then some false
  else if code.getD udest 0 ≠ JUMPDEST then some false
  else do
    let analysis ← codeBitmap code
    codeSegment analysis udest

end Vm

end PlasmaEvm

------------------------------------------------------------
-- Writing the Bit Vector
------------------------------------------------------------

namespace PlasmaEvm

namespace Vm

theorem orIndex_of_lt
    {bits : Bytes}
    {i : Nat}
    (hi : i < bits.length)
    (m : UInt8) :
    orIndex bits i m = some (Bitset.orAt bits i m) :=
  if_pos hi

/-
  set raises the one position of the library's bit vectors.
-/
theorem set_of_lt
    {bits : Bytes}
    {pos : Nat}
    (hRoom : pos / 8 < bits.length) :
    set bits pos = some (Bitset.set bits pos) :=
  orIndex_of_lt hRoom _

/-
  The two masks of set8: the bits of positions r to 7 of a
  byte, and those below r.
-/
theorem testBit_set8_masks :
    ∀ r < 8, ∀ i < 8,
      ((0xFF : UInt8) >>> r.toUInt8).toNat.testBit (7 - i) =
        decide (r ≤ i) ∧
        (~~~((0xFF : UInt8) >>> r.toUInt8)).toNat.testBit
          (7 - i) = decide (i < r) := by
  decide

/-
  set8 raises the eight positions from pos, in its byte and
  the next.
-/
theorem get_set8
    {bits : Bytes}
    {pos : Nat}
    (hRoom : pos / 8 + 1 < bits.length) :
    ∃ bits', set8 bits pos = some bits' ∧
      bits'.length = bits.length ∧
      ∀ q, Bitset.get bits' q = (Bitset.get bits q || decide
        (pos ≤ q ∧ q < pos + 8)) := by
  have hFirst : pos / 8 < bits.length := by omega
  refine ⟨Bitset.orAt (Bitset.orAt bits (pos / 8) (0xFF >>>
    (pos % 8).toUInt8)) (pos / 8 + 1)
    (~~~(0xFF >>> (pos % 8).toUInt8)), ?_, by simp, ?_⟩
  · simp [set8, orIndex, hFirst, hRoom]
  · intro q
    have hMasks := testBit_set8_masks (pos % 8)
      (Nat.mod_lt _ (by decide)) (q % 8)
      (Nat.mod_lt _ (by decide))
    rw [Bitset.get_orAt, Bitset.get_orAt, hMasks.1,
      hMasks.2, Bitset.length_orAt]
    cases Bitset.get bits q
    · rw [Bool.eq_iff_iff]
      simp [hFirst, hRoom]
      omega
    · simp

/-
  The second inner loop raises the positions from pc to pc +
  numbits.
-/
theorem setTail_spec
    {numbits : Nat} :
    ∀ {bits : Bytes} {pc : Nat},
      (pc + numbits) / 8 < bits.length →
      ∃ bits', setTail bits pc numbits = some (bits',
        pc + numbits) ∧
        bits'.length = bits.length ∧
          ∀ q, Bitset.get bits' q =
            (Bitset.get bits q || decide (pc ≤ q ∧
            q < pc + numbits)) := by
  induction numbits with
  | zero =>
      intro bits pc _
      refine ⟨bits, rfl, rfl, ?_⟩
      intro q
      have hEmpty : decide (pc ≤ q ∧ q < pc + 0) = false :=
        decide_eq_false (by omega)
      rw [hEmpty, Bool.or_false]
  | succ numbits ih =>
      intro bits pc hRoom
      have hHere : pc / 8 < bits.length :=
        Nat.lt_of_le_of_lt (Nat.div_le_div_right (by omega)) hRoom
      have hRest : (pc + 1 + numbits) / 8 <
        (Bitset.set bits pc).length := by
        rw [Bitset.length_set]
        omega
      rcases ih hRest with ⟨bits', hTail, hLength, hGet⟩
      refine ⟨bits', ?_, ?_, ?_⟩
      · simp only [setTail, set_of_lt hHere,
          Option.bind_eq_bind, Option.bind_some]
        rw [hTail]
        congr 2
        omega
      · rw [hLength, Bitset.length_set]
      · intro q
        rw [hGet, Bitset.get_set]
        cases Bitset.get bits q
        · rw [Bool.eq_iff_iff]
          simp [hHere]
          omega
        · simp

/-
  Both inner loops raise the positions from pc to pc +
  numbits.
-/
theorem setData_spec
    {numbits : Nat} :
    ∀ {bits : Bytes} {pc : Nat},
      (pc + numbits) / 8 < bits.length →
      ∃ bits', setData bits pc numbits = some (bits',
        pc + numbits) ∧
        bits'.length = bits.length ∧
          ∀ q, Bitset.get bits' q =
            (Bitset.get bits q || decide (pc ≤ q ∧
            q < pc + numbits)) := by
  induction numbits using Nat.strongRecOn with
  | _ numbits ih =>
      intro bits pc hRoom
      rw [setData]
      by_cases hEight : numbits ≥ 8
      · rw [if_pos hEight]
        rcases @get_set8 bits pc (by omega)
          with ⟨bits₁, hSet8, hLength₁, hGet₁⟩
        have hRest : (pc + 8 + (numbits - 8)) / 8 <
          bits₁.length := by
          rw [hLength₁]
          omega
        rcases ih (numbits - 8) (by omega) hRest
          with ⟨bits', hData, hLength, hGet⟩
        refine ⟨bits', ?_, hLength.trans hLength₁, ?_⟩
        · simp only [hSet8, Option.bind_eq_bind,
            Option.bind_some]
          rw [hData]
          congr 2
          omega
        · intro q
          rw [hGet, hGet₁]
          cases Bitset.get bits q
          · rw [Bool.eq_iff_iff]
            simp
            omega
          · simp
      · rw [if_neg hEight]
        exact setTail_spec hRoom

end Vm

end PlasmaEvm

------------------------------------------------------------
-- Instruction Starts
------------------------------------------------------------

namespace PlasmaEvm

namespace Vm

/-
  The bytes of data an opcode takes: n for PUSHn, none for
  any other.
-/
def pushWidth (op : UInt8) : Nat :=
  if op ≥ PUSH1 ∧ op ≤ PUSH32
    then (op - PUSH1 + 1).toNat else 0

theorem pushWidth_le (op : UInt8) : pushWidth op ≤ 32 := by
  unfold pushWidth
  split
  · rename_i hPush
    have hLo : PUSH1.toNat ≤ op.toNat :=
      UInt8.le_iff_toNat_le.mp hPush.1
    have hHi : op.toNat ≤ PUSH32.toNat :=
      UInt8.le_iff_toNat_le.mp hPush.2
    have hPush1 : PUSH1.toNat = 96 := rfl
    have hPush32 : PUSH32.toNat = 127 := rfl
    rw [UInt8.toNat_add, UInt8.toNat_sub_of_le _ _ hPush.1]
    simp only [hPush1, UInt8.toNat_one]
    omega
  · omega

/-
  The linear sweep as a relation: from an instruction at pc
  it reaches the instruction at p, stepping over each opcode
  and its push data.
-/
inductive Reaches (code : Bytes) : Nat → Nat → Prop where
  | refl (pc : Nat) : Reaches code pc pc
  | step {pc p : Nat}
      (hpc : pc < code.length)
      (rest : Reaches code (pc + 1 +
        pushWidth (code.getD pc 0)) p) :
      Reaches code pc p

/-
  p is push data of an instruction the sweep from pc
  reaches.
-/
def IsData
    (code : Bytes)
    (pc p : Nat) : Prop :=
  ∃ s, Reaches code pc s ∧ s < code.length ∧ s < p ∧
    p ≤ s + pushWidth (code.getD s 0)

theorem Reaches.le
    {code : Bytes}
    {pc p : Nat}
    (hReach : Reaches code pc p) :
    pc ≤ p := by
  induction hReach with
  | refl => exact Nat.le_refl _
  | step _ _ ih => omega

/-
  One step of the sweep: the instruction itself, or one the
  next instruction reaches.
-/
theorem reaches_iff
    {code : Bytes}
    {pc p : Nat}
    (hpc : pc < code.length) :
    Reaches code pc p ↔ p = pc ∨
      Reaches code (pc + 1 + pushWidth (code.getD pc 0)) p := by
  constructor
  · intro hReach
    cases hReach with
    | refl => exact Or.inl rfl
    | step _ hRest => exact Or.inr hRest
  · rintro (rfl | hRest)
    · exact Reaches.refl _
    · exact Reaches.step hpc hRest

/- The sweep stops at the end of the code. -/
theorem reaches_of_ge
    {code : Bytes}
    {pc p : Nat}
    (hEnd : code.length ≤ pc)
    (hReach : Reaches code pc p) :
    p = pc := by
  cases hReach with
  | refl => rfl
  | step hpc _ => omega

/-
  The sweep goes on from an instruction it reaches inside
  the code.
-/
theorem Reaches.tail
    {code : Bytes}
    {pc s : Nat}
    (hReach : Reaches code pc s)
    (hs : s < code.length) :
    Reaches code pc (s + 1 + pushWidth (code.getD s 0)) := by
  induction hReach with
  | refl => exact Reaches.step hs (Reaches.refl _)
  | step hpc _ ih => exact Reaches.step hpc (ih hs)

theorem IsData.lt
    {code : Bytes}
    {pc p : Nat}
    (hData : IsData code pc p) :
    pc < p := by
  rcases hData with ⟨s, hReach, -, hLt, -⟩
  have := hReach.le
  omega

theorem not_isData_of_ge
    {code : Bytes}
    {pc p : Nat}
    (hEnd : code.length ≤ pc) :
    ¬ IsData code pc p := by
  rintro ⟨s, hReach, hs, -, -⟩
  rw [reaches_of_ge hEnd hReach] at hs
  omega

/-
  One step of the sweep: the data of this instruction, or
  data the next one reaches.
-/
theorem isData_iff
    {code : Bytes}
    {pc p : Nat}
    (hpc : pc < code.length) :
    IsData code pc p ↔
      (pc < p ∧ p ≤ pc + pushWidth (code.getD pc 0)) ∨
        IsData code (pc + 1 + pushWidth (code.getD pc 0)) p := by
  constructor
  · rintro ⟨s, hReach, hs, hLo, hHi⟩
    rcases (reaches_iff hpc).mp hReach with rfl | hRest
    · exact Or.inl ⟨hLo, hHi⟩
    · exact Or.inr ⟨s, hRest, hs, hLo, hHi⟩
  · rintro (⟨hLo, hHi⟩ | ⟨s, hRest, hs, hLo, hHi⟩)
    · exact ⟨pc, Reaches.refl _, hpc, hLo, hHi⟩
    · exact ⟨s, Reaches.step hpc hRest, hs, hLo, hHi⟩

/-
  Past pc, the positions the sweep reaches inside the code
  are exactly those that are no push data: the instructions
  it passes cover the code without overlap.
-/
theorem reaches_iff_not_isData
    (code : Bytes)
    (pc p : Nat)
    (hLe : pc ≤ p)
    (hp : p < code.length) :
    Reaches code pc p ↔ ¬ IsData code pc p := by
  have hpc : pc < code.length := by omega
  rw [reaches_iff hpc, isData_iff hpc]
  by_cases hHere : p = pc
  · subst hHere
    have hNotNext : ¬ IsData code (p + 1 +
      pushWidth (code.getD p 0)) p := fun hData => by
      have := hData.lt
      omega
    simp only [true_or, true_iff, Nat.lt_irrefl,
      false_and, false_or]
    exact hNotNext
  · by_cases hData : p ≤ pc + pushWidth (code.getD pc 0)
    · have hNotReach : ¬ Reaches code (pc + 1 +
        pushWidth (code.getD pc 0)) p := fun hReach => by
        have := hReach.le
        omega
      simp only [hHere, hNotReach, false_or, false_iff,
        not_or, not_and, not_not]
      omega
    · have hLo : ¬ (pc < p ∧ p ≤ pc +
        pushWidth (code.getD pc 0)) := fun h => hData h.2
      simp only [hHere, hLo, false_or]
      exact reaches_iff_not_isData code _ p (by omega) hp
termination_by code.length - pc

end Vm

end PlasmaEvm

------------------------------------------------------------
-- The Bitmap Marks the Data
------------------------------------------------------------

namespace PlasmaEvm

namespace Vm

theorem sweep_of_ge
    {code bits : Bytes}
    {pc : Nat}
    (hEnd : ¬ pc < code.length) :
    sweep code bits pc = some bits := by
  rw [sweep, dif_neg hEnd]

/-
  One turn of the outer loop: the data of the opcode at pc,
  then the sweep past it.
-/
theorem sweep_of_lt
    {code bits : Bytes}
    {pc : Nat}
    (hpc : pc < code.length) :
    sweep code bits pc =
      (setData bits (pc + 1) (pushWidth
        (code.getD pc 0))).bind fun r =>
        sweep code r.1 r.2 := by
  have hOp : code.getD pc 0 = code[pc] := by
    rw [List.getD_eq_getElem?_getD,
      List.getElem?_eq_getElem hpc, Option.getD_some]
  rw [sweep, dif_pos hpc, hOp]
  by_cases hPush : code[pc] ≥ PUSH1 ∧ code[pc] ≤ PUSH32
  · simp only [if_pos hPush, pushWidth]
    split <;> simp_all
  · have hNone : setData bits (pc + 1) 0 =
      some (bits, pc + 1) := by
      rw [setData, if_neg (by omega)]
      rfl
    simp only [if_neg hPush, pushWidth, hNone,
      Option.bind_some]

/-
  From an instruction at pc, the sweep marks the push data
  of every instruction it reaches, and nothing else, as long
  as the bitmap has room for the code and a PUSH32 past its
  end.
-/
theorem sweep_spec
    (code : Bytes)
    (pc : Nat)
    (bits : Bytes)
    (hRoom : code.length / 8 + 5 ≤ bits.length) :
    ∃ bits', sweep code bits pc = some bits' ∧
      bits'.length = bits.length ∧
      ∀ q, Bitset.get bits' q = true ↔
        Bitset.get bits q = true ∨ IsData code pc q := by
  by_cases hpc : pc < code.length
  · have hWidth := pushWidth_le (code.getD pc 0)
    rcases @setData_spec (pushWidth (code.getD pc 0)) bits
      (pc + 1) (by omega) with ⟨bits₁, hData,
      hLength₁, hGet₁⟩
    rcases sweep_spec code (pc + 1 +
      pushWidth (code.getD pc 0)) bits₁ (by omega) with
      ⟨bits', hSweep, hLength, hGet⟩
    refine ⟨bits', ?_, hLength.trans hLength₁, ?_⟩
    · rw [sweep_of_lt hpc, hData, Option.bind_some]
      exact hSweep
    · intro q
      rw [hGet, hGet₁, isData_iff hpc]
      simp only [Bool.or_eq_true, decide_eq_true_eq]
      constructor
      · rintro ((hOld | ⟨hLo, hHi⟩) | hNext)
        · exact Or.inl hOld
        · exact Or.inr (Or.inl ⟨by omega, by omega⟩)
        · exact Or.inr (Or.inr hNext)
      · rintro (hOld | ⟨hLo, hHi⟩ | hNext)
        · exact Or.inl (Or.inl hOld)
        · exact Or.inl (Or.inr ⟨by omega, by omega⟩)
        · exact Or.inr hNext
  · refine ⟨bits, sweep_of_ge hpc, rfl, ?_⟩
    intro q
    simp [not_isData_of_ge (Nat.le_of_not_lt hpc)]
termination_by code.length - pc

theorem codeSegment_of_lt
    {bits : Bytes}
    {pos : Nat}
    (hRoom : pos / 8 < bits.length) :
    codeSegment bits pos = some (!Bitset.get bits pos) := by
  rw [codeSegment, dif_pos hRoom, Bitset.get, Bitset.mask,
    List.getD_eq_getElem?_getD,
    List.getElem?_eq_getElem hRoom, Option.getD_some,
      bne, Bool.not_not]

/-
  codeBitmap writes inside its bitmap of len(code)/8 + 5
  bytes on every code, and codeSegment holds of a position
  of the code exactly when the sweep reaches an instruction
  there.
-/
theorem codeBitmap_spec (code : Bytes) :
    ∃ bits, codeBitmap code = some bits ∧
      bits.length = code.length / 8 + 1 + 4 ∧
      ∀ p < code.length, ∃ b, codeSegment bits p = some b ∧
        (b = true ↔ Reaches code 0 p) := by
  rcases sweep_spec code 0 (List.replicate
    (code.length / 8 + 1 + 4) 0) (by simp) with
    ⟨bits, hSweep, hLength, hGet⟩
  rw [List.length_replicate] at hLength
  refine ⟨bits, hSweep, hLength, ?_⟩
  intro p hp
  refine ⟨!Bitset.get bits p,
    codeSegment_of_lt (by omega), ?_⟩
  rw [reaches_iff_not_isData code 0 p (Nat.zero_le p) hp,
    Bool.not_eq_true', ← Bool.not_eq_true,
    hGet, Bitset.get_replicate_zero]
  simp

/-
  A PUSH32 cut off after three bytes marks 32 positions,
  into the slack.
-/
example : codeBitmap [0x7f, 0, 0, 0] = some [0x7f, 0xff,
    0xff, 0xff, 0x80] := by
  decide +kernel

/-
  validJumpdest answers on every destination, and holds
  exactly of a JUMPDEST at an instruction start below 2^62:
  dest.BitLen() >= 63 refuses every destination from 2^62
  on.
-/
theorem validJumpdest_spec
    (code : Bytes)
    (dest : Nat) :
    ∃ b, validJumpdest code dest = some b ∧
      (b = true ↔ dest < 2 ^ 62 ∧ dest < code.length ∧
        code.getD dest 0 = JUMPDEST ∧
        Reaches code 0 dest) := by
  have hSize : 63 ≤ dest.size ↔ 2 ^ 62 ≤ dest := Nat.lt_size
  unfold validJumpdest
  by_cases hBig : 2 ^ 62 ≤ dest
  · refine ⟨false, if_pos (Or.inl (hSize.mpr hBig)), ?_⟩
    simp only [Bool.false_eq_true, false_iff, not_and]
    intro hSmall
    omega
  · have hLow : dest % 2 ^ 64 = dest :=
      Nat.mod_eq_of_lt (by omega)
    have hNotSize : ¬ 63 ≤ dest.size := fun h =>
      hBig (hSize.mp h)
    simp only [hLow]
    by_cases hEnd : dest ≥ code.length
    · refine ⟨false, if_pos (Or.inr hEnd), ?_⟩
      simp only [Bool.false_eq_true, false_iff, not_and]
      intro _ hIn
      omega
    · rw [if_neg (by omega)]
      by_cases hOp : code.getD dest 0 ≠ JUMPDEST
      · refine ⟨false, if_pos hOp, ?_⟩
        simp only [Bool.false_eq_true, false_iff, not_and]
        intro _ _ hJump
        exact absurd hJump hOp
      · rw [if_neg hOp]
        rcases codeBitmap_spec code
          with ⟨bits, hBitmap, -, hSegment⟩
        rcases hSegment dest (by omega) with ⟨b, hCode, hb⟩
        refine ⟨b,
          by
            rw [hBitmap, Option.bind_eq_bind,
              Option.bind_some, hCode], ?_⟩
        rw [hb]
        simp only [not_not] at hOp
        exact ⟨fun hReach => ⟨by omega, by omega, hOp,
          hReach⟩, fun h => h.2.2.2⟩

end Vm

end PlasmaEvm

------------------------------------------------------------
-- The Jump Check
------------------------------------------------------------

namespace PlasmaEvm

namespace Vm

/-
  The analysis is exact on every code, and the bitmap keeps
  its len(code)/8 + 5 bytes with every write inside them.
  On code no longer than 2^62 bytes, which holds every code
  a Go slice can hold, a jump is valid exactly at a JUMPDEST
  at an instruction start: dest.BitLen() >= 63 refuses only
  destinations past the code.
-/
theorem jumpdest_analysis_exact
    (code : Bytes)
    (hLength : code.length ≤ 2 ^ 62) :
    (∃ bits, codeBitmap code = some bits ∧
      bits.length = code.length / 8 + 1 + 4 ∧
      ∀ p < code.length, ∃ b, codeSegment bits p = some b ∧
        (b = true ↔ Reaches code 0 p)) ∧
    ∀ dest, ∃ b, validJumpdest code dest = some b ∧
      (b = true ↔ dest < code.length ∧
        code.getD dest 0 = JUMPDEST ∧
          Reaches code 0 dest) := by
  refine ⟨codeBitmap_spec code, fun dest => ?_⟩
  rcases validJumpdest_spec code dest with ⟨b, hValid, hIff⟩
  refine ⟨b, hValid, hIff.trans ⟨fun h => h.2, fun h => ?_⟩⟩
  have hSmall : dest < 2 ^ 62 :=
    Nat.lt_of_lt_of_le h.1 hLength
  exact ⟨hSmall, h⟩

/-
  A PUSH1 whose operand is a JUMPDEST byte, then a JUMPDEST:
  the operand is no instruction start, the last byte is one.
-/
theorem jumpdest_analysis_exact_push_operand :
    ([PUSH1, JUMPDEST, JUMPDEST] : Bytes).length ≤ 2 ^ 62 ∧
    (∃ bits, codeBitmap [PUSH1, JUMPDEST,
      JUMPDEST] = some bits ∧
      bits.length = 3 / 8 + 1 + 4 ∧
      ∀ p < 3, ∃ b, codeSegment bits p = some b ∧
        (b = true ↔ Reaches [PUSH1, JUMPDEST,
          JUMPDEST] 0 p)) ∧
    ∀ dest, ∃ b,
      validJumpdest [PUSH1, JUMPDEST,
        JUMPDEST] dest = some b ∧
      (b = true ↔ dest < 3 ∧
        [PUSH1, JUMPDEST, JUMPDEST].getD dest 0 = JUMPDEST ∧
        Reaches [PUSH1, JUMPDEST, JUMPDEST] 0 dest) := by
  have hLength : ([PUSH1, JUMPDEST,
    JUMPDEST] : Bytes).length ≤
      2 ^ 62 := by
    decide
  exact ⟨hLength, jumpdest_analysis_exact _ hLength⟩

end Vm

end PlasmaEvm
