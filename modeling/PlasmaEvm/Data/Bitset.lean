import Mathlib

/-
  Bit vectors kept most significant bit first in a byte
  string, the way Go code packs them: position `p` is the
  bit `0x80 >>> (p % 8)` of byte `p / 8`.  `orAt` ors a byte
  into one byte of the string, `set` raises one position
  through it, and `get` tests a position. A string of zero
  bytes holds no position, and an `orAt` raises the
  positions of its byte that the byte or-ed in has, and no
  other.

  Key definitions include:
    * `Bitset.mask`, `Bitset.get`, `Bitset.orAt`,
      `Bitset.set`

  Key statements include:
    * `Bitset.get_orAt`, `Bitset.get_set`
    * `Bitset.get_replicate_zero`,
      `Bitset.shiftLeft_eq_mask`
-/

------------------------------------------------------------
-- Positions in Bytes
------------------------------------------------------------

namespace Bitset

/- The bit of position `p` within its byte. -/
def mask (p : Nat) : UInt8 :=
  0x80 >>> (p % 8).toUInt8

/-
  Whether position `p` is raised; a position past the end is
  not.
-/
def get
    (bits : List UInt8)
    (p : Nat) : Bool :=
  bits.getD (p / 8) 0 &&& mask p != 0

/-
  Or `m` into byte `j`; a byte past the end changes nothing.
-/
def orAt
    (bits : List UInt8)
    (j : Nat)
    (m : UInt8) : List UInt8 :=
  bits.modify j (· ||| m)

/- Raise position `p`. -/
def set
    (bits : List UInt8)
    (p : Nat) : List UInt8 :=
  orAt bits (p / 8) (mask p)

theorem toNat_mask
    (p : Nat) :
    (mask p).toNat = 2 ^ (7 - p % 8) := by
  have hLt : p % 8 < 8 := Nat.mod_lt p (by decide)
  have hShift : ((p % 8).toUInt8).toNat % 8 = p % 8 := by
    rw [Nat.toUInt8_eq, UInt8.toNat_ofNat']
    omega
  rw [mask, UInt8.toNat_shiftRight, hShift,
    Nat.shiftRight_eq_div_pow]
  show 2 ^ 7 / 2 ^ (p % 8) = 2 ^ (7 - p % 8)
  exact Nat.pow_div (by omega) (by decide)

/-
  Go also writes the bit of position `p` as 1 << (7 - p %
  8).
-/
theorem shiftLeft_eq_mask (p : Nat) :
    (1 : UInt8) <<< (7 - p % 8).toUInt8 = mask p := by
  have hLt : p % 8 < 8 := Nat.mod_lt p (by decide)
  have hShift : ((7 - p % 8).toUInt8).toNat % 8 =
    7 - p % 8 := by
    rw [Nat.toUInt8_eq, UInt8.toNat_ofNat']
    omega
  have hPow : 2 ^ (7 - p % 8) < 2 ^ 8 :=
    Nat.pow_lt_pow_right (by decide) (by omega)
  apply UInt8.toNat_inj.mp
  rw [UInt8.toNat_shiftLeft, hShift, toNat_mask,
    UInt8.toNat_one, Nat.one_shiftLeft,
    Nat.mod_eq_of_lt hPow]

/-
  A number and a power of two share a bit exactly when the
  number has that bit.
-/
theorem and_two_pow_ne_zero
    (x j : Nat) :
    x &&& 2 ^ j ≠ 0 ↔ x.testBit j = true := by
  constructor
  · intro hNe
    by_contra hBit
    apply hNe
    apply Nat.eq_of_testBit_eq
    intro i
    rw [Nat.testBit_and, Nat.testBit_two_pow,
      Nat.zero_testBit]
    by_cases hEq : j = i
    · subst hEq
      simpa using hBit
    · simp [hEq]
  · intro hBit hZero
    have hTest := congrArg (fun y => Nat.testBit y j) hZero
    simp only [Nat.testBit_and, Nat.testBit_two_pow_self,
      hBit, Bool.and_self,
      Nat.zero_testBit] at hTest
    exact Bool.noConfusion hTest

/-
  A byte has the bit of position `p` as bit `7 - p % 8` of
  its value.
-/
theorem and_mask_ne_zero
    (b : UInt8)
    (p : Nat) :
    (b &&& mask p != 0) = b.toNat.testBit (7 - p % 8) := by
  have hIff : b &&& mask p ≠ 0 ↔
    b.toNat.testBit (7 - p % 8) = true := by
    rw [← and_two_pow_ne_zero, ← toNat_mask, ← UInt8.toNat_and,
      Ne, Ne, ← UInt8.toNat_inj, UInt8.toNat_zero]
  cases hBit : b.toNat.testBit (7 - p % 8)
  · rw [hBit] at hIff
    simpa using hIff
  · rw [hBit] at hIff
    simpa using hIff

end Bitset

------------------------------------------------------------
-- Raising Positions
------------------------------------------------------------

namespace Bitset

@[simp] theorem length_orAt
    (bits : List UInt8)
    (j : Nat)
    (m : UInt8) :
    (orAt bits j m).length = bits.length := by
  simp [orAt]

@[simp] theorem length_set
    (bits : List UInt8)
    (p : Nat) :
    (set bits p).length = bits.length :=
  length_orAt bits _ _

/-
  The same bit of two positions in one byte is the same
  position.
-/
theorem eq_of_bit_eq
    {p q : Nat}
    (hByte : q / 8 = p / 8)
    (hBit : 7 - p % 8 = 7 - q % 8) :
    p = q := by
  have hp : p % 8 < 8 := Nat.mod_lt p (by decide)
  have hq : q % 8 < 8 := Nat.mod_lt q (by decide)
  omega

/-
  An `orAt` raises, in its byte, the positions whose bits
  the byte or-ed in has, and leaves every other position as
  it was.
-/
theorem get_orAt
    (bits : List UInt8)
    (j : Nat)
    (m : UInt8)
    (q : Nat) :
    get (orAt bits j m) q =
      (get bits q || (decide (q / 8 = j ∧
        j <
          bits.length) && m.toNat.testBit (7 - q % 8))) := by
  unfold get orAt
  rw [List.getD_eq_getElem?_getD, List.getElem?_modify,
    List.getD_eq_getElem?_getD]
  by_cases hByte : q / 8 = j
  · subst hByte
    by_cases hIn : q / 8 < bits.length
    · rw [List.getElem?_eq_getElem hIn]
      simp [and_mask_ne_zero, hIn]
    · rw [List.getElem?_eq_none (by omega)]
      simp [hIn]
  · simp [Ne.symm hByte, hByte]

/-
  Raising `p` raises `p`, when its byte is there, and no
  other position.
-/
theorem get_set
    (bits : List UInt8)
    (p q : Nat) :
    get (set bits p) q = (get bits q || (decide (p =
      q) && decide (p / 8 < bits.length))) := by
  rw [set, get_orAt, toNat_mask, Nat.testBit_two_pow]
  by_cases hEq : p = q
  · subst hEq
    simp
  · have hNot : ¬ (q / 8 = p / 8 ∧
      7 - p % 8 = 7 - q % 8) := fun h =>
      hEq (eq_of_bit_eq h.1 h.2)
    simp only [hEq, decide_false,
      Bool.false_and, Bool.or_false]
    cases hGet : get bits q
    · simp only [Bool.false_or, Bool.and_eq_false_iff,
        decide_eq_false_iff_not]
      by_cases hByte : q / 8 = p / 8
      · exact Or.inr fun hBit => hNot ⟨hByte, hBit⟩
      · exact Or.inl fun h => hByte h.1
    · rfl

@[simp] theorem get_replicate_zero
    (n q : Nat) :
    get (List.replicate n 0) q = false := by
  unfold get
  rw [List.getD_eq_getElem?_getD, List.getElem?_replicate]
  split <;> simp

end Bitset
