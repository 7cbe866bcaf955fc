import Mathlib

/-
  Two's complement on unbounded integers, for code that
  keeps machine words in integers and cuts them back with a
  mask.  An integer's bits are `Int.testBit`, with the
  infinitely many ones of a negative number above its
  magnitude's complement.  `Int.land x (2^n - 1)` is the
  residue of `x` modulo 2^n, and it is the number of the low
  n bits of `x` (`Nat.ofBits`); the complement 2^n - 1 - r
  of an r below 2^n flips its low n bits.  Truncated
  division and remainder are those of the absolute values
  with the sign put back.

  Key statements include:
    * `TwosComplement.land_two_pow_sub_one`
    * `TwosComplement.land_two_pow_sub_one_eq_ofBits`
    * `TwosComplement.testBit_two_pow_sub_one_sub`
    * `TwosComplement.ofBits_eq_of_testBit`,
      `TwosComplement.ofBits_eq_zero`
    * `TwosComplement.testBit_eq_decide_le`,
      `TwosComplement.testBit_shiftRight`
    * `TwosComplement.tdiv_eq_abs`,
      `TwosComplement.tmod_eq_abs`
-/

------------------------------------------------------------
-- Bits of Natural Numbers
------------------------------------------------------------

namespace TwosComplement

/-
  A number below 2^n is the number of its own low n bits.
-/
theorem ofBits_eq_of_testBit
    {n w : Nat}
    {f : Fin n → Bool}
    (hw : w < 2 ^ n)
    (h : ∀ i : Fin n, f i = w.testBit i) :
    Nat.ofBits f = w := by
  have hf : f = fun i : Fin n => w.testBit i := funext h
  rw [hf, Nat.ofBits_testBit, Nat.mod_eq_of_lt hw]

theorem ofBits_eq_zero
    {n : Nat}
    {f : Fin n → Bool}
    (h : ∀ i : Fin n, f i = false) :
    Nat.ofBits f = 0 :=
  ofBits_eq_of_testBit (Nat.two_pow_pos n) (fun i =>
    by rw [h i, Nat.zero_testBit])

/-
  The top bit of a number below 2^(k+1) says whether it
  reaches 2^k.
-/
theorem testBit_eq_decide_le
    {x k : Nat}
    (hx : x < 2 ^ (k + 1)) :
    x.testBit k = decide (2 ^ k ≤ x) := by
  by_cases hLe : 2 ^ k ≤ x
  · rw [Nat.testBit_of_two_pow_le_and_two_pow_add_one_gt hLe
      hx, decide_eq_true hLe]
  · rw [Nat.testBit_lt_two_pow (by omega),
      decide_eq_false hLe]

/- A number below 2^k has no bit from k on. -/
theorem testBit_eq_false_of_lt
    {x k j : Nat}
    (hx : x < 2 ^ k)
    (hj : k ≤ j) :
    x.testBit j = false :=
  Nat.testBit_lt_two_pow (lt_of_lt_of_le hx
    (Nat.pow_le_pow_right (by decide) hj))

/-
  The complement of r within n bits flips the low n bits of
  r.
-/
theorem testBit_two_pow_sub_one_sub
    {n r : Nat}
    (hr : r < 2 ^ n)
    (i : Nat) :
    (2 ^ n - 1 - r).testBit i = (decide (i <
      n) && !r.testBit i) := by
  have hNot : (~~~(BitVec.ofNat n r)).toNat =
    2 ^ n - 1 - r := by
    rw [BitVec.toNat_not, BitVec.toNat_ofNat,
      Nat.mod_eq_of_lt hr]
  rw [← hNot, BitVec.testBit_toNat, BitVec.getLsbD_not,
    BitVec.getLsbD_ofNat]
  by_cases h : i < n <;> simp [h]

theorem ldiff_two_pow_sub_one
    (n m : Nat) :
    Nat.ldiff (2 ^ n - 1) m = 2 ^ n - 1 - m % 2 ^ n := by
  apply Nat.eq_of_testBit_eq
  intro i
  rw [Nat.testBit_ldiff, Nat.testBit_two_pow_sub_one,
    testBit_two_pow_sub_one_sub (Nat.mod_lt _
      (Nat.two_pow_pos n)), Nat.testBit_mod_two_pow]
  by_cases h : i < n <;> simp [h]

------------------------------------------------------------
-- Masks on Integers
------------------------------------------------------------

theorem natCast_two_pow_sub_one
    (n : Nat) :
    ((2 ^ n - 1 : Nat) : Int) = 2 ^ n - 1 := by
  rw [Nat.cast_sub Nat.one_le_two_pow]
  push_cast
  rfl

@[simp] theorem testBit_natCast
    (m i : Nat) :
    Int.testBit (m : Int) i = m.testBit i :=
  rfl

@[simp] theorem testBit_zero
    (i : Nat) :
    Int.testBit 0 i = false :=
  Nat.zero_testBit i

@[simp] theorem testBit_neg_one
    (i : Nat) :
    Int.testBit (-1) i = true := by
  show Int.testBit (Int.negSucc 0) i = true
  simp [Int.testBit]

/-
  Masking with 2^n - 1 is the residue modulo 2^n, also of a
  negative number.
-/
theorem land_two_pow_sub_one
    (x : Int)
    (n : Nat) :
    Int.land x (2 ^ n - 1) = x % 2 ^ n := by
  rw [← natCast_two_pow_sub_one]
  cases x with
  | ofNat m =>
      show ((m &&& (2 ^ n - 1) : Nat) : Int) =
        (m : Int) % 2 ^ n
      rw [Nat.and_two_pow_sub_one_eq_mod]
      push_cast
      rfl
  | negSucc m =>
      show ((Nat.ldiff (2 ^ n - 1) m : Nat) : Int) =
        Int.negSucc m % 2 ^ n
      have hLt : m % 2 ^ n < 2 ^ n :=
        Nat.mod_lt _ (Nat.two_pow_pos n)
      rw [ldiff_two_pow_sub_one,
        Int.negSucc_emod m (by positivity)]
      push_cast [Nat.cast_sub Nat.one_le_two_pow,
        Nat.cast_sub (Nat.le_sub_one_of_lt hLt)]
      rfl

/-
  Masking with 2^n - 1 keeps the low n bits and clears the
  rest.
-/
theorem land_two_pow_sub_one_eq_ofBits
    (x : Int)
    (n : Nat) :
    Int.land x (2 ^ n - 1) = (Nat.ofBits (fun i : Fin n =>
      x.testBit i) : Int) := by
  rw [← natCast_two_pow_sub_one]
  cases x with
  | ofNat m =>
      show ((m &&& (2 ^ n - 1) : Nat) : Int) = _
      rw [Nat.and_two_pow_sub_one_eq_mod, ← Nat.ofBits_testBit]
      rfl
  | negSucc m =>
      show ((Nat.ldiff (2 ^ n - 1) m : Nat) : Int) = _
      congr 1
      apply Nat.eq_of_testBit_eq
      intro i
      rw [Nat.testBit_ldiff, Nat.testBit_two_pow_sub_one,
        Nat.testBit_ofBits]
      by_cases h : i < n <;> simp [h, Int.testBit]

/-
  An arithmetic shift right is the floor division by 2^n.
-/
theorem shiftRight_eq_ediv
    (x : Int)
    (n : Nat) :
    x >>> n = x / 2 ^ n := by
  rw [Int.shiftRight_eq_div_pow]
  push_cast
  rfl

/- An arithmetic shift right reads the bits from n on. -/
theorem testBit_shiftRight
    (x : Int)
    (n i : Nat) :
    (x >>> n).testBit i = x.testBit (n + i) := by
  cases x with
  | ofNat m =>
      show Int.testBit ((m >>> n : Nat) : Int) i =
        m.testBit (n + i)
      rw [testBit_natCast, Nat.testBit_shiftRight]
  | negSucc m =>
      show Int.testBit (Int.negSucc (m >>> n)) i =
        !m.testBit (n + i)
      simp [Int.testBit, Nat.testBit_shiftRight]

------------------------------------------------------------
-- Truncated Division
------------------------------------------------------------

/-
  Truncated division divides the magnitudes and is negative
  when the
   signs differ; a zero on either side gives zero on both
   readings.
-/
theorem tdiv_eq_abs
    (x y : Int) :
    x.tdiv y = if x.sign = y.sign
      then |x| / |y| else -(|x| / |y|) := by
  have hNonneg : ∀ a b : Int, 0 ≤ a → a.tdiv b = a / b :=
    fun _ _ ha => Int.tdiv_eq_ediv_of_nonneg ha
  rcases lt_trichotomy x 0 with hx | rfl | hx <;>
    rcases lt_trichotomy y 0 with hy | rfl | hy
  · rw [← neg_neg x, ← neg_neg y, Int.neg_tdiv,
      Int.tdiv_neg, neg_neg, hNonneg _ _ (by omega)]
    simp [Int.sign_eq_neg_one_of_neg, hx, hy, abs_of_neg]
  · simp [Int.sign_eq_neg_one_of_neg, hx]
  · rw [← neg_neg x, Int.neg_tdiv, hNonneg _ _ (by omega)]
    simp [Int.sign_eq_neg_one_of_neg,
      Int.sign_eq_one_of_pos, hx, hy,
      abs_of_neg, abs_of_pos]
  · simp
  · simp
  · simp
  · rw [← neg_neg y, Int.tdiv_neg, hNonneg _ _ (by omega)]
    simp [Int.sign_eq_neg_one_of_neg,
      Int.sign_eq_one_of_pos, hx, hy,
      abs_of_neg, abs_of_pos]
  · simp [Int.sign_eq_one_of_pos, hx]
  · rw [hNonneg _ _ (by omega)]
    simp [Int.sign_eq_one_of_pos, hx, hy, abs_of_pos]

/- The truncated remainder takes the dividend's sign. -/
theorem tmod_eq_abs
    (x y : Int) :
    x.tmod y = if x < 0
      then -(|x| % |y|) else |x| % |y| := by
  by_cases hx : x < 0
  · rw [if_pos hx, ← neg_neg x, Int.neg_tmod, abs_neg,
      abs_of_pos (by omega : 0 < -x),
      Int.tmod_eq_emod_of_nonneg (by omega), Int.emod_abs]
  · rw [if_neg hx, abs_of_nonneg (by omega),
      Int.tmod_eq_emod_of_nonneg (by omega),
      Int.emod_abs]

end TwosComplement
