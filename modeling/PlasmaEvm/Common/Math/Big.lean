import Mathlib
import PlasmaEvm.Data.TwosComplement

/-
  The 256-bit helpers of common/math (big.go) that the EVM's
  instructions read.  U256 and S256 cut an unbounded big.Int
  back to a word and read a word as signed; Byte reads one
  byte of a number's machine words; Exp raises to a power by
  squaring over the bits of the exponent's words.  A big.Int
  is an Int, and its words (`Bits`) are the little-endian
  base 2^64 digits of its magnitude, as on a 64-bit
  platform.

  U256 is the residue modulo 2^256 and keeps the low 256
  bits of the two's complement.  Byte n of a number is its
  byte n counted from the most significant of 32, read from
  the word that holds it.  Exp of a word is the power modulo
  2^256: each round of its inner loop keeps the result times
  the base to the remaining bits of the word.

  Key definitions include:
    * `Math.U256`, `Math.S256`, `Math.Bits`
    * `Math.bigEndianByteAt`, `Math.Byte`, `Math.expWord`,
      `Math.Exp`

  Key statements include:
    * `Math.U256_eq_emod`, `Math.U256_eq_ofBits`
    * `Math.bigEndianByteAt_eq`, `Math.expWord_eq`,
      `Math.Exp_eq`
-/

------------------------------------------------------------
-- U256 and S256
------------------------------------------------------------

namespace PlasmaEvm

namespace Math

def tt255 : Int := 2 ^ 255

def tt256 : Int := 2 ^ 256

def tt256m1 : Int := tt256 - 1

/- The bits and bytes of a big.Word on a 64-bit platform. -/
def wordBits : Nat := 64

def wordBytes : Nat := wordBits / 8

/- U256 encodes as a 256 bit two's complement number. -/
def U256 (x : Int) : Int :=
  Int.land x tt256m1

/- S256 interprets x as a two's complement number. -/
def S256 (x : Int) : Int :=
  if x < tt255 then x else x - tt256

/- U256 is the residue modulo 2^256. -/
theorem U256_eq_emod
    (x : Int) :
    U256 x = x % 2 ^ 256 :=
  TwosComplement.land_two_pow_sub_one x 256

/- U256 keeps the low 256 bits. -/
theorem U256_eq_ofBits
    (x : Int) :
    U256 x = (Nat.ofBits (fun i : Fin 256 =>
      x.testBit i) : Int) :=
  TwosComplement.land_two_pow_sub_one_eq_ofBits x 256

theorem U256_natCast
    {x : Nat}
    (hx : x < 2 ^ 256) :
    U256 x = x := by
  rw [U256_eq_emod]
  exact Int.emod_eq_of_lt (by omega) (by exact_mod_cast hx)

------------------------------------------------------------
-- Byte
------------------------------------------------------------

/-
  The words of a big.Int: the base 2^wordBits digits of its
   magnitude, least significant first, with no leading zero
   word.
-/
def Bits (x : Int) : List Nat :=
  Nat.digits (2 ^ wordBits) x.natAbs

/-
  The byte at position n of the words, n = 0 the least
  significant.
-/
def bigEndianByteAt
    (bigint : Int)
    (n : Nat) : UInt8 :=
  let words := Bits bigint
  let i := n / wordBytes
  if h : words.length ≤ i then 0
  else
    let word := words[i]
    let shift := 8 * (n % wordBytes)
    UInt8.ofNat (word >>> shift)

/-
  The byte at position n of a number padded to padlength
  bytes,
   n = 0 the most significant.
-/
def Byte
    (bigint : Int)
    (padlength n : Nat) : UInt8 :=
  if n ≥ padlength
    then 0 else bigEndianByteAt bigint (padlength - 1 - n)

/-
  A byte read off a 64-bit word is the byte of the number at
  the
   same place: the word's bits are the number's from 64 i
   on.
-/
theorem byte_of_word
    (x i s : Nat)
    (hs : s + 8 ≤ 64) :
    (x / (2 ^ 64) ^ i % 2 ^ 64) >>> s % 2 ^ 8 =
      x / 2 ^ (64 * i + s) % 2 ^ 8 := by
  apply Nat.eq_of_testBit_eq
  intro j
  rw [Nat.testBit_mod_two_pow, Nat.testBit_shiftRight,
    Nat.testBit_mod_two_pow,
    ← pow_mul, Nat.testBit_div_two_pow,
      Nat.testBit_mod_two_pow, Nat.testBit_div_two_pow]
  by_cases hj : j < 8
  · simp [hj, show s + j < 64 by omega,
      show s + j + 64 * i = j + (64 * i + s) by omega]
  · simp [hj]

theorem bigEndianByteAt_eq
    (x n : Nat) :
    (bigEndianByteAt x n).toNat =
      x / 2 ^ (8 * n) % 2 ^ 8 := by
  unfold bigEndianByteAt Bits wordBytes wordBits
  simp only [Int.natAbs_natCast]
  split
  case isTrue hShort =>
    have hLt : x < 2 ^ (8 * n) :=
      calc x < (2 ^ 64) ^ (Nat.digits (2 ^ 64) x).length :=
            Nat.lt_base_pow_length_digits (by decide)
        _ ≤ (2 ^ 64) ^ (n / 8) :=
          Nat.pow_le_pow_right (by decide) hShort
        _ = 2 ^ (64 * (n / 8)) := by rw [← pow_mul]
        _ ≤ 2 ^ (8 * n) := Nat.pow_le_pow_right
          (by decide) (by omega)
    rw [Nat.div_eq_of_lt hLt]
    rfl
  case isFalse hLong =>
    have hWord : (Nat.digits (2 ^ 64) x)[n / 8] =
      x / (2 ^ 64) ^ (n / 8) % 2 ^ 64 := by
      rw [← List.getD_eq_getElem _ 0,
        Nat.getD_digits _ _ (by decide)]
    rw [hWord, UInt8.toNat_ofNat',
      byte_of_word _ _ _ (by omega),
      show 64 * (n / 8) + 8 * (n % 8) = 8 * n by omega]

------------------------------------------------------------
-- Exp
------------------------------------------------------------

/-
  The inner loop of Exp over one word of the exponent, its
  bits from
   the lowest up, counting the rounds that are left.
-/
def expWord
    (result base : Int)
    (word : Nat) : Nat → Int × Int
  | 0 => (result, base)
  | i + 1 =>
      let result := if word &&& 1 = 1
        then U256 (result * base) else result
      expWord result (U256 (base * base)) (word >>> 1) i

/-
  Exp implements exponentiation by squaring, truncated to
  256 bits.
-/
def Exp (base exponent : Int) : Int :=
  ((Bits exponent).foldl (fun acc word =>
    expWord acc.1 acc.2 word wordBits) (1, base)).1

/- A residue modulo 2^256 is a word. -/
theorem emod_mem_word
    (x : Int) :
    0 ≤ x % 2 ^ 256 ∧ x % 2 ^ 256 < 2 ^ 256 :=
  ⟨Int.emod_nonneg _ (by positivity),
    Int.emod_lt_of_pos _ (by positivity)⟩

/-
  k rounds over a word multiply the result by the base to
  the word's
   low k bits and square the base k times.
-/
theorem expWord_eq
    (r b : Int)
    (hr : 0 ≤ r ∧ r < 2 ^ 256)
    (hb : 0 ≤ b ∧ b < 2 ^ 256)
    (w k : Nat) :
    expWord r b w k = (r * b ^ (w % 2 ^ k) % 2 ^ 256,
      b ^ 2 ^ k % 2 ^ 256) := by
  induction k generalizing r b w with
  | zero =>
      simp only [expWord, pow_zero, Nat.mod_one,
        mul_one, pow_one]
      rw [Int.emod_eq_of_lt hr.1 hr.2,
        Int.emod_eq_of_lt hb.1 hb.2]
  | succ k ih =>
      have hLow : (if w &&& 1 = 1
        then U256 (r * b) else r) = r *
          b ^ (w % 2) % 2 ^ 256 := by
        rw [Nat.and_one_is_mod]
        rcases Nat.mod_two_eq_zero_or_one w with h | h
        · simp only [h, zero_ne_one, if_false,
            pow_zero, mul_one]
          exact (Int.emod_eq_of_lt hr.1 hr.2).symm
        · simp only [h, if_true, pow_one, U256_eq_emod]
      have hBits : w % 2 ^ (k + 1) = w % 2 + 2 *
        (w >>> 1 % 2 ^ k) := by
        rw [pow_succ', Nat.mod_mul, Nat.shiftRight_one]
      have hProd : r * b ^ (w % 2) % (2 : Int) ^ 256 * (b *
        b % (2 : Int) ^ 256) ^ (w >>> 1 % 2 ^ k)
          % 2 ^ 256 =
            r * b ^ (w % 2 ^ (k + 1)) % 2 ^ 256 := by
        have hEq : r * b ^ (w % 2) * (b *
          b) ^ (w >>> 1 % 2 ^ k) =
            r * b ^ (w % 2 ^ (k + 1)) := by
          rw [hBits, pow_add, pow_mul, sq, mul_assoc]
        rw [← hEq]
        exact (Int.mod_modEq _ _).mul ((Int.mod_modEq _ _).pow _)
      have hSquare : (b * b % 2 ^ 256) ^ 2 ^ k % 2 ^ 256 =
        b ^ 2 ^ (k + 1) % 2 ^ 256 := by
        rw [show 2 ^ (k + 1) = 2 * 2 ^ k
          from pow_succ' 2 k, pow_mul, sq]
        exact (Int.mod_modEq _ _).pow _
      simp only [expWord]
      rw [hLow, U256_eq_emod, ih _ _ (emod_mem_word _)
        (emod_mem_word _), hProd, hSquare]

/-
  The outer loop over the exponent's words raises to the
  number the
   words are the digits of.
-/
theorem foldl_expWord
    (ws : List Nat)
    (hws : ∀ w ∈ ws, w < 2 ^ wordBits)
    (r b : Int)
    (hr : 0 ≤ r ∧ r < 2 ^ 256)
    (hb : 0 ≤ b ∧ b < 2 ^ 256) :
    (ws.foldl (fun acc word => expWord acc.1 acc.2 word
      wordBits) (r, b)).1 =
      r * b ^ Nat.ofDigits (2 ^ wordBits) ws % 2 ^ 256 := by
  induction ws generalizing r b with
  | nil =>
      rw [List.foldl_nil, Nat.ofDigits_nil, pow_zero,
        mul_one, Int.emod_eq_of_lt hr.1 hr.2]
  | cons w ws ih =>
      have hw : w % 2 ^ wordBits = w :=
        Nat.mod_eq_of_lt (hws w (List.mem_cons_self ..))
      rw [List.foldl_cons, expWord_eq r b hr hb, hw,
        ih (fun v hv => hws v (List.mem_cons_of_mem _ hv)) _
          _ (emod_mem_word _) (emod_mem_word _)]
      have hEq : r * b ^ w * (b ^ 2 ^ wordBits) ^
        Nat.ofDigits (2 ^ wordBits) ws =
          r * b ^ Nat.ofDigits (2 ^ wordBits) (w :: ws) := by
        rw [Nat.ofDigits_cons, pow_add, pow_mul, mul_assoc]
      rw [← hEq]
      exact (Int.mod_modEq _ _).mul ((Int.mod_modEq _ _).pow _)

/- Exp of a word is the power modulo 2^256. -/
theorem Exp_eq
    (b e : Nat)
    (hb : b < 2 ^ 256) :
    Exp b e = ((b ^ e % 2 ^ 256 : Nat) : Int) := by
  have hWords : ∀ w ∈ Bits e, w < 2 ^ wordBits :=
    fun _ hw => Nat.digits_lt_base (by decide) hw
  unfold Exp
  rw [foldl_expWord _ hWords 1 b (by norm_num) ⟨by omega,
    by exact_mod_cast hb⟩]
  unfold Bits
  rw [Int.natAbs_natCast, Nat.ofDigits_digits, one_mul]
  push_cast
  rfl

end Math

end PlasmaEvm
