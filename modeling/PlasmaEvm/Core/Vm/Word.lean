import Mathlib
import PlasmaEvm.Data.TwosComplement

/-
  The Yellow Paper's meaning of the EVM's arithmetic,
  comparison, bitwise and shift instructions on 256-bit
  words.  A word is a number below 2^256, read unsigned or,
  through `toSigned`, as a two's complement number in
  [-2^255, 2^255); an integer result is written back as its
  residue modulo 2^256 (`ofInt`).

  ADD, SUB, MUL and EXP wrap modulo 2^256.  DIV, SDIV, MOD,
  SMOD, ADDMOD and MULMOD give 0 for a zero divisor; SDIV
  and SMOD divide the signed readings with truncation, and
  ADDMOD and MULMOD take the sum and the product whole.  The
  comparisons give 1 or 0.  AND, OR, XOR and NOT work bit by
  bit, and so are SIGNEXTEND, BYTE, SHL, SHR and SAR given,
  for every index and shift amount; the shifts are then read
  as arithmetic on the unsigned and signed readings.

  Key definitions include:
    * `Vm.Word`, `Word.ofInt`, `Word.toSigned`
    * `Word.add`, `Word.sdiv`, `Word.smod`, `Word.exp`,
      `Word.signextend`, `Word.byte`, `Word.shl`,
      `Word.shr`, `Word.sar` and the others

  Key statements include:
    * `Word.val_ofInt`, `Word.ofInt_val`,
      `Word.testBit_toSigned`
    * `Word.shl_val`, `Word.shr_val`, `Word.sar_eq`
-/

------------------------------------------------------------
-- Words and Their Readings
------------------------------------------------------------

namespace PlasmaEvm

namespace Vm

/- A word of the machine's stack. -/
abbrev Word := Fin (2 ^ 256)

namespace Word

/- The word of an integer: its residue modulo 2^256. -/
def ofInt (z : Int) : Word :=
  ⟨(z % 2 ^ 256).toNat, by
    have hNonneg := Int.emod_nonneg z
      (by positivity : (2 : Int) ^ 256 ≠ 0)
    have hLt := Int.emod_lt_of_pos z
      (by positivity : (0 : Int) < 2 ^ 256)
    omega⟩

@[simp] theorem val_zero : (0 : Word).val = 0 :=
  rfl

@[simp] theorem val_one : (1 : Word).val = 1 :=
  rfl

@[simp] theorem ofInt_zero : ofInt 0 = 0 :=
  rfl

@[simp] theorem ofInt_one : ofInt 1 = 1 :=
  rfl

/- The two's complement reading of a word. -/
def toSigned (a : Word) : Int :=
  if a.val < 2 ^ 255 then a.val else (a.val : Int) - 2 ^ 256

theorem val_ofInt
    (z : Int) :
    ((ofInt z).val : Int) = z % 2 ^ 256 :=
  Int.toNat_of_nonneg (Int.emod_nonneg z (by positivity))

@[simp] theorem ofInt_val
    (a : Word) :
    ofInt a.val = a := by
  apply Fin.ext
  have hVal := val_ofInt a.val
  rw [Int.emod_eq_of_lt (by omega)
    (by exact_mod_cast a.isLt)] at hVal
  exact_mod_cast hVal

/-
  The signed reading has the word's bits, and bit 255, the
  sign,
   repeated above them.
-/
theorem testBit_toSigned
    (a : Word)
    (j : Nat) :
    (toSigned a).testBit j = a.val.testBit (min j 255) := by
  unfold toSigned
  split
  case isTrue hPos =>
    rw [TwosComplement.testBit_natCast]
    by_cases hj : j ≤ 255
    · rw [Nat.min_eq_left hj]
    · rw [Nat.min_eq_right (by omega),
        TwosComplement.testBit_eq_false_of_lt hPos (by omega),
        TwosComplement.testBit_eq_false_of_lt hPos le_rfl]
  case isFalse hNeg =>
    have hEq : (a.val : Int) - 2 ^ 256 =
      Int.negSucc (2 ^ 256 - 1 - a.val) := by
      have := a.isLt
      rw [Int.negSucc_eq]
      omega
    rw [hEq]
    show (!(2 ^ 256 - 1 - a.val).testBit j) = _
    rw [TwosComplement.testBit_two_pow_sub_one_sub a.isLt]
    by_cases hj : j < 256
    · simp [hj, Nat.min_eq_left (show j ≤ 255 by omega)]
    · rw [Nat.min_eq_right (by omega),
        TwosComplement.testBit_eq_decide_le (show a.val <
          2 ^ (255 + 1) from a.isLt),
        decide_eq_true (by omega : 2 ^ 255 ≤ a.val),
          decide_eq_false hj]
      rfl

theorem toSigned_eq_zero_iff
    (a : Word) :
    toSigned a = 0 ↔ a.val = 0 := by
  have := a.isLt
  unfold toSigned
  split <;> omega

theorem toSigned_neg_iff
    (a : Word) :
    toSigned a < 0 ↔ 2 ^ 255 ≤ a.val := by
  have := a.isLt
  unfold toSigned
  split <;> omega

/- The number whose bit i below 256 is f i. -/
def ofBits (f : Fin 256 → Bool) : Word :=
  ⟨Nat.ofBits f, Nat.ofBits_lt_two_pow f⟩

theorem val_ofBits
    (f : Fin 256 → Bool) :
    (ofBits f).val = Nat.ofBits f := by
  rw [ofBits]

/- The word of an integer keeps its low 256 bits. -/
theorem val_ofInt_eq_ofBits
    (z : Int) :
    (ofInt z).val = Nat.ofBits (fun i : Fin 256 =>
      z.testBit i) := by
  have hVal := val_ofInt z
  rw [← TwosComplement.land_two_pow_sub_one,
    TwosComplement.land_two_pow_sub_one_eq_ofBits] at hVal
  exact_mod_cast hVal

------------------------------------------------------------
-- Arithmetic
------------------------------------------------------------

def add (a b : Word) : Word :=
  ofInt ((a.val : Int) + b.val)

def mul (a b : Word) : Word :=
  ofInt ((a.val : Int) * b.val)

def sub (a b : Word) : Word :=
  ofInt ((a.val : Int) - b.val)

def div (a b : Word) : Word :=
  if b.val = 0 then 0 else ofInt ((a.val : Int) / b.val)

/- Division of the signed readings, rounded toward zero. -/
def sdiv (a b : Word) : Word :=
  if b.val = 0
    then 0 else ofInt ((toSigned a).tdiv (toSigned b))

def mod (a b : Word) : Word :=
  if b.val = 0 then 0 else ofInt ((a.val : Int) % b.val)

/-
  The remainder of the signed readings, with the dividend's
  sign.
-/
def smod (a b : Word) : Word :=
  if b.val = 0
    then 0 else ofInt ((toSigned a).tmod (toSigned b))

def addmod (a b c : Word) : Word :=
  if c.val = 0
    then 0 else ofInt (((a.val : Int) + b.val) % c.val)

def mulmod (a b c : Word) : Word :=
  if c.val = 0
    then 0 else ofInt (((a.val : Int) * b.val) % c.val)

def exp (a b : Word) : Word :=
  ofInt ((a.val : Int) ^ b.val)

/-
  The most negative word divided by -1 overflows back to
  itself.
-/
example : sdiv (ofInt (-2 ^ 255)) (ofInt (-1)) =
    ofInt (2 ^ 255) := by decide

------------------------------------------------------------
-- Comparisons
------------------------------------------------------------

def lt (a b : Word) : Word :=
  if a.val < b.val then 1 else 0

def gt (a b : Word) : Word :=
  if b.val < a.val then 1 else 0

def slt (a b : Word) : Word :=
  if toSigned a < toSigned b then 1 else 0

def sgt (a b : Word) : Word :=
  if toSigned b < toSigned a then 1 else 0

def eq (a b : Word) : Word :=
  if a = b then 1 else 0

def iszero (a : Word) : Word :=
  if a.val = 0 then 1 else 0

------------------------------------------------------------
-- Bits and Shifts
------------------------------------------------------------

def and (a b : Word) : Word :=
  ⟨a.val &&& b.val, Nat.and_lt_two_pow _ b.isLt⟩

def or (a b : Word) : Word :=
  ⟨a.val ||| b.val, Nat.or_lt_two_pow a.isLt b.isLt⟩

def xor (a b : Word) : Word :=
  ⟨a.val ^^^ b.val, Nat.xor_lt_two_pow a.isLt b.isLt⟩

def not (a : Word) : Word :=
  ofBits fun i => !a.val.testBit i

/-
  Bit 8b + 7 of x, the sign of its low b + 1 bytes, repeated
  above
   itself; from b = 31 on the word is unchanged.
-/
def signextend (b x : Word) : Word :=
  ofBits fun i => x.val.testBit (min i.val (8 * b.val + 7))

/- From b = 31 on SIGNEXTEND leaves the word as it is. -/
theorem signextend_of_le
    {b : Word}
    (hb : 31 ≤ b.val)
    (x : Word) :
    signextend b x = x := by
  apply Fin.ext
  rw [signextend, val_ofBits]
  exact TwosComplement.ofBits_eq_of_testBit x.isLt
    (fun i => by rw [Nat.min_eq_left (by omega)])

/-
  Byte i of x counted from the most significant, 0 from i =
  32 on.
-/
def byte (i x : Word) : Word :=
  ofBits fun j => decide (j.val < 8) && decide (i.val <
    32) && x.val.testBit (8 * (31 - i.val) + j)

def shl (shift x : Word) : Word :=
  ofBits fun i => decide (shift.val ≤
    i.val) && x.val.testBit (i - shift.val)

def shr (shift x : Word) : Word :=
  ofBits fun i => x.val.testBit (i + shift.val)

/-
  The shift right of the signed reading: bits shifted in
  copy the sign.
-/
def sar (shift x : Word) : Word :=
  ofBits fun i => x.val.testBit (min (i + shift.val) 255)

/- SHL multiplies by 2^shift modulo 2^256. -/
theorem shl_val
    (shift x : Word) :
    (shl shift x).val =
      x.val * 2 ^ shift.val % 2 ^ 256 := by
  apply Nat.eq_of_testBit_eq
  intro i
  rw [shl, val_ofBits,
    Nat.testBit_ofBits, ← Nat.shiftLeft_eq,
    Nat.testBit_mod_two_pow,
    Nat.testBit_shiftLeft]
  by_cases hi : i < 256 <;> simp [hi]

/- SHR divides by 2^shift. -/
theorem shr_val
    (shift x : Word) :
    (shr shift x).val = x.val / 2 ^ shift.val := by
  rw [shr, val_ofBits]
  exact TwosComplement.ofBits_eq_of_testBit
    (lt_of_le_of_lt (Nat.div_le_self _ _) x.isLt)
    (fun i => (Nat.testBit_div_two_pow _ _).symm)

/-
  SAR is the floor division of the signed reading by
  2^shift.
-/
theorem sar_eq
    (shift x : Word) :
    sar shift x = ofInt (toSigned x / 2 ^ shift.val) := by
  apply Fin.ext
  rw [val_ofInt_eq_ofBits, ← TwosComplement.shiftRight_eq_ediv,
    sar, val_ofBits]
  congr 1
  funext i
  rw [TwosComplement.testBit_shiftRight,
    testBit_toSigned, Nat.add_comm]

end Word

end Vm

end PlasmaEvm
