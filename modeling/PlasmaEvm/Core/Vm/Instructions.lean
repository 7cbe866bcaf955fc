import Mathlib
import PlasmaEvm.Common.Math.Big
import PlasmaEvm.Core.Vm.Word

/-
  The arithmetic, comparison, bitwise and shift instructions
  of package vm (instructions.go, opAdd to opSAR) on the
  interpreter's stack, and the jump table's entries for them
  (jump_table.go).  A stack item is a big.Int, an Int here,
  and the stack is a list with its top first.  An operation
  pops its operands and pushes its result, or writes the
  result into the item `peek` handed out, which leaves the
  same stack; which of the two an operation does is kept.
  The integer pool only takes back popped items and holds
  nothing the stack reads, so it is left out.  Go's pop and
  peek panic on an empty stack: here they give `none`, which
  the interpreter's check of minStack rules out.

  `OpCode.semantics` is the Yellow Paper's meaning of each
  instruction on a stack of words (`Word`).  On a stack of
  words with the items minStack asks for, each operation
  computes it (`execute_words`): it leaves the words the
  semantics gives, the items below its operands untouched.
  A run of such operations, each after the stack check,
  keeps every item a word (`runOps_words`).

  Key definitions include:
    * `Vm.Stack`, `Vm.peekOp`, `Vm.pushOp`, `Vm.opAdd` ...
      `Vm.opSAR`
    * `Vm.OpCode.execute`, `Vm.OpCode.minStack`,
      `Vm.OpCode.semantics`
    * `Vm.runOps`, `Vm.runWords`

  Key statements include:
    * `Vm.peekOp_words`, `Vm.pushOp_words`,
      `Vm.opSignExtend_words`
    * `Vm.execute_words`, `Vm.execute_isSome`,
      `Vm.runOps_words`
-/

------------------------------------------------------------
-- The Stack
------------------------------------------------------------

namespace PlasmaEvm

namespace Vm

open PlasmaEvm.Math

/- The stack's items, top first. -/
abbrev Stack := List Int

namespace Stack

def pop : Stack → Option (Int × Stack)
  | [] => none
  | x :: rest => some (x, rest)

def peek : Stack → Option Int
  | [] => none
  | x :: _ => some x

def push (st : Stack) (d : Int) : Stack :=
  d :: st

/- Write into the item `peek` handed out. -/
def setPeek : Stack → Int → Stack
  | [], _ => []
  | _ :: rest, d => d :: rest

end Stack

------------------------------------------------------------
-- The Operations
------------------------------------------------------------

/-
  An operation that pops x, peeks y and writes f x y into y.
-/
def peekOp
    (f : Int → Int → Int)
    (stack : Stack) : Option Stack := do
  let (x, stack) ← stack.pop
  let y ← stack.peek
  return stack.setPeek (f x y)

/- An operation that pops x and y and pushes f x y. -/
def pushOp
    (f : Int → Int → Int)
    (stack : Stack) : Option Stack := do
  let (x, stack) ← stack.pop
  let (y, stack) ← stack.pop
  return stack.push (f x y)

/- An operation that peeks x and writes f x into it. -/
def peekOp1
    (f : Int → Int)
    (stack : Stack) : Option Stack := do
  let x ← stack.peek
  return stack.setPeek (f x)

/- An operation that pops x, y and z and pushes f x y z. -/
def pushOp3
    (f : Int → Int → Int → Int)
    (stack : Stack) : Option Stack := do
  let (x, stack) ← stack.pop
  let (y, stack) ← stack.pop
  let (z, stack) ← stack.pop
  return stack.push (f x y z)

def opAdd : Stack → Option Stack :=
  peekOp fun x y => U256 (x + y)

def opSub : Stack → Option Stack :=
  peekOp fun x y => U256 (x - y)

def opMul : Stack → Option Stack :=
  pushOp fun x y => U256 (x * y)

def opDiv : Stack → Option Stack :=
  peekOp fun x y => if y.sign ≠ 0 then U256 (x / y) else 0

def opSdiv : Stack → Option Stack :=
  pushOp fun x y =>
    let x := S256 x
    let y := S256 y
    if y.sign = 0 ∨ x.sign = 0 then 0
    else if x.sign ≠ y.sign then U256 (-(|x| / |y|))
    else U256 (|x| / |y|)

def opMod : Stack → Option Stack :=
  pushOp fun x y => if y.sign = 0 then 0 else U256 (x % y)

def opSmod : Stack → Option Stack :=
  pushOp fun x y =>
    let x := S256 x
    let y := S256 y
    if y.sign = 0 then 0
    else if x.sign < 0 then U256 (-(|x| % |y|))
    else U256 (|x| % |y|)

/-
  The shortcuts for an exponent of 0 or 1 and for a base of
  0 are kept.
-/
def opExp : Stack → Option Stack :=
  pushOp fun base exponent =>
    if exponent < 1 then 1
    else if base.sign = 0 then 0
    else if exponent = 1 then base
    else Exp base exponent

/-
  From back = 31 on the number is left on the stack as it
  is.
-/
def opSignExtend (stack : Stack) : Option Stack := do
  let (back, stack) ← stack.pop
  if back < 31 then
    let bit := back.toNat * 8 + 7
    let (num, stack) ← stack.pop
    let mask := ((1 : Int) <<< bit) - 1
    let num := if num.testBit bit
      then Int.lor num (Int.lnot mask) else Int.land num mask
    return stack.push (U256 num)
  else
    return stack

def opNot : Stack → Option Stack :=
  peekOp1 fun x => U256 (Int.lnot x)

def opLt : Stack → Option Stack :=
  peekOp fun x y => if x < y then 1 else 0

def opGt : Stack → Option Stack :=
  peekOp fun x y => if x > y then 1 else 0

/- The signs are read off the comparisons with 2^255. -/
def opSlt : Stack → Option Stack :=
  peekOp fun x y =>
    if tt255 ≤ x ∧ y < tt255 then 1
    else if x < tt255 ∧ tt255 ≤ y then 0
    else if x < y then 1 else 0

def opSgt : Stack → Option Stack :=
  peekOp fun x y =>
    if tt255 ≤ x ∧ y < tt255 then 0
    else if x < tt255 ∧ tt255 ≤ y then 1
    else if x > y then 1 else 0

def opEq : Stack → Option Stack :=
  peekOp fun x y => if x = y then 1 else 0

def opIszero : Stack → Option Stack :=
  peekOp1 fun x => if x.sign > 0 then 0 else 1

def opAnd : Stack → Option Stack :=
  pushOp fun x y => Int.land x y

def opOr : Stack → Option Stack :=
  peekOp fun x y => Int.lor x y

def opXor : Stack → Option Stack :=
  peekOp fun x y => Int.xor x y

/-
  The index is read as a number; a stack item is never
  negative.
-/
def opByte : Stack → Option Stack :=
  peekOp fun th val => if th < 32
    then ((Byte val 32 th.toNat).toNat : Int) else 0

def opAddmod : Stack → Option Stack :=
  pushOp3 fun x y z => if z > 0
    then U256 ((x + y) % z) else 0

def opMulmod : Stack → Option Stack :=
  pushOp3 fun x y z => if z > 0
    then U256 ((x * y) % z) else 0

/-
  Both operands are cut to words first, the shifted one in
  place.
-/
def opSHL : Stack → Option Stack :=
  peekOp fun shift value =>
    let shift := U256 shift
    let value := U256 value
    if shift ≥ 256 then 0 else U256 (value <<< shift.toNat)

def opSHR : Stack → Option Stack :=
  peekOp fun shift value =>
    let shift := U256 shift
    let value := U256 value
    if shift ≥ 256 then 0 else U256 (value >>> shift.toNat)

/-
  S256 may give a new big.Int, so the value is popped and
  pushed.
-/
def opSAR : Stack → Option Stack :=
  pushOp fun shift value =>
    let shift := U256 shift
    let value := S256 value
    if shift ≥ 256
      then U256 (if value.sign ≥ 0 then 0 else -1)
    else U256 (value >>> shift.toNat)

------------------------------------------------------------
-- The Jump Table
------------------------------------------------------------

/- The opcodes of these instructions (opcodes.go). -/
inductive OpCode where
  | ADD | MUL | SUB | DIV | SDIV | MOD | SMOD | ADDMOD |
      MULMOD | EXP | SIGNEXTEND
  | LT | GT | SLT | SGT | EQ | ISZERO | AND | OR | XOR |
      NOT | BYTE | SHL | SHR | SAR
  deriving DecidableEq, Repr

/-
  The items an operation needs on the stack: those it pops.
-/
def minStack (pops _push : Nat) : Nat :=
  pops

namespace OpCode

/- The operation's execute in the jump table. -/
def execute : OpCode → Stack → Option Stack
  | ADD => opAdd
  | MUL => opMul
  | SUB => opSub
  | DIV => opDiv
  | SDIV => opSdiv
  | MOD => opMod
  | SMOD => opSmod
  | ADDMOD => opAddmod
  | MULMOD => opMulmod
  | EXP => opExp
  | SIGNEXTEND => opSignExtend
  | LT => opLt
  | GT => opGt
  | SLT => opSlt
  | SGT => opSgt
  | EQ => opEq
  | ISZERO => opIszero
  | AND => opAnd
  | OR => opOr
  | XOR => opXor
  | NOT => opNot
  | BYTE => opByte
  | SHL => opSHL
  | SHR => opSHR
  | SAR => opSAR

/- The operation's minStack in the jump table. -/
def minStack : OpCode → Nat
  | ADDMOD | MULMOD => Vm.minStack 3 1
  | ISZERO | NOT => Vm.minStack 1 1
  | _ => Vm.minStack 2 1

end OpCode

------------------------------------------------------------
-- The Yellow Paper's Meaning
------------------------------------------------------------

/- A stack of words as the interpreter holds it. -/
def toStack (ws : List Word) : Stack :=
  ws.map fun w => (w.val : Int)

@[simp] theorem toStack_nil : toStack [] = [] :=
  rfl

@[simp] theorem toStack_cons
    (w : Word)
    (ws : List Word) :
    toStack (w :: ws) = (w.val : Int) :: toStack ws :=
  rfl

/-
  An instruction that pops one, two or three words and
  pushes g of them.
-/
def unary (g : Word → Word) : List Word → Option (List Word)
  | a :: ws => some (g a :: ws)
  | _ => none

def binary
    (g : Word → Word → Word) :
    List Word → Option (List Word)
  | a :: b :: ws => some (g a b :: ws)
  | _ => none

def ternary
    (g : Word → Word → Word → Word) :
    List Word → Option (List Word)
  | a :: b :: c :: ws => some (g a b c :: ws)
  | _ => none

namespace OpCode

/- What each instruction does to a stack of words. -/
def semantics : OpCode → List Word → Option (List Word)
  | ADD => binary Word.add
  | MUL => binary Word.mul
  | SUB => binary Word.sub
  | DIV => binary Word.div
  | SDIV => binary Word.sdiv
  | MOD => binary Word.mod
  | SMOD => binary Word.smod
  | ADDMOD => ternary Word.addmod
  | MULMOD => ternary Word.mulmod
  | EXP => binary Word.exp
  | SIGNEXTEND => binary Word.signextend
  | LT => binary Word.lt
  | GT => binary Word.gt
  | SLT => binary Word.slt
  | SGT => binary Word.sgt
  | EQ => binary Word.eq
  | ISZERO => unary Word.iszero
  | AND => binary Word.and
  | OR => binary Word.or
  | XOR => binary Word.xor
  | NOT => unary Word.not
  | BYTE => binary Word.byte
  | SHL => binary Word.shl
  | SHR => binary Word.shr
  | SAR => binary Word.sar

end OpCode

------------------------------------------------------------
-- The Shapes of the Operations on Words
------------------------------------------------------------

theorem peekOp_words
    {f : Int → Int → Int}
    {g : Word → Word → Word}
    (hfg : ∀ a b : Word, f a.val b.val = (g a b).val)
    (ws : List Word) :
    peekOp f (toStack ws) = (binary g ws).map toStack := by
  rcases ws with _ | ⟨a, _ | ⟨b, ws⟩⟩
  · rfl
  · rfl
  · simp [peekOp, binary, Stack.pop, Stack.peek,
      Stack.setPeek, hfg]

theorem pushOp_words
    {f : Int → Int → Int}
    {g : Word → Word → Word}
    (hfg : ∀ a b : Word, f a.val b.val = (g a b).val)
    (ws : List Word) :
    pushOp f (toStack ws) = (binary g ws).map toStack := by
  rcases ws with _ | ⟨a, _ | ⟨b, ws⟩⟩
  · rfl
  · rfl
  · simp [pushOp, binary, Stack.pop, Stack.push, hfg]

theorem peekOp1_words
    {f : Int → Int}
    {g : Word → Word}
    (hfg : ∀ a : Word, f a.val = (g a).val)
    (ws : List Word) :
    peekOp1 f (toStack ws) = (unary g ws).map toStack := by
  rcases ws with _ | ⟨a, ws⟩
  · rfl
  · simp [peekOp1, unary, Stack.peek, Stack.setPeek, hfg]

theorem pushOp3_words
    {f : Int → Int → Int → Int}
    {g : Word → Word → Word → Word}
    (hfg : ∀ a b c : Word,
      f a.val b.val c.val = (g a b c).val)
    (ws : List Word) :
    pushOp3 f (toStack ws) =
      (ternary g ws).map toStack := by
  rcases ws with _ | ⟨a, _ | ⟨b, _ | ⟨c, ws⟩⟩⟩
  · rfl
  · rfl
  · rfl
  · simp [pushOp3, ternary, Stack.pop, Stack.push, hfg]

------------------------------------------------------------
-- Arithmetic on Words
------------------------------------------------------------

/- U256 writes an integer back as its word. -/
theorem U256_eq_ofInt
    (z : Int) :
    U256 z = ((Word.ofInt z).val : Int) := by
  rw [U256_eq_emod, Word.val_ofInt]

/- S256 of a word is its signed reading. -/
theorem S256_eq_toSigned
    (a : Word) :
    S256 a.val = Word.toSigned a := by
  have := a.isLt
  unfold S256 Word.toSigned tt255 tt256
  split_ifs <;> omega

/- Go's Sign() of a word is 0 only for the word 0. -/
theorem sign_val_eq_zero_iff
    (a : Word) :
    (a.val : Int).sign = 0 ↔ a.val = 0 := by
  rw [Int.sign_eq_zero_iff_zero]
  omega

theorem opAdd_words
    (ws : List Word) :
    opAdd (toStack ws) = (binary Word.add ws).map toStack :=
  peekOp_words (fun _ _ => U256_eq_ofInt _) ws

theorem opSub_words
    (ws : List Word) :
    opSub (toStack ws) = (binary Word.sub ws).map toStack :=
  peekOp_words (fun _ _ => U256_eq_ofInt _) ws

theorem opMul_words
    (ws : List Word) :
    opMul (toStack ws) = (binary Word.mul ws).map toStack :=
  pushOp_words (fun _ _ => U256_eq_ofInt _) ws

theorem opDiv_words
    (ws : List Word) :
    opDiv (toStack ws) =
      (binary Word.div ws).map toStack := by
  apply peekOp_words
  intro a b
  by_cases hb : b.val = 0
  · simp [Word.div, hb]
  · rw [if_pos (mt (sign_val_eq_zero_iff b).1 hb), Word.div,
      if_neg hb, U256_eq_ofInt]

theorem opMod_words
    (ws : List Word) :
    opMod (toStack ws) =
      (binary Word.mod ws).map toStack := by
  apply pushOp_words
  intro a b
  by_cases hb : b.val = 0
  · simp [Word.mod, hb]
  · rw [if_neg (mt (sign_val_eq_zero_iff b).1 hb), Word.mod,
      if_neg hb, U256_eq_ofInt]

/-
  SDIV: Go divides the magnitudes and puts the sign back,
  which is
   truncated division; a zero dividend gives 0 either way.
-/
theorem opSdiv_words
    (ws : List Word) :
    opSdiv (toStack ws) =
      (binary Word.sdiv ws).map toStack := by
  apply pushOp_words
  intro a b
  simp only [S256_eq_toSigned]
  unfold Word.sdiv
  by_cases hb : b.val = 0
  · simp [hb, (Word.toSigned_eq_zero_iff b).2 hb]
  · by_cases ha : a.val = 0
    · simp [hb, (Word.toSigned_eq_zero_iff a).2 ha]
    · have hNonzero : ¬((Word.toSigned b).sign = 0 ∨
        (Word.toSigned a).sign = 0) := by
        simp [Int.sign_eq_zero_iff_zero,
          Word.toSigned_eq_zero_iff, ha, hb]
      rw [if_neg hNonzero, if_neg hb,
        TwosComplement.tdiv_eq_abs]
      by_cases hSigns : (Word.toSigned a).sign =
        (Word.toSigned b).sign
      · rw [if_neg (not_not.2 hSigns),
          if_pos hSigns, U256_eq_ofInt]
      · rw [if_pos hSigns, if_neg hSigns, U256_eq_ofInt]

/-
  SMOD: the remainder of the magnitudes with the dividend's
  sign.
-/
theorem opSmod_words
    (ws : List Word) :
    opSmod (toStack ws) =
      (binary Word.smod ws).map toStack := by
  apply pushOp_words
  intro a b
  simp only [S256_eq_toSigned]
  unfold Word.smod
  by_cases hb : b.val = 0
  · simp [hb, (Word.toSigned_eq_zero_iff b).2 hb]
  · have hSign : (Word.toSigned b).sign ≠ 0 := by
      rw [ne_eq, Int.sign_eq_zero_iff_zero,
        Word.toSigned_eq_zero_iff]
      exact hb
    rw [if_neg hSign, if_neg hb, TwosComplement.tmod_eq_abs]
    simp only [Int.sign_neg_iff]
    split_ifs <;> rw [U256_eq_ofInt]

theorem opAddmod_words
    (ws : List Word) :
    opAddmod (toStack ws) = (ternary Word.addmod
      ws).map toStack := by
  apply pushOp3_words
  intro a b c
  by_cases hc : c.val = 0
  · simp [Word.addmod, hc]
  · rw [if_pos (by omega), Word.addmod,
      if_neg hc, U256_eq_ofInt]

theorem opMulmod_words
    (ws : List Word) :
    opMulmod (toStack ws) = (ternary Word.mulmod
      ws).map toStack := by
  apply pushOp3_words
  intro a b c
  by_cases hc : c.val = 0
  · simp [Word.mulmod, hc]
  · rw [if_pos (by omega), Word.mulmod,
      if_neg hc, U256_eq_ofInt]

/-
  EXP: the shortcuts agree with the power, and math.Exp
  computes it.
-/
theorem opExp_words
    (ws : List Word) :
    opExp (toStack ws) =
      (binary Word.exp ws).map toStack := by
  apply pushOp_words
  intro a b
  unfold Word.exp
  by_cases hb0 : b.val = 0
  · rw [if_pos (by omega)]
    simp [hb0]
  · rw [if_neg (by omega)]
    by_cases ha0 : a.val = 0
    · rw [if_pos (by simp [ha0])]
      simp [ha0, zero_pow hb0]
    · rw [if_neg (mt (sign_val_eq_zero_iff a).1 ha0)]
      by_cases hb1 : b.val = 1
      · rw [if_pos (by omega)]
        simp [hb1]
      · rw [if_neg (by omega), Exp_eq _ _ a.isLt,
          Word.val_ofInt]
        push_cast
        rfl

------------------------------------------------------------
-- Comparisons on Words
------------------------------------------------------------

/- A comparison writes the word 1 or 0. -/
theorem val_ite_one_zero
    (p : Prop)
    [Decidable p] :
    (((if p then 1 else 0 : Word)).val : Int) = if p
      then 1 else 0 := by
  split <;> rfl

theorem opLt_words
    (ws : List Word) :
    opLt (toStack ws) =
      (binary Word.lt ws).map toStack := by
  apply peekOp_words
  intro a b
  rw [Word.lt, val_ite_one_zero]
  simp only [Nat.cast_lt]

theorem opGt_words
    (ws : List Word) :
    opGt (toStack ws) =
      (binary Word.gt ws).map toStack := by
  apply peekOp_words
  intro a b
  rw [Word.gt, val_ite_one_zero]
  simp only [gt_iff_lt, Nat.cast_lt]

/-
  SLT: comparing with 2^255 first orders a negative reading
  below a
   nonnegative one; two readings of one sign compare as the
   words.
-/
theorem opSlt_words
    (ws : List Word) :
    opSlt (toStack ws) =
      (binary Word.slt ws).map toStack := by
  apply peekOp_words
  intro a b
  rw [Word.slt, val_ite_one_zero]
  have := a.isLt
  have := b.isLt
  unfold Word.toSigned tt255
  split_ifs <;> omega

theorem opSgt_words
    (ws : List Word) :
    opSgt (toStack ws) =
      (binary Word.sgt ws).map toStack := by
  apply peekOp_words
  intro a b
  rw [Word.sgt, val_ite_one_zero]
  have := a.isLt
  have := b.isLt
  unfold Word.toSigned tt255
  split_ifs <;> omega

theorem opEq_words
    (ws : List Word) :
    opEq (toStack ws) =
      (binary Word.eq ws).map toStack := by
  apply peekOp_words
  intro a b
  rw [Word.eq, val_ite_one_zero]
  simp only [Nat.cast_inj, Fin.val_inj]

theorem opIszero_words
    (ws : List Word) :
    opIszero (toStack ws) = (unary Word.iszero
      ws).map toStack := by
  apply peekOp1_words
  intro a
  rw [Word.iszero, val_ite_one_zero]
  by_cases ha : a.val = 0
  · simp [ha]
  · have hPos : (a.val : Int).sign > 0 := by
      rw [gt_iff_lt, Int.sign_pos_iff]
      omega
    simp [ha, hPos]

------------------------------------------------------------
-- Bits and Shifts on Words
------------------------------------------------------------

theorem opAnd_words
    (ws : List Word) :
    opAnd (toStack ws) = (binary Word.and ws).map toStack :=
  pushOp_words (fun _ _ => rfl) ws

theorem opOr_words
    (ws : List Word) :
    opOr (toStack ws) = (binary Word.or ws).map toStack :=
  peekOp_words (fun _ _ => rfl) ws

theorem opXor_words
    (ws : List Word) :
    opXor (toStack ws) = (binary Word.xor ws).map toStack :=
  peekOp_words (fun _ _ => rfl) ws

theorem opNot_words
    (ws : List Word) :
    opNot (toStack ws) =
      (unary Word.not ws).map toStack := by
  apply peekOp1_words
  intro a
  rw [U256_eq_ofBits, Word.not, Word.val_ofBits]
  simp only [Int.testBit_lnot,
    TwosComplement.testBit_natCast]

/-
  BYTE: math.Byte reads byte 31 - th from the least
  significant.
-/
theorem opByte_words
    (ws : List Word) :
    opByte (toStack ws) =
      (binary Word.byte ws).map toStack := by
  apply peekOp_words
  intro i x
  rw [Word.byte, Word.val_ofBits]
  by_cases hi : i.val < 32
  · have hByte : (Byte x.val 32 i.val).toNat =
      x.val / 2 ^ (8 * (31 - i.val)) % 2 ^ 8 := by
      rw [Byte, if_neg (by omega), bigEndianByteAt_eq]
    rw [if_pos (by omega), Int.toNat_natCast, hByte]
    congr 1
    symm
    apply TwosComplement.ofBits_eq_of_testBit
      (lt_of_lt_of_le (Nat.mod_lt _
        (by positivity)) (by norm_num))
    intro j
    rw [Nat.testBit_mod_two_pow, Nat.testBit_div_two_pow,
      Nat.add_comm j]
    simp [hi]
  · rw [if_neg (by omega), TwosComplement.ofBits_eq_zero
      (fun j => by simp [hi])]
    rfl

theorem opSHL_words
    (ws : List Word) :
    opSHL (toStack ws) =
      (binary Word.shl ws).map toStack := by
  apply peekOp_words
  intro s x
  simp only [U256_natCast s.isLt, U256_natCast x.isLt]
  rw [Word.shl, Word.val_ofBits]
  by_cases hs : 256 ≤ s.val
  · rw [if_pos (by omega), TwosComplement.ofBits_eq_zero
      (fun i => by simp; omega)]
    rfl
  · have hShift : (x.val : Int) <<< s.val = ((x.val <<<
      s.val : Nat) : Int) := by
      rw [Int.shiftLeft_eq, Nat.shiftLeft_eq]
      push_cast
      rfl
    rw [if_neg (by omega), Int.toNat_natCast, hShift,
      U256_eq_ofBits]
    congr 2
    funext i
    rw [TwosComplement.testBit_natCast,
      Nat.testBit_shiftLeft]

theorem opSHR_words
    (ws : List Word) :
    opSHR (toStack ws) =
      (binary Word.shr ws).map toStack := by
  apply peekOp_words
  intro s x
  simp only [U256_natCast s.isLt, U256_natCast x.isLt]
  rw [Word.shr, Word.val_ofBits]
  by_cases hs : 256 ≤ s.val
  · have hClear : ∀ i : Fin 256,
      x.val.testBit (i + s.val) = false :=
      fun i => TwosComplement.testBit_eq_false_of_lt
        x.isLt (by omega)
    rw [if_pos (by omega),
      TwosComplement.ofBits_eq_zero hClear]
    rfl
  · rw [if_neg (by omega), Int.toNat_natCast,
      U256_eq_ofBits]
    congr 2
    funext i
    rw [TwosComplement.testBit_shiftRight,
      TwosComplement.testBit_natCast, Nat.add_comm]

/-
  SAR: from a shift of 256 on every bit is the sign, 0 or
  -1; below
   it the shift is the floor division of Word.sar_eq.
-/
theorem opSAR_words
    (ws : List Word) :
    opSAR (toStack ws) =
      (binary Word.sar ws).map toStack := by
  apply pushOp_words
  intro s x
  simp only [U256_natCast s.isLt, S256_eq_toSigned]
  by_cases hs : 256 ≤ s.val
  · rw [if_pos (by omega), U256_eq_ofBits, Word.sar,
      Word.val_ofBits]
    congr 2
    funext i
    rw [Nat.min_eq_right (by omega),
      TwosComplement.testBit_eq_decide_le (show x.val <
        2 ^ (255 + 1) from x.isLt)]
    by_cases hNeg : 2 ^ 255 ≤ x.val
    · have hSign : (Word.toSigned x).sign < 0 :=
        Int.sign_neg_iff.2 ((Word.toSigned_neg_iff x).2 hNeg)
      rw [if_neg (by omega), decide_eq_true hNeg,
        TwosComplement.testBit_neg_one]
    · have hSign : 0 ≤ (Word.toSigned x).sign :=
        Int.sign_nonneg_iff.2 (not_lt.1 (mt
          (Word.toSigned_neg_iff x).1 hNeg))
      rw [if_pos hSign, decide_eq_false hNeg,
        TwosComplement.testBit_zero]
  · rw [if_neg (by omega), Int.toNat_natCast,
      Word.sar_eq, U256_eq_ofInt,
      TwosComplement.shiftRight_eq_ediv]

/-
  SIGNEXTEND below 31: the mask 2^bit - 1 keeps the bits
  under the sign
   bit, and the sign bit decides whether those from it on
   are set or cleared.
-/
theorem testBit_signExtend
    (x bit i : Nat) :
    (if x.testBit bit
      then Int.lor x (Int.lnot (((1 : Int) <<< bit) - 1))
      else Int.land x (((1 : Int) <<< bit) - 1)).testBit i =
        x.testBit (min i bit) := by
  have hMask : ((1 : Int) <<< bit) - 1 = ((2 ^ bit -
    1 : Nat) : Int) := by
    rw [Int.shiftLeft_eq, one_mul,
      TwosComplement.natCast_two_pow_sub_one]
  have hBits : ∀ j, Int.testBit ((2 ^ bit -
    1 : Nat) : Int) j = decide (j < bit) := fun j => by
    rw [TwosComplement.testBit_natCast,
      Nat.testBit_two_pow_sub_one]
  rw [hMask]
  split
  case isTrue hSet =>
    rw [Int.testBit_lor, Int.testBit_lnot, hBits,
      TwosComplement.testBit_natCast]
    by_cases hi : i < bit
    · simp [hi, Nat.min_eq_left hi.le]
    · simp [hi, Nat.min_eq_right (not_lt.1 hi), hSet]
  case isFalse hClear =>
    rw [Int.testBit_land, hBits,
      TwosComplement.testBit_natCast]
    by_cases hi : i < bit
    · simp [hi, Nat.min_eq_left hi.le]
    · simp [hi, Nat.min_eq_right (not_lt.1 hi), hClear]

theorem opSignExtend_words
    (b x : Word)
    (ws : List Word) :
    opSignExtend (toStack (b :: x :: ws)) =
      some (toStack (Word.signextend b x :: ws)) := by
  by_cases hb : b.val < 31
  · have hBack : (b.val : Int) < 31 := by omega
    simp [opSignExtend, Stack.pop, Stack.push, hBack]
    rw [U256_eq_ofBits, Word.signextend, Word.val_ofBits]
    congr 2
    funext i
    rw [Nat.mul_comm 8]
    exact testBit_signExtend _ _ _
  · have hBack : ¬(b.val : Int) < 31 := by omega
    simp [opSignExtend, Stack.pop, hBack,
      Word.signextend_of_le (not_lt.1 hb)]

------------------------------------------------------------
-- The Jump Table on Stacks of Words
------------------------------------------------------------

@[simp] theorem length_toStack
    (ws : List Word) :
    (toStack ws).length = ws.length :=
  List.length_map _

namespace OpCode

/-
  What an instruction leaves: one word pushed in place of
  the
   minStack words it pops, the items below them unchanged.
-/
theorem semantics_eq_cons
    (op : OpCode)
    (ws : List Word)
    (hLen : op.minStack ≤ ws.length) :
    ∃ r : Word, op.semantics ws = some (r ::
      ws.drop op.minStack) := by
  cases op <;> simp only [semantics, minStack,
    Vm.minStack] at hLen ⊢
  all_goals
    rcases ws with _ | ⟨a, _ | ⟨b, _ | ⟨c, ws⟩⟩⟩ <;>
      simp_all [unary, binary, ternary]

end OpCode

/-
  Each operation computes its instruction's meaning on the
  words, once
   the interpreter has checked that the stack holds minStack
   items.
-/
theorem execute_words :
    ∀ (op : OpCode) (ws : List Word),
      op.minStack ≤ ws.length →
      op.execute (toStack ws) =
        (op.semantics ws).map toStack
  | .ADD, ws, _ => opAdd_words ws
  | .MUL, ws, _ => opMul_words ws
  | .SUB, ws, _ => opSub_words ws
  | .DIV, ws, _ => opDiv_words ws
  | .SDIV, ws, _ => opSdiv_words ws
  | .MOD, ws, _ => opMod_words ws
  | .SMOD, ws, _ => opSmod_words ws
  | .ADDMOD, ws, _ => opAddmod_words ws
  | .MULMOD, ws, _ => opMulmod_words ws
  | .EXP, ws, _ => opExp_words ws
  | .SIGNEXTEND, b :: x :: ws, _ =>
      opSignExtend_words b x ws
  | .SIGNEXTEND, [], hLen => absurd hLen (by decide)
  | .SIGNEXTEND, [_], hLen =>
      absurd hLen (by simp [OpCode.minStack, minStack])
  | .LT, ws, _ => opLt_words ws
  | .GT, ws, _ => opGt_words ws
  | .SLT, ws, _ => opSlt_words ws
  | .SGT, ws, _ => opSgt_words ws
  | .EQ, ws, _ => opEq_words ws
  | .ISZERO, ws, _ => opIszero_words ws
  | .AND, ws, _ => opAnd_words ws
  | .OR, ws, _ => opOr_words ws
  | .XOR, ws, _ => opXor_words ws
  | .NOT, ws, _ => opNot_words ws
  | .BYTE, ws, _ => opByte_words ws
  | .SHL, ws, _ => opSHL_words ws
  | .SHR, ws, _ => opSHR_words ws
  | .SAR, ws, _ => opSAR_words ws

/-
  On a stack of words holding the items minStack asks for,
  each of
   these operations replaces its operands with one word, the
   meaning of its instruction, and leaves the items below
   them as they were.
-/
theorem instructions_compute_word_semantics
    (op : OpCode)
    (ws : List Word)
    (hLen : op.minStack ≤ ws.length) :
    ∃ r : Word,
      op.semantics ws = some (r :: ws.drop op.minStack) ∧
        op.execute (toStack ws) = some ((r.val : Int) ::
          toStack (ws.drop op.minStack)) := by
  obtain ⟨r, hSem⟩ := OpCode.semantics_eq_cons op ws hLen
  refine ⟨r, hSem, ?_⟩
  rw [execute_words op ws hLen, hSem]
  rfl

theorem instructions_compute_word_semantics_at_add :
    OpCode.ADD.minStack ≤ [(1 : Word), 2].length ∧
      ∃ r : Word,
        OpCode.ADD.semantics [1,
          2] = some (r :: [(1 : Word),
          2].drop OpCode.ADD.minStack) ∧
          OpCode.ADD.execute (toStack [1, 2]) =
            some ((r.val : Int) :: toStack ([(1 : Word),
              2].drop OpCode.ADD.minStack)) :=
  ⟨by decide, instructions_compute_word_semantics .ADD [1,
    2] (by decide)⟩

------------------------------------------------------------
-- No Operation Runs Off the Stack
------------------------------------------------------------

theorem peekOp_isSome
    (f : Int → Int → Int)
    {stack : Stack}
    (hLen : 2 ≤ stack.length) :
    (peekOp f stack).isSome := by
  rcases stack with _ | ⟨x, _ | ⟨y,
    stack⟩⟩ <;> simp_all [peekOp, Stack.pop, Stack.peek]

theorem pushOp_isSome
    (f : Int → Int → Int)
    {stack : Stack}
    (hLen : 2 ≤ stack.length) :
    (pushOp f stack).isSome := by
  rcases stack with _ | ⟨x, _ | ⟨y,
    stack⟩⟩ <;> simp_all [pushOp, Stack.pop]

theorem peekOp1_isSome
    (f : Int → Int)
    {stack : Stack}
    (hLen : 1 ≤ stack.length) :
    (peekOp1 f stack).isSome := by
  rcases stack with _ | ⟨x, stack⟩ <;> simp_all
    [peekOp1, Stack.peek]

theorem pushOp3_isSome
    (f : Int → Int → Int → Int)
    {stack : Stack}
    (hLen : 3 ≤ stack.length) :
    (pushOp3 f stack).isSome := by
  rcases stack with _ | ⟨x, _ | ⟨y, _ | ⟨z,
    stack⟩⟩⟩ <;> simp_all [pushOp3, Stack.pop]

theorem opSignExtend_isSome
    {stack : Stack}
    (hLen : 2 ≤ stack.length) :
    (opSignExtend stack).isSome := by
  rcases stack with _ | ⟨back, _ | ⟨num, stack⟩⟩
  · simp at hLen
  · simp at hLen
  · by_cases hBack : back < 31 <;> simp [opSignExtend,
      Stack.pop, hBack]

/-
  Once the interpreter has checked minStack, no operation
  pops or peeks
   an empty stack, whatever integers the stack holds.
-/
theorem execute_isSome
    (op : OpCode)
    {stack : Stack}
    (hLen : op.minStack ≤ stack.length) :
    (op.execute stack).isSome := by
  cases op <;> simp only [OpCode.execute, OpCode.minStack,
    minStack] at hLen ⊢
  case SIGNEXTEND => exact opSignExtend_isSome hLen
  all_goals first
    | exact peekOp_isSome _ hLen
    | exact pushOp_isSome _ hLen
    | exact peekOp1_isSome _ hLen
    | exact pushOp3_isSome _ hLen

------------------------------------------------------------
-- Runs of Operations
------------------------------------------------------------

/-
  Operations one after another, each after the interpreter's
  check of
   minStack; `none` is the stack underflow the check
   reports.
-/
def runOps : List OpCode → Stack → Option Stack
  | [], stack => some stack
  | op :: ops, stack =>
      if stack.length < op.minStack then none
      else (op.execute stack).bind (runOps ops)

/- The same run on the instructions' meaning. -/
def runWords : List OpCode → List Word → Option (List Word)
  | [], ws => some ws
  | op :: ops, ws =>
      if ws.length < op.minStack then none
      else (op.semantics ws).bind (runWords ops)

/-
  A run from a stack of words is the run of the meaning: by
  induction
   on the operations, one `execute_words` a step.
-/
theorem runOps_words
    (ops : List OpCode)
    (ws : List Word) :
    runOps ops (toStack ws) =
      (runWords ops ws).map toStack := by
  induction ops generalizing ws with
  | nil => rfl
  | cons op ops ih =>
      simp only [runOps, runWords, length_toStack]
      split
      · rfl
      · rw [execute_words op ws (by omega)]
        cases op.semantics ws with
        | none => rfl
        | some ws' => exact ih ws'

end Vm

end PlasmaEvm
