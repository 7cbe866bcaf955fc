import PlasmaEvm.Common.Types
import PlasmaEvm.Data.Digits
import PlasmaEvm.Control.Except

/-
  The hex codecs of package hexutil (hexutil.go), with what
  they call from encoding/hex and strconv.  A Go string is
  its bytes. `Encode`/`Decode` write and read byte strings
  as two lower-case digits a byte;
  `EncodeUint64`/`DecodeUint64` and `EncodeBig`/`DecodeBig`
  write and read quantities, with no leading zero.
  `DecodeBig` fills big.Words from the end of the digits,
  `bigWordNibbles` at a time, in the word arithmetic of the
  platform; `initBigWordNibbles` is the package's init,
  which picks the nibbles of a word from the platform's word
  size.

  Each decoder is characterised on every input: it succeeds
  exactly on the canonical quantities (`Canonical`), with
  the number their digits read as, and the encoder writes
  that number back as the input in lower case.  `DecodeBig`
  is exact because a word holds exactly `bigWordNibbles`
  digits on either word size.

  Key definitions include:
    * `Hexutil.checkNumber`, `Hexutil.decodeNibble`
    * `Hexutil.Encode`, `Hexutil.Decode`
    * `Hexutil.EncodeUint64`, `Hexutil.DecodeUint64`,
      `Hexutil.ParseUint`
    * `Hexutil.EncodeBig`, `Hexutil.DecodeBig`,
      `Hexutil.fillWords`
    * `Hexutil.Canonical`

  Key statements include:
    * `Hexutil.Decode_Encode`
    * `Hexutil.DecodeUint64_eq_ok`,
      `Hexutil.DecodeUint64_EncodeUint64`
    * `Hexutil.fillWords_eq_ok`, `Hexutil.DecodeBig_eq_ok`,
      `Hexutil.DecodeBig_EncodeBig`
    * `Hexutil.hex_codecs_inverse`
-/

------------------------------------------------------------
-- Digits and Prefixes
------------------------------------------------------------

namespace PlasmaEvm

namespace Hexutil

/-
  The errors of the decoders, under the names of their Go
  variables.
-/
inductive DecError where
  | ErrEmptyString
  | ErrSyntax
  | ErrMissingPrefix
  | ErrOddLength
  | ErrEmptyNumber
  | ErrLeadingZero
  | ErrUint64Range
  | ErrBig256Range
  deriving DecidableEq, Repr

/-
  hextable of encoding/hex (and the digits of strconv and
  fmt): digit `d` in lower case.
-/
def hexDigit (d : Nat) : UInt8 :=
  ("0123456789abcdef".toList.getD d '0').toUInt8

/-
  The lower-case digits of `n`, none for 0: how fmt and
  strconv write a nonzero number.
-/
def lowerHex (n : Nat) : Bytes :=
  (Digits.ofNat 16 n).map hexDigit

def has0xPrefix (input : Bytes) : Bool :=
  match input with
  | c₀ :: c₁ :: _ =>
      c₀ == '0'.toUInt8 && (c₁ ==
        'x'.toUInt8 || c₁ == 'X'.toUInt8)
  | _ => false

/-
  checkNumber: the digits of a quantity, after 0x, with no
  leading zero.
-/
def checkNumber (input : Bytes) : Except DecError Bytes :=
  if input.length = 0 then .error .ErrEmptyString
  else if !has0xPrefix input then .error .ErrMissingPrefix
  else
    let input := input.drop 2
    if input.length = 0 then .error .ErrEmptyNumber
    else if input.length > 1 ∧ input.head? =
      some '0'.toUInt8 then .error .ErrLeadingZero
    else .ok input

def badNibble : UInt64 := ~~~0

def decodeNibble (c : UInt8) : UInt64 :=
  if c ≥ '0'.toUInt8 ∧ c ≤ '9'.toUInt8
    then (c - '0'.toUInt8).toUInt64
  else if c ≥ 'A'.toUInt8 ∧ c ≤ 'F'.toUInt8
    then (c - 'A'.toUInt8 + 10).toUInt64
  else if c ≥ 'a'.toUInt8 ∧ c ≤ 'f'.toUInt8
    then (c - 'a'.toUInt8 + 10).toUInt64
  else badNibble

end Hexutil

end PlasmaEvm

------------------------------------------------------------
-- Byte Strings (encoding/hex)
------------------------------------------------------------

namespace PlasmaEvm

namespace Hexutil

/- The errors of encoding/hex. -/
inductive HexError where
  | InvalidByteError (c : UInt8)
  | ErrLength
  deriving DecidableEq, Repr

/-
  fromHexChar of encoding/hex: the value of a digit of
  either case.
-/
def fromHexChar (c : UInt8) : Option UInt8 :=
  if '0'.toUInt8 ≤ c ∧ c ≤ '9'.toUInt8
    then some (c - '0'.toUInt8)
  else if 'a'.toUInt8 ≤ c ∧ c ≤ 'f'.toUInt8
    then some (c - 'a'.toUInt8 + 10)
  else if 'A'.toUInt8 ≤ c ∧ c ≤ 'F'.toUInt8
    then some (c - 'A'.toUInt8 + 10)
  else none

/- hex.Encode: two digits a byte, the high half first. -/
def hexEncode (src : Bytes) : Bytes :=
  src.flatMap fun (v : UInt8) => [hexDigit (v >>> 4).toNat,
    hexDigit (v &&& 0x0f).toNat]

/-
  hex.DecodeString: a byte from each pair of digits; an odd
  digit at the end is ErrLength, unless it is no digit.
-/
def hexDecode : Bytes → Except HexError Bytes
  | a :: b :: rest =>
      match fromHexChar a, fromHexChar b with
      | none, _ => .error (.InvalidByteError a)
      | some _, none => .error (.InvalidByteError b)
      | some x, some y =>
          (((x <<< 4) ||| y) :: ·) <$> hexDecode rest
  | [a] =>
      match fromHexChar a with
      | none => .error (.InvalidByteError a)
      | some _ => .error .ErrLength
  | [] => .ok []

/- mapError, on the errors of encoding/hex. -/
def mapHexError : HexError → DecError
  | .InvalidByteError _ => .ErrSyntax
  | .ErrLength => .ErrOddLength

/- Decode: a byte string behind 0x. -/
def Decode (input : Bytes) : Except DecError Bytes :=
  if input.length = 0 then .error .ErrEmptyString
  else if !has0xPrefix input then .error .ErrMissingPrefix
  else
    match hexDecode (input.drop 2) with
    | .ok b => .ok b
    | .error err => .error (mapHexError err)

def Encode (b : Bytes) : Bytes :=
  ['0'.toUInt8, 'x'.toUInt8] ++ hexEncode b

end Hexutil

end PlasmaEvm

------------------------------------------------------------
-- Quantities of 64 Bits (strconv)
------------------------------------------------------------

namespace PlasmaEvm

namespace Hexutil

/- The errors of strconv's parsers. -/
inductive NumError where
  | ErrRange
  | ErrSyntax
  deriving DecidableEq, Repr

/-
  lower of strconv: a letter in lower case, and other bytes
  moved off the letters.
-/
def lower (c : UInt8) : UInt8 :=
  c ||| ('x'.toUInt8 - 'X'.toUInt8)

/-
  The digit ParseUint reads in `c`: 0 to 9, or a letter of
  either case from 10 on.
-/
def parseDigit (c : UInt8) : Option UInt8 :=
  if '0'.toUInt8 ≤ c ∧ c ≤ '9'.toUInt8
    then some (c - '0'.toUInt8)
  else if 'a'.toUInt8 ≤ lower c ∧ lower c ≤ 'z'.toUInt8
    then some (lower c - 'a'.toUInt8 + 10)
  else none

/-
  One turn of ParseUint(s, 16, 64) on the byte `c`: a digit
  below the base, a check that the number can take one more
  digit (cutoff is 2^64 / 16), and the number with the
  digit, in uint64 arithmetic.
-/
def parseStep
    (n : UInt64)
    (c : UInt8) :
    Except NumError UInt64 :=
  match parseDigit c with
  | none => .error .ErrSyntax
  | some d =>
      if d ≥ 16 then .error .ErrSyntax
      else if n ≥ 0x1000000000000000 then .error .ErrRange
      else
        let n := n * 16
        let n₁ := n + d.toUInt64
        if n₁ < n ∨ n₁ > 0xFFFFFFFFFFFFFFFF
          then .error .ErrRange
        else .ok n₁

/- strconv.ParseUint(s, 16, 64). -/
def ParseUint (s : Bytes) : Except NumError UInt64 :=
  if s.length = 0 then .error .ErrSyntax
  else s.foldlM parseStep 0

/- mapError, on the errors of strconv. -/
def mapNumError : NumError → DecError
  | .ErrRange => .ErrUint64Range
  | .ErrSyntax => .ErrSyntax

def DecodeUint64
    (input : Bytes) :
    Except DecError UInt64 := do
  let raw ← checkNumber input
  match ParseUint raw with
  | .ok dec => pure dec
  | .error err => throw (mapNumError err)

/-
  strconv.AppendUint(_, i, 16): the lower-case digits, 0 for
  zero.
-/
def formatUint (i : Nat) : Bytes :=
  if i = 0 then ['0'.toUInt8] else lowerHex i

def EncodeUint64 (i : UInt64) : Bytes :=
  ['0'.toUInt8, 'x'.toUInt8] ++ formatUint i.toNat

end Hexutil

end PlasmaEvm

------------------------------------------------------------
-- Quantities of 256 Bits (math/big)
------------------------------------------------------------

namespace PlasmaEvm

namespace Hexutil

/-
  init: the nibbles of a big.Word, from how many words of
  `wordBits` bits hold 0xFFFFFFFFFF; none is its panic.
-/
def initBigWordNibbles (wordBits : Nat) : Option Nat :=
  match (40 + wordBits - 1) / wordBits with
  | 1 => some 16
  | 2 => some 8
  | _ => none

/-
  A turn of the inner loop: words[i] *= 16; words[i] += nib,
  in big.Word arithmetic.
-/
def fillWord
    (wordBits : Nat)
    (w : Nat)
    (c : UInt8) : Except DecError Nat :=
  let nib := decodeNibble c
  if nib = badNibble then .error .ErrSyntax
  else .ok (((w * 16) % 2 ^ wordBits + nib.toNat) % 2 ^ wordBits)

/-
  The loop over the words: word i takes the digits from
  `stop - bigWordNibbles` (or 0) to `stop` (end, in the
  code), and the next word ends where it starts.
-/
def fillWords
    (wordBits bigWordNibbles : Nat)
    (raw : Bytes) : Nat → Nat → Except DecError (List Nat)
  | 0, _ => .ok []
  | count + 1, stop => do
      let start := stop - bigWordNibbles
      let w ← ((raw.take stop).drop start).foldlM
        (fillWord wordBits) 0
      let ws ← fillWords wordBits bigWordNibbles raw count start
      pure (w :: ws)

/-
  big.Int.SetBits: the number of its words, least
  significant first.
-/
def SetBits (wordBits : Nat) : List Nat → Nat
  | [] => 0
  | w :: ws => w + 2 ^ wordBits * SetBits wordBits ws

def DecodeBig
    (wordBits bigWordNibbles : Nat)
    (input : Bytes) : Except DecError Nat := do
  let raw ← checkNumber input
  if raw.length > 64 then throw .ErrBig256Range
  let words ← fillWords wordBits bigWordNibbles raw
    (raw.length / bigWordNibbles + 1) raw.length
  pure (SetBits wordBits words)

/-
  EncodeBig: 0x0 for zero, and otherwise fmt's %#x: the
  sign, 0x and the lower-case digits of the magnitude.
-/
def EncodeBig (bigint : Int) : Bytes :=
  if bigint.natAbs = 0
    then ['0'.toUInt8, 'x'.toUInt8, '0'.toUInt8]
  else (if bigint < 0 then ['-'.toUInt8]
    else []) ++ ['0'.toUInt8, 'x'.toUInt8] ++
    lowerHex bigint.natAbs

end Hexutil

end PlasmaEvm

------------------------------------------------------------
-- Hex Digits
------------------------------------------------------------

namespace PlasmaEvm

namespace Hexutil

/- A hex digit of either case. -/
def IsHexDigit (c : UInt8) : Prop :=
  ('0'.toUInt8 ≤ c ∧ c ≤ '9'.toUInt8) ∨ ('a'.toUInt8 ≤ c ∧
    c ≤ 'f'.toUInt8) ∨
    ('A'.toUInt8 ≤ c ∧ c ≤ 'F'.toUInt8)

instance (c : UInt8) : Decidable (IsHexDigit c) :=
  inferInstanceAs (Decidable (_ ∨ _ ∨ _))

/-
  An ASCII letter in lower case; every other byte as it is.
-/
def toLower (c : UInt8) : UInt8 :=
  if 'A'.toUInt8 ≤ c ∧ c ≤ 'Z'.toUInt8 then c + 32 else c

/-
  The values of a string of digits, as decodeNibble reads
  them.
-/
def nibbles (raw : Bytes) : List Nat :=
  raw.map fun c => (decodeNibble c).toNat

theorem nibbles_append
    (a b : Bytes) :
    nibbles (a ++ b) = nibbles a ++ nibbles b :=
  List.map_append

@[simp] theorem length_nibbles
    (raw : Bytes) :
    (nibbles raw).length = raw.length :=
  List.length_map _

/-
  A hex digit is one of twenty-two bytes; the facts about
  digits are checked on each.
-/
theorem isHexDigit_cases
    {c : UInt8}
    (hHex : IsHexDigit c) :
    ∃ k, ((48 ≤ k ∧ k ≤ 57) ∨ (97 ≤ k ∧ k ≤ 102) ∨
      (65 ≤ k ∧ k ≤ 70)) ∧ c = UInt8.ofNat k := by
  refine ⟨c.toNat, ?_, (UInt8.ofNat_toNat).symm⟩
  simp only [IsHexDigit, UInt8.le_iff_toNat_le] at hHex
  exact hHex

theorem decodeNibble_ne_badNibble
    {c : UInt8}
    (hHex : IsHexDigit c) :
    decodeNibble c ≠ badNibble := by
  rcases isHexDigit_cases hHex with ⟨k, hk, rfl⟩
  rcases hk with ⟨hLo, hHi⟩ | ⟨hLo, hHi⟩ | ⟨hLo, hHi⟩ <;>
    interval_cases k <;> decide

theorem toNat_decodeNibble_lt
    {c : UInt8}
    (hHex : IsHexDigit c) :
    (decodeNibble c).toNat < 16 := by
  rcases isHexDigit_cases hHex with ⟨k, hk, rfl⟩
  rcases hk with ⟨hLo, hHi⟩ | ⟨hLo, hHi⟩ | ⟨hLo, hHi⟩ <;>
    interval_cases k <;> decide

/-
  Writing back the value of a digit gives the digit in lower
  case.
-/
theorem hexDigit_decodeNibble
    {c : UInt8}
    (hHex : IsHexDigit c) :
    hexDigit (decodeNibble c).toNat = toLower c := by
  rcases isHexDigit_cases hHex with ⟨k, hk, rfl⟩
  rcases hk with ⟨hLo, hHi⟩ | ⟨hLo, hHi⟩ | ⟨hLo, hHi⟩ <;>
    interval_cases k <;> decide

/- A byte that is no hex digit reads as badNibble. -/
theorem decodeNibble_of_not_isHexDigit
    {c : UInt8}
    (hNot : ¬ IsHexDigit c) :
    decodeNibble c = badNibble := by
  simp only [IsHexDigit, not_or] at hNot
  unfold decodeNibble
  rw [if_neg (fun h => hNot.1 ⟨h.1, h.2⟩), if_neg (fun h =>
    hNot.2.2 ⟨h.1, h.2⟩),
    if_neg (fun h => hNot.2.1 ⟨h.1, h.2⟩)]

/-
  Each of the sixteen digits is a digit, reads back as its
  value, and only 0 is '0'.
-/
theorem hexDigit_spec
    {d : Nat}
    (hd : d < 16) :
    IsHexDigit (hexDigit d) ∧ (decodeNibble
      (hexDigit d)).toNat = d ∧
      fromHexChar (hexDigit d) = some (UInt8.ofNat d) ∧
        (hexDigit d = '0'.toUInt8 ↔ d = 0) := by
  interval_cases d <;> decide

end Hexutil

end PlasmaEvm

------------------------------------------------------------
-- Byte Facts Checked on Every Byte
------------------------------------------------------------

namespace PlasmaEvm

namespace Hexutil

/-
  A fact checked on all 256 values of a byte holds of every
  byte.
-/
theorem byte_forall
    {P : UInt8 → Prop}
    (h : ∀ k < 256, P (UInt8.ofNat k))
    (c : UInt8) :
    P c := by
  have hAt := h c.toNat c.toNat_lt
  rwa [UInt8.ofNat_toNat] at hAt

/-
  ParseUint reads a digit below 16 in exactly the hex
  digits, with the value decodeNibble gives them.
-/
set_option maxRecDepth 4000 in
theorem parseDigit_spec (c : UInt8) :
    (parseDigit c).any (· < 16) = decide (IsHexDigit c) ∧
      (IsHexDigit c → (parseDigit c).map UInt8.toNat =
        some (decodeNibble c).toNat) := by
  revert c
  apply byte_forall
  decide

/- Only the digit '0' reads as 0. -/
theorem decodeNibble_eq_zero_iff
    {c : UInt8}
    (hHex : IsHexDigit c) :
    (decodeNibble c).toNat = 0 ↔ c = '0'.toUInt8 := by
  rcases isHexDigit_cases hHex with ⟨k, hk, rfl⟩
  rcases hk with ⟨hLo, hHi⟩ | ⟨hLo, hHi⟩ | ⟨hLo, hHi⟩ <;>
    interval_cases k <;> decide

theorem toNat_high_half
    (v : UInt8) :
    (v >>> 4).toNat = v.toNat / 2 ^ 4 := by
  rw [UInt8.toNat_shiftRight, Nat.shiftRight_eq_div_pow]
  rfl

theorem toNat_low_half
    (v : UInt8) :
    (v &&& 0x0f).toNat = v.toNat % 2 ^ 4 := by
  rw [UInt8.toNat_and]
  exact Nat.and_two_pow_sub_one_eq_mod v.toNat 4

/-
  A byte is its high half shifted back over its low half.
-/
theorem byte_halves (v : UInt8) :
    ((v >>> 4) <<< 4) ||| (v &&& 0x0f) = v := by
  apply UInt8.toNat_inj.mp
  have hLt := v.toNat_lt
  have hHigh : ((v >>> 4) <<< 4).toNat =
    (v.toNat / 2 ^ 4) <<< 4 := by
    rw [UInt8.toNat_shiftLeft, toNat_high_half]
    have hSmall : (v.toNat / 2 ^ 4) <<< 4 < 2 ^ 8 := by
      rw [Nat.shiftLeft_eq]
      omega
    exact Nat.mod_eq_of_lt hSmall
  rw [UInt8.toNat_or, hHigh, toNat_low_half,
    ← Nat.shiftLeft_add_eq_or_of_lt (Nat.mod_lt _
      (by decide)), Nat.shiftLeft_eq]
  omega

end Hexutil

end PlasmaEvm

------------------------------------------------------------
-- Byte Strings Read Back
------------------------------------------------------------

namespace PlasmaEvm

namespace Hexutil

theorem hexDecode_hexEncode (b : Bytes) :
    hexDecode (hexEncode b) = .ok b := by
  induction b with
  | nil => rfl
  | cons v rest ih =>
      have hHigh : (v >>> 4).toNat < 16 := by
        rw [toNat_high_half]
        have := v.toNat_lt
        omega
      have hLow : (v &&& 0x0f).toNat < 16 := by
        rw [toNat_low_half]
        omega
      have hEncode : hexEncode (v :: rest) =
          hexDigit (v >>> 4).toNat ::
            hexDigit (v &&& 0x0f).toNat :: hexEncode rest := rfl
      rw [hEncode, hexDecode, (hexDigit_spec hHigh).2.2.1,
        (hexDigit_spec hLow).2.2.1]
      simp only [UInt8.ofNat_toNat, byte_halves, ih]
      rfl

/- Decode reads back the byte string Encode wrote. -/
theorem Decode_Encode (b : Bytes) :
    Decode (Encode b) = .ok b := by
  simp [Decode, Encode, has0xPrefix, hexDecode_hexEncode]

end Hexutil

end PlasmaEvm

------------------------------------------------------------
-- Quantities of 64 Bits Read Back
------------------------------------------------------------

namespace PlasmaEvm

namespace Hexutil

/-
  One turn of ParseUint succeeds exactly on a hex digit,
  while the number is below the cutoff, and then appends the
  digit.
-/
theorem parseStep_eq_ok
    {n m : UInt64}
    {c : UInt8} :
    parseStep n c = .ok m ↔
      IsHexDigit c ∧ n.toNat < 2 ^ 60 ∧
        m.toNat =
          n.toNat * 16 + (decodeNibble c).toNat := by
  rcases parseDigit_spec c with ⟨hBelow, hValue⟩
  unfold parseStep
  cases hDigit : parseDigit c with
  | none =>
      rw [hDigit] at hBelow
      have hNot : ¬ IsHexDigit c := by simpa using hBelow
      simp [hNot]
  | some d =>
      rw [hDigit] at hBelow hValue
      by_cases hHex : IsHexDigit c
      · have hd : d.toNat = (decodeNibble c).toNat :=
          by simpa using hValue hHex
        have hLt : d < 16 := by simpa [hHex] using hBelow
        dsimp only
        rw [if_neg (UInt8.not_le.mpr hLt)]
        by_cases hCut : n ≥ 0x1000000000000000
        · have hBig : ¬ n.toNat < 2 ^ 60 :=
            by simpa [UInt64.le_iff_toNat_le] using hCut
          simp only [hCut, if_true, reduceCtorEq,
            false_iff, not_and]
          intro _ hSmall
          exact absurd hSmall hBig
        · have hSmall : n.toNat < 2 ^ 60 :=
            by simpa [UInt64.le_iff_toNat_le] using hCut
          have hd16 : d.toNat < 16 :=
            UInt8.lt_iff_toNat_lt.mp hLt
          have hMul : (n * 16).toNat = n.toNat * 16 := by
            rw [UInt64.toNat_mul]
            exact Nat.mod_eq_of_lt (by simp; omega)
          have hAdd : (n * 16 + d.toUInt64).toNat =
            n.toNat * 16 + d.toNat := by
            rw [UInt64.toNat_add, hMul,
              UInt8.toNat_toUInt64]
            exact Nat.mod_eq_of_lt (by omega)
          have hFits : ¬ (n * 16 + d.toUInt64 < n * 16 ∨
            n * 16 + d.toUInt64 > 0xFFFFFFFFFFFFFFFF) := by
            have hTop := (n * 16 + d.toUInt64).toNat_lt
            simp only [gt_iff_lt, UInt64.lt_iff_toNat_lt,
              hAdd, hMul, not_or]
            constructor
            · omega
            · simp only [UInt64.reduceToNat]
              omega
          rw [if_neg hCut, if_neg hFits,
            Except.ok.injEq, ← UInt64.toNat_inj, hAdd, hd]
          simp only [hHex, hSmall, true_and, eq_comm]
      · have hGe : 16 ≤ d := by simpa [hHex] using hBelow
        simp [hHex, hGe]

/-
  The loop of ParseUint: it succeeds exactly on hex digits
  whose number, read on from `n`, stays below 2^64, and
  returns that number.
-/
theorem foldlM_parseStep_eq_ok
    (l : Bytes) :
    ∀ n m : UInt64, l.foldlM parseStep n = .ok m ↔
      (∀ c ∈ l, IsHexDigit c) ∧ Digits.value 16 (n.toNat ::
        nibbles l) < 2 ^ 64 ∧
        m.toNat =
          Digits.value 16 (n.toNat :: nibbles l) := by
  induction l with
  | nil =>
      intro n m
      simp only [List.foldlM_nil, nibbles, List.map_nil,
        Digits.value_cons, List.length_nil,
        pow_zero, mul_one, Digits.value_nil, add_zero]
      constructor
      · intro hOk
        cases hOk
        exact ⟨by simp, n.toNat_lt, rfl⟩
      · rintro ⟨-, -, hm⟩
        rw [UInt64.toNat_inj.mp hm]
        rfl
  | cons c l ih =>
      intro n m
      have hNib : nibbles (c :: l) =
        (decodeNibble c).toNat :: nibbles l := rfl
      rw [Except.foldlM_cons_eq_ok, hNib,
        Digits.value_cons_cons, List.forall_mem_cons]
      constructor
      · rintro ⟨n', hStep, hRest⟩
        rcases parseStep_eq_ok.mp hStep with ⟨hHex, -, hn'⟩
        rw [ih, hn'] at hRest
        rcases hRest with ⟨hAll, hBound, hm⟩
        exact ⟨⟨hHex, hAll⟩, hBound, hm⟩
      · rintro ⟨⟨hHex, hAll⟩, hBound, hm⟩
        have hFirst : n.toNat * 16 +
          (decodeNibble c).toNat < 2 ^ 64 :=
          lt_of_le_of_lt (Digits.le_value_cons
            (by decide) _ _) hBound
        have hNext : (UInt64.ofNat (n.toNat * 16 +
          (decodeNibble c).toNat)).toNat =
            n.toNat * 16 + (decodeNibble c).toNat := by
          rw [UInt64.toNat_ofNat', Nat.mod_eq_of_lt hFirst]
        refine ⟨_, parseStep_eq_ok.mpr ⟨hHex,
          by omega, hNext⟩, ?_⟩
        rw [ih, hNext]
        exact ⟨hAll, hBound, hm⟩

/-
  ParseUint(s, 16, 64) reads a nonempty string of hex digits
  whose value fits in 64 bits.
-/
theorem ParseUint_eq_ok
    {s : Bytes}
    {m : UInt64} :
    ParseUint s = .ok m ↔
      s ≠ [] ∧ (∀ c ∈ s, IsHexDigit c) ∧
        Digits.value 16 (nibbles s) < 2 ^ 64 ∧
        m.toNat = Digits.value 16 (nibbles s) := by
  have hZero : Digits.value 16 ((0 : UInt64).toNat ::
    nibbles s) = Digits.value 16 (nibbles s) := by
    simp [Digits.value_cons]
  unfold ParseUint
  by_cases hEmpty : s = []
  · simp [hEmpty]
  · rw [if_neg (by simpa using hEmpty),
      foldlM_parseStep_eq_ok, hZero]
    simp [hEmpty]

end Hexutil

end PlasmaEvm

------------------------------------------------------------
-- Canonical Quantities
------------------------------------------------------------

namespace PlasmaEvm

namespace Hexutil

/-
  Hex digits of either case, at least one, with no leading
  zero unless they are exactly 0.
-/
def HexDigits (raw : Bytes) : Prop :=
  raw ≠ [] ∧ (∀ c ∈ raw, IsHexDigit c) ∧
    (raw.head? = some '0'.toUInt8 → raw = ['0'.toUInt8])

instance (raw : Bytes) : Decidable (HexDigits raw) :=
  inferInstanceAs (Decidable (_ ∧ _ ∧ _))

/-
  A quantity as the decoders accept it: 0x or 0X, then at
  most `k` such digits.
-/
def Canonical
    (k : Nat)
    (s : Bytes) : Prop :=
  ∃ x raw, s = '0'.toUInt8 :: x :: raw ∧ (x = 'x'.toUInt8 ∨
    x = 'X'.toUInt8) ∧
    HexDigits raw ∧ raw.length ≤ k

/-
  Go's test for a leading zero, on digits that are there.
-/
theorem leadingZero_iff
    {raw : Bytes}
    (hNe : raw ≠ []) :
    (1 < raw.length → raw.head? ≠ some '0'.toUInt8) ↔
      (raw.head? = some '0'.toUInt8 →
        raw = ['0'.toUInt8]) := by
  rcases raw with _ | ⟨c, _ | ⟨d, rest⟩⟩
  · exact absurd rfl hNe
  · simp
  · simp

/-
  checkNumber passes the digits behind 0x or 0X, when there
  are some and no leading zero.
-/
theorem checkNumber_eq_ok
    {input raw : Bytes} :
    checkNumber input = .ok raw ↔
      ∃ x, input = '0'.toUInt8 :: x :: raw ∧
        (x = 'x'.toUInt8 ∨ x = 'X'.toUInt8) ∧
        raw ≠ [] ∧ (raw.head? = some '0'.toUInt8 →
          raw = ['0'.toUInt8]) := by
  rcases input with _ | ⟨a, _ | ⟨x, rest⟩⟩
  · simp [checkNumber]
  · simp [checkNumber, has0xPrefix]
  · simp [checkNumber, has0xPrefix]
    constructor
    · rintro ⟨⟨ha, hx⟩, hNe, hLead, rfl⟩
      exact ⟨⟨ha, rfl⟩, or_iff_not_imp_left.mpr hx, hNe,
        (leadingZero_iff hNe).mp hLead⟩
    · rintro ⟨⟨ha, rfl⟩, hx, hNe, hLead⟩
      exact ⟨⟨ha, or_iff_not_imp_left.mp hx⟩, hNe,
        (leadingZero_iff hNe).mpr hLead, rfl⟩

end Hexutil

end PlasmaEvm

------------------------------------------------------------
-- Digits Written and Read
------------------------------------------------------------

namespace PlasmaEvm

namespace Hexutil

theorem nibbles_lowerHex (n : Nat) :
    nibbles (lowerHex n) = Digits.ofNat 16 n := by
  unfold nibbles lowerHex
  rw [List.map_map]
  conv_rhs => rw [← List.map_id (Digits.ofNat 16 n)]
  apply List.map_congr_left
  intro d hd
  exact (hexDigit_spec (Digits.lt_of_mem_ofNat
    (by decide) hd)).2.1

theorem isHexDigit_of_mem_lowerHex
    {n : Nat}
    {c : UInt8}
    (hc : c ∈ lowerHex n) :
    IsHexDigit c := by
  rcases List.mem_map.mp hc with ⟨d, hd, rfl⟩
  exact (hexDigit_spec (Digits.lt_of_mem_ofNat (by decide) hd)).1

theorem head_lowerHex_ne_zero (n : Nat) :
    (lowerHex n).head? ≠ some '0'.toUInt8 := by
  unfold lowerHex
  rw [List.head?_map]
  cases hHead : (Digits.ofNat 16 n).head? with
  | none => simp
  | some d =>
      have hd : d ∈ Digits.ofNat 16 n :=
        List.mem_of_mem_head? hHead
      have hNe : d ≠ 0 := fun h =>
        Digits.head_ofNat_ne_zero 16 n (h ▸ hHead)
      have hNotZero := mt (hexDigit_spec
        (Digits.lt_of_mem_ofNat (by decide) hd)).2.2.2.mp hNe
      simpa using hNotZero

/-
  What strconv writes for a number are digits the decoders
  accept, and read back as it.
-/
theorem formatUint_hexDigits (n : Nat) :
    HexDigits (formatUint n) ∧ Digits.value 16 (nibbles
      (formatUint n)) = n := by
  unfold formatUint
  split
  · rename_i hZero
    subst hZero
    refine ⟨⟨List.cons_ne_nil _ _, ?_, fun _ => rfl⟩, rfl⟩
    intro c hc
    rw [List.mem_singleton.mp hc]
    exact Or.inl ⟨UInt8.le_refl _, by decide⟩
  · rename_i hZero
    refine ⟨⟨?_, fun c hc =>
      isHexDigit_of_mem_lowerHex hc, ?_⟩, ?_⟩
    · have hDigits := Digits.ofNat_ne_nil (b := 16)
        (Nat.pos_of_ne_zero hZero)
      intro hNil
      exact hDigits (List.map_eq_nil_iff.mp hNil)
    · exact fun hHead =>
        absurd hHead (head_lowerHex_ne_zero n)
    · rw [nibbles_lowerHex, Digits.value_ofNat]

/- A leading digit other than 0 has a value other than 0. -/
theorem head_nibbles_ne_zero
    {raw : Bytes}
    (hHex : ∀ c ∈ raw, IsHexDigit c)
    (hHead : raw.head? ≠ some '0'.toUInt8) :
    (nibbles raw).head? ≠ some 0 := by
  rcases raw with _ | ⟨c, rest⟩
  · simp [nibbles]
  · have hc : c ≠ '0'.toUInt8 := fun h =>
      hHead (by rw [h]; rfl)
    have hNib := mt (decodeNibble_eq_zero_iff
      (hHex c List.mem_cons_self)).mp hc
    simpa [nibbles] using hNib

theorem nibbles_lt
    {raw : Bytes}
    (hHex : ∀ c ∈ raw, IsHexDigit c) :
    ∀ d ∈ nibbles raw, d < 16 := by
  intro d hd
  rcases List.mem_map.mp hd with ⟨c, hc, rfl⟩
  exact toNat_decodeNibble_lt (hHex c hc)

/-
  Writing back what accepted digits read as gives the digits
  in lower case: fmt and strconv write a number as it was
  read.
-/
theorem formatUint_value
    {raw : Bytes}
    (hDigits : HexDigits raw) :
    formatUint (Digits.value 16 (nibbles raw)) =
      raw.map toLower := by
  rcases hDigits with ⟨hNe, hHex, hLead⟩
  by_cases hHead : raw.head? = some '0'.toUInt8
  · rw [hLead hHead]
    rfl
  · have hOfNat : Digits.ofNat 16 (Digits.value 16
      (nibbles raw)) = nibbles raw :=
      Digits.ofNat_value (by decide) (nibbles_lt hHex)
        (head_nibbles_ne_zero hHex hHead)
    have hValue : Digits.value 16 (nibbles raw) ≠ 0 := by
      intro hZero
      rw [hZero, Digits.ofNat_zero] at hOfNat
      exact hNe (List.map_eq_nil_iff.mp hOfNat.symm)
    rw [formatUint, if_neg hValue, lowerHex, hOfNat,
      nibbles, List.map_map]
    apply List.map_congr_left
    intro c hc
    exact hexDigit_decodeNibble (hHex c hc)

/-
  Accepted digits fit in `k` digits exactly when their value
  is below 16^k.
-/
theorem length_le_iff_value_lt
    {raw : Bytes}
    (hDigits : HexDigits raw)
    {k : Nat}
    (hk : 0 < k) :
    raw.length ≤ k ↔
      Digits.value 16 (nibbles raw) < 16 ^ k := by
  rcases hDigits with ⟨hNe, hHex, hLead⟩
  by_cases hHead : raw.head? = some '0'.toUInt8
  · rw [hLead hHead]
    have hPos : 0 < 16 ^ k := Nat.pow_pos (by decide)
    simp only [List.length_singleton]
    exact ⟨fun _ => hPos, fun _ => hk⟩
  · have hOfNat : Digits.ofNat 16 (Digits.value 16
      (nibbles raw)) = nibbles raw :=
      Digits.ofNat_value (by decide) (nibbles_lt hHex)
        (head_nibbles_ne_zero hHex hHead)
    rw [← Digits.length_ofNat_le_iff (by decide), hOfNat,
      nibbles, List.length_map]

end Hexutil

end PlasmaEvm

------------------------------------------------------------
-- Quantities of 64 Bits Decoded
------------------------------------------------------------

namespace PlasmaEvm

namespace Hexutil

theorem sixteen_pow_sixteen :
    (16 : Nat) ^ 16 = 2 ^ 64 := by norm_num

/-
  Lower-casing a canonical quantity lower-cases its prefix
  to 0x.
-/
theorem map_toLower_cons_cons
    {x : UInt8}
    (hx : x = 'x'.toUInt8 ∨ x = 'X'.toUInt8)
    (raw : Bytes) :
    ('0'.toUInt8 :: x :: raw).map toLower = ['0'.toUInt8,
      'x'.toUInt8] ++ raw.map toLower := by
  rcases hx with rfl | rfl <;> rfl

/-
  DecodeUint64 succeeds on a canonical quantity of at most
  16 digits, with what they read as.
-/
theorem DecodeUint64_eq_ok
    {s : Bytes}
    {u : UInt64} :
    DecodeUint64 s = .ok u ↔
      ∃ x raw, s = '0'.toUInt8 :: x :: raw ∧
        (x = 'x'.toUInt8 ∨ x = 'X'.toUInt8) ∧
        HexDigits raw ∧ raw.length ≤ 16 ∧
          u.toNat = Digits.value 16 (nibbles raw) := by
  have hSteps : DecodeUint64 s = .ok u ↔
      ∃ raw, checkNumber s = .ok raw ∧
        ParseUint raw = .ok u := by
    unfold DecodeUint64
    cases checkNumber s with
    | error e => simp [bind, Except.bind]
    | ok raw =>
        cases hParse : ParseUint raw <;> simp [bind,
          Except.bind, hParse, pure, Except.pure, throw,
          throwThe, MonadExceptOf.throw]
  rw [hSteps]
  constructor
  · rintro ⟨raw, hCheck, hParse⟩
    rcases checkNumber_eq_ok.mp hCheck
      with ⟨x, rfl, hx, hNe, hLead⟩
    rcases ParseUint_eq_ok.mp hParse
      with ⟨-, hHex, hBound, hu⟩
    have hDigits : HexDigits raw := ⟨hNe, hHex, hLead⟩
    have hLen : raw.length ≤ 16 := by
      rw [length_le_iff_value_lt hDigits (by decide),
        sixteen_pow_sixteen]
      exact hBound
    exact ⟨x, raw, rfl, hx, hDigits, hLen, hu⟩
  · rintro ⟨x, raw, rfl, hx, hDigits, hLen, hu⟩
    have hBound := (length_le_iff_value_lt hDigits
      (by decide)).mp hLen
    rw [sixteen_pow_sixteen] at hBound
    exact ⟨raw, checkNumber_eq_ok.mpr ⟨x, rfl, hx,
      hDigits.1, hDigits.2.2⟩,
      ParseUint_eq_ok.mpr ⟨hDigits.1,
        hDigits.2.1, hBound, hu⟩⟩

theorem DecodeUint64_EncodeUint64 (u : UInt64) :
    DecodeUint64 (EncodeUint64 u) = .ok u := by
  rcases formatUint_hexDigits u.toNat with ⟨hDigits, hValue⟩
  have hLen : (formatUint u.toNat).length ≤ 16 := by
    rw [length_le_iff_value_lt hDigits (by decide), hValue,
      sixteen_pow_sixteen]
    exact u.toNat_lt
  exact DecodeUint64_eq_ok.mpr ⟨'x'.toUInt8,
    formatUint u.toNat, rfl, Or.inl rfl, hDigits, hLen,
    hValue.symm⟩

theorem DecodeUint64_ok_iff
    (s : Bytes) :
    (∃ u, DecodeUint64 s = .ok u) ↔ Canonical 16 s := by
  constructor
  · rintro ⟨u, hDecode⟩
    rcases DecodeUint64_eq_ok.mp hDecode
      with ⟨x, raw, hs, hx, hDigits, hLen, -⟩
    exact ⟨x, raw, hs, hx, hDigits, hLen⟩
  · rintro ⟨x, raw, hs, hx, hDigits, hLen⟩
    have hBound := (length_le_iff_value_lt hDigits
      (by decide)).mp hLen
    rw [sixteen_pow_sixteen] at hBound
    refine ⟨UInt64.ofNat (Digits.value 16 (nibbles raw)),
      DecodeUint64_eq_ok.mpr ⟨x, raw, hs, hx,
        hDigits, hLen, ?_⟩⟩
    rw [UInt64.toNat_ofNat', Nat.mod_eq_of_lt hBound]

/-
  EncodeUint64 writes a decoded quantity back as it was
  written, in lower case.
-/
theorem EncodeUint64_of_DecodeUint64
    {s : Bytes}
    {u : UInt64}
    (hDecode : DecodeUint64 s = .ok u) :
    EncodeUint64 u = s.map toLower := by
  rcases DecodeUint64_eq_ok.mp hDecode
    with ⟨x, raw, rfl, hx, hDigits, -, hu⟩
  rw [map_toLower_cons_cons hx, EncodeUint64, hu,
    formatUint_value hDigits]

end Hexutil

end PlasmaEvm

------------------------------------------------------------
-- Words of a Big Number
------------------------------------------------------------

namespace PlasmaEvm

namespace Hexutil

section Words

variable {wordBits bigWordNibbles : Nat}

/-
  One turn of the inner loop appends a hex digit to the
  word, modulo the word size.
-/
theorem fillWord_eq_ok
    {w r : Nat}
    {c : UInt8} :
    fillWord wordBits w c = .ok r ↔
      IsHexDigit c ∧ r = (w * 16 +
        (decodeNibble c).toNat) % 2 ^ wordBits := by
  unfold fillWord
  by_cases hHex : IsHexDigit c
  · rw [if_neg (decodeNibble_ne_badNibble hHex),
      Except.ok.injEq, Nat.mod_add_mod]
    simp [hHex, eq_comm]
  · rw [if_pos (decodeNibble_of_not_isHexDigit hHex)]
    simp [hHex]

/-
  The inner loop reads the word's digits in big.Word
  arithmetic, i.e. modulo 2^wordBits.
-/
theorem foldlM_fillWord_eq_ok
    (seg : Bytes) :
    ∀ w r, w < 2 ^ wordBits →
      (seg.foldlM (fillWord wordBits) w = .ok r ↔
        (∀ c ∈ seg, IsHexDigit c) ∧
          r = Digits.value 16 (w ::
          nibbles seg) % 2 ^ wordBits) := by
  induction seg with
  | nil =>
      intro w r hw
      simp [nibbles, Digits.value_cons, Nat.mod_eq_of_lt hw,
        pure, Except.pure, eq_comm]
  | cons c seg ih =>
      intro w r hw
      have hNib : nibbles (c :: seg) =
        (decodeNibble c).toNat :: nibbles seg := rfl
      have hNext : (w * 16 + (decodeNibble c).toNat) % 2 ^
        wordBits < 2 ^ wordBits :=
        Nat.mod_lt _ (Nat.pow_pos (by decide))
      rw [Except.foldlM_cons_eq_ok, hNib,
        List.forall_mem_cons]
      constructor
      · rintro ⟨w', hStep, hRest⟩
        rcases fillWord_eq_ok.mp hStep with ⟨hHex, rfl⟩
        rcases (ih _ r hNext).mp hRest with ⟨hAll, rfl⟩
        refine ⟨⟨hHex, hAll⟩, ?_⟩
        rw [Digits.value_cons_mod, Digits.value_cons_cons]
      · rintro ⟨⟨hHex, hAll⟩, rfl⟩
        refine ⟨_, fillWord_eq_ok.mpr ⟨hHex, rfl⟩,
          (ih _ _ hNext).mpr ⟨hAll, ?_⟩⟩
        rw [Digits.value_cons_mod, Digits.value_cons_cons]

/-
  The digits of `count` words ending at `stop` are those of
  the `count - 1` words before and the last word's.
-/
theorem segment_succ
    (raw : Bytes)
    {stop count : Nat} :
    (raw.take stop).drop (stop - (count + 1) * bigWordNibbles) =
      (raw.take (stop - bigWordNibbles)).drop (stop -
        bigWordNibbles - count * bigWordNibbles) ++
        (raw.take stop).drop (stop - bigWordNibbles) := by
  have hFirst : stop - (count + 1) * bigWordNibbles =
      stop - bigWordNibbles - count * bigWordNibbles := by
    rw [Nat.succ_mul, Nat.sub_sub,
      Nat.add_comm (count * bigWordNibbles)]
  have hSplit : stop - (stop - bigWordNibbles - count *
    bigWordNibbles) =
      (stop - bigWordNibbles - (stop - bigWordNibbles -
        count * bigWordNibbles)) +
        (stop - (stop - bigWordNibbles)) := by
    omega
  have hStart : stop - bigWordNibbles - count * bigWordNibbles +
      (stop - bigWordNibbles - (stop - bigWordNibbles -
        count * bigWordNibbles)) =
      stop - bigWordNibbles := by
    omega
  rw [hFirst, List.drop_take, List.drop_take,
    List.drop_take, hSplit, List.take_add,
    List.drop_drop, hStart]

theorem length_lastWord
    (raw : Bytes)
    {stop : Nat}
    (hStop : stop ≤ raw.length) :
    ((raw.take stop).drop (stop - bigWordNibbles)).length =
      min stop bigWordNibbles := by
  rw [List.length_drop, List.length_take, min_eq_left hStop]
  omega

/-
  The outer loop of DecodeBig: the words it fills read, as
  SetBits puts them together, the digits they cover; this
  needs a word of exactly `bigWordNibbles` digits, 16 ^
  bigWordNibbles = 2 ^ wordBits.
-/
theorem fillWords_eq_ok
    (hWord : 16 ^ bigWordNibbles = 2 ^ wordBits)
    (raw : Bytes) :
    ∀ count stop ws, stop ≤ raw.length →
      fillWords wordBits bigWordNibbles raw count stop = .ok ws →
        (∀ c ∈ (raw.take stop).drop (stop - count *
          bigWordNibbles), IsHexDigit c) ∧
          SetBits wordBits ws =
            Digits.value 16 (nibbles ((raw.take stop).drop
              (stop - count * bigWordNibbles))) := by
  intro count
  induction count with
  | zero =>
      intro stop ws _ hFill
      simp only [fillWords, Except.ok.injEq] at hFill
      subst hFill
      simp [SetBits, nibbles]
  | succ count ih =>
      intro stop ws hStop hFill
      simp only [fillWords, Except.bind_eq_ok,
        Except.pure_eq_ok] at hFill
      rcases hFill with ⟨w, hFirst, ws', hRest, rfl⟩
      have hStart : stop - bigWordNibbles ≤
        raw.length := by omega
      have hLast :=
        @length_lastWord bigWordNibbles raw stop hStop
      rcases (foldlM_fillWord_eq_ok _ 0 w (Nat.pow_pos
        (by decide))).mp hFirst with ⟨hLastHex, rfl⟩
      rcases ih _ ws' hStart hRest
        with ⟨hRestHex, hRestValue⟩
      have hFits : Digits.value 16 (nibbles
        ((raw.take stop).drop (stop - bigWordNibbles))) <
          2 ^ wordBits := by
        calc Digits.value 16 (nibbles ((raw.take stop).drop
          (stop - bigWordNibbles)))
            < 16 ^ (nibbles ((raw.take stop).drop (stop -
              bigWordNibbles))).length :=
              Digits.value_lt (by decide) (nibbles_lt hLastHex)
          _ ≤ 16 ^ bigWordNibbles := by
              apply Nat.pow_le_pow_right (by decide)
              rw [length_nibbles, hLast]
              exact min_le_right _ _
          _ = 2 ^ wordBits := hWord
      rw [segment_succ raw]
      refine ⟨List.forall_mem_append.mpr
        ⟨hRestHex, hLastHex⟩, ?_⟩
      rw [SetBits, hRestValue, Digits.value_cons, zero_mul,
        zero_add, Nat.mod_eq_of_lt hFits,
        nibbles_append, Digits.value_append, length_nibbles,
          hLast, Nat.add_comm]
      by_cases hFull : bigWordNibbles ≤ stop
      · rw [min_eq_right hFull, hWord, Nat.mul_comm]
      · have hZero : stop - bigWordNibbles = 0 := by omega
        simp [hZero, nibbles]

/-
  The outer loop fills every word when the digits it covers
  are hex digits.
-/
theorem fillWords_ok_of_isHexDigit
    (raw : Bytes) :
    ∀ count stop, stop ≤ raw.length →
      (∀ c ∈ (raw.take stop).drop (stop - count *
        bigWordNibbles), IsHexDigit c) →
        ∃ ws, fillWords wordBits bigWordNibbles raw count
          stop = .ok ws := by
  intro count
  induction count with
  | zero =>
      intro stop _ _
      exact ⟨[], rfl⟩
  | succ count ih =>
      intro stop hStop hHex
      rw [segment_succ raw, List.forall_mem_append] at hHex
      rcases ih _ (by omega) hHex.1 with ⟨ws, hRest⟩
      have hFirst := (@foldlM_fillWord_eq_ok wordBits
        ((raw.take stop).drop (stop - bigWordNibbles))
        0 _ (Nat.pow_pos (by decide))).mpr ⟨hHex.2, rfl⟩
      refine ⟨Digits.value 16 (0 ::
        nibbles ((raw.take stop).drop (stop - bigWordNibbles))) %
        2 ^ wordBits :: ws, ?_⟩
      simp only [fillWords, Except.bind_eq_ok,
        Except.pure_eq_ok]
      exact ⟨_, hFirst, ws, hRest, rfl⟩

end Words

end Hexutil

end PlasmaEvm

------------------------------------------------------------
-- Quantities of 256 Bits Decoded
------------------------------------------------------------

namespace PlasmaEvm

namespace Hexutil

theorem sixteen_pow_sixtyfour :
    (16 : Nat) ^ 64 = 2 ^ 256 := by norm_num

/-
  On the platforms Go has, init picks words of exactly
  `bigWordNibbles` digits.
-/
theorem initBigWordNibbles_spec
    {wordBits bigWordNibbles : Nat}
    (hWord : wordBits = 32 ∨ wordBits = 64)
    (hInit : initBigWordNibbles wordBits =
      some bigWordNibbles) :
    0 < bigWordNibbles ∧
      16 ^ bigWordNibbles = 2 ^ wordBits := by
  rcases hWord with rfl | rfl
  · have hTwo : initBigWordNibbles 32 = some 8 := rfl
    rw [hTwo, Option.some.injEq] at hInit
    subst hInit
    norm_num
  · have hOne : initBigWordNibbles 64 = some 16 := rfl
    rw [hOne, Option.some.injEq] at hInit
    subst hInit
    norm_num

/-
  EncodeBig writes a number that is not negative as 0x and
  strconv's digits.
-/
theorem EncodeBig_ofNat (n : Nat) :
    EncodeBig n = ['0'.toUInt8,
      'x'.toUInt8] ++ formatUint n := by
  unfold EncodeBig formatUint
  by_cases hZero : n = 0
  · subst hZero
    rfl
  · have hNonneg : ¬ (n : Int) < 0 := by omega
    simp [hZero, hNonneg]

section Big

variable {wordBits bigWordNibbles : Nat}

/- The words DecodeBig makes cover all the digits. -/
theorem segment_all
    (raw : Bytes)
    (hPos : 0 < bigWordNibbles) :
    (raw.take raw.length).drop
        (raw.length - (raw.length / bigWordNibbles + 1) *
          bigWordNibbles) = raw := by
  have hCover : raw.length < (raw.length / bigWordNibbles +
    1) * bigWordNibbles := by
    rw [Nat.mul_comm]
    exact Nat.lt_mul_div_succ raw.length hPos
  rw [List.take_length, Nat.sub_eq_zero_of_le hCover.le,
    List.drop_zero]

/-
  DecodeBig succeeds on a canonical quantity of at most 64
  digits, with what they read as.
-/
theorem DecodeBig_eq_ok
    (hPos : 0 < bigWordNibbles)
    (hWord : 16 ^ bigWordNibbles = 2 ^ wordBits)
    {s : Bytes}
    {n : Nat} :
    DecodeBig wordBits bigWordNibbles s = .ok n ↔
      ∃ x raw, s = '0'.toUInt8 :: x :: raw ∧
        (x = 'x'.toUInt8 ∨ x = 'X'.toUInt8) ∧
        HexDigits raw ∧ raw.length ≤ 64 ∧
          n = Digits.value 16 (nibbles raw) := by
  have hSteps : DecodeBig wordBits bigWordNibbles s = .ok n ↔
      ∃ raw, checkNumber s = .ok raw ∧ raw.length ≤ 64 ∧
        ∃ ws, fillWords wordBits bigWordNibbles raw
          (raw.length / bigWordNibbles + 1)
          raw.length = .ok ws ∧
            SetBits wordBits ws = n := by
    simp [DecodeBig]
  rw [hSteps]
  constructor
  · rintro ⟨raw, hCheck, hLen, ws, hFill, rfl⟩
    rcases checkNumber_eq_ok.mp hCheck
      with ⟨x, rfl, hx, hNe, hLead⟩
    rcases fillWords_eq_ok hWord raw _ _ ws le_rfl hFill
      with ⟨hHex, hValue⟩
    rw [segment_all raw hPos] at hHex hValue
    exact ⟨x, raw, rfl, hx, ⟨hNe, hHex,
      hLead⟩, hLen, hValue⟩
  · rintro ⟨x, raw, rfl, hx, hDigits, hLen, rfl⟩
    have hHex : ∀ c ∈ (raw.take raw.length).drop
        (raw.length - (raw.length / bigWordNibbles + 1) *
          bigWordNibbles), IsHexDigit c := by
      rw [segment_all raw hPos]
      exact hDigits.2.1
    rcases @fillWords_ok_of_isHexDigit wordBits
      bigWordNibbles raw _ _ le_rfl hHex with ⟨ws, hFill⟩
    have hValue := (fillWords_eq_ok hWord raw _ _ ws
      le_rfl hFill).2
    rw [segment_all raw hPos] at hValue
    exact ⟨raw, checkNumber_eq_ok.mpr ⟨x, rfl, hx,
      hDigits.1, hDigits.2.2⟩, hLen, ws, hFill, hValue⟩

theorem DecodeBig_EncodeBig
    (hPos : 0 < bigWordNibbles)
    (hWord : 16 ^ bigWordNibbles = 2 ^ wordBits)
    {n : Nat}
    (hn : n < 2 ^ 256) :
    DecodeBig wordBits bigWordNibbles (EncodeBig n) = .ok n := by
  rcases formatUint_hexDigits n with ⟨hDigits, hValue⟩
  have hLen : (formatUint n).length ≤ 64 := by
    rw [length_le_iff_value_lt hDigits (by decide), hValue,
      sixteen_pow_sixtyfour]
    exact hn
  rw [EncodeBig_ofNat]
  exact (DecodeBig_eq_ok hPos hWord).mpr
    ⟨'x'.toUInt8, formatUint n, rfl, Or.inl rfl, hDigits,
      hLen, hValue.symm⟩

theorem DecodeBig_ok_iff
    (hPos : 0 < bigWordNibbles)
    (hWord : 16 ^ bigWordNibbles = 2 ^ wordBits)
    (s : Bytes) :
    (∃ n, DecodeBig wordBits bigWordNibbles s = .ok n) ↔
      Canonical 64 s := by
  constructor
  · rintro ⟨n, hDecode⟩
    rcases (DecodeBig_eq_ok hPos hWord).mp hDecode
      with ⟨x, raw, hs, hx, hDigits, hLen, -⟩
    exact ⟨x, raw, hs, hx, hDigits, hLen⟩
  · rintro ⟨x, raw, hs, hx, hDigits, hLen⟩
    exact ⟨_, (DecodeBig_eq_ok hPos hWord).mpr ⟨x, raw, hs,
      hx, hDigits, hLen, rfl⟩⟩

/-
  EncodeBig writes a decoded quantity back as it was
  written, in lower case.
-/
theorem EncodeBig_of_DecodeBig
    (hPos : 0 < bigWordNibbles)
    (hWord : 16 ^ bigWordNibbles = 2 ^ wordBits)
    {s : Bytes}
    {n : Nat}
    (hDecode : DecodeBig wordBits bigWordNibbles s = .ok n) :
    EncodeBig n = s.map toLower := by
  rcases (DecodeBig_eq_ok hPos hWord).mp hDecode
    with ⟨x, raw, rfl, hx, hDigits, -, rfl⟩
  rw [map_toLower_cons_cons hx, EncodeBig_ofNat,
    formatUint_value hDigits]

end Big

/-
  The codecs of hexutil are inverse on canonical forms, on
  either word size of the platform, with the nibbles a word
  that init picks.
-/
theorem hex_codecs_inverse
    (wordBits bigWordNibbles : Nat)
    (hWord : wordBits = 32 ∨ wordBits = 64)
    (hInit : initBigWordNibbles wordBits =
      some bigWordNibbles) :
    (∀ n : Nat, n < 2 ^ 256 → DecodeBig wordBits
      bigWordNibbles (EncodeBig n) = .ok n) ∧
      (∀ u : UInt64,
        DecodeUint64 (EncodeUint64 u) = .ok u) ∧
      (∀ b : Bytes, Decode (Encode b) = .ok b) ∧
      (∀ s : Bytes, ((∃ n, DecodeBig wordBits bigWordNibbles
        s = .ok n) ↔ Canonical 64 s) ∧
        ∀ n, DecodeBig wordBits bigWordNibbles s = .ok n →
          EncodeBig n = s.map toLower) ∧
      (∀ s : Bytes, ((∃ u, DecodeUint64 s = .ok u) ↔
        Canonical 16 s) ∧
        ∀ u, DecodeUint64 s = .ok u →
          EncodeUint64 u = s.map toLower) := by
  rcases initBigWordNibbles_spec hWord hInit
    with ⟨hPos, hPow⟩
  exact ⟨fun n hn => DecodeBig_EncodeBig hPos hPow hn,
    DecodeUint64_EncodeUint64, Decode_Encode,
    fun s => ⟨DecodeBig_ok_iff hPos hPow s, fun n hDecode =>
      EncodeBig_of_DecodeBig hPos hPow hDecode⟩,
    fun s => ⟨DecodeUint64_ok_iff s, fun u hDecode =>
      EncodeUint64_of_DecodeUint64 hDecode⟩⟩

/-
  On a 64-bit platform, where init picks 16 nibbles a word.
-/
theorem hex_codecs_inverse_on_64_bit_words :
    ((64 = 32 ∨ 64 = 64) ∧
      initBigWordNibbles 64 = some 16) ∧
      DecodeBig 64 16 (EncodeBig 255) = .ok 255 :=
  ⟨⟨Or.inr rfl, rfl⟩, (hex_codecs_inverse 64 16
    (Or.inr rfl) rfl).1 255 (by norm_num)⟩

end Hexutil

end PlasmaEvm
