import Mathlib.Data.Nat.Digits.Lemmas

/-
  Big-endian digit strings of natural numbers in a base `b`.
  `Digits.value` reads a string of digits, leading zeros
  included, and `Digits.ofNat` writes the shortest one, with
  no leading zero and none at all for 0.  Reading splits
  over an append, reading back the shortest string gives the
  number, and a string of digits below `b` with no leading
  zero is the shortest string of what it reads as.

  The facts come from Mathlib's `Nat.digits`, read in
  reverse.

  Key statements include:
    * `Digits.value_append`, `Digits.value_lt`
    * `Digits.value_ofNat`, `Digits.ofNat_value`
    * `Digits.length_ofNat_le_iff`
-/

------------------------------------------------------------
-- Reading Digits
------------------------------------------------------------

namespace Digits

/- The number a big-endian string of digits stands for. -/
def value
    (b : Nat)
    (l : List Nat) : Nat :=
  l.foldl (fun acc d => acc * b + d) 0

/- The shortest big-endian digits of `n`. -/
def ofNat (b n : Nat) : List Nat :=
  (Nat.digits b n).reverse

@[simp] theorem value_nil (b : Nat) : value b [] = 0 := rfl

theorem value_append_singleton
    (b : Nat)
    (l : List Nat)
    (d : Nat) :
    value b (l ++ [d]) = value b l * b + d := by
  simp [value, List.foldl_append]

/-
  Reading a string reversed is reading its little-endian
  digits.
-/
theorem value_eq_ofDigits
    (b : Nat)
    (l : List Nat) :
    value b l = Nat.ofDigits b l.reverse := by
  induction l using List.reverseRecOn with
  | nil => rfl
  | append_singleton l d ih =>
      rw [value_append_singleton, ih, List.reverse_append,
        List.reverse_singleton,
        List.singleton_append, Nat.ofDigits_cons]
      ring

/-
  Reading splits over an append: the digits in front count
  `b ^ l₂.length` each.
-/
theorem value_append
    (b : Nat)
    (l₁ l₂ : List Nat) :
    value b (l₁ ++ l₂) = value b l₁ * b ^ l₂.length +
      value b l₂ := by
  rw [value_eq_ofDigits, value_eq_ofDigits,
    value_eq_ofDigits, List.reverse_append,
    Nat.ofDigits_append, List.length_reverse]
  ring

theorem value_cons
    (b x : Nat)
    (l : List Nat) :
    value b (x :: l) = x * b ^ l.length + value b l := by
  rw [← List.singleton_append, value_append]
  simp [value]

/-
  Reading a digit behind a leading number is reading it into
  that number.
-/
theorem value_cons_cons
    (b x y : Nat)
    (l : List Nat) :
    value b (x :: y :: l) = value b ((x * b + y) :: l) := by
  simp [value]

/-
  Only the leading number modulo `m` matters to a reading
  modulo `m`.
-/
theorem value_cons_mod
    (b x m : Nat)
    (l : List Nat) :
    value b ((x % m) :: l) % m = value b (x :: l) % m := by
  rw [value_cons, value_cons, Nat.add_mod, Nat.mul_mod,
    Nat.mod_mod, ← Nat.mul_mod,
    ← Nat.add_mod]

theorem le_value_cons
    {b : Nat}
    (hb : 0 < b)
    (x : Nat)
    (l : List Nat) :
    x ≤ value b (x :: l) := by
  rw [value_cons]
  have hPow : 0 < b ^ l.length := Nat.pow_pos hb
  exact Nat.le_add_right_of_le (Nat.le_mul_of_pos_right x hPow)

theorem value_lt
    {b : Nat}
    (hb : 1 < b)
    {l : List Nat}
    (hDigits : ∀ d ∈ l, d < b) :
    value b l < b ^ l.length := by
  rw [value_eq_ofDigits, ← List.length_reverse]
  exact Nat.ofDigits_lt_base_pow_length hb fun d hd =>
    hDigits d (List.mem_reverse.mp hd)

end Digits

------------------------------------------------------------
-- The Shortest Digits
------------------------------------------------------------

namespace Digits

theorem value_ofNat
    (b n : Nat) :
    value b (ofNat b n) = n := by
  rw [value_eq_ofDigits, ofNat, List.reverse_reverse,
    Nat.ofDigits_digits]

@[simp] theorem ofNat_zero (b : Nat) : ofNat b 0 = [] := by
  simp [ofNat]

theorem ofNat_ne_nil
    {b n : Nat}
    (hn : 0 < n) :
    ofNat b n ≠ [] := by
  simp [ofNat, Nat.digits_ne_nil_iff_ne_zero,
    Nat.pos_iff_ne_zero.mp hn]

theorem lt_of_mem_ofNat
    {b n d : Nat}
    (hb : 1 < b)
    (hd : d ∈ ofNat b n) :
    d < b :=
  Nat.digits_lt_base hb (List.mem_reverse.mp hd)

theorem length_ofNat_le_iff
    {b : Nat}
    (hb : 1 < b)
    (k n : Nat) :
    (ofNat b n).length ≤ k ↔ n < b ^ k := by
  rw [ofNat, List.length_reverse]
  exact Nat.digits_length_le_iff hb n

/- The shortest digits start with no zero. -/
theorem head_ofNat_ne_zero
    (b n : Nat) :
    (ofNat b n).head? ≠ some 0 := by
  rcases Nat.eq_zero_or_pos n with hZero | hPos
  · simp [hZero]
  · have hNe : n ≠ 0 := Nat.pos_iff_ne_zero.mp hPos
    have hDigits : Nat.digits b n ≠ [] :=
      Nat.digits_ne_nil_iff_ne_zero.mpr hNe
    rw [ofNat, List.head?_reverse,
      List.getLast?_eq_some_getLast hDigits]
    intro hHead
    exact Nat.getLast_digit_ne_zero b hNe (Option.some.inj hHead)

/-
  Digits below the base with no leading zero are the
  shortest digits of what they read as.
-/
theorem ofNat_value
    {b : Nat}
    (hb : 1 < b)
    {l : List Nat}
    (hDigits : ∀ d ∈ l, d < b)
    (hHead : l.head? ≠ some 0) :
    ofNat b (value b l) = l := by
  have hLittle : Nat.digits b (Nat.ofDigits b l.reverse) =
    l.reverse := by
    apply Nat.digits_ofDigits b hb
    · exact fun d hd => hDigits d (List.mem_reverse.mp hd)
    · intro hNe
      rw [List.getLast_reverse]
      intro hZero
      apply hHead
      rw [List.head?_eq_some_head (by simpa using hNe), hZero]
  rw [ofNat, value_eq_ofDigits, hLittle,
    List.reverse_reverse]

end Digits
