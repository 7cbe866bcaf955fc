import PlasmaEvm.Trie.Node

/-
  The key encodings of the trie (encoding.go) undo one
  another.  A byte is its high and its low nibble, and
  decodeNibbles packs the two back; a hex key is a body of
  nibbles below 16 with the terminator 16 at the end or not,
  and its compact form is a flag byte, holding the
  terminator bit, the odd-length bit and for an odd body its
  first nibble, followed by the rest of the body two nibbles
  to a byte.

  compactToHex reads the flag back as the high nibble of the
  first byte: below 2 means no terminator, and an even flag
  chops the padding nibble as well as the flag.  The compact
  forms hexToCompact produces, from any nibble list, are
  those whose flag is below 4 and whose padding nibble is 0
  when the flag is even; on these, hexToCompact after
  compactToHex gives the compact form back.

  Key definitions include:
    * `Trie.terminatorFlag`, `Trie.oddFlag`,
      `Trie.compactBody`, `Trie.CompactForm`

  Key statements include:
    * `Trie.decodeNibbles_flatMap`,
      `Trie.flatMap_decodeNibbles`
    * `Trie.hexToCompact_even`, `Trie.hexToCompact_odd`,
      `Trie.compactToHex_cons`
    * `Trie.hexToKeybytes_keybytesToHex`,
      `Trie.compactToHex_hexToCompact`,
      `Trie.hexToCompact_compactToHex`
    * `Trie.key_encodings_inverse`
-/

------------------------------------------------------------
-- Bytes as Nibble Pairs
------------------------------------------------------------

namespace PlasmaEvm

namespace Trie

theorem keybytesToHex_eq (str : Bytes) :
    keybytesToHex str = str.flatMap nibblesOf ++ [16] :=
  rfl

/-
  Two nibbles below 16 pack into the byte 16 * high + low.
-/
theorem toNat_pack :
    ∀ a < 16, ∀ b < 16, (UInt8.ofNat a <<<
      4 ||| UInt8.ofNat b).toNat = 16 * a + b := by
  decide

/- Packing the two nibbles of a byte gives the byte. -/
theorem pack_nibblesOf (b : UInt8) :
    UInt8.ofNat (b.toNat / 16) <<<
      4 ||| UInt8.ofNat (b.toNat % 16) = b := by
  have hHigh : b.toNat / 16 < 16 := by
    have := UInt8.toNat_lt b
    omega
  have hLow : b.toNat % 16 < 16 :=
    Nat.mod_lt _ (by norm_num)
  apply UInt8.toNat_inj.mp
  rw [toNat_pack _ hHigh _ hLow]
  omega

/-
  The nibbles of the byte two nibbles below 16 pack into are
  the two.
-/
theorem nibblesOf_pack
    (a b : Nibble)
    (ha : a.val < 16)
    (hb : b.val < 16) :
    nibblesOf (UInt8.ofNat a.val <<<
      4 ||| UInt8.ofNat b.val) = [a, b] := by
  have hPack := toNat_pack a.val ha b.val hb
  simp only [nibblesOf, hPack, List.cons.injEq, and_true]
  constructor
  · ext
    simp only
    omega
  · ext
    simp only
    omega

@[simp]
theorem decodeNibbles_nibblesOf_append
    (b : UInt8)
    (l : List Nibble) :
    decodeNibbles (nibblesOf b ++ l) =
      b :: decodeNibbles l := by
  simp only [nibblesOf, List.cons_append, List.nil_append,
    decodeNibbles, pack_nibblesOf]

/- decodeNibbles undoes the nibbles of a byte string. -/
theorem decodeNibbles_flatMap (str : Bytes) :
    decodeNibbles (str.flatMap nibblesOf) = str := by
  induction str with
  | nil => rfl
  | cons b str ih =>
      rw [List.flatMap_cons,
        decodeNibbles_nibblesOf_append, ih]

/-
  The nibbles of decodeNibbles are the nibbles it packed,
  for an even run below 16.
-/
theorem flatMap_decodeNibbles :
    ∀ (ns : List Nibble), (∀ n ∈ ns, n.val < 16) →
      ns.length % 2 = 0 →
      (decodeNibbles ns).flatMap nibblesOf = ns
  | [], _, _ => rfl
  | [_], _, hEven => absurd hEven (by simp)
  | a :: b :: rest, hLt, hEven => by
      have hRest := flatMap_decodeNibbles rest
        (fun n hn => hLt n (by simp [hn]))
          (by simp at hEven; omega)
      rw [decodeNibbles, List.flatMap_cons, hRest,
        nibblesOf_pack a b (hLt a (by simp)) (hLt b (by simp))]
      rfl

theorem length_flatMap_nibblesOf (str : Bytes) :
    (str.flatMap nibblesOf).length = 2 * str.length := by
  induction str with
  | nil => rfl
  | cons b str ih =>
      rw [List.flatMap_cons, List.length_append, ih]
      simp [nibblesOf]
      omega

theorem lt_of_mem_flatMap_nibblesOf
    {str : Bytes}
    {n : Nibble}
    (hn : n ∈ str.flatMap nibblesOf) :
    n.val < 16 := by
  rcases List.mem_flatMap.mp hn with ⟨b, -, hb⟩
  have := UInt8.toNat_lt b
  simp only [nibblesOf, List.mem_cons, List.not_mem_nil,
    or_false] at hb
  rcases hb with rfl | rfl
  · simp only
    omega
  · exact Nat.mod_lt _ (by norm_num)

end Trie

end PlasmaEvm

------------------------------------------------------------
-- Flags and Terminators
------------------------------------------------------------

namespace PlasmaEvm

namespace Trie

/-
  hexToCompact's flag byte of an even key: the terminator
  bit alone.
-/
def terminatorFlag (t : Bool) : UInt8 :=
  (if t then (1 : UInt8) else 0) <<< 5

/-
  hexToCompact's flag byte of an odd key: the terminator,
  the odd bit and the first nibble.
-/
def oddFlag
    (t : Bool)
    (n₀ : Nibble) : UInt8 :=
  terminatorFlag t ||| (1 : UInt8) <<< 4 ||| UInt8.ofNat n₀.val

/-
  The bytes hexToCompact makes of a key without its
  terminator, by its parity.
-/
def compactBody
    (t : Bool)
    (body : List Nibble) : Bytes :=
  match body with
  | n₀ :: rest =>
      if body.length % 2 = 1
        then oddFlag t n₀ :: decodeNibbles rest
      else terminatorFlag t :: decodeNibbles body
  | [] => [terminatorFlag t]

theorem hexToCompact_eq (hex : List Nibble) :
    hexToCompact hex = compactBody (hasTerm hex)
      (if hasTerm hex then hex.dropLast else hex) :=
  rfl

theorem toNat_terminatorFlag (t : Bool) :
    (terminatorFlag t).toNat = if t then 32 else 0 := by
  cases t <;> rfl

theorem toNat_oddFlag :
    ∀ (t : Bool) (n₀ : Nibble), (oddFlag t n₀).toNat = (if t
      then 48 else 16) + n₀.val % 16 := by
  decide

theorem hasTerm_terminated
    {body : List Nibble}
    (hBody : ∀ n ∈ body, n.val < 16)
    (t : Bool) :
    hasTerm (body ++ terminated t) = t := by
  cases t with
  | true => simp [hasTerm, terminated]
  | false =>
      have hLast : body.getLast? ≠ some 16 := by
        intro hLast
        exact absurd (hBody 16 (List.mem_of_getLast?
          hLast)) (by decide)
      simpa [hasTerm, terminated] using hLast

theorem stripped_terminated
    (body : List Nibble)
    (t : Bool) :
    (if t
      then (body ++ terminated t).dropLast
        else body ++ terminated t) = body := by
  cases t <;> simp [terminated]

theorem compactBody_even
    {body : List Nibble}
    (hEven : body.length % 2 = 0)
    (t : Bool) :
    compactBody t body = terminatorFlag t ::
      decodeNibbles body := by
  cases body with
  | nil => rfl
  | cons n₀ rest =>
      rw [compactBody, if_neg (by omega)]

theorem compactBody_odd
    {n₀ : Nibble}
    {rest : List Nibble}
    (hEven : rest.length % 2 = 0)
    (t : Bool) :
    compactBody t (n₀ :: rest) = oddFlag t n₀ ::
      decodeNibbles rest := by
  rw [compactBody, if_pos
    (by simp only [List.length_cons]; omega)]

/-
  The compact form of an even key: its flag, then its
  nibbles in pairs.
-/
theorem hexToCompact_even
    {body : List Nibble}
    (hBody : ∀ n ∈ body, n.val < 16)
    (hEven : body.length % 2 = 0)
    (t : Bool) :
    hexToCompact (body ++ terminated t) =
      terminatorFlag t :: decodeNibbles body := by
  rw [hexToCompact_eq, hasTerm_terminated hBody t,
    stripped_terminated, compactBody_even hEven]

/-
  The compact form of an odd key: the flag byte holds its
  first nibble.
-/
theorem hexToCompact_odd
    {n₀ : Nibble}
    {rest : List Nibble}
    (hBody : ∀ n ∈ n₀ :: rest, n.val < 16)
    (hEven : rest.length % 2 = 0)
    (t : Bool) :
    hexToCompact (n₀ :: rest ++ terminated t) =
      oddFlag t n₀ :: decodeNibbles rest := by
  rw [hexToCompact_eq, hasTerm_terminated hBody t,
    stripped_terminated, compactBody_odd hEven]

/-
  compactToHex of a compact key: the nibbles of its bytes,
  with the terminator when the flag nibble is 2 or more,
  less one nibble for an odd flag and two for an even one.
-/
theorem compactToHex_cons
    (c₀ : UInt8)
    (cs : Bytes) :
    compactToHex (c₀ :: cs) =
      (nibblesOf c₀ ++ cs.flatMap nibblesOf ++
        terminated (2 ≤ c₀.toNat / 16)).drop
        (2 - c₀.toNat / 16 % 2) := by
  have hBase : keybytesToHex (c₀ :: cs) = nibblesOf c₀ ++
    cs.flatMap nibblesOf ++ [16] := by
    rw [keybytesToHex_eq, List.flatMap_cons]
  simp only [compactToHex, hBase, nibblesOf,
    List.cons_append, List.nil_append]
  by_cases hFlag : c₀.toNat / 16 < 2
  · rw [if_pos hFlag,
      decide_eq_false (Nat.not_le.mpr hFlag)]
    simp [terminated, List.dropLast_cons_of_ne_nil]
  · rw [if_neg hFlag,
      decide_eq_true (Nat.le_of_not_lt hFlag)]
    simp [terminated]

end Trie

end PlasmaEvm

------------------------------------------------------------
-- Round Trips
------------------------------------------------------------

namespace PlasmaEvm

namespace Trie

/-
  hexToKeybytes gives back the key keybytesToHex took apart.
-/
theorem hexToKeybytes_keybytesToHex (k : Bytes) :
    hexToKeybytes (keybytesToHex k) = some k := by
  have hTerm : hasTerm (k.flatMap nibblesOf ++ [16]) = true := by
    simp [hasTerm]
  have hEven : (k.flatMap nibblesOf).length % 2 = 0 := by
    rw [length_flatMap_nibblesOf]
    omega
  simp only [hexToKeybytes, keybytesToHex_eq, hTerm,
    if_true, List.dropLast_concat, hEven,
    ne_eq, not_true_eq_false, if_false,
      decodeNibbles_flatMap]

/-
  A hex key, nibbles below 16 with or without the
  terminator, comes back from its compact form: the flag
  nibble is 2 times the terminator plus the parity, and the
  nibbles after it are the key's.
-/
theorem compactToHex_hexToCompact
    (body : List Nibble)
    (t : Bool)
    (hBody : ∀ n ∈ body, n.val < 16) :
    compactToHex (hexToCompact (body ++ terminated t)) =
      body ++ terminated t := by
  rcases Nat.mod_two_eq_zero_or_one body.length
    with hEven | hOdd
  · have hFlag := toNat_terminatorFlag t
    rw [hexToCompact_even hBody hEven t, compactToHex_cons,
      flatMap_decodeNibbles body hBody hEven]
    cases t <;> simp [hFlag, nibblesOf]
  · cases body with
    | nil => simp at hOdd
    | cons n₀ rest =>
        have hRest : rest.length % 2 = 0 := by
          simp only [List.length_cons] at hOdd
          omega
        have hn₀ : n₀.val < 16 := hBody n₀ (by simp)
        have hHigh : (oddFlag t n₀).toNat / 16 = if t
          then 3 else 1 := by
          rw [toNat_oddFlag]
          split <;> omega
        have hLow : (oddFlag t n₀).toNat % 16 = n₀.val := by
          rw [toNat_oddFlag]
          split <;> omega
        rw [hexToCompact_odd hBody hRest t,
          compactToHex_cons,
          flatMap_decodeNibbles rest (fun n hn =>
            hBody n (by simp [hn])) hRest]
        cases t <;> simp [hHigh, hLow, nibblesOf]

/-
  The compact keys hexToCompact produces: a flag nibble
  below 4, and the low nibble 0 when the flag is even.
-/
def CompactForm (c : Bytes) : Prop :=
  ∃ c₀ cs, c = c₀ :: cs ∧ c₀.toNat / 16 < 4 ∧
    (c₀.toNat / 16 % 2 = 0 → c₀.toNat % 16 = 0)

/-
  The flag bytes hexToCompact writes have a compact form.
-/
theorem compactBody_compactForm
    (t : Bool)
    (body : List Nibble) :
    CompactForm (compactBody t body) := by
  have hEvenFlag : (terminatorFlag t).toNat / 16 < 4 ∧
      ((terminatorFlag t).toNat / 16 % 2 = 0 →
        (terminatorFlag t).toNat % 16 = 0) := by
    rw [toNat_terminatorFlag]
    cases t <;> simp
  cases body with
  | nil => exact ⟨_, _, rfl, hEvenFlag⟩
  | cons n₀ rest =>
      rw [compactBody]
      split
      · refine ⟨_, _, rfl, ?_⟩
        rw [toNat_oddFlag]
        split <;> omega
      · exact ⟨_, _, rfl, hEvenFlag⟩

/-
  Every nibble list compacts to a compact form, terminators
  in its middle and all.
-/
theorem hexToCompact_compactForm (hex : List Nibble) :
    CompactForm (hexToCompact hex) := by
  rw [hexToCompact_eq]
  exact compactBody_compactForm _ _

/-
  On a compact form, hexToCompact after compactToHex gives
  it back: for each of the four flags, compactToHex leaves
  the nibbles of the rest of the bytes, after the first
  byte's low nibble when the flag is odd, and with the
  terminator when the flag is 2 or 3.
-/
theorem hexToCompact_compactToHex
    {c : Bytes}
    (hForm : CompactForm c) :
    hexToCompact (compactToHex c) = c := by
  rcases hForm with ⟨c₀, cs, rfl, hLt, hPad⟩
  have hNibbles : ∀ n ∈ cs.flatMap nibblesOf,
    n.val < 16 := fun n hn =>
    lt_of_mem_flatMap_nibblesOf hn
  have hEven : (cs.flatMap nibblesOf).length % 2 = 0 := by
    rw [length_flatMap_nibblesOf]
    omega
  rw [compactToHex_cons]
  rcases Nat.mod_two_eq_zero_or_one (c₀.toNat / 16)
    with hFlagEven | hFlagOdd
  · have hDrop : (nibblesOf c₀ ++ cs.flatMap nibblesOf ++
      terminated (2 ≤ c₀.toNat / 16)).drop
        (2 - c₀.toNat / 16 % 2) = cs.flatMap nibblesOf ++
          terminated (2 ≤ c₀.toNat / 16) := by
      rw [hFlagEven, List.append_assoc]
      rfl
    rw [hDrop, hexToCompact_even hNibbles hEven,
      decodeNibbles_flatMap]
    congr 1
    apply UInt8.toNat_inj.mp
    rw [toNat_terminatorFlag]
    have := hPad hFlagEven
    simp only [decide_eq_true_eq]
    split <;> omega
  · have hLow : c₀.toNat % 16 < 17 := by omega
    have hDrop : (nibblesOf c₀ ++ cs.flatMap nibblesOf ++
      terminated (2 ≤ c₀.toNat / 16)).drop
        (2 - c₀.toNat / 16 % 2) =
          ⟨c₀.toNat % 16, hLow⟩ :: cs.flatMap nibblesOf ++
            terminated (2 ≤ c₀.toNat / 16) := by
      rw [hFlagOdd]
      rfl
    have hBody : ∀ n ∈ (⟨c₀.toNat % 16,
      hLow⟩ : Nibble) :: cs.flatMap nibblesOf,
      n.val < 16 := by
      intro n hn
      rcases List.mem_cons.mp hn with rfl | hMem
      · exact Nat.mod_lt _ (by norm_num)
      · exact hNibbles n hMem
    rw [hDrop, hexToCompact_odd hBody hEven,
      decodeNibbles_flatMap]
    congr 1
    apply UInt8.toNat_inj.mp
    rw [toNat_oddFlag, Fin.val_mk, Nat.mod_mod]
    simp only [decide_eq_true_eq]
    split <;> omega

/-
  The key encodings are inverse: hexToKeybytes undoes
  keybytesToHex on every byte string, compactToHex undoes
  hexToCompact on every hex key, and hexToCompact undoes
  compactToHex on every compact key hexToCompact produces.
-/
theorem key_encodings_inverse :
    (∀ k : Bytes,
      hexToKeybytes (keybytesToHex k) = some k) ∧
    (∀ (body : List Nibble) (t : Bool),
      (∀ n ∈ body, n.val < 16) →
      compactToHex (hexToCompact (body ++ terminated t)) =
        body ++ terminated t) ∧
    (∀ hex : List Nibble,
      hexToCompact (compactToHex (hexToCompact hex)) =
        hexToCompact hex) :=
  ⟨hexToKeybytes_keybytesToHex, compactToHex_hexToCompact,
    fun hex => hexToCompact_compactToHex
      (hexToCompact_compactForm hex)⟩

/- The round trips at the key 0x12 with the terminator. -/
theorem key_encodings_inverse_at_leaf :
    (∀ n ∈ ([1, 2] : List Nibble), n.val < 16) ∧
      compactToHex (hexToCompact ([1,
        2] ++ terminated true)) = [1,
        2] ++ terminated true :=
  ⟨by decide, key_encodings_inverse.2.1 [1,
    2] true (by decide)⟩

end Trie

end PlasmaEvm
