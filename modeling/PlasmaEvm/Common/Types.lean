import Mathlib

/-
  Basic data of the node shared by every package: byte
  strings, account addresses and the Keccak-256 hash, which
  is left uninterpreted.

  Key definitions include:
    * `Bytes`
    * `Address` and `NullAddress`
    * `Keccak` and `Keccak.Injective`
-/

------------------------------------------------------------
-- Bytes and Addresses
------------------------------------------------------------

namespace PlasmaEvm

/- A byte string (`[]byte`). -/
abbrev Bytes := List UInt8

/- An account address (`common.Address`) by its value. -/
structure Address where
  val : Nat
  deriving DecidableEq, Repr

/-
  `params.NullAddress`, the zero address: the sender of
  request transactions and also `params.BlockchainAccount`.
-/
def NullAddress : Address := ⟨0⟩

end PlasmaEvm

------------------------------------------------------------
-- Keccak
------------------------------------------------------------

namespace PlasmaEvm

/-
  Keccak-256 as the code calls it, over a hash type `H`:
  `crypto.Keccak256Hash(data)` on one byte string, and
  `crypto.Keccak256Hash(a.Bytes(), b.Bytes())` on the
  concatenated bytes of two hashes.
-/
structure Keccak (H : Type) where
  hash : Bytes → H
  hashPair : H → H → H

/- Keccak modelled as injective on both kinds of input. -/
def Keccak.Injective
    {H : Type}
    (keccak : Keccak H) :
    Prop :=
  Function.Injective keccak.hash ∧
    Function.Injective2 keccak.hashPair

end PlasmaEvm
