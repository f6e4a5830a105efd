/-
# Moduli and the constants derived from them

A `Modulus L` is an odd number of `L` words from 3 on, with the element that is
taken to generate the multiplicative group, and optionally a root of unity
settled in advance. Three constants of Montgomery arithmetic are stored with the
modulus, each with the equation that defines it: the negated inverse of the
lowest word modulo `2^64`, by Newton's iteration, and `R` and `R²` modulo the
modulus for `R = 2^(64 L)`, by doubling 1. The other constants (bit and byte
length, exponent of inversion, 2-adicity and odd part of `m - 1`) are functions
of the modulus.

Key definitions: `Word.negInverse`, `Limbs.doublings`, `Modulus`, `Modulus.ofNat`,
`Modulus.twoAdicity`, `Modulus.oddPart`.
Key theorems: `Modulus.limbs_pos`, `Modulus.byteLength_le`.
-/
import ShortWeierstrass.Limbs.Bits
import ShortWeierstrass.Limbs.Reduction

namespace ShortWeierstrass

attribute [local instance (high)] instPowNat

namespace Word

/-- One step of Newton's iteration for the inverse of `n` modulo a power of two:
it doubles the number of low bits that are right. -/
def newtonStep (n inverse : Word) : Word := inverse * (2 - n * inverse)

/-- The negated inverse of an odd word modulo `2^64`: six steps take the one bit
that 1 has right to 64. -/
def negInverse (n : Word) : Word := -Nat.repeat (newtonStep n) 6 1

end Word

namespace Limbs

variable {L : Nat}

/-- Doubles a number modulo `modulus`, `count` times. -/
def doublings (modulus : Limbs L) : (count : Nat) → Limbs L → Limbs L
  | 0, u => u
  | count + 1, u => doublings modulus count (u.addMod u modulus)

end Limbs

/-- An odd modulus of `L` words with what arithmetic modulo it needs. -/
structure Modulus (L : Nat) where
  value : Limbs L
  odd : value.toNat % 2 = 1
  three_le : 3 ≤ value.toNat
  /-- The element taken to generate the multiplicative group. -/
  generator : Word
  /-- The root of unity of order `2^twoAdicity`, where it is settled in advance. -/
  root? : Option (Limbs L)
  /-- The negated inverse of the lowest word modulo `2^64`. -/
  negInv : Word
  negInv_eq : negInv = Word.negInverse value.low
  /-- `R = 2^(64 L)` modulo the modulus. -/
  radix : Limbs L
  radix_eq : radix = Limbs.doublings value (64 * L) Limbs.one
  /-- `R²` modulo the modulus. -/
  radixSq : Limbs L
  radixSq_eq : radixSq = Limbs.doublings value (64 * L) radix

namespace Modulus

variable {L : Nat}

/-- The modulus given by an odd number from 3 on that fits `L` words. -/
def ofNat (L n : Nat) (generator : Word) (root? : Option Nat)
    (admitted : n % 2 = 1 ∧ 3 ≤ n ∧ n < 2 ^ (64 * L)) : Modulus L :=
  let value := Limbs.ofNat L n
  let radix := Limbs.doublings value (64 * L) Limbs.one
  have same : value.toNat = n := by
    rw [Limbs.toNat_ofNat, Nat.mod_eq_of_lt admitted.2.2]
  { value
    odd := by rw [same]; exact admitted.1
    three_le := by rw [same]; exact admitted.2.1
    generator
    root? := root?.map (Limbs.ofNat L)
    negInv := Word.negInverse value.low
    negInv_eq := rfl
    radix
    radix_eq := rfl
    radixSq := Limbs.doublings value (64 * L) radix
    radixSq_eq := rfl }

/-- The number of bits of the modulus. -/
def bitLength (m : Modulus L) : Nat := m.value.bitLength

/-- The number of bytes of an encoded residue. -/
def byteLength (m : Modulus L) : Nat := (m.bitLength + 7) / 8

/-- The exponent that inverts a residue modulo a prime: `m - 2`. -/
def inversionExponent (m : Modulus L) : Limbs L := m.value.wrappingSub (Limbs.ofNat L 2)

/-- The exponent of two in `m - 1`. -/
def twoAdicity (m : Modulus L) : Nat := (m.value.wrappingSub Limbs.one).trailingZeros

/-- The odd part of `m - 1`; since `m` is odd, shifting `m` itself gives it. -/
def oddPart (m : Modulus L) : Limbs L := m.value.shiftRight m.twoAdicity

theorem value_ofNat (L n : Nat) (generator : Word) (root? : Option Nat)
    (admitted : n % 2 = 1 ∧ 3 ≤ n ∧ n < 2 ^ (64 * L)) :
    (ofNat L n generator root? admitted).value.toNat = n :=
  Limbs.toNat_ofNat_of_lt admitted.2.2

theorem limbs_pos (m : Modulus L) : 0 < L := by
  rcases Nat.eq_zero_or_pos L with rfl | h
  · have lt := m.value.toNat_lt
    have ge := m.three_le
    simp at lt
    omega
  · exact h

theorem bitLength_le (m : Modulus L) : m.bitLength ≤ 64 * L := m.value.bitLength_le

theorem byteLength_le (m : Modulus L) : m.byteLength ≤ 8 * L := by
  have h := m.bitLength_le
  unfold byteLength
  omega

end Modulus
end ShortWeierstrass
