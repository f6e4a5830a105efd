/-
# The constants of a modulus

What is derived from an odd modulus `m` of `L` words is what its name says, for every such `m`,
prime or not. A step of Newton's iteration squares the error `1 - n x`, and six of them square
`1 - n` six times, which is even: so the lowest word gets its inverse modulo `2^64`
(`Word.negInverse_mul`). Doubling modulo `m` keeps a number below `m`, also where the sum leaves the
top word, so `64 L` doublings of 1 make `R = 2^(64 L)` modulo `m`, and as many of `R` make `R²`
(`Limbs.doublings_toNat`). The zero bits at the end of `m - 1` are counted word by word, whole words
included, and moving `m` down by them leaves an odd number (`Modulus.twoAdicity_spec`).

Key theorems: `Word.negInverse_mul`, `Limbs.doublings_toNat`, `Modulus.negInv_mul_value`,
`Modulus.radix_toNat`, `Modulus.radixSq_toNat`, `Modulus.bitLength_eq_size`,
`Modulus.twoAdicity_spec`, `Modulus.derived_constants`.
-/
import Mathlib.Data.Nat.Size
import Mathlib.Data.UInt
import Mathlib.Tactic.Ring
import ShortWeierstrass.Curves.Standard
import ShortWeierstrass.Modulus

namespace ShortWeierstrass

/-! ### The inverse of a word -/

namespace Word

/-- A step of Newton's iteration squares the error. -/
theorem one_sub_mul_newtonStep (n x : Word) :
    1 - n * newtonStep n x = (1 - n * x) * (1 - n * x) := by
  unfold newtonStep
  grind

theorem one_sub_mul_repeat (n x : Word) : ∀ steps : ℕ,
    1 - n * Nat.repeat (newtonStep n) steps x = (1 - n * x) ^ 2 ^ steps
  | 0 => by simp [Nat.repeat]
  | steps + 1 => by
    rw [Nat.repeat, one_sub_mul_newtonStep, one_sub_mul_repeat n x steps, ← pow_add, pow_succ,
      mul_two]

/-- An even word has no power to 64 but zero. -/
theorem pow_eq_zero_of_even (e : Word) (h : e.toNat % 2 = 0) : e ^ 64 = 0 := by
  have half : e = 2 * UInt64.ofNat (e.toNat / 2) := by
    have lt := toNat_lt_base e
    have small : e.toNat / 2 < UInt64.size := Nat.lt_of_le_of_lt (Nat.div_le_self _ _) lt
    rw [← UInt64.toNat_inj, UInt64.toNat_mul, UInt64.toNat_ofNat_of_lt' small]
    show e.toNat = 2 * (e.toNat / 2) % 2 ^ 64
    omega
  have two : (2 : Word) ^ 64 = 0 := by decide +kernel
  rw [half, mul_pow, two, UInt64.zero_mul]

/-- Six steps from 1 invert an odd word. -/
theorem negInverse_mul (n : Word) (odd : n.toNat % 2 = 1) : negInverse n * n = -1 := by
  have lt := toNat_lt_base n
  have error : (1 - n : Word).toNat % 2 = 0 := by
    rw [UInt64.toNat_sub, UInt64.toNat_one]
    omega
  have settled := one_sub_mul_repeat n 1 6
  rw [UInt64.mul_one, show 2 ^ 6 = 64 by decide, pow_eq_zero_of_even _ error] at settled
  unfold negInverse
  grind

end Word

/-! ### Doubling -/

theorem Limbs.doublings_toNat {L : ℕ} (modulus : Limbs L) : ∀ (count : ℕ) (u : Limbs L),
    u.toNat < modulus.toNat →
    (doublings modulus count u).toNat = u.toNat * 2 ^ count % modulus.toNat
  | 0, u, h => by simp [doublings, Nat.mod_eq_of_lt h]
  | count + 1, u, h => by
    have twice := addMod_toNat u u modulus h h
    have lt : (u.addMod u modulus).toNat < modulus.toNat := by
      rw [twice]
      exact Nat.mod_lt _ (by omega)
    rw [doublings, doublings_toNat modulus count _ lt, twice, Nat.mod_mul_mod, ← two_mul,
      Nat.mul_comm 2, Nat.mul_assoc, ← pow_succ']

namespace Modulus

variable {L : ℕ} (m : Modulus L)

theorem value_pos : 0 < m.value.toNat := by
  have := m.three_le
  omega

include m in
theorem toNat_one : (Limbs.one : Limbs L).toNat = 1 := by
  have := m.limbs_pos
  rw [Limbs.one, Limbs.toNat_ofNat_of_lt (Nat.one_lt_two_pow (by omega))]

/-! ### Montgomery form -/

theorem low_toNat : m.value.low.toNat = m.value.toNat % 2 ^ 64 :=
  (Words.toNat_mod_base m.value.words).symm

theorem negInv_mul_value : m.negInv.toNat * m.value.toNat % 2 ^ 64 = 2 ^ 64 - 1 := by
  have odd := m.odd
  have inverse := Word.negInverse_mul m.value.low (by rw [m.low_toNat]; omega)
  have value := congrArg UInt64.toNat inverse
  rw [UInt64.toNat_mul, m.low_toNat, ← m.negInv_eq, Nat.mul_mod_mod] at value
  rw [value]
  decide

theorem radix_toNat : m.radix.toNat = 2 ^ (64 * L) % m.value.toNat := by
  have := m.three_le
  rw [m.radix_eq, Limbs.doublings_toNat _ _ _ (by rw [m.toNat_one]; omega), m.toNat_one,
    Nat.one_mul]

theorem radix_lt : m.radix.toNat < m.value.toNat := by
  rw [m.radix_toNat]
  exact Nat.mod_lt _ m.value_pos

theorem radixSq_toNat : m.radixSq.toNat = 2 ^ (64 * L) * 2 ^ (64 * L) % m.value.toNat := by
  rw [m.radixSq_eq, Limbs.doublings_toNat _ _ _ m.radix_lt, m.radix_toNat, Nat.mod_mul_mod]

theorem radixSq_lt : m.radixSq.toNat < m.value.toNat := by
  rw [m.radixSq_toNat]
  exact Nat.mod_lt _ m.value_pos

/-! ### Bits and parts -/

theorem bitLength_eq_size : m.bitLength = m.value.toNat.size := by
  have ge := m.three_le
  have low : 2 ^ (m.bitLength - 1) ≤ m.value.toNat :=
    Words.two_pow_le_toNat m.value.words (by
      change m.value.toNat ≠ 0
      omega)
  have high : m.value.toNat.size ≤ m.bitLength :=
    Nat.size_le.mpr m.value.toNat_lt_two_pow_bitLength
  have above := Nat.lt_size.mpr low
  omega

theorem inversionExponent_toNat : m.inversionExponent.toNat = m.value.toNat - 2 := by
  have ge := m.three_le
  have lt := m.value.toNat_lt
  have two : (Limbs.ofNat L 2).toNat = 2 := Limbs.toNat_ofNat_of_lt (by omega)
  rw [inversionExponent, Limbs.wrappingSub_toNat _ _ (by omega), two]

theorem sub_one_toNat : (m.value.wrappingSub Limbs.one).toNat = m.value.toNat - 1 := by
  have := m.three_le
  rw [Limbs.wrappingSub_toNat _ _ (by rw [m.toNat_one]; omega), m.toNat_one]

/-- `m - 1` is an odd number times a power of two above 1. -/
theorem twoAdicity_spec :
    m.value.toNat = 2 ^ m.twoAdicity * m.oddPart.toNat + 1 ∧ m.oddPart.toNat % 2 = 1 ∧
      1 ≤ m.twoAdicity := by
  have ge := m.three_le
  have odd := m.odd
  have nonzero : Words.toNat (m.value.wrappingSub Limbs.one).words ≠ 0 := by
    have := m.sub_one_toNat
    simp only [Limbs.toNat] at this ge ⊢
    omega
  obtain ⟨product, part_odd⟩ := Words.toNat_eq_two_pow_trailingZeros_mul _ nonzero
  change (m.value.wrappingSub Limbs.one).toNat =
    2 ^ m.twoAdicity * ((m.value.wrappingSub Limbs.one).toNat / 2 ^ m.twoAdicity) at product
  change (m.value.wrappingSub Limbs.one).toNat / 2 ^ m.twoAdicity % 2 = 1 at part_odd
  rw [m.sub_one_toNat] at product part_odd
  generalize (m.value.toNat - 1) / 2 ^ m.twoAdicity = part at product part_odd
  have pos : 1 ≤ m.twoAdicity := by
    by_contra zero
    rw [show m.twoAdicity = 0 by omega, pow_zero] at product
    omega
  have value : m.value.toNat = 2 ^ m.twoAdicity * part + 1 := by omega
  have oddPart : m.oddPart.toNat = part := by
    have large : 1 < 2 ^ m.twoAdicity := Nat.one_lt_two_pow (by omega)
    rw [Modulus.oddPart, Limbs.shiftRight_toNat, value, Nat.mul_add_div (by omega),
      Nat.div_eq_of_lt large, Nat.add_zero]
  rw [oddPart]
  exact ⟨value, part_odd, pos⟩

theorem two_le_twoAdicity (h : m.value.toNat % 4 = 1) : 2 ≤ m.twoAdicity := by
  obtain ⟨value, part_odd, pos⟩ := m.twoAdicity_spec
  by_contra small
  rw [show m.twoAdicity = 1 by omega, pow_one] at value
  omega

theorem half_eq : m.value.toNat / 2 = m.oddPart.toNat * 2 ^ (m.twoAdicity - 1) := by
  obtain ⟨value, -, pos⟩ := m.twoAdicity_spec
  have power : 2 ^ m.twoAdicity = 2 * 2 ^ (m.twoAdicity - 1) := by
    rw [← pow_succ', Nat.sub_add_cancel pos]
  rw [power, Nat.mul_assoc, Nat.mul_comm (2 ^ (m.twoAdicity - 1))] at value
  omega

/-! ### For every modulus -/

/-- **The derived constants are right for every odd modulus.** Every odd number from 3 on that fits
`L` words is the value of a modulus, and a modulus that has it as its value has these constants.
The negated inverse is made from the lowest word alone, and its product with the modulus is -1
modulo `2^64`. `R` and `R²` are `2^(64 L)` and `2^(128 L)` reduced. The odd part is odd, and times
the power of two it is `m - 1`, whole words of zeros included. The exponent of inversion is `m - 2`.
-/
theorem derived_constants {L n : ℕ} (odd : n % 2 = 1) (three_le : 3 ≤ n)
    (fits : n < 2 ^ (64 * L)) :
    (∃ m : Modulus L, m.value.toNat = n) ∧
    ∀ m : Modulus L, m.value.toNat = n →
      (m.negInv = Word.negInverse (UInt64.ofNat n) ∧
        m.negInv.toNat * n % 2 ^ 64 = 2 ^ 64 - 1) ∧
      (m.radix.toNat = 2 ^ (64 * L) % n ∧ m.radix.toNat < n) ∧
      (m.radixSq.toNat = 2 ^ (128 * L) % n ∧ m.radixSq.toNat < n) ∧
      (m.oddPart.toNat % 2 = 1 ∧ m.oddPart.toNat * 2 ^ m.twoAdicity = n - 1) ∧
      m.inversionExponent.toNat = n - 2 := by
  refine ⟨⟨.ofNat L n 0 none ⟨odd, three_le, fits⟩, value_ofNat _ _ _ _ _⟩, ?_⟩
  rintro m rfl
  have low : m.value.low = UInt64.ofNat m.value.toNat := by
    rw [← UInt64.toNat_inj, m.low_toNat, UInt64.toNat_ofNat']
  refine ⟨⟨?_, m.negInv_mul_value⟩, ⟨m.radix_toNat, m.radix_lt⟩, ⟨?_, m.radixSq_lt⟩, ?_,
    m.inversionExponent_toNat⟩
  · rw [m.negInv_eq, low]
  · rw [m.radixSq_toNat, ← pow_add]
    congr 2
    omega
  · obtain ⟨value, part_odd, -⟩ := m.twoAdicity_spec
    refine ⟨part_odd, ?_⟩
    rw [Nat.mul_comm]
    omega

/-- The lowest word of `2^224 - 2^96 + 1` is 1, and `m - 1` ends in a whole word of zeros and a half
one. -/
theorem derived_constants_p224 :
    let n := 2 ^ 224 - 2 ^ 96 + 1
    let m := Standard.p224Base
    (n % 2 = 1 ∧ 3 ≤ n ∧ n < 2 ^ (64 * 4)) ∧ m.value.toNat = n ∧
      m.negInv = -1 ∧ m.radix.toNat = 2 ^ 128 - 2 ^ 32 ∧
      m.radixSq.toNat = n - 2 ^ 161 + 2 ^ 128 + 2 ^ 64 - 2 ^ 32 ∧
      m.twoAdicity = 96 ∧ m.oddPart.toNat * 2 ^ 96 = n - 1 ∧
      m.inversionExponent.toNat = n - 2 := by
  intro n m
  have odd : n % 2 = 1 := by decide
  have three_le : 3 ≤ n := by decide
  have fits : n < 2 ^ (64 * 4) := by decide
  have value : m.value.toNat = n := by decide +kernel
  have adicity : m.twoAdicity = 96 := by decide +kernel
  obtain ⟨-, constants⟩ := derived_constants odd three_le fits
  obtain ⟨⟨inverse, -⟩, ⟨radix, -⟩, ⟨radixSq, -⟩, ⟨-, part⟩, exponent⟩ := constants m value
  rw [adicity] at part
  refine ⟨⟨odd, three_le, fits⟩, value, inverse.trans ?_, radix.trans ?_, radixSq.trans ?_, adicity,
    part, exponent⟩
  · decide +kernel
  · decide +kernel
  · decide +kernel

end Modulus
end ShortWeierstrass
