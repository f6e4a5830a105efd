/-
# Powers and inverses, window by window

Consuming the lowest `w` windows of five bits takes an accumulator `b` to
`b ^ 2^(5 w) * a ^ (e mod 2^(5 w))`: each window moves the accumulator up by five
squarings and multiplies the table's entry for its digit in. The windows of the bit
length hold all of the exponent, so `pow` is the power. Squaring and multiplying bit by bit
keeps the same account with digits of one bit (`Residue.pow_next_digit` is the step of both), and
the words of an exponent are its digits of 64 bits; so the two ways to a power give the same
residue (`Residue.pow_exact`).

To the exponent `m - 2` the power is the inverse, if `m` is prime: a residue other than zero has
one inverse, and that is the one found (`Residue.StandsFor.invert?_eq_some_iff`).

Key theorems: `Residue.StandsFor.pow`, `Residue.StandsFor.powWords`, `Residue.pow_exact`,
`Residue.StandsFor.invert?_eq_some_iff`, `Residue.inversion_exact`.
-/
import Mathlib
import ShortWeierstrass.Proofs.ResidueRing
import ShortWeierstrass.Residue.Power

namespace ShortWeierstrass

variable {L : ℕ}

theorem mod_two_pow_succ_mul (n width w : ℕ) :
    n % 2 ^ (width * (w + 1)) =
      n % 2 ^ (width * w) + 2 ^ (width * w) * (n / 2 ^ (w * width) % 2 ^ width) := by
  rw [Nat.mul_succ, pow_add, Nat.mod_mul, Nat.mul_comm w width]

theorem Limbs.lt_two_pow_windows (u : Limbs L) {width windows : ℕ}
    (cover : u.bitLength ≤ width * windows) : u.toNat < 2 ^ (width * windows) :=
  lt_of_lt_of_le u.toNat_lt_two_pow_bitLength (Nat.pow_le_pow_right (by decide) cover)

namespace Residue

variable {m : Modulus L} {x : Residue m} {a : m.Ring}

theorem powers_standsFor (h : x.StandsFor a) (i : Fin (2 ^ powerBits.val)) :
    (x.powers.get i).StandsFor (a ^ i.val) := by
  refine @multiples_induction _ 1 x square (· * x) (fun k y => y.StandsFor (a ^ k))
    (one_standsFor.congr (pow_zero a).symm) (h.congr (pow_one a).symm) ?_ ?_ _ i.val i.isLt
  · intro k y hy
    exact hy.square.congr (by rw [← pow_mul, Nat.mul_comm])
  · intro k y hy
    exact (hy.mul h).congr (pow_succ a k).symm

/-- One digit of `width` bits is `width` squarings and the power to the digit, whatever the digits
below it contribute. -/
theorem pow_next_digit (a b : m.Ring) (width digit below low : ℕ) :
    (b ^ 2 ^ width * a ^ digit) ^ 2 ^ low * a ^ below =
      b ^ 2 ^ (low + width) * a ^ (below + 2 ^ low * digit) := by
  calc (b ^ 2 ^ width * a ^ digit) ^ 2 ^ low * a ^ below
      = b ^ (2 ^ width * 2 ^ low) * a ^ (digit * 2 ^ low) * a ^ below := by
        rw [mul_pow, ← pow_mul, ← pow_mul]
    _ = b ^ 2 ^ (low + width) * (a ^ below * a ^ (2 ^ low * digit)) := by
        rw [← pow_add, Nat.add_comm width, Nat.mul_comm digit, mul_assoc, mul_comm (a ^ below)]
    _ = b ^ 2 ^ (low + width) * a ^ (below + 2 ^ low * digit) := by
        rw [← pow_add]

theorem pow_next_window (a b : m.Ring) (n w : ℕ) :
    (b ^ 2 ^ 5 * a ^ (n / 2 ^ (w * 5) % 2 ^ 5)) ^ 2 ^ (5 * w) * a ^ (n % 2 ^ (5 * w)) =
      b ^ 2 ^ (5 * (w + 1)) * a ^ (n % 2 ^ (5 * (w + 1))) := by
  rw [pow_next_digit, mod_two_pow_succ_mul n 5 w, Nat.mul_succ 5 w]

/-- The accumulator moves up by the windows, and the power to their number is multiplied in. -/
theorem powWindows_standsFor (h : x.StandsFor a) (exponent : Limbs L) :
    ∀ (windows : ℕ) {acc : Residue m} {b : m.Ring}, acc.StandsFor b →
      (powWindows x.powers exponent windows acc).StandsFor
        (b ^ 2 ^ (5 * windows) * a ^ (exponent.toNat % 2 ^ (5 * windows)))
  | 0, _, _, hacc => hacc.congr (by simp [Nat.mod_one])
  | window + 1, _, b, hacc => by
    have digit := powers_standsFor h (exponent.window (window * powerBits.val) powerBits)
    rw [Limbs.window_val] at digit
    have step := powWindows_standsFor h exponent window ((hacc.squareTimes 5).mul digit)
    exact step.congr (pow_next_window a b exponent.toNat window)

theorem StandsFor.pow (h : x.StandsFor a) (exponent : Limbs L) :
    (x.pow exponent).StandsFor (a ^ exponent.toNat) := by
  have cover : exponent.bitLength ≤ 5 * ((exponent.bitLength + 4) / 5) := by omega
  refine (powWindows_standsFor h exponent _ one_standsFor).congr ?_
  rw [one_pow, one_mul, Nat.mod_eq_of_lt (exponent.lt_two_pow_windows cover)]

/-! ### Bit by bit -/

theorem pow_next_bit (a b : m.Ring) (n bit : ℕ) :
    (b ^ 2 * a ^ (n.testBit bit).toNat) ^ 2 ^ bit * a ^ (n % 2 ^ bit) =
      b ^ 2 ^ (bit + 1) * a ^ (n % 2 ^ (bit + 1)) := by
  have digit := pow_next_digit a b 1 (n.testBit bit).toNat (n % 2 ^ bit) bit
  rw [pow_one] at digit
  rw [digit, Nat.toNat_testBit, pow_succ 2 bit, Nat.mod_mul]

theorem powBits_standsFor (h : x.StandsFor a) (w : Word) :
    ∀ (bits : ℕ) {acc : Residue m} {b : m.Ring}, acc.StandsFor b →
      (powBits x w bits acc).StandsFor (b ^ 2 ^ bits * a ^ (w.toNat % 2 ^ bits))
  | 0, _, _, hacc => hacc.congr (by simp [Nat.mod_one])
  | bit + 1, acc, b, hacc => by
    have next := hacc.square.select (hacc.square.mul h) (w.toNat.testBit bit)
    have digit : (if w.toNat.testBit bit = true then b ^ 2 * a else b ^ 2) =
        b ^ 2 * a ^ (w.toNat.testBit bit).toNat := by
      cases w.toNat.testBit bit <;> simp
    have step := powBits_standsFor h w bit (next.congr digit)
    exact step.congr (pow_next_bit a b w.toNat bit)

/-- Words of an exponent are consumed as digits of 64 bits, the highest first. -/
theorem StandsFor.powWords (h : x.StandsFor a) (ws : List Word) :
    (x.powWords ws).StandsFor (a ^ Words.toNat ws) := by
  induction ws with
  | nil => exact one_standsFor.congr (pow_zero a).symm
  | cons w ws ih =>
    refine (powBits_standsFor h w 64 ih).congr ?_
    rw [Nat.mod_eq_of_lt w.toNat_lt_base, Words.toNat_cons, ← pow_mul, ← pow_add, Nat.add_comm,
      Nat.mul_comm (Words.toNat ws)]

/-- **Windows, bits and the power itself agree.** For every canonical residue and every exponent of
`L` words the power by windows is canonical, its value is the power of the value modulo `m`, and
squaring and multiplying along the bits of the exponent gives the same residue. The power to 0 is
1, that of 0 as well. -/
theorem pow_exact (x : Residue m) (canonical : x.Canonical) (exponent : Limbs L) :
    (x.pow exponent).Canonical ∧
    (x.pow exponent).value.toNat = x.value.toNat ^ exponent.toNat % m.value.toNat ∧
    x.pow Limbs.zero = 1 ∧
    x.pow exponent = x.powWords exponent.words := by
  have stands := standsFor_toRing canonical
  have power := stands.pow exponent
  refine ⟨power.canonical, ?_, ?_, ?_⟩
  · rw [power.value_toNat, toRing, ← Nat.cast_pow, ZMod.val_natCast]
  · apply ((stands.pow Limbs.zero).eq_iff one_standsFor).mpr
    rw [Limbs.toNat_zero, pow_zero]
  · exact (power.eq_iff (stands.powWords exponent.words)).mpr rfl

/-- Three to the power `2^128 - 1` modulo `2^127 - 1`, in two words: the first of 26 windows reaches
past the top word, and several lie across the two. -/
theorem pow_exact_mersenne :
    let m : Modulus 2 := .ofNat 2 (2 ^ 127 - 1) 3 none (by decide +kernel)
    let ones : Limbs 2 := .ofNat 2 (2 ^ 128 - 1)
    (Residue.ofNat 3 : Residue m).Canonical ∧
      ((Residue.ofNat 3 : Residue m).pow ones).value.toNat = 27 ∧
      (Residue.ofNat 3 : Residue m).pow ones =
        (Residue.ofNat 3 : Residue m).powWords [0xffffffffffffffff, 0xffffffffffffffff] ∧
      (0 : Residue m).pow Limbs.zero = 1 := by
  intro m ones
  have canonical : (Residue.ofNat 3 : Residue m).Canonical := by decide +kernel
  have words : ones.words = [0xffffffffffffffff, 0xffffffffffffffff] := by decide +kernel
  obtain ⟨-, -, -, bits⟩ := pow_exact (Residue.ofNat 3 : Residue m) canonical ones
  obtain ⟨-, -, zeroth, -⟩ := pow_exact (0 : Residue m) (by decide +kernel) Limbs.zero
  rw [words] at bits
  exact ⟨canonical, by decide +kernel, bits, zeroth⟩

/-! ### Inverses -/

/-- Zero has no inverse, and nothing else is found to have none, whatever the modulus is. -/
theorem StandsFor.invert?_eq_none_iff (h : x.StandsFor a) : x.invert? = none ↔ a = 0 := by
  rw [← h.isZero_iff, invert?]
  cases x.isZero <;> simp

section Prime

variable [Fact m.value.toNat.Prime]

theorem pow_sub_two (a : m.Ring) (h : a ≠ 0) : a ^ (m.value.toNat - 2) = a⁻¹ := by
  have ge := m.three_le
  refine eq_inv_of_mul_eq_one_left ?_
  rw [← pow_succ, show m.value.toNat - 2 + 1 = m.value.toNat - 1 by omega]
  exact ZMod.pow_card_sub_one_eq_one h

theorem StandsFor.invert?_eq_some_iff (h : x.StandsFor a) (ne : a ≠ 0) {y : Residue m} :
    x.invert? = some y ↔ y.StandsFor a⁻¹ := by
  have isZero : ¬ x.isZero = true := fun e => ne (h.isZero_iff.mp e)
  have inverse : (x.pow m.inversionExponent).StandsFor a⁻¹ := by
    refine (h.pow m.inversionExponent).congr ?_
    rw [m.inversionExponent_toNat, pow_sub_two a ne]
  rw [invert?, if_neg isZero, Option.some_inj]
  constructor
  · rintro rfl
    exact inverse
  · intro hy
    exact (inverse.eq_iff hy).mpr rfl

theorem StandsFor.exists_invert? (h : x.StandsFor a) (ne : a ≠ 0) :
    ∃ y, x.invert? = some y ∧ y.StandsFor a⁻¹ := by
  cases found : x.invert? with
  | none => exact absurd (h.invert?_eq_none_iff.mp found) ne
  | some y => exact ⟨y, rfl, (h.invert?_eq_some_iff ne).mp found⟩

theorem StandsFor.inverseOrZero (h : x.StandsFor a) : x.inverseOrZero.StandsFor a⁻¹ := by
  by_cases zero : a = 0
  · rw [Residue.inverseOrZero, h.invert?_eq_none_iff.mpr zero, zero, inv_zero]
    exact zero_standsFor
  · obtain ⟨y, found, hy⟩ := h.exists_invert? zero
    rw [Residue.inverseOrZero, found]
    exact hy

end Prime

/-- **Inversion is exact.** Modulo a prime, a canonical residue has no inverse exactly if it is
zero; any other has one, whose product with it is 1 and whose inverse it is; and the inverse of a
product is the product of the inverses. -/
theorem inversion_exact (m : Modulus L) [Fact m.value.toNat.Prime] :
    (∀ x : Residue m, x.Canonical →
      (x.invert? = none ↔ x = 0) ∧
      (x ≠ 0 → ∃ y, x.invert? = some y ∧ y.Canonical ∧ x * y = 1 ∧ y.invert? = some x)) ∧
    ∀ x y : Residue m, x.Canonical → y.Canonical → x ≠ 0 → y ≠ 0 →
      ∃ x' y', x.invert? = some x' ∧ y.invert? = some y' ∧ (x * y).invert? = some (x' * y') := by
  have zero_iff : ∀ x : Residue m, x.Canonical → (x = 0 ↔ x.toRing = 0) := fun x canonical =>
    (standsFor_toRing canonical).eq_iff zero_standsFor
  constructor
  · intro x canonical
    have hx := standsFor_toRing canonical
    refine ⟨?_, fun ne => ?_⟩
    · rw [hx.invert?_eq_none_iff, zero_iff x canonical]
    · have unit : x.toRing ≠ 0 := (zero_iff x canonical).not.mp ne
      obtain ⟨y, found, hy⟩ := hx.exists_invert? unit
      refine ⟨y, found, hy.canonical, ?_, ?_⟩
      · exact ((hx.mul hy).eq_iff one_standsFor).mpr (mul_inv_cancel₀ unit)
      · exact (hy.invert?_eq_some_iff (inv_ne_zero unit)).mpr (hx.congr (inv_inv _).symm)
  · intro x y canonical canonical' ne ne'
    have hx := standsFor_toRing canonical
    have hy := standsFor_toRing canonical'
    have unit : x.toRing ≠ 0 := (zero_iff x canonical).not.mp ne
    have unit' : y.toRing ≠ 0 := (zero_iff y canonical').not.mp ne'
    obtain ⟨x', found, hx'⟩ := hx.exists_invert? unit
    obtain ⟨y', found', hy'⟩ := hy.exists_invert? unit'
    refine ⟨x', y', found, found', ?_⟩
    apply ((hx.mul hy).invert?_eq_some_iff (mul_ne_zero unit unit')).mpr
    exact (hx'.mul hy').congr (mul_inv _ _).symm

/-- Modulo 3 the exponent of inversion is 1: two is its own inverse, and `2 * 2` is 1. -/
theorem inversion_exact_mod3 :
    let m : Modulus 1 := .ofNat 1 3 2 none (by decide +kernel)
    m.value.toNat.Prime ∧ (Residue.ofNat 2 : Residue m).Canonical ∧
      (Residue.ofNat 2 : Residue m) ≠ 0 ∧ (0 : Residue m).invert? = none ∧
      (∃ y, (Residue.ofNat 2 : Residue m).invert? = some y ∧ Residue.ofNat 2 * y = 1 ∧
        y.invert? = some (Residue.ofNat 2)) ∧
      ∃ y, (Residue.ofNat 2 : Residue m).invert? = some y ∧
        (Residue.ofNat 2 * Residue.ofNat 2 : Residue m).invert? = some (y * y) := by
  intro m
  have prime : m.value.toNat.Prime := by
    rw [show m.value.toNat = 3 from Modulus.value_ofNat 1 3 2 none (by decide +kernel)]
    exact Nat.prime_three
  have : Fact m.value.toNat.Prime := ⟨prime⟩
  have canonical : (Residue.ofNat 2 : Residue m).Canonical := by decide +kernel
  have ne : (Residue.ofNat 2 : Residue m) ≠ 0 := by decide +kernel
  obtain ⟨inverse, product⟩ := inversion_exact m
  obtain ⟨y, found, -, cancels, again⟩ := (inverse _ canonical).2 ne
  obtain ⟨x', y', found', found'', both⟩ := product _ _ canonical canonical ne ne
  obtain rfl : x' = y' := Option.some.inj (found'.symm.trans found'')
  exact ⟨prime, canonical, ne, ((inverse 0 zero_standsFor.canonical).1).mpr rfl,
    ⟨y, found, cancels, again⟩, x', found', both⟩

end Residue
end ShortWeierstrass
