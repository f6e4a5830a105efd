/-
# The unit group and its two parts

Modulo a prime `m` with `m - 1 = 2^s t`, `t` odd, the classes other than zero are the powers of one
of them, `g`. Then `g^t` has order `2^s` and `g^(2^s)` has order `t`, and since the two orders have
no common divisor, every class other than zero is one product of their powers
(`pow_mul_pow_bijective`).

The root of unity is `g^t` in each of the three ways to come by it
(`Residue.rootOfUnity_standsFor_pow`): settled in advance, computed, or taken to be -1. The last is
right because `s` is 1 there, so that `g^t` has order 2, and -1 is the only class of order 2. That
the root is no square follows from its order alone (`Residue.not_isSquare_of_orderOf`): half of
`m - 1` is an odd multiple of `2^(s - 1)`, and that power of the root is -1.

Key definitions: `Modulus.Generated`.
Key theorems: `pow_mul_pow_bijective`, `Modulus.Generated.orderOf_generator`,
`Residue.not_isSquare_of_orderOf`, `Residue.rootOfUnity_standsFor_pow`,
`Residue.existsUnique_root_mul_delta`, `Residue.constants_split_units`.
-/
import Mathlib
import ShortWeierstrass.Proofs.SquareRoot
import ShortWeierstrass.Residue.Roots

namespace ShortWeierstrass

/-- Two elements whose orders are coprime and multiply to the order of a finite group make every
element as one product of their powers. -/
theorem pow_mul_pow_bijective {G : Type} [Group G] [Finite G] {w d : G} {r s : ℕ}
    (hw : orderOf w = r) (hd : orderOf d = s) (card : r * s = Nat.card G)
    (coprime : r.Coprime s) :
    Function.Bijective fun e : Fin r × Fin s => w ^ (e.1 : ℕ) * d ^ (e.2 : ℕ) := by
  subst hw hd
  rw [← Nat.card_zpowers w, ← Nat.card_zpowers d] at card coprime
  have parts := Subgroup.isComplement'_of_coprime card coprime
  exact parts.comp ((finEquivZPowers (isOfFinOrder_of_finite w)).prodCongr
    (finEquivZPowers (isOfFinOrder_of_finite d))).bijective

variable {L : ℕ}

namespace Modulus

variable (m : Modulus L)

/-- The generator generates, and a root of unity that is settled in advance is its power to the odd
part. -/
class Generated : Prop where
  generates : ∀ a : m.Ring, a ≠ 0 → ∃ k : ℕ, (m.generator.toNat : m.Ring) ^ k = a
  root_eq : ∀ root, m.root? = some root →
    (root.toNat : m.Ring) = (m.generator.toNat : m.Ring) ^ m.oddPart.toNat

instance : Fact (2 < m.value.toNat) := ⟨m.three_le⟩

theorem sub_one_eq : m.value.toNat - 1 = 2 ^ m.twoAdicity * m.oddPart.toNat := by
  obtain ⟨value, -, -⟩ := m.twoAdicity_spec
  omega

theorem odd_oddPart : Odd m.oddPart.toNat := Nat.odd_iff.mpr m.twoAdicity_spec.2.1

theorem oddPart_pos : 0 < m.oddPart.toNat := m.odd_oddPart.pos

theorem coprime_parts : (2 ^ m.twoAdicity).Coprime m.oddPart.toNat :=
  Nat.Coprime.pow_left _ (Nat.coprime_two_left.mpr m.odd_oddPart)

theorem parts_lt : 2 ^ m.twoAdicity < 2 ^ (64 * L) ∧ m.oddPart.toNat < 2 ^ (64 * L) := by
  have lt := m.value.toNat_lt
  have ge := m.three_le
  have product := m.sub_one_eq
  have left := Nat.le_mul_of_pos_right (2 ^ m.twoAdicity) m.oddPart_pos
  have right := Nat.le_mul_of_pos_left m.oddPart.toNat (Nat.two_pow_pos m.twoAdicity)
  omega

namespace Generated

variable [Fact m.value.toNat.Prime] [m.Generated]

/-- Zero does not generate: its powers are 0 and 1, and -1 is neither. -/
theorem generator_ne_zero : (m.generator.toNat : m.Ring) ≠ 0 := by
  intro zero
  obtain ⟨k, power⟩ := generates (m := m) (-1) (neg_ne_zero.mpr one_ne_zero)
  rw [zero] at power
  cases k with
  | zero => exact ZMod.neg_one_ne_one (power.symm.trans (pow_zero 0))
  | succ k => exact neg_ne_zero.mpr one_ne_zero (power.symm.trans (zero_pow k.succ_ne_zero))

theorem orderOf_generator :
    orderOf (m.generator.toNat : m.Ring) = 2 ^ m.twoAdicity * m.oddPart.toNat := by
  let g : m.Ringˣ := Units.mk0 _ (generator_ne_zero m)
  have powers : ∀ a : m.Ringˣ, a ∈ Subgroup.zpowers g := by
    intro a
    obtain ⟨k, power⟩ := generates (m := m) a a.ne_zero
    refine ⟨k, ?_⟩
    apply Units.ext
    simpa [g] using power
  have order := orderOf_eq_card_of_forall_mem_zpowers powers
  rwa [Nat.card_eq_fintype_card, ZMod.card_units, ← orderOf_units, m.sub_one_eq] at order

theorem orderOf_pow_oddPart :
    orderOf ((m.generator.toNat : m.Ring) ^ m.oddPart.toNat) = 2 ^ m.twoAdicity := by
  have order := orderOf_generator m
  rw [orderOf_pow_of_dvd m.oddPart_pos.ne' (order ▸ Nat.dvd_mul_left _ _), order,
    Nat.mul_div_cancel _ m.oddPart_pos]

theorem orderOf_pow_two_pow :
    orderOf ((m.generator.toNat : m.Ring) ^ 2 ^ m.twoAdicity) = m.oddPart.toNat := by
  have order := orderOf_generator m
  rw [orderOf_pow_of_dvd (Nat.two_pow_pos _).ne' (order ▸ Nat.dvd_mul_right _ _), order,
    Nat.mul_div_cancel_left _ (Nat.two_pow_pos _)]

end Generated
end Modulus

namespace Residue

variable {m : Modulus L}

theorem generator_standsFor : (generator : Residue m).StandsFor m.generator.toNat :=
  ofWord_standsFor m.generator

theorem delta_standsFor :
    (delta : Residue m).StandsFor ((m.generator.toNat : m.Ring) ^ 2 ^ m.twoAdicity) :=
  generator_standsFor.squareTimes m.twoAdicity

theorem two_mul_twoInverse : (ofNat 2 : Residue m) * twoInverse = 1 := by
  have ge := m.three_le
  have odd := m.odd
  have lt := m.value.toNat_lt
  have half : ((m.value.shiftRight 1).wrappingAdd Limbs.one).toNat = m.value.toNat / 2 + 1 := by
    rw [Limbs.wrappingAdd_toNat, Limbs.shiftRight_toNat, m.toNat_one, pow_one,
      Nat.mod_eq_of_lt (by omega)]
  have product := (ofNat_standsFor (m := m) (by omega : 2 < 2 ^ (64 * L))).mul
    (ofLimbs_standsFor ((m.value.shiftRight 1).wrappingAdd Limbs.one))
  refine (product.eq_iff one_standsFor).mpr ?_
  rw [half, ← Nat.cast_mul, show 2 * (m.value.toNat / 2 + 1) = m.value.toNat + 1 by omega]
  simp

section Prime

variable [Fact m.value.toNat.Prime]

/-- A class of order `2^s` is no square: half of `m - 1` takes it to -1. -/
theorem not_isSquare_of_orderOf {w : m.Ring} (order : orderOf w = 2 ^ m.twoAdicity) :
    ¬ IsSquare w := by
  obtain ⟨-, -, pos⟩ := m.twoAdicity_spec
  intro square
  have ne : w ≠ 0 := by
    rintro rfl
    have one := pow_orderOf_eq_one (0 : m.Ring)
    rw [order, zero_pow (Nat.two_pow_pos _).ne'] at one
    exact zero_ne_one one
  have minus : w ^ (m.value.toNat / 2) = -1 := by
    rw [m.half_eq, Nat.mul_comm, pow_mul, pow_eq_neg_one_of_orderOf pos order,
      m.odd_oddPart.neg_one_pow]
  rw [pow_half_eq_one square ne] at minus
  exact ZMod.neg_one_ne_one minus.symm

/-- Its power to `2^s - 1` inverts a root of unity of order `2^s`. -/
theorem rootOfUnity_mul_inverse
    (order : orderOf (rootOfUnity : Residue m).toRing = 2 ^ m.twoAdicity) :
    (rootOfUnity : Residue m) * rootOfUnityInverse = 1 := by
  have two := Nat.two_pow_pos m.twoAdicity
  have exponent : ((Limbs.ofNat L (2 ^ m.twoAdicity)).wrappingSub Limbs.one).toNat =
      2 ^ m.twoAdicity - 1 := by
    have power := Limbs.toNat_ofNat_of_lt m.parts_lt.1
    rw [Limbs.wrappingSub_toNat _ _ (by rw [m.toNat_one, power]; omega), m.toNat_one, power]
  have product := rootOfUnity_standsFor.mul (rootOfUnity_standsFor.pow (m := m)
    ((Limbs.ofNat L (2 ^ m.twoAdicity)).wrappingSub Limbs.one))
  refine (product.eq_iff one_standsFor).mpr ?_
  rw [exponent, ← pow_succ', Nat.sub_add_cancel two, ← order, pow_orderOf_eq_one]

variable [m.Generated]

/-- The root of unity is the generator's power to the odd part, whether it is settled in advance,
computed, or -1 because `s` is 1. -/
theorem rootOfUnity_standsFor_pow :
    (rootOfUnity : Residue m).StandsFor ((m.generator.toNat : m.Ring) ^ m.oddPart.toNat) := by
  have order := Modulus.Generated.orderOf_pow_oddPart m
  unfold rootOfUnity
  cases settled : m.root? with
  | some root => exact (ofLimbs_standsFor root).congr (Modulus.Generated.root_eq root settled)
  | none =>
    dsimp only
    split
    · next single =>
      have minus := pow_eq_neg_one_of_orderOf single.ge order
      rw [single, Nat.sub_self, pow_zero, pow_one] at minus
      exact one_standsFor.neg.congr minus.symm
    · exact generator_standsFor.pow m.oddPart

theorem orderOf_rootOfUnity : orderOf (rootOfUnity : Residue m).toRing = 2 ^ m.twoAdicity := by
  rw [rootOfUnity_standsFor_pow.toRing_eq, Modulus.Generated.orderOf_pow_oddPart]

/-- Such a root is one that the search for square roots can work with. -/
instance : m.Rooted := ⟨fun _ => orderOf_rootOfUnity⟩

theorem orderOf_delta : orderOf (delta : Residue m).toRing = m.oddPart.toNat := by
  rw [delta_standsFor.toRing_eq, Modulus.Generated.orderOf_pow_two_pow]

/-- A class other than zero has one pair of exponents. -/
theorem existsUnique_root_pow_mul_delta_pow {a : m.Ring} (ne : a ≠ 0) :
    ∃! e : Fin (2 ^ m.twoAdicity) × Fin m.oddPart.toNat,
      (rootOfUnity : Residue m).toRing ^ (e.1 : ℕ) * (delta : Residue m).toRing ^ (e.2 : ℕ) = a := by
  have root_ne : (rootOfUnity : Residue m).toRing ≠ 0 := by
    rw [rootOfUnity_standsFor_pow.toRing_eq]
    exact pow_ne_zero _ (Modulus.Generated.generator_ne_zero m)
  have delta_ne : (delta : Residue m).toRing ≠ 0 := by
    rw [delta_standsFor.toRing_eq]
    exact pow_ne_zero _ (Modulus.Generated.generator_ne_zero m)
  have card : 2 ^ m.twoAdicity * m.oddPart.toNat = Nat.card m.Ringˣ := by
    rw [Nat.card_eq_fintype_card, ZMod.card_units, m.sub_one_eq]
  have units := pow_mul_pow_bijective (w := Units.mk0 _ root_ne) (d := Units.mk0 _ delta_ne)
    (orderOf_units.symm.trans orderOf_rootOfUnity) (orderOf_units.symm.trans orderOf_delta)
    card m.coprime_parts
  simpa [Units.ext_iff] using units.existsUnique (Units.mk0 a ne)

theorem existsUnique_root_mul_delta {x : Residue m} (canonical : x.Canonical) (ne : x ≠ 0) :
    ∃! e : Fin (2 ^ m.twoAdicity) × Fin m.oddPart.toNat,
      x = rootOfUnity.pow (.ofNat L e.1) * delta.pow (.ofNat L e.2) := by
  have hx := standsFor_toRing canonical
  have unit : x.toRing ≠ 0 := canonical.eq_zero_iff.not.mp ne
  obtain ⟨root_fits, delta_fits⟩ := m.parts_lt
  have same : ∀ e : Fin (2 ^ m.twoAdicity) × Fin m.oddPart.toNat,
      x = rootOfUnity.pow (.ofNat L e.1) * delta.pow (.ofNat L e.2) ↔
        (rootOfUnity : Residue m).toRing ^ (e.1 : ℕ) *
          (delta : Residue m).toRing ^ (e.2 : ℕ) = x.toRing := by
    intro e
    have first := Limbs.toNat_ofNat_of_lt (e.1.isLt.trans root_fits)
    have second := Limbs.toNat_ofNat_of_lt (e.2.isLt.trans delta_fits)
    have product := (rootOfUnity_standsFor.pow (m := m) (.ofNat L e.1)).mul
      ((standsFor_toRing delta_standsFor.canonical).pow (.ofNat L e.2))
    rw [hx.eq_iff product, first, second, eq_comm]
  simp only [same]
  exact existsUnique_root_pow_mul_delta_pow unit

end Prime

/-- **The constants split the unit group.** Modulo any odd prime, with a generator of the classes
other than zero and a root of unity that is not settled in advance or settled as the generator's
power to the odd part: the root of unity is that power, has order `2^s` and is no square. The two
inverses are inverses. Delta has the odd part for its order, and every residue other than zero is
one product of a power of the root below `2^s` and one of delta below the odd part. -/
theorem constants_split_units (m : Modulus L) [Fact m.value.toNat.Prime] [m.Generated] :
    let g : m.Ring := m.generator.toNat
    let w : Residue m := rootOfUnity
    let d : Residue m := delta
    (w = generator.pow m.oddPart ∧ w.toRing = g ^ m.oddPart.toNat) ∧
    (orderOf w.toRing = 2 ^ m.twoAdicity ∧ ¬ IsSquare w.toRing) ∧
    w * rootOfUnityInverse = 1 ∧ (ofNat 2 : Residue m) * twoInverse = 1 ∧
    (d.toRing = g ^ 2 ^ m.twoAdicity ∧ orderOf d.toRing = m.oddPart.toNat) ∧
    ∀ x : Residue m, x.Canonical → x ≠ 0 →
      ∃! e : Fin (2 ^ m.twoAdicity) × Fin m.oddPart.toNat,
        x = w.pow (.ofNat L e.1) * d.pow (.ofNat L e.2) := by
  intro g w d
  have power := (generator_standsFor (m := m)).pow m.oddPart
  have root := rootOfUnity_standsFor_pow (m := m)
  have order := orderOf_rootOfUnity (m := m)
  refine ⟨⟨(root.eq_iff power).mpr rfl, root.toRing_eq⟩, ⟨order, not_isSquare_of_orderOf order⟩,
    rootOfUnity_mul_inverse order, two_mul_twoInverse, ⟨delta_standsFor.toRing_eq, orderOf_delta⟩,
    ?_⟩
  intro x canonical ne
  exact existsUnique_root_mul_delta canonical ne

/-- Modulo `13 = 2^2 * 3 + 1`, generated by 2, with the root of unity settled as `2^3`. -/
theorem constants_split_units_mod13 :
    let m : Modulus 1 := .ofNat 1 13 2 (some 8) (by decide +kernel)
    let w : Residue m := rootOfUnity
    let x : Residue m := .ofNat 7
    m.value.toNat.Prime ∧ m.twoAdicity = 2 ∧ m.oddPart.toNat = 3 ∧
      (∀ a : m.Ring, a ≠ 0 → ∃ k : ℕ, (m.generator.toNat : m.Ring) ^ k = a) ∧
      w = .ofNat 8 ∧ w = generator.pow m.oddPart ∧ ¬ IsSquare w.toRing ∧
      x.Canonical ∧ x ≠ 0 ∧
      ∃! e : Fin (2 ^ m.twoAdicity) × Fin m.oddPart.toNat,
        x = w.pow (.ofNat 1 e.1) * (delta : Residue m).pow (.ofNat 1 e.2) := by
  intro m w x
  have generates : ∀ a : m.Ring, a ≠ 0 → ∃ k : ℕ, (m.generator.toNat : m.Ring) ^ k = a := by
    have below : ∀ a : m.Ring, a ≠ 0 → ∃ k : Fin 12, (m.generator.toNat : m.Ring) ^ k.val = a := by
      decide +kernel
    intro a ne
    obtain ⟨k, power⟩ := below a ne
    exact ⟨k, power⟩
  have prime : m.value.toNat.Prime := by
    rw [show m.value.toNat = 13 from Modulus.value_ofNat 1 13 2 (some 8) (by decide +kernel)]
    norm_num
  have : Fact m.value.toNat.Prime := ⟨prime⟩
  have : m.Generated := ⟨generates, by rintro _ ⟨⟩; decide +kernel⟩
  have canonical : x.Canonical := by decide +kernel
  have ne : x ≠ 0 := by decide +kernel
  obtain ⟨⟨general, -⟩, ⟨-, nonsquare⟩, -, -, -, unique⟩ := constants_split_units m
  exact ⟨prime, by decide +kernel, by decide +kernel, generates, by decide +kernel, general,
    nonsquare, canonical, ne, unique x canonical ne⟩

end Residue
end ShortWeierstrass
