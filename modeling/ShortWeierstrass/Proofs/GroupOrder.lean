/-
# Groups counted by the order of a point

At most two points lie over a first coordinate, so a curve modulo `p` has at most `2 p + 1`
points. The order of a point divides their number, and 2 does so only if the cubic has a root
(`Curve.odd_card_group`). If a prime with `2 p + 1 < 3 q` annihilates a finite point and the cubic
has no root, only `q` itself is left (`Curve.card_group_eq`). That counts the points of curves that
are too large for the pairs of coordinates to be gone through, such as the one modulo 257.

Key theorems: `Curve.card_group_le`, `Curve.odd_card_group`, `Curve.card_group_eq`,
`Domain.card_group_eq_order`.
-/
import Mathlib
import ShortWeierstrass.Proofs.AdmittedDomain
import ShortWeierstrass.Proofs.Compression

namespace ShortWeierstrass

variable {L : ℕ} {c : Curve L} [c.Elliptic]

namespace Curve

/-- Two points at most lie over each first coordinate. -/
theorem card_group_le : Nat.card c.Group ≤ 2 * c.base.value.toNat + 1 := by
  let solutions : Finset (c.base.Ring × c.base.Ring) :=
    Finset.univ.filter fun p => p.2 ^ 2 = p.1 ^ 3 + c.a.toRing * p.1 + c.b.toRing
  have fibre : ∀ x ∈ solutions.image Prod.fst,
      (solutions.filter fun p => p.1 = x).card ≤ 2 := by
    intro x mem
    obtain ⟨⟨x', y⟩, on, rfl⟩ := Finset.mem_image.mp mem
    have pair : (solutions.filter fun p => p.1 = x') ⊆ {(x', y), (x', -y)} := by
      rintro ⟨x'', z⟩ both
      obtain ⟨onZ, e⟩ := Finset.mem_filter.mp both
      obtain rfl : x'' = x' := e
      have squares : z ^ 2 = y ^ 2 :=
        (Finset.mem_filter.mp onZ).2.trans (Finset.mem_filter.mp on).2.symm
      rcases sq_eq_sq_iff_eq_or_eq_neg.mp squares with rfl | rfl <;> simp
    exact (Finset.card_le_card pair).trans Finset.card_le_two
  have coordinates : (solutions.image Prod.fst).card ≤ c.base.value.toNat :=
    (Finset.card_le_univ _).trans_eq (ZMod.card _)
  have count : solutions.card ≤ 2 * c.base.value.toNat :=
    (Finset.card_le_mul_card_image solutions 2 fibre).trans (Nat.mul_le_mul_left 2 coordinates)
  rw [c.card_group, Fintype.card_subtype]
  exact Nat.add_le_add_right count 1

instance : Finite c.Group :=
  Finite.of_equiv (Option {p : c.base.Ring × c.base.Ring // c.weierstrass.Equation p.1 p.2})
    c.weierstrass.pointEquiv.symm

/-- A point of order 2 has a root of the cubic for its first coordinate. -/
theorem odd_card_group (noRoot : ∀ X, c.cubic X ≠ 0) : Odd (Nat.card c.Group) := by
  rw [← Nat.not_even_iff_odd, even_iff_two_dvd]
  intro divides
  obtain ⟨g, order⟩ := exists_prime_addOrderOf_dvd_card' 2 divides
  cases g with
  | zero =>
    have one : addOrderOf (0 : c.Group) = 1 := addOrderOf_zero
    cases one.symm.trans order
  | some X Y on =>
    have twice : 2 • (.some X Y on : c.Group) = 0 := by
      rw [← order]
      exact addOrderOf_nsmul_eq_zero _
    obtain ⟨on', opposite⟩ := neg_some on
    rw [two_nsmul, add_eq_zero_iff_eq_neg, opposite,
      WeierstrassCurve.Affine.Point.some.injEq] at twice
    have doubled : 2 * Y = 0 := by linear_combination twice.2
    have vertical : Y = 0 := (mul_eq_zero.mp doubled).resolve_left c.two_ne_zero
    have equation := nonsingular_iff.mp on
    exact noRoot X (equation.symm.trans (by rw [vertical, zero_pow (by decide)]))

/-- The number of points is an odd multiple of the prime, and less than three times it. -/
theorem card_group_eq {q : ℕ} {g : c.Group} (prime : q.Prime) (finite : g ≠ 0)
    (multiple : q • g = 0) (large : 2 * c.base.value.toNat + 1 < 3 * q)
    (noRoot : ∀ X, c.cubic X ≠ 0) : Nat.card c.Group = q := by
  have := Fact.mk prime
  have order : addOrderOf g = q := addOrderOf_eq_prime multiple finite
  obtain ⟨k, card⟩ : q ∣ Nat.card c.Group := order ▸ addOrderOf_dvd_natCard g
  have le := c.card_group_le
  have pos : 0 < Nat.card c.Group := Nat.card_pos
  have odd := odd_card_group noRoot
  rw [card] at le pos odd ⊢
  have k_lt : k < 3 := by
    by_contra ge
    have := Nat.mul_le_mul_left q (not_lt.mp ge)
    omega
  interval_cases k
  · omega
  · rw [Nat.mul_one]
  · exact absurd odd (Nat.not_odd_iff_even.mpr ⟨q, by ring⟩)

end Curve

/-- The order counts the points if the multiple of the generator by it comes out as the identity. -/
theorem Domain.card_group_eq_order (d : Domain L) [d.toCurve.Elliptic]
    (order_prime : d.order.value.toNat.Prime) (gx_canonical : d.gx.Canonical)
    (gy_canonical : d.gy.Canonical)
    (onCurve : d.weierstrass.Nonsingular d.gx.toRing d.gy.toRing)
    (annihilates : (d.mul d.basePoint d.order.value).isIdentity = true)
    (large : 2 * d.base.value.toNat + 1 < 3 * d.order.value.toNat)
    (noRoot : ∀ X, d.cubic X ≠ 0) : Nat.card d.Group = d.order.value.toNat := by
  have generator : d.generator.StandsFor (.some _ _ onCurve) :=
    .finite (Residue.standsFor_toRing gx_canonical) (Residue.standsFor_toRing gy_canonical)
  have base : d.basePoint.StandsFor (.some _ _ onCurve) := generator.ofAffine
  have multiple := mul_standsFor base d.order.value.toNat_lt_two_pow_bitLength
  exact Curve.card_group_eq order_prime (WeierstrassCurve.Affine.Point.some_ne_zero onCurve)
    (multiple.isIdentity_iff.mp annihilates) large noRoot

/-- The order of an admitted domain counts the points and is odd. -/
instance (d : Domain L) [d.Admitted] : d.toCurve.OddOrder where
  odd := by
    rw [Domain.Admitted.card]
    exact Nat.odd_iff.mpr d.order.odd

/-! ### The curve modulo 257 -/

namespace Small

theorem mod257_base : mod257.base.value.toNat = 257 :=
  Modulus.value_ofNat 1 257 3 none (by decide +kernel)

theorem mod257_order : mod257.order.value.toNat = 241 :=
  Modulus.value_ofNat 1 241 7 none (by decide +kernel)

instance : mod257.toCurve.Elliptic where
  prime := by
    rw [mod257_base]
    norm_num
  three_lt := by
    rw [mod257_base]
    decide
  a_canonical := (Residue.ofNat_standsFor (n := 42) (by decide)).canonical
  b_canonical := (Residue.ofNat_standsFor (n := 113) (by decide)).canonical
  discriminant_ne := by decide +kernel

theorem mod257_cubic : ∀ X, mod257.cubic X ≠ 0 := by decide +kernel

instance : mod257.Admitted :=
  have order_prime : mod257.order.value.toNat.Prime := by
    rw [mod257_order]
    norm_num
  have gx_canonical := (Residue.ofNat_standsFor (m := mod257.base) (n := 16) (by decide)).canonical
  have gy_canonical := (Residue.ofNat_standsFor (m := mod257.base) (n := 68) (by decide)).canonical
  have onCurve : mod257.weierstrass.Nonsingular mod257.gx.toRing mod257.gy.toRing := by
    rw [Curve.nonsingular_iff]
    decide +kernel
  have large : 2 * mod257.base.value.toNat + 1 < 3 * mod257.order.value.toNat := by
    rw [mod257_order, mod257_base]
    decide
  { order_prime, gx_canonical, gy_canonical, onCurve
    order_lt := by
      rw [mod257_order, mod257_base]
      decide
    lt_two_mul := by
      rw [mod257_order, mod257_base]
      decide
    card := mod257.card_group_eq_order order_prime gx_canonical gy_canonical onCurve
      (by decide +kernel) large mod257_cubic }

end Small
end ShortWeierstrass
