/-
# Domains whose order is that of the group

A domain is admitted if its curve is nonsingular, its generator lies on the curve and its
order is a prime `q` with `q < p < 2 q` that counts the points of the group, `p` the base
modulus. Every point is then annihilated by `q`, so the classes of scalars act on the group
(`Domain.add_val_smul`, `Domain.mul_val_smul`), and a class other than 0 takes finite points to
finite points (`Domain.val_smul_eq_zero_iff`).

Key definitions: `Domain.Admitted`, `Domain.generatorPoint`.
Key theorems: `Domain.mod_order_smul`, `Domain.val_smul_eq_zero_iff`.
-/
import Mathlib
import ShortWeierstrass.Proofs.PointEncoding
import ShortWeierstrass.Proofs.ScalarMultiplication

namespace ShortWeierstrass

variable {L : ℕ}

/-- The order is a prime near the base modulus and counts the points of the curve. -/
class Domain.Admitted (d : Domain L) : Prop extends Curve.Elliptic d.toCurve where
  order_prime : d.order.value.toNat.Prime
  order_lt : d.order.value.toNat < d.base.value.toNat
  lt_two_mul : d.base.value.toNat < 2 * d.order.value.toNat
  gx_canonical : d.gx.Canonical
  gy_canonical : d.gy.Canonical
  onCurve : d.weierstrass.Nonsingular d.gx.toRing d.gy.toRing
  card : Nat.card d.Group = d.order.value.toNat

namespace Domain

variable (d : Domain L) [d.Admitted]

instance : Fact d.order.value.toNat.Prime := ⟨Admitted.order_prime⟩

/-- The bytes of a coordinate hold every scalar. -/
theorem order_lt_pow : d.order.value.toNat < 256 ^ d.coordinateBytes :=
  Admitted.order_lt.trans_le d.base.value_le

/-- The generator as an element of the group. -/
def generatorPoint : d.Group := .some d.gx.toRing d.gy.toRing Admitted.onCurve

theorem generator_standsFor : d.generator.StandsFor d.generatorPoint :=
  .finite (Residue.standsFor_toRing Admitted.gx_canonical)
    (Residue.standsFor_toRing Admitted.gy_canonical)

theorem basePoint_standsFor : d.basePoint.StandsFor d.generatorPoint :=
  d.generator_standsFor.ofAffine

theorem generatorPoint_ne_zero : d.generatorPoint ≠ 0 :=
  WeierstrassCurve.Affine.Point.some_ne_zero Admitted.onCurve

variable {d}

/-! ### Scalars acting on the group -/

theorem order_smul (g : d.Group) : d.order.value.toNat • g = 0 := by
  rw [← Admitted.card (d := d)]
  exact card_nsmul_eq_zero'

theorem mod_order_smul (n : ℕ) (g : d.Group) : (n % d.order.value.toNat) • g = n • g := by
  conv_rhs => rw [← Nat.mod_add_div n d.order.value.toNat]
  rw [add_nsmul, mul_nsmul, order_smul, nsmul_zero, add_zero]

variable (a b : d.order.Ring) (g : d.Group)

theorem add_val_smul : (a + b).val • g = a.val • g + b.val • g := by
  rw [ZMod.val_add, mod_order_smul, add_nsmul]

theorem mul_val_smul : (a * b).val • g = a.val • b.val • g := by
  rw [ZMod.val_mul, mod_order_smul, mul_nsmul']

theorem natCast_val_smul (n : ℕ) : (n : d.order.Ring).val • g = n • g := by
  rw [ZMod.val_natCast, mod_order_smul]

theorem sub_val_smul : (a - b).val • g = a.val • g - b.val • g := by
  rw [eq_sub_iff_add_eq, ← add_val_smul, sub_add_cancel]

theorem neg_val_smul : (-a).val • g = -(a.val • g) := by
  rw [← zero_sub, sub_val_smul, ZMod.val_zero, zero_nsmul, zero_sub]

/-- Every finite point has the whole order, which is prime. -/
theorem val_smul_eq_zero_iff : a.val • g = 0 ↔ a = 0 ∨ g = 0 := by
  by_cases zero : g = 0
  · rw [zero, nsmul_zero]
    exact iff_of_true rfl (.inr rfl)
  · have order : addOrderOf g = d.order.value.toNat := addOrderOf_eq_prime (order_smul g) zero
    rw [or_iff_left zero, ← addOrderOf_dvd_iff_nsmul_eq_zero, order, ← ZMod.natCast_eq_zero_iff,
      ZMod.natCast_zmod_val]

theorem val_smul_generatorPoint_eq_zero_iff : a.val • d.generatorPoint = 0 ↔ a = 0 :=
  (val_smul_eq_zero_iff a _).trans (or_iff_left d.generatorPoint_ne_zero)

end Domain

/-! ### Domains small enough to count their points -/

/-- The points are the solutions of the equation and the identity. -/
theorem Curve.card_group {L : ℕ} (c : Curve L) [c.Elliptic] :
    Nat.card c.Group =
      Fintype.card {p : c.base.Ring × c.base.Ring //
        p.2 ^ 2 = p.1 ^ 3 + c.a.toRing * p.1 + c.b.toRing} + 1 := by
  have points := Nat.card_congr c.weierstrass.pointEquiv
  have solutions : ∀ p : c.base.Ring × c.base.Ring, c.weierstrass.Equation p.1 p.2 ↔
      p.2 ^ 2 = p.1 ^ 3 + c.a.toRing * p.1 + c.b.toRing := fun p => by
    rw [WeierstrassCurve.Affine.equation_iff_nonsingular, nonsingular_iff]
  rw [points, ← Nat.card_eq_fintype_card, ← Nat.card_congr (Equiv.subtypeEquivRight solutions)]
  exact Finite.card_option

namespace Small

/-- The curve modulo 11 whose order is 7. -/
def mod11 : Domain 1 :=
  .build { base := .ofNat 1 11 2 none (by decide +kernel), a := .ofNat 2, b := .ofNat 7 }
    (.ofNat 1 7 3 none (by decide +kernel)) (.ofNat 6) (.ofNat 2) (some 1)
    (by rintro _ ⟨⟩; decide +kernel)

theorem mod11_base : mod11.base.value.toNat = 11 :=
  Modulus.value_ofNat 1 11 2 none (by decide +kernel)

theorem mod11_order : mod11.order.value.toNat = 7 :=
  Modulus.value_ofNat 1 7 3 none (by decide +kernel)

instance : mod11.toCurve.Elliptic where
  prime := by
    rw [mod11_base]
    norm_num
  three_lt := by
    rw [mod11_base]
    decide
  a_canonical := (Residue.ofNat_standsFor (n := 2) (by decide)).canonical
  b_canonical := (Residue.ofNat_standsFor (n := 7) (by decide)).canonical
  discriminant_ne := by decide +kernel

instance : mod11.Admitted where
  order_prime := by
    rw [mod11_order]
    norm_num
  order_lt := by
    rw [mod11_order, mod11_base]
    decide
  lt_two_mul := by
    rw [mod11_order, mod11_base]
    decide
  gx_canonical := (Residue.ofNat_standsFor (n := 6) (by decide)).canonical
  gy_canonical := (Residue.ofNat_standsFor (n := 2) (by decide)).canonical
  onCurve := by
    rw [Curve.nonsingular_iff]
    decide +kernel
  card := by
    rw [Curve.card_group]
    decide +kernel

/-- The curve modulo 17 whose order is 11. It has points over 2 and over 13, which are the same
modulo 11. -/
def mod17 : Domain 1 :=
  .build { base := .ofNat 1 17 3 none (by decide +kernel), a := .ofNat 2, b := .ofNat 6 }
    (.ofNat 1 11 2 none (by decide +kernel)) (.ofNat 1) (.ofNat 3) none (by simp)

theorem mod17_base : mod17.base.value.toNat = 17 :=
  Modulus.value_ofNat 1 17 3 none (by decide +kernel)

theorem mod17_order : mod17.order.value.toNat = 11 :=
  Modulus.value_ofNat 1 11 2 none (by decide +kernel)

instance : mod17.toCurve.Elliptic where
  prime := by
    rw [mod17_base]
    norm_num
  three_lt := by
    rw [mod17_base]
    decide
  a_canonical := (Residue.ofNat_standsFor (n := 2) (by decide)).canonical
  b_canonical := (Residue.ofNat_standsFor (n := 6) (by decide)).canonical
  discriminant_ne := by decide +kernel

instance : mod17.Admitted where
  order_prime := by
    rw [mod17_order]
    norm_num
  order_lt := by
    rw [mod17_order, mod17_base]
    decide
  lt_two_mul := by
    rw [mod17_order, mod17_base]
    decide
  gx_canonical := (Residue.ofNat_standsFor (n := 1) (by decide)).canonical
  gy_canonical := (Residue.ofNat_standsFor (n := 3) (by decide)).canonical
  onCurve := by
    rw [Curve.nonsingular_iff]
    decide +kernel
  card := by
    rw [Curve.card_group]
    decide +kernel

end Small

end ShortWeierstrass
