/-
# Scalars act on points

The comparison of triples multiplies the coordinates crosswise by powers of the other `Z`, so
what it finds equal are the triples of one point (`Jacobian.StandsFor.same_iff`), however they
were computed. The multiple by a scalar is that by the representative of its class
(`Domain.mul_scalar_standsFor`), and the order annihilates every point. So sums, products and
opposites of scalars, taken modulo the order, come out as sums, iterated multiples and opposites
of points, and the multiples of the generator tell the scalars apart.

Key theorems: `Jacobian.StandsFor.same_iff`, `Domain.mul_scalar_standsFor`,
`Domain.scalars_act`.
-/
import Mathlib
import ShortWeierstrass.Proofs.Verification

namespace ShortWeierstrass

variable {L : ℕ}

/-! ### Triples of one point -/

namespace Jacobian

variable {c : Curve L} {p q : Jacobian c}

/-- The comparison, by what is zero and what is equal crosswise. -/
theorem Coordinates.same_iff {X₁ Y₁ Z₁ X₂ Y₂ Z₂ : c.base.Ring} (hp : p.Coordinates X₁ Y₁ Z₁)
    (hq : q.Coordinates X₂ Y₂ Z₂) :
    p.same q = true ↔ (Z₁ = 0 ∧ Z₂ = 0) ∨
      Z₁ ≠ 0 ∧ Z₂ ≠ 0 ∧ X₁ * Z₂ ^ 2 = X₂ * Z₁ ^ 2 ∧ Y₁ * Z₂ ^ 3 = Y₂ * Z₁ ^ 3 := by
  have zz₁ := hp.z.square
  have zz₂ := hq.z.square
  have sameX := (hp.x.mul zz₂).eq_iff (hq.x.mul zz₁)
  have sameY := ((hp.y.mul zz₂).mul hq.z).eq_iff ((hq.y.mul zz₁).mul hp.z)
  rw [mul_assoc, mul_assoc, ← pow_succ, ← pow_succ] at sameY
  simp only [same, isIdentity, Bool.or_eq_true, Bool.and_eq_true, Bool.not_eq_true',
    ← Bool.not_eq_true, decide_eq_true_iff, hp.z.isZero_iff, hq.z.isZero_iff, sameX, sameY, ne_eq,
    and_assoc]

variable [c.Elliptic] {g h : c.Group}

/-- Two triples are found equal exactly if they stand for one point. -/
theorem StandsFor.same_iff (hp : p.StandsFor g) (hq : q.StandsFor h) :
    p.same q = true ↔ g = h := by
  obtain ⟨X₁, Y₁, Z₁, coordinates₁, represents₁⟩ := hp
  obtain ⟨X₂, Y₂, Z₂, coordinates₂, represents₂⟩ := hq
  rw [coordinates₁.same_iff coordinates₂, represents₁.zero_iff.ne, represents₂.zero_iff.ne,
    represents₁.zero_iff, represents₂.zero_iff]
  rcases eq_or_ne g 0 with rfl | finite₁
  · simp [eq_comm]
  rcases eq_or_ne h 0 with rfl | finite₂
  · simp
  rw [or_iff_right fun both => finite₁ both.1, and_iff_right finite₁, and_iff_right finite₂]
  cases g with
  | zero => exact absurd rfl finite₁
  | some x₁ y₁ on₁ =>
    cases h with
    | zero => exact absurd rfl finite₂
    | some x₂ y₂ on₂ =>
      obtain ⟨nonzero₁, rfl, rfl⟩ := represents₁
      obtain ⟨nonzero₂, rfl, rfl⟩ := represents₂
      rw [cross_iff nonzero₂ nonzero₁, cross_iff nonzero₂ nonzero₁,
        WeierstrassCurve.Affine.Point.some.injEq]
      exact and_congr eq_comm eq_comm

end Jacobian

/-! ### Multiples by scalars -/

namespace Domain

variable {d : Domain L} {p : Jacobian d.toCurve} {g : d.Group} {x y : d.Scalar}
  {a b : d.order.Ring}

variable [d.Admitted]

theorem mul_scalar_standsFor (hp : p.StandsFor g) (hx : x.StandsFor a) :
    (d.mul p x.value).StandsFor (a.val • g) := by
  rw [← hx.value_toNat]
  exact mul_standsFor hp (value_lt_two_pow hx)

theorem mulGenerator_scalar_standsFor (hx : x.StandsFor a) :
    (d.mulGenerator x.value).StandsFor (a.val • d.generatorPoint) := by
  rw [← hx.value_toNat]
  exact mulGenerator_standsFor d.basePoint_standsFor (value_lt_two_pow hx)

theorem val_smul_generatorPoint_inj :
    a.val • d.generatorPoint = b.val • d.generatorPoint ↔ a = b := by
  rw [← sub_eq_zero, ← sub_val_smul, val_smul_generatorPoint_eq_zero_iff, sub_eq_zero]

/-- **The scalars modulo the order act on the points.** Whatever wraps around modulo the order is
not seen: the multiple by a sum, a product or an opposite of scalars is found equal to the sum
of the multiples, the multiple of the multiple and the opposite of the multiple, for every valid
point and for the generator, with a comb or without one. Multiples of the generator are found equal
for equal scalars only. -/
theorem scalars_act (d : Domain L) [d.Admitted] {p : Jacobian d.toCurve} (hp : p.Valid)
    {x y : d.Scalar} (hx : x.Canonical) (hy : y.Canonical) :
    (d.mul p (x + y).value).same (d.mul p x.value + d.mul p y.value) = true ∧
    (d.mul p (x * y).value).same (d.mul (d.mul p x.value) y.value) = true ∧
    (d.mul p (-x).value).same (-d.mul p x.value) = true ∧
    (d.mulGenerator (x + y).value).same (d.mulGenerator x.value + d.mulGenerator y.value) = true ∧
    (d.mulGeneratorAdd x.value p y.value).same (d.mulGenerator x.value + d.mul p y.value) = true ∧
    ((d.mulGenerator x.value).same (d.mulGenerator y.value) = true ↔ x = y) := by
  have point := hp.standsFor
  have left := Residue.standsFor_toRing hx
  have right := Residue.standsFor_toRing hy
  have leftPoint := mul_scalar_standsFor point left
  have rightPoint := mul_scalar_standsFor point right
  have leftMultiple := mulGenerator_scalar_standsFor left
  have rightMultiple := mulGenerator_scalar_standsFor right
  refine ⟨?_, ?_, ?_, ?_, ?_, ?_⟩
  · have sum := mul_scalar_standsFor point (left.add right)
    exact (sum.same_iff (leftPoint.add rightPoint)).mpr (add_val_smul _ _ _)
  · have product := mul_scalar_standsFor point (left.mul right)
    rw [mul_comm] at product
    exact (product.same_iff (mul_scalar_standsFor leftPoint right)).mpr (mul_val_smul _ _ _)
  · have opposite := mul_scalar_standsFor point left.neg
    exact (opposite.same_iff leftPoint.neg).mpr (neg_val_smul _ _)
  · have sum := mulGenerator_scalar_standsFor (left.add right)
    exact (sum.same_iff (leftMultiple.add rightMultiple)).mpr (add_val_smul _ _ _)
  · have both := mulGeneratorAdd_standsFor d.basePoint_standsFor point (value_lt_two_pow left)
      (value_lt_two_pow right)
    rw [left.value_toNat, right.value_toNat] at both
    exact (both.same_iff (leftMultiple.add rightPoint)).mpr rfl
  · rw [leftMultiple.same_iff rightMultiple, left.eq_iff right]
    exact val_smul_generatorPoint_inj

/-- The scalars 5 and 2 modulo 7, which add up to zero, and the generator with `Z = 2`: its
multiples are opposite triples, and add up to one with `Z = 0`. -/
theorem scalars_act_mod11 :
    let d := Small.mod11
    let p : Jacobian d.toCurve := ⟨.ofNat 2, .ofNat 5, .ofNat 2⟩
    let x : d.Scalar := .ofNat 5
    let y : d.Scalar := .ofNat 2
    p.Valid ∧ x.Canonical ∧ y.Canonical ∧ x + y = 0 ∧
      (d.mul p x.value + d.mul p y.value).isIdentity = true ∧
      (d.mul p (x + y).value).same (d.mul p x.value + d.mul p y.value) = true ∧
      (d.mul p (x * y).value).same (d.mul (d.mul p x.value) y.value) = true ∧
      (d.mul p (-x).value).same (-d.mul p x.value) = true := by
  intro d p x y
  have hp : p.Valid := by decide +kernel
  have hx : x.Canonical := by decide +kernel
  have hy : y.Canonical := by decide +kernel
  obtain ⟨sum, product, opposite, -⟩ := scalars_act Small.mod11 hp hx hy
  exact ⟨hp, hx, hy, by decide +kernel, by decide +kernel, sum, product, opposite⟩

end Domain
end ShortWeierstrass
