/-
# Jacobian triples compute in the group of the curve

Over a prime modulus above 3 and with coefficients that make the equation
nonsingular (`Curve.Elliptic`), the points of a curve form a group
(`Curve.Group`). A triple stands for an element of it (`Jacobian.StandsFor`) by the
classes of its coordinates: any triple with `Z = 0` for the identity, and for `(x, y)`
the triples `(x Z², y Z³, Z)`.

The double and the opposite of a triple stand for the double and the opposite
whatever the triple is. The sum formula alone (`Jacobian.chord`) is right for two
finite points with different first coordinates and for two opposite ones; the
selections of `Jacobian.add` send every other pair where it belongs.

Key definitions: `Curve.Elliptic`, `Curve.Group`, `Jacobian.StandsFor`, `Jacobian.Valid`,
`Jacobian.point`.
Key theorems: `Jacobian.StandsFor.double`, `Jacobian.StandsFor.add`, `jacobian_group_law`.
-/
import Mathlib
import ShortWeierstrass.Curves.Small
import ShortWeierstrass.Point.Jacobian
import ShortWeierstrass.Proofs.ResidueRing

namespace ShortWeierstrass

variable {L : ℕ}

/-! ### The group of a curve -/

/-- The curve is nonsingular, over a prime modulus above 3. -/
class Curve.Elliptic (c : Curve L) : Prop where
  prime : c.base.value.toNat.Prime
  three_lt : 3 < c.base.value.toNat
  a_canonical : c.a.Canonical
  b_canonical : c.b.Canonical
  discriminant_ne : 4 * c.a.toRing ^ 3 + 27 * c.b.toRing ^ 2 ≠ 0

namespace Curve

variable (c : Curve L)

/-- The equation over the classes modulo the base modulus. -/
def weierstrass : WeierstrassCurve.Affine c.base.Ring := ⟨0, 0, 0, c.a.toRing, c.b.toRing⟩

/-- The points of the curve, with the point at infinity. -/
abbrev Group : Type := c.weierstrass.Point

variable [c.Elliptic]

instance : Fact c.base.value.toNat.Prime := ⟨Elliptic.prime⟩

theorem two_ne_zero : (2 : c.base.Ring) ≠ 0 := by
  intro zero
  have divides : c.base.value.toNat ∣ 2 := (ZMod.natCast_eq_zero_iff 2 _).mp (by simpa using zero)
  have le := Nat.le_of_dvd (by decide) divides
  have gt := Elliptic.three_lt (c := c)
  omega

instance : c.weierstrass.IsElliptic := by
  have discriminant : c.weierstrass.Δ = -(2 ^ 4) * (4 * c.a.toRing ^ 3 + 27 * c.b.toRing ^ 2) := by
    simp [weierstrass, WeierstrassCurve.Δ, WeierstrassCurve.b₂, WeierstrassCurve.b₄,
      WeierstrassCurve.b₆, WeierstrassCurve.b₈]
    ring
  refine ⟨?_⟩
  rw [discriminant, isUnit_iff_ne_zero]
  exact mul_ne_zero (neg_ne_zero.mpr (pow_ne_zero 4 c.two_ne_zero)) Elliptic.discriminant_ne

variable {c} {x y x₁ y₁ x₂ y₂ : c.base.Ring}

theorem nonsingular_iff :
    c.weierstrass.Nonsingular x y ↔ y ^ 2 = x ^ 3 + c.a.toRing * x + c.b.toRing := by
  rw [← WeierstrassCurve.Affine.equation_iff_nonsingular, WeierstrassCurve.Affine.equation_iff]
  simp [weierstrass]

@[simp] theorem negY_eq : c.weierstrass.negY x y = -y := by
  simp [weierstrass, WeierstrassCurve.Affine.negY]

theorem add_eq_zero {h₁ : c.weierstrass.Nonsingular x y₁} {h₂ : c.weierstrass.Nonsingular x y₂}
    (ne : y₁ ≠ y₂) :
    (.some x y₁ h₁ + .some x y₂ h₂ : c.Group) = 0 := by
  rcases WeierstrassCurve.Affine.Y_eq_of_X_eq h₁.1 h₂.1 rfl with e | e
  · exact absurd e ne
  · exact WeierstrassCurve.Affine.Point.add_of_Y_eq rfl e

end Curve

/-! ### What a triple stands for -/

namespace Jacobian

variable {c : Curve L} {p q : Jacobian c}

/-- The classes of the coordinates. -/
structure Coordinates (p : Jacobian c) (X Y Z : c.base.Ring) : Prop where
  x : p.x.StandsFor X
  y : p.y.StandsFor Y
  z : p.z.StandsFor Z

/-- Classes of coordinates of a point of the group. -/
def Represents {c : Curve L} (X Y Z : c.base.Ring) : c.Group → Prop
  | .zero => Z = 0
  | .some x y _ => Z ≠ 0 ∧ X = x * Z ^ 2 ∧ Y = y * Z ^ 3

/-- The triple is canonical and its coordinates represent the point. -/
def StandsFor (p : Jacobian c) (g : c.Group) : Prop :=
  ∃ X Y Z, p.Coordinates X Y Z ∧ Represents X Y Z g

theorem identity_standsFor : (identity : Jacobian c).StandsFor 0 :=
  ⟨1, 1, 0, ⟨Residue.one_standsFor, Residue.one_standsFor, Residue.zero_standsFor⟩, rfl⟩

theorem Represents.zero_iff {X Y Z : c.base.Ring} {g : c.Group} (h : Represents X Y Z g) :
    Z = 0 ↔ g = 0 := by
  cases g with
  | zero => exact iff_of_true h rfl
  | some x y on => exact iff_of_false h.1 (WeierstrassCurve.Affine.Point.some_ne_zero on)

theorem StandsFor.isIdentity_iff {g : c.Group} (h : p.StandsFor g) : p.isIdentity ↔ g = 0 := by
  obtain ⟨X, Y, Z, coordinates, represents⟩ := h
  rw [isIdentity, coordinates.z.isZero_iff, represents.zero_iff]

/-! ### Opposites and doubles -/

theorem StandsFor.neg [c.Elliptic] {g : c.Group} (h : p.StandsFor g) : (-p).StandsFor (-g) := by
  obtain ⟨X, Y, Z, coordinates, represents⟩ := h
  refine ⟨X, -Y, Z, ⟨coordinates.x, coordinates.y.neg, coordinates.z⟩, ?_⟩
  cases g with
  | zero => exact represents
  | some x y on =>
    obtain ⟨finite, rfl, rfl⟩ := represents
    rw [WeierstrassCurve.Affine.Point.neg_some]
    refine ⟨finite, rfl, ?_⟩
    rw [Curve.negY_eq]
    ring

theorem Coordinates.double {X Y Z : c.base.Ring} {a : c.base.Ring} (ha : c.a.StandsFor a)
    (h : p.Coordinates X Y Z) :
    let m := 3 * X ^ 2 + a * Z ^ 4
    p.double.Coordinates (m ^ 2 - 8 * X * Y ^ 2)
      (m * (12 * X * Y ^ 2 - m ^ 2) - 8 * Y ^ 4) (2 * Y * Z) := by
  intro m
  have xx := h.x.square
  have yy := h.y.square
  have yyyy := yy.square
  have zz := h.z.square
  have s := (((h.x.add yy).square.sub xx).sub yyyy).double
  have slope := (xx.double.add xx).add (ha.mul zz.square)
  have x := slope.square.sub s.double
  have y := (slope.mul (s.sub x)).sub yyyy.double.double.double
  have z := ((h.y.add h.z).square.sub yy).sub zz
  exact ⟨x.congr (by ring), y.congr (by ring), z.congr (by ring)⟩

variable [c.Elliptic]

/-- The tangent meets the curve in the opposite of the double. -/
theorem Represents.double {x y Z : c.base.Ring} (on : c.weierstrass.Nonsingular x y)
    (finite : Z ≠ 0) :
    let m := 3 * (x * Z ^ 2) ^ 2 + c.a.toRing * Z ^ 4
    Represents (m ^ 2 - 8 * (x * Z ^ 2) * (y * Z ^ 3) ^ 2)
      (m * (12 * (x * Z ^ 2) * (y * Z ^ 3) ^ 2 - m ^ 2) - 8 * (y * Z ^ 3) ^ 4)
      (2 * (y * Z ^ 3) * Z) (.some x y on + .some x y on : c.Group) := by
  intro m
  by_cases vertical : y = 0
  · have opposite : y = c.weierstrass.negY x y := by rw [Curve.negY_eq, vertical, neg_zero]
    rw [WeierstrassCurve.Affine.Point.add_self_of_Y_eq opposite]
    show 2 * (y * Z ^ 3) * Z = 0
    rw [vertical]
    ring
  · have two := c.two_ne_zero
    have proper : y ≠ c.weierstrass.negY x y := by
      rw [Curve.negY_eq]
      intro e
      exact mul_ne_zero two vertical (by linear_combination e)
    rw [WeierstrassCurve.Affine.Point.add_self_of_Y_ne proper]
    have slope : c.weierstrass.slope x x y y = (3 * x ^ 2 + c.a.toRing) / (2 * y) := by
      rw [WeierstrassCurve.Affine.slope_of_Y_ne rfl proper, Curve.negY_eq]
      simp only [Curve.weierstrass]
      ring
    have lifted : y * Z ^ 3 ≠ 0 := mul_ne_zero vertical (pow_ne_zero 3 finite)
    refine ⟨mul_ne_zero (mul_ne_zero two lifted) finite, ?_, ?_⟩
    · rw [slope]
      simp only [WeierstrassCurve.Affine.addX, Curve.weierstrass]
      field_simp
      ring
    · rw [slope]
      simp only [WeierstrassCurve.Affine.addY, WeierstrassCurve.Affine.negAddY,
        WeierstrassCurve.Affine.negY, WeierstrassCurve.Affine.addX, Curve.weierstrass]
      field_simp
      ring

/-- Doubling is complete: it needs no case distinction. -/
theorem StandsFor.double {g : c.Group} (h : p.StandsFor g) : p.double.StandsFor (g + g) := by
  obtain ⟨X, Y, Z, coordinates, represents⟩ := h
  have a := Residue.standsFor_toRing (Curve.Elliptic.a_canonical (c := c))
  refine ⟨_, _, _, coordinates.double a, ?_⟩
  cases g with
  | zero =>
    obtain rfl : Z = 0 := represents
    exact mul_zero _
  | some x y on =>
    obtain ⟨finite, rfl, rfl⟩ := represents
    exact Represents.double on finite

/-! ### Sums -/

/-- The formula for the sum of two points, before any selection. -/
def chord (p q : Jacobian c) : Jacobian c :=
  let z1z1 := p.z.square
  let z2z2 := q.z.square
  let u1 := p.x * z2z2
  let s1 := p.y * q.z * z2z2
  let h := q.x * z1z1 - u1
  let i := h.double.square
  let j := h * i
  let r := (q.y * p.z * z1z1 - s1).double
  let v := u1 * i
  let x := r.square - j - v.double
  { x
    y := r * (v - x) - (s1 * j).double
    z := ((p.z + q.z).square - z1z1 - z2z2) * h }

/-- The sum is the formula's, the double or an operand, by what is zero. -/
theorem Coordinates.add_eq {X₁ Y₁ Z₁ X₂ Y₂ Z₂ : c.base.Ring} (hp : p.Coordinates X₁ Y₁ Z₁)
    (hq : q.Coordinates X₂ Y₂ Z₂) :
    p + q =
      if Z₂ = 0 then p
      else if Z₁ = 0 then q
      else if X₂ * Z₁ ^ 2 = X₁ * Z₂ ^ 2 ∧ Y₂ * Z₁ ^ 3 = Y₁ * Z₂ ^ 3 then p.double
      else chord p q := by
  have zz₁ := hp.z.square
  have zz₂ := hq.z.square
  have h := (hq.x.mul zz₁).sub (hp.x.mul zz₂)
  have r := (((hq.y.mul hp.z).mul zz₁).sub ((hp.y.mul hq.z).mul zz₂)).double
  have sameX := h.isZero_iff.trans sub_eq_zero
  have sameY := (r.isZero_iff.trans (mul_eq_zero_iff_left c.two_ne_zero)).trans sub_eq_zero
  rw [show Y₂ * Z₁ * Z₁ ^ 2 = Y₂ * Z₁ ^ 3 by ring, show Y₁ * Z₂ * Z₂ ^ 2 = Y₁ * Z₂ ^ 3 by ring]
    at sameY
  show (((Jacobian.chord p q).select p.double (_ && _)).select q p.z.isZero).select p q.z.isZero = _
  simp only [Jacobian.select, Bool.and_eq_true, sameX, sameY, hp.z.isZero_iff, hq.z.isZero_iff]

theorem Coordinates.chord {X₁ Y₁ Z₁ X₂ Y₂ Z₂ : c.base.Ring} (hp : p.Coordinates X₁ Y₁ Z₁)
    (hq : q.Coordinates X₂ Y₂ Z₂) :
    let h := X₂ * Z₁ ^ 2 - X₁ * Z₂ ^ 2
    let r := 2 * (Y₂ * Z₁ ^ 3 - Y₁ * Z₂ ^ 3)
    let v := 4 * X₁ * Z₂ ^ 2 * h ^ 2
    let x := r ^ 2 - 4 * h ^ 3 - 2 * v
    (Jacobian.chord p q).Coordinates x (r * (v - x) - 8 * Y₁ * Z₂ ^ 3 * h ^ 3)
      (2 * Z₁ * Z₂ * h) := by
  intro h r v x
  have zz₁ := hp.z.square
  have zz₂ := hq.z.square
  have u₁ := hp.x.mul zz₂
  have s₁ := (hp.y.mul hq.z).mul zz₂
  have h' := (hq.x.mul zz₁).sub u₁
  have i := h'.double.square
  have j := h'.mul i
  have r' := (((hq.y.mul hp.z).mul zz₁).sub s₁).double
  have v' := u₁.mul i
  have x' := (r'.square.sub j).sub v'.double
  have y' := (r'.mul (v'.sub x')).sub (s₁.mul j).double
  have z' := (((hp.z.add hq.z).square.sub zz₁).sub zz₂).mul h'
  exact ⟨x'.congr (by ring), y'.congr (by ring), z'.congr (by ring)⟩

/-- The line through two points of different first coordinates meets the curve in
the opposite of their sum. -/
theorem Represents.chord {x₁ y₁ Z₁ x₂ y₂ Z₂ : c.base.Ring} (on₁ : c.weierstrass.Nonsingular x₁ y₁)
    (on₂ : c.weierstrass.Nonsingular x₂ y₂) (finite₁ : Z₁ ≠ 0) (finite₂ : Z₂ ≠ 0)
    (ne : x₁ ≠ x₂) :
    let h := x₂ * Z₂ ^ 2 * Z₁ ^ 2 - x₁ * Z₁ ^ 2 * Z₂ ^ 2
    let r := 2 * (y₂ * Z₂ ^ 3 * Z₁ ^ 3 - y₁ * Z₁ ^ 3 * Z₂ ^ 3)
    let v := 4 * (x₁ * Z₁ ^ 2) * Z₂ ^ 2 * h ^ 2
    let x := r ^ 2 - 4 * h ^ 3 - 2 * v
    Represents x (r * (v - x) - 8 * (y₁ * Z₁ ^ 3) * Z₂ ^ 3 * h ^ 3) (2 * Z₁ * Z₂ * h)
      (.some x₁ y₁ on₁ + .some x₂ y₂ on₂ : c.Group) := by
  intro h r v x
  have apart : x₂ - x₁ ≠ 0 := sub_ne_zero.mpr ne.symm
  have h_eq : h = (x₂ - x₁) * Z₁ ^ 2 * Z₂ ^ 2 := by ring
  have h_ne : h ≠ 0 := by
    rw [h_eq]
    exact mul_ne_zero (mul_ne_zero apart (pow_ne_zero 2 finite₁)) (pow_ne_zero 2 finite₂)
  rw [WeierstrassCurve.Affine.Point.add_of_X_ne ne]
  have slope : c.weierstrass.slope x₁ x₂ y₁ y₂ = (y₂ - y₁) / (x₂ - x₁) := by
    rw [WeierstrassCurve.Affine.slope_of_X_ne ne, ← neg_sub y₂, ← neg_sub x₂, neg_div_neg_eq]
  refine ⟨mul_ne_zero (mul_ne_zero (mul_ne_zero c.two_ne_zero finite₁) finite₂) h_ne, ?_, ?_⟩
  · rw [slope]
    simp only [WeierstrassCurve.Affine.addX, Curve.weierstrass, x, v, r, h_eq]
    field_simp
    ring
  · rw [slope]
    simp only [WeierstrassCurve.Affine.addY, WeierstrassCurve.Affine.negAddY,
      WeierstrassCurve.Affine.negY, WeierstrassCurve.Affine.addX, Curve.weierstrass, x, v, r, h_eq]
    field_simp
    ring

theorem cross_iff {n : ℕ} {t₁ t₂ Z₁ Z₂ : c.base.Ring} (finite₁ : Z₁ ≠ 0) (finite₂ : Z₂ ≠ 0) :
    t₂ * Z₂ ^ n * Z₁ ^ n = t₁ * Z₁ ^ n * Z₂ ^ n ↔ t₁ = t₂ := by
  rw [mul_right_comm t₁, mul_assoc, mul_assoc,
    mul_left_inj' (mul_ne_zero (pow_ne_zero n finite₂) (pow_ne_zero n finite₁)), eq_comm]

/-- Two finite points: equal ones are doubled, and the formula is right for all others. -/
theorem StandsFor.add_finite {x₁ y₁ Z₁ x₂ y₂ Z₂ : c.base.Ring}
    {on₁ : c.weierstrass.Nonsingular x₁ y₁} {on₂ : c.weierstrass.Nonsingular x₂ y₂}
    (hp : p.Coordinates (x₁ * Z₁ ^ 2) (y₁ * Z₁ ^ 3) Z₁)
    (hq : q.Coordinates (x₂ * Z₂ ^ 2) (y₂ * Z₂ ^ 3) Z₂) (finite₁ : Z₁ ≠ 0) (finite₂ : Z₂ ≠ 0) :
    (if x₁ = x₂ ∧ y₁ = y₂ then p.double else p.chord q).StandsFor
      (.some x₁ y₁ on₁ + .some x₂ y₂ on₂) := by
  have chord := hp.chord hq
  by_cases ex : x₁ = x₂
  · subst ex
    by_cases ey : y₁ = y₂
    · subst ey
      rw [if_pos ⟨rfl, rfl⟩]
      exact StandsFor.double ⟨_, _, _, hp, finite₁, rfl, rfl⟩
    · -- Opposite points: the formula's `Z` has the factor `x₁ - x₁`.
      rw [if_neg fun both => ey both.2, Curve.add_eq_zero ey]
      refine ⟨_, _, _, chord, ?_⟩
      show _ * (_ - _) = (0 : c.base.Ring)
      ring
  · rw [if_neg fun both => ex both.1]
    exact ⟨_, _, _, chord, Represents.chord on₁ on₂ finite₁ finite₂ ex⟩

/-- The selections make addition complete. -/
theorem StandsFor.add {g₁ g₂ : c.Group} (hp : p.StandsFor g₁) (hq : q.StandsFor g₂) :
    (p + q).StandsFor (g₁ + g₂) := by
  obtain ⟨X₁, Y₁, Z₁, coordinates₁, represents₁⟩ := id hp
  obtain ⟨X₂, Y₂, Z₂, coordinates₂, represents₂⟩ := id hq
  rw [coordinates₁.add_eq coordinates₂]
  by_cases identity₂ : Z₂ = 0
  · obtain rfl := represents₂.zero_iff.mp identity₂
    rw [if_pos identity₂, add_zero]
    exact hp
  rw [if_neg identity₂]
  by_cases identity₁ : Z₁ = 0
  · obtain rfl := represents₁.zero_iff.mp identity₁
    rw [if_pos identity₁, zero_add]
    exact hq
  rw [if_neg identity₁]
  cases g₁ with
  | zero => exact absurd represents₁ identity₁
  | some x₁ y₁ on₁ =>
    cases g₂ with
    | zero => exact absurd represents₂ identity₂
    | some x₂ y₂ on₂ =>
      obtain ⟨-, rfl, rfl⟩ := represents₁
      obtain ⟨-, rfl, rfl⟩ := represents₂
      simp only [cross_iff identity₁ identity₂]
      exact StandsFor.add_finite coordinates₁ coordinates₂ identity₁ identity₂

theorem StandsFor.sub {g₁ g₂ : c.Group} (hp : p.StandsFor g₁) (hq : q.StandsFor g₂) :
    (p - q).StandsFor (g₁ - g₂) := by
  rw [sub_eq_add_neg]
  exact hp.add hq.neg

/-! ### Valid triples and the points they denote -/

/-- The coordinates are canonical and, unless `Z = 0`, satisfy the equation. -/
structure Valid (p : Jacobian c) : Prop where
  x_canonical : p.x.Canonical
  y_canonical : p.y.Canonical
  z_canonical : p.z.Canonical
  equation : p.z.toRing = 0 ∨
    p.y.toRing ^ 2 = p.x.toRing ^ 3 + c.a.toRing * p.x.toRing * p.z.toRing ^ 4
      + c.b.toRing * p.z.toRing ^ 6

theorem valid_iff : p.Valid ↔
    p.x.Canonical ∧ p.y.Canonical ∧ p.z.Canonical ∧ (p.z.toRing = 0 ∨
      p.y.toRing ^ 2 = p.x.toRing ^ 3 + c.a.toRing * p.x.toRing * p.z.toRing ^ 4
        + c.b.toRing * p.z.toRing ^ 6) :=
  ⟨fun ⟨x, y, z, e⟩ => ⟨x, y, z, e⟩, fun ⟨x, y, z, e⟩ => ⟨x, y, z, e⟩⟩

instance (p : Jacobian c) : Decidable p.Valid := decidable_of_iff _ valid_iff.symm

/-- The point `(X / Z², Y / Z³)`, the identity if `Z = 0`. -/
noncomputable def point (p : Jacobian c) : c.Group :=
  open Classical in
  if h : p.z.toRing ≠ 0 ∧
      c.weierstrass.Nonsingular (p.x.toRing / p.z.toRing ^ 2) (p.y.toRing / p.z.toRing ^ 3) then
    .some _ _ h.2
  else 0

theorem nonsingular_div_iff {X Y Z : c.base.Ring} (finite : Z ≠ 0) :
    c.weierstrass.Nonsingular (X / Z ^ 2) (Y / Z ^ 3) ↔
      Y ^ 2 = X ^ 3 + c.a.toRing * X * Z ^ 4 + c.b.toRing * Z ^ 6 := by
  rw [Curve.nonsingular_iff]
  field_simp

theorem point_eq_zero (h : p.z.toRing = 0) : p.point = 0 := dif_neg fun both => both.1 h

theorem point_eq_some (finite : p.z.toRing ≠ 0)
    (on : c.weierstrass.Nonsingular (p.x.toRing / p.z.toRing ^ 2) (p.y.toRing / p.z.toRing ^ 3)) :
    p.point = .some _ _ on := dif_pos ⟨finite, on⟩

/-- What a triple stands for is the point that it denotes, and the valid triples are
those that stand for one. -/
theorem standsFor_iff {g : c.Group} : p.StandsFor g ↔ p.Valid ∧ p.point = g := by
  constructor
  · rintro ⟨X, Y, Z, ⟨x, y, z⟩, represents⟩
    obtain rfl := x.toRing_eq
    obtain rfl := y.toRing_eq
    obtain rfl := z.toRing_eq
    cases g with
    | zero => exact ⟨⟨x.canonical, y.canonical, z.canonical, .inl represents⟩,
        point_eq_zero represents⟩
    | some x' y' on =>
      obtain ⟨finite, ex, ey⟩ := represents
      have x_eq : p.x.toRing / p.z.toRing ^ 2 = x' := by rw [ex]; field_simp
      have y_eq : p.y.toRing / p.z.toRing ^ 3 = y' := by rw [ey]; field_simp
      have on' := on
      rw [← x_eq, ← y_eq] at on'
      have equation := (nonsingular_div_iff finite).mp on'
      refine ⟨⟨x.canonical, y.canonical, z.canonical, .inr equation⟩, ?_⟩
      rw [point_eq_some finite on']
      simp only [x_eq, y_eq]
  · rintro ⟨valid, rfl⟩
    refine ⟨_, _, _, ⟨Residue.standsFor_toRing valid.x_canonical,
      Residue.standsFor_toRing valid.y_canonical, Residue.standsFor_toRing valid.z_canonical⟩, ?_⟩
    by_cases identity : p.z.toRing = 0
    · rw [point_eq_zero identity]
      exact identity
    · have on := (nonsingular_div_iff identity).mpr (valid.equation.resolve_left identity)
      rw [point_eq_some identity on]
      exact ⟨identity, by field_simp, by field_simp⟩

theorem Valid.standsFor (h : p.Valid) : p.StandsFor p.point := standsFor_iff.mpr ⟨h, rfl⟩

end Jacobian

/-- **The Jacobian formulas compute in the group of the curve.** From valid triples, of
whatever representation, sum, double, opposite and difference come out valid and denote the
sum, the double, the opposite and the difference of the points. -/
theorem jacobian_group_law (c : Curve L) [c.Elliptic] (p q : Jacobian c) (hp : p.Valid)
    (hq : q.Valid) :
    ((p + q).Valid ∧ (p + q).point = p.point + q.point) ∧
    (p.double.Valid ∧ p.double.point = 2 • p.point) ∧
    ((-p).Valid ∧ (-p).point = -p.point) ∧
    ((p - q).Valid ∧ (p - q).point = p.point - q.point) := by
  refine ⟨?_, ?_, ?_, ?_⟩
  · exact Jacobian.standsFor_iff.mp (hp.standsFor.add hq.standsFor)
  · rw [two_smul]
    exact Jacobian.standsFor_iff.mp hp.standsFor.double
  · exact Jacobian.standsFor_iff.mp hp.standsFor.neg
  · exact Jacobian.standsFor_iff.mp (hp.standsFor.sub hq.standsFor)

/-! ### The curve modulo 251 -/

theorem Small.mod251_value : Small.mod251Curve.base.value.toNat = 251 :=
  Modulus.value_ofNat 1 251 2 none (by decide +kernel)

instance : Small.mod251Curve.Elliptic where
  prime := by
    rw [Small.mod251_value]
    norm_num
  three_lt := by
    rw [Small.mod251_value]
    decide
  a_canonical := (Residue.ofNat_standsFor (n := 38) (by decide)).canonical
  b_canonical := (Residue.ofNat_standsFor (n := 108) (by decide)).canonical
  discriminant_ne := by decide +kernel

/-- The generator of the curve modulo 251 with `Z = 1` and with `Z = 2`: the sum of the
two triples is found to be a double. -/
theorem jacobian_group_law_mod251 :
    let p : Jacobian Small.mod251Curve := ⟨.ofNat 72, .ofNat 40, 1⟩
    let q : Jacobian Small.mod251Curve := ⟨.ofNat 37, .ofNat 69, .ofNat 2⟩
    p.Valid ∧ q.Valid ∧ (p + q).Valid ∧ (p + q).point = p.point + q.point ∧ p + q = p.double := by
  intro p q
  have hp : p.Valid := by decide +kernel
  have hq : q.Valid := by decide +kernel
  obtain ⟨⟨valid, sum⟩, -⟩ := jacobian_group_law Small.mod251Curve p q hp hq
  exact ⟨hp, hq, valid, sum, by decide +kernel⟩

end ShortWeierstrass
