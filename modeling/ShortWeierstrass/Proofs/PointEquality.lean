/-
# Equality and conversion of points, over all triples

What a triple denotes is the pair `(X / Z², Y / Z³)` of classes, or nothing if `Z = 0`
(`Jacobian.denoted`). The comparison multiplies crosswise by powers of `Z` that cancel
(`Jacobian.Coordinates.same_iff`), and an affine point is canonical and has one pair of coordinates
(`Affine.Denotes.eq_iff`); so comparing triples, comparing what they are converted to and comparing
what they denote come to the same. The modulus is a prime, for the sake of the division, but `a`
and `b` are any two residues: the curve may be singular. On a nonsingular one the valid triples are
those of `Jacobian.Valid` (`Jacobian.valid_iff_onCurve`).

Key definitions: `Jacobian.OnCurve`, `Jacobian.denoted`, `Affine.Denotes`.
Key theorems: `Jacobian.Coordinates.same_iff_denoted_eq`, `Jacobian.Coordinates.toAffine_denotes`,
`Jacobian.conversion_respects_points`.
-/
import Mathlib
import ShortWeierstrass.Proofs.PointCodec
import ShortWeierstrass.Proofs.ScalarAction

namespace ShortWeierstrass

variable {L : ℕ} {c : Curve L}

/-! ### Affine points -/

namespace Affine

/-- The affine point is canonical and has these coordinates, the point at infinity none. -/
inductive Denotes : Affine c → Option (c.base.Ring × c.base.Ring) → Prop where
  | infinity : Denotes .infinity none
  | finite {x y : Residue c.base} {X Y : c.base.Ring} (hx : x.StandsFor X) (hy : y.StandsFor Y) :
      Denotes (.finite x y) (some (X, Y))

variable {q q' : Affine c} {point point' : Option (c.base.Ring × c.base.Ring)}

/-- There is one affine point for each pair of coordinates. -/
theorem Denotes.eq_iff (h : q.Denotes point) (h' : q'.Denotes point') :
    q = q' ↔ point = point' := by
  cases h with
  | infinity =>
    cases h' with
    | infinity => exact iff_of_true rfl rfl
    | finite => exact iff_of_false nofun nofun
  | finite hx hy =>
    cases h' with
    | infinity => exact iff_of_false nofun nofun
    | finite hx' hy' =>
      rw [finite.injEq, hx.eq_iff hx', hy.eq_iff hy', Option.some_inj, Prod.mk.injEq]

theorem Denotes.canonical (h : q.Denotes point) : q.x.Canonical ∧ q.y.Canonical := by
  cases h with
  | infinity => exact ⟨Residue.zero_standsFor.canonical, Residue.zero_standsFor.canonical⟩
  | finite hx hy => exact ⟨hx.canonical, hy.canonical⟩

theorem Denotes.neg (h : q.Denotes point) :
    q.neg.Denotes (point.map fun coordinates => (coordinates.1, -coordinates.2)) := by
  cases h with
  | infinity => exact .infinity
  | finite hx hy => exact .finite hx hy.neg

theorem IsPoint.denotes (h : q.IsPoint) : ∃ X Y, q.Denotes (some (X, Y)) := by
  cases q with
  | infinity => cases h.finite
  | finite x y =>
    exact ⟨_, _, .finite (Residue.standsFor_toRing h.x_canonical)
      (Residue.standsFor_toRing h.y_canonical)⟩

end Affine

/-! ### Triples -/

namespace Jacobian

variable {p q : Jacobian c} {X Y Z X₁ Y₁ Z₁ X₂ Y₂ Z₂ : c.base.Ring}

/-- The coordinates are canonical and, unless `Z = 0`, satisfy the equation. -/
structure OnCurve (p : Jacobian c) : Prop where
  x_canonical : p.x.Canonical
  y_canonical : p.y.Canonical
  z_canonical : p.z.Canonical
  equation : p.z.toRing = 0 ∨
    p.y.toRing ^ 2 = p.x.toRing ^ 3 + c.a.toRing * p.x.toRing * p.z.toRing ^ 4
      + c.b.toRing * p.z.toRing ^ 6

theorem OnCurve.coordinates (h : p.OnCurve) : p.Coordinates p.x.toRing p.y.toRing p.z.toRing :=
  ⟨Residue.standsFor_toRing h.x_canonical, Residue.standsFor_toRing h.y_canonical,
    Residue.standsFor_toRing h.z_canonical⟩

theorem Coordinates.neg (h : p.Coordinates X Y Z) : (-p).Coordinates X (-Y) Z :=
  ⟨h.x, h.y.neg, h.z⟩

theorem Coordinates.onCurve (h : p.Coordinates X Y Z)
    (equation : Z = 0 ∨ Y ^ 2 = X ^ 3 + c.a.toRing * X * Z ^ 4 + c.b.toRing * Z ^ 6) :
    p.OnCurve := by
  rw [← h.x.toRing_eq, ← h.y.toRing_eq, ← h.z.toRing_eq] at equation
  exact ⟨h.x.canonical, h.y.canonical, h.z.canonical, equation⟩

theorem OnCurve.neg (h : p.OnCurve) : (-p).OnCurve := by
  refine h.coordinates.neg.onCurve (h.equation.imp_right ?_)
  rw [neg_sq]
  exact id

theorem valid_iff_onCurve [c.Elliptic] : p.Valid ↔ p.OnCurve :=
  ⟨fun h => ⟨h.x_canonical, h.y_canonical, h.z_canonical, h.equation⟩,
    fun h => ⟨h.x_canonical, h.y_canonical, h.z_canonical, h.equation⟩⟩

variable [Fact c.base.value.toNat.Prime]

/-- The coordinates of the point that a triple denotes; the identity has none. -/
def denoted (p : Jacobian c) : Option (c.base.Ring × c.base.Ring) :=
  if p.z.toRing = 0 then none
  else some (p.x.toRing / p.z.toRing ^ 2, p.y.toRing / p.z.toRing ^ 3)

theorem Coordinates.denoted_eq (h : p.Coordinates X Y Z) :
    p.denoted = if Z = 0 then none else some (X / Z ^ 2, Y / Z ^ 3) := by
  rw [denoted, h.x.toRing_eq, h.y.toRing_eq, h.z.toRing_eq]

theorem Coordinates.denoted_eq_none_iff (h : p.Coordinates X Y Z) : p.denoted = none ↔ Z = 0 := by
  rw [h.denoted_eq]
  split <;> simp [*]

/-- The powers of `Z` that the comparison multiplies by cancel, unless one of the triples is the
identity, and then the products do not count. -/
theorem Coordinates.same_iff_denoted_eq (hp : p.Coordinates X₁ Y₁ Z₁)
    (hq : q.Coordinates X₂ Y₂ Z₂) : p.same q = true ↔ p.denoted = q.denoted := by
  rw [hp.same_iff hq, hp.denoted_eq, hq.denoted_eq]
  by_cases identity₁ : Z₁ = 0 <;> by_cases identity₂ : Z₂ = 0
  · simp [identity₁, identity₂]
  · simp [identity₁, identity₂]
  · simp [identity₁, identity₂]
  · have crossX := div_eq_div_iff (a := X₁) (c := X₂) (pow_ne_zero 2 identity₁)
      (pow_ne_zero 2 identity₂)
    have crossY := div_eq_div_iff (a := Y₁) (c := Y₂) (pow_ne_zero 3 identity₁)
      (pow_ne_zero 3 identity₂)
    simp only [identity₁, identity₂, ne_eq, not_false_eq_true, true_and, false_and, false_or,
      if_false, Option.some_inj, Prod.mk.injEq, crossX, crossY]

/-- Conversion keeps what is denoted: `Z` is inverted once, and if there is no inverse the products
with it are not used. -/
theorem Coordinates.toAffine_denotes (h : p.Coordinates X Y Z) : p.toAffine.Denotes p.denoted := by
  rw [h.denoted_eq, toAffine, isIdentity]
  by_cases identity : Z = 0
  · rw [if_pos identity, if_pos (h.z.isZero_iff.mpr identity)]
    exact .infinity
  · rw [if_neg identity, if_neg (h.z.isZero_iff.not.mpr identity)]
    have inverse := h.z.inverseOrZero
    have hx := h.x.mul inverse.square
    have hy := (h.y.mul inverse.square).mul inverse
    exact .finite (hx.congr (by field_simp)) (hy.congr (by field_simp))

theorem Coordinates.denoted_neg (h : p.Coordinates X Y Z) :
    (-p).denoted = p.denoted.map fun coordinates => (coordinates.1, -coordinates.2) := by
  rw [h.neg.denoted_eq, h.denoted_eq]
  split
  · rfl
  · rw [Option.map_some, neg_div]

theorem ofAffine_denotes {q : Affine c} {point : Option (c.base.Ring × c.base.Ring)}
    (h : q.Denotes point) :
    ∃ X Y Z, (ofAffine q).Coordinates X Y Z ∧ (ofAffine q).denoted = point := by
  cases h with
  | infinity =>
    have identity : (identity : Jacobian c).Coordinates 1 1 0 :=
      ⟨Residue.one_standsFor, Residue.one_standsFor, Residue.zero_standsFor⟩
    exact ⟨1, 1, 0, identity, identity.denoted_eq.trans (if_pos rfl)⟩
  | @finite x y X Y hx hy =>
    have triple : (ofAffine (.finite x y)).Coordinates X Y 1 := ⟨hx, hy, Residue.one_standsFor⟩
    refine ⟨X, Y, 1, triple, triple.denoted_eq.trans ?_⟩
    rw [if_neg one_ne_zero, one_pow, one_pow, div_one, div_one]

/-! ### Points of the curve -/

theorem OnCurve.isOnCurve_toAffine (ha : c.a.Canonical) (hb : c.b.Canonical) (h : p.OnCurve) :
    p.toAffine.isOnCurve = true := by
  have denotes := h.coordinates.toAffine_denotes
  rw [h.coordinates.denoted_eq] at denotes
  split at denotes
  case isTrue =>
    rw [(denotes.eq_iff .infinity).mpr rfl]
    rfl
  case isFalse finite =>
    generalize p.toAffine = q at denotes
    cases denotes with
    | finite hx hy =>
      rw [Affine.isOnCurve_iff_equation ha hb hx hy]
      have equation := h.equation.resolve_left finite
      field_simp
      linear_combination equation

omit [Fact c.base.value.toNat.Prime] in
theorem onCurve_ofAffine (ha : c.a.Canonical) (hb : c.b.Canonical) {q : Affine c}
    (h : q = .infinity ∨ q.IsPoint) : (ofAffine q).OnCurve := by
  cases q with
  | infinity =>
    exact Coordinates.onCurve
      ⟨Residue.one_standsFor, Residue.one_standsFor, Residue.zero_standsFor⟩ (.inl rfl)
  | finite x y =>
    obtain ⟨-, x_canonical, y_canonical, onCurve⟩ := h.resolve_left nofun
    have hx := Residue.standsFor_toRing x_canonical
    have hy := Residue.standsFor_toRing y_canonical
    have equation := (Affine.isOnCurve_iff_equation ha hb hx hy).mp onCurve
    refine Coordinates.onCurve ⟨hx, hy, Residue.one_standsFor⟩ (.inr ?_)
    rw [one_pow, one_pow, mul_one, mul_one, equation]

/-- **Equality and conversion respect the point denoted**, for all triples on a curve over a prime,
whatever their `Z` is and, if it is zero, whatever the other coordinates are. Two triples are found
equal exactly if they denote one point, and exactly if they are converted to one affine point. The
affine point is canonical and on the curve, it is the identity exactly for `Z = 0`, and its triple
is found equal to the one converted; from an affine point through its triple one comes back to it.
The opposite is converted to the opposite in both directions. -/
theorem conversion_respects_points (c : Curve L) [Fact c.base.value.toNat.Prime]
    (ha : c.a.Canonical) (hb : c.b.Canonical) :
    (∀ p q : Jacobian c, p.OnCurve → q.OnCurve →
      (p.same q = true ↔ p.denoted = q.denoted) ∧
      (p.same q = true ↔ p.toAffine = q.toAffine)) ∧
    (∀ p : Jacobian c, p.OnCurve →
      (p.toAffine.x.Canonical ∧ p.toAffine.y.Canonical ∧ p.toAffine.isOnCurve = true) ∧
      (p.toAffine = .infinity ↔ p.z = 0) ∧
      (ofAffine p.toAffine).same p = true ∧
      (-p).OnCurve ∧ (-p).toAffine = p.toAffine.neg) ∧
    ∀ q : Affine c, q = .infinity ∨ q.IsPoint →
      (ofAffine q).OnCurve ∧ (ofAffine q).toAffine = q ∧
      (ofAffine q.neg).same (-ofAffine q) = true := by
  refine ⟨fun p q hp hq => ⟨?_, ?_⟩, fun p hp => ⟨⟨?_, ?_, ?_⟩, ?_, ?_, hp.neg, ?_⟩,
    fun q hq => ⟨onCurve_ofAffine ha hb hq, ?_⟩⟩
  · exact hp.coordinates.same_iff_denoted_eq hq.coordinates
  · rw [hp.coordinates.same_iff_denoted_eq hq.coordinates,
      hp.coordinates.toAffine_denotes.eq_iff hq.coordinates.toAffine_denotes]
  · exact hp.coordinates.toAffine_denotes.canonical.1
  · exact hp.coordinates.toAffine_denotes.canonical.2
  · exact hp.isOnCurve_toAffine ha hb
  · rw [hp.coordinates.toAffine_denotes.eq_iff .infinity, hp.coordinates.denoted_eq_none_iff,
      hp.z_canonical.eq_zero_iff]
  · obtain ⟨X, Y, Z, triple, same⟩ := ofAffine_denotes hp.coordinates.toAffine_denotes
    exact (triple.same_iff_denoted_eq hp.coordinates).mpr same
  · have opposite := hp.coordinates.neg.toAffine_denotes
    rw [hp.coordinates.denoted_neg] at opposite
    exact (opposite.eq_iff hp.coordinates.toAffine_denotes.neg).mpr rfl
  · obtain ⟨point, denotes⟩ : ∃ point, q.Denotes point := by
      rcases hq with rfl | h
      · exact ⟨none, .infinity⟩
      · obtain ⟨X, Y, denotes⟩ := h.denotes
        exact ⟨_, denotes⟩
    obtain ⟨X, Y, Z, triple, same⟩ := ofAffine_denotes denotes
    obtain ⟨X', Y', Z', opposite, same'⟩ := ofAffine_denotes denotes.neg
    constructor
    · have back := triple.toAffine_denotes
      rw [same] at back
      exact (back.eq_iff denotes).mpr rfl
    · rw [opposite.same_iff_denoted_eq triple.neg, same', triple.denoted_neg, same]

/-- The generator of the curve modulo 251 with `Z = 1` and with `Z = 2`, and a triple with `Z = 0`,
whose products with the others all vanish. -/
theorem conversion_respects_points_mod251 :
    let p : Jacobian Small.mod251Curve := ⟨.ofNat 72, .ofNat 40, 1⟩
    let q : Jacobian Small.mod251Curve := ⟨.ofNat 37, .ofNat 69, .ofNat 2⟩
    let o : Jacobian Small.mod251Curve := ⟨.ofNat 5, .ofNat 7, 0⟩
    p.OnCurve ∧ q.OnCurve ∧ o.OnCurve ∧
      p.same q = true ∧ p.denoted = q.denoted ∧ p.toAffine = q.toAffine ∧
      o.toAffine = .infinity ∧ p.same o = false ∧ p.denoted ≠ o.denoted ∧
      (ofAffine q.toAffine).same q = true ∧ (-q).toAffine = p.toAffine.neg := by
  intro p q o
  have hp : p.OnCurve := valid_iff_onCurve.mp (by decide +kernel)
  have hq : q.OnCurve := valid_iff_onCurve.mp (by decide +kernel)
  have ho : o.OnCurve := valid_iff_onCurve.mp (by decide +kernel)
  obtain ⟨equality, toAffine, -⟩ := conversion_respects_points Small.mod251Curve
    Curve.Elliptic.a_canonical Curve.Elliptic.b_canonical
  obtain ⟨denoted, converted⟩ := equality p q hp hq
  have same : p.same q = true := by decide +kernel
  have different : p.same o = false := by decide +kernel
  obtain ⟨-, -, back, -, opposite⟩ := toAffine q hq
  refine ⟨hp, hq, ho, same, denoted.mp same, converted.mp same, (toAffine o ho).2.1.mpr rfl,
    different, ?_, back, ?_⟩
  · rw [ne_eq, ← (equality p o hp ho).1, different]
    exact Bool.false_ne_true
  · rw [opposite, converted.mp same]

end Jacobian
end ShortWeierstrass
