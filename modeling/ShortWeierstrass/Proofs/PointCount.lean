/-
# Counting the points of a curve of any size

Of a large curve neither the points nor the classes can be gone through, but two facts settle how
many points it has (`Curve.card_group_eq`), and both are tested on natural numbers, with as many
steps as the modulus has bits. The order annihilates the generator: its multiple by `q - 1`, doubled
and added up in Jacobian coordinates (`multiple`), is the opposite of it. And the cubic has no root:
modulo the cubic `X^p - X` has an inverse (`Quadratic`), while at a root it would be zero.

What the numbers do is what their classes do (`Triple.Represents.double`,
`Triple.Represents.addFinite`, `Quadratic.eval_mul`); the sum of a triple and the generator is not
needed if their first coordinates are the same, and is left out then. A domain whose numbers pass
the test (`Certificate.check`) and whose two moduli are primes is admitted
(`Domain.admitted_of_certificate`).

Key definitions: `Triple.double`, `Triple.addFinite`, `multiple`, `Quadratic.mul`,
`Certificate.check`.
Key theorems: `multiple_represents`, `Quadratic.eval_mul`, `Domain.admitted_of_certificate`.
-/
import Mathlib
import ShortWeierstrass.Proofs.GroupOrder
import ShortWeierstrass.Proofs.Primality

namespace ShortWeierstrass
namespace PointCount

open Primality

/-- A number of the opposite class modulo `p`. -/
def opposite (p n : ℕ) : ℕ := p - n % p

theorem natCast_opposite {p : ℕ} [NeZero p] (n : ℕ) : (opposite p n : ZMod p) = -n := by
  rw [opposite, Nat.cast_sub (Nat.mod_lt n (NeZero.pos p)).le, ZMod.natCast_self, ZMod.natCast_mod,
    zero_sub]

theorem natCast_eq_zero_iff_mod {p n : ℕ} : (n : ZMod p) = 0 ↔ n % p = 0 := by
  rw [ZMod.natCast_eq_zero_iff, Nat.dvd_iff_mod_eq_zero]

/-! ### Multiples of a point -/

/-- Numbers of the coordinates of a Jacobian triple. -/
structure Triple where
  x : ℕ
  y : ℕ
  z : ℕ

namespace Triple

/-- Twice a point, modulo `p`. -/
def double (p a : ℕ) (t : Triple) : Triple :=
  let yy := t.y * t.y % p
  let zz := t.z * t.z % p
  let s := 4 * t.x * yy % p
  let m := (3 * (t.x * t.x) + a * (zz * zz)) % p
  let x := (m * m + 2 * opposite p s) % p
  { x
    y := (m * (s + opposite p x) + 8 * opposite p (yy * yy)) % p
    z := 2 * t.y * t.z % p }

/-- The formula for the sum of a point and the affine point `(u, v)`, modulo `p`. -/
def chord (p u v : ℕ) (t : Triple) : Triple :=
  let zz := t.z * t.z % p
  let h := (u * zz + opposite p t.x) % p
  let r := 2 * (v * (zz * t.z) + opposite p t.y) % p
  let hh := h * h % p
  let hhh := hh * h % p
  let w := 4 * t.x * hh % p
  let x := (r * r + 4 * opposite p hhh + 2 * opposite p w) % p
  { x
    y := (r * (w + opposite p x) + 8 * t.y * opposite p hhh) % p
    z := 2 * t.z * h % p }

/-- The sum of a point and the affine point `(u, v)`, unless the first coordinates are the same. -/
def addFinite (p u v : ℕ) (t : Triple) : Option Triple :=
  if t.z % p = 0 then some ⟨u, v, 1⟩
  else
    let sum := t.chord p u v
    if sum.z % p = 0 then none else some sum

/-- Is this the opposite of the affine point `(u, v)`? -/
def isOpposite (p u v : ℕ) (t : Triple) : Bool :=
  decide (t.z % p ≠ 0) && decide (t.x % p = u * t.z ^ 2 % p) &&
    decide ((t.y + v * t.z ^ 3) % p = 0)

variable {L : ℕ} {c : Curve L}

/-- The classes of the numbers represent the point. -/
def Represents (t : Triple) (g : c.Group) : Prop :=
  Jacobian.Represents (t.x : c.base.Ring) (t.y : c.base.Ring) (t.z : c.base.Ring) g

theorem Represents.of_eq {t : Triple} {g : c.Group} {X Y Z : c.base.Ring}
    (h : Jacobian.Represents X Y Z g) (hx : (t.x : c.base.Ring) = X) (hy : (t.y : c.base.Ring) = Y)
    (hz : (t.z : c.base.Ring) = Z) : t.Represents g := by
  subst hx hy hz
  exact h

variable [c.Elliptic] {t t' : Triple} {g : c.Group} {a u v : ℕ}

theorem Represents.double (ha : (a : c.base.Ring) = c.a.toRing) (h : t.Represents g) :
    (t.double c.base.value.toNat a).Represents (g + g) := by
  cases g with
  | zero =>
    have zero : (t.z : c.base.Ring) = 0 := h
    show ((t.double c.base.value.toNat a).z : c.base.Ring) = 0
    simp [Triple.double, zero]
  | some x y on =>
    obtain ⟨finite, ex, ey⟩ := h
    have tangent := Jacobian.Represents.double on finite
    rw [← ex, ← ey] at tangent
    refine .of_eq tangent ?_ ?_ ?_ <;>
      simp only [Triple.double, Nat.cast_add, Nat.cast_mul, Nat.cast_ofNat, ZMod.natCast_mod,
        natCast_opposite, ha] <;>
      ring

theorem Represents.addFinite {on : c.weierstrass.Nonsingular (u : c.base.Ring) (v : c.base.Ring)}
    (h : t.Represents g) (sum : t.addFinite c.base.value.toNat u v = some t') :
    t'.Represents (g + .some _ _ on) := by
  rw [Triple.addFinite] at sum
  split at sum
  case isTrue zero =>
    obtain rfl := h.zero_iff.mp (natCast_eq_zero_iff_mod.mpr zero)
    obtain rfl := Option.some.inj sum
    rw [zero_add]
    exact ⟨by simp, by simp, by simp⟩
  case isFalse nonzero =>
    have finite : (t.z : c.base.Ring) ≠ 0 := natCast_eq_zero_iff_mod.not.mpr nonzero
    dsimp only at sum
    split at sum
    case isTrue => cases sum
    case isFalse apart =>
      obtain rfl := Option.some.inj sum
      cases g with
      | zero => exact absurd h finite
      | some x y on' =>
        obtain ⟨-, ex, ey⟩ := h
        have different : x ≠ (u : c.base.Ring) := by
          rintro rfl
          refine apart (natCast_eq_zero_iff_mod.mp ?_)
          simp only [chord, Nat.cast_add, Nat.cast_mul, Nat.cast_ofNat, ZMod.natCast_mod,
            natCast_opposite, ex]
          ring
        have line := Jacobian.Represents.chord on' on finite one_ne_zero different
        rw [← ex, ← ey] at line
        refine .of_eq line ?_ ?_ ?_ <;>
          simp only [chord, Nat.cast_add, Nat.cast_mul, Nat.cast_ofNat, ZMod.natCast_mod,
            natCast_opposite] <;>
          ring

theorem Represents.eq_neg {on : c.weierstrass.Nonsingular (u : c.base.Ring) (v : c.base.Ring)}
    (h : t.Represents g) (isOpposite : t.isOpposite c.base.value.toNat u v = true) :
    g = -.some _ _ on := by
  simp only [Triple.isOpposite, Bool.and_eq_true, decide_eq_true_eq] at isOpposite
  obtain ⟨⟨nonzero, sameX⟩, oppositeY⟩ := isOpposite
  have finite : (t.z : c.base.Ring) ≠ 0 := natCast_eq_zero_iff_mod.not.mpr nonzero
  have sameX := (ZMod.natCast_eq_natCast_iff' _ _ c.base.value.toNat).mpr sameX
  have oppositeY := (natCast_eq_zero_iff_mod (p := c.base.value.toNat)).mpr oppositeY
  rw [Nat.cast_mul, Nat.cast_pow] at sameX
  rw [Nat.cast_add, Nat.cast_mul, Nat.cast_pow] at oppositeY
  cases g with
  | zero => exact absurd h finite
  | some x y on' =>
    obtain ⟨-, ex, ey⟩ := h
    obtain ⟨opposite_on, e⟩ := Curve.neg_some on
    rw [e, WeierstrassCurve.Affine.Point.some.injEq]
    constructor
    · exact mul_right_cancel₀ (pow_ne_zero 2 finite) (ex.symm.trans sameX)
    · refine mul_right_cancel₀ (pow_ne_zero 3 finite) ?_
      rw [← ey]
      linear_combination oppositeY

end Triple

/-- The multiple of the affine point `(u, v)` by a number of at most `bits` bits, unless a sum is
left out. -/
def multiple (p a u v : ℕ) : (bits n : ℕ) → Option Triple :=
  ladder (Option.map (Triple.double p a)) (Option.bind · (Triple.addFinite p u v)) (some ⟨1, 1, 0⟩)

section Multiple

variable {L : ℕ} {c : Curve L} [c.Elliptic] {a u v bits n : ℕ}

theorem multiple_represents (ha : (a : c.base.Ring) = c.a.toRing)
    (on : c.weierstrass.Nonsingular (u : c.base.Ring) (v : c.base.Ring)) (h : n < 2 ^ bits) :
    ∀ t ∈ multiple c.base.value.toNat a u v bits n,
      t.Represents (n • (.some _ _ on : c.Group)) := by
  refine @ladder_induction (Option Triple) _ _ _
    (fun k found => ∀ t ∈ found, t.Represents (k • (.some _ _ on : c.Group))) ?_ ?_ ?_ _ _ h
  · rintro t ⟨⟩
    rw [zero_nsmul]
    exact Nat.cast_zero
  · rintro k found represents t mem
    obtain ⟨s, hs, rfl⟩ := Option.mem_map.mp mem
    rw [two_mul, add_nsmul]
    exact (represents s hs).double ha
  · rintro k found represents t mem
    obtain ⟨s, hs, sum⟩ := Option.bind_eq_some_iff.mp mem
    rw [succ_nsmul]
    exact (represents s hs).addFinite sum

/-- A number annihilates the point if the multiple by its predecessor is the opposite. -/
theorem smul_eq_zero_of_multiple (ha : (a : c.base.Ring) = c.a.toRing)
    (on : c.weierstrass.Nonsingular (u : c.base.Ring) (v : c.base.Ring)) (h : n < 2 ^ bits)
    (found : (multiple c.base.value.toNat a u v bits n).any
      (Triple.isOpposite c.base.value.toNat u v) = true) :
    (n + 1) • (.some _ _ on : c.Group) = 0 := by
  obtain ⟨t, mem, isOpposite⟩ := (Option.any_eq_true _ _).mp found
  have opposite : n • (.some _ _ on : c.Group) = -.some _ _ on :=
    (multiple_represents ha on h t mem).eq_neg isOpposite
  rw [succ_nsmul, opposite, neg_add_cancel]

end Multiple

/-! ### Roots of a cubic -/

/-- A polynomial of degree 2 at most, with numbers for its coefficients. -/
structure Quadratic where
  c0 : ℕ
  c1 : ℕ
  c2 : ℕ
  deriving DecidableEq

namespace Quadratic

/-- The product, with `-(a X + b)` for the cube of `X`. -/
def mul (p a b : ℕ) (f g : Quadratic) : Quadratic :=
  let d3 := (f.c1 * g.c2 + f.c2 * g.c1) % p
  let d4 := f.c2 * g.c2 % p
  { c0 := (f.c0 * g.c0 + b * opposite p d3) % p
    c1 := (f.c0 * g.c1 + f.c1 * g.c0 + a * opposite p d3 + b * opposite p d4) % p
    c2 := (f.c0 * g.c2 + f.c1 * g.c1 + f.c2 * g.c0 + a * opposite p d4) % p }

/-- The power to an exponent of at most `bits` bits. -/
def pow (p a b : ℕ) (f : Quadratic) : (bits exponent : ℕ) → Quadratic :=
  ladder (fun g => g.mul p a b g) (fun g => g.mul p a b f) ⟨1, 0, 0⟩

/-- The difference to `X`. -/
def subX (p : ℕ) (f : Quadratic) : Quadratic := { f with c1 := f.c1 + opposite p 1 }

/-- The value at a class. -/
def eval {p : ℕ} (f : Quadratic) (r : ZMod p) : ZMod p := f.c0 + f.c1 * r + f.c2 * r ^ 2

variable {p : ℕ} [NeZero p] {a b : ℕ} {r : ZMod p}

theorem eval_subX (f : Quadratic) : (f.subX p).eval r = f.eval r - r := by
  simp only [eval, subX, Nat.cast_add, natCast_opposite, Nat.cast_one]
  ring

variable (root : r ^ 3 + a * r + b = 0)

include root

theorem eval_mul (f g : Quadratic) : (f.mul p a b g).eval r = f.eval r * g.eval r := by
  simp only [eval, mul, Nat.cast_add, Nat.cast_mul, ZMod.natCast_mod, natCast_opposite]
  linear_combination
    (-(f.c1 * g.c2 + f.c2 * g.c1 : ZMod p) - f.c2 * g.c2 * r) * root

theorem eval_pow (f : Quadratic) {bits exponent : ℕ} (h : exponent < 2 ^ bits) :
    (f.pow p a b bits exponent).eval r = f.eval r ^ exponent := by
  refine @ladder_induction Quadratic _ _ _ (fun k g => g.eval r = f.eval r ^ k) ?_ ?_ ?_ _ _ h
  · simp [eval]
  · intro k g hg
    rw [eval_mul root, hg, ← pow_add, two_mul]
  · intro k g hg
    rw [eval_mul root, hg, pow_succ]

end Quadratic

/-- Is this quadratic the inverse of `X^p - X` modulo the cubic `X³ + a X + b`? -/
def isRootless (p a b : ℕ) (inverse : Quadratic) : Bool :=
  let power := Quadratic.pow p a b ⟨0, 1, 0⟩ (p.log2 + 1) p
  decide ((power.subX p).mul p a b inverse = ⟨1, 0, 0⟩)

/-- A class is its own power to the `p`, so what is invertible modulo the cubic would be zero at a
root of it. -/
theorem no_root_of_isRootless {p a b : ℕ} [Fact p.Prime] {inverse : Quadratic}
    (h : isRootless p a b inverse = true) (r : ZMod p) : r ^ 3 + a * r + b ≠ 0 := by
  intro root
  have unknown : (⟨0, 1, 0⟩ : Quadratic).eval r = r := by simp [Quadratic.eval]
  have one : (⟨1, 0, 0⟩ : Quadratic).eval r = 1 := by simp [Quadratic.eval]
  have product := congrArg (Quadratic.eval · r) (of_decide_eq_true h)
  rw [Quadratic.eval_mul root, Quadratic.eval_subX, Quadratic.eval_pow root _ Nat.lt_log2_self,
    unknown, one, ZMod.pow_card, sub_self, zero_mul] at product
  exact zero_ne_one product

/-! ### Domains -/

/-- Numbers that settle a domain: the coefficients, the generator, and the inverse of `X^p - X`
modulo the cubic. -/
structure Certificate where
  a : ℕ
  b : ℕ
  gx : ℕ
  gy : ℕ
  inverse : Quadratic

namespace Certificate

/-- Is the curve modulo `p` nonsingular, with a generator that `q` annihilates, without a point of
order 2, and with `q` near `p`? -/
def check (n : Certificate) (p q : ℕ) : Bool :=
  decide (3 < p) && decide (q < p) && decide (2 * p + 1 < 3 * q) &&
    decide ((4 * n.a ^ 3 + 27 * n.b ^ 2) % p ≠ 0) &&
    decide (n.gy ^ 2 % p = (n.gx ^ 3 + n.a * n.gx + n.b) % p) &&
    (multiple p n.a n.gx n.gy (q.log2 + 1) (q - 1)).any (Triple.isOpposite p n.gx n.gy) &&
    isRootless p n.a n.b n.inverse

end Certificate

end PointCount

open PointCount in
/-- A domain of two prime moduli whose numbers pass the test is admitted. -/
theorem Domain.admitted_of_certificate {L : ℕ} (d : Domain L) (n : Certificate)
    (prime : d.base.value.toNat.Prime) (order_prime : d.order.value.toNat.Prime)
    (ha : d.a.StandsFor (n.a : d.base.Ring)) (hb : d.b.StandsFor (n.b : d.base.Ring))
    (hx : d.gx.StandsFor (n.gx : d.base.Ring)) (hy : d.gy.StandsFor (n.gy : d.base.Ring))
    (h : n.check d.base.value.toNat d.order.value.toNat = true) : d.Admitted := by
  simp only [Certificate.check, Bool.and_eq_true, decide_eq_true_eq] at h
  obtain ⟨⟨⟨⟨⟨⟨three_lt, order_lt⟩, large⟩, discriminant⟩, onCurve⟩, annihilates⟩, rootless⟩ := h
  have elliptic : d.toCurve.Elliptic := {
    prime, three_lt
    a_canonical := ha.canonical
    b_canonical := hb.canonical
    discriminant_ne := by
      rw [ha.toRing_eq, hb.toRing_eq]
      have nonzero := natCast_eq_zero_iff_mod.not.mpr discriminant
      simpa using nonzero }
  have on : d.weierstrass.Nonsingular (n.gx : d.base.Ring) (n.gy : d.base.Ring) := by
    rw [Curve.nonsingular_iff, ha.toRing_eq, hb.toRing_eq]
    have equation := (ZMod.natCast_eq_natCast_iff' _ _ d.base.value.toNat).mpr onCurve
    simpa using equation
  have noRoot : ∀ X, d.cubic X ≠ 0 := by
    intro X
    rw [Curve.cubic, ha.toRing_eq, hb.toRing_eq]
    exact no_root_of_isRootless rootless X
  have pos := order_prime.pos
  have multiple := smul_eq_zero_of_multiple ha.toRing_eq.symm on
    ((Nat.sub_le _ 1).trans_lt Nat.lt_log2_self) annihilates
  rw [Nat.sub_add_cancel pos] at multiple
  exact {
    order_prime, order_lt
    lt_two_mul := by omega
    gx_canonical := hx.canonical
    gy_canonical := hy.canonical
    onCurve := by rwa [hx.toRing_eq, hy.toRing_eq]
    card := Curve.card_group_eq order_prime (WeierstrassCurve.Affine.Point.some_ne_zero on) multiple
      large noRoot }

end ShortWeierstrass
