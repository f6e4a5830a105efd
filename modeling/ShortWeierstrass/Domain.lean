/-
# Domain parameters

A `Domain` is what two parties agree on before they use a curve: the curve, a
generator, the modulus that counts its multiples (the order), and optionally the
comb of the generator, long enough for all windows of a scalar. With it come the
multiples of points by scalars: of any point, of the generator, by the comb where
there is one, and the sum of both that verification needs.

Key definitions: `Domain`, `Domain.Scalar`, `Domain.mul`, `Domain.mulGenerator`,
`Domain.mulGeneratorAdd`, `Domain.randomPoint`.
-/
import ShortWeierstrass.Point.Window
import ShortWeierstrass.Residue.Random

namespace ShortWeierstrass

/-- The number of windows that cover the scalars below a modulus. -/
def Modulus.windows {L : Nat} (m : Modulus L) : Nat := (m.bitLength + 3) / 4

/-- A curve with a generator of a given order. -/
structure Domain (L : Nat) extends Curve L where
  order : Modulus L
  gx : Residue base
  gy : Residue base
  comb : Option (Comb (⟨gx, gy, 1⟩ : Jacobian toCurve))
  comb_covers : ∀ tables ∈ comb, order.windows ≤ 2 * tables.size

namespace Domain

variable {L : Nat}

/-- A residue modulo the order. -/
abbrev Scalar (d : Domain L) : Type := Residue d.order

/-- The generator as an affine point. -/
def generator (d : Domain L) : Affine d.toCurve := .finite d.gx d.gy

/-- The generator in Jacobian coordinates. -/
def basePoint (d : Domain L) : Jacobian d.toCurve := ⟨d.gx, d.gy, 1⟩

/-- A domain with a comb of the given size, or without one. -/
def build (c : Curve L) (order : Modulus L) (gx gy : Residue c.base) (combSize : Option Nat)
    (covers : ∀ size ∈ combSize, order.windows ≤ 2 * size) : Domain L :=
  { c with
    order, gx, gy
    comb := combSize.map (Comb.build ⟨gx, gy, 1⟩)
    comb_covers := by
      intro tables mem
      obtain ⟨size, at_size, rfl⟩ := Option.map_eq_some_iff.mp mem
      exact covers size at_size }

/-! ### Multiples -/

/-- The multiple of a point by the scalar windows of a number. -/
def mul (d : Domain L) (p : Jacobian d.toCurve) (k : Limbs L) : Jacobian d.toCurve :=
  p.mulWindows d.order.windows k

/-- The multiple of the generator by a number, by the comb if there is one. -/
def mulGenerator (d : Domain L) (k : Limbs L) : Jacobian d.toCurve :=
  match d.comb with
  | some comb => comb.mul k
  | none => d.mul d.basePoint k

/-- The sum of a multiple of the generator and a multiple of a point. -/
def mulGeneratorAdd (d : Domain L) (k₁ : Limbs L) (p : Jacobian d.toCurve) (k₂ : Limbs L) :
    Jacobian d.toCurve :=
  d.mulGenerator k₁ + d.mul p k₂

/-- Draws a multiple of the generator; the scalar may be zero. -/
def randomPoint (d : Domain L) (stream : List Word) :
    Except Fault (Drawn (Jacobian d.toCurve) stream) := do
  let scalar ← Residue.random d.order stream
  return ⟨d.mulGenerator scalar.value.value, scalar.rest, scalar.shorter⟩

/-- A residue of the base modulus, taken modulo the order. -/
def toScalar (d : Domain L) (x : Residue d.base) : d.Scalar := .ofLimbs x.value

end Domain
end ShortWeierstrass
