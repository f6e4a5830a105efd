/-
# Curves in short Weierstrass form

A curve is the equation `y² = x³ + a x + b` over the residues of a base modulus.

Key definitions: `Curve`, `Curve.rightHandSide`, `Curve.residual`.
-/
import ShortWeierstrass.Residue.Basic

namespace ShortWeierstrass

/-- The equation `y² = x³ + a x + b` modulo `base`. -/
structure Curve (L : Nat) where
  base : Modulus L
  a : Residue base
  b : Residue base

namespace Curve

variable {L : Nat}

/-- The number of bytes of an encoded coordinate. -/
def coordinateBytes (c : Curve L) : Nat := c.base.byteLength

/-- `x³ + a x + b`. -/
def rightHandSide (c : Curve L) (x : Residue c.base) : Residue c.base :=
  (x.square + c.a) * x + c.b

/-- `y² - (x³ + a x + b)`, zero exactly for the points of the curve. -/
def residual (c : Curve L) (x y : Residue c.base) : Residue c.base :=
  y.square - c.rightHandSide x

end Curve
end ShortWeierstrass
