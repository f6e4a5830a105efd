/-
# Affine points

An affine point is the point at infinity, which is the identity of the group, or
a pair of coordinates. A pair from outside becomes a point only if it satisfies
the equation (`Affine.ofCoordinates?`); a single coordinate with a parity becomes
the point of that parity, if the curve has one (`Affine.decompress?`).

Key definitions: `Affine`, `Affine.ofCoordinates?`, `Affine.decompress?`,
`Affine.isOnCurve`, `Affine.neg`.
-/
import ShortWeierstrass.Curve
import ShortWeierstrass.Residue.Sqrt
import ShortWeierstrass.Residue.Text

namespace ShortWeierstrass

/-- A point in affine coordinates. -/
inductive Affine {L : Nat} (c : Curve L) where
  | infinity
  | finite (x y : Residue c.base)
  deriving DecidableEq

namespace Affine

variable {L : Nat} {c : Curve L}

/-- The first coordinate, zero at infinity. -/
def x : Affine c → Residue c.base
  | infinity => 0
  | finite x _ => x

/-- The second coordinate, zero at infinity. -/
def y : Affine c → Residue c.base
  | infinity => 0
  | finite _ y => y

/-- Is this the point at infinity? -/
def isIdentity : Affine c → Bool
  | infinity => true
  | finite _ _ => false

/-- Does the point satisfy the equation? The identity does. -/
def isOnCurve : Affine c → Bool
  | infinity => true
  | finite x y => (c.residual x y).isZero

/-- The point with these coordinates, if the curve has it. -/
def ofCoordinates? (x y : Residue c.base) : Option (Affine c) :=
  if (finite x y : Affine c).isOnCurve then some (finite x y) else none

/-- The point with this first coordinate whose second one has this parity, if
the curve has it. -/
def decompress? (x : Residue c.base) (odd : Bool) : Option (Affine c) :=
  (c.rightHandSide x).sqrt?.map fun root =>
    finite x ((-root).select root (root.isOdd == odd))

/-- The opposite point, on the same first coordinate. -/
def neg : Affine c → Affine c
  | infinity => infinity
  | finite x y => finite x (-y)

/-- The second point if the choice is made, the first if not. -/
def select (p q : Affine c) (choice : Bool) : Affine c := if choice then q else p

/-- Coordinates and kind, for diagnostics. -/
def description (p : Affine c) : String :=
  "AffinePoint \x7b x: " ++ p.x.description ++ ", y: " ++ p.y.description ++ ", infinity: "
    ++ (if p.isIdentity then "1" else "0") ++ " \x7d"

end Affine
end ShortWeierstrass
