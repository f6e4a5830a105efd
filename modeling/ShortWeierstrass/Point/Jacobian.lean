/-
# Points in Jacobian coordinates

A triple `(X, Y, Z)` with `Z ≠ 0` denotes the affine point `(X / Z², Y / Z³)`, and
every triple with `Z = 0` denotes the identity. Doubling is complete as it
stands: the identity goes to a triple with `Z = 0`. The addition formula fails for
two equal points and for the identity, so the double of the first operand is
computed beside it and the result is selected; opposite points need nothing,
since then `Z = 0` comes out.

Which triple denotes a result is part of the definitions: the same point has many
triples, and the ones computed here can be looked at.

Key definitions: `Jacobian`, `Jacobian.toAffine`, `Jacobian.ofAffine`, `Jacobian.double`,
`Jacobian.add`, `Jacobian.same`.
-/
import ShortWeierstrass.Point.Affine

namespace ShortWeierstrass

/-- A point in Jacobian coordinates. -/
structure Jacobian {L : Nat} (c : Curve L) where
  x : Residue c.base
  y : Residue c.base
  z : Residue c.base
  deriving DecidableEq

namespace Jacobian

variable {L : Nat} {c : Curve L}

/-- The triple that stands for the identity. -/
def identity : Jacobian c := ⟨1, 1, 0⟩

instance : Inhabited (Jacobian c) := ⟨identity⟩

/-- Is `Z` zero? -/
def isIdentity (p : Jacobian c) : Bool := p.z.isZero

/-- The affine point that a triple denotes. -/
def toAffine (p : Jacobian c) : Affine c :=
  let zInverse := p.z.inverseOrZero
  let zInverseSq := zInverse.square
  if p.isIdentity then .infinity else .finite (p.x * zInverseSq) (p.y * zInverseSq * zInverse)

/-- The triple of an affine point, with `Z = 1` unless it is the identity. -/
def ofAffine : Affine c → Jacobian c
  | .infinity => identity
  | .finite x y => ⟨x, y, 1⟩

/-- The second point if the choice is made, the first if not. -/
def select (p q : Jacobian c) (choice : Bool) : Jacobian c := if choice then q else p

/-! ### The group operations -/

/-- Twice a point, for any coefficient `a`. -/
def double (p : Jacobian c) : Jacobian c :=
  let xx := p.x.square
  let yy := p.y.square
  let yyyy := yy.square
  let zz := p.z.square
  let s := ((p.x + yy).square - xx - yyyy).double
  let m := xx.double + xx + c.a * zz.square
  let x := m.square - s.double
  { x
    y := m * (s - x) - yyyy.double.double.double
    z := (p.y + p.z).square - yy - zz }

/-- The sum of two points. -/
def add (p q : Jacobian c) : Jacobian c :=
  let z1z1 := p.z.square
  let z2z2 := q.z.square
  let u1 := p.x * z2z2
  let u2 := q.x * z1z1
  let s1 := p.y * q.z * z2z2
  let s2 := q.y * p.z * z1z1
  let h := u2 - u1
  let i := h.double.square
  let j := h * i
  let r := (s2 - s1).double
  let v := u1 * i
  let x := r.square - j - v.double
  let sum : Jacobian c :=
    { x
      y := r * (v - x) - (s1 * j).double
      z := ((p.z + q.z).square - z1z1 - z2z2) * h }
  ((sum.select p.double (h.isZero && r.isZero)).select q p.z.isZero).select p q.z.isZero

/-- The opposite point: the second coordinate changes its sign. -/
def neg (p : Jacobian c) : Jacobian c := ⟨p.x, -p.y, p.z⟩

/-- The sum with the opposite point. -/
def sub (p q : Jacobian c) : Jacobian c := p.add q.neg

instance : Add (Jacobian c) := ⟨add⟩
instance : Sub (Jacobian c) := ⟨sub⟩
instance : Neg (Jacobian c) := ⟨neg⟩

/-- Doubles `count` times. -/
def doubleTimes : (count : Nat) → Jacobian c → Jacobian c
  | 0, p => p
  | count + 1, p => doubleTimes count p.double

/-- The sum of a list, added up from the left. -/
def sum (ps : List (Jacobian c)) : Jacobian c := ps.foldl (· + ·) identity

/-- Do two triples denote the same point? Tested without an inversion, on the
coordinates multiplied crosswise by the powers of the other `Z`. -/
def same (p q : Jacobian c) : Bool :=
  let z1z1 := p.z.square
  let z2z2 := q.z.square
  let sameX : Bool := p.x * z2z2 = q.x * z1z1
  let sameY : Bool := p.y * z2z2 * q.z = q.y * z1z1 * p.z
  (p.isIdentity && q.isIdentity) || (!p.isIdentity && !q.isIdentity && sameX && sameY)

/-- The three coordinates, for diagnostics. -/
def description (p : Jacobian c) : String :=
  "ProjectivePoint \x7b x: " ++ p.x.description ++ ", y: " ++ p.y.description ++ ", z: "
    ++ p.z.description ++ " \x7d"

end Jacobian
end ShortWeierstrass
