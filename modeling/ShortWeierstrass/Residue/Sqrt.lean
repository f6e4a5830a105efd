/-
# Square roots of residues

Modulo a prime `m` of the form `4 k + 3`, the power to `(m + 1) / 4` of a square is
one of its roots. Modulo any other prime the roots are found by the method of
Tonelli and Shanks: a candidate `x` with `x² = a * b` is corrected by powers of
the root of unity until the error `b`, whose order is a power of two, is 1. The
rounds do the same work for every input: round `k` squares `k - 1` times, and the
results that are not wanted are selected away.

Whichever way the candidate is made, it is a root only if its square is the
residue it came from, and that is checked last. Which of two roots comes out is
part of the definition.

Key definitions: `Residue.sqrt?`, `Residue.sqrtRatio`.
-/
import ShortWeierstrass.Fault
import ShortWeierstrass.Residue.Roots

namespace ShortWeierstrass
namespace Residue

variable {L : Nat} {m : Modulus L}

/-- The candidate, if it is a root. -/
def checkedRoot (x candidate : Residue m) : Option (Residue m) :=
  if candidate.square = x then some candidate else none

/-- The root for a modulus `4 k + 3`: the power to `m / 4 + 1`. -/
def sqrtByPower (x : Residue m) : Option (Residue m) :=
  checkedRoot x (x.pow ((m.value.shiftRight 2).wrappingAdd Limbs.one))

/-! ### The method of Tonelli and Shanks -/

/-- Where the search for the order of the error stands inside one round. -/
structure OrderSearch (m : Modulus L) where
  /-- The logarithm of the order, as far as it is known. -/
  order : Nat
  /-- The error, squared until it is 1. -/
  power : Residue m
  /-- The root of unity, squared from then on, for as long as it has to be. -/
  root : Residue m
  /-- Has the search stayed below the order of the round before? -/
  below : Bool

/-- One squaring of the search: of the error, or of the root of unity once the
error has come to 1. -/
def OrderSearch.step (previous : Nat) (search : OrderSearch m) (j : Nat) : OrderSearch m :=
  let found : Bool := search.power = 1
  let squared := (search.power.select search.root found).square
  let below := search.below && j != previous
  { order := if found then search.order else j
    power := squared.select search.power found
    root := search.root.select (search.root.select squared found) below
    below }

/-- Where the correction of the candidate stands between two rounds. -/
structure RootSearch (m : Modulus L) where
  /-- The logarithm of a bound on the order of the error. -/
  order : Nat
  candidate : Residue m
  /-- The factor by which the square of the candidate is off. -/
  error : Residue m
  root : Residue m

/-- The round that takes the order of the error below `2^bound`. -/
def RootSearch.round (bound : Nat) (search : RootSearch m) : RootSearch m :=
  let found := (List.range' 2 (bound - 2)).foldl (OrderSearch.step search.order)
    { order := 1, power := search.error.square, root := search.root, below := true }
  let root := found.root.square
  { order := found.order
    candidate := (search.candidate * found.root).select search.candidate (search.error = 1)
    error := search.error * root
    root }

/-- The rounds for the bounds from `count` down to 1. -/
def RootSearch.rounds : (count : Nat) → RootSearch m → RootSearch m
  | 0, search => search
  | count + 1, search => rounds count (search.round (count + 1))

/-- The root modulo any odd prime. -/
def sqrtByRounds (x : Residue m) : Option (Residue m) :=
  let w := x.pow ((m.oddPart.wrappingSub Limbs.one).shiftRight 1)
  let candidate := x * w
  let search : RootSearch m :=
    { order := m.twoAdicity, candidate, error := candidate * w, root := rootOfUnity }
  checkedRoot x (search.rounds m.twoAdicity).candidate

/-- A square root modulo a prime, if there is one. -/
def sqrt? (x : Residue m) : Option (Residue m) :=
  if m.value.low &&& 3 = 3 then x.sqrtByPower else x.sqrtByRounds

/-! ### Roots of quotients -/

/-- A root of a quotient, or of its product with the root of unity, and which of
the two it is. -/
structure RatioRoot (m : Modulus L) where
  isSquare : Bool
  root : Residue m

/-- A root of `num / div`, or of its product with the root of unity, which is no
square. The quotient by zero counts as zero, but not as a square unless `num` is
zero as well. -/
def sqrtRatio (num div : Residue m) : Except Fault (RatioRoot m) :=
  let ratio := div.inverseOrZero * num
  let root := ratio.sqrt?
  let partner := (ratio * rootOfUnity).sqrt?
  if num.isZero || div.isZero || root.isSome != partner.isSome then
    match root.or partner with
    | some y => .ok ⟨root.isSome && (num.isZero || !div.isZero), y⟩
    | none => .error .rootCount
  else
    .error .rootCount

/-- A root of a residue, or of its product with the root of unity. -/
def sqrtAlt (x : Residue m) : Except Fault (RatioRoot m) := sqrtRatio x 1

end Residue
end ShortWeierstrass
