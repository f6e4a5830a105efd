/-
# Constants of a residue ring

With `m - 1 = 2^s * t` and `t` odd, the multiplicative group modulo a prime `m`
splits into a part of order `2^s`, generated by the root of unity `g^t`, and a
part of order `t`, generated by `g^(2^s)`, for any generator `g` of the group. A
modulus may settle the root of unity in advance; otherwise it is computed, and
for `s = 1` it is `-1` without a computation.

Key definitions: `Residue.twoInverse`, `Residue.generator`, `Residue.rootOfUnity`,
`Residue.rootOfUnityInverse`, `Residue.delta`.
-/
import ShortWeierstrass.Residue.Power

namespace ShortWeierstrass

attribute [local instance (high)] instPowNat

namespace Residue

variable {L : Nat} {m : Modulus L}

/-- The inverse of two: `(m - 1) / 2 + 1`. -/
def twoInverse : Residue m := ofLimbs ((m.value.shiftRight 1).wrappingAdd Limbs.one)

/-- The generator of the multiplicative group that comes with the modulus. -/
def generator : Residue m := ofWord m.generator

/-- The root of unity of order `2^s`. -/
def rootOfUnity : Residue m :=
  match m.root? with
  | some root => ofLimbs root
  | none => if m.twoAdicity = 1 then -1 else generator.pow m.oddPart

/-- The inverse of the root of unity: its power to `2^s - 1`. -/
def rootOfUnityInverse : Residue m :=
  rootOfUnity.pow ((Limbs.ofNat L (2 ^ m.twoAdicity)).wrappingSub Limbs.one)

/-- The generator of the part of odd order: `g^(2^s)`. -/
def delta : Residue m := generator.squareTimes m.twoAdicity

end Residue
end ShortWeierstrass
