/-
# Scalars from bytes

Private keys, nonces and the parts of a signature are integers from 1 up to the
order, not included. Loading one never turns it down: a value outside that range
is replaced by 1, and the scalar comes with the word whether it is valid, so that
what follows does the same work either way.

A digest becomes a scalar through its leftmost bits, as many as the order has. A
digest shorter than a coordinate is taken whole.

Key definitions: `LoadedScalar`, `Domain.loadScalar`, `Domain.digestScalar`.
-/
import ShortWeierstrass.Buffer
import ShortWeierstrass.Domain

namespace ShortWeierstrass

/-- A scalar that can be used, and whether it is the one that was given. -/
structure LoadedScalar {L : Nat} (d : Domain L) where
  scalar : d.Scalar
  valid : Bool

namespace Domain

variable {L : Nat}

/-- The scalar that at most `8 L` bytes stand for, or 1 if it is zero or not
below the order. -/
def loadScalar (d : Domain L) (bytes : Bytes) : Except Fault (LoadedScalar d) := do
  let u ← Limbs.ofBytes L bytes
  let valid := u ≠ Limbs.zero && u.lt d.order.value
  return ⟨.ofLimbs (if valid then u else Limbs.one), valid⟩

/-- The integer of the leftmost bits of a digest. The bytes beyond the length of
a coordinate do not count, and of those within it the lowest bits are dropped
that the order does not have. -/
def digestLimbs (d : Domain L) (digest : Bytes) : Except Fault (Limbs L) := do
  let n := d.coordinateBytes
  if n ≤ digest.length then
    let (front, _) ← digest.split n
    let u ← Limbs.ofBytes L front
    if d.order.bitLength ≤ 8 * n then
      return u.shiftRight (8 * n - d.order.bitLength)
    else
      throw .bitCount
  else
    Limbs.ofBytes L digest

/-- The scalar of a digest. -/
def digestScalar (d : Domain L) (digest : Bytes) : Except Fault d.Scalar := do
  return .ofLimbs (← d.digestLimbs digest)

end Domain
end ShortWeierstrass
