/-
# Signatures

The elliptic curve digital signature algorithm over any domain. For a private key
`d`, a nonce `k` and a digest scalar `z` the signature is `r = x(k G)` modulo the
order and `s = (z + r d) / k`; it is valid for the public key `Q = d G` if the first
coordinate of `(z / s) G + (r / s) Q`, modulo the order, is `r`. The caller chooses
the nonce.

Signing always fills the buffer and says whether what it holds is a signature;
verification stops at the first thing that is wrong.

Key definitions: `Signature`, `Domain.signScalars`, `Domain.verifyScalars`,
`Domain.signDigest`, `Domain.verifyDigest`.
-/
import ShortWeierstrass.Point.Encoding
import ShortWeierstrass.Scalar

namespace ShortWeierstrass

/-- The two scalars of a signature. -/
structure Signature {L : Nat} (d : Domain L) where
  r : d.Scalar
  s : d.Scalar
  deriving DecidableEq

/-- A signature with a zero in it is not to be used. -/
def Signature.isProper {L : Nat} {d : Domain L} (signature : Signature d) : Bool :=
  !signature.r.isZero && !signature.s.isZero

namespace Domain

variable {L : Nat}

/-- The signature of a digest scalar by a key and a nonce. -/
def signScalars (d : Domain L) (key nonce z : d.Scalar) : Signature d :=
  let r := d.toScalar (d.mulGenerator nonce.value).toAffine.x
  ⟨r, nonce.inverseOrZero * (z + r * key)⟩

/-- Does a signature fit a digest scalar and a public key? -/
def verifyScalars (d : Domain L) (publicKey : Affine d.toCurve) (z : d.Scalar)
    (signature : Signature d) : Bool :=
  let inverse := signature.s.inverseOrZero
  let u₁ := z * inverse
  let u₂ := signature.r * inverse
  let point := d.mulGeneratorAdd u₁.value (.ofAffine publicKey) u₂.value
  !point.isIdentity && d.toScalar point.toAffine.x = signature.r

/-- Signs a digest of any length: writes `r‖s`, each on as many bytes as a
coordinate has. Valid are signatures without a zero, by a key and a nonce that
are valid themselves. -/
def signDigest (d : Domain L) (digest key nonce out : Bytes) : Except Fault Outcome := do
  let key ← d.loadScalar key
  let nonce ← d.loadScalar nonce
  let z ← d.digestScalar digest
  let signature := d.signScalars key.scalar nonce.scalar z
  let out ← Bytes.writePair d.coordinateBytes signature.r.value signature.s.value out
  return ⟨key.valid && nonce.valid && signature.isProper, out⟩

/-- Verifies a signature of a digest of any length by a raw public key. -/
def verifyDigest (d : Domain L) (digest publicKey r s : Bytes) : Except Fault Bool := do
  match ← Affine.ofRaw? d.toCurve publicKey with
  | none => return false
  | some publicKey =>
    let r ← d.loadScalar r
    let s ← d.loadScalar s
    if r.valid && s.valid then
      let z ← d.digestScalar digest
      return d.verifyScalars publicKey z ⟨r.scalar, s.scalar⟩
    else
      return false

end Domain
end ShortWeierstrass
