/-
# Public keys and shared secrets

The public key of a private key `d` is `d G`, and the secret that it shares with the
holder of the public key `Q` is `d Q`. Both are written raw, and always: an invalid
private key is replaced by 1, an invalid public key by the generator, and the
outcome says so.

Key definitions: `Domain.publicKey`, `Domain.sharedSecret`.
-/
import ShortWeierstrass.Point.Encoding
import ShortWeierstrass.Scalar

namespace ShortWeierstrass
namespace Domain

variable {L : Nat}

/-- Writes the public key of a private key. -/
def publicKey (d : Domain L) (privateKey out : Bytes) : Except Fault Outcome := do
  let key ← d.loadScalar privateKey
  let out ← (d.mulGenerator key.scalar.value).toAffine.writeRaw out
  return ⟨key.valid, out⟩

/-- Writes the secret shared with the holder of a raw public key. -/
def sharedSecret (d : Domain L) (publicKey privateKey out : Bytes) : Except Fault Outcome := do
  let peer ← Affine.ofRaw? d.toCurve publicKey
  let key ← d.loadScalar privateKey
  let shared := d.mul (.ofAffine (peer.getD d.generator)) key.scalar.value
  let out ← shared.toAffine.writeRaw out
  return ⟨peer.isSome && key.valid, out⟩

end Domain
end ShortWeierstrass
