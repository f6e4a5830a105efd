/-
# Operations on byte strings of the exact length

For the three NIST curves every key, nonce, encoded point and signature has one
length, and the operations here take and fill byte strings of just that length;
only digests and messages have any length. None of them can stop with a fault.

Key definitions: `Sized`, `Nist.fieldBytes`, `Nist.signDigest`, `Nist.verifyDigest`,
`Nist.signMessage`, `Nist.verifyMessage`, `Nist.publicKey`, `Nist.sharedSecret`,
`Nist.encodeLimbs`, `Nist.decodeLimbs`.
-/
import ShortWeierstrass.Curves.Nist
import ShortWeierstrass.Key.Agreement
import ShortWeierstrass.Key.Format
import ShortWeierstrass.Key.Secret
import ShortWeierstrass.Message

namespace ShortWeierstrass

/-- A byte string of a given length. -/
structure Sized (n : Nat) where
  bytes : Bytes
  length_bytes : bytes.length = n
  deriving DecidableEq

/-- The string as one of the given length, if it is. -/
def Sized.ofBytes? (n : Nat) (bytes : Bytes) : Option (Sized n) :=
  if h : bytes.length = n then some ⟨bytes, h⟩ else none

namespace Nist

/-- The number of bytes of a coordinate or a scalar. -/
def fieldBytes : Nist → Nat
  | p256 => 32
  | p384 => 48
  | p521 => 66

/-- The length named here is the one that the base modulus asks for. -/
theorem fieldBytes_eq (curve : Nist) : curve.fieldBytes = curve.domain.coordinateBytes := by
  cases curve <;> decide +kernel

variable (curve : Nist)

/-! ### Signatures -/

/-- Signs a digest of any length; the buffer takes `r‖s`. -/
def signDigest (digest : Bytes) (key nonce : Sized curve.fieldBytes)
    (out : Sized (2 * curve.fieldBytes)) : Except Fault Outcome :=
  curve.domain.signDigest digest key.bytes nonce.bytes out.bytes

/-- Signs a message through one of its digests. -/
def signMessage (hash : Hash) (message : Bytes) (key nonce : Sized curve.fieldBytes)
    (out : Sized (2 * curve.fieldBytes)) : Except Fault Outcome :=
  curve.domain.signMessage hash message key.bytes nonce.bytes out.bytes

/-- Verifies a signature of a digest of any length. -/
def verifyDigest (digest : Bytes) (publicKey : Sized (2 * curve.fieldBytes))
    (r s : Sized curve.fieldBytes) : Except Fault Bool :=
  curve.domain.verifyDigest digest publicKey.bytes r.bytes s.bytes

/-- Verifies a signature of a message through one of its digests. -/
def verifyMessage (hash : Hash) (message : Bytes) (publicKey : Sized (2 * curve.fieldBytes))
    (r s : Sized curve.fieldBytes) : Except Fault Bool :=
  curve.domain.verifyMessage hash message publicKey.bytes r.bytes s.bytes

/-! ### Key agreement -/

/-- Writes the public key of a private key. -/
def publicKey (privateKey : Sized curve.fieldBytes) (out : Sized (2 * curve.fieldBytes)) :
    Except Fault Outcome :=
  curve.domain.publicKey privateKey.bytes out.bytes

/-- Writes the secret shared with the holder of a public key. -/
def sharedSecret (publicKey : Sized (2 * curve.fieldBytes)) (privateKey : Sized curve.fieldBytes)
    (out : Sized (2 * curve.fieldBytes)) : Except Fault Outcome :=
  curve.domain.sharedSecret publicKey.bytes privateKey.bytes out.bytes

/-! ### Keys and their formats -/

/-- Is this the raw encoding of a point of the curve? -/
def isPublicKey (key : Sized (2 * curve.fieldBytes)) : Except Fault Bool :=
  curve.domain.isPublicKey key.bytes

/-- Does this stand for an integer from 1 up to the order, not included? -/
def isPrivateKey (key : Sized curve.fieldBytes) : Except Fault Bool :=
  curve.domain.isPrivateKey key.bytes

/-- Strips the tag of an uncompressed key. -/
def uncompressedToRaw (key : Sized (2 * curve.fieldBytes + 1))
    (out : Sized (2 * curve.fieldBytes)) : Except Fault Outcome :=
  curve.domain.uncompressedToRaw key.bytes out.bytes

/-- Decompresses a compressed key. -/
def compressedToRaw (key : Sized (curve.fieldBytes + 1)) (out : Sized (2 * curve.fieldBytes)) :
    Except Fault Outcome :=
  curve.domain.compressedToRaw key.bytes out.bytes

/-- Puts the tag in front of a raw key. -/
def rawToUncompressed (key : Sized (2 * curve.fieldBytes))
    (out : Sized (2 * curve.fieldBytes + 1)) : Except Fault Bytes :=
  curve.domain.rawToUncompressed key.bytes out.bytes

/-- Keeps the first coordinate of a raw key and the parity of the second. -/
def rawToCompressed (key : Sized (2 * curve.fieldBytes)) (out : Sized (curve.fieldBytes + 1)) :
    Except Fault Bytes :=
  curve.domain.rawToCompressed key.bytes out.bytes

/-! ### Integers on the length of a coordinate -/

/-- The integer of a string as long as a coordinate; it need not be in any range. -/
def decodeLimbs (bytes : Sized curve.fieldBytes) : Except Fault (Limbs curve.limbs) :=
  Limbs.ofBytes curve.limbs bytes.bytes

/-- The encoding of an integer on the length of a coordinate. -/
def encodeLimbs (u : Limbs curve.limbs) : Bytes := u.toBytes curve.fieldBytes

/-- The order of the curve. -/
def order : Limbs curve.limbs := .ofNat curve.limbs curve.orderValue

theorem order_eq : curve.order = curve.domain.order.value := by cases curve <;> rfl

end Nist
end ShortWeierstrass
