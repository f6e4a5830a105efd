/-
# Signatures of messages

A message is signed through one of its digests.

Key definitions: `Domain.signMessage`, `Domain.verifyMessage`.
-/
import ShortWeierstrass.Digest.Sha2
import ShortWeierstrass.Signature

namespace ShortWeierstrass
namespace Domain

variable {L : Nat}

/-- Signs the digest of a message. -/
def signMessage (d : Domain L) (hash : Hash) (message key nonce out : Bytes) :
    Except Fault Outcome :=
  d.signDigest (hash.digest message) key nonce out

/-- Verifies a signature of the digest of a message. -/
def verifyMessage (d : Domain L) (hash : Hash) (message publicKey r s : Bytes) :
    Except Fault Bool :=
  d.verifyDigest (hash.digest message) publicKey r s

end Domain
end ShortWeierstrass
