/-
# Secret keys

A secret key is an integer from 1 up to the order, not included. It is read from
exactly `n` bytes, the length of a coordinate, or from 24 bytes on up to `n`, which
stand for a key with zeros in front; every other string is turned down.

A key and a residue modulo the order are turned into each other by way of `n`
bytes: the scalar of a key is the number that its bytes are read as, reduced, and
a random key is read from the bytes of a random residue, which is drawn again
while they are no key. Bytes of that length are read without a fault, so neither
stops.

Signing with a secret key writes `r` and `s` on as many bytes as the order has,
which on curves whose order is shorter than their coordinates are fewer than
`Domain.signDigest` writes.

Key definitions: `SecretKey`, `SecretKey.ofBytes?`, `SecretKey.toBytes`, `SecretKey.scalar`,
`SecretKey.ofScalar?`, `SecretKey.publicPoint`, `SecretKey.sign`, `SecretKey.generate`.
Key theorems: `SecretKey.ofBytes?_of_length`, `SecretKey.scalar_eq_ofNat`,
`SecretKey.ofScalar?_eq_ofBytes?`.
-/
import ShortWeierstrass.Signature

namespace ShortWeierstrass

/-- An integer from 1 up to the order, not included. -/
structure SecretKey {L : Nat} (d : Domain L) where
  value : Limbs L
  ne_zero : value ≠ Limbs.zero
  lt_order : value.lt d.order.value = true

namespace SecretKey

variable {L : Nat} {d : Domain L}

/-- The shortest string that is read as a key. -/
def minBytes : Nat := 24

/-- The key of an integer in range. -/
def ofLimbs? (d : Domain L) (u : Limbs L) : Option (SecretKey d) :=
  if h : u ≠ Limbs.zero ∧ u.lt d.order.value = true then some ⟨u, h.1, h.2⟩ else none

/-- The key that a string of 24 to `n` bytes, or of `n`, stands for. -/
def ofBytes? (d : Domain L) (bytes : Bytes) : Except Fault (Option (SecretKey d)) := do
  let n := d.coordinateBytes
  if bytes.length = n then
    return ofLimbs? d (← Limbs.ofBytes L bytes)
  else if minBytes ≤ bytes.length ∧ bytes.length < n then
    return ofLimbs? d (← Limbs.ofBytes L (List.replicate (n - bytes.length) 0 ++ bytes))
  else
    return none

theorem ofBytes?_of_length {bytes : Bytes} (length : bytes.length = d.coordinateBytes) :
    ofBytes? d bytes = .ok (ofLimbs? d (.ofNat L bytes.value)) := by
  rw [ofBytes?, if_pos length, Limbs.ofBytes_eq_ok bytes (length ▸ d.base.byteLength_le)]
  rfl

/-- The encoding on `n` bytes. -/
def toBytes (key : SecretKey d) : Bytes := key.value.toBytes d.coordinateBytes

theorem length_toBytes (key : SecretKey d) : key.toBytes.length = d.coordinateBytes :=
  key.value.length_toBytes _ d.base.byteLength_le

theorem ofBytes_toBytes (key : SecretKey d) :
    Limbs.ofBytes L key.toBytes = .ok (.ofNat L (Bytes.value key.toBytes)) :=
  Limbs.ofBytes_eq_ok _ (key.length_toBytes ▸ d.base.byteLength_le)

/-- The key as a residue modulo the order, by way of its bytes. -/
def scalar (key : SecretKey d) : d.Scalar :=
  .ofLimbs ((Limbs.ofBytes L key.toBytes).toOption.get (by rw [key.ofBytes_toBytes]; rfl))

theorem scalar_eq_ofNat (key : SecretKey d) : key.scalar = .ofNat (Bytes.value key.toBytes) :=
  congrArg Residue.ofLimbs
    (Option.get_of_eq_some _ (congrArg Except.toOption key.ofBytes_toBytes))

/-- The key that the `n` bytes of a residue are read as. -/
def ofScalar? (x : d.Scalar) : Option (SecretKey d) :=
  (ofBytes? d (x.value.toBytes d.coordinateBytes)).toOption.get (by
    rw [ofBytes?_of_length (x.value.length_toBytes _ d.base.byteLength_le)]
    rfl)

theorem ofScalar?_eq_ofBytes? (x : d.Scalar) :
    ofBytes? d (x.value.toBytes d.coordinateBytes) = .ok (ofScalar? x) := by
  have read := ofBytes?_of_length (x.value.length_toBytes _ d.base.byteLength_le)
  rw [read, ofScalar?, Option.get_of_eq_some _ (congrArg Except.toOption read)]

/-- The public key that belongs to a secret key. -/
def publicPoint (key : SecretKey d) : Affine d.toCurve :=
  (d.mulGenerator key.scalar.value).toAffine

/-- Signs a digest, writing `r‖s` on as many bytes each as the order has. -/
def sign (key : SecretKey d) (digest nonce out : Bytes) : Except Fault Outcome := do
  let nonce ← d.loadScalar nonce
  let z ← d.digestScalar digest
  let signature := d.signScalars key.scalar nonce.scalar z
  let out ← Bytes.writePair d.order.byteLength signature.r.value signature.s.value out
  return ⟨nonce.valid && signature.isProper, out⟩

/-- Draws a key, each with the same chance. -/
def generate (d : Domain L) (stream : List Word) : Except Fault (Drawn (SecretKey d) stream) :=
  Drawn.retry (Residue.random d.order) ofScalar? stream

end SecretKey
end ShortWeierstrass
