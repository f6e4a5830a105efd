/-
# Checks and formats of keys

Public keys come raw, uncompressed or compressed, as in `Point/Encoding`; these
are the checks of raw and private keys and the conversions between the formats. A
conversion from a tagged format says whether it succeeded and leaves the buffer
alone if not; the conversions of a raw key check nothing. Unlike the readers and writers
of points they work on bytes where they can: a compressed tag is told by its bits, and the
parity of a coordinate by its last byte.

Key definitions: `Domain.isPublicKey`, `Domain.isPrivateKey`, `Curve.uncompressedToRaw`,
`Curve.compressedToRaw`, `Curve.rawToUncompressed`, `Curve.rawToCompressed`.
-/
import ShortWeierstrass.Point.Encoding
import ShortWeierstrass.Scalar

namespace ShortWeierstrass

/-- Is this the raw encoding of a point of the curve? -/
def Domain.isPublicKey {L : Nat} (d : Domain L) (key : Bytes) : Except Fault Bool := do
  return (← Affine.ofRaw? d.toCurve key).isSome

/-- Does this stand for an integer from 1 up to the order, not included? -/
def Domain.isPrivateKey {L : Nat} (d : Domain L) (key : Bytes) : Except Fault Bool := do
  return (← d.loadScalar key).valid

namespace Curve

variable {L : Nat}

/-- Strips the tag of an uncompressed key; the coordinates are not checked. -/
def uncompressedToRaw (c : Curve L) (key out : Bytes) : Except Fault Outcome := do
  let (tag, body) ← key.first
  if tag = PointForm.uncompressed.tag then
    let (coordinates, _) ← Bytes.split body (2 * c.coordinateBytes)
    let (_, tail) ← out.split (2 * c.coordinateBytes)
    return ⟨true, coordinates ++ tail⟩
  else
    return ⟨false, out⟩

/-- Decompresses a compressed key. -/
def compressedToRaw (c : Curve L) (key out : Bytes) : Except Fault Outcome := do
  let (tag, body) ← key.first
  if tag ||| 1 = (PointForm.compressed false).tag ||| 1 then
    let (x, _) ← Bytes.split body c.coordinateBytes
    match ← Affine.decompressBytes? c x (tag &&& 1 = 1) with
    | some p => return ⟨true, ← p.writeRaw out⟩
    | none => return ⟨false, out⟩
  else
    return ⟨false, out⟩

/-- Puts the tag in front of a raw key. -/
def rawToUncompressed (c : Curve L) (key out : Bytes) : Except Fault Bytes := do
  let (_, rest) ← out.first
  let (coordinates, _) ← key.split (2 * c.coordinateBytes)
  let (_, tail) ← Bytes.split rest (2 * c.coordinateBytes)
  return PointForm.uncompressed.tag :: (coordinates ++ tail)

/-- Keeps the first coordinate of a raw key and the parity of the second, which
is that of the last byte. -/
def rawToCompressed (c : Curve L) (key out : Bytes) : Except Fault Bytes := do
  let (_, rest) ← out.first
  let (x, others) ← key.split c.coordinateBytes
  let (y, _) ← Bytes.split others c.coordinateBytes
  let (_, tail) ← Bytes.split rest c.coordinateBytes
  let odd : Bool := y.getLastD 0 &&& 1 = 1
  return (PointForm.compressed odd).tag :: (x ++ tail)

end Curve
end ShortWeierstrass
