/-
# Encodings of points

A finite point is encoded on `n` bytes a coordinate: raw as `x‖y`, uncompressed
with the tag 04 in front, compressed as the tag 02 or 03, for an even or odd `y`,
and `x`. Readers take strings of exactly these lengths, with coordinates below the
base modulus and on the curve, and nothing else. The identity has no encoding of
its own; a writer puts zeros where its coordinates would be, and compressed these
are read as a finite point if the curve has one with 0 for its first coordinate.

The compressed writer fills the whole buffer behind the tag with `x`, whatever the
length of the buffer.

Key definitions: `PointForm`, `Affine.ofRaw?`, `Affine.ofTagged?`, `Affine.decompressBytes?`,
`Affine.writeRaw`, `Affine.writeUncompressed`, `Affine.writeCompressed`.
-/
import ShortWeierstrass.Buffer
import ShortWeierstrass.Point.Affine

namespace ShortWeierstrass

/-- What the tag in front of an encoded point says. -/
inductive PointForm where
  | uncompressed
  | compressed (odd : Bool)
  deriving DecidableEq, Repr

namespace PointForm

/-- The byte that stands for a form. -/
def tag : PointForm → UInt8
  | uncompressed => 4
  | compressed false => 2
  | compressed true => 3

/-- The form that a byte stands for. -/
def ofTag? : UInt8 → Option PointForm
  | 2 => some (compressed false)
  | 3 => some (compressed true)
  | 4 => some uncompressed
  | _ => none

theorem ofTag?_tag (form : PointForm) : ofTag? form.tag = some form := by
  rcases form with _ | _ | _ <;> rfl

end PointForm

namespace Affine

variable {L : Nat} {c : Curve L}

/-! ### Readers -/

/-- The point whose coordinates a string of exactly `2 n` bytes holds. -/
def ofRaw? (c : Curve L) (bytes : Bytes) : Except Fault (Option (Affine c)) := do
  if bytes.length = 2 * c.coordinateBytes then
    let (xBytes, yBytes) ← bytes.split c.coordinateBytes
    let x ← Residue.ofBytes? c.base xBytes
    let y ← Residue.ofBytes? c.base yBytes
    return x.bind fun x => y.bind fun y => ofCoordinates? x y
  else
    return none

/-- The point of a parity whose first coordinate a string holds. -/
def decompressBytes? (c : Curve L) (bytes : Bytes) (odd : Bool) :
    Except Fault (Option (Affine c)) := do
  let x ← Residue.ofBytes? c.base bytes
  return x.bind (decompress? · odd)

/-- The point that a string with a tag encodes. -/
def ofTagged? (c : Curve L) : Bytes → Except Fault (Option (Affine c))
  | [] => return none
  | tag :: body =>
    match PointForm.ofTag? tag with
    | some .uncompressed => ofRaw? c body
    | some (.compressed odd) =>
      if body.length = c.coordinateBytes then decompressBytes? c body odd else return none
    | none => return none

/-! ### Writers -/

/-- Writes both coordinates over the first `2 n` bytes. -/
def writeRaw (p : Affine c) (out : Bytes) : Except Fault Bytes :=
  Bytes.writePair c.coordinateBytes p.x.value p.y.value out

/-- Writes the tag and both coordinates over the first `2 n + 1` bytes. -/
def writeUncompressed (p : Affine c) (out : Bytes) : Except Fault Bytes := do
  let (_, rest) ← out.first
  return PointForm.uncompressed.tag :: (← p.writeRaw rest)

/-- Writes the tag, and the first coordinate over all bytes behind it. -/
def writeCompressed (p : Affine c) (out : Bytes) : Except Fault Bytes := do
  let (_, rest) ← out.first
  return (PointForm.compressed p.y.isOdd).tag :: (← p.x.writeBytes rest)

/-- The `2 n` bytes of both coordinates. -/
def toRaw (p : Affine c) : Bytes := p.x.toBytes ++ p.y.toBytes

end Affine
end ShortWeierstrass
