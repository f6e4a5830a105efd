/-
# Bytes and texts of residues

A residue is encoded on `m.byteLength` bytes, most significant first, and read
from any string of at most `8 L` bytes whose number is below the modulus; there
is no second encoding of a residue. Its hexadecimal text has all `16 L` digits,
and a constant given in that form has to be below the modulus. A decimal text
is read modulo `m`: no sign, no leading zero, no digits but ASCII ones.

Key definitions: `Residue.ofBytes?`, `Residue.toBytes`, `Residue.writeBytes`,
`Residue.ofHex`, `Residue.toHex`, `Residue.ofDecimal?`, `Residue.ofDoubleWord`,
`Residue.description`.
-/
import ShortWeierstrass.Limbs.Bytes
import ShortWeierstrass.Limbs.Hex
import ShortWeierstrass.Residue.Basic

namespace ShortWeierstrass
namespace Residue

variable {L : Nat} {m : Modulus L}

/-- The residue whose number at most `8 L` bytes stand for, if it is below the modulus. -/
def ofBytes? (m : Modulus L) (bytes : Bytes) : Except Fault (Option (Residue m)) := do
  let u ← Limbs.ofBytes L bytes
  return ofLimbs? u

/-- The encoding on `m.byteLength` bytes. -/
def toBytes (x : Residue m) : Bytes := x.value.toBytes m.byteLength

/-- Fills a buffer of at most `8 L` bytes with the lowest bytes of the value. -/
def writeBytes (x : Residue m) (out : Bytes) : Except Fault Bytes := x.value.writeBytes out

theorem length_toBytes (x : Residue m) : x.toBytes.length = m.byteLength :=
  Limbs.length_toBytes _ _ m.byteLength_le

/-- The residue that a text of `16 L` hexadecimal digits stands for. -/
def ofHex (m : Modulus L) (text : String) : Except Fault (Residue m) := do
  let u ← Limbs.ofHex L text
  match ofLimbs? u with
  | some x => return x
  | none => throw .hexOverflow

/-- All `16 L` hexadecimal digits of the value. -/
def toHex (letters : Hex.LetterCase) (x : Residue m) : String := x.value.toHex letters

/-- Modulus and value, for diagnostics. -/
def description (x : Residue m) : String :=
  "MontyFieldElement<p=0x" ++ m.value.toHex .upper ++ ">(0x" ++ x.toHex .upper ++ ")"

/-- The value of an ASCII decimal digit. -/
def decimalDigit? (c : Char) : Option Word :=
  if c.isDigit then some (UInt64.ofNat (c.toNat - '0'.toNat)) else none

/-- Appends decimal digits to a number modulo `m`. -/
def appendDigits (x : Residue m) (digits : List Word) : Residue m :=
  digits.foldl (fun x d => x * ofWord 10 + ofWord d) x

/-- The residue of a decimal number without sign and without leading zeros. -/
def ofDecimal? (m : Modulus L) (text : String) : Option (Residue m) :=
  match text.toList.mapM decimalDigit? with
  | none => none
  | some [] => none
  | some [0] => some 0
  | some (d :: ds) => if d = 0 then none else some (appendDigits 0 (d :: ds))

/-- The residue of a number of two words: the upper one doubled 64 times, plus
the lower one. -/
def ofDoubleWord (high low : Word) : Residue m :=
  Nat.repeat double 64 (ofWord high) + ofWord low

end Residue
end ShortWeierstrass
