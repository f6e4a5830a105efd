/-
# Powers and inverses of residues

A power is computed with windows of five bits, most significant first: five
squarings, then one product with an entry of the table of the first 32 powers.
The exponent is a number of `L` words. A second power, bit by bit, takes an
exponent of any number of words. The inverse modulo a prime is the power to
`m - 2`; zero has none.

Key definitions: `Residue.pow`, `Residue.powWords`, `Residue.invert?`, `Residue.inverseOrZero`.
-/
import ShortWeierstrass.Multiples
import ShortWeierstrass.Residue.Basic

namespace ShortWeierstrass

attribute [local instance (high)] instPowNat

namespace Residue

variable {L : Nat} {m : Modulus L}

/-- The bits of an exponent that one step consumes. -/
def powerBits : Fin 64 := ⟨5, by decide⟩

/-- The first 32 powers. -/
def powers (x : Residue m) : Vector (Residue m) (2 ^ powerBits.val) :=
  multiples 1 x square (· * x) (2 ^ powerBits.val)

/-- Consumes the lowest `windows` windows of the exponent, highest first. -/
def powWindows (table : Vector (Residue m) (2 ^ powerBits.val)) (exponent : Limbs L) :
    (windows : Nat) → Residue m → Residue m
  | 0, acc => acc
  | window + 1, acc =>
    powWindows table exponent window <|
      acc.squareTimes powerBits.val
        * table.get (exponent.window (window * powerBits.val) powerBits)

/-- The power of a residue to a number of `L` words. -/
def pow (x : Residue m) (exponent : Limbs L) : Residue m :=
  powWindows x.powers exponent ((exponent.bitLength + 4) / 5) 1

/-- Consumes the lowest `bits` bits of a word of the exponent, highest first. -/
def powBits (x : Residue m) (w : Word) : (bits : Nat) → Residue m → Residue m
  | 0, acc => acc
  | bit + 1, acc =>
    powBits x w bit (acc.square.select (acc.square * x) (w.toNat.testBit bit))

/-- The power of a residue to a number of any length, bit by bit. -/
def powWords (x : Residue m) : (exponent : List Word) → Residue m
  | [] => 1
  | w :: ws => powBits x w 64 (powWords x ws)

/-- The inverse modulo a prime, none for zero. -/
def invert? (x : Residue m) : Option (Residue m) :=
  if x.isZero then none else some (x.pow m.inversionExponent)

/-- The inverse modulo a prime, zero for zero. -/
def inverseOrZero (x : Residue m) : Residue m := x.invert?.getD 0

end Residue
end ShortWeierstrass
