/-
# Residues in Montgomery form

A residue `x` modulo `m` is stored as `x * R` modulo `m`, `R = 2^(64 L)`. All
arithmetic works on that form: a product of two stored numbers is reduced by
one factor `R`, which leaves the stored number of the product. `Residue.ofLimbs`
enters the form, `Residue.value` leaves it.

Any number can be stored in the type; a residue is canonical if the stored
number is below the modulus, which every operation here keeps.

Key definitions: `Residue`, `Residue.ofLimbs`, `Residue.ofLimbs?`, `Residue.value`,
`Residue.mul`, `Residue.sum`, `Residue.product`.
-/
import ShortWeierstrass.Modulus

namespace ShortWeierstrass

/-- A residue modulo `m`, stored multiplied by `R`. -/
structure Residue {L : Nat} (m : Modulus L) where
  montgomery : Limbs L
  deriving DecidableEq

namespace Residue

variable {L : Nat} {m : Modulus L}

/-- The residue whose stored number is the reduction of a double-length number. -/
def ofWide (x : Wide L) : Residue m := ⟨Limbs.reduce m.value m.negInv x⟩

/-- The residue of any number of `L` words. -/
def ofLimbs (u : Limbs L) : Residue m := ofWide (u.mulWide m.radixSq)

/-- The residue of a number below the modulus, and of no other. -/
def ofLimbs? (u : Limbs L) : Option (Residue m) :=
  if u.lt m.value then some (ofLimbs u) else none

/-- The residue of a word. -/
def ofWord (w : Word) : Residue m := ofLimbs (Limbs.ofNat L w.toNat)

/-- The residue of a number below `2^(64 L)`. -/
def ofNat (n : Nat) : Residue m := ofLimbs (Limbs.ofNat L n)

/-- The number below the modulus that a residue stands for. -/
def value (x : Residue m) : Limbs L := Limbs.reduce m.value m.negInv ⟨x.montgomery, Limbs.zero⟩

/-- The residue of 0, stored as 0. -/
def zero : Residue m := ⟨Limbs.zero⟩

/-- The residue of 1, stored as `R` modulo `m`. -/
def one : Residue m := ⟨m.radix⟩

/-! ### Ring operations -/

/-- The sum; stored numbers add up like the residues. -/
def add (x y : Residue m) : Residue m := ⟨x.montgomery.addMod y.montgomery m.value⟩

/-- The difference; the modulus is added back where it falls below zero. -/
def sub (x y : Residue m) : Residue m := ⟨x.montgomery.subMod y.montgomery m.value⟩

/-- The product: the stored numbers multiplied, and one factor `R` reduced away. -/
def mul (x y : Residue m) : Residue m := ofWide (x.montgomery.mulWide y.montgomery)

/-- The negative, as the difference from zero. -/
def neg (x : Residue m) : Residue m := zero.sub x

/-! The ring's operations under their usual signs. -/

instance : Zero (Residue m) := ⟨zero⟩
instance : One (Residue m) := ⟨one⟩
instance : Add (Residue m) := ⟨add⟩
instance : Sub (Residue m) := ⟨sub⟩
instance : Mul (Residue m) := ⟨mul⟩
instance : Neg (Residue m) := ⟨neg⟩
instance : Inhabited (Residue m) := ⟨zero⟩

/-- The residue added to itself. -/
def double (x : Residue m) : Residue m := x + x

/-- The residue times itself. -/
def square (x : Residue m) : Residue m := x * x

/-- The square times the residue. -/
def cube (x : Residue m) : Residue m := x.square * x

/-- Squares `count` times: the power to `2^count`. -/
def squareTimes : (count : Nat) → Residue m → Residue m
  | 0, x => x
  | count + 1, x => squareTimes count x.square

/-- The sum of a list, added up from the left. -/
def sum (xs : List (Residue m)) : Residue m := xs.foldl (· + ·) 0

/-- The product of a list, multiplied up from the left. -/
def product (xs : List (Residue m)) : Residue m := xs.foldl (· * ·) 1

/-! ### Tests and selection -/

/-- Only 0 is stored as 0. -/
def isZero (x : Residue m) : Bool := x.montgomery = Limbs.zero

/-- Parity is that of the value below the modulus, not of the stored number. -/
def isOdd (x : Residue m) : Bool := x.value.isOdd

/-- The values that are not odd. -/
def isEven (x : Residue m) : Bool := !x.isOdd

/-- The second residue if the choice is made, the first if not. -/
def select (x y : Residue m) (choice : Bool) : Residue m := if choice then y else x

end Residue
end ShortWeierstrass
