/-
# Scalar multiplication by windows

A multiple of a point is computed with windows of four bits of the scalar, most
significant first: four doublings, then one addition of an entry of the table of
the first 16 multiples of the point. Every window does the same work, whatever
its value. A scalar with more bits than there are windows is read modulo the power
of two that they cover.

For a fixed point the doublings are saved by a comb: table `i` holds the multiples
of `2^(8 i)` times the point, the odd windows are added up first and moved into
place by four doublings, and then the even windows are added.

Key definitions: `WindowTable`, `WindowTable.ofPoint`, `Jacobian.mulWindows`, `Comb`,
`Comb.build`, `Comb.mul`.
-/
import ShortWeierstrass.Point.Jacobian

namespace ShortWeierstrass

attribute [local instance (high)] instPowNat

/-- The bits of a scalar that one step consumes. -/
def windowBits : Fin 64 := ⟨4, by decide⟩

/-- The first 16 multiples of a point. -/
structure WindowTable {L : Nat} (c : Curve L) where
  entries : Vector (Jacobian c) (2 ^ windowBits.val)

namespace WindowTable

variable {L : Nat} {c : Curve L}

/-- A table that has the identity everywhere. -/
instance : Inhabited (WindowTable c) := ⟨⟨Vector.replicate _ Jacobian.identity⟩⟩

/-- The table of a point. -/
def ofPoint (p : Jacobian c) : WindowTable c :=
  ⟨multiples Jacobian.identity p Jacobian.double (· + p) (2 ^ windowBits.val)⟩

/-- The entry of a digit. -/
def select (table : WindowTable c) (digit : Fin (2 ^ windowBits.val)) : Jacobian c :=
  table.entries.get digit

end WindowTable

namespace Jacobian

variable {L : Nat} {c : Curve L}

/-- Consumes the lowest `windows` windows of a scalar, highest first. -/
def addWindows (table : WindowTable c) (k : Limbs L) : (windows : Nat) → Jacobian c → Jacobian c
  | 0, acc => acc
  | window + 1, acc =>
    addWindows table k window <|
      acc.doubleTimes windowBits.val
        + table.select (k.window (window * windowBits.val) windowBits)

/-- The multiple of a point by the lowest `windows` windows of a scalar. -/
def mulWindows (p : Jacobian c) (windows : Nat) (k : Limbs L) : Jacobian c :=
  addWindows (WindowTable.ofPoint p) k windows identity

end Jacobian

/-! ### Combs -/

/-- The tables of `p`, `2^8 p`, `2^16 p` and so on. -/
def combTables {L : Nat} {c : Curve L} : (size : Nat) → Jacobian c → List (WindowTable c)
  | 0, _ => []
  | size + 1, p =>
    WindowTable.ofPoint p :: combTables size (p.doubleTimes (2 * windowBits.val))

/-- The tables of a point, computed when they are first used. -/
structure Comb {L : Nat} {c : Curve L} (p : Jacobian c) where
  size : Nat
  tables : Thunk (List (WindowTable c))
  tables_eq : tables.get = combTables size p

namespace Comb

variable {L : Nat} {c : Curve L} {p : Jacobian c}

/-- The comb of a point, of a given number of tables. -/
def build (p : Jacobian c) (size : Nat) : Comb p :=
  { size, tables := Thunk.mk fun _ => combTables size p, tables_eq := rfl }

/-- Adds, for each table from number `i` on, the entry of one of the two windows
of the scalar that belong to it. -/
def addDigits (k : Limbs L) (odd : Nat) :
    (i : Nat) → List (WindowTable c) → Jacobian c → Jacobian c
  | _, [], acc => acc
  | i, table :: tables, acc =>
    addDigits k odd (i + 1) tables <|
      acc + table.select (k.window ((2 * i + odd) * windowBits.val) windowBits)

/-- The multiple of the point by a scalar of at most `2 * size` windows. -/
def mul (comb : Comb p) (k : Limbs L) : Jacobian c :=
  let odd := addDigits k 1 0 comb.tables.get Jacobian.identity
  addDigits k 0 0 comb.tables.get (odd.doubleTimes windowBits.val)

end Comb
end ShortWeierstrass
