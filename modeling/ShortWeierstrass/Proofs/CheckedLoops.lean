/-
# Windows and tables stay in range

The loops of this library take their indices from types that hold valid ones only: a digit is a
`Fin 16`, a shift a `Fin 64`, and a table is indexed with the proof that the entry exists. Here the
same loops run on plain numbers and check each step as it is made: a bit index has to fit 32
bits, a shift has to be less than a word, a window has to be wider than nothing and narrower than a
word, a table has to have the entry that is read, and a comb has to be long enough. On numbers of
less than `2^32` bits none of the checks ever fails, whatever the point, the residue and the number
are, and the results are those of the unchecked loops.

Key definitions: `Checked.window`, `Checked.multiples`, `Checked.mul`, `Checked.mulGenerator`,
`Checked.pow`.
Key theorems: `Checked.window_eq`, `Checked.windows_eq`, `Checked.mul_eq`,
`Checked.mulGenerator_eq`, `Checked.pow_eq`.
-/
import Mathlib
import ShortWeierstrass.Domain

namespace ShortWeierstrass
namespace Checked

variable {L : ℕ}

/-! ### Single steps -/

/-- A number that is held in 32 bits. -/
def number (n : ℕ) : Except Fault ℕ := if n < 2 ^ 32 then .ok n else .error .bitCount

/-- The entry of a list at an index. -/
def entry {α : Type} (xs : List α) (i : ℕ) : Except Fault α :=
  match xs[i]? with
  | some x => .ok x
  | none => .error .outOfRange

def shiftRight (w : Word) (amount : ℕ) : Except Fault Word :=
  if h : amount < 64 then .ok (w.shiftRight ⟨amount, h⟩) else .error .bitCount

def shiftLeft (w : Word) (amount : ℕ) : Except Fault Word :=
  if h : amount < 64 then .ok (w.shiftLeft ⟨amount, h⟩) else .error .bitCount

/-- The word before a word that is not zero. -/
def pred (w : Word) : Except Fault Word := if w = 0 then .error .bitCount else .ok (w - 1)

theorem number_eq {n : ℕ} (h : n < 2 ^ 32) : number n = .ok n := if_pos h

theorem entry_eq {α : Type} {xs : List α} {i : ℕ} (h : i < xs.length) :
    entry xs i = .ok xs[i] := by
  rw [entry, List.getElem?_eq_getElem h]

theorem shiftRight_eq (w : Word) {amount : ℕ} (h : amount < 64) :
    shiftRight w amount = .ok (w.shiftRight ⟨amount, h⟩) := dif_pos h

theorem shiftLeft_eq (w : Word) {amount : ℕ} (h : amount < 64) :
    shiftLeft w amount = .ok (w.shiftLeft ⟨amount, h⟩) := dif_pos h

/-- The bits below a place within a word are masked by the word before that of the place. -/
theorem pred_eq (width : Fin 64) : pred (Word.shiftLeft 1 width) = .ok (Word.lowMask width) := by
  revert width
  decide

/-! ### Windows of a number -/

/-- The `width` bits from bit `index` on. -/
def window (u : Limbs L) (index width : ℕ) : Except Fault Word := do
  if 0 < width ∧ width < 64 then
    if L ≤ index / 64 then
      return 0
    else
      let low ← shiftRight (← entry u.words (index / 64)) (index % 64)
      let mask ← pred (← shiftLeft 1 width)
      if 64 < index % 64 + width ∧ index / 64 + 1 < L then
        let high ← shiftLeft (← entry u.words (index / 64 + 1)) (64 - index % 64)
        return (low ||| high) &&& mask
      else
        return low &&& mask
  else
    throw .bitCount

theorem window_eq (u : Limbs L) (index : ℕ) (width : Fin 64) (pos : 0 < width.val) :
    window u index width.val = .ok (Words.window u.words index width) := by
  have shift_lt : index % 64 < 64 := Nat.mod_lt _ (by decide)
  have length : (u.words.drop (index / 64)).length = L - index / 64 := by
    rw [List.length_drop, u.length_words]
  have first : (u.words.drop (index / 64))[0]? = u.words[index / 64]? := List.getElem?_drop
  have second : (u.words.drop (index / 64))[1]? = u.words[index / 64 + 1]? := List.getElem?_drop
  rw [window, if_pos ⟨pos, width.isLt⟩, Words.window]
  cases words : u.words.drop (index / 64) with
  | nil =>
    rw [words, List.length_nil] at length
    rw [if_pos (by omega)]
    rfl
  | cons w above =>
    rw [words] at first second length
    rw [List.length_cons] at length
    have low : entry u.words (index / 64) = .ok w := by rw [entry, ← first]; rfl
    simp only [if_neg (show ¬ L ≤ index / 64 by omega), low, shiftRight_eq w shift_lt,
      shiftLeft_eq 1 width.isLt, pred_eq, Bind.bind, Except.bind]
    cases above with
    | nil =>
      rw [if_neg (by rw [List.length_nil] at length; omega)]
      rfl
    | cons next rest =>
      have high : entry u.words (index / 64 + 1) = .ok next := by rw [entry, ← second]; rfl
      rw [List.length_cons] at length
      by_cases straddles : 64 < index % 64 + width.val
      · have up : 64 - index % 64 < 64 := by have := width.isLt; omega
        simp only [if_pos (And.intro straddles (show index / 64 + 1 < L by omega)), high,
          shiftLeft_eq next up, dif_pos straddles]
        rfl
      · simp only [if_neg (fun both : _ ∧ _ => straddles both.1), dif_neg straddles]
        rfl

/-- A window of a whole word has no mask. -/
example : window (Limbs.ofNat 1 5) 0 64 = .error .bitCount := by decide

/-! ### Tables and windows, for points and for powers -/

section

variable {α : Type}

/-- The first `n` multiples, each read from the entries before it. -/
def multiples (zero one : α) (double step : α → α) : ℕ → Except Fault (List α)
  | 0 => .ok []
  | n + 1 => do
    let before ← multiples zero one double step n
    if 2 ≤ n then
      if n % 2 = 0 then
        return before ++ [double (← entry before (n / 2))]
      else
        return before ++ [step (← entry before (n - 1))]
    else
      return before ++ [if n = 0 then zero else one]

theorem multiples_eq (zero one : α) (double step : α → α) : ∀ n : ℕ,
    multiples zero one double step n =
      .ok (ShortWeierstrass.multiples zero one double step n).toList
  | 0 => rfl
  | n + 1 => by
    have before := multiples_eq zero one double step n
    have reads : ∀ {i : ℕ} (h : i < n),
        entry (ShortWeierstrass.multiples zero one double step n).toList i =
          .ok (ShortWeierstrass.multiples zero one double step n)[i] := fun h => by
      rw [entry_eq (by rwa [Vector.length_toList]), Vector.getElem_toList]
    rw [multiples, before, ShortWeierstrass.multiples, Vector.toList_push]
    simp only [Bind.bind, Except.bind]
    by_cases large : 2 ≤ n
    · rw [if_pos large, dif_pos large]
      by_cases even : n % 2 = 0
      · rw [if_pos even, if_pos even, reads (by omega)]
        rfl
      · rw [if_neg even, if_neg even, reads (by omega)]
        rfl
    · rw [if_neg large, dif_neg large]
      rfl

/-- A table of all digits has the entry of every window. -/
theorem entry_digit {width : Fin 64} (table : Vector α (2 ^ width.val)) (u : Limbs L)
    (index : ℕ) :
    entry table.toList (Words.window u.words index width).toNat =
      .ok (table.get (u.window index width)) := by
  have digit := Words.window_lt u.words index width
  rw [entry_eq (by rwa [Vector.length_toList]), Vector.getElem_toList]
  rfl

/-- Consumes the lowest windows of a number, highest first; the table must have the entry that
a window names. -/
def windows (next : α → α → α) (table : List α) (width : ℕ) (u : Limbs L) :
    (count : ℕ) → α → Except Fault α
  | 0, acc => .ok acc
  | count + 1, acc => do
    let index ← number (count * width)
    let digit ← window u index width
    let x ← entry table digit.toNat
    windows next table width u count (next acc x)

/-- A loop that does the same on a table of all digits, without the checks. -/
theorem windows_eq (width : Fin 64) (pos : 0 < width.val) (next : α → α → α)
    (table : Vector α (2 ^ width.val)) (u : Limbs L) (loop : ℕ → α → α)
    (stop : ∀ acc, loop 0 acc = acc)
    (step : ∀ count acc, loop (count + 1) acc =
      loop count (next acc (table.get (u.window (count * width.val) width)))) :
    ∀ (count : ℕ) (acc : α), count * width.val ≤ 2 ^ 32 →
      windows next table.toList width.val u count acc = .ok (loop count acc)
  | 0, acc, _ => by rw [windows, stop]
  | count + 1, acc, small => by
    rw [Nat.succ_mul] at small
    rw [windows, number_eq (by omega), step]
    simp only [Bind.bind, Except.bind, window_eq u _ width pos, entry_digit]
    exact windows_eq width pos next table u loop stop step count _ (by omega)

end

/-! ### Powers of residues -/

section

variable {m : Modulus L}

/-- The power of a residue to a number of `L` words. -/
def pow (x : Residue m) (exponent : Limbs L) : Except Fault (Residue m) := do
  let table ← multiples 1 x Residue.square (· * x) 32
  windows (fun acc y => acc.squareTimes 5 * y) table 5 exponent ((exponent.bitLength + 4) / 5) 1

theorem pow_eq (small : 64 * L + 4 ≤ 2 ^ 32) (x : Residue m) (exponent : Limbs L) :
    pow x exponent = .ok (x.pow exponent) := by
  have bits := exponent.bitLength_le
  rw [pow, multiples_eq]
  exact windows_eq Residue.powerBits (by decide) _ x.powers exponent
    (Residue.powWindows x.powers exponent) (fun _ => rfl) (fun _ _ => rfl) _ _
    (by show (exponent.bitLength + 4) / 5 * 5 ≤ 2 ^ 32; omega)

end

/-! ### Multiples of points -/

section

variable {c : Curve L}

/-- The first 16 multiples of a point. -/
def table (p : Jacobian c) : Except Fault (List (Jacobian c)) :=
  multiples Jacobian.identity p Jacobian.double (· + p) 16

theorem table_eq (p : Jacobian c) :
    table p = .ok (WindowTable.ofPoint p).entries.toList :=
  multiples_eq _ _ _ _ 16

/-- Adds, for each table from number `i` on, the entry of one of its two windows. -/
def addDigits (k : Limbs L) (odd : ℕ) :
    (i : ℕ) → List (WindowTable c) → Jacobian c → Except Fault (Jacobian c)
  | _, [], acc => .ok acc
  | i, table :: tables, acc => do
    let index ← number ((2 * i + odd) * 4)
    let digit ← window k index 4
    let q ← entry table.entries.toList digit.toNat
    addDigits k odd (i + 1) tables (acc + q)

theorem addDigits_eq (k : Limbs L) {odd : ℕ} (bit : odd ≤ 1) :
    ∀ (i : ℕ) (tables : List (WindowTable c)) (acc : Jacobian c),
      8 * (i + tables.length) ≤ 2 ^ 32 →
        addDigits k odd i tables acc = .ok (Comb.addDigits k odd i tables acc)
  | _, [], _, _ => rfl
  | i, table :: tables, acc, small => by
    rw [List.length_cons] at small
    have digit : window k ((2 * i + odd) * 4) 4 =
        .ok (Words.window k.words ((2 * i + odd) * 4) windowBits) :=
      window_eq k _ windowBits (by decide)
    have read : entry table.entries.toList
        (Words.window k.words ((2 * i + odd) * 4) windowBits).toNat =
          .ok (table.select (k.window ((2 * i + odd) * 4) windowBits)) :=
      entry_digit table.entries k _
    rw [addDigits, number_eq (by omega)]
    simp only [Bind.bind, Except.bind, digit, read]
    exact addDigits_eq k bit (i + 1) tables _ (by omega)

end

/-! ### Multiples of the points of a domain -/

section

variable (d : Domain L)

/-- The multiple of a point by the scalar windows of a number. -/
def mul (p : Jacobian d.toCurve) (k : Limbs L) : Except Fault (Jacobian d.toCurve) := do
  let table ← table p
  windows (fun acc q => acc.doubleTimes 4 + q) table 4 k d.order.windows Jacobian.identity

/-- The multiple of the generator, by a comb that has a table for every two windows. -/
def mulGenerator (k : Limbs L) : Except Fault (Jacobian d.toCurve) :=
  match d.comb with
  | none => mul d d.basePoint k
  | some comb => do
    let size ← number comb.tables.get.length
    if (d.order.windows + 1) / 2 ≤ size then
      let odd ← addDigits k 1 0 comb.tables.get Jacobian.identity
      addDigits k 0 0 comb.tables.get (odd.doubleTimes 4)
    else
      throw .outOfRange

theorem mul_eq (small : 64 * L + 4 ≤ 2 ^ 32) (p : Jacobian d.toCurve) (k : Limbs L) :
    mul d p k = .ok (d.mul p k) := by
  have bits := d.order.bitLength_le
  rw [mul, table_eq]
  exact windows_eq windowBits (by decide) _ (WindowTable.ofPoint p).entries k
    (Jacobian.addWindows (WindowTable.ofPoint p) k) (fun _ => rfl) (fun _ _ => rfl) _ _
    (by show (d.order.bitLength + 3) / 4 * 4 ≤ 2 ^ 32; omega)

theorem length_combTables {c : Curve L} : ∀ (size : ℕ) (p : Jacobian c),
    (combTables size p).length = size
  | 0, _ => rfl
  | size + 1, _ => congrArg (· + 1) (length_combTables size _)

/-- The comb that a domain carries covers its order, so the check of its length passes. -/
theorem mulGenerator_eq (small : 64 * L + 4 ≤ 2 ^ 32)
    (short : ∀ comb ∈ d.comb, 8 * comb.size ≤ 2 ^ 32) (k : Limbs L) :
    mulGenerator d k = .ok (d.mulGenerator k) := by
  unfold mulGenerator Domain.mulGenerator
  cases e : d.comb with
  | none => exact mul_eq d small d.basePoint k
  | some comb =>
    have covers := d.comb_covers comb e
    have limit := short comb e
    have length : comb.tables.get.length = comb.size := by
      rw [comb.tables_eq, length_combTables]
    have digits : ∀ {odd : ℕ}, odd ≤ 1 → ∀ acc, addDigits k odd 0 comb.tables.get acc =
        .ok (Comb.addDigits k odd 0 comb.tables.get acc) := fun bit acc =>
      addDigits_eq k bit 0 _ acc (by rw [length]; omega)
    simp only [length, number_eq (show comb.size < 2 ^ 32 by omega), Bind.bind, Except.bind,
      if_pos (show (d.order.windows + 1) / 2 ≤ comb.size by omega), digits le_rfl,
      digits (Nat.zero_le 1)]
    rfl

end

end Checked
end ShortWeierstrass
