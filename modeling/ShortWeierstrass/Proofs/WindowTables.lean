/-
# Tables hold the multiples they are read for

A table is filled once and read many times. Its entries are made from earlier ones by doubling and
by adding the point (`WindowTable.select_standsFor`), and addition is complete, so it does not
matter what the sums meet on the way: with a point of small order, the identity, a point and its
opposite, or the same point twice. The tables of a comb are those of a point doubled eight times
from one to the next (`getElem?_combTables`), which may be the identity from some table on.

Which places are read must not depend on the digit: a scan reads all entries in their order, and
each replaces what was found before if its number is the digit (`Checked.select`). The entry of the
digit does that, and none above it does (`Checked.scan_of_mem`, `Checked.scan_of_lt`), so the scan
ends with the entry that `WindowTable.select` takes (`Checked.select_eq`), on every table, whatever
its entries are.

Key definitions: `Checked.select`, `WindowTable.Holds`.
Key theorems: `Checked.select_eq`, `getElem?_combTables`, `WindowTable.holds_multiples`.
-/
import Mathlib
import ShortWeierstrass.Proofs.AdmittedDomain
import ShortWeierstrass.Proofs.CheckedLoops

namespace ShortWeierstrass

variable {L : ℕ} {c : Curve L}

/-! ### Reading a table -/

namespace Checked

/-- Reads `count` entries from number `j` on; the one whose number is the digit replaces what was
found before. -/
def scan (entries : List (Jacobian c)) (digit : Word) :
    (count j : ℕ) → Jacobian c → Except Fault (Jacobian c)
  | 0, _, found => .ok found
  | count + 1, j, found => do
    let q ← entry entries j
    scan entries digit count (j + 1) (found.select q (digit == UInt64.ofNat j))

/-- The entry of a digit, which the table has to have, found by a scan over all entries. -/
def select (table : WindowTable c) (digit : Word) : Except Fault (Jacobian c) := do
  if digit < 16 then
    let first ← entry table.entries.toList 0
    scan table.entries.toList digit 15 1 first
  else
    throw .outOfRange

variable {entries : List (Jacobian c)} {digit : Word}

theorem beq_ofNat {j : ℕ} (small : j < 2 ^ 64) :
    (digit == UInt64.ofNat j) = decide (digit.toNat = j) := by
  rw [Bool.eq_iff_iff, beq_iff_eq, decide_eq_true_iff, ← UInt64.toNat_inj, UInt64.toNat_ofNat',
    Nat.mod_eq_of_lt small]

theorem entry_bind {α β : Type} {xs : List α} {i : ℕ} (h : i < xs.length)
    (next : α → Except Fault β) : (entry xs i >>= next) = next xs[i] := by
  rw [entry_eq h]
  rfl

/-- Behind the entry of the digit nothing is replaced any more. -/
theorem scan_of_lt : ∀ (count j : ℕ) (found : Jacobian c), digit.toNat < j →
    j + count ≤ entries.length → entries.length ≤ 2 ^ 64 →
    scan entries digit count j found = .ok found
  | 0, _, _, _, _, _ => rfl
  | count + 1, j, found, behind, reach, small => by
    have other : (digit == UInt64.ofNat j) = false := by
      rw [beq_ofNat (by omega), decide_eq_false (by omega)]
    rw [scan, entry_bind (by omega), other]
    exact scan_of_lt count (j + 1) found (by omega) (by omega) small

/-- The entry of the digit is found, whatever was found before. -/
theorem scan_of_mem (has : digit.toNat < entries.length) : ∀ (count j : ℕ) (found : Jacobian c),
    j ≤ digit.toNat → digit.toNat < j + count → j + count ≤ entries.length →
    entries.length ≤ 2 ^ 64 → scan entries digit count j found = .ok entries[digit.toNat]
  | 0, _, _, _, _, _, _ => by omega
  | count + 1, j, found, from_j, inside, reach, small => by
    rw [scan, entry_bind (by omega), beq_ofNat (by omega)]
    -- Once the entry is found, it only remains that the others do not replace it.
    rcases Nat.eq_or_lt_of_le from_j with rfl | below
    · rw [decide_eq_true rfl]
      exact scan_of_lt count _ _ (Nat.lt_succ_self _) (by omega) small
    · rw [decide_eq_false below.ne']
      exact scan_of_mem has count (j + 1) found below (by omega) (by omega) small

theorem select_eq (table : WindowTable c) (lt : digit.toNat < 16) :
    select table digit = .ok (table.select ⟨digit.toNat, lt⟩) := by
  have length : table.entries.toList.length = 16 := Vector.length_toList
  have has : digit.toNat < table.entries.toList.length := by omega
  have read : table.entries.toList[digit.toNat] = table.select ⟨digit.toNat, lt⟩ :=
    Vector.getElem_toList has
  unfold select
  rw [if_pos (UInt64.lt_iff_toNat_lt.mpr lt), entry_bind (by omega), ← read]
  rcases Nat.eq_zero_or_pos digit.toNat with first | pos
  · -- The scan starts with the entry of 0 and has only to keep it.
    simp only [first]
    apply scan_of_lt 15 1 <;> omega
  · apply scan_of_mem has 15 1 <;> omega

end Checked

/-! ### The tables of a comb -/

theorem Jacobian.doubleTimes_add : ∀ (m n : ℕ) (p : Jacobian c),
    p.doubleTimes (m + n) = (p.doubleTimes m).doubleTimes n
  | 0, n, p => by rw [Nat.zero_add, doubleTimes]
  | m + 1, n, p => by
    rw [Nat.add_right_comm, doubleTimes, doubleTimes, doubleTimes_add m n]

theorem getElem?_combTables : ∀ {size i : ℕ} (p : Jacobian c), i < size →
    (combTables size p)[i]? = some (WindowTable.ofPoint (p.doubleTimes (8 * i)))
  | _ + 1, 0, _, _ => rfl
  | size + 1, i + 1, p, lt => by
    have moved : 8 * (i + 1) = 2 * windowBits.val + 8 * i := by
      show _ = 8 + _
      omega
    rw [combTables, List.getElem?_cons_succ, getElem?_combTables _ (Nat.lt_of_succ_lt_succ lt),
      moved, Jacobian.doubleTimes_add]

/-! ### What the entries denote -/

section

variable [c.Elliptic] {p : Jacobian c}

/-- For every digit the scan and the entry of that number are the same, a valid triple that denotes
the multiple of the digit. -/
def WindowTable.Holds (table : WindowTable c) (multiple : ℕ → c.Group) : Prop :=
  ∀ (digit : Word) (lt : digit.toNat < 16),
    Checked.select table digit = .ok (table.select ⟨digit.toNat, lt⟩) ∧
      (table.select ⟨digit.toNat, lt⟩).Valid ∧
      (table.select ⟨digit.toNat, lt⟩).point = multiple digit.toNat

/-- The table of any triple that stands for a point holds its multiples. -/
theorem WindowTable.holds_of_standsFor {g : c.Group} (h : p.StandsFor g) :
    (ofPoint p).Holds fun digit => digit • g := by
  intro digit lt
  exact ⟨Checked.select_eq _ lt, Jacobian.standsFor_iff.mp (select_standsFor h ⟨_, lt⟩)⟩

/-- **Tables hold the multiples they are read for.** The table of a valid triple gives, for every
digit, a valid triple that denotes the multiple of its point by the digit. A comb of any size has
that many tables, and number `i` gives the multiple by the digit times `2^(8 i)`. No order of the
point is excluded: `2^(8 i)` times the point or any entry may be the identity, and the sums on the
way may be of equal or of opposite points. -/
theorem WindowTable.holds_multiples (c : Curve L) [c.Elliptic] {p : Jacobian c} (valid : p.Valid) :
    (ofPoint p).Holds (fun digit => digit • p.point) ∧
    ∀ size, (Comb.build p size).tables.get.length = size ∧
      ∀ i < size, ∃ table, (Comb.build p size).tables.get[i]? = some table ∧
        table.Holds fun digit => (digit * 2 ^ (8 * i)) • p.point := by
  refine ⟨holds_of_standsFor valid.standsFor, fun size => ⟨?_, fun i lt => ?_⟩⟩
  · exact Checked.length_combTables size p
  · refine ⟨_, getElem?_combTables p lt, ?_⟩
    simp only [mul_nsmul']
    exact holds_of_standsFor (valid.standsFor.doubleTimes (8 * i))

end

/-! ### A curve with points of small order -/

namespace Small

/-- The curve `y² = x³ + 2` modulo 11, on which `(9, 4)` has the order 3 and `(6, 3)` the order 4.
-/
def mod11Cubic : Curve 1 where
  base := mod11.base
  a := 0
  b := .ofNat 2

theorem mod11Cubic_base : mod11Cubic.base.value.toNat = 11 := mod11_base

instance : mod11Cubic.Elliptic where
  prime := by
    rw [mod11Cubic_base]
    norm_num
  three_lt := by
    rw [mod11Cubic_base]
    decide
  a_canonical := Residue.zero_standsFor.canonical
  b_canonical := (Residue.ofNat_standsFor (n := 2) (by decide)).canonical
  discriminant_ne := by decide +kernel

end Small

/-- The entries 3 and 5 of a point of order 3 are sums of opposite and of equal points; the second
table of a point of order 4 holds the multiples of the identity. -/
theorem WindowTable.holds_multiples_mod11 :
    let p : Jacobian Small.mod11Cubic := ⟨.ofNat 3, .ofNat 10, .ofNat 2⟩
    let q : Jacobian Small.mod11Cubic := ⟨.ofNat 6, .ofNat 3, 1⟩
    p.Valid ∧ q.Valid ∧
      ((ofPoint p).select 2).same (-p) = true ∧ ((ofPoint p).select 4).same p = true ∧
      Checked.select (ofPoint p) 3 = .ok ((ofPoint p).select 3) ∧
      ((ofPoint p).select 3).point = 3 • p.point ∧ 3 • p.point = 0 ∧
      ((ofPoint p).select 5).Valid ∧ ((ofPoint p).select 5).point = 5 • p.point ∧
      4 • q.point = 0 ∧ (Comb.build q 2).tables.get.length = 2 ∧
      ∃ table : WindowTable Small.mod11Cubic, (Comb.build q 2).tables.get[1]? = some table ∧
        (table.select 5).Valid ∧ (table.select 5).point = (5 * 2 ^ 8) • q.point ∧
        (table.select 5).point = 0 := by
  intro p q
  have validP : p.Valid := by decide +kernel
  have validQ : q.Valid := by decide +kernel
  obtain ⟨ofP, -⟩ := holds_multiples Small.mod11Cubic validP
  obtain ⟨ofQ, combs⟩ := holds_multiples Small.mod11Cubic validQ
  obtain ⟨length, tables⟩ := combs 2
  obtain ⟨table, found, moved⟩ := tables 1 (by decide)
  obtain ⟨scanned, -, three⟩ := ofP 3 (by decide)
  obtain ⟨-, validFive, five⟩ := ofP 5 (by decide)
  obtain ⟨-, validMoved, fiveMoved⟩ := moved 5 (by decide)
  have orderP : 3 • p.point = 0 := three.symm.trans (Jacobian.point_eq_zero (by decide +kernel))
  have orderQ : 4 • q.point = 0 :=
    (ofQ 4 (by decide)).2.2.symm.trans (Jacobian.point_eq_zero (by decide +kernel))
  have identity : (5 * 2 ^ 8) • q.point = 0 := by
    rw [show 5 * 2 ^ 8 = 320 * 4 by norm_num, mul_nsmul', orderQ, nsmul_zero]
  exact ⟨validP, validQ, by decide +kernel, by decide +kernel, scanned, three, orderP, validFive,
    five, orderQ, length, table, found, validMoved, fiveMoved, fiveMoved.trans identity⟩

end ShortWeierstrass
