/-
# Words of 64 bits, and what a column of arithmetic carries

Every number of this library is a list of 64-bit words, and every operation on
such lists works column by column: it writes one word and passes a carry to
the next column. This file holds the three columns there are (add, subtract,
multiply and add), the double-width product they rest on, and the few facts
about single bits that are asked of one word.

A `Column` is exact: with `c` the incoming carry, `addCarry a b c` stands for
`a + b + c` (`addCarry_toNat`), `mulAdd u m r c` for `u * m + r + c`
(`mulAdd_toNat`), and `subBorrow a b c` for `a - b - c` with the borrow owed
by the next column (`subBorrow_toNat`). No carry is ever lost.

Shift amounts have type `Fin 64`, so a shift by 64 or more cannot be written.

Key definitions: `Word.mulHigh`, `Word.addCarry`, `Word.subBorrow`, `Word.mulAdd`.
Key theorems: `Word.mulHigh_toNat`, `Word.addCarry_toNat`, `Word.subBorrow_toNat`,
`Word.mulAdd_toNat`, `Word.joined_toNat`.
-/

namespace ShortWeierstrass

-- Here and below, powers of numbers are the core library's, whatever else is imported.
attribute [local instance (high)] instPowNat

/-- A digit in base `2^64`. -/
abbrev Word := UInt64

/-- One column of an operation on numbers: the word written, and what the next
column owes or receives. -/
structure Column where
  word : Word
  carry : Word

namespace Word

theorem toNat_lt_base (a : Word) : a.toNat < 2 ^ (64 : Nat) := UInt64.toNat_lt a

/-! ### Products of two words -/

/-- The upper word of the product of two words. The lower word is `a * b`. -/
def mulHigh (a b : Word) : Word :=
  let aLow := a &&& 0xffffffff
  let aHigh := a >>> 32
  let bLow := b &&& 0xffffffff
  let bHigh := b >>> 32
  let cross := aLow * bHigh
  let middle := ((aLow * bLow) >>> 32) + (cross &&& 0xffffffff) + aHigh * bLow
  aHigh * bHigh + (cross >>> 32) + (middle >>> 32)

theorem toNat_halves (a : Word) :
    (a &&& 0xffffffff).toNat = a.toNat % 2 ^ (32 : Nat) ∧
      (a >>> 32).toNat = a.toNat / 2 ^ (32 : Nat) := by
  constructor
  · rw [UInt64.toNat_and]
    exact Nat.and_two_pow_sub_one_eq_mod a.toNat 32
  · simp [UInt64.toNat_shiftRight, Nat.shiftRight_eq_div_pow]

/-- Half-word products recombine into the product: `mulHigh` is its quotient by `2^64`. -/
theorem mulHigh_toNat (a b : Word) :
    (mulHigh a b).toNat = a.toNat * b.toNat / 2 ^ (64 : Nat) := by
  have ha := toNat_lt_base a
  have hb := toNat_lt_base b
  simp only [mulHigh, UInt64.toNat_add, UInt64.toNat_mul, (toNat_halves _).1, (toNat_halves _).2]
  generalize a.toNat = x at *
  generalize b.toNat = y at *
  have hx : x = x % 2 ^ 32 + 2 ^ 32 * (x / 2 ^ 32) := by omega
  have hy : y = y % 2 ^ 32 + 2 ^ 32 * (y / 2 ^ 32) := by omega
  have bound : ∀ s t : Nat, s < 2 ^ 32 → t < 2 ^ 32 → s * t ≤ (2 ^ 32 - 1) * (2 ^ 32 - 1) :=
    fun s t hs ht => Nat.mul_le_mul (by omega) (by omega)
  have h00 := bound (x % 2 ^ 32) (y % 2 ^ 32) (by omega) (by omega)
  have h01 := bound (x % 2 ^ 32) (y / 2 ^ 32) (by omega) (by omega)
  have h10 := bound (x / 2 ^ 32) (y % 2 ^ 32) (by omega) (by omega)
  have h11 := bound (x / 2 ^ 32) (y / 2 ^ 32) (by omega) (by omega)
  have expand : x * y = x % 2 ^ 32 * (y % 2 ^ 32)
      + 2 ^ 32 * (x % 2 ^ 32 * (y / 2 ^ 32)) + 2 ^ 32 * (x / 2 ^ 32 * (y % 2 ^ 32))
      + 2 ^ 64 * (x / 2 ^ 32 * (y / 2 ^ 32)) := by
    conv => lhs; rw [hx, hy]
    rw [Nat.add_mul, Nat.mul_add, Nat.mul_add]
    have e1 : 2 ^ 32 * (x / 2 ^ 32) * (y % 2 ^ 32) = 2 ^ 32 * (x / 2 ^ 32 * (y % 2 ^ 32)) :=
      Nat.mul_assoc _ _ _
    have e2 : x % 2 ^ 32 * (2 ^ 32 * (y / 2 ^ 32)) = 2 ^ 32 * (x % 2 ^ 32 * (y / 2 ^ 32)) :=
      Nat.mul_left_comm _ _ _
    have e3 : 2 ^ 32 * (x / 2 ^ 32) * (2 ^ 32 * (y / 2 ^ 32))
        = 2 ^ 64 * (x / 2 ^ 32 * (y / 2 ^ 32)) := by
      rw [Nat.mul_mul_mul_comm, ← Nat.pow_add]
    omega
  rw [expand]
  generalize x % 2 ^ 32 * (y % 2 ^ 32) = p at *
  generalize x % 2 ^ 32 * (y / 2 ^ 32) = q at *
  generalize x / 2 ^ 32 * (y % 2 ^ 32) = r at *
  generalize x / 2 ^ 32 * (y / 2 ^ 32) = s at *
  omega

/-! ### Columns -/

/-- Adds two words and a carry. -/
@[inline] def addCarry (a b c : Word) : Column :=
  let sum := a + b
  let total := sum + c
  ⟨total, (decide (sum < a)).toUInt64 + (decide (total < sum)).toUInt64⟩

/-- Subtracts a word and a borrow from a word; the `carry` is the borrow owed. -/
@[inline] def subBorrow (a b c : Word) : Column :=
  let difference := a - b
  ⟨difference - c, (decide (a < b)).toUInt64 + (decide (difference < c)).toUInt64⟩

/-- Multiplies two words and adds a word and a carry to the product. -/
@[inline] def mulAdd (u m r c : Word) : Column :=
  let low := addCarry (u * m) r c
  ⟨low.word, mulHigh u m + low.carry⟩

theorem toNat_decide (p : Prop) [Decidable p] :
    (decide p).toUInt64.toNat = if p then 1 else 0 := by
  by_cases h : p
  · rw [decide_eq_true h, if_pos h]
    rfl
  · rw [decide_eq_false h, if_neg h]
    rfl

/-- A column of addition stands for the sum of its three words. -/
theorem addCarry_toNat (a b c : Word) :
    (addCarry a b c).word.toNat + 2 ^ (64 : Nat) * (addCarry a b c).carry.toNat
      = a.toNat + b.toNat + c.toNat := by
  have ha := toNat_lt_base a
  have hb := toNat_lt_base b
  have hc := toNat_lt_base c
  simp only [addCarry, UInt64.toNat_add, toNat_decide, UInt64.lt_iff_toNat_lt]
  split <;> split <;> omega

/-- A column of subtraction, with what it takes away added back and the borrow
owed by the next column, stands for the word subtracted from. -/
theorem subBorrow_toNat (a b c : Word) :
    (subBorrow a b c).word.toNat + b.toNat + c.toNat
      = a.toNat + 2 ^ (64 : Nat) * (subBorrow a b c).carry.toNat := by
  have ha := toNat_lt_base a
  have hb := toNat_lt_base b
  have hc := toNat_lt_base c
  simp only [subBorrow, UInt64.toNat_add, toNat_decide, UInt64.lt_iff_toNat_lt, UInt64.toNat_sub]
  split <;> split <;> omega

theorem subBorrow_carry_le_one (a b c : Word) (hc : c.toNat ≤ 1) :
    (subBorrow a b c).carry.toNat ≤ 1 := by
  have h := subBorrow_toNat a b c
  have hb := toNat_lt_base b
  have hw := toNat_lt_base (subBorrow a b c).word
  omega

/-- A column of multiplication stands for the product and both additions: the
largest value, `(2^64 - 1)^2 + 2 * (2^64 - 1)`, still fits two words. -/
theorem mulAdd_toNat (u m r c : Word) :
    (mulAdd u m r c).word.toNat + 2 ^ (64 : Nat) * (mulAdd u m r c).carry.toNat
      = u.toNat * m.toNat + r.toNat + c.toNat := by
  have hu := toNat_lt_base u
  have hm := toNat_lt_base m
  have hr := toNat_lt_base r
  have hc := toNat_lt_base c
  have sum := addCarry_toNat (u * m) r c
  have product : (u * m).toNat = u.toNat * m.toNat % 2 ^ 64 := UInt64.toNat_mul u m
  have le : u.toNat * m.toNat ≤ (2 ^ 64 - 1) * (2 ^ 64 - 1) :=
    Nat.mul_le_mul (by omega) (by omega)
  have carry : (mulAdd u m r c).carry.toNat
      = (u.toNat * m.toNat / 2 ^ 64 + (addCarry (u * m) r c).carry.toNat) % 2 ^ 64 := by
    simp only [mulAdd, UInt64.toNat_add, mulHigh_toNat]
  have word : (mulAdd u m r c).word = (addCarry (u * m) r c).word := rfl
  have small := toNat_lt_base (addCarry (u * m) r c).word
  rw [carry, word]
  generalize u.toNat * m.toNat = p at *
  omega

/-! ### Bits of one word -/

/-- Moves a word up, dropping the bits that leave it. -/
@[inline] def shiftLeft (w : Word) (amount : Fin 64) : Word := w <<< amount.val.toUInt64

/-- Moves a word down, dropping the bits that leave it. -/
@[inline] def shiftRight (w : Word) (amount : Fin 64) : Word := w >>> amount.val.toUInt64

/-- The word whose lowest `width` bits are set. -/
@[inline] def lowMask (width : Fin 64) : Word := shiftLeft 1 width - 1

/-- The number of bits up to the highest one that is set. -/
def bitLength (w : Word) : Nat := if w = 0 then 0 else w.log2.toNat + 1

/-- The number of zero bits below the lowest one that is set, 64 for zero. -/
def trailingZeros (w : Word) : Nat := (List.range 64).findIdx (w.toNat.testBit ·)

theorem toNat_amount (amount : Fin 64) : amount.val.toUInt64.toNat = amount.val :=
  UInt64.toNat_ofNat_of_lt' (Nat.lt_trans amount.isLt (by decide))

theorem shiftLeft_toNat (w : Word) (amount : Fin 64) :
    (shiftLeft w amount).toNat = w.toNat * 2 ^ amount.val % 2 ^ (64 : Nat) := by
  rw [shiftLeft, UInt64.toNat_shiftLeft, toNat_amount, Nat.mod_eq_of_lt amount.isLt,
    Nat.shiftLeft_eq]

theorem shiftRight_toNat (w : Word) (amount : Fin 64) :
    (shiftRight w amount).toNat = w.toNat / 2 ^ amount.val := by
  rw [shiftRight, UInt64.toNat_shiftRight, toNat_amount, Nat.mod_eq_of_lt amount.isLt,
    Nat.shiftRight_eq_div_pow]

theorem lowMask_toNat (width : Fin 64) : (lowMask width).toNat = 2 ^ width.val - 1 := by
  have lt : 2 ^ width.val < 2 ^ 64 := Nat.pow_lt_pow_right (by decide) width.isLt
  have pos : 0 < 2 ^ width.val := Nat.two_pow_pos _
  have h : (shiftLeft 1 width).toNat = 2 ^ width.val := by
    rw [shiftLeft_toNat, UInt64.toNat_one, Nat.one_mul, Nat.mod_eq_of_lt lt]
  rw [lowMask, UInt64.toNat_sub, h, UInt64.toNat_one]
  omega

theorem and_lowMask_toNat (w : Word) (width : Fin 64) :
    (w &&& lowMask width).toNat = w.toNat % 2 ^ width.val := by
  rw [UInt64.toNat_and, lowMask_toNat, Nat.and_two_pow_sub_one_eq_mod]

theorem bitLength_eq_zero_iff (w : Word) : bitLength w = 0 ↔ w = 0 := by
  unfold bitLength
  split <;> simp_all

theorem bitLength_le (w : Word) : bitLength w ≤ 64 := by
  unfold bitLength
  split
  · omega
  · rename_i h
    have ne : w.toNat ≠ 0 := fun e => h (UInt64.toNat_inj.mp (by simpa using e))
    have : w.log2.toNat = w.toNat.log2 := rfl
    have lt : w.toNat.log2 < 64 := (Nat.log2_lt ne).mpr (toNat_lt_base w)
    omega

theorem toNat_lt_two_pow_bitLength (w : Word) : w.toNat < 2 ^ bitLength w := by
  unfold bitLength
  split
  · simp_all
  · have : w.log2.toNat = w.toNat.log2 := rfl
    rw [this]
    exact Nat.lt_log2_self

theorem two_pow_le_toNat (w : Word) (h : w ≠ 0) : 2 ^ (bitLength w - 1) ≤ w.toNat := by
  have ne : w.toNat ≠ 0 := fun e => h (UInt64.toNat_inj.mp (by simpa using e))
  have : w.log2.toNat = w.toNat.log2 := rfl
  simp only [bitLength, h, if_false, this, Nat.add_sub_cancel]
  exact Nat.log2_self_le ne

theorem trailingZeros_le (w : Word) : trailingZeros w ≤ 64 := by
  have h : trailingZeros w ≤ (List.range 64).length := List.findIdx_le_length
  rwa [List.length_range] at h

theorem testBit_of_lt_trailingZeros (w : Word) (i : Nat) (h : i < trailingZeros w) :
    w.toNat.testBit i = false := by
  have clear := List.not_of_lt_findIdx h
  simpa using clear

theorem testBit_trailingZeros (w : Word) (h : w ≠ 0) :
    w.toNat.testBit (trailingZeros w) = true := by
  have ne : w.toNat ≠ 0 := fun e => h (UInt64.toNat_inj.mp (by simpa using e))
  have lt : w.toNat.log2 < 64 := (Nat.log2_lt ne).mpr (toNat_lt_base w)
  have found : trailingZeros w < (List.range 64).length :=
    List.findIdx_lt_length_of_exists ⟨w.toNat.log2, List.mem_range.mpr lt,
      Nat.testBit_log2 ne⟩
  have set := List.findIdx_getElem (w := found)
  exact (congrArg w.toNat.testBit (List.getElem_range found)).symm.trans set

/-- The low word of two words, moved down together by less than a word. -/
theorem joined_toNat (low high : Word) (amount : Fin 64) (pos : 0 < amount.val) :
    (shiftRight low amount ||| shiftLeft high ⟨64 - amount.val, by omega⟩).toNat =
      (low.toNat + 2 ^ (64 : Nat) * high.toNat) / 2 ^ amount.val % 2 ^ (64 : Nat) := by
  have lt := toNat_lt_base low
  have amount_lt := amount.isLt
  have radix : 2 ^ amount.val * 2 ^ (64 - amount.val) = 2 ^ 64 := by
    rw [← Nat.pow_add, Nat.add_sub_cancel' (by omega)]
  have low_lt : low.toNat / 2 ^ amount.val < 2 ^ (64 - amount.val) := by
    rw [Nat.div_lt_iff_lt_mul (Nat.two_pow_pos _), Nat.mul_comm, radix]
    exact lt
  rw [UInt64.toNat_or, shiftRight_toNat, shiftLeft_toNat, ← radix, Nat.mul_mod_mul_right,
    Nat.mul_assoc, Nat.add_mul_div_left _ _ (Nat.two_pow_pos _), Nat.mul_comm (2 ^ amount.val),
    Nat.mod_mul, Nat.add_mul_mod_self_left, Nat.mod_eq_of_lt low_lt,
    Nat.add_mul_div_left _ _ (Nat.two_pow_pos _), Nat.div_eq_of_lt low_lt, Nat.zero_add,
    Nat.mul_comm (high.toNat % _), Nat.or_comm, ← Nat.two_pow_add_eq_or_of_lt low_lt, Nat.add_comm]

end Word
end ShortWeierstrass
