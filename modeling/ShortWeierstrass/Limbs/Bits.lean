/-
# Bit lengths, windows and shifts of numbers

Scalar multiplication and exponentiation read a number through windows of a few
bits (`Limbs.window`): the `width` bits from bit `index` on, zero past the top. A
window may straddle two words; the word above is then shifted up by
`64 - index % 64`, which is never a whole word.

Key definitions: `Limbs.bitLength`, `Limbs.trailingZeros`, `Limbs.window`, `Limbs.shiftRight`.
Key theorems: `Words.toNat_lt_two_pow_bitLength` and `Words.two_pow_le_toNat` (the bit
length is exact), `Limbs.window_val`, `Limbs.shiftRight_toNat`,
`Words.toNat_eq_two_pow_trailingZeros_mul`.
-/
import ShortWeierstrass.Limbs.Basic

namespace ShortWeierstrass

attribute [local instance (high)] instPowNat

namespace Words

/-- The number of bits up to the highest one that is set. -/
def bitLength : List Word → Nat
  | [] => 0
  | w :: ws =>
    match bitLength ws with
    | 0 => Word.bitLength w
    | n + 1 => 64 + (n + 1)

/-- The number of zero bits below the lowest one that is set; all bits for zero. -/
def trailingZeros : List Word → Nat
  | [] => 0
  | w :: ws => if w = 0 then 64 + trailingZeros ws else Word.trailingZeros w

/-- The `width` bits from bit `index` on, zero past the top. -/
def window (ws : List Word) (index : Nat) (width : Fin 64) : Word :=
  let shift : Fin 64 := ⟨index % 64, Nat.mod_lt _ (by decide)⟩
  match ws.drop (index / 64) with
  | [] => 0
  | [w] => Word.shiftRight w shift &&& Word.lowMask width
  | w :: next :: _ =>
    if straddles : 64 < index % 64 + width.val then
      (Word.shiftRight w shift ||| Word.shiftLeft next ⟨64 - index % 64, by omega⟩)
        &&& Word.lowMask width
    else
      Word.shiftRight w shift &&& Word.lowMask width

/-- Moves a list of words down by less than a word. -/
def shiftBits (amount : Fin 64) : List Word → List Word
  | [] => []
  | w :: ws =>
    (if whole : amount.val = 0 then w
     else Word.shiftRight w amount ||| Word.shiftLeft (ws.headD 0) ⟨64 - amount.val, by omega⟩)
      :: shiftBits amount ws

theorem length_shiftBits (amount : Fin 64) : ∀ ws : List Word,
    (shiftBits amount ws).length = ws.length
  | [] => rfl
  | _ :: ws => by simp [shiftBits, length_shiftBits amount ws]

theorem window_lt (ws : List Word) (index : Nat) (width : Fin 64) :
    (window ws index width).toNat < 2 ^ width.val := by
  have pos : 0 < 2 ^ width.val := Nat.two_pow_pos _
  unfold window
  dsimp only
  split
  · exact pos
  · rw [Word.and_lowMask_toNat]
    exact Nat.mod_lt _ pos
  · split <;> (rw [Word.and_lowMask_toNat]; exact Nat.mod_lt _ pos)

theorem bitLength_eq_zero_iff : ∀ ws : List Word, bitLength ws = 0 ↔ toNat ws = 0
  | [] => by simp [bitLength]
  | w :: ws => by
    have ih := bitLength_eq_zero_iff ws
    have head := Word.bitLength_eq_zero_iff w
    rw [← UInt64.toNat_inj, UInt64.toNat_zero] at head
    rw [bitLength, toNat_cons]
    split <;> omega

theorem bitLength_le : ∀ ws : List Word, bitLength ws ≤ 64 * ws.length
  | [] => by simp [bitLength]
  | w :: ws => by
    have ih := bitLength_le ws
    have head := Word.bitLength_le w
    rw [bitLength, List.length_cons]
    split <;> omega

theorem toNat_lt_two_pow_bitLength : ∀ ws : List Word, toNat ws < 2 ^ bitLength ws
  | [] => by simp [bitLength]
  | w :: ws => by
    have ih := toNat_lt_two_pow_bitLength ws
    have zero := bitLength_eq_zero_iff ws
    have head := Word.toNat_lt_two_pow_bitLength w
    have lt := Word.toNat_lt_base w
    rw [bitLength, toNat_cons]
    split
    · rename_i e
      rw [zero.mp e]
      simpa using head
    · rename_i n e
      rw [e] at ih
      rw [Nat.pow_add]
      have : 2 ^ 64 * (toNat ws + 1) ≤ 2 ^ 64 * 2 ^ (n + 1) := Nat.mul_le_mul_left _ ih
      omega

theorem two_pow_le_toNat : ∀ ws : List Word, toNat ws ≠ 0 → 2 ^ (bitLength ws - 1) ≤ toNat ws
  | [], h => absurd rfl h
  | w :: ws, h => by
    have ih := two_pow_le_toNat ws
    have zero := bitLength_eq_zero_iff ws
    rw [bitLength, toNat_cons]
    rw [toNat_cons] at h
    split
    · rename_i e
      rw [zero.mp e] at h ⊢
      have ne : w ≠ 0 := fun e => h (by simp [e])
      simpa using Word.two_pow_le_toNat w ne
    · rename_i n e
      rw [e] at ih zero
      have := ih (by omega)
      have : 2 ^ 64 * 2 ^ (n + 1 - 1) ≤ 2 ^ 64 * toNat ws := Nat.mul_le_mul_left _ this
      rw [← Nat.pow_add] at this
      rw [show 64 + (n + 1) - 1 = 64 + (n + 1 - 1) by omega]
      omega

theorem toNat_drop : ∀ (count : Nat) (ws : List Word),
    toNat (ws.drop count) = toNat ws / 2 ^ (64 * count)
  | 0, ws => by rw [List.drop_zero, Nat.mul_zero, Nat.pow_zero, Nat.div_one]
  | count + 1, [] => by rw [List.drop_nil, toNat_nil, Nat.zero_div]
  | count + 1, w :: ws => by
    have lt := Word.toNat_lt_base w
    rw [List.drop_succ_cons, toNat_drop count ws, base_pow_succ, ← Nat.div_div_eq_div_mul,
      toNat_cons, Nat.add_mul_div_left _ _ (Nat.two_pow_pos _), Nat.div_eq_of_lt lt, Nat.zero_add]

/-- A number moved down by less than a word: the low word sees two words only. -/
theorem div_two_pow_mod (low high amount : Nat) (h : amount < 64) :
    (low + 2 ^ (64 : Nat) * high) / 2 ^ amount % 2 ^ (64 : Nat) =
      (low + 2 ^ (64 : Nat) * (high % 2 ^ (64 : Nat))) / 2 ^ amount % 2 ^ (64 : Nat) := by
  have radix : 2 ^ amount * 2 ^ (64 - amount) = 2 ^ 64 := by
    rw [← Nat.pow_add, Nat.add_sub_cancel' (by omega)]
  have split : ∀ t : Nat, (low + 2 ^ 64 * t) / 2 ^ amount =
      low / 2 ^ amount + 2 ^ (64 - amount) * t := by
    intro t
    rw [← radix, Nat.mul_assoc, Nat.add_mul_div_left _ _ (Nat.two_pow_pos _)]
  rw [split, split]
  conv => lhs; rw [← Nat.mod_add_div high (2 ^ 64)]
  rw [Nat.mul_add, ← Nat.add_assoc, Nat.mul_left_comm, Nat.add_mul_mod_self_left]

theorem toNat_mod_base : ∀ ws : List Word, toNat ws % 2 ^ (64 : Nat) = (ws.headD 0).toNat
  | [] => rfl
  | w :: ws => by
    have lt := Word.toNat_lt_base w
    rw [toNat_cons, Nat.add_mul_mod_self_left, Nat.mod_eq_of_lt lt, List.headD_cons]

/-- A window holds the bits it names. -/
theorem window_toNat (ws : List Word) (index : Nat) (width : Fin 64) :
    (window ws index width).toNat = toNat ws / 2 ^ index % 2 ^ width.val := by
  have width_lt := width.isLt
  have shift_lt : index % 64 < 64 := Nat.mod_lt _ (by decide)
  have dropped := toNat_drop (index / 64) ws
  have position : toNat ws / 2 ^ index = toNat (ws.drop (index / 64)) / 2 ^ (index % 64) := by
    rw [dropped, Nat.div_div_eq_div_mul, ← Nat.pow_add, Nat.div_add_mod]
  have width_dvd : 2 ^ width.val ∣ 2 ^ 64 := Nat.pow_dvd_pow 2 (by omega)
  rw [position, ← Nat.mod_mod_of_dvd _ width_dvd]
  unfold window
  dsimp only
  split
  · rename_i e
    simp only [e, toNat_nil, Nat.zero_div, Nat.zero_mod, UInt64.toNat_zero]
  · rename_i w e
    have lt := Word.toNat_lt_base w
    have small : w.toNat / 2 ^ (index % 64) < 2 ^ 64 :=
      Nat.lt_of_le_of_lt (Nat.div_le_self _ _) lt
    rw [e, toNat_cons, toNat_nil, Nat.mul_zero, Nat.add_zero, Word.and_lowMask_toNat,
      Word.shiftRight_toNat, Nat.mod_eq_of_lt small]
  · rename_i w next rest e
    rw [e, toNat_cons, div_two_pow_mod _ _ _ shift_lt, toNat_mod_base, List.headD_cons]
    split
    · rename_i straddles
      rw [Word.and_lowMask_toNat, Word.joined_toNat w next ⟨index % 64, shift_lt⟩ (by
        show 0 < index % 64
        omega)]
    · rename_i within
      have radix : 2 ^ (index % 64) * 2 ^ (64 - index % 64) = 2 ^ 64 := by
        rw [← Nat.pow_add, Nat.add_sub_cancel' (by omega)]
      have above : 2 ^ (64 - index % 64) = 2 ^ width.val * 2 ^ (64 - index % 64 - width.val) := by
        rw [← Nat.pow_add, Nat.add_sub_cancel' (by omega)]
      rw [Word.and_lowMask_toNat, Word.shiftRight_toNat, Nat.mod_mod_of_dvd _ width_dvd]
      rw [← radix, Nat.mul_assoc, Nat.add_mul_div_left _ _ (Nat.two_pow_pos _), above,
        Nat.mul_assoc, Nat.add_mul_mod_self_left]

theorem shiftBits_toNat (amount : Fin 64) : ∀ ws : List Word,
    toNat (shiftBits amount ws) = toNat ws / 2 ^ amount.val
  | [] => by rw [shiftBits, toNat_nil, Nat.zero_div]
  | w :: ws => by
    have lt := Word.toNat_lt_base w
    rw [shiftBits, toNat_cons, shiftBits_toNat amount ws, toNat_cons]
    split
    · rename_i whole
      rw [whole, Nat.pow_zero, Nat.div_one, Nat.div_one]
    · rename_i part
      rw [Word.joined_toNat w (ws.headD 0) amount (by omega), ← toNat_mod_base,
        ← div_two_pow_mod _ _ _ amount.isLt]
      have high : (w.toNat + 2 ^ 64 * toNat ws) / 2 ^ amount.val / 2 ^ 64 =
          toNat ws / 2 ^ amount.val := by
        rw [Nat.div_div_eq_div_mul, Nat.mul_comm (2 ^ amount.val), ← Nat.div_div_eq_div_mul,
          Nat.add_mul_div_left _ _ (Nat.two_pow_pos _), Nat.div_eq_of_lt lt, Nat.zero_add]
      rw [← high, Nat.mod_add_div]

theorem testBit_cons (w : Word) (ws : List Word) (i : Nat) :
    (toNat (w :: ws)).testBit i =
      if i < 64 then w.toNat.testBit i else (toNat ws).testBit (i - 64) := by
  rw [toNat_cons, Nat.add_comm, Nat.testBit_two_pow_mul_add _ (Word.toNat_lt_base w)]

theorem testBit_of_lt_trailingZeros : ∀ (ws : List Word) (i : Nat), i < trailingZeros ws →
    (toNat ws).testBit i = false
  | [], i, h => absurd h (Nat.not_lt_zero i)
  | w :: ws, i, h => by
    have word := Word.testBit_of_lt_trailingZeros w i
    rw [trailingZeros] at h
    rw [testBit_cons]
    split at h
    · rename_i zero
      have rest := testBit_of_lt_trailingZeros ws (i - 64)
      split
      · rw [zero, UInt64.toNat_zero, Nat.zero_testBit]
      · exact rest (by omega)
    · have bound : Word.trailingZeros w ≤ 64 := Word.trailingZeros_le w
      rw [if_pos (by omega)]
      exact word h

theorem testBit_trailingZeros : ∀ ws : List Word, toNat ws ≠ 0 →
    (toNat ws).testBit (trailingZeros ws) = true
  | [], h => absurd rfl h
  | w :: ws, h => by
    have rest := testBit_trailingZeros ws
    rw [trailingZeros, testBit_cons]
    rw [toNat_cons] at h
    split
    · rename_i zero
      rw [zero, UInt64.toNat_zero] at h
      rw [if_neg (by omega), Nat.add_sub_cancel_left]
      exact rest (by omega)
    · rename_i ne
      have set := Word.testBit_trailingZeros w ne
      have bound : Word.trailingZeros w < 64 := by
        refine Decidable.byContradiction fun large => ?_
        rw [Nat.testBit_lt_two_pow (Nat.lt_of_lt_of_le (Word.toNat_lt_base w)
          (Nat.pow_le_pow_right (by decide) (Nat.le_of_not_lt large)))] at set
        cases set
      rw [if_pos bound]
      exact set

/-- A number that is not zero is an odd number times the power of two that its
trailing zeros name. -/
theorem toNat_eq_two_pow_trailingZeros_mul (ws : List Word) (h : toNat ws ≠ 0) :
    toNat ws = 2 ^ trailingZeros ws * (toNat ws / 2 ^ trailingZeros ws) ∧
      toNat ws / 2 ^ trailingZeros ws % 2 = 1 := by
  have clear : toNat ws % 2 ^ trailingZeros ws = 0 := by
    apply Nat.eq_of_testBit_eq
    intro i
    rw [Nat.testBit_mod_two_pow, Nat.zero_testBit]
    by_cases lt : i < trailingZeros ws
    · rw [testBit_of_lt_trailingZeros ws i lt, Bool.and_false]
    · rw [decide_eq_false lt, Bool.false_and]
  have set := testBit_trailingZeros ws h
  constructor
  · have := Nat.div_add_mod (toNat ws) (2 ^ trailingZeros ws)
    omega
  · rw [Nat.testBit_eq_decide_div_mod_eq] at set
    exact of_decide_eq_true set

end Words

namespace Limbs

variable {L : Nat}

/-- The number of bits up to the highest one that is set. -/
def bitLength (u : Limbs L) : Nat := Words.bitLength u.words

/-- The number of zero bits below the lowest one that is set. -/
def trailingZeros (u : Limbs L) : Nat := Words.trailingZeros u.words

/-- The `width` bits from bit `index` on, zero past the top. -/
def window (u : Limbs L) (index : Nat) (width : Fin 64) : Fin (2 ^ width.val) :=
  ⟨(Words.window u.words index width).toNat, Words.window_lt u.words index width⟩

/-- The quotient by `2^amount`. -/
def shiftRight (u : Limbs L) (amount : Nat) : Limbs L :=
  ⟨Words.shiftBits ⟨amount % 64, Nat.mod_lt _ (by decide)⟩ (u.words.drop (amount / 64))
      ++ List.replicate (min L (amount / 64)) 0, by
    rw [List.length_append, Words.length_shiftBits, List.length_drop, u.length_words,
      List.length_replicate]
    omega⟩

theorem bitLength_le (u : Limbs L) : u.bitLength ≤ 64 * L := by
  have h := Words.bitLength_le u.words
  rwa [u.length_words] at h

theorem toNat_lt_two_pow_bitLength (u : Limbs L) : u.toNat < 2 ^ u.bitLength :=
  Words.toNat_lt_two_pow_bitLength u.words

theorem window_val (u : Limbs L) (index : Nat) (width : Fin 64) :
    (u.window index width).val = u.toNat / 2 ^ index % 2 ^ width.val :=
  Words.window_toNat u.words index width

theorem low_and_toNat (u : Limbs L) {mask : Word} {bits : Nat} (ones : mask.toNat = 2 ^ bits - 1)
    (le : bits ≤ 64) : (u.low &&& mask).toNat = u.toNat % 2 ^ bits := by
  have low : u.toNat % 2 ^ 64 = u.low.toNat := Words.toNat_mod_base u.words
  rw [UInt64.toNat_and, ← low, ones, Nat.and_two_pow_sub_one_eq_mod,
    Nat.mod_mod_of_dvd _ (Nat.pow_dvd_pow 2 le)]

theorem shiftRight_toNat (u : Limbs L) (amount : Nat) :
    (u.shiftRight amount).toNat = u.toNat / 2 ^ amount := by
  show Words.toNat (_ ++ _) = _
  rw [Words.toNat_append, Words.toNat_replicate_zero, Nat.mul_zero, Nat.add_zero,
    Words.shiftBits_toNat, Words.toNat_drop, Nat.div_div_eq_div_mul, ← Nat.pow_add,
    Nat.div_add_mod]
  rfl

end Limbs
end ShortWeierstrass
