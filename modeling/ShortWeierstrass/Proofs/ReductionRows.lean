/-
# The rows of the reduction, one after the other

`Modulus.rows` is where the loop of the reduction stands after so many rows: the accumulator and
the running top word above it, `V` as one number (`Carried.toNat`). A row takes in the next word
`h` of the upper half and makes `2^64 V' = V + R h + u m` of it for a multiplier `u` of one word
(`Modulus.rows_succ_toNat`): no carry is lost. As `h` and `u` are at most `2^64 - 1`, the bound
`V < R + m` passes from row to row (`Modulus.rows_lt`), whatever number is reduced. So the top
word is 0 or 1 all the way.

The bound on the number that is reduced is used after the last row only: there it gives `V < 2 m`,
so that one subtraction leaves the one number below the modulus that is congruent to it
(`Modulus.reduction_exact`). A number of one half is always within the bound.

Key definitions: `Carried.toNat`, `Modulus.rows`.
Key theorems: `Words.reduceRows_append`, `Modulus.rows_succ_toNat`, `Modulus.rows_lt`,
`Modulus.reduction_exact`.
-/
import Mathlib
import ShortWeierstrass.Curves.Standard
import ShortWeierstrass.Proofs.DerivedConstants
import ShortWeierstrass.Proofs.Montgomery

namespace ShortWeierstrass

/-- The number of the words and the carry above them. -/
def Carried.toNat (x : Carried) : ℕ :=
  Words.toNat x.words + 2 ^ (64 * x.words.length) * x.carry.toNat

theorem Carried.carry_le_one {x : Carried} (lt : x.toNat < 2 * 2 ^ (64 * x.words.length)) :
    x.carry.toNat ≤ 1 := by
  by_contra large
  have twice : 2 ^ (64 * x.words.length) * 2 ≤ 2 ^ (64 * x.words.length) * x.carry.toNat :=
    Nat.mul_le_mul_left _ (by omega)
  unfold Carried.toNat at lt
  omega

theorem Words.reduceRows_append (negInv : Word) (ms : List Word) :
    ∀ (hs later : List Word) (rs : List Word) (top : Word),
    reduceRows negInv ms rs top (hs ++ later) =
      reduceRows negInv ms (reduceRows negInv ms rs top hs).words
        (reduceRows negInv ms rs top hs).carry later
  | [], _, _, _ => rfl
  | _ :: hs, later, _, _ => reduceRows_append negInv ms hs later _ _

namespace Modulus

variable {L : ℕ} (m : Modulus L) (x : Wide L)

/-- The accumulator and the running top word after the first rows. -/
def rows (count : ℕ) : Carried :=
  Words.reduceRows m.negInv m.value.words x.low.words 0 (x.high.words.take count)

/-! ### From row to row -/

theorem length_rows (count : ℕ) : (m.rows x count).words.length = L := by
  have length := Words.length_reduceRows m.negInv m.value.words x.low.words 0
    (x.high.words.take count) (by rw [x.low.length_words, m.value.length_words])
  rwa [m.value.length_words] at length

theorem rows_toNat (count : ℕ) : (m.rows x count).toNat =
    Words.toNat (m.rows x count).words + 2 ^ (64 * L) * (m.rows x count).carry.toNat := by
  rw [Carried.toNat, length_rows]

theorem rows_zero : m.rows x 0 = ⟨x.low.words, 0⟩ := rfl

theorem rows_succ {i : ℕ} (lt : i < L) :
    m.rows x (i + 1) =
      Words.reduceRows m.negInv m.value.words (m.rows x i).words (m.rows x i).carry
        [x.high.words.getD i 0] := by
  have within : i < x.high.words.length := by rwa [x.high.length_words]
  rw [rows, ← List.take_append_getElem within, Words.reduceRows_append,
    List.getD_eq_getElem _ _ within]
  rfl

theorem rows_all :
    m.rows x L = Words.reduceRows m.negInv m.value.words x.low.words 0 x.high.words := by
  rw [rows, List.take_of_length_le x.high.length_words.le]

/-- **No carry is lost in a row**: what it leaves, times `2^64`, is all that it adds up. -/
theorem rows_succ_toNat {i : ℕ} (lt : i < L) : ∃ u : ℕ, u < 2 ^ 64 ∧
    2 ^ 64 * (m.rows x (i + 1)).toNat =
      (m.rows x i).toNat + 2 ^ (64 * L) * (x.high.words.getD i 0).toNat + u * m.value.toNat := by
  obtain ⟨u, small, step⟩ := Words.reduceRow_step m.negInv m.value.words m.negInv_mul_value
    (x.high.words.getD i 0) (m.rows x i).carry (m.rows x i).words
    (by rw [length_rows, m.value.length_words])
  rw [m.value.length_words] at step
  refine ⟨u, small, ?_⟩
  rw [m.rows_toNat x (i + 1), m.rows_toNat x i, m.rows_succ x lt]
  refine step.trans ?_
  show _ + u * m.value.toNat = _
  ring

/-- Every row leaves less than `R` and the modulus together. -/
theorem rows_lt : ∀ i : ℕ, i ≤ L → (m.rows x i).toNat < 2 ^ (64 * L) + m.value.toNat
  | 0, _ => by
    have low := x.low.toNat_lt
    have pos := m.value_pos
    rw [rows_toNat, rows_zero]
    show x.low.toNat + 2 ^ (64 * L) * 0 < _
    omega
  | i + 1, le => by
    obtain ⟨u, small, step⟩ := m.rows_succ_toNat x le
    have before := rows_lt i (by omega)
    have word := Word.toNat_lt_base (x.high.words.getD i 0)
    have incoming : 2 ^ (64 * L) * (x.high.words.getD i 0).toNat ≤ 2 ^ (64 * L) * (2 ^ 64 - 1) :=
      Nat.mul_le_mul_left _ (by omega)
    have multiple : u * m.value.toNat ≤ (2 ^ 64 - 1) * m.value.toNat :=
      Nat.mul_le_mul_right _ (by omega)
    omega

theorem rows_carry_le_one {i : ℕ} (le : i ≤ L) : (m.rows x i).carry.toNat ≤ 1 := by
  apply Carried.carry_le_one
  have below := m.rows_lt x i le
  have modulus := m.value.toNat_lt
  rw [length_rows]
  omega

/-! ### After the last row -/

/-- Within the bound, what the rows leave is below twice the modulus. -/
theorem rows_all_lt (bound : x.toNat < m.value.toNat * 2 ^ (64 * L)) :
    (m.rows x L).toNat < 2 * m.value.toNat := by
  rw [rows_toNat, rows_all]
  exact Limbs.reduceRows_lt m.value m.negInv m.negInv_mul_value x bound

theorem reduce_eq_sub (bound : x.toNat < m.value.toNat * 2 ^ (64 * L)) :
    (Limbs.reduce m.value m.negInv x).toNat =
      if (m.rows x L).toNat < m.value.toNat then (m.rows x L).toNat
      else (m.rows x L).toNat - m.value.toNat := by
  have below := m.rows_all_lt x bound
  have value := Limbs.reduce_eq_mod m.value m.negInv m.negInv_mul_value x bound
  rw [← rows_all] at value
  rw [value, ← rows_toNat]
  by_cases small : (m.rows x L).toNat < m.value.toNat
  · rw [if_pos small, Nat.mod_eq_of_lt small]
  · rw [if_neg small, Nat.mod_eq_sub_mod (by omega), Nat.mod_eq_of_lt (by omega)]

/-- The result is the only number in range that is congruent to what was reduced. -/
theorem eq_reduce_iff (bound : x.toNat < m.value.toNat * 2 ^ (64 * L)) (t : ℕ) :
    t = (Limbs.reduce m.value m.negInv x).toNat ↔
      t < m.value.toNat ∧ t * 2 ^ (64 * L) ≡ x.toNat [MOD m.value.toNat] := by
  obtain ⟨lt, congruent⟩ := Limbs.reduce_toNat m.value m.negInv m.negInv_mul_value x bound
  constructor
  · rintro rfl
    exact ⟨lt, congruent⟩
  · rintro ⟨small, same⟩
    have coprime : Nat.gcd m.value.toNat (2 ^ (64 * L)) = 1 :=
      Nat.Coprime.pow_right _ (Nat.coprime_two_right.mpr (Nat.odd_iff.mpr m.odd))
    exact ((same.trans congruent.symm).cancel_right_of_coprime coprime).eq_of_lt_of_lt small lt

/-- **The reduction by words is exact.** No row loses a carry and the running top word is 0 or 1
after each, whatever is reduced; a number below `m R` comes to less than `2 m`, of which one
conditional subtraction makes the one `t < m` with `t R` congruent to the number; and that holds for
every number of one half, canonical or not. -/
theorem reduction_exact (m : Modulus L) :
    (∀ x : Wide L,
      (∀ i < L, ∃ u < 2 ^ 64, 2 ^ 64 * (m.rows x (i + 1)).toNat =
        (m.rows x i).toNat + 2 ^ (64 * L) * (x.high.words.getD i 0).toNat + u * m.value.toNat) ∧
      ∀ i ≤ L, (m.rows x i).carry.toNat ≤ 1) ∧
    (∀ x : Wide L, x.toNat < m.value.toNat * 2 ^ (64 * L) →
      (m.rows x L).toNat < 2 * m.value.toNat ∧
      (Limbs.reduce m.value m.negInv x).toNat =
        (if (m.rows x L).toNat < m.value.toNat then (m.rows x L).toNat
          else (m.rows x L).toNat - m.value.toNat) ∧
      ∀ t : ℕ, t = (Limbs.reduce m.value m.negInv x).toNat ↔
        t < m.value.toNat ∧ t * 2 ^ (64 * L) ≡ x.toNat [MOD m.value.toNat]) ∧
    ∀ (low : Limbs L) (t : ℕ), t = (Limbs.reduce m.value m.negInv ⟨low, Limbs.zero⟩).toNat ↔
      t < m.value.toNat ∧ t * 2 ^ (64 * L) ≡ low.toNat [MOD m.value.toNat] := by
  refine ⟨?_, ?_, ?_⟩
  · intro x
    exact ⟨fun i lt => m.rows_succ_toNat x lt, fun i le => m.rows_carry_le_one x le⟩
  · intro x bound
    exact ⟨m.rows_all_lt x bound, m.reduce_eq_sub x bound, m.eq_reduce_iff x bound⟩
  · intro low t
    have number : (⟨low, Limbs.zero⟩ : Wide L).toNat = low.toNat := by
      simp [Wide.toNat]
    have within : (⟨low, Limbs.zero⟩ : Wide L).toNat < m.value.toNat * 2 ^ (64 * L) := by
      rw [number]
      exact lt_of_lt_of_le low.toNat_lt (Nat.le_mul_of_pos_left _ m.value_pos)
    have only := m.eq_reduce_iff ⟨low, Limbs.zero⟩ within t
    rwa [number] at only

/-- Three words for `m = 2^192 - 2^64 - 1`. With `m` below `m - 1` the top word comes to 1 and the
rows leave `2 m - 1`, so the subtraction is made. All ones are no canonical number. -/
theorem reduction_exact_p192 :
    let m := Standard.p192Base
    let x : Wide 3 := ⟨m.value, m.value.wrappingSub .one⟩
    let ones : Limbs 3 := .ofNat 3 (2 ^ 192 - 1)
    x.toNat < m.value.toNat * 2 ^ (64 * 3) ∧ (m.rows x 3).carry = 1 ∧
      (m.rows x 3).toNat = 2 * m.value.toNat - 1 ∧ (m.rows x 3).toNat < 2 * m.value.toNat ∧
      (Limbs.reduce m.value m.negInv x).toNat = m.value.toNat - 1 ∧ m.value.toNat ≤ ones.toNat ∧
      (Limbs.reduce m.value m.negInv ⟨ones, .zero⟩).toNat = 2 ^ 192 - 2 ^ 128 := by
  intro m x ones
  obtain ⟨-, below, half⟩ := reduction_exact m
  have bound : x.toNat < m.value.toNat * 2 ^ (64 * 3) := by decide +kernel
  obtain ⟨lt, -, only⟩ := below x bound
  have reduced : m.value.toNat - 1 = (Limbs.reduce m.value m.negInv x).toNat :=
    (only _).mpr ⟨by decide +kernel, by decide +kernel⟩
  have ofOnes : 2 ^ 192 - 2 ^ 128 = (Limbs.reduce m.value m.negInv ⟨ones, .zero⟩).toNat :=
    (half ones _).mpr ⟨by decide +kernel, by decide +kernel⟩
  exact ⟨bound, by decide +kernel, by decide +kernel, lt, reduced.symm, by decide +kernel,
    ofOnes.symm⟩

end Modulus
end ShortWeierstrass
