/-
# Bit windows are exact and recombine

A window is a quotient and a remainder of the number it is read from, wherever it lies: within a
word, across two words, up to the end of a word, past the top or beyond it (`Words.window_toNat`).
The steps that read it stay in range with any index (`Checked.window_eq`): the shift down is the
place within a word, the shift up is made only when the window straddles, hence by the rest of a
word that is not whole, and the mask is that of a width below a word. So windows side by side are
the digits of the number to base `2^width`: their sum with the powers they stand for takes one
more digit with each window (`Limbs.sum_windows`), and the loop that all powers and multiples are
computed with reads the same digits highest first (`Checked.windows_horner`).

Key theorems: `Limbs.sum_windows`, `Checked.windows_horner`, `Limbs.windows_exact`.
-/
import Mathlib
import ShortWeierstrass.Proofs.CheckedLoops
import ShortWeierstrass.Proofs.Power

namespace ShortWeierstrass

variable {L : ℕ}

theorem Limbs.sum_windows (u : Limbs L) (width : Fin 64) (count : ℕ) :
    ∑ i ∈ Finset.range count, (u.window (width.val * i) width).val * 2 ^ (width.val * i) =
      u.toNat % 2 ^ (width.val * count) := by
  induction count with
  | zero => rw [Finset.sum_range_zero, Nat.mul_zero, pow_zero, Nat.mod_one]
  | succ count ih =>
    rw [Finset.sum_range_succ, ih, window_val, mod_two_pow_succ_mul, Nat.mul_comm count,
      Nat.mul_comm (2 ^ (width.val * count))]

namespace Checked

theorem get_range {n : ℕ} (digit : Fin n) : (Vector.range n).get digit = digit.val :=
  Vector.getElem_range digit.isLt

/-- Reading the lowest windows highest first, each in front of the next, gives the lowest bits. -/
theorem windows_horner (u : Limbs L) (width : Fin 64) (pos : 0 < width.val) (count : ℕ)
    (small : count * width.val ≤ 2 ^ 32) (acc : ℕ) :
    windows (fun acc digit => 2 ^ width.val * acc + digit) (Vector.range (2 ^ width.val)).toList
      width.val u count acc =
        .ok (2 ^ (width.val * count) * acc + u.toNat % 2 ^ (width.val * count)) := by
  refine windows_eq width pos _ _ u
    (fun count acc => 2 ^ (width.val * count) * acc + u.toNat % 2 ^ (width.val * count))
    (fun acc => ?_) (fun count acc => ?_) count acc small
  · rw [Nat.mul_zero, pow_zero, Nat.one_mul, Nat.mod_one, Nat.add_zero]
  · rw [get_range, Limbs.window_val, mod_two_pow_succ_mul, Nat.mul_succ, pow_add]
    ring

end Checked

/-- **Bit windows are exact.** On any number of words, with any index and any width of 1 to 63
bits, no step of the window leaves its range and the window is the quotient by `2^index` modulo
`2^width`. Windows side by side recombine to the bits that they cover: as a sum, and in the loop
that reads them highest first and checks that each index fits 32 bits. -/
theorem Limbs.windows_exact (u : Limbs L) {width : ℕ} (pos : 0 < width) (lt : width < 64) :
    (∀ index, ∃ w, Checked.window u index width = .ok w ∧
      w.toNat = (u.window index ⟨width, lt⟩).val ∧ w.toNat = u.toNat / 2 ^ index % 2 ^ width) ∧
    (∀ count, ∑ i ∈ Finset.range count, (u.window (width * i) ⟨width, lt⟩).val * 2 ^ (width * i) =
      u.toNat % 2 ^ (width * count)) ∧
    ∀ count, width * count ≤ 2 ^ 32 →
      Checked.windows (fun acc digit => 2 ^ width * acc + digit)
        (Vector.range (2 ^ width)).toList width u count 0 =
          .ok (u.toNat % 2 ^ (width * count)) := by
  refine ⟨fun index => ?_, sum_windows u ⟨width, lt⟩, fun count small => ?_⟩
  · exact ⟨_, Checked.window_eq u index ⟨width, lt⟩ pos, rfl, u.window_val index ⟨width, lt⟩⟩
  · have run := Checked.windows_horner u ⟨width, lt⟩ pos count
      (by rwa [Nat.mul_comm] at small) 0
    rwa [Nat.mul_zero, Nat.zero_add] at run

/-- Windows of four bits up to the end of a word, across two words, at the start of a word, past
the top and beyond it. -/
theorem Limbs.windows_exact_three_words :
    let u : Limbs 3 := ⟨[0xf000000000000000, 5, 0x8000000000000000], rfl⟩
    (0 < 4 ∧ 4 < 64) ∧ Checked.window u 60 4 = .ok 15 ∧ Checked.window u 62 4 = .ok 7 ∧
      Checked.window u 64 4 = .ok 5 ∧ Checked.window u 190 4 = .ok 2 ∧
      Checked.window u 192 4 = .ok 0 ∧
      ∑ i ∈ Finset.range 17, (u.window (4 * i) ⟨4, by decide⟩).val * 2 ^ (4 * i) =
        0x5f000000000000000 := by
  intro u
  obtain ⟨exact, sum, -⟩ := windows_exact u (show 0 < 4 by decide) (show 4 < 64 by decide)
  have reads : ∀ (index : ℕ) (w : Word), u.toNat / 2 ^ index % 2 ^ 4 = w.toNat →
      Checked.window u index 4 = .ok w := by
    intro index w value
    obtain ⟨v, read, -, v_value⟩ := exact index
    rw [read, UInt64.toNat_inj.mp (v_value.trans value)]
  exact ⟨by decide, reads 60 15 (by decide), reads 62 7 (by decide), reads 64 5 (by decide),
    reads 190 2 (by decide), reads 192 0 (by decide),
    (sum 17).trans (by decide)⟩

end ShortWeierstrass
