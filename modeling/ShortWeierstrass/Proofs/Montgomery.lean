/-
# Montgomery reduction is exact

A row of the reduction adds a multiple of the modulus and divides by `2^64`. So
with `V` for the words and the running top word, and `H` for the words of the
upper half that are still to come, `V + R H` changes by a multiple of the modulus
and a division, and after all rows `R V'` is what there was at first and fewer
than `R` times the modulus (`Words.reduceRows_toNat`). This is both the congruence
and the bound `V' < 2 m` under which one subtraction is enough
(`Limbs.reduce_toNat`).

All that is asked of the factor `negInv` is that its product with the modulus is -1 modulo `2^64`.

Key theorems: `Words.reduceRow_step`, `Words.reduceRows_toNat`, `Limbs.reduceRows_lt`,
`Limbs.reduce_toNat`.
-/
import Mathlib.Data.Nat.ModEq
import Mathlib.Data.UInt
import Mathlib.Tactic.Ring
import ShortWeierstrass.Limbs.Bits
import ShortWeierstrass.Limbs.Reduction

namespace ShortWeierstrass

/-! ### The rows -/

namespace Words

variable (negInv : Word) (ms : List Word)

/-- The multiple that a row adds makes the lowest word vanish. -/
theorem two_pow_dvd_row {r m u : ℕ} (inverse : u * m % 2 ^ 64 = 2 ^ 64 - 1) :
    2 ^ 64 ∣ r + r % 2 ^ 64 * u % 2 ^ 64 * m := by
  have h : r + r % 2 ^ 64 * u % 2 ^ 64 * m ≡ r + r * (u * m) [MOD 2 ^ 64] := by
    refine Nat.ModEq.add_left r ?_
    calc r % 2 ^ 64 * u % 2 ^ 64 * m ≡ r % 2 ^ 64 * u * m [MOD 2 ^ 64] :=
          (Nat.mod_modEq _ _).mul_right m
      _ ≡ r * u * m [MOD 2 ^ 64] := ((Nat.mod_modEq r _).mul_right u).mul_right m
      _ = r * (u * m) := Nat.mul_assoc r u m
  have unit : u * m ≡ 2 ^ 64 - 1 [MOD 2 ^ 64] := by
    rw [Nat.ModEq, inverse, Nat.mod_eq_of_lt (by decide)]
  have k : r + r * (u * m) ≡ r + r * (2 ^ 64 - 1) [MOD 2 ^ 64] :=
    Nat.ModEq.add_left r (Nat.ModEq.mul_left r unit)
  have zero : r + r * (2 ^ 64 - 1) ≡ 0 [MOD 2 ^ 64] := by
    rw [show r + r * (2 ^ 64 - 1) = 2 ^ 64 * r by omega]
    exact (Nat.modEq_zero_iff_dvd.mpr (Nat.dvd_mul_right _ _))
  exact Nat.modEq_zero_iff_dvd.mp ((h.trans k).trans zero)

theorem reduceRow_step (inverse : negInv.toNat * toNat ms % 2 ^ 64 = 2 ^ 64 - 1)
    (h top : Word) (rs : List Word) (e : rs.length = ms.length) :
    ∃ u : ℕ, u < 2 ^ 64 ∧
      2 ^ 64 * (toNat (reduceRow (rs.headD 0 * negInv) h top rs ms 0).words.tail
          + 2 ^ (64 * ms.length)
            * (reduceRow (rs.headD 0 * negInv) h top rs ms 0).carry.toNat)
        = toNat rs + 2 ^ (64 * ms.length) * (h.toNat + top.toNat) + u * toNat ms := by
  set row := reduceRow (rs.headD 0 * negInv) h top rs ms 0 with hrow
  have value := reduceRow_toNat (rs.headD 0 * negInv) h top rs ms 0 e
  have length := length_reduceRow (rs.headD 0 * negInv) h top rs ms 0 e
  rw [← hrow] at value length
  set u := (rs.headD 0 * negInv).toNat with hu
  have multiple : u = toNat rs % 2 ^ 64 * negInv.toNat % 2 ^ 64 := by
    rw [hu, UInt64.toNat_mul, toNat_mod_base]
  have low : 2 ^ 64 ∣ toNat rs + u * toNat ms := by
    rw [multiple]
    exact two_pow_dvd_row inverse
  have ne : 0 < ms.length := by
    rcases ms with _ | ⟨m, ms⟩
    · simp at inverse
    · exact Nat.succ_pos _
  refine ⟨u, by rw [hu]; exact Word.toNat_lt_base _, ?_⟩
  rcases hwords : row.words with _ | ⟨w, ws⟩
  · rw [hwords] at length
    simp at length
  · rw [hwords, toNat_cons, base_pow_succ, UInt64.toNat_zero] at value
    rw [List.tail_cons]
    have lt := Word.toNat_lt_base w
    have radix : 2 ^ 64 ∣ 2 ^ (64 * ms.length) * (h.toNat + top.toNat) :=
      Dvd.dvd.mul_right (Nat.pow_dvd_pow 2 (by omega)) _
    have vanish : w.toNat = 0 := by
      have sum : 2 ^ 64 ∣
          w.toNat + 2 ^ 64 * (toNat ws + 2 ^ (64 * ms.length) * row.carry.toNat) := by
        rw [Nat.mul_add, ← Nat.mul_assoc, ← Nat.add_assoc, value, Nat.add_zero]
        exact Nat.dvd_add low radix
      omega
    rw [Nat.mul_add, ← Nat.mul_assoc]
    omega

/-- All rows: what they leave, times `2^64` for each of them, is what there was and
a multiple of the modulus, by a factor of no more words than there are rows. -/
theorem reduceRows_toNat (inverse : negInv.toNat * toNat ms % 2 ^ 64 = 2 ^ 64 - 1) :
    ∀ (hs rs : List Word) (top : Word), rs.length = ms.length →
    ∃ q : ℕ, q < 2 ^ (64 * hs.length) ∧
      2 ^ (64 * hs.length) * (toNat (reduceRows negInv ms rs top hs).words
          + 2 ^ (64 * ms.length) * (reduceRows negInv ms rs top hs).carry.toNat)
        = toNat rs + 2 ^ (64 * ms.length) * top.toNat + 2 ^ (64 * ms.length) * toNat hs
          + q * toNat ms
  | [], rs, top, _ => ⟨0, Nat.two_pow_pos _, by simp [reduceRows]⟩
  | h :: hs, rs, top, e => by
    obtain ⟨u, hu, step⟩ := reduceRow_step negInv ms inverse h top rs e
    have length := length_reduceRow (rs.headD 0 * negInv) h top rs ms 0 e
    set row := reduceRow (rs.headD 0 * negInv) h top rs ms 0 with hrow
    have tail : row.words.tail.length = ms.length := by rw [List.length_tail, length]; omega
    obtain ⟨q, hq, rest⟩ := reduceRows_toNat inverse hs row.words.tail row.carry tail
    refine ⟨u + 2 ^ 64 * q, ?_, ?_⟩
    · rw [List.length_cons, base_pow_succ]
      have : 2 ^ 64 * (q + 1) ≤ 2 ^ 64 * 2 ^ (64 * hs.length) := Nat.mul_le_mul_left _ hq
      omega
    · show 2 ^ (64 * (hs.length + 1)) *
        (toNat (reduceRows negInv ms row.words.tail row.carry hs).words + 2 ^ (64 * ms.length)
          * (reduceRows negInv ms row.words.tail row.carry hs).carry.toNat) = _
      rw [base_pow_succ, Nat.mul_assoc, rest, toNat_cons, Nat.mul_add, Nat.mul_add, step]
      ring

end Words

namespace Limbs

variable {L : ℕ}

/-- What all rows leave, times `R`, is the number reduced and a multiple of the modulus. -/
theorem reduceRows_total (modulus : Limbs L) (negInv : Word)
    (inverse : negInv.toNat * modulus.toNat % 2 ^ 64 = 2 ^ 64 - 1) (x : Wide L) :
    let last := Words.reduceRows negInv modulus.words x.low.words 0 x.high.words
    ∃ q : ℕ, q < 2 ^ (64 * L) ∧
      2 ^ (64 * L) * (Words.toNat last.words + 2 ^ (64 * L) * last.carry.toNat)
        = x.toNat + q * modulus.toNat := by
  intro last
  obtain ⟨q, hq, rows⟩ := Words.reduceRows_toNat negInv modulus.words inverse x.high.words
    x.low.words 0 (by rw [x.low.length_words, modulus.length_words])
  rw [x.high.length_words, UInt64.toNat_zero, Nat.mul_zero, Nat.add_zero,
    modulus.length_words] at rows
  rw [x.high.length_words] at hq
  exact ⟨q, hq, rows⟩

/-- So below `modulus * R` one subtraction is enough. -/
theorem reduceRows_lt (modulus : Limbs L) (negInv : Word)
    (inverse : negInv.toNat * modulus.toNat % 2 ^ 64 = 2 ^ 64 - 1) (x : Wide L)
    (bound : x.toNat < modulus.toNat * 2 ^ (64 * L)) :
    let last := Words.reduceRows negInv modulus.words x.low.words 0 x.high.words
    Words.toNat last.words + 2 ^ (64 * L) * last.carry.toNat < 2 * modulus.toNat := by
  intro last
  obtain ⟨q, hq, total⟩ := reduceRows_total modulus negInv inverse x
  have multiple : q * modulus.toNat ≤ 2 ^ (64 * L) * modulus.toNat := Nat.mul_le_mul_right _ hq.le
  refine Nat.lt_of_mul_lt_mul_left (a := 2 ^ (64 * L)) ?_
  calc 2 ^ (64 * L) * (Words.toNat last.words + 2 ^ (64 * L) * last.carry.toNat)
      = x.toNat + q * modulus.toNat := total
    _ < modulus.toNat * 2 ^ (64 * L) + 2 ^ (64 * L) * modulus.toNat := by omega
    _ = 2 ^ (64 * L) * (2 * modulus.toNat) := by ring

theorem reduce_eq_mod (modulus : Limbs L) (negInv : Word)
    (inverse : negInv.toNat * modulus.toNat % 2 ^ 64 = 2 ^ 64 - 1) (x : Wide L)
    (bound : x.toNat < modulus.toNat * 2 ^ (64 * L)) :
    let last := Words.reduceRows negInv modulus.words x.low.words 0 x.high.words
    (reduce modulus negInv x).toNat =
      (Words.toNat last.words + 2 ^ (64 * L) * last.carry.toNat) % modulus.toNat := by
  intro last
  have below := reduceRows_lt modulus negInv inverse x bound
  have value := Words.reduceOnce_toNat last modulus.words
    (Words.length_reduceRows negInv modulus.words x.low.words 0 x.high.words
      (by rw [x.low.length_words, modulus.length_words]))
  rw [modulus.length_words] at value
  exact value below

/-- **The reduction is exact**: below `modulus * R` it gives the residue whose
product with `R` is congruent to the number reduced. -/
theorem reduce_toNat (modulus : Limbs L) (negInv : Word)
    (inverse : negInv.toNat * modulus.toNat % 2 ^ 64 = 2 ^ 64 - 1) (x : Wide L)
    (bound : x.toNat < modulus.toNat * 2 ^ (64 * L)) :
    (reduce modulus negInv x).toNat < modulus.toNat ∧
      (reduce modulus negInv x).toNat * 2 ^ (64 * L) ≡ x.toNat [MOD modulus.toNat] := by
  have below := reduceRows_lt modulus negInv inverse x bound
  obtain ⟨q, -, total⟩ := reduceRows_total modulus negInv inverse x
  rw [reduce_eq_mod modulus negInv inverse x bound]
  refine ⟨Nat.mod_lt _ (by omega), ((Nat.mod_modEq _ _).mul_right _).trans ?_⟩
  rw [Nat.mul_comm, total, Nat.ModEq, Nat.add_mul_mod_self_right]

end Limbs
end ShortWeierstrass
