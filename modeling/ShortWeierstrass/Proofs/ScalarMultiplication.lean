/-
# Scalar multiples, by windows and by the comb

Every entry of a window table stands for its multiple of the point
(`WindowTable.select_standsFor`), so consuming `w` windows takes what stands for `b` to what
stands for `2^(4 w) b + (k mod 2^(4 w)) g`. The comb adds the odd and the even digits of the
scalar apart (`combDigits`); the odd ones, four doublings later, and the even ones make up the
scalar modulo `2^(8 size)`. Both take all of a scalar that has no more bits than the order, also
where the tables go on behind its last word.

Key definitions: `combDigits`.
Key theorems: `Jacobian.mulWindows_standsFor`, `Comb.mul_standsFor`,
`Domain.mulGeneratorAdd_standsFor`, `Domain.mul_denotes_multiple`, `Domain.mulGenerator_agrees`.
-/
import Mathlib
import ShortWeierstrass.Curves.Small
import ShortWeierstrass.Proofs.GroupLaw
import ShortWeierstrass.Proofs.Power

namespace ShortWeierstrass

variable {L : ℕ}

section

variable {c : Curve L} [c.Elliptic] {p : Jacobian c} {g : c.Group}

/-! ### Doublings and tables -/

namespace Jacobian

theorem StandsFor.doubleTimes : ∀ (count : ℕ) {p : Jacobian c} {g : c.Group}, p.StandsFor g →
    (p.doubleTimes count).StandsFor (2 ^ count • g)
  | 0, _, g, h => by
    rw [pow_zero, one_nsmul]
    exact h
  | count + 1, _, g, h => by
    have step := doubleTimes count h.double
    rwa [← two_nsmul g, ← mul_nsmul', ← pow_succ] at step

end Jacobian

/-- Entry `i` stands for `i` times the point. -/
theorem WindowTable.select_standsFor (h : p.StandsFor g) (digit : Fin (2 ^ windowBits.val)) :
    ((WindowTable.ofPoint p).select digit).StandsFor (digit.val • g) := by
  refine @multiples_induction _ Jacobian.identity p Jacobian.double (· + p)
    (fun k q => q.StandsFor (k • g)) ?_ ?_ ?_ ?_ _ digit.val digit.isLt
  · rw [zero_nsmul]
    exact Jacobian.identity_standsFor
  · rwa [one_nsmul]
  · intro k q hq
    rw [two_mul, add_nsmul]
    exact hq.double
  · intro k q hq
    rw [succ_nsmul]
    exact hq.add h

namespace Jacobian

/-- The accumulator moves up by the windows, and the multiple by their number is added. -/
theorem addWindows_standsFor (h : p.StandsFor g) (k : Limbs L) :
    ∀ (windows : ℕ) {acc : Jacobian c} {b : c.Group}, acc.StandsFor b →
      (addWindows (WindowTable.ofPoint p) k windows acc).StandsFor
        (2 ^ (4 * windows) • b + (k.toNat % 2 ^ (4 * windows)) • g)
  | 0, _, b, hacc => by
    rw [Nat.mul_zero, pow_zero, one_nsmul, Nat.mod_one, zero_nsmul, add_zero]
    exact hacc
  | window + 1, _, b, hacc => by
    have digit := WindowTable.select_standsFor h (k.window (window * windowBits.val) windowBits)
    rw [Limbs.window_val] at digit
    have step := addWindows_standsFor h k window ((hacc.doubleTimes 4).add digit)
    have moved : 2 ^ (4 * (window + 1)) = 2 ^ (4 * window) * 2 ^ 4 := by ring
    rw [nsmul_add, ← mul_nsmul', ← mul_nsmul', add_assoc, ← add_nsmul, ← moved,
      Nat.add_comm (_ * _)] at step
    rw [mod_two_pow_succ_mul k.toNat 4 window]
    exact step

theorem mulWindows_standsFor (h : p.StandsFor g) (windows : ℕ) (k : Limbs L) :
    (p.mulWindows windows k).StandsFor ((k.toNat % 2 ^ (4 * windows)) • g) := by
  have all := addWindows_standsFor h k windows identity_standsFor
  rwa [nsmul_zero, zero_add] at all

end Jacobian

/-! ### The comb -/

/-- The number that every other digit of `n` makes, from number `2 i + odd` on, with the
weights of the tables from number `i` on. -/
def combDigits (n odd : ℕ) : (size i : ℕ) → ℕ
  | 0, _ => 0
  | size + 1, i =>
    n / 2 ^ ((2 * i + odd) * 4) % 2 ^ 4 * 2 ^ (8 * i) + combDigits n odd size (i + 1)

theorem combDigits_odd_add_even (n : ℕ) : ∀ size i : ℕ,
    2 ^ 4 * combDigits n 1 size i + combDigits n 0 size i =
      n / 2 ^ (8 * i) % 2 ^ (8 * size) * 2 ^ (8 * i)
  | 0, i => by simp [combDigits, Nat.mod_one]
  | size + 1, i => by
    have ih := combDigits_odd_add_even n size (i + 1)
    have even : n / 2 ^ ((2 * i + 0) * 4) = n / 2 ^ (8 * i) := by congr 2; omega
    have odd : n / 2 ^ ((2 * i + 1) * 4) = n / 2 ^ (8 * i) / 2 ^ 4 := by
      rw [Nat.div_div_eq_div_mul, ← pow_add]
      congr 2
      omega
    have rest : n / 2 ^ (8 * (i + 1)) = n / 2 ^ (8 * i) / 2 ^ 8 := by
      rw [Nat.div_div_eq_div_mul, ← pow_add, Nat.mul_succ]
    have byte : n / 2 ^ (8 * i) % 2 ^ 8 =
        n / 2 ^ (8 * i) % 2 ^ 4 + 2 ^ 4 * (n / 2 ^ (8 * i) / 2 ^ 4 % 2 ^ 4) :=
      Nat.mod_mul (a := 2 ^ 4) (b := 2 ^ 4)
    rw [rest] at ih
    rw [combDigits, combDigits, even, odd, Nat.mul_succ 8 size, Nat.add_comm (8 * size),
      pow_add 2 8, Nat.mod_mul, byte]
    calc _ = (n / 2 ^ (8 * i) % 2 ^ 4 + 2 ^ 4 * (n / 2 ^ (8 * i) / 2 ^ 4 % 2 ^ 4)) * 2 ^ (8 * i)
          + (2 ^ 4 * combDigits n 1 size (i + 1) + combDigits n 0 size (i + 1)) := by ring
      _ = _ := by
        rw [ih]
        ring

namespace Comb

theorem addDigits_standsFor (k : Limbs L) (odd : ℕ) :
    ∀ (size i : ℕ) {p acc : Jacobian c} {b : c.Group}, p.StandsFor (2 ^ (8 * i) • g) →
      acc.StandsFor b →
      (addDigits k odd i (combTables size p) acc).StandsFor
        (b + combDigits k.toNat odd size i • g)
  | 0, _, _, _, b, _, hacc => by
    rw [combDigits, zero_nsmul, add_zero]
    exact hacc
  | size + 1, i, _, _, b, h, hacc => by
    have digit := WindowTable.select_standsFor h
      (k.window ((2 * i + odd) * windowBits.val) windowBits)
    rw [Limbs.window_val, ← mul_nsmul'] at digit
    have next := h.doubleTimes (2 * windowBits.val)
    have moved : 2 ^ (2 * windowBits.val) * 2 ^ (8 * i) = 2 ^ (8 * (i + 1)) := by
      show 2 ^ 8 * 2 ^ (8 * i) = _
      ring
    rw [← mul_nsmul', moved] at next
    have step := addDigits_standsFor k odd size (i + 1) next (hacc.add digit)
    rw [combDigits, add_nsmul, ← add_assoc]
    exact step

/-- The comb's multiple is one by the scalar modulo the power that its tables cover. -/
theorem mul_standsFor (h : p.StandsFor g) (comb : Comb p) (k : Limbs L) :
    (comb.mul k).StandsFor ((k.toNat % 2 ^ (8 * comb.size)) • g) := by
  have start : p.StandsFor (2 ^ (8 * 0) • g) := by
    rw [Nat.mul_zero, pow_zero, one_nsmul]
    exact h
  have odd := addDigits_standsFor k 1 comb.size 0 start Jacobian.identity_standsFor
  have even := addDigits_standsFor k 0 comb.size 0 start (odd.doubleTimes windowBits.val)
  have all := combDigits_odd_add_even k.toNat comb.size 0
  rw [Nat.mul_zero, pow_zero, Nat.div_one, Nat.mul_one] at all
  rw [zero_add, ← mul_nsmul', ← add_nsmul] at even
  rw [mul, comb.tables_eq, ← all]
  exact even

end Comb

end

/-! ### Multiples by scalars of a domain -/

namespace Domain

variable {d : Domain L} {k k₁ k₂ : Limbs L}

/-- The windows of the order hold every scalar with as many bits. -/
theorem windows_cover (hk : k.toNat < 2 ^ d.order.bitLength) {windows : ℕ}
    (cover : d.order.windows ≤ windows) : k.toNat < 2 ^ (4 * windows) := by
  unfold Modulus.windows at cover
  exact lt_of_lt_of_le hk (Nat.pow_le_pow_right (by decide) (by omega))

variable [d.toCurve.Elliptic] {p : Jacobian d.toCurve} {g q : d.toCurve.Group}

theorem mul_standsFor (h : p.StandsFor g) (hk : k.toNat < 2 ^ d.order.bitLength) :
    (d.mul p k).StandsFor (k.toNat • g) := by
  have multiple := Jacobian.mulWindows_standsFor h d.order.windows k
  rwa [Nat.mod_eq_of_lt (windows_cover hk le_rfl)] at multiple

/-- With the comb or without it, the multiple of the generator is the same. -/
theorem mulGenerator_standsFor (h : d.basePoint.StandsFor g)
    (hk : k.toNat < 2 ^ d.order.bitLength) : (d.mulGenerator k).StandsFor (k.toNat • g) := by
  unfold mulGenerator
  cases e : d.comb with
  | none => exact mul_standsFor h hk
  | some comb =>
    have lt : k.toNat < 2 ^ (8 * comb.size) := by
      have := windows_cover hk (d.comb_covers comb e)
      rwa [← Nat.mul_assoc] at this
    have multiple := Comb.mul_standsFor h comb k
    rwa [Nat.mod_eq_of_lt lt] at multiple

/-- A longer scalar gives a multiple as well, by the lowest bits that the tables take. -/
theorem exists_mulGenerator_standsFor (h : d.basePoint.StandsFor g) (k : Limbs L) :
    ∃ n : ℕ, (d.mulGenerator k).StandsFor (n • g) := by
  unfold mulGenerator
  cases d.comb with
  | none => exact ⟨_, Jacobian.mulWindows_standsFor h d.order.windows k⟩
  | some comb => exact ⟨_, Comb.mul_standsFor h comb k⟩

theorem mulGeneratorAdd_standsFor (hg : d.basePoint.StandsFor g) (hp : p.StandsFor q)
    (hk₁ : k₁.toNat < 2 ^ d.order.bitLength) (hk₂ : k₂.toNat < 2 ^ d.order.bitLength) :
    (d.mulGeneratorAdd k₁ p k₂).StandsFor (k₁.toNat • g + k₂.toNat • q) :=
  (mulGenerator_standsFor hg hk₁).add (mul_standsFor hp hk₂)

/-- **Multiplication by windows computes the multiple.** Of a valid triple, whatever its point is,
it makes one that denotes the multiple by the scalar, as far as the windows of the order reach:
a scalar with no more bits than the order is taken whole, of a longer one the lowest windows. -/
theorem mul_denotes_multiple (d : Domain L) [d.toCurve.Elliptic] {p : Jacobian d.toCurve}
    (valid : p.Valid) (k : Limbs L) :
    (d.mul p k).Valid ∧
    (d.mul p k).point = (k.toNat % 2 ^ (4 * ((d.order.value.toNat.size + 3) / 4))) • p.point ∧
    (k.toNat < 2 ^ d.order.value.toNat.size → (d.mul p k).point = k.toNat • p.point) := by
  rw [← d.order.bitLength_eq_size]
  obtain ⟨validMultiple, multiple⟩ :=
    Jacobian.standsFor_iff.mp (Jacobian.mulWindows_standsFor valid.standsFor d.order.windows k)
  refine ⟨validMultiple, multiple, ?_⟩
  intro lt
  exact (Jacobian.standsFor_iff.mp (mul_standsFor valid.standsFor lt)).2

/-- **A comb does not change what is computed.** With a comb of any size that covers the order, or
with none, the multiple of the generator denotes the point that the multiple by windows denotes,
and the sum that verification needs denotes the sum of the two multiples. -/
theorem mulGenerator_agrees (d : Domain L) [d.toCurve.Elliptic] (generator : d.basePoint.Valid) :
    (∀ k : Limbs L, k.toNat < 2 ^ d.order.bitLength →
      (d.mulGenerator k).Valid ∧ (d.mul d.basePoint k).Valid ∧
        (d.mulGenerator k).point = (d.mul d.basePoint k).point ∧
        (d.mulGenerator k).point = k.toNat • d.basePoint.point) ∧
    ∀ p : Jacobian d.toCurve, p.Valid → ∀ k₁ k₂ : Limbs L, k₁.toNat < 2 ^ d.order.bitLength →
      k₂.toNat < 2 ^ d.order.bitLength →
        (d.mulGeneratorAdd k₁ p k₂).Valid ∧
          (d.mulGeneratorAdd k₁ p k₂).point = k₁.toNat • d.basePoint.point + k₂.toNat • p.point := by
  have base := generator.standsFor
  constructor
  · intro k lt
    obtain ⟨combValid, combPoint⟩ := Jacobian.standsFor_iff.mp (mulGenerator_standsFor base lt)
    obtain ⟨windowsValid, windowsPoint⟩ := Jacobian.standsFor_iff.mp (mul_standsFor base lt)
    exact ⟨combValid, windowsValid, combPoint.trans windowsPoint.symm, combPoint⟩
  · intro p valid k₁ k₂ lt₁ lt₂
    exact Jacobian.standsFor_iff.mp (mulGeneratorAdd_standsFor base valid.standsFor lt₁ lt₂)

end Domain

/-! ### A comb that reaches past its scalars -/

namespace Small

/-- The curve modulo 1000003 with a comb of 72 bits, for scalars of one word. -/
def mod1000003Long : Domain 1 :=
  .build mod1000003Curve mod1000003Order (.ofNat 269752) (.ofNat 229376) (some 9)
    (by rintro _ ⟨⟩; decide +kernel)

theorem mod1000003Long_base : mod1000003Long.base.value.toNat = 1000003 :=
  Modulus.value_ofNat 1 1000003 2 none (by decide +kernel)

instance : mod1000003Long.toCurve.Elliptic where
  prime := by
    rw [mod1000003Long_base]
    norm_num
  three_lt := by
    rw [mod1000003Long_base]
    decide
  a_canonical := (Residue.ofNat_standsFor (n := 707225) (by decide)).canonical
  b_canonical := (Residue.ofNat_standsFor (n := 678605) (by decide)).canonical
  discriminant_ne := by decide +kernel

end Small

/-- The order has 20 bits, so five windows take all ones in a word for `2^20 - 1`, and `2^20 - 1`
for itself; the triples are the generator with `Z = 2` and one of the identity. -/
theorem Domain.mul_denotes_multiple_mod1000003 :
    let d := Small.mod1000003Long
    let p : Jacobian d.toCurve := ⟨.ofNat 79005, .ofNat 835005, .ofNat 2⟩
    let o : Jacobian d.toCurve := ⟨.ofNat 5, .ofNat 7, 0⟩
    let k : Limbs 1 := .ofNat 1 (2 ^ 20 - 1)
    let ones : Limbs 1 := .ofNat 1 (2 ^ 64 - 1)
    p.Valid ∧ o.Valid ∧ d.order.value.toNat.size = 20 ∧ d.order.value.toNat < k.toNat ∧
      (d.mul p k).point = (2 ^ 20 - 1) • p.point ∧
      (d.mul p ones).point = (2 ^ 20 - 1) • p.point ∧
      (d.mul o ones).Valid ∧ (d.mul o ones).point = 0 := by
  intro d p o k ones
  have validP : p.Valid := by decide +kernel
  have validO : o.Valid := by decide +kernel
  have size : d.order.value.toNat.size = 20 := by decide +kernel
  have kValue : k.toNat = 2 ^ 20 - 1 := by decide +kernel
  have low : ones.toNat % 2 ^ (4 * ((20 + 3) / 4)) = 2 ^ 20 - 1 := by decide +kernel
  have covered := (mul_denotes_multiple d validP k).2.2
  have cut := (mul_denotes_multiple d validP ones).2.1
  obtain ⟨validMultiple, ofIdentity, -⟩ := mul_denotes_multiple d validO ones
  rw [size, kValue] at covered
  rw [size, low] at cut
  rw [Jacobian.point_eq_zero (p := o) (by decide +kernel), nsmul_zero] at ofIdentity
  exact ⟨validP, validO, size, by decide +kernel, covered (by decide), cut, validMultiple,
    ofIdentity⟩

/-- The scalar `2^20 - 1`, above the order, and the generator with `Z = 2`. -/
theorem Domain.mulGenerator_agrees_mod1000003 :
    let d := Small.mod1000003Long
    let k : Limbs 1 := .ofNat 1 (2 ^ 20 - 1)
    let p : Jacobian d.toCurve := ⟨.ofNat 79005, .ofNat 835005, .ofNat 2⟩
    d.basePoint.Valid ∧ p.Valid ∧ d.order.value.toNat < k.toNat ∧
      k.toNat < 2 ^ d.order.bitLength ∧ (d.mulGenerator k).point = (d.mul d.basePoint k).point ∧
      (d.mulGeneratorAdd k p k).point = k.toNat • d.basePoint.point + k.toNat • p.point := by
  intro d k p
  have generator : d.basePoint.Valid := by decide +kernel
  have valid : p.Valid := by decide +kernel
  have lt : k.toNat < 2 ^ d.order.bitLength := by decide +kernel
  obtain ⟨multiples, sums⟩ := mulGenerator_agrees d generator
  exact ⟨generator, valid, by decide +kernel, lt, (multiples k lt).2.2.1,
    (sums p valid k k lt lt).2⟩

end ShortWeierstrass
