/-
# Roots of quotients

Of a quotient other than zero and its product with the root of unity exactly one is a square,
because the root is none: a square divided by a square is one, and the product of two numbers that
are none is one as well (`isSquare_mul_iff_of_not_isSquare`). Roots are found exactly of squares, so
exactly one root is found, and the check that this is so never fails
(`Residue.StandsFor.sqrtRatio_of_isSquare`, `Residue.StandsFor.sqrtRatio_of_not_isSquare`).
Where the quotient counts as zero both roots are found, and both are zero
(`Residue.StandsFor.sqrtRatio_of_zero`).

Key theorems: `isSquare_mul_iff_of_not_isSquare`, `Residue.StandsFor.sqrtRatio_of_zero`,
`Residue.StandsFor.sqrtRatio_of_isSquare`, `Residue.StandsFor.sqrtRatio_of_not_isSquare`,
`Residue.sqrtRatio_meets_contract`.
-/
import Mathlib
import ShortWeierstrass.Curves.Small
import ShortWeierstrass.Proofs.UnitGroup
import ShortWeierstrass.Residue.Sqrt

namespace ShortWeierstrass

/-- A factor that is no square turns squares other than zero and the other numbers into each
other. -/
theorem isSquare_mul_iff_of_not_isSquare {p : ℕ} [Fact p.Prime] {a w : ZMod p}
    (nonsquare : ¬ IsSquare w) (ne : a ≠ 0) : IsSquare (a * w) ↔ ¬ IsSquare a := by
  constructor
  · intro product square
    apply nonsquare
    have quotient := product.div square
    rwa [mul_div_cancel_left₀ w ne] at quotient
  · intro other
    have w_ne : w ≠ 0 := by
      rintro rfl
      exact nonsquare IsSquare.zero
    -- The quadratic character is multiplicative, and -1 exactly on what is no square.
    apply (quadraticChar_one_iff_isSquare (mul_ne_zero ne w_ne)).mp
    rw [map_mul, quadraticChar_neg_one_iff_not_isSquare.mpr other,
      quadraticChar_neg_one_iff_not_isSquare.mpr nonsquare, neg_one_mul, neg_neg]

namespace Residue

variable {L : ℕ} {m : Modulus L} {num div : Residue m} {a b : m.Ring}

theorem sqrtRatio_eq {root partner : Option (Residue m)}
    (hroot : (div.inverseOrZero * num).sqrt? = root)
    (hpartner : (div.inverseOrZero * num * rootOfUnity).sqrt? = partner) :
    sqrtRatio num div =
      if num.isZero || div.isZero || root.isSome != partner.isSome then
        match root.or partner with
        | some y => .ok ⟨root.isSome && (num.isZero || !div.isZero), y⟩
        | none => .error .rootCount
      else
        .error .rootCount := by
  subst hroot hpartner
  rfl

namespace StandsFor

variable [Fact m.value.toNat.Prime]

/-- The quotient by zero counts as zero, as in a field. -/
theorem ratio (hnum : num.StandsFor a) (hdiv : div.StandsFor b) :
    (div.inverseOrZero * num).StandsFor (a / b) :=
  (hdiv.inverseOrZero.mul hnum).congr (by rw [div_eq_mul_inv, mul_comm])

theorem partner (hnum : num.StandsFor a) (hdiv : div.StandsFor b) :
    (div.inverseOrZero * num * rootOfUnity).StandsFor
      (a / b * (rootOfUnity : Residue m).toRing) :=
  (hnum.ratio hdiv).mul rootOfUnity_standsFor

variable [m.Rooted]

theorem exists_sqrt?_of_isSquare {x : Residue m} (h : x.StandsFor a) (square : IsSquare a) :
    ∃ y r, x.sqrt? = some y ∧ y.StandsFor r ∧ r ^ 2 = a := by
  rcases h.sqrt? with found | ⟨-, nonsquare⟩
  · exact found
  · exact absurd square nonsquare

theorem sqrt?_of_zero {x : Residue m} (h : x.StandsFor 0) : x.sqrt? = some 0 := by
  obtain ⟨y, r, found, stands, root⟩ := h.exists_sqrt?_of_isSquare IsSquare.zero
  rw [found, Option.some_inj]
  exact (stands.eq_iff zero_standsFor).mpr (pow_eq_zero_iff two_ne_zero |>.mp root)

theorem sqrtRatio_of_zero (hnum : num.StandsFor a) (hdiv : div.StandsFor b)
    (zero : a = 0 ∨ b = 0) :
    sqrtRatio num div = .ok ⟨num.isZero || !div.isZero, 0⟩ := by
  have quotient : a / b = 0 := div_eq_zero_iff.mpr zero
  have pass : (num.isZero || div.isZero) = true := by
    rw [Bool.or_eq_true, hnum.isZero_iff, hdiv.isZero_iff]
    exact zero
  have root := ((hnum.ratio hdiv).congr quotient).sqrt?_of_zero
  have partner := ((hnum.partner hdiv).congr (by rw [quotient, zero_mul])).sqrt?_of_zero
  rw [sqrtRatio_eq root partner, pass]
  rfl

theorem sqrtRatio_of_num_zero (hnum : num.StandsFor 0) (hdiv : div.StandsFor b) :
    sqrtRatio num div = .ok ⟨true, 0⟩ := by
  rw [hnum.sqrtRatio_of_zero hdiv (.inl rfl), hnum.isZero_iff.mpr rfl, Bool.true_or]

theorem sqrtRatio_of_div_zero (hnum : num.StandsFor a) (ha : a ≠ 0) (hdiv : div.StandsFor 0) :
    sqrtRatio num div = .ok ⟨false, 0⟩ := by
  rw [hnum.sqrtRatio_of_zero hdiv (.inr rfl), hnum.isZero_eq_false_iff.mpr ha,
    hdiv.isZero_iff.mpr rfl]
  rfl

variable (nonsquare : ¬ IsSquare (rootOfUnity : Residue m).toRing)

include nonsquare in
/-- Of a quotient that is a square, only its own root is found. -/
theorem sqrtRatio_of_isSquare (hnum : num.StandsFor a) (hdiv : div.StandsFor b) (ha : a ≠ 0)
    (hb : b ≠ 0) (square : IsSquare (a / b)) :
    ∃ y r, sqrtRatio num div = .ok ⟨true, y⟩ ∧ y.StandsFor r ∧ r ^ 2 * b = a := by
  obtain ⟨y, r, root, stands, root_sq⟩ := (hnum.ratio hdiv).exists_sqrt?_of_isSquare square
  have alone : ¬ IsSquare (a / b * (rootOfUnity : Residue m).toRing) := fun product =>
    (isSquare_mul_iff_of_not_isSquare nonsquare (div_ne_zero ha hb)).mp product square
  refine ⟨y, r, ?_, stands, ?_⟩
  · rw [sqrtRatio_eq root ((hnum.partner hdiv).sqrt?_eq_none_iff.mpr alone),
      hdiv.isZero_eq_false_iff.mpr hb]
    simp
  · rw [root_sq, div_mul_cancel₀ a hb]

include nonsquare in
/-- Of a quotient that is no square, the root of its product with the root of unity is found. -/
theorem sqrtRatio_of_not_isSquare (hnum : num.StandsFor a) (hdiv : div.StandsFor b) (ha : a ≠ 0)
    (hb : b ≠ 0) (other : ¬ IsSquare (a / b)) :
    ∃ y r, sqrtRatio num div = .ok ⟨false, y⟩ ∧ y.StandsFor r ∧
      r ^ 2 * b = (rootOfUnity : Residue m).toRing * a := by
  have square : IsSquare (a / b * (rootOfUnity : Residue m).toRing) :=
    (isSquare_mul_iff_of_not_isSquare nonsquare (div_ne_zero ha hb)).mpr other
  obtain ⟨y, r, partner, stands, partner_sq⟩ :=
    (hnum.partner hdiv).exists_sqrt?_of_isSquare square
  refine ⟨y, r, ?_, stands, ?_⟩
  · rw [sqrtRatio_eq ((hnum.ratio hdiv).sqrt?_eq_none_iff.mpr other) partner]
    simp
  · calc r ^ 2 * b = a / b * b * (rootOfUnity : Residue m).toRing := by rw [partner_sq]; ring
      _ = (rootOfUnity : Residue m).toRing * a := by rw [div_mul_cancel₀ a hb, mul_comm]

end StandsFor

/-- **Roots of quotients meet their contract.** Modulo any odd prime whose root of unity has order
`2^s`, two canonical residues always get a result, and it is canonical: zero, as a square, for a
numerator of zero, and zero, as no square, for any other over zero. A quotient that is a square
gets its root, and any other the root of its product with the root of unity. -/
theorem sqrtRatio_meets_contract (m : Modulus L) [Fact m.value.toNat.Prime]
    (order : orderOf (rootOfUnity : Residue m).toRing = 2 ^ m.twoAdicity) {num div : Residue m}
    (hnum : num.Canonical) (hdiv : div.Canonical) :
    ∃ result, sqrtRatio num div = .ok result ∧ result.root.Canonical ∧
      (num = 0 → result = ⟨true, 0⟩) ∧
      (num ≠ 0 → div = 0 → result = ⟨false, 0⟩) ∧
      (num ≠ 0 → div ≠ 0 → IsSquare (num.toRing / div.toRing) →
        result.isSquare = true ∧ result.root.square * div = num) ∧
      (num ≠ 0 → div ≠ 0 → ¬ IsSquare (num.toRing / div.toRing) →
        result.isSquare = false ∧ result.root.square * div = rootOfUnity * num) := by
  have rooted : m.Rooted := ⟨fun _ => order⟩
  have nonsquare := not_isSquare_of_orderOf order
  have numStands := standsFor_toRing hnum
  have divStands := standsFor_toRing hdiv
  by_cases first : num = 0
  · have zero := numStands.congr (hnum.eq_zero_iff.mp first)
    exact ⟨_, zero.sqrtRatio_of_num_zero divStands, zero_standsFor.canonical, fun _ => rfl,
      fun ne => absurd first ne, fun ne => absurd first ne, fun ne => absurd first ne⟩
  have ha := hnum.eq_zero_iff.not.mp first
  by_cases second : div = 0
  · have zero := divStands.congr (hdiv.eq_zero_iff.mp second)
    exact ⟨_, numStands.sqrtRatio_of_div_zero ha zero, zero_standsFor.canonical,
      fun zero => absurd zero first, fun _ _ => rfl, fun _ ne => absurd second ne,
      fun _ ne => absurd second ne⟩
  have hb := hdiv.eq_zero_iff.not.mp second
  by_cases square : IsSquare (num.toRing / div.toRing)
  · obtain ⟨y, r, result, stands, root⟩ :=
      numStands.sqrtRatio_of_isSquare nonsquare divStands ha hb square
    have product := ((stands.square.mul divStands).eq_iff numStands).mpr root
    exact ⟨_, result, stands.canonical, fun zero => absurd zero first,
      fun _ zero => absurd zero second, fun _ _ _ => ⟨rfl, product⟩,
      fun _ _ other => absurd square other⟩
  · obtain ⟨y, r, result, stands, root⟩ :=
      numStands.sqrtRatio_of_not_isSquare nonsquare divStands ha hb square
    have product :=
      ((stands.square.mul divStands).eq_iff (rootOfUnity_standsFor.mul numStands)).mpr root
    exact ⟨_, result, stands.canonical, fun zero => absurd zero first,
      fun _ zero => absurd zero second, fun _ _ other => absurd other square,
      fun _ _ _ => ⟨rfl, product⟩⟩

/-- Modulo `257 = 2^8 + 1` with the root of unity 3: both zeros, a square quotient, and one that is
none. -/
theorem sqrtRatio_meets_contract_mod257 :
    let m := Small.mod257Base
    let nine : Residue m := .ofNat 9
    orderOf (rootOfUnity : Residue m).toRing = 2 ^ m.twoAdicity ∧
      sqrtRatio 0 nine = .ok ⟨true, 0⟩ ∧ sqrtRatio nine 0 = .ok ⟨false, 0⟩ ∧
      (∃ y, sqrtRatio (.ofNat 113) nine = .ok ⟨true, y⟩ ∧ y.square * nine = .ofNat 113) ∧
      ∃ y, sqrtRatio (.ofNat 3) nine = .ok ⟨false, y⟩ ∧ y.square * nine = rootOfUnity * .ofNat 3 := by
  intro m nine
  have order : orderOf (rootOfUnity : Residue m).toRing = 2 ^ m.twoAdicity :=
    Modulus.Rooted.orderOf_root (by decide +kernel)
  have zeroCanonical : (0 : Residue m).Canonical := zero_standsFor.canonical
  have nineCanonical : nine.Canonical := by decide +kernel
  have squareCanonical : (ofNat 113 : Residue m).Canonical := by decide +kernel
  have otherCanonical : (ofNat 3 : Residue m).Canonical := by decide +kernel
  have ne : nine ≠ 0 := by decide +kernel
  refine ⟨order, ?_, ?_, ?_, ?_⟩
  · obtain ⟨result, ok, -, zero, -⟩ := sqrtRatio_meets_contract m order zeroCanonical nineCanonical
    rw [ok, zero rfl]
  · obtain ⟨result, ok, -, -, zero, -⟩ :=
      sqrtRatio_meets_contract m order nineCanonical zeroCanonical
    rw [ok, zero ne rfl]
  · obtain ⟨⟨_, y⟩, ok, -, -, -, root, -⟩ :=
      sqrtRatio_meets_contract m order squareCanonical nineCanonical
    obtain ⟨rfl, square⟩ := root (by decide +kernel) ne (by decide +kernel)
    exact ⟨y, ok, square⟩
  · obtain ⟨⟨_, y⟩, ok, -, -, -, -, root⟩ :=
      sqrtRatio_meets_contract m order otherCanonical nineCanonical
    obtain ⟨rfl, square⟩ := root (by decide +kernel) ne (by decide +kernel)
    exact ⟨y, ok, square⟩

end Residue
end ShortWeierstrass
