/-
# What verification accepts

For a digest whose leftmost bits make `z`, and a public key `Q`, a signature `(r, s)` is
checked against the point `(z / s) G + (r / s) Q` (`Domain.commitment`): it is accepted if that is
a finite point whose first coordinate is `r` modulo the order. `Domain.verifyDigest_iff` says
so of the bytes: a public key that encodes no point and numbers out of range are turned down,
and nothing else is.

Key definitions: `Domain.commitment`, `Domain.HasFirst`, `Domain.firstScalar`.
Key theorems: `Domain.verifyScalars_iff`, `Domain.verifyDigest_iff`.
-/
import Mathlib
import ShortWeierstrass.Proofs.AdmittedDomain
import ShortWeierstrass.Proofs.ScalarBytes
import ShortWeierstrass.Signature

namespace ShortWeierstrass
namespace Domain

variable {L : ℕ} {d : Domain L}

/-- The point that a signature is checked against. -/
def commitment (d : Domain L) [d.Admitted] (z r s : d.order.Ring) (q : d.Group) : d.Group :=
  (z / s).val • d.generatorPoint + (r / s).val • q

/-- A finite point whose first coordinate, modulo the order, is `r`. -/
def HasFirst (d : Domain L) (g : d.Group) (r : ℕ) : Prop :=
  ∃ x y on, g = .some x y on ∧ x.val % d.order.value.toNat = r

/-- The class of the first coordinate, as a number, modulo the order; zero for the identity. -/
def firstScalar (d : Domain L) : d.Group → d.order.Ring
  | .zero => 0
  | .some x _ _ => x.val

theorem hasFirst_iff {g : d.Group} {a : d.order.Ring} :
    d.HasFirst g a.val ↔ g ≠ 0 ∧ d.firstScalar g = a := by
  have same : ∀ n : ℕ, n % d.order.value.toNat = a.val ↔ (n : d.order.Ring) = a := fun n => by
    rw [← ZMod.val_natCast, (ZMod.val_injective _).eq_iff]
  constructor
  · rintro ⟨x, y, on, rfl, first⟩
    exact ⟨WeierstrassCurve.Affine.Point.some_ne_zero on, (same x.val).mp first⟩
  · rintro ⟨finite, first⟩
    cases g with
    | zero => exact absurd rfl finite
    | some x y on => exact ⟨x, y, on, rfl, (same x.val).mpr first⟩

theorem HasFirst.ne_zero {g : d.Group} {r : ℕ} (h : d.HasFirst g r) : g ≠ 0 := by
  obtain ⟨x, y, on, rfl, -⟩ := h
  exact WeierstrassCurve.Affine.Point.some_ne_zero on

theorem value_lt_two_pow {x : d.Scalar} {a : d.order.Ring} (h : x.StandsFor a) :
    x.value.toNat < 2 ^ d.order.bitLength := by
  rw [h.value_toNat]
  exact a.val_lt.trans d.order.value.toNat_lt_two_pow_bitLength

variable [d.Admitted]

theorem firstScalar_standsFor {p : Jacobian d.toCurve} {g : d.Group} (h : p.StandsFor g) :
    (d.toScalar p.toAffine.x).StandsFor (d.firstScalar g) := by
  have affine := h.toAffine
  generalize p.toAffine = q at affine
  cases affine with
  | infinity =>
    exact (d.toScalar_standsFor Residue.zero_standsFor).congr (by simp [firstScalar])
  | finite hx _ => exact d.toScalar_standsFor hx

/-- The scalars of a signature are checked against the commitment. -/
theorem verifyScalars_iff {publicKey : Affine d.toCurve} {q : d.Group} {z r s : d.Scalar}
    {a b c : d.order.Ring} (hq : publicKey.StandsFor q) (hz : z.StandsFor a)
    (hr : r.StandsFor b) (hs : s.StandsFor c) :
    d.verifyScalars publicKey z ⟨r, s⟩ = true ↔ d.HasFirst (d.commitment a b c q) b.val := by
  have inverse := hs.inverseOrZero
  have u₁ := hz.mul inverse
  have u₂ := hr.mul inverse
  have point := mulGeneratorAdd_standsFor d.basePoint_standsFor hq.ofAffine
    (value_lt_two_pow u₁) (value_lt_two_pow u₂)
  rw [u₁.value_toNat, u₂.value_toNat, ← div_eq_mul_inv, ← div_eq_mul_inv] at point
  have identity := point.isIdentity_iff.not
  have first := (firstScalar_standsFor point).eq_iff hr
  rw [Bool.not_eq_true] at identity
  rw [verifyScalars, Bool.and_eq_true, Bool.not_eq_true', decide_eq_true_iff, hasFirst_iff]
  exact and_congr identity first

/-! ### The verdict on bytes -/

variable (digest : Bytes) {publicKey r s : Bytes}

omit [d.Admitted] in
theorem verifyDigest_of_none (read : Affine.ofRaw? d.toCurve publicKey = .ok none) :
    d.verifyDigest digest publicKey r s = .ok false := by
  rw [verifyDigest, read]
  rfl

omit [d.Admitted] in
theorem verifyDigest_of_some {q : Affine d.toCurve}
    (read : Affine.ofRaw? d.toCurve publicKey = .ok (some q)) (hr : r.length = d.coordinateBytes)
    (hs : s.length = d.coordinateBytes) :
    d.verifyDigest digest publicKey r s =
      if d.IsScalar r.value ∧ d.IsScalar s.value then do
        let z ← d.digestScalar digest
        return d.verifyScalars q z ⟨.ofNat r.value, .ofNat s.value⟩
      else return false := by
  have fits : d.coordinateBytes ≤ 8 * L := d.base.byteLength_le
  have loadR := d.loadScalar_eq r (by omega)
  have loadS := d.loadScalar_eq s (by omega)
  rw [verifyDigest, read]
  simp only [Bind.bind, Except.bind, loadR, loadS, Bool.and_eq_true, decide_eq_true_iff]
  by_cases valid : d.IsScalar r.value ∧ d.IsScalar s.value
  · rw [if_pos valid, if_pos valid, d.loaded_of_isScalar valid.1, d.loaded_of_isScalar valid.2]
  · rw [if_neg valid, if_neg valid]

theorem verifyDigest_of_isRaw {q : d.Group} (raw : d.IsRaw publicKey q)
    (hr : r.length = d.coordinateBytes) (hs : s.length = d.coordinateBytes) :
    ∃ verdict, d.verifyDigest digest publicKey r s = .ok verdict ∧
      (verdict = true ↔ d.IsScalar r.value ∧ d.IsScalar s.value ∧
        d.HasFirst (d.commitment (digest.leftmostBits d.order.bitLength) r.value s.value q)
          r.value) := by
  rcases Affine.ofRaw?_spec (c := d.toCurve) publicKey with
    ⟨point, g, read, raw', stands⟩ | ⟨-, noPoint⟩
  · rw [raw'.unique raw] at stands
    rw [verifyDigest_of_some digest read hr hs]
    by_cases valid : d.IsScalar r.value ∧ d.IsScalar s.value
    · obtain ⟨z, zRead, hz⟩ :=
        digestScalar_spec Admitted.order_lt Admitted.lt_two_mul (d := d) digest
      have accepts := verifyScalars_iff stands hz (d.ofNat_standsFor valid.1)
        (d.ofNat_standsFor valid.2)
      rw [ZMod.val_natCast_of_lt valid.1.2] at accepts
      rw [if_pos valid, zRead]
      exact ⟨_, rfl, accepts.trans ⟨fun h => ⟨valid.1, valid.2, h⟩, fun h => h.2.2⟩⟩
    · rw [if_neg valid]
      exact ⟨false, rfl, iff_of_false Bool.false_ne_true fun h => valid ⟨h.1, h.2.1⟩⟩
  · exact absurd raw (noPoint q)

/-- **Verification accepts what the group accepts, and nothing else.** Two strings of a
coordinate's length always get a verdict, whatever the public key and the digest. It is positive
exactly if the public key is the raw encoding of a point, both numbers are from 1 up to the
order, and the first coordinate of the commitment is the first number, modulo the order. -/
theorem verifyDigest_iff (d : Domain L) [d.Admitted] (digest publicKey r s : Bytes)
    (hr : r.length = d.coordinateBytes) (hs : s.length = d.coordinateBytes) :
    ∃ verdict, d.verifyDigest digest publicKey r s = .ok verdict ∧
      (verdict = true ↔ ∃ q, d.IsRaw publicKey q ∧ d.IsScalar r.value ∧ d.IsScalar s.value ∧
        d.HasFirst (d.commitment (digest.leftmostBits d.order.bitLength) r.value s.value q)
          r.value) := by
  rcases Affine.ofRaw?_spec (c := d.toCurve) publicKey with
    ⟨q, g, read, raw, stands⟩ | ⟨read, noPoint⟩
  · obtain ⟨verdict, run, accepts⟩ := verifyDigest_of_isRaw digest raw hr hs
    refine ⟨verdict, run, accepts.trans ⟨fun h => ⟨g, raw, h⟩, ?_⟩⟩
    rintro ⟨g', raw', h⟩
    rwa [raw.unique raw']
  · refine ⟨false, verifyDigest_of_none digest read, ?_⟩
    exact iff_of_false Bool.false_ne_true fun ⟨g, raw, _⟩ => noPoint g raw

/-- The commitment of an accepted signature may have a first coordinate above the order,
here 10 above 7. -/
theorem verifyDigest_iff_mod11 :
    ∃ q, Small.mod11.IsRaw [7, 1] q ∧
      Small.mod11.HasFirst (Small.mod11.commitment (5 : ℕ) (3 : ℕ) (5 : ℕ) q) 3 := by
  have run : Small.mod11.verifyDigest [0xa5] [7, 1] [3] [5] = .ok true := by decide +kernel
  obtain ⟨verdict, run', accepts⟩ := verifyDigest_iff Small.mod11 [0xa5] [7, 1] [3] [5]
    (by decide +kernel) (by decide +kernel)
  rw [run] at run'
  cases run'
  obtain ⟨q, raw, -, -, first⟩ := accepts.mp rfl
  have bits : Bytes.leftmostBits [0xa5] Small.mod11.order.bitLength = 5 := by decide +kernel
  rw [bits] at first
  exact ⟨q, raw, first⟩

end Domain
end ShortWeierstrass
