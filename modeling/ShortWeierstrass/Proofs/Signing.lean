/-
# Signatures are what they are defined to be, and are accepted

Signing a digest with the scalar `z` by the key `d` and the nonce `k` gives `r`, the first
coordinate of `k G` modulo the order, and `s = (z + r d) / k`
(`Domain.signScalars_standsFor`). If neither is zero, the commitment of verification is `k G`
again (`Domain.commitment_signed`), so the public key of `d` accepts the signature.

Signing writes these two scalars always: where the key or the nonce is not valid, those of the
key or the nonce 1 (`Domain.signDigest_spec`).

Key theorems: `Domain.signScalars_standsFor`, `Domain.commitment_signed`,
`Domain.verify_signed`, `Domain.signDigest_spec`.
-/
import Mathlib
import ShortWeierstrass.Key.Agreement
import ShortWeierstrass.Proofs.Verification

namespace ShortWeierstrass
namespace Domain

variable {L : ℕ} {d : Domain L} [d.Admitted]

/-! ### Signatures as scalars -/

theorem signScalars_standsFor {key nonce z : d.Scalar} {a b c : d.order.Ring}
    (hkey : key.StandsFor a) (hnonce : nonce.StandsFor b) (hz : z.StandsFor c) :
    let r := d.firstScalar (b.val • d.generatorPoint)
    (d.signScalars key nonce z).r.StandsFor r ∧
      (d.signScalars key nonce z).s.StandsFor (b⁻¹ * (c + r * a)) := by
  intro r
  have multiple := mulGenerator_standsFor d.basePoint_standsFor (value_lt_two_pow hnonce)
  rw [hnonce.value_toNat] at multiple
  have first := firstScalar_standsFor multiple
  exact ⟨first, hnonce.inverseOrZero.mul (hz.add (first.mul hkey))⟩

theorem isProper_iff {signature : Signature d} {a b : d.order.Ring} (hr : signature.r.StandsFor a)
    (hs : signature.s.StandsFor b) : signature.isProper = true ↔ a ≠ 0 ∧ b ≠ 0 := by
  rw [Signature.isProper, Bool.and_eq_true, Bool.not_eq_true', Bool.not_eq_true',
    ← Bool.not_eq_true, ← Bool.not_eq_true, hr.isZero_iff, hs.isZero_iff]

/-- The commitment of the signature by a key and a nonce is the nonce's multiple of the
generator. -/
theorem commitment_signed {z r key nonce : d.order.Ring} (nonce_ne : nonce ≠ 0)
    (s_ne : nonce⁻¹ * (z + r * key) ≠ 0) :
    d.commitment z r (nonce⁻¹ * (z + r * key)) (key.val • d.generatorPoint) =
      nonce.val • d.generatorPoint := by
  have sum_ne : z + r * key ≠ 0 := right_ne_zero_of_mul s_ne
  rw [commitment, ← mul_val_smul, ← add_val_smul]
  congr 2
  field_simp

/-! ### Signatures and public keys as bytes -/

omit [d.Admitted] in
/-- What signing writes, for keys and nonces of any number. -/
theorem signDigest_eq {digest key nonce out : Bytes} {z : d.Scalar}
    (hkey : key.length = d.coordinateBytes) (hnonce : nonce.length = d.coordinateBytes)
    (hz : d.digestScalar digest = .ok z) (room : 2 * d.coordinateBytes ≤ out.length) :
    let signature := d.signScalars (.ofNat (d.loaded key.value)) (.ofNat (d.loaded nonce.value)) z
    d.signDigest digest key nonce out = .ok
      ⟨d.IsScalar key.value && d.IsScalar nonce.value && signature.isProper,
        signature.r.value.toBytes d.coordinateBytes ++ signature.s.value.toBytes d.coordinateBytes
          ++ out.drop (2 * d.coordinateBytes)⟩ := by
  intro signature
  have fits : d.coordinateBytes ≤ 8 * L := d.base.byteLength_le
  have written := Bytes.writePair_eq_ok signature.r.value signature.s.value fits room
  rw [signDigest, d.loadScalar_eq key (by omega), d.loadScalar_eq nonce (by omega), hz]
  simp only [Bind.bind, Except.bind]
  rw [written]
  rfl

omit [d.Admitted] in
theorem length_scalarBytes (x : d.Scalar) :
    (x.value.toBytes d.coordinateBytes).length = d.coordinateBytes :=
  x.value.length_toBytes _ d.base.byteLength_le

theorem value_scalarBytes {x : d.Scalar} {a : d.order.Ring} (h : x.StandsFor a) :
    Bytes.value (x.value.toBytes d.coordinateBytes) = a.val :=
  h.value_toBytes d.base.byteLength_le d.order_lt_pow.le

theorem IsScalar.smul_ne_zero {n : ℕ} (h : d.IsScalar n) {g : d.Group} (finite : g ≠ 0) :
    n • g ≠ 0 := by
  rw [← natCast_val_smul, ne_eq, val_smul_eq_zero_iff]
  exact not_or.mpr ⟨d.natCast_ne_zero h, finite⟩

theorem isScalar_smul_ne_zero {n : ℕ} (h : d.IsScalar n) : n • d.generatorPoint ≠ 0 :=
  h.smul_ne_zero d.generatorPoint_ne_zero

/-- A public key is the raw encoding of the key's multiple of the generator. -/
theorem publicKey_eq {key out : Bytes} (hkey : key.length = d.coordinateBytes)
    (room : 2 * d.coordinateBytes ≤ out.length) :
    ∃ raw, d.publicKey key out = .ok
        ⟨d.IsScalar key.value, raw ++ out.drop (2 * d.coordinateBytes)⟩ ∧
      d.IsRaw raw (d.loaded key.value • d.generatorPoint) := by
  have fits : d.coordinateBytes ≤ 8 * L := d.base.byteLength_le
  have valid := d.isScalar_loaded key.value
  have scalar := d.ofNat_standsFor valid
  have multiple := mulGenerator_standsFor d.basePoint_standsFor (value_lt_two_pow scalar)
  rw [scalar.value_toNat, natCast_val_smul] at multiple
  have affine := multiple.toAffine
  have written := Affine.writeRaw_eq_ok
    (d.mulGenerator (Residue.ofNat (d.loaded key.value) : d.Scalar).value).toAffine room
  refine ⟨_, ?_, affine.isRaw (isScalar_smul_ne_zero valid)⟩
  rw [publicKey, d.loadScalar_eq key (by omega)]
  simp only [Bind.bind, Except.bind]
  rw [written]
  rfl

/-! ### Signing and verifying -/

/-- A signature without a zero fits the point of its key. -/
theorem hasFirst_signed {key nonce z : d.Scalar} {a b c : d.order.Ring} (hkey : key.StandsFor a)
    (hnonce : nonce.StandsFor b) (hz : z.StandsFor c) (nonce_ne : b ≠ 0)
    (proper : (d.signScalars key nonce z).isProper = true) :
    ∃ ρ σ, (d.signScalars key nonce z).r.StandsFor ρ ∧ (d.signScalars key nonce z).s.StandsFor σ ∧
      ρ ≠ 0 ∧ σ ≠ 0 ∧ d.HasFirst (d.commitment c ρ σ (a.val • d.generatorPoint)) ρ.val := by
  obtain ⟨hr, hs⟩ := signScalars_standsFor hkey hnonce hz
  rw [isProper_iff hr hs] at proper
  refine ⟨_, _, hr, hs, proper.1, proper.2, ?_⟩
  rw [commitment_signed nonce_ne proper.2, hasFirst_iff]
  refine ⟨?_, rfl⟩
  rw [ne_eq, val_smul_generatorPoint_eq_zero_iff]
  exact nonce_ne

/-- **Every signature that signing calls valid is accepted.** -/
theorem verify_signed (d : Domain L) [d.Admitted] (digest key nonce out publicOut : Bytes)
    (hkey : key.length = d.coordinateBytes) (hnonce : nonce.length = d.coordinateBytes)
    (room : 2 * d.coordinateBytes ≤ out.length)
    (publicRoom : 2 * d.coordinateBytes ≤ publicOut.length) :
    ∃ signed, d.signDigest digest key nonce out = .ok signed ∧
      (signed.valid = true → ∃ written, d.publicKey key publicOut = .ok ⟨true, written⟩ ∧
        d.verifyDigest digest (written.take (2 * d.coordinateBytes))
          (signed.out.take d.coordinateBytes)
          ((signed.out.drop d.coordinateBytes).take d.coordinateBytes) = .ok true) := by
  obtain ⟨z, zRead, hz⟩ := digestScalar_spec Admitted.order_lt Admitted.lt_two_mul (d := d) digest
  refine ⟨_, signDigest_eq hkey hnonce zRead room, ?_⟩
  intro valid
  simp only [Bool.and_eq_true, decide_eq_true_iff] at valid
  obtain ⟨⟨validKey, -⟩, proper⟩ := valid
  have nonceScalar := d.isScalar_loaded nonce.value
  obtain ⟨ρ, σ, hr, hs, ρ_ne, σ_ne, first⟩ := hasFirst_signed
    (d.ofNat_standsFor (d.isScalar_loaded key.value)) (d.ofNat_standsFor nonceScalar) hz
    (d.natCast_ne_zero nonceScalar) proper
  rw [natCast_val_smul] at first
  obtain ⟨raw, written, isRaw⟩ := publicKey_eq hkey publicRoom
  rw [decide_eq_true validKey] at written
  refine ⟨_, written, ?_⟩
  have r_length := length_scalarBytes (d.signScalars (.ofNat (d.loaded key.value))
    (.ofNat (d.loaded nonce.value)) z).r
  have s_length := length_scalarBytes (d.signScalars (.ofNat (d.loaded key.value))
    (.ofNat (d.loaded nonce.value)) z).s
  obtain ⟨verdict, run, accepts⟩ := verifyDigest_of_isRaw digest isRaw r_length s_length
  rw [value_scalarBytes hr, value_scalarBytes hs, ZMod.natCast_zmod_val, ZMod.natCast_zmod_val]
    at accepts
  rw [List.take_left' isRaw.length, List.append_assoc, List.take_left' r_length,
    List.drop_left' r_length, List.take_left' s_length, run]
  rw [accepts.mpr ⟨d.isScalar_val ρ_ne, d.isScalar_val σ_ne, first⟩]

/-- The key 4 and the nonce 2 modulo 11: the signature is `(3, 5)`, and the public key
`(7, 1)` accepts it. -/
theorem verify_signed_mod11 :
    Small.mod11.signDigest [0xa5] [4] [2] [0, 0] = .ok ⟨true, [3, 5]⟩ ∧
      Small.mod11.verifyDigest [0xa5] [7, 1] [3] [5] = .ok true := by
  have signed : Small.mod11.signDigest [0xa5] [4] [2] [0, 0] = .ok ⟨true, [3, 5]⟩ := by
    decide +kernel
  have key : Small.mod11.publicKey [4] [0, 0] = .ok ⟨true, [7, 1]⟩ := by decide +kernel
  obtain ⟨signed', run, accepted⟩ := verify_signed Small.mod11 [0xa5] [4] [2] [0, 0] [0, 0]
    (by decide +kernel) (by decide +kernel) (by decide +kernel) (by decide +kernel)
  rw [signed] at run
  cases run
  obtain ⟨written, key', verified⟩ := accepted rfl
  rw [key] at key'
  cases key'
  exact ⟨signed, verified⟩

/-! ### What signing writes -/

/-- **Signing computes the signature of what is loaded, and always writes it.** What is written
depends on the digest, the loaded key and the loaded nonce only; a number that is not valid is
loaded as 1. It is the two scalars of the definition on `n` bytes each, and signing says whether
they are a signature by what was given. -/
theorem signDigest_spec (d : Domain L) [d.Admitted] (digest : Bytes) :
    ∃ written : ℕ → ℕ → Bytes, ∀ key nonce out : Bytes, key.length = d.coordinateBytes →
      nonce.length = d.coordinateBytes → out.length = 2 * d.coordinateBytes →
        ∃ (valid : Bool) (r s : d.order.Ring) (rBytes sBytes : Bytes),
          d.signDigest digest key nonce out =
            .ok ⟨valid, written (d.loaded key.value) (d.loaded nonce.value)⟩ ∧
          written (d.loaded key.value) (d.loaded nonce.value) = rBytes ++ sBytes ∧
          (rBytes.length = d.coordinateBytes ∧ rBytes.value = r.val) ∧
          (sBytes.length = d.coordinateBytes ∧ sBytes.value = s.val) ∧
          d.HasFirst (d.loaded nonce.value • d.generatorPoint) r.val ∧
          s = (d.loaded nonce.value : d.order.Ring)⁻¹ *
            (digest.leftmostBits d.order.bitLength + r * d.loaded key.value) ∧
          (valid = true ↔ d.IsScalar key.value ∧ d.IsScalar nonce.value ∧ r ≠ 0 ∧ s ≠ 0) := by
  obtain ⟨z, zRead, hz⟩ := digestScalar_spec Admitted.order_lt Admitted.lt_two_mul (d := d) digest
  refine ⟨fun a b =>
    (d.signScalars (.ofNat a) (.ofNat b) z).r.value.toBytes d.coordinateBytes ++
      (d.signScalars (.ofNat a) (.ofNat b) z).s.value.toBytes d.coordinateBytes, ?_⟩
  intro key nonce out hkey hnonce length
  have keyScalar := d.isScalar_loaded key.value
  have nonceScalar := d.isScalar_loaded nonce.value
  have signed := signDigest_eq hkey hnonce zRead length.ge
  simp only [List.drop_of_length_le length.le, List.append_nil] at signed
  obtain ⟨hr, hs⟩ := signScalars_standsFor (d.ofNat_standsFor keyScalar)
    (d.ofNat_standsFor nonceScalar) hz
  rw [natCast_val_smul] at hr hs
  refine ⟨_, _, _, _, _, signed, rfl, ⟨length_scalarBytes _, value_scalarBytes hr⟩,
    ⟨length_scalarBytes _, value_scalarBytes hs⟩, ?_, rfl, ?_⟩
  · exact hasFirst_iff.mpr ⟨isScalar_smul_ne_zero nonceScalar, rfl⟩
  · simp only [Bool.and_eq_true, decide_eq_true_iff, isProper_iff hr hs, and_assoc]

/-- The key 0 and the nonce 9 modulo 11 are not valid: what is written over the old content is the
signature by the key 1 and the nonce 1. -/
theorem signDigest_spec_mod11 :
    Small.mod11.signDigest [0xa5] [1] [1] [0, 0] = .ok ⟨true, [6, 4]⟩ ∧
      Small.mod11.signDigest [0xa5] [0] [9] [0xff, 0xff] = .ok ⟨false, [6, 4]⟩ ∧
      Small.mod11.HasFirst (1 • Small.mod11.generatorPoint) 6 := by
  have proper : Small.mod11.signDigest [0xa5] [1] [1] [0, 0] = .ok ⟨true, [6, 4]⟩ := by
    decide +kernel
  have one : Small.mod11.loaded (Bytes.value [1]) = 1 := by decide +kernel
  have key : Small.mod11.loaded (Bytes.value [0]) = 1 := by decide +kernel
  have nonce : Small.mod11.loaded (Bytes.value [9]) = 1 := by decide +kernel
  obtain ⟨written, computes⟩ := signDigest_spec Small.mod11 [0xa5]
  obtain ⟨_, _, _, _, _, signed, -⟩ :=
    computes [1] [1] [0, 0] (by decide +kernel) (by decide +kernel) (by decide +kernel)
  obtain ⟨valid, r, s, rBytes, sBytes, replaced, parts, ⟨r_length, r_value⟩, -, first, -,
      valid_iff⟩ :=
    computes [0] [9] [0xff, 0xff] (by decide +kernel) (by decide +kernel) (by decide +kernel)
  rw [proper, one] at signed
  rw [key, nonce] at replaced parts
  rw [nonce] at first
  have bytes : [6, 4] = written 1 1 := congrArg Outcome.out (Except.ok.inj signed)
  have refused : valid = false := Bool.eq_false_iff.mpr fun h =>
    absurd (valid_iff.mp h).1 (by decide +kernel)
  have r_eq : [6] = rBytes := List.append_inj_left (bytes.trans parts) r_length.symm
  rw [← bytes, refused] at replaced
  rw [← r_value, ← r_eq] at first
  exact ⟨proper, replaced, first⟩

end Domain
end ShortWeierstrass
