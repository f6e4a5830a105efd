/-
# Signing with a secret key

A secret key signs as the string of its bytes does, up to the layout: it writes the two numbers on
as many bytes each as the order has (`SecretKey.sign_eq`), where `Domain.signDigest` writes them on
as many as a coordinate has (`SecretKey.signDigest_toBytes_eq`). Whether the signature is valid does
not depend on that. If both lengths are the same, the two write the same bytes, and the signature
is accepted by the key's public point; if the order is shorter, the end of the buffer keeps what it
held, and some buffer shows the difference (`SecretKey.signsAsBytes_iff`).

Key definitions: `SecretKey.SignsAsBytes`.
Key theorems: `SecretKey.sign_eq`, `SecretKey.signDigest_toBytes_eq`, `Domain.verifyDigest_proper`,
`SecretKey.signsAsBytes_iff`.
-/
import Mathlib
import ShortWeierstrass.Proofs.GroupOrder
import ShortWeierstrass.Proofs.ScalarAction
import ShortWeierstrass.Proofs.SecretKeys

namespace ShortWeierstrass

variable {L : ℕ} {d : Domain L} [d.Admitted]

/-! ### The signature of a key and its public point -/

/-- A signature without a zero is accepted by the encoding of the key's multiple of the
generator. -/
theorem Domain.verifyDigest_proper {digest raw : Bytes} {key nonce z : d.Scalar}
    {a b : d.order.Ring} (hkey : key.StandsFor a) (hnonce : nonce.StandsFor b)
    (hz : z.StandsFor (digest.leftmostBits d.order.bitLength : d.order.Ring)) (nonce_ne : b ≠ 0)
    (isRaw : d.IsRaw raw (a.val • d.generatorPoint))
    (proper : (d.signScalars key nonce z).isProper = true) :
    d.verifyDigest digest raw ((d.signScalars key nonce z).r.value.toBytes d.coordinateBytes)
      ((d.signScalars key nonce z).s.value.toBytes d.coordinateBytes) = .ok true := by
  obtain ⟨ρ, σ, hr, hs, ρ_ne, σ_ne, first⟩ := hasFirst_signed hkey hnonce hz nonce_ne proper
  obtain ⟨verdict, run, accepts⟩ := verifyDigest_of_isRaw digest isRaw
    (length_scalarBytes (d.signScalars key nonce z).r)
    (length_scalarBytes (d.signScalars key nonce z).s)
  rw [value_scalarBytes hr, value_scalarBytes hs, ZMod.natCast_zmod_val, ZMod.natCast_zmod_val]
    at accepts
  rw [run, accepts.mpr ⟨d.isScalar_val ρ_ne, d.isScalar_val σ_ne, first⟩]

namespace SecretKey

variable (key : SecretKey d) {digest nonce out : Bytes} {z : d.Scalar}

theorem publicPoint_isRaw :
    d.IsRaw key.publicPoint.toRaw ((key.value.toNat : d.order.Ring).val • d.generatorPoint) := by
  have multiple := Domain.mulGenerator_scalar_standsFor (scalar_standsFor key.value_lt)
  refine multiple.toAffine.isRaw ?_
  rw [ne_eq, Domain.val_smul_generatorPoint_eq_zero_iff]
  exact d.natCast_ne_zero key.isScalar

/-! ### What is written -/

omit [d.Admitted] in
theorem sign_eq (hnonce : nonce.length = d.coordinateBytes) (hz : d.digestScalar digest = .ok z)
    (room : 2 * d.order.byteLength ≤ out.length) :
    let signature := d.signScalars key.scalar (.ofNat (d.loaded nonce.value)) z
    key.sign digest nonce out = .ok
      ⟨d.IsScalar nonce.value && signature.isProper,
        signature.r.value.toBytes d.order.byteLength
          ++ signature.s.value.toBytes d.order.byteLength
          ++ out.drop (2 * d.order.byteLength)⟩ := by
  intro signature
  have fits : d.coordinateBytes ≤ 8 * L := d.base.byteLength_le
  have written := Bytes.writePair_eq_ok signature.r.value signature.s.value d.order.byteLength_le
    room
  rw [sign, d.loadScalar_eq nonce (by omega), hz]
  simp only [Bind.bind, Except.bind]
  rw [written]
  rfl

theorem signDigest_toBytes_eq (hnonce : nonce.length = d.coordinateBytes)
    (hz : d.digestScalar digest = .ok z) (room : 2 * d.coordinateBytes ≤ out.length) :
    let signature := d.signScalars key.scalar (.ofNat (d.loaded nonce.value)) z
    d.signDigest digest key.toBytes nonce out = .ok
      ⟨d.IsScalar nonce.value && signature.isProper,
        signature.r.value.toBytes d.coordinateBytes ++ signature.s.value.toBytes d.coordinateBytes
          ++ out.drop (2 * d.coordinateBytes)⟩ := by
  intro signature
  have valid : d.IsScalar (Bytes.value key.toBytes) := by
    rw [value_toBytes key.value_lt]
    exact key.isScalar
  have signed := Domain.signDigest_eq key.length_toBytes hnonce hz room
  rw [d.loaded_of_isScalar valid, decide_eq_true valid, Bool.true_and, ← key.scalar_eq_ofNat]
    at signed
  exact signed

/-! ### Agreement -/

omit [d.Admitted] in
/-- A secret key signs as its bytes do: the outcome is the same, and if it is valid, the buffer is
cut in the middle into two numbers that the key's public point accepts. -/
def SignsAsBytes (digest nonce out : Bytes) : Prop :=
  ∃ outcome, key.sign digest nonce out = .ok outcome ∧
    d.signDigest digest key.toBytes nonce out = .ok outcome ∧
    (outcome.valid = true → d.verifyDigest digest key.publicPoint.toRaw
      (outcome.out.take d.coordinateBytes) (outcome.out.drop d.coordinateBytes) = .ok true)

variable {key}

theorem SignsAsBytes.written_eq (agree : key.SignsAsBytes digest nonce out)
    (hnonce : nonce.length = d.coordinateBytes) (hz : d.digestScalar digest = .ok z)
    (shorter : d.order.byteLength ≤ d.coordinateBytes) (room : 2 * d.coordinateBytes ≤ out.length) :
    let signature := d.signScalars key.scalar (.ofNat (d.loaded nonce.value)) z
    signature.r.value.toBytes d.order.byteLength ++ signature.s.value.toBytes d.order.byteLength
        ++ out.drop (2 * d.order.byteLength) =
      signature.r.value.toBytes d.coordinateBytes ++ signature.s.value.toBytes d.coordinateBytes
        ++ out.drop (2 * d.coordinateBytes) := by
  intro signature
  obtain ⟨outcome, run, bytesRun, -⟩ := agree
  rw [key.sign_eq hnonce hz (by omega)] at run
  rw [key.signDigest_toBytes_eq hnonce hz room, ← run] at bytesRun
  exact (congrArg Outcome.out (Except.ok.inj bytesRun)).symm

theorem signsAsBytes_of_byteLength_eq (key : SecretKey d) (digest : Bytes)
    (hnonce : nonce.length = d.coordinateBytes) (hout : out.length = 2 * d.coordinateBytes)
    (same : d.order.byteLength = d.coordinateBytes) : key.SignsAsBytes digest nonce out := by
  obtain ⟨z, read, hz⟩ := Domain.digestScalar_spec Domain.Admitted.order_lt
    Domain.Admitted.lt_two_mul (d := d) digest
  have room : 2 * d.order.byteLength ≤ out.length := by omega
  have signed := key.sign_eq hnonce read room
  rw [same] at signed
  refine ⟨_, signed, key.signDigest_toBytes_eq hnonce read hout.ge, fun valid => ?_⟩
  obtain ⟨-, proper⟩ := (Bool.and_eq_true _ _).mp valid
  have nonceScalar := d.isScalar_loaded nonce.value
  have r_length := Domain.length_scalarBytes (d.signScalars key.scalar
    (.ofNat (d.loaded nonce.value)) z).r
  rw [List.drop_of_length_le hout.le, List.append_nil, List.take_left' r_length,
    List.drop_left' r_length]
  exact Domain.verifyDigest_proper (scalar_standsFor key.value_lt) (d.ofNat_standsFor nonceScalar)
    hz (d.natCast_ne_zero nonceScalar) key.publicPoint_isRaw proper

/-- **A secret key signs as its bytes do, exactly if the order is as long as a coordinate.** The
verdict is the same on every curve, and whatever the buffer held. The bytes are the same, and
accepted by the key's public point, for all contents of the buffer exactly if the order has as
many bytes as a coordinate. -/
theorem signsAsBytes_iff (d : Domain L) [d.Admitted] (key : SecretKey d) (digest nonce : Bytes)
    (hnonce : nonce.length = d.coordinateBytes) :
    (∃ valid, ∀ out : Bytes, out.length = 2 * d.coordinateBytes → ∃ written bytesWritten,
      key.sign digest nonce out = .ok ⟨valid, written⟩ ∧
        d.signDigest digest key.toBytes nonce out = .ok ⟨valid, bytesWritten⟩) ∧
    ((∀ out : Bytes, out.length = 2 * d.coordinateBytes → key.SignsAsBytes digest nonce out) ↔
      d.order.byteLength = d.coordinateBytes) := by
  obtain ⟨z, read, -⟩ := Domain.digestScalar_spec Domain.Admitted.order_lt
    Domain.Admitted.lt_two_mul (d := d) digest
  have shorter : d.order.byteLength ≤ d.coordinateBytes := by
    have bits := Domain.order_bitLength_le (d := d) Domain.Admitted.order_lt
    unfold Modulus.byteLength
    omega
  refine ⟨⟨_, fun out hout => ⟨_, _, key.sign_eq hnonce read (by omega),
    key.signDigest_toBytes_eq hnonce read hout.ge⟩⟩, fun agree => ?_, fun same out hout =>
      key.signsAsBytes_of_byteLength_eq digest hnonce hout same⟩
  -- A buffer of zeros and one of ones keep different ends, and get the same bytes in front.
  by_contra differ
  have length : ∀ byte : UInt8, (List.replicate (2 * d.coordinateBytes) byte).length =
      2 * d.coordinateBytes := fun _ => List.length_replicate
  have ends : ∀ byte : UInt8, _ := fun byte =>
    (agree _ (length byte)).written_eq hnonce read shorter (length byte).ge
  simp only [List.drop_replicate, Nat.sub_self, List.replicate_zero] at ends
  have same := List.append_cancel_left ((ends 0).trans (ends 1).symm)
  have nonempty : 2 * d.coordinateBytes - 2 * d.order.byteLength ≠ 0 := by omega
  exact absurd ((List.replicate_inj.mp same).2.resolve_left nonempty) (by decide)

/-- The NIST curves have orders as long as their coordinates. -/
example (curve : Nist) : curve.domain.order.byteLength = curve.domain.coordinateBytes := by
  cases curve <;> decide +kernel

/-- The key 4 modulo 11 signs as its byte does. -/
theorem signsAsBytes_iff_mod11 :
    ∃ key : SecretKey Small.mod11, key.toBytes = [4] ∧
      Small.mod11.order.byteLength = Small.mod11.coordinateBytes ∧
      key.sign [0xa5] [2] [0xff, 0xff] = .ok ⟨true, [3, 5]⟩ ∧
      key.SignsAsBytes [0xa5] [2] [0xff, 0xff] := by
  let key : SecretKey Small.mod11 := ⟨.ofNat 1 4, by decide, by decide +kernel⟩
  have same : Small.mod11.order.byteLength = Small.mod11.coordinateBytes := by decide +kernel
  obtain ⟨-, agree⟩ := signsAsBytes_iff Small.mod11 key [0xa5] [2] (by decide +kernel)
  exact ⟨key, by decide +kernel, same, by decide +kernel,
    agree.mpr same [0xff, 0xff] (by decide +kernel)⟩

/-- The order 241 has one byte, a coordinate modulo 257 has two: the key 4 leaves the end of the
buffer as it was, and its public point does not accept the halves of the buffer. -/
theorem not_signsAsBytes_mod257 :
    Small.mod257.Admitted ∧ ∃ key : SecretKey Small.mod257, key.toBytes = [0, 4] ∧
      key.sign [0xa5] [0, 2] [0xff, 0xff, 0xff, 0xff] = .ok ⟨true, [67, 96, 0xff, 0xff]⟩ ∧
      Small.mod257.signDigest [0xa5] [0, 4] [0, 2] [0xff, 0xff, 0xff, 0xff] =
        .ok ⟨true, [0, 67, 0, 96]⟩ ∧
      Small.mod257.verifyDigest [0xa5] key.publicPoint.toRaw [67, 96] [0xff, 0xff] = .ok false ∧
      ¬ key.SignsAsBytes [0xa5] [0, 2] [0xff, 0xff, 0xff, 0xff] := by
  let key : SecretKey Small.mod257 := ⟨.ofNat 1 4, by decide, by decide +kernel⟩
  have bytes : key.toBytes = [0, 4] := by decide +kernel
  have signed : key.sign [0xa5] [0, 2] [0xff, 0xff, 0xff, 0xff] =
      .ok ⟨true, [67, 96, 0xff, 0xff]⟩ := by decide +kernel
  have bytesSigned : Small.mod257.signDigest [0xa5] [0, 4] [0, 2] [0xff, 0xff, 0xff, 0xff] =
      .ok ⟨true, [0, 67, 0, 96]⟩ := by decide +kernel
  refine ⟨inferInstance, key, bytes, signed, bytesSigned, by decide +kernel, ?_⟩
  rintro ⟨outcome, run, bytesRun, -⟩
  rw [bytes, bytesSigned, ← run, signed] at bytesRun
  exact absurd bytesRun (by decide)

end SecretKey
end ShortWeierstrass
