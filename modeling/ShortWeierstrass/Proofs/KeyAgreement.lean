/-
# Public keys and shared secrets are multiples of finite points

A private key that is not valid is taken for 1 (`Domain.loaded`), and a raw public key that
encodes no point for the generator (`Domain.peerPoint`). So the number is always from 1 up to the
order and the point is always finite. The order is prime, so the multiple is finite too, and what
is written is its raw encoding (`Domain.keyAgreement_spec`). Two parties write the same secret
because their public keys encode the multiples of the generator by their private keys
(`Domain.sharedSecret_comm`).

Key definitions: `Domain.peerPoint`.
Key theorems: `Domain.sharedSecret_eq`, `Domain.keyAgreement_spec`, `Domain.sharedSecret_comm`.
-/
import Mathlib
import ShortWeierstrass.Proofs.KeyFormat
import ShortWeierstrass.Proofs.Signing

namespace ShortWeierstrass
namespace Domain

variable {L : ℕ} {d : Domain L} [d.Admitted] {publicKey privateKey raw out : Bytes} {q : d.Group}

/-! ### The point of the other party -/

/-- The point that a raw public key is taken for: the generator if it encodes none. -/
noncomputable def peerPoint (d : Domain L) [d.Admitted] (publicKey : Bytes) : d.Group :=
  open Classical in if h : ∃ q, d.IsRaw publicKey q then h.choose else d.generatorPoint

theorem peerPoint_of_isRaw (h : d.IsRaw publicKey q) : d.peerPoint publicKey = q := by
  have encodes : ∃ q, d.IsRaw publicKey q := ⟨q, h⟩
  rw [peerPoint, dif_pos encodes]
  exact encodes.choose_spec.unique h

theorem peerPoint_of_not_isRaw (h : ∀ q, ¬ d.IsRaw publicKey q) :
    d.peerPoint publicKey = d.generatorPoint :=
  dif_neg (not_exists.mpr h)

theorem peerPoint_ne_zero (publicKey : Bytes) : d.peerPoint publicKey ≠ 0 := by
  by_cases encodes : ∃ q, d.IsRaw publicKey q
  · obtain ⟨q, h⟩ := encodes
    rw [peerPoint_of_isRaw h]
    exact h.ne_zero
  · rw [peerPoint_of_not_isRaw (not_exists.mp encodes)]
    exact d.generatorPoint_ne_zero

/-- The point that is read, or the generator. -/
theorem peer_standsFor (publicKey : Bytes) :
    ∃ found, Affine.ofRaw? d.toCurve publicKey = .ok found ∧
      (found.isSome = true ↔ ∃ q, d.IsRaw publicKey q) ∧
      (found.getD d.generator).StandsFor (d.peerPoint publicKey) := by
  rcases Affine.ofRaw?_spec (c := d.toCurve) publicKey with
    ⟨point, q, read, encodes, stands⟩ | ⟨read, noPoint⟩
  · refine ⟨_, read, iff_of_true rfl ⟨q, encodes⟩, ?_⟩
    rw [peerPoint_of_isRaw encodes]
    exact stands
  · refine ⟨_, read, iff_of_false Bool.false_ne_true (not_exists.mpr noPoint), ?_⟩
    rw [peerPoint_of_not_isRaw noPoint]
    exact d.generator_standsFor

/-! ### What is written -/

/-- A shared secret is the raw encoding of the loaded key's multiple of the peer's point. -/
theorem sharedSecret_eq (publicKey : Bytes) (hkey : privateKey.length = d.coordinateBytes)
    (room : 2 * d.coordinateBytes ≤ out.length) :
    ∃ valid raw, d.sharedSecret publicKey privateKey out =
        .ok ⟨valid, raw ++ out.drop (2 * d.coordinateBytes)⟩ ∧
      d.IsRaw raw (d.loaded privateKey.value • d.peerPoint publicKey) ∧
      (valid = true ↔ (∃ q, d.IsRaw publicKey q) ∧ d.IsScalar privateKey.value) := by
  have fits : d.coordinateBytes ≤ 8 * L := d.base.byteLength_le
  obtain ⟨found, read, isSome, stands⟩ := peer_standsFor (d := d) publicKey
  have valid := d.isScalar_loaded privateKey.value
  have scalar := d.ofNat_standsFor valid
  have multiple := mul_standsFor stands.ofAffine (value_lt_two_pow scalar)
  rw [scalar.value_toNat, natCast_val_smul] at multiple
  have affine := multiple.toAffine
  have written := Affine.writeRaw_eq_ok (d.mul (.ofAffine (found.getD d.generator))
    (Residue.ofNat (d.loaded privateKey.value) : d.Scalar).value).toAffine room
  refine ⟨found.isSome && d.IsScalar privateKey.value, _, ?_,
    affine.isRaw (valid.smul_ne_zero (peerPoint_ne_zero publicKey)), ?_⟩
  · rw [sharedSecret, read, d.loadScalar_eq privateKey (by omega)]
    simp only [Bind.bind, Except.bind]
    rw [written]
    rfl
  · rw [Bool.and_eq_true, isSome, decide_eq_true_iff]

/-- **A public key and a shared secret are always the raw encoding of a multiple of a finite
point.** Valid or not, the private key is taken for the number that it is loaded as and the
public key for a point of the group; the outcome is valid exactly if they are what was given,
and what is written passes the check of public keys in either case. -/
theorem keyAgreement_spec (d : Domain L) [d.Admitted] (publicKey privateKey out : Bytes)
    (hkey : privateKey.length = d.coordinateBytes) (hout : out.length = 2 * d.coordinateBytes) :
    (∃ valid raw, d.sharedSecret publicKey privateKey out = .ok ⟨valid, raw⟩ ∧
      d.IsRaw raw (d.loaded privateKey.value • d.peerPoint publicKey) ∧
      (valid = true ↔ (∃ q, d.IsRaw publicKey q) ∧ d.IsScalar privateKey.value) ∧
      d.isPublicKey raw = .ok true) ∧
    ∃ valid raw, d.publicKey privateKey out = .ok ⟨valid, raw⟩ ∧
      d.IsRaw raw (d.loaded privateKey.value • d.generatorPoint) ∧
      (valid = true ↔ d.IsScalar privateKey.value) ∧
      d.isPublicKey raw = .ok true := by
  have rest : out.drop (2 * d.coordinateBytes) = [] := List.drop_of_length_le hout.le
  constructor
  · obtain ⟨valid, raw, e, isRaw, valid_iff⟩ := sharedSecret_eq publicKey hkey hout.ge
    rw [rest, List.append_nil] at e
    exact ⟨valid, raw, e, isRaw, valid_iff, isPublicKey_iff.mpr ⟨_, isRaw⟩⟩
  · obtain ⟨raw, e, isRaw⟩ := publicKey_eq hkey hout.ge
    rw [rest, List.append_nil] at e
    exact ⟨_, raw, e, isRaw, decide_eq_true_iff, isPublicKey_iff.mpr ⟨_, isRaw⟩⟩

/-- The pair `(18, 1)` encodes no point modulo 11, although 18 is 7 and `(7, 1)` is a point: what is
written is the key's multiple of the generator. -/
theorem keyAgreement_spec_mod11 :
    Small.mod11.isPublicKey [7, 1] = .ok true ∧
      Small.mod11.sharedSecret [18, 1] [2] [0xff, 0xff] = .ok ⟨false, [10, 9]⟩ ∧
      Small.mod11.IsRaw [10, 9] (2 • Small.mod11.generatorPoint) ∧
      Small.mod11.isPublicKey [10, 9] = .ok true := by
  have run : Small.mod11.sharedSecret [18, 1] [2] [0xff, 0xff] = .ok ⟨false, [10, 9]⟩ := by
    decide +kernel
  have noPoint : ∀ q, ¬ Small.mod11.IsRaw [18, 1] q := fun q h =>
    absurd h.x_lt (by decide +kernel)
  have key : Small.mod11.loaded (Bytes.value [2]) = 2 := by decide +kernel
  obtain ⟨⟨valid, raw, e, isRaw, -, accepted⟩, -⟩ := keyAgreement_spec Small.mod11 [18, 1] [2]
    [0xff, 0xff] (by decide +kernel) (by decide +kernel)
  rw [run] at e
  cases e
  rw [key, peerPoint_of_not_isRaw noPoint] at isRaw
  exact ⟨by decide +kernel, run, isRaw, accepted⟩

/-! ### Agreement -/

theorem publicKey_of_isRaw (hkey : privateKey.length = d.coordinateBytes)
    (valid : d.IsScalar privateKey.value)
    (isRaw : d.IsRaw raw (privateKey.value • d.generatorPoint))
    (hout : out.length = 2 * d.coordinateBytes) :
    d.publicKey privateKey out = .ok ⟨true, raw⟩ := by
  obtain ⟨raw', e, isRaw'⟩ := publicKey_eq hkey hout.ge
  rw [d.loaded_of_isScalar valid] at isRaw'
  rw [e, isRaw'.bytes_unique isRaw, List.drop_of_length_le hout.le, List.append_nil,
    decide_eq_true valid]

theorem sharedSecret_of_isRaw (hkey : privateKey.length = d.coordinateBytes)
    (valid : d.IsScalar privateKey.value) (peer : d.IsRaw publicKey q)
    (isRaw : d.IsRaw raw (privateKey.value • q)) (hout : out.length = 2 * d.coordinateBytes) :
    d.sharedSecret publicKey privateKey out = .ok ⟨true, raw⟩ := by
  obtain ⟨verdict, raw', e, isRaw', valid_iff⟩ := sharedSecret_eq publicKey hkey hout.ge
  rw [d.loaded_of_isScalar valid, peerPoint_of_isRaw peer] at isRaw'
  rw [e, isRaw'.bytes_unique isRaw, List.drop_of_length_le hout.le, List.append_nil,
    valid_iff.mpr ⟨⟨q, peer⟩, valid⟩]

/-- **Both parties compute the same secret.** From two valid private keys come two public keys and
one shared secret, the same bytes on either side whatever the buffers held; it encodes the
multiple of the generator by the product of the keys. -/
theorem sharedSecret_comm (d : Domain L) [d.Admitted] (a b : Bytes)
    (ha : a.length = d.coordinateBytes) (hb : b.length = d.coordinateBytes)
    (validA : d.IsScalar a.value) (validB : d.IsScalar b.value) :
    ∃ publicA publicB secret, d.IsRaw secret ((a.value * b.value) • d.generatorPoint) ∧
      ∀ out : Bytes, out.length = 2 * d.coordinateBytes →
        d.publicKey a out = .ok ⟨true, publicA⟩ ∧ d.publicKey b out = .ok ⟨true, publicB⟩ ∧
          d.sharedSecret publicB a out = .ok ⟨true, secret⟩ ∧
          d.sharedSecret publicA b out = .ok ⟨true, secret⟩ := by
  obtain ⟨publicA, rawA⟩ := Curve.exists_isRaw (validA.smul_ne_zero d.generatorPoint_ne_zero)
  obtain ⟨publicB, rawB⟩ := Curve.exists_isRaw (validB.smul_ne_zero d.generatorPoint_ne_zero)
  obtain ⟨secret, isRaw⟩ := Curve.exists_isRaw (validA.smul_ne_zero rawB.ne_zero)
  have swap : a.value • b.value • d.generatorPoint = b.value • a.value • d.generatorPoint :=
    smul_comm _ _ _
  refine ⟨publicA, publicB, secret, ?_, fun out hout => ⟨?_, ?_, ?_, ?_⟩⟩
  · rwa [mul_nsmul']
  · exact publicKey_of_isRaw ha validA rawA hout
  · exact publicKey_of_isRaw hb validB rawB hout
  · exact sharedSecret_of_isRaw ha validA rawB isRaw hout
  · rw [swap] at isRaw
    exact sharedSecret_of_isRaw hb validB rawA isRaw hout

/-- The keys 4 and 3 modulo 11 have the public keys `(7, 1)` and `(7, 10)`, and share five times the
generator. -/
theorem sharedSecret_comm_mod11 :
    Small.mod11.publicKey [4] [0, 0] = .ok ⟨true, [7, 1]⟩ ∧
      Small.mod11.publicKey [3] [0, 0] = .ok ⟨true, [7, 10]⟩ ∧
      Small.mod11.sharedSecret [7, 10] [4] [0, 0] = .ok ⟨true, [10, 2]⟩ ∧
      Small.mod11.sharedSecret [7, 1] [3] [0, 0] = .ok ⟨true, [10, 2]⟩ := by
  have keyA : Small.mod11.publicKey [4] [0, 0] = .ok ⟨true, [7, 1]⟩ := by decide +kernel
  have keyB : Small.mod11.publicKey [3] [0, 0] = .ok ⟨true, [7, 10]⟩ := by decide +kernel
  have run : Small.mod11.sharedSecret [7, 10] [4] [0, 0] = .ok ⟨true, [10, 2]⟩ := by
    decide +kernel
  obtain ⟨publicA, publicB, secret, -, agree⟩ := sharedSecret_comm Small.mod11 [4] [3]
    (by decide +kernel) (by decide +kernel) (by decide +kernel) (by decide +kernel)
  obtain ⟨keyA', keyB', secretA, secretB⟩ := agree [0, 0] (by decide +kernel)
  rw [keyA] at keyA'
  cases keyA'
  rw [keyB] at keyB'
  cases keyB'
  rw [run] at secretA
  cases secretA
  exact ⟨keyA, keyB, run, secretB⟩

end Domain
end ShortWeierstrass
