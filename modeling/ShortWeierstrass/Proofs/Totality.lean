/-
# Every operation on strings of the exact length answers

What can stop an operation is a fault: a string that is too long for a number or too short for the
part that is read from it, or a digest with fewer bits than the order. On strings of the exact
length none of them occurs, since what overwrites the front of a buffer has room there
(`Overwrites.fills`), and a digest of any length is taken, as soon as the bytes of a coordinate hold
the bits of the order (`Domain.exists_digestScalar_eq_ok`); neither the modulus nor the order has
to be prime for that. All three NIST curves are of that kind (`Nist.answers`), and
their windows, tables and shifts stay in range as well (`Nist.stays_in_range`).

Key definitions: `Fills`, `Domain.StaysInRange`, `Nist.Answers`.
Key theorems: `Nist.stays_in_range`, `Nist.answers`, `Nist.never_stops`.
-/
import Mathlib
import ShortWeierstrass.FixedSize
import ShortWeierstrass.Proofs.CheckedLoops
import ShortWeierstrass.Proofs.OutputBuffers

namespace ShortWeierstrass

variable {L : ℕ}

/-- The operation answers, and the buffer is passed on with the length that it had. -/
def Fills (run : Except Fault Outcome) (out : Bytes) : Prop :=
  ∃ outcome, run = .ok outcome ∧ outcome.out.length = out.length

theorem Overwrites.fills {count : ℕ} {op : Bytes → Except Fault Outcome} {valid : Bool}
    {out : Bytes} (h : Overwrites count op (Outcome.mk valid)) (length : out.length = count) :
    Fills (op out) out := by
  obtain ⟨new, run, same⟩ := h.exists_eq_ok length.ge
  exact ⟨_, run, same⟩

/-! ### Keys, signatures and secrets of a domain -/

namespace Domain

variable {d : Domain L} {digest key nonce publicKey r s out : Bytes}

theorem sharedSecret_fills (hkey : key.length = d.coordinateBytes)
    (hout : out.length = 2 * d.coordinateBytes) :
    Fills (d.sharedSecret publicKey key out) out := by
  obtain ⟨valid, overwrites⟩ := sharedSecret_overwrites publicKey hkey
  exact overwrites.fills hout

section

variable (bits : d.order.bitLength ≤ 8 * d.coordinateBytes)

include bits

theorem signDigest_fills (hkey : key.length = d.coordinateBytes)
    (hnonce : nonce.length = d.coordinateBytes) (hout : out.length = 2 * d.coordinateBytes) :
    Fills (d.signDigest digest key nonce out) out := by
  obtain ⟨valid, overwrites⟩ := signDigest_overwrites bits digest hkey hnonce
  exact overwrites.fills hout

theorem exists_verifyDigest_eq_ok (hr : r.length = d.coordinateBytes)
    (hs : s.length = d.coordinateBytes) :
    ∃ verdict, d.verifyDigest digest publicKey r s = .ok verdict := by
  obtain ⟨found, read⟩ := Affine.exists_ofRaw?_eq_ok d.toCurve publicKey
  cases found with
  | none => exact ⟨false, verifyDigest_of_none digest read⟩
  | some q =>
    obtain ⟨z, zRead⟩ := exists_digestScalar_eq_ok bits digest
    rw [verifyDigest_of_some digest read hr hs, zRead]
    by_cases valid : d.IsScalar r.value ∧ d.IsScalar s.value
    · exact ⟨_, if_pos valid⟩
    · exact ⟨_, if_neg valid⟩

end

theorem exists_isPublicKey_eq_ok (key : Bytes) : ∃ verdict, d.isPublicKey key = .ok verdict := by
  obtain ⟨found, read⟩ := Affine.exists_ofRaw?_eq_ok d.toCurve key
  exact ⟨found.isSome, by rw [isPublicKey, read]; rfl⟩

theorem isPrivateKey_eq (hkey : key.length = d.coordinateBytes) :
    d.isPrivateKey key = .ok (d.IsScalar key.value) := by
  have fits : d.coordinateBytes ≤ 8 * L := d.base.byteLength_le
  rw [isPrivateKey, d.loadScalar_eq key (by omega)]
  rfl

end Domain

/-! ### Formats of keys -/

namespace Curve

variable {c : Curve L} {key out : Bytes}

theorem uncompressedToRaw_fills (hkey : key.length = 2 * c.coordinateBytes + 1)
    (hout : out.length = 2 * c.coordinateBytes) :
    Fills (c.uncompressedToRaw key out) out := by
  cases key with
  | nil => cases hkey
  | cons tag body =>
    have body_length : body.length = 2 * c.coordinateBytes := Nat.succ.inj hkey
    by_cases tagged : tag = PointForm.uncompressed.tag
    · rw [tagged]
      exact (uncompressedToRaw_overwrites body_length).fills hout
    · exact ⟨_, uncompressedToRaw_of_tag_ne tagged body out, rfl⟩

theorem compressedToRaw_fills (hkey : key.length = c.coordinateBytes + 1)
    (hout : out.length = 2 * c.coordinateBytes) :
    Fills (c.compressedToRaw key out) out := by
  rcases compressedToRaw_cases hkey with ⟨-, overwrites⟩ | ⟨-, alone⟩
  · exact overwrites.fills hout
  · exact ⟨_, alone out, rfl⟩

end Curve

/-! ### The NIST curves -/

/-- The windows, tables and shifts that the operations of a domain are made of stay in range,
whatever the points, the residues and the numbers are. -/
structure Domain.StaysInRange (d : Domain L) : Prop where
  table : ∀ p : Jacobian d.toCurve,
    Checked.table p = .ok (WindowTable.ofPoint p).entries.toList
  mul : ∀ (p : Jacobian d.toCurve) (k : Limbs L), Checked.mul d p k = .ok (d.mul p k)
  mulGenerator : ∀ k : Limbs L, Checked.mulGenerator d k = .ok (d.mulGenerator k)
  coordinatePow : ∀ (x : Residue d.base) (n : Limbs L), Checked.pow x n = .ok (x.pow n)
  scalarPow : ∀ (x : d.Scalar) (n : Limbs L), Checked.pow x n = .ok (x.pow n)
  digestBits : d.order.bitLength ≤ 8 * d.coordinateBytes
  digestShift : 8 * d.coordinateBytes - d.order.bitLength < 64 * L

namespace Nist

/-- Every operation answers, whatever its strings hold. -/
structure Answers (curve : Nist) : Prop where
  signDigest : ∀ (digest : Bytes) (key nonce : Sized curve.fieldBytes)
    (out : Sized (2 * curve.fieldBytes)), Fills (curve.signDigest digest key nonce out) out.bytes
  signMessage : ∀ (hash : Hash) (message : Bytes) (key nonce : Sized curve.fieldBytes)
    (out : Sized (2 * curve.fieldBytes)),
      Fills (curve.signMessage hash message key nonce out) out.bytes
  verifyDigest : ∀ (digest : Bytes) (publicKey : Sized (2 * curve.fieldBytes))
    (r s : Sized curve.fieldBytes),
      ∃ verdict, curve.verifyDigest digest publicKey r s = .ok verdict
  verifyMessage : ∀ (hash : Hash) (message : Bytes) (publicKey : Sized (2 * curve.fieldBytes))
    (r s : Sized curve.fieldBytes),
      ∃ verdict, curve.verifyMessage hash message publicKey r s = .ok verdict
  publicKey : ∀ (key : Sized curve.fieldBytes) (out : Sized (2 * curve.fieldBytes)),
    Fills (curve.publicKey key out) out.bytes
  sharedSecret : ∀ (publicKey : Sized (2 * curve.fieldBytes)) (key : Sized curve.fieldBytes)
    (out : Sized (2 * curve.fieldBytes)), Fills (curve.sharedSecret publicKey key out) out.bytes
  isPublicKey : ∀ key : Sized (2 * curve.fieldBytes),
    ∃ verdict, curve.isPublicKey key = .ok verdict
  isPrivateKey : ∀ key : Sized curve.fieldBytes, ∃ verdict, curve.isPrivateKey key = .ok verdict
  uncompressedToRaw : ∀ (key : Sized (2 * curve.fieldBytes + 1))
    (out : Sized (2 * curve.fieldBytes)), Fills (curve.uncompressedToRaw key out) out.bytes
  compressedToRaw : ∀ (key : Sized (curve.fieldBytes + 1)) (out : Sized (2 * curve.fieldBytes)),
    Fills (curve.compressedToRaw key out) out.bytes
  rawToUncompressed : ∀ (key : Sized (2 * curve.fieldBytes))
    (out : Sized (2 * curve.fieldBytes + 1)),
      ∃ written, curve.rawToUncompressed key out = .ok written ∧
        written.length = out.bytes.length
  rawToCompressed : ∀ (key : Sized (2 * curve.fieldBytes)) (out : Sized (curve.fieldBytes + 1)),
    ∃ written, curve.rawToCompressed key out = .ok written ∧ written.length = out.bytes.length

theorem order_bits (curve : Nist) :
    curve.domain.order.bitLength ≤ 8 * curve.domain.coordinateBytes := by
  cases curve <;> decide +kernel

/-- All three curves have a comb, of a table for each byte of a scalar. -/
theorem comb_size (curve : Nist) : ∀ comb ∈ curve.domain.comb, comb.size = curve.fieldBytes := by
  cases curve <;> (rintro _ ⟨⟩; rfl)

theorem stays_in_range (curve : Nist) : curve.domain.StaysInRange where
  table := Checked.table_eq
  mul := Checked.mul_eq curve.domain (by cases curve <;> decide)
  mulGenerator := Checked.mulGenerator_eq curve.domain (by cases curve <;> decide)
    fun comb mem => by
      rw [curve.comb_size comb mem]
      cases curve <;> decide
  coordinatePow := Checked.pow_eq (by cases curve <;> decide)
  scalarPow := Checked.pow_eq (by cases curve <;> decide)
  digestBits := curve.order_bits
  digestShift := by cases curve <;> decide +kernel

theorem answers (curve : Nist) : curve.Answers := by
  have bits := curve.order_bits
  -- The lengths of strings of one coordinate and of two, with and without a tag.
  have one : ∀ s : Sized curve.fieldBytes, s.bytes.length = curve.domain.coordinateBytes :=
    fun s => s.length_bytes.trans curve.fieldBytes_eq
  have two : ∀ s : Sized (2 * curve.fieldBytes),
      s.bytes.length = 2 * curve.domain.coordinateBytes :=
    fun s => s.length_bytes.trans (congrArg (2 * ·) curve.fieldBytes_eq)
  have oneTagged : ∀ s : Sized (curve.fieldBytes + 1),
      s.bytes.length = curve.domain.coordinateBytes + 1 :=
    fun s => s.length_bytes.trans (congrArg (· + 1) curve.fieldBytes_eq)
  have twoTagged : ∀ s : Sized (2 * curve.fieldBytes + 1),
      s.bytes.length = 2 * curve.domain.coordinateBytes + 1 :=
    fun s => s.length_bytes.trans (congrArg (2 * · + 1) curve.fieldBytes_eq)
  exact {
    signDigest := fun digest key nonce out =>
      Domain.signDigest_fills bits (one key) (one nonce) (two out)
    signMessage := fun hash message key nonce out =>
      Domain.signDigest_fills bits (one key) (one nonce) (two out)
    verifyDigest := fun digest publicKey r s =>
      Domain.exists_verifyDigest_eq_ok bits (one r) (one s)
    verifyMessage := fun hash message publicKey r s =>
      Domain.exists_verifyDigest_eq_ok bits (one r) (one s)
    publicKey := fun key out => (Domain.publicKey_overwrites (one key)).fills (two out)
    sharedSecret := fun publicKey key out => Domain.sharedSecret_fills (one key) (two out)
    isPublicKey := fun key => Domain.exists_isPublicKey_eq_ok key.bytes
    isPrivateKey := fun key => ⟨_, Domain.isPrivateKey_eq (one key)⟩
    uncompressedToRaw := fun key out => Curve.uncompressedToRaw_fills (twoTagged key) (two out)
    compressedToRaw := fun key out => Curve.compressedToRaw_fills (oneTagged key) (two out)
    rawToUncompressed := fun key out =>
      (Curve.rawToUncompressed_overwrites (two key)).exists_eq_ok (twoTagged out).ge
    rawToCompressed := fun key out =>
      (Curve.rawToCompressed_overwrites (two key)).exists_eq_ok (oneTagged out).ge }

/-- **No input stops an operation of the NIST curves.** -/
theorem never_stops (curve : Nist) : curve.Answers ∧ curve.domain.StaysInRange :=
  ⟨curve.answers, curve.stays_in_range⟩

end Nist
end ShortWeierstrass
