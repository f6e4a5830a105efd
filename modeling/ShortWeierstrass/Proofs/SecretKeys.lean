/-
# Secret keys are the valid private keys

A secret key is read as an integer of the coordinate's length and compared with the order; a
private key is loaded as a scalar. Both take the same strings (`SecretKey.ofBytes?_isSome_iff`), and
what they make of one string is the same: the key's bytes are the string
(`SecretKey.toBytes_of_ofBytes?`), its scalar is the loaded one
(`SecretKey.loadScalar_of_ofBytes?`), and its public point is encoded as `Domain.publicKey` writes
it (`SecretKey.publicKey_of_ofBytes?`). No property of the curve is needed for that. A string of 24
bytes or more that is too short stands for the string with zeros in front.

The scalar of a key is read from the key's bytes. A key that fits its bytes, as every key read from
bytes does and every key of a domain whose order is below the base modulus, has the scalar of its
number (`SecretKey.scalar_eq_ofLimbs`).

Key theorems: `SecretKey.scalar_eq_ofLimbs`, `SecretKey.ofBytes?_isSome_iff`,
`SecretKey.toBytes_of_ofBytes?`, `SecretKey.publicKey_of_ofBytes?`, `Nist.secretKey_agrees`.
-/
import Mathlib
import ShortWeierstrass.FixedSize
import ShortWeierstrass.Proofs.Totality

namespace ShortWeierstrass

variable {L : ℕ}

namespace SecretKey

variable {d : Domain L} {bytes : Bytes} {u : Limbs L}

/-! ### Integers in range -/

theorem ofLimbs?_isSome_iff :
    (ofLimbs? d u).isSome = true ↔ u ≠ Limbs.zero ∧ u.lt d.order.value = true := by
  unfold ofLimbs?
  by_cases h : u ≠ Limbs.zero ∧ u.lt d.order.value = true
  · rw [dif_pos h]
    exact iff_of_true rfl h
  · rw [dif_neg h]
    exact iff_of_false Bool.false_ne_true h

theorem value_of_ofLimbs? {key : SecretKey d} (h : ofLimbs? d u = some key) : key.value = u := by
  unfold ofLimbs? at h
  split at h
  · cases h
    rfl
  · cases h

variable (key : SecretKey d)

theorem isScalar : d.IsScalar key.value.toNat := by
  refine ⟨Nat.pos_of_ne_zero fun zero => key.ne_zero ?_, (Limbs.lt_iff _ _).mp key.lt_order⟩
  rw [← Limbs.toNat_inj, zero, Limbs.toNat_zero]

/-! ### The bytes of a key -/

theorem value_lt [d.Admitted] : key.value.toNat < 256 ^ d.coordinateBytes :=
  key.isScalar.2.trans d.order_lt_pow

section

variable {key} (fits : key.value.toNat < 256 ^ d.coordinateBytes)

include fits

theorem value_toBytes : Bytes.value key.toBytes = key.value.toNat :=
  Limbs.value_toBytes_of_lt d.base.byteLength_le fits

/-- The scalar is that of the key's number, as if there were no bytes between. -/
theorem scalar_eq_ofLimbs : key.scalar = .ofLimbs key.value := by
  rw [key.scalar_eq_ofNat, value_toBytes fits, Residue.ofNat, Limbs.ofNat_toNat]

theorem scalar_standsFor : key.scalar.StandsFor (key.value.toNat : d.order.Ring) := by
  rw [scalar_eq_ofLimbs fits]
  exact Residue.ofLimbs_standsFor key.value

theorem scalar_value : key.scalar.value = key.value := by
  rw [← Limbs.toNat_inj, (scalar_standsFor fits).value_toNat,
    ZMod.val_natCast_of_lt key.isScalar.2]

end

/-! ### Strings of every length -/

theorem ofBytes?_of_short (least : minBytes ≤ bytes.length)
    (short : bytes.length < d.coordinateBytes) :
    ofBytes? d bytes =
      ofBytes? d (List.replicate (d.coordinateBytes - bytes.length) 0 ++ bytes) := by
  have length : (List.replicate (d.coordinateBytes - bytes.length) (0 : UInt8) ++ bytes).length =
      d.coordinateBytes := by
    rw [List.length_append, List.length_replicate]
    omega
  conv_rhs => rw [ofBytes?, if_pos length]
  rw [ofBytes?, if_neg (by omega), if_pos ⟨least, short⟩]

theorem ofBytes?_of_other (ne : bytes.length ≠ d.coordinateBytes)
    (other : ¬ (minBytes ≤ bytes.length ∧ bytes.length < d.coordinateBytes)) :
    ofBytes? d bytes = .ok none := by
  rw [ofBytes?, if_neg ne, if_neg other]
  rfl

/-! ### Strings of the exact length -/

section

variable (length : bytes.length = d.coordinateBytes)

include length

theorem ofBytes?_isSome_iff :
    ∃ found, ofBytes? d bytes = .ok found ∧
      (found.isSome = true ↔ d.isPrivateKey bytes = .ok true) := by
  have number : (Limbs.ofNat L bytes.value).toNat = bytes.value :=
    Limbs.toNat_ofNat_value (length.trans_le d.base.byteLength_le)
  refine ⟨_, ofBytes?_of_length length, ?_⟩
  rw [ofLimbs?_isSome_iff, Domain.isPrivateKey_eq length, Limbs.lt_iff, ← Limbs.toNat_inj.ne,
    number, Limbs.toNat_zero, ← Nat.pos_iff_ne_zero, Except.ok.injEq, decide_eq_true_iff]
  rfl

variable {key} (read : ofBytes? d bytes = .ok (some key))

include read

theorem value_of_ofBytes? : key.value = Limbs.ofNat L bytes.value := by
  rw [ofBytes?_of_length length] at read
  exact value_of_ofLimbs? (Except.ok.inj read)

theorem toNat_of_ofBytes? : key.value.toNat = bytes.value := by
  rw [value_of_ofBytes? length read,
    Limbs.toNat_ofNat_value (length.trans_le d.base.byteLength_le)]

theorem value_lt_of_ofBytes? : key.value.toNat < 256 ^ d.coordinateBytes := by
  rw [toNat_of_ofBytes? length read, ← length]
  exact bytes.value_lt

/-- A key is written back as the string that it was read from. -/
theorem toBytes_of_ofBytes? : key.toBytes = bytes := by
  refine Bytes.eq_of_value_eq (key.length_toBytes.trans length.symm) ?_
  rw [value_toBytes (value_lt_of_ofBytes? length read), toNat_of_ofBytes? length read]

theorem loadScalar_of_ofBytes? : d.loadScalar bytes = .ok ⟨key.scalar, true⟩ := by
  have valid := key.isScalar
  rw [toNat_of_ofBytes? length read] at valid
  rw [d.loadScalar_eq bytes (length.trans_le d.base.byteLength_le), d.loaded_of_isScalar valid,
    decide_eq_true valid, key.scalar_eq_ofNat, toBytes_of_ofBytes? length read]

theorem publicKey_of_ofBytes? {out : Bytes} (room : out.length = 2 * d.coordinateBytes) :
    d.publicKey bytes out = .ok ⟨true, key.publicPoint.toRaw⟩ := by
  rw [Domain.publicKey, loadScalar_of_ofBytes? length read]
  simp only [Bind.bind, Except.bind, Affine.writeRaw_of_length _ room]
  rfl

end

end SecretKey

/-! ### The NIST curves -/

namespace Nist

/-- **Secret keys and private keys agree.** A string of the exact length is read as a secret key
exactly if its integer is from 1 up to the order, which is exactly if it passes the check of
private keys. The key is then written back as that string, its scalar is the one that is loaded
from the string, and its public point is written as the public key of the string, whatever the
buffer held. A string of 24 bytes or more that is too short is read as with zeros in front, and
every other string is turned down. -/
theorem secretKey_agrees (curve : Nist) (bytes : Bytes) :
    (∀ length : bytes.length = curve.fieldBytes,
      ∃ u found, curve.decodeLimbs ⟨bytes, length⟩ = .ok u ∧
        SecretKey.ofBytes? curve.domain bytes = .ok found ∧
        (found.isSome = true ↔ u ≠ Limbs.zero ∧ u.lt curve.order = true) ∧
        (found.isSome = true ↔ curve.isPrivateKey ⟨bytes, length⟩ = .ok true) ∧
        ∀ key ∈ found, key.value = u ∧ curve.encodeLimbs key.value = bytes ∧ key.toBytes = bytes ∧
          key.scalar.value.toNat = bytes.value ∧
          curve.domain.loadScalar bytes = .ok ⟨key.scalar, true⟩ ∧
          ∀ out : Sized (2 * curve.fieldBytes), ∃ written,
            key.publicPoint.writeRaw out.bytes = .ok written ∧
              curve.publicKey ⟨bytes, length⟩ out = .ok ⟨true, written⟩) ∧
    (SecretKey.minBytes ≤ bytes.length → bytes.length < curve.fieldBytes →
      SecretKey.ofBytes? curve.domain bytes =
        SecretKey.ofBytes? curve.domain
          (List.replicate (curve.fieldBytes - bytes.length) 0 ++ bytes)) ∧
    (bytes.length < SecretKey.minBytes ∨ curve.fieldBytes < bytes.length →
      SecretKey.ofBytes? curve.domain bytes = .ok none) := by
  have least : SecretKey.minBytes ≤ curve.fieldBytes := by cases curve <;> decide
  have size := curve.fieldBytes_eq
  refine ⟨fun length => ?_, fun enough short => ?_, fun other => ?_⟩
  · have length' := length.trans size
    have fits := length'.trans_le curve.domain.base.byteLength_le
    have read := SecretKey.ofBytes?_of_length length'
    refine ⟨_, _, Limbs.ofBytes_eq_ok bytes fits, read, ?_, ?_, fun key mem => ?_⟩
    · rw [curve.order_eq]
      exact SecretKey.ofLimbs?_isSome_iff
    · obtain ⟨found, read', accepts⟩ := SecretKey.ofBytes?_isSome_iff length'
      rw [read] at read'
      cases read'
      exact accepts
    · rw [Option.mem_def] at mem
      rw [mem] at read
      have bytes_eq := SecretKey.toBytes_of_ofBytes? length' read
      refine ⟨SecretKey.value_of_ofLimbs? mem, ?_, bytes_eq, ?_,
        SecretKey.loadScalar_of_ofBytes? length' read, fun out => ?_⟩
      · rw [encodeLimbs, size]
        exact bytes_eq
      · rw [SecretKey.scalar_value (SecretKey.value_lt_of_ofBytes? length' read),
          SecretKey.toNat_of_ofBytes? length' read]
      · have room : out.bytes.length = 2 * curve.domain.coordinateBytes :=
          out.length_bytes.trans (congrArg (2 * ·) size)
        exact ⟨_, key.publicPoint.writeRaw_of_length room,
          SecretKey.publicKey_of_ofBytes? length' read room⟩
  · rw [size] at short ⊢
    exact SecretKey.ofBytes?_of_short enough short
  · rw [size] at other least
    exact SecretKey.ofBytes?_of_other (by omega) (by omega)

/-- The key 5 of P-521, on 66 bytes and on 24. -/
theorem secretKey_agrees_p521 :
    let short : Bytes := List.replicate 23 0 ++ [5]
    let long : Bytes := List.replicate 65 0 ++ [5]
    p521.isPrivateKey ⟨long, rfl⟩ = .ok true ∧
      SecretKey.ofBytes? p521.domain short = SecretKey.ofBytes? p521.domain long ∧
      ∃ key, SecretKey.ofBytes? p521.domain long = .ok (some key) ∧ key.toBytes = long ∧
        key.scalar.value.toNat = 5 := by
  intro short long
  have checked : p521.isPrivateKey ⟨long, rfl⟩ = .ok true := by decide +kernel
  obtain ⟨whole, -, -⟩ := secretKey_agrees p521 long
  obtain ⟨-, padded, -⟩ := secretKey_agrees p521 short
  obtain ⟨u, found, -, read, -, accepts, same⟩ := whole rfl
  obtain ⟨key, rfl⟩ := Option.isSome_iff_exists.mp (accepts.mpr checked)
  obtain ⟨-, -, bytes, value, -⟩ := same key rfl
  exact ⟨checked, padded (by decide) (by decide), key, read, bytes, value.trans (by decide)⟩

end Nist
end ShortWeierstrass
