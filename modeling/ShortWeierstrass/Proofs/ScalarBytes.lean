/-
# What scalars are read from bytes

A private key, a nonce or a part of a signature is valid if its number is from 1 up to the
order, and is then the scalar of that number (`Domain.loadScalar_eq`). A digest of any
length becomes the number of its leftmost bits, as many as the order has, if the order is near
the base modulus: then a digest shorter than a coordinate has no bit too many
(`Domain.digestLimbs_spec`).

Key definitions: `Domain.IsScalar`, `Domain.loaded`.
Key theorems: `Domain.loadScalar_eq`, `Domain.digestLimbs_spec`, `Domain.toScalar_standsFor`.
-/
import Mathlib
import ShortWeierstrass.Proofs.ByteStrings
import ShortWeierstrass.Proofs.ResidueRing
import ShortWeierstrass.Scalar

namespace ShortWeierstrass

variable {L : ℕ}

/-! ### Bit lengths -/

namespace Limbs

variable {u v : Limbs L}

theorem bitLength_le_of_lt {n : ℕ} (h : u.toNat < 2 ^ n) : u.bitLength ≤ n := by
  by_cases zero : u.toNat = 0
  · have := (Words.bitLength_eq_zero_iff u.words).mpr zero
    exact this.le.trans n.zero_le
  · have ge : 2 ^ (u.bitLength - 1) ≤ u.toNat := Words.two_pow_le_toNat u.words zero
    have := (Nat.pow_lt_pow_iff_right (by decide)).mp (ge.trans_lt h)
    omega

theorem bitLength_mono (h : u.toNat ≤ v.toNat) : u.bitLength ≤ v.bitLength :=
  bitLength_le_of_lt (h.trans_lt v.toNat_lt_two_pow_bitLength)

theorem bitLength_le_succ (h : v.toNat < 2 * u.toNat) : v.bitLength ≤ u.bitLength + 1 := by
  have lt := u.toNat_lt_two_pow_bitLength
  refine bitLength_le_of_lt ?_
  rw [pow_succ]
  omega

end Limbs

namespace Domain

variable (d : Domain L)

/-! ### Keys, nonces and parts of signatures -/

/-- The number is from 1 up to the order, not included. -/
def IsScalar (n : ℕ) : Prop := 0 < n ∧ n < d.order.value.toNat

instance (n : ℕ) : Decidable (d.IsScalar n) := inferInstanceAs (Decidable (_ ∧ _))

/-- The number that a number is loaded as: 1 if it is not valid. -/
def loaded (n : ℕ) : ℕ := if d.IsScalar n then n else 1

theorem loaded_of_isScalar {n : ℕ} (h : d.IsScalar n) : d.loaded n = n := if_pos h

/-- What is loaded is valid, whatever was given. -/
theorem isScalar_loaded (n : ℕ) : d.IsScalar (d.loaded n) := by
  by_cases h : d.IsScalar n
  · rwa [loaded, if_pos h]
  · rw [loaded, if_neg h]
    exact ⟨by decide, by have := d.order.three_le; omega⟩

theorem ofNat_standsFor {n : ℕ} (h : d.IsScalar n) : (Residue.ofNat n : d.Scalar).StandsFor n :=
  Residue.ofNat_standsFor (h.2.trans d.order.value.toNat_lt)

theorem natCast_ne_zero {n : ℕ} (h : d.IsScalar n) : (n : d.order.Ring) ≠ 0 := by
  intro zero
  have divides := (ZMod.natCast_eq_zero_iff _ _).mp zero
  have le := Nat.le_of_dvd h.1 divides
  have lt := h.2
  omega

theorem isScalar_val {a : d.order.Ring} (h : a ≠ 0) : d.IsScalar a.val :=
  ⟨Nat.pos_of_ne_zero ((ZMod.val_ne_zero a).mpr h), a.val_lt⟩

variable {d} in
theorem IsScalar.eq_of_natCast_eq {n n' : ℕ} (h : d.IsScalar n) (h' : d.IsScalar n')
    (same : (n : d.order.Ring) = n') : n = n' := by
  rw [← ZMod.val_natCast_of_lt h.2, same, ZMod.val_natCast_of_lt h'.2]

variable {d} in
/-- The order less a valid number is valid, and of the opposite class. -/
theorem IsScalar.opposite {n : ℕ} (h : d.IsScalar n) :
    d.IsScalar (d.order.value.toNat - n) ∧
      ((d.order.value.toNat - n : ℕ) : d.order.Ring) = -n := by
  obtain ⟨pos, lt⟩ := h
  refine ⟨⟨by omega, by omega⟩, ?_⟩
  rw [Nat.cast_sub lt.le, ZMod.natCast_self, zero_sub]

/-- Bytes are loaded as their number if it is valid, as 1 if not. -/
theorem loadScalar_eq (bytes : Bytes) (h : bytes.length ≤ 8 * L) :
    d.loadScalar bytes = .ok ⟨.ofNat (d.loaded bytes.value), d.IsScalar bytes.value⟩ := by
  have number := Limbs.toNat_ofNat_value h
  have zero : Limbs.ofNat L bytes.value ≠ Limbs.zero ↔ 0 < bytes.value := by
    rw [← Limbs.toNat_inj.ne, number, Limbs.toNat_zero, Nat.pos_iff_ne_zero]
  have below : (Limbs.ofNat L bytes.value).lt d.order.value = true ↔
      bytes.value < d.order.value.toNat := by
    rw [Limbs.lt_iff, number]
  have valid : (decide (Limbs.ofNat L bytes.value ≠ Limbs.zero) &&
      (Limbs.ofNat L bytes.value).lt d.order.value) = decide (d.IsScalar bytes.value) := by
    rw [Bool.eq_iff_iff, Bool.and_eq_true, decide_eq_true_iff, decide_eq_true_iff, zero, below]
    rfl
  rw [loadScalar, Limbs.ofBytes_eq_ok bytes h]
  simp only [Bind.bind, Except.bind, Pure.pure, Except.pure, valid]
  by_cases isScalar : d.IsScalar bytes.value
  · simp [isScalar, loaded, Residue.ofNat]
  · simp [isScalar, loaded, Residue.ofNat, Limbs.one]

/-- A class of the base modulus goes to that of its number below the base modulus. -/
theorem toScalar_standsFor {x : Residue d.base} {X : d.base.Ring} (h : x.StandsFor X) :
    (d.toScalar x).StandsFor (X.val : d.order.Ring) := by
  rw [← h.value_toNat]
  exact Residue.ofLimbs_standsFor x.value

/-! ### Digests -/

theorem digestLimbs_of_long {digest : Bytes} (long : d.coordinateBytes ≤ digest.length)
    (bits : d.order.bitLength ≤ 8 * d.coordinateBytes) :
    d.digestLimbs digest = .ok
      ((Limbs.ofNat L (Bytes.value (digest.take d.coordinateBytes))).shiftRight
        (8 * d.coordinateBytes - d.order.bitLength)) := by
  have fits : d.coordinateBytes ≤ 8 * L := d.base.byteLength_le
  have front : (digest.take d.coordinateBytes).length ≤ 8 * L := by
    rw [List.length_take]
    omega
  unfold digestLimbs
  simp only [if_pos long, Bytes.split_eq_ok long, Bind.bind, Except.bind,
    Limbs.ofBytes_eq_ok _ front, if_pos bits]
  rfl

theorem digestLimbs_of_short {digest : Bytes} (short : digest.length < d.coordinateBytes) :
    d.digestLimbs digest = .ok (Limbs.ofNat L digest.value) := by
  have fits : d.coordinateBytes ≤ 8 * L := d.base.byteLength_le
  unfold digestLimbs
  rw [if_neg (by omega)]
  exact Limbs.ofBytes_eq_ok digest (by omega)

variable {d} in
theorem exists_digestScalar_eq_ok (bits : d.order.bitLength ≤ 8 * d.coordinateBytes)
    (digest : Bytes) : ∃ z, d.digestScalar digest = .ok z := by
  by_cases long : d.coordinateBytes ≤ digest.length
  · exact ⟨_, by rw [digestScalar, d.digestLimbs_of_long long bits]; rfl⟩
  · exact ⟨_, by rw [digestScalar, d.digestLimbs_of_short (by omega)]; rfl⟩

variable {d} (lt : d.order.value.toNat < d.base.value.toNat)
  (near : d.base.value.toNat < 2 * d.order.value.toNat)

include lt in
theorem order_bitLength_le : d.order.bitLength ≤ 8 * d.coordinateBytes := by
  have le : d.order.bitLength ≤ d.base.bitLength := Limbs.bitLength_mono lt.le
  unfold Curve.coordinateBytes Modulus.byteLength
  omega

include near in
/-- Fewer bytes than a coordinate's have at most as many bits as the order. -/
theorem bits_le_order {n : ℕ} (h : n < d.coordinateBytes) : 8 * n ≤ d.order.bitLength := by
  have le : d.base.bitLength ≤ d.order.bitLength + 1 := Limbs.bitLength_le_succ near
  unfold Curve.coordinateBytes Modulus.byteLength at h
  omega

include lt near in
/-- The number of a digest is that of its leftmost bits. -/
theorem digestLimbs_spec (digest : Bytes) :
    ∃ u, d.digestLimbs digest = .ok u ∧ u.toNat = digest.leftmostBits d.order.bitLength := by
  have fits : d.coordinateBytes ≤ 8 * L := d.base.byteLength_le
  have bits := order_bitLength_le lt
  by_cases long : d.coordinateBytes ≤ digest.length
  · refine ⟨_, d.digestLimbs_of_long long bits, ?_⟩
    have front : (digest.take d.coordinateBytes).length ≤ 8 * L := by
      rw [List.length_take]
      omega
    rw [Limbs.shiftRight_toNat, Limbs.toNat_ofNat_value front]
    exact Bytes.leftmostBits_take long bits
  · have short : digest.length < d.coordinateBytes := by omega
    refine ⟨_, d.digestLimbs_of_short short, ?_⟩
    rw [Limbs.toNat_ofNat_value (by omega), Bytes.leftmostBits_of_le (bits_le_order near short)]

include lt near in
theorem digestScalar_spec (digest : Bytes) :
    ∃ z : d.Scalar, d.digestScalar digest = .ok z ∧
      z.StandsFor (digest.leftmostBits d.order.bitLength : d.order.Ring) := by
  obtain ⟨u, read, value⟩ := digestLimbs_spec lt near digest
  refine ⟨.ofLimbs u, ?_, ?_⟩
  · rw [digestScalar, read]
    rfl
  · rw [← value]
    exact Residue.ofLimbs_standsFor u

end Domain
end ShortWeierstrass
