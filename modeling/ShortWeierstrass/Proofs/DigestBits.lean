/-
# A digest is cut by bits

The bits of a string are those of its bytes, one after the other, the highest of each byte first
(`Bytes.bits`), and they make the number of the string. The leftmost `k` of them make the number
with all others divided away (`Bytes.leftmostBits_eq`). A digest is cut by bytes first, to the
length `n` of a coordinate, and then shifted down by the bits that `n` bytes have more than the
order; a digest of less than `n` bytes is not shifted at all. For moduli `q < p < 2 q` the bit
length of `q` lies between `8 (n - 1)` and `8 n`: so the shift is by no negative number, a digest
that is not shifted has no bit too many, and what becomes of a digest are its leftmost bits, as
many as `q` has (`Domain.digest_bits`).

Key definitions: `Bytes.bits`, `Bytes.ofBits`.
Key theorems: `Bytes.leftmostBits_eq`, `Domain.digestScalar_take`, `Domain.digest_bits`.
-/
import Mathlib
import ShortWeierstrass.Curves.Small
import ShortWeierstrass.Proofs.PointEncoding
import ShortWeierstrass.Proofs.ScalarBytes
import ShortWeierstrass.Proofs.ScalarMultiplication

namespace ShortWeierstrass

/-! ### Bits of byte strings -/

namespace Bytes

/-- The eight bits of a byte, the highest first. -/
def byteBits (byte : UInt8) : List Bool := (List.range 8).map fun i => byte.toNat.testBit (7 - i)

/-- The bits of a string, the highest of each byte first. -/
def bits (bytes : Bytes) : List Bool := bytes.flatMap byteBits

/-- The number that bits make, the highest first. -/
def ofBits (bits : List Bool) : ℕ := bits.foldl (fun n bit => 2 * n + bit.toNat) 0

theorem foldl_bits (bits : List Bool) (n : ℕ) :
    bits.foldl (fun n bit => 2 * n + bit.toNat) n = n * 2 ^ bits.length + ofBits bits := by
  induction bits generalizing n with
  | nil => simp [ofBits]
  | cons bit bits ih =>
    rw [ofBits, List.foldl_cons, List.foldl_cons, ih, ih (2 * 0 + bit.toNat), List.length_cons]
    ring

theorem ofBits_append (front back : List Bool) :
    ofBits (front ++ back) = ofBits front * 2 ^ back.length + ofBits back := by
  rw [ofBits, List.foldl_append, foldl_bits]
  rfl

theorem ofBits_lt (bits : List Bool) : ofBits bits < 2 ^ bits.length := by
  induction bits using List.reverseRecOn with
  | nil => simp [ofBits]
  | append_singleton bits bit ih =>
    have last : ofBits [bit] ≤ 1 := by cases bit <;> decide
    rw [ofBits_append, List.length_append, List.length_singleton, pow_succ]
    omega

theorem ofBits_take (bits : List Bool) (count : ℕ) :
    ofBits (bits.take count) = ofBits bits / 2 ^ (bits.length - count) := by
  have parts := ofBits_append (bits.take count) (bits.drop count)
  have lt := ofBits_lt (bits.drop count)
  rw [List.length_drop] at parts lt
  rw [List.take_append_drop] at parts
  rw [parts, Nat.mul_comm, Nat.mul_add_div (Nat.two_pow_pos _), Nat.div_eq_of_lt lt, Nat.add_zero]

theorem ofBits_byteBits (byte : UInt8) : ofBits (byteBits byte) = byte.toNat := by
  revert byte
  decide +kernel

theorem length_bits (bytes : Bytes) : bytes.bits.length = 8 * bytes.length := by
  induction bytes with
  | nil => rfl
  | cons byte bytes ih =>
    have eight : (byteBits byte).length = 8 := by simp [byteBits]
    rw [bits, List.flatMap_cons, List.length_append, eight, ← bits, ih, List.length_cons]
    ring

theorem ofBits_bits (bytes : Bytes) : ofBits bytes.bits = bytes.value := by
  induction bytes with
  | nil => rfl
  | cons byte bytes ih =>
    rw [bits, List.flatMap_cons, ofBits_append, ← bits, ih, ofBits_byteBits, length_bits,
      two_pow_eight_mul, value_cons]

/-- The number of the leftmost bits is what these bits make. -/
theorem leftmostBits_eq (bytes : Bytes) (count : ℕ) :
    bytes.leftmostBits count = ofBits (bytes.bits.take count) := by
  rw [ofBits_take, ofBits_bits, length_bits, leftmostBits]

/-- Ten bits of two bytes. -/
example : ofBits (bits [0xa5, 0xff] |>.take 10) = 0b1010010111 := by decide

end Bytes

/-! ### Digests -/

namespace Domain

variable {L : ℕ} {d : Domain L}

/-- The bytes of a digest beyond the length of a coordinate do not count. -/
theorem digestScalar_take (bits : d.order.bitLength ≤ 8 * d.coordinateBytes) (digest : Bytes) :
    d.digestScalar (digest.take d.coordinateBytes) = d.digestScalar digest := by
  by_cases long : d.coordinateBytes ≤ digest.length
  · have length : (digest.take d.coordinateBytes).length = d.coordinateBytes := by
      rw [List.length_take]
      omega
    unfold digestScalar
    rw [d.digestLimbs_of_long long bits, d.digestLimbs_of_long length.ge bits, List.take_take,
      Nat.min_self]
  · rw [List.take_of_length_le (by omega)]

/-- **A digest becomes the scalar of its leftmost bits, as many as the order has.** For moduli
`q < p < 2 q`, prime or not, and a digest of any length, nothing stops the conversion: the bits of
the order are at most those of a coordinate, and at least those of one byte less. The number taken
before the reduction is that of the leftmost bits, all if there are fewer than the order has; and
digests with the same first `n` bytes become the same scalar. -/
theorem digest_bits (d : Domain L) (lt : d.order.value.toNat < d.base.value.toNat)
    (near : d.base.value.toNat < 2 * d.order.value.toNat) :
    let n := (d.base.value.toNat.size + 7) / 8
    let bits := d.order.value.toNat.size
    (bits ≤ 8 * n ∧ 8 * (n - 1) ≤ bits) ∧
    ∀ digest : Bytes,
      (digest.bits.take bits).length = min (8 * digest.length) bits ∧
      (∃ u, d.digestLimbs digest = .ok u ∧ u.toNat = Bytes.ofBits (digest.bits.take bits)) ∧
      (∃ z, d.digestScalar digest = .ok z ∧ z.Canonical ∧
        z.value.toNat = Bytes.ofBits (digest.bits.take bits) % d.order.value.toNat) ∧
      ∀ digest' : Bytes, digest'.take n = digest.take n →
        d.digestScalar digest' = d.digestScalar digest := by
  intro n bits
  have n_eq : d.coordinateBytes = n := by
    rw [Curve.coordinateBytes, Modulus.byteLength, Modulus.bitLength_eq_size]
  have bits_eq : d.order.bitLength = bits := d.order.bitLength_eq_size
  have pos := d.toCurve.coordinateBytes_pos
  have above := order_bitLength_le lt
  have below := bits_le_order near (Nat.sub_lt pos Nat.one_pos)
  refine ⟨⟨by omega, by omega⟩, fun digest => ⟨?_, ?_, ?_, fun digest' same => ?_⟩⟩
  · rw [List.length_take, Bytes.length_bits, min_comm]
  · obtain ⟨u, read, value⟩ := digestLimbs_spec lt near digest
    rw [bits_eq, Bytes.leftmostBits_eq] at value
    exact ⟨u, read, value⟩
  · obtain ⟨z, read, stands⟩ := digestScalar_spec lt near digest
    rw [bits_eq, Bytes.leftmostBits_eq] at stands
    exact ⟨z, read, stands.canonical, by rw [stands.value_toNat, ZMod.val_natCast]⟩
  · rw [← digestScalar_take above digest, ← digestScalar_take above digest', n_eq, same]

/-- The order 241 has one byte and a coordinate modulo 257 two: of a digest's first two bytes the
eight highest bits are taken, which make 255, and 14 modulo 241. -/
theorem digest_bits_mod257 :
    Small.mod257.order.value.toNat < Small.mod257.base.value.toNat ∧
      Small.mod257.base.value.toNat < 2 * Small.mod257.order.value.toNat ∧
      (∃ z, Small.mod257.digestScalar [0xff, 0x7f, 1] = .ok z ∧ z.value.toNat = 14) ∧
      Small.mod257.digestScalar [0xff, 0x7f, 2, 3] = Small.mod257.digestScalar [0xff, 0x7f, 1] := by
  have lt : Small.mod257.order.value.toNat < Small.mod257.base.value.toNat := by decide +kernel
  have near : Small.mod257.base.value.toNat < 2 * Small.mod257.order.value.toNat := by
    decide +kernel
  obtain ⟨-, converted⟩ := digest_bits Small.mod257 lt near
  obtain ⟨-, -, ⟨z, read, -, value⟩, same⟩ := converted [0xff, 0x7f, 1]
  refine ⟨lt, near, ⟨z, read, value.trans ?_⟩, same [0xff, 0x7f, 2, 3] ?_⟩
  · decide +kernel
  · decide +kernel

end Domain
end ShortWeierstrass
