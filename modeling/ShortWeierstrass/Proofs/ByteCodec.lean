/-
# The big-endian codec is exact for every width

The digits of a number to base 256, cut off after the lowest `n` (`Bytes.digits`), and the number
of a string are inverse to each other up to `256^n` (`Bytes.value_digits`, `Bytes.digits_value`), by
induction on the first digit. Words do not appear in that: a number of `L` words that is read from a
string is the number of the string, and what is written over a buffer are the digits of the number,
one for each byte of the buffer (`Limbs.toBytes_eq_digits`), whether the bytes fill whole words or
not. So reading undoes writing below `256^n`, and writing undoes reading.

Key definitions: `Bytes.digits`.
Key theorems: `Bytes.value_digits`, `Limbs.toBytes_eq_digits`, `Nist.decode_encode`,
`Limbs.byte_codec`.
-/
import Mathlib.Data.Nat.Digits.Lemmas
import ShortWeierstrass.FixedSize
import ShortWeierstrass.Proofs.ByteStrings

namespace ShortWeierstrass

/-! ### Digits to base 256 -/

namespace Bytes

/-- The lowest `count` digits of a number to base 256, most significant first. -/
def digits (count n : ℕ) : Bytes :=
  List.ofFn fun i : Fin count => UInt8.ofNat (n / 256 ^ (count - 1 - i))

theorem length_digits (count n : ℕ) : (digits count n).length = count := List.length_ofFn

theorem digits_succ (count n : ℕ) :
    digits (count + 1) n = UInt8.ofNat (n / 256 ^ count) :: digits count n := by
  simp only [digits, List.ofFn_succ, Fin.val_zero, Fin.val_succ]
  congr 2
  funext i
  congr 3
  omega

theorem value_eq_ofDigits (bytes : Bytes) :
    bytes.value = Nat.ofDigits 256 (bytes.reverse.map UInt8.toNat) := by
  rw [Nat.ofDigits_eq_foldr, List.foldr_map, List.foldr_reverse, value]
  simp only [Nat.cast_id, Nat.add_comm]

/-- Digits stand for the number, as far as they reach. -/
theorem value_digits : ∀ count n : ℕ, (digits count n).value = n % 256 ^ count
  | 0, n => by simp [digits, value, Nat.mod_one]
  | count + 1, n => by
    have byte (n : ℕ) : (UInt8.ofNat n).toNat = n % 256 := UInt8.toNat_ofNat'
    rw [digits_succ, value_cons, length_digits, value_digits count, byte, pow_succ, Nat.mod_mul]
    ring

/-- A string consists of the digits of its number. -/
theorem digits_value (bytes : Bytes) : digits bytes.length bytes.value = bytes := by
  refine eq_of_value_eq (length_digits _ _) ?_
  rw [value_digits, Nat.mod_eq_of_lt bytes.value_lt]

end Bytes

/-! ### Reading and writing -/

namespace Limbs

variable {L : ℕ}

theorem toBytes_eq_digits (u : Limbs L) {count : ℕ} (h : count ≤ 8 * L) :
    u.toBytes count = Bytes.digits count u.toNat := by
  apply Bytes.eq_of_value_eq
  · rw [length_toBytes u count h, Bytes.length_digits]
  · rw [value_toBytes u count h, Bytes.value_digits]

theorem toBytes_ofNat_value {bytes : Bytes} (h : bytes.length ≤ 8 * L) :
    (ofNat L bytes.value).toBytes bytes.length = bytes := by
  rw [toBytes_eq_digits _ h, toNat_ofNat_value h, Bytes.digits_value]

theorem ofBytes_toBytes (u : Limbs L) {count : ℕ} (h : count ≤ 8 * L) :
    ofBytes L (u.toBytes count) = .ok (ofNat L (u.toNat % 256 ^ count)) := by
  rw [ofBytes_eq_ok _ ((length_toBytes u count h).trans_le h), value_toBytes u count h]

theorem ofBytes_eq_error_iff {bytes : Bytes} {fault : Fault} :
    ofBytes L bytes = .error fault ↔ 8 * L < bytes.length ∧ fault = .inputTooLong := by
  unfold ofBytes
  split <;> simp_all [eq_comm]

theorem writeBytes_eq_error_iff {u : Limbs L} {out : Bytes} {fault : Fault} :
    u.writeBytes out = .error fault ↔ 8 * L < out.length ∧ fault = .outputTooLong := by
  unfold writeBytes
  split <;> simp_all [eq_comm]

end Limbs

/-! ### The length of a coordinate -/

namespace Nist

theorem fieldBytes_le (curve : Nist) : curve.fieldBytes ≤ 8 * curve.limbs := by
  cases curve <;> decide

theorem length_encodeLimbs {curve : Nist} (u : Limbs curve.limbs) :
    (curve.encodeLimbs u).length = curve.fieldBytes :=
  u.length_toBytes _ curve.fieldBytes_le

theorem encode_decode {curve : Nist} (bytes : Sized curve.fieldBytes) :
    ∃ u, curve.decodeLimbs bytes = .ok u ∧ curve.encodeLimbs u = bytes.bytes := by
  have fits : bytes.bytes.length ≤ 8 * curve.limbs :=
    bytes.length_bytes.trans_le curve.fieldBytes_le
  refine ⟨_, Limbs.ofBytes_eq_ok _ fits, ?_⟩
  have back := Limbs.toBytes_ofNat_value fits
  rwa [bytes.length_bytes] at back

theorem decode_encode {curve : Nist} (u : Limbs curve.limbs) :
    ∃ v, curve.decodeLimbs ⟨curve.encodeLimbs u, length_encodeLimbs u⟩ = .ok v ∧
      (v = u ↔ u.toNat < 256 ^ curve.fieldBytes) := by
  refine ⟨_, u.ofBytes_toBytes curve.fieldBytes_le, ?_⟩
  have lt : u.toNat % 256 ^ curve.fieldBytes < 2 ^ (64 * curve.limbs) :=
    (Nat.mod_le _ _).trans_lt u.toNat_lt
  rw [← Limbs.toNat_inj, Limbs.toNat_ofNat_of_lt lt,
    Nat.mod_eq_iff_lt (Nat.pow_pos (by decide)).ne']

end Nist

/-! ### The codec -/

/-- The codec at every width and every length that fits, whole words or not and nothing included.
A string is read as the number with its bytes as digits, and that number is written as the string; a
buffer is filled with the digits of the number, whatever was in it, and these are read as what is
left of the number on so many bytes. Only what does not fit is refused. The strings of 66 bytes,
shorter than nine words, are in turn with the numbers below `2^528`. -/
theorem Limbs.byte_codec (L : ℕ) :
    (∀ bytes : Bytes, bytes.length ≤ 8 * L → ∃ u : Limbs L, ofBytes L bytes = .ok u ∧
      u.toNat = Nat.ofDigits 256 (bytes.reverse.map UInt8.toNat) ∧
      ∀ out : Bytes, out.length = bytes.length → u.writeBytes out = .ok bytes) ∧
    (∀ (u : Limbs L) (out : Bytes), out.length ≤ 8 * L →
      u.writeBytes out = .ok (Bytes.digits out.length u.toNat) ∧
      ∃ v, ofBytes L (Bytes.digits out.length u.toNat) = .ok v ∧
        v.toNat = u.toNat % 256 ^ out.length) ∧
    (∀ (bytes : Bytes) (fault : Fault),
      ofBytes L bytes = .error fault ↔ 8 * L < bytes.length ∧ fault = .inputTooLong) ∧
    (∀ (u : Limbs L) (out : Bytes) (fault : Fault),
      u.writeBytes out = .error fault ↔ 8 * L < out.length ∧ fault = .outputTooLong) ∧
    (∀ bytes : Sized Nist.p521.fieldBytes,
      ∃ u, Nist.p521.decodeLimbs bytes = .ok u ∧ Nist.p521.encodeLimbs u = bytes.bytes) ∧
    (∀ u : Limbs Nist.p521.limbs,
      ∃ v, Nist.p521.decodeLimbs ⟨Nist.p521.encodeLimbs u, Nist.length_encodeLimbs u⟩ = .ok v ∧
        (v = u ↔ u.toNat < 2 ^ 528)) := by
  refine ⟨?reading, ?writing, fun _ _ => ofBytes_eq_error_iff, fun _ _ _ => writeBytes_eq_error_iff,
    Nist.encode_decode, fun u => ?_⟩
  case reading =>
    intro bytes fits
    refine ⟨_, ofBytes_eq_ok bytes fits, ?_, fun out same => ?_⟩
    · rw [toNat_ofNat_value fits, Bytes.value_eq_ofDigits]
    · rw [writeBytes, same, if_pos fits, toBytes_ofNat_value fits]
  case writing =>
    intro u out fits
    have length := (Bytes.length_digits out.length u.toNat).trans_le fits
    refine ⟨?_, _, ofBytes_eq_ok _ length, ?_⟩
    · rw [writeBytes, if_pos fits, toBytes_eq_digits u fits]
    · rw [toNat_ofNat_value length, Bytes.value_digits]
  have room : 256 ^ Nist.p521.fieldBytes = 2 ^ 528 := by
    rw [← Bytes.two_pow_eight_mul, show 8 * Nist.p521.fieldBytes = 528 from rfl]
  exact room ▸ Nist.decode_encode u

/-- A string of nine bytes in two words: the upper word takes one byte of it. -/
theorem Limbs.byte_codec_partial_word :
    ∃ u : Limbs 2, ofBytes 2 [1, 2, 3, 4, 5, 6, 7, 8, 9] = .ok u ∧
      u.toNat = 0x010203040506070809 ∧ u.words = [0x0203040506070809, 1] ∧
      u.writeBytes [0, 0, 0, 0, 0, 0, 0, 0, 0] = .ok [1, 2, 3, 4, 5, 6, 7, 8, 9] ∧
      u.writeBytes [255, 255, 255] = .ok [7, 8, 9] ∧ u.writeBytes [] = .ok [] := by
  obtain ⟨u, read, value, write⟩ := (byte_codec 2).1 [1, 2, 3, 4, 5, 6, 7, 8, 9] (by decide)
  have value : u.toNat = 0x010203040506070809 := value.trans (by decide)
  have lowest := ((byte_codec 2).2.1 u [255, 255, 255] (by decide)).1
  have nothing := ((byte_codec 2).2.1 u [] (by decide)).1
  rw [value] at lowest nothing
  refine ⟨u, read, value, ?_, write _ rfl, lowest.trans (by decide), nothing.trans (by decide)⟩
  rw [← u.ofNat_toNat, value]
  decide

end ShortWeierstrass
