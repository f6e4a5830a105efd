/-
# Byte strings as numbers

A string of `n` bytes stands for a number below `256^n`; cutting bytes off its far end
divides the number (`Bytes.value_take`), and a number that fits the bytes written for it is
read back (`Limbs.value_toBytes_of_lt`). The leftmost bits of a string are what is left of its
number when all others are divided away.

Key definitions: `Bytes.leftmostBits`.
Key theorems: `Bytes.value_take`, `Bytes.eq_of_value_eq`, `Bytes.writePair_eq_ok`,
`Limbs.value_toBytes_of_lt`.
-/
import Mathlib.Data.Nat.Basic
import Mathlib.Tactic.Ring
import ShortWeierstrass.Buffer

namespace ShortWeierstrass

namespace Bytes

theorem value_lt (bytes : Bytes) : bytes.value < 256 ^ bytes.length := by
  have lt := littleEndian_lt bytes.reverse
  rwa [List.length_reverse, littleEndian_reverse] at lt

theorem value_append (as bs : Bytes) :
    value (as ++ bs) = as.value * 256 ^ bs.length + bs.value := by
  rw [← littleEndian_reverse, List.reverse_append, littleEndian_append, littleEndian_reverse,
    littleEndian_reverse, List.length_reverse]
  ring

theorem value_cons (byte : UInt8) (bytes : Bytes) :
    value (byte :: bytes) = byte.toNat * 256 ^ bytes.length + bytes.value := by
  have single : value [byte] = byte.toNat := by rw [value, List.foldl_cons, List.foldl_nil]; omega
  rw [← single, ← value_append, List.singleton_append]

theorem getLastD_and_one_iff (bytes : Bytes) :
    bytes.getLastD 0 &&& 1 = 1 ↔ bytes.value % 2 = 1 := by
  rw [← UInt8.toNat_inj, UInt8.toNat_and]
  refine (Nat.and_one_is_mod _).congr_left.trans ?_
  rcases List.eq_nil_or_concat bytes with rfl | ⟨front, last, rfl⟩
  · decide
  · have whole : value (front ++ [last]) = value front * 256 + last.toNat := by
      rw [value_append, value_cons, List.length_singleton, List.length_nil, pow_one, pow_zero,
        mul_one]
      rfl
    rw [List.concat_eq_append, List.getLastD_concat, whole]
    show last.toNat % 2 = 1 ↔ _
    omega

theorem eq_of_value_eq : ∀ {as bs : Bytes}, as.length = bs.length → as.value = bs.value → as = bs
  | [], [], _, _ => rfl
  | a :: as, b :: bs, length, value => by
    have length : as.length = bs.length := Nat.succ.inj length
    have a_lt := value_lt as
    have b_lt := value_lt bs
    rw [value_cons, value_cons, ← length] at value
    rw [← length] at b_lt
    have pos : 0 < 256 ^ as.length := Nat.pow_pos (by decide)
    have head := congrArg (· / 256 ^ as.length) value
    have rest := congrArg (· % 256 ^ as.length) value
    simp only [Nat.mul_comm _ (256 ^ as.length), Nat.mul_add_div pos, Nat.div_eq_of_lt a_lt,
      Nat.div_eq_of_lt b_lt, Nat.add_zero] at head
    simp only [Nat.mul_add_mod_self_right, Nat.mod_eq_of_lt a_lt, Nat.mod_eq_of_lt b_lt] at rest
    rw [UInt8.toNat_inj.mp head, eq_of_value_eq length rest]

theorem value_eq_zero_iff (bytes : Bytes) : bytes.value = 0 ↔ ∀ byte ∈ bytes, byte = 0 := by
  induction bytes with
  | nil => simp [value]
  | cons byte bytes ih =>
    have pos : 0 < 256 ^ bytes.length := Nat.pow_pos (by decide)
    rw [value_cons, Nat.add_eq_zero_iff, Nat.mul_eq_zero, or_iff_left pos.ne', ih,
      List.forall_mem_cons, ← UInt8.toNat_inj]
    rfl

theorem value_replicate_append (count : ℕ) (bytes : Bytes) :
    value (List.replicate count 0 ++ bytes) = bytes.value := by
  have zeros : value (List.replicate count 0) = 0 :=
    (value_eq_zero_iff _).mpr fun _ mem => List.eq_of_mem_replicate mem
  rw [value_append, zeros, Nat.zero_mul, Nat.zero_add]

theorem value_take (bytes : Bytes) (count : ℕ) :
    value (bytes.take count) = bytes.value / 256 ^ (bytes.length - count) := by
  have parts := value_append (bytes.take count) (bytes.drop count)
  have lt := value_lt (bytes.drop count)
  rw [List.length_drop] at parts lt
  rw [List.take_append_drop] at parts
  have pos : 0 < 256 ^ (bytes.length - count) := Nat.pow_pos (by decide)
  rw [parts, Nat.mul_comm, Nat.mul_add_div pos, Nat.div_eq_of_lt lt, Nat.add_zero]

/-- The number that the leftmost `count` bits of a string make; a shorter string is
taken whole. -/
def leftmostBits (bytes : Bytes) (count : ℕ) : ℕ :=
  bytes.value / 2 ^ (8 * bytes.length - count)

theorem two_pow_eight_mul (n : ℕ) : 2 ^ (8 * n) = 256 ^ n := by
  rw [pow_mul]
  rfl

theorem leftmostBits_of_le {bytes : Bytes} {count : ℕ} (h : 8 * bytes.length ≤ count) :
    bytes.leftmostBits count = bytes.value := by
  rw [leftmostBits, Nat.sub_eq_zero_of_le h, pow_zero, Nat.div_one]

/-- The leftmost bits are among the first bytes, if these have that many bits. -/
theorem leftmostBits_take {bytes : Bytes} {count bits : ℕ} (h : count ≤ bytes.length)
    (enough : bits ≤ 8 * count) :
    value (bytes.take count) / 2 ^ (8 * count - bits) = bytes.leftmostBits bits := by
  have split : 8 * bytes.length - bits = 8 * (bytes.length - count) + (8 * count - bits) := by
    omega
  rw [value_take, leftmostBits, split, pow_add, two_pow_eight_mul, Nat.div_div_eq_div_mul]

end Bytes

namespace Limbs

variable {L : ℕ}

theorem toNat_ofNat_value {bytes : Bytes} (h : bytes.length ≤ 8 * L) :
    (ofNat L bytes.value).toNat = bytes.value := by
  have lt : bytes.value < 2 ^ (64 * L) :=
    calc bytes.value < 256 ^ bytes.length := bytes.value_lt
      _ ≤ 256 ^ (8 * L) := Nat.pow_le_pow_right (by decide) h
      _ = 2 ^ (64 * L) := by
        rw [← Bytes.two_pow_eight_mul, ← Nat.mul_assoc]
  exact toNat_ofNat_of_lt lt

/-- A number that fits the bytes written for it is what they stand for. -/
theorem value_toBytes_of_lt {u : Limbs L} {count : ℕ} (h : count ≤ 8 * L)
    (lt : u.toNat < 256 ^ count) : Bytes.value (u.toBytes count) = u.toNat := by
  rw [value_toBytes u count h, Nat.mod_eq_of_lt lt]

theorem drop_toBytes (u : Limbs L) (missing count : ℕ) (h : missing + count ≤ 8 * L) :
    (u.toBytes (missing + count)).drop missing = u.toBytes count := by
  have length : ((Words.toLittleEndian u.words).take (missing + count)).length =
      missing + count := by
    rw [List.length_take, Words.length_toLittleEndian, u.length_words]
    omega
  rw [toBytes, List.drop_reverse, length, Nat.add_sub_cancel_left, List.take_take,
    Nat.min_eq_left (Nat.le_add_left _ _), toBytes]

/-- On more bytes than a number needs there are zeros in front. -/
theorem toBytes_add {u : Limbs L} (more : ℕ) {count : ℕ} (h : more + count ≤ 8 * L)
    (lt : u.toNat < 256 ^ count) :
    u.toBytes (more + count) = List.replicate more 0 ++ u.toBytes count := by
  have le : 256 ^ count ≤ 256 ^ (more + count) :=
    Nat.pow_le_pow_right (by decide) (Nat.le_add_left _ _)
  apply Bytes.eq_of_value_eq
  · rw [length_toBytes u _ h, List.length_append, List.length_replicate,
      length_toBytes u count (by omega)]
  · rw [value_toBytes_of_lt h (lt.trans_le le), Bytes.value_replicate_append,
      value_toBytes_of_lt (by omega) lt]

end Limbs

/-- A pair is written over the first bytes of a buffer that is long enough. -/
theorem Bytes.writePair_eq_ok {L count : ℕ} (u v : Limbs L) {out : Bytes} (h : count ≤ 8 * L)
    (room : 2 * count ≤ out.length) :
    writePair count u v out = .ok (u.toBytes count ++ v.toBytes count ++ out.drop (2 * count)) := by
  have first : (out.take count).length = count := by rw [List.length_take]; omega
  have rest : count ≤ (out.drop count).length := by rw [List.length_drop]; omega
  have second : ((out.drop count).take count).length = count := by
    rw [List.length_take, List.length_drop]
    omega
  have tail : (out.drop count).drop count = out.drop (2 * count) := by
    rw [List.drop_drop]
    congr 1
    omega
  have split₁ : split out count = .ok (out.take count, out.drop count) := split_eq_ok (by omega)
  have split₂ := split_eq_ok rest
  simp [writePair, split₁, split₂, Limbs.writeBytes, first, second, h, tail, Bind.bind, Except.bind,
    Pure.pure, Except.pure]

end ShortWeierstrass
