/-
# Big-endian bytes of numbers

A number is read from at most `8 L` bytes, most significant first; fewer bytes
stand for a number with zeros in front. It is written into any buffer of at
most `8 L` bytes, which takes the lowest bytes of the number. A string or buffer
that is longer is a fault. Neither has to fill whole words: the words are cut
from the far end of the string, so only the topmost one may be partial.

Key definitions: `Bytes.value`, `Limbs.ofBytes`, `Limbs.toBytes`, `Limbs.writeBytes`.
Key theorems: `Limbs.ofBytes_eq_ok` (reading keeps the value), `Limbs.value_toBytes`
(writing keeps the lowest bytes), `Limbs.length_toBytes`.
-/
import ShortWeierstrass.Fault
import ShortWeierstrass.Limbs.Basic

namespace ShortWeierstrass

attribute [local instance (high)] instPowNat

/-- A byte string, or the content of a buffer. -/
abbrev Bytes := List UInt8

namespace Bytes

/-- The number whose digits to base 256 are given, most significant first. -/
def value (bytes : Bytes) : Nat := bytes.foldl (fun n byte => 256 * n + byte.toNat) 0

/-- The number whose digits to base 256 are given, least significant first. -/
def littleEndian : Bytes → Nat
  | [] => 0
  | byte :: bytes => byte.toNat + 256 * littleEndian bytes

theorem littleEndian_lt : ∀ bytes : Bytes, littleEndian bytes < 256 ^ bytes.length
  | [] => by decide
  | byte :: bytes => by
    have ih := littleEndian_lt bytes
    have byte_lt := UInt8.toNat_lt byte
    rw [littleEndian, List.length_cons, Nat.pow_succ]
    omega

theorem littleEndian_append : ∀ as bs : Bytes,
    littleEndian (as ++ bs) = littleEndian as + 256 ^ as.length * littleEndian bs
  | [], bs => by rw [List.nil_append, littleEndian, List.length_nil, Nat.pow_zero]; omega
  | a :: as, bs => by
    rw [List.cons_append, littleEndian, littleEndian, littleEndian_append as bs,
      List.length_cons, Nat.pow_succ', Nat.mul_assoc, Nat.mul_add]
    omega

theorem littleEndian_take (bytes : Bytes) (count : Nat) (h : count ≤ bytes.length) :
    littleEndian (bytes.take count) = littleEndian bytes % 256 ^ count := by
  have length : (bytes.take count).length = count := by rw [List.length_take]; omega
  have lt := littleEndian_lt (bytes.take count)
  have parts := littleEndian_append (bytes.take count) (bytes.drop count)
  rw [List.take_append_drop] at parts
  rw [length] at lt parts
  rw [parts, Nat.add_mul_mod_self_left, Nat.mod_eq_of_lt lt]

theorem littleEndian_reverse (bytes : Bytes) : littleEndian bytes.reverse = value bytes := by
  suffices h : ∀ (bytes : Bytes) (n : Nat), bytes.foldl (fun n byte => 256 * n + byte.toNat) n =
      littleEndian bytes.reverse + 256 ^ bytes.length * n by
    rw [value, h, Nat.mul_zero, Nat.add_zero]
  intro bytes
  induction bytes with
  | nil => intro n; rw [List.foldl_nil, List.reverse_nil, littleEndian, List.length_nil,
      Nat.pow_zero]; omega
  | cons byte bytes ih =>
    intro n
    rw [List.foldl_cons, ih, List.reverse_cons, littleEndian_append, List.length_reverse,
      List.length_cons, littleEndian, littleEndian, Nat.pow_succ, Nat.mul_zero, Nat.add_zero,
      Nat.mul_add, Nat.mul_comm (256 ^ bytes.length) byte.toNat, Nat.mul_assoc]
    omega

end Bytes

namespace Word

/-- The word whose bytes are given, least significant first. -/
def ofLittleEndian (bytes : Bytes) : Word :=
  bytes.foldr (fun byte word => word * 256 + byte.toUInt64) 0

/-- The lowest `count` bytes of a word, least significant first. -/
def toLittleEndian : (count : Nat) → Word → Bytes
  | 0, _ => []
  | count + 1, w => w.toUInt8 :: toLittleEndian count (w >>> 8)

theorem length_toLittleEndian : ∀ (count : Nat) (w : Word),
    (toLittleEndian count w).length = count
  | 0, _ => rfl
  | count + 1, w => by simp [toLittleEndian, length_toLittleEndian count]

theorem ofLittleEndian_toNat : ∀ bytes : Bytes, bytes.length ≤ 8 →
    (ofLittleEndian bytes).toNat = bytes.littleEndian := by
  suffices h : ∀ bytes : Bytes, (ofLittleEndian bytes).toNat = bytes.littleEndian % 2 ^ 64 by
    intro bytes length
    have lt := bytes.littleEndian_lt
    have : 256 ^ bytes.length ≤ 256 ^ 8 := Nat.pow_le_pow_right (by decide) length
    rw [h, Nat.mod_eq_of_lt (by omega)]
  intro bytes
  induction bytes with
  | nil => rfl
  | cons byte bytes ih =>
    have byte_lt := UInt8.toNat_lt byte
    rw [ofLittleEndian, List.foldr_cons, ← ofLittleEndian, UInt64.toNat_add, UInt64.toNat_mul, ih,
      Bytes.littleEndian, UInt8.toNat_toUInt64, show (256 : Word).toNat = 256 from rfl]
    omega

theorem littleEndian_toLittleEndian : ∀ (count : Nat) (w : Word),
    Bytes.littleEndian (toLittleEndian count w) = w.toNat % 256 ^ count
  | 0, w => by rw [toLittleEndian, Bytes.littleEndian, Nat.pow_zero, Nat.mod_one]
  | count + 1, w => by
    have shift : (w >>> 8).toNat = w.toNat / 256 := by
      rw [UInt64.toNat_shiftRight, show (8 : Word).toNat % 64 = 8 from rfl,
        Nat.shiftRight_eq_div_pow]
    have low : w.toUInt8.toNat = w.toNat % 256 := UInt64.toNat_toUInt8 w
    rw [toLittleEndian, Bytes.littleEndian, littleEndian_toLittleEndian count, shift, low,
      Nat.pow_succ', Nat.mod_mul]

end Word

namespace Words

/-- Cuts `length` words of 8 bytes from a byte string, least significant first. -/
def ofLittleEndian : (length : Nat) → Bytes → List Word
  | 0, _ => []
  | length + 1, bytes =>
    Word.ofLittleEndian (bytes.take 8) :: ofLittleEndian length (bytes.drop 8)

/-- All bytes of a list of words, least significant first. -/
def toLittleEndian : List Word → Bytes
  | [] => []
  | w :: ws => Word.toLittleEndian 8 w ++ toLittleEndian ws

theorem length_ofLittleEndian : ∀ (length : Nat) (bytes : Bytes),
    (ofLittleEndian length bytes).length = length
  | 0, _ => rfl
  | length + 1, bytes => by simp [ofLittleEndian, length_ofLittleEndian length]

theorem length_toLittleEndian : ∀ ws : List Word, (toLittleEndian ws).length = 8 * ws.length
  | [] => rfl
  | w :: ws => by
    simp only [toLittleEndian, List.length_append, Word.length_toLittleEndian,
      length_toLittleEndian ws, List.length_cons]
    omega

theorem ofLittleEndian_toNat : ∀ (length : Nat) (bytes : Bytes), bytes.length ≤ 8 * length →
    toNat (ofLittleEndian length bytes) = bytes.littleEndian
  | 0, bytes, h => by
    rw [List.eq_nil_of_length_eq_zero (by omega : bytes.length = 0)]
    rfl
  | length + 1, bytes, h => by
    have rest : (bytes.drop 8).length ≤ 8 * length := by rw [List.length_drop]; omega
    have first : (bytes.take 8).length ≤ 8 := by rw [List.length_take]; omega
    rw [ofLittleEndian, toNat_cons, ofLittleEndian_toNat length _ rest,
      Word.ofLittleEndian_toNat _ first]
    by_cases long : 8 ≤ bytes.length
    · have parts := Bytes.littleEndian_append (bytes.take 8) (bytes.drop 8)
      rw [List.take_append_drop, List.length_take, Nat.min_eq_left long] at parts
      rw [parts, show (256 : Nat) ^ 8 = 2 ^ 64 by decide]
    · rw [List.take_of_length_le (by omega), List.drop_of_length_le (by omega)]
      rw [Bytes.littleEndian]
      omega

theorem littleEndian_toLittleEndian : ∀ ws : List Word,
    Bytes.littleEndian (toLittleEndian ws) = toNat ws
  | [] => rfl
  | w :: ws => by
    have lt := Word.toNat_lt_base w
    rw [toLittleEndian, Bytes.littleEndian_append, Word.littleEndian_toLittleEndian,
      Word.length_toLittleEndian, littleEndian_toLittleEndian ws, toNat_cons,
      show (256 : Nat) ^ 8 = 2 ^ 64 by decide, Nat.mod_eq_of_lt lt]

end Words

namespace Limbs

variable {L : Nat}

/-- The number that at most `8 L` bytes stand for. -/
def ofBytes (L : Nat) (bytes : Bytes) : Except Fault (Limbs L) :=
  if bytes.length ≤ 8 * L then
    .ok ⟨Words.ofLittleEndian L bytes.reverse, Words.length_ofLittleEndian L bytes.reverse⟩
  else
    .error .inputTooLong

/-- The lowest `count` bytes of a number, at most all of them. -/
def toBytes (u : Limbs L) (count : Nat) : Bytes :=
  ((Words.toLittleEndian u.words).take count).reverse

/-- Fills a buffer of at most `8 L` bytes with the lowest bytes of a number. -/
def writeBytes (u : Limbs L) (out : Bytes) : Except Fault Bytes :=
  if out.length ≤ 8 * L then .ok (u.toBytes out.length) else .error .outputTooLong

theorem length_toBytes (u : Limbs L) (count : Nat) (h : count ≤ 8 * L) :
    (u.toBytes count).length = count := by
  rw [toBytes, List.length_reverse, List.length_take, Words.length_toLittleEndian,
    u.length_words]
  omega

/-- A string of at most `8 L` bytes is read as the number it stands for. -/
theorem ofBytes_eq_ok (bytes : Bytes) (h : bytes.length ≤ 8 * L) :
    ofBytes L bytes = .ok (ofNat L bytes.value) := by
  rw [ofBytes, if_pos h]
  congr 1
  rw [← toNat_inj, toNat_ofNat]
  have value := Words.ofLittleEndian_toNat L bytes.reverse (by rwa [List.length_reverse])
  have lt := Words.toNat_lt (Words.ofLittleEndian L bytes.reverse)
  rw [Words.length_ofLittleEndian, value, Bytes.littleEndian_reverse] at lt
  rw [Nat.mod_eq_of_lt lt, ← Bytes.littleEndian_reverse, ← value]
  rfl

/-- The bytes of a number are the digits of its lowest part. -/
theorem value_toBytes (u : Limbs L) (count : Nat) (h : count ≤ 8 * L) :
    Bytes.value (u.toBytes count) = u.toNat % 256 ^ count := by
  rw [← Bytes.littleEndian_reverse, toBytes, List.reverse_reverse, Bytes.littleEndian_take,
    Words.littleEndian_toLittleEndian]
  · rfl
  · rwa [Words.length_toLittleEndian, u.length_words]

end Limbs
end ShortWeierstrass
