/-
# Reading from and writing into byte strings

Operations on byte strings of any length reach for parts at fixed places, and a
string that is too short for them is a fault. An operation that fills a buffer
takes the buffer's old content and returns the new one: the bytes behind the part
it fills are passed on as they were.

Key definitions: `Bytes.first`, `Bytes.split`, `Bytes.writePair`, `Outcome`.
-/
import ShortWeierstrass.Limbs.Bytes

namespace ShortWeierstrass

/-- The new content of a buffer, and whether what it holds is valid. -/
structure Outcome where
  valid : Bool
  out : Bytes
  deriving DecidableEq, Repr

namespace Bytes

/-- The first byte and the others. -/
def first : Bytes → Except Fault (UInt8 × Bytes)
  | [] => .error .outOfRange
  | byte :: bytes => .ok (byte, bytes)

/-- The first `count` bytes and the others. -/
def split (bytes : Bytes) (count : Nat) : Except Fault (Bytes × Bytes) :=
  if count ≤ bytes.length then .ok (bytes.take count, bytes.drop count) else .error .outOfRange

/-- Writes two numbers over the first `2 * count` bytes, `count` bytes each. -/
def writePair {L : Nat} (count : Nat) (u v : Limbs L) (out : Bytes) : Except Fault Bytes := do
  let (uOut, rest) ← out.split count
  let uBytes ← u.writeBytes uOut
  let (vOut, tail) ← Bytes.split rest count
  let vBytes ← v.writeBytes vOut
  return uBytes ++ vBytes ++ tail

theorem split_eq_ok {bytes : Bytes} {count : Nat} (h : count ≤ bytes.length) :
    bytes.split count = .ok (bytes.take count, bytes.drop count) := if_pos h

theorem split_of_length {bytes : Bytes} {count : Nat} (h : bytes.length = count) :
    bytes.split count = .ok (bytes, []) := by
  rw [split_eq_ok (Nat.le_of_eq h.symm), List.take_of_length_le (Nat.le_of_eq h),
    List.drop_of_length_le (Nat.le_of_eq h)]

theorem split_eq_error {bytes : Bytes} {count : Nat} (h : bytes.length < count) :
    bytes.split count = .error .outOfRange := if_neg (by omega)

end Bytes
end ShortWeierstrass
