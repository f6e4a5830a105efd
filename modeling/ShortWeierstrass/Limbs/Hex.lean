/-
# Hexadecimal text of numbers

A number of `L` words is written in exactly `16 L` digits, with zeros in front and
letters of one case. It is read from a text of exactly `16 L` bytes with letters
of either case; the length is checked before the digits.

Key definitions: `Hex.digit?`, `Hex.digitChar`, `Limbs.ofHex`, `Limbs.toHex`.
Key theorems: `Limbs.ofHex_toHex` (a number is read back from its digits, in either case).
-/
import ShortWeierstrass.Fault
import ShortWeierstrass.Limbs.Basic

namespace ShortWeierstrass

attribute [local instance (high)] instPowNat

namespace Hex

/-- The case of the letters among the digits. -/
inductive LetterCase where
  | lower
  | upper
  deriving DecidableEq, Repr

/-- The value of a digit of either case. -/
def digit? (c : Char) : Option Nat :=
  if '0' ≤ c ∧ c ≤ '9' then some (c.toNat - '0'.toNat)
  else if 'a' ≤ c ∧ c ≤ 'f' then some (c.toNat - 'a'.toNat + 10)
  else if 'A' ≤ c ∧ c ≤ 'F' then some (c.toNat - 'A'.toNat + 10)
  else none

/-- The digit of a value below 16. -/
def digitChar : LetterCase → Nat → Char
  | .lower, d => d.digitChar
  | .upper, d => d.digitChar.toUpper

/-- The lowest `count` digits of a number, least significant first. -/
def digits (letters : LetterCase) : (count : Nat) → Nat → List Char
  | 0, _ => []
  | count + 1, n => digitChar letters (n % 16) :: digits letters count (n / 16)

/-- The number whose digits are given, most significant first. -/
def value (ds : List Nat) : Nat := ds.foldl (fun n d => 16 * n + d) 0

theorem digit?_digitChar : ∀ (letters : LetterCase) (d : Nat), d < 16 →
    digit? (digitChar letters d) = some d := by
  intro letters d h
  have table : ∀ d : Fin 16, digit? (digitChar .lower d) = some d.val ∧
      digit? (digitChar .upper d) = some d.val := by decide
  cases letters
  · exact (table ⟨d, h⟩).1
  · exact (table ⟨d, h⟩).2

theorem utf8Size_digitChar : ∀ (letters : LetterCase) (d : Nat), d < 16 →
    (digitChar letters d).utf8Size = 1 := by
  intro letters d h
  have table : ∀ d : Fin 16, (digitChar .lower d).utf8Size = 1 ∧
      (digitChar .upper d).utf8Size = 1 := by decide
  cases letters
  · exact (table ⟨d, h⟩).1
  · exact (table ⟨d, h⟩).2

theorem value_concat (ds : List Nat) (d : Nat) : value (ds ++ [d]) = 16 * value ds + d := by
  rw [value, List.foldl_append]
  rfl

theorem mapM_digits (letters : LetterCase) : ∀ count n : Nat,
    ∃ ds, (digits letters count n).reverse.mapM digit? = some ds ∧ value ds = n % 16 ^ count
  | 0, n => ⟨[], rfl, by rw [Nat.pow_zero, Nat.mod_one]; rfl⟩
  | count + 1, n => by
    obtain ⟨ds, read, value_ds⟩ := mapM_digits letters count (n / 16)
    refine ⟨ds ++ [n % 16], ?_, ?_⟩
    · rw [digits, List.reverse_cons, List.mapM_append, read, List.mapM_cons,
        digit?_digitChar letters _ (Nat.mod_lt _ (by decide))]
      rfl
    · rw [value_concat, value_ds, Nat.pow_succ', Nat.mod_mul, Nat.add_comm]

theorem utf8ByteSize_digits (letters : LetterCase) : ∀ count n : Nat,
    (String.ofList (digits letters count n).reverse).utf8ByteSize = count
  | 0, _ => by rw [digits, List.reverse_nil, String.ofList_nil, String.utf8ByteSize_empty]
  | count + 1, n => by
    rw [digits, List.reverse_cons, String.ofList_append, String.utf8ByteSize_append,
      utf8ByteSize_digits letters count, String.ofList_cons, String.utf8ByteSize_append,
      String.utf8ByteSize_singleton, String.ofList_nil, String.utf8ByteSize_empty, Nat.add_zero,
      utf8Size_digitChar letters _ (Nat.mod_lt _ (by decide))]

end Hex

namespace Limbs

variable {L : Nat}

/-- The number that a text of exactly `16 L` digits stands for. -/
def ofHex (L : Nat) (text : String) : Except Fault (Limbs L) :=
  if text.utf8ByteSize = 16 * L then
    match text.toList.mapM Hex.digit? with
    | some ds => .ok (ofNat L (Hex.value ds))
    | none => .error .hexDigit
  else
    .error .hexLength

/-- All `16 L` digits of a number. -/
def toHex (letters : Hex.LetterCase) (u : Limbs L) : String :=
  String.ofList (Hex.digits letters (16 * L) u.toNat).reverse

/-- A number is read back from its digits, in either case. -/
theorem ofHex_toHex (letters : Hex.LetterCase) (u : Limbs L) :
    ofHex L (u.toHex letters) = .ok u := by
  obtain ⟨ds, read, value⟩ := Hex.mapM_digits letters (16 * L) u.toNat
  have lt : u.toNat < 16 ^ (16 * L) := by
    have := u.toNat_lt
    rwa [show (16 : Nat) ^ (16 * L) = 2 ^ (64 * L) by
      rw [show (16 : Nat) = 2 ^ 4 by decide, ← Nat.pow_mul]
      congr 1
      omega]
  rw [toHex, ofHex, if_pos (Hex.utf8ByteSize_digits letters _ _), String.toList_ofList, read]
  show Except.ok (ofNat L (Hex.value ds)) = Except.ok u
  rw [value, Nat.mod_eq_of_lt lt, ofNat_toNat]

end Limbs
end ShortWeierstrass
