/-
# Hexadecimal text and residues

A digit is a character whose small form is in the alphabet, and its place there is its value
(`Hex.IsDigit`, `Hex.digitValue`); the ranges that the reader compares with are just that
(`Hex.digit?_eq`), by the table of the 128 characters of one byte. A text is read character by
character as the number with these values as digits to base 16 (`Hex.value_eq_ofDigits`), and the
digits written for that number are the characters in one case (`Hex.digits_value`), by induction on
the last character. A text of digits has as many bytes as characters, so `16 L` bytes hold a number
that fits `L` words (`Limbs.toNat_ofNat_textValue`), and what is left to decide is whether it is
below the modulus (`Residue.ofHex_eq`). The digits are those of the value of a residue, not of the
number that is stored.

Key definitions: `Hex.IsDigit`, `Hex.digitValue`, `Hex.textValue`.
Key theorems: `Hex.digit?_eq`, `Hex.digits_value`, `Limbs.toHex_ofNat_textValue`,
`Residue.ofHex_eq`, `Residue.hex_codec`.
-/
import Mathlib
import ShortWeierstrass.Proofs.ResidueCodec

namespace ShortWeierstrass

/-! ### Digits -/

namespace Hex

/-- The digits in the order of their values, with small letters. -/
def alphabet : List Char :=
  ['0', '1', '2', '3', '4', '5', '6', '7', '8', '9', 'a', 'b', 'c', 'd', 'e', 'f']

/-- A digit, of either case. -/
def IsDigit (c : Char) : Prop := c.toLower ∈ alphabet

instance : DecidablePred IsDigit := fun c => inferInstanceAs (Decidable (c.toLower ∈ alphabet))

/-- The place of a digit in the alphabet. -/
def digitValue (c : Char) : ℕ := alphabet.idxOf c.toLower

/-- A character with the case of the letters. -/
def LetterCase.apply : LetterCase → Char → Char
  | .lower => Char.toLower
  | .upper => Char.toUpper

/-- What holds of the 128 characters of one byte holds of any character that is one of them. -/
theorem of_ascii {p : Char → Prop} (table : ∀ code : Fin 128, p (Char.ofNat code)) {c : Char}
    (h : c.toNat < 128) : p c := by
  have at_code := table ⟨c.toNat, h⟩
  rwa [Char.ofNat_toNat] at at_code

theorem IsDigit.toNat_lt {c : Char} (h : IsDigit c) : c.toNat < 128 := by
  have table : ∀ c ∈ alphabet, c.toNat < 128 := by simp [alphabet]
  unfold IsDigit Char.toLower at h
  split at h
  · rename_i letter
    have le : c.toNat ≤ 'Z'.toNat := letter.2
    exact le.trans_lt (by decide)
  · exact table c h

theorem toNat_lt_of_digit? {c : Char} {d : ℕ} (h : digit? c = some d) : c.toNat < 128 := by
  have bound {top : Char} (le : c ≤ top) (lt : top.toNat < 128) : c.toNat < 128 :=
    Nat.lt_of_le_of_lt le lt
  unfold digit? at h
  split at h
  · rename_i range
    exact bound range.2 (by decide)
  · split at h
    · rename_i range
      exact bound range.2 (by decide)
    · split at h
      · rename_i range
        exact bound range.2 (by decide)
      · cases h

theorem digit?_eq (c : Char) : digit? c = if IsDigit c then some (digitValue c) else none := by
  by_cases ascii : c.toNat < 128
  · exact of_ascii (p := fun c => digit? c = if IsDigit c then some (digitValue c) else none)
      (by decide +kernel) ascii
  · rw [if_neg fun h : IsDigit c => ascii h.toNat_lt]
    exact Option.eq_none_iff_forall_ne_some.mpr fun d h => ascii (toNat_lt_of_digit? h)

theorem IsDigit.utf8Size {c : Char} (h : IsDigit c) : c.utf8Size = 1 :=
  Char.utf8Size_eq_one_iff.mpr (Nat.le_of_lt_succ h.toNat_lt)

theorem digitChar_digitValue (letters : LetterCase) {c : Char} (h : IsDigit c) :
    digitChar letters (digitValue c) = letters.apply c := by
  cases letters
  · exact of_ascii (p := fun c => IsDigit c → digitChar .lower (digitValue c) = c.toLower)
      (by decide +kernel) h.toNat_lt h
  · exact of_ascii (p := fun c => IsDigit c → digitChar .upper (digitValue c) = c.toUpper)
      (by decide +kernel) h.toNat_lt h

theorem digitValue_lt {c : Char} (h : IsDigit c) : digitValue c < 16 :=
  List.idxOf_lt_length_of_mem h

/-! ### Strings of digits -/

/-- The number of a text with its characters as digits to base 16. -/
def textValue (text : String) : ℕ := Nat.ofDigits 16 (text.toList.reverse.map digitValue)

theorem value_eq_ofDigits (ds : List ℕ) : value ds = Nat.ofDigits 16 ds.reverse := by
  rw [Nat.ofDigits_eq_foldr, List.foldr_reverse, value]
  simp only [Nat.cast_id, Nat.add_comm]

theorem value_map_digitValue (text : String) :
    value (text.toList.map digitValue) = textValue text := by
  rw [value_eq_ofDigits, ← List.map_reverse, textValue]

theorem mapM_digit?_eq (cs : List Char) :
    cs.mapM digit? = if ∀ c ∈ cs, IsDigit c then some (cs.map digitValue) else none := by
  induction cs with
  | nil => exact (if_pos nofun).symm
  | cons c cs ih =>
    rw [List.mapM_cons, digit?_eq, ih]
    by_cases first : IsDigit c
    · by_cases rest : ∀ c ∈ cs, IsDigit c
      · rw [if_pos first, if_pos rest, if_pos (List.forall_mem_cons.mpr ⟨first, rest⟩)]
        rfl
      · rw [if_pos first, if_neg rest, if_neg fun all => rest (List.forall_mem_cons.mp all).2]
        rfl
    · rw [if_neg first, if_neg fun all => first (List.forall_mem_cons.mp all).1]
      rfl

section

variable {cs : List Char} (digit : ∀ c ∈ cs, IsDigit c)
include digit

theorem value_lt : value (cs.map digitValue) < 16 ^ cs.length := by
  have small : ∀ d ∈ (cs.map digitValue).reverse, d < 16 := by
    intro d mem
    obtain ⟨c, c_mem, rfl⟩ := List.mem_map.mp (List.mem_reverse.mp mem)
    exact digitValue_lt (digit c c_mem)
  have lt := Nat.ofDigits_lt_base_pow_length (by decide) small
  rwa [← value_eq_ofDigits, List.length_reverse, List.length_map] at lt

theorem utf8Len_eq_length : String.utf8Len cs = cs.length := by
  induction cs with
  | nil => rfl
  | cons c cs ih =>
    obtain ⟨first, rest⟩ := List.forall_mem_cons.mp digit
    rw [String.utf8Len_cons, ih rest, first.utf8Size, List.length_cons]

theorem digits_value (letters : LetterCase) :
    (digits letters cs.length (value (cs.map digitValue))).reverse = cs.map letters.apply := by
  induction cs using List.reverseRecOn with
  | nil => rfl
  | append_singleton cs c ih =>
    obtain ⟨front, last⟩ := List.forall_mem_append.mp digit
    have last : IsDigit c := last c (List.mem_singleton_self c)
    have lt := digitValue_lt last
    have remainder : (16 * value (cs.map digitValue) + digitValue c) % 16 = digitValue c := by
      omega
    have quotient : (16 * value (cs.map digitValue) + digitValue c) / 16 =
        value (cs.map digitValue) := by omega
    rw [List.length_append, List.length_singleton, List.map_append, List.map_singleton,
      value_concat, digits, remainder, quotient, List.reverse_cons, ih front,
      digitChar_digitValue letters last, List.map_append, List.map_singleton]

end

end Hex

/-! ### Numbers -/

namespace Limbs

variable {L : ℕ} {text : String}

theorem ofHex_eq (L : ℕ) (text : String) :
    ofHex L text =
      if text.utf8ByteSize ≠ 16 * L then .error .hexLength
      else if ∀ c ∈ text.toList, Hex.IsDigit c then .ok (ofNat L (Hex.textValue text))
      else .error .hexDigit := by
  rw [ofHex, ite_not, Hex.mapM_digit?_eq, ← Hex.value_map_digitValue]
  by_cases digit : ∀ c ∈ text.toList, Hex.IsDigit c
  · rw [if_pos digit, if_pos digit]
  · rw [if_neg digit, if_neg digit]

section

variable (length : text.utf8ByteSize = 16 * L) (digit : ∀ c ∈ text.toList, Hex.IsDigit c)
include length digit

theorem length_of_digits : text.toList.length = 16 * L := by
  rw [← Hex.utf8Len_eq_length digit, ← String.utf8ByteSize_ofList, String.ofList_toList, length]

theorem toNat_ofNat_textValue : (ofNat L (Hex.textValue text)).toNat = Hex.textValue text := by
  have lt := Hex.value_lt digit
  have words : 16 ^ (16 * L) = 2 ^ (64 * L) := by
    rw [show 64 * L = 4 * (16 * L) by omega, pow_mul 2 4]
    norm_num
  rw [length_of_digits length digit, Hex.value_map_digitValue, words] at lt
  exact toNat_ofNat_of_lt lt

theorem toHex_ofNat_textValue (letters : Hex.LetterCase) :
    (ofNat L (Hex.textValue text)).toHex letters = text.map letters.apply := by
  rw [toHex, toNat_ofNat_textValue length digit, ← length_of_digits length digit,
    ← Hex.value_map_digitValue, Hex.digits_value digit, ← String.toList_inj, String.toList_ofList,
    String.toList_map]

end

end Limbs

/-! ### Residues -/

namespace Residue

variable {L : ℕ} {m : Modulus L}

theorem ofHex_toHex {x : Residue m} (canonical : x.Canonical) (letters : Hex.LetterCase) :
    ofHex m (x.toHex letters) = .ok x := by
  rw [ofHex, toHex, Limbs.ofHex_toHex]
  simp only [Bind.bind, Except.bind, ofLimbs?_eq_some_iff.mpr ⟨canonical, rfl⟩]
  rfl

/-- The length is checked first, then the digits, then the number. -/
theorem ofHex_eq (m : Modulus L) (text : String) :
    ofHex m text =
      if text.utf8ByteSize ≠ 16 * L then .error .hexLength
      else if ¬ ∀ c ∈ text.toList, Hex.IsDigit c then .error .hexDigit
      else if m.value.toNat ≤ Hex.textValue text then .error .hexOverflow
      else .ok (.ofNat (Hex.textValue text)) := by
  rw [ofHex, Limbs.ofHex_eq, ite_not (p := ∀ c ∈ text.toList, Hex.IsDigit c)]
  by_cases length : text.utf8ByteSize = 16 * L
  · rw [if_neg (not_not.mpr length), if_neg (not_not.mpr length)]
    by_cases digit : ∀ c ∈ text.toList, Hex.IsDigit c
    · have number := Limbs.toNat_ofNat_textValue length digit
      rw [if_pos digit, if_pos digit]
      by_cases lt : Hex.textValue text < m.value.toNat
      · rw [if_neg lt.not_ge]
        simp only [Bind.bind, Except.bind, ofLimbs?_eq_some _ (number.trans_lt lt)]
        rfl
      · rw [if_pos (not_lt.mp lt)]
        simp only [Bind.bind, Except.bind, ofLimbs?_eq_none (m := m) _ (number.symm ▸ lt)]
        rfl
    · rw [if_neg digit, if_neg digit]
      rfl
  · rw [if_pos length, if_pos length]
    rfl

/-- What is accepted is canonical, has the number of the text, and is written as the text in either
case. -/
theorem spec_of_ofHex_eq_ok {text : String} {x : Residue m} (read : ofHex m text = .ok x) :
    text.utf8ByteSize = 16 * L ∧ (∀ c ∈ text.toList, Hex.IsDigit c) ∧
      Hex.textValue text < m.value.toNat ∧ x.Canonical ∧ x.value.toNat = Hex.textValue text ∧
      ∀ letters : Hex.LetterCase, x.toHex letters = text.map letters.apply := by
  rw [ofHex_eq] at read
  split_ifs at read with length digit below
  rw [not_not] at length
  rw [not_le] at below
  obtain rfl := Except.ok.inj read
  have number := Limbs.toNat_ofNat_textValue length digit
  have value : (Residue.ofNat (Hex.textValue text) : Residue m).value =
      Limbs.ofNat L (Hex.textValue text) := value_ofLimbs (number.trans_lt below)
  refine ⟨length, digit, below, (ofLimbs_standsFor _).canonical, ?_, fun letters => ?_⟩
  · rw [value, number]
  · rw [toHex, value, Limbs.toHex_ofNat_textValue length digit]

/-- **Hexadecimal text is read and written inversely.** A residue is read back from its digits,
with small letters and with capital ones. Of all texts just those are accepted that have `16 L`
bytes, all of them digits, and a number below the modulus; another text is stopped for its length,
else for a character that is no digit, else for its number. What is accepted has the number of
the text as value and is written as the text in lower case, or in upper case. -/
theorem hex_codec (m : Modulus L) :
    (∀ (x : Residue m) (letters : Hex.LetterCase), x.Canonical →
      ofHex m (x.toHex letters) = .ok x) ∧
    ∀ text : String,
      ((∃ x, ofHex m text = .ok x) ↔ text.utf8ByteSize = 16 * L ∧
        (∀ c ∈ text.toList, Hex.IsDigit c) ∧ Hex.textValue text < m.value.toNat) ∧
      (ofHex m text = .error .hexLength ↔ text.utf8ByteSize ≠ 16 * L) ∧
      (ofHex m text = .error .hexDigit ↔ text.utf8ByteSize = 16 * L ∧
        ∃ c ∈ text.toList, ¬ Hex.IsDigit c) ∧
      (ofHex m text = .error .hexOverflow ↔ text.utf8ByteSize = 16 * L ∧
        (∀ c ∈ text.toList, Hex.IsDigit c) ∧ m.value.toNat ≤ Hex.textValue text) ∧
      ∀ x, ofHex m text = .ok x → x.Canonical ∧ x.value.toNat = Hex.textValue text ∧
        x.toHex .lower = text.toLower ∧ x.toHex .upper = text.toUpper := by
  refine ⟨fun x letters canonical => ofHex_toHex canonical letters, fun text =>
    ⟨⟨?sound, ?complete⟩, ?length, ?digit, ?number, fun x read => ?_⟩⟩
  case sound =>
    rintro ⟨x, read⟩
    obtain ⟨length, digit, lt, -⟩ := spec_of_ofHex_eq_ok read
    exact ⟨length, digit, lt⟩
  case complete =>
    rintro ⟨length, digit, lt⟩
    rw [ofHex_eq, if_neg (not_not.mpr length), if_neg (not_not.mpr digit), if_neg lt.not_ge]
    exact ⟨_, rfl⟩
  case length | digit | number =>
    rw [ofHex_eq]
    split_ifs <;> simp_all
  obtain ⟨-, -, -, canonical, value, written⟩ := spec_of_ofHex_eq_ok read
  exact ⟨canonical, value, written .lower, written .upper⟩

/-- Modulo 257, on sixteen digits: 171 is read in mixed case and 256 is read; 257, a letter that
is no digit and a text of fifteen characters are stopped, each for its own reason. -/
theorem hex_codec_mod257 :
    (∃ x : Residue Small.mod257Base, x.Canonical ∧ x.value.toNat = 171 ∧
      ofHex _ "00000000000000aB" = .ok x ∧ x.toHex .lower = "00000000000000ab" ∧
      ofHex _ (x.toHex .upper) = .ok x) ∧
    (∃ x, ofHex Small.mod257Base "0000000000000100" = .ok x) ∧
    ofHex Small.mod257Base "0000000000000101" = .error .hexOverflow ∧
    ofHex Small.mod257Base "00000000000001g0" = .error .hexDigit ∧
    ofHex Small.mod257Base "00000000000001g" = .error .hexLength := by
  obtain ⟨back, texts⟩ := hex_codec Small.mod257Base
  rw [Small.mod257Base_value] at texts
  refine ⟨?_, ?_, ?_, ?_, ?_⟩
  · have accepted := texts "00000000000000aB"
    obtain ⟨x, read⟩ := accepted.1.mpr
      ⟨rfl, List.all_iff_forall_prop.mp rfl, by decide +kernel⟩
    obtain ⟨canonical, value, lower, -⟩ := accepted.2.2.2.2 x read
    exact ⟨x, canonical, value.trans (by decide +kernel), read, lower.trans (by decide +kernel),
      back x .upper canonical⟩
  · exact (texts _).1.mpr ⟨rfl, List.all_iff_forall_prop.mp rfl, by decide +kernel⟩
  · exact (texts _).2.2.2.1.mpr ⟨rfl, List.all_iff_forall_prop.mp rfl, by decide +kernel⟩
  · exact (texts _).2.2.1.mpr ⟨rfl, List.any_iff_exists_prop.mp rfl⟩
  · exact (texts _).2.1.mpr (by decide +kernel)

end Residue
end ShortWeierstrass
