/-
# The encoding of a residue is canonical

A residue is stored times `R`, but what is written and what is read are the digits of its value:
the value of the residue of a number is the number again, if it is below the modulus
(`Residue.value_ofLimbs`), and a canonical residue is that of its value (`Residue.ofLimbs_value`).
With the range check on the number before it is taken modulo `m`, a string is read as a residue
just if the residue has its number as value (`Residue.ofBytes?_eq_some_iff`), and not at all from
the modulus on (`Residue.ofBytes?_eq_none_iff`). On strings of one length the number is the string,
so canonical residues and strings below the modulus are in one-to-one correspondence
(`Residue.encoding`), whether the modulus fills its bytes or not.

Key definitions: `Residue.encoding`.
Key theorems: `Residue.ofBytes?_eq_some_iff`, `Residue.isOdd_iff_last_byte`,
`Residue.encoding_is_canonical`.
-/
import Mathlib
import ShortWeierstrass.Proofs.ByteCodec
import ShortWeierstrass.Proofs.Compression

namespace ShortWeierstrass
namespace Residue

variable {L : ℕ} {m : Modulus L}

/-! ### Numbers below the modulus -/

theorem value_ofLimbs {u : Limbs L} (h : u.toNat < m.value.toNat) :
    (ofLimbs u : Residue m).value = u := by
  rw [← Limbs.toNat_inj, (ofLimbs_standsFor u).value_toNat, ZMod.val_natCast, Nat.mod_eq_of_lt h]

theorem ofLimbs_value {x : Residue m} (h : x.Canonical) : ofLimbs x.value = x :=
  ((ofLimbs_standsFor x.value).eq_iff (standsFor_toRing h)).mpr rfl

theorem ofLimbs?_eq_some_iff {u : Limbs L} {x : Residue m} :
    ofLimbs? u = some x ↔ x.Canonical ∧ x.value = u := by
  constructor
  · intro read
    by_cases h : u.toNat < m.value.toNat
    · rw [ofLimbs?_eq_some u h] at read
      obtain rfl := Option.some.inj read
      exact ⟨(ofLimbs_standsFor u).canonical, value_ofLimbs h⟩
    · rw [ofLimbs?_eq_none u h] at read
      cases read
  · rintro ⟨canonical, rfl⟩
    rw [ofLimbs?_eq_some _ x.value_spec.1, ofLimbs_value canonical]

/-! ### Strings -/

section

variable {bytes : Bytes} (fits : bytes.length ≤ 8 * L)
include fits

theorem ofBytes?_eq_some_iff {x : Residue m} :
    ofBytes? m bytes = .ok (some x) ↔ x.Canonical ∧ x.value.toNat = bytes.value := by
  rw [ofBytes?_eq_ok m fits, Except.ok.injEq, ofLimbs?_eq_some_iff, ← Limbs.toNat_inj,
    Limbs.toNat_ofNat_value fits]

theorem ofBytes?_eq_none_iff :
    ofBytes? m bytes = .ok none ↔ m.value.toNat ≤ bytes.value := by
  have number := Limbs.toNat_ofNat_value fits
  rw [ofBytes?_eq_ok m fits, Except.ok.injEq]
  by_cases h : bytes.value < m.value.toNat
  · rw [ofLimbs?_eq_some _ (number.trans_lt h)]
    exact ⟨nofun, fun le => absurd h le.not_gt⟩
  · rw [ofLimbs?_eq_none _ (by rwa [number])]
    exact ⟨fun _ => not_lt.mp h, fun _ => rfl⟩

/-- A string of any length that fits is decided, by its number. -/
theorem exists_ofBytes? (m : Modulus L) :
    ∃ read : Option (Residue m), ofBytes? m bytes = .ok read ∧
      (read.isSome ↔ bytes.value < m.value.toNat) ∧
      ∀ x ∈ read, x.Canonical ∧ x.value.toNat = bytes.value := by
  refine ⟨_, ofBytes?_eq_ok m fits, ?_, fun x read => ?_⟩
  · rw [← not_iff_not, Bool.not_eq_true, Option.isSome_eq_false_iff, Option.isNone_iff_eq_none,
      not_lt, ← ofBytes?_eq_none_iff fits, ofBytes?_eq_ok m fits, Except.ok.injEq]
  · rw [← ofBytes?_eq_some_iff fits, ofBytes?_eq_ok m fits, Option.mem_def.mp read]

end

theorem ofBytes?_toBytes {x : Residue m} (h : x.Canonical) :
    ofBytes? m x.toBytes = .ok (some x) :=
  (ofBytes?_eq_some_iff (x.length_toBytes.trans_le m.byteLength_le)).mpr ⟨h, x.value_toBytes.symm⟩

/-- A string of the length of an encoding is the encoding of what has its number as value. -/
theorem toBytes_eq_of_value {x : Residue m} {bytes : Bytes} (length : bytes.length = m.byteLength)
    (value : x.value.toNat = bytes.value) : x.toBytes = bytes :=
  Bytes.eq_of_value_eq (x.length_toBytes.trans length.symm) (x.value_toBytes.trans value)

theorem writeBytes_eq_toBytes (x : Residue m) {out : Bytes} (length : out.length = m.byteLength) :
    x.writeBytes out = .ok x.toBytes := by
  rw [writeBytes, Limbs.writeBytes, length, if_pos m.byteLength_le, toBytes]

/-- The strings of an encoding's length with a number below the modulus are in one-to-one
correspondence with the canonical residues. -/
def encoding (m : Modulus L) : {x : Residue m // x.Canonical} ≃
    {bytes : Bytes // bytes.length = m.byteLength ∧ bytes.value < m.value.toNat} where
  toFun x := ⟨x.val.toBytes, x.val.length_toBytes, x.val.value_toBytes.trans_lt x.val.value_spec.1⟩
  invFun bytes := ⟨ofLimbs (Limbs.ofNat L bytes.val.value), (ofLimbs_standsFor _).canonical⟩
  left_inv x := by
    simp only [value_toBytes, Limbs.ofNat_toNat, ofLimbs_value x.prop]
  right_inv bytes := by
    obtain ⟨bytes, length, lt⟩ := bytes
    have number := Limbs.toNat_ofNat_value (L := L) (length.trans_le m.byteLength_le)
    refine Subtype.ext (toBytes_eq_of_value length ?_)
    rw [value_ofLimbs (number.trans_lt lt), number]

theorem ofBytes?_eq_encoding_symm
    (bytes : {bytes : Bytes // bytes.length = m.byteLength ∧ bytes.value < m.value.toNat}) :
    ofBytes? m bytes.val = .ok (some ((encoding m).symm bytes).val) := by
  have undone : ((encoding m).symm bytes).val.toBytes = bytes.val :=
    congrArg Subtype.val ((encoding m).apply_symm_apply bytes)
  rw [← undone, ofBytes?_toBytes ((encoding m).symm bytes).prop]

theorem isOdd_iff_last_byte (x : Residue m) :
    x.isOdd = true ↔ x.toBytes.getLastD 0 &&& 1 = 1 := by
  rw [Bytes.getLastD_and_one_iff, value_toBytes, isOdd, Limbs.isOdd_iff]

/-! ### The encoding -/

/-- **Encodings of residues are canonical.** An encoding has the bytes that the bits of the modulus
need. What is written for a canonical residue, over any buffer of that length, is read as the
residue. A string of that length is read just if its number is below the modulus, and then it is
what is written for the residue that is read: reading and writing are inverse bijections. A string
of any other length that fits the words is read just if its number is below the modulus, as the
residue of that value. The parity of a residue is that of the last byte of its encoding. -/
theorem encoding_is_canonical (m : Modulus L) :
    m.byteLength = (m.value.toNat.size + 7) / 8 ∧
    (∀ x : Residue m, x.Canonical → x.toBytes.length = m.byteLength ∧
      (∀ out : Bytes, out.length = m.byteLength → x.writeBytes out = .ok x.toBytes) ∧
      ofBytes? m x.toBytes = .ok (some x)) ∧
    (∀ bytes : Bytes, bytes.length = m.byteLength →
      ∃ read : Option (Residue m), ofBytes? m bytes = .ok read ∧
        (read.isSome ↔ bytes.value < m.value.toNat) ∧
        ∀ x ∈ read, x.Canonical ∧ x.toBytes = bytes) ∧
    (∀ x, (encoding m x).val = x.val.toBytes) ∧
    (∀ bytes, ofBytes? m bytes.val = .ok (some ((encoding m).symm bytes).val)) ∧
    (∀ bytes : Bytes, bytes.length ≤ 8 * L →
      ∃ read : Option (Residue m), ofBytes? m bytes = .ok read ∧
        (read.isSome ↔ bytes.value < m.value.toNat) ∧
        ∀ x ∈ read, x.Canonical ∧ x.value.toNat = bytes.value) ∧
    ∀ x : Residue m, x.isOdd = true ↔ x.toBytes.getLastD 0 &&& 1 = 1 := by
  refine ⟨?length, fun x canonical => ⟨x.length_toBytes, fun out => x.writeBytes_eq_toBytes,
    ofBytes?_toBytes canonical⟩, ?whole, fun _ => rfl, ofBytes?_eq_encoding_symm,
    fun bytes fits => exists_ofBytes? fits m, isOdd_iff_last_byte⟩
  case length => rw [Modulus.byteLength, m.bitLength_eq_size]
  case whole =>
    intro bytes length
    obtain ⟨read, eq, decided, spec⟩ := exists_ofBytes? (length.trans_le m.byteLength_le) m
    exact ⟨read, eq, decided, fun x hx => ⟨(spec x hx).1, toBytes_eq_of_value length (spec x hx).2⟩⟩

/-- Modulo 257, on two bytes: 256 is read and has no other encoding, 257 and 511 are refused, and
255 is read from three bytes as well. -/
theorem encoding_is_canonical_mod257 :
    (∃ x : Residue Small.mod257Base, x.Canonical ∧ ofBytes? _ [1, 0] = .ok (some x) ∧
      x.toBytes = [1, 0] ∧ x.isOdd = false) ∧
    ofBytes? Small.mod257Base [1, 1] = .ok none ∧
    ofBytes? Small.mod257Base [1, 255] = .ok none ∧
    ∃ x : Residue Small.mod257Base, ofBytes? _ [0, 0, 255] = .ok (some x) ∧
      x.toBytes = [0, 255] ∧ x.isOdd = true := by
  obtain ⟨width, -, whole, -, -, any, parity⟩ := encoding_is_canonical Small.mod257Base
  have width : Small.mod257Base.byteLength = 2 := by rw [width, Small.mod257Base_value]; decide
  have refused (bytes : Bytes) (length : bytes.length = 2) (ge : 257 ≤ bytes.value) :
      ofBytes? Small.mod257Base bytes = .ok none := by
    obtain ⟨read, eq, decided, -⟩ := whole bytes (length.trans width.symm)
    rw [Small.mod257Base_value] at decided
    cases read with
    | none => exact eq
    | some x => exact absurd (decided.mp rfl) ge.not_gt
  refine ⟨?_, refused [1, 1] rfl (by decide), refused [1, 255] rfl (by decide), ?_⟩
  · obtain ⟨read, eq, decided, spec⟩ := whole [1, 0] width.symm
    rw [Small.mod257Base_value] at decided
    obtain ⟨x, rfl⟩ := Option.isSome_iff_exists.mp (decided.mpr (by decide))
    obtain ⟨canonical, bytes⟩ := spec x rfl
    refine ⟨x, canonical, eq, bytes, ?_⟩
    rw [← Bool.not_eq_true, parity, bytes]
    decide
  · obtain ⟨read, eq, decided, spec⟩ := any [0, 0, 255] (by decide)
    rw [Small.mod257Base_value] at decided
    obtain ⟨x, rfl⟩ := Option.isSome_iff_exists.mp (decided.mpr (by decide))
    have bytes : x.toBytes = [0, 255] :=
      toBytes_eq_of_value width.symm ((spec x rfl).2.trans (by decide))
    refine ⟨x, eq, bytes, ?_⟩
    rw [parity, bytes]
    decide

end Residue
end ShortWeierstrass
