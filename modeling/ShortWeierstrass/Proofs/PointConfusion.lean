/-
# What is written for a point is not read as another

A point is written raw, uncompressed or compressed (`PointCode`), the identity as well, with zeros
for its coordinates and no flag. A string that encodes a finite point encodes no other, so what is
written for a finite point is read as that point. The identity's strings need a look each: all
zeros raw, or behind the tag 04, would encode the point `(0, 0)`, which a curve of odd order does
not have (`Curve.y_ne_zero`). But 02 and zeros is the compressed encoding of the point over the
first coordinate 0 whose second one is even, and a curve has that point if `b` is a square.

So no string is read as another point than it was written for exactly if `b` is no square
(`Domain.unconfused_iff`). Half of that needs no root to be found: whatever the root of unity of
the base modulus is, a root that is returned is one.

Key definitions: `PointCode`, `PointCode.Writes`, `PointCode.Unconfused`.
Key theorems: `PointCode.unconfused_of_isPoint`, `PointCode.unconfused_infinity`,
`Domain.unconfused_iff`, `Small.not_unconfused_mod257`.
-/
import Mathlib
import ShortWeierstrass.Proofs.GroupOrder
import ShortWeierstrass.Proofs.PointSources
import ShortWeierstrass.Proofs.Totality

namespace ShortWeierstrass

variable {L : ℕ} {c : Curve L}

/-- The ways to write a point as one string. -/
inductive PointCode where
  | raw
  | uncompressed
  | compressed
  deriving DecidableEq

namespace PointCode

/-- The length of the strings. -/
def length (c : Curve L) : PointCode → ℕ
  | raw => 2 * c.coordinateBytes
  | uncompressed => 2 * c.coordinateBytes + 1
  | compressed => c.coordinateBytes + 1

/-- Writes a point over a buffer. -/
def write : PointCode → Affine c → Bytes → Except Fault Bytes
  | raw => Affine.writeRaw
  | uncompressed => Affine.writeUncompressed
  | compressed => Affine.writeCompressed

/-- The reader that takes the strings. -/
def read (c : Curve L) : PointCode → Bytes → Except Fault (Option (Affine c))
  | raw => Affine.ofRaw? c
  | uncompressed | compressed => Affine.ofTagged? c

/-- Every buffer of just the length is filled with the string. -/
def Writes (code : PointCode) (q : Affine c) (bytes : Bytes) : Prop :=
  ∀ out : Bytes, out.length = code.length c → code.write q out = .ok bytes

/-- What is written for the point is read as that point, or turned down. -/
def Unconfused (code : PointCode) (q : Affine c) : Prop :=
  ∃ bytes found, code.Writes q bytes ∧ code.read c bytes = .ok found ∧ ∀ q' ∈ found, q' = q

/-- The string that a point is written as. -/
def encode : PointCode → Affine c → Bytes
  | raw, q => q.toRaw
  | uncompressed, q => PointForm.uncompressed.tag :: q.toRaw
  | compressed, q => (PointForm.compressed q.y.isOdd).tag :: q.x.toBytes

/-- The string encodes the element for the reader of the code. -/
def Encodes (c : Curve L) : PointCode → Bytes → c.Group → Prop
  | raw => c.IsRaw
  | uncompressed | compressed => c.IsTagged

variable {code : PointCode} {q r : Affine c} {g g' : c.Group} {bytes bytes' : Bytes}

theorem writes_encode (code : PointCode) (q : Affine c) : code.Writes q (code.encode q) := by
  intro out length
  cases code with
  | raw => exact q.writeRaw_of_length length
  | uncompressed => exact q.writeUncompressed_of_length length
  | compressed => exact q.writeCompressed_eq_ok length

theorem Writes.eq_encode (h : code.Writes q bytes) : bytes = code.encode q := by
  have length : (List.replicate (code.length c) (0 : UInt8)).length = code.length c :=
    List.length_replicate
  have written := h _ length
  rw [code.writes_encode q _ length] at written
  exact (Except.ok.inj written).symm

theorem exists_read_eq_ok (code : PointCode) (bytes : Bytes) :
    ∃ found, code.read c bytes = .ok found := by
  cases code with
  | raw => exact Affine.exists_ofRaw?_eq_ok c bytes
  | uncompressed => exact Affine.exists_ofTagged?_eq_ok c bytes
  | compressed => exact Affine.exists_ofTagged?_eq_ok c bytes

/-- If every reading of a string is the point itself, there is no confusion. -/
theorem unconfused_of_encode (h : ∀ q', code.read c (code.encode q) = .ok (some q') → q' = q) :
    code.Unconfused q := by
  obtain ⟨found, read⟩ := code.exists_read_eq_ok (c := c) (code.encode q)
  refine ⟨_, found, code.writes_encode q, read, ?_⟩
  rintro q' ⟨⟩
  exact h q' read

theorem Unconfused.eq_of_read (h : code.Unconfused q) (written : code.Writes q bytes)
    (read : code.read c bytes = .ok (some r)) : r = q := by
  obtain ⟨bytes', found, written', read', same⟩ := h
  rw [written.eq_encode, ← written'.eq_encode, read'] at read
  exact same r (Except.ok.inj read)

variable [c.Elliptic]

theorem Encodes.unique (h : code.Encodes c bytes g) (h' : code.Encodes c bytes g') : g = g' := by
  cases code with
  | raw => exact Curve.IsRaw.unique h h'
  | uncompressed => exact Curve.IsTagged.unique h h'
  | compressed => exact Curve.IsTagged.unique h h'

theorem encodes_encode (code : PointCode) (stands : q.StandsFor g) (finite : g ≠ 0) :
    code.Encodes c (code.encode q) g := by
  cases code with
  | raw => exact stands.isRaw finite
  | uncompressed => exact Curve.isTagged_tag_iff.mpr (stands.isRaw finite)
  | compressed => exact Curve.isTagged_tag_iff.mpr (stands.isCompressed finite)

variable [c.OddOrder]

theorem encodes_of_read (read : code.read c bytes = .ok (some q)) :
    ∃ g, code.Encodes c bytes g ∧ q.StandsFor g := by
  cases code with
  | raw => exact Affine.ofRaw?_eq_some_iff.mp read
  | uncompressed => exact Affine.ofTagged?_eq_some read
  | compressed => exact Affine.ofTagged?_eq_some read

/-! ### Finite points -/

/-- What is written for a finite point encodes it and no other. -/
theorem unconfused_of_isPoint (code : PointCode) (h : q.IsPoint) : code.Unconfused q := by
  obtain ⟨g, finite, stands⟩ := Affine.isPoint_iff.mp h
  apply unconfused_of_encode
  intro q' read
  obtain ⟨g', encoded, stands'⟩ := encodes_of_read read
  obtain rfl := encoded.unique (code.encodes_encode stands finite)
  exact stands'.unique stands

/-! ### The identity -/

omit [c.Elliptic] [c.OddOrder] in
theorem value_zero_toBytes : (0 : Residue c.base).toBytes.value = 0 :=
  (Residue.zero_standsFor.value_toBytes c.base.byteLength_le c.base.value_le).trans ZMod.val_zero

/-- Zeros for both coordinates would be those of the point `(0, 0)`, of order 2. -/
theorem not_isRaw_infinity : ¬ c.IsRaw (Affine.infinity : Affine c).toRaw g := by
  intro raw
  have length : (0 : Residue c.base).toBytes.length = c.coordinateBytes := Residue.length_toBytes _
  have zeros : (Affine.infinity : Affine c).toRaw =
      (0 : Residue c.base).toBytes ++ (0 : Residue c.base).toBytes := rfl
  have second : c.rawY (Affine.infinity : Affine c).toRaw = 0 := by
    rw [Curve.rawY, zeros, List.drop_left' length, value_zero_toBytes]
  obtain ⟨on, -⟩ := raw.point
  apply Curve.y_ne_zero on
  rw [second, Nat.cast_zero]

omit [c.Elliptic] [c.OddOrder] in
theorem cubic_zero (c : Curve L) : c.cubic 0 = c.b.toRing := by
  unfold Curve.cubic
  ring

omit [c.Elliptic] [c.OddOrder] in
theorem encode_infinity_compressed : compressed.encode (Affine.infinity : Affine c) =
    (PointForm.compressed false).tag :: (0 : Residue c.base).toBytes := by
  have even : (0 : Residue c.base).isOdd = false := by
    rw [← Bool.not_eq_true, Residue.zero_standsFor.isOdd_iff, ZMod.val_zero]
    decide
  show (PointForm.compressed (0 : Residue c.base).isOdd).tag :: _ = _
  rw [even]
  rfl

/-- Only compressed, and only if `b` is a square, a point is read from what the identity is
written as. -/
theorem unconfused_infinity (code : PointCode)
    (noSquare : code = compressed → ¬ IsSquare c.b.toRing) :
    code.Unconfused (Affine.infinity : Affine c) := by
  apply unconfused_of_encode
  intro q' read
  exfalso
  obtain ⟨g, encoded, -⟩ := encodes_of_read read
  cases code with
  | raw => exact not_isRaw_infinity encoded
  | uncompressed => exact not_isRaw_infinity (Curve.isTagged_tag_iff.mp encoded)
  | compressed =>
    rw [encode_infinity_compressed] at encoded
    obtain ⟨-, -, y, Y, on, -⟩ : c.IsCompressed false _ g := Curve.isTagged_tag_iff.mp encoded
    apply noSquare rfl
    rw [← cubic_zero, Curve.isSquare_cubic_iff]
    rw [value_zero_toBytes, Nat.cast_zero] at on
    exact ⟨Y, on⟩

theorem not_unconfused_infinity [c.base.Rooted] (square : IsSquare c.b.toRing) :
    ¬ compressed.Unconfused (Affine.infinity : Affine c) := by
  intro unconfused
  have length : (0 : Residue c.base).toBytes.length = c.coordinateBytes := Residue.length_toBytes _
  obtain ⟨g, encoded⟩ : ∃ g, c.IsCompressed false (0 : Residue c.base).toBytes g := by
    apply Curve.exists_isCompressed_iff.mpr
    rw [value_zero_toBytes, Nat.cast_zero, cubic_zero]
    exact ⟨length, c.base.value_pos, square⟩
  have tagged : c.IsTagged (compressed.encode (Affine.infinity : Affine c)) g := by
    rw [encode_infinity_compressed]
    exact Curve.isTagged_tag_iff.mpr encoded
  obtain ⟨q, read⟩ := (Affine.ofTagged?_spec _).exists_iff.mpr ⟨g, tagged⟩
  obtain rfl := unconfused.eq_of_read (writes_encode _ _) read
  obtain ⟨g', tagged', stands⟩ := Affine.ofTagged?_eq_some read
  obtain rfl := tagged'.unique tagged
  cases stands with
  | infinity => exact encoded.ne_zero rfl

end PointCode

/-- **No string is read as another point than it was written for, exactly if `b` is no square.**
Of the points that are made, every one is read back from its strings as itself or not at all, but
for the identity compressed on a curve whose `b` is a square; apart from it, two points that share
a string which their reader takes are the same; and where `b` is a square and roots are found, the
identity compressed is read as another point. -/
theorem Domain.unconfused_iff (d : Domain L) [d.toCurve.Elliptic] [d.toCurve.OddOrder]
    (generator : d.basePoint.Valid) :
    (∀ (code : PointCode) (q : Affine d.toCurve), d.Makes (.affine q) →
      (IsSquare d.b.toRing → code = .compressed → q ≠ .infinity) → code.Unconfused q) ∧
    (∀ (code code' : PointCode) (q q' r : Affine d.toCurve) (bytes : Bytes),
      d.Makes (.affine q) → d.Makes (.affine q') →
      (IsSquare d.b.toRing → q ≠ .infinity ∧ q' ≠ .infinity) →
      code.Writes q bytes → code'.Writes q' bytes →
      code.read d.toCurve bytes = .ok (some r) → code'.read d.toCurve bytes = .ok (some r) →
      q = q') ∧
    (d.base.Rooted →
      ((∀ (code : PointCode) (q : Affine d.toCurve), d.Makes (.affine q) → code.Unconfused q) ↔
        ¬ IsSquare d.b.toRing)) := by
  have unconfused : ∀ (code : PointCode) (q : Affine d.toCurve), d.Makes (.affine q) →
      (IsSquare d.b.toRing → code = .compressed → q ≠ .infinity) → code.Unconfused q := by
    intro code q made apart
    rcases made.infinity_or_isPoint generator with rfl | isPoint
    · apply PointCode.unconfused_infinity
      intro compressed square
      exact apart square compressed rfl
    · exact PointCode.unconfused_of_isPoint code isPoint
  refine ⟨unconfused, ?_, ?_⟩
  · intro code code' q q' r bytes made made' apart written written' read read'
    have first : r = q :=
      (unconfused code q made fun square _ => (apart square).1).eq_of_read written read
    have second : r = q' :=
      (unconfused code' q' made' fun square _ => (apart square).2).eq_of_read written' read'
    exact first.symm.trans second
  · intro rooted
    constructor
    · intro all square
      exact PointCode.not_unconfused_infinity square (all .compressed .infinity .infinity)
    · intro noSquare code q made
      exact unconfused code q made fun square => absurd square noSquare

/-- Modulo 41, where 6 is no square, the identity is written and not read. -/
theorem Domain.unconfused_iff_mod41 :
    ¬ IsSquare Small.mod41.b.toRing ∧ Small.mod41.basePoint.Valid ∧
      ∀ (code : PointCode) (q : Affine Small.mod41.toCurve), Small.mod41.Makes (.affine q) →
        code.Unconfused q := by
  have generator : Small.mod41.basePoint.Valid := by decide +kernel
  have noSquare : ¬ IsSquare Small.mod41.b.toRing := by decide +kernel
  obtain ⟨-, -, exactly⟩ := unconfused_iff Small.mod41 generator
  exact ⟨noSquare, generator, (exactly inferInstance).mpr noSquare⟩

namespace Small

/-- Modulo 257, `b = 113` is the square of 192, and the identity is written as the point
`(0, 192)`. -/
theorem not_unconfused_mod257 :
    (∀ out : Bytes, out.length = 3 →
      Affine.writeCompressed (.infinity : Affine mod257.toCurve) out = .ok [2, 0, 0]) ∧
    Affine.ofTagged? mod257.toCurve [2, 0, 0] = .ok (some (.finite 0 (.ofNat 192))) ∧
    ¬ ∀ (code : PointCode) (q : Affine mod257.toCurve), mod257.Makes (.affine q) →
      code.Unconfused q := by
  have written : PointCode.compressed.Writes (.infinity : Affine mod257.toCurve) [2, 0, 0] := by
    have encoded : PointCode.compressed.encode (.infinity : Affine mod257.toCurve) = [2, 0, 0] := by
      decide +kernel
    rw [← encoded]
    exact PointCode.writes_encode _ _
  have read : Affine.ofTagged? mod257.toCurve [2, 0, 0] =
      .ok (some (.finite 0 (.ofNat 192))) := by decide +kernel
  refine ⟨written, read, ?_⟩
  intro all
  have same := (all .compressed .infinity .infinity).eq_of_read written read
  cases same

end Small
end ShortWeierstrass
