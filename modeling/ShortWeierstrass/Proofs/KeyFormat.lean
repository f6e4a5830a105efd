/-
# Conversions between the formats of keys

The conversions work on bytes, the readers and writers of points on coordinates; on buffers of the
exact length they agree. A compressed key is converted as its point is read
(`Curve.compressedToRaw_eq_read`): the two tags are told from all others by setting the lowest bit.
A raw key is compressed as its point is written (`Curve.rawToCompressed_of_isRaw`): the last byte of
the second coordinate has the parity of the coordinate. What a longer buffer holds behind the key
stays (`Curve.uncompressedToRaw_of_room`, `Curve.rawToUncompressed_of_room`,
`Curve.rawToCompressed_of_room`). So the conversions are inverse to each other as far as
their keys stand for points, and inverting the lowest bit of a compressed tag inverts the point
(`Curve.IsCompressed.neg`).

Key theorems: `Curve.compressedToRaw_eq_read`, `Curve.rawToCompressed_of_isRaw`,
`Domain.key_formats`.
-/
import Mathlib
import ShortWeierstrass.Key.Format
import ShortWeierstrass.Proofs.PointCodec

namespace ShortWeierstrass

variable {L : ℕ}

/-! ### Tags by their bits -/

namespace PointForm

/-- Setting the lowest bit makes the compressed tags equal, and no other byte equal to them. -/
theorem or_one_eq_iff {tag : UInt8} :
    tag ||| 1 = (compressed false).tag ||| 1 ↔ ∃ odd, tag = (compressed odd).tag := by
  rw [exists_compressed_tag_iff]
  revert tag
  decide +kernel

theorem tag_and_one_eq (odd : Bool) :
    decide ((compressed odd).tag &&& 1 = 1) = odd := by
  cases odd <;> rfl

theorem tag_xor_one (odd : Bool) : (compressed odd).tag ^^^ 1 = (compressed !odd).tag := by
  cases odd <;> rfl

end PointForm

/-! ### Conversions, by the lengths of their buffers -/

namespace Curve

variable {c : Curve L} {key body out : Bytes}

theorem rawToUncompressed_of_room (key_length : key.length = 2 * c.coordinateBytes)
    (room : 2 * c.coordinateBytes + 1 ≤ out.length) :
    c.rawToUncompressed key out =
      .ok (PointForm.uncompressed.tag :: (key ++ out.drop (2 * c.coordinateBytes + 1))) := by
  cases out with
  | nil => cases room
  | cons byte rest =>
    have rest_split : Bytes.split rest (2 * c.coordinateBytes) = .ok _ :=
      Bytes.split_eq_ok (Nat.le_of_succ_le_succ room)
    simp only [rawToUncompressed, Bytes.first, Bytes.split_of_length key_length, rest_split,
      Bind.bind, Except.bind]
    rfl

theorem rawToUncompressed_eq (key_length : key.length = 2 * c.coordinateBytes)
    (out_length : out.length = 2 * c.coordinateBytes + 1) :
    c.rawToUncompressed key out = .ok (PointForm.uncompressed.tag :: key) := by
  rw [rawToUncompressed_of_room key_length out_length.ge, List.drop_of_length_le out_length.le,
    List.append_nil]

theorem uncompressedToRaw_of_room (body_length : body.length = 2 * c.coordinateBytes)
    (room : 2 * c.coordinateBytes ≤ out.length) :
    c.uncompressedToRaw (PointForm.uncompressed.tag :: body) out =
      .ok ⟨true, body ++ out.drop (2 * c.coordinateBytes)⟩ := by
  simp only [uncompressedToRaw, Bytes.first, Bytes.split_of_length body_length,
    Bytes.split_eq_ok room, Bind.bind, Except.bind, if_pos]
  rfl

theorem uncompressedToRaw_eq (body_length : body.length = 2 * c.coordinateBytes)
    (out_length : out.length = 2 * c.coordinateBytes) :
    c.uncompressedToRaw (PointForm.uncompressed.tag :: body) out = .ok ⟨true, body⟩ := by
  rw [uncompressedToRaw_of_room body_length out_length.ge, List.drop_of_length_le out_length.le,
    List.append_nil]

theorem uncompressedToRaw_of_tag_ne {tag : UInt8} (ne : tag ≠ PointForm.uncompressed.tag)
    (body out : Bytes) : c.uncompressedToRaw (tag :: body) out = .ok ⟨false, out⟩ := by
  simp only [uncompressedToRaw, Bytes.first, Bind.bind, Except.bind, if_neg ne]
  rfl

theorem rawToCompressed_of_room (key_length : key.length = 2 * c.coordinateBytes)
    (room : c.coordinateBytes < out.length) :
    c.rawToCompressed key out = .ok ((PointForm.compressed (c.rawY key % 2 = 1)).tag ::
      (key.take c.coordinateBytes ++ out.drop (c.coordinateBytes + 1))) := by
  cases out with
  | nil => cases room
  | cons byte rest =>
    have y_length : (key.drop c.coordinateBytes).length = c.coordinateBytes := by
      rw [List.length_drop]
      omega
    have x_split : key.split c.coordinateBytes = .ok _ := Bytes.split_eq_ok (by omega)
    have rest_split : Bytes.split rest c.coordinateBytes = .ok _ :=
      Bytes.split_eq_ok (Nat.le_of_lt_succ room)
    simp only [rawToCompressed, Bytes.first, x_split, Bytes.split_of_length y_length, rest_split,
      Bind.bind, Except.bind, Bytes.getLastD_and_one_iff]
    rfl

theorem rawToCompressed_of_short (key_length : key.length = 2 * c.coordinateBytes)
    (short : out.length ≤ c.coordinateBytes) : c.rawToCompressed key out = .error .outOfRange := by
  cases out with
  | nil => rfl
  | cons byte rest =>
    have y_length : (key.drop c.coordinateBytes).length = c.coordinateBytes := by
      rw [List.length_drop]
      omega
    have x_split : key.split c.coordinateBytes = .ok _ := Bytes.split_eq_ok (by omega)
    have rest_split : Bytes.split rest c.coordinateBytes = .error .outOfRange :=
      Bytes.split_eq_error short
    simp only [rawToCompressed, Bytes.first, x_split, Bytes.split_of_length y_length, rest_split,
      Bind.bind, Except.bind]

/-- A compressed key is converted as its point is read: whatever its tag and the buffer, the
point that the reader finds is written, and without one the buffer is passed on. -/
theorem compressedToRaw_eq_read (key_length : key.length = c.coordinateBytes + 1) (out : Bytes) :
    c.compressedToRaw key out = (do
      match ← Affine.ofTagged? c key with
      | some q => return ⟨true, ← q.writeRaw out⟩
      | none => return ⟨false, out⟩) := by
  cases key with
  | nil => cases key_length
  | cons tag body =>
    have body_length : body.length = c.coordinateBytes := Nat.succ.inj key_length
    by_cases compressed : ∃ odd, tag = (PointForm.compressed odd).tag
    · obtain ⟨odd, rfl⟩ := compressed
      have whole := Bytes.split_of_length body_length
      have form := PointForm.or_one_eq_iff.mpr ⟨odd, rfl⟩
      rw [Affine.ofTagged?_tag]
      rcases e : Affine.decompressBytes? c body odd with fault | _ | q <;>
        simp only [compressedToRaw, Bytes.first, whole, form, PointForm.tag_and_one_eq, if_pos,
          body_length, e, Bind.bind, Except.bind]
    · rw [Affine.ofTagged?_eq_none_of_tag body_length compressed]
      simp only [compressedToRaw, Bytes.first, Bind.bind, Except.bind,
        if_neg fun e => compressed (PointForm.or_one_eq_iff.mp e)]

theorem compressedToRaw_eq (key_length : key.length = c.coordinateBytes + 1)
    (out_length : out.length = 2 * c.coordinateBytes) :
    c.compressedToRaw key out = (Affine.ofTagged? c key).map fun
      | some q => ⟨true, q.toRaw⟩
      | none => ⟨false, out⟩ := by
  rw [compressedToRaw_eq_read key_length]
  rcases Affine.ofTagged? c key with fault | _ | q
  · rfl
  · rfl
  · simp only [Bind.bind, Except.bind, q.writeRaw_of_length out_length]
    rfl

/-! ### Conversions of points -/

variable {g : c.Group} {q : Affine c} {odd : Bool}

theorem IsTagged.exists_compressed (h : c.IsTagged key g)
    (key_length : key.length = c.coordinateBytes + 1) :
    ∃ odd body, key = (PointForm.compressed odd).tag :: body ∧ c.IsCompressed odd body g := by
  obtain ⟨form, body, rfl, isBody⟩ := h
  cases form with
  | compressed odd => exact ⟨odd, body, rfl, isBody⟩
  | uncompressed =>
    have pos := c.coordinateBytes_pos
    have length : body.length = 2 * c.coordinateBytes := IsRaw.length isBody
    rw [List.length_cons] at key_length
    omega

theorem rawToCompressed_toRaw (q : Affine c) (room : c.coordinateBytes < out.length) :
    c.rawToCompressed q.toRaw out = .ok ((PointForm.compressed q.y.isOdd).tag ::
      (q.x.toBytes ++ out.drop (c.coordinateBytes + 1))) := by
  have x_length : q.x.toBytes.length = c.coordinateBytes := q.x.length_toBytes
  have x_eq : q.toRaw.take c.coordinateBytes = q.x.toBytes := by
    rw [Affine.toRaw, List.take_left' x_length]
  have parity : decide (c.rawY q.toRaw % 2 = 1) = q.y.isOdd := by
    rw [Bool.eq_iff_iff, decide_eq_true_iff, Residue.isOdd, Limbs.isOdd_iff, rawY, Affine.toRaw,
      List.drop_left' x_length, q.y.value_toBytes]
  rw [rawToCompressed_of_room q.length_toRaw room, x_eq, parity]

theorem rawToCompressed_of_isRaw (raw : c.IsRaw key g) (hq : q.StandsFor g)
    (out_length : out.length = c.coordinateBytes + 1) :
    c.rawToCompressed key out = q.writeCompressed out := by
  rw [← raw.toRaw_eq hq, rawToCompressed_toRaw q (by omega), q.writeCompressed_eq_ok out_length,
    List.drop_of_length_le out_length.le, List.append_nil]

variable [c.Elliptic] [c.OddOrder]

theorem IsCompressed.neg (h : c.IsCompressed odd body g) : c.IsCompressed (!odd) body (-g) := by
  obtain ⟨y, Y, on, rfl, hy, parity⟩ := h.point
  obtain ⟨on', opposite⟩ := neg_some on
  refine ⟨h.length, h.x_lt, -y, -Y, on', opposite, hy.neg, ?_⟩
  rw [hy.isOdd_neg (y_ne_zero on), parity]

variable [c.base.Rooted]

theorem compressedToRaw_of_isCompressed (h : c.IsCompressed odd body g) (hq : q.StandsFor g)
    (out_length : out.length = 2 * c.coordinateBytes) :
    c.compressedToRaw ((PointForm.compressed odd).tag :: body) out = .ok ⟨true, q.toRaw⟩ := by
  have read : Affine.ofTagged? c ((PointForm.compressed odd).tag :: body) = .ok (some q) :=
    Affine.ofTagged?_eq_some_iff.mpr ⟨g, isTagged_tag_iff.mpr h, hq⟩
  rw [compressedToRaw_eq (by rw [List.length_cons, h.length]) out_length, read]
  rfl

/-- A string of the length of a compressed key is converted if it is a compressed encoding, and
turned down if not. -/
theorem compressedToRaw_spec (key_length : key.length = c.coordinateBytes + 1)
    (out_length : out.length = 2 * c.coordinateBytes) :
    (∃ odd body g, ∃ q : Affine c, key = (PointForm.compressed odd).tag :: body ∧
        c.IsCompressed odd body g ∧ q.StandsFor g ∧
        c.compressedToRaw key out = .ok ⟨true, q.toRaw⟩) ∨
      (c.compressedToRaw key out = .ok ⟨false, out⟩ ∧ ∀ g, ¬ c.IsTagged key g) := by
  rcases Affine.ofTagged?_spec (c := c) key with ⟨q, g, -, tagged, stands⟩ | ⟨read, untagged⟩
  · obtain ⟨odd, body, rfl, compressed⟩ := tagged.exists_compressed key_length
    exact .inl ⟨odd, body, g, q, rfl, compressed, stands,
      compressedToRaw_of_isCompressed compressed stands out_length⟩
  · refine .inr ⟨?_, untagged⟩
    rw [compressedToRaw_eq key_length out_length, read]
    rfl

/-- The first coordinates that are converted are converted for both parities, to opposite
points. -/
theorem compressedToRaw_xor_one {tag : UInt8} {raw out' : Bytes}
    (body_length : body.length = c.coordinateBytes)
    (out_length : out.length = 2 * c.coordinateBytes)
    (out_length' : out'.length = 2 * c.coordinateBytes)
    (accepted : c.compressedToRaw (tag :: body) out = .ok ⟨true, raw⟩) :
    ∃ q opposite, Affine.ofRaw? c raw = .ok (some q) ∧
      c.compressedToRaw ((tag ^^^ 1) :: body) out' = .ok ⟨true, opposite⟩ ∧
      Affine.ofRaw? c opposite = .ok (some q.neg) := by
  have key_length : (tag :: body).length = c.coordinateBytes + 1 := congrArg _ body_length
  rcases compressedToRaw_spec key_length out_length with
    ⟨odd, _, g, q, same, compressed, stands, converted⟩ | ⟨refused, -⟩
  · obtain ⟨rfl, rfl⟩ := List.cons.inj same
    rw [converted] at accepted
    cases accepted
    have finite := compressed.ne_zero
    refine ⟨q, q.neg.toRaw, ?_, ?_, ?_⟩
    · exact Affine.ofRaw?_eq_some_iff.mpr ⟨g, stands.isRaw finite, stands⟩
    · rw [PointForm.tag_xor_one]
      exact compressedToRaw_of_isCompressed compressed.neg stands.neg out_length'
    · exact Affine.ofRaw?_eq_some_iff.mpr
        ⟨-g, stands.neg.isRaw (neg_ne_zero.mpr finite), stands.neg⟩
  · rw [refused] at accepted
    cases accepted

end Curve

/-! ### Keys of a domain -/

namespace Domain

variable {d : Domain L} {raw key out : Bytes} [d.toCurve.Elliptic]

theorem isPublicKey_iff : d.isPublicKey key = .ok true ↔ ∃ g, d.IsRaw key g := by
  have reads := Affine.ofRaw?_spec (c := d.toCurve) key
  obtain ⟨found, e, isSome⟩ := reads.exists_eq_ok
  rw [← reads.exists_iff, ← isSome, isPublicKey, e]
  exact ⟨fun h => Except.ok.inj h, congrArg Except.ok⟩

variable [d.toCurve.OddOrder] [d.base.Rooted]

/-- The uncompressed format holds all raw strings, and is read if they pass the check. -/
theorem rawToUncompressed_codec {out' : Bytes} (raw_length : raw.length = 2 * d.coordinateBytes)
    (out_length : out.length = 2 * d.coordinateBytes + 1)
    (out_length' : out'.length = 2 * d.coordinateBytes) :
    ∃ key, d.rawToUncompressed raw out = .ok key ∧ d.uncompressedToRaw key out' = .ok ⟨true, raw⟩ ∧
      ((∃ q, Affine.ofTagged? d.toCurve key = .ok (some q)) ↔ d.isPublicKey raw = .ok true) := by
  refine ⟨_, Curve.rawToUncompressed_eq raw_length out_length,
    Curve.uncompressedToRaw_eq raw_length out_length', ?_⟩
  rw [(Affine.ofTagged?_spec _).exists_iff, isPublicKey_iff]
  simp only [Curve.isTagged_tag_iff, Curve.IsBody]

/-- A raw key that passes the check is compressed as its point, and restored. -/
theorem rawToCompressed_codec (checked : d.isPublicKey raw = .ok true) :
    ∃ q key, Affine.ofRaw? d.toCurve raw = .ok (some q) ∧
      (∀ out : Bytes, out.length = d.coordinateBytes + 1 →
        d.rawToCompressed raw out = .ok key ∧ q.writeCompressed out = .ok key) ∧
      ∀ out : Bytes, out.length = 2 * d.coordinateBytes →
        d.compressedToRaw key out = .ok ⟨true, raw⟩ := by
  obtain ⟨g, isRaw⟩ := isPublicKey_iff.mp checked
  obtain ⟨q, read⟩ := (Affine.ofRaw?_spec raw).exists_iff.mpr ⟨g, isRaw⟩
  obtain ⟨g, isRaw, stands⟩ := Affine.ofRaw?_eq_some_iff.mp read
  refine ⟨q, _, read, fun out length => ⟨?_, q.writeCompressed_eq_ok length⟩, fun out length => ?_⟩
  · rw [Curve.rawToCompressed_of_isRaw isRaw stands length, q.writeCompressed_eq_ok length]
  · rw [Curve.compressedToRaw_of_isCompressed (stands.isCompressed isRaw.ne_zero) stands length,
      isRaw.toRaw_eq stands]

/-- A compressed string is converted if it is read as a point, to the raw key of that point, and
restored. -/
theorem compressedToRaw_codec (key_length : key.length = d.coordinateBytes + 1)
    (out_length : out.length = 2 * d.coordinateBytes) :
    ∃ converted, d.compressedToRaw key out = .ok converted ∧
      (converted.valid = true ↔ (key.head? = some 2 ∨ key.head? = some 3) ∧
        ∃ q, Affine.ofTagged? d.toCurve key = .ok (some q)) ∧
      (converted.valid = true → ∃ q, Affine.ofTagged? d.toCurve key = .ok (some q) ∧
        d.isPublicKey converted.out = .ok true ∧ q.writeRaw out = .ok converted.out ∧
        ∀ out' : Bytes, out'.length = d.coordinateBytes + 1 →
          d.rawToCompressed converted.out out' = .ok key) := by
  rcases Curve.compressedToRaw_spec key_length out_length with
    ⟨odd, body, g, q, rfl, compressed, stands, converted⟩ | ⟨refused, untagged⟩
  · have read :
        Affine.ofTagged? d.toCurve ((PointForm.compressed odd).tag :: body) = .ok (some q) :=
      Affine.ofTagged?_eq_some_iff.mpr ⟨g, Curve.isTagged_tag_iff.mpr compressed, stands⟩
    have isRaw := stands.isRaw compressed.ne_zero
    refine ⟨_, converted, iff_of_true rfl ⟨?_, q, read⟩, fun _ => ⟨q, read, ?_, ?_, ?_⟩⟩
    · exact (PointForm.exists_compressed_tag_iff.mp ⟨odd, rfl⟩).imp (congrArg some) (congrArg some)
    · exact isPublicKey_iff.mpr ⟨g, isRaw⟩
    · exact q.writeRaw_of_length out_length
    · intro out' length
      obtain ⟨parity, x_eq⟩ := compressed.toBytes_eq stands
      rw [Curve.rawToCompressed_of_isRaw isRaw stands length, q.writeCompressed_eq_ok length,
        parity, x_eq]
  · refine ⟨_, refused, iff_of_false Bool.false_ne_true ?_, fun h => absurd h Bool.false_ne_true⟩
    rintro ⟨-, q, read⟩
    obtain ⟨g, tagged, -⟩ := Affine.ofTagged?_eq_some_iff.mp read
    exact untagged g tagged

/-- **The conversions of keys are inverse, and agree with the readers and writers of points.** -/
theorem key_formats (d : Domain L) [d.toCurve.Elliptic] [d.toCurve.OddOrder] [d.base.Rooted] :
    (∀ raw, d.isPublicKey raw = .ok true →
      ∃ q key, Affine.ofRaw? d.toCurve raw = .ok (some q) ∧
        (∀ out : Bytes, out.length = d.coordinateBytes + 1 →
          d.rawToCompressed raw out = .ok key ∧ q.writeCompressed out = .ok key) ∧
        ∀ out : Bytes, out.length = 2 * d.coordinateBytes →
          d.compressedToRaw key out = .ok ⟨true, raw⟩) ∧
    (∀ key out : Bytes, key.length = d.coordinateBytes + 1 → out.length = 2 * d.coordinateBytes →
      ∃ converted, d.compressedToRaw key out = .ok converted ∧
        (converted.valid = true ↔ (key.head? = some 2 ∨ key.head? = some 3) ∧
          ∃ q, Affine.ofTagged? d.toCurve key = .ok (some q)) ∧
        (converted.valid = true → ∃ q, Affine.ofTagged? d.toCurve key = .ok (some q) ∧
          d.isPublicKey converted.out = .ok true ∧ q.writeRaw out = .ok converted.out ∧
          ∀ out' : Bytes, out'.length = d.coordinateBytes + 1 →
            d.rawToCompressed converted.out out' = .ok key)) ∧
    (∀ (tag : UInt8) (body out out' raw : Bytes), body.length = d.coordinateBytes →
      out.length = 2 * d.coordinateBytes → out'.length = 2 * d.coordinateBytes →
      d.compressedToRaw (tag :: body) out = .ok ⟨true, raw⟩ →
        ∃ q opposite, Affine.ofRaw? d.toCurve raw = .ok (some q) ∧
          d.compressedToRaw ((tag ^^^ 1) :: body) out' = .ok ⟨true, opposite⟩ ∧
          Affine.ofRaw? d.toCurve opposite = .ok (some q.neg)) ∧
    ∀ raw out out' : Bytes, raw.length = 2 * d.coordinateBytes →
      out.length = 2 * d.coordinateBytes + 1 → out'.length = 2 * d.coordinateBytes →
        ∃ key, d.rawToUncompressed raw out = .ok key ∧
          d.uncompressedToRaw key out' = .ok ⟨true, raw⟩ ∧
          ((∃ q, Affine.ofTagged? d.toCurve key = .ok (some q)) ↔
            d.isPublicKey raw = .ok true) :=
  ⟨fun _ => rawToCompressed_codec, fun _ _ => compressedToRaw_codec,
    fun _ _ _ _ _ => Curve.compressedToRaw_xor_one, fun _ _ _ => rawToUncompressed_codec⟩

/-- The key `(1, 3)` modulo 41: its compressed form is `(3, 1)`, and `(2, 1)` is that of the
opposite point. -/
theorem key_formats_mod41 :
    Small.mod41.compressedToRaw [3, 1] [0, 0] = .ok ⟨true, [1, 3]⟩ ∧
      Small.mod41.rawToCompressed [1, 3] [0, 0] = .ok [3, 1] ∧
      ∃ q opposite, Affine.ofRaw? Small.mod41.toCurve [1, 3] = .ok (some q) ∧
        Small.mod41.compressedToRaw [2, 1] [0, 0] = .ok ⟨true, opposite⟩ ∧
        Affine.ofRaw? Small.mod41.toCurve opposite = .ok (some q.neg) := by
  obtain ⟨compress, convert, opposite, -⟩ := key_formats Small.mod41
  have accepted : Small.mod41.compressedToRaw [3, 1] [0, 0] = .ok ⟨true, [1, 3]⟩ := by
    decide +kernel
  obtain ⟨converted, e, -, restored⟩ :=
    convert [3, 1] [0, 0] (by decide +kernel) (by decide +kernel)
  rw [accepted] at e
  cases e
  obtain ⟨-, -, -, -, again⟩ := restored rfl
  exact ⟨accepted, again [0, 0] (by decide +kernel),
    opposite 3 [1] [0, 0] [0, 0] [1, 3] (by decide +kernel) (by decide +kernel) (by decide +kernel)
      accepted⟩

end Domain
end ShortWeierstrass
