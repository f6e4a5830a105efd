/-
# Readers and writers of points are inverse

Behind the tag of each form stands its encoding of a finite point (`Curve.IsTagged`), and a reader
of points returns the point that its string encodes, if it encodes one; it never stops with a
fault (`Affine.ofRaw?_spec`, `Affine.ofTagged?_spec`). A point has one encoding of each form
(`Curve.IsRaw.toRaw_eq`, `Curve.IsRaw.bytes_unique`, `Curve.IsCompressed.toBytes_eq`), and the
writers make it. So writing what
was read gives the string back, and reading what was written gives the point back: `point_codec`
says so of all strings and of all finite points.

Key definitions: `Affine.IsPoint`, `Curve.IsTagged`.
Key theorems: `Affine.isPoint_iff`, `Affine.ofTagged?_spec`, `point_codec`.
-/
import Mathlib
import ShortWeierstrass.Proofs.AdmittedDomain
import ShortWeierstrass.Proofs.Compression

namespace ShortWeierstrass

variable {L : ℕ} {c : Curve L}

/-! ### Tags -/

namespace PointForm

variable {tag : UInt8} {form : PointForm}

theorem ofTag?_eq_some_iff : ofTag? tag = some form ↔ tag = form.tag := by
  constructor
  · intro h
    unfold ofTag? at h
    split at h <;> cases h <;> rfl
  · rintro rfl
    exact ofTag?_tag form

theorem tag_eq_uncompressed_iff : form.tag = 4 ↔ form = uncompressed := by
  rcases form with _ | _ | _ <;> decide

theorem exists_compressed_tag_iff :
    (∃ odd, tag = (compressed odd).tag) ↔ tag = 2 ∨ tag = 3 := by
  rw [Bool.exists_bool]
  rfl

theorem tag_and_one (odd : Bool) : ((compressed odd).tag &&& 1).toNat = odd.toNat := by
  cases odd <;> rfl

end PointForm

/-! ### Encodings of a point -/

/-- A finite point of the curve, with canonical coordinates. -/
structure Affine.IsPoint (q : Affine c) : Prop where
  finite : q.isIdentity = false
  x_canonical : q.x.Canonical
  y_canonical : q.y.Canonical
  onCurve : q.isOnCurve = true

namespace Curve

variable {bytes body : Bytes} {q : Affine c} {g g' : c.Group} {form : PointForm} {odd : Bool}

/-- The encoding that stands behind the tag of a form. -/
def IsBody (c : Curve L) : PointForm → Bytes → c.Group → Prop
  | .uncompressed => c.IsRaw
  | .compressed odd => c.IsCompressed odd

/-- The string is the tag of a form and that form's encoding of the point. -/
def IsTagged (c : Curve L) (bytes : Bytes) (g : c.Group) : Prop :=
  ∃ form body, bytes = PointForm.tag form :: body ∧ c.IsBody form body g

theorem IsRaw.ne_zero (h : c.IsRaw bytes g) : g ≠ 0 := by
  obtain ⟨on, rfl⟩ := h.point
  exact WeierstrassCurve.Affine.Point.some_ne_zero on

theorem IsCompressed.ne_zero (h : c.IsCompressed odd body g) : g ≠ 0 := by
  obtain ⟨_, _, on, rfl, -⟩ := h.point
  exact WeierstrassCurve.Affine.Point.some_ne_zero on

theorem IsBody.ne_zero (h : c.IsBody form body g) : g ≠ 0 := by
  cases form with
  | uncompressed => exact IsRaw.ne_zero h
  | compressed odd => exact IsCompressed.ne_zero h

theorem IsBody.unique [c.Elliptic] (h : c.IsBody form body g) (h' : c.IsBody form body g') :
    g = g' := by
  cases form with
  | uncompressed => exact IsRaw.unique h h'
  | compressed odd => exact IsCompressed.unique h h'

theorem isTagged_tag_iff : c.IsTagged (form.tag :: body) g ↔ c.IsBody form body g := by
  constructor
  · rintro ⟨form', body', e, h⟩
    obtain ⟨tag_eq, rfl⟩ := List.cons.inj e
    have same := PointForm.ofTag?_tag form
    rw [tag_eq, PointForm.ofTag?_tag] at same
    obtain rfl := Option.some.inj same
    exact h
  · intro h
    exact ⟨form, body, rfl, h⟩

theorem IsTagged.unique [c.Elliptic] (h : c.IsTagged bytes g) (h' : c.IsTagged bytes g') :
    g = g' := by
  obtain ⟨form, body, rfl, isBody⟩ := h
  exact isBody.unique (isTagged_tag_iff.mp h')

theorem IsRaw.toRaw_eq (h : c.IsRaw bytes g) (hq : q.StandsFor g) : q.toRaw = bytes := by
  have length := h.length
  obtain ⟨on, rfl⟩ := h.point
  cases hq with
  | @finite x y _ _ _ hx hy =>
    have x_length : (bytes.take c.coordinateBytes).length = c.base.byteLength := by
      rw [List.length_take, length]
      exact Nat.min_eq_left (by omega)
    have y_length : (bytes.drop c.coordinateBytes).length = c.base.byteLength := by
      rw [List.length_drop, length, two_mul, Nat.add_sub_cancel]
      rfl
    have x_eq := hx.toBytes_eq x_length (ZMod.val_natCast_of_lt h.x_lt).symm
    have y_eq := hy.toBytes_eq y_length (ZMod.val_natCast_of_lt h.y_lt).symm
    show x.toBytes ++ y.toBytes = bytes
    rw [x_eq, y_eq, List.take_append_drop]

theorem IsCompressed.toBytes_eq (h : c.IsCompressed odd body g) (hq : q.StandsFor g) :
    q.y.isOdd = odd ∧ q.x.toBytes = body := by
  obtain ⟨y, Y, on, rfl, hy, parity⟩ := h.point
  cases hq with
  | @finite x' y' _ _ _ hx' hy' =>
    refine ⟨?_, hx'.toBytes_eq h.length (ZMod.val_natCast_of_lt h.x_lt).symm⟩
    show y'.isOdd = odd
    rw [(hy'.eq_iff hy).mpr rfl, parity]

end Curve

namespace Affine

variable {q : Affine c} {g : c.Group} {bytes body out : Bytes} {odd : Bool}

/-! ### Writers of an exact length -/

theorem writeRaw_of_length (q : Affine c) (length : out.length = 2 * c.coordinateBytes) :
    q.writeRaw out = .ok q.toRaw := by
  rw [q.writeRaw_eq_ok length.ge, List.drop_of_length_le length.le, List.append_nil]

theorem writeUncompressed_of_length (q : Affine c)
    (length : out.length = 2 * c.coordinateBytes + 1) :
    q.writeUncompressed out = .ok (PointForm.uncompressed.tag :: q.toRaw) := by
  cases out with
  | nil => cases length
  | cons byte rest =>
    have rest_length : rest.length = 2 * c.coordinateBytes := Nat.succ.inj length
    simp only [writeUncompressed, Bytes.first, Bind.bind, Except.bind,
      q.writeRaw_of_length rest_length]
    rfl

/-! ### Readers -/

theorem ofTagged?_tag (form : PointForm) (body : Bytes) :
    ofTagged? c (form.tag :: body) =
      match form with
      | .uncompressed => ofRaw? c body
      | .compressed odd =>
        if body.length = c.coordinateBytes then decompressBytes? c body odd else .ok none := by
  rcases form with _ | _ | _ <;> rfl

theorem ofTagged?_cases (c : Curve L) (bytes : Bytes) :
    (∃ form body, bytes = PointForm.tag form :: body) ∨
      (ofTagged? c bytes = .ok none ∧ ∀ form body, bytes ≠ PointForm.tag form :: body) := by
  cases bytes with
  | nil => exact .inr ⟨rfl, fun _ _ same => nomatch same⟩
  | cons tag body =>
    cases e : PointForm.ofTag? tag with
    | some form => exact .inl ⟨form, body, by rw [PointForm.ofTag?_eq_some_iff.mp e]⟩
    | none =>
      refine .inr ⟨by simp only [ofTagged?, e]; rfl, ?_⟩
      intro form body' same
      rw [(List.cons.inj same).1, PointForm.ofTag?_tag] at e
      cases e

theorem exists_ofTagged?_eq_ok (c : Curve L) (bytes : Bytes) :
    ∃ found, ofTagged? c bytes = .ok found := by
  rcases ofTagged?_cases c bytes with ⟨form, body, rfl⟩ | ⟨e, -⟩
  · rw [ofTagged?_tag]
    cases form with
    | uncompressed => exact exists_ofRaw?_eq_ok c body
    | compressed odd =>
      by_cases length : body.length = c.coordinateBytes
      · have fits : body.length ≤ 8 * L := length.trans_le c.base.byteLength_le
        exact ⟨_, (if_pos length).trans (decompressBytes?_eq fits)⟩
      · exact ⟨none, if_neg length⟩
  · exact ⟨none, e⟩

/-- Behind a tag that is not a compressed one a single coordinate is not read. -/
theorem ofTagged?_eq_none_of_tag {tag : UInt8} (length : body.length = c.coordinateBytes)
    (other : ¬ ∃ odd, tag = (PointForm.compressed odd).tag) :
    ofTagged? c (tag :: body) = .ok none := by
  rcases ofTagged?_cases c (tag :: body) with ⟨form, _, same⟩ | ⟨e, -⟩
  · obtain ⟨rfl, rfl⟩ := List.cons.inj same
    cases form with
    | compressed odd => exact absurd ⟨odd, rfl⟩ other
    | uncompressed =>
      -- The reader goes on to a raw body here, but `n` bytes are too few for one.
      have pos := c.coordinateBytes_pos
      rw [ofTagged?_tag]
      exact ofRaw?_eq_none c (by omega)
  · exact e

variable [c.Elliptic]

theorem isPoint_iff : q.IsPoint ↔ ∃ g, g ≠ 0 ∧ q.StandsFor g := by
  constructor
  · rintro ⟨finite, x_canonical, y_canonical, onCurve⟩
    cases q with
    | infinity => cases finite
    | finite x y =>
      have hx := Residue.standsFor_toRing x_canonical
      have hy := Residue.standsFor_toRing y_canonical
      have on := (isOnCurve_iff hx hy).mp onCurve
      exact ⟨.some _ _ on, WeierstrassCurve.Affine.Point.some_ne_zero on, .finite hx hy⟩
  · rintro ⟨g, finite, h⟩
    cases h with
    | infinity => exact absurd rfl finite
    | @finite x y X Y on hx hy =>
      exact ⟨rfl, hx.canonical, hy.canonical, (isOnCurve_iff hx hy).mpr on⟩

theorem ofRaw?_eq_some_iff :
    ofRaw? c bytes = .ok (some q) ↔ ∃ g, c.IsRaw bytes g ∧ q.StandsFor g :=
  (ofRaw?_spec bytes).eq_some_iff Curve.IsRaw.unique

/-- What a tagged string is read as is the point that it encodes, whatever the root of unity of the
base modulus is. -/
theorem ofTagged?_eq_some [c.OddOrder] (read : ofTagged? c bytes = .ok (some q)) :
    ∃ g, c.IsTagged bytes g ∧ q.StandsFor g := by
  rcases ofTagged?_cases c bytes with ⟨form, body, rfl⟩ | ⟨e, -⟩
  · simp only [Curve.isTagged_tag_iff]
    rw [ofTagged?_tag] at read
    cases form with
    | uncompressed => exact ofRaw?_eq_some_iff.mp read
    | compressed odd =>
      by_cases length : body.length = c.coordinateBytes
      · simp only [if_pos length] at read
        obtain ⟨g, stands, encoded⟩ := decompressBytes?_eq_some read
        exact ⟨g, encoded length, stands⟩
      · simp only [if_neg length] at read
        cases read
  · rw [e] at read
    cases read

variable [c.OddOrder] [c.base.Rooted]

theorem ofTagged?_tag_reads (form : PointForm) (body : Bytes) :
    Reads (ofTagged? c (form.tag :: body)) (c.IsBody form body) := by
  rw [ofTagged?_tag]
  cases form with
  | uncompressed => exact ofRaw?_spec body
  | compressed odd =>
    by_cases length : body.length = c.coordinateBytes
    · simp only [if_pos length]
      exact decompressBytes?_spec length
    · simp only [if_neg length]
      exact .inr ⟨rfl, fun g h => length (Curve.IsCompressed.length h)⟩

/-- A tagged string is read as the point that it encodes, and as none if it encodes none. -/
theorem ofTagged?_spec (bytes : Bytes) : Reads (ofTagged? c bytes) (c.IsTagged bytes) := by
  rcases ofTagged?_cases c bytes with ⟨form, body, rfl⟩ | ⟨e, untagged⟩
  · have reads := ofTagged?_tag_reads (c := c) form body
    simpa only [Reads, Curve.isTagged_tag_iff] using reads
  · refine .inr ⟨e, ?_⟩
    rintro g ⟨form, body, same, -⟩
    exact untagged form body same

theorem ofTagged?_eq_some_iff :
    ofTagged? c bytes = .ok (some q) ↔ ∃ g, c.IsTagged bytes g ∧ q.StandsFor g :=
  (ofTagged?_spec bytes).eq_some_iff Curve.IsTagged.unique

end Affine

namespace Curve

theorem exists_isRaw {g : c.Group} (finite : g ≠ 0) : ∃ bytes, c.IsRaw bytes g := by
  cases g with
  | zero => exact absurd rfl finite
  | some x y on =>
    have hx := Residue.ofNat_standsFor (m := c.base) (x.val_lt.trans c.base.value.toNat_lt)
    have hy := Residue.ofNat_standsFor (m := c.base) (y.val_lt.trans c.base.value.toNat_lt)
    rw [ZMod.natCast_zmod_val] at hx hy
    exact ⟨_, (Affine.StandsFor.finite hx hy).isRaw finite⟩

variable [c.Elliptic]

theorem IsRaw.bytes_unique {bytes bytes' : Bytes} {g : c.Group} (h : c.IsRaw bytes g)
    (h' : c.IsRaw bytes' g) : bytes = bytes' := by
  obtain ⟨q, read⟩ := (Affine.ofRaw?_spec bytes).exists_iff.mpr ⟨g, h⟩
  obtain ⟨g', raw, stands⟩ := Affine.ofRaw?_eq_some_iff.mp read
  obtain rfl := raw.unique h
  rw [← h.toRaw_eq stands, h'.toRaw_eq stands]

end Curve

/-- The tagged encodings: behind the tag 04 the raw ones, behind the tag 02 or 03 the numbers below
the base modulus whose right-hand side is a square. -/
theorem Curve.exists_isTagged_iff [c.Elliptic] [c.OddOrder] [c.base.Rooted] {bytes : Bytes} :
    (∃ g, c.IsTagged bytes g) ↔
      (∃ body g, bytes = 4 :: body ∧ c.IsRaw body g) ∨
        ∃ (tag : UInt8) (body : Bytes), bytes = tag :: body ∧ (tag = 2 ∨ tag = 3) ∧
          body.length = c.coordinateBytes ∧ body.value < c.base.value.toNat ∧
          IsSquare (c.cubic body.value) := by
  constructor
  · rintro ⟨g, form, body, rfl, h⟩
    cases form with
    | uncompressed => exact .inl ⟨body, g, rfl, h⟩
    | compressed odd =>
      exact .inr ⟨_, body, rfl, PointForm.exists_compressed_tag_iff.mp ⟨odd, rfl⟩,
        exists_isCompressed_iff.mp ⟨g, h⟩⟩
  · rintro (⟨body, g, rfl, h⟩ | ⟨tag, body, rfl, form, h⟩)
    · exact ⟨g, .uncompressed, body, rfl, h⟩
    · obtain ⟨odd, rfl⟩ := PointForm.exists_compressed_tag_iff.mpr form
      obtain ⟨g, compressed⟩ := exists_isCompressed_iff.mpr h
      exact ⟨g, .compressed odd, body, rfl, compressed⟩

/-! ### Round trips -/

namespace Affine

variable [c.Elliptic]

/-- The raw reader takes the raw encodings, and the raw writer makes them again. -/
theorem ofRaw?_codec (bytes : Bytes) :
    ∃ read, ofRaw? c bytes = .ok read ∧ (read.isSome = true ↔ ∃ g, c.IsRaw bytes g) ∧
      ∀ q ∈ read, q.IsPoint ∧
        ∀ out : Bytes, out.length = 2 * c.coordinateBytes → q.writeRaw out = .ok bytes := by
  have reads := ofRaw?_spec (c := c) bytes
  obtain ⟨read, e, isSome⟩ := reads.exists_eq_ok
  refine ⟨read, e, isSome.trans reads.exists_iff, ?_⟩
  rintro q ⟨⟩
  obtain ⟨g, raw, stands⟩ := ofRaw?_eq_some_iff.mp e
  refine ⟨isPoint_iff.mpr ⟨g, raw.ne_zero, stands⟩, ?_⟩
  intro out length
  rw [q.writeRaw_of_length length, raw.toRaw_eq stands]

variable [c.OddOrder] [c.base.Rooted]

/-- The tagged reader takes the tagged encodings, and the writer of the form that the tag names
makes them again. -/
theorem ofTagged?_codec (bytes : Bytes) :
    ∃ read, ofTagged? c bytes = .ok read ∧ (read.isSome = true ↔ ∃ g, c.IsTagged bytes g) ∧
      ∀ q ∈ read, q.IsPoint ∧
        (bytes.head? = some 4 → ∀ out : Bytes, out.length = 2 * c.coordinateBytes + 1 →
          q.writeUncompressed out = .ok bytes) ∧
        ∀ tag, bytes.head? = some tag → tag ≠ 4 → q.y.value.toNat % 2 = (tag &&& 1).toNat ∧
          ∀ out : Bytes, out.length = c.coordinateBytes + 1 → q.writeCompressed out = .ok bytes := by
  have reads := ofTagged?_spec (c := c) bytes
  obtain ⟨read, e, isSome⟩ := reads.exists_eq_ok
  refine ⟨read, e, isSome.trans reads.exists_iff, ?_⟩
  rintro q ⟨⟩
  obtain ⟨g, ⟨form, body, rfl, isBody⟩, stands⟩ := ofTagged?_eq_some_iff.mp e
  refine ⟨isPoint_iff.mpr ⟨g, isBody.ne_zero, stands⟩, ?_, ?_⟩
  · intro head out length
    obtain rfl := PointForm.tag_eq_uncompressed_iff.mp (Option.some.inj head)
    rw [q.writeUncompressed_of_length length, Curve.IsRaw.toRaw_eq isBody stands]
  · rintro tag ⟨⟩ other
    cases form with
    | uncompressed => exact absurd rfl other
    | compressed odd =>
      obtain ⟨parity, x_eq⟩ := Curve.IsCompressed.toBytes_eq isBody stands
      refine ⟨?_, fun out length => ?_⟩
      · rw [PointForm.tag_and_one, ← parity, Residue.isOdd, Limbs.toNat_isOdd]
      · rw [q.writeCompressed_eq_ok length, parity, x_eq]

/-- What the writers make of a finite point is read as that point. -/
theorem IsPoint.codec {q : Affine c} (h : q.IsPoint) :
    (∀ out : Bytes, out.length = 2 * c.coordinateBytes →
      ∃ bytes, q.writeRaw out = .ok bytes ∧ ofRaw? c bytes = .ok (some q)) ∧
    (∀ out : Bytes, out.length = 2 * c.coordinateBytes + 1 →
      ∃ bytes, q.writeUncompressed out = .ok bytes ∧ ofTagged? c bytes = .ok (some q)) ∧
    (∀ out : Bytes, out.length = c.coordinateBytes + 1 →
      ∃ bytes, q.writeCompressed out = .ok bytes ∧ ofTagged? c bytes = .ok (some q)) := by
  obtain ⟨g, finite, stands⟩ := isPoint_iff.mp h
  have raw := stands.isRaw finite
  have compressed := stands.isCompressed finite
  refine ⟨fun out length => ⟨_, q.writeRaw_of_length length, ?_⟩,
    fun out length => ⟨_, q.writeUncompressed_of_length length, ?_⟩,
    fun out length => ⟨_, q.writeCompressed_eq_ok length, ?_⟩⟩
  · exact ofRaw?_eq_some_iff.mpr ⟨g, raw, stands⟩
  · exact ofTagged?_eq_some_iff.mpr ⟨g, Curve.isTagged_tag_iff.mpr raw, stands⟩
  · exact ofTagged?_eq_some_iff.mpr ⟨g, Curve.isTagged_tag_iff.mpr compressed, stands⟩

end Affine

/-- **The readers take exactly the encodings of the points, and the writers make them.** Every
string is read, as a finite point of the curve or as none; what was read is written as the string
that it was read from, and what is written for a finite point is read as that point. -/
theorem point_codec (c : Curve L) [c.Elliptic] [c.OddOrder] [c.base.Rooted] :
    (∀ bytes : Bytes, ∃ read, Affine.ofRaw? c bytes = .ok read ∧
      (read.isSome = true ↔ ∃ g, c.IsRaw bytes g) ∧
      ∀ q ∈ read, q.IsPoint ∧
        ∀ out : Bytes, out.length = 2 * c.coordinateBytes → q.writeRaw out = .ok bytes) ∧
    (∀ bytes : Bytes, ∃ read, Affine.ofTagged? c bytes = .ok read ∧
      (read.isSome = true ↔
        (∃ body g, bytes = 4 :: body ∧ c.IsRaw body g) ∨
          ∃ (tag : UInt8) (body : Bytes), bytes = tag :: body ∧ (tag = 2 ∨ tag = 3) ∧
            body.length = c.coordinateBytes ∧ body.value < c.base.value.toNat ∧
            IsSquare (c.cubic body.value)) ∧
      ∀ q ∈ read, q.IsPoint ∧
        (bytes.head? = some 4 → ∀ out : Bytes, out.length = 2 * c.coordinateBytes + 1 →
          q.writeUncompressed out = .ok bytes) ∧
        ∀ tag, bytes.head? = some tag → tag ≠ 4 → q.y.value.toNat % 2 = (tag &&& 1).toNat ∧
          ∀ out : Bytes, out.length = c.coordinateBytes + 1 → q.writeCompressed out = .ok bytes) ∧
    ∀ q : Affine c, q.IsPoint →
      (∀ out : Bytes, out.length = 2 * c.coordinateBytes →
        ∃ bytes, q.writeRaw out = .ok bytes ∧ Affine.ofRaw? c bytes = .ok (some q)) ∧
      (∀ out : Bytes, out.length = 2 * c.coordinateBytes + 1 →
        ∃ bytes, q.writeUncompressed out = .ok bytes ∧ Affine.ofTagged? c bytes = .ok (some q)) ∧
      (∀ out : Bytes, out.length = c.coordinateBytes + 1 →
        ∃ bytes, q.writeCompressed out = .ok bytes ∧ Affine.ofTagged? c bytes = .ok (some q)) := by
  refine ⟨Affine.ofRaw?_codec, fun bytes => ?_, fun q h => h.codec⟩
  have tagged := Affine.ofTagged?_codec (c := c) bytes
  rwa [Curve.exists_isTagged_iff] at tagged

/-! ### A curve whose square roots take rounds -/

namespace Small

/-- The curve modulo 41 whose order is 37; `41 - 1 = 2^3 * 5`. -/
def mod41 : Domain 1 :=
  .build { base := .ofNat 1 41 6 none (by decide +kernel), a := .ofNat 2, b := .ofNat 6 }
    (.ofNat 1 37 2 none (by decide +kernel)) (.ofNat 1) (.ofNat 3) none (by simp)

theorem mod41_base : mod41.base.value.toNat = 41 :=
  Modulus.value_ofNat 1 41 6 none (by decide +kernel)

instance : mod41.toCurve.Elliptic where
  prime := by
    rw [mod41_base]
    norm_num
  three_lt := by
    rw [mod41_base]
    decide
  a_canonical := (Residue.ofNat_standsFor (n := 2) (by decide)).canonical
  b_canonical := (Residue.ofNat_standsFor (n := 6) (by decide)).canonical
  discriminant_ne := by decide +kernel

instance : mod41.base.Rooted := .of_generator rfl (by decide +kernel)

instance : mod41.toCurve.OddOrder where
  odd := by
    rw [Curve.card_group]
    decide +kernel

end Small

theorem point_codec_mod41 :
    ∃ q, Affine.ofTagged? Small.mod41.toCurve [3, 1] = .ok (some q) ∧ q.IsPoint ∧
      q.y.value.toNat % 2 = 1 ∧ q.writeCompressed [0, 0] = .ok [3, 1] ∧
      Affine.ofRaw? Small.mod41.toCurve q.toRaw = .ok (some q) := by
  obtain ⟨-, tagged, written⟩ := point_codec Small.mod41.toCurve
  obtain ⟨read, e, accepted, encodes⟩ := tagged [3, 1]
  have square : IsSquare (Small.mod41.toCurve.cubic (Bytes.value [1] : ℕ)) := ⟨3, by decide +kernel⟩
  have isSome : read.isSome = true :=
    accepted.mpr (.inr ⟨3, [1], rfl, .inr rfl, by decide +kernel, by decide +kernel, square⟩)
  obtain ⟨q, rfl⟩ := Option.isSome_iff_exists.mp isSome
  obtain ⟨isPoint, -, compressed⟩ := encodes q rfl
  obtain ⟨parity, again⟩ := compressed 3 rfl (by decide)
  obtain ⟨raw, raw_eq, raw_read⟩ := (written q isPoint).1 [0, 0] (by decide +kernel)
  refine ⟨q, e, isPoint, parity, again [0, 0] (by decide +kernel), ?_⟩
  rw [q.writeRaw_of_length (by decide +kernel)] at raw_eq
  rwa [Except.ok.inj raw_eq]

end ShortWeierstrass
