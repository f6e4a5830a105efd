/-
# Affine points and their raw encoding

An affine point stands for a point of the group by its two coordinates
(`Affine.StandsFor`), and the conversions to and from Jacobian coordinates keep what is stood
for. A string is the raw encoding of a finite point if it has `2 n` bytes, the first half for
one coordinate and the second half for the other (`Curve.IsRaw`): the reader takes these
strings and no others, and the writer makes them.

Key definitions: `Affine.StandsFor`, `Affine.Reads`, `Curve.IsRaw`.
Key theorems: `Jacobian.StandsFor.toAffine`, `Affine.ofRaw?_spec`, `Affine.StandsFor.isRaw`.
-/
import Mathlib
import ShortWeierstrass.Point.Encoding
import ShortWeierstrass.Proofs.ByteStrings
import ShortWeierstrass.Proofs.GroupLaw
import ShortWeierstrass.Proofs.Power

namespace ShortWeierstrass

variable {L : ℕ} {c : Curve L}

/-! ### Affine points -/

/-- The coordinates of an affine point stand for those of a point of the group. -/
inductive Affine.StandsFor : Affine c → c.Group → Prop where
  | infinity : StandsFor .infinity 0
  | finite {x y : Residue c.base} {X Y : c.base.Ring} {on : c.weierstrass.Nonsingular X Y}
      (hx : x.StandsFor X) (hy : y.StandsFor Y) : StandsFor (.finite x y) (.some X Y on)

theorem Affine.StandsFor.unique {q q' : Affine c} {g : c.Group} (h : q.StandsFor g)
    (h' : q'.StandsFor g) : q = q' := by
  cases h with
  | infinity =>
    cases h'
    rfl
  | finite hx hy =>
    cases h' with
    | finite hx' hy' =>
      rw [(hx.eq_iff hx').mpr rfl, (hy.eq_iff hy').mpr rfl]

section Reads

/-- What a reader returns: the point that its string encodes, or none if it encodes none. -/
def Affine.Reads (read : Except Fault (Option (Affine c))) (encodes : c.Group → Prop) : Prop :=
  (∃ q g, read = .ok (some q) ∧ encodes g ∧ q.StandsFor g) ∨
    (read = .ok none ∧ ∀ g, ¬ encodes g)

variable {read : Except Fault (Option (Affine c))} {encodes : c.Group → Prop}

theorem Affine.Reads.eq_some_iff (h : Reads read encodes)
    (unique : ∀ {g g'}, encodes g → encodes g' → g = g') {q : Affine c} :
    read = .ok (some q) ↔ ∃ g, encodes g ∧ q.StandsFor g := by
  rcases h with ⟨q', g', e, encoded, stands⟩ | ⟨e, noPoint⟩
  · rw [e]
    constructor
    · rintro ⟨⟩
      exact ⟨g', encoded, stands⟩
    · rintro ⟨g, encoded', stands'⟩
      rw [unique encoded' encoded] at stands'
      rw [stands.unique stands']
  · rw [e]
    refine iff_of_false ?_ fun ⟨g, encoded, _⟩ => noPoint g encoded
    rintro ⟨⟩

theorem Affine.Reads.exists_iff (h : Reads read encodes) :
    (∃ q, read = .ok (some q)) ↔ ∃ g, encodes g := by
  rcases h with ⟨q, g, e, encoded, -⟩ | ⟨e, noPoint⟩
  · exact iff_of_true ⟨q, e⟩ ⟨g, encoded⟩
  · refine iff_of_false ?_ fun ⟨g, encoded⟩ => noPoint g encoded
    rw [e]
    rintro ⟨_, ⟨⟩⟩

theorem Affine.Reads.exists_eq_ok (h : Reads read encodes) :
    ∃ found, read = .ok found ∧ (found.isSome = true ↔ ∃ q, read = .ok (some q)) := by
  rcases h with ⟨q, _, e, -, -⟩ | ⟨e, -⟩
  · exact ⟨some q, e, iff_of_true rfl ⟨q, e⟩⟩
  · refine ⟨none, e, iff_of_false Bool.false_ne_true ?_⟩
    rw [e]
    rintro ⟨_, ⟨⟩⟩

end Reads

theorem Affine.isOnCurve_iff_equation {x y : Residue c.base} {X Y : c.base.Ring}
    (ha : c.a.Canonical) (hb : c.b.Canonical) (hx : x.StandsFor X) (hy : y.StandsFor Y) :
    (finite x y : Affine c).isOnCurve = true ↔ Y ^ 2 = X ^ 3 + c.a.toRing * X + c.b.toRing := by
  have a := Residue.standsFor_toRing ha
  have b := Residue.standsFor_toRing hb
  have residual := hy.square.sub (((hx.square.add a).mul hx).add b)
  have equation : (finite x y : Affine c).isOnCurve = true ↔
      Y ^ 2 = (X ^ 2 + c.a.toRing) * X + c.b.toRing := residual.isZero_iff.trans sub_eq_zero
  have expanded : (X ^ 2 + c.a.toRing) * X + c.b.toRing =
      X ^ 3 + c.a.toRing * X + c.b.toRing := by ring
  rw [equation, expanded]

variable [c.Elliptic]

theorem Curve.neg_some {x y : c.base.Ring} (on : c.weierstrass.Nonsingular x y) :
    ∃ on', -(.some x y on : c.Group) = .some x (-y) on' := by
  rw [WeierstrassCurve.Affine.Point.neg_some, ← negY_eq (x := x)]
  exact ⟨_, rfl⟩

theorem Affine.StandsFor.neg {q : Affine c} {g : c.Group} (h : q.StandsFor g) :
    q.neg.StandsFor (-g) := by
  cases h with
  | infinity => exact .infinity
  | @finite x y X Y on hx hy =>
    obtain ⟨on', e⟩ := Curve.neg_some on
    rw [e]
    exact .finite hx hy.neg

theorem Affine.StandsFor.ofAffine {q : Affine c} {g : c.Group} (h : q.StandsFor g) :
    (Jacobian.ofAffine q).StandsFor g := by
  cases h with
  | infinity => exact Jacobian.identity_standsFor
  | finite hx hy =>
    refine ⟨_, _, 1, ⟨hx, hy, Residue.one_standsFor⟩, one_ne_zero, ?_, ?_⟩
    · rw [one_pow, mul_one]
    · rw [one_pow, mul_one]

theorem Jacobian.StandsFor.toAffine {p : Jacobian c} {g : c.Group} (h : p.StandsFor g) :
    p.toAffine.StandsFor g := by
  have identity := h.isIdentity_iff
  obtain ⟨X, Y, Z, coordinates, represents⟩ := h
  cases g with
  | zero =>
    rw [Jacobian.toAffine, if_pos (identity.mpr rfl)]
    exact .infinity
  | some x y on =>
    rw [Jacobian.toAffine, if_neg fun e =>
      WeierstrassCurve.Affine.Point.some_ne_zero on (identity.mp e)]
    obtain ⟨finite, rfl, rfl⟩ := represents
    have inverse := coordinates.z.inverseOrZero
    have hx := coordinates.x.mul inverse.square
    have hy := (coordinates.y.mul inverse.square).mul inverse
    exact .finite (hx.congr (by field_simp)) (hy.congr (by field_simp))

theorem Affine.isOnCurve_iff {x y : Residue c.base} {X Y : c.base.Ring} (hx : x.StandsFor X)
    (hy : y.StandsFor Y) :
    (finite x y : Affine c).isOnCurve = true ↔ c.weierstrass.Nonsingular X Y := by
  rw [isOnCurve_iff_equation Curve.Elliptic.a_canonical Curve.Elliptic.b_canonical hx hy,
    Curve.nonsingular_iff]

/-! ### The raw encoding -/

theorem Modulus.value_le (m : Modulus L) : m.value.toNat ≤ 256 ^ m.byteLength := by
  have lt := m.value.toNat_lt_two_pow_bitLength
  have cover : m.value.bitLength ≤ 8 * m.byteLength := by
    unfold byteLength bitLength
    omega
  rw [← Bytes.two_pow_eight_mul]
  exact lt.le.trans (Nat.pow_le_pow_right (by decide) cover)

theorem Curve.coordinateBytes_pos (c : Curve L) : 0 < c.coordinateBytes := by
  rw [Nat.pos_iff_ne_zero]
  intro zero
  have le : c.base.value.toNat ≤ 256 ^ c.coordinateBytes := c.base.value_le
  have three_le := c.base.three_le
  rw [zero, pow_zero] at le
  omega

theorem Residue.value_toBytes {m : Modulus L} (x : Residue m) :
    x.toBytes.value = x.value.toNat :=
  Limbs.value_toBytes_of_lt m.byteLength_le (x.value_spec.1.trans_le m.value_le)

theorem Residue.StandsFor.value_toBytes {m : Modulus L} {x : Residue m} {a : m.Ring}
    (h : x.StandsFor a) {count : ℕ} (fits : count ≤ 8 * L) (le : m.value.toNat ≤ 256 ^ count) :
    Bytes.value (x.value.toBytes count) = a.val := by
  have lt := a.val_lt
  rw [← h.value_toNat] at lt ⊢
  exact Limbs.value_toBytes_of_lt fits (lt.trans_le le)

/-- The number of the first coordinate's bytes. -/
def Curve.rawX (c : Curve L) (bytes : Bytes) : ℕ := Bytes.value (bytes.take c.coordinateBytes)

/-- The number of the bytes behind the first coordinate's. -/
def Curve.rawY (c : Curve L) (bytes : Bytes) : ℕ := Bytes.value (bytes.drop c.coordinateBytes)

/-- The string holds the coordinates of a finite point, each below the base modulus. -/
structure Curve.IsRaw (c : Curve L) (bytes : Bytes) (g : c.Group) : Prop where
  length : bytes.length = 2 * c.coordinateBytes
  x_lt : c.rawX bytes < c.base.value.toNat
  y_lt : c.rawY bytes < c.base.value.toNat
  point : ∃ on, g = .some (c.rawX bytes : c.base.Ring) (c.rawY bytes) on

omit [c.Elliptic] in
theorem Curve.IsRaw.unique {bytes : Bytes} {g g' : c.Group} (h : c.IsRaw bytes g)
    (h' : c.IsRaw bytes g') : g = g' := by
  obtain ⟨on, e⟩ := h.point
  obtain ⟨on', e'⟩ := h'.point
  rw [e, e']

namespace Affine

section Reader

variable (c : Curve L)

theorem ofRaw?_eq_none {bytes : Bytes} (h : bytes.length ≠ 2 * c.coordinateBytes) :
    ofRaw? c bytes = .ok none := by
  rw [ofRaw?, if_neg h]
  rfl

/-- Both halves are read, and both numbers have to be below the base modulus. -/
theorem ofRaw?_eq {bytes : Bytes} (h : bytes.length = 2 * c.coordinateBytes) :
    ofRaw? c bytes = .ok (
      if c.rawX bytes < c.base.value.toNat ∧ c.rawY bytes < c.base.value.toNat then
        ofCoordinates? (.ofNat (c.rawX bytes)) (.ofNat (c.rawY bytes))
      else none) := by
  have fits : c.coordinateBytes ≤ 8 * L := c.base.byteLength_le
  have first : (bytes.take c.coordinateBytes).length ≤ 8 * L := by
    rw [List.length_take]
    omega
  have second : (bytes.drop c.coordinateBytes).length ≤ 8 * L := by
    rw [List.length_drop]
    omega
  have read : ofRaw? c bytes = .ok ((Residue.ofLimbs? (.ofNat L (c.rawX bytes))).bind fun x =>
      (Residue.ofLimbs? (.ofNat L (c.rawY bytes))).bind fun y => ofCoordinates? x y) := by
    rw [ofRaw?, if_pos h, Bytes.split_eq_ok (by omega)]
    simp only [Bind.bind, Except.bind, Residue.ofBytes?_eq_ok c.base first,
      Residue.ofBytes?_eq_ok c.base second]
    rfl
  have x_eq : (Limbs.ofNat L (c.rawX bytes)).toNat = c.rawX bytes := Limbs.toNat_ofNat_value first
  have y_eq : (Limbs.ofNat L (c.rawY bytes)).toNat = c.rawY bytes := Limbs.toNat_ofNat_value second
  rw [read]
  by_cases hx : c.rawX bytes < c.base.value.toNat
  · rw [Residue.ofLimbs?_eq_some _ (by rwa [x_eq]), Option.bind_some]
    by_cases hy : c.rawY bytes < c.base.value.toNat
    · rw [Residue.ofLimbs?_eq_some _ (by rwa [y_eq]), Option.bind_some, if_pos ⟨hx, hy⟩]
      rfl
    · rw [Residue.ofLimbs?_eq_none _ (by rwa [y_eq]), Option.bind_none,
        if_neg fun both => hy both.2]
  · rw [Residue.ofLimbs?_eq_none _ (by rwa [x_eq]), Option.bind_none, if_neg fun both => hx both.1]

theorem exists_ofRaw?_eq_ok (bytes : Bytes) : ∃ found, ofRaw? c bytes = .ok found := by
  by_cases length : bytes.length = 2 * c.coordinateBytes
  · exact ⟨_, ofRaw?_eq c length⟩
  · exact ⟨none, ofRaw?_eq_none c length⟩

end Reader

/-- A string is read as the point that it encodes, and as none if it encodes none. -/
theorem ofRaw?_spec (bytes : Bytes) : Reads (ofRaw? c bytes) (c.IsRaw bytes) := by
  by_cases length : bytes.length = 2 * c.coordinateBytes
  · have read := ofRaw?_eq c length
    have below := c.base.value.toNat_lt
    by_cases lt : c.rawX bytes < c.base.value.toNat ∧ c.rawY bytes < c.base.value.toNat
    · have hx := Residue.ofNat_standsFor (m := c.base) (lt.1.trans below)
      have hy := Residue.ofNat_standsFor (m := c.base) (lt.2.trans below)
      have onCurve := isOnCurve_iff hx hy
      rw [if_pos lt, ofCoordinates?] at read
      by_cases on : c.weierstrass.Nonsingular (c.rawX bytes : c.base.Ring) (c.rawY bytes)
      · rw [if_pos (onCurve.mpr on)] at read
        exact .inl ⟨_, _, read, ⟨length, lt.1, lt.2, on, rfl⟩, .finite hx hy⟩
      · rw [if_neg fun e => on (onCurve.mp e)] at read
        exact .inr ⟨read, fun g raw => on raw.point.1⟩
    · rw [if_neg lt] at read
      exact .inr ⟨read, fun g raw => lt ⟨raw.x_lt, raw.y_lt⟩⟩
  · exact .inr ⟨ofRaw?_eq_none c length, fun g raw => length raw.length⟩

omit [c.Elliptic] in
theorem length_toRaw (q : Affine c) : q.toRaw.length = 2 * c.coordinateBytes := by
  rw [toRaw, List.length_append, Residue.length_toBytes, Residue.length_toBytes]
  exact (two_mul c.coordinateBytes).symm

omit [c.Elliptic] in
/-- A writer fills the first `2 n` bytes with both coordinates, zeros for the identity. -/
theorem writeRaw_eq_ok (q : Affine c) {out : Bytes}
    (room : 2 * c.coordinateBytes ≤ out.length) :
    q.writeRaw out = .ok (q.toRaw ++ out.drop (2 * c.coordinateBytes)) :=
  Bytes.writePair_eq_ok q.x.value q.y.value c.base.byteLength_le room

omit [c.Elliptic] in
/-- The bytes of both coordinates are the raw encoding of a finite point. -/
theorem StandsFor.isRaw {q : Affine c} {g : c.Group} (h : q.StandsFor g) (finite : g ≠ 0) :
    c.IsRaw q.toRaw g := by
  have fits : c.coordinateBytes ≤ 8 * L := c.base.byteLength_le
  cases h with
  | infinity => exact absurd rfl finite
  | @finite x y X Y on hx hy =>
    have x_val := hx.value_toBytes fits c.base.value_le
    have y_val := hy.value_toBytes fits c.base.value_le
    have x_length : x.toBytes.length = c.coordinateBytes := x.length_toBytes
    have y_length : y.toBytes.length = c.coordinateBytes := y.length_toBytes
    have raw : (Affine.finite x y).toRaw = x.toBytes ++ y.toBytes := rfl
    have rawX : c.rawX (Affine.finite x y).toRaw = X.val := by
      rw [Curve.rawX, raw, List.take_left' x_length]
      exact x_val
    have rawY : c.rawY (Affine.finite x y).toRaw = Y.val := by
      rw [Curve.rawY, raw, List.drop_left' x_length]
      exact y_val
    refine ⟨?_, ?_, ?_, ?_⟩
    · rw [raw, List.length_append, x_length, y_length, two_mul]
    · rw [rawX]
      exact X.val_lt
    · rw [rawY]
      exact Y.val_lt
    · rw [rawX, rawY]
      simp [on]

end Affine
end ShortWeierstrass
