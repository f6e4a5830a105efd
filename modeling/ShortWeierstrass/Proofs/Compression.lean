/-
# Points from one coordinate and a parity

The two square roots of a number other than 0 modulo an odd number have different parities
(`Residue.StandsFor.isOdd_neg`), so the first coordinate of a point and the parity of the second
name the point. A string is the compressed encoding of a finite point if it has `n` bytes, which
hold the first coordinate, and the tag in front of it says the parity (`Curve.IsCompressed`):
decompression takes these strings and no others, and the compressed writer makes them.

Whether a string is one depends on the first coordinate only, if no point has the second
coordinate 0 (`Curve.exists_isCompressed_iff`); such a point would be of order 2, and a curve
with an odd number of points has none (`Curve.y_ne_zero`).

Key definitions: `Curve.cubic`, `Curve.OddOrder`, `Curve.IsCompressed`.
Key theorems: `Affine.decompress?_eq_some`, `Affine.decompress?_spec`,
`Affine.decompressBytes?_spec`, `Affine.StandsFor.isCompressed`.
-/
import Mathlib
import ShortWeierstrass.Proofs.PointEncoding
import ShortWeierstrass.Proofs.SquareRoot

namespace ShortWeierstrass

variable {L : ℕ}

/-! ### Parities -/

theorem Limbs.isOdd_iff (u : Limbs L) : u.isOdd = true ↔ u.toNat % 2 = 1 := by
  have low : (u.low &&& 1).toNat = u.toNat % 2 ^ 1 := u.low_and_toNat rfl (by decide)
  rw [isOdd, decide_eq_true_iff, ← UInt64.toNat_inj, low]
  rfl

theorem Limbs.toNat_isOdd (u : Limbs L) : u.isOdd.toNat = u.toNat % 2 := by
  have isOdd := u.isOdd_iff
  cases h : u.isOdd with
  | true => exact (isOdd.mp h).symm
  | false =>
    have even := isOdd.not.mp (by rw [h]; decide)
    show 0 = u.toNat % 2
    omega

namespace Residue

variable {m : Modulus L} {x y : Residue m} {a b : m.Ring}

theorem StandsFor.isOdd_iff (h : x.StandsFor a) : x.isOdd = true ↔ a.val % 2 = 1 := by
  rw [Residue.isOdd, Limbs.isOdd_iff, h.value_toNat]

theorem StandsFor.isOdd_neg (h : x.StandsFor a) (ne : a ≠ 0) : (-x).isOdd = !x.isOdd := by
  have odd := m.odd
  have lt := a.val_lt
  have opposite : (-a).val = m.value.toNat - a.val := by rw [ZMod.neg_val, if_neg ne]
  rw [Bool.eq_iff_iff, h.neg.isOdd_iff, Bool.not_eq_true', ← Bool.not_eq_true, h.isOdd_iff,
    opposite]
  omega

theorem StandsFor.eq_of_sq_eq [Fact m.value.toNat.Prime] (hx : x.StandsFor a) (hy : y.StandsFor b)
    (square : a ^ 2 = b ^ 2) (parity : x.isOdd = y.isOdd) : a = b := by
  rcases eq_or_eq_neg_of_sq_eq_sq a b square with e | e
  · exact e
  · by_cases zero : b = 0
    · rw [e, zero, neg_zero]
    · have opposite := hy.isOdd_neg zero
      rw [← (hx.eq_iff hy.neg).mpr e, parity] at opposite
      exact absurd opposite.symm (Bool.not_ne_self _)

theorem StandsFor.toBytes_eq (h : x.StandsFor a) {bytes : Bytes}
    (length : bytes.length = m.byteLength) (value : bytes.value = a.val) : x.toBytes = bytes := by
  refine Bytes.eq_of_value_eq (x.length_toBytes.trans length.symm) ?_
  rw [value]
  exact h.value_toBytes m.byteLength_le m.value_le

end Residue

variable {c : Curve L}

/-! ### Points of a first coordinate -/

/-- The right-hand side of the equation, over the classes. -/
def Curve.cubic (c : Curve L) (x : c.base.Ring) : c.base.Ring :=
  x ^ 3 + c.a.toRing * x + c.b.toRing

/-- The group has an odd number of elements. -/
class Curve.OddOrder (c : Curve L) [c.Elliptic] : Prop where
  odd : Odd (Nat.card c.Group)

/-- The string holds the first coordinate of a finite point, below the base modulus, and the
second one has the parity. -/
structure Curve.IsCompressed (c : Curve L) (odd : Bool) (body : Bytes) (g : c.Group) : Prop where
  length : body.length = c.coordinateBytes
  x_lt : body.value < c.base.value.toNat
  point : ∃ (y : Residue c.base) (Y : c.base.Ring) (on : _),
    g = .some (body.value : c.base.Ring) Y on ∧ y.StandsFor Y ∧ y.isOdd = odd

variable [c.Elliptic]

theorem Curve.rightHandSide_standsFor {x : Residue c.base} {X : c.base.Ring} (h : x.StandsFor X) :
    (c.rightHandSide x).StandsFor (c.cubic X) := by
  have a := Residue.standsFor_toRing (Curve.Elliptic.a_canonical (c := c))
  have b := Residue.standsFor_toRing (Curve.Elliptic.b_canonical (c := c))
  refine (((h.square.add a).mul h).add b).congr ?_
  rw [cubic]
  ring

/-- The points of a first coordinate are the roots of its right-hand side. -/
theorem Curve.isSquare_cubic_iff {X : c.base.Ring} :
    IsSquare (c.cubic X) ↔ ∃ Y, c.weierstrass.Nonsingular X Y := by
  simp only [isSquare_iff_exists_sq, nonsingular_iff, cubic, eq_comm]

/-- In a group of odd order no point is its own opposite. -/
theorem Curve.y_ne_zero [c.OddOrder] {X Y : c.base.Ring} (on : c.weierstrass.Nonsingular X Y) :
    Y ≠ 0 := by
  intro zero
  have opposite : Y = c.weierstrass.negY X Y := by rw [negY_eq, zero, neg_zero]
  have twice : 2 • (.some X Y on : c.Group) = 0 := by
    rw [two_nsmul, WeierstrassCurve.Affine.Point.add_self_of_Y_eq opposite]
  have two : addOrderOf (.some X Y on : c.Group) ∣ 2 := addOrderOf_dvd_of_nsmul_eq_zero twice
  have card : addOrderOf (.some X Y on : c.Group) ∣ Nat.card c.Group := addOrderOf_dvd_natCard _
  have one : addOrderOf (.some X Y on : c.Group) ∣ 1 := by
    rw [← Nat.Coprime.gcd_eq_one (Nat.coprime_two_left.mpr (OddOrder.odd (c := c)))]
    exact Nat.dvd_gcd two card
  exact WeierstrassCurve.Affine.Point.some_ne_zero on
    (AddMonoid.addOrderOf_eq_one_iff.mp (Nat.dvd_one.mp one))

/-- What a first coordinate is completed to is a point with the parity, whatever the root of unity
of the base modulus is. -/
theorem Affine.decompress?_eq_some [c.OddOrder] {x : Residue c.base} {X : c.base.Ring}
    (hx : x.StandsFor X) {odd : Bool} {q : Affine c} (found : decompress? x odd = some q) :
    ∃ y Y, q = .finite x y ∧ y.StandsFor Y ∧ c.weierstrass.Nonsingular X Y ∧ y.isOdd = odd := by
  obtain ⟨root, some, rfl⟩ := Option.map_eq_some_iff.mp found
  obtain ⟨R, hroot, square⟩ := (c.rightHandSide_standsFor hx).sq_of_sqrt?_eq_some some
  have on : c.weierstrass.Nonsingular X R := Curve.nonsingular_iff.mpr square
  refine ⟨(-root).select root (root.isOdd == odd), if (root.isOdd == odd) = true then R else -R,
    rfl, hroot.neg.select hroot _, ?_, ?_⟩
  · rw [Curve.nonsingular_iff] at on ⊢
    rw [← on]
    split
    · rfl
    · exact neg_sq R
  · by_cases same : root.isOdd = odd
    · rw [beq_iff_eq.mpr same]
      exact same
    · rw [beq_eq_false_iff_ne.mpr same]
      show (-root).isOdd = odd
      rw [hroot.isOdd_neg (Curve.y_ne_zero on)]
      exact Bool.not_eq.mpr same

theorem Affine.decompress?_eq_none_iff [c.base.Rooted] {x : Residue c.base} {X : c.base.Ring}
    (hx : x.StandsFor X) (odd : Bool) :
    (decompress? x odd : Option (Affine c)) = none ↔ ¬ IsSquare (c.cubic X) := by
  rw [decompress?, Option.map_eq_none_iff, (c.rightHandSide_standsFor hx).sqrt?_eq_none_iff]

/-- A first coordinate is completed to the point of the parity, if the curve has one. -/
theorem Affine.decompress?_spec [c.OddOrder] [c.base.Rooted] {x : Residue c.base}
    {X : c.base.Ring} (hx : x.StandsFor X) (odd : Bool) :
    (∃ y Y, decompress? x odd = some (.finite x y : Affine c) ∧ y.StandsFor Y ∧
        c.weierstrass.Nonsingular X Y ∧ y.isOdd = odd) ∨
      ((decompress? x odd : Option (Affine c)) = none ∧ ¬ IsSquare (c.cubic X)) := by
  cases found : (decompress? x odd : Option (Affine c)) with
  | some q =>
    obtain ⟨y, Y, rfl, hy, on, parity⟩ := decompress?_eq_some hx found
    exact .inl ⟨y, Y, rfl, hy, on, parity⟩
  | none => exact .inr ⟨rfl, (decompress?_eq_none_iff hx odd).mp found⟩

/-! ### The compressed encoding -/

theorem Curve.IsCompressed.unique {odd : Bool} {body : Bytes} {g g' : c.Group}
    (h : c.IsCompressed odd body g) (h' : c.IsCompressed odd body g') : g = g' := by
  obtain ⟨y, Y, on, rfl, hy, parity⟩ := h.point
  obtain ⟨y', Y', on', rfl, hy', parity'⟩ := h'.point
  have square : Y ^ 2 = Y' ^ 2 :=
    (Curve.nonsingular_iff.mp on).trans (Curve.nonsingular_iff.mp on').symm
  simp only [hy.eq_of_sq_eq hy' square (parity.trans parity'.symm)]

namespace Affine

variable {odd : Bool} {body : Bytes}

omit [c.Elliptic] in
theorem decompressBytes?_eq (fits : body.length ≤ 8 * L) :
    decompressBytes? c body odd = .ok (
      if body.value < c.base.value.toNat then decompress? (.ofNat body.value) odd else none) := by
  have number := Limbs.toNat_ofNat_value fits
  have read : decompressBytes? c body odd =
      .ok ((Residue.ofLimbs? (.ofNat L body.value)).bind (decompress? · odd)) := by
    rw [decompressBytes?, Residue.ofBytes?_eq_ok c.base fits]
    rfl
  rw [read]
  by_cases lt : body.value < c.base.value.toNat
  · rw [Residue.ofLimbs?_eq_some _ (by rwa [number]), Option.bind_some, if_pos lt]
    rfl
  · rw [Residue.ofLimbs?_eq_none _ (by rwa [number]), Option.bind_none, if_neg lt]

theorem decompressBytes?_eq_some [c.OddOrder] {q : Affine c}
    (read : decompressBytes? c body odd = .ok (some q)) :
    ∃ g, q.StandsFor g ∧ (body.length = c.coordinateBytes → c.IsCompressed odd body g) := by
  by_cases fits : body.length ≤ 8 * L
  · rw [decompressBytes?_eq fits] at read
    by_cases lt : body.value < c.base.value.toNat
    · have hx := Residue.ofNat_standsFor (m := c.base) (lt.trans c.base.value.toNat_lt)
      rw [if_pos lt] at read
      obtain ⟨y, Y, rfl, hy, on, parity⟩ := decompress?_eq_some hx (Except.ok.inj read)
      exact ⟨.some _ _ on, .finite hx hy, fun length => ⟨length, lt, y, Y, on, rfl, hy, parity⟩⟩
    · rw [if_neg lt] at read
      cases read
  · rw [decompressBytes?, Residue.ofBytes?_eq_error c.base fits] at read
    cases read

/-- A string is decompressed to the point that it encodes with the parity, if there is one. -/
theorem decompressBytes?_spec [c.OddOrder] [c.base.Rooted]
    (length : body.length = c.coordinateBytes) :
    Reads (decompressBytes? c body odd) (c.IsCompressed odd body) := by
  rw [decompressBytes?_eq (length.trans_le c.base.byteLength_le)]
  by_cases lt : body.value < c.base.value.toNat
  · have hx := Residue.ofNat_standsFor (m := c.base) (lt.trans c.base.value.toNat_lt)
    rw [if_pos lt]
    rcases decompress?_spec hx odd with ⟨y, Y, e, hy, on, parity⟩ | ⟨e, noRoot⟩
    · exact .inl ⟨_, _, congrArg _ e, ⟨length, lt, y, Y, on, rfl, hy, parity⟩, .finite hx hy⟩
    · refine .inr ⟨congrArg _ e, fun g h => noRoot ?_⟩
      obtain ⟨_, Y, on, -⟩ := h.point
      exact Curve.isSquare_cubic_iff.mpr ⟨Y, on⟩
  · rw [if_neg lt]
    exact .inr ⟨rfl, fun g h => lt h.x_lt⟩

theorem StandsFor.isCompressed {q : Affine c} {g : c.Group} (h : q.StandsFor g) (finite : g ≠ 0) :
    c.IsCompressed q.y.isOdd q.x.toBytes g := by
  cases h with
  | infinity => exact absurd rfl finite
  | @finite x y X Y on hx hy =>
    have value : x.toBytes.value = X.val := hx.value_toBytes c.base.byteLength_le c.base.value_le
    refine ⟨x.length_toBytes, ?_, y, Y, ?_⟩
    · exact value.trans_lt X.val_lt
    · show ∃ on', _ = WeierstrassCurve.Affine.Point.some (x.toBytes.value : c.base.Ring) Y on' ∧ _
      rw [value]
      simp [on, hy, Affine.y]

omit [c.Elliptic] in
/-- Behind the tag, the writer fills all of a buffer with the lowest bytes of the first
coordinate. -/
theorem writeCompressed_cons (q : Affine c) (byte : UInt8) {rest : Bytes}
    (fits : rest.length ≤ 8 * L) :
    q.writeCompressed (byte :: rest) =
      .ok ((PointForm.compressed q.y.isOdd).tag :: q.x.value.toBytes rest.length) := by
  simp only [writeCompressed, Bytes.first, Residue.writeBytes, Limbs.writeBytes, if_pos fits,
    Bind.bind, Except.bind]
  rfl

omit [c.Elliptic] in
theorem writeCompressed_eq_ok (q : Affine c) {out : Bytes}
    (length : out.length = c.coordinateBytes + 1) :
    q.writeCompressed out = .ok ((PointForm.compressed q.y.isOdd).tag :: q.x.toBytes) := by
  cases out with
  | nil => cases length
  | cons byte rest =>
    have rest_length : rest.length = c.coordinateBytes := Nat.succ.inj length
    rw [q.writeCompressed_cons byte (rest_length.trans_le c.base.byteLength_le), rest_length]
    rfl

end Affine

/-- The compressed encodings of either parity hold the same numbers. -/
theorem Curve.exists_isCompressed_iff [c.OddOrder] [c.base.Rooted] {odd : Bool} {body : Bytes} :
    (∃ g, c.IsCompressed odd body g) ↔
      body.length = c.coordinateBytes ∧ body.value < c.base.value.toNat ∧
        IsSquare (c.cubic body.value) := by
  constructor
  · rintro ⟨g, length, x_lt, _, Y, on, -⟩
    exact ⟨length, x_lt, isSquare_cubic_iff.mpr ⟨Y, on⟩⟩
  · rintro ⟨length, x_lt, square⟩
    have hx := Residue.ofNat_standsFor (m := c.base) (x_lt.trans c.base.value.toNat_lt)
    rcases Affine.decompress?_spec hx odd with ⟨y, Y, -, hy, on, parity⟩ | ⟨-, noRoot⟩
    · exact ⟨_, length, x_lt, y, Y, on, rfl, hy, parity⟩
    · exact absurd square noRoot

end ShortWeierstrass
