/-
# How many signatures and keys fit

A commitment is accepted if its first coordinate is `r` modulo the order `q`. Since the base
modulus `p` is below `2 q`, that coordinate is `r` or `r + q`, the latter only if it is below `p`;
and at most two points have one first coordinate, a point and its opposite. So at most four
commitments are accepted, and at most two if `p ≤ r + q` (`Domain.encard_le_of_injOn`).

For a public key and a digest the commitment of `(r, s)` is `1 / s` times one fixed point
(`Domain.commitment_eq`): different `s` have different commitments, unless that point is the
identity and none is accepted, and `-s` has the opposite one. For a digest and a signature the
commitment moves with the public key (`Domain.commitment_injective`), and a point has one raw
encoding. Both counts follow: `Domain.acceptedNumbers_spec` and `Domain.acceptedKeys_spec`.

Key definitions: `Curve.over`, `Domain.acceptedNumbers`, `Domain.acceptedKeys`.
Key theorems: `Domain.acceptedNumbers_spec`, `Domain.acceptedKeys_spec`.
-/
import Mathlib
import ShortWeierstrass.Proofs.KeyAgreement

namespace ShortWeierstrass

variable {L : ℕ}

/-! ### Points over a coordinate -/

/-- The points with a given first coordinate. -/
def Curve.over (c : Curve L) (x : c.base.Ring) : Set c.Group := {g | ∃ y on, g = .some x y on}

theorem Curve.encard_over_le (c : Curve L) [c.Elliptic] (x : c.base.Ring) :
    (c.over x).encard ≤ 2 := by
  rcases (c.over x).eq_empty_or_nonempty with none | ⟨g, y, on, e⟩
  · rw [none, Set.encard_empty]
    exact zero_le
  · have pair : c.over x ⊆ {g, -g} := by
      rintro _ ⟨z, onZ, rfl⟩
      obtain ⟨on', opposite⟩ := neg_some on
      rw [e, opposite]
      rcases WeierstrassCurve.Affine.Y_eq_of_X_eq onZ.1 on.1 rfl with rfl | e
      · exact .inl rfl
      · rw [negY_eq] at e
        subst e
        exact .inr rfl
    calc (c.over x).encard ≤ ({g, -g} : Set c.Group).encard := Set.encard_le_encard pair
      _ ≤ ({-g} : Set c.Group).encard + 1 := Set.encard_insert_le _ _
      _ = 2 := by
        rw [Set.encard_singleton]
        rfl

namespace Domain

variable {d : Domain L} [d.Admitted] {g q : d.Group} {r : ℕ}

theorem HasFirst.neg (h : d.HasFirst g r) : d.HasFirst (-g) r := by
  obtain ⟨x, y, on, rfl, first⟩ := h
  obtain ⟨on', opposite⟩ := Curve.neg_some on
  exact ⟨x, -y, on', opposite, first⟩

/-- A coordinate is below twice the order. -/
theorem HasFirst.over (h : d.HasFirst g r) :
    g ∈ d.over r ∨
      r + d.order.value.toNat < d.base.value.toNat ∧ g ∈ d.over (r + d.order.value.toNat : ℕ) := by
  obtain ⟨x, y, on, rfl, first⟩ := h
  have x_lt := x.val_lt
  have near : d.base.value.toNat < 2 * d.order.value.toNat := Admitted.lt_two_mul
  by_cases below : x.val < d.order.value.toNat
  · rw [Nat.mod_eq_of_lt below] at first
    refine .inl ⟨y, ?_⟩
    rw [← first, ZMod.natCast_zmod_val]
    exact ⟨on, rfl⟩
  · rw [Nat.mod_eq_sub_mod (not_lt.mp below), Nat.mod_eq_of_lt (by omega)] at first
    have above : r + d.order.value.toNat = x.val := by omega
    refine .inr ⟨above.trans_lt x_lt, y, ?_⟩
    rw [above, ZMod.natCast_zmod_val]
    exact ⟨on, rfl⟩

theorem encard_hasFirst_le_four (r : ℕ) : {g | d.HasFirst g r}.encard ≤ 4 := by
  have both : {g | d.HasFirst g r} ⊆ d.over r ∪ d.over (r + d.order.value.toNat : ℕ) :=
    fun g h => h.over.imp id And.right
  calc {g | d.HasFirst g r}.encard ≤ _ := Set.encard_le_encard both
    _ ≤ (d.over r).encard + (d.over (r + d.order.value.toNat : ℕ)).encard := Set.encard_union_le _ _
    _ ≤ 2 + 2 := add_le_add (d.encard_over_le _) (d.encard_over_le _)
    _ = 4 := rfl

theorem encard_hasFirst_le_two (wide : d.base.value.toNat ≤ r + d.order.value.toNat) :
    {g | d.HasFirst g r}.encard ≤ 2 := by
  have one : {g | d.HasFirst g r} ⊆ d.over r := fun g h =>
    h.over.resolve_right fun above => absurd above.1 (not_lt.mpr wide)
  exact (Set.encard_le_encard one).trans (d.encard_over_le _)

/-- What is told apart by its commitments is as rare as they are. -/
theorem encard_le_of_injOn {α : Type*} {s : Set α} {f : α → d.Group}
    (first : ∀ a ∈ s, d.HasFirst (f a) r) (injective : s.InjOn f) :
    s.encard ≤ 4 ∧ (d.base.value.toNat ≤ r + d.order.value.toNat → s.encard ≤ 2) := by
  have le : s.encard ≤ {g | d.HasFirst g r}.encard :=
    Set.encard_le_encard_of_injOn first injective
  exact ⟨le.trans (encard_hasFirst_le_four r), fun wide => le.trans (encard_hasFirst_le_two wide)⟩

/-! ### Commitments -/

/-- A commitment is a multiple of a point that does not depend on the second number. -/
theorem commitment_eq (z r s : d.order.Ring) (q : d.Group) :
    d.commitment z r s q = s⁻¹.val • (z.val • d.generatorPoint + r.val • q) := by
  rw [commitment, nsmul_add, ← mul_val_smul, ← mul_val_smul, div_eq_inv_mul, div_eq_inv_mul]

theorem commitment_neg (z r s : d.order.Ring) (q : d.Group) :
    d.commitment z r (-s) q = -d.commitment z r s q := by
  rw [commitment_eq, commitment_eq, inv_neg, neg_val_smul]

/-- Finite commitments tell the second numbers apart. -/
theorem eq_of_commitment_eq {z r s s' : d.order.Ring} (finite : d.commitment z r s q ≠ 0)
    (same : d.commitment z r s q = d.commitment z r s' q) : s = s' := by
  rw [commitment_eq] at finite
  rw [commitment_eq, commitment_eq, ← sub_eq_zero, ← sub_val_smul, val_smul_eq_zero_iff] at same
  rcases same with e | fixed
  · exact inv_injective (sub_eq_zero.mp e)
  · rw [fixed, nsmul_zero] at finite
    exact absurd rfl finite

/-- Commitments tell the public keys apart. -/
theorem commitment_injective {z r s : d.order.Ring} (hr : r ≠ 0) (hs : s ≠ 0) :
    Function.Injective (d.commitment z r s) := by
  intro q q' same
  rw [commitment, commitment, add_right_inj, ← sub_eq_zero, ← nsmul_sub, val_smul_eq_zero_iff]
    at same
  exact sub_eq_zero.mp (same.resolve_left (div_ne_zero hr hs))

/-! ### What is accepted -/

theorem verifyDigest_eq_true_iff {digest publicKey r s : Bytes} (hr : r.length = d.coordinateBytes)
    (hs : s.length = d.coordinateBytes) :
    d.verifyDigest digest publicKey r s = .ok true ↔
      (∃ q, d.IsRaw publicKey q) ∧ d.IsScalar r.value ∧ d.IsScalar s.value ∧
        d.HasFirst (d.commitment (digest.leftmostBits d.order.bitLength) r.value s.value
          (d.peerPoint publicKey)) r.value := by
  rcases Affine.ofRaw?_spec (c := d.toCurve) publicKey with
    ⟨_, q, -, isRaw, -⟩ | ⟨read, noPoint⟩
  · obtain ⟨verdict, run, accepts⟩ := verifyDigest_of_isRaw digest isRaw hr hs
    have encodes : ∃ q, d.IsRaw publicKey q := ⟨q, isRaw⟩
    rw [run, peerPoint_of_isRaw isRaw, and_iff_right encodes, ← accepts]
    exact ⟨Except.ok.inj, congrArg _⟩
  · rw [verifyDigest_of_none digest read]
    refine iff_of_false ?_ fun h => not_exists.mpr noPoint h.1
    rintro ⟨⟩

theorem IsScalar.exists_bytes {n : ℕ} (h : d.IsScalar n) :
    ∃ s : Bytes, s.length = d.coordinateBytes ∧ s.value = n := by
  refine ⟨_, length_scalarBytes (.ofNat n), ?_⟩
  rw [value_scalarBytes (d.ofNat_standsFor h), ZMod.val_natCast_of_lt h.2]

/-- The second numbers that a digest, a public key and a first number are accepted with. -/
def acceptedNumbers (d : Domain L) (digest publicKey r : Bytes) : Set ℕ :=
  {n | ∃ s : Bytes, s.length = d.coordinateBytes ∧ s.value = n ∧
    d.verifyDigest digest publicKey r s = .ok true}

/-- The public keys that accept a signature of a digest. -/
def acceptedKeys (d : Domain L) (digest r s : Bytes) : Set Bytes :=
  {publicKey | d.verifyDigest digest publicKey r s = .ok true}

theorem mem_acceptedNumbers_iff {digest publicKey r : Bytes} (hr : r.length = d.coordinateBytes)
    {n : ℕ} :
    n ∈ d.acceptedNumbers digest publicKey r ↔
      (∃ q, d.IsRaw publicKey q) ∧ d.IsScalar r.value ∧ d.IsScalar n ∧
        d.HasFirst (d.commitment (digest.leftmostBits d.order.bitLength) r.value n
          (d.peerPoint publicKey)) r.value := by
  constructor
  · rintro ⟨s, hs, rfl, h⟩
    exact (verifyDigest_eq_true_iff hr hs).mp h
  · intro h
    obtain ⟨s, hs, rfl⟩ := h.2.2.1.exists_bytes
    exact ⟨s, hs, rfl, (verifyDigest_eq_true_iff hr hs).mpr h⟩

/-- **At most four second numbers go with a first one.** For any digest, public key and first
number, what is accepted with them is a valid number, and with it its opposite modulo the order;
there are at most four such numbers, and at most two if `p ≤ r + q`. -/
theorem acceptedNumbers_spec (d : Domain L) [d.Admitted] (digest publicKey r : Bytes)
    (hr : r.length = d.coordinateBytes) :
    (∀ n ∈ d.acceptedNumbers digest publicKey r, d.IsScalar n ∧
      d.order.value.toNat - n ∈ d.acceptedNumbers digest publicKey r) ∧
    (d.acceptedNumbers digest publicKey r).encard ≤ 4 ∧
    (d.base.value.toNat ≤ r.value + d.order.value.toNat →
      (d.acceptedNumbers digest publicKey r).encard ≤ 2) := by
  refine ⟨?_, encard_le_of_injOn (fun n h => ((mem_acceptedNumbers_iff hr).mp h).2.2.2) ?_⟩
  · intro n h
    rw [mem_acceptedNumbers_iff hr] at h ⊢
    obtain ⟨encodes, rValid, valid, first⟩ := h
    obtain ⟨oppositeValid, opposite⟩ := valid.opposite
    refine ⟨valid, encodes, rValid, oppositeValid, ?_⟩
    rw [opposite, commitment_neg]
    exact first.neg
  · intro n h n' h' same
    obtain ⟨-, -, valid, first⟩ := (mem_acceptedNumbers_iff hr).mp h
    obtain ⟨-, -, valid', -⟩ := (mem_acceptedNumbers_iff hr).mp h'
    exact valid.eq_of_natCast_eq valid' (eq_of_commitment_eq first.ne_zero same)

/-- Both bounds are attained modulo 17: 2 is the first number of points over 2 and over 13, and
6 of points over 6 only, since `6 + 11` is not below 17. With 4 its opposite is accepted. -/
theorem acceptedNumbers_spec_mod17 :
    4 ∈ Small.mod17.acceptedNumbers [0xa5] [1, 3] [2] ∧
      7 ∈ Small.mod17.acceptedNumbers [0xa5] [1, 3] [2] ∧
      (Small.mod17.acceptedNumbers [0xa5] [1, 3] [2]).encard = 4 ∧
      (Small.mod17.acceptedNumbers [0xa5] [1, 3] [6]).encard = 2 := by
  have length : 1 = Small.mod17.coordinateBytes := by decide +kernel
  have run : ∀ n ∈ ({4, 5, 6, 7} : Finset ℕ), Bytes.value [UInt8.ofNat n] = n ∧
      Small.mod17.verifyDigest [0xa5] [1, 3] [2] [UInt8.ofNat n] = .ok true := by
    decide +kernel
  have run' : ∀ n ∈ ({1, 10} : Finset ℕ), Bytes.value [UInt8.ofNat n] = n ∧
      Small.mod17.verifyDigest [0xa5] [1, 3] [6] [UInt8.ofNat n] = .ok true := by
    decide +kernel
  have four : (({4, 5, 6, 7} : Finset ℕ) : Set ℕ) ⊆
      Small.mod17.acceptedNumbers [0xa5] [1, 3] [2] := fun n h =>
    ⟨[UInt8.ofNat n], length, run n h⟩
  have two : (({1, 10} : Finset ℕ) : Set ℕ) ⊆
      Small.mod17.acceptedNumbers [0xa5] [1, 3] [6] := fun n h =>
    ⟨[UInt8.ofNat n], length, run' n h⟩
  obtain ⟨closed, le_four, -⟩ := acceptedNumbers_spec Small.mod17 [0xa5] [1, 3] [2] length
  obtain ⟨-, -, le_two⟩ := acceptedNumbers_spec Small.mod17 [0xa5] [1, 3] [6] length
  have four_le := Set.encard_le_encard four
  have two_le := Set.encard_le_encard two
  rw [Set.encard_coe_eq_coe_finsetCard] at four_le two_le
  have accepted := four (by decide : 4 ∈ _)
  obtain ⟨-, opposite⟩ := closed 4 accepted
  rw [Small.mod17_order] at opposite
  exact ⟨accepted, opposite, le_antisymm le_four four_le,
    le_antisymm (le_two (by decide +kernel)) two_le⟩

/-- **A signature is accepted by at most four public keys.** Whatever string is offered as a public
key, at most four of them accept a signature of a digest, or two if `p ≤ r + q`. -/
theorem acceptedKeys_spec (d : Domain L) [d.Admitted] (digest r s : Bytes)
    (hr : r.length = d.coordinateBytes) (hs : s.length = d.coordinateBytes) :
    (d.acceptedKeys digest r s).encard ≤ 4 ∧
      (d.base.value.toNat ≤ r.value + d.order.value.toNat →
        (d.acceptedKeys digest r s).encard ≤ 2) := by
  refine encard_le_of_injOn (fun publicKey h => ((verifyDigest_eq_true_iff hr hs).mp h).2.2.2) ?_
  intro publicKey h publicKey' h' same
  obtain ⟨⟨q, isRaw⟩, rValid, sValid, -⟩ := (verifyDigest_eq_true_iff hr hs).mp h
  obtain ⟨⟨q', isRaw'⟩, -⟩ := (verifyDigest_eq_true_iff hr hs).mp h'
  have points : d.peerPoint publicKey = d.peerPoint publicKey' :=
    commitment_injective (d.natCast_ne_zero rValid) (d.natCast_ne_zero sValid) same
  rw [peerPoint_of_isRaw isRaw, peerPoint_of_isRaw isRaw'] at points
  subst points
  exact isRaw.bytes_unique isRaw'

/-- Both bounds are attained modulo 17. -/
theorem acceptedKeys_spec_mod17 :
    (Small.mod17.acceptedKeys [0xa5] [2] [3]).encard = 4 ∧
      (Small.mod17.acceptedKeys [0xa5] [6] [3]).encard = 2 := by
  have length : 1 = Small.mod17.coordinateBytes := by decide +kernel
  have four : (({[2, 1], [6, 9], [11, 4], [13, 11]} : Finset Bytes) : Set Bytes) ⊆
      Small.mod17.acceptedKeys [0xa5] [2] [3] := by
    have run : ∀ key ∈ ({[2, 1], [6, 9], [11, 4], [13, 11]} : Finset Bytes),
        Small.mod17.verifyDigest [0xa5] key [2] [3] = .ok true := by decide +kernel
    exact run
  have two : (({[1, 14], [6, 9]} : Finset Bytes) : Set Bytes) ⊆
      Small.mod17.acceptedKeys [0xa5] [6] [3] := by
    have run : ∀ key ∈ ({[1, 14], [6, 9]} : Finset Bytes),
        Small.mod17.verifyDigest [0xa5] key [6] [3] = .ok true := by decide +kernel
    exact run
  obtain ⟨le_four, -⟩ := acceptedKeys_spec Small.mod17 [0xa5] [2] [3] length length
  obtain ⟨-, le_two⟩ := acceptedKeys_spec Small.mod17 [0xa5] [6] [3] length length
  have four_le := Set.encard_le_encard four
  have two_le := Set.encard_le_encard two
  rw [Set.encard_coe_eq_coe_finsetCard] at four_le two_le
  exact ⟨le_antisymm le_four four_le, le_antisymm (le_two (by decide +kernel)) two_le⟩

end Domain
end ShortWeierstrass
