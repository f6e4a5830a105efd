/-
# What operations leave of their buffers

An operation that fills a buffer is run on buffers of any length and any content. It overwrites the
first `count` bytes if they come out the same whatever the buffer is, and the bytes behind them are
passed on (`Overwrites`); it leaves the buffer alone if the whole of it is passed on, with the word
that nothing was written (`LeavesAlone`). What writes a point overwrites as many bytes as two
coordinates have (`Affine.overwrites_of_writeRaw`), and so do the public key, the shared secret and
the conversion of a compressed key, which all end in that. The conversions that can be refused are
decided before anything is written: that of an uncompressed key by its tag, that of a compressed one
by the tag, the range of the first coordinate and the root of its right-hand side
(`Curve.compressedToRaw_leavesAlone_iff`).

Key definitions: `Overwrites`, `LeavesAlone`, `Domain.WritesInFront`.
Key theorems: `Affine.overwrites_of_writeRaw`, `Curve.compressedToRaw_leavesAlone_iff`,
`Domain.writes_in_front`.
-/
import Mathlib
import ShortWeierstrass.Proofs.GroupOrder
import ShortWeierstrass.Proofs.KeyFormat
import ShortWeierstrass.Proofs.Signing

namespace ShortWeierstrass

variable {L : ℕ}

/-! ### Buffers -/

/-- On every buffer with room for them the operation puts the same bytes over the first `count`
ones, and passes on those behind them. -/
def Overwrites {α : Type} (count : ℕ) (op : Bytes → Except Fault α) (result : Bytes → α) : Prop :=
  ∃ written : Bytes, written.length = count ∧
    ∀ out : Bytes, count ≤ out.length → op out = .ok (result (written ++ out.drop count))

/-- On every buffer the operation is refused, and passes on the buffer. -/
def LeavesAlone (op : Bytes → Except Fault Outcome) : Prop :=
  ∀ out : Bytes, op out = .ok ⟨false, out⟩

theorem Overwrites.exists_eq_ok {α : Type} {count : ℕ} {op : Bytes → Except Fault α}
    {result : Bytes → α} (h : Overwrites count op result) {out : Bytes}
    (room : count ≤ out.length) : ∃ new, op out = .ok (result new) ∧ new.length = out.length := by
  obtain ⟨written, length, run⟩ := h
  refine ⟨_, run out room, ?_⟩
  rw [List.length_append, List.length_drop]
  omega

theorem Overwrites.not_leavesAlone {count : ℕ} {op : Bytes → Except Fault Outcome}
    (h : Overwrites count op (Outcome.mk true)) : ¬ LeavesAlone op := by
  obtain ⟨written, -, run⟩ := h
  intro alone
  have both := (run (List.replicate count 0) List.length_replicate.ge).symm.trans (alone _)
  cases both

namespace Affine

variable {c : Curve L}

theorem overwrites_of_writeRaw (q : Affine c) {valid : Bool} {op : Bytes → Except Fault Outcome}
    (run : ∀ out, op out = (do return ⟨valid, ← q.writeRaw out⟩)) :
    Overwrites (2 * c.coordinateBytes) op (Outcome.mk valid) := by
  refine ⟨q.toRaw, q.length_toRaw, fun out room => ?_⟩
  rw [run, q.writeRaw_eq_ok room]
  rfl

end Affine

/-! ### Formats of keys -/

namespace Curve

variable {c : Curve L} {key body : Bytes}

theorem rawToUncompressed_overwrites (length : key.length = 2 * c.coordinateBytes) :
    Overwrites (2 * c.coordinateBytes + 1) (c.rawToUncompressed key) id :=
  ⟨_ :: key, congrArg (· + 1) length, fun _ room => rawToUncompressed_of_room length room⟩

theorem rawToCompressed_overwrites (length : key.length = 2 * c.coordinateBytes) :
    Overwrites (c.coordinateBytes + 1) (c.rawToCompressed key) id := by
  refine ⟨_ :: key.take c.coordinateBytes, ?_, fun _ room => rawToCompressed_of_room length room⟩
  rw [List.length_cons, List.length_take]
  omega

theorem uncompressedToRaw_overwrites (length : body.length = 2 * c.coordinateBytes) :
    Overwrites (2 * c.coordinateBytes) (c.uncompressedToRaw (PointForm.uncompressed.tag :: body))
      (Outcome.mk true) :=
  ⟨body, length, fun _ room => uncompressedToRaw_of_room length room⟩

theorem compressedToRaw_cases (length : key.length = c.coordinateBytes + 1) :
    ((∃ q, Affine.ofTagged? c key = .ok (some q)) ∧
        Overwrites (2 * c.coordinateBytes) (c.compressedToRaw key) (Outcome.mk true)) ∨
      (Affine.ofTagged? c key = .ok none ∧ LeavesAlone (c.compressedToRaw key)) := by
  obtain ⟨found, read⟩ := Affine.exists_ofTagged?_eq_ok c key
  cases found with
  | some q =>
    refine .inl ⟨⟨q, read⟩, q.overwrites_of_writeRaw fun out => ?_⟩
    rw [compressedToRaw_eq_read length, read]
    rfl
  | none =>
    refine .inr ⟨read, fun out => ?_⟩
    rw [compressedToRaw_eq_read length, read]
    rfl

/-- The conversion of a compressed key is refused for a tag that is not one of a compressed key,
for a number that is not below the base modulus, and where the curve has no point. -/
theorem compressedToRaw_leavesAlone_iff [c.Elliptic] [c.base.Rooted] {tag : UInt8}
    (length : body.length = c.coordinateBytes) :
    LeavesAlone (c.compressedToRaw (tag :: body)) ↔
      ¬ (tag = 2 ∨ tag = 3) ∨ c.base.value.toNat ≤ body.value ∨
        ¬ ∃ Y, c.weierstrass.Nonsingular (body.value : c.base.Ring) Y := by
  have key_length : (tag :: body).length = c.coordinateBytes + 1 := congrArg (· + 1) length
  have alone_iff : LeavesAlone (c.compressedToRaw (tag :: body)) ↔
      Affine.ofTagged? c (tag :: body) = .ok none := by
    rcases compressedToRaw_cases key_length with ⟨⟨q, read⟩, overwrites⟩ | ⟨read, alone⟩
    · rw [read]
      exact iff_of_false overwrites.not_leavesAlone nofun
    · exact iff_of_true alone read
  rw [alone_iff, ← PointForm.exists_compressed_tag_iff]
  by_cases compressed : ∃ odd, tag = (PointForm.compressed odd).tag
  · have fits := length.trans_le c.base.byteLength_le
    obtain ⟨odd, rfl⟩ := compressed
    have read : Affine.ofTagged? c ((PointForm.compressed odd).tag :: body) =
        Affine.decompressBytes? c body odd := by
      rw [Affine.ofTagged?_tag]
      exact if_pos length
    rw [read, Affine.decompressBytes?_eq fits, Except.ok.injEq,
      or_iff_right (not_not.mpr ⟨odd, rfl⟩)]
    by_cases lt : body.value < c.base.value.toNat
    · have hx := Residue.ofNat_standsFor (m := c.base) (lt.trans c.base.value.toNat_lt)
      rw [if_pos lt, or_iff_right lt.not_ge, Affine.decompress?_eq_none_iff hx, isSquare_cubic_iff]
    · rw [if_neg lt]
      exact iff_of_true rfl (.inl (not_lt.mp lt))
  · exact iff_of_true (Affine.ofTagged?_eq_none_of_tag length compressed) (.inl compressed)

end Curve

/-! ### Keys, signatures and secrets -/

namespace Domain

variable {d : Domain L} {key : Bytes}

theorem publicKey_overwrites (length : key.length = d.coordinateBytes) :
    Overwrites (2 * d.coordinateBytes) (d.publicKey key) (Outcome.mk (d.IsScalar key.value)) := by
  have fits := length.trans_le d.base.byteLength_le
  let scalar : d.Scalar := .ofNat (d.loaded key.value)
  refine (d.mulGenerator scalar.value).toAffine.overwrites_of_writeRaw fun out => ?_
  rw [publicKey, d.loadScalar_eq key fits]
  rfl

/-- The peer's key is of any length: what is no public key is replaced by the generator. -/
theorem sharedSecret_overwrites (peer : Bytes) (length : key.length = d.coordinateBytes) :
    ∃ valid, Overwrites (2 * d.coordinateBytes) (d.sharedSecret peer key) (Outcome.mk valid) := by
  have fits := length.trans_le d.base.byteLength_le
  obtain ⟨found, read⟩ := Affine.exists_ofRaw?_eq_ok d.toCurve peer
  let scalar : d.Scalar := .ofNat (d.loaded key.value)
  let shared := d.mul (.ofAffine (found.getD d.generator)) scalar.value
  refine ⟨found.isSome && d.IsScalar key.value,
    shared.toAffine.overwrites_of_writeRaw fun out => ?_⟩
  rw [sharedSecret, read, d.loadScalar_eq key fits]
  rfl

theorem signDigest_overwrites (bits : d.order.bitLength ≤ 8 * d.coordinateBytes) (digest : Bytes)
    {nonce : Bytes} (key_length : key.length = d.coordinateBytes)
    (nonce_length : nonce.length = d.coordinateBytes) :
    ∃ valid, Overwrites (2 * d.coordinateBytes) (d.signDigest digest key nonce)
      (Outcome.mk valid) := by
  obtain ⟨z, read⟩ := exists_digestScalar_eq_ok bits digest
  refine ⟨_, _, ?_, fun out room => signDigest_eq key_length nonce_length read room⟩
  rw [List.length_append, length_scalarBytes, length_scalarBytes, two_mul]

/-- Every operation that fills a buffer overwrites the front of it only, and a refused conversion
leaves it alone. -/
structure WritesInFront (d : Domain L) : Prop where
  signDigest : ∀ digest key nonce : Bytes, key.length = d.coordinateBytes →
    nonce.length = d.coordinateBytes →
      ∃ valid, Overwrites (2 * d.coordinateBytes) (d.signDigest digest key nonce) (Outcome.mk valid)
  publicKey : ∀ key : Bytes, key.length = d.coordinateBytes →
    ∃ valid, Overwrites (2 * d.coordinateBytes) (d.publicKey key) (Outcome.mk valid)
  sharedSecret : ∀ peer key : Bytes, key.length = d.coordinateBytes →
    ∃ valid, Overwrites (2 * d.coordinateBytes) (d.sharedSecret peer key) (Outcome.mk valid)
  rawToUncompressed : ∀ key : Bytes, key.length = 2 * d.coordinateBytes →
    Overwrites (2 * d.coordinateBytes + 1) (d.rawToUncompressed key) id
  rawToCompressed : ∀ key : Bytes, key.length = 2 * d.coordinateBytes →
    Overwrites (d.coordinateBytes + 1) (d.rawToCompressed key) id
  uncompressedToRaw : ∀ body : Bytes, body.length = 2 * d.coordinateBytes →
    Overwrites (2 * d.coordinateBytes) (d.uncompressedToRaw (4 :: body)) (Outcome.mk true)
  uncompressedToRaw_refused : ∀ (tag : UInt8) (body : Bytes), tag ≠ 4 →
    LeavesAlone (d.uncompressedToRaw (tag :: body))
  compressedToRaw : ∀ (tag : UInt8) (body : Bytes), body.length = d.coordinateBytes →
    Overwrites (2 * d.coordinateBytes) (d.compressedToRaw (tag :: body)) (Outcome.mk true) ∨
      LeavesAlone (d.compressedToRaw (tag :: body))
  compressedToRaw_refused : ∀ [d.toCurve.Elliptic] [d.base.Rooted] (tag : UInt8) (body : Bytes),
    body.length = d.coordinateBytes →
      (LeavesAlone (d.compressedToRaw (tag :: body)) ↔
        ¬ (tag = 2 ∨ tag = 3) ∨ d.base.value.toNat ≤ body.value ∨
          ¬ ∃ Y, d.weierstrass.Nonsingular (body.value : d.base.Ring) Y)

/-- **Operations write in front of their buffers only.** If the order is below the base modulus,
what an operation writes is the same whatever the buffer held, all bytes behind it stay, and a
conversion that is refused, for its tag or for a coordinate without a point, writes nothing. -/
theorem writes_in_front (d : Domain L) (lt : d.order.value.toNat < d.base.value.toNat) :
    d.WritesInFront where
  signDigest digest _ _ := signDigest_overwrites (order_bitLength_le lt) digest
  publicKey _ length := ⟨_, publicKey_overwrites length⟩
  sharedSecret peer _ := sharedSecret_overwrites peer
  rawToUncompressed _ := Curve.rawToUncompressed_overwrites
  rawToCompressed _ := Curve.rawToCompressed_overwrites
  uncompressedToRaw _ := Curve.uncompressedToRaw_overwrites
  uncompressedToRaw_refused _ body ne := fun out => Curve.uncompressedToRaw_of_tag_ne ne body out
  compressedToRaw _ _ length :=
    (Curve.compressedToRaw_cases (congrArg (· + 1) length)).imp And.right And.right
  compressedToRaw_refused _ _ := Curve.compressedToRaw_leavesAlone_iff

/-- Modulo 257, with two bytes a coordinate: a signature fills four bytes of six, and of compressed
keys the first coordinate 0 is converted; 257, which stands for 0 as well, is refused, and so are 1,
where the curve has no point, and a tag of another form. -/
theorem writes_in_front_mod257 :
    Small.mod257.order.value.toNat < Small.mod257.base.value.toNat ∧
    (∃ valid written, written.length = 4 ∧
      Small.mod257.signDigest [0xa5] [0, 4] [0, 2] [0, 0, 0, 0] = .ok ⟨valid, written⟩ ∧
      Small.mod257.signDigest [0xa5] [0, 4] [0, 2] [1, 2, 3, 4, 5, 6] =
        .ok ⟨valid, written ++ [5, 6]⟩) ∧
    Overwrites 4 (Small.mod257.compressedToRaw [2, 0, 0]) (Outcome.mk true) ∧
    LeavesAlone (Small.mod257.compressedToRaw [2, 1, 1]) ∧
    LeavesAlone (Small.mod257.compressedToRaw [3, 0, 1]) ∧
    LeavesAlone (Small.mod257.compressedToRaw [4, 0, 0]) := by
  have lt : Small.mod257.order.value.toNat < Small.mod257.base.value.toNat := Admitted.order_lt
  have rooted : Small.mod257.base.Rooted := inferInstanceAs Small.mod257Base.Rooted
  have width : Small.mod257.coordinateBytes = 2 := by decide +kernel
  have writes := writes_in_front Small.mod257 lt
  have refused := fun tag body length => writes.compressedToRaw_refused tag body length
  rw [width] at refused
  refine ⟨lt, ?_, ?_, ?_, ?_, ?_⟩
  · obtain ⟨valid, written, length, run⟩ := writes.signDigest [0xa5] [0, 4] [0, 2] width.symm
      width.symm
    rw [width] at length run
    have exact_length := run [0, 0, 0, 0] (by decide)
    rw [List.drop_of_length_le (by decide), List.append_nil] at exact_length
    exact ⟨valid, written, length, exact_length, run [1, 2, 3, 4, 5, 6] (by decide)⟩
  · have point : ¬ ¬ ∃ Y, Small.mod257.weierstrass.Nonsingular (Bytes.value [0, 0] : ℕ) Y := by
      rw [← Curve.isSquare_cubic_iff]
      decide +kernel
    have below : ¬ Small.mod257.base.value.toNat ≤ Bytes.value [0, 0] := by
      rw [Small.mod257_base]
      decide
    have converted := (writes.compressedToRaw 2 [0, 0] width.symm).resolve_right
      ((refused 2 [0, 0] rfl).not.mpr (not_or.mpr ⟨by decide, not_or.mpr ⟨below, point⟩⟩))
    rwa [width] at converted
  · exact (refused 2 [1, 1] rfl).mpr (.inr (.inl (by rw [Small.mod257_base]; decide)))
  · refine (refused 3 [0, 1] rfl).mpr (.inr (.inr ?_))
    rw [← Curve.isSquare_cubic_iff]
    decide +kernel
  · exact (refused 4 [0, 0] rfl).mpr (.inl (by decide))

end Domain
end ShortWeierstrass
