/-
# Compressed points in buffers of any length

A compressed key is made in two ways: from a point by the writer of points, and from the raw
bytes of a point by the conversion of keys. The conversion takes the first `n + 1` bytes of its
buffer, leaves the others alone, and has no result for a buffer that does not have them
(`Affine.rawToCompressed_writeRaw`). The writer takes all of the buffer: on a shorter one the first
bytes of the coordinate are missing, on a longer one there are zeros in front of it, and only a
buffer longer than the words of the coordinate has no result (`Affine.writeCompressed_of_short`,
`Affine.writeCompressed_of_long`, `Affine.writeCompressed_eq_error`).

So the two agree on buffers of just the length. They do on an empty one, which no tag fits in; and
on a longer one if the coordinate and what stands behind its place are zero, since otherwise the
coordinate has moved (`Affine.shifted_eq_iff`). They agree nowhere else
(`Affine.writeCompressed_agrees_iff`).

Key definitions: `Affine.overwriteCompressed`.
Key theorems: `Affine.rawToCompressed_writeRaw`, `Affine.shifted_eq_iff`,
`Affine.writeCompressed_agrees_iff`.
-/
import Mathlib
import ShortWeierstrass.Proofs.GroupOrder
import ShortWeierstrass.Proofs.KeyFormat

namespace ShortWeierstrass
namespace Affine

variable {L : ℕ} {c : Curve L} {buffer out : Bytes}

/-- Writes the compressed encoding over the first `n + 1` bytes of a buffer, if it has them. -/
def overwriteCompressed (q : Affine c) (out : Bytes) : Except Fault Bytes :=
  if c.coordinateBytes < out.length then
    .ok ((PointForm.compressed q.y.isOdd).tag ::
      (q.x.toBytes ++ out.drop (c.coordinateBytes + 1)))
  else
    .error .outOfRange

theorem rawToCompressed_writeRaw (q : Affine c) (length : buffer.length = 2 * c.coordinateBytes)
    (out : Bytes) :
    (q.writeRaw buffer >>= fun raw => c.rawToCompressed raw out) = q.overwriteCompressed out := by
  rw [q.writeRaw_of_length length]
  show c.rawToCompressed q.toRaw out = _
  unfold overwriteCompressed
  split
  · rename_i room
    exact Curve.rawToCompressed_toRaw q room
  · rename_i short
    exact Curve.rawToCompressed_of_short q.length_toRaw (Nat.le_of_not_lt short)

/-! ### What the writer of points does -/

theorem writeCompressed_of_short (q : Affine c) (nonempty : 0 < out.length)
    (short : out.length ≤ c.coordinateBytes + 1) :
    q.writeCompressed out = .ok ((PointForm.compressed q.y.isOdd).tag ::
      q.x.toBytes.drop (c.coordinateBytes + 1 - out.length)) := by
  have fits : c.coordinateBytes ≤ 8 * L := c.base.byteLength_le
  cases out with
  | nil => cases nonempty
  | cons byte rest =>
    have le : rest.length ≤ c.coordinateBytes := Nat.le_of_succ_le_succ short
    have whole : c.coordinateBytes - rest.length + rest.length = c.base.byteLength :=
      Nat.sub_add_cancel le
    have missing := q.x.value.drop_toBytes (c.coordinateBytes - rest.length) rest.length (by omega)
    rw [whole] at missing
    rw [q.writeCompressed_cons byte (by omega), ← missing, List.length_cons,
      Nat.add_sub_add_right]
    rfl

theorem writeCompressed_of_long (q : Affine c) (long : c.coordinateBytes < out.length)
    (fits : out.length ≤ 8 * L + 1) :
    q.writeCompressed out = .ok ((PointForm.compressed q.y.isOdd).tag ::
      (List.replicate (out.length - (c.coordinateBytes + 1)) 0 ++ q.x.toBytes)) := by
  cases out with
  | nil => cases long
  | cons byte rest =>
    have le : c.coordinateBytes ≤ rest.length := Nat.le_of_lt_succ long
    have rest_fits : rest.length ≤ 8 * L := Nat.le_of_succ_le_succ fits
    have whole : rest.length - c.coordinateBytes + c.base.byteLength = rest.length :=
      Nat.sub_add_cancel le
    have below : q.x.value.toNat < 256 ^ c.base.byteLength :=
      q.x.value_spec.1.trans_le c.base.value_le
    have padded := Limbs.toBytes_add (rest.length - c.coordinateBytes) (whole.trans_le rest_fits)
      below
    rw [whole] at padded
    rw [q.writeCompressed_cons byte rest_fits, padded, List.length_cons, Nat.add_sub_add_right]
    rfl

theorem writeCompressed_eq_error (q : Affine c) (long : 8 * L + 1 < out.length) :
    q.writeCompressed out = .error .outputTooLong := by
  cases out with
  | nil => cases long
  | cons byte rest =>
    have unfit : ¬ rest.length ≤ 8 * L := by
      rw [List.length_cons] at long
      omega
    simp only [writeCompressed, Bytes.first, Residue.writeBytes, Limbs.writeBytes, if_neg unfit,
      Bind.bind, Except.bind]

/-! ### Where the two agree -/

/-- A coordinate that is moved by some zeros is the same string with other bytes behind it only if
all of that is zero. -/
theorem shifted_eq_iff {front tail : Bytes} {more : ℕ} (length : tail.length = more)
    (pos : 0 < more) :
    List.replicate more 0 ++ front = front ++ tail ↔
      front.value = 0 ∧ ∀ byte ∈ tail, byte = 0 := by
  have moved := Bytes.value_replicate_append more front
  rw [← Bytes.value_eq_zero_iff tail]
  constructor
  · intro same
    have value : front.value = front.value * 256 ^ tail.length + tail.value := by
      rw [← Bytes.value_append, ← same, moved]
    have two : 2 ≤ 256 ^ tail.length :=
      calc 2 ≤ 256 ^ 1 := by decide
        _ ≤ 256 ^ tail.length := Nat.pow_le_pow_right (by decide) (by omega)
    have twice := Nat.mul_le_mul_left front.value two
    omega
  · rintro ⟨front_zero, tail_zero⟩
    apply Bytes.eq_of_value_eq
    · rw [List.length_append, List.length_append, List.length_replicate, length, Nat.add_comm]
    · rw [moved, Bytes.value_append, front_zero, tail_zero, Nat.zero_mul]

theorem writeCompressed_eq_overwrite_iff (q : Affine c) (out : Bytes) :
    q.writeCompressed out = q.overwriteCompressed out ↔
      out.length = 0 ∨ out.length = c.coordinateBytes + 1 ∨
        (c.coordinateBytes + 1 < out.length ∧ out.length ≤ 8 * L + 1 ∧ q.x.value.toNat = 0 ∧
          ∀ byte ∈ out.drop (c.coordinateBytes + 1), byte = 0) := by
  have fits : c.coordinateBytes ≤ 8 * L := c.base.byteLength_le
  unfold overwriteCompressed
  by_cases room : c.coordinateBytes < out.length
  · rw [if_pos room]
    rcases Nat.lt_or_ge (8 * L + 1) out.length with tooLong | le
    · rw [q.writeCompressed_eq_error tooLong]
      refine iff_of_false (fun same => nomatch same) ?_
      omega
    · rw [q.writeCompressed_of_long room le, Except.ok.injEq, List.cons.injEq, and_iff_right rfl]
      rcases Nat.eq_or_lt_of_le room with just | longer
      · rw [← just, List.drop_of_length_le just.ge, Nat.sub_self, List.append_nil]
        exact iff_of_true rfl (.inr (.inl rfl))
      · rw [shifted_eq_iff List.length_drop (by omega), q.x.value_toBytes]
        constructor
        · rintro ⟨zero, tail⟩
          exact .inr (.inr ⟨longer, le, zero, tail⟩)
        · rintro (empty | just | ⟨-, -, zero, tail⟩)
          · omega
          · omega
          · exact ⟨zero, tail⟩
  · rw [if_neg room]
    rcases Nat.eq_zero_or_pos out.length with empty | nonempty
    · obtain rfl := List.eq_nil_of_length_eq_zero empty
      exact iff_of_true rfl (.inl rfl)
    · rw [q.writeCompressed_of_short nonempty (by omega)]
      refine iff_of_false (fun same => nomatch same) ?_
      omega

/-- **The two ways to a compressed key agree on buffers of just the length, and hardly anywhere
else.** Through the raw bytes, tag and coordinate are written over the first `n + 1` bytes of a
buffer, the others stay, and a buffer without them is a fault. The writer of points cuts the
coordinate off on a shorter buffer, and moves it on a longer one, up to the length of its words.
The results are the same exactly on an empty buffer, on one of `n + 1` bytes, and on a longer one
that holds zeros where zeros are written. -/
theorem writeCompressed_agrees_iff (q : Affine c) (buffer out : Bytes)
    (length : buffer.length = 2 * c.coordinateBytes) :
    let n := c.coordinateBytes
    let tag := (PointForm.compressed q.y.isOdd).tag
    let converted := q.writeRaw buffer >>= fun raw => c.rawToCompressed raw out
    (n < out.length → converted = .ok (tag :: (q.x.toBytes ++ out.drop (n + 1)))) ∧
    (out.length ≤ n → converted = .error .outOfRange) ∧
    (0 < out.length → out.length ≤ n + 1 →
      q.writeCompressed out = .ok (tag :: q.x.toBytes.drop (n + 1 - out.length))) ∧
    (n < out.length → out.length ≤ 8 * L + 1 →
      q.writeCompressed out =
        .ok (tag :: (List.replicate (out.length - (n + 1)) 0 ++ q.x.toBytes))) ∧
    (8 * L + 1 < out.length → q.writeCompressed out = .error .outputTooLong) ∧
    (q.writeCompressed out = converted ↔
      out.length = 0 ∨ out.length = n + 1 ∨
        (n + 1 < out.length ∧ out.length ≤ 8 * L + 1 ∧ q.x.value.toNat = 0 ∧
          ∀ byte ∈ out.drop (n + 1), byte = 0)) := by
  intro n tag converted
  have overwritten : converted = q.overwriteCompressed out := q.rawToCompressed_writeRaw length out
  refine ⟨fun room => ?_, fun short => ?_, q.writeCompressed_of_short, q.writeCompressed_of_long,
    q.writeCompressed_eq_error, ?_⟩
  · rw [overwritten, overwriteCompressed, if_pos room]
  · rw [overwritten, overwriteCompressed, if_neg (Nat.not_lt.mpr short)]
  · rw [overwritten]
    exact q.writeCompressed_eq_overwrite_iff out

/-- Modulo 257, where `n` is 2: the generator on three bytes, and the point over 0 on a buffer whose
last byte is 0. -/
theorem writeCompressed_agrees_iff_mod257 :
    let generator : Affine Small.mod257.toCurve := Small.mod257.generator
    let overZero : Affine Small.mod257.toCurve := .finite 0 (.ofNat 192)
    generator.writeCompressed [9, 9, 9] =
        (generator.writeRaw [9, 9, 9, 9] >>= fun raw =>
          Small.mod257.rawToCompressed raw [9, 9, 9]) ∧
      generator.writeCompressed [9, 9, 9] = .ok [2, 0, 16] ∧
      overZero.writeCompressed [9, 9, 9, 0] =
        (overZero.writeRaw [9, 9, 9, 9] >>= fun raw =>
          Small.mod257.rawToCompressed raw [9, 9, 9, 0]) := by
  intro generator overZero
  have length : ([9, 9, 9, 9] : Bytes).length = 2 * Small.mod257.coordinateBytes := by
    decide +kernel
  obtain ⟨-, -, -, -, -, just⟩ := writeCompressed_agrees_iff generator _ [9, 9, 9] length
  obtain ⟨-, -, -, -, -, zeros⟩ := writeCompressed_agrees_iff overZero _ [9, 9, 9, 0] length
  refine ⟨just.mpr (.inr (.inl ?_)), by decide +kernel, zeros.mpr (.inr (.inr ?_))⟩
  · decide +kernel
  · decide +kernel

/-- Modulo 257, the generator `(16, 68)` on two bytes loses a byte, and on four bytes it is moved
and the last byte is lost; the conversion refuses the first buffer and keeps the last byte of the
second. -/
theorem not_writeCompressed_agrees_mod257 :
    let q : Affine Small.mod257.toCurve := Small.mod257.generator
    q.IsPoint ∧
      q.writeCompressed [9, 9] = .ok [2, 16] ∧
      (q.writeRaw [9, 9, 9, 9] >>= fun raw => Small.mod257.rawToCompressed raw [9, 9]) =
        .error .outOfRange ∧
      q.writeCompressed [9, 9, 9, 9] = .ok [2, 0, 0, 16] ∧
      (q.writeRaw [9, 9, 9, 9] >>= fun raw => Small.mod257.rawToCompressed raw [9, 9, 9, 9]) =
        .ok [2, 0, 16, 9] ∧
      ¬ ∀ p : Affine Small.mod257.toCurve, p.IsPoint → ∀ buffer out : Bytes,
        buffer.length = 2 * Small.mod257.coordinateBytes →
          p.writeCompressed out =
            p.writeRaw buffer >>= fun raw => Small.mod257.rawToCompressed raw out := by
  intro q
  have isPoint : q.IsPoint := ⟨rfl, by decide +kernel, by decide +kernel, by decide +kernel⟩
  have short : q.writeCompressed [9, 9] = .ok [2, 16] := by decide +kernel
  have refused : (q.writeRaw [9, 9, 9, 9] >>= fun raw =>
      Small.mod257.rawToCompressed raw [9, 9]) = .error .outOfRange := by decide +kernel
  refine ⟨isPoint, short, refused, by decide +kernel, by decide +kernel, ?_⟩
  intro agree
  have same := agree q isPoint [9, 9, 9, 9] [9, 9] (by decide +kernel)
  rw [short, refused] at same
  cases same

end Affine
end ShortWeierstrass
