/-
# Products of numbers, row by row

`Words.addMul u r m c` is one row of a multiplication: `r + u * m + c`, in one word
more than `r` has (`Words.addMul_toNat`). `Words.addMulRows` runs a row for each
word of the first factor, writes the lowest word of the row and carries the others
to the next row; a number and a product of the same length fit the words there
are (`Words.addMulRows_toNat`).

Key definitions: `Words.addMul`, `Words.addMulRows`, `Limbs.mulWide`.
Key theorems: `Words.addMul_toNat`, `Words.addMulRows_toNat`, `Limbs.mulWide_toNat`.
-/
import ShortWeierstrass.Limbs.Basic

namespace ShortWeierstrass

attribute [local instance (high)] instPowNat

namespace Words

/-- Adds `u * ms` and a carry to `rs`; the last word of the row is its carry. -/
def addMul (u : Word) : List Word → List Word → Word → List Word
  | r :: rs, m :: ms, c =>
    let column := Word.mulAdd u m r c
    column.word :: addMul u rs ms column.carry
  | _, _, c => [c]

theorem length_addMul (u : Word) : ∀ (rs ms : List Word) (c : Word), rs.length = ms.length →
    (addMul u rs ms c).length = ms.length + 1
  | [], [], _, _ => rfl
  | r :: rs, m :: ms, c, h => by simp [addMul, length_addMul u rs ms _ (by simpa using h)]

theorem addMul_toNat (u : Word) : ∀ (rs ms : List Word) (c : Word), rs.length = ms.length →
    toNat (addMul u rs ms c) = toNat rs + u.toNat * toNat ms + c.toNat
  | [], [], c, _ => by simp [addMul]
  | r :: rs, m :: ms, c, h => by
    have column := Word.mulAdd_toNat u m r c
    have ih := addMul_toNat u rs ms (Word.mulAdd u m r c).carry (by simpa using h)
    simp only [addMul, toNat_cons, ih, Nat.mul_add, Nat.mul_left_comm u.toNat (2 ^ 64)]
    omega

/-- Adds the product of `as` and `bs` to `rs`, one row for each word of `as`. -/
def addMulRows : List Word → List Word → List Word → List Word
  | rs, [], _ => rs
  | rs, a :: as, bs =>
    match addMul a rs bs 0 with
    | [] => []
    | w :: ws => w :: addMulRows ws as bs

theorem length_addMulRows : ∀ (rs as bs : List Word), rs.length = bs.length →
    (addMulRows rs as bs).length = as.length + bs.length
  | rs, [], bs, h => by simpa [addMulRows] using h
  | rs, a :: as, bs, h => by
    have row := length_addMul a rs bs 0 h
    unfold addMulRows
    split
    · simp_all
    · rename_i w ws e
      rw [e] at row
      have ih := length_addMulRows ws as bs (by simpa using row)
      simp only [List.length_cons, ih]
      omega

/-- The rows stand for the product added. -/
theorem addMulRows_toNat : ∀ (rs as bs : List Word), rs.length = bs.length →
    toNat (addMulRows rs as bs) = toNat rs + toNat as * toNat bs
  | rs, [], bs, _ => by simp [addMulRows]
  | rs, a :: as, bs, h => by
    have row := length_addMul a rs bs 0 h
    have value := addMul_toNat a rs bs 0 h
    unfold addMulRows
    split
    · simp_all
    · rename_i w ws e
      rw [e] at row value
      have ih := addMulRows_toNat ws as bs (by simpa using row)
      simp only [toNat_cons, UInt64.toNat_zero, Nat.add_zero] at value ⊢
      rw [ih, Nat.add_mul, Nat.mul_add, Nat.mul_assoc]
      omega

end Words

/-- A number of `2 L` words, as its lower and upper half. -/
structure Wide (L : Nat) where
  low : Limbs L
  high : Limbs L

namespace Wide

/-- The number that both halves stand for. -/
def toNat {L : Nat} (x : Wide L) : Nat := x.low.toNat + 2 ^ (64 * L) * x.high.toNat

end Wide

namespace Limbs

variable {L : Nat}

/-- All words of the product of two numbers. -/
def mulWide (u v : Limbs L) : Wide L :=
  let product := Words.addMulRows (List.replicate L 0) u.words v.words
  have length : product.length = L + L := by
    have h := Words.length_addMulRows (List.replicate L 0) u.words v.words
      (by rw [List.length_replicate, v.length_words])
    rwa [u.length_words, v.length_words] at h
  ⟨⟨product.take L, by rw [List.length_take, length]; omega⟩,
   ⟨product.drop L, by rw [List.length_drop, length]; omega⟩⟩

theorem mulWide_toNat (u v : Limbs L) : (u.mulWide v).toNat = u.toNat * v.toNat := by
  have same : (List.replicate L (0 : Word)).length = v.words.length := by
    rw [List.length_replicate, v.length_words]
  have value := Words.addMulRows_toNat (List.replicate L 0) u.words v.words same
  have length := Words.length_addMulRows (List.replicate L 0) u.words v.words same
  rw [u.length_words, v.length_words] at length
  have split := Words.toNat_append
    ((Words.addMulRows (List.replicate L 0) u.words v.words).take L)
    ((Words.addMulRows (List.replicate L 0) u.words v.words).drop L)
  rw [List.take_append_drop, List.length_take, length, Nat.min_eq_left (by omega)] at split
  rw [Words.toNat_replicate_zero, Nat.zero_add, split] at value
  exact value

end Limbs
end ShortWeierstrass
