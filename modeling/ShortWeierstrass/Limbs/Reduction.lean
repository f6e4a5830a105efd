/-
# Montgomery reduction

For an odd modulus `m` and `R = 2^(64 L)`, the reduction takes a number of `2 L`
words below `m * R` to the residue of its quotient by `R`. It works on `L + 1`
words, `L` of them in a list and a running top word: each row adds the multiple
of `m` that makes the lowest word vanish, drops that word, and takes in one word
of the upper half. The top word stays 0 or 1, and what is left at the end is
below `2 m`, so one conditional subtraction is enough.

Key definitions: `Words.reduceRow`, `Words.reduceRows`, `Limbs.reduce`.
Key theorems: `Words.reduceRow_toNat`, `Words.length_reduceRows`.
-/
import ShortWeierstrass.Limbs.Product

namespace ShortWeierstrass

attribute [local instance (high)] instPowNat

namespace Words

/-- Adds `u * ms` to `rs`, and the word `h` and the running top word to the
carry beyond them. -/
def reduceRow (u h top : Word) : List Word → List Word → Word → Carried
  | r :: rs, m :: ms, c =>
    let column := Word.mulAdd u m r c
    let rest := reduceRow u h top rs ms column.carry
    ⟨column.word :: rest.words, rest.carry⟩
  | _, _, c =>
    let column := Word.addCarry h top c
    ⟨[column.word], column.carry⟩

theorem length_reduceRow (u h top : Word) : ∀ (rs ms : List Word) (c : Word),
    rs.length = ms.length → (reduceRow u h top rs ms c).words.length = ms.length + 1
  | [], [], _, _ => rfl
  | r :: rs, m :: ms, c, e => by
    simp [reduceRow, length_reduceRow u h top rs ms _ (by simpa using e)]

/-- A row with its carry stands for all that it adds up. -/
theorem reduceRow_toNat (u h top : Word) : ∀ (rs ms : List Word) (c : Word),
    rs.length = ms.length →
    toNat (reduceRow u h top rs ms c).words
        + 2 ^ (64 * (ms.length + 1)) * (reduceRow u h top rs ms c).carry.toNat
      = toNat rs + u.toNat * toNat ms + c.toNat + 2 ^ (64 * ms.length) * (h.toNat + top.toNat)
  | [], [], c, _ => by
    have column := Word.addCarry_toNat h top c
    simp only [reduceRow, toNat_cons, toNat_nil, List.length_nil]
    omega
  | r :: rs, m :: ms, c, e => by
    have column := Word.mulAdd_toNat u m r c
    have ih := reduceRow_toNat u h top rs ms (Word.mulAdd u m r c).carry (by simpa using e)
    generalize h.toNat + top.toNat = incoming at *
    rw [base_pow_succ] at ih
    simp only [reduceRow, toNat_cons, List.length_cons]
    rw [base_pow_succ (ms.length + 1), base_pow_succ, Nat.mul_add,
      Nat.mul_left_comm u.toNat (2 ^ 64)]
    simp only [Nat.mul_assoc] at ih ⊢
    omega

/-- Runs one row for each word of the upper half: `negInv`, times the lowest
word, is the multiple of the modulus that makes that word vanish. -/
def reduceRows (negInv : Word) (ms : List Word) : List Word → Word → List Word → Carried
  | rs, top, [] => ⟨rs, top⟩
  | rs, top, h :: hs =>
    let row := reduceRow (rs.headD 0 * negInv) h top rs ms 0
    reduceRows negInv ms row.words.tail row.carry hs

theorem length_reduceRows (negInv : Word) (ms : List Word) :
    ∀ (rs : List Word) (top : Word) (hs : List Word), rs.length = ms.length →
    (reduceRows negInv ms rs top hs).words.length = ms.length
  | _, _, [], e => e
  | rs, top, h :: hs, e => by
    have row := length_reduceRow (rs.headD 0 * negInv) h top rs ms 0 e
    exact length_reduceRows negInv ms _ _ hs (by rw [List.length_tail, row]; omega)

end Words

namespace Limbs

variable {L : Nat}

/-- The residue below `modulus` that, times `2^(64 L)`, is congruent to `x`, for
`x` below `modulus * 2^(64 L)` and `negInv * modulus = -1` modulo `2^64`. -/
def reduce (modulus : Limbs L) (negInv : Word) (x : Wide L) : Limbs L :=
  ⟨Words.reduceOnce
      (Words.reduceRows negInv modulus.words x.low.words 0 x.high.words) modulus.words, by
    rw [Words.length_reduceOnce, modulus.length_words]
    exact Words.length_reduceRows _ _ _ _ _ (by rw [x.low.length_words, modulus.length_words])⟩

end Limbs
end ShortWeierstrass
