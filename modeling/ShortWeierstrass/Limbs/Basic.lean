/-
# Numbers of a fixed number of words

A number is a list of words, least significant first; `Words.toNat` is the
natural number it stands for. `Limbs L` are the lists of exactly `L` words,
which stand for the numbers below `2^(64 L)`, each in one way (`Limbs.toNat_inj`,
`Limbs.toNat_ofNat`).

Addition and subtraction run once along both lists and hand out the carry or
borrow that is left over (`Words.add_toNat`, `Words.sub_toNat`). On them rest the
comparison (`Limbs.lt_iff`) and the single conditional subtraction that brings
a value below twice a modulus into range (`Words.reduceOnce_toNat`).

Key definitions: `Words.toNat`, `Words.add`, `Words.sub`, `Words.reduceOnce`, `Limbs`,
`Limbs.addMod`, `Limbs.subMod`.
Key theorems: `Words.add_toNat`, `Words.sub_toNat`, `Words.reduceOnce_toNat`,
`Limbs.toNat_inj`, `Limbs.addMod_toNat`, `Limbs.subMod_toNat`.
-/
import ShortWeierstrass.Word

namespace ShortWeierstrass

attribute [local instance (high)] instPowNat

/-- The words of a result and the carry or borrow beyond the last of them. -/
structure Carried where
  words : List Word
  carry : Word

namespace Words

/-- The number that a list of words stands for, least significant word first. -/
def toNat : List Word → Nat
  | [] => 0
  | w :: ws => w.toNat + 2 ^ (64 : Nat) * toNat ws

/-- The lowest `length` words of a number. -/
def ofNat : (length : Nat) → Nat → List Word
  | 0, _ => []
  | length + 1, n => UInt64.ofNat n :: ofNat length (n / 2 ^ (64 : Nat))

@[simp] theorem toNat_nil : toNat [] = 0 := rfl

@[simp] theorem toNat_cons (w : Word) (ws : List Word) :
    toNat (w :: ws) = w.toNat + 2 ^ (64 : Nat) * toNat ws := rfl

theorem base_pow_succ (n : Nat) : 2 ^ (64 * (n + 1)) = 2 ^ (64 : Nat) * 2 ^ (64 * n) := by
  rw [← Nat.pow_add]
  congr 1
  omega

theorem toNat_lt : ∀ ws : List Word, toNat ws < 2 ^ (64 * ws.length)
  | [] => by simp
  | w :: ws => by
    have hw := Word.toNat_lt_base w
    have ih := toNat_lt ws
    rw [List.length_cons, base_pow_succ, toNat_cons]
    have : 2 ^ 64 * (toNat ws + 1) ≤ 2 ^ 64 * 2 ^ (64 * ws.length) := Nat.mul_le_mul_left _ ih
    omega

theorem toNat_append : ∀ as bs : List Word,
    toNat (as ++ bs) = toNat as + 2 ^ (64 * as.length) * toNat bs
  | [], bs => by simp
  | a :: as, bs => by
    rw [List.cons_append, toNat_cons, toNat_append as bs, toNat_cons, List.length_cons,
      base_pow_succ, Nat.mul_add, Nat.mul_assoc]
    omega

@[simp] theorem toNat_replicate_zero : ∀ n : Nat, toNat (List.replicate n 0) = 0
  | 0 => rfl
  | n + 1 => by simp [List.replicate_succ, toNat_replicate_zero n]

@[simp] theorem length_ofNat : ∀ length n : Nat, (ofNat length n).length = length
  | 0, _ => rfl
  | length + 1, n => by simp [ofNat, length_ofNat length]

theorem toNat_ofNat : ∀ length n : Nat, toNat (ofNat length n) = n % 2 ^ (64 * length)
  | 0, n => by simp [ofNat, Nat.mod_one]
  | length + 1, n => by
    rw [ofNat, toNat_cons, toNat_ofNat length, base_pow_succ, Nat.mod_mul]
    simp

theorem toNat_inj : ∀ {as bs : List Word}, as.length = bs.length →
    toNat as = toNat bs → as = bs
  | [], [], _, _ => rfl
  | a :: as, b :: bs, h, e => by
    have ha := Word.toNat_lt_base a
    have hb := Word.toNat_lt_base b
    simp only [toNat_cons] at e
    have head : a = b := UInt64.toNat_inj.mp (by omega)
    have tail : as = bs := toNat_inj (by simpa using h) (by omega)
    rw [head, tail]

/-! ### Addition and subtraction -/

/-- Adds two numbers of one length and a carry. -/
def add : List Word → List Word → Word → Carried
  | a :: as, b :: bs, c =>
    let column := Word.addCarry a b c
    let rest := add as bs column.carry
    ⟨column.word :: rest.words, rest.carry⟩
  | _, _, c => ⟨[], c⟩

/-- Subtracts a number and a borrow from a number of the same length. The
`carry` of the result is the borrow that is left over. -/
def sub : List Word → List Word → Word → Carried
  | a :: as, b :: bs, c =>
    let column := Word.subBorrow a b c
    let rest := sub as bs column.carry
    ⟨column.word :: rest.words, rest.carry⟩
  | _, _, c => ⟨[], c⟩

theorem length_add : ∀ (as bs : List Word) (c : Word), as.length = bs.length →
    (add as bs c).words.length = as.length
  | [], [], _, _ => rfl
  | a :: as, b :: bs, c, h => by simp [add, length_add as bs _ (by simpa using h)]

theorem length_sub : ∀ (as bs : List Word) (c : Word), as.length = bs.length →
    (sub as bs c).words.length = as.length
  | [], [], _, _ => rfl
  | a :: as, b :: bs, c, h => by simp [sub, length_sub as bs _ (by simpa using h)]

/-- Words and carry together stand for the sum. -/
theorem add_toNat : ∀ (as bs : List Word) (c : Word), as.length = bs.length →
    toNat (add as bs c).words + 2 ^ (64 * as.length) * (add as bs c).carry.toNat
      = toNat as + toNat bs + c.toNat
  | [], [], c, _ => by simp [add]
  | a :: as, b :: bs, c, h => by
    have column := Word.addCarry_toNat a b c
    have ih := add_toNat as bs (Word.addCarry a b c).carry (by simpa using h)
    simp only [add, toNat_cons, List.length_cons, base_pow_succ, Nat.mul_assoc]
    omega

/-- The difference, with what was taken away added back, is the number it was
taken from and the borrow that is left over. -/
theorem sub_toNat : ∀ (as bs : List Word) (c : Word), as.length = bs.length →
    toNat (sub as bs c).words + toNat bs + c.toNat
      = toNat as + 2 ^ (64 * as.length) * (sub as bs c).carry.toNat
  | [], [], c, _ => by simp [sub]
  | a :: as, b :: bs, c, h => by
    have column := Word.subBorrow_toNat a b c
    have ih := sub_toNat as bs (Word.subBorrow a b c).carry (by simpa using h)
    simp only [sub, toNat_cons, List.length_cons, base_pow_succ, Nat.mul_assoc]
    omega

theorem sub_carry_le_one : ∀ (as bs : List Word) (c : Word), c.toNat ≤ 1 →
    (sub as bs c).carry.toNat ≤ 1
  | a :: as, b :: bs, c, h => sub_carry_le_one as bs _ (Word.subBorrow_carry_le_one a b c h)
  | [], _, _, h => h
  | _ :: _, [], _, h => h

theorem sub_carry_eq (as bs : List Word) (h : as.length = bs.length) :
    (sub as bs 0).carry.toNat = if toNat as < toNat bs then 1 else 0 := by
  have value := sub_toNat as bs 0 h
  have le := sub_carry_le_one as bs 0 (by decide)
  have lt := toNat_lt (sub as bs 0).words
  have ltb := toNat_lt bs
  rw [length_sub as bs 0 h] at lt
  rw [← h] at ltb
  simp only [UInt64.toNat_zero, Nat.add_zero] at value
  generalize (sub as bs 0).carry.toNat = borrow at *
  rcases Nat.lt_or_ge borrow 1 with hb | hb
  · obtain rfl : borrow = 0 := by omega
    rw [if_neg (by omega)]
  · obtain rfl : borrow = 1 := by omega
    rw [if_pos (by omega)]

/-- Takes the modulus away once from a value with a carry, unless the value is
smaller than the modulus. -/
def reduceOnce (x : Carried) (modulus : List Word) : List Word :=
  let difference := sub x.words modulus 0
  if x.carry = 0 ∧ difference.carry ≠ 0 then x.words else difference.words

theorem length_reduceOnce (x : Carried) (modulus : List Word)
    (h : x.words.length = modulus.length) :
    (reduceOnce x modulus).length = modulus.length := by
  unfold reduceOnce
  dsimp only
  split
  · exact h
  · rw [length_sub _ _ _ h, h]

/-- One subtraction reduces every value below twice the modulus. -/
theorem reduceOnce_toNat (x : Carried) (modulus : List Word)
    (h : x.words.length = modulus.length)
    (lt : toNat x.words + 2 ^ (64 * modulus.length) * x.carry.toNat < 2 * toNat modulus) :
    toNat (reduceOnce x modulus)
      = (toNat x.words + 2 ^ (64 * modulus.length) * x.carry.toNat) % toNat modulus := by
  have value := sub_toNat x.words modulus 0 h
  have carry := sub_carry_eq x.words modulus h
  have small := toNat_lt x.words
  have bound := toNat_lt modulus
  have dsmall := toNat_lt (sub x.words modulus 0).words
  rw [length_sub _ _ _ h, h] at dsmall
  rw [h] at value small
  simp only [UInt64.toNat_zero, Nat.add_zero] at value
  have zero : x.carry = 0 ↔ x.carry.toNat = 0 := by
    rw [← UInt64.toNat_inj, UInt64.toNat_zero]
  have zero' : (sub x.words modulus 0).carry ≠ 0 ↔ toNat x.words < toNat modulus := by
    rw [ne_eq, ← UInt64.toNat_inj, UInt64.toNat_zero, carry]
    split <;> simp_all
  unfold reduceOnce
  simp only [zero, zero']
  rw [carry] at value
  split
  · rename_i c
    rw [c.1, Nat.mul_zero, Nat.add_zero, Nat.mod_eq_of_lt c.2]
  · rename_i c
    rcases Nat.eq_zero_or_pos x.carry.toNat with e | e
    · have ge : toNat modulus ≤ toNat x.words := by
        rcases Nat.lt_or_ge (toNat x.words) (toNat modulus) with k | k
        · exact absurd ⟨e, k⟩ c
        · exact k
      rw [if_neg (by omega)] at value
      rw [e, Nat.mul_zero, Nat.add_zero] at lt ⊢
      rw [Nat.mod_eq_sub_mod ge, Nat.mod_eq_of_lt (by omega)]
      omega
    · have one : x.carry.toNat = 1 := by
        rcases Nat.lt_or_ge x.carry.toNat 2 with k | k
        · omega
        · have : 2 ^ (64 * modulus.length) * 2 ≤ 2 ^ (64 * modulus.length) * x.carry.toNat :=
            Nat.mul_le_mul_left _ k
          omega
      rw [one, Nat.mul_one] at lt ⊢
      rw [Nat.mod_eq_sub_mod (by omega), Nat.mod_eq_of_lt (by omega)]
      split at value <;> omega

end Words

/-- A number of exactly `L` words. -/
structure Limbs (L : Nat) where
  words : List Word
  length_words : words.length = L
  deriving DecidableEq

namespace Limbs

variable {L : Nat}

/-- The natural number that the words stand for. -/
def toNat (u : Limbs L) : Nat := Words.toNat u.words

/-- The number modulo `2^(64 L)`. -/
def ofNat (L n : Nat) : Limbs L := ⟨Words.ofNat L n, Words.length_ofNat L n⟩

/-- The number 0. -/
def zero : Limbs L := ofNat L 0

/-- The number 1, which needs a word to be in. -/
def one : Limbs L := ofNat L 1

/-- The lowest word, 0 for a number of no words. -/
def low (u : Limbs L) : Word := u.words.headD 0

/-- Parity is that of the lowest word. -/
def isOdd (u : Limbs L) : Bool := u.low &&& 1 = 1

theorem toNat_lt (u : Limbs L) : u.toNat < 2 ^ (64 * L) := by
  have h := Words.toNat_lt u.words
  rwa [u.length_words] at h

theorem toNat_ofNat (n : Nat) : (ofNat L n).toNat = n % 2 ^ (64 * L) := Words.toNat_ofNat L n

theorem toNat_ofNat_of_lt {n : Nat} (h : n < 2 ^ (64 * L)) : (ofNat L n).toNat = n := by
  rw [toNat_ofNat, Nat.mod_eq_of_lt h]

/-- Each number has one list of words. -/
theorem toNat_inj {u v : Limbs L} : u.toNat = v.toNat ↔ u = v := by
  constructor
  · intro h
    have : u.words = v.words := Words.toNat_inj (by rw [u.length_words, v.length_words]) h
    cases u
    cases v
    simp_all
  · rintro rfl
    rfl

@[simp] theorem toNat_zero : (zero : Limbs L).toNat = 0 := by simp [zero, toNat_ofNat]

theorem ofNat_toNat (u : Limbs L) : ofNat L u.toNat = u := by
  rw [← toNat_inj, toNat_ofNat_of_lt u.toNat_lt]

/-- Is the first number the smaller one? Told by the borrow that subtraction leaves. -/
def lt (u v : Limbs L) : Bool := (Words.sub u.words v.words 0).carry ≠ 0

theorem lt_iff (u v : Limbs L) : u.lt v = true ↔ u.toNat < v.toNat := by
  have h := Words.sub_carry_eq u.words v.words (by rw [u.length_words, v.length_words])
  rw [lt, decide_eq_true_iff, ne_eq, ← UInt64.toNat_inj, h]
  simp only [toNat, UInt64.toNat_zero]
  split <;> simp_all

/-- The difference modulo `2^(64 L)`. -/
def wrappingSub (u v : Limbs L) : Limbs L :=
  ⟨(Words.sub u.words v.words 0).words, by
    rw [Words.length_sub _ _ _ (by rw [u.length_words, v.length_words]), u.length_words]⟩

/-- The sum modulo `2^(64 L)`. -/
def wrappingAdd (u v : Limbs L) : Limbs L :=
  ⟨(Words.add u.words v.words 0).words, by
    rw [Words.length_add _ _ _ (by rw [u.length_words, v.length_words]), u.length_words]⟩

theorem wrappingSub_toNat (u v : Limbs L) (h : v.toNat ≤ u.toNat) :
    (u.wrappingSub v).toNat = u.toNat - v.toNat := by
  have same : u.words.length = v.words.length := by rw [u.length_words, v.length_words]
  have value := Words.sub_toNat u.words v.words 0 same
  have carry := Words.sub_carry_eq u.words v.words same
  simp only [toNat] at h
  rw [if_neg (by omega)] at carry
  rw [carry] at value
  simp only [UInt64.toNat_zero, Nat.add_zero, Nat.mul_zero] at value
  simp only [toNat, wrappingSub]
  omega

theorem wrappingAdd_toNat (u v : Limbs L) :
    (u.wrappingAdd v).toNat = (u.toNat + v.toNat) % 2 ^ (64 * L) := by
  have same : u.words.length = v.words.length := by rw [u.length_words, v.length_words]
  have value := Words.add_toNat u.words v.words 0 same
  have lt := toNat_lt (u.wrappingAdd v)
  simp only [UInt64.toNat_zero, Nat.add_zero, u.length_words] at value
  simp only [toNat, wrappingAdd] at lt ⊢
  rw [← value, Nat.add_mul_mod_self_left, Nat.mod_eq_of_lt lt]

/-- The sum of two numbers below a modulus, reduced. -/
def addMod (u v modulus : Limbs L) : Limbs L :=
  ⟨Words.reduceOnce (Words.add u.words v.words 0) modulus.words, by
    rw [Words.length_reduceOnce, modulus.length_words]
    rw [Words.length_add _ _ _ (by rw [u.length_words, v.length_words]), u.length_words,
      modulus.length_words]⟩

/-- The difference of two numbers below a modulus, reduced: the modulus is
added back if the subtraction leaves a borrow. -/
def subMod (u v modulus : Limbs L) : Limbs L :=
  if u.lt v then (u.wrappingSub v).wrappingAdd modulus else u.wrappingSub v

theorem addMod_toNat (u v modulus : Limbs L) (hu : u.toNat < modulus.toNat)
    (hv : v.toNat < modulus.toNat) :
    (u.addMod v modulus).toNat = (u.toNat + v.toNat) % modulus.toNat := by
  have same : u.words.length = v.words.length := by rw [u.length_words, v.length_words]
  have value := Words.add_toNat u.words v.words 0 same
  simp only [UInt64.toNat_zero, Nat.add_zero, u.length_words] at value
  simp only [toNat] at hu hv ⊢
  rw [addMod, Words.reduceOnce_toNat]
  · rw [modulus.length_words, value]
  · rw [Words.length_add _ _ _ same, u.length_words, modulus.length_words]
  · rw [modulus.length_words, value]
    omega

theorem subMod_toNat (u v modulus : Limbs L) (hu : u.toNat < modulus.toNat)
    (hv : v.toNat < modulus.toNat) :
    (u.subMod v modulus).toNat = (u.toNat + (modulus.toNat - v.toNat)) % modulus.toNat := by
  have hm := modulus.toNat_lt
  unfold subMod
  split
  · rename_i h
    rw [lt_iff] at h
    have same : u.words.length = v.words.length := by rw [u.length_words, v.length_words]
    have value := Words.sub_toNat u.words v.words 0 same
    have carry := Words.sub_carry_eq u.words v.words same
    simp only [toNat] at h
    rw [if_pos h] at carry
    rw [carry] at value
    simp only [UInt64.toNat_zero, Nat.add_zero, Nat.mul_one, u.length_words] at value
    rw [wrappingAdd_toNat]
    simp only [toNat, wrappingSub] at hu hv hm ⊢
    rw [Nat.mod_eq_sub_mod (by omega), Nat.mod_eq_of_lt (by omega), Nat.mod_eq_of_lt (by omega)]
    omega
  · rename_i h
    rw [lt_iff, Nat.not_lt] at h
    rw [wrappingSub_toNat u v h, Nat.mod_eq_sub_mod (by omega), Nat.mod_eq_of_lt (by omega)]
    omega

end Limbs
end ShortWeierstrass
