/-
# Primality by a part of `n - 1`

If the order of `a` modulo every prime factor of `n` is a multiple of `F`, then every such factor is
above `F`, so a number below `F²` has only one. The criterion (`prime_of_part`) asks for that in
terms of powers of `a` modulo `n` itself: `a` to the `n - 1` is 1, and for no prime `q` that divides
`F` does `a` to the `(n - 1) / q` come to 1 modulo a factor of `n`. It needs the prime factors of
`F` only, a part of `n - 1`; the rest need not be factored.

A certificate is a list of numbers, each with a base and the primes of such a part, which are small
or stand earlier in the list (`Entry`). Testing it takes powers by squaring and multiplying and a
gcd for each prime (`Entry.check`), on numbers that the kernel computes with. Going through the
binary digits of a number is one loop, for powers and for whatever else is doubled and stepped
(`ladder`).

Key definitions: `ladder`, `powMod`, `Entry`, `Entry.check`, `checkAll`.
Key theorems: `prime_of_part`, `ladder_induction`, `prime_of_checkAll`.
-/
import Mathlib

namespace ShortWeierstrass
namespace Primality

/-! ### The criterion -/

/-- A divisor that is lost when a prime is divided out has all of that prime. -/
theorem pow_dvd_of_not_dvd_div {q k d n : ℕ} (prime : q.Prime) (divides : d ∣ n)
    (lost : ¬ d ∣ n / q) (power : q ^ k ∣ n) : q ^ k ∣ d := by
  obtain ⟨rest, rfl⟩ := divides
  have coprime : Nat.Coprime (q ^ k) rest := by
    refine Nat.Coprime.pow_left k ((Nat.Prime.coprime_iff_not_dvd prime).mpr ?_)
    rintro ⟨rest, rfl⟩
    refine lost ⟨rest, ?_⟩
    rw [Nat.mul_left_comm, Nat.mul_div_cancel_left _ prime.pos]
  exact coprime.dvd_of_dvd_mul_right power

/-- If `a` to the `n - 1` is 1 and no quotient of `n - 1` by a prime of its part `F` has that
property modulo a factor of `n`, then `n` is a prime, provided that it is below `F²`. -/
theorem prime_of_part {n F : ℕ} (a : ZMod n) (gt : 1 < n) (divides : F ∣ n - 1)
    (large : n < F * F) (full : a ^ (n - 1) = 1)
    (proper : ∀ q : ℕ, q.Prime → q ∣ F → IsUnit (a ^ ((n - 1) / q) - 1)) : n.Prime := by
  by_contra composite
  have factor : n.minFac.Prime := Nat.minFac_prime gt.ne'
  have := Fact.mk factor
  let b : ZMod n.minFac := ZMod.castHom n.minFac_dvd _ a
  have b_pow : b ^ (n - 1) = 1 := by rw [← map_pow, full, map_one]
  have order_dvd : F ∣ orderOf b := by
    refine (Nat.dvd_iff_prime_pow_dvd_dvd _ _).mpr fun q k prime power => ?_
    rcases Nat.eq_zero_or_pos k with rfl | pos
    · exact one_dvd _
    refine pow_dvd_of_not_dvd_div prime (orderOf_dvd_of_pow_eq_one b_pow) ?_ (power.trans divides)
    intro early
    have unit := (proper q prime ((dvd_pow_self q pos.ne').trans power)).map
      (ZMod.castHom n.minFac_dvd (ZMod n.minFac))
    rw [map_sub, map_pow, map_one] at unit
    exact unit.ne_zero (sub_eq_zero.mpr (orderOf_dvd_iff_pow_eq_one.mp early))
  have b_ne : b ≠ 0 := by
    intro zero
    rw [zero, zero_pow (by omega)] at b_pow
    exact zero_ne_one b_pow
  have le : F ≤ n.minFac - 1 := Nat.le_of_dvd (Nat.sub_pos_of_lt factor.one_lt)
    (order_dvd.trans (ZMod.orderOf_dvd_card_sub_one b_ne))
  have square : n.minFac ^ 2 ≤ n := Nat.minFac_sq_le_self (by omega) composite
  have : F * F ≤ n := calc
    F * F ≤ n.minFac * n.minFac := Nat.mul_le_mul (by omega) (by omega)
    _ = n.minFac ^ 2 := (sq _).symm
    _ ≤ n := square
  omega

/-! ### Powers by squaring -/

/-- What doubling and stepping make of a start, along the lowest `bits` digits of a number. -/
def ladder {α : Type} (double next : α → α) (start : α) : (bits n : ℕ) → α
  | 0, _ => start
  | bits + 1, n =>
    let half := ladder double next start bits (n / 2)
    if n % 2 = 1 then next (double half) else double half

/-- What holds of the start for 0 and is kept by doubling and by stepping holds of the result. -/
theorem ladder_induction {α : Type} {double next : α → α} {start : α} {denotes : ℕ → α → Prop}
    (zero : denotes 0 start) (twice : ∀ k x, denotes k x → denotes (2 * k) (double x))
    (succ : ∀ k x, denotes k x → denotes (k + 1) (next x)) :
    ∀ bits n : ℕ, n < 2 ^ bits → denotes n (ladder double next start bits n)
  | 0, n, h => by
    obtain rfl : n = 0 := by simpa using h
    exact zero
  | bits + 1, n, h => by
    have half := ladder_induction zero twice succ bits (n / 2) (by rw [pow_succ] at h; omega)
    have doubled := twice _ _ half
    rw [ladder]
    split
    case isTrue odd =>
      have stepped := succ _ _ doubled
      rwa [show 2 * (n / 2) + 1 = n by omega] at stepped
    case isFalse even =>
      rwa [show 2 * (n / 2) = n by omega] at doubled

/-- The power of `b` modulo `m` to an exponent of at most `bits` bits. -/
def powMod (m b : ℕ) : (bits exponent : ℕ) → ℕ :=
  ladder (fun r => r * r % m) (fun r => r * b % m) (1 % m)

theorem natCast_powMod {m b bits exponent : ℕ} (h : exponent < 2 ^ bits) :
    (powMod m b bits exponent : ZMod m) = (b : ZMod m) ^ exponent := by
  refine @ladder_induction ℕ _ _ _ (fun k r => (r : ZMod m) = (b : ZMod m) ^ k) ?_ ?_ ?_ _ _ h
  · rw [ZMod.natCast_mod, Nat.cast_one, pow_zero]
  · intro k r hr
    rw [ZMod.natCast_mod, Nat.cast_mul, hr, ← pow_add, two_mul]
  · intro k r hr
    rw [ZMod.natCast_mod, Nat.cast_mul, hr, pow_succ]

/-! ### Certificates -/

/-- A number, a base for its powers, and the primes of a part of its predecessor, each as often as
it is in that part. -/
structure Entry where
  number : ℕ
  base : ℕ
  primes : List ℕ

namespace Entry

/-- Does the criterion hold with primes from a list? -/
def check (known : List ℕ) (entry : Entry) : Bool :=
  let n := entry.number
  let part := entry.primes.prod
  let power := powMod n entry.base (n.log2 + 1)
  decide (1 < n) && decide (part ∣ n - 1) && decide (n < part * part) &&
    decide (power (n - 1) = 1) &&
    entry.primes.all fun q =>
      known.contains q && decide (Nat.Coprime (power ((n - 1) / q) + (n - 1)) n)

theorem prime_of_check {known : List ℕ} {entry : Entry} (prime : ∀ q ∈ known, q.Prime)
    (h : entry.check known = true) : entry.number.Prime := by
  simp only [check, Bool.and_eq_true, decide_eq_true_eq, List.all_eq_true,
    List.contains_iff_mem] at h
  obtain ⟨⟨⟨⟨gt, divides⟩, large⟩, full⟩, proper⟩ := h
  generalize entry.number = n at *
  have fits {k : ℕ} (le : k ≤ n - 1) : k < 2 ^ (n.log2 + 1) :=
    lt_of_le_of_lt (le.trans (Nat.sub_le n 1)) Nat.lt_log2_self
  refine prime_of_part (entry.base : ZMod n) gt divides large ?_ fun q q_prime q_dvd => ?_
  · rw [← natCast_powMod (fits le_rfl), full, Nat.cast_one]
  · -- A prime of the product is one of the factors.
    obtain ⟨r, mem, q_dvd⟩ := (Prime.dvd_prod_iff q_prime.prime).mp q_dvd
    obtain ⟨r_known, coprime⟩ := proper r mem
    obtain rfl := (Nat.prime_dvd_prime_iff_eq q_prime (prime r r_known)).mp q_dvd
    have unit := (ZMod.isUnit_iff_coprime _ _).mpr coprime
    rwa [Nat.cast_add, Nat.cast_sub gt.le, natCast_powMod (fits (Nat.div_le_self _ _)),
      ZMod.natCast_self, Nat.cast_one, zero_sub, ← sub_eq_add_neg] at unit

end Entry

/-- Are the entries right, each with the primes known before and the numbers of the entries in front
of it? -/
def checkAll : (known : List ℕ) → List Entry → Bool
  | _, [] => true
  | known, entry :: entries => entry.check known && checkAll (entry.number :: known) entries

/-- All numbers of a certificate are primes. -/
theorem prime_of_checkAll : ∀ {known : List ℕ} {entries : List Entry}, (∀ q ∈ known, q.Prime) →
    checkAll known entries = true → ∀ n ∈ entries.map Entry.number, n.Prime
  | known, first :: entries, prime, h, n, mem => by
    obtain ⟨check, rest⟩ := Bool.and_eq_true_iff.mp h
    have first_prime := Entry.prime_of_check prime check
    rcases List.mem_cons.mp mem with rfl | mem
    · exact first_prime
    · exact prime_of_checkAll (List.forall_mem_cons.mpr ⟨first_prime, prime⟩) rest n mem

end Primality
end ShortWeierstrass
