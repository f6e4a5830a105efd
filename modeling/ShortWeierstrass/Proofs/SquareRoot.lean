/-
# Square roots modulo a prime

Of a square `a` modulo a prime `m = 4 k + 3`, the power to `(m + 1) / 4` is a root. Modulo any
other prime the candidate `x` starts with `x² = a b` for an error `b` of order at most `2^(s-1)`,
`m - 1 = 2^s t`. As long as the error is not 1, the root of unity `z` has an order `2^v` above that
of the error, and a round (`RootSearch.Classes.round`) multiplies the error by a power of `z` of
the same order `2^k`, which takes the order of the product below `2^k`
(`RootSearch.Searching`). Once the error was 1, later rounds multiply the candidate by roots
of 1 only (`RootSearch.Settled`), although they do move the error away from 1 again.

A candidate is returned if its square is `a`, so a number without a root gets none.

Key definitions: `Modulus.Rooted`, `RootSearch.Settled`, `RootSearch.Searching`.
Key theorems: `OrderSearch.At.step`, `RootSearch.Approaches.round`, `Residue.StandsFor.sqrt?`,
`Modulus.Rooted.of_generator`, `Residue.squareRoots_decided`.
-/
import Mathlib
import ShortWeierstrass.Curves.Small
import ShortWeierstrass.Proofs.Power
import ShortWeierstrass.Residue.Sqrt

namespace ShortWeierstrass

variable {L : ℕ}

namespace Modulus

variable (m : Modulus L)

/-- The root of unity has the order that the search for square roots takes it to have. Modulo
`4 k + 3` it is not used. -/
class Rooted : Prop where
  orderOf_root : m.value.toNat % 4 = 1 →
    orderOf (Residue.rootOfUnity : Residue m).toRing = 2 ^ m.twoAdicity

end Modulus

/-! ### Orders that are powers of two -/

/-- The least number from 1 on by which repeated squaring takes `b` to 1. -/
structure IsSquaringOrder {M : Type} [Monoid M] (b : M) (k : ℕ) : Prop where
  pos : 1 ≤ k
  pow_eq_one : b ^ 2 ^ k = 1
  least : ∀ i, 1 ≤ i → i < k → b ^ 2 ^ i ≠ 1

namespace IsSquaringOrder

theorem exists_of_pow_eq_one {M : Type} [Monoid M] {b : M} {n : ℕ} (pos : 1 ≤ n)
    (one : b ^ 2 ^ n = 1) : ∃ k ≤ n, IsSquaringOrder b k := by
  classical
  have some : ∃ k, 1 ≤ k ∧ b ^ 2 ^ k = 1 := ⟨n, pos, one⟩
  obtain ⟨k_pos, k_one⟩ := Nat.find_spec some
  exact ⟨Nat.find some, Nat.find_min' some ⟨pos, one⟩, k_pos, k_one,
    fun i i_pos lt e => Nat.find_min some lt ⟨i_pos, e⟩⟩

theorem pow_eq_one_iff {M : Type} [Monoid M] {b : M} {k i : ℕ} (h : IsSquaringOrder b k)
    (i_pos : 1 ≤ i) : b ^ 2 ^ i = 1 ↔ k ≤ i := by
  constructor
  · intro one
    by_contra lt
    exact h.least i i_pos (by omega) one
  · intro le
    rw [← Nat.add_sub_cancel' le, pow_add, pow_mul, h.pow_eq_one, one_pow]

/-- Before it comes to 1, repeated squaring comes to -1. -/
theorem pow_pred {F : Type} [Field F] {b : F} {k : ℕ} (h : IsSquaringOrder b k) (ne : b ≠ 1) :
    b ^ 2 ^ (k - 1) = -1 := by
  have pos := h.pos
  have square : (b ^ 2 ^ (k - 1)) ^ 2 = 1 := by
    rw [← pow_mul, ← pow_succ, Nat.sub_add_cancel pos, h.pow_eq_one]
  refine (eq_or_eq_neg_of_sq_eq_sq _ 1 (square.trans (one_pow 2).symm)).resolve_left ?_
  intro one
  by_cases first : k = 1
  · rw [first, Nat.sub_self, pow_zero, pow_one] at one
    exact ne one
  · exact h.least (k - 1) (by omega) (by omega) one

end IsSquaringOrder

namespace Residue

variable {m : Modulus L}

/-! ### The search for the order of the error -/

namespace OrderSearch

variable {search : OrderSearch m} {p b z : m.Ring} {k v j : ℕ}

/-- Once the error has come to 1, the root of unity is squared, for as long as the search stays
below the order of the round before. -/
theorem step_of_eq_one (found : search.power = 1) :
    step v search j =
      { search with
        root := if (search.below && j != v) = true then search.root.square else search.root
        below := search.below && j != v } := by
  simp only [step, found, decide_true, Residue.select, if_true]

/-- Until then the error is squared. -/
theorem step_of_ne_one (ne : search.power ≠ 1) :
    step v search j =
      { search with order := j, power := search.power.square, below := search.below && j != v } := by
  simp only [step, ne, decide_false, Residue.select, Bool.false_eq_true, if_false, ite_self]

/-- Where the search stands before squaring number `j`, for an error of order `2^k` and a root of
unity of order `2^v`. -/
structure At (search : OrderSearch m) (b z : m.Ring) (k v j : ℕ) : Prop where
  order : search.order = min k (j - 1)
  power : search.power.StandsFor (b ^ 2 ^ min k (j - 1))
  root : search.root.StandsFor (z ^ 2 ^ (min j v - (k + 1)))
  below : search.below = decide (j ≤ v)

theorem At.found_iff (h : At search b z k v j) (isOrder : IsSquaringOrder b k) (j_pos : 2 ≤ j) :
    search.power = 1 ↔ k < j := by
  have k_pos := isOrder.pos
  rw [h.power.eq_iff one_standsFor, isOrder.pow_eq_one_iff (by omega)]
  omega

theorem At.step (h : At search b z k v j) (isOrder : IsSquaringOrder b k) (j_pos : 2 ≤ j) :
    At (OrderSearch.step v search j) b z k v (j + 1) := by
  have found := h.found_iff isOrder j_pos
  have below : (search.below && j != v) = decide (j + 1 ≤ v) := by
    rw [h.below, Bool.eq_iff_iff, Bool.and_eq_true, decide_eq_true_iff, decide_eq_true_iff,
      bne_iff_ne]
    omega
  by_cases lt : k < j
  · rw [step_of_eq_one (found.mpr lt)]
    refine ⟨?_, ?_, ?_, below⟩
    · rw [h.order]
      omega
    · rw [show min k (j + 1 - 1) = min k (j - 1) by omega]
      exact h.power
    · simp only [below, decide_eq_true_iff]
      by_cases more : j + 1 ≤ v
      · rw [if_pos more, show min (j + 1) v - (k + 1) = min j v - (k + 1) + 1 by omega, pow_succ,
          pow_mul]
        exact h.root.square
      · rw [if_neg more, show min (j + 1) v - (k + 1) = min j v - (k + 1) by omega]
        exact h.root
  · rw [step_of_ne_one fun e => lt (found.mp e)]
    refine ⟨?_, ?_, ?_, below⟩
    · show j = _
      omega
    · rw [show min k (j + 1 - 1) = min k (j - 1) + 1 by omega, pow_succ, pow_mul]
      exact h.power.square
    · rw [show min (j + 1) v - (k + 1) = min j v - (k + 1) by omega]
      exact h.root

theorem At.run (isOrder : IsSquaringOrder b k) : ∀ (count j : ℕ) {search : OrderSearch m}, 2 ≤ j →
    At search b z k v j →
    At ((List.range' j count).foldl (OrderSearch.step v) search) b z k v (j + count)
  | 0, _, _, _, h => h
  | count + 1, j, _, j_pos, h => by
    have rest := At.run isOrder count (j + 1) (by omega) (h.step isOrder j_pos)
    rwa [Nat.add_right_comm] at rest

/-- Whatever the error and the order are, the root of unity is only squared. -/
theorem root_run : ∀ (js : List ℕ) {search : OrderSearch m} {p : m.Ring} {e : ℕ},
    search.power.StandsFor p → search.root.StandsFor (z ^ 2 ^ e) →
    ∃ e, (js.foldl (step v) search).root.StandsFor (z ^ 2 ^ e)
  | [], _, _, e, _, hr => ⟨e, hr⟩
  | j :: js, search, _, e, hp, hr => by
    rw [List.foldl_cons]
    by_cases found : search.power = 1
    · rw [step_of_eq_one found]
      have squared := hr.square
      rw [← pow_mul, ← pow_succ] at squared
      by_cases below : (search.below && j != v) = true
      · exact root_run js hp (by rwa [if_pos below])
      · exact root_run js hp (by rwa [if_neg below])
    · rw [step_of_ne_one found]
      exact root_run js hp.square hr

end OrderSearch

/-! ### Rounds -/

namespace RootSearch

variable {search : RootSearch m} {a x b z y : m.Ring}

/-- The search for the order of the error inside a round. -/
def orderSearch (bound : ℕ) (search : RootSearch m) : OrderSearch m :=
  (List.range' 2 (bound - 2)).foldl (OrderSearch.step search.order)
    { order := 1, power := search.error.square, root := search.root, below := true }

/-- The classes of the three residues. -/
structure Classes (search : RootSearch m) (x b z : m.Ring) : Prop where
  candidate : search.candidate.StandsFor x
  error : search.error.StandsFor b
  root : search.root.StandsFor z

/-- What a round does, by the power `y` of the root of unity that its search leaves. -/
theorem Classes.round (h : search.Classes x b z) {bound : ℕ}
    (hy : (search.orderSearch bound).root.StandsFor y) :
    (search.round bound).Classes (if b = 1 then x else x * y) (b * y ^ 2) (y ^ 2) := by
  have one := h.error.eq_iff one_standsFor
  refine ⟨?_, h.error.mul hy.square, hy.square⟩
  show ((search.candidate * (search.orderSearch bound).root).select search.candidate
    (decide (search.error = 1))).StandsFor _
  have candidate := (h.candidate.mul hy).select h.candidate (decide (search.error = 1))
  simpa only [decide_eq_true_iff, one] using candidate

theorem round_order (bound : ℕ) :
    (search.round bound).order = (search.orderSearch bound).order := rfl

theorem Classes.exists_root (h : search.Classes x b z) (bound : ℕ) :
    ∃ e, (search.orderSearch bound).root.StandsFor (z ^ 2 ^ e) :=
  OrderSearch.root_run (e := 0) _ h.error.square (h.root.congr (by rw [pow_zero, pow_one]))

/-- The search of a round comes to the order of the error, if the orders of the error and of
the root of unity are within its bound. -/
theorem Classes.orderSearch (h : search.Classes x b z) {bound k : ℕ} (isOrder : IsSquaringOrder b k)
    (lt : k < search.order) (le : search.order ≤ bound) :
    (search.orderSearch bound).order = k ∧
      (search.orderSearch bound).root.StandsFor (z ^ 2 ^ (search.order - (k + 1))) := by
  have k_pos := isOrder.pos
  have start : OrderSearch.At (m := m)
      { order := 1, power := search.error.square, root := search.root, below := true }
      b z k search.order 2 := by
    refine ⟨?_, ?_, ?_, ?_⟩
    · show 1 = _
      omega
    · rw [show min k (2 - 1) = 1 by omega]
      exact h.error.square
    · rw [show min 2 search.order - (k + 1) = 0 by omega]
      exact h.root.congr (by rw [pow_zero, pow_one])
    · exact (decide_eq_true (by omega)).symm
  have last := start.run isOrder (bound - 2) 2 le_rfl
  have order := last.order
  have root := last.root
  rw [show min k (2 + (bound - 2) - 1) = k by omega] at order
  rw [show min (2 + (bound - 2)) search.order - (k + 1) = search.order - (k + 1) by omega] at root
  exact ⟨order, root⟩

/-- The candidate is a root, and so is its product with the root of unity. -/
structure Settled (a x z : m.Ring) : Prop where
  square : x ^ 2 = a
  root : a * z ^ 2 = a

/-- The square of the candidate is off by the error, whose order is below that of the root of
unity. -/
structure Searching (a x b z : m.Ring) (v bound : ℕ) : Prop where
  two_le : 2 ≤ v
  le : v ≤ bound
  square : x ^ 2 = a * b
  error : b ^ 2 ^ (v - 1) = 1
  root : z ^ 2 ^ (v - 1) = -1

/-- The candidate is a root of `a`, or becomes one within as many rounds as the bound says. -/
def Approaches (search : RootSearch m) (a : m.Ring) (bound : ℕ) : Prop :=
  ∃ x b z, search.Classes x b z ∧ (Settled a x z ∨ Searching a x b z search.order bound)

theorem Settled.pow (h : Settled a x z) : ∀ e : ℕ, Settled a x (z ^ 2 ^ e)
  | 0 => by
    rw [pow_zero, pow_one]
    exact h
  | e + 1 => by
    have ih := (h.pow e).root
    refine ⟨h.square, ?_⟩
    calc a * (z ^ 2 ^ (e + 1)) ^ 2 = a * (z ^ 2 ^ e) ^ 2 * (z ^ 2 ^ e) ^ 2 := by ring
      _ = a := by rw [ih, ih]

/-- A candidate that is a root stays one, whether or not the round multiplies it. -/
theorem Settled.round (h : Settled a x y) : Settled a (if b = 1 then x else x * y) (y ^ 2) := by
  refine ⟨?_, ?_⟩
  · split
    · exact h.square
    · rw [mul_pow, h.square, h.root]
  · calc a * (y ^ 2) ^ 2 = a * y ^ 2 * y ^ 2 := by ring
      _ = a := by rw [h.root, h.root]

/-- A round takes the error below the order that it has, or makes the candidate a root. -/
theorem Searching.round [Fact m.value.toNat.Prime] {v k bound : ℕ}
    (h : Searching a x b z v (bound + 1)) (isOrder : IsSquaringOrder b k) (lt : k < v) :
    let y := z ^ 2 ^ (v - (k + 1))
    Settled a (if b = 1 then x else x * y) (y ^ 2) ∨
      Searching a (if b = 1 then x else x * y) (b * y ^ 2) (y ^ 2) k bound := by
  intro y
  have k_pos := isOrder.pos
  have le := h.le
  have y_pow : (y ^ 2) ^ 2 ^ (k - 1) = -1 := by
    rw [← h.root, ← pow_mul, ← pow_mul, ← pow_succ', ← pow_add]
    congr 2
    omega
  by_cases one : b = 1
  · -- An error of 1 counts as one of order 2, so `y²` is -1.
    have first : k = 1 := by
      have := (isOrder.pow_eq_one_iff le_rfl).mp (by rw [one, one_pow])
      omega
    rw [first, Nat.sub_self, pow_zero, pow_one] at y_pow
    refine .inl ⟨?_, ?_⟩
    · rw [if_pos one, h.square, one, mul_one]
    · rw [y_pow]
      ring
  · rw [if_neg one]
    have b_pow := isOrder.pow_pred one
    have square : (x * y) ^ 2 = a * (b * y ^ 2) := by
      rw [mul_pow, h.square]
      ring
    have error : (b * y ^ 2) ^ 2 ^ (k - 1) = 1 := by
      rw [mul_pow, b_pow, y_pow]
      ring
    by_cases first : k = 1
    · rw [first, Nat.sub_self, pow_zero, pow_one] at error y_pow
      refine .inl ⟨?_, ?_⟩
      · rw [square, error, mul_one]
      · rw [y_pow]
        ring
    · exact .inr ⟨by omega, by omega, square, error, y_pow⟩

theorem Approaches.round [Fact m.value.toNat.Prime] {bound : ℕ}
    (h : search.Approaches a (bound + 1)) : (search.round (bound + 1)).Approaches a bound := by
  obtain ⟨x, b, z, classes, settled | searching⟩ := h
  · obtain ⟨e, root⟩ := classes.exists_root (bound + 1)
    exact ⟨_, _, _, classes.round root, .inl (settled.pow e).round⟩
  · have two_le := searching.two_le
    obtain ⟨k, k_le, isOrder⟩ :=
      IsSquaringOrder.exists_of_pow_eq_one (by omega) searching.error
    obtain ⟨order, root⟩ := classes.orderSearch isOrder (by omega) searching.le
    refine ⟨_, _, _, classes.round root, ?_⟩
    rw [round_order, order]
    exact searching.round isOrder (by omega)

/-- After as many rounds the candidate is a root. -/
theorem Approaches.rounds [Fact m.value.toNat.Prime] : ∀ (count : ℕ) {search : RootSearch m},
    search.Approaches a count →
    ∃ x, (rounds count search).candidate.StandsFor x ∧ x ^ 2 = a
  | 0, _, h => by
    obtain ⟨x, _, _, classes, settled | searching⟩ := h
    · exact ⟨x, classes.candidate, settled.square⟩
    · have := searching.two_le
      have := searching.le
      omega
  | count + 1, _, h => Approaches.rounds count h.round

theorem Classes.rounds : ∀ (count : ℕ) {search : RootSearch m} {x b z : m.Ring},
    search.Classes x b z → ∃ x, (rounds count search).candidate.StandsFor x
  | 0, _, x, _, _, h => ⟨x, h.candidate⟩
  | count + 1, _, _, _, _, h => by
    obtain ⟨_, root⟩ := h.exists_root (count + 1)
    exact Classes.rounds count (h.round root)

end RootSearch

/-! ### Roots -/

variable {x y : Residue m} {a r : m.Ring}

theorem rootOfUnity_standsFor : (rootOfUnity : Residue m).StandsFor rootOfUnity.toRing := by
  have canonical : (rootOfUnity : Residue m).Canonical := by
    unfold rootOfUnity
    split
    · exact (ofLimbs_standsFor _).canonical
    · split
      · exact one_standsFor.neg.canonical
      · exact ((ofWord_standsFor m.generator).pow m.oddPart).canonical
  exact standsFor_toRing canonical

theorem StandsFor.checkedRoot (h : x.StandsFor a) (hy : y.StandsFor r) :
    checkedRoot x y = if r ^ 2 = a then some y else none := by
  have same := hy.square.eq_iff h
  by_cases root : r ^ 2 = a
  · rw [Residue.checkedRoot, if_pos (same.mpr root), if_pos root]
  · rw [Residue.checkedRoot, if_neg fun e => root (same.mp e), if_neg root]

theorem StandsFor.checkedRoot_of_sq (h : x.StandsFor a) (hy : y.StandsFor r) (root : r ^ 2 = a) :
    Residue.checkedRoot x y = some y := by
  rw [h.checkedRoot hy, if_pos root]

/-- The search that the rounds start from. -/
def RootSearch.start (x : Residue m) : RootSearch m :=
  let w := x.pow ((m.oddPart.wrappingSub Limbs.one).shiftRight 1)
  let candidate := x * w
  { order := m.twoAdicity, candidate, error := candidate * w, root := rootOfUnity }

/-- The candidate starts as `x w` and the error as `x w²`, which is the power of `x` to `t`. -/
theorem RootSearch.start_classes (h : x.StandsFor a) :
    ∃ w, (RootSearch.start x).Classes (a * w) (a * w * w) rootOfUnity.toRing ∧
      a * w * w = a ^ m.oddPart.toNat := by
  obtain ⟨-, odd, -⟩ := m.twoAdicity_spec
  have exponent : ((m.oddPart.wrappingSub Limbs.one).shiftRight 1).toNat =
      (m.oddPart.toNat - 1) / 2 := by
    rw [Limbs.shiftRight_toNat, Limbs.wrappingSub_toNat _ _ (by rw [m.toNat_one]; omega),
      m.toNat_one, pow_one]
  have hw := h.pow ((m.oddPart.wrappingSub Limbs.one).shiftRight 1)
  rw [exponent] at hw
  refine ⟨_, ⟨h.mul hw, (h.mul hw).mul hw, rootOfUnity_standsFor⟩, ?_⟩
  rw [mul_assoc, ← pow_add, ← pow_succ']
  congr 1
  omega

theorem StandsFor.exists_candidate (h : x.StandsFor a) :
    ∃ y r, x.sqrt? = Residue.checkedRoot x y ∧ y.StandsFor r := by
  unfold Residue.sqrt?
  split
  · exact ⟨_, _, rfl, h.pow _⟩
  · obtain ⟨_, classes, -⟩ := RootSearch.start_classes h
    obtain ⟨r, candidate⟩ := classes.rounds m.twoAdicity
    exact ⟨_, r, rfl, candidate⟩

theorem StandsFor.sq_of_sqrt?_eq_some (h : x.StandsFor a) (found : x.sqrt? = some y) :
    ∃ r, y.StandsFor r ∧ r ^ 2 = a := by
  obtain ⟨candidate, r, checked, stands⟩ := h.exists_candidate
  rw [checked, h.checkedRoot stands] at found
  by_cases root : r ^ 2 = a
  · rw [if_pos root] at found
    cases found
    exact ⟨r, stands, root⟩
  · rw [if_neg root] at found
    cases found

variable [Fact m.value.toNat.Prime]

theorem pow_half_eq_one (square : IsSquare a) (ne : a ≠ 0) : a ^ (m.value.toNat / 2) = 1 :=
  (ZMod.euler_criterion m.value.toNat ne).mp square

theorem StandsFor.exists_sqrtByPower (h : x.StandsFor a) (form : m.value.toNat % 4 = 3)
    (square : IsSquare a) : ∃ y, x.sqrtByPower = some y := by
  have lt := m.value.toNat_lt
  refine ⟨_, h.checkedRoot_of_sq (h.pow _) ?_⟩
  rw [Limbs.wrappingAdd_toNat, Limbs.shiftRight_toNat, m.toNat_one, Nat.mod_eq_of_lt (by omega)]
  by_cases zero : a = 0
  · rw [zero, zero_pow (by omega), zero_pow two_ne_zero]
  · rw [← pow_mul, show (m.value.toNat / 2 ^ 2 + 1) * 2 = m.value.toNat / 2 + 1 by omega, pow_succ,
      pow_half_eq_one square zero, one_mul]

/-- A class of order `2^s` comes to -1 by `s - 1` squarings, since -1 is the only one of order 2. -/
theorem pow_eq_neg_one_of_orderOf {w : m.Ring} {s : ℕ} (pos : 1 ≤ s) (order : orderOf w = 2 ^ s) :
    w ^ 2 ^ (s - 1) = -1 := by
  have ge := m.three_le
  have dvd : 2 ^ (s - 1) ∣ orderOf w := by
    rw [order]
    exact pow_dvd_pow 2 (Nat.sub_le s 1)
  apply (CharP.orderOf_eq_two_iff m.value.toNat (by omega)).mp
  rw [orderOf_pow_of_dvd (Nat.two_pow_pos _).ne' dvd, order, Nat.pow_div (Nat.sub_le s 1) two_pos,
    Nat.sub_sub_self pos, pow_one]

theorem rootOfUnity_pow [m.Rooted] (form : m.value.toNat % 4 = 1) :
    (rootOfUnity : Residue m).toRing ^ 2 ^ (m.twoAdicity - 1) = -1 := by
  have two_le := m.two_le_twoAdicity form
  exact pow_eq_neg_one_of_orderOf (by omega) (Modulus.Rooted.orderOf_root form)

/-- The rounds lead from there to a root of a square. -/
theorem RootSearch.start_approaches [m.Rooted] (h : x.StandsFor a) (form : m.value.toNat % 4 = 1)
    (square : IsSquare a) : (RootSearch.start x).Approaches a m.twoAdicity := by
  obtain ⟨w, classes, error⟩ := RootSearch.start_classes h
  refine ⟨_, _, _, classes, ?_⟩
  by_cases zero : a = 0
  · refine .inl ⟨?_, ?_⟩
    · rw [zero]
      ring
    · rw [zero, zero_mul]
  · refine .inr ⟨m.two_le_twoAdicity form, le_rfl, by ring, ?_, rootOfUnity_pow form⟩
    show (a * w * w) ^ 2 ^ (m.twoAdicity - 1) = 1
    rw [error, ← pow_mul, ← m.half_eq, pow_half_eq_one square zero]

theorem StandsFor.exists_sqrtByRounds [m.Rooted] (h : x.StandsFor a)
    (form : m.value.toNat % 4 = 1) (square : IsSquare a) : ∃ y, x.sqrtByRounds = some y := by
  obtain ⟨r, candidate, root⟩ := (RootSearch.start_approaches h form square).rounds
  exact ⟨_, h.checkedRoot_of_sq candidate root⟩

theorem low_and_three (m : Modulus L) : m.value.low &&& 3 = 3 ↔ m.value.toNat % 4 = 3 := by
  have low : (m.value.low &&& 3).toNat = m.value.toNat % 2 ^ 2 :=
    m.value.low_and_toNat rfl (by decide)
  rw [← UInt64.toNat_inj, low]
  rfl

theorem StandsFor.exists_sqrt? [m.Rooted] (h : x.StandsFor a) (square : IsSquare a) :
    ∃ y, x.sqrt? = some y := by
  have odd := m.odd
  unfold Residue.sqrt?
  by_cases form : m.value.toNat % 4 = 3
  · rw [if_pos ((low_and_three m).mpr form)]
    exact h.exists_sqrtByPower form square
  · rw [if_neg fun e => form ((low_and_three m).mp e)]
    exact h.exists_sqrtByRounds (by omega) square

/-- **Every square gets a root, and only squares do.** -/
theorem StandsFor.sqrt? [m.Rooted] (h : x.StandsFor a) :
    (∃ y r, x.sqrt? = some y ∧ y.StandsFor r ∧ r ^ 2 = a) ∨ (x.sqrt? = none ∧ ¬ IsSquare a) := by
  cases found : x.sqrt? with
  | some y =>
    obtain ⟨r, stands, root⟩ := h.sq_of_sqrt?_eq_some found
    exact .inl ⟨y, r, rfl, stands, root⟩
  | none =>
    refine .inr ⟨rfl, fun square => ?_⟩
    obtain ⟨y, some⟩ := h.exists_sqrt? square
    rw [found] at some
    cases some

theorem StandsFor.sqrt?_eq_none_iff [m.Rooted] (h : x.StandsFor a) :
    x.sqrt? = none ↔ ¬ IsSquare a := by
  rcases h.sqrt? with ⟨y, r, some, -, root⟩ | ⟨none, nonsquare⟩
  · rw [some]
    exact iff_of_false nofun (not_not.mpr ⟨r, by rw [← root, sq]⟩)
  · exact iff_of_true none nonsquare

end Residue

/-- A root of unity that is computed has its order, if the generator is not a square. -/
theorem Modulus.Rooted.of_generator {m : Modulus L} [Fact m.value.toNat.Prime]
    (computed : m.root? = none) (nonsquare : ¬ IsSquare (m.generator.toNat : m.Ring)) :
    m.Rooted where
  orderOf_root := fun form => by
    have two_le := m.two_le_twoAdicity form
    have nonzero : (m.generator.toNat : m.Ring) ≠ 0 := fun zero => nonsquare (by
      rw [zero]
      exact IsSquare.zero)
    have power : (Residue.rootOfUnity : Residue m).StandsFor
        ((m.generator.toNat : m.Ring) ^ m.oddPart.toNat) := by
      rw [Residue.rootOfUnity, computed]
      simp only [if_neg (show m.twoAdicity ≠ 1 by omega)]
      exact (Residue.ofWord_standsFor m.generator).pow m.oddPart
    have half : (m.generator.toNat : m.Ring) ^ (m.value.toNat / 2) ≠ 1 := fun one =>
      nonsquare ((ZMod.euler_criterion m.value.toNat nonzero).mpr one)
    have fermat : (m.generator.toNat : m.Ring) ^ (m.value.toNat - 1) = 1 :=
      ZMod.pow_card_sub_one_eq_one nonzero
    obtain ⟨value, -, -⟩ := m.twoAdicity_spec
    rw [power.toRing_eq, ← Nat.sub_add_cancel (show 1 ≤ m.twoAdicity by omega)]
    refine orderOf_eq_prime_pow ?_ ?_
    · rwa [← pow_mul, ← m.half_eq]
    · rw [Nat.sub_add_cancel (by omega), ← pow_mul, Nat.mul_comm, Nat.eq_sub_of_add_eq value.symm]
      exact fermat

/-! ### Roots are found if there are any -/

/-- **Square roots are sound and complete.** Modulo any odd prime, whose root of unity has the order
that the rounds take it to have where they are used, an element that is zero or a square gets a
canonical root, whatever is returned is a root, and nothing is returned exactly for the others. -/
theorem Residue.squareRoots_decided (m : Modulus L) [Fact m.value.toNat.Prime] [m.Rooted]
    {x : Residue m} (canonical : x.Canonical) :
    (x = 0 ∨ IsSquare x.toRing → ∃ y, x.sqrt? = some y) ∧
    (∀ y, x.sqrt? = some y → y.Canonical ∧ y.square = x ∧ y.toRing ^ 2 = x.toRing) ∧
    (x.sqrt? = none ↔ x ≠ 0 ∧ ¬ IsSquare x.toRing) := by
  have stands := standsFor_toRing canonical
  have zero_square : x = 0 → IsSquare x.toRing := by
    intro zero
    rw [(stands.eq_iff zero_standsFor).mp zero]
    exact IsSquare.zero
  refine ⟨?_, ?_, ?_⟩
  · intro either
    exact stands.exists_sqrt? (either.elim zero_square id)
  · intro y found
    obtain ⟨r, root, square⟩ := stands.sq_of_sqrt?_eq_some found
    refine ⟨root.canonical, (root.square.eq_iff stands).mpr square, ?_⟩
    rw [root.toRing_eq, square]
  · constructor
    · intro none
      have nonsquare : ¬ IsSquare x.toRing := by
        intro square
        obtain ⟨y, some⟩ := stands.exists_sqrt? square
        rw [none] at some
        cases some
      exact ⟨fun zero => nonsquare (zero_square zero), nonsquare⟩
    · rintro ⟨-, nonsquare⟩
      rcases stands.sqrt? with ⟨y, r, -, -, root⟩ | ⟨none, -⟩
      · exact absurd ⟨r, by rw [← root, sq]⟩ nonsquare
      · exact none

namespace Small

theorem mod257Base_value : mod257Base.value.toNat = 257 :=
  Modulus.value_ofNat 1 257 3 none (by decide +kernel)

instance : Fact mod257Base.value.toNat.Prime := ⟨by
  rw [mod257Base_value]
  norm_num⟩

instance : mod257Base.Rooted := .of_generator rfl (by decide +kernel)

end Small

/-- Modulo `257 = 2^8 + 1`, whose odd part is 1, 113 has a root and 3 has none. -/
theorem Residue.squareRoots_decided_mod257 :
    let x : Residue Small.mod257Base := .ofNat 113
    let z : Residue Small.mod257Base := .ofNat 3
    Small.mod257Base.twoAdicity = 8 ∧ Small.mod257Base.oddPart = .one ∧
      x.Canonical ∧ (∃ y, x.sqrt? = some y ∧ y.square = x) ∧
      z.Canonical ∧ z.sqrt? = none := by
  intro x z
  have xCanonical : x.Canonical := by decide +kernel
  have zCanonical : z.Canonical := by decide +kernel
  obtain ⟨complete, sound, -⟩ := squareRoots_decided Small.mod257Base xCanonical
  obtain ⟨-, -, none_iff⟩ := squareRoots_decided Small.mod257Base zCanonical
  obtain ⟨y, found⟩ := complete (.inr (by decide +kernel))
  refine ⟨by decide +kernel, by decide +kernel, xCanonical, ⟨y, found, (sound y found).2.1⟩,
    zCanonical, ?_⟩
  exact none_iff.mpr ⟨by decide +kernel, by decide +kernel⟩

end ShortWeierstrass
