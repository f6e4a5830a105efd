/-
# Tables of small multiples

Windowed scalar multiplication and windowed exponentiation start from the same
table: the first multiples of an element, each made from earlier ones, an even
entry by doubling the entry of half its index and an odd one by one more step
from its predecessor. The table is generic in the operations; whatever the
entries denote, entry `i` denotes the `i`-fold of the element as soon as `double`
and `step` denote doubling and adding it (`multiples_induction`).

Key definitions: `multiples`.
Key theorems: `getElem_multiples`, `multiples_induction`.
-/

namespace ShortWeierstrass

variable {α : Type} (zero one : α) (double step : α → α)

/-- The first `n` multiples: `zero`, `one`, and from there on the double of entry
`k` at `2 k`, and the step from entry `2 k` at `2 k + 1`. -/
def multiples : (n : Nat) → Vector α n
  | 0 => #v[]
  | n + 1 =>
    let before := multiples n
    before.push <|
      if h : 2 ≤ n then
        have half : n / 2 < n := by omega
        have last : n - 1 < n := by omega
        if n % 2 = 0 then double before[n / 2] else step before[n - 1]
      else if n = 0 then zero else one

theorem getElem_multiples_last (n : Nat) :
    (multiples zero one double step (n + 1))[n] =
      if h : 2 ≤ n then
        have half : n / 2 < n := by omega
        have last : n - 1 < n := by omega
        if n % 2 = 0 then double (multiples zero one double step n)[n / 2]
        else step (multiples zero one double step n)[n - 1]
      else if n = 0 then zero else one := by
  simp [multiples]

/-- A longer table starts with the shorter one. -/
theorem getElem_multiples : ∀ (n i : Nat) (h : i < n),
    (multiples zero one double step n)[i] = (multiples zero one double step (i + 1))[i]
  | n + 1, i, h => by
    rcases Nat.lt_succ_iff_lt_or_eq.mp h with lt | rfl
    · rw [← getElem_multiples n i lt]
      simp only [multiples]
      rw [Vector.getElem_push_lt lt]
    · rfl

/-- What holds of `zero` and `one` and passes on along the table's own rule
holds of every entry. -/
theorem multiples_induction {denotes : Nat → α → Prop} (h0 : denotes 0 zero) (h1 : denotes 1 one)
    (even : ∀ k x, denotes k x → denotes (2 * k) (double x))
    (odd : ∀ k x, denotes k x → denotes (k + 1) (step x)) :
    ∀ (n i : Nat) (h : i < n), denotes i (multiples zero one double step n)[i] := by
  intro n i
  induction i using Nat.strongRecOn generalizing n with
  | _ i ih =>
    intro h
    rw [getElem_multiples, getElem_multiples_last]
    split
    · split
      · rename_i ge parity
        have := even _ _ (ih (i / 2) (by omega) i (by omega))
        rwa [show 2 * (i / 2) = i by omega] at this
      · rename_i ge parity
        have := odd _ _ (ih (i - 1) (by omega) i (by omega))
        rwa [show i - 1 + 1 = i by omega] at this
    · split
      · rename_i e
        rw [e]
        exact h0
      · rename_i ge e
        rw [show i = 1 by omega]
        exact h1

end ShortWeierstrass
