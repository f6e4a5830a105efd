/-
# Residues are the integers modulo `m`

A residue stands for the class of its value (`Residue.toRing`); `x.StandsFor a` says
so and that the stored number is below the modulus. The stored number of what
stands for `a` is `a R` (`Residue.standsFor_iff`), and `R` is a unit modulo an odd
number: so a class has one residue (`StandsFor.eq_iff`), and each operation on
stored numbers is the operation on classes (`StandsFor.add` and so on).

Key definitions: `Modulus.Ring`, `Residue.Canonical`, `Residue.StandsFor`.
Key theorems: `Residue.standsFor_iff`, `Residue.StandsFor.eq_iff`,
`Residue.ofLimbs_standsFor`, `Residue.StandsFor.add`, `Residue.StandsFor.mul`.
-/
import Mathlib
import ShortWeierstrass.Proofs.ByteStrings
import ShortWeierstrass.Proofs.DerivedConstants
import ShortWeierstrass.Proofs.Montgomery
import ShortWeierstrass.Residue.Text

namespace ShortWeierstrass

variable {L : ℕ}

/-- The integers modulo `m`. -/
abbrev Modulus.Ring (m : Modulus L) : Type := ZMod m.value.toNat

instance (m : Modulus L) : NeZero m.value.toNat := ⟨m.value_pos.ne'⟩

namespace Residue

variable {m : Modulus L}

/-- The stored number is below the modulus. -/
def Canonical (x : Residue m) : Prop := x.montgomery.toNat < m.value.toNat

instance (x : Residue m) : Decidable x.Canonical :=
  inferInstanceAs (Decidable (x.montgomery.toNat < m.value.toNat))

/-- The class of the number that a residue stands for. -/
def toRing (x : Residue m) : m.Ring := x.value.toNat

/-- A canonical residue of the class `a`. -/
structure StandsFor (x : Residue m) (a : m.Ring) : Prop where
  canonical : x.Canonical
  toRing_eq : x.toRing = a

/-! ### Stored numbers -/

/-- Twice a class is zero for zero only, since the modulus is odd. -/
theorem isUnit_radix (m : Modulus L) : IsUnit ((2 : m.Ring) ^ (64 * L)) := by
  have odd : Nat.Coprime 2 m.value.toNat :=
    Nat.coprime_two_left.mpr (Nat.odd_iff.mpr m.odd)
  have two : IsUnit ((2 : ℕ) : m.Ring) := (ZMod.isUnit_iff_coprime 2 _).mpr odd
  exact IsUnit.pow _ (by simpa using two)

/-- A reduced number is canonical and, times `R`, what was reduced. -/
theorem reduce_spec (x : Wide L) (bound : x.toNat < m.value.toNat * 2 ^ (64 * L)) :
    (Limbs.reduce m.value m.negInv x).toNat < m.value.toNat ∧
      ((Limbs.reduce m.value m.negInv x).toNat : m.Ring) * 2 ^ (64 * L) = x.toNat := by
  obtain ⟨lt, congruent⟩ := Limbs.reduce_toNat m.value m.negInv m.negInv_mul_value x bound
  refine ⟨lt, ?_⟩
  have := (ZMod.natCast_eq_natCast_iff _ _ _).mpr congruent
  simpa using this

theorem value_spec (x : Residue m) :
    x.value.toNat < m.value.toNat ∧ x.toRing * 2 ^ (64 * L) = (x.montgomery.toNat : m.Ring) := by
  have lt := x.montgomery.toNat_lt
  have number : (⟨x.montgomery, Limbs.zero⟩ : Wide L).toNat = x.montgomery.toNat := by
    simp [Wide.toNat]
  have bound : (⟨x.montgomery, Limbs.zero⟩ : Wide L).toNat < m.value.toNat * 2 ^ (64 * L) := by
    rw [number]
    exact lt_of_lt_of_le lt (Nat.le_mul_of_pos_left _ m.value_pos)
  have h := reduce_spec (m := m) _ bound
  rwa [number] at h

theorem standsFor_iff (x : Residue m) (a : m.Ring) :
    x.StandsFor a ↔ x.Canonical ∧ (x.montgomery.toNat : m.Ring) = a * 2 ^ (64 * L) := by
  have stored := x.value_spec.2
  constructor
  · rintro ⟨canonical, rfl⟩
    exact ⟨canonical, stored.symm⟩
  · rintro ⟨canonical, e⟩
    rw [e] at stored
    exact ⟨canonical, (isUnit_radix m).mul_right_cancel stored⟩

theorem standsFor_toRing {x : Residue m} (h : x.Canonical) : x.StandsFor x.toRing := ⟨h, rfl⟩

/-- The residue of a double-length number below `m R`. -/
theorem ofWide_standsFor {x : Wide L} {a : m.Ring}
    (bound : x.toNat < m.value.toNat * 2 ^ (64 * L))
    (e : (x.toNat : m.Ring) = a * 2 ^ (64 * L) * 2 ^ (64 * L)) :
    (ofWide x : Residue m).StandsFor a := by
  obtain ⟨lt, reduced⟩ := reduce_spec (m := m) x bound
  rw [e] at reduced
  exact (standsFor_iff _ _).mpr ⟨lt, (isUnit_radix m).mul_right_cancel reduced⟩

/-- Two numbers below the modulus multiply to one below `m R`. -/
theorem mul_lt_radix {u v : Limbs L} (h : v.toNat < m.value.toNat) :
    (u.mulWide v).toNat < m.value.toNat * 2 ^ (64 * L) := by
  have lt := u.toNat_lt
  rw [Limbs.mulWide_toNat, Nat.mul_comm m.value.toNat]
  exact Nat.mul_lt_mul'' lt h

/-! ### What a residue stands for -/

theorem StandsFor.value_toNat {x : Residue m} {a : m.Ring} (h : x.StandsFor a) :
    x.value.toNat = a.val := by
  rw [← h.toRing_eq, toRing, ZMod.val_natCast, Nat.mod_eq_of_lt x.value_spec.1]

/-- A class has one residue. -/
theorem StandsFor.eq_iff {x y : Residue m} {a b : m.Ring} (hx : x.StandsFor a)
    (hy : y.StandsFor b) : x = y ↔ a = b := by
  constructor
  · rintro rfl
    rw [← hx.toRing_eq, hy.toRing_eq]
  · rintro rfl
    have hx' := ((standsFor_iff x a).mp hx).2
    have hy' := ((standsFor_iff y a).mp hy).2
    have same := (ZMod.natCast_eq_natCast_iff' _ _ _).mp (hx'.trans hy'.symm)
    rw [Nat.mod_eq_of_lt hx.canonical, Nat.mod_eq_of_lt hy.canonical, Limbs.toNat_inj] at same
    cases x
    cases y
    simp_all

/-- A class has one value below the modulus. -/
theorem StandsFor.value_eq_iff {x y : Residue m} {a b : m.Ring} (hx : x.StandsFor a)
    (hy : y.StandsFor b) : x.value = y.value ↔ a = b := by
  rw [← Limbs.toNat_inj, hx.value_toNat, hy.value_toNat]
  exact (ZMod.val_injective _).eq_iff

theorem StandsFor.congr {x : Residue m} {a b : m.Ring} (h : x.StandsFor a) (e : a = b) :
    x.StandsFor b := e ▸ h

/-! ### The operations -/

theorem zero_standsFor : (0 : Residue m).StandsFor 0 := by
  refine (standsFor_iff _ _).mpr ⟨?_, ?_⟩
  · show (Limbs.zero : Limbs L).toNat < m.value.toNat
    rw [Limbs.toNat_zero]
    exact m.value_pos
  · show ((Limbs.zero : Limbs L).toNat : m.Ring) = _
    simp

theorem one_standsFor : (1 : Residue m).StandsFor 1 := by
  refine (standsFor_iff _ _).mpr ⟨?_, ?_⟩
  · exact m.radix_lt
  · show (m.radix.toNat : m.Ring) = _
    rw [m.radix_toNat, ZMod.natCast_mod]
    simp

/-- Entering the form reduces any number modulo `m`. -/
theorem ofLimbs_standsFor (u : Limbs L) : (ofLimbs u : Residue m).StandsFor u.toNat := by
  refine ofWide_standsFor (mul_lt_radix m.radixSq_lt) ?_
  rw [Limbs.mulWide_toNat, m.radixSq_toNat, Nat.cast_mul, ZMod.natCast_mod]
  push_cast
  ring

theorem ofNat_standsFor {n : ℕ} (h : n < 2 ^ (64 * L)) : (ofNat n : Residue m).StandsFor n := by
  have stands := ofLimbs_standsFor (m := m) (Limbs.ofNat L n)
  rwa [Limbs.toNat_ofNat_of_lt h] at stands

theorem ofWord_standsFor (w : Word) : (ofWord w : Residue m).StandsFor w.toNat := by
  have lt := Word.toNat_lt_base w
  have le : 2 ^ 64 ≤ 2 ^ (64 * L) :=
    Nat.pow_le_pow_right (by decide) (by have := m.limbs_pos; omega)
  exact ofNat_standsFor (lt_of_lt_of_le lt le)

namespace StandsFor

variable {x y : Residue m} {a b : m.Ring}

theorem add (hx : x.StandsFor a) (hy : y.StandsFor b) : (x + y).StandsFor (a + b) := by
  obtain ⟨cx, ex⟩ := (standsFor_iff _ _).mp hx
  obtain ⟨cy, ey⟩ := (standsFor_iff _ _).mp hy
  have sum := Limbs.addMod_toNat x.montgomery y.montgomery m.value cx cy
  refine (standsFor_iff _ _).mpr ⟨?_, ?_⟩
  · show (x.montgomery.addMod y.montgomery m.value).toNat < m.value.toNat
    rw [sum]
    exact Nat.mod_lt _ m.value_pos
  · show ((x.montgomery.addMod y.montgomery m.value).toNat : m.Ring) = _
    rw [sum, ZMod.natCast_mod, Nat.cast_add, ex, ey]
    ring

theorem sub (hx : x.StandsFor a) (hy : y.StandsFor b) : (x - y).StandsFor (a - b) := by
  obtain ⟨cx, ex⟩ := (standsFor_iff _ _).mp hx
  obtain ⟨cy, ey⟩ := (standsFor_iff _ _).mp hy
  have difference := Limbs.subMod_toNat x.montgomery y.montgomery m.value cx cy
  refine (standsFor_iff _ _).mpr ⟨?_, ?_⟩
  · show (x.montgomery.subMod y.montgomery m.value).toNat < m.value.toNat
    rw [difference]
    exact Nat.mod_lt _ m.value_pos
  · show ((x.montgomery.subMod y.montgomery m.value).toNat : m.Ring) = _
    rw [difference, ZMod.natCast_mod, Nat.cast_add, Nat.cast_sub (le_of_lt cy), ZMod.natCast_self,
      ex, ey]
    ring

theorem neg (hx : x.StandsFor a) : (-x).StandsFor (-a) :=
  (zero_standsFor.sub hx).congr (zero_sub a)

theorem mul (hx : x.StandsFor a) (hy : y.StandsFor b) : (x * y).StandsFor (a * b) := by
  obtain ⟨_, ex⟩ := (standsFor_iff _ _).mp hx
  obtain ⟨cy, ey⟩ := (standsFor_iff _ _).mp hy
  refine ofWide_standsFor (mul_lt_radix cy) ?_
  rw [Limbs.mulWide_toNat, Nat.cast_mul, ex, ey]
  ring

theorem double (hx : x.StandsFor a) : x.double.StandsFor (2 * a) :=
  (hx.add hx).congr (two_mul a).symm

theorem square (hx : x.StandsFor a) : x.square.StandsFor (a ^ 2) :=
  (hx.mul hx).congr (sq a).symm

theorem squareTimes : ∀ (count : ℕ) {x : Residue m} {a : m.Ring}, x.StandsFor a →
    (x.squareTimes count).StandsFor (a ^ 2 ^ count)
  | 0, _, _, h => h.congr (by rw [pow_zero, pow_one])
  | count + 1, _, a, h => (squareTimes count h.square).congr (by rw [← pow_mul, ← pow_succ'])

theorem select (hx : x.StandsFor a) (hy : y.StandsFor b) (choice : Bool) :
    (x.select y choice).StandsFor (if choice then b else a) := by
  cases choice
  · exact hx
  · exact hy

/-- Only the residue of zero is stored as zero. -/
theorem isZero_iff (hx : x.StandsFor a) : x.isZero = true ↔ a = 0 := by
  rw [← hx.eq_iff zero_standsFor, isZero, decide_eq_true_iff]
  constructor
  · intro h
    cases x
    exact congrArg Residue.mk h
  · rintro rfl
    rfl

theorem isZero_eq_false_iff (hx : x.StandsFor a) : x.isZero = false ↔ a ≠ 0 := by
  rw [← Bool.not_eq_true, hx.isZero_iff]

end StandsFor

theorem Canonical.eq_zero_iff {x : Residue m} (h : x.Canonical) : x = 0 ↔ x.toRing = 0 :=
  (standsFor_toRing h).eq_iff zero_standsFor

/-- A sum from the left, on any start. -/
theorem foldl_add_standsFor : ∀ {xs : List (Residue m)} {as : List m.Ring} {x : Residue m}
    {a : m.Ring}, List.Forall₂ StandsFor xs as → x.StandsFor a →
    (xs.foldl (· + ·) x).StandsFor (a + as.sum)
  | [], [], _, _, _, h => h.congr (by simp)
  | _ :: _, _ :: _, _, _, .cons head tail, h =>
    (foldl_add_standsFor tail (h.add head)).congr (by rw [List.sum_cons, add_assoc])

/-- A product from the left, on any start. -/
theorem foldl_mul_standsFor : ∀ {xs : List (Residue m)} {as : List m.Ring} {x : Residue m}
    {a : m.Ring}, List.Forall₂ StandsFor xs as → x.StandsFor a →
    (xs.foldl (· * ·) x).StandsFor (a * as.prod)
  | [], [], _, _, _, h => h.congr (by simp)
  | _ :: _, _ :: _, _, _, .cons head tail, h =>
    (foldl_mul_standsFor tail (h.mul head)).congr (by rw [List.prod_cons, mul_assoc])

theorem sum_standsFor {xs : List (Residue m)} {as : List m.Ring}
    (h : List.Forall₂ StandsFor xs as) : (sum xs).StandsFor as.sum :=
  (foldl_add_standsFor h zero_standsFor).congr (zero_add _)

theorem product_standsFor {xs : List (Residue m)} {as : List m.Ring}
    (h : List.Forall₂ StandsFor xs as) : (product xs).StandsFor as.prod :=
  (foldl_mul_standsFor h one_standsFor).congr (one_mul _)

/-! ### Numbers that have to be below the modulus -/

theorem ofLimbs?_eq_some (u : Limbs L) (h : u.toNat < m.value.toNat) :
    (ofLimbs? u : Option (Residue m)) = some (ofLimbs u) :=
  if_pos ((Limbs.lt_iff _ _).mpr h)

theorem ofLimbs?_eq_none (u : Limbs L) (h : ¬ u.toNat < m.value.toNat) :
    (ofLimbs? u : Option (Residue m)) = none :=
  if_neg fun lt => h ((Limbs.lt_iff _ _).mp lt)

theorem ofBytes?_eq_ok (m : Modulus L) {bytes : Bytes} (h : bytes.length ≤ 8 * L) :
    ofBytes? m bytes = .ok (ofLimbs? (Limbs.ofNat L bytes.value)) := by
  rw [ofBytes?, Limbs.ofBytes_eq_ok bytes h]
  rfl

theorem ofBytes?_eq_error (m : Modulus L) {bytes : Bytes} (h : ¬ bytes.length ≤ 8 * L) :
    ofBytes? m bytes = .error .inputTooLong := by
  rw [ofBytes?, Limbs.ofBytes, if_neg h]
  rfl

end Residue
end ShortWeierstrass
