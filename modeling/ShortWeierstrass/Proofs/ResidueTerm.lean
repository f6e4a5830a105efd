/-
# Terms of residue arithmetic

`Residue.Term` is the syntax of what can be built from words, numbers and byte
strings by the ring operations and selection. A term has an integer
(`Term.integer`) and, modulo `m`, a residue (`Term.residue?`), unless one of its
numbers or byte strings has to be below the modulus and is not
(`Term.Admissible`). The two agree on every term: the stored number is below the
modulus, and the value is the integer modulo `m`.

Key definitions: `Residue.Term`, `Term.residue?`, `Term.integer`, `Term.Admissible`.
Key theorems: `Term.yields`, `residue_arithmetic`.
-/
import Mathlib
import ShortWeierstrass.Curves.Small
import ShortWeierstrass.Proofs.ResidueRing

namespace ShortWeierstrass

namespace Residue

variable {L : ℕ} {m : Modulus L}

/-! ### Terms -/

/-- What is built from numbers by ring operations and selection. -/
inductive Term (L : ℕ) where
  | zero
  | one
  | word (w : Word)
  /-- A number of any size, reduced. -/
  | reduced (u : Limbs L)
  /-- A number that has to be below the modulus. -/
  | number (u : Limbs L)
  /-- A byte string whose number has to be below the modulus. -/
  | bytes (b : Bytes)
  | select (s t : Term L) (choice : Bool)
  | add (s t : Term L)
  | sub (s t : Term L)
  | neg (t : Term L)
  | double (t : Term L)
  | mul (s t : Term L)
  | square (t : Term L)
  | squareTimes (count : ℕ) (t : Term L)
  | sum (ts : List (Term L))
  | product (ts : List (Term L))

namespace Term

mutual

/-- The residue that a term is evaluated to. -/
def residue? (m : Modulus L) : Term L → Option (Residue m)
  | zero => some 0
  | one => some 1
  | word w => some (ofWord w)
  | reduced u => some (ofLimbs u)
  | number u => ofLimbs? u
  | bytes b => (ofBytes? m b).toOption.join
  | select s t choice => Option.map₂ (Residue.select · · choice) (residue? m s) (residue? m t)
  | add s t => Option.map₂ (· + ·) (residue? m s) (residue? m t)
  | sub s t => Option.map₂ (· - ·) (residue? m s) (residue? m t)
  | neg t => (residue? m t).map (- ·)
  | double t => (residue? m t).map Residue.double
  | mul s t => Option.map₂ (· * ·) (residue? m s) (residue? m t)
  | square t => (residue? m t).map Residue.square
  | squareTimes count t => (residue? m t).map (Residue.squareTimes count)
  | sum ts => (residues? m ts).map Residue.sum
  | product ts => (residues? m ts).map Residue.product

/-- The residues that all terms of a list are evaluated to. -/
def residues? (m : Modulus L) : List (Term L) → Option (List (Residue m))
  | [] => some []
  | t :: ts => Option.map₂ (· :: ·) (residue? m t) (residues? m ts)

end

mutual

/-- The integer that a term denotes. -/
def integer : Term L → ℤ
  | zero => 0
  | one => 1
  | word w => w.toNat
  | reduced u => u.toNat
  | number u => u.toNat
  | bytes b => b.value
  | select s t choice => if choice then integer t else integer s
  | add s t => integer s + integer t
  | sub s t => integer s - integer t
  | neg t => -integer t
  | double t => 2 * integer t
  | mul s t => integer s * integer t
  | square t => integer t ^ 2
  | squareTimes count t => integer t ^ 2 ^ count
  | sum ts => (integers ts).sum
  | product ts => (integers ts).prod

/-- The integers of all terms of a list. -/
def integers : List (Term L) → List ℤ
  | [] => []
  | t :: ts => integer t :: integers ts

end

mutual

/-- The numbers that have to be below the modulus are. -/
def Admissible (m : Modulus L) : Term L → Prop
  | zero | one | word _ | reduced _ => True
  | number u => u.toNat < m.value.toNat
  | bytes b => b.length ≤ 8 * L ∧ b.value < m.value.toNat
  | select s t _ | add s t | sub s t | mul s t => Admissible m s ∧ Admissible m t
  | neg t | double t | square t | squareTimes _ t => Admissible m t
  | sum ts | product ts => AllAdmissible m ts

/-- `Admissible` for all terms of a list. -/
def AllAdmissible (m : Modulus L) : List (Term L) → Prop
  | [] => True
  | t :: ts => Admissible m t ∧ AllAdmissible m ts

end

end Term

/-- What is there, exactly under a condition, stands for a class. -/
def Yields (x? : Option (Residue m)) (condition : Prop) (a : m.Ring) : Prop :=
  match x? with
  | some x => condition ∧ x.StandsFor a
  | none => ¬ condition

/-- `Yields` for a list of residues. -/
def ListYields (xs? : Option (List (Residue m))) (condition : Prop) (as : List m.Ring) : Prop :=
  match xs? with
  | some xs => condition ∧ List.Forall₂ StandsFor xs as
  | none => ¬ condition

namespace Yields

variable {x? y? : Option (Residue m)} {p q : Prop} {a b c : m.Ring}

theorem map {f : Residue m → Residue m} (h : Yields x? p a)
    (stands : ∀ x, x.StandsFor a → (f x).StandsFor b) : Yields (x?.map f) p b := by
  cases x? with
  | none => exact h
  | some x => exact ⟨h.1, stands x h.2⟩

theorem map₂ {f : Residue m → Residue m → Residue m} (hx : Yields x? p a) (hy : Yields y? q b)
    (stands : ∀ x y, x.StandsFor a → y.StandsFor b → (f x y).StandsFor c) :
    Yields (Option.map₂ f x? y?) (p ∧ q) c := by
  cases x? with
  | none => exact fun both => hx both.1
  | some x =>
    cases y? with
    | none => exact fun both => hy both.2
    | some y => exact ⟨⟨hx.1, hy.1⟩, stands x y hx.2 hy.2⟩

theorem cons {xs? : Option (List (Residue m))} {as : List m.Ring} (hx : Yields x? p a)
    (hxs : ListYields xs? q as) : ListYields (Option.map₂ (· :: ·) x? xs?) (p ∧ q) (a :: as) := by
  cases x? with
  | none => exact fun both => hx both.1
  | some x =>
    cases xs? with
    | none => exact fun both => hxs both.2
    | some xs => exact ⟨⟨hx.1, hxs.1⟩, .cons hx.2 hxs.2⟩

theorem fold {xs? : Option (List (Residue m))} {as : List m.Ring}
    {f : List (Residue m) → Residue m} (hxs : ListYields xs? p as)
    (stands : ∀ xs, List.Forall₂ StandsFor xs as → (f xs).StandsFor b) :
    Yields (xs?.map f) p b := by
  cases xs? with
  | none => exact hxs
  | some xs => exact ⟨hxs.1, stands xs hxs.2⟩

end Yields

theorem yields_ofLimbs? (u : Limbs L) :
    Yields (ofLimbs? u : Option (Residue m)) (u.toNat < m.value.toNat) u.toNat := by
  by_cases h : u.toNat < m.value.toNat
  · rw [ofLimbs?_eq_some u h]
    exact ⟨h, ofLimbs_standsFor u⟩
  · rw [ofLimbs?_eq_none u h]
    exact h

theorem yields_ofBytes? (m : Modulus L) (b : Bytes) :
    Yields (ofBytes? m b).toOption.join (b.length ≤ 8 * L ∧ b.value < m.value.toNat) b.value := by
  by_cases h : b.length ≤ 8 * L
  · have number := yields_ofLimbs? (m := m) (Limbs.ofNat L b.value)
    rw [Limbs.toNat_ofNat_value h] at number
    rw [ofBytes?_eq_ok m h]
    simpa [h, Except.toOption] using number
  · rw [ofBytes?_eq_error m h]
    exact fun both => h both.1

mutual

/-- A term that is admissible, and no other, has a residue, which stands for its integer. -/
theorem Term.yields (m : Modulus L) : ∀ t : Term L,
    Yields (t.residue? m) (t.Admissible m) (t.integer : m.Ring)
  | .zero => ⟨trivial, zero_standsFor.congr (by simp [Term.integer])⟩
  | .one => ⟨trivial, one_standsFor.congr (by simp [Term.integer])⟩
  | .word w => ⟨trivial, (ofWord_standsFor w).congr (by simp [Term.integer])⟩
  | .reduced u => ⟨trivial, (ofLimbs_standsFor u).congr (by simp [Term.integer])⟩
  | .number u => by
    simpa [Term.residue?, Term.Admissible, Term.integer] using yields_ofLimbs? (m := m) u
  | .bytes b => by
    simpa [Term.residue?, Term.Admissible, Term.integer] using yields_ofBytes? m b
  | .select s t choice => (Term.yields m s).map₂ (Term.yields m t) fun _ _ hx hy =>
    (hx.select hy choice).congr (by cases choice <;> rfl)
  | .add s t => (Term.yields m s).map₂ (Term.yields m t) fun _ _ hx hy =>
    (hx.add hy).congr (by simp [Term.integer])
  | .sub s t => (Term.yields m s).map₂ (Term.yields m t) fun _ _ hx hy =>
    (hx.sub hy).congr (by simp [Term.integer])
  | .neg t => (Term.yields m t).map fun _ hx => hx.neg.congr (by simp [Term.integer])
  | .double t => (Term.yields m t).map fun _ hx => hx.double.congr (by simp [Term.integer])
  | .mul s t => (Term.yields m s).map₂ (Term.yields m t) fun _ _ hx hy =>
    (hx.mul hy).congr (by simp [Term.integer])
  | .square t => (Term.yields m t).map fun _ hx => hx.square.congr (by simp [Term.integer])
  | .squareTimes count t => (Term.yields m t).map fun _ hx =>
    (hx.squareTimes count).congr (by simp [Term.integer])
  | .sum ts => Yields.fold (Term.listYields m ts) fun _ hxs =>
    (sum_standsFor hxs).congr (by simp [Term.integer])
  | .product ts => Yields.fold (Term.listYields m ts) fun _ hxs =>
    (product_standsFor hxs).congr (by simp [Term.integer])

theorem Term.listYields (m : Modulus L) : ∀ ts : List (Term L),
    ListYields (Term.residues? m ts) (Term.AllAdmissible m ts)
      ((Term.integers ts).map (Int.cast : ℤ → m.Ring))
  | [] => ⟨trivial, .nil⟩
  | t :: ts => (Term.yields m t).cons (Term.listYields m ts)

end

/-! ### The integers modulo `m` -/

variable {t : Term L} {x : Residue m}

theorem Term.isSome_iff (t : Term L) : (t.residue? m).isSome ↔ t.Admissible m := by
  have yields := t.yields m
  cases e : t.residue? m with
  | none => simpa [e, Yields] using yields
  | some x =>
    rw [e] at yields
    exact iff_of_true rfl yields.1

theorem Term.standsFor (h : t.residue? m = some x) : x.StandsFor (t.integer : m.Ring) := by
  have yields := t.yields m
  rw [h] at yields
  exact yields.2

/-- The value is the representative of the class below the modulus. -/
theorem StandsFor.value_eq_emod {n : ℤ} (h : x.StandsFor (n : m.Ring)) :
    (x.value.toNat : ℤ) = n % m.value.toNat := by
  rw [h.value_toNat, ZMod.val_intCast]

/-- **Residues are the integers modulo `m`, each stored in one way.** A term has a
residue exactly if its numbers are admissible; that residue is canonical and its value is
the term's integer modulo `m`; any number can be reduced, one below the modulus only can be
taken as it is; and what has the same value is stored in the same way. -/
theorem residue_arithmetic (m : Modulus L) :
    (∀ t : Term L, (t.residue? m).isSome ↔ t.Admissible m) ∧
    (∀ (t : Term L) (x : Residue m), t.residue? m = some x →
      x.montgomery.toNat < m.value.toNat ∧ (x.value.toNat : ℤ) = t.integer % m.value.toNat) ∧
    (∀ u : Limbs L, (ofLimbs u : Residue m).value.toNat = u.toNat % m.value.toNat) ∧
    (∀ u : Limbs L, (ofLimbs? u : Option (Residue m)).isSome ↔ u.toNat < m.value.toNat) ∧
    (∀ (t t' : Term L) (x x' : Residue m), t.residue? m = some x → t'.residue? m = some x' →
      (x = x' ↔ x.value = x'.value)) := by
  refine ⟨Term.isSome_iff, fun t x h => ?_, fun u => ?_, fun u => ?_, fun t t' x x' h h' => ?_⟩
  · have stands := Term.standsFor h
    exact ⟨stands.canonical, stands.value_eq_emod⟩
  · rw [(ofLimbs_standsFor u).value_toNat, ZMod.val_natCast]
  · exact Term.isSome_iff (.number u)
  · have stands := Term.standsFor h
    have stands' := Term.standsFor h'
    rw [stands.eq_iff stands', stands.value_eq_iff stands']

/-- A sum that passes the modulus and, unreduced, the word: `2^64 - 60` added to itself and
to 100 modulo `2^64 - 59`. -/
theorem residue_arithmetic_oneWord :
    let near : Limbs 1 := .ofNat 1 0xffffffffffffffc4
    ∃ x, (Term.sum [.number near, .number near, .bytes [100]]).residue? Small.oneWordBase
        = some x ∧
      x.montgomery.toNat < 0xffffffffffffffc5 ∧ x.value.toNat = 98 := by
  intro near
  have evaluated : (Term.sum [.number near, .number near, .bytes [100]]).residue?
      Small.oneWordBase = some ⟨.ofNat 1 5782⟩ := by decide +kernel
  obtain ⟨canonical, value⟩ := (residue_arithmetic Small.oneWordBase).2.1 _ _ evaluated
  have sum : (Term.sum [.number near, .number near, .bytes [100]]).integer
      % Small.oneWordBase.value.toNat = 98 := by decide +kernel
  exact ⟨_, evaluated, canonical, by exact_mod_cast value.trans sum⟩

end Residue
end ShortWeierstrass
