/-
# Where points come from

A point is the identity, the generator, what a constructor or a reader makes of coordinates or of a
string that it checks, or what an operation makes of points made before (`Domain.Makes`). Affine
points and triples go over into each other, so both are made side by side (`AnyPoint`).

The constructors and the readers let no pair of coordinates through that is off the curve, and the
operations keep that a point stands for an element of the group. So every point that is made does
(`Domain.Makes.onCurve`), by induction on how it was made: an affine one is the identity or a
finite point of the curve with canonical coordinates (`Domain.Makes.infinity_or_isPoint`). Neither
the order of the generator nor the root of unity of the base modulus matters for that.

Key definitions: `AnyPoint`, `AnyPoint.OnCurve`, `Domain.Makes`.
Key theorems: `Domain.Makes.onCurve`, `Domain.Makes.infinity_or_isPoint`.
-/
import Mathlib
import ShortWeierstrass.Proofs.PointCodec
import ShortWeierstrass.Proofs.ScalarMultiplication

namespace ShortWeierstrass

variable {L : ℕ}

/-- A point, in affine or in Jacobian coordinates. -/
inductive AnyPoint (c : Curve L) where
  | affine (q : Affine c)
  | jacobian (p : Jacobian c)

/-- The point stands for an element of the group. -/
def AnyPoint.OnCurve {c : Curve L} : AnyPoint c → Prop
  | affine q => ∃ g : c.Group, q.StandsFor g
  | jacobian p => ∃ g : c.Group, p.StandsFor g

/-- The points that constructors, readers and operations make, whatever they are given. -/
inductive Domain.Makes (d : Domain L) : AnyPoint d.toCurve → Prop where
  | infinity : d.Makes (.affine .infinity)
  | generator : d.Makes (.affine d.generator)
  | ofCoordinates {x y : Residue d.base} {q : Affine d.toCurve} (hx : x.Canonical)
      (hy : y.Canonical) (found : Affine.ofCoordinates? x y = some q) : d.Makes (.affine q)
  | ofRaw {bytes : Bytes} {q : Affine d.toCurve}
      (read : Affine.ofRaw? d.toCurve bytes = .ok (some q)) : d.Makes (.affine q)
  | decompressBytes {bytes : Bytes} {odd : Bool} {q : Affine d.toCurve}
      (read : Affine.decompressBytes? d.toCurve bytes odd = .ok (some q)) : d.Makes (.affine q)
  | ofTagged {bytes : Bytes} {q : Affine d.toCurve}
      (read : Affine.ofTagged? d.toCurve bytes = .ok (some q)) : d.Makes (.affine q)
  | negAffine {q : Affine d.toCurve} (hq : d.Makes (.affine q)) : d.Makes (.affine q.neg)
  | selectAffine {q q' : Affine d.toCurve} (choice : Bool) (hq : d.Makes (.affine q))
      (hq' : d.Makes (.affine q')) : d.Makes (.affine (q.select q' choice))
  | toAffine {p : Jacobian d.toCurve} (hp : d.Makes (.jacobian p)) : d.Makes (.affine p.toAffine)
  | identity : d.Makes (.jacobian .identity)
  | basePoint : d.Makes (.jacobian d.basePoint)
  | ofAffine {q : Affine d.toCurve} (hq : d.Makes (.affine q)) : d.Makes (.jacobian (.ofAffine q))
  | neg {p : Jacobian d.toCurve} (hp : d.Makes (.jacobian p)) : d.Makes (.jacobian (-p))
  | double {p : Jacobian d.toCurve} (hp : d.Makes (.jacobian p)) : d.Makes (.jacobian p.double)
  | add {p q : Jacobian d.toCurve} (hp : d.Makes (.jacobian p)) (hq : d.Makes (.jacobian q)) :
      d.Makes (.jacobian (p + q))
  | sub {p q : Jacobian d.toCurve} (hp : d.Makes (.jacobian p)) (hq : d.Makes (.jacobian q)) :
      d.Makes (.jacobian (p - q))
  | sum {ps : List (Jacobian d.toCurve)} (hps : ∀ p ∈ ps, d.Makes (.jacobian p)) :
      d.Makes (.jacobian (.sum ps))
  | select {p q : Jacobian d.toCurve} (choice : Bool) (hp : d.Makes (.jacobian p))
      (hq : d.Makes (.jacobian q)) : d.Makes (.jacobian (p.select q choice))
  | entry {p : Jacobian d.toCurve} (digit : Fin (2 ^ windowBits.val))
      (hp : d.Makes (.jacobian p)) : d.Makes (.jacobian ((WindowTable.ofPoint p).select digit))
  | mul {p : Jacobian d.toCurve} (k : Limbs L) (hp : d.Makes (.jacobian p)) :
      d.Makes (.jacobian (d.mul p k))
  | mulGenerator (k : Limbs L) : d.Makes (.jacobian (d.mulGenerator k))
  | mulGeneratorAdd {p : Jacobian d.toCurve} (k₁ k₂ : Limbs L) (hp : d.Makes (.jacobian p)) :
      d.Makes (.jacobian (d.mulGeneratorAdd k₁ p k₂))
  | random {stream : List Word} {drawn : Drawn (Jacobian d.toCurve) stream}
      (draw : d.randomPoint stream = .ok drawn) : d.Makes (.jacobian drawn.value)

variable {c : Curve L} [c.Elliptic]

theorem Affine.onCurve_of_ofCoordinates? {x y : Residue c.base} {q : Affine c} (hx : x.Canonical)
    (hy : y.Canonical) (found : ofCoordinates? x y = some q) : ∃ g : c.Group, q.StandsFor g := by
  unfold ofCoordinates? at found
  by_cases on : (finite x y : Affine c).isOnCurve = true
  · rw [if_pos on] at found
    obtain rfl := Option.some.inj found
    have hx' := Residue.standsFor_toRing hx
    have hy' := Residue.standsFor_toRing hy
    exact ⟨.some _ _ ((isOnCurve_iff hx' hy').mp on), .finite hx' hy'⟩
  · rw [if_neg on] at found
    cases found

theorem Jacobian.exists_foldl_add_standsFor : ∀ {ps : List (Jacobian c)} {p : Jacobian c},
    (∃ g : c.Group, p.StandsFor g) → (∀ q ∈ ps, ∃ g : c.Group, q.StandsFor g) →
    ∃ g : c.Group, (ps.foldl (· + ·) p).StandsFor g
  | [], _, hp, _ => hp
  | q :: ps, _, hp, hps => by
    obtain ⟨_, standsP⟩ := hp
    obtain ⟨_, standsQ⟩ := hps q List.mem_cons_self
    rw [List.foldl_cons]
    apply exists_foldl_add_standsFor ⟨_, standsP.add standsQ⟩
    intro r mem
    exact hps r (List.mem_cons_of_mem q mem)

namespace Domain

variable {d : Domain L} [d.toCurve.Elliptic]

theorem exists_generator_standsFor (generator : d.basePoint.Valid) :
    ∃ g : d.toCurve.Group, d.generator.StandsFor g := by
  have hx := Residue.standsFor_toRing generator.x_canonical
  have hy := Residue.standsFor_toRing generator.y_canonical
  have one : d.basePoint.z.toRing = 1 := Residue.one_standsFor.toRing_eq
  have equation := generator.equation.resolve_left (by rw [one]; exact one_ne_zero)
  rw [one, one_pow, one_pow, mul_one, mul_one] at equation
  exact ⟨.some _ _ (Curve.nonsingular_iff.mpr equation), .finite hx hy⟩

namespace Makes

variable [d.toCurve.OddOrder]

/-- **Every point that is made is on the curve**, if the generator is. -/
theorem onCurve (generator : d.basePoint.Valid) {p : AnyPoint d.toCurve} (made : d.Makes p) :
    p.OnCurve := by
  have base := generator.standsFor
  induction made with
  | infinity => exact ⟨0, .infinity⟩
  | generator => exact exists_generator_standsFor generator
  | ofCoordinates hx hy found => exact Affine.onCurve_of_ofCoordinates? hx hy found
  | ofRaw read =>
    obtain ⟨g, -, stands⟩ := Affine.ofRaw?_eq_some_iff.mp read
    exact ⟨g, stands⟩
  | decompressBytes read =>
    obtain ⟨g, stands, -⟩ := Affine.decompressBytes?_eq_some read
    exact ⟨g, stands⟩
  | ofTagged read =>
    obtain ⟨g, -, stands⟩ := Affine.ofTagged?_eq_some read
    exact ⟨g, stands⟩
  | negAffine _ ih =>
    obtain ⟨g, stands⟩ := ih
    exact ⟨-g, stands.neg⟩
  | selectAffine choice _ _ ih ih' =>
    cases choice with
    | false => exact ih
    | true => exact ih'
  | toAffine _ ih =>
    obtain ⟨g, stands⟩ := ih
    exact ⟨g, stands.toAffine⟩
  | identity => exact ⟨0, Jacobian.identity_standsFor⟩
  | basePoint => exact ⟨_, base⟩
  | ofAffine _ ih =>
    obtain ⟨g, stands⟩ := ih
    exact ⟨g, stands.ofAffine⟩
  | neg _ ih =>
    obtain ⟨g, stands⟩ := ih
    exact ⟨-g, stands.neg⟩
  | double _ ih =>
    obtain ⟨g, stands⟩ := ih
    exact ⟨g + g, stands.double⟩
  | add _ _ ih ih' =>
    obtain ⟨g, stands⟩ := ih
    obtain ⟨g', stands'⟩ := ih'
    exact ⟨g + g', stands.add stands'⟩
  | sub _ _ ih ih' =>
    obtain ⟨g, stands⟩ := ih
    obtain ⟨g', stands'⟩ := ih'
    exact ⟨g - g', stands.sub stands'⟩
  | sum _ ih => exact Jacobian.exists_foldl_add_standsFor ⟨0, Jacobian.identity_standsFor⟩ ih
  | select choice _ _ ih ih' =>
    cases choice with
    | false => exact ih
    | true => exact ih'
  | entry digit _ ih =>
    obtain ⟨g, stands⟩ := ih
    exact ⟨digit.val • g, WindowTable.select_standsFor stands digit⟩
  | mul k _ ih =>
    obtain ⟨g, stands⟩ := ih
    exact ⟨_, Jacobian.mulWindows_standsFor stands d.order.windows k⟩
  | mulGenerator k =>
    obtain ⟨n, stands⟩ := exists_mulGenerator_standsFor base k
    exact ⟨_, stands⟩
  | mulGeneratorAdd k₁ k₂ _ ih =>
    obtain ⟨n, ofGenerator⟩ := exists_mulGenerator_standsFor base k₁
    obtain ⟨g, stands⟩ := ih
    exact ⟨_, ofGenerator.add (Jacobian.mulWindows_standsFor stands d.order.windows k₂)⟩
  | @random stream drawn draw =>
    unfold randomPoint at draw
    cases scalar : Residue.random d.order stream with
    | error fault =>
      rw [scalar] at draw
      cases draw
    | ok scalar' =>
      rw [scalar] at draw
      obtain rfl := Except.ok.inj draw
      obtain ⟨n, stands⟩ := exists_mulGenerator_standsFor base scalar'.value.value
      exact ⟨_, stands⟩

/-- An affine point that is made is the identity or a finite point of the curve. -/
theorem infinity_or_isPoint (generator : d.basePoint.Valid) {q : Affine d.toCurve}
    (made : d.Makes (.affine q)) : q = .infinity ∨ q.IsPoint := by
  obtain ⟨g, stands⟩ := made.onCurve generator
  by_cases zero : g = 0
  · subst zero
    exact .inl (stands.unique .infinity)
  · exact .inr (Affine.isPoint_iff.mpr ⟨g, zero, stands⟩)

end Makes

end Domain
end ShortWeierstrass
