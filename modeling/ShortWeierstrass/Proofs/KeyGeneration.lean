/-
# A generated key is the first candidate in range

A key is drawn by two loops on one stream: the inner one draws residues below the order, the outer
one draws again while the bytes of the residue are not those of a key. On an admitted domain they
are exactly if its number is one (`SecretKey.generate_eq_retry`). A loop around a loop is one loop
with both tests one after the other (`Drawn.outcome_retry_retry`), and both tests together ask for a
number from 1 up to the order (`SecretKey.accept_eq`). So what is known of one loop on the chunks of
a stream says which key is generated and which words are left
(`SecretKey.exists_generate_of_firstChunk`, `SecretKey.generate_eq_exhausted_iff`).

What a key is good for is the same for all keys (`SecretKey.isPrivateKey_toBytes`,
`SecretKey.isPublicKey_toRaw`). The NIST domains are admitted, so on these curves nothing has to be
assumed (`Nist.generate_first`).

Key theorems: `Drawn.outcome_retry_retry`, `SecretKey.generate_eq_retry`,
`SecretKey.exists_generate_of_firstChunk`, `SecretKey.generate_eq_exhausted_iff`,
`SecretKey.isPublicKey_toRaw`, `Nist.generate_first`.
-/
import Mathlib
import ShortWeierstrass.Proofs.KeyFormat
import ShortWeierstrass.Proofs.KeySigning
import ShortWeierstrass.Proofs.NistDomains
import ShortWeierstrass.Proofs.RejectionSampling

namespace ShortWeierstrass

variable {L : ℕ}

/-! ### A loop around a loop -/

namespace Drawn

variable {α β γ : Type} {draw : (stream : List Word) → Except Fault (Drawn α stream)}

/-- A loop depends on what its first draw leaves, not on where that draw began. -/
theorem outcome_retry_congr {accept : α → Option β} {stream stream' : List Word}
    (same : outcome (draw stream) = outcome (draw stream')) :
    outcome (retry draw accept stream) = outcome (retry draw accept stream') := by
  cases first : draw stream with
  | error fault =>
    rw [outcome_eq_error.mpr first] at same
    rw [outcome_eq_error.mpr (retry_of_error first),
      outcome_eq_error.mpr (retry_of_error (outcome_eq_error.mp same.symm))]
  | ok drawn =>
    obtain ⟨drawn', first', value, rest⟩ :=
      outcome_eq_ok.mp (same.symm.trans (outcome_eq_ok.mpr ⟨drawn, first, rfl, rfl⟩))
    cases accepted : accept drawn.value with
    | some found =>
      rw [outcome_retry_of_some first accepted,
        outcome_retry_of_some first' (value ▸ accepted), rest]
    | none =>
      rw [outcome_retry_of_none first accepted,
        outcome_retry_of_none first' (value ▸ accepted), rest]

/-- Two loops, one around the other, are one loop with one test after the other. -/
theorem outcome_retry_retry (accept : α → Option β) (again : β → Option γ) (stream : List Word) :
    outcome (retry (retry draw accept) again stream) =
      outcome (retry draw (fun x => (accept x).bind again) stream) := by
  cases first : draw stream with
  | error fault =>
    rw [outcome_eq_error.mpr (retry_of_error first),
      outcome_eq_error.mpr (retry_of_error (retry_of_error first))]
  | ok drawn =>
    have later := outcome_retry_retry accept again drawn.rest
    cases accepted : accept drawn.value with
    | none =>
      rw [outcome_retry_congr (outcome_retry_of_none first accepted), later,
        outcome_retry_of_none first (by rw [accepted]; rfl)]
    | some value =>
      obtain ⟨inner, ok, inner_value, inner_rest⟩ :=
        outcome_eq_ok.mp (outcome_retry_of_some first accepted)
      cases passed : again value with
      | some found =>
        rw [outcome_retry_of_some ok (inner_value ▸ passed), inner_rest,
          outcome_retry_of_some first (by rw [accepted]; exact passed)]
      | none =>
        rw [outcome_retry_of_none ok (inner_value ▸ passed), inner_rest, later,
          outcome_retry_of_none first (by rw [accepted]; exact passed)]
termination_by stream.length
decreasing_by exact drawn.shorter

end Drawn

/-! ### Drawing a key -/

namespace SecretKey

variable {d : Domain L} {stream : List Word} {n : ℕ}

section Candidates

variable [d.Admitted]

theorem ofBytes?_toBytes (x : d.Scalar) :
    ofBytes? d (x.value.toBytes d.coordinateBytes) = .ok (ofLimbs? d x.value) := by
  have fits : d.coordinateBytes ≤ 8 * L := d.base.byteLength_le
  have lt : x.value.toNat < 256 ^ d.coordinateBytes := x.value_spec.1.trans d.order_lt_pow
  rw [ofBytes?_of_length (Domain.length_scalarBytes x), Limbs.value_toBytes_of_lt fits lt,
    Limbs.ofNat_toNat]

theorem ofScalar?_eq_ofLimbs? (x : d.Scalar) : ofScalar? x = ofLimbs? d x.value :=
  Except.ok.inj ((ofScalar?_eq_ofBytes? x).symm.trans (ofBytes?_toBytes x))

/-- A key is made of the number of a residue, as if there were no bytes between. -/
theorem generate_eq_retry : generate d stream =
    Drawn.retry (Residue.random d.order) (fun x => ofLimbs? d x.value) stream := by
  rw [generate, funext ofScalar?_eq_ofLimbs?]

end Candidates

theorem ofLimbs?_isSome_iff_isScalar {u : Limbs L} :
    (ofLimbs? d u).isSome = true ↔ d.IsScalar u.toNat := by
  rw [ofLimbs?_isSome_iff, Limbs.lt_iff, ← Limbs.toNat_inj.ne, Limbs.toNat_zero,
    ← Nat.pos_iff_ne_zero]
  rfl

/-- The number of an accepted residue is the number that was drawn, and what is not below the
order is no key either. -/
theorem accept_eq (u : Limbs L) :
    ((Residue.ofLimbs? u : Option d.Scalar).bind fun x => ofLimbs? d x.value) = ofLimbs? d u := by
  by_cases lt : u.toNat < d.order.value.toNat
  · have value : (Residue.ofLimbs u : d.Scalar).value = u := by
      rw [← Limbs.toNat_inj, (Residue.ofLimbs_standsFor u).value_toNat, ZMod.val_natCast_of_lt lt]
    rw [Residue.ofLimbs?_eq_some u lt, Option.bind_some, value]
  · rw [Residue.ofLimbs?_eq_none u lt, Option.bind_none, eq_comm, ← Option.not_isSome_iff_eq_none,
      ofLimbs?_isSome_iff_isScalar]
    exact fun isScalar => lt isScalar.2

section Generate

variable (top : d.order.value.words.getLastD 0 ≠ 0)

theorem ofLimbs?_ofNat_of_not_isScalar (k : ℕ) (fits : k < 2 ^ (64 * L)) (h : ¬ d.IsScalar k) :
    ofLimbs? d (.ofNat L k) = none := by
  rwa [← Option.not_isSome_iff_eq_none, ofLimbs?_isSome_iff_isScalar, Limbs.toNat_ofNat_of_lt fits]

include top

variable [d.Admitted]

theorem outcome_generate :
    ∃ mask, mask.toNat = 2 ^ (d.order.value.toNat.size - 64 * (L - 1)) - 1 ∧
      ∀ stream, Drawn.outcome (generate d stream) =
        Drawn.outcome (Drawn.retry (d.order.drawLimbs mask) (ofLimbs? d) stream) := by
  obtain ⟨mask, ones, loop⟩ := Residue.random_eq_retry top
  refine ⟨mask, ones, fun stream => ?_⟩
  rw [generate_eq_retry, funext loop, Drawn.outcome_retry_retry, funext accept_eq]

/-- The first chunk in range is the key, and the words behind it are left. -/
theorem exists_generate_of_firstChunk (h : d.order.FirstChunk d.IsScalar stream n) :
    ∃ drawn, generate d stream = .ok drawn ∧
      drawn.value.value.toNat = d.order.candidate stream n ∧
      drawn.rest = stream.drop ((n + 1) * L) ∧ drawn.used = (n + 1) * L := by
  obtain ⟨mask, ones, loop⟩ := outcome_generate top
  have number := Limbs.toNat_ofNat_of_lt (d.order.candidate_lt stream n)
  have isScalar := h.passes
  rw [← number, ← ofLimbs?_isSome_iff_isScalar] at isScalar
  obtain ⟨key, accepted⟩ := Option.isSome_iff_exists.mp isScalar
  have run := h.outcome_retry ones top ofLimbs?_ofNat_of_not_isScalar accepted
  rw [← loop] at run
  obtain ⟨drawn, ok, rfl, rest⟩ := Drawn.outcome_eq_ok.mp run
  have complete := h.complete
  refine ⟨drawn, ok, ?_, rest, ?_⟩
  · rw [value_of_ofLimbs? accepted, number]
  · rw [Drawn.used, rest, List.length_drop]
    omega

theorem generate_eq_exhausted_iff : generate d stream = .error .exhausted ↔
    ∀ n, (n + 1) * L ≤ stream.length → ¬ d.IsScalar (d.order.candidate stream n) := by
  constructor
  · intro exhausted n complete isScalar
    rcases d.order.exists_firstChunk_or d.IsScalar stream with ⟨k, first⟩ | fails
    · obtain ⟨drawn, ok, -⟩ := exists_generate_of_firstChunk top first
      rw [exhausted] at ok
      cases ok
    · exact fails n complete isScalar
  · intro fails
    obtain ⟨mask, ones, loop⟩ := outcome_generate top
    rw [← Drawn.outcome_eq_error, loop]
    exact Modulus.outcome_retry_of_forall_not ones top ofLimbs?_ofNat_of_not_isScalar stream fails

end Generate

/-! ### What a key is good for -/

section Keys

variable [d.Admitted] (key : SecretKey d)

theorem scalar_ne_zero : key.scalar ≠ 0 := by
  have standsFor := scalar_standsFor key.value_lt
  rw [ne_eq, standsFor.canonical.eq_zero_iff, standsFor.toRing_eq, ZMod.natCast_eq_zero_iff]
  exact Nat.not_dvd_of_pos_of_lt key.isScalar.1 key.isScalar.2

theorem isPrivateKey_toBytes : d.isPrivateKey key.toBytes = .ok true := by
  rw [Domain.isPrivateKey_eq key.length_toBytes, value_toBytes key.value_lt,
    decide_eq_true key.isScalar]

theorem isPoint_publicPoint : key.publicPoint.IsPoint := by
  have multiple := Domain.mulGenerator_scalar_standsFor (scalar_standsFor key.value_lt)
  exact Affine.isPoint_iff.mpr ⟨_, key.publicPoint_isRaw.ne_zero, multiple.toAffine⟩

theorem isPublicKey_toRaw : d.isPublicKey key.publicPoint.toRaw = .ok true :=
  Domain.isPublicKey_iff.mpr ⟨_, key.publicPoint_isRaw⟩

end Keys

end SecretKey

/-! ### The NIST curves -/

namespace Nist

theorem order_top (curve : Nist) : curve.domain.order.value.words.getLastD 0 ≠ 0 := by
  cases curve <;> decide +kernel

/-- **A generated key is the first candidate in range**, on P-256, P-384 and P-521. If some complete
chunk has a number, taken modulo the power of two above the order, from 1 up to the order, then the
first such number is the key, and the words behind its chunk are left; otherwise the stream ends
without a key. Whether a key is read from the bytes of a scalar or made of its number is the same.
Every key, however it was made, is its scalar, which is not zero, passes the check of private keys,
and has a finite point of the curve for its public point, whose encoding passes the check of public
keys. -/
theorem generate_first (curve : Nist) :
    (∀ (stream : List Word) (n : ℕ),
      curve.domain.order.FirstChunk curve.domain.IsScalar stream n →
      ∃ drawn, SecretKey.generate curve.domain stream = .ok drawn ∧
        drawn.value.value.toNat = curve.domain.order.candidate stream n ∧
        drawn.rest = stream.drop ((n + 1) * curve.limbs) ∧
        drawn.used = (n + 1) * curve.limbs) ∧
    (∀ stream : List Word, SecretKey.generate curve.domain stream = .error .exhausted ↔
      ∀ n, (n + 1) * curve.limbs ≤ stream.length →
        ¬ curve.domain.IsScalar (curve.domain.order.candidate stream n)) ∧
    (∀ x : curve.domain.Scalar,
      SecretKey.ofBytes? curve.domain (curve.encodeLimbs x.value) =
        .ok (SecretKey.ofLimbs? curve.domain x.value) ∧
      ((SecretKey.ofLimbs? curve.domain x.value).isSome = true ↔
        x.value ≠ Limbs.zero ∧ x.value.lt curve.order = true)) ∧
    ∀ key : SecretKey curve.domain,
      key.scalar.value = key.value ∧ key.scalar ≠ 0 ∧
      (∃ length, curve.isPrivateKey ⟨key.toBytes, length⟩ = .ok true) ∧
      key.publicPoint.IsPoint ∧
      ∃ length, curve.isPublicKey ⟨key.publicPoint.toRaw, length⟩ = .ok true := by
  have size := curve.fieldBytes_eq
  refine ⟨fun stream n first => SecretKey.exists_generate_of_firstChunk curve.order_top first,
    fun stream => SecretKey.generate_eq_exhausted_iff curve.order_top, fun x => ⟨?_, ?_⟩,
    fun key => ⟨SecretKey.scalar_value key.value_lt, key.scalar_ne_zero,
      ⟨?_, key.isPrivateKey_toBytes⟩, key.isPoint_publicPoint, ?_, key.isPublicKey_toRaw⟩⟩
  · rw [encodeLimbs, size]
    exact SecretKey.ofBytes?_toBytes x
  · rw [curve.order_eq]
    exact SecretKey.ofLimbs?_isSome_iff
  · exact key.length_toBytes.trans size.symm
  · rw [key.publicPoint.length_toRaw, size]

/-- On P-521 a chunk of zero in its lowest 521 bits and a chunk of the order itself are skipped, and
the key is 5. -/
theorem generate_first_p521 :
    let zero : List Word := [0, 0, 0, 0, 0, 0, 0, 0, 0xfffffffffffffe00]
    let stream : List Word := zero ++ p521.order.words ++ [5, 0, 0, 0, 0, 0, 0, 0, 0, 7]
    p521.domain.order.FirstChunk p521.domain.IsScalar stream 2 ∧
      (∃ drawn, SecretKey.generate p521.domain stream = .ok drawn ∧
        drawn.value.value.toNat = 5 ∧ drawn.rest = [7] ∧ drawn.used = 27 ∧
        drawn.value.publicPoint.IsPoint) ∧
      SecretKey.generate p521.domain (zero ++ p521.order.words) = .error .exhausted := by
  intro zero stream
  have first : p521.domain.order.FirstChunk p521.domain.IsScalar stream 2 :=
    ⟨by decide +kernel, by decide +kernel, by decide +kernel⟩
  obtain ⟨takes, exhausted, -, keys⟩ := generate_first p521
  obtain ⟨drawn, ok, value, rest, used⟩ := takes stream 2 first
  obtain ⟨-, -, -, isPoint, -⟩ := keys drawn.value
  refine ⟨first, ⟨drawn, ok, value.trans (by decide +kernel), rest.trans (by decide +kernel), used,
    isPoint⟩, (exhausted _).mpr fun n complete => ?_⟩
  have few : n < 2 := by
    change (n + 1) * 9 ≤ 18 at complete
    omega
  interval_cases n <;> decide +kernel

end Nist
end ShortWeierstrass
