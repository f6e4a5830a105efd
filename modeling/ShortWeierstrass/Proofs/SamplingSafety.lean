/-
# Sampling needs a modulus that reaches into its top word

The mask for the top word keeps as many bits as the modulus has there: its bit length less the bits
of the words below. If the top word of the modulus is zero, that count is not positive
(`Modulus.bitLength_le_iff`), and neither can it be taken on natural numbers nor can a word be moved
by what it leaves of 64, unless it is; so there is no mask, and no residue is drawn from any stream
(`Modulus.samplesSafely_iff`). With any other modulus there is one, and a stream with a chunk below
the modulus always gives a residue.

Orders like that belong to admitted domains: `q < p < 2 q` leaves room for an order of one bit less
than the base modulus, which is one word less if `p` is just above a power of `2^64`.
`Small.twoWords` is such a domain, and no key can be generated on it.

Key definitions: `Modulus.SamplesSafely`, `Small.twoWords`.
Key theorems: `Modulus.bitLength_le_iff`, `Modulus.samplesSafely_iff`.
-/
import Mathlib
import ShortWeierstrass.Key.Secret
import ShortWeierstrass.Proofs.PointCount
import ShortWeierstrass.Proofs.RejectionSampling

namespace ShortWeierstrass

variable {L : ℕ}

/-- A number without a top word is below the power that its lower words cover. -/
theorem Words.toNat_lt_of_getLastD {ws : List Word} (top : ws.getLastD 0 = 0) :
    toNat ws < 2 ^ (64 * (ws.length - 1)) := by
  rcases List.eq_nil_or_concat ws with rfl | ⟨lower, w, rfl⟩
  · decide
  · rw [List.concat_eq_append] at top ⊢
    rw [List.getLastD_concat] at top
    rw [top, toNat_append, List.length_append, List.length_singleton, Nat.add_sub_cancel,
      toNat_cons, toNat_nil]
    exact toNat_lt lower

namespace Modulus

variable (m : Modulus L) {stream : List Word}

/-- There is a mask for the top word, and every stream with a complete chunk below the modulus gives
a canonical residue. -/
def SamplesSafely : Prop :=
  (∃ mask, m.topMask = .ok mask) ∧
    ∀ stream : List Word,
      (∃ n, (n + 1) * L ≤ stream.length ∧ m.candidate stream n < m.value.toNat) →
        ∃ drawn, Residue.random m stream = .ok drawn ∧ drawn.value.Canonical

/-- The modulus has no bits in its top word if and only if that is zero. -/
theorem bitLength_le_iff : m.bitLength ≤ 64 * (L - 1) ↔ m.value.words.getLastD 0 = 0 := by
  rw [m.bitLength_eq_size]
  constructor
  · intro le
    by_contra top
    exact absurd (m.lt_size top) (not_lt.mpr le)
  · intro top
    have lt := Words.toNat_lt_of_getLastD top
    rw [m.value.length_words] at lt
    exact Nat.size_le.mpr lt

variable {m}

theorem topMask_eq_error (top : m.value.words.getLastD 0 = 0) : m.topMask = .error .bitCount :=
  dif_neg (not_lt.mpr (m.bitLength_le_iff.mpr top))

theorem random_eq_error (top : m.value.words.getLastD 0 = 0) :
    Residue.random m stream = .error .bitCount := by
  rw [Residue.random, topMask_eq_error top]
  rfl

theorem not_samplesSafely (top : m.value.words.getLastD 0 = 0) : ¬ m.SamplesSafely := by
  rintro ⟨⟨mask, masked⟩, -⟩
  rw [topMask_eq_error top] at masked
  cases masked

theorem samplesSafely_of_top (top : m.value.words.getLastD 0 ≠ 0) : m.SamplesSafely := by
  obtain ⟨mask, masked, -⟩ := m.topMask_eq_ok top
  refine ⟨⟨mask, masked⟩, ?_⟩
  rintro stream ⟨n, complete, below⟩
  rcases m.exists_firstChunk_or (· < m.value.toNat) stream with ⟨k, first⟩ | fails
  · obtain ⟨drawn, ok, stands, -⟩ := Residue.exists_random_of_firstChunk top first
    exact ⟨drawn, ok, stands.canonical⟩
  · exact absurd below (fails n complete)

/-- **Sampling is safe exactly for the moduli that reach into their top word.** For every other one
the count of bits there is zero or below, nothing can be masked, and no stream whatever gives a
residue. -/
theorem samplesSafely_iff (m : Modulus L) :
    (m.SamplesSafely ↔ m.value.words.getLastD 0 ≠ 0) ∧
    (m.value.words.getLastD 0 = 0 →
      m.bitLength ≤ 64 * (L - 1) ∧ m.topMask = .error .bitCount ∧
      ∀ stream : List Word, Residue.random m stream = .error .bitCount) := by
  constructor
  · exact ⟨fun safe top => not_samplesSafely top safe, samplesSafely_of_top⟩
  · intro top
    exact ⟨m.bitLength_le_iff.mpr top, topMask_eq_error top, fun _ => random_eq_error top⟩

end Modulus

/-! ### An order of one word less than the base modulus -/

namespace Small

open Primality PointCount

/-- The curve modulo `2^64 + 13` whose order is below `2^64`. -/
def twoWords : Domain 2 :=
  .build
    { base := .ofNat 2 0x1000000000000000d 2 none (by decide +kernel)
      a := .ofNat 0x1000000000000000a
      b := .ofNat 39 }
    (.ofNat 2 0xfffffffee5480bb7 11 none (by decide +kernel))
    (.ofNat 1) (.ofNat 0x5dd7eee5e5307d2a) none (by simp)

theorem twoWords_base : twoWords.base.value.toNat = 0x1000000000000000d :=
  Modulus.value_ofNat 2 0x1000000000000000d 2 none (by decide +kernel)

theorem twoWords_order : twoWords.order.value.toNat = 0xfffffffee5480bb7 :=
  Modulus.value_ofNat 2 0xfffffffee5480bb7 11 none (by decide +kernel)

/-- Primes up to the two moduli. -/
def twoWordsPrimes : List Entry := [
  ⟨658812288346769701, 7, [3, 5, 5, 11, 13, 31, 41, 61]⟩,
  ⟨0x1000000000000000d, 2, [658812288346769701]⟩,
  ⟨11437427, 5, [11, 13, 29]⟩,
  ⟨5187262017019, 2, [11437427]⟩,
  ⟨0xfffffffee5480bb7, 2, [5187262017019]⟩]

theorem prime_of_mem_twoWordsPrimes {n : ℕ} (mem : n ∈ twoWordsPrimes.map Entry.number) :
    n.Prime := by
  have small : ∀ q ∈ [3, 5, 11, 13, 29, 31, 41, 61], q.Prime := by
    simp only [List.forall_mem_cons]
    norm_num
  exact prime_of_checkAll small (by decide +kernel) n mem

instance : twoWords.Admitted := by
  have prime : twoWords.base.value.toNat.Prime := by
    rw [twoWords_base]
    exact prime_of_mem_twoWordsPrimes (by decide +kernel)
  have order_prime : twoWords.order.value.toNat.Prime := by
    rw [twoWords_order]
    exact prime_of_mem_twoWordsPrimes (by decide +kernel)
  refine twoWords.admitted_of_certificate
    { a := 0x1000000000000000a
      b := 39
      gx := 1
      gy := 0x5dd7eee5e5307d2a
      inverse := ⟨0xff4538e9cd7d623f, 0x9558eef4b187827a, 0xb051cb974f89df58⟩ }
    prime order_prime (Residue.ofNat_standsFor (by decide)) (Residue.ofNat_standsFor (by decide))
    (Residue.ofNat_standsFor (by decide)) (Residue.ofNat_standsFor (by decide)) ?_
  rw [twoWords_base, twoWords_order]
  decide +kernel

theorem twoWords_order_top : twoWords.order.value.words.getLastD 0 = 0 := by decide +kernel

/-- On an admitted domain: the order is a prime of two words whose top word is zero, the first chunk
of the stream is 5 in its lowest 64 bits, and neither a scalar nor a key is drawn, from this stream
or from any other. -/
theorem not_samplesSafely_twoWords :
    twoWords.Admitted ∧ twoWords.order.value.toNat.Prime ∧
      twoWords.base.bitLength = 65 ∧ twoWords.order.bitLength = 64 ∧
      twoWords.order.candidate [5, 1] 0 = 5 ∧ 5 < twoWords.order.value.toNat ∧
      Residue.random twoWords.order [5, 1] = .error .bitCount ∧ ¬ twoWords.order.SamplesSafely ∧
      ∀ stream : List Word, SecretKey.generate twoWords stream = .error .bitCount := by
  refine ⟨inferInstance, Domain.Admitted.order_prime, by decide +kernel, by decide +kernel,
    by decide +kernel, by decide +kernel, Modulus.random_eq_error twoWords_order_top,
    Modulus.not_samplesSafely twoWords_order_top, fun stream => ?_⟩
  exact Drawn.retry_of_error (Modulus.random_eq_error twoWords_order_top)

end Small
end ShortWeierstrass
