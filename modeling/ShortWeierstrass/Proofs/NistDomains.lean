/-
# The NIST domains are admitted

For P-256, P-384 and P-521 both moduli are primes, each by a chain of primes that divide the
predecessors of others (`Nist.primeChain`), the base modulus of P-521 as a Mersenne number; and the
numbers of each domain pass the test that counts its points (`Nist.certificate`). So these domains
are admitted, and what holds of admitted domains holds of them.

Key definitions: `Nist.baseValue`, `Nist.primeChain`, `Nist.certificate`.
Key theorems: `Nist.base_prime`, `Nist.order_prime`, `Nist.certificate_check`.
-/
import Mathlib
import ShortWeierstrass.Curves.Nist
import ShortWeierstrass.Proofs.PointCount

namespace ShortWeierstrass
namespace Nist

open Primality PointCount

/-! ### Primes -/

/-- The base modulus, by its powers of two. -/
def baseValue : Nist → ℕ
  | p256 => 2 ^ 256 - 2 ^ 224 + 2 ^ 192 + 2 ^ 96 - 1
  | p384 => 2 ^ 384 - 2 ^ 128 - 2 ^ 96 + 2 ^ 32 - 1
  | p521 => 2 ^ 521 - 1

theorem base_eq (curve : Nist) : curve.domain.base.value.toNat = curve.baseValue := by
  cases curve <;> decide +kernel

theorem order_toNat (curve : Nist) : curve.domain.order.value.toNat = curve.orderValue := by
  cases curve <;> decide +kernel

/-- The primes below 1000 that the chains start from. -/
def smallPrimes : List ℕ :=
  [2, 3, 5, 7, 11, 17, 19, 23, 29, 37, 53, 59, 79, 107, 131, 173, 181, 197, 211, 229, 233, 251,
   271, 311, 337, 599, 727]

theorem prime_of_mem_smallPrimes : ∀ q ∈ smallPrimes, q.Prime := by
  simp only [smallPrimes, List.forall_mem_cons]
  norm_num

/-- Primes up to the order and, where it is no Mersenne number, the base modulus of a curve. -/
def primeChain : Nist → List Entry
  | p256 => [
    ⟨204061199, 3, [11, 23, 107]⟩,
    ⟨34282281433, 2, [204061199]⟩,
    ⟨66417393611, 2, [53, 173, 197]⟩,
    ⟨11290956913871, 2, [66417393611]⟩,
    ⟨774023187263532362759620327192479577272145303, 2, [34282281433, 11290956913871]⟩,
    ⟨835945042244614951780389953367877943453916927241, 2,
      [774023187263532362759620327192479577272145303]⟩,
    ⟨baseValue p256, 2, [835945042244614951780389953367877943453916927241]⟩,
    ⟨3407, 2, [131]⟩,
    ⟨17449, 2, [727]⟩,
    ⟨9547, 2, [3, 37]⟩,
    ⟨38189, 2, [9547]⟩,
    ⟨9350987, 2, [17, 229]⟩,
    ⟨187019741, 2, [9350987]⟩,
    ⟨311245691, 2, [7, 17, 29, 29]⟩,
    ⟨622491383, 2, [311245691]⟩,
    ⟨104471, 2, [337]⟩,
    ⟨3969899, 2, [104471]⟩,
    ⟨1002328039319, 2, [3969899]⟩,
    ⟨orderValue p256, 2, [3407, 17449, 38189, 187019741, 622491383, 1002328039319]⟩]
  | p384 => [
    ⟨8389, 2, [233]⟩,
    ⟨38557, 2, [2, 2, 3, 3, 3, 3]⟩,
    ⟨3253, 2, [271]⟩,
    ⟨312289, 2, [3253]⟩,
    ⟨513928823, 2, [59, 599]⟩,
    ⟨53448597593, 2, [513928823]⟩,
    ⟨1357291859799823621, 2, [53448597593]⟩,
    ⟨105957871, 2, [5, 19, 211]⟩,
    ⟨529709925838459440593, 2, [7, 181, 105957871]⟩,
    ⟨19173790298027098165721053155794528970226934547887232785722672956982046098136719667167519737147526097, 2,
      [8389, 38557, 312289, 1357291859799823621, 529709925838459440593]⟩,
    ⟨baseValue p384, 2,
      [19173790298027098165721053155794528970226934547887232785722672956982046098136719667167519737147526097]⟩,
    ⟨248431, 2, [3, 5, 7, 7]⟩,
    ⟨37447, 2, [79, 79]⟩,
    ⟨8463023, 2, [37447]⟩,
    ⟨9863677, 5, [2, 2, 3, 3, 311]⟩,
    ⟨37344768852931, 2, [9863677]⟩,
    ⟨55942463741690639, 2, [37344768852931]⟩,
    ⟨1059392654943455286185473617842338478315215895509773412096307, 2,
      [251, 248431, 8463023, 55942463741690639]⟩,
    ⟨3055465788140352002733946906144561090641249606160407884365391979704929268480326390471, 2,
      [1059392654943455286185473617842338478315215895509773412096307]⟩,
    ⟨orderValue p384, 2,
      [3055465788140352002733946906144561090641249606160407884365391979704929268480326390471]⟩]
  | p521 => [
    ⟨777241, 7, [2, 2, 2, 3, 3, 17]⟩,
    ⟨60018716061994831, 2, [5, 7, 19, 777241]⟩,
    ⟨4239602065187190872179, 2, [60018716061994831]⟩,
    ⟨7427946019382605513260578233234962521, 2, [4239602065187190872179]⟩,
    ⟨15994076126984618329123851002118749004583184815459808099, 2,
      [7427946019382605513260578233234962521]⟩,
    ⟨3636410625392624440351547907325502812950802686368714273274221490761556277859337865760708490235892541081304511, 2,
      [15994076126984618329123851002118749004583184815459808099]⟩,
    ⟨3615194794881930010216942559103847593050265703173292383701371712350878926821661243755933835426896058418509759880171943, 2,
      [3636410625392624440351547907325502812950802686368714273274221490761556277859337865760708490235892541081304511]⟩,
    ⟨orderValue p521, 2,
      [3615194794881930010216942559103847593050265703173292383701371712350878926821661243755933835426896058418509759880171943]⟩]

theorem primeChain_check (curve : Nist) : checkAll smallPrimes curve.primeChain = true := by
  cases curve <;> decide +kernel

theorem prime_of_mem_primeChain {curve : Nist} {n : ℕ}
    (mem : n ∈ curve.primeChain.map Entry.number) : n.Prime :=
  prime_of_checkAll prime_of_mem_smallPrimes curve.primeChain_check n mem

theorem order_prime (curve : Nist) : curve.orderValue.Prime :=
  prime_of_mem_primeChain
    (by cases curve <;> decide +kernel : _ ∈ curve.primeChain.map Entry.number)

theorem base_prime : ∀ curve : Nist, curve.baseValue.Prime
  | p256 => prime_of_mem_primeChain (by decide +kernel : _ ∈ (primeChain p256).map Entry.number)
  | p384 => prime_of_mem_primeChain (by decide +kernel : _ ∈ (primeChain p384).map Entry.number)
  | p521 => lucas_lehmer_sufficiency 521 (by norm_num) (by norm_num)

/-! ### Points -/

/-- The numbers of the domain, and what shows that the cubic has no root. -/
def certificate : Nist → Certificate
  | p256 =>
    { a := baseValue p256 - 3
      b := 0x5ac635d8aa3a93e7b3ebbd55769886bc651d06b0cc53b0f63bce3c3e27d2604b
      gx := 0x6b17d1f2e12c4247f8bce6e563a440f277037d812deb33a0f4a13945d898c296
      gy := 0x4fe342e2fe1a7f9b8ee7eb4a7c0f9e162bce33576b315ececbb6406837bf51f5
      inverse := ⟨0xa969487079f1744798bf0de6fded091b66e9d328eb0645fe5d979d1339b7f47f,
        0xa4a08891884100c13323460107a8d28eede4387fa3e6e9bfebec9f6d72d0b5cc,
        0x4cde11cf86cb876cd59cf0115813c55af0ecd3cda667d98bb9a347a56aa74a6d⟩ }
  | p384 =>
    { a := baseValue p384 - 3
      b := 0xb3312fa7e23ee7e4988e056be3f82d19181d9c6efe8141120314088f5013875ac656398d8a2ed19d2a85c8edd3ec2aef
      gx := 0xaa87ca22be8b05378eb1c71ef320ad746e1d3b628ba79b9859f741e082542a385502f25dbf55296c3a545e3872760ab7
      gy := 0x3617de4a96262c6f5d9e98bf9292dc29f8f41dbd289a147ce9da3113b5f0b8c00a60b1ce1d7e819d7a431d7c90ea0e5f
      inverse := ⟨0x95adec811ebe8d4b9e2b41150d78f91a619189a415583b8f5e01888da3353b61765cde8cd6c12846310c3f0c10aae682,
        0x3581b884702fb0931c541a5cacefbe3bea864db86e01e048170560418dca3aa8689f246d9d11ccd2e145532dd48491af,
        0x4efcebfdccd7cb25d1b864228f0c32d3a83ec026134ae4753bdff5d3f1fa20b278b31dc3487beb792024fe436f36b43a⟩ }
  | p521 =>
    { a := baseValue p521 - 3
      b := 0x51953eb9618e1c9a1f929a21a0b68540eea2da725b99b315f3b8b489918ef109e156193951ec7e937b1652c0bd3bb1bf073573df883d2c34f1ef451fd46b503f00
      gx := 0xc6858e06b70404e9cd9e3ecb662395b4429c648139053fb521f828af606b4d3dbaa14b5e77efe75928fe1dc127a2ffa8de3348b3c1856a429bf97e7e31c2e5bd66
      gy := 0x11839296a789a3bc0045c8a5fb42c7d1bd998f54449579b446817afbd17273e662c97ee72995ef42640c550b9013fad0761353c7086a272c24088be94769fd16650
      inverse := ⟨0x19e72e5691af1c1f1d3f2591c5ad09ec28f1c524714ca75db089cdb9151ca2289840d94ce56793c78b66ef3540572cc405cdc465d82e1a6f69d82c27053ff163aa6,
        0xc15e4c9246ef30c73585fc1a490df170ef8e757f1f37e7a6cde9349746d8493ebb31a91aea6f35b910d943c96ba37d442ea7bb6d45c60ec76150edba53d1fc8264,
        0x124521c5a63d25338751ea837916053183423f151d92bf4710ef90df9f8ccdf063f99af3ab0f0bd1843a16afc69f16b49b9890c324999f97e8e4650532aea382f92⟩ }

theorem certificate_check (curve : Nist) :
    curve.certificate.check curve.baseValue curve.orderValue = true := by
  cases curve <;> decide +kernel

theorem neg_three_standsFor {L : ℕ} (m : Modulus L) {n : ℕ} (h : n + 3 = m.value.toNat) :
    (-.ofWord 3 : Residue m).StandsFor n := by
  refine (Residue.ofWord_standsFor 3).neg.congr (neg_eq_of_add_eq_zero_left ?_)
  have sum : ((n + 3 : ℕ) : m.Ring) = 0 := by rw [h, ZMod.natCast_self]
  exact_mod_cast sum

instance (curve : Nist) : curve.domain.Admitted := by
  have prime : curve.domain.base.value.toNat.Prime := by
    rw [base_eq]
    exact curve.base_prime
  have order_prime : curve.domain.order.value.toNat.Prime := by
    rw [order_toNat]
    exact curve.order_prime
  have check : curve.certificate.check curve.domain.base.value.toNat
      curve.domain.order.value.toNat = true := by
    rw [base_eq, order_toNat]
    exact curve.certificate_check
  refine curve.domain.admitted_of_certificate curve.certificate prime order_prime ?_ ?_ ?_ ?_ check
  · have a : curve.certificate.a + 3 = curve.domain.base.value.toNat := by
      rw [base_eq]
      cases curve <;> decide +kernel
    cases curve <;> exact neg_three_standsFor _ a
  · cases curve <;> exact Residue.ofNat_standsFor (by decide +kernel)
  · cases curve <;> exact Residue.ofNat_standsFor (by decide +kernel)
  · cases curve <;> exact Residue.ofNat_standsFor (by decide +kernel)

end Nist
end ShortWeierstrass
