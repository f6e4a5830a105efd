/-
# The NIST curves P-256, P-384 and P-521

The three curves of FIPS 186 with their domain parameters: `a = -3` on each of
them, and the comb of the generator is long enough for every scalar. `Nist` is the
choice among them, for operations that are offered for these three only.

Key definitions: `Nist`, `Nist.limbs`, `Nist.orderValue`, `Nist.domain`.
-/
import ShortWeierstrass.Domain

namespace ShortWeierstrass

/-- The curves of FIPS 186 over a prime field, from 256 bits on. -/
inductive Nist where
  | p256
  | p384
  | p521
  deriving DecidableEq, Repr

namespace Nist

/-- The number of words of a coordinate or scalar. -/
def limbs : Nist → Nat
  | p256 => 4
  | p384 => 6
  | p521 => 9

/-- The number of points of the curve. -/
def orderValue : Nist → Nat
  | p256 =>
    0xffffffff00000000ffffffffffffffffbce6faada7179e84f3b9cac2fc632551
  | p384 =>
    0xffffffffffffffffffffffffffffffffffffffffffffffffc7634d81f4372ddf581a0db248b0a77aecec196accc52973
  | p521 =>
    0x1fffffffffffffffffffffffffffffffffffffffffffffffffffffffffffffffffa51868783bf2f966b7fcc0148f709a5d03bb5c9b8899c47aebb6fb71e91386409

/-! ### P-256 -/

/-- The base modulus of P-256. -/
def p256Base : Modulus 4 :=
  .ofNat 4
    0xffffffff00000001000000000000000000000000ffffffffffffffffffffffff
    6 none (by decide +kernel)

/-- The order of P-256. -/
def p256Order : Modulus 4 :=
  .ofNat 4 (orderValue p256) 7
    (some 0xffc97f062a770992ba807ace842a3dfc1546cad004378daf0592d7fbb41e6602)
    (by decide +kernel)

/-- The equation of P-256. -/
def p256Curve : Curve 4 where
  base := p256Base
  a := -.ofWord 3
  b := .ofNat
    0x5ac635d8aa3a93e7b3ebbd55769886bc651d06b0cc53b0f63bce3c3e27d2604b

/-- The domain parameters of P-256. -/
def p256Domain : Domain 4 :=
  .build p256Curve p256Order
    (.ofNat 0x6b17d1f2e12c4247f8bce6e563a440f277037d812deb33a0f4a13945d898c296)
    (.ofNat 0x4fe342e2fe1a7f9b8ee7eb4a7c0f9e162bce33576b315ececbb6406837bf51f5)
    (some 32) (by rintro _ ⟨⟩; decide +kernel)

/-! ### P-384 -/

/-- The base modulus of P-384. -/
def p384Base : Modulus 6 :=
  .ofNat 6
    0xfffffffffffffffffffffffffffffffffffffffffffffffffffffffffffffffeffffffff0000000000000000ffffffff
    19 none (by decide +kernel)

/-- The order of P-384. -/
def p384Order : Modulus 6 :=
  .ofNat 6 (orderValue p384) 2 none (by decide +kernel)

/-- The equation of P-384. -/
def p384Curve : Curve 6 where
  base := p384Base
  a := -.ofWord 3
  b := .ofNat
    0xb3312fa7e23ee7e4988e056be3f82d19181d9c6efe8141120314088f5013875ac656398d8a2ed19d2a85c8edd3ec2aef

/-- The domain parameters of P-384. -/
def p384Domain : Domain 6 :=
  .build p384Curve p384Order
    (.ofNat 0xaa87ca22be8b05378eb1c71ef320ad746e1d3b628ba79b9859f741e082542a385502f25dbf55296c3a545e3872760ab7)
    (.ofNat 0x3617de4a96262c6f5d9e98bf9292dc29f8f41dbd289a147ce9da3113b5f0b8c00a60b1ce1d7e819d7a431d7c90ea0e5f)
    (some 48) (by rintro _ ⟨⟩; decide +kernel)

/-! ### P-521 -/

/-- The base modulus of P-521. -/
def p521Base : Modulus 9 :=
  .ofNat 9
    0x1ffffffffffffffffffffffffffffffffffffffffffffffffffffffffffffffffffffffffffffffffffffffffffffffffffffffffffffffffffffffffffffffffff
    3 none (by decide +kernel)

/-- The order of P-521. -/
def p521Order : Modulus 9 :=
  .ofNat 9 (orderValue p521) 3
    (some 0x9a0a650d44b28c17f3d708ad2fa8c4fbc7e6000d7c12dafa92fcc5673a3055276d535f79ff391dcdbcd998b7836647d3a72472b3da861ac810a7f9c7b7b63e2205)
    (by decide +kernel)

/-- The equation of P-521. -/
def p521Curve : Curve 9 where
  base := p521Base
  a := -.ofWord 3
  b := .ofNat
    0x51953eb9618e1c9a1f929a21a0b68540eea2da725b99b315f3b8b489918ef109e156193951ec7e937b1652c0bd3bb1bf073573df883d2c34f1ef451fd46b503f00

/-- The domain parameters of P-521. -/
def p521Domain : Domain 9 :=
  .build p521Curve p521Order
    (.ofNat 0xc6858e06b70404e9cd9e3ecb662395b4429c648139053fb521f828af606b4d3dbaa14b5e77efe75928fe1dc127a2ffa8de3348b3c1856a429bf97e7e31c2e5bd66)
    (.ofNat 0x11839296a789a3bc0045c8a5fb42c7d1bd998f54449579b446817afbd17273e662c97ee72995ef42640c550b9013fad0761353c7086a272c24088be94769fd16650)
    (some 66) (by rintro _ ⟨⟩; decide +kernel)

/-- The domain parameters of a curve. -/
def domain : (curve : Nist) → Domain curve.limbs
  | p256 => p256Domain
  | p384 => p384Domain
  | p521 => p521Domain

end Nist
end ShortWeierstrass
