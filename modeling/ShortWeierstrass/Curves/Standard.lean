/-
# Other standard curves

Two smaller NIST curves, secp256k1 and brainpoolP256r1. Between them they have
what the larger NIST curves do not: `a` other than `-3`, a base modulus `p` with
`p - 1` divisible by `2^96`, coordinates of three words, and no comb.

Key definitions: `Standard.p192`, `Standard.p224`, `Standard.secp256k1`,
`Standard.brainpoolP256r1`.
-/
import ShortWeierstrass.Domain

namespace ShortWeierstrass
namespace Standard

/-! ### P-192 -/

/-- The base modulus of P-192. -/
def p192Base : Modulus 3 :=
  .ofNat 3 0xfffffffffffffffffffffffffffffffeffffffffffffffff 11 none
    (by decide +kernel)

/-- The order of P-192. -/
def p192Order : Modulus 3 :=
  .ofNat 3 0xffffffffffffffffffffffff99def836146bc9b1b4d22831 3 none
    (by decide +kernel)

/-- The equation of P-192. -/
def p192Curve : Curve 3 where
  base := p192Base
  a := -.ofWord 3
  b := .ofNat 0x64210519e59c80e70fa7e9ab72243049feb8deecc146b9b1

/-- The domain parameters of P-192. -/
def p192 : Domain 3 :=
  .build p192Curve p192Order
    (.ofNat 0x188da80eb03090f67cbf20eb43a18800f4ff0afd82ff1012)
    (.ofNat 0x7192b95ffc8da78631011ed6b24cdd573f977a11e794811)
    none (by simp)

/-! ### P-224 -/

/-- The base modulus of P-224. -/
def p224Base : Modulus 4 :=
  .ofNat 4 0xffffffffffffffffffffffffffffffff000000000000000000000001 11 none
    (by decide +kernel)

/-- The order of P-224. -/
def p224Order : Modulus 4 :=
  .ofNat 4 0xffffffffffffffffffffffffffff16a2e0b8f03e13dd29455c5c2a3d 2 none
    (by decide +kernel)

/-- The equation of P-224. -/
def p224Curve : Curve 4 where
  base := p224Base
  a := -.ofWord 3
  b := .ofNat 0xb4050a850c04b3abf54132565044b0b7d7bfd8ba270b39432355ffb4

/-- The domain parameters of P-224. -/
def p224 : Domain 4 :=
  .build p224Curve p224Order
    (.ofNat 0xb70e0cbd6bb4bf7f321390b94a03c1d356c21122343280d6115c1d21)
    (.ofNat 0xbd376388b5f723fb4c22dfe6cd4375a05a07476444d5819985007e34)
    (some 28) (by rintro _ ⟨⟩; decide +kernel)

/-! ### secp256k1 -/

/-- The base modulus of secp256k1. -/
def secp256k1Base : Modulus 4 :=
  .ofNat 4 0xfffffffffffffffffffffffffffffffffffffffffffffffffffffffefffffc2f 3 none
    (by decide +kernel)

/-- The order of secp256k1. -/
def secp256k1Order : Modulus 4 :=
  .ofNat 4 0xfffffffffffffffffffffffffffffffebaaedce6af48a03bbfd25e8cd0364141 5 none
    (by decide +kernel)

/-- The equation of secp256k1. -/
def secp256k1Curve : Curve 4 where
  base := secp256k1Base
  a := .ofNat 0x0
  b := .ofNat 0x7

/-- The domain parameters of secp256k1. -/
def secp256k1 : Domain 4 :=
  .build secp256k1Curve secp256k1Order
    (.ofNat 0x79be667ef9dcbbac55a06295ce870b07029bfcdb2dce28d959f2815b16f81798)
    (.ofNat 0x483ada7726a3c4655da4fbfc0e1108a8fd17b448a68554199c47d08ffb10d4b8)
    (some 32) (by rintro _ ⟨⟩; decide +kernel)

/-! ### brainpoolP256r1 -/

/-- The base modulus of brainpoolP256r1. -/
def brainpoolP256r1Base : Modulus 4 :=
  .ofNat 4 0xa9fb57dba1eea9bc3e660a909d838d726e3bf623d52620282013481d1f6e5377 11 none
    (by decide +kernel)

/-- The order of brainpoolP256r1. -/
def brainpoolP256r1Order : Modulus 4 :=
  .ofNat 4 0xa9fb57dba1eea9bc3e660a909d838d718c397aa3b561a6f7901e0e82974856a7 3 none
    (by decide +kernel)

/-- The equation of brainpoolP256r1. -/
def brainpoolP256r1Curve : Curve 4 where
  base := brainpoolP256r1Base
  a := .ofNat 0x7d5a0975fc2c3057eef67530417affe7fb8055c126dc5c6ce94a4b44f330b5d9
  b := .ofNat 0x26dc5c6ce94a4b44f330b5d9bbd77cbf958416295cf7e1ce6bccdc18ff8c07b6

/-- The domain parameters of brainpoolP256r1. -/
def brainpoolP256r1 : Domain 4 :=
  .build brainpoolP256r1Curve brainpoolP256r1Order
    (.ofNat 0x8bd2aeb9cb7e57cb2c4b482ffc81b7afb9de27e1e3bd23c23a4453bd9ace3262)
    (.ofNat 0x547ef835c3dac4fd97f8461a14611dc9c27745132ded8e545c1d54c72f046997)
    none (by simp)

end Standard
end ShortWeierstrass
