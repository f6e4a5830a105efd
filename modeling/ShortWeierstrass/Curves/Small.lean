/-
# Curves small enough to look at

Four curves of prime order in one word, on which the rare cases are common: a
first coordinate that is not below the order, a signature with `r = 0`, a base
modulus that is one more than a power of two, and an order with fewer bytes than
the coordinates.

Key definitions: `Small.mod251`, `Small.mod257`, `Small.mod1000003`, `Small.oneWord`.
-/
import ShortWeierstrass.Domain

namespace ShortWeierstrass
namespace Small

/-! ### Coordinates and order in one byte -/

/-- The base modulus of the curve modulo 251. -/
def mod251Base : Modulus 1 :=
  .ofNat 1 251 2 none (by decide +kernel)

/-- The order of the curve modulo 251. -/
def mod251Order : Modulus 1 :=
  .ofNat 1 239 7 none (by decide +kernel)

/-- The equation of the curve modulo 251. -/
def mod251Curve : Curve 1 where
  base := mod251Base
  a := .ofNat 38
  b := .ofNat 108

/-- The domain parameters of the curve modulo 251. -/
def mod251 : Domain 1 :=
  .build mod251Curve mod251Order
    (.ofNat 72) (.ofNat 40) none (by simp)

/-! ### Coordinates in two bytes, order in one -/

/-- The base modulus of the curve modulo 257. -/
def mod257Base : Modulus 1 :=
  .ofNat 1 257 3 none (by decide +kernel)

/-- The order of the curve modulo 257. -/
def mod257Order : Modulus 1 :=
  .ofNat 1 241 7 none (by decide +kernel)

/-- The equation of the curve modulo 257. -/
def mod257Curve : Curve 1 where
  base := mod257Base
  a := .ofNat 42
  b := .ofNat 113

/-- The domain parameters of the curve modulo 257. -/
def mod257 : Domain 1 :=
  .build mod257Curve mod257Order
    (.ofNat 16) (.ofNat 68) (some 1) (by rintro _ ⟨⟩; decide +kernel)

/-! ### Coordinates and order in three bytes -/

/-- The base modulus of the curve modulo 1000003. -/
def mod1000003Base : Modulus 1 :=
  .ofNat 1 1000003 2 none (by decide +kernel)

/-- The order of the curve modulo 1000003. -/
def mod1000003Order : Modulus 1 :=
  .ofNat 1 999853 2 none (by decide +kernel)

/-- The equation of the curve modulo 1000003. -/
def mod1000003Curve : Curve 1 where
  base := mod1000003Base
  a := .ofNat 707225
  b := .ofNat 678605

/-- The domain parameters of the curve modulo 1000003. -/
def mod1000003 : Domain 1 :=
  .build mod1000003Curve mod1000003Order
    (.ofNat 269752) (.ofNat 229376) (some 3) (by rintro _ ⟨⟩; decide +kernel)

/-! ### Coordinates and order in a whole word -/

/-- The base modulus of the curve modulo `2^64 - 59`. -/
def oneWordBase : Modulus 1 :=
  .ofNat 1 0xffffffffffffffc5 2 none (by decide +kernel)

/-- The order of the curve modulo `2^64 - 59`. -/
def oneWordOrder : Modulus 1 :=
  .ofNat 1 0xffffffff6fc68f93 2 none (by decide +kernel)

/-- The equation of the curve modulo `2^64 - 59`. -/
def oneWordCurve : Curve 1 where
  base := oneWordBase
  a := .ofNat 0xfd0924b2e237b324
  b := .ofNat 0x7b415e88c85633ae

/-- The domain parameters of the curve modulo `2^64 - 59`. -/
def oneWord : Domain 1 :=
  .build oneWordCurve oneWordOrder
    (.ofNat 0x3e50e77ae4ea4f55)
    (.ofNat 0xe90c1bcbb3e60a9) none (by simp)

end Small
end ShortWeierstrass
