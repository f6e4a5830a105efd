/-
# The SHA-2 digests

A message is padded to whole blocks of 16 words, and every block is mixed into a
state of 8 words: its 16 words are expanded to one word a round, and each round
moves the state on by one word. SHA-256 does this in words of 32 bits, SHA-384 and
SHA-512 in words of 64 bits; `Variant` holds all that differs.

Key definitions: `Digest.Variant`, `Digest.Variant.digest`, `Hash`, `Hash.digest`.
-/
import ShortWeierstrass.Digest.Constants
import ShortWeierstrass.Limbs.Bytes

namespace ShortWeierstrass
namespace Digest

/-- The bytes of a number, most significant first. -/
def bigEndian : (count : Nat) → Nat → Bytes
  | 0, _ => []
  | count + 1, n => bigEndian count (n / 256) ++ [UInt8.ofNat n]

/-- Cuts `count` pieces of `size` elements. -/
def pieces {α : Type} (size : Nat) : (count : Nat) → List α → List (List α)
  | 0, _ => []
  | count + 1, xs => xs.take size :: pieces size count (xs.drop size)

/-- The eight words of a state. -/
structure State (W : Type) where
  a : W
  b : W
  c : W
  d : W
  e : W
  f : W
  g : W
  h : W

namespace State

variable {W : Type}

/-- The words in order. -/
def words (s : State W) : List W := [s.a, s.b, s.c, s.d, s.e, s.f, s.g, s.h]

/-- The state of the first eight words of a list, zero where there is none. -/
def ofWords (zero : W) (ws : List W) : State W :=
  ⟨ws.getD 0 zero, ws.getD 1 zero, ws.getD 2 zero, ws.getD 3 zero,
   ws.getD 4 zero, ws.getD 5 zero, ws.getD 6 zero, ws.getD 7 zero⟩

/-- Adds two states word by word. -/
def add [Add W] (s t : State W) : State W :=
  ⟨s.a + t.a, s.b + t.b, s.c + t.c, s.d + t.d, s.e + t.e, s.f + t.f, s.g + t.g, s.h + t.h⟩

end State

/-- What distinguishes the digests of the family, for words of type `W`. -/
structure Variant (W : Type) where
  wordBytes : Nat
  ofNat : Nat → W
  toNat : W → Nat
  /-- The functions that expand a block. -/
  expand₀ : W → W
  expand₁ : W → W
  /-- The functions that mix the state. -/
  mix₀ : W → W
  mix₁ : W → W
  rounds : List W
  start : List W
  digestBytes : Nat

namespace Variant

variable {W : Type} [Add W] [AndOp W] [XorOp W] [Complement W] (v : Variant W)

/-- A block is 16 words. -/
def blockBytes : Nat := 16 * v.wordBytes

/-- The message, one bit, zeros up to a whole block less two words, and the
length of the message in bits. -/
def pad (message : Bytes) : Bytes :=
  let taken := message.length + 1 + 2 * v.wordBytes
  let zeros := (v.blockBytes - taken % v.blockBytes) % v.blockBytes
  message ++ 0x80 :: List.replicate zeros 0
    ++ bigEndian (2 * v.wordBytes) (8 * message.length)

/-- The words of a block and as many more as there are rounds, each made from the
16 words before it. -/
def schedule : (count : Nat) → List W → List W
  | 0, _ => []
  | count + 1, window =>
    let zero := v.ofNat 0
    let next := v.expand₁ (window.getD 14 zero) + window.getD 9 zero
      + v.expand₀ (window.getD 1 zero) + window.getD 0 zero
    window.getD 0 zero :: schedule count (window.drop 1 ++ [next])

/-- One round, with the constant and the word that belong to it. -/
def round (s : State W) (input : W × W) : State W :=
  let choice := (s.e &&& s.f) ^^^ (~~~s.e &&& s.g)
  let majority := (s.a &&& s.b) ^^^ (s.a &&& s.c) ^^^ (s.b &&& s.c)
  let t₁ := s.h + v.mix₁ s.e + choice + input.1 + input.2
  let t₂ := v.mix₀ s.a + majority
  ⟨t₁ + t₂, s.a, s.b, s.c, s.d + t₁, s.e, s.f, s.g⟩

/-- Mixes a block into the state. -/
def compress (s : State W) (block : Bytes) : State W :=
  let words := (pieces v.wordBytes 16 block).map fun piece => v.ofNat (Bytes.value piece)
  s.add ((v.rounds.zip (v.schedule v.rounds.length words)).foldl v.round s)

/-- The digest of a message. -/
def digest (message : Bytes) : Bytes :=
  let padded := v.pad message
  let blocks := pieces v.blockBytes (padded.length / v.blockBytes) padded
  let final := blocks.foldl v.compress (State.ofWords (v.ofNat 0) v.start)
  (final.words.flatMap fun w => bigEndian v.wordBytes (v.toNat w)).take v.digestBytes

end Variant

/-! ### The three digests -/

/-- Moves the bits of a word down, the lowest ones back to the top. -/
def rotate32 (w : UInt32) (amount : UInt32) : UInt32 := (w >>> amount) ||| (w <<< (32 - amount))

/-- Moves the bits of a word down, the lowest ones back to the top. -/
def rotate64 (w : UInt64) (amount : UInt64) : UInt64 := (w >>> amount) ||| (w <<< (64 - amount))

/-- SHA-256. -/
def sha256 : Variant UInt32 where
  wordBytes := 4
  ofNat := UInt32.ofNat
  toNat := UInt32.toNat
  expand₀ w := rotate32 w 7 ^^^ rotate32 w 18 ^^^ (w >>> 3)
  expand₁ w := rotate32 w 17 ^^^ rotate32 w 19 ^^^ (w >>> 10)
  mix₀ w := rotate32 w 2 ^^^ rotate32 w 13 ^^^ rotate32 w 22
  mix₁ w := rotate32 w 6 ^^^ rotate32 w 11 ^^^ rotate32 w 25
  rounds := (cubeRoots.take 64).map fun w : UInt64 => (w >>> 32).toUInt32
  start := squareRoots.map fun w : UInt64 => (w >>> 32).toUInt32
  digestBytes := 32

/-- SHA-512. -/
def sha512 : Variant UInt64 where
  wordBytes := 8
  ofNat := UInt64.ofNat
  toNat := UInt64.toNat
  expand₀ w := rotate64 w 1 ^^^ rotate64 w 8 ^^^ (w >>> 7)
  expand₁ w := rotate64 w 19 ^^^ rotate64 w 61 ^^^ (w >>> 6)
  mix₀ w := rotate64 w 28 ^^^ rotate64 w 34 ^^^ rotate64 w 39
  mix₁ w := rotate64 w 14 ^^^ rotate64 w 18 ^^^ rotate64 w 41
  rounds := cubeRoots
  start := squareRoots
  digestBytes := 64

/-- SHA-384: SHA-512 from another start, cut to 48 bytes. -/
def sha384 : Variant UInt64 := { sha512 with start := laterSquareRoots, digestBytes := 48 }

end Digest

/-- The digests that a message can be signed through. -/
inductive Hash where
  | sha256
  | sha384
  | sha512
  deriving DecidableEq, Repr

/-- The digest of a message. -/
def Hash.digest : Hash → Bytes → Bytes
  | .sha256 => Digest.sha256.digest
  | .sha384 => Digest.sha384.digest
  | .sha512 => Digest.sha512.digest

end ShortWeierstrass
