/-
# What stops an operation on bytes

The typed operations of this library are total. What can stop are the
operations on byte strings, texts and word streams of any length: an operation
that stops returns the `Fault` that names why, and no result. Which of two
faults is reported is part of each operation's meaning.

A fault is a breach of what the caller promised. A well-formed request that is
turned down (a point off the curve, a signature that does not match) is not a
fault but an answer, `false` or `none`, which tells nothing of its cause
(`refusalMessage`).

Key definitions: `Fault`, `Fault.message`, `refusalMessage`.
-/

namespace ShortWeierstrass

/-- The reasons for which an operation stops without a result. -/
inductive Fault where
  /-- More bytes to read than the number can hold. -/
  | inputTooLong
  /-- More bytes to write than the number has. -/
  | outputTooLong
  /-- A hexadecimal text of the wrong length. -/
  | hexLength
  /-- A character that is no hexadecimal digit. -/
  | hexDigit
  /-- A hexadecimal constant that is not below the modulus. -/
  | hexOverflow
  /-- The stream of random words came to its end. -/
  | exhausted
  /-- A byte string too short for the part read from or written to it. -/
  | outOfRange
  /-- A bit count that would be negative, or a shift by a whole word. -/
  | bitCount
  /-- Two roots, or none, where exactly one must exist. -/
  | rootCount
  deriving DecidableEq, Repr

/-- The text reported with a fault, if it has one. -/
def Fault.message : Fault → Option String
  | .inputTooLong => some "input too long"
  | .outputTooLong => some "output too long"
  | .hexLength => some "hex string is not the expected size"
  | .hexDigit => some "invalid hex byte"
  | .hexOverflow => some "hex encoded field element overflows modulus"
  | .exhausted => some "rng exhausted"
  | .outOfRange => none
  | .bitCount => none
  | .rootCount => none

/-- The text of the one answer to all input that is turned down. -/
def refusalMessage : String := "crypto error"

end ShortWeierstrass
