/-
# Drawing residues from a stream of words

A random residue is drawn by rejection: take `L` words, least significant first,
clear the bits of the top word that the modulus does not have, and start over
with the next words while the number is not below the modulus. The words come
from a stream that may end; then there is no residue.

Every draw takes at least one word, so a loop of draws ends with the stream.
`retry` is that loop, for any draw and any test; it is used again where zero has
to be redrawn.

Key definitions: `Drawn`, `Drawn.retry`, `Modulus.topMask`, `Residue.random`.
-/
import ShortWeierstrass.Fault
import ShortWeierstrass.Residue.Basic

namespace ShortWeierstrass

/-- A value drawn from a stream of words, with the words that are left. -/
structure Drawn (α : Type) (stream : List Word) where
  value : α
  rest : List Word
  shorter : rest.length < stream.length

namespace Drawn

variable {α β : Type}

/-- The number of words that the draw took. -/
def used {stream : List Word} (drawn : Drawn α stream) : Nat :=
  stream.length - drawn.rest.length

/-- Repeats a draw on what is left of the stream until its value is accepted. -/
def retry (draw : (stream : List Word) → Except Fault (Drawn α stream)) (accept : α → Option β)
    (stream : List Word) : Except Fault (Drawn β stream) :=
  match draw stream with
  | .error fault => .error fault
  | .ok drawn =>
    match accept drawn.value with
    | some value => .ok ⟨value, drawn.rest, drawn.shorter⟩
    | none =>
      have := drawn.shorter
      match retry draw accept drawn.rest with
      | .error fault => .error fault
      | .ok later => .ok ⟨later.value, later.rest, Nat.lt_trans later.shorter drawn.shorter⟩
termination_by stream.length

end Drawn

namespace Words

/-- Clears the bits of the top word that are not in the mask. -/
def maskTop (mask : Word) : List Word → List Word
  | [] => []
  | [w] => [w &&& mask]
  | w :: ws => w :: maskTop mask ws

theorem length_maskTop (mask : Word) : ∀ ws : List Word, (maskTop mask ws).length = ws.length
  | [] => rfl
  | [_] => rfl
  | w :: v :: ws => by simp [maskTop, length_maskTop mask (v :: ws)]

end Words

variable {L : Nat}

/-- The mask of the bits that the modulus has in its top word. A modulus whose
top word is zero has none, and the count of its bits there would be negative or
the shift a whole word. -/
def Modulus.topMask (m : Modulus L) : Except Fault Word :=
  if h : 64 * (L - 1) < m.bitLength then
    .ok (Word.shiftRight (-1) ⟨64 - (m.bitLength - 64 * (L - 1)), by omega⟩)
  else
    .error .bitCount

/-- Takes the next `L` words as a number and masks its top word. -/
def Modulus.drawLimbs (m : Modulus L) (mask : Word) (stream : List Word) :
    Except Fault (Drawn (Limbs L) stream) :=
  if enough : L ≤ stream.length then
    .ok {
      value := ⟨Words.maskTop mask (stream.take L), by
        rw [Words.length_maskTop, List.length_take]
        omega⟩
      rest := stream.drop L
      shorter := by
        have := m.limbs_pos
        rw [List.length_drop]
        omega }
  else
    .error .exhausted

/-- Draws a residue, each with the same chance. -/
def Residue.random (m : Modulus L) (stream : List Word) :
    Except Fault (Drawn (Residue m) stream) := do
  let mask ← m.topMask
  Drawn.retry (m.drawLimbs mask) Residue.ofLimbs? stream

end ShortWeierstrass
