/-
# Sampling by rejection takes the first chunk below the modulus, without bias

A stream is read in chunks of `L` words. Masking the top word of a chunk leaves its number modulo
`2^b`, `b` the bits of the modulus (`Words.toNat_maskTop`), provided that the modulus has bits in
its top word. A loop of draws on the stream takes one step for each chunk
(`Modulus.retry_drawLimbs_of_accept`, `Modulus.retry_drawLimbs_of_reject`), so by induction on the
number of the first chunk that passes its test it ends behind that chunk
(`Modulus.FirstChunk.outcome_retry`), and at the end of the stream if none passes
(`Modulus.outcome_retry_of_forall_not`).

A number of `L` words is a pair of its lowest `b` bits and the bits above them
(`Limbs.splitBits`). The loop reads only the lowest, so what passes on the first attempt is counted
there, and every number comes with all values of the bits above (`Limbs.card_lowest_bits`).

Key definitions: `Modulus.candidate`, `Modulus.FirstChunk`, `Drawn.outcome`, `Limbs.splitBits`.
Key theorems: `Words.toNat_maskTop`, `Modulus.topMask_eq_ok`, `Modulus.FirstChunk.outcome_retry`,
`Residue.outcome_random_of_firstChunk`, `Limbs.card_lowest_bits`, `Residue.random_unbiased`.
-/
import Mathlib
import ShortWeierstrass.Proofs.ResidueRing
import ShortWeierstrass.Residue.Random

namespace ShortWeierstrass

variable {L : ℕ}

/-! ### What a draw leaves -/

namespace Drawn

variable {α β : Type}

/-- The value and the words that are left, without the proof that there are fewer. -/
def outcome {stream : List Word} (drawn : Except Fault (Drawn α stream)) :
    Except Fault (α × List Word) :=
  drawn.map fun drawn => (drawn.value, drawn.rest)

theorem outcome_eq_ok {stream : List Word} {drawn : Except Fault (Drawn α stream)} {value : α}
    {rest : List Word} :
    outcome drawn = .ok (value, rest) ↔ ∃ d, drawn = .ok d ∧ d.value = value ∧ d.rest = rest := by
  unfold outcome
  cases drawn <;> simp [Except.map]

theorem outcome_eq_error {stream : List Word} {drawn : Except Fault (Drawn α stream)}
    {fault : Fault} : outcome drawn = .error fault ↔ drawn = .error fault := by
  unfold outcome
  cases drawn <;> simp [Except.map]

variable {draw : (stream : List Word) → Except Fault (Drawn α stream)} {accept : α → Option β}
  {stream : List Word}

theorem retry_of_error {fault : Fault} (failed : draw stream = .error fault) :
    retry draw accept stream = .error fault := by
  unfold retry
  rw [failed]

theorem outcome_retry_of_some {drawn : Drawn α stream} {value : β} (ok : draw stream = .ok drawn)
    (some : accept drawn.value = some value) :
    outcome (retry draw accept stream) = .ok (value, drawn.rest) := by
  unfold retry
  rw [ok]
  simp only [some]
  rfl

theorem outcome_retry_of_none {drawn : Drawn α stream} (ok : draw stream = .ok drawn)
    (none : accept drawn.value = none) :
    outcome (retry draw accept stream) = outcome (retry draw accept drawn.rest) := by
  rw [retry.eq_def, ok]
  simp only [none]
  cases retry draw accept drawn.rest <;> rfl

end Drawn

/-! ### The mask -/

namespace Words

theorem toNat_maskTop {mask : Word} {bits : ℕ} (ones : mask.toNat = 2 ^ bits - 1) :
    ∀ ws : List Word, ws ≠ [] →
      toNat (maskTop mask ws) = toNat ws % 2 ^ (64 * (ws.length - 1) + bits)
  | [], nonempty => absurd rfl nonempty
  | [w], _ => by
    simp only [maskTop, toNat_cons, toNat_nil, UInt64.toNat_and, ones,
      Nat.and_two_pow_sub_one_eq_mod]
    simp
  | w :: v :: ws, _ => by
    have lt := Word.toNat_lt_base w
    have exponent : 64 * ((w :: v :: ws).length - 1) + bits =
        64 + (64 * ((v :: ws).length - 1) + bits) := by
      simp only [List.length_cons]
      omega
    rw [maskTop, toNat_cons, toNat_maskTop ones (v :: ws) (by simp), exponent]
    · generalize 64 * ((v :: ws).length - 1) + bits = low
      rw [toNat_cons w, pow_add, Nat.mod_mul, Nat.add_mul_mod_self_left, Nat.mod_eq_of_lt lt,
        Nat.add_mul_div_left _ _ (Nat.two_pow_pos 64), Nat.div_eq_of_lt lt, Nat.zero_add]
    · intro empty
      cases empty

theorem two_pow_le_of_getLastD {ws : List Word} (top : ws.getLastD 0 ≠ 0) :
    2 ^ (64 * (ws.length - 1)) ≤ toNat ws := by
  rcases List.eq_nil_or_concat ws with rfl | ⟨lower, w, rfl⟩
  · exact absurd rfl top
  · rw [List.concat_eq_append] at top ⊢
    rw [List.getLastD_concat] at top
    have pos : 0 < w.toNat := Nat.pos_of_ne_zero fun zero => top (UInt64.toNat_inj.mp zero)
    have le := Nat.le_mul_of_pos_right (2 ^ (64 * lower.length)) pos
    rw [toNat_append, List.length_append, List.length_singleton, Nat.add_sub_cancel, toNat_cons,
      toNat_nil, Nat.mul_zero, Nat.add_zero]
    omega

end Words

namespace Modulus

variable (m : Modulus L)

theorem size_le : m.value.toNat.size ≤ 64 * L := m.bitLength_eq_size ▸ m.bitLength_le

/-- The bits of the modulus reach into its top word. -/
theorem lt_size (top : m.value.words.getLastD 0 ≠ 0) : 64 * (L - 1) < m.value.toNat.size := by
  have le := Words.two_pow_le_of_getLastD top
  rw [m.value.length_words] at le
  exact Nat.lt_size.mpr le

/-- There is a mask for the top word, and it has a one for each bit of the modulus there. -/
theorem topMask_eq_ok (top : m.value.words.getLastD 0 ≠ 0) :
    ∃ mask, m.topMask = .ok mask ∧ mask.toNat = 2 ^ (m.value.toNat.size - 64 * (L - 1)) - 1 := by
  have le := m.bitLength_le
  have reaches : 64 * (L - 1) < m.bitLength := by
    rw [m.bitLength_eq_size]
    exact m.lt_size top
  refine ⟨_, dif_pos reaches, ?_⟩
  have all : (-1 : Word).toNat = 2 ^ 64 - (0 + 1) := by decide
  rw [Word.shiftRight_toNat, ← m.bitLength_eq_size, all]
  dsimp only
  generalize kept : m.bitLength - 64 * (L - 1) = bits
  -- Of 64 ones those are left that are not moved out.
  have product : 2 ^ 64 = 2 ^ (64 - bits) * 2 ^ bits := by
    rw [← pow_add]
    congr 1
    omega
  rw [product, Nat.mul_sub_div _ _ _ (by positivity), Nat.zero_div]

/-! ### Chunks -/

/-- The number that attempt `n` looks at: that of its `L` words, without the bits that the modulus
does not have. -/
def candidate (stream : List Word) (n : ℕ) : ℕ :=
  Words.toNat ((stream.drop (n * L)).take L) % 2 ^ m.value.toNat.size

theorem candidate_drop (stream : List Word) (n : ℕ) :
    m.candidate (stream.drop L) n = m.candidate stream (n + 1) := by
  unfold candidate
  rw [List.drop_drop, Nat.add_comm L, Nat.succ_mul]

theorem candidate_lt (stream : List Word) (n : ℕ) : m.candidate stream n < 2 ^ (64 * L) :=
  (Nat.mod_lt _ (Nat.two_pow_pos _)).trans_le (Nat.pow_le_pow_right (by decide) m.size_le)

theorem candidate_words (u : Limbs L) :
    m.candidate u.words 0 = u.toNat % 2 ^ m.value.toNat.size := by
  unfold candidate
  rw [Nat.zero_mul, List.drop_zero, List.take_of_length_le u.length_words.le]
  rfl

/-- Chunk `n` is the first to pass a test, and it is complete. -/
structure FirstChunk (test : ℕ → Prop) (stream : List Word) (n : ℕ) : Prop where
  complete : (n + 1) * L ≤ stream.length
  passes : test (m.candidate stream n)
  first : ∀ k < n, ¬ test (m.candidate stream k)

variable {m} {test : ℕ → Prop} {stream : List Word} {n : ℕ}

theorem FirstChunk.drop (h : m.FirstChunk test stream (n + 1)) :
    m.FirstChunk test (stream.drop L) n where
  complete := by
    have complete := h.complete
    rw [Nat.succ_mul] at complete
    rw [List.length_drop]
    omega
  passes := by
    rw [m.candidate_drop]
    exact h.passes
  first := by
    intro k lt
    rw [m.candidate_drop]
    exact h.first (k + 1) (by omega)

theorem exists_firstChunk_or (m : Modulus L) (test : ℕ → Prop) (stream : List Word) :
    (∃ n, m.FirstChunk test stream n) ∨
      ∀ n, (n + 1) * L ≤ stream.length → ¬ test (m.candidate stream n) := by
  classical
  by_cases some : ∃ n, (n + 1) * L ≤ stream.length ∧ test (m.candidate stream n)
  · obtain ⟨complete, passes⟩ := Nat.find_spec some
    refine .inl ⟨Nat.find some, complete, passes, fun k lt earlier => ?_⟩
    refine Nat.find_min some lt ⟨le_trans ?_ complete, earlier⟩
    exact Nat.mul_le_mul_right L (by omega)
  · exact .inr fun n complete passes => some ⟨n, complete, passes⟩

/-! ### Loops over chunks -/

section Loop

variable {β : Type} {mask : Word} {accept : Limbs L → Option β}

theorem drawLimbs_of_short (short : stream.length < L) :
    m.drawLimbs mask stream = .error .exhausted :=
  dif_neg (by omega)

variable (ones : mask.toNat = 2 ^ (m.value.toNat.size - 64 * (L - 1)) - 1)
  (top : m.value.words.getLastD 0 ≠ 0)

include ones top

theorem drawLimbs_of_le (le : L ≤ stream.length) :
    ∃ drawn, m.drawLimbs mask stream = .ok drawn ∧
      drawn.value = .ofNat L (m.candidate stream 0) ∧ drawn.rest = stream.drop L := by
  refine ⟨_, dif_pos le, ?_, rfl⟩
  have pos := m.limbs_pos
  have lt := m.lt_size top
  have length : (stream.take L).length = L := by
    rw [List.length_take]
    omega
  have nonempty : stream.take L ≠ [] := by
    intro empty
    rw [empty, List.length_nil] at length
    omega
  have bits : 64 * (L - 1) + (m.value.toNat.size - 64 * (L - 1)) = m.value.toNat.size := by omega
  rw [← Limbs.toNat_inj, Limbs.toNat_ofNat_of_lt (m.candidate_lt stream 0), candidate,
    Nat.zero_mul, List.drop_zero]
  show Words.toNat (Words.maskTop mask (stream.take L)) = _
  rw [Words.toNat_maskTop ones _ nonempty, length, bits]

theorem retry_drawLimbs_of_accept {value : β} (le : L ≤ stream.length)
    (accepted : accept (.ofNat L (m.candidate stream 0)) = some value) :
    Drawn.outcome (Drawn.retry (m.drawLimbs mask) accept stream) =
      .ok (value, stream.drop L) := by
  obtain ⟨drawn, ok, isCandidate, rest⟩ := drawLimbs_of_le ones top le
  rw [← isCandidate] at accepted
  rw [Drawn.outcome_retry_of_some ok accepted, rest]

/-- An attempt that does not pass is as if its chunk had not been there. -/
theorem retry_drawLimbs_of_reject (le : L ≤ stream.length)
    (rejected : accept (.ofNat L (m.candidate stream 0)) = none) :
    Drawn.outcome (Drawn.retry (m.drawLimbs mask) accept stream) =
      Drawn.outcome (Drawn.retry (m.drawLimbs mask) accept (stream.drop L)) := by
  obtain ⟨drawn, ok, isCandidate, rest⟩ := drawLimbs_of_le ones top le
  rw [← isCandidate] at rejected
  rw [Drawn.outcome_retry_of_none ok rejected, rest]

variable (rejects : ∀ k < 2 ^ (64 * L), ¬ test k → accept (.ofNat L k) = none)

include rejects

/-- **The loop takes the first chunk that passes**, and leaves the words behind it. -/
theorem FirstChunk.outcome_retry : ∀ {n : ℕ} {stream : List Word} {value : β},
    m.FirstChunk test stream n → accept (.ofNat L (m.candidate stream n)) = some value →
    Drawn.outcome (Drawn.retry (m.drawLimbs mask) accept stream) =
      .ok (value, stream.drop ((n + 1) * L))
  | 0, stream, value, h, accepted => by
    have complete := h.complete
    rw [Nat.zero_add, Nat.one_mul] at complete ⊢
    exact retry_drawLimbs_of_accept ones top complete accepted
  | n + 1, stream, value, h, accepted => by
    have complete := h.complete
    rw [Nat.succ_mul] at complete
    have rejected := rejects _ (m.candidate_lt stream 0) (h.first 0 n.succ_pos)
    rw [← m.candidate_drop] at accepted
    rw [retry_drawLimbs_of_reject ones top (by omega) rejected, h.drop.outcome_retry accepted,
      List.drop_drop, Nat.add_comm L, ← Nat.succ_mul]

/-- If no complete chunk passes, the loop runs to the end of the stream. -/
theorem outcome_retry_of_forall_not (stream : List Word)
    (fails : ∀ n, (n + 1) * L ≤ stream.length → ¬ test (m.candidate stream n)) :
    Drawn.outcome (Drawn.retry (m.drawLimbs mask) accept stream) = .error .exhausted := by
  have pos := m.limbs_pos
  by_cases le : L ≤ stream.length
  · -- The chunk is rejected, and the chunks behind it are those of the rest.
    have rejected := rejects _ (m.candidate_lt stream 0) (fails 0 (by omega))
    rw [retry_drawLimbs_of_reject ones top le rejected]
    apply outcome_retry_of_forall_not (stream.drop L)
    intro n complete
    rw [List.length_drop] at complete
    rw [m.candidate_drop]
    refine fails (n + 1) ?_
    rw [Nat.succ_mul]
    omega
  · exact Drawn.outcome_eq_error.mpr (Drawn.retry_of_error (drawLimbs_of_short (by omega)))
termination_by stream.length
decreasing_by
  rw [List.length_drop]
  omega

end Loop
end Modulus

/-! ### Residues -/

namespace Residue

variable {m : Modulus L} {stream : List Word} {n : ℕ} (top : m.value.words.getLastD 0 ≠ 0)

theorem ofLimbs?_ofNat_of_not_lt (k : ℕ) (fits : k < 2 ^ (64 * L)) (h : ¬ k < m.value.toNat) :
    (ofLimbs? (.ofNat L k) : Option (Residue m)) = none := by
  apply ofLimbs?_eq_none
  rwa [Limbs.toNat_ofNat_of_lt fits]

include top

theorem random_eq_retry : ∃ mask, mask.toNat = 2 ^ (m.value.toNat.size - 64 * (L - 1)) - 1 ∧
    ∀ stream, random m stream = Drawn.retry (m.drawLimbs mask) ofLimbs? stream := by
  obtain ⟨mask, masked, ones⟩ := m.topMask_eq_ok top
  refine ⟨mask, ones, fun stream => ?_⟩
  unfold random
  rw [masked]
  rfl

theorem outcome_random_of_firstChunk (h : m.FirstChunk (· < m.value.toNat) stream n) :
    Drawn.outcome (random m stream) =
      .ok (.ofNat (m.candidate stream n), stream.drop ((n + 1) * L)) := by
  obtain ⟨mask, ones, loop⟩ := random_eq_retry top
  have accepted : (ofLimbs? (.ofNat L (m.candidate stream n)) : Option (Residue m)) =
      some (.ofNat (m.candidate stream n)) := by
    apply ofLimbs?_eq_some
    rw [Limbs.toNat_ofNat_of_lt (m.candidate_lt stream n)]
    exact h.passes
  rw [loop, h.outcome_retry ones top ofLimbs?_ofNat_of_not_lt accepted]

theorem random_of_forall_le
    (fails : ∀ n, (n + 1) * L ≤ stream.length → m.value.toNat ≤ m.candidate stream n) :
    random m stream = .error .exhausted := by
  obtain ⟨mask, ones, loop⟩ := random_eq_retry top
  rw [loop, ← Drawn.outcome_eq_error]
  exact Modulus.outcome_retry_of_forall_not ones top ofLimbs?_ofNat_of_not_lt stream
    fun n complete => not_lt.mpr (fails n complete)

/-- The residue drawn, with its value and the words that it took. -/
theorem exists_random_of_firstChunk (h : m.FirstChunk (· < m.value.toNat) stream n) :
    ∃ drawn, random m stream = .ok drawn ∧ drawn.value.StandsFor (m.candidate stream n : ℕ) ∧
      drawn.value.value.toNat = m.candidate stream n ∧
      drawn.rest = stream.drop ((n + 1) * L) ∧ drawn.used = (n + 1) * L := by
  obtain ⟨drawn, ok, value, rest⟩ := Drawn.outcome_eq_ok.mp (outcome_random_of_firstChunk top h)
  have complete := h.complete
  have stands := ofNat_standsFor (m := m) (m.candidate_lt stream n)
  rw [← value] at stands
  refine ⟨drawn, ok, stands, ?_, rest, ?_⟩
  · rw [stands.value_toNat, ZMod.val_natCast, Nat.mod_eq_of_lt h.passes]
  · rw [Drawn.used, rest, List.length_drop]
    omega

theorem random_eq_exhausted_iff : random m stream = .error .exhausted ↔
    ∀ n, (n + 1) * L ≤ stream.length → m.value.toNat ≤ m.candidate stream n := by
  constructor
  · intro exhausted
    rcases m.exists_firstChunk_or (· < m.value.toNat) stream with ⟨n, first⟩ | fails
    · obtain ⟨drawn, ok, -⟩ := exists_random_of_firstChunk top first
      rw [exhausted] at ok
      cases ok
    · exact fun n complete => not_lt.mp (fails n complete)
  · exact random_of_forall_le top

/-! ### One chunk -/

/-- The words of one number are drawn as its lowest bits, if those are below the modulus. -/
theorem random_words (u : Limbs L) :
    (∃ drawn, random m u.words = .ok drawn ∧
      drawn.value.value.toNat = u.toNat % 2 ^ m.value.toNat.size ∧
      u.toNat % 2 ^ m.value.toNat.size < m.value.toNat) ∨
    (random m u.words = .error .exhausted ∧
      m.value.toNat ≤ u.toNat % 2 ^ m.value.toNat.size) := by
  have pos := m.limbs_pos
  have length := u.length_words
  rw [← m.candidate_words]
  rcases Nat.lt_or_ge (m.candidate u.words 0) m.value.toNat with lt | ge
  · have first : m.FirstChunk (· < m.value.toNat) u.words 0 :=
      ⟨by omega, lt, fun k negative => absurd negative (Nat.not_lt_zero k)⟩
    obtain ⟨drawn, ok, -, value, -⟩ := exists_random_of_firstChunk top first
    exact .inl ⟨drawn, ok, value, lt⟩
  · refine .inr ⟨random_of_forall_le top ?_, ge⟩
    intro n complete
    have only : n = 0 := by
      by_contra later
      have le := Nat.mul_le_mul_right L (show 2 ≤ n + 1 by omega)
      omega
    rw [only]
    exact ge

theorem exists_random_words_iff (u : Limbs L) :
    (∃ drawn, random m u.words = .ok drawn) ↔
      u.toNat % 2 ^ m.value.toNat.size < m.value.toNat := by
  rcases random_words top u with ⟨drawn, ok, -, lt⟩ | ⟨exhausted, ge⟩
  · exact iff_of_true ⟨drawn, ok⟩ lt
  · refine iff_of_false ?_ (not_lt.mpr ge)
    rintro ⟨drawn, ok⟩
    rw [exhausted] at ok
    cases ok

theorem exists_random_words_value_iff (u : Limbs L) {v : ℕ} (below : v < m.value.toNat) :
    (∃ drawn, random m u.words = .ok drawn ∧ drawn.value.value.toNat = v) ↔
      u.toNat % 2 ^ m.value.toNat.size = v := by
  rcases random_words top u with ⟨drawn, ok, value, -⟩ | ⟨exhausted, ge⟩
  · constructor
    · rintro ⟨_, ok', rfl⟩
      rw [ok] at ok'
      cases ok'
      exact value.symm
    · rintro rfl
      exact ⟨drawn, ok, value⟩
  · constructor
    · rintro ⟨_, ok, -⟩
      rw [exhausted] at ok
      cases ok
    · rintro rfl
      exact absurd below (not_lt.mpr ge)

end Residue

/-! ### Counting chunks -/

namespace Limbs

/-- Numbers of `L` words are those below `2^(64 L)`. -/
def equivFin : Limbs L ≃ Fin (2 ^ (64 * L)) where
  toFun u := ⟨u.toNat, u.toNat_lt⟩
  invFun i := ofNat L i
  left_inv u := ofNat_toNat u
  right_inv i := Fin.ext (toNat_ofNat_of_lt i.isLt)

theorem card_eq : Nat.card (Limbs L) = 2 ^ (64 * L) := by
  rw [Nat.card_congr equivFin, Nat.card_fin]

/-- A number as its lowest bits and the bits above them. -/
def splitBits {bits : ℕ} (le : bits ≤ 64 * L) :
    Limbs L ≃ Fin (2 ^ bits) × Fin (2 ^ (64 * L - bits)) :=
  equivFin.trans <| (finCongr (by rw [← pow_add, Nat.sub_add_cancel le])).trans <|
    finProdFinEquiv.symm.trans (Equiv.prodComm _ _)

theorem splitBits_fst {bits : ℕ} (le : bits ≤ 64 * L) (u : Limbs L) :
    ((splitBits le u).1 : ℕ) = u.toNat % 2 ^ bits := rfl

/-- What is told of the lowest bits holds with all values of the bits above them. -/
theorem card_lowest_bits {bits : ℕ} (le : bits ≤ 64 * L) (P : ℕ → Prop) :
    Nat.card {u : Limbs L // P (u.toNat % 2 ^ bits)} =
      Nat.card {i : Fin (2 ^ bits) // P i} * 2 ^ (64 * L - bits) := by
  have split : {u : Limbs L // P (u.toNat % 2 ^ bits)} ≃
      {e : Fin (2 ^ bits) × Fin (2 ^ (64 * L - bits)) // P e.1} :=
    (splitBits le).subtypeEquiv fun u => by rw [splitBits_fst]
  have product :=
    split.trans (Equiv.prodSubtypeFstEquivSubtypeProd (p := fun i : Fin (2 ^ bits) => P i))
  rw [Nat.card_congr product, Nat.card_prod, Nat.card_fin]

end Limbs

namespace Modulus

variable (m : Modulus L)

/-- More than half of the numbers with the bits of an odd modulus are below it. -/
theorem two_pow_size_lt : 2 ^ m.value.toNat.size < 2 * m.value.toNat := by
  have ge := m.three_le
  have odd := m.odd
  have pos : 1 < m.value.toNat.size := Nat.lt_size.mpr (by omega)
  have low : 2 ^ (m.value.toNat.size - 1) ≤ m.value.toNat := Nat.lt_size.mp (by omega)
  have even : 2 ^ (m.value.toNat.size - 1) = 2 * 2 ^ (m.value.toNat.size - 2) := by
    rw [← pow_succ']
    congr 1
    omega
  have double : 2 ^ m.value.toNat.size = 2 * 2 ^ (m.value.toNat.size - 1) := by
    rw [← pow_succ']
    congr 1
    omega
  omega

end Modulus

namespace Residue

section Card

variable {m : Modulus L} (top : m.value.words.getLastD 0 ≠ 0)

include top

/-- As many chunks are drawn as each value as there are values of the bits that are cleared. -/
theorem card_chunks_of_value {v : ℕ} (below : v < m.value.toNat) :
    Nat.card {u : Limbs L //
        ∃ drawn, random m u.words = .ok drawn ∧ drawn.value.value.toNat = v} =
      2 ^ (64 * L - m.value.toNat.size) := by
  have fits : v < 2 ^ m.value.toNat.size := below.trans (Nat.lt_size_self _)
  have one : Nat.card {i : Fin (2 ^ m.value.toNat.size) // (i : ℕ) = v} = 1 := by
    have only : ∀ i : Fin (2 ^ m.value.toNat.size), (i : ℕ) = v ↔ i = ⟨v, fits⟩ := fun i => by
      rw [Fin.ext_iff]
    simp only [only]
    exact Nat.card_unique
  simp only [exists_random_words_value_iff top _ below]
  rw [Limbs.card_lowest_bits m.size_le (· = v), one, Nat.one_mul]

theorem card_chunks_accepted :
    Nat.card {u : Limbs L // ∃ drawn, random m u.words = .ok drawn} =
      m.value.toNat * 2 ^ (64 * L - m.value.toNat.size) := by
  simp only [exists_random_words_iff top]
  rw [Limbs.card_lowest_bits m.size_le (· < m.value.toNat), Nat.card_eq_fintype_card,
    Fintype.card_fin_lt_of_le (Nat.lt_size_self _).le]

end Card

/-- **Rejection sampling is exact and without bias.** Modulo any odd number whose top word is not
zero, a draw gives the first complete chunk of `L` words whose number, taken modulo the power of
two above the modulus, is below the modulus, and takes the words up to the end of that chunk. It
comes to the end of the stream exactly if no complete chunk is like that. Of the `2^(64 L)` chunks
equally many are drawn as each value, and more than half are drawn at all. -/
theorem random_unbiased (m : Modulus L) (top : m.value.words.getLastD 0 ≠ 0) :
    (∀ (stream : List Word) (n : ℕ), m.FirstChunk (· < m.value.toNat) stream n →
      ∃ drawn, random m stream = .ok drawn ∧ drawn.value.Canonical ∧
        drawn.value.value.toNat = m.candidate stream n ∧
        drawn.rest = stream.drop ((n + 1) * L) ∧ drawn.used = (n + 1) * L) ∧
    (∀ stream : List Word, random m stream = .error .exhausted ↔
      ∀ n, (n + 1) * L ≤ stream.length → m.value.toNat ≤ m.candidate stream n) ∧
    Nat.card (Limbs L) = 2 ^ (64 * L) ∧
    (∀ v < m.value.toNat,
      Nat.card {chunk : Limbs L //
        ∃ drawn, random m chunk.words = .ok drawn ∧ drawn.value.value.toNat = v} =
          2 ^ (64 * L - m.value.toNat.size)) ∧
    2 ^ (64 * L) <
      2 * Nat.card {chunk : Limbs L // ∃ drawn, random m chunk.words = .ok drawn} := by
  refine ⟨?_, fun stream => random_eq_exhausted_iff top, Limbs.card_eq,
    fun v below => card_chunks_of_value top below, ?_⟩
  · intro stream n first
    obtain ⟨drawn, ok, stands, taken⟩ := exists_random_of_firstChunk top first
    exact ⟨drawn, ok, stands.canonical, taken⟩
  · rw [card_chunks_accepted top]
    have cleared := Nat.two_pow_pos (64 * L - m.value.toNat.size)
    calc 2 ^ (64 * L) = 2 ^ m.value.toNat.size * 2 ^ (64 * L - m.value.toNat.size) := by
          rw [← pow_add, Nat.add_sub_cancel' m.size_le]
      _ < 2 * m.value.toNat * 2 ^ (64 * L - m.value.toNat.size) :=
          Nat.mul_lt_mul_of_pos_right m.two_pow_size_lt cleared
      _ = 2 * (m.value.toNat * 2 ^ (64 * L - m.value.toNat.size)) := Nat.mul_assoc _ _ _

/-- Modulo `2^89 - 1`, in two words: the first chunk is the modulus once the bits that the modulus
does not have are cleared, and the second is drawn as 5. -/
theorem random_unbiased_mersenne :
    let m : Modulus 2 := .ofNat 2 (2 ^ 89 - 1) 3 none (by decide +kernel)
    let ones : Word := 0xffffffffffffffff
    let stream : List Word := [ones, ones, 5, 0x8000000000000000, 7]
    m.value.words.getLastD 0 ≠ 0 ∧ m.FirstChunk (· < m.value.toNat) stream 1 ∧
      (∃ drawn, random m stream = .ok drawn ∧ drawn.value.value.toNat = 5 ∧
        drawn.rest = [7] ∧ drawn.used = 4) ∧
      random m [ones, ones, 5] = .error .exhausted ∧
      Nat.card {chunk : Limbs 2 //
        ∃ drawn, random m chunk.words = .ok drawn ∧ drawn.value.value.toNat = 5} = 2 ^ 39 := by
  intro m ones stream
  have top : m.value.words.getLastD 0 ≠ 0 := by decide +kernel
  have size : m.value.toNat.size = 89 := by decide +kernel
  have first : m.FirstChunk (· < m.value.toNat) stream 1 :=
    ⟨by decide +kernel, by decide +kernel, by decide +kernel⟩
  obtain ⟨takes, exhausted, -, values, -⟩ := random_unbiased m top
  obtain ⟨five, ok, -, value, rest, used⟩ := takes stream 1 first
  have card := values 5 (by decide +kernel)
  rw [size] at card
  refine ⟨top, first, ⟨five, ok, value.trans (by decide +kernel), rest, used⟩, ?_, card⟩
  refine (exhausted _).mpr fun n complete => ?_
  have only : n = 0 := by
    change (n + 1) * 2 ≤ 3 at complete
    omega
  rw [only]
  decide +kernel

end Residue
end ShortWeierstrass
