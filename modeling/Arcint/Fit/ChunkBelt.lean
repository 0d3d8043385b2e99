import Mathlib.Data.Nat.Basic
import Mathlib.Tactic.Linarith

/-! # The prefill chunk under 4-bit values

The scratch buffers of a prefill grow with its chunk and with the partitions of
the context. The belt halves a requested chunk until its buffer is within a
budget, and pulls the result down to the largest chunk that has been measured.
-/

namespace Arcint.Fit

def kMaxMeasuredPackedValuesChunk : Nat := 128

def kMaxMeasuredPackedValuesChunkMicro : Nat := 2048

/-- A request over the measured cap becomes the cap, in whole blocks and at
least one block. -/
def packedValuesMeasuredChunkCap (requestedChunk blockSize cap : Nat) : Nat :=
  if requestedChunk = 0 ∨ blockSize = 0 ∨ cap = 0 then requestedChunk
  else if requestedChunk ≤ cap then requestedChunk
  else
    let capped := cap / blockSize * blockSize
    if capped < blockSize then blockSize else capped

/-- Half a chunk, rounded up to whole blocks. (The source's `int` sum stays in
range for blocks of up to 2^30 tokens.) -/
def halveChunk (blockSize chunk : Nat) : Nat :=
  let next := (chunk / 2 + blockSize - 1) / blockSize * blockSize
  if next < blockSize then blockSize else next

/-- The halving loop. Every step lowers the chunk, so `fuel` is enough when it
is at least the chunk. -/
def budgetLadder (fits : Nat → Bool) (blockSize : Nat) : Nat → Nat → Nat
  | 0, chunk => chunk
  | fuel + 1, chunk =>
      if fits chunk = false ∧ blockSize < chunk then
        budgetLadder fits blockSize fuel (halveChunk blockSize chunk)
      else chunk

/-- The bytes of one buffer are within the budget. -/
def packedValuesChunkFits (partitions heads headSize elementBytes scratchBudgetBytes : Nat)
    (chunk : Nat) : Bool :=
  chunk * heads * headSize * elementBytes * partitions ≤ scratchBudgetBytes

def prefillChunkCapForPackedValuesBudgetOnlyEx (requestedChunk partitions heads headSize
    elementBytes scratchBudgetBytes blockSize : Nat) : Nat :=
  if requestedChunk = 0 ∨ partitions = 0 ∨ heads = 0 ∨ headSize = 0 ∨ elementBytes = 0 ∨
      scratchBudgetBytes = 0 ∨ blockSize = 0 then requestedChunk
  else
    budgetLadder (packedValuesChunkFits partitions heads headSize elementBytes scratchBudgetBytes)
      blockSize requestedChunk requestedChunk

def prefillChunkCapForPackedValuesEx (requestedChunk partitions heads headSize elementBytes
    scratchBudgetBytes blockSize : Nat) : Nat :=
  let chunk := prefillChunkCapForPackedValuesBudgetOnlyEx requestedChunk partitions heads headSize
    elementBytes scratchBudgetBytes blockSize
  if requestedChunk = 0 ∨ partitions = 0 ∨ heads = 0 ∨ headSize = 0 ∨ elementBytes = 0 ∨
      scratchBudgetBytes = 0 ∨ blockSize = 0 then chunk
  else packedValuesMeasuredChunkCap chunk blockSize kMaxMeasuredPackedValuesChunk

/-! ## The ladder -/

section Ladder

variable {blockSize : Nat}

theorem blockSize_le_halveChunk (chunk : Nat) : blockSize ≤ halveChunk blockSize chunk := by
  unfold halveChunk
  dsimp only
  split
  next => exact Nat.le_refl _
  next hle => exact Nat.le_of_not_lt hle

theorem dvd_halveChunk (chunk : Nat) : blockSize ∣ halveChunk blockSize chunk := by
  unfold halveChunk
  dsimp only
  split
  · exact Nat.dvd_refl _
  · exact Nat.dvd_mul_left _ _

/-- Halving keeps a chunk under half of any block bound it was under. -/
theorem halveChunk_le {chunk blocks : Nat} (hblock : 0 < blockSize)
    (hchunk : chunk ≤ 2 * blocks * blockSize) (hpos : 0 < blocks) :
    halveChunk blockSize chunk ≤ blocks * blockSize := by
  have hone : blockSize ≤ blocks * blockSize := Nat.le_mul_of_pos_left _ hpos
  unfold halveChunk
  dsimp only
  split
  next => exact hone
  next =>
    apply Nat.mul_le_mul_right
    apply Nat.le_of_lt_succ
    rw [Nat.div_lt_iff_lt_mul hblock, Nat.succ_mul]
    rw [Nat.mul_assoc] at hchunk
    omega

theorem halveChunk_lt {chunk : Nat} (hblock : 0 < blockSize) (hchunk : blockSize < chunk) :
    halveChunk blockSize chunk < chunk := by
  obtain ⟨q, r, hr, rfl⟩ : ∃ q r, r < blockSize ∧ chunk = q * blockSize + r :=
    ⟨chunk / blockSize, chunk % blockSize, Nat.mod_lt _ hblock, (Nat.div_add_mod' _ _).symm⟩
  -- the whole blocks of the chunk, one more for a rest
  have hq : 0 < q := by
    apply Nat.pos_of_ne_zero
    rintro rfl
    omega
  rcases Nat.eq_zero_or_pos r with rfl | hrest
  · have hq2 : 2 ≤ q := by
      apply Nat.lt_of_le_of_ne hq
      rintro rfl
      omega
    have hle : halveChunk blockSize (q * blockSize + 0) ≤ (q - 1) * blockSize := by
      apply halveChunk_le hblock _ (by omega)
      apply Nat.mul_le_mul_right
      omega
    have hlt : (q - 1) * blockSize < q * blockSize := Nat.mul_lt_mul_of_pos_right (by omega) hblock
    omega
  · have hle : halveChunk blockSize (q * blockSize + r) ≤ q * blockSize := by
      apply halveChunk_le hblock _ hq
      have hmore : (q + 1) * blockSize ≤ 2 * q * blockSize :=
        Nat.mul_le_mul_right _ (by omega)
      rw [Nat.succ_mul] at hmore
      omega
    omega

variable {fits fewer : Nat → Bool}

theorem budgetLadder_le (hblock : 0 < blockSize) (fuel chunk : Nat) :
    budgetLadder fits blockSize fuel chunk ≤ chunk := by
  induction fuel generalizing chunk with
  | zero => exact Nat.le_refl _
  | succ fuel ih =>
      unfold budgetLadder
      split
      next hstep => exact (ih _).trans (Nat.le_of_lt (halveChunk_lt hblock hstep.2))
      next => exact Nat.le_refl _

/-- The loop ends where the source's does: on a chunk that fits or is one block. -/
theorem budgetLadder_stops (hblock : 0 < blockSize) {fuel chunk : Nat} (hfuel : chunk ≤ fuel) :
    fits (budgetLadder fits blockSize fuel chunk) = true ∨
      budgetLadder fits blockSize fuel chunk ≤ blockSize := by
  induction fuel generalizing chunk with
  | zero => exact .inr (hfuel.trans (Nat.zero_le _))
  | succ fuel ih =>
      unfold budgetLadder
      split
      next hstep =>
        have hlower := halveChunk_lt hblock hstep.2
        exact ih (by omega)
      next hstop =>
        rcases Nat.lt_or_ge blockSize chunk with hlarge | hsmall
        · exact .inl (Bool.eq_true_of_not_eq_false fun hno => hstop ⟨hno, hlarge⟩)
        · exact .inr hsmall

/-- The result is the request itself or whole blocks, at least one. -/
theorem budgetLadder_eq_or_dvd (fuel chunk : Nat) :
    budgetLadder fits blockSize fuel chunk = chunk ∨
      blockSize ∣ budgetLadder fits blockSize fuel chunk ∧
        blockSize ≤ budgetLadder fits blockSize fuel chunk := by
  induction fuel generalizing chunk with
  | zero => exact .inl rfl
  | succ fuel ih =>
      unfold budgetLadder
      split
      next =>
        rcases ih (halveChunk blockSize chunk) with heq | hwhole
        · rw [heq]
          exact .inr ⟨dvd_halveChunk chunk, blockSize_le_halveChunk chunk⟩
        · exact .inr hwhole
      next => exact .inl rfl

/-- Where fewer chunks fit, the ladder goes at least as far down, and a step
further down is at least a halving. -/
theorem budgetLadder_of_fewer (hblock : 0 < blockSize)
    (hfewer : ∀ chunk, fewer chunk = true → fits chunk = true) (fuel chunk : Nat) :
    budgetLadder fewer blockSize fuel chunk = budgetLadder fits blockSize fuel chunk ∨
      blockSize < budgetLadder fits blockSize fuel chunk ∧
        budgetLadder fewer blockSize fuel chunk ≤
          halveChunk blockSize (budgetLadder fits blockSize fuel chunk) ∧
        blockSize ∣ budgetLadder fewer blockSize fuel chunk := by
  induction fuel generalizing chunk with
  | zero => exact .inl rfl
  | succ fuel ih =>
      by_cases hstep : fits chunk = false ∧ blockSize < chunk
      · have hsame : fewer chunk = false ∧ blockSize < chunk := by
          refine ⟨Bool.eq_false_of_not_eq_true fun hyes => ?_, hstep.2⟩
          rw [hfewer chunk hyes] at hstep
          cases hstep.1
        simp only [budgetLadder, if_pos hstep, if_pos hsame]
        exact ih _
      · by_cases hmore : fewer chunk = false ∧ blockSize < chunk
        · simp only [budgetLadder, if_neg hstep, if_pos hmore]
          refine .inr ⟨hmore.2, budgetLadder_le hblock _ _, ?_⟩
          rcases @budgetLadder_eq_or_dvd blockSize fewer fuel (halveChunk blockSize chunk) with
            heq | hwhole
          · rw [heq]
            exact dvd_halveChunk chunk
          · exact hwhole.1
        · simp only [budgetLadder, if_neg hstep, if_neg hmore]
          exact .inl trivial

end Ladder

/-! ## The belt -/

theorem packedValuesMeasuredChunkCap_of_le {chunk blockSize cap : Nat} (hle : chunk ≤ cap) :
    packedValuesMeasuredChunkCap chunk blockSize cap = chunk := by
  unfold packedValuesMeasuredChunkCap
  rw [if_pos hle]
  split <;> rfl

theorem packedValuesMeasuredChunkCap_of_gt {chunk blockSize cap : Nat} (hblock : 0 < blockSize)
    (hcap : 0 < cap) (hgt : cap < chunk) :
    packedValuesMeasuredChunkCap chunk blockSize cap =
      max (cap / blockSize * blockSize) blockSize := by
  unfold packedValuesMeasuredChunkCap
  rw [if_neg (by omega), if_neg (Nat.not_le_of_lt hgt)]
  dsimp only
  split
  next hlow => exact (Nat.max_eq_right (Nat.le_of_lt hlow)).symm
  next hhigh => exact (Nat.max_eq_left (Nat.le_of_not_lt hhigh)).symm

/-- A request the belt can work on. -/
structure BeltRequest where
  requestedChunk : Nat
  heads : Nat
  headSize : Nat
  elementBytes : Nat
  scratchBudgetBytes : Nat
  blockSize : Nat
  deriving DecidableEq, Repr

namespace BeltRequest

/-- Every quantity the belt reads is there. -/
structure Valid (v : BeltRequest) : Prop where
  chunk : 0 < v.requestedChunk
  heads : 0 < v.heads
  headSize : 0 < v.headSize
  elementBytes : 0 < v.elementBytes
  blockSize : 0 < v.blockSize

/-- The belt's chunk for a number of partitions. -/
def belt (v : BeltRequest) (partitions : Nat) : Nat :=
  prefillChunkCapForPackedValuesEx v.requestedChunk partitions v.heads v.headSize v.elementBytes
    v.scratchBudgetBytes v.blockSize

/-- The chunk of the halving ladder, before the measured cap. -/
def ladder (v : BeltRequest) (partitions : Nat) : Nat :=
  budgetLadder (packedValuesChunkFits partitions v.heads v.headSize v.elementBytes
    v.scratchBudgetBytes) v.blockSize v.requestedChunk v.requestedChunk

/-- The cap lifts a request that lies between it and one block. -/
def Lifted (v : BeltRequest) : Prop :=
  kMaxMeasuredPackedValuesChunk < v.requestedChunk ∧ v.requestedChunk < v.blockSize

instance (v : BeltRequest) : Decidable v.Lifted :=
  inferInstanceAs (Decidable (_ ∧ _))

variable {v : BeltRequest}

theorem belt_zero (v : BeltRequest) : v.belt 0 = v.requestedChunk := by
  simp [belt, prefillChunkCapForPackedValuesEx, prefillChunkCapForPackedValuesBudgetOnlyEx]

theorem belt_of_no_budget (hnone : v.scratchBudgetBytes = 0) (partitions : Nat) :
    v.belt partitions = v.requestedChunk := by
  simp [belt, prefillChunkCapForPackedValuesEx, prefillChunkCapForPackedValuesBudgetOnlyEx, hnone]

theorem belt_eq (hvalid : v.Valid) (hbudget : 0 < v.scratchBudgetBytes) {partitions : Nat}
    (hpartitions : 0 < partitions) :
    v.belt partitions = packedValuesMeasuredChunkCap (v.ladder partitions) v.blockSize
      kMaxMeasuredPackedValuesChunk := by
  obtain ⟨hchunk, hheads, hsize, helement, hblock⟩ := hvalid
  have hguard : ¬ (v.requestedChunk = 0 ∨ partitions = 0 ∨ v.heads = 0 ∨ v.headSize = 0 ∨
      v.elementBytes = 0 ∨ v.scratchBudgetBytes = 0 ∨ v.blockSize = 0) := by
    omega
  unfold belt prefillChunkCapForPackedValuesEx prefillChunkCapForPackedValuesBudgetOnlyEx
  rw [if_neg hguard, if_neg hguard]
  rfl

/-- More partitions, fewer chunks that fit. -/
theorem chunkFits_of_le {few many heads headSize elementBytes budget chunk : Nat}
    (hle : few ≤ many)
    (hfits : packedValuesChunkFits many heads headSize elementBytes budget chunk = true) :
    packedValuesChunkFits few heads headSize elementBytes budget chunk = true := by
  simp only [packedValuesChunkFits, decide_eq_true_eq] at hfits ⊢
  exact (Nat.mul_le_mul_left _ hle).trans hfits

/-- With more partitions the belt keeps its chunk or lowers it to a rung of the
ladder under the cap; from a rung under the cap that is at least a halving. -/
theorem belt_drop (hvalid : v.Valid) {few many : Nat} (hpos : 0 < few) (hle : few ≤ many) :
    v.belt many = v.belt few ∨
      v.belt many < v.belt few ∧ v.ladder many ≤ kMaxMeasuredPackedValuesChunk ∧
        v.belt many = v.ladder many ∧
        (v.ladder few ≤ kMaxMeasuredPackedValuesChunk →
          v.blockSize < v.belt few ∧ v.belt many ≤ halveChunk v.blockSize (v.belt few)) := by
  rcases Nat.eq_zero_or_pos v.scratchBudgetBytes with hnone | hbudget
  · left
    rw [belt_of_no_budget hnone, belt_of_no_budget hnone]
  rw [belt_eq hvalid hbudget hpos, belt_eq hvalid hbudget (Nat.lt_of_lt_of_le hpos hle)]
  have hladder : v.ladder many = v.ladder few ∨ v.blockSize < v.ladder few ∧
      v.ladder many ≤ halveChunk v.blockSize (v.ladder few) ∧ v.blockSize ∣ v.ladder many :=
    budgetLadder_of_fewer hvalid.blockSize (fun chunk => chunkFits_of_le hle) _ _
  rcases hladder with hsame | ⟨hlarge, hhalf, hdvd⟩
  · rw [hsame]
    exact .inl rfl
  have hless : v.ladder many < v.ladder few :=
    Nat.lt_of_le_of_lt hhalf (halveChunk_lt hvalid.blockSize hlarge)
  have hcap : 0 < kMaxMeasuredPackedValuesChunk := by decide
  rcases Nat.lt_or_ge kMaxMeasuredPackedValuesChunk (v.ladder many) with hover | hunder
  · -- both are over the cap
    left
    rw [packedValuesMeasuredChunkCap_of_gt hvalid.blockSize hcap hover,
      packedValuesMeasuredChunkCap_of_gt hvalid.blockSize hcap (hover.trans hless)]
  · rw [packedValuesMeasuredChunkCap_of_le hunder]
    rcases Nat.lt_or_ge kMaxMeasuredPackedValuesChunk (v.ladder few) with hfew | hfew
    · -- whole blocks under the cap are at most the cap in whole blocks
      rw [packedValuesMeasuredChunkCap_of_gt hvalid.blockSize hcap hfew]
      have hblocks : v.ladder many ≤
          kMaxMeasuredPackedValuesChunk / v.blockSize * v.blockSize := by
        obtain ⟨blocks, hblocks⟩ := hdvd
        rw [hblocks] at hunder ⊢
        rw [Nat.mul_comm v.blockSize] at hunder ⊢
        exact Nat.mul_le_mul_right _ ((Nat.le_div_iff_mul_le hvalid.blockSize).mpr hunder)
      rcases Nat.eq_or_lt_of_le (hblocks.trans (Nat.le_max_left _ v.blockSize)) with heq | hlt
      · exact .inl heq
      · exact .inr ⟨hlt, hunder, rfl, fun hno => absurd hno (Nat.not_le_of_lt hfew)⟩
    · rw [packedValuesMeasuredChunkCap_of_le hfew]
      exact .inr ⟨hless, hunder, rfl, fun _ => ⟨hlarge, hhalf⟩⟩

theorem ladder_le (hvalid : v.Valid) (partitions : Nat) :
    v.ladder partitions ≤ v.requestedChunk :=
  budgetLadder_le hvalid.blockSize _ _

/-- The belt never raises a chunk that is not lifted to one block. -/
theorem belt_le (hvalid : v.Valid) (hkept : ¬ v.Lifted) (partitions : Nat) :
    v.belt partitions ≤ v.requestedChunk := by
  rcases Nat.eq_zero_or_pos partitions with rfl | hpos
  · rw [belt_zero]
  rcases Nat.eq_zero_or_pos v.scratchBudgetBytes with hnone | hbudget
  · rw [belt_of_no_budget hnone]
  rw [belt_eq hvalid hbudget hpos]
  have hladder := ladder_le hvalid partitions
  rcases Nat.lt_or_ge kMaxMeasuredPackedValuesChunk (v.ladder partitions) with hover | hunder
  · rw [packedValuesMeasuredChunkCap_of_gt hvalid.blockSize (by decide) hover]
    have hblock : v.blockSize ≤ v.requestedChunk := by
      apply Nat.le_of_not_lt
      exact fun hlt => hkept ⟨Nat.lt_of_lt_of_le hover hladder, hlt⟩
    have hwhole := Nat.div_mul_le_self kMaxMeasuredPackedValuesChunk v.blockSize
    exact Nat.max_le.mpr ⟨by omega, hblock⟩
  · rw [packedValuesMeasuredChunkCap_of_le hunder]
    exact hladder

/-- A lifted request is served one block, whatever the depth. -/
theorem belt_of_lifted (hvalid : v.Valid) (hlifted : v.Lifted) (hbudget : 0 < v.scratchBudgetBytes)
    {partitions : Nat} (hpos : 0 < partitions) : v.belt partitions = v.blockSize := by
  obtain ⟨hover, hunder⟩ := hlifted
  have hladder : v.ladder partitions = v.requestedChunk := by
    unfold ladder
    cases hfuel : v.requestedChunk with
    | zero => rfl
    | succ fuel =>
        rw [hfuel] at hunder
        unfold budgetLadder
        rw [if_neg fun hstep => Nat.lt_asymm hunder hstep.2]
  rw [belt_eq hvalid hbudget hpos, hladder,
    packedValuesMeasuredChunkCap_of_gt hvalid.blockSize (by decide) hover]
  rw [Nat.div_eq_of_lt (hover.trans hunder), Nat.zero_mul]
  exact Nat.max_eq_right (Nat.zero_le _)

theorem belt_pos (hvalid : v.Valid) (partitions : Nat) : 0 < v.belt partitions := by
  rcases Nat.eq_zero_or_pos partitions with rfl | hpos
  · rw [belt_zero]
    exact hvalid.chunk
  rcases Nat.eq_zero_or_pos v.scratchBudgetBytes with hnone | hbudget
  · rw [belt_of_no_budget hnone]
    exact hvalid.chunk
  rw [belt_eq hvalid hbudget hpos]
  rcases Nat.lt_or_ge kMaxMeasuredPackedValuesChunk (v.ladder partitions) with hover | hunder
  · rw [packedValuesMeasuredChunkCap_of_gt hvalid.blockSize (by decide) hover]
    exact Nat.lt_of_lt_of_le hvalid.blockSize (Nat.le_max_right _ _)
  · rw [packedValuesMeasuredChunkCap_of_le hunder]
    have hblock := hvalid.blockSize
    have hchunk := hvalid.chunk
    rcases @budgetLadder_eq_or_dvd v.blockSize _ v.requestedChunk v.requestedChunk with
      heq | ⟨_, hle⟩
    · exact Nat.lt_of_lt_of_eq hchunk heq.symm
    · exact Nat.lt_of_lt_of_le hblock hle

end BeltRequest

end Arcint.Fit
