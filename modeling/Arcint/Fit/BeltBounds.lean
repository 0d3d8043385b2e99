import Arcint.Fit.ChunkBelt
import Mathlib.Logic.Relation
import Mathlib.Algebra.Order.Ring.Int

/-! # The belt over any call

The belt takes any integers, and passes a request through that it has nothing to price by. The
halving loop runs down to where it stops; what it serves is then served again at any smaller
depth. Only the measured cap may return more than was asked for.
-/

namespace Arcint.Fit

/-- The arguments of the belt besides the partitions. -/
structure BeltCall where
  requestedChunk : ℤ
  heads : ℤ
  headSize : ℤ
  elementBytes : ℤ
  scratchBudgetBytes : ℕ
  blockSize : ℤ
  deriving DecidableEq, Repr

/-- A pass of the halving loop. -/
def BeltRequest.Halves (v : BeltRequest) (partitions chunk next : ℕ) : Prop :=
  packedValuesChunkFits partitions v.heads v.headSize v.elementBytes v.scratchBudgetBytes chunk =
      false ∧ v.blockSize < chunk ∧ next = halveChunk v.blockSize chunk

namespace BeltRequest

variable {v : BeltRequest} {partitions : ℕ}

/-! ## The loop and its result -/

/-- A rung that is served or is one block is not halved any more. -/
theorem ladder_of_rung (hrung : packedValuesChunkFits partitions v.heads v.headSize v.elementBytes
      v.scratchBudgetBytes v.requestedChunk = true ∨ v.requestedChunk ≤ v.blockSize) :
    v.ladder partitions = v.requestedChunk := by
  unfold ladder
  cases hfuel : v.requestedChunk with
  | zero => rfl
  | succ fuel =>
      rw [hfuel] at hrung
      rw [budgetLadder, if_neg]
      rintro ⟨hover, hlarge⟩
      rcases hrung with hfits | hsmall
      · exact absurd hfits (by simp [hover])
      · exact absurd hsmall (Nat.not_le.mpr hlarge)

theorem ladder_fits_or_le (hvalid : v.Valid) (partitions : ℕ) :
    packedValuesChunkFits partitions v.heads v.headSize v.elementBytes v.scratchBudgetBytes
        (v.ladder partitions) = true ∨ v.ladder partitions ≤ v.blockSize :=
  budgetLadder_stops hvalid.blockSize le_rfl

theorem halves_ladder (v : BeltRequest) (partitions fuel chunk : ℕ) :
    Relation.ReflTransGen (v.Halves partitions) chunk
      (budgetLadder (packedValuesChunkFits partitions v.heads v.headSize v.elementBytes
        v.scratchBudgetBytes) v.blockSize fuel chunk) := by
  induction fuel generalizing chunk with
  | zero => exact .refl
  | succ fuel ih =>
      rw [budgetLadder]
      split
      next hstep => exact .head ⟨hstep.1, hstep.2, rfl⟩ (ih _)
      next => exact .refl

/-- A smaller chunk at a smaller depth needs no more scratch. -/
theorem fits_of_le {small large few many : ℕ} (hchunk : small ≤ large) (hdepth : few ≤ many)
    (hfits : packedValuesChunkFits many v.heads v.headSize v.elementBytes v.scratchBudgetBytes
      large = true) :
    packedValuesChunkFits few v.heads v.headSize v.elementBytes v.scratchBudgetBytes small =
      true := by
  have hsmall : packedValuesChunkFits many v.heads v.headSize v.elementBytes v.scratchBudgetBytes
      small = true := by
    simp only [packedValuesChunkFits, decide_eq_true_eq] at hfits ⊢
    refine le_trans ?_ hfits
    gcongr
  exact chunkFits_of_le hdepth hsmall

/-! ## Serving a served chunk again -/

/-- The cap leaves what it answers alone. -/
theorem measuredChunkCap_again {blockSize cap : ℕ} (hblock : 0 < blockSize) (hcap : 0 < cap)
    (chunk : ℕ) :
    packedValuesMeasuredChunkCap (packedValuesMeasuredChunkCap chunk blockSize cap) blockSize cap =
      packedValuesMeasuredChunkCap chunk blockSize cap := by
  rcases Nat.lt_or_ge cap chunk with hover | hunder
  · rw [packedValuesMeasuredChunkCap_of_gt hblock hcap hover]
    rcases Nat.lt_or_ge cap (max (cap / blockSize * blockSize) blockSize) with hlarge | hsmall
    · exact packedValuesMeasuredChunkCap_of_gt hblock hcap hlarge
    · exact packedValuesMeasuredChunkCap_of_le hsmall
  · rw [packedValuesMeasuredChunkCap_of_le hunder, packedValuesMeasuredChunkCap_of_le hunder]

/-- What the belt serves is a rung at any smaller depth. -/
theorem belt_rung (hvalid : v.Valid) (hbudget : 0 < v.scratchBudgetBytes) {few many : ℕ}
    (hmany : 0 < many) (hle : few ≤ many) :
    packedValuesChunkFits few v.heads v.headSize v.elementBytes v.scratchBudgetBytes
      (v.belt many) = true ∨ v.belt many ≤ v.blockSize := by
  have hladder := ladder_fits_or_le hvalid many
  have hbelt := belt_eq hvalid hbudget hmany
  rcases Nat.lt_or_ge kMaxMeasuredPackedValuesChunk (v.ladder many) with hover | hunder
  · rw [packedValuesMeasuredChunkCap_of_gt hvalid.blockSize (by decide) hover] at hbelt
    rcases hladder with hfits | hone
    · rcases Nat.lt_or_ge (v.ladder many) (v.belt many) with hlifted | hlow
      · -- only one block can be more than the rung it is served for
        right
        rw [hbelt] at hlifted ⊢
        have hwhole := Nat.div_mul_le_self kMaxMeasuredPackedValuesChunk v.blockSize
        omega
      · exact .inl (fits_of_le hlow hle hfits)
    · right
      rw [hbelt, Nat.div_eq_of_lt (hover.trans_le hone), Nat.zero_mul]
      exact Nat.max_le.mpr ⟨Nat.zero_le _, le_rfl⟩
  · rw [packedValuesMeasuredChunkCap_of_le hunder] at hbelt
    rw [hbelt]
    exact hladder.imp (fits_of_le le_rfl hle) id

/-- The loop leaves such a rung alone, and the cap what it answered. -/
theorem belt_again (hvalid : v.Valid) (hbudget : 0 < v.scratchBudgetBytes) {few many : ℕ}
    (hfew : 0 < few) (hle : few ≤ many) :
    { v with requestedChunk := v.belt many }.belt few = v.belt many := by
  have hmany : 0 < many := hfew.trans_le hle
  have hrung := belt_rung hvalid hbudget hmany hle
  have hcapped : packedValuesMeasuredChunkCap (v.belt many) v.blockSize
      kMaxMeasuredPackedValuesChunk = v.belt many := by
    rw [belt_eq hvalid hbudget hmany]
    exact measuredChunkCap_again hvalid.blockSize (by decide) _
  have hserved : ({ v with requestedChunk := v.belt many } : BeltRequest).Valid :=
    ⟨belt_pos hvalid many, hvalid.heads, hvalid.headSize, hvalid.elementBytes, hvalid.blockSize⟩
  have hladder := ladder_of_rung (v := { v with requestedChunk := v.belt many }) hrung
  rw [belt_eq hserved hbudget hfew, hladder]
  exact hcapped

theorem belt_antitone (hvalid : v.Valid) {few many : ℕ} (hfew : 0 < few) (hle : few ≤ many) :
    v.belt many ≤ v.belt few := by
  rcases belt_drop hvalid hfew hle with heq | ⟨hlt, -⟩
  · exact heq.le
  · exact hlt.le

end BeltRequest

/-! ## Calls -/

namespace BeltCall

/-- The request that a call makes of the belt, where its guard lets it through. -/
def request (c : BeltCall) : BeltRequest :=
  ⟨c.requestedChunk.toNat, c.heads.toNat, c.headSize.toNat, c.elementBytes.toNat,
    c.scratchBudgetBytes, c.blockSize.toNat⟩

/-- Nothing to price: the guard of the belt. -/
def Unpriced (c : BeltCall) (partitions : ℤ) : Prop :=
  c.requestedChunk ≤ 0 ∨ partitions ≤ 0 ∨ c.heads ≤ 0 ∨ c.headSize ≤ 0 ∨ c.elementBytes ≤ 0 ∨
    c.scratchBudgetBytes = 0 ∨ c.blockSize ≤ 0

instance (c : BeltCall) (partitions : ℤ) : Decidable (c.Unpriced partitions) :=
  inferInstanceAs (Decidable (_ ∨ _))

/-- `prefill_chunk_cap_for_packed_values_budget_only_ex`. -/
def budgetOnly (c : BeltCall) (partitions : ℤ) : ℤ :=
  if c.Unpriced partitions then c.requestedChunk
  else
    let v := c.request
    prefillChunkCapForPackedValuesBudgetOnlyEx v.requestedChunk partitions.toNat v.heads v.headSize
      v.elementBytes v.scratchBudgetBytes v.blockSize

/-- `prefill_chunk_cap_for_packed_values_ex`. -/
def belt (c : BeltCall) (partitions : ℤ) : ℤ :=
  if c.Unpriced partitions then c.requestedChunk else c.request.belt partitions.toNat

/-- `packed_values_scratch_fits_budget`. -/
def packedValuesScratchFitsBudget (c : BeltCall) (chunk partitions : ℤ) : Bool :=
  if chunk ≤ 0 ∨ partitions ≤ 0 ∨ c.heads ≤ 0 ∨ c.headSize ≤ 0 ∨ c.elementBytes ≤ 0 then true
  else
    packedValuesChunkFits partitions.toNat c.heads.toNat c.headSize.toNat c.elementBytes.toNat
      c.scratchBudgetBytes chunk.toNat

/-- The same call for another chunk. -/
def requesting (c : BeltCall) (chunk : ℤ) : BeltCall := { c with requestedChunk := chunk }

/-- The cap lifts the request to one block. -/
def Lifted (c : BeltCall) : Prop :=
  kMaxMeasuredPackedValuesChunk < c.requestedChunk ∧ c.requestedChunk < c.blockSize ∧
    0 < c.heads ∧ 0 < c.headSize ∧ 0 < c.elementBytes

/-- How the loop runs, and how the result depends on the depth. -/
structure Descends (c : BeltCall) (partitions : ℤ) : Prop where
  /-- Every pass of the loop lowers the chunk. -/
  lowers : ∀ {chunk next}, c.request.Halves partitions.toNat chunk next → next < chunk
  /-- The loop runs from the request to the result, and stops there. -/
  runs : Relation.ReflTransGen (c.request.Halves partitions.toNat) c.request.requestedChunk
    (c.budgetOnly partitions).toNat
  stops : ∀ next, ¬ c.request.Halves partitions.toNat (c.budgetOnly partitions).toNat next
  fits : c.packedValuesScratchFitsBudget (c.budgetOnly partitions) partitions = true ∨
    c.budgetOnly partitions ≤ c.blockSize
  antitone : ∀ more, partitions ≤ more → c.belt more ≤ c.belt partitions
  /-- At a smaller depth the served chunk is served again. -/
  stable : ∀ fewer, 1 ≤ fewer → fewer ≤ partitions →
    (c.requesting (c.belt partitions)).belt fewer = c.belt partitions

/-- What the belt does with a call. -/
structure Orderly (c : BeltCall) (partitions : ℤ) : Prop extends c.Descends partitions where
  le : c.belt partitions ≤ c.requestedChunk

variable {c : BeltCall} {partitions : ℤ}

theorem request_valid (h : ¬ c.Unpriced partitions) :
    c.request.Valid ∧ 0 < c.scratchBudgetBytes ∧ 0 < partitions.toNat := by
  simp only [Unpriced, not_or, not_le] at h
  obtain ⟨hchunk, hpartitions, hheads, hsize, helement, hbudget, hblock⟩ := h
  have hpos : ∀ {n : ℤ}, 0 < n → 0 < n.toNat := fun hn => Int.lt_toNat.mpr hn
  exact ⟨⟨hpos hchunk, hpos hheads, hpos hsize, hpos helement, hpos hblock⟩,
    Nat.pos_of_ne_zero hbudget, hpos hpartitions⟩

theorem budgetOnly_eq (h : ¬ c.Unpriced partitions) :
    c.budgetOnly partitions = c.request.ladder partitions.toNat := by
  obtain ⟨⟨hchunk, hheads, hsize, helement, hblock⟩, hbudget, hpartitions⟩ := request_valid h
  have hguard : ¬ (c.request.requestedChunk = 0 ∨ partitions.toNat = 0 ∨ c.request.heads = 0 ∨
      c.request.headSize = 0 ∨ c.request.elementBytes = 0 ∨ c.request.scratchBudgetBytes = 0 ∨
      c.request.blockSize = 0) := by
    simp only [not_or]
    exact ⟨hchunk.ne', hpartitions.ne', hheads.ne', hsize.ne', helement.ne', hbudget.ne',
      hblock.ne'⟩
  simp only [budgetOnly, if_neg h, prefillChunkCapForPackedValuesBudgetOnlyEx, if_neg hguard]
  rfl

theorem belt_eq (h : ¬ c.Unpriced partitions) :
    c.belt partitions = c.request.belt partitions.toNat := if_neg h

/-- The guard reads the partitions for their sign only. -/
theorem unpriced_iff {other : ℤ} (hone : 1 ≤ partitions) (hother : 1 ≤ other) :
    c.Unpriced other ↔ c.Unpriced partitions := by
  have hno : ¬ partitions ≤ 0 := by omega
  have hno' : ¬ other ≤ 0 := by omega
  simp only [Unpriced, hno, hno']

theorem lifted_request (h : ¬ c.Unpriced partitions) : c.request.Lifted ↔ c.Lifted := by
  simp only [Unpriced, not_or, not_le] at h
  obtain ⟨hchunk, -, hheads, hsize, helement, -, hblock⟩ := h
  simp only [BeltRequest.Lifted, Lifted, request, hheads, hsize, helement, and_true]
  omega

theorem request_requesting (h : ¬ c.Unpriced partitions) :
    (c.requesting (c.belt partitions)).request =
      { c.request with requestedChunk := c.request.belt partitions.toNat } := by
  rw [belt_eq h]
  simp [requesting, request]

theorem priced_requesting (h : ¬ c.Unpriced partitions) {other : ℤ} (hother : 1 ≤ other) :
    ¬ (c.requesting (c.belt partitions)).Unpriced other := by
  have hpositive := BeltRequest.belt_pos (request_valid h).1 partitions.toNat
  rw [belt_eq h]
  simp only [Unpriced, not_or, not_le, requesting] at h ⊢
  obtain ⟨-, -, hrest⟩ := h
  exact ⟨Int.natCast_pos.mpr hpositive, by omega, hrest⟩

/-- A pass of the loop lowers the chunk. -/
theorem lt_of_halves (hblock : 0 < c.blockSize) {chunk next : ℕ}
    (h : c.request.Halves partitions.toNat chunk next) : next < chunk := by
  obtain ⟨-, hlarge, rfl⟩ := h
  exact halveChunk_lt (Int.lt_toNat.mpr hblock) hlarge

/-- A call that is passed through has a proxy of zero. -/
theorem descends_of_unpriced (hone : 1 ≤ partitions) (hbudget : 0 < c.scratchBudgetBytes)
    (hblock : 0 < c.blockSize) (h : c.Unpriced partitions) : c.Descends partitions := by
  have hsame : ∀ {other}, 1 ≤ other → c.belt other = c.requestedChunk := fun hother =>
    if_pos ((unpriced_iff hone hother).mpr h)
  have hbudgetOnly : c.budgetOnly partitions = c.requestedChunk := if_pos h
  have hnothing : c.requestedChunk ≤ 0 ∨ partitions ≤ 0 ∨ c.heads ≤ 0 ∨ c.headSize ≤ 0 ∨
      c.elementBytes ≤ 0 := by
    rw [Unpriced] at h
    omega
  refine ⟨lt_of_halves hblock, ?_, ?_, ?_, ?_, ?_⟩
  · rw [hbudgetOnly]
    exact .refl
  · rintro next ⟨hover, -, -⟩
    rw [hbudgetOnly, packedValuesChunkFits, decide_eq_false_iff_not] at hover
    apply hover
    rcases hnothing with hzero | hzero | hzero | hzero | hzero
    · simp [Int.toNat_eq_zero.mpr hzero]
    · exact absurd hone (not_le.mpr (Int.lt_add_one_iff.mpr hzero))
    all_goals simp [request, Int.toNat_eq_zero.mpr hzero]
  · left
    rw [hbudgetOnly, packedValuesScratchFitsBudget, if_pos hnothing]
  · intro more hmore
    rw [hsame hone, hsame (hone.trans hmore)]
  · intro fewer hfewer _
    rw [hsame hone]
    exact hsame hfewer

theorem descends_of_priced (hone : 1 ≤ partitions) (hblock : 0 < c.blockSize)
    (h : ¬ c.Unpriced partitions) : c.Descends partitions := by
  obtain ⟨hvalid, hbudget, hpartitions⟩ := request_valid h
  have hrung := budgetOnly_eq h
  have hfits := BeltRequest.ladder_fits_or_le hvalid partitions.toNat
  refine ⟨lt_of_halves hblock, ?_, ?_, ?_, ?_, ?_⟩
  · rw [hrung]
    exact BeltRequest.halves_ladder _ _ _ _
  · rintro next ⟨hover, hlarge, -⟩
    rw [hrung, Int.toNat_natCast] at hover hlarge
    rcases hfits with hfits | hone
    · exact absurd hfits (by simp [hover])
    · exact absurd hone (Nat.not_le.mpr hlarge)
  · rw [hrung]
    rcases hfits with hfits | hone
    · left
      rw [packedValuesScratchFitsBudget]
      split
      · rfl
      · exact hfits
    · right
      have hsize : (c.request.blockSize : ℤ) = c.blockSize := Int.toNat_of_nonneg hblock.le
      omega
  · intro more hmore
    rw [belt_eq h, belt_eq (mt (unpriced_iff hone (hone.trans hmore)).mp h)]
    apply Int.ofNat_le.mpr
    exact BeltRequest.belt_antitone hvalid hpartitions (Int.toNat_le_toNat hmore)
  · intro fewer hfewer hless
    rw [belt_eq (priced_requesting h hfewer), request_requesting h, belt_eq h]
    exact congrArg _ (BeltRequest.belt_again hvalid hbudget (by omega) (Int.toNat_le_toNat hless))

/-- This much holds of every call. -/
theorem descends (hone : 1 ≤ partitions) (hbudget : 0 < c.scratchBudgetBytes)
    (hblock : 0 < c.blockSize) : c.Descends partitions := by
  by_cases h : c.Unpriced partitions
  · exact descends_of_unpriced hone hbudget hblock h
  · exact descends_of_priced hone hblock h

/-- The belt is orderly on every call but those that its measured cap lifts to one block. -/
theorem orderly_iff (hone : 1 ≤ partitions) (hbudget : 0 < c.scratchBudgetBytes)
    (hblock : 0 < c.blockSize) : c.Orderly partitions ↔ ¬ c.Lifted := by
  constructor
  · rintro horderly hlifted
    have hle := horderly.le
    have hpriced : ¬ c.Unpriced partitions := by
      obtain ⟨hover, -, hheads, hsize, helement⟩ := hlifted
      rw [Unpriced]
      omega
    obtain ⟨hvalid, -, hpartitions⟩ := request_valid hpriced
    rw [belt_eq hpriced, BeltRequest.belt_of_lifted hvalid ((lifted_request hpriced).mpr hlifted)
      hbudget hpartitions] at hle
    have hsize : (c.request.blockSize : ℤ) = c.blockSize := Int.toNat_of_nonneg hblock.le
    exact absurd (hsize ▸ hle) (not_le.mpr hlifted.2.1)
  · intro hkept
    refine ⟨descends hone hbudget hblock, ?_⟩
    by_cases h : c.Unpriced partitions
    · exact (if_pos h : c.belt partitions = _).le
    · have hle := BeltRequest.belt_le (request_valid h).1 (mt (lifted_request h).mp hkept)
        partitions.toNat
      rw [belt_eq h]
      rw [Unpriced] at h
      have hsize : (c.request.requestedChunk : ℤ) = c.requestedChunk :=
        Int.toNat_of_nonneg (by omega)
      omega

/-- The default request over blocks of 32. -/
theorem orderly_iff_blocks_of_32 :
    (BeltCall.mk 2048 16 256 2 536870912 32).Orderly 128 ↔
      ¬ (BeltCall.mk 2048 16 256 2 536870912 32).Lifted :=
  orderly_iff (by decide) (by decide) (by decide)

/-- A request of 200 over blocks of 256 is answered with a block. -/
theorem not_orderly_blocks_of_256 : ¬ (BeltCall.mk 200 16 128 2 536870912 256).Orderly 32 ∧
    (BeltCall.mk 200 16 128 2 536870912 256).belt 32 = 256 := by
  have hbelt : (BeltCall.mk 200 16 128 2 536870912 256).belt 32 = 256 := by decide
  refine ⟨fun horderly => ?_, hbelt⟩
  have hle := horderly.le
  rw [hbelt] at hle
  exact absurd hle (by decide)

end BeltCall

end Arcint.Fit
