import Arcint.Fit.AtDepth

/-! # When the search refuses a load

The search starts at the requested chunk and descends while the context it leaves asks for a
smaller one. It ends on the largest chunk that agrees with its own depth, and does not leave the
request when the request's charge leaves no page at all.
-/

namespace Arcint.Fit

namespace BeltRequest

/-- The fit that pays for the scratch of a chunk. Without a geometry nothing is priced. -/
def chargedFit (v : BeltRequest) (maxPartitions : Nat) (base : FitTerms) (chunk : Nat) :
    FitResult :=
  if v.requestedChunk = 0 ∨ v.heads = 0 ∨ v.headSize = 0 ∨ v.elementBytes = 0 then
    fitContext base
  else fitContext (v.charged maxPartitions base chunk)

/-- The belt answers the chunk at the depth that the chunk's own charge leaves. -/
def Agrees (v : BeltRequest) (maxPartitions : Nat) (base : FitTerms) (chunk : Nat) : Prop :=
  0 < (v.chargedFit maxPartitions base chunk).maxCtx ∧
    v.belt (partitionsForBelt maxPartitions (v.chargedFit maxPartitions base chunk).maxCtx) = chunk

instance (v : BeltRequest) (maxPartitions : Nat) (base : FitTerms) (chunk : Nat) :
    Decidable (v.Agrees maxPartitions base chunk) :=
  inferInstanceAs (Decidable (_ ∧ _))

variable {v : BeltRequest} {maxPartitions : Nat} {base : FitTerms}

/-- A geometry that prices a chunk. -/
structure Priceable (v : BeltRequest) : Prop where
  chunk : 0 < v.requestedChunk
  heads : 0 < v.heads
  headSize : 0 < v.headSize
  elementBytes : 0 < v.elementBytes

theorem Priceable.valid (h : v.Priceable) (hblock : 0 < v.blockSize) : v.Valid :=
  ⟨h.chunk, h.heads, h.headSize, h.elementBytes, hblock⟩

theorem Priceable.guard (h : v.Priceable) :
    ¬(v.requestedChunk = 0 ∨ v.heads = 0 ∨ v.headSize = 0 ∨ v.elementBytes = 0) := by
  obtain ⟨hchunk, hheads, hsize, helement⟩ := h
  omega

theorem Priceable.chargedFit_maxCtx (h : v.Priceable) (chunk : Nat) :
    (v.chargedFit maxPartitions base chunk).maxCtx = v.contextAt maxPartitions base chunk := by
  unfold chargedFit
  rw [if_neg h.guard]
  rfl

theorem Priceable.sameVerdict_iff (h : v.Priceable) (chunk : Nat) :
    v.Agrees maxPartitions base chunk ↔
      0 < v.contextAt maxPartitions base chunk ∧ v.nextChunk maxPartitions base chunk = chunk := by
  unfold Agrees
  rw [h.chargedFit_maxCtx]
  rfl

/-! ## Where the search ends -/

/-- A request that the belt keeps at its own depth is where the search ends. -/
theorem search_of_kept (hchunk : 0 < v.requestedChunk)
    (hkept : v.nextChunk maxPartitions base v.requestedChunk = v.requestedChunk) :
    (v.search maxPartitions base).fit.maxCtx =
      v.contextAt maxPartitions base v.requestedChunk := by
  have hsettled : (v.climbRound maxPartitions base v.climbStart).chunk =
      (v.climbRound maxPartitions base v.climbStart).prevChunk := hkept
  rw [search_eq hchunk, climb_of_settled hsettled]
  rfl

/-- The search leaves context exactly when the request's own charge does. -/
theorem search_maxCtx_pos_iff (hpriced : v.Priceable) {chunk : Nat}
    (hagrees : v.Agrees maxPartitions base chunk) :
    0 < (v.search maxPartitions base).fit.maxCtx ↔
      0 < v.contextAt maxPartitions base v.requestedChunk := by
  rcases Nat.eq_zero_or_pos (v.contextAt maxPartitions base v.requestedChunk) with hnone | hroom
  · rw [search_of_kept hpriced.chunk (nextChunk_of_no_context hnone)]
  refine iff_of_true ?_ hroom
  by_cases hguard : v.blockSize = 0 ∨ v.scratchBudgetBytes = 0
  · -- the belt is off and hands the request back
    rw [search_of_kept hpriced.chunk]
    · exact hroom
    · rcases hguard with hnone | hnone
      · exact belt_of_guard (by simp [hnone])
      · exact belt_of_no_budget hnone _
  obtain ⟨hblock, hbudget⟩ := not_or.mp hguard
  have hvalid := hpriced.valid (Nat.pos_of_ne_zero hblock)
  have hsteady : ¬v.Swings maxPartitions base := by
    rintro ⟨hlifted, hbudget, -, hblocked⟩
    -- the chunk that agrees is the block
    obtain ⟨hcontext, hnext⟩ := (hpriced.sameVerdict_iff chunk).mp hagrees
    rw [nextChunk_of_lifted hvalid hlifted hbudget hcontext] at hnext
    rw [← hnext] at hcontext
    exact hblocked ((maxCtx_pos_iff _).mp hcontext)
  obtain ⟨⟨hsame, -⟩, hpay⟩ := settled_and_priced hvalid hsteady
  apply Nat.pos_of_ne_zero
  intro hnone
  rw [hpay.fit] at hnone
  -- without context the belt would have handed the request back
  have hback := hpay.chunk.trans (nextChunk_of_no_context hnone)
  rw [← hsame, hback] at hnone
  exact Nat.ne_of_gt hroom hnone

/-- A search that leaves context ends on a chunk that agrees, and no chunk that agrees leaves
less context. -/
theorem search_least (hpriced : v.Priceable)
    (hroom : 0 < (v.search maxPartitions base).fit.maxCtx) :
    v.Agrees maxPartitions base (v.search maxPartitions base).chunk ∧
      (v.search maxPartitions base).fit.maxCtx =
        v.contextAt maxPartitions base (v.search maxPartitions base).chunk ∧
      ∀ chunk, v.Agrees maxPartitions base chunk →
        (v.search maxPartitions base).fit.maxCtx ≤ v.contextAt maxPartitions base chunk := by
  obtain ⟨hcontext, hbelt⟩ := search_fixed_point hpriced.chunk hpriced.heads hpriced.headSize
    hpriced.elementBytes hroom
  rw [← partitionsForBelt_eq] at hbelt
  have hends : v.Agrees maxPartitions base (v.search maxPartitions base).chunk :=
    (hpriced.sameVerdict_iff _).mpr ⟨hcontext ▸ hroom, hbelt.symm⟩
  refine ⟨hends, hcontext, fun chunk hagrees => ?_⟩
  obtain ⟨hleft, hnext⟩ := (hpriced.sameVerdict_iff chunk).mp hagrees
  by_cases hflat : v.Lifted ∨ v.blockSize = 0
  · -- the belt has one answer at every depth
    have hsame := belt_eq_of_lifted_or_guard hflat
      (fun hblock => hpriced.valid (Nat.pos_of_ne_zero hblock))
      (@partitionsForBelt_pos maxPartitions _ hleft)
      (@partitionsForBelt_pos maxPartitions _ (Nat.lt_of_lt_of_eq hroom hcontext))
    have hchunk : chunk = (v.search maxPartitions base).chunk :=
      hnext.symm.trans (hsame.trans hbelt.symm)
    rw [hcontext, hchunk]
  obtain ⟨hkept, hblock⟩ := not_or.mp hflat
  have hvalid := hpriced.valid (Nat.pos_of_ne_zero hblock)
  have hshort : v.contextAt maxPartitions base
      (v.belt (partitionsForBelt maxPartitions (v.contextAt maxPartitions base chunk))) ≤
        v.contextAt maxPartitions base chunk :=
    Nat.le_of_eq (congrArg _ hnext)
  have hle : chunk ≤ (v.search maxPartitions base).chunk :=
    Nat.le_trans (Nat.le_of_eq hnext.symm) (belt_le_search hvalid hkept hshort)
  have hpos : 0 < chunk := Nat.lt_of_lt_of_eq (belt_pos hvalid _) hnext
  rw [hcontext]
  exact contextAt_anti hvalid hpos hle (Nat.lt_of_lt_of_eq hroom hcontext)

end BeltRequest

theorem admissible_iff (t : FitTerms) :
    (fitContext t).admissible = true ↔
      0 < (fitContext t).maxCtx ∧ t.nCtxFloor ≤ (fitContext t).maxCtx := by
  simp [fitContext]

namespace BeltRequest

variable {v : BeltRequest} {maxPartitions : Nat} {base : FitTerms}

/-- The floor is not charged. -/
theorem chargedFit_admissible (chunk : Nat) :
    (v.chargedFit maxPartitions base chunk).admissible = true ↔
      0 < (v.chargedFit maxPartitions base chunk).maxCtx ∧
        base.nCtxFloor ≤ (v.chargedFit maxPartitions base chunk).maxCtx := by
  unfold chargedFit
  split
  · exact admissible_iff base
  · exact admissible_iff _

theorem search_admissible (hpriced : v.Priceable) :
    (v.search maxPartitions base).fit.admissible = true ↔
      0 < (v.search maxPartitions base).fit.maxCtx ∧
        base.nCtxFloor ≤ (v.search maxPartitions base).fit.maxCtx := by
  rw [(search_priced hpriced.chunk).fit]
  exact admissible_iff _

/-- Given a chunk whose own fit is admissible and has the belt answer it, the load is admitted
exactly when the request's charge leaves a page and no chunk that agrees with its own depth is
short of the floor. A chunk that the belt answers is a rung under the cap, or the request itself
where the belt is off. -/
theorem fitContextPackedValues_admits_iff (v : BeltRequest) (maxPartitions : Nat)
    (base : FitTerms) {rung : Nat}
    (hadmissible : (v.chargedFit maxPartitions base rung).admissible = true)
    (hbelt : v.belt (partitionsForBelt maxPartitions
      (v.chargedFit maxPartitions base rung).maxCtx) = rung) :
    (fitContextPackedValues base v true maxPartitions false).fit.admissible = true ↔
      0 < (v.chargedFit maxPartitions base v.requestedChunk).maxCtx ∧
        ∀ chunk, v.Agrees maxPartitions base chunk →
          base.nCtxFloor ≤ (v.chargedFit maxPartitions base chunk).maxCtx := by
  obtain ⟨hpos, hfloor⟩ := (chargedFit_admissible rung).mp hadmissible
  have hagrees : v.Agrees maxPartitions base rung := ⟨hpos, hbelt⟩
  by_cases hguard : v.requestedChunk = 0 ∨ v.heads = 0 ∨ v.headSize = 0 ∨ v.elementBytes = 0
  · -- nothing is priced: every chunk has the fit of the bare terms
    have hfit : ∀ chunk, v.chargedFit maxPartitions base chunk = fitContext base :=
      fun chunk => if_pos hguard
    simp only [fitContextPackedValues, if_pos hguard, hfit] at hpos hfloor ⊢
    exact iff_of_true ((admissible_iff base).mpr ⟨hpos, hfloor⟩) ⟨hpos, fun _ _ => hfloor⟩
  have hpriced : v.Priceable := by
    constructor <;> omega
  have hresult : (fitContextPackedValues base v true maxPartitions false).fit =
      (v.search maxPartitions base).fit := by
    simp [fitContextPackedValues, hguard]
  rw [hresult, search_admissible hpriced, search_maxCtx_pos_iff hpriced hagrees,
    hpriced.chargedFit_maxCtx]
  constructor
  · rintro ⟨hroom, hdeep⟩
    refine ⟨hroom, fun chunk hchunk => ?_⟩
    rw [hpriced.chargedFit_maxCtx]
    exact hdeep.trans
      ((search_least hpriced ((search_maxCtx_pos_iff hpriced hagrees).mpr hroom)).2.2 chunk hchunk)
  · rintro ⟨hroom, hdeep⟩
    obtain ⟨hends, hcontext, -⟩ :=
      search_least hpriced ((search_maxCtx_pos_iff hpriced hagrees).mpr hroom)
    have hlast := hdeep _ hends
    rw [hpriced.chargedFit_maxCtx, ← hcontext] at hlast
    exact ⟨hroom, hlast⟩

/-- A chunk that agrees leaves at least the context of the request. -/
theorem request_le_of_agrees (hpriced : v.Priceable) (hblock : 0 < v.blockSize)
    (hkept : ¬v.Lifted) (hroom : 0 < v.contextAt maxPartitions base v.requestedChunk) {chunk : Nat}
    (hagrees : v.Agrees maxPartitions base chunk) :
    v.contextAt maxPartitions base v.requestedChunk ≤
      (v.chargedFit maxPartitions base chunk).maxCtx := by
  have hvalid := hpriced.valid hblock
  rw [hpriced.chargedFit_maxCtx]
  refine contextAt_anti hvalid ?_ ?_ hroom
  · rw [← hagrees.2]
    exact belt_pos hvalid _
  · rw [← hagrees.2]
    exact belt_le hvalid hkept _

/-- With 500 MB left the charge of 2048 leaves the floor, and the load is admitted. -/
theorem fitContextPackedValues_admits_500MB :
    (fitContextPackedValues (bytesLeft 500000000) (sixteenHeads 2048 32) true 32
      false).fit.admissible = true := by
  refine (@fitContextPackedValues_admits_iff (sixteenHeads 2048 32) 32 (bytesLeft 500000000) 128
    (by decide) (by decide)).mpr ⟨by decide, fun chunk hagrees => ?_⟩
  have hpriced : (sixteenHeads 2048 32).Priceable :=
    ⟨by decide, by decide, by decide, by decide⟩
  have hleast := request_le_of_agrees hpriced (by decide) (by decide) (by decide) hagrees
  exact (by decide : 4096 ≤ (sixteenHeads 2048 32).contextAt 32 (bytesLeft 500000000) 2048).trans
    hleast

/-- With 200 MB left the charge of 2048 leaves no page and the load is refused, while the charge
of 128, which is what the belt would serve, leaves 19 thousand tokens. -/
theorem fitContextPackedValues_refuses_200MB :
    packedValuesMeasuredChunkCap 2048 32 kMaxMeasuredPackedValuesChunk = 128 ∧
      ((sixteenHeads 2048 32).chargedFit 32 (bytesLeft 200000000) 128).admissible = true ∧
      (sixteenHeads 2048 32).Agrees 32 (bytesLeft 200000000) 128 ∧
      (fitContextPackedValues (bytesLeft 200000000) (sixteenHeads 2048 32) true 32
        false).fit.admissible = false :=
  ⟨by decide, by decide, by decide, by decide⟩

end BeltRequest

end Arcint.Fit
