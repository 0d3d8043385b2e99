import Arcint.Fit.PackedValues

/-! # The fit at a requested depth

A load with an explicit context prices the buffers at that depth and nowhere
else, and both kinds of load keep one page of slack under the fit. A depth the
search adopts is admitted when asked for: the belt may serve a larger chunk below
the slack than above it, but then the search, which comes from above, has already
found that the larger chunk's charge leaves as much.
-/

namespace Arcint.Fit

/-- The fit of an explicit depth: the belt and the exact buffers there, no search. -/
def fitContextPackedValuesAtDepth (base : FitTerms) (v : BeltRequest) (depth maxPartitions : Nat)
    (beltEnabled mixedStageOnMicro : Bool) : PackedValuesFitTerm :=
  if v.requestedChunk = 0 ∨ v.heads = 0 ∨ v.headSize = 0 ∨ v.elementBytes = 0 ∨ depth = 0 then
    ⟨fitContext base, v.requestedChunk, 0, 0, 0⟩
  else if beltEnabled = false then
    ⟨fitContext base, v.requestedChunk, 0, 0, 1⟩
  else if mixedStageOnMicro then
    ⟨fitContext base, packedValuesMeasuredChunkCap v.requestedChunk v.blockSize
      kMaxMeasuredPackedValuesChunkMicro, 0, 0, 1⟩
  else
    let partitions := packedValuesBoundedPartitions depth maxPartitions
    let chunk := v.belt partitions
    let singleLane := v.scratch chunk partitions
    let lanes := max 1 base.lanes
    ⟨fitContext { base with activations := base.activations + singleLane * lanes }, chunk, 0,
      singleLane * lanes, 1⟩

/-- The ceiling both kinds of load use: the fit less one page. -/
def slackAdjusted (base : FitTerms) (r : PackedValuesFitTerm) : Nat :=
  r.fit.maxCtx - base.kvBlockTokens

/-- Whole pages are within the fit exactly when they are paid for. -/
theorem le_maxCtx_iff {t : FitTerms} {n : Nat} (hpos : 0 < n)
    (hpages : max 1 t.kvBlockTokens ∣ n) :
    n ≤ (fitContext t).maxCtx ↔
      0 < t.kvBytesToken ∧ t.fixed + max 1 t.lanes * n * t.kvBytesToken ≤ t.total := by
  constructor
  · intro hn
    exact ⟨((maxCtx_pos_iff t).mp (Nat.lt_of_lt_of_le hpos hn)).1, reserved_le_total hpos hn⟩
  · rintro ⟨hkv, hpaid⟩
    obtain ⟨pages, rfl⟩ := hpages
    have hblock : 0 < max 1 t.kvBlockTokens :=
      Nat.lt_of_lt_of_le Nat.zero_lt_one (Nat.le_max_left _ _)
    have hbytes : 0 < max 1 t.lanes * t.kvBytesToken :=
      Nat.mul_pos (Nat.lt_of_lt_of_le Nat.zero_lt_one (Nat.le_max_left _ _)) hkv
    rw [fitContext_maxCtx, Nat.mul_comm (max 1 t.kvBlockTokens) pages]
    apply Nat.mul_le_mul_right
    rw [Nat.le_div_iff_mul_le hblock, Nat.le_div_iff_mul_le hbytes]
    apply Nat.le_sub_of_add_le
    calc pages * max 1 t.kvBlockTokens * (max 1 t.lanes * t.kvBytesToken) + t.fixed
        = t.fixed + max 1 t.lanes * (max 1 t.kvBlockTokens * pages) * t.kvBytesToken := by ring
      _ ≤ t.total := hpaid

theorem maxCtx_pages (t : FitTerms) : max 1 t.kvBlockTokens ∣ (fitContext t).maxCtx := by
  rw [fitContext_maxCtx]
  exact Nat.dvd_mul_left _ _

namespace BeltRequest

variable {v : BeltRequest} {maxPartitions : Nat} {base : FitTerms}

/-- Without a block or without a budget the belt hands the request back. -/
theorem belt_of_guard {partitions : Nat}
    (hguard : v.requestedChunk = 0 ∨ v.heads = 0 ∨ v.headSize = 0 ∨ v.elementBytes = 0 ∨
      v.blockSize = 0) : v.belt partitions = v.requestedChunk := by
  have hguard' : v.requestedChunk = 0 ∨ partitions = 0 ∨ v.heads = 0 ∨ v.headSize = 0 ∨
      v.elementBytes = 0 ∨ v.scratchBudgetBytes = 0 ∨ v.blockSize = 0 := by
    tauto
  unfold belt prefillChunkCapForPackedValuesEx prefillChunkCapForPackedValuesBudgetOnlyEx
  rw [if_pos hguard', if_pos hguard']

/-- A search that swings ends on the block, whose charge leaves no context. -/
theorem search_maxCtx_of_swings (hvalid : v.Valid) (hswings : v.Swings maxPartitions base) :
    (v.search maxPartitions base).fit.maxCtx = 0 := by
  obtain ⟨hlifted, hbudget, hrequest, hblock⟩ := hswings
  have hnone : v.contextAt maxPartitions base v.blockSize = 0 :=
    Nat.eq_zero_of_not_pos fun hpos => hblock ((maxCtx_pos_iff _).mp hpos)
  have hout := nextChunk_of_lifted hvalid hlifted hbudget ((maxCtx_pos_iff _).mpr hrequest)
  obtain ⟨hchunk, _⟩ := climb_of_swings hout (nextChunk_of_no_context hnone)
    (Nat.ne_of_gt hlifted.2) 16 (rfl : v.climbStart.chunk = _) (Nat.ne_of_lt hvalid.chunk)
  have hpriced := @search_priced v maxPartitions base hvalid.chunk
  -- with context left the belt would have served the block, not the request
  apply Nat.eq_zero_of_not_pos
  intro hpos
  rw [hpriced.fit] at hpos
  have hserved := hpriced.chunk.trans (nextChunk_of_lifted hvalid hlifted hbudget hpos)
  exact Nat.ne_of_gt hlifted.2 (hserved.symm.trans hchunk)

/-- A search that leaves context ends on a chunk which the belt serves at that
context, and the context is the one the chunk's charge leaves. -/
theorem search_fixed_point (hchunk : 0 < v.requestedChunk) (hheads : 0 < v.heads)
    (hsize : 0 < v.headSize) (helement : 0 < v.elementBytes)
    (hcontext : 0 < (v.search maxPartitions base).fit.maxCtx) :
    (v.search maxPartitions base).fit.maxCtx =
        v.contextAt maxPartitions base (v.search maxPartitions base).chunk ∧
      (v.search maxPartitions base).chunk = v.belt (packedValuesBoundedPartitions
        (v.contextAt maxPartitions base (v.search maxPartitions base).chunk) maxPartitions) := by
  have hend : v.Settled maxPartitions base ∧
      v.Priced maxPartitions base (v.search maxPartitions base) := by
    rcases Nat.eq_zero_or_pos v.blockSize with hnone | hblock
    · apply settled_of_kept hchunk
      exact belt_of_guard (by simp [hnone])
    · have hvalid : v.Valid := ⟨hchunk, hheads, hsize, helement, hblock⟩
      apply settled_and_priced hvalid
      intro hswings
      rw [search_maxCtx_of_swings hvalid hswings] at hcontext
      exact Nat.lt_irrefl 0 hcontext
  obtain ⟨⟨hsame, _⟩, hpriced⟩ := hend
  constructor
  · rw [hpriced.fit, hsame]
    rfl
  · rw [← partitionsForBelt_eq, hsame]
    exact hsame.symm.trans hpriced.chunk

theorem belt_anti (hvalid : v.Valid) {few many : Nat} (hpos : 0 < few) (hle : few ≤ many) :
    v.belt many ≤ v.belt few := by
  rcases belt_drop hvalid hpos hle with heq | ⟨hless, _⟩
  · exact Nat.le_of_eq heq
  · exact Nat.le_of_lt hless

/-- The search does not go below the chunk of a depth which that chunk's own charge
does not reach: every chunk from there up leaves still less, and the belt at less
serves at least as much. -/
theorem belt_le_search (hvalid : v.Valid) (hkept : ¬ v.Lifted) {depth : Nat}
    (hshort : v.contextAt maxPartitions base (v.belt (partitionsForBelt maxPartitions depth)) ≤
      depth) :
    v.belt (partitionsForBelt maxPartitions depth) ≤ (v.search maxPartitions base).chunk := by
  refine (climb_invariant (fun s (hs : v.belt (partitionsForBelt maxPartitions depth) ≤ s.chunk)
    _ => ?_) roundCap (belt_le hvalid hkept _)).1
  show _ ≤ v.nextChunk maxPartitions base s.chunk
  rcases Nat.eq_zero_or_pos (v.contextAt maxPartitions base s.chunk) with hnone | hcontext
  · rw [nextChunk_of_no_context hnone]
    exact belt_le hvalid hkept _
  · have hless := contextAt_anti hvalid (belt_pos hvalid _) hs hcontext
    exact belt_anti hvalid (partitionsForBelt_pos hcontext)
      (partitionsForBelt_mono (hless.trans hshort))

/-- Where the belt's chunk does not depend on the depth. -/
theorem belt_eq_of_lifted_or_guard (hflat : v.Lifted ∨ v.blockSize = 0) {few many : Nat}
    (hvalid : v.blockSize ≠ 0 → v.Valid) (hfew : 0 < few) (hmany : 0 < many) :
    v.belt few = v.belt many := by
  rcases Nat.eq_zero_or_pos v.blockSize with hnone | hblock
  · rw [belt_of_guard (by simp [hnone]), belt_of_guard (by simp [hnone])]
  have hvalid := hvalid (Nat.ne_of_gt hblock)
  have hlifted := hflat.resolve_right (Nat.ne_of_gt hblock)
  rcases Nat.eq_zero_or_pos v.scratchBudgetBytes with hnone | hbudget
  · rw [belt_of_no_budget hnone, belt_of_no_budget hnone]
  · rw [belt_of_lifted hvalid hlifted hbudget hfew, belt_of_lifted hvalid hlifted hbudget hmany]

/-- The chunk the belt serves below the slack leaves the search's whole context. -/
theorem le_contextAt_belt (hchunk : 0 < v.requestedChunk) (hheads : 0 < v.heads)
    (hsize : 0 < v.headSize) (helement : 0 < v.elementBytes) {depth : Nat} (hdepth : 0 < depth)
    (hsearch : (v.search maxPartitions base).fit.maxCtx = depth + base.kvBlockTokens) :
    depth + base.kvBlockTokens ≤
      v.contextAt maxPartitions base (v.belt (partitionsForBelt maxPartitions depth)) := by
  obtain ⟨hcontext, hbelt⟩ := search_fixed_point hchunk hheads hsize helement
    (Nat.lt_of_lt_of_eq (Nat.add_pos_left hdepth _) hsearch.symm)
  rw [hsearch] at hcontext
  rw [← partitionsForBelt_eq, ← hcontext] at hbelt
  have hdeep : depth ≤ depth + base.kvBlockTokens := Nat.le_add_right _ _
  have hpartitions := @partitionsForBelt_pos maxPartitions _ hdepth
  have hmono := @partitionsForBelt_mono maxPartitions _ _ hdeep
  by_cases hflat : v.Lifted ∨ v.blockSize = 0
  · rw [belt_eq_of_lifted_or_guard hflat (fun hblock => ⟨hchunk, hheads, hsize, helement,
      Nat.pos_of_ne_zero hblock⟩) hpartitions (Nat.lt_of_lt_of_le hpartitions hmono), ← hbelt]
    exact Nat.le_of_eq hcontext
  obtain ⟨hkept, hblock⟩ := not_or.mp hflat
  have hvalid : v.Valid := ⟨hchunk, hheads, hsize, helement, Nat.pos_of_ne_zero hblock⟩
  apply Nat.le_of_not_lt
  intro hlt
  -- whole pages: what falls short of the context falls short of the slack as well
  have hshort : v.contextAt maxPartitions base (v.belt (partitionsForBelt maxPartitions depth)) ≤
      depth := by
    obtain ⟨few, hfew⟩ : max 1 base.kvBlockTokens ∣ v.contextAt maxPartitions base
        (v.belt (partitionsForBelt maxPartitions depth)) := maxCtx_pages _
    obtain ⟨many, hmany⟩ : max 1 base.kvBlockTokens ∣ depth + base.kvBlockTokens := by
      rw [hcontext]
      exact maxCtx_pages _
    rw [hfew, hmany] at hlt
    have hless := Nat.lt_of_mul_lt_mul_left hlt
    have hpage := Nat.mul_le_mul_left (max 1 base.kvBlockTokens) (Nat.succ_le_of_lt hless)
    rw [Nat.mul_succ, ← hmany, ← hfew] at hpage
    omega
  have hle := belt_le_search hvalid hkept hshort
  have hge := belt_anti hvalid hpartitions hmono
  rw [← hbelt] at hge
  rw [Nat.le_antisymm hle hge, ← hcontext] at hlt
  exact Nat.lt_irrefl _ hlt

/-- The pages up to the slack and the buffers of the depth's own chunk fit the card. -/
def OwnChunkFits (v : BeltRequest) (maxPartitions : Nat) (base : FitTerms) (depth : Nat) : Prop :=
  base.fixed +
      v.scratch (v.belt (packedValuesBoundedPartitions depth maxPartitions))
        (packedValuesBoundedPartitions depth maxPartitions) * max 1 base.lanes +
      max 1 base.lanes * (depth + base.kvBlockTokens) * base.kvBytesToken ≤ base.total

/-- The exact buffers of a chunk are within its charge. -/
theorem ownChunkFits_of_le {depth : Nat} (hdepth : 0 < depth)
    (hle : depth + base.kvBlockTokens ≤
      v.contextAt maxPartitions base (v.belt (partitionsForBelt maxPartitions depth))) :
    v.OwnChunkFits maxPartitions base depth := by
  rw [partitionsForBelt_eq] at hle
  have hcharge := @scratch_le_charge v maxPartitions base.lanes _ _ depth
    (Nat.le_refl (v.belt (packedValuesBoundedPartitions depth maxPartitions))) hdepth
  have hmore : max 1 base.lanes * depth * v.perToken maxPartitions
        (v.belt (packedValuesBoundedPartitions depth maxPartitions)) ≤
      max 1 base.lanes * (depth + base.kvBlockTokens) * v.perToken maxPartitions
        (v.belt (packedValuesBoundedPartitions depth maxPartitions)) := by
    gcongr
    exact Nat.le_add_right _ _
  have hpaid := charge_le_total (Nat.add_pos_left hdepth _) hle
  unfold OwnChunkFits
  rw [Nat.mul_comm (v.scratch _ _)]
  omega

end BeltRequest

/-- Nothing to price: both fits are the plain one. -/
theorem fits_of_no_geometry (base : FitTerms) {v : BeltRequest} (depth maxPartitions : Nat)
    (beltEnabled mixedStageOnMicro : Bool)
    (hnone : v.requestedChunk = 0 ∨ v.heads = 0 ∨ v.headSize = 0 ∨ v.elementBytes = 0) :
    (fitContextPackedValues base v beltEnabled maxPartitions mixedStageOnMicro).fit =
        fitContext base ∧
      (fitContextPackedValuesAtDepth base v depth maxPartitions beltEnabled
        mixedStageOnMicro).fit = fitContext base := by
  unfold fitContextPackedValues fitContextPackedValuesAtDepth
  rw [if_pos hnone, if_pos (by tauto)]
  exact ⟨rfl, rfl⟩

/-- The switch and the micro stage leave both fits at the plain one. -/
theorem fits_of_no_term (base : FitTerms) (v : BeltRequest) (depth maxPartitions : Nat)
    {beltEnabled mixedStageOnMicro : Bool}
    (hnone : beltEnabled = false ∨ mixedStageOnMicro = true) :
    (fitContextPackedValues base v beltEnabled maxPartitions mixedStageOnMicro).fit =
        fitContext base ∧
      (fitContextPackedValuesAtDepth base v depth maxPartitions beltEnabled
        mixedStageOnMicro).fit = fitContext base := by
  unfold fitContextPackedValues fitContextPackedValuesAtDepth
  rcases hnone with rfl | rfl
  · constructor <;> simp only [if_true] <;> split <;> rfl
  · constructor <;> simp only [if_true] <;> split <;> (try split) <;> rfl

namespace BeltRequest

/-- The switch is on, the stage is not the micro one: the depth is admitted when
tokens cost bytes and the depth's own chunk fits. -/
theorem atDepth_admits_iff_ownChunkFits {v : BeltRequest} {maxPartitions depth : Nat}
    {base : FitTerms} (hchunk : 0 < v.requestedChunk) (hheads : 0 < v.heads)
    (hsize : 0 < v.headSize) (helement : 0 < v.elementBytes) (hdepth : 0 < depth)
    (hpages : max 1 base.kvBlockTokens ∣ depth + base.kvBlockTokens) :
    depth + base.kvBlockTokens ≤
        (fitContextPackedValuesAtDepth base v depth maxPartitions true false).fit.maxCtx ↔
      0 < base.kvBytesToken ∧ v.OwnChunkFits maxPartitions base depth := by
  unfold fitContextPackedValuesAtDepth
  rw [if_neg (by omega), if_neg Bool.true_eq_false.mp, if_neg Bool.false_ne_true]
  dsimp only
  refine (le_maxCtx_iff (Nat.add_pos_left hdepth _) ?_).trans ?_
  · exact hpages
  apply and_congr_right
  intro _
  unfold OwnChunkFits FitTerms.fixed
  dsimp only
  omega

end BeltRequest

open BeltRequest in
/-- A depth the search adopts is admitted when it is asked for: tokens cost bytes,
and everything else about the load and the request is arbitrary. -/
theorem fitContextPackedValuesAtDepth_admits (base : FitTerms) (hkv : 0 < base.kvBytesToken)
    (v : BeltRequest) (maxPartitions : Nat) (beltEnabled mixedStageOnMicro : Bool) (depth : Nat)
    (hdepth : depth = slackAdjusted base
      (fitContextPackedValues base v beltEnabled maxPartitions mixedStageOnMicro))
    (hpos : 0 < depth) :
    depth ≤ slackAdjusted base (fitContextPackedValuesAtDepth base v depth maxPartitions
      beltEnabled mixedStageOnMicro) := by
  have hsum : (fitContextPackedValues base v beltEnabled maxPartitions
      mixedStageOnMicro).fit.maxCtx = depth + base.kvBlockTokens := by
    unfold slackAdjusted at hdepth
    omega
  apply Nat.le_sub_of_add_le
  by_cases hterm : beltEnabled = false ∨ mixedStageOnMicro = true
  · obtain ⟨hsearch, hexact⟩ := fits_of_no_term base v depth maxPartitions hterm
    rw [hexact, ← hsearch, hsum]
  obtain ⟨rfl, rfl⟩ : beltEnabled = true ∧ mixedStageOnMicro = false := by
    simpa using hterm
  by_cases hnone : v.requestedChunk = 0 ∨ v.heads = 0 ∨ v.headSize = 0 ∨ v.elementBytes = 0
  · obtain ⟨hsearch, hexact⟩ := fits_of_no_geometry base depth maxPartitions true false hnone
    rw [hexact, ← hsearch, hsum]
  obtain ⟨hchunk, hheads, hsize, helement⟩ : 0 < v.requestedChunk ∧ 0 < v.heads ∧
      0 < v.headSize ∧ 0 < v.elementBytes := by
    omega
  unfold fitContextPackedValues at hsum
  rw [if_neg hnone, if_neg Bool.true_eq_false.mp, if_neg Bool.false_ne_true] at hsum
  have hle := le_contextAt_belt hchunk hheads hsize helement hpos hsum
  apply (atDepth_admits_iff_ownChunkFits hchunk hheads hsize helement hpos ?_).mpr
  · exact ⟨hkv, ownChunkFits_of_le hpos hle⟩
  · obtain ⟨hcontext, _⟩ := search_fixed_point hchunk hheads hsize helement
      (Nat.lt_of_lt_of_eq (Nat.add_pos_left hpos _) hsum.symm)
    rw [← hsum, hcontext]
    exact maxCtx_pages _

/-- With 512 MiB left the search adopts a depth of 44144 tokens. -/
theorem fitContextPackedValuesAtDepth_admits_44144 :
    44144 ≤ slackAdjusted (BeltRequest.bytesLeft (2 ^ 29)) (fitContextPackedValuesAtDepth
      (BeltRequest.bytesLeft (2 ^ 29)) (BeltRequest.sixteenHeads 2048 32) 44144 0 true false) :=
  fitContextPackedValuesAtDepth_admits (BeltRequest.bytesLeft (2 ^ 29)) (by decide)
    (BeltRequest.sixteenHeads 2048 32) 0 true false 44144 (by decide +kernel) (by decide)

/-- A load of 512 MiB whose tokens cost nothing but their buffers. -/
def freeTokens : FitTerms :=
  { BeltRequest.bytesLeft (2 ^ 29) with kvBytesToken := 0 }

/-- The search charges the buffers per token and finds a context. The fit at a depth
charges them once, and with nothing per token it has no context to give. -/
theorem fitContextPackedValuesAtDepth_of_free_tokens :
    0 < slackAdjusted freeTokens (fitContextPackedValues freeTokens
        (BeltRequest.sixteenHeads 2048 32) true 0 false) ∧
      ¬ slackAdjusted freeTokens (fitContextPackedValues freeTokens
          (BeltRequest.sixteenHeads 2048 32) true 0 false) ≤
        slackAdjusted freeTokens (fitContextPackedValuesAtDepth freeTokens
          (BeltRequest.sixteenHeads 2048 32)
          (slackAdjusted freeTokens (fitContextPackedValues freeTokens
            (BeltRequest.sixteenHeads 2048 32) true 0 false)) 0 true false) := by
  decide +kernel

end Arcint.Fit
