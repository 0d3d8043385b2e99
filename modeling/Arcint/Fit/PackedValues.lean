import Arcint.Fit.PoolTrim
import Arcint.Fit.Context
import Arcint.Fit.ChunkBelt
import Mathlib.Tactic.Ring

/-! # The fit under 4-bit values

The chunk the belt serves depends on the context, and the context on the bytes
the chunk is charged. The fit looks for a chunk that the belt picks at the very
context which that chunk's charge leaves.
-/

namespace Arcint.Fit

/-! ## Scratch bytes -/

/-- The output buffer of a prefill, with the margin for a resize. -/
def packedValuesPrefillScratchBytesEx (chunk partitions heads headSize elementBytes : Nat) : Nat :=
  if chunk = 0 ∨ partitions = 0 ∨ heads = 0 ∨ headSize = 0 ∨ elementBytes = 0 then 0
  else (3 * (chunk * heads * headSize * elementBytes * partitions) + 1) / 2

/-- The pair of buffers for the sums and the maxima. -/
def packedValuesPartialsExpMaxBytes (chunk partitions heads : Nat) : Nat :=
  if chunk = 0 ∨ partitions = 0 ∨ heads = 0 then 0
  else 2 * chunk * heads * 4 * partitions

def packedValuesPrefillScratchBytesPerTokenEx (chunk heads headSize elementBytes : Nat) : Nat :=
  let onePartition := packedValuesPrefillScratchBytesEx chunk 1 heads headSize elementBytes
  if onePartition = 0 then 0 else (onePartition + 255) / 256

def packedValuesPartialsExpMaxBytesPerToken (chunk heads : Nat) : Nat :=
  let onePartition := packedValuesPartialsExpMaxBytes chunk 1 heads
  if onePartition = 0 then 0 else (onePartition + 255) / 256

def packedValuesBoundedPartitions (nCtxTokens maxPartitions : Nat) : Nat :=
  if nCtxTokens = 0 then 0
  else
    let raw := (nCtxTokens + 255) / 256
    if 0 < maxPartitions then min raw maxPartitions else raw

/-- Bytes the scratch takes of a reservation at a context length. -/
def packedValuesScratchReservationBytes (fixedBytes perTokenBytes lanes nCtx : Nat) : Nat :=
  (fixedBytes + max 1 lanes * nCtx * perTokenBytes) % wordSize

namespace BeltRequest

/-- The buffers of one lane for a chunk over some partitions. -/
def scratch (v : BeltRequest) (chunk partitions : Nat) : Nat :=
  packedValuesPrefillScratchBytesEx chunk partitions v.heads v.headSize v.elementBytes +
    packedValuesPartialsExpMaxBytes chunk partitions v.heads

/-- What a chunk is charged per token. -/
def perToken (v : BeltRequest) (maxPartitions chunk : Nat) : Nat :=
  if 0 < maxPartitions then 0
  else packedValuesPrefillScratchBytesPerTokenEx chunk v.heads v.headSize v.elementBytes +
    packedValuesPartialsExpMaxBytesPerToken chunk v.heads

/-- What a chunk is charged once, for all lanes. -/
def fixedCharge (v : BeltRequest) (maxPartitions lanes chunk : Nat) : Nat :=
  if 0 < maxPartitions then v.scratch chunk maxPartitions * max 1 lanes
  else v.scratch chunk 1 * max 1 lanes

/-- The terms of a load with the charge for a chunk. -/
def charged (v : BeltRequest) (maxPartitions : Nat) (base : FitTerms) (chunk : Nat) : FitTerms :=
  { base with
    kvBytesToken := base.kvBytesToken + v.perToken maxPartitions chunk
    activations := base.activations + v.fixedCharge maxPartitions base.lanes chunk }

end BeltRequest

/-! ## The search -/

/-- The variables of the search. -/
structure Climb where
  chunk : Nat
  prevChunk : Nat
  fit : FitResult
  perTokenBytes : Nat
  fixedBytes : Nat
  iterations : Nat
  deriving DecidableEq, Repr

structure PackedValuesFitTerm where
  fit : FitResult
  chunk : Nat
  perTokenBytes : Nat
  fixedBytes : Nat
  iterations : Nat
  deriving DecidableEq, Repr

namespace BeltRequest

def partitionsForBelt (maxPartitions maxCtx : Nat) : Nat :=
  if 0 < maxPartitions then packedValuesBoundedPartitions maxCtx maxPartitions
  else (maxCtx + 255) / 256

/-- One round: charge the chunk, fit the context, ask the belt at that context. -/
def climbRound (v : BeltRequest) (maxPartitions : Nat) (base : FitTerms) (s : Climb) : Climb :=
  let fit := fitContext (v.charged maxPartitions base s.chunk)
  { chunk := v.belt (partitionsForBelt maxPartitions fit.maxCtx)
    prevChunk := s.chunk
    fit
    perTokenBytes := v.perToken maxPartitions s.chunk
    fixedBytes := v.fixedCharge maxPartitions base.lanes s.chunk
    iterations := s.iterations + 1 }

/-- Rounds until the chunk stays the same, at most `left`. -/
def climb (v : BeltRequest) (maxPartitions : Nat) (base : FitTerms) : Nat → Climb → Climb
  | 0, s => s
  | left + 1, s =>
      if s.chunk ≠ s.prevChunk then v.climb maxPartitions base left
        (v.climbRound maxPartitions base s)
      else s

def roundCap : Nat := 32

def climbStart (v : BeltRequest) : Climb :=
  { chunk := v.requestedChunk, prevChunk := 0, fit := ⟨0, 0, false⟩, perTokenBytes := 0,
    fixedBytes := 0, iterations := 0 }

/-- The search of a fit, in its last state. -/
def search (v : BeltRequest) (maxPartitions : Nat) (base : FitTerms) : Climb :=
  v.climb maxPartitions base roundCap v.climbStart

end BeltRequest

def fitContextPackedValues (base : FitTerms) (v : BeltRequest) (beltEnabled : Bool)
    (maxPartitions : Nat) (mixedStageOnMicro : Bool) : PackedValuesFitTerm :=
  if v.requestedChunk = 0 ∨ v.heads = 0 ∨ v.headSize = 0 ∨ v.elementBytes = 0 then
    ⟨fitContext base, v.requestedChunk, 0, 0, 0⟩
  else if beltEnabled = false then
    ⟨fitContext base, v.requestedChunk, 0, 0, 1⟩
  else if mixedStageOnMicro then
    ⟨fitContext base, packedValuesMeasuredChunkCap v.requestedChunk v.blockSize
      kMaxMeasuredPackedValuesChunkMicro, 0, 0, 1⟩
  else
    let s := v.search maxPartitions base
    ⟨s.fit, s.chunk, s.perTokenBytes, s.fixedBytes, s.iterations⟩

/-! ## The charge covers the buffers -/

theorem packedValuesPrefillScratchBytesEx_eq (chunk partitions heads headSize elementBytes : Nat) :
    packedValuesPrefillScratchBytesEx chunk partitions heads headSize elementBytes =
      (3 * (chunk * heads * headSize * elementBytes * partitions) + 1) / 2 := by
  unfold packedValuesPrefillScratchBytesEx
  split
  next hzero =>
    have hproduct : chunk * heads * headSize * elementBytes * partitions = 0 := by
      rcases hzero with h | h | h | h | h <;> simp [h]
    rw [hproduct]
  next => rfl

theorem packedValuesPartialsExpMaxBytes_eq (chunk partitions heads : Nat) :
    packedValuesPartialsExpMaxBytes chunk partitions heads =
      2 * chunk * heads * 4 * partitions := by
  unfold packedValuesPartialsExpMaxBytes
  split
  next hzero => rcases hzero with h | h | h <;> simp [h]
  next => rfl

/-- A rate rounded up and one more unit cover every started block of 256. -/
theorem started_blocks_le (one n : Nat) :
    (n + 255) / 256 * one ≤ (one + 255) / 256 * n + one := by
  have hblocks : (n + 255) / 256 ≤ n / 256 + 1 := by omega
  have hrate : one ≤ (one + 255) / 256 * 256 := by omega
  have hwhole : n / 256 * 256 ≤ n := Nat.div_mul_le_self n 256
  calc (n + 255) / 256 * one
      ≤ (n / 256 + 1) * one := Nat.mul_le_mul_right _ hblocks
    _ = n / 256 * one + one := Nat.succ_mul _ _
    _ ≤ n / 256 * ((one + 255) / 256 * 256) + one :=
        Nat.add_le_add_right (Nat.mul_le_mul_left _ hrate) _
    _ = (one + 255) / 256 * (n / 256 * 256) + one := by ring
    _ ≤ (one + 255) / 256 * n + one := Nat.add_le_add_right (Nat.mul_le_mul_left _ hwhole) _

namespace BeltRequest

variable {v : BeltRequest}

theorem scratch_mono (v : BeltRequest) {small large few many : Nat} (hchunk : small ≤ large)
    (hpartitions : few ≤ many) : v.scratch small few ≤ v.scratch large many := by
  unfold scratch
  rw [packedValuesPrefillScratchBytesEx_eq, packedValuesPrefillScratchBytesEx_eq,
    packedValuesPartialsExpMaxBytes_eq, packedValuesPartialsExpMaxBytes_eq]
  apply Nat.add_le_add
  · apply Nat.div_le_div_right
    gcongr
  · gcongr

/-- Several partitions take no more than as many single ones. -/
theorem scratch_le_mul (v : BeltRequest) (chunk partitions : Nat) :
    packedValuesPrefillScratchBytesEx chunk partitions v.heads v.headSize v.elementBytes ≤
      partitions * packedValuesPrefillScratchBytesEx chunk 1 v.heads v.headSize v.elementBytes := by
  rw [packedValuesPrefillScratchBytesEx_eq, packedValuesPrefillScratchBytesEx_eq, Nat.mul_one]
  obtain ⟨bytes, hbytes⟩ : ∃ bytes, bytes = chunk * v.heads * v.headSize * v.elementBytes :=
    ⟨_, rfl⟩
  rw [← hbytes]
  -- doubled, the right side rounds up once for every partition
  have hdouble : 3 * bytes ≤ 2 * ((3 * bytes + 1) / 2) := by omega
  have hall := Nat.mul_le_mul_left partitions hdouble
  have hleft : partitions * (3 * bytes) = 3 * (bytes * partitions) := by ring
  have hright : partitions * (2 * ((3 * bytes + 1) / 2)) =
      2 * (partitions * ((3 * bytes + 1) / 2)) := by ring
  omega

theorem perTokenEx_eq (chunk : Nat) :
    packedValuesPrefillScratchBytesPerTokenEx chunk v.heads v.headSize v.elementBytes =
      (packedValuesPrefillScratchBytesEx chunk 1 v.heads v.headSize v.elementBytes + 255) /
        256 := by
  unfold packedValuesPrefillScratchBytesPerTokenEx
  dsimp only
  split
  next hzero => rw [hzero]
  next => rfl

theorem partialsPerToken_eq (chunk : Nat) :
    packedValuesPartialsExpMaxBytesPerToken chunk v.heads =
      (packedValuesPartialsExpMaxBytes chunk 1 v.heads + 255) / 256 := by
  unfold packedValuesPartialsExpMaxBytesPerToken
  dsimp only
  split
  next hzero => rw [hzero]
  next => rfl

/-- The buffers of a chunk at any depth are within the linear charge. -/
theorem scratch_le_linear (v : BeltRequest) (chunk n : Nat) :
    v.scratch chunk ((n + 255) / 256) ≤ v.perToken 0 chunk * n + v.scratch chunk 1 := by
  have houtput := (v.scratch_le_mul chunk ((n + 255) / 256)).trans (started_blocks_le
    (packedValuesPrefillScratchBytesEx chunk 1 v.heads v.headSize v.elementBytes) n)
  have hpair : packedValuesPartialsExpMaxBytes chunk ((n + 255) / 256) v.heads ≤
      (packedValuesPartialsExpMaxBytes chunk 1 v.heads + 255) / 256 * n +
        packedValuesPartialsExpMaxBytes chunk 1 v.heads := by
    refine Nat.le_trans (Nat.le_of_eq ?_) (started_blocks_le _ n)
    rw [packedValuesPartialsExpMaxBytes_eq, packedValuesPartialsExpMaxBytes_eq]
    ring
  unfold scratch perToken
  rw [if_neg (Nat.lt_irrefl 0), perTokenEx_eq, partialsPerToken_eq, Nat.add_mul]
  omega

/-- Every served depth and every smaller chunk is within the charge. -/
theorem scratch_le_charge {maxPartitions lanes chunk served n : Nat} (hserved : served ≤ chunk)
    (hn : 0 < n) :
    max 1 lanes * v.scratch served (packedValuesBoundedPartitions n maxPartitions) ≤
      v.fixedCharge maxPartitions lanes chunk +
        max 1 lanes * n * v.perToken maxPartitions chunk := by
  unfold packedValuesBoundedPartitions fixedCharge
  rw [if_neg (Nat.ne_of_gt hn)]
  dsimp only
  rcases Nat.eq_zero_or_pos maxPartitions with rfl | hbound
  · rw [if_neg (Nat.lt_irrefl 0), if_neg (Nat.lt_irrefl 0)]
    have hle := (v.scratch_mono hserved (Nat.le_refl ((n + 255) / 256))).trans
      (v.scratch_le_linear chunk n)
    calc max 1 lanes * v.scratch served ((n + 255) / 256)
        ≤ max 1 lanes * (v.perToken 0 chunk * n + v.scratch chunk 1) :=
          Nat.mul_le_mul_left _ hle
      _ = v.scratch chunk 1 * max 1 lanes + max 1 lanes * n * v.perToken 0 chunk := by ring
  · rw [if_pos hbound, if_pos hbound]
    have hle : v.scratch served (min ((n + 255) / 256) maxPartitions) ≤
        v.scratch chunk maxPartitions :=
      v.scratch_mono hserved (Nat.min_le_right _ _)
    calc max 1 lanes * v.scratch served (min ((n + 255) / 256) maxPartitions)
        ≤ max 1 lanes * v.scratch chunk maxPartitions := Nat.mul_le_mul_left _ hle
      _ = v.scratch chunk maxPartitions * max 1 lanes := Nat.mul_comm _ _
      _ ≤ _ := Nat.le_add_right _ _

/-! ## Charges and contexts -/

section Charge

variable {maxPartitions : Nat} {base : FitTerms}

theorem charged_fixed (chunk : Nat) :
    (v.charged maxPartitions base chunk).fixed =
      base.fixed + v.fixedCharge maxPartitions base.lanes chunk := by
  simp only [charged, FitTerms.fixed]
  omega

theorem perToken_mono {small large : Nat} (hle : small ≤ large) :
    v.perToken maxPartitions small ≤ v.perToken maxPartitions large := by
  unfold perToken
  split
  · exact Nat.le_refl _
  · rw [perTokenEx_eq, perTokenEx_eq, partialsPerToken_eq, partialsPerToken_eq]
    simp only [packedValuesPrefillScratchBytesEx_eq, packedValuesPartialsExpMaxBytes_eq]
    gcongr

theorem fixedCharge_mono {small large lanes : Nat} (hle : small ≤ large) :
    v.fixedCharge maxPartitions lanes small ≤ v.fixedCharge maxPartitions lanes large := by
  unfold fixedCharge
  split
  · exact Nat.mul_le_mul_right _ (v.scratch_mono hle (Nat.le_refl _))
  · exact Nat.mul_le_mul_right _ (v.scratch_mono hle (Nat.le_refl _))

/-- Without a bound on the partitions every chunk is charged per token. -/
theorem perToken_pos (hvalid : v.Valid) {chunk : Nat} (hchunk : 0 < chunk) :
    0 < v.perToken 0 chunk := by
  unfold perToken
  rw [if_neg (Nat.lt_irrefl 0), partialsPerToken_eq, packedValuesPartialsExpMaxBytes_eq]
  have hpair : 0 < 2 * chunk * v.heads * 4 * 1 := by
    have hheads := hvalid.heads
    positivity
  omega

/-- The context a chunk's charge leaves. -/
def contextAt (v : BeltRequest) (maxPartitions : Nat) (base : FitTerms) (chunk : Nat) : Nat :=
  (fitContext (v.charged maxPartitions base chunk)).maxCtx

/-- A smaller chunk leaves at least as much context. -/
theorem contextAt_anti (hvalid : v.Valid) {small large : Nat} (hpos : 0 < small)
    (hle : small ≤ large) (hcontext : 0 < v.contextAt maxPartitions base large) :
    v.contextAt maxPartitions base large ≤ v.contextAt maxPartitions base small := by
  have hkv := ((maxCtx_pos_iff _).mp hcontext).1
  refine @maxCtx_mono (v.charged maxPartitions base small) (v.charged maxPartitions base large)
    rfl rfl rfl ?_ ?_ ?_
  · rw [charged_fixed, charged_fixed]
    exact Nat.add_le_add_left (fixedCharge_mono hle) _
  · exact Nat.add_le_add_left (perToken_mono hle) _
  · show 0 < base.kvBytesToken + v.perToken maxPartitions small
    rcases Nat.eq_zero_or_pos maxPartitions with rfl | hbound
    · exact Nat.add_pos_right _ (perToken_pos hvalid hpos)
    · simp only [charged, perToken, if_pos hbound] at hkv ⊢
      exact hkv

theorem partitionsForBelt_eq (maxPartitions maxCtx : Nat) :
    partitionsForBelt maxPartitions maxCtx =
      packedValuesBoundedPartitions maxCtx maxPartitions := by
  unfold partitionsForBelt
  split
  next => rfl
  next hzero =>
    unfold packedValuesBoundedPartitions
    dsimp only
    rw [if_neg hzero]
    split
    next hnone => rw [hnone]
    next => rfl

theorem partitionsForBelt_pos {maxCtx : Nat} (hpos : 0 < maxCtx) :
    0 < partitionsForBelt maxPartitions maxCtx := by
  rw [partitionsForBelt_eq]
  unfold packedValuesBoundedPartitions
  rw [if_neg (Nat.ne_of_gt hpos)]
  dsimp only
  split <;> omega

theorem partitionsForBelt_mono {shallow deep : Nat} (hle : shallow ≤ deep) :
    partitionsForBelt maxPartitions shallow ≤ partitionsForBelt maxPartitions deep := by
  have hraw : (shallow + 255) / 256 ≤ (deep + 255) / 256 :=
    Nat.div_le_div_right (Nat.add_le_add_right hle 255)
  unfold partitionsForBelt packedValuesBoundedPartitions
  dsimp only
  split
  next hbound =>
    split
    next => exact Nat.zero_le _
    next hdeep =>
      rw [if_neg (by omega)]
      omega
  next => exact hraw

theorem partitionsForBelt_zero : partitionsForBelt maxPartitions 0 = 0 := by
  rw [partitionsForBelt_eq]
  rfl

end Charge

/-! ## The rounds -/

section Rounds

variable {maxPartitions : Nat} {base : FitTerms}

/-- The chunk after a round that starts with `chunk`. -/
def nextChunk (v : BeltRequest) (maxPartitions : Nat) (base : FitTerms) (chunk : Nat) : Nat :=
  v.belt (partitionsForBelt maxPartitions (v.contextAt maxPartitions base chunk))

/-- A state right after a round: everything in it is priced at the chunk before. -/
structure Priced (v : BeltRequest) (maxPartitions : Nat) (base : FitTerms) (s : Climb) : Prop where
  fit : s.fit = fitContext (v.charged maxPartitions base s.prevChunk)
  perToken : s.perTokenBytes = v.perToken maxPartitions s.prevChunk
  fixed : s.fixedBytes = v.fixedCharge maxPartitions base.lanes s.prevChunk
  chunk : s.chunk = v.nextChunk maxPartitions base s.prevChunk

theorem climbRound_priced (s : Climb) :
    v.Priced maxPartitions base (v.climbRound maxPartitions base s) :=
  ⟨rfl, rfl, rfl, rfl⟩

/-- What every round keeps holds at the end, which is a fixed point or the cap. -/
theorem climb_invariant {Inv : Climb → Prop}
    (hround : ∀ s, Inv s → s.chunk ≠ s.prevChunk → Inv (v.climbRound maxPartitions base s))
    (left : Nat) {s : Climb} (hs : Inv s) :
    Inv (v.climb maxPartitions base left s) ∧
      ((v.climb maxPartitions base left s).chunk = (v.climb maxPartitions base left s).prevChunk ∨
        (v.climb maxPartitions base left s).iterations = s.iterations + left) := by
  induction left generalizing s with
  | zero => exact ⟨hs, .inr rfl⟩
  | succ left ih =>
      unfold climb
      split
      next hmoves =>
        obtain ⟨hinv, hend⟩ := ih (hround s hs hmoves)
        refine ⟨hinv, hend.imp_right fun hcap => ?_⟩
        rw [hcap]
        simp only [climbRound]
        omega
      next hsame => exact ⟨hs, .inl (Decidable.of_not_not hsame)⟩

/-- The descent of a chunk that is not lifted: after a first round the chunk
falls along the ladder, and is halved in every round from the third on. -/
structure Descends (v : BeltRequest) (maxPartitions : Nat) (base : FitTerms) (s : Climb) :
    Prop where
  priced : v.Priced maxPartitions base s
  context : 0 < v.contextAt maxPartitions base s.prevChunk
  le : s.chunk ≤ s.prevChunk
  counted : 0 < s.iterations
  rung : 2 ≤ s.iterations → s.chunk = s.prevChunk ∨
    v.ladder (partitionsForBelt maxPartitions (v.contextAt maxPartitions base s.prevChunk)) ≤
        kMaxMeasuredPackedValuesChunk ∧
      s.iterations ≤ 9 ∧ s.chunk ≤ 2 ^ (9 - s.iterations) * v.blockSize
  bounded : s.iterations ≤ 10

theorem descends_first (hvalid : v.Valid) (hkept : ¬ v.Lifted)
    (hcontext : 0 < v.contextAt maxPartitions base v.requestedChunk) :
    v.Descends maxPartitions base (v.climbRound maxPartitions base v.climbStart) := by
  refine ⟨climbRound_priced _, hcontext, belt_le hvalid hkept _, Nat.zero_lt_one, ?_, ?_⟩
  · intro htwo
    exact absurd htwo (Nat.not_succ_le_self 1)
  · exact Nat.succ_le_succ (Nat.zero_le 9)

theorem Descends.round {s : Climb} (hvalid : v.Valid) (hs : v.Descends maxPartitions base s)
    (hmoves : s.chunk ≠ s.prevChunk) :
    v.Descends maxPartitions base (v.climbRound maxPartitions base s) := by
  have hpos : 0 < s.chunk := by
    rw [hs.priced.chunk]
    exact belt_pos hvalid _
  have hdeeper := contextAt_anti hvalid hpos hs.le hs.context
  have hdrop := belt_drop hvalid (partitionsForBelt_pos hs.context)
    (@partitionsForBelt_mono maxPartitions _ _ hdeeper)
  have hchunk : s.chunk = v.belt (partitionsForBelt maxPartitions
      (v.contextAt maxPartitions base s.prevChunk)) := hs.priced.chunk
  rw [← hchunk] at hdrop
  have hcount := hs.counted
  -- before the first drop along the ladder there is one round, after it the
  -- chunk is a rung and every round halves it
  have hlate : s.iterations = 1 ∨ v.ladder (partitionsForBelt maxPartitions
      (v.contextAt maxPartitions base s.prevChunk)) ≤ kMaxMeasuredPackedValuesChunk ∧
      s.iterations ≤ 9 ∧ s.chunk ≤ 2 ^ (9 - s.iterations) * v.blockSize := by
    rcases Nat.eq_or_lt_of_le hcount with hone | htwo
    · exact .inl hone.symm
    · exact .inr ((hs.rung htwo).resolve_left hmoves)
  refine ⟨climbRound_priced _, Nat.lt_of_lt_of_le hs.context hdeeper, ?_, Nat.succ_pos _, ?_, ?_⟩
  · rcases hdrop with heq | ⟨hless, _⟩
    · exact Nat.le_of_eq heq
    · exact Nat.le_of_lt hless
  · intro _
    rcases hdrop with heq | ⟨_, hunder, hrung, hhalf⟩
    · exact .inl heq
    · right
      refine ⟨hunder, ?_⟩
      show s.iterations + 1 ≤ 9 ∧
        v.nextChunk maxPartitions base s.chunk ≤ 2 ^ (9 - (s.iterations + 1)) * v.blockSize
      have hblock := hvalid.blockSize
      rcases hlate with hone | ⟨hfew, hnine, hbound⟩
      · rw [hone]
        exact ⟨by decide, (Nat.le_of_eq hrung).trans
          (hunder.trans (Nat.le_mul_of_pos_right 128 hblock))⟩
      · obtain ⟨hlarge, hle⟩ := hhalf hfew
        have height : s.iterations < 9 := by
          apply Nat.lt_of_le_of_ne hnine
          intro hlast
          rw [hlast] at hbound
          omega
        refine ⟨height, hle.trans (halveChunk_le hblock ?_ (Nat.pow_pos (by decide)))⟩
        have hpow : 2 * 2 ^ (9 - (s.iterations + 1)) = 2 ^ (9 - s.iterations) := by
          rw [← Nat.pow_succ']
          congr 1
          omega
        rw [hpow]
        exact hbound
  · show s.iterations + 1 ≤ 10
    rcases hlate with hone | ⟨_, hnine, _⟩
    · rw [hone]
      decide
    · exact Nat.succ_le_succ hnine

/-- The search has reached a fixed point before its cap. -/
def Settled (v : BeltRequest) (maxPartitions : Nat) (base : FitTerms) : Prop :=
  (v.search maxPartitions base).chunk = (v.search maxPartitions base).prevChunk ∧
    (v.search maxPartitions base).iterations < roundCap

/-- The inputs on which the search swings between the request and one block: the
cap lifts the request, and the block's charge leaves no context while the
request's does. -/
def Swings (v : BeltRequest) (maxPartitions : Nat) (base : FitTerms) : Prop :=
  v.Lifted ∧ 0 < v.scratchBudgetBytes ∧
    (v.charged maxPartitions base v.requestedChunk).PageFits ∧
    ¬ (v.charged maxPartitions base v.blockSize).PageFits

theorem search_eq (hchunk : 0 < v.requestedChunk) :
    v.search maxPartitions base =
      v.climb maxPartitions base 31 (v.climbRound maxPartitions base v.climbStart) := by
  show v.climb maxPartitions base (31 + 1) v.climbStart = _
  unfold climb
  exact if_pos (Nat.ne_of_gt hchunk)

/-- The search ends right after a round. -/
theorem search_priced (hchunk : 0 < v.requestedChunk) :
    v.Priced maxPartitions base (v.search maxPartitions base) := by
  rw [search_eq hchunk]
  exact (climb_invariant (fun s _ _ => climbRound_priced s) 31 (climbRound_priced _)).1

theorem climb_of_settled {s : Climb} (hsettled : s.chunk = s.prevChunk) (left : Nat) :
    v.climb maxPartitions base left s = s := by
  cases left with
  | zero => rfl
  | succ left =>
      unfold climb
      exact if_neg fun hmoves => hmoves hsettled

/-- A request the belt keeps at once is the fixed point. -/
theorem settled_of_kept (hchunk : 0 < v.requestedChunk)
    (hkept : v.nextChunk maxPartitions base v.requestedChunk = v.requestedChunk) :
    v.Settled maxPartitions base ∧ v.Priced maxPartitions base (v.search maxPartitions base) := by
  have hsearch := @search_eq v maxPartitions base hchunk
  rw [climb_of_settled hkept] at hsearch
  unfold Settled
  rw [hsearch]
  exact ⟨⟨hkept, by simp [climbRound, climbStart, roundCap]⟩, climbRound_priced _⟩

theorem settled_of_not_lifted (hvalid : v.Valid) (hkept : ¬ v.Lifted)
    (hcontext : 0 < v.contextAt maxPartitions base v.requestedChunk) :
    v.Settled maxPartitions base ∧ v.Priced maxPartitions base (v.search maxPartitions base) := by
  unfold Settled
  rw [search_eq hvalid.chunk]
  obtain ⟨hdescends, hend⟩ := climb_invariant
    (fun s hs hmoves => Descends.round hvalid hs hmoves) 31
    (descends_first hvalid hkept hcontext)
  have hbounded := hdescends.bounded
  refine ⟨⟨hend.resolve_right fun hcap => ?_, ?_⟩, hdescends.priced⟩
  · rw [hcap] at hbounded
    simp only [climbRound, climbStart] at hbounded
    omega
  · exact Nat.lt_of_le_of_lt hbounded (by decide)

theorem climb_succ_of_moves {s : Climb} (hmoves : s.chunk ≠ s.prevChunk) (left : Nat) :
    v.climb maxPartitions base (left + 1) s =
      v.climb maxPartitions base left (v.climbRound maxPartitions base s) := by
  simp only [climb, if_pos hmoves]

theorem nextChunk_of_lifted (hvalid : v.Valid) (hlifted : v.Lifted)
    (hbudget : 0 < v.scratchBudgetBytes) {chunk : Nat}
    (hcontext : 0 < v.contextAt maxPartitions base chunk) :
    v.nextChunk maxPartitions base chunk = v.blockSize :=
  belt_of_lifted hvalid hlifted hbudget (partitionsForBelt_pos hcontext)

/-- With no context left the belt hands the request back. -/
theorem nextChunk_of_no_context {chunk : Nat}
    (hnone : v.contextAt maxPartitions base chunk = 0) :
    v.nextChunk maxPartitions base chunk = v.requestedChunk := by
  unfold nextChunk
  rw [hnone, partitionsForBelt_zero, belt_zero]

/-- A lifted request whose block also leaves context settles in the second round. -/
theorem settled_of_block (hvalid : v.Valid) (hlifted : v.Lifted)
    (hbudget : 0 < v.scratchBudgetBytes)
    (hcontext : 0 < v.contextAt maxPartitions base v.requestedChunk)
    (hblock : 0 < v.contextAt maxPartitions base v.blockSize) :
    v.Settled maxPartitions base ∧ v.Priced maxPartitions base (v.search maxPartitions base) := by
  have hfirst : (v.climbRound maxPartitions base v.climbStart).chunk = v.blockSize :=
    nextChunk_of_lifted hvalid hlifted hbudget hcontext
  have hmoves : (v.climbRound maxPartitions base v.climbStart).chunk ≠
      (v.climbRound maxPartitions base v.climbStart).prevChunk := by
    rw [hfirst]
    exact Nat.ne_of_gt hlifted.2
  obtain ⟨second, hsecond⟩ : ∃ second, second = v.climbRound maxPartitions base
      (v.climbRound maxPartitions base v.climbStart) := ⟨_, rfl⟩
  have hsame : second.chunk = second.prevChunk := by
    have hnext : second.chunk = v.nextChunk maxPartitions base v.blockSize := by
      rw [hsecond, ← hfirst]
      rfl
    rw [hnext, nextChunk_of_lifted hvalid hlifted hbudget hblock, hsecond]
    exact hfirst.symm
  have hsearch := @search_eq v maxPartitions base hvalid.chunk
  rw [climb_succ_of_moves hmoves, ← hsecond, climb_of_settled hsame] at hsearch
  unfold Settled
  rw [hsearch]
  refine ⟨⟨hsame, ?_⟩, ?_⟩
  · rw [hsecond]
    simp [climbRound, climbStart, roundCap]
  · rw [hsecond]
    exact climbRound_priced _

/-- Two rounds of a swing end where they began. -/
theorem climb_of_swings {s : Climb}
    (hout : v.nextChunk maxPartitions base v.requestedChunk = v.blockSize)
    (hback : v.nextChunk maxPartitions base v.blockSize = v.requestedChunk)
    (hne : v.blockSize ≠ v.requestedChunk) (pairs : Nat) (hchunk : s.chunk = v.requestedChunk)
    (hprev : s.prevChunk ≠ v.requestedChunk) :
    (v.climb maxPartitions base (2 * pairs) s).chunk = v.requestedChunk ∧
      (v.climb maxPartitions base (2 * pairs) s).prevChunk ≠ v.requestedChunk := by
  induction pairs generalizing s with
  | zero => exact ⟨hchunk, hprev⟩
  | succ pairs ih =>
      have hmoves : s.chunk ≠ s.prevChunk := by
        rw [hchunk]
        exact hprev.symm
      have hfirst : (v.climbRound maxPartitions base s).chunk = v.blockSize := by
        rw [← hout, ← hchunk]
        rfl
      have hmoves' : (v.climbRound maxPartitions base s).chunk ≠
          (v.climbRound maxPartitions base s).prevChunk := by
        rw [hfirst]
        exact fun heq => hne (heq.trans hchunk)
      rw [Nat.mul_succ, climb_succ_of_moves hmoves, climb_succ_of_moves hmoves']
      apply ih
      · show v.nextChunk maxPartitions base (v.climbRound maxPartitions base s).chunk = _
        rw [hfirst, hback]
      · show (v.climbRound maxPartitions base s).chunk ≠ _
        rw [hfirst]
        exact hne

/-- A search that does not swing ends priced at the chunk it returns. -/
theorem settled_and_priced (hvalid : v.Valid) (hsteady : ¬ v.Swings maxPartitions base) :
    v.Settled maxPartitions base ∧ v.Priced maxPartitions base (v.search maxPartitions base) := by
  rcases Nat.eq_zero_or_pos (v.contextAt maxPartitions base v.requestedChunk) with hnone | hcontext
  · exact settled_of_kept hvalid.chunk (nextChunk_of_no_context hnone)
  by_cases hlifted : v.Lifted
  · rcases Nat.eq_zero_or_pos v.scratchBudgetBytes with hzero | hbudget
    · exact settled_of_kept hvalid.chunk (belt_of_no_budget hzero _)
    · have hblock : 0 < v.contextAt maxPartitions base v.blockSize := by
        apply Nat.pos_of_ne_zero
        intro hnone
        refine hsteady ⟨hlifted, hbudget, (maxCtx_pos_iff _).mp hcontext, fun hfits => ?_⟩
        exact Nat.ne_of_gt ((maxCtx_pos_iff _).mpr hfits) hnone
      exact settled_of_block hvalid hlifted hbudget hcontext hblock
  · exact settled_of_not_lifted hvalid hlifted hcontext

/-- The search reaches a fixed point before its cap exactly when it does not
swing. -/
theorem settled_iff (hvalid : v.Valid) :
    v.Settled maxPartitions base ↔ ¬ v.Swings maxPartitions base := by
  constructor
  · rintro ⟨hsame, _⟩ ⟨hlifted, hbudget, hrequest, hblock⟩
    have hcontext := (maxCtx_pos_iff _).mpr hrequest
    have hnone : v.contextAt maxPartitions base v.blockSize = 0 :=
      Nat.eq_zero_of_not_pos fun hpos => hblock ((maxCtx_pos_iff _).mp hpos)
    obtain ⟨hchunk, hprev⟩ := climb_of_swings (nextChunk_of_lifted hvalid hlifted hbudget hcontext)
      (nextChunk_of_no_context hnone) (Nat.ne_of_gt hlifted.2) 16
      (rfl : v.climbStart.chunk = _) (Nat.ne_of_lt hvalid.chunk)
    exact hprev (hsame.symm.trans hchunk)
  · intro hsteady
    exact (settled_and_priced hvalid hsteady).1

end Rounds

/-- The fit of the engine's default call is self-consistent and safe: the search
settles, the chunk is the belt's at the fitted depth, and every served chunk at
every served depth is within the reservation, which fits the card. -/
structure SelfConsistent (v : BeltRequest) (maxPartitions : Nat) (base : FitTerms)
    (r : PackedValuesFitTerm) : Prop where
  settled : v.Settled maxPartitions base
  chunk : 0 < r.fit.maxCtx →
    r.chunk = prefillChunkCapForPackedValuesEx v.requestedChunk
      (packedValuesBoundedPartitions r.fit.maxCtx maxPartitions) v.heads v.headSize v.elementBytes
      v.scratchBudgetBytes v.blockSize
  covered : ∀ n served, 0 < n → n ≤ r.fit.maxCtx → served ≤ r.chunk →
    max 1 base.lanes *
        (packedValuesPrefillScratchBytesEx served (packedValuesBoundedPartitions n maxPartitions)
            v.heads v.headSize v.elementBytes +
          packedValuesPartialsExpMaxBytes served (packedValuesBoundedPartitions n maxPartitions)
            v.heads) ≤
      packedValuesScratchReservationBytes r.fixedBytes r.perTokenBytes base.lanes n
  fits : ∀ n, 0 < n → n ≤ r.fit.maxCtx →
    base.fixed + max 1 base.lanes * n * base.kvBytesToken +
      packedValuesScratchReservationBytes r.fixedBytes r.perTokenBytes base.lanes n ≤ base.total

theorem fitContextPackedValues_eq {v : BeltRequest} (hvalid : v.Valid) (maxPartitions : Nat)
    (base : FitTerms) :
    fitContextPackedValues base v true maxPartitions false =
      ⟨(v.search maxPartitions base).fit, (v.search maxPartitions base).chunk,
        (v.search maxPartitions base).perTokenBytes, (v.search maxPartitions base).fixedBytes,
        (v.search maxPartitions base).iterations⟩ := by
  obtain ⟨hchunk, hheads, hsize, helement, _⟩ := hvalid
  unfold fitContextPackedValues
  rw [if_neg (by omega), if_neg Bool.true_eq_false.mp, if_neg Bool.false_ne_true]

/-- A context within the fit pays for the pages and the charge together. -/
theorem charge_le_total {v : BeltRequest} {maxPartitions chunk n : Nat} {base : FitTerms}
    (hpos : 0 < n) (hn : n ≤ v.contextAt maxPartitions base chunk) :
    base.fixed + max 1 base.lanes * n * base.kvBytesToken +
        (v.fixedCharge maxPartitions base.lanes chunk +
          max 1 base.lanes * n * v.perToken maxPartitions chunk) ≤ base.total := by
  have hpaid := reserved_le_total hpos hn
  rw [charged_fixed] at hpaid
  simp only [charged, Nat.mul_add] at hpaid
  omega

/-- The reservation at a served depth does not wrap: it is part of the total. -/
theorem reservation_eq {v : BeltRequest} {maxPartitions chunk n : Nat} {base : FitTerms}
    (htotal : base.total < 2 ^ 63) (hpos : 0 < n) (hn : n ≤ v.contextAt maxPartitions base chunk) :
    packedValuesScratchReservationBytes (v.fixedCharge maxPartitions base.lanes chunk)
        (v.perToken maxPartitions chunk) base.lanes n =
      v.fixedCharge maxPartitions base.lanes chunk +
        max 1 base.lanes * n * v.perToken maxPartitions chunk := by
  have hle := charge_le_total hpos hn
  unfold packedValuesScratchReservationBytes
  apply Nat.mod_eq_of_lt
  unfold wordSize
  omega

/-- The fit is self-consistent and safe exactly when the search does not swing. -/
theorem fitContextPackedValues_iff (v : BeltRequest) (hvalid : v.Valid) (maxPartitions : Nat)
    (base : FitTerms) (htotal : base.total < 2 ^ 63) :
    v.SelfConsistent maxPartitions base
        (fitContextPackedValues base v true maxPartitions false) ↔
      ¬ v.Swings maxPartitions base := by
  constructor
  · exact fun hconsistent => (settled_iff hvalid).mp hconsistent.settled
  · intro hsteady
    obtain ⟨hsettled, hpriced⟩ := settled_and_priced hvalid hsteady
    rw [fitContextPackedValues_eq hvalid]
    obtain ⟨s, hs⟩ : ∃ s, s = v.search maxPartitions base := ⟨_, rfl⟩
    have hsame := hsettled.1
    rw [← hs] at hsame hpriced ⊢
    have hcontext : s.fit.maxCtx = v.contextAt maxPartitions base s.chunk := by
      rw [hpriced.fit, ← hsame]
      rfl
    refine ⟨hsettled, ?_, ?_, ?_⟩
    · intro _
      dsimp only
      rw [hpriced.chunk, ← hsame, ← partitionsForBelt_eq, hcontext]
      rfl
    · intro n served hpos hn hserved
      dsimp only
      rw [hpriced.fixed, hpriced.perToken, ← hsame, reservation_eq htotal hpos (hcontext ▸ hn)]
      exact scratch_le_charge hserved hpos
    · intro n hpos hn
      dsimp only
      rw [hpriced.fixed, hpriced.perToken, ← hsame, reservation_eq htotal hpos (hcontext ▸ hn)]
      exact charge_le_total hpos (hcontext ▸ hn)

/-- A card of 16 GiB with so many bytes left for one lane. -/
def bytesLeft (bytes : Nat) : FitTerms :=
  { total := 2 ^ 34, weights := 2 ^ 34 - bytes, drafters := 0, slotPool := 0, activations := 0,
    slabPerLane := 0, kvBytesToken := 9000, margin := 0, lanes := 1, kvBlockTokens := 16,
    nCtxFloor := 4096 }

/-- Sixteen heads of 128, two-byte elements, a scratch budget of 512 MiB. -/
def sixteenHeads (requestedChunk blockSize : Nat) : BeltRequest :=
  { requestedChunk, heads := 16, headSize := 128, elementBytes := 2,
    scratchBudgetBytes := 2 ^ 29, blockSize }

/-- Blocks of 32 tokens: the search settles. -/
theorem fitContextPackedValues_blocks_of_32 :
    (sixteenHeads 2048 32).SelfConsistent 0 (bytesLeft (2 ^ 33))
      (fitContextPackedValues (bytesLeft (2 ^ 33)) (sixteenHeads 2048 32) true 0 false) := by
  apply (fitContextPackedValues_iff (sixteenHeads 2048 32)
    ⟨by decide, by decide, by decide, by decide, by decide⟩ 0 (bytesLeft (2 ^ 33))
    (by decide)).mpr
  exact fun hswings => absurd hswings.1 (by decide)

/-- A request of 200 tokens against a block of 256 swings between the two. -/
theorem fitContextPackedValues_swings :
    ¬ (sixteenHeads 200 256).SelfConsistent 32 (bytesLeft 45000000)
      (fitContextPackedValues (bytesLeft 45000000) (sixteenHeads 200 256) true 32 false) := by
  intro hconsistent
  have hvalid : (sixteenHeads 200 256).Valid :=
    ⟨by decide, by decide, by decide, by decide, by decide⟩
  exact (settled_iff hvalid).mp hconsistent.settled
    ⟨by decide, by decide, by decide, by decide⟩

end BeltRequest

end Arcint.Fit
