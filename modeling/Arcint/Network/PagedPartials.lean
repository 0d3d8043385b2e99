import Arcint.Foundation.OnlineSoftmax
import Arcint.Network.Attention
import Mathlib.Algebra.BigOperators.Intervals
import Mathlib.Data.List.Perm.Basic

/-! # Bounded partials of the paged attention

Patch 0015 bounds the partitions of a sequence: a work-group of the first kernel folds several
partitions of 256 tokens into one, and the finalization merges what the work-groups left.
-/

namespace Arcint.Network

open Foundation

/-! ## Partitions -/

/-- `CEIL_DIV` and `ceil_div` -/
def ceilDiv (a b : ℕ) : ℕ := (a + b - 1) / b

/-- `SEQ_LEN_PARTITION_SIZE` -/
def seqLenPartitionSize : ℕ := 256

/-- `PAGED_ATTENTION_BLOCK_SIZE`, which is also `SUBGROUP_SIZE`. -/
def pagedAttentionBlockSize : ℕ := 16

/-- `PAGED_ATTENTION_BLOCKS_PER_PARTITION` -/
def blocksPerPartition : ℕ := 16

/-- What the host hands to both kernels. -/
structure PagedAttentionRuntimeParams where
  numOfPartitions : ℕ
  partitionsPerWg : ℕ

/-- `update_rt_params`, outside of the prefill stage. -/
def updateRtParams (maxPartitions : ℕ) (hasScoresOutput : Bool) (effectiveContextLen : ℕ) :
    PagedAttentionRuntimeParams :=
  let raw := ceilDiv effectiveContextLen seqLenPartitionSize
  if !hasScoresOutput && decide (maxPartitions > 0) && decide (raw > maxPartitions) then
    { numOfPartitions := maxPartitions, partitionsPerWg := ceilDiv raw maxPartitions }
  else { numOfPartitions := raw, partitionsPerWg := 1 }

/-- `SG_SCALE_FACTOR`: two when the cache is compressed, and the work-group is in two halves. -/
inductive SgScaleFactor
  | one
  | two

/-- A head's column over a sequence: the scaled score and the value of each token, and the sink of
the head if there are sinks. -/
structure Column (F : Type) where
  seqLen : ℕ
  entry : ℕ → Entry F
  sink : Option F

/-- The state that is kept over the partitions of a work-group. The accumulator is apart in the two
halves of the sub-groups. -/
structure Running (F : Type) where
  max : F
  sum : F
  lower : F
  upper : F

/-- The scratch buffers of a head's column and its output. -/
structure Buffers (F : Type) where
  expSums : ℕ → F
  maxLogits : ℕ → F
  tmpOut : ℕ → F
  output : F

section Kernel

variable {F : Type} [Field F] [LinearOrder F] (exp : F → F) (valMin : F) (column : Column F)
variable (partition : ℕ)

/-! ## A partition -/

def blocksNumPerPartition : ℕ :=
  min (ceilDiv column.seqLen pagedAttentionBlockSize - partition * blocksPerPartition)
    blocksPerPartition

/-- A score, or the least float behind the sequence. -/
def qkAcc (i : ℕ) : F :=
  if partition * seqLenPartitionSize + i < column.seqLen then
    (column.entry (partition * seqLenPartitionSize + i)).1
  else valMin

/-- The sink counts in the sequence's first partition only. -/
def qkMax : F :=
  let tokens := blocksNumPerPartition column partition * pagedAttentionBlockSize
  let reduced := ((List.range tokens).map (qkAcc valMin column partition)).foldl max valMin
  match column.sink with
  | some sink => if partition = 0 then if reduced > sink then reduced else sink else reduced
  | none => reduced

def qkExp (i : ℕ) : F := exp (qkAcc valMin column partition i - qkMax valMin column partition)

def partitionExpSum : F :=
  let reduced := ∑ i ∈ Finset.range seqLenPartitionSize,
    if partition * seqLenPartitionSize + i < column.seqLen then
      qkExp exp valMin column partition i
    else 0
  match column.sink with
  | some sink =>
      if partition = 0 then reduced + exp (sink - qkMax valMin column partition) else reduced
  | none => reduced

def partitionSeqLen : ℕ :=
  min (column.seqLen - partition * seqLenPartitionSize) seqLenPartitionSize

/-- The tokens of the last block if it is not full, and the number of full blocks. -/
def leftoversOf : ℕ × ℕ :=
  let blocksNum := blocksNumPerPartition column partition
  let leftovers := blocksNum * pagedAttentionBlockSize - partitionSeqLen column partition
  if leftovers ≠ 0 then (pagedAttentionBlockSize - leftovers, blocksNum - 1) else (0, blocksNum)

section Values

variable (weight : ℕ → F)

def tokenSum (block tokens : ℕ) : F :=
  ∑ i ∈ Finset.range tokens, weight (block * pagedAttentionBlockSize + i) *
    (column.entry (partition * seqLenPartitionSize + (block * pagedAttentionBlockSize + i))).2

/-- The blocks that a set of sub-groups goes through. -/
def blockSum (blockStartIdx blockEndIdx : ℕ) : F :=
  ∑ block ∈ Finset.Ico blockStartIdx blockEndIdx,
    tokenSum column partition weight block pagedAttentionBlockSize

def leftoverSum : F :=
  tokenSum column partition weight (leftoversOf column partition).2 (leftoversOf column partition).1

/-- The multiplication with the values, from what the accumulators hold: the upper half starts anew
and has the leftovers, and the reduction adds it to the lower half. -/
def accumulate (sgScale : SgScaleFactor) (lower upper : F) : F × F :=
  let blocks := partitionSeqLen column partition / pagedAttentionBlockSize
  match sgScale with
  | .one =>
      (lower + blockSum column partition weight 0 blocks + leftoverSum column partition weight,
        upper)
  | .two =>
      let perHalf := seqLenPartitionSize / 2 / pagedAttentionBlockSize
      let lower := lower + blockSum column partition weight 0 (min perHalf blocks)
      let upper := blockSum column partition weight perHalf (min (perHalf + perHalf) blocks) +
        leftoverSum column partition weight
      if partitionSeqLen column partition > seqLenPartitionSize / 2 ∨
          (leftoversOf column partition).1 ≠ 0 then
        (lower + upper, upper)
      else (lower, upper)

end Values

/-- The first partition of a work-group is as before the patch; a later one is merged. -/
def partitionStep (sgScale : SgScaleFactor) (p : ℕ) (running : Running F) : Running F :=
  let sum := partitionExpSum exp valMin column partition
  let top := qkMax valMin column partition
  let newMax := max running.max top
  let alpha := running.sum * exp (running.max - newMax)
  let beta := sum * exp (top - newMax)
  let denom := alpha + beta
  let normMul := beta / (denom * sum)
  let weight (i : ℕ) : F :=
    if partition * seqLenPartitionSize + i < column.seqLen then
      if p = 0 then qkExp exp valMin column partition i / sum
      else qkExp exp valMin column partition i * normMul
    else 0
  let scaled := if p ≠ 0 then running.lower * (alpha / denom) else running.lower
  let acc := accumulate column partition weight sgScale scaled running.upper
  { max := if p = 0 then top else newMax
    sum := if p = 0 then sum else denom
    lower := acc.1
    upper := acc.2 }

/-! ## The two kernels -/

variable (params : PagedAttentionRuntimeParams) (sgScale : SgScaleFactor)

/-- Whether a partition is behind the sequence. -/
def outOfRange : Prop :=
  partition * seqLenPartitionSize ≥
    ceilDiv column.seqLen pagedAttentionBlockSize * pagedAttentionBlockSize

instance : Decidable (outOfRange column partition) := inferInstanceAs (Decidable (_ ≥ _))

/-- The loop over the partitions of a work-group, from the `p`-th on. -/
def foldPartitions (wgPartitionIdx : ℕ) : ℕ → ℕ → Running F → Running F
  | 0, _, running => running
  | left + 1, p, running =>
      let partition := wgPartitionIdx * params.partitionsPerWg + p
      if outOfRange column partition then running
      else foldPartitions wgPartitionIdx left (p + 1)
        (partitionStep exp valMin column partition sgScale p running)

/-- What a work-group ends with; there is nothing if its first partition is out of range. -/
def workGroup (wgPartitionIdx : ℕ) : Option (Running F) :=
  if outOfRange column (wgPartitionIdx * params.partitionsPerWg) then none
  else some (foldPartitions exp valMin column params sgScale wgPartitionIdx params.partitionsPerWg 0
    ⟨valMin, 0, 0, 0⟩)

def seqBoundedPartitions : ℕ :=
  ceilDiv (ceilDiv column.seqLen seqLenPartitionSize) params.partitionsPerWg

/-- `pa_sdpa_opt`: the writes of a work-group. -/
def paSdpaOpt (buffers : Buffers F) (wgPartitionIdx : ℕ) : Buffers F :=
  match workGroup exp valMin column params sgScale wgPartitionIdx with
  | none => buffers
  | some running =>
      let buffers :=
        if seqBoundedPartitions column params > 1 then
          { buffers with
            expSums := Function.update buffers.expSums wgPartitionIdx running.sum
            maxLogits := Function.update buffers.maxLogits wgPartitionIdx running.max }
        else buffers
      if seqBoundedPartitions column params > 1 ∧ params.numOfPartitions > 1 then
        { buffers with tmpOut := Function.update buffers.tmpOut wgPartitionIdx running.lower }
      else { buffers with output := running.lower }

/-- The merge in the finalization kernel: each partition's sum is rescaled to one maximum. -/
structure FinalizationMerge where
  run : List (Stats F) → F
  run_eq : ∀ parts, parts ≠ [] → ∃ shift, run parts = Stats.mergeAll exp shift parts

variable {exp} in
/-- `pa_sdpa_finalization_stage` -/
def paSdpaFinalizationStage (merge : FinalizationMerge exp) (buffers : Buffers F) : F :=
  let numOfPartitions := min (seqBoundedPartitions column params) params.numOfPartitions
  if numOfPartitions ≤ 1 then buffers.output
  else merge.run ((List.range numOfPartitions).map fun i =>
    ⟨buffers.maxLogits i, buffers.expSums i, buffers.tmpOut i⟩)

variable {exp} in
/-- Both kernels, with the work-groups in some order. -/
def boundedAttention (merge : FinalizationMerge exp) (order : List ℕ) (buffers : Buffers F) : F :=
  paSdpaFinalizationStage column params merge
    (order.foldl (paSdpaOpt exp valMin column params sgScale) buffers)

end Kernel

/-! ## Entries by the token -/

namespace Column

variable {F : Type} [Field F] (column : Column F)

/-- The sink weighs no value. -/
def sinkEntries : List (Entry F) :=
  match column.sink with
  | some sink => [(sink, 0)]
  | none => []

/-- The entries from a token up to another one, and the sink with the first token. -/
def slice (start stop : ℕ) : List (Entry F) :=
  (if start = 0 then column.sinkEntries else []) ++
    (List.range' start (stop - start)).map column.entry

/-- What a partition covers. -/
def part (partition : ℕ) : List (Entry F) :=
  column.slice (partition * seqLenPartitionSize)
    (min ((partition + 1) * seqLenPartitionSize) column.seqLen)

/-- All that the head attends to. -/
def entries : List (Entry F) := column.slice 0 column.seqLen

variable {column} {start stop stop' : ℕ}

theorem slice_append (hstop : 0 < stop) (h : start ≤ stop) (h' : stop ≤ stop') :
    column.slice start stop ++ column.slice stop stop' = column.slice start stop' := by
  have hrange : List.range' start (stop - start) ++ List.range' stop (stop' - stop) =
      List.range' start (stop' - start) := by
    obtain ⟨m, rfl⟩ := Nat.exists_eq_add_of_le h
    obtain ⟨n, rfl⟩ := Nat.exists_eq_add_of_le h'
    rw [Nat.add_sub_cancel_left, Nat.add_sub_cancel_left, Nat.add_assoc, Nat.add_sub_cancel_left]
    exact List.range'_append_1
  simp only [slice, hstop.ne', if_false, List.nil_append, List.append_assoc, ← List.map_append,
    hrange]

theorem slice_ne_nil (h : start < stop) : column.slice start stop ≠ [] := by
  have hlength : stop - start ≠ 0 := by omega
  simp [slice, hlength]

theorem sum_slice (f : Entry F → F) : ((column.slice start stop).map f).sum =
    (if start = 0 then (column.sinkEntries.map f).sum else 0) +
      ∑ i ∈ Finset.range (stop - start), f (column.entry (start + i)) := by
  have hkeys : (((List.range' start (stop - start)).map column.entry).map f).sum =
      ∑ i ∈ Finset.range (stop - start), f (column.entry (start + i)) := by
    rw [List.range'_eq_map_range, List.map_map, List.map_map]
    rfl
  rw [slice, List.map_append, List.sum_append, hkeys]
  split <;> simp

end Column

/-! ## Numbers of partitions -/

theorem ceilDiv_le_iff {a b k : ℕ} (hb : 0 < b) : ceilDiv a b ≤ k ↔ a ≤ k * b := by
  rw [ceilDiv, ← Nat.lt_succ_iff, Nat.div_lt_iff_lt_mul hb, Nat.succ_mul]
  omega

theorem lt_ceilDiv_iff {a b k : ℕ} (hb : 0 < b) : k < ceilDiv a b ↔ k * b < a := by
  rw [← not_le, ceilDiv_le_iff hb, not_le]

theorem seqLenPartitionSize_pos : 0 < seqLenPartitionSize := by decide

/-- The work-groups reach over a sequence of the batch. -/
theorem updateRtParams_covers (maxPartitions : ℕ) (hasScoresOutput : Bool)
    {seqLen contextLen : ℕ} (h : seqLen ≤ contextLen) :
    0 < (updateRtParams maxPartitions hasScoresOutput contextLen).partitionsPerWg ∧
      ceilDiv seqLen seqLenPartitionSize ≤
        (updateRtParams maxPartitions hasScoresOutput contextLen).numOfPartitions *
          (updateRtParams maxPartitions hasScoresOutput contextLen).partitionsPerWg := by
  have hle : ceilDiv seqLen seqLenPartitionSize ≤ ceilDiv contextLen seqLenPartitionSize :=
    Nat.div_le_div_right (by omega)
  simp only [updateRtParams]
  split
  · rename_i hbound
    have hmax : 0 < maxPartitions ∧ maxPartitions < ceilDiv contextLen seqLenPartitionSize := by
      simp only [Bool.and_eq_true, decide_eq_true_eq] at hbound
      exact ⟨hbound.1.2, hbound.2⟩
    refine ⟨?_, hle.trans ?_⟩
    · rw [lt_ceilDiv_iff hmax.1, Nat.zero_mul]
      omega
    · rw [Nat.mul_comm, ← ceilDiv_le_iff hmax.1]
  · exact ⟨Nat.one_pos, by rwa [Nat.mul_one]⟩

section Partition

variable {F : Type} [Field F] {column : Column F} {partition : ℕ}

omit [Field F] in
theorem outOfRange_iff :
    outOfRange column partition ↔ column.seqLen ≤ partition * seqLenPartitionSize := by
  simp only [outOfRange, ceilDiv, seqLenPartitionSize, pagedAttentionBlockSize]
  omega

/-! ## The multiplication with the values -/

omit [Field F] in
theorem blocksNumPerPartition_eq : blocksNumPerPartition column partition =
    ceilDiv (partitionSeqLen column partition) pagedAttentionBlockSize := by
  simp only [blocksNumPerPartition, partitionSeqLen, ceilDiv, seqLenPartitionSize,
    pagedAttentionBlockSize, blocksPerPartition]
  omega

omit [Field F] in
/-- The block that is not full, if there is one, is behind all the others. -/
theorem leftoversOf_eq : leftoversOf column partition =
    (partitionSeqLen column partition % pagedAttentionBlockSize,
      partitionSeqLen column partition / pagedAttentionBlockSize) := by
  rw [leftoversOf, blocksNumPerPartition_eq]
  generalize partitionSeqLen column partition = n
  by_cases h : ceilDiv n pagedAttentionBlockSize * pagedAttentionBlockSize - n = 0
  · rw [if_neg fun hne => hne h, Prod.mk.injEq]
    simp only [ceilDiv, pagedAttentionBlockSize] at h ⊢
    omega
  · rw [if_pos h, Prod.mk.injEq]
    simp only [ceilDiv, pagedAttentionBlockSize] at h ⊢
    omega

variable (weight : ℕ → F)

variable (column partition) in
/-- What a token of the partition adds. -/
def tokenValue (i : ℕ) : F :=
  weight i * (column.entry (partition * seqLenPartitionSize + i)).2

theorem tokenSum_eq (block tokens : ℕ) : tokenSum column partition weight block tokens =
    ∑ i ∈ Finset.Ico (block * pagedAttentionBlockSize) (block * pagedAttentionBlockSize + tokens),
      tokenValue column partition weight i := by
  rw [Finset.sum_Ico_eq_sum_range, Nat.add_sub_cancel_left]
  rfl

theorem blockSum_eq (start stop : ℕ) : blockSum column partition weight start stop =
    ∑ i ∈ Finset.Ico (start * pagedAttentionBlockSize) (stop * pagedAttentionBlockSize),
      tokenValue column partition weight i := by
  rcases Nat.le_total stop start with h | h
  · rw [blockSum, Finset.Ico_eq_empty_of_le h,
      Finset.Ico_eq_empty_of_le (Nat.mul_le_mul_right _ h), Finset.sum_empty, Finset.sum_empty]
  · induction stop, h using Nat.le_induction with
    | base => simp [blockSum]
    | succ stop h ih =>
        rw [blockSum, Finset.sum_Ico_succ_top h, ← blockSum, ih, tokenSum_eq, Nat.succ_mul]
        exact Finset.sum_Ico_consecutive _ (Nat.mul_le_mul_right _ h) (Nat.le_add_right _ _)

/-- Every token of the partition once, whichever half of the sub-groups has it. -/
theorem accumulate_fst (sgScale : SgScaleFactor) (lower upper : F) :
    (accumulate column partition weight sgScale lower upper).1 = lower +
      ∑ i ∈ Finset.range (partitionSeqLen column partition),
        tokenValue column partition weight i := by
  have hle : partitionSeqLen column partition ≤ 256 := Nat.min_le_right _ _
  simp only [accumulate, leftoverSum, leftoversOf_eq, blockSum_eq, tokenSum_eq]
  generalize partitionSeqLen column partition = n at hle ⊢
  generalize tokenValue column partition weight = f
  simp only [seqLenPartitionSize, pagedAttentionBlockSize]
  have hfull : n / 16 * 16 + n % 16 = n := by omega
  have hjoin := Finset.sum_Ico_consecutive f (Nat.zero_le (n / 16 * 16)) (Nat.div_mul_le_self n 16)
  cases sgScale with
  | one => rw [Nat.zero_mul, hfull, add_assoc, hjoin, Finset.range_eq_Ico]
  | two =>
      rw [Nat.zero_mul, hfull]
      norm_num only
      rcases Nat.le_total (n / 16) 8 with h | h
      · -- the upper half has no full block
        rw [min_eq_right h, Finset.Ico_eq_empty_of_le (a := 128) (by omega), Finset.sum_empty,
          zero_add]
        split
        · rw [add_assoc, hjoin, Finset.range_eq_Ico]
        · have hn : n / 16 * 16 = n := by omega
          rw [hn, Finset.range_eq_Ico]
      · have hstart : 128 ≤ n / 16 * 16 := by omega
        have hstop : n / 16 ≤ 16 := by omega
        have hn : 128 ≤ n := by omega
        rw [min_eq_left h, min_eq_right hstop,
          Finset.sum_Ico_consecutive f hstart (Nat.div_mul_le_self n 16)]
        split
        · rw [add_assoc, Finset.sum_Ico_consecutive f (Nat.zero_le _) hn, Finset.range_eq_Ico]
        · have hn : n = 128 := by omega
          rw [hn, Finset.range_eq_Ico]

end Partition

section Steps

variable {F : Type} [Field F] [LinearOrder F] {exp : F → F} {valMin : F}
variable {column : Column F} {partition : ℕ}

/-! ## A partition's stats -/

omit [LinearOrder F] in
theorem sum_part (f : Entry F → F) : ((column.part partition).map f).sum =
    (if partition = 0 then (column.sinkEntries.map f).sum else 0) +
      ∑ i ∈ Finset.range (partitionSeqLen column partition),
        f (column.entry (partition * seqLenPartitionSize + i)) := by
  have hlength : min ((partition + 1) * seqLenPartitionSize) column.seqLen -
      partition * seqLenPartitionSize = partitionSeqLen column partition := by
    simp only [partitionSeqLen, seqLenPartitionSize]
    omega
  rw [Column.part, Column.sum_slice, hlength]
  simp [seqLenPartitionSize]

omit [Field F] [LinearOrder F] in
theorem inSequence_iff {i : ℕ} (hi : i < seqLenPartitionSize) :
    partition * seqLenPartitionSize + i < column.seqLen ↔
      i < partitionSeqLen column partition := by
  simp only [partitionSeqLen, lt_min_iff, hi, and_true]
  omega

omit [LinearOrder F] in
/-- A sum over the slots of a partition that is nothing behind the sequence. -/
theorem sum_inSequence (f : ℕ → F) : (∑ i ∈ Finset.range seqLenPartitionSize,
      if partition * seqLenPartitionSize + i < column.seqLen then f i else 0) =
    ∑ i ∈ Finset.range (partitionSeqLen column partition), f i := by
  rw [← Finset.sum_filter]
  refine Finset.sum_congr (Finset.ext fun i => ?_) fun _ _ => rfl
  rw [Finset.mem_filter, Finset.mem_range, Finset.mem_range]
  have hle : partitionSeqLen column partition ≤ seqLenPartitionSize := Nat.min_le_right _ _
  constructor
  · rintro ⟨hi, hin⟩
    exact (inSequence_iff hi).mp hin
  · intro hi
    exact ⟨by omega, (inSequence_iff (by omega)).mpr hi⟩

theorem qkExp_eq {i : ℕ} (hi : i < partitionSeqLen column partition) :
    qkExp exp valMin column partition i =
      exp ((column.entry (partition * seqLenPartitionSize + i)).1 -
        qkMax valMin column partition) := by
  have hlt : i < seqLenPartitionSize := lt_of_lt_of_le hi (Nat.min_le_right _ _)
  rw [qkExp, qkAcc, if_pos ((inSequence_iff hlt).mpr hi)]

theorem partitionExpSum_eq : partitionExpSum exp valMin column partition =
    expSum exp (qkMax valMin column partition) (column.part partition) := by
  have hkeys : ∑ i ∈ Finset.range (partitionSeqLen column partition),
        qkExp exp valMin column partition i =
      ∑ i ∈ Finset.range (partitionSeqLen column partition),
        exp ((column.entry (partition * seqLenPartitionSize + i)).1 -
          qkMax valMin column partition) :=
    Finset.sum_congr rfl fun i hi => qkExp_eq (Finset.mem_range.mp hi)
  rw [partitionExpSum, sum_inSequence, hkeys, expSum, sum_part, Column.sinkEntries]
  cases column.sink with
  | none => simp
  | some sink => by_cases h : partition = 0 <;> simp [h, add_comm]

variable (exp valMin) in
/-- The values of a partition with a factor for all of them. -/
theorem sum_tokenValue (weight : ℕ → F) (factor : F)
    (h : ∀ i < partitionSeqLen column partition,
      weight i = qkExp exp valMin column partition i * factor) :
    ∑ i ∈ Finset.range (partitionSeqLen column partition), tokenValue column partition weight i =
      weighted exp (qkMax valMin column partition) (column.part partition) * factor := by
  rw [weighted, sum_part]
  have hsink : (column.sinkEntries.map fun entry : Entry F =>
      exp (entry.1 - qkMax valMin column partition) * entry.2).sum = 0 := by
    rw [Column.sinkEntries]
    cases column.sink <;> simp
  rw [hsink, ite_self, zero_add, Finset.sum_mul]
  refine Finset.sum_congr rfl fun i hi => ?_
  rw [tokenValue, h i (Finset.mem_range.mp hi), qkExp_eq (Finset.mem_range.mp hi), mul_right_comm]

/-- The stats in the state of a work-group. -/
def Running.stats (running : Running F) : Stats F := ⟨running.max, running.sum, running.lower⟩

omit [LinearOrder F] in
theorem Column.part_ne_nil (hlive : partition * seqLenPartitionSize < column.seqLen) :
    column.part partition ≠ [] := by
  apply Column.slice_ne_nil
  simp only [seqLenPartitionSize] at hlive ⊢
  omega

omit [LinearOrder F] in
/-- The kernel divides by a partition's sum and weighs by its share at once. -/
theorem mul_share (acc sum share denom : F) :
    acc * (share / (denom * sum)) = acc / sum * (share / denom) := by
  rw [div_mul_div_comm, mul_comm denom sum, mul_div_assoc]

variable [IsStrictOrderedRing F] (hexp : IsExponential exp) (sgScale : SgScaleFactor)
variable {running : Running F} {entries : List (Entry F)} {p : ℕ}

/-! ## The fold over the partitions of a work-group -/

include hexp

/-- The first partition of a work-group stands for itself. -/
theorem partitionStep_first (hlive : partition * seqLenPartitionSize < column.seqLen)
    (hlower : running.lower = 0) :
    (partitionStep exp valMin column partition sgScale 0 running).stats.Summarise exp
      (column.part partition) := by
  have hpos := hexp.expSum_pos (qkMax valMin column partition) (Column.part_ne_nil hlive)
  rw [← partitionExpSum_eq] at hpos
  refine ⟨partitionExpSum_eq, ?_⟩
  have hacc : (partitionStep exp valMin column partition sgScale 0 running).lower =
      weighted exp (qkMax valMin column partition) (column.part partition) *
        (partitionExpSum exp valMin column partition)⁻¹ := by
    rw [partitionStep, accumulate_fst,
      sum_tokenValue exp valMin _ (partitionExpSum exp valMin column partition)⁻¹]
    · simp [hlower]
    · intro i hi
      have hlt : i < seqLenPartitionSize := lt_of_lt_of_le hi (Nat.min_le_right _ _)
      rw [if_pos ((inSequence_iff hlt).mpr hi), if_pos rfl, div_eq_mul_inv]
  change (partitionStep exp valMin column partition sgScale 0 running).lower *
    partitionExpSum exp valMin column partition = _
  rw [hacc, inv_mul_cancel_right₀ hpos.ne']
  rfl

/-- A later partition is merged into what the work-group has. -/
theorem partitionStep_next (hlive : partition * seqLenPartitionSize < column.seqLen) (hp : p ≠ 0)
    (h : running.stats.Summarise exp entries) :
    (partitionStep exp valMin column partition sgScale p running).stats.Summarise exp
      (entries ++ column.part partition) := by
  have hpos := hexp.expSum_pos (qkMax valMin column partition) (Column.part_ne_nil hlive)
  rw [← partitionExpSum_eq] at hpos
  let own : Stats F := ⟨qkMax valMin column partition, partitionExpSum exp valMin column partition,
    weighted exp (qkMax valMin column partition) (column.part partition) /
      partitionExpSum exp valMin column partition⟩
  have hown : own.Summarise exp (column.part partition) :=
    ⟨partitionExpSum_eq, div_mul_cancel₀ _ hpos.ne'⟩
  let newMax := max running.max (qkMax valMin column partition)
  let alpha := running.sum * exp (running.max - newMax)
  let beta := own.sum * exp (own.max - newMax)
  have hnorm : weighted exp own.max (column.part partition) *
      (beta / ((alpha + beta) * own.sum)) = own.acc * (beta / (alpha + beta)) :=
    mul_share _ _ _ _
  have hacc : (partitionStep exp valMin column partition sgScale p running).lower =
      running.lower * (alpha / (alpha + beta)) + own.acc * (beta / (alpha + beta)) := by
    rw [partitionStep, accumulate_fst,
      sum_tokenValue exp valMin _ (beta / ((alpha + beta) * own.sum)), if_pos hp, hnorm]
    intro i hi
    have hlt : i < seqLenPartitionSize := lt_of_lt_of_le hi (Nat.min_le_right _ _)
    rw [if_pos ((inSequence_iff hlt).mpr hi), if_neg hp]
  have hmerge : (partitionStep exp valMin column partition sgScale p running).stats =
      Stats.merge exp newMax running.stats own := by
    rw [Running.stats, hacc, partitionStep, if_neg hp, if_neg hp]
    rfl
  rw [hmerge]
  exact h.merge hexp _ hown (Column.part_ne_nil hlive)

variable {params : PagedAttentionRuntimeParams}

/-- The loop, by the number of partitions that are left; `p` of them are done. -/
theorem foldPartitions_summarise (wg left : ℕ) (hp : p ≠ 0)
    (h : running.stats.Summarise exp (column.slice
      (wg * params.partitionsPerWg * seqLenPartitionSize)
      (min ((wg * params.partitionsPerWg + p) * seqLenPartitionSize) column.seqLen))) :
    (foldPartitions exp valMin column params sgScale wg left p running).stats.Summarise exp
      (column.slice (wg * params.partitionsPerWg * seqLenPartitionSize)
        (min ((wg * params.partitionsPerWg + (p + left)) * seqLenPartitionSize)
          column.seqLen)) := by
  induction left generalizing p running with
  | zero => exact h
  | succ left ih =>
      generalize hfirst : wg * params.partitionsPerWg = first at h ih ⊢
      rw [foldPartitions, hfirst]
      by_cases hout : outOfRange column (first + p)
      · -- the sequence ended before this partition
        rw [if_pos hout]
        rw [outOfRange_iff] at hout
        have hstop : column.seqLen ≤ (first + (p + (left + 1))) * seqLenPartitionSize :=
          hout.trans (Nat.mul_le_mul_right _ (by omega))
        rw [min_eq_right hout] at h
        rwa [min_eq_right hstop]
      · rw [if_neg hout]
        rw [outOfRange_iff, not_le] at hout
        have hnext : p + (left + 1) = p + 1 + left := by omega
        rw [hnext]
        refine ih (Nat.succ_ne_zero p) ?_
        rw [min_eq_left hout.le] at h
        have hstep : (partitionStep exp valMin column (first + p) sgScale p
            running).stats.Summarise exp _ := partitionStep_next hexp sgScale hout hp h
        have hpos : 0 < (first + p) * seqLenPartitionSize :=
          Nat.mul_pos (by omega) seqLenPartitionSize_pos
        rwa [Column.part, Column.slice_append hpos (Nat.mul_le_mul_right _ (Nat.le_add_right _ _))
          (le_min (Nat.mul_le_mul_right _ (Nat.le_succ _)) hout.le)] at hstep

/-- What a work-group stands for. -/
theorem workGroup_summarise (hper : 0 < params.partitionsPerWg) {wg : ℕ}
    (h : workGroup exp valMin column params sgScale wg = some running) :
    running.stats.Summarise exp
      (column.slice (wg * params.partitionsPerWg * seqLenPartitionSize)
        (min ((wg + 1) * params.partitionsPerWg * seqLenPartitionSize) column.seqLen)) := by
  rw [workGroup] at h
  split at h
  · cases h
  · rename_i hin
    have hlive : wg * params.partitionsPerWg * seqLenPartitionSize < column.seqLen := by
      rwa [outOfRange_iff, not_le] at hin
    obtain ⟨left, hleft⟩ := Nat.exists_eq_add_of_lt hper
    rw [Nat.zero_add] at hleft
    have hstop : (wg + 1) * params.partitionsPerWg = wg * params.partitionsPerWg + (1 + left) := by
      rw [Nat.succ_mul, hleft]
      omega
    have hfold : running = foldPartitions exp valMin column params sgScale wg left 1
        (partitionStep exp valMin column (wg * params.partitionsPerWg) sgScale 0
          ⟨valMin, 0, 0, 0⟩) := by
      rw [← Option.some.inj h]
      conv_lhs => arg 7; rw [hleft]
      rw [foldPartitions]
      exact if_neg hin
    rw [hfold, hstop]
    exact foldPartitions_summarise hexp sgScale wg left one_ne_zero
      (partitionStep_first hexp sgScale hlive rfl)

end Steps

/-! ## What the work-groups write -/

section Writes

variable {F : Type} [Field F] [LinearOrder F] {exp : F → F} {valMin : F} {column : Column F}
variable {params : PagedAttentionRuntimeParams} {sgScale : SgScaleFactor} {running : Running F}
variable {order : List ℕ} {buffers : Buffers F} {wg : ℕ}

theorem workGroup_isSome : (workGroup exp valMin column params sgScale wg).isSome ↔
    wg * params.partitionsPerWg * seqLenPartitionSize < column.seqLen := by
  rw [← not_le, ← outOfRange_iff, workGroup]
  split
  · simp_all
  · simp_all

omit [Field F] [LinearOrder F] in
theorem lt_seqBoundedPartitions_iff (hper : 0 < params.partitionsPerWg) :
    wg < seqBoundedPartitions column params ↔
      wg * params.partitionsPerWg * seqLenPartitionSize < column.seqLen := by
  rw [seqBoundedPartitions, lt_ceilDiv_iff hper, lt_ceilDiv_iff seqLenPartitionSize_pos]

/-- A sequence that needs one work-group has it write the output. -/
theorem foldl_output (hone : ¬ seqBoundedPartitions column params > 1)
    (honly : ∀ other, (workGroup exp valMin column params sgScale other).isSome → other = wg)
    (hrunning : workGroup exp valMin column params sgScale wg = some running) (hwg : wg ∈ order) :
    (order.foldl (paSdpaOpt exp valMin column params sgScale) buffers).output = running.lower := by
  induction order using List.reverseRecOn with
  | nil => simp at hwg
  | append_singleton order last ih =>
      rw [List.foldl_concat]
      generalize order.foldl (paSdpaOpt exp valMin column params sgScale) buffers = before at ih ⊢
      rw [paSdpaOpt]
      cases hlast : workGroup exp valMin column params sgScale last with
      | none =>
          have hne : wg ≠ last := by
            rintro rfl
            simp [hrunning] at hlast
          exact ih (by simpa [hne] using hwg)
      | some other =>
          obtain rfl := honly last (by rw [hlast]; rfl)
          rw [hrunning] at hlast
          simp [hone, Option.some.inj hlast]

/-- Otherwise each of the sequence's work-groups writes its own slots. -/
theorem foldl_slots (hmany : seqBoundedPartitions column params > 1)
    (htotal : params.numOfPartitions > 1)
    (hrunning : workGroup exp valMin column params sgScale wg = some running) (hwg : wg ∈ order) :
    (⟨(order.foldl (paSdpaOpt exp valMin column params sgScale) buffers).maxLogits wg,
      (order.foldl (paSdpaOpt exp valMin column params sgScale) buffers).expSums wg,
      (order.foldl (paSdpaOpt exp valMin column params sgScale) buffers).tmpOut wg⟩ : Stats F) =
        running.stats := by
  induction order using List.reverseRecOn with
  | nil => simp at hwg
  | append_singleton order last ih =>
      rw [List.foldl_concat]
      generalize order.foldl (paSdpaOpt exp valMin column params sgScale) buffers = before at ih ⊢
      rw [paSdpaOpt]
      by_cases hne : wg = last
      · obtain rfl := hne
        simp [hrunning, hmany, htotal, Running.stats]
      · have hbefore := ih (by simpa [hne] using hwg)
        cases workGroup exp valMin column params sgScale last with
        | none => exact hbefore
        | some other => simpa [hmany, htotal, hne] using hbefore

end Writes

/-! ## Both kernels -/

/-- The work-groups' tokens one after the other. -/
theorem flatten_slices {F : Type} [Field F] {column : Column F} {chunk groups : ℕ}
    (hchunk : 0 < chunk) (hgroups : 0 < groups)
    (hlive : ∀ i < groups, i * chunk < column.seqLen) :
    ((List.range groups).map fun i =>
        column.slice (i * chunk) (min ((i + 1) * chunk) column.seqLen)).flatten =
      column.slice 0 (min (groups * chunk) column.seqLen) := by
  induction groups, hgroups using Nat.le_induction with
  | base => simp
  | succ groups hgroups ih =>
      have hlast := hlive groups (Nat.lt_succ_self _)
      rw [List.range_succ, List.map_append, List.flatten_append,
        ih fun i hi => hlive i (Nat.lt_succ_of_lt hi), min_eq_left hlast.le]
      have hle : groups * chunk ≤ min ((groups + 1) * chunk) column.seqLen :=
        le_min (Nat.mul_le_mul_right _ (Nat.le_succ _)) hlast.le
      simpa using Column.slice_append (Nat.mul_pos hgroups hchunk) (Nat.zero_le _) hle

section Bounded

variable {F : Type} [Field F] [LinearOrder F] [IsStrictOrderedRing F] {exp : F → F}
variable (hexp : IsExponential exp) {column : Column F} {params : PagedAttentionRuntimeParams}
variable {order : List ℕ}
include hexp

theorem boundedAttention_of_covers (valMin : F) (sgScale : SgScaleFactor)
    (merge : FinalizationMerge exp) (buffers : Buffers F) (hseq : 0 < column.seqLen)
    (hper : 0 < params.partitionsPerWg)
    (hcovers : ceilDiv column.seqLen seqLenPartitionSize ≤
      params.numOfPartitions * params.partitionsPerWg)
    (horder : order.Perm (List.range params.numOfPartitions)) :
    boundedAttention valMin column params sgScale merge order buffers =
      softmaxAverage exp column.entries := by
  have hbounded : seqBoundedPartitions column params ≤ params.numOfPartitions :=
    (ceilDiv_le_iff hper).mpr hcovers
  have hfirst : 0 < seqBoundedPartitions column params := by
    rw [lt_seqBoundedPartitions_iff hper]
    simpa using hseq
  have hmem : ∀ i < seqBoundedPartitions column params, i ∈ order := fun i hi =>
    horder.mem_iff.mpr (List.mem_range.mpr (hi.trans_le hbounded))
  have hrunning : ∀ i < seqBoundedPartitions column params, ∃ running : Running F,
      workGroup exp valMin column params sgScale i = some running := fun i hi =>
    Option.isSome_iff_exists.mp
      (workGroup_isSome.mpr ((lt_seqBoundedPartitions_iff hper).mp hi))
  have hstop : column.seqLen ≤ seqBoundedPartitions column params * params.partitionsPerWg *
      seqLenPartitionSize := by
    rw [← not_lt, ← lt_seqBoundedPartitions_iff hper]
    exact lt_irrefl _
  rw [boundedAttention, paSdpaFinalizationStage, min_eq_left hbounded]
  by_cases hone : seqBoundedPartitions column params ≤ 1
  · rw [if_pos hone]
    obtain ⟨running, hwork⟩ := hrunning 0 hfirst
    rw [foldl_output (not_lt.mpr hone) (fun other hother => ?_) hwork (hmem 0 hfirst)]
    · have hstats := workGroup_summarise hexp sgScale hper hwork
      have hfull : seqBoundedPartitions column params = 1 := by omega
      rw [hfull] at hstop
      rw [Nat.zero_mul, Nat.zero_mul, Nat.zero_add, min_eq_right hstop] at hstats
      exact hstats.average hexp (Column.slice_ne_nil hseq)
    · have hlt := (lt_seqBoundedPartitions_iff hper).mpr (workGroup_isSome.mp hother)
      omega
  · rw [if_neg hone]
    have hmany := not_le.mp hone
    let final := order.foldl (paSdpaOpt exp valMin column params sgScale) buffers
    let parts := (List.range (seqBoundedPartitions column params)).map fun i =>
      (⟨final.maxLogits i, final.expSums i, final.tmpOut i⟩ : Stats F)
    have hparts : parts ≠ [] :=
      List.map_eq_nil_iff.not.mpr (List.range_eq_nil.not.mpr hfirst.ne')
    have hgroups : List.Forall₂ (Stats.Summarise exp) parts
        ((List.range (seqBoundedPartitions column params)).map fun i =>
          column.slice (i * (params.partitionsPerWg * seqLenPartitionSize))
            (min ((i + 1) * (params.partitionsPerWg * seqLenPartitionSize)) column.seqLen)) := by
      rw [List.forall₂_map_right_iff, List.forall₂_map_left_iff, List.forall₂_same]
      intro i hi
      obtain ⟨running, hwork⟩ := hrunning i (List.mem_range.mp hi)
      rw [foldl_slots hmany (hmany.trans_le hbounded) hwork (hmem i (List.mem_range.mp hi)),
        ← Nat.mul_assoc, ← Nat.mul_assoc]
      exact workGroup_summarise hexp sgScale hper hwork
    obtain ⟨shift, hmerge⟩ := merge.run_eq parts hparts
    change merge.run parts = _
    rw [hmerge, Stats.mergeAll_eq hexp shift hgroups, flatten_slices
      (Nat.mul_pos hper seqLenPartitionSize_pos) hfirst, ← Nat.mul_assoc, min_eq_right hstop]
    · rfl
    · intro i hi
      rw [← Nat.mul_assoc]
      exact (lt_seqBoundedPartitions_iff hper).mp hi

/-- The kernels compute the average over the whole sequence, whatever the bound on the partitions,
the halves of the sub-groups, the longer sequences of the batch, the order of the work-groups and
what the buffers held before. -/
theorem boundedAttention_eq (maxPartitions contextLen : ℕ) (hasScoresOutput : Bool) (valMin : F)
    (sgScale : SgScaleFactor) (merge : FinalizationMerge exp) (buffers : Buffers F)
    (hseq : 0 < column.seqLen) (hcontext : column.seqLen ≤ contextLen)
    (horder : order.Perm
      (List.range (updateRtParams maxPartitions hasScoresOutput contextLen).numOfPartitions)) :
    boundedAttention valMin column (updateRtParams maxPartitions hasScoresOutput contextLen) sgScale
      merge order buffers = softmaxAverage exp column.entries := by
  obtain ⟨hper, hcovers⟩ := updateRtParams_covers maxPartitions hasScoresOutput hcontext
  exact boundedAttention_of_covers hexp valMin sgScale merge buffers hseq hper hcovers horder

end Bounded

/-- The merge by the largest of the partitions' maxima. -/
def FinalizationMerge.byMax {F : Type} [Field F] [LinearOrder F] (exp : F → F) (valMin : F) :
    FinalizationMerge exp where
  run parts := Stats.mergeAll exp ((parts.map Stats.max).foldl max valMin) parts
  run_eq _ _ := ⟨_, rfl⟩

/-- Four partitions in two work-groups, the later one first. -/
noncomputable def fourPartitions : Column ℝ := ⟨1000, fun i => (i, i), some 1⟩

theorem boundedAttention_eq_four :
    boundedAttention 0 fourPartitions (updateRtParams 2 false 1000) .two
      (.byMax Real.exp 0) [1, 0] ⟨0, 0, 0, 0⟩ = softmaxAverage Real.exp fourPartitions.entries :=
  boundedAttention_eq ⟨Real.exp_zero, Real.exp_add⟩ 2 1000 false 0 .two _ _
    (by simp [fourPartitions]) le_rfl (by decide)

/-! ## The served attention over the kernels -/

/-- The kernels as they are launched for an attention; the order of the work-groups is the
device's. -/
structure PagedKernels {F : Type} [Field F] (arith : Arith F) where
  maxPartitions : ℕ
  hasScoresOutput : Bool
  valMin : F
  sgScale : SgScaleFactor
  merge : FinalizationMerge arith.exp
  order : ℕ → List ℕ
  order_perm : ∀ n, (order n).Perm (List.range n)
  scratch : Buffers F

section Served

variable {F : Type} [Field F] (arith : Arith F) (config : AttentionConfig F)

/-- A head's column: the query is scaled ahead of the keys. -/
def pagedColumn (query : Heads F) (keys : List (Cached F)) (seqLen h e : ℕ) : Column F where
  seqLen := seqLen
  entry j :=
    let kv := h / (config.numAttentionHeads / config.numKeyValueHeads)
    let kept : Cached F := keys.getD j ⟨0, 0⟩
    (∑ c ∈ Finset.range config.headDim,
      arith.pow config.headDim (-half F) * query h c * kept.key kv c, kept.value kv e)
  sink := none

variable {arith config}

theorem Arith.isExponential : IsExponential arith.exp := ⟨arith.exp_zero, arith.exp_add⟩

/-- The block's core is the average over the tokens that there are. -/
theorem attend_eq_softmaxAverage (query : Heads F) (keys : List (Cached F)) (seqLen h e : ℕ)
    (hle : seqLen ≤ keys.length) :
    attend arith config query (keys.take seqLen) (fun _ => true) h e =
      softmaxAverage arith.exp (pagedColumn arith config query keys seqLen h e).entries := by
  have hget : ∀ j < seqLen, (keys.take seqLen).getD j ⟨0, 0⟩ = keys.getD j ⟨0, 0⟩ := by
    intro j hj
    rw [List.getD_eq_getElem?_getD, List.getD_eq_getElem?_getD, List.getElem?_take_of_lt hj]
  have hscore : ∀ key : ℕ → F, (∑ c ∈ Finset.range config.headDim, query h c * key c) *
        arith.pow config.headDim (-half F) =
      ∑ c ∈ Finset.range config.headDim,
        arith.pow config.headDim (-half F) * query h c * key c := by
    intro key
    rw [mul_comm, Finset.mul_sum]
    exact Finset.sum_congr rfl fun _ _ => (mul_assoc _ _ _).symm
  rw [softmaxAverage, weighted, expSum, Column.entries, Column.sum_slice, Column.sum_slice]
  simp only [attend, List.length_take_of_le hle, if_true, Column.sinkEntries, pagedColumn,
    List.map_nil, List.sum_nil, zero_add, sub_zero, Finset.sum_div]
  have hsum : ∑ j ∈ Finset.range seqLen, arith.exp ((∑ c ∈ Finset.range config.headDim,
        query h c * ((keys.take seqLen).getD j ⟨0, 0⟩).key
          (h / (config.numAttentionHeads / config.numKeyValueHeads)) c) *
        arith.pow config.headDim (-half F)) =
      ∑ j ∈ Finset.range seqLen, arith.exp (∑ c ∈ Finset.range config.headDim,
        arith.pow config.headDim (-half F) * query h c * (keys.getD j ⟨0, 0⟩).key
          (h / (config.numAttentionHeads / config.numKeyValueHeads)) c) := by
    refine Finset.sum_congr rfl fun j hj => ?_
    rw [hget j (Finset.mem_range.mp hj), hscore]
  rw [hsum]
  refine Finset.sum_congr rfl fun j hj => ?_
  rw [hget j (Finset.mem_range.mp hj), hscore, div_mul_eq_mul_div]
  rfl

variable [LinearOrder F] [IsStrictOrderedRing F]

variable (config)

/-- A forward's rows, each over the tokens kept before it. -/
def PagedKernels.run (kernels : PagedKernels arith) (past : List (Cached F))
    (rows : List (Heads F × Cached F)) : List (Heads F) :=
  rows.zipIdx.map fun (row, i) h e =>
    let params := updateRtParams kernels.maxPartitions kernels.hasScoresOutput
      (past.length + rows.length)
    boundedAttention kernels.valMin
      (pagedColumn arith config row.1 (past ++ rows.map Prod.snd) (past.length + i + 1) h e)
      params kernels.sgScale kernels.merge (kernels.order params.numOfPartitions) kernels.scratch

omit [IsStrictOrderedRing F] in
theorem PagedKernels.length_run (kernels : PagedKernels arith) (past : List (Cached F))
    (rows : List (Heads F × Cached F)) :
    (kernels.run config past rows).length = rows.length := by
  rw [run, List.length_map, List.length_zipIdx]

theorem PagedKernels.getElem?_run (kernels : PagedKernels arith) (past : List (Cached F))
    (rows : List (Heads F × Cached F)) (i : ℕ) (row : Heads F × Cached F)
    (hrow : rows[i]? = some row) :
    (kernels.run config past rows)[i]? =
      some (attend arith config row.1 (past ++ (rows.take (i + 1)).map Prod.snd)
        (fun _ => true)) := by
  have hi : i < rows.length := (List.getElem?_eq_some_iff.mp hrow).1
  have htake : past ++ (rows.take (i + 1)).map Prod.snd =
      (past ++ rows.map Prod.snd).take (past.length + i + 1) := by
    rw [List.map_take, Nat.add_assoc, List.take_length_add_append]
  rw [run, List.getElem?_map, List.getElem?_zipIdx, hrow, Nat.zero_add, htake]
  refine congrArg some (funext fun h => funext fun e => ?_)
  obtain ⟨hper, hcovers⟩ := updateRtParams_covers kernels.maxPartitions kernels.hasScoresOutput
    (Nat.add_le_add_left (Nat.succ_le_of_lt hi) past.length)
  rw [attend_eq_softmaxAverage]
  · exact boundedAttention_of_covers Arith.isExponential _ _ _ _ (Nat.succ_pos _) hper hcovers
      (kernels.order_perm _)
  · rw [List.length_append, List.length_map]
    omega

/-- The paged attention by the two kernels. -/
def PagedKernels.paged (kernels : PagedKernels arith) : PagedAttention arith config where
  run := kernels.run config
  length_run := kernels.length_run config
  getElem?_run := kernels.getElem?_run config

end Served

end Arcint.Network
