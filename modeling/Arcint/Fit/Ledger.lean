import Arcint.Foundation.Loop
import Arcint.Fit.PackedValues
import Mathlib.Data.Rat.Defs
import Mathlib.Data.List.Range

/-! # The fit ledger

A load measures the expert slots and climbs to the largest prefill chunk whose
activations fit, and keeps what it measured under a key. A later load with the
same key takes the stored figures. The climb also reads what is not in the key:
the context asked for, the bytes of a token, the drafters, a forced pool.
-/

namespace Arcint.Fit

open Foundation

structure FitLedgerKey where
  archHash : String
  weightsBytes : Nat
  device : String
  pluginBuild : String
  offloadRatio : Nat
  pagedKv : String
  moeCpuTier : Bool
  lanes : Nat
  kvBlockSize : Nat
  sliceLogits : Bool
  draftsMax : Nat
  fitMarginMib : Nat
  pagedAttentionMaxPartitions : Nat
  prefillChunk : Nat
  capOff : Bool
  deriving DecidableEq, Repr

/-- The heads of a model with 4-bit values. -/
structure PackedValuesScratchGeometry where
  heads : Nat
  headSize : Nat
  deriving DecidableEq, Repr

/-- What a load reads before it measures: the key, and what the key leaves out. -/
structure Load where
  key : FitLedgerKey
  /-- The context asked for, or the trained one. -/
  wanted : Nat
  nCtxExplicit : Bool
  /-- Bytes of a token in the precision in force, which the environment may override. -/
  kvBytesToken : Nat
  /-- The geometry when the values in force are 4-bit ones. -/
  packedGeom : Option PackedValuesScratchGeometry
  boundAccepted : Bool
  mixedStageOnMicro : Bool
  residentBase : Nat
  drafterBytes : Nat
  slab : Nat
  /-- The slot pool the environment forces. -/
  fitSlotBytes : Option Nat
  deriving DecidableEq, Repr

/-- The card with an artifact and a plugin on it: what every probe of it answers.
`none` is a forward that throws. -/
structure Card where
  total : Nat
  /-- The activations of lane 0 at a chunk. -/
  probe : Nat → Option Int
  /-- What a further lane adds at a chunk. -/
  added : Nat → Nat → Option Int
  /-- The expert bytes after some chunks of distinct tokens. -/
  residentExperts : Nat → Nat → Option Int
  staticPartition : Bool
  /-- The pinned pool by the graph or by the configuration, zero when neither has it. -/
  pinnedPool : Nat

structure FitLedgerEntry where
  key : FitLedgerKey
  slotPool : Nat
  chunk : Nat
  activationTotal : Int
  deriving DecidableEq, Repr

def kPrefillScratchBudgetBytesPackedValues : Nat := 2 ^ 29

namespace Load

def configured (l : Load) : Nat :=
  if 0 < l.key.prefillChunk then l.key.prefillChunk else 512

/-- What the belt is asked. -/
def beltRequest (l : Load) (geom : PackedValuesScratchGeometry) : BeltRequest :=
  { requestedChunk := l.configured
    heads := geom.heads
    headSize := geom.headSize
    elementBytes := if l.boundAccepted then 2 else 4
    scratchBudgetBytes := kPrefillScratchBudgetBytesPackedValues
    blockSize := l.key.kvBlockSize }

/-- The largest chunk the climb may reach. -/
def chunkCeiling (l : Load) : Nat :=
  match l.packedGeom with
  | none => l.configured
  | some geom =>
      if l.key.capOff then l.configured
      else if l.mixedStageOnMicro then
        max (packedValuesMeasuredChunkCap l.configured l.key.kvBlockSize
          kMaxMeasuredPackedValuesChunkMicro) 1
      else
        max ((l.beltRequest geom).belt (packedValuesBoundedPartitions l.wanted
          (if l.boundAccepted then l.key.pagedAttentionMaxPartitions else 0))) 1

/-- The chunk of the first probes. -/
def probeFloor (l : Load) : Nat :=
  min (min l.configured 128) l.chunkCeiling

/-- Everything a load charges that does not move with the chunk. -/
def fixedBytes (l : Load) (slotPool : Nat) : Int :=
  l.residentBase + l.drafterBytes + slotPool + l.key.fitMarginMib * 2 ^ 20 +
    l.key.lanes * (l.slab + l.wanted * l.kvBytesToken)

end Load

/-! ## The expert slots -/

/-- The variables of the plateau probe. -/
structure Plateau where
  highWater : Int
  prev : Int
  plateaued : Nat
  deriving DecidableEq, Repr

/-- Chunks of distinct tokens from chunk `iter` on, at most `left`, until two in a
row have not grown. -/
def plateauProbe (card : Card) (floor : Nat) : Nat → Nat → Plateau → Option Plateau
  | _, 0, s => some s
  | iter, left + 1, s =>
      if s.plateaued < 2 then
        match card.residentExperts floor iter with
        | none => none
        | some now => plateauProbe card floor (iter + 1) left
            { highWater := max s.highWater now
              prev := now
              plateaued := if now ≤ s.prev then s.plateaued + 1 else 0 }
      else some s

def plateau (card : Card) (floor : Nat) : Option Nat :=
  (plateauProbe card floor 0 8 ⟨0, 0, 0⟩).map fun s => s.highWater.toNat

/-- The slots as this load prices them itself; `none` when it refuses to go on. -/
def probedSlotPool (card : Card) (l : Load) : Option Nat :=
  match plateau card l.probeFloor with
  | some bytes => some bytes
  | none =>
      if l.key.moeCpuTier && card.staticPartition then
        if card.pinnedPool = 0 then none else some card.pinnedPool
      else if l.nCtxExplicit then some 0
      else none

/-- The pool a load charges: none without offloading, a forced figure before any
other. -/
def slotPoolOr (l : Load) (priced : Option Nat) : Option Nat :=
  if l.key.offloadRatio = 0 then some 0
  else
    match l.fitSlotBytes with
    | some bytes => some bytes
    | none => priced

/-! ## The climb -/

/-- The line through the last two measurements, and where the climb stands. -/
structure ActivationFit where
  chunk : Nat
  activation : Int
  slope : Rat
  intercept : Rat
  deriving DecidableEq

/-- A cast to an integer drops the fraction. -/
def truncated (q : Rat) : Int :=
  q.num.tdiv q.den

def kHeadroom : Rat := 5 / 4

/-- The bytes expected at twice the chunk, with headroom. -/
def predictedBytes (slopeExtra : Rat) (s : ActivationFit) : Int :=
  truncated ((s.intercept + (s.slope + slopeExtra) * (s.chunk * 2 : Nat)) * kHeadroom)

/-- The line through the two most recent points. -/
def refit (s : ActivationFit) (measured : Int) : ActivationFit :=
  if s.activation < measured then
    let slope : Rat :=
      ((measured - s.activation : Int) : Rat) / ((s.chunk * 2 - s.chunk : Nat) : Rat)
    { chunk := s.chunk * 2
      activation := measured
      slope
      intercept := (measured : Rat) - slope * (s.chunk * 2 : Nat) }
  else { s with chunk := s.chunk * 2, activation := measured }

/-- The doubling loop. The chunk doubles below a limit, so `fuel` of that limit is
enough. -/
def activationClimb (card : Card) (l : Load) (slotPool : Nat) (slopeExtra : Rat) :
    Nat → ActivationFit → ActivationFit
  | 0, s => s
  | fuel + 1, s =>
      if s.chunk * 2 ≤ l.configured ∧ s.chunk * 2 ≤ l.chunkCeiling then
        if (card.total : Int) < l.fixedBytes slotPool + predictedBytes slopeExtra s then s
        else
          match card.probe (s.chunk * 2) with
          | none => s
          | some measured =>
              if (card.total : Int) < l.fixedBytes slotPool + measured then
                { s with chunk := s.chunk * 2, activation := measured }
              else activationClimb card l slotPool slopeExtra fuel (refit s measured)
      else s

/-- What the lanes after the first add at a chunk. -/
def addedLanes (card : Card) (lanes chunk : Nat) : Option Int :=
  ((List.range (lanes - 1)).mapM fun i => card.added (i + 1) chunk).map fun added =>
    (added.map (max · 0)).sum

structure Measured where
  chunk : Nat
  activationTotal : Int
  slotPool : Nat
  deriving DecidableEq, Repr

/-- Where the climb starts: one measurement, and the line from the origin. -/
def climbFloor (floor : Nat) (activation : Int) : ActivationFit :=
  { chunk := floor, activation, slope := ((max activation 1 : Int) : Rat) / (floor : Rat),
    intercept := 0 }

/-- The climb of a load and the lanes at the chunk it reaches. -/
def measureActivations (card : Card) (l : Load) (slotPool : Nat) : Option Measured :=
  match card.probe l.probeFloor, addedLanes card l.key.lanes l.probeFloor with
  | some activation, some extra =>
      let s := activationClimb card l slotPool ((extra : Rat) / (l.probeFloor : Rat)) l.configured
        (climbFloor l.probeFloor activation)
      match addedLanes card l.key.lanes s.chunk with
      | some others => some ⟨s.chunk, s.activation + others, slotPool⟩
      | none => none
  | _, _ => none

/-- A load that measures everything itself. -/
def measure (card : Card) (l : Load) : Option Measured :=
  match slotPoolOr l (probedSlotPool card l) with
  | some slotPool => measureActivations card l slotPool
  | none => none

/-- What a measuring load leaves in the ledger: nothing under a forced pool. -/
def stored (card : Card) (l : Load) : Option FitLedgerEntry :=
  if l.key.offloadRatio ≠ 0 ∧ l.fitSlotBytes.isSome then none
  else (measure card l).map fun m => ⟨l.key, m.slotPool, m.chunk, m.activationTotal⟩

/-- What a load takes on a ledger hit. -/
def recalled (entry : FitLedgerEntry) (l : Load) : Option Measured :=
  (slotPoolOr l (some entry.slotPool)).map fun slotPool =>
    ⟨max entry.chunk 1, entry.activationTotal, slotPool⟩

/-! ## Rungs

The measurements of a climb lie on one ladder, whatever the load charges. What a
load decides is on which rung it stops.
-/

/-- The line after `k` doublings that were all measured. -/
def rung (card : Card) (start : ActivationFit) : Nat → ActivationFit
  | 0 => start
  | k + 1 =>
      match card.probe ((rung card start k).chunk * 2) with
      | some measured => refit (rung card start k) measured
      | none => rung card start k

namespace Load

def start (l : Load) (card : Card) : ActivationFit :=
  climbFloor l.probeFloor ((card.probe l.probeFloor).getD 0)

def slopeExtra (l : Load) (card : Card) : Rat :=
  (((addedLanes card l.key.lanes l.probeFloor).getD 0 : Int) : Rat) / (l.probeFloor : Rat)

/-- The load goes on from a rung: it has not overshot on arrival, the chunk may
double, the prediction fits beside the fixed terms and the probe does not throw. -/
def GoesOn (l : Load) (card : Card) (slotPool k : Nat) : Prop :=
  (k = 0 ∨ l.fixedBytes slotPool + (rung card (l.start card) k).activation ≤ card.total) ∧
    (rung card (l.start card) k).chunk * 2 ≤ min l.configured l.chunkCeiling ∧
    l.fixedBytes slotPool + predictedBytes (l.slopeExtra card) (rung card (l.start card) k) ≤
      card.total ∧
    (card.probe ((rung card (l.start card) k).chunk * 2)).isSome

instance (l : Load) (card : Card) (slotPool k : Nat) : Decidable (l.GoesOn card slotPool k) :=
  inferInstanceAs (Decidable (_ ∧ _ ∧ _ ∧ _))

theorem configured_pos (l : Load) : 0 < l.configured := by
  unfold configured
  split
  next hpos => exact hpos
  next => decide

theorem chunkCeiling_pos (l : Load) : 0 < l.chunkCeiling := by
  unfold chunkCeiling
  split
  · exact l.configured_pos
  · split
    · exact l.configured_pos
    · split <;> exact Nat.lt_of_lt_of_le Nat.zero_lt_one (Nat.le_max_right _ _)

theorem probeFloor_pos (l : Load) : 0 < l.probeFloor := by
  have hconfigured := l.configured_pos
  have hceiling := l.chunkCeiling_pos
  unfold probeFloor
  omega

end Load

theorem refit_chunk (s : ActivationFit) (measured : Int) :
    (refit s measured).chunk = s.chunk * 2 := by
  unfold refit
  split <;> rfl

theorem refit_activation (s : ActivationFit) (measured : Int) :
    (refit s measured).activation = measured := by
  unfold refit
  split <;> rfl

theorem rung_succ {card : Card} {start : ActivationFit} {k : Nat} {measured : Int}
    (hprobe : card.probe ((rung card start k).chunk * 2) = some measured) :
    rung card start (k + 1) = refit (rung card start k) measured := by
  simp only [rung, hprobe]

section Climb

variable {card : Card} {l : Load} {slotPool : Nat}

/-- A rung which the load goes on to has twice the chunk of the one before. -/
theorem rung_chunk {n : Nat} (hon : ∀ j < n, l.GoesOn card slotPool j) :
    (rung card (l.start card) n).chunk = l.probeFloor * 2 ^ n := by
  induction n with
  | zero => exact (Nat.mul_one _).symm
  | succ n ih =>
      obtain ⟨measured, hprobe⟩ := Option.isSome_iff_exists.mp (hon n (Nat.lt_succ_self n)).2.2.2
      rw [rung_succ hprobe, refit_chunk, ih fun j hj => hon j (Nat.lt_succ_of_lt hj), Nat.pow_succ,
        Nat.mul_assoc]

/-- The loop from a rung on ends on the first rung that the load does not leave. -/
theorem activationClimb_from (fuel k : Nat)
    (hon : ∀ j < k, l.GoesOn card slotPool j)
    (harrived : k = 0 ∨
      l.fixedBytes slotPool + (rung card (l.start card) k).activation ≤ card.total)
    (hfuel : l.configured < (rung card (l.start card) k).chunk * 2 ^ fuel) :
    ∃ n, StopsAt (l.GoesOn card slotPool) n ∧
      (activationClimb card l slotPool (l.slopeExtra card) fuel
        (rung card (l.start card) k)).chunk = (rung card (l.start card) n).chunk ∧
      (activationClimb card l slotPool (l.slopeExtra card) fuel
        (rung card (l.start card) k)).activation = (rung card (l.start card) n).activation := by
  induction fuel generalizing k with
  | zero =>
      refine ⟨k, ⟨hon, ?_⟩, rfl, rfl⟩
      rintro ⟨_, hlimit, _⟩
      omega
  | succ fuel ih =>
      unfold activationClimb
      split
      next hlimit =>
        have hlimit' := Nat.le_min.mpr hlimit
        split
        next hpredicted =>
          refine ⟨k, ⟨hon, ?_⟩, rfl, rfl⟩
          rintro ⟨_, _, hle, _⟩
          exact absurd hle (Int.not_le.mpr hpredicted)
        next hpredicted =>
          split
          next hthrows =>
            refine ⟨k, ⟨hon, ?_⟩, rfl, rfl⟩
            rintro ⟨_, _, _, hsome⟩
            rw [hthrows] at hsome
            cases hsome
          next measured hprobe =>
            have hgoes : l.GoesOn card slotPool k :=
              ⟨harrived, hlimit', Int.not_lt.mp hpredicted, by rw [hprobe]; rfl⟩
            have hon' : ∀ j < k + 1, l.GoesOn card slotPool j := by
              intro j hj
              rcases Nat.lt_succ_iff_lt_or_eq.mp hj with hlt | rfl
              · exact hon j hlt
              · exact hgoes
            have hchunk : (rung card (l.start card) (k + 1)).chunk =
                (rung card (l.start card) k).chunk * 2 := by
              rw [rung_succ hprobe, refit_chunk]
            have hactivation : (rung card (l.start card) (k + 1)).activation = measured := by
              rw [rung_succ hprobe, refit_activation]
            split
            next hovershot =>
              refine ⟨k + 1, ⟨hon', ?_⟩, hchunk.symm, hactivation.symm⟩
              rintro ⟨hfirst | hfits, _⟩
              · cases hfirst
              · rw [hactivation] at hfits
                exact absurd hfits (Int.not_le.mpr hovershot)
            next hfits =>
              rw [← rung_succ hprobe]
              apply ih (k + 1) hon'
              · right
                rw [hactivation]
                exact Int.not_lt.mp hfits
              · rw [hchunk, Nat.mul_assoc, ← Nat.pow_succ']
                exact hfuel
      next hlimit =>
        refine ⟨k, ⟨hon, ?_⟩, rfl, rfl⟩
        rintro ⟨_, hle, _⟩
        exact hlimit (Nat.le_min.mp hle)

/-- A load whose first probes answer measures at the rung where it stops. -/
theorem measureActivations_eq {activation extra : Int}
    (hprobe : card.probe l.probeFloor = some activation)
    (hadded : addedLanes card l.key.lanes l.probeFloor = some extra) :
    ∃ n, StopsAt (l.GoesOn card slotPool) n ∧
      measureActivations card l slotPool =
        (addedLanes card l.key.lanes (l.probeFloor * 2 ^ n)).map fun others =>
          ⟨l.probeFloor * 2 ^ n, (rung card (l.start card) n).activation + others, slotPool⟩ := by
  have hfuel : l.configured < (rung card (l.start card) 0).chunk * 2 ^ l.configured :=
    Nat.lt_of_lt_of_le Nat.lt_two_pow_self (Nat.le_mul_of_pos_left _ l.probeFloor_pos)
  obtain ⟨n, hstops, hchunk, hactivation⟩ :=
    @activationClimb_from card l slotPool l.configured 0 (fun j hj => absurd hj (Nat.not_lt_zero j))
      (.inl rfl) hfuel
  refine ⟨n, hstops, ?_⟩
  rw [rung_chunk hstops.1] at hchunk
  have hstart : climbFloor l.probeFloor activation = rung card (l.start card) 0 := by
    simp only [rung, Load.start, hprobe, Option.getD_some]
  have hslope : (extra : Rat) / (l.probeFloor : Rat) = l.slopeExtra card := by
    simp only [Load.slopeExtra, hadded, Option.getD_some]
  unfold measureActivations
  simp only [hprobe, hadded]
  rw [hstart, hslope, hchunk, hactivation]
  cases addedLanes card l.key.lanes (l.probeFloor * 2 ^ n) <;> rfl

theorem measureActivations_some {m : Measured} (hm : measureActivations card l slotPool = some m) :
    ∃ activation extra others n, card.probe l.probeFloor = some activation ∧
      addedLanes card l.key.lanes l.probeFloor = some extra ∧
      StopsAt (l.GoesOn card slotPool) n ∧
      addedLanes card l.key.lanes (l.probeFloor * 2 ^ n) = some others ∧
      m = ⟨l.probeFloor * 2 ^ n, (rung card (l.start card) n).activation + others, slotPool⟩ := by
  have hfirst : ∃ activation extra, card.probe l.probeFloor = some activation ∧
      addedLanes card l.key.lanes l.probeFloor = some extra := by
    unfold measureActivations at hm
    split at hm
    next activation extra hprobe hadded => exact ⟨activation, extra, hprobe, hadded⟩
    next => cases hm
  obtain ⟨activation, extra, hprobe, hadded⟩ := hfirst
  obtain ⟨n, hstops, heq⟩ := @measureActivations_eq card l slotPool _ _ hprobe hadded
  rw [heq] at hm
  obtain ⟨others, hothers, rfl⟩ := Option.map_eq_some_iff.mp hm
  exact ⟨activation, extra, others, n, hprobe, hadded, hstops, hothers, rfl⟩

/-- A load with the lower floor has it from its ceiling and does not climb. -/
theorem probeFloor_le_of_chunk {first second : Load} {firstPool m n : Nat}
    (hconfigured : first.configured = second.configured)
    (hfirst : StopsAt (first.GoesOn card firstPool) m)
    (hchunk : first.probeFloor * 2 ^ m = second.probeFloor * 2 ^ n) :
    second.probeFloor ≤ first.probeFloor := by
  apply Nat.le_of_not_lt
  intro hlt
  have hceiling : first.probeFloor = first.chunkCeiling := by
    unfold Load.probeFloor at hlt ⊢
    omega
  have hzero : m = 0 := by
    apply Nat.eq_zero_of_not_pos
    intro hpos
    obtain ⟨_, hlimit, _⟩ := hfirst.1 0 hpos
    have hdouble : first.probeFloor * 2 ≤ first.chunkCeiling := hlimit.trans (Nat.min_le_right _ _)
    have hfloor := first.probeFloor_pos
    omega
  rw [hzero, Nat.pow_zero, Nat.mul_one] at hchunk
  have hle : second.probeFloor ≤ second.probeFloor * 2 ^ n :=
    Nat.le_mul_of_pos_right _ (Nat.two_pow_pos n)
  omega

/-- Loads that stop at the same chunk start at the same floor and climb as far. -/
theorem rungs_of_chunk {first second : Load} {firstPool secondPool m n : Nat}
    (hconfigured : first.configured = second.configured)
    (hfirst : StopsAt (first.GoesOn card firstPool) m)
    (hsecond : StopsAt (second.GoesOn card secondPool) n)
    (hchunk : first.probeFloor * 2 ^ m = second.probeFloor * 2 ^ n) :
    first.probeFloor = second.probeFloor ∧ m = n := by
  have hfloor : first.probeFloor = second.probeFloor := Nat.le_antisymm
    (probeFloor_le_of_chunk hconfigured.symm hsecond hchunk.symm)
    (probeFloor_le_of_chunk hconfigured hfirst hchunk)
  rw [hfloor] at hchunk
  exact ⟨hfloor, Nat.pow_right_injective (Nat.le_refl 2)
    (Nat.eq_of_mul_eq_mul_left second.probeFloor_pos hchunk)⟩

end Climb

/-! ## A hit against a measurement -/

/-- The pool a load charges on a hit. -/
def poolInForce (slotPool : Nat) (l : Load) : Nat :=
  if l.key.offloadRatio = 0 then 0 else l.fitSlotBytes.getD slotPool

/-- The load would price its own slots: none to price, a forced figure, a probe that
settles at its floor, a pinned pool, or a context it is held to. -/
def Load.Prices (l : Load) (card : Card) : Prop :=
  l.key.offloadRatio = 0 ∨ l.fitSlotBytes.isSome ∨ (plateau card l.probeFloor).isSome ∨
    (l.key.moeCpuTier && card.staticPartition) = true ∨ l.nCtxExplicit = true

/-- Two loads of one key measure alike: from one floor, with the slots priced, and
with one answer on every rung that both of them reach. -/
structure MeasuresAlike (card : Card) (entry : FitLedgerEntry) (first second : Load) : Prop where
  floor : first.probeFloor = second.probeFloor
  prices : second.Prices card
  rungs : ∀ k, (∀ j < k, first.GoesOn card entry.slotPool j ∧
      second.GoesOn card (poolInForce entry.slotPool second) j) →
    (first.GoesOn card entry.slotPool k ↔ second.GoesOn card (poolInForce entry.slotPool second) k)

theorem recalled_eq (entry : FitLedgerEntry) (l : Load) :
    recalled entry l =
      some ⟨max entry.chunk 1, entry.activationTotal, poolInForce entry.slotPool l⟩ := by
  unfold recalled slotPoolOr poolInForce
  split
  next => rfl
  next =>
    cases l.fitSlotBytes <;> rfl

theorem prices_of_slotPoolOr {card : Card} {l : Load} {bytes : Nat}
    (hpool : slotPoolOr l (probedSlotPool card l) = some bytes) : l.Prices card := by
  unfold slotPoolOr at hpool
  split at hpool
  next hnone => exact .inl hnone
  next =>
    split at hpool
    next forced hforced => exact .inr (.inl (by rw [hforced]; rfl))
    next =>
      unfold probedSlotPool at hpool
      split at hpool
      next probed hprobed => exact .inr (.inr (.inl (by rw [hprobed]; rfl)))
      next =>
        split at hpool
        next hstatic => exact .inr (.inr (.inr (.inl hstatic)))
        next =>
          split at hpool
          next hexplicit => exact .inr (.inr (.inr (.inr hexplicit)))
          next => cases hpool

/-- A load that prices its slots charges what a load before it has stored, unless
the environment forces a figure. -/
theorem slotPoolOr_eq_poolInForce {card : Card} {first second : Load} {slotPool : Nat}
    (hkey : second.key = first.key) (hfloor : first.probeFloor = second.probeFloor)
    (hunforced : ¬ (first.key.offloadRatio ≠ 0 ∧ first.fitSlotBytes.isSome))
    (hfirst : slotPoolOr first (probedSlotPool card first) = some slotPool)
    (hprices : second.Prices card) :
    slotPoolOr second (probedSlotPool card second) = some (poolInForce slotPool second) := by
  unfold slotPoolOr poolInForce
  rw [hkey]
  split
  next => rfl
  next hoffload =>
    cases hforced : second.fitSlotBytes with
    | some bytes => rfl
    | none =>
        have hfree : first.fitSlotBytes = none :=
          Option.not_isSome_iff_eq_none.mp fun hsome => hunforced ⟨hoffload, hsome⟩
        unfold slotPoolOr at hfirst
        rw [if_neg hoffload, hfree] at hfirst
        rw [Option.getD_none, ← hfirst]
        unfold probedSlotPool
        rw [hkey, hfloor]
        cases hplateau : plateau card second.probeFloor with
        | some bytes => rfl
        | none =>
            dsimp only
            split
            next => rfl
            next hstatic =>
              -- the first load has been priced by nothing but its explicit context
              have hexplicit : second.nCtxExplicit = true := by
                simpa [Load.Prices, hkey, hoffload, hforced, hplateau, hstatic] using hprices
              have hfirst' : first.nCtxExplicit = true ∧ 0 = slotPool := by
                unfold probedSlotPool at hfirst
                rw [hfloor, hplateau] at hfirst
                simpa [hstatic] using hfirst
              rw [hexplicit, hfirst'.1]

theorem configured_eq {first second : Load} (hkey : second.key = first.key) :
    second.configured = first.configured := by
  unfold Load.configured
  rw [hkey]

theorem start_eq {card : Card} {first second : Load}
    (hfloor : first.probeFloor = second.probeFloor) : second.start card = first.start card := by
  unfold Load.start
  rw [hfloor]

/-- A ledger hit gives what the load would have measured exactly when the load
measures alike with the one that stored the entry. -/
theorem recalled_eq_measure_iff (card : Card) (first second : Load) (entry : FitLedgerEntry)
    (hstored : stored card first = some entry) (hkey : second.key = entry.key) :
    recalled entry second = measure card second ↔ MeasuresAlike card entry first second := by
  unfold stored at hstored
  split at hstored
  next => cases hstored
  next hunforced =>
  obtain ⟨m, hmeasure, rfl⟩ := Option.map_eq_some_iff.mp hstored
  replace hkey : second.key = first.key := hkey
  unfold measure at hmeasure
  split at hmeasure
  next firstPool hfirstPool =>
    obtain ⟨activation, extra, others, n, hprobe, hadded, hstops, hothers, rfl⟩ :=
      measureActivations_some hmeasure
    have hpos : 0 < first.probeFloor * 2 ^ n :=
      Nat.mul_pos first.probeFloor_pos (Nat.two_pow_pos n)
    rw [recalled_eq]
    dsimp only
    rw [Nat.max_eq_left (Nat.succ_le_of_lt hpos)]
    constructor
    · intro heq
      unfold measure at heq
      split at heq
      next secondPool hsecondPool =>
        obtain ⟨_, _, _, n', _, _, hstops', _, hm⟩ := measureActivations_some heq.symm
        obtain ⟨hchunk, _, rfl⟩ := Measured.mk.injEq .. ▸ hm
        obtain ⟨hfloor, hrung⟩ := rungs_of_chunk (configured_eq hkey).symm hstops hstops' hchunk
        exact ⟨hfloor, prices_of_slotPoolOr hsecondPool, (StopsAt.eq_iff hstops hstops').mp hrung⟩
      next => cases heq
    · rintro ⟨hfloor, hprices, hrungs⟩
      have hpool := slotPoolOr_eq_poolInForce hkey hfloor hunforced hfirstPool hprices
      rw [hfloor] at hprobe hadded hothers
      rw [← hkey] at hadded hothers
      obtain ⟨n', hstops', hsecond⟩ := measureActivations_eq hprobe hadded
      have hrung := (StopsAt.eq_iff hstops hstops').mpr hrungs
      unfold measure
      rw [hpool]
      dsimp only
      rw [hsecond, ← hrung, hothers, start_eq hfloor, hfloor]
      rfl
  next => cases hmeasure

/-- A card of 16 GiB where a token of a chunk takes one MiB of activations. -/
def mibPerToken : Card :=
  { total := 2 ^ 34, probe := fun chunk => some (chunk * 2 ^ 20), added := fun _ _ => some 0,
    residentExperts := fun _ _ => none, staticPartition := false, pinnedPool := 0 }

/-- A load of 8 GiB of weights at the defaults, with 32 KiB of pages for a token. -/
def loadOf (wanted : Nat) : Load :=
  { key :=
      { archHash := "a", weightsBytes := 2 ^ 33, device := "GPU.0", pluginBuild := "1",
        offloadRatio := 0, pagedKv := "f16", moeCpuTier := false, lanes := 1, kvBlockSize := 32,
        sliceLogits := true, draftsMax := 0, fitMarginMib := 256,
        pagedAttentionMaxPartitions := 0, prefillChunk := 512, capOff := false }
    wanted, nCtxExplicit := true, kvBytesToken := 2 ^ 15, packedGeom := none,
    boundAccepted := false, mixedStageOnMicro := false, residentBase := 2 ^ 33, drafterBytes := 0,
    slab := 0, fitSlotBytes := none }

/-- What a load of 4096 tokens leaves in the ledger. -/
def entryOf4096 : FitLedgerEntry :=
  ⟨(loadOf 4096).key, 0, 512, 2 ^ 29⟩

/-- 4096 and 8192 tokens both leave room for the whole configured chunk. -/
theorem recalled_alike_of_8192 :
    MeasuresAlike mibPerToken entryOf4096 (loadOf 4096) (loadOf 8192) :=
  (recalled_eq_measure_iff mibPerToken (loadOf 4096) (loadOf 8192) entryOf4096
    (by decide +kernel) (by decide)).mp (by decide +kernel)

/-- With the pages of 262144 tokens the load itself would stay at 128 tokens; the hit
serves it the 512 of the shallow load. -/
theorem recalled_ne_measure_of_262144 :
    stored mibPerToken (loadOf 4096) = some entryOf4096 ∧
      (loadOf 262144).key = entryOf4096.key ∧
      recalled entryOf4096 (loadOf 262144) ≠ measure mibPerToken (loadOf 262144) := by
  decide +kernel

end Arcint.Fit
