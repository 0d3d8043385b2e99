import Arcint.Foundation.Loop
import Arcint.Fit.PackedValues

/-! # Allocate, audit, replay

The page pool is allocated in at most four passes. A pass that the driver
refuses, or that leaves more resident than the ceiling, is replayed with a
smaller pool; the load is refused when there is nothing left to give back.
-/

namespace Arcint.Fit

open Arcint.Foundation

/-- Tokens in one page of the key-value pool. -/
def kvBlockTokens : Nat := 16

def phaseECeilingBytes (total margin scratchTermBytes : Nat) : Nat :=
  let floorBytes := (margin + scratchTermBytes) % wordSize
  if floorBytes < total then total - floorBytes else 0

/-- How the context length was chosen. A reserve for the prefix cache is only
ever applied to an automatic one. -/
inductive NCtxMode where
  | explicit
  | autoFit (reserveApplied : Bool)
  deriving DecidableEq, Repr

/-- The terms of a load that stay fixed through the passes. Counts made from
`int` options stay far below the word size and are plain numbers here; sums with
byte counts the driver reports wrap as in the source. -/
structure LoadTerms where
  mode : NCtxMode
  lanes : Nat
  draftsMax : Nat
  kvBlockBytes : Nat
  kvBytesToken : Nat
  /-- Bytes the fit left for the pool. -/
  budget : Int
  total : Nat
  margin : Nat
  scratchFixedBytes : Nat
  scratchPerTokenBytes : Nat
  /-- Host budget of the prefix cache, where there is one. -/
  prefixCacheBudget : Option Nat
  laRowBytes : Nat
  /-- Test override of the pool size; zero in a real load. -/
  kvPoolPages : Nat
  deriving DecidableEq, Repr

namespace LoadTerms

/-- Below this context length a fit is not worth serving. -/
def nCtxFloor (load : LoadTerms) : Nat :=
  max (kvBlockTokens * load.lanes) 4096

def perLaneBlocks (load : LoadTerms) (nCtx : Nat) : Nat :=
  (nCtx + load.draftsMax + kvBlockTokens - 1) / kvBlockTokens + 2

def liveBlocks (load : LoadTerms) (nCtx : Nat) : Nat :=
  load.perLaneBlocks nCtx * load.lanes

/-- Spare pages the prefix cache could hold references to. -/
def wantedSpare (load : LoadTerms) (nCtx : Nat) : Nat :=
  match load.prefixCacheBudget with
  | none => 0
  | some budgetBytes =>
      let entries := max 1 (budgetBytes / max load.laRowBytes 1)
      entries * load.perLaneBlocks nCtx % wordSize

/-- Signed 64-bit reading of a byte count. -/
def asLongLong (n : Int) : Int :=
  n.bmod wordSize

end LoadTerms

/-- One request to the driver: the context length it was sized for, the pages
that it asks for, and whether the pass failed. -/
structure Attempt where
  nCtx : Nat
  blocks : Nat
  liveBlocks : Nat
  spareBlocks : Nat
  failed : Bool
  deriving DecidableEq, Repr

/-- What the loop carries from pass to pass. -/
structure Replay where
  pass : Nat
  pagedNCtx : Nat
  spareCap : Nat
  overshootAccum : Nat
  lastOver : Nat
  attempts : List Attempt
  deriving DecidableEq, Repr

/-- The values `paged_n_ctx_` has taken, oldest first. -/
def Replay.contexts (s : Replay) : List Nat :=
  s.attempts.map Attempt.nCtx ++ [s.pagedNCtx]

/-- How the loop ends. -/
inductive Ending where
  | accepted (blocks : Nat)
  /-- `--n-ctx` could not be honoured at allocation time. -/
  | notHonoured (nCtx liveBlocks spareBlocks overPages : Nat)
  /-- The reservation cannot be honoured even at the floor. -/
  | notAtTheFloor (nCtxFloor nCtx : Nat)
  /-- Four passes without a stable allocation. -/
  | replayExhausted (last : Option Attempt) (overPages : Nat)
  deriving DecidableEq, Repr

/-- The ending together with the loop's variables at that point. -/
structure LoadResult where
  ending : Ending
  final : Replay
  deriving DecidableEq, Repr

/-- What the driver does in a pass when asked for a number of pages: refuse, or
allocate and report the bytes resident on the device. -/
abbrev Driver := Nat → Nat → Option Nat

namespace LoadTerms

/-- Pages requested in a pass, live and spare. -/
def sizing (load : LoadTerms) (s : Replay) : PoolSizing :=
  let live := load.liveBlocks s.pagedNCtx
  let budgetRemaining := asLongLong (load.budget - asLongLong s.overshootAccum)
  let wanted := min (load.wantedSpare s.pagedNCtx) s.spareCap
  let sizing := poolSizing live wanted budgetRemaining load.kvBlockBytes
  if 0 < load.kvPoolPages then
    let cap := max load.kvPoolPages live
    if cap < sizing.blocks then { blocks := cap, spareBlocks := cap - live } else sizing
  else sizing

def ceiling (load : LoadTerms) (nCtx : Nat) : Nat :=
  phaseECeilingBytes load.total load.margin
    (packedValuesScratchReservationBytes load.scratchFixedBytes load.scratchPerTokenBytes
      load.lanes nCtx)

/-- The record of a pass. -/
def attempt (load : LoadTerms) (s : Replay) (failed : Bool) : Attempt :=
  { nCtx := s.pagedNCtx, blocks := (load.sizing s).blocks,
    liveBlocks := load.liveBlocks s.pagedNCtx, spareBlocks := (load.sizing s).spareBlocks, failed }

/-- Whether a pass fails, and the bytes it was measured to be over. -/
def audit (load : LoadTerms) (nCtx : Nat) : Option Nat → Bool × Nat
  | none => (true, 0)
  | some observed =>
      if load.ceiling nCtx < observed then (true, observed - load.ceiling nCtx) else (false, 0)

def overPages (load : LoadTerms) (overBytes : Nat) : Nat :=
  if 0 < load.kvBlockBytes then (overBytes + load.kvBlockBytes - 1) % wordSize / load.kvBlockBytes
  else 0

/-- The overshoot the automatic fit works with: a retreat by an eighth of the
context when the pass was not measured. -/
def autoFitOver (load : LoadTerms) (nCtx overBytes : Nat) : Nat :=
  if overBytes = 0 then load.kvBytesToken * load.lanes * max (nCtx / 8) kvBlockTokens % wordSize
  else overBytes

def lastPass : Nat := 3

/-- One pass of the loop. -/
def phaseEPass (load : LoadTerms) (driver : Driver) (s : Replay) : Pass Replay LoadResult :=
  if s.pass ≤ lastPass then
    let sizing := load.sizing s
    let (failed, overBytes) := load.audit s.pagedNCtx (driver s.pass sizing.blocks)
    let s := { s with lastOver := overBytes, attempts := s.attempts ++ [load.attempt s failed] }
    if failed then
      match load.mode with
      | .explicit =>
          let decision := explicitRetryDecision (0 < overBytes) overBytes sizing.spareBlocks
            load.kvBlockBytes s.pass lastPass
          if decision.refuse then
            .leave ⟨.notHonoured s.pagedNCtx (load.liveBlocks s.pagedNCtx) sizing.spareBlocks
              (load.overPages overBytes), s⟩
          else
            .again { s with
              pass := s.pass + 1
              spareCap := decision.nextSpareCap
              overshootAccum := (s.overshootAccum + overBytes) % wordSize }
      | .autoFit reserveApplied =>
          let overBytes := load.autoFitOver s.pagedNCtx overBytes
          let trim := autoFitTrim s.pagedNCtx sizing.spareBlocks overBytes load.kvBlockBytes
            load.lanes kvBlockTokens load.nCtxFloor s.pass reserveApplied
          if trim.refuse then .leave ⟨.notAtTheFloor load.nCtxFloor s.pagedNCtx, s⟩
          else
            .again { s with
              pass := s.pass + 1
              pagedNCtx := trim.nextNCtx
              spareCap := trim.nextSpareCap
              overshootAccum := (s.overshootAccum + overBytes) % wordSize }
    else .leave ⟨.accepted sizing.blocks, s⟩
  else .leave ⟨.replayExhausted s.attempts.getLast? (load.overPages s.lastOver), s⟩

def phaseELoop (load : LoadTerms) (driver : Driver) : Loop Replay LoadResult :=
  ⟨load.phaseEPass driver⟩

/-- The loop's variables before the first pass. -/
def replayStart (nCtx : Nat) : Replay :=
  { pass := 0, pagedNCtx := nCtx, spareCap := wordSize - 1, overshootAccum := 0, lastOver := 0,
    attempts := [] }

/-! ## What a pass requests -/

section Sizing

variable (load : LoadTerms) (s : Replay)

/-- The request is the live pages and the spare ones, also under the test
override. -/
theorem sizing_blocks :
    (load.sizing s).blocks = load.liveBlocks s.pagedNCtx + (load.sizing s).spareBlocks := by
  unfold sizing
  dsimp only
  split
  next =>
    split
    next =>
      have hcap := Nat.le_max_right load.kvPoolPages (load.liveBlocks s.pagedNCtx)
      exact (Nat.add_sub_of_le hcap).symm
    next => exact poolSizing_blocks _ _ _ _
  next => exact poolSizing_blocks _ _ _ _

/-- Spare pages never grow back over the cap. -/
theorem sizing_spare_le : (load.sizing s).spareBlocks ≤ s.spareCap := by
  have hwanted := poolSizing_spare_le (load.liveBlocks s.pagedNCtx)
    (min (load.wantedSpare s.pagedNCtx) s.spareCap)
    (asLongLong (load.budget - asLongLong s.overshootAccum)) load.kvBlockBytes
  have hpool := hwanted.trans (Nat.min_le_right _ _)
  unfold sizing
  dsimp only
  split
  next =>
    split
    next hcap =>
      rw [poolSizing_blocks] at hcap
      dsimp only
      omega
    next => exact hpool
  next => exact hpool

end Sizing

theorem perLaneBlocks_add_le (load : LoadTerms) {nCtx next pages : Nat}
    (hcut : next + pages * kvBlockTokens ≤ nCtx) :
    load.perLaneBlocks next + pages ≤ load.perLaneBlocks nCtx := by
  unfold perLaneBlocks kvBlockTokens at *
  omega

/-- Every lane giving `pages` pages up takes them off the live pages. -/
theorem liveBlocks_add_le (load : LoadTerms) {nCtx next pages : Nat}
    (hcut : next + pages * kvBlockTokens ≤ nCtx) :
    load.liveBlocks next + pages * load.lanes ≤ load.liveBlocks nCtx := by
  unfold liveBlocks
  rw [← Nat.add_mul]
  exact Nat.mul_le_mul_right _ (load.perLaneBlocks_add_le hcut)

/-! ## What a pass does -/

/-- The trim a failed pass of the automatic fit makes. -/
def passTrim (load : LoadTerms) (s : Replay) (overBytes : Nat) (reserveApplied : Bool) :
    AutoFitTrim :=
  autoFitTrim s.pagedNCtx (load.sizing s).spareBlocks (load.autoFitOver s.pagedNCtx overBytes)
    load.kvBlockBytes load.lanes kvBlockTokens load.nCtxFloor s.pass reserveApplied

/-- The decision a failed pass of an explicit request makes. -/
def passDecision (load : LoadTerms) (s : Replay) (overBytes : Nat) : ExplicitRetryDecision :=
  explicitRetryDecision (0 < overBytes) overBytes (load.sizing s).spareBlocks load.kvBlockBytes
    s.pass lastPass

/-- Everything a pass that goes round again does to the loop's variables. -/
structure Retried (load : LoadTerms) (driver : Driver) (s next : Replay) : Prop where
  pass_le : s.pass ≤ lastPass
  failed : (load.audit s.pagedNCtx (driver s.pass (load.sizing s).blocks)).1 = true
  pass : next.pass = s.pass + 1
  attempts : next.attempts = s.attempts ++ [load.attempt s true]
  choice :
    (load.mode = .explicit ∧ ∃ overBytes, (load.passDecision s overBytes).refuse = false ∧
      next.pagedNCtx = s.pagedNCtx ∧ next.spareCap = (load.passDecision s overBytes).nextSpareCap) ∨
    ∃ reserve overBytes, load.mode = .autoFit reserve ∧
      (load.passTrim s overBytes reserve).refuse = false ∧
      next.pagedNCtx = (load.passTrim s overBytes reserve).nextNCtx ∧
      next.spareCap = (load.passTrim s overBytes reserve).nextSpareCap

theorem phaseEPass_again {load : LoadTerms} {driver : Driver} {s next : Replay}
    (hagain : load.phaseEPass driver s = .again next) : load.Retried driver s next := by
  unfold phaseEPass at hagain
  split at hagain
  next hpass =>
    cases haudit : load.audit s.pagedNCtx (driver s.pass (load.sizing s).blocks) with
    | mk failed overBytes =>
        simp only [haudit] at hagain
        split at hagain
        next hfailed =>
          subst hfailed
          split at hagain
          next hmode =>
            split at hagain
            next => cases hagain
            next hgo =>
              cases hagain
              exact ⟨hpass, by rw [haudit], rfl, rfl,
                .inl ⟨hmode, overBytes, Bool.eq_false_of_not_eq_true hgo, rfl, rfl⟩⟩
          next reserve hmode =>
            split at hagain
            next => cases hagain
            next hgo =>
              cases hagain
              exact ⟨hpass, by rw [haudit], rfl, rfl,
                .inr ⟨reserve, overBytes, hmode, Bool.eq_false_of_not_eq_true hgo, rfl, rfl⟩⟩
        next => cases hagain
  next => cases hagain

/-- The four ways out of the loop. -/
inductive Left (load : LoadTerms) (driver : Driver) (s : Replay) : LoadResult → Prop where
  | accepted (overBytes : Nat) (hpass : s.pass ≤ lastPass)
      (hpassed : (load.audit s.pagedNCtx (driver s.pass (load.sizing s).blocks)).1 = false) :
      load.Left driver s ⟨.accepted (load.sizing s).blocks,
        { s with lastOver := overBytes, attempts := s.attempts ++ [load.attempt s false] }⟩
  | notHonoured (overBytes : Nat) (hpass : s.pass ≤ lastPass)
      (hfailed : (load.audit s.pagedNCtx (driver s.pass (load.sizing s).blocks)).1 = true)
      (hmode : load.mode = .explicit) (hrefuse : (load.passDecision s overBytes).refuse = true) :
      load.Left driver s ⟨.notHonoured s.pagedNCtx (load.liveBlocks s.pagedNCtx)
          (load.sizing s).spareBlocks (load.overPages overBytes),
        { s with lastOver := overBytes, attempts := s.attempts ++ [load.attempt s true] }⟩
  | notAtTheFloor (overBytes : Nat) (reserve : Bool) (hpass : s.pass ≤ lastPass)
      (hfailed : (load.audit s.pagedNCtx (driver s.pass (load.sizing s).blocks)).1 = true)
      (hmode : load.mode = .autoFit reserve)
      (hrefuse : (load.passTrim s overBytes reserve).refuse = true) :
      load.Left driver s ⟨.notAtTheFloor load.nCtxFloor s.pagedNCtx,
        { s with lastOver := overBytes, attempts := s.attempts ++ [load.attempt s true] }⟩
  | replayExhausted (hpass : lastPass < s.pass) :
      load.Left driver s
        ⟨.replayExhausted s.attempts.getLast? (load.overPages s.lastOver), s⟩

theorem phaseEPass_leave {load : LoadTerms} {driver : Driver} {s : Replay} {result : LoadResult}
    (hleave : load.phaseEPass driver s = .leave result) : load.Left driver s result := by
  unfold phaseEPass at hleave
  split at hleave
  next hpass =>
    cases haudit : load.audit s.pagedNCtx (driver s.pass (load.sizing s).blocks) with
    | mk failed overBytes =>
        simp only [haudit] at hleave
        split at hleave
        next hfailed =>
          subst hfailed
          split at hleave
          next hmode =>
            split at hleave
            next hrefuse =>
              cases hleave
              exact .notHonoured overBytes hpass (by rw [haudit]) hmode hrefuse
            next => cases hleave
          next reserve hmode =>
            split at hleave
            next hrefuse =>
              cases hleave
              exact .notAtTheFloor overBytes reserve hpass (by rw [haudit]) hmode hrefuse
            next => cases hleave
        next hfine =>
          cases Bool.eq_false_of_not_eq_true hfine
          cases hleave
          exact .accepted overBytes hpass (by rw [haudit])
  next hpass =>
    cases hleave
    exact .replayExhausted (Nat.lt_of_not_le hpass)

/-! ## Runs -/

theorem kvBlockTokens_pos : 0 < kvBlockTokens := by decide

/-- The cuts of a retry of the automatic fit. -/
theorem passTrim_cuts {load : LoadTerms} {s : Replay} {overBytes : Nat} {reserve : Bool}
    (hlanes : 0 < load.lanes) (hretry : (load.passTrim s overBytes reserve).refuse = false) :
    ∃ pages, (load.passTrim s overBytes reserve).Cuts s.pagedNCtx (load.sizing s).spareBlocks
      (poolPagesToTrim (load.autoFitOver s.pagedNCtx overBytes) load.kvBlockBytes s.pass) load.lanes
      kvBlockTokens load.nCtxFloor pages :=
  autoFitTrim_retry hlanes kvBlockTokens_pos hretry

section Step

variable {load : LoadTerms} {driver : Driver} {s next : Replay}

/-- A retry asks for fewer pages than the pass that failed. -/
theorem Retried.sizing_lt (hlanes : 0 < load.lanes) (hretried : load.Retried driver s next) :
    (load.sizing next).blocks < (load.sizing s).blocks := by
  have hspare := load.sizing_spare_le next
  rw [load.sizing_blocks s, load.sizing_blocks next]
  rcases hretried.choice with
    ⟨_, overBytes, hretry, hctx, hcap⟩ | ⟨reserve, overBytes, _, hretry, hctx, hcap⟩
  · obtain ⟨_, hless, _⟩ := explicitRetryDecision_retry hretry
    rw [hctx]
    rw [hcap] at hspare
    exact Nat.add_lt_add_left (Nat.lt_of_le_of_lt hspare hless) _
  · obtain ⟨pages, hcuts⟩ := passTrim_cuts hlanes hretry
    have hlive := load.liveBlocks_add_le hcuts.tokens
    rw [← hctx] at hlive
    rw [hcap] at hspare
    have hkeep := hcuts.spare
    rcases hcuts.progress with hpages | hless
    · have hpool : 0 < pages * load.lanes := Nat.mul_pos hpages hlanes
      omega
    · omega

theorem Retried.nCtx_le (hlanes : 0 < load.lanes) (hretried : load.Retried driver s next) :
    next.pagedNCtx ≤ s.pagedNCtx := by
  rcases hretried.choice with ⟨_, overBytes, _, hctx, _⟩ | ⟨reserve, overBytes, _, hretry, hctx, _⟩
  · exact Nat.le_of_eq hctx
  · obtain ⟨pages, hcuts⟩ := passTrim_cuts hlanes hretry
    rw [hctx]
    exact (Nat.le_add_right _ _).trans hcuts.tokens

theorem Retried.floor_le (hlanes : 0 < load.lanes) (hretried : load.Retried driver s next) :
    min s.pagedNCtx load.nCtxFloor ≤ next.pagedNCtx := by
  rcases hretried.choice with ⟨_, overBytes, _, hctx, _⟩ | ⟨reserve, overBytes, _, hretry, hctx, _⟩
  · rw [hctx]
    exact Nat.min_le_left _ _
  · obtain ⟨pages, hcuts⟩ := passTrim_cuts hlanes hretry
    rw [hctx]
    exact hcuts.floor

/-- An explicit context length is left alone, and the last pass has no spare. -/
theorem Retried.of_explicit (hmode : load.mode = .explicit)
    (hretried : load.Retried driver s next) :
    next.pagedNCtx = s.pagedNCtx ∧ (lastPass ≤ next.pass → next.spareCap = 0) ∧
      next.pass ≤ lastPass := by
  rcases hretried.choice with ⟨_, overBytes, hretry, hctx, hcap⟩ | ⟨reserve, overBytes, hauto, _⟩
  · obtain ⟨hpass, _, hlast⟩ := explicitRetryDecision_retry hretry
    rw [hretried.pass, hcap]
    exact ⟨hctx, hlast, hpass⟩
  · rw [hmode] at hauto
    cases hauto

end Step

/-- What the requests of a load that started with `nCtx` look like, and the
context length `final` after them. -/
structure Recorded (load : LoadTerms) (nCtx : Nat) (attempts : List Attempt) (final : Nat) :
    Prop where
  decreasing : attempts.Pairwise fun earlier later => later.blocks < earlier.blocks
  sized : ∀ a ∈ attempts, load.liveBlocks a.nCtx ≤ a.blocks
  antitone : (attempts.map Attempt.nCtx ++ [final]).Pairwise fun earlier later => later ≤ earlier
  range : ∀ n ∈ attempts.map Attempt.nCtx ++ [final], min nCtx load.nCtxFloor ≤ n ∧ n ≤ nCtx
  pinned : load.mode = .explicit → ∀ n ∈ attempts.map Attempt.nCtx ++ [final], n = nCtx

/-- One more request, smaller than those before, and the context after it. -/
theorem Recorded.snoc {load : LoadTerms} {nCtx : Nat} {s : Replay} {next : Nat} {failed : Bool}
    (hrecorded : load.Recorded nCtx s.attempts s.pagedNCtx)
    (hlarger : ∀ a ∈ s.attempts, (load.sizing s).blocks < a.blocks)
    (hnext : next ≤ s.pagedNCtx) (hfloor : min s.pagedNCtx load.nCtxFloor ≤ next)
    (hpinned : load.mode = .explicit → next = s.pagedNCtx) :
    load.Recorded nCtx (s.attempts ++ [load.attempt s failed]) next := by
  have hmap : (s.attempts ++ [load.attempt s failed]).map Attempt.nCtx =
      s.attempts.map Attempt.nCtx ++ [s.pagedNCtx] := by
    simp [attempt]
  have hlast : s.pagedNCtx ∈ s.attempts.map Attempt.nCtx ++ [s.pagedNCtx] := by simp
  obtain ⟨hlow, hhigh⟩ := hrecorded.range _ hlast
  constructor
  · rw [List.pairwise_append]
    refine ⟨hrecorded.decreasing, List.pairwise_singleton _ _, ?_⟩
    intro a ha b hb
    cases List.mem_singleton.mp hb
    exact hlarger a ha
  · intro a ha
    rcases List.mem_append.mp ha with hold | hnew
    · exact hrecorded.sized a hold
    · cases List.mem_singleton.mp hnew
      exact Nat.le.intro (load.sizing_blocks s).symm
  · rw [hmap, List.pairwise_append]
    refine ⟨hrecorded.antitone, List.pairwise_singleton _ _, ?_⟩
    intro n hn m hm
    cases List.mem_singleton.mp hm
    rcases List.mem_append.mp hn with hold | hnew
    · have hpair := (List.pairwise_append.mp hrecorded.antitone).2.2 n hold s.pagedNCtx (by simp)
      exact hnext.trans hpair
    · cases List.mem_singleton.mp hnew
      exact hnext
  · rw [hmap]
    intro n hn
    rcases List.mem_append.mp hn with hold | hnew
    · exact hrecorded.range n hold
    · cases List.mem_singleton.mp hnew
      omega
  · intro hmode
    rw [hmap]
    intro n hn
    rcases List.mem_append.mp hn with hold | hnew
    · exact hrecorded.pinned hmode n hold
    · cases List.mem_singleton.mp hnew
      rw [hpinned hmode]
      exact hrecorded.pinned hmode _ hlast

/-- What holds at every loop head of a load that started with `nCtx`. -/
structure Invariant (load : LoadTerms) (nCtx : Nat) (s : Replay) : Prop where
  recorded : load.Recorded nCtx s.attempts s.pagedNCtx
  /-- Every request so far was larger than the next one. -/
  larger : ∀ a ∈ s.attempts, (load.sizing s).blocks < a.blocks
  liveOnly : load.mode = .explicit → lastPass ≤ s.pass → s.spareCap = 0
  pass_le : load.mode = .explicit → s.pass ≤ lastPass

theorem invariant_start (load : LoadTerms) (nCtx : Nat) :
    load.Invariant nCtx (replayStart nCtx) := by
  refine ⟨⟨?_, ?_, ?_, ?_, ?_⟩, ?_, ?_, ?_⟩ <;> simp [replayStart, lastPass]

theorem Retried.invariant {load : LoadTerms} {driver : Driver} {nCtx : Nat} {s next : Replay}
    (hlanes : 0 < load.lanes) (hinv : load.Invariant nCtx s)
    (hretried : load.Retried driver s next) : load.Invariant nCtx next := by
  have hless := hretried.sizing_lt hlanes
  constructor
  · rw [hretried.attempts]
    exact hinv.recorded.snoc hinv.larger (hretried.nCtx_le hlanes) (hretried.floor_le hlanes)
      fun hmode => (hretried.of_explicit hmode).1
  · rw [hretried.attempts]
    intro a ha
    rcases List.mem_append.mp ha with hold | hnew
    · exact hless.trans (hinv.larger a hold)
    · cases List.mem_singleton.mp hnew
      exact hless
  · exact fun hmode => (hretried.of_explicit hmode).2.1
  · exact fun hmode => (hretried.of_explicit hmode).2.2

theorem invariant_head {load : LoadTerms} {driver : Driver} {nCtx n : Nat} {head : Replay}
    (hlanes : 0 < load.lanes)
    (hhead : (load.phaseELoop driver).after n (replayStart nCtx) = .again head) :
    load.Invariant nCtx head :=
  Loop.head_invariant (load.invariant_start nCtx)
    (fun _ _ _ _ hinv hbody => (phaseEPass_again hbody).invariant hlanes hinv) hhead

/-- The loop is left after at most four passes. -/
theorem phaseELoop_leaves (load : LoadTerms) (driver : Driver) (nCtx : Nat) :
    ∃ result, (load.phaseELoop driver).after 5 (replayStart nCtx) = .leave result := by
  apply Loop.exists_leave_of_measure fun s => lastPass + 1 - s.pass
  · intro s next hbody
    have hretried := phaseEPass_again hbody
    rw [hretried.pass]
    have hpass := hretried.pass_le
    omega
  · exact Nat.lt_succ_self _

theorem recorded_of_left {load : LoadTerms} {driver : Driver} {nCtx : Nat} {s : Replay}
    {result : LoadResult} (hinv : load.Invariant nCtx s) (hleft : load.Left driver s result) :
    load.Recorded nCtx result.final.attempts result.final.pagedNCtx := by
  have hsnoc : ∀ failed,
      load.Recorded nCtx (s.attempts ++ [load.attempt s failed]) s.pagedNCtx := fun failed =>
    hinv.recorded.snoc hinv.larger (Nat.le_refl _) (Nat.min_le_left _ _) fun _ => rfl
  cases hleft with
  | accepted overBytes hpass => exact hsnoc false
  | notHonoured overBytes hpass hfailed hmode hrefuse => exact hsnoc true
  | notAtTheFloor overBytes reserve hpass hfailed hmode hrefuse => exact hsnoc true
  | replayExhausted hpass => exact hinv.recorded

/-- An explicit request is refused only after its live pages alone failed. -/
theorem liveOnly_of_left {load : LoadTerms} {driver : Driver} {nCtx : Nat} {s : Replay}
    {result : LoadResult} (hinv : load.Invariant nCtx s) (hleft : load.Left driver s result)
    (hmode : load.mode = .explicit) (hrefused : ∀ blocks, result.ending ≠ .accepted blocks) :
    ∃ last, result.final.attempts.getLast? = some last ∧ last.failed = true ∧
      last.blocks = load.liveBlocks nCtx := by
  cases hleft with
  | accepted overBytes hpass => exact absurd rfl (hrefused _)
  | notHonoured overBytes hpass hfailed _ hrefuse =>
      refine ⟨load.attempt s true, by simp, rfl, ?_⟩
      have hspare : (load.sizing s).spareBlocks = 0 := by
        rcases explicitRetryDecision_refuse hrefuse with hzero | hlast
        · exact hzero
        · have hle := load.sizing_spare_le s
          rw [hinv.liveOnly hmode hlast] at hle
          exact Nat.le_zero.mp hle
      have hctx := hinv.recorded.pinned hmode s.pagedNCtx (by simp)
      show (load.sizing s).blocks = _
      rw [load.sizing_blocks, hspare, hctx, Nat.add_zero]
  | notAtTheFloor overBytes reserve hpass hfailed hauto hrefuse =>
      rw [hmode] at hauto
      cases hauto
  | replayExhausted hpass =>
      exact absurd (hinv.pass_le hmode) (Nat.not_le_of_lt hpass)

/-- The automatic fit gives up at the floor only with nothing left to trim. -/
theorem nothingLeft_of_left {load : LoadTerms} {driver : Driver} {s : Replay}
    {result : LoadResult} (hlanes : 0 < load.lanes) (hleft : load.Left driver s result)
    {nCtxFloor nCtx : Nat} (hending : result.ending = .notAtTheFloor nCtxFloor nCtx) :
    ∃ last, result.final.attempts.getLast? = some last ∧ last.failed = true ∧
      last.spareBlocks = 0 ∧ last.nCtx < load.nCtxFloor + kvBlockTokens := by
  cases hleft with
  | accepted overBytes hpass => cases hending
  | notHonoured overBytes hpass hfailed _ hrefuse => cases hending
  | notAtTheFloor overBytes reserve hpass hfailed hauto hrefuse =>
      obtain ⟨hspare, _, hroom⟩ := autoFitTrim_refuse hlanes kvBlockTokens_pos hrefuse
      exact ⟨load.attempt s true, by simp, rfl, hspare, hroom⟩
  | replayExhausted hpass => cases hending

/-- The replay loop under any driver: it ends; every retry requests fewer pages
than the pass before and never fewer than the lanes need; an explicit context
length is never changed and only refused when its live pages alone failed; an
automatic one only falls, not below the floor, and is given up at the floor only
with no spare page and less than a page per lane left. -/
theorem phaseE_replay (load : LoadTerms) (hlanes : 0 < load.lanes) (driver : Driver)
    (nCtx : Nat) :
    ∃ result, (load.phaseELoop driver).after 5 (replayStart nCtx) = .leave result ∧
      result.final.attempts.Pairwise (fun earlier later => later.blocks < earlier.blocks) ∧
      (∀ a ∈ result.final.attempts,
        load.lanes * ((a.nCtx + load.draftsMax + kvBlockTokens - 1) / kvBlockTokens + 2) ≤
          a.blocks) ∧
      (load.mode = .explicit →
        (∀ n ∈ result.final.contexts, n = nCtx) ∧
        ((∀ blocks, result.ending ≠ .accepted blocks) →
          ∃ last, result.final.attempts.getLast? = some last ∧ last.failed = true ∧
            last.blocks = load.liveBlocks nCtx)) ∧
      (∀ reserve, load.mode = .autoFit reserve →
        result.final.contexts.Pairwise (fun earlier later => later ≤ earlier) ∧
        (∀ n ∈ result.final.contexts, min nCtx load.nCtxFloor ≤ n) ∧
        ∀ floor n, result.ending = .notAtTheFloor floor n →
          ∃ last, result.final.attempts.getLast? = some last ∧ last.failed = true ∧
            last.spareBlocks = 0 ∧ last.nCtx < load.nCtxFloor + kvBlockTokens) := by
  obtain ⟨result, hresult⟩ := load.phaseELoop_leaves driver nCtx
  obtain ⟨n, _, head, hhead, hbody⟩ := Loop.exists_head_of_after_leave hresult
  have hinv := invariant_head hlanes hhead
  have hleft := phaseEPass_leave hbody
  have hrecorded := recorded_of_left hinv hleft
  refine ⟨result, hresult, hrecorded.decreasing, ?_, ?_, ?_⟩
  · intro a ha
    rw [Nat.mul_comm]
    exact hrecorded.sized a ha
  · intro hmode
    exact ⟨hrecorded.pinned hmode, liveOnly_of_left hinv hleft hmode⟩
  · intro reserve hmode
    refine ⟨hrecorded.antitone, fun n hn => (hrecorded.range n hn).1, ?_⟩
    intro floor n hending
    exact nothingLeft_of_left hlanes hleft hending

/-- A load of one lane with a prefix cache. -/
def oneLane (mode : NCtxMode) : LoadTerms :=
  { mode, lanes := 1, draftsMax := 0, kvBlockBytes := 4096, kvBytesToken := 256,
    budget := 600 * 4096, total := 1000 * 4096, margin := 4096, scratchFixedBytes := 0,
    scratchPerTokenBytes := 0, prefixCacheBudget := some 1000, laRowBytes := 100,
    kvPoolPages := 0 }

/-- A driver that never allocates ends an explicit request at its live pages. -/
theorem phaseE_replay_never_allocates :
    ∃ result, ((oneLane .explicit).phaseELoop fun _ _ => none).after 5 (replayStart 8192) =
        .leave result ∧
      result.final.attempts.Pairwise (fun earlier later => later.blocks < earlier.blocks) ∧
      ((∀ blocks, result.ending ≠ .accepted blocks) →
        ∃ last, result.final.attempts.getLast? = some last ∧ last.failed = true ∧
          last.blocks = 514) := by
  obtain ⟨result, hresult, hdecreasing, _, hexplicit, _⟩ :=
    phaseE_replay (oneLane .explicit) (by decide) (fun _ _ => none) 8192
  exact ⟨result, hresult, hdecreasing, (hexplicit rfl).2⟩

end LoadTerms

end Arcint.Fit
