import Mathlib.Data.Nat.Basic
import Mathlib.Logic.Function.Iterate
import Mathlib.Tactic.Linarith

/-! # Sizing the page pool and giving pages back

The pool of one allocation pass is the live pages every lane needs plus spare
pages for cached prefixes. A pass that fails names a smaller pool for the next
one: an explicit request only gives spare pages back, the automatic fit splits
the cut between context and spare pages.
-/

namespace Arcint.Fit

/-- Unsigned 64-bit arithmetic wraps here. -/
def wordSize : Nat := 2 ^ 64

structure PoolSizing where
  blocks : Nat
  spareBlocks : Nat
  deriving DecidableEq, Repr

def poolSizing (liveBlocks wantedSpareBlocks : Nat) (budgetRemainingBytes : Int)
    (kvBlockBytes : Nat) : PoolSizing :=
  let spareBlocks :=
    if 0 < budgetRemainingBytes ∧ 0 < kvBlockBytes then
      let affordable := budgetRemainingBytes.toNat / kvBlockBytes
      let spareRoom := if liveBlocks < affordable then affordable - liveBlocks else 0
      min spareRoom wantedSpareBlocks
    else 0
  { blocks := liveBlocks + spareBlocks, spareBlocks }

/-- The spare pages are asked for on top of the live ones. -/
theorem poolSizing_blocks (liveBlocks wanted : Nat) (remaining : Int) (kvBlockBytes : Nat) :
    (poolSizing liveBlocks wanted remaining kvBlockBytes).blocks =
      liveBlocks + (poolSizing liveBlocks wanted remaining kvBlockBytes).spareBlocks := rfl

/-- No budget makes the pool keep more spare pages than it was asked for. -/
theorem poolSizing_spare_le (liveBlocks wanted : Nat) (remaining : Int) (kvBlockBytes : Nat) :
    (poolSizing liveBlocks wanted remaining kvBlockBytes).spareBlocks ≤ wanted := by
  unfold poolSizing
  dsimp only
  split
  · exact Nat.min_le_right _ _
  · exact Nat.zero_le _

/-- The pages a failed pass gives back at least: four, and four times as many
after each further pass. -/
def autoFitBackoffPages (pass : Nat) : Nat :=
  (fun trim => trim * 4)^[min pass 8] 4

def poolPagesToTrim (overBytes kvBlockBytes pass : Nat) : Nat :=
  let analytic :=
    if 0 < kvBlockBytes then max 1 ((overBytes + kvBlockBytes - 1) % wordSize / kvBlockBytes) else 1
  max analytic (autoFitBackoffPages pass)

theorem backoff_le_poolPagesToTrim (overBytes kvBlockBytes pass : Nat) :
    autoFitBackoffPages pass ≤ poolPagesToTrim overBytes kvBlockBytes pass :=
  Nat.le_max_right _ _

/-- A trim is never empty, even where the measured overshoot is below a page or
its rounding wraps. -/
theorem poolPagesToTrim_pos (overBytes kvBlockBytes pass : Nat) :
    0 < poolPagesToTrim overBytes kvBlockBytes pass := by
  apply Nat.lt_of_lt_of_le _ (Nat.le_max_left _ _)
  split
  · exact Nat.lt_of_lt_of_le Nat.zero_lt_one (Nat.le_max_left _ _)
  · exact Nat.zero_lt_one

/-! ## An explicit context length -/

def explicitRetrySpareCap (spareBlocks overBytes kvBlockBytes pass : Nat) : Nat :=
  let trim := poolPagesToTrim overBytes kvBlockBytes pass
  if trim < spareBlocks then spareBlocks - trim else 0

def synthesizeSpareRetreat (spareBlocks : Nat) : Nat :=
  if spareBlocks = 0 then 0
  else
    let trim := max 1 (spareBlocks / 2)
    if trim < spareBlocks then spareBlocks - trim else 0

structure ExplicitRetryDecision where
  refuse : Bool
  nextSpareCap : Nat
  deriving DecidableEq, Repr

def explicitRetryDecision (measuredOvershoot : Bool)
    (overBytes spareBlocks kvBlockBytes pass lastPass : Nat) : ExplicitRetryDecision :=
  if spareBlocks = 0 ∨ lastPass ≤ pass then { refuse := true, nextSpareCap := 0 }
  else if lastPass ≤ pass + 1 then
    -- the last pass asks for the live pages only
    { refuse := false, nextSpareCap := 0 }
  else
    { refuse := false
      nextSpareCap :=
        if measuredOvershoot then explicitRetrySpareCap spareBlocks overBytes kvBlockBytes pass
        else synthesizeSpareRetreat spareBlocks }

theorem explicitRetrySpareCap_lt {spareBlocks : Nat} (hspare : 0 < spareBlocks)
    (overBytes kvBlockBytes pass : Nat) :
    explicitRetrySpareCap spareBlocks overBytes kvBlockBytes pass < spareBlocks := by
  have hpos := poolPagesToTrim_pos overBytes kvBlockBytes pass
  unfold explicitRetrySpareCap
  dsimp only
  split
  next hlt => exact Nat.sub_lt hspare hpos
  next => exact hspare

theorem synthesizeSpareRetreat_lt {spareBlocks : Nat} (hspare : 0 < spareBlocks) :
    synthesizeSpareRetreat spareBlocks < spareBlocks := by
  unfold synthesizeSpareRetreat
  rw [if_neg (Nat.ne_of_gt hspare)]
  dsimp only
  split
  next => exact Nat.sub_lt hspare (Nat.lt_of_lt_of_le Nat.zero_lt_one (Nat.le_max_left _ _))
  next => exact hspare

/-- A retry of an explicit request gives spare pages back, and the retry in the
last pass gives all of them. -/
theorem explicitRetryDecision_retry {measured : Bool}
    {overBytes spareBlocks kvBlockBytes pass lastPass : Nat}
    (hretry :
      (explicitRetryDecision measured overBytes spareBlocks kvBlockBytes pass lastPass).refuse =
      false) :
    pass < lastPass ∧
      (explicitRetryDecision measured overBytes spareBlocks kvBlockBytes pass
        lastPass).nextSpareCap <
        spareBlocks ∧
      (lastPass ≤ pass + 1 →
        (explicitRetryDecision measured overBytes spareBlocks kvBlockBytes pass
          lastPass).nextSpareCap = 0) := by
  unfold explicitRetryDecision at hretry ⊢
  split at hretry
  next => cases hretry
  next hgo =>
    rw [if_neg hgo]
    have hspare : 0 < spareBlocks := Nat.pos_of_ne_zero fun hzero => hgo (.inl hzero)
    refine ⟨Nat.lt_of_not_le fun hle => hgo (.inr hle), ?_⟩
    split
    next hlast => exact ⟨hspare, fun _ => rfl⟩
    next hnot =>
      refine ⟨?_, fun hlast => absurd hlast hnot⟩
      cases measured with
      | true => exact explicitRetrySpareCap_lt hspare overBytes kvBlockBytes pass
      | false => exact synthesizeSpareRetreat_lt hspare

theorem explicitRetryDecision_refuse {measured : Bool}
    {overBytes spareBlocks kvBlockBytes pass lastPass : Nat}
    (hrefuse : (explicitRetryDecision measured overBytes spareBlocks kvBlockBytes pass
      lastPass).refuse = true) : spareBlocks = 0 ∨ lastPass ≤ pass := by
  unfold explicitRetryDecision at hrefuse
  split at hrefuse
  next hstop => exact hstop
  next => split at hrefuse <;> cases hrefuse

/-! ## The automatic fit -/

structure AutoFitTrim where
  refuse : Bool
  nextNCtx : Nat
  nextSpareCap : Nat
  deriving DecidableEq, Repr

/-- Pool pages the context can still give up before the floor. -/
def liveRoom (nCtx lanes kvBlockTokens nCtxFloor : Nat) : Nat :=
  let roomTokens := if nCtxFloor < nCtx then nCtx - nCtxFloor else 0
  roomTokens / max 1 kvBlockTokens * max 1 lanes

/-- The pages of a cut that live and spare give, in this order. -/
def trimSplit (budget room spareBlocks : Nat) (protectSpare : Bool) : Nat × Nat :=
  if protectSpare then
    let liveCut := min budget room
    (liveCut, min (budget - liveCut) spareBlocks)
  else
    let spareCut := min budget spareBlocks
    (min (budget - spareCut) room, spareCut)

/-- The context length after a cut of `liveCut > 0` pool pages. The source's
signed difference does not go below zero: the cut is within the room. -/
def cutNCtx (nCtx liveCut lanes kvBlockTokens nCtxFloor : Nat) : Nat :=
  let perLaneCut := (liveCut + max 1 lanes - 1) / max 1 lanes
  let tokensCut := perLaneCut * max 1 kvBlockTokens
  let next := (nCtx - tokensCut) / max 1 kvBlockTokens * max 1 kvBlockTokens
  let next := if nCtx ≤ next then nCtx - max 1 kvBlockTokens else next
  if next < nCtxFloor then nCtxFloor else next

def autoFitTrim (nCtx spareBlocks overBytes kvBlockBytes lanes kvBlockTokens nCtxFloor pass : Nat)
    (protectSpare : Bool) : AutoFitTrim :=
  let budget := poolPagesToTrim overBytes kvBlockBytes pass
  let room := liveRoom nCtx lanes kvBlockTokens nCtxFloor
  let (liveCut, spareCut) := trimSplit budget room spareBlocks protectSpare
  if liveCut = 0 ∧ spareCut = 0 then { refuse := true, nextNCtx := 0, nextSpareCap := 0 }
  else
    { refuse := false
      nextNCtx := if 0 < liveCut then cutNCtx nCtx liveCut lanes kvBlockTokens nCtxFloor else nCtx
      nextSpareCap := if spareCut < spareBlocks then spareBlocks - spareCut else 0 }

/-- The two cuts stay within what live and spare have and together make up the
trim, or everything there is. -/
theorem trimSplit_spec (budget room spareBlocks : Nat) (protectSpare : Bool) :
    (trimSplit budget room spareBlocks protectSpare).1 ≤ room ∧
      (trimSplit budget room spareBlocks protectSpare).2 ≤ spareBlocks ∧
      (trimSplit budget room spareBlocks protectSpare).1 +
        (trimSplit budget room spareBlocks protectSpare).2 = min budget (room + spareBlocks) := by
  cases protectSpare with
  | true => simp only [trimSplit, if_true]; omega
  | false => simp only [trimSplit, Bool.false_eq_true, if_false]; omega

section Cut

variable {nCtx lanes kvBlockTokens nCtxFloor : Nat}

theorem liveRoom_eq (hlanes : 0 < lanes) (hblock : 0 < kvBlockTokens) :
    liveRoom nCtx lanes kvBlockTokens nCtxFloor =
      (nCtx - nCtxFloor) / kvBlockTokens * lanes := by
  unfold liveRoom
  rw [Nat.max_eq_right hlanes, Nat.max_eq_right hblock]
  dsimp only
  split
  next => rfl
  next hnot => rw [Nat.sub_eq_zero_of_le (Nat.le_of_not_lt hnot)]

/-- A cut of `liveCut` pool pages takes `pages` whole pages from every lane. -/
theorem exists_pages_of_cut {liveCut : Nat} (hlanes : 0 < lanes) (hblock : 0 < kvBlockTokens)
    (hpos : 0 < liveCut) (hroom : liveCut ≤ liveRoom nCtx lanes kvBlockTokens nCtxFloor) :
    ∃ pages, 0 < pages ∧ liveCut ≤ pages * lanes ∧ nCtxFloor + pages * kvBlockTokens ≤ nCtx ∧
      (liveCut = liveRoom nCtx lanes kvBlockTokens nCtxFloor →
        pages = (nCtx - nCtxFloor) / kvBlockTokens) ∧
      cutNCtx nCtx liveCut lanes kvBlockTokens nCtxFloor =
        max (nCtx / kvBlockTokens * kvBlockTokens - pages * kvBlockTokens) nCtxFloor := by
  rw [liveRoom_eq hlanes hblock] at hroom ⊢
  obtain ⟨pages, hpages⟩ : ∃ pages, pages = (liveCut + lanes - 1) / lanes := ⟨_, rfl⟩
  have hcover : liveCut ≤ pages * lanes := by
    have hmod := Nat.mod_lt (liveCut + lanes - 1) hlanes
    have hdiv := Nat.div_add_mod (liveCut + lanes - 1) lanes
    rw [← hpages, Nat.mul_comm] at hdiv
    omega
  have hpagesPos : 0 < pages := by
    apply Nat.pos_of_ne_zero
    rintro rfl
    omega
  have hle : pages ≤ (nCtx - nCtxFloor) / kvBlockTokens := by
    rw [hpages]
    apply Nat.le_of_lt_succ
    rw [Nat.div_lt_iff_lt_mul hlanes, Nat.succ_mul]
    omega
  have hfit : pages * kvBlockTokens ≤ nCtx - nCtxFloor :=
    (Nat.mul_le_mul_right _ hle).trans (Nat.div_mul_le_self _ _)
  have hblockLe : kvBlockTokens ≤ pages * kvBlockTokens := Nat.le_mul_of_pos_left _ hpagesPos
  refine ⟨pages, hpagesPos, hcover, by omega, ?_, ?_⟩
  · -- a cut of the whole room is the whole room of each lane
    intro hwhole
    apply Nat.le_antisymm hle
    apply Nat.le_of_mul_le_mul_right _ hlanes
    rw [← hwhole]
    exact hcover
  · have hfloor : (nCtx - pages * kvBlockTokens) / kvBlockTokens * kvBlockTokens =
        nCtx / kvBlockTokens * kvBlockTokens - pages * kvBlockTokens := by
      rw [Nat.mul_comm pages, Nat.sub_mul_div, Nat.sub_mul, Nat.mul_comm pages]
    have hself := Nat.div_mul_le_self nCtx kvBlockTokens
    unfold cutNCtx
    rw [Nat.max_eq_right hlanes, Nat.max_eq_right hblock, ← hpages]
    dsimp only
    have hless : ¬ nCtx ≤ nCtx / kvBlockTokens * kvBlockTokens - pages * kvBlockTokens := by
      omega
    rw [hfloor, if_neg hless]
    split
    next hlow => exact (Nat.max_eq_right (Nat.le_of_lt hlow)).symm
    next hhigh => exact (Nat.max_eq_left (Nat.le_of_not_lt hhigh)).symm

/-- What a retry of the automatic fit asks for next: `pages` fewer pages for
every lane and a smaller spare cap, the trim of this pass or all there is. -/
structure AutoFitTrim.Cuts (trim : AutoFitTrim) (nCtx spareBlocks budget lanes kvBlockTokens
    nCtxFloor pages : Nat) : Prop where
  tokens : trim.nextNCtx + pages * kvBlockTokens ≤ nCtx
  floor : min nCtx nCtxFloor ≤ trim.nextNCtx
  spare : trim.nextSpareCap ≤ spareBlocks
  progress : 0 < pages ∨ trim.nextSpareCap < spareBlocks
  total : min budget (liveRoom nCtx lanes kvBlockTokens nCtxFloor + spareBlocks) ≤
    pages * lanes + (spareBlocks - trim.nextSpareCap)
  aligned : pages = 0 ∧ trim.nextNCtx = nCtx ∨
    trim.nextNCtx = max (nCtx / kvBlockTokens * kvBlockTokens - pages * kvBlockTokens) nCtxFloor
  whole : liveRoom nCtx lanes kvBlockTokens nCtxFloor + spareBlocks < budget →
    pages = (nCtx - nCtxFloor) / kvBlockTokens ∧ trim.nextSpareCap = 0

theorem autoFitTrim_eq {spareBlocks overBytes kvBlockBytes pass liveCut spareCut : Nat}
    {protectSpare : Bool}
    (hsplit : trimSplit (poolPagesToTrim overBytes kvBlockBytes pass)
      (liveRoom nCtx lanes kvBlockTokens nCtxFloor) spareBlocks protectSpare =
        (liveCut, spareCut)) :
    autoFitTrim nCtx spareBlocks overBytes kvBlockBytes lanes kvBlockTokens nCtxFloor pass
        protectSpare =
      if liveCut = 0 ∧ spareCut = 0 then ⟨true, 0, 0⟩
      else ⟨false,
        if 0 < liveCut then cutNCtx nCtx liveCut lanes kvBlockTokens nCtxFloor else nCtx,
        if spareCut < spareBlocks then spareBlocks - spareCut else 0⟩ := by
  unfold autoFitTrim
  dsimp only
  rw [hsplit]

/-- The context part of a cut, with the pages that every lane loses. -/
theorem exists_pages_of_liveCut {liveCut : Nat} (hlanes : 0 < lanes) (hblock : 0 < kvBlockTokens)
    (hroom : liveCut ≤ liveRoom nCtx lanes kvBlockTokens nCtxFloor) :
    ∃ pages next,
      (if 0 < liveCut then cutNCtx nCtx liveCut lanes kvBlockTokens nCtxFloor else nCtx) = next ∧
      next + pages * kvBlockTokens ≤ nCtx ∧ min nCtx nCtxFloor ≤ next ∧ liveCut ≤ pages * lanes ∧
      (pages = 0 ∧ next = nCtx ∨
        next = max (nCtx / kvBlockTokens * kvBlockTokens - pages * kvBlockTokens) nCtxFloor) ∧
      (liveCut = liveRoom nCtx lanes kvBlockTokens nCtxFloor →
        pages = (nCtx - nCtxFloor) / kvBlockTokens) := by
  by_cases hpos : 0 < liveCut
  · obtain ⟨pages, hpages, hcover, hfit, hall, hnext⟩ :=
      exists_pages_of_cut hlanes hblock hpos hroom
    have hself := Nat.div_mul_le_self nCtx kvBlockTokens
    rw [if_pos hpos, hnext]
    refine ⟨pages, _, rfl, ?_, ?_, hcover, .inr rfl, hall⟩
    · omega
    · omega
  · rw [if_neg hpos]
    refine ⟨0, nCtx, rfl, by omega, Nat.min_le_left _ _, by omega, .inl ⟨rfl, rfl⟩, ?_⟩
    intro hwhole
    rw [liveRoom_eq hlanes hblock] at hwhole
    have hzero := Nat.eq_zero_of_not_pos hpos
    exact (Nat.mul_eq_zero.mp (hwhole.symm.trans hzero)).resolve_right
      (Nat.ne_of_gt hlanes) |>.symm

theorem autoFitTrim_retry {spareBlocks overBytes kvBlockBytes pass : Nat} {protectSpare : Bool}
    (hlanes : 0 < lanes) (hblock : 0 < kvBlockTokens)
    (hretry :
      (autoFitTrim nCtx spareBlocks overBytes kvBlockBytes lanes kvBlockTokens nCtxFloor pass
      protectSpare).refuse = false) :
    ∃ pages, (autoFitTrim nCtx spareBlocks overBytes kvBlockBytes lanes kvBlockTokens nCtxFloor pass
      protectSpare).Cuts nCtx spareBlocks (poolPagesToTrim overBytes kvBlockBytes pass) lanes
        kvBlockTokens nCtxFloor pages := by
  obtain ⟨hlive, hspare, hsum⟩ := trimSplit_spec (poolPagesToTrim overBytes kvBlockBytes pass)
    (liveRoom nCtx lanes kvBlockTokens nCtxFloor) spareBlocks protectSpare
  cases hsplit : trimSplit (poolPagesToTrim overBytes kvBlockBytes pass)
      (liveRoom nCtx lanes kvBlockTokens nCtxFloor) spareBlocks protectSpare with
  | mk liveCut spareCut =>
      rw [hsplit] at hlive hspare hsum
      dsimp only at hlive hspare hsum
      rw [autoFitTrim_eq hsplit] at hretry ⊢
      split at hretry
      next => cases hretry
      next hsome =>
        have hcap : (if spareCut < spareBlocks then spareBlocks - spareCut else 0) =
            spareBlocks - spareCut := by
          split
          next => rfl
          next hnot => exact (Nat.sub_eq_zero_of_le (Nat.le_of_not_lt hnot)).symm
        obtain ⟨pages, next, hnext, htokens, hfloor, hcover, haligned, hall⟩ :=
          exists_pages_of_liveCut hlanes hblock hlive
        rw [if_neg hsome, hcap, hnext]
        refine ⟨pages, htokens, hfloor, Nat.sub_le _ _, ?_, ?_, haligned, ?_⟩
        · rcases Nat.eq_zero_or_pos liveCut with hzero | hpos
          · right
            have hspareCut : 0 < spareCut := Nat.pos_of_ne_zero fun h => hsome ⟨hzero, h⟩
            exact Nat.sub_lt (Nat.lt_of_lt_of_le hspareCut hspare) hspareCut
          · left
            exact Nat.pos_of_mul_pos_right (Nat.lt_of_lt_of_le hpos hcover)
        · dsimp only
          omega
        · intro hshort
          rw [Nat.min_eq_right (Nat.le_of_lt hshort)] at hsum
          refine ⟨hall (by omega), ?_⟩
          dsimp only
          omega

/-- The fit refuses only with no spare page and no whole page per lane left. -/
theorem autoFitTrim_refuse {spareBlocks overBytes kvBlockBytes pass : Nat} {protectSpare : Bool}
    (hlanes : 0 < lanes) (hblock : 0 < kvBlockTokens)
    (hrefuse :
      (autoFitTrim nCtx spareBlocks overBytes kvBlockBytes lanes kvBlockTokens nCtxFloor pass
      protectSpare).refuse = true) :
    spareBlocks = 0 ∧ liveRoom nCtx lanes kvBlockTokens nCtxFloor = 0 ∧
      nCtx < nCtxFloor + kvBlockTokens := by
  obtain ⟨_, _, hsum⟩ := trimSplit_spec (poolPagesToTrim overBytes kvBlockBytes pass)
    (liveRoom nCtx lanes kvBlockTokens nCtxFloor) spareBlocks protectSpare
  have hpos := poolPagesToTrim_pos overBytes kvBlockBytes pass
  cases hsplit : trimSplit (poolPagesToTrim overBytes kvBlockBytes pass)
      (liveRoom nCtx lanes kvBlockTokens nCtxFloor) spareBlocks protectSpare with
  | mk liveCut spareCut =>
      rw [hsplit] at hsum
      rw [autoFitTrim_eq hsplit] at hrefuse
      split at hrefuse
      next hnone =>
        obtain ⟨rfl, rfl⟩ := hnone
        have hroom : liveRoom nCtx lanes kvBlockTokens nCtxFloor = 0 := by omega
        refine ⟨by omega, hroom, ?_⟩
        rw [liveRoom_eq hlanes hblock] at hroom
        have hpage := (Nat.mul_eq_zero.mp hroom).resolve_right (Nat.ne_of_gt hlanes)
        have hlt := (Nat.div_eq_zero_iff_lt hblock).mp hpage
        omega
      next => cases hrefuse

end Cut

end Arcint.Fit
