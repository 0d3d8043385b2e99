import Arcint.Fit.PhaseE

/-! # Convergence under driver rounding

A driver that rounds a pool up to whole granules can leave more resident than
the pages asked for. The first three trims give back at least 84 pages, so a
granule of up to 84 pages is crossed before the last pass.
-/

namespace Arcint.Fit

open Arcint.Foundation

/-- Resident bytes of a pool under a driver that allocates whole granules. -/
def roundedResidency (base pageBytes granule alignment blocks : Nat) : Nat :=
  base + pageBytes * granule * ((blocks + alignment + granule - 1) / granule)

/-- A driver that never refuses and rounds to granules. -/
def roundingDriver (base pageBytes granule alignment : Nat) : Driver :=
  fun _ blocks => some (roundedResidency base pageBytes granule alignment blocks)

/-- Pages given back at least by the passes before a given one. -/
def backoffTotal (pass : Nat) : Nat :=
  ((List.range pass).map autoFitBackoffPages).sum

theorem backoffTotal_succ (pass : Nat) :
    backoffTotal (pass + 1) = backoffTotal pass + autoFitBackoffPages pass := by
  simp [backoffTotal, List.range_succ]

/-- A pool smaller by a granule leaves a granule less resident. -/
theorem roundedResidency_add_le {base pageBytes granule alignment blocks more : Nat}
    (hgranule : 0 < granule) (hless : blocks + granule ≤ more) :
    roundedResidency base pageBytes granule alignment blocks + pageBytes * granule ≤
      roundedResidency base pageBytes granule alignment more := by
  have hstep : (blocks + alignment + granule - 1) / granule + 1 ≤
      (more + alignment + granule - 1) / granule := by
    rw [← Nat.add_div_right _ hgranule]
    apply Nat.div_le_div_right
    omega
  have hmul := Nat.mul_le_mul_left (pageBytes * granule) hstep
  unfold roundedResidency
  rw [Nat.mul_add, Nat.mul_one] at hmul
  omega

namespace LoadTerms

/-- The floor is a whole number of pages. -/
theorem nCtxFloor_dvd (load : LoadTerms) : ∃ pages, load.nCtxFloor = kvBlockTokens * pages := by
  unfold nCtxFloor
  rcases Nat.le_total (kvBlockTokens * load.lanes) 4096 with hle | hge
  · rw [Nat.max_eq_right hle]
    exact ⟨256, rfl⟩
  · rw [Nat.max_eq_left hge]
    exact ⟨load.lanes, rfl⟩

/-- Pool pages the context of a pass can still give. -/
def room (load : LoadTerms) (nCtx : Nat) : Nat :=
  liveRoom nCtx load.lanes kvBlockTokens load.nCtxFloor

theorem room_eq (load : LoadTerms) (hlanes : 0 < load.lanes) (nCtx : Nat) :
    load.room nCtx = (nCtx - load.nCtxFloor) / kvBlockTokens * load.lanes :=
  liveRoom_eq hlanes kvBlockTokens_pos

section Trim

variable {load : LoadTerms} {trim : AutoFitTrim} {nCtx spareBlocks budget pages : Nat}

/-- Live pages fall by at least as much as the room does. -/
theorem room_add_live_le (hlanes : 0 < load.lanes)
    (hcuts : trim.Cuts nCtx spareBlocks budget load.lanes kvBlockTokens load.nCtxFloor pages) :
    load.room nCtx + load.liveBlocks trim.nextNCtx ≤
      load.room trim.nextNCtx + load.liveBlocks nCtx := by
  have hlive := load.liveBlocks_add_le hcuts.tokens
  have hpages : (nCtx - load.nCtxFloor) / kvBlockTokens ≤
      (trim.nextNCtx - load.nCtxFloor) / kvBlockTokens + pages := by
    obtain ⟨floorPages, hfloor⟩ := load.nCtxFloor_dvd
    rw [hfloor]
    rcases hcuts.aligned with ⟨rfl, hsame⟩ | hnext
    · rw [hsame]
      exact Nat.le_add_right _ _
    · rw [hnext, hfloor]
      unfold kvBlockTokens
      omega
  have hroom := Nat.mul_le_mul_right load.lanes hpages
  rw [Nat.add_mul, ← load.room_eq hlanes, ← load.room_eq hlanes] at hroom
  omega

/-- A trim that takes everything leaves no room. -/
theorem room_eq_zero_of_whole (hlanes : 0 < load.lanes)
    (hcuts : trim.Cuts nCtx spareBlocks budget load.lanes kvBlockTokens load.nCtxFloor pages)
    (hwhole : load.room nCtx + spareBlocks < budget) :
    load.room trim.nextNCtx = 0 ∧ trim.nextSpareCap = 0 := by
  obtain ⟨hpages, hcap⟩ := hcuts.whole hwhole
  refine ⟨?_, hcap⟩
  have hnone : (trim.nextNCtx - load.nCtxFloor) / kvBlockTokens = 0 := by
    obtain ⟨floorPages, hfloor⟩ := load.nCtxFloor_dvd
    rw [hfloor] at hpages ⊢
    have haligned := hcuts.aligned
    rw [hfloor] at haligned
    unfold kvBlockTokens at *
    rcases haligned with ⟨hzero, hsame⟩ | hnext
    · rw [hsame, ← hpages, hzero]
    · rw [hnext]
      omega
  rw [load.room_eq hlanes, hnone, Nat.zero_mul]

end Trim

/-! ## The passes under rounding -/

/-- Pages the first pass asked for. -/
def firstBlocks (load : LoadTerms) (nCtx : Nat) : Nat :=
  (load.sizing (replayStart nCtx)).blocks

/-- Pool pages above the floor in the first pass, live and spare. -/
def firstRoom (load : LoadTerms) (nCtx : Nat) : Nat :=
  load.room nCtx + (load.sizing (replayStart nCtx)).spareBlocks

/-- At a loop head of a load that started with `nCtx`: live pages have fallen
with the room, and either the trims so far are in the request or nothing is left
to trim. -/
structure Trimmed (load : LoadTerms) (nCtx : Nat) (s : Replay) : Prop where
  live : load.room nCtx + load.liveBlocks s.pagedNCtx ≤
    load.room s.pagedNCtx + load.liveBlocks nCtx
  blocks : (load.sizing s).blocks + backoffTotal s.pass ≤ load.firstBlocks nCtx ∨
    load.room s.pagedNCtx + (load.sizing s).spareBlocks = 0

theorem trimmed_start (load : LoadTerms) (nCtx : Nat) : load.Trimmed nCtx (replayStart nCtx) :=
  ⟨Nat.le_refl _, .inl (Nat.le_refl _)⟩

/-- With nothing left to trim, everything above the floor has been given back. -/
theorem Trimmed.of_no_room {load : LoadTerms} {nCtx : Nat} {s : Replay}
    (htrimmed : load.Trimmed nCtx s)
    (hnone : load.room s.pagedNCtx + (load.sizing s).spareBlocks = 0) :
    (load.sizing s).blocks + load.firstRoom nCtx ≤ load.firstBlocks nCtx := by
  have hlive := htrimmed.live
  have hfirst := load.sizing_blocks (replayStart nCtx)
  have hstart : (replayStart nCtx).pagedNCtx = nCtx := rfl
  rw [hstart] at hfirst
  rw [load.sizing_blocks s]
  unfold firstBlocks firstRoom
  omega

theorem Retried.trimmed {load : LoadTerms} {driver : Driver} {nCtx : Nat} {s next : Replay}
    {reserve : Bool} (hlanes : 0 < load.lanes) (hmode : load.mode = .autoFit reserve)
    (htrimmed : load.Trimmed nCtx s) (hretried : load.Retried driver s next)
    (hroom : load.room s.pagedNCtx + (load.sizing s).spareBlocks ≠ 0) :
    load.Trimmed nCtx next := by
  rcases hretried.choice with ⟨hexplicit, _⟩ | ⟨reserve, overBytes, _, hretry, hctx, hcap⟩
  · rw [hmode] at hexplicit
    cases hexplicit
  · obtain ⟨pages, hcuts⟩ := passTrim_cuts hlanes hretry
    have hlive := room_add_live_le hlanes hcuts
    have hspare := load.sizing_spare_le next
    have hbefore := htrimmed.live
    rw [← hctx] at hlive
    refine ⟨by omega, ?_⟩
    by_cases hwhole : load.room s.pagedNCtx + (load.sizing s).spareBlocks <
        poolPagesToTrim (load.autoFitOver s.pagedNCtx overBytes) load.kvBlockBytes s.pass
    · -- the trim takes all there is
      right
      obtain ⟨hnone, hzero⟩ := room_eq_zero_of_whole hlanes hcuts hwhole
      rw [← hctx] at hnone
      rw [hcap, hzero] at hspare
      omega
    · -- the trim is made in full, at least the floor of this pass
      left
      have hfull := hcuts.total
      change min _ (load.room s.pagedNCtx + _) ≤ _ at hfull
      rw [Nat.min_eq_left (Nat.le_of_not_lt hwhole)] at hfull
      have hbackoff := backoff_le_poolPagesToTrim (load.autoFitOver s.pagedNCtx overBytes)
        load.kvBlockBytes s.pass
      have hcut := load.liveBlocks_add_le hcuts.tokens
      rw [← hctx] at hcut
      rw [← hcap] at hfull
      have hkeep := hcuts.spare
      rw [← hcap] at hkeep
      have hblocks := htrimmed.blocks.resolve_right hroom
      rw [hretried.pass, backoffTotal_succ]
      rw [load.sizing_blocks] at hblocks ⊢
      omega

section Rounding

variable {load : LoadTerms} {nCtx base pageBytes granule alignment ceilingBytes : Nat}

/-- A request that is smaller than the first by a granule is accepted. -/
theorem audit_rounding {s : Replay} (hgranule : 0 < granule)
    (hceiling : ∀ n, load.ceiling n = ceilingBytes)
    (hover : roundedResidency base pageBytes granule alignment (load.firstBlocks nCtx) <
      ceilingBytes + pageBytes * granule)
    (hless : (load.sizing s).blocks + granule ≤ load.firstBlocks nCtx) :
    (load.audit s.pagedNCtx
      (roundingDriver base pageBytes granule alignment s.pass (load.sizing s).blocks)).1 =
        false := by
  have hresident := @roundedResidency_add_le base pageBytes granule alignment _ _ hgranule hless
  have hfits : ¬ load.ceiling s.pagedNCtx <
      roundedResidency base pageBytes granule alignment (load.sizing s).blocks := by
    rw [hceiling]
    omega
  simp only [roundingDriver, audit, if_neg hfits]

/-- Heads that are reached have been trimmed, and a pass is still to come. -/
theorem trimmed_head {reserve : Bool} (hlanes : 0 < load.lanes)
    (hmode : load.mode = .autoFit reserve) (hgranule : 0 < granule) (hle : granule ≤ 84)
    (hceiling : ∀ n, load.ceiling n = ceilingBytes) (hroom : 84 ≤ load.firstRoom nCtx)
    (hover : roundedResidency base pageBytes granule alignment (load.firstBlocks nCtx) <
      ceilingBytes + pageBytes * granule) {n : Nat} {head : Replay}
    (hhead : (load.phaseELoop (roundingDriver base pageBytes granule alignment)).after n
      (replayStart nCtx) = .again head) :
    load.Trimmed nCtx head ∧ head.pass ≤ lastPass := by
  refine @Loop.head_invariant _ _ _ (fun s => load.Trimmed nCtx s ∧ s.pass ≤ lastPass) _
    ⟨load.trimmed_start nCtx, Nat.zero_le _⟩ ?_ _ _ hhead
  rintro _ s next - ⟨htrimmed, hpass⟩ hbody
  have hretried : load.Retried (roundingDriver base pageBytes granule alignment) s next :=
    phaseEPass_again hbody
  -- the pass failed, so less than a granule had been given back
  have hclose : ¬ (load.sizing s).blocks + granule ≤ load.firstBlocks nCtx := by
    intro hless
    have haccepted := audit_rounding hgranule hceiling hover hless
    rw [hretried.failed] at haccepted
    cases haccepted
  have hsome : load.room s.pagedNCtx + (load.sizing s).spareBlocks ≠ 0 := by
    intro hnone
    have hgiven := htrimmed.of_no_room hnone
    omega
  refine ⟨hretried.trimmed hlanes hmode htrimmed hsome, ?_⟩
  rw [hretried.pass]
  apply Nat.lt_of_le_of_ne hpass
  intro hlast
  have hgiven := htrimmed.blocks.resolve_right hsome
  rw [hlast] at hgiven
  have htotal : backoffTotal lastPass = 84 := by decide
  omega

/-- A driver that rounds the pool up to granules of at most 84 pages, at any
alignment: if the first pass is over by less than a granule and 84 pages lie above
the floor, one of the four passes of the automatic fit is accepted. -/
theorem phaseE_converges (load : LoadTerms) (reserve : Bool) (hlanes : 0 < load.lanes)
    (hmode : load.mode = .autoFit reserve) (hgranule : 0 < granule) (hle : granule ≤ 84)
    (hceiling : ∀ n, load.ceiling n = ceilingBytes) (hroom : 84 ≤ load.firstRoom nCtx)
    (hover : roundedResidency base pageBytes granule alignment (load.firstBlocks nCtx) <
      ceilingBytes + pageBytes * granule) :
    ∃ result blocks, (load.phaseELoop (roundingDriver base pageBytes granule alignment)).after 5
        (replayStart nCtx) = .leave result ∧ result.ending = .accepted blocks := by
  obtain ⟨result, hresult⟩ :=
    load.phaseELoop_leaves (roundingDriver base pageBytes granule alignment) nCtx
  obtain ⟨n, _, head, hhead, hbody⟩ := Loop.exists_head_of_after_leave hresult
  obtain ⟨htrimmed, hpass⟩ := trimmed_head hlanes hmode hgranule hle hceiling hroom hover hhead
  refine ⟨result, (load.sizing head).blocks, hresult, ?_⟩
  have hleft : load.Left (roundingDriver base pageBytes granule alignment) head result :=
    phaseEPass_leave hbody
  cases hleft with
  | accepted overBytes _ => rfl
  | notHonoured overBytes _ hfailed hexplicit hrefuse =>
      rw [hmode] at hexplicit
      cases hexplicit
  | notAtTheFloor overBytes _ _ hfailed _ hrefuse =>
      -- nothing left to trim: all 84 pages have been given back
      obtain ⟨hspare, hnone, _⟩ := autoFitTrim_refuse hlanes kvBlockTokens_pos hrefuse
      have hgiven := htrimmed.of_no_room (Nat.add_eq_zero_iff.mpr ⟨hnone, hspare⟩)
      have haccepted := audit_rounding hgranule hceiling hover
        (Nat.le_trans (Nat.add_le_add_left (hle.trans hroom) _) hgiven)
      rw [hfailed] at haccepted
      cases haccepted
  | replayExhausted hbeyond => exact absurd hpass (Nat.not_le_of_lt hbeyond)

end Rounding

/-- Granules of 60 pages, the first pass over by one byte. -/
theorem phaseE_converges_sixty_pages :
    ∃ result blocks, ((oneLane (.autoFit true)).phaseELoop (roundingDriver 1388545 4096 60 7)).after
        5 (replayStart 8192) = .leave result ∧ result.ending = .accepted blocks := by
  apply @phaseE_converges 8192 1388545 4096 60 7 4091904 (oneLane (.autoFit true)) true
  · decide
  · rfl
  · decide
  · decide
  · intro n
    simp [ceiling, oneLane, packedValuesScratchReservationBytes, phaseECeilingBytes, wordSize]
  · decide
  · decide

end LoadTerms

end Arcint.Fit
