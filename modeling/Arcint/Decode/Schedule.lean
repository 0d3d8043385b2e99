import Arcint.Decode.Prefill

/-! # The prefill schedule

Which ranges of the prompt the forwards of the prefill loop run. The length of a forward
depends on its position and the prompt only, so a run that starts where another one stood
goes on as that one did.
-/

namespace Arcint.Decode

open Arcint.Core Foundation

/-- A forward: where it starts, and how many tokens it runs. -/
abbrev Span := Nat × Nat

/-- The range of the prompt a call of `paged_forward` runs. -/
def ForwardCall.span (call : ForwardCall) : Span := (call.past, call.tokens.length)

/-- Consecutive non-empty spans from `first` to `last`. -/
def Tiles : Nat → List Span → Nat → Prop
  | first, [], last => first = last
  | first, span :: spans, last =>
      span.1 = first ∧ 0 < span.2 ∧ Tiles (first + span.2) spans last

namespace PrefillGrid

variable (grid : PrefillGrid)

/-- The forwards of a prompt of `n` tokens from `past` on; every one takes at least one token,
so `n` is fuel enough. -/
def schedule (n : Nat) : Nat → Nat → List Span
  | 0, _ => []
  | fuel + 1, past =>
      if past < n then (past, grid.take n past) :: schedule n fuel (past + grid.take n past)
      else []

section Take

variable {n past : Nat}

/-- A forward does not go past the next edge of the chunk grid. -/
theorem add_take_le_edge {edge : Nat} (hedge : grid.chunk ∣ edge) (hlt : past < edge)
    (hpast : past < n) : past + grid.take n past ≤ edge := by
  have hto : past + grid.toEdge n past ≤ edge := by
    obtain ⟨k, rfl⟩ := hedge
    have hchunk : 0 < grid.chunk := Nat.pos_of_mul_pos_right (Nat.zero_lt_of_lt hlt)
    have hquot : past / grid.chunk + 1 ≤ k := (Nat.div_lt_iff_lt_mul hchunk).mpr (by
      rwa [Nat.mul_comm])
    have hle : (past / grid.chunk + 1) * grid.chunk ≤ grid.chunk * k := by
      rw [Nat.mul_comm grid.chunk]
      exact Nat.mul_le_mul_right _ hquot
    have hpos := grid.toEdge_pos hpast
    unfold toEdge at hpos ⊢
    rw [if_pos hchunk] at hpos ⊢
    omega
  unfold take
  split <;> omega

/-- A forward does not run over the snapshot point. -/
theorem add_take_le_snapAt (hsnap : past < grid.snapAt n) :
    past + grid.take n past ≤ grid.snapAt n := by
  unfold take
  split <;> omega

theorem snapAt_lt (hn : 0 < n) : grid.snapAt n < n := by
  unfold snapAt
  split
  next h =>
    have hle := Nat.div_mul_le_self (n - 1) grid.snapshot
    omega
  next => exact hn

/-- Without a grid of its own the snapshot is taken at an edge of the chunk grid. -/
theorem chunk_dvd_snapAt (hgrid : grid.cacheGrid = 0) (n : Nat) : grid.chunk ∣ grid.snapAt n := by
  unfold snapAt snapshot
  rw [hgrid, if_neg (Nat.lt_irrefl 0)]
  split
  next => exact Nat.dvd_mul_left _ _
  next => exact Nat.dvd_zero _

end Take

section Schedule

variable {n fuel past : Nat}

/-- The forwards tile what is left of the prompt. -/
theorem schedule_tiles (hpast : past ≤ n) (hfuel : n ≤ past + fuel) :
    Tiles past (grid.schedule n fuel past) n := by
  induction fuel generalizing past with
  | zero => exact Nat.le_antisymm hpast hfuel
  | succ fuel ih =>
      unfold schedule
      split
      next hlt =>
        have hpos := grid.take_pos hlt
        exact ⟨rfl, hpos, ih (grid.add_take_le hlt) (by omega)⟩
      next hge => exact Nat.le_antisymm hpast (Nat.le_of_not_lt hge)

/-- Every forward is the one of its position. -/
theorem of_mem_schedule {span : Span} (h : span ∈ grid.schedule n fuel past) :
    span.1 < n ∧ span.2 = grid.take n span.1 := by
  induction fuel generalizing past with
  | zero => cases h
  | succ fuel ih =>
      unfold schedule at h
      split at h
      next hlt =>
        rcases List.mem_cons.mp h with rfl | hrest
        · exact ⟨hlt, rfl⟩
        · exact ih hrest
      next => cases h

/-- More fuel changes nothing. -/
theorem schedule_fuel (fuel' : Nat) (hfuel : n ≤ past + fuel) (hfuel' : n ≤ past + fuel') :
    grid.schedule n fuel past = grid.schedule n fuel' past := by
  induction fuel generalizing fuel' past with
  | zero =>
      cases fuel' with
      | zero => rfl
      | succ fuel' =>
          unfold schedule
          rw [if_neg (by omega)]
  | succ fuel ih =>
      cases fuel' with
      | zero =>
          unfold schedule
          rw [if_neg (by omega)]
      | succ fuel' =>
          unfold schedule
          split
          next hlt =>
            have hpos := grid.take_pos hlt
            rw [ih fuel' (by omega) (by omega)]
          next => rfl

/-- A position that no forward runs over is one that a forward starts at: the schedule from
there is the end of the schedule. -/
theorem schedule_split (start : Nat) (hpast : past ≤ start) (hstart : start ≤ n)
    (hover : ∀ q, past ≤ q → q < start → q + grid.take n q ≤ start) (hfuel : n ≤ past + fuel) :
    ∃ before, grid.schedule n fuel past = before ++ grid.schedule n fuel start ∧
      Tiles past before start := by
  -- on the fuel: a forward that begins before `start` does not run over it
  induction fuel generalizing past with
  | zero =>
      obtain rfl : past = start := by omega
      exact ⟨[], rfl, rfl⟩
  | succ fuel ih =>
      rcases Nat.lt_or_eq_of_le hpast with hlt | rfl
      · have hpos := grid.take_pos (Nat.lt_of_lt_of_le hlt hstart)
        have hle := hover past (Nat.le_refl _) hlt
        obtain ⟨before, heq, htiles⟩ := ih hle
          (fun q hq => hover q (by omega)) (by omega)
        refine ⟨(past, grid.take n past) :: before, ?_, rfl, hpos, htiles⟩
        rw [schedule, if_pos (Nat.lt_of_lt_of_le hlt hstart), heq, List.cons_append,
          grid.schedule_fuel (fuel + 1) (by omega) (by omega)]
      · exact ⟨[], rfl, rfl⟩

/-- No forward runs over an edge of the chunk grid. -/
theorem schedule_within_edges {span : Span} (hspan : span ∈ grid.schedule n fuel past) {edge : Nat}
    (hedge : grid.chunk ∣ edge) : ¬(span.1 < edge ∧ edge < span.1 + span.2) := by
  rintro ⟨hbefore, hbehind⟩
  obtain ⟨hlt, htake⟩ := grid.of_mem_schedule hspan
  have hle := grid.add_take_le_edge hedge hbefore hlt
  omega

/-- The schedule from an edge is the end of the schedule from zero. -/
theorem schedule_from_edge (hedge : grid.chunk ∣ past) (hpast : past < n) :
    ∃ before, grid.schedule n n 0 = before ++ grid.schedule n n past ∧ Tiles 0 before past :=
  grid.schedule_split past (Nat.zero_le _) hpast.le
    (fun _ _ hq => grid.add_take_le_edge hedge hq (hq.trans hpast)) (Nat.le_add_left n 0)

end Schedule

end PrefillGrid

section Tiles

variable {first last : Nat} {spans : List Span}

theorem Tiles.le (h : Tiles first spans last) : first ≤ last := by
  induction spans generalizing first with
  | nil => exact Nat.le_of_eq h
  | cons span spans ih => exact (Nat.le_add_right _ _).trans (ih h.2.2)

/-- The last span ends at the end. -/
theorem Tiles.ends (h : Tiles first spans last) (hlt : first < last) :
    ∃ span ∈ spans, span.1 + span.2 = last := by
  induction spans generalizing first with
  | nil => exact absurd h (Nat.ne_of_lt hlt)
  | cons span spans ih =>
      obtain ⟨hstart, -, hrest⟩ := h
      rcases Nat.lt_or_eq_of_le hrest.le with hmore | hend
      · obtain ⟨later, hlater, hends⟩ := ih hrest hmore
        exact ⟨later, List.mem_cons_of_mem _ hlater, hends⟩
      · exact ⟨span, List.mem_cons_self, hstart ▸ hend⟩

end Tiles

/-- A forward ends at the snapshot point when the prefill starts before it. -/
theorem PrefillGrid.schedule_ends_snapAt (grid : PrefillGrid) {n fuel past : Nat} (hn : 0 < n)
    (hfuel : n ≤ past + fuel) (hsnap : past < grid.snapAt n) :
    ∃ span ∈ grid.schedule n fuel past, span.1 + span.2 = grid.snapAt n := by
  obtain ⟨before, heq, htiles⟩ :=
    grid.schedule_split (grid.snapAt n) hsnap.le (grid.snapAt_lt hn).le
    (fun q _ hq => grid.add_take_le_snapAt hq) hfuel
  obtain ⟨span, hspan, hends⟩ := htiles.ends hsnap
  rw [heq]
  exact ⟨span, List.mem_append_left _ hspan, hends⟩

namespace Request

variable {F Piece : Type} (request : Request F Piece)

/-- The forwards of the loop are the schedule of the prompt. -/
theorem prefillCalls_spans (grid : PrefillGrid) (hpages : ∀ h, request.ensureBlocks h = true)
    (fuel : Nat) (s : DecodeState F Piece) :
    (request.prefillCalls grid fuel s).map ForwardCall.span =
      s.calls.map ForwardCall.span ++ grid.schedule request.prompt.length fuel s.past := by
  induction fuel generalizing s with
  | zero => simp [prefillCalls, PrefillGrid.schedule]
  | succ fuel ih =>
      unfold prefillCalls PrefillGrid.schedule
      split
      next hlt =>
        have htake := grid.add_take_le hlt
        -- enough of the prompt is left for the whole chunk
        have hlength : ((request.prompt.drop s.past).take
            (grid.take request.prompt.length s.past)).length =
              grid.take request.prompt.length s.past := by
          rw [List.length_take, List.length_drop]
          omega
        rw [if_pos (hpages _), ih]
        simp [prefillStep, forward, ForwardCall.span, hlength]
      next => simp

/-- The forwards of a request's prefill. -/
def prefillSpans (grid : PrefillGrid) (lane : Lane) (rng : Nat)
    (hit : Option (PrefixHit request.prompt)) : List Span :=
  (request.prefillCalls grid request.prompt.length (request.startState lane rng hit)).map
    ForwardCall.span

theorem prefillSpans_eq (grid : PrefillGrid) (hpages : ∀ h, request.ensureBlocks h = true)
    (lane : Lane) (rng : Nat) (hit : Option (PrefixHit request.prompt)) :
    request.prefillSpans grid lane rng hit =
      grid.schedule request.prompt.length request.prompt.length
        ((hit.map PrefixHit.matched).getD 0) :=
  request.prefillCalls_spans grid hpages _ _

/-- The forwards of the prefill tile the prompt from where it starts, none runs over an edge of
the chunk grid, one ends at the snapshot point, and a warm run that starts at an edge runs
exactly the forwards a cold run has from there on; without a snapshot grid the snapshots are
taken at edges. They are what the loop has recorded when it ends. -/
theorem prefill_schedule (grid : PrefillGrid) (hpages : ∀ h, request.ensureBlocks h = true)
    (lane : Lane) (rng : Nat) (hit : Option (PrefixHit request.prompt))
    (hprompt : request.prompt ≠ []) :
    let past := (hit.map PrefixHit.matched).getD 0
    let spans := request.prefillSpans grid lane rng hit
    Tiles past spans request.prompt.length ∧
      (∀ span ∈ spans, ∀ edge, grid.chunk ∣ edge →
        ¬(span.1 < edge ∧ edge < span.1 + span.2)) ∧
      (past < grid.snapAt request.prompt.length →
        ∃ span ∈ spans, span.1 + span.2 = grid.snapAt request.prompt.length) ∧
      (grid.chunk ∣ past → ∀ coldLane coldRng, ∃ before,
        request.prefillSpans grid coldLane coldRng none = before ++ spans ∧ Tiles 0 before past) ∧
      (grid.cacheGrid = 0 → ∀ n, grid.chunk ∣ grid.snapAt n) ∧
      ∀ out, request.prefillLoop grid request.prompt.length (request.startState lane rng hit) [] =
        some out → out.1.calls.map ForwardCall.span = spans := by
  intro past spans
  have hcalls : ∀ out, request.prefillLoop grid request.prompt.length
      (request.startState lane rng hit) [] = some out →
        out.1.calls.map ForwardCall.span = spans := by
    intro out hout
    rw [request.prefillLoop_calls grid hout]
    rfl
  have hn : 0 < request.prompt.length := List.length_pos_iff.mpr hprompt
  have hspans : spans = grid.schedule request.prompt.length request.prompt.length past :=
    request.prefillSpans_eq grid hpages lane rng hit
  have hpast : past < request.prompt.length := by
    cases hit with
    | none => exact hn
    | some hit => exact hit.lt
  have hcold : ∀ coldLane coldRng, request.prefillSpans grid coldLane coldRng none =
      grid.schedule request.prompt.length request.prompt.length 0 :=
    fun coldLane coldRng => request.prefillSpans_eq grid hpages coldLane coldRng none
  simp only [hspans] at hcalls
  simp only [hcold, hspans]
  generalize request.prompt.length = n at hn hpast hcalls ⊢
  exact ⟨grid.schedule_tiles hpast.le (Nat.le_add_left _ _),
    fun _ hspan _ hedge => grid.schedule_within_edges hspan hedge,
    grid.schedule_ends_snapAt hn (Nat.le_add_left _ _),
    fun hedge _ _ => grid.schedule_from_edge hedge hpast,
    fun hgrid => grid.chunk_dvd_snapAt hgrid, hcalls⟩

end Request

/-- Five tokens on a model whose logits nobody reads. -/
def fiveTokens : Request Int Unit where
  prompt := [1, 2, 3, 4, 5]
  params := ⟨0, 1, 0, 1, 0, 0, 4, false⟩
  eosIds := []
  nCtx := 0
  draftsMax := 0
  decodeOne _ := ()
  onPiece _ := .proceed
  graph _ _ _ _ := []
  draw sampler _ := (0, sampler)
  dflashDraft _ := none
  mtpFeed _ := -1
  ngramDraft _ := []
  ensureBlocks _ := true
  dflash_le := by simp
  mtpReady := false
  mtp_le := by simp
  drafting := false

/-- Chunks of two: the warm run from two runs the last two forwards of the cold one. -/
theorem prefill_schedule_fiveTokens :
    ∃ before, fiveTokens.prefillSpans ⟨2, 0, true⟩ ⟨fun _ => [], fun _ => 0⟩ 0 none =
      before ++ fiveTokens.prefillSpans ⟨2, 0, true⟩ ⟨fun _ => [], fun _ => 0⟩ 0
        (some ⟨2, by decide, by decide⟩) ∧ Tiles 0 before 2 :=
  (fiveTokens.prefill_schedule ⟨2, 0, true⟩ (fun _ => rfl) ⟨fun _ => [], fun _ => 0⟩ 0
    (some ⟨2, by decide, by decide⟩) (by decide)).2.2.2.1 (by decide) _ _

end Arcint.Decode
