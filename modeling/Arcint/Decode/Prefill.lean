import Arcint.Decode.GeneratePaged

/-! # The prefill loop of `generate_paged`

The prompt is run in chunks that never cross the chunk grid, and one chunk is
cut at the snapshot point of the prefix cache. A request starts cold, on zeroed
checkpoint rows, or warm, from the state and the pages of a cached prefix.
-/

namespace Arcint.Decode

open Arcint.Core Foundation

/-- The load-time settings that shape the prefill. -/
structure PrefillGrid where
  prefillChunk : Int
  cacheGrid : Nat
  prefixCache : Bool

namespace PrefillGrid

variable (grid : PrefillGrid)

/-- The chunk grid; 0 when chunking is off. -/
def chunk : Nat := if 0 < grid.prefillChunk then grid.prefillChunk.toNat else 0

/-- The snapshot grid, which is the chunk grid unless `--cache-grid` is set. -/
def snapshot : Nat := if 0 < grid.cacheGrid then grid.cacheGrid else grid.chunk

/-- Where the prefix-cache snapshot of a prompt of `n` tokens is taken; 0 for none. -/
def snapAt (n : Nat) : Nat :=
  if grid.prefixCache = true ∧ 0 < grid.snapshot ∧ grid.snapshot < n then
    (n - 1) / grid.snapshot * grid.snapshot
  else 0

/-- From `past` to the next edge of the chunk grid, or to the end of the prompt. -/
def toEdge (n past : Nat) : Nat :=
  if 0 < grid.chunk then min ((past / grid.chunk + 1) * grid.chunk) n - past else n - past

/-- The length of the forward that starts at `past`. -/
def take (n past : Nat) : Nat :=
  if past < grid.snapAt n ∧ grid.snapAt n < past + grid.toEdge n past then
    grid.snapAt n - past
  else grid.toEdge n past

theorem toEdge_pos {n past : Nat} (hlt : past < n) : 0 < grid.toEdge n past := by
  unfold toEdge
  split
  next hchunk =>
    have hedge : past < (past / grid.chunk + 1) * grid.chunk := by
      rw [Nat.mul_comm]
      exact Nat.lt_mul_div_succ past hchunk
    omega
  next => omega

theorem take_pos {n past : Nat} (hlt : past < n) : 0 < grid.take n past := by
  unfold take
  split
  next hsnap => omega
  next => exact grid.toEdge_pos hlt

theorem add_toEdge_le {n past : Nat} (hlt : past < n) : past + grid.toEdge n past ≤ n := by
  unfold toEdge
  split <;> omega

theorem add_take_le {n past : Nat} (hlt : past < n) : past + grid.take n past ≤ n := by
  have hedge := grid.add_toEdge_le hlt
  unfold take
  split <;> omega

end PrefillGrid

/-- A prefix-cache hit of a prompt. `lookup` never returns the whole prompt: one
token must remain to be run. -/
structure PrefixHit (prompt : List Token) where
  matched : Nat
  pos : 0 < matched
  lt : matched < prompt.length

namespace Request

variable {F Piece : Type} [FloatOps F] (request : Request F Piece)

/-- The lane a request starts on: `restore_paged` writes the snapshot into row 0
and the hit's pages are mapped, or every row is zeroed. -/
def startLane (lane : Lane) : Option (PrefixHit request.prompt) → Lane
  | none => { lane with laRows := fun _ => [] }
  | some hit =>
      { laRows := Function.update lane.laRows 0 (request.prompt.take hit.matched)
        kv := Lane.writeKv lane.kv 0 (request.prompt.take hit.matched) }

/-- The locals before the first prefill forward. -/
def startState (lane : Lane) (rng : Nat) (hit : Option (PrefixHit request.prompt)) :
    DecodeState F Piece where
  next := -1
  past := (hit.map PrefixHit.matched).getD 0
  committedRow := 0
  lane := request.startLane lane hit
  sampler := (Sampler.mk request.params rng (fun _ => 0) (fun _ => 0)).setPrompt request.prompt
  completionTokens := 0
  emitted := []
  drafting := request.drafting
  mtpReady := request.mtpReady
  calls := []

/-- One prefill forward, in place on the committed row. -/
def prefillStep (grid : PrefillGrid) (s : DecodeState F Piece) :
    DecodeState F Piece × List (List F) :=
  let take := grid.take request.prompt.length s.past
  let out := request.forward s ((request.prompt.drop s.past).take take) [s.committedRow] 0
  ({ out.1 with past := s.past + take }, out.2)

/-- The prefill loop; every forward takes at least one token, so the prompt's
length is fuel enough. `none` is the return on an exhausted pool. -/
def prefillLoop (grid : PrefillGrid) :
    Nat → DecodeState F Piece → List (List F) → Option (DecodeState F Piece × List (List F))
  | 0, s, logits => some (s, logits)
  | fuel + 1, s, logits =>
      if s.past < request.prompt.length then
        if request.ensureBlocks
            (request.prompt.take (s.past + grid.take request.prompt.length s.past)) then
          let out := request.prefillStep grid s
          prefillLoop grid fuel out.1 out.2
        else none
      else some (s, logits)

/-- The forwards of the prefill loop, also when it ends on an exhausted pool. -/
def prefillCalls (grid : PrefillGrid) : Nat → DecodeState F Piece → List ForwardCall
  | 0, s => s.calls
  | fuel + 1, s =>
      if s.past < request.prompt.length then
        if request.ensureBlocks
            (request.prompt.take (s.past + grid.take request.prompt.length s.past)) then
          prefillCalls grid fuel (request.prefillStep grid s).1
        else s.calls
      else s.calls

/-- Everything up to the head of the decode loop. `none` when the request
returned before it: an empty prompt, or no pages for a chunk. -/
def prefill (grid : PrefillGrid) (lane : Lane) (rng : Nat)
    (hit : Option (PrefixHit request.prompt)) : Option (DecodeState F Piece) :=
  if request.prompt.isEmpty then none
  else
    (request.prefillLoop grid request.prompt.length (request.startState lane rng hit) []).map
      fun out =>
        let picked := request.pick out.1.sampler out.2
        { out.1 with
          past := request.prompt.length
          next := picked.1
          sampler := picked.2 }

/-! ## What the prefill leaves -/

/-- During prefill the committed row and the KV below `past` hold exactly the
first `past` tokens of the prompt, and nothing has been emitted. -/
structure Prefilling (s : DecodeState F Piece) : Prop where
  le : s.past ≤ request.prompt.length
  row : s.lane.laRows s.committedRow = request.prompt.take s.past
  kv : s.lane.kvPrefix s.past = request.prompt.take s.past
  emitted : s.emitted = []
  count : s.completionTokens = 0
  rowZero : s.committedRow = 0
  flags : s.mtpReady = request.mtpReady ∧ s.sampler.params = request.params

omit [FloatOps F] in
theorem startState_prefilling (lane : Lane) (rng : Nat)
    (hit : Option (PrefixHit request.prompt)) :
    request.Prefilling (request.startState lane rng hit) := by
  cases hit with
  | none =>
      exact ⟨Nat.zero_le _, by simp [startState, startLane],
        by simp [startState, Lane.kvPrefix], rfl, rfl, rfl, rfl, rfl⟩
  | some hit =>
      have hlen : (request.prompt.take hit.matched).length = hit.matched :=
        List.length_take_of_le hit.lt.le
      refine ⟨hit.lt.le, by simp [startState, startLane], ?_, rfl, rfl, rfl, rfl, rfl⟩
      have hkv := Lane.kvPrefix_writeKv lane 0 (request.prompt.take hit.matched)
        (n := hit.matched) hlen.ge (request.startLane lane (some hit)).laRows
      rw [List.take_of_length_le hlen.le] at hkv
      simpa [startState, startLane, Lane.kvPrefix] using hkv

omit [FloatOps F] in
theorem prefillStep_prefilling (grid : PrefillGrid) {s : DecodeState F Piece}
    (hs : request.Prefilling s) (hlt : s.past < request.prompt.length) :
    request.Prefilling (request.prefillStep grid s).1 := by
  have htake := grid.add_take_le hlt
  have hsplit : request.prompt.take (s.past + grid.take request.prompt.length s.past) =
      request.prompt.take s.past ++
        (request.prompt.drop s.past).take (grid.take request.prompt.length s.past) := by
    rw [List.take_add]
  have hlen : ((request.prompt.drop s.past).take
      (grid.take request.prompt.length s.past)).length =
        grid.take request.prompt.length s.past := by
    simp only [List.length_take, List.length_drop]
    omega
  refine ⟨htake, ?_, ?_, hs.emitted, hs.count, hs.rowZero, hs.flags⟩
  · simp only [prefillStep, forward, Lane.pagedForward, Function.update_self]
    rw [hs.row, hsplit]
  · have hkv := Lane.kvPrefix_writeKv s.lane s.past
      ((request.prompt.drop s.past).take (grid.take request.prompt.length s.past))
      hlen.ge (request.prefillStep grid s).1.lane.laRows
    rw [hs.kv, List.take_of_length_le hlen.le, ← hsplit] at hkv
    exact hkv

omit [FloatOps F] in
theorem prefillLoop_prefilling (grid : PrefillGrid) {fuel : Nat} {s : DecodeState F Piece}
    {logits : List (List F)} {out : DecodeState F Piece × List (List F)}
    (hs : request.Prefilling s) (hfuel : request.prompt.length ≤ s.past + fuel)
    (hout : request.prefillLoop grid fuel s logits = some out) :
    request.Prefilling out.1 ∧ out.1.past = request.prompt.length := by
  induction fuel generalizing s logits with
  | zero =>
      cases hout
      exact ⟨hs, Nat.le_antisymm hs.le hfuel⟩
  | succ fuel ih =>
      unfold prefillLoop at hout
      split at hout
      next hlt =>
        split at hout
        next =>
          refine ih (request.prefillStep_prefilling grid hs hlt) ?_ hout
          have hpos := grid.take_pos hlt
          simp only [prefillStep]
          omega
        next => cases hout
      next hge =>
        cases hout
        exact ⟨hs, Nat.le_antisymm hs.le (Nat.le_of_not_lt hge)⟩

omit [FloatOps F] in
/-- A prefill that reaches the decode loop has run the forwards of its loop. -/
theorem prefillLoop_calls (grid : PrefillGrid) {fuel : Nat} {s : DecodeState F Piece}
    {logits : List (List F)} {out : DecodeState F Piece × List (List F)}
    (hout : request.prefillLoop grid fuel s logits = some out) :
    out.1.calls = request.prefillCalls grid fuel s := by
  induction fuel generalizing s logits with
  | zero =>
      cases hout
      rfl
  | succ fuel ih =>
      unfold prefillLoop at hout
      unfold prefillCalls
      split at hout
      next hlt =>
        rw [if_pos hlt]
        split at hout
        next hpages =>
          rw [if_pos hpages]
          exact ih hout
        next => cases hout
      next hge =>
        rw [if_neg hge]
        cases hout
        rfl

omit [FloatOps F] in
theorem prefillLoop_isSome (grid : PrefillGrid) (hpages : ∀ h, request.ensureBlocks h = true)
    (fuel : Nat) (s : DecodeState F Piece) (logits : List (List F)) :
    (request.prefillLoop grid fuel s logits).isSome := by
  induction fuel generalizing s logits with
  | zero => rfl
  | succ fuel ih =>
      unfold prefillLoop
      rw [if_pos (hpages _)]
      split
      · exact ih _ _
      · rfl

/-- With pages always available, exactly the empty prompt does not reach the
decode loop. -/
theorem prefill_isSome_iff (grid : PrefillGrid) (hpages : ∀ h, request.ensureBlocks h = true)
    (lane : Lane) (rng : Nat) (hit : Option (PrefixHit request.prompt)) :
    (request.prefill grid lane rng hit).isSome ↔ request.prompt ≠ [] := by
  unfold prefill
  rw [← List.isEmpty_eq_false_iff]
  cases request.prompt.isEmpty with
  | true => simp
  | false => simp [request.prefillLoop_isSome grid hpages]

/-- The head of the decode loop: the whole prompt has been absorbed, and the
first token has been picked. -/
theorem prefill_prefilling {grid : PrefillGrid} {lane : Lane} {rng : Nat}
    {hit : Option (PrefixHit request.prompt)} {s : DecodeState F Piece}
    (hprefill : request.prefill grid lane rng hit = some s) :
    ∃ before : DecodeState F Piece, ∃ logits, request.Prefilling before ∧
      before.past = request.prompt.length ∧
      s = { before with
        next := (request.pick before.sampler logits).1
        sampler := (request.pick before.sampler logits).2 } := by
  unfold prefill at hprefill
  split at hprefill
  next => cases hprefill
  next =>
    obtain ⟨⟨before, logits⟩, hloop, hs⟩ := Option.map_eq_some_iff.mp hprefill
    obtain ⟨hbefore, hpast⟩ := request.prefillLoop_prefilling grid
      (request.startState_prefilling lane rng hit) (Nat.le_add_left _ _) hloop
    refine ⟨before, logits, hbefore, hpast, ?_⟩
    rw [← hs, ← hpast]

end Request

end Arcint.Decode
