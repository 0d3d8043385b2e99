import Arcint.Decode.Rollback

/-! # Drafters along a request

A drafter with a state of its own is touched at four places of `generate_paged`:
after the forward of a prompt chunk, in the propose phase, after a plain step and
after a promotion. The loops here carry that state beside the locals of the
request, whatever the drafter is.
-/

namespace Arcint.Decode

open Arcint.Core Foundation

/-- Where `generate_paged` touches the state of a drafter. Every hook sees the locals
before the forward it follows. -/
structure DrafterHooks (F Piece D : Type) where
  /-- After the forward over a chunk of the prompt. -/
  prime : DecodeState F Piece → List Token → D → D
  propose : DecodeState F Piece → D → List Token × D
  /-- After the plain forward. -/
  plain : DecodeState F Piece → D → D
  /-- After a verify forward over `next` and these drafts that accepted so many. -/
  promote : DecodeState F Piece → List Token → Nat → D → D

/-! ## Rows of a forward -/

section Rows

variable {F Piece R : Type}

/-- An output of the graph with one row a token, such as the hidden state: each row is a
function of the tokens absorbed up to it. -/
def tokenRows (out : List Token → R) (s : DecodeState F Piece) (tokens : List Token) : List R :=
  (List.range tokens.length).map fun i =>
    out (s.lane.laRows s.committedRow ++ tokens.take (i + 1))

/-- The rows of `k` tokens of a text from `p` on. -/
def rowsFrom (out : List Token → R) (x : List Token) (p k : Nat) : List R :=
  (List.range k).map fun i => out (x.take (p + i + 1))

variable {out : List Token → R} {x : List Token}

@[simp] theorem length_rowsFrom (p k : Nat) : (rowsFrom out x p k).length = k := by
  simp [rowsFrom]

theorem rowsFrom_getElem? {p k i : Nat} (hi : i < k) :
    (rowsFrom out x p k)[i]? = some (out (x.take (p + i + 1))) := by
  simp [rowsFrom, hi]

end Rows

namespace Request

variable {F Piece D : Type} [FloatOps F] (request : Request F Piece)
  (hooks : DrafterHooks F Piece D)

/-- The tokens of the prefill forward from a state. -/
def chunkAt (grid : PrefillGrid) (s : DecodeState F Piece) : List Token :=
  (request.prompt.drop s.past).take (grid.take request.prompt.length s.past)

/-- The prefill loop with the drafter's state, which is returned however it ends. -/
def trackedPrefillLoop (grid : PrefillGrid) :
    Nat → DecodeState F Piece → D → List (List F) → D × Option (DecodeState F Piece × List (List F))
  | 0, s, d, logits => (d, some (s, logits))
  | fuel + 1, s, d, logits =>
      if s.past < request.prompt.length then
        if request.ensureBlocks
            (request.prompt.take (s.past + grid.take request.prompt.length s.past)) then
          let out := request.prefillStep grid s
          trackedPrefillLoop grid fuel out.1 (hooks.prime s (request.chunkAt grid s) d) out.2
        else (d, none)
      else (d, some (s, logits))

/-- Everything up to the head of the decode loop, with the drafter's state. -/
def trackedPrefill (grid : PrefillGrid) (lane : Lane) (rng : Nat)
    (hit : Option (PrefixHit request.prompt)) (d : D) : D × Option (DecodeState F Piece) :=
  if request.prompt.isEmpty then (d, none)
  else
    let out := request.trackedPrefillLoop hooks grid request.prompt.length
      (request.startState lane rng hit) d []
    (out.1, out.2.map fun reached =>
      let picked := request.pick reached.1.sampler reached.2
      { reached.1 with
        past := request.prompt.length
        next := picked.1
        sampler := picked.2 })

/-- One pass of the decode loop with the drafter's state. -/
def trackedPass (p : DecodeState F Piece × D) :
    Pass (DecodeState F Piece × D) (Finished F Piece × D) :=
  match request.headGate p.1.next p.1.completionTokens p.1.past with
  | some reason => .leave (⟨p.1, reason⟩, p.2)
  | none =>
      let committed := request.commit p.1 p.1.next
      match committed.2 with
      | .proceed =>
          let s := committed.1
          let proposed := hooks.propose s p.2
          if request.ensureBlocks (request.committed s) then
            if proposed.1.isEmpty then
              .again (request.plainStep s, hooks.plain s proposed.2)
            else
              match request.speculativeStep s proposed.1 with
              | .leave result => .leave (result, proposed.2)
              | .again next =>
                  -- with too few rows the pass goes round before the promotion
                  .again (next,
                    if (request.verifyForward s proposed.1).2.length <
                        (s.next :: proposed.1).length then proposed.2
                    else
                      hooks.promote s proposed.1 (request.verifyAccept s proposed.1).accepted
                        proposed.2)
          else .leave (⟨s, .length⟩, proposed.2)
      | control => .leave (⟨committed.1, stopReason control⟩, p.2)

/-- The decode loop with the drafter's state. -/
def trackedLoop : Loop (DecodeState F Piece × D) (Finished F Piece × D) :=
  ⟨request.trackedPass hooks⟩

/-- Without the drafter's state a pass is the one of `generate_paged`. -/
theorem trackedPass_decode (s : DecodeState F Piece) (d : D) :
    request.decodePass (fun c => (hooks.propose c d).1) s =
      match request.trackedPass hooks (s, d) with
      | .again p => .again p.1
      | .leave r => .leave r.1 := by
  unfold decodePass trackedPass
  dsimp only
  cases request.headGate s.next s.completionTokens s.past with
  | some reason => rfl
  | none =>
      dsimp only
      cases (request.commit s s.next).2 with
      | stop => rfl
      | cancel => rfl
      | proceed =>
          dsimp only
          split
          next =>
            split
            next => rfl
            next =>
              cases request.speculativeStep (request.commit s s.next).1
                (hooks.propose (request.commit s s.next).1 d).1 with
              | leave result => rfl
              | again next => rfl
          next => rfl

/-! ## What a pass does to the drafter -/

variable {request hooks}

/-- A pass that goes round again: a plain step, a verify pass with too few rows, or a
promotion. -/
theorem trackedPass_again_cases {s next : DecodeState F Piece} {d last : D}
    (hagain : request.trackedPass hooks (s, d) = .again (next, last)) :
    ((hooks.propose (request.commit s s.next).1 d).1 = [] ∧
        next = request.plainStep (request.commit s s.next).1 ∧
        last = hooks.plain (request.commit s s.next).1
          (hooks.propose (request.commit s s.next).1 d).2) ∨
      ∃ drafts, (hooks.propose (request.commit s s.next).1 d).1 = drafts ∧ drafts ≠ [] ∧
        (((request.verifyRows s drafts).length < (s.next :: drafts).length ∧
            request.speculativeStep (request.commit s s.next).1 drafts = .again next ∧
            last = (hooks.propose (request.commit s s.next).1 d).2) ∨
          ((request.verifyAccept (request.commit s s.next).1 drafts).stop = none ∧
            next = request.advance (request.commit s s.next).1 drafts ∧
            last = hooks.promote (request.commit s s.next).1 drafts
              (request.verifyAccept (request.commit s s.next).1 drafts).accepted
              (hooks.propose (request.commit s s.next).1 d).2)) := by
  unfold trackedPass at hagain
  dsimp only at hagain
  split at hagain
  next => cases hagain
  next =>
    split at hagain
    next =>
      split at hagain
      next =>
        split at hagain
        next hempty =>
          cases hagain
          exact .inl ⟨List.isEmpty_iff.mp hempty, rfl, rfl⟩
        next hdrafts =>
          refine .inr ⟨_, rfl, fun hnil => hdrafts (List.isEmpty_iff.mpr hnil), ?_⟩
          split at hagain
          next => cases hagain
          next after hstep =>
            cases hagain
            split
            next hshort => exact .inl ⟨hshort, hstep, rfl⟩
            next henough =>
              rw [request.speculativeStep_enough _ (Nat.le_of_not_lt henough)] at hstep
              split at hstep
              next => cases hstep
              next hstop =>
                cases hstep
                exact .inr ⟨hstop, rfl, rfl⟩
      next => cases hagain
    next => cases hagain

/-- The accept loop only appends to the text. -/
theorem acceptDrafts_prefix (logits : List (List F)) (past i : Nat) (drafts : List Token)
    (s : DecodeState F Piece) :
    request.committed s <+:
      request.committed (request.acceptDrafts logits past i drafts s).state := by
  induction drafts generalizing i s with
  | nil => exact List.prefix_rfl
  | cons draft drafts ih =>
      obtain hreject | ⟨haccept, ⟨reason, hgate⟩ | ⟨hgate, hstop⟩ | ⟨hgate, hproceed⟩⟩ :=
        request.acceptDrafts_cases logits past i draft s
      · rw [acceptDrafts_reject hreject]
        exact List.prefix_rfl
      · rw [acceptDrafts_gate haccept hgate]
        exact List.prefix_rfl
      · rw [acceptDrafts_stop haccept hgate rfl hstop, committed_commit]
        exact List.prefix_append _ _
      · rw [acceptDrafts_proceed haccept hgate hproceed]
        refine List.IsPrefix.trans ?_ (ih _ _)
        rw [committed_commit]
        exact List.prefix_append _ _

theorem verifyAccept_prefix (s : DecodeState F Piece) (drafts : List Token) :
    request.committed s <+: request.committed (request.verifyAccept s drafts).state :=
  acceptDrafts_prefix (request.verifyForward s drafts).2 s.past 0 drafts
    (request.verifyForward s drafts).1

/-- A pass that leaves has run the propose phase after its commit, or not at all. -/
theorem trackedPass_leave_cases {s : DecodeState F Piece} {d last : D}
    {result : Finished F Piece}
    (hleave : request.trackedPass hooks (s, d) = .leave (result, last)) :
    (last = d ∧ request.committed s <+: request.committed result.state) ∨
      last = (hooks.propose (request.commit s s.next).1 d).2 ∧
        request.committed (request.commit s s.next).1 <+: request.committed result.state := by
  unfold trackedPass at hleave
  dsimp only at hleave
  split at hleave
  next =>
    cases hleave
    exact .inl ⟨rfl, List.prefix_rfl⟩
  next =>
    split at hleave
    next =>
      split at hleave
      next =>
        split at hleave
        next => cases hleave
        next =>
          split at hleave
          next after hstep =>
            cases hleave
            refine .inr ⟨rfl, ?_⟩
            rcases Nat.lt_or_ge (request.verifyForward (request.commit s s.next).1
              (hooks.propose (request.commit s s.next).1 d).1).2.length
              (s.next :: (hooks.propose (request.commit s s.next).1 d).1).length with
              hshort | henough
            · obtain ⟨next, hnext, _⟩ := request.speculativeStep_short _ hshort
              rw [hnext] at hstep
              cases hstep
            · rw [request.speculativeStep_enough (request.commit s s.next).1 henough] at hstep
              split at hstep
              next =>
                cases hstep
                exact verifyAccept_prefix (request.commit s s.next).1 _
              next => cases hstep
          next => cases hleave
      next =>
        cases hleave
        exact .inr ⟨rfl, List.prefix_rfl⟩
    next =>
      cases hleave
      refine .inl ⟨rfl, ?_⟩
      rw [committed_commit]
      exact List.prefix_append _ _

/-! ## Rows of the request's forwards -/

section Rows

variable {R : Type} {out : List Token → R} {s : DecodeState F Piece}

omit [FloatOps F] in
theorem tokenRows_chunkAt {grid : PrefillGrid} (hs : request.Prefilling s)
    (hlt : s.past < request.prompt.length) :
    tokenRows out s (request.chunkAt grid s) = rowsFrom out request.prompt s.past
      (grid.take request.prompt.length s.past) := by
  have htake := grid.add_take_le hlt
  unfold tokenRows rowsFrom chunkAt
  rw [hs.row, List.length_take, List.length_drop, Nat.min_eq_left (by omega)]
  apply List.map_congr_left
  intro i hi
  have hi := List.mem_range.mp hi
  rw [List.take_take, Nat.min_eq_left (by omega), ← List.take_add, Nat.add_assoc]

omit [FloatOps F] in
/-- The rows of a verify forward up to the last accepted draft are those of the text
after the promotion. -/
theorem tokenRows_verify {drafts y : List Token} {n j : Nat} (habsorbed : request.Absorbed s)
    (hy : y = request.committed s ++ (s.next :: drafts).take (n + 1)) (hle : n ≤ drafts.length)
    (hj : j ≤ n) :
    (tokenRows out (request.commit s s.next).1 (s.next :: drafts))[j]? =
      some (out (y.take ((request.committed s).length + j + 1))) := by
  have hrow : y.take ((request.committed s).length + j + 1) =
      request.committed s ++ (s.next :: drafts).take (j + 1) := by
    rw [hy, Nat.add_assoc, List.take_length_add_append, List.take_take,
      Nat.min_eq_left (Nat.succ_le_succ hj)]
  have hj' : j < (s.next :: drafts).length := Nat.lt_succ_of_le (hj.trans hle)
  rw [hrow, ← habsorbed.row, tokenRows, List.getElem?_map, List.getElem?_range hj']
  rfl

end Rows

/-! ## Prefill heads -/

/-- The heads of the prefill loop, with the drafter's state at each of them. -/
inductive PrefillReaches (request : Request F Piece) (hooks : DrafterHooks F Piece D)
    (grid : PrefillGrid) (s : DecodeState F Piece) (d : D) : DecodeState F Piece → D → Prop
  | start : PrefillReaches request hooks grid s d s d
  | chunk {middle : DecodeState F Piece} {md : D}
      (hmiddle : PrefillReaches request hooks grid s d middle md)
      (hlt : middle.past < request.prompt.length) :
      PrefillReaches request hooks grid s d (request.prefillStep grid middle).1
        (hooks.prime middle (request.chunkAt grid middle) md)

omit [FloatOps F] in
/-- The prefill loop ends on one of its heads, on the last one unless it runs out of
pages. -/
theorem trackedPrefillLoop_reaches {grid : PrefillGrid} {s middle : DecodeState F Piece}
    {d md : D} (fuel : Nat) (logits : List (List F))
    (hmiddle : PrefillReaches request hooks grid s d middle md) :
    ∃ last, PrefillReaches request hooks grid s d last
        (request.trackedPrefillLoop hooks grid fuel middle md logits).1 ∧
      ∀ out, (request.trackedPrefillLoop hooks grid fuel middle md logits).2 = some out →
        out.1 = last ∧ request.prefillLoop grid fuel middle logits = some out := by
  induction fuel generalizing middle md logits with
  | zero => exact ⟨middle, hmiddle, fun out hout => by cases hout; exact ⟨rfl, rfl⟩⟩
  | succ fuel ih =>
      unfold trackedPrefillLoop prefillLoop
      split
      next hlt =>
        split
        next hpages => exact ih _ (.chunk hmiddle hlt)
        next => exact ⟨middle, hmiddle, fun out hout => by cases hout⟩
      next => exact ⟨middle, hmiddle, fun out hout => by cases hout; exact ⟨rfl, rfl⟩⟩

/-- A tracked prefill that reaches the decode loop is the prefill of the request, and
the drafter is where the last prefill head left it. -/
theorem trackedPrefill_some {grid : PrefillGrid} {lane : Lane} {rng : Nat}
    {hit : Option (PrefixHit request.prompt)} {d last : D} {s : DecodeState F Piece}
    (hprefill : request.trackedPrefill hooks grid lane rng hit d = (last, some s)) :
    request.prefill grid lane rng hit = some s ∧
      ∃ before, PrefillReaches request hooks grid (request.startState lane rng hit) d before last ∧
        before.past = request.prompt.length := by
  unfold trackedPrefill at hprefill
  unfold prefill
  split at hprefill
  next => cases hprefill
  next hprompt =>
    rw [if_neg hprompt]
    obtain ⟨before, hreach, hout⟩ := trackedPrefillLoop_reaches request.prompt.length []
      (.start : PrefillReaches request hooks grid (request.startState lane rng hit) d _ _)
    simp only [Prod.mk.injEq] at hprefill
    obtain ⟨hlast, hsome⟩ := hprefill
    obtain ⟨out, heq, hs⟩ := Option.map_eq_some_iff.mp hsome
    obtain ⟨hbefore, hloop⟩ := hout out heq
    refine ⟨?_, before, hlast ▸ hreach, ?_⟩
    · rw [hloop, ← hs]
      rfl
    · rw [← hbefore]
      exact (request.prefillLoop_prefilling grid (request.startState_prefilling lane rng hit)
        (Nat.le_add_left _ _) hloop).2

end Request

end Arcint.Decode
