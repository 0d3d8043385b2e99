import Mathlib.Data.List.DropRight
import Arcint.Decode.Rollback
import Arcint.Ngram.RowIds

/-! # The n-gram hash context of a lane

Every forward of a lane hashes its tokens in the context of the tokens before
them. The lane carries that context as a side effect of each feed and resets it
only at position 0. It therefore follows the committed sequence of a request
that starts cold and whose verify passes accept every draft; a prefix-cache hit
starts with the context of another request, and a rejected draft stays in it.
-/

namespace Arcint.Ngram

open Arcint.Core Foundation Decode

/-- The reasons `feed_ngram_ports` throws with. -/
inductive FeedError where
  | noContext (lane : Int) (past : Nat)
  | rowIds (error : RowIdsError)
  deriving DecidableEq, Repr

def FeedError.message : FeedError → String
  | .noContext lane past =>
      "ngram feed: lane " ++ toString lane ++ " at position " ++ toString past ++
        " with no hash context"
  | .rowIds error => error.message

/-- The fields of a lane that the n-gram feed reads and writes. -/
structure NgramLane where
  index : Int
  ngramCtx : List Int
  deriving DecidableEq, Repr

/-- The context of a forward: the boundary token at position 0, else what the
lane carries. -/
def contextAt (hash : HashParams) (lane : NgramLane) (past : Nat) : List Int :=
  if past = 0 then List.replicate hash.ctxLen hash.eosTokenId else lane.ngramCtx

/-- `feed_ngram_ports`: the row ids it feeds, and the lane it leaves. The tokens
are the ids last embedded for the lane. A reset at position 0 stands even when
hashing then throws. -/
def feed (hash : HashParams) (lane : NgramLane) (past : Nat) (tokens : List Int) :
    NgramLane × Except FeedError (List Int) :=
  if past ≠ 0 ∧ (lane.ngramCtx.length : Int) ≠ hash.ngramSize - 1 then
    (lane, .error (.noContext lane.index past))
  else
    let context := contextAt hash lane past
    match rowIds hash context tokens with
    | .error e => ({ lane with ngramCtx := context }, .error (.rowIds e))
    | .ok ids => ({ lane with ngramCtx := (context ++ tokens).rtake hash.ctxLen }, .ok ids)

/-- The feeds of a list of forwards, up to the first one that throws. -/
def feedAll (hash : HashParams) (lane : NgramLane) :
    List ForwardCall → NgramLane × List (ForwardCall × List Int)
  | [] => (lane, [])
  | call :: calls =>
      match feed hash lane call.past call.tokens with
      | (lane, .error _) => (lane, [])
      | (lane, .ok ids) =>
          let rest := feedAll hash lane calls
          (rest.1, (call, ids) :: rest.2)

/-- The context a forward should be hashed in: the last tokens of the committed
sequence before its position, padded on the left with the boundary token. -/
def committedContext (hash : HashParams) (call : ForwardCall) : List Int :=
  (List.replicate hash.ctxLen hash.eosTokenId ++ call.committed.take call.past).rtake hash.ctxLen

/-! ## Forwards that continue each other -/

/-- Each forward starts where the text absorbed so far ends, and that text is
what has been committed. -/
def Continues : List Token → List ForwardCall → Prop
  | _, [] => True
  | text, call :: calls =>
      call.past = text.length ∧ call.committed.take call.past = text ∧
        Continues (text ++ call.tokens) calls

/-- The text absorbed by a list of forwards. -/
def absorbedText (calls : List ForwardCall) : List Token :=
  calls.flatMap ForwardCall.tokens

theorem continues_concat {text : List Token} {calls : List ForwardCall} {call : ForwardCall}
    (hcalls : Continues text calls)
    (hpast : call.past = (text ++ absorbedText calls).length)
    (hcommitted : call.committed.take call.past = text ++ absorbedText calls) :
    Continues text (calls ++ [call]) := by
  induction calls generalizing text with
  | nil =>
      rw [absorbedText, List.flatMap_nil, List.append_nil] at hpast hcommitted
      exact ⟨hpast, hcommitted, trivial⟩
  | cons first rest ih =>
      obtain ⟨hfirst, htext, hrest⟩ := hcalls
      rw [absorbedText, List.flatMap_cons, ← List.append_assoc] at hpast hcommitted
      exact ⟨hfirst, htext, ih hrest hpast hcommitted⟩

theorem continues_take {text : List Token} {calls : List ForwardCall}
    (hcalls : Continues text calls) (n : Nat) : Continues text (calls.take n) := by
  induction calls generalizing text n with
  | nil =>
      rw [List.take_nil]
      exact trivial
  | cons first rest ih =>
      cases n with
      | zero => exact trivial
      | succ n => exact ⟨hcalls.1, hcalls.2.1, ih hcalls.2.2 n⟩

/-- The last `n` of a list only depend on the last `n` of its front. -/
theorem rtake_rtake_append {α : Type} (front back : List α) (n : Nat) :
    (front.rtake n ++ back).rtake n = (front ++ back).rtake n := by
  simp only [List.rtake, List.length_append, List.length_drop, List.drop_append]
  rw [List.drop_drop]
  congr 2
  · omega
  · omega

theorem feed_ok {hash : HashParams} {lane lane' : NgramLane} {past : Nat}
    {tokens ids : List Int} (hfeed : feed hash lane past tokens = (lane', .ok ids)) :
    rowIds hash (contextAt hash lane past) tokens = .ok ids ∧
      lane'.ngramCtx = (contextAt hash lane past ++ tokens).rtake hash.ctxLen := by
  unfold feed at hfeed
  split at hfeed
  next => cases hfeed
  next =>
    dsimp only at hfeed
    split at hfeed
    next => cases hfeed
    next hids =>
      cases hfeed
      exact ⟨hids, rfl⟩

/-- Forwards that continue each other are hashed in the committed context: the
lane's context is the end of the padded text before every one of them. -/
theorem feedAll_committedContext {hash : HashParams} {lane : NgramLane} {text : List Token}
    {calls : List ForwardCall} (hcalls : Continues text calls)
    (hctx : text ≠ [] → lane.ngramCtx =
      (List.replicate hash.ctxLen hash.eosTokenId ++ text).rtake hash.ctxLen)
    {fed : ForwardCall × List Int} (hfed : fed ∈ (feedAll hash lane calls).2) :
    rowIds hash (committedContext hash fed.1) fed.1.tokens = .ok fed.2 := by
  induction calls generalizing lane text with
  | nil => cases hfed
  | cons call rest ih =>
      obtain ⟨hpast, htext, hrest⟩ := hcalls
      have hcontext : contextAt hash lane call.past =
          (List.replicate hash.ctxLen hash.eosTokenId ++ text).rtake hash.ctxLen := by
        unfold contextAt
        split
        next hzero =>
          have hnil : text = [] := List.length_eq_zero_iff.mp (hpast.symm.trans hzero)
          subst hnil
          simp [List.rtake]
        next hpos =>
          apply hctx
          intro hnil
          subst hnil
          exact hpos hpast
      unfold feedAll at hfed
      split at hfed
      next => cases hfed
      next lane' ids hfeed =>
        obtain ⟨hids, hcarried⟩ := feed_ok hfeed
        rcases List.mem_cons.mp hfed with rfl | hlater
        · rw [committedContext, htext, ← hcontext]
          exact hids
        · refine ih hrest (fun _ => ?_) hlater
          rw [hcarried, hcontext, rtake_rtake_append, List.append_assoc]

/-! ## The forwards of a request -/

section Runs

variable {F Piece : Type} [FloatOps F] (request : Request F Piece)

/-- The forwards run by the end of a pass. -/
def passCalls : Pass (DecodeState F Piece) (Finished F Piece) → List ForwardCall
  | .again s => s.calls
  | .leave r => r.state.calls

/-- A loop head whose forwards continue each other up to the committed text. -/
structure InStep (s : DecodeState F Piece) : Prop where
  absorbed : request.Absorbed s
  continues : Continues [] s.calls
  text : absorbedText s.calls = request.committed s

/-- The pass from a loop head goes on although it did not accept every draft it
verified. -/
def DropsDrafts (s : DecodeState F Piece) : Prop :=
  ∃ drafts, request.Verifies s drafts ∧
    ((request.verifyRows s drafts).length < (s.next :: drafts).length ∨
      ((request.verifyAccept (request.commit s s.next).1 drafts).stop = none ∧
        (request.verifyAccept (request.commit s s.next).1 drafts).accepted < drafts.length))

/-- A speculative step runs one forward, whatever its exit. -/
theorem speculativeStep_calls (s : DecodeState F Piece) (drafts : List Token) :
    passCalls (request.speculativeStep s drafts) =
      s.calls ++ [⟨s.past, s.next :: drafts, request.committed s⟩] := by
  have hframe := (request.acceptDrafts_frame (request.verifyForward s drafts).2 s.past 0 drafts
    (request.verifyForward s drafts).1).2.2
  rcases Nat.lt_or_ge (request.verifyForward s drafts).2.length (s.next :: drafts).length with
    hshort | henough
  · have hstep : request.speculativeStep s drafts = _ := if_pos hshort
    rw [hstep]
    rfl
  · rw [request.speculativeStep_enough s henough]
    split
    next => exact hframe
    next => exact hframe

/-- A pass runs no forward, or one at the head's position. -/
theorem decodePass_calls (s : DecodeState F Piece) :
    passCalls (request.decodePass request.propose s) = s.calls ∨
      ∃ tokens, passCalls (request.decodePass request.propose s) =
        s.calls ++ [⟨s.past, tokens, request.committed s ++ [s.next]⟩] := by
  cases hgate : request.headGate s.next s.completionTokens s.past with
  | some reason =>
      rw [request.decodePass_gate _ hgate]
      exact .inl rfl
  | none =>
      by_cases hproceed : (request.commit s s.next).2 = .proceed
      · have hcommitted := request.committed_commit s s.next
        cases hpages : request.ensureBlocks (request.committed (request.commit s s.next).1) with
        | true =>
            have hreach : request.Reaches request.propose s
                (request.propose (request.commit s s.next).1) := ⟨hgate, hproceed, hpages, rfl⟩
            rw [request.decodePass_of_reaches hreach, ← hcommitted]
            split
            next => exact .inr ⟨[s.next], rfl⟩
            next => exact .inr ⟨_, speculativeStep_calls request _ _⟩
        | false =>
            have hleave : request.decodePass request.propose s =
                .leave ⟨(request.commit s s.next).1, .length⟩ := by
              simp only [Request.decodePass, hgate, hproceed, hpages, Bool.false_eq_true, if_false]
            rw [hleave]
            exact .inl rfl
      · rw [request.decodePass_stop _ hgate hproceed]
        exact .inl rfl

theorem decodePass_continues {s : DecodeState F Piece} (hs : InStep request s) :
    Continues [] (passCalls (request.decodePass request.propose s)) := by
  have hlength : s.past = (request.committed s).length := by
    rw [← hs.absorbed.kv, Lane.kvPrefix_length]
  obtain hsame | ⟨tokens, hnew⟩ := decodePass_calls request s
  · rw [hsame]
    exact hs.continues
  · rw [hnew]
    apply continues_concat hs.continues
    · rw [hs.text]
      exact hlength
    · rw [hs.text, List.nil_append]
      exact List.take_left' hlength.symm

/-- A pass that drops no draft leads from step to step. -/
theorem decodePass_inStep {s next : DecodeState F Piece} (hs : InStep request s)
    (hkeep : ¬ DropsDrafts request s)
    (hagain : request.decodePass request.propose s = .again next) : InStep request next := by
  have hcontinues := decodePass_continues request hs
  rw [hagain] at hcontinues
  have henough : ¬ request.ShortRows s := by
    rintro ⟨drafts, hverify, hshort⟩
    exact hkeep ⟨drafts, hverify, .inl hshort⟩
  refine ⟨request.decodePass_absorbed hs.absorbed henough hagain, hcontinues, ?_⟩
  obtain rfl | ⟨drafts, hverify, ⟨hshort, _⟩ | ⟨_, hstop, rfl⟩⟩ :=
    request.decodePass_again_cases hagain
  · show absorbedText (s.calls ++ [_]) = request.committed (request.commit s s.next).1
    rw [absorbedText, List.flatMap_append, request.committed_commit, ← hs.text]
    rfl
  · exact absurd ⟨drafts, hverify, hshort⟩ henough
  · -- Every draft was accepted, so the forward's tokens are the tokens committed.
    obtain ⟨n, hle, haccepted, hcommitted⟩ := request.acceptDrafts_committed _ _ _ _ _ hstop
    have hall : n = drafts.length := by
      by_contra hne
      refine hkeep ⟨drafts, hverify, .inr ⟨hstop, ?_⟩⟩
      rw [Request.verifyAccept, haccepted]
      omega
    have hcalls : (request.advance (request.commit s s.next).1 drafts).calls = s.calls ++
        [⟨s.past, s.next :: drafts, request.committed (request.commit s s.next).1⟩] :=
      (request.acceptDrafts_frame (request.verifyForward (request.commit s s.next).1 drafts).2
        s.past 0 drafts (request.verifyForward (request.commit s s.next).1 drafts).1).2.2
    have htext : request.committed (request.advance (request.commit s s.next).1 drafts) =
        request.committed s ++ (s.next :: drafts) := by
      rw [hall, List.take_length] at hcommitted
      refine hcommitted.trans ?_
      show request.committed (request.commit s s.next).1 ++ drafts = _
      rw [request.committed_commit, List.append_assoc]
      rfl
    rw [htext, ← hs.text, hcalls]
    simp [absorbedText]

/-! ## The forwards of the prefill -/

/-- During a cold prefill the forwards continue each other up to `past`. -/
structure PrefillInStep (s : DecodeState F Piece) : Prop where
  prefilling : request.Prefilling s
  continues : Continues [] s.calls
  text : absorbedText s.calls = request.prompt.take s.past

omit [FloatOps F] in
theorem prefillStep_inStep (grid : PrefillGrid) {s : DecodeState F Piece}
    (hs : PrefillInStep request s) (hlt : s.past < request.prompt.length) :
    PrefillInStep request (request.prefillStep grid s).1 := by
  have hcommitted : request.committed s = request.prompt := by
    simp [Request.committed, DecodeState.emittedTokens, hs.prefilling.emitted]
  have hlength : (request.prompt.take s.past).length = s.past :=
    List.length_take_of_le hs.prefilling.le
  refine ⟨request.prefillStep_prefilling grid hs.prefilling hlt, ?_, ?_⟩
  · apply continues_concat hs.continues
    · rw [List.nil_append, hs.text, hlength]
    · rw [List.nil_append, hs.text, hcommitted]
  · show absorbedText (s.calls ++ [_]) = request.prompt.take (s.past + _)
    rw [List.take_add, ← hs.text]
    simp [absorbedText]

omit [FloatOps F] in
theorem prefillLoop_inStep (grid : PrefillGrid) {fuel : Nat} {s : DecodeState F Piece}
    {logits : List (List F)} {out : DecodeState F Piece × List (List F)}
    (hs : PrefillInStep request s)
    (hout : request.prefillLoop grid fuel s logits = some out) :
    PrefillInStep request out.1 := by
  induction fuel generalizing s logits with
  | zero =>
      cases hout
      exact hs
  | succ fuel ih =>
      unfold Request.prefillLoop at hout
      split at hout
      next hlt =>
        split at hout
        next => exact ih (prefillStep_inStep request grid hs hlt) hout
        next => cases hout
      next =>
        cases hout
        exact hs

omit [FloatOps F] in
theorem prefillCalls_continues (grid : PrefillGrid) {fuel : Nat} {s : DecodeState F Piece}
    (hs : PrefillInStep request s) : Continues [] (request.prefillCalls grid fuel s) := by
  induction fuel generalizing s with
  | zero => exact hs.continues
  | succ fuel ih =>
      unfold Request.prefillCalls
      split
      next hlt =>
        split
        next => exact ih (prefillStep_inStep request grid hs hlt)
        next => exact hs.continues
      next => exact hs.continues

omit [FloatOps F] in
theorem startState_inStep (lane : Lane) (rng : Nat) :
    PrefillInStep request (request.startState lane rng none) :=
  ⟨request.startState_prefilling lane rng none, trivial, rfl⟩

theorem prefill_inStep {grid : PrefillGrid} {lane : Lane} {rng : Nat}
    {s : DecodeState F Piece} (hprefill : request.prefill grid lane rng none = some s) :
    InStep request s := by
  have habsorbed := (request.prefill_absorbed hprefill).1
  unfold Request.prefill at hprefill
  split at hprefill
  next => cases hprefill
  next =>
    obtain ⟨⟨before, logits⟩, hloop, rfl⟩ := Option.map_eq_some_iff.mp hprefill
    have hbefore := prefillLoop_inStep request grid (startState_inStep request lane rng) hloop
    have hpast := (request.prefillLoop_prefilling grid
      (request.startState_prefilling lane rng none) (Nat.le_add_left _ _) hloop).2
    have hemitted : before.emitted = [] := hbefore.prefilling.emitted
    refine ⟨habsorbed, hbefore.continues, hbefore.text.trans ?_⟩
    rw [hpast, List.take_length]
    simp [Request.committed, DecodeState.emittedTokens, hemitted]

/-- Along the decode loop of a run that drops no draft, every head is in step. -/
theorem head_inStep {s head : DecodeState F Piece} {passes n : Nat} (hs : InStep request s)
    (hkeep : ∀ m < passes, ∀ middle, request.decodeLoop.after m s = .again middle →
      ¬ DropsDrafts request middle)
    (hn : n ≤ passes) (hhead : request.decodeLoop.after n s = .again head) :
    InStep request head := by
  induction n generalizing head with
  | zero =>
      cases hhead
      exact hs
  | succ n ih =>
      obtain ⟨middle, hmiddle, hbody⟩ := Loop.exists_head_of_after_succ hhead
      exact decodePass_inStep request (ih (Nat.le_of_succ_le hn) hmiddle)
        (hkeep n hn middle hmiddle) hbody

end Runs

/-! ## Requests served on one lane -/

section Served

variable {F Piece : Type} [FloatOps F]

/-- A request as it was served: how it started, how many passes of the decode
loop it ran, and after how many forwards it was cut off by an exception, if
that came first. -/
structure Served (F Piece : Type) where
  request : Request F Piece
  grid : PrefillGrid
  lane : Lane
  rng : Nat
  hit : Option (PrefixHit request.prompt)
  passes : Nat
  forwards : Nat

namespace Served

/-- The forwards of a served request. -/
def calls (served : Served F Piece) : List ForwardCall :=
  (match served.request.prefill served.grid served.lane served.rng served.hit with
    | none => served.request.prefillCalls served.grid served.request.prompt.length
        (served.request.startState served.lane served.rng served.hit)
    | some s => passCalls (served.request.decodeLoop.after served.passes s)).take served.forwards

/-- The request started without a prefix-cache hit. -/
def Cold (served : Served F Piece) : Prop := served.hit = none

/-- No verify pass of the request went on without having accepted its drafts. -/
def KeepsDrafts (served : Served F Piece) : Prop :=
  ∀ s, served.request.prefill served.grid served.lane served.rng served.hit = some s →
    ∀ n < served.passes, ∀ head, served.request.decodeLoop.after n s = .again head →
      ¬ DropsDrafts served.request head

end Served

/-- The feeds of a sequence of requests served on one lane. -/
def serveAll (hash : HashParams) (lane : NgramLane) :
    List (Served F Piece) → List (List (ForwardCall × List Int))
  | [] => []
  | served :: rest =>
      let fed := feedAll hash lane served.calls
      fed.2 :: serveAll hash fed.1 rest

theorem Served.calls_continues {served : Served F Piece} (hcold : served.Cold)
    (hkeep : served.KeepsDrafts) : Continues [] served.calls := by
  obtain ⟨request, grid, lane, rng, hit, passes, forwards⟩ := served
  simp only [Served.Cold] at hcold
  subst hcold
  apply continues_take
  dsimp only
  split
  next => exact prefillCalls_continues request grid (startState_inStep request lane rng)
  next s hprefill =>
    have hs := prefill_inStep request hprefill
    cases hafter : request.decodeLoop.after passes s with
    | again head =>
        exact (head_inStep request hs (hkeep s hprefill) (Nat.le_refl _) hafter).continues
    | leave last =>
        obtain ⟨m, hm, head, hhead, hbody⟩ := Loop.exists_head_of_after_leave hafter
        have hstep := head_inStep request hs (hkeep s hprefill) hm.le hhead
        have hcontinues := decodePass_continues request hstep
        rw [← request.decodeLoop_body, hbody] at hcontinues
        exact hcontinues

/-- In every sequence of requests served on a lane, whatever it carried before,
a request that started cold and kept its drafts is fed the row ids of the
committed context at each of its forwards. -/
theorem serveAll_committedContext (hash : HashParams) (lane : NgramLane)
    (requests : List (Served F Piece)) {i : Nat} {served : Served F Piece}
    (hserved : requests[i]? = some served) (hcold : served.Cold) (hkeep : served.KeepsDrafts)
    {fed : List (ForwardCall × List Int)} (hfed : (serveAll hash lane requests)[i]? = some fed) :
    ∀ entry ∈ fed, rowIds hash (committedContext hash entry.1) entry.1.tokens = .ok entry.2 := by
  induction requests generalizing lane i with
  | nil => cases hserved
  | cons first rest ih =>
      cases i with
      | zero =>
          cases hserved
          cases hfed
          intro entry hentry
          exact feedAll_committedContext (Served.calls_continues hcold hkeep)
            (fun hne => absurd rfl hne) hentry
      | succ i => exact ih _ hserved hfed

end Served

/-! ## A rejected draft and a prefix-cache hit -/

/-- Bigrams, one head. -/
def bigramHash : HashParams where
  ngramSize := 2
  headsPerNgram := 1
  eosTokenId := 0
  layerMultipliers := [1, 3]
  ngramHeadsVocabSizes := [1000]
  ngramHeadsOffsets := [0]

/-- A greedy request on a graph that always prefers token 1, with a drafter that
always proposes the given tokens. -/
def onesRequest (prompt drafts : List Token) : Request Int Unit where
  prompt := prompt
  params := ⟨0, 1, 0, 1, 0, 0, -1, false⟩
  eosIds := []
  nCtx := 0
  draftsMax := 1
  decodeOne _ := ()
  onPiece _ := .proceed
  graph _ _ _ seq := seq.map fun _ => [0, 1]
  draw sampler _ := (0, sampler)
  dflashDraft _ := none
  mtpFeed _ := -1
  ngramDraft _ := drafts
  ensureBlocks _ := true
  dflash_le := noDflash_le
  mtpReady := false
  mtp_le := noMtp_le
  drafting := true

/-- A cold request whose drafter is always wrong. -/
def rejecting : Served Int Unit :=
  ⟨onesRequest [7] [5], ⟨0, 0, false⟩, ⟨fun _ => [], fun _ => 0⟩, 0, none, 2, 8⟩

/-- A request that continues from one cached page of 16 tokens. -/
def warm : Served Int Unit :=
  ⟨onesRequest (List.replicate 16 7 ++ [8]) [], ⟨0, 16, true⟩, ⟨fun _ => [], fun _ => 0⟩, 0,
    some ⟨16, by decide, by decide⟩, 0, 8⟩

theorem serveAll_stale_context :
    (∃ fed, (serveAll bigramHash ⟨0, []⟩ [rejecting, warm])[0]? = some fed ∧
        ∃ entry ∈ fed, rowIds bigramHash (committedContext bigramHash entry.1) entry.1.tokens ≠
          .ok entry.2) ∧
      ∃ fed, (serveAll bigramHash ⟨0, []⟩ [rejecting, warm])[1]? = some fed ∧
        ∃ entry ∈ fed, rowIds bigramHash (committedContext bigramHash entry.1) entry.1.tokens ≠
          .ok entry.2 := by
  refine ⟨⟨_, rfl, (⟨2, [1, 5], [7, 1, 1]⟩, [14, 6]), ?_, ?_⟩, _, rfl,
    (⟨16, [8], List.replicate 16 7 ++ [8]⟩, [7]), ?_, ?_⟩
  · decide
  · decide
  · decide
  · decide

/-- A cold request whose drafter is right. -/
def agreeing : Served Int Unit :=
  ⟨onesRequest [7] [1], ⟨0, 0, false⟩, ⟨fun _ => [], fun _ => 0⟩, 0, none, 1, 8⟩

theorem agreeing_keepsDrafts : agreeing.KeepsDrafts := by
  intro s hs n hn head hhead
  obtain rfl : n = 0 := Nat.lt_one_iff.mp hn
  cases hs
  cases hhead
  rintro ⟨drafts, ⟨hreach, _⟩, hdropped⟩
  obtain rfl : [1] = drafts := hreach.proposed
  rcases hdropped with hshort | ⟨_, hrejected⟩
  · exact absurd hshort (by decide)
  · exact absurd hrejected (by decide)

theorem serveAll_committedContext_agreeing :
    ∃ fed, (serveAll bigramHash ⟨0, []⟩ [rejecting, agreeing])[1]? = some fed ∧
      fed.length = 2 ∧
      ∀ entry ∈ fed, rowIds bigramHash (committedContext bigramHash entry.1) entry.1.tokens =
        .ok entry.2 :=
  ⟨_, rfl, rfl, serveAll_committedContext bigramHash ⟨0, []⟩ [rejecting, agreeing]
    (i := 1) rfl rfl agreeing_keepsDrafts rfl⟩

end Arcint.Ngram
