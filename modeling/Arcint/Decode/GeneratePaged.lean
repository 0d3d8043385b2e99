import Arcint.Foundation.Loop
import Arcint.Decode.Lane

/-! # The decode loop of `generate_paged`

One pass commits a token, proposes drafts, and either runs a plain one-token
forward or verifies the drafts in one checkpointing forward, accepts a prefix
of them and promotes the checkpoint row of the last accepted one. Everything
the loop reads from outside (the graph's logits, the drafters, the client's
answers, page allocation) is a function of an arbitrary history, so a theorem
over all of them covers every run.
-/

namespace Arcint.Decode

open Arcint.Core Foundation

/-- The client's answer to a piece. -/
inductive Control where
  | proceed
  | stop
  | cancel
  deriving DecidableEq, Repr

inductive FinishReason where
  | stop
  | length
  | abort
  deriving DecidableEq, Repr

/-- One call of `paged_forward`: its position, its tokens, and the tokens of the
request committed so far (the prompt and everything passed to `on_piece`). -/
structure ForwardCall where
  past : Nat
  tokens : List Token
  committed : List Token
  deriving DecidableEq, Repr

/-- A request and the world it is decoded in. `graph i la kv seq` is the logits
tensor of the `i`-th forward of the request, over `seq`, from a recurrent state
that has absorbed `la` and a KV cache that holds `kv`: one row per entry, in any
number. The drafters and `ensure_blocks` see the history; `mtp_feed` answers a
negative token for no draft. -/
structure Request (F Piece : Type) where
  prompt : List Token
  params : SamplerParams F
  eosIds : List Token
  nCtx : Int
  draftsMax : Nat
  decodeOne : Token → Piece
  onPiece : List (Piece × Token) → Control
  graph : Nat → List Token → List Token → List Token → List (List F)
  draw : Sampler F → List F → Token × Sampler F
  dflashDraft : List Token → Option (List Token)
  mtpFeed : List Token → Token
  ngramDraft : List Token → List Token
  ensureBlocks : List Token → Bool
  /-- DFlash proposes one token per block position after the anchor, and
  `drafts_max_` is at least `dflash_block_ - 1`. -/
  dflash_le : ∀ history drafts, dflashDraft history = some drafts → drafts.length ≤ draftsMax
  /-- A request only starts with an MTP head when `drafts_max_` makes room for
  its one draft. -/
  mtpReady : Bool
  mtp_le : mtpReady = true → 1 ≤ draftsMax
  drafting : Bool

/-- Without DFlash and without an MTP head, one draft is room enough. -/
theorem noDflash_le : ∀ _ drafts : List Token, none = some drafts → drafts.length ≤ 1 := by simp

theorem noMtp_le : false = true → 1 ≤ 1 := by simp

/-- The locals of `generate_paged` at the head of its decode loop. -/
structure DecodeState (F Piece : Type) where
  next : Token
  past : Nat
  committedRow : Nat
  lane : Lane
  sampler : Sampler F
  completionTokens : Nat
  emitted : List (Piece × Token)
  drafting : Bool
  mtpReady : Bool
  calls : List ForwardCall

/-- What the request ends with. -/
structure Finished (F Piece : Type) where
  state : DecodeState F Piece
  reason : FinishReason

variable {F Piece : Type} [FloatOps F]

/-- The tokens passed to `on_piece` so far. -/
def DecodeState.emittedTokens (s : DecodeState F Piece) : List Token :=
  s.emitted.map Prod.snd

namespace Request

variable (request : Request F Piece)

/-- The committed sequence: the prompt and every token passed to `on_piece`. -/
def committed (s : DecodeState F Piece) : List Token :=
  request.prompt ++ s.emittedTokens

def isEos (id : Token) : Bool :=
  !request.params.ignoreEos && request.eosIds.contains id

/-- The gates of the loop head, in their order: end of sequence, the token
budget, the context limit. -/
def headGate (tok : Token) (completionTokens past : Nat) : Option FinishReason :=
  if request.isEos tok then some .stop
  else if 0 ≤ request.params.maxTokens ∧ request.params.maxTokens ≤ completionTokens then
    some .length
  else if 0 < request.nCtx ∧ request.nCtx ≤ (past : Int) + 1 then some .length
  else none

/-- The second copy of the gates, for draft `i` of a verify pass that started
at `past`. -/
def acceptGate (tok : Token) (completionTokens past i : Nat) : Option FinishReason :=
  if request.isEos tok then some .stop
  else if 0 ≤ request.params.maxTokens ∧ request.params.maxTokens ≤ completionTokens then
    some .length
  else if 0 < request.nCtx ∧ request.nCtx ≤ ((past + i : Nat) : Int) + 2 then some .length
  else none

/-- `commit`: count the token, hand its piece to the client, and let the sampler
observe it. -/
def commit (s : DecodeState F Piece) (tok : Token) : DecodeState F Piece × Control :=
  let emitted := s.emitted ++ [(request.decodeOne tok, tok)]
  ({ s with
      completionTokens := s.completionTokens + 1
      emitted := emitted
      sampler := s.sampler.observe tok },
    request.onPiece emitted)

/-- The reason a request ends with when `on_piece` did not answer `Continue`. -/
def stopReason : Control → FinishReason
  | .cancel => .abort
  | _ => .stop

/-- A row outside the tensor is a plumbing bug; `-1` is no token id. -/
def pickRow (sampler : Sampler F) (logits : List (List F)) (row : Nat) : Token × Sampler F :=
  match logits[row]? with
  | none => (-1, sampler)
  | some logitRow => sampler.sample request.draw logitRow

/-- The last row of the tensor. On an empty tensor the row index underflows and
is out of range. -/
def pick (sampler : Sampler F) (logits : List (List F)) : Token × Sampler F :=
  match logits.length with
  | 0 => (-1, sampler)
  | rows + 1 => request.pickRow sampler logits rows

/-- The propose phase: DFlash when it is active on the lane, else the MTP head,
else the n-gram drafter cut to `drafts_max_`. Only greedy requests draft. -/
def propose (s : DecodeState F Piece) : List Token :=
  let history := request.committed s
  if request.params.greedy then
    match request.dflashDraft history with
    | some drafts => drafts
    | none =>
        if s.mtpReady then
          let d := request.mtpFeed history
          if 0 ≤ d then [d] else []
        else if s.drafting then (request.ngramDraft history).take request.draftsMax
        else []
  else []

/-- Run one forward: the device state it leaves and the logits it returns. -/
def forward (s : DecodeState F Piece) (tokens : List Token) (laRows : List Nat)
    (interval : Nat) : DecodeState F Piece × List (List F) :=
  ({ s with
      lane := s.lane.pagedForward tokens s.past laRows interval
      calls := s.calls ++ [⟨s.past, tokens, request.committed s⟩] },
    request.graph s.calls.length (s.lane.laRows s.committedRow) (s.lane.kvPrefix s.past) tokens)

/-- What the accept loop leaves behind. -/
structure Accepted (F Piece : Type) where
  state : DecodeState F Piece
  accepted : Nat
  stop : Option FinishReason

/-- The accept loop from draft `i` on: a draft is accepted when it is the token
the sampler picks from its row, and then passes the same gates and the same
commit as a token of the loop head. -/
def acceptDrafts (logits : List (List F)) (past : Nat) :
    Nat → List Token → DecodeState F Piece → Accepted F Piece
  | i, [], s => ⟨s, i, none⟩
  | i, draft :: drafts, s =>
      let want := request.pickRow s.sampler logits i
      let s := { s with sampler := want.2 }
      if want.1 ≠ draft then ⟨s, i, none⟩
      else
        match request.acceptGate draft s.completionTokens past i with
        | some reason => ⟨s, i + 1, some reason⟩
        | none =>
            let committed := request.commit s draft
            match committed.2 with
            | .proceed => acceptDrafts logits past (i + 1) drafts committed.1
            | control => ⟨committed.1, i + 1, some (stopReason control)⟩

/-- The plain decode step: one token, in place on the committed row. -/
def plainStep (s : DecodeState F Piece) : DecodeState F Piece :=
  let out := request.forward s [s.next] [s.committedRow] 0
  let picked := request.pick out.1.sampler out.2
  { out.1 with past := s.past + 1, next := picked.1, sampler := picked.2 }

/-- The speculative step: verify `next` and the drafts in one forward with a
checkpoint after each token, accept, and promote a checkpoint. -/
def speculativeStep (s : DecodeState F Piece) (drafts : List Token) :
    Pass (DecodeState F Piece) (Finished F Piece) :=
  let seq := s.next :: drafts
  let laRows := laRowsFor s.committedRow seq.length
  let out := request.forward s seq laRows 1
  if out.2.length < seq.length then
    -- The graph returned fewer rows than tokens: speculation is switched off,
    -- and the last checkpoint of the pass is taken as the committed state.
    let picked := request.pick out.1.sampler out.2
    .again { out.1 with
      drafting := false
      mtpReady := false
      committedRow := laRows.getLastD 0
      past := s.past + seq.length
      next := picked.1
      sampler := picked.2 }
  else
    let result := request.acceptDrafts out.2 s.past 0 drafts out.1
    let promoted := { result.state with committedRow := (laRows[1 + result.accepted]?).getD 0 }
    match result.stop with
    | some reason => .leave ⟨promoted, reason⟩
    | none =>
        let picked := request.pickRow promoted.sampler out.2 result.accepted
        .again { promoted with
          past := s.past + 1 + result.accepted
          next := picked.1
          sampler := picked.2 }

/-- One pass of the decode loop with a given propose phase. -/
def decodePass (proposal : DecodeState F Piece → List Token) (s : DecodeState F Piece) :
    Pass (DecodeState F Piece) (Finished F Piece) :=
  match request.headGate s.next s.completionTokens s.past with
  | some reason => .leave ⟨s, reason⟩
  | none =>
      let committed := request.commit s s.next
      match committed.2 with
      | .proceed =>
          let s := committed.1
          let drafts := proposal s
          if request.ensureBlocks (request.committed s) then
            if drafts.isEmpty then .again (request.plainStep s)
            else request.speculativeStep s drafts
          else .leave ⟨s, .length⟩
      | control => .leave ⟨committed.1, stopReason control⟩

/-- The decode loop of `generate_paged`. -/
def decodeLoop : Loop (DecodeState F Piece) (Finished F Piece) :=
  ⟨request.decodePass request.propose⟩

theorem decodeLoop_body (s : DecodeState F Piece) :
    request.decodeLoop.body s = request.decodePass request.propose s := rfl

/-- The same loop when nothing is ever drafted. -/
def plainLoop : Loop (DecodeState F Piece) (Finished F Piece) :=
  ⟨request.decodePass fun _ => []⟩

/-- What the client and the caller see of a request: the pieces and tokens in
order, and at the end the token count and the finish reason. -/
def clientView : Loop.View (DecodeState F Piece) (Finished F Piece)
    (Piece × Token) (Nat × FinishReason) where
  heads := DecodeState.emitted
  final r := r.state.emitted
  result r := (r.state.completionTokens, r.reason)

end Request

end Arcint.Decode
