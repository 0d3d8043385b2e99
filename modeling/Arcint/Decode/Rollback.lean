import Arcint.Decode.Prefill

/-! # Decode state and emitted text

At a loop head the committed checkpoint row and the KV below `past` should have
absorbed the prompt and the tokens handed to the client, and nothing else. A
verify pass keeps that by promoting the checkpoint of the last accepted token.
The branch for a graph that returns too few rows does not: it promotes the
checkpoint of the whole pass, whose drafts nobody accepted.
-/

namespace Arcint.Decode

open Arcint.Core Foundation

namespace Request

variable {F Piece : Type} [FloatOps F] (request : Request F Piece)

/-- The decode state equals the emitted text. -/
structure Absorbed (s : DecodeState F Piece) : Prop where
  past : s.past = request.prompt.length + s.emitted.length
  row : s.lane.laRows s.committedRow = request.committed s
  kv : s.lane.kvPrefix s.past = request.committed s

/-- The bookkeeping that bounds the rows of a verify pass. -/
structure Provisioned (s : DecodeState F Piece) : Prop where
  row_lt : s.committedRow < request.draftsMax + 3
  mtp : s.mtpReady = true → request.mtpReady = true

/-- The pass from a loop head gets past its gates, its commit and the page
allocation, with these drafts proposed. -/
structure Reaches (proposal : DecodeState F Piece → List Token) (s : DecodeState F Piece)
    (drafts : List Token) : Prop where
  gate : request.headGate s.next s.completionTokens s.past = none
  proceed : (request.commit s s.next).2 = .proceed
  pages : request.ensureBlocks (request.committed (request.commit s s.next).1) = true
  proposed : proposal (request.commit s s.next).1 = drafts

/-- The pass from a loop head verifies these drafts. -/
def Verifies (s : DecodeState F Piece) (drafts : List Token) : Prop :=
  request.Reaches request.propose s drafts ∧ drafts ≠ []

/-- The logits of the verify forward from a loop head. -/
def verifyRows (s : DecodeState F Piece) (drafts : List Token) : List (List F) :=
  request.graph s.calls.length (s.lane.laRows s.committedRow) (s.lane.kvPrefix s.past)
    (s.next :: drafts)

/-- The pass from a loop head verifies drafts and gets fewer rows than tokens. -/
def ShortRows (s : DecodeState F Piece) : Prop :=
  ∃ drafts, request.Verifies s drafts ∧
    (request.verifyRows s drafts).length < (s.next :: drafts).length

/-- The rows of every verify pass from a loop head: one more than its tokens,
distinct, and all below `rows_per_lane_ = drafts_max_ + 3`. -/
def OwnRows (s : DecodeState F Piece) : Prop :=
  ∀ drafts, request.Verifies s drafts →
    (laRowsFor s.committedRow (s.next :: drafts).length).length =
        (s.next :: drafts).length + 1 ∧
      (laRowsFor s.committedRow (s.next :: drafts).length).Nodup ∧
      ∀ row ∈ laRowsFor s.committedRow (s.next :: drafts).length, row < request.draftsMax + 3

/-! ## What one pass can do -/

omit [FloatOps F] in
@[simp] theorem commit_lane (s : DecodeState F Piece) (tok : Token) :
    (request.commit s tok).1.lane = s.lane := rfl

omit [FloatOps F] in
@[simp] theorem committed_commit (s : DecodeState F Piece) (tok : Token) :
    request.committed (request.commit s tok).1 = request.committed s ++ [tok] := by
  simp [committed, commit, DecodeState.emittedTokens]

theorem decodePass_gate (proposal : DecodeState F Piece → List Token) {s : DecodeState F Piece}
    {reason : FinishReason}
    (hgate : request.headGate s.next s.completionTokens s.past = some reason) :
    request.decodePass proposal s = .leave ⟨s, reason⟩ := by
  simp only [decodePass, hgate]

theorem decodePass_stop (proposal : DecodeState F Piece → List Token) {s : DecodeState F Piece}
    (hgate : request.headGate s.next s.completionTokens s.past = none)
    (hstop : (request.commit s s.next).2 ≠ .proceed) :
    request.decodePass proposal s =
      .leave ⟨(request.commit s s.next).1, stopReason (request.commit s s.next).2⟩ := by
  simp only [decodePass, hgate]

/-- A pass that reaches its forward takes the plain or the speculative step. -/
theorem decodePass_of_reaches {proposal : DecodeState F Piece → List Token}
    {s : DecodeState F Piece} {drafts : List Token} (hreach : request.Reaches proposal s drafts) :
    request.decodePass proposal s =
      if drafts.isEmpty then .again (request.plainStep (request.commit s s.next).1)
      else request.speculativeStep (request.commit s s.next).1 drafts := by
  unfold decodePass
  simp only [hreach.gate, hreach.proceed, hreach.pages, hreach.proposed, if_true]

/-- A pass that goes round again reached its forward. -/
theorem reaches_of_decodePass_again {proposal : DecodeState F Piece → List Token}
    {s next : DecodeState F Piece} (hagain : request.decodePass proposal s = .again next) :
    request.Reaches proposal s (proposal (request.commit s s.next).1) := by
  unfold decodePass at hagain
  split at hagain
  next => cases hagain
  next hgate =>
    dsimp only at hagain
    split at hagain
    next hproceed =>
      split at hagain
      next hpages => exact ⟨hgate, hproceed, hpages, rfl⟩
      next => cases hagain
    next => cases hagain

/-! ## The accept loop, one draft at a time -/

/-- The state after a pick, whose token has not been used yet. -/
def afterPick (s : DecodeState F Piece) (logits : List (List F)) (i : Nat) :
    DecodeState F Piece :=
  { s with sampler := (request.pickRow s.sampler logits i).2 }

section AcceptLoop

variable {request} {logits : List (List F)} {past i : Nat} {draft : Token} {drafts : List Token}
  {s : DecodeState F Piece}

theorem acceptDrafts_reject (hreject : (request.pickRow s.sampler logits i).1 ≠ draft) :
    request.acceptDrafts logits past i (draft :: drafts) s =
      ⟨request.afterPick s logits i, i, none⟩ := by
  simp only [acceptDrafts, if_pos hreject, afterPick]

theorem acceptDrafts_gate {reason : FinishReason}
    (haccept : (request.pickRow s.sampler logits i).1 = draft)
    (hgate : request.acceptGate draft s.completionTokens past i = some reason) :
    request.acceptDrafts logits past i (draft :: drafts) s =
      ⟨request.afterPick s logits i, i + 1, some reason⟩ := by
  simp only [acceptDrafts, haccept, hgate, ne_eq, not_true_eq_false, if_false, afterPick]

theorem acceptDrafts_proceed (haccept : (request.pickRow s.sampler logits i).1 = draft)
    (hgate : request.acceptGate draft s.completionTokens past i = none)
    (hproceed : (request.commit (request.afterPick s logits i) draft).2 = .proceed) :
    request.acceptDrafts logits past i (draft :: drafts) s =
      request.acceptDrafts logits past (i + 1) drafts
        (request.commit (request.afterPick s logits i) draft).1 := by
  simp only [afterPick] at hproceed
  simp only [acceptDrafts, haccept, hgate, hproceed, ne_eq, not_true_eq_false, if_false, afterPick]

theorem acceptDrafts_stop {control : Control}
    (haccept : (request.pickRow s.sampler logits i).1 = draft)
    (hgate : request.acceptGate draft s.completionTokens past i = none)
    (hcontrol : (request.commit (request.afterPick s logits i) draft).2 = control)
    (hstop : control ≠ .proceed) :
    request.acceptDrafts logits past i (draft :: drafts) s =
      ⟨(request.commit (request.afterPick s logits i) draft).1, i + 1,
        some (stopReason control)⟩ := by
  simp only [afterPick] at hcontrol
  simp only [acceptDrafts, haccept, hgate, hcontrol, ne_eq, not_true_eq_false, if_false, afterPick]

end AcceptLoop

/-- The four ways one draft can go: rejected, accepted and gated, accepted and
refused by the client, or accepted and committed. -/
theorem acceptDrafts_cases (logits : List (List F)) (past i : Nat) (draft : Token)
    (s : DecodeState F Piece) :
    (request.pickRow s.sampler logits i).1 ≠ draft ∨
      ((request.pickRow s.sampler logits i).1 = draft ∧
        ((∃ reason, request.acceptGate draft s.completionTokens past i = some reason) ∨
          (request.acceptGate draft s.completionTokens past i = none ∧
            (request.commit (request.afterPick s logits i) draft).2 ≠ .proceed) ∨
          (request.acceptGate draft s.completionTokens past i = none ∧
            (request.commit (request.afterPick s logits i) draft).2 = .proceed))) := by
  by_cases haccept : (request.pickRow s.sampler logits i).1 = draft
  · refine .inr ⟨haccept, ?_⟩
    cases hgate : request.acceptGate draft s.completionTokens past i with
    | some reason => exact .inl ⟨reason, rfl⟩
    | none =>
        by_cases hproceed : (request.commit (request.afterPick s logits i) draft).2 = .proceed
        · exact .inr (.inr ⟨rfl, hproceed⟩)
        · exact .inr (.inl ⟨rfl, hproceed⟩)
  · exact .inl haccept

/-- The accept loop runs no forward and touches none of the drafters' switches. -/
theorem acceptDrafts_frame (logits : List (List F)) (past i : Nat) (drafts : List Token)
    (s : DecodeState F Piece) :
    (request.acceptDrafts logits past i drafts s).state.lane = s.lane ∧
      (request.acceptDrafts logits past i drafts s).state.mtpReady = s.mtpReady ∧
      (request.acceptDrafts logits past i drafts s).state.calls = s.calls := by
  induction drafts generalizing i s with
  | nil => exact ⟨rfl, rfl, rfl⟩
  | cons draft drafts ih =>
      obtain hreject | ⟨haccept, ⟨reason, hgate⟩ | ⟨hgate, hstop⟩ | ⟨hgate, hproceed⟩⟩ :=
        request.acceptDrafts_cases logits past i draft s
      · rw [acceptDrafts_reject hreject]
        exact ⟨rfl, rfl, rfl⟩
      · rw [acceptDrafts_gate haccept hgate]
        exact ⟨rfl, rfl, rfl⟩
      · rw [acceptDrafts_stop haccept hgate rfl hstop]
        exact ⟨rfl, rfl, rfl⟩
      · rw [acceptDrafts_proceed haccept hgate hproceed]
        exact ih _ _

/-- An accept loop that does not stop the request has committed the drafts it
counts, in order. -/
theorem acceptDrafts_committed (logits : List (List F)) (past i : Nat) (drafts : List Token)
    (s : DecodeState F Piece)
    (hnone : (request.acceptDrafts logits past i drafts s).stop = none) :
    ∃ n ≤ drafts.length, (request.acceptDrafts logits past i drafts s).accepted = i + n ∧
      request.committed (request.acceptDrafts logits past i drafts s).state =
        request.committed s ++ drafts.take n := by
  induction drafts generalizing i s with
  | nil => exact ⟨0, Nat.le_refl 0, rfl, (List.append_nil _).symm⟩
  | cons draft drafts ih =>
      obtain hreject | ⟨haccept, ⟨reason, hgate⟩ | ⟨hgate, hstop⟩ | ⟨hgate, hproceed⟩⟩ :=
        request.acceptDrafts_cases logits past i draft s
      · rw [acceptDrafts_reject hreject]
        exact ⟨0, Nat.zero_le _, rfl, (List.append_nil _).symm⟩
      · rw [acceptDrafts_gate haccept hgate] at hnone
        cases hnone
      · rw [acceptDrafts_stop haccept hgate rfl hstop] at hnone
        cases hnone
      · rw [acceptDrafts_proceed haccept hgate hproceed] at hnone ⊢
        obtain ⟨n, hle, haccepted, hcommitted⟩ := ih _ _ hnone
        refine ⟨n + 1, Nat.succ_le_succ hle, ?_, ?_⟩
        · rw [haccepted]
          omega
        · rw [hcommitted, committed_commit, List.append_assoc]
          rfl

/-! ## One pass at a loop head -/

omit [FloatOps F] in
/-- The count of `past` is the length of what the KV holds. -/
theorem Absorbed.of_row_kv {s : DecodeState F Piece}
    (hrow : s.lane.laRows s.committedRow = request.committed s)
    (hkv : s.lane.kvPrefix s.past = request.committed s) : request.Absorbed s := by
  refine ⟨?_, hrow, hkv⟩
  have hlength := congrArg List.length hkv
  simpa [committed, DecodeState.emittedTokens] using hlength

/-- A plain pass from a loop head that has absorbed its text. -/
theorem plainStep_absorbed {s : DecodeState F Piece} (hs : request.Absorbed s) :
    request.Absorbed (request.plainStep (request.commit s s.next).1) := by
  have hcommitted : request.committed (request.plainStep (request.commit s s.next).1) =
      request.committed s ++ [s.next] :=
    request.committed_commit s s.next
  apply Absorbed.of_row_kv
  · rw [hcommitted, ← hs.row]
    exact Function.update_self _ _ _
  · rw [hcommitted, ← hs.kv]
    exact Lane.kvPrefix_writeKv s.lane s.past [s.next] (Nat.le_refl 1) _

/-! ### The speculative step in its parts -/

/-- The verify forward. -/
def verifyForward (s : DecodeState F Piece) (drafts : List Token) :
    DecodeState F Piece × List (List F) :=
  request.forward s (s.next :: drafts) (laRowsFor s.committedRow (s.next :: drafts).length) 1

/-- The accept loop over its rows. -/
def verifyAccept (s : DecodeState F Piece) (drafts : List Token) : Accepted F Piece :=
  request.acceptDrafts (request.verifyForward s drafts).2 s.past 0 drafts
    (request.verifyForward s drafts).1

/-- The state with the checkpoint of the last accepted token promoted. -/
def promote (s : DecodeState F Piece) (drafts : List Token) : DecodeState F Piece :=
  { (request.verifyAccept s drafts).state with
    committedRow := ((laRowsFor s.committedRow (s.next :: drafts).length)[1 +
      (request.verifyAccept s drafts).accepted]?).getD 0 }

/-- The next loop head after a promotion. -/
def advance (s : DecodeState F Piece) (drafts : List Token) : DecodeState F Piece :=
  let picked := request.pickRow (request.promote s drafts).sampler
    (request.verifyForward s drafts).2 (request.verifyAccept s drafts).accepted
  { request.promote s drafts with
    past := s.past + 1 + (request.verifyAccept s drafts).accepted
    next := picked.1
    sampler := picked.2 }

theorem speculativeStep_enough (s : DecodeState F Piece) {drafts : List Token}
    (hrows : (s.next :: drafts).length ≤ (request.verifyForward s drafts).2.length) :
    request.speculativeStep s drafts =
      match (request.verifyAccept s drafts).stop with
      | some reason => .leave ⟨request.promote s drafts, reason⟩
      | none => .again (request.advance s drafts) := by
  exact if_neg (Nat.not_lt.mpr hrows)

/-- With too few rows `past` moves over every draft. -/
theorem speculativeStep_short (s : DecodeState F Piece) {drafts : List Token}
    (hrows : (request.verifyForward s drafts).2.length < (s.next :: drafts).length) :
    ∃ next, request.speculativeStep s drafts = .again next ∧
      next.past = s.past + (s.next :: drafts).length ∧ next.emitted = s.emitted ∧
      next.committedRow ∈ laRowsFor s.committedRow (s.next :: drafts).length ∧
      next.mtpReady = false := by
  exact ⟨_, if_pos hrows, rfl, rfl, laRowsFor_getLastD_mem _ _, rfl⟩

/-- The text of a promoted head: `next` and the accepted drafts behind the text before. -/
theorem committed_advance {s : DecodeState F Piece} {drafts : List Token}
    (hstop : (request.verifyAccept (request.commit s s.next).1 drafts).stop = none) :
    ∃ n ≤ drafts.length,
      (request.verifyAccept (request.commit s s.next).1 drafts).accepted = n ∧
      request.committed (request.advance (request.commit s s.next).1 drafts) =
        request.committed s ++ (s.next :: drafts).take (n + 1) := by
  obtain ⟨n, hle, haccepted, hcommitted⟩ := request.acceptDrafts_committed _ _ _ _ _ hstop
  rw [Nat.zero_add] at haccepted
  refine ⟨n, hle, haccepted, ?_⟩
  calc request.committed (request.advance (request.commit s s.next).1 drafts)
      = request.committed (request.commit s s.next).1 ++ drafts.take n := hcommitted
    _ = request.committed s ++ (s.next :: drafts).take (n + 1) := by
        rw [committed_commit, List.append_assoc]
        rfl

/-- A promoted head has absorbed its text: the promoted row is the checkpoint
after `next` and the accepted drafts, which are the tokens just committed. -/
theorem advance_absorbed {s : DecodeState F Piece} {drafts : List Token}
    (hs : request.Absorbed s)
    (hstop : (request.verifyAccept (request.commit s s.next).1 drafts).stop = none) :
    request.Absorbed (request.advance (request.commit s s.next).1 drafts) := by
  obtain ⟨n, hle, haccepted, hafter⟩ := request.committed_advance hstop
  have hn : n < (s.next :: drafts).length := Nat.lt_succ_of_le hle
  have hlane : (request.advance (request.commit s s.next).1 drafts).lane =
      s.lane.pagedForward (s.next :: drafts) s.past
        (laRowsFor s.committedRow (s.next :: drafts).length) 1 :=
    (request.acceptDrafts_frame _ _ _ _ _).1
  have hpast : (request.advance (request.commit s s.next).1 drafts).past =
      s.past + (n + 1) := by
    show s.past + 1 + (request.verifyAccept (request.commit s s.next).1 drafts).accepted = _
    rw [haccepted]
    omega
  have hrow : (request.advance (request.commit s s.next).1 drafts).committedRow =
      ((laRowsFor s.committedRow (s.next :: drafts).length)[1 + n]?).getD 0 := by
    rw [← haccepted]
    rfl
  apply Absorbed.of_row_kv
  · rw [hafter, hlane, hrow, Lane.pagedForward_checkpoint _ _ _ _ hn, hs.row]
  · rw [hafter, hlane, hpast, ← hs.kv]
    exact Lane.kvPrefix_writeKv s.lane s.past (s.next :: drafts) hn _

/-- Every proposal fits the rows of the lane. -/
theorem propose_length_le {s : DecodeState F Piece} (hs : request.Provisioned s) :
    (request.propose s).length ≤ request.draftsMax := by
  by_cases hgreedy : request.params.greedy = true
  · cases hdflash : request.dflashDraft (request.committed s) with
    | some drafts =>
        simp only [propose, hgreedy, hdflash, if_true]
        exact request.dflash_le _ _ hdflash
    | none =>
        simp only [propose, hgreedy, hdflash, if_true]
        split
        next hready =>
          have hroom := request.mtp_le (hs.mtp hready)
          split
          next => exact hroom
          next => exact Nat.zero_le _
        next =>
          split
          next => exact List.length_take_le _ _
          next => exact Nat.zero_le _
  · simp [propose, hgreedy]

omit [FloatOps F] in
theorem commit_provisioned {s : DecodeState F Piece} (hs : request.Provisioned s) (tok : Token) :
    request.Provisioned (request.commit s tok).1 :=
  ⟨hs.row_lt, hs.mtp⟩

theorem ownRows_of_provisioned {s : DecodeState F Piece} (hs : request.Provisioned s) :
    request.OwnRows s := by
  intro drafts hverify
  refine ⟨laRowsFor_length _ _, laRowsFor_nodup _ _, fun row hrow => ?_⟩
  refine laRowsFor_lt hs.row_lt (Nat.succ_le_succ ?_) hrow
  rw [← hverify.1.proposed]
  exact request.propose_length_le (request.commit_provisioned hs s.next)

/-- A pass that goes round again: a plain step, a verify pass with too few rows,
or a verify pass that promoted a checkpoint. -/
theorem decodePass_again_cases {s next : DecodeState F Piece}
    (hagain : request.decodePass request.propose s = .again next) :
    next = request.plainStep (request.commit s s.next).1 ∨
      ∃ drafts, request.Verifies s drafts ∧
        (((request.verifyRows s drafts).length < (s.next :: drafts).length ∧
            request.speculativeStep (request.commit s s.next).1 drafts = .again next) ∨
          ((s.next :: drafts).length ≤ (request.verifyRows s drafts).length ∧
            (request.verifyAccept (request.commit s s.next).1 drafts).stop = none ∧
            next = request.advance (request.commit s s.next).1 drafts)) := by
  have hreach := request.reaches_of_decodePass_again hagain
  rw [request.decodePass_of_reaches hreach] at hagain
  split at hagain
  next =>
    cases hagain
    exact .inl rfl
  next hdrafts =>
    refine .inr ⟨_, ⟨hreach, ?_⟩, ?_⟩
    · intro hnil
      exact hdrafts (List.isEmpty_iff.mpr hnil)
    · rcases Nat.lt_or_ge (request.verifyRows s _).length (s.next :: _).length with
        hshort | henough
      · exact .inl ⟨hshort, hagain⟩
      · rw [request.speculativeStep_enough (request.commit s s.next).1 henough] at hagain
        split at hagain
        next => cases hagain
        next hstop =>
          cases hagain
          exact .inr ⟨henough, hstop, rfl⟩

theorem decodePass_provisioned {s next : DecodeState F Piece} (hs : request.Provisioned s)
    (hagain : request.decodePass request.propose s = .again next) :
    request.Provisioned next := by
  obtain rfl | ⟨drafts, hverify, ⟨hshort, hstep⟩ | ⟨_, hstop, rfl⟩⟩ :=
    request.decodePass_again_cases hagain
  · exact ⟨hs.row_lt, hs.mtp⟩
  · obtain ⟨after, hafter, _, _, hrow, hmtp⟩ :=
      request.speculativeStep_short (request.commit s s.next).1 hshort
    rw [hafter] at hstep
    cases hstep
    refine ⟨(request.ownRows_of_provisioned hs drafts hverify).2.2 _ hrow, ?_⟩
    intro hready
    rw [hmtp] at hready
    cases hready
  · obtain ⟨n, hle, haccepted, _⟩ := request.acceptDrafts_committed _ _ _ _ _ hstop
    refine ⟨(request.ownRows_of_provisioned hs drafts hverify).2.2 _ ?_, ?_⟩
    · show ((laRowsFor _ _)[1 + (request.verifyAccept _ drafts).accepted]?).getD 0 ∈ _
      rw [verifyAccept, haccepted, Nat.zero_add]
      exact laRowsFor_getD_mem (Nat.lt_succ_of_le hle)
    · intro hready
      have hframe := (request.acceptDrafts_frame
        (request.verifyForward (request.commit s s.next).1 drafts).2 s.past 0 drafts
        (request.verifyForward (request.commit s s.next).1 drafts).1).2.1
      exact hs.mtp (hframe.symm.trans hready)

theorem decodePass_absorbed {s next : DecodeState F Piece} (hs : request.Absorbed s)
    (henough : ¬ request.ShortRows s)
    (hagain : request.decodePass request.propose s = .again next) : request.Absorbed next := by
  obtain rfl | ⟨drafts, hverify, ⟨hshort, _⟩ | ⟨_, hstop, rfl⟩⟩ :=
    request.decodePass_again_cases hagain
  · exact request.plainStep_absorbed hs
  · exact absurd ⟨drafts, hverify, hshort⟩ henough
  · exact request.advance_absorbed hs hstop

/-- The branch for too few rows always goes round again, at a position that the
emitted text has not reached. -/
theorem decodePass_of_shortRows {s : DecodeState F Piece} (hs : request.Absorbed s)
    (hshort : request.ShortRows s) :
    ∃ next, request.decodePass request.propose s = .again next ∧ ¬ request.Absorbed next := by
  obtain ⟨drafts, ⟨hreach, hne⟩, hrows⟩ := hshort
  obtain ⟨next, hnext, hpast, hemitted, _⟩ :=
    request.speculativeStep_short (request.commit s s.next).1 hrows
  refine ⟨next, ?_, ?_⟩
  · rw [request.decodePass_of_reaches hreach, if_neg (by simpa using hne), hnext]
  · intro habsorbed
    have hpast' := habsorbed.past
    have hlength : 0 < drafts.length := List.length_pos_iff.mpr hne
    rw [hpast, hemitted] at hpast'
    simp only [commit, List.length_append, List.length_cons, List.length_nil, hs.past] at hpast'
    omega

/-! ## Whole runs -/

theorem prefill_absorbed {grid : PrefillGrid} {lane : Lane} {rng : Nat}
    {hit : Option (PrefixHit request.prompt)} {s : DecodeState F Piece}
    (hprefill : request.prefill grid lane rng hit = some s) :
    request.Absorbed s ∧ request.Provisioned s := by
  obtain ⟨before, logits, hbefore, hpast, rfl⟩ := request.prefill_prefilling hprefill
  have hcommitted : request.committed before = request.prompt.take before.past := by
    rw [hpast, List.take_length]
    simp [committed, DecodeState.emittedTokens, hbefore.emitted]
  refine ⟨?_, ?_, ?_⟩
  · apply Absorbed.of_row_kv
    · exact hbefore.row.trans hcommitted.symm
    · exact hbefore.kv.trans hcommitted.symm
  · exact hbefore.rowZero ▸ Nat.succ_pos _
  · intro hready
    exact hbefore.flags.1 ▸ hready

theorem head_provisioned {s head : DecodeState F Piece} {n : Nat} (hs : request.Provisioned s)
    (hhead : request.decodeLoop.after n s = .again head) : request.Provisioned head :=
  Loop.head_invariant hs
    (fun _ _ _ _ hmiddle hbody => request.decodePass_provisioned hmiddle hbody) hhead

/-- In every run the decode state equals the emitted text at every loop head,
and every verify pass has rows of its own, exactly when no verify forward of the
run returns fewer rows than tokens. -/
theorem decodeState_eq_emitted_iff {grid : PrefillGrid} {lane : Lane} {rng : Nat}
    {hit : Option (PrefixHit request.prompt)} {s : DecodeState F Piece}
    (hprefill : request.prefill grid lane rng hit = some s) :
    (∀ n head, request.decodeLoop.after n s = .again head →
        request.Absorbed head ∧ request.OwnRows head) ↔
      ∀ n head, request.decodeLoop.after n s = .again head → ¬ request.ShortRows head := by
  obtain ⟨habsorbed, hprovisioned⟩ := request.prefill_absorbed hprefill
  constructor
  · intro hall n head hhead hshort
    obtain ⟨next, hbody, hlost⟩ :=
      request.decodePass_of_shortRows (hall n head hhead).1 hshort
    exact hlost (hall (n + 1) next (Loop.after_succ_of_head hhead hbody)).1
  · intro henough n head hhead
    refine ⟨?_, request.ownRows_of_provisioned (request.head_provisioned hprovisioned hhead)⟩
    exact Loop.head_invariant habsorbed
      (fun m middle _ hmiddle hinv hbody =>
        request.decodePass_absorbed hinv (henough m middle hmiddle) hbody) hhead

end Request

/-- A greedy request on a graph that answers every forward with a single row,
with a drafter that always proposes token 2. -/
def oneRowRequest : Request Int Unit where
  prompt := [4, 4]
  params := ⟨0, 1, 0, 1, 0, 0, -1, false⟩
  eosIds := []
  nCtx := 0
  draftsMax := 1
  decodeOne _ := ()
  onPiece _ := .proceed
  graph _ _ _ _ := [[0, 1]]
  draw sampler _ := (0, sampler)
  dflashDraft _ := none
  mtpFeed _ := -1
  ngramDraft _ := [2]
  ensureBlocks _ := true
  dflash_le := noDflash_le
  mtpReady := false
  mtp_le := noMtp_le
  drafting := true

/-- Its head of the decode loop, from a cold prefill in one chunk. -/
def oneRowHead : DecodeState Int Unit :=
  (oneRowRequest.prefill ⟨0, 0, false⟩ ⟨fun _ => [], fun _ => 0⟩ 0 none).get rfl

theorem oneRow_not_absorbed :
    oneRowRequest.prefill ⟨0, 0, false⟩ ⟨fun _ => [], fun _ => 0⟩ 0 none = some oneRowHead ∧
      ∃ head, oneRowRequest.decodeLoop.after 1 oneRowHead = .again head ∧
        head.past = 4 ∧ head.emittedTokens = [1] ∧
        head.lane.laRows head.committedRow = [4, 4, 1, 2] ∧
        ¬ oneRowRequest.Absorbed head := by
  refine ⟨rfl, _, rfl, rfl, rfl, rfl, ?_⟩
  intro habsorbed
  have hpast : 4 = 2 + 1 := habsorbed.past
  omega

theorem decodeState_eq_emitted_iff_oneRow :
    (∀ n head, oneRowRequest.decodeLoop.after n oneRowHead = .again head →
        oneRowRequest.Absorbed head ∧ oneRowRequest.OwnRows head) ↔
      ∀ n head, oneRowRequest.decodeLoop.after n oneRowHead = .again head →
        ¬ oneRowRequest.ShortRows head :=
  @Request.decodeState_eq_emitted_iff Int Unit _ oneRowRequest ⟨0, 0, false⟩
    ⟨fun _ => [], fun _ => 0⟩ 0 none oneRowHead rfl

end Arcint.Decode
