import Arcint.Decode.Rollback

/-! # Speculative decoding is invisible

On a graph whose rows depend only on the token prefix, the decode loop and the
loop that never drafts show the client the same pieces, the same token count and
the same finish reason. One speculative pass is matched by one plain pass for
the committed token and one for every accepted draft.
-/

namespace Arcint.Decode

open Arcint.Core Foundation

namespace Request

variable {F Piece : Type} [FloatOps F] (request : Request F Piece)

/-- Row `j` of a forward is the target's row for the prefix that ends with token
`j`, however the prefix was split into forwards, and every token has a row. -/
def RowPerPrefix (target : List Token → List F) : Prop :=
  ∀ call before seq, request.graph call before before seq =
    (List.range seq.length).map fun j => target (before ++ seq.take (j + 1))

/-- The token the sampler picks after a text. -/
def choose (target : List Token → List F) (sampler : Sampler F) (text : List Token) : Token :=
  (sampler.sample request.draw (target text)).1

/-- Two loop heads that agree on everything but the device state and the history
of forwards, where both have absorbed their text. -/
structure Twin (s t : DecodeState F Piece) : Prop where
  next : s.next = t.next
  past : s.past = t.past
  sampler : s.sampler = t.sampler
  completionTokens : s.completionTokens = t.completionTokens
  emitted : s.emitted = t.emitted
  absorbed : request.Absorbed s ∧ request.Absorbed t
  params : s.sampler.params = request.params

/-- The plain loop stands at the head that the accept loop has reached with
draft `i`: same text, and its token is the one the sampler picks after it. -/
structure Awaits (target : List Token → List F) (past i : Nat) (s t : DecodeState F Piece) :
    Prop where
  next : t.next = request.choose target s.sampler (request.committed s)
  past : t.past = past + i + 1
  sampler : t.sampler = s.sampler
  completionTokens : t.completionTokens = s.completionTokens
  emitted : t.emitted = s.emitted
  absorbed : request.Absorbed t
  params : s.sampler.params = request.params

/-! ## Picking on the target -/

section Greedy

variable {request} {target : List Token → List F}

theorem pickRow_target (sampler : Sampler F) {before seq : List Token} {i : Nat}
    (hi : i < seq.length) :
    request.pickRow sampler
        ((List.range seq.length).map fun j => target (before ++ seq.take (j + 1))) i =
      sampler.sample request.draw (target (before ++ seq.take (i + 1))) := by
  simp [pickRow, hi]

theorem pickRow_snd_of_greedy (hgreedy : request.params.greedy = true) {sampler : Sampler F}
    (hparams : sampler.params = request.params) (logits : List (List F)) (i : Nat) :
    (request.pickRow sampler logits i).2 = sampler := by
  unfold pickRow
  split
  next => rfl
  next => exact Sampler.sample_snd_of_greedy _ _ (by rw [hparams]; exact hgreedy) _

theorem pick_snd_of_greedy (hgreedy : request.params.greedy = true) {sampler : Sampler F}
    (hparams : sampler.params = request.params) (logits : List (List F)) :
    (request.pick sampler logits).2 = sampler := by
  unfold pick
  split
  next => rfl
  next => exact pickRow_snd_of_greedy hgreedy hparams _ _

omit [FloatOps F] in
/-- The second copy of the gates is the first one at the position of the draft. -/
theorem acceptGate_eq_headGate (tok : Token) (completionTokens past i : Nat) :
    request.acceptGate tok completionTokens past i =
      request.headGate tok completionTokens (past + i + 1) := by
  have hposition : ((past + i : Nat) : Int) + 2 = ((past + i + 1 : Nat) : Int) + 1 := by
    omega
  simp only [acceptGate, headGate, hposition]

/-- A plain step picks from the target's row for the text it has just completed. -/
theorem plainStep_pick (hrows : request.RowPerPrefix target) {s : DecodeState F Piece}
    (hs : request.Absorbed s) :
    ((request.plainStep (request.commit s s.next).1).next,
        (request.plainStep (request.commit s s.next).1).sampler) =
      (s.sampler.observe s.next).sample request.draw
        (target (request.committed s ++ [s.next])) := by
  have hgraph : request.graph s.calls.length (s.lane.laRows s.committedRow)
      (s.lane.kvPrefix s.past) [s.next] = [target (request.committed s ++ [s.next])] := by
    rw [hs.row, hs.kv, hrows]
    rfl
  show request.pick (s.sampler.observe s.next) (request.graph s.calls.length
    (s.lane.laRows s.committedRow) (s.lane.kvPrefix s.past) [s.next]) = _
  rw [hgraph]
  rfl

/-- After a plain step the plain loop awaits the token that the sampler picks
after the text with the committed token. -/
theorem plainStep_awaits (hgreedy : request.params.greedy = true)
    (hrows : request.RowPerPrefix target) {s t : DecodeState F Piece}
    (ht : request.Absorbed t) (hparams : t.sampler.params = request.params)
    (hsampler : s.sampler = t.sampler.observe t.next)
    (hcount : s.completionTokens = t.completionTokens + 1)
    (hemitted : s.emitted = t.emitted ++ [(request.decodeOne t.next, t.next)])
    {past i : Nat} (hpast : t.past = past + i) :
    request.Awaits target past i s (request.plainStep (request.commit t t.next).1) := by
  have hpick := plainStep_pick hrows ht
  have hobserved : (t.sampler.observe t.next).params = request.params := by
    rw [Sampler.observe_params, hparams]
  have hcommitted : request.committed s = request.committed t ++ [t.next] := by
    simp [committed, DecodeState.emittedTokens, hemitted]
  refine ⟨?_, ?_, ?_, hcount.symm, hemitted.symm, request.plainStep_absorbed ht, ?_⟩
  · rw [choose, hsampler, hcommitted, ← hpick]
  · show t.past + 1 = past + i + 1
    rw [hpast]
  · rw [hsampler, ← Sampler.sample_snd_of_greedy request.draw (t.sampler.observe t.next)
      (by rw [hobserved]; exact hgreedy), ← hpick]
  · rw [hsampler, hobserved]

/-! ## The accept loop against the plain loop -/

/-- A plain pass that reaches its forward. -/
theorem plainLoop_step (hpages : ∀ history, request.ensureBlocks history = true)
    {t : DecodeState F Piece}
    (hgate : request.headGate t.next t.completionTokens t.past = none)
    (hproceed : (request.commit t t.next).2 = .proceed) :
    request.plainLoop.body t = .again (request.plainStep (request.commit t t.next).1) := by
  have hreach : request.Reaches (fun _ => []) t [] := ⟨hgate, hproceed, hpages _, rfl⟩
  exact request.decodePass_of_reaches hreach

/-- The plain loop follows the accept loop: one pass for every draft that is
committed, and the same exit when a gate or the client ends the request. -/
theorem plainLoop_follows_acceptDrafts (hgreedy : request.params.greedy = true)
    (hrows : request.RowPerPrefix target)
    (hpages : ∀ history, request.ensureBlocks history = true)
    {before seq : List Token} {logits : List (List F)}
    (hlogits : logits = (List.range seq.length).map fun j => target (before ++ seq.take (j + 1)))
    {past i : Nat} {drafts : List Token} {s t : DecodeState F Piece}
    (hdrafts : seq.drop (i + 1) = drafts)
    (htext : request.committed s = before ++ seq.take (i + 1))
    (hawaits : request.Awaits target past i s t)
    {result : Accepted F Piece} (hresult : request.acceptDrafts logits past i drafts s = result) :
    match result.stop with
    | none => ∃ k t', request.plainLoop.after k t = .again t' ∧
        request.Awaits target past result.accepted result.state t'
    | some reason => ∃ k last, request.plainLoop.after (k + 1) t = .leave last ∧
        last.reason = reason ∧ last.state.emitted = result.state.emitted ∧
        last.state.completionTokens = result.state.completionTokens := by
  subst hresult
  induction drafts generalizing i s t with
  | nil => exact ⟨0, t, rfl, hawaits⟩
  | cons draft drafts ih =>
      have hi : i + 1 < seq.length := by
        by_contra hge
        rw [List.drop_eq_nil_of_le (Nat.le_of_not_lt hge)] at hdrafts
        cases hdrafts
      have hpick : (request.pickRow s.sampler logits i).1 = t.next := by
        rw [hlogits, pickRow_target _ (Nat.lt_of_succ_lt hi), hawaits.next, choose, htext]
      have hafter : request.afterPick s logits i = s := by
        rw [afterPick, pickRow_snd_of_greedy hgreedy hawaits.params]
      have hgates : request.acceptGate t.next s.completionTokens past i =
          request.headGate t.next t.completionTokens t.past := by
        rw [acceptGate_eq_headGate, hawaits.completionTokens, hawaits.past]
      have hcontrol : (request.commit s t.next).2 = (request.commit t t.next).2 := by
        simp only [commit, hawaits.emitted]
      have hemitted : (request.commit s t.next).1.emitted =
          (request.commit t t.next).1.emitted := by
        simp only [commit, hawaits.emitted]
      have hcount : (request.commit s t.next).1.completionTokens =
          (request.commit t t.next).1.completionTokens := by
        simp only [commit, hawaits.completionTokens]
      obtain hreject | ⟨rfl, ⟨reason, hgate⟩ | ⟨hgate, hstop⟩ | ⟨hgate, hproceed⟩⟩ :=
        request.acceptDrafts_cases logits past i draft s
      · rw [acceptDrafts_reject hreject, hafter]
        exact ⟨0, t, rfl, hawaits⟩
      · rw [acceptDrafts_gate rfl hgate, hafter]
        rw [hpick, hgates] at hgate
        have hleave : request.plainLoop.body t = .leave ⟨t, reason⟩ :=
          request.decodePass_gate (fun _ => []) hgate
        exact ⟨0, _, Loop.after_succ_leave hleave 0, rfl, hawaits.emitted,
          hawaits.completionTokens⟩
      · rw [acceptDrafts_stop rfl hgate rfl hstop, hafter, hpick]
        rw [hafter, hpick, hcontrol] at hstop
        rw [hpick, hgates] at hgate
        have hleave : request.plainLoop.body t =
            .leave ⟨(request.commit t t.next).1, stopReason (request.commit t t.next).2⟩ :=
          request.decodePass_stop (fun _ => []) hgate hstop
        refine ⟨0, _, Loop.after_succ_leave hleave 0, ?_, hemitted.symm, hcount.symm⟩
        rw [hcontrol]
      · rw [acceptDrafts_proceed rfl hgate hproceed, hafter]
        rw [hafter, hpick, hcontrol] at hproceed
        rw [hpick, hgates] at hgate
        rw [hpick] at hdrafts ⊢
        have hstep := plainLoop_step hpages hgate hproceed
        have hhead : seq[i + 1]? = some t.next := by
          rw [← List.head?_drop, hdrafts]
          rfl
        have hrest : seq.drop (i + 1 + 1) = drafts := by
          rw [← List.drop_drop, hdrafts]
          rfl
        have htext' : request.committed (request.commit s t.next).1 =
            before ++ seq.take (i + 1 + 1) := by
          rw [committed_commit, htext, List.take_add_one (l := seq) (i := i + 1), hhead,
            List.append_assoc]
          rfl
        have hawaits' : request.Awaits target past (i + 1) (request.commit s t.next).1
            (request.plainStep (request.commit t t.next).1) := by
          apply plainStep_awaits hgreedy hrows hawaits.absorbed
          · rw [hawaits.sampler, hawaits.params]
          · rw [hawaits.sampler]
            rfl
          · exact hcount
          · exact hemitted
          · exact hawaits.past
        have hfollow := ih hrest htext' hawaits'
        split at hfollow
        next hnone =>
          obtain ⟨k, t', hafter', hlast⟩ := hfollow
          refine ⟨k + 1, t', ?_, hlast⟩
          rw [Loop.after_succ_again hstep, hafter']
        next reason hsome =>
          obtain ⟨k, last, hafter', hlast⟩ := hfollow
          refine ⟨k + 1, last, ?_, hlast⟩
          rw [Loop.after_succ_again hstep, hafter']

/-! ## One pass against the plain loop -/

/-- A speculative step against the plain loop, after the commit of the head's token. -/
theorem speculativeStep_matches (hgreedy : request.params.greedy = true)
    (hrows : request.RowPerPrefix target)
    (hpages : ∀ history, request.ensureBlocks history = true)
    {s t : DecodeState F Piece} (htwin : request.Twin s t) (drafts : List Token)
    (hgate : request.headGate t.next t.completionTokens t.past = none)
    (hproceed : (request.commit t t.next).2 = .proceed) :
    Loop.Matches clientView request.plainLoop request.Twin
      (request.speculativeStep (request.commit s s.next).1 drafts) t := by
  have hlogits : (request.verifyForward (request.commit s s.next).1 drafts).2 =
      (List.range (s.next :: drafts).length).map fun j =>
        target (request.committed s ++ (s.next :: drafts).take (j + 1)) := by
    rw [← hrows s.calls.length, ← htwin.absorbed.1.row]
    show request.graph _ _ (s.lane.kvPrefix s.past) _ = _
    rw [htwin.absorbed.1.kv, ← htwin.absorbed.1.row]
    rfl
  have henough : (s.next :: drafts).length ≤
      (request.verifyForward (request.commit s s.next).1 drafts).2.length := by
    rw [hlogits, List.length_map, List.length_range]
  have hstep := plainLoop_step hpages hgate hproceed
  have hawaits : request.Awaits target s.past 0
      (request.verifyForward (request.commit s s.next).1 drafts).1
      (request.plainStep (request.commit t t.next).1) := by
    apply plainStep_awaits hgreedy hrows htwin.absorbed.2
    · rw [← htwin.sampler, htwin.params]
    · rw [← htwin.sampler, ← htwin.next]
      rfl
    · rw [← htwin.completionTokens]
      rfl
    · rw [← htwin.emitted, ← htwin.next]
      rfl
    · exact htwin.past.symm
  have htext : request.committed (request.verifyForward (request.commit s s.next).1 drafts).1 =
      request.committed s ++ (s.next :: drafts).take (0 + 1) :=
    request.committed_commit s s.next
  have hfollow := plainLoop_follows_acceptDrafts hgreedy hrows hpages hlogits rfl htext hawaits
    (show _ = request.verifyAccept (request.commit s s.next).1 drafts from rfl)
  rw [request.speculativeStep_enough (request.commit s s.next).1 henough]
  cases hstop : (request.verifyAccept (request.commit s s.next).1 drafts).stop with
  | some reason =>
      rw [hstop] at hfollow
      obtain ⟨k, last, hlast, hreason, hemitted, hcount⟩ := hfollow
      refine ⟨k + 1, last, ?_, hemitted.symm, ?_⟩
      · rw [Loop.after_succ_again hstep, hlast]
      · exact Prod.ext hcount.symm hreason.symm
  | none =>
      rw [hstop] at hfollow
      obtain ⟨k, t', hlast, hawaits'⟩ := hfollow
      obtain ⟨n, hle, haccepted, hcommitted⟩ := request.acceptDrafts_committed _ _ _ _ _ hstop
      have hsampler : (request.pickRow
          (request.verifyAccept (request.commit s s.next).1 drafts).state.sampler
          (request.verifyForward (request.commit s s.next).1 drafts).2
          (request.verifyAccept (request.commit s s.next).1 drafts).accepted).2 =
            (request.verifyAccept (request.commit s s.next).1 drafts).state.sampler :=
        pickRow_snd_of_greedy hgreedy hawaits'.params _ _
      have htext' : request.committed
          (request.verifyAccept (request.commit s s.next).1 drafts).state =
            request.committed s ++ (s.next :: drafts).take
              ((request.verifyAccept (request.commit s s.next).1 drafts).accepted + 1) := by
        rw [verifyAccept, haccepted, hcommitted, htext, List.append_assoc, Nat.zero_add n]
        rfl
      have hlt : (request.verifyAccept (request.commit s s.next).1 drafts).accepted <
          (s.next :: drafts).length := by
        rw [verifyAccept, haccepted, Nat.zero_add]
        exact Nat.lt_succ_of_le hle
      refine ⟨k, t', ?_, ?_, ?_, ?_, ?_, ?_, ?_, ?_⟩
      · rw [Loop.after_succ_again hstep, hlast]
      · rw [hawaits'.next, choose, htext', ← pickRow_target _ hlt, ← hlogits]
        rfl
      · rw [hawaits'.past]
        exact Nat.add_right_comm _ _ _
      · exact hsampler.trans hawaits'.sampler.symm
      · exact hawaits'.completionTokens.symm
      · exact hawaits'.emitted.symm
      · exact ⟨request.advance_absorbed htwin.absorbed.1 hstop, hawaits'.absorbed⟩
      · exact (congrArg Sampler.params hsampler).trans hawaits'.params

/-- Plain steps keep twins. -/
theorem plainStep_twin (hgreedy : request.params.greedy = true)
    (hrows : request.RowPerPrefix target) {s t : DecodeState F Piece}
    (htwin : request.Twin s t) :
    request.Twin (request.plainStep (request.commit s s.next).1)
      (request.plainStep (request.commit t t.next).1) := by
  have hobserved : (s.sampler.observe s.next).params = request.params := by
    rw [Sampler.observe_params, htwin.params]
  have hcommitted : request.committed s = request.committed t := by
    simp only [committed, DecodeState.emittedTokens, htwin.emitted]
  have hleft := plainStep_pick hrows htwin.absorbed.1
  have hsame : (s.sampler.observe s.next).sample request.draw
      (target (request.committed s ++ [s.next])) =
        (t.sampler.observe t.next).sample request.draw
          (target (request.committed t ++ [t.next])) := by
    rw [htwin.sampler, htwin.next, hcommitted]
  obtain ⟨hnext, hsampler⟩ := Prod.ext_iff.mp
    (hleft.trans (hsame.trans (plainStep_pick hrows htwin.absorbed.2).symm))
  refine ⟨hnext, ?_, hsampler, ?_, ?_, ?_, ?_⟩
  · exact congrArg (· + 1) htwin.past
  · exact congrArg (· + 1) htwin.completionTokens
  · show s.emitted ++ _ = t.emitted ++ _
    rw [htwin.emitted, htwin.next]
  · exact ⟨request.plainStep_absorbed htwin.absorbed.1, request.plainStep_absorbed htwin.absorbed.2⟩
  · have hgreedy' : (s.sampler.observe s.next).params.greedy = true := by
      rw [hobserved]
      exact hgreedy
    have hkept := Sampler.sample_snd_of_greedy request.draw _ hgreedy'
      (target (request.committed s ++ [s.next]))
    rw [← hleft] at hkept
    exact (congrArg Sampler.params hkept).trans hobserved

/-- One pass of the decode loop against the plain loop. -/
theorem decodePass_matches (hgreedy : request.params.greedy = true)
    (hrows : request.RowPerPrefix target)
    (hpages : ∀ history, request.ensureBlocks history = true)
    {s t : DecodeState F Piece} (htwin : request.Twin s t) :
    Loop.Matches clientView request.plainLoop request.Twin (request.decodeLoop.body s) t := by
  have hgates : request.headGate s.next s.completionTokens s.past =
      request.headGate t.next t.completionTokens t.past := by
    rw [htwin.next, htwin.completionTokens, htwin.past]
  have hcontrol : (request.commit s s.next).2 = (request.commit t t.next).2 := by
    simp only [commit, htwin.emitted, htwin.next]
  have hemitted : (request.commit s s.next).1.emitted = (request.commit t t.next).1.emitted := by
    simp only [commit, htwin.emitted, htwin.next]
  have hcount : (request.commit s s.next).1.completionTokens =
      (request.commit t t.next).1.completionTokens := by
    simp only [commit, htwin.completionTokens]
  cases hgate : request.headGate t.next t.completionTokens t.past with
  | some reason =>
      have hleave : request.plainLoop.body t = .leave ⟨t, reason⟩ :=
        request.decodePass_gate (fun _ => []) hgate
      rw [decodeLoop_body, request.decodePass_gate _ (hgates.trans hgate)]
      exact ⟨0, _, Loop.after_succ_leave hleave 0, htwin.emitted,
        Prod.ext htwin.completionTokens rfl⟩
  | none =>
      by_cases hproceed : (request.commit t t.next).2 = .proceed
      · have hreach : request.Reaches request.propose s
            (request.propose (request.commit s s.next).1) :=
          ⟨hgates.trans hgate, hcontrol.trans hproceed, hpages _, rfl⟩
        rw [decodeLoop_body, request.decodePass_of_reaches hreach]
        split
        next =>
          refine ⟨0, _, Loop.after_succ_of_head rfl (plainLoop_step hpages hgate hproceed), ?_⟩
          exact plainStep_twin hgreedy hrows htwin
        next => exact speculativeStep_matches hgreedy hrows hpages htwin _ hgate hproceed
      · have hstop : (request.commit s s.next).2 ≠ .proceed := by
          rw [hcontrol]
          exact hproceed
        have hleave : request.plainLoop.body t =
            .leave ⟨(request.commit t t.next).1, stopReason (request.commit t t.next).2⟩ :=
          request.decodePass_stop (fun _ => []) hgate hproceed
        rw [decodeLoop_body, request.decodePass_stop _ (hgates.trans hgate) hstop]
        exact ⟨0, _, Loop.after_succ_leave hleave 0, hemitted,
          Prod.ext hcount (congrArg stopReason hcontrol)⟩

end Greedy

/-! ## Whole runs -/

/-- The plain loop never takes back what the client has seen. -/
theorem plainLoop_grows : Loop.Grows clientView request.plainLoop := by
  intro s
  have hcommit : s.emitted <+: (request.commit s s.next).1.emitted := List.prefix_append _ _
  show s.emitted <+: clientView.written (request.decodePass (fun _ => []) s)
  unfold decodePass
  split
  next => exact List.prefix_rfl
  next =>
    dsimp only
    split
    next =>
      split
      next => exact hcommit
      next => exact hcommit
    next => exact hcommit

/-- Drafting switched off by the request's own parameters. -/
theorem propose_of_not_greedy (hgreedy : request.params.greedy = false) :
    request.propose = fun _ => [] := by
  funext s
  simp [propose, hgreedy]

/-- Speculative decoding is invisible: every request with a prompt reaches its
decode loop, and from there that loop and the loop that never drafts cannot be
told apart. -/
theorem speculation_invisible {target : List Token → List F}
    (hrows : request.RowPerPrefix target)
    (hpages : ∀ history, request.ensureBlocks history = true)
    (grid : PrefillGrid) (lane : Lane) (rng : Nat) (hit : Option (PrefixHit request.prompt)) :
    ((request.prefill grid lane rng hit).isSome ↔ request.prompt ≠ []) ∧
      ∀ s, request.prefill grid lane rng hit = some s →
        Loop.SameBehaviour clientView request.decodeLoop request.plainLoop s s := by
  refine ⟨request.prefill_isSome_iff grid hpages lane rng hit, fun s hprefill => ?_⟩
  cases hgreedy : request.params.greedy with
  | false =>
      have hloops : request.decodeLoop = request.plainLoop := by
        rw [decodeLoop, plainLoop, request.propose_of_not_greedy hgreedy]
      rw [hloops]
      exact ⟨fun _ _ => Iff.rfl, fun _ _ => Iff.rfl⟩
  | true =>
      have habsorbed := (request.prefill_absorbed hprefill).1
      have hparams : s.sampler.params = request.params := by
        obtain ⟨before, logits, hbefore, _, rfl⟩ := request.prefill_prefilling hprefill
        rw [pick_snd_of_greedy hgreedy hbefore.flags.2]
        exact hbefore.flags.2
      exact Loop.sameBehaviour_of_simulation request.plainLoop_grows
        (fun _ _ htwin => htwin.emitted)
        (fun _ _ htwin => decodePass_matches hgreedy hrows hpages htwin)
        ⟨rfl, rfl, rfl, rfl, rfl, ⟨habsorbed, habsorbed⟩, hparams⟩

end Request

/-- A target that counts: after a text it prefers token `length mod 3`. -/
def countingTarget (text : List Token) : List Int :=
  (List.range 3).map fun id => if id = text.length % 3 then 1 else 0

theorem counting_noMtp_le : false = true → 1 ≤ 2 := by simp

/-- A greedy request on that target, with a drafter that is right now and then. -/
def countingRequest : Request Int Unit where
  prompt := [0, 1]
  params := ⟨0, 1, 0, 1, 0, 0, 4, false⟩
  eosIds := []
  nCtx := 0
  draftsMax := 2
  decodeOne _ := ()
  onPiece _ := .proceed
  graph _ before _ seq :=
    (List.range seq.length).map fun j => countingTarget (before ++ seq.take (j + 1))
  draw sampler _ := (0, sampler)
  dflashDraft _ := none
  mtpFeed _ := -1
  ngramDraft _ := [0, 1]
  ensureBlocks _ := true
  dflash_le := by simp
  mtpReady := false
  mtp_le := counting_noMtp_le
  drafting := true

theorem speculation_invisible_counting :
    (countingRequest.prefill ⟨0, 0, false⟩ ⟨fun _ => [], fun _ => 0⟩ 0 none).isSome ∧
      ∀ s, countingRequest.prefill ⟨0, 0, false⟩ ⟨fun _ => [], fun _ => 0⟩ 0 none = some s →
        Loop.SameBehaviour Request.clientView countingRequest.decodeLoop
          countingRequest.plainLoop s s :=
  ⟨rfl, (@Request.speculation_invisible Int Unit _ countingRequest countingTarget
    (fun _ _ _ => rfl) (fun _ => rfl) ⟨0, 0, false⟩ ⟨fun _ => [], fun _ => 0⟩ 0 none).2⟩

end Arcint.Decode
