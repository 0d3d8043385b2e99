import Arcint.Decode.Rollback
import Arcint.Foundation.Machine

/-! # The stateful decode loop

The reference path has one graph state and no checkpoint rows: a verify pass moves the
state over every draft, and what is not accepted is undone by writing back a copy taken
before the pass. A variable of the state is recorded by the tokens it has absorbed. The
loop looks at no result of `restore_tensors`, so a write-back that fails part of the way
leaves the drafts in the variables it did not reach.
-/

namespace Arcint.Decode

open Arcint.Core Foundation

/-- The variables of the graph state, each by the tokens it has absorbed. -/
abbrev Variables := List (List Token)

namespace Variables

/-- A forward: every variable absorbs the tokens. -/
def forward (vars : Variables) (tokens : List Token) : Variables := vars.map (· ++ tokens)

/-- `snapshot_tensors`: a copy of every variable, or none when a read throws. -/
def snapshotTensors (vars : Variables) (copied : Bool) : Option Variables :=
  if copied = true then some vars else none

/-- The loop of `set_state`; `throwsAt` is the variable whose write throws. -/
def setStates : Option Nat → Variables → Variables → Variables × Bool
  | throwsAt, saved :: rest, var :: vars =>
      if throwsAt = some 0 then (var :: vars, false)
      else
        let out := setStates (throwsAt.map Nat.pred) rest vars
        (saved :: out.1, out.2)
  | _, _, vars => (vars, true)

/-- `restore_tensors`: nothing is written when the copy has another number of variables. -/
def restoreTensors (vars : Variables) (throwsAt : Option Nat) (saved : Variables) :
    Variables × Bool :=
  if vars.length ≠ saved.length then (vars, false) else setStates throwsAt saved vars

/-- Every variable has absorbed exactly these tokens. -/
def Hold (vars : Variables) (tokens : List Token) : Prop := ∀ held ∈ vars, held = tokens

end Variables

/-- The locals at the head of the loop, and the graph state. The locals are those of
`generate_paged`, whose lane plays no part here. -/
structure StatefulState (F Piece : Type) where
  locals : DecodeState F Piece
  vars : Variables

/-- What the surroundings answer during one pass: the drafters, the copy of the state and
its write-back, and the logits of the forward of `next` alone, of the verify forward and of
the forward over the accepted tokens. -/
structure PassAnswers (F : Type) where
  mtpFed : Token
  ngramDrafts : List Token
  copied : Bool
  throwsAt : Option Nat
  plainLogits : List (List F)
  verifyLogits : List (List F)
  keepLogits : List (List F)

structure StatefulFinished (F Piece : Type) where
  state : StatefulState F Piece
  reason : FinishReason

namespace Request

variable {F Piece : Type} [FloatOps F] (request : Request F Piece)

/-- The state before the first prefill forward: the hit's, or a reset one; a write-back of a
hit that fails resets the state too. -/
def statefulStart (vars : Variables) : Option (PrefixHit request.prompt) → Variables
  | none => vars.map fun _ => []
  | some hit => vars.map fun _ => request.prompt.take hit.matched

/-- The prefill loop: chunks that end on the grid. -/
def statefulPrefillLoop (grid : PrefillGrid) : Nat → Nat → Variables → Variables
  | 0, _, vars => vars
  | fuel + 1, past, vars =>
      if past < request.prompt.length then
        let take := grid.toEdge request.prompt.length past
        statefulPrefillLoop grid fuel (past + take)
          (vars.forward ((request.prompt.drop past).take take))
      else vars

/-- The head of the decode loop; `logits` are those of the last prefill forward. `none` when
the request returns before it, for an empty prompt. -/
def statefulPrefill (grid : PrefillGrid) (vars : Variables) (rng : Nat)
    (hit : Option (PrefixHit request.prompt)) (logits : List (List F)) :
    Option (StatefulState F Piece) :=
  if request.prompt.isEmpty then none
  else
    let start := request.startState ⟨fun _ => [], fun _ => 0⟩ rng hit
    let picked := request.pick start.sampler logits
    some
      { vars := request.statefulPrefillLoop grid request.prompt.length start.past
          (request.statefulStart vars hit)
        locals := { start with
          past := request.prompt.length
          next := picked.1
          sampler := picked.2 } }

/-- The MTP head if there is one, else the n-gram drafter; only greedy requests draft. -/
def statefulPropose (s : DecodeState F Piece) (answers : PassAnswers F) : List Token :=
  if s.mtpReady && request.params.greedy then
    if 0 ≤ answers.mtpFed then [answers.mtpFed] else []
  else if s.drafting && request.params.greedy then answers.ngramDrafts
  else []

/-- The forward of `next` alone, and the next pick. -/
def statefulPlain (s : StatefulState F Piece) (logits : List (List F)) :
    StatefulState F Piece :=
  let picked := request.pick s.locals.sampler logits
  { vars := s.vars.forward [s.locals.next]
    locals := { s.locals with
      past := s.locals.past + 1
      next := picked.1
      sampler := picked.2 } }

/-- Speculation is switched off. -/
def withoutDrafts (s : StatefulState F Piece) : StatefulState F Piece :=
  { s with locals := { s.locals with drafting := false, mtpReady := false } }

/-- The speculative step: copy the state, verify every draft in one forward, accept, and
write the copy back where the forward went too far. -/
def statefulVerify (s : StatefulState F Piece) (drafts : List Token) (answers : PassAnswers F) :
    Pass (StatefulState F Piece) (StatefulFinished F Piece) :=
  match s.vars.snapshotTensors answers.copied with
  | none => .again (request.statefulPlain (withoutDrafts s) answers.plainLogits)
  | some rollback =>
      let seq := s.locals.next :: drafts
      let vars := s.vars.forward seq
      let restored := (vars.restoreTensors answers.throwsAt rollback).1
      if answers.verifyLogits.length < seq.length then
        .again (request.statefulPlain (withoutDrafts { s with vars := restored })
          answers.plainLogits)
      else
        let result := request.acceptDrafts answers.verifyLogits s.locals.past 0 drafts s.locals
        match result.stop with
        | some reason => .leave ⟨⟨result.state, restored⟩, reason⟩
        | none =>
            let rejects := result.accepted < drafts.length
            let picked := request.pick result.state.sampler
              (if rejects then answers.keepLogits else answers.verifyLogits)
            .again
              { vars := if rejects then restored.forward (seq.take (1 + result.accepted)) else vars
                locals := { result.state with
                  past := s.locals.past + 1 + result.accepted
                  next := picked.1
                  sampler := picked.2 } }

/-- One pass of the stateful decode loop. -/
def statefulPass (s : StatefulState F Piece) (answers : PassAnswers F) :
    Pass (StatefulState F Piece) (StatefulFinished F Piece) :=
  match request.headGate s.locals.next s.locals.completionTokens s.locals.past with
  | some reason => .leave ⟨s, reason⟩
  | none =>
      let committed := request.commit s.locals s.locals.next
      match committed.2 with
      | .proceed =>
          let s := { s with locals := committed.1 }
          let drafts := request.statefulPropose s.locals answers
          if drafts.isEmpty then .again (request.statefulPlain s answers.plainLogits)
          else request.statefulVerify s drafts answers
      | control => .leave ⟨{ s with locals := committed.1 }, stopReason control⟩

/-- The loop, head by head. -/
def statefulMachine : Machine (StatefulState F Piece) (PassAnswers F) where
  step s answers :=
    match request.statefulPass s answers with
    | .again next => some next
    | .leave _ => none

/-- The state has absorbed the prompt and the tokens passed to `on_piece`, and `past` is
their number. -/
structure StatefulAbsorbed (s : StatefulState F Piece) : Prop where
  vars : s.vars.Hold (request.committed s.locals)
  past : s.locals.past = (request.committed s.locals).length

/-- The speculative step writes the copy back and goes on: the verify forward returned too
few rows, or the accept loop ended at a draft it rejects. -/
def RollsBack (s : StatefulState F Piece) (drafts : List Token) (answers : PassAnswers F) : Prop :=
  let result := request.acceptDrafts answers.verifyLogits s.locals.past 0 drafts s.locals
  answers.copied = true ∧
    (answers.verifyLogits.length < (s.locals.next :: drafts).length ∨
      result.stop = none ∧ result.accepted < drafts.length)

/-- The pass proposes drafts and rolls back. -/
def WritesBack (s : StatefulState F Piece) (answers : PassAnswers F) : Prop :=
  let head := { s with locals := (request.commit s.locals s.locals.next).1 }
  let drafts := request.statefulPropose head.locals answers
  drafts ≠ [] ∧ request.RollsBack head drafts answers

/-- No variable throws in a write-back after which the loop goes on. -/
def WriteBackHolds (s : StatefulState F Piece) (answers : PassAnswers F) : Prop :=
  request.WritesBack s answers → ∀ i, answers.throwsAt = some i → s.vars.length ≤ i

end Request

/-! ## The write-back -/

namespace Variables

variable {vars saved : Variables} {tokens : List Token}

@[simp] theorem forward_length (vars : Variables) (tokens : List Token) :
    (vars.forward tokens).length = vars.length :=
  List.length_map _

theorem Hold.forward {text : List Token} (h : vars.Hold text) (tokens : List Token) :
    (vars.forward tokens).Hold (text ++ tokens) := by
  intro held hheld
  obtain ⟨before, hbefore, rfl⟩ := List.mem_map.mp hheld
  rw [h before hbefore]

theorem hold_forward_iff {text : List Token} :
    (vars.forward tokens).Hold (text ++ tokens) ↔ vars.Hold text := by
  refine ⟨fun h held hheld => ?_, fun h => h.forward tokens⟩
  exact List.append_cancel_right (h (held ++ tokens) (List.mem_map_of_mem hheld))

/-- Without a throw every variable is written. -/
theorem setStates_all {throwsAt : Option Nat} (hlength : vars.length = saved.length)
    (hall : ∀ i, throwsAt = some i → saved.length ≤ i) :
    setStates throwsAt saved vars = (saved, true) := by
  induction saved generalizing throwsAt vars with
  | nil =>
      cases vars with
      | nil => rfl
      | cons _ _ => cases hlength
  | cons first rest ih =>
      cases vars with
      | nil => cases hlength
      | cons _ vars =>
          have hfirst : throwsAt ≠ some 0 := fun hzero => Nat.not_succ_le_zero _ (hall 0 hzero)
          have hrest : ∀ i, throwsAt.map Nat.pred = some i → rest.length ≤ i := by
            intro i hi
            obtain ⟨j, hj, rfl⟩ := Option.map_eq_some_iff.mp hi
            exact Nat.le_pred_of_lt (hall j hj)
          simp only [setStates, if_neg hfirst, ih (Nat.succ.inj hlength) hrest]

/-- From the variable that throws on nothing is written. -/
theorem setStates_throws {i : Nat} (hlength : vars.length = saved.length)
    (hi : i < saved.length) :
    setStates (some i) saved vars = (saved.take i ++ vars.drop i, false) := by
  induction saved generalizing i vars with
  | nil => cases hi
  | cons first rest ih =>
      cases vars with
      | nil => cases hlength
      | cons _ vars =>
          cases i with
          | zero => rfl
          | succ i =>
              have hrest := ih (Nat.succ.inj hlength) (Nat.lt_of_succ_lt_succ hi)
              simp only [setStates, Option.some.injEq, Nat.add_one_ne_zero, if_false,
                Option.map_some, Nat.pred_succ, hrest, List.take_succ_cons, List.drop_succ_cons,
                List.cons_append]

theorem restoreTensors_all {throwsAt : Option Nat} (hlength : vars.length = saved.length)
    (hall : ∀ i, throwsAt = some i → saved.length ≤ i) :
    vars.restoreTensors throwsAt saved = (saved, true) := by
  rw [restoreTensors, if_neg (not_not_intro hlength)]
  exact setStates_all hlength hall

/-- What a write-back leaves of a state that went on from the copy: the copy, when no
variable throws. -/
theorem hold_restored_iff {text seq : List Token} (hseq : seq ≠ []) (h : vars.Hold text)
    (throwsAt : Option Nat) :
    ((vars.forward seq).restoreTensors throwsAt vars).1.Hold text ↔
      ∀ i, throwsAt = some i → vars.length ≤ i := by
  constructor
  · intro hrestored i hi
    by_contra hle
    have hlt := Nat.lt_of_not_le hle
    have hout : ((vars.forward seq).restoreTensors throwsAt vars).1 =
        vars.take i ++ (vars.forward seq).drop i := by
      rw [restoreTensors, if_neg (not_not_intro (forward_length _ _)), hi,
        setStates_throws (forward_length _ _) hlt]
    -- the variable that throws keeps the tokens of the forward
    have hmem : vars.get ⟨i, hlt⟩ ++ seq ∈ (vars.forward seq).drop i := by
      rw [forward, ← List.map_drop, List.drop_eq_getElem_cons hlt]
      exact List.mem_cons_self
    have hheld := hrestored (vars.get ⟨i, hlt⟩ ++ seq)
      (hout ▸ List.mem_append_right _ hmem)
    rw [h _ (List.get_mem _ _)] at hheld
    exact hseq (List.append_right_eq_self.mp hheld)
  · intro hall
    rw [restoreTensors_all (forward_length _ _) hall]
    exact h

end Variables

/-! ## One pass -/

namespace Request

variable {F Piece : Type} [FloatOps F] {request : Request F Piece} {s next : StatefulState F Piece}
  {answers : PassAnswers F}

omit [FloatOps F] in
/-- A head whose last forward absorbed the tokens committed since a text. -/
theorem absorbed_forward_iff {base : Variables} {text kept : List Token}
    (hvars : s.vars = base.forward kept) (htext : request.committed s.locals = text ++ kept)
    (hpast : s.locals.past = text.length + kept.length) :
    request.StatefulAbsorbed s ↔ base.Hold text := by
  refine ⟨fun h => ?_, fun h => ⟨?_, ?_⟩⟩
  · have hheld := h.vars
    rw [hvars, htext] at hheld
    exact Variables.hold_forward_iff.mp hheld
  · rw [hvars, htext]
    exact h.forward kept
  · rw [htext, hpast, List.length_append]

theorem statefulPlain_absorbed_iff (s : StatefulState F Piece) {text : List Token}
    (logits : List (List F)) (htext : request.committed s.locals = text ++ [s.locals.next])
    (hpast : s.locals.past = text.length) :
    request.StatefulAbsorbed (request.statefulPlain s logits) ↔ s.vars.Hold text :=
  absorbed_forward_iff rfl htext (congrArg Nat.succ hpast)

/-- The speculative step from a state that has absorbed the text before `next`. -/
theorem statefulVerify_absorbed_iff (s : StatefulState F Piece) {text drafts : List Token}
    (htext : request.committed s.locals = text ++ [s.locals.next])
    (hpast : s.locals.past = text.length) (hvars : s.vars.Hold text)
    (hagain : request.statefulVerify s drafts answers = .again next) :
    request.StatefulAbsorbed next ↔ (request.RollsBack s drafts answers →
      ∀ i, answers.throwsAt = some i → s.vars.length ≤ i) := by
  unfold statefulVerify Variables.snapshotTensors at hagain
  by_cases hcopied : answers.copied = true
  · rw [if_pos hcopied] at hagain
    dsimp only at hagain
    have hrestored := Variables.hold_restored_iff (List.cons_ne_nil s.locals.next drafts) hvars
      answers.throwsAt
    split at hagain
    next hshort =>
      cases hagain
      have hrolls : request.RollsBack s drafts answers := ⟨hcopied, .inl hshort⟩
      refine Iff.trans (statefulPlain_absorbed_iff _ _ htext hpast) (hrestored.trans ?_)
      exact ⟨fun h _ => h, fun h => h hrolls⟩
    next henough =>
      split at hagain
      next => cases hagain
      next hstop =>
        cases hagain
        obtain ⟨n, hle, haccepted, hafter⟩ := request.acceptDrafts_committed _ _ _ _ _ hstop
        rw [Nat.zero_add] at haccepted
        have hkept : request.committed (request.acceptDrafts answers.verifyLogits s.locals.past 0
            drafts s.locals).state = text ++ (s.locals.next :: drafts).take (1 + n) := by
          rw [hafter, htext, List.append_assoc, Nat.add_comm]
          rfl
        have hlength : ((s.locals.next :: drafts).take (1 + n)).length = 1 + n := by
          rw [List.length_take, List.length_cons]
          omega
        have hmoved : s.locals.past + 1 + n =
            text.length + ((s.locals.next :: drafts).take (1 + n)).length := by
          rw [hlength, hpast, Nat.add_assoc]
        rw [haccepted]
        by_cases hrejects : n < drafts.length
        · have hrolls : request.RollsBack s drafts answers :=
            ⟨hcopied, .inr ⟨hstop, haccepted ▸ hrejects⟩⟩
          refine (absorbed_forward_iff (if_pos hrejects) hkept hmoved).trans (hrestored.trans ?_)
          exact ⟨fun h _ => h, fun h => h hrolls⟩
        · have hcalm : ¬ request.RollsBack s drafts answers := by
            rintro ⟨_, hshort | ⟨_, hless⟩⟩
            · exact henough hshort
            · exact hrejects (haccepted ▸ hless)
          have hall : (s.locals.next :: drafts).take (1 + n) = s.locals.next :: drafts := by
            apply List.take_of_length_le
            rw [List.length_cons]
            omega
          rw [hall] at hkept hmoved
          refine (absorbed_forward_iff (if_neg hrejects) hkept hmoved).trans ?_
          exact ⟨fun _ h => absurd h hcalm, fun _ => hvars⟩
  · rw [if_neg hcopied] at hagain
    cases hagain
    have hcalm : ¬ request.RollsBack s drafts answers := fun h => hcopied h.1
    refine (statefulPlain_absorbed_iff (withoutDrafts s) _ htext hpast).trans ?_
    exact ⟨fun _ h => absurd h hcalm, fun _ => hvars⟩

/-- A pass from a head that has absorbed its text. -/
theorem statefulPass_absorbed_iff (hs : request.StatefulAbsorbed s)
    (hagain : request.statefulPass s answers = .again next) :
    request.StatefulAbsorbed next ↔ request.WriteBackHolds s answers := by
  unfold statefulPass at hagain
  split at hagain
  next => cases hagain
  next =>
    dsimp only at hagain
    split at hagain
    next =>
      split at hagain
      next hempty =>
        cases hagain
        have hcalm : ¬ request.WritesBack s answers :=
          fun h => h.1 (List.isEmpty_iff.mp hempty)
        refine (statefulPlain_absorbed_iff ⟨_, s.vars⟩ _ (request.committed_commit _ _)
          hs.past).trans ?_
        exact ⟨fun _ h => absurd h hcalm, fun _ => hs.vars⟩
      next hdrafts =>
        refine (statefulVerify_absorbed_iff ⟨_, s.vars⟩ (request.committed_commit _ _) hs.past
          hs.vars hagain).trans ?_
        exact ⟨fun h hwrites => h hwrites.2,
          fun h hrolls => h ⟨fun hnil => hdrafts (List.isEmpty_iff.mpr hnil), hrolls⟩⟩
    next => cases hagain

/-! ## Every run -/

omit [FloatOps F] in
theorem statefulStart_hold (vars : Variables) (hit : Option (PrefixHit request.prompt)) :
    (request.statefulStart vars hit).Hold
      (request.prompt.take ((hit.map PrefixHit.matched).getD 0)) := by
  intro held hheld
  cases hit with
  | none =>
      obtain ⟨_, _, rfl⟩ := List.mem_map.mp hheld
      rfl
  | some hit =>
      obtain ⟨_, _, rfl⟩ := List.mem_map.mp hheld
      rfl

omit [FloatOps F] in
theorem statefulPrefillLoop_hold (grid : PrefillGrid) {fuel past : Nat} {vars : Variables}
    (hle : past ≤ request.prompt.length) (hfuel : request.prompt.length ≤ past + fuel)
    (hvars : vars.Hold (request.prompt.take past)) :
    (request.statefulPrefillLoop grid fuel past vars).Hold request.prompt := by
  induction fuel generalizing past vars with
  | zero => rwa [List.take_of_length_le (show _ ≤ past from hfuel)] at hvars
  | succ fuel ih =>
      unfold statefulPrefillLoop
      dsimp only
      split
      next hlt =>
        have hpos := grid.toEdge_pos hlt
        have hedge := grid.add_toEdge_le hlt
        refine ih hedge (by omega) ?_
        rw [List.take_add]
        exact hvars.forward _
      next hge =>
        rwa [List.take_of_length_le (Nat.le_of_not_lt hge)] at hvars

/-- The first head has absorbed the prompt. -/
theorem statefulPrefill_absorbed {grid : PrefillGrid} {vars : Variables} {rng : Nat}
    {hit : Option (PrefixHit request.prompt)} {logits : List (List F)}
    (hprefill : request.statefulPrefill grid vars rng hit logits = some s) :
    request.StatefulAbsorbed s := by
  unfold statefulPrefill at hprefill
  split at hprefill
  next => cases hprefill
  next =>
    cases hprefill
    have hstart : (hit.map PrefixHit.matched).getD 0 ≤ request.prompt.length := by
      cases hit with
      | none => exact Nat.zero_le _
      | some hit => exact hit.lt.le
    have hvars := statefulPrefillLoop_hold grid hstart (Nat.le_add_left _ _)
      (statefulStart_hold vars hit)
    refine ⟨?_, ?_⟩
    · intro held hheld
      exact (hvars held hheld).trans (List.append_nil _).symm
    · exact (congrArg List.length (List.append_nil request.prompt)).symm

/-- At every head of the stateful decode loop the state has absorbed the prompt and the
emitted tokens, exactly when no write-back fails after which the loop goes on. -/
theorem stateful_absorbed_iff {grid : PrefillGrid} {vars : Variables} {rng : Nat}
    {hit : Option (PrefixHit request.prompt)} {logits : List (List F)}
    {head last : StatefulState F Piece} {answers : List (PassAnswers F)}
    (hprefill : request.statefulPrefill grid vars rng hit logits = some head)
    (hrun : request.statefulMachine.run head answers = some last) :
    (request.statefulMachine.Meets (fun s _ => request.StatefulAbsorbed s) head answers ∧
        request.StatefulAbsorbed last) ↔
      request.statefulMachine.Meets request.WriteBackHolds head answers := by
  refine Machine.meets_iff_of_step (fun s answers next hs hstep => ?_)
    (statefulPrefill_absorbed hprefill) hrun
  dsimp only [statefulMachine] at hstep
  split at hstep
  next hagain =>
    cases hstep
    exact statefulPass_absorbed_iff hs hagain
  next => cases hstep

end Request

/-- A head over two variables, whose prefill picked token 1. -/
def twoVariables : StatefulState Int Unit :=
  (oneRowRequest.statefulPrefill ⟨0, 0, false⟩ [[9], [9]] 0 none [[0, 1]]).get rfl

/-- A pass that proposes token 2 and rejects it. -/
def rejectedDraft (throwsAt : Option Nat) : PassAnswers Int :=
  ⟨-1, [2], true, throwsAt, [[0, 1]], [[0, 1], [0, 1]], [[0, 1]]⟩

/-- With every variable written back the loop goes on from its text. -/
theorem stateful_absorbed_iff_rejectedDraft :
    ∃ last, oneRowRequest.statefulMachine.run twoVariables [rejectedDraft none] = some last ∧
      last.vars = [[4, 4, 1], [4, 4, 1]] ∧
      ((oneRowRequest.statefulMachine.Meets (fun s _ => oneRowRequest.StatefulAbsorbed s)
          twoVariables [rejectedDraft none] ∧ oneRowRequest.StatefulAbsorbed last) ↔
        oneRowRequest.statefulMachine.Meets oneRowRequest.WriteBackHolds twoVariables
          [rejectedDraft none]) := by
  refine ⟨_, rfl, rfl, ?_⟩
  exact @Request.stateful_absorbed_iff Int Unit _ oneRowRequest ⟨0, 0, false⟩ [[9], [9]] 0 none
    [[0, 1]] twoVariables _ [rejectedDraft none] rfl rfl

/-- A write-back that throws at the second variable leaves the rejected draft in it. -/
theorem stateful_keeps_rejectedDraft :
    oneRowRequest.statefulPrefill ⟨0, 0, false⟩ [[9], [9]] 0 none [[0, 1]] = some twoVariables ∧
      ∃ last, oneRowRequest.statefulMachine.run twoVariables [rejectedDraft (some 1)] = some last ∧
        last.locals.emittedTokens = [1] ∧ last.vars = [[4, 4, 1], [4, 4, 1, 2, 1]] ∧
        ¬ oneRowRequest.StatefulAbsorbed last := by
  have hout : (oneRowRequest.statefulMachine.run twoVariables [rejectedDraft (some 1)]).map
      (fun s => (s.locals.emittedTokens, s.vars)) = some ([1], [[4, 4, 1], [4, 4, 1, 2, 1]]) := rfl
  obtain ⟨last, hrun, hlast⟩ := Option.map_eq_some_iff.mp hout
  obtain ⟨hemitted, hvars⟩ := Prod.mk.inj hlast
  refine ⟨rfl, last, hrun, hemitted, hvars, fun h => ?_⟩
  have hheld := h.vars [4, 4, 1, 2, 1] (by simp [hvars])
  rw [Request.committed, hemitted] at hheld
  exact absurd hheld (by decide)

end Arcint.Decode
