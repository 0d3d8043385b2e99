import Arcint.Core.Turnstile
import Arcint.Foundation.Machine
import Arcint.Ngram.Context

/-! # The staging window of the n-gram table

In staging mode the table stays on disk and one window of rows is bound to every
lane's request. A forward fills the window with the rows its own feed named, and
only then asks for its turn on the device. The turn makes inferences exclusive;
it does not cover the fill, so another lane's feed can replace the rows of a
lane that has fed and not yet inferred.
-/

namespace Arcint.Ngram

open Arcint.Core Foundation Decode

/-- The window's row count, the row width, and the row count of the table. -/
structure StagingGeometry where
  stagingRows : Nat
  rowBytes : Nat
  tableRows : Nat
  deriving DecidableEq, Repr

/-- The reasons a fill throws with. -/
inductive StagingError where
  | tooManyRows (named holds : Nat)
  | rowOutside (id : Int) (tableRows : Nat)
  | shortRead (rowBytes offset : Nat) (returned : Int) (row : Nat)
  deriving DecidableEq, Repr

def StagingError.message : StagingError → String
  | .tooManyRows named holds =>
      "ngram staging: this forward names " ++ toString named ++ " rows, the staging port holds " ++
        toString holds ++ " (T x heads overruns its static bound)"
  | .rowOutside id tableRows =>
      "ngram staging: row id " ++ toString id ++ " is outside the " ++ toString tableRows ++
        "-row table; refusing rather than gathering from the wrong row"
  | .shortRead rowBytes offset returned row =>
      "ngram staging: read of " ++ toString rowBytes ++ " bytes at offset " ++ toString offset ++
        " returned " ++ toString returned ++ " (row " ++ toString row ++ ")"

/-- One row of the window or of the table. -/
abbrev Row (g : StagingGeometry) := Fin g.rowBytes → UInt8

/-- Row `r` of the table payload in the file. -/
def tableRow (g : StagingGeometry) (file : Nat → UInt8) (base r : Nat) : Row g :=
  fun j => file (base + r * g.rowBytes + j)

/-- The loop of `plan_staging_fill` from slot `i` on: slot ids and table rows. -/
def planRows (g : StagingGeometry) : Nat → List Int → Except StagingError (List Int × List Nat)
  | _, [] => .ok ([], [])
  | i, id :: rest =>
      if id < 0 ∨ (g.tableRows : Int) ≤ id then .error (.rowOutside id g.tableRows)
      else
        match planRows g (i + 1) rest with
        | .error e => .error e
        | .ok (slots, rows) => .ok ((i : Int) :: slots, id.toNat :: rows)

/-- `plan_staging_fill`: refuses before any bytes move. -/
def planStagingFill (g : StagingGeometry) (ids : List Int) :
    Except StagingError (List Int × List Nat) :=
  if g.stagingRows < ids.length then .error (.tooManyRows ids.length g.stagingRows)
  else planRows g 0 ids

/-- The `pread` loop of one row at offset `off`, with `done` bytes in place.
Each entry of `answers` is what one call returned; zero or less is an error, and
so is a call without an answer. The answers not used are returned with a
complete row. -/
def preadRow (g : StagingGeometry) (file : Nat → UInt8) (off : Nat) :
    List Int → Nat → Row g → Row g × Except Int (List Int)
  | [], done, slot => (slot, if done < g.rowBytes then .error 0 else .ok [])
  | n :: rest, done, slot =>
      if done < g.rowBytes then
        if n ≤ 0 then (slot, .error n)
        else
          let upTo := min (done + n.toNat) g.rowBytes
          preadRow g file off rest upTo
            (fun j => if done ≤ j ∧ j < upTo then file (off + j) else slot j)
      else (slot, .ok (n :: rest))

/-- `pread_staging_rows` from slot `i` on. The window keeps what was read before
an error. -/
def preadStagingRows (g : StagingGeometry) (file : Nat → UInt8) (base : Nat) :
    Nat → List Nat → List Int → (Nat → Row g) → (Nat → Row g) × Option StagingError
  | _, [], _, window => (window, none)
  | i, row :: rows, answers, window =>
      let off := base + row * g.rowBytes
      match preadRow g file off answers 0 (window i) with
      | (slot, .error n) =>
          (Function.update window i slot, some (.shortRead g.rowBytes off n row))
      | (slot, .ok rest) =>
          preadStagingRows g file base (i + 1) rows rest (Function.update window i slot)

/-! ## What a fill leaves -/

section Fill

variable {g : StagingGeometry} {file : Nat → UInt8}

theorem preadRow_ok {off : Nat} {answers rest : List Int} {done : Nat} {slot slot' : Row g}
    (hdone : ∀ j : Fin g.rowBytes, (j : Nat) < done → slot j = file (off + j))
    (hread : preadRow g file off answers done slot = (slot', .ok rest)) :
    slot' = fun j : Fin g.rowBytes => file (off + j) := by
  induction answers generalizing done slot with
  | nil =>
      unfold preadRow at hread
      split at hread
      next => cases hread
      next hge =>
        cases hread
        funext j
        exact hdone j (Nat.lt_of_lt_of_le j.isLt (Nat.le_of_not_lt hge))
  | cons n answers ih =>
      unfold preadRow at hread
      split at hread
      next =>
        split at hread
        next => cases hread
        next =>
          refine ih ?_ hread
          intro j hj
          split
          next => rfl
          next hout =>
            apply hdone
            omega
      next hge =>
        cases hread
        funext j
        exact hdone j (Nat.lt_of_lt_of_le j.isLt (Nat.le_of_not_lt hge))

theorem planRows_ok {i : Nat} {ids slots : List Int} {rows : List Nat}
    (hplan : planRows g i ids = .ok (slots, rows)) :
    slots = (List.range' i ids.length).map Int.ofNat ∧ rows = ids.map Int.toNat ∧
      ∀ id ∈ ids, 0 ≤ id ∧ id < g.tableRows := by
  induction ids generalizing i slots rows with
  | nil =>
      cases hplan
      exact ⟨rfl, rfl, fun id hid => absurd hid List.not_mem_nil⟩
  | cons id ids ih =>
      unfold planRows at hplan
      split at hplan
      next => cases hplan
      next hinside =>
        split at hplan
        next => cases hplan
        next hrest =>
          cases hplan
          obtain ⟨hslots, hrows, hall⟩ := ih hrest
          refine ⟨?_, ?_, ?_⟩
          · rw [hslots, List.length_cons, List.range'_succ, List.map_cons]
            rfl
          · rw [hrows, List.map_cons]
          · intro other hother
            rcases List.mem_cons.mp hother with rfl | hlater
            · omega
            · exact hall other hlater

theorem planStagingFill_nil {slots : List Int} {rows : List Nat}
    (hplan : planStagingFill g [] = .ok (slots, rows)) : slots = [] ∧ rows = [] := by
  cases hplan
  exact ⟨rfl, rfl⟩

/-- A complete fill puts row `k` of the plan into slot `i + k` and leaves the
slots before `i` alone. -/
theorem preadStagingRows_ok {base i : Nat} {rows : List Nat} {answers : List Int}
    {window window' : Nat → Row g}
    (hread : preadStagingRows g file base i rows answers window = (window', none)) :
    (∀ k (hk : k < rows.length), window' (i + k) = tableRow g file base rows[k]) ∧
      ∀ slot < i, window' slot = window slot := by
  induction rows generalizing i answers window with
  | nil =>
      cases hread
      exact ⟨fun k hk => absurd hk (Nat.not_lt_zero k), fun _ _ => rfl⟩
  | cons row rows ih =>
      unfold preadStagingRows at hread
      dsimp only at hread
      split at hread
      next => cases hread
      next slot rest hrow =>
        have hslot := preadRow_ok (fun j hj => absurd hj (Nat.not_lt_zero _)) hrow
        obtain ⟨hlater, hbefore⟩ := ih hread
        refine ⟨?_, ?_⟩
        · intro k hk
          cases k with
          | zero =>
              rw [Nat.add_zero, hbefore i (Nat.lt_succ_self i), Function.update_self, hslot]
              rfl
          | succ k =>
              have hnext := hlater k (Nat.lt_of_succ_lt_succ hk)
              rw [Nat.add_assoc, Nat.add_comm 1 k] at hnext
              exact hnext
        · intro s hs
          rw [hbefore s (Nat.lt_succ_of_lt hs), Function.update_of_ne (Nat.ne_of_lt hs)]

end Fill

/-! ## Lanes on one window -/

/-- The rows a feed asked for and the slots it told the graph to gather. -/
structure Plan where
  globalIds : List Int
  localIds : List Int
  deriving DecidableEq, Repr

/-- Where a lane is in `paged_forward`. -/
inductive Phase where
  | idle
  | fed (plan : Plan)
  | waiting (ticket : Nat) (plan : Plan)
  | holding (ticket : Nat) (plan : Plan)
  | inferred (ticket : Nat)
  deriving DecidableEq, Repr

/-- The plan of a lane that has fed and not yet inferred. -/
def Phase.pending : Phase → Option Plan
  | .fed plan | .waiting _ plan | .holding _ plan => some plan
  | .idle | .inferred _ => none

def Phase.ticket : Phase → Option Nat
  | .waiting ticket _ | .holding ticket _ | .inferred ticket => some ticket
  | .idle | .fed _ => none

def Phase.holds : Phase → Prop
  | .holding _ _ | .inferred _ => True
  | .idle | .fed _ | .waiting _ _ => False

/-- What is fixed at load: the hash, the geometry, and the table file. -/
structure Staging where
  hash : HashParams
  geometry : StagingGeometry
  file : Nat → UInt8
  base : Nat

/-- The lanes, the one window bound to all of them, and the turnstile. -/
structure StagingSystem (L : Type) (g : StagingGeometry) where
  gate : Turnstile
  window : Nat → Row g
  ngram : L → NgramLane
  phase : L → Phase

/-- One step of one lane. A feed comes with what its `pread` calls returned. -/
inductive StagingEvent (L : Type) where
  | feed (lane : L) (past : Nat) (tokens answers : List Int)
  | take (lane : L)
  | wake (lane : L)
  | infer (lane : L)
  | release (lane : L)
  deriving DecidableEq, Repr

namespace Staging

variable {L : Type} [DecidableEq L] (staging : Staging)

/-- `feed_ngram_ports` in staging mode. The context is carried only when the
fill went through, and the lane stays idle when anything threw. -/
def feedLane (s : StagingSystem L staging.geometry) (lane : L) (past : Nat)
    (tokens answers : List Int) : StagingSystem L staging.geometry :=
  let before := { s.ngram lane with ngramCtx := contextAt staging.hash (s.ngram lane) past }
  match feed staging.hash (s.ngram lane) past tokens with
  | (after, .error _) => { s with ngram := Function.update s.ngram lane after }
  | (after, .ok ids) =>
      match planStagingFill staging.geometry ids with
      | .error _ => { s with ngram := Function.update s.ngram lane before }
      | .ok (slots, rows) =>
          match preadStagingRows staging.geometry staging.file staging.base 0 rows answers
              s.window with
          | (window, some _) =>
              { s with window := window, ngram := Function.update s.ngram lane before }
          | (window, none) =>
              { s with
                window := window
                ngram := Function.update s.ngram lane after
                phase := Function.update s.phase lane (.fed ⟨ids, slots⟩) }

/-- One step; `none` when the lane is not where the step starts. -/
def stepSystem (s : StagingSystem L staging.geometry) :
    StagingEvent L → Option (StagingSystem L staging.geometry)
  | .feed lane past tokens answers =>
      match s.phase lane with
      | .idle => some (staging.feedLane s lane past tokens answers)
      | _ => none
  | .take lane =>
      match s.phase lane with
      | .fed plan => some { s with
          gate := s.gate.issue.2
          phase := Function.update s.phase lane (.waiting s.gate.issue.1 plan) }
      | _ => none
  | .wake lane =>
      match s.phase lane with
      | .waiting ticket plan =>
          if s.gate.serves ticket then
            some { s with phase := Function.update s.phase lane (.holding ticket plan) }
          else none
      | _ => none
  | .infer lane =>
      match s.phase lane with
      | .holding ticket _ =>
          some { s with phase := Function.update s.phase lane (.inferred ticket) }
      | _ => none
  | .release lane =>
      match s.phase lane with
      | .inferred _ => some { s with
          gate := s.gate.release
          phase := Function.update s.phase lane .idle }
      | _ => none

def machine : Machine (StagingSystem L staging.geometry) (StagingEvent L) :=
  ⟨staging.stepSystem⟩

/-- All lanes idle on a fresh turnstile; whatever the window and the lanes hold. -/
def fresh (window : Nat → Row staging.geometry) (ngram : L → NgramLane) :
    StagingSystem L staging.geometry :=
  ⟨⟨0, 0⟩, window, ngram, fun _ => .idle⟩

/-- Slot `localIds[i]` of the window holds table row `globalIds[i]`, for every `i`. -/
def Intact (s : StagingSystem L staging.geometry) (plan : Plan) : Prop :=
  plan.localIds.length = plan.globalIds.length ∧
    ∀ (i : Nat) (slot id : Int), plan.localIds[i]? = some slot → plan.globalIds[i]? = some id →
      0 ≤ id ∧ id < staging.geometry.tableRows ∧
        s.window slot.toNat = tableRow staging.geometry staging.file staging.base id.toNat

/-- The feed gets as far as moving bytes into the window. -/
def Fills (s : StagingSystem L staging.geometry) (lane : L) (past : Nat) (tokens : List Int) :
    Prop :=
  ∃ ids plan, (feed staging.hash (s.ngram lane) past tokens).2 = .ok ids ∧
    planStagingFill staging.geometry ids = .ok plan ∧ ids ≠ []

/-- No feed moves bytes while another lane is between its feed and its infer. -/
def Undisturbed (s : StagingSystem L staging.geometry) : StagingEvent L → Prop
  | .feed lane past tokens _ =>
      staging.Fills s lane past tokens → ∀ other, other ≠ lane → (s.phase other).pending = none
  | _ => True

/-! ## One step -/

omit [DecidableEq L] in
/-- A complete fill leaves the plan intact. -/
theorem intact_of_fill {s : StagingSystem L staging.geometry} {ids slots answers : List Int}
    {rows : List Nat} {window : Nat → Row staging.geometry}
    (hplan : planStagingFill staging.geometry ids = .ok (slots, rows))
    (hread : preadStagingRows staging.geometry staging.file staging.base 0 rows answers
      window = (s.window, none)) : staging.Intact s ⟨ids, slots⟩ := by
  unfold planStagingFill at hplan
  split at hplan
  next => cases hplan
  next =>
    obtain ⟨rfl, rfl, hinside⟩ := planRows_ok hplan
    obtain ⟨hfilled, _⟩ := preadStagingRows_ok hread
    refine ⟨by simp, ?_⟩
    intro i slot id hslot hid
    obtain ⟨hi, rfl⟩ := List.getElem?_eq_some_iff.mp hid
    obtain ⟨hi', rfl⟩ := List.getElem?_eq_some_iff.mp hslot
    refine ⟨(hinside _ (List.getElem_mem hi)).1, (hinside _ (List.getElem_mem hi)).2, ?_⟩
    have hrow := hfilled i (by simpa using hi)
    simpa using hrow

/-- What a feed can do: refuse, stop in the middle of its fill, or complete it. -/
theorem feedLane_cases (s : StagingSystem L staging.geometry) (lane : L) (past : Nat)
    (tokens answers : List Int) {after : StagingSystem L staging.geometry}
    (hafter : staging.feedLane s lane past tokens answers = after) :
    after.gate = s.gate ∧
      (after.window = s.window ∨ staging.Fills s lane past tokens) ∧
      (after.phase = s.phase ∨
        ∃ plan, after.phase = Function.update s.phase lane (.fed plan) ∧
          staging.Intact after plan) := by
  subst hafter
  unfold feedLane
  dsimp only
  split
  next => exact ⟨rfl, .inl rfl, .inl rfl⟩
  next ids hfeed =>
    split
    next => exact ⟨rfl, .inl rfl, .inl rfl⟩
    next slots rows hplan =>
      -- A feed of no rows plans none, and then its fill moves nothing.
      have hmoves : ∀ window failure, preadStagingRows staging.geometry staging.file staging.base 0
          rows answers s.window = (window, failure) →
            window = s.window ∨ staging.Fills s lane past tokens := by
        intro window failure hread
        by_cases hnil : ids = []
        · subst hnil
          obtain rfl : rows = [] := (planStagingFill_nil hplan).2
          cases hread
          exact .inl rfl
        · exact .inr ⟨ids, _, by rw [hfeed], hplan, hnil⟩
      split
      next window failure hread => exact ⟨rfl, hmoves window _ hread, .inl rfl⟩
      next window hread =>
        refine ⟨rfl, hmoves window _ hread, .inr ⟨⟨ids, slots⟩, rfl, ?_⟩⟩
        exact staging.intact_of_fill hplan hread

/-- Every plan of a lane that has fed and not yet inferred is intact. -/
def AllIntact (s : StagingSystem L staging.geometry) : Prop :=
  ∀ lane plan, (s.phase lane).pending = some plan → staging.Intact s plan

omit [DecidableEq L] in
theorem Intact.of_window {s t : StagingSystem L staging.geometry} {plan : Plan}
    (h : staging.Intact s plan) (hwindow : t.window = s.window) : staging.Intact t plan := by
  unfold Intact
  rw [hwindow]
  exact h

/-- Moving one lane to a phase with no plan of its own, or with the plan it
already had, keeps the others' plans. -/
theorem allIntact_update {s t : StagingSystem L staging.geometry} {lane : L} {phase : Phase}
    (hs : staging.AllIntact s) (hwindow : t.window = s.window)
    (hphase : t.phase = Function.update s.phase lane phase)
    (hplan : ∀ plan, phase.pending = some plan → (s.phase lane).pending = some plan) :
    staging.AllIntact t := by
  intro other plan hpending
  refine Intact.of_window staging ?_ hwindow
  rw [hphase] at hpending
  by_cases hsame : other = lane
  · subst hsame
    rw [Function.update_self] at hpending
    exact hs other plan (hplan plan hpending)
  · rw [Function.update_of_ne hsame] at hpending
    exact hs other plan hpending

theorem feedLane_allIntact {s : StagingSystem L staging.geometry} {lane : L} {past : Nat}
    {tokens answers : List Int} (hs : staging.AllIntact s) (hidle : s.phase lane = .idle)
    (hallowed : staging.Undisturbed s (.feed lane past tokens answers)) :
    staging.AllIntact (staging.feedLane s lane past tokens answers) := by
  obtain ⟨_, hwindow, hphase⟩ := staging.feedLane_cases s lane past tokens answers rfl
  have hothers : ∀ other plan, other ≠ lane → (s.phase other).pending = some plan →
      staging.Intact (staging.feedLane s lane past tokens answers) plan := by
    intro other plan hne hpending
    rcases hwindow with hsame | hfills
    · exact Intact.of_window staging (hs other plan hpending) hsame
    · rw [hallowed hfills other hne] at hpending
      cases hpending
  intro other plan hpending
  by_cases hsame : other = lane
  · subst hsame
    rcases hphase with hkept | ⟨own, hfed, hintact⟩
    · rw [hkept, hidle] at hpending
      cases hpending
    · rw [hfed, Function.update_self] at hpending
      cases hpending
      exact hintact
  · refine hothers other plan hsame ?_
    rcases hphase with hkept | ⟨own, hfed, _⟩
    · rw [hkept] at hpending
      exact hpending
    · rw [hfed, Function.update_of_ne hsame] at hpending
      exact hpending

/-- What one step can do. -/
theorem stepSystem_cases {s next : StagingSystem L staging.geometry} {event : StagingEvent L}
    (hstep : staging.stepSystem s event = some next) :
    (∃ lane past tokens answers, event = .feed lane past tokens answers ∧
        s.phase lane = .idle ∧ next = staging.feedLane s lane past tokens answers) ∨
      (∃ lane plan, s.phase lane = .fed plan ∧ next = { s with
        gate := s.gate.issue.2
        phase := Function.update s.phase lane (.waiting s.gate.issue.1 plan) }) ∨
      (∃ lane ticket plan, s.phase lane = .waiting ticket plan ∧ s.gate.serves ticket = true ∧
        next = { s with phase := Function.update s.phase lane (.holding ticket plan) }) ∨
      (∃ lane ticket plan, s.phase lane = .holding ticket plan ∧
        next = { s with phase := Function.update s.phase lane (.inferred ticket) }) ∨
      ∃ lane ticket, s.phase lane = .inferred ticket ∧ next = { s with
        gate := s.gate.release
        phase := Function.update s.phase lane .idle } := by
  cases event with
  | feed lane past tokens answers =>
      simp only [stepSystem] at hstep
      split at hstep
      next hphase =>
        cases hstep
        exact .inl ⟨lane, past, tokens, answers, rfl, hphase, rfl⟩
      next => cases hstep
  | take lane =>
      simp only [stepSystem] at hstep
      split at hstep
      next plan hphase =>
        cases hstep
        exact .inr (.inl ⟨lane, plan, hphase, rfl⟩)
      next => cases hstep
  | wake lane =>
      simp only [stepSystem] at hstep
      split at hstep
      next ticket plan hphase =>
        split at hstep
        next hserves =>
          cases hstep
          exact .inr (.inr (.inl ⟨lane, ticket, plan, hphase, hserves, rfl⟩))
        next => cases hstep
      next => cases hstep
  | infer lane =>
      simp only [stepSystem] at hstep
      split at hstep
      next ticket plan hphase =>
        cases hstep
        exact .inr (.inr (.inr (.inl ⟨lane, ticket, plan, hphase, rfl⟩)))
      next => cases hstep
  | release lane =>
      simp only [stepSystem] at hstep
      split at hstep
      next ticket hphase =>
        cases hstep
        exact .inr (.inr (.inr (.inr ⟨lane, ticket, hphase, rfl⟩)))
      next => cases hstep

theorem step_allIntact {s next : StagingSystem L staging.geometry} {event : StagingEvent L}
    (hs : staging.AllIntact s) (hallowed : staging.Undisturbed s event)
    (hstep : staging.machine.step s event = some next) : staging.AllIntact next := by
  obtain ⟨lane, past, tokens, answers, rfl, hidle, rfl⟩ | ⟨lane, plan, hphase, rfl⟩ |
    ⟨lane, ticket, plan, hphase, _, rfl⟩ | ⟨lane, ticket, plan, hphase, rfl⟩ |
    ⟨lane, ticket, hphase, rfl⟩ := staging.stepSystem_cases hstep
  · exact staging.feedLane_allIntact hs hidle hallowed
  · refine staging.allIntact_update hs rfl rfl (fun own hown => ?_)
    rw [hphase]
    exact hown
  · refine staging.allIntact_update hs rfl rfl (fun own hown => ?_)
    rw [hphase]
    exact hown
  · exact staging.allIntact_update hs rfl rfl (fun own hown => by cases hown)
  · exact staging.allIntact_update hs rfl rfl (fun own hown => by cases hown)

/-- The tickets of the lanes. -/
def HoldsTickets (s : StagingSystem L staging.geometry) : Prop :=
  s.gate.Tickets (fun lane => (s.phase lane).ticket) (fun lane => (s.phase lane).holds)

theorem step_holdsTickets {s next : StagingSystem L staging.geometry} {event : StagingEvent L}
    (hs : staging.HoldsTickets s) (hstep : staging.machine.step s event = some next) :
    staging.HoldsTickets next := by
  have hticket : ∀ lane phase caller, (Function.update s.phase lane phase caller).ticket =
      Function.update (fun other => (s.phase other).ticket) lane phase.ticket caller := by
    intro lane phase caller
    exact Function.apply_update (fun _ => Phase.ticket) s.phase lane phase caller
  have hkeep : ∀ lane ticket, (s.phase lane).ticket = ticket →
      Function.update (fun other => (s.phase other).ticket) lane ticket =
        fun other => (s.phase other).ticket := by
    rintro lane ticket rfl
    exact Function.update_eq_self lane _
  have hholds : ∀ lane phase caller, (Function.update s.phase lane phase caller).holds →
      (phase.holds ∧ caller = lane) ∨ ((s.phase caller).holds ∧ caller ≠ lane) := by
    intro lane phase caller hcaller
    by_cases hsame : caller = lane
    · subst hsame
      rw [Function.update_self] at hcaller
      exact .inl ⟨hcaller, rfl⟩
    · rw [Function.update_of_ne hsame] at hcaller
      exact .inr ⟨hcaller, hsame⟩
  obtain ⟨lane, past, tokens, answers, rfl, hidle, rfl⟩ | ⟨lane, plan, hphase, rfl⟩ |
    ⟨lane, ticket, plan, hphase, hserves, rfl⟩ | ⟨lane, ticket, plan, hphase, rfl⟩ |
    ⟨lane, ticket, hphase, rfl⟩ := staging.stepSystem_cases hstep
  · obtain ⟨hgate, _, hphase⟩ := staging.feedLane_cases s lane past tokens answers rfl
    show (staging.feedLane s lane past tokens answers).gate.Tickets _ _
    rw [hgate]
    rcases hphase with hkept | ⟨plan, hfed, _⟩
    · rw [hkept]
      exact hs
    · rw [hfed]
      refine hs.congr (fun caller => (hticket lane _ caller).trans ?_) (fun caller hcaller => ?_)
      · rw [hkeep lane _ (by rw [hidle]; rfl)]
      · rcases hholds lane _ caller hcaller with ⟨hfalse, _⟩ | ⟨hother, _⟩
        · exact hfalse.elim
        · exact hother
  · have hnone : (s.phase lane).ticket = none := by
      rw [hphase]
      rfl
    refine (hs.issue hnone).congr (fun caller => hticket lane _ caller) (fun caller hcaller => ?_)
    rcases hholds lane _ caller hcaller with ⟨hfalse, _⟩ | ⟨hother, _⟩
    · exact hfalse.elim
    · exact hother
  · have hsome : (s.phase lane).ticket = some ticket := by
      rw [hphase]
      rfl
    refine (hs.wake hsome hserves).congr (fun caller => (hticket lane _ caller).trans ?_)
      (fun caller hcaller => ?_)
    · exact congrFun (hkeep lane _ hsome) caller
    · rcases hholds lane _ caller hcaller with ⟨_, hlane⟩ | ⟨hother, _⟩
      · exact .inr hlane
      · exact .inl hother
  · have hsome : (s.phase lane).ticket = some ticket := by
      rw [hphase]
      rfl
    refine hs.congr (fun caller => (hticket lane _ caller).trans ?_) (fun caller hcaller => ?_)
    · exact congrFun (hkeep lane _ hsome) caller
    · rcases hholds lane _ caller hcaller with ⟨_, rfl⟩ | ⟨hother, _⟩
      · rw [hphase]
        trivial
      · exact hother
  · have hlane : (s.phase lane).holds := by
      rw [hphase]
      trivial
    refine (hs.release hlane).congr (fun caller => hticket lane _ caller) (fun caller hcaller => ?_)
    rcases hholds lane _ caller hcaller with ⟨hfalse, _⟩ | hother
    · exact hfalse.elim
    · exact hother

/-! ## Whole runs -/

/-- The turn makes inferences exclusive: in every run at most one lane is
between its wake-up and its release. -/
theorem infer_exclusive (window : Nat → Row staging.geometry) (ngram : L → NgramLane)
    {events : List (StagingEvent L)} {s : StagingSystem L staging.geometry}
    (hrun : staging.machine.run (staging.fresh window ngram) events = some s) {a b : L}
    (ha : (s.phase a).holds) (hb : (s.phase b).holds) : a = b := by
  have hstart : staging.HoldsTickets (staging.fresh window ngram) := by
    refine ⟨Nat.le_refl 0, ?_, ?_, ?_⟩
    · intro caller t hticket
      cases hticket
    · intro a b t hticket
      cases hticket
    · intro caller hholds
      exact hholds.elim
  have hs : staging.HoldsTickets s := Machine.run_invariant_of_step
    (fun _ _ _ hinv hstep => staging.step_holdsTickets hinv hstep) hstart hrun
  exact hs.exclusive ha hb

/-- In every run in which no feed moves bytes while another lane is between its
feed and its infer, the window holds a lane's own rows whenever it infers. -/
theorem infer_reads_own_rows (window : Nat → Row staging.geometry) (ngram : L → NgramLane)
    (events : List (StagingEvent L)) {s : StagingSystem L staging.geometry}
    (hmeets : staging.machine.Meets staging.Undisturbed (staging.fresh window ngram) events)
    (hrun : staging.machine.run (staging.fresh window ngram) events = some s)
    (lane : L) {ticket : Nat} {plan : Plan} (hinfer : s.phase lane = .holding ticket plan) :
    staging.Intact s plan := by
  have hstart : staging.AllIntact (staging.fresh window ngram) := by
    intro other own hown
    cases hown
  have hs := Machine.run_invariant
    (fun _ _ _ hinv hallowed hstep => staging.step_allIntact hinv hallowed hstep)
    hstart hmeets hrun
  exact hs lane plan (by rw [hinfer]; rfl)

end Staging

/-- A window of two rows of one IQ4_NL block each. -/
def bigramStaging : Staging where
  hash := bigramHash
  geometry := ⟨2, 18, 1000⟩
  file off := UInt8.ofNat off
  base := 0

def newLane (lane : Bool) : NgramLane := ⟨if lane then 1 else 0, []⟩

/-- Two lanes that have served nothing. -/
def twoLanes : StagingSystem Bool bigramStaging.geometry :=
  bigramStaging.fresh (fun _ _ => 0) newLane

/-- The second lane feeds while the first one, which has fed, waits for its turn. -/
theorem infer_reads_other_rows :
    ∃ s, bigramStaging.machine.run twoLanes
        [.feed false 0 [1] [18], .feed true 0 [2] [18], .take false, .wake false] = some s ∧
      ∃ plan, s.phase false = .holding 0 plan ∧ ¬ bigramStaging.Intact s plan := by
  refine ⟨_, rfl, ⟨[1], [0]⟩, rfl, ?_⟩
  intro hintact
  have hrow := (hintact.2 0 0 1 rfl rfl).2.2
  exact absurd (congrFun hrow ⟨0, by decide⟩) (by decide)

/-- The second lane feeds once the first one has inferred. -/
def inTurn : List (StagingEvent Bool) :=
  [.feed false 0 [1] [18], .take false, .wake false, .infer false, .feed true 0 [2] [18],
    .release false, .take true, .wake true]

theorem inTurn_undisturbed :
    bigramStaging.machine.Meets bigramStaging.Undisturbed twoLanes inTurn := by
  refine ⟨fun _ _ _ => rfl, fun s hs => ⟨trivial, fun s' hs' => ⟨trivial, fun s'' hs'' =>
    ⟨trivial, fun last hlast => ⟨fun _ other hne => ?_, fun _ _ => ⟨trivial, fun _ _ =>
      ⟨trivial, fun _ _ => ⟨trivial, fun _ _ => trivial⟩⟩⟩⟩⟩⟩⟩⟩
  cases hs
  cases hs'
  cases hs''
  cases hlast
  cases other with
  | false => rfl
  | true => exact absurd rfl hne

theorem infer_reads_own_rows_in_turn :
    ∃ s, bigramStaging.machine.run twoLanes inTurn = some s ∧
      ∃ plan, s.phase true = .holding 1 plan ∧ bigramStaging.Intact s plan :=
  ⟨_, rfl, ⟨[2], [0]⟩, rfl, bigramStaging.infer_reads_own_rows (fun _ _ => 0) newLane
    inTurn inTurn_undisturbed rfl true rfl⟩

end Arcint.Ngram
