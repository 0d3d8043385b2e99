import Arcint.Core.Turnstile
import Arcint.Foundation.Machine
import Mathlib.Data.List.Nodup
import Mathlib.Data.Sum.Basic

/-! # Turns

A turn is an object: it is returned when its ticket is served, moved from place to place, and
releases its gate when it is destroyed or overwritten. The machine below interleaves the callers'
halves of `take` with every operation on turns, over any number of gates, threads and objects. The
tickets that a turn was granted under, and the three logs, are history; no step reads them.
-/

namespace Arcint.Core

open Foundation

/-- A turn; without a gate it has nothing to release. -/
structure Turn (G W : Type) where
  gate : Option G
  waited : W
  ticket : ℕ

/-- Tickets handed out so far. -/
def Turnstile.issued (gate : Turnstile) : ℕ := gate.nextTicket

/-- Turns completed so far. -/
def Turnstile.completed (gate : Turnstile) : ℕ := gate.nowServing

structure TurnSystem (G T O W : Type) where
  gate : G → Turnstile
  /-- The threads asleep in `take`, with their tickets. -/
  waiting : T → Option (G × ℕ)
  /-- The objects between their construction and their destruction. -/
  turn : O → Option (Turn G W)
  taken : G → List ℕ
  granted : G → List ℕ
  released : G → List ℕ

/-- The places of an operation: `other` is moved from, `this` is what it is called on. -/
inductive TurnEvent (G T O W : Type) where
  | construct (this : O)
  | take (thread : T) (this : O) (g : G)
  | wake (thread : T) (this : O) (waited : W)
  | moveConstruct (this other : O)
  | moveAssign (this other : O)
  | destroy (this : O)

namespace TurnSystem

variable {G T O W : Type} [DecidableEq G] [DecidableEq T] [DecidableEq O] [Zero W]

/-- `Turn()`. -/
def null : Turn G W := ⟨none, 0, 0⟩

/-- Nothing was asked for yet. -/
def fresh : TurnSystem G T O W where
  gate _ := ⟨0, 0⟩
  waiting _ := none
  turn _ := none
  taken _ := []
  granted _ := []
  released _ := []

/-- The gate of a turn, if it has one, is released. -/
def releaseTurn (s : TurnSystem G T O W) (turn : Turn G W) : TurnSystem G T O W :=
  match turn.gate with
  | none => s
  | some g =>
      { s with
        gate := Function.update s.gate g (s.gate g).release
        released := Function.update s.released g (s.released g ++ [turn.ticket]) }

/-- `take` returns. -/
def grant (s : TurnSystem G T O W) (this : O) (g : G) (waited : W) (mine : ℕ) :
    TurnSystem G T O W :=
  { s with
    turn := Function.update s.turn this (some ⟨some g, waited, mine⟩)
    granted := Function.update s.granted g (s.granted g ++ [mine]) }

/-- The first half of `take`: a ticket, and the turn at once when the ticket is served. -/
def take (s : TurnSystem G T O W) (thread : T) (this : O) (g : G) : TurnSystem G T O W :=
  let (mine, gate) := (s.gate g).issue
  let s :=
    { s with
      gate := Function.update s.gate g gate
      taken := Function.update s.taken g (s.taken g ++ [mine]) }
  if gate.serves mine then s.grant this g 0 mine
  else { s with waiting := Function.update s.waiting thread (some (g, mine)) }

/-- `operator=(Turn&&)`, on what the two places hold. -/
def assign (s : TurnSystem G T O W) (this other : O) (held given : Turn G W) :
    TurnSystem G T O W :=
  if this = other then s
  else
    let s := s.releaseTurn held
    { s with turn := Function.update (Function.update s.turn this (some given)) other (some null) }

/-- One step; `none` where the objects or the thread are not in a state for it. -/
def step (s : TurnSystem G T O W) : TurnEvent G T O W → Option (TurnSystem G T O W)
  | .construct this =>
      match s.turn this with
      | none => some { s with turn := Function.update s.turn this (some null) }
      | some _ => none
  | .take thread this g =>
      match s.waiting thread, s.turn this with
      | none, none => some (s.take thread this g)
      | _, _ => none
  | .wake thread this waited =>
      match s.waiting thread, s.turn this with
      | some (g, mine), none =>
          if (s.gate g).serves mine then
            some ({ s with waiting := Function.update s.waiting thread none }.grant this g waited
              mine)
          else none
      | _, _ => none
  | .moveConstruct this other =>
      match s.turn this, s.turn other with
      | none, some given => some (s.assign this other null given)
      | _, _ => none
  | .moveAssign this other =>
      match s.turn this, s.turn other with
      | some held, some given => some (s.assign this other held given)
      | _, _ => none
  | .destroy this =>
      match s.turn this with
      | some held =>
          some { s.releaseTurn held with turn := Function.update s.turn this none }
      | none => none

def machine : Machine (TurnSystem G T O W) (TurnEvent G T O W) := ⟨step⟩

end TurnSystem

/-! ## One gate -/

/-- What concerns one gate: who has which of its tickets, and its history. Threads have the tickets
they wait with, objects those they were granted under. -/
structure GateView (T O : Type) where
  gate : Turnstile
  ticket : T ⊕ O → Option ℕ
  taken : List ℕ
  granted : List ℕ
  released : List ℕ

namespace GateView

variable {T O : Type}

/-- The caller is an object, and its turn is not over. -/
def Live (v : GateView T O) (caller : T ⊕ O) : Prop :=
  caller.isRight = true ∧ (v.ticket caller).isSome = true

/-- Tickets are taken, granted and released in order, and each that is not released has its caller.
One ticket more is granted than released exactly while a turn is live. -/
structure Kept (v : GateView T O) : Prop where
  tickets : v.gate.Tickets v.ticket v.Live
  covered : ∀ n, v.gate.nowServing ≤ n → n < v.gate.nextTicket → ∃ caller, v.ticket caller = some n
  taken : v.taken = List.range v.gate.nextTicket
  released : v.released = List.range v.gate.nowServing
  granted : (∀ caller, ¬ v.Live caller) → v.granted = List.range v.gate.nowServing
  grantedLive : ∀ caller, v.Live caller → v.granted = List.range (v.gate.nowServing + 1)

variable {v : GateView T O}

/-- A live turn has the ticket that is served. -/
theorem Kept.live_iff (h : v.Kept) {this : O} {n : ℕ} (hticket : v.ticket (.inr this) = some n) :
    v.Live (.inr this) ∧ n = v.gate.nowServing := by
  have hlive : v.Live (.inr this) := ⟨rfl, by rw [hticket]; rfl⟩
  have hserved := h.tickets.served _ hlive
  rw [hticket, Option.some_inj] at hserved
  exact ⟨hlive, hserved⟩

theorem live_inr_iff {caller : T ⊕ O} :
    v.Live caller ↔ ∃ this n, caller = .inr this ∧ v.ticket (.inr this) = some n := by
  rw [Live]
  constructor
  · rintro ⟨hright, hsome⟩
    obtain ⟨this, rfl⟩ := Sum.isRight_iff.mp hright
    obtain ⟨n, hn⟩ := Option.isSome_iff_exists.mp hsome
    exact ⟨this, n, rfl, hn⟩
  · rintro ⟨this, n, rfl, hn⟩
    exact ⟨rfl, by rw [hn]; rfl⟩

variable [DecidableEq T] [DecidableEq O]

/-- A thread without a ticket asks for one. -/
def issue (v : GateView T O) (thread : T) : GateView T O :=
  { v with
    gate := v.gate.issue.2
    ticket := Function.update v.ticket (.inl thread) (some v.gate.issue.1)
    taken := v.taken ++ [v.gate.issue.1] }

/-- A caller's ticket goes to an object. -/
def transfer (v : GateView T O) (from' : T ⊕ O) (to' : O) : GateView T O :=
  { v with
    ticket := Function.update (Function.update v.ticket from' none) (.inr to') (v.ticket from') }

/-- A served thread's ticket goes to an object, which is live. -/
def grant (v : GateView T O) (thread : T) (this : O) (mine : ℕ) : GateView T O :=
  { v.transfer (.inl thread) this with granted := v.granted ++ [mine] }

/-- An object gives its turn back. -/
def release (v : GateView T O) (this : O) (mine : ℕ) : GateView T O :=
  { v with
    gate := v.gate.release
    ticket := Function.update v.ticket (.inr this) none
    released := v.released ++ [mine] }

theorem live_update_inl (ticket : T ⊕ O → Option ℕ) (thread : T) (n : Option ℕ) (gate : Turnstile)
    (taken granted released : List ℕ) (caller : T ⊕ O) :
    (GateView.mk gate (Function.update ticket (.inl thread) n) taken granted released).Live caller ↔
      (GateView.mk gate ticket taken granted released).Live caller := by
  cases caller <;> simp [Live, Function.update]

theorem Kept.issue (h : v.Kept) {thread : T} (hnone : v.ticket (.inl thread) = none) :
    (v.issue thread).Kept := by
  have hlive : ∀ caller, (v.issue thread).Live caller ↔ v.Live caller :=
    live_update_inl _ _ _ _ _ _ _
  refine ⟨?_, ?_, ?_, h.released, ?_, ?_⟩
  · exact (h.tickets.issue hnone).congr (fun _ => rfl) fun caller => (hlive caller).mp
  · intro n hlow hhigh
    rcases Nat.lt_succ_iff_lt_or_eq.mp hhigh with hlt | rfl
    · obtain ⟨caller, hcaller⟩ := h.covered n hlow hlt
      have hne : caller ≠ .inl thread := by
        rintro rfl
        rw [hnone] at hcaller
        cases hcaller
      exact ⟨caller, by simp only [GateView.issue, Function.update_of_ne hne, hcaller]⟩
    · exact ⟨.inl thread, Function.update_self ..⟩
  · simp only [GateView.issue, Turnstile.issue, h.taken, List.range_succ]
  · exact fun hnot => h.granted fun caller hcaller => hnot caller ((hlive caller).mpr hcaller)
  · exact fun caller hcaller => h.grantedLive caller ((hlive caller).mp hcaller)

section Transfer

variable {from' : T ⊕ O} {to' : O}

theorem transfer_ticket_eq_some {caller : T ⊕ O} {n : ℕ} :
    (v.transfer from' to').ticket caller = some n ↔
      caller = .inr to' ∧ v.ticket from' = some n ∨
        caller ≠ .inr to' ∧ caller ≠ from' ∧ v.ticket caller = some n := by
  simp only [GateView.transfer, Function.update_apply]
  split
  next h => simp [h]
  next h =>
    split
    next h' =>
      subst h'
      simp [h]
    next h' => simp [h, h']

/-- Who has a ticket afterwards had it before, but for the one that went over. -/
theorem Kept.transfer_tickets (h : v.Kept) {holds : T ⊕ O → Prop}
    (hholds : ∀ caller, holds caller →
      (v.transfer from' to').ticket caller = some v.gate.nowServing) :
    (v.transfer from' to').gate.Tickets (v.transfer from' to').ticket holds := by
  refine ⟨h.tickets.ordered, ?_, ?_, hholds⟩
  · intro caller n hcaller
    rcases transfer_ticket_eq_some.mp hcaller with ⟨-, hn⟩ | ⟨-, -, hn⟩
    · exact h.tickets.issued _ n hn
    · exact h.tickets.issued _ n hn
  · intro a b n ha hb
    rcases transfer_ticket_eq_some.mp ha with ⟨rfl, hn⟩ | ⟨-, ha', hn⟩ <;>
      rcases transfer_ticket_eq_some.mp hb with ⟨rfl, hn'⟩ | ⟨-, hb', hn'⟩
    · rfl
    · exact absurd (h.tickets.distinct _ _ n hn' hn) hb'
    · exact absurd (h.tickets.distinct _ _ n hn hn') ha'
    · exact h.tickets.distinct a b n hn hn'

theorem Kept.transfer_covered (h : v.Kept) (hto : v.ticket (.inr to') = none) (n : ℕ)
    (hlow : v.gate.nowServing ≤ n) (hhigh : n < v.gate.nextTicket) :
    ∃ caller, (v.transfer from' to').ticket caller = some n := by
  obtain ⟨caller, hcaller⟩ := h.covered n hlow hhigh
  by_cases hfrom : caller = from'
  · exact ⟨.inr to', transfer_ticket_eq_some.mpr (Or.inl ⟨rfl, hfrom ▸ hcaller⟩)⟩
  · refine ⟨caller, transfer_ticket_eq_some.mpr (Or.inr ⟨?_, hfrom, hcaller⟩)⟩
    rintro rfl
    rw [hto] at hcaller
    cases hcaller

end Transfer

/-- A turn moves to another object. -/
theorem Kept.move (h : v.Kept) {this other : O} (hthis : v.ticket (.inr this) = none) :
    (v.transfer (.inr other) this).Kept := by
  have hserved : ∀ caller, (v.transfer (.inr other) this).Live caller →
      (v.transfer (.inr other) this).ticket caller = some v.gate.nowServing := by
    intro caller hlive
    obtain ⟨object, n, rfl, hn⟩ := live_inr_iff.mp hlive
    rcases transfer_ticket_eq_some.mp hn with ⟨-, hold⟩ | ⟨-, -, hold⟩ <;>
      rw [hn, (h.live_iff hold).2]
  refine ⟨h.transfer_tickets hserved, h.transfer_covered hthis, h.taken, h.released, ?_, ?_⟩
  · intro hnone
    refine h.granted fun caller hlive => ?_
    obtain ⟨object, n, rfl, hn⟩ := live_inr_iff.mp hlive
    by_cases hobject : object = other
    · subst hobject
      exact hnone (.inr this) (live_inr_iff.mpr
        ⟨this, n, rfl, transfer_ticket_eq_some.mpr (Or.inl ⟨rfl, hn⟩)⟩)
    · refine hnone (.inr object) (live_inr_iff.mpr
        ⟨object, n, rfl, transfer_ticket_eq_some.mpr (Or.inr ⟨?_, ?_, hn⟩)⟩)
      · intro heq
        rw [heq, hthis] at hn
        cases hn
      · exact fun heq => hobject (Sum.inr_injective heq)
  · intro caller hlive
    obtain ⟨object, n, rfl, hn⟩ := live_inr_iff.mp hlive
    rcases transfer_ticket_eq_some.mp hn with ⟨-, hold⟩ | ⟨-, -, hold⟩ <;>
      exact h.grantedLive _ (h.live_iff hold).1

/-- A served thread gets its turn. Nobody else has one, as the ticket is the thread's. -/
theorem Kept.grant (h : v.Kept) {thread : T} {this : O} {mine : ℕ}
    (hthread : v.ticket (.inl thread) = some mine) (hserves : v.gate.serves mine = true)
    (hthis : v.ticket (.inr this) = none) : (v.grant thread this mine).Kept := by
  have hmine : v.gate.nowServing = mine := beq_iff_eq.mp hserves
  have hnone : ∀ caller, ¬ v.Live caller := by
    intro caller hlive
    obtain rfl := h.tickets.distinct _ _ _ (h.tickets.served caller hlive)
      (hmine ▸ hthread)
    exact absurd hlive.1 (by simp)
  have hlive : ∀ caller, (v.grant thread this mine).Live caller → caller = .inr this := by
    intro caller hcaller
    obtain ⟨object, n, rfl, hn⟩ := live_inr_iff.mp hcaller
    rcases transfer_ticket_eq_some.mp hn with ⟨heq, -⟩ | ⟨-, -, hold⟩
    · exact heq
    · exact absurd (h.live_iff hold).1 (hnone _)
  have hthis' : (v.transfer (.inl thread) this).ticket (.inr this) = some mine :=
    transfer_ticket_eq_some.mpr (Or.inl ⟨rfl, hthread⟩)
  refine ⟨h.transfer_tickets fun caller hcaller => ?_, h.transfer_covered hthis, h.taken,
    h.released, fun hnot => ?_, fun caller _ => ?_⟩
  · rw [hlive caller hcaller, hthis', hmine]
  · exact absurd (live_inr_iff.mpr ⟨this, mine, rfl, hthis'⟩) (hnot (.inr this))
  · simp only [GateView.grant, GateView.transfer, h.granted hnone, hmine, List.range_succ]

/-- A live turn is given back. -/
theorem Kept.release (h : v.Kept) {this : O} {mine : ℕ}
    (hthis : v.ticket (.inr this) = some mine) : (v.release this mine).Kept := by
  obtain ⟨hlive, rfl⟩ := h.live_iff hthis
  have hdead : ∀ caller, ¬ (v.release this v.gate.nowServing).Live caller := by
    rintro caller hcaller
    obtain ⟨object, n, rfl, hn⟩ := live_inr_iff.mp hcaller
    simp only [GateView.release, Function.update_apply] at hn
    split at hn
    next => cases hn
    next hne =>
      exact hne (h.tickets.exclusive (h.live_iff hn).1 hlive)
  refine ⟨?_, ?_, h.taken, ?_, fun _ => h.grantedLive _ hlive, fun caller hcaller => ?_⟩
  · exact (h.tickets.release hlive).congr (fun _ => rfl) fun caller hcaller =>
      absurd hcaller (hdead caller)
  · intro n hlow hhigh
    obtain ⟨caller, hcaller⟩ := h.covered n (Nat.le_of_succ_le hlow) hhigh
    refine ⟨caller, ?_⟩
    have hne : caller ≠ .inr this := by
      rintro rfl
      rw [hthis, Option.some_inj] at hcaller
      exact absurd hlow (by rw [← hcaller]; exact Nat.not_succ_le_self _)
    simp only [GateView.release, Function.update_of_ne hne, hcaller]
  · simp only [GateView.release, Turnstile.release, h.released, List.range_succ]
  · exact absurd hcaller (hdead caller)

end GateView

/-! ## Every gate -/

namespace TurnSystem

variable {G T O W : Type} [DecidableEq G]

/-- The ticket of a gate that a thread waits with. -/
def waitTicket (g : G) (waiting : Option (G × ℕ)) : Option ℕ :=
  waiting.bind fun ticket => if ticket.1 = g then some ticket.2 else none

/-- The ticket of a gate that a turn was granted under. -/
def turnTicket (g : G) (turn : Option (Turn G W)) : Option ℕ :=
  turn.bind fun turn => if turn.gate = some g then some turn.ticket else none

/-- Who has which ticket of the gate. -/
def ticketOf (waiting : T → Option (G × ℕ)) (turn : O → Option (Turn G W)) (g : G) :
    T ⊕ O → Option ℕ :=
  Sum.elim (waitTicket g ∘ waiting) (turnTicket g ∘ turn)

def view (s : TurnSystem G T O W) (g : G) : GateView T O :=
  ⟨s.gate g, ticketOf s.waiting s.turn g, s.taken g, s.granted g, s.released g⟩

@[simp] theorem turnTicket_none (g : G) : turnTicket g (none : Option (Turn G W)) = none := rfl

@[simp] theorem turnTicket_null [Zero W] (g : G) :
    turnTicket g (some (null : Turn G W)) = none := rfl

theorem turnTicket_granted (g g' : G) (waited : W) (n : ℕ) :
    turnTicket g (some ⟨some g', waited, n⟩) = if g' = g then some n else none := by
  simp [turnTicket]

@[simp] theorem releaseTurn_waiting (s : TurnSystem G T O W) (held : Turn G W) :
    (s.releaseTurn held).waiting = s.waiting := by
  unfold releaseTurn
  split <;> rfl

@[simp] theorem releaseTurn_turn (s : TurnSystem G T O W) (held : Turn G W) :
    (s.releaseTurn held).turn = s.turn := by
  unfold releaseTurn
  split <;> rfl

section Views

variable [DecidableEq T] [DecidableEq O] {s : TurnSystem G T O W} {g : G}

/-- An object, overwritten. -/
theorem ticketOf_update_turn (waiting : T → Option (G × ℕ)) (turn : O → Option (Turn G W)) (g : G)
    (this : O) (new : Option (Turn G W)) :
    ticketOf waiting (Function.update turn this new) g =
      Function.update (ticketOf waiting turn g) (.inr this) (turnTicket g new) := by
  rw [ticketOf, ticketOf, Function.comp_update, Sum.elim_update_right]

theorem ticketOf_update_waiting (waiting : T → Option (G × ℕ)) (turn : O → Option (Turn G W))
    (g : G) (thread : T) (new : Option (G × ℕ)) :
    ticketOf (Function.update waiting thread new) turn g =
      Function.update (ticketOf waiting turn g) (.inl thread) (waitTicket g new) := by
  rw [ticketOf, ticketOf, Function.comp_update, Sum.elim_update_left]

/-- An object without a ticket of the gate may change into another. -/
theorem ticketOf_update_none {waiting : T → Option (G × ℕ)} {turn : O → Option (Turn G W)}
    {this : O} {new : Option (Turn G W)} (hnew : turnTicket g new = none)
    (hthis : turnTicket g (turn this) = none) :
    ticketOf waiting (Function.update turn this new) g = ticketOf waiting turn g := by
  rw [ticketOf_update_turn, hnew]
  exact Function.update_eq_self_iff.mpr hthis.symm

/-- What releases a turn and puts another in its place, without a ticket of the gate. -/
theorem view_drop {this : O} {held : Turn G W} {new : Option (Turn G W)}
    (hnew : turnTicket g new = none)
    (hthis : turnTicket g (s.turn this) = turnTicket g (some held)) :
    ({ s.releaseTurn held with turn := Function.update s.turn this new } :
        TurnSystem G T O W).view g =
      if held.gate = some g then (s.view g).release this held.ticket else s.view g := by
  cases hgate : held.gate with
  | none =>
      have hnone : turnTicket g (s.turn this) = none := by
        rw [hthis]
        simp [turnTicket, hgate]
      simp only [releaseTurn, hgate, view, ticketOf_update_none hnew hnone]
      simp
  | some g' =>
      simp only [releaseTurn, hgate, view]
      by_cases hsame : g' = g
      · subst hsame
        simp only [Function.update_self, ticketOf_update_turn, hnew]
        rw [if_pos trivial]
        rfl
      · have hother : g ≠ g' := fun heq => hsame heq.symm
        have hnone : turnTicket g (s.turn this) = none := by
          rw [hthis]
          simp [turnTicket, hgate, hsame]
        simp only [Function.update_of_ne hother, ticketOf_update_none hnew hnone]
        rw [if_neg (by simpa using hsame)]

/-- Assignment: the held turn is dropped, then the given one moves. -/
theorem view_assign {this other : O} {held given : Turn G W} [Zero W] (hne : this ≠ other)
    (hthis : turnTicket g (s.turn this) = turnTicket g (some held))
    (hother : s.turn other = some given) :
    (s.assign this other held given).view g =
      (if held.gate = some g then (s.view g).release this held.ticket
        else s.view g).transfer (.inr other) this := by
  have hdrop := view_drop (s := s) (turnTicket_null g) hthis
  have hinr : (Sum.inr this : T ⊕ O) ≠ Sum.inr other := fun heq => hne (Sum.inr_injective heq)
  have hticket : ticketOf s.waiting s.turn g (.inr other) = turnTicket g (some given) := by
    rw [← hother]
    rfl
  rw [← hdrop, assign, if_neg hne]
  simp only [view, GateView.transfer, ticketOf_update_turn, releaseTurn_waiting,
    releaseTurn_turn, turnTicket_null]
  congr 1
  rw [Function.update_of_ne hinr.symm, hticket]
  have hcomm := Function.update_comm hinr.symm none (turnTicket g (some given))
    (Function.update (ticketOf s.waiting s.turn g) (Sum.inr this) none)
  rw [Function.update_idem] at hcomm
  exact hcomm.symm

/-- The first half of `take`, seen from its gate. -/
theorem view_take [Zero W] {thread : T} {this : O} (hthread : s.waiting thread = none) :
    (s.take thread this g).view g =
      if (s.gate g).issue.2.serves (s.gate g).issue.1 then
        ((s.view g).issue thread).grant thread this (s.gate g).issue.1
      else (s.view g).issue thread := by
  have hticket : ticketOf s.waiting s.turn g (.inl thread) = none := by
    simp [ticketOf, hthread, waitTicket]
  simp only [take]
  split
  next =>
    simp only [grant, view, GateView.grant, GateView.transfer, GateView.issue, Function.update_self,
      ticketOf_update_turn, turnTicket_granted, Function.update_idem]
    congr 1
    rw [if_pos trivial, ← hticket, Function.update_eq_self]
  next =>
    simp only [view, GateView.issue, Function.update_self, ticketOf_update_waiting, waitTicket]
    simp

/-- The first half of `take`, seen from another gate. -/
theorem view_take_other [Zero W] {thread : T} {this : O} {g' : G} (hne : g' ≠ g)
    (hthread : s.waiting thread = none) (hthis : s.turn this = none) :
    (s.take thread this g').view g = s.view g := by
  have hticket : ticketOf s.waiting s.turn g (.inl thread) = none := by
    simp [ticketOf, hthread, waitTicket]
  simp only [take]
  split
  next =>
    simp only [grant, view, Function.update_of_ne hne.symm]
    rw [ticketOf_update_none (by rw [turnTicket_granted, if_neg hne]) (by rw [hthis]; rfl)]
  next =>
    simp only [view, Function.update_of_ne hne.symm, ticketOf_update_waiting, waitTicket]
    congr 1
    exact Function.update_eq_self_iff.mpr (by simp [hne, hticket])

theorem view_wake {thread : T} {this : O} {g' : G} {mine : ℕ} (waited : W)
    (hthread : s.waiting thread = some (g', mine)) (hthis : s.turn this = none) :
    (({ s with waiting := Function.update s.waiting thread none } : TurnSystem G T O W).grant this
        g' waited mine).view g =
      if g' = g then (s.view g).grant thread this mine else s.view g := by
  simp only [grant, view, ticketOf_update_turn, ticketOf_update_waiting, turnTicket_granted]
  split
  next heq =>
    subst heq
    have hticket : ticketOf s.waiting s.turn g' (.inl thread) = some mine := by
      simp [ticketOf, hthread, waitTicket]
    simp only [GateView.grant, GateView.transfer, Function.update_self, hticket]
    rfl
  next hne =>
    have hticket : ticketOf s.waiting s.turn g (.inl thread) = none := by
      simp [ticketOf, hthread, waitTicket, hne]
    have hnone : ticketOf s.waiting s.turn g (.inr this) = none := by
      simp [ticketOf, hthis]
    have hsame : Function.update (ticketOf s.waiting s.turn g) (.inl thread) none =
        ticketOf s.waiting s.turn g := Function.update_eq_self_iff.mpr hticket.symm
    have hne' : g ≠ g' := fun heq => hne heq.symm
    simp only [waitTicket, Option.bind_none, hsame, Function.update_of_ne hne']
    congr 1
    exact Function.update_eq_self_iff.mpr hnone.symm

end Views

/-! ## Order -/

section Order

variable {s : TurnSystem G T O W} {g : G}

/-- The object holds the gate under a ticket. -/
def Holds (s : TurnSystem G T O W) (g : G) (this : O) (n : ℕ) : Prop :=
  ∃ turn, s.turn this = some turn ∧ turn.gate = some g ∧ turn.ticket = n

/-- What holds of a gate at any time. A granted ticket is either held, or was released once. -/
structure Orderly (s : TurnSystem G T O W) (g : G) : Prop where
  exclusive : ∀ a b m n, s.Holds g a m → s.Holds g b n → a = b
  order : s.granted g = List.range (s.granted g).length
  releasedOnce : ∀ n ∈ s.granted g,
    (∃ this, s.Holds g this n) ∧ (s.released g).count n = 0 ∨
      (¬ ∃ this, s.Holds g this n) ∧ (s.released g).count n = 1
  releasedGranted : s.released g <+: s.granted g
  completed_le : (s.gate g).completed ≤ (s.gate g).issued
  takenOrder : s.taken g = List.range (s.gate g).issued
  outstanding : (s.gate g).issued - (s.gate g).completed =
    ((s.taken g).filter fun n => n ∉ s.released g).length
  owner : ∀ n ∈ s.taken g, n ∉ s.released g →
    (∃ thread, s.waiting thread = some (g, n)) ∨ ∃ this, s.Holds g this n

theorem holds_iff {this : O} {n : ℕ} :
    s.Holds g this n ↔ (s.view g).ticket (.inr this) = some n := by
  simp [Holds, view, ticketOf, turnTicket, Option.bind_eq_some_iff]

theorem waiting_iff {thread : T} {n : ℕ} :
    s.waiting thread = some (g, n) ↔ (s.view g).ticket (.inl thread) = some n := by
  simp only [view, ticketOf, Sum.elim_inl, Function.comp_apply, waitTicket,
    Option.bind_eq_some_iff]
  constructor
  · intro h
    exact ⟨(g, n), h, by simp⟩
  · rintro ⟨⟨g', m⟩, h, hm⟩
    split at hm
    next heq =>
      cases hm
      rw [h, ← heq]
    next => cases hm

theorem length_filter_not_mem_range {m n : ℕ} (h : m ≤ n) :
    ((List.range n).filter fun k => k ∉ List.range m).length = n - m := by
  obtain ⟨k, rfl⟩ := Nat.exists_eq_add_of_le h
  rw [List.range_add, List.filter_append, List.filter_eq_nil_iff.mpr (by simp),
    List.filter_eq_self.mpr (by simp), List.nil_append, List.length_map, List.length_range,
    Nat.add_sub_cancel_left]

/-- One ticket more is granted than released, or none. -/
theorem kept_granted (h : (s.view g).Kept) :
    (∃ this, s.Holds g this (s.gate g).completed) ∧
        s.granted g = List.range ((s.gate g).completed + 1) ∨
      (¬ ∃ this n, s.Holds g this n) ∧ s.granted g = List.range (s.gate g).completed := by
  by_cases hheld : ∃ this n, s.Holds g this n
  · obtain ⟨this, n, hthis⟩ := hheld
    obtain ⟨hlive, rfl⟩ := h.live_iff (holds_iff.mp hthis)
    exact Or.inl ⟨⟨this, hthis⟩, h.grantedLive _ hlive⟩
  · refine Or.inr ⟨hheld, h.granted fun caller hlive => ?_⟩
    obtain ⟨this, n, rfl, hn⟩ := GateView.live_inr_iff.mp hlive
    exact hheld ⟨this, n, holds_iff.mpr hn⟩

theorem Kept.orderly (h : (s.view g).Kept) : s.Orderly g := by
  have hreleased : s.released g = List.range (s.gate g).completed := h.released
  have hle : (s.gate g).completed ≤ (s.gate g).issued := h.tickets.ordered
  have hserved : ∀ this n, s.Holds g this n → n = (s.gate g).completed := fun this n hthis =>
    (h.live_iff (holds_iff.mp hthis)).2
  refine ⟨fun a b m n ha hb => ?_, ?_, fun n hn => ?_, ?_, hle, h.taken, ?_, fun n hn hn' => ?_⟩
  · have hlive := h.tickets.exclusive (h.live_iff (holds_iff.mp ha)).1
      (h.live_iff (holds_iff.mp hb)).1
    exact Sum.inr_injective hlive
  · rcases kept_granted h with ⟨-, hgranted⟩ | ⟨-, hgranted⟩ <;> rw [hgranted, List.length_range]
  · rw [hreleased]
    rcases Nat.lt_or_ge n (s.gate g).completed with hlt | hge
    · refine Or.inr ⟨?_, List.count_eq_one_of_mem List.nodup_range (List.mem_range.mpr hlt)⟩
      rintro ⟨this, hthis⟩
      exact absurd (hserved this n hthis) (Nat.ne_of_lt hlt)
    · refine Or.inl ⟨?_, List.count_eq_zero.mpr (by simpa using hge)⟩
      rcases kept_granted h with ⟨hheld, hgranted⟩ | ⟨-, hgranted⟩
      · have hlt := List.mem_range.mp (hgranted ▸ hn)
        obtain rfl : n = (s.gate g).completed := Nat.le_antisymm (Nat.le_of_lt_succ hlt) hge
        exact hheld
      · exact absurd (List.mem_range.mp (hgranted ▸ hn)) (Nat.not_lt.mpr hge)
  · rw [hreleased]
    rcases kept_granted h with ⟨-, hgranted⟩ | ⟨-, hgranted⟩
    · rw [hgranted, List.range_succ]
      exact List.prefix_append _ _
    · rw [List.prefix_iff_eq_append]
      simp [hgranted]
  · have htaken : s.taken g = List.range (s.gate g).issued := h.taken
    rw [htaken, hreleased, length_filter_not_mem_range hle]
  · have htaken : s.taken g = List.range (s.gate g).issued := h.taken
    rw [htaken, List.mem_range] at hn
    rw [hreleased, List.mem_range] at hn'
    obtain ⟨caller, hcaller⟩ := h.covered n (Nat.not_lt.mp hn') hn
    cases caller with
    | inl thread => exact Or.inl ⟨thread, waiting_iff.mpr hcaller⟩
    | inr this => exact Or.inr ⟨this, holds_iff.mpr hcaller⟩

end Order

/-! ## Runs -/

section Runs

variable {s next : TurnSystem G T O W} {event : TurnEvent G T O W} {g : G}

theorem fresh_ticket (caller : T ⊕ O) :
    ((fresh : TurnSystem G T O W).view g).ticket caller = none := by
  cases caller <;> rfl

theorem fresh_kept : ((fresh : TurnSystem G T O W).view g).Kept := by
  have hdead : ∀ caller, ¬ ((fresh : TurnSystem G T O W).view g).Live caller := by
    rintro caller ⟨-, hsome⟩
    rw [fresh_ticket] at hsome
    cases hsome
  refine ⟨⟨Nat.le_refl _, ?_, ?_, fun caller hlive => absurd hlive (hdead caller)⟩,
    fun n _ hhigh => absurd hhigh (Nat.not_lt_zero n), rfl, rfl, fun _ => rfl,
    fun caller hlive => absurd hlive (hdead caller)⟩
  · intro caller n hticket
    rw [fresh_ticket] at hticket
    cases hticket
  · intro a b n hticket
    rw [fresh_ticket] at hticket
    cases hticket

variable [DecidableEq T] [DecidableEq O]

/-- A held turn is dropped, or there was none of this gate. -/
theorem dropped_kept (h : (s.view g).Kept) {this : O} {held : Turn G W}
    (hthis : turnTicket g (s.turn this) = turnTicket g (some held)) :
    (if held.gate = some g then (s.view g).release this held.ticket else s.view g).Kept ∧
      (if held.gate = some g then (s.view g).release this held.ticket
        else s.view g).ticket (.inr this) = none := by
  have hticket : (s.view g).ticket (.inr this) = turnTicket g (some held) := hthis
  split
  next hgate =>
    refine ⟨h.release ?_, Function.update_self ..⟩
    rw [hticket]
    simp [turnTicket, hgate]
  next hgate =>
    refine ⟨h, ?_⟩
    rw [hticket]
    simp [turnTicket, hgate]

variable [Zero W]

theorem assign_kept (h : (s.view g).Kept) {this other : O} {held given : Turn G W}
    (hthis : turnTicket g (s.turn this) = turnTicket g (some held))
    (hother : s.turn other = some given) : ((s.assign this other held given).view g).Kept := by
  by_cases hsame : this = other
  · rw [assign, if_pos hsame]
    exact h
  · rw [view_assign hsame hthis hother]
    obtain ⟨hkept, hnone⟩ := dropped_kept h hthis
    exact hkept.move hnone

/-- A ticket is issued, and granted at once where it is the one served. -/
theorem take_kept (h : (s.view g).Kept) {thread : T} {this : O} (hthread : s.waiting thread = none)
    (hthis : s.turn this = none) (g' : G) : ((s.take thread this g').view g).Kept := by
  by_cases hsame : g' = g
  · subst hsame
    rw [view_take hthread]
    have hwaits : (s.view g').ticket (.inl thread) = none := by
      simp [view, ticketOf, hthread, waitTicket]
    have hissue := h.issue hwaits
    split
    next hserves =>
      have hplace : (s.view g').ticket (.inr this) = none := by simp [view, ticketOf, hthis]
      have hne : (Sum.inr this : T ⊕ O) ≠ .inl thread := Sum.inr_ne_inl
      have hplace' : ((s.view g').issue thread).ticket (.inr this) = none := by
        simp only [GateView.issue, Function.update_of_ne hne, hplace]
      exact hissue.grant (Function.update_self ..) hserves hplace'
    next => exact hissue
  · rw [view_take_other hsame hthread hthis]
    exact h

omit [Zero W] in
theorem wake_kept (h : (s.view g).Kept) {thread : T} {this : O} {g' : G} {mine : ℕ}
    (hthread : s.waiting thread = some (g', mine)) (hthis : s.turn this = none) (waited : W)
    (hserves : (s.gate g').serves mine = true) :
    (({ s with waiting := Function.update s.waiting thread none } : TurnSystem G T O W).grant this
      g' waited mine |>.view g).Kept := by
  rw [view_wake waited hthread hthis]
  split
  next hsame =>
    subst hsame
    refine h.grant ?_ hserves ?_
    · simp [view, ticketOf, hthread, waitTicket]
    · simp [view, ticketOf, hthis]
  next => exact h

theorem step_kept (h : ∀ g, (s.view g).Kept) (hstep : s.step event = some next) (g : G) :
    (next.view g).Kept := by
  cases event with
  | construct this =>
      simp only [step] at hstep
      split at hstep
      next hthis =>
        cases hstep
        have hnone : turnTicket g (s.turn this) = none := by rw [hthis]; rfl
        simp only [view, ticketOf_update_none (turnTicket_null g) hnone]
        exact h g
      next => cases hstep
  | take thread this g' =>
      simp only [step] at hstep
      split at hstep
      next hthread hthis =>
        cases hstep
        exact take_kept (h g) hthread hthis g'
      next => cases hstep
  | wake thread this waited =>
      simp only [step] at hstep
      split at hstep
      next g' mine hthread hthis =>
        split at hstep
        next hserves =>
          cases hstep
          exact wake_kept (h g) hthread hthis waited hserves
        next => cases hstep
      next => cases hstep
  | moveConstruct this other =>
      simp only [step] at hstep
      split at hstep
      next given hthis hother =>
        cases hstep
        exact assign_kept (h g) (by rw [hthis]; rfl) hother
      next => cases hstep
  | moveAssign this other =>
      simp only [step] at hstep
      split at hstep
      next held given hthis hother =>
        cases hstep
        exact assign_kept (h g) (by rw [hthis]) hother
      next => cases hstep
  | destroy this =>
      simp only [step] at hstep
      split at hstep
      next held hthis =>
        cases hstep
        have hheld : turnTicket g (s.turn this) = turnTicket g (some held) := by rw [hthis]
        have hdrop := view_drop (s := s) (turnTicket_none g) hheld
        rw [hdrop]
        exact (dropped_kept (h g) hheld).1
      next => cases hstep

/-- Every gate's history is in order. -/
def AllKept (s : TurnSystem G T O W) : Prop := ∀ g, (s.view g).Kept

theorem run_kept {events : List (TurnEvent G T O W)} (hrun : machine.run fresh events = some s) :
    s.AllKept := by
  have hsteps : ∀ (s : TurnSystem G T O W) event next, s.AllKept →
      machine.step s event = some next → next.AllKept := fun _ _ _ h hstep => step_kept h hstep
  exact Machine.run_invariant_of_step hsteps (fun _ => fresh_kept) hrun

/-- However the halves of `take`, the moves and the destructions interleave, every gate stays
orderly. -/
theorem turns_orderly {events : List (TurnEvent G T O W)}
    (hrun : machine.run fresh events = some s) (g : G) : s.Orderly g :=
  Kept.orderly (run_kept hrun g)

/-- Two threads; the first one's turn moves twice before it ends by an assignment. -/
def twoThreads : List (TurnEvent Unit ℕ ℕ ℕ) :=
  [.take 0 0 (), .take 1 9 (), .moveConstruct 1 0, .moveAssign 0 1, .moveAssign 0 0, .construct 2,
    .moveAssign 0 2, .wake 1 3 5, .destroy 0]

theorem turns_orderly_twoThreads :
    ∃ s, machine.run fresh twoThreads = some s ∧ ∀ g, s.Orderly g := by
  have hsome : (machine.run fresh twoThreads).isSome = true := by decide
  obtain ⟨s, hs⟩ := Option.isSome_iff_exists.mp hsome
  exact ⟨s, hs, turns_orderly hs⟩

end Runs

end TurnSystem

end Arcint.Core
