import Mathlib.Data.List.Basic
import Mathlib.Algebra.Ring.Nat

/-! # State machines and their runs

A machine takes a labelled step or refuses it. A run is a list of labels; a
property of states that every allowed step keeps holds after every run whose
steps are all allowed.
-/

namespace Arcint.Foundation

universe u v

/-- A deterministic machine with labelled steps; `none` is a refused step. -/
structure Machine (σ : Type u) (ε : Type v) where
  step : σ → ε → Option σ

namespace Machine

variable {σ : Type u} {ε : Type v}

/-- The state after a list of steps, if none of them is refused. -/
def run (machine : Machine σ ε) : σ → List ε → Option σ
  | s, [] => some s
  | s, event :: events =>
      match machine.step s event with
      | some next => machine.run next events
      | none => none

/-- Every step of the run meets a condition on the state it is taken in. -/
def Meets (machine : Machine σ ε) (Allowed : σ → ε → Prop) : σ → List ε → Prop
  | _, [] => True
  | s, event :: events =>
      Allowed s event ∧ ∀ next, machine.step s event = some next → machine.Meets Allowed next events

@[simp] theorem run_nil (machine : Machine σ ε) (s : σ) : machine.run s [] = some s := rfl

theorem run_cons {machine : Machine σ ε} {s last : σ} {event : ε} {events : List ε}
    (hrun : machine.run s (event :: events) = some last) :
    ∃ next, machine.step s event = some next ∧ machine.run next events = some last := by
  unfold run at hrun
  split at hrun
  next next hstep => exact ⟨next, hstep, hrun⟩
  next => cases hrun

theorem run_append {machine : Machine σ ε} {s mid : σ} {first : List ε} (rest : List ε)
    (hrun : machine.run s first = some mid) :
    machine.run s (first ++ rest) = machine.run mid rest := by
  induction first generalizing s with
  | nil =>
      cases hrun
      rfl
  | cons event events ih =>
      obtain ⟨next, hnext, hmore⟩ := run_cons hrun
      rw [List.cons_append, run, hnext]
      exact ih hmore

/-- What every allowed step keeps holds after every run of allowed steps. -/
theorem run_invariant {machine : Machine σ ε} {Allowed : σ → ε → Prop} {Inv : σ → Prop}
    (hstep : ∀ s event next, Inv s → Allowed s event → machine.step s event = some next →
      Inv next)
    {s last : σ} {events : List ε} (hs : Inv s) (hmeets : machine.Meets Allowed s events)
    (hrun : machine.run s events = some last) : Inv last := by
  induction events generalizing s with
  | nil =>
      cases hrun
      exact hs
  | cons event events ih =>
      obtain ⟨next, hnext, hrest⟩ := run_cons hrun
      exact ih (hstep s event next hs hmeets.1 hnext) (hmeets.2 next hnext) hrest

/-- A potential that pays for the cost of every allowed step pays for a run. -/
theorem run_potential {machine : Machine σ ε} {Allowed : σ → ε → Prop} {Inv : σ → Prop}
    {potential : σ → Nat} {cost gain : ε → Nat}
    (hstep : ∀ s event next, Inv s → Allowed s event → machine.step s event = some next →
      Inv next ∧ potential next + cost event ≤ potential s + gain event)
    {s last : σ} {events : List ε} (hs : Inv s) (hmeets : machine.Meets Allowed s events)
    (hrun : machine.run s events = some last) :
    potential last + (events.map cost).sum ≤ potential s + (events.map gain).sum := by
  induction events generalizing s with
  | nil =>
      cases hrun
      exact Nat.le_refl _
  | cons event events ih =>
      obtain ⟨next, hnext, hrest⟩ := run_cons hrun
      obtain ⟨hinv, hpaid⟩ := hstep s event next hs hmeets.1 hnext
      have hmore := ih hinv (hmeets.2 next hnext) hrest
      simp only [List.map_cons, List.sum_cons]
      omega

/-- When the allowed steps are those that keep a property, the property holds all along a
run exactly when its steps are all allowed. -/
theorem meets_iff_of_step {machine : Machine σ ε} {Allowed : σ → ε → Prop} {Inv : σ → Prop}
    (hstep : ∀ s event next, Inv s → machine.step s event = some next →
      (Inv next ↔ Allowed s event))
    {s last : σ} {events : List ε} (hs : Inv s) (hrun : machine.run s events = some last) :
    (machine.Meets (fun s _ => Inv s) s events ∧ Inv last) ↔ machine.Meets Allowed s events := by
  induction events generalizing s with
  | nil =>
      cases hrun
      exact ⟨fun _ => trivial, fun _ => ⟨trivial, hs⟩⟩
  | cons event events ih =>
      obtain ⟨next, hnext, hrest⟩ := run_cons hrun
      have honly : ∀ other, machine.step s event = some other → other = next := by
        intro other hother
        rw [hnext] at hother
        exact (Option.some.inj hother).symm
      refine ⟨fun ⟨hmeets, hlast⟩ => ?_, fun hmeets => ?_⟩
      · have hinv : Inv next := by
          cases events with
          | nil =>
              cases hrest
              exact hlast
          | cons _ _ => exact (hmeets.2 next hnext).1
        refine ⟨(hstep s event next hs hnext).mp hinv, fun other hother => ?_⟩
        rw [honly other hother]
        exact (ih hinv hrest).mp ⟨hmeets.2 next hnext, hlast⟩
      · have hinv := (hstep s event next hs hnext).mpr hmeets.1
        obtain ⟨halong, hlast⟩ := (ih hinv hrest).mpr (hmeets.2 next hnext)
        refine ⟨⟨hs, fun other hother => ?_⟩, hlast⟩
        rw [honly other hother]
        exact halong

/-- When an allowed step is never refused, a run of allowed steps goes through. -/
theorem run_total {machine : Machine σ ε} {Allowed : σ → ε → Prop} {Inv : σ → Prop}
    (hstep : ∀ s event, Inv s → Allowed s event →
      ∃ next, machine.step s event = some next ∧ Inv next)
    {s : σ} {events : List ε} (hs : Inv s) (hmeets : machine.Meets Allowed s events) :
    ∃ last, machine.run s events = some last ∧ Inv last := by
  induction events generalizing s with
  | nil => exact ⟨s, rfl, hs⟩
  | cons event events ih =>
      obtain ⟨next, hnext, hinv⟩ := hstep s event hs hmeets.1
      obtain ⟨last, hrun, hlast⟩ := ih hinv (hmeets.2 next hnext)
      refine ⟨last, ?_, hlast⟩
      rw [run, hnext]
      exact hrun

/-- Steps that are allowed in every state. -/
theorem meets_of_mem (machine : Machine σ ε) {Allowed : σ → ε → Prop} {events : List ε}
    (hall : ∀ event ∈ events, ∀ s, Allowed s event) (s : σ) : machine.Meets Allowed s events := by
  induction events generalizing s with
  | nil => exact trivial
  | cons event events ih =>
      refine ⟨hall event List.mem_cons_self s, fun next _ => ?_⟩
      exact ih (fun other hother => hall other (List.mem_cons_of_mem _ hother)) next

theorem meets_of_forall (machine : Machine σ ε) {Allowed : σ → ε → Prop}
    (hall : ∀ s event, Allowed s event) (s : σ) (events : List ε) :
    machine.Meets Allowed s events :=
  machine.meets_of_mem (fun event _ s => hall s event) s

theorem meets_and {machine : Machine σ ε} {First Second : σ → ε → Prop} {s : σ}
    {events : List ε} (hfirst : machine.Meets First s events)
    (hsecond : machine.Meets Second s events) :
    machine.Meets (fun s event => First s event ∧ Second s event) s events := by
  induction events generalizing s with
  | nil => exact trivial
  | cons event events ih =>
      refine ⟨⟨hfirst.1, hsecond.1⟩, fun next hnext => ?_⟩
      exact ih (hfirst.2 next hnext) (hsecond.2 next hnext)

/-- A run in two parts. -/
theorem meets_append {machine : Machine σ ε} {Allowed : σ → ε → Prop} {s mid : σ}
    {first rest : List ε} (hfirst : machine.Meets Allowed s first)
    (hrun : machine.run s first = some mid) (hrest : machine.Meets Allowed mid rest) :
    machine.Meets Allowed s (first ++ rest) := by
  induction first generalizing s with
  | nil =>
      cases hrun
      exact hrest
  | cons event events ih =>
      obtain ⟨next, hnext, hmore⟩ := run_cons hrun
      refine ⟨hfirst.1, fun other hother => ?_⟩
      rw [hnext] at hother
      cases hother
      exact ih (hfirst.2 next hnext) hmore

/-- What every step keeps holds after every run. -/
theorem run_invariant_of_step {machine : Machine σ ε} {Inv : σ → Prop}
    (hstep : ∀ s event next, Inv s → machine.step s event = some next → Inv next)
    {s last : σ} {events : List ε} (hs : Inv s) (hrun : machine.run s events = some last) :
    Inv last := by
  have hmeets : machine.Meets (fun _ _ => True) s events :=
    machine.meets_of_forall (fun _ _ => trivial) s events
  exact run_invariant (fun s event next hinv _ hnext => hstep s event next hinv hnext) hs hmeets
    hrun

end Machine

end Arcint.Foundation
