import Mathlib.Logic.Function.Basic

/-! # The turnstile

The ticket lock of `core/turnstile.cpp`: a ticket is issued when a caller asks,
and the caller holds the turn once its ticket is being served.
-/

namespace Arcint.Core

/-- Tickets issued so far and turns completed so far. -/
structure Turnstile where
  nextTicket : Nat
  nowServing : Nat
  deriving DecidableEq, Repr

namespace Turnstile

/-- The first half of `take`: the ticket, and the turnstile that issued it. -/
def issue (gate : Turnstile) : Nat × Turnstile :=
  (gate.nextTicket, { gate with nextTicket := gate.nextTicket + 1 })

/-- The wait of `take` ends when the ticket is served. -/
def serves (gate : Turnstile) (ticket : Nat) : Bool := gate.nowServing == ticket

/-- `release`: the turn is completed. -/
def release (gate : Turnstile) : Turnstile := { gate with nowServing := gate.nowServing + 1 }

/-- What holds of the tickets a set of callers has: each is issued and not yet
completed, no two callers share one, and who holds the turn is being served. -/
structure Tickets {L : Type} (gate : Turnstile) (ticket : L → Option Nat) (holds : L → Prop) :
    Prop where
  ordered : gate.nowServing ≤ gate.nextTicket
  issued : ∀ caller t, ticket caller = some t → gate.nowServing ≤ t ∧ t < gate.nextTicket
  distinct : ∀ a b t, ticket a = some t → ticket b = some t → a = b
  served : ∀ caller, holds caller → ticket caller = some gate.nowServing

variable {L : Type} [DecidableEq L] {gate : Turnstile} {ticket : L → Option Nat}
  {holds : L → Prop}

omit [DecidableEq L] in
/-- At most one caller holds the turn. -/
theorem Tickets.exclusive (h : gate.Tickets ticket holds) {a b : L} (ha : holds a)
    (hb : holds b) : a = b :=
  h.distinct a b gate.nowServing (h.served a ha) (h.served b hb)

omit [DecidableEq L] in
theorem Tickets.congr {ticket' : L → Option Nat} {holds' : L → Prop}
    (h : gate.Tickets ticket holds) (hticket : ∀ caller, ticket' caller = ticket caller)
    (hholds : ∀ caller, holds' caller → holds caller) : gate.Tickets ticket' holds' := by
  obtain rfl : ticket' = ticket := funext hticket
  exact ⟨h.ordered, h.issued, h.distinct, fun caller hc => h.served caller (hholds caller hc)⟩

/-- A caller without a ticket asks for one. -/
theorem Tickets.issue (h : gate.Tickets ticket holds) {caller : L}
    (hnone : ticket caller = none) :
    gate.issue.2.Tickets (Function.update ticket caller (some gate.issue.1)) holds := by
  have hother : ∀ other t, other ≠ caller →
      Function.update ticket caller (some gate.issue.1) other = some t →
        gate.nowServing ≤ t ∧ t < gate.nextTicket := by
    intro other t hne hticket
    rw [Function.update_of_ne hne] at hticket
    exact h.issued other t hticket
  refine ⟨Nat.le_succ_of_le h.ordered, ?_, ?_, ?_⟩
  · intro other t hticket
    by_cases hsame : other = caller
    · subst hsame
      rw [Function.update_self] at hticket
      cases hticket
      exact ⟨h.ordered, Nat.lt_succ_self _⟩
    · obtain ⟨hle, hlt⟩ := hother other t hsame hticket
      exact ⟨hle, Nat.lt_succ_of_lt hlt⟩
  · intro a b t ha hb
    by_cases hsa : a = caller
    · by_cases hsb : b = caller
      · rw [hsa, hsb]
      · subst hsa
        rw [Function.update_self] at ha
        cases ha
        exact absurd (hother b _ hsb hb).2 (Nat.lt_irrefl _)
    · by_cases hsb : b = caller
      · subst hsb
        rw [Function.update_self] at hb
        cases hb
        exact absurd (hother a _ hsa ha).2 (Nat.lt_irrefl _)
      · rw [Function.update_of_ne hsa] at ha
        rw [Function.update_of_ne hsb] at hb
        exact h.distinct a b t ha hb
  · intro other hholds
    have hserved := h.served other hholds
    have hne : other ≠ caller := by
      intro hsame
      rw [hsame, hnone] at hserved
      cases hserved
    rw [Function.update_of_ne hne]
    exact hserved

omit [DecidableEq L] in
/-- The caller whose ticket is served wakes up and holds the turn. -/
theorem Tickets.wake (h : gate.Tickets ticket holds) {caller : L} {t : Nat}
    (hticket : ticket caller = some t) (hserves : gate.serves t = true) :
    gate.Tickets ticket (fun other => holds other ∨ other = caller) := by
  refine ⟨h.ordered, h.issued, h.distinct, ?_⟩
  rintro other (hholds | rfl)
  · exact h.served other hholds
  · rw [hticket, beq_iff_eq.mp hserves]

/-- The holder gives its turn back. -/
theorem Tickets.release (h : gate.Tickets ticket holds) {caller : L} (hholds : holds caller) :
    gate.release.Tickets (Function.update ticket caller none)
      (fun other => holds other ∧ other ≠ caller) := by
  have hserved := h.served caller hholds
  have hnext := (h.issued caller _ hserved).2
  refine ⟨hnext, ?_, ?_, ?_⟩
  · intro other t hticket
    by_cases hsame : other = caller
    · rw [hsame, Function.update_self] at hticket
      cases hticket
    · rw [Function.update_of_ne hsame] at hticket
      obtain ⟨hle, hlt⟩ := h.issued other t hticket
      have hne : gate.nowServing ≠ t := by
        intro heq
        exact hsame (h.distinct other caller t hticket (heq ▸ hserved))
      exact ⟨Nat.lt_of_le_of_ne hle hne, hlt⟩
  · intro a b t ha hb
    by_cases hsa : a = caller
    · rw [hsa, Function.update_self] at ha
      cases ha
    · by_cases hsb : b = caller
      · rw [hsb, Function.update_self] at hb
        cases hb
      · rw [Function.update_of_ne hsa] at ha
        rw [Function.update_of_ne hsb] at hb
        exact h.distinct a b t ha hb
  · rintro other ⟨hother, hne⟩
    exact absurd (h.exclusive hother hholds) hne

end Turnstile

end Arcint.Core
