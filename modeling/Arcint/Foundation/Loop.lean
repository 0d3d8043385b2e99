import Mathlib.Data.List.Basic

/-! # Deterministic loops and their observable behaviour

A loop body either goes round again with a new state or leaves with a result.
Loops may run forever, so behaviour is read off finite numbers of passes: what
a loop has written so far, and the result it leaves with, if it ever leaves.
-/

namespace Arcint.Foundation

universe u v w

/-- One pass through a loop body: go round again, or leave the loop. -/
inductive Pass (σ : Type u) (ρ : Type v) where
  | again (state : σ)
  | leave (result : ρ)

/-- A loop is its body, as a function of the state at the loop head. -/
structure Loop (σ : Type u) (ρ : Type v) where
  body : σ → Pass σ ρ

namespace Loop

variable {σ τ : Type u} {ρ : Type v} {ω : Type w}

/-- The loop after at most `n` passes. A loop that has left stays left. -/
def after (loop : Loop σ ρ) : Nat → σ → Pass σ ρ
  | 0, s => .again s
  | n + 1, s =>
      match loop.body s with
      | .again next => loop.after n next
      | .leave result => .leave result

@[simp] theorem after_zero (loop : Loop σ ρ) (s : σ) : loop.after 0 s = .again s := rfl

theorem after_succ_again {loop : Loop σ ρ} {s next : σ} (hbody : loop.body s = .again next)
    (n : Nat) : loop.after (n + 1) s = loop.after n next := by
  simp only [after, hbody]

theorem after_succ_leave {loop : Loop σ ρ} {s : σ} {result : ρ}
    (hbody : loop.body s = .leave result) (n : Nat) :
    loop.after (n + 1) s = .leave result := by
  simp only [after, hbody]

/-- Splitting a number of passes at a loop head. -/
theorem after_add_again {loop : Loop σ ρ} {s middle : σ} {m : Nat}
    (hfirst : loop.after m s = .again middle) (n : Nat) :
    loop.after (m + n) s = loop.after n middle := by
  induction m generalizing s with
  | zero =>
      cases hfirst
      rw [Nat.zero_add]
  | succ m ih =>
      rw [Nat.succ_add]
      cases hbody : loop.body s with
      | again next =>
          rw [after_succ_again hbody] at hfirst ⊢
          exact ih hfirst
      | leave result =>
          rw [after_succ_leave hbody] at hfirst
          cases hfirst

/-- A loop that has left stays left. -/
theorem after_add_leave {loop : Loop σ ρ} {s : σ} {result : ρ} {m : Nat}
    (hfirst : loop.after m s = .leave result) (n : Nat) :
    loop.after (m + n) s = .leave result := by
  induction m generalizing s with
  | zero => cases hfirst
  | succ m ih =>
      rw [Nat.succ_add]
      cases hbody : loop.body s with
      | again next =>
          rw [after_succ_again hbody] at hfirst ⊢
          exact ih hfirst
      | leave other =>
          rw [after_succ_leave hbody] at hfirst ⊢
          exact hfirst

/-- The loop head reached after `n + 1` passes comes from one after `n`. -/
theorem exists_head_of_after_succ {loop : Loop σ ρ} {n : Nat} {s last : σ}
    (hlast : loop.after (n + 1) s = .again last) :
    ∃ middle, loop.after n s = .again middle ∧ loop.body middle = .again last := by
  induction n generalizing s with
  | zero =>
      cases hbody : loop.body s with
      | again next =>
          rw [after_succ_again hbody] at hlast
          exact ⟨s, rfl, by rw [hbody]; exact hlast⟩
      | leave result =>
          rw [after_succ_leave hbody] at hlast
          cases hlast
  | succ n ih =>
      cases hbody : loop.body s with
      | again next =>
          rw [after_succ_again hbody] at hlast
          obtain ⟨middle, hmiddle, hstep⟩ := ih hlast
          exact ⟨middle, by rw [after_succ_again hbody]; exact hmiddle, hstep⟩
      | leave result =>
          rw [after_succ_leave hbody] at hlast
          cases hlast

/-- A loop that has left did so in the pass from some head. -/
theorem exists_head_of_after_leave {loop : Loop σ ρ} {n : Nat} {s : σ} {result : ρ}
    (hleft : loop.after n s = .leave result) :
    ∃ m < n, ∃ head, loop.after m s = .again head ∧ loop.body head = .leave result := by
  induction n generalizing s with
  | zero => cases hleft
  | succ n ih =>
      cases hbody : loop.body s with
      | again next =>
          rw [after_succ_again hbody] at hleft
          obtain ⟨m, hm, head, hhead, hlast⟩ := ih hleft
          refine ⟨m + 1, Nat.succ_lt_succ hm, head, ?_, hlast⟩
          rw [after_succ_again hbody, hhead]
      | leave other =>
          rw [after_succ_leave hbody] at hleft
          cases hleft
          exact ⟨0, Nat.succ_pos n, s, rfl, hbody⟩

/-- A property of loop heads that every pass from a reached head keeps holds at
every head that is reached. -/
theorem head_invariant {loop : Loop σ ρ} {Inv : σ → Prop} {start : σ} (hstart : Inv start)
    (hstep : ∀ n s next, loop.after n start = .again s → Inv s → loop.body s = .again next →
      Inv next)
    {n : Nat} {head : σ} (hhead : loop.after n start = .again head) : Inv head := by
  induction n generalizing head with
  | zero =>
      cases hhead
      exact hstart
  | succ n ih =>
      obtain ⟨middle, hmiddle, hbody⟩ := exists_head_of_after_succ hhead
      exact hstep n middle head hmiddle (ih hmiddle) hbody

/-- The head after a head that is reached. -/
theorem after_succ_of_head {loop : Loop σ ρ} {n : Nat} {start head next : σ}
    (hhead : loop.after n start = .again head) (hbody : loop.body head = .again next) :
    loop.after (n + 1) start = .again next := by
  rw [after_add_again hhead, after_succ_again hbody, after_zero]

/-- A loop whose passes lower a measure leaves. -/
theorem exists_leave_of_measure {loop : Loop σ ρ} (measure : σ → Nat)
    (hlower : ∀ s next, loop.body s = .again next → measure next < measure s)
    {n : Nat} {s : σ} (hn : measure s < n) : ∃ result, loop.after n s = .leave result := by
  induction n generalizing s with
  | zero => exact absurd hn (Nat.not_lt_zero _)
  | succ n ih =>
      cases hbody : loop.body s with
      | again next =>
          rw [after_succ_again hbody]
          exact ih (Nat.lt_of_lt_of_le (hlower s next hbody) (Nat.le_of_lt_succ hn))
      | leave result => exact ⟨result, after_succ_leave hbody n⟩

/-- The loop leaves with this result. -/
def LeavesWith (loop : Loop σ ρ) (s : σ) (result : ρ) : Prop := ∃ n, loop.after n s = .leave result

theorem leavesWith_of_leave {loop : Loop σ ρ} {s : σ} {result : ρ}
    (hbody : loop.body s = .leave result) : loop.LeavesWith s result :=
  ⟨1, after_succ_leave hbody 0⟩

theorem LeavesWith.of_again {loop : Loop σ ρ} {s next : σ} {result : ρ}
    (h : loop.LeavesWith next result) (hbody : loop.body s = .again next) :
    loop.LeavesWith s result := by
  obtain ⟨n, hn⟩ := h
  exact ⟨n + 1, (after_succ_again hbody n).trans hn⟩

/-- A loop leaves with one result only. -/
theorem LeavesWith.eq {loop : Loop σ ρ} {s : σ} {result other : ρ} (h : loop.LeavesWith s result)
    {n : Nat} (hn : loop.after n s = .leave other) : other = result := by
  obtain ⟨m, hm⟩ := h
  have hboth := after_add_leave hm n
  rw [Nat.add_comm, after_add_leave hn m] at hboth
  exact Pass.leave.inj hboth

/-! ## Observable behaviour -/

/-- How an observer reads a loop: what has been written at a loop head, what
had been written when the loop left, and the result it left with. -/
structure View (σ : Type u) (ρ : Type v) (ω γ : Type w) where
  heads : σ → List ω
  final : ρ → List ω
  result : ρ → γ

variable {γ : Type w}

/-- The list written after a number of passes. -/
def View.written (view : View σ ρ ω γ) : Pass σ ρ → List ω
  | .again s => view.heads s
  | .leave r => view.final r

/-- The result, once the loop has left. -/
def View.outcome (view : View σ ρ ω γ) : Pass σ ρ → Option γ
  | .again _ => none
  | .leave r => some (view.result r)

/-- The loop writes `x` as item `i` of its output at some point of its run. -/
def Emits (view : View σ ρ ω γ) (loop : Loop σ ρ) (s : σ) (i : Nat) (x : ω) : Prop :=
  ∃ n, (view.written (loop.after n s))[i]? = some x

/-- The loop leaves with this complete output and this result. -/
def Finishes (view : View σ ρ ω γ) (loop : Loop σ ρ) (s : σ) (out : List ω) (g : γ) : Prop :=
  ∃ n, view.written (loop.after n s) = out ∧ view.outcome (loop.after n s) = some g

/-- Two runs cannot be told apart: they write the same, possibly infinite,
sequence and they leave with the same output and result, or both never leave. -/
def SameBehaviour (view : View σ ρ ω γ) (first second : Loop σ ρ) (s t : σ) : Prop :=
  (∀ i x, Emits view first s i x ↔ Emits view second t i x) ∧
    ∀ out g, Finishes view first s out g ↔ Finishes view second t out g

/-- Output only ever grows along a run. -/
def Grows (view : View σ ρ ω γ) (loop : Loop σ ρ) : Prop :=
  ∀ s, view.heads s <+: view.written (loop.body s)

theorem written_after_prefix {view : View σ ρ ω γ} {loop : Loop σ ρ} (hgrows : Grows view loop)
    (s : σ) (n : Nat) : view.heads s <+: view.written (loop.after n s) := by
  induction n generalizing s with
  | zero => exact List.prefix_rfl
  | succ n ih =>
      have hstep := hgrows s
      cases hbody : loop.body s with
      | again next =>
          rw [after_succ_again hbody]
          rw [hbody] at hstep
          exact hstep.trans (ih next)
      | leave result =>
          rw [after_succ_leave hbody]
          rw [hbody] at hstep
          exact hstep

theorem written_mono {view : View σ ρ ω γ} {loop : Loop σ ρ} (hgrows : Grows view loop)
    (s : σ) {m n : Nat} (hle : m ≤ n) :
    view.written (loop.after m s) <+: view.written (loop.after n s) := by
  obtain ⟨k, rfl⟩ := Nat.exists_eq_add_of_le hle
  cases hfirst : loop.after m s with
  | again middle =>
      rw [after_add_again hfirst]
      exact written_after_prefix hgrows middle k
  | leave result =>
      simp only [after_add_leave hfirst, List.prefix_rfl]

/-- `second` matches one pass of `first` from related heads, in one or more passes. -/
def Matches (view : View σ ρ ω γ) (second : Loop σ ρ) (R : σ → σ → Prop)
    (pass : Pass σ ρ) (t : σ) : Prop :=
  match pass with
  | .again s => ∃ k t', second.after (k + 1) t = .again t' ∧ R s t'
  | .leave r => ∃ k r', second.after (k + 1) t = .leave r' ∧
      view.final r = view.final r' ∧ view.result r = view.result r'

theorem exists_after_eq {view : View σ ρ ω γ} {first second : Loop σ ρ} {R : σ → σ → Prop}
    (hheads : ∀ s t, R s t → view.heads s = view.heads t)
    (hstep : ∀ s t, R s t → Matches view second R (first.body s) t)
    {s t : σ} (hrel : R s t) (n : Nat) :
    ∃ m, n ≤ m ∧ view.written (first.after n s) = view.written (second.after m t) ∧
      view.outcome (first.after n s) = view.outcome (second.after m t) := by
  induction n generalizing s t with
  | zero => exact ⟨0, Nat.le_refl 0, hheads s t hrel, rfl⟩
  | succ n ih =>
      have hmatch := hstep s t hrel
      cases hbody : first.body s with
      | again next =>
          rw [hbody] at hmatch
          obtain ⟨k, t', hafter, hrel'⟩ := hmatch
          obtain ⟨m, hle, hwritten, houtcome⟩ := ih hrel'
          refine ⟨k + 1 + m, by omega, ?_, ?_⟩
          · rw [after_succ_again hbody, after_add_again hafter, hwritten]
          · rw [after_succ_again hbody, after_add_again hafter, houtcome]
      | leave r =>
          rw [hbody] at hmatch
          obtain ⟨k, r', hafter, hfinal, hresult⟩ := hmatch
          refine ⟨k + 1 + n, by omega, ?_, ?_⟩
          · rw [after_succ_leave hbody, after_add_leave hafter]
            exact hfinal
          · rw [after_succ_leave hbody, after_add_leave hafter]
            exact congrArg some hresult

/-- A simulation in which the second loop takes at least as many passes, and in
which its output grows, makes the two runs indistinguishable. -/
theorem sameBehaviour_of_simulation {view : View σ ρ ω γ} {first second : Loop σ ρ}
    {R : σ → σ → Prop} (hgrows : Grows view second)
    (hheads : ∀ s t, R s t → view.heads s = view.heads t)
    (hstep : ∀ s t, R s t → Matches view second R (first.body s) t)
    {s t : σ} (hrel : R s t) : SameBehaviour view first second s t := by
  refine ⟨fun i x => ⟨?_, ?_⟩, fun out g => ⟨?_, ?_⟩⟩
  · rintro ⟨n, hn⟩
    obtain ⟨m, _, hwritten, _⟩ := exists_after_eq hheads hstep hrel n
    exact ⟨m, hwritten ▸ hn⟩
  · rintro ⟨m, hm⟩
    obtain ⟨m', hle, hwritten, _⟩ := exists_after_eq hheads hstep hrel m
    refine ⟨m, ?_⟩
    obtain ⟨hlt, hx⟩ := List.getElem?_eq_some_iff.mp hm
    rw [hwritten, List.prefix_iff_getElem?.mp (written_mono hgrows t hle) i hlt, hx]
  · rintro ⟨n, hout, hg⟩
    obtain ⟨m, _, hwritten, houtcome⟩ := exists_after_eq hheads hstep hrel n
    exact ⟨m, hwritten ▸ hout, houtcome ▸ hg⟩
  · rintro ⟨m, hout, hg⟩
    obtain ⟨m', hle, hwritten, houtcome⟩ := exists_after_eq hheads hstep hrel m
    obtain ⟨k, rfl⟩ := Nat.exists_eq_add_of_le hle
    cases hleft : second.after m t with
    | again head =>
        rw [hleft] at hg
        cases hg
    | leave r =>
        rw [hleft] at hout hg
        rw [after_add_leave hleft] at hwritten houtcome
        exact ⟨m, hwritten.trans hout, houtcome.trans hg⟩

end Loop

/-! ## Where a climb stops -/

/-- A climb over the rungs `0, 1, 2, …` stops at the first one it does not leave. -/
def StopsAt (Leaves : Nat → Prop) (k : Nat) : Prop :=
  (∀ j < k, Leaves j) ∧ ¬ Leaves k

namespace StopsAt

variable {Leaves Other : Nat → Prop} {i k : Nat}

/-- Two climbs stop on one rung exactly when they decide alike on every rung that
both of them reach. -/
theorem eq_iff (hi : StopsAt Leaves i) (hk : StopsAt Other k) :
    i = k ↔ ∀ n, (∀ j < n, Leaves j ∧ Other j) → (Leaves n ↔ Other n) := by
  constructor
  · rintro rfl n hboth
    rcases Nat.lt_trichotomy n i with hlt | rfl | hgt
    · exact ⟨fun _ => hk.1 n hlt, fun _ => hi.1 n hlt⟩
    · exact ⟨fun h => absurd h hi.2, fun h => absurd h hk.2⟩
    · exact absurd (hboth i hgt).1 hi.2
  · intro halike
    rcases Nat.lt_trichotomy i k with hlt | heq | hgt
    · have hboth : ∀ j < i, Leaves j ∧ Other j :=
        fun j hj => ⟨hi.1 j hj, hk.1 j (Nat.lt_trans hj hlt)⟩
      exact absurd ((halike i hboth).mpr (hk.1 i hlt)) hi.2
    · exact heq
    · have hboth : ∀ j < k, Leaves j ∧ Other j :=
        fun j hj => ⟨hi.1 j (Nat.lt_trans hj hgt), hk.1 j hj⟩
      exact absurd ((halike k hboth).mp (hi.1 k hgt)) hk.2

end StopsAt

end Arcint.Foundation
