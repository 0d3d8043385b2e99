import Mathlib.Data.List.Basic

/-! # Sequences of refusals

A validator runs its checks in order and stops at the first that fails. What it
accepts meets every check.
-/

namespace Arcint.Foundation

universe u v w

variable {ε : Type u} {α : Type v}

/-- Refuse with `error` unless the condition holds. -/
def ensure (condition : Prop) [Decidable condition] (error : ε) : Except ε Unit :=
  if condition then .ok () else .error error

/-- Run a check on every element, in order. -/
def checkAll (check : α → Except ε Unit) : List α → Except ε Unit
  | [] => .ok ()
  | a :: rest =>
      match check a with
      | .ok () => checkAll check rest
      | .error e => .error e

/-- Parse every element, in order, up to the first that is refused. -/
def parseAll {β : Type w} (parse : α → Except ε β) : List α → Except ε (List β)
  | [] => .ok []
  | a :: rest =>
      match parse a with
      | .error e => .error e
      | .ok b =>
          match parseAll parse rest with
          | .error e => .error e
          | .ok bs => .ok (b :: bs)

@[simp] theorem ensure_ok (condition : Prop) [Decidable condition] (error : ε) (u : Unit) :
    ensure condition error = .ok u ↔ condition := by
  unfold ensure
  split <;> simp_all

@[simp] theorem checkAll_ok (check : α → Except ε Unit) (l : List α) (u : Unit) :
    checkAll check l = .ok u ↔ ∀ a ∈ l, check a = .ok () := by
  induction l with
  | nil => simp [checkAll]
  | cons a rest ih =>
      unfold checkAll
      cases h : check a with
      | ok _ => simp [h, ih]
      | error e => simp [h]

theorem parseAll_eq_ok {β : Type w} {parse : α → Except ε β} {f : α → β} {l : List α}
    (h : ∀ a ∈ l, parse a = .ok (f a)) : parseAll parse l = .ok (l.map f) := by
  induction l with
  | nil => rfl
  | cons a rest ih =>
      rw [parseAll, h a List.mem_cons_self, ih fun b hb => h b (List.mem_cons_of_mem _ hb)]
      rfl

/-- What was parsed comes from the list, and every element was parsed. -/
theorem parseAll_ok {β : Type w} {parse : α → Except ε β} {l : List α} {bs : List β}
    (h : parseAll parse l = .ok bs) : List.Forall₂ (fun a b => parse a = .ok b) l bs := by
  induction l generalizing bs with
  | nil =>
      cases h
      exact .nil
  | cons a rest ih =>
      unfold parseAll at h
      split at h
      next => cases h
      next b hb =>
        split at h
        next => cases h
        next bs hbs =>
          cases h
          exact .cons hb (ih hbs)

theorem mem_parseAll {β : Type w} {parse : α → Except ε β} {l : List α} {bs : List β}
    (h : parseAll parse l = .ok bs) {b : β} : b ∈ bs ↔ ∃ a ∈ l, parse a = .ok b := by
  have hparsed := parseAll_ok h
  clear h
  induction hparsed with
  | nil => simp
  | cons hhead _ ih => simp [ih, hhead, eq_comm]

theorem parseAll_eq_map {β : Type w} {parse : α → Except ε β} {f : α → β}
    (hf : ∀ a b, parse a = .ok b → b = f a) {l : List α} {bs : List β}
    (h : parseAll parse l = .ok bs) : bs = l.map f := by
  have hparsed := parseAll_ok h
  clear h
  induction hparsed with
  | nil => rfl
  | cons hhead _ ih => rw [List.map_cons, ← hf _ _ hhead, ih]

/-- What every parse keeps of an element, a whole parse keeps of the list. -/
theorem parseAll_keeps {β : Type w} {γ : Type*} {parse : α → Except ε β} {f : α → γ} {g : β → γ}
    (hkeeps : ∀ a b, parse a = .ok b → g b = f a) {l : List α} {bs : List β}
    (h : parseAll parse l = .ok bs) : bs.map g = l.map f := by
  have hparsed := parseAll_ok h
  clear h
  induction hparsed with
  | nil => rfl
  | cons hhead _ ih => rw [List.map_cons, List.map_cons, hkeeps _ _ hhead, ih]

theorem exists_of_parseAll {β : Type w} {parse : α → Except ε β} {l : List α} {bs : List β}
    (h : parseAll parse l = .ok bs) {a : α} (ha : a ∈ l) : ∃ b, parse a = .ok b := by
  have hparsed := parseAll_ok h
  clear h
  induction hparsed with
  | nil => cases ha
  | cons hhead _ ih =>
      rcases List.mem_cons.mp ha with rfl | ha
      · exact ⟨_, hhead⟩
      · exact ih ha

/-- A computation that succeeds has succeeded in its first part. -/
theorem bind_ok {β γ : Type w} {first : Except ε β} {next : β → Except ε γ} {result : γ} :
    (first >>= next) = .ok result ↔ ∃ b, first = .ok b ∧ next b = .ok result := by
  cases first with
  | ok b => simp [bind, Except.bind]
  | error e => simp [bind, Except.bind]

/-- Renaming errors leaves results alone. -/
theorem mapError_ok {ε' : Type*} {β : Type w} {first : Except ε β} {f : ε → ε'} {result : β} :
    first.mapError f = .ok result ↔ first = .ok result := by
  cases first with
  | ok b => simp [Except.mapError]
  | error e => simp [Except.mapError]

/-- A parser that refuses exactly the elements with a property refuses a list for the first. -/
theorem parseAll_eq_find? {β : Type w} {parse : α → Except ε β} {refuses : α → Bool}
    {error : α → ε} {f : α → β}
    (hparse : ∀ a, parse a = if refuses a then .error (error a) else .ok (f a)) (l : List α) :
    parseAll parse l =
      match l.find? refuses with
      | some a => .error (error a)
      | none => .ok (l.map f) := by
  induction l with
  | nil => rfl
  | cons a rest ih =>
      unfold parseAll
      rw [hparse a, ih, List.find?_cons]
      cases hrefuses : refuses a with
      | true => rfl
      | false =>
          cases hrest : rest.find? refuses with
          | some b => rfl
          | none => rfl

end Arcint.Foundation
