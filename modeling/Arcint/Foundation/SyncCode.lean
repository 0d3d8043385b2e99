import Mathlib.Data.List.Infix

/-! # Self-synchronising codes

A text is a sequence of words, and every word starts with an element that stands nowhere
else in a word. So a text can be cut wherever the next element starts a word, and both
sides are texts; and a text that is still growing is a text followed by the beginning of
one word.
-/

namespace Arcint.Foundation

universe u

/-- The words of a code: `inner` elements only continue a word. -/
structure SyncCode (α : Type u) where
  inner : α → Bool
  word : List α → Prop
  shape : ∀ w, word w → ∃ first rest, w = first :: rest ∧ inner first = false ∧
    ∀ a ∈ rest, inner a = true
  prefixFree : ∀ w more, word w → word (w ++ more) → more = []

namespace SyncCode

variable {α : Type u} (code : SyncCode α)

/-- A sequence of words. -/
inductive Text : List α → Prop
  | nil : Text []
  | cons {w rest : List α} : code.word w → Text rest → Text (w ++ rest)

/-- A word may start here: at the end, or at an element that continues none. -/
def Starts : List α → Prop
  | [] => True
  | a :: _ => code.inner a = false

/-- The beginning of a word, without its end. -/
def Cut (part : List α) : Prop := part = [] ∨ ∃ more, more ≠ [] ∧ code.word (part ++ more)

/-- The beginning of a text. -/
def Grows (part : List α) : Prop := ∃ more, code.Text (part ++ more)

variable {code} {a b part : List α}

theorem word_ne_nil {w : List α} (h : code.word w) : w ≠ [] := by
  obtain ⟨first, rest, rfl, _⟩ := code.shape w h
  exact List.cons_ne_nil _ _

theorem Text.starts (h : code.Text a) : code.Starts a := by
  cases h with
  | nil => trivial
  | cons hword _ =>
      obtain ⟨first, rest, rfl, hfirst, _⟩ := code.shape _ hword
      exact hfirst

theorem text_of_word {w : List α} (h : code.word w) : code.Text w := by
  have htext := Text.cons h Text.nil
  rwa [List.append_nil] at htext

theorem Text.append (ha : code.Text a) (hb : code.Text b) : code.Text (a ++ b) := by
  induction ha with
  | nil => exact hb
  | cons hword _ ih =>
      rw [List.append_assoc]
      exact .cons hword ih

theorem Text.flatten {parts : List (List α)} (h : ∀ part ∈ parts, code.Text part) :
    code.Text parts.flatten := by
  induction parts with
  | nil => exact .nil
  | cons part parts ih =>
      rw [List.flatten_cons]
      exact (h part List.mem_cons_self).append
        (ih fun other hother => h other (List.mem_cons_of_mem _ hother))

/-- A text ends with a word. -/
theorem Text.eq_append_word (h : code.Text a) (hne : a ≠ []) :
    ∃ init w, a = init ++ w ∧ code.word w := by
  induction h with
  | nil => exact absurd rfl hne
  | @cons w rest hword _ ih =>
      by_cases hrest : rest = []
      · exact ⟨[], w, by rw [hrest, List.append_nil, List.nil_append], hword⟩
      · obtain ⟨init, last, rfl, hlast⟩ := ih hrest
        exact ⟨w ++ init, last, by rw [List.append_assoc], hlast⟩

/-- Two words that begin one list are the same. -/
theorem word_eq_of_append_eq {w v x y : List α} (hw : code.word w) (hv : code.word v)
    (h : w ++ x = v ++ y) : w = v := by
  rcases List.append_eq_append_iff.mp h with ⟨more, rfl, _⟩ | ⟨more, rfl, _⟩
  · rw [code.prefixFree w more hw hv, List.append_nil]
  · rw [code.prefixFree v more hv hw, List.append_nil]

/-- What stands behind a text in a text is a text. -/
theorem Text.cancel (ha : code.Text a) (h : code.Text (a ++ b)) : code.Text b := by
  induction ha with
  | nil => exact h
  | cons hword _ ih =>
      rw [List.append_assoc] at h
      apply ih
      generalize hwhole : _ ++ (_ ++ b) = whole at h
      cases h with
      | nil => exact absurd (List.append_eq_nil_iff.mp hwhole).1 (word_ne_nil hword)
      | cons hother hrest =>
          obtain rfl := word_eq_of_append_eq hword hother hwhole
          rwa [List.append_cancel_left hwhole]

/-- A text is cut where a word starts. -/
theorem Text.split (h : code.Text (a ++ b)) (hb : code.Starts b) : code.Text a ∧ code.Text b := by
  generalize hwhole : a ++ b = whole at h
  induction h generalizing a with
  | nil =>
      obtain ⟨rfl, rfl⟩ := List.append_eq_nil_iff.mp hwhole
      exact ⟨.nil, .nil⟩
  | @cons w rest hword hrest ih =>
      rcases List.append_eq_append_iff.mp hwhole with ⟨more, hw, hmore⟩ | ⟨more, rfl, hmore⟩
      · -- the cut is inside the word, so at its start or at its end
        cases a with
        | nil =>
            refine ⟨.nil, ?_⟩
            rw [List.nil_append] at hwhole hw
            rw [hwhole]
            exact .cons hword hrest
        | cons first init =>
            cases more with
            | nil =>
                rw [List.append_nil] at hw
                rw [List.nil_append] at hmore
                rw [← hw, hmore]
                exact ⟨text_of_word hword, hrest⟩
            | cons x more =>
                obtain ⟨_, tail, htail, _, hinner⟩ := code.shape w hword
                rw [hw, List.cons_append] at htail
                obtain ⟨_, rfl⟩ := List.cons_eq_cons.mp htail
                have hx := hinner x (List.mem_append_right _ List.mem_cons_self)
                rw [hmore] at hb
                rw [show code.inner x = false from hb] at hx
                cases hx
      · obtain ⟨hinit, hrest⟩ := ih hmore.symm
        exact ⟨.cons hword hinit, hrest⟩

/-- The beginning of a text is a text and the beginning of a word. -/
theorem Grows.split (h : code.Grows part) :
    ∃ whole cut, part = whole ++ cut ∧ code.Text whole ∧ code.Cut cut := by
  obtain ⟨more, htext⟩ := h
  generalize hall : part ++ more = all at htext
  induction htext generalizing part with
  | nil => exact ⟨[], [], (List.append_eq_nil_iff.mp hall).1, .nil, .inl rfl⟩
  | @cons w rest hword _ ih =>
      rcases List.append_eq_append_iff.mp hall with ⟨x, hw, _⟩ | ⟨x, rfl, hx⟩
      · by_cases hx : x = []
        · rw [hx, List.append_nil] at hw
          exact ⟨w, [], by rw [hw, List.append_nil], text_of_word hword, .inl rfl⟩
        · exact ⟨[], part, rfl, .nil, .inr ⟨x, hx, hw ▸ hword⟩⟩
      · obtain ⟨whole, cut, rfl, hwhole, hcut⟩ := ih hx.symm
        exact ⟨w ++ whole, cut, by rw [List.append_assoc], .cons hword hwhole, hcut⟩

theorem Text.grows (h : code.Text a) : code.Grows a := ⟨[], by rwa [List.append_nil]⟩

theorem Grows.of_append (h : code.Grows (a ++ b)) : code.Grows a := by
  obtain ⟨more, htext⟩ := h
  exact ⟨b ++ more, by rwa [← List.append_assoc]⟩

/-- What grows behind a text. -/
theorem Grows.cancel (ha : code.Text a) (h : code.Grows (a ++ b)) : code.Grows b := by
  obtain ⟨more, htext⟩ := h
  rw [List.append_assoc] at htext
  exact ⟨more, ha.cancel htext⟩

/-- The beginning of a text is a text where a word starts behind it. -/
theorem Grows.text_of_starts (h : code.Grows (a ++ b)) (hne : b ≠ []) (hb : code.Starts b) :
    code.Text a := by
  obtain ⟨more, htext⟩ := h
  rw [List.append_assoc] at htext
  refine (htext.split ?_).1
  cases b with
  | nil => exact absurd rfl hne
  | cons first rest => exact hb

/-- Nothing is left of a word that is whole. -/
theorem Cut.eq_nil (h : code.Cut part) (htext : code.Text part) : part = [] := by
  rcases h with hnil | ⟨more, hmore, hword⟩
  · exact hnil
  · generalize hpart : part = p at htext hword
    cases htext with
    | nil => rfl
    | @cons w rest hfirst _ =>
        rw [List.append_assoc] at hword
        have hnone := code.prefixFree w _ hfirst hword
        exact absurd (List.append_eq_nil_iff.mp hnone).2 hmore

end SyncCode

end Arcint.Foundation
