import Mathlib.Data.List.Basic

/-! # Fields behind separators

A text of fields with separators between them is taken apart again in one way only, from the
end where no field holds the separator.
-/

namespace Arcint.Foundation

variable {α : Type*} {β : Type*} {sep : β} {a b a' b' : List β}

/-- The first separator. -/
theorem eq_of_sep_first (ha : sep ∉ a) (ha' : sep ∉ a') (h : a ++ sep :: b = a' ++ sep :: b') :
    a = a' ∧ b = b' := by
  induction a generalizing a' with
  | nil =>
      cases a' with
      | nil =>
          cases h
          exact ⟨rfl, rfl⟩
      | cons c a' =>
          cases h
          exact absurd List.mem_cons_self ha'
  | cons c a ih =>
      cases a' with
      | nil =>
          cases h
          exact absurd List.mem_cons_self ha
      | cons c' a' =>
          obtain ⟨rfl, htail⟩ := List.cons.inj h
          obtain ⟨rfl, rfl⟩ := ih (fun hmem => ha (List.mem_cons_of_mem _ hmem))
            (fun hmem => ha' (List.mem_cons_of_mem _ hmem)) htail
          exact ⟨rfl, rfl⟩

/-- The last separator. -/
theorem eq_of_sep_last (hb : sep ∉ b) (hb' : sep ∉ b') (h : a ++ sep :: b = a' ++ sep :: b') :
    a = a' ∧ b = b' := by
  have hreverse := congrArg List.reverse h
  simp only [List.reverse_append, List.reverse_cons, List.append_assoc, List.singleton_append]
    at hreverse
  obtain ⟨hlast, hfirst⟩ := eq_of_sep_first (by simpa using hb) (by simpa using hb') hreverse
  exact ⟨List.reverse_injective hfirst, List.reverse_injective hlast⟩

/-- Fields, each with its separator in front. -/
def fields (sep : β) (text : α → List β) (l : List α) : List β := l.flatMap fun x => sep :: text x

@[simp] theorem fields_nil (sep : β) (text : α → List β) : fields sep text [] = [] := rfl

theorem fields_cons (sep : β) (text : α → List β) (x : α) (l : List α) :
    fields sep text (x :: l) = sep :: (text x ++ fields sep text l) := rfl

/-- Joined texts are the first and the fields of the others. -/
theorem intercalate_cons_eq (sep : β) (first : List β) (others : List (List β)) :
    List.intercalate [sep] (first :: others) = first ++ fields sep id others := by
  induction others generalizing first with
  | nil => simp
  | cons next others ih =>
      rw [List.intercalate_cons_cons, ih, fields_cons, List.append_assoc, List.singleton_append]
      rfl

theorem mem_fields {sep : β} {text : α → List β} {l : List α} {b : β}
    (h : b ∈ fields sep text l) : b = sep ∨ ∃ x ∈ l, b ∈ text x := by
  obtain ⟨x, hx, hb⟩ := List.mem_flatMap.mp h
  exact (List.mem_cons.mp hb).imp_right fun hb => ⟨x, hx, hb⟩

theorem mem_intercalate {seps : List β} {texts : List (List β)} {b : β}
    (h : b ∈ List.intercalate seps texts) : b ∈ seps ∨ ∃ text ∈ texts, b ∈ text := by
  induction texts with
  | nil => simp at h
  | cons first others ih =>
      cases others with
      | nil => exact .inr ⟨first, List.mem_singleton_self _, by simpa using h⟩
      | cons next others =>
          rw [List.intercalate_cons_cons, List.mem_append, List.mem_append] at h
          rcases h with (h | h) | h
          · exact .inr ⟨first, List.mem_cons_self, h⟩
          · exact .inl h
          · exact (ih h).imp_right fun ⟨text, htext, hb⟩ =>
              ⟨text, List.mem_cons_of_mem _ htext, hb⟩

/-- What stands before the fields. -/
theorem eq_of_append_fields {text : α → List β} {l l' : List α} (ha : sep ∉ a) (ha' : sep ∉ a')
    (h : a ++ fields sep text l = a' ++ fields sep text l') :
    a = a' ∧ fields sep text l = fields sep text l' := by
  cases l with
  | nil =>
      cases l' with
      | nil => simpa using h
      | cons x l' =>
          rw [fields_nil, List.append_nil, fields_cons] at h
          exact absurd (h ▸ List.mem_append_right _ List.mem_cons_self) ha
  | cons x l =>
      cases l' with
      | nil =>
          rw [fields_nil, List.append_nil, fields_cons] at h
          exact absurd (h ▸ List.mem_append_right _ List.mem_cons_self) ha'
      | cons x' l' =>
          rw [fields_cons, fields_cons] at h ⊢
          obtain ⟨hbefore, hbehind⟩ := eq_of_sep_first ha ha' h
          exact ⟨hbefore, congrArg _ hbehind⟩

/-- Fields are told apart when their texts are and hold no separator. -/
theorem fields_injective {text : α → List β} (hsep : ∀ x, sep ∉ text x)
    (hinj : Function.Injective text) : Function.Injective (fields sep text) := by
  intro l
  induction l with
  | nil =>
      intro l' h
      cases l' with
      | nil => rfl
      | cons x l' => cases h
  | cons x l ih =>
      intro l' h
      cases l' with
      | nil => cases h
      | cons x' l' =>
          rw [fields_cons, fields_cons] at h
          obtain ⟨htext, hrest⟩ := eq_of_append_fields (hsep x) (hsep x') (List.cons.inj h).2
          rw [hinj htext, ih hrest]

end Arcint.Foundation
