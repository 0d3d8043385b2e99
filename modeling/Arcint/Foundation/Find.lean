import Mathlib.Data.List.Infix

/-! # Searching a text that is still growing

The first position of a pattern in a text, and the longest end of the text that
may still become the pattern. Everything before that end is clear: however the
text goes on, the pattern does not start there.
-/

namespace Arcint.Foundation

universe u

variable {α : Type u}

section Search

variable [DecidableEq α]

/-- The first position at which the pattern stands. -/
def find (pattern : List α) : List α → Option Nat
  | [] => if pattern = [] then some 0 else none
  | a :: text => if pattern <+: a :: text then some 0 else (find pattern text).map (· + 1)

/-- The first position from `start` on. -/
def findFrom (pattern text : List α) (start : Nat) : Option Nat :=
  (find pattern (text.drop start)).map (start + ·)

/-- The longest end of the text, of at most `k` elements, that begins the pattern. -/
def partialSuffix (pattern text : List α) : Nat → Nat
  | 0 => 0
  | k + 1 =>
      if text.drop (text.length - (k + 1)) = pattern.take (k + 1) then k + 1
      else partialSuffix pattern text k

variable {pattern text : List α}

theorem find_eq_none_iff : find pattern text = none ↔ ∀ i, ¬pattern <+: text.drop i := by
  induction text with
  | nil => simp [find]
  | cons a text ih =>
      rw [find]
      split
      next hhere =>
        constructor
        · intro h
          cases h
        · intro h
          exact absurd hhere (h 0)
      next hhere =>
        rw [Option.map_eq_none_iff, ih]
        constructor
        · intro h i
          cases i with
          | zero => exact hhere
          | succ i => exact h i
        · intro h i
          exact h (i + 1)

/-- A position that `find` returns is an occurrence, and the first one. -/
theorem find_eq_some {i : Nat} (h : find pattern text = some i) :
    pattern <+: text.drop i ∧ i ≤ text.length ∧ ∀ j < i, ¬pattern <+: text.drop j := by
  induction text generalizing i with
  | nil =>
      rw [find] at h
      split at h
      next hnil =>
        cases h
        simp [hnil]
      next => cases h
  | cons a text ih =>
      rw [find] at h
      split at h
      next hhere =>
        cases h
        exact ⟨hhere, Nat.zero_le _, fun j hj => absurd hj (Nat.not_lt_zero j)⟩
      next hhere =>
        obtain ⟨later, hlater, rfl⟩ := Option.map_eq_some_iff.mp h
        obtain ⟨hoccurs, hle, hfirst⟩ := ih hlater
        refine ⟨hoccurs, Nat.succ_le_succ hle, ?_⟩
        intro j hj
        cases j with
        | zero => exact hhere
        | succ j => exact hfirst j (Nat.lt_of_succ_lt_succ hj)

/-- The first occurrence is what `find` returns. -/
theorem find_of_first {i : Nat} (hoccurs : pattern <+: text.drop i)
    (hfirst : ∀ j < i, ¬pattern <+: text.drop j) : find pattern text = some i := by
  cases hfind : find pattern text with
  | none => exact absurd hoccurs (find_eq_none_iff.mp hfind i)
  | some found =>
      obtain ⟨hfound, -, hbefore⟩ := find_eq_some hfind
      rcases Nat.lt_trichotomy found i with hlt | rfl | hlt
      · exact absurd hfound (hfirst found hlt)
      · rfl
      · exact absurd hoccurs (hbefore i hlt)

/-- A position that `findFrom` returns is the first occurrence from `start` on. -/
theorem findFrom_eq_some {start i : Nat} (h : findFrom pattern text start = some i) :
    start ≤ i ∧ pattern <+: text.drop i ∧
      ∀ j, start ≤ j → j < i → ¬pattern <+: text.drop j := by
  obtain ⟨found, hfound, rfl⟩ := Option.map_eq_some_iff.mp h
  obtain ⟨hoccurs, -, hfirst⟩ := find_eq_some hfound
  rw [List.drop_drop] at hoccurs
  refine ⟨Nat.le_add_right _ _, hoccurs, ?_⟩
  intro j hle hlt hj
  apply hfirst (j - start) (by omega)
  rwa [List.drop_drop, Nat.add_sub_cancel' hle]

/-- No longer end begins the pattern. -/
theorem le_partialSuffix {j k : Nat} (hjk : j ≤ k)
    (h : text.drop (text.length - j) = pattern.take j) : j ≤ partialSuffix pattern text k := by
  induction k with
  | zero => omega
  | succ k ih =>
      rw [partialSuffix]
      split
      next => exact hjk
      next hne =>
        apply ih
        have hj : j ≠ k + 1 := by
          rintro rfl
          exact hne h
        omega

theorem partialSuffix_le (pattern text : List α) (k : Nat) : partialSuffix pattern text k ≤ k := by
  induction k with
  | zero => exact Nat.le_refl 0
  | succ k ih =>
      rw [partialSuffix]
      split
      next => exact Nat.le_refl _
      next => exact ih.trans (Nat.le_succ k)

/-- The end it returns begins the pattern. -/
theorem drop_partialSuffix (pattern text : List α) (k : Nat) :
    text.drop (text.length - partialSuffix pattern text k) =
      pattern.take (partialSuffix pattern text k) := by
  induction k with
  | zero => simp [partialSuffix]
  | succ k ih =>
      rw [partialSuffix]
      split
      next hends => exact hends
      next => exact ih

end Search

/-- However the text goes on, the pattern does not start before `n`. -/
def Clear (pattern text : List α) (n : Nat) : Prop :=
  ∀ more i, pattern <+: (text ++ more).drop i → n ≤ i

section Clear

variable {pattern text : List α} {n : Nat}

/-- An occurrence ends inside the text. -/
theorem occurs_le_length (hpattern : pattern ≠ []) {i : Nat} (h : pattern <+: text.drop i) :
    i + pattern.length ≤ text.length := by
  have hlength := h.length_le
  have hpos := List.length_pos_iff.mpr hpattern
  rw [List.length_drop] at hlength
  omega

/-- An occurrence that ends before the text was continued. -/
theorem occurs_of_append {more : List α} {i : Nat} (h : pattern <+: (text ++ more).drop i)
    (hend : i + pattern.length ≤ text.length) : pattern <+: text.drop i := by
  rw [List.drop_append_of_le_length (by omega)] at h
  apply List.prefix_of_prefix_length_le h (List.prefix_append _ _)
  rw [List.length_drop]
  omega

theorem clear_zero : Clear pattern text 0 := fun _ i _ => Nat.zero_le i

theorem Clear.append (h : Clear pattern text n) (more : List α) :
    Clear pattern (text ++ more) n := by
  intro rest i hoccurs
  rw [List.append_assoc] at hoccurs
  exact h (more ++ rest) i hoccurs

/-- What is clear behind a clear beginning. -/
theorem Clear.add {first : List α} (h : Clear pattern (first ++ text) first.length)
    (hrest : Clear pattern text n) : Clear pattern (first ++ text) (first.length + n) := by
  intro more i hoccurs
  have hfirst := h more i hoccurs
  have hafter : pattern <+: (text ++ more).drop (i - first.length) := by
    rw [List.append_assoc, List.drop_append, List.drop_eq_nil_of_le hfirst] at hoccurs
    exact hoccurs
  have := hrest more _ hafter
  omega

variable [DecidableEq α]

/-- The first occurrence stays the first. -/
theorem clear_of_find (hpattern : pattern ≠ []) (h : find pattern text = some n) :
    Clear pattern text n := by
  intro more i hoccurs
  obtain ⟨hfound, -, hfirst⟩ := find_eq_some h
  have hinside := occurs_le_length hpattern hfound
  by_contra hlt
  exact hfirst i (by omega) (occurs_of_append hoccurs (by omega))

/-- Without an occurrence, only the end that begins the pattern may become one. -/
theorem clear_of_find_none (h : find pattern text = none) :
    Clear pattern text
      (text.length - partialSuffix pattern text (min text.length (pattern.length - 1))) := by
  intro more i hoccurs
  by_contra hlt
  have hlength : i < text.length := by omega
  have hover : text.length < i + pattern.length := by
    by_contra hle
    exact find_eq_none_iff.mp h i (occurs_of_append hoccurs (by omega))
  -- the occurrence runs over the end of the text, so that end begins the pattern
  have hrest : text.drop i = pattern.take (text.length - i) := by
    rw [List.drop_append_of_le_length (by omega)] at hoccurs
    rw [List.prefix_iff_eq_take.mp hoccurs, List.take_take, Nat.min_eq_left (by omega)]
    rw [List.take_append_of_le_length (by rw [List.length_drop])]
    rw [List.take_of_length_le (by rw [List.length_drop])]
  have hheld : text.length - i ≤
      partialSuffix pattern text (min text.length (pattern.length - 1)) := by
    apply le_partialSuffix (by omega)
    rw [Nat.sub_sub_self (by omega)]
    exact hrest
  omega

/-- A search need not look at what is clear. -/
theorem Clear.findFrom_eq (h : Clear pattern text n) {start : Nat} (hstart : start ≤ n) :
    findFrom pattern text start = find pattern text := by
  unfold findFrom
  have hclear : ∀ i < start, ¬pattern <+: text.drop i := by
    intro i hi hoccurs
    have := h [] i (by rwa [List.append_nil])
    omega
  cases hfind : find pattern (text.drop start) with
  | none =>
      symm
      apply find_eq_none_iff.mpr
      intro i hoccurs
      rcases Nat.lt_or_ge i start with hlt | hge
      · exact hclear i hlt hoccurs
      · apply find_eq_none_iff.mp hfind (i - start)
        rwa [List.drop_drop, Nat.add_sub_cancel' hge]
  | some found =>
      obtain ⟨hfound, -, hfirst⟩ := find_eq_some hfind
      rw [List.drop_drop] at hfound
      symm
      apply find_of_first hfound
      intro j hj hoccurs
      rcases Nat.lt_or_ge j start with hlt | hge
      · exact hclear j hlt hoccurs
      · apply hfirst (j - start) (by omega)
        rwa [List.drop_drop, Nat.add_sub_cancel' hge]

/-- A search behind a clear beginning. -/
theorem Clear.find_append {first : List α} (h : Clear pattern (first ++ text) first.length)
    (more : List α) :
    find pattern (first ++ text ++ more) =
      (find pattern (text ++ more)).map (first.length + ·) := by
  rw [← (h.append more).findFrom_eq (Nat.le_refl first.length), findFrom, List.append_assoc,
    List.drop_left]

/-- The end that may become the pattern lies behind a clear beginning. -/
theorem Clear.partialSuffix_append {first : List α}
    (h : Clear pattern (first ++ text) first.length) :
    partialSuffix pattern (first ++ text) (min (first ++ text).length (pattern.length - 1)) =
      partialSuffix pattern text (min text.length (pattern.length - 1)) := by
  have hlength : (first ++ text).length = first.length + text.length := List.length_append
  apply Nat.le_antisymm
  · generalize hj : partialSuffix pattern (first ++ text) _ = j
    have hle : j ≤ min (first ++ text).length (pattern.length - 1) := hj ▸ partialSuffix_le _ _ _
    have hends : (first ++ text).drop ((first ++ text).length - j) = pattern.take j :=
      hj ▸ drop_partialSuffix _ _ _
    have hinside : j ≤ text.length := by
      by_contra hlong
      have hoccurs : pattern <+: (first ++ text ++ pattern.drop j).drop
          ((first ++ text).length - j) := by
        rw [List.drop_append_of_le_length (Nat.sub_le _ _), hends, List.take_append_drop]
      have := h _ _ hoccurs
      omega
    apply le_partialSuffix (by omega)
    rw [← hends, hlength, Nat.add_sub_assoc hinside, List.drop_append]
    simp
  · generalize hj : partialSuffix pattern text _ = j
    have hle : j ≤ min text.length (pattern.length - 1) := hj ▸ partialSuffix_le _ _ _
    have hends : text.drop (text.length - j) = pattern.take j := hj ▸ drop_partialSuffix _ _ _
    apply le_partialSuffix (by omega)
    rw [← hends, hlength, Nat.add_sub_assoc (by omega), List.drop_append]
    simp

end Clear

/-! ## Delimiters -/

/-- A delimiter holds its first element only once. -/
def Delimiter : List α → Prop
  | [] => False
  | c :: rest => c ∉ rest

instance [DecidableEq α] : DecidablePred (Delimiter (α := α))
  | [] => inferInstanceAs (Decidable False)
  | _ :: _ => inferInstanceAs (Decidable (_ ∉ _))

section Delimiter

variable {pattern before after : List α} {c : α}

theorem infix_iff_occurs {text : List α} : pattern <:+: text ↔ ∃ i, pattern <+: text.drop i := by
  constructor
  · rintro ⟨first, last, rfl⟩
    refine ⟨first.length, ?_⟩
    rw [List.append_assoc, List.drop_left]
    exact List.prefix_append _ _
  · rintro ⟨i, hoccurs⟩
    exact hoccurs.isInfix.trans (List.drop_suffix i text).isInfix

/-- An occurrence over a boundary holds the element behind it. -/
theorem getElem?_of_occurs {i : Nat} (h : pattern <+: (before ++ c :: after).drop i)
    (hstart : i ≤ before.length) (hend : before.length < i + pattern.length) :
    pattern[before.length - i]? = some c := by
  have hsame := List.prefix_iff_getElem?.mp h (before.length - i) (by omega)
  rw [List.getElem?_drop, Nat.add_sub_cancel' hstart, List.getElem?_append_right (Nat.le_refl _),
    Nat.sub_self] at hsame
  rw [List.getElem?_eq_getElem (by omega)]
  exact hsame.symm

/-- A pattern is in neither part of a text, nor over an element it does not hold. -/
theorem not_infix_append_cons (hc : c ∉ pattern) (hbefore : ¬ pattern <:+: before)
    (hafter : ¬ pattern <:+: after) : ¬ pattern <:+: before ++ c :: after := by
  intro h
  obtain ⟨i, hoccurs⟩ := infix_iff_occurs.mp h
  rcases Nat.lt_or_ge before.length i with hlate | hstart
  · -- the occurrence begins behind the element
    refine hafter (infix_iff_occurs.mpr ⟨i - before.length - 1, ?_⟩)
    have hsplit : i = before.length + ((i - before.length - 1) + 1) := by omega
    rwa [hsplit, ← List.drop_drop, List.drop_left, List.drop_succ_cons] at hoccurs
  · rcases Nat.lt_or_ge before.length (i + pattern.length) with hover | hearly
    · exact hc (List.mem_of_getElem? (getElem?_of_occurs hoccurs hstart hover))
    · exact hbefore (infix_iff_occurs.mpr ⟨i, occurs_of_append hoccurs hearly⟩)

/-- A pattern is in a text with one place for its first element only at that place. -/
theorem not_infix_cons {text : List α} (hstarts : ¬ pattern <+: text) (htext : c ∉ text) :
    ¬ c :: pattern <:+: c :: text := by
  intro h
  obtain ⟨i, hoccurs⟩ := infix_iff_occurs.mp h
  cases i with
  | zero => exact hstarts (List.cons_prefix_cons.mp hoccurs).2
  | succ i => exact htext (List.mem_of_mem_drop (hoccurs.subset List.mem_cons_self))

variable [DecidableEq α]

/-- The first place of a delimiter is behind a text that does not hold it. -/
theorem find_delimiter (h : Delimiter pattern) (hbefore : ¬ pattern <:+: before)
    (after : List α) : find pattern (before ++ (pattern ++ after)) = some before.length := by
  apply find_of_first
  · rw [List.drop_left]
    exact List.prefix_append _ _
  · intro j hj hoccurs
    cases pattern with
    | nil => exact h
    | cons c rest =>
        rcases Nat.lt_or_ge before.length (j + (c :: rest).length) with hover | hearly
        · -- the occurrence would hold its first element again
          have hmem := getElem?_of_occurs hoccurs hj.le hover
          obtain ⟨k, hk⟩ := Nat.exists_eq_succ_of_ne_zero (Nat.sub_ne_zero_of_lt hj)
          rw [hk, List.getElem?_cons_succ] at hmem
          exact h (List.mem_of_getElem? hmem)
        · exact hbefore (infix_iff_occurs.mpr ⟨j, occurs_of_append hoccurs hearly⟩)

/-- A search from the end of what is done. -/
theorem findFrom_delimiter {text done after : List α} {start : Nat} (h : Delimiter pattern)
    (hbefore : ¬ pattern <:+: before) (hstart : start = done.length)
    (htext : text = done ++ (before ++ (pattern ++ after))) :
    findFrom pattern text start = some (start + before.length) := by
  unfold findFrom
  rw [htext, hstart, List.drop_left, find_delimiter h hbefore, Option.map_some]

end Delimiter

end Arcint.Foundation
