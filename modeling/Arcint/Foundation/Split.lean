import Mathlib.Data.List.Basic
import Mathlib.Data.List.Flatten
import Mathlib.Data.List.DropRight
import Mathlib.Algebra.Order.BigOperators.Group.List
import Mathlib.Algebra.Order.Group.Nat

/-! # Lines and tokens

A text is cut into lines and a line into tokens, in each case at the elements
that satisfy a predicate. Cutting first at some of the separators and then at
all of them gives the same pieces as cutting at all of them.
-/

namespace Arcint.Foundation

universe u v

variable {α : Type u} {β : Type v} {p q : α → Bool}

/-- The non-empty pieces between separators. -/
def tokens (p : α → Bool) (l : List α) : List (List α) :=
  (l.splitOnP p).filter (!·.isEmpty)

theorem splitOnP_flatMap (hqp : ∀ a, q a = true → p a = true) (l : List α) :
    (l.splitOnP q).flatMap (List.splitOnP p) = l.splitOnP p := by
  induction l with
  | nil => simp
  | cons a l ih =>
      obtain ⟨head, rest, hsplit⟩ := List.exists_cons_of_ne_nil (List.splitOnP_ne_nil q l)
      rw [hsplit, List.flatMap_cons] at ih
      rw [List.splitOnP_cons_eq_if_modifyHead, List.splitOnP_cons_eq_if_modifyHead, hsplit]
      by_cases hq : q a = true
      · rw [if_pos hq, if_pos (hqp a hq), ← ih]
        simp
      · rw [if_neg hq, List.modifyHead_cons, List.flatMap_cons,
          List.splitOnP_cons_eq_if_modifyHead, ← ih]
        by_cases hp : p a = true
        · rw [if_pos hp, if_pos hp]
          simp
        · rw [if_neg hp, if_neg hp]
          obtain ⟨first, more, hfirst⟩ :=
            List.exists_cons_of_ne_nil (List.splitOnP_ne_nil p head)
          rw [hfirst]
          simp

theorem splitOnP_congr {l : List α} (h : ∀ a ∈ l, p a = q a) : l.splitOnP p = l.splitOnP q := by
  induction l with
  | nil => simp
  | cons a l ih =>
      rw [List.splitOnP_cons_eq_if_modifyHead, List.splitOnP_cons_eq_if_modifyHead,
        h a List.mem_cons_self, ih fun b hb => h b (List.mem_cons_of_mem _ hb)]

/-- The elements of a piece are elements of the list, and none is a separator. -/
theorem mem_of_mem_splitOnP {l piece : List α} (hpiece : piece ∈ l.splitOnP p) {a : α}
    (ha : a ∈ piece) : a ∈ l ∧ p a = false := by
  induction l generalizing piece with
  | nil =>
      simp at hpiece
      subst hpiece
      cases ha
  | cons b l ih =>
      obtain ⟨head, rest, hsplit⟩ := List.exists_cons_of_ne_nil (List.splitOnP_ne_nil p l)
      rw [List.splitOnP_cons_eq_if_modifyHead, hsplit] at hpiece
      rw [hsplit] at ih
      have hold : ∀ {piece}, piece ∈ head :: rest → a ∈ piece → a ∈ b :: l ∧ p a = false :=
        fun hmem ha => ⟨List.mem_cons_of_mem _ (ih hmem ha).1, (ih hmem ha).2⟩
      split at hpiece
      next =>
        rcases List.mem_cons.mp hpiece with rfl | hpiece
        · cases ha
        · exact hold hpiece ha
      next hb =>
        rw [List.modifyHead_cons] at hpiece
        rcases List.mem_cons.mp hpiece with rfl | hpiece
        · rcases List.mem_cons.mp ha with rfl | ha
          · exact ⟨List.mem_cons_self, by simpa using hb⟩
          · exact hold List.mem_cons_self ha
        · exact hold (List.mem_cons_of_mem _ hpiece) ha

/-- An element that is no separator is in some piece. -/
theorem exists_piece_of_mem {l : List α} {a : α} (ha : a ∈ l) (hp : p a = false) :
    ∃ piece ∈ l.splitOnP p, a ∈ piece := by
  induction l with
  | nil => cases ha
  | cons b l ih =>
      obtain ⟨head, rest, hsplit⟩ := List.exists_cons_of_ne_nil (List.splitOnP_ne_nil p l)
      rw [List.splitOnP_cons_eq_if_modifyHead, hsplit]
      rw [hsplit] at ih
      rcases List.mem_cons.mp ha with rfl | ha
      · rw [if_neg (by simp [hp]), List.modifyHead_cons]
        exact ⟨_, List.mem_cons_self, List.mem_cons_self⟩
      · obtain ⟨piece, hpiece, hmem⟩ := ih ha
        split
        next => exact ⟨piece, List.mem_cons_of_mem _ hpiece, hmem⟩
        next =>
          rw [List.modifyHead_cons]
          rcases List.mem_cons.mp hpiece with rfl | hpiece
          · exact ⟨_, List.mem_cons_self, List.mem_cons_of_mem _ hmem⟩
          · exact ⟨piece, List.mem_cons_of_mem _ hpiece, hmem⟩

theorem mem_of_mem_tokens {l token : List α} (htoken : token ∈ tokens p l) {a : α}
    (ha : a ∈ token) : a ∈ l ∧ p a = false :=
  mem_of_mem_splitOnP (List.mem_of_mem_filter htoken) ha

theorem exists_token_of_mem {l : List α} {a : α} (ha : a ∈ l) (hp : p a = false) :
    ∃ token ∈ tokens p l, a ∈ token := by
  obtain ⟨piece, hpiece, hmem⟩ := exists_piece_of_mem ha hp
  refine ⟨piece, List.mem_filter.mpr ⟨hpiece, ?_⟩, hmem⟩
  cases piece with
  | nil => cases hmem
  | cons _ _ => rfl

theorem tokens_flatMap (hqp : ∀ a, q a = true → p a = true) (l : List α) :
    (l.splitOnP q).flatMap (tokens p) = tokens p l := by
  unfold tokens
  rw [← splitOnP_flatMap hqp l, List.filter_flatMap]

theorem tokens_congr {l : List α} (h : ∀ a ∈ l, p a = q a) : tokens p l = tokens q l := by
  rw [tokens, splitOnP_congr h, tokens]

/-- Separators at the end change no token. -/
theorem tokens_rdropWhile (l : List α) : tokens p (l.rdropWhile p) = tokens p l := by
  induction l using List.reverseRecOn with
  | nil => rfl
  | append_singleton l a ih =>
      by_cases ha : p a = true
      · have hlast : tokens p (l ++ [a]) = tokens p l := by
          rw [tokens, List.splitOnP_append_cons l [] ha, List.filter_append]
          simp [tokens]
        rw [List.rdropWhile_concat_pos p l a ha, ih, hlast]
      · rw [List.rdropWhile_concat_neg p l a ha]

/-- Two ways to read the lines of a text agree when the one never yields less
than the other, yields the same where it yields no more, and has no more in all. -/
theorem flatMap_eq_of_length_le {f g : α → List β} {l : List α}
    (hle : ∀ a ∈ l, (g a).length ≤ (f a).length)
    (heq : ∀ a ∈ l, (f a).length ≤ (g a).length → f a = g a)
    (htotal : (l.flatMap f).length ≤ (l.flatMap g).length) : l.flatMap f = l.flatMap g := by
  induction l with
  | nil => rfl
  | cons a l ih =>
      have hrest : ∀ b ∈ l, (g b).length ≤ (f b).length :=
        fun b hb => hle b (List.mem_cons_of_mem _ hb)
      have hsum : (l.flatMap g).length ≤ (l.flatMap f).length := by
        simp only [List.length_flatMap]
        exact List.sum_le_sum fun b hb => hrest b hb
      have hhead := hle a List.mem_cons_self
      simp only [List.flatMap_cons, List.length_append] at htotal ⊢
      rw [heq a List.mem_cons_self (by omega),
        ih hrest (fun b hb => heq b (List.mem_cons_of_mem _ hb)) (by omega)]

end Arcint.Foundation
