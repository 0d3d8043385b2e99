import Mathlib.Algebra.BigOperators.Ring.List
import Mathlib.Algebra.Order.BigOperators.Group.List
import Mathlib.Algebra.Order.Field.Basic
import Mathlib.Tactic.FieldSimp
import Mathlib.Tactic.Ring

/-! # Softmax averages in parts

The average of values by the exponentials of their scores does not see a shift of the scores. A
part of the entries is summarised by the shift that was used for it, the sum of its exponentials
and its own average; summaries of parts merge into the summary of the whole, whatever the shifts.
-/

namespace Arcint.Foundation

/-- Sums become products. -/
structure IsExponential {F : Type*} [Field F] (exp : F → F) : Prop where
  zero : exp 0 = 1
  add : ∀ a b, exp (a + b) = exp a * exp b

/-- A score and the value that it weighs. -/
abbrev Entry (F : Type*) := F × F

section Sums

variable {F : Type*} [Field F] (exp : F → F)

/-- The exponentials of the scores, shifted. -/
def expSum (shift : F) (entries : List (Entry F)) : F :=
  (entries.map fun entry => exp (entry.1 - shift)).sum

/-- The values by the exponentials of their scores, shifted. -/
def weighted (shift : F) (entries : List (Entry F)) : F :=
  (entries.map fun entry => exp (entry.1 - shift) * entry.2).sum

/-- The average of the values by the exponentials of their scores. -/
def softmaxAverage (entries : List (Entry F)) : F := weighted exp 0 entries / expSum exp 0 entries

/-- What is kept of a part of the entries. -/
structure Stats (F : Type*) where
  max : F
  sum : F
  acc : F

/-- The stats are those of the entries. -/
structure Stats.Summarise (stats : Stats F) (entries : List (Entry F)) : Prop where
  sum_eq : stats.sum = expSum exp stats.max entries
  acc_eq : stats.acc * stats.sum = weighted exp stats.max entries

end Sums

section Laws

variable {F : Type*} [Field F] {exp : F → F} {entries first second : List (Entry F)}

theorem expSum_append (shift : F) :
    expSum exp shift (first ++ second) = expSum exp shift first + expSum exp shift second := by
  simp only [expSum, List.map_append, List.sum_append]

theorem weighted_append (shift : F) :
    weighted exp shift (first ++ second) =
      weighted exp shift first + weighted exp shift second := by
  simp only [weighted, List.map_append, List.sum_append]

namespace IsExponential

variable (hexp : IsExponential exp)
include hexp

theorem shift (a b c : F) : exp (a - b) * exp (b - c) = exp (a - c) := by
  rw [← hexp.add, sub_add_sub_cancel]

theorem ne_zero (a : F) : exp a ≠ 0 := by
  intro h
  have hone : exp a * exp (-a) = 1 := by rw [← hexp.add, add_neg_cancel, hexp.zero]
  rw [h, zero_mul] at hone
  exact zero_ne_one hone

theorem expSum_shift (a b : F) : expSum exp a entries * exp (a - b) = expSum exp b entries := by
  simp only [expSum, ← List.sum_map_mul_right, hexp.shift]

theorem weighted_shift (a b : F) :
    weighted exp a entries * exp (a - b) = weighted exp b entries := by
  simp only [weighted, ← List.sum_map_mul_right]
  congr 1
  refine List.map_congr_left fun entry _ => ?_
  rw [mul_right_comm, hexp.shift]

/-- The average by shifted scores. -/
theorem softmaxAverage_shift (shift : F) :
    weighted exp shift entries / expSum exp shift entries = softmaxAverage exp entries := by
  rw [softmaxAverage, ← hexp.weighted_shift 0 shift, ← hexp.expSum_shift 0 shift]
  exact mul_div_mul_right _ _ (hexp.ne_zero _)

end IsExponential

end Laws

section Ordered

variable {F : Type*} [Field F] [LinearOrder F] [IsStrictOrderedRing F] {exp : F → F}
variable {entries first second : List (Entry F)}

namespace IsExponential

variable (hexp : IsExponential exp)
include hexp

theorem pos (a : F) : 0 < exp a := by
  have hsquare : exp a = exp (a / 2) * exp (a / 2) := by rw [← hexp.add, add_halves]
  rw [hsquare]
  exact mul_self_pos.mpr (hexp.ne_zero _)

theorem expSum_pos (shift : F) (h : entries ≠ []) : 0 < expSum exp shift entries := by
  apply List.sum_pos
  · intro a ha
    obtain ⟨entry, -, rfl⟩ := List.mem_map.mp ha
    exact hexp.pos _
  · simpa using h

end IsExponential

namespace Stats

variable {stats left right : Stats F}

/-- The average of the entries is in their stats. -/
theorem Summarise.average (hexp : IsExponential exp) (h : stats.Summarise exp entries)
    (hne : entries ≠ []) : stats.acc = softmaxAverage exp entries := by
  have hpos := hexp.expSum_pos stats.max hne
  rw [← hexp.softmaxAverage_shift stats.max, ← h.acc_eq, ← h.sum_eq]
  exact (mul_div_cancel_right₀ _ (h.sum_eq ▸ hpos.ne')).symm

/-- Two parts into one, with a shift for the whole. -/
def merge (exp : F → F) (shift : F) (left right : Stats F) : Stats F :=
  let alpha := left.sum * exp (left.max - shift)
  let beta := right.sum * exp (right.max - shift)
  { max := shift
    sum := alpha + beta
    acc := left.acc * (alpha / (alpha + beta)) + right.acc * (beta / (alpha + beta)) }

theorem Summarise.merge (hexp : IsExponential exp) (shift : F)
    (hleft : left.Summarise exp first) (hright : right.Summarise exp second)
    (hne : second ≠ []) : (Stats.merge exp shift left right).Summarise exp (first ++ second) := by
  have halpha : left.sum * exp (left.max - shift) = expSum exp shift first := by
    rw [hleft.sum_eq, hexp.expSum_shift]
  have hbeta : right.sum * exp (right.max - shift) = expSum exp shift second := by
    rw [hright.sum_eq, hexp.expSum_shift]
  have hsum : (Stats.merge exp shift left right).sum = expSum exp shift (first ++ second) := by
    simp only [Stats.merge, halpha, hbeta, expSum_append]
  refine ⟨hsum, ?_⟩
  have hdenom : expSum exp shift first + expSum exp shift second ≠ 0 := by
    rw [← expSum_append]
    exact (hexp.expSum_pos shift (by simp [hne])).ne'
  calc (Stats.merge exp shift left right).acc * (Stats.merge exp shift left right).sum
      = left.acc * (left.sum * exp (left.max - shift)) +
          right.acc * (right.sum * exp (right.max - shift)) := by
        simp only [Stats.merge, halpha, hbeta]
        field_simp
    _ = weighted exp shift first + weighted exp shift second := by
        rw [← mul_assoc, ← mul_assoc, hleft.acc_eq, hright.acc_eq, hexp.weighted_shift,
          hexp.weighted_shift]
    _ = weighted exp shift (first ++ second) := (weighted_append shift).symm

/-- Many parts at once: the averages of the parts by their rescaled sums. -/
def mergeAll (exp : F → F) (shift : F) (parts : List (Stats F)) : F :=
  (parts.map fun part => part.acc * (part.sum * exp (part.max - shift))).sum /
    (parts.map fun part => part.sum * exp (part.max - shift)).sum

omit [LinearOrder F] [IsStrictOrderedRing F] in
theorem mergeAll_eq (hexp : IsExponential exp) (shift : F) {parts : List (Stats F)}
    {groups : List (List (Entry F))} (h : List.Forall₂ (Stats.Summarise exp) parts groups) :
    mergeAll exp shift parts = softmaxAverage exp groups.flatten := by
  have hsums : (parts.map fun part => part.acc * (part.sum * exp (part.max - shift))).sum =
        weighted exp shift groups.flatten ∧
      (parts.map fun part => part.sum * exp (part.max - shift)).sum =
        expSum exp shift groups.flatten := by
    induction h with
    | nil => exact ⟨rfl, rfl⟩
    | @cons part group parts groups hpart _ ih =>
        simp only [List.map_cons, List.sum_cons, List.flatten_cons, weighted_append,
          expSum_append, ih]
        rw [← mul_assoc, hpart.acc_eq, hpart.sum_eq, hexp.weighted_shift, hexp.expSum_shift]
        exact ⟨rfl, rfl⟩
  rw [mergeAll, hsums.1, hsums.2, hexp.softmaxAverage_shift]

end Stats

end Ordered

end Arcint.Foundation
