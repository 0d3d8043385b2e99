import Mathlib.Algebra.Order.Group.Defs
import Mathlib.Data.List.Chain
import Mathlib.Order.Interval.Set.Disjoint
import Mathlib.Order.CompletePartialOrder

/-! # Ranges of a flat space

A flat space is given out in ranges, each a first row and a number of rows. Ranges that are in
order do not meet, and ranges laid end to end meet every row between the first and the last.
-/

namespace Arcint.Foundation

section Ranges

variable {α : Type*} [AddCommMonoid α] [LinearOrder α]

/-- The rows of a range. -/
def rangeRows (range : α × α) : Set α := Set.Ico range.1 (range.1 + range.2)

/-- A range ends before the next one begins. -/
def EndsBefore (range next : α × α) : Prop := range.1 + range.2 ≤ next.1

instance : DecidableRel (EndsBefore (α := α)) := fun _ _ => inferInstanceAs (Decidable (_ ≤ _))

theorem EndsBefore.disjoint {range next : α × α} (h : EndsBefore range next) :
    Disjoint (rangeRows range) (rangeRows next) :=
  Set.Ico_disjoint_Ico_same.mono_right (Set.Ico_subset_Ico_left h)

/-- Each range begins where the one before it ends. -/
def Laid : α → List (α × α) → α → Prop
  | first, [], last => first = last
  | first, range :: ranges, last => range.1 = first ∧ Laid (first + range.2) ranges last

variable {ranges : List (α × α)} {first last : α}

/-- Every row of the space is in a range. -/
theorem Laid.covers (h : Laid first ranges last) {row : α} (hfirst : first ≤ row)
    (hlast : row < last) : ∃ r ∈ ranges, row ∈ rangeRows r := by
  induction ranges generalizing first with
  | nil =>
      cases h
      exact absurd hlast (not_lt.mpr hfirst)
  | cons range ranges ih =>
      obtain ⟨rfl, hrest⟩ := h
      rcases lt_or_ge row (range.1 + range.2) with hin | hlater
      · exact ⟨range, List.mem_cons_self, hfirst, hin⟩
      · obtain ⟨r, hr, hrow⟩ := ih hrest hlater
        exact ⟨r, List.mem_cons_of_mem _ hr, hrow⟩

omit [LinearOrder α] in
/-- The last range ends where the space does. -/
theorem Laid.ends (h : Laid first ranges last) (hne : ranges ≠ []) :
    ∃ range, ranges.getLast? = some range ∧ range.1 + range.2 = last := by
  induction ranges generalizing first with
  | nil => exact absurd rfl hne
  | cons range ranges ih =>
      obtain ⟨rfl, hrest⟩ := h
      cases ranges with
      | nil => exact ⟨range, rfl, hrest⟩
      | cons next ranges => exact ih hrest (List.cons_ne_nil _ _)

omit [LinearOrder α] in
/-- The ranges are as long together as the space. -/
theorem Laid.sum (h : Laid first ranges last) : first + (ranges.map Prod.snd).sum = last := by
  induction ranges generalizing first with
  | nil => rw [List.map_nil, List.sum_nil, add_zero, h]
  | cons range ranges ih =>
      obtain ⟨rfl, hrest⟩ := h
      rw [List.map_cons, List.sum_cons, ← add_assoc, ih hrest]

variable [IsOrderedCancelAddMonoid α]

/-- Of two ranges with rows the one that begins first has to end before the other. -/
theorem disjoint_rangeRows_iff {range next : α × α} (hlt : range.1 < next.1) (hpos : 0 < next.2) :
    Disjoint (rangeRows range) (rangeRows next) ↔ EndsBefore range next := by
  refine ⟨fun hdisjoint => ?_, EndsBefore.disjoint⟩
  by_contra hends
  -- the first row of the later range is in both
  refine Set.disjoint_left.mp hdisjoint ⟨hlt.le, not_le.mp hends⟩ ⟨le_refl _, ?_⟩
  exact lt_add_of_pos_right _ hpos

/-- What begins after a range ends is also after the ranges that follow it. -/
theorem isChain_endsBefore_cons {range : α × α} (hnonneg : ∀ r ∈ ranges, 0 ≤ r.2)
    (hchain : (range :: ranges).IsChain EndsBefore) : ∀ r ∈ ranges, EndsBefore range r := by
  induction ranges generalizing range with
  | nil => simp
  | cons next ranges ih =>
      obtain ⟨hbefore, htail⟩ := List.isChain_cons_cons.mp hchain
      intro r hr
      rcases List.mem_cons.mp hr with rfl | hlater
      · exact hbefore
      · have hrest : ∀ r ∈ ranges, 0 ≤ r.2 := fun r hr => hnonneg r (List.mem_cons_of_mem _ hr)
        have hnext : EndsBefore next r := ih hrest htail r hlater
        have hsize := hnonneg next List.mem_cons_self
        exact hbefore.trans ((le_add_of_nonneg_right hsize).trans hnext)

theorem pairwise_endsBefore (hnonneg : ∀ r ∈ ranges, 0 ≤ r.2)
    (hchain : ranges.IsChain EndsBefore) :
    ranges.Pairwise EndsBefore := by
  induction ranges with
  | nil => exact List.Pairwise.nil
  | cons range ranges ih =>
      have htail : ∀ r ∈ ranges, 0 ≤ r.2 := fun r hr => hnonneg r (List.mem_cons_of_mem _ hr)
      exact List.pairwise_cons.mpr ⟨isChain_endsBefore_cons htail hchain, ih htail hchain.of_cons⟩

/-- Ranges in the order of their first rows share none exactly when each ends before the next. -/
theorem pairwise_disjoint_iff (hpos : ∀ r ∈ ranges, 0 < r.2)
    (hsorted : ranges.Pairwise fun range next => range.1 < next.1) :
    ranges.Pairwise (fun range next => Disjoint (rangeRows range) (rangeRows next)) ↔
      ranges.IsChain EndsBefore := by
  constructor
  · intro hdisjoint
    refine List.Pairwise.isChain (List.Pairwise.imp_of_mem ?_ (hdisjoint.and hsorted))
    intro range next _ hnext h
    exact (disjoint_rangeRows_iff h.2 (hpos next hnext)).mp h.1
  · intro hchain
    exact (pairwise_endsBefore (fun r hr => (hpos r hr).le) hchain).imp EndsBefore.disjoint

namespace Laid

theorem le (h : Laid first ranges last) (hnonneg : ∀ r ∈ ranges, 0 ≤ r.2) : first ≤ last := by
  induction ranges generalizing first with
  | nil => exact h.le
  | cons range ranges ih =>
      have hrest := ih h.2 fun r hr => hnonneg r (List.mem_cons_of_mem _ hr)
      exact (le_add_of_nonneg_right (hnonneg range List.mem_cons_self)).trans hrest

/-- A range is within the space it is laid in. -/
theorem within (h : Laid first ranges last) (hnonneg : ∀ r ∈ ranges, 0 ≤ r.2) :
    ∀ r ∈ ranges, first ≤ r.1 ∧ r.1 + r.2 ≤ last := by
  induction ranges generalizing first with
  | nil => simp
  | cons range ranges ih =>
      obtain ⟨rfl, hrest⟩ := h
      have htail : ∀ r ∈ ranges, 0 ≤ r.2 := fun r hr => hnonneg r (List.mem_cons_of_mem _ hr)
      have hsize := hnonneg range List.mem_cons_self
      intro r hr
      rcases List.mem_cons.mp hr with rfl | hlater
      · exact ⟨le_refl _, hrest.le htail⟩
      · obtain ⟨hfirst, hlast⟩ := ih hrest htail r hlater
        exact ⟨(le_add_of_nonneg_right hsize).trans hfirst, hlast⟩

theorem pairwise (h : Laid first ranges last) (hnonneg : ∀ r ∈ ranges, 0 ≤ r.2) :
    ranges.Pairwise EndsBefore := by
  induction ranges generalizing first with
  | nil => exact List.Pairwise.nil
  | cons range ranges ih =>
      obtain ⟨rfl, hrest⟩ := h
      have htail : ∀ r ∈ ranges, 0 ≤ r.2 := fun r hr => hnonneg r (List.mem_cons_of_mem _ hr)
      exact List.pairwise_cons.mpr ⟨fun r hr => (hrest.within htail r hr).1, ih hrest htail⟩

end Laid

end Ranges

end Arcint.Foundation
