import Mathlib.Algebra.Order.BigOperators.Group.List
import Mathlib.Algebra.BigOperators.Ring.List
import Mathlib.Algebra.Order.Field.Basic
import Mathlib.Data.Nat.Find

/-! # Where a running sum reaches a bound

The values of a list are added up from the front. A bound no larger than the whole sum is reached
after some values, and there is one shortest prefix that reaches it; a larger bound has no shorter
one. With positive values a draw below the sum falls on every place.
-/

namespace Arcint.Foundation

section Reach

variable {R : Type*} [AddCommMonoid R] [LinearOrder R]

/-- The shortest prefix whose sum is at least `x`. -/
structure FirstReach (l : List R) (x : R) (n : ℕ) : Prop where
  reached : x ≤ (l.take n).sum
  before : ∀ m < n, (l.take m).sum < x

variable {l : List R} {x y : R} {m n : ℕ}

theorem FirstReach.le_of_le (hx : FirstReach l x m) (hy : FirstReach l y n) (hxy : x ≤ y) :
    m ≤ n := by
  by_contra! hlt
  exact absurd (hxy.trans hy.reached) (not_le.mpr (hx.before n hlt))

theorem FirstReach.unique (hm : FirstReach l x m) (hn : FirstReach l x n) : m = n :=
  le_antisymm (hm.le_of_le hn le_rfl) (hn.le_of_le hm le_rfl)

theorem FirstReach.le_length (h : FirstReach l x n) : n ≤ l.length := by
  by_contra! hlt
  refine absurd h.reached (not_le.mpr ?_)
  rw [List.take_of_length_le hlt.le, ← List.take_of_length_le (le_refl l.length)]
  exact h.before _ hlt

theorem exists_firstReach (h : x ≤ l.sum) : ∃ n, FirstReach l x n := by
  classical
  have hex : ∃ n, x ≤ (l.take n).sum := ⟨l.length, by rwa [List.take_length]⟩
  exact ⟨Nat.find hex, Nat.find_spec hex, fun m hm => not_le.mp (Nat.find_min hex hm)⟩

/-- A place in a prefix is one of the whole list. -/
theorem FirstReach.of_take {k : ℕ} (h : FirstReach (l.take k) x n) : FirstReach l x n := by
  have hle : n ≤ k := h.le_length.trans (List.length_take_le k l)
  refine ⟨?_, fun m hm => ?_⟩
  · simpa [List.take_take, Nat.min_eq_left hle] using h.reached
  · simpa [List.take_take, Nat.min_eq_left (hm.le.trans hle)] using h.before m hm

/-- Two bounds are first reached together exactly when no prefix lies between them. -/
theorem FirstReach.eq_iff (hx : FirstReach l x m) (hy : FirstReach l y n) (hxy : x ≤ y) :
    m = n ↔ y ≤ (l.take m).sum := by
  constructor
  · rintro rfl
    exact hy.reached
  · intro h
    refine le_antisymm (hx.le_of_le hy hxy) ?_
    by_contra! hlt
    exact absurd h (not_le.mpr (hy.before m hlt))

end Reach

section Prefixes

variable {R : Type*} [Field R] [LinearOrder R] [IsStrictOrderedRing R] {l : List R}

/-- A longer prefix has no smaller a sum. -/
theorem sum_take_mono (hl : ∀ p ∈ l, 0 ≤ p) {m n : ℕ} (h : m ≤ n) :
    (l.take m).sum ≤ (l.take n).sum := by
  obtain ⟨k, rfl⟩ := Nat.exists_eq_add_of_le h
  rw [List.take_add, List.sum_append]
  refine le_add_of_nonneg_right (List.sum_nonneg fun p hp => hl p ?_)
  exact List.mem_of_mem_drop (List.mem_of_mem_take hp)

theorem sum_take_le (hl : ∀ p ∈ l, 0 ≤ p) (n : ℕ) : (l.take n).sum ≤ l.sum := by
  rcases Nat.le_total n l.length with hle | hge
  · simpa using sum_take_mono hl hle
  · rw [List.take_of_length_le hge]

/-- Scaled values reach a scaled bound where the values reach theirs. -/
theorem firstReach_map_div {s x : R} (hs : 0 < s) {n : ℕ} :
    FirstReach (l.map (· / s)) x n ↔ FirstReach l (x * s) n := by
  have hsum : ∀ m, ((l.map (· / s)).take m).sum = (l.take m).sum / s := by
    intro m
    rw [← List.map_take]
    simp only [div_eq_mul_inv, List.sum_map_mul_right, List.map_id']
  constructor
  · rintro ⟨hreached, hbefore⟩
    refine ⟨?_, fun m hm => ?_⟩
    · rwa [hsum, le_div_iff₀ hs] at hreached
    · have hlt := hbefore m hm
      rwa [hsum, div_lt_iff₀ hs] at hlt
  · rintro ⟨hreached, hbefore⟩
    refine ⟨?_, fun m hm => ?_⟩
    · rwa [hsum, le_div_iff₀ hs]
    · rw [hsum, div_lt_iff₀ hs]
      exact hbefore m hm

end Prefixes

end Arcint.Foundation
