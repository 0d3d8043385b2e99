import Arcint.Foundation.SortBy

/-! # The largest of a row

Indices in the order of their values, the largest in front. Where the `k`-th value and the next one
differ, the `k` largest are the same whoever picks them.
-/

namespace Arcint.Foundation

section Ranked

variable {R : Type*} [LinearOrder R]

/-- The indices below `n`, by their values. -/
def ranked (p : ℕ → R) (n : ℕ) : List ℕ := sortBy (fun e => OrderDual.toDual (p e)) (List.range n)

/-- The `k` largest. -/
def largest (p : ℕ → R) (n k : ℕ) : List ℕ := (ranked p n).take k

/-- The `k`-th largest value is not the next one. -/
def KthDistinct (p : ℕ → R) (n k : ℕ) : Prop :=
  ((ranked p n).map p)[k - 1]? ≠ ((ranked p n).map p)[k]?

variable {p : ℕ → R} {n k : ℕ}

theorem ranked_perm (p : ℕ → R) (n : ℕ) : (ranked p n).Perm (List.range n) := sortBy_perm _ _

@[simp] theorem length_ranked (p : ℕ → R) (n : ℕ) : (ranked p n).length = n := by
  simp [(ranked_perm p n).length_eq]

@[simp] theorem mem_ranked {e : ℕ} : e ∈ ranked p n ↔ e < n := by
  rw [(ranked_perm p n).mem_iff, List.mem_range]

theorem nodup_ranked : (ranked p n).Nodup := (ranked_perm p n).nodup_iff.mpr List.nodup_range

theorem ranked_pairwise : (ranked p n).Pairwise fun a b => p b ≤ p a :=
  sortBy_pairwise (fun e => OrderDual.toDual (p e)) _

theorem largest_congr {p' : ℕ → R} (h : ∀ e < n, p e = p' e) : largest p n k = largest p' n k := by
  have hranked : ranked p n = ranked p' n :=
    sortBy_congr fun e he => congrArg OrderDual.toDual (h e (List.mem_range.mp he))
  rw [largest, hranked]
  rfl

theorem nodup_largest : (largest p n k).Nodup := nodup_ranked.sublist (List.take_sublist _ _)

theorem length_largest (hk : k ≤ n) : (largest p n k).length = k := by
  simp [largest, hk]

theorem lt_of_mem_largest {e : ℕ} (h : e ∈ largest p n k) : e < n :=
  mem_ranked.mp (List.mem_of_mem_take h)

/-- What is left out is no larger. -/
theorem le_of_mem_largest {a b : ℕ} (ha : a ∈ largest p n k) (hb : b < n)
    (hb' : b ∉ largest p n k) : p b ≤ p a := by
  have hsorted := @ranked_pairwise R _ p n
  rw [← List.take_append_drop k (ranked p n)] at hsorted
  have hrest : b ∈ (ranked p n).drop k := by
    have hall := mem_ranked (p := p).mpr hb
    rw [← List.take_append_drop k (ranked p n), List.mem_append] at hall
    exact hall.resolve_left hb'
  exact (List.pairwise_append.mp hsorted).2.2 a ha b hrest

/-- No other value reaches those of the largest. -/
theorem lt_of_kthDistinct (hdistinct : KthDistinct p n k) {a b : ℕ}
    (ha : a ∈ largest p n k) (hb : b < n) (hb' : b ∉ largest p n k) : p b < p a := by
  have hle : ∀ i j (hi : i < (ranked p n).length) (hj : j < (ranked p n).length), i ≤ j →
      p (ranked p n)[j] ≤ p (ranked p n)[i] := by
    intro i j hi hj hij
    rcases hij.eq_or_lt with rfl | hlt
    · exact le_rfl
    · exact List.pairwise_iff_getElem.mp ranked_pairwise i j hi hj hlt
  obtain ⟨i, hi, rfl⟩ := List.mem_iff_getElem.mp ha
  obtain ⟨j, hj, rfl⟩ := List.mem_iff_getElem.mp (mem_ranked (p := p).mpr hb)
  rw [largest, List.length_take] at hi
  have hki : i ≤ k - 1 := Nat.le_sub_one_of_lt (hi.trans_le (min_le_left _ _))
  have hkj : k ≤ j := by
    by_contra hlt
    refine hb' (List.mem_iff_getElem.mpr ⟨j, ?_, List.getElem_take⟩)
    rw [largest, List.length_take]
    exact lt_min (not_le.mp hlt) hj
  -- the last of the largest and the first of the rest stand between the two
  have hlast : k - 1 < (ranked p n).length := (Nat.sub_le _ _).trans_lt (hkj.trans_lt hj)
  have hfirst : k < (ranked p n).length := hkj.trans_lt hj
  have hne : p (ranked p n)[k - 1] ≠ p (ranked p n)[k] := by
    rw [KthDistinct, List.getElem?_map, List.getElem?_map, List.getElem?_eq_getElem hlast,
      List.getElem?_eq_getElem hfirst] at hdistinct
    exact fun heq => hdistinct (congrArg some heq)
  simp only [largest, List.getElem_take]
  calc p (ranked p n)[j] ≤ p (ranked p n)[k] := hle _ _ hfirst hj hkj
    _ < p (ranked p n)[k - 1] := lt_of_le_of_ne (hle _ _ hlast hfirst (Nat.sub_le _ _)) hne.symm
    _ ≤ p (ranked p n)[i] := hle _ _ _ hlast hki

/-- Any choice of `k` largest is this one. -/
theorem perm_largest (hdistinct : KthDistinct p n k) (hkn : k ≤ n) {sel : List ℕ}
    (hnodup : sel.Nodup) (hlength : sel.length = k) (hmem : ∀ a ∈ sel, a < n)
    (hmax : ∀ a ∈ sel, ∀ b < n, b ∉ sel → p b ≤ p a) : sel.Perm (largest p n k) := by
  have hsame : sel.length = (largest p n k).length := by rw [hlength, length_largest hkn]
  refine (List.subperm_of_subset hnodup fun a ha => ?_).perm_of_length_le hsame.ge
  by_contra hout
  -- one left out for `a` would have to be smaller and not smaller
  obtain ⟨b, hb, hb'⟩ : ∃ b ∈ largest p n k, b ∉ sel := by
    by_contra hall
    push Not at hall
    have hperm := (List.subperm_of_subset nodup_largest hall).perm_of_length_le hsame.le
    exact hout (hperm.mem_iff.mpr ha)
  exact absurd (hmax a ha b (lt_of_mem_largest hb) hb')
    (not_le.mpr (lt_of_kthDistinct hdistinct hb (hmem a ha) hout))

/-- Values that are all different. -/
theorem kthDistinct_of_injOn (hinj : ∀ a < n, ∀ b < n, p a = p b → a = b) (hk : 1 ≤ k)
    (hkn : k ≤ n) : KthDistinct p n k := by
  have hlast : k - 1 < (ranked p n).length := by
    rw [length_ranked]
    exact (Nat.sub_lt hk Nat.one_pos).trans_le hkn
  rw [KthDistinct, List.getElem?_map, List.getElem?_map, List.getElem?_eq_getElem hlast]
  rcases hkn.eq_or_lt with rfl | hlt
  · simp
  · have hfirst : k < (ranked p n).length := by rwa [length_ranked]
    intro heq
    rw [List.getElem?_eq_getElem hfirst, Option.map_some, Option.map_some, Option.some_inj] at heq
    have hplace := hinj _ (mem_ranked.mp (List.getElem_mem hlast)) _
      (mem_ranked.mp (List.getElem_mem hfirst)) heq
    have := (nodup_ranked (p := p)).getElem_inj_iff.mp hplace
    omega

end Ranked

end Arcint.Foundation
