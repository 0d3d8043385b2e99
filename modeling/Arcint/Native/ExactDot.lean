import Arcint.Native.DispatchModes

/-! # The card's sums in exact arithmetic

Without rounding it does not matter which lane takes which index: a row's sum is over its columns.
-/

namespace Arcint.Native.Kernel

open Foundation

section Exact

variable {H : Type}

/-- Exact arithmetic, on the values of the halves. -/
def exactFloats (value : H → ℚ) (half : ℚ → H) (act : ℚ → ℚ) : KernelFloats ℚ H where
  convertFloat := value
  convertHalf := half
  ofInt n := n
  literal q := q
  add := (· + ·)
  mul := (· * ·)
  gateAct := act
  reduceAdd := List.sum
  weightRound := none

theorem foldl_add {α : Type} (f : α → ℚ) (l : List α) (a : ℚ) :
    l.foldl (fun acc c => acc + f c) a = a + (l.map f).sum := by
  induction l generalizing a with
  | nil => simp
  | cons c l ih => rw [List.foldl_cons, ih, List.map_cons, List.sum_cons, add_assoc]

/-- The lanes share the indices among them. -/
theorem sum_strided {sg : ℕ} (hsg : 0 < sg) (n : ℕ) (f : ℕ → ℚ) :
    ((List.range sg).map fun lane => ((strided lane n sg).map f).sum).sum =
      ∑ j ∈ Finset.range n, f j := by
  have hlane : ∀ lane ∈ Finset.range sg, ((strided lane n sg).map f).sum =
      ∑ j ∈ Finset.range n with j % sg = lane, f j := by
    intro lane hlane
    have hlt := Finset.mem_range.mp hlane
    have hnodup : (strided lane n sg).Nodup := by
      refine List.Nodup.map (fun b c h => ?_) (List.nodup_range.sublist (List.takeWhile_sublist _))
      exact Nat.eq_of_mul_eq_mul_right hsg (Nat.add_left_cancel h)
    rw [← List.sum_toFinset f hnodup]
    refine Finset.sum_congr (Finset.ext fun j => ?_) fun _ _ => rfl
    rw [List.mem_toFinset, mem_strided hsg, Finset.mem_filter, Finset.mem_range]
    refine and_congr_right fun _ => ⟨?_, fun h => ⟨j / sg, ?_⟩⟩
    · rintro ⟨b, rfl⟩
      rw [Nat.add_mul_mod_self_right, Nat.mod_eq_of_lt hlt]
    · rw [← h, Nat.mul_comm, Nat.mod_add_div]
  have hsum : ((List.range sg).map fun lane => ((strided lane n sg).map f).sum).sum =
      ∑ lane ∈ Finset.range sg, ((strided lane n sg).map f).sum := rfl
  rw [hsum, Finset.sum_congr rfl hlane]
  exact Finset.sum_fiberwise_of_maps_to (fun j _ => Finset.mem_range.mpr (Nat.mod_lt j hsg)) f

variable {value : H → ℚ} {half : ℚ → H} {act : ℚ → ℚ} {sg : ℕ}

/-- A row's sum is over its groups, whoever takes which index. -/
theorem dotToken_exact {γ : Type} {groups : List γ} {start : γ → ℕ} {product : γ → ℕ → ℚ → ℚ}
    {w : ℕ → ℚ} (hsg : 0 < sg)
    (hproduct : ∀ g ∈ groups, ∀ j < 32, ∀ xv, product g j xv = xv * w (start g + j)) (x : ℕ → H) :
    dotToken (exactFloats value half act) sg groups start product x =
      (groups.map fun g =>
        ∑ j ∈ Finset.range 32, value (x (start g + j)) * w (start g + j)).sum := by
  let term (g : γ) (j : ℕ) : ℚ := value (x (start g + j)) * w (start g + j)
  have hlane : ∀ lane,
      groups.foldl (fun acc g => (strided lane 32 sg).foldl
        (fun acc j => acc + product g j (value (x (start g + j)))) acc) (0 : ℚ) =
      (groups.map fun g => ((strided lane 32 sg).map (term g)).sum).sum := by
    intro lane
    rw [← zero_add (List.sum _), ← foldl_add]
    refine List.foldl_ext _ _ _ fun acc g hg => ?_
    rw [foldl_add]
    refine congrArg (acc + List.sum ·) (List.map_congr_left fun j hj => ?_)
    exact hproduct g hg j (lt_of_mem_strided hj) _
  have hswap : ∀ l : List γ,
      ((List.range sg).map fun lane =>
        (l.map fun g => ((strided lane 32 sg).map (term g)).sum).sum).sum =
      (l.map fun g => ∑ j ∈ Finset.range 32, term g j).sum := by
    intro l
    induction l with
    | nil => simp
    | cons g l ih => simp only [List.map_cons, List.sum_cons, List.sum_map_add, ih, sum_strided hsg]
  rw [← hswap, dotToken]
  exact congrArg List.sum (List.map_congr_left fun lane _ => hlane lane)

theorem sum_groups (K : ℕ) (f : ℕ → ℚ) (hK : 32 ∣ K) :
    ((List.range (K / 32)).map fun g => ∑ j ∈ Finset.range 32, f (g * 32 + j)).sum =
      ∑ k ∈ Finset.range K, f k := by
  have hblocks := sum_blocks (K / 32) 32 f
  rw [Nat.div_mul_cancel hK] at hblocks
  exact hblocks.symm

theorem sum_blockGroups (K : ℕ) (f : ℕ → ℚ) (hK : 256 ∣ K) :
    ((blockGroups (K / 256)).map fun g => ∑ j ∈ Finset.range 32, f (blockStart g + j)).sum =
      ∑ k ∈ Finset.range K, f k := by
  have hlist : ∀ nblk, ((blockGroups nblk).map fun g =>
      ∑ j ∈ Finset.range 32, f (blockStart g + j)).sum =
      ∑ ib ∈ Finset.range nblk, ∑ ib32 ∈ Finset.range 8, ∑ j ∈ Finset.range 32,
        f (ib * 256 + ib32 * 32 + j) := by
    intro nblk
    rw [blockGroups, List.flatMap_def, List.map_flatten, List.sum_flatten, List.map_map,
      List.map_map]
    rfl
  have hblocks := sum_blocks (K / 256) 256 f
  rw [Nat.div_mul_cancel hK] at hblocks
  rw [hlist, hblocks]
  refine Finset.sum_congr rfl fun ib _ => ?_
  have hinner := sum_blocks 8 32 fun j => f (ib * 256 + j)
  rw [hinner]
  simp only [Nat.add_assoc]

end Exact

end Arcint.Native.Kernel
