import Mathlib.Data.List.GetD
import Arcint.Ple.ShortConv

/-! # The stateful short convolution

The depthwise causal convolution of the recurrent layers. Unrolled, it slices a padded sequence once
a tap. As the serving graph emits it, it keeps the last columns it has seen in a variable, one more
than a window needs, and drops the first column of the convolution over these and the new ones.
-/

namespace Arcint.Gdn

open Finset Ple

variable {C R : Type} [CommRing R]

/-! ## The whole sequence -/

/-- Columns behind those that come before the first. -/
def leftPad (n : ℕ) (x : List (C → R)) : List (C → R) := List.replicate n (fun _ => 0) ++ x

def convTerm (w : C → ℕ → R) (K : ℕ) (x : List (C → R)) (j : ℕ) : List (C → R) :=
  (ovSlice (leftPad (K - 1) x) j (some (j + x.length : ℕ))).map fun column c => column c * w c j

/-- The taps, accumulated from the first. -/
def convTaps (w : C → ℕ → R) (K : ℕ) (x : List (C → R)) (n : ℕ) : List (C → R) :=
  (List.range' 1 n).foldl
    (fun acc j => List.zipWith (fun a b => fun c => a c + b c) acc (convTerm w K x j))
    (convTerm w K x 0)

/-- `_causal_conv_silu`. -/
def causalConvSilu (silu : R → R) (w : C → ℕ → R) (K : ℕ) (x : List (C → R)) : List (C → R) :=
  (convTaps w K x (K - 1)).map fun column c => silu (column c)

/-! ## Forward after forward -/

/-- Every window of `K` columns against the weights. -/
def groupConvolution (w : C → ℕ → R) (K : ℕ) (joined : List (C → R)) : List (C → R) :=
  (List.range (joined.length + 1 - K)).map fun j c =>
    ∑ i ∈ range K, (joined.getD (j + i) fun _ => 0) c * w c i

/-- One forward of `stateful_short_conv`: its output, and what is assigned to the variable. -/
def statefulShortConv (silu : R → R) (w : C → ℕ → R) (K : ℕ) (past x : List (C → R)) :
    List (C → R) × List (C → R) :=
  let joined := past ++ x
  ((ovSlice (groupConvolution w K joined) 1 none).map fun column c => silu (column c),
    ovSlice joined (-K) none)

/-- What the variable holds before the first forward. -/
def initialState (K : ℕ) : List (C → R) := List.replicate K fun _ => 0

/-- Forward after forward: the concatenated outputs, and the variable. The beam that the variable is
gathered by is the one sequence's own. -/
def served (silu : R → R) (w : C → ℕ → R) (K : ℕ) (forwards : List (List (C → R))) :
    List (C → R) × List (C → R) :=
  forwards.foldl (fun run x =>
    let forward := statefulShortConv silu w K run.2 x
    (run.1 ++ forward.1, forward.2)) ([], initialState K)

/-! ## Columns -/

/-- Column `t` of the convolution: the window that ends at the input's own column. -/
def convColumn (w : C → ℕ → R) (K : ℕ) (x : List (C → R)) (t : ℕ) : C → R := fun c =>
  ∑ i ∈ range K, ((leftPad (K - 1) x).getD (t + i) fun _ => 0) c * w c i

section Columns

variable {silu : R → R} {w : C → ℕ → R} {K : ℕ}

theorem length_leftPad (n : ℕ) (x : List (C → R)) : (leftPad n x).length = n + x.length := by
  simp [leftPad]

/-- One column more in front. -/
theorem getD_leftPad_succ (n i : ℕ) (x : List (C → R)) :
    (leftPad (n + 1) x).getD (i + 1) (fun _ => 0) = (leftPad n x).getD i fun _ => 0 := by
  simp [leftPad, List.replicate_succ]

theorem leftPad_append (n : ℕ) (x y : List (C → R)) : leftPad n (x ++ y) = leftPad n x ++ y := by
  simp [leftPad]

omit [CommRing R] in
theorem ovSlice_take {x : List (C → R)} {start len : ℕ} (h : start + len ≤ x.length) :
    ovSlice x start (some (start + len : ℕ)) = (x.take (start + len)).drop start := by
  have hstart : ¬ ((start : ℕ) : ℤ) < 0 := by omega
  have hstop : ¬ ((start + len : ℕ) : ℤ) < 0 := by omega
  simp only [ovSlice, if_neg hstart, if_neg hstop, Int.toNat_natCast]
  rw [Nat.min_eq_left h, Nat.min_eq_left (by omega)]

theorem convTerm_eq {j : ℕ} (hj : j < K) (x : List (C → R)) :
    convTerm w K x j = (List.range x.length).map fun t c =>
      ((leftPad (K - 1) x).getD (t + j) fun _ => 0) c * w c j := by
  have hlength := length_leftPad (K - 1) x
  rw [convTerm, ovSlice_take (by omega)]
  refine List.ext_getElem (by simp; omega) fun t ht ht' => ?_
  have ht : t < x.length := by simpa using ht'
  have hin : t + j < (leftPad (K - 1) x).length := by omega
  simp [Nat.add_comm j t, List.getElem?_eq_getElem hin]

theorem convTaps_eq {n : ℕ} (hn : n < K) (x : List (C → R)) :
    convTaps w K x n = (List.range x.length).map fun t c =>
      ∑ j ∈ range (n + 1), ((leftPad (K - 1) x).getD (t + j) fun _ => 0) c * w c j := by
  induction n with
  | zero => simp [convTaps, convTerm_eq hn]
  | succ n ih =>
      have hlast : convTaps w K x (n + 1) =
          List.zipWith (fun a b => fun c => a c + b c) (convTaps w K x n)
            (convTerm w K x (1 + n)) := by
        rw [convTaps, List.range'_1_concat, List.foldl_append]
        rfl
      rw [hlast, ih (by omega), convTerm_eq (by omega), List.zipWith_map, List.zipWith_self]
      refine List.map_congr_left fun t _ => funext fun c => ?_
      rw [Finset.sum_range_succ _ (n + 1), Nat.add_comm 1 n]

theorem causalConvSilu_eq (hK : 0 < K) (x : List (C → R)) :
    causalConvSilu silu w K x =
      (List.range x.length).map fun t c => silu (convColumn w K x t c) := by
  rw [causalConvSilu, convTaps_eq (Nat.sub_lt hK Nat.one_pos), List.map_map, Nat.sub_add_cancel hK]
  rfl

/-- A column reads nothing behind its own input. -/
theorem convColumn_append (hK : 0 < K) {x : List (C → R)} (y : List (C → R)) {t : ℕ}
    (ht : t < x.length) : convColumn w K (x ++ y) t = convColumn w K x t := by
  have hlength := length_leftPad (K - 1) x
  funext c
  refine Finset.sum_congr rfl fun i hi => ?_
  have hi := Finset.mem_range.mp hi
  rw [leftPad_append, List.getD_append _ _ _ _ (by omega)]

/-! ## A forward -/

/-- The last columns of everything so far. -/
def lastColumns (K : ℕ) (x : List (C → R)) : List (C → R) := (leftPad K x).drop x.length

theorem length_lastColumns (K : ℕ) (x : List (C → R)) : (lastColumns K x).length = K := by
  simp [lastColumns, length_leftPad]

theorem lastColumns_append (K : ℕ) (x y : List (C → R)) :
    lastColumns K x ++ y = (leftPad K (x ++ y)).drop x.length := by
  rw [leftPad_append, List.drop_append_of_le_length (by simp [length_leftPad]), lastColumns]

omit [CommRing R] in
theorem getD_drop {x : List (C → R)} (n i : ℕ) (d : C → R) :
    (x.drop n).getD i d = x.getD (n + i) d := by
  simp only [List.getD_eq_getElem?_getD, List.getElem?_drop]

omit [CommRing R] in
theorem ovSlice_from {x : List (C → R)} (h : 1 ≤ x.length) : ovSlice x 1 none = x.drop 1 := by
  simp only [ovSlice, Int.reduceLT, if_false, Int.toNat_one, Nat.min_eq_left h]

omit [CommRing R] in
theorem ovSlice_last {x : List (C → R)} (hK : 0 < K) (hle : K ≤ x.length) :
    ovSlice x (-K) none = x.drop (x.length - K) := by
  have hneg : -(K : ℤ) < 0 := by omega
  have hstart : (-(K : ℤ) + x.length).toNat = x.length - K := by omega
  simp only [ovSlice, if_pos hneg, hstart]
  rw [Nat.min_eq_left (Nat.sub_le _ _)]

theorem statefulShortConv_eq (hK : 0 < K) (past x : List (C → R)) :
    statefulShortConv silu w K (lastColumns K past) x =
      ((List.range x.length).map fun t c => silu (convColumn w K (past ++ x) (past.length + t) c),
        lastColumns K (past ++ x)) := by
  obtain ⟨n, rfl⟩ := Nat.exists_eq_succ_of_ne_zero hK.ne'
  have hlength := length_leftPad (n + 1) (past ++ x)
  have hjoined := lastColumns_append (n + 1) past x
  have hshort : ((leftPad (n + 1) (past ++ x)).drop past.length).length = n + 1 + x.length := by
    rw [List.length_drop, hlength, List.length_append]
    omega
  refine Prod.ext ?_ ?_
  · dsimp only [statefulShortConv]
    rw [hjoined]
    have hdrop : ovSlice (groupConvolution w (n + 1) ((leftPad (n + 1) (past ++ x)).drop
        past.length)) 1 none = (groupConvolution w (n + 1) ((leftPad (n + 1) (past ++ x)).drop
          past.length)).drop 1 := by
      refine ovSlice_from ?_
      simp only [groupConvolution, List.length_map, List.length_range, hshort]
      omega
    rw [hdrop]
    refine List.ext_getElem ?_ fun t ht ht' => ?_
    · simp only [groupConvolution, List.length_map, List.length_drop, List.length_range, hlength,
        List.length_append]
      omega
    · simp only [groupConvolution, List.getElem_map, List.getElem_drop, List.getElem_range]
      refine funext fun c => congrArg silu (Finset.sum_congr rfl fun i _ => ?_)
      -- the first column of the convolution ends before the forward's own columns
      have hplace : past.length + (1 + t + i) = past.length + t + i + 1 := by omega
      rw [getD_drop, hplace, getD_leftPad_succ]
      rfl
  · dsimp only [statefulShortConv]
    rw [hjoined, ovSlice_last hK (by omega), List.drop_drop, hshort, lastColumns,
      List.length_append]
    congr 1
    omega

/-! ## All forwards -/

theorem served_concat (forwards : List (List (C → R))) (x : List (C → R)) :
    served silu w K (forwards ++ [x]) =
      ((served silu w K forwards).1 ++
          (statefulShortConv silu w K (served silu w K forwards).2 x).1,
        (statefulShortConv silu w K (served silu w K forwards).2 x).2) :=
  List.foldl_append

theorem served_eq (hK : 0 < K) (forwards : List (List (C → R))) :
    served silu w K forwards =
      (causalConvSilu silu w K forwards.flatten, lastColumns K forwards.flatten) := by
  induction forwards using List.reverseRecOn with
  | nil =>
      rw [List.flatten_nil, causalConvSilu_eq hK]
      simp [served, initialState, lastColumns, leftPad]
  | append_singleton forwards x ih =>
      rw [served_concat, ih, statefulShortConv_eq hK, List.flatten_append, List.flatten_singleton]
      refine Prod.ext ?_ rfl
      rw [causalConvSilu_eq hK, causalConvSilu_eq hK, List.length_append, List.range_add,
        List.map_append, List.map_map]
      refine congrArg₂ _ (List.map_congr_left fun t ht => ?_) rfl
      rw [convColumn_append hK _ (List.mem_range.mp ht)]

/-- However a sequence is cut into forwards, the outputs are those of the whole, and the variable
holds the last columns of zeros and what came before. -/
theorem served_eq_causalConvSilu (hK : 0 < K) (forwards : List (List (C → R))) :
    (served silu w K forwards).1 = causalConvSilu silu w K forwards.flatten ∧
      ∀ n, (served silu w K (forwards.take n)).2 =
        ovSlice (initialState K ++ (forwards.take n).flatten) (-K) none := by
  refine ⟨by rw [served_eq hK], fun n => ?_⟩
  rw [served_eq hK, ovSlice_last hK (by simp [initialState]), lastColumns, leftPad, initialState,
    List.length_append, List.length_replicate, Nat.add_sub_cancel_left]

/-- Two taps over three columns in two forwards. -/
theorem served_eq_causalConvSilu_threeColumns :
    (served (fun a : ℤ => a) (fun (_ : Unit) i => i + 1) 2
        [[fun _ => 1], [fun _ => 5, fun _ => 7]]).1 =
      causalConvSilu (fun a : ℤ => a) (fun _ i => i + 1) 2 [fun _ => 1, fun _ => 5, fun _ => 7] :=
  (served_eq_causalConvSilu (by decide) _).1

end Columns

end Arcint.Gdn
