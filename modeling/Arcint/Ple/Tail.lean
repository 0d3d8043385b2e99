import Mathlib.Data.List.SplitLengths
import Mathlib.Algebra.Field.Rat
import Arcint.Ple.ShortConv

/-! # The served n-gram branch

`_ple_tail` of the serving graph on the rows of one forward, in exact arithmetic
over a field, with the pointwise non-linearities as parameters. Everything up to
the convolution works row by row; the convolution reaches back, but only within
the forward. The branch is therefore independent of how a sequence is cut into
forwards exactly when no tap could have reached across a cut.
-/

namespace Arcint.Ple

open Finset

/-- The widths of the branch: `hc_count`, `hidden_size` and `ple_embed_dim`. -/
structure Widths where
  hc : Nat
  hidden : Nat
  embed : Nat

/-- A channel of the flattened hidden row. -/
abbrev Channel (dims : Widths) := Fin dims.hc × Fin dims.hidden

/-- The pointwise non-linearities: `rsqrt(x + eps)`, the clamped absolute value,
the square root, the sign, the sigmoid and silu. -/
structure Nonlinear (R : Type) where
  rsqrtEps : R → R
  clampAbs : R → R
  sqrt : R → R
  sign : R → R
  sigmoid : R → R
  silu : R → R

/-- The weights of the branch, and the constant `1 / sqrt(hidden_size)`. -/
structure PleState (R : Type) (dims : Widths) where
  keyProj : Channel dims → Fin dims.embed → R
  valueProj : Fin dims.hidden → Fin dims.embed → R
  normKey : Channel dims → R
  normQuery : Channel dims → R
  normConv : Channel dims → R
  conv1d : Channel dims → Nat → R
  invSqrtHidden : R

/-- One row of a forward: the hidden row, the gathered embedding row, and the
row's entry of `conv_mask`. -/
structure PleRow (R : Type) (dims : Widths) where
  hidden : Channel dims → R
  embed : Fin dims.embed → R
  mask : R

section Branch

variable {R : Type} [Field R] {dims : Widths} (ops : Nonlinear R) (state : PleState R dims)

/-- `_group_rms`: normalise within each group, then scale by `1 + w`. -/
def groupRms (weight : Channel dims → R) (x : Channel dims → R) : Channel dims → R :=
  fun c => (1 + weight c) *
    (x c * ops.rsqrtEps ((∑ h, x (c.1, h) * x (c.1, h)) / dims.hidden))

def key (row : PleRow R dims) : Channel dims → R :=
  fun c => ∑ d, row.embed d * state.keyProj c d

def value (row : PleRow R dims) : Fin dims.hidden → R :=
  fun h => ∑ d, row.embed d * state.valueProj h d

/-- The gate of a group, before the sigmoid: a scaled inner product of key and
query, then its signed square root. -/
def gate (row : PleRow R dims) (g : Fin dims.hc) : R :=
  let keyN := groupRms ops state.normKey (key state row)
  let queryN := groupRms ops state.normQuery row.hidden
  let raw := (∑ h, keyN (g, h) * queryN (g, h)) * state.invSqrtHidden
  ops.sqrt (ops.clampAbs raw) * ops.sign raw

/-- `gv_flat`, masked. -/
def gated (row : PleRow R dims) : Channel dims → R :=
  fun c => ops.sigmoid (gate ops state row c.1) * value state row c.2 * row.mask

/-- `gv_normed`, masked. The norm is taken before the mask. -/
def gatedNormed (row : PleRow R dims) : Channel dims → R :=
  fun c => groupRms ops state.normConv
    (fun c => ops.sigmoid (gate ops state row c.1) * value state row c.2) c * row.mask

/-- `_ple_tail` on the rows of one forward. -/
def pleTail (K dilation : Nat) (rows : List (PleRow R dims)) : List (Channel dims → R) :=
  List.zipWith (fun gv conv => fun c => gv c + conv c) (rows.map (gated ops state))
    (shortConv ops.silu state.conv1d K dilation (rows.map (gatedNormed ops state)))

/-- The outputs of consecutive forwards of the given lengths, concatenated. -/
def served (K dilation : Nat) (cuts : List Nat) (rows : List (PleRow R dims)) :
    List (Channel dims → R) :=
  (cuts.splitLengths rows).flatMap (pleTail ops state K dilation)

theorem pleTail_length {K dilation : Nat} (hK : 0 < K) (hdilation : 0 < dilation)
    (rows : List (PleRow R dims)) : (pleTail ops state K dilation rows).length = rows.length := by
  rw [pleTail, List.length_zipWith, shortConv_length _ _ _ hK hdilation]
  simp

/-- Row `t` of the branch. -/
theorem pleTail_getElem? {K dilation t : Nat} (hK : 0 < K) (hdilation : 0 < dilation)
    (rows : List (PleRow R dims)) (ht : t < rows.length) :
    (pleTail ops state K dilation rows)[t]? = some fun c => gated ops state rows[t] c +
      ops.silu (∑ j ∈ range K,
        history (rows.map (gatedNormed ops state)) t ((K - 1 - j) * dilation) c *
          state.conv1d c j) := by
  rw [pleTail, List.getElem?_zipWith, List.getElem?_map, List.getElem?_eq_getElem ht,
    shortConv_getElem? _ _ _ hK hdilation (by rw [List.length_map]; exact ht)]
  rfl

/-- Nothing behind a row changes its answer. -/
theorem pleTail_isPrefix {K dilation : Nat} (hK : 0 < K) (hdilation : 0 < dilation)
    {rows rows' : List (PleRow R dims)} (hbegins : rows <+: rows') :
    pleTail ops state K dilation rows <+: pleTail ops state K dilation rows' := by
  obtain ⟨rest, rfl⟩ := hbegins
  rw [List.prefix_iff_getElem?]
  intro t ht
  have hrow := ht
  rw [pleTail_length ops state hK hdilation] at hrow
  rw [← List.getElem?_eq_getElem ht, pleTail_getElem? ops state hK hdilation rows hrow,
    pleTail_getElem? ops state hK hdilation (rows ++ rest) (by rw [List.length_append]; omega),
    List.getElem_append_left hrow, List.map_append]
  simp only [history_append (x := rows.map (gatedNormed ops state)) (by rwa [List.length_map])]

/-! ## Cuts that no tap crosses -/

/-- A forward in which no tap reaches another row works row by row. -/
theorem pleTail_eq_map {K dilation : Nat} (hK : 0 < K) (hdilation : 0 < dilation)
    (rows : List (PleRow R dims)) (hshort : K = 1 ∨ rows.length ≤ dilation) :
    pleTail ops state K dilation rows = rows.map fun row c => gated ops state row c +
      ops.silu (gatedNormed ops state row c * state.conv1d c (K - 1)) := by
  rw [pleTail, shortConv_eq_map _ _ _ hK hdilation (by rwa [List.length_map]), List.map_map,
    List.zipWith_map, List.zipWith_self]
  rfl

theorem served_of_short {K dilation : Nat} (hK : 0 < K) (hdilation : 0 < dilation)
    {cuts : List Nat} {rows : List (PleRow R dims)} (hlength : rows.length = cuts.sum)
    (hshort : K = 1 ∨ rows.length ≤ dilation) :
    served ops state K dilation cuts rows = pleTail ops state K dilation rows := by
  have hflatten := List.flatten_splitLengths rows cuts hlength.le
  have hpieces : ∀ piece ∈ cuts.splitLengths rows, pleTail ops state K dilation piece =
      piece.map fun row c => gated ops state row c +
        ops.silu (gatedNormed ops state row c * state.conv1d c (K - 1)) := by
    intro piece hpiece
    have hle : piece.length ≤ rows.length := by
      rw [← hflatten]
      exact (List.sublist_flatten_of_mem hpiece).length_le
    refine pleTail_eq_map ops state hK hdilation piece ?_
    exact hshort.imp_right hle.trans
  rw [pleTail_eq_map ops state hK hdilation rows hshort, served, List.flatMap,
    List.map_congr_left hpieces, ← List.map_flatten, hflatten]

theorem served_of_single {K dilation : Nat} {cuts : List Nat} (hsingle : cuts.length ≤ 1)
    {rows : List (PleRow R dims)} (hlength : rows.length = cuts.sum) :
    served ops state K dilation cuts rows = pleTail ops state K dilation rows := by
  match cuts, hsingle with
  | [], _ =>
      obtain rfl := List.length_eq_zero_iff.mp hlength
      rfl
  | [n], _ =>
      rw [List.sum_singleton] at hlength
      rw [served, List.splitLengths_cons, List.splitLengths_nil, ← hlength, List.take_length]
      exact List.flatMap_singleton _ _

end Branch

/-! ## Cuts that a tap crosses -/

theorem mem_of_mem_splitLengths {α : Type} {cuts : List Nat} {rows piece : List α} {row : α}
    (hpiece : piece ∈ cuts.splitLengths rows) (hrow : row ∈ piece) : row ∈ rows := by
  induction cuts generalizing rows with
  | nil => cases hpiece
  | cons n cuts ih =>
      rw [List.splitLengths_cons] at hpiece
      rcases List.mem_cons.mp hpiece with rfl | hlater
      · exact List.mem_of_mem_take hrow
      · exact List.mem_of_mem_drop (ih hlater)

section Probe

variable {R : Type} [Field R]

/-- Widths of one, and non-linearities and weights for which a row's masked and
normed values are its one embedding value. -/
abbrev probeDims : Widths := ⟨1, 1, 1⟩

def probeOps : Nonlinear R where
  rsqrtEps _ := 1
  clampAbs x := x
  sqrt x := x
  sign _ := 1
  sigmoid _ := 1
  silu x := x

/-- Only the tap that reaches one dilation back has a weight. -/
def probeState (K : Nat) : PleState R probeDims where
  keyProj _ _ := 0
  valueProj _ _ := 1
  normKey _ := 0
  normQuery _ := 0
  normConv _ := 0
  conv1d _ j := if j + 2 = K then 1 else 0
  invSqrtHidden := 1

def probeRow (a : R) : PleRow R probeDims := ⟨fun _ => 0, fun _ => a, 1⟩

/-- `n` rows, all zero but row `p`. -/
def probeRows (n p : Nat) : List (PleRow R probeDims) :=
  (List.range n).map fun i => probeRow (if i = p then 1 else 0)

theorem gated_probeRow (K : Nat) (a : R) :
    gated probeOps (probeState K) (probeRow a) = fun _ => a := by
  funext c
  simp [gated, value, probeOps, probeState, probeRow, probeDims]

theorem gatedNormed_probeRow (K : Nat) (a : R) :
    gatedNormed probeOps (probeState K) (probeRow a) = fun _ => a := by
  funext c
  simp [gatedNormed, groupRms, value, probeOps, probeState, probeRow, probeDims]

/-- The probe's convolution reads the row one dilation back. -/
theorem probe_conv {K dilation : Nat} (hK : 1 < K) (x : List (Channel probeDims → R)) (t : Nat)
    (c : Channel probeDims) :
    ∑ j ∈ range K, history x t ((K - 1 - j) * dilation) c * (probeState K : PleState R _).conv1d c j
      = history x t dilation c := by
  rw [Finset.sum_eq_single_of_mem (K - 2) (Finset.mem_range.mpr (by omega))]
  · have hback : (K - 1 - (K - 2)) * dilation = dilation := by
      rw [show K - 1 - (K - 2) = 1 by omega, Nat.one_mul]
    simp [probeState, hback, show K - 2 + 2 = K by omega]
  · intro j _ hne
    simp [probeState, show ¬ j + 2 = K by omega]

/-- Forwards of zero rows give zeros. -/
theorem served_probe_zero {K dilation : Nat} (hK : 1 < K) (hdilation : 0 < dilation)
    {cuts : List Nat} {rows : List (PleRow R probeDims)} (hzero : ∀ row ∈ rows, row = probeRow 0)
    {out : Channel probeDims → R}
    (hout : out ∈ served probeOps (probeState K) K dilation cuts rows) : out = fun _ => 0 := by
  obtain ⟨piece, hpiece, hmem⟩ := List.mem_flatMap.mp hout
  have hpieceZero : ∀ row ∈ piece, row = probeRow 0 :=
    fun row hrow => hzero row (mem_of_mem_splitLengths hpiece hrow)
  obtain ⟨t, ht⟩ := List.mem_iff_getElem?.mp hmem
  have hlt : t < piece.length := by
    rw [← pleTail_length probeOps (probeState K) (Nat.lt_of_succ_lt hK) hdilation piece]
    exact (List.getElem?_eq_some_iff.mp ht).1
  rw [pleTail_getElem? _ _ (Nat.lt_of_succ_lt hK) hdilation piece hlt] at ht
  cases ht
  funext c
  have hhistory : history (piece.map (gatedNormed probeOps (probeState K))) t dilation c = 0 := by
    unfold history
    split
    next =>
      rw [List.getElem?_map, List.getElem?_eq_getElem (by omega),
        hpieceZero _ (List.getElem_mem _), Option.map_some, gatedNormed_probeRow]
      rfl
    next => rfl
  rw [probe_conv hK, hhistory, hpieceZero _ (List.getElem_mem hlt), gated_probeRow]
  exact zero_add 0

/-- The whole forward sees the marked row one dilation later. -/
theorem pleTail_probe {K dilation n p : Nat} (hK : 1 < K) (hdilation : 0 < dilation)
    (hn : p + dilation < n) :
    (pleTail (probeOps : Nonlinear R) (probeState K) K dilation (probeRows n p))[p + dilation]? =
      some fun _ => 1 := by
  have hlt : p + dilation < (probeRows n p : List (PleRow R probeDims)).length := by
    simpa [probeRows] using hn
  rw [pleTail_getElem? _ _ (Nat.lt_of_succ_lt hK) hdilation _ hlt]
  congr 1
  funext c
  have hrow : (probeRows n p : List (PleRow R probeDims))[p + dilation] = probeRow 0 := by
    simp [probeRows, hdilation.ne']
  have hhistory : history ((probeRows n p : List (PleRow R probeDims)).map
      (gatedNormed probeOps (probeState K))) (p + dilation) dilation c = 1 := by
    have hmarked : (probeRows n p : List (PleRow R probeDims))[p]? = some (probeRow 1) := by
      simp [probeRows, show p < n by omega]
    rw [history, if_pos (Nat.le_add_left _ _), Nat.add_sub_cancel, List.getElem?_map, hmarked,
      Option.map_some, gatedNormed_probeRow]
    rfl
  rw [probe_conv hK, hhistory, hrow, gated_probeRow]
  exact zero_add 1

/-- With a kernel of two taps or more, at least two forwards and more rows than
the dilation, some row of a later forward misses a row before its cut. -/
theorem served_ne_pleTail {K dilation : Nat} (hK : 1 < K) (hdilation : 0 < dilation)
    {cuts : List Nat} (hcuts : ∀ n ∈ cuts, 0 < n) (hmany : 1 < cuts.length)
    (hlong : dilation < cuts.sum) :
    ∃ rows : List (PleRow R probeDims), rows.length = cuts.sum ∧ (∀ row ∈ rows, row.mask = 1) ∧
      served probeOps (probeState K) K dilation cuts rows ≠
        pleTail probeOps (probeState K) K dilation rows := by
  obtain ⟨first, rest, rfl⟩ : ∃ first rest, cuts = first :: rest := by
    cases cuts with
    | nil => simp at hmany
    | cons first rest => exact ⟨first, rest, rfl⟩
  have hfirst : 0 < first := hcuts first List.mem_cons_self
  have hrest : 0 < rest.sum := by
    cases rest with
    | nil => simp at hmany
    | cons second rest =>
        have hsecond := hcuts second (by simp)
        simp only [List.sum_cons]
        omega
  rw [List.sum_cons] at hlong ⊢
  -- The marked row is before the first cut, and its echo is behind it.
  obtain ⟨p, hbefore, hbehind, hinside⟩ : ∃ p, p < first ∧ first ≤ p + dilation ∧
      p + dilation < first + rest.sum :=
    ⟨max first dilation - dilation, by omega, by omega, by omega⟩
  refine ⟨probeRows (first + rest.sum) p, by simp [probeRows], ?_, ?_⟩
  · intro row hrow
    obtain ⟨i, _, rfl⟩ := List.mem_map.mp hrow
    rfl
  · intro heq
    have hlate : ∀ row ∈ (probeRows (first + rest.sum) p : List (PleRow R probeDims)).drop first,
        row = probeRow 0 := by
      intro row hrow
      obtain ⟨i, hi⟩ := List.mem_iff_getElem?.mp hrow
      rw [List.getElem?_drop, probeRows, List.getElem?_map] at hi
      obtain ⟨k, hk, rfl⟩ := Option.map_eq_some_iff.mp hi
      obtain ⟨_, rfl⟩ := List.getElem?_eq_some_iff.mp hk
      rw [List.getElem_range, if_neg (by omega)]
    have hecho := pleTail_probe (R := R) hK hdilation hinside
    rw [← heq, served, List.splitLengths_cons, List.flatMap_cons,
      List.getElem?_append_right] at hecho
    · have hmem := List.mem_of_getElem? hecho
      have hzero := served_probe_zero hK hdilation hlate hmem
      exact one_ne_zero (congrFun hzero (0, 0))
    · rw [pleTail_length _ _ (Nat.lt_of_succ_lt hK) hdilation, List.length_take]
      omega

end Probe

/-! ## The exact condition -/

/-- For a kernel size, a dilation and a cut into non-empty forwards: the served
branch equals a single forward for all widths, weights, non-linearities and rows
exactly when the kernel has one tap, there is at most one forward, or the whole
sequence is no longer than the dilation. -/
theorem served_eq_pleTail_iff (R : Type) [Field R] {K dilation : Nat} (hK : 0 < K)
    (hdilation : 0 < dilation) (cuts : List Nat) (hcuts : ∀ n ∈ cuts, 0 < n) :
    (∀ (dims : Widths) (ops : Nonlinear R) (state : PleState R dims)
        (rows : List (PleRow R dims)), rows.length = cuts.sum → (∀ row ∈ rows, row.mask = 1) →
          served ops state K dilation cuts rows = pleTail ops state K dilation rows) ↔
      K = 1 ∨ cuts.length ≤ 1 ∨ cuts.sum ≤ dilation := by
  constructor
  · intro hall
    by_contra hnone
    simp only [not_or, Nat.not_le] at hnone
    obtain ⟨hone, hmany, hlong⟩ := hnone
    obtain ⟨rows, hlength, hmask, hne⟩ :=
      served_ne_pleTail (R := R) (K := K) (by omega) hdilation hcuts hmany hlong
    exact hne (hall probeDims probeOps (probeState K) rows hlength hmask)
  · intro hcondition dims ops state rows hlength _
    rcases hcondition with hone | hsingle | hshort
    · exact served_of_short ops state hK hdilation hlength (.inl hone)
    · exact served_of_single ops state hsingle hlength
    · exact served_of_short ops state hK hdilation hlength (.inr (hlength.trans_le hshort))

theorem served_eq_pleTail_iff_decode :
    (∀ (dims : Widths) (ops : Nonlinear ℚ) (state : PleState ℚ dims)
        (rows : List (PleRow ℚ dims)), rows.length = [2, 1].sum → (∀ row ∈ rows, row.mask = 1) →
          served ops state 4 3 [2, 1] rows = pleTail ops state 4 3 rows) ↔
      4 = 1 ∨ [2, 1].length ≤ 1 ∨ [2, 1].sum ≤ 3 :=
  served_eq_pleTail_iff ℚ (by decide) (by decide) [2, 1] (by decide)

/-- Kernel 4 and trigrams: a prompt of four rows and one decode step. -/
theorem served_probe_ne_pleTail :
    served (probeOps : Nonlinear ℚ) (probeState 4) 4 3 [4, 1] (probeRows 5 1) ≠
      pleTail probeOps (probeState 4) 4 3 (probeRows 5 1) := by
  intro heq
  have hlast := congrArg (fun outs => (outs[4]?).map fun out => out (0, 0)) heq
  exact absurd hlast (by decide +kernel)

end Arcint.Ple
