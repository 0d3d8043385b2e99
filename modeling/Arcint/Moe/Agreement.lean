import Arcint.Moe.Tiled
import Mathlib.Analysis.SpecialFunctions.Sigmoid

/-! # The forms of the layer agree -/

namespace Arcint.Moe

open Foundation Tensor

section Agreement

variable {R : Type} [Field R] [LinearOrder R] {exp sigmoid : R → R} {config : MoeConfig}
variable {topk : Topk R} {state : MoeState R config} {hidden : Tensor R} {rows : ℕ}

/-- The chunks of any partition and the shared expert. -/
theorem chunks_eq (hhidden : hidden.shape = [1, rows, config.hiddenSize])
    (hdistinct : ∀ r < rows, KthDistinct (routerProb exp state (token hidden r)) config.numExperts
      config.numExpertsPerTok)
    {ranges : List (ℕ × ℕ)} (hranges : Consecutive 0 config.numExperts ranges) :
    ∃ chunks : List (Tensor R),
      ranges.map (fun range => emitExpertsChunk sigmoid state hidden
        ((emitRouterGate exp topk state hidden rows).slice 1 range.1 range.2) range.1 range.2
        rows) = chunks.map some ∧
      ∀ r < rows, ∀ h < config.hiddenSize,
        (chunks.map fun chunk => chunk.get [r, h]).sum +
            (emitSharedExpert sigmoid state hidden (some rows)).get [r, h] =
          mixture exp sigmoid state (token hidden r) h := by
  let piece (range : ℕ × ℕ) : Option (Tensor R) := emitExpertsChunk sigmoid state hidden
    ((emitRouterGate exp topk state hidden rows).slice 1 range.1 range.2) range.1 range.2 rows
  let chunk (range : ℕ × ℕ) : Tensor R := (piece range).getD (scalar 0)
  have hpiece : ∀ range ∈ ranges, piece range = some (chunk range) ∧
      ∀ r < rows, ∀ h < config.hiddenSize, (chunk range).get [r, h] =
        ∑ j ∈ Finset.range (range.2 - range.1),
          expertOut sigmoid (token hidden r) config state.gateUpProj state.downProj
              (range.1 + j) h *
            denseScore exp state (token hidden r) (range.1 + j) := by
    intro range hrange
    obtain ⟨hlt, hle⟩ := hranges.of_mem range hrange
    obtain ⟨out, hout, hget⟩ := @emitExpertsChunk_eq R _ _ exp sigmoid config state hidden rows
      topk hhidden hdistinct _ _ hlt hle
    have hchunk : chunk range = out := by simp only [chunk, piece, hout, Option.getD_some]
    rw [hchunk]
    exact ⟨hout, hget⟩
  refine ⟨ranges.map chunk, ?_, fun r hr h hh => ?_⟩
  · rw [List.map_map]
    exact List.map_congr_left fun range hrange => (hpiece range hrange).1
  · have hsum := hranges.sum_eq fun e =>
      expertOut sigmoid (token hidden r) config state.gateUpProj state.downProj e h *
        denseScore exp state (token hidden r) e
    rw [List.map_map, emitSharedExpert_get hhidden (.inr rfl) hr hh, mixture_eq_dense,
      ← Nat.Ico_zero_eq_range, ← hsum]
    refine congrArg (List.sum · + _) (List.map_congr_left fun range hrange => ?_)
    exact (hpiece range hrange).2 r hr h hh

/-- The tiled form, the dense one and the chunks of any partition of the experts are one function
of each token: the selected experts by their scores, and the shared expert. Each form may break the
ties of its own `TopK` as it likes. -/
theorem moe_forms_agree {R : Type} [Field R] [LinearOrder R] (exp sigmoid : R → R)
    {config : MoeConfig} (state : MoeState R config) (bodies : ExpertBodies state) (tag : String)
    (tiledTopk denseTopk chunkTopk : Topk R) {T : ℕ} {hidden : Tensor R}
    (hhidden : hidden.shape = [1, T, config.hiddenSize])
    (hdistinct : ∀ r < T, KthDistinct (routerProb exp state (token hidden r)) config.numExperts
      config.numExpertsPerTok) :
    (∃ tiled, emitMoeTiled exp sigmoid tiledTopk state tag bodies hidden = .ok tiled ∧
      tiled.shape = [1, T, config.hiddenSize] ∧ ∀ r < T, ∀ h < config.hiddenSize,
        tiled.get [0, r, h] = mixture exp sigmoid state (token hidden r) h) ∧
    (∃ dense gate,
      moeSubgraph exp sigmoid denseTopk state (hidden.reshape [T, config.hiddenSize]) =
        some (dense, gate) ∧
      dense.shape = [T, config.hiddenSize] ∧ ∀ r < T, ∀ h < config.hiddenSize,
        dense.get [r, h] = mixture exp sigmoid state (token hidden r) h) ∧
    ∀ ranges, Consecutive 0 config.numExperts ranges → ∃ chunks : List (Tensor R),
      ranges.map (fun range => emitExpertsChunk sigmoid state hidden
        ((emitRouterGate exp chunkTopk state hidden T).slice 1 range.1 range.2) range.1 range.2
        T) = chunks.map some ∧
      ∀ r < T, ∀ h < config.hiddenSize,
        (chunks.map fun chunk => chunk.get [r, h]).sum +
            (emitSharedExpert sigmoid state hidden (some T)).get [r, h] =
          mixture exp sigmoid state (token hidden r) h := by
  have hrows := fun r (hr : r < T) => flat_get hhidden hr
  refine ⟨emitMoeTiled_eq hhidden hdistinct tag bodies, ?_, fun ranges => chunks_eq hhidden
    hdistinct⟩
  let h2d := hidden.reshape [T, config.hiddenSize]
  have hflat : ∀ r < T, KthDistinct (routerProb exp state fun d => h2d.get [r, d])
      config.numExperts config.numExpertsPerTok := by
    intro r hr
    rw [routerProb_congr exp state (hrows r hr)]
    exact hdistinct r hr
  obtain ⟨dense, hdense, hshape, hget⟩ :=
    @moeSubgraph_eq R _ _ exp sigmoid config denseTopk state T h2d rfl hflat
  refine ⟨dense, _, hdense, hshape, fun r hr h hh => ?_⟩
  rw [hget r hr h hh, mixture_congr exp sigmoid state (hrows r hr)]

end Agreement

/-! ## Two tokens and three experts -/

section RankedTopk

variable {R : Type} [LinearOrder R] {t : Tensor R} {rows n k r j : ℕ}

/-- The places of a row by their values. -/
def rankedPlace (t : Tensor R) (k : ℕ) (idx : List ℕ) : ℕ :=
  (largest (fun e => t.get (idx.dropLast ++ [e])) (t.shape.getLastD 0) k).getD (idx.getLastD 0) 0

theorem rankedPlace_eq (ht : t.shape = [rows, n]) (hk : k ≤ n) (hj : j < k) :
    ∃ h : j < (largest (fun e => t.get [r, e]) n k).length,
      rankedPlace t k [r, j] = (largest (fun e => t.get [r, e]) n k)[j] := by
  have hlt : j < (largest (fun e => t.get [r, e]) n k).length := by rwa [length_largest hk]
  exact ⟨hlt, by simp [rankedPlace, ht, List.getD_eq_getElem?_getD, hlt]⟩

/-- A `TopK` that takes the first of equal values. -/
def rankedTopk : Topk R where
  run t k :=
    ({ shape := t.shape.dropLast ++ [k]
       get := fun idx => t.get (idx.dropLast ++ [rankedPlace t k idx]) },
      { shape := t.shape.dropLast ++ [k], get := rankedPlace t k })
  isTopk := by
    intro t rows n k ht hk
    constructor
    · simp [ht]
    · simp [ht]
    · intro r _ j hj
      obtain ⟨hlt, hplace⟩ := @rankedPlace_eq R _ t rows n k r j ht hk hj
      exact (congrArg (· < n) hplace).mpr (lt_of_mem_largest (List.getElem_mem hlt))
    · intro r _ j hj j' hj' h
      obtain ⟨hlt, hplace⟩ := @rankedPlace_eq R _ t rows n k r j ht hk hj
      obtain ⟨hlt', hplace'⟩ := @rankedPlace_eq R _ t rows n k r j' ht hk hj'
      exact nodup_largest.getElem_inj_iff.mp (hplace.symm.trans (h.trans hplace'))
    · intro r _ j _
      rfl
    · intro r _ j hj e he hne
      obtain ⟨hlt, hplace⟩ := @rankedPlace_eq R _ t rows n k r j ht hk hj
      have hout : e ∉ largest (fun e => t.get [r, e]) n k := by
        intro hmem
        obtain ⟨j', hj', heq⟩ := List.mem_iff_getElem.mp hmem
        rw [length_largest hk] at hj'
        obtain ⟨_, hplace'⟩ := @rankedPlace_eq R _ t rows n k r j' ht hk hj'
        exact hne j' hj' (hplace'.trans heq)
      have hle := le_of_mem_largest (List.getElem_mem hlt) he hout
      rwa [← hplace] at hle

end RankedTopk

def smallConfig : MoeConfig where
  hiddenSize := 2
  numExperts := 3
  numExpertsPerTok := 2
  moeIntermediateSize := 1
  sharedExpertIntermediateSize := 1
  normTopkProb := true
  hiddenSize_pos := by decide
  numExpertsPerTok_pos := by decide
  numExpertsPerTok_le := by decide

/-- The router prefers the later experts. -/
def smallState : MoeState ℝ smallConfig where
  gate := Tensor.constant [3, 2] fun i => (i / 2 : ℕ)
  gateUpProj := Tensor.constant [3, 2, 2] fun i => i
  downProj := Tensor.constant [3, 2, 1] fun i => i
  sharedGateProj := Tensor.constant [1, 2] fun i => i
  sharedUpProj := Tensor.constant [1, 2] fun i => i
  sharedDownProj := Tensor.constant [2, 1] fun i => i
  sharedExpertGate := Tensor.constant [1, 2] fun i => i
  gate_shape := rfl
  gateUpProj_shape := rfl
  downProj_shape := rfl
  sharedGateProj_shape := rfl
  sharedUpProj_shape := rfl
  sharedDownProj_shape := rfl
  sharedExpertGate_shape := rfl

def smallBodies : ExpertBodies smallState where
  gateW := smallState.gateUpProj.slice 1 0 1
  upW := smallState.gateUpProj.slice 1 1 2
  downW := smallState.downProj
  gateW_shape := rfl
  upW_shape := rfl
  downW_shape := rfl
  gateW_get e _ i _ h _ := by simp [Tensor.slice]
  upW_get e _ i _ h _ := by simp [Tensor.slice, smallConfig]
  downW_get _ _ _ _ _ _ := rfl

/-- The first token prefers the later experts, the second one the earlier ones. -/
def smallHidden : Tensor ℝ :=
  Tensor.constant [1, 2, 2] fun i => if i < 2 then (i + 1 : ℕ) else -(i + 1 : ℕ)

theorem smallHidden_distinct : ∀ r < 2, KthDistinct
    (routerProb Real.exp smallState (token smallHidden r)) smallConfig.numExperts
      smallConfig.numExpertsPerTok := by
  intro r hr
  refine kthDistinct_of_injOn (fun a ha b hb h => ?_) (by decide) (by decide)
  obtain ⟨c, hc, hlogit⟩ : ∃ c : ℝ, c ≠ 0 ∧ ∀ e, linear (token smallHidden r)
      smallConfig.hiddenSize (fun i => smallState.gate.get [e, i]) = c * e := by
    have hhalf : ∀ e, (e * 2 + 1) / 2 = e := by omega
    obtain rfl | rfl : r = 0 ∨ r = 1 := by omega
    · refine ⟨3, by norm_num, fun e => ?_⟩
      simp [linear, smallConfig, smallState, smallHidden, token, Tensor.constant, ravel,
        Finset.sum_range_succ, hhalf]
      ring
    · refine ⟨-7, by norm_num, fun e => ?_⟩
      simp [linear, smallConfig, smallState, smallHidden, token, Tensor.constant, ravel,
        Finset.sum_range_succ, hhalf]
      ring
  have hsum : ∑ i ∈ Finset.range smallConfig.numExperts, Real.exp (c * (i : ℝ)) ≠ 0 :=
    (Finset.sum_pos (fun i _ => Real.exp_pos _) ⟨0, by decide⟩).ne'
  simp only [routerProb, hlogit, div_left_inj' hsum, Real.exp_eq_exp] at h
  exact_mod_cast mul_left_cancel₀ hc h

theorem moe_forms_agree_smallHidden :
    (∃ tiled, emitMoeTiled Real.exp Real.sigmoid rankedTopk smallState "moe" smallBodies
        smallHidden = .ok tiled ∧
      tiled.shape = [1, 2, 2] ∧ ∀ r < 2, ∀ h < 2,
        tiled.get [0, r, h] = mixture Real.exp Real.sigmoid smallState (token smallHidden r) h) ∧
    (∃ dense gate,
      moeSubgraph Real.exp Real.sigmoid rankedTopk smallState (smallHidden.reshape [2, 2]) =
        some (dense, gate) ∧
      dense.shape = [2, 2] ∧ ∀ r < 2, ∀ h < 2,
        dense.get [r, h] = mixture Real.exp Real.sigmoid smallState (token smallHidden r) h) ∧
    ∀ ranges, Consecutive 0 3 ranges → ∃ chunks : List (Tensor ℝ),
      ranges.map (fun range => emitExpertsChunk Real.sigmoid smallState smallHidden
        ((emitRouterGate Real.exp rankedTopk smallState smallHidden 2).slice 1 range.1 range.2)
        range.1 range.2 2) = chunks.map some ∧
      ∀ r < 2, ∀ h < 2,
        (chunks.map fun chunk => chunk.get [r, h]).sum +
            (emitSharedExpert Real.sigmoid smallState smallHidden (some 2)).get [r, h] =
          mixture Real.exp Real.sigmoid smallState (token smallHidden r) h :=
  moe_forms_agree Real.exp Real.sigmoid smallState smallBodies "moe" rankedTopk rankedTopk
    rankedTopk rfl smallHidden_distinct

end Arcint.Moe
