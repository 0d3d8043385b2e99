import Arcint.Moe.Mixture

/-! # The router's gate

Whichever way the runtime picks among equal values, the gate of a token has the scores of its
selected experts, since its last choice is no tie.
-/

namespace Arcint.Moe

open Foundation Tensor

section Router

variable {R : Type} [Field R] [LinearOrder R] {exp : R → R} {config : MoeConfig} {topk : Topk R}
variable {state : MoeState R config} {h2d : Tensor R} {rows r e j : ℕ}

omit [Field R] [LinearOrder R] in
theorem sliceAll_get {t : Tensor R} {i j : ℕ} : (sliceAll t).get [i, j] = t.get [i, j] := by
  simp [sliceAll, Tensor.slice]

section Probabilities

variable (hshape : h2d.shape = [rows, config.hiddenSize])
include hshape

omit [LinearOrder R] in
theorem probs_shape : ((h2d.matmulT state.gate).softmax exp).shape = [rows, config.numExperts] :=
  matmulT_shape hshape state.gate_shape

omit [LinearOrder R] in
theorem probs_get : ((h2d.matmulT state.gate).softmax exp).get [r, e] =
    routerProb exp state (fun d => h2d.get [r, d]) e := by
  simp only [softmax_get (matmulT_shape hshape state.gate_shape), matmulT_get hshape, routerProb,
    linear]

/-- The choice of a row. -/
theorem choice_perm (hr : r < rows)
    (hdistinct : KthDistinct (routerProb exp state fun d => h2d.get [r, d]) config.numExperts
      config.numExpertsPerTok) :
    let idx := (topk.run ((h2d.matmulT state.gate).softmax exp) config.numExpertsPerTok).2
    ((List.range config.numExpertsPerTok).map fun j => idx.get [r, j]).Perm
      (selectedExperts exp state fun d => h2d.get [r, d]) := by
  intro idx
  have htopk := topk.isTopk (@probs_shape R _ exp config state h2d rows hshape)
    config.numExpertsPerTok_le
  refine perm_largest hdistinct config.numExpertsPerTok_le ?_ (by simp) ?_ ?_
  · refine List.Nodup.map_on (fun j hj j' hj' h => ?_) List.nodup_range
    exact htopk.index_inj r hr j (List.mem_range.mp hj) j' (List.mem_range.mp hj') h
  · intro a ha
    obtain ⟨j, hj, rfl⟩ := List.mem_map.mp ha
    exact htopk.index_lt r hr j (List.mem_range.mp hj)
  · intro a ha b hb hout
    obtain ⟨j, hj, rfl⟩ := List.mem_map.mp ha
    have hne : ∀ j' < config.numExpertsPerTok, idx.get [r, j'] ≠ b := fun j' hj' h =>
      hout (List.mem_map.mpr ⟨j', List.mem_range.mpr hj', h⟩)
    have hmax := htopk.value_max r hr j (List.mem_range.mp hj) b hb hne
    rwa [htopk.value_eq r hr j (List.mem_range.mp hj), probs_get hshape, probs_get hshape] at hmax

variable (hr : r < rows)
variable (hdistinct : KthDistinct (routerProb exp state fun d => h2d.get [r, d]) config.numExperts
  config.numExpertsPerTok)
include hr hdistinct

/-- The score beside each choice. -/
theorem scores_get (hj : j < config.numExpertsPerTok) :
    let tk := topk.run ((h2d.matmulT state.gate).softmax exp) config.numExpertsPerTok
    (if config.normTopkProb then Tensor.zipWith (· / ·) tk.1 tk.1.reduceSumLast else tk.1).get
        [r, j] =
      routedScore exp state (fun d => h2d.get [r, d]) (tk.2.get [r, j]) := by
  intro tk
  have htopk := topk.isTopk (@probs_shape R _ exp config state h2d rows hshape)
    config.numExpertsPerTok_le
  have hvalue : ∀ j < config.numExpertsPerTok, tk.1.get [r, j] =
      routerProb exp state (fun d => h2d.get [r, d]) (tk.2.get [r, j]) := fun j hj =>
    (htopk.value_eq r hr j hj).trans (probs_get hshape)
  have hperm := @choice_perm R _ _ exp config topk state h2d rows r hshape hr hdistinct
  rw [routedScore]
  split
  · have hvalues : tk.1.shape = [rows, config.numExpertsPerTok] := htopk.values_shape
    have hinside : Inside tk.1.shape [r, j] := by simp [hvalues, hr, hj]
    have hone : broadcastIndex [rows, 1] [r, j] = [r, 0] := by
      simp [broadcastIndex, repeated_of_lt hr]
    have hsum : tk.1.reduceSumLast.get [r, 0] =
        ((selectedExperts exp state fun d => h2d.get [r, d]).map
          (routerProb exp state fun d => h2d.get [r, d])).sum := by
      rw [reduceSumLast_get hvalues, ← (hperm.map _).sum_eq, List.map_map]
      exact Finset.sum_congr rfl fun i hi => hvalue i (Finset.mem_range.mp hi)
    rw [← hvalue j hj, ← hsum]
    simp only [Tensor.zipWith, broadcastIndex_self hinside, reduceSumLast_shape hvalues, hone]
  · exact hvalue j hj

theorem routerGate_get (he : e < config.numExperts) :
    (routerGate exp topk state h2d).get [r, e] =
      denseScore exp state (fun d => h2d.get [r, d]) e := by
  have hprobs := @probs_shape R _ exp config state h2d rows hshape
  have htopk := topk.isTopk hprobs config.numExpertsPerTok_le
  have hperm := @choice_perm R _ _ exp config topk state h2d rows r hshape hr hdistinct
  rw [routerGate, scatter_get htopk.indices_shape, denseScore]
  by_cases hmem : e ∈ selectedExperts exp state fun d => h2d.get [r, d]
  · obtain ⟨j, hj, hje⟩ := List.mem_map.mp (hperm.mem_iff.mpr hmem)
    have hj := List.mem_range.mp hj
    rw [if_pos hmem, foldl_update (htopk.index_inj r hr) hj hje, sliceAll_get,
      scores_get hshape hr hdistinct hj, hje]
  · have hne : ∀ j < config.numExpertsPerTok,
        (topk.run ((h2d.matmulT state.gate).softmax exp) config.numExpertsPerTok).2.get [r, j] ≠
          e :=
      fun j hj h => hmem (hperm.mem_iff.mp (List.mem_map.mpr ⟨j, List.mem_range.mpr hj, h⟩))
    have hinside : Inside ((h2d.matmulT state.gate).softmax exp).shape [r, e] := by
      rw [hprobs]
      simp [hr, he]
    rw [if_neg hmem, foldl_update_of_ne hne, mul, zipWith_scalar_get hinside, mul_zero]

end Probabilities

theorem routerGate_shape (hshape : h2d.shape = [rows, config.hiddenSize]) :
    (routerGate exp topk state h2d).shape = [rows, config.numExperts] :=
  (zipWith_scalar_shape (· * ·) _ 0).trans (probs_shape hshape)

end Router

end Arcint.Moe
