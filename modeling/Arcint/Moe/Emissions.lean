import Arcint.Moe.Router

/-! # The forms of the layer compute the mixture

The tensors of a form have a place for every expert, token and output in a layout of its own. What
stands there depends on the token's row only, and the sums over the experts are the mixture.
-/

namespace Arcint.Moe

open Foundation Tensor

section Emissions

variable {R : Type} [Field R] [LinearOrder R] {exp sigmoid : R → R} {config : MoeConfig}
variable {topk : Topk R} {state : MoeState R config} {rows r e h : ℕ}

/-! ## Elementwise operations on matrices -/

omit [LinearOrder R] in
/-- A column beside a matrix. -/
theorem mul_column_get {a b : Tensor R} {n c : ℕ} (ha : a.shape = [rows, n])
    (hb : b.shape = [rows, 1]) (hr : r < rows) (hc : c < n) :
    (mul a b).get [r, c] = a.get [r, c] * b.get [r, 0] ∧
      (mul b a).get [r, c] = b.get [r, 0] * a.get [r, c] := by
  have hinside : Inside [rows, n] [r, c] := by simp [hr, hc]
  have hone : broadcastIndex [rows, 1] [r, c] = [r, 0] := by
    simp [broadcastIndex, repeated_of_lt hr]
  simp only [mul, Tensor.zipWith, ha, hb, broadcastIndex_self hinside, hone, and_self]

omit [LinearOrder R] in
theorem mul_column_shape {a b : Tensor R} {n : ℕ} (ha : a.shape = [rows, n])
    (hb : b.shape = [rows, 1]) :
    (mul a b).shape = [rows, n] ∧ (mul b a).shape = [rows, n] := by
  have hn : (if n = 1 then 1 else n) = n := by split <;> simp [*]
  simp [mul, Tensor.zipWith, ha, hb, broadcastShape, broadcastShape.joinDims, hn]

/-! ## The gated product -/

omit [LinearOrder R] in
theorem gated_get {g u : Tensor R} {n i : ℕ} (hg : g.shape = [rows, n]) (hu : u.shape = [rows, n])
    (hr : r < rows) (hi : i < n) :
    (mul (silu sigmoid g) u).get [r, i] =
      g.get [r, i] * sigmoid (g.get [r, i]) * u.get [r, i] := by
  have hmap : (g.map sigmoid).shape = [rows, n] := hg
  have hsilu : (silu sigmoid g).shape = [rows, n] := zipWith_shape_eq hg hmap
  rw [mul, zipWith_get2 hsilu hu hr hi, silu, mul, zipWith_get2 hg hmap hr hi]
  rfl

variable (sigmoid) in
omit [LinearOrder R] in
theorem gated_shape {g u : Tensor R} {n : ℕ} (hg : g.shape = [rows, n])
    (hu : u.shape = [rows, n]) : (mul (silu sigmoid g) u).shape = [rows, n] :=
  zipWith_shape_eq (zipWith_shape_eq hg hg) hu

section Rows

variable {h2d : Tensor R} (hshape : h2d.shape = [rows, config.hiddenSize])
include hshape

/-! ## Experts -/

section Expert

variable {gate gateUp down : Tensor R} {n : ℕ} (hgate : gate.shape = [rows, n])
  (hgateUp : gateUp.shape = [n, 2 * config.moeIntermediateSize, config.hiddenSize])
  (hdown : down.shape = [n, config.hiddenSize, config.moeIntermediateSize])

include hgateUp in
omit [LinearOrder R] in
/-- The halves of the rows of an expert. -/
theorem halves_shape :
    let gu := h2d.matmulT (gateUp.row e)
    (gu.slice 1 0 config.moeIntermediateSize).shape = [rows, config.moeIntermediateSize] ∧
      (gu.slice 1 config.moeIntermediateSize (2 * config.moeIntermediateSize)).shape =
        [rows, config.moeIntermediateSize] := by
  intro gu
  have hrow : (gateUp.row e).shape = [2 * config.moeIntermediateSize, config.hiddenSize] := by
    simp [row, hgateUp]
  have hgu : gu.shape = [rows, 2 * config.moeIntermediateSize] := matmulT_shape hshape hrow
  have hhalf : 2 * config.moeIntermediateSize - config.moeIntermediateSize =
      config.moeIntermediateSize := by omega
  simp [Tensor.slice, hgu, hhalf]

include hgate hgateUp hdown

omit [LinearOrder R] in
theorem expertContrib_shape :
    (expertContrib sigmoid config h2d gate gateUp down e).shape = [rows, config.hiddenSize] := by
  obtain ⟨hg, hu⟩ := halves_shape (e := e) hshape hgateUp
  have hrow : (down.row e).shape = [config.hiddenSize, config.moeIntermediateSize] := by
    simp [row, hdown]
  have hcolumn : (gate.slice 1 e (e + 1)).shape = [rows, 1] := by simp [Tensor.slice, hgate]
  exact (mul_column_shape (matmulT_shape (gated_shape sigmoid hg hu) hrow) hcolumn).1

omit [LinearOrder R] in
theorem expertContrib_get (hr : r < rows) (hh : h < config.hiddenSize) :
    (expertContrib sigmoid config h2d gate gateUp down e).get [r, h] =
      expertOut sigmoid (fun d => h2d.get [r, d]) config gateUp down e h * gate.get [r, e] := by
  obtain ⟨hg, hu⟩ := halves_shape (e := e) hshape hgateUp
  have hrow : (down.row e).shape = [config.hiddenSize, config.moeIntermediateSize] := by
    simp [row, hdown]
  have hcolumn : (gate.slice 1 e (e + 1)).shape = [rows, 1] := by simp [Tensor.slice, hgate]
  have hde := matmulT_shape (gated_shape sigmoid hg hu) hrow
  rw [expertContrib, (mul_column_get hde hcolumn hr hh).1,
    matmulT_get (gated_shape sigmoid hg hu), expertOut]
  refine congrArg (· * _) (Finset.sum_congr rfl fun i hi => ?_)
  have hi := Finset.mem_range.mp hi
  rw [gated_get hg hu hr hi]
  simp [Tensor.slice, row, glu, linear, matmulT_get hshape]

end Expert

/-! ## The shared expert -/

omit [LinearOrder R] in
theorem sharedTerm_shape : (sharedTerm sigmoid state h2d).shape = [rows, config.hiddenSize] := by
  have hsg := matmulT_shape hshape state.sharedGateProj_shape
  have hsu := matmulT_shape hshape state.sharedUpProj_shape
  have hsgate := matmulT_shape hshape state.sharedExpertGate_shape
  exact (mul_column_shape (matmulT_shape (gated_shape sigmoid hsg hsu) state.sharedDownProj_shape)
    hsgate).2

omit [LinearOrder R] in
theorem sharedTerm_get (hr : r < rows) (hh : h < config.hiddenSize) :
    (sharedTerm sigmoid state h2d).get [r, h] =
      sharedOut sigmoid state (fun d => h2d.get [r, d]) h := by
  have hsg := matmulT_shape hshape state.sharedGateProj_shape
  have hsu := matmulT_shape hshape state.sharedUpProj_shape
  have hsout := matmulT_shape (gated_shape sigmoid hsg hsu)
    state.sharedDownProj_shape
  have hsgate : ((h2d.matmulT state.sharedExpertGate).map sigmoid).shape = [rows, 1] :=
    matmulT_shape hshape state.sharedExpertGate_shape
  rw [sharedTerm, (mul_column_get hsout hsgate hr hh).2, matmulT_get (gated_shape sigmoid hsg hsu),
    sharedOut]
  refine congrArg₂ (· * ·) ?_ (Finset.sum_congr rfl fun i hi => ?_)
  · simp [Tensor.map, linear, matmulT_get hshape]
  · rw [gated_get hsg hsu hr (Finset.mem_range.mp hi)]
    simp [glu, linear, matmulT_get hshape]

end Rows

/-! ## The loops -/

omit [LinearOrder R] in
/-- A loop over at least one expert has the sum of what its turns add. -/
theorem accumulate_eq {contrib : ℕ → Tensor R} {cols count : ℕ} (hcount : 0 < count)
    (hshape : ∀ e, (contrib e).shape = [rows, cols]) :
    ∃ acc, accumulate contrib count = some acc ∧ acc.shape = [rows, cols] ∧
      ∀ r < rows, ∀ c < cols,
        acc.get [r, c] = ∑ e ∈ Finset.range count, (contrib e).get [r, c] := by
  induction count with
  | zero => exact absurd hcount (Nat.lt_irrefl 0)
  | succ count ih =>
      rw [accumulate, List.range_succ, List.foldl_append]
      rcases Nat.eq_zero_or_pos count with rfl | hpos
      · exact ⟨contrib 0, rfl, hshape 0, fun r _ c _ => by simp⟩
      · obtain ⟨acc, hacc, haccShape, hget⟩ := ih hpos
        rw [accumulate] at hacc
        rw [hacc]
        refine ⟨add acc (contrib count), rfl, zipWith_shape_eq haccShape (hshape count), ?_⟩
        intro r hr c hc
        rw [add, zipWith_get2 haccShape (hshape count) hr hc, hget r hr c hc,
          Finset.sum_range_succ]

section Dense

variable {h2d : Tensor R} (hshape : h2d.shape = [rows, config.hiddenSize])
include hshape

/-- Expert after expert, by the router's gate. -/
theorem moeSubgraph_gate :
    ∃ out, moeSubgraph exp sigmoid topk state h2d = some (out, routerGate exp topk state h2d) ∧
      out.shape = [rows, config.hiddenSize] ∧ ∀ r < rows, ∀ h < config.hiddenSize,
        out.get [r, h] = ∑ e ∈ Finset.range config.numExperts,
          expertOut sigmoid (fun d => h2d.get [r, d]) config state.gateUpProj state.downProj e h *
            (routerGate exp topk state h2d).get [r, e] +
          sharedOut sigmoid state (fun d => h2d.get [r, d]) h := by
  have hgate : (routerGate exp topk state h2d).shape = [rows, config.numExperts] :=
    routerGate_shape hshape
  obtain ⟨acc, hacc, haccShape, hget⟩ := accumulate_eq
    (config.numExpertsPerTok_pos.trans config.numExpertsPerTok_le)
    fun e => @expertContrib_shape R _ sigmoid config rows e h2d hshape _ _ _ _ hgate
      state.gateUpProj_shape state.downProj_shape
  refine ⟨add acc (sharedTerm sigmoid state h2d), by rw [moeSubgraph, hacc]; rfl,
    zipWith_shape_eq haccShape (sharedTerm_shape hshape), fun r hr h hh => ?_⟩
  rw [add, zipWith_get2 haccShape (sharedTerm_shape hshape) hr hh, hget r hr h hh,
    sharedTerm_get hshape hr hh]
  refine congrArg (· + _) (Finset.sum_congr rfl fun e he => ?_)
  rw [expertContrib_get hshape hgate state.gateUpProj_shape state.downProj_shape hr hh]

variable (hdistinct : ∀ r < rows, KthDistinct (routerProb exp state fun d => h2d.get [r, d])
  config.numExperts config.numExpertsPerTok)
include hdistinct

/-- Expert after expert. -/
theorem moeSubgraph_eq :
    ∃ out, moeSubgraph exp sigmoid topk state h2d = some (out, routerGate exp topk state h2d) ∧
      out.shape = [rows, config.hiddenSize] ∧
      ∀ r < rows, ∀ h < config.hiddenSize,
        out.get [r, h] = mixture exp sigmoid state (fun d => h2d.get [r, d]) h := by
  obtain ⟨out, hout, houtShape, hget⟩ := moeSubgraph_gate hshape
  refine ⟨out, hout, houtShape, fun r hr h hh => ?_⟩
  rw [hget r hr h hh, mixture_eq_dense]
  refine congrArg (· + _) (Finset.sum_congr rfl fun e he => ?_)
  rw [routerGate_get hshape hr (hdistinct r hr) (Finset.mem_range.mp he)]

end Dense

end Emissions

end Arcint.Moe
