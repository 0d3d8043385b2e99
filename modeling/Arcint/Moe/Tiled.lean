import Arcint.Foundation.Scatter
import Arcint.Moe.Layouts
import Mathlib.Tactic.Ring

/-! # The tiled form

Every expert has its own copy of the tokens. The transposed gate stands beside the experts' outputs,
and the sum is over the first axis.
-/

namespace Arcint.Moe

open Foundation Tensor

section Tiled

variable {R : Type} [Field R] [LinearOrder R] {exp sigmoid : R → R} {config : MoeConfig}
variable {topk : Topk R} {state : MoeState R config} {rows r e h : ℕ}

/-! ## Copies of the tokens -/

section Copies

variable {t : Tensor R} {n cols c : ℕ} (ht : t.shape = [rows, cols]) (hn : 0 < n) (hcols : 0 < cols)
include ht hn hcols

omit [Field R] [LinearOrder R] in
theorem tile_reshape : (t.tile [n, 1]).reshapeTo [some n, none, some cols] =
    (t.tile [n, 1]).reshape [n, rows, cols] := by
  have hprod : rows * (n * cols) / (n * cols) = rows := Nat.mul_div_cancel _ (Nat.mul_pos hn hcols)
  simp [reshapeTo, tile, ht, hprod, Nat.mul_assoc]

omit [Field R] [LinearOrder R] hcols hn in
theorem tile_get (he : e < n) (hr : r < rows) (hc : c < cols) :
    ((t.tile [n, 1]).reshape [n, rows, cols]).get [e, r, c] = t.get [r, c] := by
  have hplace : e * rows + r < rows * n := by
    rw [Nat.mul_comm rows n]
    exact block_lt he hr
  have hinside : Inside (t.tile [n, 1]).shape [e * rows + r, c] := by simp [tile, *]
  rw [reshape_get hinside]
  · simp [tile, ht, block_mod hr, Nat.mod_eq_of_lt hc]
  · simp [tile, ht, ravel]
    ring

end Copies

/-! ## All experts in one product -/

section Outs

variable {bodies : ExpertBodies state} {m : Tensor R}
  (hm : m.shape = [config.numExperts, rows, config.hiddenSize])
include hm

omit [LinearOrder R] in
theorem inter_shape :
    (mul (swish1 sigmoid (m.matmulT bodies.gateW)) (m.matmulT bodies.upW)).shape =
      [config.numExperts, rows, config.moeIntermediateSize] :=
  zipWith_shape_eq (matmulT_shape3 hm bodies.gateW_shape) (matmulT_shape3 hm bodies.upW_shape)

omit [LinearOrder R] in
theorem outs_get {x : ℕ → R} (hx : ∀ d < config.hiddenSize, m.get [e, r, d] = x d)
    (he : e < config.numExperts) (hr : r < rows) (hh : h < config.hiddenSize) :
    ((mul (swish1 sigmoid (m.matmulT bodies.gateW)) (m.matmulT bodies.upW)).matmulT
        bodies.downW).get [e, r, h] =
      expertOut sigmoid x config state.gateUpProj state.downProj e h := by
  rw [matmulT_get3 (inter_shape hm), expertOut]
  refine Finset.sum_congr rfl fun i hi => ?_
  have hi := Finset.mem_range.mp hi
  have hinside : Inside [config.numExperts, rows, config.moeIntermediateSize] [e, r, i] := by
    simp [*]
  have hgate : (m.matmulT bodies.gateW).get [e, r, i] =
      linear x config.hiddenSize fun d => state.gateUpProj.get [e, i, d] := by
    rw [matmulT_get3 hm, linear]
    refine Finset.sum_congr rfl fun d hd => ?_
    rw [hx d (Finset.mem_range.mp hd), bodies.gateW_get e he i hi d (Finset.mem_range.mp hd)]
  have hup : (m.matmulT bodies.upW).get [e, r, i] =
      linear x config.hiddenSize fun d =>
        state.gateUpProj.get [e, config.moeIntermediateSize + i, d] := by
    rw [matmulT_get3 hm, linear]
    refine Finset.sum_congr rfl fun d hd => ?_
    rw [hx d (Finset.mem_range.mp hd), bodies.upW_get e he i hi d (Finset.mem_range.mp hd)]
  have hinter : (mul (swish1 sigmoid (m.matmulT bodies.gateW)) (m.matmulT bodies.upW)).get
      [e, r, i] = (swish1 sigmoid (m.matmulT bodies.gateW)).get [e, r, i] *
        (m.matmulT bodies.upW).get [e, r, i] :=
    zipWith_get (by rwa [swish1, map_shape, matmulT_shape3 hm bodies.gateW_shape])
      (by rwa [matmulT_shape3 hm bodies.upW_shape])
  have hswish : (swish1 sigmoid (m.matmulT bodies.gateW)).get [e, r, i] =
      (m.matmulT bodies.gateW).get [e, r, i] *
        sigmoid ((m.matmulT bodies.gateW).get [e, r, i]) := rfl
  rw [hinter, bodies.downW_get e he h hh i hi, hswish, hgate, hup, glu]

end Outs

/-! ## The sum over the experts -/

section Mixed

variable {outs weights : Tensor R} {n cols c : ℕ} (houts : outs.shape = [n, rows, cols])
  (hweights : weights.shape = [rows, n]) (hn : 0 < n) (hcols : 0 < cols)

omit [Field R] [LinearOrder R] in
include houts hn hcols in
theorem outs4_eq : outs.reshapeTo [some n, some 1, none, some cols] =
    outs.reshape [n, 1, rows, cols] := by
  have hprod : n * (rows * cols) / (n * cols) = rows := by
    rw [Nat.mul_left_comm, Nat.mul_div_cancel _ (Nat.mul_pos hn hcols)]
  simp [reshapeTo, houts, hprod]

omit [Field R] [LinearOrder R] in
include hweights hn in
theorem router_reshape_eq : weights.transpose10.reshapeTo [some n, some 1, none] =
    weights.transpose10.reshape [n, 1, rows] := by
  simp [reshapeTo, transpose10, hweights, Nat.mul_div_cancel_left _ hn]

include houts hweights hn hcols

omit [LinearOrder R] in
theorem weighted_shape :
    (mul (outs.reshapeTo [some n, some 1, none, some cols])
      (weights.transpose10.reshapeTo [some n, some 1, none]).unsqueezeLast).shape =
      [n, 1, rows, cols] := by
  have hlast : (if cols = 1 then 1 else cols) = cols := by split <;> simp [*]
  simp [outs4_eq houts hn hcols, router_reshape_eq hweights hn, mul, Tensor.zipWith,
    unsqueezeLast, broadcastShape, broadcastShape.joinDims, hlast]

omit [LinearOrder R] in
theorem weighted_get (he : e < n) (hr : r < rows) (hc : c < cols) :
    (mul (outs.reshapeTo [some n, some 1, none, some cols])
      (weights.transpose10.reshapeTo [some n, some 1, none]).unsqueezeLast).get [e, 0, r, c] =
      outs.get [e, r, c] * weights.get [r, e] := by
  have hinside : Inside [n, 1, rows, cols] [e, 0, r, c] := by simp [*]
  have hone : broadcastIndex [n, 1, rows, 1] [e, 0, r, c] = [e, 0, r, 0] := by
    simp [broadcastIndex, repeated_of_lt, *]
  have hout : (outs.reshape [n, 1, rows, cols]).get [e, 0, r, c] = outs.get [e, r, c] := by
    have hplace : Inside outs.shape [e, r, c] := by simp [*]
    exact reshape_get hplace (by simp [ravel, houts])
  have hweight : (weights.transpose10.reshape [n, 1, rows]).get [e, 0, r] =
      weights.get [r, e] := by
    have hplace : Inside weights.transpose10.shape [e, r] := by simp [transpose10, *]
    exact reshape_get hplace (by simp [ravel, transpose10, hweights])
  rw [outs4_eq houts hn hcols, router_reshape_eq hweights hn, ← hout, ← hweight]
  simp only [mul, Tensor.zipWith, reshape_shape, unsqueezeLast, List.cons_append, List.nil_append,
    broadcastIndex_self hinside, hone, List.dropLast]

omit [LinearOrder R] in
theorem mixed_shape :
    ((mul (outs.reshapeTo [some n, some 1, none, some cols])
      (weights.transpose10.reshapeTo [some n, some 1, none]).unsqueezeLast).reduceSum 0).shape =
      [1, rows, cols] :=
  congrArg (·.eraseIdx 0) (weighted_shape houts hweights hn hcols)

omit [LinearOrder R] in
theorem mixed_get (hr : r < rows) (hc : c < cols) :
    ((mul (outs.reshapeTo [some n, some 1, none, some cols])
      (weights.transpose10.reshapeTo [some n, some 1, none]).unsqueezeLast).reduceSum 0).get
        [0, r, c] =
      ∑ e ∈ Finset.range n, outs.get [e, r, c] * weights.get [r, e] := by
  rw [reduceSum, weighted_shape houts hweights hn hcols]
  exact Finset.sum_congr rfl fun e he =>
    weighted_get houts hweights hn hcols (Finset.mem_range.mp he) hr hc

end Mixed

/-! ## The block -/

section Block

variable {hidden : Tensor R} (hhidden : hidden.shape = [1, rows, config.hiddenSize])
include hhidden

omit [LinearOrder R] in
/-- The shared expert of the tiled form flattens the tokens a second time. -/
theorem emitSharedExpert_get {seqLen : Option ℕ} (hseq : seqLen = none ∨ seqLen = some rows)
    (hr : r < rows) (hh : h < config.hiddenSize) :
    (emitSharedExpert sigmoid state hidden seqLen).get [r, h] =
      sharedOut sigmoid state (token hidden r) h := by
  have hflat : hidden.reshapeTo [seqLen, some config.hiddenSize] =
      hidden.reshape [rows, config.hiddenSize] := by
    rcases hseq with rfl | rfl
    · exact reshapeTo_flat hhidden
    · rfl
  rw [emitSharedExpert, hflat, sharedTerm_get rfl hr hh,
    sharedOut_congr sigmoid state (flat_get hhidden hr)]

omit [LinearOrder R] in
theorem emitSharedExpert_shape {seqLen : Option ℕ} (hseq : seqLen = none ∨ seqLen = some rows) :
    (emitSharedExpert sigmoid state hidden seqLen).shape = [rows, config.hiddenSize] := by
  refine sharedTerm_shape ?_
  rcases hseq with rfl | rfl
  · rw [reshapeTo_flat hhidden, reshape_shape]
  · rfl

end Block

omit [Field R] [LinearOrder R] in
theorem reshapeTo_token {t : Tensor R} (ht : t.shape.prod = rows * config.hiddenSize) :
    t.reshapeTo [some 1, none, some config.hiddenSize] =
      t.reshape [1, rows, config.hiddenSize] := by
  simp [reshapeTo, ht, Nat.mul_div_cancel _ config.hiddenSize_pos]

/-- All experts in one product, by the router's gate. -/
theorem emitMoeTiled_gate {hidden : Tensor R}
    (hhidden : hidden.shape = [1, rows, config.hiddenSize]) (tag : String)
    (bodies : ExpertBodies state) :
    ∃ out, emitMoeTiled exp sigmoid topk state tag bodies hidden = .ok out ∧
      out.shape = [1, rows, config.hiddenSize] ∧ ∀ r < rows, ∀ h < config.hiddenSize,
        out.get [0, r, h] = ∑ e ∈ Finset.range config.numExperts,
          expertOut sigmoid (token hidden r) config state.gateUpProj state.downProj e h *
            (routerGate exp topk state (hidden.reshape [rows, config.hiddenSize])).get [r, e] +
          sharedOut sigmoid state (token hidden r) h := by
  have hexperts : 0 < config.numExperts :=
    config.numExpertsPerTok_pos.trans config.numExpertsPerTok_le
  have hwidth := config.hiddenSize_pos
  let yFlat := hidden.reshape [rows, config.hiddenSize]
  let mH3 := (yFlat.tile [config.numExperts, 1]).reshape
    [config.numExperts, rows, config.hiddenSize]
  let outs := (mul (swish1 sigmoid (mH3.matmulT bodies.gateW)) (mH3.matmulT bodies.upW)).matmulT
    bodies.downW
  let weights := routerGate exp topk state yFlat
  let mixed := (mul (outs.reshapeTo [some config.numExperts, some 1, none, some config.hiddenSize])
    (weights.transpose10.reshapeTo [some config.numExperts, some 1, none]).unsqueezeLast).reduceSum
      0
  let again := yFlat.reshape [1, rows, config.hiddenSize]
  let sh := emitSharedExpert sigmoid state again none
  have houts : outs.shape = [config.numExperts, rows, config.hiddenSize] :=
    matmulT_shape3 (inter_shape rfl) bodies.downW_shape
  have hweights : weights.shape = [rows, config.numExperts] := routerGate_shape rfl
  have hmixed : mixed.shape = [1, rows, config.hiddenSize] :=
    mixed_shape houts hweights hexperts hwidth
  have hsh : sh.shape = [rows, config.hiddenSize] := emitSharedExpert_shape rfl (.inl rfl)
  have hsum : (add mixed sh).shape = [1, rows, config.hiddenSize] := by
    simp [add, Tensor.zipWith, hmixed, hsh, broadcastShape, broadcastShape.joinDims]
  have hok : emitMoeTiled exp sigmoid topk state tag bodies hidden =
      .ok ((add mixed sh).reshape [1, rows, config.hiddenSize]) := by
    have hyFlat : hidden.reshapeTo [none, some config.hiddenSize] = yFlat :=
      reshapeTo_flat hhidden
    have htiled : (yFlat.tile [config.numExperts, 1]).reshapeTo
        [some config.numExperts, none, some config.hiddenSize] = mH3 :=
      tile_reshape rfl hexperts hwidth
    have hagain : yFlat.reshapeTo [some 1, none, some config.hiddenSize] = again :=
      reshapeTo_token (by simp [yFlat])
    have hlast : (add mixed sh).reshapeTo [some 1, none, some config.hiddenSize] =
        (add mixed sh).reshape [1, rows, config.hiddenSize] :=
      reshapeTo_token (by simp [hsum])
    rw [emitMoeTiled, hyFlat, htiled, hagain, ← hlast, ensure, if_pos (by simp [hhidden])]
    rfl
  refine ⟨_, hok, rfl, fun r hr h hh => ?_⟩
  have hplace : Inside [1, rows, config.hiddenSize] [0, r, h] := by simp [hr, hh]
  have hrow : broadcastIndex [rows, config.hiddenSize] [0, r, h] = [r, h] := by
    simp [broadcastIndex, repeated_of_lt, hr, hh]
  have htoken : ∀ d < config.hiddenSize, token again r d = token hidden r d := by
    intro d hd
    have hinside : Inside yFlat.shape [r, d] := by simp [yFlat, hr, hd]
    exact (reshape_get hinside (by simp [yFlat, ravel])).trans (flat_get hhidden hr d hd)
  have hexpert : ∀ e < config.numExperts, outs.get [e, r, h] =
      expertOut sigmoid (token hidden r) config state.gateUpProj state.downProj e h := by
    intro e he
    refine outs_get rfl (fun d hd => ?_) he hr hh
    rw [tile_get rfl he hr hd, flat_get hhidden hr d hd]
  have hshared : sh.get [r, h] = sharedOut sigmoid state (token hidden r) h := by
    rw [emitSharedExpert_get rfl (.inl rfl) hr hh, sharedOut_congr sigmoid state htoken]
  have hinside : Inside (add mixed sh).shape [0, r, h] := by rwa [hsum]
  rw [reshape_get hinside (by rw [hsum])]
  simp only [add, Tensor.zipWith, hmixed, hsh, broadcastIndex_self hplace, hrow]
  rw [hshared, mixed_get houts hweights hexperts hwidth hr hh]
  refine congrArg (· + _) (Finset.sum_congr rfl fun e he => ?_)
  rw [hexpert e (Finset.mem_range.mp he)]

/-- All experts in one product. -/
theorem emitMoeTiled_eq {hidden : Tensor R} (hhidden : hidden.shape = [1, rows, config.hiddenSize])
    (hdistinct : ∀ r < rows, KthDistinct (routerProb exp state (token hidden r)) config.numExperts
      config.numExpertsPerTok) (tag : String) (bodies : ExpertBodies state) :
    ∃ out, emitMoeTiled exp sigmoid topk state tag bodies hidden = .ok out ∧
      out.shape = [1, rows, config.hiddenSize] ∧ ∀ r < rows, ∀ h < config.hiddenSize,
        out.get [0, r, h] = mixture exp sigmoid state (token hidden r) h := by
  obtain ⟨out, hout, hshape, hget⟩ := emitMoeTiled_gate hhidden tag bodies
  refine ⟨out, hout, hshape, fun r hr h hh => ?_⟩
  rw [hget r hr h hh, mixture_eq_dense]
  refine congrArg (· + _) (Finset.sum_congr rfl fun e he => ?_)
  rw [flatGate_get hhidden hdistinct hr (Finset.mem_range.mp he)]

end Tiled

end Arcint.Moe
