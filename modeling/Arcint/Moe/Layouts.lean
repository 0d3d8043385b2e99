import Arcint.Moe.Emissions

/-! # One layer in three layouts

The dense graph slices the experts out one by one, a chunk counts its experts from zero, and the
tiled graph holds every expert's tokens in one tensor. All of them are the mixture, token by token.
-/

namespace Arcint.Moe

open Foundation Tensor

section Layouts

variable {R : Type} [Field R] [LinearOrder R] {exp sigmoid : R → R} {config : MoeConfig}
variable {state : MoeState R config} {hidden : Tensor R} {rows r e h : ℕ}

/-- The columns of token `r` of the only sequence. -/
def token (hidden : Tensor R) (r d : ℕ) : R := hidden.get [0, r, d]

/-! ## Tokens as rows -/

section Flat

variable (hhidden : hidden.shape = [1, rows, config.hiddenSize])
include hhidden

omit [Field R] [LinearOrder R] in
theorem flat_get (hr : r < rows) : ∀ d < config.hiddenSize,
    (hidden.reshape [rows, config.hiddenSize]).get [r, d] = token hidden r d := by
  intro d hd
  have hinside : Inside hidden.shape [0, r, d] := by simp [*]
  exact reshape_get hinside (by simp [ravel, hhidden])

omit [Field R] [LinearOrder R] in
/-- The number of tokens is what the columns leave. -/
theorem reshapeTo_flat :
    hidden.reshapeTo [none, some config.hiddenSize] =
      hidden.reshape [rows, config.hiddenSize] := by
  simp [reshapeTo, hhidden, Nat.mul_div_cancel _ config.hiddenSize_pos]

end Flat

/-! ## Chunks -/

/-- Ranges that follow each other from `start` to `stop`, none of them empty. -/
def Consecutive (start stop : ℕ) : List (ℕ × ℕ) → Prop
  | [] => start = stop
  | (e0, e1) :: rest => e0 = start ∧ e0 < e1 ∧ Consecutive e1 stop rest

theorem Consecutive.le {start stop : ℕ} {ranges : List (ℕ × ℕ)}
    (hranges : Consecutive start stop ranges) : start ≤ stop := by
  induction ranges generalizing start with
  | nil => exact Nat.le_of_eq hranges
  | cons range rest ih =>
      obtain ⟨rfl, hlt, hrest⟩ := hranges
      exact hlt.le.trans (ih hrest)

theorem Consecutive.of_mem {start stop : ℕ} {ranges : List (ℕ × ℕ)}
    (hranges : Consecutive start stop ranges) :
    ∀ range ∈ ranges, range.1 < range.2 ∧ range.2 ≤ stop := by
  induction ranges generalizing start with
  | nil => simp
  | cons range rest ih =>
      obtain ⟨rfl, hlt, hrest⟩ := hranges
      exact List.forall_mem_cons.mpr ⟨⟨hlt, hrest.le⟩, ih hrest⟩

omit [LinearOrder R] in
/-- A sum over the ranges is one over all places. -/
theorem Consecutive.sum_eq {start stop : ℕ} {ranges : List (ℕ × ℕ)} (f : ℕ → R)
    (hranges : Consecutive start stop ranges) :
    (ranges.map fun range => ∑ j ∈ Finset.range (range.2 - range.1), f (range.1 + j)).sum =
      ∑ e ∈ Finset.Ico start stop, f e := by
  induction ranges generalizing start with
  | nil =>
      obtain rfl : start = stop := hranges
      simp
  | cons range rest ih =>
      obtain ⟨rfl, hlt, hrest⟩ := hranges
      rw [List.map_cons, List.sum_cons, ih hrest, ← Finset.sum_Ico_eq_sum_range,
        Finset.sum_Ico_consecutive f hlt.le hrest.le]

section Pieces

variable {topk : Topk R} (hhidden : hidden.shape = [1, rows, config.hiddenSize])
  (hdistinct : ∀ r < rows, KthDistinct (routerProb exp state (token hidden r)) config.numExperts
    config.numExpertsPerTok)
include hhidden hdistinct

/-- The gate of a token. -/
theorem flatGate_get (hr : r < rows) (he : e < config.numExperts) :
    (routerGate exp topk state (hidden.reshape [rows, config.hiddenSize])).get [r, e] =
      denseScore exp state (token hidden r) e := by
  have hflat := flat_get hhidden hr
  rw [routerGate_get rfl hr _ he, denseScore_congr exp state hflat]
  rw [routerProb_congr exp state hflat]
  exact hdistinct r hr

/-- The experts of a range, by their own columns of the gate. -/
theorem emitExpertsChunk_eq {e0 e1 : ℕ} (hlt : e0 < e1) (hle : e1 ≤ config.numExperts) :
    ∃ out, emitExpertsChunk sigmoid state hidden
        ((emitRouterGate exp topk state hidden rows).slice 1 e0 e1) e0 e1 rows = some out ∧
      ∀ r < rows, ∀ h < config.hiddenSize, out.get [r, h] =
        ∑ j ∈ Finset.range (e1 - e0),
          expertOut sigmoid (token hidden r) config state.gateUpProj state.downProj (e0 + j) h *
            denseScore exp state (token hidden r) (e0 + j) := by
  let gate := (emitRouterGate exp topk state hidden rows).slice 1 e0 e1
  let h2d := hidden.reshape [rows, config.hiddenSize]
  have hflat : h2d.shape = [rows, config.hiddenSize] := rfl
  have hall : (routerGate exp topk state h2d).shape = [rows, config.numExperts] :=
    routerGate_shape hflat
  have hgate : gate.shape = [rows, e1 - e0] := congrArg (·.set 1 (e1 - e0)) hall
  have hgateUp : (state.gateUpProj.slice 0 e0 e1).shape =
      [e1 - e0, 2 * config.moeIntermediateSize, config.hiddenSize] := by
    simp [Tensor.slice, state.gateUpProj_shape]
  have hdown : (state.downProj.slice 0 e0 e1).shape =
      [e1 - e0, config.hiddenSize, config.moeIntermediateSize] := by
    simp [Tensor.slice, state.downProj_shape]
  obtain ⟨out, hout, _, hget⟩ := accumulate_eq (Nat.sub_pos_of_lt hlt) fun e =>
    @expertContrib_shape R _ sigmoid config rows e h2d hflat _ _ _ _ hgate hgateUp hdown
  refine ⟨out, hout, fun r hr h hh => (hget r hr h hh).trans (Finset.sum_congr rfl ?_)⟩
  intro j hj
  have hplace : e0 + j < config.numExperts :=
    (Nat.add_lt_of_lt_sub' (Finset.mem_range.mp hj)).trans_le hle
  rw [expertContrib_get hflat hgate hgateUp hdown hr hh,
    expertOut_congr sigmoid (flat_get hhidden hr), ← flatGate_get hhidden hdistinct hr hplace]
  rfl

end Pieces

end Layouts

end Arcint.Moe
