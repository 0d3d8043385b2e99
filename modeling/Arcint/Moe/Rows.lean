import Arcint.Moe.Agreement

/-! # The layer on the rows of a forward

A runtime that picks by the values of a row gives a token one gate, whatever tokens stand beside
it, also where its last choice is a tie. The forms of the layer then take the rows of a forward one
by one.
-/

namespace Arcint.Moe

open Foundation Tensor

/-- A `TopK` whose choice in a row goes by the values of that row. -/
structure RowTopk (R : Type) [LE R] extends Topk R where
  byRow : ∀ {t t' : Tensor R} {rows rows' n k r r' : ℕ}, t.shape = [rows, n] →
    t'.shape = [rows', n] → k ≤ n → r < rows → r' < rows' →
      (∀ e < n, t.get [r, e] = t'.get [r', e]) →
        ∀ j < k, (run t k).2.get [r, j] = (run t' k).2.get [r', j]

/-- Taking the first of equal values. -/
def rankedRowTopk {R : Type} [LinearOrder R] : RowTopk R where
  toTopk := rankedTopk
  byRow {t t' rows rows' n k r r'} ht ht' hk _ _ hrow := by
    intro j hj
    obtain ⟨hlt, hplace⟩ := @rankedPlace_eq R _ t rows n k r j ht hk hj
    obtain ⟨hlt', hplace'⟩ := @rankedPlace_eq R _ t' rows' n k r' j ht' hk hj
    refine hplace.trans (Eq.trans ?_ hplace'.symm)
    exact List.getElem_of_eq (largest_congr hrow) hlt

section Rows

variable {R : Type} [Field R] [LinearOrder R] (exp sigmoid : R → R) {config : MoeConfig}
variable (topk : RowTopk R) (state : MoeState R config)

/-! ## Rows and tensors -/

/-- The columns of a row. -/
def columns {n : ℕ} (row : Fin n → R) (d : ℕ) : R := if h : d < n then row ⟨d, h⟩ else 0

/-- The tokens of a forward, in the batch of one. -/
def hiddenOf {n : ℕ} (rows : List (Fin n → R)) : Tensor R where
  shape := [1, rows.length, n]
  get idx := columns (rows.getD (idx.getD 1 0) 0) (idx.getD 2 0)

def flatOf {n : ℕ} (rows : List (Fin n → R)) : Tensor R :=
  (hiddenOf rows).reshape [rows.length, n]

/-- `emit_moe_tiled` on the rows of a forward. -/
def tiledRows (tag : String) (bodies : ExpertBodies state)
    (rows : List (Fin config.hiddenSize → R)) : List (Fin config.hiddenSize → R) :=
  match emitMoeTiled exp sigmoid topk.toTopk state tag bodies (hiddenOf rows) with
  | .ok out => (List.range rows.length).map fun r d => out.get [0, r, d]
  | .error _ => []

/-- `emit_moe` on the rows of a forward. -/
def denseRows (rows : List (Fin config.hiddenSize → R)) : List (Fin config.hiddenSize → R) :=
  match moeSubgraph exp sigmoid topk.toTopk state (flatOf rows) with
  | some (out, _) => (List.range rows.length).map fun r d => out.get [r, d]
  | none => []

/-! ## One row -/

/-- The gate of a token that stands alone. -/
def rowGate (row : Fin config.hiddenSize → R) (e : ℕ) : R :=
  (routerGate exp topk.toTopk state (flatOf [row])).get [0, e]

def moeRow (row : Fin config.hiddenSize → R) : Fin config.hiddenSize → R := fun h =>
  ∑ e ∈ Finset.range config.numExperts,
    expertOut sigmoid (columns row) config state.gateUpProj state.downProj e h *
      rowGate exp topk state row e +
    sharedOut sigmoid state (columns row) h

/-! ## The gate of a row -/

section Gate

variable {exp topk state} {h2d h2d' : Tensor R} {rows rows' r r' e : ℕ}

omit [LinearOrder R] in
/-- The scores beside the choices of a row, by the values of these. -/
theorem rowScores_get {vals : Tensor R} {k j : ℕ} (hvals : vals.shape = [rows, k]) (hr : r < rows)
    (hj : j < k) :
    (if config.normTopkProb then Tensor.zipWith (· / ·) vals vals.reduceSumLast else vals).get
        [r, j] =
      if config.normTopkProb then
        vals.get [r, j] / ∑ i ∈ Finset.range k, vals.get [r, i]
      else vals.get [r, j] := by
  split
  · have hinside : Inside vals.shape [r, j] := by simp [hvals, hr, hj]
    have hone : broadcastIndex [rows, 1] [r, j] = [r, 0] := by
      simp [broadcastIndex, repeated_of_lt hr]
    simp only [Tensor.zipWith, broadcastIndex_self hinside, reduceSumLast_shape hvals, hone,
      reduceSumLast_get hvals]
  · rfl

/-- Tokens of the same columns have the same gate. -/
theorem routerGate_congr (hshape : h2d.shape = [rows, config.hiddenSize])
    (hshape' : h2d'.shape = [rows', config.hiddenSize]) (hr : r < rows) (hr' : r' < rows')
    (hcolumns : ∀ d < config.hiddenSize, h2d.get [r, d] = h2d'.get [r', d])
    (he : e < config.numExperts) :
    (routerGate exp topk.toTopk state h2d).get [r, e] =
      (routerGate exp topk.toTopk state h2d').get [r', e] := by
  have hprobs := @probs_shape R _ exp config state h2d rows hshape
  have hprobs' := @probs_shape R _ exp config state h2d' rows' hshape'
  have hsame : ∀ e, ((h2d.matmulT state.gate).softmax exp).get [r, e] =
      ((h2d'.matmulT state.gate).softmax exp).get [r', e] := by
    intro e
    rw [probs_get hshape, probs_get hshape', routerProb_congr exp state hcolumns]
  have htopk := topk.isTopk hprobs config.numExpertsPerTok_le
  have htopk' := topk.isTopk hprobs' config.numExpertsPerTok_le
  have hindex := topk.byRow hprobs hprobs' config.numExpertsPerTok_le hr hr' fun e _ => hsame e
  have hvalue : ∀ j < config.numExpertsPerTok,
      (topk.run ((h2d.matmulT state.gate).softmax exp) config.numExpertsPerTok).1.get [r, j] =
        (topk.run ((h2d'.matmulT state.gate).softmax exp) config.numExpertsPerTok).1.get
          [r', j] := by
    intro j hj
    rw [htopk.value_eq r hr j hj, htopk'.value_eq r' hr' j hj, hindex j hj, hsame]
  have hinside : Inside ((h2d.matmulT state.gate).softmax exp).shape [r, e] := by
    simp [hprobs, hr, he]
  have hinside' : Inside ((h2d'.matmulT state.gate).softmax exp).shape [r', e] := by
    simp [hprobs', hr', he]
  rw [routerGate, routerGate, scatter_get htopk.indices_shape, scatter_get htopk'.indices_shape,
    mul, mul, zipWith_scalar_get hinside, zipWith_scalar_get hinside', mul_zero, mul_zero]
  refine List.foldl_ext _ _ _ fun acc j hj => ?_
  have hj := List.mem_range.mp hj
  rw [hindex j hj, sliceAll_get, sliceAll_get, rowScores_get htopk.values_shape hr hj,
    rowScores_get htopk'.values_shape hr' hj, hvalue j hj,
    Finset.sum_congr rfl fun i hi => hvalue i (Finset.mem_range.mp hi)]

end Gate

/-! ## The forms -/

section Forms

variable {exp sigmoid topk state} {rows : List (Fin config.hiddenSize → R)}

omit [LinearOrder R] in
theorem token_hiddenOf {row : Fin config.hiddenSize → R} {r : ℕ} (hrow : rows[r]? = some row) :
    token (hiddenOf rows) r = columns row := by
  funext d
  simp [token, hiddenOf, hrow]

/-- The gate of a token is the one it has alone. -/
theorem flatGate_hiddenOf {row : Fin config.hiddenSize → R} {r e : ℕ}
    (hrow : rows[r]? = some row) (he : e < config.numExperts) :
    (routerGate exp topk.toTopk state (flatOf rows)).get [r, e] =
      rowGate exp topk state row e := by
  have hr : r < rows.length := (List.getElem?_eq_some_iff.mp hrow).1
  refine routerGate_congr rfl rfl hr Nat.one_pos (fun d hd => ?_) he
  have halone : (flatOf [row]).get [0, d] = token (hiddenOf [row]) 0 d :=
    flat_get rfl Nat.one_pos d hd
  rw [halone, flatOf, flat_get rfl hr d hd, token_hiddenOf hrow, token_hiddenOf rfl]

/-- What a form answers a token, by the token's row. -/
theorem answers_eq_map (out : ℕ → ℕ → R)
    (hout : ∀ r < rows.length, ∀ h < config.hiddenSize, out r h =
      ∑ e ∈ Finset.range config.numExperts,
        expertOut sigmoid (token (hiddenOf rows) r) config state.gateUpProj state.downProj e h *
          (routerGate exp topk.toTopk state (flatOf rows)).get [r, e] +
        sharedOut sigmoid state (token (hiddenOf rows) r) h) :
    ((List.range rows.length).map fun r (d : Fin config.hiddenSize) => out r d) =
      rows.map (moeRow exp sigmoid topk state) := by
  refine List.ext_getElem (by simp) fun r hr hr' => ?_
  have hlt : r < rows.length := by simpa using hr
  have hrow : rows[r]? = some rows[r] := List.getElem?_eq_getElem hlt
  rw [List.getElem_map, List.getElem_map, List.getElem_range]
  funext h
  rw [hout r hlt h h.isLt, token_hiddenOf hrow, moeRow]
  refine congrArg (· + _) (Finset.sum_congr rfl fun e he => ?_)
  rw [flatGate_hiddenOf hrow (Finset.mem_range.mp he)]

theorem tiledRows_eq_map (tag : String) (bodies : ExpertBodies state) :
    tiledRows exp sigmoid topk state tag bodies rows =
      rows.map (moeRow exp sigmoid topk state) := by
  have hhidden : (hiddenOf rows).shape = [1, rows.length, config.hiddenSize] := rfl
  obtain ⟨out, hout, -, hget⟩ :=
    @emitMoeTiled_gate R _ _ exp sigmoid config topk.toTopk state _ _ hhidden tag bodies
  rw [tiledRows, hout]
  exact answers_eq_map (fun r h => out.get [0, r, h]) hget

theorem tiledRows_eq (tag : String) (bodies : ExpertBodies state) :
    tiledRows exp sigmoid topk state tag bodies = List.map (moeRow exp sigmoid topk state) :=
  funext fun _ => tiledRows_eq_map tag bodies

theorem denseRows_eq_map :
    denseRows exp sigmoid topk state rows = rows.map (moeRow exp sigmoid topk state) := by
  have hflat : (flatOf rows).shape = [rows.length, config.hiddenSize] := rfl
  obtain ⟨out, hout, -, hget⟩ :=
    @moeSubgraph_gate R _ _ exp sigmoid config topk.toTopk state _ _ hflat
  rw [denseRows, hout]
  refine answers_eq_map (fun r h => out.get [r, h]) fun r hr h hh => ?_
  have hcolumns : ∀ d < config.hiddenSize,
      (flatOf rows).get [r, d] = token (hiddenOf rows) r d := flat_get rfl hr
  rw [hget r hr h hh, sharedOut_congr sigmoid state hcolumns,
    expertOut_congr sigmoid hcolumns]

end Forms

end Rows

end Arcint.Moe
