import Arcint.Foundation.Checks
import Arcint.Foundation.Ranked
import Arcint.Foundation.Tensor
import Mathlib.Algebra.Field.Defs

/-! # The mixture of experts in the graph

A layer routes each token to the experts that its router finds the likeliest. The graph never
gathers the tokens of an expert: every expert sees every token, and the weight of those that were
not chosen is zero. It is written three times: expert after expert, in chunks of experts for graphs
of their own, and with all experts in one product, which is the form that the card's compiler
replaces.
-/

namespace Arcint.Moe

open Foundation

structure MoeConfig where
  hiddenSize : ℕ
  numExperts : ℕ
  numExpertsPerTok : ℕ
  moeIntermediateSize : ℕ
  sharedExpertIntermediateSize : ℕ
  normTopkProb : Bool
  hiddenSize_pos : 0 < hiddenSize
  numExpertsPerTok_pos : 1 ≤ numExpertsPerTok
  numExpertsPerTok_le : numExpertsPerTok ≤ numExperts

/-- The weights of a layer. A row of `gateUpProj` belongs to the gate in its first half and to the
other factor in its second. -/
structure MoeState (R : Type) (config : MoeConfig) where
  gate : Tensor R
  gateUpProj : Tensor R
  downProj : Tensor R
  sharedGateProj : Tensor R
  sharedUpProj : Tensor R
  sharedDownProj : Tensor R
  sharedExpertGate : Tensor R
  gate_shape : gate.shape = [config.numExperts, config.hiddenSize]
  gateUpProj_shape : gateUpProj.shape =
    [config.numExperts, 2 * config.moeIntermediateSize, config.hiddenSize]
  downProj_shape : downProj.shape =
    [config.numExperts, config.hiddenSize, config.moeIntermediateSize]
  sharedGateProj_shape : sharedGateProj.shape =
    [config.sharedExpertIntermediateSize, config.hiddenSize]
  sharedUpProj_shape : sharedUpProj.shape =
    [config.sharedExpertIntermediateSize, config.hiddenSize]
  sharedDownProj_shape : sharedDownProj.shape =
    [config.hiddenSize, config.sharedExpertIntermediateSize]
  sharedExpertGate_shape : sharedExpertGate.shape = [1, config.hiddenSize]

/-! ## `TopK` -/

section Topk

variable {R : Type} [LE R]

/-- `k` places of each row, which no other place of the row exceeds. -/
structure IsTopk (t : Tensor R) (rows n k : ℕ) (values : Tensor R) (indices : Tensor ℕ) : Prop where
  values_shape : values.shape = [rows, k]
  indices_shape : indices.shape = [rows, k]
  index_lt : ∀ r < rows, ∀ j < k, indices.get [r, j] < n
  index_inj : ∀ r < rows, ∀ j < k, ∀ j' < k, indices.get [r, j] = indices.get [r, j'] → j = j'
  value_eq : ∀ r < rows, ∀ j < k, values.get [r, j] = t.get [r, indices.get [r, j]]
  value_max : ∀ r < rows, ∀ j < k, ∀ e < n, (∀ j' < k, indices.get [r, j'] ≠ e) →
    t.get [r, e] ≤ values.get [r, j]

/-- The runtime's `TopK`, which picks among equal values as it likes. -/
structure Topk (R : Type) [LE R] where
  run : Tensor R → ℕ → Tensor R × Tensor ℕ
  isTopk : ∀ {t : Tensor R} {rows n k : ℕ}, t.shape = [rows, n] → k ≤ n →
    IsTopk t rows n k (run t k).1 (run t k).2

end Topk

section Graph

variable {R : Type} [Field R] [LinearOrder R] (exp sigmoid : R → R)

/-! ## Ops -/

def add (a b : Tensor R) : Tensor R := Tensor.zipWith (· + ·) a b

def mul (a b : Tensor R) : Tensor R := Tensor.zipWith (· * ·) a b

/-- `_silu` -/
def silu (x : Tensor R) : Tensor R := mul x (x.map sigmoid)

def swish1 (x : Tensor R) : Tensor R := x.map fun a => a * sigmoid a

/-- A slice of the full range of both axes. -/
def sliceAll (t : Tensor R) : Tensor R :=
  (t.slice 0 0 (t.shape.getD 0 0)).slice 1 0 (t.shape.getD 1 0)

/-! ## The router -/

variable {config : MoeConfig} (topk : Topk R) (state : MoeState R config)

/-- `_router_gate` -/
def routerGate (h2d : Tensor R) : Tensor R :=
  let logits := h2d.matmulT state.gate
  let probs := logits.softmax exp
  let tk := topk.run probs config.numExpertsPerTok
  let vals := tk.1
  let idx := tk.2
  let scores :=
    if config.normTopkProb then Tensor.zipWith (· / ·) vals vals.reduceSumLast else vals
  let zeros := mul probs (Tensor.scalar 0)
  zeros.scatterElementsUpdate idx (sliceAll scores)

/-! ## Expert after expert -/

/-- The body of the loops over experts: `e` is the place in the weights and in the gate. -/
def expertContrib (config : MoeConfig) (h2d gate gateUp down : Tensor R) (e : ℕ) : Tensor R :=
  let width := config.moeIntermediateSize
  let gu := h2d.matmulT (gateUp.row e)
  let g := gu.slice 1 0 width
  let u := gu.slice 1 width (2 * width)
  let inter := mul (silu sigmoid g) u
  let de := inter.matmulT (down.row e)
  let ge := gate.slice 1 e (e + 1)
  mul de ge

/-- The loops. Without an expert there is no sum. -/
def accumulate (contrib : ℕ → Tensor R) (count : ℕ) : Option (Tensor R) :=
  (List.range count).foldl (fun acc e =>
    some (match acc with
      | none => contrib e
      | some acc => add acc (contrib e))) none

/-- The expert of every token, by its own gate. -/
def sharedTerm (h2d : Tensor R) : Tensor R :=
  let sg := h2d.matmulT state.sharedGateProj
  let su := h2d.matmulT state.sharedUpProj
  let sinter := mul (silu sigmoid sg) su
  let sout := sinter.matmulT state.sharedDownProj
  let sgate := (h2d.matmulT state.sharedExpertGate).map sigmoid
  mul sgate sout

/-- `_moe_subgraph` -/
def moeSubgraph (h2d : Tensor R) : Option (Tensor R × Tensor R) := do
  let gate := routerGate exp topk state h2d
  let acc ← accumulate (expertContrib sigmoid config h2d gate state.gateUpProj state.downProj)
    config.numExperts
  return (add acc (sharedTerm sigmoid state h2d), gate)

/-! ## In pieces -/

def emitRouterGate (hidden : Tensor R) (seqLen : ℕ) : Tensor R :=
  routerGate exp topk state (hidden.reshape [seqLen, config.hiddenSize])

/-- The experts from `e0` to `e1`. -/
def emitExpertsChunk (hidden gateChunk : Tensor R) (e0 e1 seqLen : ℕ) : Option (Tensor R) :=
  let h2d := hidden.reshape [seqLen, config.hiddenSize]
  let gateUp := state.gateUpProj.slice 0 e0 e1
  let down := state.downProj.slice 0 e0 e1
  accumulate (expertContrib sigmoid config h2d gateChunk gateUp down) (e1 - e0)

def emitSharedExpert (hidden : Tensor R) (seqLen : Option ℕ) : Tensor R :=
  sharedTerm sigmoid state (hidden.reshapeTo [seqLen, some config.hiddenSize])

/-! ## All experts in one product -/

/-- The stacked weights of the experts that the tiled form has, a tensor for each role. -/
structure ExpertBodies (state : MoeState R config) where
  gateW : Tensor R
  upW : Tensor R
  downW : Tensor R
  gateW_shape : gateW.shape = [config.numExperts, config.moeIntermediateSize, config.hiddenSize]
  upW_shape : upW.shape = [config.numExperts, config.moeIntermediateSize, config.hiddenSize]
  downW_shape : downW.shape = [config.numExperts, config.hiddenSize, config.moeIntermediateSize]
  gateW_get : ∀ e < config.numExperts, ∀ i < config.moeIntermediateSize, ∀ h < config.hiddenSize,
    gateW.get [e, i, h] = state.gateUpProj.get [e, i, h]
  upW_get : ∀ e < config.numExperts, ∀ i < config.moeIntermediateSize, ∀ h < config.hiddenSize,
    upW.get [e, i, h] = state.gateUpProj.get [e, config.moeIntermediateSize + i, h]
  downW_get : ∀ e < config.numExperts, ∀ h < config.hiddenSize, ∀ i < config.moeIntermediateSize,
    downW.get [e, h, i] = state.downProj.get [e, h, i]

def emitMoeTiled (tag : String) (bodies : ExpertBodies state) (hidden : Tensor R) :
    Except String (Tensor R) := do
  let width := config.hiddenSize
  let yFlat := hidden.reshapeTo [none, some width]
  -- the router is written out as it is in `_router_gate`, op after op
  let weights := routerGate exp topk state yFlat
  let tiled := yFlat.tile [config.numExperts, 1]
  let mH3 := tiled.reshapeTo [some config.numExperts, none, some width]
  let g := swish1 sigmoid (mH3.matmulT bodies.gateW)
  let u := mH3.matmulT bodies.upW
  let outs := (mul g u).matmulT bodies.downW
  ensure (hidden.shape.length = 3 ∧ hidden.shape.head? = some 1)
    (tag ++ ": emit_moe_tiled wants [1,T,H], got [" ++
      String.intercalate "," (hidden.shape.map toString) ++ "]")
  let outs4 := outs.reshapeTo [some config.numExperts, some 1, none, some width]
  let wt := weights.transpose10
  let wr := wt.reshapeTo [some config.numExperts, some 1, none]
  let wu := wr.unsqueezeLast
  let mixed := (mul outs4 wu).reduceSum 0
  let sh := emitSharedExpert sigmoid state (yFlat.reshapeTo [some 1, none, some width]) none
  return (add mixed sh).reshapeTo [some 1, none, some width]

end Graph

end Arcint.Moe
