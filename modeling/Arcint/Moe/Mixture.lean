import Arcint.Moe.Graph

/-! # What a layer computes for a token

A token's output is a sum over the experts that its router selects, each by its score, and the
shared expert. No other token enters it.
-/

namespace Arcint.Moe

open Foundation Tensor

section Mixture

variable {R : Type} [Field R] [LinearOrder R] (exp sigmoid : R → R) {config : MoeConfig}
variable (state : MoeState R config) (x : ℕ → R)

/-! ## One token -/

/-- A row of weights on the token. -/
def linear (n : ℕ) (w : ℕ → R) : R := ∑ i ∈ Finset.range n, x i * w i

def routerProb (e : ℕ) : R :=
  let logit (e : ℕ) : R := linear x config.hiddenSize fun i => state.gate.get [e, i]
  exp (logit e) / ∑ i ∈ Finset.range config.numExperts, exp (logit i)

def selectedExperts : List ℕ :=
  largest (routerProb exp state x) config.numExperts config.numExpertsPerTok

def routedScore (e : ℕ) : R :=
  if config.normTopkProb then
    routerProb exp state x e / ((selectedExperts exp state x).map (routerProb exp state x)).sum
  else routerProb exp state x e

/-- The product of two rows, the first of them gated. -/
def glu (n : ℕ) (g u : ℕ → R) : R :=
  let a := linear x n g
  a * sigmoid a * linear x n u

/-- Output `h` of expert `e`. -/
def expertOut (config : MoeConfig) (gateUp down : Tensor R) (e h : ℕ) : R :=
  ∑ i ∈ Finset.range config.moeIntermediateSize,
    glu sigmoid x config.hiddenSize (fun d => gateUp.get [e, i, d])
      (fun d => gateUp.get [e, config.moeIntermediateSize + i, d]) * down.get [e, h, i]

def sharedOut (h : ℕ) : R :=
  let inter (i : ℕ) : R := glu sigmoid x config.hiddenSize
    (fun d => state.sharedGateProj.get [i, d]) fun d => state.sharedUpProj.get [i, d]
  sigmoid (linear x config.hiddenSize fun d => state.sharedExpertGate.get [0, d]) *
    ∑ i ∈ Finset.range config.sharedExpertIntermediateSize,
      inter i * state.sharedDownProj.get [h, i]

def mixture (h : ℕ) : R :=
  ((selectedExperts exp state x).map fun e =>
    routedScore exp state x e *
      expertOut sigmoid x config state.gateUpProj state.downProj e h).sum +
    sharedOut sigmoid state x h

/-! ## The dense form -/

/-- The score of an expert that is selected, and nothing for the others. -/
def denseScore (e : ℕ) : R :=
  if e ∈ selectedExperts exp state x then routedScore exp state x e else 0

omit [LinearOrder R] in
theorem sum_mem {sel : List ℕ} {n : ℕ} (hnodup : sel.Nodup) (hmem : ∀ e ∈ sel, e < n)
    (f : ℕ → R) : ∑ e ∈ Finset.range n, (if e ∈ sel then f e else 0) = (sel.map f).sum := by
  have hsub : sel.toFinset ⊆ Finset.range n := fun e he =>
    Finset.mem_range.mpr (hmem e (List.mem_toFinset.mp he))
  calc ∑ e ∈ Finset.range n, (if e ∈ sel then f e else 0)
      = ∑ e ∈ Finset.range n, (if e ∈ sel.toFinset then f e else 0) := by
        simp only [List.mem_toFinset]
    _ = ∑ e ∈ Finset.range n ∩ sel.toFinset, f e := Finset.sum_ite_mem _ _ _
    _ = ∑ e ∈ sel.toFinset, f e := by rw [Finset.inter_eq_right.mpr hsub]
    _ = (sel.map f).sum := List.sum_toFinset f hnodup

/-- Experts of no score add nothing. -/
theorem mixture_eq_dense (h : ℕ) :
    mixture exp sigmoid state x h =
      ∑ e ∈ Finset.range config.numExperts,
        expertOut sigmoid x config state.gateUpProj state.downProj e h * denseScore exp state x e +
      sharedOut sigmoid state x h := by
  rw [mixture, selectedExperts, ← sum_mem nodup_largest fun e he => lt_of_mem_largest he]
  refine congrArg (· + _) (Finset.sum_congr rfl fun e _ => ?_)
  rw [denseScore, mul_ite, mul_zero, mul_comm, selectedExperts]

/-! ## Its columns -/

section Columns

variable {x} {y : ℕ → R} (hxy : ∀ d < config.hiddenSize, x d = y d)
include hxy

omit [LinearOrder R] in
/-- A token has no other columns. -/
theorem linear_congr : linear x config.hiddenSize = linear y config.hiddenSize := by
  funext w
  exact Finset.sum_congr rfl fun d hd => by rw [hxy d (Finset.mem_range.mp hd)]

omit [LinearOrder R] in
theorem routerProb_congr : routerProb exp state x = routerProb exp state y := by
  funext e
  simp only [routerProb, linear_congr hxy]

omit [LinearOrder R] in
theorem expertOut_congr (gateUp down : Tensor R) :
    expertOut sigmoid x config gateUp down = expertOut sigmoid y config gateUp down := by
  funext e h
  simp only [expertOut, glu, linear_congr hxy]

omit [LinearOrder R] in
theorem sharedOut_congr : sharedOut sigmoid state x = sharedOut sigmoid state y := by
  funext h
  simp only [sharedOut, glu, linear_congr hxy]

theorem denseScore_congr : denseScore exp state x = denseScore exp state y := by
  funext e
  rw [denseScore, denseScore, routedScore, routedScore, selectedExperts, selectedExperts,
    routerProb_congr exp state hxy]

theorem mixture_congr : mixture exp sigmoid state x = mixture exp sigmoid state y := by
  funext h
  simp only [mixture_eq_dense, expertOut_congr sigmoid hxy, denseScore_congr exp state hxy,
    sharedOut_congr sigmoid state hxy]

end Columns

end Mixture

end Arcint.Moe
