import Arcint.Foundation.Checks
import Arcint.Network.ServingShape

/-! # The second family

`build_qwen35moe_serving_shape_ir` puts the same mixers and the same experts behind a norm and a
plain residual; there are no hyper-connections and no n-gram branch. No layer reaches back but
through its variables, so here the cuts never matter.
-/

namespace Arcint.Network

open Foundation Moe

structure Qwen35Config (F : Type) where
  moe : MoeConfig
  gdn : GdnConfig
  attention : AttentionConfig F
  numHiddenLayers : ℕ
  maxPositionEmbeddings : ℕ
  rmsNormEps : F

abbrev Qwen35Config.Hidden {F : Type} (config : Qwen35Config F) : Type :=
  Fin config.moe.hiddenSize → F

structure Qwen35Weights {F : Type} (config : Qwen35Config F) where
  inputNorm : ℕ → config.Hidden
  postAttentionNorm : ℕ → config.Hidden
  linearAttn : ℕ → GdnState F config.moe.hiddenSize
  selfAttn : ℕ → AttentionState F config.moe.hiddenSize
  mlp : ℕ → MoeState F config.moe
  experts : ∀ i, ExpertBodies (mlp i)
  outputNorm : config.Hidden
  output : ℕ → config.Hidden

/-- A token: its embedding at first, then what the layers have made of it. -/
structure Qwen35Row {F : Type} (config : Qwen35Config F) where
  hidden : config.Hidden
  position : ℕ
  convMask : F

section Graph

variable {F : Type} [Field F] [LinearOrder F] {arith : Arith F} {config : Qwen35Config F}
variable (weights : Qwen35Weights config) (topk : RowTopk F) (ropeSpan : ℕ)
variable (choices : Choices arith config.attention)

variable (arith config) in
/-- `_qwen35_rmsnorm` -/
def qwen35Rmsnorm (weight x : config.Hidden) : config.Hidden := fun i =>
  weight i * (x i * arith.rsqrtEps config.rmsNormEps (mean fun j => x j * x j))

variable (arith) in
/-- A sublayer behind its norm, added to the row. -/
def residual {β : Type} (weight : config.Hidden) (part : Qwen35Row config → config.Hidden → β)
    (sublayer : Stateful β config.Hidden) : Stateful (Qwen35Row config) (Qwen35Row config) :=
  sublayer.within (fun row => part row (qwen35Rmsnorm arith config weight row.hidden))
    fun row out => { row with hidden := fun i => row.hidden i + out i }

def qwen35Mixer (i : ℕ) : Stateful (Qwen35Row config) (Qwen35Row config) :=
  if i % 4 = 3 then
    residual arith (weights.inputNorm i) (fun row h => ⟨h, row.position⟩)
      (servedAttention (weights.selfAttn i) (freqsTables arith config.attention ropeSpan)
        choices.paged)
  else
    residual arith (weights.inputNorm i) (fun row h => ⟨h, row.convMask⟩)
      (servedGdn arith config.gdn (weights.linearAttn i) choices.core)

variable (arith) in
def qwen35Moe (i : ℕ) : Stateful (Qwen35Row config) (Qwen35Row config) :=
  residual arith (weights.postAttentionNorm i) (fun _ h => h)
    (.ofForward (tiledRows arith.exp arith.sigmoid topk (weights.mlp i)
      ("layer" ++ toString i ++ "/moe") (weights.experts i)))

def qwen35Layer (i : ℕ) : Stateful (Qwen35Row config) (Qwen35Row config) :=
  (qwen35Mixer weights ropeSpan choices i).andThen (qwen35Moe arith weights topk i)

variable (arith) in
def qwen35Logits (row : Qwen35Row config) : ℕ → F :=
  project weights.output (qwen35Rmsnorm arith config weights.outputNorm row.hidden)

/-- The number of layers that is asked for. -/
def qwen35Depth (config : Qwen35Config F) (nLayers : Option ℤ) : Except String ℕ := do
  let depth := nLayers.getD config.numHiddenLayers
  ensure (1 ≤ depth ∧ depth ≤ config.numHiddenLayers)
    ("n_layers " ++ toString depth ++ " outside 1.." ++ toString config.numHiddenLayers)
  return depth.toNat

/-- `build_qwen35moe_serving_shape_ir`, with its defaults for `n_layers` and `rope_span`. -/
def buildQwen35moeServingShapeIr (nLayers : Option ℤ) (ropeSpan : Option ℕ) :
    Except String (Stateful (Qwen35Row config) (ℕ → F)) :=
  (qwen35Depth config nLayers).map fun depth =>
    (Stateful.stack ((List.range depth).map (qwen35Layer weights topk
      (ropeSpan.getD config.maxPositionEmbeddings) choices))).andThen
        (.ofRow (qwen35Logits arith weights))

end Graph

section Layers

variable {F : Type} [Field F] [LinearOrder F] {arith : Arith F} {config : Qwen35Config F}
variable {weights : Qwen35Weights config} {topk : RowTopk F} {ropeSpan : ℕ}
variable {choices : Choices arith config.attention}

omit [LinearOrder F] in
theorem rowByRow_qwen35Mixer (i : ℕ) : (qwen35Mixer weights ropeSpan choices i).RowByRow := by
  unfold qwen35Mixer residual
  split
  · exact (rowByRow_servedAttention choices.paged).within
  · exact rowByRow_servedGdn.within

theorem rowByRow_qwen35Moe (i : ℕ) : (qwen35Moe arith weights topk i).RowByRow := by
  have hrows : (Stateful.ofForward (tiledRows arith.exp arith.sigmoid topk (weights.mlp i)
      ("layer" ++ toString i ++ "/moe") (weights.experts i))).RowByRow := by
    rw [tiledRows_eq]
    exact Stateful.rowByRow_ofRow _
  exact hrows.within

theorem rowByRow_qwen35Layer (i : ℕ) : (qwen35Layer weights topk ropeSpan choices i).RowByRow :=
  (rowByRow_qwen35Mixer i).andThen (rowByRow_qwen35Moe i)

theorem qwen35Layer_choices (choices choices' : Choices arith config.attention) :
    qwen35Layer weights topk ropeSpan choices = qwen35Layer weights topk ropeSpan choices' := by
  funext i
  unfold qwen35Layer qwen35Mixer
  rw [servedAttention_eq, servedAttention_eq, servedGdn_choice choices.core choices'.core]

variable {nLayers : Option ℤ} {span : Option ℕ} {g : Stateful (Qwen35Row config) (ℕ → F)}

theorem buildQwen35_rowByRow
    (h : buildQwen35moeServingShapeIr weights topk choices nLayers span = .ok g) : g.RowByRow := by
  unfold buildQwen35moeServingShapeIr at h
  cases hdepth : qwen35Depth config nLayers with
  | error e => rw [hdepth] at h; cases h
  | ok depth =>
  rw [hdepth] at h
  cases h
  refine (Stateful.rowByRow_stack fun layer hlayer => ?_).andThen (Stateful.rowByRow_ofRow _)
  obtain ⟨i, _, rfl⟩ := List.mem_map.mp hlayer
  exact rowByRow_qwen35Layer i

theorem buildQwen35_choices (choices choices' : Choices arith config.attention) :
    buildQwen35moeServingShapeIr weights topk choices nLayers span =
      buildQwen35moeServingShapeIr weights topk choices' nLayers span := by
  unfold buildQwen35moeServingShapeIr
  rw [qwen35Layer_choices choices choices']

end Layers

/-- Two exports of the second family that build for the same layers and tables answer a token
alike, however each of them is served and whatever comes after the token. -/
theorem qwen35_answers {F : Type} [Field F] [LinearOrder F] {arith : Arith F}
    {config : Qwen35Config F} (weights : Qwen35Weights config) (topk : RowTopk F)
    (choices choices' : Choices arith config.attention) {nLayers : Option ℤ} {ropeSpan : Option ℕ}
    {g g' : Stateful (Qwen35Row config) (ℕ → F)}
    (hg : buildQwen35moeServingShapeIr weights topk choices nLayers ropeSpan = .ok g)
    (hg' : buildQwen35moeServingShapeIr weights topk choices' nLayers ropeSpan = .ok g')
    {forwards forwards' : List (List (Qwen35Row config))}
    (hbegins : forwards.flatten <+: forwards'.flatten) :
    g.answers forwards <+: g'.answers forwards' := by
  have hsame : g = g' := by
    rw [buildQwen35_choices choices choices', hg'] at hg
    cases hg
    rfl
  subst hsame
  rw [(buildQwen35_rowByRow hg).answers_eq, (buildQwen35_rowByRow hg).answers_eq]
  exact (buildQwen35_rowByRow hg).causal _ _ hbegins

noncomputable def smallQwen35 : Qwen35Config ℝ where
  moe := smallConfig
  gdn := smallGdn
  attention := { smallAttention with normPlusOne := false }
  numHiddenLayers := 4
  maxPositionEmbeddings := 4
  rmsNormEps := 1

noncomputable def smallQwen35Weights : Qwen35Weights smallQwen35 where
  inputNorm _ _ := 1
  postAttentionNorm _ _ := 1
  linearAttn _ := smallLinearAttn
  selfAttn _ := smallSelfAttn
  mlp _ := smallState
  experts _ := smallBodies
  outputNorm _ := 1
  output _ _ := 1

noncomputable def qwen35Choices (core : CoreChoice) : Choices realArith smallQwen35.attention :=
  ⟨core, .direct⟩

noncomputable def qwen35Token (position : ℕ) : Qwen35Row smallQwen35 :=
  ⟨fun _ => position, position, 1⟩

/-- Four layers; the one export is served a token at a time, the other two tokens at once. -/
theorem qwen35_answers_small :
    ∃ g g', buildQwen35moeServingShapeIr smallQwen35Weights rankedRowTopk
        (qwen35Choices ⟨.sequential, trivial⟩) none none = .ok g ∧
      buildQwen35moeServingShapeIr smallQwen35Weights rankedRowTopk
        (qwen35Choices ⟨.chunked 64, Nat.succ_pos 63⟩) none none = .ok g' ∧
      g.answers [[qwen35Token 0], [qwen35Token 1]] <+:
        g'.answers [[qwen35Token 0, qwen35Token 1], [qwen35Token 2]] := by
  obtain ⟨g, hg⟩ : ∃ g, buildQwen35moeServingShapeIr smallQwen35Weights rankedRowTopk
      (qwen35Choices ⟨.sequential, trivial⟩) none none = .ok g := ⟨_, rfl⟩
  obtain ⟨g', hg'⟩ : ∃ g', buildQwen35moeServingShapeIr smallQwen35Weights rankedRowTopk
      (qwen35Choices ⟨.chunked 64, Nat.succ_pos 63⟩) none none = .ok g' := ⟨_, rfl⟩
  exact ⟨g, g', hg, hg', qwen35_answers smallQwen35Weights rankedRowTopk _ _ hg hg'
    ⟨[qwen35Token 2], rfl⟩⟩

end Arcint.Network
