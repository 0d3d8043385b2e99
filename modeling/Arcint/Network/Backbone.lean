import Arcint.Network.ServingShape

/-! # The unrolled model

`build_backbone` writes the whole model out for a number of tokens that it is given: the
convolutions name it in their bounds, the recurrence is cut into chunks, every expert is computed
for every token, and the n-gram rows are looked up in the graph. It knows no attention layers. Up to
the first of those the serving graph answers what this one answers.
-/

namespace Arcint.Network

open Foundation Moe Ple

/-! ## The branch for a known length -/

section Branch

variable {C R : Type} [CommRing R]

/-- A tap that names the length. -/
def staticTerm (w : C → ℕ → R) (K dilation T : ℕ) (x : List (C → R)) (j : ℕ) : List (C → R) :=
  (ovSlice (padded K dilation x) (j * dilation : ℕ) (some (j * dilation + T : ℕ))).map
    fun row c => row c * w c j

/-- `_short_conv` for a known length. -/
def staticShortConv (silu : R → R) (w : C → ℕ → R) (K dilation T : ℕ) (x : List (C → R)) :
    List (C → R) :=
  ((List.range' 1 (K - 1)).foldl
    (fun acc j => List.zipWith (fun a b c => a c + b c) acc (staticTerm w K dilation T x j))
    (staticTerm w K dilation T x 0)).map fun row c => silu (row c)

theorem staticTerm_eq {K dilation j : ℕ} (hj : j < K) (hdilation : 0 < dilation) (w : C → ℕ → R)
    (x : List (C → R)) : staticTerm w K dilation x.length x j = term w K dilation x j := by
  have hlength := padded_length K dilation x
  have hle : j * dilation ≤ (K - 1) * dilation := Nat.mul_le_mul_right _ (by omega)
  have hstart : ¬ ((j * dilation : ℕ) : ℤ) < 0 := by omega
  have hstop : ¬ ((j * dilation + x.length : ℕ) : ℤ) < 0 := by omega
  rw [term, slice_padded hj hdilation, staticTerm]
  simp only [ovSlice, if_neg hstart, if_neg hstop, Int.toNat_natCast]
  rw [Nat.min_eq_left (by omega), Nat.min_eq_left (by omega)]

theorem staticShortConv_eq {K dilation : ℕ} (hK : 0 < K) (hdilation : 0 < dilation) (silu : R → R)
    (w : C → ℕ → R) (x : List (C → R)) :
    staticShortConv silu w K dilation x.length x = shortConv silu w K dilation x := by
  rw [staticShortConv, shortConv, taps, staticTerm_eq hK hdilation]
  refine congrArg _ (List.foldl_ext _ _ _ fun acc j hj => ?_)
  rw [List.mem_range'_1] at hj
  rw [staticTerm_eq (by omega) hdilation]

end Branch

/-! ## The graph -/

structure BackboneConfig (F : Type) extends ServingConfig F where
  headsPerNgram : ℕ
  pleLayerIds : List ℕ

namespace BackboneConfig

variable {F : Type} (config : BackboneConfig F)

/-- `Hn` -/
def ngramHeads : ℕ := (config.ngramSize - 1) * config.headsPerNgram

/-- `head_dim` of the n-gram tables -/
def ngramHeadDim : ℕ := config.pleEmbedDim / config.ngramHeads

end BackboneConfig

/-- The weights of a layer. -/
structure BackboneLayer {F : Type} (config : BackboneConfig F) where
  ple : PleState F config.dims
  ngramEmbedding : ℕ → ℕ → F
  attnHyperConnection : HcState F config.dims
  linearAttn : GdnState F config.moe.hiddenSize
  mlpHyperConnection : HcState F config.dims
  mlp : MoeState F config.moe

structure BackboneWeights {F : Type} (config : BackboneConfig F) where
  embedTokens : ℕ → config.Hidden
  layers : ℕ → BackboneLayer config
  hyperConnectionMixer : HcState F config.dims
  /-- `lm_head.weight`, where the state has it -/
  lmHead : Option (ℕ → config.Hidden)

/-- A token: its entries of `input_ids`, of `ngram_row_ids` by head, and of `conv_mask`. -/
structure BackboneRow (F : Type) where
  inputId : ℕ
  ngramRowIds : ℕ → ℕ
  convMask : F

/-- A token between layers. -/
structure BackboneStream {F : Type} (config : BackboneConfig F) where
  stream : Channel config.dims → F
  ngramRowIds : ℕ → ℕ
  convMask : F

section Graph

variable {F : Type} [Field F] [LinearOrder F] (arith : Arith F) {config : BackboneConfig F}

/-- The gathered rows of a token, side by side. -/
def gatherEmbed (config : BackboneConfig F) (table : ℕ → ℕ → F) (rowIds : ℕ → ℕ)
    (d : Fin config.pleEmbedDim) : F :=
  table (rowIds (d / config.ngramHeadDim)) (d % config.ngramHeadDim)

/-- `_ple_subgraph` behind the gathered rows. -/
def pleSubgraph (ops : Nonlinear F) {dims : Widths} (state : PleState F dims) (K dilation : ℕ)
    (rows : List (PleRow F dims)) : List (Channel dims → F) :=
  List.zipWith (fun gv conv c => gv c + conv c) (rows.map (gated ops state))
    (staticShortConv ops.silu state.conv1d K dilation rows.length
      (rows.map (gatedNormed ops state)))

abbrev BackboneGraph (config : BackboneConfig F) :=
  Stateful (BackboneStream config) (BackboneStream config)

def backbonePle (layer : BackboneLayer config) : BackboneGraph config :=
  (Stateful.ofForward (pleSubgraph (ops arith config.toServingConfig) layer.ple
      config.pleConvKernelSize config.ngramSize)).within
    (fun row => ⟨row.stream, gatherEmbed config layer.ngramEmbedding row.ngramRowIds,
      row.convMask⟩)
    fun row out => { row with stream := fun c => row.stream c + out c }

/-- A mixer, a sublayer and `_combine`. -/
def backboneSublayer {β : Type} (state : HcState F config.dims)
    (part : BackboneStream config → config.Hidden → β) (sublayer : Stateful β config.Hidden) :
    BackboneGraph config :=
  let ops := ops arith config.toServingConfig
  sublayer.within (fun row => part row (emitHc ops config.hcLowrank state row.stream))
    fun row out => { row with stream := recombine ops config.hcLowrank state row.stream out }

def backboneBody (topk : RowTopk F) (layer : BackboneLayer config) : BackboneGraph config :=
  (backboneSublayer arith layer.attnHyperConnection (fun row h => ⟨h, row.convMask⟩)
    (emitGdn arith config.gdn layer.linearAttn)).andThen
  (backboneSublayer arith layer.mlpHyperConnection (fun _ h => h)
    (.ofForward (denseRows arith.exp arith.sigmoid topk layer.mlp)))

variable (weights : BackboneWeights config) (topk : RowTopk F)

def backboneLayer (i : ℕ) : BackboneGraph config :=
  if i + 1 ∈ config.pleLayerIds then
    (backbonePle arith (weights.layers i)).andThen (backboneBody arith topk (weights.layers i))
  else backboneBody arith topk (weights.layers i)

/-- The head, or the embedding where the state has none. -/
def BackboneWeights.head : ℕ → config.Hidden := weights.lmHead.getD weights.embedTokens

/-- `build_backbone` for the number of tokens it is given. -/
def buildBackbone : Stateful (BackboneRow F) (ℕ → F) :=
  ((Stateful.ofRow fun row =>
    { row with stream := fun c => weights.embedTokens row.inputId c.2 }).andThen
      (Stateful.stack ((List.range config.numHiddenLayers).map
        (backboneLayer arith weights topk)))).andThen
        (Stateful.ofRow fun row => project weights.head
          (emitHc (ops arith config.toServingConfig) config.hcLowrank
            weights.hyperConnectionMixer row.stream))

/-! ## The serving graph on the same weights -/

/-- The weights of the unrolled model with what only the serving graph has: the attention layers,
and the experts' bodies by themselves. -/
def BackboneWeights.served (selfAttn : ℕ → AttentionState F config.moe.hiddenSize)
    (experts : ∀ i, ExpertBodies (weights.layers i).mlp) :
    ServingWeights config.toServingConfig where
  attnHyperConnection i := (weights.layers i).attnHyperConnection
  mlpHyperConnection i := (weights.layers i).mlpHyperConnection
  linearAttn i := (weights.layers i).linearAttn
  selfAttn := selfAttn
  mlp i := (weights.layers i).mlp
  experts := experts
  ple := (weights.layers pleLayerIdx).ple
  hyperConnectionMixer := weights.hyperConnectionMixer
  lmHead := weights.head

/-- What the serving graph is fed of a token: the embedding and the n-gram rows are looked up
outside of it. -/
structure Feeds (row : BackboneRow F) (served : InputRow config.toServingConfig) : Prop where
  inputsEmbeds : served.inputsEmbeds = weights.embedTokens row.inputId
  convMask : served.convMask = row.convMask
  embed : served.embed =
    gatherEmbed config (weights.layers pleLayerIdx).ngramEmbedding row.ngramRowIds

/-- The same token in both graphs. -/
structure SameToken (row : BackboneStream config) (served : Row config.toServingConfig) :
    Prop where
  stream : served.stream = row.stream
  convMask : served.convMask = row.convMask
  embed : served.embed =
    gatherEmbed config (weights.layers pleLayerIdx).ngramEmbedding row.ngramRowIds

end Graph

/-! ## Layer by layer -/

section Layers

variable {F : Type} [Field F] [LinearOrder F] {arith : Arith F} {config : BackboneConfig F}
variable {weights : BackboneWeights config} {topk : RowTopk F} {ropeSpan : ℕ}
variable {choices : Choices arith config.attention}
variable {selfAttn : ℕ → AttentionState F config.moe.hiddenSize}
variable {experts : ∀ i, ExpertBodies (weights.layers i).mlp}

omit [LinearOrder F] in
theorem pleSubgraph_eq (ops : Nonlinear F) {dims : Widths} (state : PleState F dims)
    {K dilation : ℕ} (hK : 0 < K) (hdilation : 0 < dilation) (rows : List (PleRow F dims)) :
    pleSubgraph ops state K dilation rows = pleTail ops state K dilation rows := by
  have hconv := staticShortConv_eq hK hdilation ops.silu state.conv1d
    (rows.map (gatedNormed ops state))
  rw [List.length_map] at hconv
  rw [pleSubgraph, pleTail, hconv]

theorem related_backbonePle :
    Stateful.Related (SameToken weights) (SameToken weights)
      (backbonePle arith (weights.layers pleLayerIdx))
      (pleStage arith (weights.served selfAttn experts)) := by
  have hbranch : Stateful.Related Eq Eq
      (.ofForward (pleSubgraph (ops arith config.toServingConfig) (weights.layers pleLayerIdx).ple
        config.pleConvKernelSize config.ngramSize))
      (.ofForward (pleTail (ops arith config.toServingConfig) (weights.served selfAttn experts).ple
        config.pleConvKernelSize config.ngramSize)) :=
    Stateful.related_of_once fun rows =>
      pleSubgraph_eq _ _ config.pleConvKernelSize_pos config.ngramSize_pos rows
  refine hbranch.within (fun row served h => ?_) fun row served out _ h hout => ?_
  · rw [h.stream, h.embed, h.convMask]
  · subst hout
    exact ⟨by rw [h.stream], h.convMask, h.embed⟩

/-- A sublayer, where what it is given of the token is alike. -/
theorem related_sublayer {β β' : Type} {P : β → β' → Prop} (state : HcState F config.dims)
    {part : BackboneStream config → config.Hidden → β}
    {part' : Row config.toServingConfig → config.Hidden → β'} {f : Stateful β config.Hidden}
    {g : Stateful β' config.Hidden} (hsame : Stateful.Related P Eq f g)
    (hpart : ∀ row served, SameToken weights row served → ∀ h, P (part row h) (part' served h)) :
    Stateful.Related (SameToken weights) (SameToken weights)
      (backboneSublayer arith state part f)
      (hyperConnection (ops arith config.toServingConfig) config.hcLowrank state part' g) := by
  refine hsame.within (fun row served h => ?_) fun row served out _ h hout => ?_
  · rw [h.stream]
    exact hpart row served h _
  · subst hout
    exact ⟨by rw [h.stream], h.convMask, h.embed⟩

theorem related_backboneBody {i : ℕ} (hi : i % 4 ≠ 3) :
    Stateful.Related (SameToken weights) (SameToken weights)
      (backboneBody arith topk (weights.layers i))
      (plainLayer (weights.served selfAttn experts) topk ropeSpan choices i) := by
  have hgdn : Stateful.Related Eq Eq (emitGdn arith config.gdn (weights.layers i).linearAttn)
      (servedGdn arith config.gdn (weights.layers i).linearAttn choices.core) :=
    Stateful.related_of_once fun rows => (once_servedGdn choices.core rows).symm
  have hmoe : Stateful.Related Eq Eq
      (.ofForward (denseRows arith.exp arith.sigmoid topk (weights.layers i).mlp))
      (.ofForward (tiledRows arith.exp arith.sigmoid topk (weights.layers i).mlp
        ("layer" ++ toString i ++ "/moe") (experts i))) :=
    Stateful.related_of_once fun rows => by
      rw [Stateful.once_ofForward, Stateful.once_ofForward, denseRows_eq_map, tiledRows_eq_map]
  unfold plainLayer mixerStage
  rw [if_neg hi]
  refine (related_sublayer _ hgdn fun row served h x => ?_).andThen
    (related_sublayer _ hmoe fun _ _ _ _ => rfl)
  rw [h.convMask]

theorem related_backboneLayer {i : ℕ} (hi : i % 4 ≠ 3)
    (hple : i + 1 ∈ config.pleLayerIds ↔ i = pleLayerIdx) :
    Stateful.Related (SameToken weights) (SameToken weights)
      (backboneLayer arith weights topk i)
      (layer (weights.served selfAttn experts) topk ropeSpan choices i) := by
  unfold backboneLayer layer
  by_cases hhere : i = pleLayerIdx
  · rw [if_pos (hple.mpr hhere), if_pos hhere]
    subst hhere
    exact related_backbonePle.andThen (related_backboneBody hi)
  · rw [if_neg (hple.not.mpr hhere), if_neg hhere]
    exact related_backboneBody hi

theorem related_buildBackbone (hlinear : config.numHiddenLayers ≤ 3)
    (hple : ∀ i < config.numHiddenLayers, i + 1 ∈ config.pleLayerIds ↔ i = pleLayerIdx) :
    Stateful.Related (Feeds weights) Eq (buildBackbone arith weights topk)
      (buildServingShapeIr (weights.served selfAttn experts) topk ropeSpan choices
        config.numHiddenLayers) := by
  have hlayers : Stateful.Related (SameToken weights) (SameToken weights)
      (Stateful.stack ((List.range config.numHiddenLayers).map
        (backboneLayer arith weights topk)))
      (Stateful.stack (layers (weights.served selfAttn experts) topk ropeSpan choices 0
        config.numHiddenLayers)) := by
    unfold layers
    rw [Nat.sub_zero, ← List.range_eq_range']
    refine Stateful.related_stack fun i hi => ?_
    have hlt := List.mem_range.mp hi
    exact related_backboneLayer (by omega) (hple i hlt)
  refine (Stateful.Related.andThen (Stateful.related_ofRow fun row served h => ?_) hlayers).andThen
    (Stateful.related_ofRow fun row served h => ?_)
  · exact ⟨by rw [tileEmbeds, h.inputsEmbeds], h.convMask, h.embed⟩
  · rw [logitsOf, h.stream]
    rfl

end Layers

/-- Up to the first attention layer the serving graph answers what the unrolled model answers, in
one forward, and in any forwards of a sequence so short that no tap of the branch could reach from
one into another. -/
theorem buildBackbone_served {F : Type} [Field F] [LinearOrder F] {arith : Arith F}
    {config : BackboneConfig F} (weights : BackboneWeights config)
    (selfAttn : ℕ → AttentionState F config.moe.hiddenSize)
    (experts : ∀ i, ExpertBodies (weights.layers i).mlp) (topk : RowTopk F) (ropeSpan : ℕ)
    (choices : Choices arith config.attention) (hlinear : config.numHiddenLayers ≤ 3)
    (hple : ∀ i < config.numHiddenLayers, i + 1 ∈ config.pleLayerIds ↔ i = pleLayerIdx)
    {rows : List (BackboneRow F)} {forwards : List (List (InputRow config.toServingConfig))}
    (hfeeds : List.Forall₂ (Feeds weights) rows forwards.flatten)
    (hcuts : forwards.length ≤ 1 ∨
      Fits config.toServingConfig config.numHiddenLayers rows.length) :
    (buildServingShapeIr (weights.served selfAttn experts) topk ropeSpan choices
        config.numHiddenLayers).answers forwards =
      (buildBackbone arith weights topk).once rows := by
  have honce : List.Forall₂ Eq ((buildBackbone arith weights topk).once rows)
      ((buildServingShapeIr (weights.served selfAttn experts) topk ropeSpan choices
        config.numHiddenLayers).once forwards.flatten) :=
    related_buildBackbone hlinear hple rows _ hfeeds
  rw [List.forall₂_eq_eq_eq] at honce
  rw [honce]
  rw [hfeeds.length_eq] at hcuts
  exact answers_of_apart hcuts

noncomputable def smallBackbone : BackboneConfig ℝ where
  toServingConfig := { smallServing with numHiddenLayers := 2 }
  headsPerNgram := 1
  pleLayerIds := [2]

noncomputable def smallBackboneWeights : BackboneWeights smallBackbone where
  embedTokens token _ := token
  layers _ :=
    { ple := smallWeights.ple
      ngramEmbedding := fun row _ => row
      attnHyperConnection := smallMixer
      linearAttn := smallLinearAttn
      mlpHyperConnection := smallMixer
      mlp := smallState }
  hyperConnectionMixer := smallMixer
  lmHead := none

def backboneToken (token : ℕ) : BackboneRow ℝ := ⟨token, fun _ => token, 1⟩

/-- The token as the serving graph is fed it. -/
noncomputable def fedToken (position token : ℕ) : InputRow smallBackbone.toServingConfig where
  inputsEmbeds := smallBackboneWeights.embedTokens token
  position := position
  convMask := 1
  embed := gatherEmbed smallBackbone (fun row _ => row) fun _ => token

theorem feeds_fedToken (position token : ℕ) :
    Feeds smallBackboneWeights (backboneToken token) (fedToken position token) := ⟨rfl, rfl, rfl⟩

/-- Two layers and two tokens, each in a forward of its own; the head is the embedding. -/
theorem buildBackbone_served_small :
    (buildServingShapeIr (smallBackboneWeights.served (fun _ => smallSelfAttn)
        fun _ => smallBodies) rankedRowTopk 4 (smallChoices ⟨.sequential, trivial⟩) 2).answers
        [[fedToken 0 5], [fedToken 1 3]] =
      (buildBackbone realArith smallBackboneWeights rankedRowTopk).once
        [backboneToken 5, backboneToken 3] :=
  buildBackbone_served smallBackboneWeights (fun _ => smallSelfAttn) (fun _ => smallBodies)
    rankedRowTopk 4 (smallChoices ⟨.sequential, trivial⟩) (by decide)
    (by
      have hlayers : ∀ i < 2, i + 1 ∈ [2] ↔ i = pleLayerIdx := by decide
      exact hlayers)
    (.cons (feeds_fedToken 0 5) (.cons (feeds_fedToken 1 3) .nil)) (.inr (.inr (.inr le_rfl)))

end Arcint.Network
