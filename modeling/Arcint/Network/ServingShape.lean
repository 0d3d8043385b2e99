import Arcint.Moe.Rows
import Arcint.Network.Attention
import Arcint.Network.GdnBlock
import Arcint.Network.Hyper

/-! # The serving graph

`build_serving_shape_ir` lays the layers out behind one another, each a mixer and a mixture of
experts inside hyper-connections; one layer adds the n-gram branch in front. Every fourth layer
attends to all tokens so far, the others are recurrent.
-/

namespace Arcint.Network

open Foundation Moe Ple

structure ServingConfig (F : Type) where
  moe : MoeConfig
  gdn : GdnConfig
  attention : AttentionConfig F
  hcCount : ℕ
  hcLowrank : ℕ
  pleEmbedDim : ℕ
  pleConvKernelSize : ℕ
  ngramSize : ℕ
  numHiddenLayers : ℕ
  rmsNormEps : F
  pleConvKernelSize_pos : 0 < pleConvKernelSize
  ngramSize_pos : 0 < ngramSize

namespace ServingConfig

variable {F : Type} (config : ServingConfig F)

abbrev dims : Widths := ⟨config.hcCount, config.moe.hiddenSize, config.pleEmbedDim⟩

/-- A row of the hidden size. -/
abbrev Hidden : Type := Fin config.moe.hiddenSize → F

end ServingConfig

structure ServingWeights {F : Type} (config : ServingConfig F) where
  attnHyperConnection : ℕ → HcState F config.dims
  mlpHyperConnection : ℕ → HcState F config.dims
  linearAttn : ℕ → GdnState F config.moe.hiddenSize
  selfAttn : ℕ → AttentionState F config.moe.hiddenSize
  mlp : ℕ → MoeState F config.moe
  experts : ∀ i, ExpertBodies (mlp i)
  ple : PleState F config.dims
  hyperConnectionMixer : HcState F config.dims
  lmHead : ℕ → config.Hidden

/-- A token of a forward: its embedding, and its entries of the other inputs. -/
structure InputRow {F : Type} (config : ServingConfig F) where
  inputsEmbeds : config.Hidden
  position : ℕ
  convMask : F
  embed : Fin config.pleEmbedDim → F

/-- What an export or the runtime may choose. -/
structure Choices {F : Type} [Field F] (arith : Arith F) (attention : AttentionConfig F) where
  core : CoreChoice
  paged : PagedAttention arith attention

/-- `ple_layer_idx` -/
def pleLayerIdx : ℕ := 1

section Graph

variable {F : Type} [Field F] [LinearOrder F] {arith : Arith F} {config : ServingConfig F}
variable (weights : ServingWeights config) (topk : RowTopk F) (ropeSpan : ℕ)
variable (choices : Choices arith config.attention)

/-! ## Layers -/

abbrev Row (config : ServingConfig F) : Type := StreamRow F config.dims

variable (arith config) in
/-- The pointwise ops of mixers and branch. -/
def ops : Nonlinear F := arith.nonlinear config.rmsNormEps

def mixerStage (i : ℕ) : Stateful (Row config) (Row config) :=
  if i % 4 = 3 then
    hyperConnection (ops arith config) config.hcLowrank (weights.attnHyperConnection i)
      (fun row h => ⟨h, row.position⟩)
      (servedAttention (weights.selfAttn i) (freqsTables arith config.attention ropeSpan)
        choices.paged)
  else
    hyperConnection (ops arith config) config.hcLowrank (weights.attnHyperConnection i)
      (fun row h => ⟨h, row.convMask⟩)
      (servedGdn arith config.gdn (weights.linearAttn i) choices.core)

variable (arith) in
def moeStage (i : ℕ) : Stateful (Row config) (Row config) :=
  hyperConnection (ops arith config) config.hcLowrank (weights.mlpHyperConnection i)
    (fun _ h => h)
    (.ofForward (tiledRows arith.exp arith.sigmoid topk (weights.mlp i)
      ("layer" ++ toString i ++ "/moe") (weights.experts i)))

/-- The n-gram branch is added to the stream. -/
def addPle (branch : List (PleRow F config.dims) → List (Channel config.dims → F)) :
    Stateful (Row config) (Row config) :=
  (Stateful.ofForward branch).within (fun row => ⟨row.stream, row.embed, row.convMask⟩)
    fun row out => { row with stream := fun c => row.stream c + out c }

variable (arith) in
def pleStage : Stateful (Row config) (Row config) :=
  addPle (pleTail (ops arith config) weights.ple config.pleConvKernelSize config.ngramSize)

/-- A layer without the branch. -/
def plainLayer (i : ℕ) : Stateful (Row config) (Row config) :=
  (mixerStage weights ropeSpan choices i).andThen (moeStage arith weights topk i)

def layer (i : ℕ) : Stateful (Row config) (Row config) :=
  if i = pleLayerIdx then
    (pleStage arith weights).andThen (plainLayer weights topk ropeSpan choices i)
  else plainLayer weights topk ropeSpan choices i

/-- The layers from `lo` to `hi`. -/
def layers (lo hi : ℕ) : List (Stateful (Row config) (Row config)) :=
  (List.range' lo (hi - lo)).map (layer weights topk ropeSpan choices)

/-! ## The whole model and its segments -/

omit [LinearOrder F] [Field F] in
/-- The embedding, repeated to the width of the stream. -/
def tileEmbeds (row : InputRow config) : Row config :=
  { row with stream := fun c => row.inputsEmbeds c.2 }

variable (arith) in
/-- The final mixer and the head. -/
def logitsOf (row : Row config) : ℕ → F := project weights.lmHead
  (emitHc (ops arith config) config.hcLowrank weights.hyperConnectionMixer row.stream)

/-- `build_serving_shape_ir` without a layer range. -/
def buildServingShapeIr (depth : ℕ) : Stateful (InputRow config) (ℕ → F) :=
  ((Stateful.ofRow tileEmbeds).andThen
    (Stateful.stack (layers weights topk ropeSpan choices 0 depth))).andThen
      (Stateful.ofRow (logitsOf arith weights))

end Graph

/-! ## The layers row by row -/

section Layers

variable {F : Type} [Field F] [LinearOrder F] {arith : Arith F} {config : ServingConfig F}
variable {weights : ServingWeights config} {topk : RowTopk F} {ropeSpan : ℕ}
variable {choices : Choices arith config.attention}

theorem rowByRow_mixerStage (i : ℕ) : (mixerStage weights ropeSpan choices i).RowByRow := by
  unfold mixerStage hyperConnection
  split
  · exact (rowByRow_servedAttention choices.paged).within
  · exact rowByRow_servedGdn.within

theorem moeStage_eq (i : ℕ) : moeStage arith weights topk i =
    hyperConnection (ops arith config) config.hcLowrank (weights.mlpHyperConnection i)
      (fun _ h => h) (.ofRow (moeRow arith.exp arith.sigmoid topk (weights.mlp i))) := by
  unfold moeStage Stateful.ofRow
  rw [tiledRows_eq]

theorem rowByRow_moeStage (i : ℕ) : (moeStage arith weights topk i).RowByRow := by
  rw [moeStage_eq]
  exact (Stateful.rowByRow_ofRow _).within

theorem rowByRow_plainLayer (i : ℕ) : (plainLayer weights topk ropeSpan choices i).RowByRow :=
  (rowByRow_mixerStage i).andThen (rowByRow_moeStage i)

theorem keepsLength_pleStage : (pleStage arith weights).KeepsLength := by
  refine Stateful.KeepsLength.within fun _ rows => ?_
  exact pleTail_length _ _ config.pleConvKernelSize_pos config.ngramSize_pos rows

theorem keepsLength_layer (i : ℕ) : (layer weights topk ropeSpan choices i).KeepsLength := by
  unfold layer
  split
  · exact keepsLength_pleStage.andThen (rowByRow_plainLayer i).keepsLength
  · exact (rowByRow_plainLayer i).keepsLength

theorem keepsLength_layers (lo hi : ℕ) :
    ∀ g ∈ layers weights topk ropeSpan choices lo hi, g.KeepsLength := by
  intro g hg
  obtain ⟨i, _, rfl⟩ := List.mem_map.mp hg
  exact keepsLength_layer i

theorem keepsLength_buildServingShapeIr {depth : ℕ} :
    (buildServingShapeIr weights topk ropeSpan choices depth).KeepsLength :=
  ((Stateful.keepsLength_ofRow _).andThen (Stateful.keepsLength_stack
    (keepsLength_layers 0 depth))).andThen (Stateful.keepsLength_ofRow _)

theorem causal_layer (i : ℕ) : (layer weights topk ropeSpan choices i).Causal := by
  unfold layer
  split
  · refine Stateful.Causal.andThen (.within fun _ _ hbegins => ?_) (rowByRow_plainLayer i).causal
    exact pleTail_isPrefix _ _ config.pleConvKernelSize_pos config.ngramSize_pos hbegins
  · exact (rowByRow_plainLayer i).causal

/-- In one forward no token reads a later one. -/
theorem causal_buildServingShapeIr {depth : ℕ} :
    (buildServingShapeIr weights topk ropeSpan choices depth).Causal := by
  refine ((Stateful.rowByRow_ofRow _).causal.andThen (Stateful.causal_stack fun g hg => ?_)).andThen
    (Stateful.rowByRow_ofRow _).causal
  obtain ⟨i, _, rfl⟩ := List.mem_map.mp hg
  exact causal_layer i

/-- Neither the core nor the paged attention shows in what the graph is. -/
theorem buildServingShapeIr_choices (choices choices' : Choices arith config.attention)
    (depth : ℕ) :
    buildServingShapeIr weights topk ropeSpan choices depth =
      buildServingShapeIr weights topk ropeSpan choices' depth := by
  have hmixer : mixerStage weights ropeSpan choices = mixerStage weights ropeSpan choices' := by
    funext i
    unfold mixerStage
    rw [servedAttention_eq, servedAttention_eq, servedGdn_choice choices.core choices'.core]
  have hlayer : layer weights topk ropeSpan choices = layer weights topk ropeSpan choices' := by
    funext i
    unfold layer plainLayer
    rw [hmixer]
  unfold buildServingShapeIr layers
  rw [hlayer]

/-! ## Forwards that no tap crosses -/

/-- A forward in which no tap of the branch reaches another row; with the branch's layer left out,
every forward. -/
def Fits (config : ServingConfig F) (depth n : ℕ) : Prop :=
  depth ≤ pleLayerIdx ∨ config.pleConvKernelSize = 1 ∨ n ≤ config.ngramSize

omit [Field F] [LinearOrder F] in
theorem Fits.mono {depth m n : ℕ} (h : Fits config depth n) (hle : m ≤ n) :
    Fits config depth m := h.imp_right fun h => h.imp_right hle.trans

variable (arith weights) in
/-- The branch where no tap reaches another row. -/
def shortPle : Stateful (Row config) (Row config) :=
  addPle (List.map fun row c => gated (ops arith config) weights.ple row c +
    (ops arith config).silu (gatedNormed (ops arith config) weights.ple row c *
      weights.ple.conv1d c (config.pleConvKernelSize - 1)))

variable (weights topk ropeSpan choices) in
def shortLayer (i : ℕ) : Stateful (Row config) (Row config) :=
  if i = pleLayerIdx then
    (shortPle arith weights).andThen (plainLayer weights topk ropeSpan choices i)
  else plainLayer weights topk ropeSpan choices i

theorem rowByRow_shortLayer (i : ℕ) : (shortLayer weights topk ropeSpan choices i).RowByRow := by
  unfold shortLayer
  split
  · exact (Stateful.rowByRow_ofRow _).within.andThen (rowByRow_plainLayer i)
  · exact rowByRow_plainLayer i

theorem sameOn_shortLayer {depth i : ℕ} (hi : i < depth) :
    Stateful.SameOn (Fits config depth) (layer weights topk ropeSpan choices i)
      (shortLayer weights topk ropeSpan choices i) := by
  unfold layer shortLayer
  split
  next hple =>
    refine Stateful.SameOn.andThen (.within (.ofForward fun rows hfits => ?_)) keepsLength_pleStage
      (.refl _)
    refine pleTail_eq_map _ _ config.pleConvKernelSize_pos config.ngramSize_pos rows ?_
    exact hfits.resolve_left (by omega)
  next => exact .refl _

variable (weights topk ropeSpan choices) in
/-- The graph with the branch of rows. -/
def shortServingShape (depth : ℕ) : Stateful (InputRow config) (ℕ → F) :=
  ((Stateful.ofRow tileEmbeds).andThen (Stateful.stack
    ((List.range' 0 depth).map (shortLayer weights topk ropeSpan choices)))).andThen
      (Stateful.ofRow (logitsOf arith weights))

theorem rowByRow_shortServingShape (depth : ℕ) :
    (shortServingShape weights topk ropeSpan choices depth).RowByRow := by
  refine ((Stateful.rowByRow_ofRow _).andThen (Stateful.rowByRow_stack fun g hg => ?_)).andThen
    (Stateful.rowByRow_ofRow _)
  obtain ⟨i, _, rfl⟩ := List.mem_map.mp hg
  exact rowByRow_shortLayer i

theorem sameOn_shortServingShape (depth : ℕ) :
    Stateful.SameOn (Fits config depth)
      (buildServingShapeIr weights topk ropeSpan choices depth)
      (shortServingShape weights topk ropeSpan choices depth) := by
  have htile := Stateful.keepsLength_ofRow (tileEmbeds : InputRow config → Row config)
  refine Stateful.SameOn.andThen (.andThen (.refl _) htile (.stack_map (fun i hi => ?_)
    fun i _ => keepsLength_layer i)) (htile.andThen (Stateful.keepsLength_stack
      (keepsLength_layers 0 depth))) (.refl _)
  have hlt : i < depth := by simpa using hi
  exact sameOn_shortLayer hlt

/-- Forwards that no tap crosses, as one over their rows. -/
theorem answers_eq_short {depth : ℕ} {forwards : List (List (InputRow config))}
    (hfits : ∀ rows ∈ forwards, Fits config depth rows.length) :
    (buildServingShapeIr weights topk ropeSpan choices depth).answers forwards =
      (shortServingShape weights topk ropeSpan choices depth).once forwards.flatten := by
  rw [(sameOn_shortServingShape depth).answers_eq hfits,
    (rowByRow_shortServingShape depth).answers_eq]

theorem once_eq_short {depth : ℕ} {rows : List (InputRow config)}
    (hfits : Fits config depth rows.length) :
    (buildServingShapeIr weights topk ropeSpan choices depth).once rows =
      (shortServingShape weights topk ropeSpan choices depth).once rows := by
  rw [← Stateful.answers_single, answers_eq_short, List.flatten_singleton]
  intro part hpart
  rwa [List.mem_singleton.mp hpart]

/-- No tap of the branch could reach from one forward into another. -/
def Apart (config : ServingConfig F) (depth : ℕ) {α : Type} (forwards : List (List α)) : Prop :=
  forwards.length ≤ 1 ∨ Fits config depth forwards.flatten.length

/-- Such forwards are as good as one. -/
theorem answers_of_apart {depth : ℕ} {forwards : List (List (InputRow config))}
    (hapart : Apart config depth forwards) :
    (buildServingShapeIr weights topk ropeSpan choices depth).answers forwards =
      (buildServingShapeIr weights topk ropeSpan choices depth).once forwards.flatten := by
  rcases hapart with hsingle | hfits
  · exact Stateful.answers_of_single keepsLength_buildServingShapeIr hsingle
  · rw [answers_eq_short fun rows hrows =>
      hfits.mono (List.sublist_flatten_of_mem hrows).length_le, once_eq_short hfits]

end Layers

/-- However two exports cut a sequence into forwards, a token is answered alike by both, and by no
later token, as long as no tap of the n-gram branch could reach from one forward into another. The
same holds when every forward of both is so short that no tap reaches another row within it. -/
theorem servingShape_answers {F : Type} [Field F] [LinearOrder F] {arith : Arith F}
    {config : ServingConfig F} (weights : ServingWeights config) (topk : RowTopk F)
    (ropeSpan depth : ℕ) (choices choices' : Choices arith config.attention)
    {forwards forwards' : List (List (InputRow config))}
    (hbegins : forwards.flatten <+: forwards'.flatten)
    (hcuts : (Apart config depth forwards ∧ Apart config depth forwards') ∨
      ∀ rows ∈ forwards ++ forwards', Fits config depth rows.length) :
    (buildServingShapeIr weights topk ropeSpan choices depth).answers forwards <+:
      (buildServingShapeIr weights topk ropeSpan choices' depth).answers forwards' := by
  rw [buildServingShapeIr_choices choices' choices]
  rcases hcuts with ⟨hapart, hapart'⟩ | hfits
  · rw [answers_of_apart hapart, answers_of_apart hapart']
    exact causal_buildServingShapeIr _ _ hbegins
  · rw [answers_eq_short fun rows hrows => hfits rows (List.mem_append_left _ hrows),
      answers_eq_short fun rows hrows => hfits rows (List.mem_append_right _ hrows)]
    exact (rowByRow_shortServingShape depth).causal _ _ hbegins

/-! ## Two layers -/

theorem one_key_head : 1 ∣ 2 := Nat.one_dvd 2

def smallGdn : GdnConfig where
  linearNumKeyHeads := 1
  linearNumValueHeads := 2
  linearKeyHeadDim := 1
  linearValueHeadDim := 1
  linearConvKernelDim := 2
  gdnKeyHeadMap := .tiled
  outputGateType := .silu
  keyHeads_dvd := one_key_head
  keyHeadDim_pos := Nat.one_pos
  convKernelDim_pos := Nat.two_pos

noncomputable def smallLinearAttn : GdnState ℝ 2 where
  inProjQkv o _ := o
  inProjZ _ _ := 1
  inProjB _ _ := 1
  inProjA _ _ := 1
  conv1d _ _ := 1
  aLog _ := 0
  dtBias _ := 0
  norm _ := 1
  outProj _ _ := 1
  rmsNormEps := 1

noncomputable def smallServing : ServingConfig ℝ where
  moe := smallConfig
  gdn := smallGdn
  attention := smallAttention
  hcCount := 2
  hcLowrank := 1
  pleEmbedDim := 1
  pleConvKernelSize := 2
  ngramSize := 2
  numHiddenLayers := 8
  rmsNormEps := 1
  pleConvKernelSize_pos := Nat.two_pos
  ngramSize_pos := Nat.two_pos

noncomputable def smallMixer : HcState ℝ smallServing.dims where
  hcNorm _ := 0
  inputMixWeightDown _ _ := 1
  inputMixWeightUp _ _ := 1
  blockInjectWeight _ _ := 1

noncomputable def smallWeights : ServingWeights smallServing where
  attnHyperConnection _ := smallMixer
  mlpHyperConnection _ := smallMixer
  linearAttn _ := smallLinearAttn
  selfAttn _ := smallSelfAttn
  mlp _ := smallState
  experts _ := smallBodies
  ple :=
    { keyProj := fun _ _ => 1
      valueProj := fun _ _ => 1
      normKey := fun _ => 0
      normQuery := fun _ => 0
      normConv := fun _ => 0
      conv1d := fun _ _ => 1
      invSqrtHidden := 1 }
  hyperConnectionMixer := smallMixer
  lmHead _ _ := 1

noncomputable def smallRow (position : ℕ) : InputRow smallServing where
  inputsEmbeds _ := position
  position := position
  convMask := 1
  embed _ := 1

noncomputable def smallChoices (core : CoreChoice) : Choices realArith smallAttention :=
  ⟨core, smallPaged⟩

/-- Three tokens in one forward, by the loop over tokens, and beside a fourth one, in chunks; and
four tokens in two forwards, beside the first of them alone. The convolution reaches two back. -/
theorem servingShape_answers_small :
    (buildServingShapeIr smallWeights rankedRowTopk 4
        (smallChoices ⟨.sequential, trivial⟩) 2).answers
          [[smallRow 0, smallRow 1, smallRow 2]] <+:
      (buildServingShapeIr smallWeights rankedRowTopk 4
        (smallChoices ⟨.chunked 64, Nat.succ_pos 63⟩) 2).answers
          [[smallRow 0, smallRow 1, smallRow 2, smallRow 3]] ∧
    (buildServingShapeIr smallWeights rankedRowTopk 4
        (smallChoices ⟨.sequential, trivial⟩) 2).answers [[smallRow 0]] <+:
      (buildServingShapeIr smallWeights rankedRowTopk 4
        (smallChoices ⟨.chunked 64, Nat.succ_pos 63⟩) 2).answers
          [[smallRow 0, smallRow 1], [smallRow 2, smallRow 3]] := by
  have hsingle : ∀ rows : List (InputRow smallServing), Apart smallServing 2 [rows] :=
    fun _ => .inl (Nat.le_refl 1)
  refine ⟨servingShape_answers smallWeights rankedRowTopk 4 2 _ _ ⟨[smallRow 3], rfl⟩
      (.inl ⟨hsingle _, hsingle _⟩),
    servingShape_answers smallWeights rankedRowTopk 4 2 _ _
      ⟨[smallRow 1, smallRow 2, smallRow 3], rfl⟩ (.inr fun rows hrows => ?_)⟩
  have hlength : rows.length ≤ 2 := by
    simp only [List.mem_append, List.mem_cons, List.not_mem_nil, or_false] at hrows
    rcases hrows with rfl | rfl | rfl <;> simp
  exact .inr (.inr hlength)

end Arcint.Network
