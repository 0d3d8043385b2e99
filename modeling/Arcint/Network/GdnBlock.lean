import Arcint.Foundation.Stateful
import Arcint.Gdn.Core
import Arcint.Gdn.ShortConv
import Arcint.Network.Arith

/-! # The recurrent block

`gdn.py` emits the block around two steps that a caller may replace: the convolution over the
tokens, and the gated delta rule. Left alone, both are unrolled for a number of tokens that is known
when the graph is built; the serving graph puts steps in their place that keep variables.
-/

namespace Arcint.Network

open Foundation Gdn

/-! ## The block -/

/-- How the key heads serve the value heads. -/
inductive KeyHeadMap where
  | interleave
  | tiled
  deriving DecidableEq, Repr

inductive GateActivation where
  | sigmoid
  | silu
  deriving DecidableEq, Repr

structure GdnConfig where
  linearNumKeyHeads : ℕ
  linearNumValueHeads : ℕ
  linearKeyHeadDim : ℕ
  linearValueHeadDim : ℕ
  linearConvKernelDim : ℕ
  gdnKeyHeadMap : KeyHeadMap
  outputGateType : GateActivation
  keyHeads_dvd : linearNumKeyHeads ∣ linearNumValueHeads
  keyHeadDim_pos : 0 < linearKeyHeadDim
  convKernelDim_pos : 0 < linearConvKernelDim

/-- `[heads, dim]`, flat. -/
abbrev Flat (F : Type) := ℕ → F

structure GdnState (F : Type) (hidden : ℕ) where
  inProjQkv : ℕ → Fin hidden → F
  inProjZ : ℕ → Fin hidden → F
  inProjB : ℕ → Fin hidden → F
  inProjA : ℕ → Fin hidden → F
  conv1d : ℕ → ℕ → F
  aLog : ℕ → F
  dtBias : ℕ → F
  norm : ℕ → F
  outProj : Fin hidden → ℕ → F
  rmsNormEps : F

/-- A token and its entry of `attention_mask`. -/
structure GdnRow (F : Type) (hidden : ℕ) where
  hidden : Fin hidden → F
  mask : F

namespace GdnConfig

variable (config : GdnConfig)

def ratio : ℕ := config.linearNumValueHeads / config.linearNumKeyHeads

def keyDim : ℕ := config.linearKeyHeadDim * config.linearNumKeyHeads

/-- `_expand_heads`: the key head of a value head. -/
def keyHead (h : ℕ) : ℕ :=
  if 1 < config.ratio then
    match config.gdnKeyHeadMap with
    | .interleave => h / config.ratio
    | .tiled => h % config.linearNumKeyHeads
  else h

/-- What the core is handed of a token. -/
abbrev CoreToken (F : Type) :=
  Token config.linearNumValueHeads config.linearKeyHeadDim config.linearValueHeadDim F

abbrev CoreRow (F : Type) := OutRow config.linearNumValueHeads config.linearValueHeadDim F

abbrev CoreState (F : Type) :=
  State config.linearNumValueHeads config.linearKeyHeadDim config.linearValueHeadDim F

end GdnConfig

section Block

variable {F : Type} [Field F] (arith : Arith F) (config : GdnConfig) {hidden : ℕ}
variable (state : GdnState F hidden)

/-- `apply_mask_to_padding_states` -/
def masked (row : GdnRow F hidden) : Fin hidden → F := fun i => row.hidden i * row.mask

/-- `_l2norm_last` -/
def l2normLast {n : ℕ} (x : Fin n → F) : Fin n → F := fun d =>
  x d * arith.rsqrtEps (((10 ^ 6 : ℕ) : F)⁻¹) (∑ d, x d * x d)

/-- Query, key and value of a token from its column of the convolution, and the gates from the
token itself. -/
def coreToken (x : Fin hidden → F) (conv : Flat F) : config.CoreToken F :=
  let Dk := config.linearKeyHeadDim
  let Dv := config.linearValueHeadDim
  { q := fun h => l2normLast arith fun d => conv (config.keyHead h * Dk + d)
    k := fun h => l2normLast arith fun d => conv (config.keyDim + config.keyHead h * Dk + d)
    v := fun h e => conv (2 * config.keyDim + h * Dv + e)
    decay := fun h =>
      -arith.exp (state.aLog h) * arith.softplus (project state.inProjA x h + state.dtBias h)
    beta := fun h => arith.sigmoid (project state.inProjB x h) }

/-- `_rmsnorm_gated` -/
def rmsnormGated (x : Fin hidden → F) (core : config.CoreRow F) : config.CoreRow F := fun h e =>
  let z := project state.inProjZ x (h * config.linearValueHeadDim + e)
  let normed := state.norm e *
    (core h e * arith.rsqrtEps state.rmsNormEps (mean fun e => core h e * core h e))
  normed * match config.outputGateType with
    | .sigmoid => arith.sigmoid z
    | .silu => arith.silu z

/-- `_finish` -/
def finish (x : Fin hidden → F) (core : config.CoreRow F) : Fin hidden → F := fun o =>
  ∑ h, ∑ e, rmsnormGated arith config state x core h e *
    state.outProj o (h * config.linearValueHeadDim + e)

/-- `_gdn_subgraph`, around its convolution and its core. -/
def gdnSubgraph (conv : Stateful (Flat F) (Flat F))
    (core : Stateful (config.CoreToken F) (config.CoreRow F)) :
    Stateful (GdnRow F hidden) (Fin hidden → F) :=
  ((Stateful.ofRow masked).andThen (conv.within (project state.inProjQkv) Prod.mk)).andThen
    (core.within (fun row => coreToken arith config state row.1 row.2)
      fun row out => finish arith config state row.1 out)

/-! ## Unrolled -/

/-- `CHUNK` -/
def chunkSize : ℕ := 64

/-- The rows of a chunk, and the state behind it. -/
def chunkStep (last : config.CoreState F) (rows : List (config.CoreToken F)) :
    config.CoreState F × List (config.CoreRow F) :=
  let heads := fun h => chunkOf chunkSize fun i => ((rows[i]?).getD 0).head h
  (fun h => updatedChunk arith.exp (heads h) (last h),
    List.ofFn fun i h => Gdn.core arith.exp (heads h) (last h) i)

/-- The chunked rule over a known number of tokens, padded to whole chunks, from a state of zeros.
-/
def chunkedCore (tokens : List (config.CoreToken F)) : List (config.CoreRow F) :=
  let scale := arith.pow config.linearKeyHeadDim (-half F)
  let pad := (chunkSize - tokens.length % chunkSize) % chunkSize
  let padded := tokens.map (fun token => { token with q := fun h d => token.q h d * scale }) ++
    List.replicate pad 0
  let chunks := (tokens.length + pad) / chunkSize
  let final := (List.range chunks).foldl (fun carry ci =>
    let next := chunkStep arith config carry.1 (slice padded (ci * chunkSize) chunkSize)
    (next.1, carry.2 ++ next.2)) (0, [])
  final.2.take tokens.length

/-- `emit_gdn` for a known number of tokens. -/
def emitGdn : Stateful (GdnRow F hidden) (Fin hidden → F) :=
  gdnSubgraph arith config state
    (.ofForward (causalConvSilu arith.silu state.conv1d config.linearConvKernelDim))
    (.ofForward (chunkedCore arith config))

/-! ## With variables -/

theorem length_statefulShortConv {silu : F → F} {w : ℕ → ℕ → F} {K : ℕ} {past : List (Flat F)}
    (hpast : past.length = K) (x : List (Flat F)) (hK : 0 < K) :
    (statefulShortConv silu w K past x).2.length = K := by
  rw [statefulShortConv, ovSlice_last hK (by rw [List.length_append]; omega), List.length_drop,
    List.length_append]
  omega

/-- The convolution with its last columns in a variable. -/
def statefulConv : Stateful (Flat F) (Flat F) where
  Var := { past : List (Flat F) // past.length = config.linearConvKernelDim }
  init := ⟨initialState config.linearConvKernelDim, List.length_replicate⟩
  forward past x :=
    let out := statefulShortConv arith.silu state.conv1d config.linearConvKernelDim past.1 x
    (out.1, ⟨out.2, length_statefulShortConv past.2 x config.convKernelDim_pos⟩)

/-- `GDN_CORE` as an export may set it. -/
abbrev CoreChoice := { core : GdnCore // core.Chunks }

/-- The core with its state in a variable. -/
def statefulCore (choice : CoreChoice) : Stateful (config.CoreToken F) (config.CoreRow F) where
  Var := config.CoreState F
  init := 0
  forward := gdnForward arith.exp (fun dim => arith.pow dim (half F)) choice.1

/-- `emit_gdn` with the hooks of the serving graph. -/
def servedGdn (choice : CoreChoice) : Stateful (GdnRow F hidden) (Fin hidden → F) :=
  gdnSubgraph arith config state (statefulConv arith config state)
    (statefulCore arith config choice)

end Block

/-! ## The steps row by row -/

section Steps

variable {F : Type} [Field F] {arith : Arith F} {config : GdnConfig} {hidden : ℕ}
variable {state : GdnState F hidden} {choice : CoreChoice}

theorem lastColumns_self {K : ℕ} {past : List (Flat F)} (hpast : past.length = K) :
    lastColumns K past = past := by
  rw [lastColumns, leftPad, List.drop_left' (by rw [List.length_replicate, hpast])]

/-- A forward of the convolution, whatever columns came before those in the variable. -/
theorem statefulConv_forward (before x : List (Flat F)) :
    (statefulConv arith config state).forward
        ⟨lastColumns config.linearConvKernelDim before, length_lastColumns _ _⟩ x =
      ((List.range x.length).map fun t c => arith.silu
          (convColumn state.conv1d config.linearConvKernelDim (before ++ x) (before.length + t) c),
        ⟨lastColumns config.linearConvKernelDim (before ++ x), length_lastColumns _ _⟩) := by
  have hforward := @statefulShortConv_eq ℕ F _ arith.silu state.conv1d
    config.linearConvKernelDim config.convKernelDim_pos before x
  have hout := congrArg Prod.fst hforward
  have hvar := congrArg Prod.snd hforward
  exact Prod.ext hout (Subtype.ext hvar)

theorem rowByRow_statefulConv : (statefulConv arith config state).RowByRow := by
  have hforward : ∀ (past : (statefulConv arith config state).Var) (x : List (Flat F)),
      (statefulConv arith config state).forward past x =
        ((List.range x.length).map fun t c => arith.silu (convColumn state.conv1d
            config.linearConvKernelDim (past.1 ++ x) (past.1.length + t) c),
          ⟨lastColumns config.linearConvKernelDim (past.1 ++ x), length_lastColumns _ _⟩) := by
    rintro ⟨past, hpast⟩ x
    rw [← statefulConv_forward]
    congr 2
    exact (lastColumns_self hpast).symm
  refine Stateful.rowByRow_of_cons
    (fun past row c => arith.silu
      (convColumn state.conv1d config.linearConvKernelDim (past.1 ++ [row]) past.1.length c))
    (fun past row =>
      ⟨lastColumns config.linearConvKernelDim (past.1 ++ [row]), length_lastColumns _ _⟩)
    (fun past => ?_) fun past row rows => ?_
  · rw [hforward]
    refine Prod.ext rfl (Subtype.ext ?_)
    rw [List.append_nil]
    exact lastColumns_self past.2
  · have happend : past.1 ++ row :: rows = past.1 ++ [row] ++ rows := by simp
    rw [hforward, statefulConv_forward, happend, List.length_cons, List.range_succ_eq_map,
      List.map_cons, List.map_map]
    refine Prod.ext (congrArg₂ _ (funext fun c => ?_) (List.map_congr_left fun t _ => ?_)) rfl
    · rw [Nat.add_zero, convColumn_append config.convKernelDim_pos _ (by simp)]
    · rw [List.length_append, List.length_singleton, Nat.add_assoc, Nat.add_comm 1 t]
      rfl

theorem scan_scaled (past : config.CoreState F) (tokens : List (config.CoreToken F)) :
    (statefulCore arith config choice).forward past tokens =
      scan (fun past token => coreRule arith.exp past
        (token.scaled (arith.pow config.linearKeyHeadDim (half F)))) past tokens := by
  have heither : (statefulCore arith config choice).forward past tokens =
      scan (coreRule arith.exp) past
        (tokens.map (Token.scaled (arith.pow config.linearKeyHeadDim (half F)))) := by
    obtain ⟨core, hcore⟩ := choice
    let root : ℕ → F := fun dim => arith.pow dim (half F)
    change gdnForward arith.exp root core past tokens =
      scan (coreRule arith.exp) past (tokens.map (Token.scaled (root config.linearKeyHeadDim)))
    cases core with
    | sequential => exact statefulGdnCore_eq_scan root past tokens
    | chunked chunk =>
        exact statefulGdnCoreChunked_eq_scan arith.exp_zero arith.exp_add root hcore past tokens
  rw [heither, scan_map]

/-- The graph does not depend on the choice. -/
theorem statefulCore_eq : statefulCore arith config choice =
    .ofRule (0 : config.CoreState F) fun past token => coreRule arith.exp past
      (token.scaled (arith.pow config.linearKeyHeadDim (half F))) := by
  unfold statefulCore Stateful.ofRule
  congr 1
  funext past tokens
  exact scan_scaled past tokens

theorem chunkStep_eq_scan (last : config.CoreState F) (rows : List (config.CoreToken F))
    (hrows : rows.length = chunkSize) :
    chunkStep arith config last rows =
      ((scan (coreRule arith.exp) last rows).2, (scan (coreRule arith.exp) last rows).1) := by
  have hbody := gdnChunkBody_runs arith.exp_zero arith.exp_add chunkSize 0 rows last [] hrows
  have hsplice : ∀ out : List (config.CoreRow F), splice [] (0 * chunkSize) out = out := by
    simp [splice]
  rw [hsplice] at hbody
  refine Prod.ext (congrArg Prod.fst hbody) ?_
  exact (hsplice _).symm.trans (congrArg Prod.snd hbody)

/-- The multiplication by a folded constant is the division. -/
theorem scaled_eq (token : config.CoreToken F) :
    { token with
      q := fun h d => token.q h d * arith.pow config.linearKeyHeadDim (-half F) } =
      token.scaled (arith.pow config.linearKeyHeadDim (half F)) := by
  have hinverse := arith.pow_neg_half _ config.keyHeadDim_pos
  have hscale : arith.pow config.linearKeyHeadDim (-half F) =
      (arith.pow config.linearKeyHeadDim (half F))⁻¹ := eq_inv_of_mul_eq_one_left hinverse
  unfold Token.scaled
  simp only [hscale, div_eq_mul_inv]

/-- The unrolled chunks and the loop over tokens. -/
theorem chunkedCore_eq (choice : CoreChoice) (tokens : List (config.CoreToken F)) :
    chunkedCore arith config tokens = (statefulCore arith config choice).once tokens := by
  obtain ⟨pad, hpadded⟩ : ∃ pad, pad = (chunkSize - tokens.length % chunkSize) % chunkSize :=
    ⟨_, rfl⟩
  have hwhole : (tokens.length + pad) / chunkSize * chunkSize = tokens.length + pad := by
    rw [hpadded]
    unfold chunkSize
    omega
  have hscaled : tokens.map (fun token => { token with
      q := fun h d => token.q h d * arith.pow config.linearKeyHeadDim (-half F) }) =
      tokens.map (Token.scaled (arith.pow config.linearKeyHeadDim (half F))) :=
    List.map_congr_left fun token _ => scaled_eq token
  have htake : ∀ {rows : List (config.CoreToken F)}, rows.length = tokens.length →
      (rows ++ List.replicate pad 0).take (tokens.length + pad) = rows ++ List.replicate pad 0 :=
    fun hrows => List.take_of_length_le (by simp [hrows])
  have honce : (statefulCore arith config choice).once tokens = (scan (coreRule arith.exp) 0
      (tokens.map (Token.scaled (arith.pow config.linearKeyHeadDim (half F))))).1 := by
    rw [scan_map]
    exact congrArg Prod.fst (@scan_scaled F _ arith config choice 0 tokens)
  unfold chunkedCore
  dsimp only
  rw [hscaled, ← hpadded, foldl_blocks chunkStep_eq_scan 0 (by simp [hwhole]), hwhole,
    htake (List.length_map _), scan_append]
  dsimp only
  rw [List.take_left' (by simp), honce]

theorem rowByRow_servedGdn : (servedGdn arith config state choice).RowByRow := by
  have hcore : (statefulCore arith config choice).RowByRow := ⟨_, _, _, statefulCore_eq⟩
  exact ((Stateful.rowByRow_ofRow masked).andThen rowByRow_statefulConv.within).andThen hcore.within

theorem servedGdn_choice (choice choice' : CoreChoice) :
    servedGdn arith config state choice = servedGdn arith config state choice' := by
  unfold servedGdn
  rw [statefulCore_eq, ← statefulCore_eq]

/-- One forward over the whole sequence. -/
theorem once_servedGdn (choice : CoreChoice) (rows : List (GdnRow F hidden)) :
    (servedGdn arith config state choice).once rows = (emitGdn arith config state).once rows := by
  have hconv : (statefulConv arith config state).once =
      causalConvSilu arith.silu state.conv1d config.linearConvKernelDim := by
    funext x
    have hserved := congrArg Prod.fst (@served_eq ℕ F _ arith.silu state.conv1d
      config.linearConvKernelDim config.convKernelDim_pos [x])
    rwa [List.flatten_singleton] at hserved
  simp only [servedGdn, emitGdn, gdnSubgraph, Stateful.once_andThen, Stateful.once_within,
    Stateful.once_ofForward, hconv, chunkedCore_eq choice]

end Steps

/-- However a sequence is cut into forwards, and whichever core they take, the block with variables
answers what the unrolled block answers for the whole sequence. -/
theorem servedGdn_answers {F : Type} [Field F] (arith : Arith F) (config : GdnConfig) {hidden : ℕ}
    (state : GdnState F hidden) (choice : CoreChoice) (forwards : List (List (GdnRow F hidden))) :
    (servedGdn arith config state choice).answers forwards =
      (emitGdn arith config state).once forwards.flatten := by
  rw [rowByRow_servedGdn.answers_eq, once_servedGdn]

end Arcint.Network
