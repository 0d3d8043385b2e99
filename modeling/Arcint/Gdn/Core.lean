import Arcint.Gdn.Chunk
import Mathlib.Analysis.SpecialFunctions.Pow.Real

/-! # The two cores of a gated delta layer

The served graph runs the rule in a loop of one token an iteration, or of a chunk an iteration
over inputs that are padded with zeros to whole chunks. Both carry the state in a variable from
one forward to the next. They are the same scan, so a sequence may be cut into forwards anywhere
and every forward may take either.
-/

namespace Arcint.Gdn

open Foundation

variable {F : Type*} [Field F] {HV Dk Dv : ℕ}

/-- What the core is handed of a token, a vector or a number for each head. -/
structure Token (HV Dk Dv : ℕ) (F : Type*) where
  q : Fin HV → Fin Dk → F
  k : Fin HV → Fin Dk → F
  v : Fin HV → Fin Dv → F
  decay : Fin HV → F
  beta : Fin HV → F

namespace Token

instance : Zero (Token HV Dk Dv F) := ⟨⟨0, 0, 0, 0, 0⟩⟩

def head (token : Token HV Dk Dv F) (h : Fin HV) : Row (Fin Dk) (Fin Dv) F :=
  ⟨token.q h, token.k h, token.v h, token.decay h, token.beta h⟩

/-- `q_scaled`. -/
def scaled (root : F) (token : Token HV Dk Dv F) : Token HV Dk Dv F :=
  { token with q := fun h d => token.q h d / root }

end Token

/-- The recurrent state of every head. -/
abbrev State (HV Dk Dv : ℕ) (F : Type*) := Fin HV → Matrix (Fin Dk) (Fin Dv) F

/-- A row of the output. -/
abbrev OutRow (HV Dv : ℕ) (F : Type*) := Fin HV → Fin Dv → F

/-! ## The loop bodies -/

section Bodies

variable (exp : F → F)

/-- `_gdn_loop_body`: one token. -/
def gdnLoopBody (step : ℕ) (rows : List (Token HV Dk Dv F))
    (carry : State HV Dk Dv F × List (OutRow HV Dv F)) :
    State HV Dk Dv F × List (OutRow HV Dv F) :=
  let token := (rows[0]?).getD 0
  (fun h => updated exp (carry.1 h) (token.head h),
    splice carry.2 step [fun h => readOut exp (carry.1 h) (token.head h)])

/-- `_gdn_chunk_body`: a chunk of tokens. -/
def gdnChunkBody (chunk step : ℕ) (rows : List (Token HV Dk Dv F))
    (carry : State HV Dk Dv F × List (OutRow HV Dv F)) :
    State HV Dk Dv F × List (OutRow HV Dv F) :=
  let heads := fun h => chunkOf chunk fun i => ((rows[i]?).getD 0).head h
  (fun h => updatedChunk exp (heads h) (carry.1 h),
    splice carry.2 (step * chunk) (List.ofFn fun i h => core exp (heads h) (carry.1 h) i))

end Bodies

/-! ## The cores -/

section Cores

variable (exp : F → F) (root : ℕ → F)

/-- `stateful_gdn_core`: the output rows and the state that is assigned. `root` is the power
of the head size that divides the query. -/
def statefulGdnCore (past : State HV Dk Dv F) (tokens : List (Token HV Dk Dv F)) :
    List (OutRow HV Dv F) × State HV Dk Dv F :=
  let final := blockLoop 1 (gdnLoopBody exp) (tokens.map (Token.scaled (root Dk))) tokens.length
    (past, List.replicate tokens.length 0)
  (final.2, final.1)

/-- `stateful_gdn_core_chunked`. -/
def statefulGdnCoreChunked (chunk : ℕ) (past : State HV Dk Dv F)
    (tokens : List (Token HV Dk Dv F)) : List (OutRow HV Dv F) × State HV Dk Dv F :=
  let nTok := tokens.length
  let nChunks := (nTok + (chunk - 1)) / chunk
  let nPad := nChunks * chunk - nTok
  let padded := tokens.map (Token.scaled (root Dk)) ++ List.replicate nPad 0
  let final := blockLoop chunk (gdnChunkBody exp chunk) padded nChunks
    (past, List.replicate (nChunks * chunk) 0)
  (final.2.take nTok, final.1)

/-- `GDN_CORE`, with the chunk. -/
inductive GdnCore where
  | sequential
  | chunked (chunk : ℕ)
  deriving DecidableEq, Repr

/-- `gdn_core_emitter`: a forward by the chosen core. -/
def gdnForward : GdnCore → State HV Dk Dv F → List (Token HV Dk Dv F) →
    List (OutRow HV Dv F) × State HV Dk Dv F
  | .sequential => statefulGdnCore exp root
  | .chunked chunk => statefulGdnCoreChunked exp root chunk

end Cores

/-- A core with a chunk of at least one token. -/
def GdnCore.Chunks : GdnCore → Prop
  | .sequential => True
  | .chunked chunk => 0 < chunk

/-! ## Both are the scan -/

/-- The rule over all heads. -/
def coreRule (exp : F → F) (state : State HV Dk Dv F) (token : Token HV Dk Dv F) :
    State HV Dk Dv F × OutRow HV Dv F :=
  (fun h => updated exp (state h) (token.head h), fun h => readOut exp (state h) (token.head h))

section Scans

variable {exp : F → F}

theorem gdnLoopBody_runs :
    RunsBlocks (coreRule exp : State HV Dk Dv F → Token HV Dk Dv F → _) 1 (gdnLoopBody exp) := by
  intro step rows state buffer hrows
  obtain ⟨token, rfl⟩ := List.length_eq_one_iff.mp hrows
  rw [Nat.mul_one]
  rfl

theorem gdnChunkBody_runs (hzero : exp 0 = 1) (hadd : ∀ a b, exp (a + b) = exp a * exp b)
    (chunk : ℕ) :
    RunsBlocks (coreRule exp : State HV Dk Dv F → Token HV Dk Dv F → _) chunk
      (gdnChunkBody exp chunk) := by
  intro step rows state buffer hrows
  have hget : ∀ i < chunk, rows[i]? = some ((rows[i]?).getD 0) := by
    intro i hi
    rw [List.getElem?_eq_getElem (by omega)]
    rfl
  obtain ⟨states, hstates⟩ : ∃ states : ℕ → State HV Dk Dv F,
      states = fun i => (scan (coreRule exp) state (rows.take i)).2 := ⟨_, rfl⟩
  have hruns : ∀ h, Runs exp (fun i => ((rows[i]?).getD 0).head h) chunk fun i => states i h := by
    intro h i hi
    rw [hstates]
    exact congrFun (scan_take_succ state (hget i hi)) h
  have hstart : ∀ h, state h = states 0 h := by
    intro h
    rw [hstates]
    rfl
  unfold gdnChunkBody
  refine Prod.ext ?_ ?_
  · funext h
    dsimp only
    rw [hstart h, updatedChunk_chunkOf hzero hadd (hruns h), hstates]
    dsimp only
    rw [List.take_of_length_le (Nat.le_of_eq hrows)]
  · dsimp only
    congr 1
    apply List.ext_getElem?
    intro i
    rcases Nat.lt_or_ge i chunk with hi | hi
    · rw [getElem?_scan state (hget i hi), List.getElem?_ofFn, dif_pos hi]
      congr 1
      funext h e
      rw [hstart h, core_chunkOf hzero hadd (hruns h) ⟨i, hi⟩ e, hstates]
      rfl
    · rw [List.getElem?_eq_none (by simpa using hi),
        List.getElem?_eq_none (by rw [length_scan]; omega)]

/-- A padded row leaves the state. -/
theorem updated_zero (hzero : exp 0 = 1) (state : Matrix (Fin Dk) (Fin Dv) F) :
    updated exp state 0 = state := by
  ext d e
  unfold updated gatedState
  change state d e * exp 0 + 0 * _ = _
  rw [hzero, mul_one, zero_mul, add_zero]

theorem scan_padding (hzero : exp 0 = 1) (state : State HV Dk Dv F) (nPad : ℕ) :
    (scan (coreRule exp) state (List.replicate nPad 0)).2 = state := by
  induction nPad with
  | zero => rfl
  | succ nPad ih =>
      have hstep : (coreRule exp state 0).1 = state := by
        funext h
        exact updated_zero hzero (state h)
      rw [List.replicate_succ, scan_cons, hstep]
      exact ih

theorem statefulGdnCore_eq_scan (root : ℕ → F) (past : State HV Dk Dv F)
    (tokens : List (Token HV Dk Dv F)) :
    statefulGdnCore exp root past tokens =
      scan (coreRule exp) past (tokens.map (Token.scaled (root Dk))) := by
  unfold statefulGdnCore
  rw [blockLoop_eq_scan gdnLoopBody_runs past _ (by simp) (by simp)]

theorem statefulGdnCoreChunked_eq_scan (hzero : exp 0 = 1)
    (hadd : ∀ a b, exp (a + b) = exp a * exp b) (root : ℕ → F) {chunk : ℕ} (hchunk : 0 < chunk)
    (past : State HV Dk Dv F) (tokens : List (Token HV Dk Dv F)) :
    statefulGdnCoreChunked exp root chunk past tokens =
      scan (coreRule exp) past (tokens.map (Token.scaled (root Dk))) := by
  have hwhole : tokens.length ≤ (tokens.length + (chunk - 1)) / chunk * chunk := by
    have hmod := Nat.div_add_mod' (tokens.length + (chunk - 1)) chunk
    have hlt := Nat.mod_lt (tokens.length + (chunk - 1)) hchunk
    omega
  unfold statefulGdnCoreChunked
  dsimp only
  rw [blockLoop_eq_scan (gdnChunkBody_runs hzero hadd chunk) past _ (by simp; omega) (by simp),
    scan_append, scan_padding hzero, List.take_left' (by simp)]

end Scans

/-- The chunked core answers the rows and stores the state of the token loop, whatever the
chunk; and forwards that follow one another, each by either core, answer and store what one
forward over all their tokens does. -/
theorem gdn_cores_agree (exp : F → F) (hzero : exp 0 = 1)
    (hadd : ∀ a b, exp (a + b) = exp a * exp b) (root : ℕ → F) (past : State HV Dk Dv F)
    (tokens : List (Token HV Dk Dv F)) :
    (∀ chunk, 0 < chunk →
      statefulGdnCoreChunked exp root chunk past tokens = statefulGdnCore exp root past tokens) ∧
    ∀ pieces : List (GdnCore × List (Token HV Dk Dv F)), (∀ piece ∈ pieces, piece.1.Chunks) →
      pieces.flatMap Prod.snd = tokens →
        runPieces (gdnForward exp root) past pieces = statefulGdnCore exp root past tokens := by
  refine ⟨fun chunk hchunk => ?_, fun pieces hpieces htokens => ?_⟩
  · rw [statefulGdnCoreChunked_eq_scan hzero hadd root hchunk, statefulGdnCore_eq_scan]
  · have hforward : ∀ piece ∈ pieces, ∀ state, gdnForward exp root piece.1 state piece.2 =
        scan (fun state token => coreRule exp state (Token.scaled (root Dk) token)) state
          piece.2 := by
      rintro ⟨kind, rows⟩ hpiece state
      have hkind := hpieces _ hpiece
      rw [← scan_map]
      cases kind with
      | sequential => exact statefulGdnCore_eq_scan root state rows
      | chunked chunk => exact statefulGdnCoreChunked_eq_scan hzero hadd root hkind state rows
    rw [runPieces_eq_scan pieces hforward past, htokens, statefulGdnCore_eq_scan, scan_map]

/-- One head with keys and values of size one. -/
def scalarToken (q k v decay beta : F) : Token 1 1 1 F :=
  ⟨fun _ _ => q, fun _ _ => k, fun _ _ => v, fun _ => decay, fun _ => beta⟩

theorem atLeastTwo_two : Nat.AtLeastTwo 2 := inferInstance

theorem atLeastTwo_three : Nat.AtLeastTwo 3 := inferInstance

attribute [local instance] atLeastTwo_two atLeastTwo_three

def threeTokens (F : Type*) [Field F] : List (Token 1 1 1 F) :=
  [scalarToken 1 1 2 0 1, scalarToken 2 1 3 (-1) 2, scalarToken 1 3 1 (-1) 1]

/-- A forward over the first token, and a chunk of two over the others. -/
theorem gdn_cores_agree_threeTokens :
    runPieces (gdnForward Real.exp fun n => (n : ℝ) ^ (0.5 : ℝ)) (fun _ => 0)
        [(.sequential, (threeTokens ℝ).take 1), (.chunked 2, (threeTokens ℝ).drop 1)] =
      statefulGdnCore Real.exp (fun n => (n : ℝ) ^ (0.5 : ℝ)) (fun _ => 0) (threeTokens ℝ) :=
  (gdn_cores_agree Real.exp Real.exp_zero Real.exp_add (fun n => (n : ℝ) ^ (0.5 : ℝ))
    (fun _ => 0) (threeTokens ℝ)).2 _ (by simp [GdnCore.Chunks]) rfl

end Arcint.Gdn
