import Arcint.Foundation.Stateful
import Arcint.Network.Arith
import Mathlib.Data.List.GetD
import Mathlib.Tactic.Ring

/-! # The full-attention block

`attention.py` emits the block for a known number of tokens, with a causal mask over all of them.
The serving graph keeps the keys and the values in variables and leaves the core to one op, which
the runtime replaces by its paged attention.
-/

namespace Arcint.Network

open Foundation

/-! ## Configuration and weights -/

structure AttentionConfig (F : Type) where
  numAttentionHeads : ℕ
  numKeyValueHeads : ℕ
  headDim : ℕ
  /-- `int(head_dim * partial_rotary_factor)` -/
  ropeDim : ℕ
  ropeTheta : F
  mropeSection : ℕ → ℕ
  rmsNormEps : F
  normPlusOne : Bool
  keyValueHeads_dvd : numKeyValueHeads ∣ numAttentionHeads
  ropeDim_le : ropeDim ≤ headDim

structure AttentionState (F : Type) (hidden : ℕ) where
  qProj : ℕ → Fin hidden → F
  kProj : ℕ → Fin hidden → F
  vProj : ℕ → Fin hidden → F
  oProj : Fin hidden → ℕ → F
  qNorm : ℕ → F
  kNorm : ℕ → F

/-- A token and its entry of `position_ids`. -/
structure AttentionRow (F : Type) (hidden : ℕ) where
  hidden : Fin hidden → F
  position : ℕ

/-- A vector for every head. -/
abbrev Heads (F : Type) := ℕ → ℕ → F

/-- What the variables keep of a token. -/
structure Cached (F : Type) where
  key : Heads F
  value : Heads F

section Tables

variable {F : Type} [Field F] (arith : Arith F) (config : AttentionConfig F)

/-! ## Rotary tables -/

/-- Columns `offset`, `offset + 3`, … below `stop`. -/
def inSection (offset stop i : ℕ) : Bool := offset ≤ i && i < stop && (i - offset) % 3 == 0

/-- The recomposition over the three position rows; the last write to a column holds. -/
def recomposed (freqs : ℕ → ℕ → F) (i : ℕ) : F :=
  if inSection 2 (config.mropeSection 2 * 3) i then freqs 2 i
  else if inSection 1 (config.mropeSection 1 * 3) i then freqs 1 i
  else freqs 0 i

/-- The angle of a column of the tables at a text position. -/
def angle (position column : ℕ) : F :=
  let freqLen := config.ropeDim / 2
  let invFreq (i : ℕ) : F := 1 / arith.pow config.ropeTheta ((2 * i : ℕ) / (config.ropeDim : F))
  recomposed config (fun _ i => invFreq i * position) (column % freqLen)

/-- `_freqs_tables`: the rows of the cosines and of the sines, for as many positions. -/
def freqsTables (positions : ℕ) : List (ℕ → F) × List (ℕ → F) :=
  ((List.range positions).map fun p c => arith.cos (angle arith config p c),
    (List.range positions).map fun p c => arith.sin (angle arith config p c))

/-- `_rotate_half` of the rotary band. -/
def rotateHalf (rotary : ℕ) (x : ℕ → F) (c : ℕ) : F :=
  if c < rotary / 2 then -x (rotary / 2 + c) else x (c - rotary / 2)

/-- `_apply_rope` to a head, with the rows that the position gathers. -/
def applyRope (tables : List (ℕ → F) × List (ℕ → F)) (position : ℕ) (x : ℕ → F) (c : ℕ) : F :=
  let rotary := 2 * (config.ropeDim / 2)
  let cos := tables.1.getD position 0
  let sin := tables.2.getD position 0
  if c < rotary then x c * cos c + rotateHalf rotary x c * sin c else x c

end Tables

section Block

variable {F : Type} [Field F] (arith : Arith F) (config : AttentionConfig F) {hidden : ℕ}
variable (state : AttentionState F hidden)

/-! ## A token -/

/-- `_rmsnorm_hd` -/
def rmsnormHd (weight x : ℕ → F) (plusOne : Bool) (c : ℕ) : F :=
  let var := (∑ j ∈ Finset.range config.headDim, x j * x j) / config.headDim
  (if plusOne then 1 + weight c else weight c) * (x c * arith.rsqrtEps config.rmsNormEps var)

section Token

variable (tables : List (ℕ → F) × List (ℕ → F)) (plusOne : Bool)

/-- The query of a head is the first half of its columns of the fused projection. -/
def queryOf (row : AttentionRow F hidden) : Heads F := fun h =>
  applyRope config tables row.position (rmsnormHd arith config state.qNorm
    (fun j => project state.qProj row.hidden (h * (2 * config.headDim) + j)) plusOne)

def cachedOf (row : AttentionRow F hidden) : Cached F where
  key := fun h => applyRope config tables row.position (rmsnormHd arith config state.kNorm
    (fun j => project state.kProj row.hidden (h * config.headDim + j)) plusOne)
  value := fun h j => project state.vProj row.hidden (h * config.headDim + j)

end Token

def gateOf (row : AttentionRow F hidden) : Heads F := fun h j =>
  project state.qProj row.hidden (h * (2 * config.headDim) + (config.headDim + j))

/-- The gated output of a token. -/
def attentionOut (row : AttentionRow F hidden) (att : Heads F) : Fin hidden → F := fun o =>
  ∑ h ∈ Finset.range config.numAttentionHeads, ∑ j ∈ Finset.range config.headDim,
    att h j * arith.sigmoid (gateOf config state row h j) * state.oProj o (h * config.headDim + j)

/-! ## The core -/

/-- The softmax of a query over some keys, and the values by it. What the mask blocks is added the
least float, whose exponential is nothing. -/
def attend (query : Heads F) (keys : List (Cached F)) (visible : ℕ → Bool) : Heads F :=
  fun h e =>
    let kv := h / (config.numAttentionHeads / config.numKeyValueHeads)
    let kept (j : ℕ) : Cached F := keys.getD j ⟨0, 0⟩
    let score (j : ℕ) : F := (∑ c ∈ Finset.range config.headDim, query h c * (kept j).key kv c) *
      arith.pow config.headDim (-half F)
    let weight (j : ℕ) : F := if visible j then arith.exp (score j) else 0
    ∑ j ∈ Finset.range keys.length,
      weight j / (∑ i ∈ Finset.range keys.length, weight i) * (kept j).value kv e

/-- `emit_dense_attention`: the tables span the tokens. -/
def emitDenseAttention : Stateful (AttentionRow F hidden) (Fin hidden → F) :=
  .ofForward fun rows =>
    let tables := freqsTables arith config rows.length
    let keys := rows.map (cachedOf arith config state tables true)
    rows.zipIdx.map fun (row, i) => attentionOut arith config state row
      (attend arith config (queryOf arith config state tables true row) keys fun j => j ≤ i)

/-! ## With variables -/

variable (tables : List (ℕ → F) × List (ℕ → F))

/-- `_additive_causal_mask`: whether a query of the block sees a key. -/
def additiveCausalMask (past i j : ℕ) : Bool := j ≤ i + past

/-- The emitted graph. The tokens are a batch of their own at the core, while the variables hold a
batch of one: only a forward of one token fits. -/
def unfusedAttention : Stateful (AttentionRow F hidden) (Fin hidden → F) where
  Var := List (Cached F)
  init := []
  forward
    | past, [row] =>
        let joined := past ++ [cachedOf arith config state tables config.normPlusOne row]
        let pastLen := joined.length - 1
        let query := queryOf arith config state tables config.normPlusOne row
        ([attentionOut arith config state row
          (attend arith config query joined (additiveCausalMask pastLen 0))], joined)
    | past, _ => ([], past)

/-- The runtime's paged attention over one sequence: a token sees what is cached and the tokens of
the forward up to itself. -/
structure PagedAttention where
  run : List (Cached F) → List (Heads F × Cached F) → List (Heads F)
  length_run : ∀ past rows, (run past rows).length = rows.length
  getElem?_run : ∀ past rows i row, rows[i]? = some row → (run past rows)[i]? =
    some (attend arith config row.1 (past ++ (rows.take (i + 1)).map Prod.snd) fun _ => true)

variable {arith config} in
/-- The core at each token in turn. -/
def PagedAttention.direct : PagedAttention arith config where
  run past rows := rows.zipIdx.map fun (row, i) =>
    attend arith config row.1 (past ++ (rows.take (i + 1)).map Prod.snd) fun _ => true
  length_run _ rows := by rw [List.length_map, List.length_zipIdx]
  getElem?_run past rows i row hrow := by
    rw [List.getElem?_map, List.getElem?_zipIdx, hrow, Nat.zero_add]
    rfl

variable {arith config} in
/-- `emit_stateful_attention` behind the runtime's transformation. -/
def servedAttention (paged : PagedAttention arith config) :
    Stateful (AttentionRow F hidden) (Fin hidden → F) where
  Var := List (Cached F)
  init := []
  forward past rows :=
    let keys := rows.map (cachedOf arith config state tables config.normPlusOne)
    let queries := rows.map (queryOf arith config state tables config.normPlusOne)
    (List.zipWith (attentionOut arith config state) rows (paged.run past (queries.zip keys)),
      past ++ keys)

end Block

/-! ## The positions that the tables have -/

section Positions

variable {F : Type} [Field F] {arith : Arith F} {config : AttentionConfig F} {hidden : ℕ}
variable {state : AttentionState F hidden} {position span span' : ℕ} {plusOne : Bool}

theorem freqsTables_getD (h : position < span) :
    (freqsTables arith config span).1.getD position 0 =
        (fun c => arith.cos (angle arith config position c)) ∧
      (freqsTables arith config span).2.getD position 0 =
        fun c => arith.sin (angle arith config position c) := by
  simp [freqsTables, h]

theorem applyRope_span (h : position < span) (h' : position < span') :
    applyRope config (freqsTables arith config span) position =
      applyRope config (freqsTables arith config span') position := by
  funext x c
  simp only [applyRope, freqsTables_getD h, freqsTables_getD h']

variable {row : AttentionRow F hidden}

theorem queryOf_span (h : row.position < span) (h' : row.position < span') :
    queryOf arith config state (freqsTables arith config span) plusOne row =
      queryOf arith config state (freqsTables arith config span') plusOne row := by
  unfold queryOf
  rw [applyRope_span h h']

theorem cachedOf_span (h : row.position < span) (h' : row.position < span') :
    cachedOf arith config state (freqsTables arith config span) plusOne row =
      cachedOf arith config state (freqsTables arith config span') plusOne row := by
  unfold cachedOf
  rw [applyRope_span h h']

end Positions

/-! ## The keys that a token sees -/

section Visible

variable {F : Type} [Field F] {arith : Arith F} {config : AttentionConfig F}

/-- What the mask blocks might as well not be there. -/
theorem attend_le (query : Heads F) {keys : List (Cached F)} {i : ℕ} (hi : i < keys.length) :
    attend arith config query keys (fun j => j ≤ i) =
      attend arith config query (keys.take (i + 1)) fun _ => true := by
  have hlength : (keys.take (i + 1)).length = i + 1 := by
    rw [List.length_take]
    omega
  have hget : ∀ j ∈ Finset.range (i + 1), (keys.take (i + 1)).getD j ⟨0, 0⟩ =
      keys.getD j ⟨0, 0⟩ := by
    intro j hj
    rw [List.getD_eq_getElem?_getD, List.getD_eq_getElem?_getD,
      List.getElem?_take_of_lt (Finset.mem_range.mp hj)]
  -- a sum over all keys whose terms are nothing where the mask blocks
  have hsum : ∀ f : ℕ → F, ∑ j ∈ Finset.range keys.length, (if j ≤ i then f j else 0) =
      ∑ j ∈ Finset.range (i + 1), f j := by
    intro f
    rw [← Finset.sum_filter]
    congr 1
    ext j
    simp only [Finset.mem_filter, Finset.mem_range]
    omega
  funext h e
  simp only [attend, decide_eq_true_eq, if_true, ite_div, zero_div, ite_mul, zero_mul, hsum,
    hlength]
  refine Finset.sum_congr rfl fun j hj => ?_
  rw [hget j hj]
  congr 2
  exact Finset.sum_congr rfl fun k hk => by rw [hget k hk]

end Visible

/-! ## Forwards -/

section Forwards

variable {F : Type} [Field F] {arith : Arith F} {config : AttentionConfig F} {hidden : ℕ}
variable {state : AttentionState F hidden} {tables : List (ℕ → F) × List (ℕ → F)}

theorem PagedAttention.run_nil (paged : PagedAttention arith config) (past : List (Cached F)) :
    paged.run past [] = [] :=
  List.length_eq_zero_iff.mp (paged.length_run past [])

theorem PagedAttention.run_cons (paged : PagedAttention arith config) (past : List (Cached F))
    (row : Heads F × Cached F) (rows : List (Heads F × Cached F)) :
    paged.run past (row :: rows) =
      attend arith config row.1 (past ++ [row.2]) (fun _ => true) ::
        paged.run (past ++ [row.2]) rows := by
  apply List.ext_getElem?
  intro i
  cases i with
  | zero => exact paged.getElem?_run past (row :: rows) 0 row rfl
  | succ i =>
      rw [List.getElem?_cons_succ]
      rcases Nat.lt_or_ge i rows.length with hi | hi
      · have hrow : rows[i]? = some rows[i] := List.getElem?_eq_getElem hi
        rw [paged.getElem?_run _ rows i _ hrow,
          paged.getElem?_run past (row :: rows) (i + 1) _ hrow, List.take_succ_cons,
          List.map_cons, List.append_assoc, List.singleton_append]
      · rw [List.getElem?_eq_none (by rw [paged.length_run]; exact Nat.succ_le_succ hi),
          List.getElem?_eq_none (by rwa [paged.length_run])]

theorem emitDenseAttention_getElem? {rows : List (AttentionRow F hidden)} {i : ℕ}
    {row : AttentionRow F hidden} (hrow : rows[i]? = some row) :
    ((emitDenseAttention arith config state).once rows)[i]? =
      some (attentionOut arith config state row (attend arith config
        (queryOf arith config state (freqsTables arith config rows.length) true row)
        (rows.map (cachedOf arith config state (freqsTables arith config rows.length) true))
        fun j => j ≤ i)) := by
  simp [emitDenseAttention, hrow]

variable (arith config state tables) in
/-- A token after the cached ones. -/
def attentionRule (past : List (Cached F)) (row : AttentionRow F hidden) :
    List (Cached F) × (Fin hidden → F) :=
  let joined := past ++ [cachedOf arith config state tables config.normPlusOne row]
  (joined, attentionOut arith config state row (attend arith config
    (queryOf arith config state tables config.normPlusOne row) joined fun _ => true))

theorem servedAttention_eq (paged : PagedAttention arith config) :
    servedAttention state tables paged = .ofRule [] (attentionRule arith config state tables) := by
  unfold servedAttention Stateful.ofRule
  congr 1
  funext past rows
  induction rows generalizing past with
  | nil => simp [paged.run_nil]
  | cons row rows ih =>
      dsimp only at ih ⊢
      rw [scan_cons, ← ih, List.map_cons, List.map_cons, List.zip_cons_cons, paged.run_cons,
        List.zipWith_cons_cons]
      exact Prod.ext rfl (List.append_cons _ _ _)

theorem rowByRow_servedAttention (paged : PagedAttention arith config) :
    (servedAttention state tables paged).RowByRow :=
  ⟨_, _, _, servedAttention_eq paged⟩

/-- The mask over one token blocks nothing. -/
theorem unfusedAttention_forward (past : List (Cached F)) (row : AttentionRow F hidden) :
    (unfusedAttention arith config state tables).forward past [row] =
      ([(attentionRule arith config state tables past row).2],
        (attentionRule arith config state tables past row).1) := by
  obtain ⟨joined, hjoined⟩ : ∃ joined, joined =
      past ++ [cachedOf arith config state tables config.normPlusOne row] := ⟨_, rfl⟩
  have hlength : 0 < joined.length := by simp [hjoined]
  have hmask : additiveCausalMask (joined.length - 1) 0 = fun j => j ≤ joined.length - 1 := by
    funext j
    rw [additiveCausalMask, Nat.zero_add]
  have hall : joined.take (joined.length - 1 + 1) = joined := List.take_of_length_le (by omega)
  unfold unfusedAttention attentionRule
  dsimp only
  rw [← hjoined, hmask, attend_le _ (by omega), hall]

/-- The variables hold the keys of all tokens so far. -/
theorem scan_attentionRule (past : List (Cached F)) (rows : List (AttentionRow F hidden)) :
    (scan (attentionRule arith config state tables) past rows).2 =
      past ++ rows.map (cachedOf arith config state tables config.normPlusOne) := by
  induction rows generalizing past with
  | nil => simp
  | cons row rows ih =>
      rw [scan_cons, ih, List.map_cons, List.append_cons]
      rfl

end Forwards

/-- A sequence that is served in any forwards, or token by token by the graph as it is emitted, is
answered like the whole of it by the block over a known number of tokens. -/
theorem servedAttention_answers {F : Type} [Field F] {arith : Arith F}
    {config : AttentionConfig F} (hplus : config.normPlusOne = true) {hidden : ℕ}
    (state : AttentionState F hidden) (span : ℕ) (paged : PagedAttention arith config)
    (forwards : List (List (AttentionRow F hidden)))
    (hpositions : ∀ row ∈ forwards.flatten,
      row.position < forwards.flatten.length ∧ row.position < span) :
    (servedAttention state (freqsTables arith config span) paged).answers forwards =
        (emitDenseAttention arith config state).once forwards.flatten ∧
      (unfusedAttention arith config state (freqsTables arith config span)).answers
          (forwards.flatten.map ([·])) =
        (emitDenseAttention arith config state).once forwards.flatten := by
  obtain ⟨rows, hrows⟩ : ∃ rows, rows = forwards.flatten := ⟨_, rfl⟩
  rw [← hrows] at hpositions ⊢
  have hkeys : rows.map (cachedOf arith config state (freqsTables arith config rows.length) true) =
      rows.map (cachedOf arith config state (freqsTables arith config span)
        config.normPlusOne) := by
    refine List.map_congr_left fun row hrow => ?_
    rw [hplus, cachedOf_span (hpositions row hrow).1 (hpositions row hrow).2]
  have hdense : (scan (attentionRule arith config state (freqsTables arith config span)) []
      rows).1 = (emitDenseAttention arith config state).once rows := by
    apply List.ext_getElem?
    intro i
    rcases Nat.lt_or_ge i rows.length with hi | hi
    · have hrow : rows[i]? = some rows[i] := List.getElem?_eq_getElem hi
      obtain ⟨hhere, hthere⟩ := hpositions rows[i] (List.getElem_mem hi)
      have hquery : queryOf arith config state (freqsTables arith config rows.length) true
          rows[i] = queryOf arith config state (freqsTables arith config span)
            config.normPlusOne rows[i] := by
        rw [hplus, queryOf_span hhere hthere]
      rw [getElem?_scan [] hrow, emitDenseAttention_getElem? hrow, scan_attentionRule, hquery,
        attend_le _ (by simpa using hi), hkeys, ← List.map_take,
        List.take_succ_eq_append_getElem hi, List.map_append]
      rfl
    · rw [List.getElem?_eq_none (by rwa [length_scan]),
        List.getElem?_eq_none (by simpa [emitDenseAttention] using hi)]
  constructor
  · rw [(rowByRow_servedAttention paged).answers_eq, ← hrows, ← hdense, servedAttention_eq]
    rfl
  · have hserve := @Stateful.serve_singletons _ _
      (unfusedAttention arith config state (freqsTables arith config span)) _
      unfusedAttention_forward [] rows
    rw [← hdense]
    exact congrArg Prod.fst hserve

noncomputable def smallAttention : AttentionConfig ℝ where
  numAttentionHeads := 2
  numKeyValueHeads := 1
  headDim := 2
  ropeDim := 2
  ropeTheta := 10000
  mropeSection _ := 1
  rmsNormEps := 1
  normPlusOne := true
  keyValueHeads_dvd := by decide
  ropeDim_le := by decide

noncomputable def smallSelfAttn : AttentionState ℝ 2 where
  qProj _ _ := 1
  kProj _ _ := 1
  vProj o _ := o
  oProj _ _ := 1
  qNorm _ := 0
  kNorm _ := 0

noncomputable def smallPaged : PagedAttention realArith smallAttention := .direct

/-- Two tokens, each in a forward of its own. -/
noncomputable def smallForwards : List (List (AttentionRow ℝ 2)) :=
  [[⟨fun _ => 1, 0⟩], [⟨fun c => c.val, 1⟩]]

theorem servedAttention_answers_small :
    (servedAttention smallSelfAttn (freqsTables realArith smallAttention 4)
        smallPaged).answers smallForwards =
        (emitDenseAttention realArith smallAttention smallSelfAttn).once smallForwards.flatten ∧
      (unfusedAttention realArith smallAttention smallSelfAttn
          (freqsTables realArith smallAttention 4)).answers
          (smallForwards.flatten.map ([·])) =
        (emitDenseAttention realArith smallAttention smallSelfAttn).once smallForwards.flatten :=
  servedAttention_answers rfl smallSelfAttn 4 smallPaged smallForwards
    (by simp [smallForwards])

end Arcint.Network
