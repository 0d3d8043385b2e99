import Arcint.Core.Sampler
import Arcint.Foundation.Reach
import Arcint.Foundation.SortBy
import Mathlib.Analysis.Complex.Exponential
import Mathlib.Tactic.Linarith
import Mathlib.Tactic.NormNum
import Mathlib.Tactic.Positivity

/-! # Drawing from the nucleus

The stochastic pass of the sampler. It looks at the candidates with the largest logits, gives each
its share of their weight, and draws from the shortest prefix that has `top_p` of it. A large
vocabulary is first probed. The probe falls back to the whole vocabulary when it is short of mass,
but the mass is that of the probe, which is never short.

Weights are exact. The exponential is any positive function, and the two sorts are any that the
comparison of logits allows.
-/

namespace Arcint.Core

open Foundation

/-- Exact arithmetic for the penalties. -/
instance (priority := low) exactOps {F : Type} [Field F] [LinearOrder F] : FloatOps F where
  zero := 0
  one := 1
  gt x y := decide (y < x)
  le x y := decide (x ≤ y)
  ne x y := decide (x ≠ y)
  div x y := x / y
  mul x y := x * y
  sub x y := x - y
  ofNat n := n

/-- Candidates pulled before falling back to a full sort. -/
def kCandidateProbe : ℕ := 2048

section Model

variable {F : Type} [Field F] [LinearOrder F]

/-- A sort of the candidates by their logits, the largest in front. -/
structure LogitSort (F : Type) [LinearOrder F] where
  run : List (F × Token) → List (F × Token)
  perm : ∀ l, (run l).Perm l
  sorted : ∀ l, (run l).Pairwise fun a b => b.1 ≤ a.1

/-- The logits with their ids. -/
def scratchOf (logits : List F) : List (F × Token) := logits.mapIdx fun i l => (l, (i : Token))

def wantedCandidates (topK : ℤ) (vocab : ℕ) : ℕ :=
  if 0 < topK then min topK.toNat vocab else min kCandidateProbe vocab

/-- The candidates worth considering, largest logit first. -/
def collectCandidates (sort : LogitSort F) (params : SamplerParams F) (logits : List F) :
    List (F × Token) :=
  let want := wantedCandidates params.topK logits.length
  if want < logits.length then (sort.run (scratchOf logits)).take want
  else sort.run (scratchOf logits)

/-- A candidate's weight, before it is normalised. -/
def candidateWeight (weight : F → F) (params : SamplerParams F) (max : F) (logit : F) : F :=
  let temp := if 0 < params.temperature then params.temperature else 1
  weight ((logit - max) / temp)

/-- The loop over the sorted probabilities: where the mass reaches `top_p`, and how much it is. -/
def cutoffLoop (topP : F) : ℕ → F → List F → ℕ × F
  | i, acc, [] => (i, acc)
  | i, acc, p :: rest =>
      if topP ≤ acc + p then (i + 1, acc + p) else cutoffLoop topP (i + 1) (acc + p) rest

/-- What one pass samples from. -/
structure Pass (F : Type) where
  scratch : List (F × Token)
  probs : List F
  cutoff : ℕ

/-- The tokens below the cutoff. -/
def Pass.tokens (pass : Pass F) : List Token := (pass.scratch.take pass.cutoff).map Prod.snd

/-- One attempt over its candidates up to the draw, and whether it is short of mass. -/
def attemptPass (weight : F → F) (params : SamplerParams F) (vocab : ℕ) (probing : Bool)
    (first : F × Token) (scratch : List (F × Token)) : Pass F × Bool :=
  let weights := scratch.map fun candidate => candidateWeight weight params first.1 candidate.1
  let probs := weights.map (· / weights.sum)
  if params.topP < 1 then
    let (cutoff, acc) := cutoffLoop params.topP 0 0 probs
    (⟨scratch, probs, cutoff⟩, decide (acc < params.topP) && probing)
  else (⟨scratch, probs, probs.length⟩, probing && decide (scratch.length < vocab))

/-- The attempts up to the one that is drawn from. One that is short of mass forces the full set
for the next. -/
def findPass (sort : LogitSort F) (weight : F → F) (logits : List F) :
    List ℕ → SamplerParams F → Option (Pass F) × SamplerParams F
  | [], params => (none, params)
  | attempt :: attempts, params =>
      let probing := attempt == 0 && decide (params.topK ≤ 0) &&
        decide (kCandidateProbe < logits.length)
      match collectCandidates sort params logits with
      | [] => (none, params)
      | first :: rest =>
          let (pass, short) :=
            attemptPass weight params logits.length probing first (first :: rest)
          if short then
            findPass sort weight logits attempts { params with topK := logits.length }
          else (some pass, params)

/-- The draw: the first candidate at which the rest of `r` is used up. -/
def drawLoop : F → List (F × Token) → Option Token
  | _, [] => none
  | r, (p, token) :: rest => if r - p ≤ 0 then some token else drawLoop (r - p) rest

/-- A draw among the tokens below the cutoff. -/
def Pass.draw (pass : Pass F) (u : F) : Token :=
  let renorm := (pass.probs.take pass.cutoff).sum
  let last := ((pass.scratch[pass.cutoff - 1]?).map Prod.snd).getD 0
  (drawLoop (u * renorm) ((pass.probs.take pass.cutoff).zip pass.tokens)).getD last

/-- The stochastic pass over a penalised row; `uniform` steps the generator. -/
def drawToken (sort : LogitSort F) (weight : F → F) (uniform : ℕ → F × ℕ) (sampler : Sampler F)
    (logits : List F) : Token × Sampler F :=
  match findPass sort weight logits [0, 1] sampler.params with
  | (none, params) => (Sampler.argmax logits, { sampler with params })
  | (some pass, params) =>
      let (u, rng) := uniform sampler.rng
      (pass.draw u, { sampler with params, rng })

/-- What `sample` can return by a draw: the tokens of the pass that it draws from. -/
def sampledTokens (sort : LogitSort F) (weight : F → F) (sampler : Sampler F) (logits : List F) :
    Set Token :=
  {token | logits ≠ [] ∧ sampler.params.greedy = false ∧
    ∃ pass, (findPass sort weight (sampler.applyPenalties logits) [0, 1] sampler.params).1 =
      some pass ∧ token ∈ pass.tokens}

/-- What `sample` returns under some generator of numbers below one. -/
def returnedTokens (sort : LogitSort F) (weight : F → F) (sampler : Sampler F)
    (logits : List F) : Set Token :=
  {token | ∃ uniform : ℕ → F × ℕ, (∀ state, 0 ≤ (uniform state).1 ∧ (uniform state).1 < 1) ∧
    (sampler.sample (drawToken sort weight uniform) logits).1 = token}

/-! ## The nucleus -/

/-- The vocabulary in decreasing logit order. -/
def decreasing (logits : List F) : List (F × Token) :=
  sortBy (fun candidate => OrderDual.toDual candidate.1) (scratchOf logits)

/-- The weights of the vocabulary, in that order. -/
def vocabularyWeights (weight : F → F) (params : SamplerParams F) (logits : List F) : List F :=
  let max := ((decreasing logits).head?.map Prod.fst).getD 0
  (decreasing logits).map fun candidate => candidateWeight weight params max candidate.1

/-- The tokens of the shortest prefix with `top_p` of the vocabulary's weight. -/
def nucleusTokens (weight : F → F) (params : SamplerParams F) (logits : List F) : Set Token :=
  let weights := vocabularyWeights weight params logits
  {token | ∃ n, FirstReach weights (params.topP * weights.sum) n ∧
    token ∈ ((decreasing logits).take n).map Prod.snd}

/-- A prefix of the probe that has `top_p` of the probe's weight has as much of the vocabulary's. -/
def ProbeSuffices (weight : F → F) (params : SamplerParams F) (logits : List F) : Prop :=
  let weights := vocabularyWeights weight params logits
  logits.length ≤ kCandidateProbe ∨
    ∀ n ≤ kCandidateProbe,
      params.topP * (weights.take kCandidateProbe).sum ≤ (weights.take n).sum →
        params.topP * weights.sum ≤ (weights.take n).sum

end Model

/-! ## The attempt -/

theorem length_scratchOf {F : Type} (logits : List F) :
    (scratchOf logits).length = logits.length := by
  simp [scratchOf]

theorem map_fst_scratchOf {F : Type} (logits : List F) :
    (scratchOf logits).map Prod.fst = logits := by
  apply List.ext_getElem <;> simp [scratchOf]

theorem nodup_tokens_scratchOf {F : Type} (logits : List F) :
    ((scratchOf logits).map Prod.snd).Nodup := by
  rw [List.nodup_iff_injective_getElem]
  intro i j h
  apply Fin.ext
  simpa [scratchOf] using h

section Attempt

variable {F : Type} [LinearOrder F] {logits : List F}

/-- Distinct logits have one order, whoever sorts them. -/
theorem LogitSort.run_eq (sort : LogitSort F) (hdistinct : logits.Nodup) :
    sort.run (scratchOf logits) = decreasing logits := by
  refine (sortBy_unique ?_ (sort.perm _) (sort.sorted _)).symm
  have hkeys : (scratchOf logits).map (fun candidate => OrderDual.toDual candidate.1) =
      logits.map OrderDual.toDual := by
    conv_rhs => rw [← map_fst_scratchOf logits, List.map_map]
    rfl
  rw [hkeys]
  exact hdistinct.map OrderDual.toDual.injective

@[simp] theorem length_decreasing (logits : List F) :
    (decreasing logits).length = logits.length := by
  rw [decreasing, (sortBy_perm _ _).length_eq, length_scratchOf]

theorem nodup_tokens_decreasing (logits : List F) : ((decreasing logits).map Prod.snd).Nodup :=
  (((sortBy_perm _ _).map Prod.snd).nodup_iff).mpr (nodup_tokens_scratchOf logits)

/-- Without `top_k`, the candidates are the front of the vocabulary. -/
theorem collectCandidates_eq (sort : LogitSort F) {params : SamplerParams F}
    (htopK : params.topK ≤ 0) (hdistinct : logits.Nodup) :
    collectCandidates sort params logits =
      (decreasing logits).take (min kCandidateProbe logits.length) := by
  simp only [collectCandidates, wantedCandidates, if_neg (not_lt.mpr htopK),
    sort.run_eq hdistinct]
  split
  next => rfl
  next hall => rw [List.take_of_length_le (by simpa using not_lt.mp hall)]

/-- The tokens in front of a place tell the place. -/
theorem take_tokens_inj {m n : ℕ} (hm : m ≤ logits.length) (hn : n ≤ logits.length)
    (h : ∀ token, token ∈ ((decreasing logits).take m).map Prod.snd ↔
      token ∈ ((decreasing logits).take n).map Prod.snd) : m = n := by
  have hnodup : ∀ k, (((decreasing logits).take k).map Prod.snd).Nodup := fun k =>
    (nodup_tokens_decreasing logits).sublist ((List.take_sublist k _).map Prod.snd)
  have hlength := ((List.perm_ext_iff_of_nodup (hnodup m) (hnodup n)).mpr h).length_eq
  simpa [hm, hn] using hlength

end Attempt

section Weights

variable {F : Type} [Field F] [LinearOrder F] {logits : List F} {weight : F → F}
  {params : SamplerParams F}

@[simp] theorem length_vocabularyWeights :
    (vocabularyWeights weight params logits).length = logits.length := by
  simp [vocabularyWeights]

/-- The loop stops where the mass is first reached. -/
theorem cutoffLoop_eq [IsStrictOrderedRing F] {topP : F} {probs : List F} {i n : ℕ} {acc : F}
    (hacc : acc < topP) (hreach : FirstReach probs (topP - acc) n) :
    cutoffLoop topP i acc probs = (i + n, acc + (probs.take n).sum) := by
  induction probs generalizing i n acc with
  | nil =>
      have hzero := hreach.reached
      rw [List.take_nil, List.sum_nil, sub_nonpos] at hzero
      exact absurd hacc (not_lt.mpr hzero)
  | cons p probs ih =>
      obtain ⟨k, rfl⟩ : ∃ k, n = k + 1 := by
        refine Nat.exists_eq_succ_of_ne_zero ?_
        rintro rfl
        have hzero := hreach.reached
        rw [List.take_zero, List.sum_nil, sub_nonpos] at hzero
        exact absurd hacc (not_lt.mpr hzero)
      have hstep : ∀ m, ((p :: probs).take (m + 1)).sum = p + (probs.take m).sum := by simp
      rw [cutoffLoop]
      split
      next hle =>
        obtain rfl : k = 0 := by
          by_contra hk
          have hbefore := hreach.before 1 (by omega)
          rw [hstep 0, List.take_zero, List.sum_nil] at hbefore
          linarith
        rw [hstep, List.take_zero, List.sum_nil, add_zero]
      next hlt =>
        have hrest : FirstReach probs (topP - (acc + p)) k := by
          refine ⟨?_, fun m hm => ?_⟩
          · have hreached := hreach.reached
            rw [hstep] at hreached
            linarith
          · have hbefore := hreach.before (m + 1) (by omega)
            rw [hstep] at hbefore
            linarith
        rw [ih (not_le.mp hlt) hrest, hstep, add_assoc acc, Nat.add_assoc i, Nat.add_comm 1 k]

theorem vocabularyWeights_pos (hpos : ∀ x, 0 < weight x) :
    ∀ p ∈ vocabularyWeights weight params logits, 0 < p := by
  intro p hp
  obtain ⟨candidate, -, rfl⟩ := List.mem_map.mp hp
  exact hpos _

theorem sum_take_vocabularyWeights_pos [IsStrictOrderedRing F] (hpos : ∀ x, 0 < weight x)
    (hne : logits ≠ []) {k : ℕ} (hk : 0 < k) :
    0 < ((vocabularyWeights weight params logits).take k).sum := by
  refine List.sum_pos _ (fun p hp => vocabularyWeights_pos hpos p (List.mem_of_mem_take hp)) ?_
  intro hnil
  have hlength := congrArg List.length hnil
  rw [List.length_take, length_vocabularyWeights, List.length_nil] at hlength
  have := List.length_pos_iff.mpr hne
  omega

/-- The candidates of a pass weigh what they weigh in the vocabulary. -/
theorem map_candidateWeight_take {k : ℕ} {first : F × Token} {rest : List (F × Token)}
    (hscratch : (decreasing logits).take k = first :: rest) :
    (first :: rest).map (fun candidate => candidateWeight weight params first.1 candidate.1) =
      (vocabularyWeights weight params logits).take k := by
  have hmax : (decreasing logits).head? = some first := by
    rw [← List.take_append_drop k (decreasing logits), hscratch]
    rfl
  rw [vocabularyWeights, hmax, ← List.map_take, hscratch]
  rfl

end Weights

section Found

variable {F : Type} [Field F] [LinearOrder F] [IsStrictOrderedRing F] {logits : List F}
  {weight : F → F} {params : SamplerParams F}

/-- How many candidates the first attempt looks at. -/
def probed (logits : List F) : ℕ := min kCandidateProbe logits.length

/-- The first attempt is drawn from, up to where its own weight reaches `top_p`. Its weight is
normalised by its own sum, so it is never short. -/
theorem findPass_eq (sort : LogitSort F) (hpos : ∀ x, 0 < weight x) (htopK : params.topK ≤ 0)
    (htopP : 0 < params.topP) (htopP' : params.topP < 1) (hdistinct : logits.Nodup)
    (hne : logits ≠ []) :
    ∃ cutoff, FirstReach ((vocabularyWeights weight params logits).take (probed logits))
        (params.topP * ((vocabularyWeights weight params logits).take (probed logits)).sum)
        cutoff ∧
      findPass sort weight logits [0, 1] params =
        (some ⟨(decreasing logits).take (probed logits),
          ((vocabularyWeights weight params logits).take (probed logits)).map
            (· / ((vocabularyWeights weight params logits).take (probed logits)).sum), cutoff⟩,
          params) := by
  have hprobed : 0 < probed logits := lt_min (by decide) (List.length_pos_iff.mpr hne)
  obtain ⟨weights, hweights⟩ :
      ∃ weights, weights = (vocabularyWeights weight params logits).take (probed logits) := ⟨_, rfl⟩
  have hsum : 0 < weights.sum := hweights ▸ sum_take_vocabularyWeights_pos hpos hne hprobed
  obtain ⟨cutoff, hcutoff⟩ := exists_firstReach (mul_le_of_le_one_left hsum.le htopP'.le)
  refine ⟨cutoff, hweights ▸ hcutoff, ?_⟩
  have hprobs : FirstReach (weights.map (· / weights.sum)) (params.topP - 0) cutoff := by
    rwa [sub_zero, firstReach_map_div hsum]
  obtain ⟨first, rest, hscratch⟩ :
      ∃ first rest, (decreasing logits).take (probed logits) = first :: rest := by
    refine List.exists_cons_of_length_pos ?_
    rw [List.length_take, length_decreasing]
    exact lt_min hprobed (List.length_pos_iff.mpr hne)
  have hcollect := collectCandidates_eq sort htopK hdistinct
  change _ = (decreasing logits).take (probed logits) at hcollect
  have hmass : params.topP ≤ 0 + ((weights.map (· / weights.sum)).take cutoff).sum := by
    have hreached := hprobs.reached
    rwa [sub_zero, ← zero_add (List.sum _)] at hreached
  rw [findPass, hcollect, hscratch]
  simp only [attemptPass, map_candidateWeight_take hscratch, ← hweights, if_pos htopP',
    cutoffLoop_eq htopP hprobs, decide_eq_false (not_lt.mpr hmass), Bool.false_and, Nat.zero_add]
  rfl

end Found

/-! ## The draw -/

section Draw

variable {F : Type} [Field F] [LinearOrder F] {pass : Pass F}

/-- A pass with a share for every candidate, and at least one below the cutoff. -/
structure Pass.Proper (pass : Pass F) : Prop where
  positive : ∀ p ∈ pass.probs, 0 < p
  length : pass.probs.length = pass.scratch.length
  some : 0 < pass.cutoff
  inside : pass.cutoff ≤ pass.scratch.length

theorem drawLoop_mem {r : F} {pairs : List (F × Token)} {token : Token}
    (h : drawLoop r pairs = some token) : token ∈ pairs.map Prod.snd := by
  induction pairs generalizing r with
  | nil => cases h
  | cons pair pairs ih =>
      rw [drawLoop] at h
      split at h
      next => simp [Option.some_inj.mp h]
      next => exact List.mem_cons_of_mem _ (ih h)

theorem Pass.Proper.length_tokens (h : pass.Proper) : pass.tokens.length = pass.cutoff := by
  simp [Pass.tokens, h.inside]

theorem Pass.Proper.map_fst_zip (h : pass.Proper) :
    ((pass.probs.take pass.cutoff).zip pass.tokens).map Prod.fst = pass.probs.take pass.cutoff :=
  List.map_fst_zip (by rw [h.length_tokens]; exact List.length_take_le _ _)

/-- Every draw is one of the tokens below the cutoff. -/
theorem Pass.Proper.draw_mem (h : pass.Proper) (u : F) : pass.draw u ∈ pass.tokens := by
  rw [Pass.draw]
  cases hdrawn : drawLoop (u * (pass.probs.take pass.cutoff).sum)
      ((pass.probs.take pass.cutoff).zip pass.tokens) with
  | some token =>
      obtain ⟨pair, hpair, rfl⟩ := List.mem_map.mp (drawLoop_mem hdrawn)
      exact (List.of_mem_zip hpair).2
  | none =>
      have hlast : pass.cutoff - 1 < pass.scratch.length :=
        (Nat.sub_lt h.some Nat.one_pos).trans_le h.inside
      rw [Option.getD_none, List.getElem?_eq_getElem hlast]
      refine List.mem_map_of_mem (List.mem_iff_getElem.mpr ⟨pass.cutoff - 1, ?_, ?_⟩)
      · rw [List.length_take]
        exact lt_min (Nat.sub_lt h.some Nat.one_pos) hlast
      · rw [List.getElem_take]

variable [IsStrictOrderedRing F]

/-- A remainder that the candidates in front do not use up, and this one does. -/
theorem drawLoop_eq {r : F} {pairs : List (F × Token)} (hpos : ∀ pair ∈ pairs, 0 < pair.1)
    {i : ℕ} (hi : i < pairs.length) (hlow : ((pairs.take i).map Prod.fst).sum < r)
    (hhigh : r ≤ ((pairs.take (i + 1)).map Prod.fst).sum) :
    drawLoop r pairs = some (pairs[i]).2 := by
  induction pairs generalizing r i with
  | nil => cases hi
  | cons pair pairs ih =>
      obtain ⟨p, token⟩ := pair
      rw [drawLoop]
      cases i with
      | zero =>
          rw [if_pos]
          · rfl
          · simpa using hhigh
      | succ i =>
          rw [List.take_succ_cons, List.map_cons, List.sum_cons] at hlow hhigh
          have hrest : 0 ≤ ((pairs.take i).map Prod.fst).sum := by
            refine List.sum_nonneg fun x hx => ?_
            obtain ⟨pair, hpair, rfl⟩ := List.mem_map.mp hx
            exact (hpos pair (List.mem_cons_of_mem _ (List.mem_of_mem_take hpair))).le
          rw [if_neg (by linarith), List.getElem_cons_succ]
          exact ih (fun pair hpair => hpos pair (List.mem_cons_of_mem _ hpair)) _ (by linarith)
            (by linarith)

/-- Every token below the cutoff has a draw: halfway through its own share. -/
theorem Pass.Proper.exists_draw (h : pass.Proper) {token : Token} (htoken : token ∈ pass.tokens) :
    ∃ u, (0 ≤ u ∧ u < 1) ∧ pass.draw u = token := by
  obtain ⟨i, hi, rfl⟩ := List.mem_iff_getElem.mp htoken
  have hcut : (pass.probs.take pass.cutoff).length = pass.cutoff := by
    rw [List.length_take, h.length, Nat.min_eq_left h.inside]
  obtain ⟨shares, hshares⟩ : ∃ shares, shares = pass.probs.take pass.cutoff := ⟨_, rfl⟩
  rw [← hshares] at hcut
  have hpos : ∀ p ∈ shares, 0 < p := fun p hp =>
    h.positive p (List.mem_of_mem_take (hshares ▸ hp))
  have hi' : i < shares.length := by rwa [hcut, ← h.length_tokens]
  have hstep : (shares.take (i + 1)).sum = (shares.take i).sum + shares[i] := by
    rw [List.take_add_one, List.getElem?_eq_getElem hi', List.sum_append]
    simp
  have hshare := hpos shares[i] (List.getElem_mem hi')
  have hfront : 0 ≤ (shares.take i).sum :=
    List.sum_nonneg fun p hp => (hpos p (List.mem_of_mem_take hp)).le
  have hall : (shares.take (i + 1)).sum ≤ shares.sum := sum_take_le (fun p hp => (hpos p hp).le) _
  have hsum : 0 < shares.sum := by linarith
  refine ⟨((shares.take i).sum + shares[i] / 2) / shares.sum, ⟨by positivity, ?_⟩, ?_⟩
  · rw [div_lt_one hsum]
    linarith
  · have hpairs : i < (shares.zip pass.tokens).length := by
      rw [List.length_zip, hcut, h.length_tokens, Nat.min_self]
      rwa [← h.length_tokens]
    have hfst : (shares.zip pass.tokens).map Prod.fst = shares := hshares ▸ h.map_fst_zip
    have hdrawn := drawLoop_eq (r := (shares.take i).sum + shares[i] / 2)
      (fun pair hpair => hpos _ (List.of_mem_zip hpair).1) hpairs
      (by rw [List.map_take, hfst]; linarith) (by rw [List.map_take, hfst]; linarith)
    rw [Pass.draw, ← hshares, div_mul_cancel₀ _ hsum.ne', hdrawn, List.getElem_zip]
    rfl

end Draw

/-! ## What can be sampled -/

section Sampled

variable {F : Type} [Field F] [LinearOrder F]

/-- A request that is neither greedy nor cut by `top_k` or a `top_p` of one. -/
structure NucleusParams (params : SamplerParams F) : Prop where
  temperature : 0 < params.temperature
  topK : params.topK ≤ 0
  topP_pos : 0 < params.topP
  topP_lt_one : params.topP < 1

theorem NucleusParams.greedy {params : SamplerParams F} (h : NucleusParams params) :
    params.greedy = false := by
  have htemperature : FloatOps.le params.temperature (FloatOps.zero : F) = false :=
    decide_eq_false (not_le.mpr h.temperature)
  have htopK : (params.topK == 1) = false := by
    have := h.topK
    simp only [beq_eq_false_iff_ne]
    omega
  rw [SamplerParams.greedy, htemperature, htopK]
  rfl

@[simp] theorem length_applyPenalties (sampler : Sampler F) (logits : List F) :
    (sampler.applyPenalties logits).length = logits.length := by
  simp [Sampler.applyPenalties]

variable [IsStrictOrderedRing F] {weight : F → F}

section Pass

variable {sampler : Sampler F} {logits : List F} (sort : LogitSort F) (hpos : ∀ x, 0 < weight x)
  (hparams : NucleusParams sampler.params) (hdistinct : (sampler.applyPenalties logits).Nodup)
  (hne : logits ≠ [])

include hpos hparams hdistinct hne

/-- The pass that is drawn from, by its cutoff alone. -/
theorem exists_pass :
    ∃ pass, findPass sort weight (sampler.applyPenalties logits) [0, 1] sampler.params =
        (some pass, sampler.params) ∧ pass.Proper ∧
      ∃ cutoff ≤ kCandidateProbe,
        FirstReach (vocabularyWeights weight sampler.params (sampler.applyPenalties logits))
          (sampler.params.topP *
            ((vocabularyWeights weight sampler.params (sampler.applyPenalties logits)).take
              (probed (sampler.applyPenalties logits))).sum) cutoff ∧
        pass.tokens =
          ((decreasing (sampler.applyPenalties logits)).take cutoff).map Prod.snd := by
  have hrow : sampler.applyPenalties logits ≠ [] := by
    rwa [← List.length_pos_iff, length_applyPenalties, List.length_pos_iff]
  obtain ⟨cutoff, hcutoff, hfound⟩ := findPass_eq sort hpos hparams.topK hparams.topP_pos
    hparams.topP_lt_one hdistinct hrow
  have hpositive : 0 < probed (sampler.applyPenalties logits) :=
    lt_min (by decide) (List.length_pos_iff.mpr hrow)
  have hsum : 0 < ((vocabularyWeights weight sampler.params
      (sampler.applyPenalties logits)).take (probed (sampler.applyPenalties logits))).sum :=
    sum_take_vocabularyWeights_pos hpos hrow hpositive
  have hle : cutoff ≤ probed (sampler.applyPenalties logits) :=
    hcutoff.le_length.trans (List.length_take_le _ _)
  refine ⟨_, hfound, ⟨?_, ?_, ?_, ?_⟩, cutoff, hle.trans (min_le_left _ _), hcutoff.of_take, ?_⟩
  · intro p hp
    obtain ⟨x, hx, rfl⟩ := List.mem_map.mp hp
    exact div_pos (vocabularyWeights_pos hpos x (List.mem_of_mem_take hx)) hsum
  · simp
  · refine Nat.pos_of_ne_zero ?_
    rintro rfl
    have hreached := hcutoff.reached
    rw [List.take_zero, List.sum_nil] at hreached
    exact absurd (mul_pos hparams.topP_pos hsum) (not_lt.mpr hreached)
  · simpa [hle] using hle.trans (min_le_right _ _)
  · rw [Pass.tokens, List.take_take, Nat.min_eq_left hle]

/-- What `sample` returns is what it samples from. -/
theorem returnedTokens_eq :
    returnedTokens sort weight sampler logits = sampledTokens sort weight sampler logits := by
  obtain ⟨pass, hfound, hproper, -⟩ := exists_pass sort hpos hparams hdistinct hne
  have hempty : logits.isEmpty = false := by simpa using hne
  have hsample : ∀ uniform : ℕ → F × ℕ,
      (sampler.sample (drawToken sort weight uniform) logits).1 =
        pass.draw (uniform sampler.rng).1 := by
    intro uniform
    simp only [Sampler.sample, hempty, hparams.greedy, drawToken, hfound]
    rfl
  apply Set.ext
  intro token
  simp only [returnedTokens, sampledTokens, Set.mem_ofPred_eq, hsample, hfound]
  constructor
  · rintro ⟨uniform, -, rfl⟩
    exact ⟨hne, hparams.greedy, pass, rfl, hproper.draw_mem _⟩
  · rintro ⟨-, -, other, hother, htoken⟩
    obtain rfl := Option.some_inj.mp hother
    obtain ⟨u, hu, hdraw⟩ := hproper.exists_draw htoken
    exact ⟨fun state => (u, state), fun _ => hu, hdraw⟩

end Pass

/-- The tokens below a cutoff are the nucleus when they have `top_p` of the vocabulary's weight. -/
theorem take_tokens_eq_nucleus_iff {row : List F} {params : SamplerParams F}
    (hpos : ∀ x, 0 < weight x) (hparams : NucleusParams params) {cutoff : ℕ} {mass : F}
    (hcutoff : FirstReach (vocabularyWeights weight params row) (params.topP * mass) cutoff)
    (hmass : mass ≤ (vocabularyWeights weight params row).sum) :
    {token | token ∈ ((decreasing row).take cutoff).map Prod.snd} =
        nucleusTokens weight params row ↔
      params.topP * (vocabularyWeights weight params row).sum ≤
        ((vocabularyWeights weight params row).take cutoff).sum := by
  obtain ⟨n, hn⟩ : ∃ n, FirstReach (vocabularyWeights weight params row)
      (params.topP * (vocabularyWeights weight params row).sum) n :=
    exists_firstReach (mul_le_of_le_one_left
      (List.sum_nonneg fun p hp => (vocabularyWeights_pos hpos p hp).le) hparams.topP_lt_one.le)
  have hnucleus : nucleusTokens weight params row =
      {token | token ∈ ((decreasing row).take n).map Prod.snd} := by
    apply Set.ext
    intro token
    constructor
    · rintro ⟨m, hm, htoken⟩
      exact hm.unique hn ▸ htoken
    · exact fun htoken => ⟨n, hn, htoken⟩
  rw [← hcutoff.eq_iff hn (mul_le_mul_of_nonneg_left hmass hparams.topP_pos.le), hnucleus]
  constructor
  · intro heq
    have hcut : cutoff ≤ row.length := by simpa using hcutoff.le_length
    have hlast : n ≤ row.length := by simpa using hn.le_length
    exact take_tokens_inj hcut hlast fun token => Set.ext_iff.mp heq token
  · rintro rfl
    rfl

theorem probeSuffices_iff {row : List F} {params : SamplerParams F} (hpos : ∀ x, 0 < weight x)
    {cutoff : ℕ} (hle : cutoff ≤ kCandidateProbe)
    (hcutoff : FirstReach (vocabularyWeights weight params row)
      (params.topP * ((vocabularyWeights weight params row).take (probed row)).sum) cutoff) :
    ProbeSuffices weight params row ↔
      params.topP * (vocabularyWeights weight params row).sum ≤
        ((vocabularyWeights weight params row).take cutoff).sum := by
  rcases Nat.lt_or_ge kCandidateProbe row.length with hlarge | hsmall
  · rw [probed, Nat.min_eq_left hlarge.le] at hcutoff
    constructor
    · rintro (hsmall | hprefix)
      · exact absurd hsmall (not_le.mpr hlarge)
      · exact hprefix cutoff hle hcutoff.reached
    · intro hreach
      refine Or.inr fun n _ hn => hreach.trans (sum_take_mono ?_ ?_)
      · exact fun p hp => (vocabularyWeights_pos hpos p hp).le
      · by_contra! hlt
        exact absurd hn (not_le.mpr (hcutoff.before n hlt))
  · rw [probed, Nat.min_eq_right hsmall, List.take_of_length_le (by simp)] at hcutoff
    exact iff_of_true (Or.inl hsmall) hcutoff.reached

variable {sampler : Sampler F} {logits : List F} (sort : LogitSort F) (hpos : ∀ x, 0 < weight x)
  (hparams : NucleusParams sampler.params) (hdistinct : (sampler.applyPenalties logits).Nodup)

include hpos hparams hdistinct

/-- The pass stops at the nucleus exactly when its own weight stands for that of the vocabulary. -/
theorem sampledTokens_eq_iff :
    sampledTokens sort weight sampler logits =
        nucleusTokens weight sampler.params (sampler.applyPenalties logits) ↔
      ProbeSuffices weight sampler.params (sampler.applyPenalties logits) := by
  by_cases hne : logits = []
  · subst hne
    have hempty : decreasing (sampler.applyPenalties ([] : List F)) = [] := rfl
    refine iff_of_true ?_ (Or.inl (Nat.zero_le _))
    apply Set.ext
    simp [sampledTokens, nucleusTokens, hempty]
  · obtain ⟨pass, hfound, -, cutoff, hle, hcutoff, htokens⟩ :=
      exists_pass sort hpos hparams hdistinct hne
    have hsampled : sampledTokens sort weight sampler logits =
        {token | token ∈
          ((decreasing (sampler.applyPenalties logits)).take cutoff).map Prod.snd} := by
      apply Set.ext
      intro token
      simp [sampledTokens, hfound, hne, hparams.greedy, htokens]
    rw [hsampled, probeSuffices_iff hpos hle hcutoff]
    refine take_tokens_eq_nucleus_iff hpos hparams hcutoff (sum_take_le ?_ _)
    exact fun p hp => (vocabularyWeights_pos hpos p hp).le

/-- Under any weights, what can be sampled, and returned, is the nucleus exactly when the probe
suffices. -/
theorem sample_nucleus_iff :
    (sampledTokens sort weight sampler logits =
        nucleusTokens weight sampler.params (sampler.applyPenalties logits) ↔
      ProbeSuffices weight sampler.params (sampler.applyPenalties logits)) ∧
    (logits ≠ [] →
      returnedTokens sort weight sampler logits = sampledTokens sort weight sampler logits) :=
  ⟨sampledTokens_eq_iff sort hpos hparams hdistinct, fun hne =>
    returnedTokens_eq sort hpos hparams hdistinct hne⟩

end Sampled

/-! ## Logits that fall by one -/

section Falling

variable {F : Type} [Field F] [LinearOrder F]

/-- The sort by insertion. -/
def insertionLogitSort : LogitSort F where
  run l := sortBy (fun candidate => OrderDual.toDual candidate.1) l
  perm := sortBy_perm _
  sorted l := sortBy_pairwise (fun candidate : F × Token => OrderDual.toDual candidate.1) l

omit [LinearOrder F] in
/-- Half of the mass is asked for, and nothing was said yet. -/
def halfSampler : Sampler F where
  params :=
    { temperature := 1, topP := 1 / (2 : ℕ), topK := 0, repetitionPenalty := 1, presencePenalty := 0
      frequencyPenalty := 0, maxTokens := 1, ignoreEos := false }
  rng := 0
  seen _ := 0
  generated _ := 0

theorem halfSampler_params [IsStrictOrderedRing F] :
    NucleusParams (halfSampler : Sampler F).params := by
  constructor <;> norm_num [halfSampler]

theorem applyPenalties_halfSampler (logits : List F) :
    halfSampler.applyPenalties logits = logits := by
  apply List.ext_getElem <;>
    simp [Sampler.applyPenalties, Sampler.countPenalised, Sampler.repetitionPenalised, halfSampler]

def fallingLogits (F : Type) [Field F] (vocab : ℕ) : List F :=
  (List.range vocab).map fun i : ℕ => -(i : F)

omit [LinearOrder F] in
@[simp] theorem length_fallingLogits (vocab : ℕ) : (fallingLogits F vocab).length = vocab := by
  simp [fallingLogits]

variable [IsStrictOrderedRing F]

theorem fallingLogits_nodup (vocab : ℕ) : (fallingLogits F vocab).Nodup :=
  List.nodup_range.map fun i j h => by simpa using h

/-- They are in order already. -/
theorem decreasing_fallingLogits (vocab : ℕ) :
    decreasing (fallingLogits F vocab) = scratchOf (fallingLogits F vocab) := by
  have hfalling : (fallingLogits F vocab).Pairwise fun x y => y ≤ x :=
    List.pairwise_map.mpr (List.pairwise_lt_range.imp fun hlt => by simpa using hlt.le)
  rw [← map_fst_scratchOf (fallingLogits F vocab), List.pairwise_map] at hfalling
  exact hfalling.insertionSort_eq

theorem vocabularyWeights_fallingLogits (weight : F → F) (vocab : ℕ) :
    vocabularyWeights weight halfSampler.params (fallingLogits F vocab) =
      (List.range vocab).map fun i : ℕ => weight (-(i : F)) := by
  have hmax : ((scratchOf (fallingLogits F vocab)).head?.map Prod.fst).getD 0 = 0 := by
    rw [← List.head?_map, map_fst_scratchOf]
    cases vocab with
    | zero => rfl
    | succ n => simp [fallingLogits, List.range_succ_eq_map]
  have hweight : ∀ logit, candidateWeight weight halfSampler.params 0 logit = weight logit := by
    simp [candidateWeight, halfSampler]
  rw [vocabularyWeights, decreasing_fallingLogits, hmax]
  simp only [hweight]
  rw [← Function.comp_def weight, ← List.map_map, map_fst_scratchOf, fallingLogits, List.map_map]
  rfl

end Falling

/-- Weights between one and two, over every logit. -/
def flatWeight (x : ℚ) : ℚ := 3 / 2 + x / (2 * (1 + |x|))

theorem flatWeight_bounds (x : ℚ) : 1 ≤ flatWeight x ∧ flatWeight x ≤ 2 := by
  have hpos : 0 < 2 * (1 + |x|) := by positivity
  have hlow : -(1 / 2) ≤ x / (2 * (1 + |x|)) := by
    rw [le_div_iff₀ hpos]
    linarith [neg_abs_le x]
  have hhigh : x / (2 * (1 + |x|)) ≤ 1 / 2 := by
    rw [div_le_iff₀ hpos]
    linarith [le_abs_self x]
  unfold flatWeight
  constructor <;> linarith

theorem flatWeight_pos (x : ℚ) : 0 < flatWeight x :=
  zero_lt_one.trans_le (flatWeight_bounds x).1

theorem flatWeight_strictMono : StrictMono flatWeight := by
  intro x y hxy
  refine add_lt_add_right ?_ _
  rw [div_lt_div_iff₀ (by positivity) (by positivity)]
  rcases le_or_gt 0 x with hx | hx <;> rcases le_or_gt 0 y with hy | hy
  · rw [abs_of_nonneg hx, abs_of_nonneg hy]
    linarith [mul_comm x y]
  · linarith
  · rw [abs_of_neg hx, abs_of_nonneg hy]
    nlinarith [mul_nonneg (neg_nonneg.mpr hx.le) hy]
  · rw [abs_of_neg hx, abs_of_neg hy]
    linarith [mul_comm x y]

/-- The probe weighs at most two a candidate, the vocabulary at least one. -/
theorem flat_not_probeSuffices {vocab : ℕ} (hvocab : 10000 ≤ vocab) :
    ¬ ProbeSuffices flatWeight halfSampler.params (fallingLogits ℚ vocab) := by
  obtain ⟨weights, hweights⟩ : ∃ weights,
      weights = vocabularyWeights flatWeight halfSampler.params (fallingLogits ℚ vocab) := ⟨_, rfl⟩
  have hlength : weights.length = vocab := by
    rw [hweights, length_vocabularyWeights, length_fallingLogits]
  have hbounds : ∀ p ∈ weights, 1 ≤ p ∧ p ≤ 2 := by
    rw [hweights]
    intro p hp
    obtain ⟨candidate, -, rfl⟩ := List.mem_map.mp hp
    exact flatWeight_bounds _
  have htotal : (10000 : ℚ) ≤ weights.sum := by
    have hle := List.card_nsmul_le_sum weights 1 fun p hp => (hbounds p hp).1
    rw [hlength, nsmul_one] at hle
    exact le_trans (by exact_mod_cast hvocab) hle
  have hprobe : (weights.take 2048).sum ≤ 4096 := by
    have hle := List.sum_le_card_nsmul (weights.take 2048) 2 fun p hp =>
      (hbounds p (List.mem_of_mem_take hp)).2
    rw [List.length_take, hlength, Nat.min_eq_left (le_trans (by norm_num) hvocab)] at hle
    norm_num at hle
    exact hle
  have hnonneg : 0 ≤ (weights.take 2048).sum := List.sum_nonneg fun p hp =>
    zero_le_one.trans (hbounds p (List.mem_of_mem_take hp)).1
  have htopP : (halfSampler : Sampler ℚ).params.topP = 1 / 2 := rfl
  simp only [ProbeSuffices, ← hweights, length_fallingLogits, kCandidateProbe, htopP]
  rintro (hsmall | hprefix)
  · omega
  · have hreach := hprefix 2048 le_rfl (by linarith)
    linarith

theorem sample_not_nucleus_fallingLogits :
    StrictMono flatWeight ∧ (∀ x, 0 < flatWeight x) ∧ (fallingLogits ℚ 10000).Nodup ∧
      sampledTokens insertionLogitSort flatWeight halfSampler (fallingLogits ℚ 10000) ≠
        nucleusTokens flatWeight halfSampler.params (fallingLogits ℚ 10000) := by
  refine ⟨flatWeight_strictMono, flatWeight_pos, fallingLogits_nodup _, fun heq => ?_⟩
  have hiff := sampledTokens_eq_iff insertionLogitSort flatWeight_pos halfSampler_params
    (by rw [applyPenalties_halfSampler]; exact fallingLogits_nodup 10000)
  rw [applyPenalties_halfSampler] at hiff
  exact flat_not_probeSuffices le_rfl (hiff.mp heq)

theorem sum_exp_neg_le (n : ℕ) :
    ((List.range n).map fun i : ℕ => Real.exp (-(i : ℝ))).sum ≤ 2 - 2 * (1 / 2) ^ n := by
  have hhalf : Real.exp (-1) ≤ 1 / 2 := by
    rw [Real.exp_neg, one_div]
    have htwo := Real.add_one_le_exp 1
    exact inv_anti₀ two_pos (by linarith)
  induction n with
  | zero => simp
  | succ n ih =>
      have hlast : Real.exp (-(n : ℝ)) ≤ (1 / 2) ^ n := by
        rw [← mul_neg_one, Real.exp_nat_mul]
        exact pow_le_pow_left₀ (Real.exp_pos _).le hhalf n
      rw [List.range_succ, List.map_append, List.sum_append, List.map_singleton,
        List.sum_singleton, pow_succ]
      linarith

/-- Under the exponential the first token has half of the weight. -/
theorem exp_probeSuffices (vocab : ℕ) :
    ProbeSuffices Real.exp halfSampler.params (fallingLogits ℝ vocab) := by
  cases vocab with
  | zero => exact .inl (Nat.zero_le _)
  | succ n =>
      obtain ⟨weights, hweights⟩ : ∃ weights, weights =
          (List.range (n + 1)).map fun i : ℕ => Real.exp (-(i : ℝ)) := ⟨_, rfl⟩
      have hfirst : ∀ m, 1 ≤ (weights.take (m + 1)).sum := by
        intro m
        rw [hweights, List.range_succ_eq_map, List.map_cons, List.take_succ_cons, List.sum_cons]
        have hrest : 0 ≤ (((List.map Nat.succ (List.range n)).map
            fun i : ℕ => Real.exp (-(i : ℝ))).take m).sum := by
          refine List.sum_nonneg fun p hp => ?_
          obtain ⟨i, -, rfl⟩ := List.mem_map.mp (List.mem_of_mem_take hp)
          exact (Real.exp_pos _).le
        simpa using hrest
      have htotal : weights.sum ≤ 2 := by
        have hpos : (0 : ℝ) ≤ 2 * (1 / 2) ^ (n + 1) := by positivity
        rw [hweights]
        exact (sum_exp_neg_le (n + 1)).trans (by linarith)
      have htopP : (halfSampler : Sampler ℝ).params.topP = 1 / 2 := rfl
      simp only [ProbeSuffices, vocabularyWeights_fallingLogits, ← hweights, htopP]
      refine .inr fun m _ hprobe => ?_
      cases m with
      | zero =>
          have hmass := hfirst 2047
          rw [List.take_zero, List.sum_nil] at hprobe
          simp only [kCandidateProbe] at hprobe
          linarith
      | succ m =>
          have hmass := hfirst m
          linarith

theorem sample_nucleus_iff_exp :
    kCandidateProbe < (fallingLogits ℝ 3000).length ∧
      sampledTokens insertionLogitSort Real.exp halfSampler (fallingLogits ℝ 3000) =
        nucleusTokens Real.exp halfSampler.params (fallingLogits ℝ 3000) ∧
      returnedTokens insertionLogitSort Real.exp halfSampler (fallingLogits ℝ 3000) =
        sampledTokens insertionLogitSort Real.exp halfSampler (fallingLogits ℝ 3000) := by
  have hiff := sample_nucleus_iff insertionLogitSort Real.exp_pos halfSampler_params
    (by rw [applyPenalties_halfSampler]; exact fallingLogits_nodup 3000)
  rw [applyPenalties_halfSampler] at hiff
  refine ⟨by simp [kCandidateProbe], hiff.1.mpr (exp_probeSuffices 3000), hiff.2 ?_⟩
  exact List.ne_nil_of_length_pos (by simp)

end Arcint.Core
