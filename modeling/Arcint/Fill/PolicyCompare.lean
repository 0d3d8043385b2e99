import Arcint.Fill.Census
import Arcint.Fill.Partition
import Arcint.Fill.ResidencyReplay
import Mathlib.Data.List.GetD

/-! # Policies compared on a trace

Two static choices of residents and a store that warms on demand, priced on the same accesses. The
choice by frequency is calibrated on calls of its own: scored on the calls that it was calibrated on
it beats every choice of its size, which is why the comparison keeps the two apart.
-/

namespace Arcint.Fill.Policy

open Foundation Census

/-- The counts of every selected call, batched ones included. -/
def censusFromCalls (calls : List CallRow) (window : Window) : List ((ℕ × ℕ) × ℕ) :=
  calls.foldl (fun counts call =>
    if window.selects call then
      call.ids.foldl (fun counts e => bump (call.layerKey, e) counts) counts
    else counts) []

/-- A call that is scored: one token's experts under its key; a batched one is counted as
skipped. -/
def evalCall (window : Window) (state : List (ℕ × List ℕ) × ℕ) (call : CallRow) :
    Except String (List (ℕ × List ℕ) × ℕ) :=
  if window.selects call then do
    let chunks ← splitTopkChunks call.ids call.topK
    match chunks with
    | [chunk] => return (state.1 ++ [(call.layerKey, chunk.insertionSort (· ≤ ·))], state.2)
    | _ => return (state.1, state.2 + 1)
  else return state

/-- The rows to score, in the order of the calls, and how many calls were skipped. -/
def evalRowsFromCalls (calls : List CallRow) (window : Window) :
    Except String (List (ℕ × List ℕ) × ℕ) :=
  (sortBy CallRow.seq calls).foldlM (evalCall window) ([], 0)

/-- The fraction of the accesses whose expert is resident, the hits and the accesses. -/
def hitRate (rows : List (ℕ × List ℕ)) (sets : List (ℕ × List ℕ)) : ℚ × ℕ × ℕ :=
  let counts := rows.foldl (fun counts row =>
    let res := (hotOf sets row.1).toFinset
    row.2.foldl (fun counts e =>
      (if e ∈ res then counts.1 + 1 else counts.1, counts.2 + 1)) counts) ((0, 0) : ℕ × ℕ)
  (if counts.2 ≠ 0 then (counts.1 : ℚ) / counts.2 else 0, counts.1, counts.2)

/-- The most routed experts of each layer that was counted. -/
def staticSetsFrequency (counts : List ((ℕ × ℕ) × ℕ)) (slots : ℤ) : List (ℕ × List ℕ) :=
  (sortedDistinct (counts.map fun cell => cell.1.1)).map fun lk =>
    (lk, ((byCount (counts.filterMap fun cell => (part lk cell.1).map (·, cell.2))).take
      (max slots 0).toNat).map Prod.fst)

def rankKey (seed layerKey expert : ℕ) : ℕ :=
  let h := Store.splitmix64 ((seed ^^^ ((layerKey * 0xD6E8FEB86659FD93) % 2 ^ 64)) % 2 ^ 64)
  Store.splitmix64 ((h ^^^ expert) % 2 ^ 64)

/-- The incumbent's residents of a layer. -/
def staticSetSplitmix64 (layerKey : ℕ) (slots : ℤ) (numExpert seed : ℕ) : List ℕ :=
  if slots ≤ 0 then [] else smallestRanked (rankKey seed layerKey) numExpert slots.toNat

def staticSetsSplitmix64 (layerKeys : List ℕ) (slots : ℤ) (numExpert seed : ℕ) :
    List (ℕ × List ℕ) :=
  layerKeys.map fun lk => (lk, staticSetSplitmix64 lk slots numExpert seed)

/-- What a comparison reports of each policy. -/
structure Comparison where
  staticSplitmix64 : ℚ × ℕ × ℕ
  staticFrequency : ℚ × ℕ × ℕ
  lruPerLayer : ℚ × ℕ × ℕ
  batchedCallsSkipped : ℕ
  layers : ℕ
  layersWhereSeedsAgree : ℕ

/-- The three policies, the static ones as chosen from the calibration, on the same rows. -/
def compare (calCalls : List CallRow) (cal : Window) (evalCalls : List CallRow) (eval : Window)
    (slots : ℤ) (seed numExpert : ℕ) : Except String Comparison := do
  let calCounts := censusFromCalls calCalls cal
  let (evalRows, skipped) ← evalRowsFromCalls evalCalls eval
  let layerKeys := sortedDistinct (calCounts.map (fun cell => cell.1.1) ++ evalRows.map Prod.fst)
  let freqSets := staticSetsFrequency calCounts slots
  let splitSets := staticSetsSplitmix64 layerKeys slots numExpert seed
  return {
    staticSplitmix64 := hitRate evalRows splitSets
    staticFrequency := hitRate evalRows freqSets
    lruPerLayer := Replay.lruHitRate
      (evalRows.map fun row => ((row.1 : ℤ), row.2.map Int.ofNat)) slots
    batchedCallsSkipped := skipped
    layers := layerKeys.length
    layersWhereSeedsAgree := layerKeys.countP fun lk =>
      (hotOf freqSets lk).toFinset = (hotOf splitSets lk).toFinset }

/-- Whether a calibration that starts below reaches into the evaluation. -/
def rangesOverlap (cal : Window) (evalLo : ℤ) : Bool := !(evalLo ≥ cal.toSeq.getD (2 ^ 62))

/-- A point of the convergence curve. -/
structure Point where
  calibCalls : ℕ
  layersChanged : Option ℕ
  hitRate : ℚ
  accesses : ℕ
  hotCells : ℕ

/-- The last call of each growing head of the calibration. -/
def headCuts (calls : List CallRow) (cal : Window) (nPoints : ℕ) : List ℕ :=
  let seqs := sortedDistinct ((calls.filter cal.selects).map CallRow.seq)
  if seqs = [] then []
  else (List.range nPoints).map fun i =>
    seqs.getD (min (seqs.length - 1) (seqs.length * (i + 1) / nPoints)) 0

/-- The head up to a call. -/
def headWindow (cal : Window) (cut : ℕ) : Window := ⟨cal.fromSeq, some (cut + 1)⟩

def seriesFrom (calls : List CallRow) (evalRows : List (ℕ × List ℕ)) (slots : ℤ) (cal : Window) :
    List ℕ → Option (List (ℕ × List ℕ)) → List Point
  | [], _ => []
  | cut :: cuts, prev =>
      let seedSets := staticSetsFrequency (censusFromCalls calls (headWindow cal cut)) slots
      let changed := prev.map fun prev =>
        (sortedDistinct (prev.map Prod.fst ++ seedSets.map Prod.fst)).countP fun lk =>
          (hotOf prev lk).toFinset ≠ (hotOf seedSets lk).toFinset
      let scored := Policy.hitRate evalRows seedSets
      ⟨cut + 1, changed, scored.1, scored.2.2, (seedSets.map fun entry => entry.2.length).sum⟩ ::
        seriesFrom calls evalRows slots cal cuts (some seedSets)

/-- `convergence_series`. -/
def convergenceSeries (calls : List CallRow) (evalRows : List (ℕ × List ℕ)) (slots : ℤ)
    (nPoints : ℕ) (cal : Window) : List Point :=
  seriesFrom calls evalRows slots cal (headCuts calls cal nPoints) none

/-! ## The accesses on either side -/

/-- The accesses of the selected calls under their keys. -/
def windowEntries (calls : List CallRow) (window : Window) : List (ℕ × ℕ) :=
  (calls.filter window.selects).flatMap fun call => call.ids.map (call.layerKey, ·)

theorem censusFromCalls_eq (calls : List CallRow) (window : Window) :
    censusFromCalls calls window = tally (windowEntries calls window) := by
  rw [censusFromCalls, tally, windowEntries, List.foldl_flatMap, List.foldl_filter]
  simp only [List.foldl_map]

/-- A call of one token has one chunk, which is all of its ids. -/
theorem splitTopkChunks_single {ids chunk : List ℕ} {topK : ℕ}
    (h : splitTopkChunks ids topK = .ok [chunk]) : chunk = ids := by
  rw [splitTopkChunks, bind_ok] at h
  obtain ⟨_, hpos, h⟩ := h
  obtain ⟨_, hlength, h⟩ := bind_ok.mp h
  have hpos := (ensure_ok _ _ _).mp hpos
  have hmul := (ensure_ok _ _ _).mp hlength
  have hchunks := Except.ok.inj h
  have hone : ids.length / topK = 1 := by simpa using congrArg List.length hchunks
  have htop : ids.length = topK := by
    have := Nat.div_add_mod ids.length topK
    rw [hone, hmul.2] at this
    omega
  rw [hone] at hchunks
  have hfirst : (ids.drop (0 * topK)).take topK = chunk := (List.cons.inj hchunks).1
  rw [← hfirst, Nat.zero_mul, List.drop_zero, ← htop, List.take_length]

/-- One scored call: either its accesses are all scored, or it is counted as skipped. -/
theorem evalCall_ok {window : Window} {state next : List (ℕ × List ℕ) × ℕ} {call : CallRow}
    (h : evalCall window state call = .ok next) :
    state.2 ≤ next.2 ∧ (next.2 = state.2 → (rowEntries next.1).Perm
      (rowEntries state.1 ++ windowEntries [call] window)) := by
  rw [evalCall] at h
  by_cases hselects : window.selects call
  · rw [if_pos hselects] at h
    obtain ⟨chunks, hchunks, h⟩ := bind_ok.mp h
    have hentries : windowEntries [call] window = call.ids.map (call.layerKey, ·) := by
      simp [windowEntries, hselects]
    split at h
    · next chunk =>
      obtain rfl := splitTopkChunks_single hchunks
      rw [← Except.ok.inj h]
      refine ⟨le_rfl, fun _ => ?_⟩
      rw [hentries]
      have hsorted := (List.perm_insertionSort (· ≤ ·) call.ids).map (call.layerKey, ·)
      simpa [rowEntries] using hsorted.append_left (rowEntries state.1)
    · rw [← Except.ok.inj h]
      exact ⟨Nat.le_succ _, fun heq => absurd heq (Nat.succ_ne_self _)⟩
  · rw [if_neg hselects] at h
    have hentries : windowEntries [call] window = [] := by simp [windowEntries, hselects]
    rw [← Except.ok.inj h, hentries, List.append_nil]
    exact ⟨le_rfl, fun _ => List.Perm.refl _⟩

theorem foldlM_evalCall {window : Window} {calls : List CallRow}
    {state final : List (ℕ × List ℕ) × ℕ}
    (h : calls.foldlM (evalCall window) state = .ok final) :
    state.2 ≤ final.2 ∧ (final.2 = state.2 → (rowEntries final.1).Perm
      (rowEntries state.1 ++ windowEntries calls window)) := by
  induction calls generalizing state with
  | nil =>
      rw [← Except.ok.inj h]
      exact ⟨le_rfl, fun _ => List.Perm.of_eq (List.append_nil _).symm⟩
  | cons call calls ih =>
      rw [List.foldlM_cons] at h
      obtain ⟨next, hnext, h⟩ := bind_ok.mp h
      obtain ⟨hle, hstep⟩ := evalCall_ok hnext
      obtain ⟨hle', hrest⟩ := ih h
      refine ⟨hle.trans hle', fun heq => ?_⟩
      have hsplit : windowEntries (call :: calls) window =
          windowEntries [call] window ++ windowEntries calls window := by
        rw [windowEntries, windowEntries, windowEntries, ← List.flatMap_append,
          ← List.filter_append, List.singleton_append]
      rw [hsplit, ← List.append_assoc]
      exact (hrest (by omega)).trans ((hstep (by omega)).append_right _)

/-- Where no call is batched the rows hold the accesses of the census. -/
theorem evalRowsFromCalls_ok {calls : List CallRow} {window : Window} {rows : List (ℕ × List ℕ)}
    (h : evalRowsFromCalls calls window = .ok (rows, 0)) :
    (rowEntries rows).Perm (windowEntries calls window) :=
  ((foldlM_evalCall h).2 rfl).trans (((sortBy_perm _ _).filter _).flatMap_right _)

/-! ## In-sample -/

theorem hitRate_eq (rows sets : List (ℕ × List ℕ)) :
    hitRate rows sets =
      (((rowEntries rows).countP fun entry => entry.2 ∈ (hotOf sets entry.1).toFinset : ℕ) /
          ((rowEntries rows).length : ℚ),
        (rowEntries rows).countP fun entry => entry.2 ∈ (hotOf sets entry.1).toFinset,
        (rowEntries rows).length) := by
  have hcounts := foldl_rowEntries sets rows (0, 0)
  rw [Nat.zero_add, Nat.zero_add] at hcounts
  simp only [hitRate, hcounts]
  refine Prod.ext ?_ rfl
  dsimp only
  split
  · rfl
  · next h => rw [not_not.mp h, Nat.cast_zero, div_zero]

theorem staticSetsFrequency_eq (entries : List (ℕ × ℕ)) (slots : ℤ) :
    staticSetsFrequency (tally entries) slots = hotSet (max slots 0).toNat entries := by
  have hlayers : ∀ v, v ∈ (tally entries).map (fun cell => cell.1.1) ↔
      v ∈ entries.map Prod.fst := by
    intro v
    have hfst : (fun cell : (ℕ × ℕ) × ℕ => cell.1.1) = Prod.fst ∘ Prod.fst := rfl
    rw [hfst, ← List.map_map, List.mem_map, List.mem_map]
    exact exists_congr fun k => and_congr_left' mem_tally_keys
  rw [staticSetsFrequency, hotSet, sortedDistinct_congr hlayers]
  refine List.map_congr_left fun lk _ => ?_
  rw [mostFrequent, byCount_congr (nodup_tally_keys _) (filterMap_tally_perm lk entries)]

theorem card_staticSetSplitmix64 (layerKey : ℕ) (slots : ℤ) (numExpert seed : ℕ) :
    (staticSetSplitmix64 layerKey slots numExpert seed).toFinset.card ≤ (max slots 0).toNat := by
  refine (List.toFinset_card_le _).trans ?_
  rw [staticSetSplitmix64]
  split
  · exact Nat.zero_le _
  · rw [smallestRanked_length]
    omega

theorem card_hotOf_splitmix64 (layerKeys : List ℕ) (slots : ℤ) (numExpert seed lk : ℕ) :
    (hotOf (staticSetsSplitmix64 layerKeys slots numExpert seed) lk).toFinset.card ≤
      (max slots 0).toNat := by
  rw [hotOf, staticSetsSplitmix64]
  by_cases hlk : lk ∈ layerKeys
  · rw [List.lookup_graph _ hlk, Option.getD_some]
    exact card_staticSetSplitmix64 lk slots numExpert seed
  · have hnone : (layerKeys.map fun lk =>
        (lk, staticSetSplitmix64 lk slots numExpert seed)).lookup lk = none := by
      simp only [List.lookup_eq_none_iff, List.mem_map (f := fun lk : ℕ =>
        (lk, staticSetSplitmix64 lk slots numExpert seed))]
      rintro _ ⟨l, hl, rfl⟩
      exact bne_iff_ne.mpr fun h : lk = l => hlk (h ▸ hl)
    rw [hnone]
    exact Nat.zero_le _

/-- Scored on the calls of its own census, the choice by frequency is beaten by no choice of so many
experts a layer. -/
theorem compare_inSample {calls : List CallRow} {window : Window} {slots : ℤ}
    {seed numExpert : ℕ} {result : Comparison}
    (h : compare calls window calls window slots seed numExpert = .ok result)
    (hskipped : result.batchedCallsSkipped = 0) :
    result.staticSplitmix64.1 ≤ result.staticFrequency.1 ∧
      ∃ rows, evalRowsFromCalls calls window = .ok (rows, 0) ∧
        ∀ sets, (∀ lk, ((hotOf sets lk).toFinset.card : ℤ) ≤ max slots 0) →
          (hitRate rows sets).1 ≤ result.staticFrequency.1 := by
  rw [compare] at h
  obtain ⟨⟨rows, skipped⟩, hrows, h⟩ := bind_ok.mp h
  have hresult := Except.ok.inj h
  obtain rfl : skipped = 0 := by rw [← hskipped, ← hresult]
  have hfrequency : result.staticFrequency =
      hitRate rows (hotSet (max slots 0).toNat (windowEntries calls window)) := by
    rw [← hresult, censusFromCalls_eq, staticSetsFrequency_eq]
  have hperm := evalRowsFromCalls_ok hrows
  have hbest : ∀ sets, (∀ lk, (hotOf sets lk).toFinset.card ≤ (max slots 0).toNat) →
      (hitRate rows sets).1 ≤ result.staticFrequency.1 := by
    intro sets hsets
    rw [hfrequency, hitRate_eq, hitRate_eq]
    refine div_le_div_of_nonneg_right (Nat.cast_le.mpr ?_) (Nat.cast_nonneg _)
    rw [hperm.countP_eq, hperm.countP_eq]
    exact countP_hotSet_le hsets
  refine ⟨?_, rows, hrows, fun sets hsets => hbest sets fun lk => ?_⟩
  · rw [← hresult] at hbest ⊢
    exact hbest _ (card_hotOf_splitmix64 _ slots numExpert seed)
  · have := hsets lk
    omega

/-- Three calls of two layers, a token each. -/
def threeCalls : List CallRow := [⟨0, 7, 2, [3, 1]⟩, ⟨1, 9, 2, [0, 2]⟩, ⟨2, 7, 2, [3, 2]⟩]

theorem compare_inSample_three : ∃ result,
    compare threeCalls ⟨0, none⟩ threeCalls ⟨0, none⟩ 1 5 4 = .ok result ∧
      result.staticSplitmix64.1 ≤ result.staticFrequency.1 ∧
      ∃ rows, evalRowsFromCalls threeCalls ⟨0, none⟩ = .ok (rows, 0) ∧
        ∀ sets, (∀ lk, ((hotOf sets lk).toFinset.card : ℤ) ≤ max 1 0) →
          (hitRate rows sets).1 ≤ result.staticFrequency.1 := by
  have hresult : ∃ result, compare threeCalls ⟨0, none⟩ threeCalls ⟨0, none⟩ 1 5 4 = .ok result ∧
      result.batchedCallsSkipped = 0 := ⟨_, rfl, rfl⟩
  obtain ⟨result, hresult, hskipped⟩ := hresult
  exact ⟨result, hresult, compare_inSample hresult hskipped⟩

/-! ## Held out -/

theorem mem_headCuts {calls : List CallRow} {cal : Window} {nPoints cut : ℕ}
    (h : cut ∈ headCuts calls cal nPoints) : ∃ call ∈ calls, cal.selects call ∧ call.seq = cut := by
  rw [headCuts] at h
  split at h
  · exact absurd h List.not_mem_nil
  · next hseqs =>
    obtain ⟨i, -, rfl⟩ := List.mem_map.mp h
    set seqs := sortedDistinct ((calls.filter cal.selects).map CallRow.seq) with hdef
    have hindex : min (seqs.length - 1) (seqs.length * (i + 1) / nPoints) < seqs.length :=
      (min_le_left _ _).trans_lt (Nat.sub_lt (List.length_pos_of_ne_nil hseqs) Nat.one_pos)
    rw [List.getD_eq_getElem _ _ hindex]
    have hmem := mem_sortedDistinct.mp (List.getElem_mem hindex)
    obtain ⟨call, hcall, hseq⟩ := List.mem_map.mp hmem
    obtain ⟨hcall, hselects⟩ := List.mem_filter.mp hcall
    exact ⟨call, hcall, hselects, hseq⟩

/-- Each point is scored by the census of its own head. -/
theorem mem_seriesFrom {calls : List CallRow} {evalRows : List (ℕ × List ℕ)} {slots : ℤ}
    {cal : Window} {cuts : List ℕ} {prev : Option (List (ℕ × List ℕ))} {point : Point}
    (h : point ∈ seriesFrom calls evalRows slots cal cuts prev) :
    ∃ cut ∈ cuts, point.calibCalls = cut + 1 ∧ point.hitRate = (hitRate evalRows
      (staticSetsFrequency (censusFromCalls calls (headWindow cal cut)) slots)).1 := by
  induction cuts generalizing prev with
  | nil => exact absurd h List.not_mem_nil
  | cons cut cuts ih =>
      rw [seriesFrom] at h
      rcases List.mem_cons.mp h with rfl | h
      · exact ⟨cut, List.mem_cons_self, rfl, rfl⟩
      · obtain ⟨other, hother, hpoint⟩ := ih h
        exact ⟨other, List.mem_cons_of_mem _ hother, hpoint⟩

theorem selects_iff {window : Window} {call : CallRow} :
    window.selects call ↔
      window.fromSeq ≤ call.seq ∧ ∀ toSeq, window.toSeq = some toSeq → (call.seq : ℤ) < toSeq := by
  rw [Window.selects, Bool.and_eq_true, decide_eq_true_eq]
  cases window.toSeq with
  | none => simp
  | some toSeq => simp

/-- Ranges that pass the guard share no call. -/
theorem not_selects_of_heldOut {cal eval : Window} (hguard : rangesOverlap cal eval.fromSeq = false)
    {call : CallRow} (hseq : call.seq < 2 ^ 62) (h : cal.selects call) : ¬ eval.selects call := by
  intro heval
  have hguard : cal.toSeq.getD (2 ^ 62) ≤ eval.fromSeq := by simpa [rangesOverlap] using hguard
  have hlow := (selects_iff.mp heval).1
  have hhigh := (selects_iff.mp h).2
  cases hto : cal.toSeq with
  | none =>
      rw [hto, Option.getD_none] at hguard
      omega
  | some toSeq =>
      rw [hto, Option.getD_some] at hguard
      have := hhigh toSeq hto
      omega

/-- Calls that a window does not select may be left out of its census. -/
theorem censusFromCalls_filter {calls : List CallRow} {window : Window} {p : CallRow → Bool}
    (h : ∀ call ∈ calls, window.selects call → p call) :
    censusFromCalls calls window = censusFromCalls (calls.filter p) window := by
  rw [censusFromCalls_eq, censusFromCalls_eq, windowEntries, windowEntries, List.filter_filter]
  congr 2
  refine List.filter_congr fun call hcall => ?_
  cases hselects : window.selects call with
  | false => rfl
  | true => rw [Bool.true_and, h call hcall hselects]

/-- Only the selected calls are scored. -/
theorem evalRowsFromCalls_filter (calls : List CallRow) (window : Window) :
    evalRowsFromCalls (calls.filter window.selects) window = evalRowsFromCalls calls window := by
  rw [evalRowsFromCalls, ← filter_sortBy, List.foldlM_filter, evalRowsFromCalls]
  congr 1
  funext state call
  unfold evalCall
  split <;> rfl

/-- A head of the calibration ends before it, and inside the calibration. -/
theorem headWindow_selects {calls : List CallRow} {cal : Window} {nPoints cut : ℕ}
    (hcut : cut ∈ headCuts calls cal nPoints) {call : CallRow}
    (h : (headWindow cal cut).selects call) : call.seq < cut + 1 ∧ cal.selects call := by
  obtain ⟨last, hlast, hselects, rfl⟩ := mem_headCuts hcut
  obtain ⟨hlow, hhigh⟩ := selects_iff.mp h
  have hbelow := hhigh _ rfl
  refine ⟨by omega, selects_iff.mpr ⟨hlow, fun toSeq hto => ?_⟩⟩
  have := (selects_iff.mp hselects).2 toSeq hto
  omega

/-- Under the guard the comparison and every point of the curve are calibrated without the calls
that they are scored on. -/
theorem convergence_heldOut {calls : List CallRow} {rows : List (ℕ × List ℕ)} {slots : ℤ}
    {nPoints skipped seed numExpert : ℕ} {cal eval : Window}
    (hguard : rangesOverlap cal eval.fromSeq = false) (hseq : ∀ call ∈ calls, call.seq < 2 ^ 62)
    (hrows : evalRowsFromCalls calls eval = .ok (rows, skipped)) :
    let scored := calls.filter eval.selects
    let others := calls.filter fun call => !eval.selects call
    (evalRowsFromCalls scored eval = .ok (rows, skipped) ∧
      ∀ call ∈ calls, cal.selects call → ¬ eval.selects call) ∧
    (∃ result, compare calls cal calls eval slots seed numExpert = .ok result ∧
      result.staticFrequency =
        hitRate rows (staticSetsFrequency (censusFromCalls calls cal) slots) ∧
      censusFromCalls calls cal = censusFromCalls others cal) ∧
    ∀ point ∈ convergenceSeries calls rows slots nPoints cal, ∃ cut, point.calibCalls = cut + 1 ∧
      point.hitRate = (hitRate rows
        (staticSetsFrequency (censusFromCalls calls (headWindow cal cut)) slots)).1 ∧
      censusFromCalls calls (headWindow cal cut) =
        censusFromCalls others (headWindow cal cut) ∧
      ∀ call ∈ calls, (headWindow cal cut).selects call →
        call.seq < point.calibCalls ∧ cal.selects call ∧ ¬ eval.selects call := by
  intro scored others
  have hapart : ∀ call ∈ calls, cal.selects call → ¬ eval.selects call :=
    fun call hcall => not_selects_of_heldOut hguard (hseq call hcall)
  have hothers : ∀ window : Window, (∀ call, window.selects call → cal.selects call) →
      censusFromCalls calls window = censusFromCalls others window := by
    intro window hwindow
    refine censusFromCalls_filter fun call hcall hselects => ?_
    simpa using hapart call hcall (hwindow call hselects)
  refine ⟨⟨(evalRowsFromCalls_filter calls eval).trans hrows, hapart⟩,
    ⟨_, by rw [compare, hrows]; rfl, rfl, hothers cal fun _ => id⟩, fun point hpoint => ?_⟩
  obtain ⟨cut, hcut, hcalls, hrate⟩ := mem_seriesFrom hpoint
  refine ⟨cut, hcalls, hrate, hothers _ fun call hhead => (headWindow_selects hcut hhead).2, ?_⟩
  intro call hcall hhead
  obtain ⟨hbefore, hcal⟩ := headWindow_selects hcut hhead
  exact ⟨hcalls ▸ hbefore, hcal, hapart call hcall hcal⟩

theorem convergence_heldOut_three :
    (evalRowsFromCalls (threeCalls.filter (Window.selects ⟨2, none⟩)) ⟨2, none⟩ =
        .ok ([(7, [2, 3])], 0) ∧
      ∀ call ∈ threeCalls, Window.selects ⟨0, some 2⟩ call → ¬ Window.selects ⟨2, none⟩ call) ∧
    (∃ result, compare threeCalls ⟨0, some 2⟩ threeCalls ⟨2, none⟩ 1 5 4 = .ok result ∧
      result.staticFrequency =
        hitRate [(7, [2, 3])] (staticSetsFrequency (censusFromCalls threeCalls ⟨0, some 2⟩) 1) ∧
      censusFromCalls threeCalls ⟨0, some 2⟩ = censusFromCalls
        (threeCalls.filter fun call => !Window.selects ⟨2, none⟩ call) ⟨0, some 2⟩) ∧
    ∀ point ∈ convergenceSeries threeCalls [(7, [2, 3])] 1 8 ⟨0, some 2⟩, ∃ cut,
      point.calibCalls = cut + 1 ∧
      point.hitRate = (hitRate [(7, [2, 3])] (staticSetsFrequency
        (censusFromCalls threeCalls (headWindow ⟨0, some 2⟩ cut)) 1)).1 ∧
      censusFromCalls threeCalls (headWindow ⟨0, some 2⟩ cut) = censusFromCalls
        (threeCalls.filter fun call => !Window.selects ⟨2, none⟩ call)
          (headWindow ⟨0, some 2⟩ cut) ∧
      ∀ call ∈ threeCalls, (headWindow ⟨0, some 2⟩ cut).selects call →
        call.seq < point.calibCalls ∧ Window.selects ⟨0, some 2⟩ call ∧
          ¬ Window.selects ⟨2, none⟩ call :=
  convergence_heldOut (by decide) (by decide) rfl

end Arcint.Fill.Policy
