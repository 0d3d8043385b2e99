import Arcint.Foundation.Checks
import Arcint.Foundation.Tally
import Mathlib.Algebra.Order.Field.Basic
import Mathlib.Algebra.Order.Ring.Rat

/-! # The census of routed experts

What a routing trace says of its experts: how often each layer routed to each of them, and which of
them a layer of so many slots should hold. The trace is a file of rows, or the calls that the plugin
itself wrote down.
-/

namespace Arcint.Fill.Census

open Foundation

/-- A row of a routing trace; a row without an expert is refused where rows are read. -/
structure TraceRow where
  token : ℕ
  layer : ℕ
  experts : List ℕ
  experts_ne : experts ≠ []

/-- The accesses that the rows stand for. -/
def accesses (rows : List TraceRow) : List (ℕ × ℕ) :=
  rows.flatMap fun row => row.experts.map (row.layer, ·)

/-- The counts of the accesses, in the order of first occurrence. -/
def histogram (rows : List TraceRow) : List ((ℕ × ℕ) × ℕ) :=
  rows.foldl (fun hist row => row.experts.foldl (fun hist e => bump (row.layer, e) hist) hist) []

/-- The cells of a table, sorted by layer and expert. -/
def sortedCells (hist : List ((ℕ × ℕ) × ℕ)) : List (ℕ × ℕ × ℕ) :=
  (sortBy toLex (hist.map Prod.fst)).map fun key => (key.1, key.2, (hist.lookup key).getD 0)

/-- `[(layer, expert, count)]` sorted by layer and expert. -/
def canonicalSummary (rows : List TraceRow) : List (ℕ × ℕ × ℕ) := sortedCells (histogram rows)

/-- The layer's experts with their counts, the most routed first. -/
def frequencyRank (rows : List TraceRow) (layer : Option ℕ) : List (ℕ × ℕ) :=
  byCount (rows.foldl (fun hist row =>
    if layer.any (row.layer ≠ ·) then hist
    else row.experts.foldl (fun hist e => bump e hist) hist) [])

/-- The distinct values, ascending. -/
def sortedDistinct (values : List ℕ) : List ℕ := values.dedup.insertionSort (· ≤ ·)

/-- The top of each layer's ranking of the trace's rows. -/
def selectHotSet (rows : List TraceRow) (slotsPerLayer : ℤ) :
    Except String (List (ℕ × List ℕ)) := do
  ensure (0 ≤ slotsPerLayer) "slots_per_layer must be >= 0"
  return (sortedDistinct (rows.map TraceRow.layer)).map fun lay =>
    (lay, ((frequencyRank rows (some lay)).take slotsPerLayer.toNat).map Prod.fst)

/-- The cells of a layer. -/
def cellsOf (lay : ℕ) (counts : List (ℕ × ℕ × ℕ)) : List (ℕ × ℕ) :=
  counts.filterMap fun cell => if cell.1 = lay then some cell.2 else none

/-- The top of each layer's ranking of a summary's cells. -/
def selectHotSetFromCounts (counts : List (ℕ × ℕ × ℕ)) (slotsPerLayer : ℤ) :
    Except String (List (ℕ × List ℕ)) := do
  ensure (0 ≤ slotsPerLayer) "slots_per_layer must be >= 0"
  return (sortedDistinct (counts.map Prod.fst)).map fun lay =>
    (lay, ((byCount (cellsOf lay counts)).take slotsPerLayer.toNat).map Prod.fst)

/-- A layer's experts of a hot set. -/
def hotOf (hot : List (ℕ × List ℕ)) (lay : ℕ) : List ℕ := (hot.lookup lay).getD []

/-- Hits and accesses, a row at a time. -/
def coverageCounts (rows : List TraceRow) (hot : List (ℕ × List ℕ)) : ℕ × ℕ :=
  rows.foldl (fun counts row =>
    let hs := (hotOf hot row.layer).toFinset
    row.experts.foldl (fun counts e =>
      (if e ∈ hs then counts.1 + 1 else counts.1, counts.2 + 1)) counts) (0, 0)

/-- The fraction of the accesses whose expert is in its layer's hot set. -/
def hotCoverage (rows : List TraceRow) (hot : List (ℕ × List ℕ)) : ℚ :=
  let counts := coverageCounts rows hot
  if counts.2 ≠ 0 then counts.1 / counts.2 else 0

/-! ## The plugin's calls -/

/-- A call of the plugin's trace: all its tokens' experts in one list. -/
structure CallRow where
  seq : ℕ
  layerKey : ℕ
  topK : ℕ
  ids : List ℕ

/-- The ids cut into one chunk a token. -/
def splitTopkChunks (ids : List ℕ) (topK : ℕ) : Except String (List (List ℕ)) := do
  ensure (0 < topK) ("top_k must be > 0, got " ++ toString topK)
  ensure (ids.length ≠ 0 ∧ ids.length % topK = 0)
    ("ids length " ++ toString ids.length ++ " is not a positive multiple of top_k " ++
      toString topK ++ "; refusing rather than truncating")
  return (List.range (ids.length / topK)).map fun i => (ids.drop (i * topK)).take topK

/-- The decoder layer of each layer key: the order of the keys, or an exported map's inverse. -/
def layerKeyIndexMap (layerKeys : List ℕ) (explicit : Option (List (ℕ × ℕ))) :
    Except String (List (ℕ × ℕ)) :=
  let keys := sortedDistinct layerKeys
  match explicit with
  | none => .ok keys.zipIdx
  | some idxToKey => do
      let vals := idxToKey.map Prod.snd
      ensure vals.Nodup ("decoder indices are not unique in the map: " ++ toString vals)
      let inv := idxToKey.map fun entry => (entry.2, entry.1)
      let missing := keys.filter fun k => k ∉ inv.map Prod.fst
      ensure (missing = [])
        ("trace layer_key(s) absent from the exported map: " ++ toString missing ++
          "; refusing (the map and the artifact disagree)")
      return inv

/-- The half-open range of calls that a census is about. -/
structure Window where
  fromSeq : ℤ
  toSeq : Option ℤ

/-- An inverted range selects nothing and is refused. -/
def checkRange (window : Window) : Except String Unit :=
  match window.toSeq with
  | none => .ok ()
  | some toSeq =>
      ensure (window.fromSeq ≤ toSeq)
        ("call_seq range [" ++ toString window.fromSeq ++ ", " ++ toString toSeq ++
          ") is inverted; the ceiling is exclusive and must be >= the floor")

def Window.selects (window : Window) (call : CallRow) : Bool :=
  window.fromSeq ≤ (call.seq : ℤ) && window.toSeq.all ((call.seq : ℤ) < ·)

/-- Why a census without a call is refused. -/
def emptyCensus (calls : ℕ) (window : Window) : String :=
  let place := match window.toSeq with
    | none => "call_seq >= " ++ toString window.fromSeq
    | some toSeq =>
        "call_seq in [" ++ toString window.fromSeq ++ ", " ++ toString toSeq ++ ")"
  let what := if calls = 0 then "the call trace is empty"
    else place ++ " selects none of the " ++ toString calls ++ " call(s)"
  what ++ "; refusing to emit an empty census (not a census)"

/-- What is counted beside the histogram. -/
structure Meta where
  calls : ℕ
  callsSelected : ℕ
  batchedCalls : ℕ
  decodeCalls : ℕ
  tokensObserved : ℕ
  accesses : ℕ
  window : Window
  layers : ℕ

/-- The histogram and the counts after some of the calls. -/
structure CallScan where
  hist : List ((ℕ × ℕ) × ℕ)
  batched : ℕ
  decode : ℕ
  tokens : ℕ
  accesses : ℕ

/-- One call: every id of every token is an access. -/
def scanCall (lkIndex : List (ℕ × ℕ)) (scan : CallScan) (call : CallRow) :
    Except String CallScan := do
  let chunks ← splitTopkChunks call.ids call.topK
  let li := (lkIndex.lookup call.layerKey).getD 0
  return {
    hist := call.ids.foldl (fun hist e => bump (li, e) hist) scan.hist
    batched := if 1 < chunks.length then scan.batched + 1 else scan.batched
    decode := if 1 < chunks.length then scan.decode else scan.decode + 1
    tokens := scan.tokens + chunks.length
    accesses := scan.accesses + call.ids.length }

/-- The census of every id of every selected call, and what is said about it. -/
def censusFromCallTrace (calls : List CallRow) (layerKeyMap : Option (List (ℕ × ℕ)))
    (window : Window) : Except String (List (ℕ × ℕ × ℕ) × Meta) := do
  checkRange window
  let selected := calls.filter window.selects
  ensure (selected ≠ []) (emptyCensus calls.length window)
  let lkIndex ← layerKeyIndexMap (selected.map CallRow.layerKey) layerKeyMap
  let scan ← selected.foldlM (scanCall lkIndex) ⟨[], 0, 0, 0, 0⟩
  return (sortedCells scan.hist,
    { calls := calls.length
      callsSelected := selected.length
      batchedCalls := scan.batched
      decodeCalls := scan.decode
      tokensObserved := scan.tokens
      accesses := scan.accesses
      window := window
      layers := lkIndex.length })

/-! ## Summaries -/

@[simp] theorem accesses_cons (row : TraceRow) (rows : List TraceRow) :
    accesses (row :: rows) = row.experts.map (row.layer, ·) ++ accesses rows := rfl

theorem histogram_eq (rows : List TraceRow) : histogram rows = tally (accesses rows) := by
  rw [histogram, tally, accesses, List.foldl_flatMap]
  simp only [List.foldl_map]

theorem sortedDistinct_congr {l l' : List ℕ} (h : ∀ v, v ∈ l ↔ v ∈ l') :
    sortedDistinct l = sortedDistinct l' := by
  have hperm : l.dedup.Perm l'.dedup :=
    (List.perm_ext_iff_of_nodup (List.nodup_dedup l) (List.nodup_dedup l')).mpr fun v => by
      rw [List.mem_dedup, List.mem_dedup, h]
  exact List.Perm.eq_of_pairwise' (List.pairwise_insertionSort _ _)
    (List.pairwise_insertionSort _ _)
    ((List.perm_insertionSort _ _).trans (hperm.trans (List.perm_insertionSort _ _).symm))

@[simp] theorem mem_sortedDistinct {l : List ℕ} {v : ℕ} : v ∈ sortedDistinct l ↔ v ∈ l := by
  rw [sortedDistinct, List.mem_insertionSort, List.mem_dedup]

theorem nodup_sortedDistinct (l : List ℕ) : (sortedDistinct l).Nodup :=
  (List.perm_insertionSort _ _).nodup_iff.mpr (List.nodup_dedup l)

/-- A summary holds the cells of the table. -/
theorem sortedCells_perm (entries : List (ℕ × ℕ)) :
    (sortedCells (tally entries)).Perm
      ((tally entries).map fun cell => (cell.1.1, cell.1.2, cell.2)) := by
  have hcells : ∀ cell ∈ tally entries,
      (cell.1.1, cell.1.2, ((tally entries).lookup cell.1).getD 0) =
        (cell.1.1, cell.1.2, cell.2) := by
    intro cell hcell
    rw [lookup_tally hcell, Option.getD_some]
  refine ((sortBy_perm _ _).map _).trans ?_
  rw [List.map_map]
  exact List.Perm.of_eq (List.map_congr_left hcells)

theorem cellsOf_sortedCells_perm (lay : ℕ) (entries : List (ℕ × ℕ)) :
    (cellsOf lay (sortedCells (tally entries))).Perm
      (tally (entries.filterMap (part lay))) := by
  refine ((sortedCells_perm entries).filterMap _).trans ?_
  refine List.Perm.trans (List.Perm.of_eq ?_) (filterMap_tally_perm lay entries)
  rw [List.filterMap_map]
  refine List.filterMap_congr fun cell _ => ?_
  rw [part]
  split
  · next h => simp [h]
  · next h => simp [h]

theorem byCount_cellsOf (lay : ℕ) (entries : List (ℕ × ℕ)) :
    byCount (cellsOf lay (sortedCells (tally entries))) =
      byCount (tally (entries.filterMap (part lay))) :=
  (byCount_congr (nodup_tally_keys _) (cellsOf_sortedCells_perm lay entries)).symm

theorem frequencyRank_eq (rows : List TraceRow) (lay : ℕ) :
    frequencyRank rows (some lay) = byCount (tally ((accesses rows).filterMap (part lay))) := by
  rw [frequencyRank]
  congr 1
  rw [tally]
  suffices h : ∀ hist : List (ℕ × ℕ), rows.foldl (fun hist row =>
      if (some lay).any (row.layer ≠ ·) then hist
      else row.experts.foldl (fun hist e => bump e hist) hist) hist =
        ((accesses rows).filterMap (part lay)).foldl (fun table key => bump key table) hist from
    h []
  induction rows with
  | nil => exact fun _ => rfl
  | cons row rows ih =>
      intro hist
      rw [List.foldl_cons, ih, accesses_cons, List.filterMap_append, filterMap_part_map,
        List.foldl_append]
      by_cases h : row.layer = lay
      · simp [h]
      · simp [h]

theorem mem_layers_iff (rows : List TraceRow) (lay : ℕ) :
    lay ∈ rows.map TraceRow.layer ↔ lay ∈ (accesses rows).map Prod.fst := by
  simp only [accesses, List.mem_map, List.mem_flatMap]
  constructor
  · rintro ⟨row, hrow, rfl⟩
    obtain ⟨e, he⟩ := List.exists_mem_of_ne_nil _ row.experts_ne
    exact ⟨(row.layer, e), ⟨row, hrow, e, he, rfl⟩, rfl⟩
  · rintro ⟨_, ⟨row, hrow, e, -, rfl⟩, rfl⟩
    exact ⟨row, hrow, rfl⟩

/-- The hot set of a summary of accesses. -/
def hotSet (slots : ℕ) (entries : List (ℕ × ℕ)) : List (ℕ × List ℕ) :=
  (sortedDistinct (entries.map Prod.fst)).map fun lay =>
    (lay, mostFrequent slots (entries.filterMap (part lay)))

theorem selectHotSet_eq (rows : List TraceRow) {slots : ℤ} (hslots : 0 ≤ slots) :
    selectHotSet rows slots = .ok (hotSet slots.toNat (accesses rows)) := by
  rw [selectHotSet, ensure, if_pos hslots, hotSet,
    sortedDistinct_congr (mem_layers_iff rows)]
  simp only [frequencyRank_eq, mostFrequent]
  rfl

theorem selectHotSetFromCounts_eq (entries : List (ℕ × ℕ)) {slots : ℤ} (hslots : 0 ≤ slots) :
    selectHotSetFromCounts (sortedCells (tally entries)) slots =
      .ok (hotSet slots.toNat entries) := by
  have hlayers : ∀ v, v ∈ (sortedCells (tally entries)).map Prod.fst ↔
      v ∈ entries.map Prod.fst := by
    intro v
    rw [((sortedCells_perm entries).map Prod.fst).mem_iff, List.map_map]
    have hfst : (Prod.fst ∘ fun cell : (ℕ × ℕ) × ℕ => (cell.1.1, cell.1.2, cell.2)) =
        Prod.fst ∘ Prod.fst := rfl
    rw [hfst, ← List.map_map, List.mem_map, List.mem_map]
    exact exists_congr fun k => and_congr_left' mem_tally_keys
  rw [selectHotSetFromCounts, ensure, if_pos hslots, hotSet, sortedDistinct_congr hlayers]
  simp only [byCount_cellsOf, mostFrequent]
  rfl

/-! ## Coverage -/

/-- The accesses of rows of experts. -/
def rowEntries (rows : List (ℕ × List ℕ)) : List (ℕ × ℕ) :=
  rows.flatMap fun row => row.2.map (row.1, ·)

theorem foldl_experts (hot : List ℕ) (experts : List ℕ) (counts : ℕ × ℕ) :
    experts.foldl (fun counts e =>
        (if e ∈ hot.toFinset then counts.1 + 1 else counts.1, counts.2 + 1)) counts =
      (counts.1 + experts.countP (· ∈ hot.toFinset), counts.2 + experts.length) := by
  induction experts generalizing counts with
  | nil => rfl
  | cons e experts ih =>
      rw [List.foldl_cons, ih, List.countP_cons, List.length_cons]
      by_cases h : e ∈ hot.toFinset
      · simp only [h, if_true, decide_true]
        refine Prod.ext ?_ ?_ <;> dsimp only <;> omega
      · simp only [h, if_false, decide_false, Bool.false_eq_true]
        refine Prod.ext ?_ ?_ <;> dsimp only <;> omega

/-- Counting row by row counts the accesses. -/
theorem foldl_rowEntries (hot : List (ℕ × List ℕ)) (rows : List (ℕ × List ℕ)) (counts : ℕ × ℕ) :
    rows.foldl (fun counts row => row.2.foldl (fun counts e =>
        (if e ∈ (hotOf hot row.1).toFinset then counts.1 + 1 else counts.1,
          counts.2 + 1)) counts) counts =
      (counts.1 + (rowEntries rows).countP fun entry => entry.2 ∈ (hotOf hot entry.1).toFinset,
        counts.2 + (rowEntries rows).length) := by
  induction rows generalizing counts with
  | nil => rfl
  | cons row rows ih =>
      rw [List.foldl_cons, foldl_experts, ih, rowEntries, rowEntries, List.flatMap_cons,
        List.countP_append, List.length_append, List.countP_map, List.length_map, Nat.add_assoc,
        Nat.add_assoc]
      rfl

theorem coverageCounts_eq (rows : List TraceRow) (hot : List (ℕ × List ℕ)) :
    coverageCounts rows hot =
      ((accesses rows).countP fun entry => entry.2 ∈ (hotOf hot entry.1).toFinset,
        (accesses rows).length) := by
  have haccesses : accesses rows = rowEntries (rows.map fun row => (row.layer, row.experts)) := by
    rw [rowEntries, List.flatMap_map]
    rfl
  have hfold := foldl_rowEntries hot (rows.map fun row => (row.layer, row.experts)) (0, 0)
  rw [List.foldl_map, Nat.zero_add, Nat.zero_add, ← haccesses] at hfold
  exact hfold

theorem hotCoverage_eq (rows : List TraceRow) (hot : List (ℕ × List ℕ)) :
    hotCoverage rows hot =
      ((accesses rows).countP fun entry => entry.2 ∈ (hotOf hot entry.1).toFinset) /
        (accesses rows).length := by
  rw [hotCoverage, coverageCounts_eq]
  split
  · rfl
  · next h =>
    have hlength : (accesses rows).length = 0 := not_not.mp h
    rw [hlength, Nat.cast_zero, div_zero]

/-- A layer that was never routed has an empty part. -/
theorem hotOf_hotSet (slots : ℕ) (entries : List (ℕ × ℕ)) (lay : ℕ) :
    hotOf (hotSet slots entries) lay = mostFrequent slots (entries.filterMap (part lay)) := by
  rw [hotOf, hotSet]
  by_cases hlay : lay ∈ entries.map Prod.fst
  · rw [List.lookup_graph _ (mem_sortedDistinct.mpr hlay), Option.getD_some]
  · have hpart : entries.filterMap (part lay) = [] := by
      refine List.filterMap_eq_nil_iff.mpr fun entry hentry => ?_
      exact if_neg fun h => hlay (List.mem_map.mpr ⟨entry, hentry, h⟩)
    have hnone : ((sortedDistinct (entries.map Prod.fst)).map fun lay =>
        (lay, mostFrequent slots (entries.filterMap (part lay)))).lookup lay = none := by
      simp only [List.lookup_eq_none_iff, List.mem_map (f := fun lay : ℕ =>
        (lay, mostFrequent slots (entries.filterMap (part lay)))), mem_sortedDistinct]
      rintro _ ⟨l, hl, rfl⟩
      exact bne_iff_ne.mpr fun h : lay = l => hlay (h ▸ hl)
    rw [hnone, hpart, mostFrequent_nil]
    rfl

/-- The hot set serves as many of its own accesses as any choice of as many experts a layer. -/
theorem countP_hotSet_le {entries : List (ℕ × ℕ)} {slots : ℕ} {other : List (ℕ × List ℕ)}
    (hother : ∀ lay, (hotOf other lay).toFinset.card ≤ slots) :
    (entries.countP fun entry => entry.2 ∈ (hotOf other entry.1).toFinset) ≤
      entries.countP fun entry => entry.2 ∈ (hotOf (hotSet slots entries) entry.1).toFinset := by
  refine countP_le_of_parts (p := fun lay e => e ∈ (hotOf other lay).toFinset)
    (q := fun lay e => e ∈ (hotOf (hotSet slots entries) lay).toFinset) fun lay => ?_
  simp only [hotOf_hotSet]
  exact countP_le_mostFrequent _ (hother lay)

theorem hotCoverage_le (rows : List TraceRow) {slots : ℕ} {other : List (ℕ × List ℕ)}
    (hother : ∀ lay, (hotOf other lay).toFinset.card ≤ slots) :
    hotCoverage rows other ≤ hotCoverage rows (hotSet slots (accesses rows)) := by
  rw [hotCoverage_eq, hotCoverage_eq]
  exact div_le_div_of_nonneg_right (Nat.cast_le.mpr (countP_hotSet_le hother)) (Nat.cast_nonneg _)

theorem selectHotSetFromCounts_canonicalSummary (rows : List TraceRow) (slots : ℤ) :
    selectHotSetFromCounts (canonicalSummary rows) slots = selectHotSet rows slots := by
  by_cases hslots : 0 ≤ slots
  · rw [selectHotSet_eq rows hslots, canonicalSummary, histogram_eq,
      selectHotSetFromCounts_eq _ hslots]
  · rw [selectHotSet, selectHotSetFromCounts, ensure, if_neg hslots]
    rfl

/-- A seed from the summary is the seed from the rows, and of all choices of as many experts a layer
it covers most of the trace. -/
theorem selectHotSet_covers (rows : List TraceRow) (slots : ℤ) :
    selectHotSetFromCounts (canonicalSummary rows) slots = selectHotSet rows slots ∧
      ∀ hot, selectHotSet rows slots = .ok hot →
        ∀ other, (∀ lay, ((hotOf other lay).toFinset.card : ℤ) ≤ slots) →
          hotCoverage rows other ≤ hotCoverage rows hot := by
  refine ⟨selectHotSetFromCounts_canonicalSummary rows slots, fun hot hhot other hother => ?_⟩
  by_cases hslots : 0 ≤ slots
  · rw [selectHotSet_eq rows hslots] at hhot
    obtain rfl := Except.ok.inj hhot
    exact hotCoverage_le rows fun lay => by
      have := hother lay
      omega
  · rw [selectHotSet, ensure, if_neg hslots] at hhot
    cases hhot

/-! ## The census of the calls -/

/-- The accesses of the calls, under the decoder layers of their keys. -/
def callEntries (lkIndex : List (ℕ × ℕ)) (calls : List CallRow) : List (ℕ × ℕ) :=
  calls.flatMap fun call => call.ids.map ((lkIndex.lookup call.layerKey).getD 0, ·)

theorem scanCall_hist {lkIndex : List (ℕ × ℕ)} {scan next : CallScan} {call : CallRow}
    (h : scanCall lkIndex scan call = .ok next) :
    next.hist = (call.ids.map ((lkIndex.lookup call.layerKey).getD 0, ·)).foldl
      (fun table key => bump key table) scan.hist := by
  rw [scanCall, bind_ok] at h
  obtain ⟨chunks, -, h⟩ := h
  rw [← Except.ok.inj h, List.foldl_map]

theorem foldlM_scanCall {lkIndex : List (ℕ × ℕ)} {calls : List CallRow} {scan final : CallScan}
    (h : calls.foldlM (scanCall lkIndex) scan = .ok final) :
    final.hist = (callEntries lkIndex calls).foldl (fun table key => bump key table) scan.hist := by
  induction calls generalizing scan with
  | nil => rw [← Except.ok.inj h]; rfl
  | cons call calls ih =>
      rw [List.foldlM_cons, bind_ok] at h
      obtain ⟨next, hnext, h⟩ := h
      rw [ih h, scanCall_hist hnext, callEntries, callEntries, List.flatMap_cons,
        List.foldl_append]

/-- A call without an id is refused. -/
theorem ids_ne_of_scanCall {lkIndex : List (ℕ × ℕ)} {scan next : CallScan} {call : CallRow}
    (h : scanCall lkIndex scan call = .ok next) : call.ids ≠ [] := by
  rw [scanCall, bind_ok] at h
  obtain ⟨chunks, hchunks, -⟩ := h
  rw [splitTopkChunks, bind_ok] at hchunks
  obtain ⟨_, -, hchunks⟩ := hchunks
  rw [bind_ok] at hchunks
  obtain ⟨_, hlength, -⟩ := hchunks
  exact fun hnil => ((ensure_ok _ _ _).mp hlength).1 (by rw [hnil]; rfl)

theorem ids_ne_of_foldlM {lkIndex : List (ℕ × ℕ)} {calls : List CallRow} {scan final : CallScan}
    (h : calls.foldlM (scanCall lkIndex) scan = .ok final) : ∀ call ∈ calls, call.ids ≠ [] := by
  induction calls generalizing scan with
  | nil => exact fun _ hcall => absurd hcall List.not_mem_nil
  | cons call calls ih =>
      rw [List.foldlM_cons, bind_ok] at h
      obtain ⟨next, hnext, h⟩ := h
      exact List.forall_mem_cons.mpr ⟨ids_ne_of_scanCall hnext, ih h⟩

/-- A census is the summary of its selected calls' accesses. -/
theorem censusFromCallTrace_ok {calls : List CallRow} {layerKeyMap : Option (List (ℕ × ℕ))}
    {window : Window} {summary : List (ℕ × ℕ × ℕ)} {about : Meta}
    (h : censusFromCallTrace calls layerKeyMap window = .ok (summary, about)) :
    ∃ lkIndex, layerKeyIndexMap ((calls.filter window.selects).map CallRow.layerKey) layerKeyMap =
        .ok lkIndex ∧
      calls.filter window.selects ≠ [] ∧
      (∀ call ∈ calls.filter window.selects, call.ids ≠ []) ∧
      summary = sortedCells (tally (callEntries lkIndex (calls.filter window.selects))) := by
  rw [censusFromCallTrace, bind_ok] at h
  obtain ⟨-, -, h⟩ := h
  rw [bind_ok] at h
  obtain ⟨_, hne, h⟩ := h
  rw [bind_ok] at h
  obtain ⟨lkIndex, hindex, h⟩ := h
  rw [bind_ok] at h
  obtain ⟨scan, hscan, h⟩ := h
  refine ⟨lkIndex, hindex, (ensure_ok _ _ _).mp hne, ids_ne_of_foldlM hscan, ?_⟩
  rw [← (Prod.mk.inj (Except.ok.inj h)).1, foldlM_scanCall hscan]
  rfl

end Arcint.Fill.Census
