import Arcint.Fill.ServedSeed

/-! # Token labels

The plugin's calls carry no tokens. The converter counts a layer key that comes again as the next
token, which is right for a decode loop that goes through its layers once a token, and what it
writes is a trace that the census reads.
-/

namespace Arcint.Fill.Census

open Foundation

/-! ## Routed rows as a text -/

/-- A line of a trace. -/
def rowLine (row : ℕ × ℕ × List ℕ) : List Char :=
  List.intercalate [' '] (str row.1 :: str row.2.1 :: row.2.2.map str)

/-- The text of a trace of format v1. -/
def traceText (prov : Provenance) (rows : List (ℕ × ℕ × List ℕ)) : List Char :=
  textOf ("# arcint routing trace v1".toList :: prov.map pairLine ++ rows.map rowLine)

/-- A row as the converter and the writers have it. -/
def TraceRow.toTuple (row : TraceRow) : ℕ × ℕ × List ℕ := (row.token, row.layer, row.experts)

/-! ## The converter -/

/-- The rows so far, the token they have come to, and the layer keys seen of it. -/
structure LabelScan where
  rows : List (ℕ × ℕ × List ℕ)
  tok : ℕ
  seen : List ℕ
  skippedCalls : ℕ
  skippedTokens : ℕ

/-- One call: a batched one is skipped or refused, a layer key seen again is the next token's. -/
def labelCall (lkIndex : List (ℕ × ℕ)) (skipBatched : Bool) (scan : LabelScan) (call : CallRow) :
    Except String LabelScan := do
  let chunks ← splitTopkChunks call.ids call.topK
  match chunks with
  | [chunk] =>
      let again : Bool := call.layerKey ∈ scan.seen
      let tok := if again then scan.tok + 1 else scan.tok
      return { scan with
        tok := tok
        seen := call.layerKey :: if again then [] else scan.seen
        rows := scan.rows ++ [(tok, (lkIndex.lookup call.layerKey).getD 0,
          chunk.insertionSort (· ≤ ·))] }
  | _ => do
      ensure (skipBatched = true)
        ("call seq " ++ toString call.seq ++ " carries " ++ toString chunks.length ++
          " tokens' ids; the decode converter refuses batched/prefill calls (use " ++
          "--skip-batched to skip and report them)")
      return { scan with
        skippedCalls := scan.skippedCalls + 1
        skippedTokens := scan.skippedTokens + chunks.length }

/-- What the converter reports beside its rows. -/
structure LabelReport where
  tokens : ℕ
  layerKeys : ℕ
  calls : ℕ
  callsSelected : ℕ
  fromCallSeq : ℤ
  batchedCallsSkipped : ℕ
  batchedTokensSkipped : ℕ

/-- `call_trace_to_v1`. -/
def callTraceToV1 (calls : List CallRow) (layerKeyMap : Option (List (ℕ × ℕ)))
    (skipBatched : Bool) (fromSeq : ℤ) :
    Except String (List (ℕ × ℕ × List ℕ) × LabelReport) := do
  let selected := calls.filter fun call => fromSeq ≤ (call.seq : ℤ)
  let lkIndex ← layerKeyIndexMap (selected.map CallRow.layerKey) layerKeyMap
  let scan ← (sortBy CallRow.seq selected).foldlM (labelCall lkIndex skipBatched) ⟨[], 0, [], 0, 0⟩
  ensure (¬ (selected ≠ [] ∧ scan.rows = []))
    ("no decode rows in the call trace: all " ++ toString scan.skippedCalls ++
      " call(s) carried more than one token's ids; refusing to emit an empty census")
  return (sortBy (fun row => toLex (row.1, row.2.1)) scan.rows,
    { tokens := if scan.rows = [] then 0 else scan.tok + 1
      layerKeys := lkIndex.length
      calls := calls.length
      callsSelected := selected.length
      fromCallSeq := fromSeq
      batchedCallsSkipped := scan.skippedCalls
      batchedTokensSkipped := scan.skippedTokens })

def LabelReport.items (report : LabelReport) : Provenance :=
  [("source".toList, "plugin-0044-call-trace".toList),
    ("calls".toList, str report.calls),
    ("calls_selected".toList, str report.callsSelected),
    ("from_call_seq".toList, (toString report.fromCallSeq).toList),
    ("batched_calls_skipped".toList, str report.batchedCallsSkipped),
    ("batched_tokens_skipped".toList, str report.batchedTokensSkipped),
    ("tokens".toList, str report.tokens),
    ("layers".toList, str report.layerKeys),
    ("token_labels".toList, "reconstructed".toList)]

/-- `from-call-trace`. -/
def cmdFromCallTrace (calls : List CallRow) (provenance : List Char)
    (layerKeys : Option (List (ℕ × ℕ))) (skipBatched : Bool) (fromSeq : ℤ) :
    Except String (List Char) := do
  let prov := readProvenanceFile provenance
  let _ ← requireAttribution prov
  let (rows, report) ← callTraceToV1 calls layerKeys skipBatched fromSeq
  return traceText (report.items.foldl (fun prov pair => prov.assign pair.1 pair.2) prov) rows

/-! ## A written trace is read back -/

theorem traceRows_comments (path : String) {comments : List (List Char)}
    (h : ∀ line ∈ comments, ∃ rest, line = '#' :: rest) (rest : List (List Char)) (lineno : ℕ) :
    traceRows path (comments ++ rest) lineno =
      traceRows path rest (lineno + comments.length) := by
  induction comments generalizing lineno with
  | nil => rfl
  | cons line comments ih =>
      obtain ⟨⟨body, rfl⟩, hcomments⟩ := List.forall_mem_cons.mp h
      obtain ⟨more, hmore⟩ := strip_cons (c := '#') (by decide) body
      have hlength : lineno + (('#' :: body) :: comments).length =
          lineno + 1 + comments.length := by
        rw [List.length_cons]
        omega
      rw [List.cons_append, traceRows, hmore, hlength, if_pos (.inr rfl), ih hcomments]

/-- A row's line is no comment, and is taken apart into the row's numbers. -/
theorem strip_rowLine (row : ℕ × ℕ × List ℕ) :
    (∃ c rest, strip (rowLine row) = c :: rest ∧ c ≠ '#') ∧
      tokens Store.isSpace (strip (rowLine row)) =
        str row.1 :: str row.2.1 :: row.2.2.map str := by
  have hline : rowLine row = seedLine row.1 (row.2.1 :: row.2.2) := rfl
  have hspace : ∀ c ∈ rowLine row, Store.isSpace c = CensusSeed.isBlank c := by
    intro c hc
    refine isSpace_eq_isBlank ?_
    rw [hline] at hc
    exact (mem_seedLine hc).imp_left fun h => by rw [h]; rfl
  obtain ⟨d, first, hstr⟩ := List.exists_cons_of_ne_nil (str_ne_nil row.1)
  have hd : d.isDigit = true := isDigit_of_mem_str (n := row.1) (hstr ▸ List.mem_cons_self)
  have hdspace : Store.isSpace d = false := isSpace_of_isDigit hd
  obtain ⟨rest, hcons⟩ : ∃ rest, rowLine row = d :: rest := by
    rw [rowLine, List.intercalate_cons_cons, hstr]
    exact ⟨_, rfl⟩
  have hstrip : strip (rowLine row) = (rowLine row).rdropWhile Store.isSpace := by
    rw [strip, hcons, List.dropWhile_cons_of_neg (by simpa using hdspace)]
  refine ⟨?_, ?_⟩
  · obtain ⟨more, hmore⟩ := strip_cons hdspace rest
    refine ⟨d, more, by rw [hcons, hmore], ?_⟩
    rintro rfl
    cases hd
  · rw [hstrip, tokens_rdropWhile, tokens_congr hspace, hline, tokens_seedLine, List.map_cons]

theorem intField_str (error : String) (n : ℕ) : intField error (str n) = .ok (n : ℤ) := by
  rw [intField, parseInt_str]

theorem parseAll_intField (error : String) (values : List ℕ) :
    parseAll (intField error) (values.map str) = .ok (values.map Int.ofNat) := by
  induction values with
  | nil => rfl
  | cons n values ih =>
      rw [List.map_cons, parseAll, intField_str, ih]
      rfl

theorem traceRow_str (place : String) (s : List Char) (row : TraceRow) :
    traceRow place s (str row.token :: str row.layer :: row.experts.map str) = .ok row := by
  obtain ⟨tok, lay, experts, hne⟩ := row
  obtain ⟨e, more, rfl⟩ := List.exists_cons_of_ne_nil hne
  have hback : ((e : ℤ) :: more.map Int.ofNat).map Int.toNat = e :: more := by
    rw [List.map_cons, List.map_map]
    have hid : Int.toNat ∘ Int.ofNat = id := rfl
    rw [hid, List.map_id, Int.toNat_natCast]
  have hnonneg : ∀ n ∈ (e : ℤ) :: more.map Int.ofNat, 0 ≤ n := by
    intro n hn
    rcases List.mem_cons.mp hn with rfl | hn
    · exact Int.natCast_nonneg e
    · obtain ⟨m, -, rfl⟩ := List.mem_map.mp hn
      exact Int.natCast_nonneg m
  refine bind_ok.mpr ⟨(tok : ℤ), intField_str _ _, bind_ok.mpr ⟨(lay : ℤ), intField_str _ _,
    bind_ok.mpr ⟨(e : ℤ), intField_str _ _, bind_ok.mpr ⟨_, parseAll_intField _ more,
      bind_ok.mpr ⟨(), (ensure_ok _ _ _).mpr ⟨Int.natCast_nonneg _, Int.natCast_nonneg _, hnonneg⟩,
        ?_⟩⟩⟩⟩⟩
  simp only [hback, Int.toNat_natCast]
  rfl

theorem traceRows_rowLines (path : String) (rows : List TraceRow) (lineno : ℕ) :
    traceRows path ((rows.map TraceRow.toTuple).map rowLine ++ [[]]) lineno = .ok rows := by
  induction rows generalizing lineno with
  | nil => rfl
  | cons row rows ih =>
      obtain ⟨⟨c, rest, hstrip, hc⟩, htokens⟩ := strip_rowLine row.toTuple
      have hdata : ¬ (strip (rowLine row.toTuple) = [] ∨
          (strip (rowLine row.toTuple)).head? = some '#') := by
        rw [hstrip]
        simpa using hc
      rw [List.map_cons, List.map_cons, List.cons_append, traceRows, if_neg hdata, htokens]
      refine bind_ok.mpr ⟨row, traceRow_str _ _ row, bind_ok.mpr ⟨rows, ih _, rfl⟩⟩

/-- A trace that was written is read back row by row. -/
theorem parseTrace_traceText (path : String) {prov : Provenance}
    (hprov : ∀ pair ∈ prov, OneLine pair) (rows : List TraceRow) :
    parseTrace path (traceText prov (rows.map TraceRow.toTuple)) = .ok rows := by
  have hcomments : ∀ line ∈ "# arcint routing trace v1".toList :: prov.map pairLine,
      ∃ rest, line = '#' :: rest ∧ '\n' ∉ rest ∧ '\r' ∉ rest := by
    intro line hline
    rcases List.mem_cons.mp hline with rfl | hline
    · exact ⟨_, rfl, by decide, by decide⟩
    · obtain ⟨pair, hpair, rfl⟩ := List.mem_map.mp hline
      exact pairLine_comment (hprov pair hpair)
  have hlines : ∀ line ∈ "# arcint routing trace v1".toList :: prov.map pairLine ++
      (rows.map TraceRow.toTuple).map rowLine, '\n' ∉ line ∧ '\r' ∉ line := by
    intro line hline
    rcases List.mem_append.mp hline with hline | hline
    · obtain ⟨rest, rfl, hn, hr⟩ := hcomments line hline
      exact ⟨by simpa using hn, by simpa using hr⟩
    · obtain ⟨row, -, rfl⟩ := List.mem_map.mp hline
      have hchars : ∀ c ∈ rowLine row, c = ' ' ∨ c.isDigit = true := fun c hc =>
        @mem_seedLine row.1 (row.2.1 :: row.2.2) c hc
      constructor <;> intro hmem <;> rcases hchars _ hmem with h | h <;> cases h
  rw [parseTrace, traceText, fileLines_textOf (by simp) hlines, List.append_assoc,
    traceRows_comments path fun line hline => (hcomments line hline).imp fun _ h => h.1]
  exact traceRows_rowLines path rows _

theorem report_oneLine (report : LabelReport) : ∀ pair ∈ report.items, OneLine pair := by
  simp only [LabelReport.items, List.forall_mem_cons]
  have htexts : OneLine ("source".toList, "plugin-0044-call-trace".toList) ∧
      OneLine ("token_labels".toList, "reconstructed".toList) := by
    simp [OneLine]
  exact ⟨htexts.1, oneLine_str (by simp) _, oneLine_str (by simp) _, oneLine_int (by simp) _,
    oneLine_str (by simp) _, oneLine_str (by simp) _, oneLine_str (by simp) _,
    oneLine_str (by simp) _, htexts.2, fun _ h => absurd h List.not_mem_nil⟩

theorem foldl_assign_oneLine {pairs : Provenance} (hpairs : ∀ pair ∈ pairs, OneLine pair)
    {prov : Provenance} (hprov : ∀ pair ∈ prov, OneLine pair) :
    ∀ pair ∈ pairs.foldl (fun prov pair => prov.assign pair.1 pair.2) prov, OneLine pair := by
  induction pairs generalizing prov with
  | nil => exact hprov
  | cons pair pairs ih =>
      obtain ⟨hpair, hpairs⟩ := List.forall_mem_cons.mp hpairs
      exact ih hpairs (assign_oneLine hprov hpair)

/-! ## A decode loop's labels -/

/-- The label of a call in a token's step. -/
def labelOf (lkIndex : List (ℕ × ℕ)) (tok : ℕ) (call : CallRow) : ℕ × ℕ × List ℕ :=
  (tok, (lkIndex.lookup call.layerKey).getD 0, call.ids.insertionSort (· ≤ ·))

/-- The calls of the steps under their steps' numbers. -/
def labelled (lkIndex : List (ℕ × ℕ)) (steps : List (List CallRow)) (first : ℕ) :
    List (ℕ × ℕ × List ℕ) :=
  (steps.zipIdx first).flatMap fun (step, tok) => step.map (labelOf lkIndex tok)

theorem labelled_cons (lkIndex : List (ℕ × ℕ)) (step : List CallRow)
    (steps : List (List CallRow)) (first : ℕ) :
    labelled lkIndex (step :: steps) first =
      step.map (labelOf lkIndex first) ++ labelled lkIndex steps (first + 1) := rfl

/-- A step of a decode loop: one token's call for each layer, from the same layer on. -/
structure DecodeStep (firstKey : ℕ) (step : List CallRow) : Prop where
  starts : (step.map CallRow.layerKey).head? = some firstKey
  nodup : (step.map CallRow.layerKey).Nodup
  single : ∀ call ∈ step, 0 < call.topK ∧ call.ids.length = call.topK

/-- A batched call: more than one token's ids. -/
def Batched (call : CallRow) : Prop :=
  0 < call.topK ∧ ∃ n, 2 ≤ n ∧ call.ids.length = n * call.topK

section Labels

variable (lkIndex : List (ℕ × ℕ)) (skipBatched : Bool)

theorem splitTopkChunks_ok {ids : List ℕ} {topK n : ℕ} (hpos : 0 < topK) (hn : 0 < n)
    (hlength : ids.length = n * topK) :
    splitTopkChunks ids topK =
      .ok ((List.range n).map fun i => (ids.drop (i * topK)).take topK) := by
  have hdiv : ids.length / topK = n := by rw [hlength, Nat.mul_div_cancel _ hpos]
  have hmod : ids.length ≠ 0 ∧ ids.length % topK = 0 := by
    rw [hlength, Nat.mul_mod_left]
    exact ⟨(Nat.mul_pos hn hpos).ne', rfl⟩
  refine bind_ok.mpr ⟨(), (ensure_ok _ _ _).mpr hpos,
    bind_ok.mpr ⟨(), (ensure_ok _ _ _).mpr hmod, ?_⟩⟩
  rw [hdiv]
  rfl

theorem labelCall_single {call : CallRow} (h : 0 < call.topK ∧ call.ids.length = call.topK)
    (scan : LabelScan) :
    labelCall lkIndex skipBatched scan call =
      .ok { scan with
        tok := if call.layerKey ∈ scan.seen then scan.tok + 1 else scan.tok
        seen := call.layerKey :: if call.layerKey ∈ scan.seen then [] else scan.seen
        rows := scan.rows ++ [labelOf lkIndex
          (if call.layerKey ∈ scan.seen then scan.tok + 1 else scan.tok) call] } := by
  have hchunks : splitTopkChunks call.ids call.topK = .ok [call.ids] := by
    rw [splitTopkChunks_ok h.1 Nat.one_pos (by rw [Nat.one_mul, h.2])]
    simp [← h.2]
  refine bind_ok.mpr ⟨_, hchunks, ?_⟩
  by_cases hseen : call.layerKey ∈ scan.seen
  · simp [hseen, labelOf]
    rfl
  · simp [hseen, labelOf]
    rfl

theorem labelCall_batched {call : CallRow} (h : Batched call) (scan : LabelScan) :
    ∃ tokens, labelCall lkIndex true scan call =
      .ok { scan with
        skippedCalls := scan.skippedCalls + 1
        skippedTokens := scan.skippedTokens + tokens } := by
  obtain ⟨hpos, n, hn, hlength⟩ := h
  have hchunks := splitTopkChunks_ok hpos (by omega) hlength
  generalize hlist : (List.range n).map (fun i => (call.ids.drop (i * call.topK)).take call.topK) =
    chunks at hchunks
  have hcount : chunks.length = n := by rw [← hlist, List.length_map, List.length_range]
  cases chunks with
  | nil => simp at hcount; omega
  | cons first others =>
      cases others with
      | nil => simp at hcount; omega
      | cons second others =>
          exact ⟨_, bind_ok.mpr ⟨_, hchunks, bind_ok.mpr ⟨(), (ensure_ok _ _ _).mpr rfl, rfl⟩⟩⟩

theorem foldlM_batched {prefill : List CallRow} (h : ∀ call ∈ prefill, Batched call)
    (scan : LabelScan) :
    ∃ tokens, prefill.foldlM (labelCall lkIndex true) scan =
      .ok { scan with
        skippedCalls := scan.skippedCalls + prefill.length
        skippedTokens := scan.skippedTokens + tokens } := by
  induction prefill generalizing scan with
  | nil => exact ⟨0, rfl⟩
  | cons call prefill ih =>
      obtain ⟨hcall, hprefill⟩ := List.forall_mem_cons.mp h
      obtain ⟨tokens, hfirst⟩ := labelCall_batched lkIndex hcall scan
      obtain ⟨more, hmore⟩ := ih hprefill { scan with
        skippedCalls := scan.skippedCalls + 1
        skippedTokens := scan.skippedTokens + tokens }
      refine ⟨tokens + more, ?_⟩
      rw [List.foldlM_cons]
      refine bind_ok.mpr ⟨_, hfirst, hmore.trans ?_⟩
      simp only [List.length_cons, Nat.add_assoc, Nat.add_comm 1]

/-- The calls of a step after its first: the token stays. -/
theorem foldlM_others {others : List CallRow}
    (hsingle : ∀ call ∈ others, 0 < call.topK ∧ call.ids.length = call.topK)
    (hnodup : (others.map CallRow.layerKey).Nodup) (scan : LabelScan)
    (hnew : ∀ call ∈ others, call.layerKey ∉ scan.seen) :
    others.foldlM (labelCall lkIndex skipBatched) scan =
      .ok { scan with
        seen := (others.map CallRow.layerKey).reverse ++ scan.seen
        rows := scan.rows ++ others.map (labelOf lkIndex scan.tok) } := by
  induction others generalizing scan with
  | nil =>
      simp only [List.map_nil, List.reverse_nil, List.nil_append, List.append_nil]
      rfl
  | cons call others ih =>
      obtain ⟨hcall, hothers⟩ := List.forall_mem_cons.mp hsingle
      obtain ⟨hfirst, hnodup⟩ := List.nodup_cons.mp hnodup
      obtain ⟨hcallnew, hothersnew⟩ := List.forall_mem_cons.mp hnew
      rw [List.foldlM_cons]
      refine bind_ok.mpr ⟨_, labelCall_single lkIndex skipBatched hcall scan, ?_⟩
      simp only [if_neg hcallnew]
      refine (ih hothers hnodup _ fun other hother => ?_).trans ?_
      · rw [List.mem_cons, not_or]
        exact ⟨fun heq => hfirst (heq ▸ List.mem_map_of_mem hother), hothersnew other hother⟩
      · simp

/-- A whole step: the next token when a step came before it. -/
theorem foldlM_step {firstKey : ℕ} {step : List CallRow} (h : DecodeStep firstKey step)
    (scan : LabelScan) (hseen : scan.seen ≠ [] → firstKey ∈ scan.seen) :
    ∃ seen, firstKey ∈ seen ∧ step.foldlM (labelCall lkIndex skipBatched) scan =
      .ok { scan with
        tok := if scan.seen = [] then scan.tok else scan.tok + 1
        seen := seen
        rows := scan.rows ++ step.map
          (labelOf lkIndex (if scan.seen = [] then scan.tok else scan.tok + 1)) } := by
  obtain ⟨hstarts, hnodup, hsingle⟩ := h
  cases step with
  | nil => cases hstarts
  | cons call others =>
      obtain rfl : call.layerKey = firstKey := Option.some.inj hstarts
      obtain ⟨hcall, hothers⟩ := List.forall_mem_cons.mp hsingle
      obtain ⟨hfirst, hnodup⟩ := List.nodup_cons.mp hnodup
      have hagain : call.layerKey ∈ scan.seen ↔ scan.seen ≠ [] :=
        ⟨List.ne_nil_of_mem, hseen⟩
      have hone := labelCall_single lkIndex skipBatched hcall scan
      have hreset : (if call.layerKey ∈ scan.seen then [] else scan.seen) = ([] : List ℕ) := by
        split
        · rfl
        · next hnot => exact not_not.mp (mt hagain.mpr hnot)
      have htok : (if call.layerKey ∈ scan.seen then scan.tok + 1 else scan.tok) =
          if scan.seen = [] then scan.tok else scan.tok + 1 := by
        by_cases hempty : scan.seen = []
        · rw [if_pos hempty, if_neg fun hmem => hagain.mp hmem hempty]
        · rw [if_neg hempty, if_pos (hagain.mpr hempty)]
      rw [hreset, htok] at hone
      refine ⟨(others.map CallRow.layerKey).reverse ++ [call.layerKey],
        List.mem_append_right _ (List.mem_singleton_self _), ?_⟩
      rw [List.foldlM_cons]
      refine bind_ok.mpr ⟨_, hone,
        (foldlM_others lkIndex skipBatched hothers hnodup _ fun other hother => ?_).trans ?_⟩
      · rw [List.mem_singleton]
        exact fun heq => hfirst (heq ▸ List.mem_map_of_mem hother)
      · simp

/-- All the steps that follow a first one. -/
theorem foldlM_steps {firstKey : ℕ} {steps : List (List CallRow)}
    (h : ∀ step ∈ steps, DecodeStep firstKey step) (scan : LabelScan)
    (hseen : firstKey ∈ scan.seen) :
    ∃ seen, steps.flatten.foldlM (labelCall lkIndex skipBatched) scan =
      .ok { scan with
        tok := scan.tok + steps.length
        seen := seen
        rows := scan.rows ++ labelled lkIndex steps (scan.tok + 1) } := by
  induction steps generalizing scan with
  | nil =>
      refine ⟨scan.seen, ?_⟩
      simp only [labelled, List.zipIdx_nil, List.flatMap_nil, List.append_nil]
      rfl
  | cons step steps ih =>
      obtain ⟨hstep, hsteps⟩ := List.forall_mem_cons.mp h
      obtain ⟨seen, hmem, hfirst⟩ := foldlM_step lkIndex skipBatched
        hstep scan fun _ => hseen
      rw [if_neg (List.ne_nil_of_mem hseen)] at hfirst
      obtain ⟨final, hfinal⟩ := ih hsteps { scan with
        tok := scan.tok + 1
        seen := seen
        rows := scan.rows ++ step.map (labelOf lkIndex (scan.tok + 1)) } hmem
      refine ⟨final, ?_⟩
      rw [List.flatten_cons, List.foldlM_append]
      refine bind_ok.mpr ⟨_, hfirst, hfinal.trans ?_⟩
      simp only [labelled_cons, List.length_cons, List.append_assoc, Nat.add_assoc, Nat.add_comm 1]

variable {lkIndex}

/-- Calls that are batched at first and then go through the same layers a token at a time are
labelled by their steps. -/
theorem callTraceToV1_labels {calls : List CallRow} {layerKeyMap : Option (List (ℕ × ℕ))}
    {fromSeq : ℤ} {prefill : List CallRow} {steps : List (List CallRow)} {firstKey : ℕ}
    (hcalls : sortBy CallRow.seq (calls.filter fun call => fromSeq ≤ (call.seq : ℤ)) =
      prefill ++ steps.flatten)
    (hprefill : ∀ call ∈ prefill, Batched call)
    (hsteps : ∀ step ∈ steps, DecodeStep firstKey step) (hne : steps ≠ [])
    (hindex : layerKeyIndexMap ((calls.filter fun call => fromSeq ≤ (call.seq : ℤ)).map
      CallRow.layerKey) layerKeyMap = .ok lkIndex) :
    ∃ report, callTraceToV1 calls layerKeyMap true fromSeq =
        .ok (sortBy (fun row => toLex (row.1, row.2.1)) (labelled lkIndex steps 0), report) ∧
      report.tokens = steps.length ∧ report.batchedCallsSkipped = prefill.length := by
  obtain ⟨first, others, rfl⟩ := List.exists_cons_of_ne_nil hne
  obtain ⟨hfirst, hothers⟩ := List.forall_mem_cons.mp hsteps
  obtain ⟨skipped, hskip⟩ := foldlM_batched lkIndex hprefill ⟨[], 0, [], 0, 0⟩
  obtain ⟨seen, hmem, hstep⟩ := foldlM_step lkIndex true hfirst
    ⟨[], 0, [], 0 + prefill.length, 0 + skipped⟩ fun h => absurd rfl h
  obtain ⟨final, hrest⟩ := foldlM_steps lkIndex true hothers
    ⟨first.map (labelOf lkIndex 0), 0, seen, 0 + prefill.length, 0 + skipped⟩ hmem
  have hscan : (sortBy CallRow.seq (calls.filter fun call => fromSeq ≤ (call.seq : ℤ))).foldlM
      (labelCall lkIndex true) ⟨[], 0, [], 0, 0⟩ =
      .ok ⟨labelled lkIndex (first :: others) 0, others.length, final, prefill.length,
        skipped⟩ := by
    rw [hcalls, List.foldlM_append, List.flatten_cons]
    refine bind_ok.mpr ⟨_, hskip, ?_⟩
    rw [List.foldlM_append]
    refine bind_ok.mpr ⟨_, hstep, hrest.trans ?_⟩
    simp only [labelled_cons, Nat.zero_add]
  have hnonempty : labelled lkIndex (first :: others) 0 ≠ [] := by
    have hstart := hfirst.starts
    rw [labelled_cons]
    intro hnil
    have hmap := (List.append_eq_nil_iff.mp hnil).1
    rw [List.map_eq_nil_iff.mp hmap] at hstart
    cases hstart
  refine ⟨_, bind_ok.mpr ⟨_, hindex, bind_ok.mpr ⟨_, hscan, bind_ok.mpr ⟨(),
    (ensure_ok _ _ _).mpr fun h => hnonempty h.2, rfl⟩⟩⟩, ?_, rfl⟩
  rw [if_neg hnonempty]
  rfl

/-- The labelled calls as rows of a trace. -/
theorem exists_rows {steps : List (List CallRow)}
    (hids : ∀ step ∈ steps, ∀ call ∈ step, call.ids ≠ []) :
    ∃ rows : List TraceRow, rows.map TraceRow.toTuple =
      sortBy (fun row => toLex (row.1, row.2.1)) (labelled lkIndex steps 0) := by
  have hne : ∀ row ∈ sortBy (fun row => toLex (row.1, row.2.1)) (labelled lkIndex steps 0),
      row.2.2 ≠ [] := by
    intro row hrow
    obtain ⟨⟨step, tok⟩, hstep, hrow⟩ :=
      List.mem_flatMap.mp ((sortBy_perm _ _).mem_iff.mp hrow)
    obtain ⟨call, hcall, rfl⟩ := List.mem_map.mp hrow
    have hnonempty := hids step (List.fst_mem_of_mem_zipIdx hstep) call hcall
    intro hnil
    have hperm := List.perm_insertionSort (· ≤ ·) call.ids
    rw [show call.ids.insertionSort (· ≤ ·) = [] from hnil] at hperm
    exact hnonempty hperm.symm.eq_nil
  generalize sortBy (fun row => toLex (row.1, row.2.1)) (labelled lkIndex steps 0) = tuples at hne
  refine ⟨tuples.pmap (fun row h => ⟨row.1, row.2.1, row.2.2, h⟩) hne, ?_⟩
  rw [List.map_pmap]
  exact (List.pmap_eq_map _).trans (List.map_id _)

/-- Calls that are batched at first and then go through the same layers a token at a time become a
trace that is read back as the steps' rows, each under its step's number. -/
theorem fromCallTrace_reads {calls : List CallRow} {layerKeys : Option (List (ℕ × ℕ))}
    {fromSeq : ℤ} {prefill : List CallRow} {steps : List (List CallRow)} {firstKey : ℕ}
    {provenance artifact : List Char} (path : String)
    (hattribution : requireAttribution (readProvenanceFile provenance) = .ok artifact)
    (hcalls : sortBy CallRow.seq (calls.filter fun call => fromSeq ≤ (call.seq : ℤ)) =
      prefill ++ steps.flatten)
    (hprefill : ∀ call ∈ prefill, Batched call)
    (hsteps : ∀ step ∈ steps, DecodeStep firstKey step) (hne : steps ≠ [])
    (hindex : layerKeyIndexMap ((calls.filter fun call => fromSeq ≤ (call.seq : ℤ)).map
      CallRow.layerKey) layerKeys = .ok lkIndex) :
    ∃ text rows, cmdFromCallTrace calls provenance layerKeys true fromSeq = .ok text ∧
      parseTrace path text = .ok rows ∧
      rows.map TraceRow.toTuple =
        sortBy (fun row => toLex (row.1, row.2.1)) (labelled lkIndex steps 0) := by
  obtain ⟨report, hconvert, -, -⟩ :=
    callTraceToV1_labels hcalls hprefill hsteps hne hindex
  obtain ⟨rows, hrows⟩ := @exists_rows lkIndex steps fun step hstep call
      hcall hnil => by
    obtain ⟨hpos, hlength⟩ := (hsteps step hstep).single call hcall
    rw [hnil, List.length_nil] at hlength
    omega
  refine ⟨_, rows, bind_ok.mpr ⟨_, hattribution, bind_ok.mpr ⟨_, hconvert, rfl⟩⟩, ?_, hrows⟩
  rw [← hrows]
  exact parseTrace_traceText path (foldl_assign_oneLine (report_oneLine report)
    (readProvenanceFile_oneLine provenance)) rows

end Labels

/-- A batched call of two tokens. -/
def promptCall : CallRow := ⟨0, 7, 2, [1, 2, 3, 4]⟩

/-- Two tokens of a decode loop over two layers. -/
def twoSteps : List (List CallRow) :=
  [[⟨1, 7, 2, [3, 1]⟩, ⟨2, 9, 2, [0, 2]⟩], [⟨3, 7, 2, [3, 2]⟩, ⟨4, 9, 2, [2, 0]⟩]]

theorem twoSteps_decode : ∀ step ∈ twoSteps, DecodeStep 7 step := by
  simp only [twoSteps, List.forall_mem_cons]
  exact ⟨⟨rfl, by decide, by decide⟩, ⟨rfl, by decide, by decide⟩,
    fun _ h => absurd h List.not_mem_nil⟩

theorem promptCall_batched : ∀ call ∈ [promptCall], Batched call := by
  simp only [List.forall_mem_cons]
  exact ⟨⟨by decide, 2, le_rfl, rfl⟩, fun _ h => absurd h List.not_mem_nil⟩

theorem fromCallTrace_reads_two : ∃ text rows,
    cmdFromCallTrace (promptCall :: twoSteps.flatten) "artifact=a card=c".toList none true 0 =
        .ok text ∧
      parseTrace "trace" text = .ok rows ∧
      rows.map TraceRow.toTuple =
        sortBy (fun row => toLex (row.1, row.2.1)) (labelled [(7, 0), (9, 1)] twoSteps 0) := by
  have hcalls : sortBy CallRow.seq
      ((promptCall :: twoSteps.flatten).filter fun call => 0 ≤ (call.seq : ℤ)) =
        [promptCall] ++ twoSteps.flatten := rfl
  exact fromCallTrace_reads "trace" attribution_small hcalls promptCall_batched twoSteps_decode
    (List.cons_ne_nil _ _) rfl

end Arcint.Fill.Census
