import Arcint.Fill.Census
import Arcint.Fill.CensusSeed
import Arcint.Fill.SeedReaders

/-! # The census's files

The texts that the census reads and writes: traces, summaries and seeds. A summary that was written
is read back as it was, and a seed that was written under a map of layer keys is what the plugin's
reader takes it for, so that the plugin holds the experts that the calls of its own trace ask for.
-/

namespace Arcint.Fill.Census

open Foundation

/-! ## Texts -/

/-- `str` of a number. -/
def str (n : ℕ) : List Char := Nat.toDigits 10 n

/-- The lines joined by newlines, and one at the end. -/
def textOf (lines : List (List Char)) : List Char := List.intercalate ['\n'] lines ++ ['\n']

/-- Each of the three newlines as one character. -/
def universalNewlines : List Char → List Char
  | '\r' :: '\n' :: rest => '\n' :: universalNewlines rest
  | '\r' :: rest => '\n' :: universalNewlines rest
  | c :: rest => c :: universalNewlines rest
  | [] => []

/-- The lines of a file opened as a text. -/
def fileLines (text : List Char) : List (List Char) :=
  (universalNewlines text).splitOnP (· == '\n')

def strip (s : List Char) : List Char := (s.dropWhile Store.isSpace).rdropWhile Store.isSpace

/-- `int` of a text, blanks around it allowed. -/
def intText (s : List Char) : Option ℤ := Store.parseInt (strip s)

/-- An `OrderedDict` of texts. -/
abbrev Provenance := List (List Char × List Char)

def Provenance.assign (key value : List Char) : Provenance → Provenance
  | [] => [(key, value)]
  | (k, v) :: rest => if k = key then (k, value) :: rest else (k, v) :: assign key value rest

def Provenance.get (prov : Provenance) (key : String) : Option (List Char) :=
  prov.lookup key.toList

/-- The `key=value` tokens of a line; a token without `=` is free text. -/
def pairsOf (prov : Provenance) (body : List Char) : Provenance :=
  (tokens Store.isSpace body).foldl (fun prov tok =>
    if '=' ∈ tok then
      prov.assign (strip (tok.takeWhile (· ≠ '='))) (strip ((tok.dropWhile (· ≠ '=')).drop 1))
    else prov) prov

def magic : List Char := "arcint routing trace".toList

/-- The pairs of a trace's header, which ends at the first data row. -/
def readProvenance (text : List Char) : Provenance :=
  go (fileLines text) []
where
  go : List (List Char) → Provenance → Provenance
    | [], prov => prov
    | ln :: rest, prov =>
        match strip ln with
        | [] => go rest prov
        | c :: more =>
            if c ≠ '#' then prov
            else
              let body := strip more
              if magic.isPrefixOf body then go rest prov else go rest (pairsOf prov body)

/-- The pairs of a file that the harness wrote. -/
def readProvenanceFile (text : List Char) : Provenance :=
  (fileLines text).foldl (fun prov ln =>
    let body := strip ((strip ln).dropWhile (· = '#'))
    if magic.isPrefixOf body then prov else pairsOf prov body) []

/-- A census without an artifact and a card is refused. -/
def requireAttribution (prov : Provenance) : Except String (List Char) := do
  let artifact := match prov.get "artifact_sha256" with
    | some (c :: rest) => c :: rest
    | _ => (prov.get "artifact").getD []
  ensure (artifact ≠ [] ∧ (prov.get "card").getD [] ≠ [])
    ("provenance must carry a non-empty artifact_sha256= (or artifact=) and card= -- the plugin " ++
      "cannot know either, so the harness injects them; refusing to write an unattributable census")
  return artifact

/-! ## Traces -/

/-- A field that is a number. -/
def intField (error : String) (token : List Char) : Except String ℤ :=
  match Store.parseInt token with
  | none => .error error
  | some n => .ok n

/-- The fields of a data row. -/
def traceRow (place : String) (s : List Char) (p : List (List Char)) : Except String TraceRow :=
  match p with
  | tok :: lay :: expert :: more => do
      let field := intField (place ++ ": non-integer field in " ++ Store.reprText s)
      let tok ← field tok
      let lay ← field lay
      let first ← field expert
      let others ← parseAll field more
      ensure (0 ≤ tok ∧ 0 ≤ lay ∧ ∀ e ∈ first :: others, 0 ≤ e)
        (place ++ ": negative index in " ++ Store.reprText s)
      return ⟨tok.toNat, lay.toNat, (first :: others).map Int.toNat, List.cons_ne_nil _ _⟩
  | _ =>
      .error (place ++ ": malformed trace row " ++ Store.reprText s ++
        " (need at least 'token layer expert ...')")

/-- The rows of a trace, from line `lineno` on. -/
def traceRows (path : String) : List (List Char) → ℕ → Except String (List TraceRow)
  | [], _ => .ok []
  | ln :: rest, lineno =>
      let s := strip ln
      if s = [] ∨ s.head? = some '#' then traceRows path rest (lineno + 1)
      else do
        let row ← traceRow (path ++ ":" ++ toString lineno) s (tokens Store.isSpace s)
        let rows ← traceRows path rest (lineno + 1)
        return row :: rows

/-- `parse_trace`, strict. -/
def parseTrace (path : String) (text : List Char) : Except String (List TraceRow) :=
  traceRows path (fileLines text) 1

/-! ## Summaries -/

def pairLine (pair : List Char × List Char) : List Char :=
  "# ".toList ++ pair.1 ++ '=' :: pair.2

def cellLine (cell : ℕ × ℕ × ℕ) : List Char :=
  str cell.1 ++ ',' :: str cell.2.1 ++ ',' :: str cell.2.2

def totalOf (cells : List (ℕ × ℕ × ℕ)) : ℕ := (cells.map fun cell => cell.2.2).sum

/-- A summary's lines behind its comments. -/
def summaryLines (comments : List (List Char)) (cells : List (ℕ × ℕ × ℕ)) : List (List Char) :=
  comments ++ "layer,expert,count".toList :: cells.map cellLine ++
    ["# total,".toList ++ str (totalOf cells)]

/-- `write_summary`. -/
def writeSummary (rows : List TraceRow) (provenance : Provenance) : List Char :=
  let comments := if provenance = [] then []
    else "# census summary (derived from a format-v1 routing trace)".toList ::
      provenance.map pairLine
  textOf (summaryLines comments (canonicalSummary rows))

def Meta.items (about : Meta) : Provenance :=
  [("calls".toList, str about.calls),
    ("calls_selected".toList, str about.callsSelected),
    ("batched_calls".toList, str about.batchedCalls),
    ("decode_calls".toList, str about.decodeCalls),
    ("tokens_observed".toList, str about.tokensObserved),
    ("accesses".toList, str about.accesses),
    ("from_call_seq".toList, (toString about.window.fromSeq).toList),
    ("to_call_seq".toList,
      match about.window.toSeq with
      | none => "None".toList
      | some toSeq => (toString toSeq).toList),
    ("layers".toList, str about.layers)]

/-- The rows and the total that have been read. -/
structure SummaryScan where
  out : List (ℕ × ℕ × ℕ)
  total : Option ℤ

def summaryRow (place : String) (s : List Char) (p : List (List Char)) :
    Except String (ℕ × ℕ × ℕ) :=
  match p with
  | [lay, e, c] =>
      match intText lay, intText e, intText c with
      | some lay, some e, some c => do
          ensure (0 ≤ lay ∧ 0 ≤ e ∧ 0 ≤ c)
            (place ++ ": census summary row is negative: " ++ Store.reprText s)
          return (lay.toNat, e.toNat, c.toNat)
      | _, _, _ =>
          .error (place ++ ": census summary row is not three non-negative integers: " ++
            Store.reprText s)
  | _ =>
      .error (place ++ ": census summary row has " ++ toString p.length ++
        " fields, expected 3 (layer,expert,count): " ++ Store.reprText s)

/-- A line; the last total counts, and one that is not a number counts as none. -/
def scanSummaryLine (place : String) (scan : SummaryScan) (ln : List Char) :
    Except String SummaryScan :=
  let s := strip ln
  if s = [] then .ok scan
  else if s.head? = some '#' then
    if "# total,".toList.isPrefixOf s then .ok { scan with total := intText (s.drop 8) }
    else .ok scan
  else
    let p := s.splitOnP (· == ',')
    if p.head? = some "layer".toList then .ok scan
    else do
      let row ← summaryRow place s p
      return { scan with out := scan.out ++ [row] }

def scanSummary (path : String) : List (List Char) → ℕ → SummaryScan → Except String SummaryScan
  | [], _, scan => .ok scan
  | ln :: rest, lineno, scan => do
      let next ← scanSummaryLine (path ++ ":" ++ toString lineno) scan ln
      scanSummary path rest (lineno + 1) next

/-- `read_census_summary`. -/
def readCensusSummary (path : String) (text : List Char) :
    Except String (List (ℕ × ℕ × ℕ)) := do
  let scan ← scanSummary path (fileLines text) 1 ⟨[], none⟩
  match scan.total with
  | none => return scan.out
  | some total =>
      ensure (total = totalOf scan.out)
        (path ++ ": '# total," ++ toString total ++ "' disagrees with the summed counts (" ++
          toString (totalOf scan.out) ++ ")")
      return scan.out

/-! ## Seeds -/

/-- The layer map as the header spells it. -/
def mapJson (layerKeyByIndex : List (ℕ × ℕ)) : List Char :=
  '\x7b' :: List.intercalate ", ".toList
    ((sortBy Prod.fst layerKeyByIndex).map fun entry =>
      '"' :: str entry.1 ++ "\": ".toList ++ str entry.2) ++ ['\x7d']

/-- A line of a seed: a key and the experts behind it. -/
def seedLine (key : ℕ) (experts : List ℕ) : List Char :=
  List.intercalate [' '] (str key :: experts.map str)

/-- The key under which a layer's line is written. -/
def lineKey (layerKeyByIndex : List (ℕ × ℕ)) (lay : ℕ) : Except String ℕ :=
  if layerKeyByIndex = [] then .ok lay
  else
    match layerKeyByIndex.lookup lay with
    | some key => .ok key
    | none =>
        .error ("seed_text: decoder layer " ++ toString lay ++
          " has no layer_key in the supplied map")

/-- `seed_text`; no map and an empty one are the same. -/
def seedText (hot : List (ℕ × List ℕ)) (layerKeyByIndex : List (ℕ × ℕ)) :
    Except String (List Char) := do
  ensure (layerKeyByIndex.map Prod.snd).Nodup
    ("seed_text: the layer_key map maps two decoder layers to the same layer_key; a duplicate " ++
      "key is refused rather than written (the plugin would refuse it at load)")
  let space := if layerKeyByIndex = [] then "layer" else "layer_key"
  let header := ["# hot-set seed v2 (frequency rank, id tie-break)".toList,
    ("# space=" ++ space).toList]
  let spelled := if layerKeyByIndex = [] then []
    else ["# layer_key_by_index=".toList ++ mapJson layerKeyByIndex]
  let lines ← parseAll (fun entry : ℕ × List ℕ => do
    let key ← lineKey layerKeyByIndex entry.1
    return seedLine key entry.2) (sortBy Prod.fst hot)
  return textOf (header ++ spelled ++ lines)

/-! ## Commands -/

/-- `summary` of a trace. -/
def cmdSummary (path : String) (trace : List Char) : Except String (List Char) := do
  let rows ← parseTrace path trace
  return writeSummary rows (readProvenance trace)

/-- `select` from a trace. -/
def cmdSelectTrace (path : String) (trace : List Char) (slotsPerLayer : ℤ)
    (layerKeys : List (ℕ × ℕ)) : Except String (List Char) := do
  let rows ← parseTrace path trace
  let hot ← selectHotSet rows slotsPerLayer
  seedText hot layerKeys

/-- `select` from a summary. -/
def cmdSelectCensus (path : String) (census : List Char) (slotsPerLayer : ℤ)
    (layerKeys : List (ℕ × ℕ)) : Except String (List Char) := do
  let counts ← readCensusSummary path census
  let hot ← selectHotSetFromCounts counts slotsPerLayer
  seedText hot layerKeys

/-- `census-from-call-trace`. -/
def cmdCensusFromCallTrace (calls : List CallRow) (provenance : List Char)
    (layerKeys : Option (List (ℕ × ℕ))) (window : Window) : Except String (List Char) := do
  let prov := readProvenanceFile provenance
  let _ ← requireAttribution prov
  let census ← censusFromCallTrace calls layerKeys window
  return textOf (summaryLines
    ("# census summary (patch 0044 call trace; batched calls counted)".toList ::
      (prov ++ census.2.items).map pairLine) census.1)

/-! ## Lines and words -/

theorem isDigit_of_mem_str {n : ℕ} {c : Char} (h : c ∈ str n) : c.isDigit = true :=
  Nat.isDigit_of_mem_toDigits (by decide) (by decide) h

theorem str_ne_nil (n : ℕ) : str n ≠ [] := Nat.toDigits_ne_nil

theorem value_str (n : ℕ) : CensusSeed.value (str n) = n := Nat.ofDigitChars_ten_toDigits

theorem parseInt_str (n : ℕ) : Store.parseInt (str n) = some (n : ℤ) := by
  rw [Store.parseInt_of_digits (str_ne_nil n) fun _ => isDigit_of_mem_str, value_str]

theorem isSpace_of_isDigit {c : Char} (h : c.isDigit = true) : Store.isSpace c = false := by
  have hrange := toNat_of_isDigit h
  simp only [Store.isSpace, List.contains_eq_mem, decide_eq_false_iff_not, List.mem_cons,
    List.not_mem_nil, or_false]
  omega

theorem universalNewlines_eq {text : List Char} (h : '\r' ∉ text) :
    universalNewlines text = text := by
  induction text with
  | nil => rfl
  | cons c rest ih =>
      rw [List.mem_cons, not_or] at h
      rw [universalNewlines.eq_3 _ _ (fun _ hc _ => h.1 hc.symm) fun hc => h.1 hc.symm, ih h.2]

theorem textOf_eq_flatMap {lines : List (List Char)} (hne : lines ≠ []) :
    textOf lines = lines.flatMap fun line => line ++ ['\n'] := by
  induction lines with
  | nil => exact absurd rfl hne
  | cons line rest ih =>
      cases rest with
      | nil => simp [textOf]
      | cons next rest =>
          rw [List.flatMap_cons, ← ih (List.cons_ne_nil _ _), textOf, textOf,
            List.intercalate_cons_cons]
          simp only [List.append_assoc]

/-- Written lines, and what follows the last newline. -/
theorem splitOnP_textOf {lines : List (List Char)} (hne : lines ≠ [])
    (h : ∀ line ∈ lines, '\n' ∉ line) : (textOf lines).splitOnP (· == '\n') = lines ++ [[]] := by
  rw [textOf_eq_flatMap hne]
  clear hne
  induction lines with
  | nil => rfl
  | cons line rest ih =>
      obtain ⟨hline, hrest⟩ := List.forall_mem_cons.mp h
      have hnone : ∀ c ∈ line, (c == '\n') = false := fun c hc =>
        beq_eq_false_iff_ne.mpr fun heq => hline (heq ▸ hc)
      rw [List.flatMap_cons, List.append_assoc, List.singleton_append,
        List.splitOnP_append_cons_of_forall_mem hnone _ (by decide), ih hrest, List.cons_append]

theorem fileLines_textOf {lines : List (List Char)} (hne : lines ≠ [])
    (h : ∀ line ∈ lines, '\n' ∉ line ∧ '\r' ∉ line) :
    fileLines (textOf lines) = lines ++ [[]] := by
  rw [fileLines, universalNewlines_eq, splitOnP_textOf hne fun line hline => (h line hline).1]
  rw [textOf_eq_flatMap hne]
  intro hmem
  obtain ⟨line, hline, hc⟩ := List.mem_flatMap.mp hmem
  rcases List.mem_append.mp hc with hc | hc
  · exact (h line hline).2 hc
  · simp at hc

theorem strip_of_forall {s : List Char} (h : ∀ c ∈ s, Store.isSpace c = false) : strip s = s := by
  have hdrop : s.dropWhile Store.isSpace = s := by
    rw [List.dropWhile_eq_self_iff]
    intro hl
    simpa using h _ (List.getElem_mem hl)
  rw [strip, hdrop, List.rdropWhile_eq_self_iff]
  intro hne
  simpa using h _ (List.getLast_mem hne)

/-- A line keeps its first character when that is no blank. -/
theorem strip_cons {c : Char} (h : Store.isSpace c = false) (rest : List Char) :
    ∃ more, strip (c :: rest) = c :: more := by
  rw [strip, List.dropWhile_cons_of_neg (by simpa using h)]
  cases hstrip : (c :: rest).rdropWhile Store.isSpace with
  | nil =>
      have hall := List.rdropWhile_eq_nil_iff.mp hstrip c List.mem_cons_self
      rw [h] at hall
      cases hall
  | cons d more =>
      have hpre := List.rdropWhile_prefix (p := Store.isSpace) (c :: rest)
      rw [hstrip] at hpre
      obtain ⟨tail, htail⟩ := hpre
      exact ⟨more, by rw [(List.cons.inj htail).1]⟩

/-! ## Summaries are read back -/

theorem scanSummaryLine_comment (place : String) (scan : SummaryScan) (rest : List Char) :
    ∃ total, scanSummaryLine place scan ('#' :: rest) = .ok { scan with total := total } := by
  obtain ⟨more, hmore⟩ := strip_cons (c := '#') (by decide) rest
  rw [scanSummaryLine, hmore]
  dsimp only
  rw [if_neg (List.cons_ne_nil _ _), List.head?_cons, if_pos rfl]
  split
  · exact ⟨_, rfl⟩
  · exact ⟨scan.total, rfl⟩

theorem scanSummaryLine_header (place : String) (scan : SummaryScan) :
    scanSummaryLine place scan "layer,expert,count".toList = .ok scan := by
  have hstrip : strip "layer,expert,count".toList = "layer,expert,count".toList := by decide
  rw [scanSummaryLine, hstrip]
  rfl

theorem intText_str (n : ℕ) : intText (str n) = some (n : ℤ) := by
  rw [intText, strip_of_forall fun c hc => isSpace_of_isDigit (isDigit_of_mem_str hc), parseInt_str]

theorem cellLine_eq (cell : ℕ × ℕ × ℕ) :
    cellLine cell = List.intercalate [','] [str cell.1, str cell.2.1, str cell.2.2] := by
  simp [cellLine, List.intercalate]

theorem mem_cellLine {cell : ℕ × ℕ × ℕ} {c : Char} (h : c ∈ cellLine cell) :
    c.isDigit = true ∨ c = ',' := by
  simp only [cellLine, List.mem_append, List.mem_cons] at h
  rcases h with (h | rfl | h) | rfl | h
  · exact .inl (isDigit_of_mem_str h)
  · exact .inr rfl
  · exact .inl (isDigit_of_mem_str h)
  · exact .inr rfl
  · exact .inl (isDigit_of_mem_str h)

theorem scanSummaryLine_cell (place : String) (scan : SummaryScan) (cell : ℕ × ℕ × ℕ) :
    scanSummaryLine place scan (cellLine cell) = .ok { scan with out := scan.out ++ [cell] } := by
  have hstrip : strip (cellLine cell) = cellLine cell := strip_of_forall fun c hc =>
    (mem_cellLine hc).elim isSpace_of_isDigit fun h => h ▸ by decide
  have hsplit : (cellLine cell).splitOnP (· == ',') = [str cell.1, str cell.2.1, str cell.2.2] := by
    rw [cellLine_eq]
    refine List.splitOn_intercalate ',' (fun piece hpiece hcomma => ?_) (by simp)
    have hdigit : (',').isDigit = true := by
      simp only [List.mem_cons, List.not_mem_nil, or_false] at hpiece
      rcases hpiece with rfl | rfl | rfl <;> exact isDigit_of_mem_str hcomma
    cases hdigit
  obtain ⟨c, rest, hstr⟩ := List.exists_cons_of_ne_nil (str_ne_nil cell.1)
  have hc : c.isDigit = true := isDigit_of_mem_str (n := cell.1) (hstr ▸ List.mem_cons_self)
  have hhash : c ≠ '#' := fun h => by rw [h] at hc; cases hc
  have hlayer : c ≠ 'l' := fun h => by rw [h] at hc; cases hc
  have hne : cellLine cell ≠ [] := by simp [cellLine]
  have hhead : (cellLine cell).head? ≠ some '#' := by simpa [cellLine, hstr] using hhash
  have hfirst : [str cell.1, str cell.2.1, str cell.2.2].head? ≠ some "layer".toList := by
    rw [List.head?_cons, hstr]
    exact fun h => hlayer (List.cons.inj (Option.some.inj h)).1
  rw [scanSummaryLine, hstrip]
  dsimp only
  rw [if_neg hne, if_neg hhead, hsplit, if_neg hfirst, summaryRow, intText_str, intText_str,
    intText_str]
  dsimp only
  rw [ensure, if_pos ⟨Int.natCast_nonneg _, Int.natCast_nonneg _, Int.natCast_nonneg _⟩]
  rfl

theorem scanSummaryLine_total (place : String) (scan : SummaryScan) (n : ℕ) :
    scanSummaryLine place scan ("# total,".toList ++ str n) =
      .ok { scan with total := some (n : ℤ) } := by
  have hstrip : strip ("# total,".toList ++ str n) = "# total,".toList ++ str n := by
    have hdrop : ("# total,".toList ++ str n).dropWhile Store.isSpace =
        "# total,".toList ++ str n := rfl
    rw [strip, hdrop, List.rdropWhile_eq_self_iff]
    intro hne
    rw [List.getLast_append_of_ne_nil _ (str_ne_nil n)]
    simpa using isSpace_of_isDigit (isDigit_of_mem_str (List.getLast_mem (str_ne_nil n)))
  have hprefixed : "# total,".toList.isPrefixOf ("# total,".toList ++ str n) = true := by simp
  have hdrop : ("# total,".toList ++ str n).drop 8 = str n := rfl
  rw [scanSummaryLine, hstrip]
  dsimp only
  rw [if_neg (by simp), if_pos (by rfl), if_pos hprefixed, hdrop, intText_str]

theorem scanSummary_append (path : String) (first more : List (List Char)) (lineno : ℕ)
    (scan : SummaryScan) :
    scanSummary path (first ++ more) lineno scan =
      scanSummary path first lineno scan >>= scanSummary path more (lineno + first.length) := by
  induction first generalizing lineno scan with
  | nil => rfl
  | cons ln rest ih =>
      rw [List.cons_append, scanSummary, scanSummary]
      cases hline : scanSummaryLine (path ++ ":" ++ toString lineno) scan ln with
      | error e => rfl
      | ok next =>
          have hlength : lineno + (ln :: rest).length = lineno + 1 + rest.length := by
            rw [List.length_cons]
            omega
          rw [hlength]
          exact ih (lineno + 1) next

theorem scanSummary_comments (path : String) {comments : List (List Char)}
    (h : ∀ line ∈ comments, ∃ rest, line = '#' :: rest) (lineno : ℕ) (scan : SummaryScan) :
    ∃ total, scanSummary path comments lineno scan = .ok { scan with total := total } := by
  induction comments generalizing lineno scan with
  | nil => exact ⟨scan.total, rfl⟩
  | cons line comments ih =>
      obtain ⟨⟨rest, rfl⟩, hcomments⟩ := List.forall_mem_cons.mp h
      obtain ⟨total, hline⟩ := scanSummaryLine_comment (path ++ ":" ++ toString lineno) scan rest
      obtain ⟨final, hfinal⟩ := ih hcomments (lineno + 1) { scan with total := total }
      refine ⟨final, ?_⟩
      rw [scanSummary, hline]
      exact hfinal

theorem scanSummary_cells (path : String) (cells : List (ℕ × ℕ × ℕ)) (lineno : ℕ)
    (scan : SummaryScan) :
    scanSummary path (cells.map cellLine) lineno scan =
      .ok { scan with out := scan.out ++ cells } := by
  induction cells generalizing lineno scan with
  | nil => simp [scanSummary]
  | cons cell cells ih =>
      rw [List.map_cons, scanSummary, scanSummaryLine_cell]
      refine (ih (lineno + 1) _).trans ?_
      simp

/-- Whatever comments stand ahead, a summary's cells are read back; a total among the comments gives
way to the last line's. -/
theorem readCensusSummary_text (path : String) {comments : List (List Char)}
    (h : ∀ line ∈ comments, ∃ rest, line = '#' :: rest ∧ '\n' ∉ rest ∧ '\r' ∉ rest)
    (cells : List (ℕ × ℕ × ℕ)) :
    readCensusSummary path (textOf (summaryLines comments cells)) = .ok cells := by
  have hdigit : ∀ {c : Char}, c.isDigit = true → c ≠ '\n' ∧ c ≠ '\r' := by
    intro c hc
    constructor <;> rintro rfl <;> cases hc
  have hlines : ∀ line ∈ summaryLines comments cells, '\n' ∉ line ∧ '\r' ∉ line := by
    intro line hline
    simp only [summaryLines, List.mem_append, List.mem_cons, List.mem_map, List.not_mem_nil,
      or_false] at hline
    rcases hline with (hline | rfl | ⟨cell, -, rfl⟩) | rfl
    · obtain ⟨rest, rfl, hn, hr⟩ := h line hline
      exact ⟨by simpa using hn, by simpa using hr⟩
    · decide
    · exact ⟨fun hmem => (mem_cellLine hmem).elim (fun hc => (hdigit hc).1 rfl) (by decide),
        fun hmem => (mem_cellLine hmem).elim (fun hc => (hdigit hc).2 rfl) (by decide)⟩
    · refine ⟨fun hmem => ?_, fun hmem => ?_⟩
      · rcases List.mem_append.mp hmem with hmem | hmem
        · revert hmem
          decide
        · exact (hdigit (isDigit_of_mem_str hmem)).1 rfl
      · rcases List.mem_append.mp hmem with hmem | hmem
        · revert hmem
          decide
        · exact (hdigit (isDigit_of_mem_str hmem)).2 rfl
  have hne : summaryLines comments cells ≠ [] := by simp [summaryLines]
  have hscan : ∀ scan lineno, scanSummary path (summaryLines comments cells ++ [[]]) lineno scan =
      .ok ⟨scan.out ++ cells, some (totalOf cells : ℤ)⟩ := by
    intro scan lineno
    obtain ⟨total, hcomments⟩ := scanSummary_comments path
      (fun line hline => (h line hline).imp fun _ hrest => hrest.1) lineno scan
    rw [summaryLines, List.append_assoc, List.append_assoc, scanSummary_append, hcomments]
    refine Eq.trans (b := scanSummary path _ _ _) rfl ?_
    rw [List.cons_append, scanSummary, scanSummaryLine_header]
    refine Eq.trans (b := scanSummary path _ _ _) rfl ?_
    rw [scanSummary_append, scanSummary_cells]
    refine Eq.trans (b := scanSummary path _ _ _) rfl ?_
    rw [List.singleton_append, scanSummary, scanSummaryLine_total]
    rfl
  rw [readCensusSummary, fileLines_textOf hne hlines, hscan]
  simp [bind_ok, ensure]

/-! ## Provenance -/

/-- A pair that stays on its line. -/
def OneLine (pair : List Char × List Char) : Prop :=
  ∀ c ∈ pair.1 ++ pair.2, c ≠ '\n' ∧ c ≠ '\r'

theorem mem_of_mem_strip {s : List Char} {c : Char} (h : c ∈ strip s) : c ∈ s :=
  (List.dropWhile_sublist _).subset ((List.rdropWhile_prefix _ _).subset h)

theorem assign_oneLine {prov : Provenance} {key value : List Char}
    (hprov : ∀ pair ∈ prov, OneLine pair) (hnew : OneLine (key, value)) :
    ∀ pair ∈ prov.assign key value, OneLine pair := by
  induction prov with
  | nil =>
      intro pair hpair
      rwa [List.mem_singleton.mp hpair]
  | cons entry rest ih =>
      obtain ⟨k, v⟩ := entry
      obtain ⟨hfirst, hrest⟩ := List.forall_mem_cons.mp hprov
      rw [Provenance.assign]
      split
      · next hk => exact List.forall_mem_cons.mpr ⟨hk ▸ hnew, hrest⟩
      · exact List.forall_mem_cons.mpr ⟨hfirst, ih hrest⟩

theorem pairsOf_oneLine {prov : Provenance} (hprov : ∀ pair ∈ prov, OneLine pair)
    (body : List Char) : ∀ pair ∈ pairsOf prov body, OneLine pair := by
  have htokens : ∀ tok ∈ tokens Store.isSpace body, ∀ c ∈ tok, c ≠ '\n' ∧ c ≠ '\r' := by
    intro tok htok c hc
    have hspace := (mem_of_mem_tokens htok hc).2
    constructor <;> rintro rfl <;> cases hspace
  rw [pairsOf]
  generalize tokens Store.isSpace body = toks at htokens
  induction toks generalizing prov with
  | nil => exact hprov
  | cons tok toks ih =>
      obtain ⟨htok, htoks⟩ := List.forall_mem_cons.mp htokens
      rw [List.foldl_cons]
      refine ih ?_ htoks
      split
      · refine assign_oneLine hprov fun c hc => htok c ?_
        rcases List.mem_append.mp hc with hc | hc
        · exact (List.takeWhile_sublist _).subset (mem_of_mem_strip hc)
        · exact (List.dropWhile_sublist _).subset
            (List.mem_of_mem_drop (mem_of_mem_strip hc))
      · exact hprov

theorem readProvenance_oneLine (text : List Char) : ∀ pair ∈ readProvenance text, OneLine pair := by
  suffices h : ∀ (lines : List (List Char)) (prov : Provenance),
      (∀ pair ∈ prov, OneLine pair) → ∀ pair ∈ readProvenance.go lines prov, OneLine pair from
    h _ _ fun _ hpair => absurd hpair List.not_mem_nil
  intro lines
  induction lines with
  | nil => exact fun _ hprov => hprov
  | cons ln rest ih =>
      intro prov hprov
      rw [readProvenance.go]
      split
      · exact ih prov hprov
      · split
        · exact hprov
        · dsimp only
          split
          · exact ih prov hprov
          · exact ih _ (pairsOf_oneLine hprov _)

theorem readProvenanceFile_oneLine (text : List Char) :
    ∀ pair ∈ readProvenanceFile text, OneLine pair := by
  rw [readProvenanceFile]
  suffices h : ∀ (lines : List (List Char)) (prov : Provenance),
      (∀ pair ∈ prov, OneLine pair) → ∀ pair ∈ lines.foldl (fun prov ln =>
        if magic.isPrefixOf (strip ((strip ln).dropWhile (· = '#'))) then prov
        else pairsOf prov (strip ((strip ln).dropWhile (· = '#')))) prov, OneLine pair from
    h _ _ fun _ hpair => absurd hpair List.not_mem_nil
  intro lines
  induction lines with
  | nil => exact fun _ hprov => hprov
  | cons ln rest ih =>
      intro prov hprov
      rw [List.foldl_cons]
      refine ih _ ?_
      split
      · exact hprov
      · exact pairsOf_oneLine hprov _

/-- A pair's line is a comment of one line. -/
theorem pairLine_comment {pair : List Char × List Char} (h : OneLine pair) :
    ∃ rest, pairLine pair = '#' :: rest ∧ '\n' ∉ rest ∧ '\r' ∉ rest := by
  refine ⟨' ' :: pair.1 ++ '=' :: pair.2, rfl, fun hmem => ?_, fun hmem => ?_⟩
  · simp only [List.cons_append, List.mem_cons, List.mem_append] at hmem
    rcases hmem with hc | hmem | hc | hmem
    · cases hc
    · exact (h _ (List.mem_append_left _ hmem)).1 rfl
    · cases hc
    · exact (h _ (List.mem_append_right _ hmem)).1 rfl
  · simp only [List.cons_append, List.mem_cons, List.mem_append] at hmem
    rcases hmem with hc | hmem | hc | hmem
    · cases hc
    · exact (h _ (List.mem_append_left _ hmem)).2 rfl
    · cases hc
    · exact (h _ (List.mem_append_right _ hmem)).2 rfl

/-- A summary that was written from a trace is read back cell by cell. -/
theorem readCensusSummary_writeSummary (path : String) (rows : List TraceRow)
    {prov : Provenance} (hprov : ∀ pair ∈ prov, OneLine pair) :
    readCensusSummary path (writeSummary rows prov) = .ok (canonicalSummary rows) := by
  refine readCensusSummary_text path (fun line hline => ?_) _
  split at hline
  · exact absurd hline List.not_mem_nil
  · rcases List.mem_cons.mp hline with rfl | hline
    · exact ⟨_, rfl, by decide, by decide⟩
    · obtain ⟨pair, hpair, rfl⟩ := List.mem_map.mp hline
      exact pairLine_comment (hprov pair hpair)

/-- A seed by way of a trace's summary is the seed of the trace. -/
theorem cmdSelectCensus_cmdSummary (path summaryPath : String) (trace : List Char)
    (slotsPerLayer : ℤ) (layerKeys : List (ℕ × ℕ)) :
    (cmdSummary path trace >>= fun summary =>
      cmdSelectCensus summaryPath summary slotsPerLayer layerKeys) =
      cmdSelectTrace path trace slotsPerLayer layerKeys := by
  rw [cmdSummary, cmdSelectTrace]
  cases hrows : parseTrace path trace with
  | error e => rfl
  | ok rows =>
      have hread := readCensusSummary_writeSummary summaryPath rows (readProvenance_oneLine trace)
      refine Eq.trans (b := cmdSelectCensus _ _ _ _) rfl ?_
      rw [cmdSelectCensus, hread]
      refine Eq.trans (b := selectHotSetFromCounts _ _ >>= _) rfl ?_
      rw [selectHotSetFromCounts_canonicalSummary rows slotsPerLayer]
      rfl

theorem oneLine_str {key : String} (hkey : ∀ c ∈ key.toList, c ≠ '\n' ∧ c ≠ '\r') (n : ℕ) :
    OneLine (key.toList, str n) := by
  intro c hc
  rcases List.mem_append.mp hc with hc | hc
  · exact hkey c hc
  · have hdigit := isDigit_of_mem_str hc
    constructor <;> rintro rfl <;> cases hdigit

theorem oneLine_int {key : String} (hkey : ∀ c ∈ key.toList, c ≠ '\n' ∧ c ≠ '\r') (n : ℤ) :
    OneLine (key.toList, (toString n).toList) := by
  have hminus : ∀ c ∈ '-' :: str n.natAbs, c ≠ '\n' ∧ c ≠ '\r' := by
    intro c hc
    rcases List.mem_cons.mp hc with rfl | hc
    · decide
    · have hdigit := isDigit_of_mem_str hc
      constructor <;> rintro rfl <;> cases hdigit
  have hsub : (toString n).toList ⊆ '-' :: str n.natAbs := by
    cases n with
    | ofNat m =>
        have htext : (toString (Int.ofNat m)).toList = str m := by simp [toString, Int.repr, str]
        rw [htext]
        exact List.subset_cons_self _ _
    | negSucc m =>
        have htext : (toString (Int.negSucc m)).toList = '-' :: str (m + 1) := by
          simp [toString, Int.repr, str]
        rw [htext]
        exact List.Subset.refl _
  intro c hc
  rcases List.mem_append.mp hc with hc | hc
  · exact hkey c hc
  · exact hminus c (hsub hc)

theorem items_oneLine (about : Meta) : ∀ pair ∈ about.items, OneLine pair := by
  simp only [Meta.items, List.forall_mem_cons]
  refine ⟨oneLine_str (by simp) _, oneLine_str (by simp) _, oneLine_str (by simp) _,
    oneLine_str (by simp) _, oneLine_str (by simp) _, oneLine_str (by simp) _,
    oneLine_int (by simp) _, ?_, oneLine_str (by simp) _,
    fun _ h => absurd h List.not_mem_nil⟩
  split
  · simp [OneLine]
  · exact oneLine_int (by simp) _

end Arcint.Fill.Census
