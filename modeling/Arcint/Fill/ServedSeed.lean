import Arcint.Fill.CensusText
import Arcint.Foundation.Delimited

/-! # From the plugin's trace to its residents

A seed that the census writes under a map of layer keys is accepted by the plugin's reader row for
row. Taken from the plugin's own calls, it gives each layer the experts that its calls asked for
most.
-/

namespace Arcint.Fill.Census

open Foundation

/-! ## Lines of a seed -/

/-- A row that the plugin's numbers can hold. -/
structure Writable (row : ℕ × List ℕ) : Prop where
  key_lt : row.1 < 2 ^ 64
  expert_le : ∀ e ∈ row.2, e ≤ 0xFFFFFFFF
  nodup : row.2.Nodup
  ne_nil : row.2 ≠ []

theorem parseUll_str {n : ℕ} (h : n < 2 ^ 64) : CensusSeed.parseUll (str n) = some n := by
  have hdigits : (str n).all Char.isDigit = true :=
    List.all_eq_true.mpr fun _ => isDigit_of_mem_str
  have hempty : (str n).isEmpty = false := List.isEmpty_eq_false_iff.mpr (str_ne_nil n)
  have hvalue : Nat.ofDigitChars 10 (str n) 0 = n := value_str n
  rw [CensusSeed.parseUll, hdigits, hempty, hvalue]
  exact if_pos h

theorem parseExpert_str {e : ℕ} (h : e ≤ 0xFFFFFFFF) :
    CensusSeed.parseExpert (str e) = .ok e := by
  rw [CensusSeed.parseExpert, parseUll_str (by omega)]
  exact if_neg (by omega)

theorem firstRepeat_eq_none {l : List ℕ} (h : l.Nodup) : CensusSeed.firstRepeat l = none := by
  induction l with
  | nil => rfl
  | cons a l ih =>
      cases l with
      | nil => rfl
      | cons b l =>
          obtain ⟨ha, hl⟩ := List.nodup_cons.mp h
          rw [CensusSeed.firstRepeat,
            if_neg fun hab : a = b => ha (hab ▸ List.mem_cons_self), ih hl]

theorem parseAll_parseExpert {experts : List ℕ} (h : ∀ e ∈ experts, e ≤ 0xFFFFFFFF) :
    parseAll CensusSeed.parseExpert (experts.map str) = .ok experts := by
  induction experts with
  | nil => rfl
  | cons e experts ih =>
      obtain ⟨he, hrest⟩ := List.forall_mem_cons.mp h
      rw [List.map_cons, parseAll, parseExpert_str he, ih hrest]

theorem parseRow_str {rows : CensusSeed} {row : ℕ × List ℕ} (h : Writable row)
    (hnew : row.1 ∉ rows.map Prod.fst) :
    CensusSeed.parseRow rows (str row.1 :: row.2.map str) = .ok row := by
  obtain ⟨key, experts⟩ := row
  obtain ⟨e, more, rfl⟩ := List.exists_cons_of_ne_nil h.ne_nil
  have hrepeat : CensusSeed.firstRepeat ((e :: more).insertionSort (· ≤ ·)) = none :=
    firstRepeat_eq_none ((List.perm_insertionSort _ _).nodup_iff.mpr h.nodup)
  have hall := parseAll_parseExpert h.expert_le
  rw [List.map_cons] at hall
  rw [List.map_cons, CensusSeed.parseRow, parseUll_str h.key_lt]
  dsimp only
  rw [if_neg hnew, hall]
  dsimp only
  rw [hrepeat]

theorem isBlank_of_isDigit {c : Char} (h : c.isDigit = true) : CensusSeed.isBlank c = false := by
  rw [← isSpace_eq_isBlank (.inr h)]
  exact isSpace_of_isDigit h

/-- A line's characters are digits with blanks between them. -/
theorem mem_seedLine {key : ℕ} {experts : List ℕ} {c : Char} (h : c ∈ seedLine key experts) :
    c = ' ' ∨ c.isDigit = true := by
  rw [seedLine, intercalate_cons_eq] at h
  rcases List.mem_append.mp h with h | h
  · exact .inr (isDigit_of_mem_str h)
  · refine (mem_fields h).imp_right ?_
    rintro ⟨word, hword, hc⟩
    obtain ⟨e, -, rfl⟩ := List.mem_map.mp hword
    exact isDigit_of_mem_str hc

theorem tokens_seedLine (key : ℕ) (experts : List ℕ) :
    tokens CensusSeed.isBlank (seedLine key experts) = str key :: experts.map str := by
  have hwords : ∀ word ∈ str key :: experts.map str, ∃ n, word = str n := by
    intro word hword
    rcases List.mem_cons.mp hword with rfl | hword
    · exact ⟨key, rfl⟩
    · obtain ⟨e, -, rfl⟩ := List.mem_map.mp hword
      exact ⟨e, rfl⟩
  have hblank : ∀ c ∈ seedLine key experts, CensusSeed.isBlank c = (c == ' ') := by
    intro c hc
    rcases mem_seedLine hc with rfl | hdigit
    · rfl
    · rw [isBlank_of_isDigit hdigit, eq_comm, beq_eq_false_iff_ne]
      rintro rfl
      cases hdigit
  have hsplit : (seedLine key experts).splitOnP (· == ' ') = str key :: experts.map str := by
    refine List.splitOn_intercalate ' ' (fun word hword hspace => ?_) (List.cons_ne_nil _ _)
    obtain ⟨n, rfl⟩ := hwords word hword
    cases isDigit_of_mem_str hspace
  rw [tokens_congr hblank, tokens, hsplit, List.filter_eq_self]
  intro word hword
  obtain ⟨n, rfl⟩ := hwords word hword
  simpa using str_ne_nil n

theorem scanLine_seedLine {scan : CensusSeed.Scan} {row : ℕ × List ℕ} (h : Writable row)
    (hnew : row.1 ∉ scan.rows.map Prod.fst) :
    CensusSeed.scanLine scan (seedLine row.1 row.2) =
      .ok { scan with rows := scan.rows ++ [row] } := by
  have htokens := tokens_rdropWhile (p := CensusSeed.isBlank) (seedLine row.1 row.2)
  rw [tokens_seedLine] at htokens
  obtain ⟨c, rest, hline⟩ :
      ∃ c rest, (seedLine row.1 row.2).rdropWhile CensusSeed.isBlank = c :: rest := by
    refine List.exists_cons_of_ne_nil fun hnil => ?_
    rw [hnil] at htokens
    cases htokens
  have hc : c ≠ '#' := by
    rintro rfl
    have hmem : '#' ∈ seedLine row.1 row.2 :=
      (List.rdropWhile_prefix _ _).subset (hline ▸ List.mem_cons_self)
    rcases mem_seedLine hmem with h | h <;> cases h
  rw [hline] at htokens
  rw [CensusSeed.scanLine, hline]
  dsimp only
  rw [if_neg hc, htokens, parseRow_str h hnew]

/-- Rows under keys of their own are read one by one. -/
theorem scanLines_seedLines {rows : List (ℕ × List ℕ)} (h : ∀ row ∈ rows, Writable row)
    (hnodup : (rows.map Prod.fst).Nodup) (lineno : ℕ) (scan : CensusSeed.Scan)
    (hnew : ∀ row ∈ rows, row.1 ∉ scan.rows.map Prod.fst) :
    CensusSeed.scanLines (rows.map (fun row => seedLine row.1 row.2) ++ [[]]) lineno scan =
      .ok { scan with rows := scan.rows ++ rows } := by
  induction rows generalizing lineno scan with
  | nil => simp [CensusSeed.scanLines, CensusSeed.scanLine]
  | cons row rows ih =>
      obtain ⟨hrow, hrows⟩ := List.forall_mem_cons.mp h
      obtain ⟨hfirst, hnodup⟩ := List.nodup_cons.mp hnodup
      obtain ⟨hrownew, hrowsnew⟩ := List.forall_mem_cons.mp hnew
      rw [List.map_cons, List.cons_append, CensusSeed.scanLines, scanLine_seedLine hrow hrownew]
      refine (ih hrows hnodup (lineno + 1) _ fun other hother => ?_).trans (by simp)
      rw [List.map_append, List.mem_append, not_or]
      refine ⟨hrowsnew other hother, ?_⟩
      rintro hkey
      rw [List.map_singleton, List.mem_singleton] at hkey
      exact hfirst (hkey ▸ List.mem_map_of_mem hother)

/-! ## The header -/

theorem afterSpace_eq_none {line : List Char} (h : 's' ∉ line) :
    CensusSeed.afterSpace line = none := by
  induction line with
  | nil => rfl
  | cons c rest ih =>
      rw [List.mem_cons, not_or] at h
      have hno : ("space=".toList.isPrefixOf (c :: rest)) = false := by
        have hc : ('s' == c) = false := beq_eq_false_iff_ne.mpr h.1
        simp [List.isPrefixOf, hc]
      rw [CensusSeed.afterSpace, hno]
      exact ih h.2

theorem mem_mapJson {keys : List (ℕ × ℕ)} {c : Char} (h : c ∈ mapJson keys) :
    c ∈ "\x7b\x7d\": ,".toList ∨ c.isDigit = true := by
  have hcomma : ", ".toList ⊆ "\x7b\x7d\": ,".toList := by decide
  have hcolon : "\": ".toList ⊆ "\x7b\x7d\": ,".toList := by decide
  rw [mapJson, List.mem_append, List.mem_cons, List.mem_singleton] at h
  rcases h with (rfl | h) | rfl
  · exact .inl (by decide)
  · rcases mem_intercalate h with h | ⟨text, htext, h⟩
    · exact .inl (hcomma h)
    · obtain ⟨entry, -, rfl⟩ := List.mem_map.mp htext
      simp only [List.cons_append, List.mem_cons, List.mem_append] at h
      rcases h with rfl | (h | h) | h
      · exact .inl (by decide)
      · exact .inr (isDigit_of_mem_str h)
      · exact .inl (hcolon h)
      · exact .inr (isDigit_of_mem_str h)
  · exact .inl (by decide)

/-- The spelled map declares no space of its own. -/
theorem scanLine_map (scan : CensusSeed.Scan) (keys : List (ℕ × ℕ)) :
    CensusSeed.scanLine scan ("# layer_key_by_index=".toList ++ mapJson keys) = .ok scan := by
  have hs : 's' ∉ "# layer_key_by_index=".toList ++ mapJson keys := by
    intro hmem
    rcases List.mem_append.mp hmem with hmem | hmem
    · revert hmem
      decide
    · rcases mem_mapJson hmem with h | h
      · revert h
        decide
      · cases h
  have hself : ("# layer_key_by_index=".toList ++ mapJson keys).rdropWhile CensusSeed.isBlank =
      "# layer_key_by_index=".toList ++ mapJson keys := by
    rw [mapJson, ← List.append_assoc]
    exact List.rdropWhile_concat_neg _ _ _ (by decide)
  have hhead : "# layer_key_by_index=".toList ++ mapJson keys =
      '#' :: (" layer_key_by_index=".toList ++ mapJson keys) := rfl
  rw [CensusSeed.scanLine, hself, hhead]
  dsimp only
  rw [if_pos rfl, CensusSeed.scanComment, ← hhead, afterSpace_eq_none hs]

theorem scanLine_title (scan : CensusSeed.Scan) :
    CensusSeed.scanLine scan "# hot-set seed v2 (frequency rank, id tie-break)".toList =
      .ok scan := rfl

theorem scanLine_space (scan : CensusSeed.Scan) :
    CensusSeed.scanLine scan "# space=layer_key".toList =
      .ok { scan with spaceDeclared := true, spaceIsLayerKey := true } := rfl

/-- A seed under a map of layer keys is read as the rows that were written. -/
theorem parse_textOf {keys : List (ℕ × ℕ)} {rows : List (ℕ × List ℕ)}
    (h : ∀ row ∈ rows, Writable row) (hnodup : (rows.map Prod.fst).Nodup) (hne : rows ≠ []) :
    CensusSeed.parse (textOf (["# hot-set seed v2 (frequency rank, id tie-break)".toList,
      "# space=layer_key".toList, "# layer_key_by_index=".toList ++ mapJson keys] ++
        rows.map fun row => seedLine row.1 row.2)) = .ok rows := by
  have hlines : ∀ line ∈ ["# hot-set seed v2 (frequency rank, id tie-break)".toList,
      "# space=layer_key".toList, "# layer_key_by_index=".toList ++ mapJson keys] ++
        rows.map (fun row => seedLine row.1 row.2), '\n' ∉ line := by
    simp only [List.cons_append, List.nil_append, List.forall_mem_cons, List.forall_mem_map]
    refine ⟨by decide, by decide, fun hmem => ?_, fun row _ hmem => ?_⟩
    · rcases List.mem_append.mp hmem with hmem | hmem
      · revert hmem
        decide
      · rcases mem_mapJson hmem with h | h
        · revert h
          decide
        · cases h
    · rcases mem_seedLine hmem with h | h <;> cases h
  have hscan := scanLines_seedLines h hnodup 4 ⟨[], true, true⟩ fun _ _ => List.not_mem_nil
  rw [CensusSeed.parse, splitOnP_textOf (by simp) hlines]
  simp only [List.cons_append, List.nil_append, CensusSeed.scanLines, scanLine_title,
    scanLine_space, scanLine_map, hscan]
  have hrows : ([] ++ rows : CensusSeed) ≠ [] := hne
  exact bind_ok.mpr ⟨_, rfl, bind_ok.mpr ⟨(), (ensure_ok _ _ _).mpr rfl,
    bind_ok.mpr ⟨(), (ensure_ok _ _ _).mpr rfl,
      bind_ok.mpr ⟨(), (ensure_ok _ _ _).mpr hrows, rfl⟩⟩⟩⟩

/-- The rows that a hot set is written as. -/
def seedRows (hot : List (ℕ × List ℕ)) (keys : List (ℕ × ℕ)) : List (ℕ × List ℕ) :=
  (sortBy Prod.fst hot).map fun entry => ((keys.lookup entry.1).getD 0, entry.2)

/-- A seed that is written under a map has a key for every layer. -/
theorem seedText_ok {hot : List (ℕ × List ℕ)} {keys : List (ℕ × ℕ)} {text : List Char}
    (hkeys : keys ≠ []) (h : seedText hot keys = .ok text) :
    (∀ entry ∈ hot, (keys.lookup entry.1).isSome) ∧
      text = textOf (["# hot-set seed v2 (frequency rank, id tie-break)".toList,
        "# space=layer_key".toList, "# layer_key_by_index=".toList ++ mapJson keys] ++
          (seedRows hot keys).map fun row => seedLine row.1 row.2) := by
  rw [seedText, bind_ok] at h
  obtain ⟨_, -, h⟩ := h
  simp only [if_neg hkeys] at h
  rw [bind_ok] at h
  obtain ⟨lines, hlines, h⟩ := h
  have hline : ∀ (entry : ℕ × List ℕ) line,
      (do
        let key ← lineKey keys entry.1
        return seedLine key entry.2 : Except String (List Char)) = .ok line →
      (keys.lookup entry.1).isSome ∧
        line = seedLine ((keys.lookup entry.1).getD 0) entry.2 := by
    intro entry line hline
    obtain ⟨key, hkey, hline⟩ := bind_ok.mp hline
    rw [lineKey, if_neg hkeys] at hkey
    cases hlookup : keys.lookup entry.1 with
    | none => rw [hlookup] at hkey; cases hkey
    | some found =>
        rw [hlookup] at hkey
        exact ⟨rfl, by rw [← Except.ok.inj hline, ← Except.ok.inj hkey]; rfl⟩
  refine ⟨fun entry hentry => ?_, ?_⟩
  · obtain ⟨line, hparsed⟩ := exists_of_parseAll hlines ((sortBy_perm _ _).mem_iff.mpr hentry)
    exact (hline entry line hparsed).1
  · have hmap := parseAll_eq_map (fun entry line hparsed => (hline entry line hparsed).2) hlines
    rw [← Except.ok.inj h, hmap, seedRows, List.map_map]
    rfl

/-! ## From calls to residents -/

/-- The ids that the selected calls of a layer key routed to. -/
def routed (calls : List CallRow) (window : Window) (layerKey : ℕ) : List ℕ :=
  ((calls.filter window.selects).filter (·.layerKey = layerKey)).flatMap CallRow.ids

section Served

variable {calls : List CallRow} {keys : List (ℕ × ℕ)} {window : Window}

/-- A map that an index was made from: a key has the layer that has the key. -/
theorem lookup_inverse (hdict : (keys.map Prod.fst).Nodup) (hvals : (keys.map Prod.snd).Nodup)
    {idx key : ℕ} :
    (keys.map fun entry => (entry.2, entry.1)).lookup key = some idx ↔
      keys.lookup idx = some key := by
  have hfst : (keys.map fun entry => (entry.2, entry.1)).map Prod.fst = keys.map Prod.snd := by
    rw [List.map_map]
    rfl
  rw [lookup_eq_some_iff_mem (hfst ▸ hvals), lookup_eq_some_iff_mem hdict, List.mem_map]
  constructor
  · rintro ⟨entry, hentry, heq⟩
    obtain ⟨rfl, rfl⟩ := Prod.mk.inj heq
    exact hentry
  · exact fun h => ⟨(idx, key), h, rfl⟩

theorem layerKeyIndexMap_ok {layerKeys : List ℕ} {lkIndex : List (ℕ × ℕ)}
    (h : layerKeyIndexMap layerKeys (some keys) = .ok lkIndex) :
    (keys.map Prod.snd).Nodup ∧ lkIndex = keys.map (fun entry => (entry.2, entry.1)) ∧
      ∀ key ∈ layerKeys, key ∈ keys.map Prod.snd := by
  rw [layerKeyIndexMap] at h
  dsimp only at h
  rw [bind_ok] at h
  obtain ⟨_, hvals, h⟩ := h
  rw [bind_ok] at h
  obtain ⟨_, hmissing, h⟩ := h
  refine ⟨(ensure_ok _ _ _).mp hvals, (Except.ok.inj h).symm, fun key hkey => ?_⟩
  have hpresent := List.filter_eq_nil_iff.mp ((ensure_ok _ _ _).mp hmissing) key
    (mem_sortedDistinct.mpr hkey)
  rw [List.map_map] at hpresent
  simpa using hpresent

/-- A layer's accesses are those of the calls of its key. -/
theorem filterMap_callEntries {lkIndex : List (ℕ × ℕ)} {selected : List CallRow} {idx key : ℕ}
    (h : ∀ call ∈ selected, (lkIndex.lookup call.layerKey).getD 0 = idx ↔ call.layerKey = key) :
    (callEntries lkIndex selected).filterMap (part idx) =
      (selected.filter (·.layerKey = key)).flatMap CallRow.ids := by
  induction selected with
  | nil => rfl
  | cons call selected ih =>
      obtain ⟨hcall, hselected⟩ := List.forall_mem_cons.mp h
      rw [callEntries, List.flatMap_cons, List.filterMap_append, filterMap_part_map, ← callEntries,
        ih hselected]
      by_cases hkey : call.layerKey = key
      · rw [if_pos (hcall.mpr hkey), List.filter_cons_of_pos (by simpa using hkey),
          List.flatMap_cons]
      · rw [if_neg (mt hcall.mp hkey), List.filter_cons_of_neg (by simpa using hkey),
          List.nil_append]

/-- The rows of the seed that a census leads to. -/
theorem residentExperts_of_row {seed : CensusSeed} (hnodup : (seed.map Prod.fst).Nodup)
    {key numExpert capacity : ℕ} {experts : List ℕ} (hrow : (key, experts) ∈ seed)
    (hlength : experts.length = capacity) (hrange : ∀ e ∈ experts, e < numExpert) :
    CensusSeed.residentExperts seed key numExpert capacity =
      .ok (experts.insertionSort (· ≤ ·)) := by
  have hlookup : seed.lookup key = some experts := (lookup_eq_some_iff_mem hnodup).mpr hrow
  rw [CensusSeed.residentExperts, hlookup]
  refine bind_ok.mpr ⟨(), (ensure_ok _ _ _).mpr hlength, bind_ok.mpr ⟨(), ?_, rfl⟩⟩
  exact (checkAll_ok _ _ _).mpr fun e he => (ensure_ok _ _ _).mpr (hrange e he)

/-- A census's text is read back, and was counted from the selected calls. -/
theorem cmdCensus_ok {provenance census : List Char} {layerKeys : Option (List (ℕ × ℕ))}
    (h : cmdCensusFromCallTrace calls provenance layerKeys window = .ok census) (path : String) :
    ∃ cells about, censusFromCallTrace calls layerKeys window = .ok (cells, about) ∧
      readCensusSummary path census = .ok cells := by
  rw [cmdCensusFromCallTrace, bind_ok] at h
  obtain ⟨_, -, h⟩ := h
  obtain ⟨⟨cells, about⟩, hcensus, h⟩ := bind_ok.mp h
  refine ⟨cells, about, hcensus, ?_⟩
  rw [← Except.ok.inj h]
  refine readCensusSummary_text path (fun line hline => ?_) cells
  rcases List.mem_cons.mp hline with rfl | hline
  · exact ⟨_, rfl, by decide, by decide⟩
  · obtain ⟨pair, hpair, rfl⟩ := List.mem_map.mp hline
    refine pairLine_comment ?_
    rcases List.mem_append.mp hpair with hpair | hpair
    · exact readProvenanceFile_oneLine _ pair hpair
    · exact items_oneLine about pair hpair

/-- What a map of layer keys does for the selected calls. -/
structure Indexed (keys : List (ℕ × ℕ)) (selected : List CallRow) : Prop where
  dict : (keys.map Prod.fst).Nodup
  vals : (keys.map Prod.snd).Nodup
  covers : ∀ call ∈ selected, ∃ idx, keys.lookup idx = some call.layerKey
  ids_ne : ∀ call ∈ selected, call.ids ≠ []

section Indexed

variable {selected : List CallRow}

/-- The index of the map. -/
def inverse (keys : List (ℕ × ℕ)) : List (ℕ × ℕ) := keys.map fun entry => (entry.2, entry.1)

theorem Indexed.lookup (h : Indexed keys selected) {call : CallRow} (hcall : call ∈ selected) :
    keys.lookup (((inverse keys).lookup call.layerKey).getD 0) = some call.layerKey := by
  obtain ⟨idx, hidx⟩ := h.covers call hcall
  have hinverse : (inverse keys).lookup call.layerKey = some idx :=
    (lookup_inverse h.dict h.vals).mpr hidx
  rwa [hinverse, Option.getD_some]

/-- The accesses of the layer that a call's key has are the ids routed under the key. -/
theorem Indexed.part_eq (h : Indexed keys selected) {call : CallRow} (hcall : call ∈ selected) :
    (callEntries (inverse keys) selected).filterMap
        (part (((inverse keys).lookup call.layerKey).getD 0)) =
      (selected.filter (·.layerKey = call.layerKey)).flatMap CallRow.ids := by
  refine filterMap_callEntries fun other hother => ⟨fun heq => ?_, fun heq => by rw [heq]⟩
  have hkey := h.lookup hother
  rw [heq, h.lookup hcall] at hkey
  exact (Option.some.inj hkey).symm

/-- Every layer of the hot set is that of a selected call. -/
theorem Indexed.mem_hotSet (h : Indexed keys selected) {slots : ℕ} {entry : ℕ × List ℕ} :
    entry ∈ hotSet slots (callEntries (inverse keys) selected) ↔
      ∃ call ∈ selected, entry = (((inverse keys).lookup call.layerKey).getD 0,
        mostFrequent slots ((selected.filter (·.layerKey = call.layerKey)).flatMap
          CallRow.ids)) := by
  rw [hotSet, List.mem_map]
  constructor
  · rintro ⟨lay, hlay, rfl⟩
    obtain ⟨⟨lay, e⟩, haccess, rfl⟩ := List.mem_map.mp (mem_sortedDistinct.mp hlay)
    obtain ⟨call, hcall, hids⟩ := List.mem_flatMap.mp haccess
    obtain ⟨e', -, heq⟩ := List.mem_map.mp hids
    obtain ⟨rfl, -⟩ := Prod.mk.inj heq
    exact ⟨call, hcall, by rw [h.part_eq hcall]⟩
  · rintro ⟨call, hcall, rfl⟩
    obtain ⟨e, he⟩ := List.exists_mem_of_ne_nil _ (h.ids_ne call hcall)
    refine ⟨_, mem_sortedDistinct.mpr (List.mem_map.mpr ⟨(_, e), List.mem_flatMap.mpr
      ⟨call, hcall, List.mem_map_of_mem he⟩, rfl⟩), by rw [h.part_eq hcall]⟩

/-- The rows of the seed: a selected call's key, and what was routed under it most. -/
theorem Indexed.mem_seedRows (h : Indexed keys selected) {slots : ℕ} {row : ℕ × List ℕ} :
    row ∈ seedRows (hotSet slots (callEntries (inverse keys) selected)) keys ↔
      ∃ call ∈ selected, row = (call.layerKey,
        mostFrequent slots ((selected.filter (·.layerKey = call.layerKey)).flatMap
          CallRow.ids)) := by
  rw [seedRows, List.mem_map]
  constructor
  · rintro ⟨entry, hentry, rfl⟩
    obtain ⟨call, hcall, rfl⟩ := h.mem_hotSet.mp ((sortBy_perm _ _).mem_iff.mp hentry)
    exact ⟨call, hcall, by rw [h.lookup hcall]; rfl⟩
  · rintro ⟨call, hcall, rfl⟩
    exact ⟨_, (sortBy_perm _ _).mem_iff.mpr (h.mem_hotSet.mpr ⟨call, hcall, rfl⟩), by
      rw [h.lookup hcall]; rfl⟩

omit keys in
theorem lt_of_mem_mostFrequent {numExpert slots key : ℕ}
    (h : ∀ call ∈ selected, call.layerKey < 2 ^ 64 ∧ ∀ e ∈ call.ids, e < numExpert) :
    ∀ e ∈ mostFrequent slots ((selected.filter (·.layerKey = key)).flatMap CallRow.ids),
      e < numExpert := by
  intro e he
  obtain ⟨call, hcall, he⟩ := List.mem_flatMap.mp (mem_of_mem_mostFrequent he)
  exact (h call (List.mem_of_mem_filter hcall)).2 e he

/-- The rows of the seed are rows that the plugin's reader takes. -/
theorem Indexed.writable (h : Indexed keys selected) {numExpert slots : ℕ}
    (hbounds : ∀ call ∈ selected, call.layerKey < 2 ^ 64 ∧ ∀ e ∈ call.ids, e < numExpert)
    (hnum : numExpert ≤ 2 ^ 32) (hslots : 0 < slots) {row : ℕ × List ℕ}
    (hrow : row ∈ seedRows (hotSet slots (callEntries (inverse keys) selected)) keys) :
    Writable row := by
  obtain ⟨call, hcall, rfl⟩ := h.mem_seedRows.mp hrow
  set ids := (selected.filter (·.layerKey = call.layerKey)).flatMap CallRow.ids with hids
  obtain ⟨e, he⟩ := List.exists_mem_of_ne_nil _ (h.ids_ne call hcall)
  have hmem : e ∈ ids :=
    List.mem_flatMap.mpr ⟨call, List.mem_filter.mpr ⟨hcall, by simp⟩, he⟩
  have hpos : 0 < ids.toFinset.card := Finset.card_pos.mpr ⟨e, List.mem_toFinset.mpr hmem⟩
  refine ⟨(hbounds call hcall).1, fun e he => ?_, nodup_mostFrequent _ _, fun hnil => ?_⟩
  · have := lt_of_mem_mostFrequent hbounds e he
    omega
  · have hlength := length_mostFrequent slots ids
    have hempty : mostFrequent slots ids = [] := hnil
    rw [hempty, List.length_nil] at hlength
    omega

theorem Indexed.nodup_seedRows (h : Indexed keys selected) (slots : ℕ) :
    ((seedRows (hotSet slots (callEntries (inverse keys) selected)) keys).map
      Prod.fst).Nodup := by
  have hlayers : ((hotSet slots (callEntries (inverse keys) selected)).map Prod.fst).Nodup := by
    rw [hotSet, List.map_map]
    exact (nodup_sortedDistinct _).map fun _ _ heq => heq
  have hsorted := ((sortBy_perm Prod.fst (hotSet slots (callEntries (inverse keys)
    selected))).map Prod.fst).nodup_iff.mpr hlayers
  rw [seedRows, List.map_map]
  refine (List.nodup_map_iff_inj_on (List.Nodup.of_map _ hsorted)).mpr fun a ha b hb heq => ?_
  obtain ⟨call, hcall, rfl⟩ := h.mem_hotSet.mp ((sortBy_perm _ _).mem_iff.mp ha)
  obtain ⟨call', hcall', rfl⟩ := h.mem_hotSet.mp ((sortBy_perm _ _).mem_iff.mp hb)
  have hkey : call.layerKey = call'.layerKey := by
    simpa [h.lookup hcall, h.lookup hcall'] using heq
  rw [hkey]

end Indexed

/-- The seed that a census of the plugin's own calls leads to is accepted by the plugin, and a layer
whose calls routed to enough experts gets those that they routed to most: no other experts of their
number would have served as many accesses. -/
theorem seed_serves_calls {provenance census text : List Char} {path : String} {slots numExpert : ℕ}
    (hcensus : cmdCensusFromCallTrace calls provenance (some keys) window = .ok census)
    (hselect : cmdSelectCensus path census slots keys = .ok text)
    (hdict : (keys.map Prod.fst).Nodup)
    (hcalls : ∀ call ∈ calls, call.layerKey < 2 ^ 64 ∧ ∀ e ∈ call.ids, e < numExpert)
    (hnum : numExpert ≤ 2 ^ 32) (hslots : 0 < slots) :
    ∃ seed, CensusSeed.parse text = .ok seed ∧
      ∀ layerKey, slots ≤ (routed calls window layerKey).toFinset.card →
        ∃ resident, CensusSeed.residentExperts seed layerKey numExpert slots = .ok resident ∧
          resident.Pairwise (· < ·) ∧ resident.length = slots ∧
          ∀ S : Finset ℕ, S.card ≤ slots →
            (routed calls window layerKey).countP (· ∈ S) ≤
              (routed calls window layerKey).countP (· ∈ resident) := by
  obtain ⟨cells, about, hcells, hread⟩ := cmdCensus_ok hcensus path
  obtain ⟨lkIndex, hindex, hne, hids, rfl⟩ := censusFromCallTrace_ok hcells
  obtain ⟨hvals, rfl, hcovers⟩ := layerKeyIndexMap_ok hindex
  set selected := calls.filter window.selects with hselected
  have hindexed : Indexed keys selected := by
    refine ⟨hdict, hvals, fun call hcall => ?_, hids⟩
    obtain ⟨⟨idx, key⟩, hentry, hkey⟩ :=
      List.mem_map.mp (hcovers _ (List.mem_map_of_mem hcall))
    exact ⟨idx, (lookup_eq_some_iff_mem hdict).mpr (hkey ▸ hentry)⟩
  have hkeys : keys ≠ [] := by
    rintro rfl
    obtain ⟨call, hcall⟩ := List.exists_mem_of_ne_nil _ hne
    obtain ⟨idx, hidx⟩ := hindexed.covers call hcall
    cases hidx
  rw [cmdSelectCensus, hread] at hselect
  obtain ⟨counts, hcounts, hselect⟩ := bind_ok.mp hselect
  obtain rfl := Except.ok.inj hcounts
  obtain ⟨hot, hhot, hseed⟩ := bind_ok.mp hselect
  rw [selectHotSetFromCounts_eq _ (Int.natCast_nonneg slots), Int.toNat_natCast] at hhot
  obtain rfl := Except.ok.inj hhot
  obtain ⟨-, rfl⟩ := seedText_ok hkeys hseed
  have hbounds : ∀ call ∈ selected, call.layerKey < 2 ^ 64 ∧ ∀ e ∈ call.ids, e < numExpert :=
    fun call hcall => hcalls call (List.mem_of_mem_filter hcall)
  have hrows : ∀ row ∈ seedRows (hotSet slots (callEntries (inverse keys) selected)) keys,
      Writable row := fun row hrow => hindexed.writable hbounds hnum hslots hrow
  have hnodup := hindexed.nodup_seedRows slots
  have hnonempty : seedRows (hotSet slots (callEntries (inverse keys) selected)) keys ≠ [] := by
    obtain ⟨call, hcall⟩ := List.exists_mem_of_ne_nil _ hne
    exact List.ne_nil_of_mem (hindexed.mem_seedRows.mpr ⟨call, hcall, rfl⟩)
  refine ⟨_, parse_textOf hrows hnodup hnonempty, fun layerKey hcard => ?_⟩
  obtain ⟨e, he⟩ := Finset.card_pos.mp (hslots.trans_le hcard)
  obtain ⟨call, hrouted, -⟩ := List.mem_flatMap.mp (List.mem_toFinset.mp he)
  obtain ⟨hcall, hkey⟩ := List.mem_filter.mp hrouted
  obtain rfl : call.layerKey = layerKey := by simpa using hkey
  have hlength : (mostFrequent slots (routed calls window call.layerKey)).length = slots := by
    rw [length_mostFrequent, min_eq_left hcard]
  have hrow : (call.layerKey, mostFrequent slots (routed calls window call.layerKey)) ∈
      seedRows (hotSet slots (callEntries (inverse keys) selected)) keys :=
    hindexed.mem_seedRows.mpr ⟨call, hcall, rfl⟩
  refine ⟨_, residentExperts_of_row hnodup hrow hlength
    (lt_of_mem_mostFrequent hbounds), ?_, ?_, fun S hS => ?_⟩
  · exact ((List.pairwise_insertionSort _ _).and ((List.perm_insertionSort _ _).nodup_iff.mpr
      (nodup_mostFrequent _ _))).imp fun h => lt_of_le_of_ne h.1 h.2
  · rw [List.length_insertionSort, hlength]
  · have hmost := countP_le_mostFrequent (routed calls window call.layerKey) hS
    simp only [List.mem_toFinset] at hmost
    simpa only [List.mem_insertionSort] using hmost

end Served

/-- Two calls of a layer, and one slot. -/
def twoCalls : List CallRow := [⟨0, 4096, 2, [3, 1]⟩, ⟨1, 4096, 2, [3, 2]⟩]

theorem attribution_small :
    requireAttribution (readProvenanceFile "artifact=a card=c".toList) = .ok ['a'] := by
  decide +kernel

/-- The commands succeed on them. -/
theorem twoCalls_seed : ∃ census text,
    cmdCensusFromCallTrace twoCalls "artifact=a card=c".toList (some [(0, 4096)]) ⟨0, none⟩ =
        .ok census ∧
      cmdSelectCensus "census.csv" census (1 : ℕ) [(0, 4096)] = .ok text := by
  have hcells : ∃ about, censusFromCallTrace twoCalls (some [(0, 4096)]) ⟨0, none⟩ =
      .ok ([(0, 1, 1), (0, 2, 1), (0, 3, 2)], about) := ⟨_, rfl⟩
  obtain ⟨about, hcells⟩ := hcells
  have hcensus : ∃ census, cmdCensusFromCallTrace twoCalls "artifact=a card=c".toList
      (some [(0, 4096)]) ⟨0, none⟩ = .ok census :=
    ⟨_, bind_ok.mpr ⟨_, attribution_small, bind_ok.mpr ⟨_, hcells, rfl⟩⟩⟩
  obtain ⟨census, hcensus⟩ := hcensus
  obtain ⟨cells, about', hcells', hread⟩ := cmdCensus_ok hcensus "census.csv"
  obtain rfl : [(0, 1, 1), (0, 2, 1), (0, 3, 2)] = cells :=
    (Prod.mk.inj (Except.ok.inj (hcells.symm.trans hcells'))).1
  have hhot : selectHotSetFromCounts [(0, 1, 1), (0, 2, 1), (0, 3, 2)] (1 : ℕ) =
      .ok [(0, [3])] := rfl
  exact ⟨census, _, hcensus, bind_ok.mpr ⟨_, hread, bind_ok.mpr ⟨_, hhot, rfl⟩⟩⟩

theorem seed_serves_calls_two : ∃ text seed, CensusSeed.parse text = .ok seed ∧
    ∀ layerKey, 1 ≤ (routed twoCalls ⟨0, none⟩ layerKey).toFinset.card →
      ∃ resident, CensusSeed.residentExperts seed layerKey 8 1 = .ok resident ∧
        resident.Pairwise (· < ·) ∧ resident.length = 1 ∧
        ∀ S : Finset ℕ, S.card ≤ 1 →
          (routed twoCalls ⟨0, none⟩ layerKey).countP (· ∈ S) ≤
            (routed twoCalls ⟨0, none⟩ layerKey).countP (· ∈ resident) := by
  obtain ⟨census, text, hcensus, hselect⟩ := twoCalls_seed
  exact ⟨text, seed_serves_calls hcensus hselect (by decide) (by decide) (by decide) Nat.one_pos⟩

end Arcint.Fill.Census
