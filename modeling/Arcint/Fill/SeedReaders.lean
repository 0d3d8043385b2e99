import Arcint.Fill.ExpertStore

/-! # One seed, two readers

The plugin and the store writer read a hot-set seed each in its own way: they cut
lines at different characters, take different characters for white space and
accept different numbers. A text that both accept, under a map of layer keys that
covers exactly the plugin's keys, says the same to both.
-/

namespace Arcint.Fill

open Foundation

/-- The plugin's rows as the writer's numbers. -/
def CensusSeed.toRows (seed : CensusSeed) : List (Int × List Int) :=
  seed.map fun row => ((row.1 : Int), row.2.map Int.ofNat)

/-- The row that a list of digit tokens spells. -/
def tokenRow : List (List Char) → List (Int × List Int)
  | [] => []
  | key :: experts =>
      [((CensusSeed.value key : Int), experts.map fun token => (CensusSeed.value token : Int))]

theorem flatMap_tokenRow_nil {pieces : List (List (List Char))}
    (h : pieces.flatMap tokenRow = []) : pieces.flatten = [] := by
  induction pieces with
  | nil => rfl
  | cons piece rest ih =>
      rw [List.flatMap_cons, List.append_eq_nil_iff] at h
      cases piece with
      | nil => simpa using ih h.2
      | cons key experts => cases h.1

/-- A line that is cut into pieces has at least the row of its first token, and
when it has only one row then the row of all its tokens. -/
theorem flatMap_tokenRow {pieces : List (List (List Char))} {key : List Char}
    {experts : List (List Char)} (hflat : pieces.flatten = key :: experts) :
    1 ≤ (pieces.flatMap tokenRow).length ∧
      ((pieces.flatMap tokenRow).length ≤ 1 →
        pieces.flatMap tokenRow = tokenRow (key :: experts)) := by
  induction pieces with
  | nil => cases hflat
  | cons piece rest ih =>
      cases piece with
      | nil => simpa [tokenRow] using ih (by simpa using hflat)
      | cons first more =>
          simp only [List.flatten_cons, List.cons_append, List.cons.injEq] at hflat
          obtain ⟨rfl, hmore⟩ := hflat
          simp only [List.flatMap_cons, List.length_append, tokenRow, List.length_singleton]
          refine ⟨by omega, fun hone => ?_⟩
          have hrest : rest.flatMap tokenRow = [] := List.length_eq_zero_iff.mp (by omega)
          rw [flatMap_tokenRow_nil hrest, List.append_nil] at hmore
          rw [hrest, List.append_nil, hmore]

/-- A character of the plugin's data lines. -/
def InDataLine (c : Char) : Prop := CensusSeed.isBlank c = true ∨ c.isDigit = true

theorem toNat_of_isDigit {c : Char} (h : c.isDigit = true) : 48 ≤ c.toNat ∧ c.toNat ≤ 57 := by
  simp only [Char.isDigit, Bool.and_eq_true, decide_eq_true_eq, ge_iff_le,
    UInt32.le_iff_toNat_le] at h
  exact h

theorem isSpace_eq_isBlank {c : Char} (hc : InDataLine c) :
    Store.isSpace c = CensusSeed.isBlank c := by
  rcases hc with hblank | hdigit
  · rw [hblank]
    simp only [CensusSeed.isBlank, Bool.or_eq_true, beq_iff_eq] at hblank
    rcases hblank with (rfl | rfl) | rfl <;> decide
  · have hrange := toNat_of_isDigit hdigit
    have hblank : CensusSeed.isBlank c = false := by
      simp only [CensusSeed.isBlank, Bool.or_eq_false_iff, beq_eq_false_iff_ne]
      refine ⟨⟨?_, ?_⟩, ?_⟩ <;> rintro rfl <;> revert hrange <;> decide
    rw [hblank]
    simp only [Store.isSpace, List.contains_eq_mem, decide_eq_false_iff_not, List.mem_cons,
      List.not_mem_nil, or_false]
    omega

theorem isLineBreak_eq {c : Char} (hc : InDataLine c) : Store.isLineBreak c = (c == '\r') := by
  rcases hc with hblank | hdigit
  · simp only [CensusSeed.isBlank, Bool.or_eq_true, beq_iff_eq] at hblank
    rcases hblank with (rfl | rfl) | rfl <;> decide
  · have hrange := toNat_of_isDigit hdigit
    have hreturn : (c == '\r') = false := by
      rw [beq_eq_false_iff_ne]
      rintro rfl
      revert hrange
      decide
    rw [hreturn]
    simp only [Store.isLineBreak, List.contains_eq_mem, decide_eq_false_iff_not, List.mem_cons,
      List.not_mem_nil, or_false]
    omega

section DataLine

variable {line : List Char} (hline : ∀ c ∈ line, InDataLine c)

include hline

/-- The writer reads the tokens of a piece of a data line as the plugin would. -/
theorem lineRows_piece {piece : List Char} (hpiece : piece ∈ line.splitOnP Store.isLineBreak)
    (hdigits : ∀ token ∈ tokens CensusSeed.isBlank line, ∀ c ∈ token, c.isDigit = true)
    (hsub : ∀ token ∈ tokens CensusSeed.isBlank piece,
      token ∈ tokens CensusSeed.isBlank line) :
    Store.lineRows piece = tokenRow (tokens CensusSeed.isBlank piece) := by
  have hspace : tokens Store.isSpace piece = tokens CensusSeed.isBlank piece := by
    apply tokens_congr
    intro c hc
    exact isSpace_eq_isBlank (hline c (mem_of_mem_splitOnP hpiece hc).1)
  have hnumber : ∀ token ∈ tokens CensusSeed.isBlank piece,
      (Store.parseInt token).getD 0 = (CensusSeed.value token : Int) := by
    intro token htoken
    have hne : token ≠ [] := by
      rintro rfl
      cases (List.mem_filter.mp htoken).2
    rw [Store.parseInt_of_digits hne (hdigits token (hsub token htoken))]
    rfl
  unfold Store.lineRows
  rw [hspace]
  cases htoks : tokens CensusSeed.isBlank piece with
  | nil => rfl
  | cons key experts =>
      rw [htoks] at hnumber hsub
      have hkey := hdigits key (hsub key List.mem_cons_self)
      have hdata : key.head? ≠ some '#' := by
        intro hhead
        have hmem := List.mem_of_mem_head? hhead
        cases hkey _ hmem
      simp only [hdata, if_false, tokenRow, hnumber key List.mem_cons_self]
      congr 2
      exact List.map_congr_left fun token htoken =>
        hnumber token (List.mem_cons_of_mem _ htoken)

/-- A data line of the plugin yields at least one row to the writer, and when it
yields only one then the plugin's. -/
theorem dataLine_rows {key : List Char} {experts : List (List Char)}
    (htoks : tokens CensusSeed.isBlank line = key :: experts) :
    1 ≤ ((line.splitOnP Store.isLineBreak).flatMap Store.lineRows).length ∧
      (((line.splitOnP Store.isLineBreak).flatMap Store.lineRows).length ≤ 1 →
        (line.splitOnP Store.isLineBreak).flatMap Store.lineRows = tokenRow (key :: experts)) := by
  have hreturn : line.splitOnP Store.isLineBreak = line.splitOnP (· == '\r') :=
    splitOnP_congr fun c hc => isLineBreak_eq (hline c hc)
  have hblank : ∀ c : Char, (c == '\r') = true → CensusSeed.isBlank c = true := by
    intro c hc
    simp [CensusSeed.isBlank, hc]
  have hflat : ((line.splitOnP Store.isLineBreak).map (tokens CensusSeed.isBlank)).flatten =
      key :: experts := by
    rw [hreturn, ← List.flatMap_def, tokens_flatMap hblank, htoks]
  have hdigits : ∀ token ∈ tokens CensusSeed.isBlank line, ∀ c ∈ token, c.isDigit = true := by
    intro token htoken c hc
    obtain ⟨hmem, hno⟩ := mem_of_mem_tokens htoken hc
    rcases hline c hmem with hyes | hdigit
    · rw [hno] at hyes
      cases hyes
    · exact hdigit
  have hrows : (line.splitOnP Store.isLineBreak).flatMap Store.lineRows =
      ((line.splitOnP Store.isLineBreak).map (tokens CensusSeed.isBlank)).flatMap tokenRow := by
    rw [List.flatMap_map]
    apply List.flatMap_congr
    intro piece hpiece
    apply lineRows_piece hline hpiece hdigits
    intro token htoken
    rw [htoks, ← hflat]
    exact List.mem_flatten.mpr ⟨_, List.mem_map_of_mem hpiece, htoken⟩
  rw [hrows]
  exact flatMap_tokenRow hflat

end DataLine

/-- The plugin's row of a line, in the writer's numbers. -/
theorem toRows_lineRows {line : List Char} (hne : CensusSeed.lineRows line ≠ []) :
    ∃ key experts, tokens CensusSeed.isBlank line = key :: experts ∧
      CensusSeed.toRows (CensusSeed.lineRows line) = tokenRow (key :: experts) := by
  unfold CensusSeed.lineRows at hne ⊢
  split at hne
  next => exact absurd rfl hne
  next c rest heq =>
    split at hne
    next => exact absurd rfl hne
    next hdata =>
      split at hne
      next => exact absurd rfl hne
      next key experts htoks =>
        refine ⟨key, experts, htoks, ?_⟩
        simp [hdata, CensusSeed.toRows, tokenRow]

/-- A text that opens with a brace has a line that the plugin refuses. -/
theorem exists_line_of_brace {text blank rest : List Char} {c : Char}
    (htext : text = blank ++ c :: rest) (hblank : ∀ b ∈ blank, Store.isSpace b = true)
    (hc : c ≠ '\n') :
    ∃ line ∈ text.splitOnP (· == '\n'), ∃ before after, line = before ++ c :: after ∧
      ∀ b ∈ before, Store.isSpace b = true := by
  subst htext
  induction blank with
  | nil =>
      obtain ⟨head, tail, hsplit⟩ :=
        List.exists_cons_of_ne_nil (List.splitOnP_ne_nil (· == '\n') rest)
      refine ⟨c :: head, ?_, [], head, rfl, by simp⟩
      rw [List.nil_append, List.splitOnP_cons_eq_if_modifyHead, if_neg (by simpa using hc), hsplit]
      exact List.mem_cons_self
  | cons b blank ih =>
      obtain ⟨line, hmem, before, after, rfl, hbefore⟩ :=
        ih fun d hd => hblank d (List.mem_cons_of_mem _ hd)
      obtain ⟨head, tail, hsplit⟩ :=
        List.exists_cons_of_ne_nil (List.splitOnP_ne_nil (· == '\n') (blank ++ c :: rest))
      rw [List.cons_append, List.splitOnP_cons_eq_if_modifyHead, hsplit]
      rw [hsplit] at hmem
      split
      next => exact ⟨_, List.mem_cons_of_mem _ hmem, before, after, rfl, hbefore⟩
      next =>
        rw [List.modifyHead_cons]
        rcases List.mem_cons.mp hmem with rfl | hmem
        · refine ⟨_, List.mem_cons_self, b :: before, after, rfl, ?_⟩
          intro d hd
          rcases List.mem_cons.mp hd with rfl | hd
          · exact hblank _ List.mem_cons_self
          · exact hbefore d hd
        · exact ⟨_, List.mem_cons_of_mem _ hmem, before, after, rfl, hbefore⟩

/-- A text the plugin accepts does not open with a brace. -/
theorem parse_no_brace {text : List Char} {seed : CensusSeed}
    (h : CensusSeed.parse text = .ok seed) :
    (text.dropWhile Store.isSpace).head? ≠ some (Char.ofNat 0x7b) := by
  intro hbrace
  obtain ⟨hreads, _⟩ := CensusSeed.parse_ok h
  obtain ⟨rest, hrest⟩ : ∃ rest, text.dropWhile Store.isSpace = Char.ofNat 0x7b :: rest := by
    cases hdrop : text.dropWhile Store.isSpace with
    | nil => rw [hdrop] at hbrace; cases hbrace
    | cons c rest =>
        rw [hdrop] at hbrace
        cases hbrace
        exact ⟨rest, rfl⟩
  have htext : text = text.takeWhile Store.isSpace ++ Char.ofNat 0x7b :: rest := by
    rw [← hrest, List.takeWhile_append_dropWhile]
  obtain ⟨line, hmem, before, after, hline, hbefore⟩ := exists_line_of_brace htext
    (fun b hb => List.mem_takeWhile_imp hb) (by decide)
  have hin : Char.ofNat 0x7b ∈ line := by
    rw [hline]
    simp
  -- the line is no comment, so it is a data line, and a brace is no digit
  have hdata : CensusSeed.lineRows line ≠ [] := by
    unfold CensusSeed.lineRows
    obtain ⟨token, htoken, _⟩ := exists_token_of_mem (p := CensusSeed.isBlank) hin (by decide)
    split
    next heq =>
      have hnone := tokens_rdropWhile (p := CensusSeed.isBlank) line
      rw [heq] at hnone
      rw [← hnone] at htoken
      cases htoken
    next c more heq =>
      have hbegins := List.rdropWhile_prefix CensusSeed.isBlank line
      rw [heq] at hbegins
      obtain ⟨suffix, hsuffix⟩ := hbegins
      have hfirst : c ≠ '#' := by
        rintro rfl
        rw [hline] at hsuffix
        cases before with
        | nil => cases hsuffix
        | cons b before =>
            obtain ⟨rfl, _⟩ := List.cons.inj hsuffix
            cases hbefore '#' List.mem_cons_self
      rw [if_neg hfirst]
      split
      next hnone =>
        rw [hnone] at htoken
        cases htoken
      next => simp
  rcases hreads.digits line hmem hdata _ hin with hblank | hdigit
  · cases hblank
  · cases hdigit

/-- What both readers accept, they read alike. -/
theorem loadPinned_eq {json : List Char → Except String Store.Pinned} {path : String}
    {text : List Char} {keys : List (Int × Nat)} {seed : CensusSeed} {pinned : Store.Pinned}
    (hseed : CensusSeed.parse text = .ok seed)
    (hpinned : Store.loadPinned json path text (some keys) = .ok pinned)
    (hcover : ∀ key ∈ keys.map Prod.snd, key ∈ seed.map Prod.fst) :
    pinned = seed.toRows.map (fun row => ((Store.byKey keys row.1).getD 0, row.2)) ∧
      (pinned.map Prod.fst).Nodup := by
  obtain ⟨hreads, _⟩ := CensusSeed.parse_ok hseed
  rw [Store.loadPinned, if_neg (parse_no_brace hseed)] at hpinned
  obtain ⟨hrows, hknown, hnodup⟩ := Store.loadLines_ok hpinned
  replace hnodup := hnodup (by simp)
  rw [List.nil_append] at hrows
  have hnewline : ∀ c : Char, (c == '\n') = true → Store.isLineBreak c = true := by
    intro c hc
    obtain rfl := beq_iff_eq.mp hc
    decide
  -- the writer's lines are pieces of the plugin's
  have hpieces : (text.splitOnP Store.isLineBreak).flatMap Store.lineRows =
      (text.splitOnP (· == '\n')).flatMap fun line =>
        (line.splitOnP Store.isLineBreak).flatMap Store.lineRows := by
    rw [← splitOnP_flatMap hnewline, List.flatMap_assoc]
  have hplugin : seed.toRows = (text.splitOnP (· == '\n')).flatMap fun line =>
      CensusSeed.toRows (CensusSeed.lineRows line) := by
    rw [hreads.rows, List.nil_append, CensusSeed.toRows, List.map_flatMap]
    rfl
  have hequal : (text.splitOnP Store.isLineBreak).flatMap Store.lineRows = seed.toRows := by
    rw [hpieces, hplugin]
    apply flatMap_eq_of_length_le
    · intro line hmem
      by_cases hne : CensusSeed.lineRows line = []
      · simp [hne, CensusSeed.toRows]
      · obtain ⟨key, experts, htoks, hrow⟩ := toRows_lineRows hne
        rw [hrow]
        exact (dataLine_rows (hreads.digits line hmem hne) htoks).1
    · intro line hmem hle
      by_cases hne : CensusSeed.lineRows line = []
      · rw [hne] at hle ⊢
        exact List.length_eq_zero_iff.mp (Nat.le_zero.mp hle)
      · obtain ⟨key, experts, htoks, hrow⟩ := toRows_lineRows hne
        rw [hrow] at hle ⊢
        exact (dataLine_rows (hreads.digits line hmem hne) htoks).2 hle
    · -- every key the writer met is one of the plugin's, and it met none twice
      rw [← hpieces, ← hplugin]
      have hkeys : (((text.splitOnP Store.isLineBreak).flatMap Store.lineRows).map
          Prod.fst).Nodup := by
        rw [hrows, List.map_map] at hnodup
        apply List.Nodup.of_map fun key => (Store.byKey keys key).getD 0
        rw [List.map_map]
        exact hnodup
      have hsubset : ((text.splitOnP Store.isLineBreak).flatMap Store.lineRows).map Prod.fst ⊆
          seed.toRows.map Prod.fst := by
        intro key hkey
        obtain ⟨row, hrow, rfl⟩ := List.mem_map.mp hkey
        have hsome := hknown row hrow
        rw [Store.byKey, Option.isSome_map, List.find?_isSome] at hsome
        obtain ⟨entry, hentry, hmatch⟩ := hsome
        have hcovered := hcover entry.2
          (List.mem_map_of_mem (List.mem_reverse.mp hentry))
        obtain ⟨found, hfound, hfst⟩ := List.mem_map.mp hcovered
        rw [CensusSeed.toRows, List.map_map, List.mem_map]
        refine ⟨found, hfound, ?_⟩
        simp only [Function.comp_apply, hfst]
        simpa using hmatch
      have hlength := (List.subperm_of_subset hkeys hsubset).length_le
      simpa using hlength
  refine ⟨?_, hnodup⟩
  rw [hrows, hequal]

end Arcint.Fill
