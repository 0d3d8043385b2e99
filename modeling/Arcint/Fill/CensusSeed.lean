import Arcint.Foundation.Checks
import Arcint.Foundation.Split
import Mathlib.Data.List.Sort
import Mathlib.Data.List.DropRight

/-! # The census seed

The plugin's reader of a hot-set seed: one data line per layer, `#` comments, a
`space=layer_key` header, and a refusal for everything else. The resident set of
a layer is its line, sorted by expert id.
-/

namespace Arcint.Fill

open Foundation

/-- The data lines of a seed: a layer key and its experts, in file order. -/
abbrev CensusSeed := List (Nat × List Nat)

namespace CensusSeed

/-- The separators of the plugin's reader. -/
def isBlank (c : Char) : Bool := c == ' ' || c == '\t' || c == '\r'

/-- A non-empty run of ASCII digits below `2 ^ 64`. -/
def parseUll (token : List Char) : Option Nat :=
  if token.isEmpty || !token.all Char.isDigit then none
  else if Nat.ofDigitChars 10 token 0 < 2 ^ 64 then some (Nat.ofDigitChars 10 token 0)
  else none

/-- What follows the first `space=` of a line. -/
def afterSpace : List Char → Option (List Char)
  | [] => none
  | c :: rest =>
      if "space=".toList.isPrefixOf (c :: rest) then some ((c :: rest).drop 6)
      else afterSpace rest

/-- The first id that occurs twice in a row. -/
def firstRepeat : List Nat → Option Nat
  | a :: b :: rest => if a = b then some b else firstRepeat (b :: rest)
  | _ => none

def parseExpert (token : List Char) : Except String Nat :=
  match parseUll token with
  | none => .error ("expert id is not a non-negative integer: " ++ String.ofList token)
  | some e =>
      if 0xFFFFFFFF < e then .error ("expert id does not fit uint32: " ++ String.ofList token)
      else .ok e

/-- The tokens of a data line, after the rows before it. -/
def parseRow (rows : CensusSeed) : List (List Char) → Except String (Nat × List Nat)
  | key :: expert :: more =>
      match parseUll key with
      | none => .error ("layer_key is not a non-negative integer: " ++ String.ofList key)
      | some layerKey =>
          if layerKey ∈ rows.map Prod.fst then
            .error ("duplicate layer_key " ++ String.ofList key)
          else
            match parseAll parseExpert (expert :: more) with
            | .error reason => .error reason
            | .ok experts =>
                match firstRepeat (experts.insertionSort (· ≤ ·)) with
                | some e => .error ("duplicate expert id " ++ toString e)
                | none => .ok (layerKey, experts)
  | _ => .error "data line needs a layer_key and at least one expert id"

/-- The rows so far, and what the headers declared. -/
structure Scan where
  rows : CensusSeed
  spaceDeclared : Bool
  spaceIsLayerKey : Bool
  deriving DecidableEq, Repr

def scanComment (scan : Scan) (line : List Char) : Scan :=
  match afterSpace line with
  | none => scan
  | some rest =>
      { scan with
        spaceDeclared := true
        spaceIsLayerKey := rest.takeWhile (!isBlank ·) == "layer_key".toList }

/-- One line, without its newline. -/
def scanLine (scan : Scan) (line : List Char) : Except String Scan :=
  match line.rdropWhile isBlank with
  | [] => .ok scan
  | c :: rest =>
      if c = '#' then .ok (scanComment scan (c :: rest))
      else
        match parseRow scan.rows (tokens isBlank (c :: rest)) with
        | .error reason => .error reason
        | .ok row => .ok { scan with rows := scan.rows ++ [row] }

/-- The lines from number `lineno` on. -/
def scanLines : List (List Char) → Nat → Scan → Except String Scan
  | [], _, scan => .ok scan
  | line :: rest, lineno, scan =>
      match scanLine scan line with
      | .error reason => .error ("census seed line " ++ toString lineno ++ ": " ++ reason)
      | .ok scan => scanLines rest (lineno + 1) scan

/-- `parse_census_seed`. -/
def parse (text : List Char) : Except String CensusSeed := do
  let scan ← scanLines (text.splitOnP (· == '\n')) 1 ⟨[], false, false⟩
  ensure (scan.spaceDeclared = true) "census seed: missing `# space=layer_key` header"
  ensure (scan.spaceIsLayerKey = true)
    ("census seed: declared space is not `layer_key` -- a decoder-index seed " ++
      "cannot be consumed as a static-partition seed")
  ensure (scan.rows ≠ []) "census seed: no data rows"
  return scan.rows

/-- `census_seed_resident_experts`: the experts of a layer in slot order. -/
def residentExperts (seed : CensusSeed) (layerKey numExpert capacity : Nat) :
    Except String (List Nat) :=
  match seed.lookup layerKey with
  | none =>
      .error ("census seed: layer_key " ++ toString layerKey ++
        " is absent from the seed (mismatched model/seed)")
  | some experts => do
      ensure (experts.length = capacity)
        ("census seed: layer_key " ++ toString layerKey ++ " lists " ++
          toString experts.length ++ " experts but the pool has " ++ toString capacity ++
          " slots (mismatched budget)")
      checkAll (fun e => ensure (e < numExpert)
          ("census seed: expert " ++ toString e ++ " is out of range [0, " ++
            toString numExpert ++ ") for layer_key " ++ toString layerKey)) experts
      return experts.insertionSort (· ≤ ·)

/-! ## What an accepted seed says line by line -/

/-- The number a run of digits spells. -/
def value (token : List Char) : Nat := Nat.ofDigitChars 10 token 0

/-- The row of a line: none for a blank line or a comment. -/
def lineRows (line : List Char) : CensusSeed :=
  match line.rdropWhile isBlank with
  | [] => []
  | c :: _ =>
      if c = '#' then []
      else
        match tokens isBlank line with
        | [] => []
        | key :: experts => [(value key, experts.map value)]

theorem parseUll_some {token : List Char} {n : Nat} (h : parseUll token = some n) :
    n = value token ∧ ∀ c ∈ token, c.isDigit = true := by
  unfold parseUll at h
  split at h
  next => cases h
  next hdigits =>
    split at h
    next =>
      cases h
      simp only [Bool.or_eq_true, Bool.not_eq_eq_eq_not, not_or, Bool.not_eq_true] at hdigits
      exact ⟨rfl, by simpa using hdigits.2⟩
    next => cases h

theorem parseExpert_ok {token : List Char} {e : Nat} (h : parseExpert token = .ok e) :
    e = value token ∧ ∀ c ∈ token, c.isDigit = true := by
  unfold parseExpert at h
  split at h
  next => cases h
  next n hn =>
    split at h
    next => cases h
    next =>
      cases h
      exact parseUll_some hn

/-- An accepted data line has digits only, and its row is its numbers. -/
theorem parseRow_ok {rows : CensusSeed} {toks : List (List Char)} {row : Nat × List Nat}
    (h : parseRow rows toks = .ok row) :
    (∃ key experts, toks = key :: experts ∧ row = (value key, experts.map value) ∧
      experts ≠ []) ∧
      row.1 ∉ rows.map Prod.fst ∧ ∀ token ∈ toks, ∀ c ∈ token, c.isDigit = true := by
  unfold parseRow at h
  split at h
  next key expert more =>
    split at h
    next => cases h
    next layerKey hkey =>
      split at h
      next => cases h
      next hnew =>
        split at h
        next => cases h
        next experts hexperts =>
          split at h
          next => cases h
          next =>
            cases h
            obtain ⟨rfl, hdigits⟩ := parseUll_some hkey
            have hvalues : experts = (expert :: more).map value :=
              parseAll_eq_map (fun token e he => (parseExpert_ok he).1) hexperts
            refine ⟨⟨key, expert :: more, rfl, by rw [hvalues], by simp⟩, hnew, ?_⟩
            intro token htoken
            rcases List.mem_cons.mp htoken with rfl | htoken
            · exact hdigits
            · obtain ⟨e, he⟩ := exists_of_parseAll hexperts htoken
              exact (parseExpert_ok he).2
  next => cases h

/-- What one accepted line adds. A line that adds a row has digits and separators
only, and at least one expert. -/
theorem scanLine_ok {scan next : Scan} {line : List Char} (h : scanLine scan line = .ok next) :
    next.rows = scan.rows ++ lineRows line ∧
      (∀ row ∈ lineRows line, row.1 ∉ scan.rows.map Prod.fst ∧ row.2 ≠ []) ∧
      (lineRows line ≠ [] → ∀ c ∈ line, isBlank c = true ∨ c.isDigit = true) := by
  unfold scanLine at h
  unfold lineRows
  have htrim := tokens_rdropWhile (p := isBlank) line
  split at h
  next heq =>
    cases h
    simp
  next c rest heq =>
    rw [heq] at htrim
    split at h
    next hcomment =>
      cases h
      unfold scanComment
      split <;> simp [hcomment]
    next hdata =>
      split at h
      next => cases h
      next row hrow =>
        cases h
        rw [htrim] at hrow
        obtain ⟨⟨key, experts, htoks, rfl, hexperts⟩, hnew, hdigits⟩ := parseRow_ok hrow
        rw [htoks] at hdigits
        simp only [hdata, htoks, if_false]
        refine ⟨trivial, ?_, ?_⟩
        · intro other hother
          rw [List.mem_singleton.mp hother]
          exact ⟨hnew, by simpa using hexperts⟩
        · intro _ a ha
          by_cases hblank : isBlank a = true
          · exact .inl hblank
          · obtain ⟨token, htoken, hmem⟩ := exists_token_of_mem (p := isBlank) ha
              (by simpa using hblank)
            rw [htoks] at htoken
            exact .inr (hdigits token htoken a hmem)

/-- What a whole accepted text says. -/
structure Reads (lines : List (List Char)) (before after : CensusSeed) : Prop where
  rows : after = before ++ lines.flatMap lineRows
  keys : (before.map Prod.fst).Nodup → (after.map Prod.fst).Nodup
  nonempty : ∀ line ∈ lines, ∀ row ∈ lineRows line, row.2 ≠ []
  digits : ∀ line ∈ lines, lineRows line ≠ [] →
    ∀ c ∈ line, isBlank c = true ∨ c.isDigit = true

theorem lineRows_length_le (line : List Char) : (lineRows line).length ≤ 1 := by
  unfold lineRows
  split
  next => simp
  next =>
    split
    next => simp
    next => split <;> simp

theorem scanLines_ok {lines : List (List Char)} {lineno : Nat} {scan final : Scan}
    (h : scanLines lines lineno scan = .ok final) : Reads lines scan.rows final.rows := by
  induction lines generalizing lineno scan with
  | nil =>
      cases h
      exact ⟨by simp, id, by simp, by simp⟩
  | cons line rest ih =>
      unfold scanLines at h
      split at h
      next => cases h
      next next hline =>
        obtain ⟨hrows, hnew, hdigits⟩ := scanLine_ok hline
        have hrest := ih h
        refine ⟨?_, ?_, ?_, ?_⟩
        · rw [hrest.rows, hrows, List.flatMap_cons, List.append_assoc]
        · intro hnodup
          apply hrest.keys
          rw [hrows, List.map_append, List.nodup_append]
          refine ⟨hnodup, ?_, ?_⟩
          · have hlength := lineRows_length_le line
            cases hline : lineRows line with
            | nil => simp
            | cons row rows =>
                rw [hline, List.length_cons] at hlength
                obtain rfl : rows = [] := List.length_eq_zero_iff.mp (by omega)
                simp
          · intro a ha b hb hab
            obtain ⟨row, hrow, rfl⟩ := List.mem_map.mp hb
            subst hab
            exact (hnew row hrow).1 ha
        · intro other hother row hrow
          rcases List.mem_cons.mp hother with rfl | hother
          · exact (hnew row hrow).2
          · exact hrest.nonempty other hother row hrow
        · intro other hother hne
          rcases List.mem_cons.mp hother with rfl | hother
          · exact hdigits hne
          · exact hrest.digits other hother hne

theorem parse_ok {text : List Char} {seed : CensusSeed} (h : parse text = .ok seed) :
    Reads (text.splitOnP (· == '\n')) [] seed ∧ seed ≠ [] := by
  simp only [parse, bind_ok, ensure_ok] at h
  obtain ⟨scan, hscan, _, _, _, _, _, hrows, hseed⟩ := h
  cases hseed
  exact ⟨scanLines_ok hscan, hrows⟩

end CensusSeed

end Arcint.Fill
