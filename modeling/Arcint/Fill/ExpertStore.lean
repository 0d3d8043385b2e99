import Arcint.Fill.Arcwell
import Arcint.Fill.CensusSeed
import Arcint.Fill.Partition
import Mathlib.Data.Fin.VecNotation

/-! # The expert store

The tool that writes one file per pinned expert: it reads a pinned set, from a
hot-set seed and the map of layer keys, and numbers the files in the order of the
decoder layers and, within a layer, of the experts as listed.
-/

namespace Arcint.Fill.Store

open Foundation

attribute [local instance] neZero_three

/-- A pinned set: decoder layers with their experts, in insertion order. -/
abbrev Pinned := List (Int × List Int)

/-- Where `splitlines` cuts a text read with universal newlines. Blank lines are
skipped, so a cut between the two characters of a Windows newline is harmless. -/
def isLineBreak (c : Char) : Bool :=
  [10, 11, 12, 13, 28, 29, 30, 0x85, 0x2028, 0x2029].contains c.toNat

/-- What `strip` and `split` take for white space. -/
def isSpace (c : Char) : Bool :=
  [9, 10, 11, 12, 13, 28, 29, 30, 31, 32, 0x85, 0xa0, 0x1680, 0x2000, 0x2001, 0x2002, 0x2003,
    0x2004, 0x2005, 0x2006, 0x2007, 0x2008, 0x2009, 0x200a, 0x2028, 0x2029, 0x202f, 0x205f,
    0x3000].contains c.toNat

/-- Where `repr` escapes a character: controls, separators other than the space, format characters
and the private areas. -/
def unprintable : List (Nat × Nat) :=
  [(0, 0x1f), (0x7f, 0xa0), (0xad, 0xad), (0x600, 0x605), (0x61c, 0x61c), (0x6dd, 0x6dd),
    (0x70f, 0x70f), (0x890, 0x891), (0x8e2, 0x8e2), (0x1680, 0x1680), (0x180e, 0x180e),
    (0x2000, 0x200f), (0x2028, 0x202f), (0x205f, 0x206f), (0x3000, 0x3000), (0xe000, 0xf8ff),
    (0xfeff, 0xfeff), (0xfff9, 0xfffb), (0x110bd, 0x110bd), (0x110cd, 0x110cd),
    (0x13430, 0x13438), (0x1bca0, 0x1bca3), (0x1d173, 0x1d17a), (0xe0001, 0xe0001),
    (0xe0020, 0xe007f), (0xf0000, 0x10ffff)]

def isPrintable (c : Char) : Bool :=
  !unprintable.any fun range => range.1 ≤ c.toNat && c.toNat ≤ range.2

/-- One character of a `repr` between `quote`s. -/
def reprChar (quote c : Char) : List Char :=
  let backslash := Char.ofNat 92
  let hex (mark : Char) (width : Nat) :=
    backslash :: mark :: (Nat.toDigits 16 c.toNat).leftpad width '0'
  if c = quote ∨ c = backslash then [backslash, c]
  else if c = '\t' then [backslash, 't']
  else if c = '\n' then [backslash, 'n']
  else if c = '\r' then [backslash, 'r']
  else if isPrintable c then [c]
  else if c.toNat < 0x100 then hex 'x' 2
  else if c.toNat < 0x10000 then hex 'u' 4
  else hex 'U' 8

/-- `repr` of a text: in double quotes if only the single one occurs in it. -/
def reprText (s : List Char) : String :=
  let single := Char.ofNat 39
  let double := Char.ofNat 34
  let quote := if single ∈ s ∧ double ∉ s then double else single
  String.ofList (quote :: s.flatMap (reprChar quote) ++ [quote])

/-- The zeros of the decimal digits; the nine other digits follow each. -/
def digitZeros : List Nat :=
  [0x30, 0x660, 0x6f0, 0x7c0, 0x966, 0x9e6, 0xa66, 0xae6, 0xb66, 0xbe6, 0xc66, 0xce6, 0xd66,
    0xde6, 0xe50, 0xed0, 0xf20, 0x1040, 0x1090, 0x17e0, 0x1810, 0x1946, 0x19d0, 0x1a80, 0x1a90,
    0x1b50, 0x1bb0, 0x1c40, 0x1c50, 0xa620, 0xa8d0, 0xa900, 0xa9d0, 0xa9f0, 0xaa50, 0xabf0,
    0xff10, 0x104a0, 0x10d30, 0x11066, 0x110f0, 0x11136, 0x111d0, 0x112f0, 0x11450, 0x114d0,
    0x11650, 0x116c0, 0x11730, 0x118e0, 0x11950, 0x11c50, 0x11d50, 0x11da0, 0x16a60, 0x16ac0,
    0x16b50, 0x1d7ce, 0x1d7d8, 0x1d7e2, 0x1d7ec, 0x1d7f6, 0x1e140, 0x1e2f0, 0x1e950, 0x1fbf0]

def decimalDigit (c : Char) : Option Nat :=
  (digitZeros.find? fun first => first ≤ c.toNat && c.toNat < first + 10).map (c.toNat - ·)

/-- Decimal digits with single underscores between them; `digit` tells whether the
character before was a digit. -/
def parseDigits : List Char → Bool → Nat → Option Nat
  | [], digit, n => if digit then some n else none
  | c :: rest, digit, n =>
      match decimalDigit c with
      | some d => parseDigits rest true (10 * n + d)
      | none => if c = '_' ∧ digit = true then parseDigits rest false n else none

/-- `int` on a token. -/
def parseInt : List Char → Option Int
  | [] => none
  | c :: rest =>
      if c = '-' then (parseDigits rest false 0).map fun n => -(n : Int)
      else if c = '+' then (parseDigits rest false 0).map Int.ofNat
      else (parseDigits (c :: rest) false 0).map Int.ofNat

def int (token : List Char) : Except String Int :=
  match parseInt token with
  | none => .error ("invalid literal for int() with base 10: " ++
      String.ofList ((reprText token).toList.take 200))
  | some n => .ok n

/-- `by_key`: the decoder layer of a layer key; the last entry of a key counts. -/
def byKey (keys : List (Int × Nat)) (key : Int) : Option Int :=
  (keys.reverse.find? fun entry => (entry.2 : Int) = key).map Prod.fst

/-- One line of a seed. -/
def loadLine (path : String) (keys : List (Int × Nat)) (pinned : Pinned) (line : List Char) :
    Except String Pinned :=
  match tokens isSpace line with
  | [] => .ok pinned
  | key :: experts =>
      if key.head? = some '#' then .ok pinned
      else do
        let lk ← int key
        match byKey keys lk with
        | none => .error (toString lk)
        | some layer =>
            let ids ← parseAll int experts
            ensure (layer ∉ pinned.map Prod.fst)
              ("layer " ++ toString layer ++ " (key " ++ toString lk ++ ") appears twice in " ++
                path)
            return pinned ++ [(layer, ids)]

def loadLines (path : String) (keys : List (Int × Nat)) :
    List (List Char) → Pinned → Except String Pinned
  | [], pinned => .ok pinned
  | line :: rest, pinned =>
      match loadLine path keys pinned line with
      | .error reason => .error reason
      | .ok pinned => loadLines path keys rest pinned

/-- `load_pinned`. The reading of a text that opens with a brace is `json`. -/
def loadPinned (json : List Char → Except String Pinned) (path : String) (text : List Char)
    (layerKeys : Option (List (Int × Nat))) : Except String Pinned :=
  if (text.dropWhile isSpace).head? = some (Char.ofNat 0x7b) then json text
  else
    match layerKeys with
    | none =>
        .error ("a seed file is keyed by layer_key; pass --layer-keys " ++
          "(a JSON map layer_index -> layer_key) to invert it")
    | some keys => loadLines path keys (text.splitOnP isLineBreak) []

/-- The pinned set of the static partition for a map of layer keys. -/
def splitmixPinned (seed : Nat) (keys : List (Int × Nat)) (numExpert capacity : Nat) : Pinned :=
  keys.map fun entry =>
    (entry.1, (staticPartitionResidentExperts seed entry.2 numExpert capacity).map Int.ofNat)

def roleOut : Fin 3 → Nat := ![640, 640, 2560]

def roleIn : Fin 3 → Nat := ![2560, 2560, 640]

def roleByteCount (role : Fin 3) : Nat := roleOut role * roleIn role / 2

def roleName : Fin 3 → String := ![ "gate", "up", "down"]

def expertSliceBytes : Nat := 3 * 2560 * 640 / 2

/-- Gate, up and down of one expert, in this order. -/
def deviceOrderWeightRecord (packed : Fin 3 → List UInt8) : Except String (List UInt8) := do
  checkAll (fun role => ensure ((packed role).length = roleByteCount role)
      (roleName role ++ ": " ++ toString (packed role).length ++
        " packed bytes, the device slot holds " ++ toString (roleByteCount role) ++ " (" ++
        toString (roleOut role) ++ " x " ++ toString (roleIn role) ++ " u4)"))
    (List.finRange 3)
  return packed 0 ++ packed 1 ++ packed 2

/-- A file of the store: its manifest entry and its bytes. -/
structure StoreFile where
  ordinal : Nat
  layer : Int
  expert : Int
  file : String
  record : List UInt8

/-- The layers in order, and within a layer the experts as pinned. -/
def planOrder (pinned : Pinned) : List (Int × Int) :=
  (pinned.insertionSort fun a b => a.1 ≤ b.1).flatMap fun entry =>
    entry.2.map fun expert => (entry.1, expert)

/-- The files of a plan, numbered from `ordinal` on. `packed` is what the fill
machinery makes of an expert's weights. -/
def writePlan (packed : Int → Int → Fin 3 → List UInt8) :
    List (Int × Int) → Nat → Except String (List StoreFile)
  | [], _ => .ok []
  | (layer, expert) :: rest, ordinal => do
      let record ← deviceOrderWeightRecord (packed layer expert)
      ensure (record.length = expertSliceBytes)
        ("layer " ++ toString layer ++ " expert " ++ toString expert ++ ": record is " ++
          toString record.length ++ " B, expected " ++ toString expertSliceBytes)
      let files ← writePlan packed rest (ordinal + 1)
      return ⟨ordinal, layer, expert, expertFileName ordinal, record⟩ :: files

/-- `ExpertStoreWriter.write`. -/
def write (packed : Int → Int → Fin 3 → List UInt8) (pinned : Pinned) :
    Except String (List StoreFile) :=
  writePlan packed (planOrder pinned) 0

/-! ## What a loaded seed says line by line -/

/-- The numbers of a line: none for a blank line or a comment. -/
def lineRows (line : List Char) : List (Int × List Int) :=
  match tokens isSpace line with
  | [] => []
  | key :: experts =>
      if key.head? = some '#' then []
      else [((parseInt key).getD 0, experts.map fun token => (parseInt token).getD 0)]

theorem int_ok {token : List Char} {n : Int} (h : int token = .ok n) :
    n = (parseInt token).getD 0 := by
  unfold int at h
  split at h
  next => cases h
  next m hm =>
    cases h
    rw [hm]
    rfl

theorem loadLine_ok {path : String} {keys : List (Int × Nat)} {pinned next : Pinned}
    {line : List Char} (h : loadLine path keys pinned line = .ok next) :
    next = pinned ++ (lineRows line).map (fun row => ((byKey keys row.1).getD 0, row.2)) ∧
      ∀ row ∈ lineRows line, ∃ layer, byKey keys row.1 = some layer ∧
        layer ∉ pinned.map Prod.fst := by
  unfold loadLine at h
  unfold lineRows
  split at h
  next heq =>
    cases h
    simp
  next key experts =>
    split at h
    next hcomment =>
      cases h
      simp [hcomment]
    next hdata =>
      rw [bind_ok] at h
      obtain ⟨lk, hlk, h⟩ := h
      obtain rfl := int_ok hlk
      split at h
      next => cases h
      next layer hlayer =>
        simp only [bind_ok, ensure_ok] at h
        obtain ⟨ids, hids, _, hnew, hnext⟩ := h
        cases hnext
        obtain rfl := parseAll_eq_map (fun token n => int_ok) hids
        simp only [hdata, if_false, List.map_cons, List.map_nil, hlayer, Option.getD_some,
          true_and]
        intro row hrow
        rw [List.mem_singleton.mp hrow]
        exact ⟨layer, hlayer, hnew⟩

/-- A loaded text: its rows under their decoder layers, which are distinct. -/
theorem loadLines_ok {path : String} {keys : List (Int × Nat)} {lines : List (List Char)}
    {pinned final : Pinned} (h : loadLines path keys lines pinned = .ok final) :
    final = pinned ++ (lines.flatMap lineRows).map
        (fun row => ((byKey keys row.1).getD 0, row.2)) ∧
      (∀ row ∈ lines.flatMap lineRows, (byKey keys row.1).isSome = true) ∧
      ((pinned.map Prod.fst).Nodup → (final.map Prod.fst).Nodup) := by
  induction lines generalizing pinned with
  | nil =>
      cases h
      simp
  | cons line rest ih =>
      unfold loadLines at h
      split at h
      next => cases h
      next next hline =>
        obtain ⟨hnext, hnew⟩ := loadLine_ok hline
        obtain ⟨hfinal, hsome, hnodup⟩ := ih h
        refine ⟨?_, ?_, ?_⟩
        · rw [hfinal, hnext, List.flatMap_cons, List.map_append, List.append_assoc]
        · intro row hrow
          rw [List.flatMap_cons] at hrow
          rcases List.mem_append.mp hrow with hrow | hrow
          · obtain ⟨layer, hlayer, _⟩ := hnew row hrow
            rw [hlayer]
            rfl
          · exact hsome row hrow
        · intro hbefore
          apply hnodup
          rw [hnext]
          -- a line has at most one row, and its layer is new
          unfold lineRows at hnew ⊢
          split
          next => simpa using hbefore
          next key experts heq =>
            split
            next => simpa using hbefore
            next hdata =>
              simp only [heq, hdata, if_false, List.mem_singleton, forall_eq] at hnew
              obtain ⟨layer, hlayer, hfresh⟩ := hnew
              simp only [List.map_append, List.map_cons, List.map_nil, hlayer, Option.getD_some]
              rw [List.nodup_append]
              refine ⟨hbefore, by simp, ?_⟩
              intro a ha b hb
              rw [List.mem_singleton.mp hb]
              rintro rfl
              exact hfresh ha

theorem decimalDigit_of_isDigit {c : Char} (h : c.isDigit = true) :
    decimalDigit c = some (c.toNat - '0'.toNat) := by
  have hrange : 48 ≤ c.toNat ∧ c.toNat ≤ 57 := Char.isDigit_iff_toNat.mp h
  have hascii : (0x30 ≤ c.toNat && c.toNat < 0x30 + 10) = true := by
    simp only [Bool.and_eq_true, decide_eq_true_eq]
    omega
  have hfirst : digitZeros.find? (fun first => first ≤ c.toNat && c.toNat < first + 10) =
      some 0x30 := List.find?_cons_of_pos hascii
  rw [decimalDigit, hfirst]
  rfl

theorem parseDigits_of_digits {token : List Char} (hdigits : ∀ c ∈ token, c.isDigit = true)
    (digit : Bool) (n : Nat) (h : token ≠ [] ∨ digit = true) :
    parseDigits token digit n = some (Nat.ofDigitChars 10 token n) := by
  induction token generalizing digit n with
  | nil =>
      have hdigit : digit = true := h.resolve_left fun hne => hne rfl
      simp [parseDigits, hdigit]
  | cons c rest ih =>
      rw [parseDigits, decimalDigit_of_isDigit (hdigits c List.mem_cons_self),
        Nat.ofDigitChars_cons]
      exact ih (fun d hd => hdigits d (List.mem_cons_of_mem _ hd)) true _ (.inr rfl)

/-- On a run of digits `int` reads the plugin's number. -/
theorem parseInt_of_digits {token : List Char} (hne : token ≠ [])
    (hdigits : ∀ c ∈ token, c.isDigit = true) :
    parseInt token = some (CensusSeed.value token : Int) := by
  cases token with
  | nil => exact absurd rfl hne
  | cons c rest =>
      have hc := hdigits c List.mem_cons_self
      have hminus : c ≠ '-' := by
        rintro rfl
        cases hc
      have hplus : c ≠ '+' := by
        rintro rfl
        cases hc
      rw [parseInt, if_neg hminus, if_neg hplus, parseDigits_of_digits hdigits false 0 (.inl hne)]
      rfl

end Arcint.Fill.Store
