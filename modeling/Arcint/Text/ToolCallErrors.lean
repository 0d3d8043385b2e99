import Arcint.Text.Json
import Arcint.Text.ToolCallGrammar

/-! # Tool calls that cannot be written

The parser catches what the JSON library throws while it parses, and hands the block back. What
`dump` throws leaves the parser: the text of a parameter goes into the arguments as it came, and
`dump` refuses a string that is not UTF-8.
-/

namespace Arcint.Text.ToolCall

open Foundation Utf8

variable {J : Type}

/-- What the JSON library documents of the functions the parser uses. -/
structure JsonLib.Documented (lib : JsonLib J) : Prop where
  dump_parse : ∀ raw value, lib.parse raw = some value → (lib.dump value).isSome
  dump_ofString : ∀ s, (lib.dump (lib.ofString s)).isSome ↔ isValid s = true
  dump_ofBool : ∀ b, (lib.dump (lib.ofBool b)).isSome
  isObject_object : lib.isObject lib.object = true
  isObject_set : ∀ o key value, lib.isObject o = true → lib.isObject (lib.set o key value) = true
  get_object : ∀ key, lib.get lib.object key = none
  get_set : ∀ o key value other, lib.isObject o = true →
    lib.get (lib.set o key value) other = if other = key then some value else lib.get o other
  dump_object : ∀ o, lib.isObject o = true → ((lib.dump o).isSome ↔
    ∀ key value, lib.get o key = some value → isValid key = true ∧ (lib.dump value).isSome)

/-- The library does what it documents, where its parser does. -/
theorem library_documented {F : Type} (float : F → Bytes) (parse : Bytes → Option (Json F))
    (hparse : ∀ raw value, parse raw = some value → (value.dump float).isSome) :
    (Json.library float parse).Documented where
  dump_parse := hparse
  dump_ofString s := by
    change (Json.dump float (.string s)).isSome ↔ _
    rw [Json.dump, Json.quoted_isSome]
  dump_ofBool b := by
    change (Json.dump float (.boolean b)).isSome
    rw [Json.dump, Option.isSome_some]
  isObject_object := rfl
  isObject_set o key value h := by
    cases o with
    | object fields => rfl
    | _ => cases h
  get_object _ := rfl
  get_set o key value other h := by
    cases o with
    | object fields => exact Json.lookup_setField key other value fields
    | _ => cases h
  dump_object o h := by
    cases o with
    | object fields =>
        change (Json.dump float (.object fields)).isSome ↔ ∀ key value,
          fields.lookup key = some value → isValid key = true ∧ (value.dump float).isSome
        rw [Json.dump, Option.isSome_map, Json.dumpFields_isSome]
        simp
    | _ => cases h

section Values

variable (lib : JsonLib J)

/-- The text parses to a value that is accepted. -/
def ParsesTo (raw : Bytes) (accepts : J → Bool) : Prop :=
  ∃ value, lib.parse raw = some value ∧ accepts value = true

/-- The declared type reads the text: the value is not the string it came as. -/
def Reads (raw type : Bytes) : Prop :=
  (type = bytes "integer" ∨ type = bytes "number") ∧ ParsesTo lib raw lib.isNumber ∨
    type = bytes "boolean" ∧
      (iequals (trim raw) (bytes "true") = true ∨ iequals (trim raw) (bytes "false") = true) ∨
    type = bytes "object" ∧ ParsesTo lib raw lib.isObject ∨
    type = bytes "array" ∧ ParsesTo lib raw lib.isArray

/-- What a declared type that has to parse makes of the text. -/
def parsedAs (raw : Bytes) (accepts : J → Bool) : J :=
  match lib.parse raw with
  | some parsed => if accepts parsed then parsed else lib.ofString raw
  | none => lib.ofString raw

variable {lib} {raw type : Bytes} {accepts : J → Bool}

theorem parsedAs_string (h : ¬ ParsesTo lib raw accepts) :
    parsedAs lib raw accepts = lib.ofString raw := by
  unfold parsedAs
  cases hparse : lib.parse raw with
  | none => rfl
  | some value => exact if_neg fun haccepts => h ⟨value, hparse, haccepts⟩

theorem parsedAs_value (h : ParsesTo lib raw accepts) :
    lib.parse raw = some (parsedAs lib raw accepts) := by
  obtain ⟨value, hparse, haccepts⟩ := h
  unfold parsedAs
  rw [hparse]
  exact congrArg some (if_pos haccepts).symm

/-- What the type does not read stays a string. -/
theorem coerce_string (h : ¬ Reads lib raw type) : coerce lib raw type = lib.ofString raw := by
  simp only [Reads, not_or, not_and] at h
  obtain ⟨hnumber, hboolean, hobject, harray⟩ := h
  unfold coerce
  dsimp only
  split_ifs with hstring hnum hbool htrue hfalse hobj harr
  · rfl
  · exact parsedAs_string (by rcases hnum with rfl | rfl <;> simp_all)
  · exact absurd htrue (hboolean hbool).1
  · exact absurd hfalse (hboolean hbool).2
  · rfl
  · exact parsedAs_string (hobject hobj)
  · exact parsedAs_string (harray harr)
  · rfl

variable (hlib : lib.Documented)

include hlib

/-- What the type reads can be written. -/
theorem dump_coerce_of_reads (h : Reads lib raw type) :
    (lib.dump (coerce lib raw type)).isSome := by
  rcases h with ⟨rfl | rfl, hreads⟩ | ⟨rfl, hreads⟩ | ⟨rfl, hreads⟩ | ⟨rfl, hreads⟩
  · exact hlib.dump_parse _ _ (parsedAs_value hreads)
  · exact hlib.dump_parse _ _ (parsedAs_value hreads)
  · unfold coerce
    rw [if_neg (by decide), if_neg (by decide), if_pos rfl]
    split_ifs with htrue hfalse
    · exact hlib.dump_ofBool true
    · exact hlib.dump_ofBool false
    · exact absurd hreads (not_or.mpr ⟨htrue, hfalse⟩)
  · exact hlib.dump_parse _ _ (parsedAs_value hreads)
  · exact hlib.dump_parse _ _ (parsedAs_value hreads)

theorem dump_coerce :
    (lib.dump (coerce lib raw type)).isSome ↔ isValid raw = true ∨ Reads lib raw type := by
  by_cases hreads : Reads lib raw type
  · exact iff_of_true (dump_coerce_of_reads hlib hreads) (Or.inr hreads)
  · rw [coerce_string hreads, hlib.dump_ofString, or_iff_left hreads]

end Values

section Arguments

variable {lib : JsonLib J} (hlib : lib.Documented) (types : Option ParamTypes)
  (params : List (Bytes × Bytes))

include hlib

theorem isObject_argumentsOf : lib.isObject (argumentsOf lib types params) = true := by
  induction params using List.reverseRecOn with
  | nil => exact hlib.isObject_object
  | append_singleton params param ih =>
      rw [argumentsOf_concat]
      unfold addParam
      split_ifs
      · exact ih
      · exact hlib.isObject_set _ _ _ ih

theorem get_addParam {args : J} (hargs : lib.isObject args = true) (name raw key : Bytes) :
    lib.get (addParam lib types args (name, raw)) key =
      if name ≠ [] ∧ key = name then some (coerce lib raw (typeOf types name))
      else lib.get args key := by
  unfold addParam
  dsimp only
  by_cases hname : name = []
  · rw [if_pos hname, if_neg fun h => h.1 hname]
  · rw [if_neg hname, hlib.get_set _ _ _ _ hargs]
    simp only [ne_eq, hname, not_false_eq_true, true_and]

/-- The arguments hold the last parameter of every name. -/
theorem get_argumentsOf {key : Bytes} (hkey : key ≠ []) :
    lib.get (argumentsOf lib types params) key =
      (params.reverse.lookup key).map fun raw => coerce lib raw (typeOf types key) := by
  induction params using List.reverseRecOn with
  | nil => exact hlib.get_object key
  | append_singleton params param ih =>
      obtain ⟨name, raw⟩ := param
      rw [argumentsOf_concat, get_addParam hlib types (isObject_argumentsOf hlib types params), ih,
        List.reverse_concat, List.lookup_cons]
      by_cases heq : key = name
      · rw [if_pos ⟨heq ▸ hkey, heq⟩, heq, beq_self_eq_true]
        rfl
      · rw [if_neg fun h => heq h.2, beq_eq_false_iff_ne.mpr heq]

theorem get_argumentsOf_nil : lib.get (argumentsOf lib types params) [] = none := by
  induction params using List.reverseRecOn with
  | nil => exact hlib.get_object []
  | append_singleton params param ih =>
      rw [argumentsOf_concat, get_addParam hlib types (isObject_argumentsOf hlib types params), ih,
        if_neg fun h => h.1 h.2.symm]

/-- The arguments can be written when the last parameter of every name can. -/
theorem dump_argumentsOf : (lib.dump (argumentsOf lib types params)).isSome ↔
    ∀ key raw, key ≠ [] → params.reverse.lookup key = some raw →
      isValid key = true ∧ (isValid raw = true ∨ Reads lib raw (typeOf types key)) := by
  rw [hlib.dump_object _ (isObject_argumentsOf hlib types params)]
  constructor
  · intro hfields key raw hkey hlast
    obtain ⟨hvalid, hvalue⟩ := hfields key (coerce lib raw (typeOf types key))
      (by rw [get_argumentsOf hlib types params hkey, hlast]; rfl)
    exact ⟨hvalid, (dump_coerce hlib).mp hvalue⟩
  · intro hfields key value hvalue
    by_cases hkey : key = []
    · rw [hkey, get_argumentsOf_nil hlib types params] at hvalue
      cases hvalue
    · rw [get_argumentsOf hlib types params hkey] at hvalue
      obtain ⟨raw, hlast, rfl⟩ := Option.map_eq_some_iff.mp hvalue
      obtain ⟨hvalid, hraw⟩ := hfields key raw hkey hlast
      exact ⟨hvalid, (dump_coerce hlib).mpr hraw⟩

end Arguments

section Bodies

variable {lib : JsonLib J} (hlib : lib.Documented) {schemas : ToolSchemas} {body : Bytes}

/-- In a body of nested tags the last parameter of every name can be written. -/
def Writable (lib : JsonLib J) (schemas : ToolSchemas) (body : Bytes) : Prop :=
  ∀ name params, Nested body name params → ∀ key raw, key ≠ [] →
    params.reverse.lookup key = some raw →
      isValid key = true ∧ (isValid raw = true ∨ Reads lib raw (typeOf (schemas name) key))

include hlib

/-- What was parsed can be written again. -/
theorem parseJsonBody_returns : parseJsonBody lib body ≠ .throws := by
  unfold parseJsonBody
  cases hparse : lib.parse body with
  | none => simp
  | some parsed =>
      dsimp only
      split_ifs with hobject
      · simp
      cases (lib.get parsed (bytes "name")).bind lib.string with
      | none => simp
      | some name =>
          cases ha : lib.get parsed (bytes "arguments") with
          | none => simp
          | some a =>
              dsimp only
              cases lib.string a with
              | some arguments => simp
              | none =>
                  have hfields := (hlib.dump_object parsed (by simpa using hobject)).mp
                    (hlib.dump_parse body parsed hparse)
                  obtain ⟨arguments, hdump⟩ := Option.isSome_iff_exists.mp (hfields _ a ha).2
                  simp [hdump]

theorem parseXmlBody_returns_iff : parseXmlBody lib schemas body ≠ .throws ↔
    Writable lib schemas body := by
  by_cases h : ∃ name params, Nested body name params
  · obtain ⟨name, params, hnested⟩ := h
    have hwritten : parseXmlBody lib schemas body ≠ .throws ↔
        (lib.dump (argumentsOf lib (schemas name) params)).isSome := by
      rw [parseXmlBody_nested lib schemas hnested]
      cases lib.dump (argumentsOf lib (schemas name) params) <;> simp
    rw [hwritten, dump_argumentsOf hlib]
    refine ⟨fun hfields name' params' hnested' => ?_, fun hwritable => hwritable _ _ hnested⟩
    obtain ⟨rfl, rfl⟩ := hnested.unique hnested'
    exact hfields
  · have hnot : ∀ name params, ¬ Nested body name params := by simpa using h
    rw [parseXmlBody_unrecognised lib schemas hnot]
    exact iff_of_true (by simp) fun name params hnested => absurd hnested (hnot name params)

end Bodies

section Returns

variable {J : Type} {lib : JsonLib J} (hlib : lib.Documented) {schemas : ToolSchemas}

include hlib

theorem parseBody_returns_iff {body : Bytes} : parseBody lib schemas body ≠ .throws ↔
    (body.head? ≠ (bytes "\x7b").head? → Writable lib schemas body) := by
  unfold parseBody
  split_ifs with hjson
  · exact iff_of_true (parseJsonBody_returns hlib) fun hne => absurd hjson hne
  · rw [parseXmlBody_returns_iff hlib]
    exact ⟨fun h _ => h, fun h => h hjson⟩

/-- The parser returns, with the text as content and the blocks of its calls, exactly when the
last parameter of every name in every nested body between tags can be written. -/
theorem parseQwenToolCalls_returns_iff (text : Bytes) :
    (∃ parsed, parseQwenToolCalls lib schemas text = some parsed ∧
      ∃ segments, Interleaves lib schemas text parsed.content parsed.calls segments) ↔
    ∀ pieces last, Cuts text 0 pieces last → ∀ piece ∈ pieces,
      (trim piece.2).head? ≠ (bytes "\x7b").head? → Writable lib schemas (trim piece.2) := by
  have hreturns : ∀ pieces last, Cuts text 0 pieces last →
      ((parseQwenToolCalls lib schemas text).isSome ↔ ∀ piece ∈ pieces,
        (trim piece.2).head? ≠ (bytes "\x7b").head? → Writable lib schemas (trim piece.2)) := by
    intro pieces last hcuts
    rw [parseQwenToolCalls_eq hcuts, Option.isSome_map, assemble_isSome]
    exact forall₂_congr fun piece _ => parseBody_returns_iff hlib
  constructor
  · rintro ⟨parsed, hparsed, _⟩ pieces last hcuts
    exact (hreturns pieces last hcuts).mp (hparsed ▸ rfl)
  · intro hwritable
    obtain ⟨pieces, last, hcuts⟩ := exists_cuts text 0
    obtain ⟨parsed, hparsed⟩ := Option.isSome_iff_exists.mp
      ((hreturns pieces last hcuts).mpr (hwritable pieces last hcuts))
    exact ⟨parsed, hparsed, parseQwenToolCalls_interleaves hparsed⟩

end Returns

/-- The library on texts without floating-point numbers, of which it parses none. -/
def textLibrary : JsonLib (Json Empty) := Json.library nofun fun _ => none

theorem textLibrary_documented : textLibrary.Documented :=
  library_documented _ _ (by simp)

/-- A call of `f` with the parameter `k`. -/
def callOfF (value : Bytes) : Bytes :=
  bytes "<tool_call><function=f><parameter=k>" ++ value ++
    bytes "</parameter></function></tool_call>"

theorem parseQwenToolCalls_returns_iff_callOfF :
    (∃ parsed, parseQwenToolCalls textLibrary (fun _ => none) (callOfF (bytes "v")) = some parsed ∧
      ∃ segments, Interleaves textLibrary (fun _ => none) (callOfF (bytes "v")) parsed.content
        parsed.calls segments) ↔
    ∀ pieces last, Cuts (callOfF (bytes "v")) 0 pieces last → ∀ piece ∈ pieces,
      (trim piece.2).head? ≠ (bytes "\x7b").head? →
        Writable textLibrary (fun _ => none) (trim piece.2) :=
  parseQwenToolCalls_returns_iff textLibrary_documented (callOfF (bytes "v"))

/-- A value that is not UTF-8 takes the parser down. -/
theorem callOfF_throws : textLibrary.Documented ∧
    parseQwenToolCalls textLibrary (fun _ => none) (callOfF [0xFF]) = none :=
  ⟨textLibrary_documented, by decide +kernel⟩

end Arcint.Text.ToolCall
