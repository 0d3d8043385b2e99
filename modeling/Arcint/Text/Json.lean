import Arcint.Text.ToolCall
import Arcint.Text.Utf8

/-! # JSON values

A value as the JSON library holds it: integers in a signed or an unsigned word, and an object as
its fields, of which the first of a name counts. What is written of a value, and the functions of
the library that the tool-call parser uses.
-/

namespace Arcint.Text

open Foundation Utf8

/-- A JSON value over a type of floating-point numbers. -/
inductive Json (F : Type) where
  | null
  | boolean (b : Bool)
  | integer (n : Int64)
  | unsigned (n : UInt64)
  | float (x : F)
  | string (s : Bytes)
  | array (items : List (Json F))
  | object (fields : List (Bytes × Json F))

namespace Json

variable {F : Type}

def isNumber : Json F → Bool
  | .integer _ | .unsigned _ | .float _ => true
  | _ => false

def isObject : Json F → Bool
  | .object _ => true
  | _ => false

def isArray : Json F → Bool
  | .array _ => true
  | _ => false

def isNull : Json F → Bool
  | .null => true
  | _ => false

/-- `is_number_integer`, of either word. -/
def isInteger : Json F → Bool
  | .integer _ | .unsigned _ => true
  | _ => false

def getBoolean : Json F → Option Bool
  | .boolean b => some b
  | _ => none

/-- `get<int64_t>` of an integer: a cast, which takes the upper half of the unsigned words to
negative numbers. -/
def getInt64 : Json F → Int64
  | .integer n => n
  | .unsigned n => n.toInt64
  | _ => 0

/-- `get<int>` of an integer: a cast, which keeps the lower half of the word. -/
def getInt32 : Json F → Int32
  | .integer n => n.toInt32
  | .unsigned n => n.toUInt32.toInt32
  | _ => 0

/-- The integer that a JSON integer is. -/
def toInt? : Json F → Option Int
  | .integer n => some n.toInt
  | .unsigned n => some n.toNat
  | _ => none

def getArray : Json F → Option (List (Json F))
  | .array items => some items
  | _ => none

def getString : Json F → Option Bytes
  | .string s => some s
  | _ => none

def get : Json F → Bytes → Option (Json F)
  | .object fields, key => fields.lookup key
  | _, _ => none

/-- The fields with one set; fields are in the order of their names. -/
def setField (key : Bytes) (value : Json F) : List (Bytes × Json F) → List (Bytes × Json F)
  | [] => [(key, value)]
  | (name, old) :: rest =>
      if key = name then (key, value) :: rest
      else if key < name then (key, value) :: (name, old) :: rest
      else (name, old) :: setField key value rest

def set : Json F → Bytes → Json F → Json F
  | .object fields, key, value => .object (setField key value fields)
  | other, _, _ => other

/-- A byte of a string as it is written. -/
def escape (b : UInt8) : Bytes :=
  if b = 8 then bytes "\\b"
  else if b = 9 then bytes "\\t"
  else if b = 10 then bytes "\\n"
  else if b = 12 then bytes "\\f"
  else if b = 13 then bytes "\\r"
  else if b = 34 then bytes "\\\""
  else if b = 92 then bytes "\\\\"
  else if b < 32 then
    bytes "\\u00" ++ [if b < 16 then 48 else 49, (bytes "0123456789abcdef").getD (b % 16).toNat 0]
  else [b]

/-- A string between quotes, or none where it is not UTF-8. -/
def quoted (s : Bytes) : Option Bytes :=
  if isValid s then some (bytes "\"" ++ s.flatMap escape ++ bytes "\"") else none

def commas (texts : List Bytes) : Bytes := (texts.intersperse (bytes ",")).flatten

section Dump

variable (float : F → Bytes)

mutual

/-- `dump` with default arguments: none where it throws. -/
def dump : Json F → Option Bytes
  | .null => some (bytes "null")
  | .boolean b => some (bytes (toString b))
  | .integer n => some (bytes (toString n))
  | .unsigned n => some (bytes (toString n))
  | .float x => some (float x)
  | .string s => quoted s
  | .array items => (dumpItems items).map fun texts => bytes "[" ++ commas texts ++ bytes "]"
  | .object fields =>
      (dumpFields [] fields).map fun texts => bytes "\x7b" ++ commas texts ++ bytes "\x7d"

def dumpItems : List (Json F) → Option (List Bytes)
  | [] => some []
  | item :: rest => do return (← dump item) :: (← dumpItems rest)

def dumpFields (written : List Bytes) : List (Bytes × Json F) → Option (List Bytes)
  | [] => some []
  | (key, value) :: rest =>
      if key ∈ written then dumpFields written rest
      else do
        let field := (← quoted key) ++ bytes ":" ++ (← dump value)
        return field :: (← dumpFields (key :: written) rest)

end

end Dump

/-- The library over a parser of its own. -/
def library (float : F → Bytes) (parse : Bytes → Option (Json F)) : ToolCall.JsonLib (Json F) where
  parse := parse
  isNumber := isNumber
  isObject := isObject
  isArray := isArray
  ofString := .string
  ofBool := .boolean
  object := .object []
  set := set
  get := get
  string := getString
  dump := dump float

theorem lookup_cons (key name : Bytes) (value : Json F) (rest : List (Bytes × Json F)) :
    ((name, value) :: rest).lookup key = if key = name then some value else rest.lookup key := by
  rw [List.lookup_cons]
  by_cases h : key = name
  · rw [if_pos h, beq_iff_eq.mpr h]
  · rw [if_neg h, beq_eq_false_iff_ne.mpr h]

theorem lookup_setField (key other : Bytes) (value : Json F) (fields : List (Bytes × Json F)) :
    (setField key value fields).lookup other =
      if other = key then some value else fields.lookup other := by
  induction fields with
  | nil => rw [setField, lookup_cons]
  | cons field rest ih =>
      obtain ⟨name, old⟩ := field
      rw [setField, lookup_cons]
      by_cases hsame : key = name
      · rw [if_pos hsame, lookup_cons, ← hsame]
        split_ifs <;> rfl
      rw [if_neg hsame]
      by_cases hbefore : key < name
      · rw [if_pos hbefore, lookup_cons, lookup_cons]
      · rw [if_neg hbefore, lookup_cons, ih]
        by_cases hother : other = key
        · rw [if_pos hother, if_pos hother, if_neg (hother ▸ hsame)]
        · rw [if_neg hother, if_neg hother]

section Written

variable (float : F → Bytes)

theorem quoted_isSome (s : Bytes) : (quoted s).isSome ↔ isValid s = true := by
  unfold quoted
  split_ifs with h <;> simp [h]

/-- The fields can be written when those that count can. -/
theorem dumpFields_isSome (written : List Bytes) (fields : List (Bytes × Json F)) :
    (dumpFields float written fields).isSome ↔ ∀ key value, key ∉ written →
      fields.lookup key = some value → isValid key = true ∧ (dump float value).isSome := by
  induction fields generalizing written with
  | nil => simp [dumpFields]
  | cons field rest ih =>
      obtain ⟨name, old⟩ := field
      unfold dumpFields
      split_ifs with hwritten
      · rw [ih]
        refine forall₃_congr fun key value hkey => ?_
        rw [lookup_cons, if_neg (ne_of_mem_of_not_mem hwritten hkey).symm]
      · have hparts : (do
            let field := (← quoted name) ++ bytes ":" ++ (← dump float old)
            return field :: (← dumpFields float (name :: written) rest)).isSome ↔
            isValid name = true ∧ (dump float old).isSome ∧
              (dumpFields float (name :: written) rest).isSome := by
          rw [← quoted_isSome]
          cases quoted name <;> cases dump float old <;>
            cases dumpFields float (name :: written) rest <;> simp
        rw [hparts, ih]
        constructor
        · rintro ⟨hname, hold, hrest⟩ key value hkey hlookup
          rw [lookup_cons] at hlookup
          split_ifs at hlookup with heq
          · cases hlookup
            exact ⟨heq ▸ hname, hold⟩
          · exact hrest key value (by simp [heq, hkey]) hlookup
        · intro hall
          obtain ⟨hname, hold⟩ := hall name old hwritten (by rw [lookup_cons, if_pos rfl])
          refine ⟨hname, hold, fun key value hkey hlookup => ?_⟩
          obtain ⟨hne, hkey⟩ := not_or.mp fun h => hkey (List.mem_cons.mpr h)
          exact hall key value hkey (by rw [lookup_cons, if_neg hne, hlookup])

end Written

end Json

end Arcint.Text
