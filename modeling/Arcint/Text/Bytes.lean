import Arcint.Foundation.Find
import Mathlib.Data.List.DropRight

/-! # Byte strings

The text helpers of the server. A string is its bytes; nothing here knows UTF-8.
-/

namespace Arcint.Text

open Foundation

abbrev Bytes := List UInt8

/-- The bytes of a literal. -/
def bytes (s : String) : Bytes := s.toUTF8.data.toList

def newline : UInt8 := 10

def space : UInt8 := 32

/-- `isspace` in the C locale. -/
def isSpace (b : UInt8) : Bool := b == space || (9 ≤ b && b ≤ 13)

def ltrim (s : Bytes) : Bytes := s.dropWhile isSpace

def rtrim (s : Bytes) : Bytes := s.rdropWhile isSpace

def trim (s : Bytes) : Bytes := rtrim (ltrim s)

def lower (b : UInt8) : UInt8 := if 65 ≤ b && b ≤ 90 then b + 32 else b

def iequals (a b : Bytes) : Bool := a.map lower == b.map lower

/-- How many bytes at the end of the text may still become the stop string. -/
def partialStopSuffix (text stop : Bytes) : Nat :=
  if stop = [] then 0 else partialSuffix stop text (min text.length (stop.length - 1))

/-- What is before the held-back end is clear of the stop string. -/
theorem clear_partialStopSuffix {text stop : Bytes} (hstop : stop ≠ [])
    (h : find stop text = none) : Clear stop text (text.length - partialStopSuffix text stop) := by
  rw [partialStopSuffix, if_neg hstop]
  exact clear_of_find_none h

end Arcint.Text
