import Arcint.Foundation.Wire
import Arcint.Text.Bytes
import Mathlib.Algebra.Ring.Int.Defs

/-! # The GGUF reader

A mapped file is read front to back: magic, version, counts, metadata entries,
tensor descriptors. Tensor data is not read, only checked to lie in the file.
-/

namespace Arcint.Gguf

open Arcint.Foundation
open Arcint.Text (Bytes bytes)

/-- Why a file is refused. -/
inductive OpenError where
  | tooSmall (size : Nat)
  | badMagic (magic : Bytes)
  | unsupportedVersion (version : Nat)
  | truncated (need left : Nat)
  | nestedArrays
  | unknownTensorType (name : Bytes) (type : Nat)
  | alignmentWrongType
  | alignmentNotPowerOfTwo (alignment : Nat)
  | misalignedTensor (name : Bytes) (offset alignment : Nat)
  | pastEof (name : Bytes) (offset nbytes size : Nat)
  deriving DecidableEq, Repr

/-- A mapped file. What is mapped fits into the address space. -/
structure Mapping where
  bytes : Bytes
  small : bytes.length < 2 ^ 57

/-! ## Tensor types -/

structure TypeEntry where
  type : Nat
  blockSize : Nat
  typeSize : Nat
  deriving DecidableEq, Repr

/-- Elements and bytes of a block, by type id. -/
def kTypes : List TypeEntry :=
  [⟨0, 1, 4⟩, ⟨1, 1, 2⟩, ⟨2, 32, 18⟩, ⟨3, 32, 20⟩, ⟨6, 32, 22⟩, ⟨7, 32, 24⟩, ⟨8, 32, 34⟩,
    ⟨10, 256, 84⟩, ⟨11, 256, 110⟩, ⟨12, 256, 144⟩, ⟨13, 256, 176⟩, ⟨14, 256, 210⟩,
    ⟨15, 256, 292⟩, ⟨16, 256, 66⟩, ⟨17, 256, 74⟩, ⟨18, 256, 98⟩, ⟨20, 32, 18⟩, ⟨21, 256, 110⟩,
    ⟨22, 256, 82⟩, ⟨23, 256, 136⟩, ⟨24, 1, 1⟩, ⟨25, 1, 2⟩, ⟨26, 1, 4⟩, ⟨27, 1, 8⟩, ⟨28, 1, 8⟩,
    ⟨30, 1, 2⟩]

def findType (type : Nat) : Option TypeEntry :=
  kTypes.find? fun e => e.type = type

def isKnownType (type : Nat) : Bool := (findType type).isSome

/-! ## Metadata values -/

/-- Value types of fixed width. -/
inductive WordType where
  | uint8 | int8 | uint16 | int16 | uint32 | int32 | float32 | bool | uint64 | int64 | float64
  deriving DecidableEq, Repr

/-- The enumerators of a value-type tag. -/
inductive ValueType where
  | word (type : WordType)
  | string
  | array
  deriving DecidableEq, Repr

/-- Bytes of a value. -/
def WordType.width : WordType → Nat
  | .uint8 | .int8 | .bool => 1
  | .uint16 | .int16 => 2
  | .uint32 | .int32 | .float32 => 4
  | .uint64 | .int64 | .float64 => 8

def ValueType.raw : ValueType → Nat
  | .word .uint8 => 0
  | .word .int8 => 1
  | .word .uint16 => 2
  | .word .int16 => 3
  | .word .uint32 => 4
  | .word .int32 => 5
  | .word .float32 => 6
  | .word .bool => 7
  | .string => 8
  | .array => 9
  | .word .uint64 => 10
  | .word .int64 => 11
  | .word .float64 => 12

/-- The enumerator a raw tag stands for. Any 32-bit tag can be cast to the
enumeration; one above 12 is none of its enumerators. -/
def ValueType.ofRaw? : Nat → Option ValueType
  | 0 => some (.word .uint8)
  | 1 => some (.word .int8)
  | 2 => some (.word .uint16)
  | 3 => some (.word .int16)
  | 4 => some (.word .uint32)
  | 5 => some (.word .int32)
  | 6 => some (.word .float32)
  | 7 => some (.word .bool)
  | 8 => some .string
  | 9 => some .array
  | 10 => some (.word .uint64)
  | 11 => some (.word .int64)
  | 12 => some (.word .float64)
  | _ => none

/-- A double, by the bits it was read from: those of a single widen exactly. -/
inductive FloatBits where
  | single (bits : Nat)
  | double (bits : Nat)
  deriving DecidableEq, Repr

/-- One metadata value; a scalar has one element. -/
structure MetaValue where
  type : Nat
  elemType : Nat
  ints : List Int
  floats : List FloatBits
  strings : List Bytes
  deriving DecidableEq, Repr

/-- Two's complement reading of `width` bytes. -/
def signed (width bits : Nat) : Int :=
  (bits : Int).bmod (256 ^ width)

def MetaValue.pushWord (out : MetaValue) (type : WordType) (bits : Nat) : MetaValue :=
  match type with
  | .uint8 | .uint16 | .uint32 => { out with ints := out.ints ++ [(bits : Int)] }
  -- an unsigned 64-bit value is cast to a signed one
  | .int8 | .int16 | .int32 | .int64 | .uint64 =>
      { out with ints := out.ints ++ [signed type.width bits] }
  | .bool => { out with ints := out.ints ++ [if bits ≠ 0 then 1 else 0] }
  | .float32 => { out with floats := out.floats ++ [.single bits] }
  | .float64 => { out with floats := out.floats ++ [.double bits] }

def MetaValue.pushString (out : MetaValue) (s : Bytes) : MetaValue :=
  { out with strings := out.strings ++ [s] }

/-! ## The cursor -/

def readBytes (n : Nat) : Reader OpenError Bytes := fun input =>
  if n ≤ input.length then .ok (input.take n, input.drop n)
  else .error (.truncated n input.length)

def readWord (width : Nat) : Reader OpenError Nat := fun input => do
  let (word, rest) ← readBytes width input
  return (leNat word, rest)

def readString : Reader OpenError Bytes := fun input => do
  let (len, rest) ← readWord 8 input
  readBytes len rest

/-- Append one scalar to a value. A tag that is no enumerator falls through the
switch: nothing is read and nothing appended. -/
def readScalarInto (vtype : Nat) (out : MetaValue) : Reader OpenError MetaValue := fun input =>
  match ValueType.ofRaw? vtype with
  | some (.word type) => do
      let (bits, rest) ← readWord type.width input
      return (out.pushWord type bits, rest)
  | some .string => do
      let (s, rest) ← readString input
      return (out.pushString s, rest)
  | some .array => .error .nestedArrays
  | none => .ok (out, input)

/-- The elements of an array. -/
def readItems (vtype : Nat) : Nat → MetaValue → Reader OpenError MetaValue
  | 0, out, input => .ok (out, input)
  | count + 1, out, input => do
      let (out, rest) ← readScalarInto vtype out input
      readItems vtype count out rest

def readValue (vtype : Nat) : Reader OpenError MetaValue := fun input =>
  if vtype = ValueType.array.raw then do
    let (elemType, rest) ← readWord 4 input
    let (count, rest) ← readWord 8 rest
    ensure (elemType ≠ ValueType.array.raw) OpenError.nestedArrays
    readItems elemType count ⟨vtype, elemType, [], [], []⟩ rest
  else readScalarInto vtype ⟨vtype, 0, [], [], []⟩ input

/-! ## Metadata and tensors -/

/-- The metadata map, without the order of its keys. -/
abbrev MetaMap := List (Bytes × MetaValue)

/-- Assignment in the map: a key that is there gets the new value. -/
def assign (key : Bytes) (value : MetaValue) : MetaMap → MetaMap
  | [] => [(key, value)]
  | (k, old) :: rest => if k = key then (k, value) :: rest else (k, old) :: assign key value rest

def readEntries : Nat → MetaMap → Reader OpenError MetaMap
  | 0, metadata, input => .ok (metadata, input)
  | n + 1, metadata, input => do
      let (key, rest) ← readString input
      let (vtype, rest) ← readWord 4 rest
      let (value, rest) ← readValue vtype rest
      readEntries n (assign key value metadata) rest

structure TensorInfo where
  name : Bytes
  dims : List Nat
  ggmlType : Nat
  offset : Nat
  nElements : Nat
  deriving DecidableEq, Repr

/-- The product of the dimensions, as the reader computes it. -/
def elementCount (dims : List Nat) : Nat :=
  dims.foldl (fun n d => n * d % 2 ^ 64) 1

def readTensor : Reader OpenError TensorInfo := fun input => do
  let (name, rest) ← readString input
  let (nDims, rest) ← readWord 4 rest
  ensure (nDims * 8 ≤ rest.length) (OpenError.truncated (nDims * 8) rest.length)
  let (dims, rest) ← readMany (readWord 8) nDims rest
  let (ggmlType, rest) ← readWord 4 rest
  let (offset, rest) ← readWord 8 rest
  ensure (isKnownType ggmlType) (OpenError.unknownTensorType name ggmlType)
  return (⟨name, dims, ggmlType, offset, elementCount dims⟩, rest)

/-- Bytes of a tensor's whole blocks. -/
def TensorInfo.bytes (t : TensorInfo) : Except OpenError Nat :=
  match findType t.ggmlType with
  | some e => .ok (t.nElements / e.blockSize * e.typeSize % 2 ^ 64)
  | none => .error (.unknownTensorType t.name t.ggmlType)

def defaultAlignment : Nat := 32

/-- The key that sets the alignment of tensor data. -/
def alignmentKey : Bytes := bytes "general.alignment"

/-- The alignment the metadata asks for. -/
def declaredAlignment (metadata : MetaMap) : Except OpenError Nat :=
  match metadata.lookup alignmentKey with
  | none => .ok defaultAlignment
  | some value =>
      if value.type = (ValueType.word .uint32).raw then
        match value.ints with
        | first :: _ => .ok (first % 2 ^ 32).toNat
        | [] => .error .alignmentWrongType
      else .error .alignmentWrongType

def findAlignment (metadata : MetaMap) : Except OpenError Nat := do
  let alignment ← declaredAlignment metadata
  ensure (alignment ≠ 0 ∧ alignment &&& (alignment - 1) = 0)
    (OpenError.alignmentNotPowerOfTwo alignment)
  return alignment

def checkTensor (size dataOffset alignment : Nat) (t : TensorInfo) : Except OpenError Unit := do
  ensure (t.offset % alignment = 0) (OpenError.misalignedTensor t.name t.offset alignment)
  let nbytes ← t.bytes
  ensure (dataOffset ≤ size ∧ t.offset ≤ size - dataOffset ∧
    nbytes ≤ size - dataOffset - t.offset) (OpenError.pastEof t.name t.offset nbytes size)

structure GgufFile where
  metadata : MetaMap
  tensors : List TensorInfo
  alignment : Nat
  dataOffset : Nat
  size : Nat
  deriving DecidableEq, Repr

/-- The next multiple of the alignment. -/
def alignUp (pos alignment : Nat) : Nat :=
  if pos % alignment ≠ 0 then pos + (alignment - pos % alignment) else pos

/-- `GGUF`. -/
def magic : Bytes := [71, 71, 85, 70]

def openGguf (m : Mapping) : Except OpenError GgufFile := do
  let size := m.bytes.length
  ensure (4 ≤ size) (OpenError.tooSmall size)
  ensure (m.bytes.take 4 = magic) (OpenError.badMagic (m.bytes.take 4))
  let (version, rest) ← readWord 4 (m.bytes.drop 4)
  ensure (version = 3) (OpenError.unsupportedVersion version)
  let (nTensors, rest) ← readWord 8 rest
  let (nKv, rest) ← readWord 8 rest
  let (metadata, rest) ← readEntries nKv [] rest
  let (tensors, rest) ← readMany readTensor nTensors rest
  let alignment ← findAlignment metadata
  let dataOffset := alignUp (size - rest.length) alignment
  checkAll (checkTensor size dataOffset alignment) tensors
  return ⟨metadata, tensors, alignment, dataOffset, size⟩

end Arcint.Gguf
