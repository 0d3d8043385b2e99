import Arcint.Foundation.Access
import Arcint.Gguf.Reader

/-! # Decoding and repacking tensors

The host dequantizers and the repacker, as the accesses they make: bytes read
from the mapping and floats written to the output. What is computed from the
bytes never decides which bytes are read.
-/

namespace Arcint.Gguf

open Arcint.Foundation
open Arcint.Foundation.Access (read write)

/-! ## Inside a block -/

def readU16 (p : Nat) : List Access := [read p, read (p + 1)]

/-- The packed scale and min of group `j`. -/
def getScaleMinK4 (j q : Nat) : List Access :=
  if j < 4 then [read (q + j), read (q + j + 4)]
  else [read (q + j + 4), read (q + j - 4), read (q + j + 4), read (q + j)]

/-- Sixteen bytes of nibbles from `qs`, for the 32 values from `y`. -/
def nibbles (qs y : Nat) : List Access :=
  (List.range 16).flatMap fun l =>
    [read (qs + l), read (qs + l), write (y + l), write (y + l + 16)]

def blockQ40 : List Access := readU16 0 ++ nibbles 2 0

def blockQ41 : List Access := readU16 0 ++ readU16 2 ++ nibbles 4 0

def blockQ80 : List Access :=
  readU16 0 ++ (List.range 32).flatMap fun l => [read (2 + l), write l]

def blockQ4K : List Access :=
  readU16 0 ++ readU16 2 ++ (List.range 4).flatMap fun j =>
    let q32 := 16 + 32 * j
    let y := 64 * j
    getScaleMinK4 (2 * j) 4 ++
      ((List.range 32).flatMap fun l => [read (q32 + l), write (y + l)]) ++
      getScaleMinK4 (2 * j + 1) 4 ++
      (List.range 32).flatMap fun l => [read (q32 + l), write (y + 32 + l)]

def blockQ5K : List Access :=
  readU16 0 ++ readU16 2 ++ (List.range 4).flatMap fun j =>
    let qh := 16
    let q32 := 48 + 32 * j
    let y := 64 * j
    getScaleMinK4 (2 * j) 4 ++
      ((List.range 32).flatMap fun l => [read (q32 + l), read (qh + l), write (y + l)]) ++
      getScaleMinK4 (2 * j + 1) 4 ++
      (List.range 32).flatMap fun l => [read (q32 + l), read (qh + l), write (y + 32 + l)]

def blockQ6K : List Access :=
  readU16 208 ++ (List.range 2).flatMap fun n =>
    let ql := 64 * n
    let qh := 128 + 32 * n
    let sc := 192 + 8 * n
    let y := 128 * n
    (List.range 32).flatMap fun l =>
      let is := l / 16
      [read (ql + l), read (qh + l), read (ql + l + 32), read (qh + l),
        read (ql + l), read (qh + l), read (ql + l + 32), read (qh + l),
        read (sc + is), write (y + l), read (sc + is + 2), write (y + l + 32),
        read (sc + is + 4), write (y + l + 64), read (sc + is + 6), write (y + l + 96)]

def blockIq4Nl : List Access := readU16 0 ++ nibbles 2 0

def blockIq4Xs : List Access :=
  readU16 0 ++ readU16 2 ++ (List.range 8).flatMap fun ib =>
    read (4 + ib / 2) :: nibbles (8 + 16 * ib) (32 * ib)

def blockIq3Xxs : List Access :=
  readU16 0 ++ (List.range 8).flatMap fun ib32 =>
    let qs := 2 + 8 * ib32
    let ss := 66 + 4 * ib32
    let y := 32 * ib32
    [read ss, read (ss + 1), read (ss + 2), read (ss + 3)] ++
      (List.range 4).flatMap fun l =>
        [read (qs + 2 * l), read (qs + 2 * l + 1)] ++ (List.range 4).flatMap fun j =>
          [write (y + 8 * l + j), write (y + 8 * l + j + 4)]

/-! ## Rows -/

/-- A row of blocks. The loop runs while a block starts before the end. -/
def decodeBlocks (elements bytes : Nat) (block : List Access) (n : Nat) : List Access :=
  overBlocks bytes elements block (indicesBelow elements n)

def dequantizeRowQ40 : Nat → List Access := decodeBlocks 32 18 blockQ40
def dequantizeRowQ41 : Nat → List Access := decodeBlocks 32 20 blockQ41
def dequantizeRowQ80 : Nat → List Access := decodeBlocks 32 34 blockQ80
def dequantizeRowQ4K : Nat → List Access := decodeBlocks 256 144 blockQ4K
def dequantizeRowQ5K : Nat → List Access := decodeBlocks 256 176 blockQ5K
def dequantizeRowQ6K : Nat → List Access := decodeBlocks 256 210 blockQ6K
def dequantizeRowIq4Nl : Nat → List Access := decodeBlocks 32 18 blockIq4Nl
def dequantizeRowIq4Xs : Nat → List Access := decodeBlocks 256 136 blockIq4Xs
def dequantizeRowIq3Xxs : Nat → List Access := decodeBlocks 256 98 blockIq3Xxs

/-- A plain copy of floats. -/
def copyFloats (n : Nat) : List Access :=
  (List.range (4 * n)).map read ++ (List.range n).map write

/-- Two-byte floats, widened one by one. -/
def widenHalves (n : Nat) : List Access :=
  (List.range n).flatMap fun i => readU16 (2 * i) ++ [write i]

inductive DecodeError where
  | tooManyElements (n : Nat)
  | notImplemented (type : Nat)
  deriving DecidableEq, Repr

def dequantizeRow (type n : Nat) : Except DecodeError (List Access) :=
  match type with
  | 0 => .ok (copyFloats n)
  | 1 => .ok (widenHalves n)
  | 30 => .ok (widenHalves n)
  | 8 => .ok (dequantizeRowQ80 n)
  | 2 => .ok (dequantizeRowQ40 n)
  | 3 => .ok (dequantizeRowQ41 n)
  | 12 => .ok (dequantizeRowQ4K n)
  | 13 => .ok (dequantizeRowQ5K n)
  | 14 => .ok (dequantizeRowQ6K n)
  | 20 => .ok (dequantizeRowIq4Nl n)
  | 18 => .ok (dequantizeRowIq3Xxs n)
  | 23 => .ok (dequantizeRowIq4Xs n)
  | _ => .error (.notImplemented type)

/-- The most floats a vector can be resized to. -/
def maxFloats : Nat := (2 ^ 63 - 1) / 4

/-- Where the bytes of a tensor begin. -/
def GgufFile.data (file : GgufFile) (t : TensorInfo) : Nat := file.dataOffset + t.offset

/-- Decode a whole tensor. Reads are positions in the mapping, writes positions
in the output, which holds as many floats as the tensor has elements. -/
def dequantizeTensor (file : GgufFile) (t : TensorInfo) : Except DecodeError (List Access) := do
  ensure (t.nElements ≤ maxFloats) (DecodeError.tooManyElements t.nElements)
  let accesses ← dequantizeRow t.ggmlType t.nElements
  return accesses.map (Access.move (file.data t) 0)

/-! ## Repacking -/

inductive RepackError where
  | unsupportedType (type : Nat)
  | notTwoDimensional
  | partialBlocks
  | columnSizeMismatch
  | columnOrderUnsupported
  | tooLong
  | notGroupAligned
  | splitsGroup
  deriving DecidableEq, Repr

def repackSupported (type : Nat) : Bool := type = 8 ∨ type = 12 ∨ type = 13 ∨ type = 14

def blockBytesOf : Nat → Nat
  | 8 => 34
  | 12 => 144
  | 13 => 176
  | 14 => 210
  | _ => 0

/-- The groups of 32 columns move as a whole, each to a place of its own. -/
def checkGroup (dest : List Int) (g : Nat) : Except RepackError Unit := do
  let d0 := dest.getD (g * 32) 0
  ensure (d0.tmod 32 = 0) RepackError.notGroupAligned
  ensure (∀ i ∈ List.range 32, dest.getD (g * 32 + i) 0 = d0 + i) RepackError.splitsGroup

/-- The checks made while the groups are placed. A negative row length is a
vector too long to allocate. -/
def placementOf (k : Int) (dest : Option (List Int)) : Except RepackError Unit := do
  ensure (0 ≤ k.tdiv 32) RepackError.tooLong
  match dest with
  | none => return
  | some dest => checkAll (checkGroup dest) (List.range (k.tdiv 32).toNat)

def repackBlockQ80 : List Access :=
  [read 0, read 1] ++ (List.range 32).map fun i => read (2 + i)

/-- A super-block with mins: nibbles from `qs`, and high bits when there are any. -/
def repackBlockMins (qs : Nat) (high : Bool) : List Access :=
  readU16 0 ++ readU16 2 ++ (List.range 8).flatMap fun s =>
    getScaleMinK4 s 4 ++ (List.range 32).flatMap fun l =>
      read (qs + s / 2 * 32 + l) :: if high then [read (16 + l)] else []

def repackBlockQ6K : List Access :=
  readU16 208 ++ (List.range 2).flatMap fun hh =>
    let ql := 64 * hh
    let qh := 128 + 32 * hh
    let sc := 192 + 8 * hh
    (List.range 32).flatMap fun l =>
      let is := l / 16
      [read (ql + l), read (qh + l), read (ql + l + 32), read (qh + l),
        read (ql + l), read (qh + l), read (ql + l + 32), read (qh + l)] ++
        if l % 16 = 0 then
          [read (sc + is), read (sc + is + 2), read (sc + is + 4), read (sc + is + 6)]
        else []

/-- The bytes read of one row. A negative row length has no blocks. -/
def repackRow (type : Nat) (k : Int) : List Access :=
  match type with
  | 8 => overBlocks 34 0 repackBlockQ80 (List.range (k.tdiv 32).toNat)
  | 12 => overBlocks 144 0 (repackBlockMins 16 false) (List.range (k.tdiv 256).toNat)
  | 13 => overBlocks 176 0 (repackBlockMins 48 true) (List.range (k.tdiv 256).toNat)
  | 14 => overBlocks 210 0 repackBlockQ6K (List.range (k.tdiv 256).toNat)
  | _ => []

/-- The rows of one thread: every `nThreads`-th, from its own index on. -/
def threadRows (nThreads thread n : Nat) : List Nat :=
  (List.range n).filter fun row => row % nThreads = thread

/-- How a tensor is to be repacked, and on what machine. -/
structure RepackRequest where
  columnDestOf : Option (List Int)
  threads : Nat
  hardwareConcurrency : Nat

def RepackRequest.nThreads (r : RepackRequest) : Nat :=
  if r.threads ≠ 0 then r.threads else max 1 (min r.hardwareConcurrency 16)

/-- Elements of a block. -/
def repackBlockSize (type : Nat) : Nat := if type = 8 then 32 else 256

/-- Bytes of a row of blocks, in a word. -/
def repackRowBytes (type : Nat) (k : Int) : Nat :=
  (k.tdiv (repackBlockSize type) % 2 ^ 64).toNat * blockBytesOf type % 2 ^ 64

/-- Only the types with mins can have their columns reordered. -/
def checkColumns (type : Nat) (k : Int) (dest : Option (List Int)) : Except RepackError Unit :=
  if type = 12 ∨ type = 13 then placementOf k dest
  else ensure dest.isNone RepackError.columnOrderUnsupported

/-- Repack a tensor: the bytes read from the mapping. Row lengths and counts are
signed words, and the position of a row is computed in a word. -/
def repackTensor (file : GgufFile) (t : TensorInfo) (r : RepackRequest) :
    Except RepackError (List Access) := do
  ensure (repackSupported t.ggmlType) (RepackError.unsupportedType t.ggmlType)
  ensure (t.dims.length = 2) RepackError.notTwoDimensional
  let k := signed 8 (t.dims.getD 0 0)
  let n := signed 8 (t.dims.getD 1 0)
  ensure (k.tmod (repackBlockSize t.ggmlType) = 0) RepackError.partialBlocks
  ensure (∀ dest ∈ r.columnDestOf, (dest.length : Int) = k) RepackError.columnSizeMismatch
  checkColumns t.ggmlType k r.columnDestOf
  return (List.range r.nThreads).flatMap fun thread =>
    (threadRows r.nThreads thread n.toNat).flatMap fun row =>
      (repackRow t.ggmlType k).map
        (Access.move (file.data t + row * repackRowBytes t.ggmlType k % 2 ^ 64) 0)

end Arcint.Gguf
