import Arcint.Foundation.Edits
import Arcint.Gguf.Deviation
import Arcint.Gguf.Half

/-! # Repacked rows, byte by byte

A row of blocks is read by the decoders, which write a product of the scale and the integer of
every column, and by the repack, which stores the integers and the scales of whole groups. Both
are over any floats. The bytes of a row are numbered from its first; masks and shifts of bytes
are remainders and quotients, and fields that are put together are added.
-/

namespace Arcint.Gguf.Packing

open Foundation
open BinaryFormat (binary32)
open Verdicts (scaleMinK4 quantMins placeOf)

/-- What the decoders and the repack use of the floats. -/
structure FloatOps (F : Type) where
  mul : F → F → F
  sub : F → F → F
  div : F → F → F
  max : F → F → F
  /-- Above zero. -/
  positive : F → Bool
  lround : F → ℤ
  ofInt : ℤ → F
  /-- `f16_to_f32`. -/
  ofHalf : ℕ → F
  /-- `to_f16`. -/
  toHalf : F → ℕ

/-- The floats of the code. Which NaN an operation gives, and which integer what is too large for
one is rounded to, is left open. -/
def binary32Ops (nan : ℕ → ℕ → ℕ) (other : ℕ → ℤ) : FloatOps ℕ where
  mul := binary32.mul nan
  sub := binary32.sub nan
  div := binary32.div nan
  max := binary32.max
  positive := binary32.lt 0
  lround x :=
    let n := Verdicts.lround (binary32.value x)
    if binary32.Finite x ∧ n.natAbs < 2 ^ 63 then n else other x
  ofInt := binary32.ofInt
  ofHalf := f16ToF32
  toHalf := toF16

section Rows

variable {F : Type} (ops : FloatOps F) (byte : ℕ → ℕ)

def f16at (p : ℕ) : F := ops.ofHalf (byte p + byte (p + 1) * 256)

/-- The four integers of `Q6_K` that share a byte of high bits. -/
def q6K (ql qh l : ℕ) : ℕ → ℕ
  | 0 => byte (ql + l) % 16 + byte (qh + l) / 1 % 4 * 16
  | 1 => byte (ql + (l + 32)) % 16 + byte (qh + l) / 4 % 4 * 16
  | 2 => byte (ql + l) / 16 + byte (qh + l) / 16 % 4 * 16
  | _ => byte (ql + (l + 32)) / 16 + byte (qh + l) / 64 % 4 * 16

/-! ## The decoders -/

def dequantizeRowQ80 (nElements : ℕ) : List (ℕ × F) :=
  (indicesBelow 32 nElements).flatMap fun b =>
    let block := b * 34
    let d := f16at ops byte block
    (List.range 32).map fun l =>
      (b * 32 + l, ops.mul d (ops.ofInt (signed 1 (byte (block + (2 + l))))))

/-- The decoder of a type with mins, whose `get_scale_min_k4` is the repack's `scale_min_k4`: where
its nibbles begin, and what is added to the nibble of a column for the bit that its group has in the
high bits. -/
def dequantizeRowMins (blockBytes qs : ℕ) (high : ℕ → ℕ → ℕ → ℕ) (nElements : ℕ) :
    List (ℕ × F) :=
  (indicesBelow 256 nElements).flatMap fun b =>
    let block := b * blockBytes
    let d := f16at ops byte block
    let dmin := f16at ops byte (block + 2)
    let scales := block + 4
    (List.range 4).flatMap fun j =>
      let y := b * 256 + j * 64
      let q32 := block + (qs + 32 * j)
      let first := scaleMinK4 byte (2 * j) scales
      let d1 := ops.mul d (ops.ofInt first.1)
      let m1 := ops.mul dmin (ops.ofInt first.2)
      let second := scaleMinK4 byte (2 * j + 1) scales
      let d2 := ops.mul d (ops.ofInt second.1)
      let m2 := ops.mul dmin (ops.ofInt second.2)
      ((List.range 32).map fun l =>
        let q := byte (q32 + l) % 16 + high block (2 ^ (2 * j)) l
        (y + l, ops.sub (ops.mul d1 (ops.ofInt q)) m1)) ++
      (List.range 32).map fun l =>
        let q := byte (q32 + l) / 16 + high block (2 * 2 ^ (2 * j)) l
        (y + (32 + l), ops.sub (ops.mul d2 (ops.ofInt q)) m2)

def dequantizeRowQ4K : ℕ → List (ℕ × F) :=
  dequantizeRowMins ops byte 144 16 fun _ _ _ => 0

def dequantizeRowQ5K : ℕ → List (ℕ × F) :=
  dequantizeRowMins ops byte 176 48 fun block u l =>
    if byte (block + (16 + l)) / u % 2 = 1 then 16 else 0

def dequantizeRowQ6K (nElements : ℕ) : List (ℕ × F) :=
  (indicesBelow 256 nElements).flatMap fun b =>
    let block := b * 210
    let d := f16at ops byte (block + 208)
    (List.range 2).flatMap fun n =>
      let qlh := block + 64 * n
      let qhh := block + (128 + 32 * n)
      let sch := block + (192 + 8 * n)
      let yh := b * 256 + 128 * n
      (List.range 32).flatMap fun l =>
        let is := l / 16
        let scaled (i : ℕ) : F := ops.mul d (ops.ofInt (signed 1 (byte (sch + (is + i)))))
        let q (i : ℕ) : ℤ := q6K byte qlh qhh l i - 32
        [(yh + l, ops.mul (scaled 0) (ops.ofInt (q 0))),
          (yh + (32 + l), ops.mul (scaled 2) (ops.ofInt (q 1))),
          (yh + (64 + l), ops.mul (scaled 4) (ops.ofInt (q 2))),
          (yh + (96 + l), ops.mul (scaled 6) (ops.ofInt (q 3)))]

/-- `dequantize_row`, of the types that are repacked. -/
def dequantizeRow (type nElements : ℕ) : List (ℕ × F) :=
  match type with
  | 8 => dequantizeRowQ80 ops byte nElements
  | 12 => dequantizeRowQ4K ops byte nElements
  | 13 => dequantizeRowQ5K ops byte nElements
  | 14 => dequantizeRowQ6K ops byte nElements
  | _ => []

end Rows

/-! ## The repacked form -/

inductive RepackWeights where
  | u4 | u8 | i8
  deriving DecidableEq, Repr

inductive RepackZeroPoint where
  | none | u8Scalar
  deriving DecidableEq, Repr

structure RepackedTensor where
  weightsType : RepackWeights
  zpType : RepackZeroPoint
  n : ℕ
  k : ℕ
  kAug : ℕ
  group : ℕ
  groupsPerAug : ℕ
  mins : RepackMins
  augSlots : ℕ
  weights : ℕ → ℕ
  /-- The bits of halves, as those of `minMatrix`. -/
  scale : ℕ → ℕ
  zpU8 : ℕ
  columnDestOf : List ℤ
  minMatrix : Option (ℕ → ℕ)

namespace RepackedTensor

variable (r : RepackedTensor)

def width : ℕ := r.k + r.kAug

def wgroups : ℕ := r.width / r.group

/-- The bytes of a group of 32 columns. -/
def groupBytes : ℕ := if r.weightsType = .u4 then 16 else 32

/-- The bytes of a row. -/
def rowWeights : ℕ := r.width / if r.weightsType = .u4 then 2 else 1

/-- The integer that is read of a column. -/
def storedInt (row c : ℕ) : ℤ :=
  let idx := row * r.width + c
  match r.weightsType with
  | .u4 => (r.weights (idx / 2) / 16 ^ (idx % 2) % 16 : ℕ)
  | .u8 => r.weights idx
  | .i8 => signed 1 (r.weights idx)

def zeroPoint : ℤ :=
  match r.zpType with
  | .u8Scalar => r.zpU8
  | .none => 0

/-- The scale of the group of a column. -/
def groupScale (row c : ℕ) : ℕ := r.scale (row * r.wgroups + c / r.group)

/-- `repacked_group_min`. -/
def repackedGroupMin {F : Type} (ops : FloatOps F) (row g : ℕ) : F :=
  if r.mins = .split then
    match r.minMatrix with
    | none => ops.ofInt 0
    | some minMatrix => ops.ofHalf (minMatrix (row * (r.k / 32) + g))
  else if r.kAug = 0 then ops.ofInt 0
  else
    let ag := r.k / 32 + g / r.groupsPerAug
    let slot := g % r.groupsPerAug
    let s := ops.ofHalf (r.scale (row * r.wgroups + ag))
    let aug := row * r.rowWeights + ag * r.groupBytes
    let mn :=
      if r.weightsType ≠ .u4 then r.weights (aug + slot)
      else if r.augSlots = 2 then
        let byte := r.weights (aug + slot)
        byte % 16 * 16 + byte / 16
      else r.weights (aug + slot / 2) / 16 ^ (slot % 2) % 16
    ops.mul s (ops.ofInt mn)

end RepackedTensor

/-! ## The repack -/

/-- What is written of a row, from the places on where the row begins. -/
structure RowWrites where
  weights : List (ℕ × (ℕ → ℕ))
  scale : List (ℕ × ℕ)
  minMatrix : List (ℕ × ℕ)

/-- The min of a group, and where it is stored. -/
structure GroupMin (F : Type) where
  ag : ℕ
  slot : ℕ
  dmin : F
  m6 : ℕ

section Rows

variable {F : Type} (ops : FloatOps F) (byte : ℕ → ℕ)

def repackRowQ80 (k : ℕ) : RowWrites where
  weights := stores ((List.range (k / 32)).flatMap fun b =>
    (List.range 32).map fun l => (b * 32 + l, byte (b * 34 + (2 + l))))
  scale := (List.range (k / 32)).map fun b => (b, byte (b * 34) + byte (b * 34 + 1) * 256)
  minMatrix := []

section Mins

variable (r : RepackedTensor)

/-- The scales of the augmented groups, before they are rounded. -/
def augScales (gmins : List (GroupMin F)) : ℕ → F :=
  edited (fun _ => ops.ofInt 0) (gmins.map fun gm =>
    (gm.ag - r.k / 32, fun s =>
      if r.mins = .nibble ∧ r.weightsType = .u4 then
        ops.max s (ops.div (ops.mul gm.dmin (ops.ofInt gm.m6)) (ops.ofInt 15))
      else ops.max s gm.dmin))

/-- A min in steps of the half of its augmented group. -/
def storedMin (sc : ℕ → ℕ) (gm : GroupMin F) : ℕ :=
  let u4 := r.weightsType = .u4
  let cap : ℤ := if u4 ∧ r.augSlots = 1 then 15 else if u4 then 63 else 255
  let sa := ops.ofHalf (sc (gm.ag - r.k / 32))
  let mn : ℤ :=
    if ops.positive sa then ops.lround (ops.div (ops.mul gm.dmin (ops.ofInt gm.m6)) sa) else 0
  (Max.max 0 (Min.min cap mn)).toNat

/-- What a min is stored as: two nibbles, a byte, or a nibble of a byte. -/
def augEdit (sc : ℕ → ℕ) (gm : GroupMin F) : ℕ × (ℕ → ℕ) :=
  let mn := storedMin ops r sc gm
  let aug := gm.ag * r.groupBytes
  if r.weightsType ≠ .u4 then (aug + gm.slot, fun _ => mn % 256)
  else if r.augSlots = 2 then (aug + gm.slot, fun _ => (mn / 16 + mn % 16 * 16) % 256)
  else (aug + gm.slot / 2, fun byte =>
    if gm.slot % 2 = 1 then (byte % 16 + mn % 256 * 16) % 256 else byte / 16 * 16 + mn % 256)

def repackRowMins (type : ℕ) (pl : Placement) : RowWrites :=
  let u4 := type = 12
  let blk (b : ℕ) := b * if u4 then 144 else 176
  let dg (b s : ℕ) := pl.mainGroupOf (b * 8 + s)
  let scaleMin (b s : ℕ) := scaleMinK4 byte s (blk b + 4)
  let dmin (b : ℕ) := f16at ops byte (blk b + 2)
  let q (b s l : ℕ) := quantMins (fun i => byte (blk b + i)) type s l
  let main := (List.range (r.k / 256)).flatMap fun b => (List.range 8).flatMap fun s =>
    if u4 then
      (List.range 16).map fun i => (dg b s * 16 + i, q b s (2 * i) + q b s (2 * i + 1) * 16)
    else (List.range 32).map fun l => (dg b s * 32 + l, q b s l)
  let scale := (List.range (r.k / 256)).flatMap fun b => (List.range 8).map fun s =>
    (dg b s, ops.toHalf (ops.mul (f16at ops byte (blk b)) (ops.ofInt (scaleMin b s).1)))
  if r.mins = .split then
    { weights := stores main
      scale
      minMatrix := (List.range (r.k / 256)).flatMap fun b => (List.range 8).map fun s =>
        (dg b s, ops.toHalf (ops.mul (dmin b) (ops.ofInt (scaleMin b s).2))) }
  else
    let augFirst := r.k / 32
    let gmins := (List.range (r.k / 256)).flatMap fun b => (List.range 8).map fun s =>
      ⟨augFirst + pl.augGroupOf (b * 8 + s), pl.augSlotOf (b * 8 + s), dmin b, (scaleMin b s).2⟩
    -- the integers are read back under the rounded scales
    let sc (a : ℕ) := ops.toHalf (augScales ops r gmins a)
    { weights := stores main ++ gmins.map (augEdit ops r sc)
      scale := scale ++ (List.range (r.kAug / 32)).map fun a => (augFirst + a, sc a)
      minMatrix := [] }

end Mins

def repackRowQ6K (k : ℕ) : RowWrites where
  weights := stores ((List.range (k / 256)).flatMap fun b =>
    (List.range 2).flatMap fun hh =>
      let qlh := b * 210 + hh * 64
      let qhh := b * 210 + (128 + hh * 32)
      let base := b * 256 + hh * 128
      (List.range 32).flatMap fun l =>
        let q := q6K byte qlh qhh l
        [(base + l, q 0), (base + (32 + l), q 1), (base + (64 + l), q 2), (base + (96 + l), q 3)])
  scale := (List.range (k / 256)).flatMap fun b =>
    let d := f16at ops byte (b * 210 + 208)
    (List.range 2).flatMap fun hh =>
      let sch := b * 210 + (192 + hh * 8)
      let base := b * 256 + hh * 128
      (List.range 32).flatMap fun l =>
        let is := l / 16
        let scaled (i : ℕ) := ops.toHalf (ops.mul d (ops.ofInt (signed 1 (byte (sch + (is + i))))))
        let g := (base + l) / 16
        -- run 0 of this half, then the runs below it
        if l % 16 = 0 then [(g, scaled 0), (g + 2, scaled 2), (g + 4, scaled 4), (g + 6, scaled 6)]
        else []
  minMatrix := []

def repackRow (type : ℕ) (r : RepackedTensor) (pl : Placement) : RowWrites :=
  match type with
  | 8 => repackRowQ80 byte r.k
  | 12 => repackRowMins ops byte r 12 pl
  | 13 => repackRowMins ops byte r 13 pl
  | 14 => repackRowQ6K ops byte r.k
  | _ => ⟨[], [], []⟩

end Rows

/-- The tensor before its rows are filled. -/
def emptyTensor (t : TensorInfo) (mins : RepackMins) (reordered : Bool)
    (columnDestOf : List ℤ) : RepackedTensor :=
  let type := t.ggmlType
  let k := t.dims.getD 0 0
  let n := t.dims.getD 1 0
  let augmented := HasMins type ∧ mins ≠ .split
  { weightsType := if type = 8 then .i8 else if type = 12 then .u4 else .u8
    zpType := if type = 14 then .u8Scalar else .none
    n, k
    kAug := if augmented then kAug (groupsPerAug type mins reordered) k else 0
    group := if type = 14 then 16 else 32
    groupsPerAug := if augmented then groupsPerAug type mins reordered else 8
    mins := if HasMins type then mins else .exact
    augSlots := if augmented then augSlots type mins else 2
    weights := fun _ => 0
    scale := fun _ => 0
    zpU8 := if type = 14 then 32 else 0
    columnDestOf
    minMatrix :=
      if HasMins type ∧ mins = .split ∧ n * (k / 32) ≠ 0 then some fun _ => 0 else none }

/-- The byte of a row of the tensor whose data begins `data`. -/
def rowByte (data : ℕ → UInt8) (t : TensorInfo) (row i : ℕ) : ℕ :=
  let rowBytes := t.dims.getD 0 0 / repackBlockSize t.ggmlType * blockBytesOf t.ggmlType
  (data (row * rowBytes + i)).toNat

/-- The rows, by the thread that fills them. -/
def filledRows (request : RepackRequest) (n : ℕ) : List ℕ :=
  (List.range request.nThreads).flatMap fun thread => threadRows request.nThreads thread n

/-- The tensor with its rows filled. -/
def fillRows {F : Type} (ops : FloatOps F) (data : ℕ → UInt8) (t : TensorInfo)
    (r : RepackedTensor) (pl : Placement) (rows : List ℕ) : RepackedTensor :=
  let row (i : ℕ) := repackRow ops (rowByte data t i) t.ggmlType r pl
  { r with
    weights := edited r.weights (rowEdits r.rowWeights rows fun i => (row i).weights)
    scale := edited r.scale (rowEdits r.wgroups rows fun i => stores (row i).scale)
    minMatrix := r.minMatrix.map fun minMatrix =>
      edited minMatrix (rowEdits (r.k / 32) rows fun i => stores (row i).minMatrix) }

def repackTensor {F : Type} (ops : FloatOps F) (data : ℕ → UInt8) (t : TensorInfo)
    (request : RepackRequest) (mins : RepackMins) : Except RepackError RepackedTensor := do
  ensure (repackSupported t.ggmlType) (RepackError.unsupportedType t.ggmlType)
  ensure (t.dims.length = 2) RepackError.notTwoDimensional
  let k := t.dims.getD 0 0
  ensure (k % repackBlockSize t.ggmlType = 0) RepackError.partialBlocks
  ensure (∀ dest ∈ request.columnDestOf, dest.length = k) RepackError.columnSizeMismatch
  checkColumns t.ggmlType k request.columnDestOf
  let r := emptyTensor t mins request.columnDestOf.isSome (request.columnDestOf.getD [])
  let pl := placement r.groupsPerAug request.columnDestOf
  return fillRows ops data t r pl (filledRows request r.n)

end Arcint.Gguf.Packing
