import Arcint.Fill.Filler
import Arcint.Foundation.Tensor
import Arcint.Native.Dispatch
import Arcint.Native.Tables
import Mathlib.Algebra.Order.Floor.Ring
import Mathlib.Data.Rat.Floor

/-! # The native experts in the exported graph

The graph holds an expert's blocks as constants, the bytes as they are and the scales as halves, and
decodes them with ops of its own. The card's runtime drops the ops and copies the constants to the
slots of its kernels.
-/

namespace Arcint.Native

open Foundation Kernel
open Fill (packU4)

/-- The arrays of a role, a row for each output of each expert. -/
inductive NativeParts where
  | iq4Nl (codes : ℕ → ℕ → ℕ) (scales : ℕ → ℕ → ℚ)
  | iq3Xxs (gridix signix : ℕ → ℕ → UInt8) (scales : ℕ → ℕ → ℚ)
  | iq2S (gridix : ℕ → ℕ → UInt16) (signix : ℕ → ℕ → UInt8) (scales8 : ℕ → ℕ → ℚ)
  | q80 (codes : ℕ → ℕ → Int8) (scales : ℕ → ℕ → ℚ)
  | iq2SPacked (w80 : ℕ → ℕ → UInt8) (d : ℕ → ℕ → ℚ)

def NativeParts.format : NativeParts → WeightFormat
  | iq4Nl .. => .iq4Nl
  | iq3Xxs .. => .iq3Xxs
  | iq2S .. => .iq2S
  | q80 .. => .q80
  | iq2SPacked .. => .iq2SPacked

/-- The values of a block. -/
def blockValues : WeightFormat → ℕ
  | .iq2SPacked => 256
  | _ => 32

/-! ## The constants -/

/-- A matrix of so many columns, row after row. -/
def inRows {α : Type} (cols : ℕ) (a : ℕ → ℕ → α) (i : ℕ) : α := a (i / cols) (i % cols)

/-- Two bytes for each value, the low one first. -/
def littleEndian (a : ℕ → UInt16) (i : ℕ) : UInt8 :=
  (a (i / 2) >>> UInt16.ofNat (i % 2 * 8)).toUInt8

section Constants

variable {H : Type} (half : ℚ → H)

/-- The buffers of the constants of all experts. -/
def nativeConstants (e out inn : ℕ) : NativeParts → Except String (Projection H)
  | .iq4Nl codes scales => do
    let bytes ← packU4 ((List.range (e * out * inn)).map (inRows inn codes))
    return { weight := fun i => bytes.getD i 0, zp := fun _ => 0,
             scale := fun i => half (inRows (inn / 32) scales i) }
  | .iq3Xxs gridix signix scales =>
    return { weight := inRows (inn / 4) gridix, zp := inRows (inn / 8) signix,
             scale := fun i => half (inRows (inn / 32) scales i) }
  | .iq2S gridix signix scales8 =>
    -- of four scales the first and the third, which the others repeat
    return { weight := littleEndian (inRows (inn / 8) gridix), zp := inRows (inn / 8) signix,
             scale := fun i => half (inRows (inn / 8) scales8 (i / 2 * 4 + i % 2 * 2)) }
  | .q80 codes scales =>
    return { weight := fun i => (inRows inn codes i).toUInt8, zp := fun _ => 0,
             scale := fun i => half (inRows (inn / 32) scales i) }
  | .iq2SPacked w80 d =>
    return { weight := inRows (inn / 256 * 80) w80, zp := fun _ => 0,
             scale := fun i => half (inRows (inn / 256) d i) }

end Constants

/-! ## The ops -/

section Graph

variable {H : Type} (value : H → ℚ) (e out inn : ℕ)

/-- A constant of four bits a value, the low ones first. -/
def u4Constant (shape : List ℕ) (bytes : ℕ → UInt8) : Tensor ℕ :=
  Tensor.constant shape fun i => (bytes (i / 2) >>> UInt8.ofNat (i % 2 * 4) &&& 0xF).toNat

def u8Constant (shape : List ℕ) (bytes : ℕ → UInt8) : Tensor ℕ :=
  Tensor.constant shape fun i => (bytes i).toNat

/-- A grid of a word of `n` bytes a row. -/
def gridConstant (rows n : ℕ) (words : List ℕ) : Tensor ℚ :=
  Tensor.constant [rows, n] fun i => (words.getD (i / n) 0 / 256 ^ (i % n) % 256 : ℕ)

/-- The sign of each bit of the masks. -/
def signSelect (masks : Tensor ℕ) : Tensor ℚ :=
  let bits := Tensor.zipWith Nat.land masks.unsqueezeLast
    (Tensor.constant [8] fun m => kmaskIq2xs.getD m 0)
  let neg := Tensor.zipWith (fun bit least => decide (least < bit)) bits (Tensor.scalar 0)
  neg.map fun neg => if neg then -1 else 1

def mul (a b : Tensor ℚ) : Tensor ℚ := Tensor.zipWith (· * ·) a b

/-- The scale of every 32, and the rows. -/
def blockScaled (c : Projection H) (x : Tensor ℚ) : Tensor ℚ :=
  let sc := Tensor.constant [e, out, inn / 32, 1] fun i => value (c.scale i)
  (mul x sc).reshape [e, out, inn]

def iq4NlChain (c : Projection H) : Tensor ℚ :=
  let w := u4Constant [e, out, inn / 32, 32] c.weight
  let table := Tensor.constant [16] fun i => (kvaluesIq4nl.getD i 0 : ℚ)
  blockScaled value e out inn c (table.gather w)

def iq3XxsChain (c : Projection H) : Tensor ℚ :=
  let groups := inn / 32
  let g4 := [e, out, groups, 32]
  let gi := u8Constant [e, out, groups, 8] c.weight
  let mag := ((gridConstant 256 4 iq3xxsGridU32).gather gi).reshape g4
  let si := u8Constant [e, out, groups, 4] c.zp
  let ks := Tensor.constant [128] fun i => ksignsIq2xs.getD i 0
  let sign := (signSelect (ks.gather si)).reshape g4
  blockScaled value e out inn c (mul mag sign)

def iq2SChain (c : Projection H) : Tensor ℚ :=
  let groups := inn / 32
  let g4 := [e, out, groups, 32]
  let w5 := (u8Constant [e, out, groups, 8] c.weight).reshape [e, out, groups, 4, 2]
  let lo := w5.gatherLast 0
  let hi := w5.gatherLast 1
  let idx := Tensor.zipWith (· + ·) lo (Tensor.zipWith (· * ·) hi (Tensor.scalar 256))
  let mag := ((gridConstant 1024 8 iq2sGridU64).gather idx).reshape g4
  let si := u8Constant [e, out, groups, 4] c.zp
  let sign := (signSelect si).reshape g4
  let sc2 := Tensor.constant [e, out, groups, 2] fun i => value (c.scale i)
  let sc5 := sc2.reshape [e, out, groups, 2, 1]
  let sc32 := (sc5.broadcastTo [e, out, groups, 2, 16]).reshape g4
  (mul (mul mag sign) sc32).reshape [e, out, inn]

def q80Chain (c : Projection H) : Tensor ℚ :=
  let w := Tensor.constant [e, out, inn / 32, 32] fun i => ((c.weight i).toInt8.toInt : ℚ)
  blockScaled value e out inn c w

/-- Shifting right and masking, in floats: the quotient's floor, and its rest by the width. -/
def floorRest (x divisors : Tensor ℚ) (width : ℚ) : Tensor ℚ :=
  let floor (t : Tensor ℚ) : Tensor ℚ := t.map fun q => (⌊q⌋ : ℚ)
  let quotient := floor (Tensor.zipWith (· / ·) x divisors)
  Tensor.zipWith (· - ·) quotient
    (mul (floor (Tensor.zipWith (· / ·) quotient (Tensor.scalar width))) (Tensor.scalar width))

def f32 (t : Tensor ℕ) : Tensor ℚ := t.map fun a : ℕ => (a : ℚ)

/-- The grid indices of the packed blocks `w`. -/
def packedIndex (nblk : ℕ) (w : Tensor ℕ) : Tensor ℚ :=
  let qs := f32 ((w.slice 3 0 32).reshape [e, out, nblk, 8, 4])
  let qh := f32 ((w.slice 3 64 72).reshape [e, out, nblk, 8])
  let high := floorRest qh.unsqueezeLast (Tensor.constant [4] fun l => [1, 4, 16, 64].getD l 0) 4
  Tensor.zipWith (· + ·) qs (mul high (Tensor.scalar 256))

/-- The nibbles of the packed blocks `w`, one for each value. -/
def packedScale32 (nblk : ℕ) (w : Tensor ℕ) : Tensor ℚ :=
  let scb := f32 ((w.slice 3 72 80).reshape [e, out, nblk, 8])
  let nib := floorRest scb.unsqueezeLast (Tensor.constant [4] fun l => [1, 1, 16, 16].getD l 0) 16
  ((nib.reshape [e, out, nblk, 8, 4, 1]).broadcastTo [e, out, nblk, 8, 4, 8]).reshape
    [e, out, nblk, 256]

/-- `_native_packed_expert` -/
def iq2SPackedChain (c : Projection H) : Tensor ℚ :=
  let nblk := inn / 256
  let w := u8Constant [e, out, nblk, 80] c.weight
  let sg := (w.slice 3 32 64).reshape [e, out, nblk * 8, 4]
  let idx := (packedIndex e out nblk w).map fun q => ⌊q⌋₊
  let mag := ((gridConstant 1024 8 iq2sGridU64).gather idx).reshape [e, out, nblk, 256]
  let sign := (signSelect sg).reshape [e, out, nblk, 256]
  let sc32 := packedScale32 e out nblk w
  let dd := Tensor.constant [e, out, nblk, 1] fun i => value (c.scale i)
  let scale := mul (mul dd (Tensor.zipWith (· + ·) (Tensor.scalar (1 / 2)) sc32))
    (Tensor.scalar (1 / 4))
  (mul (mul mag sign) scale).reshape [e, out, inn]

def nativeChain (c : Projection H) : WeightFormat → Tensor ℚ
  | .iq4Nl => iq4NlChain value e out inn c
  | .iq3Xxs => iq3XxsChain value e out inn c
  | .iq2S => iq2SChain value e out inn c
  | .q80 => q80Chain value e out inn c
  | .iq2SPacked => iq2SPackedChain value e out inn c

/-- `_native_expert` -/
def nativeExpert (half : ℚ → H) (parts : NativeParts) : Except String (Tensor ℚ) := do
  let c ← nativeConstants half e out inn parts
  return nativeChain value e out inn c parts.format

end Graph

/-! ## The slots -/

/-- What an expert's slot is filled with. The scales of every 32 values are transposed. -/
def expertSlot {H : Type} (format : WeightFormat) (out inn expert : ℕ) (c : Projection H) :
    Projection H where
  weight i := c.weight (expert * format.weightStride out inn + i)
  zp i := c.zp (expert * format.zpStride out inn + i)
  scale i :=
    let first := expert * format.scaleStride out inn 32
    match format with
    | .iq2S | .iq2SPacked => c.scale (first + i)
    | _ => c.scale (first + (i % out * (inn / 32) + i / out))

/-- The tables of the card, taken from those of the tools. -/
def blockTables : KernelTables where
  iq4nlTable code := kvaluesIq4nl.getD code 0
  iq2xsMask m := kmaskIq2xs.getD m 0
  iq2xsSigns i := ksignsIq2xs.getD i 0
  iq3xxsGrid i := iq3xxsGridU32.getD (i / 4) 0 / 256 ^ (i % 4) % 256
  iq2sGrid i := iq2sGridU64.getD (i / 8) 0 / 256 ^ (i % 8) % 256

end Arcint.Native
