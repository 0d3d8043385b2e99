import Mathlib.Tactic.IntervalCases
import Arcint.Foundation.Access
import Arcint.Foundation.Edits
import Arcint.Foundation.Wrap
import Arcint.Gguf.Reader

/-! # Gathering quantised rows

The rows that a forward looks up are dequantised one by one, by the scalar decoders or by vector
kernels that shift nibbles in 16-bit lanes and widen eight bytes at a time. Both fill the output
with the same products of the same integers.
-/

namespace Arcint.Ngram

open Foundation
open Arcint.Gguf (findType)

/-- What the decoders use of the floats. -/
structure FloatOps (F : Type) where
  mul : F → F → F
  add : F → F → F
  ofInt : Int → F
  /-- `f16_to_f32`. -/
  ofHalf : Nat → F
  mul_comm : ∀ a b, mul a b = mul b a

/-- The bytes a pointer into the table reaches. -/
abbrev Table := Nat → UInt8

def readU16 (table : Table) (p : Nat) : Nat := (table p).toNat + 256 * (table (p + 1)).toNat

/-- A byte read as `int8_t`. -/
def int8 (b : UInt8) : Int := signed 8 b.toNat

/-! ## The scalar decoders -/

section Scalar

variable {F : Type} (ops : FloatOps F) (table : Table)

/-- One block of `dequantize_row_q4_0`: the writes from `y` on. -/
def blockQ40 (block y : Nat) : List (Nat × F) :=
  let d := ops.ofHalf (readU16 table block)
  let qs := block + 2
  (List.range 16).flatMap fun l =>
    let x0 : Int := (table (qs + l) &&& 0x0F).toNat - 8
    let x1 : Int := (table (qs + l) >>> 4).toNat - 8
    [(y + l, ops.mul (ops.ofInt x0) d), (y + (l + 16), ops.mul (ops.ofInt x1) d)]

/-- One block of `dequantize_row_q4_1`. -/
def blockQ41 (block y : Nat) : List (Nat × F) :=
  let d := ops.ofHalf (readU16 table block)
  let m := ops.ofHalf (readU16 table (block + 2))
  let qs := block + 4
  (List.range 16).flatMap fun l =>
    let x0 : Int := (table (qs + l) &&& 0x0F).toNat
    let x1 : Int := (table (qs + l) >>> 4).toNat
    [(y + l, ops.add (ops.mul (ops.ofInt x0) d) m),
      (y + (l + 16), ops.add (ops.mul (ops.ofInt x1) d) m)]

/-- One block of `dequantize_row_q8_0`. -/
def blockQ80 (block y : Nat) : List (Nat × F) :=
  let d := ops.ofHalf (readU16 table block)
  let qs := block + 2
  (List.range 32).map fun l => (y + l, ops.mul d (ops.ofInt (int8 (table (qs + l)))))

/-- The formats with a vector kernel. -/
inductive PlainType where
  | q40 | q41 | q80
  deriving DecidableEq, Repr

/-- The numeric id of the type. -/
def PlainType.id : PlainType → Nat
  | .q40 => 2
  | .q41 => 3
  | .q80 => 8

def PlainType.ofId : Nat → Option PlainType
  | 2 => some .q40
  | 3 => some .q41
  | 8 => some .q80
  | _ => none

def PlainType.blockBytes : PlainType → Nat
  | .q40 => 18
  | .q41 => 20
  | .q80 => 34

def scalarBlock : PlainType → Nat → Nat → List (Nat × F)
  | .q40 => blockQ40 ops table
  | .q41 => blockQ41 ops table
  | .q80 => blockQ80 ops table

/-- `dequantize_row` of these formats. -/
def dequantizePlainRow (type : PlainType) (p nElements out : Nat) : List (Nat × F) :=
  (indicesBelow 32 nElements).flatMap fun b =>
    scalarBlock ops table type (p + b * type.blockBytes) (out + b * 32)

end Scalar

/-! ## Registers -/

/-- A 128-bit register by bytes. -/
abbrev M128 := Fin 16 → UInt8

/-- A 256-bit register by 32-bit integers. -/
abbrev M256i := Fin 8 → Int

/-- A 256-bit register by floats. -/
abbrev M256 (F : Type) := Fin 8 → F

namespace M128

def loadu (table : Table) (p : Nat) : M128 := fun i => table (p + i)

def set1Epi8 (b : UInt8) : M128 := fun _ => b

def and (v w : M128) : M128 := fun i => v i &&& w i

/-- The 16-bit lane that holds byte `i`. -/
def lane16 (v : M128) (i : Fin 16) : Nat :=
  (v ⟨i / 2 * 2, by omega⟩).toNat + 256 * (v ⟨i / 2 * 2 + 1, by omega⟩).toNat

/-- `_mm_srli_epi16`: every 16-bit lane is shifted on its own. -/
def srliEpi16 (v : M128) (n : Nat) : M128 := fun i =>
  if i.val % 2 = 0 then UInt8.ofNat (v.lane16 i >>> n) else UInt8.ofNat (v.lane16 i >>> n >>> 8)

/-- `_mm_srli_si128`: the whole register is shifted by bytes. -/
def srliSi128 (v : M128) (n : Nat) : M128 := fun i =>
  if h : i.val + n < 16 then v ⟨i + n, h⟩ else 0

/-- `_mm256_cvtepu8_epi32` of the low eight bytes. -/
def cvtepu8Epi32 (v : M128) : M256i := fun i => (v ⟨i, by omega⟩).toNat

/-- `_mm256_cvtepi8_epi32` of the low eight bytes. -/
def cvtepi8Epi32 (v : M128) : M256i := fun i => int8 (v ⟨i, by omega⟩)

end M128

def M256i.set1Epi32 (x : Int) : M256i := fun _ => x

def M256i.subEpi32 (a b : M256i) : M256i := fun i => signed 32 (a i - b i)

section Registers

variable {F : Type} (ops : FloatOps F)

def M256i.cvtepi32Ps (a : M256i) : M256 F := fun i => ops.ofInt (a i)

def M256.set1Ps (x : F) : M256 F := fun _ => x

def M256.mulPs (a b : M256 F) : M256 F := fun i => ops.mul (a i) (b i)

def M256.addPs (a b : M256 F) : M256 F := fun i => ops.add (a i) (b i)

/-- `_mm256_storeu_ps`. -/
def M256.storeuPs (dst : Nat) (a : M256 F) : List (Nat × F) :=
  (List.finRange 8).map fun (i : Fin 8) => (dst + i.val, a i)

/-! ## The vector kernels -/

def widenEpu8Sub8MulStore (nib8 : M128) (dvScalar : F) (dst : Nat) : List (Nat × F) :=
  let w32 := nib8.cvtepu8Epi32.subEpi32 (M256i.set1Epi32 8)
  let dv := M256.set1Ps dvScalar
  ((w32.cvtepi32Ps ops).mulPs ops dv).storeuPs dst

def widenEpu8MulAddStore (nib8 : M128) (dvScalar mvScalar : F) (dst : Nat) : List (Nat × F) :=
  let w32 := nib8.cvtepu8Epi32
  let dv := M256.set1Ps dvScalar
  let mv := M256.set1Ps mvScalar
  (((w32.cvtepi32Ps ops).mulPs ops dv).addPs ops mv).storeuPs dst

def widenEpi8MulStore (i8x8 : M128) (dvScalar : F) (dst : Nat) : List (Nat × F) :=
  let w32 := i8x8.cvtepi8Epi32
  let dv := M256.set1Ps dvScalar
  ((w32.cvtepi32Ps ops).mulPs ops dv).storeuPs dst

variable (table : Table)

def dequantBlockQ40Avx2 (block y : Nat) : List (Nat × F) :=
  let d := ops.ofHalf (readU16 table block)
  let qs := block + 2
  let v := M128.loadu table qs
  let mask0f := M128.set1Epi8 0x0F
  let loNib := v.and mask0f
  let hiNib := (v.srliEpi16 4).and mask0f
  widenEpu8Sub8MulStore ops loNib d (y + 0) ++
    widenEpu8Sub8MulStore ops (loNib.srliSi128 8) d (y + 8) ++
    widenEpu8Sub8MulStore ops hiNib d (y + 16) ++
    widenEpu8Sub8MulStore ops (hiNib.srliSi128 8) d (y + 24)

def dequantBlockQ41Avx2 (block y : Nat) : List (Nat × F) :=
  let d := ops.ofHalf (readU16 table block)
  let m := ops.ofHalf (readU16 table (block + 2))
  let qs := block + 4
  let v := M128.loadu table qs
  let mask0f := M128.set1Epi8 0x0F
  let loNib := v.and mask0f
  let hiNib := (v.srliEpi16 4).and mask0f
  widenEpu8MulAddStore ops loNib d m (y + 0) ++
    widenEpu8MulAddStore ops (loNib.srliSi128 8) d m (y + 8) ++
    widenEpu8MulAddStore ops hiNib d m (y + 16) ++
    widenEpu8MulAddStore ops (hiNib.srliSi128 8) d m (y + 24)

def dequantBlockQ80Avx2 (block y : Nat) : List (Nat × F) :=
  let d := ops.ofHalf (readU16 table block)
  let qs := block + 2
  let v0 := M128.loadu table qs
  let v1 := M128.loadu table (qs + 16)
  widenEpi8MulStore ops v0 d (y + 0) ++
    widenEpi8MulStore ops (v0.srliSi128 8) d (y + 8) ++
    widenEpi8MulStore ops v1 d (y + 16) ++
    widenEpi8MulStore ops (v1.srliSi128 8) d (y + 24)

def avx2Block : PlainType → Nat → Nat → List (Nat × F)
  | .q40 => dequantBlockQ40Avx2 ops table
  | .q41 => dequantBlockQ41Avx2 ops table
  | .q80 => dequantBlockQ80Avx2 ops table

end Registers

/-! ## Gathering -/

section Gathering

variable {F : Type} (ops : FloatOps F) (table : Table)

/-- `dequantize_row`; `decodeOther` is what it writes for the types that have no vector kernel. -/
def dequantizeRow (decodeOther : Nat → Nat → Nat → Nat → List (Nat × F))
    (type p nElements out : Nat) : List (Nat × F) :=
  match PlainType.ofId type with
  | some plain => dequantizePlainRow ops table plain p nElements out
  | none => decodeOther type p nElements out

/-- A row for each index, one after the other. -/
def gatherRows (rowStrideBytes nCols : Nat) (row : Nat → Nat → List (Nat × F))
    (indices : List Nat) : List (Nat × F) :=
  indices.zipIdx.flatMap fun index => row (index.1 * rowStrideBytes) (index.2 * nCols)

def gatherDequantScalar (decodeOther : Nat → Nat → Nat → Nat → List (Nat × F))
    (type rowStrideBytes nCols : Nat) (indices : List Nat) : List (Nat × F) :=
  gatherRows rowStrideBytes nCols
    (fun row out => dequantizeRow ops table decodeOther type row nCols out) indices

/-- The vector path of `gather_dequant`. -/
def gatherDequantAvx2 (plain : PlainType) (blockSize blockBytes rowStrideBytes nCols : Nat)
    (indices : List Nat) : List (Nat × F) :=
  gatherRows rowStrideBytes nCols (fun row y => (indicesBelow blockSize nCols).flatMap fun b =>
    avx2Block ops table plain (row + b * blockBytes) (y + b * blockSize)) indices

/-- `gather_dequant`: none where `type_info` throws. -/
def gatherDequant (decodeOther : Nat → Nat → Nat → Nat → List (Nat × F)) (cpuHasAvx2 : Bool)
    (type rowStrideBytes nCols : Nat) (indices : List Nat) (forceScalar : Bool) :
    Option (List (Nat × F)) :=
  (findType type).map fun info =>
    let scalar := gatherDequantScalar ops table decodeOther type rowStrideBytes nCols indices
    match PlainType.ofId type with
    | some plain =>
        if forceScalar = false ∧ cpuHasAvx2 = true ∧ info.blockSize ≠ 0 ∧
            nCols % info.blockSize = 0 then
          gatherDequantAvx2 ops table plain info.blockSize info.typeSize rowStrideBytes nCols
            indices
        else scalar
    | none => scalar

end Gathering

/-! ## Bytes in lanes -/

section Lanes

theorem toNat_lowNibble (b : UInt8) : (b &&& 0x0F).toNat = b.toNat % 16 := by
  rw [UInt8.toNat_and]
  exact Nat.and_two_pow_sub_one_eq_mod b.toNat 4

theorem toNat_highNibble (b : UInt8) : (b >>> 4).toNat = b.toNat / 16 := by
  rw [UInt8.toNat_shiftRight]
  exact Nat.shiftRight_eq_div_pow b.toNat 4

/-- Shifted in its 16-bit lane and masked, a byte is its high nibble: what comes in from the byte
above is masked away. -/
theorem highNibble (v : M128) (i : Fin 16) :
    (v.srliEpi16 4 i &&& 0x0F).toNat = (v i).toNat / 16 := by
  have hbyte (j : Fin 16) := (v j).toNat_lt
  rw [toNat_lowNibble]
  unfold M128.srliEpi16 M128.lane16
  have hlow := hbyte ⟨i / 2 * 2, by omega⟩
  have hhigh := hbyte ⟨i / 2 * 2 + 1, by omega⟩
  split
  next heven =>
    have hi : (⟨i / 2 * 2, by omega⟩ : Fin 16) = i := Fin.ext (by dsimp only; omega)
    rw [hi] at hlow ⊢
    rw [UInt8.toNat_ofNat', Nat.shiftRight_eq_div_pow]
    omega
  next hodd =>
    have hi : (⟨i / 2 * 2 + 1, by omega⟩ : Fin 16) = i := Fin.ext (by dsimp only; omega)
    rw [hi] at hhigh ⊢
    rw [UInt8.toNat_ofNat', Nat.shiftRight_eq_div_pow, Nat.shiftRight_eq_div_pow]
    omega

/-- A nibble less eight is an int32. -/
theorem signed_nibble {x : Nat} (hx : x < 16) : signed 32 ((x : Int) - 8) = (x : Int) - 8 := by
  interval_cases x <;> decide +kernel

end Lanes

/-! ## The kernels write what the decoders write -/

section Kernels

variable {F : Type} {ops : FloatOps F} {table : Table}

/-- The nibble of value `l` of a block whose nibbles begin at `qs`. -/
def nibble (table : Table) (qs l : Nat) : Nat :=
  if l < 16 then (table (qs + l)).toNat % 16 else (table (qs + (l - 16))).toNat / 16

theorem nibble_lt (qs l : Nat) : nibble table qs l < 16 := by
  unfold nibble
  split
  · exact Nat.mod_lt _ (by decide)
  · have hbyte := (table (qs + (l - 16))).toNat_lt
    omega

/-- The four quarters of the nibbles, as the kernels widen them. -/
theorem nibble_lanes (qs : Nat) (i : Fin 8) :
    let v := M128.loadu table qs
    let loNib := v.and (M128.set1Epi8 0x0F)
    let hiNib := (v.srliEpi16 4).and (M128.set1Epi8 0x0F)
    loNib.cvtepu8Epi32 i = nibble table qs i ∧
      (loNib.srliSi128 8).cvtepu8Epi32 i = nibble table qs (8 + i) ∧
      hiNib.cvtepu8Epi32 i = nibble table qs (16 + i) ∧
      (hiNib.srliSi128 8).cvtepu8Epi32 i = nibble table qs (24 + i) := by
  obtain ⟨i, hi⟩ := i
  refine ⟨?_, ?_, ?_, ?_⟩
  · simp only [M128.cvtepu8Epi32, M128.and, M128.set1Epi8, M128.loadu, toNat_lowNibble, nibble]
    rw [if_pos (by omega)]
  · simp only [M128.cvtepu8Epi32, M128.srliSi128, M128.and, M128.set1Epi8, M128.loadu, nibble]
    rw [dif_pos (by omega), if_pos (by omega), toNat_lowNibble, Nat.add_comm i]
  · simp only [M128.cvtepu8Epi32, M128.and, M128.set1Epi8, highNibble, M128.loadu, nibble]
    rw [if_neg (by omega), Nat.add_sub_cancel_left]
  · simp only [M128.cvtepu8Epi32, M128.srliSi128, M128.and, M128.set1Epi8, nibble]
    rw [dif_pos (by omega), if_neg (by omega), highNibble]
    simp only [M128.loadu]
    rw [show 24 + i - 16 = i + 8 by omega]

/-- A store fills eight places. -/
theorem storeuPs_fills {a : M256 F} {dst : Nat} {value : Nat → F} (h : ∀ i : Fin 8, a i = value i) :
    FillsRange (a.storeuPs dst) dst 8 value := by
  intro write
  unfold M256.storeuPs
  rw [List.mem_map]
  constructor
  · rintro ⟨i, -, rfl⟩
    exact ⟨i, i.isLt, by rw [h i]⟩
  · rintro ⟨l, hl, rfl⟩
    exact ⟨⟨l, hl⟩, List.mem_finRange _, by rw [h]⟩

/-- Four stores of eight, one after the other, fill a block. -/
theorem fillsRange_quarters {first second third fourth : List (Nat × F)} {y : Nat} {value : Nat → F}
    (h0 : FillsRange first (y + 0) 8 value)
    (h8 : FillsRange second (y + 8) 8 fun l => value (8 + l))
    (h16 : FillsRange third (y + 16) 8 fun l => value (16 + l))
    (h24 : FillsRange fourth (y + 24) 8 fun l => value (24 + l)) :
    FillsRange (first ++ second ++ third ++ fourth) y 32 value :=
  ((h0.append h8).append h16).append h24

/-- The nibble pairs of a scalar block fill it, low nibbles before high ones. -/
theorem nibblePairs_fill {qs y : Nat} {value : Nat → F} (expression : Int → F)
    (hvalue : ∀ l, value l = expression (nibble table qs l)) :
    FillsRange ((List.range 16).flatMap fun l =>
      [(y + l, expression (table (qs + l) &&& 0x0F).toNat),
        (y + (l + 16), expression (table (qs + l) >>> 4).toNat)]) y 32 value := by
  have hlow (l : Nat) (hl : l < 16) : value l = expression (table (qs + l) &&& 0x0F).toNat := by
    rw [hvalue, nibble, if_pos hl, toNat_lowNibble]
  have hhigh (l : Nat) : value (l + 16) = expression (table (qs + l) >>> 4).toNat := by
    rw [hvalue, nibble, if_neg (by omega), Nat.add_sub_cancel, toNat_highNibble]
  intro write
  simp only [List.mem_flatMap, List.mem_range, List.mem_cons, List.not_mem_nil, or_false]
  constructor
  · rintro ⟨l, hl, rfl | rfl⟩
    · exact ⟨l, by omega, by rw [hlow l hl]⟩
    · exact ⟨l + 16, by omega, by rw [hhigh]⟩
  · rintro ⟨l, hl, rfl⟩
    rcases Nat.lt_or_ge l 16 with hlt | hge
    · exact ⟨l, hlt, .inl (by rw [hlow l hlt])⟩
    · obtain ⟨k, rfl⟩ := Nat.exists_eq_add_of_le' hge
      exact ⟨k, by omega, .inr (by rw [hhigh])⟩

/-- What a block is dequantised to. -/
def blockValue (ops : FloatOps F) (table : Table) : PlainType → Nat → Nat → F
  | .q40, block, l =>
      ops.mul (ops.ofInt (nibble table (block + 2) l - 8)) (ops.ofHalf (readU16 table block))
  | .q41, block, l =>
      ops.add (ops.mul (ops.ofInt (nibble table (block + 4) l)) (ops.ofHalf (readU16 table block)))
        (ops.ofHalf (readU16 table (block + 2)))
  | .q80, block, l =>
      ops.mul (ops.ofHalf (readU16 table block)) (ops.ofInt (int8 (table (block + 2 + l))))

theorem scalarBlock_fills (type : PlainType) (block y : Nat) :
    FillsRange (scalarBlock ops table type block y) y 32 (blockValue ops table type block) := by
  cases type with
  | q40 =>
      exact nibblePairs_fill (fun x => ops.mul (ops.ofInt (x - 8))
        (ops.ofHalf (readU16 table block))) fun _ => rfl
  | q41 =>
      exact nibblePairs_fill (fun x => ops.add (ops.mul (ops.ofInt x)
        (ops.ofHalf (readU16 table block))) (ops.ofHalf (readU16 table (block + 2)))) fun _ => rfl
  | q80 =>
      intro write
      simp only [scalarBlock, blockQ80, List.mem_map, List.mem_range, blockValue]
      exact exists_congr fun l => and_congr_right fun _ => eq_comm

theorem avx2Block_fills (type : PlainType) (block y : Nat) :
    FillsRange (avx2Block ops table type block y) y 32 (blockValue ops table type block) := by
  cases type with
  | q40 =>
      have hlane (nib8 : M128) (i : Fin 8) (l : Nat)
          (h : nib8.cvtepu8Epi32 i = nibble table (block + 2) l) :
          ops.mul (ops.ofInt (signed 32 (nib8.cvtepu8Epi32 i - 8)))
              (ops.ofHalf (readU16 table block)) = blockValue ops table .q40 block l := by
        rw [h, signed_nibble (nibble_lt _ _)]
        rfl
      exact fillsRange_quarters
        (storeuPs_fills fun i => hlane _ i _ (nibble_lanes _ i).1)
        (storeuPs_fills fun i => hlane _ i _ (nibble_lanes _ i).2.1)
        (storeuPs_fills fun i => hlane _ i _ (nibble_lanes _ i).2.2.1)
        (storeuPs_fills fun i => hlane _ i _ (nibble_lanes _ i).2.2.2)
  | q41 =>
      have hlane (nib8 : M128) (i : Fin 8) (l : Nat)
          (h : nib8.cvtepu8Epi32 i = nibble table (block + 4) l) :
          ops.add (ops.mul (ops.ofInt (nib8.cvtepu8Epi32 i)) (ops.ofHalf (readU16 table block)))
              (ops.ofHalf (readU16 table (block + 2))) = blockValue ops table .q41 block l := by
        rw [h]
        rfl
      exact fillsRange_quarters
        (storeuPs_fills fun i => hlane _ i _ (nibble_lanes _ i).1)
        (storeuPs_fills fun i => hlane _ i _ (nibble_lanes _ i).2.1)
        (storeuPs_fills fun i => hlane _ i _ (nibble_lanes _ i).2.2.1)
        (storeuPs_fills fun i => hlane _ i _ (nibble_lanes _ i).2.2.2)
  | q80 =>
      -- the kernel multiplies the other way round
      have hlane (i8x8 : M128) (i : Fin 8) (l : Nat)
          (h : i8x8.cvtepi8Epi32 i = int8 (table (block + 2 + l))) :
          ops.mul (ops.ofInt (i8x8.cvtepi8Epi32 i)) (ops.ofHalf (readU16 table block)) =
            blockValue ops table .q80 block l := by
        rw [h, ops.mul_comm]
        rfl
      have hshift (p : Nat) (i : Fin 8) : ((M128.loadu table p).srliSi128 8).cvtepi8Epi32 i =
          int8 (table (p + (8 + i))) := by
        simp only [M128.cvtepi8Epi32, M128.srliSi128, M128.loadu]
        rw [dif_pos (by omega), Nat.add_comm i.val]
      exact fillsRange_quarters
        (storeuPs_fills fun i => hlane _ i _ rfl)
        (storeuPs_fills fun i => hlane _ i _ (hshift _ i))
        (storeuPs_fills fun i => hlane _ i _ (by rw [← Nat.add_assoc]; rfl))
        (storeuPs_fills fun i => hlane _ i _ ((hshift _ i).trans (by
          rw [Nat.add_assoc (block + 2), ← Nat.add_assoc 16])))

end Kernels

theorem ofId_id (type : PlainType) : PlainType.ofId type.id = some type := by
  cases type <;> rfl

theorem findType_id (type : PlainType) :
    findType type.id = some ⟨type.id, 32, type.blockBytes⟩ := by
  cases type <;> rfl

/-! ## Rows -/

section Rows

variable {F : Type} (ops : FloatOps F) (table : Table) (type : PlainType)

/-- What place `l` of a row is dequantised to. -/
def rowValue (row l : Nat) : F :=
  blockValue ops table type (row + l / 32 * type.blockBytes) (l % 32)

/-- What place `j` of the gathered rows is dequantised to. -/
def gatherValue (rowStrideBytes nCols : Nat) (indices : List Nat) (j : Nat) : F :=
  rowValue ops table type (indices.getD (j / nCols) 0 * rowStrideBytes) (j % nCols)

variable {ops table type}

/-- Whole blocks fill a row, one after the other. -/
theorem blocks_fill {block : Nat → Nat → List (Nat × F)}
    (h : ∀ p y, FillsRange (block p y) y 32 (blockValue ops table type p))
    {nCols : Nat} (hcols : nCols % 32 = 0) (row out : Nat) :
    FillsRange ((indicesBelow 32 nCols).flatMap fun b =>
      block (row + b * type.blockBytes) (out + b * 32)) out nCols
      (rowValue ops table type row) := by
  obtain ⟨count, rfl⟩ := Nat.dvd_of_mod_eq_zero hcols
  rw [indicesBelow_eq_range (by decide),
    show (32 * count + 32 - 1) / 32 = count by omega, Nat.mul_comm]
  refine fillsRange_blocks fun b _ => ?_
  refine (h _ _).congr fun l hl => ?_
  rw [rowValue, block_div hl, block_mod hl]

theorem gatherRows_eq (rowStrideBytes nCols : Nat) (row : Nat → Nat → List (Nat × F))
    (indices : List Nat) : gatherRows rowStrideBytes nCols row indices =
      (List.range indices.length).flatMap fun i =>
        row (indices.getD i 0 * rowStrideBytes) (i * nCols) := by
  have hindices : indices.zipIdx =
      (List.range indices.length).map fun i => (indices.getD i 0, i) := by
    refine List.ext_getElem (by simp) fun i hi _ => ?_
    rw [List.length_zipIdx] at hi
    simp [hi]
  rw [gatherRows, hindices, List.flatMap_map]

theorem gatherRows_fill {row : Nat → Nat → List (Nat × F)} {rowStrideBytes nCols : Nat}
    (h : ∀ p y, FillsRange (row p y) y nCols (rowValue ops table type p)) (indices : List Nat) :
    FillsRange (gatherRows rowStrideBytes nCols row indices) 0 (indices.length * nCols)
      (gatherValue ops table type rowStrideBytes nCols indices) := by
  rw [gatherRows_eq]
  refine fillsRange_blocks fun i _ => ?_
  rw [Nat.zero_add]
  refine (h _ _).congr fun l hl => ?_
  rw [gatherValue, block_div hl, block_mod hl]

variable (ops table type)

theorem gatherDequantAvx2_fills (rowStrideBytes : Nat) {nCols : Nat} (hcols : nCols % 32 = 0)
    (indices : List Nat) :
    FillsRange (gatherDequantAvx2 ops table type 32 type.blockBytes rowStrideBytes nCols indices) 0
      (indices.length * nCols) (gatherValue ops table type rowStrideBytes nCols indices) :=
  gatherRows_fill (blocks_fill (avx2Block_fills type) hcols) indices

theorem gatherDequantScalar_fills (decodeOther : Nat → Nat → Nat → Nat → List (Nat × F))
    (rowStrideBytes : Nat) {nCols : Nat} (hcols : nCols % 32 = 0) (indices : List Nat) :
    FillsRange (gatherDequantScalar ops table decodeOther type.id rowStrideBytes nCols indices) 0
      (indices.length * nCols) (gatherValue ops table type rowStrideBytes nCols indices) := by
  unfold gatherDequantScalar dequantizeRow
  rw [ofId_id]
  exact gatherRows_fill (blocks_fill (scalarBlock_fills type) hcols) indices

end Rows

/-- On a machine with AVX2 the rows of whole blocks are gathered by the vector kernels, and every
place of the output is written by them with the expression that the scalar path writes there. -/
theorem gatherDequant_eq_scalar {F : Type} (ops : FloatOps F) (table : Table)
    (decodeOther : Nat → Nat → Nat → Nat → List (Nat × F)) (type : PlainType)
    (rowStrideBytes nCols : Nat) (hcols : nCols % 32 = 0) (indices : List Nat) (out : Nat → F) :
    ∃ writes, gatherDequant ops table decodeOther true type.id rowStrideBytes nCols indices false =
        some writes ∧
      writes = gatherDequantAvx2 ops table type 32 type.blockBytes rowStrideBytes nCols indices ∧
      FillsRange writes 0 (indices.length * nCols)
        (gatherValue ops table type rowStrideBytes nCols indices) ∧
      FillsRange (gatherDequantScalar ops table decodeOther type.id rowStrideBytes nCols indices) 0
        (indices.length * nCols) (gatherValue ops table type rowStrideBytes nCols indices) ∧
      scatter out writes = scatter out
        (gatherDequantScalar ops table decodeOther type.id rowStrideBytes nCols indices) := by
  have havx2 := gatherDequantAvx2_fills ops table type rowStrideBytes hcols indices
  have hscalar := gatherDequantScalar_fills ops table type decodeOther rowStrideBytes hcols indices
  refine ⟨_, ?_, rfl, havx2, hscalar, ?_⟩
  · unfold gatherDequant
    rw [findType_id, ofId_id]
    simp [hcols]
  · rw [scatter_fillsRange havx2, scatter_fillsRange hscalar]

/-- Integers in the place of the floats. -/
def intOps : FloatOps Int := ⟨(· * ·), (· + ·), id, Int.ofNat, Int.mul_comm⟩

/-- Two rows of two blocks; the second block of the second row begins at byte 60. -/
theorem gatherDequant_eq_scalar_twoBlocks :
    ∃ writes, gatherDequant intOps UInt8.ofNat (fun _ _ _ _ => []) true 3 40 64 [5, 1] false =
        some writes ∧
      FillsRange writes 0 128 (gatherValue intOps UInt8.ofNat .q41 40 64 [5, 1]) ∧
      FillsRange (gatherDequantScalar intOps UInt8.ofNat (fun _ _ _ _ => []) 3 40 64 [5, 1]) 0 128
        (gatherValue intOps UInt8.ofNat .q41 40 64 [5, 1]) ∧
      (97, 1 * (60 + 256 * 61) + (62 + 256 * 63)) ∈ writes ∧
      scatter (fun _ => 0) writes = scatter (fun _ => 0)
        (gatherDequantScalar intOps UInt8.ofNat (fun _ _ _ _ => []) 3 40 64 [5, 1]) := by
  obtain ⟨writes, hwrites, -, hfills, hscalar, hout⟩ := gatherDequant_eq_scalar intOps UInt8.ofNat
    (fun _ _ _ _ => []) .q41 40 64 (by decide) [5, 1] (fun _ => 0)
  exact ⟨writes, hwrites, hfills, hscalar, (hfills _).mpr ⟨97, by decide, rfl⟩, hout⟩

end Arcint.Ngram
