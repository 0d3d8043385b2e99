import Arcint.Gguf.Verdicts
import Mathlib.Data.Int.Log
import Mathlib.Data.Rat.Floor

/-! # The deviation of a repacked tensor

In exact arithmetic the repacked form has the file's integers under the file's scales, and errs
where the min of a group is no multiple of the scale it is stored under. In the file's own
order the exact packing errs nowhere. A column order may put groups of several super-blocks
under one scale, and a verdict on the file's order is found by a load that asks for the other.
-/

namespace Arcint.Gguf.Verdicts

open Foundation Text

/-! ## Blocks -/

/-- `f16_to_f32`, of a finite half. -/
def f16ToRat (bits : ℕ) : ℚ :=
  let sign : ℤ := if bits / 2 ^ 15 % 2 = 1 then -1 else 1
  let exponent : ℕ := bits / 2 ^ 10 % 2 ^ 5
  let mantissa : ℕ := bits % 2 ^ 10
  if exponent = 0 then mkRat (sign * mantissa) (2 ^ 24)
  else mkRat (sign * ((2 ^ 10 + mantissa) * 2 ^ exponent : ℕ)) (2 ^ 25)

section Bytes

variable (byte : ℕ → ℕ)

def f16at (p : ℕ) : ℚ := f16ToRat (byte p + byte (p + 1) * 256)

/-- The scale and the min of a group, six bits each. -/
def scaleMinK4 (j q : ℕ) : ℕ × ℕ :=
  if j < 4 then (byte (q + j) % 64, byte (q + (j + 4)) % 64)
  else
    (byte (q + (j + 4)) % 16 + byte (q + (j - 4)) / 64 * 16,
      byte (q + (j + 4)) / 16 + byte (q + j) / 64 * 16)

/-- A nibble, and in a block with high bits the bit of the group. -/
def quantMins (type s l : ℕ) : ℕ :=
  let qs := if type = 12 then 16 else 48
  let v := byte (qs + (s / 2 * 32 + l)) / 16 ^ (s % 2) % 16
  if type = 12 then v else v + if byte (16 + l) / 2 ^ s % 2 = 1 then 16 else 0

/-- Four runs of 32 columns share the bytes of a half block. -/
def quantQ6K (c : ℕ) : ℕ :=
  let hh := c / 128
  let run := c % 128 / 32
  let l := c % 32
  byte (64 * hh + (l + 32 * (run % 2))) / 16 ^ (run / 2) % 16 +
    byte (128 + (32 * hh + l)) / 4 ^ run % 4 * 16

end Bytes

/-- The numbers in the blocks of a tensor's rows: the scale of a group of columns, the integer
of a column, and with mins the float of a super-block and the integer of a group. -/
structure Blocks where
  scale : ℕ → ℕ → ℚ
  q : ℕ → ℕ → ℤ
  dmin : ℕ → ℕ → ℚ
  m6 : ℕ → ℕ → ℕ

/-- The columns of a scale. -/
def scaleGroup (type : ℕ) : ℕ := if type = 14 then 16 else 32

/-- The byte of a block of a row. -/
def OpenFile.byteAt (f : OpenFile) (t : TensorInfo) (row b i : ℕ) : ℕ :=
  let rowBytes := t.dims.getD 0 0 / repackBlockSize t.ggmlType * blockBytesOf t.ggmlType
  (f.mapping.bytes.getD
    (f.file.data t + (row * rowBytes + (b * blockBytesOf t.ggmlType + i))) 0).toNat

def OpenFile.blocks (f : OpenFile) (t : TensorInfo) : Blocks :=
  let byte := f.byteAt t
  match t.ggmlType with
  | 8 =>
      { scale := fun row g => f16at (byte row g) 0
        q := fun row c => signed 1 (byte row (c / 32) (2 + c % 32))
        dmin := fun _ _ => 0
        m6 := fun _ _ => 0 }
  | 14 =>
      { scale := fun row g =>
          f16at (byte row (g / 16)) 208 * signed 1 (byte row (g / 16) (192 + g % 16))
        q := fun row c => quantQ6K (byte row (c / 256)) (c % 256) - 32
        dmin := fun _ _ => 0
        m6 := fun _ _ => 0 }
  | type =>
      { scale := fun row g =>
          f16at (byte row (g / 8)) 0 * (scaleMinK4 (byte row (g / 8)) (g % 8) 4).1
        q := fun row c => quantMins (byte row (c / 256)) type (c % 256 / 32) (c % 32)
        dmin := fun row b => f16at (byte row b) 2
        m6 := fun row g => (scaleMinK4 (byte row (g / 8)) (g % 8) 4).2 }

/-! ## The repack -/

section Packing

variable (blocks : Blocks) (type : ℕ) (mins : RepackMins) (pl : Placement) (k : ℕ)

namespace Blocks

def main (row c : ℕ) : ℚ := blocks.scale row (c / scaleGroup type) * blocks.q row c

def min (row g : ℕ) : ℚ := blocks.dmin row (g / 8) * blocks.m6 row g

/-- What the file says of a column. -/
def value (row c : ℕ) : ℚ :=
  if HasMins type then blocks.main type row c - blocks.min row (c / 32)
  else blocks.main type row c

/-- The largest over the groups of an augmented group. -/
def augScale (row ag : ℕ) : ℚ :=
  (((List.range (k / 32)).filter fun g => pl.augGroupOf g = ag).map fun g =>
    if mins = .nibble ∧ type = 12 then blocks.min row g / 15
    else blocks.dmin row (g / 8)).foldl max 0

end Blocks

def lround (x : ℚ) : ℤ := if 0 ≤ x then ⌊x + 1 / 2⌋ else -⌊-x + 1 / 2⌋

def storedCap : ℕ := if type = 12 then if augSlots type mins = 1 then 15 else 63 else 255

/-- The min of a group, in steps of the scale it is stored under. -/
def Blocks.stored (row g : ℕ) : ℕ :=
  let sa := blocks.augScale type mins pl k row (pl.augGroupOf g)
  let mn := if 0 < sa then lround (blocks.min row g / sa) else 0
  (max 0 (Min.min (storedCap type mins : ℤ) mn)).toNat

def Blocks.reading : Reading ℚ where
  main := blocks.main type
  min := blocks.min
  stored := blocks.stored type mins pl k
  augScale := blocks.augScale type mins pl k

end Packing

structure Repacked where
  tensor : RepackedTensor ℚ
  scale : ℕ → ℕ → ℚ
  columnDestOf : List ℤ

/-- `min_of_group`. -/
def minOfGroup (r : RepackedTensor ℚ) (row g : ℕ) : ℚ :=
  match r.minMatrix with
  | some mins => mins row g
  | none =>
      if r.kAug = 0 then 0
      else
        let aug := r.k + g / r.groupsPerAug * 32
        let slot := g % r.groupsPerAug
        if r.augSlots = 2 then
          r.weights row (aug + 2 * slot) * 16 + r.weights row (aug + (2 * slot + 1))
        else r.weights row (aug + slot)

/-- Where a repack puts the groups of a tensor. -/
abbrev placementFor (t : TensorInfo) (mins : RepackMins) (dest : Option (List ℤ)) : Placement :=
  placement (groupsPerAug t.ggmlType mins dest.isSome) dest

/-- Where the file's column sits. -/
def placeOf (columnDestOf : List ℤ) (c : ℕ) : ℕ :=
  if columnDestOf = [] then c else (columnDestOf.getD c 0).toNat

namespace OpenFile

variable (f : OpenFile)

/-- `repack_tensor`, without rounding. -/
def repack (t : TensorInfo) (dest : Option (List ℤ)) (mins : RepackMins) :
    Except RepackError Repacked := do
  let k := t.dims.getD 0 0
  let pl := placementFor t mins dest
  let tensor ← repackValues t mins dest ((f.blocks t).reading t.ggmlType mins pl k)
  let scale row :=
    if HasMins t.ggmlType then
      scatter (fun _ => 0) ((List.range (k / 32)).map fun g =>
        (pl.mainGroupOf g, (f.blocks t).scale row g))
    else (f.blocks t).scale row
  return { tensor, scale, columnDestOf := dest.getD [] }

/-- How far a column is off, in steps. -/
def step (t : TensorInfo) (r : Repacked) (row c : ℕ) : ℚ :=
  let dc := placeOf r.columnDestOf c
  let got := r.tensor.weights row dc - minOfGroup r.tensor row (dc / 32)
  let step := |r.scale row (dc / scaleGroup t.ggmlType)|
  |got - (f.blocks t).value t.ggmlType row c| / if 0 < step then step else 1

/-- The repack of a file in exact arithmetic. -/
def exactRepacker : Repacker ℚ Repacked where
  repack := f.repack
  steps t r := (List.range r.tensor.n).map fun row => (List.range r.tensor.k).map (f.step t r row)

end OpenFile

/-! ## Where the packing errs -/

section Errs

variable {f : OpenFile} {t : TensorInfo} {dest : Option (List ℤ)} {mins : RepackMins}
  {r : Repacked}

/-- What a group is off by, in its steps. -/
def Blocks.groupStep (blocks : Blocks) (type : ℕ) (mins : RepackMins) (pl : Placement)
    (k row g : ℕ) : ℚ :=
  let step := |blocks.scale row g|
  |blocks.min row g - blocks.augScale type mins pl k row (pl.augGroupOf g) *
    blocks.stored type mins pl k row g| / if 0 < step then step else 1

theorem repack_ok (h : f.repack t dest mins = .ok r) :
    ∃ tensor, repackValues t mins dest ((f.blocks t).reading t.ggmlType mins
        (placementFor t mins dest) (t.dims.getD 0 0)) = .ok tensor ∧
      r = ⟨tensor, fun row =>
        if HasMins t.ggmlType then
          scatter (fun _ => 0) ((List.range (t.dims.getD 0 0 / 32)).map fun g =>
            ((placementFor t mins dest).mainGroupOf g, (f.blocks t).scale row g))
        else (f.blocks t).scale row, dest.getD []⟩ := by
  obtain ⟨tensor, htensor, h⟩ := bind_ok.mp h
  exact ⟨tensor, htensor, (Except.ok.inj h).symm⟩

/-- The checks leave the columns of a group together. -/
structure Placed (t : TensorInfo) (mins : RepackMins) (dest : Option (List ℤ)) : Prop where
  permutes : PermutesBelow (t.dims.getD 0 0 / 32) (placementFor t mins dest).mainGroupOf
  column : ∀ g < t.dims.getD 0 0 / 32, ∀ l < 32,
    placeOf (dest.getD []) (g * 32 + l) = (placementFor t mins dest).mainGroupOf g * 32 + l

section Packed

variable {file : Reading ℚ} (htype : HasMins t.ggmlType) (hmins : mins ≠ .split)

include htype hmins

theorem repackRows_packed :
    repackRows t mins dest file =
      { n := t.dims.getD 1 0
        k := t.dims.getD 0 0
        kAug := kAug (groupsPerAug t.ggmlType mins dest.isSome) (t.dims.getD 0 0)
        groupsPerAug := groupsPerAug t.ggmlType mins dest.isSome
        augSlots := augSlots t.ggmlType mins
        weights := fun row => scatter (fun _ => 0)
          (mainWrites (placementFor t mins dest) (t.dims.getD 0 0) (file.main row) ++
            augWrites (placementFor t mins dest) (augSlots t.ggmlType mins) (t.dims.getD 0 0)
              (file.stored row) (file.augScale row))
        minMatrix := none } := by
  unfold repackRows
  dsimp only
  rw [if_pos htype, if_neg hmins]

variable (hpl : PermutesBelow (t.dims.getD 0 0 / 32) (placementFor t mins dest).mainGroupOf)
  (row : ℕ) {g : ℕ} (hg : g < t.dims.getD 0 0 / 32)

include hpl hg

/-- The main columns are the file's. -/
theorem weights_packed {l : ℕ} (hl : l < 32) :
    (repackRows t mins dest file).weights row ((placementFor t mins dest).mainGroupOf g * 32 + l) =
      file.main row (g * 32 + l) := by
  rw [repackRows_packed htype hmins]
  refine scatter_mainWrites hpl (fun write hwrite => ?_) hg hl
  exact le_of_mem_augWrites (augSlots_cases t.ggmlType mins) hwrite

/-- The min that is read back is what was stored, under its scale. -/
theorem minOfGroup_packed (hk : t.dims.getD 0 0 % 32 = 0) :
    minOfGroup (repackRows t mins dest file) row ((placementFor t mins dest).mainGroupOf g) =
      file.augScale row ((placementFor t mins dest).augGroupOf g) * file.stored row g := by
  obtain ⟨hpos, hfit⟩ := groupsPerAug_fits t.ggmlType hmins dest.isSome
  have hslots := augSlots_cases t.ggmlType mins
  have hfits : Fits (repackRows t mins dest file) (placementFor t mins dest) := by
    rw [repackRows_packed htype hmins]
    exact ⟨hslots, hfit, hpos, fun _ => rfl, fun _ => rfl⟩
  have hcell := fun {b : ℕ} (hb : b < augSlots t.ggmlType mins) =>
    @scatter_augWrites ℚ _ (t.dims.getD 0 0) (file.main row) _ hk hpl
      (repackRows t mins dest file) hfits (file.stored row) (file.augScale row) g b hg
      (by rw [repackRows_packed htype hmins]; exact hb)
  have hfirst : 0 < augSlots t.ggmlType mins := by omega
  have haug : kAug (groupsPerAug t.ggmlType mins dest.isSome) (t.dims.getD 0 0) ≠ 0 :=
    Nat.ne_of_gt (Nat.zero_lt_of_lt
      (@augColumn_lt (t.dims.getD 0 0) _ _ g 0 hfit hpos hfirst hg))
  rw [repackRows_packed htype hmins] at hcell ⊢
  unfold minOfGroup
  dsimp only at hcell ⊢
  rw [if_neg haug]
  rcases hslots with hone | htwo
  · rw [hone] at hcell ⊢
    rw [if_neg (by decide), Nat.add_assoc]
    simpa [minPart] using hcell (Nat.lt_succ_self 0)
  · rw [htwo] at hcell ⊢
    have hhigh := @hcell 0 (by decide)
    have hlow := @hcell 1 (by decide)
    have hsplit : ((file.stored row g / 16 : ℕ) : ℚ) * 16 + (file.stored row g % 16 : ℕ) =
        file.stored row g := by
      exact_mod_cast Nat.div_add_mod' (file.stored row g) 16
    rw [Nat.add_zero] at hhigh
    rw [if_pos rfl, Nat.add_assoc, Nat.add_assoc, hlow, hhigh, ← hsplit]
    simp only [minPart, if_true, one_ne_zero, if_false]
    ring

end Packed

/-- A column is off by what its group is off by. -/
theorem step_packed (htype : HasMins t.ggmlType) (hmins : mins ≠ .split)
    (h : f.repack t dest mins = .ok r) (hplaced : Placed t mins dest) (row : ℕ) {g l : ℕ}
    (hg : g < t.dims.getD 0 0 / 32) (hl : l < 32) :
    f.step t r row (g * 32 + l) = (f.blocks t).groupStep t.ggmlType mins (placementFor t mins dest)
      (t.dims.getD 0 0) row g := by
  obtain ⟨tensor, htensor, rfl⟩ := repack_ok h
  obtain ⟨rfl, hblocks, -⟩ := repackValues_cases htensor
  have hwidth : scaleGroup t.ggmlType = 32 := by
    rcases htype with htype | htype <;> rw [htype] <;> rfl
  have hvalue : (f.blocks t).value t.ggmlType row (g * 32 + l) =
      (f.blocks t).main t.ggmlType row (g * 32 + l) - (f.blocks t).min row g := by
    rw [Blocks.value, if_pos htype, block_div hl]
  unfold OpenFile.step Blocks.groupStep
  dsimp only
  rw [hplaced.column g hg l hl, hwidth, block_div hl, if_pos htype,
    minOfGroup_packed htype hmins hplaced.permutes row hg (mod_group_of_mod_block hblocks),
    weights_packed htype hmins hplaced.permutes row hg hl,
    scatter_permuted hplaced.permutes _ _ hg, hvalue]
  refine congrArg (· / _) (congrArg abs ?_)
  simp only [Blocks.reading]
  ring

/-- The check of a tensor with mins is about its groups. -/
theorem over_packed_iff {D : Doubles ℚ} {bound : ℚ} (htype : HasMins t.ggmlType)
    (hmins : mins ≠ .split) (h : f.repack t dest mins = .ok r) (hplaced : Placed t mins dest) :
    (repackDeviation D f.exactRepacker t r bound).overBound = 0 ↔
      ∀ row < t.dims.getD 1 0, ∀ g < t.dims.getD 0 0 / 32,
        D.exceeds ((f.blocks t).groupStep t.ggmlType mins (placementFor t mins dest)
          (t.dims.getD 0 0) row g) bound = false := by
  have hstep := fun row {g l : ℕ} hg hl =>
    @step_packed f t dest mins r htype hmins h hplaced row g l hg hl
  obtain ⟨tensor, htensor, rfl⟩ := repack_ok h
  obtain ⟨rfl, hblocks, -⟩ := repackValues_cases htensor
  have hk := groups_mul (mod_group_of_mod_block hblocks)
  rw [over_eq_zero_iff]
  simp only [OpenFile.exactRepacker, repackRows_packed htype hmins, List.forall_mem_map,
    List.mem_range]
  refine forall₂_congr fun row _ => ⟨fun hall g hg => ?_, fun hall c hc => ?_⟩
  · have hcolumn := hall (g * 32 + 0) (by omega)
    rwa [← repackRows_packed htype hmins, hstep row hg (by decide)] at hcolumn
  · obtain ⟨g, hg, l, hl, rfl⟩ := exists_block (hk.symm ▸ hc)
    rw [← repackRows_packed htype hmins, hstep row hg hl]
    exact hall g hg

theorem foldl_max_eq {l : List ℕ} {v : ℕ → ℚ} {d acc : ℚ} (hv : ∀ g ∈ l, v g = d) (hl : l ≠ [])
    (hacc : acc ≤ d) : (l.map v).foldl max acc = d := by
  induction l generalizing acc with
  | nil => exact absurd rfl hl
  | cons g l ih =>
      rw [List.map_cons, List.foldl_cons, hv g List.mem_cons_self, max_eq_right hacc]
      cases l with
      | nil => rfl
      | cons g' l => exact ih (fun g hg => hv g (List.mem_cons_of_mem _ hg)) (by simp) (le_refl d)

/-- The scale of an augmented group whose groups have one float. -/
theorem augScale_eq {blocks : Blocks} {type : ℕ} {pl : Placement} {k row g : ℕ} {d : ℚ}
    (hmins : mins ≠ .nibble) (hg : g < k / 32) (hd : 0 ≤ d)
    (hsame : ∀ g' < k / 32, pl.augGroupOf g' = pl.augGroupOf g → blocks.dmin row (g' / 8) = d) :
    blocks.augScale type mins pl k row (pl.augGroupOf g) = d := by
  unfold Blocks.augScale
  refine foldl_max_eq (fun g' hg' => ?_) (fun hnil => ?_) hd
  · obtain ⟨hrange, haug⟩ := List.mem_filter.mp hg'
    rw [if_neg fun h => hmins h.1]
    exact hsame g' (List.mem_range.mp hrange) (of_decide_eq_true haug)
  · have hmem : g ∈ (List.range (k / 32)).filter fun g' => pl.augGroupOf g' = pl.augGroupOf g :=
      List.mem_filter.mpr ⟨List.mem_range.mpr hg, decide_eq_true rfl⟩
    rw [hnil] at hmem
    cases hmem

theorem lround_natCast (n : ℕ) : lround n = n := by
  unfold lround
  rw [if_pos (Nat.cast_nonneg n), Int.floor_eq_iff]
  constructor <;> push_cast <;> linarith

/-- Under one float a group stores its integer, and is off by nothing. -/
theorem groupStep_eq_zero {blocks : Blocks} {type : ℕ} {pl : Placement} {k row g : ℕ}
    (hmins : mins ≠ .nibble) (hg : g < k / 32) (hd : 0 ≤ blocks.dmin row (g / 8))
    (hm6 : blocks.m6 row g ≤ storedCap type mins)
    (hsame : ∀ g' < k / 32, pl.augGroupOf g' = pl.augGroupOf g →
      blocks.dmin row (g' / 8) = blocks.dmin row (g / 8)) :
    blocks.groupStep type mins pl k row g = 0 := by
  have haug := @augScale_eq mins blocks type pl k row g _ hmins hg hd hsame
  have hstored : blocks.dmin row (g / 8) * blocks.stored type mins pl k row g =
      blocks.min row g := by
    unfold Blocks.stored
    dsimp only
    rw [haug]
    rcases hd.eq_or_lt with hzero | hpos
    · rw [← hzero, zero_mul, Blocks.min, ← hzero, zero_mul]
    · rw [if_pos hpos, Blocks.min, mul_div_cancel_left₀ _ hpos.ne', lround_natCast,
        min_eq_right (by exact_mod_cast hm6), max_eq_right (Int.natCast_nonneg _),
        Int.toNat_natCast]
  unfold Blocks.groupStep
  dsimp only
  rw [haug, hstored, sub_self, abs_zero, zero_div]

theorem scaleMinK4_le {byte : ℕ → ℕ} (hbyte : ∀ i, byte i < 256) (j q : ℕ) :
    (scaleMinK4 byte j q).2 ≤ 63 := by
  have hlow := hbyte (q + (j + 4))
  have hhigh := hbyte (q + j)
  unfold scaleMinK4
  split
  all_goals
    dsimp only
    omega

theorem blocks_m6_le (htype : HasMins t.ggmlType) (row g : ℕ) : (f.blocks t).m6 row g ≤ 63 := by
  unfold OpenFile.blocks
  rcases htype with htype | htype
  all_goals
    rw [htype]
    exact scaleMinK4_le (fun _ => UInt8.toNat_lt _) _ _

/-- In the file's order the exact packing errs nowhere. -/
theorem over_fileOrder {D : Doubles ℚ} {bound : ℚ} (htype : HasMins t.ggmlType)
    (h : f.repack t none .exact = .ok r)
    (hdmin : ∀ row < t.dims.getD 1 0, ∀ g < t.dims.getD 0 0 / 32,
      0 ≤ (f.blocks t).dmin row (g / 8))
    (hbound : D.exceeds 0 bound = false) :
    (repackDeviation D f.exactRepacker t r bound).overBound = 0 := by
  have hplaced : Placed t .exact none := ⟨.id _, fun _ _ _ _ => rfl⟩
  refine (over_packed_iff htype (by decide) h hplaced).mpr fun row hrow g hg => ?_
  have hcap : 63 ≤ storedCap t.ggmlType .exact := by
    rcases htype with htype | htype <;> rw [htype] <;> decide
  rw [groupStep_eq_zero (by decide) hg (hdmin row hrow g hg)
    ((blocks_m6_le htype row g).trans hcap)]
  · exact hbound
  · intro g' _ haug
    exact congrArg _ haug

end Errs

/-! ## Doubles -/

/-- To the nearest, and between two to the even one. -/
def roundEven (x : ℚ) : ℕ :=
  let n := ⌊x⌋₊
  if x - n < 1 / 2 ∨ x - n = 1 / 2 ∧ n % 2 = 0 then n else n + 1

/-- Six digits, as a stream writes a double between `1e-4` and `1e6` by default. -/
def sixDigits (q : ℚ) : Bytes :=
  let places := (5 - Int.log 10 q).toNat
  let n := roundEven (q * 10 ^ places)
  let fraction := ((decimal (10 ^ places + n % 10 ^ places)).drop 1).rdropWhile (· == 48)
  decimal (n / 10 ^ places) ++ if fraction = [] then [] else bytes "." ++ fraction

theorem sixDigits_plain (q : ℚ) : ∀ c ∈ sixDigits q, c ≠ bar ∧ c ≠ cross := by
  intro c hc
  rcases List.mem_append.mp hc with hwhole | hrest
  · exact decimal_plain _ c hwhole
  · split at hrest
    next => cases hrest
    next =>
      rcases List.mem_append.mp hrest with hdot | hfraction
      · cases List.mem_singleton.mp hdot
        decide
      · have hdigits := List.mem_of_mem_drop ((List.rdropWhile_prefix _ _).subset hfraction)
        exact decimal_plain _ c hdigits

/-- The doubles in exact arithmetic. -/
def exactDoubles : Doubles ℚ where
  ofNat := Nat.cast
  add := (· + ·)
  exceeds a b := b < a
  print := sixDigits
  readBack := some
  print_plain := sixDigits_plain

example : sixDigits (1 / 64) = bytes "0.015625" := by decide +kernel

/-! ## Two super-blocks -/

/-- A block of `Q4_K` of zeros under scales of one; only its first group has a min. -/
def flatBlock (dmin : List UInt8) (m6 : UInt8) : Bytes :=
  [0, 60] ++ dmin ++ [1, 1, 1, 1, m6, 0, 0, 0, 1, 1, 1, 1] ++ List.replicate 128 0

def flatTensor : TensorInfo := ⟨bytes "w", [512, 1], 12, 0, 512⟩

/-- One row of two super-blocks, whose floats are two and one. -/
def flatContents : Contents where
  entries := []
  tensors := [flatTensor]
  data := List.replicate 31 0 ++ flatBlock [0, 64] 0 ++ flatBlock [0, 60] 1

theorem flatContents_wellFormed : flatContents.WellFormed 32 where
  small := by decide +kernel
  keys := by decide
  aligned := .default (by decide)
  power := ⟨5, rfl⟩
  tensors := by
    intro t hmem
    cases List.mem_singleton.mp hmem
    exact ⟨by decide, by decide, by decide, by decide, by decide, by decide, by decide⟩
  offsets := by decide
  inRange := by decide +kernel

def flatFile : OpenFile := ⟨_, _, flatContents_wellFormed.openGguf_ok⟩

def flatSetting : Setting where
  openFile := flatFile
  verdictDir := bytes "verdicts"
  filePath := bytes "w.gguf"
  stat := some ⟨384, 0, 0⟩
  hardwareConcurrency := 8

/-- The groups 0 and 8 change places. -/
def swapped (c : ℕ) : ℕ := if c < 32 then 256 + c else if 256 ≤ c ∧ c < 288 then c - 256 else c

theorem swapped_permutes : PermutesBelow 512 swapped := by
  constructor
  · intro c hc
    unfold swapped
    split_ifs <;> omega
  · intro c hc c' hc'
    unfold swapped
    split_ifs <;> omega

theorem swapped_checkColumns : checkColumns 12 512 (some (columnOrder 512 swapped)) = .ok () := by
  refine checkColumns_columnOrder (.inl rfl) (fun g hg => ?_) fun g hg l hl => ?_
  · unfold swapped
    split_ifs <;> omega
  · unfold swapped
    split_ifs <;> omega

theorem flat_repack {dest : Option (List ℤ)} (hsize : ∀ order ∈ dest, order.length = 512)
    (hcolumns : checkColumns 12 512 dest = .ok ()) :
    ∃ r, flatFile.repack flatTensor dest .exact = .ok r :=
  ⟨_, bind_ok.mpr ⟨_, repackValues_ok rfl rfl rfl hsize hcolumns, rfl⟩⟩

/-- In the file's order nothing is off. -/
theorem flat_fileOrder {r : Repacked} (h : flatFile.repack flatTensor none .exact = .ok r) :
    (repackDeviation exactDoubles flatFile.exactRepacker flatTensor r (1 / 64)).overBound = 0 := by
  refine over_fileOrder (.inl rfl) h (fun row hrow g hg => ?_) (by decide +kernel)
  have hdmin : ∀ g < 16, 0 ≤ (flatFile.blocks flatTensor).dmin 0 (g / 8) := by decide +kernel
  obtain rfl : row = 0 := Nat.lt_one_iff.mp hrow
  exact hdmin g hg

/-- Swapped, the min of group 8 is stored under the float of the other super-block. -/
theorem flat_swapped {r : Repacked}
    (h : flatFile.repack flatTensor (some (columnOrder 512 swapped)) .exact = .ok r) :
    (repackDeviation exactDoubles flatFile.exactRepacker flatTensor r (1 / 64)).overBound ≠ 0 := by
  have hread : ∀ c < 512, placeOf (columnOrder 512 swapped) c = swapped c := by
    intro c hc
    rw [placeOf, if_neg (by simp [columnOrder]), getD_columnOrder hc, Int.toNat_natCast]
  have hpermutes := placement_permutes (.inl rfl) (by decide) swapped_permutes
    swapped_checkColumns 4
  have hk : flatTensor.dims.getD 0 0 = 512 := rfl
  have hplaced : Placed flatTensor .exact (some (columnOrder 512 swapped)) := by
    constructor
    · rw [hk]
      exact hpermutes
    · rw [hk]
      intro g hg l hl
      rw [Option.getD_some, hread _ (block_lt hg hl)]
      exact (order_eq_of_checkColumns (.inl rfl) swapped_checkColumns _ hg hl).symm
  have hstep : (flatFile.blocks flatTensor).groupStep 12 .exact
      (placementFor flatTensor .exact (some (columnOrder 512 swapped))) 512 0 8 = 1 := by
    decide +kernel
  intro hover
  have hgroup := (over_packed_iff (.inl rfl) (by decide) h hplaced).mp hover 0 (by decide) 8
    (by decide)
  have hexceeds : exactDoubles.exceeds 1 (1 / 64) = true := by decide +kernel
  exact absurd (hexceeds.symm.trans (hstep ▸ hgroup)) (by decide)

def flatMember : flatSetting.openFile.Tensor := ⟨flatTensor, List.mem_cons_self⟩

/-- The tensor in some order, under the bound of its type. -/
def flatRequest (columnDestOf : List ℤ) : RepackRequest flatSetting.openFile ℚ :=
  ⟨some flatMember, columnDestOf, 1 / 64⟩

theorem flatRequest_dest {columnDestOf : List ℤ} (h : columnDestOf ≠ []) :
    (flatRequest columnDestOf).dest = some columnDestOf :=
  if_neg h

/-- The key text of the requests, whatever their order. -/
theorem flat_text (columnDestOf : List ℤ) :
    flatSetting.text exactDoubles flatMember.1 (flatRequest columnDestOf).bound .exact =
      some (keyText exactDoubles ⟨384, 0, 0⟩ flatTensor (1 / 64) .exact) := by
  rw [Setting.text, if_neg (by decide)]
  rfl

theorem flat_keyTexts (columnDestOf : List ℤ) :
    Set.InjOn fnv1a (keyTexts exactDoubles flatSetting
      (missed (lone .exact (flatRequest [])) ++ hit (lone .exact (flatRequest columnDestOf)))) :=
  keyTexts_twice rfl (flat_text []) rfl (flat_text columnDestOf)

/-- Whatever order is asked for after the file's, it is answered with the file's verdict. -/
theorem flat_twice (columnDestOf : List ℤ) {r : Repacked}
    (hr : flatFile.repack flatTensor (flatRequest columnDestOf).dest .exact = .ok r) :
    ∃ mid last e,
      (ggufRepackAll exactDoubles flatFile.exactRepacker flatSetting).run
        (Session.start flatSetting) (missed (lone .exact (flatRequest []))) = some mid ∧
      mid.begun = [lone .exact (flatRequest [])] ∧
      (ggufRepackAll exactDoubles flatFile.exactRepacker flatSetting).run
        (Session.start flatSetting)
        (missed (lone .exact (flatRequest [])) ++ hit (lone .exact (flatRequest columnDestOf))) =
          some last ∧
      (lone .exact (flatRequest columnDestOf), .ok [⟨r, e, 0, 0, true⟩]) ∈ last.returned := by
  obtain ⟨first, hfirst⟩ := @flat_repack none (by simp) rfl
  have hrepack : flatFile.exactRepacker.repack flatMember.1 (flatRequest []).dest .exact =
      .ok first := hfirst
  have hover : (repackDeviation exactDoubles flatFile.exactRepacker flatMember.1 first
      (flatRequest []).bound).overBound = 0 := flat_fileOrder hfirst
  exact run_twice (by decide) rfl (flat_text []) hrepack hover rfl rfl (flat_text columnDestOf) hr

/-! ## Stale verdicts -/

/-- In a run of calls that keep apart no verdict is stale. -/
theorem cachedVerdicts_fresh {F P : Type} {D : Doubles F} {R : Repacker F P} {S : Setting}
    {events : List (Event S.openFile F)} {last : Session S.openFile F P}
    (hhash : Set.InjOn fnv1a (keyTexts D S events))
    (hmeets : (ggufRepackAll D R S).Meets (Distinct D S) (Session.start S) events)
    (hrun : (ggufRepackAll D R S).run (Session.start S) events = some last) :
    NeverStale D R S last :=
  (run_backed hhash hmeets hrun).returned

/-- The tensor is asked for twice in the file's order. -/
theorem cachedVerdicts_fresh_repeated :
    ∃ last r e,
      (ggufRepackAll exactDoubles flatFile.exactRepacker flatSetting).run
        (Session.start flatSetting)
        (missed (lone .exact (flatRequest [])) ++ hit (lone .exact (flatRequest []))) = some last ∧
      (lone .exact (flatRequest []), .ok [⟨r, e, 0, 0, true⟩]) ∈ last.returned ∧
      NeverStale exactDoubles flatFile.exactRepacker flatSetting last := by
  obtain ⟨r, hr⟩ := @flat_repack none (by simp) rfl
  obtain ⟨mid, last, e, hmid, hbegun, hlast, hreturned⟩ := flat_twice [] hr
  refine ⟨last, r, e, hlast, hreturned, cachedVerdicts_fresh (flat_keyTexts []) ?_ hlast⟩
  refine Machine.meets_append (meets_enter (keepsApart_lone ?_) ?_) hmid
    (meets_enter (keepsApart_lone ?_) ?_)
  · exact fun _ => List.mem_singleton.mp
  · simp
  · rw [hbegun]
    simp
  · simp

/-- Asked for again in another order, it is returned unchecked and off its bound. -/
theorem cachedVerdicts_stale :
    ∃ events last,
      Set.InjOn fnv1a (keyTexts exactDoubles flatSetting events) ∧
      (ggufRepackAll exactDoubles flatFile.exactRepacker flatSetting).run
        (Session.start flatSetting) events = some last ∧
      ¬ NeverStale exactDoubles flatFile.exactRepacker flatSetting last := by
  obtain ⟨r, hr⟩ := @flat_repack (some (columnOrder 512 swapped)) (by simp) swapped_checkColumns
  have hdest := flatRequest_dest (List.ne_nil_of_length_pos
    (Nat.lt_of_lt_of_eq (by decide : 0 < 512) (length_columnOrder 512 swapped).symm))
  rw [← hdest] at hr
  obtain ⟨mid, last, e, -, -, hlast, hreturned⟩ := flat_twice (columnOrder 512 swapped) hr
  refine ⟨_, last, flat_keyTexts _, hlast, fun hfresh => ?_⟩
  obtain ⟨req, t, hreq, ht, hover⟩ := hfresh _ _ hreturned (.inl rfl) 0 _ rfl rfl
  cases hreq
  cases ht
  rw [hdest] at hr
  exact flat_swapped hr hover

end Arcint.Gguf.Verdicts
