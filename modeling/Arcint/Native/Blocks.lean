import Arcint.Native.Rows

/-! # Native blocks, laid out by role

The tools split a tensor's blocks into an array for each role, and decode the arrays. Arrays are
over rows and places of a row; bytes are numbered from the start of their row. In exact arithmetic
what is decoded is what the reader of the file decodes.
-/

namespace Arcint.Native

open Foundation BinaryFormat Gguf
open Gguf.Packing (FloatOps f16at dequantizeRowQ80 fillsRange_map dequantizeRowQ80_fills decoded
  scaleProduct quant)

/-! ## Splitting and decoding -/

/-- `_f16_le`, of the two bytes from a place on. -/
def f16Le (raw : ℕ → ℕ → ℕ) (row p : ℕ) : ℚ := binary16.value (raw row p + raw row (p + 1) * 256)

/-- What is split, when the bytes of a row are whole blocks. -/
def ofWholeBlocks {α : Type} (blockBytes nbytes : ℕ) (split : α) : Option α :=
  if nbytes % blockBytes = 0 then some split else none

section Split

variable (nbytes : ℕ) (raw : ℕ → ℕ → ℕ)

/-- Codes in the order of the elements, and a scale for 32 of them. -/
structure Codes (α : Type) where
  codes : ℕ → ℕ → α
  scales : ℕ → ℕ → ℚ

/-- Grid and sign indices, and scales. -/
structure Indices where
  gridix : ℕ → ℕ → ℕ
  signix : ℕ → ℕ → ℕ
  scales : ℕ → ℕ → ℚ

def iq4NlSplit : Option (Codes ℕ) :=
  ofWholeBlocks 18 nbytes
    { codes := fun row k =>
        let qs := k / 32 * 18 + 2
        let j := k % 32
        if j < 16 then raw row (qs + j) % 16 else raw row (qs + (j - 16)) / 16
      scales := fun row b => f16Le raw row (b * 18) }

def iq4NlDecode (parts : Codes ℕ) (row k : ℕ) : ℚ :=
  kvaluesIq4nl.getD (parts.codes row k) 0 * parts.scales row (k / 32)

def iq3XxsSplit : Option Indices :=
  let aux (row i : ℕ) := u32at (raw row) (i / 8 * 98 + 66 + 4 * (i % 8))
  ofWholeBlocks 98 nbytes
    { gridix := fun row i => raw row (i / 64 * 98 + 2 + i % 64)
      signix := fun row i => aux row (i / 4) / 2 ^ (7 * (i % 4)) % 128
      scales := fun row i =>
        f16Le raw row (i / 8 * 98) * (1 / 2 + (aux row i / 2 ^ 28 : ℕ)) * (1 / 2) }

/-- A sign, from a bit of a mask. -/
def maskSign (mask j : ℕ) : ℚ := if Nat.land mask (kmaskIq2xs.getD j 0) ≠ 0 then -1 else 1

def iq3XxsDecode (parts : Indices) (row k : ℕ) : ℚ :=
  let mag : ℕ := iq3xxsGridU32.getD (parts.gridix row (k / 4)) 0 / 256 ^ (k % 4) % 256
  let mask := ksignsIq2xs.getD (parts.signix row (k / 8)) 0
  mag * maskSign mask (k % 8) * parts.scales row (k / 32)

/-- Six bits of scale for every 32 of a block's codes, which are laid out as those of `IQ4_NL`. -/
def iq4XsSplit : Option (Codes ℕ) :=
  let scalesH (row b : ℕ) := raw row (b * 136 + 2) + raw row (b * 136 + 3) * 256
  let ls (row i : ℕ) :=
    let lo := raw row (i / 8 * 136 + 4 + i % 8 / 2) / 2 ^ (4 * (i % 8 % 2)) % 16
    let hi := scalesH row (i / 8) / 2 ^ (2 * (i % 8)) % 4
    lo + hi * 16
  ofWholeBlocks 136 nbytes
    { codes := fun row k =>
        let qs := k / 256 * 136 + 8 + k % 256 / 32 * 16
        let j := k % 32
        if j < 16 then raw row (qs + j) % 16 else raw row (qs + (j - 16)) / 16
      scales := fun row i => f16Le raw row (i / 8 * 136) * ((ls row i : ℤ) - 32 : ℤ) }

def q80Split : Option (Codes ℤ) :=
  ofWholeBlocks 34 nbytes
    { codes := fun row k => Gguf.signed 1 (raw row (k / 32 * 34 + 2 + k % 32))
      scales := fun row b => f16Le raw row (b * 34) }

def q80Decode (parts : Codes ℤ) (row k : ℕ) : ℚ := parts.codes row k * parts.scales row (k / 32)

/-- An index of ten bits, a sign mask and a scale for every eight values. The two scales of a byte
serve two groups of eight each. -/
def iq2SSplit : Option Indices :=
  let d (row i : ℕ) := f16Le raw row (i / 32 * 82)
  let sc (row i : ℕ) := raw row (i / 32 * 82 + 74 + i % 32 / 4)
  let sLo (row i : ℕ) := d row i * (1 / 2 + (sc row i % 16 : ℕ)) * (1 / 4)
  let sHi (row i : ℕ) := d row i * (1 / 2 + (sc row i / 16 : ℕ)) * (1 / 4)
  ofWholeBlocks 82 nbytes
    { gridix := fun row i =>
        let high := raw row (i / 32 * 82 + 66 + i % 32 / 4) / 2 ^ (2 * (i % 4)) % 4
        raw row (i / 32 * 82 + 2 + i % 32) + high * 2 ^ 8
      signix := fun row i => raw row (i / 32 * 82 + 34 + i % 32)
      scales := fun row i =>
        if [0, 0, 1, 1].getD (i % 4) 0 = 0 then sLo row i else sHi row i }

def iq2SDecode (parts : Indices) (row k : ℕ) : ℚ :=
  let mag : ℕ := iq2sGridU64.getD (parts.gridix row (k / 8)) 0 / 256 ^ (k % 8) % 256
  mag * maskSign (parts.signix row (k / 8)) (k % 8) * parts.scales row (k / 8)

/-- The blocks without their scales, and the scales. -/
structure Packed where
  w80 : ℕ → ℕ → ℕ
  d : ℕ → ℕ → ℚ

def iq2SPackedSplit : Option Packed :=
  ofWholeBlocks 82 nbytes
    { w80 := fun row i => raw row (i / 80 * 82 + 2 + i % 80)
      d := fun row b => f16Le raw row (b * 82) }

def iq2SPackedDecode (parts : Packed) (row k : ℕ) : ℚ :=
  -- the group of eight values, which counts 32 to a block
  let i := k / 8
  let qs := parts.w80 row (i / 32 * 80 + i % 32)
  let signix := parts.w80 row (i / 32 * 80 + 32 + i % 32)
  let qh := parts.w80 row (i / 32 * 80 + 64 + i % 32 / 4)
  let sc := parts.w80 row (i / 32 * 80 + 72 + i % 32 / 4)
  let idx := qs + qh / 2 ^ (2 * (i % 4)) % 4 * 2 ^ 8
  let nib : ℕ := [sc % 16, sc % 16, sc / 16, sc / 16].getD (i % 4) 0
  let s := parts.d row (i / 32) * (1 / 2 + nib) * (1 / 4)
  let mag : ℕ := iq2sGridU64.getD idx 0 / 256 ^ (k % 8) % 256
  mag * maskSign signix (k % 8) * s

end Split

/-! ## By format -/

/-- The formats that the reader of the file decodes as well. -/
inductive NativeFormat where
  | iq4Nl | iq3Xxs | iq4Xs | q80
  deriving DecidableEq, Repr

namespace NativeFormat

/-- The values and the bytes of a block. -/
def blockBytes : NativeFormat → ℕ × ℕ
  | iq4Nl => (32, 18)
  | iq3Xxs => (256, 98)
  | iq4Xs => (256, 136)
  | q80 => (32, 34)

/-- The number of the type in the file. -/
def ggmlType : NativeFormat → ℕ
  | iq4Nl => 20
  | iq3Xxs => 18
  | iq4Xs => 23
  | q80 => 8

/-- `DECODE` of `SPLIT`. -/
def splitDecoded (nbytes : ℕ) (raw : ℕ → ℕ → ℕ) : NativeFormat → Option (ℕ → ℕ → ℚ)
  | iq4Nl => (iq4NlSplit nbytes raw).map iq4NlDecode
  | iq3Xxs => (iq3XxsSplit nbytes raw).map iq3XxsDecode
  | iq4Xs => (iq4XsSplit nbytes raw).map iq4NlDecode
  | q80 => (q80Split nbytes raw).map q80Decode

end NativeFormat

/-! ## The two decoders -/

section Decoders

variable {raw : ℕ → ℕ → ℕ} {row count : ℕ}

/-- The scales are read alike from finite halves. -/
theorem f16at_exact {p : ℕ} (hfinite : binary16.Finite (raw row p + raw row (p + 1) * 256)) :
    f16at exactOps (raw row) p = f16Le raw row p :=
  value_f16ToF32 hfinite

theorem iq4Nl_fills (hfinite : ∀ b < count,
      binary16.Finite (raw row (b * 18) + raw row (b * 18 + 1) * 256)) {parts : Codes ℕ}
    (hsplit : iq4NlSplit (count * 18) raw = some parts) :
    FillsRange (dequantizeRowIq4Nl exactOps (raw row) (count * 32)) 0 (count * 32)
      (iq4NlDecode parts row) := by
  obtain rfl : _ = parts := Option.some.inj ((if_pos (Nat.mul_mod_left _ _)).symm.trans hsplit)
  unfold dequantizeRowIq4Nl
  rw [indicesBelow_eq (by decide) (Nat.dvd_mul_left 32 count), Nat.mul_div_cancel _ (by decide)]
  refine fillsRange_blocks fun b hb => ?_
  rw [Nat.zero_add]
  refine @fillsRange_pairs ℚ (b * 32) 16 _ _ _ (fun j hj => ?_) fun j hj => ?_
  · have hblock : (b * 32 + j) / 32 = b := by omega
    have hplace : (b * 32 + j) % 32 = j := by omega
    simp only [iq4NlDecode, hblock, hplace, if_pos hj, f16at_exact (hfinite b hb), kvaluesIq4nl_eq]
    exact mul_comm _ _
  · have hblock : (b * 32 + (16 + j)) / 32 = b := by omega
    have hplace : (b * 32 + (16 + j)) % 32 = 16 + j := by omega
    have hhigh : ¬ 16 + j < 16 := by omega
    simp only [iq4NlDecode, hblock, hplace, if_neg hhigh, Nat.add_sub_cancel_left,
      f16at_exact (hfinite b hb), kvaluesIq4nl_eq]
    exact mul_comm _ _

theorem iq4Xs_fills (hfinite : ∀ b < count,
      binary16.Finite (raw row (b * 136) + raw row (b * 136 + 1) * 256)) {parts : Codes ℕ}
    (hsplit : iq4XsSplit (count * 136) raw = some parts) :
    FillsRange (dequantizeRowIq4Xs exactOps (raw row) (count * 256)) 0 (count * 256)
      (iq4NlDecode parts row) := by
  obtain rfl : _ = parts := Option.some.inj ((if_pos (Nat.mul_mod_left _ _)).symm.trans hsplit)
  unfold dequantizeRowIq4Xs
  rw [indicesBelow_eq (by decide) (Nat.dvd_mul_left 256 count), Nat.mul_div_cancel _ (by decide)]
  refine fillsRange_blocks fun b hb => ?_
  refine @fillsRange_blocks _ 8 32 _ _ _ fun ib hib => ?_
  rw [Nat.zero_add]
  have hsub : ∀ j < 32, (b * 256 + (ib * 32 + j)) / 32 = b * 8 + ib := fun j hj => by omega
  have hblock : (b * 8 + ib) / 8 = b := by omega
  have hib' : (b * 8 + ib) % 8 = ib := by omega
  have hqs : ∀ j < 32, (b * 256 + (ib * 32 + j)) / 256 * 136 + 8 +
      (b * 256 + (ib * 32 + j)) % 256 / 32 * 16 = b * 136 + 8 + ib * 16 := fun j hj => by omega
  have hplace : ∀ j < 32, (b * 256 + (ib * 32 + j)) % 32 = j := fun j hj => by omega
  refine @fillsRange_pairs ℚ (b * 256 + ib * 32) 16 _ _ _ (fun j hj => ?_) fun j hj => ?_
  · have hj' : j < 32 := by omega
    simp only [iq4NlDecode, hsub j hj', hblock, hib', hqs j hj', hplace j hj', if_pos hj,
      f16at_exact (hfinite b hb), kvaluesIq4nl_eq]
    exact mul_comm _ _
  · have hj' : 16 + j < 32 := by omega
    have hhigh : ¬ 16 + j < 16 := by omega
    simp only [iq4NlDecode, hsub _ hj', hblock, hib', hqs _ hj', hplace _ hj', if_neg hhigh,
      Nat.add_sub_cancel_left, f16at_exact (hfinite b hb), kvaluesIq4nl_eq]
    exact mul_comm _ _

theorem q80_fills (hfinite : ∀ b < count,
      binary16.Finite (raw row (b * 34) + raw row (b * 34 + 1) * 256)) {parts : Codes ℤ}
    (hsplit : q80Split (count * 34) raw = some parts) :
    FillsRange (dequantizeRowQ80 exactOps (raw row) (count * 32)) 0 (count * 32)
      (q80Decode parts row) := by
  obtain rfl : _ = parts := Option.some.inj ((if_pos (Nat.mul_mod_left _ _)).symm.trans hsplit)
  refine FillsRange.congr (dequantizeRowQ80_fills count) fun c hc => ?_
  have hb : c / 32 < count := (Nat.div_lt_iff_lt_mul (by decide)).mpr hc
  simp only [decoded, scaleProduct, quant, HasMins, q80Decode, f16at_exact (hfinite _ hb)]
  rw [if_neg (by decide), Nat.add_assoc]
  exact mul_comm _ _

/-- The value in place `j` of the group of eight `l`, in a block's sub-block `ib`. -/
theorem iq3XxsDecode_eq {parts : Indices} (hsplit : iq3XxsSplit (count * 98) raw = some parts)
    (b : ℕ) {ib l j : ℕ} (hib : ib < 8) (hl : l < 4) (hj : j < 8) :
    iq3XxsDecode parts row (b * 256 + (ib * 32 + (l * 8 + j))) =
      let aux := u32at (raw row) (b * 98 + 2 + 64 + 4 * ib)
      let mag : ℕ :=
        kIq3xxsGrid.getD (raw row (b * 98 + 2 + ib * 8 + (2 * l + j / 4))) 0 / 256 ^ (j % 4) % 256
      let mask := kIq2xsSigns.getD (aux / 2 ^ (7 * l) % 128) 0
      mag * (if Nat.land mask (kIq2xsMask.getD j 0) ≠ 0 then -1 else 1) *
        (f16Le raw row (b * 98) * (1 / 2 + (aux / 2 ^ 28 : ℕ)) * (1 / 2)) := by
  obtain rfl : _ = parts := Option.some.inj ((if_pos (Nat.mul_mod_left _ _)).symm.trans hsplit)
  generalize hk : b * 256 + (ib * 32 + (l * 8 + j)) = k
  have hsub : k / 32 = b * 8 + ib := by omega
  have hmask : k / 8 / 4 = b * 8 + ib := by omega
  have hl' : k / 8 % 4 = l := by omega
  have hplace : k % 8 = j := by omega
  have hbyte : k % 4 = j % 4 := by omega
  have hindex : k / 4 / 64 * 98 + 2 + k / 4 % 64 = b * 98 + 2 + ib * 8 + (2 * l + j / 4) := by
    omega
  have hblock : (b * 8 + ib) / 8 = b := by omega
  have haux : b * 98 + 66 + 4 * ((b * 8 + ib) % 8) = b * 98 + 2 + 64 + 4 * ib := by omega
  simp only [iq3XxsDecode, hsub, hmask, hl', hplace, hbyte, hindex, hblock, haux,
    iq3xxsGridU32_eq, ksignsIq2xs_eq, maskSign, kmaskIq2xs_eq]

theorem iq3Xxs_fills (hfinite : ∀ b < count,
      binary16.Finite (raw row (b * 98) + raw row (b * 98 + 1) * 256)) {parts : Indices}
    (hsplit : iq3XxsSplit (count * 98) raw = some parts) :
    FillsRange (dequantizeRowIq3Xxs exactOps (raw row) (· + ·) (1 / 2) (count * 256)) 0
      (count * 256) (iq3XxsDecode parts row) := by
  unfold dequantizeRowIq3Xxs
  rw [indicesBelow_eq (by decide) (Nat.dvd_mul_left 256 count), Nat.mul_div_cancel _ (by decide)]
  refine fillsRange_blocks fun b hb => ?_
  refine @fillsRange_blocks _ 8 32 _ _ _ fun ib hib => ?_
  refine @fillsRange_blocks _ 4 8 _ _ _ fun l hl => ?_
  rw [Nat.zero_add]
  have hsign : ∀ (p : Prop) [Decidable p], (if p then exactOps.ofInt (-1) else exactOps.ofInt 1) =
      if p then -1 else 1 := fun p _ => by simp [exactOps]
  have hmul : ∀ x y : ℚ, exactOps.mul x y = x * y := fun _ _ => rfl
  have hofInt : ∀ n : ℕ, exactOps.ofInt n = n := fun _ => Int.cast_natCast _
  refine @fillsRange_pairs ℚ (b * 256 + ib * 32 + l * 8) 4 _ _ _ (fun j hj => ?_) fun j hj => ?_
  · have hfirst : j / 4 = 0 := by omega
    have hin : j % 4 = j := by omega
    rw [iq3XxsDecode_eq hsplit b hib hl (by omega)]
    simp only [hfirst, hin, Nat.add_zero, f16at_exact (hfinite b hb), hsign, hmul, hofInt]
    ring
  · have hsecond : (4 + j) / 4 = 1 := by omega
    have hin : (4 + j) % 4 = j := by omega
    rw [iq3XxsDecode_eq hsplit b hib hl (by omega)]
    simp only [hsecond, hin, f16at_exact (hfinite b hb), hsign, hmul, hofInt, Nat.add_comm j 4]
    ring

/-- A byte of a packed block. -/
theorem w80_eq {packed : Packed} (hsplit : iq2SPackedSplit (count * 82) raw = some packed) (b : ℕ)
    {p : ℕ} (hp : p < 80) : packed.w80 row (b * 80 + p) = raw row (b * 82 + 2 + p) := by
  obtain rfl : _ = packed := Option.some.inj ((if_pos (Nat.mul_mod_left _ _)).symm.trans hsplit)
  dsimp only
  rw [block_div hp, block_mod hp]

/-- The two forms of `IQ2_S`. -/
theorem iq2SDecode_eq_packed {parts : Indices} {packed : Packed}
    (hsplit : iq2SSplit (count * 82) raw = some parts)
    (hpacked : iq2SPackedSplit (count * 82) raw = some packed) (k : ℕ) :
    iq2SDecode parts row k = iq2SPackedDecode packed row k := by
  have hd : packed.d = fun row b => f16Le raw row (b * 82) := by
    cases Option.some.inj ((if_pos (Nat.mul_mod_left _ _)).symm.trans hpacked)
    rfl
  obtain rfl : _ = parts := Option.some.inj ((if_pos (Nat.mul_mod_left _ _)).symm.trans hsplit)
  have hbyte : ∀ {first p : ℕ}, first + p < 80 →
      packed.w80 row (k / 8 / 32 * 80 + first + p) =
        raw row (k / 8 / 32 * 82 + (2 + first) + p) := by
    intro first p hp
    rw [Nat.add_assoc, w80_eq hpacked _ hp]
    exact congrArg (raw row) (by omega)
  have hqs : packed.w80 row (k / 8 / 32 * 80 + k / 8 % 32) =
      raw row (k / 8 / 32 * 82 + 2 + k / 8 % 32) := @hbyte 0 _ (by omega)
  have hl : k / 8 % 4 = 0 ∨ k / 8 % 4 = 1 ∨ k / 8 % 4 = 2 ∨ k / 8 % 4 = 3 := by omega
  simp only [iq2SDecode, iq2SPackedDecode, hd, hqs, @hbyte 32 (k / 8 % 32) (by omega),
    @hbyte 64 (k / 8 % 32 / 4) (by omega), @hbyte 72 (k / 8 % 32 / 4) (by omega), Nat.reduceAdd]
  rcases hl with hl | hl | hl | hl <;> simp [hl]

variable (raw row count) in
/-- The tools decode what they split to the values that the reader of the file decodes, each at its
place of the row, and the two forms of `IQ2_S` to the same values. -/
theorem splitDecoded_eq_dequantizeRow :
    (∀ format : NativeFormat,
      (∀ b < count, binary16.Finite (raw row (b * format.blockBytes.2) +
        raw row (b * format.blockBytes.2 + 1) * 256)) →
      ∃ decoded, format.splitDecoded (count * format.blockBytes.2) raw = some decoded ∧
        FillsRange (dequantizeRow exactOps (raw row) (· + ·) (1 / 2) format.ggmlType
          (count * format.blockBytes.1)) 0 (count * format.blockBytes.1) (decoded row)) ∧
    ∃ parts packed, iq2SSplit (count * 82) raw = some parts ∧
      iq2SPackedSplit (count * 82) raw = some packed ∧
        ∀ k, iq2SDecode parts row k = iq2SPackedDecode packed row k := by
  have hwhole : ∀ {α : Type} (blockBytes : ℕ) (split : α),
      ofWholeBlocks blockBytes (count * blockBytes) split = some split :=
    fun blockBytes split => if_pos (Nat.mul_mod_left _ _)
  constructor
  · intro format hfinite
    cases format with
    | iq4Nl =>
        exact ⟨_, Option.map_eq_some_iff.mpr ⟨_, hwhole 18 _, rfl⟩,
          iq4Nl_fills hfinite (hwhole 18 _)⟩
    | iq3Xxs =>
        exact ⟨_, Option.map_eq_some_iff.mpr ⟨_, hwhole 98 _, rfl⟩,
          iq3Xxs_fills hfinite (hwhole 98 _)⟩
    | iq4Xs =>
        exact ⟨_, Option.map_eq_some_iff.mpr ⟨_, hwhole 136 _, rfl⟩,
          iq4Xs_fills hfinite (hwhole 136 _)⟩
    | q80 =>
        exact ⟨_, Option.map_eq_some_iff.mpr ⟨_, hwhole 34 _, rfl⟩,
          q80_fills hfinite (hwhole 34 _)⟩
  · exact ⟨_, _, hwhole 82 _, hwhole 82 _, iq2SDecode_eq_packed (hwhole 82 _) (hwhole 82 _)⟩

/-- Bytes that go up along a row and from row to row. -/
def risingBytes (row i : ℕ) : ℕ := (60 + 7 * row + i) % 256

/-- A block of each kind in the second row. -/
theorem splitDecoded_eq_dequantizeRow_rising :
    (∃ decoded, NativeFormat.iq3Xxs.splitDecoded 98 risingBytes = some decoded ∧
      FillsRange (dequantizeRow exactOps (risingBytes 1) (· + ·) (1 / 2) 18 256) 0 256
        (decoded 1)) ∧
    (∃ decoded, NativeFormat.iq4Xs.splitDecoded 136 risingBytes = some decoded ∧
      FillsRange (dequantizeRow exactOps (risingBytes 1) (· + ·) (1 / 2) 23 256) 0 256
        (decoded 1)) ∧
    ∃ parts packed, iq2SSplit 82 risingBytes = some parts ∧
      iq2SPackedSplit 82 risingBytes = some packed ∧
        ∀ k, iq2SDecode parts 1 k = iq2SPackedDecode packed 1 k := by
  obtain ⟨hformats, hiq2S⟩ := splitDecoded_eq_dequantizeRow risingBytes 1 1
  exact ⟨hformats .iq3Xxs (by decide), hformats .iq4Xs (by decide), hiq2S⟩

end Decoders

end Arcint.Native
