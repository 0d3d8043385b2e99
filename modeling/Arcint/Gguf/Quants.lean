import Arcint.Gguf.RepackRow

/-! # The quants of a repacked tensor

Whatever the floats are, the decoders write for a column the product of the scale and the integer
that its block has for it, less the min of its group. The repack stores these integers and the
halves of these scales, each group where the column order puts it.
-/

namespace Arcint.Gguf.Packing

open Foundation
open Verdicts (scaleMinK4 quantMins placeOf)

/-! ## What a row says -/

section Said

variable {F : Type} (ops : FloatOps F) (byte : ℕ → ℕ) (type : ℕ)

/-- The bytes of a super-block with mins. -/
def superBytes : ℕ := if type = 12 then 144 else 176

/-- The integer of a column. -/
def quant (c : ℕ) : ℤ :=
  match type with
  | 8 => signed 1 (byte (c / 32 * 34 + (2 + c % 32)))
  | 14 =>
      let block := c / 256 * 210
      let n := c % 256 / 128
      q6K byte (block + 64 * n) (block + (128 + 32 * n)) (c % 32) (c % 128 / 32) - 32
  | _ => quantMins (fun i => byte (c / 256 * superBytes type + i)) type (c / 32 % 8) (c % 32)

/-- The scale of a column, which is a product but in `Q8_0`. -/
def scaleProduct (c : ℕ) : F :=
  match type with
  | 8 => f16at ops byte (c / 32 * 34)
  | 14 =>
      let block := c / 256 * 210
      ops.mul (f16at ops byte (block + 208))
        (ops.ofInt (signed 1 (byte (block + (192 + c % 256 / 16)))))
  | _ =>
      let block := c / 256 * superBytes type
      ops.mul (f16at ops byte block) (ops.ofInt (scaleMinK4 byte (c / 32 % 8) (block + 4)).1)

/-- The half of a super-block that its mins are multiples of. -/
def dminBits (b : ℕ) : ℕ :=
  let p := b * superBytes type + 2
  byte p + byte (p + 1) * 256

/-- The min of a group, in units of that half. -/
def m6 (g : ℕ) : ℕ := (scaleMinK4 byte (g % 8) (g / 8 * superBytes type + 4)).2

def minProduct (g : ℕ) : F :=
  ops.mul (ops.ofHalf (dminBits byte type (g / 8))) (ops.ofInt (m6 byte type g))

/-- What a column is decoded to if its integer is `q`. -/
def decoded (c : ℕ) (q : ℤ) : F :=
  let product := ops.mul (scaleProduct ops byte type c) (ops.ofInt q)
  if HasMins type then ops.sub product (minProduct ops byte type (c / 32)) else product

end Said

/-! ## The decoders -/

section Decoders

variable {F : Type} {ops : FloatOps F} {byte : ℕ → ℕ} {type k : ℕ}

theorem fillsRange_map {α : Type*} {first n : ℕ} {value : ℕ → α} {write : ℕ → ℕ × α}
    (h : ∀ l < n, write l = (first + l, value l)) :
    FillsRange ((List.range n).map write) first n value := by
  intro w
  rw [List.mem_map]
  constructor
  · rintro ⟨l, hl, rfl⟩
    exact ⟨l, List.mem_range.mp hl, h l (List.mem_range.mp hl)⟩
  · rintro ⟨l, hl, rfl⟩
    exact ⟨l, List.mem_range.mpr hl, h l hl⟩

/-- Four runs of 32 places, written side by side. -/
theorem fillsRange_runs {α : Type*} {first : ℕ} {value : ℕ → α} (write : ℕ → ℕ → α)
    (h : ∀ i < 4, ∀ l < 32, write i l = value (32 * i + l)) :
    FillsRange ((List.range 32).flatMap fun l =>
      [(first + l, write 0 l), (first + (32 + l), write 1 l), (first + (64 + l), write 2 l),
        (first + (96 + l), write 3 l)]) first 128 value := by
  intro w
  simp only [List.mem_flatMap, List.mem_range, List.mem_cons, List.not_mem_nil, or_false]
  constructor
  · rintro ⟨l, hl, rfl | rfl | rfl | rfl⟩
    · exact ⟨l, by omega, by rw [h 0 (by decide) l hl, Nat.mul_zero, Nat.zero_add]⟩
    · exact ⟨32 + l, by omega, by rw [h 1 (by decide) l hl]⟩
    · exact ⟨64 + l, by omega, by rw [h 2 (by decide) l hl]⟩
    · exact ⟨96 + l, by omega, by rw [h 3 (by decide) l hl]⟩
  · rintro ⟨c, hc, rfl⟩
    have hrun : c / 32 = 0 ∨ c / 32 = 1 ∨ c / 32 = 2 ∨ c / 32 = 3 := by omega
    have hwrite := h (c / 32) (by omega) (c % 32) (Nat.mod_lt c (by decide))
    rw [Nat.div_add_mod] at hwrite
    refine ⟨c % 32, Nat.mod_lt c (by decide), ?_⟩
    rw [← hwrite]
    rcases hrun with hrun | hrun | hrun | hrun
    · exact .inl (by rw [hrun, show c % 32 = c by omega])
    · exact .inr (.inl (by rw [hrun, show 32 + c % 32 = c by omega]))
    · exact .inr (.inr (.inl (by rw [hrun, show 64 + c % 32 = c by omega])))
    · exact .inr (.inr (.inr (by rw [hrun, show 96 + c % 32 = c by omega])))

theorem dequantizeRowQ80_fills (count : ℕ) :
    FillsRange (dequantizeRowQ80 ops byte (count * 32)) 0 (count * 32) fun c =>
      decoded ops byte 8 c (quant byte 8 c) := by
  unfold dequantizeRowQ80
  rw [indicesBelow_eq (by decide) (Nat.dvd_mul_left 32 count), Nat.mul_div_cancel _ (by decide)]
  refine fillsRange_blocks fun b _ => ?_
  rw [Nat.zero_add]
  refine fillsRange_map fun l hl => ?_
  simp only [decoded, scaleProduct, quant, HasMins, block_div hl, block_mod hl]
  rfl

theorem dequantizeRowQ6K_fills (count : ℕ) :
    FillsRange (dequantizeRowQ6K ops byte (count * 256)) 0 (count * 256) fun c =>
      decoded ops byte 14 c (quant byte 14 c) := by
  unfold dequantizeRowQ6K
  rw [indicesBelow_eq (by decide) (Nat.dvd_mul_left 256 count), Nat.mul_div_cancel _ (by decide)]
  refine fillsRange_blocks fun b _ => ?_
  dsimp only
  refine @fillsRange_blocks _ 2 128 _ _ _ fun n hn => ?_
  rw [Nat.zero_add, Nat.mul_comm 128 n]
  refine fillsRange_runs (fun i l =>
    ops.mul
      (ops.mul (f16at ops byte (b * 210 + 208))
        (ops.ofInt (signed 1 (byte (b * 210 + (192 + 8 * n) + (l / 16 + 2 * i))))))
      (ops.ofInt (q6K byte (b * 210 + 64 * n) (b * 210 + (128 + 32 * n)) l i - 32)))
    fun i hi l hl => ?_
  -- the block, the half, the run and the place in it are read off the column
  have hblock : (b * 256 + (n * 128 + (32 * i + l))) / 256 = b := by omega
  have hhalf : (b * 256 + (n * 128 + (32 * i + l))) % 256 / 128 = n := by omega
  have hrun : (b * 256 + (n * 128 + (32 * i + l))) % 128 / 32 = i := by omega
  have hplace : (b * 256 + (n * 128 + (32 * i + l))) % 32 = l := by omega
  have hscale : (b * 256 + (n * 128 + (32 * i + l))) % 256 / 16 = 8 * n + (l / 16 + 2 * i) := by
    omega
  simp only [decoded, scaleProduct, quant, HasMins, hblock, hhalf, hrun, hplace, hscale]
  rw [if_neg (by decide), Nat.add_assoc, Nat.add_assoc 192]

/-- What is decoded for the columns of a group with a min. -/
theorem decoded_group (htype : HasMins type) (b : ℕ) {s l : ℕ} (hs : s < 8) (hl : l < 32) :
    decoded ops byte type (b * 256 + (s * 32 + l)) (quant byte type (b * 256 + (s * 32 + l))) =
      ops.sub
        (ops.mul
          (ops.mul (f16at ops byte (b * superBytes type))
            (ops.ofInt (scaleMinK4 byte s (b * superBytes type + 4)).1))
          (ops.ofInt (quantMins (fun i => byte (b * superBytes type + i)) type s l)))
        (ops.mul (f16at ops byte (b * superBytes type + 2))
          (ops.ofInt (scaleMinK4 byte s (b * superBytes type + 4)).2)) := by
  have hblock : (b * 256 + (s * 32 + l)) / 256 = b := by omega
  have hgroup : (b * 256 + (s * 32 + l)) / 32 = b * 8 + s := by omega
  have hplace : (b * 256 + (s * 32 + l)) % 32 = l := by omega
  have hquant : quant byte type (b * 256 + (s * 32 + l)) =
      quantMins (fun i => byte (b * superBytes type + i)) type s l := by
    rcases htype with rfl | rfl
    all_goals
      simp only [quant, hblock, hgroup, hplace, block_mod hs]
  have hscale : scaleProduct ops byte type (b * 256 + (s * 32 + l)) =
      ops.mul (f16at ops byte (b * superBytes type))
        (ops.ofInt (scaleMinK4 byte s (b * superBytes type + 4)).1) := by
    rcases htype with rfl | rfl
    all_goals
      simp only [scaleProduct, hblock, hgroup, block_mod hs]
  unfold decoded
  rw [if_pos htype, hquant, hscale, hgroup, minProduct, dminBits, m6, block_div hs, block_mod hs]
  rfl

/-- The nibbles of a type with mins are those of the repack. -/
theorem dequantizeRowMins_fills {qs : ℕ} {high : ℕ → ℕ → ℕ → ℕ} (htype : HasMins type)
    (hfirst : ∀ block j l, byte (block + (qs + 32 * j) + l) % 16 + high block (2 ^ (2 * j)) l =
      quantMins (fun i => byte (block + i)) type (2 * j) l)
    (hsecond : ∀ block j l, byte (block + (qs + 32 * j) + l) / 16 + high block (2 * 2 ^ (2 * j)) l =
      quantMins (fun i => byte (block + i)) type (2 * j + 1) l) (count : ℕ) :
    FillsRange (dequantizeRowMins ops byte (superBytes type) qs high (count * 256)) 0 (count * 256)
      fun c => decoded ops byte type c (quant byte type c) := by
  unfold dequantizeRowMins
  rw [indicesBelow_eq (by decide) (Nat.dvd_mul_left 256 count), Nat.mul_div_cancel _ (by decide)]
  refine fillsRange_blocks fun b _ => ?_
  dsimp only
  refine @fillsRange_blocks _ 4 64 _ _ _ fun j hj => ?_
  rw [Nat.zero_add]
  -- two groups share the bytes of a run
  refine @FillsRange.append _ _ _ _ 32 32 _ (fillsRange_map fun l hl => Prod.ext rfl ?_) ?_
  · have hcolumn : b * 256 + (j * 64 + l) = b * 256 + (2 * j * 32 + l) := by ring
    dsimp only
    rw [hcolumn, decoded_group htype b (by omega) hl, hfirst]
  · refine fillsRange_map fun l hl => Prod.ext (Nat.add_assoc _ 32 l).symm ?_
    have hcolumn : b * 256 + (j * 64 + (32 + l)) = b * 256 + ((2 * j + 1) * 32 + l) := by ring
    dsimp only
    rw [hcolumn, decoded_group htype b (by omega) hl, hsecond]

theorem dequantizeRowQ4K_fills (hbyte : ∀ i, byte i < 256) (count : ℕ) :
    FillsRange (dequantizeRowQ4K ops byte (count * 256)) 0 (count * 256) fun c =>
      decoded ops byte 12 c (quant byte 12 c) := by
  refine dequantizeRowMins_fills (.inl rfl) (fun block j l => ?_) (fun block j l => ?_) count
  · have hrun : block + (16 + 32 * j) + l = block + (16 + (2 * j / 2 * 32 + l)) := by omega
    simp [quantMins, hrun]
  · have hrun : block + (16 + 32 * j) + l = block + (16 + ((2 * j + 1) / 2 * 32 + l)) := by omega
    have hlt := hbyte (block + (16 + ((2 * j + 1) / 2 * 32 + l)))
    have hodd : (2 * j + 1) % 2 = 1 := by omega
    simp only [quantMins, hrun, hodd, if_true]
    omega

theorem dequantizeRowQ5K_fills (hbyte : ∀ i, byte i < 256) (count : ℕ) :
    FillsRange (dequantizeRowQ5K ops byte (count * 256)) 0 (count * 256) fun c =>
      decoded ops byte 13 c (quant byte 13 c) := by
  refine dequantizeRowMins_fills (.inr rfl) (fun block j l => ?_) (fun block j l => ?_) count
  · have hrun : block + (48 + 32 * j) + l = block + (48 + (2 * j / 2 * 32 + l)) := by omega
    simp [quantMins, hrun]
  · have hrun : block + (48 + 32 * j) + l = block + (48 + ((2 * j + 1) / 2 * 32 + l)) := by omega
    have hlt := hbyte (block + (48 + ((2 * j + 1) / 2 * 32 + l)))
    have hodd : (2 * j + 1) % 2 = 1 := by omega
    have hbit : 2 * 2 ^ (2 * j) = 2 ^ (2 * j + 1) := by ring
    simp only [quantMins, hrun, hodd, hbit, Nat.reduceEqDiff, if_false]
    omega

/-- Every column is decoded once, from the integer that its block has for it. -/
theorem dequantizeRow_fills (hbyte : ∀ i, byte i < 256) (htype : repackSupported type = true)
    (hk : k % repackBlockSize type = 0) :
    FillsRange (dequantizeRow ops byte type k) 0 k fun c =>
      decoded ops byte type c (quant byte type c) := by
  have hcount : k = k / repackBlockSize type * repackBlockSize type :=
    (Nat.div_mul_cancel (Nat.dvd_of_mod_eq_zero hk)).symm
  rw [hcount]
  rcases of_decide_eq_true htype with rfl | rfl | rfl | rfl
  · exact dequantizeRowQ80_fills _
  · exact dequantizeRowQ4K_fills hbyte _
  · exact dequantizeRowQ5K_fills hbyte _
  · exact dequantizeRowQ6K_fills _

end Decoders

end Arcint.Gguf.Packing
