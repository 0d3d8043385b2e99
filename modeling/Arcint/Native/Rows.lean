import Arcint.Gguf.Quants
import Arcint.Native.Tables

/-! # Decoding rows of the native formats

The reader of the file decodes a row block by block. What `IQ3_XXS` uses of the floats besides the
other formats is their addition and a half.
-/

namespace Arcint.Native

open Foundation BinaryFormat Gguf
open Gguf.Packing (FloatOps f16at dequantizeRowQ80)

section Rows

variable {F : Type} (ops : FloatOps F) (byte : ℕ → ℕ)

/-! ## The decoders -/

def dequantizeRowIq4Nl (nElements : ℕ) : List (ℕ × F) :=
  (indicesBelow 32 nElements).flatMap fun b =>
    let block := b * 18
    let d := f16at ops byte block
    let qs := block + 2
    let y := b * 32
    (List.range 16).flatMap fun j =>
      [(y + j, ops.mul d (ops.ofInt (kIq4NlValues.getD (byte (qs + j) % 16) 0))),
        (y + (16 + j), ops.mul d (ops.ofInt (kIq4NlValues.getD (byte (qs + j) / 16) 0)))]

def dequantizeRowIq4Xs (nElements : ℕ) : List (ℕ × F) :=
  (indicesBelow 256 nElements).flatMap fun b =>
    let block := b * 136
    let d := f16at ops byte block
    let scalesH := byte (block + 2) + byte (block + 2 + 1) * 256
    let scalesL := block + 4
    (List.range 8).flatMap fun ib =>
      let y := b * 256 + ib * 32
      let qs := block + 8 + ib * 16
      let ls := byte (scalesL + ib / 2) / 2 ^ (4 * (ib % 2)) % 16 + scalesH / 2 ^ (2 * ib) % 4 * 16
      let dl := ops.mul d (ops.ofInt ((ls : ℤ) - 32))
      (List.range 16).flatMap fun j =>
        [(y + j, ops.mul dl (ops.ofInt (kIq4NlValues.getD (byte (qs + j) % 16) 0))),
          (y + (16 + j), ops.mul dl (ops.ofInt (kIq4NlValues.getD (byte (qs + j) / 16) 0)))]

/-- A little-endian word of four bytes. -/
def u32at (p : ℕ) : ℕ :=
  byte p + byte (p + 1) * 2 ^ 8 + byte (p + 2) * 2 ^ 16 + byte (p + 3) * 2 ^ 24

def dequantizeRowIq3Xxs (add : F → F → F) (oneHalf : F) (nElements : ℕ) : List (ℕ × F) :=
  (indicesBelow 256 nElements).flatMap fun b =>
    let block := b * 98
    let d := f16at ops byte block
    (List.range 8).flatMap fun ib32 =>
      let qs := block + 2 + ib32 * 8
      let aux32 := u32at byte (block + 2 + 64 + 4 * ib32)
      let db := ops.mul (ops.mul d (add oneHalf (ops.ofInt (aux32 / 2 ^ 28 : ℕ)))) oneHalf
      (List.range 4).flatMap fun l =>
        let y := b * 256 + ib32 * 32 + l * 8
        let signs := kIq2xsSigns.getD (aux32 / 2 ^ (7 * l) % 128) 0
        let g1 (j : ℕ) : ℕ := kIq3xxsGrid.getD (byte (qs + 2 * l)) 0 / 256 ^ j % 256
        let g2 (j : ℕ) : ℕ := kIq3xxsGrid.getD (byte (qs + (2 * l + 1))) 0 / 256 ^ j % 256
        let sign (j : ℕ) : F :=
          if Nat.land signs (kIq2xsMask.getD j 0) ≠ 0 then ops.ofInt (-1) else ops.ofInt 1
        (List.range 4).flatMap fun j =>
          [(y + j, ops.mul (ops.mul db (ops.ofInt (g1 j))) (sign j)),
            (y + (4 + j), ops.mul (ops.mul db (ops.ofInt (g2 j))) (sign (j + 4)))]

/-- `dequantize_row`, of the types that experts are stored in. -/
def dequantizeRow (add : F → F → F) (oneHalf : F) (type nElements : ℕ) : List (ℕ × F) :=
  match type with
  | 8 => dequantizeRowQ80 ops byte nElements
  | 18 => dequantizeRowIq3Xxs ops byte add oneHalf nElements
  | 20 => dequantizeRowIq4Nl ops byte nElements
  | 23 => dequantizeRowIq4Xs ops byte nElements
  | _ => []

end Rows

/-- Exact arithmetic, over the halves that the reader reads. -/
def exactOps : FloatOps ℚ where
  mul := (· * ·)
  sub := (· - ·)
  div := (· / ·)
  max := Max.max
  positive x := 0 < x
  lround := Verdicts.lround
  ofInt n := n
  ofHalf h := binary32.value (f16ToF32 h)
  toHalf x := binary16.withSign (x < 0) (binary16.round (|x| * binary16.one))

/-- Two runs of places, written side by side. -/
theorem fillsRange_pairs {α : Type*} {first n : ℕ} {value : ℕ → α} {low high : ℕ → α}
    (hlow : ∀ l < n, low l = value l) (hhigh : ∀ l < n, high l = value (n + l)) :
    FillsRange ((List.range n).flatMap fun l => [(first + l, low l), (first + (n + l), high l)])
      first (2 * n) value := by
  intro w
  simp only [List.mem_flatMap, List.mem_range, List.mem_cons, List.not_mem_nil, or_false]
  constructor
  · rintro ⟨l, hl, rfl | rfl⟩
    · exact ⟨l, by omega, by rw [hlow l hl]⟩
    · exact ⟨n + l, by omega, by rw [hhigh l hl]⟩
  · rintro ⟨c, hc, rfl⟩
    rcases Nat.lt_or_ge c n with hfirst | hsecond
    · exact ⟨c, hfirst, .inl (by rw [hlow c hfirst])⟩
    · obtain ⟨l, rfl⟩ := Nat.exists_eq_add_of_le hsecond
      have hl : l < n := by omega
      exact ⟨l, hl, .inr (by rw [hhigh l hl])⟩

end Arcint.Native
