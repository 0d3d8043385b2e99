import Arcint.Foundation.Access
import Mathlib.Data.Rat.Defs
import Mathlib.Algebra.Ring.Rat

/-! # The card's decoders of the native formats

A subgroup keeps a sum for each token of a tile. Its lanes take the indices of a group of 32 in
turns, decode the weight there, and add what it makes of each token's activation; the lanes' sums
are added up last. The decoders of one row and those of several rows at once add the same products.
-/

namespace Arcint.Native.Kernel

open Foundation

/-- The float operations of the kernels, none of which is interpreted. -/
structure KernelFloats (F H : Type) where
  convertFloat : H → F
  convertHalf : F → H
  ofInt : ℤ → F
  literal : ℚ → F
  add : F → F → F
  mul : F → F → F
  gateAct : F → F
  /-- Of the lanes of a subgroup, in their order. -/
  reduceAdd : List F → F
  /-- What a decoded weight is rounded to before the multiply, if it is rounded. -/
  weightRound : Option (F → F)

/-- The constant arrays of the program. -/
structure KernelTables where
  iq4nlTable : ℕ → ℤ
  iq2xsMask : ℕ → ℕ
  iq2xsSigns : ℕ → ℕ
  iq3xxsGrid : ℕ → ℕ
  iq2sGrid : ℕ → ℕ

section Decoders

variable {F H : Type} (fl : KernelFloats F H) (tb : KernelTables) (sg : ℕ)

def nativeW2 (x a b : F) : F :=
  match fl.weightRound with
  | some round => fl.mul x (round (fl.mul a b))
  | none => fl.mul (fl.mul x a) b

def nativeW3 (x a b c : F) : F :=
  match fl.weightRound with
  | some round => fl.mul x (round (fl.mul (fl.mul a b) c))
  | none => fl.mul (fl.mul (fl.mul x a) b) c

/-- `(signs & NATIVE_IQ2XS_MASK[m]) ? -1.0f : 1.0f` -/
def signFactor (signs m : ℕ) : F :=
  if Nat.land signs (tb.iq2xsMask m) ≠ 0 then fl.literal (-1) else fl.literal 1

/-! ## One row -/

/-- The loops of a decoder. An index `j` of the group `g` stands for the column `start g + j`. -/
def dotTile {γ : Type} (groups : List γ) (start : γ → ℕ) (product : γ → ℕ → F → F) (x : ℕ → H)
    (xb : ℕ → ℕ) (cnt : ℕ) : ℕ → F :=
  let lane (idLocal : ℕ) : ℕ → F :=
    groups.foldl (fun acc g =>
      (strided idLocal 32 sg).foldl (fun acc j t =>
        if t < cnt then fl.add (acc t) (product g j (fl.convertFloat (x (xb t + (start g + j)))))
        else acc t) acc) fun _ => fl.literal 0
  -- what stands behind the tokens of the tile is never read
  fun t =>
    if t < cnt then fl.reduceAdd ((List.range sg).map fun idLocal => lane idLocal t)
    else fl.literal 0

def iq4nlProduct (W : ℕ → UInt8) (S : ℕ → H) (n N K g j : ℕ) (x : F) : F :=
  let s := S (g * N + n)
  let codes := n * (K / 2) + g * 16
  let byte := (W (codes + j / 2)).toNat
  let code := if j % 2 = 1 then byte / 16 else byte % 16
  nativeW2 fl x (fl.convertFloat s) (fl.ofInt (tb.iq4nlTable code))

def nativeDotIq4nlTile (W : ℕ → UInt8) (S : ℕ → H) (n N K : ℕ) (x : ℕ → H) (xb : ℕ → ℕ)
    (cnt : ℕ) : ℕ → F :=
  dotTile fl sg (List.range (K / 32)) (· * 32) (iq4nlProduct fl tb W S n N K) x xb cnt

def iq3xxsProduct (W Z : ℕ → UInt8) (S : ℕ → H) (n N K g j : ℕ) (x : F) : F :=
  let s := S (g * N + n)
  let gridix := n * (K / 4) + g * 8
  let signix := n * (K / 8) + g * 4
  let l := j / 8
  let m := j % 8
  let gi := (if m < 4 then W (gridix + 2 * l) else W (gridix + (2 * l + 1))).toNat
  let mag := fl.ofInt (tb.iq3xxsGrid (gi * 4 + m % 4))
  let signs := tb.iq2xsSigns ((Z (signix + l)).toNat % 128)
  nativeW3 fl x (fl.convertFloat s) mag (signFactor fl tb signs m)

def nativeDotIq3xxsTile (W Z : ℕ → UInt8) (S : ℕ → H) (n N K : ℕ) (x : ℕ → H) (xb : ℕ → ℕ)
    (cnt : ℕ) : ℕ → F :=
  dotTile fl sg (List.range (K / 32)) (· * 32) (iq3xxsProduct fl tb W Z S n N K) x xb cnt

def iq2sProduct (W Z : ℕ → UInt8) (S : ℕ → H) (n K g j : ℕ) (x : F) : F :=
  let s0 := S (n * (K / 32) * 2 + g * 2 + 0)
  let s1 := S (n * (K / 32) * 2 + g * 2 + 1)
  let wrow := n * (K / 4) + g * 8
  let zrow := n * (K / 8) + g * 4
  let l := j / 8
  let m := j % 8
  let gi := (W (wrow + 2 * l)).toNat + (W (wrow + (2 * l + 1))).toNat * 2 ^ 8
  let mag := fl.ofInt (tb.iq2sGrid (gi * 8 + m))
  let signs := (Z (zrow + l)).toNat
  let s := fl.convertFloat (if l < 2 then s0 else s1)
  nativeW3 fl x s mag (signFactor fl tb signs m)

def nativeDotIq2sTile (W Z : ℕ → UInt8) (S : ℕ → H) (n K : ℕ) (x : ℕ → H) (xb : ℕ → ℕ)
    (cnt : ℕ) : ℕ → F :=
  dotTile fl sg (List.range (K / 32)) (· * 32) (iq2sProduct fl tb W Z S n K) x xb cnt

/-- The groups of a row of blocks: the block, and the group of it. -/
def blockGroups (nblk : ℕ) : List (ℕ × ℕ) :=
  (List.range nblk).flatMap fun ib => (List.range 8).map fun ib32 => (ib, ib32)

def blockStart (g : ℕ × ℕ) : ℕ := g.1 * 256 + g.2 * 32

/-- A half more than the sub-block's nibble, of the block's scale. -/
def subScale (d : F) (nibble : ℕ) : F :=
  fl.mul (fl.mul d (fl.add (fl.literal (1 / 2)) (fl.ofInt nibble))) (fl.literal (1 / 4))

def iq2sPackedProduct (W : ℕ → UInt8) (S : ℕ → H) (n K : ℕ) (g : ℕ × ℕ) (j : ℕ) (x : F) : F :=
  let nblk := K / 256
  let brow := n * nblk * 80
  let blk := brow + g.1 * 80
  let d := fl.convertFloat (S (n * nblk + g.1))
  let scb := (W (blk + (72 + g.2))).toNat
  let dlo := subScale fl d (scb % 16)
  let dhi := subScale fl d (scb / 16)
  let qhb := (W (blk + (64 + g.2))).toNat
  let l := j / 8
  let m := j % 8
  let gi := (W (blk + (g.2 * 4 + l))).toNat + qhb / 2 ^ (2 * l) % 4 * 2 ^ 8
  let mag := fl.ofInt (tb.iq2sGrid (gi * 8 + m))
  let signs := (W (blk + (32 + g.2 * 4 + l))).toNat
  let dd := if l < 2 then dlo else dhi
  nativeW3 fl x dd mag (signFactor fl tb signs m)

def nativeDotIq2sPackedTile (W : ℕ → UInt8) (S : ℕ → H) (n K : ℕ) (x : ℕ → H) (xb : ℕ → ℕ)
    (cnt : ℕ) : ℕ → F :=
  dotTile fl sg (blockGroups (K / 256)) blockStart (iq2sPackedProduct fl tb W S n K) x xb cnt

def q80Product (W : ℕ → UInt8) (S : ℕ → H) (n N K g j : ℕ) (x : F) : F :=
  let s := S (g * N + n)
  let codes := n * K + g * 32
  nativeW2 fl x (fl.convertFloat s) (fl.ofInt (W (codes + j)).toInt8.toInt)

def nativeDotQ80Tile (W : ℕ → UInt8) (S : ℕ → H) (n N K : ℕ) (x : ℕ → H) (xb : ℕ → ℕ)
    (cnt : ℕ) : ℕ → F :=
  dotTile fl sg (List.range (K / 32)) (· * 32) (q80Product fl W S n N K) x xb cnt

/-! ## Several rows -/

/-- The loops of a decoder of `nr` rows from `n0` on. A row behind them is computed as the first. -/
def dotRows {γ : Type} (groups : List γ) (start : γ → ℕ) (product : ℕ → γ → ℕ → F → F) (n0 nr : ℕ)
    (x : ℕ → H) (xb : ℕ → ℕ) (cnt : ℕ) : ℕ → ℕ → F :=
  let row (r : ℕ) : ℕ := n0 + if r < nr then r else 0
  let lane (idLocal : ℕ) : ℕ → ℕ → F :=
    groups.foldl (fun acc g =>
      (strided idLocal 32 sg).foldl (fun acc j r t =>
        if t < cnt then
          fl.add (acc r t) (product (row r) g j (fl.convertFloat (x (xb t + (start g + j)))))
        else acc r t) acc) fun _ _ => fl.literal 0
  fun r t =>
    if r < nr ∧ t < cnt then fl.reduceAdd ((List.range sg).map fun idLocal => lane idLocal r t)
    else fl.literal 0

def nativeDotIq3xxsRows (W Z : ℕ → UInt8) (S : ℕ → H) (n0 nr N K : ℕ) (x : ℕ → H) (xb : ℕ → ℕ)
    (cnt : ℕ) : ℕ → ℕ → F :=
  dotRows fl sg (List.range (K / 32)) (· * 32) (fun n g j xv =>
    let fs := fl.convertFloat (S (g * N + n))
    let l := j / 8
    let m := j % 8
    let gridix := n * (K / 4) + g * 8
    let signix := n * (K / 8) + g * 4
    let gi := (if m < 4 then W (gridix + 2 * l) else W (gridix + (2 * l + 1))).toNat
    let wm := fl.ofInt (tb.iq3xxsGrid (gi * 4 + m % 4))
    let signs := tb.iq2xsSigns ((Z (signix + l)).toNat % 128)
    nativeW3 fl xv fs wm (signFactor fl tb signs m)) n0 nr x xb cnt

def nativeDotIq4nlRows (W : ℕ → UInt8) (S : ℕ → H) (n0 nr N K : ℕ) (x : ℕ → H) (xb : ℕ → ℕ)
    (cnt : ℕ) : ℕ → ℕ → F :=
  dotRows fl sg (List.range (K / 32)) (· * 32) (fun n g j xv =>
    let fs := fl.convertFloat (S (g * N + n))
    let byte := (W (n * (K / 2) + g * 16 + j / 2)).toNat
    let code := if j % 2 = 1 then byte / 16 else byte % 16
    let fv := fl.ofInt (tb.iq4nlTable code)
    nativeW2 fl xv fs fv) n0 nr x xb cnt

/-- One projection of `native_gu_iq2s_packed_rows`, which reads every activation once for both and
keeps sums of its own for each. -/
def iq2sPackedRows (W : ℕ → UInt8) (S : ℕ → H) (n0 nr K : ℕ) (x : ℕ → H) (xb : ℕ → ℕ)
    (cnt : ℕ) : ℕ → ℕ → F :=
  let nblk := K / 256
  dotRows fl sg (blockGroups nblk) blockStart (fun n g j xv =>
    let d := fl.convertFloat (S (n * nblk + g.1))
    let b := (n * nblk + g.1) * 80
    let sc := (W (b + (72 + g.2))).toNat
    let lo := subScale fl d (sc % 16)
    let hi := subScale fl d (sc / 16)
    let qh := (W (b + (64 + g.2))).toNat
    let l := j / 8
    let m := j % 8
    let gi := (W (b + (g.2 * 4 + l))).toNat + qh / 2 ^ (2 * l) % 4 * 2 ^ 8
    let wm := fl.ofInt (tb.iq2sGrid (gi * 8 + m))
    let ws := signFactor fl tb (W (b + (32 + g.2 * 4 + l))).toNat m
    let wd := if l < 2 then lo else hi
    nativeW3 fl xv wd wm ws) n0 nr x xb cnt

def nativeGuIq2sPackedRows (Wu : ℕ → UInt8) (Su : ℕ → H) (Wg : ℕ → UInt8) (Sg : ℕ → H)
    (n0 nr K : ℕ) (x : ℕ → H) (xb : ℕ → ℕ) (cnt : ℕ) : (ℕ → ℕ → F) × (ℕ → ℕ → F) :=
  (iq2sPackedRows fl tb sg Wu Su n0 nr K x xb cnt, iq2sPackedRows fl tb sg Wg Sg n0 nr K x xb cnt)

/-! ## One token -/

/-- The sum of one row for one token. -/
def dotToken {γ : Type} (groups : List γ) (start : γ → ℕ) (product : γ → ℕ → F → F)
    (x : ℕ → H) : F :=
  fl.reduceAdd ((List.range sg).map fun idLocal =>
    groups.foldl (fun acc g =>
      (strided idLocal 32 sg).foldl (fun acc j =>
        fl.add acc (product g j (fl.convertFloat (x (start g + j))))) acc) (fl.literal 0))

variable {fl tb sg}

/-- A token's sum does not depend on which tokens share its tile. -/
theorem dotTile_eq {γ : Type} {groups : List γ} {start : γ → ℕ} {product : γ → ℕ → F → F}
    {x : ℕ → H} {xb : ℕ → ℕ} {cnt t : ℕ} (ht : t < cnt) :
    dotTile fl sg groups start product x xb cnt t =
      dotToken fl sg groups start product fun k => x (xb t + k) := by
  refine (if_pos ht).trans ?_
  refine congrArg fl.reduceAdd (List.map_congr_left fun idLocal _ => ?_)
  -- each place of the array of sums goes through the loops by itself
  refine (List.foldl_hom (fun acc : ℕ → F => acc t) fun acc g => ?_).symm
  refine List.foldl_hom (fun acc : ℕ → F => acc t) fun acc j => ?_
  rw [if_pos ht]

/-- Nor does it depend on which rows are decoded with its row. -/
theorem dotRows_eq {γ : Type} {groups : List γ} {start : γ → ℕ} {product : ℕ → γ → ℕ → F → F}
    {n0 nr : ℕ} {x : ℕ → H} {xb : ℕ → ℕ} {cnt r t : ℕ} (hr : r < nr) (ht : t < cnt) :
    dotRows fl sg groups start product n0 nr x xb cnt r t =
      dotToken fl sg groups start (product (n0 + r)) fun k => x (xb t + k) := by
  refine (if_pos (And.intro hr ht)).trans ?_
  refine congrArg fl.reduceAdd (List.map_congr_left fun idLocal _ => ?_)
  refine (List.foldl_hom (fun acc : ℕ → ℕ → F => acc r t) fun acc g => ?_).symm
  refine List.foldl_hom (fun acc : ℕ → ℕ → F => acc r t) fun acc j => ?_
  simp only [ht, hr, if_true]

end Decoders

end Arcint.Native.Kernel
