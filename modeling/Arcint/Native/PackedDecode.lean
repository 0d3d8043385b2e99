import Arcint.Native.ExpertDecode
import Mathlib.Tactic.IntervalCases

/-! # The packed blocks

The graph takes the fields of a packed block apart with floats: a shift is a division and a floor, a
mask what remains of a multiple.
-/

namespace Arcint.Native

open Foundation Kernel Tensor

/-! ## Shifts and masks in floats -/

theorem floorRest_shape (x divisors : Tensor ℚ) (width : ℚ) :
    (floorRest x divisors width).shape = broadcastShape x.shape divisors.shape := by
  simp [floorRest, mul, Tensor.zipWith, Tensor.map, scalar, broadcastShape_nil,
    broadcastShape_self]

theorem floorRest_get {x divisors : Tensor ℚ} {width : ℚ} {idx : List ℕ}
    (hinside : Inside (broadcastShape x.shape divisors.shape) idx) :
    (floorRest x divisors width).get idx =
      let quotient : ℚ := ⌊x.get (broadcastIndex x.shape idx) /
        divisors.get (broadcastIndex divisors.shape idx)⌋
      quotient - (⌊quotient / width⌋ : ℚ) * width := by
  have hscalar : broadcastIndex [] idx = [] := rfl
  simp only [floorRest, mul, Tensor.zipWith, Tensor.map, scalar, broadcastShape_nil,
    broadcastIndex_self hinside]

/-- A division of naturals, and what remains of the width. -/
theorem floor_rest (a b width : ℕ) :
    (⌊(a : ℚ) / b⌋ : ℚ) - (⌊(⌊(a : ℚ) / b⌋ : ℚ) / width⌋ : ℚ) * width =
      (a / b % width : ℕ) := by
  have hquotient : ∀ c d : ℕ, ⌊(c : ℚ) / d⌋ = ((c / d : ℕ) : ℤ) :=
    fun c d => Rat.floor_natCast_div_natCast c d
  have hmod : ((a / b % width : ℕ) : ℚ) + width * ((a / b / width : ℕ) : ℚ) = (a / b : ℕ) := by
    exact_mod_cast Nat.mod_add_div (a / b) width
  rw [hquotient, Int.cast_natCast, hquotient, Int.cast_natCast, ← hmod]
  ring

section Fields

variable {e out nblk : ℕ} {i n ib s l m v : ℕ}

/-- Of a byte of each group of 32, the bits of each eighth value. -/
theorem floorRest_field {bytes : Tensor ℕ} (hshape : bytes.shape = [e, out, nblk, 8])
    (divisors : ℕ → ℕ) (width : ℕ) (hi : i < e) (hn : n < out) (hib : ib < nblk) (hs : s < 8)
    (hl : l < 4) :
    (floorRest (f32 bytes).unsqueezeLast (Tensor.constant [4] fun l => (divisors l : ℚ)) width).get
        [i, n, ib, s, l] =
      (bytes.get [i, n, ib, s] / divisors l % width : ℕ) := by
  have hlast : (f32 bytes).unsqueezeLast.shape = [e, out, nblk, 8, 1] := by
    simp [unsqueezeLast, f32, hshape]
  have hbroadcast : broadcastShape [e, out, nblk, 8, 1] [4] = [e, out, nblk, 8, 4] := by
    simp [broadcastShape, broadcastShape.joinDims]
  have hone : broadcastIndex [e, out, nblk, 8, 1] [i, n, ib, s, l] = [i, n, ib, s, 0] := by
    simp [broadcastIndex, repeated_of_lt, *]
  have hdivisor : broadcastIndex [4] [i, n, ib, s, l] = [l] := by simp [broadcastIndex]
  have hinside : Inside [e, out, nblk, 8, 4] [i, n, ib, s, l] := by simp [*]
  rw [floorRest_get (by rwa [hlast, Tensor.constant, hbroadcast])]
  simp only [hlast, Tensor.constant, hone, hdivisor]
  simp only [unsqueezeLast, f32, Tensor.map, List.dropLast, ravel, List.prod_nil, Nat.mul_one,
    Nat.add_zero, floor_rest]

/-- The eights of a block. -/
theorem reshape_block {α : Type} {t : Tensor α} (hshape : t.shape = [e, out, nblk, 8, 4, 8])
    (hi : i < e) (hn : n < out) (hib : ib < nblk) (hs : s < 8) (hl : l < 4) (hm : m < 8) :
    (t.reshape [e, out, nblk, 256]).get [i, n, ib, s * 32 + (l * 8 + m)] =
      t.get [i, n, ib, s, l, m] := by
  refine reshape_get (by simp [*]) ?_
  rw [hshape]
  refine ravel_cons_congr _ (by simp) (ravel_cons_congr _ (by simp) ?_)
  simp [ravel]

/-- The eights of a block, its groups counted with those of the others. -/
theorem reshape_groups {α : Type} {t : Tensor α} (hshape : t.shape = [e, out, nblk * 8, 4, 8])
    (hi : i < e) (hn : n < out) (hib : ib < nblk) (hs : s < 8) (hl : l < 4) (hm : m < 8) :
    (t.reshape [e, out, nblk, 256]).get [i, n, ib, s * 32 + (l * 8 + m)] =
      t.get [i, n, ib * 8 + s, l, m] := by
  have hgroup := block_lt hib hs
  refine reshape_get (by simp [*]) ?_
  rw [hshape]
  refine ravel_cons_congr _ (by simp [mul_assoc]) (ravel_cons_congr _ (by simp [mul_assoc]) ?_)
  simp [ravel]
  ring

end Fields

/-! ## The fields of a block -/

section Parts

variable {H : Type} {value : H → ℚ} {c : Projection H} {e out nblk : ℕ} {i n ib s l m : ℕ}

/-- A byte of a block, from a field of it. -/
theorem slice_get {a b p : ℕ} :
    ((u8Constant [e, out, nblk, 80] c.weight).slice 3 a b).get [i, n, ib, p] =
      (c.weight (groupIndex out nblk i n ib * 80 + (a + p))).toNat :=
  congrArg (fun q => (c.weight q).toNat) ravel_group

/-- A byte of each group of 32. -/
theorem groupField_get {a b : ℕ} (hab : b - a = 8) (hi : i < e) (hn : n < out) (hib : ib < nblk)
    (hs : s < 8) :
    (((u8Constant [e, out, nblk, 80] c.weight).slice 3 a b).reshape [e, out, nblk, 8]).get
        [i, n, ib, s] =
      (c.weight (groupIndex out nblk i n ib * 80 + (a + s))).toNat := by
  have hshape : ((u8Constant [e, out, nblk, 80] c.weight).slice 3 a b).shape =
      [e, out, nblk, 8] := by
    simp [Tensor.slice, u8Constant, Tensor.constant, hab]
  have hinside : Inside ((u8Constant [e, out, nblk, 80] c.weight).slice 3 a b).shape
      [i, n, ib, s] := by simp [*]
  rw [reshape_get hinside (by rw [hshape]), slice_get]

theorem signField_get (hi : i < e) (hn : n < out) (hib : ib < nblk) (hs : s < 8) (hl : l < 4) :
    (((u8Constant [e, out, nblk, 80] c.weight).slice 3 32 64).reshape [e, out, nblk * 8, 4]).get
        [i, n, ib * 8 + s, l] =
      (c.weight (groupIndex out nblk i n ib * 80 + (32 + (s * 4 + l)))).toNat := by
  have hlast : s * 4 + l < 64 - 32 := @block_lt 8 4 s l hs hl
  have hinside : Inside ((u8Constant [e, out, nblk, 80] c.weight).slice 3 32 64).shape
      [i, n, ib, s * 4 + l] := by
    simp [Tensor.slice, u8Constant, Tensor.constant, *]
  rw [← slice_get (b := 64)]
  refine reshape_get hinside ?_
  refine ravel_cons_congr _ (by simp [mul_assoc]) (ravel_cons_congr _ (by simp [mul_assoc]) ?_)
  simp [ravel]
  ring

/-- The magnitudes of a block. -/
theorem gridBlock_get {rows : ℕ} {words : List ℕ} {indices : Tensor ℕ}
    (hshape : indices.shape = [e, out, nblk, 8, 4]) (hi : i < e) (hn : n < out) (hib : ib < nblk)
    (hs : s < 8) (hl : l < 4) (hm : m < 8) :
    (((gridConstant rows 8 words).gather indices).reshape [e, out, nblk, 256]).get
        [i, n, ib, s * 32 + (l * 8 + m)] =
      (words.getD (indices.get [i, n, ib, s, l]) 0 / 256 ^ m % 256 : ℕ) := by
  have hgather : ((gridConstant rows 8 words).gather indices).shape = [e, out, nblk, 8, 4, 8] := by
    simp [Tensor.gather, hshape, gridConstant, Tensor.constant]
  rw [reshape_block hgather hi hn hib hs hl hm]
  simp [Tensor.gather, hshape, gridConstant, Tensor.constant, ravel, block_div hm,
    Nat.mod_eq_of_lt hm]

/-- The signs of a block. -/
theorem signBlock_get (hi : i < e) (hn : n < out) (hib : ib < nblk) (hs : s < 8) (hl : l < 4)
    (hm : m < 8) :
    let w := u8Constant [e, out, nblk, 80] c.weight
    ((signSelect ((w.slice 3 32 64).reshape [e, out, nblk * 8, 4])).reshape
        [e, out, nblk, 256]).get [i, n, ib, s * 32 + (l * 8 + m)] =
      if Nat.land (c.weight (groupIndex out nblk i n ib * 80 + (32 + (s * 4 + l)))).toNat
        (kmaskIq2xs.getD m 0) ≠ 0 then -1 else 1 := by
  intro w
  rw [reshape_groups (signSelect_shape rfl) hi hn hib hs hl hm,
    signSelect_get rfl hi hn (block_lt hib hs) hl hm, signField_get hi hn hib hs hl]

theorem rest_shape {bytes : Tensor ℕ} (hshape : bytes.shape = [e, out, nblk, 8])
    (divisors : ℕ → ℚ) (width : ℚ) :
    (floorRest (f32 bytes).unsqueezeLast (Tensor.constant [4] divisors) width).shape =
      [e, out, nblk, 8, 4] := by
  simp [floorRest_shape, unsqueezeLast, f32, Tensor.map, Tensor.constant, hshape, broadcastShape,
    broadcastShape.joinDims]

theorem packedIndex_shape {w : Tensor ℕ} :
    (packedIndex e out nblk w).shape = [e, out, nblk, 8, 4] := by
  have hmul := zipWith_scalar_shape (· * ·)
    (floorRest (f32 ((w.slice 3 64 72).reshape [e, out, nblk, 8])).unsqueezeLast
      (Tensor.constant [4] fun l => [1, 4, 16, 64].getD l 0) 4) (256 : ℚ)
  rw [rest_shape rfl] at hmul
  simp only [packedIndex, mul, Tensor.zipWith] at hmul ⊢
  rw [hmul]
  exact broadcastShape_self _

/-- The low bits of an index and two more. -/
theorem packedIndex_get (hi : i < e) (hn : n < out) (hib : ib < nblk) (hs : s < 8) (hl : l < 4) :
    (packedIndex e out nblk (u8Constant [e, out, nblk, 80] c.weight)).get [i, n, ib, s, l] =
      ((c.weight (groupIndex out nblk i n ib * 80 + (s * 4 + l))).toNat +
        (c.weight (groupIndex out nblk i n ib * 80 + (64 + s))).toNat / 2 ^ (2 * l) % 4 * 2 ^ 8 :
        ℕ) := by
  let w := u8Constant [e, out, nblk, 80] c.weight
  let qh := (w.slice 3 64 72).reshape [e, out, nblk, 8]
  let high := floorRest (f32 qh).unsqueezeLast
    (Tensor.constant [4] fun l => [1, 4, 16, 64].getD l 0) 4
  have hinside : Inside [e, out, nblk, 8, 4] [i, n, ib, s, l] := by simp [*]
  have hlow : (f32 ((w.slice 3 0 32).reshape [e, out, nblk, 8, 4])).get [i, n, ib, s, l] =
      ((c.weight (groupIndex out nblk i n ib * 80 + (s * 4 + l))).toNat : ℚ) := by
    have hjoin : ((w.slice 3 0 32).reshape [e, out, nblk, 8, 4]).get [i, n, ib, s, l] =
        (w.slice 3 0 32).get [i, n, ib, s * 4 + l] := reshape_join rfl hi hn hib hs hl
    rw [slice_get, Nat.zero_add] at hjoin
    exact congrArg Nat.cast hjoin
  have hdivisors : (fun l => ([1, 4, 16, 64] : List ℚ).getD l 0) =
      fun l => (([1, 4, 16, 64] : List ℕ).getD l 0 : ℚ) := by
    funext l
    rcases l with _ | _ | _ | _ | l <;> simp
  have hpow : ([1, 4, 16, 64] : List ℕ).getD l 0 = 2 ^ (2 * l) := by
    interval_cases l <;> rfl
  have hhigh : high.get [i, n, ib, s, l] =
      ((c.weight (groupIndex out nblk i n ib * 80 + (64 + s))).toNat / 2 ^ (2 * l) % 4 : ℕ) := by
    have hfield := @floorRest_field e out nblk i n ib s l qh rfl
      (fun l => [1, 4, 16, 64].getD l 0) 4 hi hn hib hs hl
    rw [groupField_get rfl hi hn hib hs, hpow] at hfield
    simp only [high, f32, hdivisors]
    exact_mod_cast hfield
  have hshape : high.shape = [e, out, nblk, 8, 4] := rest_shape rfl _ _
  have hmul : (mul high (scalar 256)).get [i, n, ib, s, l] = high.get [i, n, ib, s, l] * 256 :=
    zipWith_scalar_get (by rwa [hshape])
  have hmulShape : (mul high (scalar 256)).shape = high.shape := zipWith_scalar_shape _ _ _
  rw [packedIndex, zipWith_get hinside (by rwa [hmulShape, hshape]), hmul, hlow, hhigh]
  push_cast
  rfl

theorem packedScale32_shape {w : Tensor ℕ} :
    (packedScale32 e out nblk w).shape = [e, out, nblk, 256] := rfl

/-- The nibble of two eights of a group. -/
theorem packedScale32_get (hi : i < e) (hn : n < out) (hib : ib < nblk) (hs : s < 8) (hl : l < 4)
    (hm : m < 8) :
    let byte := (c.weight (groupIndex out nblk i n ib * 80 + (72 + s))).toNat
    (packedScale32 e out nblk (u8Constant [e, out, nblk, 80] c.weight)).get
        [i, n, ib, s * 32 + (l * 8 + m)] =
      ((if l < 2 then byte % 16 else byte / 16 : ℕ) : ℚ) := by
  intro byte
  let scb := ((u8Constant [e, out, nblk, 80] c.weight).slice 3 72 80).reshape [e, out, nblk, 8]
  let nib := floorRest (f32 scb).unsqueezeLast
    (Tensor.constant [4] fun l => [1, 1, 16, 16].getD l 0) 16
  have hdivisors : (fun l => ([1, 1, 16, 16] : List ℚ).getD l 0) =
      fun l => (([1, 1, 16, 16] : List ℕ).getD l 0 : ℚ) := by
    funext l
    rcases l with _ | _ | _ | _ | l <;> simp
  have hbyte : byte < 256 := (c.weight _).toNat_lt
  have hnibble : byte / ([1, 1, 16, 16] : List ℕ).getD l 0 % 16 =
      if l < 2 then byte % 16 else byte / 16 := by
    interval_cases l <;> simp <;> omega
  have hnib : nib.get [i, n, ib, s, l] = (if l < 2 then byte % 16 else byte / 16 : ℕ) := by
    have hfield := @floorRest_field e out nblk i n ib s l scb rfl
      (fun l => [1, 1, 16, 16].getD l 0) 16 hi hn hib hs hl
    rw [groupField_get rfl hi hn hib hs, hnibble] at hfield
    simp only [nib, f32, hdivisors]
    exact_mod_cast hfield
  have hone : broadcastIndex [e, out, nblk, 8, 4, 1] [i, n, ib, s, l, m] = [i, n, ib, s, l, 0] := by
    simp [broadcastIndex, repeated_of_lt, *]
  have hshape : nib.shape = [e, out, nblk, 8, 4] := rest_shape rfl _ _
  have hlast : (nib.reshape [e, out, nblk, 8, 4, 1]).get [i, n, ib, s, l, 0] =
      nib.get [i, n, ib, s, l] := by
    refine reshape_get (by simp [*]) ?_
    simp [hshape, ravel]
  rw [packedScale32, reshape_block rfl hi hn hib hs hl hm, ← hnib, ← hlast]
  exact congrArg (nib.reshape [e, out, nblk, 8, 4, 1]).get hone

section Scale

variable {sc32 : Tensor ℚ} (hshape : sc32.shape = [e, out, nblk, 256])
include hshape

theorem scaleSum_shape :
    (mul (Tensor.constant [e, out, nblk, 1] fun i => value (c.scale i))
      (Tensor.zipWith (· + ·) (Tensor.scalar (1 / 2)) sc32)).shape = [e, out, nblk, 256] := by
  have hnil : broadcastShape [] [e, out, nblk, 256] = [e, out, nblk, 256] := by
    simp [broadcastShape, broadcastShape.joinDims]
  have hrow : broadcastShape [e, out, nblk, 1] [e, out, nblk, 256] = [e, out, nblk, 256] := by
    simp [broadcastShape, broadcastShape.joinDims]
  simp only [mul, Tensor.zipWith, Tensor.constant, Tensor.scalar, hshape, hnil, hrow]

/-- The scale of a block, with that of a group. -/
theorem blockScale_get (hi : i < e) (hn : n < out) (hib : ib < nblk) {v : ℕ} (hv : v < 256) :
    (mul (mul (Tensor.constant [e, out, nblk, 1] fun i => value (c.scale i))
      (Tensor.zipWith (· + ·) (Tensor.scalar (1 / 2)) sc32)) (Tensor.scalar (1 / 4))).get
        [i, n, ib, v] =
      value (c.scale (groupIndex out nblk i n ib)) * (1 / 2 + sc32.get [i, n, ib, v]) *
        (1 / 4) := by
  have hinside : Inside [e, out, nblk, 256] [i, n, ib, v] := by simp [*]
  have hone : broadcastIndex [e, out, nblk, 1] [i, n, ib, v] = [i, n, ib, 0] := by
    simp [broadcastIndex, repeated_of_lt, *]
  have hnil : broadcastShape [] [e, out, nblk, 256] = [e, out, nblk, 256] := by
    simp [broadcastShape, broadcastShape.joinDims]
  rw [mul, zipWith_scalar_get (by rwa [scaleSum_shape hshape])]
  simp only [mul, Tensor.zipWith, Tensor.constant, Tensor.scalar, hshape, hnil, hone,
    broadcastIndex_self hinside, ravel_group, Nat.mul_one, Nat.add_zero]

end Scale

/-- Three factors of a block's columns. -/
theorem product_get {mag sign scale : Tensor ℚ} {inn d : ℕ}
    (hmag : mag.shape = [e, out, inn / d, d]) (hsign : sign.shape = [e, out, inn / d, d])
    (hscale : scale.shape = [e, out, inn / d, d]) (hdvd : d ∣ inn) (hi : i < e) (hn : n < out)
    (hib : ib < inn / d) {v : ℕ} (hv : v < d) :
    ((mul (mul mag sign) scale).reshape [e, out, inn]).get [i, n, ib * d + v] =
      mag.get [i, n, ib, v] * sign.get [i, n, ib, v] * scale.get [i, n, ib, v] := by
  have hinside : Inside [e, out, inn / d, d] [i, n, ib, v] := by simp [*]
  have hshape : (mul mag sign).shape = [e, out, inn / d, d] :=
    (mul_shape (hmag.trans hsign.symm)).trans hsign
  have hshape' : (mul (mul mag sign) scale).shape = [e, out, inn / d, d] :=
    (mul_shape (hshape.trans hscale.symm)).trans hscale
  rw [rows_get hshape' hdvd hi hn hib hv, mul_get (by rwa [hshape]) (by rwa [hscale]),
    mul_get (by rwa [hmag]) (by rwa [hsign])]

end Parts

/-! ## The product -/

section Column

variable {H : Type} {value : H → ℚ} {half : ℚ → H} {act : ℚ → ℚ} {c : Projection H}
variable {e out inn i n ib s j : ℕ}

/-- The place of a packed byte in the slot of its expert. -/
theorem slot_packed {l : ℕ} (hdvd : 256 ∣ inn) :
    i * (out * inn / 256 * 80) + (n * (inn / 256) * 80 + ib * 80 + l) =
      groupIndex out (inn / 256) i n ib * 80 + l := by
  rw [Nat.mul_div_assoc out hdvd, groupIndex]
  ring

theorem packed_scale : (expertSlot .iq2SPacked out inn i c).scale (n * (inn / 256) + ib) =
    c.scale (groupIndex out (inn / 256) i n ib) := by
  refine congrArg c.scale ?_
  rw [WeightFormat.scaleStride, groupIndex]
  ring

variable (hdvd : 256 ∣ inn) (hi : i < e) (hn : n < out) (hib : ib < inn / 256) (hs : s < 8)
  (hj : j < 32)
include hdvd hi hn hib hs hj

theorem iq2sPackedProduct_eq (x : ℚ) :
    iq2sPackedProduct (exactFloats value half act) blockTables
        (expertSlot .iq2SPacked out inn i c).weight (expertSlot .iq2SPacked out inn i c).scale
        n inn (ib, s) j x =
      x * (iq2SPackedChain value e out inn c).get [i, n, blockStart (ib, s) + j] := by
  obtain ⟨l, hl, m, hm, rfl⟩ := exists_block (show j < 4 * 8 from hj)
  have hv : s * 32 + (l * 8 + m) < 256 := by omega
  have hinside : Inside [e, out, inn / 256, 256] [i, n, ib, s * 32 + (l * 8 + m)] := by simp [*]
  have hweight : ∀ p, (expertSlot .iq2SPacked out inn i c).weight
      (n * (inn / 256) * 80 + ib * 80 + p) =
      c.weight (groupIndex out (inn / 256) i n ib * 80 + p) := fun p =>
    congrArg c.weight (slot_packed hdvd)
  have hcolumn : blockStart (ib, s) + (l * 8 + m) = ib * 256 + (s * 32 + (l * 8 + m)) :=
    Nat.add_assoc _ _ _
  have hscale := @packed_scale H c out inn i n ib
  have hindex := packedIndex_get (c := c) hi hn hib hs hl
  have hshape : ((packedIndex e out (inn / 256) (u8Constant [e, out, inn / 256, 80] c.weight)).map
      fun q => ⌊q⌋₊).shape = [e, out, inn / 256, 8, 4] :=
    (map_shape _ _).trans packedIndex_shape
  rw [hcolumn, iq2SPackedChain, product_get (d := 256) (reshape_shape _ _) (reshape_shape _ _) ?_
    hdvd hi hn hib hv, blockScale_get packedScale32_shape hi hn hib hv,
    signBlock_get hi hn hib hs hl hm, packedScale32_get hi hn hib hs hl hm,
    gridBlock_get hshape hi hn hib hs hl hm]
  · have hassoc : 32 + s * 4 + l = 32 + (s * 4 + l) := Nat.add_assoc _ _ _
    simp only [Tensor.map, hindex, Nat.floor_natCast, iq2sPackedProduct, nativeW3, subScale,
      signFactor_eq, hweight, hscale, block_div hm, block_mod hm, hassoc]
    simp only [exactFloats, blockTables, block_div hm, block_mod hm, Int.cast_natCast]
    -- the nibble is chosen in front of the product or behind it
    by_cases hlow : l < 2
    · simp only [hlow, if_true]
      ring
    · simp only [hlow, if_false]
      ring
  · exact (zipWith_scalar_shape _ _ _).trans (scaleSum_shape packedScale32_shape)

end Column

end Arcint.Native
