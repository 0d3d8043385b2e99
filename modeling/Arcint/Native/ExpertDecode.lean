import Arcint.Native.ExactDot
import Arcint.Native.ExpertGraph

/-! # The graph and the card decode the same experts

What the graph's ops make of the constants stands at an expert's row and column with the factors
that the card's decoder multiplies an activation by.
-/

namespace Arcint.Native

open Foundation Kernel Tensor

/-! ## Changes of shape -/

section Shapes

variable {α : Type} {t : Tensor α} {e out g d a b : ℕ} {i n gi j l m : ℕ}

/-- The last axis, split into rows. -/
theorem reshape_join (hshape : t.shape = [e, out, g, a * b]) (hi : i < e) (hn : n < out)
    (hg : gi < g) (hl : l < a) (hm : m < b) :
    (t.reshape [e, out, g, a, b]).get [i, n, gi, l, m] = t.get [i, n, gi, l * b + m] := by
  have hlast := block_lt hl hm
  refine reshape_get (by simp [*]) ?_
  rw [hshape]
  refine ravel_cons_congr _ (by simp) (ravel_cons_congr _ (by simp) ?_)
  simp [ravel]

/-- Rows, put together to one axis. -/
theorem reshape_split (hshape : t.shape = [e, out, g, a, b]) (hi : i < e) (hn : n < out)
    (hg : gi < g) (hj : j < a * b) :
    (t.reshape [e, out, g, a * b]).get [i, n, gi, j] = t.get [i, n, gi, j / b, j % b] := by
  obtain ⟨l, hl, m, hm, rfl⟩ := exists_block hj
  rw [block_div hm, block_mod hm]
  refine reshape_get (by simp [*]) ?_
  rw [hshape]
  refine ravel_cons_congr _ (by simp) (ravel_cons_congr _ (by simp) ?_)
  simp [ravel]

/-- The columns of a row, from its groups. -/
theorem reshape_rows {k : ℕ} (hshape : t.shape = [e, out, g, d]) (hi : i < e) (hn : n < out)
    (hk : k < g * d) :
    (t.reshape [e, out, g * d]).get [i, n, k] = t.get [i, n, k / d, k % d] := by
  obtain ⟨gi, hg, j, hj, rfl⟩ := exists_block hk
  rw [block_div hj, block_mod hj]
  refine reshape_get (by simp [*]) ?_
  rw [hshape]
  refine ravel_cons_congr _ (by simp) ?_
  simp [ravel]

/-- The columns of whole groups. -/
theorem rows_get {inn j : ℕ} (hshape : t.shape = [e, out, inn / d, d]) (hdvd : d ∣ inn) (hi : i < e)
    (hn : n < out) (hg : gi < inn / d) (hj : j < d) :
    (t.reshape [e, out, inn]).get [i, n, gi * d + j] = t.get [i, n, gi, j] := by
  have hrows := @reshape_rows _ _ _ _ _ _ _ _ (gi * d + j) hshape hi hn (block_lt hg hj)
  rwa [Nat.div_mul_cancel hdvd, block_div hj, block_mod hj] at hrows

end Shapes

/-! ## The parts of a chain -/

section Parts

variable {H : Type} {value : H → ℚ} {e out inn g : ℕ} {c : Projection H} {i n k gi l m : ℕ}

/-- The group of a column, counted over all experts. -/
def groupIndex (out groups i n gi : ℕ) : ℕ := (i * out + n) * groups + gi

theorem ravel_group {d : ℕ} :
    ravel [e, out, g, d] [i, n, gi, l] = groupIndex out g i n gi * d + l := by
  simp only [ravel, groupIndex, List.prod_cons, List.prod_nil]
  ring

/-- Operands whose dimensions are equal. -/
theorem mul_get {x y : Tensor ℚ} {idx : List ℕ} (hx : Inside x.shape idx)
    (hy : Inside y.shape idx) : (mul x y).get idx = x.get idx * y.get idx :=
  zipWith_get hx hy

theorem mul_shape {x y : Tensor ℚ} (h : x.shape = y.shape) : (mul x y).shape = y.shape := by
  rw [mul, Tensor.zipWith, h, broadcastShape_self]

theorem mul_inside {x y : Tensor ℚ} {idx : List ℕ} (h : x.shape = y.shape)
    (hinside : Inside y.shape idx) : Inside (mul x y).shape idx := by
  rwa [mul_shape h]

theorem blockScaled_get {x : Tensor ℚ} {j : ℕ} (hx : x.shape = [e, out, inn / 32, 32])
    (hdvd : 32 ∣ inn) (hi : i < e) (hn : n < out) (hg : gi < inn / 32) (hj : j < 32) :
    (blockScaled value e out inn c x).get [i, n, gi * 32 + j] =
      x.get [i, n, gi, j] * value (c.scale (groupIndex out (inn / 32) i n gi)) := by
  have hinside : Inside x.shape [i, n, gi, j] := by simp [*]
  have hscale : broadcastIndex [e, out, inn / 32, 1] [i, n, gi, j] = [i, n, gi, 0] := by
    simp [broadcastIndex, repeated_of_lt, *]
  have hshape : (Tensor.zipWith (· * ·) x (Tensor.constant [e, out, inn / 32, 1] fun i =>
      value (c.scale i))).shape = [e, out, inn / 32, 32] := by
    simp [Tensor.zipWith, Tensor.constant, broadcastShape, broadcastShape.joinDims, hx]
  rw [blockScaled, mul, rows_get hshape hdvd hi hn hg hj]
  simp only [Tensor.zipWith, Tensor.constant, broadcastIndex_self hinside, hscale, ravel_group,
    Nat.mul_one, Nat.add_zero]

theorem signSelect_shape {masks : Tensor ℕ} (hshape : masks.shape = [e, out, g, 4]) :
    (signSelect masks).shape = [e, out, g, 4, 8] := by
  simp [signSelect, Tensor.map, Tensor.zipWith, Tensor.constant, Tensor.scalar, unsqueezeLast,
    hshape, broadcastShape, broadcastShape.joinDims]

/-- A bit of a mask decides a sign. -/
theorem signSelect_get {masks : Tensor ℕ} (hshape : masks.shape = [e, out, g, 4]) (hi : i < e)
    (hn : n < out) (hg : gi < g) (hl : l < 4) (hm : m < 8) :
    (signSelect masks).get [i, n, gi, l, m] =
      if Nat.land (masks.get [i, n, gi, l]) (kmaskIq2xs.getD m 0) ≠ 0 then -1 else 1 := by
  have hshape1 : masks.unsqueezeLast.shape = [e, out, g, 4, 1] := by
    simp [unsqueezeLast, hshape]
  have hbits : broadcastShape [e, out, g, 4, 1] [8] = [e, out, g, 4, 8] := by
    simp [broadcastShape, broadcastShape.joinDims]
  have hmask : broadcastIndex [e, out, g, 4, 1] [i, n, gi, l, m] = [i, n, gi, l, 0] := by
    simp [broadcastIndex, repeated_of_lt, *]
  have hbit : broadcastIndex [8] [i, n, gi, l, m] = [m] := by simp [broadcastIndex]
  have hinside : Inside [e, out, g, 4, 8] [i, n, gi, l, m] := by simp [*]
  simp only [signSelect, Tensor.map, Tensor.zipWith, Tensor.constant, hshape1, hbits,
    broadcastIndex_self hinside, hmask, hbit]
  simp [unsqueezeLast, ravel, Tensor.scalar, Nat.pos_iff_ne_zero]

/-- A byte of a grid's row. -/
theorem gather_get {rows a b : ℕ} {words : List ℕ} {indices : Tensor ℕ}
    (hshape : indices.shape = [e, out, g, a]) (hm : m < b) :
    ((gridConstant rows b words).gather indices).get [i, n, gi, l, m] =
      (words.getD (indices.get [i, n, gi, l]) 0 / 256 ^ m % 256 : ℕ) := by
  simp [Tensor.gather, hshape, gridConstant, Tensor.constant, ravel, block_div hm,
    Nat.mod_eq_of_lt hm]

theorem gather_shape {rows a b : ℕ} {words : List ℕ} {indices : Tensor ℕ}
    (hshape : indices.shape = [e, out, g, a]) :
    ((gridConstant rows b words).gather indices).shape = [e, out, g, a, b] := by
  simp [Tensor.gather, hshape, gridConstant, Tensor.constant]

/-- The magnitudes of a group. -/
theorem grid_get {rows a b : ℕ} {words : List ℕ} {indices : Tensor ℕ}
    (hshape : indices.shape = [e, out, g, a]) (hab : a * b = 32) (hi : i < e) (hn : n < out)
    (hg : gi < g) {j : ℕ} (hj : j < 32) :
    (((gridConstant rows b words).gather indices).reshape [e, out, g, 32]).get [i, n, gi, j] =
      (words.getD (indices.get [i, n, gi, j / b]) 0 / 256 ^ (j % b) % 256 : ℕ) := by
  have hb : 0 < b := Nat.pos_of_ne_zero fun hzero => by simp [hzero] at hab
  rw [← hab] at hj ⊢
  rw [reshape_split (gather_shape hshape) hi hn hg hj, gather_get hshape (Nat.mod_lt j hb)]

/-- The signs of a group. -/
theorem sign_get {masks : Tensor ℕ} (hshape : masks.shape = [e, out, g, 4]) (hi : i < e)
    (hn : n < out) (hg : gi < g) {j : ℕ} (hj : j < 32) :
    ((signSelect masks).reshape [e, out, g, 32]).get [i, n, gi, j] =
      if Nat.land (masks.get [i, n, gi, j / 8]) (kmaskIq2xs.getD (j % 8) 0) ≠ 0 then -1 else 1 := by
  have hsplit : ((signSelect masks).reshape [e, out, g, 32]).get [i, n, gi, j] =
      (signSelect masks).get [i, n, gi, j / 8, j % 8] :=
    reshape_split (signSelect_shape hshape) hi hn hg hj
  rw [hsplit, signSelect_get hshape hi hn hg (by omega) (Nat.mod_lt j (by decide))]

/-- An entry of a table of one dimension. -/
theorem gather1_get {α : Type} {size a : ℕ} {entry : ℕ → α} {indices : Tensor ℕ}
    (hshape : indices.shape = [e, out, g, a]) :
    ((Tensor.constant [size] entry).gather indices).get [i, n, gi, l] =
      entry (indices.get [i, n, gi, l]) := by
  simp [Tensor.gather, hshape, Tensor.constant, ravel]

theorem gather1_shape {α : Type} {size a : ℕ} {entry : ℕ → α} {indices : Tensor ℕ}
    (hshape : indices.shape = [e, out, g, a]) :
    ((Tensor.constant [size] entry).gather indices).shape = [e, out, g, a] := by
  simp [Tensor.gather, hshape, Tensor.constant]

end Parts

/-! ## The slots -/

section Slots

variable {H : Type} {c : Projection H} {out inn i n gi l : ℕ}

/-- The place of a group's byte in the slot of its expert. -/
theorem slot_place {width stride row : ℕ} (hstride : stride = out * (inn / 32 * width))
    (hrow : row = inn / 32 * width) :
    i * stride + (n * row + gi * width + l) = groupIndex out (inn / 32) i n gi * width + l := by
  rw [hstride, hrow, groupIndex]
  ring

theorem slot_scale {format : WeightFormat} (hformat : format ≠ .iq2S ∧ format ≠ .iq2SPacked)
    (hn : n < out) :
    (expertSlot format out inn i c).scale (gi * out + n) =
      c.scale (groupIndex out (inn / 32) i n gi) := by
  have hstride : format.scaleStride out inn 32 = inn / 32 * out := by
    cases format <;> simp_all [WeightFormat.scaleStride]
  have hplace : i * (inn / 32 * out) + (n * (inn / 32) + gi) =
      groupIndex out (inn / 32) i n gi := by
    rw [groupIndex]
    ring
  cases format with
  | iq2S => exact absurd rfl hformat.1
  | iq2SPacked => exact absurd rfl hformat.2
  | _ => simp only [expertSlot, hstride, block_div hn, block_mod hn, hplace]

end Slots

/-! ## The products -/

section Products

variable {H : Type} {value : H → ℚ} {half : ℚ → H} {act : ℚ → ℚ} {c : Projection H}
variable {e out inn i n g j : ℕ}

theorem nibble_eq (byte : UInt8) (j : ℕ) :
    (byte >>> UInt8.ofNat (j % 2 * 4) &&& 0xF).toNat =
      if j % 2 = 1 then byte.toNat / 16 else byte.toNat % 16 := by
  have hlt := byte.toNat_lt
  rcases Nat.mod_two_eq_zero_or_one j with hj | hj
  · have hlow := Nat.and_two_pow_sub_one_eq_mod byte.toNat 4
    simpa [hj] using hlow
  · have hhigh := Nat.and_two_pow_sub_one_eq_mod (byte.toNat / 16) 4
    rw [Nat.mod_eq_of_lt (by omega)] at hhigh
    simpa [hj, Nat.shiftRight_eq_div_pow] using hhigh

theorem u4Constant_get {groups : ℕ} {bytes : ℕ → UInt8} :
    (u4Constant [e, out, groups, 32] bytes).get [i, n, g, j] =
      let byte := (bytes (groupIndex out groups i n g * 16 + j / 2)).toNat
      if j % 2 = 1 then byte / 16 else byte % 16 := by
  have hplace : (groupIndex out groups i n g * 32 + j) / 2 =
      groupIndex out groups i n g * 16 + j / 2 := by omega
  have hparity : (groupIndex out groups i n g * 32 + j) % 2 = j % 2 := by omega
  simp only [u4Constant, Tensor.constant, ravel_group, nibble_eq, hplace, hparity]

/-- The bytes of a projection, by those of 32 values. -/
theorem stride_div {d width : ℕ} (hdvd : 32 ∣ inn) (hwidth : d * width = 32) :
    out * inn / d = out * (inn / 32 * width) := by
  obtain ⟨q, rfl⟩ := hdvd
  have hd : 0 < d := Nat.pos_of_ne_zero fun hzero => by simp [hzero] at hwidth
  have hsplit : out * (32 * q) = d * (out * (q * width)) := by
    rw [← hwidth]
    ring
  rw [hsplit, Nat.mul_div_cancel_left _ hd, Nat.mul_div_cancel_left _ (by decide)]

theorem signFactor_eq (signs m : ℕ) :
    signFactor (exactFloats value half act) blockTables signs m =
      if Nat.land signs (kmaskIq2xs.getD m 0) ≠ 0 then -1 else 1 := rfl

/-- A row of a grid, byte after byte. -/
theorem rowByte {words : List ℕ} {b : ℕ} (row : ℕ) {m : ℕ} (hm : m < b) :
    words.getD ((row * b + m) / b) 0 / 256 ^ ((row * b + m) % b) % 256 =
      words.getD row 0 / 256 ^ m % 256 := by
  rw [block_div hm, block_mod hm]

section Column

variable (hdvd : 32 ∣ inn) (hi : i < e) (hn : n < out) (hg : g < inn / 32) (hj : j < 32)
include hdvd hi hn hg hj

theorem iq4nlProduct_eq (x : ℚ) :
    iq4nlProduct (exactFloats value half act) blockTables (expertSlot .iq4Nl out inn i c).weight
        (expertSlot .iq4Nl out inn i c).scale n out inn g j x =
      x * (iq4NlChain value e out inn c).get [i, n, g * 32 + j] := by
  have hweight : (expertSlot .iq4Nl out inn i c).weight (n * (inn / 2) + g * 16 + j / 2) =
      c.weight (groupIndex out (inn / 32) i n g * 16 + j / 2) :=
    congrArg c.weight (slot_place (stride_div hdvd (by decide)) (by omega))
  have hscale := @slot_scale H c out inn i n g .iq4Nl (by decide) hn
  rw [iq4NlChain, blockScaled_get (gather1_shape rfl) hdvd hi hn hg hj,
    gather1_get rfl, u4Constant_get]
  simp only [iq4nlProduct, nativeW2, exactFloats, hweight, hscale, blockTables]
  ring

theorem q80Product_eq (x : ℚ) :
    q80Product (exactFloats value half act) (expertSlot .q80 out inn i c).weight
        (expertSlot .q80 out inn i c).scale n out inn g j x =
      x * (q80Chain value e out inn c).get [i, n, g * 32 + j] := by
  have hstride : out * inn = out * (inn / 32 * 32) := by rw [Nat.div_mul_cancel hdvd]
  have hweight : (expertSlot .q80 out inn i c).weight (n * inn + g * 32 + j) =
      c.weight (groupIndex out (inn / 32) i n g * 32 + j) :=
    congrArg c.weight (slot_place hstride (Nat.div_mul_cancel hdvd).symm)
  have hscale := @slot_scale H c out inn i n g .q80 (by decide) hn
  rw [q80Chain, blockScaled_get rfl hdvd hi hn hg hj]
  simp only [q80Product, nativeW2, exactFloats, hweight, hscale, Tensor.constant, ravel_group]
  ring

theorem iq3xxsProduct_eq
    (hseven : (c.zp (groupIndex out (inn / 32) i n g * 4 + j / 8)).toNat < 128) (x : ℚ) :
    iq3xxsProduct (exactFloats value half act) blockTables
        (expertSlot .iq3Xxs out inn i c).weight (expertSlot .iq3Xxs out inn i c).zp
        (expertSlot .iq3Xxs out inn i c).scale n out inn g j x =
      x * (iq3XxsChain value e out inn c).get [i, n, g * 32 + j] := by
  have hinside : Inside [e, out, inn / 32, 32] [i, n, g, j] := by simp [*]
  have hweight : ∀ l, (expertSlot .iq3Xxs out inn i c).weight (n * (inn / 4) + g * 8 + l) =
      c.weight (groupIndex out (inn / 32) i n g * 8 + l) := fun l =>
    congrArg c.weight (slot_place (stride_div hdvd (by decide)) (by omega))
  have hsigns : ∀ l, (expertSlot .iq3Xxs out inn i c).zp (n * (inn / 8) + g * 4 + l) =
      c.zp (groupIndex out (inn / 32) i n g * 4 + l) := fun l =>
    congrArg c.zp (slot_place (stride_div hdvd (by decide)) (by omega))
  have hscale := @slot_scale H c out inn i n g .iq3Xxs (by decide) hn
  -- of the two indices of eight values, the one for this half of them
  have hhalf : ∀ f : ℕ → UInt8, (if j % 8 < 4 then f (2 * (j / 8)) else f (2 * (j / 8) + 1)) =
      f (j / 4) := by
    intro f
    split
    · exact congrArg f (by omega)
    · exact congrArg f (by omega)
  have hbyte : j % 8 % 4 = j % 4 := by omega
  rw [iq3XxsChain, blockScaled_get (mul_shape rfl) hdvd hi hn hg hj,
    mul_get hinside hinside, grid_get rfl rfl hi hn hg hj,
    sign_get (gather1_shape rfl) hi hn hg hj, gather1_get rfl]
  simp only [iq3xxsProduct, nativeW3, signFactor_eq, hweight, hsigns, hscale,
    hhalf fun l => c.weight (groupIndex out (inn / 32) i n g * 8 + l), hbyte]
  simp only [exactFloats, blockTables, rowByte _ (Nat.mod_lt j (by decide : 0 < 4)),
    Nat.mod_eq_of_lt hseven, u8Constant, Tensor.constant, ravel_group, Int.cast_natCast]
  ring

omit hdvd hi hn hg hj in
theorem index_shape :
    let w5 := (u8Constant [e, out, inn / 32, 8] c.weight).reshape [e, out, inn / 32, 4, 2]
    (Tensor.zipWith (· + ·) (w5.gatherLast 0)
      (Tensor.zipWith (· * ·) (w5.gatherLast 1) (Tensor.scalar 256))).shape =
      [e, out, inn / 32, 4] := by
  intro w5
  have hshape := zipWith_scalar_shape (· * ·) (w5.gatherLast 1) 256
  simp only [Tensor.zipWith] at hshape ⊢
  rw [hshape]
  exact broadcastShape_self _

omit hdvd hj in
/-- The two bytes of an index. -/
theorem index_get {l : ℕ} (hl : l < 4) :
    let w5 := (u8Constant [e, out, inn / 32, 8] c.weight).reshape [e, out, inn / 32, 4, 2]
    (Tensor.zipWith (· + ·) (w5.gatherLast 0)
      (Tensor.zipWith (· * ·) (w5.gatherLast 1) (Tensor.scalar 256))).get [i, n, g, l] =
      (c.weight (groupIndex out (inn / 32) i n g * 8 + 2 * l)).toNat +
        (c.weight (groupIndex out (inn / 32) i n g * 8 + (2 * l + 1))).toNat * 2 ^ 8 := by
  intro w5
  have hinside : Inside [e, out, inn / 32, 4] [i, n, g, l] := by simp [*]
  have hbyte : ∀ b < 2, (w5.gatherLast b).get [i, n, g, l] =
      (c.weight (groupIndex out (inn / 32) i n g * 8 + (2 * l + b))).toNat := by
    intro b hb
    have hjoin : w5.get [i, n, g, l, b] = (u8Constant [e, out, inn / 32, 8] c.weight).get
        [i, n, g, l * 2 + b] := reshape_join rfl hi hn hg hl hb
    refine hjoin.trans ?_
    rw [u8Constant, Tensor.constant, Nat.mul_comm l 2]
    exact congrArg (fun p => (c.weight p).toNat) ravel_group
  have hhigh := @zipWith_scalar_get _ _ _ (· * ·) (w5.gatherLast 1) 256 _ hinside
  have hshape : (Tensor.zipWith (· * ·) (w5.gatherLast 1) (Tensor.scalar 256)).shape =
      [e, out, inn / 32, 4] := zipWith_scalar_shape _ _ _
  rw [zipWith_get hinside (by rwa [hshape]), hhigh, hbyte 0 (by decide), hbyte 1 (by decide)]
  rfl

omit hdvd in
/-- The scale of a half of the group. -/
theorem scale32_get :
    let sc2 := Tensor.constant [e, out, inn / 32, 2] fun i => value (c.scale i)
    let sc5 := sc2.reshape [e, out, inn / 32, 2, 1]
    ((sc5.broadcastTo [e, out, inn / 32, 2, 16]).reshape [e, out, inn / 32, 32]).get
        [i, n, g, j] =
      value (c.scale (groupIndex out (inn / 32) i n g * 2 + j / 16)) := by
  intro sc2 sc5
  have hhalf : j / 16 < 2 := by omega
  have hsplit : ((sc5.broadcastTo [e, out, inn / 32, 2, 16]).reshape [e, out, inn / 32, 32]).get
      [i, n, g, j] = (sc5.broadcastTo [e, out, inn / 32, 2, 16]).get [i, n, g, j / 16, j % 16] :=
    reshape_split (a := 2) (b := 16) rfl hi hn hg hj
  have hone : broadcastIndex [e, out, inn / 32, 2, 1] [i, n, g, j / 16, j % 16] =
      [i, n, g, j / 16, 0] := by
    simp [broadcastIndex, repeated_of_lt, *]
  have hjoin : sc5.get [i, n, g, j / 16, 0] = sc2.get [i, n, g, j / 16 * 1 + 0] :=
    reshape_join rfl hi hn hg hhalf Nat.one_pos
  rw [hsplit]
  refine (congrArg sc5.get hone).trans (hjoin.trans ?_)
  exact congrArg (fun p => value (c.scale p)) (by rw [ravel_group]; omega)

theorem iq2sProduct_eq (x : ℚ) :
    iq2sProduct (exactFloats value half act) blockTables
        (expertSlot .iq2S out inn i c).weight (expertSlot .iq2S out inn i c).zp
        (expertSlot .iq2S out inn i c).scale n inn g j x =
      x * (iq2SChain value e out inn c).get [i, n, g * 32 + j] := by
  have hinside : Inside [e, out, inn / 32, 32] [i, n, g, j] := by simp [*]
  have hweight : ∀ l, (expertSlot .iq2S out inn i c).weight (n * (inn / 4) + g * 8 + l) =
      c.weight (groupIndex out (inn / 32) i n g * 8 + l) := fun l =>
    congrArg c.weight (slot_place (stride_div hdvd (by decide)) (by omega))
  have hsigns : ∀ l, (expertSlot .iq2S out inn i c).zp (n * (inn / 8) + g * 4 + l) =
      c.zp (groupIndex out (inn / 32) i n g * 4 + l) := fun l =>
    congrArg c.zp (slot_place (stride_div hdvd (by decide)) (by omega))
  have hscale : ∀ b, (expertSlot .iq2S out inn i c).scale (n * (inn / 32) * 2 + g * 2 + b) =
      c.scale (groupIndex out (inn / 32) i n g * 2 + b) := by
    intro b
    rw [Nat.mul_assoc]
    refine congrArg c.scale (slot_place ?_ rfl)
    rw [WeightFormat.scaleStride]
    ring
  have hlow : groupIndex out (inn / 32) i n g * 2 + j / 16 =
      groupIndex out (inn / 32) i n g * 2 + if j / 8 < 2 then 0 else 1 := by
    split <;> omega
  have heighth : j / 8 < 4 := by omega
  have hrows : (iq2SChain value e out inn c).get [i, n, g * 32 + j] = _ :=
    rows_get (mul_shape (mul_shape rfl)) hdvd hi hn hg hj
  rw [hrows, mul_get ?_ hinside, mul_get hinside hinside,
    grid_get (a := 4) index_shape rfl hi hn hg hj, sign_get rfl hi hn hg hj,
    scale32_get hi hn hg hj, index_get hi hn hg heighth, hlow]
  simp only [iq2sProduct, nativeW3, signFactor_eq, hweight, hsigns, hscale]
  simp only [exactFloats, blockTables, rowByte _ (Nat.mod_lt j (by decide : 0 < 8)),
    u8Constant, Tensor.constant, ravel_group, Int.cast_natCast]
  · split <;> ring
  · exact mul_inside rfl hinside

end Column

end Products

end Arcint.Native
