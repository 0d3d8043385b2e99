import Arcint.Gguf.Quants

/-! # What the rows of a repacked tensor hold -/

namespace Arcint.Gguf.Packing

open Foundation
open Verdicts (scaleMinK4 quantMins placeOf scaleMinK4_le)

/-- The half that is stored for the scale of a column. In `Q8_0` it is that of the block. -/
def scaleBits {F : Type} (ops : FloatOps F) (byte : ℕ → ℕ) (type c : ℕ) : ℕ :=
  if type = 8 then byte (c / 32 * 34) + byte (c / 32 * 34 + 1) * 256
  else ops.toHalf (scaleProduct ops byte type c)

namespace RepackedTensor

variable (r : RepackedTensor)

/-- The byte of a row that holds a column. -/
def columnByte (c : ℕ) : ℕ := c / if r.weightsType = .u4 then 2 else 1

/-- The integer of a column in its byte. -/
def readInt (c v : ℕ) : ℤ :=
  match r.weightsType with
  | .u4 => (v / 16 ^ (c % 2) % 16 : ℕ)
  | .u8 => v
  | .i8 => signed 1 v

end RepackedTensor

/-- The writes of a row stay in it, and what they leave is what the row says, every column at
its place. -/
structure RowHolds {F : Type} (ops : FloatOps F) (byte : ℕ → ℕ) (type : ℕ) (r : RepackedTensor)
    (dest : ℕ → ℕ) (writes : RowWrites) : Prop where
  weightsLt : ∀ edit ∈ writes.weights, edit.1 < r.rowWeights
  scaleLt : ∀ edit ∈ stores writes.scale, edit.1 < r.wgroups
  quant : ∀ c < r.k, ∃ v, EditsAt writes.weights (r.columnByte (dest c)) (fun _ => v) ∧
    r.readInt (dest c) v = quant byte type c + r.zeroPoint
  scale : ∀ c < r.k, EditsAt (stores writes.scale) (dest c / r.group) fun _ =>
    scaleBits ops byte type c

section Rows

variable {F : Type} {ops : FloatOps F} {byte : ℕ → ℕ} {t : TensorInfo} {mins : RepackMins}
  {reordered : Bool} {columnDestOf : List ℤ} {r : RepackedTensor}
  (hr : r = emptyTensor t mins reordered columnDestOf)

include hr

/-! ## Rows without mins -/

section Plain

variable (hplain : ¬ HasMins t.ggmlType)

include hplain

theorem width_of_plain : r.width = r.k := by
  simp [hr, RepackedTensor.width, emptyTensor, hplain]

theorem weightsType_of_plain : r.weightsType ≠ .u4 := by
  have hne : t.ggmlType ≠ 12 := fun h => hplain (.inl h)
  by_cases h8 : t.ggmlType = 8 <;> simp [hr, emptyTensor, h8, hne]

/-- A row that is filled from its first column to its last. -/
theorem rowHolds_of_fills {weights scale : List (ℕ × ℕ)} {v s : ℕ → ℕ}
    (hweights : FillsRange weights 0 r.k v) (hscale : FillsRange scale 0 (r.k / r.group) s)
    (hgroups : r.k % r.group = 0)
    (hquant : ∀ c, r.readInt c (v c) = quant byte t.ggmlType c + r.zeroPoint)
    (hbits : ∀ c, s (c / r.group) = scaleBits ops byte t.ggmlType c) :
    RowHolds ops byte t.ggmlType r (fun c => c) ⟨stores weights, scale, []⟩ where
  weightsLt edit hedit := by
    have hlt := lt_of_mem_stores hweights.lt edit hedit
    rw [RepackedTensor.rowWeights, width_of_plain hr hplain,
      if_neg (weightsType_of_plain hr hplain), Nat.div_one]
    rwa [Nat.zero_add] at hlt
  scaleLt edit hedit := by
    have hlt := lt_of_mem_stores hscale.lt edit hedit
    rw [RepackedTensor.wgroups, width_of_plain hr hplain]
    rwa [Nat.zero_add] at hlt
  quant c hc := by
    have hedits := hweights.editsAt hc
    rw [Nat.zero_add] at hedits
    refine ⟨v c, ?_, hquant c⟩
    rwa [RepackedTensor.columnByte, if_neg (weightsType_of_plain hr hplain), Nat.div_one]
  scale c hc := by
    have hlt : c / r.group <
        r.k / r.group :=
      Nat.div_lt_div_of_lt_of_dvd (Nat.dvd_of_mod_eq_zero hgroups) hc
    have hedits := hscale.editsAt hlt
    rwa [Nat.zero_add, hbits] at hedits

end Plain

theorem repackRowQ80_holds (htype : t.ggmlType = 8) (hk : r.k % 32 = 0) :
    RowHolds ops byte t.ggmlType r (fun c => c) (repackRowQ80 byte r.k) := by
  have hgroup : r.group = 32 := by
    simp [hr, emptyTensor, htype]
  refine @rowHolds_of_fills _ _ _ _ _ _ _ _ hr (by rw [htype]; decide) _ _
    (fun c => byte (c / 32 * 34 + (2 + c % 32)))
    (fun b => byte (b * 34) + byte (b * 34 + 1) * 256) ?_ ?_ ?_ ?_ ?_
  · rw [← groups_mul hk, Nat.mul_div_cancel _ (by decide)]
    refine fillsRange_blocks fun b _ => fillsRange_map fun l hl => ?_
    rw [Nat.zero_add, block_div hl, block_mod hl]
  · rw [hgroup]
    exact fillsRange_map fun b _ => by rw [Nat.zero_add]
  · rw [hgroup, hk]
  · intro c
    simp [hr, RepackedTensor.readInt, RepackedTensor.zeroPoint, emptyTensor, htype, quant]
  · intro c
    rw [hgroup, scaleBits, if_pos htype]

omit hr in
/-- The eight scales of half a block, each written where a group of 16 columns begins. -/
theorem fillsRange_scales {α : Type*} {base : ℕ} (hbase : base % 16 = 0) (scaled : ℕ → α) :
    FillsRange ((List.range 32).flatMap fun l =>
      if l % 16 = 0 then
        [((base + l) / 16, scaled (l / 16 + 0)), ((base + l) / 16 + 2, scaled (l / 16 + 2)),
          ((base + l) / 16 + 4, scaled (l / 16 + 4)), ((base + l) / 16 + 6, scaled (l / 16 + 6))]
      else []) (base / 16) 8 scaled := by
  intro w
  rw [List.mem_flatMap]
  constructor
  · rintro ⟨l, hl, hmem⟩
    have hl := List.mem_range.mp hl
    split at hmem
    next hfirst =>
      have hgroup : (base + l) / 16 = base / 16 + l / 16 := by omega
      simp only [List.mem_cons, List.not_mem_nil, or_false, hgroup] at hmem
      rcases hmem with rfl | rfl | rfl | rfl
      · exact ⟨l / 16 + 0, by omega, rfl⟩
      · exact ⟨l / 16 + 2, by omega, rfl⟩
      · exact ⟨l / 16 + 4, by omega, rfl⟩
      · exact ⟨l / 16 + 6, by omega, rfl⟩
    next => cases hmem
  · rintro ⟨e, he, rfl⟩
    -- the first or the second column of the runs, and the run
    refine ⟨16 * (e % 2), List.mem_range.mpr (by omega), ?_⟩
    have hgroup : (base + 16 * (e % 2)) / 16 = base / 16 + e % 2 := by omega
    have hrun : 16 * (e % 2) / 16 = e % 2 := by omega
    rw [if_pos (Nat.mul_mod_right 16 (e % 2)), hgroup, hrun]
    simp only [List.mem_cons, List.not_mem_nil, or_false, Nat.add_assoc]
    have hpair : e = e % 2 + 0 ∨ e = e % 2 + 2 ∨ e = e % 2 + 4 ∨ e = e % 2 + 6 := by omega
    rcases hpair with h | h | h | h
    · exact .inl (by rw [Nat.add_zero] at h; rw [Nat.add_zero, ← h])
    · exact .inr (.inl (by rw [← h]))
    · exact .inr (.inr (.inl (by rw [← h])))
    · exact .inr (.inr (.inr (by rw [← h])))

theorem repackRowQ6K_holds (htype : t.ggmlType = 14) (hk : r.k % 256 = 0) :
    RowHolds ops byte t.ggmlType r (fun c => c) (repackRowQ6K ops byte r.k) := by
  have hgroup : r.group = 16 := by
    simp [hr, emptyTensor, htype]
  have hcount : r.k / 256 * 256 = r.k :=
    Nat.div_mul_cancel (Nat.dvd_of_mod_eq_zero hk)
  refine @rowHolds_of_fills _ _ _ _ _ _ _ _ hr (by rw [htype]; decide) _ _
    (fun c => q6K byte (c / 256 * 210 + 64 * (c % 256 / 128))
      (c / 256 * 210 + (128 + 32 * (c % 256 / 128))) (c % 32) (c % 128 / 32))
    (fun g => ops.toHalf (ops.mul (f16at ops byte (g / 16 * 210 + 208))
      (ops.ofInt (signed 1 (byte (g / 16 * 210 + (192 + g % 16))))))) ?_ ?_ ?_ ?_ ?_
  · rw [← hcount, Nat.mul_div_cancel _ (by decide)]
    refine fillsRange_blocks fun b _ => ?_
    dsimp only
    refine @fillsRange_blocks _ 2 128 _ _ _ fun n hn => ?_
    rw [Nat.zero_add]
    refine fillsRange_runs (fun i l =>
      q6K byte (b * 210 + n * 64) (b * 210 + (128 + n * 32)) l i) fun i hi l hl => ?_
    have hblock : (b * 256 + (n * 128 + (32 * i + l))) / 256 = b := by omega
    have hhalf : (b * 256 + (n * 128 + (32 * i + l))) % 256 / 128 = n := by omega
    have hrun : (b * 256 + (n * 128 + (32 * i + l))) % 128 / 32 = i := by omega
    have hplace : (b * 256 + (n * 128 + (32 * i + l))) % 32 = l := by omega
    rw [hblock, hhalf, hrun, hplace, Nat.mul_comm 64, Nat.mul_comm 32 n]
  · have hgroups : r.k / 16 = r.k / 256 * 16 := by omega
    rw [hgroup, hgroups]
    refine fillsRange_blocks fun b _ => ?_
    dsimp only
    refine @fillsRange_blocks _ 2 8 _ _ _ fun n hn => ?_
    have hfirst : 0 + b * 16 + n * 8 = (b * 256 + n * 128) / 16 := by omega
    have hscales := @fillsRange_scales _ (b * 256 + n * 128) (by omega) fun e =>
      ops.toHalf (ops.mul (f16at ops byte (b * 210 + 208))
        (ops.ofInt (signed 1 (byte (b * 210 + (192 + n * 8) + e)))))
    rw [hfirst]
    refine hscales.congr fun e he => ?_
    have hblock : (b * 16 + (n * 8 + e)) / 16 = b := by omega
    have hplace : (b * 16 + (n * 8 + e)) % 16 = n * 8 + e := by omega
    rw [hblock, hplace, Nat.add_assoc, Nat.add_assoc 192]
  · rw [hgroup]
    omega
  · intro c
    simp [hr, RepackedTensor.readInt, RepackedTensor.zeroPoint, emptyTensor, htype, quant]
  · intro c
    have hblock : c / 16 / 16 = c / 256 := Nat.div_div_eq_div_mul c 16 16
    have hplace : c / 16 % 16 = c % 256 / 16 := by omega
    simp only [hgroup, hblock, hplace, scaleBits, htype, scaleProduct]
    rw [if_neg (by decide)]

end Rows

/-! ## Rows with mins -/

section Groups

variable {F : Type} {ops : FloatOps F} {byte : ℕ → ℕ}

/-- The bytes of a group. -/
def groupByte (byte : ℕ → ℕ) (type g i : ℕ) : ℕ :=
  let q := quantMins (fun i => byte (g / 8 * superBytes type + i)) type (g % 8)
  if type = 12 then q (2 * i) + q (2 * i + 1) * 16 else q i

/-- They are written where the group goes. -/
def groupWrites (pl : Placement) (byte : ℕ → ℕ) (type g : ℕ) : List (ℕ × ℕ) :=
  if type = 12 then
    (List.range 16).map fun i => (pl.mainGroupOf g * 16 + i, groupByte byte type g i)
  else (List.range 32).map fun l => (pl.mainGroupOf g * 32 + l, groupByte byte type g l)

/-- The min of a group of a row. -/
def groupMin (pl : Placement) (ops : FloatOps F) (byte : ℕ → ℕ) (type k g : ℕ) : GroupMin F :=
  ⟨k / 32 + pl.augGroupOf g, pl.augSlotOf g, ops.ofHalf (dminBits byte type (g / 8)),
    m6 byte type g⟩

def groupMins (pl : Placement) (ops : FloatOps F) (byte : ℕ → ℕ) (type k : ℕ) :
    List (GroupMin F) :=
  (List.range (k / 32)).map (groupMin pl ops byte type k)

/-- The halves of the augmented groups of a row. -/
def augHalves (ops : FloatOps F) (byte : ℕ → ℕ) (type : ℕ) (r : RepackedTensor)
    (pl : Placement) (a : ℕ) : ℕ :=
  ops.toHalf (augScales ops r (groupMins pl ops byte type r.k) a)

/-- Of a byte with two integers a column takes its own. -/
theorem nibble_of_pair {q : ℕ → ℕ} (hq : ∀ l, q l < 16) {l c : ℕ} (hc : c % 2 = l % 2) :
    (q (2 * (l / 2)) + q (2 * (l / 2) + 1) * 16) / 16 ^ (c % 2) % 16 = q l := by
  rw [hc]
  obtain ⟨m, rfl | rfl⟩ := Nat.even_or_odd' l
  · have hlow := hq (2 * m)
    have hm : 2 * m / 2 = m := by omega
    rw [hm, Nat.mul_mod_right, Nat.pow_zero, Nat.div_one]
    omega
  · have hlow := hq (2 * m)
    have hhigh := hq (2 * m + 1)
    have hm : (2 * m + 1) / 2 = m := by omega
    have hodd : (2 * m + 1) % 2 = 1 := by omega
    rw [hm, hodd, Nat.pow_one]
    omega

/-- Where a slot is in its augmented group. -/
def augOffset (r : RepackedTensor) (slot : ℕ) : ℕ :=
  if r.weightsType = .u4 ∧ r.augSlots ≠ 2 then slot / 2 else slot

theorem augEdit_fst (r : RepackedTensor) (sc : ℕ → ℕ) (gm : GroupMin F) :
    (augEdit ops r sc gm).1 = gm.ag * r.groupBytes + augOffset r gm.slot := by
  unfold augEdit augOffset
  dsimp only
  by_cases hu4 : r.weightsType = .u4
  · by_cases hslots : r.augSlots = 2 <;> simp [hu4, hslots]
  · simp [hu4]

variable {type : ℕ} (htype : HasMins type)

include htype

/-- The columns of a group have one scale. -/
theorem scaleBits_group (g : ℕ) {l : ℕ} (hl : l < 32) :
    scaleBits ops byte type (g * 32 + l) = ops.toHalf
      (ops.mul (f16at ops byte (g / 8 * superBytes type))
        (ops.ofInt (scaleMinK4 byte (g % 8) (g / 8 * superBytes type + 4)).1)) := by
  have hblock : (g * 32 + l) / 256 = g / 8 := by omega
  unfold scaleBits scaleProduct
  rcases htype with rfl | rfl
  all_goals
    rw [hblock, block_div hl]
    rfl

/-- A row with mins, group after group. -/
theorem repackRowMins_eq (r : RepackedTensor) (pl : Placement) (hk : r.k % 256 = 0) :
    repackRowMins ops byte r type pl =
      let main := (List.range (r.k / 32)).flatMap (groupWrites pl byte type)
      let scale := (List.range (r.k / 32)).map fun g =>
        (pl.mainGroupOf g, scaleBits ops byte type (g * 32 + 0))
      let sc := augHalves ops byte type r pl
      if r.mins = .split then
        { weights := stores main
          scale
          minMatrix := (List.range (r.k / 32)).map fun g =>
            (pl.mainGroupOf g, ops.toHalf (minProduct ops byte type g)) }
      else
        { weights := stores main ++ (groupMins pl ops byte type r.k).map (augEdit ops r sc)
          scale := scale ++ (List.range (r.kAug / 32)).map fun a => (r.k / 32 + a, sc a)
          minMatrix := [] } := by
  have hgroups : r.k / 32 = r.k / 256 * 8 := by omega
  unfold repackRowMins
  dsimp only
  rw [flatMap_blocks, map_blocks, map_blocks, map_blocks, ← hgroups]
  simp only [Nat.div_add_mod', scaleBits_group htype _ (Nat.zero_lt_succ 31)]
  rcases htype with rfl | rfl
  · rfl
  · rfl

end Groups

theorem kAug_mod (perAug k : ℕ) : kAug perAug k % 32 = 0 := by
  unfold kAug
  dsimp only
  split <;> omega

section Mins

variable {F : Type} {ops : FloatOps F} {byte : ℕ → ℕ} {t : TensorInfo} {mins : RepackMins}
  {reordered : Bool} {columnDestOf : List ℤ} {r : RepackedTensor}
  (hr : r = emptyTensor t mins reordered columnDestOf)

include hr

theorem emptyTensor_kAug_mod : r.kAug % 32 = 0 := by
  rw [hr]
  unfold emptyTensor
  dsimp only
  split
  · exact kAug_mod _ _
  · rfl

variable (htype : HasMins t.ggmlType)

include htype

theorem emptyTensor_mins : r.mins = mins := by
  rw [hr]
  exact if_pos htype

theorem emptyTensor_group : r.group = 32 := by
  rcases htype with htype | htype <;> simp [hr, emptyTensor, htype]

theorem emptyTensor_u4 : r.weightsType = .u4 ↔ t.ggmlType = 12 := by
  rcases htype with htype | htype <;> simp [hr, emptyTensor, htype]

theorem emptyTensor_groupBytes : r.groupBytes = if t.ggmlType = 12 then 16 else 32 := by
  simp only [RepackedTensor.groupBytes, emptyTensor_u4 hr htype]

theorem emptyTensor_zeroPoint : r.zeroPoint = 0 := by
  rcases htype with htype | htype <;>
    simp [hr, RepackedTensor.zeroPoint, emptyTensor, htype]

/-- The groups of a row, the augmented ones behind the others. -/
theorem emptyTensor_wgroups (hk : r.k % 256 = 0) : r.wgroups = r.k / 32 + r.kAug / 32 := by
  have haug := emptyTensor_kAug_mod hr
  rw [RepackedTensor.wgroups, RepackedTensor.width, emptyTensor_group hr htype]
  omega

theorem emptyTensor_rowWeights (hk : r.k % 256 = 0) :
    r.rowWeights = r.wgroups * r.groupBytes := by
  have haug := emptyTensor_kAug_mod hr
  rw [emptyTensor_wgroups hr htype hk, emptyTensor_groupBytes hr htype,
    RepackedTensor.rowWeights, RepackedTensor.width]
  simp only [emptyTensor_u4 hr htype]
  split <;> omega

variable {pl : Placement}

theorem groupWrites_fills (g : ℕ) :
    FillsRange (groupWrites pl byte t.ggmlType g) (pl.mainGroupOf g * r.groupBytes) r.groupBytes
      (groupByte byte t.ggmlType g) := by
  rw [emptyTensor_groupBytes hr htype]
  unfold groupWrites
  split
  · exact fillsRange_map fun i _ => rfl
  · exact fillsRange_map fun l _ => rfl

/-- The integer of a column is read from its byte. -/
theorem readInt_groupByte (g dg : ℕ) {l : ℕ} (hl : l < 32) :
    r.readInt (dg * 32 + l)
        (groupByte byte t.ggmlType g (l / if t.ggmlType = 12 then 2 else 1)) =
      quant byte t.ggmlType (g * 32 + l) := by
  have hblock : (g * 32 + l) / 256 = g / 8 := by omega
  rw [hr]
  rcases htype with htype | htype
  · have hq : ∀ l, quantMins (fun i => byte (g / 8 * superBytes 12 + i)) 12 (g % 8) l < 16 :=
      fun l => Nat.mod_lt _ (by decide)
    have hplace : (dg * 32 + l) % 2 = l % 2 := by omega
    simp only [RepackedTensor.readInt, emptyTensor, htype, groupByte, quant, hblock, block_div hl,
      block_mod hl, Nat.reduceEqDiff, if_false, if_true]
    rw [nibble_of_pair hq hplace]
  · simp only [RepackedTensor.readInt, emptyTensor, htype, groupByte, quant, hblock, block_div hl,
      block_mod hl, Nat.reduceEqDiff, if_false, Nat.div_one]

variable (hpl : PermutesBelow (r.k / 32) pl.mainGroupOf)

include hpl

/-- The main groups hold the columns. -/
theorem mainGroups_hold {g l : ℕ} (hg : g < r.k / 32) (hl : l < 32) :
    r.columnByte (pl.mainGroupOf g * 32 + l) < r.k / 32 * r.groupBytes ∧
      ∃ v, EditsAt (stores ((List.range (r.k / 32)).flatMap (groupWrites pl byte t.ggmlType)))
          (r.columnByte (pl.mainGroupOf g * 32 + l)) (fun _ => v) ∧
        r.readInt (pl.mainGroupOf g * 32 + l) v =
          quant byte t.ggmlType (g * 32 + l) + r.zeroPoint := by
  have hplace : l / (if t.ggmlType = 12 then 2 else 1) < r.groupBytes := by
    rw [emptyTensor_groupBytes hr htype]
    split <;> omega
  have hbyte : r.columnByte (pl.mainGroupOf g * 32 + l) =
      pl.mainGroupOf g * r.groupBytes + l / if t.ggmlType = 12 then 2 else 1 := by
    rw [RepackedTensor.columnByte, emptyTensor_groupBytes hr htype]
    simp only [emptyTensor_u4 hr htype]
    split <;> omega
  rw [hbyte, emptyTensor_zeroPoint hr htype, add_zero]
  refine ⟨block_lt (hpl.lt g hg) hplace, _, ?_, readInt_groupByte hr htype g _ hl⟩
  exact editsAt_permuted hpl (fun g _ => groupWrites_fills hr htype g) hg hplace

theorem mainGroups_lt : ∀ edit ∈ stores ((List.range (r.k / 32)).flatMap
    (groupWrites pl byte t.ggmlType)), edit.1 < r.k / 32 * r.groupBytes :=
  lt_of_mem_stores (lt_of_mem_permuted hpl fun g _ => groupWrites_fills hr htype g)

omit hr htype in
theorem mainScales_lt {value : ℕ → ℕ} : ∀ edit ∈ stores ((List.range (r.k / 32)).map fun g =>
    (pl.mainGroupOf g, value g)), edit.1 < r.k / 32 := by
  refine lt_of_mem_stores fun write hwrite => ?_
  obtain ⟨g, hg, rfl⟩ := List.mem_map.mp hwrite
  exact hpl.lt g (List.mem_range.mp hg)

/-- The groups hold the scales of their columns. -/
theorem mainScales_hold {g l : ℕ} (hg : g < r.k / 32) (hl : l < 32) :
    EditsAt (stores ((List.range (r.k / 32)).map fun g =>
        (pl.mainGroupOf g, scaleBits ops byte t.ggmlType (g * 32 + 0))))
      ((pl.mainGroupOf g * 32 + l) / r.group)
      fun _ => scaleBits ops byte t.ggmlType (g * 32 + l) := by
  rw [emptyTensor_group hr htype, block_div hl, scaleBits_group htype g hl,
    ← scaleBits_group htype g (Nat.zero_lt_succ 31)]
  exact editsAt_map hpl hg

variable (haug : ∀ g, pl.augGroupOf g = pl.mainGroupOf g / r.groupsPerAug)
  (hslot : ∀ g, pl.augSlotOf g = pl.mainGroupOf g % r.groupsPerAug)

include haug hslot

/-- The augmented groups have room for the mins. -/
theorem augPlace_lt (hmins : mins ≠ .split) {g : ℕ} (hg : g < r.k / 32) :
    pl.augGroupOf g < r.kAug / 32 ∧ augOffset r (pl.augSlotOf g) < r.groupBytes := by
  obtain ⟨hpos, hfit⟩ := groupsPerAug_fits t.ggmlType hmins reordered
  have hslots := augSlots_cases t.ggmlType mins
  have hperAug : r.groupsPerAug = groupsPerAug t.ggmlType mins reordered := by
    rw [hr]
    exact if_pos ⟨htype, hmins⟩
  have hkAug : r.kAug = kAug (groupsPerAug t.ggmlType mins reordered) r.k := by
    rw [hr]
    exact if_pos ⟨htype, hmins⟩
  have haugSlots : r.augSlots = augSlots t.ggmlType mins := by
    rw [hr]
    exact if_pos ⟨htype, hmins⟩
  have hlt := @augColumn_lt r.k _ _ (pl.mainGroupOf g) 0 hfit hpos (by omega) (hpl.lt g hg)
  have hbelow := Nat.mod_lt (pl.mainGroupOf g) hpos
  have hwhole := kAug_mod (groupsPerAug t.ggmlType mins reordered) r.k
  rw [haug, hslot, hperAug, hkAug]
  refine ⟨by omega, ?_⟩
  rw [emptyTensor_groupBytes hr htype]
  unfold augOffset
  simp only [emptyTensor_u4 hr htype, haugSlots]
  rcases hslots with hone | htwo
  · rw [hone] at hfit ⊢
    split <;> split <;> omega
  · have h12 : t.ggmlType = 12 := by
      by_contra hne
      simp [augSlots, hne] at htwo
    rw [htwo] at hfit ⊢
    rw [if_neg (by simp), if_pos h12]
    omega

variable (hk : r.k % 256 = 0)

include hk

/-- The edits of the mins are behind the main groups, and in the row. -/
theorem augEdit_range (hmins : mins ≠ .split) (sc : ℕ → ℕ) {edit : ℕ × (ℕ → ℕ)}
    (hedit : edit ∈ (groupMins pl ops byte t.ggmlType r.k).map (augEdit ops r sc)) :
    r.k / 32 * r.groupBytes ≤ edit.1 ∧ edit.1 < r.rowWeights := by
  obtain ⟨gm, hgm, rfl⟩ := List.mem_map.mp hedit
  obtain ⟨g, hg, rfl⟩ := List.mem_map.mp hgm
  obtain ⟨hgroup, hplace⟩ :=
    augPlace_lt hr htype hpl haug hslot hmins (List.mem_range.mp hg)
  rw [augEdit_fst, emptyTensor_rowWeights hr htype hk, emptyTensor_wgroups hr htype hk]
  constructor
  · rw [groupMin, Nat.add_mul, Nat.add_assoc]
    exact Nat.le_add_right _ _
  · exact block_lt (Nat.add_lt_add_left hgroup _) hplace

/-- A row with mins holds its columns where its groups go. -/
theorem repackRowMins_holds :
    RowHolds ops byte t.ggmlType r (destColumn pl r.k)
      (repackRowMins ops byte r t.ggmlType pl) := by
  have hgroups : r.k / 32 ≤ r.wgroups := by
    rw [emptyTensor_wgroups hr htype hk]
    exact Nat.le_add_right _ _
  have hrow : r.k / 32 * r.groupBytes ≤ r.rowWeights := by
    rw [emptyTensor_rowWeights hr htype hk]
    exact Nat.mul_le_mul_right _ hgroups
  have hmain := @mainGroups_lt byte t mins reordered columnDestOf r hr htype pl hpl
  have hscale := @mainScales_lt r pl hpl fun g => scaleBits ops byte t.ggmlType (g * 32 + 0)
  have hcolumn : ∀ c < r.k, ∃ g < r.k / 32, ∃ l < 32,
      c = g * 32 + l ∧ destColumn pl r.k c = pl.mainGroupOf g * 32 + l := by
    intro c hc
    have hk32 : r.k % 32 = 0 := by omega
    obtain ⟨g, hg, l, hl, rfl⟩ := exists_block ((groups_mul hk32).symm ▸ hc)
    exact ⟨g, hg, l, hl, rfl, destColumn_group pl hg hl⟩
  rw [repackRowMins_eq htype r pl hk]
  dsimp only
  split
  next hsplit =>
    constructor
    · exact fun edit hedit => (hmain edit hedit).trans_le hrow
    · exact fun edit hedit => (hscale edit hedit).trans_le hgroups
    · intro c hc
      obtain ⟨g, hg, l, hl, rfl, hdest⟩ := hcolumn c hc
      rw [hdest]
      exact (mainGroups_hold hr htype hpl hg hl).2
    · intro c hc
      obtain ⟨g, hg, l, hl, rfl, hdest⟩ := hcolumn c hc
      rw [hdest]
      exact mainScales_hold hr htype hpl hg hl
  next hpacked =>
    rw [emptyTensor_mins hr htype] at hpacked
    have haugEdits := fun edit => @augEdit_range _ ops byte t mins reordered columnDestOf r hr
      htype pl hpl haug hslot hk hpacked (augHalves ops byte t.ggmlType r pl) edit
    constructor
    · intro edit hedit
      rcases List.mem_append.mp hedit with hmem | hmem
      · exact (hmain edit hmem).trans_le hrow
      · exact (haugEdits edit hmem).2
    · rw [stores_append]
      intro edit hedit
      rcases List.mem_append.mp hedit with hmem | hmem
      · exact (hscale edit hmem).trans_le hgroups
      · obtain ⟨write, hwrite, rfl⟩ := List.mem_map.mp hmem
        obtain ⟨a, ha, rfl⟩ := List.mem_map.mp hwrite
        rw [emptyTensor_wgroups hr htype hk]
        exact Nat.add_lt_add_left (List.mem_range.mp ha) _
    · intro c hc
      obtain ⟨g, hg, l, hl, rfl, hdest⟩ := hcolumn c hc
      obtain ⟨hbefore, v, hedits, hread⟩ := mainGroups_hold hr htype hpl hg hl
      rw [hdest]
      refine ⟨v, hedits.append_left fun edit hmem hkey => ?_, hread⟩
      exact absurd (haugEdits edit hmem).1 (hkey ▸ Nat.not_le_of_lt hbefore)
    · intro c hc
      obtain ⟨g, hg, l, hl, rfl, hdest⟩ := hcolumn c hc
      rw [hdest, stores_append]
      refine (mainScales_hold hr htype hpl hg hl).append_left fun edit hmem hkey => ?_
      obtain ⟨write, hwrite, rfl⟩ := List.mem_map.mp hmem
      obtain ⟨a, -, rfl⟩ := List.mem_map.mp hwrite
      have hlt := hpl.lt g hg
      rw [emptyTensor_group hr htype, block_div hl] at hkey
      dsimp only at hkey
      omega

end Mins

/-! ## Rows of any type -/

/-- A row holds its columns where the column order puts them. -/
theorem repackRow_holds {F : Type} {ops : FloatOps F} {byte : ℕ → ℕ} {t : TensorInfo}
    {mins : RepackMins} {reordered : Bool} {columnDestOf : List ℤ} {r : RepackedTensor}
    (hr : r = emptyTensor t mins reordered columnDestOf) {dest : Option (List ℤ)}
    (htype : repackSupported t.ggmlType = true) (hk : r.k % repackBlockSize t.ggmlType = 0)
    (hplain : ¬ HasMins t.ggmlType → dest = none)
    (hpl : HasMins t.ggmlType →
      PermutesBelow (r.k / 32) (placement r.groupsPerAug dest).mainGroupOf) :
    RowHolds ops byte t.ggmlType r (destColumn (placement r.groupsPerAug dest) r.k)
      (repackRow ops byte t.ggmlType r (placement r.groupsPerAug dest)) := by
  have hsame : dest = none → destColumn (placement r.groupsPerAug dest) r.k = fun c => c := by
    rintro rfl
    exact funext fun c => moveBlocks_id 0 _ 32 c
  rcases of_decide_eq_true htype with h | h | h | h
  · have hnot : ¬ HasMins t.ggmlType := by rw [h]; decide
    have hholds := @repackRowQ80_holds F ops byte t mins reordered columnDestOf r hr h
      (by rwa [h] at hk)
    rw [hsame (hplain hnot)]
    rw [h] at hholds ⊢
    exact hholds
  · have hholds := @repackRowMins_holds F ops byte t mins reordered columnDestOf r hr (.inl h) _
      (hpl (.inl h)) (fun _ => rfl) (fun _ => rfl) (by rwa [h] at hk)
    rw [h] at hholds ⊢
    exact hholds
  · have hholds := @repackRowMins_holds F ops byte t mins reordered columnDestOf r hr (.inr h) _
      (hpl (.inr h)) (fun _ => rfl) (fun _ => rfl) (by rwa [h] at hk)
    rw [h] at hholds ⊢
    exact hholds
  · have hnot : ¬ HasMins t.ggmlType := by rw [h]; decide
    have hholds := @repackRowQ6K_holds F ops byte t mins reordered columnDestOf r hr h
      (by rwa [h] at hk)
    rw [hsame (hplain hnot)]
    rw [h] at hholds ⊢
    exact hholds

end Arcint.Gguf.Packing
