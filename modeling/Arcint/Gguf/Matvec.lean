import Arcint.Gguf.RepackExact

/-! # A repacked row against an activation

The served product widens the activation by its group sums through a constructed matrix, or takes
the mins from a matrix of their own. In exact arithmetic it is the product with what the reader of a
repacked tensor decodes, whatever the tensor was repacked from.
-/

namespace Arcint.Gguf.Packing

open Foundation Finset
open Verdicts (flatTensor)

variable {R : Type} [CommRing R] (half : ℕ → R)

namespace RepackedTensor

variable (r : RepackedTensor)

/-- `main_value`, where nothing is rounded. -/
def mainValue (row c : ℕ) : R :=
  ((r.storedInt row c : R) - (r.zeroPoint : R)) * half (r.groupScale row c)

/-- The integer that is read for the min of a group. -/
def groupMinInt (row g : ℕ) : ℕ :=
  let ag := r.k / 32 + g / r.groupsPerAug
  let slot := g % r.groupsPerAug
  let aug := row * r.rowWeights + ag * r.groupBytes
  if r.weightsType ≠ .u4 then r.weights (aug + slot)
  else if r.augSlots = 2 then
    let byte := r.weights (aug + slot)
    byte % 16 * 16 + byte / 16
  else r.weights (aug + slot / 2) / 16 ^ (slot % 2) % 16

/-- `min_of_group`, where nothing is rounded. -/
def minOfGroup (row g : ℕ) : R :=
  if r.mins = .split then
    match r.minMatrix with
    | none => 0
    | some minMatrix => half (minMatrix (row * (r.k / 32) + g))
  else if r.kAug = 0 then 0
  else
    let ag := r.k / 32 + g / r.groupsPerAug
    half (r.scale (row * r.wgroups + ag)) * (r.groupMinInt row g : R)

/-- `dequantize_repacked`, row after row. -/
def dequantizeRepacked : List R :=
  (List.range r.n).flatMap fun row => (List.range r.k).map fun c =>
    r.mainValue half row c - r.minOfGroup half row (c / 32)

theorem atLeastTwo_sixteen : Nat.AtLeastTwo 16 := inferInstance

attribute [local instance] atLeastTwo_sixteen

/-- What is written of `augmentation_matrix` in the row of a group. -/
def groupFactors (g : ℕ) : List (ℕ × R) :=
  let ag := g / r.groupsPerAug
  let slot := g % r.groupsPerAug
  if r.augSlots = 2 then [(ag * 32 + 2 * slot, -16), (ag * 32 + (2 * slot + 1), -1)]
  else [(ag * 32 + slot, -1)]

/-- `augmentation_matrix`, row after row. -/
def augmentationMatrix : ℕ → R :=
  edited (fun _ => 0) (rowEdits r.kAug (List.range (r.k / 32)) fun g => stores (r.groupFactors g))

/-- The activation, and behind it the group sums through the augmentation matrix. -/
def widened (x : ℕ → R) (c : ℕ) : R :=
  if c < r.k then x c
  else if r.kAug = 0 then 0
  else ∑ g ∈ range (r.k / 32),
    activationGroupSums x g * r.augmentationMatrix (g * r.kAug + (c - r.k))

/-- A row of `matvec_repacked_host`. -/
def matvecRow (x : ℕ → R) (row : ℕ) : R :=
  match if r.mins = .split then r.minMatrix else none with
  | some minMatrix =>
      ∑ c ∈ range r.k, x c * r.mainValue half row c +
        ∑ g ∈ range (r.k / 32),
          activationGroupSums x g * -half (minMatrix (row * (r.k / 32) + g))
  | none => ∑ c ∈ range r.width, r.widened x c * r.mainValue half row c

/-- `matvec_repacked_host`; an activation of another length is refused. -/
def matvecRepackedHost (x : List R) : Option (List R) :=
  if x.length ≠ r.k then none
  else some ((List.range r.n).map (r.matvecRow half fun c => x.getD c 0))

/-- The tensor as the values it decodes to. -/
def values : Gguf.RepackedTensor R where
  n := r.n
  k := r.k
  kAug := r.kAug
  groupsPerAug := r.groupsPerAug
  augSlots := r.augSlots
  weights := r.mainValue half
  minMatrix := (if r.mins = .split then r.minMatrix else none).map fun minMatrix row g =>
    half (minMatrix (row * (r.k / 32) + g))

/-- The columns of a tensor's mins. -/
structure Augmented : Prop where
  k_mod : r.k % 32 = 0
  kAug : r.kAug = Gguf.kAug r.groupsPerAug r.k
  group : r.group = 32
  zeroPoint : r.zeroPoint = 0
  slots : r.augSlots = 1 ∨ r.augSlots = 2
  fit : r.augSlots * r.groupsPerAug ≤ 32
  pos : 0 < r.groupsPerAug
  unsigned : r.weightsType ≠ .i8
  single : r.weightsType ≠ .u4 → r.augSlots = 1
  byte : r.weightsType = .u4 → r.augSlots = 2 → ∀ i, r.weights i < 256

end RepackedTensor

namespace RepackedTensor

/-- The reader in floats is that of exact arithmetic, when its operations do not round. -/
theorem repackedGroupMin_exact {ops : FloatOps R} (hmul : ∀ a b, ops.mul a b = a * b)
    (hofInt : ∀ n : ℤ, ops.ofInt n = n) (r : RepackedTensor) (row g : ℕ) :
    r.repackedGroupMin ops row g = r.minOfGroup ops.ofHalf row g := by
  unfold repackedGroupMin minOfGroup groupMinInt
  cases r.minMatrix with
  | none => simp only [hmul, hofInt, Int.cast_zero, Int.cast_natCast]
  | some minMatrix => simp only [hmul, hofInt, Int.cast_zero, Int.cast_natCast]

section Rows

variable {r : RepackedTensor} (haug : r.Augmented)

include haug

theorem Augmented.kAug_mod : r.kAug % 32 = 0 := by
  rw [haug.kAug]
  exact Packing.kAug_mod _ _

theorem Augmented.width_even : r.width % 2 = 0 := by
  have hk := haug.k_mod
  have hkAug := haug.kAug_mod
  rw [RepackedTensor.width]
  omega

/-- The columns of a group's min hold the parts of its integer. -/
theorem storedInt_augColumn {row d b : ℕ} (hb : b < r.augSlots) :
    r.storedInt row (r.k + (d / r.groupsPerAug * 32 + (r.augSlots * (d % r.groupsPerAug) + b))) =
      minPart r.augSlots (r.groupMinInt row d) b := by
  have hk := haug.k_mod
  rw [storedInt_eq haug.width_even]
  unfold groupMinInt readInt columnByte groupBytes
  generalize d / r.groupsPerAug = ag
  generalize d % r.groupsPerAug = slot
  cases hw : r.weightsType with
  | i8 => exact absurd hw haug.unsigned
  | u8 =>
      have hone := haug.single (by simp [hw])
      obtain rfl : b = 0 := by omega
      have hplace : row * r.rowWeights + (r.k + (ag * 32 + slot)) =
          row * r.rowWeights + (r.k / 32 + ag) * 32 + slot := by omega
      simp [hone, minPart, hplace]
  | u4 =>
      rcases haug.slots with hone | htwo
      · obtain rfl : b = 0 := by omega
        have hplace : row * r.rowWeights + (r.k + (ag * 32 + slot)) / 2 =
            row * r.rowWeights + (r.k / 32 + ag) * 16 + slot / 2 := by omega
        have hnibble : (r.k + (ag * 32 + slot)) % 2 = slot % 2 := by omega
        simp [hone, minPart, hplace, hnibble]
      · have hplace : row * r.rowWeights + (r.k + (ag * 32 + (2 * slot + b))) / 2 =
            row * r.rowWeights + (r.k / 32 + ag) * 16 + slot := by omega
        have hnibble : (r.k + (ag * 32 + (2 * slot + b))) % 2 = b := by omega
        have hbyte := haug.byte hw htwo (row * r.rowWeights + (r.k / 32 + ag) * 16 + slot)
        simp only [htwo, if_true, hplace, hnibble, ne_eq, not_true_eq_false, if_false, minPart]
        generalize r.weights _ = v at hbyte
        have hb : b = 0 ∨ b = 1 := by omega
        rcases hb with rfl | rfl
        · rw [if_pos rfl, Nat.pow_zero, Nat.div_one]
          omega
        · rw [if_neg (by decide), Nat.pow_one]
          omega

theorem mainValue_augColumn {row d b : ℕ} (hb : b < r.augSlots) :
    r.mainValue half row
        (r.k + (d / r.groupsPerAug * 32 + (r.augSlots * (d % r.groupsPerAug) + b))) =
      half (r.scale (row * r.wgroups + (r.k / 32 + d / r.groupsPerAug))) *
        (minPart r.augSlots (r.groupMinInt row d) b : R) := by
  have hk := haug.k_mod
  have hcell : r.augSlots * (d % r.groupsPerAug) + b < 32 := by
    have hslot := @block_lt r.groupsPerAug r.augSlots _ b (Nat.mod_lt d haug.pos) hb
    have hfit := haug.fit
    rw [Nat.mul_comm] at hfit ⊢
    omega
  have hgroup : (r.k + (d / r.groupsPerAug * 32 + (r.augSlots * (d % r.groupsPerAug) + b))) / 32 =
      r.k / 32 + d / r.groupsPerAug := by omega
  rw [mainValue, groupScale, storedInt_augColumn haug hb, haug.zeroPoint, haug.group, hgroup,
    Int.cast_zero, sub_zero, Int.cast_natCast, mul_comm]

theorem groupFactors_eq (d : ℕ) :
    r.groupFactors d = (List.range r.augSlots).map fun b =>
      (d / r.groupsPerAug * 32 + (r.augSlots * (d % r.groupsPerAug) + b),
        (minFactor r.augSlots b : R)) := by
  unfold groupFactors
  rcases haug.slots with hslots | hslots
  · simp [hslots, List.range_succ, minFactor]
  · simp [hslots, List.range_succ, minFactor]

theorem groupFactors_lt {d : ℕ} (hd : d < r.k / 32) :
    ∀ write ∈ (r.groupFactors d : List (ℕ × R)), write.1 < r.kAug := by
  intro write hwrite
  rw [groupFactors_eq haug] at hwrite
  obtain ⟨b, hb, rfl⟩ := List.mem_map.mp hwrite
  rw [haug.kAug]
  exact augColumn_lt haug.fit haug.pos (List.mem_range.mp hb) hd

theorem groupFactors_nodup (d : ℕ) :
    ((r.groupFactors d : List (ℕ × R)).map Prod.fst).Nodup := by
  rw [groupFactors_eq haug, List.map_map]
  refine List.Nodup.map (fun b b' heq => ?_) List.nodup_range
  dsimp only [Function.comp_apply] at heq
  omega

theorem augmentationMatrix_row {g a : ℕ} (hg : g < r.k / 32) (ha : a < r.kAug) :
    (r.augmentationMatrix (g * r.kAug + a) : R) = scatter (fun _ => 0) (r.groupFactors g) a :=
  edited_rowEdits_stores (fun _ hrow => groupFactors_lt haug (List.mem_range.mp hrow))
    (groupFactors_nodup haug g) (List.mem_range.mpr hg) ha

/-- The augmentation matrix reads a group's min back out of the augmented columns. -/
theorem sum_augmented {row g : ℕ} (hg : g < r.k / 32) (hpacked : r.mins ≠ .split)
    (hkAug : r.kAug ≠ 0) :
    ∑ a ∈ range r.kAug, r.augmentationMatrix (g * r.kAug + a) *
        r.mainValue half row (r.k + a) = -r.minOfGroup half row g := by
  have hmin : r.minOfGroup half row g =
      half (r.scale (row * r.wgroups + (r.k / 32 + g / r.groupsPerAug))) *
        (r.groupMinInt row g : R) := by
    rw [minOfGroup, if_neg hpacked, if_neg hkAug]
  have hrow : ∀ a ∈ range r.kAug,
      r.augmentationMatrix (g * r.kAug + a) * r.mainValue half row (r.k + a) =
        scatter (fun _ => 0) (r.groupFactors g) a * r.mainValue half row (r.k + a) :=
    fun a ha => by rw [augmentationMatrix_row haug hg (mem_range.mp ha)]
  rw [hmin, ← sum_minPart haug.slots, sum_congr rfl hrow,
    sum_scatter_mul (groupFactors_lt haug hg) (groupFactors_nodup haug g), groupFactors_eq haug,
    List.map_map]
  refine congrArg List.sum (List.map_congr_left fun b hb => ?_)
  rw [Function.comp_apply, mainValue_augColumn half haug (List.mem_range.mp hb)]

end Rows

/-! ## The product -/

section Product

variable {r : RepackedTensor} (hk : r.k % 32 = 0)

include hk in
/-- The mins, by the group sums. -/
theorem sum_mins (x min : ℕ → R) :
    ∑ g ∈ range (r.k / 32), activationGroupSums x g * -min g =
      ∑ c ∈ range r.k, x c * -min (c / 32) := by
  rw [← groups_mul hk, sum_blocks, Nat.mul_div_cancel _ (by decide)]
  refine sum_congr rfl fun g _ => ?_
  rw [activationGroupSums, sum_mul]
  refine sum_congr rfl fun l hl => ?_
  rw [block_div (mem_range.mp hl)]

/-- A tensor whose mins stand in augmented columns, or nowhere. -/
theorem sum_widened (haug : r.kAug ≠ 0 → r.Augmented) (hpacked : r.kAug ≠ 0 → r.mins ≠ .split)
    (x : ℕ → R) (row : ℕ) :
    ∑ c ∈ range r.width, r.widened x c * r.mainValue half row c =
      ∑ c ∈ range r.k, x c * r.mainValue half row c +
        if r.kAug = 0 then 0
        else ∑ g ∈ range (r.k / 32), activationGroupSums x g * -r.minOfGroup half row g := by
  rw [width, sum_range_add]
  congr 1
  · refine sum_congr rfl fun c hc => ?_
    rw [widened, if_pos (mem_range.mp hc)]
  · split_ifs with hkAug
    · rw [hkAug, range_zero, sum_empty]
    · have hwide : ∀ a, r.widened x (r.k + a) = ∑ g ∈ range (r.k / 32),
          activationGroupSums x g * r.augmentationMatrix (g * r.kAug + a) := by
        intro a
        rw [widened, if_neg (by omega), if_neg hkAug, Nat.add_sub_cancel_left]
      simp only [hwide, sum_mul]
      rw [sum_comm]
      refine sum_congr rfl fun g hg => ?_
      rw [← sum_augmented half (haug hkAug) (mem_range.mp hg) (hpacked hkAug) hkAug, mul_sum]
      refine sum_congr rfl fun a _ => ?_
      ring

include hk in
/-- A row of the host's product is the product with what the reader decodes of the row. -/
theorem matvecRow_eq (haug : r.kAug ≠ 0 → r.Augmented) (hpacked : r.kAug ≠ 0 → r.mins ≠ .split)
    (x : ℕ → R) (row : ℕ) :
    r.matvecRow half x row =
      ∑ c ∈ range r.k, x c * (r.mainValue half row c - r.minOfGroup half row (c / 32)) := by
  have hwidened := sum_widened half haug hpacked x row
  have hvalues : ∑ c ∈ range r.k, x c * (r.mainValue half row c - r.minOfGroup half row (c / 32)) =
      ∑ c ∈ range r.k, x c * r.mainValue half row c +
        ∑ g ∈ range (r.k / 32), activationGroupSums x g * -r.minOfGroup half row g := by
    rw [sum_mins hk, ← sum_add_distrib]
    refine sum_congr rfl fun c _ => ?_
    ring
  have hnone : ∀ min : ℕ → R, (∀ g, min g = 0) →
      ∑ g ∈ range (r.k / 32), activationGroupSums x g * -min g = 0 := fun min hmin =>
    sum_eq_zero fun g _ => by rw [hmin, neg_zero, mul_zero]
  rw [hvalues]
  unfold matvecRow
  by_cases hsplit : r.mins = .split
  · have hkAug : r.kAug = 0 := by
      by_contra hkAug
      exact hpacked hkAug hsplit
    rw [if_pos hsplit]
    cases hmatrix : r.minMatrix with
    | some minMatrix => simp only [minOfGroup, if_pos hsplit, hmatrix]
    | none =>
        dsimp only
        rw [hwidened, if_pos hkAug, hnone fun g => r.minOfGroup half row g]
        intro g
        simp only [minOfGroup, if_pos hsplit, hmatrix]
  · rw [if_neg hsplit]
    dsimp only
    rw [hwidened]
    split_ifs with hkAug
    · rw [hnone fun g => r.minOfGroup half row g]
      intro g
      rw [minOfGroup, if_neg hsplit, if_pos hkAug]
    · rfl

/-- The product of the values that the tensor decodes to. -/
theorem matMul_values (haug : r.kAug ≠ 0 → r.Augmented) (hpacked : r.kAug ≠ 0 → r.mins ≠ .split)
    (x : ℕ → R) (row : ℕ) : (r.values half).matMul x row = r.matvecRow half x row := by
  have hwide : ∀ c < r.width, (r.values half).widenActivation x c = r.widened x c := by
    intro c hc
    have hk : (r.values half).k = r.k := rfl
    unfold Gguf.RepackedTensor.widenActivation widened
    rw [hk]
    split_ifs with hmain hkAug
    · rfl
    · rw [width, hkAug] at hc
      exact absurd hc hmain
    · refine sum_congr rfl fun g hg => congrArg _ ?_
      have ha : c - r.k < r.kAug := by
        rw [width] at hc
        omega
      exact (augmentationMatrix_row (haug hkAug) (mem_range.mp hg) ha).symm
  have hmain : ∑ c ∈ range ((r.values half).k + (r.values half).kAug),
      (r.values half).widenActivation x c * (r.values half).weights row c =
        ∑ c ∈ range r.width, r.widened x c * r.mainValue half row c :=
    sum_congr rfl fun c hc => by rw [hwide c (mem_range.mp hc)]; rfl
  unfold Gguf.RepackedTensor.matMul matvecRow
  rw [hmain]
  by_cases hsplit : r.mins = .split
  · cases hmatrix : r.minMatrix with
    | none => simp [values, hsplit, hmatrix]
    | some minMatrix =>
        have hkAug : r.kAug = 0 := by
          by_contra hkAug
          exact hpacked hkAug hsplit
        rw [sum_widened half haug hpacked, if_pos hkAug, add_zero]
        simp [values, hsplit, hmatrix]
  · simp [values, hsplit]

end Product

theorem getD_dequantizeRepacked {r : RepackedTensor} {row c : ℕ} (hrow : row < r.n) (hc : c < r.k) :
    (r.dequantizeRepacked half).getD (row * r.k + c) 0 =
      r.mainValue half row c - r.minOfGroup half row (c / 32) := by
  have hlength : ∀ row, ((List.range r.k).map fun c =>
      r.mainValue half row c - r.minOfGroup half row (c / 32)).length = r.k := by simp
  rw [List.getD_eq_getElem?_getD, dequantizeRepacked, Nat.mul_comm,
    getElem?_flatMap_uniform (fun row _ => hlength row) row hc]
  simp [hrow, hc]

end RepackedTensor

/-! ## Repacked tensors -/

section Repacked

variable {F : Type} {ops : FloatOps F} {data : ℕ → UInt8} {t : TensorInfo}
  {request : RepackRequest} {mins : RepackMins} {r : RepackedTensor}

theorem quantMins_lt (byte : ℕ → ℕ) (s l : ℕ) : Verdicts.quantMins byte 12 s l < 16 := by
  unfold Verdicts.quantMins
  exact Nat.mod_lt _ (by decide)

/-- Of two integers to a byte, and of mins that have a byte to themselves, the edits leave bytes. -/
theorem repackRow_byte {byte : ℕ → ℕ} {pl : Placement} (hu4 : r.weightsType = .u4)
    (hslots : r.augSlots = 2) {edit : ℕ × (ℕ → ℕ)}
    (hedit : edit ∈ (repackRow ops byte 12 r pl).weights) (v : ℕ) : edit.2 v < 256 := by
  have hmain : ∀ {edit : ℕ × (ℕ → ℕ)}, edit ∈ stores ((List.range (r.k / 256)).flatMap fun b =>
      (List.range 8).flatMap fun s => (List.range 16).map fun i =>
        (pl.mainGroupOf (b * 8 + s) * 16 + i,
          Verdicts.quantMins (fun i => byte (b * 144 + i)) 12 s (2 * i) +
            Verdicts.quantMins (fun i => byte (b * 144 + i)) 12 s (2 * i + 1) * 16)) →
      edit.2 v < 256 := by
    intro edit hedit
    simp only [stores, List.mem_map, List.mem_flatMap] at hedit
    obtain ⟨-, ⟨b, -, s, -, i, -, rfl⟩, rfl⟩ := hedit
    have hlow := quantMins_lt (fun i => byte (b * 144 + i)) s (2 * i)
    have hhigh := quantMins_lt (fun i => byte (b * 144 + i)) s (2 * i + 1)
    dsimp only
    omega
  change edit ∈ (repackRowMins ops byte r 12 pl).weights at hedit
  unfold repackRowMins at hedit
  dsimp only at hedit
  split at hedit
  next => exact hmain hedit
  next =>
    rcases List.mem_append.mp hedit with hstore | haug
    · exact hmain hstore
    · obtain ⟨gm, -, rfl⟩ := List.mem_map.mp haug
      unfold augEdit
      dsimp only
      rw [if_neg (not_not.mpr hu4), if_pos hslots]
      exact Nat.mod_lt _ (by decide)

theorem fillRows_byte {pl : Placement} {rows : List ℕ} (htype : t.ggmlType = 12)
    (hu4 : r.weightsType = .u4) (hslots : r.augSlots = 2) (hempty : ∀ i, r.weights i < 256)
    (i : ℕ) : (fillRows ops data t r pl rows).weights i < 256 := by
  refine edited_forall (P := fun v => v < 256) hempty (fun edit hedit v _ => ?_) i
  obtain ⟨row, -, hin⟩ := List.mem_flatMap.mp hedit
  obtain ⟨edit', hedit', rfl⟩ := List.mem_map.mp hin
  rw [htype] at hedit'
  exact repackRow_byte hu4 hslots hedit' v

theorem emptyTensor_augmented {reordered : Bool} {columnDestOf : List ℤ}
    (hr : r = emptyTensor t mins reordered columnDestOf) (htype : HasMins t.ggmlType)
    (hsplit : mins ≠ .split) (hk : r.k % 32 = 0) : r.Augmented := by
  obtain ⟨hpos, hfit⟩ := groupsPerAug_fits t.ggmlType hsplit reordered
  have hper : r.groupsPerAug = groupsPerAug t.ggmlType mins reordered := by
    rw [hr]
    exact if_pos ⟨htype, hsplit⟩
  have hslots : r.augSlots = augSlots t.ggmlType mins := by
    rw [hr]
    exact if_pos ⟨htype, hsplit⟩
  have hkAug : r.kAug = kAug (groupsPerAug t.ggmlType mins reordered) r.k := by
    rw [hr]
    exact if_pos ⟨htype, hsplit⟩
  have hweights : r.weights = fun _ => 0 := by rw [hr]; rfl
  refine ⟨hk, hper ▸ hkAug, emptyTensor_group hr htype, emptyTensor_zeroPoint hr htype,
    hslots ▸ augSlots_cases _ _, hslots ▸ hper ▸ hfit, hper ▸ hpos, ?_, fun hother => ?_,
    fun _ _ i => by simp [hweights]⟩
  · rcases htype with htype | htype <;> simp [hr, emptyTensor, htype]
  · have h12 : t.ggmlType ≠ 12 := fun h12 => hother ((emptyTensor_u4 hr htype).mpr h12)
    simp [hslots, augSlots, h12]

/-- The columns of the mins of a tensor that has some. -/
theorem repackTensor_augmented (h : repackTensor ops data t request mins = .ok r)
    (hkAug : r.kAug ≠ 0) : r.Augmented ∧ r.mins ≠ .split := by
  obtain ⟨e, he, -, hblocks, -, rfl⟩ := repackTensor_cases h
  change e.kAug ≠ 0 at hkAug
  obtain ⟨htype, hsplit⟩ : HasMins t.ggmlType ∧ mins ≠ .split := by
    by_contra hnot
    rw [he] at hkAug
    exact hkAug (if_neg hnot)
  have haug := emptyTensor_augmented he htype hsplit (mod_group_of_mod_block hblocks)
  have hmins : e.mins = mins := emptyTensor_mins he htype
  refine ⟨{ haug with byte := fun hu4 hslots i => ?_ }, ?_⟩
  · have hu4 : e.weightsType = .u4 := hu4
    have hslots : e.augSlots = 2 := hslots
    exact fillRows_byte ((emptyTensor_u4 he htype).mp hu4) hu4 hslots (haug.byte hu4 hslots) i
  · change e.mins ≠ .split
    rwa [hmins]

/-- The product of the host with a repacked tensor, whatever it was repacked from and with which
floats, is the product with what the reader of repacked tensors decodes, row by row. -/
theorem matvecRepackedHost_eq_dequantized (h : repackTensor ops data t request mins = .ok r)
    (half : ℕ → R) {x : List R} (hx : x.length = r.k) :
    r.matvecRepackedHost half x = some ((List.range r.n).map fun row =>
      ∑ c ∈ range r.k, x.getD c 0 * (r.dequantizeRepacked half).getD (row * r.k + c) 0) := by
  have hk : r.k % 32 = 0 := by
    obtain ⟨e, -, -, hblocks, -, rfl⟩ := repackTensor_cases h
    exact mod_group_of_mod_block hblocks
  rw [RepackedTensor.matvecRepackedHost, if_neg (not_not.mpr hx)]
  refine congrArg some (List.map_congr_left fun row hrow => ?_)
  rw [RepackedTensor.matvecRow_eq half hk (fun hkAug => (repackTensor_augmented h hkAug).1)
    fun hkAug => (repackTensor_augmented h hkAug).2]
  refine sum_congr rfl fun c hc => ?_
  rw [RepackedTensor.getD_dequantizeRepacked half (List.mem_range.mp hrow) (mem_range.mp hc)]

theorem nibble_repack :
    ∃ r, repackTensor someOps (fun _ => 60) flatTensor ⟨none, 1, 1⟩ .nibble = .ok r := by
  refine ⟨_, bind_ok.mpr ⟨(), rfl, bind_ok.mpr ⟨(), rfl, bind_ok.mpr ⟨(), rfl,
    bind_ok.mpr ⟨(), ?_, bind_ok.mpr ⟨(), rfl, rfl⟩⟩⟩⟩⟩⟩
  exact (ensure_ok _ _ _).mpr fun order horder => nomatch horder

/-- Two super-blocks of bytes 60, with two mins to a byte. -/
theorem matvecRepackedHost_eq_dequantized_nibble :
    ∃ r, repackTensor someOps (fun _ => 60) flatTensor ⟨none, 1, 1⟩ .nibble = .ok r ∧
      r.matvecRepackedHost (fun bits => (bits : ℤ)) (List.replicate 512 1) =
        some ((List.range r.n).map fun row => ∑ c ∈ range r.k,
          (List.replicate 512 1).getD c 0 *
            (r.dequantizeRepacked fun bits => (bits : ℤ)).getD (row * r.k + c) 0) := by
  obtain ⟨r, hr⟩ := nibble_repack
  have hk : flatTensor.dims.getD 0 0 = 512 := rfl
  have hlength : (List.replicate 512 (1 : ℤ)).length = r.k := by
    rw [List.length_replicate, repackTensor_k hr, hk]
  exact ⟨r, hr, matvecRepackedHost_eq_dequantized hr _ hlength⟩

end Repacked

end Arcint.Gguf.Packing
