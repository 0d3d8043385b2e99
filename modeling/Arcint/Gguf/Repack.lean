import Arcint.Foundation.Scatter
import Arcint.Gguf.Decode
import Mathlib.Data.List.GetD
import Mathlib.Tactic.Ring

/-! # Repacked tensors

A repacked tensor holds the scaled integers of the file's rows in groups of 32 columns, at
the places a column order gives the groups. The mins of the types that have one are further
columns, against which the activation is widened by its group sums, or a matrix of their own.
In exact arithmetic such a tensor computes what the file's rows compute on the activation
read through the column order.
-/

namespace Arcint.Gguf

open Foundation

inductive RepackMins where
  | exact
  | shared
  | nibble
  | split
  deriving DecidableEq, Repr

/-- The types whose groups have a min. -/
def HasMins (type : ℕ) : Prop := type = 12 ∨ type = 13

instance (type : ℕ) : Decidable (HasMins type) := inferInstanceAs (Decidable (_ ∨ _))

/-- What a decode reads of a tensor, by row: the scaled integer of a column, the min of a group
of 32 columns, and for a packed min the integer stored for the group and the scale of the
augmented group it is stored in. -/
structure Reading (R : Type) where
  main : ℕ → ℕ → R
  min : ℕ → ℕ → R
  stored : ℕ → ℕ → ℕ
  augScale : ℕ → ℕ → R

/-- Where the file's groups go. -/
structure Placement where
  mainGroupOf : ℕ → ℕ
  augGroupOf : ℕ → ℕ
  augSlotOf : ℕ → ℕ

structure RepackedTensor (R : Type) where
  n : ℕ
  k : ℕ
  kAug : ℕ
  groupsPerAug : ℕ
  augSlots : ℕ
  weights : ℕ → ℕ → R
  minMatrix : Option (ℕ → ℕ → R)

/-! ## Packing -/

/-- The augmented slot follows the order of the destinations. -/
def placement (groupsPerAug : ℕ) (dest : Option (List Int)) : Placement :=
  let dg (g : ℕ) : ℕ :=
    match dest with
    | none => g
    | some dest => (dest.getD (g * 32) 0 / 32).toNat
  ⟨dg, fun g => dg g / groupsPerAug, fun g => dg g % groupsPerAug⟩

/-- A nibble or a byte holds a min, or two nibbles do. -/
def augSlots (type : ℕ) (mins : RepackMins) : ℕ := if type = 12 ∧ mins ≠ .nibble then 2 else 1

def groupsPerAug (type : ℕ) (mins : RepackMins) (reordered : Bool) : ℕ :=
  let perGroup := 32 / augSlots type mins
  match mins with
  | .exact => if reordered = true then 4 else 8
  | .shared => min perGroup (if type = 12 then 16 else 32)
  | .nibble => perGroup
  | .split => 8

/-- The columns of the mins: a number of groups that makes the width even. -/
def kAug (groupsPerAug k : ℕ) : ℕ :=
  let kAug := (k / 32 + groupsPerAug - 1) / groupsPerAug * 32
  if (k + kAug) / 32 % 2 ≠ 0 then kAug + 32 else kAug

section Values

variable {R : Type} [CommRing R]

/-- The file's value of a column. -/
def Reading.value (type : ℕ) (file : Reading R) (row c : ℕ) : R :=
  if HasMins type then file.main row c - file.min row (c / 32) else file.main row c

def mainWrites (pl : Placement) (k : ℕ) (main : ℕ → R) : List (ℕ × R) :=
  nested (k / 32) 32 fun g l => (pl.mainGroupOf g * 32 + l, main (g * 32 + l))

/-- The stored integers under the scales of their augmented groups, the high nibble first. -/
def augWrites (pl : Placement) (slots k : ℕ) (stored : ℕ → ℕ) (scale : ℕ → R) : List (ℕ × R) :=
  (List.range (k / 32)).flatMap fun g =>
    let ag := pl.augGroupOf g
    let slot := pl.augSlotOf g
    if slots = 2 then
      [(k + (ag * 32 + 2 * slot), scale ag * (stored g / 16 : ℕ)),
        (k + (ag * 32 + (2 * slot + 1)), scale ag * (stored g % 16 : ℕ))]
    else [(k + (ag * 32 + slot), scale ag * stored g)]

def repackRows (t : TensorInfo) (mins : RepackMins) (dest : Option (List Int))
    (file : Reading R) : RepackedTensor R :=
  let k := t.dims.getD 0 0
  let n := t.dims.getD 1 0
  if HasMins t.ggmlType then
    let slots := augSlots t.ggmlType mins
    let perAug := groupsPerAug t.ggmlType mins dest.isSome
    let pl := placement perAug dest
    if mins = .split then
      { n, k
        kAug := 0
        groupsPerAug := perAug
        augSlots := slots
        weights := fun row => scatter (fun _ => 0) (mainWrites pl k (file.main row))
        minMatrix := some fun row => scatter (fun _ => 0)
          ((List.range (k / 32)).map fun g => (pl.mainGroupOf g, file.min row g)) }
    else
      { n, k
        kAug := kAug perAug k
        groupsPerAug := perAug
        augSlots := slots
        weights := fun row => scatter (fun _ => 0) (mainWrites pl k (file.main row) ++
          augWrites pl slots k (file.stored row) (file.augScale row))
        minMatrix := none }
  else
    { n, k
      kAug := 0
      groupsPerAug := 8
      augSlots := 2
      weights := file.main
      minMatrix := none }

/-- Repack a tensor, as values. -/
def repackValues (t : TensorInfo) (mins : RepackMins) (dest : Option (List Int))
    (file : Reading R) : Except RepackError (RepackedTensor R) := do
  ensure (repackSupported t.ggmlType) (RepackError.unsupportedType t.ggmlType)
  ensure (t.dims.length = 2) RepackError.notTwoDimensional
  ensure (t.dims.getD 0 0 % repackBlockSize t.ggmlType = 0) RepackError.partialBlocks
  ensure (∀ order ∈ dest, order.length = t.dims.getD 0 0) RepackError.columnSizeMismatch
  checkColumns t.ggmlType (t.dims.getD 0 0) dest
  return repackRows t mins dest file

/-- Row `i` of the result is row `srcOf i`; a source that is no row is refused. -/
def permuteRows (r : RepackedTensor R) (srcOf : ℕ → ℕ) : Option (RepackedTensor R) :=
  if ∀ i < r.n, srcOf i < r.n then
    some { r with
      weights := fun i => r.weights (srcOf i)
      minMatrix := r.minMatrix.map fun mins i => mins (srcOf i) }
  else none

/-! ## The served computation -/

/-- What turns the group sums into the augmented columns. -/
def RepackedTensor.augmentationMatrix (r : RepackedTensor R) (g : ℕ) : ℕ → R :=
  let ag := g / r.groupsPerAug
  let slot := g % r.groupsPerAug
  scatter (fun _ => 0)
    (if r.augSlots = 2 then [(ag * 32 + 2 * slot, -16), (ag * 32 + (2 * slot + 1), -1)]
    else [(ag * 32 + slot, -1)])

def activationGroupSums (x : ℕ → R) (g : ℕ) : R := ∑ l ∈ Finset.range 32, x (g * 32 + l)

/-- The activation with the augmented columns behind it. -/
def RepackedTensor.widenActivation (r : RepackedTensor R) (x : ℕ → R) (c : ℕ) : R :=
  if c < r.k then x c
  else ∑ g ∈ Finset.range (r.k / 32), activationGroupSums x g * r.augmentationMatrix g (c - r.k)

/-- A row of the repacked tensor against an activation. -/
def RepackedTensor.matMul (r : RepackedTensor R) (x : ℕ → R) (row : ℕ) : R :=
  let main := ∑ c ∈ Finset.range (r.k + r.kAug), r.widenActivation x c * r.weights row c
  match r.minMatrix with
  | none => main
  | some mins => main + ∑ g ∈ Finset.range (r.k / 32), activationGroupSums x g * -mins row g

/-- The stored integers are the mins. -/
def Reading.Packs (file : Reading R) (pl : Placement) : Prop :=
  ∀ row g, file.augScale row (pl.augGroupOf g) * file.stored row g = file.min row g

/-! ## What it computes -/

section Served

variable {perAug k : ℕ} {dest : Option (List Int)} {main : ℕ → R}

/-- The column that holds the file's column. -/
def destColumn (pl : Placement) (k : ℕ) (j : ℕ) : ℕ := moveBlocks pl.mainGroupOf 0 (k / 32) 32 j

theorem destColumn_group (pl : Placement) {g l : ℕ} (hg : g < k / 32) (hl : l < 32) :
    destColumn pl k (g * 32 + l) = pl.mainGroupOf g * 32 + l := by
  have hmove := @moveBlocks_block pl.mainGroupOf 0 (k / 32) 32 g l hg hl
  rwa [Nat.zero_add, Nat.zero_add] at hmove

variable {pl : Placement} (hk : k % 32 = 0) (hpl : PermutesBelow (k / 32) pl.mainGroupOf)

include hk in
theorem groups_mul : k / 32 * 32 = k := Nat.div_mul_cancel (Nat.dvd_of_mod_eq_zero hk)

include hk hpl in
theorem destColumn_permutes : PermutesBelow k (destColumn pl k) :=
  hpl.moveBlocks (by rw [Nat.zero_add, groups_mul hk])

include hpl in
/-- The main columns hold the file's columns, whatever stands behind them. -/
theorem scatter_mainWrites {rest : List (ℕ × R)} (hrest : ∀ write ∈ rest, k ≤ write.1) {g l : ℕ}
    (hg : g < k / 32) (hl : l < 32) :
    scatter (fun _ => 0) (mainWrites pl k main ++ rest) (pl.mainGroupOf g * 32 + l) =
      main (g * 32 + l) := by
  have hlt := @block_lt (k / 32) 32 (pl.mainGroupOf g) l (hpl.lt g hg) hl
  refine scatter_eq ⟨_, List.mem_append_left _ (mem_nested.mpr ⟨g, hg, l, hl, rfl⟩), rfl⟩ ?_
  intro write hwrite hkey
  rcases List.mem_append.mp hwrite with hmain | hbehind
  · obtain ⟨g', hg', l', hl', rfl⟩ := mem_nested.mp hmain
    obtain ⟨hgroup, hcolumn⟩ := block_inj hl' hl hkey
    rw [hpl.inj g' hg' g hg hgroup, hcolumn]
  · have hge := hrest write hbehind
    omega

include hk hpl in
/-- The main columns against the activation, in the file's order. -/
theorem sum_mainWrites {rest : List (ℕ × R)} (hrest : ∀ write ∈ rest, k ≤ write.1) (x : ℕ → R) :
    ∑ c ∈ Finset.range k, x c * scatter (fun _ => 0) (mainWrites pl k main ++ rest) c =
      ∑ j ∈ Finset.range k, main j * x (destColumn pl k j) := by
  rw [← (destColumn_permutes hk hpl).sum_comp]
  refine Finset.sum_congr rfl fun j hj => ?_
  have hj : j < k / 32 * 32 := by rwa [groups_mul hk, ← Finset.mem_range]
  obtain ⟨g, hg, l, hl, rfl⟩ := exists_block hj
  rw [destColumn_group pl hg hl, scatter_mainWrites hpl hrest hg hl, mul_comm]

include hk in
/-- The mins against the group sums, in the file's order of groups, are part of the values. -/
theorem sum_values (file : Reading R) (row : ℕ) (x : ℕ → R) :
    ∑ j ∈ Finset.range k, file.main row j * x (destColumn pl k j) +
        ∑ g ∈ Finset.range (k / 32),
          activationGroupSums x (pl.mainGroupOf g) * -file.min row g =
      ∑ j ∈ Finset.range k, (file.main row j - file.min row (j / 32)) * x (destColumn pl k j) := by
  have hmins : ∑ g ∈ Finset.range (k / 32),
        activationGroupSums x (pl.mainGroupOf g) * -file.min row g =
      ∑ j ∈ Finset.range k, -file.min row (j / 32) * x (destColumn pl k j) := by
    nth_rewrite 2 [← groups_mul hk]
    rw [sum_blocks]
    refine Finset.sum_congr rfl fun g hg => ?_
    rw [activationGroupSums, Finset.sum_mul]
    refine Finset.sum_congr rfl fun l hl => ?_
    have hg := Finset.mem_range.mp hg
    have hl := Finset.mem_range.mp hl
    rw [block_div hl, destColumn_group pl hg hl, mul_comm]
  rw [hmins, ← Finset.sum_add_distrib]
  refine Finset.sum_congr rfl fun j _ => ?_
  ring

/-- A group has its columns in the augmented part to itself. -/
theorem augColumn_inj {perAug slots d d' b b' : ℕ} (hfit : slots * perAug ≤ 32)
    (hperAug : 0 < perAug) (hb : b < slots) (hb' : b' < slots)
    (heq : d / perAug * 32 + (slots * (d % perAug) + b) =
      d' / perAug * 32 + (slots * (d' % perAug) + b')) : d = d' ∧ b = b' := by
  have hcell : ∀ d b, b < slots → slots * (d % perAug) + b < 32 := by
    intro d b hb
    have hslot := @block_lt perAug slots (d % perAug) b (Nat.mod_lt _ hperAug) hb
    rw [Nat.mul_comm slots] at hfit ⊢
    omega
  obtain ⟨hgroup, hslot⟩ := block_inj (hcell d b hb) (hcell d' b' hb') heq
  rw [Nat.mul_comm slots, Nat.mul_comm slots] at hslot
  obtain ⟨hmod, hpart⟩ := block_inj hb hb' hslot
  rw [← Nat.div_add_mod d perAug, ← Nat.div_add_mod d' perAug, hgroup, hmod]
  exact ⟨rfl, hpart⟩

/-- The augmented part has room for every group. -/
theorem augColumn_lt {perAug slots d b : ℕ} (hfit : slots * perAug ≤ 32) (hperAug : 0 < perAug)
    (hb : b < slots) (hd : d < k / 32) :
    d / perAug * 32 + (slots * (d % perAug) + b) < kAug perAug k := by
  have hcell := @block_lt perAug slots (d % perAug) b (Nat.mod_lt _ hperAug) hb
  have hgroup : d / perAug < (k / 32 + perAug - 1) / perAug := by
    rw [Nat.div_lt_iff_lt_mul hperAug]
    have hup := Nat.div_mul_le_self (k / 32 + perAug - 1) perAug
    have hrem := Nat.mod_lt (k / 32 + perAug - 1) hperAug
    have hsplit := Nat.div_add_mod' (k / 32 + perAug - 1) perAug
    omega
  have hbase := @block_lt ((k / 32 + perAug - 1) / perAug) 32 (d / perAug)
    (slots * (d % perAug) + b) hgroup (by rw [Nat.mul_comm slots] at hfit ⊢; omega)
  unfold kAug
  dsimp only
  split <;> omega

/-- What a column holds of a stored min. -/
def minPart (slots stored b : ℕ) : ℕ :=
  if slots = 2 then if b = 0 then stored / 16 else stored % 16 else stored

/-- What the group sums are multiplied with for a column. -/
def minFactor (slots b : ℕ) : R := if slots = 2 ∧ b = 0 then -16 else -1

theorem sum_minPart {slots : ℕ} (hslots : slots = 1 ∨ slots = 2) (stored : ℕ) (scale : R) :
    ((List.range slots).map fun b => minFactor slots b * (scale * minPart slots stored b)).sum =
      -(scale * stored) := by
  rcases hslots with rfl | rfl
  · simp [List.range_succ, minPart, minFactor]
  · have hsplit : ((stored / 16 : ℕ) : R) * 16 + (stored % 16 : ℕ) = stored := by
      exact_mod_cast congrArg (Nat.cast : ℕ → R) (Nat.div_add_mod' stored 16)
    simp only [List.range_succ, List.range_zero, List.nil_append, List.cons_append, List.map_cons,
      List.map_nil, List.sum_cons, List.sum_nil, minPart, minFactor, if_true, and_true, one_ne_zero,
      if_false, and_false]
    rw [← hsplit]
    ring

/-- The writes of the mins, column by column. -/
theorem augWrites_eq {slots : ℕ} (hslots : slots = 1 ∨ slots = 2) (stored : ℕ → ℕ)
    (scale : ℕ → R) :
    augWrites pl slots k stored scale =
      nested (k / 32) slots fun g b =>
        (k + (pl.augGroupOf g * 32 + (slots * pl.augSlotOf g + b)),
          scale (pl.augGroupOf g) * minPart slots (stored g) b) := by
  rcases hslots with rfl | rfl
  · simp [augWrites, nested, List.range_succ, minPart]
  · simp [augWrites, nested, List.range_succ, minPart]

theorem le_of_mem_augWrites {slots : ℕ} (hslots : slots = 1 ∨ slots = 2) {stored : ℕ → ℕ}
    {scale : ℕ → R} {write : ℕ × R} (hwrite : write ∈ augWrites pl slots k stored scale) :
    k ≤ write.1 := by
  rw [augWrites_eq hslots] at hwrite
  obtain ⟨g, -, b, -, rfl⟩ := mem_nested.mp hwrite
  exact Nat.le_add_right _ _

/-- The placement of a column order fits the groups of an augmented group. -/
structure Fits (r : RepackedTensor R) (pl : Placement) : Prop where
  slots : r.augSlots = 1 ∨ r.augSlots = 2
  fit : r.augSlots * r.groupsPerAug ≤ 32
  pos : 0 < r.groupsPerAug
  augGroup : ∀ g, pl.augGroupOf g = pl.mainGroupOf g / r.groupsPerAug
  augSlot : ∀ g, pl.augSlotOf g = pl.mainGroupOf g % r.groupsPerAug

include hk hpl in
/-- The augmented columns of a row hold the stored mins. -/
theorem scatter_augWrites {r : RepackedTensor R} (hfits : Fits r pl) {stored : ℕ → ℕ}
    {scale : ℕ → R} {g b : ℕ} (hg : g < k / 32) (hb : b < r.augSlots) :
    scatter (fun _ => 0)
        (mainWrites pl k main ++ augWrites pl r.augSlots k stored scale)
        (k + (pl.mainGroupOf g / r.groupsPerAug * 32 +
          (r.augSlots * (pl.mainGroupOf g % r.groupsPerAug) + b))) =
      scale (pl.augGroupOf g) * minPart r.augSlots (stored g) b := by
  rw [augWrites_eq hfits.slots]
  refine scatter_eq ⟨_, List.mem_append_right _ (mem_nested.mpr ⟨g, hg, b, hb, rfl⟩), ?_⟩ ?_
  · rw [hfits.augGroup, hfits.augSlot]
  intro write hwrite hkey
  rcases List.mem_append.mp hwrite with hmain | haug
  · obtain ⟨g', hg', l', hl', rfl⟩ := mem_nested.mp hmain
    have hlt := @block_lt (k / 32) 32 (pl.mainGroupOf g') l' (hpl.lt g' hg') hl'
    rw [groups_mul hk] at hlt
    dsimp only at hkey
    omega
  · obtain ⟨g', hg', b', hb', rfl⟩ := mem_nested.mp haug
    dsimp only at hkey
    rw [hfits.augGroup, hfits.augSlot] at hkey
    obtain ⟨hgroup, hpart⟩ :=
      augColumn_inj hfits.fit hfits.pos hb' hb (Nat.add_left_cancel hkey)
    rw [hpl.inj g' hg' g hg hgroup, hpart]

theorem augmentationMatrix_eq {r : RepackedTensor R} (hslots : r.augSlots = 1 ∨ r.augSlots = 2)
    (d : ℕ) :
    r.augmentationMatrix d = scatter (fun _ => 0) ((List.range r.augSlots).map fun b =>
      (d / r.groupsPerAug * 32 + (r.augSlots * (d % r.groupsPerAug) + b),
        minFactor r.augSlots b)) := by
  unfold RepackedTensor.augmentationMatrix
  rcases hslots with hslots | hslots
  · simp [hslots, List.range_succ, minFactor]
  · simp [hslots, List.range_succ, minFactor]

include hk hpl in
/-- The augmentation matrix reads a group's min back out of the augmented columns. -/
theorem sum_augmentationMatrix {r : RepackedTensor R} (hfits : Fits r pl) {stored : ℕ → ℕ}
    {scale : ℕ → R} {g : ℕ} (hg : g < k / 32) :
    ∑ a ∈ Finset.range (kAug r.groupsPerAug k),
        r.augmentationMatrix (pl.mainGroupOf g) a *
          scatter (fun _ => 0)
            (mainWrites pl k main ++ augWrites pl r.augSlots k stored scale) (k + a) =
      -(scale (pl.augGroupOf g) * stored g) := by
  rw [augmentationMatrix_eq hfits.slots, sum_scatter_mul, List.map_map]
  · rw [← sum_minPart hfits.slots]
    refine congrArg List.sum (List.map_congr_left fun b hb => ?_)
    rw [Function.comp_apply, scatter_augWrites hk hpl hfits hg (List.mem_range.mp hb)]
  · intro write hwrite
    obtain ⟨b, hb, rfl⟩ := List.mem_map.mp hwrite
    exact augColumn_lt hfits.fit hfits.pos (List.mem_range.mp hb) (hpl.lt g hg)
  · rw [List.map_map]
    refine List.Nodup.map (fun b b' heq => ?_) List.nodup_range
    dsimp only [Function.comp_apply] at heq
    omega

variable {t : TensorInfo} {mins : RepackMins} {file : Reading R}

theorem augSlots_cases (type : ℕ) (mins : RepackMins) :
    augSlots type mins = 1 ∨ augSlots type mins = 2 := by
  unfold augSlots
  split
  · exact .inr rfl
  · exact .inl rfl

theorem groupsPerAug_fits (type : ℕ) {mins : RepackMins} (hmins : mins ≠ .split)
    (reordered : Bool) :
    0 < groupsPerAug type mins reordered ∧
      augSlots type mins * groupsPerAug type mins reordered ≤ 32 := by
  unfold groupsPerAug augSlots
  cases mins with
  | split => exact absurd rfl hmins
  | exact => cases reordered <;> by_cases h : type = 12 <;> simp [h]
  | shared => by_cases h : type = 12 <;> simp [h]
  | nibble => simp

include hk in
/-- The main columns and the columns behind them, apart. -/
theorem matMul_columns {r : RepackedTensor R} (hrk : r.k = k) (x : ℕ → R) (row : ℕ) :
    ∑ c ∈ Finset.range (r.k + r.kAug), r.widenActivation x c * r.weights row c =
      ∑ c ∈ Finset.range k, x c * r.weights row c +
        ∑ g ∈ Finset.range (k / 32), activationGroupSums x g *
          ∑ a ∈ Finset.range r.kAug, r.augmentationMatrix g a * r.weights row (k + a) := by
  subst hrk
  rw [Finset.sum_range_add]
  refine congrArg₂ (· + ·) (Finset.sum_congr rfl fun c hc => ?_) ?_
  · rw [RepackedTensor.widenActivation, if_pos (Finset.mem_range.mp hc)]
  · have hwide : ∀ a, r.widenActivation x (r.k + a) =
        ∑ g ∈ Finset.range (r.k / 32), activationGroupSums x g * r.augmentationMatrix g a := by
      intro a
      rw [RepackedTensor.widenActivation, if_neg (by omega), Nat.add_sub_cancel_left]
    simp only [hwide, Finset.sum_mul, Finset.mul_sum]
    rw [Finset.sum_comm]
    refine Finset.sum_congr rfl fun g _ => Finset.sum_congr rfl fun a _ => ?_
    ring

include hk hpl in
/-- Mins in a matrix of their own, in the order of the destinations. -/
theorem matMul_split {r : RepackedTensor R} {minMatrix : ℕ → ℕ → R} {row : ℕ} (hrk : r.k = k)
    (haug : r.kAug = 0) (hminMatrix : r.minMatrix = some minMatrix)
    (hweights : r.weights row = scatter (fun _ => 0) (mainWrites pl k (file.main row)))
    (hmins : minMatrix row = scatter (fun _ => 0)
      ((List.range (k / 32)).map fun g => (pl.mainGroupOf g, file.min row g))) (x : ℕ → R) :
    r.matMul x row =
      ∑ j ∈ Finset.range k, (file.main row j - file.min row (j / 32)) * x (destColumn pl k j) := by
  have hmin : ∀ g < k / 32, minMatrix row (pl.mainGroupOf g) = file.min row g := by
    intro g hg
    rw [hmins]
    exact scatter_permuted hpl _ (file.min row) hg
  have hmain := @sum_mainWrites R _ k (file.main row) pl hk hpl [] (by simp) x
  rw [List.append_nil, ← hweights] at hmain
  rw [← sum_values hk, ← hmain]
  unfold RepackedTensor.matMul
  rw [hminMatrix]
  dsimp only
  rw [matMul_columns hk hrk, haug, hrk,
    ← hpl.sum_comp fun g => activationGroupSums x g * -minMatrix row g]
  simp only [Finset.range_zero, Finset.sum_empty, mul_zero, Finset.sum_const_zero, add_zero]
  refine congrArg₂ (· + ·) rfl (Finset.sum_congr rfl fun g hg => ?_)
  rw [hmin g (Finset.mem_range.mp hg)]

include hk hpl in
/-- Mins packed into augmented columns. -/
theorem matMul_packed {r : RepackedTensor R} {row : ℕ} (hrk : r.k = k)
    (haug : r.kAug = kAug r.groupsPerAug k) (hminMatrix : r.minMatrix = none) (hfits : Fits r pl)
    (hweights : r.weights row = scatter (fun _ => 0) (mainWrites pl k (file.main row) ++
      augWrites pl r.augSlots k (file.stored row) (file.augScale row)))
    (hpacks : file.Packs pl) (x : ℕ → R) :
    r.matMul x row =
      ∑ j ∈ Finset.range k, (file.main row j - file.min row (j / 32)) * x (destColumn pl k j) := by
  have hmain := @sum_mainWrites R _ k (file.main row) pl hk hpl _
    (fun write hwrite =>
      @le_of_mem_augWrites R _ k pl r.augSlots hfits.slots (file.stored row) (file.augScale row)
        write hwrite) x
  rw [← hweights] at hmain
  rw [← sum_values hk, ← hmain]
  unfold RepackedTensor.matMul
  rw [hminMatrix]
  dsimp only
  rw [matMul_columns hk hrk, ← hpl.sum_comp]
  refine congrArg₂ (· + ·) rfl (Finset.sum_congr rfl fun g hg => ?_)
  rw [hweights, haug, sum_augmentationMatrix hk hpl hfits (Finset.mem_range.mp hg), hpacks]

/-- A repacked tensor with mins computes what the file's rows compute on the reordered
activation. -/
theorem matMul_repackRows (htype : HasMins t.ggmlType) (hk : t.dims.getD 0 0 % 32 = 0)
    (hpl : PermutesBelow (t.dims.getD 0 0 / 32)
      (placement (groupsPerAug t.ggmlType mins dest.isSome) dest).mainGroupOf)
    (hpacks : mins ≠ .split →
      file.Packs (placement (groupsPerAug t.ggmlType mins dest.isSome) dest))
    (x : ℕ → R) (row : ℕ) :
    (repackRows t mins dest file).matMul x row =
      ∑ j ∈ Finset.range (t.dims.getD 0 0), file.value t.ggmlType row j *
        x (destColumn (placement (groupsPerAug t.ggmlType mins dest.isSome) dest)
          (t.dims.getD 0 0) j) := by
  have hvalue : ∀ j, file.value t.ggmlType row j = file.main row j - file.min row (j / 32) :=
    fun j => if_pos htype
  simp only [hvalue]
  unfold repackRows
  dsimp only
  rw [if_pos htype]
  split
  next => exact matMul_split hk hpl rfl rfl rfl rfl rfl x
  next hpacked =>
    obtain ⟨hpos, hfit⟩ := groupsPerAug_fits t.ggmlType hpacked dest.isSome
    have hslots := augSlots_cases t.ggmlType mins
    exact matMul_packed hk hpl rfl rfl rfl ⟨hslots, hfit, hpos, fun _ => rfl, fun _ => rfl⟩ rfl
      (hpacks hpacked) x

/-- A type without mins computes with the file's own rows. -/
theorem matMul_repackRows_of_not (htype : ¬ HasMins t.ggmlType) (x : ℕ → R) (row : ℕ) :
    (repackRows t mins dest file).matMul x row =
      ∑ j ∈ Finset.range (t.dims.getD 0 0), file.value t.ggmlType row j * x j := by
  have hvalue : ∀ j, file.value t.ggmlType row j = file.main row j := fun j => if_neg htype
  simp only [hvalue]
  unfold repackRows
  dsimp only
  rw [if_neg htype]
  unfold RepackedTensor.matMul
  dsimp only
  rw [Nat.add_zero]
  refine Finset.sum_congr rfl fun c hc => ?_
  rw [RepackedTensor.widenActivation, if_pos (Finset.mem_range.mp hc), mul_comm]

/-- The table of a column order. -/
def columnOrder (k : ℕ) (order : ℕ → ℕ) : List Int := (List.range k).map fun j => (order j : Int)

@[simp] theorem length_columnOrder (k : ℕ) (order : ℕ → ℕ) : (columnOrder k order).length = k := by
  simp [columnOrder]

theorem getD_columnOrder {order : ℕ → ℕ} {j : ℕ} (hj : j < k) :
    (columnOrder k order).getD j 0 = order j := by
  have hlength : j < (columnOrder k order).length := by rwa [length_columnOrder]
  rw [List.getD_eq_getElem _ _ hlength]
  simp only [columnOrder, List.getElem_map, List.getElem_range]

/-- An order that passes the checks moves whole groups. -/
theorem order_eq_of_checkColumns {type : ℕ} {order : ℕ → ℕ} (htype : HasMins type)
    (hcheck : checkColumns type k (some (columnOrder k order)) = .ok ()) (perAug : ℕ) {g l : ℕ}
    (hg : g < k / 32) (hl : l < 32) :
    (placement perAug (some (columnOrder k order))).mainGroupOf g * 32 + l =
      order (g * 32 + l) := by
  have hread : ∀ l < 32, (columnOrder k order).getD (g * 32 + l) 0 = order (g * 32 + l) :=
    fun l hl => getD_columnOrder (Nat.lt_of_lt_of_le (block_lt hg hl) (Nat.div_mul_le_self k 32))
  have hfirst := hread 0 (by decide)
  rw [Nat.add_zero] at hfirst
  unfold HasMins at htype
  unfold checkColumns at hcheck
  rw [if_pos htype] at hcheck
  obtain ⟨_, -, hgroups⟩ := bind_ok.mp hcheck
  have hgroup := (checkAll_ok _ _ _).mp hgroups g (List.mem_range.mpr hg)
  obtain ⟨_, haligned, hwhole⟩ := bind_ok.mp hgroup
  have haligned := (ensure_ok _ _ _).mp haligned
  have hcolumn := (ensure_ok _ _ _).mp hwhole l (List.mem_range.mpr hl)
  rw [hread l hl, hfirst] at hcolumn
  rw [hfirst, Int.tmod_eq_emod_of_nonneg (Int.natCast_nonneg _)] at haligned
  dsimp only [placement]
  rw [hfirst]
  omega

/-- An order of whole groups passes the checks. -/
theorem checkColumns_columnOrder {type : ℕ} {order : ℕ → ℕ} (htype : HasMins type)
    (haligned : ∀ g < k / 32, order (g * 32) % 32 = 0)
    (hwhole : ∀ g < k / 32, ∀ l < 32, order (g * 32 + l) = order (g * 32) + l) :
    checkColumns type k (some (columnOrder k order)) = .ok () := by
  have hread : ∀ g < k / 32, ∀ l < 32, (columnOrder k order).getD (g * 32 + l) 0 =
      order (g * 32 + l) := fun g hg l hl =>
    getD_columnOrder (Nat.lt_of_lt_of_le (block_lt hg hl) (Nat.div_mul_le_self k 32))
  unfold HasMins at htype
  unfold checkColumns
  rw [if_pos htype]
  refine bind_ok.mpr ⟨(), (ensure_ok _ _ _).mpr (Int.natCast_nonneg (k / 32)), ?_⟩
  refine (checkAll_ok _ _ _).mpr fun g hg => ?_
  have hg : g < k / 32 := List.mem_range.mp hg
  have hfirst := hread g hg 0 (by decide)
  rw [Nat.add_zero] at hfirst
  refine bind_ok.mpr ⟨(), (ensure_ok _ _ _).mpr ?_, (ensure_ok _ _ _).mpr fun l hl => ?_⟩
  · rw [hfirst, Int.tmod_eq_emod_of_nonneg (Int.natCast_nonneg _)]
    exact_mod_cast haligned g hg
  · have hl : l < 32 := List.mem_range.mp hl
    rw [hread g hg l hl, hfirst, hwhole g hg l hl]
    exact Int.natCast_add _ _

/-- An order of columns that passes the checks is an order of groups. -/
theorem placement_permutes {type : ℕ} {order : ℕ → ℕ} (htype : HasMins type) (hk : k % 32 = 0)
    (horder : PermutesBelow k order)
    (hcheck : checkColumns type k (some (columnOrder k order)) = .ok ()) (perAug : ℕ) :
    PermutesBelow (k / 32) (placement perAug (some (columnOrder k order))).mainGroupOf := by
  have hlt : ∀ g < k / 32, g * 32 < k := by
    intro g hg
    have hin := @block_lt _ 32 g 0 hg (by decide)
    rwa [Nat.add_zero, groups_mul hk] at hin
  have hfirst := fun {g : ℕ} hg =>
    @order_eq_of_checkColumns k type order htype hcheck perAug g 0 hg (by decide)
  simp only [Nat.add_zero] at hfirst
  constructor
  · intro g hg
    have hdestination := horder.lt _ (hlt g hg)
    rw [← hfirst hg] at hdestination
    omega
  · intro g hg g' hg' heq
    have hsame := horder.inj _ (hlt g hg) _ (hlt g' hg') (by rw [← hfirst hg, ← hfirst hg', heq])
    omega

variable {r : RepackedTensor R}

/-- What a repack goes through. -/
theorem repackValues_cases (h : repackValues t mins dest file = .ok r) :
    r = repackRows t mins dest file ∧ t.dims.getD 0 0 % repackBlockSize t.ggmlType = 0 ∧
      checkColumns t.ggmlType (t.dims.getD 0 0) dest = .ok () := by
  obtain ⟨_, _, h1⟩ := bind_ok.mp h
  obtain ⟨_, _, h2⟩ := bind_ok.mp h1
  obtain ⟨_, hblocks, h3⟩ := bind_ok.mp h2
  obtain ⟨_, _, h4⟩ := bind_ok.mp h3
  obtain ⟨_, hcolumns, hresult⟩ := bind_ok.mp h4
  cases hresult
  exact ⟨rfl, (ensure_ok _ _ _).mp hblocks, hcolumns⟩

theorem repackValues_ok (htype : repackSupported t.ggmlType = true) (hrank : t.dims.length = 2)
    (hblocks : t.dims.getD 0 0 % repackBlockSize t.ggmlType = 0)
    (hsize : ∀ order ∈ dest, order.length = t.dims.getD 0 0)
    (hcolumns : checkColumns t.ggmlType (t.dims.getD 0 0) dest = .ok ()) :
    repackValues t mins dest file = .ok (repackRows t mins dest file) :=
  bind_ok.mpr ⟨(), (ensure_ok _ _ _).mpr htype, bind_ok.mpr ⟨(), (ensure_ok _ _ _).mpr hrank,
    bind_ok.mpr ⟨(), (ensure_ok _ _ _).mpr hblocks, bind_ok.mpr ⟨(), (ensure_ok _ _ _).mpr hsize,
      bind_ok.mpr ⟨(), hcolumns, rfl⟩⟩⟩⟩⟩

theorem mod_group_of_mod_block {type k : ℕ} (h : k % repackBlockSize type = 0) : k % 32 = 0 := by
  unfold repackBlockSize at h
  split at h <;> omega

/-- Without a column order, a repacked tensor computes what the file's rows compute. -/
theorem matMul_repackValues_none (h : repackValues t mins none file = .ok r)
    (hpacks : HasMins t.ggmlType → mins ≠ .split →
      file.Packs (placement (groupsPerAug t.ggmlType mins false) none))
    (x : ℕ → R) (row : ℕ) :
    r.matMul x row =
      ∑ j ∈ Finset.range (t.dims.getD 0 0), file.value t.ggmlType row j * x j := by
  obtain ⟨rfl, hblocks, -⟩ := repackValues_cases h
  by_cases htype : HasMins t.ggmlType
  · have hsame : ∀ j, destColumn (placement (groupsPerAug t.ggmlType mins false) none)
        (t.dims.getD 0 0) j = j := fun j => moveBlocks_id 0 _ 32 j
    have hmatMul := @matMul_repackRows R _ none t mins file htype (mod_group_of_mod_block hblocks)
      (.id _) (hpacks htype) x row
    rw [hmatMul]
    exact Finset.sum_congr rfl fun j _ => congrArg _ (congrArg x (hsame j))
  · exact matMul_repackRows_of_not htype x row

/-- Only the types with mins take a column order. -/
theorem repackValues_some_hasMins {order : List Int}
    (h : repackValues t mins (some order) file = .ok r) : HasMins t.ggmlType := by
  obtain ⟨-, -, hcolumns⟩ := repackValues_cases h
  by_contra hnot
  unfold HasMins at hnot
  unfold checkColumns at hcolumns
  rw [if_neg hnot] at hcolumns
  exact absurd ((ensure_ok _ _ _).mp hcolumns) (by simp)

/-- With a column order it computes on the activation read through the order. -/
theorem matMul_repackValues_some {order : ℕ → ℕ}
    (horder : PermutesBelow (t.dims.getD 0 0) order)
    (h : repackValues t mins (some (columnOrder (t.dims.getD 0 0) order)) file = .ok r)
    (hpacks : mins ≠ .split → file.Packs (placement (groupsPerAug t.ggmlType mins true)
      (some (columnOrder (t.dims.getD 0 0) order))))
    (x : ℕ → R) (row : ℕ) :
    r.matMul x row =
      ∑ j ∈ Finset.range (t.dims.getD 0 0), file.value t.ggmlType row j * x (order j) := by
  obtain ⟨rfl, hblocks, hcolumns⟩ := repackValues_cases h
  have hk := mod_group_of_mod_block hblocks
  have htype := repackValues_some_hasMins h
  generalize hdest : columnOrder (t.dims.getD 0 0) order = dest at *
  have hgroup := fun {g l : ℕ} hg hl => @order_eq_of_checkColumns (t.dims.getD 0 0) t.ggmlType
    order htype (hdest ▸ hcolumns) (groupsPerAug t.ggmlType mins true) g l hg hl
  rw [hdest] at hgroup
  have hpl : PermutesBelow (t.dims.getD 0 0 / 32)
      (placement (groupsPerAug t.ggmlType mins true) (some dest)).mainGroupOf :=
    hdest ▸ placement_permutes htype hk horder (hdest ▸ hcolumns) _
  have hmatMul := @matMul_repackRows R _ (some dest) t mins file htype hk hpl hpacks x row
  rw [hmatMul]
  refine Finset.sum_congr rfl fun j hj => congrArg _ (congrArg x ?_)
  have hj : j < t.dims.getD 0 0 / 32 * 32 := by rwa [groups_mul hk, ← Finset.mem_range]
  obtain ⟨g, hg, l, hl, rfl⟩ := exists_block hj
  exact (destColumn_group _ hg hl).trans (hgroup hg hl)

theorem matMul_permuteRows {permuted : RepackedTensor R} {srcOf : ℕ → ℕ}
    (h : permuteRows r srcOf = some permuted) (x : ℕ → R) (i : ℕ) :
    permuted.matMul x i = r.matMul x (srcOf i) := by
  unfold permuteRows at h
  split at h
  next =>
    cases h
    unfold RepackedTensor.matMul
    cases r.minMatrix with
    | none => rfl
    | some mins => rfl
  next => cases h

end Served

end Values

end Arcint.Gguf
