import Arcint.Gguf.Map
import Arcint.Gguf.Repack

/-! # A file's projections in the template's graph

Every projection of the template is replaced by one of three forms of the file's tensor:
repacked weights, the file's own rows in a kernel that decodes them, or floats. Each undoes
the converter's value-head order in its own way: in the repacked rows or columns, by gathers
before or behind the kernel, or in the copy of the floats.
-/

namespace Arcint.Gguf

open Foundation

inductive GgufWeightsMode where
  | repack
  | native
  | mixed
  deriving DecidableEq, Repr

/-- The mode of a tensor under `mode`. -/
def ggufTensorMode (mode : GgufWeightsMode) (type : ℕ) : GgufWeightsMode :=
  if mode ≠ .mixed then mode else if type = 12 then .repack else .native

/-- Bytes of a row in the kernel that decodes rows; zero where it does not serve the pair. -/
def rowBytes (kquantType k : ℕ) : ℕ :=
  match kquantType with
  | 8 => if k % 32 ≠ 0 then 0 else k / 32 * 34
  | 12 => if k % 256 ≠ 0 then 0 else k / 256 * 144
  | 13 => if k % 256 ≠ 0 then 0 else k / 256 * 176
  | 14 => if k % 256 ≠ 0 then 0 else k / 256 * 210
  | 114 => if k % 256 ≠ 0 then 0 else k / 256 * 224
  | _ => 0

/-- Why a tensor is refused. -/
inductive ApplyError where
  | notTwoDimensional
  | rowsDiffer (n irRows : ℕ)
  | rowShape (n first vRows vHeads : ℕ)
  | notServed (type : ℕ)
  | repack (error : RepackError)
  | rowRange
  deriving DecidableEq, Repr

namespace GgufGeometry

variable (g : GgufGeometry)

def vRows : ℕ := g.linearVHeads * g.linearVDim

def qkRows : ℕ := g.linearKHeads * g.linearKDim

/-- The file's head of a head. -/
def fileHead : ℕ → ℕ := toFile g.linearKHeads g.linearVHeads

/-- The rows before the value rows. -/
def firstRow (reorder : GgufReorder) : ℕ := if reorder = .rowsQKV then 2 * g.qkRows else 0

/-- The rows of a head: of a full value projection, or of one scalar per head. -/
def headRows (first n : ℕ) : Except ApplyError ℕ :=
  if first + g.vRows = n then .ok g.linearVDim
  else if first = 0 ∧ n = g.linearVHeads then .ok 1
  else .error (.rowShape n first g.vRows g.linearVHeads)

/-- Where the file's column goes, and so which activation it is multiplied with. -/
def columnDest : ℕ → ℕ :=
  scatter (fun _ => 0) (nested g.linearVHeads g.linearVDim fun hf e =>
    (g.fileHead hf * g.linearVDim + e, hf * g.linearVDim + e))

/-- The file's row for a row of the repacked tensor. -/
def rowSources (first d : ℕ) : ℕ → ℕ :=
  scatter (fun i => i) (nested g.linearVHeads d fun h e =>
    (first + h * d + e, first + g.fileHead h * d + e))

/-- The kernel's row for a row of the output. -/
def gatherRowsBack (first d : ℕ) : ℕ → ℕ :=
  scatter (fun _ => 0) ((List.range first).map (fun i => (i, i)) ++
    nested g.linearVHeads d fun h e => (first + h * d + e, first + g.fileHead h * d + e))

end GgufGeometry

/-! ## The forms -/

section Forms

variable {R : Type} [CommRing R]

/-- The node that stands in for the template's product. -/
inductive Operator (R : Type) where
  | fullyConnectedKQuant (kquantType : ℕ) (weights : ℕ → ℕ → R)
  | repackedMatMul (packed : RepackedTensor R)
  | matMul (weights : ℕ → ℕ → R)

/-- The nodes put in place of a projection: a gather on the activation, the product, and a
gather on its output. -/
structure Replacement (R : Type) where
  k : ℕ
  gathered : Option (ℕ → ℕ)
  operator : Operator R
  post : Option (ℕ → ℕ)

/-- Only rows are reordered on the output's side. -/
def GgufReorder.IsRows (reorder : GgufReorder) : Prop := reorder = .rowsV ∨ reorder = .rowsQKV

instance (reorder : GgufReorder) : Decidable reorder.IsRows :=
  inferInstanceAs (Decidable (_ ∨ _))

variable (g : GgufGeometry) (t : TensorInfo) (reorder : GgufReorder)

/-- The column order of a repack request; an empty one is the file's own. -/
def requestOrder : Option (List Int) :=
  let destOf := if reorder = .columns then columnOrder (t.dims.getD 0 0) g.columnDest else []
  if destOf = [] then none else some destOf

def repackForm (mins : RepackMins) (file : Reading R) : Except ApplyError (Replacement R) := do
  let packed ← (repackValues t mins (requestOrder g t reorder) file).mapError ApplyError.repack
  if reorder.IsRows then
    let first := g.firstRow reorder
    let d ← g.headRows first (t.dims.getD 1 0)
    match permuteRows packed (g.rowSources first d) with
    | some permuted => return ⟨t.dims.getD 0 0, none, .repackedMatMul permuted, none⟩
    | none => throw ApplyError.rowRange
  else return ⟨t.dims.getD 0 0, none, .repackedMatMul packed, none⟩

/-- The gather that undoes a column order on the activation. -/
def activationGather : Option (ℕ → ℕ) := if reorder = .columns then some g.columnDest else none

def nativeForm (q6kAligned : Bool) (file : Reading R) : Except ApplyError (Replacement R) := do
  let kquantType := if q6kAligned = true ∧ t.ggmlType = 14 then 114 else t.ggmlType
  let operator := Operator.fullyConnectedKQuant kquantType (file.value t.ggmlType)
  if reorder.IsRows then
    let first := g.firstRow reorder
    let d ← g.headRows first (t.dims.getD 1 0)
    return ⟨t.dims.getD 0 0, activationGather g reorder, operator, some (g.gatherRowsBack first d)⟩
  else return ⟨t.dims.getD 0 0, activationGather g reorder, operator, none⟩

/-- The floats of the rows. Rows of value heads are copied head by head. -/
def floatRows (file : Reading R) : ℕ → ℕ → R :=
  let rows := file.value t.ggmlType
  if reorder = .rowsV then
    let headRows := t.dims.getD 1 0 / g.linearVHeads
    scatter (fun _ _ => 0) (nested g.linearVHeads headRows fun hf d =>
      (hf * headRows + d, rows (g.fileHead hf * headRows + d)))
  else rows

def floatForm (file : Reading R) : Replacement R :=
  ⟨t.dims.getD 0 0, activationGather g reorder, .matMul (floatRows g t reorder file), none⟩

/-- The nodes in place of a projection of `irRows` rows. -/
def applyToTemplate (mode : GgufWeightsMode) (mins : RepackMins) (q6kAligned : Bool) (irRows : ℕ)
    (file : Reading R) : Except ApplyError (Replacement R) := do
  ensure (t.dims.length = 2) ApplyError.notTwoDimensional
  ensure (irRows = t.dims.getD 1 0) (ApplyError.rowsDiffer (t.dims.getD 1 0) irRows)
  if rowBytes t.ggmlType (t.dims.getD 0 0) ≠ 0 then
    if ggufTensorMode mode t.ggmlType = .repack then repackForm g t reorder mins file
    else nativeForm g t reorder q6kAligned file
  else if t.ggmlType = 0 ∨ t.ggmlType = 1 then return floatForm g t reorder file
  else throw (ApplyError.notServed t.ggmlType)

/-! ## What a replacement computes -/

/-- An input read through the indices of a gather. -/
def gather (idx : Option (ℕ → ℕ)) (x : ℕ → R) : ℕ → R :=
  match idx with
  | none => x
  | some idx => fun j => x (idx j)

def Operator.output (k : ℕ) (x : ℕ → R) (i : ℕ) : Operator R → R
  | .fullyConnectedKQuant _ weights => ∑ j ∈ Finset.range k, weights i j * x j
  | .repackedMatMul packed => packed.matMul x i
  | .matMul weights => ∑ j ∈ Finset.range k, weights i j * x j

def Replacement.forward (r : Replacement R) (x : ℕ → R) : ℕ → R :=
  gather r.post fun i => r.operator.output r.k (gather r.gathered x) i

end Forms

/-! ## The head order -/

section Maps

variable (g : GgufGeometry) (t : TensorInfo) (reorder : GgufReorder)

/-- The file's row for a row of the projection: value heads are blocks of rows behind the rows
before them. -/
def rowOf (i : ℕ) : ℕ :=
  match reorder with
  | .rowsV | .rowsQKV =>
      moveBlocks g.fileHead (g.firstRow reorder) g.linearVHeads
        ((t.dims.getD 1 0 - g.firstRow reorder) / g.linearVHeads) i
  | _ => i

/-- The file's column for a column of the projection. -/
def colOf (c : ℕ) : ℕ :=
  match reorder with
  | .columns => moveBlocks g.fileHead 0 g.linearVHeads g.linearVDim c
  | _ => c

end Maps

section Served

variable {R : Type} [CommRing R] {g : GgufGeometry} {t : TensorInfo} {reorder : GgufReorder}
  {file : Reading R} {rep : Replacement R} (hkHeads : 0 < g.linearKHeads)
  (hvHeads : 0 < g.linearVHeads)

include hkHeads in
theorem fileHead_permutes : PermutesBelow g.linearVHeads g.fileHead :=
  toFile_permutes hkHeads g.linearVHeads

include hkHeads in
/-- The destinations undo the column order. -/
theorem columnDest_colOf {c : ℕ} (hc : c < g.vRows) :
    g.columnDest (moveBlocks g.fileHead 0 g.linearVHeads g.linearVDim c) = c :=
  scatter_destinations (fileHead_permutes hkHeads) hc

include hkHeads in
theorem colOf_permutes :
    PermutesBelow g.vRows (moveBlocks g.fileHead 0 g.linearVHeads g.linearVDim) :=
  (fileHead_permutes hkHeads).moveBlocks (by rw [Nat.zero_add]; rfl)

include hkHeads in
theorem columnDest_permutes : PermutesBelow g.vRows g.columnDest :=
  (colOf_permutes hkHeads).of_leftInverse fun _ hc => columnDest_colOf hkHeads hc

include hkHeads in
/-- The activation read through the destinations, column by column of the projection. -/
theorem sum_columnDest (hcolumns : t.dims.getD 0 0 = g.vRows) (row x : ℕ → R) :
    ∑ j ∈ Finset.range (t.dims.getD 0 0), row j * x (g.columnDest j) =
      ∑ c ∈ Finset.range (t.dims.getD 0 0), row (colOf g .columns c) * x c := by
  rw [hcolumns, ← (colOf_permutes hkHeads).sum_comp]
  refine Finset.sum_congr rfl fun c hc => ?_
  rw [columnDest_colOf hkHeads (Finset.mem_range.mp hc), colOf]

/-- The sum of a row, with the activation gathered for a column order. -/
theorem sum_activationGather (hkHeads : 0 < g.linearKHeads)
    (hcolumns : reorder = .columns → t.dims.getD 0 0 = g.vRows) (row x : ℕ → R) :
    ∑ j ∈ Finset.range (t.dims.getD 0 0), row j * gather (activationGather g reorder) x j =
      ∑ c ∈ Finset.range (t.dims.getD 0 0), row (colOf g reorder c) * x c := by
  unfold activationGather
  split
  next hreorder =>
    subst hreorder
    exact sum_columnDest hkHeads (hcolumns rfl) row x
  next hother =>
    refine Finset.sum_congr rfl fun c _ => ?_
    unfold colOf
    split
    next => exact absurd rfl hother
    next => rfl

include hvHeads in
/-- The admitted shapes: the value heads fill the rows behind the first ones. -/
theorem headRows_eq {first n d : ℕ} (h : g.headRows first n = .ok d) :
    n = first + g.linearVHeads * d ∧ (n - first) / g.linearVHeads = d := by
  have hn : n = first + g.linearVHeads * d := by
    unfold GgufGeometry.headRows at h
    split at h
    next hfull =>
      cases h
      exact hfull.symm
    next =>
      split at h
      next hscalar =>
        cases h
        rw [hscalar.1, hscalar.2, Nat.zero_add, Nat.mul_one]
      next => cases h
  refine ⟨hn, ?_⟩
  rw [hn, Nat.add_sub_cancel_left, Nat.mul_div_cancel_left _ hvHeads]

include hvHeads in
/-- The rows of an admitted shape. -/
theorem rowOf_eq (hrows : reorder.IsRows) {d : ℕ}
    (hd : g.headRows (g.firstRow reorder) (t.dims.getD 1 0) = .ok d) (i : ℕ) :
    rowOf g t reorder i =
      moveBlocks g.fileHead (g.firstRow reorder) g.linearVHeads d i := by
  rw [← (headRows_eq hvHeads hd).2]
  rcases hrows with rfl | rfl
  · rfl
  · rfl

theorem rowOf_of_not (hrows : ¬ reorder.IsRows) (i : ℕ) : rowOf g t reorder i = i := by
  unfold rowOf
  split
  next => exact absurd (.inl rfl) hrows
  next => exact absurd (.inr rfl) hrows
  next => rfl

/-- The repacked rows stand where their sources do. -/
theorem rowSources_eq (first d i : ℕ) :
    g.rowSources first d i = moveBlocks g.fileHead first g.linearVHeads d i := by
  unfold GgufGeometry.rowSources
  rw [scatter_sources fun i => i]
  split
  next => rfl
  next hout => exact (moveBlocks_outside hout).symm

/-- The gather behind the kernel reads the same rows. -/
theorem gatherRowsBack_eq {first d i : ℕ} (hi : i < first + g.linearVHeads * d) :
    g.gatherRowsBack first d i = moveBlocks g.fileHead first g.linearVHeads d i := by
  unfold GgufGeometry.gatherRowsBack
  rw [scatter_append, scatter_sources fun i => i]
  split
  next => rfl
  next hout =>
    have hbefore : i < first := by omega
    rw [moveBlocks_outside hout]
    refine scatter_eq ⟨(i, i), List.mem_map.mpr ⟨i, List.mem_range.mpr hbefore, rfl⟩, rfl⟩ ?_
    intro write hwrite hkey
    obtain ⟨j, -, rfl⟩ := List.mem_map.mp hwrite
    exact hkey

/-- Packed mins hold the min of every group. -/
def PacksMins (g : GgufGeometry) (t : TensorInfo) (reorder : GgufReorder) (mins : RepackMins)
    (file : Reading R) : Prop :=
  HasMins t.ggmlType → mins ≠ .split →
    file.Packs (placement (groupsPerAug t.ggmlType mins (requestOrder g t reorder).isSome)
      (requestOrder g t reorder))

section Columns

variable (hcolumns : reorder = .columns → t.dims.getD 0 0 = g.vRows) {mins : RepackMins}

include hkHeads hvHeads hcolumns in
/-- The repacked tensor with the request's column order. -/
theorem matMul_requestOrder (hvDim : 0 < g.linearVDim) {packed : RepackedTensor R}
    (h : repackValues t mins (requestOrder g t reorder) file = .ok packed)
    (hpacks : PacksMins g t reorder mins file) (x : ℕ → R) (i : ℕ) :
    packed.matMul x i =
      ∑ c ∈ Finset.range (t.dims.getD 0 0), file.value t.ggmlType i (colOf g reorder c) * x c := by
  unfold PacksMins at hpacks
  by_cases hreorder : reorder = .columns
  · have hk := hcolumns hreorder
    have hne : columnOrder (t.dims.getD 0 0) g.columnDest ≠ [] := by
      intro hnil
      have hlength := congrArg List.length hnil
      rw [length_columnOrder, hk] at hlength
      exact (Nat.mul_pos hvHeads hvDim).ne' hlength
    have horder : requestOrder g t reorder =
        some (columnOrder (t.dims.getD 0 0) g.columnDest) := by
      unfold requestOrder
      rw [if_pos hreorder]
      exact if_neg hne
    rw [horder] at h hpacks
    have hmins := (repackValues_some_hasMins h)
    rw [matMul_repackValues_some (hk ▸ columnDest_permutes hkHeads) h (hpacks hmins) x i, hreorder]
    exact sum_columnDest hkHeads hk _ x
  · have horder : requestOrder g t reorder = none := by
      unfold requestOrder
      rw [if_neg hreorder]
      exact if_pos rfl
    rw [horder] at h hpacks
    rw [matMul_repackValues_none h hpacks x i]
    refine Finset.sum_congr rfl fun c _ => ?_
    unfold colOf
    split
    next => exact absurd rfl hreorder
    next => rfl

include hkHeads hvHeads hcolumns in
/-- The repacked form undoes the head order in its rows and columns. -/
theorem repackForm_forward (hvDim : 0 < g.linearVDim)
    (h : repackForm g t reorder mins file = .ok rep) (hpacks : PacksMins g t reorder mins file)
    (x : ℕ → R) (i : ℕ) :
    rep.forward x i = ∑ c ∈ Finset.range (t.dims.getD 0 0),
      file.value t.ggmlType (rowOf g t reorder i) (colOf g reorder c) * x c := by
  obtain ⟨packed, hpacked, hform⟩ := bind_ok.mp h
  have hpacked := mapError_ok.mp hpacked
  have hmatMul := matMul_requestOrder hkHeads hvHeads hcolumns hvDim hpacked hpacks x
  split at hform
  next hrows =>
    obtain ⟨d, hd, hpermuted⟩ := bind_ok.mp hform
    rw [rowOf_eq hvHeads hrows hd, ← rowSources_eq, ← hmatMul]
    split at hpermuted
    next permuted hpermute =>
      cases hpermuted
      exact matMul_permuteRows hpermute x i
    next => cases hpermuted
  next hrows =>
    cases hform
    rw [rowOf_of_not hrows]
    exact hmatMul i

include hkHeads hvHeads hcolumns in
/-- The native form undoes it by gathers before and behind the kernel. -/
theorem nativeForm_forward {q6kAligned : Bool}
    (h : nativeForm g t reorder q6kAligned file = .ok rep) (x : ℕ → R) {i : ℕ}
    (hi : i < t.dims.getD 1 0) :
    rep.forward x i = ∑ c ∈ Finset.range (t.dims.getD 0 0),
      file.value t.ggmlType (rowOf g t reorder i) (colOf g reorder c) * x c := by
  unfold nativeForm at h
  dsimp only at h
  split at h
  next hrows =>
    obtain ⟨d, hd, hform⟩ := bind_ok.mp h
    cases hform
    have hin : i < g.firstRow reorder + g.linearVHeads * d := by
      rwa [← (headRows_eq hvHeads hd).1]
    rw [rowOf_eq hvHeads hrows hd, ← gatherRowsBack_eq hin]
    exact sum_activationGather hkHeads hcolumns _ x
  next hrows =>
    cases h
    rw [rowOf_of_not hrows]
    exact sum_activationGather hkHeads hcolumns _ x

end Columns

/-! ## The float form -/

/-- The copied floats: value heads that fill the rows stand where they should, and rows behind
them are zero. -/
theorem floatRows_rowsV (i : ℕ) :
    floatRows g t .rowsV file i =
      if i < g.linearVHeads * (t.dims.getD 1 0 / g.linearVHeads) then
        file.value t.ggmlType (rowOf g t .rowsV i)
      else fun _ => 0 := by
  have hcopy := scatter_sources (file.value t.ggmlType) (fun _ _ => 0) g.fileHead 0
    g.linearVHeads (t.dims.getD 1 0 / g.linearVHeads) i
  simpa only [floatRows, if_true, rowOf, GgufGeometry.firstRow, reduceCtorEq, if_false,
    Nat.zero_add, Nat.zero_le, true_and, Nat.sub_zero] using hcopy

theorem floatRows_of_ne (h : reorder ≠ .rowsV) :
    floatRows g t reorder file = file.value t.ggmlType :=
  if_neg h

/-- The float form moves the rows of value heads only where they are all of the rows. -/
def KeepsHeadOrder (g : GgufGeometry) (t : TensorInfo) (reorder : GgufReorder) : Prop :=
  (reorder = .rowsV → g.linearVHeads ∣ t.dims.getD 1 0) ∧
    (reorder = .rowsQKV → Reorders g.linearKHeads g.linearVHeads →
      t.dims.getD 1 0 < 2 * g.qkRows + g.linearVHeads)

include hkHeads hvHeads in
/-- Rows that no head order moves. -/
theorem rowOf_rowsQKV_of_keeps (hkeeps : KeepsHeadOrder g t .rowsQKV) (i : ℕ) :
    rowOf g t .rowsQKV i = i := by
  unfold rowOf
  by_cases hre : Reorders g.linearKHeads g.linearVHeads
  · have hfew := hkeeps.2 rfl hre
    have hnone : (t.dims.getD 1 0 - g.firstRow .rowsQKV) / g.linearVHeads = 0 := by
      rw [GgufGeometry.firstRow, if_pos rfl]
      exact Nat.div_eq_of_lt (by omega)
    dsimp only
    rw [hnone]
    exact moveBlocks_outside (by omega)
  · exact (moveBlocks_congr (fun h hh => toFile_of_not_reorders hkHeads hre hh) i).trans
      (moveBlocks_id _ _ _ i)

include hkHeads hvHeads in
theorem floatForm_forward (hcolumns : reorder = .columns → t.dims.getD 0 0 = g.vRows)
    (hkeeps : KeepsHeadOrder g t reorder) (file : Reading R) (x : ℕ → R) {i : ℕ}
    (hi : i < t.dims.getD 1 0) :
    (floatForm g t reorder file).forward x i = ∑ c ∈ Finset.range (t.dims.getD 0 0),
      file.value t.ggmlType (rowOf g t reorder i) (colOf g reorder c) * x c := by
  have hrow : floatRows g t reorder file i = file.value t.ggmlType (rowOf g t reorder i) := by
    by_cases hreorder : reorder = .rowsV
    · subst hreorder
      rw [floatRows_rowsV, if_pos]
      rwa [Nat.mul_div_cancel' (hkeeps.1 rfl)]
    · rw [floatRows_of_ne hreorder]
      by_cases hqkv : reorder = .rowsQKV
      · subst hqkv
        rw [rowOf_rowsQKV_of_keeps hkHeads hvHeads hkeeps]
      · rw [rowOf_of_not (not_or.mpr ⟨hreorder, hqkv⟩)]
  rw [← hrow]
  exact sum_activationGather hkHeads hcolumns _ x

/-- A tensor of one column of ones at the rows of a set. -/
def marked (R : Type) [CommRing R] (rows : ℕ → Prop) [DecidablePred rows] : Reading R :=
  ⟨fun row _ => if rows row then 1 else 0, fun _ _ => 0, fun _ _ => 0, fun _ _ => 0⟩

theorem value_marked (rows : ℕ → Prop) [DecidablePred rows] (type row c : ℕ) :
    (marked R rows).value type row c = if rows row then 1 else 0 := by
  unfold Reading.value
  split
  · exact sub_zero _
  · rfl

/-- The first column alone. -/
theorem sum_first {k : ℕ} (hk : 0 < k) (row : ℕ → R) :
    ∑ c ∈ Finset.range k, row c * (if c = 0 then 1 else 0) = row 0 := by
  simp [hk]

include hvHeads in
/-- A float tensor that computes what it should keeps the head order. -/
theorem keeps_of_floatForm_forward [Nontrivial R] (hk : 0 < t.dims.getD 0 0)
    (hforward : ∀ file : Reading R, ∀ x, ∀ i < t.dims.getD 1 0,
      (floatForm g t reorder file).forward x i = ∑ c ∈ Finset.range (t.dims.getD 0 0),
        file.value t.ggmlType (rowOf g t reorder i) (colOf g reorder c) * x c) :
    KeepsHeadOrder g t reorder := by
  -- the form against the first column of a tensor, without a column order
  have hread : reorder.IsRows → ∀ (rows : ℕ → Prop) [DecidablePred rows], ∀ i < t.dims.getD 1 0,
      floatRows g t reorder (marked R rows) i 0 =
        if rows (rowOf g t reorder i) then 1 else 0 := by
    intro hrows rows _ i hi
    have hentry := hforward (marked R rows) (fun c => if c = 0 then 1 else 0) i hi
    have hgather : activationGather g reorder = none :=
      if_neg (by rcases hrows with rfl | rfl <;> decide)
    simp only [value_marked] at hentry
    rw [sum_first hk] at hentry
    rw [← hentry, Replacement.forward, floatForm, hgather]
    exact (sum_first hk _).symm
  constructor
  · rintro rfl
    by_contra hdvd
    have hlt : g.linearVHeads * (t.dims.getD 1 0 / g.linearVHeads) < t.dims.getD 1 0 :=
      Nat.lt_of_le_of_ne (Nat.mul_div_le _ _) fun heq => hdvd ⟨_, heq.symm⟩
    have hones := hread (.inl rfl) (fun _ => True) _ hlt
    rw [floatRows_rowsV, if_neg (Nat.lt_irrefl _), if_pos trivial] at hones
    exact zero_ne_one hones
  · rintro rfl hre
    by_contra hmany
    -- the first row of the second head is moved
    obtain ⟨hone, hmoved⟩ : 1 < g.linearVHeads ∧ g.fileHead 1 ≠ 1 := toFile_one_ne hvHeads hre
    have hfirst : g.firstRow .rowsQKV = 2 * g.qkRows := if_pos rfl
    have hpos : 0 < (t.dims.getD 1 0 - 2 * g.qkRows) / g.linearVHeads :=
      Nat.div_pos (by omega) hvHeads
    have hblocks := Nat.mul_div_le (t.dims.getD 1 0 - 2 * g.qkRows) g.linearVHeads
    generalize hd : (t.dims.getD 1 0 - 2 * g.qkRows) / g.linearVHeads = d at hpos hblocks
    have hin := @block_lt g.linearVHeads d 1 0 hone hpos
    have hrow : rowOf g t .rowsQKV (2 * g.qkRows + 1 * d + 0) =
        2 * g.qkRows + g.fileHead 1 * d + 0 := by
      unfold rowOf
      dsimp only
      rw [hfirst, hd]
      exact moveBlocks_block hone hpos
    have hother : 2 * g.qkRows + g.fileHead 1 * d + 0 ≠ 2 * g.qkRows + 1 * d + 0 := by
      intro heq
      exact hmoved (Nat.eq_of_mul_eq_mul_right hpos (by omega))
    have hentry := hread (.inr rfl) (fun row => row = 2 * g.qkRows + 1 * d + 0)
      (2 * g.qkRows + 1 * d + 0) (by omega)
    rw [floatRows_of_ne (by decide), value_marked, if_pos rfl, hrow, if_neg hother] at hentry
    exact one_ne_zero hentry

/-! ## Every form -/

/-- The forms a tensor is served in. -/
theorem applyToTemplate_cases {mode : GgufWeightsMode} {mins : RepackMins} {q6kAligned : Bool}
    {irRows : ℕ} (h : applyToTemplate g t reorder mode mins q6kAligned irRows file = .ok rep) :
    (ggufTensorMode mode t.ggmlType = .repack ∧ repackForm g t reorder mins file = .ok rep ∧
        ¬(t.ggmlType = 0 ∨ t.ggmlType = 1)) ∨
      (nativeForm g t reorder q6kAligned file = .ok rep ∧ ¬(t.ggmlType = 0 ∨ t.ggmlType = 1)) ∨
      (rep = floatForm g t reorder file ∧ (t.ggmlType = 0 ∨ t.ggmlType = 1)) := by
  have hfloat : t.ggmlType = 0 ∨ t.ggmlType = 1 → rowBytes t.ggmlType (t.dims.getD 0 0) = 0 := by
    rintro (htype | htype) <;> rw [htype] <;> rfl
  obtain ⟨_, -, h1⟩ := bind_ok.mp h
  obtain ⟨_, -, hform⟩ := bind_ok.mp h1
  split at hform
  next hbytes =>
    have hnot := fun htype => hbytes (hfloat htype)
    split at hform
    next hmode => exact .inl ⟨hmode, hform, hnot⟩
    next => exact .inr (.inl ⟨hform, hnot⟩)
  next =>
    split at hform
    next htype =>
      cases hform
      exact .inr (.inr ⟨rfl, htype⟩)
    next => cases hform

/-- A projection of a tensor that is not refused computes the file's rows and columns in head
order, for every reading of the tensor, exactly when it is no float tensor with columns that
the float form fails to reorder. -/
theorem replacement_forward_iff (R : Type) [CommRing R] [Nontrivial R] (g : GgufGeometry)
    (t : TensorInfo) (reorder : GgufReorder) (mode : GgufWeightsMode) (mins : RepackMins)
    (q6kAligned : Bool) (irRows : ℕ) (hkHeads : 0 < g.linearKHeads) (hvHeads : 0 < g.linearVHeads)
    (hvDim : 0 < g.linearVDim)
    (hcolumns : reorder = .columns → t.dims.getD 0 0 = g.linearVHeads * g.linearVDim)
    (hserved : ∀ file : Reading R, ∃ rep,
      applyToTemplate g t reorder mode mins q6kAligned irRows file = .ok rep) :
    (ggufVHeadToFileHead g.linearKHeads g.linearVHeads).Perm (List.range g.linearVHeads) ∧
      ((∀ (file : Reading R) (rep : Replacement R),
          applyToTemplate g t reorder mode mins q6kAligned irRows file = .ok rep →
          (ggufTensorMode mode t.ggmlType = .repack → PacksMins g t reorder mins file) →
          ∀ x, ∀ i < t.dims.getD 1 0, rep.forward x i = ∑ c ∈ Finset.range (t.dims.getD 0 0),
            file.value t.ggmlType (rowOf g t reorder i) (colOf g reorder c) * x c) ↔
        (t.ggmlType = 0 ∨ t.ggmlType = 1 → 0 < t.dims.getD 0 0 → KeepsHeadOrder g t reorder)) := by
  refine ⟨ggufVHeadToFileHead_perm hkHeads _, fun hall htype hk => ?_, fun hkeeps => ?_⟩
  · refine keeps_of_floatForm_forward (R := R) hvHeads hk fun file x i hi => ?_
    obtain ⟨rep, hrep⟩ := hserved file
    rcases applyToTemplate_cases hrep with ⟨-, -, hnot⟩ | ⟨-, hnot⟩ | ⟨rfl, -⟩
    · exact absurd htype hnot
    · exact absurd htype hnot
    · refine hall file _ hrep (fun _ hmins => ?_) x i hi
      unfold HasMins at hmins
      omega
  · intro file rep hrep hpacks x i hi
    rcases applyToTemplate_cases hrep with ⟨hmode, hform, -⟩ | ⟨hform, -⟩ | ⟨rfl, htype⟩
    · exact repackForm_forward hkHeads hvHeads hcolumns hvDim hform (hpacks hmode) x i
    · exact nativeForm_forward hkHeads hvHeads hcolumns hform x hi
    · rcases Nat.eq_zero_or_pos (t.dims.getD 0 0) with hnone | hk
      · simp only [Replacement.forward, floatForm, Operator.output, gather, hnone,
          Finset.range_zero, Finset.sum_empty]
      · exact floatForm_forward hkHeads hvHeads hcolumns (hkeeps htype hk) file x hi

end Served

/-- One-byte integers of the fused projection: the second value head, from row 6 on, is the
file's third, from row 8 on. -/
theorem replacement_forward_iff_nativeQKV :
    ∃ rep, applyToTemplate ⟨2, 4, 1, 2⟩ ⟨[], [32, 12], 8, 0, 384⟩ .rowsQKV .native .exact true 12
        (marked ℤ (fun row => row = 8)) = .ok rep ∧
      rowOf ⟨2, 4, 1, 2⟩ ⟨[], [32, 12], 8, 0, 384⟩ .rowsQKV 6 = 8 ∧
      rep.forward (fun _ => 1) 6 = ∑ c ∈ Finset.range 32, (marked ℤ fun row => row = 8).value 8
        (rowOf ⟨2, 4, 1, 2⟩ ⟨[], [32, 12], 8, 0, 384⟩ .rowsQKV 6)
        (colOf ⟨2, 4, 1, 2⟩ .rowsQKV c) * 1 := by
  refine ⟨_, rfl, by decide, ?_⟩
  refine (replacement_forward_iff ℤ ⟨2, 4, 1, 2⟩ ⟨[], [32, 12], 8, 0, 384⟩ .rowsQKV .native .exact
    true 12 (by decide) (by decide) (by decide) (fun h => by cases h)
    fun file => ⟨_, rfl⟩).2.mpr ?_ (marked ℤ fun row => row = 8) _ rfl (fun hmode => by cases hmode)
    (fun _ => 1) 6 (by decide)
  intro htype
  exact absurd htype (by decide)

/-- Half floats of the fused projection stay in the file's order: the second value head, in
row 5, is the file's third, in row 6. -/
theorem floatForm_keeps_fileOrder :
    ∃ rep, applyToTemplate ⟨2, 4, 1, 1⟩ ⟨[], [1, 8], 1, 0, 8⟩ .rowsQKV .repack .exact true 8
        (marked ℤ (fun row => row = 6)) = .ok rep ∧
      rowOf ⟨2, 4, 1, 1⟩ ⟨[], [1, 8], 1, 0, 8⟩ .rowsQKV 5 = 6 ∧
      rep.forward (fun _ => 1) 5 = 0 ∧
      ∑ c ∈ Finset.range 1, (marked ℤ fun row => row = 6).value 1
        (rowOf ⟨2, 4, 1, 1⟩ ⟨[], [1, 8], 1, 0, 8⟩ .rowsQKV 5)
        (colOf ⟨2, 4, 1, 1⟩ .rowsQKV c) * 1 = 1 :=
  ⟨_, rfl, by decide, by decide, by decide⟩

end Arcint.Gguf
