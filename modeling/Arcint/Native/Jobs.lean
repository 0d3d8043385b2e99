import Arcint.Foundation.Access
import Arcint.Foundation.Scatter
import Arcint.Foundation.Wrap
import Mathlib.Data.Rat.Defs

/-! # The jobs of the host tier

An expert whose weights are not on the card is computed by the host, for all of its tokens in one
call. A job's output is the same whatever jobs it shares the call with, and whatever ranges of
columns the calls are for.
-/

namespace Arcint.Native

open Foundation

/-- The float operations of the tier, none of which is interpreted. -/
structure TierFloats (F : Type) where
  literal : ℚ → F
  add : F → F → F
  sub : F → F → F
  mul : F → F → F
  div : F → F → F
  neg : F → F
  abs : F → F
  exp : F → F
  tanh : F → F
  nonneg : F → Bool
  f16ToF32 : ℕ → F
  f32ToF16 : F → ℕ

def kQuantFormatU4Affine : ℕ := 0

/-- The bytes of `w` and `z`, the halves of `s`. -/
structure QuantMatrix where
  w : ℕ → ℕ
  s : ℕ → ℕ
  z : Option (ℕ → ℕ)
  oc : ℕ
  ic : ℕ
  groupSize : ℕ
  weightBits : ℕ := 4
  weightSigned : Bool := false
  hasZp : Bool := true
  zpIsU8 : Bool := false
  format : ℕ := kQuantFormatU4Affine

inductive GateAct where
  | silu
  | geluTanh
  | geluErf
  deriving DecidableEq

/-- An expert's three matrices, of the widths `build_cpu_expert_desc` gives them. -/
structure ExpertDesc where
  gate : QuantMatrix
  up : QuantMatrix
  down : QuantMatrix
  act : GateAct := .silu
  gate_ic : gate.ic = down.oc
  up_ic : up.ic = down.oc
  down_ic : down.ic = up.oc

/-- A token of an expert: its activations, its weight, and where its output goes. -/
structure ExpertJob where
  x : ℕ → ℕ
  wRoute : ℕ
  y : ℕ

section Tier

variable {F : Type} (fl : TierFloats F) (nativeRow : QuantMatrix → ℕ → ℕ → F)

/-! ## One stage of one job -/

def zeros : ℕ → F := fun _ => fl.literal 0

/-- `decode_native_row`, of a row whose values are `nativeRow`'s. -/
def decodeNativeRow (m : QuantMatrix) (n out : ℕ) : List (ℕ × F) :=
  (List.range m.ic).map fun k => (out + k, nativeRow m n k)

def dequantWeight (row : ℕ → ℕ) (k weightBits : ℕ) (weightSigned : Bool) : F :=
  let q : ℤ :=
    if weightBits = 4 then
      let byte := row (k / 2)
      let nib := if k % 2 = 1 then byte / 16 else byte % 16
      if weightSigned then (nib ^^^ 8 : ℕ) - 8 else nib
    else if weightSigned then signed 8 (row k) else row k
  fl.literal q

def zpAt (m : QuantMatrix) (n g groupCount : ℕ) : ℕ :=
  match m.z with
  | none => 0
  | some z =>
      if !m.hasZp then 0
      else
        let idx := n * groupCount + g
        if m.zpIsU8 then z idx
        else if idx % 2 = 1 then z (idx / 2) / 16 else z (idx / 2) % 16

def scaleAt (m : QuantMatrix) (n g groupCount : ℕ) : F := fl.f16ToF32 (m.s (n * groupCount + g))

/-- `acc += x[k] * w[k]`, in the order of `k`. -/
def dot (ic : ℕ) (x w : ℕ → F) : F :=
  (List.range ic).foldl (fun acc k => fl.add acc (fl.mul (x k) (w k))) (fl.literal 0)

/-- A row of an affine matrix, group by group. -/
def affineAcc (mat : QuantMatrix) (x : ℕ → F) (n : ℕ) : F :=
  let groupCount := mat.ic / mat.groupSize
  let sx (g : ℕ) : F :=
    (List.range' (g * mat.groupSize) mat.groupSize).foldl (fun s k => fl.add s (x k)) (fl.literal 0)
  let rowBytes := mat.ic / (if mat.weightBits = 4 then 2 else 1)
  let row (i : ℕ) : ℕ := mat.w (n * rowBytes + i)
  (List.range groupCount).foldl (fun acc g =>
    let s := scaleAt fl mat n g groupCount
    let z := fl.literal (zpAt mat n g groupCount)
    let dot := (List.range' (g * mat.groupSize) mat.groupSize).foldl (fun dot k =>
      fl.add dot (fl.mul (x k) (dequantWeight fl row k mat.weightBits mat.weightSigned)))
      (fl.literal 0)
    fl.add acc (fl.mul s (fl.sub dot (fl.mul (sx g) z)))) (fl.literal 0)

/-- The buffer `out`, with the stage's sums from `accOut` on. -/
def computeStageF32 (mat : QuantMatrix) (x : ℕ → F) (nBegin nEnd accOut : ℕ) (out : ℕ → F) :
    ℕ → F :=
  let rows := List.range' nBegin (nEnd - nBegin)
  if mat.format ≠ kQuantFormatU4Affine then
    (rows.foldl (fun (wrow, out) n =>
      let wrow := scatter wrow (decodeNativeRow nativeRow mat n 0)
      (wrow, scatter out [(accOut + (n - nBegin), dot fl mat.ic x wrow)])) (zeros fl, out)).2
  else scatter out (rows.map fun n => (accOut + (n - nBegin), affineAcc fl mat x n))

/-! ## One stage of all jobs -/

/-- A register of eight lanes. -/
abbrev M256 (F : Type) := Fin 8 → F

def setzeroPs : M256 F := fun _ => fl.literal 0

def set1Ps (a : F) : M256 F := fun _ => a

def loaduPs (mem : ℕ → F) (p : ℕ) : M256 F := fun l => mem (p + l)

def addPs (a b : M256 F) : M256 F := fun l => fl.add (a l) (b l)

def mulPs (a b : M256 F) : M256 F := fun l => fl.mul (a l) (b l)

/-- The four sums of a block of jobs, each over its own row. -/
def jobBlock (w : Fin 4 → ℕ → F) (xt : ℕ → F) (jpad ic jb : ℕ) : Fin 4 → M256 F :=
  (List.range ic).foldl (fun acc k =>
    let x := loaduPs xt (k * jpad + jb)
    fun r => addPs fl (acc r) (mulPs fl x (set1Ps (w r k)))) fun _ => setzeroPs fl

def nativeDotJobsAvx2 (wrows : Fin 4 → ℕ → F) (nrows : ℕ) (xt : ℕ → F)
    (jpad ic nJobs out outStride : ℕ) : List (ℕ × F) :=
  (indicesBelow 8 nJobs).flatMap fun b =>
    let jb := b * 8
    let w (r : Fin 4) : ℕ → F := wrows (if r < nrows then r else 0)
    let lanes := jobBlock fl w xt jpad ic jb
    let nl := if nJobs - jb < 8 then nJobs - jb else 8
    nested nl nrows fun l r =>
      (out + ((jb + l) * outStride + r), lanes (Fin.ofNat 4 r) (Fin.ofNat 8 l))

/-- The jobs' activations, transposed, with `jpad` lanes. -/
def transposed (X : ℕ → F) (nJobs ldx ic jpad : ℕ) : ℕ → F :=
  scatter (zeros fl) (nested nJobs ic fun j k => (k * jpad + j, X (j * ldx + k)))

/-- `nrows` of the pass that begins at row `n`. -/
def passRows (n nEnd : ℕ) : ℕ := if nEnd - n < 4 then nEnd - n else 4

/-- `haveAvx2`: the plugin is built with the lanes, and the processor has them. -/
def computeStageF32Jobs (haveAvx2 : Bool) (mat : QuantMatrix) (X : ℕ → F)
    (nJobs ldx nBegin nEnd : ℕ) (out : ℕ → F) : ℕ → F :=
  let width := nEnd - nBegin
  if mat.format = kQuantFormatU4Affine then
    (List.range nJobs).foldl (fun out j =>
      computeStageF32 fl nativeRow mat (fun k => X (j * ldx + k)) nBegin nEnd (j * width) out) out
  else if haveAvx2 ∧ 1 < nJobs then
    let ic := mat.ic
    let jpad := (nJobs + 7) / 8 * 8
    let xt := transposed fl X nJobs ldx ic jpad
    ((indicesBelow 4 (nEnd - nBegin)).foldl (fun (rows, out) p =>
      let n := nBegin + p * 4
      let nrows := passRows n nEnd
      let rows := scatter rows
        ((List.range nrows).flatMap fun r => decodeNativeRow nativeRow mat (n + r) (r * ic))
      -- a row that is missing is the first one again
      let wrows (r : Fin 4) (k : ℕ) : F := rows ((if r < nrows then r * ic else 0) + k)
      (rows, scatter out
        (nativeDotJobsAvx2 fl wrows nrows xt jpad ic nJobs (n - nBegin) width))) (zeros fl, out)).2
  else
    ((List.range' nBegin (nEnd - nBegin)).foldl (fun (wrow, out) n =>
      let wrow := scatter wrow (decodeNativeRow nativeRow mat n 0)
      (wrow, scatter out ((List.range nJobs).map fun j =>
        (j * width + (n - nBegin), dot fl mat.ic (fun k => X (j * ldx + k)) wrow))))
      (zeros fl, out)).2

/-! ## The expert -/

def moeMlpFastErf (x : F) : F :=
  let z := fl.abs x
  let t := fl.div (fl.literal 1) (fl.add (fl.literal 1) (fl.mul (fl.literal 0.3275911) z))
  let poly := fl.add (fl.mul (fl.literal 1.061405429) t) (fl.literal (-1.453152027))
  let poly := fl.add (fl.mul poly t) (fl.literal 1.421413741)
  let poly := fl.add (fl.mul poly t) (fl.literal (-0.284496736))
  let poly := fl.add (fl.mul poly t) (fl.literal 0.254829592)
  let y := fl.sub (fl.literal 1) (fl.mul (fl.mul poly t) (fl.exp (fl.neg (fl.mul z z))))
  if fl.nonneg x then y else fl.neg y

def applyAct (x : F) : GateAct → F
  | .geluErf =>
      fl.mul (fl.mul (fl.literal 0.5) x)
        (fl.add (fl.literal 1) (moeMlpFastErf fl (fl.mul x (fl.literal 0.7071067811865475))))
  | .geluTanh =>
      let cubic := fl.add (fl.literal 1) (fl.mul (fl.mul (fl.literal 0.044715) x) x)
      fl.mul (fl.mul (fl.literal 0.5) x) (fl.add (fl.literal 1)
        (fl.tanh (fl.mul (fl.mul (fl.literal 0.79788458347320556640625) x) cubic)))
  | .silu => fl.div x (fl.add (fl.literal 1) (fl.exp (fl.neg x)))

/-- What the call writes to the memory of the outputs. -/
def moeCpuExpertRef (haveAvx2 : Bool) (e : ExpertDesc) (jobs : List ExpertJob)
    (colBegin colEnd : ℕ) : List (ℕ × ℕ) :=
  let nJobs := jobs.length
  let hidden := e.down.oc
  let inter := e.up.oc
  let width := colEnd - colBegin
  let stage := computeStageF32Jobs fl nativeRow haveAvx2
  let xF32 := scatter (zeros fl) (jobs.zipIdx.flatMap fun (job, j) =>
    (List.range hidden).map fun k => (j * hidden + k, fl.f16ToF32 (job.x k)))
  let upAcc := stage e.up xF32 nJobs hidden 0 inter (zeros fl)
  let gateAcc := stage e.gate xF32 nJobs hidden 0 inter (zeros fl)
  let hF32 := scatter (zeros fl) ((List.range (nJobs * inter)).map fun i =>
    let upH := fl.f16ToF32 (fl.f32ToF16 (upAcc i))
    let act := applyAct fl (gateAcc i) e.act
    let hBits := fl.f32ToF16 (fl.mul upH act)
    (i, fl.f16ToF32 hBits))
  let downAcc := stage e.down hF32 nJobs inter colBegin colEnd (zeros fl)
  jobs.zipIdx.flatMap fun (job, j) =>
    let wRoute := fl.f16ToF32 job.wRoute
    (List.range' colBegin (colEnd - colBegin)).map fun n =>
      let yVal := fl.mul (downAcc (j * width + (n - colBegin))) wRoute
      (job.y + n, fl.f32ToF16 yVal)

/-! ## A stage gives every job its own sums -/

/-- A row's sum, of the one job whose activations are `x`. -/
def stageAcc (mat : QuantMatrix) (x : ℕ → F) (n : ℕ) : F :=
  if mat.format = kQuantFormatU4Affine then affineAcc fl mat x n
  else dot fl mat.ic x (nativeRow mat n)

/-- The writes put the sums of every job and row at the job's row of `width` places. -/
def StageWrites (mat : QuantMatrix) (X : ℕ → F) (nJobs ldx nBegin width : ℕ)
    (writes : List (ℕ × F)) : Prop :=
  ∀ write, write ∈ writes ↔ ∃ j < nJobs, ∃ i < width,
    write = (j * width + i, stageAcc fl nativeRow mat (fun k => X (j * ldx + k)) (nBegin + i))

variable {fl nativeRow} {mat : QuantMatrix} {x x' w w' X : ℕ → F}
  {nJobs ldx nBegin nEnd ic : ℕ}

theorem dot_congr (hx : ∀ k < ic, x k = x' k) (hw : ∀ k < ic, w k = w' k) :
    dot fl ic x w = dot fl ic x' w' := by
  refine List.foldl_ext _ _ _ fun acc k hk => ?_
  have hlt := List.mem_range.mp hk
  rw [hx k hlt, hw k hlt]

theorem affineAcc_congr (hx : ∀ k < mat.ic, x k = x' k) (n : ℕ) :
    affineAcc fl mat x n = affineAcc fl mat x' n := by
  refine List.foldl_ext _ _ _ fun acc g hg => ?_
  have hcolumn : ∀ k ∈ List.range' (g * mat.groupSize) mat.groupSize, x k = x' k := by
    intro k hk
    obtain ⟨l, hl, rfl⟩ := List.mem_range'.mp hk
    have hblock := block_lt (List.mem_range.mp hg) hl
    have hwhole := Nat.div_mul_le_self mat.ic mat.groupSize
    exact hx _ (by omega)
  have hsum : (List.range' (g * mat.groupSize) mat.groupSize).foldl
        (fun s k => fl.add s (x k)) (fl.literal 0) =
      (List.range' (g * mat.groupSize) mat.groupSize).foldl
        (fun s k => fl.add s (x' k)) (fl.literal 0) :=
    List.foldl_ext _ _ _ fun s k hk => by rw [hcolumn k hk]
  simp only [hsum]
  congr 3
  exact List.foldl_ext _ _ _ fun s k hk => by rw [hcolumn k hk]

theorem stageAcc_congr (hx : ∀ k < mat.ic, x k = x' k) (n : ℕ) :
    stageAcc fl nativeRow mat x n = stageAcc fl nativeRow mat x' n := by
  unfold stageAcc
  split
  · exact affineAcc_congr hx n
  · exact dot_congr hx fun k _ => rfl

/-- A decoded row stands where it was put. -/
theorem scatter_decodeNativeRow (buffer : ℕ → F) (n out : ℕ) {k : ℕ} (hk : k < mat.ic) :
    scatter buffer (decodeNativeRow nativeRow mat n out) (out + k) = nativeRow mat n k := by
  refine scatter_eq ⟨_, List.mem_map_of_mem (List.mem_range.mpr hk), rfl⟩ ?_
  intro write hwrite hkey
  obtain ⟨k', -, rfl⟩ := List.mem_map.mp hwrite
  rw [Nat.add_left_cancel hkey]

theorem dot_decoded (buffer : ℕ → F) (n : ℕ) :
    dot fl mat.ic x (scatter buffer (decodeNativeRow nativeRow mat n 0)) =
      dot fl mat.ic x (nativeRow mat n) := by
  refine dot_congr (fun k _ => rfl) fun k hk => ?_
  have hrow := @scatter_decodeNativeRow F nativeRow mat buffer n 0 k hk
  rwa [Nat.zero_add] at hrow

theorem computeStageF32_eq (accOut : ℕ) (out : ℕ → F) :
    computeStageF32 fl nativeRow mat x nBegin nEnd accOut out =
      scatter out ((List.range' nBegin (nEnd - nBegin)).map fun n =>
        (accOut + (n - nBegin), stageAcc fl nativeRow mat x n)) := by
  unfold computeStageF32
  split
  next hnative =>
    rw [List.map_eq_flatMap]
    refine foldl_scatter_snd (fun wrow out n _ => ?_) _ _
    simp only [dot_decoded, stageAcc, if_neg hnative]
  next haffine =>
    simp only [stageAcc, if_pos (not_not.mp haffine)]

theorem computeStageF32_fills (out : ℕ → F) {i : ℕ} (hi : i < nEnd - nBegin) :
    computeStageF32 fl nativeRow mat x nBegin nEnd 0 out i =
      stageAcc fl nativeRow mat x (nBegin + i) := by
  rw [computeStageF32_eq]
  refine scatter_eq ⟨(i, stageAcc fl nativeRow mat x (nBegin + i)), ?_, rfl⟩ ?_
  · exact List.mem_map.mpr ⟨nBegin + i, List.mem_range'.mpr ⟨i, hi, by simp⟩, by simp⟩
  · intro write hwrite hkey
    obtain ⟨n, hn, rfl⟩ := List.mem_map.mp hwrite
    obtain ⟨l, hl, rfl⟩ := List.mem_range'.mp hn
    simp only [Nat.one_mul, Nat.add_sub_cancel_left, Nat.zero_add] at hkey ⊢
    rw [hkey]

/-- A lane of a row's register sums what the scalar loop sums. -/
theorem jobBlock_lane (w : Fin 4 → ℕ → F) (xt : ℕ → F) (jpad jb : ℕ) (r : Fin 4) (l : Fin 8) :
    jobBlock fl w xt jpad ic jb r l = dot fl ic (fun k => xt (k * jpad + jb + l)) (w r) := by
  have hrun : ∀ (ks : List ℕ) (acc : Fin 4 → M256 F),
      ks.foldl (fun acc k =>
        let x := loaduPs xt (k * jpad + jb)
        fun r => addPs fl (acc r) (mulPs fl x (set1Ps (w r k)))) acc r l =
      ks.foldl (fun acc k => fl.add acc (fl.mul (xt (k * jpad + jb + l)) (w r k))) (acc r l) := by
    intro ks
    induction ks with
    | nil => intro acc; rfl
    | cons k ks ih =>
        intro acc
        rw [List.foldl_cons, List.foldl_cons]
        exact ih _
  exact hrun _ _

/-- Only the rows of the pass count: the others are the first one. -/
theorem nativeDotJobsAvx2_congr {wrows rows : Fin 4 → ℕ → F} {nrows : ℕ} (hpos : 0 < nrows)
    (hrows : ∀ r : Fin 4, r < nrows → ∀ k < ic, wrows r k = rows r k)
    (xt : ℕ → F) (jpad out outStride : ℕ) :
    nativeDotJobsAvx2 fl wrows nrows xt jpad ic nJobs out outStride =
      nativeDotJobsAvx2 fl rows nrows xt jpad ic nJobs out outStride := by
  have hblock : ∀ jb,
      jobBlock fl (fun r => wrows (if r < nrows then r else 0)) xt jpad ic jb =
        jobBlock fl (fun r => rows (if r < nrows then r else 0)) xt jpad ic jb := by
    intro jb
    funext r l
    rw [jobBlock_lane, jobBlock_lane]
    refine dot_congr (fun k _ => rfl) (hrows _ ?_)
    split
    · assumption
    · exact hpos
  unfold nativeDotJobsAvx2
  simp only [hblock]

theorem mem_nativeDotJobsAvx2 {rows : ℕ → ℕ → F} {nrows jpad out outStride : ℕ}
    {write : ℕ × F} (hnrows : nrows ≤ 4) (xt : ℕ → F) :
    write ∈ nativeDotJobsAvx2 fl (fun r => rows r) nrows xt jpad ic nJobs out outStride ↔
      ∃ j < nJobs, ∃ r < nrows, write =
        (out + (j * outStride + r), dot fl ic (fun k => xt (k * jpad + j)) (rows r)) := by
  have hlane : ∀ jb l r, l < 8 → r < nrows →
      jobBlock fl (fun r => rows ((if r < nrows then r else 0 : Fin 4) : ℕ)) xt jpad ic jb
        (Fin.ofNat 4 r) (Fin.ofNat 8 l) =
          dot fl ic (fun k => xt (k * jpad + (jb + l))) (rows r) := by
    intro jb l r hl hr
    have hl8 : (Fin.ofNat 8 l : ℕ) = l := Nat.mod_eq_of_lt hl
    have hr4 : (Fin.ofNat 4 r : ℕ) = r := Nat.mod_eq_of_lt (hr.trans_le hnrows)
    rw [jobBlock_lane, hl8, hr4, if_pos hr, hr4]
    simp only [Nat.add_assoc]
  simp only [nativeDotJobsAvx2, List.mem_flatMap, mem_indicesBelow (by decide : 0 < 8), mem_nested]
  constructor
  · rintro ⟨b, hb, l, hl, r, hr, rfl⟩
    have hl8 : l < 8 := by split at hl <;> omega
    refine ⟨b * 8 + l, by split at hl <;> omega, r, hr, ?_⟩
    rw [hlane _ _ _ hl8 hr]
  · rintro ⟨j, hj, r, hr, rfl⟩
    have hsplit := Nat.div_add_mod' j 8
    have hl8 := Nat.mod_lt j (by decide : 8 > 0)
    refine ⟨j / 8, by omega, j % 8, by split <;> omega, r, hr, ?_⟩
    rw [hlane _ _ _ hl8 hr, hsplit]

theorem jobs_le_jpad (nJobs : ℕ) : nJobs ≤ (nJobs + 7) / 8 * 8 := by omega

/-- Job `j` is the column of lane `j`. -/
theorem transposed_lane {jpad j k : ℕ} (hpad : nJobs ≤ jpad) (hj : j < nJobs) (hk : k < ic) :
    transposed fl X nJobs ldx ic jpad (k * jpad + j) = X (j * ldx + k) := by
  refine scatter_eq ⟨_, mem_nested.mpr ⟨j, hj, k, hk, rfl⟩, rfl⟩ fun write hwrite hkey => ?_
  obtain ⟨j', hj', k', hk', rfl⟩ := mem_nested.mp hwrite
  obtain ⟨rfl, rfl⟩ := block_inj (hj'.trans_le hpad) (hj.trans_le hpad) hkey
  rfl

theorem passRows_le (n nEnd : ℕ) : passRows n nEnd ≤ 4 := by
  unfold passRows
  split <;> omega

theorem lt_passRows_iff {n r : ℕ} : r < passRows n nEnd ↔ r < 4 ∧ r < nEnd - n := by
  unfold passRows
  split <;> omega

/-- Passes of four rows over blocks of eight jobs meet every job and row. -/
theorem mem_passes {xt : ℕ → F} {jpad : ℕ} {write : ℕ × F} :
    (write ∈ (indicesBelow 4 (nEnd - nBegin)).flatMap fun p =>
      nativeDotJobsAvx2 fl (fun r => nativeRow mat (nBegin + p * 4 + r))
        (passRows (nBegin + p * 4) nEnd) xt jpad ic nJobs (nBegin + p * 4 - nBegin)
        (nEnd - nBegin)) ↔
      ∃ j < nJobs, ∃ i < nEnd - nBegin, write = (j * (nEnd - nBegin) + i,
        dot fl ic (fun k => xt (k * jpad + j)) (nativeRow mat (nBegin + i))) := by
  have hpass : ∀ p, write ∈ nativeDotJobsAvx2 fl (fun r => nativeRow mat (nBegin + p * 4 + r))
      (passRows (nBegin + p * 4) nEnd) xt jpad ic nJobs (nBegin + p * 4 - nBegin)
      (nEnd - nBegin) ↔ ∃ j < nJobs, ∃ r < passRows (nBegin + p * 4) nEnd,
        write = (j * (nEnd - nBegin) + (p * 4 + r),
          dot fl ic (fun k => xt (k * jpad + j)) (nativeRow mat (nBegin + (p * 4 + r)))) := by
    intro p
    rw [@mem_nativeDotJobsAvx2 F fl nJobs ic (fun r => nativeRow mat (nBegin + p * 4 + r)) _ _ _ _
      _ (passRows_le _ _)]
    simp only [Nat.add_sub_cancel_left, Nat.add_left_comm, Nat.add_assoc]
  rw [List.mem_flatMap]
  simp only [mem_indicesBelow (by decide : 0 < 4), hpass, lt_passRows_iff]
  constructor
  · rintro ⟨p, -, j, hj, r, ⟨hr, hrow⟩, rfl⟩
    exact ⟨j, hj, p * 4 + r, by omega, rfl⟩
  · rintro ⟨j, hj, i, hi, rfl⟩
    have hsplit := Nat.div_add_mod' i 4
    refine ⟨i / 4, by omega, j, hj, i % 4, ⟨Nat.mod_lt i (by decide), by omega⟩, ?_⟩
    rw [hsplit]

/-- The rows of a pass stand one behind the other. -/
theorem scatter_pass (buffer : ℕ → F) (n : ℕ) {nrows r k : ℕ} (hr : r < nrows)
    (hk : k < mat.ic) :
    scatter buffer ((List.range nrows).flatMap fun r =>
      decodeNativeRow nativeRow mat (n + r) (r * mat.ic)) (r * mat.ic + k) =
        nativeRow mat (n + r) k := by
  refine scatter_eq ⟨(r * mat.ic + k, nativeRow mat (n + r) k), ?_, rfl⟩ ?_
  · exact List.mem_flatMap.mpr ⟨r, List.mem_range.mpr hr,
      List.mem_map_of_mem (List.mem_range.mpr hk)⟩
  · intro write hwrite hkey
    obtain ⟨r', -, hdecoded⟩ := List.mem_flatMap.mp hwrite
    obtain ⟨k', hk', rfl⟩ := List.mem_map.mp hdecoded
    obtain ⟨rfl, rfl⟩ := block_inj (List.mem_range.mp hk') hk hkey
    rfl

theorem mem_range_begin {n : ℕ} :
    n ∈ List.range' nBegin (nEnd - nBegin) ↔ ∃ i < nEnd - nBegin, n = nBegin + i := by
  simp [List.mem_range']

/-- All three ways of a stage. -/
theorem computeStageF32Jobs_writes (haveAvx2 : Bool) (out : ℕ → F) :
    ∃ writes, computeStageF32Jobs fl nativeRow haveAvx2 mat X nJobs ldx nBegin nEnd out =
        scatter out writes ∧
      StageWrites fl nativeRow mat X nJobs ldx nBegin (nEnd - nBegin) writes := by
  unfold computeStageF32Jobs
  split
  next haffine =>
    -- a call of its own for every job
    refine ⟨(List.range nJobs).flatMap fun j => (List.range' nBegin (nEnd - nBegin)).map fun n =>
      (j * (nEnd - nBegin) + (n - nBegin),
        stageAcc fl nativeRow mat (fun k => X (j * ldx + k)) n), ?_, ?_⟩
    · simp only [computeStageF32_eq]
      generalize List.range nJobs = js
      induction js generalizing out with
      | nil => rfl
      | cons j js ih => rw [List.foldl_cons, List.flatMap_cons, scatter_append, ih]
    · intro write
      simp only [List.mem_flatMap, List.mem_range, List.mem_map, mem_range_begin]
      constructor
      · rintro ⟨j, hj, n, ⟨i, hi, rfl⟩, rfl⟩
        exact ⟨j, hj, i, hi, by rw [Nat.add_sub_cancel_left]⟩
      · rintro ⟨j, hj, i, hi, rfl⟩
        exact ⟨j, hj, nBegin + i, ⟨i, hi, rfl⟩, by rw [Nat.add_sub_cancel_left]⟩
  next hnative =>
    split
    next =>
      refine ⟨(indicesBelow 4 (nEnd - nBegin)).flatMap fun p =>
        nativeDotJobsAvx2 fl (fun r => nativeRow mat (nBegin + p * 4 + r))
          (passRows (nBegin + p * 4) nEnd)
          (transposed fl X nJobs ldx mat.ic ((nJobs + 7) / 8 * 8))
          ((nJobs + 7) / 8 * 8) mat.ic nJobs (nBegin + p * 4 - nBegin) (nEnd - nBegin), ?_, ?_⟩
      · refine foldl_scatter_snd (fun rows out p hp => ?_) _ _
        have hpass := (mem_indicesBelow (by decide)).mp hp
        refine congrArg (scatter out)
          (nativeDotJobsAvx2_congr (lt_passRows_iff.mpr ⟨by decide, by omega⟩) ?_ _ _ _ _)
        intro r hr k hk
        rw [if_pos hr]
        exact scatter_pass _ _ hr hk
      · have hsums : ∀ j < nJobs, ∀ n,
            dot fl mat.ic (fun k => transposed fl X nJobs ldx mat.ic ((nJobs + 7) / 8 * 8)
              (k * ((nJobs + 7) / 8 * 8) + j)) (nativeRow mat n) =
            stageAcc fl nativeRow mat (fun k => X (j * ldx + k)) n := by
          intro j hj n
          rw [stageAcc, if_neg hnative]
          exact dot_congr (fun k hk => transposed_lane (jobs_le_jpad nJobs) hj hk) fun k _ => rfl
        intro write
        rw [mem_passes]
        constructor
        · rintro ⟨j, hj, i, hi, rfl⟩
          exact ⟨j, hj, i, hi, by rw [hsums j hj]⟩
        · rintro ⟨j, hj, i, hi, rfl⟩
          exact ⟨j, hj, i, hi, by rw [hsums j hj]⟩
    next =>
      refine ⟨(List.range' nBegin (nEnd - nBegin)).flatMap fun n =>
        (List.range nJobs).map fun j => (j * (nEnd - nBegin) + (n - nBegin),
          stageAcc fl nativeRow mat (fun k => X (j * ldx + k)) n), ?_, ?_⟩
      · refine foldl_scatter_snd (fun wrow out n _ => ?_) _ _
        simp only [dot_decoded, stageAcc, if_neg hnative]
      · intro write
        simp only [List.mem_flatMap, List.mem_range, List.mem_map, mem_range_begin]
        constructor
        · rintro ⟨n, ⟨i, hi, rfl⟩, j, hj, rfl⟩
          exact ⟨j, hj, i, hi, by rw [Nat.add_sub_cancel_left]⟩
        · rintro ⟨j, hj, i, hi, rfl⟩
          exact ⟨nBegin + i, ⟨i, hi, rfl⟩, j, hj, by rw [Nat.add_sub_cancel_left]⟩

theorem computeStageF32Jobs_sum {haveAvx2 : Bool} {out : ℕ → F} {j i : ℕ} (hj : j < nJobs)
    (hi : i < nEnd - nBegin) :
    computeStageF32Jobs fl nativeRow haveAvx2 mat X nJobs ldx nBegin nEnd out
        (j * (nEnd - nBegin) + i) =
      stageAcc fl nativeRow mat (fun k => X (j * ldx + k)) (nBegin + i) := by
  obtain ⟨writes, heq, hwrites⟩ :=
    @computeStageF32Jobs_writes F fl nativeRow mat X nJobs ldx nBegin nEnd haveAvx2 out
  have hin : j * (nEnd - nBegin) + i < 0 + nJobs * (nEnd - nBegin) := by
    rw [Nat.zero_add]
    exact block_lt hj hi
  rw [heq, scatter_fillsRange (FillsRange.of_grid hwrites)]
  dsimp only
  rw [if_pos ⟨Nat.zero_le _, hin⟩, Nat.sub_zero, block_div hi, block_mod hi]

theorem computeStageF32Jobs_rest {haveAvx2 : Bool} {out : ℕ → F} {i : ℕ}
    (hi : nJobs * (nEnd - nBegin) ≤ i) :
    computeStageF32Jobs fl nativeRow haveAvx2 mat X nJobs ldx nBegin nEnd out i = out i := by
  obtain ⟨writes, heq, hwrites⟩ :=
    @computeStageF32Jobs_writes F fl nativeRow mat X nJobs ldx nBegin nEnd haveAvx2 out
  rw [heq, scatter_fillsRange (FillsRange.of_grid hwrites)]
  dsimp only
  rw [if_neg (by omega)]

/-! ## An expert gives every job its own output -/

variable (fl nativeRow)

/-- What the expert makes of a job between its two stages. -/
def jobHidden (e : ExpertDesc) (job : ExpertJob) (i : ℕ) : F :=
  let x (k : ℕ) : F := fl.f16ToF32 (job.x k)
  let upH := fl.f16ToF32 (fl.f32ToF16 (stageAcc fl nativeRow e.up x i))
  let act := applyAct fl (stageAcc fl nativeRow e.gate x i) e.act
  fl.f16ToF32 (fl.f32ToF16 (fl.mul upH act))

def jobOutput (e : ExpertDesc) (job : ExpertJob) (n : ℕ) : ℕ :=
  fl.f32ToF16 (fl.mul (stageAcc fl nativeRow e.down (jobHidden fl nativeRow e job) n)
    (fl.f16ToF32 job.wRoute))

variable {fl nativeRow} {haveAvx2 : Bool} {e : ExpertDesc} {jobs : List ExpertJob}

/-- The buffer of all jobs' activations. -/
theorem scatter_activations {hidden : ℕ} (table : ℕ → F) {job : ExpertJob} {j k : ℕ}
    (hjob : jobs[j]? = some job) (hk : k < hidden) :
    scatter table (jobs.zipIdx.flatMap fun (job, j) =>
      (List.range hidden).map fun k => (j * hidden + k, fl.f16ToF32 (job.x k)))
        (j * hidden + k) = fl.f16ToF32 (job.x k) := by
  refine scatter_eq ⟨(j * hidden + k, fl.f16ToF32 (job.x k)), ?_, rfl⟩ ?_
  · exact List.mem_flatMap.mpr ⟨(job, j), List.mk_mem_zipIdx_iff_getElem?.mpr hjob,
      List.mem_map_of_mem (List.mem_range.mpr hk)⟩
  · intro write hwrite hkey
    obtain ⟨⟨job', j'⟩, hjob', hplace⟩ := List.mem_flatMap.mp hwrite
    obtain ⟨k', hk', rfl⟩ := List.mem_map.mp hplace
    obtain ⟨rfl, rfl⟩ := block_inj (List.mem_range.mp hk') hk hkey
    have hsame := List.mk_mem_zipIdx_iff_getElem?.mp hjob'
    rw [hjob] at hsame
    rw [Option.some.inj hsame]

theorem moeCpuExpertRef_eq (colBegin colEnd : ℕ) :
    moeCpuExpertRef fl nativeRow haveAvx2 e jobs colBegin colEnd =
      jobs.flatMap fun job => (List.range' colBegin (colEnd - colBegin)).map fun n =>
        (job.y + n, jobOutput fl nativeRow e job n) := by
  have hjobs : ∀ f : ExpertJob → List (ℕ × ℕ),
      jobs.flatMap f = jobs.zipIdx.flatMap fun (job, _) => f job := by
    intro f
    conv_lhs => rw [← List.zipIdx_map_fst 0 jobs, List.flatMap_map]
  rw [hjobs, moeCpuExpertRef]
  refine List.flatMap_congr fun ⟨job, j⟩ hmem => List.map_congr_left fun n hn => ?_
  have hjob := List.mk_mem_zipIdx_iff_getElem?.mp hmem
  have hj : j < jobs.length := (List.getElem?_eq_some_iff.mp hjob).1
  obtain ⟨i, hi, rfl⟩ := mem_range_begin.mp hn
  -- both inner stages read the job's own activations
  have hinner : ∀ m : QuantMatrix, m.ic = e.down.oc → ∀ i < e.up.oc,
      computeStageF32Jobs fl nativeRow haveAvx2 m (scatter (zeros fl)
        (jobs.zipIdx.flatMap fun (job, j) => (List.range e.down.oc).map fun k =>
          (j * e.down.oc + k, fl.f16ToF32 (job.x k)))) jobs.length e.down.oc 0 e.up.oc (zeros fl)
        (j * e.up.oc + i) = stageAcc fl nativeRow m (fun k => fl.f16ToF32 (job.x k)) i := by
    intro m hm i hi
    have hsum := @computeStageF32Jobs_sum F fl nativeRow m (scatter (zeros fl)
      (jobs.zipIdx.flatMap fun (job, j) => (List.range e.down.oc).map fun k =>
        (j * e.down.oc + k, fl.f16ToF32 (job.x k)))) jobs.length e.down.oc 0 e.up.oc haveAvx2
      (zeros fl) j i hj (by rwa [Nat.sub_zero])
    rw [Nat.sub_zero, Nat.zero_add] at hsum
    rw [hsum]
    exact stageAcc_congr (fun k hk => scatter_activations _ hjob (hm ▸ hk)) i
  dsimp only
  rw [Nat.add_sub_cancel_left, computeStageF32Jobs_sum hj hi, jobOutput]
  refine congrArg (fun acc => (job.y + (colBegin + i),
    fl.f32ToF16 (fl.mul acc (fl.f16ToF32 job.wRoute)))) (stageAcc_congr (fun k hk => ?_) _)
  have hk' : k < e.up.oc := e.down_ic ▸ hk
  refine scatter_eq ⟨_, List.mem_map_of_mem (List.mem_range.mpr (block_lt hj hk')), rfl⟩ ?_
  intro write hwrite hkey
  obtain ⟨place, -, rfl⟩ := List.mem_map.mp hwrite
  dsimp only at hkey ⊢
  rw [hkey, hinner e.up e.up_ic k hk', hinner e.gate e.gate_ic k hk']
  rfl

/-! ## Ranges of columns -/

/-- No place of the outputs is in two columns. -/
def OneColumn (jobs : List ExpertJob) (colBegin colEnd : ℕ) : Prop :=
  ∀ job ∈ jobs, ∀ other ∈ jobs, ∀ n ∈ Set.Ico colBegin colEnd, ∀ m ∈ Set.Ico colBegin colEnd,
    job.y + n = other.y + m → n = m

/-- The outputs that the tier's callers give are rows of one table. -/
theorem OneColumn.of_rows {base hidden colBegin colEnd : ℕ}
    (hrows : ∀ job ∈ jobs, ∃ row, job.y = base + row * hidden) (hend : colEnd ≤ hidden) :
    OneColumn jobs colBegin colEnd := by
  intro job hjob other hother n hn m hm heq
  obtain ⟨row, hrow⟩ := hrows job hjob
  obtain ⟨row', hrow'⟩ := hrows other hother
  rw [hrow, hrow', Nat.add_assoc, Nat.add_assoc] at heq
  exact (block_inj (hn.2.trans_le hend) (hm.2.trans_le hend) (Nat.add_left_cancel heq)).2

theorem OneColumn.mono {colBegin colEnd first last : ℕ} (h : OneColumn jobs colBegin colEnd)
    (hbegin : colBegin ≤ first) (hend : last ≤ colEnd) : OneColumn jobs first last :=
  fun job hjob other hother n hn m hm =>
    h job hjob other hother n ⟨hbegin.trans hn.1, hn.2.trans_le hend⟩ m
      ⟨hbegin.trans hm.1, hm.2.trans_le hend⟩

theorem scatter_moeCpuExpertRef_split {colBegin mid colEnd : ℕ} (hbegin : colBegin ≤ mid)
    (hend : mid ≤ colEnd) (hcolumn : OneColumn jobs colBegin colEnd) (mem : ℕ → ℕ) :
    scatter mem (moeCpuExpertRef fl nativeRow haveAvx2 e jobs colBegin colEnd) =
      scatter (scatter mem (moeCpuExpertRef fl nativeRow haveAvx2 e jobs colBegin mid))
        (moeCpuExpertRef fl nativeRow haveAvx2 e jobs mid colEnd) := by
  have hcut : List.range' colBegin (colEnd - colBegin) =
      List.range' colBegin (mid - colBegin) ++ List.range' mid (colEnd - mid) := by
    have happend := @List.range'_append_1 colBegin (mid - colBegin) (colEnd - mid)
    rw [Nat.add_sub_cancel' hbegin] at happend
    rw [happend]
    congr 1
    omega
  simp only [moeCpuExpertRef_eq, hcut, List.map_append]
  refine scatter_flatMap_append (fun i => ?_) mem
  -- a place that one job has in the first range has no column in the second
  by_cases hfirst : ∃ job ∈ jobs, ∃ n ∈ Set.Ico colBegin mid, job.y + n = i
  · right
    obtain ⟨job, hjob, n, hn, rfl⟩ := hfirst
    intro other hother write hwrite hkey
    obtain ⟨m, hm, rfl⟩ := List.mem_map.mp hwrite
    obtain ⟨l, hl, rfl⟩ := mem_range_begin.mp hm
    have hsame := hcolumn other hother job hjob (mid + l) ⟨by omega, by omega⟩ n
      ⟨hn.1, hn.2.trans_le hend⟩ hkey
    have hlt := hn.2
    omega
  · left
    intro job hjob write hwrite hkey
    obtain ⟨n, hn, rfl⟩ := List.mem_map.mp hwrite
    obtain ⟨l, hl, rfl⟩ := mem_range_begin.mp hn
    exact hfirst ⟨job, hjob, colBegin + l, ⟨by omega, by omega⟩, hkey⟩

theorem le_getLastD {first : ℕ} {cuts : List ℕ} (h : (first :: cuts).IsChain (· ≤ ·)) :
    first ≤ cuts.getLastD first := by
  induction cuts generalizing first with
  | nil => exact le_rfl
  | cons cut cuts ih =>
      obtain ⟨hle, hrest⟩ := List.isChain_cons_cons.mp h
      rw [List.getLastD_cons]
      exact hle.trans (ih hrest)

/-- One call for every range between two cuts. -/
theorem foldl_moeCpuExpertRef {colBegin : ℕ} {cuts : List ℕ}
    (hchain : (colBegin :: cuts).IsChain (· ≤ ·))
    (hcolumn : OneColumn jobs colBegin (cuts.getLastD colBegin)) (mem : ℕ → ℕ) :
    ((colBegin :: cuts).zip cuts).foldl (fun mem (first, last) =>
        scatter mem (moeCpuExpertRef fl nativeRow haveAvx2 e jobs first last)) mem =
      scatter mem
        (moeCpuExpertRef fl nativeRow haveAvx2 e jobs colBegin (cuts.getLastD colBegin)) := by
  induction cuts generalizing colBegin mem with
  | nil =>
      have hnone : moeCpuExpertRef fl nativeRow haveAvx2 e jobs colBegin colBegin = [] := by
        rw [moeCpuExpertRef_eq, Nat.sub_self]
        exact List.flatMap_eq_nil_iff.mpr fun _ _ => rfl
      rw [List.getLastD_nil, hnone]
      rfl
  | cons cut cuts ih =>
      obtain ⟨hle, hrest⟩ := List.isChain_cons_cons.mp hchain
      rw [List.getLastD_cons] at hcolumn ⊢
      rw [List.zip_cons_cons, List.foldl_cons, ih hrest (hcolumn.mono hle le_rfl),
        ← scatter_moeCpuExpertRef_split hle (le_getLastD hrest) hcolumn]

variable (fl nativeRow) in
/-- Whatever jobs share a call, a job has its own sums and its own output, and the columns can
be computed in any number of calls. -/
theorem moeCpuExpertRef_jobs_apart (haveAvx2 : Bool) :
    (∀ (mat : QuantMatrix) (X out accOut : ℕ → F) (nJobs ldx nBegin nEnd : ℕ),
      (∀ j < nJobs, ∀ i < nEnd - nBegin,
        computeStageF32Jobs fl nativeRow haveAvx2 mat X nJobs ldx nBegin nEnd out
            (j * (nEnd - nBegin) + i) =
          computeStageF32 fl nativeRow mat (fun k => X (j * ldx + k)) nBegin nEnd 0 accOut i) ∧
      ∀ i, nJobs * (nEnd - nBegin) ≤ i →
        computeStageF32Jobs fl nativeRow haveAvx2 mat X nJobs ldx nBegin nEnd out i = out i) ∧
    (∀ (e : ExpertDesc) (jobs : List ExpertJob) (colBegin colEnd : ℕ),
      moeCpuExpertRef fl nativeRow haveAvx2 e jobs colBegin colEnd =
        jobs.flatMap fun job => moeCpuExpertRef fl nativeRow haveAvx2 e [job] colBegin colEnd) ∧
    ∀ (e : ExpertDesc) (jobs : List ExpertJob) (colBegin : ℕ) (cuts : List ℕ) (mem : ℕ → ℕ),
      (colBegin :: cuts).IsChain (· ≤ ·) → OneColumn jobs colBegin (cuts.getLastD colBegin) →
      ((colBegin :: cuts).zip cuts).foldl (fun mem (first, last) =>
          scatter mem (moeCpuExpertRef fl nativeRow haveAvx2 e jobs first last)) mem =
        scatter mem
          (moeCpuExpertRef fl nativeRow haveAvx2 e jobs colBegin (cuts.getLastD colBegin)) := by
  refine ⟨fun mat X out accOut nJobs ldx nBegin nEnd => ⟨fun j hj i hi => ?_, fun i hi => ?_⟩,
    fun e jobs colBegin colEnd => ?_, fun e jobs colBegin cuts mem hchain hcolumn => ?_⟩
  · rw [computeStageF32Jobs_sum hj hi, computeStageF32_fills accOut hi]
  · exact computeStageF32Jobs_rest hi
  · simp only [moeCpuExpertRef_eq, List.flatMap_singleton]
  · exact foldl_moeCpuExpertRef hchain hcolumn mem

end Tier

/-- Integers in place of floats. -/
def integerFloats : TierFloats ℤ where
  literal q := q.num
  add := (· + ·)
  sub := (· - ·)
  mul := (· * ·)
  div := (· / ·)
  neg := (- ·)
  abs x := x.natAbs
  exp x := x
  tanh x := x
  nonneg x := decide (0 ≤ x)
  f16ToF32 h := h
  f32ToF16 x := x.toNat

def countingRow (_ : QuantMatrix) (n k : ℕ) : ℤ := n + k

def countingMatrix (oc ic : ℕ) : QuantMatrix where
  w _ := 0
  s _ := 0
  z := none
  oc := oc
  ic := ic
  groupSize := 32
  format := 1

/-- Five wide, with three rows between the stages. -/
def countingExpert : ExpertDesc where
  gate := countingMatrix 3 5
  up := countingMatrix 3 5
  down := countingMatrix 5 3
  gate_ic := rfl
  up_ic := rfl
  down_ic := rfl

def nineJobs : List ExpertJob :=
  (List.range 9).map fun j => { x := fun k => j + k, wRoute := 2, y := j * 5 }

/-- One lane and one row behind a whole block. -/
theorem moeCpuExpertRef_jobs_apart_nineJobs :
    let stage := computeStageF32Jobs integerFloats countingRow true (countingMatrix 5 2)
      (fun i => i) 9 2 0 5 fun _ => 7
    let ref := moeCpuExpertRef integerFloats countingRow true countingExpert nineJobs
    stage 44 = 149 ∧ stage 45 = 7 ∧
      scatter (scatter (fun _ => 0) (ref 0 2)) (ref 2 5) = scatter (fun _ => 0) (ref 0 5) := by
  have hapart := moeCpuExpertRef_jobs_apart integerFloats countingRow true
  refine ⟨?_, (hapart.1 (countingMatrix 5 2) _ _ (fun _ => 0) 9 2 0 5).2 45 (by decide),
    hapart.2.2 countingExpert nineJobs 0 [2, 5] _ (by decide) ?_⟩
  · refine ((hapart.1 (countingMatrix 5 2) _ _ (fun _ => 0) 9 2 0 5).1 8 (by decide) 4
      (by decide)).trans ?_
    decide
  · refine @OneColumn.of_rows nineJobs 0 5 0 5 (fun job hjob => ?_) le_rfl
    obtain ⟨j, -, rfl⟩ := List.mem_map.mp hjob
    exact ⟨j, (Nat.zero_add _).symm⟩

end Arcint.Native
