import Mathlib.Algebra.Order.Round
import Mathlib.Data.Rat.Floor
import Mathlib.Tactic.FieldSimp
import Mathlib.Tactic.Linarith
import Mathlib.Tactic.Push
import Arcint.Foundation.Slice

/-! # Quantising a group

An expert's weights are filled in as grouped affine codes of four bits: a code, and a zero point and
a scale that a group shares. The zero point is an integer too, so the interval the codes stand for
rarely fits the group's range; the scale is widened until it does. Arithmetic is that of the
rationals, and only `round` and the two conversions to a byte stay what they are.
-/

namespace Arcint.Fill

open Foundation

/-- `np.round`: the nearest integer, and an even one between two. -/
def npRound (x : ℚ) : ℤ :=
  if Int.fract x < 1 / 2 then ⌊x⌋
  else if 1 / 2 < Int.fract x then ⌊x⌋ + 1
  else if ⌊x⌋ % 2 = 0 then ⌊x⌋ else ⌊x⌋ + 1

/-- `np.clip`. -/
def clip (x low high : ℤ) : ℤ := min (max x low) high

/-- `astype(np.uint8)` of a whole number. -/
def astypeU8 (x : ℤ) : ℕ := (x % 256).toNat

/-- Steps between sixteen levels. -/
def u4Steps : ℕ := 15

structure AffineGroup (S : Type) where
  codes : List ℕ
  zeroPoint : ℕ
  scale : S

/-- The zero point, rounded to a code. -/
def groupZeroPoint (lo safe : ℚ) : ℤ := clip (npRound (-lo / safe)) 0 u4Steps

/-- The scale at which the codes cover the group from the rounded zero point. -/
def widenedScale (lo hi safe : ℚ) (zp : ℤ) : ℚ :=
  let needLo := if 0 < zp then -lo / (if 0 < zp then zp else 1 : ℤ) else 0
  let needHi := if zp < u4Steps then hi / (if zp < u4Steps then u4Steps - zp else 1 : ℤ) else 0
  max safe (max needLo needHi)

/-- The code of a value. -/
def groupCode (degenerate : Bool) (lo scale : ℚ) (zp : ℤ) (v : ℚ) : ℤ :=
  let code :=
    if 0 < scale then npRound (v / (if 0 < scale then scale else 1) + zp)
    else if degenerate && 0 < lo then u4Steps else 0
  clip code 0 u4Steps

/-- `quantise_group_affine` on one group; the minimum of no values raises. -/
def quantiseGroup : List ℚ → Option (AffineGroup ℚ)
  | [] => none
  | first :: rest =>
      let lo := rest.foldl min first
      let hi := rest.foldl max first
      let step := (hi - lo) / u4Steps
      let degenerate : Bool := step ≤ 0
      let safe := if degenerate then 1 else step
      let rounded := groupZeroPoint lo safe
      let scale := if degenerate then |lo| / u4Steps else widenedScale lo hi safe rounded
      let zp : ℤ := if degenerate then (if lo < 0 then u4Steps else 0) else rounded
      some
        { codes := (first :: rest).map fun v => astypeU8 (groupCode degenerate lo scale zp v)
          zeroPoint := astypeU8 zp
          scale }

/-- The values of a row, group by group. -/
def rowGroups {α : Type} (groupSize : ℕ) (row : List α) : List (List α) :=
  (List.range (row.length / groupSize)).map fun group => slice row (group * groupSize) groupSize

/-- `quantise_group_affine` on a row. -/
def quantiseGroupAffine (row : List ℚ) (groupSize : ℕ) : Option (List (AffineGroup ℚ)) :=
  if groupSize = 0 ∨ row.length % groupSize ≠ 0 then none
  else (rowGroups groupSize row).mapM quantiseGroup

/-- `dequantise_affine`. -/
def dequantiseAffine (q zp : ℕ) (scale : ℚ) : ℚ := ((q : ℚ) - zp) * scale

/-! ## Rounding -/

theorem abs_sub_npRound_le (x : ℚ) : |x - npRound x| ≤ 1 / 2 := by
  have hfract := Int.self_sub_floor x
  have hnonneg := Int.fract_nonneg x
  have hlt := Int.fract_lt_one x
  rw [abs_le]
  unfold npRound
  split_ifs <;> push_cast <;> constructor <;> linarith

theorem le_of_npRound_le {x : ℚ} {n : ℤ} (h : npRound x ≤ n) : x ≤ n + 1 / 2 := by
  have hround := (abs_le.mp (abs_sub_npRound_le x)).2
  have : (npRound x : ℚ) ≤ n := by exact_mod_cast h
  linarith

theorem le_of_le_npRound {x : ℚ} {n : ℤ} (h : n ≤ npRound x) : n - 1 / 2 ≤ x := by
  have hround := (abs_le.mp (abs_sub_npRound_le x)).1
  have : (n : ℚ) ≤ npRound x := by exact_mod_cast h
  linarith

theorem npRound_intCast (n : ℤ) : npRound n = n := by
  simp [npRound]

theorem clip_nonneg (x : ℤ) : 0 ≤ clip x 0 u4Steps :=
  le_min (le_max_right _ _) (by decide)

theorem clip_le (x : ℤ) : clip x 0 u4Steps ≤ u4Steps := min_le_right _ _

theorem clip_eq_self {x : ℤ} (hlow : 0 ≤ x) (hhigh : x ≤ u4Steps) : clip x 0 u4Steps = x := by
  rw [clip, max_eq_left hlow, min_eq_left hhigh]

theorem clip_of_neg {x : ℤ} (h : x < 0) : clip x 0 u4Steps = 0 := by
  rw [clip, max_eq_right h.le, min_eq_left (by decide)]

theorem clip_of_lt {x : ℤ} (h : (u4Steps : ℤ) < x) : clip x 0 u4Steps = u4Steps := by
  rw [clip, min_eq_right (h.le.trans (le_max_left _ _))]

/-- A number no farther than half outside of the codes is coded to within half. -/
theorem abs_sub_clip_le {y : ℚ} (hlow : -(1 / 2) ≤ y) (hhigh : y ≤ u4Steps + 1 / 2) :
    |y - clip (npRound y) 0 u4Steps| ≤ 1 / 2 := by
  have hround := abs_le.mp (abs_sub_npRound_le y)
  rcases lt_or_ge (npRound y) 0 with hneg | hnonneg
  · have hle := le_of_npRound_le (Int.le_sub_one_of_lt hneg)
    rw [clip_of_neg hneg, abs_le]
    push_cast at hle ⊢
    constructor <;> linarith
  · rcases le_or_gt (npRound y) u4Steps with hle | hgt
    · rw [clip_eq_self hnonneg hle]
      exact abs_sub_npRound_le y
    · have hge := le_of_le_npRound (Int.add_one_le_of_lt hgt)
      rw [clip_of_lt hgt, abs_le]
      push_cast at hge ⊢
      constructor <;> linarith

theorem astypeU8_of_code {x : ℤ} (hlow : 0 ≤ x) (hhigh : x ≤ u4Steps) :
    (astypeU8 x : ℤ) = x ∧ astypeU8 x ≤ u4Steps := by
  unfold astypeU8 u4Steps at *
  omega

theorem astypeU8_cast {x : ℤ} (hlow : 0 ≤ x) (hhigh : x ≤ u4Steps) : (astypeU8 x : ℚ) = x := by
  exact_mod_cast (astypeU8_of_code hlow hhigh).1

/-! ## The widened scale -/

section Widened

variable {lo hi safe v : ℚ}

theorem safe_le_widenedScale (zp : ℤ) : safe ≤ widenedScale lo hi safe zp := le_max_left _ _

theorem neg_lo_le_widened {zp : ℤ} (hzp : 0 < zp) : -lo ≤ zp * widenedScale lo hi safe zp := by
  have hneed : -lo / zp ≤ widenedScale lo hi safe zp := by
    refine le_trans ?_ ((le_max_left _ _).trans (le_max_right _ _))
    simp only [if_pos hzp, le_refl]
  rwa [div_le_iff₀' (by exact_mod_cast hzp)] at hneed

theorem hi_le_widened {zp : ℤ} (hzp : zp < u4Steps) :
    hi ≤ (u4Steps - zp) * widenedScale lo hi safe zp := by
  have hneed : hi / (u4Steps - zp : ℤ) ≤ widenedScale lo hi safe zp := by
    refine le_trans ?_ ((le_max_right _ _).trans (le_max_right _ _))
    simp only [if_pos hzp, le_refl]
  rw [div_le_iff₀' (by exact_mod_cast sub_pos.mpr hzp)] at hneed
  exact_mod_cast hneed

/-- Before it is rounded, a value's code is no farther than half outside of the codes. The scale is
widened for a zero point strictly between the ends; at an end it was rounded by at most half. -/
theorem widened_covers (hsafe : 0 < safe) (hrange : hi - lo = u4Steps * safe) (hlo : lo ≤ v)
    (hhi : v ≤ hi) :
    let zp := groupZeroPoint lo safe
    let scale := widenedScale lo hi safe zp
    v / scale + zp ∈ Set.Icc (-(1 / 2) : ℚ) (u4Steps + 1 / 2) := by
  intro zp scale
  have hwide : safe ≤ scale := safe_le_widenedScale zp
  have hscale : 0 < scale := hsafe.trans_le hwide
  have hzp : (0 : ℤ) ≤ zp := clip_nonneg _
  have hzp' : zp ≤ u4Steps := clip_le _
  constructor
  · have hleast : -lo ≤ (zp + 1 / 2) * scale := by
      rcases hzp.eq_or_lt with hzero | hpos
      · have hround : npRound (-lo / safe) ≤ (0 : ℤ) := by
          by_contra! hlt
          have hclip : zp = min (npRound (-lo / safe)) u4Steps := by
            simp only [zp, groupZeroPoint, clip, max_eq_left hlt.le]
          exact absurd (hclip ▸ hzero) (lt_min hlt (by decide)).ne
        have hhalf := le_of_npRound_le hround
        rw [div_le_iff₀ hsafe] at hhalf
        push_cast [← hzero] at hhalf ⊢
        linarith
      · have hneed : -lo ≤ zp * scale := neg_lo_le_widened hpos
        linarith
    have hdiv : -(zp + 1 / 2 : ℚ) ≤ v / scale := by
      rw [le_div_iff₀ hscale]
      linarith
    linarith
  · have hmost : hi ≤ (u4Steps - zp + 1 / 2) * scale := by
      rcases hzp'.eq_or_lt with htop | hlt
      · have hround : (u4Steps : ℤ) ≤ npRound (-lo / safe) := by
          have hmin : zp ≤ max (npRound (-lo / safe)) 0 := min_le_left _ _
          rw [htop] at hmin
          exact (le_max_iff.mp hmin).resolve_right (by decide)
        have hhalf := le_of_le_npRound hround
        rw [le_div_iff₀ hsafe] at hhalf
        have htop' : (zp : ℚ) = u4Steps := by exact_mod_cast htop
        rw [htop']
        push_cast at hhalf
        linarith
      · have hneed : hi ≤ (u4Steps - zp) * scale := hi_le_widened hlt
        linarith
    have hdiv : v / scale ≤ u4Steps - zp + 1 / 2 := by
      rw [div_le_iff₀ hscale]
      linarith
    linarith

end Widened

/-! ## A group -/

/-- What the codes of a group give back of its values. -/
structure WithinHalfStep (values : List ℚ) (group : AffineGroup ℚ) : Prop where
  codes_le : ∀ q ∈ group.codes, q ≤ u4Steps
  zeroPoint_le : group.zeroPoint ≤ u4Steps
  scale_nonneg : 0 ≤ group.scale
  near : List.Forall₂
    (fun v q => |v - dequantiseAffine q group.zeroPoint group.scale| ≤ group.scale / 2)
    values group.codes
  exact : (∀ v ∈ values, ∀ v' ∈ values, v = v') →
    List.Forall₂ (fun v q => dequantiseAffine q group.zeroPoint group.scale = v)
      values group.codes

theorem foldl_min_spec (first : ℚ) (rest : List ℚ) :
    rest.foldl min first ∈ first :: rest ∧ ∀ v ∈ first :: rest, rest.foldl min first ≤ v :=
  List.min?_eq_some_iff.mp List.min?_cons'

theorem foldl_max_spec (first : ℚ) (rest : List ℚ) :
    rest.foldl max first ∈ first :: rest ∧ ∀ v ∈ first :: rest, v ≤ rest.foldl max first :=
  List.max?_eq_some_iff.mp List.max?_cons'

theorem near_of_code {v scale : ℚ} {zp q : ℤ} (hscale : 0 < scale)
    (hcode : |v / scale + zp - q| ≤ 1 / 2) : |v - (q - zp) * scale| ≤ scale / 2 := by
  have hstep : v - (q - zp) * scale = (v / scale + zp - q) * scale := by
    field_simp
    ring
  rw [hstep, abs_mul, abs_of_pos hscale]
  calc |v / scale + zp - q| * scale ≤ 1 / 2 * scale :=
        mul_le_mul_of_nonneg_right hcode hscale.le
    _ = scale / 2 := by ring

theorem dequantiseAffine_astypeU8 {q zp : ℤ} {scale : ℚ} (hq : 0 ≤ q) (hq' : q ≤ u4Steps)
    (hzp : 0 ≤ zp) (hzp' : zp ≤ u4Steps) :
    dequantiseAffine (astypeU8 q) (astypeU8 zp) scale = (q - zp) * scale := by
  rw [dequantiseAffine, astypeU8_cast hq hq', astypeU8_cast hzp hzp']

theorem groupCode_nonneg (degenerate : Bool) (lo scale : ℚ) (zp : ℤ) (v : ℚ) :
    0 ≤ groupCode degenerate lo scale zp v := clip_nonneg _

theorem groupCode_le (degenerate : Bool) (lo scale : ℚ) (zp : ℤ) (v : ℚ) :
    groupCode degenerate lo scale zp v ≤ u4Steps := clip_le _

/-- A group of equal values: the top code of a scale without a zero point, or the bottom code of one
with the largest. -/
theorem degenerate_code (v : ℚ) :
    let scale := |v| / u4Steps
    let zp : ℤ := if v < 0 then u4Steps else 0
    (groupCode true v scale zp v - zp) * scale = v := by
  have hsteps : (0 : ℚ) < u4Steps := by norm_num [u4Steps]
  rcases lt_trichotomy v 0 with hneg | rfl | hpos
  · have hne := hneg.ne
    have hscale : 0 < |v| / u4Steps := div_pos (abs_pos.mpr hne) hsteps
    have hcode : v / (|v| / u4Steps) + ((u4Steps : ℤ) : ℚ) = ((0 : ℤ) : ℚ) := by
      rw [abs_of_neg hneg]
      push_cast
      field_simp
      ring
    simp only [groupCode, if_pos hscale, if_pos hneg, hcode, npRound_intCast]
    rw [clip_eq_self le_rfl (by decide), abs_of_neg hneg]
    push_cast
    field_simp
    ring
  · simp [groupCode, clip, u4Steps]
  · have hne := hpos.ne'
    have hscale : 0 < |v| / u4Steps := div_pos (abs_pos.mpr hne) hsteps
    have hcode : v / (|v| / u4Steps) + ((0 : ℤ) : ℚ) = ((u4Steps : ℤ) : ℚ) := by
      rw [abs_of_pos hpos]
      push_cast
      field_simp
      ring
    simp only [groupCode, if_pos hscale, if_neg hpos.not_gt, hcode, npRound_intCast]
    rw [clip_eq_self (by decide) le_rfl, abs_of_pos hpos]
    push_cast
    field_simp
    ring

/-- What is left to show of a group, once its codes and zero point are known to fit a byte. -/
theorem withinHalfStep_of_codes {values : List ℚ} {scale : ℚ} {zp : ℤ} {code : ℚ → ℤ}
    (hcode : ∀ v, 0 ≤ code v ∧ code v ≤ u4Steps) (hzp : 0 ≤ zp ∧ zp ≤ u4Steps)
    (hscale : 0 ≤ scale) (hnear : ∀ v ∈ values, |v - (code v - zp) * scale| ≤ scale / 2)
    (hexact : (∀ v ∈ values, ∀ v' ∈ values, v = v') →
      ∀ v ∈ values, (code v - zp) * scale = v) :
    WithinHalfStep values ⟨values.map fun v => astypeU8 (code v), astypeU8 zp, scale⟩ := by
  have hvalue : ∀ v, dequantiseAffine (astypeU8 (code v)) (astypeU8 zp) scale =
      (code v - zp) * scale := fun v =>
    dequantiseAffine_astypeU8 (hcode v).1 (hcode v).2 hzp.1 hzp.2
  refine ⟨?_, (astypeU8_of_code hzp.1 hzp.2).2, hscale, ?_, fun hequal => ?_⟩
  · simp only [List.mem_map, forall_exists_index, and_imp, forall_apply_eq_imp_iff₂]
    exact fun v _ => (astypeU8_of_code (hcode v).1 (hcode v).2).2
  · rw [List.forall₂_map_right_iff, List.forall₂_same]
    exact fun v hv => (hvalue v).symm ▸ hnear v hv
  · rw [List.forall₂_map_right_iff, List.forall₂_same]
    exact fun v hv => (hvalue v).trans (hexact hequal v hv)

theorem withinHalfStep_flat {values : List ℚ} {lo : ℚ} (hequal : ∀ v ∈ values, v = lo) :
    let scale := |lo| / u4Steps
    let zp : ℤ := if lo < 0 then u4Steps else 0
    WithinHalfStep values
      ⟨values.map fun v => astypeU8 (groupCode true lo scale zp v), astypeU8 zp, scale⟩ := by
  intro scale zp
  have hscale : 0 ≤ scale := div_nonneg (abs_nonneg lo) (Nat.cast_nonneg u4Steps)
  have hexact : ∀ v ∈ values, (groupCode true lo scale zp v - zp) * scale = v := by
    intro v hv
    simpa only [scale, zp, hequal v hv] using degenerate_code lo
  refine withinHalfStep_of_codes (fun _ => ⟨groupCode_nonneg _ _ _ _ _, groupCode_le _ _ _ _ _⟩)
    ?_ hscale (fun v hv => ?_) fun _ => hexact
  · constructor <;> simp only [zp] <;> split_ifs <;> decide
  · rw [hexact v hv, sub_self, abs_zero]
    exact div_nonneg hscale zero_le_two

theorem withinHalfStep_widened {values : List ℚ} {lo hi step : ℚ} (hstep : 0 < step)
    (hrange : hi - lo = u4Steps * step) (hlo : ∀ v ∈ values, lo ≤ v) (hhi : ∀ v ∈ values, v ≤ hi)
    (hvary : ¬ ∀ v ∈ values, ∀ v' ∈ values, v = v') :
    let zp := groupZeroPoint lo step
    let scale := widenedScale lo hi step zp
    WithinHalfStep values
      ⟨values.map fun v => astypeU8 (groupCode false lo scale zp v), astypeU8 zp, scale⟩ := by
  intro zp scale
  have hscale : 0 < scale := hstep.trans_le (safe_le_widenedScale zp)
  refine withinHalfStep_of_codes (fun _ => ⟨groupCode_nonneg _ _ _ _ _, groupCode_le _ _ _ _ _⟩)
    ⟨clip_nonneg _, clip_le _⟩ hscale.le (fun v hv => ?_) fun hequal => absurd hequal hvary
  have hcovers := widened_covers hstep hrange (hlo v hv) (hhi v hv)
  apply near_of_code hscale
  simp only [groupCode, if_pos hscale]
  exact abs_sub_clip_le hcovers.1 hcovers.2

/-- Every group that has a value is coded. -/
theorem quantiseGroup_spec (first : ℚ) (rest : List ℚ) :
    ∃ group, quantiseGroup (first :: rest) = some group ∧
      WithinHalfStep (first :: rest) group := by
  obtain ⟨hlo_mem, hlo⟩ := foldl_min_spec first rest
  obtain ⟨hhi_mem, hhi⟩ := foldl_max_spec first rest
  have hsteps : (0 : ℚ) < u4Steps := by norm_num [u4Steps]
  refine ⟨_, rfl, ?_⟩
  rcases le_or_gt ((rest.foldl max first - rest.foldl min first) / u4Steps) 0 with hflat | hstep
  · have hle : rest.foldl max first ≤ rest.foldl min first := by
      rw [div_le_iff₀ hsteps, zero_mul] at hflat
      linarith
    have hequal : ∀ v ∈ first :: rest, v = rest.foldl min first := fun v hv =>
      le_antisymm ((hhi v hv).trans hle) (hlo v hv)
    simpa only [decide_eq_true hflat, if_true] using withinHalfStep_flat hequal
  · have hvary : ¬ ∀ v ∈ first :: rest, ∀ v' ∈ first :: rest, v = v' := fun hequal => by
      rw [hequal _ hhi_mem _ hlo_mem, sub_self, zero_div] at hstep
      exact lt_irrefl _ hstep
    have hrange : rest.foldl max first - rest.foldl min first = u4Steps *
        ((rest.foldl max first - rest.foldl min first) / u4Steps) := by
      rw [mul_div_cancel₀ _ hsteps.ne']
    simpa only [decide_eq_false hstep.not_ge, Bool.false_eq_true, if_false] using
      withinHalfStep_widened hstep hrange hlo hhi hvary

/-! ## A row -/

theorem rowGroups_ne_nil {α : Type} {groupSize : ℕ} {row : List α} (hsize : 0 < groupSize)
    {values : List α} (h : values ∈ rowGroups groupSize row) : values ≠ [] := by
  obtain ⟨group, hgroup, rfl⟩ := List.mem_map.mp h
  have hlt := List.mem_range.mp hgroup
  have hfits : (group + 1) * groupSize ≤ row.length :=
    (Nat.le_div_iff_mul_le hsize).mp hlt
  rw [Nat.succ_mul] at hfits
  apply List.ne_nil_of_length_pos
  simp only [slice, List.length_take, List.length_drop]
  omega

theorem mapM_quantiseGroup {groups : List (List ℚ)} (h : ∀ values ∈ groups, values ≠ []) :
    ∃ out, groups.mapM quantiseGroup = some out ∧ List.Forall₂ WithinHalfStep groups out := by
  induction groups with
  | nil => exact ⟨[], rfl, .nil⟩
  | cons values groups ih =>
      obtain ⟨first, rest, rfl⟩ := List.exists_cons_of_ne_nil (h values List.mem_cons_self)
      obtain ⟨group, hgroup, hnear⟩ := quantiseGroup_spec first rest
      obtain ⟨out, hout, hall⟩ := ih fun values hvalues => h values (List.mem_cons_of_mem _ hvalues)
      exact ⟨group :: out, by simp [hgroup, hout], .cons hnear hall⟩

/-- A row of whole groups is coded group by group, each within half a step of its own scale. -/
theorem quantiseGroupAffine_within_half_step {row : List ℚ} {groupSize : ℕ} (hsize : 0 < groupSize)
    (hwhole : row.length % groupSize = 0) :
    ∃ groups, quantiseGroupAffine row groupSize = some groups ∧
      List.Forall₂ WithinHalfStep (rowGroups groupSize row) groups := by
  rw [quantiseGroupAffine, if_neg (by omega)]
  exact mapM_quantiseGroup fun _ => rowGroups_ne_nil hsize

/-- A group across zero, one of a single value and one below zero. -/
theorem quantiseGroupAffine_within_half_step_threeGroups :
    ∃ groups, quantiseGroupAffine [-1, 2, 3, 3, -7, -5] 2 = some groups ∧
      List.Forall₂ WithinHalfStep (rowGroups 2 [-1, 2, 3, 3, -7, -5]) groups :=
  quantiseGroupAffine_within_half_step (by decide) (by decide)

end Arcint.Fill
