import Mathlib.Data.Nat.Basic
import Mathlib.Tactic.Linarith

/-! # The context a card has room for

The largest context per lane whose pages fit beside the fixed terms of a load.
Byte counts are exact: the terms of a load sum to less than the word size.
-/

namespace Arcint.Fit

/-- The terms of a reservation, in bytes where not said otherwise. -/
structure FitTerms where
  total : Nat
  weights : Nat
  drafters : Nat
  slotPool : Nat
  activations : Nat
  slabPerLane : Nat
  /-- Per lane, per token. -/
  kvBytesToken : Nat
  margin : Nat
  lanes : Nat
  kvBlockTokens : Nat
  nCtxFloor : Nat
  deriving DecidableEq, Repr

structure FitResult where
  /-- Per lane, a whole number of pages. -/
  maxCtx : Nat
  reservedTotal : Nat
  admissible : Bool
  deriving DecidableEq, Repr

namespace FitTerms

/-- Everything a load takes before its first page of context. -/
def fixed (t : FitTerms) : Nat :=
  t.weights + t.drafters + t.slotPool + t.activations + t.margin + max 1 t.lanes * t.slabPerLane

/-- One page of context for every lane fits. -/
def PageFits (t : FitTerms) : Prop :=
  0 < t.kvBytesToken ∧
    t.fixed + max 1 t.kvBlockTokens * (max 1 t.lanes * t.kvBytesToken) ≤ t.total

instance (t : FitTerms) : Decidable t.PageFits :=
  inferInstanceAs (Decidable (_ ∧ _))

end FitTerms

def fitContext (t : FitTerms) : FitResult :=
  let lanes := max 1 t.lanes
  let kvBlock := max 1 t.kvBlockTokens
  let budget : Int := (t.total : Int) - t.fixed
  let maxCtx :=
    if 0 < budget ∧ 0 < t.kvBytesToken then
      budget.toNat / t.kvBytesToken / lanes / kvBlock * kvBlock
    else 0
  { maxCtx
    reservedTotal := t.fixed + lanes * maxCtx * t.kvBytesToken
    admissible := 0 < maxCtx ∧ t.nCtxFloor ≤ maxCtx }

/-- The fit in terms of the bytes of one token in every lane. -/
theorem fitContext_maxCtx (t : FitTerms) :
    (fitContext t).maxCtx =
      (t.total - t.fixed) / (max 1 t.lanes * t.kvBytesToken) / max 1 t.kvBlockTokens *
        max 1 t.kvBlockTokens := by
  unfold fitContext
  dsimp only
  split
  next hroom =>
    rw [Int.toNat_sub, Nat.div_div_eq_div_mul _ t.kvBytesToken (max 1 t.lanes),
      Nat.mul_comm t.kvBytesToken]
  next hnone =>
    have hzero : (t.total - t.fixed) / (max 1 t.lanes * t.kvBytesToken) = 0 := by
      rcases Nat.eq_zero_or_pos t.kvBytesToken with hkv | hkv
      · rw [hkv, Nat.mul_zero, Nat.div_zero]
      · have hle : t.total ≤ t.fixed := by omega
        rw [Nat.sub_eq_zero_of_le hle, Nat.zero_div]
    rw [hzero, Nat.zero_div, Nat.zero_mul]

/-- Some context fits exactly when one page for every lane does. -/
theorem maxCtx_pos_iff (t : FitTerms) : 0 < (fitContext t).maxCtx ↔ t.PageFits := by
  have hblock : 0 < max 1 t.kvBlockTokens :=
    Nat.lt_of_lt_of_le Nat.zero_lt_one (Nat.le_max_left _ _)
  have hlanes : 0 < max 1 t.lanes := Nat.lt_of_lt_of_le Nat.zero_lt_one (Nat.le_max_left _ _)
  unfold FitTerms.PageFits
  rw [fitContext_maxCtx, Nat.mul_pos_iff_of_pos_right hblock, Nat.div_pos_iff]
  rcases Nat.eq_zero_or_pos t.kvBytesToken with hkv | hkv
  · rw [hkv, Nat.mul_zero, Nat.div_zero]
    omega
  · have hbytes : 0 < max 1 t.lanes * t.kvBytesToken := Nat.mul_pos hlanes hkv
    have hpage := Nat.mul_pos hblock hbytes
    rw [Nat.le_div_iff_mul_le hbytes]
    omega

/-- A context within the fit is paid for. -/
theorem reserved_le_total {t : FitTerms} {n : Nat} (hpos : 0 < n)
    (hn : n ≤ (fitContext t).maxCtx) :
    t.fixed + max 1 t.lanes * n * t.kvBytesToken ≤ t.total := by
  have hfits := (maxCtx_pos_iff t).mp (Nat.lt_of_lt_of_le hpos hn)
  rw [fitContext_maxCtx] at hn
  have hwhole := hn.trans (Nat.div_mul_le_self _ _)
  have hbytes := (Nat.mul_le_mul_right (max 1 t.lanes * t.kvBytesToken) hwhole).trans
    (Nat.div_mul_le_self _ _)
  have hle := hfits.2
  rw [Nat.mul_comm (max 1 t.lanes), Nat.mul_assoc]
  omega

/-- Charging less never lowers the fit. -/
theorem maxCtx_mono {t u : FitTerms} (htotal : t.total = u.total) (hlanes : t.lanes = u.lanes)
    (hblock : t.kvBlockTokens = u.kvBlockTokens) (hfixed : t.fixed ≤ u.fixed)
    (hkv : t.kvBytesToken ≤ u.kvBytesToken) (hpos : 0 < t.kvBytesToken) :
    (fitContext u).maxCtx ≤ (fitContext t).maxCtx := by
  rw [fitContext_maxCtx, fitContext_maxCtx, htotal, hlanes, hblock]
  have hbytes : 0 < max 1 u.lanes * t.kvBytesToken :=
    Nat.mul_pos (Nat.lt_of_lt_of_le Nat.zero_lt_one (Nat.le_max_left _ _)) hpos
  apply Nat.mul_le_mul_right
  apply Nat.div_le_div_right
  exact Nat.div_le_div (Nat.sub_le_sub_left hfixed _) (Nat.mul_le_mul_left _ hkv)
    (Nat.ne_of_gt hbytes)

end Arcint.Fit
