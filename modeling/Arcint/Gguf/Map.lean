import Arcint.Foundation.Scatter
import Mathlib.Data.List.GetD

/-! # The converter's value-head order

The converter writes the value heads of a linear-attention layer in an order of its own,
one value head of every key head after the other. The table of a model's modules says on
which side of a tensor the order shows: in its rows, in the value rows behind the query and
key rows, or in its columns.
-/

namespace Arcint.Gguf

open Foundation

/-- What the forms of a projection read of the file's geometry. -/
structure GgufGeometry where
  linearKHeads : ℕ
  linearVHeads : ℕ
  linearKDim : ℕ
  linearVDim : ℕ
  deriving DecidableEq, Repr

inductive GgufReorder where
  | none
  | rowsV
  | rowsQKV
  | columns
  deriving DecidableEq, Repr

/-- For every head of the model, the file's head that holds it. -/
def ggufVHeadToFileHead (kHeads vHeads : ℕ) : List ℕ :=
  if kHeads = 0 ∨ vHeads = 0 ∨ vHeads % kHeads ≠ 0 ∨ vHeads = kHeads then List.range vHeads
  else
    let r := vHeads / kHeads
    (List.range vHeads).map fun h =>
      let i := h / r
      let j := h % r
      j * kHeads + i

/-- The table, by head. -/
def toFile (kHeads vHeads h : ℕ) : ℕ := (ggufVHeadToFileHead kHeads vHeads).getD h 0

/-- The converter has moved value heads. -/
def Reorders (kHeads vHeads : ℕ) : Prop := 1 < kHeads ∧ kHeads ∣ vHeads ∧ vHeads ≠ kHeads

instance (kHeads vHeads : ℕ) : Decidable (Reorders kHeads vHeads) :=
  inferInstanceAs (Decidable (_ ∧ _ ∧ _))

section Order

variable {kHeads vHeads h : ℕ}

@[simp] theorem length_ggufVHeadToFileHead (kHeads vHeads : ℕ) :
    (ggufVHeadToFileHead kHeads vHeads).length = vHeads := by
  unfold ggufVHeadToFileHead
  split <;> simp

/-- The table's entry. -/
theorem toFile_eq (hh : h < vHeads) :
    toFile kHeads vHeads h =
      if kHeads = 0 ∨ vHeads = 0 ∨ vHeads % kHeads ≠ 0 ∨ vHeads = kHeads then h
      else h % (vHeads / kHeads) * kHeads + h / (vHeads / kHeads) := by
  have hlength : h < (ggufVHeadToFileHead kHeads vHeads).length := by simpa
  rw [toFile, List.getD_eq_getElem _ _ hlength]
  simp only [ggufVHeadToFileHead]
  split
  next => simp
  next => simp

/-- The table without a reorder. -/
theorem toFile_of_not_reorders (hk : 0 < kHeads) (hno : ¬ Reorders kHeads vHeads)
    (hh : h < vHeads) : toFile kHeads vHeads h = h := by
  rw [toFile_eq hh]
  split
  next => rfl
  next hguard =>
    have hguard := not_or.mp hguard |>.2
    obtain ⟨-, hdvd, hne⟩ : vHeads ≠ 0 ∧ vHeads % kHeads = 0 ∧ vHeads ≠ kHeads := by
      simpa [not_or] using hguard
    -- only one key head is left: its value heads are in order
    have hone : kHeads = 1 := by
      by_contra hmany
      exact hno ⟨by omega, Nat.dvd_of_mod_eq_zero hdvd, hne⟩
    subst hone
    simp [Nat.mod_eq_of_lt hh, Nat.div_eq_of_lt hh]

/-- The table of a reorder: head `i * r + j` is the file's head `j * kHeads + i`. -/
theorem toFile_of_reorders (hre : Reorders kHeads vHeads) (hh : h < vHeads) :
    toFile kHeads vHeads h = h % (vHeads / kHeads) * kHeads + h / (vHeads / kHeads) := by
  obtain ⟨hone, hdvd, hne⟩ := hre
  rw [toFile_eq hh, if_neg]
  have hmod := Nat.mod_eq_zero_of_dvd hdvd
  omega

/-- The heads of the file are the heads of the model, each once. -/
theorem toFile_permutes (hk : 0 < kHeads) (vHeads : ℕ) :
    PermutesBelow vHeads (toFile kHeads vHeads) := by
  by_cases hre : Reorders kHeads vHeads
  · obtain ⟨r, hr⟩ := hre.2.1
    have hdiv : vHeads / kHeads = r := by
      rw [hr, Nat.mul_div_cancel_left _ hk]
    have hcell : ∀ h < vHeads, h / r < kHeads ∧ h % r < r := by
      intro h hh
      rw [hr] at hh
      have hpos : 0 < r := Nat.pos_of_mul_pos_left (Nat.zero_lt_of_lt hh)
      exact ⟨(Nat.div_lt_iff_lt_mul hpos).mpr hh, Nat.mod_lt _ hpos⟩
    constructor
    · intro h hh
      obtain ⟨hi, hj⟩ := hcell h hh
      rw [toFile_of_reorders hre hh, hdiv, hr, Nat.mul_comm kHeads]
      exact block_lt hj hi
    · intro h hh h' hh' heq
      obtain ⟨hi, hj⟩ := hcell h hh
      obtain ⟨hi', hj'⟩ := hcell h' hh'
      rw [toFile_of_reorders hre hh, toFile_of_reorders hre hh', hdiv] at heq
      obtain ⟨hmod, hquot⟩ := block_inj hi hi' heq
      rw [← Nat.div_add_mod h r, ← Nat.div_add_mod h' r, hmod, hquot]
  · have hsame := fun h (hh : h < vHeads) => toFile_of_not_reorders hk hre hh
    constructor
    · intro h hh
      rwa [hsame h hh]
    · intro h hh h' hh' heq
      rwa [hsame h hh, hsame h' hh'] at heq

/-- The table as a list is the list of all heads in another order. -/
theorem ggufVHeadToFileHead_perm (hk : 0 < kHeads) (vHeads : ℕ) :
    (ggufVHeadToFileHead kHeads vHeads).Perm (List.range vHeads) := by
  have hmap : ggufVHeadToFileHead kHeads vHeads =
      (List.range vHeads).map (toFile kHeads vHeads) := by
    refine List.ext_getElem (by simp) fun h hh _ => ?_
    rw [List.getElem_map, List.getElem_range, toFile, List.getD_eq_getElem _ _ hh]
  rw [hmap]
  exact (toFile_permutes hk vHeads).map_perm

/-- A reorder moves the second head. -/
theorem toFile_one_ne (hv : 0 < vHeads) (hre : Reorders kHeads vHeads) :
    1 < vHeads ∧ toFile kHeads vHeads 1 ≠ 1 := by
  obtain ⟨hone, ⟨r, hr⟩, hne⟩ := id hre
  have hdiv : vHeads / kHeads = r := by
    rw [hr, Nat.mul_div_cancel_left _ (by omega)]
  have hmany : 1 < r := by
    by_contra hfew
    rcases Nat.le_one_iff_eq_zero_or_eq_one.mp (Nat.le_of_not_lt hfew) with rfl | rfl
    · rw [Nat.mul_zero] at hr
      omega
    · rw [Nat.mul_one] at hr
      exact hne hr
  have hlt : 1 < vHeads := hr ▸ Nat.lt_of_lt_of_le hone (Nat.le_mul_of_pos_right _ (by omega))
  refine ⟨hlt, ?_⟩
  rw [toFile_of_reorders hre hlt, hdiv, Nat.mod_eq_of_lt hmany, Nat.div_eq_of_lt hmany]
  omega

end Order

end Arcint.Gguf
