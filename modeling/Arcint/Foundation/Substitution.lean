import Mathlib.Data.Matrix.Mul
import Mathlib.Tactic.Abel

/-! # Forward substitution

The inverse of a unit lower triangular matrix, row by row: a row of the result is a combination
of the rows before it. The rows are accumulated, and a finished row is not touched again.
-/

namespace Arcint.Foundation

variable {R : Type*} [CommRing R] {n : ℕ}

/-- Nothing on the diagonal or above it. -/
def StrictlyLower (a : Matrix (Fin n) (Fin n) R) : Prop := ∀ i j, i ≤ j → a i j = 0

/-- The row `i` from the rows before it; nothing from the column `i` on. -/
def substituteRow (a : Matrix (Fin n) (Fin n) R) (acc : List (Fin n → R)) (i : Fin n) : Fin n → R :=
  fun j =>
    if j < i then a i j + ∑ r, if r < i then a i r * (acc[r.val]?).getD 0 j else 0 else 0

/-- The first rows of the substitution; the row 0 is taken as it is. -/
def substitute (a : Matrix (Fin n) (Fin n) R) : ℕ → List (Fin n → R)
  | 0 => []
  | i + 1 =>
      if h : i < n then
        substitute a i ++
          [if i = 0 then a ⟨i, h⟩ else substituteRow a (substitute a i) ⟨i, h⟩]
      else substitute a i

/-- The rows of the substitution, as a matrix. -/
def substituted (a : Matrix (Fin n) (Fin n) R) : Matrix (Fin n) (Fin n) R :=
  fun i => ((substitute a n)[i.val]?).getD 0

section Substitute

variable {a : Matrix (Fin n) (Fin n) R}

theorem substitute_succ {i : ℕ} (h : i < n) :
    substitute a (i + 1) = substitute a i ++
      [if i = 0 then a ⟨i, h⟩ else substituteRow a (substitute a i) ⟨i, h⟩] :=
  dif_pos h

theorem length_substitute {m : ℕ} (hm : m ≤ n) : (substitute a m).length = m := by
  induction m with
  | zero => rfl
  | succ m ih =>
      rw [substitute_succ hm, List.length_append, ih (Nat.le_of_succ_le hm)]
      rfl

/-- A finished row stays. -/
theorem substitute_getElem? {r m : ℕ} (hr : r < m) (hm : m ≤ n) :
    (substitute a m)[r]? = some (if r = 0 then a ⟨r, Nat.lt_of_lt_of_le hr hm⟩ else
      substituteRow a (substitute a r) ⟨r, Nat.lt_of_lt_of_le hr hm⟩) := by
  induction m with
  | zero => cases hr
  | succ m ih =>
      have hlength := @length_substitute _ _ _ a m (Nat.le_of_succ_le hm)
      rw [substitute_succ hm]
      rcases Nat.lt_or_eq_of_le (Nat.le_of_lt_succ hr) with hlt | rfl
      · rw [List.getElem?_append_left (by omega), ih hlt (Nat.le_of_succ_le hm)]
      · rw [List.getElem?_append_right (by omega), hlength, Nat.sub_self]
        rfl

/-- The rows that a later row reads are those of the result. -/
theorem substitute_getD {r i : Fin n} (hr : r < i) :
    ((substitute a i)[r.val]?).getD 0 = substituted a r := by
  unfold substituted
  rw [substitute_getElem? hr i.isLt.le, substitute_getElem? r.isLt (Nat.le_refl n)]

theorem substituted_eq (hlower : StrictlyLower a) (i j : Fin n) :
    substituted a i j = if j < i then a i j + ∑ r, a i r * substituted a r j else 0 := by
  have hrow : substituted a i = if i.val = 0 then a i else substituteRow a (substitute a i) i := by
    unfold substituted
    rw [substitute_getElem? i.isLt (Nat.le_refl n)]
    rfl
  rw [hrow]
  split
  next hzero =>
    have hnot : ¬j < i := fun h => Nat.not_lt_zero j.val (hzero ▸ h)
    rw [if_neg hnot]
    exact hlower i j (not_lt.mp hnot)
  next =>
    unfold substituteRow
    split
    next =>
      congr 1
      apply Finset.sum_congr rfl
      intro r _
      split
      next hr => rw [substitute_getD hr]
      next hr => rw [hlower i r (not_lt.mp hr), zero_mul]
    next => rfl

theorem substituted_strictlyLower (hlower : StrictlyLower a) : StrictlyLower (substituted a) :=
  fun i j hij => by rw [substituted_eq hlower, if_neg (not_lt.mpr hij)]

/-- The substitution solves its own equation. -/
theorem substituted_fixed (hlower : StrictlyLower a) :
    substituted a = a + a * substituted a := by
  ext i j
  rw [Matrix.add_apply, Matrix.mul_apply, substituted_eq hlower]
  split
  next => rfl
  next hij =>
    have hle := not_lt.mp hij
    rw [hlower i j hle, zero_add, Finset.sum_eq_zero]
    intro r _
    -- a row before `i` has nothing in a column from `i` on
    rcases lt_or_ge r i with hr | hr
    · rw [substituted_strictlyLower hlower r j (hr.le.trans hle), mul_zero]
    · rw [hlower i r hr, zero_mul]

/-- The substitution inverts `1 - a`. -/
theorem sub_mul_substituted (hlower : StrictlyLower a) :
    (1 - a) * (substituted a + 1) = 1 := by
  have hfixed := substituted_fixed hlower
  rw [sub_mul, one_mul, mul_add, mul_one]
  nth_rewrite 1 [hfixed]
  abel

end Substitute

end Arcint.Foundation
