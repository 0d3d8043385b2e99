import Mathlib.Algebra.BigOperators.Fin
import Mathlib.Algebra.Field.Defs
import Mathlib.Algebra.Ring.Nat
import Mathlib.Analysis.SpecialFunctions.Sigmoid
import Mathlib.Analysis.SpecialFunctions.Pow.Real

/-! # Exact arithmetic

The pointwise functions of the graph's ops, with the laws that the blocks rely on.
-/

namespace Arcint.Network

/-- One half. -/
def half (F : Type) [Field F] : F := ((2 : ℕ) : F)⁻¹

structure Arith (F : Type) [Field F] where
  exp : F → F
  sigmoid : F → F
  softplus : F → F
  sqrt : F → F
  cos : F → F
  sin : F → F
  pow : F → F → F
  exp_zero : exp 0 = 1
  exp_add : ∀ a b, exp (a + b) = exp a * exp b
  pow_neg_half : ∀ n : ℕ, 0 < n → pow n (-half F) * pow n (half F) = 1

section Ops

variable {F : Type} [Field F]

/-- The rows of a weight against a row. -/
def project {n : ℕ} (w : ℕ → Fin n → F) (x : Fin n → F) (o : ℕ) : F := ∑ i, x i * w o i

/-- `_mean` over an axis of length `n`. -/
def mean {n : ℕ} (x : Fin n → F) : F := (∑ i, x i) / n

namespace Arith

variable (arith : Arith F)

/-- `_rsqrt_eps` -/
def rsqrtEps (eps x : F) : F := 1 / arith.sqrt (x + eps)

/-- `_silu` -/
def silu (x : F) : F := x * arith.sigmoid x

end Arith

end Ops

/-- The ops over the real numbers. -/
noncomputable def realArith : Arith ℝ where
  exp := Real.exp
  sigmoid := Real.sigmoid
  softplus x := Real.log (1 + Real.exp x)
  sqrt := Real.sqrt
  cos := Real.cos
  sin := Real.sin
  pow := (· ^ ·)
  exp_zero := Real.exp_zero
  exp_add := Real.exp_add
  pow_neg_half n hn := by
    have hpos : (0 : ℝ) < n := Nat.cast_pos.mpr hn
    rw [← Real.rpow_add hpos, neg_add_cancel, Real.rpow_zero]

end Arcint.Network
