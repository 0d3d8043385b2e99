import Arcint.Foundation.Binary
import Mathlib.Tactic.Positivity

/-! # Halves and floats

A half is read as the float of the same value, and that float is written as the half it was
read from. Only the payload of a NaN is lost on the way.
-/

namespace Arcint.Gguf

open Foundation BinaryFormat

/-! ## The conversions -/

/-- Shifts a significand until its leading one is at bit 10. -/
def normalize : ℕ → ℕ → ℕ → ℕ × ℕ
  | 0, mant, shift => (mant, shift)
  | fuel + 1, mant, shift =>
      if mant / 2 ^ 10 % 2 = 0 then normalize fuel (mant * 2) (shift + 1) else (mant, shift)

def f16ToF32 (h : ℕ) : ℕ :=
  let sign := h / 2 ^ 15 % 2 * 2 ^ 31
  let exp := h / 2 ^ 10 % 2 ^ 5
  let mant := h % 2 ^ 10
  if exp = 0 then
    if mant = 0 then sign
    else
      -- ten shifts bring any significand there
      let (mant, shift) := normalize 10 mant 0
      let unbiased : ℤ := -14 - shift
      sign + (unbiased + 127).toNat * 2 ^ 23 + mant % 2 ^ 10 * 2 ^ 13
  else if exp = 31 then sign + 255 * 2 ^ 23 + mant * 2 ^ 13
  else
    let unbiased : ℤ := exp - 15
    sign + (unbiased + 127).toNat * 2 ^ 23 + mant * 2 ^ 13

def toF16 (x : ℕ) : ℕ :=
  let sign := x / 2 ^ 31 % 2 * 2 ^ 15
  let exp : ℤ := (x / 2 ^ 23 % 2 ^ 8 : ℕ) - 127 + 15
  let mant := x % 2 ^ 23
  if x / 2 ^ 23 % 2 ^ 8 = 255 then sign + 0x7C00 + if mant ≠ 0 then 0x200 else 0
  else if 31 ≤ exp then sign + 0x7C00
  else if exp ≤ 0 then
    if exp < -10 then sign
    else
      let mant := mant + 2 ^ 23
      let shift := (14 - exp).toNat
      let half := mant / 2 ^ shift
      let rem := mant % 2 ^ shift
      let halfway := 2 ^ (shift - 1)
      sign + if halfway < rem ∨ rem = halfway ∧ half % 2 = 1 then half + 1 else half
  else
    let half := exp.toNat * 2 ^ 10 + mant / 2 ^ 13
    let rem := mant % 2 ^ 13
    -- the carry may go into the exponent
    sign + if 0x1000 < rem ∨ rem = 0x1000 ∧ half % 2 = 1 then half + 1 else half

/-! ## Finite halves -/

/-- Enough shifts bring the leading one there. -/
theorem normalize_eq {fuel mant : ℕ} (shift : ℕ) (hreach : 2 ^ 10 ≤ mant * 2 ^ fuel)
    (hlt : mant < 2 ^ 11) :
    ∃ k ≤ fuel, normalize fuel mant shift = (mant * 2 ^ k, shift + k) ∧
      2 ^ 10 ≤ mant * 2 ^ k ∧ mant * 2 ^ k < 2 ^ 11 := by
  induction fuel generalizing mant shift with
  | zero => exact ⟨0, le_refl 0, by simp [normalize], by simpa using hreach, by simpa using hlt⟩
  | succ fuel ih =>
      unfold normalize
      split
      next hlow =>
        obtain ⟨k, hk, heq, hge, hbelow⟩ :=
          @ih (mant * 2) (shift + 1) (by rw [Nat.mul_assoc, ← Nat.pow_succ']; exact hreach)
            (by omega)
        have hshifted : mant * 2 ^ (k + 1) = mant * 2 * 2 ^ k := by ring
        rw [← hshifted] at heq hge hbelow
        exact ⟨k + 1, by omega, heq.trans (Prod.ext rfl (by dsimp only; omega)), hge, hbelow⟩
      next =>
        refine ⟨0, Nat.zero_le _, ?_, ?_, ?_⟩
        all_goals
          rw [Nat.pow_zero, Nat.mul_one]
        · rfl
        · omega
        · exact hlt

section Fields

variable {sign : ℕ}

/-- A significand of a half, shifted to the length of a float's, is shifted back. -/
theorem toF16_shifted {m k x : ℕ} (hsign : sign < 2) (hk : 1 ≤ k) (hk' : k ≤ 10)
    (hge : 2 ^ 10 ≤ m * 2 ^ k) (hlt : m * 2 ^ k < 2 ^ 11)
    (hx : x = sign * 2 ^ 31 + (113 - k) * 2 ^ 23 + (m * 2 ^ k - 2 ^ 10) * 2 ^ 13) :
    toF16 x = sign * 2 ^ 15 + m := by
  have hfirst : x / 2 ^ 31 % 2 = sign := by omega
  have hexponent : x / 2 ^ 23 % 2 ^ 8 = 113 - k := by omega
  have hexp : ((113 - k : ℕ) : ℤ) - 127 + 15 = 1 - k := by omega
  have hmantissa : x % 2 ^ 23 + 2 ^ 23 = m * 2 ^ (14 - (1 - k : ℤ)).toNat := by
    have hshift : (14 - (1 - k : ℤ)).toNat = k + 13 := by omega
    rw [hshift, Nat.pow_add, ← Nat.mul_assoc]
    omega
  have hhalfway : 0 < 2 ^ ((14 - (1 - k : ℤ)).toNat - 1) := Nat.pow_pos (by decide)
  unfold toF16
  dsimp only
  rw [hfirst, hexponent, hexp, if_neg (by omega), if_neg (by omega), if_pos (by omega),
    if_neg (by omega), hmantissa, Nat.mul_div_cancel _ (Nat.pow_pos (by decide)),
    Nat.mul_mod_left, if_neg (by omega)]

/-- The other halves keep their fields. -/
theorem toF16_fields {exp mant : ℕ} (hsign : sign < 2) (hexp : 0 < exp) (hexp' : exp < 31)
    (hmant : mant < 2 ^ 10) :
    toF16 (sign * 2 ^ 31 + (exp + 112) * 2 ^ 23 + mant * 2 ^ 13) =
      sign * 2 ^ 15 + exp * 2 ^ 10 + mant := by
  unfold toF16
  dsimp only
  rw [if_neg (by omega), if_neg (by omega), if_neg (by omega), if_neg (by omega)]
  omega

end Fields

/-- A half comes back from its float. -/
theorem toF16_f16ToF32 {h : ℕ} (hlt : h < 2 ^ 16) (hnumber : ¬ binary16.IsNaN h) :
    toF16 (f16ToF32 h) = h := by
  have hnumber : h % 2 ^ 15 ≤ 31 * 2 ^ 10 := Nat.le_of_not_lt hnumber
  unfold f16ToF32
  dsimp only
  split
  next hexp =>
    split
    next hmant =>
      unfold toF16
      dsimp only
      rw [if_neg (by omega), if_neg (by omega), if_pos (by omega), if_pos (by omega)]
      omega
    next hmant =>
      obtain ⟨k, hk, heq, hge, hbelow⟩ := @normalize_eq 10 (h % 2 ^ 10) 0 (by omega) (by omega)
      have hk0 : 1 ≤ k := by
        rw [Nat.one_le_iff_ne_zero]
        rintro rfl
        omega
      have hunbiased : (-14 - ((0 + k : ℕ) : ℤ) + 127).toNat = 113 - k := by omega
      have hcut : h % 2 ^ 10 * 2 ^ k % 2 ^ 10 = h % 2 ^ 10 * 2 ^ k - 2 ^ 10 := by omega
      rw [heq]
      dsimp only
      rw [hunbiased, hcut, toF16_shifted (Nat.mod_lt _ (by decide)) hk0 hk hge hbelow rfl]
      omega
  next hexp =>
    split
    next hinf =>
      unfold toF16
      dsimp only
      rw [if_pos (by omega), if_neg (by omega)]
      omega
    next hnormal =>
      have hunbiased : ((h / 2 ^ 10 % 2 ^ 5 : ℕ) - 15 + 127 : ℤ).toNat =
          h / 2 ^ 10 % 2 ^ 5 + 112 := by omega
      rw [hunbiased, toF16_fields (Nat.mod_lt _ (by decide)) (by omega) (by omega)
        (Nat.mod_lt _ (by decide))]
      omega

/-- The units of a float in a unit of a half. -/
theorem f16ToF32_eq {h : ℕ} (hfinite : binary16.Finite h) :
    ∃ bits < binary32.infinity,
      f16ToF32 h = binary32.withSign (binary16.Negative h) bits ∧
        binary32.units bits = binary16.units h * 2 ^ 125 := by
  have hbelow : h % 2 ^ 15 < 31 * 2 ^ 10 := hfinite
  have hsign (bits : ℕ) : binary32.withSign (binary16.Negative h) bits =
      h / 2 ^ 15 % 2 * 2 ^ 31 + bits := withSign_negative binary16 h
  have hunits : binary16.units h = if h / 2 ^ 10 % 2 ^ 5 = 0 then h % 2 ^ 10
      else (2 ^ 10 + h % 2 ^ 10) * 2 ^ (h / 2 ^ 10 % 2 ^ 5 - 1) := rfl
  have hinfinity : binary32.infinity = 255 * 2 ^ 23 := rfl
  rw [hunits, hinfinity]
  unfold f16ToF32
  dsimp only
  split
  next hexp =>
    split
    next hmant =>
      refine ⟨0, by decide, by rw [hsign, Nat.add_zero], ?_⟩
      rw [hmant]
      rfl
    next hmant =>
      obtain ⟨k, hk, heq, hge, hlt⟩ := @normalize_eq 10 (h % 2 ^ 10) 0 (by omega) (by omega)
      rw [heq]
      dsimp only
      refine ⟨(112 - k) * 2 ^ 23 + h % 2 ^ 10 * 2 ^ k * 2 ^ 13, by omega, ?_, ?_⟩
      · rw [hsign]
        omega
      · have hnormal := @units_normal binary32 (h % 2 ^ 10 * 2 ^ k * 2 ^ 13) (112 - k)
          (by change 2 ^ 23 ≤ _; omega) (by change _ < 2 ^ 24; omega) (by change _ < 2 ^ 8; omega)
        refine hnormal.trans ?_
        rw [Nat.mul_assoc, Nat.mul_assoc, ← Nat.pow_add, ← Nat.pow_add]
        congr 2
        omega
  next hexp =>
    split
    next hinf => omega
    next hnormal =>
      refine ⟨(h / 2 ^ 10 % 2 ^ 5 + 111) * 2 ^ 23 + (2 ^ 10 + h % 2 ^ 10) * 2 ^ 13, by omega, ?_,
        ?_⟩
      · rw [hsign]
        omega
      · have hnormal := @units_normal binary32 ((2 ^ 10 + h % 2 ^ 10) * 2 ^ 13)
          (h / 2 ^ 10 % 2 ^ 5 + 111) (by change 2 ^ 23 ≤ _; omega) (by change _ < 2 ^ 24; omega)
          (by change _ < 2 ^ 8; omega)
        refine hnormal.trans ?_
        rw [Nat.mul_assoc, Nat.mul_assoc, ← Nat.pow_add, ← Nat.pow_add]
        congr 2
        omega

theorem finite_f16ToF32 {h : ℕ} (hfinite : binary16.Finite h) : binary32.Finite (f16ToF32 h) := by
  obtain ⟨bits, hbits, heq, -⟩ := f16ToF32_eq hfinite
  rw [heq]
  exact finite_withSign hbits

theorem units_f16ToF32 {h : ℕ} (hfinite : binary16.Finite h) :
    binary32.units (f16ToF32 h) = binary16.units h * 2 ^ 125 := by
  obtain ⟨bits, hbits, heq, hunits⟩ := f16ToF32_eq hfinite
  rw [heq, units_withSign (hbits.trans infinity_lt_signBit), hunits]

/-- A float has the value of the half it is read from. -/
theorem value_f16ToF32 {h : ℕ} (hfinite : binary16.Finite h) :
    binary32.value (f16ToF32 h) = binary16.value h := by
  obtain ⟨bits, hbits, heq, hunits⟩ := f16ToF32_eq hfinite
  have hmagnitude : (binary32.units bits / binary32.one : ℚ) =
      binary16.units h / binary16.one := by
    have hone : binary32.one = binary16.one * 2 ^ 125 := rfl
    rw [hunits, hone]
    push_cast
    exact mul_div_mul_right _ _ (by positivity)
  rw [heq, value_withSign (hbits.trans infinity_lt_signBit), hmagnitude]
  rfl

end Arcint.Gguf
