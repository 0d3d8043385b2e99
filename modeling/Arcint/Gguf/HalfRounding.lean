import Arcint.Foundation.Rounding
import Arcint.Gguf.Half

/-! # Rounding to halves

The conversion reads the exponent, and shifts the significand to the length that a half of that
exponent has. In every case that is rounding to the nearest half, with the carry and the overflow
of the pattern's own arithmetic.
-/

namespace Arcint.Gguf

open Foundation BinaryFormat

/-! ## Three regimes -/

/-- The exponent of a half is the float's, as far as it goes down. -/
theorem log_units {a exp : ℕ} (ha : 2 ^ 23 ≤ a) (ha' : a < 2 ^ 24) (hexp : 102 ≤ exp) :
    Nat.log 2 (a * 2 ^ (exp - 1) / 2 ^ 125) - 10 = exp - 113 := by
  rcases hexp.lt_or_eq with hlt | rfl
  · have hlog : Nat.log 2 (a * 2 ^ (exp - 1) / 2 ^ 125) = exp - 103 := by
      have hlow : 2 ^ (exp - 103) * 2 ^ 125 = 2 ^ 23 * 2 ^ (exp - 1) := by
        rw [← Nat.pow_add, ← Nat.pow_add]
        congr 1
        omega
      have hhigh : 2 ^ 24 * 2 ^ (exp - 1) = 2 ^ 125 * 2 ^ (exp - 103 + 1) := by
        rw [← Nat.pow_add, ← Nat.pow_add]
        congr 1
        omega
      apply Nat.log_eq_of_pow_le_of_lt_pow
      · rw [Nat.le_div_iff_mul_le (by decide), hlow]
        exact Nat.mul_le_mul_right _ ha
      · apply Nat.div_lt_of_lt_mul
        rw [← hhigh]
        exact Nat.mul_lt_mul_of_pos_right ha' (Nat.pow_pos (by decide))
    rw [hlog]
    omega
  · have hzero : a * 2 ^ (102 - 1) / 2 ^ 125 = 0 := by
      apply Nat.div_eq_of_lt
      omega
    rw [hzero]
    rfl

/-- A significand of full length, shifted as far as its exponent asks for. -/
theorem round_significand {a exp : ℕ} (ha : 2 ^ 23 ≤ a) (ha' : a < 2 ^ 24) (hexp : 102 ≤ exp) :
    binary16.round ((a * 2 ^ (exp - 1) : ℕ) / 2 ^ 125) =
      min binary16.infinity
        ((exp - 113) * 2 ^ 10 + nearest ((a : ℚ) / 2 ^ (max 12 (125 - exp) + 1))) := by
  have hfloor : ⌊((a * 2 ^ (exp - 1) : ℕ) : ℚ) / 2 ^ 125⌋₊ = a * 2 ^ (exp - 1) / 2 ^ 125 := by
    exact_mod_cast Nat.floor_div_eq_div (K := ℚ) (a * 2 ^ (exp - 1)) (2 ^ 125)
  have hshift : ((a * 2 ^ (exp - 1) : ℕ) : ℚ) / 2 ^ 125 / 2 ^ (exp - 113) =
      a / 2 ^ (max 12 (125 - exp) + 1) := by
    have hpow : (2 : ℚ) ^ 125 * 2 ^ (exp - 113) =
        2 ^ (exp - 1) * 2 ^ (max 12 (125 - exp) + 1) := by
      rw [← pow_add, ← pow_add]
      congr 1
      omega
    rw [div_div, hpow]
    push_cast
    rw [mul_comm, mul_div_mul_left _ _ (by positivity)]
  unfold BinaryFormat.round
  dsimp only
  rw [hfloor, show binary16.mantissaBits = 10 from rfl, log_units ha ha' hexp, hshift]

/-- Less than half of the smallest half. -/
theorem round_small {u : ℕ} (hu : u < 2 ^ 124) : binary16.round ((u : ℚ) / 2 ^ 125) = 0 := by
  have hfloor : ⌊(u : ℚ) / 2 ^ 125⌋₊ = 0 := by
    rw [Nat.floor_eq_zero, div_lt_one (by positivity)]
    exact_mod_cast hu.trans (Nat.pow_lt_pow_succ (by decide))
  have hquotient : u / 2 ^ (124 + 1) = 0 :=
    Nat.div_eq_of_lt (hu.trans (Nat.pow_lt_pow_succ (by decide)))
  have hnearest : nearest ((u : ℚ) / 2 ^ 125) = 0 := by
    have hrest : u % 2 ^ (124 + 1) = u :=
      Nat.mod_eq_of_lt (hu.trans (Nat.pow_lt_pow_succ (by decide)))
    rw [nearest_div u 124, hquotient, hrest, if_neg]
    rintro (hover | ⟨rfl, -⟩)
    · exact absurd hu (Nat.lt_asymm hover)
    · exact lt_irrefl _ hu
  unfold BinaryFormat.round
  dsimp only
  rw [hfloor, Nat.log_zero_right, Nat.zero_sub, pow_zero, div_one, hnearest, Nat.zero_mul]
  exact Nat.min_zero _

section Regimes

variable {x exp mant : ℕ} (hexp : x / 2 ^ 23 % 2 ^ 8 = exp) (hmant : x % 2 ^ 23 = mant)

include hexp

theorem toF16_small (hsmall : exp < 102) : toF16 x = x / 2 ^ 31 % 2 * 2 ^ 15 := by
  unfold toF16
  dsimp only
  rw [hexp, if_neg (by omega), if_neg (by omega), if_pos (by omega), if_pos (by omega)]

theorem toF16_large (hlarge : 143 ≤ exp) (hfinite : exp < 255) :
    toF16 x = x / 2 ^ 31 % 2 * 2 ^ 15 + 0x7C00 := by
  unfold toF16
  dsimp only
  rw [hexp, if_neg (by omega), if_pos (by omega)]

include hmant

theorem toF16_subnormal (hlow : 102 ≤ exp) (hhigh : exp ≤ 112) :
    toF16 x = x / 2 ^ 31 % 2 * 2 ^ 15 +
      nearest (((2 ^ 23 + mant : ℕ) : ℚ) / 2 ^ (125 - exp + 1)) := by
  have hshift : (14 - ((exp : ℤ) - 127 + 15)).toNat = 125 - exp + 1 := by omega
  rw [nearest_div]
  unfold toF16
  dsimp only
  rw [hexp, hmant, if_neg (by omega), if_neg (by omega), if_pos (by omega), if_neg (by omega),
    hshift, Nat.add_comm mant, Nat.add_sub_cancel]

theorem toF16_normal (hlow : 113 ≤ exp) (hhigh : exp ≤ 142) :
    toF16 x = x / 2 ^ 31 % 2 * 2 ^ 15 +
      ((exp - 113) * 2 ^ 10 + nearest (((2 ^ 23 + mant : ℕ) : ℚ) / 2 ^ (12 + 1))) := by
  have hbias : ((exp : ℤ) - 127 + 15).toNat = exp - 112 := by omega
  rw [nearest_div]
  unfold toF16
  dsimp only
  rw [hexp, hmant, if_neg (by omega), if_neg (by omega), if_neg (by omega), hbias]
  -- the leading one is a unit of the exponent
  have hquotient : (2 ^ 23 + mant) / 2 ^ (12 + 1) = 2 ^ 10 + mant / 2 ^ 13 := by omega
  have hrest : (2 ^ 23 + mant) % 2 ^ (12 + 1) = mant % 2 ^ 13 := by omega
  rw [hquotient, hrest]
  split <;> split <;> omega

end Regimes

/-! ## Every finite float -/

/-- Under half of the smallest half. -/
theorem units_small {x : ℕ} (hsmall : x / 2 ^ 23 % 2 ^ 8 < 102) : binary32.units x < 2 ^ 124 := by
  have hunits : binary32.units x = if x / 2 ^ 23 % 2 ^ 8 = 0 then x % 2 ^ 23
      else (2 ^ 23 + x % 2 ^ 23) * 2 ^ (x / 2 ^ 23 % 2 ^ 8 - 1) := rfl
  have hmantissa : x % 2 ^ 23 < 2 ^ 23 := Nat.mod_lt _ (by decide)
  rw [hunits]
  split
  next => exact hmantissa.trans (by decide)
  next =>
    calc (2 ^ 23 + x % 2 ^ 23) * 2 ^ (x / 2 ^ 23 % 2 ^ 8 - 1)
        ≤ (2 ^ 23 + x % 2 ^ 23) * 2 ^ 100 := by
          apply Nat.mul_le_mul_left
          exact Nat.pow_le_pow_right (by decide) (by omega)
      _ < 2 ^ 24 * 2 ^ 100 := Nat.mul_lt_mul_of_pos_right (by omega) (by decide)
      _ = 2 ^ 124 := by decide

/-- A significand that is shifted by one more loses its leading one. -/
theorem subnormal_short {a shift : ℕ} (ha : a < 2 ^ 24) (hshift : 13 ≤ shift) :
    a / 2 ^ (shift + 1) < 2 ^ 10 := by
  apply Nat.div_lt_of_lt_mul
  calc a < 2 ^ 14 * 2 ^ 10 := ha
    _ ≤ 2 ^ (shift + 1) * 2 ^ 10 := by
      apply Nat.mul_le_mul_right
      exact Nat.pow_le_pow_right (by decide) (Nat.succ_le_succ hshift)

theorem toF16_eq_round {x : ℕ} (hfinite : binary32.Finite x) :
    toF16 x = binary16.withSign (binary32.Negative x)
      (binary16.round (binary32.units x / 2 ^ 125)) := by
  have hbelow : x % 2 ^ 31 < 255 * 2 ^ 23 := hfinite
  have hsign (bits : ℕ) : binary16.withSign (binary32.Negative x) bits =
      x / 2 ^ 31 % 2 * 2 ^ 15 + bits := withSign_negative binary32 x
  have hinfinity : binary16.infinity = 31 * 2 ^ 10 := rfl
  have hmantissa : x % 2 ^ 23 < 2 ^ 23 := Nat.mod_lt _ (by decide)
  have hexponent : x / 2 ^ 23 % 2 ^ 8 < 255 := by omega
  rw [hsign]
  rcases Nat.lt_or_ge (x / 2 ^ 23 % 2 ^ 8) 102 with hsmall | hlow
  · rw [toF16_small rfl hsmall, round_small (units_small hsmall), Nat.add_zero]
  · have hunits : binary32.units x = (2 ^ 23 + x % 2 ^ 23) * 2 ^ (x / 2 ^ 23 % 2 ^ 8 - 1) :=
      if_neg (by change ¬ x / 2 ^ 23 % 2 ^ 8 = 0; omega)
    rw [hunits, round_significand (Nat.le_add_right _ _) (by omega) hlow]
    obtain ⟨hge, hle⟩ := nearest_div_mem (2 ^ 23 + x % 2 ^ 23)
      (max 12 (125 - x / 2 ^ 23 % 2 ^ 8))
    rcases Nat.lt_or_ge (x / 2 ^ 23 % 2 ^ 8) 113 with hsubnormal | hnormal
    · have hshift : max 12 (125 - x / 2 ^ 23 % 2 ^ 8) = 125 - x / 2 ^ 23 % 2 ^ 8 := by omega
      have hzero : x / 2 ^ 23 % 2 ^ 8 - 113 = 0 := by omega
      rw [hshift] at hle ⊢
      have hshort := @subnormal_short (2 ^ 23 + x % 2 ^ 23) (125 - x / 2 ^ 23 % 2 ^ 8) (by omega)
        (by omega)
      rw [toF16_subnormal rfl rfl hlow (by omega), hzero, Nat.zero_mul, Nat.zero_add, min_eq_right]
      omega
    · have hshift : max 12 (125 - x / 2 ^ 23 % 2 ^ 8) = 12 := by omega
      rw [hshift] at hge hle ⊢
      rcases Nat.lt_or_ge (x / 2 ^ 23 % 2 ^ 8) 143 with hmiddle | hlarge
      · rw [toF16_normal rfl rfl hnormal (by omega), min_eq_right]
        omega
      · rw [toF16_large rfl hlarge hexponent, min_eq_left]
        · rfl
        · omega

/-! ## The nearest half -/

/-- The number that a half is read as. -/
def halfValue (h : ℕ) : ℚ := binary32.value (f16ToF32 h)

/-- Halfway from the greatest finite half to the magnitude that would follow. -/
def halfLimit : ℚ := (halfValue 0x7BFF + 2 ^ 16) / 2

/-- A half is the nearest to a finite float. -/
structure NearestHalf (x h : ℕ) : Prop where
  word : h < 2 ^ 16
  /-- Also of zeros and infinities. -/
  sign : binary16.Negative h ↔ binary32.Negative x
  overflow : halfLimit ≤ |binary32.value x| → h % 2 ^ 15 = binary16.infinity
  finite : |binary32.value x| < halfLimit → binary16.Finite h
  nearest : |binary32.value x| < halfLimit → ∀ other, binary16.Finite other →
    halfValue other ≠ halfValue h →
      |binary32.value x - halfValue h| < |binary32.value x - halfValue other| ∨
        |binary32.value x - halfValue h| = |binary32.value x - halfValue other| ∧
          binary16.mantissa h % 2 = 0

/-- A float in units of the halves. -/
theorem value_eq_halfUnits (x : ℕ) :
    binary32.value x = (if binary32.Negative x then -((binary32.units x : ℚ) / 2 ^ 125)
      else (binary32.units x : ℚ) / 2 ^ 125) / 2 ^ 24 := by
  have hone : (binary32.one : ℚ) = 2 ^ 125 * 2 ^ 24 := by
    rw [← pow_add]
    exact_mod_cast (rfl : binary32.one = 2 ^ 149)
  rw [apply_ite (· / (2 : ℚ) ^ 24), neg_div, div_div, ← hone]
  rfl

theorem halfValue_eq {h : ℕ} (hfinite : binary16.Finite h) :
    halfValue h = (if binary16.Negative h then -(binary16.units h : ℚ)
      else binary16.units h) / 2 ^ 24 := by
  have hone : (binary16.one : ℚ) = 2 ^ 24 := by
    exact_mod_cast (rfl : binary16.one = 2 ^ 24)
  rw [halfValue, value_f16ToF32 hfinite, ← hone, apply_ite (· / (binary16.one : ℚ)), neg_div]
  rfl

theorem abs_value (x : ℕ) :
    |binary32.value x| = (binary32.units x : ℚ) / 2 ^ 125 / 2 ^ 24 := by
  have hscale : (0 : ℚ) < 2 ^ 24 := by positivity
  rw [value_eq_halfUnits, abs_div, abs_of_pos hscale]
  split
  · rw [abs_neg, abs_of_nonneg (by positivity)]
  · rw [abs_of_nonneg (by positivity)]

theorem halfLimit_eq : halfLimit =
    (binary16.units (binary16.infinity - 1) + binary16.units binary16.infinity) / 2 / 2 ^ 24 := by
  have hgreatest : halfValue 0x7BFF = binary16.units (binary16.infinity - 1) / 2 ^ 24 := by
    rw [halfValue_eq (by decide), if_neg (by decide)]
    rfl
  have htop : (binary16.units binary16.infinity : ℚ) = 2 ^ 16 * 2 ^ 24 := by
    exact_mod_cast (by decide : binary16.units binary16.infinity = 2 ^ 16 * 2 ^ 24)
  rw [halfLimit, hgreatest, htop]
  ring

theorem nearestHalf_toF16 {x : ℕ} (hfinite : binary32.Finite x) : NearestHalf x (toF16 x) := by
  have hX : (0 : ℚ) ≤ binary32.units x / 2 ^ 125 := by positivity
  have hnearest : binary16.Nearest (binary32.units x / 2 ^ 125)
    (binary16.round (binary32.units x / 2 ^ 125)) := nearest_round (by decide) hX
  have hhalf := toF16_eq_round hfinite
  generalize binary16.round (binary32.units x / 2 ^ 125) = b at *
  have hb : b < binary16.signBit := hnearest.1.trans_lt infinity_lt_signBit
  have hsign : binary16.Negative (toF16 x) ↔ binary32.Negative x := by
    rw [hhalf]
    exact negative_withSign hb
  have hbits : toF16 x % 2 ^ 15 = b := by
    rw [hhalf]
    exact withSign_mod hb
  have hover : halfLimit ≤ |binary32.value x| ↔ b = binary16.infinity := by
    rw [hnearest.eq_infinity_iff (by decide), abs_value, halfLimit_eq,
      div_le_div_iff_of_pos_right (by positivity)]
  have hmember : |binary32.value x| < halfLimit → binary16.Finite (toF16 x) := by
    intro hlow
    have hne : b ≠ binary16.infinity := mt hover.mpr (not_le.mpr hlow)
    rw [hhalf]
    exact finite_withSign (lt_of_le_of_ne hnearest.1 hne)
  have hword : toF16 x < 2 ^ 16 := by
    have hsignBit : binary16.signBit = 2 ^ 15 := rfl
    rw [hhalf, withSign]
    split <;> omega
  refine ⟨hword, hsign, fun hhigh => hbits.trans (hover.mp hhigh), hmember, ?_⟩
  intro hlow other hother hne
  have hunits : binary16.units (toF16 x) = binary16.units b := by rw [← units_mod, ← hbits]; rfl
  have hother' : other % binary16.signBit ≤ binary16.infinity := le_of_lt hother
  have hodd : b % 2 = binary16.mantissa (toF16 x) % 2 := by
    have hmantissa : binary16.mantissa (toF16 x) = toF16 x % 2 ^ 10 := rfl
    omega
  have hscale : (0 : ℚ) < |2 ^ 24| := by positivity
  have hpositive : (2 : ℚ) ^ 24 ≠ 0 := by positivity
  rw [halfValue_eq (hmember hlow), halfValue_eq hother, hunits, ← units_mod other, Ne,
    div_left_inj' hpositive, if_congr hsign rfl rfl] at hne
  rw [value_eq_halfUnits, halfValue_eq (hmember hlow), halfValue_eq hother, hunits,
    ← units_mod other, if_congr hsign rfl rfl, ← sub_div, ← sub_div, abs_div, abs_div, ← hodd,
    div_lt_div_iff_of_pos_right hscale, div_left_inj' hscale.ne']
  exact hnearest.signed hX hother' _ _ hne

/-- Every finite float becomes the nearest half, and every half comes back from its float. -/
theorem toF16_rounds : (∀ x, binary32.Finite x → NearestHalf x (toF16 x)) ∧
    ∀ h < 2 ^ 16, ¬ binary16.IsNaN h → toF16 (f16ToF32 h) = h :=
  ⟨fun _ hfinite => nearestHalf_toF16 hfinite, fun _ hlt hnumber => toF16_f16ToF32 hlt hnumber⟩

end Arcint.Gguf
