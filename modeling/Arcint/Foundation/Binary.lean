import Arcint.Foundation.Scatter
import Mathlib.Data.Nat.Log
import Mathlib.Data.Rat.Floor
import Mathlib.Tactic.FieldSimp
import Mathlib.Tactic.Linarith
import Mathlib.Tactic.NormNum
import Mathlib.Tactic.Ring

/-! # Binary floating-point formats

A pattern is a sign, an exponent and a significand without its leading one. Every finite
magnitude is a whole number of units, where a unit is the smallest magnitude above zero.
Arithmetic rounds to the nearest magnitude, and between two of them to the even one: what is
a magnitude already is not rounded.
-/

namespace Arcint.Foundation

structure BinaryFormat where
  mantissaBits : ℕ
  exponentBits : ℕ
  two_le : 2 ≤ exponentBits

/-- To the nearest whole number, and between two of them to the even one. -/
def nearest (x : ℚ) : ℕ :=
  let n := ⌊x⌋₊
  if x - n < 1 / 2 ∨ x - n = 1 / 2 ∧ n % 2 = 0 then n else n + 1

@[simp] theorem nearest_natCast (n : ℕ) : nearest n = n := by
  simp [nearest]

namespace BinaryFormat

def binary16 : BinaryFormat := ⟨10, 5, by decide⟩

def binary32 : BinaryFormat := ⟨23, 8, by decide⟩

section Patterns

variable (F : BinaryFormat)

/-- The sign in its place. -/
def signBit : ℕ := 2 ^ (F.mantissaBits + F.exponentBits)

/-- The pattern behind those of the finite magnitudes. -/
def infinity : ℕ := (2 ^ F.exponentBits - 1) * 2 ^ F.mantissaBits

def mantissa (bits : ℕ) : ℕ := bits % 2 ^ F.mantissaBits

def exponent (bits : ℕ) : ℕ := bits / 2 ^ F.mantissaBits % 2 ^ F.exponentBits

def Negative (bits : ℕ) : Prop := bits / F.signBit % 2 = 1

def IsNaN (bits : ℕ) : Prop := F.infinity < bits % F.signBit

def Finite (bits : ℕ) : Prop := bits % F.signBit < F.infinity

instance (bits : ℕ) : Decidable (F.Negative bits) := inferInstanceAs (Decidable (_ = _))

instance (bits : ℕ) : Decidable (F.IsNaN bits) := inferInstanceAs (Decidable (_ < _))

instance (bits : ℕ) : Decidable (F.Finite bits) := inferInstanceAs (Decidable (_ < _))

/-- The units in one. -/
def one : ℕ := 2 ^ (2 ^ (F.exponentBits - 1) - 2 + F.mantissaBits)

/-- The units of a finite magnitude. -/
def units (bits : ℕ) : ℕ :=
  if F.exponent bits = 0 then F.mantissa bits
  else (2 ^ F.mantissaBits + F.mantissa bits) * 2 ^ (F.exponent bits - 1)

def value (bits : ℕ) : ℚ :=
  let magnitude : ℚ := F.units bits / F.one
  if F.Negative bits then -magnitude else magnitude

/-- A significand of full length, moved. -/
def Representable (u : ℕ) : Prop :=
  ∃ n < 2 ^ (F.mantissaBits + 1), ∃ e ≤ 2 ^ F.exponentBits - 3, u = n * 2 ^ e

/-- The pattern of the magnitude nearest to a number of units. -/
def round (x : ℚ) : ℕ :=
  let e := Nat.log 2 ⌊x⌋₊ - F.mantissaBits
  min F.infinity (e * 2 ^ F.mantissaBits + nearest (x / 2 ^ e))

def withSign (negative : Prop) [Decidable negative] (bits : ℕ) : ℕ :=
  if negative then F.signBit + bits else bits

/-- In the order of the values. -/
def key (bits : ℕ) : ℤ :=
  if F.Negative bits then -(bits % F.signBit : ℕ) else (bits % F.signBit : ℕ)

end Patterns

section Arithmetic

-- which NaN an operation without a number gives is left open
variable (F : BinaryFormat) (nan : ℕ → ℕ → ℕ)

def mul (a b : ℕ) : ℕ :=
  let negative := ¬(F.Negative a ↔ F.Negative b)
  if F.IsNaN a ∨ F.IsNaN b then nan a b
  else if F.Finite a ∧ F.Finite b then
    F.withSign negative (F.round ((F.units a * F.units b : ℕ) / F.one))
  -- an infinity, of which zero times is no number
  else if F.units a * F.units b = 0 then nan a b
  else F.withSign negative F.infinity

def div (a b : ℕ) : ℕ :=
  let negative := ¬(F.Negative a ↔ F.Negative b)
  if F.IsNaN a ∨ F.IsNaN b then nan a b
  else if F.Finite a then
    if F.Finite b then
      if F.units b ≠ 0 then
        F.withSign negative (F.round ((F.units a * F.one : ℕ) / F.units b))
      else if F.units a = 0 then nan a b
      else F.withSign negative F.infinity
    else F.withSign negative 0
  else if F.Finite b then F.withSign negative F.infinity
  else nan a b

def add (a b : ℕ) : ℕ :=
  let signed (bits : ℕ) : ℤ := if F.Negative bits then -F.units bits else F.units bits
  if F.IsNaN a ∨ F.IsNaN b then nan a b
  else if F.Finite a ∧ F.Finite b then
    let sum := signed a + signed b
    if sum = 0 then F.withSign (F.Negative a ∧ F.Negative b) 0
    else F.withSign (sum < 0) (F.round sum.natAbs)
  else if F.Finite a then b
  else if F.Finite b ∨ (F.Negative a ↔ F.Negative b) then a
  else nan a b

def neg (a : ℕ) : ℕ := if F.Negative a then a - F.signBit else F.signBit + a

def sub (a b : ℕ) : ℕ := F.add nan a (F.neg b)

def ofInt (n : ℤ) : ℕ := F.withSign (n < 0) (F.round (n.natAbs * F.one : ℕ))

def lt (a b : ℕ) : Bool := ¬F.IsNaN a ∧ ¬F.IsNaN b ∧ F.key a < F.key b

/-- `std::max`. -/
def max (a b : ℕ) : ℕ := if F.lt a b then b else a

end Arithmetic

/-! ## Patterns of magnitudes -/

section Units

variable {F : BinaryFormat} {bits n e u : ℕ}

theorem signBit_pos : 0 < F.signBit := Nat.pow_pos (by decide)

theorem one_pos : 0 < F.one := Nat.pow_pos (by decide)

theorem signBit_eq : F.signBit = 2 ^ F.exponentBits * 2 ^ F.mantissaBits := by
  rw [signBit, Nat.pow_add, Nat.mul_comm]

theorem infinity_lt_signBit : F.infinity < F.signBit := by
  have hexponents : 0 < 2 ^ F.exponentBits := Nat.pow_pos (by decide)
  rw [signBit_eq]
  exact Nat.mul_lt_mul_of_pos_right (by omega) (Nat.pow_pos (by decide))

/-- The sign is not part of the magnitude. -/
theorem units_mod (bits : ℕ) : F.units (bits % F.signBit) = F.units bits := by
  have hmantissa : F.mantissa (bits % F.signBit) = F.mantissa bits :=
    Nat.mod_mod_of_dvd _ (signBit_eq (F := F) ▸ Nat.dvd_mul_left _ _)
  have hexponent : F.exponent (bits % F.signBit) = F.exponent bits := by
    unfold exponent
    rw [signBit_eq, Nat.mul_comm, Nat.mod_mul_right_div_self, Nat.mod_mod]
  unfold units
  rw [hmantissa, hexponent]

theorem units_normal (hleading : 2 ^ F.mantissaBits ≤ n) (hn : n < 2 ^ (F.mantissaBits + 1))
    (he : e + 1 < 2 ^ F.exponentBits) : F.units (e * 2 ^ F.mantissaBits + n) = n * 2 ^ e := by
  obtain ⟨m, rfl⟩ := Nat.exists_eq_add_of_le hleading
  have hm : m < 2 ^ F.mantissaBits := by
    rw [Nat.pow_succ] at hn
    omega
  have hbits : e * 2 ^ F.mantissaBits + (2 ^ F.mantissaBits + m) =
      (e + 1) * 2 ^ F.mantissaBits + m := by ring
  have hexponent : F.exponent ((e + 1) * 2 ^ F.mantissaBits + m) = e + 1 := by
    unfold exponent
    rw [block_div hm, Nat.mod_eq_of_lt he]
  rw [hbits, units, hexponent, if_neg (Nat.succ_ne_zero e), Nat.add_sub_cancel, mantissa,
    block_mod hm]

theorem units_subnormal (hn : n < 2 ^ F.mantissaBits) : F.units n = n := by
  unfold units exponent mantissa
  rw [Nat.div_eq_of_lt hn, Nat.zero_mod, if_pos rfl, Nat.mod_eq_of_lt hn]

theorem units_eq_zero_iff : F.units bits = 0 ↔ bits % F.signBit = 0 := by
  rw [← units_mod]
  have hlt := Nat.mod_lt bits (signBit_pos (F := F))
  generalize bits % F.signBit = magnitude at *
  rw [signBit_eq] at hlt
  have hsplit := Nat.div_add_mod' magnitude (2 ^ F.mantissaBits)
  have hleading : 0 < 2 ^ F.mantissaBits := Nat.pow_pos (by decide)
  have hexponent : F.exponent magnitude = magnitude / 2 ^ F.mantissaBits :=
    Nat.mod_eq_of_lt ((Nat.div_lt_iff_lt_mul hleading).mpr hlt)
  unfold units mantissa
  rw [hexponent]
  constructor
  · intro hunits
    split at hunits
    next hzero => rw [hzero, Nat.zero_mul, hunits] at hsplit; exact hsplit.symm
    next => exact absurd hunits (by positivity)
  · rintro rfl
    simp

theorem units_representable (h : F.Finite bits) : F.Representable (F.units bits) := by
  have hpos : 0 < 2 ^ F.mantissaBits := Nat.pow_pos (by decide)
  rw [← units_mod]
  unfold Finite infinity at h
  generalize bits % F.signBit = magnitude at *
  have hexponent : magnitude / 2 ^ F.mantissaBits < 2 ^ F.exponentBits - 1 :=
    (Nat.div_lt_iff_lt_mul hpos).mpr h
  have hmantissa : F.mantissa magnitude < 2 ^ F.mantissaBits := Nat.mod_lt _ hpos
  have hfield : F.exponent magnitude ≤ 2 ^ F.exponentBits - 2 := by
    unfold exponent
    rw [Nat.mod_eq_of_lt (hexponent.trans_le (Nat.sub_le _ 1))]
    exact Nat.le_sub_one_of_lt hexponent
  unfold units Representable
  rw [Nat.pow_succ]
  split
  next => exact ⟨F.mantissa magnitude, by omega, 0, Nat.zero_le _, (Nat.mul_one _).symm⟩
  next => exact ⟨2 ^ F.mantissaBits + F.mantissa magnitude, by omega, _, by omega, rfl⟩

/-- What is a magnitude already is not rounded. -/
theorem round_natCast (h : F.Representable u) :
    F.units (F.round u) = u ∧ F.round u < F.infinity := by
  obtain ⟨n, hn, j, hj, rfl⟩ := h
  have hexponents : 2 ^ 2 ≤ 2 ^ F.exponentBits := Nat.pow_le_pow_right (by decide) F.two_le
  set e := Nat.log 2 (n * 2 ^ j) - F.mantissaBits with he
  have hej : e ≤ j := by
    rcases Nat.eq_zero_or_pos n with rfl | hpos
    · simp [he]
    · have hlog : Nat.log 2 (n * 2 ^ j) < F.mantissaBits + 1 + j := by
        refine Nat.log_lt_of_lt_pow (by positivity) ?_
        rw [Nat.pow_add]
        exact Nat.mul_lt_mul_of_pos_right hn (Nat.pow_pos (by decide))
      omega
  -- the significand, cut to the length of the format
  obtain ⟨v, hv⟩ : ∃ v, n * 2 ^ j = v * 2 ^ e :=
    ⟨n * 2 ^ (j - e), by rw [Nat.mul_assoc, ← Nat.pow_add, Nat.sub_add_cancel hej]⟩
  have hround : F.round (n * 2 ^ j : ℕ) = min F.infinity (e * 2 ^ F.mantissaBits + v) := by
    have hdiv : ((n * 2 ^ j : ℕ) : ℚ) / 2 ^ e = v := by
      rw [hv]
      push_cast
      exact mul_div_cancel_right₀ _ (by positivity)
    unfold round
    dsimp only
    rw [Nat.floor_natCast, ← he, hdiv, nearest_natCast]
  have hshort : v < 2 ^ (F.mantissaBits + 1) := by
    have hlt := Nat.lt_pow_succ_log_self (b := 2) (by decide) (n * 2 ^ j)
    have hle : 2 ^ (Nat.log 2 (n * 2 ^ j)).succ ≤ 2 ^ (F.mantissaBits + 1 + e) :=
      Nat.pow_le_pow_right (by decide) (by omega)
    rw [Nat.pow_add _ (F.mantissaBits + 1) e] at hle
    rw [hv] at hlt hle
    exact Nat.lt_of_mul_lt_mul_right (hlt.trans_le hle)
  have hlt : e * 2 ^ F.mantissaBits + v < F.infinity := by
    have htop : (e + 2) * 2 ^ F.mantissaBits ≤ F.infinity :=
      Nat.mul_le_mul_right _ (by omega)
    rw [Nat.pow_succ] at hshort
    rw [Nat.add_mul] at htop
    omega
  rw [hround, min_eq_right hlt.le]
  refine ⟨?_, hlt⟩
  rw [hv]
  rcases Nat.lt_or_ge v (2 ^ F.mantissaBits) with hsub | hnormal
  · -- a short significand stands at the smallest exponent
    have hzero : e = 0 := by
      by_contra hpos
      have hlog : Nat.log 2 (n * 2 ^ j) = F.mantissaBits + e := by omega
      have hne : n * 2 ^ j ≠ 0 := by
        rintro hnull
        rw [hnull, Nat.log_zero_right] at hlog
        omega
      have hle := Nat.pow_log_le_self 2 hne
      rw [hlog, hv, Nat.pow_add] at hle
      exact absurd (Nat.le_of_mul_le_mul_right hle (Nat.pow_pos (by decide))) (by omega)
    rw [hzero, Nat.zero_mul, Nat.zero_add, units_subnormal hsub, Nat.pow_zero, Nat.mul_one]
  · exact units_normal hnormal hshort (by omega)

theorem Finite.not_isNaN (h : F.Finite bits) : ¬ F.IsNaN bits := Nat.lt_asymm h

section Signs

variable {negative : Prop} [Decidable negative] (hbits : bits < F.signBit)

include hbits

theorem withSign_mod : F.withSign negative bits % F.signBit = bits := by
  unfold withSign
  split
  · rw [Nat.add_mod_left, Nat.mod_eq_of_lt hbits]
  · exact Nat.mod_eq_of_lt hbits

@[simp] theorem negative_withSign : F.Negative (F.withSign negative bits) ↔ negative := by
  unfold Negative withSign
  split
  next h => simp [h, Nat.add_div_left _ signBit_pos, Nat.div_eq_of_lt hbits]
  next h => simp [h, Nat.div_eq_of_lt hbits]

theorem units_withSign : F.units (F.withSign negative bits) = F.units bits := by
  rw [← units_mod, withSign_mod hbits]

theorem value_withSign :
    F.value (F.withSign negative bits) =
      if negative then -(F.units bits / F.one : ℚ) else F.units bits / F.one := by
  unfold value
  simp only [negative_withSign hbits, units_withSign hbits]

end Signs

/-- The sign of one format, put on the bits of another. -/
theorem withSign_negative (G : BinaryFormat) (x : ℕ) :
    F.withSign (G.Negative x) bits = x / G.signBit % 2 * F.signBit + bits := by
  rcases Nat.mod_two_eq_zero_or_one (x / G.signBit) with hpos | hneg
  · have hpositive : ¬ G.Negative x := by
      rw [Negative, hpos]
      exact Nat.zero_ne_one
    rw [withSign, if_neg hpositive, hpos, Nat.zero_mul, Nat.zero_add]
  · have hnegative : G.Negative x := hneg
    rw [withSign, if_pos hnegative, hneg, Nat.one_mul]

theorem finite_withSign {negative : Prop} [Decidable negative] (h : bits < F.infinity) :
    F.Finite (F.withSign negative bits) := by
  unfold Finite
  rwa [withSign_mod (h.trans infinity_lt_signBit)]

end Units

/-! ## Exact operations -/

section Exact

variable {F : BinaryFormat} {nan : ℕ → ℕ → ℕ} {a b u : ℕ}

/-- A product that is a magnitude is not rounded. -/
theorem mul_exact (ha : F.Finite a) (hb : F.Finite b) (hu : F.Representable u)
    (hproduct : F.units a * F.units b = u * F.one) :
    F.Finite (F.mul nan a b) ∧ F.units (F.mul nan a b) = u ∧
      F.value (F.mul nan a b) = F.value a * F.value b := by
  obtain ⟨hunits, hlt⟩ := round_natCast hu
  have hone : (F.one : ℚ) ≠ 0 := Nat.cast_ne_zero.mpr one_pos.ne'
  have hcast : ((F.units a * F.units b : ℕ) / F.one : ℚ) = u := by
    rw [hproduct]
    push_cast
    exact mul_div_cancel_right₀ _ hone
  have hmagnitude : (F.units a / F.one : ℚ) * (F.units b / F.one) = u / F.one := by
    rw [div_mul_div_comm, ← Nat.cast_mul, ← div_div, hcast]
  unfold mul
  dsimp only
  rw [if_neg (not_or.mpr ⟨ha.not_isNaN, hb.not_isNaN⟩), if_pos ⟨ha, hb⟩, hcast]
  refine ⟨finite_withSign hlt, ?_, ?_⟩
  · rw [units_withSign (hlt.trans infinity_lt_signBit), hunits]
  rw [value_withSign (hlt.trans infinity_lt_signBit), hunits]
  unfold value
  dsimp only
  by_cases hna : F.Negative a <;> by_cases hnb : F.Negative b <;>
    simp [hna, hnb, ← hmagnitude]

/-- So is a quotient. -/
theorem div_exact (ha : F.Finite a) (hb : F.Finite b) (hb0 : F.units b ≠ 0)
    (hu : F.Representable u) (hquotient : F.units a * F.one = u * F.units b) :
    F.Finite (F.div nan a b) ∧ F.value (F.div nan a b) = F.value a / F.value b := by
  obtain ⟨hunits, hlt⟩ := round_natCast hu
  have hone : (F.one : ℚ) ≠ 0 := Nat.cast_ne_zero.mpr one_pos.ne'
  have hb' : (F.units b : ℚ) ≠ 0 := Nat.cast_ne_zero.mpr hb0
  have hcast : ((F.units a * F.one : ℕ) / F.units b : ℚ) = u := by
    rw [hquotient]
    push_cast
    exact mul_div_cancel_right₀ _ hb'
  have hmagnitude : (F.units a / F.one : ℚ) / (F.units b / F.one) = u / F.one := by
    rw [← hcast]
    push_cast
    field_simp
  unfold div
  dsimp only
  rw [if_neg (not_or.mpr ⟨ha.not_isNaN, hb.not_isNaN⟩), if_pos ha, if_pos hb, if_pos hb0, hcast]
  refine ⟨finite_withSign hlt, ?_⟩
  rw [value_withSign (hlt.trans infinity_lt_signBit), hunits]
  unfold value
  dsimp only
  by_cases hna : F.Negative a <;> by_cases hnb : F.Negative b <;>
    simp [hna, hnb, ← hmagnitude, neg_div, div_neg]

/-- An integer that is a magnitude is not rounded. -/
theorem ofInt_exact {n : ℕ} (hu : F.Representable (n * F.one)) :
    F.Finite (F.ofInt n) ∧ F.units (F.ofInt n) = n * F.one ∧ F.value (F.ofInt n) = n := by
  obtain ⟨hunits, hlt⟩ := round_natCast hu
  have hone : (F.one : ℚ) ≠ 0 := Nat.cast_ne_zero.mpr one_pos.ne'
  have hnonneg : ¬ (n : ℤ) < 0 := by omega
  have hbits : F.ofInt n = F.round (n * F.one : ℕ) := by
    unfold ofInt withSign
    rw [if_neg hnonneg, Int.natAbs_natCast]
  rw [hbits]
  have hsign : ¬ F.Negative (F.round (n * F.one : ℕ)) := by
    unfold Negative
    rw [Nat.div_eq_of_lt (hlt.trans infinity_lt_signBit)]
    decide
  refine ⟨?_, hunits, ?_⟩
  · unfold Finite
    rwa [Nat.mod_eq_of_lt (hlt.trans infinity_lt_signBit)]
  · unfold value
    dsimp only
    rw [if_neg hsign, hunits]
    push_cast
    exact mul_div_cancel_right₀ _ hone

/-- What is above zero. -/
theorem lt_zero_iff (h : F.Finite a) : F.lt 0 a = true ↔ 0 < F.value a := by
  have hzero : F.key 0 = 0 := by simp [key, Negative]
  have hfinite : F.Finite 0 := by
    have hexponents : 2 ^ 2 ≤ 2 ^ F.exponentBits := Nat.pow_le_pow_right (by decide) F.two_le
    unfold Finite infinity
    rw [Nat.zero_mod]
    exact Nat.mul_pos (by omega) (Nat.pow_pos (by decide))
  have hone : (0 : ℚ) < F.one := Nat.cast_pos.mpr one_pos
  have hunits : 0 < F.units a ↔ 0 < a % F.signBit := by
    rw [Nat.pos_iff_ne_zero, Nat.pos_iff_ne_zero, ne_eq, units_eq_zero_iff]
  unfold lt
  rw [decide_eq_true_iff, hzero]
  simp only [hfinite.not_isNaN, h.not_isNaN, not_false_eq_true, true_and]
  unfold key value
  dsimp only
  split
  next =>
    have hle : (0 : ℚ) ≤ F.units a / F.one := by positivity
    constructor
    · intro hlt
      omega
    · intro hlt
      linarith
  next =>
    rw [div_pos_iff_of_pos_right hone, Nat.cast_pos (α := ℚ), hunits]
    exact Nat.cast_pos

@[simp] theorem lt_self (a : ℕ) : F.lt a a = false := by simp [lt]

end Exact

end BinaryFormat

end Arcint.Foundation
