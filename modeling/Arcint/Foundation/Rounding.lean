import Arcint.Foundation.Binary
import Mathlib.Algebra.Order.Floor.Semifield

/-! # Rounding to the nearest

The pattern behind the finite ones is read as the magnitude that would follow the greatest. With
it, rounding gives the nearest magnitude, and between two of them the one with the even pattern.
-/

namespace Arcint.Foundation

/-- Rounding a quotient by a power of two, from its whole part and its remainder. -/
theorem nearest_div (a s : ℕ) :
    nearest ((a : ℚ) / 2 ^ (s + 1)) =
      if 2 ^ s < a % 2 ^ (s + 1) ∨ a % 2 ^ (s + 1) = 2 ^ s ∧ a / 2 ^ (s + 1) % 2 = 1 then
        a / 2 ^ (s + 1) + 1
      else a / 2 ^ (s + 1) := by
  have hpos : (0 : ℚ) < 2 ^ s := by positivity
  have hfloor : ⌊(a : ℚ) / 2 ^ (s + 1)⌋₊ = a / 2 ^ (s + 1) := by
    exact_mod_cast Nat.floor_div_eq_div (K := ℚ) a (2 ^ (s + 1))
  have hsplit : ((a / 2 ^ (s + 1) : ℕ) * 2 ^ (s + 1) + (a % 2 ^ (s + 1) : ℕ) : ℚ) = a := by
    exact_mod_cast Nat.div_add_mod' a (2 ^ (s + 1))
  rw [nearest, hfloor]
  generalize a / 2 ^ (s + 1) = q at *
  generalize a % 2 ^ (s + 1) = r at *
  have hrest : (a : ℚ) / 2 ^ (s + 1) - q = r / 2 ^ s / 2 := by
    rw [← hsplit, pow_succ]
    field_simp
    ring
  have hlt : (r : ℚ) / 2 ^ s / 2 < 1 / 2 ↔ r < 2 ^ s := by
    rw [div_lt_div_iff_of_pos_right (by norm_num), div_lt_one hpos]
    exact_mod_cast Iff.rfl
  have heq : (r : ℚ) / 2 ^ s / 2 = 1 / 2 ↔ r = 2 ^ s := by
    rw [div_left_inj' (by norm_num), div_eq_one_iff_eq hpos.ne']
    exact_mod_cast Iff.rfl
  simp only [hrest, hlt, heq]
  split <;> split <;> omega

theorem nearest_div_mem (a s : ℕ) :
    a / 2 ^ (s + 1) ≤ nearest ((a : ℚ) / 2 ^ (s + 1)) ∧
      nearest ((a : ℚ) / 2 ^ (s + 1)) ≤ a / 2 ^ (s + 1) + 1 := by
  rw [nearest_div]
  split <;> omega

/-- What `nearest` answers is the whole number below or the one above, by the distance. -/
theorem nearest_cases (x : ℚ) :
    nearest x = ⌊x⌋₊ ∧ (x - ⌊x⌋₊ < 1 / 2 ∨ x - ⌊x⌋₊ = 1 / 2 ∧ ⌊x⌋₊ % 2 = 0) ∨
      nearest x = ⌊x⌋₊ + 1 ∧ (1 / 2 < x - ⌊x⌋₊ ∨ x - ⌊x⌋₊ = 1 / 2 ∧ ⌊x⌋₊ % 2 = 1) := by
  rw [nearest]
  split
  next h => exact .inl ⟨rfl, h⟩
  next h =>
    refine .inr ⟨rfl, ?_⟩
    rw [not_or, not_lt, not_and] at h
    rcases h.1.lt_or_eq with hlt | heq
    · exact .inl hlt
    · exact .inr ⟨heq.symm, Nat.mod_two_ne_zero.mp (h.2 heq.symm)⟩

namespace BinaryFormat

variable {F : BinaryFormat}

/-! ## Magnitudes in order -/

/-- A significand of full length or less, or one that carries into the exponent. -/
theorem units_eq {n e : ℕ} (hleading : e = 0 ∨ 2 ^ F.mantissaBits ≤ n)
    (hn : n ≤ 2 ^ (F.mantissaBits + 1)) (hle : e * 2 ^ F.mantissaBits + n ≤ F.infinity) :
    F.units (e * 2 ^ F.mantissaBits + n) = n * 2 ^ e := by
  have hfits : ∀ {e}, (e + 1) * 2 ^ F.mantissaBits ≤ F.infinity → e + 1 < 2 ^ F.exponentBits := by
    intro e h
    have hexponent := Nat.le_of_mul_le_mul_right h (Nat.pow_pos (by decide))
    have hpos : 0 < 2 ^ F.exponentBits := Nat.pow_pos (by decide)
    omega
  rcases Nat.lt_or_ge n (2 ^ F.mantissaBits) with hshort | hfull
  · obtain rfl := hleading.resolve_right (Nat.not_le.mpr hshort)
    rw [Nat.zero_mul, Nat.zero_add, units_subnormal hshort, Nat.pow_zero, Nat.mul_one]
  · rcases hn.lt_or_eq with hlt | rfl
    · exact units_normal hfull hlt (hfits (by rw [Nat.add_mul]; omega))
    · -- the carry: the next exponent, and no other bit
      have hcarry : e * 2 ^ F.mantissaBits + 2 ^ (F.mantissaBits + 1) =
          (e + 1) * 2 ^ F.mantissaBits + 2 ^ F.mantissaBits := by ring
      rw [hcarry] at hle ⊢
      rw [units_normal le_rfl (Nat.pow_lt_pow_succ (by decide))
        (hfits (by rw [Nat.add_mul _ 1]; omega))]
      ring

theorem units_lt_units_succ {b : ℕ} (hb : b < F.infinity) : F.units b < F.units (b + 1) := by
  obtain ⟨e, n, hleading, hn, rfl⟩ : ∃ e n, (e = 0 ∨ 2 ^ F.mantissaBits ≤ n) ∧
      n < 2 ^ (F.mantissaBits + 1) ∧ b = e * 2 ^ F.mantissaBits + n := by
    have hpos : 0 < 2 ^ F.mantissaBits := Nat.pow_pos (by decide)
    have hmod := Nat.mod_lt b hpos
    have hsplit := Nat.div_add_mod' b (2 ^ F.mantissaBits)
    rw [Nat.pow_succ]
    cases hexponent : b / 2 ^ F.mantissaBits with
    | zero =>
        rw [hexponent] at hsplit
        exact ⟨0, b % 2 ^ F.mantissaBits, .inl rfl, by omega, by omega⟩
    | succ e =>
        rw [hexponent, Nat.succ_mul] at hsplit
        exact ⟨e, 2 ^ F.mantissaBits + b % 2 ^ F.mantissaBits, .inr (Nat.le_add_right _ _),
          by omega, by omega⟩
  have hnext : e = 0 ∨ 2 ^ F.mantissaBits ≤ n + 1 := hleading.imp_right fun h => h.trans n.le_succ
  rw [Nat.add_assoc, units_eq hleading hn.le hb.le, units_eq hnext hn hb]
  exact Nat.mul_lt_mul_of_pos_right n.lt_succ_self (Nat.pow_pos (by decide))

theorem units_lt_units {b b' : ℕ} (hlt : b < b') (hle : b' ≤ F.infinity) :
    F.units b < F.units b' := by
  induction b', hlt using Nat.le_induction with
  | base => exact units_lt_units_succ hle
  | succ b' hlt ih => exact (ih (by omega)).trans (units_lt_units_succ hle)

theorem units_le_units {b b' : ℕ} (h : b ≤ b') (hle : b' ≤ F.infinity) :
    F.units b ≤ F.units b' := by
  rcases h.lt_or_eq with hlt | rfl
  · exact (units_lt_units hlt hle).le
  · exact le_rfl

/-! ## The nearest magnitude -/

/-- No magnitude is nearer, and one that is as near has an odd pattern. -/
def Nearest (F : BinaryFormat) (x : ℚ) (b : ℕ) : Prop :=
  b ≤ F.infinity ∧ ∀ b' ≤ F.infinity, b' ≠ b →
    |x - F.units b| < |x - F.units b'| ∨ |x - F.units b| = |x - F.units b'| ∧ b % 2 = 0

/-- The two magnitudes around a number decide. -/
theorem nearest_of_between {x : ℚ} {b : ℕ} (hb : b < F.infinity) (hlow : (F.units b : ℚ) ≤ x)
    (hhigh : x ≤ F.units (b + 1)) {p : ℕ}
    (hp : p = b ∧ (x - F.units b < F.units (b + 1) - x ∨
        x - F.units b = F.units (b + 1) - x ∧ b % 2 = 0) ∨
      p = b + 1 ∧ (F.units (b + 1) - x < x - F.units b ∨
        x - F.units b = F.units (b + 1) - x ∧ b % 2 = 1)) : F.Nearest x p := by
  have hbelow : ∀ {b'}, b' < b → |x - F.units b| < |x - F.units b'| := by
    intro b' hlt
    have hunits : (F.units b' : ℚ) < F.units b := Nat.cast_lt.mpr (units_lt_units hlt hb.le)
    rw [abs_of_nonneg (sub_nonneg.mpr hlow), abs_of_nonneg (by linarith)]
    linarith
  have habove : ∀ {b'}, b + 1 < b' → b' ≤ F.infinity →
      |x - F.units (b + 1)| < |x - F.units b'| := by
    intro b' hlt hle
    have hunits : (F.units (b + 1) : ℚ) < F.units b' := Nat.cast_lt.mpr (units_lt_units hlt hle)
    rw [abs_of_nonpos (sub_nonpos.mpr hhigh), abs_of_nonpos (by linarith)]
    linarith
  have hleft : |x - F.units b| = x - F.units b := abs_of_nonneg (sub_nonneg.mpr hlow)
  have hright : |x - F.units (b + 1)| = F.units (b + 1) - x := by
    rw [abs_of_nonpos (sub_nonpos.mpr hhigh), neg_sub]
  rcases hp with ⟨rfl, hcloser⟩ | ⟨rfl, hcloser⟩
  · have hle : |x - F.units p| ≤ |x - F.units (p + 1)| := by
      rw [hleft, hright]
      exact hcloser.elim le_of_lt fun h => h.1.le
    refine ⟨hb.le, fun b' hb' hne => ?_⟩
    rcases Nat.lt_trichotomy b' (p + 1) with hlt | rfl | hgt
    · exact .inl (hbelow (by omega))
    · rw [hleft, hright]
      exact hcloser
    · exact .inl (hle.trans_lt (habove hgt hb'))
  · have hle : |x - F.units (b + 1)| ≤ |x - F.units b| := by
      rw [hleft, hright]
      exact hcloser.elim le_of_lt fun h => h.1.ge
    refine ⟨hb, fun b' hb' hne => ?_⟩
    rcases Nat.lt_trichotomy b' b with hlt | rfl | hgt
    · exact .inl (hle.trans_lt (hbelow hlt))
    · rw [hleft, hright]
      rcases hcloser with hlt | ⟨heq, hodd⟩
      · exact .inl hlt
      · exact .inr ⟨heq.symm, by omega⟩
    · exact .inl (habove (by omega) hb')

/-- What is too great for the greatest magnitude and the one that would follow. -/
theorem nearest_infinity {x : ℚ} (hx : F.units F.infinity ≤ x) : F.Nearest x F.infinity := by
  refine ⟨le_rfl, fun b hb hne => .inl ?_⟩
  have hunits : (F.units b : ℚ) < F.units F.infinity :=
    Nat.cast_lt.mpr (units_lt_units (lt_of_le_of_ne hb hne) le_rfl)
  rw [abs_of_nonneg (sub_nonneg.mpr hx), abs_of_nonneg (by linarith)]
  linarith

theorem units_infinity :
    F.units F.infinity = 2 ^ F.mantissaBits * 2 ^ (2 ^ F.exponentBits - 2) := by
  have hexponents : 2 ^ 2 ≤ 2 ^ F.exponentBits := Nat.pow_le_pow_right (by decide) F.two_le
  have hinfinity : F.infinity =
      (2 ^ F.exponentBits - 2) * 2 ^ F.mantissaBits + 2 ^ F.mantissaBits := by
    rw [infinity, ← Nat.succ_mul]
    congr 1
    omega
  have hunits := @units_eq F (2 ^ F.mantissaBits) (2 ^ F.exponentBits - 2) (.inr le_rfl)
    (Nat.pow_le_pow_right (by decide) (Nat.le_succ _)) hinfinity.ge
  rwa [← hinfinity] at hunits

/-- An exponent behind the finite ones has a significand of full length. -/
theorem units_infinity_le {n e : ℕ} (hleading : e = 0 ∨ 2 ^ F.mantissaBits ≤ n)
    (hshort : n < 2 ^ (F.mantissaBits + 1)) (hover : F.infinity ≤ e * 2 ^ F.mantissaBits + n) :
    F.units F.infinity ≤ n * 2 ^ e := by
  have hexponents : 2 ^ 2 ≤ 2 ^ F.exponentBits := Nat.pow_le_pow_right (by decide) F.two_le
  have hexponent : 2 ^ F.exponentBits - 2 ≤ e := by
    have hlt : (2 ^ F.exponentBits - 1) * 2 ^ F.mantissaBits < (e + 2) * 2 ^ F.mantissaBits := by
      rw [infinity] at hover
      rw [Nat.pow_succ] at hshort
      rw [Nat.add_mul]
      omega
    have hless := Nat.lt_of_mul_lt_mul_right hlt
    omega
  have hfull : 2 ^ F.mantissaBits ≤ n := hleading.resolve_left (by omega)
  rw [units_infinity]
  exact Nat.mul_le_mul hfull (Nat.pow_le_pow_right (by decide) hexponent)

/-- The exponent does not decide whether a pattern is even. -/
theorem add_mantissa_mod_two (hM : 0 < F.mantissaBits) (e n : ℕ) :
    (e * 2 ^ F.mantissaBits + n) % 2 = n % 2 := by
  obtain ⟨m, hm⟩ := Nat.exists_eq_succ_of_ne_zero hM.ne'
  rw [hm, Nat.pow_succ, ← Nat.mul_assoc, Nat.mul_add_mod_self_right]

section Round

variable (F) (x : ℚ)

theorem floor_scaled : ⌊x / 2 ^ (Nat.log 2 ⌊x⌋₊ - F.mantissaBits)⌋₊ =
    ⌊x⌋₊ / 2 ^ (Nat.log 2 ⌊x⌋₊ - F.mantissaBits) := by
  exact_mod_cast Nat.floor_div_natCast x (2 ^ (Nat.log 2 ⌊x⌋₊ - F.mantissaBits))

/-- The significand that is rounded is short enough. -/
theorem floor_scaled_lt : ⌊x / 2 ^ (Nat.log 2 ⌊x⌋₊ - F.mantissaBits)⌋₊ <
    2 ^ (F.mantissaBits + 1) := by
  rw [floor_scaled]
  apply Nat.div_lt_of_lt_mul
  rw [← Nat.pow_add]
  have hlt := Nat.lt_pow_succ_log_self (b := 2) (by decide) ⌊x⌋₊
  exact hlt.trans_le (Nat.pow_le_pow_right (by decide) (by omega))

/-- It is of full length, unless the exponent is the smallest. -/
theorem le_floor_scaled : Nat.log 2 ⌊x⌋₊ - F.mantissaBits = 0 ∨
    2 ^ F.mantissaBits ≤ ⌊x / 2 ^ (Nat.log 2 ⌊x⌋₊ - F.mantissaBits)⌋₊ := by
  rcases Nat.eq_zero_or_pos (Nat.log 2 ⌊x⌋₊ - F.mantissaBits) with hzero | hpos
  · exact .inl hzero
  · right
    have hne : ⌊x⌋₊ ≠ 0 := by
      intro hnull
      rw [hnull, Nat.log_zero_right] at hpos
      omega
    rw [floor_scaled, Nat.le_div_iff_mul_le (Nat.pow_pos (by decide)), ← Nat.pow_add]
    exact (Nat.pow_le_pow_right (by decide) (by omega)).trans (Nat.pow_log_le_self 2 hne)

end Round

theorem nearest_round (hM : 0 < F.mantissaBits) {x : ℚ} (hx : 0 ≤ x) :
    F.Nearest x (F.round x) := by
  have hround : F.round x = min F.infinity
      ((Nat.log 2 ⌊x⌋₊ - F.mantissaBits) * 2 ^ F.mantissaBits +
        nearest (x / 2 ^ (Nat.log 2 ⌊x⌋₊ - F.mantissaBits))) := rfl
  have hshort := F.floor_scaled_lt x
  have hleading := F.le_floor_scaled x
  rw [hround]
  generalize Nat.log 2 ⌊x⌋₊ - F.mantissaBits = e at *
  have hscale : (0 : ℚ) < 2 ^ e := by positivity
  have hfloor : (⌊x / 2 ^ e⌋₊ : ℚ) * 2 ^ e ≤ x :=
    (le_div_iff₀ hscale).mp (Nat.floor_le (by positivity))
  have habove : x < ((⌊x / 2 ^ e⌋₊ : ℚ) + 1) * 2 ^ e :=
    (div_lt_iff₀ hscale).mp (Nat.lt_floor_add_one _)
  have hcases := nearest_cases (x / 2 ^ e)
  generalize ⌊x / 2 ^ e⌋₊ = n at *
  rcases Nat.lt_or_ge (e * 2 ^ F.mantissaBits + n) F.infinity with hfinite | hover
  · have hlow : (F.units (e * 2 ^ F.mantissaBits + n) : ℚ) = n * 2 ^ e := by
      exact_mod_cast units_eq hleading hshort.le hfinite.le
    have hhigh : (F.units (e * 2 ^ F.mantissaBits + n + 1) : ℚ) = (n + 1) * 2 ^ e := by
      exact_mod_cast units_eq (hleading.imp_right fun h => h.trans n.le_succ) hshort hfinite
    have hparity := add_mantissa_mod_two hM e n
    have hbelow : x - n * 2 ^ e = (x / 2 ^ e - n) * 2 ^ e := by field_simp
    have hrest : (n + 1) * 2 ^ e - x = (1 - (x / 2 ^ e - n)) * 2 ^ e := by
      field_simp
      ring
    have hle : nearest (x / 2 ^ e) ≤ n + 1 := by omega
    rw [min_eq_right (by omega)]
    apply nearest_of_between hfinite (hlow ▸ hfloor) (hhigh ▸ habove.le)
    rw [hlow, hhigh, hbelow, hrest, hparity]
    rcases hcases with ⟨heq, hcloser⟩ | ⟨heq, hcloser⟩
    · refine .inl ⟨by rw [heq], hcloser.imp (fun hlt => ?_) fun htie => ⟨?_, htie.2⟩⟩
      · exact mul_lt_mul_of_pos_right (by linarith) hscale
      · rw [htie.1]
        norm_num
    · refine .inr ⟨by rw [heq, Nat.add_assoc], hcloser.imp (fun hlt => ?_) fun htie =>
        ⟨?_, htie.2⟩⟩
      · exact mul_lt_mul_of_pos_right (by linarith) hscale
      · rw [htie.1]
        norm_num
  · rw [min_eq_left (by omega)]
    apply nearest_infinity
    refine le_trans ?_ hfloor
    exact_mod_cast units_infinity_le hleading hshort hover

/-- No magnitude of the other sign is nearer either. -/
theorem Nearest.across {x : ℚ} {b b' : ℕ} (hx : 0 ≤ x) (h : F.Nearest x b) (hb' : b' ≤ F.infinity)
    (hne : b ≠ 0 ∨ b' ≠ 0) :
    |x - F.units b| < x + F.units b' ∨ |x - F.units b| = x + F.units b' ∧ b % 2 = 0 := by
  have hzero : F.units 0 = 0 := units_eq_zero_iff.mpr (Nat.zero_mod _)
  have hpositive : b' ≠ 0 → (0 : ℚ) < F.units b' := by
    intro hpos
    have hlt := units_lt_units (Nat.pos_of_ne_zero hpos) hb'
    exact_mod_cast Nat.pos_of_ne_zero (hzero ▸ hlt).ne'
  have horigin : |x - F.units 0| = x := by
    rw [hzero, Nat.cast_zero, sub_zero, abs_of_nonneg hx]
  by_cases hb : b = 0
  · left
    have hpos := hpositive (hne.resolve_left (not_not.mpr hb))
    rw [hb, horigin]
    linarith
  · have hcloser := h.2 0 (Nat.zero_le _) (Ne.symm hb)
    rw [horigin] at hcloser
    by_cases hnull : b' = 0
    · rw [hnull, hzero, Nat.cast_zero, add_zero]
      exact hcloser
    · left
      have hpos := hpositive hnull
      rcases hcloser with hlt | ⟨heq, -⟩ <;> linarith

/-- Numbers of one sign are apart by the difference of their magnitudes, others by the sum. -/
theorem abs_signed_sub (p q : Prop) [Decidable p] [Decidable q] (a b : ℚ) :
    |(if p then -a else a) - (if q then -b else b)| = if p ↔ q then |a - b| else |a + b| := by
  by_cases hp : p <;> by_cases hq : q <;> simp [hp, hq]
  · rw [← abs_neg]
    congr 1
    ring
  · rw [← abs_neg]
    congr 1
    ring

/-- With the sign of the number, the nearest magnitude is nearest among the numbers of either. -/
theorem Nearest.signed {x : ℚ} {b b' : ℕ} (hx : 0 ≤ x) (h : F.Nearest x b) (hb' : b' ≤ F.infinity)
    (p q : Prop) [Decidable p] [Decidable q]
    (hne : (if q then -(F.units b' : ℚ) else F.units b') ≠
      if p then -(F.units b : ℚ) else F.units b) :
    |(if p then -x else x) - (if p then -(F.units b : ℚ) else F.units b)| <
        |(if p then -x else x) - (if q then -(F.units b' : ℚ) else F.units b')| ∨
      |(if p then -x else x) - (if p then -(F.units b : ℚ) else F.units b)| =
        |(if p then -x else x) - (if q then -(F.units b' : ℚ) else F.units b')| ∧
          b % 2 = 0 := by
  rw [abs_signed_sub, abs_signed_sub, if_pos Iff.rfl]
  split
  next hsame =>
    have hdistinct : b' ≠ b := by
      rintro rfl
      exact hne (if_congr hsame.symm rfl rfl)
    exact h.2 b' hb' hdistinct
  next hacross =>
    have hdistinct : b ≠ 0 ∨ b' ≠ 0 := by
      by_contra hzeros
      rw [not_or, not_not, not_not] at hzeros
      have hzero : F.units 0 = 0 := units_eq_zero_iff.mpr (Nat.zero_mod _)
      rw [hzeros.1, hzeros.2, hzero] at hne
      simp at hne
    rw [abs_of_nonneg (add_nonneg hx (Nat.cast_nonneg _))]
    exact h.across hx hb' hdistinct

/-- From the midpoint above the greatest magnitude on, there is none. -/
theorem Nearest.eq_infinity_iff (hM : 0 < F.mantissaBits) {x : ℚ} {b : ℕ} (h : F.Nearest x b) :
    b = F.infinity ↔ (F.units (F.infinity - 1) + F.units F.infinity) / 2 ≤ x := by
  have heven : F.infinity % 2 = 0 := add_mantissa_mod_two hM _ 0
  have hpos : 0 < F.infinity := by
    have hexponents : 2 ^ 2 ≤ 2 ^ F.exponentBits := Nat.pow_le_pow_right (by decide) F.two_le
    exact Nat.mul_pos (by omega) (Nat.pow_pos (by decide))
  have hgap : (F.units (F.infinity - 1) : ℚ) < F.units F.infinity :=
    Nat.cast_lt.mpr (units_lt_units (by omega) le_rfl)
  constructor
  · rintro rfl
    by_contra hlow
    rw [not_le] at hlow
    have hfarther : |x - F.units (F.infinity - 1)| < |x - F.units F.infinity| := by
      rw [abs_lt, abs_of_nonpos (by linarith)]
      constructor <;> linarith
    rcases h.2 (F.infinity - 1) (Nat.sub_le _ 1) (by omega) with hlt | ⟨heq, -⟩
    · exact lt_asymm hlt hfarther
    · exact hfarther.ne' heq
  · intro hhigh
    by_contra hne
    have hb : b ≤ F.infinity - 1 := by
      have hle := h.1
      omega
    have hunits : (F.units b : ℚ) ≤ F.units (F.infinity - 1) :=
      Nat.cast_le.mpr (units_le_units hb (Nat.sub_le _ 1))
    have hleft : |x - F.units b| = x - F.units b := abs_of_nonneg (by linarith)
    have hright : |x - F.units F.infinity| ≤ x - F.units (F.infinity - 1) := by
      rw [abs_le]
      constructor <;> linarith
    rcases h.2 F.infinity le_rfl (Ne.symm hne) with hlt | ⟨heq, hparity⟩
    · linarith
    · -- as near as the greatest, so it is the greatest, whose pattern is odd
      have hsame : F.units b = F.units (F.infinity - 1) := by
        have hge : (F.units (F.infinity - 1) : ℚ) ≤ F.units b := by linarith
        exact le_antisymm (Nat.cast_le.mp hunits) (Nat.cast_le.mp hge)
      have hgreatest : b = F.infinity - 1 := by
        by_contra hless
        exact (units_lt_units (lt_of_le_of_ne hb hless) (Nat.sub_le _ 1)).ne hsame
      omega

end BinaryFormat

end Arcint.Foundation
