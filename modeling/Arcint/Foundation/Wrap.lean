import Mathlib.Data.Int.Bitwise
import Mathlib.Data.Nat.Bitwise

/-! # Machine words in unbounded integers

A program without machine words masks an integer to its low bits and signs it again. The masked
value is the word, and the signed one its two's complement reading, whatever integer the word was
made of.
-/

namespace Arcint.Foundation

/-- The low bits, as Python's `x & ((1 << width) - 1)`. -/
def lowBits (width : Nat) (x : Int) : Int := Int.land x ((2 ^ width - 1 : Nat) : Int)

/-- The low bits, read with a sign. -/
def signed (width : Nat) (x : Int) : Int :=
  let low := lowBits width x
  if 2 ^ (width - 1) ≤ low then low - 2 ^ width else low

section Words

variable {width : Nat}

/-- What is cleared of the bits of a word is their complement. -/
theorem ldiff_mask (width m : Nat) :
    Nat.ldiff (2 ^ width - 1) m = 2 ^ width - (m % 2 ^ width + 1) := by
  apply Nat.eq_of_testBit_eq
  intro i
  rw [Nat.testBit_ldiff, Nat.testBit_two_pow_sub_one,
    Nat.testBit_two_pow_sub_succ (Nat.mod_lt _ (Nat.two_pow_pos width)), Nat.testBit_mod_two_pow]
  by_cases hi : i < width <;> simp [hi]

/-- Masking takes the remainder, of negative integers too. -/
theorem lowBits_eq (width : Nat) (x : Int) : lowBits width x = x % (2 ^ width : Nat) := by
  have hpos := Nat.two_pow_pos width
  cases x with
  | ofNat m =>
      change ((m &&& (2 ^ width - 1) : Nat) : Int) = ((m % 2 ^ width : Nat) : Int)
      rw [Nat.and_two_pow_sub_one_eq_mod]
  | negSucc m =>
      change ((Nat.ldiff (2 ^ width - 1) m : Nat) : Int) = Int.negSucc m % (2 ^ width : Nat)
      have hlt := Nat.mod_lt m hpos
      rw [ldiff_mask, Int.negSucc_emod _ (by exact_mod_cast hpos)]
      omega

/-- The masked integer is the word. -/
theorem lowBits_eq_toNat (width : Nat) (x : Int) :
    lowBits width x = ((BitVec.ofInt width x).toNat : Int) := by
  rw [lowBits_eq, BitVec.toNat_ofInt,
    Int.toNat_of_nonneg (Int.emod_nonneg _ (by exact_mod_cast (Nat.two_pow_pos width).ne'))]

/-- The signed integer is the two's complement reading of the word. -/
theorem signed_eq_toInt (hwidth : 0 < width) (x : Int) :
    signed width x = (BitVec.ofInt width x).toInt := by
  obtain ⟨half, rfl⟩ : ∃ half, width = half + 1 := ⟨width - 1, by omega⟩
  unfold signed
  rw [lowBits_eq_toNat, BitVec.toInt_eq_toNat_cond, Nat.add_sub_cancel]
  push_cast
  obtain ⟨word, hword⟩ : ∃ word, word = (BitVec.ofInt (half + 1) x).toNat := ⟨_, rfl⟩
  have hhalf : ((2 ^ half : Nat) : Int) = 2 ^ half := by push_cast; rfl
  rw [← hword, Nat.pow_succ, Int.pow_succ, ← hhalf]
  split <;> split <;> omega

/-- A word below the sign bit is its own reading. -/
theorem signed_eq_self {x : Int} (hnonneg : 0 ≤ x) (hlt : x < 2 ^ (width - 1)) :
    signed width x = x := by
  have hle : (2 : Int) ^ (width - 1) ≤ (2 ^ width : Nat) := by
    exact_mod_cast Nat.pow_le_pow_right (by decide) (Nat.sub_le width 1)
  have hlow : lowBits width x = x := by
    rw [lowBits_eq]
    exact Int.emod_eq_of_lt hnonneg (Int.lt_of_lt_of_le hlt hle)
  unfold signed
  dsimp only
  rw [hlow, if_neg (Int.not_le.mpr hlt)]

/-- Masked integers are mixed as words are. -/
theorem signed_xor (hwidth : 0 < width) (x y : Int) :
    signed width (Int.xor (lowBits width x) (lowBits width y)) =
      (BitVec.ofInt width x ^^^ BitVec.ofInt width y).toInt := by
  rw [signed_eq_toInt hwidth, lowBits_eq_toNat, lowBits_eq_toNat]
  change (BitVec.ofInt width
    (((BitVec.ofInt width x).toNat ^^^ (BitVec.ofInt width y).toNat : Nat) : Int)).toInt = _
  rw [BitVec.ofInt_natCast, ← BitVec.toNat_xor, BitVec.ofNat_toNat, BitVec.setWidth_eq]

end Words

end Arcint.Foundation
