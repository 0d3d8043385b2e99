import Arcint.Text.Utf8
import Mathlib.Tactic.SplitIfs

/-! # Valid texts are encoded scalar values

The bytes that one pass of `is_valid` accepts are the encoding of one Unicode scalar value, and
every scalar value is accepted: overlong forms, surrogates and what lies beyond the last code
point are what the passes refuse, and nothing else.
-/

namespace Arcint.Text.Utf8

open Foundation

theorem forall_byte {P : UInt8 → Prop} (h : ∀ n < 256, P (UInt8.ofNat n)) (b : UInt8) : P b := by
  have hb := h b.toNat b.toNat_lt
  rwa [UInt8.ofNat_toNat] at hb

theorem isContinuation_iff (b : UInt8) :
    isContinuation b = true ↔ 128 ≤ b.toNat ∧ b.toNat < 192 := by
  revert b
  apply forall_byte
  decide +kernel

theorem sequenceLength_eq (b : UInt8) :
    sequenceLength b =
      if b.toNat < 192 then 1
      else if b.toNat < 224 then 2
      else if b.toNat < 240 then 3
      else if b.toNat < 248 then 4
      else 1 := by
  revert b
  apply forall_byte
  decide +kernel

section Table

variable {a b c d : UInt8}

theorem starts_iff :
    (0xF8 ≤ a || isContinuation a) = false ↔ a.toNat < 248 ∧ ¬(128 ≤ a.toNat ∧ a.toNat < 192) := by
  rw [Bool.or_eq_false_iff, decide_eq_false_iff_not, ← Bool.not_eq_true, isContinuation_iff,
    UInt8.le_iff_toNat_le]
  exact and_congr_left' Nat.not_le

/-- A code point of one byte. -/
theorem codePoint_one : CodePoint a [] ↔ a.toNat < 128 := by
  constructor
  · rintro ⟨hstarts, hlength, -, -⟩
    rw [starts_iff] at hstarts
    rw [sequenceLength_eq] at hlength
    simp only [List.length_nil] at hlength
    split_ifs at hlength <;> omega
  · intro ha
    have hlength : sequenceLength a = 1 := by
      rw [sequenceLength_eq, if_pos (by omega)]
    refine ⟨starts_iff.mpr (by omega), hlength.symm, by simp, ?_⟩
    rw [hlength]
    rfl

theorem rejected_two : rejected 2 a b = false ↔ 0xC2 ≤ a.toNat := by
  simp [rejected, UInt8.lt_iff_toNat_lt]

theorem rejected_three :
    rejected 3 a b = false ↔
      (a.toNat = 0xE0 → 0xA0 ≤ b.toNat) ∧ (a.toNat = 0xED → b.toNat < 0xA0) := by
  simp [rejected, UInt8.lt_iff_toNat_lt, UInt8.le_iff_toNat_le, ← UInt8.toNat_inj]

theorem rejected_four :
    rejected 4 a b = false ↔
      (a.toNat = 0xF0 → 0x90 ≤ b.toNat) ∧ (a.toNat = 0xF4 → b.toNat < 0x90) ∧
        a.toNat ≤ 0xF4 := by
  simp [rejected, UInt8.lt_iff_toNat_lt, UInt8.le_iff_toNat_le, ← UInt8.toNat_inj, and_assoc]

/-- A code point of two bytes. -/
theorem codePoint_two :
    CodePoint a [b] ↔ 0xC2 ≤ a.toNat ∧ a.toNat < 0xE0 ∧ 128 ≤ b.toNat ∧ b.toNat < 192 := by
  constructor
  · rintro ⟨hstarts, hlength, hcontinues, hadmitted⟩
    rw [← hlength] at hadmitted
    have hlead := rejected_two.mp hadmitted
    have hb := (isContinuation_iff b).mp (hcontinues b List.mem_cons_self)
    rw [sequenceLength_eq] at hlength
    simp only [List.length_cons, List.length_nil] at hlength
    split_ifs at hlength <;> omega
  · rintro ⟨hlow, hhigh, hb⟩
    have hlength : sequenceLength a = 2 := by
      rw [sequenceLength_eq, if_neg (by omega), if_pos (by omega)]
    refine ⟨starts_iff.mpr (by omega), hlength.symm, ?_, ?_⟩
    · simpa [isContinuation_iff] using hb
    · rw [hlength]
      exact rejected_two.mpr hlow

/-- A code point of three bytes. -/
theorem codePoint_three :
    CodePoint a [b, c] ↔ (0xE0 ≤ a.toNat ∧ a.toNat < 0xF0) ∧
      (128 ≤ b.toNat ∧ b.toNat < 192) ∧ (128 ≤ c.toNat ∧ c.toNat < 192) ∧
        (a.toNat = 0xE0 → 0xA0 ≤ b.toNat) ∧ (a.toNat = 0xED → b.toNat < 0xA0) := by
  constructor
  · rintro ⟨hstarts, hlength, hcontinues, hadmitted⟩
    rw [← hlength] at hadmitted
    have hlead := (@rejected_three a b).mp hadmitted
    have hb := (isContinuation_iff b).mp (hcontinues b (by simp))
    have hc := (isContinuation_iff c).mp (hcontinues c (by simp))
    rw [sequenceLength_eq] at hlength
    simp only [List.length_cons, List.length_nil] at hlength
    split_ifs at hlength <;> omega
  · rintro ⟨ha, hb, hc, hadmitted⟩
    have hlength : sequenceLength a = 3 := by
      rw [sequenceLength_eq, if_neg (by omega), if_neg (by omega), if_pos (by omega)]
    refine ⟨starts_iff.mpr (by omega), hlength.symm, ?_, ?_⟩
    · simpa [isContinuation_iff] using ⟨hb, hc⟩
    · rw [hlength]
      exact rejected_three.mpr hadmitted

/-- A code point of four bytes. -/
theorem codePoint_four :
    CodePoint a [b, c, d] ↔ (0xF0 ≤ a.toNat ∧ a.toNat ≤ 0xF4) ∧
      (128 ≤ b.toNat ∧ b.toNat < 192) ∧ (128 ≤ c.toNat ∧ c.toNat < 192) ∧
        (128 ≤ d.toNat ∧ d.toNat < 192) ∧
          (a.toNat = 0xF0 → 0x90 ≤ b.toNat) ∧ (a.toNat = 0xF4 → b.toNat < 0x90) := by
  constructor
  · rintro ⟨hstarts, hlength, hcontinues, hadmitted⟩
    rw [← hlength] at hadmitted
    have hlead := (@rejected_four a b).mp hadmitted
    have hb := (isContinuation_iff b).mp (hcontinues b (by simp))
    have hc := (isContinuation_iff c).mp (hcontinues c (by simp))
    have hd := (isContinuation_iff d).mp (hcontinues d (by simp))
    rw [sequenceLength_eq] at hlength
    simp only [List.length_cons, List.length_nil] at hlength
    split_ifs at hlength <;> omega
  · rintro ⟨ha, hb, hc, hd, hadmitted⟩
    have hlength : sequenceLength a = 4 := by
      rw [sequenceLength_eq, if_neg (by omega), if_neg (by omega), if_neg (by omega),
        if_pos (by omega)]
    refine ⟨starts_iff.mpr (by omega), hlength.symm, ?_, ?_⟩
    · simpa [isContinuation_iff] using ⟨hb, hc, hd⟩
    · rw [hlength]
      exact rejected_four.mpr ⟨hadmitted.1, hadmitted.2, ha.2⟩

end Table

/-! ## Scalar values -/

section Scalars

theorem exists_char {v : ℕ} (h : v.isValidChar) : ∃ c : Char, c.val.toNat = v := by
  refine ⟨Char.ofNatAux v h, ?_⟩
  rfl

/-- The encoding of a scalar value, by its size. -/
theorem utf8EncodeChar_eq (c : Char) :
    String.utf8EncodeChar c =
      let v := c.val.toNat
      if v < 0x80 then [UInt8.ofNat v]
      else if v < 0x800 then [UInt8.ofNat (v / 64 + 0xC0), UInt8.ofNat (v % 64 + 0x80)]
      else if v < 0x10000 then
        [UInt8.ofNat (v / 4096 + 0xE0), UInt8.ofNat (v / 64 % 64 + 0x80),
          UInt8.ofNat (v % 64 + 0x80)]
      else
        [UInt8.ofNat (v / 262144 + 0xF0), UInt8.ofNat (v / 4096 % 64 + 0x80),
          UInt8.ofNat (v / 64 % 64 + 0x80), UInt8.ofNat (v % 64 + 0x80)] := by
  have hmax : c.val.toNat < 0x110000 := by
    rcases c.valid with h | h <;> omega
  unfold String.utf8EncodeChar
  dsimp only
  generalize c.val.toNat = v at hmax
  have hsizes : (v ≤ 0x7F ↔ v < 0x80) ∧ (v ≤ 0x7FF ↔ v < 0x800) ∧ (v ≤ 0xFFFF ↔ v < 0x10000) := by
    omega
  simp only [hsizes]
  split_ifs
  · rfl
  · rw [Nat.mod_eq_of_lt (by omega : v / 64 < 32)]
  · rw [Nat.mod_eq_of_lt (by omega : v / 4096 < 16)]
  · rw [Nat.mod_eq_of_lt (by omega : v / 262144 < 8)]

theorem ofNat_eq {b : UInt8} {n : ℕ} (h : n = b.toNat) : UInt8.ofNat n = b := by
  rw [h, UInt8.ofNat_toNat]

/-- The bytes of a code point encode a scalar value. -/
theorem exists_char_of_codePoint {lead : UInt8} {rest : Bytes} (h : CodePoint lead rest) :
    ∃ c : Char, lead :: rest = String.utf8EncodeChar c := by
  match rest with
  | [] =>
      have ha := codePoint_one.mp h
      obtain ⟨char, hchar⟩ := @exists_char lead.toNat (.inl (by omega))
      refine ⟨char, ?_⟩
      rw [utf8EncodeChar_eq, hchar]
      dsimp only
      rw [if_pos ha, UInt8.ofNat_toNat]
  | [b] =>
      obtain ⟨hlow, hhigh, hb⟩ := codePoint_two.mp h
      obtain ⟨char, hchar⟩ :=
        @exists_char ((lead.toNat - 0xC0) * 64 + (b.toNat - 0x80)) (.inl (by omega))
      refine ⟨char, ?_⟩
      rw [utf8EncodeChar_eq, hchar]
      dsimp only
      rw [if_neg (by omega), if_pos (by omega), ofNat_eq (b := lead) (by omega),
        ofNat_eq (b := b) (by omega)]
  | [b, c] =>
      obtain ⟨ha, hb, hc, hlow, hsurrogate⟩ := codePoint_three.mp h
      obtain ⟨char, hchar⟩ := @exists_char
        ((lead.toNat - 0xE0) * 4096 + (b.toNat - 0x80) * 64 + (c.toNat - 0x80))
        (by unfold Nat.isValidChar; omega)
      refine ⟨char, ?_⟩
      rw [utf8EncodeChar_eq, hchar]
      dsimp only
      rw [if_neg (by omega), if_neg (by omega), if_pos (by omega),
        ofNat_eq (b := lead) (by omega), ofNat_eq (b := b) (by omega),
        ofNat_eq (b := c) (by omega)]
  | [b, c, d] =>
      obtain ⟨ha, hb, hc, hd, hlow, hhigh⟩ := codePoint_four.mp h
      obtain ⟨char, hchar⟩ := @exists_char
        ((lead.toNat - 0xF0) * 262144 + (b.toNat - 0x80) * 4096 + (c.toNat - 0x80) * 64 +
          (d.toNat - 0x80)) (by unfold Nat.isValidChar; omega)
      refine ⟨char, ?_⟩
      rw [utf8EncodeChar_eq, hchar]
      dsimp only
      rw [if_neg (by omega), if_neg (by omega), if_neg (by omega),
        ofNat_eq (b := lead) (by omega), ofNat_eq (b := b) (by omega),
        ofNat_eq (b := c) (by omega), ofNat_eq (b := d) (by omega)]
  | _ :: _ :: _ :: _ :: _ =>
      have hlength := h.length
      have hmax : sequenceLength lead ≤ 4 := sequenceLength_le lead
      simp only [List.length_cons] at hlength
      omega

/-- The encoding of a scalar value is a code point. -/
theorem codePoint_of_char {lead : UInt8} {rest : Bytes} {char : Char}
    (h : lead :: rest = String.utf8EncodeChar char) : CodePoint lead rest := by
  have hscalar : char.val.toNat < 0xD800 ∨ 0xDFFF < char.val.toNat ∧ char.val.toNat < 0x110000 :=
    char.valid
  rw [utf8EncodeChar_eq] at h
  dsimp only at h
  generalize char.val.toNat = v at h hscalar
  split_ifs at h
  all_goals
    obtain ⟨rfl, rfl⟩ := List.cons_eq_cons.mp h
  · rw [codePoint_one, UInt8.toNat_ofNat']
    omega
  · rw [codePoint_two, UInt8.toNat_ofNat', UInt8.toNat_ofNat']
    omega
  · rw [codePoint_three, UInt8.toNat_ofNat', UInt8.toNat_ofNat', UInt8.toNat_ofNat']
    omega
  · rw [codePoint_four, UInt8.toNat_ofNat', UInt8.toNat_ofNat', UInt8.toNat_ofNat',
      UInt8.toNat_ofNat']
    omega

/-- One pass of the check takes the encoding of one scalar value. -/
theorem word_iff {w : Bytes} : code.word w ↔ ∃ c : Char, w = String.utf8EncodeChar c := by
  constructor
  · rintro ⟨lead, rest, rfl, h⟩
    exact exists_char_of_codePoint h
  · rintro ⟨char, rfl⟩
    cases hencoded : String.utf8EncodeChar char with
    | nil =>
        have hpos := String.length_utf8EncodeChar char ▸ Char.utf8Size_pos char
        rw [hencoded] at hpos
        cases hpos
    | cons lead rest => exact ⟨lead, rest, rfl, codePoint_of_char hencoded.symm⟩

theorem valid_iff {s : Bytes} :
    Valid s ↔ ∃ chars : List Char, s = chars.flatMap String.utf8EncodeChar := by
  constructor
  · intro h
    induction h with
    | nil => exact ⟨[], rfl⟩
    | cons hword _ ih =>
        obtain ⟨char, rfl⟩ := word_iff.mp hword
        obtain ⟨chars, rfl⟩ := ih
        exact ⟨char :: chars, rfl⟩
  · rintro ⟨chars, rfl⟩
    induction chars with
    | nil => exact .nil
    | cons char chars ih => exact .cons (word_iff.mpr ⟨char, rfl⟩) ih

end Scalars

/-- A byte string is accepted exactly when it is the encoding of scalar values; a `Char` is a
number up to `0x10FFFF` that is no surrogate. -/
theorem isValid_iff_encoded (s : Bytes) :
    isValid s = true ↔ ∃ chars : List Char, s = chars.flatMap String.utf8EncodeChar :=
  isValid_iff.trans valid_iff

end Arcint.Text.Utf8
