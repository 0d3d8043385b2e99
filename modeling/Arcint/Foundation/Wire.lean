import Arcint.Foundation.Checks
import Mathlib.Algebra.Ring.Nat

/-! # Wire formats

Readers that take a value off the front of a byte string. A reader is exact for
an encoder when it reads back what was written, whatever follows, and accepts
nothing else.
-/

namespace Arcint.Foundation

universe u

/-! ## Little-endian words -/

/-- The `k` low bytes of a number, lowest first. -/
def leBytes : Nat → Nat → List UInt8
  | 0, _ => []
  | k + 1, n => UInt8.ofNat n :: leBytes k (n / 256)

/-- The number whose bytes these are, lowest first. -/
def leNat : List UInt8 → Nat
  | [] => 0
  | b :: bs => b.toNat + 256 * leNat bs

@[simp] theorem leBytes_length (k n : Nat) : (leBytes k n).length = k := by
  induction k generalizing n with
  | zero => rfl
  | succ k ih => simp [leBytes, ih]

theorem leNat_lt (bs : List UInt8) : leNat bs < 256 ^ bs.length := by
  induction bs with
  | nil => exact Nat.zero_lt_one
  | cons b bs ih =>
      have hbyte : b.toNat < 256 := b.toNat_lt
      have hrest : 256 * (leNat bs + 1) ≤ 256 * 256 ^ bs.length := Nat.mul_le_mul_left _ ih
      rw [List.length_cons, Nat.pow_succ', leNat]
      omega

theorem leNat_leBytes {k n : Nat} (hn : n < 256 ^ k) : leNat (leBytes k n) = n := by
  induction k generalizing n with
  | zero =>
      rw [Nat.pow_zero] at hn
      exact (Nat.lt_one_iff.mp hn).symm
  | succ k ih =>
      have hlow : (UInt8.ofNat n).toNat = n % 256 := UInt8.toNat_ofNat'
      have hhigh : n / 256 < 256 ^ k := by
        apply Nat.div_lt_of_lt_mul
        rw [← Nat.pow_succ']
        exact hn
      rw [leBytes, leNat, ih hhigh, hlow]
      exact Nat.mod_add_div n 256

theorem leBytes_leNat (bs : List UInt8) : leBytes bs.length (leNat bs) = bs := by
  induction bs with
  | nil => rfl
  | cons b bs ih =>
      have hbyte : b.toNat < 256 := b.toNat_lt
      have hlow : UInt8.ofNat (b.toNat + 256 * leNat bs) = b := by
        apply UInt8.toNat_inj.mp
        rw [UInt8.toNat_ofNat']
        omega
      have hhigh : (b.toNat + 256 * leNat bs) / 256 = leNat bs := by omega
      rw [List.length_cons, leNat, leBytes, hlow, hhigh, ih]

/-- Putting a word together from its bytes by shifts. -/
theorem or_shifts (b₀ b₁ b₂ b₃ : UInt8) :
    (b₃.toUInt32 <<< 24) ||| (b₂.toUInt32 <<< 16) ||| (b₁.toUInt32 <<< 8) ||| b₀.toUInt32 =
      UInt32.ofNat (leNat [b₀, b₁, b₂, b₃]) := by
  have h₀ : b₀.toNat < 2 ^ 8 := b₀.toNat_lt
  have h₁ : b₁.toNat < 2 ^ 8 := b₁.toNat_lt
  have h₂ : b₂.toNat < 2 ^ 8 := b₂.toNat_lt
  have h₃ : b₃.toNat < 2 ^ 8 := b₃.toNat_lt
  have hshift : ∀ {n k : Nat}, n < 2 ^ 8 → k ≤ 24 → n <<< k % 2 ^ 32 = n <<< k := by
    intro n k hn hk
    apply Nat.mod_eq_of_lt
    rw [Nat.shiftLeft_eq]
    calc n * 2 ^ k < 2 ^ 8 * 2 ^ k := Nat.mul_lt_mul_of_pos_right hn (Nat.two_pow_pos k)
      _ ≤ 2 ^ 8 * 2 ^ 24 := Nat.mul_le_mul_left _ (Nat.pow_le_pow_right (by decide) hk)
  apply UInt32.toNat_inj.mp
  have hor : (b₃.toNat <<< 24 ||| b₂.toNat <<< 16 ||| b₁.toNat <<< 8 ||| b₀.toNat) =
      leNat [b₀, b₁, b₂, b₃] := by
    rw [Nat.or_assoc, Nat.or_assoc, ← Nat.shiftLeft_add_eq_or_of_lt h₀,
      ← Nat.shiftLeft_add_eq_or_of_lt (i := 16), ← Nat.shiftLeft_add_eq_or_of_lt (i := 24)]
    · simp only [Nat.shiftLeft_eq, leNat]
      omega
    · simp only [Nat.shiftLeft_eq]
      omega
    · simp only [Nat.shiftLeft_eq]
      omega
  have hlt : leNat [b₀, b₁, b₂, b₃] < 256 ^ 4 := leNat_lt [b₀, b₁, b₂, b₃]
  rw [UInt32.toNat_ofNat', Nat.mod_eq_of_lt (Nat.lt_of_lt_of_eq hlt (by simp)), ← hor]
  simp only [UInt32.toNat_or, UInt32.toNat_shiftLeft, UInt8.toNat_toUInt32]
  rw [show UInt32.toNat 24 % 32 = 24 from rfl, show UInt32.toNat 16 % 32 = 16 from rfl,
    show UInt32.toNat 8 % 32 = 8 from rfl, hshift h₃ (Nat.le_refl 24), hshift h₂ (by decide),
    hshift h₁ (by decide)]

/-- Taking a byte out of a number by a shift. -/
theorem toUInt8_shiftRight (n : Nat) {s : Nat} (hs : s ≤ 56) :
    (UInt64.ofNat n >>> UInt64.ofNat s).toUInt8 = UInt8.ofNat (n / 2 ^ s) := by
  apply UInt8.toNat_inj.mp
  have hamount : (UInt64.ofNat s).toNat % 64 = s := by
    rw [UInt64.toNat_ofNat', Nat.mod_eq_of_lt (by omega : s < 2 ^ 64), Nat.mod_eq_of_lt (by omega)]
  have hsplit : 2 ^ 64 = 2 ^ s * 2 ^ (64 - s) := by
    rw [← Nat.pow_add]
    congr 1
    omega
  rw [UInt64.toNat_toUInt8, UInt64.toNat_shiftRight, hamount, UInt64.toNat_ofNat',
    UInt8.toNat_ofNat', Nat.shiftRight_eq_div_pow, hsplit, Nat.mod_mul_right_div_self,
    Nat.mod_mod_of_dvd _ (Nat.pow_dvd_pow 2 (by omega))]

/-! ## Exact readers -/

variable {ε : Type u} {α : Type}

/-- A reader takes a value off the front of the input and returns what follows. -/
abbrev Reader (ε : Type u) (α : Type) := List UInt8 → Except ε (α × List UInt8)

/-- The reader accepts exactly what the encoder writes of valid values. -/
structure Exact (read : Reader ε α) (Valid : α → Prop) (encode : α → List UInt8) : Prop where
  complete : ∀ {a}, Valid a → ∀ rest, read (encode a ++ rest) = .ok (a, rest)
  sound : ∀ {input a rest}, read input = .ok (a, rest) → Valid a ∧ input = encode a ++ rest

/-- Read a fixed number of values. -/
def readMany (read : Reader ε α) : Nat → Reader ε (List α)
  | 0, input => .ok ([], input)
  | n + 1, input => do
      let (a, rest) ← read input
      let (as, rest) ← readMany read n rest
      return (a :: as, rest)

theorem readMany_succ_ok {read : Reader ε α} {n : Nat} {input rest : List UInt8} {as : List α} :
    readMany read (n + 1) input = .ok (as, rest) ↔
      ∃ a middle tail, read input = .ok (a, middle) ∧ readMany read n middle = .ok (tail, rest) ∧
        as = a :: tail := by
  simp only [readMany, bind_ok, Prod.exists]
  constructor
  · rintro ⟨a, middle, hread, tail, last, hmany, hresult⟩
    cases hresult
    exact ⟨a, middle, tail, hread, hmany, rfl⟩
  · rintro ⟨a, middle, tail, hread, hmany, rfl⟩
    exact ⟨a, middle, hread, tail, rest, hmany, rfl⟩

namespace Exact

variable {read : Reader ε α} {Valid : α → Prop} {encode : α → List UInt8}

theorem many_complete (hexact : Exact read Valid encode) {as : List α}
    (hvalid : ∀ a ∈ as, Valid a) (rest : List UInt8) :
    readMany read as.length (as.flatMap encode ++ rest) = .ok (as, rest) := by
  induction as with
  | nil => rfl
  | cons a as ih =>
      rw [List.length_cons, List.flatMap_cons, List.append_assoc]
      have htail := ih fun b hb => hvalid b (List.mem_cons_of_mem a hb)
      exact readMany_succ_ok.mpr
        ⟨a, _, as, hexact.complete (hvalid a List.mem_cons_self) _, htail, rfl⟩

theorem many_sound (hexact : Exact read Valid encode) {n : Nat} {input rest : List UInt8}
    {as : List α} (hmany : readMany read n input = .ok (as, rest)) :
    as.length = n ∧ (∀ a ∈ as, Valid a) ∧ input = as.flatMap encode ++ rest := by
  induction n generalizing input as with
  | zero =>
      cases hmany
      exact ⟨rfl, fun _ hmem => (List.not_mem_nil hmem).elim, rfl⟩
  | succ n ih =>
      obtain ⟨a, middle, tail, hread, hrest, rfl⟩ := readMany_succ_ok.mp hmany
      obtain ⟨hhead, hinput⟩ := hexact.sound hread
      obtain ⟨hlength, htail, hmiddle⟩ := ih hrest
      refine ⟨by rw [List.length_cons, hlength], ?_, ?_⟩
      · intro b hb
        rcases List.mem_cons.mp hb with rfl | hb
        · exact hhead
        · exact htail b hb
      · rw [hinput, hmiddle, List.flatMap_cons, List.append_assoc]

/-- Two ways of cutting an input after one value agree. -/
theorem cut_unique (hexact : Exact read Valid encode) {a b : α} (ha : Valid a) (hb : Valid b)
    {first second : List UInt8} (hcut : encode a ++ first = encode b ++ second) :
    a = b ∧ first = second := by
  have hread := hexact.complete ha first
  rw [hcut, hexact.complete hb second] at hread
  cases hread
  exact ⟨rfl, rfl⟩

end Exact

end Arcint.Foundation
