import Arcint.Foundation.Slice
import Arcint.Foundation.Wire
import Mathlib.Analysis.SpecialFunctions.Pow.NthRootLemmas
import Mathlib.Data.Nat.Prime.Nth
import Mathlib.Tactic.IntervalCases

/-! # The SHA-256 digest

The digest of FIPS 180-4, for messages of whole bytes. The constants are defined as the standard
introduces them, from the roots of the first primes; a table is proved against that definition.
-/

namespace Arcint.Foundation.Fips180

/-! ## Functions and constants -/

/-- Rotation to the right. -/
def ROTR (n : ℕ) (x : UInt32) : UInt32 := ⟨x.toBitVec.rotateRight n⟩

def Ch (x y z : UInt32) : UInt32 := (x &&& y) ^^^ (~~~x &&& z)

def Maj (x y z : UInt32) : UInt32 := (x &&& y) ^^^ (x &&& z) ^^^ (y &&& z)

/-- `Σ₀`. -/
def bigSigma0 (x : UInt32) : UInt32 := ROTR 2 x ^^^ ROTR 13 x ^^^ ROTR 22 x

/-- `Σ₁`. -/
def bigSigma1 (x : UInt32) : UInt32 := ROTR 6 x ^^^ ROTR 11 x ^^^ ROTR 25 x

/-- `σ₀`. -/
def smallSigma0 (x : UInt32) : UInt32 := ROTR 7 x ^^^ ROTR 18 x ^^^ (x >>> 3)

/-- `σ₁`. -/
def smallSigma1 (x : UInt32) : UInt32 := ROTR 17 x ^^^ ROTR 19 x ^^^ (x >>> 10)

/-- The first 32 bits of the fractional part of the `r`-th root of `p`. -/
def rootBits (r p : ℕ) : UInt32 := UInt32.ofNat (Nat.nthRoot r (p * 2 ^ (32 * r)))

/-- `K`, from the cube roots of the first primes. -/
noncomputable def K (t : ℕ) : UInt32 := rootBits 3 (Nat.nth Nat.Prime t)

/-- Eight words: a hash value, or the working variables. -/
structure Words where
  a : UInt32
  b : UInt32
  c : UInt32
  d : UInt32
  e : UInt32
  f : UInt32
  g : UInt32
  h : UInt32
  deriving DecidableEq

namespace Words

def toList (x : Words) : List UInt32 := [x.a, x.b, x.c, x.d, x.e, x.f, x.g, x.h]

def add (x y : Words) : Words :=
  ⟨x.a + y.a, x.b + y.b, x.c + y.c, x.d + y.d, x.e + y.e, x.f + y.f, x.g + y.g, x.h + y.h⟩

/-- The words that `f` gives of the first eight primes. -/
noncomputable def ofPrimes (f : ℕ → UInt32) : Words :=
  let p := Nat.nth Nat.Prime
  ⟨f (p 0), f (p 1), f (p 2), f (p 3), f (p 4), f (p 5), f (p 6), f (p 7)⟩

end Words

/-- The initial hash value, from the square roots of the first eight primes. -/
noncomputable def H0 : Words := Words.ofPrimes (rootBits 2)

/-! ## Compression -/

/-- The number whose bytes these are, highest first. -/
def beNat (bytes : List UInt8) : ℕ := leNat bytes.reverse

/-- The `k` low bytes of a number, highest first. -/
def beBytes (k n : ℕ) : List UInt8 := (leBytes k n).reverse

/-- The words `M` of a block. -/
def word (block : List UInt8) (i : ℕ) : UInt32 := UInt32.ofNat (beNat (slice block (4 * i) 4))

/-- The message schedule `W`. -/
def W (M : ℕ → UInt32) (t : ℕ) : UInt32 :=
  if t < 16 then M t
  else smallSigma1 (W M (t - 2)) + W M (t - 7) + smallSigma0 (W M (t - 15)) + W M (t - 16)
termination_by t

def round (k w : UInt32) (v : Words) : Words :=
  let T1 := v.h + bigSigma1 v.e + Ch v.e v.f v.g + k + w
  let T2 := bigSigma0 v.a + Maj v.a v.b v.c
  ⟨T1 + T2, v.a, v.b, v.c, v.d + T1, v.e, v.f, v.g⟩

/-- The hash value after one more block. -/
noncomputable def compress (H : Words) (block : List UInt8) : Words :=
  H.add ((List.range 64).foldl (fun v t => round (K t) (W (word block) t) v) H)

/-! ## Padding -/

/-- The bytes of zeros: 7 bits of the first are in the byte that holds the one bit. -/
def padZeros (n : ℕ) : ℕ := (119 - n % 64) % 64

/-- The message, a one bit, zeros up to 448 bits modulo 512, and the length in bits. -/
def pad (message : List UInt8) : List UInt8 :=
  message ++ 0x80 :: List.replicate (padZeros message.length) 0 ++ beBytes 8 (8 * message.length)

/-- The zeros are the fewest that fill up the block. -/
theorem padZeros_least (n z : ℕ) (hz : (n + 1 + z) % 64 = 56) :
    (n + 1 + padZeros n) % 64 = 56 ∧ padZeros n ≤ z := by
  unfold padZeros
  omega

theorem length_pad (message : List UInt8) : 64 ∣ (pad message).length := by
  have hlength : (pad message).length = message.length + 1 + padZeros message.length + 8 := by
    simp [pad, beBytes]
    omega
  have hzeros := (padZeros_least message.length (padZeros message.length)
    (by unfold padZeros; omega)).1
  rw [hlength]
  omega

/-! ## Digest -/

/-- The blocks of a padded message. -/
def blocks (bytes : List UInt8) : List (List UInt8) :=
  (List.range (bytes.length / 64)).map fun i => slice bytes (64 * i) 64

/-- The digest: the bytes of the hash value after the last block. -/
noncomputable def sha256 (message : List UInt8) : List UInt8 :=
  ((blocks (pad message)).foldl compress H0).toList.flatMap fun w => beBytes 4 w.toNat

/-- A byte as two lower-case hexadecimal digits. -/
def hexByte (byte : UInt8) : List Char :=
  [Nat.digitChar (byte.toNat / 16), Nat.digitChar (byte.toNat % 16)]

def toHex (bytes : List UInt8) : List Char := bytes.flatMap hexByte

/-- A number in a fixed count of digits. -/
def fixedDigits (b : ℕ) : ℕ → ℕ → List Char
  | 0, _ => []
  | k + 1, n => fixedDigits b k (n / b) ++ [Nat.digitChar (n % b)]

/-- Filling up with zeros gives a fixed count of digits. -/
theorem leftpad_toDigits {b k n : ℕ} (hb : 1 < b) (hn : n < b ^ (k + 1)) :
    List.leftpad (k + 1) '0' (Nat.toDigits b n) = fixedDigits b (k + 1) n := by
  induction k generalizing n with
  | zero =>
      rw [Nat.zero_add, pow_one] at hn
      rw [Nat.toDigits_of_lt_base hn, fixedDigits, Nat.mod_eq_of_lt hn]
      rfl
  | succ k ih =>
      have hsnoc : ∀ l : List Char, ∀ c,
          List.leftpad (k + 1 + 1) '0' (l ++ [c]) = List.leftpad (k + 1) '0' l ++ [c] := by
        intro l c
        simp [List.leftpad]
      have hhigh : n / b < b ^ (k + 1) := by
        apply Nat.div_lt_of_lt_mul
        rwa [← Nat.pow_succ']
      rw [fixedDigits, ← ih hhigh, ← hsnoc]
      by_cases hlt : n < b
      · -- one digit: the zero before it is the padding's
        rw [Nat.toDigits_of_lt_base hlt, Nat.div_eq_of_lt hlt, Nat.mod_eq_of_lt hlt,
          Nat.toDigits_of_lt_base (Nat.lt_of_succ_lt hb)]
        simp [List.leftpad, List.replicate_succ']
      · rw [Nat.toDigits_eq_if hb, if_neg hlt]

theorem toHex_beBytes (k n : ℕ) : toHex (beBytes k n) = fixedDigits 16 (2 * k) n := by
  induction k generalizing n with
  | zero => rfl
  | succ k ih =>
      have hbytes : beBytes (k + 1) n = beBytes k (n / 256) ++ [UInt8.ofNat n] := by
        simp [beBytes, leBytes]
      have hhigh : n % 256 / 16 = n / 16 % 16 := by omega
      have hlow : n % 256 % 16 = n % 16 := by omega
      have hrest : n / 16 / 16 = n / 256 := by rw [Nat.div_div_eq_div_mul]
      rw [hbytes, toHex, List.flatMap_append, ← toHex, ih, Nat.mul_succ, fixedDigits, fixedDigits,
        hrest, List.append_assoc, List.flatMap_singleton, hexByte, UInt8.toNat_ofNat', hhigh, hlow]
      rfl

theorem length_flatten {bs : List (List UInt8)} (hbs : ∀ b ∈ bs, b.length = 64) :
    bs.flatten.length = 64 * bs.length := by
  rw [List.length_flatten, List.map_congr_left hbs, List.map_const', List.sum_replicate]
  simp [Nat.mul_comm]

/-- Cutting blocks of 64 bytes back out of their concatenation. -/
theorem blocks_flatten {bs : List (List UInt8)} (hbs : ∀ b ∈ bs, b.length = 64) :
    blocks bs.flatten = bs := by
  induction bs with
  | nil => rfl
  | cons b bs ih =>
      have hb : b.length = 64 := hbs b List.mem_cons_self
      have hrest := ih fun b hmem => hbs b (List.mem_cons_of_mem _ hmem)
      have hcount : (b :: bs).flatten.length / 64 = bs.flatten.length / 64 + 1 := by
        rw [List.flatten_cons, List.length_append, hb]
        omega
      rw [blocks, hcount, List.range_succ_eq_map, List.map_cons, List.map_map, List.flatten_cons]
      congr 1
      · simp [slice, hb]
      · refine Eq.trans ?_ hrest
        apply List.map_congr_left
        intro i _
        have hstart : 64 * (i + 1) = b.length + 64 * i := by
          rw [hb]
          omega
        simp only [Function.comp_apply, slice, Nat.succ_eq_add_one]
        rw [hstart, List.drop_length_add_append]

/-! ## Tables -/

theorem count_eq_length_filter (p : ℕ → Prop) [DecidablePred p] (n : ℕ) :
    Nat.count p n = ((List.range n).filter p).length := by
  rw [Nat.count, List.countP_eq_length_filter]

/-- Numbering what satisfies a predicate by selecting from a range. -/
theorem nth_eq_getElem_filter (p : ℕ → Prop) [DecidablePred p] (n : ℕ) {t : ℕ}
    (ht : t < ((List.range n).filter p).length) :
    Nat.nth p t = ((List.range n).filter p)[t] := by
  induction n with
  | zero => exact absurd ht (Nat.not_lt_zero t)
  | succ n ih =>
      by_cases hp : p n
      · have hfilter : (List.range (n + 1)).filter p = (List.range n).filter p ++ [n] := by
          simp [List.range_succ, hp]
        simp only [hfilter, List.getElem_append]
        split
        next hlt => exact ih hlt
        next hge =>
          -- the last one: its number is how many were selected before it
          have hlast : t = Nat.count p n := by
            rw [hfilter, List.length_append, List.length_singleton] at ht
            rw [count_eq_length_filter]
            omega
          subst hlast
          rw [Nat.nth_count hp, List.getElem_singleton]
      · have hfilter : (List.range (n + 1)).filter p = (List.range n).filter p := by
          simp [List.range_succ, hp]
        simp only [hfilter] at ht ⊢
        exact ih ht

/-- Trial division by the primes up to 17. -/
def trial (n : ℕ) : Bool :=
  2 ≤ n && [2, 3, 5, 7, 11, 13, 17].all fun d => n % d != 0 || n == d

theorem prime_iff_trial {n : ℕ} (hn : n < 19 * 19) : n.Prime ↔ trial n = true := by
  rw [trial, Bool.and_eq_true, decide_eq_true_iff, List.all_eq_true]
  constructor
  · intro hprime
    refine ⟨hprime.two_le, fun d hd => ?_⟩
    have hd2 : d ≠ 1 := by
      rintro rfl
      exact absurd hd (by decide)
    rw [Bool.or_eq_true, bne_iff_ne, beq_iff_eq]
    by_cases hdvd : n % d = 0
    · right
      exact ((hprime.eq_one_or_self_of_dvd d (Nat.dvd_of_mod_eq_zero hdvd)).resolve_left hd2).symm
    · exact .inl hdvd
  · rintro ⟨htwo, hall⟩
    by_contra hnot
    have hprime : n.minFac.Prime := Nat.minFac_prime (by omega)
    have hsmall : n.minFac < 19 := by
      have hsquare := Nat.minFac_sq_le_self (by omega) hnot
      rw [pow_two] at hsquare
      exact Nat.mul_self_lt_mul_self_iff.mp (lt_of_le_of_lt hsquare hn)
    have hmem : n.minFac ∈ [2, 3, 5, 7, 11, 13, 17] := by
      generalize n.minFac = d at hprime hsmall
      interval_cases d <;> first | decide | exact absurd hprime (by decide)
    have hdivides := hall _ hmem
    rw [Bool.or_eq_true, bne_iff_ne, beq_iff_eq] at hdivides
    rcases hdivides with hndvd | heq
    · exact hndvd (Nat.mod_eq_zero_of_dvd (Nat.minFac_dvd n))
    · exact hnot (heq ▸ hprime)

/-- The first 64 primes. -/
def firstPrimes : List ℕ := (List.range 312).filter trial

theorem nth_prime_eq {t : ℕ} (ht : t < 64) : Nat.nth Nat.Prime t = firstPrimes.getD t 0 := by
  have hlength : firstPrimes.length = 64 := by decide +kernel
  have hfilter : (List.range 312).filter (fun n => n.Prime) = firstPrimes := by
    apply List.filter_congr
    intro n hn
    rw [Bool.eq_iff_iff, decide_eq_true_iff]
    exact prime_iff_trial (lt_trans (List.mem_range.mp hn) (by decide))
  have hcount : t < ((List.range 312).filter (fun n => n.Prime)).length := by
    rw [hfilter, hlength]
    exact ht
  rw [nth_eq_getElem_filter Nat.Prime 312 hcount, List.getD_eq_getElem _ _ (hlength ▸ ht)]
  simp only [hfilter]

theorem ofPrimes_eq (f : ℕ → UInt32) :
    Words.ofPrimes f = ⟨f 2, f 3, f 5, f 7, f 11, f 13, f 17, f 19⟩ := by
  have hprimes : ∀ t < 8, firstPrimes.getD t 0 = [2, 3, 5, 7, 11, 13, 17, 19].getD t 0 := by
    decide +kernel
  have hnth : ∀ t < 8, Nat.nth Nat.Prime t = [2, 3, 5, 7, 11, 13, 17, 19].getD t 0 := fun t ht =>
    (nth_prime_eq (lt_trans ht (by decide))).trans (hprimes t ht)
  simp [Words.ofPrimes, hnth]

end Arcint.Foundation.Fips180
