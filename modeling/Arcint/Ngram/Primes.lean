import Mathlib.Data.Nat.Nth
import Mathlib.NumberTheory.Bertrand
import Arcint.Foundation.Loop
import Arcint.Ngram.Heads

/-! # The prime search of the head sizes

Trial division by odd divisors, whose squares are formed in int64, and a walk from one prime to
the next. The walk meets every prime from its base on, in order.
-/

namespace Arcint.Ngram

open Foundation

/-- The divisors of `is_prime`, with their squares in int64. -/
def divisorLoop (value : Int) : Loop Int Bool where
  body divisor :=
    if value < signed 64 (divisor * divisor) then .leave true
    else if value.tmod divisor = 0 then .leave false
    else .again (divisor + 2)

def isPrime (value : Int) : Bool :=
  if value < 2 then false
  else if value.tmod 2 = 0 then value = 2
  else
    match (divisorLoop value).after value.toNat 3 with
    | .leave result => result
    -- the loop has left by then
    | .again _ => false

/-- The inner loop of `nth_prime_after`. -/
def primeLoop : Loop Int Int where
  body prime := if isPrime prime then .leave prime else .again (prime + 1)

/-- One round of the outer loop: the first prime past `prime`. -/
def nextPrime (prime : Int) : Int :=
  match primeLoop.after (prime.toNat + 1) (prime + 1) with
  | .leave result => result
  | .again last => last

def nthPrimeAfter (start : Int) : Nat → Int
  | 0 => start
  | count + 1 => nextPrime (nthPrimeAfter start count)

/-- The primes from `base` on, in order. -/
noncomputable def basePrime (base : Nat) : Nat → Nat :=
  Nat.nth fun q => q.Prime ∧ base ≤ q

/-! ## Trial division -/

section TrialDivision

/-- A square below `2 ^ 63` is its int64 square. -/
theorem signed_square {d : Nat} (h : d * d < 2 ^ 63) :
    signed 64 ((d : Int) * d) = ((d * d : Nat) : Int) := by
  rw [← Int.natCast_mul]
  exact signed_eq_self (Int.natCast_nonneg _) (by exact_mod_cast h)

/-- An odd prime is met by a divisor whose int64 square is above it: by itself where its own
square fits, and further up by the largest odd root, or by a root that wraps to `2 ^ 63 - 7`. -/
theorem exists_exit {v : Nat} (hprime : v.Prime) (hodd : Odd v) (hfits : v < 2 ^ 63) :
    ∃ r, Odd r ∧ 3 ≤ r ∧ r ≤ v ∧ (v : Int) < signed 64 ((r : Int) * r) := by
  have hthree : 3 ≤ v := by
    have htwo := hprime.two_le
    obtain ⟨k, hk⟩ := hodd
    omega
  rcases Nat.lt_or_ge 3037000499 v with hbig | hsmall
  · rcases Nat.lt_or_ge v (3037000499 * 3037000499) with hroot | hpast
    · refine ⟨3037000499, by decide, by decide, hbig.le, ?_⟩
      rw [signed_square (by decide)]
      exact_mod_cast hroot
    · rcases Nat.lt_or_ge v (2 ^ 63 - 7) with hbelow | hlast
      · refine ⟨2759374635167858507, by decide, by decide, by omega, ?_⟩
        have hsquare : signed 64 (((2759374635167858507 : Nat) : Int) *
            (2759374635167858507 : Nat)) = 2 ^ 63 - 7 := by decide +kernel
        rw [hsquare]
        omega
      · -- what is left below `2 ^ 63` and odd is not prime
        obtain ⟨k, hk⟩ := hodd
        have hcases : v = 9223372036854775801 ∨ v = 9223372036854775803 ∨
            v = 9223372036854775805 ∨ v = 9223372036854775807 := by omega
        rcases hcases with rfl | rfl | rfl | rfl
        · cases (Nat.prime_dvd_prime_iff_eq (by norm_num) hprime).mp (show 157 ∣ _ by norm_num)
        · cases (Nat.prime_dvd_prime_iff_eq (by norm_num) hprime).mp (show 3 ∣ _ by norm_num)
        · cases (Nat.prime_dvd_prime_iff_eq (by norm_num) hprime).mp (show 5 ∣ _ by norm_num)
        · cases (Nat.prime_dvd_prime_iff_eq (by norm_num) hprime).mp (show 7 ∣ _ by norm_num)
  · refine ⟨v, hodd, hthree, le_refl v, ?_⟩
    have hsquare : v * v ≤ 3037000499 * 3037000499 := Nat.mul_le_mul hsmall hsmall
    rw [signed_square (by omega)]
    exact_mod_cast Nat.lt_mul_self_iff.mpr (by omega)

variable {v d : Nat}

theorem tmod_eq_zero_iff : (v : Int).tmod d = 0 ↔ d ∣ v := by
  rw [← Int.dvd_iff_tmod_eq_zero, Int.natCast_dvd_natCast]

/-- The square of a divisor that no smaller one divides is above a prime only. -/
theorem prime_of_square (hodd : Odd v) (hthree : 3 ≤ v) (hfits : v < 2 ^ 63)
    (hsmaller : ∀ q, q ∣ v → Odd q → 3 ≤ q → d ≤ q)
    (hsquare : (v : Int) < signed 64 ((d : Int) * d)) : v.Prime := by
  by_contra hcomposite
  have hfactor := Nat.minFac_sq_le_self (by omega) hcomposite
  have hminFac := Nat.minFac_prime (show v ≠ 1 by omega)
  have hfodd : Odd v.minFac := hodd.of_dvd_nat (Nat.minFac_dvd v)
  have hfthree : 3 ≤ v.minFac := by
    have htwo := hminFac.two_le
    obtain ⟨k, hk⟩ := hfodd
    omega
  have hle := hsmaller _ (Nat.minFac_dvd v) hfodd hfthree
  have hbelow : d * d ≤ v := (Nat.mul_le_mul hle hle).trans ((sq _).symm.le.trans hfactor)
  rw [signed_square (hbelow.trans_lt hfits)] at hsquare
  exact absurd (by exact_mod_cast hsquare) (Nat.not_lt.mpr hbelow)

/-- From a divisor that no smaller one divides on, the loop decides primality. -/
theorem divisorLoop_after (hodd : Odd v) (hthree : 3 ≤ v) (hfits : v < 2 ^ 63) {n : Nat}
    (hdodd : Odd d) (hdthree : 3 ≤ d) (hle : d ≤ v) (hn : v - d < n)
    (hsmaller : ∀ q, q ∣ v → Odd q → 3 ≤ q → d ≤ q)
    (hexit : v.Prime → ∃ r, Odd r ∧ d ≤ r ∧ r ≤ v ∧ (v : Int) < signed 64 ((r : Int) * r)) :
    (divisorLoop v).after n d = .leave (decide v.Prime) := by
  induction n generalizing d with
  | zero => omega
  | succ n ih =>
      rcases lt_or_ge (v : Int) (signed 64 ((d : Int) * d)) with hsquare | hbelow
      · have hprime := prime_of_square hodd hthree hfits hsmaller hsquare
        refine Loop.after_succ_leave ?_ n
        simp [divisorLoop, hsquare, hprime]
      · by_cases hdvd : d ∣ v
        · -- a prime would have been met by the exit before it divided itself
          have hcomposite : ¬ v.Prime := by
            intro hprime
            obtain ⟨r, -, hr, hrv, hsquare⟩ := hexit hprime
            have heq := (Nat.dvd_prime hprime).mp hdvd
            have hrd : r = d := by omega
            rw [hrd] at hsquare
            omega
          refine Loop.after_succ_leave ?_ n
          have hzero : (v : Int).tmod d = 0 := tmod_eq_zero_iff.mpr hdvd
          simp [divisorLoop, Int.not_lt.mpr hbelow, hzero, hcomposite]
        · have hne : d ≠ v := fun heq => hdvd (heq ▸ Nat.dvd_refl d)
          have hnext : (divisorLoop v).body d = .again ((d + 2 : Nat) : Int) := by
            have hrest : (v : Int).tmod d ≠ 0 := fun hzero => hdvd (tmod_eq_zero_iff.mp hzero)
            simp [divisorLoop, Int.not_lt.mpr hbelow, hrest]
          obtain ⟨k, hk⟩ := hodd
          obtain ⟨j, hj⟩ := hdodd
          have hlater : ∀ q, d ≤ q → q ≠ d → Odd q → d + 2 ≤ q := by
            rintro q hdq hqd ⟨i, hi⟩
            omega
          rw [Loop.after_succ_again hnext]
          refine ih ⟨j + 1, by omega⟩ (by omega) (by omega) (by omega) ?_ ?_
          · intro q hq hqodd hqthree
            refine hlater q (hsmaller q hq hqodd hqthree) ?_ hqodd
            rintro rfl
            exact hdvd hq
          · intro hprime
            obtain ⟨r, hr, hdr, hrv, hsquare⟩ := hexit hprime
            refine ⟨r, hr, hlater r hdr ?_ hr, hrv, hsquare⟩
            rintro rfl
            omega

/-- `is_prime` is right on every int64, also where the square of a divisor wraps. -/
theorem isPrime_eq (hfits : v < 2 ^ 63) : isPrime v = decide v.Prime := by
  unfold isPrime
  split
  next hsmall =>
    have hnot : ¬ v.Prime := fun hprime => by
      have := hprime.two_le
      omega
    simp [hnot]
  next htwo =>
    split
    next heven =>
      have hdvd : 2 ∣ v := tmod_eq_zero_iff.mp heven
      have hiff : v.Prime ↔ v = 2 :=
        ⟨fun hprime => ((Nat.prime_dvd_prime_iff_eq Nat.prime_two hprime).mp hdvd).symm,
          fun h => h ▸ Nat.prime_two⟩
      simp only [hiff, decide_eq_decide]
      omega
    next hrest =>
      have hodd : Odd v := by
        rw [Nat.odd_iff]
        have : ¬ v % 2 = 0 := fun h => hrest (tmod_eq_zero_iff.mpr (Nat.dvd_of_mod_eq_zero h))
        omega
      have hthree : 3 ≤ v := by
        obtain ⟨k, hk⟩ := hodd
        omega
      have hloop := divisorLoop_after (n := v) hodd hthree hfits (show Odd 3 by decide)
        (le_refl 3) hthree (by omega) (fun q _ _ hq => hq)
        (fun hprime => exists_exit hprime hodd hfits)
      rw [Int.toNat_natCast, show (3 : Int) = ((3 : Nat) : Int) from rfl, hloop]

end TrialDivision

/-! ## From prime to prime -/

section Walk

/-- The walk stops at the next prime. -/
theorem primeLoop_after {m q : Nat} (hprime : q.Prime) (hfits : q < 2 ^ 63) (hle : m ≤ q)
    (hbetween : ∀ r, m ≤ r → r < q → ¬ r.Prime) {n : Nat} (hn : q - m < n) :
    primeLoop.after n m = .leave (q : Int) := by
  induction n generalizing m with
  | zero => omega
  | succ n ih =>
      rcases Nat.eq_or_lt_of_le hle with rfl | hlt
      · refine Loop.after_succ_leave ?_ n
        simp [primeLoop, isPrime_eq hfits, hprime]
      · have hnot := hbetween m (le_refl m) hlt
        have hnext : primeLoop.body m = .again ((m + 1 : Nat) : Int) := by
          simp [primeLoop, isPrime_eq (hlt.trans hfits), hnot]
        rw [Loop.after_succ_again hnext]
        exact ih hlt (fun r hr => hbetween r (by omega)) (by omega)

/-- The first prime past a positive number is found, and within the passes allowed. -/
theorem nextPrime_eq {m q : Nat} (hpos : 0 < m) (hprime : q.Prime) (hlt : m < q)
    (hfits : q < 2 ^ 63) (hbetween : ∀ r, m < r → r < q → ¬ r.Prime) : nextPrime m = q := by
  obtain ⟨r, hr, hmr, hrm⟩ := Nat.exists_prime_lt_and_le_two_mul m (by omega)
  have hqr : q ≤ r := by
    by_contra hrq
    exact hbetween r hmr (by omega) hr
  unfold nextPrime
  have hloop := primeLoop_after (m := m + 1) (n := m + 1) hprime hfits hlt hbetween (by omega)
  rw [Int.toNat_natCast, ← Int.natCast_succ, hloop]

variable {base : Nat}

theorem infinite_primes (base : Nat) :
    (Set.ofPred fun q : Nat => q.Prime ∧ base ≤ q).Infinite := by
  apply Set.infinite_of_not_bddAbove
  rintro ⟨bound, hbound⟩
  obtain ⟨q, hq, hprime⟩ := Nat.exists_infinite_primes (max base (bound + 1))
  have hle : q ≤ bound := hbound ⟨hprime, (le_max_left _ _).trans hq⟩
  have hlt := (le_max_right base (bound + 1)).trans hq
  omega

theorem basePrime_strictMono (base : Nat) : StrictMono (basePrime base) :=
  Nat.nth_strictMono (infinite_primes base)

theorem basePrime_mem (base k : Nat) : (basePrime base k).Prime ∧ base ≤ basePrime base k :=
  Nat.nth_mem_of_infinite (infinite_primes base) k

/-- Every prime from the base on is in the sequence. -/
theorem exists_basePrime {q : Nat} (hprime : q.Prime) (hq : base ≤ q) :
    ∃ k, basePrime base k = q := by
  obtain ⟨k, -, hk⟩ := Nat.exists_lt_card_nth_eq (p := fun q => q.Prime ∧ base ≤ q) ⟨hprime, hq⟩
  exact ⟨k, hk⟩

/-- The next prime of the sequence is at most twice as large. -/
theorem basePrime_succ_le (base k : Nat) : basePrime base (k + 1) ≤ 2 * basePrime base k := by
  obtain ⟨hprime, hbase⟩ := basePrime_mem base k
  obtain ⟨q, hq, hlow, hhigh⟩ := Nat.exists_prime_lt_and_le_two_mul _ hprime.ne_zero
  obtain ⟨j, rfl⟩ := exists_basePrime hq (hbase.trans hlow.le)
  have hkj := (basePrime_strictMono base).lt_iff_lt.mp hlow
  exact ((basePrime_strictMono base).monotone hkj).trans hhigh

/-- No prime is passed between one of the sequence and the next. -/
theorem not_prime_between {k r : Nat} (hlow : basePrime base k < r)
    (hhigh : r < basePrime base (k + 1)) : ¬ r.Prime := by
  intro hprime
  obtain ⟨j, rfl⟩ := exists_basePrime hprime ((basePrime_mem base k).2.trans hlow.le)
  have hkj := (basePrime_strictMono base).lt_iff_lt.mp hlow
  have hjk := (basePrime_strictMono base).lt_iff_lt.mp hhigh
  omega

theorem not_prime_below {r : Nat} (hlow : base ≤ r) (hhigh : r < basePrime base 0) :
    ¬ r.Prime := by
  intro hprime
  obtain ⟨j, rfl⟩ := exists_basePrime hprime hlow
  exact absurd ((basePrime_strictMono base).lt_iff_lt.mp hhigh) (Nat.not_lt_zero j)

/-- The walk of `nth_prime_after` from before the base is the primes from the base on. -/
theorem nthPrimeAfter_eq (hbase : 2 ≤ base) {k : Nat} (hfits : basePrime base k < 2 ^ 63) :
    nthPrimeAfter ((base : Int) - 1) (k + 1) = basePrime base k := by
  induction k with
  | zero =>
      obtain ⟨hprime, hle⟩ := basePrime_mem base 0
      have hstart : (base : Int) - 1 = ((base - 1 : Nat) : Int) := by omega
      unfold nthPrimeAfter nthPrimeAfter
      rw [hstart]
      refine nextPrime_eq (by omega) hprime (by omega) hfits ?_
      intro r hr
      exact not_prime_below (by omega)
  | succ k ih =>
      have hlt := basePrime_strictMono base (Nat.lt_succ_self k)
      obtain ⟨hprime, -⟩ := basePrime_mem base (k + 1)
      have hpos := (basePrime_mem base k).1.pos
      unfold nthPrimeAfter
      rw [ih (hlt.trans hfits)]
      exact nextPrime_eq hpos hprime hlt hfits fun r => not_prime_between

end Walk

end Arcint.Ngram
