import Arcint.Foundation.Scan
import Mathlib.Algebra.BigOperators.Fin
import Mathlib.Algebra.BigOperators.Ring.Finset
import Mathlib.Data.Matrix.Mul
import Mathlib.Tactic.Ring

/-! # The gated delta rule

One head of the recurrent layer. A token decays the state, writes the part of its value that its
key does not read back, and reads with its query. Unrolled, the state is the one it started from
and what every token wrote, each under the decays of the tokens behind it.
-/

namespace Arcint.Gdn

open Foundation Finset

variable {F κ ν : Type*} [CommRing F] [Fintype κ]

/-- What a head is given of a token. -/
@[ext]
structure Row (κ ν F : Type*) where
  q : κ → F
  k : κ → F
  v : ν → F
  g : F
  beta : F

instance : Zero (Row κ ν F) := ⟨⟨0, 0, 0, 0, 0⟩⟩

/-! ## One token -/

section Token

variable (exp : F → F) (state : Matrix κ ν F) (row : Row κ ν F)

def gatedState : Matrix κ ν F := fun d e => state d e * exp row.g

def projected : ν → F := fun e => ∑ d, gatedState exp state row d e * row.k d

def delta : ν → F := fun e => row.v e - projected exp state row e

def updated : Matrix κ ν F := fun d e =>
  gatedState exp state row d e + row.k d * (delta exp state row e * row.beta)

def readOut : ν → F := fun e => ∑ d, updated exp state row d e * row.q d

end Token

/-! ## Many tokens -/

/-- The decays of the first `m` tokens together. -/
def decays (rows : ℕ → Row κ ν F) (m : ℕ) : F := ∑ j ∈ range m, (rows j).g

/-- The states that the rule goes through. -/
def Runs (exp : F → F) (rows : ℕ → Row κ ν F) (n : ℕ) (states : ℕ → Matrix κ ν F) : Prop :=
  ∀ i < n, states (i + 1) = updated exp (states i) (rows i)

/-- What token `i` writes under its key. -/
def written (exp : F → F) (rows : ℕ → Row κ ν F) (states : ℕ → Matrix κ ν F) (i : ℕ) : ν → F :=
  fun e => delta exp (states i) (rows i) e * (rows i).beta

/-- The decay of what token `j` wrote, behind the first `m` tokens. -/
def since (exp : F → F) (rows : ℕ → Row κ ν F) (m j : ℕ) : F :=
  exp (decays rows m - decays rows (j + 1))

section Runs

variable {exp : F → F} {rows : ℕ → Row κ ν F} {n : ℕ} {states : ℕ → Matrix κ ν F}

omit [Fintype κ] in
@[simp] theorem decays_zero : decays rows 0 = 0 := rfl

omit [Fintype κ] in
theorem decays_succ (m : ℕ) : decays rows (m + 1) = decays rows m + (rows m).g :=
  sum_range_succ _ m

omit [Fintype κ] in
theorem since_succ (hadd : ∀ a b, exp (a + b) = exp a * exp b) (m j : ℕ) :
    since exp rows (m + 1) j = since exp rows m j * exp (rows m).g := by
  unfold since
  rw [← hadd, decays_succ]
  congr 1
  ring

omit [Fintype κ] in
theorem since_self (hzero : exp 0 = 1) (m : ℕ) : since exp rows (m + 1) m = 1 := by
  unfold since
  rw [sub_self, hzero]

/-- The state behind `m` tokens, unrolled. -/
theorem states_eq (hzero : exp 0 = 1) (hadd : ∀ a b, exp (a + b) = exp a * exp b)
    (hruns : Runs exp rows n states) {m : ℕ} (hm : m ≤ n) (d : κ) (e : ν) :
    states m d e = states 0 d e * exp (decays rows m) +
      ∑ j ∈ range m, since exp rows m j * ((rows j).k d * written exp rows states j e) := by
  induction m with
  | zero => simp [hzero]
  | succ m ih =>
      have hstep : states (m + 1) d e = states m d e * exp (rows m).g +
          (rows m).k d * written exp rows states m e := by
        rw [hruns m hm]
        rfl
      have hlater : ∀ j, since exp rows (m + 1) j * ((rows j).k d * written exp rows states j e) =
          since exp rows m j * ((rows j).k d * written exp rows states j e) * exp (rows m).g := by
        intro j
        rw [since_succ hadd]
        ring
      rw [hstep, ih (Nat.le_of_succ_le hm), sum_range_succ, since_self hzero, decays_succ, hadd,
        add_mul, sum_mul, one_mul, sum_congr rfl fun j _ => hlater j]
      ring

/-- What a vector reads of the state behind `m` tokens. -/
theorem read_states (hzero : exp 0 = 1) (hadd : ∀ a b, exp (a + b) = exp a * exp b)
    (hruns : Runs exp rows n states) {m : ℕ} (hm : m ≤ n) (x : κ → F) (e : ν) :
    ∑ d, states m d e * x d = (∑ d, states 0 d e * x d) * exp (decays rows m) +
      ∑ j ∈ range m, (∑ d, x d * (rows j).k d) * since exp rows m j *
        written exp rows states j e := by
  have hentry : ∀ d, states m d e * x d = states 0 d e * x d * exp (decays rows m) +
      ∑ j ∈ range m, x d * (rows j).k d * since exp rows m j * written exp rows states j e := by
    intro d
    rw [states_eq hzero hadd hruns hm, add_mul, sum_mul]
    congr 1
    · ring
    · apply sum_congr rfl
      intro j _
      ring
  rw [sum_congr rfl fun d _ => hentry d, sum_add_distrib, ← sum_mul, sum_comm]
  congr 1
  apply sum_congr rfl
  intro j _
  rw [sum_mul, sum_mul]

/-- What a token writes, by what the tokens before it wrote. -/
theorem written_eq (hzero : exp 0 = 1) (hadd : ∀ a b, exp (a + b) = exp a * exp b)
    (hruns : Runs exp rows n states) {i : ℕ} (hi : i < n) (e : ν) :
    written exp rows states i e =
      ((rows i).v e - ((∑ d, states 0 d e * (rows i).k d) * exp (decays rows (i + 1)) +
        ∑ j ∈ range i, (∑ d, (rows i).k d * (rows j).k d) * since exp rows (i + 1) j *
          written exp rows states j e)) * (rows i).beta := by
  have hprojected : projected exp (states i) (rows i) e =
      (∑ d, states i d e * (rows i).k d) * exp (rows i).g := by
    unfold projected gatedState
    rw [sum_mul]
    apply sum_congr rfl
    intro d _
    ring
  have hlater : (∑ j ∈ range i, (∑ d, (rows i).k d * (rows j).k d) * since exp rows i j *
      written exp rows states j e) * exp (rows i).g =
        ∑ j ∈ range i, (∑ d, (rows i).k d * (rows j).k d) * since exp rows (i + 1) j *
          written exp rows states j e := by
    rw [sum_mul]
    apply sum_congr rfl
    intro j _
    rw [since_succ hadd]
    ring
  have hwritten : written exp rows states i e =
      ((rows i).v e - projected exp (states i) (rows i) e) * (rows i).beta := rfl
  rw [hwritten, hprojected, read_states hzero hadd hruns hi.le, add_mul, hlater, decays_succ, hadd,
    mul_assoc]

/-- What a token reads, by what it and the tokens before it wrote. -/
theorem readOut_eq (hzero : exp 0 = 1) (hadd : ∀ a b, exp (a + b) = exp a * exp b)
    (hruns : Runs exp rows n states) {i : ℕ} (hi : i < n) (e : ν) :
    readOut exp (states i) (rows i) e =
      (∑ d, states 0 d e * (rows i).q d) * exp (decays rows (i + 1)) +
        ∑ j ∈ range (i + 1), (∑ d, (rows i).q d * (rows j).k d) * since exp rows (i + 1) j *
          written exp rows states j e := by
  unfold readOut
  rw [← hruns i hi]
  exact read_states hzero hadd hruns hi _ e

end Runs

end Arcint.Gdn
