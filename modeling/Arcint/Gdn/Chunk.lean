import Arcint.Foundation.Substitution
import Arcint.Gdn.Rule

/-! # A chunk of the gated delta rule

The chunk's form computes what all of its tokens write at once: each of them in terms of the
state before the chunk and of the writes before it, a unit lower triangular system that forward
substitution inverts. The tokens' rule solves the same system one row at a time.
-/

namespace Arcint.Gdn

open Foundation Finset

variable {F κ ν : Type*} [CommRing F] [Fintype κ] {n : ℕ}

/-- The strictly lower part, by a product with ones. -/
def strictlyLowerPart (ut : Matrix (Fin n) (Fin n) F) : Matrix (Fin n) (Fin n) F :=
  fun i j => ut i j * if j < i then 1 else 0

/-- `_ut_inverse`: the forward substitution over the negated lower part, and the identity. -/
def utInverse (ut : Matrix (Fin n) (Fin n) F) : Matrix (Fin n) (Fin n) F :=
  substituted (-strictlyLowerPart ut) + 1

/-! ## The body -/

section Body

variable (exp : F → F) (rows : Fin n → Row κ ν F) (state : Matrix κ ν F)

def qRows : Matrix (Fin n) κ F := fun i => (rows i).q

def kRows : Matrix (Fin n) κ F := fun i => (rows i).k

def vBeta : Matrix (Fin n) ν F := fun i e => (rows i).v e * (rows i).beta

def kBeta : Matrix (Fin n) κ F := fun i d => (rows i).k d * (rows i).beta

/-- The inclusive cumulative sum of the decays. -/
def cum (i : Fin n) : F := ∑ j, if j ≤ i then (rows j).g else 0

/-- The pairwise decays; the mask leaves nothing above the diagonal. -/
def pd : Matrix (Fin n) (Fin n) F :=
  fun i j => if j ≤ i then exp (cum rows i - cum rows j) else 0

def ut : Matrix (Fin n) (Fin n) F :=
  fun i j => (kBeta rows * (kRows rows).transpose) i j * pd exp rows i j

def it : Matrix (Fin n) (Fin n) F :=
  fun i j => (qRows rows * (kRows rows).transpose) i j * pd exp rows i j

def dkb : Matrix (Fin n) κ F := fun i d => kBeta rows i d * exp (cum rows i)

def nv : Matrix (Fin n) ν F := utInverse (ut exp rows) * vBeta rows

def kcd : Matrix (Fin n) κ F := utInverse (ut exp rows) * dkb exp rows

def qd : Matrix (Fin n) κ F := fun i d => (rows i).q d * exp (cum rows i)

def cumLast : F := if h : 0 < n then cum rows ⟨n - 1, Nat.sub_lt h Nat.one_pos⟩ else 0

def kd : Matrix (Fin n) κ F := fun i d => (rows i).k d * exp (cumLast rows - cum rows i)

def cd : F := exp (cumLast rows)

def vNew : Matrix (Fin n) ν F := nv exp rows - kcd exp rows * state

def inter : Matrix (Fin n) ν F := qd exp rows * state

def core : Matrix (Fin n) ν F := inter exp rows state + it exp rows * vNew exp rows state

def updatedChunk : Matrix κ ν F :=
  fun d e => state d e * cd exp rows + ((kd exp rows).transpose * vNew exp rows state) d e

end Body

/-! ## The system -/

section System

theorem strictlyLower_neg (ut : Matrix (Fin n) (Fin n) F) :
    StrictlyLower (-strictlyLowerPart ut) := by
  intro i j hij
  simp [strictlyLowerPart, not_lt.mpr hij]

/-- The substitution inverts the unit lower triangular system. -/
theorem mul_utInverse (ut : Matrix (Fin n) (Fin n) F) :
    (1 + strictlyLowerPart ut) * utInverse ut = 1 := by
  have hinverse := sub_mul_substituted (strictlyLower_neg ut)
  rwa [sub_neg_eq_add] at hinverse

variable {exp : F → F} {rows : Fin n → Row κ ν F} {state : Matrix κ ν F}

/-- The new values solve the system. -/
theorem vNew_eq (i : Fin n) (e : ν) :
    vNew exp rows state i e =
      vBeta rows i e - (dkb exp rows * state) i e -
        ∑ j, (if j < i then ut exp rows i j * vNew exp rows state j e else 0) := by
  -- `nv` and `kcd` are solved with one inverse, so their difference is solved at once
  have hsolves : (1 + strictlyLowerPart (ut exp rows)) * vNew exp rows state =
      vBeta rows - dkb exp rows * state := by
    unfold vNew nv kcd
    rw [Matrix.mul_sub, Matrix.mul_assoc, ← Matrix.mul_assoc, mul_utInverse, Matrix.one_mul,
      ← Matrix.mul_assoc, mul_utInverse, Matrix.one_mul]
  have hentry := congrFun (congrFun hsolves i) e
  rw [Matrix.add_mul, Matrix.one_mul, Matrix.add_apply, Matrix.sub_apply, Matrix.mul_apply]
    at hentry
  rw [← hentry]
  have hpart : ∀ j, strictlyLowerPart (ut exp rows) i j * vNew exp rows state j e =
      if j < i then ut exp rows i j * vNew exp rows state j e else 0 := by
    intro j
    unfold strictlyLowerPart
    split <;> simp
  rw [sum_congr rfl fun j _ => hpart j, add_sub_cancel_right]

end System

/-! ## The chunk is the rule -/

theorem sum_fin_lt {i : ℕ} (hi : i ≤ n) (f : ℕ → F) :
    ∑ j : Fin n, (if j.val < i then f j else 0) = ∑ j ∈ range i, f j := by
  rw [Fin.sum_univ_eq_sum_range (fun j => if j < i then f j else 0) n, ← sum_filter]
  congr 1
  ext j
  simp only [mem_filter, mem_range]
  omega

section Runs

variable {exp : F → F} {rows : ℕ → Row κ ν F} {states : ℕ → Matrix κ ν F}

/-- The first `n` rows of a sequence, as a chunk. -/
def chunkOf (n : ℕ) (rows : ℕ → Row κ ν F) : Fin n → Row κ ν F := fun i => rows i

omit [Fintype κ] in
theorem cum_chunkOf (i : Fin n) : cum (chunkOf n rows) i = decays rows (i + 1) := by
  unfold cum decays
  rw [← sum_fin_lt (n := n) i.isLt]
  apply sum_congr rfl
  intro j _
  simp only [chunkOf, Fin.le_def, Nat.lt_succ_iff]

omit [Fintype κ] in
theorem cumLast_chunkOf : cumLast (chunkOf n rows) = decays rows n := by
  unfold cumLast
  split
  next h =>
    rw [cum_chunkOf]
    congr 1
    dsimp only
    omega
  next h =>
    obtain rfl : n = 0 := by omega
    rfl

omit [Fintype κ] in
theorem pd_chunkOf {i j : Fin n} (hij : j ≤ i) :
    pd exp (chunkOf n rows) i j = since exp rows (i + 1) j := by
  unfold pd since
  rw [if_pos hij, cum_chunkOf, cum_chunkOf]

/-- A product of two rows' vectors under their pairwise decay, row by row of the sequence. -/
theorem sum_pairs {i : Fin n} {m : ℕ} (hm : m ≤ i + 1) (x : Fin n → F) (y : κ → F)
    (u : ℕ → F) (hx : ∀ j : Fin n, j.val < m → x j = u j) :
    ∑ j : Fin n, (if j.val < m then
        (∑ d, y d * (rows j).k d) * pd exp (chunkOf n rows) i j * x j else 0) =
      ∑ j ∈ range m, (∑ d, y d * (rows j).k d) * since exp rows (i + 1) j * u j := by
  rw [← sum_fin_lt (n := n) (hm.trans i.isLt)]
  apply sum_congr rfl
  intro j _
  split
  next hj => rw [pd_chunkOf (Fin.le_def.mpr (by omega)), hx j hj]
  next => rfl

/-- The new values of the chunk are what the tokens write. -/
theorem vNew_chunkOf (hzero : exp 0 = 1) (hadd : ∀ a b, exp (a + b) = exp a * exp b)
    (hruns : Runs exp rows n states) (i : Fin n) (e : ν) :
    vNew exp (chunkOf n rows) (states 0) i e = written exp rows states i e := by
  -- row `i` of the system reads the new values of the rows before it only
  induction i using WellFoundedLT.induction with
  | _ i ih =>
      -- what the token reads of the state the chunk begins with
      have hread : (dkb exp (chunkOf n rows) * states 0) i e =
          (∑ d, states 0 d e * (rows i).k d) * exp (decays rows (i + 1)) * (rows i).beta := by
        rw [Matrix.mul_apply, sum_mul, sum_mul]
        apply sum_congr rfl
        intro d _
        unfold dkb kBeta
        rw [cum_chunkOf]
        unfold chunkOf
        ring
      have hut : ∀ j, (if j < i then ut exp (chunkOf n rows) i j *
          vNew exp (chunkOf n rows) (states 0) j e else 0) =
          (if j.val < i.val then (∑ d, (rows i).k d * (rows j).k d) *
            pd exp (chunkOf n rows) i j * vNew exp (chunkOf n rows) (states 0) j e else 0) *
              (rows i).beta := by
        intro j
        rw [ite_mul, zero_mul]
        refine if_congr Iff.rfl ?_ rfl
        have hproduct : (kBeta (chunkOf n rows) * (kRows (chunkOf n rows)).transpose) i j =
            (∑ d, (rows i).k d * (rows j).k d) * (rows i).beta := by
          rw [Matrix.mul_apply, sum_mul]
          apply sum_congr rfl
          intro d _
          simp only [kBeta, kRows, chunkOf, Matrix.transpose_apply]
          ring
        unfold ut
        rw [hproduct]
        ring
      rw [vNew_eq, written_eq hzero hadd hruns i.isLt, hread, sum_congr rfl fun j _ => hut j,
        ← sum_mul, sum_pairs (Nat.le_succ i) _ _ (fun j => written exp rows states j e)
          fun j hj => ih j hj]
      unfold vBeta chunkOf
      ring

/-- A row of the chunk's output is what its token reads. -/
theorem core_chunkOf (hzero : exp 0 = 1) (hadd : ∀ a b, exp (a + b) = exp a * exp b)
    (hruns : Runs exp rows n states) (i : Fin n) (e : ν) :
    core exp (chunkOf n rows) (states 0) i e = readOut exp (states i) (rows i) e := by
  have hinter : inter exp (chunkOf n rows) (states 0) i e =
      (∑ d, states 0 d e * (rows i).q d) * exp (decays rows (i + 1)) := by
    unfold inter
    rw [Matrix.mul_apply, sum_mul]
    apply sum_congr rfl
    intro d _
    unfold qd
    rw [cum_chunkOf]
    unfold chunkOf
    ring
  have hit : ∀ j, it exp (chunkOf n rows) i j * vNew exp (chunkOf n rows) (states 0) j e =
      if j.val < i + 1 then (∑ d, (rows i).q d * (rows j).k d) *
        pd exp (chunkOf n rows) i j * vNew exp (chunkOf n rows) (states 0) j e else 0 := by
    intro j
    split
    next => rfl
    next hj =>
      -- above the diagonal the pairwise decay is masked
      have hmask : pd exp (chunkOf n rows) i j = 0 :=
        if_neg fun hle => hj (Nat.lt_succ_of_le hle)
      unfold it
      rw [hmask, mul_zero, zero_mul]
  unfold core
  rw [Matrix.add_apply, hinter, Matrix.mul_apply, sum_congr rfl fun j _ => hit j,
    sum_pairs (Nat.le_refl _) _ _ (fun j => written exp rows states j e)
      fun j _ => vNew_chunkOf hzero hadd hruns j e,
    readOut_eq hzero hadd hruns i.isLt]

/-- The chunk leaves the state that its tokens leave. -/
theorem updatedChunk_chunkOf (hzero : exp 0 = 1) (hadd : ∀ a b, exp (a + b) = exp a * exp b)
    (hruns : Runs exp rows n states) :
    updatedChunk exp (chunkOf n rows) (states 0) = states n := by
  ext d e
  unfold updatedChunk cd
  rw [states_eq hzero hadd hruns (Nat.le_refl n), cumLast_chunkOf, Matrix.mul_apply,
    ← Fin.sum_univ_eq_sum_range
      (fun j => since exp rows n j * ((rows j).k d * written exp rows states j e))]
  congr 1
  apply sum_congr rfl
  intro j _
  rw [vNew_chunkOf hzero hadd hruns, Matrix.transpose_apply]
  unfold kd since
  rw [cumLast_chunkOf, cum_chunkOf]
  unfold chunkOf
  ring

end Runs

end Arcint.Gdn
