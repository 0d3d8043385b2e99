import Mathlib.Algebra.BigOperators.Group.List.Basic
import Mathlib.Algebra.BigOperators.Intervals

/-! # Dense tensors

A tensor has dimensions, and a value at every index. An index counts through a row-major buffer, and
that is all that a change of shape goes by: it leaves the buffer alone.
-/

namespace Arcint.Foundation

/-- What stands at an index outside the dimensions is never read. -/
structure Tensor (α : Type*) where
  shape : List ℕ
  get : List ℕ → α

namespace Tensor

variable {α β γ : Type*}

/-- An index of a shape. -/
abbrev Inside (shape idx : List ℕ) : Prop := List.Forall₂ (· < ·) idx shape

/-! ## Row-major places -/

def ravel : List ℕ → List ℕ → ℕ
  | _ :: dims, i :: idx => i * dims.prod + ravel dims idx
  | _, _ => 0

def unravel : List ℕ → ℕ → List ℕ
  | [], _ => []
  | _ :: dims, k => k / dims.prod :: unravel dims (k % dims.prod)

theorem ravel_lt {shape idx : List ℕ} (h : Inside shape idx) : ravel shape idx < shape.prod := by
  induction h with
  | nil => simp [ravel]
  | @cons i d idx dims hi _ ih =>
      rw [ravel, List.prod_cons]
      calc i * dims.prod + ravel dims idx < i * dims.prod + dims.prod := Nat.add_lt_add_left ih _
        _ = (i + 1) * dims.prod := (Nat.succ_mul _ _).symm
        _ ≤ d * dims.prod := Nat.mul_le_mul_right _ hi

theorem unravel_ravel {shape idx : List ℕ} (h : Inside shape idx) :
    unravel shape (ravel shape idx) = idx := by
  induction h with
  | nil => rfl
  | @cons i d idx dims _ htail ih =>
      have hlt := ravel_lt htail
      have hpos := Nat.zero_lt_of_lt hlt
      rw [ravel, unravel, Nat.mul_comm, Nat.mul_add_div hpos, Nat.div_eq_of_lt hlt, Nat.add_zero,
        Nat.mul_add_mod, Nat.mod_eq_of_lt hlt, ih]

/-- Two shapes that begin alike. -/
theorem ravel_cons_congr {dims dims' idx idx' : List ℕ} {d d' : ℕ} (i : ℕ)
    (hprod : dims.prod = dims'.prod) (h : ravel dims idx = ravel dims' idx') :
    ravel (d :: dims) (i :: idx) = ravel (d' :: dims') (i :: idx') := by
  rw [ravel, ravel, hprod, h]

/-! ## Constants and elementwise operations -/

/-- A constant of a row-major buffer. -/
def constant (shape : List ℕ) (flat : ℕ → α) : Tensor α where
  shape := shape
  get idx := flat (ravel shape idx)

def scalar (a : α) : Tensor α where
  shape := []
  get _ := a

def map (f : α → β) (t : Tensor α) : Tensor β where
  shape := t.shape
  get idx := f (t.get idx)

/-- A dimension of one is repeated, and so are the dimensions in front that one side lacks. -/
def broadcastShape (a b : List ℕ) : List ℕ :=
  (joinDims a.reverse b.reverse).reverse
where
  joinDims : List ℕ → List ℕ → List ℕ
    | [], b => b
    | a, [] => a
    | d :: a, e :: b => (if d = 1 then e else d) :: joinDims a b

/-- The place in a tensor that is repeated. -/
def broadcastIndex (shape idx : List ℕ) : List ℕ :=
  List.zipWith (fun d i => if d = 1 then 0 else i) shape (idx.drop (idx.length - shape.length))

def zipWith (f : α → β → γ) (a : Tensor α) (b : Tensor β) : Tensor γ where
  shape := broadcastShape a.shape b.shape
  get idx := f (a.get (broadcastIndex a.shape idx)) (b.get (broadcastIndex b.shape idx))

def broadcastTo (t : Tensor α) (shape : List ℕ) : Tensor α where
  shape := shape
  get idx := t.get (broadcastIndex t.shape idx)

/-! ## Shapes -/

def reshape (t : Tensor α) (shape : List ℕ) : Tensor α where
  shape := shape
  get idx := t.get (unravel t.shape (ravel shape idx))

/-- A target with a `-1`, which stands for what the other dimensions leave. -/
def reshapeTo (t : Tensor α) (target : List (Option ℕ)) : Tensor α :=
  t.reshape (target.map fun d => d.getD (t.shape.prod / (target.filterMap id).prod))

/-- A dimension of one behind the others. -/
def unsqueezeLast (t : Tensor α) : Tensor α where
  shape := t.shape ++ [1]
  get idx := t.get idx.dropLast

def transpose10 (t : Tensor α) : Tensor α where
  shape := t.shape.reverse
  get idx := t.get idx.reverse

/-- The places from `start` to `stop` of an axis. -/
def slice (t : Tensor α) (axis start stop : ℕ) : Tensor α where
  shape := t.shape.set axis (stop - start)
  get idx := t.get (idx.modify axis (start + ·))

/-- What the first axis has at `i`. -/
def row (t : Tensor α) (i : ℕ) : Tensor α where
  shape := t.shape.tail
  get idx := t.get (i :: idx)

/-- Whole copies, one behind the other. -/
def tile (t : Tensor α) (repeats : List ℕ) : Tensor α where
  shape := List.zipWith (· * ·) t.shape repeats
  get idx := t.get (List.zipWith (· % ·) idx t.shape)

/-! ## Gathers and sums -/

/-- Rows of a table. -/
def gather (table : Tensor α) (indices : Tensor ℕ) : Tensor α where
  shape := indices.shape ++ table.shape.tail
  get idx :=
    table.get (indices.get (idx.take indices.shape.length) :: idx.drop indices.shape.length)

/-- One place of the last axis. -/
def gatherLast (t : Tensor α) (i : ℕ) : Tensor α where
  shape := t.shape.dropLast
  get idx := t.get (idx ++ [i])

/-- The updates at the places that the indices name in the last axis, one after the other. -/
def scatterElementsUpdate (data : Tensor α) (indices : Tensor ℕ) (updates : Tensor α) :
    Tensor α where
  shape := data.shape
  get idx :=
    (List.range (indices.shape.getLastD 0)).foldl (fun acc j =>
      if indices.get (idx.dropLast ++ [j]) = idx.getLastD 0 then updates.get (idx.dropLast ++ [j])
      else acc) (data.get idx)

section Sums

variable [AddCommMonoid α]

def reduceSum (t : Tensor α) (axis : ℕ) : Tensor α where
  shape := t.shape.eraseIdx axis
  get idx := ∑ i ∈ Finset.range (t.shape.getD axis 0), t.get (idx.insertIdx axis i)

/-- The sum of the last axis, which stays as a dimension of one. -/
def reduceSumLast (t : Tensor α) : Tensor α where
  shape := t.shape.dropLast ++ [1]
  get idx := ∑ i ∈ Finset.range (t.shape.getLastD 0), t.get (idx.dropLast ++ [i])

/-- `matmul` with the second operand transposed, one matrix for each leading index. -/
def matmulT [Mul α] (a b : Tensor α) : Tensor α where
  shape := a.shape.dropLast ++ [b.shape.dropLast.getLastD 0]
  get idx := ∑ k ∈ Finset.range (a.shape.getLastD 0),
    a.get (idx.dropLast ++ [k]) * b.get (idx.dropLast.dropLast ++ [idx.getLastD 0, k])

/-- The exponentials of the last axis, by their sum. -/
def softmax [Div α] (exp : α → α) (t : Tensor α) : Tensor α where
  shape := t.shape
  get idx := exp (t.get idx) /
    ∑ i ∈ Finset.range (t.shape.getLastD 0), exp (t.get (idx.dropLast ++ [i]))

end Sums

/-! ## What stands at an index -/

@[simp] theorem map_shape (f : α → β) (t : Tensor α) : (t.map f).shape = t.shape := rfl

@[simp] theorem reshape_shape (t : Tensor α) (shape : List ℕ) : (t.reshape shape).shape = shape :=
  rfl

/-- A reshaped tensor has at an index what stands at the same place of the buffer. -/
theorem reshape_get {t : Tensor α} {shape idx idx' : List ℕ} (hinside : Inside t.shape idx')
    (hplace : ravel t.shape idx' = ravel shape idx) : (t.reshape shape).get idx = t.get idx' := by
  simp only [reshape, ← hplace, unravel_ravel hinside]

/-- The indices of a row are distinct, so each update stands where its index says. -/
theorem foldl_update {f : ℕ → ℕ} {u : ℕ → α} {k c j : ℕ}
    (hinj : ∀ i < k, ∀ i' < k, f i = f i' → i = i') (hj : j < k) (hc : f j = c) (a : α) :
    (List.range k).foldl (fun acc j => if f j = c then u j else acc) a = u j := by
  induction k with
  | zero => exact absurd hj (Nat.not_lt_zero j)
  | succ k ih =>
      rw [List.range_succ, List.foldl_append, List.foldl_cons, List.foldl_nil]
      rcases Nat.lt_succ_iff_lt_or_eq.mp hj with hlt | rfl
      · have hne : f k ≠ c := by
          intro hk
          exact hlt.ne (hinj j hj k (Nat.lt_succ_self k) (hc.trans hk.symm))
        rw [if_neg hne]
        exact ih (fun i hi i' hi' => hinj i (Nat.lt_succ_of_lt hi) i' (Nat.lt_succ_of_lt hi')) hlt
      · rw [if_pos hc]

theorem foldl_update_of_ne {f : ℕ → ℕ} {u : ℕ → α} {k c : ℕ} (hc : ∀ j < k, f j ≠ c) (a : α) :
    (List.range k).foldl (fun acc j => if f j = c then u j else acc) a = a := by
  induction k with
  | zero => rfl
  | succ k ih =>
      rw [List.range_succ, List.foldl_append, List.foldl_cons, List.foldl_nil,
        if_neg (hc k (Nat.lt_succ_self k))]
      exact ih fun j hj => hc j (Nat.lt_succ_of_lt hj)

section Matrices

variable {rows cols n : ℕ} {r c : ℕ}

theorem scatter_get {data updates : Tensor α} {indices : Tensor ℕ}
    (hshape : indices.shape = [rows, n]) :
    (data.scatterElementsUpdate indices updates).get [r, c] =
      (List.range n).foldl (fun acc j =>
        if indices.get [r, j] = c then updates.get [r, j] else acc) (data.get [r, c]) := by
  simp [scatterElementsUpdate, hshape]

variable [AddCommMonoid α]

theorem matmulT_get [Mul α] {a b : Tensor α} (ha : a.shape = [rows, n]) :
    (a.matmulT b).get [r, c] = ∑ k ∈ Finset.range n, a.get [r, k] * b.get [c, k] := by
  simp [matmulT, ha]

theorem matmulT_shape [Mul α] {a b : Tensor α} (ha : a.shape = [rows, n])
    (hb : b.shape = [cols, n]) : (a.matmulT b).shape = [rows, cols] := by
  simp [matmulT, ha, hb]

theorem softmax_get [Div α] {exp : α → α} {t : Tensor α} (ht : t.shape = [rows, n]) :
    (t.softmax exp).get [r, c] =
      exp (t.get [r, c]) / ∑ i ∈ Finset.range n, exp (t.get [r, i]) := by
  simp [softmax, ht]

theorem reduceSumLast_get {t : Tensor α} (ht : t.shape = [rows, n]) :
    t.reduceSumLast.get [r, c] = ∑ i ∈ Finset.range n, t.get [r, i] := by
  simp [reduceSumLast, ht]

theorem reduceSumLast_shape {t : Tensor α} (ht : t.shape = [rows, n]) :
    t.reduceSumLast.shape = [rows, 1] := by
  simp [reduceSumLast, ht]

/-- A matrix in each place of the first axis. -/
theorem matmulT_get3 [Mul α] {a b : Tensor α} {blocks e : ℕ} (ha : a.shape = [blocks, rows, n]) :
    (a.matmulT b).get [e, r, c] = ∑ k ∈ Finset.range n, a.get [e, r, k] * b.get [e, c, k] := by
  simp [matmulT, ha]

theorem matmulT_shape3 [Mul α] {a b : Tensor α} {blocks : ℕ} (ha : a.shape = [blocks, rows, n])
    (hb : b.shape = [blocks, cols, n]) : (a.matmulT b).shape = [blocks, rows, cols] := by
  simp [matmulT, ha, hb]

end Matrices

/-- What is not repeated stays. -/
theorem repeated_of_lt {d i : ℕ} (h : i < d) : (if d = 1 then 0 else i) = i := by
  split
  · omega
  · rfl

theorem broadcastIndex_self {shape idx : List ℕ} (h : Inside shape idx) :
    broadcastIndex shape idx = idx := by
  rw [broadcastIndex, h.length_eq, Nat.sub_self, List.drop_zero]
  induction h with
  | nil => rfl
  | @cons i d idx dims hi _ ih =>
      rw [List.zipWith_cons_cons, ih, repeated_of_lt hi]

/-- Operands of one shape. -/
theorem zipWith_get {f : α → β → γ} {a : Tensor α} {b : Tensor β} {idx : List ℕ}
    (ha : Inside a.shape idx) (hb : Inside b.shape idx) :
    (zipWith f a b).get idx = f (a.get idx) (b.get idx) := by
  simp only [zipWith, broadcastIndex_self ha, broadcastIndex_self hb]

theorem broadcastShape_self (shape : List ℕ) : broadcastShape shape shape = shape := by
  have hjoin : ∀ dims : List ℕ, broadcastShape.joinDims dims dims = dims := by
    intro dims
    induction dims with
    | nil => rfl
    | cons d dims ih => rw [broadcastShape.joinDims, ih, ite_self]
  rw [broadcastShape, hjoin, List.reverse_reverse]

theorem broadcastShape_nil (shape : List ℕ) : broadcastShape shape [] = shape := by
  have hjoin : ∀ dims : List ℕ, broadcastShape.joinDims dims [] = dims := by
    intro dims
    cases dims <;> simp [broadcastShape.joinDims]
  rw [broadcastShape, List.reverse_nil, hjoin, List.reverse_reverse]

/-- A scalar goes with every index. -/
theorem zipWith_scalar_get {f : α → β → γ} {a : Tensor α} {b : β} {idx : List ℕ}
    (ha : Inside a.shape idx) : (zipWith f a (scalar b)).get idx = f (a.get idx) b := by
  simp only [zipWith, broadcastIndex_self ha, scalar]

theorem zipWith_scalar_shape (f : α → β → γ) (a : Tensor α) (b : β) :
    (zipWith f a (scalar b)).shape = a.shape := broadcastShape_nil a.shape

theorem zipWith_get2 {f : α → β → γ} {a : Tensor α} {b : Tensor β} {rows n r c : ℕ}
    (ha : a.shape = [rows, n]) (hb : b.shape = [rows, n]) (hr : r < rows) (hc : c < n) :
    (zipWith f a b).get [r, c] = f (a.get [r, c]) (b.get [r, c]) := by
  have hinside : Inside [rows, n] [r, c] := by simp [hr, hc]
  exact zipWith_get (by rwa [ha]) (by rwa [hb])

theorem zipWith_shape_eq {f : α → β → γ} {a : Tensor α} {b : Tensor β} {shape : List ℕ}
    (ha : a.shape = shape) (hb : b.shape = shape) : (zipWith f a b).shape = shape := by
  simp only [zipWith, ha, hb, broadcastShape_self]

end Tensor

end Arcint.Foundation
