import Arcint.Cache.BlockPool
import Arcint.Foundation.Machine
import Mathlib.Data.List.Range
import Mathlib.Algebra.Ring.Nat

/-! # The page pool in machine words

The pool as the class has it: ids are 32-bit signed, counts 32-bit unsigned, and
an increment of a count wraps. While no count wraps and every id fits its type,
the free list is exactly the pages without a reference, and the pool behaves as
the one of whole numbers that the lanes are modelled with.
-/

namespace Arcint.Cache

open Foundation

/-- A conversion to `int32_t`. -/
def toInt32 (n : Nat) : Int := (n : Int).bmod (2 ^ 32)

/-- The two members of `BlockPool`. The head of `free` is its back, the next id out. -/
structure WordPool where
  free : List Int
  refs : List UInt32
  deriving DecidableEq, Repr

namespace WordPool

def new (total : Nat) : WordPool := ⟨(List.range total).map toInt32, List.replicate total 0⟩

def total (pool : WordPool) : Nat := pool.refs.length

def freeBlocks (pool : WordPool) : Nat := pool.free.length

/-- The id is an index of `refs`. -/
def Valid (pool : WordPool) (id : Int) : Prop := 0 ≤ id ∧ id < pool.total

instance (pool : WordPool) (id : Int) : Decidable (pool.Valid id) :=
  inferInstanceAs (Decidable (_ ∧ _))

def refcount (pool : WordPool) (id : Int) : Nat :=
  if pool.Valid id then (pool.refs.getD id.toNat 0).toNat else 0

/-- The loop of `allocate`. An id that is no index would be written out of bounds;
nothing is said about what happens then. -/
def allocateLoop : Nat → WordPool → List Int → Option (List Int × WordPool)
  | 0, pool, out => some (out, pool)
  | n + 1, pool, out =>
      match pool.free with
      | [] => none
      | id :: rest =>
          if pool.Valid id then
            allocateLoop n ⟨rest, pool.refs.set id.toNat 1⟩ (out ++ [id])
          else none

/-- All `n` pages or none. -/
def allocate (pool : WordPool) (n : Nat) : Option (List Int × WordPool) :=
  if pool.free.length < n then some ([], pool) else allocateLoop n pool []

/-- A reference to the id is one to a page that someone holds. -/
def Held (pool : WordPool) (id : Int) : Prop :=
  pool.Valid id ∧ pool.refs.getD id.toNat 0 ≠ 0

instance (pool : WordPool) (id : Int) : Decidable (pool.Held id) :=
  inferInstanceAs (Decidable (_ ∧ _))

def refOne (pool : WordPool) (id : Int) : WordPool :=
  if pool.Held id then
    { pool with refs := pool.refs.set id.toNat (pool.refs.getD id.toNat 0 + 1) }
  else pool

def ref (pool : WordPool) (blocks : List Int) : WordPool := blocks.foldl refOne pool

def releaseOne (pool : WordPool) (id : Int) : WordPool :=
  if pool.Held id then
    let r := pool.refs.getD id.toNat 0 - 1
    { pool with
      refs := pool.refs.set id.toNat r
      free := if r = 0 then id :: pool.free else pool.free }
  else pool

def release (pool : WordPool) (blocks : List Int) : WordPool := blocks.foldl releaseOne pool

/-! ## What one id does to the counts -/

section Counts

variable {pool : WordPool}

theorem held_iff (pool : WordPool) (id : Int) : pool.Held id ↔ pool.refcount id ≠ 0 := by
  unfold Held refcount
  by_cases hvalid : pool.Valid id
  · rw [if_pos hvalid]
    simp only [hvalid, true_and, ne_eq]
    rw [← UInt32.toNat_inj]
    rfl
  · simp [hvalid]

/-- Writing one count. -/
theorem refcount_set {id : Int} (hvalid : pool.Valid id) (free : List Int) (r : UInt32)
    (other : Int) :
    refcount ⟨free, pool.refs.set id.toNat r⟩ other =
      if other = id then r.toNat else pool.refcount other := by
  have hlow := hvalid.1
  have hbound := hvalid.2
  unfold total at hbound
  have hsame : ∀ other, Valid ⟨free, pool.refs.set id.toNat r⟩ other ↔ pool.Valid other := by
    intro other
    simp [Valid, total]
  unfold refcount
  simp only [hsame, List.getD_eq_getElem?_getD, List.getElem?_set]
  by_cases heq : other = id
  · have hlt : id.toNat < pool.refs.length := by omega
    simp [heq, hvalid, hlt]
  · rw [if_neg heq]
    split
    next hother =>
      have hne : id.toNat ≠ other.toNat := by
        have := hother.1
        omega
      rw [if_neg hne]
    next => rfl

theorem total_set (pool : WordPool) (free : List Int) (i : Nat) (r : UInt32) :
    total ⟨free, pool.refs.set i r⟩ = pool.total :=
  List.length_set

theorem refcount_eq_of_valid {id : Int} (hvalid : pool.Valid id) :
    pool.refcount id = (pool.refs.getD id.toNat 0).toNat :=
  if_pos hvalid

theorem total_refOne (pool : WordPool) (id : Int) : (pool.refOne id).total = pool.total := by
  unfold refOne
  split
  next => exact List.length_set
  next => rfl

theorem free_refOne (pool : WordPool) (id : Int) : (pool.refOne id).free = pool.free := by
  unfold refOne
  split
  next => rfl
  next => rfl

/-- A reference adds one to the count of a held page that does not wrap. -/
theorem refcount_refOne (id : Int) (hwrap : pool.refcount id ≠ 0 → pool.refcount id + 1 < 2 ^ 32)
    (other : Int) :
    (pool.refOne id).refcount other =
      pool.refcount other + if other = id ∧ pool.refcount id ≠ 0 then 1 else 0 := by
  unfold refOne
  split
  next hheld =>
    have hpos := (held_iff pool id).mp hheld
    have hcount := refcount_eq_of_valid hheld.1
    rw [refcount_set hheld.1]
    by_cases heq : other = id
    · have hlt := hwrap hpos
      rw [if_pos heq, if_pos ⟨heq, hpos⟩, heq, UInt32.toNat_add, ← hcount]
      exact Nat.mod_eq_of_lt hlt
    · rw [if_neg heq, if_neg fun h => heq h.1, Nat.add_zero]
  next hheld =>
    rw [held_iff] at hheld
    rw [if_neg fun h => hheld h.2, Nat.add_zero]

/-- The largest count wraps to zero. -/
theorem refcount_refOne_wrap {id : Int} (h : pool.refcount id = 2 ^ 32 - 1) :
    (pool.refOne id).refcount id = 0 := by
  have hheld : pool.Held id := (held_iff pool id).mpr (by omega)
  have hcount := refcount_eq_of_valid hheld.1
  rw [refOne, if_pos hheld, refcount_set hheld.1, if_pos rfl, UInt32.toNat_add, ← hcount, h]
  rfl

/-- Many references to one page. -/
theorem ref_replicate (pool : WordPool) (id : Int) (k : Nat) (hheld : pool.refcount id ≠ 0)
    (hk : pool.refcount id + k < 2 ^ 32) :
    (pool.ref (List.replicate k id)).refcount id = pool.refcount id + k ∧
      (pool.ref (List.replicate k id)).total = pool.total ∧
      (pool.ref (List.replicate k id)).free = pool.free := by
  induction k generalizing pool with
  | zero => exact ⟨rfl, rfl, rfl⟩
  | succ k ih =>
      have hone := @refcount_refOne pool id (fun _ => by omega) id
      rw [if_pos ⟨rfl, hheld⟩] at hone
      obtain ⟨hcount, htotal, hfree⟩ := ih (pool.refOne id) (by omega) (by omega)
      rw [List.replicate_succ, ref, List.foldl_cons, ← ref]
      refine ⟨?_, htotal.trans (total_refOne pool id), hfree.trans (free_refOne pool id)⟩
      omega

/-- No count goes over the largest 32-bit number when the ids are referenced. -/
def Fits (pool : WordPool) (blocks : List Int) : Prop :=
  ∀ id, pool.refcount id ≠ 0 → pool.refcount id + blocks.count id < 2 ^ 32

theorem Fits.head {id : Int} {blocks : List Int} (h : pool.Fits (id :: blocks)) :
    pool.refcount id ≠ 0 → pool.refcount id + 1 < 2 ^ 32 := by
  intro hpos
  have hsum := h id hpos
  rw [List.count_cons_self] at hsum
  omega

theorem Fits.tail {id : Int} {blocks : List Int} (h : pool.Fits (id :: blocks)) :
    (pool.refOne id).Fits blocks := by
  intro other hpos
  have hcount := refcount_refOne id h.head other
  have hother := h other
  rw [List.count_cons] at hother
  -- only the head of the list moved, and only if it was held
  by_cases heq : other = id
  · subst heq
    simp only [true_and, beq_self_eq_true, if_true] at hcount hother
    split at hcount
    next hheld =>
      have := hother hheld
      omega
    next => omega
  · simp only [heq, false_and, if_false, Nat.add_zero] at hcount
    have := hother (hcount ▸ hpos)
    omega

/-- A release takes one from the count of a held page. -/
theorem refcount_releaseOne (pool : WordPool) (id other : Int) :
    (pool.releaseOne id).refcount other + (if other = id ∧ pool.refcount id ≠ 0 then 1 else 0) =
      pool.refcount other := by
  unfold releaseOne
  split
  next hheld =>
    have hpos := (held_iff pool id).mp hheld
    have hcount := refcount_eq_of_valid hheld.1
    dsimp only
    rw [refcount_set hheld.1]
    by_cases heq : other = id
    · have hsub : (pool.refs.getD id.toNat 0 - 1).toNat = pool.refcount id - 1 := by
        rw [UInt32.toNat_sub_of_le _ _ (by
          rw [UInt32.le_iff_toNat_le, ← hcount]
          exact Nat.one_le_iff_ne_zero.mpr hpos), ← hcount]
        rfl
      rw [if_pos heq, if_pos ⟨heq, hpos⟩, hsub, heq]
      omega
    · rw [if_neg heq, if_neg fun h => heq h.1, Nat.add_zero]
  next hheld =>
    rw [held_iff] at hheld
    rw [if_neg fun h => hheld h.2, Nat.add_zero]

/-- The id is pushed with its last reference. -/
theorem free_releaseOne (pool : WordPool) (id : Int) :
    (pool.releaseOne id).free = if pool.refcount id = 1 then id :: pool.free else pool.free := by
  unfold releaseOne
  split
  next hheld =>
    have hcount := refcount_eq_of_valid hheld.1
    have hlast : pool.refs.getD id.toNat 0 - 1 = 0 ↔ pool.refcount id = 1 := by
      rw [hcount]
      constructor
      · intro hzero
        rw [← UInt32.sub_add_cancel (pool.refs.getD id.toNat 0) 1, hzero]
        rfl
      · intro hone
        rw [UInt32.toNat_inj.mp (hone.trans UInt32.toNat_one.symm)]
        rfl
    simp only [hlast]
  next hheld =>
    rw [held_iff, not_not] at hheld
    rw [hheld, if_neg (by decide)]

end Counts

/-! ## The representation -/

/-- The free list is exactly the pages without a reference, each once. -/
structure Represents (pool : WordPool) : Prop where
  nodup : pool.free.Nodup
  free_iff : ∀ id, id ∈ pool.free ↔ pool.Valid id ∧ pool.refcount id = 0

section Representation

variable {pool : WordPool}

theorem total_releaseOne (pool : WordPool) (id : Int) :
    (pool.releaseOne id).total = pool.total := by
  unfold releaseOne
  split
  next => exact List.length_set
  next => rfl

theorem valid_congr {after : WordPool} (h : after.total = pool.total) (id : Int) :
    after.Valid id ↔ pool.Valid id := by
  unfold Valid
  rw [h]

theorem toInt32_of_lt {n : Nat} (h : n < 2 ^ 31) : toInt32 n = n := by
  unfold toInt32
  rw [Int.bmod_eq_of_le] <;> omega

theorem refcount_new (n : Nat) (id : Int) : (new n).refcount id = 0 := by
  have htotal : (new n).total = n := List.length_replicate
  unfold refcount
  split
  next hvalid =>
    have hlt : id.toNat < n := by
      have := hvalid.1
      have := hvalid.2
      omega
    simp [new, hlt]
  next => rfl

theorem new_represents {n : Nat} (hn : n ≤ 2 ^ 31) : (new n).Represents := by
  have hfree : (new n).free = (List.range n).map Int.ofNat := by
    apply List.map_congr_left
    intro i hi
    exact toInt32_of_lt (Nat.lt_of_lt_of_le (List.mem_range.mp hi) hn)
  have htotal : (new n).total = n := List.length_replicate
  constructor
  · rw [hfree]
    exact List.nodup_range.map fun a b h => Int.ofNat.inj h
  · intro id
    rw [hfree, refcount_new]
    simp only [List.mem_map, List.mem_range, Valid, htotal, and_true]
    constructor
    · rintro ⟨i, hi, rfl⟩
      exact ⟨Int.natCast_nonneg i, Int.ofNat_lt.mpr hi⟩
    · intro h
      exact ⟨id.toNat, by omega, Int.toNat_of_nonneg h.1⟩

/-- A larger pool names some of its pages by negative ids. -/
theorem not_represents_new {n : Nat} (hn : 2 ^ 31 < n) : ¬(new n).Represents := by
  intro h
  have hmem : toInt32 (2 ^ 31) ∈ (new n).free :=
    List.mem_map.mpr ⟨2 ^ 31, List.mem_range.mpr hn, rfl⟩
  exact absurd ((h.free_iff _).mp hmem).1.1 (by decide)

theorem Represents.refOne (h : pool.Represents) (id : Int)
    (hwrap : pool.refcount id ≠ 0 → pool.refcount id + 1 < 2 ^ 32) :
    (pool.refOne id).Represents := by
  constructor
  · rw [free_refOne]
    exact h.nodup
  · intro other
    rw [free_refOne, h.free_iff, valid_congr (total_refOne pool id), refcount_refOne id hwrap]
    by_cases heq : other = id
    · subst heq
      by_cases hzero : pool.refcount other = 0 <;> simp [hzero]
    · simp [heq]

theorem Represents.releaseOne (h : pool.Represents) (id : Int) :
    (pool.releaseOne id).Represents := by
  have hcount := refcount_releaseOne pool id
  constructor
  · rw [free_releaseOne]
    split
    next hlast =>
      refine List.nodup_cons.mpr ⟨?_, h.nodup⟩
      intro hfree
      have := ((h.free_iff id).mp hfree).2
      omega
    next => exact h.nodup
  · intro other
    have hother := hcount other
    have hmem : other ∈ (pool.releaseOne id).free ↔
        other ∈ pool.free ∨ other = id ∧ pool.refcount id = 1 := by
      rw [free_releaseOne]
      split
      next hlast => simp [hlast, or_comm]
      next hmore => simp [hmore]
    rw [hmem, h.free_iff, valid_congr (total_releaseOne pool id)]
    by_cases heq : other = id
    · subst heq
      by_cases hzero : pool.refcount other = 0
      · simp [hzero] at hother ⊢
        simp [hother]
      · have hvalid := ((held_iff pool other).mpr hzero).1
        simp [hzero] at hother
        simp only [hvalid, hzero, true_and, false_or]
        omega
    · simp [heq] at hother ⊢
      simp [hother]

/-- What the loop of `allocate` takes off the free list. -/
theorem allocateLoop_spec {n : Nat} {out : List Int} (h : pool.Represents)
    (hn : n ≤ pool.free.length) :
    ∃ after, allocateLoop n pool out = some (out ++ pool.free.take n, after) ∧
      after.free = pool.free.drop n ∧ after.total = pool.total ∧ after.Represents ∧
      ∀ id, after.refcount id = pool.refcount id + (pool.free.take n).count id := by
  induction n generalizing pool out with
  | zero => exact ⟨pool, by simp [allocateLoop], rfl, rfl, h, by simp⟩
  | succ n ih =>
      obtain ⟨free, refs⟩ := pool
      cases free with
      | nil => simp at hn
      | cons id rest =>
          obtain ⟨hvalid, hzero⟩ := (h.free_iff id).mp List.mem_cons_self
          obtain ⟨hnotin, hnodup⟩ := List.nodup_cons.mp h.nodup
          have hcount : ∀ other, refcount ⟨rest, refs.set id.toNat 1⟩ other =
              refcount ⟨id :: rest, refs⟩ other + if other = id then 1 else 0 := by
            intro other
            rw [refcount_set hvalid]
            by_cases heq : other = id
            · simp [heq, hzero]
            · simp [heq]
          have hnext : Represents ⟨rest, refs.set id.toNat 1⟩ := by
            refine ⟨hnodup, fun other => ?_⟩
            have hother := h.free_iff other
            rw [List.mem_cons] at hother
            rw [hcount, valid_congr (total_set ⟨id :: rest, refs⟩ rest id.toNat 1)]
            by_cases heq : other = id
            · simp [heq, hnotin]
            · simpa [heq] using hother
          obtain ⟨after, hloop, hfree, htotal, hafter, hrefs⟩ :=
            @ih ⟨rest, refs.set id.toNat 1⟩ (out ++ [id]) hnext (by simpa using hn)
          refine ⟨after, ?_, hfree, ?_, hafter, ?_⟩
          · rw [allocateLoop]
            dsimp only
            rw [if_pos hvalid, hloop]
            simp
          · exact htotal.trans (total_set ⟨id :: rest, refs⟩ rest id.toNat 1)
          · intro other
            rw [hrefs, hcount, List.take_succ_cons, List.count_cons]
            by_cases heq : other = id
            · simp [heq]
              omega
            · simp [heq, Ne.symm heq]

/-- The free pages and the referenced ones are all pages. -/
theorem Represents.freeBlocks_add (h : pool.Represents) :
    pool.freeBlocks +
        ((List.range pool.total).filter fun i : Nat => decide (0 < pool.refcount i)).length =
      pool.total := by
  have hperm : pool.free.Perm
      (((List.range pool.total).filter fun i : Nat =>
        !decide (0 < pool.refcount i)).map Int.ofNat) := by
    apply (List.perm_ext_iff_of_nodup h.nodup ?_).mpr
    · intro id
      rw [h.free_iff]
      simp only [List.mem_map, List.mem_filter, List.mem_range, Valid]
      constructor
      · rintro ⟨⟨hlow, hhigh⟩, hzero⟩
        have hcast : ((id.toNat : Nat) : Int) = id := Int.toNat_of_nonneg hlow
        refine ⟨id.toNat, ⟨by omega, ?_⟩, hcast⟩
        simp [hcast, hzero]
      · rintro ⟨i, ⟨hi, hzero⟩, rfl⟩
        refine ⟨⟨Int.natCast_nonneg i, Int.ofNat_lt.mpr hi⟩, ?_⟩
        simpa using hzero
    · exact (List.nodup_range.filter _).map fun a b h => Int.ofNat.inj h
  have hlength := hperm.length_eq
  rw [List.length_map] at hlength
  have hsplit := List.length_eq_length_filter_add
    (l := List.range pool.total) (fun i : Nat => decide (0 < pool.refcount i))
  rw [List.length_range] at hsplit
  unfold freeBlocks
  omega

end Representation

/-- `allocate` hands out the first free pages, or nothing. -/
theorem Represents.allocate {pool : WordPool} (h : pool.Represents) {n : Nat}
    (hn : n ≤ pool.freeBlocks) :
    ∃ after, pool.allocate n = some (pool.free.take n, after) ∧
      after.free = pool.free.drop n ∧ after.total = pool.total ∧ after.Represents ∧
      ∀ id, after.refcount id = pool.refcount id + (pool.free.take n).count id := by
  have henough : ¬pool.free.length < n := Nat.not_lt.mpr hn
  rw [WordPool.allocate, if_neg henough]
  exact allocateLoop_spec h hn

theorem allocate_short {pool : WordPool} {n : Nat} (hn : pool.freeBlocks < n) :
    pool.allocate n = some ([], pool) :=
  if_pos hn

end WordPool

/-! ## Runs -/

/-- A call of the pool, with any list of ids. -/
inductive PoolOp where
  | allocate (n : Nat)
  | ref (blocks : List Int)
  | release (blocks : List Int)
  deriving Repr

/-- The pool with the references it has granted and those it has taken back. -/
structure Ledger where
  pool : WordPool
  granted : Int → Nat
  released : Int → Nat

namespace Ledger

def new (total : Nat) : Ledger := ⟨.new total, fun _ => 0, fun _ => 0⟩

def refOne (l : Ledger) (id : Int) : Ledger :=
  { l with
    pool := l.pool.refOne id
    granted := fun other =>
      l.granted other + if other = id ∧ l.pool.refcount id ≠ 0 then 1 else 0 }

def releaseOne (l : Ledger) (id : Int) : Ledger :=
  { l with
    pool := l.pool.releaseOne id
    released := fun other =>
      l.released other + if other = id ∧ l.pool.refcount id ≠ 0 then 1 else 0 }

def allocate (l : Ledger) (n : Nat) : Option Ledger :=
  (l.pool.allocate n).map fun (out, pool) =>
    { l with pool := pool, granted := fun id => l.granted id + out.count id }

theorem pool_foldl_refOne (l : Ledger) (blocks : List Int) :
    (blocks.foldl refOne l).pool = l.pool.ref blocks := by
  induction blocks generalizing l with
  | nil => rfl
  | cons id blocks ih => exact ih (l.refOne id)

end Ledger

def poolMachine : Machine Ledger PoolOp where
  step l
    | .allocate n => l.allocate n
    | .ref blocks => some (blocks.foldl Ledger.refOne l)
    | .release blocks => some (blocks.foldl Ledger.releaseOne l)

/-- The call makes no count wrap. -/
def NoWrap (l : Ledger) : PoolOp → Prop
  | .ref blocks => l.pool.Fits blocks
  | _ => True

/-- `allocate n` changes nothing and returns nothing, or returns `n` different pages that
had no reference, all of whose earlier references were released. -/
def AllOrNone (l : Ledger) (n : Nat) : Prop :=
  l.pool.freeBlocks < n ∧ l.pool.allocate n = some ([], l.pool) ∨
    n ≤ l.pool.freeBlocks ∧ ∃ out after, l.pool.allocate n = some (out, after) ∧
      out.length = n ∧ out.Nodup ∧
      (∀ id ∈ out, l.pool.refcount id = 0 ∧ l.granted id = l.released id ∧ after.refcount id = 1) ∧
      ∀ id ∉ out, after.refcount id = l.pool.refcount id

/-- What holds of a pool of `n` pages. -/
structure Accounts (n : Nat) (l : Ledger) : Prop where
  total : l.pool.total = n
  represents : l.pool.Represents
  references : ∀ id, l.pool.refcount id + l.released id = l.granted id

section Runs

variable {n : Nat} {l : Ledger}

theorem Accounts.refOne (h : Accounts n l) (id : Int)
    (hwrap : l.pool.refcount id ≠ 0 → l.pool.refcount id + 1 < 2 ^ 32) :
    Accounts n (l.refOne id) where
  total := (WordPool.total_refOne l.pool id).trans h.total
  represents := h.represents.refOne id hwrap
  references other := by
    have hcount := WordPool.refcount_refOne id hwrap other
    have hother := h.references other
    dsimp only [Ledger.refOne]
    omega

theorem Accounts.releaseOne (h : Accounts n l) (id : Int) : Accounts n (l.releaseOne id) where
  total := (WordPool.total_releaseOne l.pool id).trans h.total
  represents := h.represents.releaseOne id
  references other := by
    have hcount := WordPool.refcount_releaseOne l.pool id other
    have hother := h.references other
    dsimp only [Ledger.releaseOne]
    omega

theorem Accounts.ref (h : Accounts n l) {blocks : List Int} (hfits : l.pool.Fits blocks) :
    Accounts n (blocks.foldl Ledger.refOne l) := by
  induction blocks generalizing l with
  | nil => exact h
  | cons id blocks ih => exact ih (h.refOne id hfits.head) hfits.tail

theorem Accounts.release (h : Accounts n l) (blocks : List Int) :
    Accounts n (blocks.foldl Ledger.releaseOne l) := by
  induction blocks generalizing l with
  | nil => exact h
  | cons id blocks ih => exact ih (h.releaseOne id)

theorem Accounts.allocate (h : Accounts n l) (m : Nat) :
    ∃ next, l.allocate m = some next ∧ Accounts n next := by
  unfold Ledger.allocate
  rcases Nat.lt_or_ge l.pool.freeBlocks m with hshort | henough
  · rw [WordPool.allocate_short hshort]
    exact ⟨_, rfl, h.total, h.represents, h.references⟩
  · obtain ⟨after, hout, -, htotal, hafter, hrefs⟩ := h.represents.allocate henough
    rw [hout]
    refine ⟨_, rfl, htotal.trans h.total, hafter, fun id => ?_⟩
    have hold := h.references id
    have hnew := hrefs id
    dsimp only
    omega

theorem Accounts.allOrNone (h : Accounts n l) (m : Nat) : AllOrNone l m := by
  rcases Nat.lt_or_ge l.pool.freeBlocks m with hshort | henough
  · exact Or.inl ⟨hshort, WordPool.allocate_short hshort⟩
  · obtain ⟨after, hout, -, -, -, hrefs⟩ := h.represents.allocate henough
    have hnodup : (l.pool.free.take m).Nodup := h.represents.nodup.take
    refine Or.inr ⟨henough, _, after, hout, ?_, hnodup, ?_, ?_⟩
    · rw [List.length_take]
      exact Nat.min_eq_left henough
    · intro id hid
      have hzero := ((h.represents.free_iff id).mp (List.mem_of_mem_take hid)).2
      have hledger := h.references id
      have hone := hrefs id
      rw [List.count_eq_one_of_mem hnodup hid] at hone
      exact ⟨hzero, by omega, by omega⟩
    · intro id hid
      rw [hrefs id, List.count_eq_zero_of_not_mem hid, Nat.add_zero]

theorem accounts_step (h : Accounts n l) {op : PoolOp} (hwrap : NoWrap l op) :
    ∃ next, poolMachine.step l op = some next ∧ Accounts n next := by
  cases op with
  | allocate m => exact h.allocate m
  | ref blocks => exact ⟨_, rfl, h.ref hwrap⟩
  | release blocks => exact ⟨_, rfl, h.release blocks⟩

theorem accounts_new (hn : n ≤ 2 ^ 31) : Accounts n (.new n) where
  total := List.length_replicate
  represents := WordPool.new_represents hn
  references id := congrArg (· + 0) (WordPool.refcount_new n id)

/-- In every run of calls that wraps no count: the free list is the pages without a
reference, an allocation hands out pages that nobody holds, and the free pages and the
referenced ones are all pages. -/
theorem pool_run (hn : n ≤ 2 ^ 31) {ops : List PoolOp}
    (hwrap : poolMachine.Meets NoWrap (.new n) ops) :
    ∃ l, poolMachine.run (.new n) ops = some l ∧ l.pool.total = n ∧ l.pool.Represents ∧
      (∀ m, AllOrNone l m) ∧
      l.pool.freeBlocks + ((List.range l.pool.total).filter fun i : Nat =>
        decide (0 < l.pool.refcount i)).length = l.pool.total := by
  obtain ⟨l, hrun, hl⟩ := Machine.run_total (fun l op h hallowed => accounts_step h hallowed)
    (accounts_new hn) hwrap
  exact ⟨l, hrun, hl.total, hl.represents, hl.allOrNone, hl.represents.freeBlocks_add⟩

section Demo

/-- Pages are shared, released twice and handed out again; some ids are no pages. -/
def threePages : List PoolOp :=
  [.allocate 2, .ref [0, 0, 5, -1], .release [0, 1, 1, 0, 0], .allocate 2, .release [7]]

theorem pool_run_three_pages :
    ∃ l, poolMachine.run (.new 3) threePages = some l ∧ l.pool.total = 3 ∧ l.pool.Represents ∧
      (∀ m, AllOrNone l m) ∧
      l.pool.freeBlocks + ((List.range l.pool.total).filter fun i : Nat =>
        decide (0 < l.pool.refcount i)).length = l.pool.total := by
  refine pool_run (by decide) ⟨trivial, fun next hnext => ⟨?_, ?_⟩⟩
  · intro id _
    have hpool : next.pool = ⟨[2], [1, 1, 0]⟩ := by
      cases hnext
      rfl
    have hrefs : ∀ i < 3, (([1, 1, 0] : List UInt32).getD i 0).toNat ≤ 1 := by decide
    have hone : next.pool.refcount id ≤ 1 := by
      rw [hpool, WordPool.refcount]
      split
      next hvalid =>
        apply hrefs
        have := hvalid.1
        have : id < 3 := hvalid.2
        omega
      next => decide
    have hcount : ([0, 0, 5, -1] : List Int).count id ≤ 4 := List.count_le_length
    omega
  · intro next _
    exact poolMachine.meets_of_mem (by simp [NoWrap]) next

theorem run_refs_once (k : Nat) :
    ∃ l, poolMachine.run (.new 1) [.allocate 1, .ref (List.replicate k 0), .ref [0]] = some l ∧
      l.pool = (WordPool.ref ⟨[], [1]⟩ (List.replicate k 0)).refOne 0 := by
  refine ⟨_, rfl, ?_⟩
  exact congrArg (WordPool.refOne · 0) (Ledger.pool_foldl_refOne _ _)

/-- A count that wraps to zero leaves a referenced page with the count of a free one, and
a pool of more pages than the id type has names some of them by negative ids. -/
theorem pool_run_fails_wrapped :
    (∃ l, poolMachine.run (.new 1) [.allocate 1, .ref (List.replicate (2 ^ 32 - 2) 0), .ref [0]] =
        some l ∧ ¬l.pool.Represents) ∧
      ¬(WordPool.new (2 ^ 31 + 1)).Represents := by
  constructor
  · obtain ⟨l, hrun, hpool⟩ := run_refs_once (2 ^ 32 - 2)
    refine ⟨l, hrun, fun hrepresents => ?_⟩
    obtain ⟨hcount, htotal, hfree⟩ := WordPool.ref_replicate ⟨[], [1]⟩ 0 (2 ^ 32 - 2) (by decide)
      (by decide)
    have hzero := WordPool.refcount_refOne_wrap (hcount.trans (by decide))
    rw [hpool] at hrepresents
    have hmem := (hrepresents.free_iff 0).mpr ⟨⟨Int.le_refl 0, ?_⟩, hzero⟩
    · rw [WordPool.free_refOne, hfree] at hmem
      cases hmem
    · rw [WordPool.total_refOne, htotal]
      decide
  · exact WordPool.not_represents_new (Nat.lt_succ_self _)

end Demo

end Runs

/-! ## The pool of whole numbers -/

/-- The pool of machine words stands for one of whole numbers. -/
structure Refines (words : WordPool) (pool : BlockPool) : Prop where
  total : pool.total = words.total
  free : words.free = pool.free.map Int.ofNat
  refs : ∀ page : Nat, pool.refs page = words.refcount page

namespace Refines

variable {words : WordPool} {pool : BlockPool}

theorem new {n : Nat} (hn : n ≤ 2 ^ 31) : Refines (.new n) (.new n) where
  total := List.length_replicate.symm
  free := by
    apply List.map_congr_left
    intro i hi
    exact WordPool.toInt32_of_lt (Nat.lt_of_lt_of_le (List.mem_range.mp hi) hn)
  refs page := (WordPool.refcount_new n page).symm

/-- A page that has a reference is one of the pool. -/
theorem held_iff (h : Refines words pool) (page : Nat) :
    (pool.total ≤ page ∨ pool.refs page = 0) ↔ words.refcount page = 0 := by
  rw [h.refs, h.total]
  constructor
  · rintro (hout | hzero)
    · unfold WordPool.refcount
      exact if_neg fun hvalid => absurd (Int.ofNat_lt.mp hvalid.2) (Nat.not_lt.mpr hout)
    · exact hzero
  · exact Or.inr

theorem allocate (h : Refines words pool) (hrepresents : words.Represents) (n : Nat) :
    match pool.allocate n with
    | none => words.allocate n = some ([], words)
    | some (out, after) => ∃ words', words.allocate n = some (out.map Int.ofNat, words') ∧
        Refines words' after := by
  have hlength : words.free.length = pool.free.length := by rw [h.free, List.length_map]
  unfold BlockPool.allocate
  by_cases hshort : pool.free.length < n
  · rw [if_pos hshort]
    exact WordPool.allocate_short (by unfold WordPool.freeBlocks; omega)
  · rw [if_neg hshort]
    obtain ⟨after, hout, hfree, htotal, -, hrefs⟩ :=
      hrepresents.allocate (show n ≤ words.freeBlocks by unfold WordPool.freeBlocks; omega)
    have htake : words.free.take n = (pool.free.take n).map Int.ofNat := by
      rw [h.free, List.map_take]
    have hcount : ∀ page : Nat, ((pool.free.take n).map Int.ofNat).count (page : Int) =
        (pool.free.take n).count page :=
      fun page => List.count_map_of_injective _ Int.ofNat (fun a b h => Int.ofNat.inj h) page
    refine ⟨after, htake ▸ hout, h.total.trans htotal.symm, ?_, ?_⟩
    · rw [hfree, h.free, List.map_drop]
    · intro page
      dsimp only
      rw [hrefs, htake, hcount]
      split
      next hmem =>
        have hfirst : (page : Int) ∈ words.free.take n := by
          rw [htake]
          exact List.mem_map_of_mem hmem
        have hzero := ((hrepresents.free_iff page).mp (List.mem_of_mem_take hfirst)).2
        have hnodup : (pool.free.take n).Nodup := by
          have hwords : (words.free.take n).Nodup := hrepresents.nodup.take
          rw [htake] at hwords
          exact List.Nodup.of_map Int.ofNat hwords
        rw [hzero, List.count_eq_one_of_mem hnodup hmem]
      next hmem => rw [h.refs, List.count_eq_zero_of_not_mem hmem, Nat.add_zero]

theorem refOne (h : Refines words pool) (page : Nat)
    (hwrap : words.refcount page ≠ 0 → words.refcount page + 1 < 2 ^ 32) :
    Refines (words.refOne page) (pool.refOne page) := by
  have hcount := WordPool.refcount_refOne (page : Int) hwrap
  unfold BlockPool.refOne
  split
  next hfree =>
    have hzero := (h.held_iff page).mp hfree
    refine ⟨?_, ?_, ?_⟩
    · rw [WordPool.total_refOne, h.total]
    · rw [WordPool.free_refOne, h.free]
    · intro other
      rw [hcount, if_neg fun hheld => hheld.2 hzero, h.refs, Nat.add_zero]
  next hheld =>
    have hpos : words.refcount page ≠ 0 := fun hzero => hheld ((h.held_iff page).mpr hzero)
    refine ⟨?_, ?_, ?_⟩
    · rw [WordPool.total_refOne, h.total]
    · rw [WordPool.free_refOne, h.free]
    · intro other
      rw [hcount]
      dsimp only
      by_cases heq : other = page
      · subst heq
        rw [Function.update_self, if_pos ⟨rfl, hpos⟩, h.refs]
      · rw [Function.update_of_ne heq, if_neg fun hboth => heq (Int.ofNat.inj hboth.1), h.refs,
          Nat.add_zero]

theorem releaseOne (h : Refines words pool) (page : Nat) :
    Refines (words.releaseOne page) (pool.releaseOne page) := by
  have hcount := WordPool.refcount_releaseOne words page
  unfold BlockPool.releaseOne
  split
  next hfree =>
    have hzero := (h.held_iff page).mp hfree
    have hsame : words.releaseOne page = words := by
      rw [WordPool.releaseOne, if_neg fun hheld => (WordPool.held_iff words page).mp hheld hzero]
    rw [hsame]
    exact h
  next hheld =>
    have hpos : words.refcount page ≠ 0 := fun hzero => hheld ((h.held_iff page).mpr hzero)
    refine ⟨?_, ?_, ?_⟩
    · rw [WordPool.total_releaseOne]
      exact h.total
    · rw [WordPool.free_releaseOne, h.free, h.refs]
      split
      next => rfl
      next => rfl
    · intro other
      have hother := hcount other
      by_cases heq : other = page
      · subst heq
        rw [if_pos ⟨rfl, hpos⟩] at hother
        dsimp only
        rw [Function.update_self, h.refs]
        omega
      · rw [if_neg fun hboth => heq (Int.ofNat.inj hboth.1), Nat.add_zero] at hother
        dsimp only
        rw [Function.update_of_ne heq, h.refs, hother]

theorem ref (h : Refines words pool) {blocks : List Nat}
    (hfits : words.Fits (blocks.map Int.ofNat)) :
    Refines (words.ref (blocks.map Int.ofNat)) (pool.ref blocks) := by
  induction blocks generalizing words pool with
  | nil => exact h
  | cons page blocks ih =>
      rw [List.map_cons] at hfits
      exact ih (h.refOne page hfits.head) hfits.tail

theorem release (h : Refines words pool) (blocks : List Nat) :
    Refines (words.release (blocks.map Int.ofNat)) (pool.release blocks) := by
  induction blocks generalizing words pool with
  | nil => exact h
  | cons page blocks ih => exact ih (h.releaseOne page)

end Refines

end Arcint.Cache
