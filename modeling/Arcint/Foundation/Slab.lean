import Arcint.Foundation.Slice
import Mathlib.Data.List.Induction

/-! # Slabs of a buffer

A buffer is read as slabs of one size. A transfer copies a run of consecutive slabs from one
buffer to another; a list of transfers that agree on where each slab comes from moves the
slabs one by one.
-/

namespace Arcint.Foundation

universe u

variable {α : Type u}

/-- Slab `i` of a buffer of slabs of size `d`. -/
def slab (d : Nat) (l : List α) (i : Nat) : List α := slice l (i * d) d

/-- A run of `count` slabs, from slab `src` of one buffer to slab `dst` of another. -/
structure Transfer where
  src : Nat
  dst : Nat
  count : Nat
  deriving DecidableEq, Repr

namespace Transfer

variable {d : Nat} {source target : List α} {move : Transfer}

/-- The target after the copy. -/
def copy (d : Nat) (source target : List α) (move : Transfer) : List α :=
  splice target (move.dst * d) (slice source (move.src * d) (move.count * d))

/-- The run lies inside both buffers. -/
structure Fits (d : Nat) (source target : List α) (move : Transfer) : Prop where
  source : (move.src + move.count) * d ≤ source.length
  target : (move.dst + move.count) * d ≤ target.length

/-- The slab is written. -/
def Writes (move : Transfer) (i : Nat) : Prop := move.dst ≤ i ∧ i < move.dst + move.count

theorem Fits.length_slice (h : Fits d source target move) :
    (slice source (move.src * d) (move.count * d)).length = move.count * d := by
  have hinside := h.source
  rw [Nat.add_mul] at hinside
  rw [slice, List.length_take_of_le]
  rw [List.length_drop]
  omega

theorem Fits.inside (h : Fits d source target move) :
    move.dst * d + (slice source (move.src * d) (move.count * d)).length ≤ target.length := by
  rw [h.length_slice, ← Nat.add_mul]
  exact h.target

theorem length_copy (h : Fits d source target move) :
    (copy d source target move).length = target.length :=
  length_splice _ _ _ h.inside

/-- The places of slab `i` lie in the run exactly if the slab does. -/
theorem writes_iff {i j : Nat} (hj : j < d) :
    (move.dst * d ≤ i * d + j ∧ i * d + j < move.dst * d + move.count * d) ↔ move.Writes i := by
  have hd : 0 < d := Nat.zero_lt_of_lt hj
  have hslab : (i * d + j) / d = i := by
    rw [Nat.mul_comm, Nat.mul_add_div hd, Nat.div_eq_of_lt hj, Nat.add_zero]
  rw [← Nat.le_div_iff_mul_le hd, ← Nat.add_mul, ← Nat.div_lt_iff_lt_mul hd, hslab]
  exact Iff.rfl

theorem slab_copy_of_writes (h : Fits d source target move) {i : Nat} (hi : move.Writes i) :
    slab d (copy d source target move) i = slab d source (move.src + (i - move.dst)) := by
  apply List.ext_getElem?
  intro j
  unfold slab
  rw [getElem?_slice, getElem?_slice]
  split
  next hj =>
    obtain ⟨hlow, hhigh⟩ := (writes_iff hj).mpr hi
    have hplace : move.src * d + (i * d + j - move.dst * d) =
        (move.src + (i - move.dst)) * d + j := by
      have hsplit : i * d = move.dst * d + (i - move.dst) * d := by
        rw [← Nat.add_mul, Nat.add_sub_cancel' hi.1]
      rw [Nat.add_mul]
      omega
    rw [copy, getElem?_splice _ _ _ _ h.inside, h.length_slice, if_pos ⟨hlow, hhigh⟩,
      getElem?_slice, if_pos (by omega), hplace]
  next => rfl

theorem slab_copy_of_not_writes (h : Fits d source target move) {i : Nat}
    (hi : ¬move.Writes i) : slab d (copy d source target move) i = slab d target i := by
  apply List.ext_getElem?
  intro j
  unfold slab
  rw [getElem?_slice, getElem?_slice]
  split
  next hj =>
    rw [copy, getElem?_splice _ _ _ _ h.inside, h.length_slice,
      if_neg fun hin => hi ((writes_iff hj).mp hin)]
  next => rfl

/-- Transfers that agree on the slab each slab comes from. -/
def Agree (moves : List Transfer) (from' : Nat → Nat) : Prop :=
  ∀ move ∈ moves, ∀ k < move.count, from' (move.dst + k) = move.src + k

/-- Transfers that agree move slab by slab. -/
theorem foldl_copy {moves : List Transfer} {from' : Nat → Nat} (hagree : Agree moves from')
    (hfits : ∀ move ∈ moves, Fits d source target move) :
    (moves.foldl (copy d source) target).length = target.length ∧
      (∀ i, (∃ move ∈ moves, move.Writes i) →
        slab d (moves.foldl (copy d source) target) i = slab d source (from' i)) ∧
      ∀ i, (∀ move ∈ moves, ¬move.Writes i) →
        slab d (moves.foldl (copy d source) target) i = slab d target i := by
  induction moves using List.reverseRecOn with
  | nil =>
      refine ⟨rfl, ?_, fun _ _ => rfl⟩
      rintro i ⟨_, hmove, _⟩
      cases hmove
  | append_singleton moves last ih =>
      obtain ⟨hlength, hwritten, hkept⟩ :=
        ih (fun move hmove => hagree move (List.mem_append_left _ hmove))
          fun move hmove => hfits move (List.mem_append_left _ hmove)
      have hlast : last ∈ moves ++ [last] := by simp
      have hfit := hfits last hlast
      rw [List.foldl_append, List.foldl_cons, List.foldl_nil]
      generalize moves.foldl (copy d source) target = middle at hlength hwritten hkept ⊢
      have hmiddle : Fits d source middle last := ⟨hfit.source, hlength ▸ hfit.target⟩
      refine ⟨(length_copy hmiddle).trans hlength, ?_, ?_⟩
      · rintro i ⟨move, hmove, hwrites⟩
        by_cases hi : last.Writes i
        · have hfrom := hagree last hlast (i - last.dst) (by unfold Writes at hi; omega)
          rw [Nat.add_sub_cancel' hi.1] at hfrom
          rw [slab_copy_of_writes hmiddle hi, hfrom]
        · rw [slab_copy_of_not_writes hmiddle hi]
          refine hwritten i ⟨move, ?_, hwrites⟩
          rcases List.mem_append.mp hmove with hbefore | hthis
          · exact hbefore
          · exact absurd (List.mem_singleton.mp hthis ▸ hwrites) hi
      · intro i hi
        rw [slab_copy_of_not_writes hmiddle (hi last hlast)]
        exact hkept i fun move hmove => hi move (List.mem_append_left _ hmove)

end Transfer

end Arcint.Foundation
