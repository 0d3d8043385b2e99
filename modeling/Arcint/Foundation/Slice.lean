import Mathlib.Data.List.Basic

/-! # Ranges of a buffer

Reading a range of a buffer, and overwriting one. A range that a write does not
meet keeps its contents; a range inside it takes them from what was written.
-/

namespace Arcint.Foundation

universe u

variable {α : Type u}

/-- The `n` elements from `start` on, fewer at the end of the buffer. -/
def slice (l : List α) (start n : Nat) : List α := (l.drop start).take n

/-- The buffer with the range from `start` on replaced by `xs`. -/
def splice (l : List α) (start : Nat) (xs : List α) : List α :=
  l.take start ++ xs ++ l.drop (start + xs.length)

theorem length_slice_le (l : List α) (start n : Nat) : (slice l start n).length ≤ n :=
  List.length_take_le n (l.drop start)

theorem slice_slice_take (l : List α) (start : Nat) {m n : Nat} (h : m ≤ n) :
    (slice l start n).take m = slice l start m := by
  simp [slice, List.take_take, Nat.min_eq_left h]

theorem getElem?_slice (l : List α) (start n i : Nat) :
    (slice l start n)[i]? = if i < n then l[start + i]? else none := by
  simp [slice, List.getElem?_take, List.getElem?_drop]

theorem slice_eq_map_getD (l : List α) (default : α) {start n : Nat}
    (h : start + n ≤ l.length) :
    slice l start n = (List.range n).map fun i => l.getD (start + i) default := by
  apply List.ext_getElem?
  intro i
  rw [getElem?_slice, List.getElem?_map]
  by_cases hi : i < n
  · have hlt : start + i < l.length := by omega
    simp [hi, hlt]
  · simp [hi]

/-- A range of a range. -/
theorem slice_slice (l : List α) (start n offset m : Nat) (h : offset + m ≤ n) :
    slice (slice l start n) offset m = slice l (start + offset) m := by
  apply List.ext_getElem?
  intro i
  rw [getElem?_slice, getElem?_slice, getElem?_slice]
  split
  next hi =>
    rw [if_pos (by omega)]
    congr 1
    omega
  next => rfl

/-- A range in two parts. -/
theorem slice_add (l : List α) (start m n : Nat) :
    slice l start (m + n) = slice l start m ++ slice l (start + m) n := by
  unfold slice
  rw [List.take_add, List.drop_drop]

theorem take_append_slice (l : List α) (start n : Nat) :
    l.take start ++ slice l start n = l.take (start + n) := by
  unfold slice
  rw [List.take_add]

theorem slice_append_left {l : List α} {start n : Nat} (h : start + n ≤ l.length) (rest : List α) :
    slice (l ++ rest) start n = slice l start n := by
  unfold slice
  rw [List.drop_append_of_le_length (by omega), List.take_append_of_le_length]
  rw [List.length_drop]
  omega

theorem slice_append_right (l rest : List α) (start n : Nat) :
    slice (l ++ rest) (l.length + start) n = slice rest start n := by
  unfold slice
  rw [← List.drop_drop, List.drop_left]

/-- Ranges of one length, one behind the other. -/
theorem flatMap_slices (l : List α) (d count : Nat) :
    ((List.range count).flatMap fun i => slice l (i * d) d) = l.take (count * d) := by
  induction count with
  | zero => simp
  | succ count ih =>
      rw [List.range_succ, List.flatMap_append, ih, List.flatMap_singleton, take_append_slice,
        Nat.succ_mul]

/-- A part of a table of parts of one length. -/
theorem slice_flatMap {β : Type u} {l : List β} {f : β → List α} {d : Nat}
    (hlength : ∀ b ∈ l, (f b).length = d) {i : Nat} {b : β} (hi : l[i]? = some b) :
    slice (l.flatMap f) (i * d) d = f b := by
  induction l generalizing i with
  | nil => simp at hi
  | cons a l ih =>
      have ha := hlength a List.mem_cons_self
      rw [List.flatMap_cons]
      cases i with
      | zero =>
          obtain rfl : a = b := by simpa using hi
          rw [Nat.zero_mul, slice_append_left (by omega), ← ha]
          exact List.take_length
      | succ i =>
          have hbehind : (i + 1) * d = (f a).length + i * d := by
            rw [Nat.succ_mul, ha, Nat.add_comm]
          rw [hbehind, slice_append_right]
          exact ih (fun c hc => hlength c (List.mem_cons_of_mem _ hc)) (by simpa using hi)

theorem slice_of_prefix {l xs : List α} {start : Nat} (h : xs <+: l.drop start) :
    slice l start xs.length = xs :=
  (List.prefix_iff_eq_take.mp h).symm

theorem length_splice (l : List α) (start : Nat) (xs : List α)
    (h : start + xs.length ≤ l.length) : (splice l start xs).length = l.length := by
  simp [splice]
  omega

theorem getElem?_splice (l : List α) (start : Nat) (xs : List α) (i : Nat)
    (h : start + xs.length ≤ l.length) :
    (splice l start xs)[i]? =
      if start ≤ i ∧ i < start + xs.length then xs[i - start]? else l[i]? := by
  have hstart : (l.take start).length = start := by
    simp
    omega
  have hmiddle : (l.take start ++ xs).length = start + xs.length := by
    rw [List.length_append, hstart]
  unfold splice
  rcases Nat.lt_or_ge i start with hlow | hlow
  · rw [if_neg (by omega), List.getElem?_append_left (by omega),
      List.getElem?_append_left (by omega), List.getElem?_take_of_lt hlow]
  · rcases Nat.lt_or_ge i (start + xs.length) with hhigh | hhigh
    · rw [if_pos ⟨hlow, hhigh⟩, List.getElem?_append_left (by omega),
        List.getElem?_append_right (by omega), hstart]
    · rw [if_neg (by omega), List.getElem?_append_right (by omega), hmiddle, List.getElem?_drop]
      congr 1
      omega

theorem take_splice {l : List α} {start : Nat} (xs : List α) (h : start ≤ l.length) :
    (splice l start xs).take (start + xs.length) = l.take start ++ xs := by
  apply List.take_left'
  rw [List.length_append, List.length_take_of_le h]

/-- A range that the write does not meet is unchanged. -/
theorem slice_splice_disjoint (l : List α) (start : Nat) (xs : List α) (from' n : Nat)
    (h : start + xs.length ≤ l.length)
    (hdisjoint : from' + n ≤ start ∨ start + xs.length ≤ from') :
    slice (splice l start xs) from' n = slice l from' n := by
  apply List.ext_getElem?
  intro i
  rw [getElem?_slice, getElem?_slice, getElem?_splice l start xs _ h]
  split
  next hi => rw [if_neg (by omega)]
  next => rfl

/-- The range that was written holds what was written, and what follows it
inside a longer range is unchanged. -/
theorem slice_splice_head (l : List α) (start : Nat) (xs : List α) (n : Nat)
    (h : start + xs.length ≤ l.length) (hn : xs.length ≤ n) :
    slice (splice l start xs) start n = xs ++ slice l (start + xs.length) (n - xs.length) := by
  apply List.ext_getElem?
  intro i
  rw [getElem?_slice, List.getElem?_append, getElem?_slice, getElem?_splice l start xs _ h]
  by_cases hi : i < xs.length
  · rw [if_pos (by omega), if_pos (by omega), if_pos hi]
    congr 1
    omega
  · by_cases hin : i < n
    · rw [if_pos hin, if_neg (by omega), if_neg hi, if_pos (by omega)]
      congr 1
      omega
    · rw [if_neg hin, if_neg hi, if_neg (by omega)]

end Arcint.Foundation
