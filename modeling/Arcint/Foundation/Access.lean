import Mathlib.Data.List.TakeWhile

/-! # Accesses of a block decoder

A decoder that walks a buffer block by block, as the reads and writes it makes.
Accesses that stay inside one block stay, over whole blocks, inside the buffer.
-/

namespace Arcint.Foundation

/-- A byte read from the source, or an element written to the destination. -/
inductive Access where
  | read (offset : Nat)
  | write (index : Nat)
  deriving DecidableEq, Repr

namespace Access

/-- The same access with both pointers moved on. -/
def move (bytes elements : Nat) : Access → Access
  | read offset => read (bytes + offset)
  | write index => write (elements + index)

/-- The access stays in a source of `bytes` and a destination of `elements`. -/
def Within (bytes elements : Nat) : Access → Prop
  | read offset => offset < bytes
  | write index => index < elements

instance (bytes elements : Nat) (a : Access) : Decidable (a.Within bytes elements) :=
  match a with
  | read offset => inferInstanceAs (Decidable (offset < bytes))
  | write index => inferInstanceAs (Decidable (index < elements))

theorem Within.move {bytes elements : Nat} {a : Access} (hwithin : a.Within bytes elements)
    (r w : Nat) : (a.move r w).Within (r + bytes) (w + elements) := by
  cases a with
  | read offset => exact Nat.add_lt_add_left hwithin r
  | write index => exact Nat.add_lt_add_left hwithin w

theorem Within.mono {bytes elements bytes' elements' : Nat} {a : Access}
    (hwithin : a.Within bytes elements) (hbytes : bytes ≤ bytes')
    (helements : elements ≤ elements') : a.Within bytes' elements' := by
  cases a with
  | read offset => exact Nat.lt_of_lt_of_le hwithin hbytes
  | write index => exact Nat.lt_of_lt_of_le hwithin helements

end Access

/-! ## Blocks -/

/-- The accesses of one block, made for every block in a list. -/
def overBlocks (bytes elements : Nat) (block : List Access) (blocks : List Nat) : List Access :=
  blocks.flatMap fun b => block.map (Access.move (b * bytes) (b * elements))

theorem overBlocks_within {bytes elements count : Nat} {block : List Access} {blocks : List Nat}
    (hblock : ∀ a ∈ block, a.Within bytes elements) (hblocks : ∀ b ∈ blocks, b < count) :
    ∀ a ∈ overBlocks bytes elements block blocks,
      a.Within (count * bytes) (count * elements) := by
  intro a hmem
  obtain ⟨b, hb, ha⟩ := List.mem_flatMap.mp hmem
  obtain ⟨inner, hinner, rfl⟩ := List.mem_map.mp ha
  have hnext : b + 1 ≤ count := hblocks b hb
  apply ((hblock inner hinner).move (b * bytes) (b * elements)).mono
  · rw [← Nat.succ_mul]
    exact Nat.mul_le_mul_right bytes hnext
  · rw [← Nat.succ_mul]
    exact Nat.mul_le_mul_right elements hnext

/-- The indices of the loop `for (b = 0; b * step < n; ++b)`. -/
def indicesBelow (step n : Nat) : List Nat :=
  (List.range n).takeWhile fun b => b * step < n

theorem mem_indicesBelow {step n b : Nat} (hstep : 0 < step) :
    b ∈ indicesBelow step n ↔ b * step < n := by
  constructor
  · intro hmem
    have htest := List.mem_takeWhile_imp hmem
    exact of_decide_eq_true htest
  · intro hlt
    have hle : b + 1 ≤ n := (Nat.le_mul_of_pos_right b hstep).trans_lt hlt
    have hbelow : ∀ c ∈ List.range (b + 1), decide (c * step < n) = true := by
      intro c hc
      have hmul := Nat.mul_le_mul_right step (Nat.lt_succ_iff.mp (List.mem_range.mp hc))
      exact decide_eq_true (hmul.trans_lt hlt)
    obtain ⟨rest, rfl⟩ := Nat.exists_eq_add_of_le hle
    rw [indicesBelow, List.range_add, List.takeWhile_append_of_pos hbelow]
    exact List.mem_append_left _ List.self_mem_range_succ

/-- The last index may stand for a rest. -/
theorem indicesBelow_eq_range {step : Nat} (hstep : 0 < step) (n : Nat) :
    indicesBelow step n = List.range ((n + step - 1) / step) := by
  have hiff : ∀ b, b * step < n ↔ b < (n + step - 1) / step := by
    intro b
    rw [Nat.lt_div_iff_mul_lt hstep]
    omega
  have hle : (n + step - 1) / step ≤ n := by
    rw [← Nat.not_lt, ← hiff, Nat.not_lt]
    exact Nat.le_mul_of_pos_right n hstep
  have hbelow : ∀ b ∈ List.range ((n + step - 1) / step), decide (b * step < n) = true :=
    fun b hb => decide_eq_true ((hiff b).mpr (List.mem_range.mp hb))
  obtain ⟨rest, hrest⟩ := Nat.exists_eq_add_of_le hle
  have hend : ¬(n + step - 1) / step * step < n := by
    rw [hiff]
    exact Nat.lt_irrefl _
  have hcut : List.range n = List.range ((n + step - 1) / step) ++
      (List.range rest).map fun b => (n + step - 1) / step + b := by
    rw [← List.range_add, ← hrest]
  rw [indicesBelow, hcut, List.takeWhile_append_of_pos hbelow]
  cases rest with
  | zero => simp
  | succ rest => simp [List.range_succ_eq_map, hend]

/-- The values of `i` in the loop `for (i = first; i < stop; i += step)`. -/
def strided (first stop step : Nat) : List Nat :=
  (indicesBelow step (stop - first)).map fun b => first + b * step

theorem mem_strided {first stop step i : Nat} (hstep : 0 < step) :
    i ∈ strided first stop step ↔ i < stop ∧ ∃ b, i = first + b * step := by
  rw [strided, List.mem_map]
  constructor
  · rintro ⟨b, hb, rfl⟩
    rw [mem_indicesBelow hstep] at hb
    exact ⟨Nat.add_lt_of_lt_sub' hb, b, rfl⟩
  · rintro ⟨hlt, b, rfl⟩
    refine ⟨b, ?_, rfl⟩
    rw [mem_indicesBelow hstep]
    exact Nat.lt_sub_iff_add_lt'.mpr hlt

theorem lt_of_mem_strided {first stop step i : Nat} (h : i ∈ strided first stop step) :
    i < stop := by
  obtain ⟨b, hb, rfl⟩ := List.mem_map.mp h
  have htest : decide (b * step < stop - first) = true :=
    List.mem_takeWhile_imp (p := fun b => decide (b * step < stop - first)) hb
  exact Nat.add_lt_of_lt_sub' (of_decide_eq_true htest)

/-- Steps of a loop that do `step` indices at a time, the last one what is left. -/
theorem mem_strided_min {first stop step i : Nat} (hstep : 0 < step) :
    (∃ n ∈ strided first stop step, ∃ r < step, r < min step (stop - n) ∧ n + r = i) ↔
      first ≤ i ∧ i < stop := by
  constructor
  · rintro ⟨n, hn, r, -, hr, rfl⟩
    obtain ⟨-, b, rfl⟩ := (mem_strided hstep).mp hn
    have hleft := (Nat.lt_min.mp hr).2
    exact ⟨Nat.le_add_right_of_le (Nat.le_add_right _ _), Nat.add_lt_of_lt_sub' hleft⟩
  · rintro ⟨hfirst, hstop⟩
    have hsplit := Nat.div_add_mod' (i - first) step
    have hmod := Nat.mod_lt (i - first) hstep
    refine ⟨first + (i - first) / step * step, ?_, (i - first) % step, hmod, ?_, by omega⟩
    · exact (mem_strided hstep).mpr ⟨by omega, _, rfl⟩
    · exact Nat.lt_min.mpr ⟨hmod, by omega⟩

theorem lt_div_of_mem_indicesBelow {step n b : Nat} (hdvd : step ∣ n)
    (hmem : b ∈ indicesBelow step n) : b < n / step := by
  have htest := List.mem_takeWhile_imp hmem
  have hlt : b * step < n := of_decide_eq_true htest
  obtain ⟨count, rfl⟩ := hdvd
  have hpos : 0 < step := Nat.pos_of_ne_zero fun hzero => by simp [hzero] at hlt
  rw [Nat.mul_div_cancel_left count hpos]
  rw [Nat.mul_comm] at hlt
  exact Nat.lt_of_mul_lt_mul_left hlt

/-- Without a rest the loop runs over the blocks. -/
theorem indicesBelow_eq {step n : Nat} (hstep : 0 < step) (hdvd : step ∣ n) :
    indicesBelow step n = List.range (n / step) := by
  obtain ⟨count, rfl⟩ := hdvd
  rw [Nat.mul_div_cancel_left count hstep]
  have hle : count ≤ step * count := Nat.le_mul_of_pos_left count hstep
  have hbelow : ∀ b ∈ List.range count, decide (b * step < step * count) = true := by
    intro b hb
    rw [decide_eq_true_iff, Nat.mul_comm step]
    exact Nat.mul_lt_mul_of_pos_right (List.mem_range.mp hb) hstep
  unfold indicesBelow
  obtain ⟨rest, hrest⟩ := Nat.exists_eq_add_of_le hle
  rw [show List.range (step * count) = List.range (count + rest) from congrArg _ hrest,
    List.range_add, List.takeWhile_append_of_pos hbelow]
  cases rest with
  | zero => simp
  | succ rest => simp [List.range_succ_eq_map, Nat.mul_comm]

/-- A loop over blocks that rounds up stays in bounds when nothing is left over. -/
theorem overBlocks_indicesBelow {bytes elements n : Nat} {block : List Access}
    (hblock : ∀ a ∈ block, a.Within bytes elements) (hdvd : elements ∣ n) :
    ∀ a ∈ overBlocks bytes elements block (indicesBelow elements n),
      a.Within (n / elements * bytes) n := by
  have hall := overBlocks_within hblock fun b hb => lt_div_of_mem_indicesBelow hdvd hb
  rw [Nat.div_mul_cancel hdvd] at hall
  exact hall

end Arcint.Foundation
