import Arcint.Foundation.Scatter

/-! # Tables that are edited in place

An edit may read the place it writes, as half a byte is replaced. A place that is edited in one
way only, and no further the second time, holds what the first edit leaves there. Rows that lie
one behind the other are edited apart.
-/

namespace Arcint.Foundation

section Edits

variable {α : Type*} {table : ℕ → α} {edits other : List (ℕ × (α → α))} {f : α → α} {i : ℕ}

/-- The table after the edits, in order. -/
def edited (table : ℕ → α) (edits : List (ℕ × (α → α))) : ℕ → α :=
  edits.foldl (fun table edit => Function.update table edit.1 (edit.2 (table edit.1))) table

/-- Writes, as edits that read nothing. -/
def stores (writes : List (ℕ × α)) : List (ℕ × (α → α)) :=
  writes.map fun write => (write.1, fun _ => write.2)

/-- Some edit goes to the place, and those that do all do the same. -/
structure EditsAt (edits : List (ℕ × (α → α))) (i : ℕ) (f : α → α) : Prop where
  some : ∃ edit ∈ edits, edit.1 = i
  agree : ∀ edit ∈ edits, edit.1 = i → edit.2 = f

theorem edited_concat (table : ℕ → α) (edits : List (ℕ × (α → α))) (edit : ℕ × (α → α)) :
    edited table (edits ++ [edit]) =
      Function.update (edited table edits) edit.1 (edit.2 (edited table edits edit.1)) :=
  List.foldl_append

/-- A place no edit goes to. -/
theorem edited_of_forall_ne (h : ∀ edit ∈ edits, edit.1 ≠ i) : edited table edits i = table i := by
  induction edits using List.reverseRecOn with
  | nil => rfl
  | append_singleton edits edit ih =>
      rw [edited_concat, Function.update_of_ne (h edit (by simp)).symm]
      exact ih fun other hother => h other (List.mem_append_left _ hother)

/-- What every edit keeps, the table keeps. -/
theorem edited_forall {P : α → Prop} (htable : ∀ i, P (table i))
    (hedits : ∀ edit ∈ edits, ∀ a, P a → P (edit.2 a)) (i : ℕ) : P (edited table edits i) := by
  induction edits using List.reverseRecOn generalizing i with
  | nil => exact htable i
  | append_singleton edits edit ih =>
      have hbefore := ih fun other hother => hedits other (List.mem_append_left _ hother)
      rw [edited_concat]
      by_cases hkey : i = edit.1
      · rw [hkey, Function.update_self]
        exact hedits edit (by simp) _ (hbefore _)
      · rw [Function.update_of_ne hkey]
        exact hbefore i

/-- A place that is edited in one way, and no further the second time. -/
theorem EditsAt.edited_eq (h : EditsAt edits i f) (hagain : f (f (table i)) = f (table i)) :
    edited table edits i = f (table i) := by
  induction edits using List.reverseRecOn with
  | nil => simpa using h.some
  | append_singleton edits edit ih =>
      have hbefore := fun other hother => h.agree other (List.mem_append_left [edit] hother)
      rw [edited_concat]
      by_cases hlast : edit.1 = i
      · rw [hlast, Function.update_self, h.agree edit (by simp) hlast]
        by_cases hearlier : ∃ other ∈ edits, other.1 = i
        · rw [ih ⟨hearlier, hbefore⟩, hagain]
        · rw [edited_of_forall_ne fun other hother hkey => hearlier ⟨other, hother, hkey⟩]
      · rw [Function.update_of_ne (Ne.symm hlast)]
        refine ih ⟨?_, hbefore⟩
        obtain ⟨other, hother, hi⟩ := h.some
        rcases List.mem_append.mp hother with hmem | hthis
        · exact ⟨other, hmem, hi⟩
        · exact absurd (List.mem_singleton.mp hthis ▸ hi) hlast

theorem EditsAt.append_left (h : EditsAt edits i f) (hother : ∀ edit ∈ other, edit.1 ≠ i) :
    EditsAt (edits ++ other) i f where
  some := h.some.imp fun _ hedit => ⟨List.mem_append_left _ hedit.1, hedit.2⟩
  agree edit hedit hkey := by
    rcases List.mem_append.mp hedit with hmem | hmem
    · exact h.agree edit hmem hkey
    · exact absurd hkey (hother edit hmem)

theorem EditsAt.append_right (h : EditsAt edits i f) (hother : ∀ edit ∈ other, edit.1 ≠ i) :
    EditsAt (other ++ edits) i f where
  some := h.some.imp fun _ hedit => ⟨List.mem_append_right _ hedit.1, hedit.2⟩
  agree edit hedit hkey := by
    rcases List.mem_append.mp hedit with hmem | hmem
    · exact absurd hkey (hother edit hmem)
    · exact h.agree edit hmem hkey

/-! ## Stores -/

variable {writes : List (ℕ × α)} {a : α}

theorem stores_append (first second : List (ℕ × α)) :
    stores (first ++ second) = stores first ++ stores second := List.map_append

theorem lt_of_mem_stores {n : ℕ} (h : ∀ write ∈ writes, write.1 < n) :
    ∀ edit ∈ stores writes, edit.1 < n := by
  intro edit hedit
  obtain ⟨write, hwrite, rfl⟩ := List.mem_map.mp hedit
  exact h write hwrite

/-- A place the writes agree on. -/
theorem editsAt_stores (hwrite : (i, a) ∈ writes)
    (hagree : ∀ write ∈ writes, write.1 = i → write.2 = a) :
    EditsAt (stores writes) i fun _ => a where
  some := ⟨_, List.mem_map_of_mem hwrite, rfl⟩
  agree edit hedit hkey := by
    obtain ⟨write, hmem, rfl⟩ := List.mem_map.mp hedit
    exact funext fun _ => hagree write hmem hkey

section Ranges

variable {first n : ℕ} {value : ℕ → α} (h : FillsRange writes first n value)

include h

theorem FillsRange.lt : ∀ write ∈ writes, write.1 < first + n := by
  intro write hwrite
  obtain ⟨l, hl, rfl⟩ := (h write).mp hwrite
  exact Nat.add_lt_add_left hl first

theorem FillsRange.congr {value' : ℕ → α} (hvalue : ∀ l < n, value l = value' l) :
    FillsRange writes first n value' := by
  intro write
  rw [h]
  refine exists_congr fun l => and_congr_right fun hl => ?_
  rw [hvalue l hl]

theorem FillsRange.editsAt {l : ℕ} (hl : l < n) :
    EditsAt (stores writes) (first + l) fun _ => value l := by
  refine editsAt_stores ((h _).mpr ⟨l, hl, rfl⟩) fun write hwrite hkey => ?_
  obtain ⟨l', -, rfl⟩ := (h write).mp hwrite
  rw [Nat.add_left_cancel hkey]

end Ranges

/-! ## Blocks -/

/-- Two nested loops, as one. -/
theorem flatMap_blocks {β : Type*} (count d : ℕ) (body : ℕ → ℕ → List β) :
    ((List.range count).flatMap fun b => (List.range d).flatMap (body b)) =
      (List.range (count * d)).flatMap fun g => body (g / d) (g % d) := by
  induction count with
  | zero => simp
  | succ count ih =>
      rw [List.range_succ, List.flatMap_append, ih, Nat.succ_mul, List.range_add,
        List.flatMap_append, List.flatMap_map]
      refine congrArg₂ (· ++ ·) rfl ?_
      rw [List.flatMap_cons, List.flatMap_nil, List.append_nil]
      refine List.flatMap_congr fun s hs => ?_
      have hs := List.mem_range.mp hs
      rw [block_div hs, block_mod hs]

theorem map_blocks {β : Type*} (count d : ℕ) (body : ℕ → ℕ → β) :
    ((List.range count).flatMap fun b => (List.range d).map (body b)) =
      (List.range (count * d)).map fun g => body (g / d) (g % d) := by
  simp only [List.map_eq_flatMap]
  exact flatMap_blocks count d fun b s => [body b s]

variable {count d first : ℕ} {blocks : ℕ → List (ℕ × α)}

/-- Blocks that are filled one behind the other. -/
theorem fillsRange_blocks {value : ℕ → α}
    (h : ∀ b < count, FillsRange (blocks b) (first + b * d) d fun l => value (b * d + l)) :
    FillsRange ((List.range count).flatMap blocks) first (count * d) value := by
  induction count with
  | zero => simp [FillsRange]
  | succ count ih =>
      rw [List.range_succ, List.flatMap_append, Nat.succ_mul]
      refine FillsRange.append (ih fun b hb => h b (Nat.lt_succ_of_lt hb)) ?_
      simpa using h count (Nat.lt_succ_self count)

section Permuted

variable {π : ℕ → ℕ} {value : ℕ → ℕ → α} (hπ : PermutesBelow count π)
  (h : ∀ g < count, FillsRange (blocks g) (π g * d) d (value g))

include hπ h

theorem lt_of_mem_permuted : ∀ write ∈ (List.range count).flatMap blocks, write.1 < count * d := by
  intro write hwrite
  obtain ⟨g, hg, hmem⟩ := List.mem_flatMap.mp hwrite
  have hg := List.mem_range.mp hg
  obtain ⟨l, hl, rfl⟩ := (h g hg write).mp hmem
  exact block_lt (hπ.lt g hg) hl

/-- Blocks that are filled each at its own place. -/
theorem editsAt_permuted {g l : ℕ} (hg : g < count) (hl : l < d) :
    EditsAt (stores ((List.range count).flatMap blocks)) (π g * d + l) fun _ => value g l := by
  refine editsAt_stores ?_ fun write hwrite hkey => ?_
  · exact List.mem_flatMap.mpr ⟨g, List.mem_range.mpr hg, (h g hg _).mpr ⟨l, hl, rfl⟩⟩
  · obtain ⟨g', hg', hmem⟩ := List.mem_flatMap.mp hwrite
    have hg' := List.mem_range.mp hg'
    obtain ⟨l', hl', rfl⟩ := (h g' hg' write).mp hmem
    obtain ⟨hgroup, rfl⟩ := block_inj hl' hl hkey
    rw [hπ.inj g' hg' g hg hgroup]

end Permuted

/-- Single writes, each at its own place. -/
theorem editsAt_map {π : ℕ → ℕ} {value : ℕ → α} (hπ : PermutesBelow count π) {g : ℕ}
    (hg : g < count) :
    EditsAt (stores ((List.range count).map fun g => (π g, value g))) (π g) fun _ => value g := by
  refine editsAt_stores (List.mem_map_of_mem (List.mem_range.mpr hg)) fun write hwrite hkey => ?_
  obtain ⟨g', hg', rfl⟩ := List.mem_map.mp hwrite
  rw [hπ.inj g' (List.mem_range.mp hg') g hg hkey]

/-! ## Rows -/

/-- The edits of rows that lie one behind the other. -/
def rowEdits (size : ℕ) (rows : List ℕ) (edits : ℕ → List (ℕ × (α → α))) :
    List (ℕ × (α → α)) :=
  rows.flatMap fun row => (edits row).map fun edit => (row * size + edit.1, edit.2)

/-- In a row only the edits of the row count. -/
theorem editsAt_rowEdits {size row : ℕ} {rows : List ℕ} {edits : ℕ → List (ℕ × (α → α))}
    (hlt : ∀ row ∈ rows, ∀ edit ∈ edits row, edit.1 < size) (hrow : row ∈ rows) (hi : i < size)
    (h : EditsAt (edits row) i f) : EditsAt (rowEdits size rows edits) (row * size + i) f where
  some := by
    obtain ⟨edit, hmem, rfl⟩ := h.some
    exact ⟨_, List.mem_flatMap.mpr ⟨row, hrow, List.mem_map_of_mem hmem⟩, rfl⟩
  agree edit hmem hkey := by
    obtain ⟨row', hrow', hin⟩ := List.mem_flatMap.mp hmem
    obtain ⟨edit', hedit', rfl⟩ := List.mem_map.mp hin
    obtain ⟨rfl, hplace⟩ := block_inj (hlt row' hrow' edit' hedit') hi hkey
    exact h.agree edit' hedit' hplace

/-- A row of stores to different places, by itself. -/
theorem edited_rowEdits_stores {size row : ℕ} {rows : List ℕ} {writes : ℕ → List (ℕ × α)} {a : α}
    (hlt : ∀ row ∈ rows, ∀ write ∈ writes row, write.1 < size)
    (hdistinct : ((writes row).map Prod.fst).Nodup) (hrow : row ∈ rows) (hi : i < size) :
    edited (fun _ => a) (rowEdits size rows fun row => stores (writes row)) (row * size + i) =
      scatter (fun _ => a) (writes row) i := by
  have hrows : ∀ row ∈ rows, ∀ edit ∈ stores (writes row), edit.1 < size :=
    fun row hrow => lt_of_mem_stores (hlt row hrow)
  by_cases hwrite : ∃ write ∈ writes row, write.1 = i
  · obtain ⟨write, hmem, rfl⟩ := hwrite
    have hagree : ∀ other ∈ writes row, other.1 = write.1 → other.2 = write.2 :=
      fun other hother hkey => congrArg Prod.snd
        (List.inj_on_of_nodup_map hdistinct hother hmem hkey)
    rw [scatter_eq ⟨write, hmem, rfl⟩ hagree]
    exact (editsAt_rowEdits hrows hrow hi (editsAt_stores hmem hagree)).edited_eq rfl
  · rw [scatter_of_forall_ne fun write hmem hkey => hwrite ⟨write, hmem, hkey⟩]
    refine edited_of_forall_ne fun edit hmem hkey => hwrite ?_
    obtain ⟨row', hrow', hin⟩ := List.mem_flatMap.mp hmem
    obtain ⟨edit', hedit', rfl⟩ := List.mem_map.mp hin
    obtain ⟨rfl, hplace⟩ := block_inj (hrows row' hrow' edit' hedit') hi hkey
    obtain ⟨write, hmem', rfl⟩ := List.mem_map.mp hedit'
    exact ⟨write, hmem', hplace⟩

end Edits

end Arcint.Foundation
