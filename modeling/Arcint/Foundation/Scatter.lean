import Mathlib.Algebra.BigOperators.Intervals
import Mathlib.Algebra.BigOperators.Ring.Finset
import Mathlib.Data.Set.Card

/-! # Tables filled by writes, and permutations of blocks

Index tables are filled by loops that write one place after the other. A place holds what
the writes to it agree on, and what was there before if there are none. The tables here
move blocks of one length by a permutation of the blocks, between a part before them and a
part behind them that stay.
-/

namespace Arcint.Foundation

/-! ## Writes -/

section Writes

variable {α : Type*} {table : ℕ → α} {writes : List (ℕ × α)} {i : ℕ} {a : α}

/-- The table after the writes, in order. -/
def scatter (table : ℕ → α) (writes : List (ℕ × α)) : ℕ → α :=
  writes.foldl (fun table write => Function.update table write.1 write.2) table

@[simp] theorem scatter_nil (table : ℕ → α) : scatter table [] = table := rfl

theorem scatter_append (table : ℕ → α) (first second : List (ℕ × α)) :
    scatter table (first ++ second) = scatter (scatter table first) second :=
  List.foldl_append

theorem scatter_concat (table : ℕ → α) (writes : List (ℕ × α)) (write : ℕ × α) :
    scatter table (writes ++ [write]) =
      Function.update (scatter table writes) write.1 write.2 :=
  scatter_append table writes [write]

/-- A place no write goes to. -/
theorem scatter_of_forall_ne (h : ∀ write ∈ writes, write.1 ≠ i) :
    scatter table writes i = table i := by
  induction writes using List.reverseRecOn with
  | nil => rfl
  | append_singleton writes write ih =>
      rw [scatter_concat, Function.update_of_ne (h write (by simp)).symm]
      exact ih fun other hother => h other (List.mem_append_left _ hother)

/-- A place the writes agree on. -/
theorem scatter_eq (hwrite : ∃ write ∈ writes, write.1 = i)
    (hagree : ∀ write ∈ writes, write.1 = i → write.2 = a) : scatter table writes i = a := by
  induction writes using List.reverseRecOn with
  | nil => simp at hwrite
  | append_singleton writes write ih =>
      rw [scatter_concat]
      by_cases hlast : write.1 = i
      · rw [hlast, Function.update_self]
        exact hagree write (by simp) hlast
      · rw [Function.update_of_ne (Ne.symm hlast)]
        refine ih ?_ fun other hother => hagree other (List.mem_append_left _ hother)
        obtain ⟨other, hother, hi⟩ := hwrite
        rcases List.mem_append.mp hother with hbefore | hthis
        · exact ⟨other, hbefore, hi⟩
        · exact absurd (List.mem_singleton.mp hthis ▸ hi) hlast

/-- The writes of two nested loops. -/
def nested (outer inner : ℕ) (write : ℕ → ℕ → ℕ × α) : List (ℕ × α) :=
  (List.range outer).flatMap fun h => (List.range inner).map (write h)

@[simp] theorem mem_nested {outer inner : ℕ} {write : ℕ → ℕ → ℕ × α} {w : ℕ × α} :
    w ∈ nested outer inner write ↔ ∃ h < outer, ∃ e < inner, write h e = w := by
  simp [nested]

/-- The writes put `value l` at `first + l` for every `l` below `n`, in whatever order. -/
def FillsRange (writes : List (ℕ × α)) (first n : ℕ) (value : ℕ → α) : Prop :=
  ∀ write, write ∈ writes ↔ ∃ l < n, write = (first + l, value l)

theorem scatter_fillsRange {first n : ℕ} {value : ℕ → α} (h : FillsRange writes first n value)
    (table : ℕ → α) :
    scatter table writes =
      fun i => if first ≤ i ∧ i < first + n then value (i - first) else table i := by
  funext i
  split
  next hin =>
    refine scatter_eq ⟨(i, value (i - first)), ?_, rfl⟩ ?_
    · exact (h _).mpr ⟨i - first, by omega, by rw [Nat.add_sub_cancel' hin.1]⟩
    · intro write hwrite hkey
      obtain ⟨l, -, rfl⟩ := (h _).mp hwrite
      rw [← hkey, Nat.add_sub_cancel_left]
  next hout =>
    refine scatter_of_forall_ne fun write hwrite hkey => hout ?_
    obtain ⟨l, hl, rfl⟩ := (h _).mp hwrite
    dsimp only at hkey
    omega

/-- Two stretches, one behind the other. -/
theorem FillsRange.append {second : List (ℕ × α)} {first m n : ℕ} {value : ℕ → α}
    (h : FillsRange writes first m value)
    (hnext : FillsRange second (first + m) n fun l => value (m + l)) :
    FillsRange (writes ++ second) first (m + n) value := by
  intro write
  rw [List.mem_append, h, hnext]
  constructor
  · rintro (⟨l, hl, rfl⟩ | ⟨l, hl, rfl⟩)
    · exact ⟨l, by omega, rfl⟩
    · exact ⟨m + l, by omega, by rw [Nat.add_assoc]⟩
  · rintro ⟨l, hl, rfl⟩
    rcases Nat.lt_or_ge l m with hlt | hge
    · exact .inl ⟨l, hlt, rfl⟩
    · obtain ⟨k, rfl⟩ := Nat.exists_eq_add_of_le hge
      exact .inr ⟨k, by omega, by rw [Nat.add_assoc]⟩

/-- A loop that fills a table, and a scratch buffer besides. -/
theorem foldl_scatter_snd {β γ : Type*} {step : β × (ℕ → α) → γ → β × (ℕ → α)}
    {f : γ → List (ℕ × α)} {l : List γ}
    (h : ∀ buffer table, ∀ c ∈ l, (step (buffer, table) c).2 = scatter table (f c))
    (buffer : β) (table : ℕ → α) :
    (l.foldl step (buffer, table)).2 = scatter table (l.flatMap f) := by
  induction l generalizing buffer table with
  | nil => rfl
  | cons c l ih =>
      rw [List.foldl_cons, List.flatMap_cons, scatter_append, ← h buffer table c List.mem_cons_self]
      exact ih (fun buffer table d hd => h buffer table d (List.mem_cons_of_mem _ hd)) _ _

/-- What a place holds depends on the writes to it. -/
theorem scatter_filter (table : ℕ → α) (writes : List (ℕ × α)) (i : ℕ) :
    scatter table (writes.filter fun write => write.1 = i) i = scatter table writes i := by
  induction writes using List.reverseRecOn with
  | nil => rfl
  | append_singleton writes write ih =>
      rw [List.filter_append, scatter_append, scatter_concat]
      by_cases hkey : write.1 = i
      · have hkept : [write].filter (fun write => write.1 = i) = [] ++ [write] := by simp [hkey]
        rw [hkept, scatter_concat, hkey, Function.update_self, Function.update_self]
      · have hdropped : [write].filter (fun write => write.1 = i) = [] := by simp [hkey]
        rw [hdropped, scatter_nil, ih, Function.update_of_ne (Ne.symm hkey)]

/-- The second halves of all groups can come behind all first halves, where no place is in
both. -/
theorem scatter_flatMap_append {β : Type*} {l : List β} {f g : β → List (ℕ × α)}
    (h : ∀ i, (∀ b ∈ l, ∀ write ∈ f b, write.1 ≠ i) ∨ ∀ b ∈ l, ∀ write ∈ g b, write.1 ≠ i)
    (table : ℕ → α) :
    scatter table (l.flatMap fun b => f b ++ g b) =
      scatter (scatter table (l.flatMap f)) (l.flatMap g) := by
  funext i
  have hnone : ∀ k : β → List (ℕ × α), (∀ b ∈ l, ∀ write ∈ k b, write.1 ≠ i) →
      (l.flatMap fun b => (k b).filter fun write => write.1 = i) = [] := by
    intro k hk
    refine List.flatMap_eq_nil_iff.mpr fun b hb => List.filter_eq_nil_iff.mpr fun write hwrite => ?_
    simpa using hk b hb write hwrite
  rw [← scatter_append, ← scatter_filter _ (l.flatMap fun b => f b ++ g b),
    ← scatter_filter _ (l.flatMap f ++ l.flatMap g), List.filter_append, List.filter_flatMap,
    List.filter_flatMap, List.filter_flatMap]
  rcases h i with hf | hg
  · rw [hnone f hf, List.nil_append]
    refine congrArg (scatter table · i) (List.flatMap_congr fun b hb => ?_)
    rw [List.filter_append, List.flatMap_eq_nil_iff.mp (hnone f hf) b hb, List.nil_append]
  · rw [hnone g hg, List.append_nil]
    refine congrArg (scatter table · i) (List.flatMap_congr fun b hb => ?_)
    rw [List.filter_append, List.flatMap_eq_nil_iff.mp (hnone g hg) b hb, List.append_nil]

/-- Against a table that is zero but for its writes, only the written places count. -/
theorem sum_scatter_mul {R : Type*} [CommRing R] {writes : List (ℕ × R)} {n : ℕ}
    (hlt : ∀ write ∈ writes, write.1 < n) (hdistinct : (writes.map Prod.fst).Nodup) (f : ℕ → R) :
    ∑ j ∈ Finset.range n, scatter (fun _ => 0) writes j * f j =
      (writes.map fun write => write.2 * f write.1).sum := by
  induction writes using List.reverseRecOn with
  | nil => simp
  | append_singleton writes write ih =>
      rw [List.map_append, List.nodup_append] at hdistinct
      obtain ⟨hbefore, -, hnew⟩ := hdistinct
      have hzero : scatter (fun _ => 0) writes write.1 = (0 : R) :=
        scatter_of_forall_ne fun other hother =>
          hnew _ (List.mem_map_of_mem hother) _ (by simp)
      have hmem : write.1 ∈ Finset.range n := Finset.mem_range.mpr (hlt write (by simp))
      have hrest : ∑ j ∈ (Finset.range n).erase write.1,
            Function.update (scatter (fun _ => 0) writes) write.1 write.2 j * f j =
          ∑ j ∈ (Finset.range n).erase write.1, scatter (fun _ => 0) writes j * f j :=
        Finset.sum_congr rfl fun j hj => by
          rw [Function.update_of_ne (Finset.ne_of_mem_erase hj)]
      have hold := ih (fun other hother => hlt other (List.mem_append_left _ hother)) hbefore
      rw [← Finset.sum_erase_add _ _ hmem, hzero, zero_mul, add_zero] at hold
      rw [scatter_concat, ← Finset.sum_erase_add _ _ hmem, hrest, hold, Function.update_self]
      simp

end Writes

/-! ## Permutations of the numbers below a bound -/

/-- The numbers below `n`, each once. -/
structure PermutesBelow (n : ℕ) (π : ℕ → ℕ) : Prop where
  lt : ∀ i < n, π i < n
  inj : ∀ i < n, ∀ j < n, π i = π j → i = j

namespace PermutesBelow

variable {n : ℕ} {π : ℕ → ℕ}

theorem mapsTo (h : PermutesBelow n π) :
    Set.MapsTo π (Finset.range n : Finset ℕ) (Finset.range n : Finset ℕ) := by
  intro i hi
  rw [Finset.coe_range] at hi ⊢
  exact h.lt i hi

theorem injOn (h : PermutesBelow n π) : Set.InjOn π (Finset.range n : Finset ℕ) := by
  intro i hi j hj heq
  rw [Finset.coe_range] at hi hj
  exact h.inj i hi j hj heq

/-- Every number below the bound is hit. -/
theorem surj (h : PermutesBelow n π) {j : ℕ} (hj : j < n) : ∃ i < n, π i = j := by
  have hsurj := Finset.surjOn_of_injOn_of_card_le π h.mapsTo h.injOn (Nat.le_refl _)
  have hmem : j ∈ ((Finset.range n : Finset ℕ) : Set ℕ) := by simpa using hj
  obtain ⟨i, hi, heq⟩ := hsurj hmem
  exact ⟨i, by simpa using hi, heq⟩

theorem id (n : ℕ) : PermutesBelow n (fun i => i) := ⟨fun _ h => h, fun _ _ _ _ h => h⟩

/-- A sum over all places, in the permuted order. -/
theorem sum_comp {M : Type*} [AddCommMonoid M] (h : PermutesBelow n π) (f : ℕ → M) :
    ∑ i ∈ Finset.range n, f (π i) = ∑ j ∈ Finset.range n, f j :=
  Finset.sum_nbij π h.mapsTo h.injOn
    (Finset.surjOn_of_injOn_of_card_le π h.mapsTo h.injOn (Nat.le_refl _)) fun _ _ => rfl

/-- What undoes a permutation permutes. -/
theorem of_leftInverse (h : PermutesBelow n π) {ρ : ℕ → ℕ} (hρ : ∀ i < n, ρ (π i) = i) :
    PermutesBelow n ρ := by
  constructor
  · intro j hj
    obtain ⟨i, hi, rfl⟩ := h.surj hj
    rwa [hρ i hi]
  · intro j hj j' hj' heq
    obtain ⟨i, hi, rfl⟩ := h.surj hj
    obtain ⟨i', hi', rfl⟩ := h.surj hj'
    rw [hρ i hi, hρ i' hi'] at heq
    rw [heq]

/-- The permuted list of the numbers below the bound. -/
theorem map_perm (h : PermutesBelow n π) : ((List.range n).map π).Perm (List.range n) := by
  have hnodup : ((List.range n).map π).Nodup :=
    List.Nodup.map_on (fun i hi j hj heq =>
      h.inj i (List.mem_range.mp hi) j (List.mem_range.mp hj) heq) List.nodup_range
  refine (List.perm_ext_iff_of_nodup hnodup List.nodup_range).mpr fun j => ?_
  rw [List.mem_map, List.mem_range]
  constructor
  · rintro ⟨i, hi, rfl⟩
    exact h.lt i (List.mem_range.mp hi)
  · intro hj
    obtain ⟨i, hi, heq⟩ := h.surj hj
    exact ⟨i, List.mem_range.mpr hi, heq⟩

end PermutesBelow

/-- A table that is filled place by place. -/
theorem scatter_permuted {α : Type*} {n g : ℕ} {π : ℕ → ℕ} (h : PermutesBelow n π)
    (table value : ℕ → α) (hg : g < n) :
    scatter table ((List.range n).map fun g => (π g, value g)) (π g) = value g := by
  refine scatter_eq ⟨_, List.mem_map_of_mem (List.mem_range.mpr hg), rfl⟩ ?_
  intro write hwrite hkey
  obtain ⟨g', hg', rfl⟩ := List.mem_map.mp hwrite
  rw [h.inj g' (List.mem_range.mp hg') g hg hkey]

/-! ## Moved blocks -/

/-- There are `count` blocks of length `d` from `first` on: a place in block `h` goes to the
same place in block `π h`, and every other place stays. -/
def moveBlocks (π : ℕ → ℕ) (first count d i : ℕ) : ℕ :=
  if first ≤ i ∧ i < first + count * d then first + π ((i - first) / d) * d + (i - first) % d
  else i

section Blocks

variable {π : ℕ → ℕ} {first count d i : ℕ}

theorem block_lt {h e : ℕ} (hh : h < count) (he : e < d) : h * d + e < count * d := by
  calc h * d + e < h * d + d := Nat.add_lt_add_left he _
    _ = (h + 1) * d := by rw [Nat.succ_mul]
    _ ≤ count * d := Nat.mul_le_mul_right _ hh

theorem block_div {h e : ℕ} (he : e < d) : (h * d + e) / d = h := by
  rw [Nat.mul_comm, Nat.mul_add_div (Nat.zero_lt_of_lt he), Nat.div_eq_of_lt he, Nat.add_zero]

theorem block_mod {h e : ℕ} (he : e < d) : (h * d + e) % d = e := by
  rw [Nat.mul_comm, Nat.mul_add_mod, Nat.mod_eq_of_lt he]

/-- Two places in blocks of one length. -/
theorem block_inj {h h' e e' : ℕ} (he : e < d) (he' : e' < d)
    (heq : h * d + e = h' * d + e') : h = h' ∧ e = e' := by
  constructor
  · rw [← @block_div d h e he, heq, block_div he']
  · rw [← @block_mod d h e he, heq, block_mod he']

/-- The block of a place. -/
theorem exists_block (hi : i < count * d) : ∃ h < count, ∃ e < d, h * d + e = i := by
  have hd : 0 < d := Nat.pos_of_mul_pos_left (Nat.zero_lt_of_lt hi)
  refine ⟨i / d, ?_, i % d, Nat.mod_lt _ hd, ?_⟩
  · exact (Nat.div_lt_iff_lt_mul hd).mpr hi
  · rw [Nat.mul_comm]
    exact Nat.div_add_mod i d

/-- A sum over all places, block after block. -/
theorem sum_blocks {M : Type*} [AddCommMonoid M] (count d : ℕ) (f : ℕ → M) :
    ∑ i ∈ Finset.range (count * d), f i =
      ∑ h ∈ Finset.range count, ∑ e ∈ Finset.range d, f (h * d + e) := by
  induction count with
  | zero => simp
  | succ count ih => rw [Nat.succ_mul, Finset.sum_range_add, ih, Finset.sum_range_succ]

/-- Rows of one width, each place with the value of its row and column. -/
theorem FillsRange.of_grid {α : Type*} {writes : List (ℕ × α)} {value : ℕ → ℕ → α}
    (h : ∀ write, write ∈ writes ↔
      ∃ j < count, ∃ e < d, write = (j * d + e, value j e)) :
    FillsRange writes 0 (count * d) fun i => value (i / d) (i % d) := by
  intro write
  rw [h]
  constructor
  · rintro ⟨j, hj, e, he, rfl⟩
    refine ⟨j * d + e, block_lt hj he, ?_⟩
    dsimp only
    rw [block_div he, block_mod he, Nat.zero_add]
  · rintro ⟨i, hi, rfl⟩
    obtain ⟨j, hj, e, he, rfl⟩ := exists_block hi
    refine ⟨j, hj, e, he, ?_⟩
    dsimp only
    rw [block_div he, block_mod he, Nat.zero_add]

theorem moveBlocks_block {h e : ℕ} (hh : h < count) (he : e < d) :
    moveBlocks π first count d (first + h * d + e) = first + π h * d + e := by
  have hlt := @block_lt count d h e hh he
  have hinside : first + h * d + e - first = h * d + e := by omega
  rw [moveBlocks, if_pos ⟨by omega, by omega⟩, hinside, block_div he, block_mod he,
    Nat.add_assoc]

theorem moveBlocks_outside (h : ¬(first ≤ i ∧ i < first + count * d)) :
    moveBlocks π first count d i = i :=
  if_neg h

/-- The cases of a place: in a block, or in a part that stays. -/
theorem block_or_outside (first count d i : ℕ) :
    (∃ h < count, ∃ e < d, i = first + h * d + e) ∨ ¬(first ≤ i ∧ i < first + count * d) := by
  by_cases hin : first ≤ i ∧ i < first + count * d
  · left
    obtain ⟨h, hh, e, he, heq⟩ := @exists_block count d (i - first) (by omega)
    exact ⟨h, hh, e, he, by omega⟩
  · exact .inr hin

theorem moveBlocks_id (first count d i : ℕ) : moveBlocks (fun h => h) first count d i = i := by
  rcases block_or_outside first count d i with ⟨h, hh, e, he, rfl⟩ | hout
  · exact moveBlocks_block hh he
  · exact moveBlocks_outside hout

/-- Only the blocks that there are matter. -/
theorem moveBlocks_congr {ρ : ℕ → ℕ} (h : ∀ j < count, π j = ρ j) (i : ℕ) :
    moveBlocks π first count d i = moveBlocks ρ first count d i := by
  rcases block_or_outside first count d i with ⟨b, hb, e, he, rfl⟩ | hout
  · rw [moveBlocks_block hb he, moveBlocks_block hb he, h b hb]
  · rw [moveBlocks_outside hout, moveBlocks_outside hout]

/-- A table filled block after block with what stands at the sources. -/
theorem scatter_sources {α : Type*} (f : ℕ → α) (table : ℕ → α) (π : ℕ → ℕ) (first count d i : ℕ) :
    scatter table (nested count d fun h e => (first + h * d + e, f (first + π h * d + e))) i =
      if first ≤ i ∧ i < first + count * d then f (moveBlocks π first count d i) else table i := by
  rcases block_or_outside first count d i with ⟨h, hh, e, he, rfl⟩ | hout
  · have hlt := @block_lt count d h e hh he
    rw [if_pos ⟨by omega, by omega⟩, moveBlocks_block hh he]
    refine scatter_eq ⟨_, mem_nested.mpr ⟨h, hh, e, he, rfl⟩, rfl⟩ fun write hwrite hkey => ?_
    obtain ⟨h', hh', e', he', rfl⟩ := mem_nested.mp hwrite
    obtain ⟨hblock, hplace⟩ := @block_inj d h' h e' e he' he (by dsimp only at hkey; omega)
    rw [hblock, hplace]
  · rw [if_neg hout]
    refine scatter_of_forall_ne fun write hwrite heq => hout ?_
    obtain ⟨h, hh, e, he, rfl⟩ := mem_nested.mp hwrite
    have hlt := @block_lt count d h e hh he
    dsimp only at heq
    omega

variable {n : ℕ}

/-- Moving the blocks permutes the places. -/
theorem PermutesBelow.moveBlocks (h : PermutesBelow count π) (hn : first + count * d ≤ n) :
    PermutesBelow n (Foundation.moveBlocks π first count d) := by
  constructor
  · intro i hi
    rcases block_or_outside first count d i with ⟨b, hb, e, he, rfl⟩ | hout
    · rw [moveBlocks_block hb he]
      have hlt := @block_lt count d (π b) e (h.lt b hb) he
      omega
    · rwa [moveBlocks_outside hout]
  · intro i _ j _ heq
    rcases block_or_outside first count d i with ⟨b, hb, e, he, rfl⟩ | hi
    · have hlt := @block_lt count d (π b) e (h.lt b hb) he
      rw [moveBlocks_block hb he] at heq
      rcases block_or_outside first count d j with ⟨b', hb', e', he', rfl⟩ | hj
      · rw [moveBlocks_block hb' he'] at heq
        obtain ⟨hblock, hplace⟩ := @block_inj d (π b) (π b') e e' he he' (by omega)
        rw [h.inj b hb b' hb' hblock, hplace]
      · rw [moveBlocks_outside hj] at heq
        exact absurd ⟨by omega, by omega⟩ hj
    · rw [moveBlocks_outside hi] at heq
      rcases block_or_outside first count d j with ⟨b', hb', e', he', rfl⟩ | hj
      · have hlt := @block_lt count d (π b') e' (h.lt b' hb') he'
        rw [moveBlocks_block hb' he'] at heq
        exact absurd ⟨by omega, by omega⟩ hi
      · rwa [moveBlocks_outside hj] at heq

/-- A permutation that moves blocks whole moves them to where blocks begin. -/
theorem PermutesBelow.aligned (h : PermutesBelow (count * d) π)
    (hwhole : ∀ b < count, ∀ l < d, π (b * d + l) = π (b * d) + l) {b : ℕ} (hb : b < count)
    (hd : 0 < d) : π (b * d) % d = 0 := by
  -- what is moved into the block that begins at `j * d` begins there
  have hstart : ∀ j < count, ∃ b < count, π (b * d) = j * d := by
    intro j
    induction j with
    | zero =>
        intro hj
        obtain ⟨i, hi, hzero⟩ := h.surj (block_lt hj hd)
        obtain ⟨b, hb, l, hl, rfl⟩ := exists_block hi
        rw [hwhole b hb l hl] at hzero
        exact ⟨b, hb, by omega⟩
    | succ j ih =>
        intro hj
        obtain ⟨before, hbefore, hfirst⟩ := ih (Nat.lt_of_succ_lt hj)
        obtain ⟨i, hi, hnext⟩ := h.surj (block_lt hj hd)
        obtain ⟨b, hb, l, hl, rfl⟩ := exists_block hi
        rw [hwhole b hb l hl, Nat.succ_mul] at hnext
        refine ⟨b, hb, ?_⟩
        rcases Nat.eq_zero_or_pos l with rfl | hpos
        · rw [Nat.succ_mul]
          omega
        · -- otherwise it would begin in the block before
          have hshared : π (before * d + (d - l)) = π (b * d + 0) := by
            rw [hwhole before hbefore _ (by omega), hwhole b hb 0 hd, hfirst]
            omega
          have hsame := h.inj _ (block_lt hbefore (by omega)) _ (block_lt hb hd) hshared
          have hplace := (block_inj (by omega) hd hsame).2
          omega
  have hlt : π (b * d) / d < count := by
    have hin := h.lt _ (block_lt hb hd)
    rw [Nat.add_zero] at hin
    exact (Nat.div_lt_iff_lt_mul hd).mpr hin
  obtain ⟨b', hb', hfirst⟩ := hstart _ hlt
  have hrest := Nat.mod_lt (π (b * d)) hd
  have hshared : π (b' * d + π (b * d) % d) = π (b * d + 0) := by
    rw [hwhole b' hb' _ hrest, hfirst, Nat.add_zero]
    exact Nat.div_add_mod' _ _
  have hsame := h.inj _ (block_lt hb' hrest) _ (block_lt hb hd) hshared
  exact (block_inj hrest hd hsame).2

/-- Places that are moved into one block come from one block. -/
theorem PermutesBelow.block_eq (h : PermutesBelow (count * d) π)
    (hwhole : ∀ b < count, ∀ l < d, π (b * d + l) = π (b * d) + l) {i j : ℕ}
    (hi : i < count * d) (hj : j < count * d) (hsame : π i / d = π j / d) : i / d = j / d := by
  have hd : 0 < d := Nat.pos_of_mul_pos_left (Nat.zero_lt_of_lt hi)
  obtain ⟨b, hb, l, hl, rfl⟩ := exists_block hi
  obtain ⟨b', hb', l', hl', rfl⟩ := exists_block hj
  have hfirst := h.aligned hwhole hb hd
  have hfirst' := h.aligned hwhole hb' hd
  obtain ⟨m, hm⟩ := Nat.dvd_of_mod_eq_zero hfirst
  obtain ⟨m', hm'⟩ := Nat.dvd_of_mod_eq_zero hfirst'
  rw [hwhole b hb l hl, hwhole b' hb' l' hl', hm, hm', Nat.mul_comm d, Nat.mul_comm d,
    block_div hl, block_div hl'] at hsame
  have hmoved : π (b * d + 0) = π (b' * d + 0) := by
    rw [Nat.add_zero, Nat.add_zero, hm, hm', hsame]
  have horigin := h.inj _ (block_lt hb hd) _ (block_lt hb' hd) hmoved
  rw [block_div hl, block_div hl', (block_inj hd hd horigin).1]

/-- The table of destinations, filled block after block: it undoes the move. -/
theorem scatter_destinations (h : PermutesBelow count π) {table : ℕ → ℕ} (hi : i < count * d) :
    scatter table (nested count d fun h e => (π h * d + e, h * d + e))
      (moveBlocks π 0 count d i) = i := by
  obtain ⟨b, hb, e, he, rfl⟩ := exists_block hi
  have hmove := @moveBlocks_block π 0 count d b e hb he
  rw [Nat.zero_add, Nat.zero_add] at hmove
  rw [hmove]
  refine scatter_eq ⟨_, mem_nested.mpr ⟨b, hb, e, he, rfl⟩, rfl⟩ fun write hwrite hkey => ?_
  obtain ⟨b', hb', e', he', rfl⟩ := mem_nested.mp hwrite
  obtain ⟨hblock, hplace⟩ := @block_inj d (π b') (π b) e' e he' he hkey
  rw [h.inj b' hb' b hb hblock, hplace]

end Blocks

end Arcint.Foundation
