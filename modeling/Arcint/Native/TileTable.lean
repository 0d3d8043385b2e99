import Arcint.Foundation.SortBy
import Mathlib.Data.List.TakeWhile

/-! # The tables of the native dispatch

The pairs of a token and an expert that the card computes are written to a table in their order, or
sorted by their expert's slot and cut into tiles, of which every one has the same room.
-/

namespace Arcint.Native.Kernel

open Foundation

structure PerExpertGpuDispatch where
  slotIndex : ℕ
  topkPosition : ℕ
  flatId : ℕ
  deriving DecidableEq, Repr

def pairsTable (dispatches : List PerExpertGpuDispatch) : List ℕ :=
  dispatches.flatMap fun d => [d.slotIndex, d.flatId, d.topkPosition]

/-- The sorted pairs, cut into tiles. A tile takes at least one. -/
def cutTiles (tileM : ℕ) : List PerExpertGpuDispatch → List (List PerExpertGpuDispatch)
  | [] => []
  | d :: rest =>
    let more := (rest.take (tileM - 1)).takeWhile fun e => e.slotIndex = d.slotIndex
    (d :: more) :: cutTiles tileM (rest.drop more.length)
termination_by order => order.length

/-- The slot of a tile, that of its first member. -/
def tileSlot (members : List PerExpertGpuDispatch) : ℕ :=
  (members.head?.map (·.slotIndex)).getD 0

/-- Zeros stand behind the members. -/
def tileEntry (tileM : ℕ) (members : List PerExpertGpuDispatch) : List ℕ :=
  tileSlot members :: members.length ::
    ((members.flatMap fun d => [d.flatId, d.topkPosition]) ++
      List.replicate (2 * (tileM - members.length)) 0)

def tilesTable (tileM : ℕ) (dispatches : List PerExpertGpuDispatch) : List ℕ :=
  (cutTiles tileM (sortBy (·.slotIndex) dispatches)).flatMap (tileEntry tileM)

/-- The shared memory that a table is written to. What stood behind it stays. -/
def writeTable (table : List ℕ) (memory : ℕ → ℕ) (i : ℕ) : ℕ := table.getD i (memory i)

/-! ## What the tables hold -/

section Tables

variable {dispatches : List PerExpertGpuDispatch} {tileM : ℕ} {memory : ℕ → ℕ}

/-- The entries of a table whose rows are of one length. -/
theorem writeTable_row {β : Type} {l : List β} {f : β → List ℕ} {m : ℕ}
    (hlength : ∀ b ∈ l, (f b).length = m) {i : ℕ} {b : β} (hi : l[i]? = some b) {j a : ℕ}
    (hj : (f b)[j]? = some a) : writeTable (l.flatMap f) memory (m * i + j) = a := by
  have hlt : j < m := by
    rw [← hlength b (List.mem_of_getElem? hi)]
    exact (List.getElem?_eq_some_iff.mp hj).1
  rw [writeTable, List.getD_eq_getElem?_getD, getElem?_flatMap_uniform hlength i hlt, hi,
    Option.bind_some, hj, Option.getD_some]

/-- The pair that a row of the table stands for. -/
def pairAt (pairs : ℕ → ℕ) (p : ℕ) : PerExpertGpuDispatch :=
  { slotIndex := pairs (3 * p), topkPosition := pairs (3 * p + 2), flatId := pairs (3 * p + 1) }

theorem map_pairAt :
    (List.range dispatches.length).map (pairAt (writeTable (pairsTable dispatches) memory)) =
      dispatches := by
  refine List.ext_getElem (by simp) fun p _ hp => ?_
  have hlength : ∀ d ∈ dispatches, [d.slotIndex, d.flatId, d.topkPosition].length = 3 :=
    fun _ _ => rfl
  have hd := List.getElem?_eq_getElem hp
  have hslot := @writeTable_row memory _ _ _ 3 hlength p _ hd 0 _ rfl
  have hflat := @writeTable_row memory _ _ _ 3 hlength p _ hd 1 _ rfl
  have htopk := @writeTable_row memory _ _ _ 3 hlength p _ hd 2 _ rfl
  rw [Nat.add_zero] at hslot
  rw [List.getElem_map, List.getElem_range, pairAt, pairsTable, hslot, hflat, htopk]

/-- Every pair has a row of the table. -/
theorem mem_pairAt {d : PerExpertGpuDispatch} :
    d ∈ dispatches ↔ ∃ p < dispatches.length, ∃ t < 1,
      pairAt (writeTable (pairsTable dispatches) memory) p = d := by
  conv_lhs => rw [← @map_pairAt dispatches memory]
  simp

/-- A tile that can be launched. -/
structure IsTile (tileM : ℕ) (members : List PerExpertGpuDispatch) : Prop where
  pos : 1 ≤ members.length
  le : members.length ≤ tileM
  slot : ∀ d ∈ members, d.slotIndex = tileSlot members

theorem isTile_cutTiles (hM : 1 ≤ tileM) (order : List PerExpertGpuDispatch) :
    ∀ members ∈ cutTiles tileM order, IsTile tileM members := by
  induction order using cutTiles.induct tileM with
  | case1 => simp [cutTiles]
  | case2 d rest more ih =>
      intro members hmem
      rw [cutTiles, List.mem_cons] at hmem
      rcases hmem with rfl | hmem
      · constructor
        · exact Nat.le_add_left 1 _
        · have hle := (List.takeWhile_prefix (l := rest.take (tileM - 1))
            fun e => e.slotIndex = d.slotIndex).length_le
          rw [List.length_take] at hle
          simp only [List.length_cons]
          omega
        · intro e he
          rcases List.mem_cons.mp he with rfl | he
          · rfl
          · have hsame : decide (e.slotIndex = d.slotIndex) = true :=
              List.mem_takeWhile_imp
                (p := fun e : PerExpertGpuDispatch => decide (e.slotIndex = d.slotIndex)) he
            exact of_decide_eq_true hsame
      · exact ih members hmem

theorem flatten_cutTiles (order : List PerExpertGpuDispatch) :
    (cutTiles tileM order).flatten = order := by
  induction order using cutTiles.induct tileM with
  | case1 => simp [cutTiles]
  | case2 d rest more ih =>
      have hprefix : more <+: rest :=
        (List.takeWhile_prefix _).trans (List.take_prefix (tileM - 1) rest)
      rw [cutTiles, List.flatten_cons, ih, List.cons_append]
      exact congrArg (d :: ·) (List.prefix_iff_eq_append.mp hprefix)

theorem length_tileEntry {members : List PerExpertGpuDispatch} (h : IsTile tileM members) :
    (tileEntry tileM members).length = 2 + 2 * tileM := by
  have hle := h.le
  simp [tileEntry]
  omega

/-- A member of the tile that a row of the table stands for. -/
def tileMember (tileM : ℕ) (tiles : ℕ → ℕ) (p t : ℕ) : PerExpertGpuDispatch :=
  let tile (i : ℕ) : ℕ := tiles ((2 + 2 * tileM) * p + i)
  { slotIndex := tile 0, topkPosition := tile (3 + 2 * t), flatId := tile (2 + 2 * t) }

def tileCount (tileM : ℕ) (tiles : ℕ → ℕ) (p : ℕ) : ℕ := tiles ((2 + 2 * tileM) * p + 1)

def tileMembers (tileM : ℕ) (tiles : ℕ → ℕ) (p : ℕ) : List PerExpertGpuDispatch :=
  (List.range (tileCount tileM tiles p)).map (tileMember tileM tiles p)

/-- Where the entry of a tile holds its members. -/
theorem tileEntry_member {members : List PerExpertGpuDispatch} {t j : ℕ}
    {d : PerExpertGpuDispatch} (ht : members[t]? = some d) (hj : j < 2) :
    (tileEntry tileM members)[2 + j + 2 * t]? = [d.flatId, d.topkPosition][j]? := by
  have hlt := (List.getElem?_eq_some_iff.mp ht).1
  have hplace : 2 + j + 2 * t = 2 * t + j + 1 + 1 := by omega
  have hlength : (members.flatMap fun d => [d.flatId, d.topkPosition]).length =
      2 * members.length := by
    simp [List.length_flatMap, Nat.mul_comm]
  rw [tileEntry, hplace, List.getElem?_cons_succ, List.getElem?_cons_succ,
    List.getElem?_append_left (by omega),
    getElem?_flatMap_uniform (n := 2) (fun _ _ => rfl) t hj, ht, Option.bind_some]

theorem tileMembers_writeTable {tiles : List (List PerExpertGpuDispatch)}
    (htiles : ∀ members ∈ tiles, IsTile tileM members) {p : ℕ} (hp : p < tiles.length) :
    tileMembers tileM (writeTable (tiles.flatMap (tileEntry tileM)) memory) p = tiles[p] := by
  have htile := htiles _ (List.getElem_mem hp)
  have hlength : ∀ members ∈ tiles, (tileEntry tileM members).length = 2 + 2 * tileM :=
    fun members hmem => length_tileEntry (htiles members hmem)
  have hrow : ∀ j a, (tileEntry tileM tiles[p])[j]? = some a →
      writeTable (tiles.flatMap (tileEntry tileM)) memory ((2 + 2 * tileM) * p + j) = a :=
    fun _ _ hj => writeTable_row hlength (List.getElem?_eq_getElem hp) hj
  refine List.ext_getElem ?_ fun t _ ht => ?_
  · rw [tileMembers, List.length_map, List.length_range]
    exact hrow 1 _ rfl
  have hmember := List.getElem?_eq_getElem ht
  have hflat := hrow (2 + 2 * t) tiles[p][t].flatId (tileEntry_member hmember Nat.two_pos)
  have htopk := hrow (3 + 2 * t) tiles[p][t].topkPosition (tileEntry_member hmember Nat.one_lt_two)
  simp only [tileMembers, tileMember, List.getElem_map, List.getElem_range, hrow 0 _ rfl, hflat,
    htopk, ← htile.slot _ (List.getElem_mem ht)]

theorem tilesTable_length (hM : 1 ≤ tileM) (dispatches : List PerExpertGpuDispatch) :
    (tilesTable tileM dispatches).length =
      (cutTiles tileM (sortBy (·.slotIndex) dispatches)).length * (2 + 2 * tileM) := by
  have htiles := isTile_cutTiles hM (sortBy (·.slotIndex) dispatches)
  rw [tilesTable, List.length_flatMap]
  rw [List.map_congr_left fun members hmem => length_tileEntry (htiles members hmem)]
  simp

theorem tilesTable_members (hM : 1 ≤ tileM) (dispatches : List PerExpertGpuDispatch) :
    let table := tilesTable tileM dispatches
    (List.range (table.length / (2 + 2 * tileM))).map
        (tileMembers tileM (writeTable table memory)) =
      cutTiles tileM (sortBy (·.slotIndex) dispatches) := by
  intro table
  have htiles := isTile_cutTiles hM (sortBy (·.slotIndex) dispatches)
  rw [tilesTable_length hM, Nat.mul_div_cancel _ (Nat.add_pos_left Nat.two_pos _)]
  refine List.ext_getElem (by simp) fun p _ hp => ?_
  rw [List.getElem_map, List.getElem_range]
  exact tileMembers_writeTable htiles hp

theorem tilesTable_isTile (hM : 1 ≤ tileM) {p : ℕ}
    (hp : p < (tilesTable tileM dispatches).length / (2 + 2 * tileM)) :
    IsTile tileM (tileMembers tileM (writeTable (tilesTable tileM dispatches) memory) p) := by
  refine isTile_cutTiles hM (sortBy (·.slotIndex) dispatches) _ ?_
  rw [← tilesTable_members hM]
  exact List.mem_map_of_mem (List.mem_range.mpr hp)

theorem tileCount_bounds (hM : 1 ≤ tileM) {p : ℕ}
    (hp : p < (tilesTable tileM dispatches).length / (2 + 2 * tileM)) :
    1 ≤ tileCount tileM (writeTable (tilesTable tileM dispatches) memory) p ∧
      tileCount tileM (writeTable (tilesTable tileM dispatches) memory) p ≤ tileM := by
  have htile := @tilesTable_isTile dispatches tileM memory hM p hp
  have hlength := htile.pos
  have hle := htile.le
  rw [tileMembers, List.length_map, List.length_range] at hlength hle
  exact ⟨hlength, hle⟩

/-- Grouping keeps every pair, and each once. -/
theorem tilesTable_perm (hM : 1 ≤ tileM) (memory : ℕ → ℕ)
    (dispatches : List PerExpertGpuDispatch) :
    ((List.range ((tilesTable tileM dispatches).length / (2 + 2 * tileM))).flatMap
      (tileMembers tileM (writeTable (tilesTable tileM dispatches) memory))).Perm dispatches := by
  rw [List.flatMap_def, tilesTable_members hM, flatten_cutTiles]
  exact sortBy_perm _ dispatches

theorem mem_tileMember (hM : 1 ≤ tileM) {d : PerExpertGpuDispatch} :
    let tiles := writeTable (tilesTable tileM dispatches) memory
    d ∈ dispatches ↔ ∃ p < (tilesTable tileM dispatches).length / (2 + 2 * tileM),
      ∃ t < tileCount tileM tiles p, tileMember tileM tiles p t = d := by
  intro tiles
  rw [← (tilesTable_perm hM memory dispatches).mem_iff]
  simp [tileMembers, tiles]

end Tables

end Arcint.Native.Kernel
