import Arcint.Decode.Schedule
import Arcint.Foundation.Checks

/-! # Which snapshots can be used

A snapshot is stored with the whole pages of its prefix, under a hash of whole blocks, and
a hit on it is discarded when its length is not a whole number of pages. The grids of the
pages, the hash blocks and the chunks come from the compiled model, the command line and
the memory that is left; the snapshot grid is derived from the three.
-/

namespace Arcint.Decode

open Foundation

/-- The options that shape the grids. -/
structure GridConfig where
  kvBlockSize : Int
  prefillChunk : Int
  cacheGrid : Int
  prefixCacheMib : Int
  deriving DecidableEq, Repr

namespace GridConfig

/-- The checks of the command line on these options, in order. -/
def validate (cfg : GridConfig) : Except String Unit := do
  ensure (cfg.kvBlockSize = 16 ∨ cfg.kvBlockSize = 32) "--kv-block-size must be 16 or 32"
  ensure (0 ≤ cfg.cacheGrid ∧ cfg.cacheGrid ≤ 65536)
    ("--cache-grid must be 0 (the chunk) or 1..65536, not " ++ toString cfg.cacheGrid)
  ensure (0 ≤ cfg.prefillChunk) "--prefill-chunk must be >= 0"
  ensure (0 < cfg.prefixCacheMib → cfg.prefillChunk ≠ 0)
    ("prefix caching needs a prefill grid to align to: " ++
      "--prefill-chunk 0 (unchunked) cannot guarantee that a warm run matches a cold one")
  ensure (0 < cfg.prefixCacheMib → 0 < cfg.kvBlockSize ∧ cfg.prefillChunk % cfg.kvBlockSize = 0)
    ("--prefill-chunk (" ++ toString cfg.prefillChunk ++
      ") must be a multiple of --kv-block-size (" ++ toString cfg.kvBlockSize ++
      ") so that cache checkpoints land on prefill boundaries")
  ensure (0 ≤ cfg.prefixCacheMib) "--prefix-cache-mib must be >= 0"

/-- The granularity of the prefix cache. -/
def cacheBlock (cfg : GridConfig) : Nat := max 1 cfg.kvBlockSize.toNat

theorem validate_ok {cfg : GridConfig} (h : cfg.validate = .ok ()) :
    (cfg.kvBlockSize = 16 ∨ cfg.kvBlockSize = 32) ∧ 0 ≤ cfg.cacheGrid := by
  simp only [validate, bind_ok, ensure_ok, exists_const] at h
  exact ⟨h.1, h.2.1.1⟩

end GridConfig

/-- The unit of the snapshot grid: a whole page and a whole hash block. -/
def snapshotUnit (kvBlockTokens : Nat) : Nat := max kvBlockTokens 32

/-- The option rounded up to whole units. -/
def roundedGrid (cfg : GridConfig) (kvBlockTokens : Nat) : Nat :=
  let unit := snapshotUnit kvBlockTokens
  (cfg.cacheGrid.toNat + unit - 1) / unit * unit

/-- `cache_grid_`: the rounded option, and at most the served chunk. -/
def deriveCacheGrid (cfg : GridConfig) (kvBlockTokens : Nat) (prefillChunk : Int) : Nat :=
  if 0 < cfg.cacheGrid ∧ 0 < prefillChunk then
    min (roundedGrid cfg kvBlockTokens) prefillChunk.toNat
  else 0

/-- The grids a request is prefilled on. -/
def servedGrid (cfg : GridConfig) (kvBlockTokens : Nat) (prefillChunk : Int) : PrefillGrid :=
  ⟨prefillChunk, deriveCacheGrid cfg kvBlockTokens prefillChunk, decide (0 < cfg.prefixCacheMib)⟩

/-- What the pool answers a lane with: nothing, or the pages it asked for. -/
abbrev Allocate := (need : Nat) → Option { fresh : List Nat // fresh.length = need }

/-- `ensure_blocks`: the lane's table grows until it covers the tokens, with a page to spare. -/
def ensureBlocks (kvBlockTokens : Nat) (allocate : Allocate) (blocks : List Nat) (tokens : Nat) :
    Option (List Nat) :=
  let want := (tokens + kvBlockTokens - 1) / kvBlockTokens + 1
  if want ≤ blocks.length then some blocks
  else (allocate (want - blocks.length)).map fun fresh => blocks ++ fresh.val

/-- What is handed to the cache behind a forward that ends at `past`: the length of the prefix
and the first pages of the lane's table. `took` tells whether the state was accepted and
serialised. -/
def snapshotOf (grid : PrefillGrid) (kvBlockTokens n : Nat) (took : Nat → Bool) (past : Nat)
    (blocks : List Nat) : Option (Nat × List Nat) :=
  if grid.prefixCache = true ∧ past = grid.snapAt n ∧ took past = true then
    some (past, blocks.take (past / kvBlockTokens))
  else none

/-- The prefixes that the forwards of a prefill store; the pool answers every forward anew, and
the loop ends when it has no pages. -/
def storedPrefixes (grid : PrefillGrid) (kvBlockTokens n : Nat) (took : Nat → Bool)
    (allocate : Nat → Allocate) : List Span → List Nat → List (Nat × List Nat)
  | [], _ => []
  | span :: spans, blocks =>
      let past := span.1 + span.2
      match ensureBlocks kvBlockTokens (allocate past) blocks past with
      | none => []
      | some blocks =>
          (snapshotOf grid kvBlockTokens n took past blocks).toList ++
            storedPrefixes grid kvBlockTokens n took allocate spans blocks

/-- The conditions on a hit under which its pages are mapped. -/
structure HitUsable (kvBlockTokens matched : Nat) (blocks : List Nat) : Prop where
  pos : 0 < matched
  pages : matched % kvBlockTokens = 0
  blocks : blocks.length = matched / kvBlockTokens

theorem snapshotUnit_pos (kvBlockTokens : Nat) : 0 < snapshotUnit kvBlockTokens :=
  Nat.lt_of_lt_of_le (by decide) (Nat.le_max_right _ _)

/-- Rounding up leaves at least one unit. -/
theorem roundedGrid_pos {cfg : GridConfig} (hgrid : 0 < cfg.cacheGrid) (kvBlockTokens : Nat) :
    0 < roundedGrid cfg kvBlockTokens := by
  have hunit := snapshotUnit_pos kvBlockTokens
  exact Nat.mul_pos (Nat.div_pos (by omega) hunit) hunit

section Stored

variable {cfg : GridConfig} {kvBlockTokens : Nat} {allocate : Allocate} {blocks after : List Nat}
  {tokens : Nat}

theorem ensureBlocks_covers (h : ensureBlocks kvBlockTokens allocate blocks tokens = some after) :
    tokens / kvBlockTokens ≤ after.length := by
  have hup : tokens / kvBlockTokens ≤ (tokens + kvBlockTokens - 1) / kvBlockTokens + 1 := by
    rcases Nat.eq_zero_or_pos kvBlockTokens with rfl | hpos
    · simp
    · exact (Nat.div_le_div_right (by omega)).trans (Nat.le_succ _)
  -- the table has enough pages already, or gets the ones it is short of
  unfold ensureBlocks at h
  dsimp only at h
  split at h
  next henough =>
    cases h
    exact hup.trans henough
  next =>
    obtain ⟨fresh, -, rfl⟩ := Option.map_eq_some_iff.mp h
    rw [List.length_append, fresh.property]
    omega

/-- A stored prefix ends at the snapshot point, with the pages that it fills. -/
theorem of_mem_storedPrefixes {grid : PrefillGrid} {n : Nat} {took : Nat → Bool}
    {allocate : Nat → Allocate} {spans : List Span} {stored : Nat × List Nat}
    (h : stored ∈ storedPrefixes grid kvBlockTokens n took allocate spans blocks) :
    (∃ span ∈ spans, stored.1 = span.1 + span.2) ∧ stored.1 = grid.snapAt n ∧
      stored.2.length = stored.1 / kvBlockTokens := by
  induction spans generalizing blocks with
  | nil => cases h
  | cons span spans ih =>
      unfold storedPrefixes at h
      dsimp only at h
      split at h
      next => cases h
      next table htable =>
        rcases List.mem_append.mp h with hhere | hlater
        · rw [Option.mem_toList] at hhere
          unfold snapshotOf at hhere
          split at hhere
          next hsnap =>
            cases hhere
            refine ⟨⟨span, List.mem_cons_self, rfl⟩, hsnap.2.1, ?_⟩
            exact List.length_take_of_le (ensureBlocks_covers htable)
          next => cases hhere
        · obtain ⟨⟨other, hother, hends⟩, hrest⟩ := ih hlater
          exact ⟨⟨other, List.mem_cons_of_mem _ hother, hends⟩, hrest⟩

/-- The snapshot point is a multiple of the snapshot grid. -/
theorem snapshot_dvd_snapAt (grid : PrefillGrid) (n : Nat) : grid.snapshot ∣ grid.snapAt n := by
  unfold PrefillGrid.snapAt
  split
  next => exact Nat.dvd_mul_left _ _
  next => exact Nat.dvd_zero _

/-- The served grid in tokens: whole units when the rounded option fits in the chunk, the
chunk otherwise. -/
theorem servedGrid_snapshot (cfg : GridConfig) (kvBlockTokens : Nat) {chunk : Nat}
    (hchunk : 0 < chunk) :
    (servedGrid cfg kvBlockTokens chunk).snapshot =
      if 0 < cfg.cacheGrid ∧ roundedGrid cfg kvBlockTokens < chunk then
        roundedGrid cfg kvBlockTokens
      else chunk := by
  have hcut : (servedGrid cfg kvBlockTokens chunk).chunk = chunk := by
    unfold PrefillGrid.chunk servedGrid
    exact if_pos (Int.natCast_pos.mpr hchunk)
  have hcache : (servedGrid cfg kvBlockTokens chunk).cacheGrid =
      if 0 < cfg.cacheGrid then min (roundedGrid cfg kvBlockTokens) chunk else 0 := by
    unfold servedGrid deriveCacheGrid
    simp [hchunk]
  unfold PrefillGrid.snapshot
  rw [hcut, hcache]
  by_cases hgrid : 0 < cfg.cacheGrid
  · have hpos := roundedGrid_pos hgrid kvBlockTokens
    rw [if_pos hgrid, if_pos (Nat.lt_min.mpr ⟨hpos, hchunk⟩)]
    split
    next h => exact Nat.min_eq_left h.2.le
    next h => exact Nat.min_eq_right (Nat.le_of_not_lt fun hlt => h ⟨hgrid, hlt⟩)
  · rw [if_neg hgrid, if_neg (Nat.lt_irrefl 0), if_neg fun h => hgrid h.1]

/-- A page divides the snapshot grid when it divides the chunk, or when the rounded option is
the grid. -/
theorem page_dvd_snapshot {chunk : Nat} (hchunk : 0 < chunk)
    (hpage : kvBlockTokens = 16 ∧ 16 ∣ chunk ∨ kvBlockTokens = 32 ∧
      (32 ∣ chunk ∨ 0 < cfg.cacheGrid ∧ roundedGrid cfg 32 < chunk)) :
    kvBlockTokens ∣ (servedGrid cfg kvBlockTokens chunk).snapshot := by
  have hrounded : snapshotUnit kvBlockTokens ∣ roundedGrid cfg kvBlockTokens :=
    Nat.dvd_mul_left _ _
  rw [servedGrid_snapshot cfg kvBlockTokens hchunk]
  rcases hpage with ⟨rfl, hdvd⟩ | ⟨rfl, hdvd⟩
  -- the option's unit is 32 tokens, two of these pages
  · split
    next => exact (by decide : 16 ∣ snapshotUnit 16).trans hrounded
    next => exact hdvd
  · split
    next => exact hrounded
    next hgrid => exact hdvd.resolve_right hgrid

/-- The hash block divides the snapshot grid: the rounded option is a multiple of 32, and the
served chunk is one of the block. -/
theorem block_dvd_snapshot (hblock : cfg.kvBlockSize = 16 ∨ cfg.kvBlockSize = 32)
    (hunit : kvBlockTokens = 16 ∨ kvBlockTokens = 32) {chunk : Nat} (hchunk : 0 < chunk)
    (hdvd : cfg.cacheBlock ∣ chunk) :
    cfg.cacheBlock ∣ (servedGrid cfg kvBlockTokens chunk).snapshot := by
  have hunit : snapshotUnit kvBlockTokens = 32 := by
    rcases hunit with rfl | rfl <;> rfl
  have hrounded : 32 ∣ roundedGrid cfg kvBlockTokens := hunit ▸ Nat.dvd_mul_left _ _
  have hblock32 : cfg.cacheBlock ∣ 32 := by
    unfold GridConfig.cacheBlock
    rcases hblock with h | h <;> rw [h] <;> decide
  rw [servedGrid_snapshot cfg kvBlockTokens hchunk]
  split
  next => exact hblock32.trans hrounded
  next => exact hdvd

end Stored

/-- Every snapshot of a prefill is stored with the whole pages of its prefix, passes the length
rule of `insert`, and is mapped when it is hit. The prefill starts at any `past`, the pool may
run out, and any state may be refused. With pages of 32 tokens the served chunk is one of whole
pages, or the rounded `--cache-grid` fits in it. -/
theorem storedPrefixes_usable {cfg : GridConfig} (hcfg : cfg.validate = .ok ()) {chunk : Nat}
    (hchunk : 0 < chunk) (hblock : cfg.cacheBlock ∣ chunk) {kvBlockTokens : Nat}
    (hpage : kvBlockTokens = 16 ∨ kvBlockTokens = 32 ∧
      (32 ∣ chunk ∨ 0 < cfg.cacheGrid ∧ roundedGrid cfg 32 < chunk))
    (n past : Nat) (took : Nat → Bool) (allocate : Nat → Allocate) (blocks : List Nat) :
    let grid := servedGrid cfg kvBlockTokens chunk
    ∀ stored ∈ storedPrefixes grid kvBlockTokens n took allocate (grid.schedule n n past) blocks,
      cfg.cacheBlock ∣ stored.1 ∧ kvBlockTokens ∣ stored.1 ∧ stored.1 < n ∧
        stored.2.length = stored.1 / kvBlockTokens ∧
        HitUsable kvBlockTokens stored.1 stored.2 := by
  intro grid stored hstored
  obtain ⟨hsize, -⟩ := GridConfig.validate_ok hcfg
  obtain ⟨⟨span, hspan, hends⟩, hsnap, hlength⟩ := of_mem_storedPrefixes hstored
  obtain ⟨hlt, htake⟩ := grid.of_mem_schedule hspan
  have hpos : 0 < stored.1 := by
    have htaken := grid.take_pos hlt
    omega
  have hhash : cfg.cacheBlock ∣ grid.snapshot :=
    block_dvd_snapshot hsize (hpage.imp_right And.left) hchunk hblock
  have h16 : 16 ∣ cfg.cacheBlock := by
    unfold GridConfig.cacheBlock
    rcases hsize with h | h <;> rw [h] <;> decide
  have hwhole : kvBlockTokens ∣ grid.snapshot :=
    page_dvd_snapshot hchunk (hpage.imp_left fun h => ⟨h, h16.trans hblock⟩)
  have hgrid : grid.snapshot ∣ stored.1 := hsnap ▸ snapshot_dvd_snapAt grid n
  have hpages : kvBlockTokens ∣ stored.1 := hwhole.trans hgrid
  refine ⟨hhash.trans hgrid, hpages, ?_, hlength, hpos, Nat.mod_eq_zero_of_dvd hpages, hlength⟩
  rw [hsnap]
  exact grid.snapAt_lt (Nat.zero_lt_of_lt hlt)

/-- A pool that never runs out. -/
def plentiful : Nat → Allocate := fun _ need => some ⟨List.range need, List.length_range⟩

/-- A chunk of 48 with the snapshots every 32 tokens: of 70 tokens the first 64 are stored. -/
theorem storedPrefixes_usable_fortyEight :
    let cfg : GridConfig := ⟨16, 48, 20, 1024⟩
    let grid := servedGrid cfg 32 48
    storedPrefixes grid 32 70 (fun _ => true) plentiful (grid.schedule 70 70 0) [] =
        [(64, [0, 1])] ∧ HitUsable 32 64 [0, 1] := by
  refine ⟨by decide, ?_⟩
  exact (@storedPrefixes_usable ⟨16, 48, 20, 1024⟩ (by decide) 48 (by decide) (by decide) 32
    (.inr ⟨rfl, .inr (by decide)⟩) 70 0 (fun _ => true) plentiful [] (64, [0, 1])
    (by decide)).2.2.2.2

/-- Pages of 32 tokens under a chunk of 16: the first 16 of 20 tokens are stored, with no page,
and a hit on them is discarded. -/
theorem storedPrefixes_halfPage :
    let cfg : GridConfig := ⟨16, 16, 0, 1024⟩
    let grid := servedGrid cfg 32 16
    cfg.validate = .ok () ∧
      (16, []) ∈ storedPrefixes grid 32 20 (fun _ => true) plentiful (grid.schedule 20 20 0) [] ∧
      ¬32 ∣ 16 ∧ ¬HitUsable 32 16 [] :=
  ⟨by decide, by decide, by decide, fun h => absurd h.pages (by decide)⟩

end Arcint.Decode
