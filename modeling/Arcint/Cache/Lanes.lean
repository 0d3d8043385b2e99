import Arcint.Cache.PrefixCache
import Arcint.Decode.Prefill
import Arcint.Foundation.Machine

/-! # Lanes over one cache and one pool

The part of `generate_paged` that handles pages, cut where a lane may be suspended:
at every locked operation of the cache and of the pool, at every unlocked read of a
hit's page list, at the host copies, at every forward and where a reference to an
entry is dropped. Any number of lanes take these steps in any order.
-/

namespace Arcint.Cache

open Arcint.Core Foundation

/-- Where a lane stands: what it does next. -/
inductive Pc where
  | idle
  | lookup
  /-- `promote_entry`: allocate, or evict and allocate again. -/
  | promote
  | promoteEvict
  | hostCopy
  | record
  | giveBack
  /-- The size check, the reference and the copy of a hit's page list. -/
  | check
  | ref
  | copy
  | restore
  | unkeep
  /-- The hit goes out of scope, after a restore or without one. -/
  | warm
  | cold
  /-- `ensure_blocks` of the next prefill chunk. -/
  | prefill
  | prefillEvict
  | forward
  | snapshot
  | insert
  /-- `ensure_blocks` of the next decode step. -/
  | decode
  | decodeEvict
  | decodeForward
  /-- `release_lane`. -/
  | release
  | unmap
  deriving DecidableEq, Repr

/-- A lane. `pending` are the pages it has a reference for outside its table: those
of a promotion in flight, those it is about to copy into the table, and those it is
about to insert. `context` are the tokens whose KV the table holds. -/
structure Lane where
  prompt : List Token
  blocks : List Nat
  pending : List Nat
  hit : Option Hit
  hitKeep : Option Nat
  context : List Token
  pc : Pc
  deriving DecidableEq, Repr

namespace Lane

def new : Lane := ⟨[], [], [], none, none, [], .idle⟩

def past (lane : Lane) : Nat := lane.context.length

/-- The lane has a reference to the entry. -/
def keeps (lane : Lane) (id : Nat) : Bool :=
  lane.hit.any (fun hit => hit.entry == id) || lane.hitKeep == some id

/-- The pages a lane has references for. -/
def held (lane : Lane) : List Nat := lane.blocks ++ lane.pending

end Lane

/-- The settings of the load that the page handling reads. -/
structure BackendConfig where
  cache : CacheConfig
  grid : Decode.PrefillGrid
  draftsMax : Nat

namespace BackendConfig

/-- The length of the next prefill chunk. -/
def take (config : BackendConfig) (lane : Lane) : Nat :=
  config.grid.take lane.prompt.length lane.past

end BackendConfig

structure State (n : Nat) where
  cache : PrefixCache
  kv : Nat → Page
  lane : Fin n → Lane

namespace State

variable {n : Nat}

/-- All pages free, no entries; what the pages hold at first is arbitrary. -/
def initial (n total : Nat) (kv : Nat → Page) : State n := ⟨.new total, kv, fun _ => .new⟩

/-- Some lane has a reference to the entry. -/
def held (lane : Fin n → Lane) (id : Nat) : Bool :=
  (List.finRange n).any fun l => (lane l).keeps id

def setLane (s : State n) (l : Fin n) (lane : Lane) : State n :=
  { s with lane := Function.update s.lane l lane }

end State

/-! ## The KV a forward writes -/

/-- The KV of position `i` of a sequence, through a page table. -/
def writeCell (blocks : List Nat) (seq : List Token) (kv : Nat → Page) (i : Nat) : Nat → Page :=
  match blocks[i / kvBlockTokens]? with
  | none => kv
  | some page =>
      Function.update kv page
        (Function.update (kv page) (i % kvBlockTokens) (seq.take (i + 1)))

/-- The KV part of `paged_forward`: positions `[past, past + n)` of the sequence. -/
def writeForward (kv : Nat → Page) (blocks : List Nat) (seq : List Token) (past n : Nat) :
    Nat → Page :=
  (List.range' past n).foldl (writeCell blocks seq) kv

/-- The pages that a forward at `[past, past + n)` writes. -/
def writtenPages (blocks : List Nat) (past n : Nat) : List Nat :=
  (List.range' past n).filterMap fun i => blocks[i / kvBlockTokens]?

/-- `paged_forward` throws when the table is too short. -/
def tableCovers (blocks : List Nat) (tokens : Nat) : Prop :=
  (tokens + kvBlockTokens - 1) / kvBlockTokens ≤ blocks.length

instance (blocks : List Nat) (tokens : Nat) : Decidable (tableCovers blocks tokens) :=
  inferInstanceAs (Decidable (_ ≤ _))

section Writes

variable {kv : Nat → Page} {blocks : List Nat} {seq : List Token} {past : Nat}

theorem writeForward_succ (kv : Nat → Page) (blocks : List Nat) (seq : List Token) (past n : Nat) :
    writeForward kv blocks seq past (n + 1) =
      writeCell blocks seq (writeForward kv blocks seq past n) (past + n) := by
  unfold writeForward
  rw [List.range'_1_concat, List.foldl_append]
  rfl

theorem writeForward_outside {n page : Nat} (hpage : page ∉ writtenPages blocks past n) :
    writeForward kv blocks seq past n page = kv page := by
  induction n with
  | zero => rfl
  | succ n ih =>
      have hlast : blocks[(past + n) / kvBlockTokens]? ≠ some page := by
        intro hsome
        apply hpage
        apply List.mem_filterMap.mpr
        exact ⟨past + n, List.mem_range'_1.mpr ⟨by omega, by omega⟩, hsome⟩
      have hrest : page ∉ writtenPages blocks past n := by
        intro hmem
        apply hpage
        obtain ⟨i, hi, hsome⟩ := List.mem_filterMap.mp hmem
        obtain ⟨hlow, hhigh⟩ := List.mem_range'_1.mp hi
        exact List.mem_filterMap.mpr ⟨i, List.mem_range'_1.mpr ⟨hlow, by omega⟩, hsome⟩
      rw [writeForward_succ, writeCell]
      cases hfound : blocks[(past + n) / kvBlockTokens]? with
      | none => exact ih hrest
      | some found =>
          have hne : page ≠ found := by
            rintro rfl
            exact hlast hfound
          dsimp only
          rw [Function.update_of_ne hne, ih hrest]

theorem lt_length_of_tableCovers {tokens i : Nat} (h : tableCovers blocks tokens)
    (hi : i < tokens) : i / kvBlockTokens < blocks.length := by
  unfold tableCovers kvBlockTokens at *
  omega

/-- A forward through pages that stand once in the table leaves the KV of the whole
sequence there. -/
theorem writeForward_reads {context : List Token} {n : Nat}
    (honce : ∀ i j page, past / kvBlockTokens ≤ i → blocks[i]? = some page →
      blocks[j]? = some page → j = i)
    (hreads : Reads (blocks.map kv) context past)
    (hseq : ∀ i < past, seq.take (i + 1) = context.take (i + 1))
    (hcovers : tableCovers blocks (past + n)) :
    Reads (blocks.map (writeForward kv blocks seq past n)) seq (past + n) := by
  induction n with
  | zero =>
      intro i hi
      rw [hseq i hi]
      exact hreads i hi
  | succ n ih =>
      have hbefore : Reads (blocks.map (writeForward kv blocks seq past n)) seq (past + n) := by
        apply ih
        unfold tableCovers at hcovers ⊢
        exact (Nat.div_le_div_right (by omega)).trans hcovers
      have hlt : (past + n) / kvBlockTokens < blocks.length :=
        lt_length_of_tableCovers hcovers (by omega)
      have hpage := List.getElem?_eq_getElem hlt
      rw [writeForward_succ, writeCell, hpage]
      dsimp only
      intro i hi
      rcases Nat.lt_succ_iff_lt_or_eq.mp (show i < (past + n) + 1 from hi) with hold | rfl
      · -- an earlier position lies on another page, or elsewhere on this one
        obtain ⟨content, hcontent, hcell⟩ := hbefore i hold
        rw [List.getElem?_map] at hcontent ⊢
        obtain ⟨page, hi', rfl⟩ := Option.map_eq_some_iff.mp hcontent
        refine ⟨_, by rw [hi']; rfl, ?_⟩
        by_cases hsame : page = blocks[(past + n) / kvBlockTokens]
        · have hindex := honce _ (i / kvBlockTokens) page
            (Nat.div_le_div_right (by omega)) (hsame ▸ hpage) hi'
          have hoffset : i % kvBlockTokens ≠ (past + n) % kvBlockTokens := by
            unfold kvBlockTokens at hindex ⊢
            omega
          rw [← hsame, Function.update_self, Function.update_of_ne hoffset]
          exact hcell
        · rw [Function.update_of_ne hsame]
          exact hcell
      · rw [List.getElem?_map, hpage]
        exact ⟨_, rfl, by rw [Function.update_self, Function.update_self]⟩

end Writes

/-! ## The steps -/

/-- One atomic step of a lane; the other arguments are what the surroundings answer. -/
inductive Event (n : Nat) where
  | start (l : Fin n) (prompt : List Token)
  | lookup (l : Fin n)
  | allocate (l : Fin n)
  | evict (l : Fin n) (copied : Bool)
  | hostCopy (l : Fin n) (copied : Bool)
  | promote (l : Fin n)
  | giveBack (l : Fin n)
  | check (l : Fin n)
  | ref (l : Fin n)
  | copy (l : Fin n)
  | restore (l : Fin n) (restored : Bool)
  | unkeep (l : Fin n)
  | dropHit (l : Fin n)
  | forward (l : Fin n)
  | snapshot (l : Fin n) (took : Bool)
  | insert (l : Fin n) (bytes : Nat)
  | decodeForward (l : Fin n) (ids : List Token) (accepted : Nat)
  | finish (l : Fin n)
  | unmap (l : Fin n)

namespace State

variable {n : Nat} (config : BackendConfig) (s : State n)

/-- A request begins; nothing of the lane's table survives from the one before. -/
def start (l : Fin n) (prompt : List Token) : Option (State n) :=
  if (s.lane l).pc = .idle ∧ prompt ≠ [] then
    some (s.setLane l
      { s.lane l with prompt := prompt, blocks := [], context := [], pc := .lookup })
  else none

def lookup (l : Fin n) : Option (State n) :=
  let lane := s.lane l
  if lane.pc = .lookup then
    match s.cache.lookup config.cache lane.prompt with
    | (cache, none) => some { s with
        cache := cache
        lane := Function.update s.lane l { lane with hit := none, pc := .cold } }
    | (cache, some hit) => some { s with
        cache := cache
        lane := Function.update s.lane l { lane with
          hit := some hit
          pc := if hit.tiered = true ∧ hit.matched % kvBlockTokens = 0 then .promote
            else .check } }
  else none

/-- The pages `ensure_blocks` wants for a table of `tokens`. -/
def wanted (tokens : Nat) : Nat := (tokens + kvBlockTokens - 1) / kvBlockTokens + 1

/-- `ensure_blocks` up to its eviction: enough pages, or pages from the pool, or an
eviction before the next try. -/
def ensureBlocks (l : Fin n) (tokens : Nat) (covered evict : Pc) : State n :=
  let lane := s.lane l
  if wanted tokens ≤ lane.blocks.length then s.setLane l { lane with pc := covered }
  else
    match s.cache.pool.allocate (wanted tokens - lane.blocks.length) with
    | none => s.setLane l { lane with pc := evict }
    | some (fresh, pool) => { s with
        cache := { s.cache with pool := pool }
        lane := Function.update s.lane l { lane with
          blocks := lane.blocks ++ fresh
          pc := covered } }

/-- The pages of a hit's prefix. -/
def needed (hit : Hit) : Nat := hit.matched / kvBlockTokens

def allocate (l : Fin n) : Option (State n) :=
  let lane := s.lane l
  match lane.pc, lane.hit with
  | .promote, some hit =>
      match s.cache.pool.allocate (needed hit) with
      | none => some (s.setLane l { lane with pc := .promoteEvict })
      | some (pages, pool) => some { s with
          cache := { s.cache with pool := pool }
          lane := Function.update s.lane l { lane with pending := pages, pc := .hostCopy } }
  | .prefill, _ =>
      some (s.ensureBlocks l (lane.past + config.take lane) .forward .prefillEvict)
  | .decode, _ =>
      some (s.ensureBlocks l (lane.past + 1 + config.draftsMax) .decodeForward .decodeEvict)
  | _, _ => none

/-- Where a lane goes on after `evict_oldest`: to the next allocation, or to the end
of what it wanted the pages for. -/
def afterEvict : Pc → Bool → Option Pc
  | .promoteEvict, true => some .promote
  | .promoteEvict, false => some .cold
  | .prefillEvict, true => some .prefill
  | .decodeEvict, true => some .decode
  | .prefillEvict, false => some .release
  | .decodeEvict, false => some .release
  | _, _ => none

def evict (l : Fin n) (copied : Bool) : Option (State n) :=
  let lane := s.lane l
  let (cache, evicted) := s.cache.evictOldest config.cache (held s.lane) s.kv copied
  (afterEvict lane.pc evicted).map fun pc =>
    { s with cache := cache, lane := Function.update s.lane l { lane with pc := pc } }

/-- The host copies of `promote_entry`, from buffers that another promotion may have
cleared. -/
def hostCopy (l : Fin n) (copied : Bool) : Option (State n) :=
  let lane := s.lane l
  match lane.pc, lane.hit with
  | .hostCopy, some hit =>
      match (s.cache.entry hit.entry).hostKv with
      | none => some (s.setLane l { lane with pc := .giveBack })
      | some host =>
          if host.length = needed hit ∧ copied = true then
            some { s with
              kv := copyIn host s.kv lane.pending
              lane := Function.update s.lane l { lane with pc := .record } }
          else some (s.setLane l { lane with pc := .giveBack })
  | _, _ => none

def promote (l : Fin n) : Option (State n) :=
  let lane := s.lane l
  match lane.pc, lane.hit with
  | .record, some hit =>
      match s.cache.promote hit.entry lane.pending with
      | (cache, true) => some { s with
          cache := cache
          lane := Function.update s.lane l { lane with pending := [], pc := .check } }
      | (_, false) => some (s.setLane l { lane with pc := .giveBack })
  | _, _ => none

/-- The pages of a failed promotion go back. -/
def giveBack (l : Fin n) : Option (State n) :=
  let lane := s.lane l
  if lane.pc = .giveBack then
    some { s with
      cache := { s.cache with pool := s.cache.pool.release lane.pending }
      lane := Function.update s.lane l { lane with pending := [], pc := .cold } }
  else none

/-- The size check. -/
def check (l : Fin n) : Option (State n) :=
  let lane := s.lane l
  match lane.pc, lane.hit with
  | .check, some hit =>
      some (s.setLane l { lane with
        pc := if hit.matched % kvBlockTokens = 0 ∧
            (s.cache.entry hit.entry).blocks.length = needed hit then .ref
          else .cold })
  | _, _ => none

/-- `ref` of the hit's page list as it is now. -/
def ref (l : Fin n) : Option (State n) :=
  let lane := s.lane l
  match lane.pc, lane.hit with
  | .ref, some hit =>
      some { s with
        cache := { s.cache with pool := s.cache.pool.ref (s.cache.entry hit.entry).blocks }
        lane := Function.update s.lane l { lane with
          pending := (s.cache.entry hit.entry).blocks
          pc := .copy } }
  | _, _ => none

/-- The copy of the hit's page list as it is now. -/
def copy (l : Fin n) : Option (State n) :=
  let lane := s.lane l
  match lane.pc, lane.hit with
  | .copy, some hit =>
      some (s.setLane l { lane with
        blocks := (s.cache.entry hit.entry).blocks
        pending := []
        hitKeep := some hit.entry
        pc := .restore })
  | _, _ => none

/-- `restore_paged` succeeds, or the lane gives its table back. -/
def restore (l : Fin n) (restored : Bool) : Option (State n) :=
  let lane := s.lane l
  match lane.pc, lane.hit with
  | .restore, some hit =>
      if restored = true then
        some (s.setLane l { lane with context := lane.prompt.take hit.matched, pc := .warm })
      else
        some { s with
          cache := { s.cache with pool := s.cache.pool.release lane.blocks }
          lane := Function.update s.lane l { lane with blocks := [], pc := .unkeep } }
  | _, _ => none

/-- Drop a lane's reference to an entry. -/
def letGo (l : Fin n) (lane : Lane) : Option Nat → State n
  | none => s.setLane l lane
  | some id => { s with
      cache := s.cache.letGo (held (Function.update s.lane l lane)) id
      lane := Function.update s.lane l lane }

def unkeep (l : Fin n) : Option (State n) :=
  let lane := s.lane l
  if lane.pc = .unkeep then
    some (s.letGo l { lane with hitKeep := none, pc := .cold } lane.hitKeep)
  else none

def dropHit (l : Fin n) : Option (State n) :=
  let lane := s.lane l
  if lane.pc = .warm ∨ lane.pc = .cold then
    some (s.letGo l { lane with hit := none, pc := .prefill } (lane.hit.map Hit.entry))
  else none

/-- After a chunk: the next one, or the decode loop. -/
def nextChunk (lane : Lane) : Pc := if lane.past < lane.prompt.length then .prefill else .decode

/-- A prefill forward. -/
def forward (l : Fin n) : Option (State n) :=
  let lane := s.lane l
  let take := config.take lane
  let context := lane.context ++ slice lane.prompt lane.past take
  if lane.pc = .forward ∧ tableCovers lane.blocks (lane.past + take) then
    some { s with
      kv := writeForward s.kv lane.blocks context lane.past take
      lane := Function.update s.lane l { lane with
        context := context
        pc := if lane.past + take = config.grid.snapAt lane.prompt.length then .snapshot
          else nextChunk { lane with context := context } } }
  else none

/-- The prefix's pages, with a reference for the cache. -/
def snapshot (l : Fin n) (took : Bool) : Option (State n) :=
  let lane := s.lane l
  if lane.pc = .snapshot then
    if took = true then
      let kept := lane.blocks.take (lane.past / kvBlockTokens)
      some { s with
        cache := { s.cache with pool := s.cache.pool.ref kept }
        lane := Function.update s.lane l { lane with pending := kept, pc := .insert } }
    else some (s.setLane l { lane with pc := nextChunk lane })
  else none

def insert (l : Fin n) (bytes : Nat) : Option (State n) :=
  let lane := s.lane l
  if lane.pc = .insert then
    some { s with
      cache := s.cache.insert config.cache (held s.lane) lane.prompt lane.past bytes lane.pending
      lane := Function.update s.lane l { lane with pending := [], pc := nextChunk lane } }
  else none

/-- A decode forward over the next token and its drafts, of which `accepted` stay. -/
def decodeForward (l : Fin n) (ids : List Token) (accepted : Nat) : Option (State n) :=
  let lane := s.lane l
  if lane.pc = .decodeForward ∧ ids.length ≤ 1 + config.draftsMax ∧ accepted ≤ ids.length ∧
      tableCovers lane.blocks (lane.past + ids.length) then
    some { s with
      kv := writeForward s.kv lane.blocks (lane.context ++ ids) lane.past ids.length
      lane := Function.update s.lane l { lane with
        context := lane.context ++ ids.take accepted
        pc := .decode } }
  else none

/-- Where a request may end: at a return, or by an exception out of the graph. -/
def mayFinish : Pc → Bool
  | .prefill | .forward | .snapshot | .decode | .decodeForward | .release => true
  | _ => false

/-- `release_lane`: the table goes back. -/
def finish (l : Fin n) : Option (State n) :=
  let lane := s.lane l
  if mayFinish lane.pc = true then
    some { s with
      cache := { s.cache with pool := s.cache.pool.release lane.blocks }
      lane := Function.update s.lane l { lane with blocks := [], context := [], pc := .unmap } }
  else none

/-- `release_lane`: the hit is no longer kept. -/
def unmap (l : Fin n) : Option (State n) :=
  let lane := s.lane l
  if lane.pc = .unmap then
    some (s.letGo l { lane with hitKeep := none, pc := .idle } lane.hitKeep)
  else none

end State

/-- The lanes of a backend; a lane takes the step its place in the code allows. -/
def lanesMachine (n : Nat) (config : BackendConfig) : Machine (State n) (Event n) where
  step s
    | .start l prompt => s.start l prompt
    | .lookup l => s.lookup config l
    | .allocate l => s.allocate config l
    | .evict l copied => s.evict config l copied
    | .hostCopy l copied => s.hostCopy l copied
    | .promote l => s.promote l
    | .giveBack l => s.giveBack l
    | .check l => s.check l
    | .ref l => s.ref l
    | .copy l => s.copy l
    | .restore l restored => s.restore l restored
    | .unkeep l => s.unkeep l
    | .dropHit l => s.dropHit l
    | .forward l => s.forward config l
    | .snapshot l took => s.snapshot l took
    | .insert l bytes => s.insert config l bytes
    | .decodeForward l ids accepted => s.decodeForward config l ids accepted
    | .finish l => s.finish l
    | .unmap l => s.unmap l

/-! ## What should hold of the pages -/

section Properties

variable {n : Nat} (config : BackendConfig) (s : State n)

/-- The references of a page are its holders: the lanes' tables, what the lanes hold
outside them, and the entries. -/
def PageCounts : Prop :=
  ∀ page, s.cache.pool.refs page =
    ∑ l, ((s.lane l).blocks.count page + (s.lane l).pending.count page) +
      s.cache.entryCount page

/-- The lane is about to run a forward of `m` tokens. -/
def Forwards (lane : Lane) (m : Nat) : Prop :=
  lane.pc = .forward ∧ m = config.take lane ∨
    lane.pc = .decodeForward ∧ m ≤ 1 + config.draftsMax

/-- No forward writes a page of another lane's table or of an entry. -/
def ForwardsPrivate : Prop :=
  ∀ l m, Forwards config (s.lane l) m →
    ∀ page ∈ writtenPages (s.lane l).blocks (s.lane l).past m,
      (∀ other, other ≠ l → page ∉ (s.lane other).blocks) ∧
        ∀ id < s.cache.created, page ∉ (s.cache.entry id).blocks

/-- A request that continues from a hit has the pages of the matched prefix, and
they hold its KV. -/
def HitsHold : Prop :=
  ∀ l hit, (s.lane l).pc = .warm → (s.lane l).hit = some hit →
    (s.lane l).blocks.length = hit.matched / kvBlockTokens ∧
      Reads ((s.lane l).blocks.map s.kv) (s.lane l).prompt hit.matched

/-- The lane has checked the size of a hit's page list and not yet copied it. -/
def InWindow (lane : Lane) (id : Nat) : Prop :=
  (lane.pc = .ref ∨ lane.pc = .copy) ∧ lane.hit.map Hit.entry = some id

/-- `evict_oldest` does not demote an entry while a lane is between its size check
of the entry's page list and its copy of it. -/
def SparesWindows : Event n → Prop
  | .evict _ copied => ∀ l id, InWindow (s.lane l) id →
      ¬PrefixCache.DemotesVictim config.cache s.cache copied id
  | _ => True

variable {config s}

/-- A pass through `evict_oldest`. -/
def Event.isEvict : Event n → Bool
  | .evict _ _ => true
  | _ => false

/-- Only an eviction can enter a window. -/
theorem sparesWindows_of_not_evict {event : Event n} (h : event.isEvict = false) :
    SparesWindows config s event := by
  cases event with
  | evict l copied => cases h
  | _ => exact trivial

theorem meets_sparesWindows {machine : Machine (State n) (Event n)} {events : List (Event n)}
    (h : ∀ event ∈ events, event.isEvict = false) (s : State n) :
    machine.Meets (SparesWindows config) s events :=
  machine.meets_of_mem (fun event hevent _ => sparesWindows_of_not_evict (h event hevent)) s

end Properties

end Arcint.Cache
