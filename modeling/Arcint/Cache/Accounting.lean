import Arcint.Cache.PrefixCache
import Mathlib.Algebra.Order.BigOperators.Group.List
import Mathlib.Algebra.Ring.Nat

/-! # The counters of the prefix cache

Beside its entries the cache keeps two byte totals and the statistics it reports.
Every operation updates some of them by hand; after each one they are the sums
over the entries, and both totals are within their budgets.
-/

namespace Arcint.Cache

open Arcint.Core Foundation

/-- `PrefixCacheStats`. -/
structure Stats where
  lookups : Nat
  hits : Nat
  hitTokens : Nat
  inserts : Nat
  evictions : Nat
  collisions : Nat
  demotions : Nat
  promotions : Nat
  bytesResident : Nat
  entries : Nat
  tieredEntries : Nat
  hostBytes : Nat
  blocksHeld : Nat
  deriving DecidableEq, Repr

/-- The cache with its statistics. -/
structure CountedCache where
  cache : PrefixCache
  stats : Stats

namespace CountedCache

def new (total : Nat) : CountedCache := ⟨.new total, ⟨0, 0, 0, 0, 0, 0, 0, 0, 0, 0, 0, 0, 0⟩⟩

/-- How many depths have an entry of the prompt's hash with other tokens. -/
def lookupCollisions (config : CacheConfig) (cache : PrefixCache) (tokens : List Token) : Nat :=
  (PrefixCache.depths config tokens).countP fun depth =>
    match cache.entries.find? fun id => (cache.entry id).hash = config.prefixHash tokens depth with
    | none => false
    | some id => decide ((cache.entry id).tokens ≠ tokens.take (depth * config.block))

def lookup (config : CacheConfig) (c : CountedCache) (tokens : List Token) :
    CountedCache × Option Hit :=
  let stats := { c.stats with lookups := c.stats.lookups + 1 }
  if c.cache.entries = [] ∨ tokens.length ≤ config.block then (⟨c.cache, stats⟩, none)
  else
    let stats :=
      { stats with collisions := stats.collisions + lookupCollisions config c.cache tokens }
    match c.cache.lookup config tokens with
    | (cache, none) => (⟨cache, stats⟩, none)
    | (cache, some hit) =>
        (⟨cache, { stats with hits := stats.hits + 1, hitTokens := stats.hitTokens + hit.matched }⟩,
          some hit)

/-- The statistics that are recomputed from the entries. -/
def recount (c : CountedCache) : CountedCache :=
  { c with stats := { c.stats with
      bytesResident := c.cache.bytes
      hostBytes := c.cache.hostBytes
      entries := c.cache.entries.length
      tieredEntries := c.cache.entries.countP fun id => (c.cache.entry id).tiered } }

def dropBack (held : Nat → Bool) (c : CountedCache) : CountedCache :=
  match c.cache.entries.getLast? with
  | none => c
  | some id =>
      ⟨c.cache.dropBack held, { c.stats with
        blocksHeld := c.stats.blocksHeld - (c.cache.entry id).blocks.length }⟩

/-- The loop of `evict_to_fit`. -/
def evictLoop (config : CacheConfig) (held : Nat → Bool) (incoming : Nat) :
    Nat → CountedCache → CountedCache
  | 0, c => c
  | fuel + 1, c =>
      if c.cache.entries ≠ [] ∧ config.budget < c.cache.bytes + incoming then
        let c := c.dropBack held
        evictLoop config held incoming fuel
          { c with stats := { c.stats with evictions := c.stats.evictions + 1 } }
      else c

def evictToFit (config : CacheConfig) (held : Nat → Bool) (incoming : Nat) (c : CountedCache) :
    CountedCache :=
  (evictLoop config held incoming c.cache.entries.length c).recount

/-- The entries of the new entry's hash, up to one with its tokens. -/
def insertCollisions (cache : PrefixCache) (hash : Nat × Nat) (tokens : List Token) : Nat :=
  ((cache.entries.filter fun id => (cache.entry id).hash = hash).takeWhile fun id =>
    decide ((cache.entry id).tokens ≠ tokens)).length

def insert (config : CacheConfig) (held : Nat → Bool) (c : CountedCache) (tokens : List Token)
    (prefixLen bytes : Nat) (blocks : List Nat) : CountedCache :=
  let giveBack (stats : Stats) : CountedCache :=
    ⟨{ c.cache with pool := c.cache.pool.release blocks }, stats⟩
  if config.budget = 0 ∨ prefixLen = 0 ∨ prefixLen % config.block ≠ 0 ∨
      tokens.length < prefixLen then giveBack c.stats
  else
    let hash := config.prefixHash tokens (prefixLen / config.block)
    let stats := { c.stats with
      collisions := c.stats.collisions + insertCollisions c.cache hash (tokens.take prefixLen) }
    if c.cache.entries.any (fun id => decide ((c.cache.entry id).hash = hash ∧
        (c.cache.entry id).tokens = tokens.take prefixLen)) then giveBack stats
    else if config.budget < bytes then giveBack stats
    else
      let c := evictToFit config held bytes ⟨c.cache, stats⟩
      let cache := c.cache
      ⟨{ cache with
          entry := Function.update cache.entry cache.created
            ⟨hash, tokens.take prefixLen, blocks, bytes, none, 0, false⟩
          created := cache.created + 1
          entries := cache.created :: cache.entries
          bytes := cache.bytes + bytes },
        { c.stats with
          blocksHeld := c.stats.blocksHeld + blocks.length
          inserts := c.stats.inserts + 1
          bytesResident := cache.bytes + bytes
          entries := cache.entries.length + 1 }⟩

/-- What the demote callback returns: nothing done, or the pages released and the host
buffers and their size set. -/
abbrev DemoteAnswer := Option (List Page × Nat)

/-- The entry goes to the host tier, and tiered entries beyond the host budget go. -/
def demote (config : CacheConfig) (held : Nat → Bool) (c : CountedCache) (id : Nat)
    (host : List Page) (bytes : Nat) : CountedCache :=
  let e := c.cache.entry id
  let cache := { c.cache with
    pool := c.cache.pool.release e.blocks
    entry := Function.update c.cache.entry id (e.demoted host bytes)
    hostBytes := c.cache.hostBytes + bytes }
  ⟨cache.trimHost config held cache.entries.length,
    { c.stats with
      blocksHeld := c.stats.blocksHeld - e.blocks.length
      demotions := c.stats.demotions + 1
      evictions := c.stats.evictions + 1 }⟩

def evict (held : Nat → Bool) (c : CountedCache) (id : Nat) : CountedCache :=
  let e := c.cache.entry id
  ⟨.letGo held { c.cache with
      bytes := c.cache.bytes - e.bytes
      entries := c.cache.entries.erase id } id,
    { c.stats with
      blocksHeld := c.stats.blocksHeld - e.blocks.length
      evictions := c.stats.evictions + 1 }⟩

def evictOldest (config : CacheConfig) (held : Nat → Bool) (answer : DemoteAnswer)
    (c : CountedCache) : CountedCache × Bool :=
  match c.cache.victim with
  | none => (c, false)
  | some id =>
      match answer with
      | some (host, bytes) =>
          if 0 < config.hostBudget ∧ (c.cache.entry id).blocks ≠ [] then
            ((c.demote config held id host bytes).recount, true)
          else ((c.evict held id).recount, true)
      | none => ((c.evict held id).recount, true)

def promote (c : CountedCache) (id : Nat) (pages : List Nat) : CountedCache × Bool :=
  match c.cache.promote id pages with
  | (cache, true) =>
      (⟨cache, { c.stats with
        blocksHeld := c.stats.blocksHeld + pages.length
        promotions := c.stats.promotions + 1
        hostBytes := cache.hostBytes
        tieredEntries := cache.entries.countP fun id => (cache.entry id).tiered }⟩, true)
  | (_, false) => (c, false)

/-- Every entry leaves the list, and its pages go back unless someone holds it. -/
def clear (held : Nat → Bool) (c : CountedCache) : CountedCache :=
  ⟨c.cache.entries.foldl (.letGo held)
      { c.cache with entries := [], bytes := 0, hostBytes := 0 },
    { c.stats with
      bytesResident := 0
      hostBytes := 0
      entries := 0
      tieredEntries := 0
      blocksHeld := 0 }⟩

end CountedCache

/-! ## Sums over the entries -/

/-- The bytes an entry has on the host. -/
def Entry.parkedBytes (e : Entry) : Nat := if e.tiered = true then e.hostBytes else 0

/-- The sum of a weight over the listed entries. -/
def tally (entry : Nat → Entry) (entries : List Nat) (weight : Entry → Nat) : Nat :=
  (entries.map fun id => weight (entry id)).sum

section Tally

variable {entry entry' : Nat → Entry} {entries : List Nat} (weight : Entry → Nat)

theorem tally_congr (hentry : ∀ id ∈ entries, entry' id = entry id) :
    tally entry' entries weight = tally entry entries weight := by
  unfold tally
  rw [List.map_congr_left fun id hid => congrArg weight (hentry id hid)]

/-- A new order of the entries. -/
theorem tally_perm {entries' : List Nat} (h : entries'.Perm entries) :
    tally entry entries' weight = tally entry entries weight :=
  (h.map _).sum_eq

theorem tally_cons (id : Nat) :
    tally entry (id :: entries) weight = weight (entry id) + tally entry entries weight :=
  rfl

theorem tally_erase {id : Nat} (hid : id ∈ entries) :
    tally entry (entries.erase id) weight + weight (entry id) = tally entry entries weight := by
  rw [tally_perm weight (List.perm_cons_erase hid), tally_cons, Nat.add_comm]

/-- Replacing one entry moves the sum by the difference. -/
theorem tally_update (entry : Nat → Entry) (hnodup : entries.Nodup) {id : Nat}
    (hid : id ∈ entries) (e : Entry) :
    tally (Function.update entry id e) entries weight + weight (entry id) =
      tally entry entries weight + weight e := by
  have hrest : tally (Function.update entry id e) (entries.erase id) weight =
      tally entry (entries.erase id) weight := by
    apply tally_congr
    intro other hother
    exact Function.update_of_ne (hnodup.mem_erase_iff.mp hother).1 _ _
  rw [← tally_erase weight hid, ← tally_erase weight hid, hrest, Function.update_self]
  omega

end Tally

namespace PrefixCache

section LetGo

variable (held : Nat → Bool) (cache : PrefixCache) (id : Nat)

/-- Entries that are still listed do not change. -/
theorem letGo_entry {other : Nat} (hother : other ∈ cache.entries) :
    (letGo held cache id).entry other = cache.entry other := by
  unfold letGo
  split
  next => rfl
  next hgone =>
    have hne : other ≠ id := by
      rintro rfl
      exact hgone (.inr hother)
    exact Function.update_of_ne hne _ _

end LetGo

end PrefixCache

namespace CountedCache

open PrefixCache

/-- The totals are the sums over the entries. -/
structure Tallied (c : CountedCache) : Prop where
  nodup : c.cache.entries.Nodup
  listed : ∀ id ∈ c.cache.entries, id < c.cache.created
  bytes : c.cache.bytes = tally c.cache.entry c.cache.entries Entry.bytes
  hostBytes : c.cache.hostBytes = tally c.cache.entry c.cache.entries Entry.parkedBytes
  blocksHeld : c.stats.blocksHeld =
    tally c.cache.entry c.cache.entries fun e => e.blocks.length
  tiered : ∀ id ∈ c.cache.entries, (c.cache.entry id).tiered = true →
    (c.cache.entry id).blocks = []
  resident : ∀ id ∈ c.cache.entries, (c.cache.entry id).tiered = false →
    (c.cache.entry id).hostBytes = 0

section Operations

variable {c : CountedCache} {held : Nat → Bool}

theorem Tallied.parkedBytes_eq (h : c.Tallied) {id : Nat} (hid : id ∈ c.cache.entries) :
    (c.cache.entry id).parkedBytes = (c.cache.entry id).hostBytes := by
  unfold Entry.parkedBytes
  split
  next => rfl
  next htiered => exact (h.resident id hid (by simpa using htiered)).symm

/-- Without a tiered entry nothing is on the host. -/
theorem Tallied.hostBytes_eq_zero (h : c.Tallied)
    (hresident : ∀ id ∈ c.cache.entries, (c.cache.entry id).tiered = false) :
    c.cache.hostBytes = 0 := by
  rw [h.hostBytes]
  apply List.sum_eq_zero
  intro x hx
  obtain ⟨id, hid, rfl⟩ := List.mem_map.mp hx
  simp [Entry.parkedBytes, hresident id hid]

theorem Tallied.withStats (h : c.Tallied) {stats : Stats}
    (hstats : stats.blocksHeld = c.stats.blocksHeld) : Tallied ⟨c.cache, stats⟩ :=
  ⟨h.nodup, h.listed, h.bytes, h.hostBytes, hstats.trans h.blocksHeld, h.tiered, h.resident⟩

theorem Tallied.withPool (h : c.Tallied) (pool : BlockPool) :
    Tallied ⟨{ c.cache with pool := pool }, c.stats⟩ :=
  ⟨h.nodup, h.listed, h.bytes, h.hostBytes, h.blocksHeld, h.tiered, h.resident⟩

/-- An entry leaves the list with everything it was counted for. -/
theorem Tallied.remove (h : c.Tallied) {id : Nat} (hid : id ∈ c.cache.entries) {stats : Stats}
    (hstats : stats.blocksHeld = c.stats.blocksHeld - (c.cache.entry id).blocks.length) :
    Tallied ⟨letGo held { c.cache with
        bytes := c.cache.bytes - (c.cache.entry id).bytes
        hostBytes := c.cache.hostBytes - (c.cache.entry id).hostBytes
        entries := c.cache.entries.erase id } id, stats⟩ := by
  have hsub : ∀ other ∈ c.cache.entries.erase id, other ∈ c.cache.entries :=
    fun other hother => List.mem_of_mem_erase hother
  generalize hafter : letGo held { c.cache with
    bytes := c.cache.bytes - (c.cache.entry id).bytes
    hostBytes := c.cache.hostBytes - (c.cache.entry id).hostBytes
    entries := c.cache.entries.erase id } id = after
  have hentries : after.entries = c.cache.entries.erase id := by rw [← hafter, letGo_entries]
  have hentry : ∀ other ∈ c.cache.entries.erase id, after.entry other = c.cache.entry other := by
    intro other hother
    rw [← hafter]
    exact letGo_entry held _ id hother
  have htally : ∀ weight, tally after.entry after.entries weight + weight (c.cache.entry id) =
      tally c.cache.entry c.cache.entries weight := by
    intro weight
    rw [hentries, tally_congr weight hentry, tally_erase weight hid]
  have hbytes := htally Entry.bytes
  have hhost := htally Entry.parkedBytes
  have hblocks := htally fun e => e.blocks.length
  rw [h.parkedBytes_eq hid] at hhost
  have hcreated : after.created = c.cache.created := by rw [← hafter, letGo_created]
  refine ⟨?_, ?_, ?_, ?_, ?_, ?_, ?_⟩
  · rw [hentries]
    exact h.nodup.erase id
  · intro other hother
    rw [hentries] at hother
    rw [hcreated]
    exact h.listed other (hsub other hother)
  · have hold := h.bytes
    have hnew : after.bytes = c.cache.bytes - (c.cache.entry id).bytes := by
      rw [← hafter, letGo_bytes]
    dsimp only
    omega
  · have hold := h.hostBytes
    have hnew : after.hostBytes = c.cache.hostBytes - (c.cache.entry id).hostBytes := by
      rw [← hafter, letGo_hostBytes]
    dsimp only
    omega
  · have hold := h.blocksHeld
    dsimp only at hblocks ⊢
    omega
  · intro other hother
    rw [hentries] at hother
    rw [hentry other hother]
    exact h.tiered other (hsub other hother)
  · intro other hother
    rw [hentries] at hother
    rw [hentry other hother]
    exact h.resident other (hsub other hother)

/-- A new order of the entries. -/
theorem Tallied.reorder (h : c.Tallied) {entries : List Nat}
    (hperm : entries.Perm c.cache.entries) :
    Tallied ⟨{ c.cache with entries := entries }, c.stats⟩ where
  nodup := hperm.nodup_iff.mpr h.nodup
  listed id hid := h.listed id (hperm.mem_iff.mp hid)
  bytes := h.bytes.trans (tally_perm _ hperm).symm
  hostBytes := h.hostBytes.trans (tally_perm _ hperm).symm
  blocksHeld := h.blocksHeld.trans (tally_perm _ hperm).symm
  tiered id hid := h.tiered id (hperm.mem_iff.mp hid)
  resident id hid := h.resident id (hperm.mem_iff.mp hid)

/-- An entry moves between the tiers, and the counters with it. -/
theorem Tallied.replace (h : c.Tallied) {id : Nat} (hid : id ∈ c.cache.entries) {e : Entry}
    {pool : BlockPool} {hostBytes : Nat} {stats : Stats}
    (hbytes : e.bytes = (c.cache.entry id).bytes)
    (hhost : hostBytes + (c.cache.entry id).hostBytes = c.cache.hostBytes + e.parkedBytes)
    (hblocks : stats.blocksHeld + (c.cache.entry id).blocks.length =
      c.stats.blocksHeld + e.blocks.length)
    (htiered : e.tiered = true → e.blocks = []) (hresident : e.tiered = false → e.hostBytes = 0) :
    Tallied ⟨{ c.cache with
        pool := pool
        entry := Function.update c.cache.entry id e
        hostBytes := hostBytes }, stats⟩ := by
  have hmoved := fun weight => tally_update weight c.cache.entry h.nodup hid e
  -- every other entry is as it was
  have hothers : ∀ (P : Entry → Prop), P e → (∀ other ∈ c.cache.entries, P (c.cache.entry other)) →
      ∀ other ∈ c.cache.entries, P (Function.update c.cache.entry id e other) := by
    intro P he hall other hother
    by_cases heq : other = id
    · rw [heq, Function.update_self]
      exact he
    · rw [Function.update_of_ne heq]
      exact hall other hother
  refine ⟨h.nodup, h.listed, ?_, ?_, ?_, ?_, ?_⟩
  · have hsum := hmoved Entry.bytes
    have hold := h.bytes
    dsimp only
    omega
  · have hsum := hmoved Entry.parkedBytes
    have hold := h.hostBytes
    have hown := h.parkedBytes_eq hid
    dsimp only
    omega
  · have hsum := hmoved fun e => e.blocks.length
    have hold := h.blocksHeld
    dsimp only at hsum ⊢
    omega
  · exact hothers (fun e => e.tiered = true → e.blocks = []) htiered h.tiered
  · exact hothers (fun e => e.tiered = false → e.hostBytes = 0) hresident h.resident

/-- The entry at the back is the one that leaves. -/
theorem dropLast_eq_erase {entries : List Nat} (hnodup : entries.Nodup) {id : Nat}
    (hlast : entries.getLast? = some id) : entries.dropLast = entries.erase id := by
  have hsplit := List.dropLast_append_getLast? id hlast
  rw [← hsplit] at hnodup
  have hnotin : id ∉ entries.dropLast := by
    intro hmem
    exact (List.nodup_append.mp hnodup).2.2 id hmem id (by simp) rfl
  conv_rhs => rw [← hsplit]
  rw [List.erase_append_right _ hnotin]
  simp

theorem Tallied.dropBack (h : c.Tallied) : (c.dropBack held).Tallied := by
  unfold CountedCache.dropBack
  split
  next => exact h
  next id hlast =>
    have hid := List.mem_of_getLast? hlast
    unfold PrefixCache.dropBack
    rw [hlast]
    dsimp only
    rw [dropLast_eq_erase h.nodup hlast]
    exact h.remove hid rfl

theorem hostBytes_dropBack_le (held : Nat → Bool) (c : CountedCache) :
    (c.dropBack held).cache.hostBytes ≤ c.cache.hostBytes := by
  unfold CountedCache.dropBack
  split
  next => exact Nat.le_refl _
  next id hlast => simp [PrefixCache.dropBack, hlast]

theorem length_dropBack (held : Nat → Bool) (c : CountedCache) (hne : c.cache.entries ≠ []) :
    (c.dropBack held).cache.entries.length + 1 = c.cache.entries.length := by
  obtain ⟨id, hlast⟩ := Option.ne_none_iff_exists'.mp (mt List.getLast?_eq_none_iff.mp hne)
  have hpos := List.length_pos_iff.mpr hne
  simp only [CountedCache.dropBack, hlast, PrefixCache.dropBack, letGo_entries,
    List.length_dropLast]
  omega

/-- The loop stops when the new entry fits, or when nothing is left. -/
theorem evictLoop_spec (config : CacheConfig) (held : Nat → Bool) (incoming : Nat) {fuel : Nat}
    (h : c.Tallied)
    (hfuel : c.cache.entries.length ≤ fuel) :
    (evictLoop config held incoming fuel c).Tallied ∧
      (evictLoop config held incoming fuel c).cache.hostBytes ≤ c.cache.hostBytes ∧
      ((evictLoop config held incoming fuel c).cache.entries = [] ∨
        (evictLoop config held incoming fuel c).cache.bytes + incoming ≤ config.budget) := by
  induction fuel generalizing c with
  | zero => exact ⟨h, Nat.le_refl _, .inl (List.length_eq_zero_iff.mp (Nat.le_zero.mp hfuel))⟩
  | succ fuel ih =>
      unfold evictLoop
      split
      next hover =>
        have hlength := length_dropBack held c hover.1
        have hhost := hostBytes_dropBack_le held c
        have hdropped : (c.dropBack held).Tallied := h.dropBack
        have hnext : Tallied ⟨(c.dropBack held).cache, { (c.dropBack held).stats with
            evictions := (c.dropBack held).stats.evictions + 1 }⟩ := hdropped.withStats rfl
        obtain ⟨htallied, hless, hfits⟩ := ih hnext (by dsimp only; omega)
        exact ⟨htallied, hless.trans hhost, hfits⟩
      next hfits =>
        refine ⟨h, Nat.le_refl _, ?_⟩
        by_cases hempty : c.cache.entries = []
        · exact .inl hempty
        · right
          by_contra hover
          exact hfits ⟨hempty, by omega⟩

/-- The host tier is trimmed to its budget. -/
theorem trimHost_spec (config : CacheConfig) (held : Nat → Bool) {fuel : Nat} (h : c.Tallied)
    (hfuel : c.cache.entries.length ≤ fuel) :
    Tallied ⟨c.cache.trimHost config held fuel, c.stats⟩ ∧
      (c.cache.trimHost config held fuel).bytes ≤ c.cache.bytes ∧
      (c.cache.trimHost config held fuel).hostBytes ≤ config.hostBudget := by
  induction fuel generalizing c with
  | zero =>
      have hempty : c.cache.entries = [] := List.length_eq_zero_iff.mp (Nat.le_zero.mp hfuel)
      refine ⟨h, Nat.le_refl _, ?_⟩
      rw [PrefixCache.trimHost, h.hostBytes_eq_zero (by simp [hempty])]
      exact Nat.zero_le _
  | succ fuel ih =>
      unfold PrefixCache.trimHost
      split
      next hover =>
        split
        next hfind =>
          have hzero := h.hostBytes_eq_zero fun id hid => by
            simpa using List.find?_eq_none.mp hfind id (List.mem_reverse.mpr hid)
          omega
        next id hfind =>
          have hid : id ∈ c.cache.entries :=
            List.mem_reverse.mp (List.mem_of_find?_eq_some hfind)
          have htiered : (c.cache.entry id).tiered = true := by simpa using List.find?_some hfind
          have hblocks : c.stats.blocksHeld =
              c.stats.blocksHeld - (c.cache.entry id).blocks.length := by
            rw [h.tiered id hid htiered]
            rfl
          have hpos := List.length_pos_of_mem hid
          have hremoved : Tallied ⟨letGo held { c.cache with
              bytes := c.cache.bytes - (c.cache.entry id).bytes
              hostBytes := c.cache.hostBytes - (c.cache.entry id).hostBytes
              entries := c.cache.entries.erase id } id, c.stats⟩ := h.remove hid hblocks
          obtain ⟨htallied, hbytes, hhost⟩ := ih hremoved
            (by rw [letGo_entries, List.length_erase_of_mem hid]; omega)
          refine ⟨htallied, hbytes.trans ?_, hhost⟩
          rw [letGo_bytes]
          exact Nat.sub_le _ _
      next hfits => exact ⟨h, Nat.le_refl _, by omega⟩

end Operations

/-- Every counter is what it stands for, and both totals are within their budgets. -/
structure Accounted (config : CacheConfig) (c : CountedCache) : Prop where
  tallied : c.Tallied
  budget : c.cache.bytes ≤ config.budget
  hostBudget : c.cache.hostBytes ≤ config.hostBudget
  entries : c.stats.entries = c.cache.entries.length
  tieredEntries : c.stats.tieredEntries =
    c.cache.entries.countP fun id => (c.cache.entry id).tiered
  bytesResident : c.stats.bytesResident = c.cache.bytes
  hostBytes : c.stats.hostBytes = c.cache.hostBytes

section Steps

variable {config : CacheConfig} {c : CountedCache} {held : Nat → Bool}

theorem new_accounted (config : CacheConfig) (total : Nat) : (new total).Accounted config where
  tallied := ⟨List.nodup_nil, by simp [new, PrefixCache.new], rfl, rfl, rfl,
    by simp [new, PrefixCache.new], by simp [new, PrefixCache.new]⟩
  budget := Nat.zero_le _
  hostBudget := Nat.zero_le _
  entries := rfl
  tieredEntries := rfl
  bytesResident := rfl
  hostBytes := rfl

theorem recount_accounted (h : c.Tallied) (hbudget : c.cache.bytes ≤ config.budget)
    (hhost : c.cache.hostBytes ≤ config.hostBudget) : c.recount.Accounted config where
  tallied := h.withStats rfl
  budget := hbudget
  hostBudget := hhost
  entries := rfl
  tieredEntries := rfl
  bytesResident := rfl
  hostBytes := rfl

theorem giveBack_accounted (h : c.Accounted config) (pool : BlockPool) (collisions : Nat) :
    Accounted config
      ⟨{ c.cache with pool := pool }, { c.stats with collisions := collisions }⟩ where
  tallied := (h.tallied.withPool pool).withStats rfl
  budget := h.budget
  hostBudget := h.hostBudget
  entries := h.entries
  tieredEntries := h.tieredEntries
  bytesResident := h.bytesResident
  hostBytes := h.hostBytes

theorem lookup_accounted (h : c.Accounted config) (tokens : List Token) :
    (c.lookup config tokens).1.Accounted config := by
  unfold lookup PrefixCache.lookup
  by_cases hskip : c.cache.entries = [] ∨ tokens.length ≤ config.block
  · rw [if_pos hskip]
    exact ⟨h.tallied.withStats rfl, h.budget, h.hostBudget, h.entries, h.tieredEntries,
      h.bytesResident, h.hostBytes⟩
  · rw [if_neg hskip, if_neg hskip]
    cases hdeepest : deepest config c.cache tokens (depths config tokens) none with
    | none =>
        exact ⟨h.tallied.withStats rfl, h.budget, h.hostBudget, h.entries, h.tieredEntries,
          h.bytesResident, h.hostBytes⟩
    | some found =>
        have hid : found.1 ∈ c.cache.entries := deepest_mem hdeepest
        have hperm : (found.1 :: c.cache.entries.erase found.1).Perm c.cache.entries :=
          (List.perm_cons_erase hid).symm
        exact ⟨(h.tallied.reorder hperm).withStats rfl, h.budget, h.hostBudget,
          h.entries.trans hperm.length_eq.symm, h.tieredEntries.trans (hperm.countP_eq _).symm,
          h.bytesResident, h.hostBytes⟩

/-- After the eviction the new entry fits. -/
theorem evictToFit_spec (held : Nat → Bool) (h : c.Tallied)
    (hhost : c.cache.hostBytes ≤ config.hostBudget)
    {incoming : Nat} (hsmall : incoming ≤ config.budget) :
    (evictToFit config held incoming c).Accounted config ∧
      (evictToFit config held incoming c).cache.bytes + incoming ≤ config.budget := by
  obtain ⟨htallied, hless, hfits⟩ := evictLoop_spec config held incoming h (Nat.le_refl _)
  have hbytes : (evictLoop config held incoming c.cache.entries.length c).cache.bytes + incoming ≤
      config.budget := by
    rcases hfits with hempty | hfits
    · rw [htallied.bytes, hempty]
      simpa [tally] using hsmall
    · exact hfits
  have hfits := (Nat.le_add_right _ _).trans hbytes
  exact ⟨recount_accounted htallied hfits (hless.trans hhost), hbytes⟩

/-- A new entry at the front. -/
theorem push_accounted (h : c.Accounted config) {e : Entry}
    (hfits : c.cache.bytes + e.bytes ≤ config.budget)
    (hresident : e.tiered = false) (hhost : e.hostBytes = 0) :
    Accounted config ⟨{ c.cache with
        entry := Function.update c.cache.entry c.cache.created e
        created := c.cache.created + 1
        entries := c.cache.created :: c.cache.entries
        bytes := c.cache.bytes + e.bytes },
      { c.stats with
        blocksHeld := c.stats.blocksHeld + e.blocks.length
        inserts := c.stats.inserts + 1
        bytesResident := c.cache.bytes + e.bytes
        entries := c.cache.entries.length + 1 }⟩ := by
  have hfresh : c.cache.created ∉ c.cache.entries := fun hmem =>
    Nat.lt_irrefl _ (h.tallied.listed _ hmem)
  have hothers : ∀ id ∈ c.cache.entries,
      Function.update c.cache.entry c.cache.created e id = c.cache.entry id := by
    intro id hid
    refine Function.update_of_ne ?_ _ _
    rintro rfl
    exact hfresh hid
  have htally : ∀ weight, tally (Function.update c.cache.entry c.cache.created e)
      (c.cache.created :: c.cache.entries) weight =
        weight e + tally c.cache.entry c.cache.entries weight := by
    intro weight
    rw [tally_cons, Function.update_self, tally_congr weight hothers]
  have hall : ∀ (P : Entry → Prop), P e → (∀ id ∈ c.cache.entries, P (c.cache.entry id)) →
      ∀ id ∈ c.cache.created :: c.cache.entries,
        P (Function.update c.cache.entry c.cache.created e id) := by
    intro P he hold id hid
    rcases List.mem_cons.mp hid with rfl | hid
    · rw [Function.update_self]
      exact he
    · rw [hothers id hid]
      exact hold id hid
  refine ⟨⟨?_, ?_, ?_, ?_, ?_, ?_, ?_⟩, hfits, h.hostBudget, rfl, ?_, rfl, h.hostBytes⟩
  · exact List.nodup_cons.mpr ⟨hfresh, h.tallied.nodup⟩
  · intro id hid
    rcases List.mem_cons.mp hid with rfl | hid
    · exact Nat.lt_succ_self _
    · exact Nat.lt_succ_of_lt (h.tallied.listed id hid)
  · dsimp only
    rw [htally, h.tallied.bytes, Nat.add_comm]
  · dsimp only
    rw [htally, h.tallied.hostBytes, Entry.parkedBytes, if_neg (by simp [hresident]), Nat.zero_add]
  · dsimp only
    rw [htally, h.tallied.blocksHeld, Nat.add_comm]
  · exact hall (fun e => e.tiered = true → e.blocks = []) (by simp [hresident]) h.tallied.tiered
  · exact hall (fun e => e.tiered = false → e.hostBytes = 0) (fun _ => hhost) h.tallied.resident
  · dsimp only
    rw [List.countP_cons, Function.update_self, hresident, h.tieredEntries]
    exact (List.countP_congr fun id hid => by rw [hothers id hid]).symm

theorem insert_accounted (h : c.Accounted config) (tokens : List Token) (prefixLen bytes : Nat)
    (blocks : List Nat) :
    (c.insert config held tokens prefixLen bytes blocks).Accounted config := by
  unfold insert
  dsimp only
  split
  next => exact giveBack_accounted h _ c.stats.collisions
  next =>
    split
    next => exact giveBack_accounted h _ _
    next =>
      split
      next => exact giveBack_accounted h _ _
      next hsmall =>
        have hcounted : Tallied ⟨c.cache, { c.stats with
            collisions := c.stats.collisions + insertCollisions c.cache
              (config.prefixHash tokens (prefixLen / config.block)) (tokens.take prefixLen) }⟩ :=
          h.tallied.withStats rfl
        obtain ⟨hfit, hfits⟩ := evictToFit_spec held hcounted h.hostBudget (Nat.not_lt.mp hsmall)
        exact push_accounted (e := ⟨_, tokens.take prefixLen, blocks, bytes, none, 0, false⟩) hfit
          hfits rfl rfl

theorem evict_tallied (h : c.Tallied) {id : Nat} (hid : id ∈ c.cache.entries)
    (hresident : (c.cache.entry id).tiered = false) : (c.evict held id).Tallied := by
  have hremoved : Tallied ⟨letGo held { c.cache with
      bytes := c.cache.bytes - (c.cache.entry id).bytes
      hostBytes := c.cache.hostBytes - (c.cache.entry id).hostBytes
      entries := c.cache.entries.erase id } id, (c.evict held id).stats⟩ := h.remove hid rfl
  rw [h.resident id hid hresident, Nat.sub_zero] at hremoved
  exact hremoved

theorem demote_tallied (h : c.Tallied) {id : Nat} (hid : id ∈ c.cache.entries)
    (hresident : (c.cache.entry id).tiered = false) (host : List Page) (bytes : Nat) :
    (c.demote config held id host bytes).Tallied ∧
      (c.demote config held id host bytes).cache.bytes ≤ c.cache.bytes ∧
      (c.demote config held id host bytes).cache.hostBytes ≤ config.hostBudget := by
  have hmoved : Tallied ⟨{ c.cache with
      pool := c.cache.pool.release (c.cache.entry id).blocks
      entry := Function.update c.cache.entry id ((c.cache.entry id).demoted host bytes)
      hostBytes := c.cache.hostBytes + bytes }, (c.demote config held id host bytes).stats⟩ := by
    refine h.replace hid ?_ ?_ ?_ ?_ ?_
    · rfl
    · rw [h.resident id hid hresident]
      rfl
    · have hle : (c.cache.entry id).blocks.length ≤ c.stats.blocksHeld := by
        rw [h.blocksHeld, ← tally_erase (fun e => e.blocks.length) hid]
        exact Nat.le_add_left _ _
      exact Nat.sub_add_cancel hle
    · intro _
      rfl
    · intro hfalse
      cases hfalse
  exact trimHost_spec config held hmoved (Nat.le_refl _)

theorem evictOldest_accounted (h : c.Accounted config) (answer : DemoteAnswer) :
    (c.evictOldest config held answer).1.Accounted config := by
  have hevicted : ∀ id, c.cache.victim = some id →
      (c.evict held id).recount.Accounted config := by
    intro id hvictim
    have hid : id ∈ c.cache.entries := List.mem_reverse.mp (List.mem_of_find?_eq_some hvictim)
    have hresident : (c.cache.entry id).tiered = false := by
      simpa using List.find?_some hvictim
    refine recount_accounted (evict_tallied h.tallied hid hresident) ?_ ?_
    · simp only [evict, letGo_bytes]
      exact (Nat.sub_le _ _).trans h.budget
    · simp only [evict, letGo_hostBytes]
      exact h.hostBudget
  unfold evictOldest
  split
  next => exact h
  next id hvictim =>
    split
    next host bytes =>
      split
      next =>
        have hid : id ∈ c.cache.entries := List.mem_reverse.mp (List.mem_of_find?_eq_some hvictim)
        have hresident : (c.cache.entry id).tiered = false := by
          simpa using List.find?_some hvictim
        obtain ⟨htallied, hbytes, hhost⟩ := demote_tallied h.tallied hid hresident host bytes
        exact recount_accounted htallied (hbytes.trans h.budget) hhost
      next => exact hevicted id hvictim
    next => exact hevicted id hvictim

theorem promote_accounted (h : c.Accounted config) (id : Nat) (pages : List Nat) :
    (c.promote id pages).1.Accounted config := by
  unfold promote PrefixCache.promote
  by_cases hpromotes : id ∈ c.cache.entries ∧ (c.cache.entry id).tiered = true
  · rw [if_pos hpromotes]
    obtain ⟨hid, htiered⟩ := hpromotes
    have hle : (c.cache.entry id).hostBytes ≤ c.cache.hostBytes := by
      rw [h.tallied.hostBytes, ← tally_erase Entry.parkedBytes hid, h.tallied.parkedBytes_eq hid]
      exact Nat.le_add_left _ _
    refine ⟨h.tallied.replace hid rfl ?_ ?_ ?_ ?_, h.budget, ?_, h.entries, rfl,
      h.bytesResident, rfl⟩
    · exact Nat.sub_add_cancel hle
    · rw [h.tallied.tiered id hid htiered]
      rfl
    · intro hfalse
      cases hfalse
    · intro _
      rfl
    · exact (Nat.sub_le _ _).trans h.hostBudget
  · rw [if_neg hpromotes]
    exact h

theorem clear_accounted (config : CacheConfig) (held : Nat → Bool) (c : CountedCache) :
    (c.clear held).Accounted config := by
  have hcleared : ∀ (ids : List Nat) (cache : PrefixCache), cache.entries = [] → cache.bytes = 0 →
      cache.hostBytes = 0 → (ids.foldl (.letGo held) cache).entries = [] ∧
        (ids.foldl (.letGo held) cache).bytes = 0 ∧
        (ids.foldl (.letGo held) cache).hostBytes = 0 := by
    intro ids
    induction ids with
    | nil => exact fun _ hentries hbytes hhost => ⟨hentries, hbytes, hhost⟩
    | cons id ids ih =>
        intro cache hentries hbytes hhost
        exact ih (.letGo held cache id) (by simp [hentries]) (by simp [hbytes]) (by simp [hhost])
  obtain ⟨hentries, hbytes, hhost⟩ := hcleared c.cache.entries
    { c.cache with entries := [], bytes := 0, hostBytes := 0 } rfl rfl rfl
  have hempty : (c.clear held).cache.entries = [] := hentries
  refine ⟨⟨?_, ?_, ?_, ?_, ?_, ?_, ?_⟩, ?_, ?_, ?_, ?_, ?_, ?_⟩
  · rw [hempty]
    exact List.nodup_nil
  · simp [hempty]
  · rw [hempty]
    exact hbytes
  · rw [hempty]
    exact hhost
  · rw [hempty]
    rfl
  · simp [hempty]
  · simp [hempty]
  · exact hbytes ▸ Nat.zero_le _
  · exact hhost ▸ Nat.zero_le _
  · rw [hempty]
    rfl
  · rw [hempty]
    rfl
  · exact hbytes.symm
  · exact hhost.symm

end Steps

end CountedCache

/-! ## Runs -/

/-- A call of the cache. `held` tells which entries requests keep alive at the time. -/
inductive CacheOp where
  | insert (held : Nat → Bool) (tokens : List Token) (prefixLen bytes : Nat) (blocks : List Nat)
  | lookup (tokens : List Token)
  | evictOldest (held : Nat → Bool) (answer : CountedCache.DemoteAnswer)
  | promote (id : Nat) (pages : List Nat)
  | clear (held : Nat → Bool)

namespace CountedCache

def step (config : CacheConfig) (c : CountedCache) : CacheOp → CountedCache
  | .insert held tokens prefixLen bytes blocks => c.insert config held tokens prefixLen bytes blocks
  | .lookup tokens => (c.lookup config tokens).1
  | .evictOldest held answer => (c.evictOldest config held answer).1
  | .promote id pages => (c.promote id pages).1
  | .clear held => c.clear held

theorem step_accounted {config : CacheConfig} {c : CountedCache} (h : c.Accounted config)
    (op : CacheOp) : (c.step config op).Accounted config := by
  cases op with
  | insert held tokens prefixLen bytes blocks =>
      exact insert_accounted h tokens prefixLen bytes blocks
  | lookup tokens => exact lookup_accounted h tokens
  | evictOldest held answer => exact evictOldest_accounted h answer
  | promote id pages => exact promote_accounted h id pages
  | clear held => exact clear_accounted config held c

theorem foldl_accounted {config : CacheConfig} {c : CountedCache} (h : c.Accounted config)
    (ops : List CacheOp) : (ops.foldl (step config) c).Accounted config := by
  induction ops generalizing c with
  | nil => exact h
  | cons op ops ih => exact ih (step_accounted h op)

/-- After every sequence of calls the counters are the sums and counts they stand for, both
totals are within their budgets, and a tiered entry holds no pages. -/
theorem counters_exact (config : CacheConfig) (total : Nat) (ops : List CacheOp) :
    let c := ops.foldl (step config) (.new total)
    let sum := tally c.cache.entry c.cache.entries
    c.cache.bytes = sum Entry.bytes ∧ c.cache.bytes ≤ config.budget ∧
      c.cache.hostBytes = sum (fun e => if e.tiered then e.hostBytes else 0) ∧
      c.cache.hostBytes ≤ config.hostBudget ∧
      c.stats.blocksHeld = sum (fun e => e.blocks.length) ∧
      c.stats.tieredEntries = (c.cache.entries.filter fun id => (c.cache.entry id).tiered).length ∧
      c.stats.entries = c.cache.entries.length ∧
      ∀ id ∈ c.cache.entries,
        (c.cache.entry id).tiered = true → (c.cache.entry id).blocks = [] := by
  intro c sum
  have h : c.Accounted config := foldl_accounted (new_accounted config total) ops
  refine ⟨h.tallied.bytes, h.budget, h.tallied.hostBytes, h.hostBudget, h.tallied.blocksHeld, ?_,
    h.entries, h.tallied.tiered⟩
  rw [h.tieredEntries, List.countP_eq_length_filter]

/-! ## The cache of the lanes

Without its statistics this is the cache whose pages the lanes share.
-/

section Forget

variable (config : CacheConfig) (held : Nat → Bool) (c : CountedCache)

theorem lookup_cache (tokens : List Token) :
    ((c.lookup config tokens).1.cache, (c.lookup config tokens).2) =
      c.cache.lookup config tokens := by
  unfold lookup
  split
  next hskip => rw [PrefixCache.lookup, if_pos hskip]
  next =>
    cases hlookup : c.cache.lookup config tokens with
    | mk cache hit => cases hit <;> rfl

theorem dropBack_cache : (c.dropBack held).cache = c.cache.dropBack held := by
  unfold CountedCache.dropBack
  split
  next hnone => rw [PrefixCache.dropBack, hnone]
  next => rfl

theorem evictLoop_cache (incoming fuel : Nat) :
    (evictLoop config held incoming fuel c).cache =
      PrefixCache.evictToFit config held incoming fuel c.cache := by
  induction fuel generalizing c with
  | zero => rfl
  | succ fuel ih =>
      unfold evictLoop PrefixCache.evictToFit
      split
      next =>
        rw [ih]
        exact congrArg _ (dropBack_cache held c)
      next => rfl

theorem insert_cache (tokens : List Token) (prefixLen bytes : Nat) (blocks : List Nat) :
    (c.insert config held tokens prefixLen bytes blocks).cache =
      c.cache.insert config held tokens prefixLen bytes blocks := by
  have hfit : ∀ stats, (evictToFit config held bytes ⟨c.cache, stats⟩).cache =
      PrefixCache.evictToFit config held bytes c.cache.entries.length c.cache :=
    fun stats => evictLoop_cache config held ⟨c.cache, stats⟩ bytes _
  unfold insert PrefixCache.insert
  dsimp only
  split
  next => rfl
  next =>
    split
    next => rfl
    next =>
      split
      next => rfl
      next => simp only [hfit]

/-- The callback of the backend: the pages are copied out, or the copy fails. -/
theorem evictOldest_cache (kv : Nat → Page) (copied : Bool) {id : Nat}
    (hvictim : c.cache.victim = some id) :
    (c.evictOldest config held (if copied = true then
        some (copyOut kv (c.cache.entry id).blocks,
          config.pageBytes * (c.cache.entry id).blocks.length) else none)).1.cache =
      (c.cache.evictOldest config held kv copied).1 := by
  unfold evictOldest PrefixCache.evictOldest
  rw [hvictim]
  dsimp only
  cases copied with
  | false => simp [PrefixCache.Demotes, evict, recount]
  | true =>
      by_cases hdemotes : 0 < config.hostBudget ∧ (c.cache.entry id).blocks ≠ []
      · simp [PrefixCache.Demotes, hdemotes, demote, recount, PrefixCache.demote]
      · simp [PrefixCache.Demotes, hdemotes, evict, recount]

theorem promote_cache (id : Nat) (pages : List Nat) :
    ((c.promote id pages).1.cache, (c.promote id pages).2) = c.cache.promote id pages := by
  unfold promote PrefixCache.promote
  by_cases hpromotes : id ∈ c.cache.entries ∧ (c.cache.entry id).tiered = true
  · rw [if_pos hpromotes]
  · rw [if_neg hpromotes]

end Forget

end CountedCache

end Arcint.Cache
