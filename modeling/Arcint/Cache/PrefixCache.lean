import Arcint.Cache.BlockPool
import Arcint.Cache.PageRuns
import Mathlib.Algebra.BigOperators.Group.Finset.Basic
import Mathlib.Algebra.Order.BigOperators.Group.Finset

/-! # The prefix cache

Entries keep the tokens of a prefix and the KV pages that hold it. Entries are
shared with the lanes that hit them: the pages of an entry go back to the pool
when the last holder lets go. With a host tier, an entry evicted for its pages is
demoted: the pages are copied out and released, and the entry stays hittable.
-/

namespace Arcint.Cache

open Arcint.Core Foundation

/-- The tokens of one KV page, `kv_block_tokens_`. -/
def kvBlockTokens : Nat := 16

/-- `Entry`. A destroyed entry is one without pages that nobody holds. -/
structure Entry where
  hash : Nat × Nat
  tokens : List Token
  blocks : List Nat
  bytes : Nat
  hostKv : Option (List Page)
  hostBytes : Nat
  tiered : Bool

namespace Entry

def empty : Entry := ⟨(0, 0), [], [], 0, none, 0, false⟩

/-- The pages are on the host. -/
def demoted (e : Entry) (host : List Page) (bytes : Nat) : Entry :=
  { e with blocks := [], hostKv := some host, hostBytes := bytes, tiered := true }

/-- The pages are back. -/
def promoted (e : Entry) (pages : List Nat) : Entry :=
  { e with hostBytes := 0, hostKv := none, blocks := pages, tiered := false }

end Entry

/-- `hashBlock` chains the keyed hash over one more block; `pageBytes` is the size
of one page over all pool tensors. -/
structure CacheConfig where
  budget : Nat
  hostBudget : Nat
  blockSize : Nat
  hashBlock : Nat × Nat → List Token → Nat × Nat
  pageBytes : Nat

namespace CacheConfig

/-- The granularity of a reusable prefix. -/
def block (config : CacheConfig) : Nat := max 1 config.blockSize

/-- The hash of the first `n` blocks. -/
def prefixHash (config : CacheConfig) (tokens : List Token) (n : Nat) : Nat × Nat :=
  (List.range n).foldl
    (fun hash k => config.hashBlock hash (slice tokens (k * config.block) config.block)) (0, 0)

end CacheConfig

/-- What `lookup` returns; `entry` is the reference that keeps the entry alive. -/
structure Hit where
  matched : Nat
  entry : Nat
  tiered : Bool
  deriving DecidableEq, Repr

/-- The cache with the pool its entries release to. Entry `id` is the one created
at position `id`; `entries` is the list, most recently used first. -/
structure PrefixCache where
  pool : BlockPool
  entry : Nat → Entry
  created : Nat
  entries : List Nat
  bytes : Nat
  hostBytes : Nat

namespace PrefixCache

def new (total : Nat) : PrefixCache := ⟨.new total, fun _ => .empty, 0, [], 0, 0⟩

/-- A reference to the entry is gone. `held` tells whether a lane has another; the
last one out releases the pages. -/
def letGo (held : Nat → Bool) (cache : PrefixCache) (id : Nat) : PrefixCache :=
  if held id = true ∨ id ∈ cache.entries then cache
  else { cache with
    pool := cache.pool.release (cache.entry id).blocks
    entry := Function.update cache.entry id { cache.entry id with blocks := [] } }

/-- The deepest entry that hashes and compares equal, over the given depths. -/
def deepest (config : CacheConfig) (cache : PrefixCache) (tokens : List Token) :
    List Nat → Option (Nat × Nat) → Option (Nat × Nat)
  | [], best => best
  | depth :: rest, best =>
      match cache.entries.find? fun id =>
          (cache.entry id).hash = config.prefixHash tokens depth with
      | none => deepest config cache tokens rest best
      | some id =>
          if (cache.entry id).tokens = tokens.take (depth * config.block) then
            deepest config cache tokens rest (some (id, depth * config.block))
          else deepest config cache tokens rest best

/-- The boundaries of a prompt that leave a token to be run. -/
def depths (config : CacheConfig) (tokens : List Token) : List Nat :=
  (List.range ((tokens.length - 1) / config.block)).map (· + 1)

def lookup (config : CacheConfig) (cache : PrefixCache) (tokens : List Token) :
    PrefixCache × Option Hit :=
  if cache.entries = [] ∨ tokens.length ≤ config.block then (cache, none)
  else
    match deepest config cache tokens (depths config tokens) none with
    | none => (cache, none)
    | some (id, matched) =>
        ({ cache with entries := id :: cache.entries.erase id },
          some ⟨matched, id, (cache.entry id).tiered⟩)

def dropBack (held : Nat → Bool) (cache : PrefixCache) : PrefixCache :=
  match cache.entries.getLast? with
  | none => cache
  | some id =>
      letGo held { cache with
        bytes := cache.bytes - (cache.entry id).bytes
        hostBytes := cache.hostBytes - (cache.entry id).hostBytes
        entries := cache.entries.dropLast } id

/-- The loop of `evict_to_fit`; every pass drops an entry, so the number of entries
is fuel enough. -/
def evictToFit (config : CacheConfig) (held : Nat → Bool) (incoming : Nat) :
    Nat → PrefixCache → PrefixCache
  | 0, cache => cache
  | fuel + 1, cache =>
      if cache.entries ≠ [] ∧ config.budget < cache.bytes + incoming then
        evictToFit config held incoming fuel (cache.dropBack held)
      else cache

/-- `insert`; `blocks` carry a reference that the caller took for the cache. -/
def insert (config : CacheConfig) (held : Nat → Bool) (cache : PrefixCache) (tokens : List Token)
    (prefixLen bytes : Nat) (blocks : List Nat) : PrefixCache :=
  let giveBack := { cache with pool := cache.pool.release blocks }
  if config.budget = 0 ∨ prefixLen = 0 ∨ prefixLen % config.block ≠ 0 ∨
      tokens.length < prefixLen then giveBack
  else
    let hash := config.prefixHash tokens (prefixLen / config.block)
    if cache.entries.any (fun id => decide ((cache.entry id).hash = hash ∧
        (cache.entry id).tokens = tokens.take prefixLen)) then giveBack
    else if config.budget < bytes then giveBack
    else
      let cache := evictToFit config held bytes cache.entries.length cache
      { cache with
        entry := Function.update cache.entry cache.created
          ⟨hash, tokens.take prefixLen, blocks, bytes, none, 0, false⟩
        created := cache.created + 1
        entries := cache.created :: cache.entries
        bytes := cache.bytes + bytes }

/-- The least recently used entry that still has pages to give. -/
def victim (cache : PrefixCache) : Option Nat :=
  cache.entries.reverse.find? fun id => !(cache.entry id).tiered

/-- The entry goes to the host tier rather than away; `copied` tells whether the
copies succeed. -/
def Demotes (config : CacheConfig) (cache : PrefixCache) (copied : Bool) (id : Nat) : Prop :=
  0 < config.hostBudget ∧ (cache.entry id).blocks ≠ [] ∧ copied = true

instance (config : CacheConfig) (cache : PrefixCache) (copied : Bool) (id : Nat) :
    Decidable (Demotes config cache copied id) :=
  inferInstanceAs (Decidable (_ ∧ _ ∧ _))

/-- `demote_entry`, and what `evict_oldest` records after it. -/
def demote (config : CacheConfig) (kv : Nat → Page) (cache : PrefixCache) (id : Nat) :
    PrefixCache :=
  let bytes := config.pageBytes * (cache.entry id).blocks.length
  { cache with
    pool := cache.pool.release (cache.entry id).blocks
    entry := Function.update cache.entry id
      ((cache.entry id).demoted (copyOut kv (cache.entry id).blocks) bytes)
    hostBytes := cache.hostBytes + bytes }

/-- Tiered entries beyond the host budget go, least recently used first. -/
def trimHost (config : CacheConfig) (held : Nat → Bool) : Nat → PrefixCache → PrefixCache
  | 0, cache => cache
  | fuel + 1, cache =>
      if config.hostBudget < cache.hostBytes then
        match cache.entries.reverse.find? fun id => (cache.entry id).tiered with
        | none => cache
        | some id =>
            trimHost config held fuel (letGo held { cache with
              bytes := cache.bytes - (cache.entry id).bytes
              hostBytes := cache.hostBytes - (cache.entry id).hostBytes
              entries := cache.entries.erase id } id)
      else cache

def evictOldest (config : CacheConfig) (held : Nat → Bool) (kv : Nat → Page) (copied : Bool)
    (cache : PrefixCache) : PrefixCache × Bool :=
  match cache.victim with
  | none => (cache, false)
  | some id =>
      if Demotes config cache copied id then
        (trimHost config held cache.entries.length (cache.demote config kv id), true)
      else
        (letGo held { cache with
          bytes := cache.bytes - (cache.entry id).bytes
          entries := cache.entries.erase id } id, true)

/-- `promote`: the entry takes the pages its host buffers were copied into. -/
def promote (cache : PrefixCache) (id : Nat) (pages : List Nat) : PrefixCache × Bool :=
  if id ∈ cache.entries ∧ (cache.entry id).tiered = true then
    ({ cache with
      hostBytes := cache.hostBytes - (cache.entry id).hostBytes
      entry := Function.update cache.entry id ((cache.entry id).promoted pages) }, true)
  else (cache, false)

end PrefixCache

/-! ## What the cache keeps -/

/-- Every position below `n` holds the KV of the tokens up to it. -/
def Reads (pages : List Page) (tokens : List Token) (n : Nat) : Prop :=
  ∀ i < n, ∃ page, pages[i / kvBlockTokens]? = some page ∧
    page (i % kvBlockTokens) = tokens.take (i + 1)

/-- The pages are those of the complete pages of a prefix, and hold its KV. -/
def HoldsPrefix (pages : List Page) (tokens : List Token) : Prop :=
  pages.length = tokens.length / kvBlockTokens ∧
    Reads pages tokens (tokens.length / kvBlockTokens * kvBlockTokens)

structure Entry.Sound (kv : Nat → Page) (e : Entry) : Prop where
  resident : e.blocks ≠ [] → HoldsPrefix (e.blocks.map kv) e.tokens
  parked : ∀ pages, e.hostKv = some pages → HoldsPrefix pages e.tokens
  tiered : e.tiered = true → e.blocks = []

theorem Entry.Sound.clear {kv : Nat → Page} {e : Entry} (h : e.Sound kv) :
    Entry.Sound kv { e with blocks := [] } :=
  ⟨fun hne => absurd rfl hne, h.parked, fun _ => rfl⟩

/-- Pages outside the entry's table do not matter to it. -/
theorem Entry.Sound.congr {kv kv' : Nat → Page} {e : Entry} (h : e.Sound kv)
    (hsame : ∀ page ∈ e.blocks, kv' page = kv page) : e.Sound kv' where
  resident hne := by
    rw [List.map_congr_left hsame]
    exact h.resident hne
  parked := h.parked
  tiered := h.tiered

namespace PrefixCache

section Frame

variable (held : Nat → Bool) (cache : PrefixCache) (id : Nat)

@[simp]
theorem letGo_entries : (letGo held cache id).entries = cache.entries := by
  unfold letGo
  split <;> rfl

@[simp]
theorem letGo_bytes : (letGo held cache id).bytes = cache.bytes := by
  unfold letGo
  split <;> rfl

@[simp]
theorem letGo_hostBytes : (letGo held cache id).hostBytes = cache.hostBytes := by
  unfold letGo
  split <;> rfl

@[simp]
theorem letGo_created : (letGo held cache id).created = cache.created := by
  unfold letGo
  split <;> rfl

end Frame

/-- How often entries hold a page. -/
def entryCount (cache : PrefixCache) (page : Nat) : Nat :=
  ∑ id ∈ Finset.range cache.created, (cache.entry id).blocks.count page

/-- The references of a page are those of the lanes and of the entries. -/
structure Sound (kv : Nat → Page) (lanes : Nat → Nat) (cache : PrefixCache) : Prop where
  pool : cache.pool.Sound
  counts : ∀ page, cache.pool.refs page = lanes page + cache.entryCount page
  entries : ∀ id < cache.created, (cache.entry id).Sound kv
  listed : ∀ id ∈ cache.entries, id < cache.created

/-- What an operation leaves alone: the tokens of every entry, the pages of the
pinned ones, and every page that neither an entry held nor the operation was given. -/
structure Evolves (pinned : Nat → Prop) (given : List Nat) (before after : PrefixCache) :
    Prop where
  created : before.created ≤ after.created
  tokens : ∀ id < before.created, (after.entry id).tokens = (before.entry id).tokens
  pinned : ∀ id < before.created, pinned id → (after.entry id).blocks = (before.entry id).blocks
  gains : ∀ page ∉ given, before.entryCount page = 0 → after.entryCount page = 0

theorem Evolves.refl (pinned : Nat → Prop) (given : List Nat) (cache : PrefixCache) :
    Evolves pinned given cache cache :=
  ⟨Nat.le_refl _, fun _ _ => rfl, fun _ _ _ => rfl, fun _ _ h => h⟩

theorem Evolves.trans {pinned : Nat → Prop} {given : List Nat} {a b c : PrefixCache}
    (hab : Evolves pinned given a b) (hbc : Evolves pinned given b c) :
    Evolves pinned given a c where
  created := hab.created.trans hbc.created
  tokens id hid := (hbc.tokens id (Nat.lt_of_lt_of_le hid hab.created)).trans (hab.tokens id hid)
  pinned id hid hpin :=
    (hbc.pinned id (Nat.lt_of_lt_of_le hid hab.created) hpin).trans (hab.pinned id hid hpin)
  gains page hpage h := hbc.gains page hpage (hab.gains page hpage h)

theorem Evolves.mono {pinned pinned' : Nat → Prop} {given given' : List Nat}
    {before after : PrefixCache} (h : Evolves pinned given before after)
    (hpinned : ∀ id, pinned' id → pinned id) (hgiven : given ⊆ given') :
    Evolves pinned' given' before after where
  created := h.created
  tokens := h.tokens
  pinned id hid hpin := h.pinned id hid (hpinned id hpin)
  gains page hpage := h.gains page fun hmem => hpage (hgiven hmem)

/-- Replacing one entry moves the count of a page by the difference. -/
theorem entryCount_update (cache : PrefixCache) {id : Nat} (hid : id < cache.created) (e : Entry)
    (page : Nat) :
    entryCount { cache with entry := Function.update cache.entry id e } page +
        (cache.entry id).blocks.count page =
      cache.entryCount page + e.blocks.count page := by
  have hmem : id ∈ Finset.range cache.created := Finset.mem_range.mpr hid
  unfold entryCount
  dsimp only
  rw [← Finset.add_sum_erase _ _ hmem,
    ← Finset.add_sum_erase _ (fun other => (cache.entry other).blocks.count page) hmem]
  have hrest : ∑ other ∈ (Finset.range cache.created).erase id,
      (Function.update cache.entry id e other).blocks.count page =
        ∑ other ∈ (Finset.range cache.created).erase id, (cache.entry other).blocks.count page := by
    apply Finset.sum_congr rfl
    intro other hother
    rw [Function.update_of_ne (Finset.ne_of_mem_erase hother)]
  rw [hrest, Function.update_self]
  omega

theorem count_le_entryCount (cache : PrefixCache) {id : Nat} (hid : id < cache.created)
    (page : Nat) : (cache.entry id).blocks.count page ≤ cache.entryCount page :=
  Finset.single_le_sum (f := fun other => (cache.entry other).blocks.count page)
    (fun _ _ => Nat.zero_le _) (Finset.mem_range.mpr hid)

section Operations

variable {kv : Nat → Page} {lanes : Nat → Nat} {cache : PrefixCache}

/-- A new order of the entries, or new totals. -/
theorem Sound.relist (h : cache.Sound kv lanes) (bytes hostBytes : Nat) {entries : List Nat}
    (hlisted : ∀ id ∈ entries, id ∈ cache.entries) :
    Sound kv lanes
      { cache with bytes := bytes, hostBytes := hostBytes, entries := entries } where
  pool := h.pool
  counts := h.counts
  entries := h.entries
  listed id hid := h.listed id (hlisted id hid)

theorem evolves_relist (pinned : Nat → Prop) (given : List Nat) (cache : PrefixCache)
    (bytes hostBytes : Nat) (entries : List Nat) :
    Evolves pinned given cache
      { cache with bytes := bytes, hostBytes := hostBytes, entries := entries } :=
  ⟨Nat.le_refl _, fun _ _ => rfl, fun _ _ _ => rfl, fun _ _ h => h⟩

/-- An entry gives its pages back and is replaced by one without. -/
theorem Sound.surrender (h : cache.Sound kv lanes) {id : Nat} (hid : id < cache.created)
    {e : Entry} (he : e.Sound kv) (hblocks : e.blocks = [])
    (htokens : e.tokens = (cache.entry id).tokens) :
    Sound kv lanes { cache with
        pool := cache.pool.release (cache.entry id).blocks
        entry := Function.update cache.entry id e } ∧
      Evolves (· ≠ id) [] cache { cache with
        pool := cache.pool.release (cache.entry id).blocks
        entry := Function.update cache.entry id e } := by
  have hle : ∀ page, (cache.entry id).blocks.count page ≤ cache.pool.refs page := by
    intro page
    rw [h.counts page]
    exact (cache.count_le_entryCount hid page).trans (Nat.le_add_left _ _)
  obtain ⟨hpool, hrefs⟩ := BlockPool.release_refs h.pool hle
  have hcount : ∀ page, entryCount { cache with entry := Function.update cache.entry id e } page +
      (cache.entry id).blocks.count page = cache.entryCount page := by
    intro page
    rw [cache.entryCount_update hid e page, hblocks]
    rfl
  refine ⟨⟨hpool, ?_, ?_, h.listed⟩, ⟨Nat.le_refl _, ?_, ?_, ?_⟩⟩
  · intro page
    have hbefore := h.counts page
    have hreleased := hrefs page
    have hmoved := hcount page
    change (cache.pool.release (cache.entry id).blocks).refs page = lanes page +
      entryCount { cache with entry := Function.update cache.entry id e } page
    omega
  · intro other hcreated
    by_cases hother : other = id
    · rw [hother]
      simpa using he
    · simpa [hother] using h.entries other hcreated
  · intro other _
    by_cases hother : other = id
    · rw [hother]
      simpa using htokens
    · simp [hother]
  · intro other _ hother
    simp [hother]
  · intro page _ hzero
    have hmoved := hcount page
    change entryCount { cache with entry := Function.update cache.entry id e } page = 0
    omega

/-- The pool hands out, takes back or shares pages. -/
theorem Sound.withPool {lanes' : Nat → Nat} (h : cache.Sound kv lanes) {pool : BlockPool}
    (hpool : pool.Sound) (hcounts : ∀ page, pool.refs page = lanes' page + cache.entryCount page) :
    Sound kv lanes' { cache with pool := pool } :=
  ⟨hpool, hcounts, h.entries, h.listed⟩

theorem evolves_withPool (pinned : Nat → Prop) (given : List Nat) (cache : PrefixCache)
    (pool : BlockPool) : Evolves pinned given cache { cache with pool := pool } :=
  ⟨Nat.le_refl _, fun _ _ => rfl, fun _ _ _ => rfl, fun _ _ h => h⟩

/-- Writes to pages that no entry holds. -/
theorem Sound.rewrite {kv' : Nat → Page} (h : cache.Sound kv lanes)
    (hkv : ∀ page, cache.entryCount page ≠ 0 → kv' page = kv page) : cache.Sound kv' lanes where
  pool := h.pool
  counts := h.counts
  entries id hid := by
    apply (h.entries id hid).congr
    intro page hpage
    apply hkv
    have hcount := cache.count_le_entryCount hid page
    have hpos := List.count_pos_iff.mpr hpage
    omega
  listed := h.listed

/-- A page that one lane holds and nothing else stays so, unless it is handed in. -/
theorem Sound.stays_private {after : PrefixCache} {lanes' : Nat → Nat} {pinned : Nat → Prop}
    {given : List Nat} {kv' : Nat → Page} (h : cache.Sound kv lanes)
    (hafter : after.Sound kv' lanes') (hevolves : Evolves pinned given cache after) {page : Nat}
    (hone : cache.pool.refs page = 1) (hheld : 0 < lanes page) (hgiven : page ∉ given)
    (hsame : lanes' page = lanes page) : after.pool.refs page = 1 := by
  have hbefore := h.counts page
  have hcounts := hafter.counts page
  rw [hevolves.gains page hgiven (by omega)] at hcounts
  omega

/-- An operation that keeps the cache sound and pins what the lanes hold. -/
def Keeps (kv : Nat → Page) (lanes : Nat → Nat) (pinned : Nat → Prop) (before after : PrefixCache) :
    Prop :=
  after.Sound kv lanes ∧ Evolves pinned [] before after

theorem letGo_keeps (held : Nat → Bool) (h : cache.Sound kv lanes) {id : Nat}
    (hid : id < cache.created) : Keeps kv lanes (held · = true) cache (letGo held cache id) := by
  unfold letGo
  split
  next => exact ⟨h, .refl _ _ _⟩
  next hfree =>
    obtain ⟨hsound, hevolves⟩ := h.surrender hid (h.entries id hid).clear rfl rfl
    refine ⟨hsound, hevolves.mono ?_ (List.Subset.refl _)⟩
    rintro other hheld rfl
    exact hfree (.inl hheld)

/-- An entry leaves the list, and its reference with it. -/
theorem unlist_keeps (held : Nat → Bool) (h : cache.Sound kv lanes) {id : Nat}
    (hid : id ∈ cache.entries) (bytes hostBytes : Nat) (entries : List Nat)
    (hlisted : ∀ other ∈ entries, other ∈ cache.entries) :
    Keeps kv lanes (held · = true) cache (letGo held
      { cache with bytes := bytes, hostBytes := hostBytes, entries := entries } id) := by
  obtain ⟨hsound, hevolves⟩ :=
    letGo_keeps held (h.relist bytes hostBytes hlisted) (h.listed id hid)
  exact ⟨hsound, (evolves_relist _ _ cache bytes hostBytes entries).trans hevolves⟩

theorem dropBack_keeps (held : Nat → Bool) (h : cache.Sound kv lanes) :
    Keeps kv lanes (held · = true) cache (cache.dropBack held) := by
  unfold dropBack
  split
  next => exact ⟨h, .refl _ _ _⟩
  next id hlast =>
    apply unlist_keeps held h (List.mem_of_getLast? hlast)
    intro other hother
    exact List.mem_of_mem_dropLast hother

theorem evictToFit_keeps (config : CacheConfig) (held : Nat → Bool) (incoming fuel : Nat)
    (h : cache.Sound kv lanes) :
    Keeps kv lanes (held · = true) cache (evictToFit config held incoming fuel cache) := by
  induction fuel generalizing cache with
  | zero => exact ⟨h, .refl _ _ _⟩
  | succ fuel ih =>
      unfold evictToFit
      split
      next =>
        obtain ⟨hdropped, hevolves⟩ := dropBack_keeps held h
        obtain ⟨hsound, hrest⟩ := ih hdropped
        exact ⟨hsound, hevolves.trans hrest⟩
      next => exact ⟨h, .refl _ _ _⟩

theorem trimHost_keeps (config : CacheConfig) (held : Nat → Bool) (fuel : Nat)
    (h : cache.Sound kv lanes) :
    Keeps kv lanes (held · = true) cache (trimHost config held fuel cache) := by
  induction fuel generalizing cache with
  | zero => exact ⟨h, .refl _ _ _⟩
  | succ fuel ih =>
      unfold trimHost
      split
      next =>
        split
        next => exact ⟨h, .refl _ _ _⟩
        next id hfound =>
          have hid : id ∈ cache.entries := List.mem_reverse.mp (List.mem_of_find?_eq_some hfound)
          obtain ⟨hdropped, hevolves⟩ := unlist_keeps held h hid
            (cache.bytes - (cache.entry id).bytes)
            (cache.hostBytes - (cache.entry id).hostBytes)
            (cache.entries.erase id) fun other hother => List.mem_of_mem_erase hother
          obtain ⟨hsound, hrest⟩ := ih hdropped
          exact ⟨hsound, hevolves.trans hrest⟩
      next => exact ⟨h, .refl _ _ _⟩

/-- A demoted entry has its prefix on the host. -/
theorem demote_keeps (config : CacheConfig) (h : cache.Sound kv lanes) {id : Nat}
    (hid : id < cache.created) (hblocks : (cache.entry id).blocks ≠ []) :
    Keeps kv lanes (· ≠ id) cache (cache.demote config kv id) := by
  have hentry : Entry.Sound kv ((cache.entry id).demoted (copyOut kv (cache.entry id).blocks)
      (config.pageBytes * (cache.entry id).blocks.length)) := by
    refine ⟨fun hne => absurd rfl hne, ?_, fun _ => rfl⟩
    intro pages hpages
    cases hpages
    rw [copyOut_eq]
    exact (h.entries id hid).resident hblocks
  obtain ⟨hsound, hevolves⟩ := h.surrender hid hentry rfl rfl
  exact ⟨⟨hsound.pool, hsound.counts, hsound.entries, hsound.listed⟩,
    ⟨hevolves.created, hevolves.tokens, hevolves.pinned, hevolves.gains⟩⟩

/-- The entry that `evict_oldest` takes the pages from while others may hold it. -/
def DemotesVictim (config : CacheConfig) (cache : PrefixCache) (copied : Bool) (id : Nat) : Prop :=
  cache.victim = some id ∧ Demotes config cache copied id

theorem evictOldest_keeps (config : CacheConfig) (held : Nat → Bool) (copied : Bool)
    (h : cache.Sound kv lanes) :
    Keeps kv lanes (fun id => held id = true ∧ ¬DemotesVictim config cache copied id) cache
      (cache.evictOldest config held kv copied).1 := by
  unfold evictOldest
  split
  next => exact ⟨h, .refl _ _ _⟩
  next id hvictim =>
    have hid : id ∈ cache.entries := List.mem_reverse.mp (List.mem_of_find?_eq_some hvictim)
    split
    next hdemotes =>
      obtain ⟨hdemoted, hevolves⟩ := demote_keeps config h (h.listed id hid) hdemotes.2.1
      obtain ⟨hsound, hrest⟩ := trimHost_keeps config held cache.entries.length hdemoted
      refine ⟨hsound, (hevolves.mono ?_ (List.Subset.refl _)).trans
        (hrest.mono ?_ (List.Subset.refl _))⟩
      · rintro other ⟨_, hspared⟩ rfl
        exact hspared ⟨hvictim, hdemotes⟩
      · exact fun other hother => hother.1
    next =>
      obtain ⟨hsound, hevolves⟩ := unlist_keeps held h hid
        (cache.bytes - (cache.entry id).bytes) cache.hostBytes
        (cache.entries.erase id) fun other hother => List.mem_of_mem_erase hother
      exact ⟨hsound, hevolves.mono (fun other hother => hother.1) (List.Subset.refl _)⟩

/-- A promoted entry takes over the pages; no entry with pages changes. -/
theorem promote_keeps {pages : List Nat} {id : Nat} {after : PrefixCache}
    (h : cache.Sound kv fun page => lanes page + pages.count page) (hid : id < cache.created)
    (hpages : HoldsPrefix (pages.map kv) (cache.entry id).tokens)
    (hpromote : cache.promote id pages = (after, true)) :
    after.Sound kv lanes ∧
      Evolves (fun other => (cache.entry other).blocks ≠ []) pages cache after := by
  unfold promote at hpromote
  split at hpromote
  next hlisted =>
    cases hpromote
    have hnone := (h.entries id hid).tiered hlisted.2
    have hcount : ∀ page, entryCount { cache with
        entry := Function.update cache.entry id ((cache.entry id).promoted pages) } page =
          cache.entryCount page + pages.count page := by
      intro page
      have hmoved := cache.entryCount_update hid ((cache.entry id).promoted pages) page
      rw [hnone, List.count_nil, Nat.add_zero] at hmoved
      exact hmoved
    refine ⟨⟨h.pool, ?_, ?_, h.listed⟩, ⟨Nat.le_refl _, ?_, ?_, ?_⟩⟩
    · intro page
      change cache.pool.refs page = lanes page + entryCount { cache with
        entry := Function.update cache.entry id ((cache.entry id).promoted pages) } page
      rw [hcount page, h.counts page]
      omega
    · intro other hcreated
      by_cases hother : other = id
      · rw [hother]
        simp only [Function.update_self]
        exact ⟨fun _ => hpages, fun _ hhost => (by cases hhost), fun htiered => (by cases htiered)⟩
      · simpa [hother] using h.entries other hcreated
    · intro other _
      by_cases hother : other = id
      · simp [hother, Entry.promoted]
      · simp [hother]
    · intro other _ hne
      have hother : other ≠ id := by
        rintro rfl
        exact hne hnone
      simp [hother]
    · intro page hpage hzero
      change entryCount { cache with
        entry := Function.update cache.entry id ((cache.entry id).promoted pages) } page = 0
      rw [hcount page, hzero, List.count_eq_zero_of_not_mem hpage]
  next => cases hpromote

/-- Handed-in pages that the cache does not keep go back. -/
theorem giveBack_sound {blocks : List Nat}
    (h : cache.Sound kv fun page => lanes page + blocks.count page) :
    Sound kv lanes { cache with pool := cache.pool.release blocks } := by
  have hle : ∀ page, blocks.count page ≤ cache.pool.refs page := by
    intro page
    rw [h.counts page]
    omega
  obtain ⟨hpool, hrefs⟩ := BlockPool.release_refs h.pool hle
  refine ⟨hpool, ?_, h.entries, h.listed⟩
  intro page
  have hbefore := h.counts page
  have hafter := hrefs page
  change (cache.pool.release blocks).refs page = lanes page + cache.entryCount page
  omega

theorem insert_keeps (config : CacheConfig) (held : Nat → Bool) {tokens : List Token}
    {prefixLen : Nat} (bytes : Nat) {blocks : List Nat}
    (h : cache.Sound kv fun page => lanes page + blocks.count page)
    (hblocks : prefixLen ≤ tokens.length → HoldsPrefix (blocks.map kv) (tokens.take prefixLen)) :
    Sound kv lanes (cache.insert config held tokens prefixLen bytes blocks) ∧
      Evolves (held · = true) blocks cache
        (cache.insert config held tokens prefixLen bytes blocks) := by
  have hback : Sound kv lanes { cache with pool := cache.pool.release blocks } ∧
      Evolves (held · = true) blocks cache { cache with pool := cache.pool.release blocks } :=
    ⟨giveBack_sound h, ⟨Nat.le_refl _, fun _ _ => rfl, fun _ _ _ => rfl, fun _ _ hzero => hzero⟩⟩
  unfold insert
  dsimp only
  split
  next => exact hback
  next hvalid =>
    split
    next => exact hback
    next =>
      split
      next => exact hback
      next =>
        obtain ⟨hevicted, hevolves⟩ := evictToFit_keeps config held bytes cache.entries.length h
        generalize evictToFit config held bytes cache.entries.length cache = evicted
          at hevicted hevolves
        have hbegins : HoldsPrefix (blocks.map kv) (tokens.take prefixLen) :=
          hblocks (by omega)
        generalize hentry : (⟨config.prefixHash tokens (prefixLen / config.block),
          tokens.take prefixLen, blocks, bytes, none, 0, false⟩ : Entry) = e
        have hcount : ∀ page, ∑ id ∈ Finset.range (evicted.created + 1),
            (Function.update evicted.entry evicted.created e id).blocks.count page =
              evicted.entryCount page + blocks.count page := by
          intro page
          rw [Finset.sum_range_succ, Function.update_self, ← hentry]
          congr 1
          apply Finset.sum_congr rfl
          intro id hid
          rw [Function.update_of_ne (Nat.ne_of_lt (Finset.mem_range.mp hid))]
        refine ⟨⟨hevicted.pool, ?_, ?_, ?_⟩, ⟨?_, ?_, ?_, ?_⟩⟩
        · intro page
          have hbefore := hevicted.counts page
          have hafter := hcount page
          unfold entryCount at hbefore hafter ⊢
          dsimp only at hbefore ⊢
          omega
        · intro id hcreated
          by_cases hid : id = evicted.created
          · rw [hid, ← hentry]
            simp only [Function.update_self]
            exact ⟨fun _ => hbegins, fun _ hhost => (by cases hhost),
              fun htiered => (by cases htiered)⟩
          · have hold : id < evicted.created :=
              Nat.lt_of_le_of_ne (Nat.lt_succ_iff.mp hcreated) hid
            simpa [hid] using hevicted.entries id hold
        · intro id hid
          rcases List.mem_cons.mp hid with rfl | hid
          · exact Nat.lt_succ_self _
          · exact Nat.lt_succ_of_lt (hevicted.listed id hid)
        · exact hevolves.created.trans (Nat.le_succ _)
        · intro id hid
          have hne : id ≠ evicted.created := Nat.ne_of_lt (Nat.lt_of_lt_of_le hid hevolves.created)
          simpa [hne] using hevolves.tokens id hid
        · intro id hid hheld
          have hne : id ≠ evicted.created := Nat.ne_of_lt (Nat.lt_of_lt_of_le hid hevolves.created)
          simpa [hne] using hevolves.pinned id hid hheld
        · intro page hpage hzero
          have hafter := hcount page
          rw [hevolves.gains page (List.not_mem_nil) hzero,
            List.count_eq_zero_of_not_mem hpage] at hafter
          exact hafter

theorem deepest_some {config : CacheConfig} {tokens : List Token} {depths : List Nat}
    {best : Option (Nat × Nat)} {id matched : Nat}
    (h : deepest config cache tokens depths best = some (id, matched)) :
    best = some (id, matched) ∨ id ∈ cache.entries ∧ ∃ depth ∈ depths,
      matched = depth * config.block ∧ (cache.entry id).tokens = tokens.take matched ∧
        (cache.entries.find? fun id => (cache.entry id).hash = config.prefixHash tokens depth) =
          some id := by
  induction depths generalizing best with
  | nil => exact .inl h
  | cons depth rest ih =>
      unfold deepest at h
      split at h
      next =>
        rcases ih h with hbest | ⟨hid, deep, hdeep, hmatch⟩
        · exact .inl hbest
        · exact .inr ⟨hid, deep, List.mem_cons_of_mem _ hdeep, hmatch⟩
      next found hfound =>
        split at h
        next htokens =>
          rcases ih h with hbest | ⟨hid, deep, hdeep, hmatch⟩
          · cases hbest
            exact .inr ⟨List.mem_of_find?_eq_some hfound, depth, List.mem_cons_self, rfl, htokens,
              hfound⟩
          · exact .inr ⟨hid, deep, List.mem_cons_of_mem _ hdeep, hmatch⟩
        next =>
          rcases ih h with hbest | ⟨hid, deep, hdeep, hmatch⟩
          · exact .inl hbest
          · exact .inr ⟨hid, deep, List.mem_cons_of_mem _ hdeep, hmatch⟩

theorem deepest_mem {config : CacheConfig} {tokens : List Token} {depths : List Nat}
    {id matched : Nat} (h : deepest config cache tokens depths none = some (id, matched)) :
    id ∈ cache.entries := by
  rcases deepest_some h with hnone | ⟨hid, -⟩
  · cases hnone
  · exact hid

/-- A lookup moves its hit to the front, and changes nothing else. -/
theorem lookup_reorders (config : CacheConfig) (cache : PrefixCache) (tokens : List Token) :
    ∃ entries, entries.Perm cache.entries ∧
      (cache.lookup config tokens).1 = { cache with entries := entries } := by
  unfold lookup
  split
  next => exact ⟨cache.entries, .refl _, rfl⟩
  next =>
    split
    next => exact ⟨cache.entries, .refl _, rfl⟩
    next id _ hdeepest =>
      exact ⟨id :: cache.entries.erase id, (List.perm_cons_erase (deepest_mem hdeepest)).symm, rfl⟩

/-- A hit is a listed entry whose tokens are a proper prefix of the prompt. -/
theorem lookup_some {config : CacheConfig} {tokens : List Token} {after : PrefixCache} {hit : Hit}
    (h : cache.lookup config tokens = (after, some hit)) :
    hit.entry ∈ cache.entries ∧ 0 < hit.matched ∧ hit.matched < tokens.length ∧
      (cache.entry hit.entry).tokens = tokens.take hit.matched := by
  unfold lookup at h
  split at h
  next => cases h
  next hlong =>
    split at h
    next => cases h
    next id matched hdeepest =>
      cases h
      rcases deepest_some hdeepest with hnone | ⟨hid, depth, hdepth, hmatched, htokens, -⟩
      · cases hnone
      · refine ⟨hid, ?_, ?_, htokens⟩
        all_goals
          obtain ⟨k, hk, rfl⟩ := List.mem_map.mp hdepth
          have hbound := List.mem_range.mp hk
          have hblock : 0 < config.block := Nat.lt_of_lt_of_le Nat.one_pos (Nat.le_max_left _ _)
          dsimp only
          rw [hmatched]
        · exact Nat.mul_pos (Nat.succ_pos k) hblock
        · have hfits : (k + 1) * config.block ≤ tokens.length - 1 :=
            (Nat.le_div_iff_mul_le hblock).mp hbound
          omega

theorem lookup_keeps (config : CacheConfig) (tokens : List Token) (h : cache.Sound kv lanes) :
    Keeps kv lanes (fun _ => True) cache (cache.lookup config tokens).1 := by
  obtain ⟨entries, hperm, heq⟩ := lookup_reorders config cache tokens
  rw [heq]
  exact ⟨h.relist cache.bytes cache.hostBytes fun _ hother => hperm.subset hother,
    evolves_relist _ _ cache _ _ _⟩

end Operations

end PrefixCache

end Arcint.Cache
