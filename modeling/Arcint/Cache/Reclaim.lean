import Arcint.Cache.Ownership

/-! # What goes back to the pool

A page without a reference is on the free list, and an entry that has pages is in the
cache's list or kept by a lane: nothing is lost between the two. Whenever no request
runs, the references of a page are therefore the listed entries that name it.
-/

namespace Arcint.Cache

open Arcint.Core Foundation

/-! ## The pool -/

namespace BlockPool

variable {pool : BlockPool}

/-- Every page without a reference is on the free list. -/
def Complete (pool : BlockPool) : Prop :=
  ∀ page < pool.total, pool.refs page = 0 → page ∈ pool.free

theorem new_complete (total : Nat) : (new total).Complete :=
  fun _ hpage _ => List.mem_range.mpr hpage

theorem allocate_complete {n : Nat} {out : List Nat} {after : BlockPool} (h : pool.Complete)
    (hallocate : pool.allocate n = some (out, after)) :
    after.total = pool.total ∧ after.Complete := by
  unfold allocate at hallocate
  split at hallocate
  next => cases hallocate
  next =>
    cases hallocate
    refine ⟨rfl, fun page hpage hzero => ?_⟩
    dsimp only at hpage hzero ⊢
    split at hzero
    next => cases hzero
    next hout =>
      have hfree := h page hpage hzero
      rw [← List.take_append_drop n pool.free] at hfree
      exact (List.mem_append.mp hfree).resolve_left hout

theorem refOne_complete (h : pool.Complete) (page : Nat) :
    (pool.refOne page).total = pool.total ∧ (pool.refOne page).Complete := by
  unfold refOne
  split
  next => exact ⟨rfl, h⟩
  next =>
    refine ⟨rfl, fun other hother hzero => ?_⟩
    by_cases hsame : other = page
    · simp [hsame] at hzero
    · exact h other hother (by simpa [hsame] using hzero)

theorem ref_complete (h : pool.Complete) (blocks : List Nat) :
    (pool.ref blocks).total = pool.total ∧ (pool.ref blocks).Complete := by
  induction blocks generalizing pool with
  | nil => exact ⟨rfl, h⟩
  | cons head rest ih =>
      obtain ⟨htotal, hone⟩ := refOne_complete h head
      obtain ⟨hrest, hall⟩ := ih hone
      exact ⟨hrest.trans htotal, hall⟩

theorem releaseOne_complete (h : pool.Complete) (page : Nat) :
    (pool.releaseOne page).total = pool.total ∧ (pool.releaseOne page).Complete := by
  unfold releaseOne
  split
  next => exact ⟨rfl, h⟩
  next hheld =>
    refine ⟨rfl, fun other hother hzero => ?_⟩
    dsimp only at hother hzero ⊢
    by_cases hsame : other = page
    · rw [hsame, Function.update_self] at hzero
      rw [if_pos (by omega), hsame]
      exact List.mem_cons_self
    · rw [Function.update_of_ne hsame] at hzero
      have hfree := h other hother hzero
      split
      · exact List.mem_cons_of_mem _ hfree
      · exact hfree

theorem release_complete (h : pool.Complete) (blocks : List Nat) :
    (pool.release blocks).total = pool.total ∧ (pool.release blocks).Complete := by
  induction blocks generalizing pool with
  | nil => exact ⟨rfl, h⟩
  | cons head rest ih =>
      obtain ⟨htotal, hone⟩ := releaseOne_complete h head
      obtain ⟨hrest, hall⟩ := ih hone
      exact ⟨hrest.trans htotal, hall⟩

end BlockPool

/-! ## The cache -/

namespace PrefixCache

/-- An entry with pages is listed or held. -/
def Alive (held : Nat → Bool) (cache : PrefixCache) : Prop :=
  ∀ id < cache.created, (cache.entry id).blocks ≠ [] → id ∈ cache.entries ∨ held id = true

/-- The list names entries, each once, and no entry names a page twice. -/
structure Distinct (cache : PrefixCache) : Prop where
  listed : ∀ id ∈ cache.entries, id < cache.created
  once : cache.entries.Nodup
  blocks : ∀ id < cache.created, (cache.entry id).blocks.Nodup

/-- What an operation does with pages: those of an entry stay or go back, and none is
lost. -/
structure Reclaims (held : Nat → Bool) (before after : PrefixCache) : Prop where
  pool : before.pool.Complete →
    after.pool.total = before.pool.total ∧ after.pool.Complete
  created : before.created ≤ after.created
  shrinks : ∀ id < before.created,
    (after.entry id).blocks = (before.entry id).blocks ∨ (after.entry id).blocks = []
  tokens : ∀ id < before.created, (after.entry id).tokens = (before.entry id).tokens
  alive : Alive held before → Alive held after
  distinct : Distinct before → Distinct after

variable {held : Nat → Bool} {cache : PrefixCache}

theorem Reclaims.refl (held : Nat → Bool) (cache : PrefixCache) : Reclaims held cache cache :=
  ⟨fun h => ⟨rfl, h⟩, Nat.le_refl _, fun _ _ => .inl rfl, fun _ _ => rfl, fun h => h, fun h => h⟩

/-- An operation that creates no entry and only takes from the list. -/
theorem Distinct.shrink {after : PrefixCache} (h : cache.Distinct)
    (hcreated : after.created = cache.created)
    (hshrinks : ∀ id < cache.created,
      (after.entry id).blocks = (cache.entry id).blocks ∨ (after.entry id).blocks = [])
    (hlisted : ∀ id ∈ after.entries, id ∈ cache.entries) (honce : after.entries.Nodup) :
    after.Distinct where
  listed id hid := by
    rw [hcreated]
    exact h.listed id (hlisted id hid)
  once := honce
  blocks id hid := by
    rw [hcreated] at hid
    rcases hshrinks id hid with hsame | hnone
    · rw [hsame]
      exact h.blocks id hid
    · rw [hnone]
      exact List.nodup_nil

theorem Reclaims.trans {a b c : PrefixCache} (hab : Reclaims held a b) (hbc : Reclaims held b c) :
    Reclaims held a c where
  pool h := by
    obtain ⟨hfirst, hb⟩ := hab.pool h
    obtain ⟨hsecond, hc⟩ := hbc.pool hb
    exact ⟨hsecond.trans hfirst, hc⟩
  created := hab.created.trans hbc.created
  shrinks id hid := by
    rcases hbc.shrinks id (Nat.lt_of_lt_of_le hid hab.created) with hsame | hnone
    · rw [hsame]
      exact hab.shrinks id hid
    · exact .inr hnone
  tokens id hid :=
    (hbc.tokens id (Nat.lt_of_lt_of_le hid hab.created)).trans (hab.tokens id hid)
  alive h := hbc.alive (hab.alive h)
  distinct h := hbc.distinct (hab.distinct h)

/-- The last reference to an entry takes its pages along. -/
theorem letGo_alive {id : Nat} (hrest : ∀ other < cache.created, other ≠ id →
    (cache.entry other).blocks ≠ [] → other ∈ cache.entries ∨ held other = true) :
    Alive held (letGo held cache id) := by
  unfold letGo
  split
  next hstays =>
    intro other hother hne
    by_cases hsame : other = id
    · rw [hsame]
      exact hstays.symm
    · exact hrest other hother hsame hne
  next =>
    intro other hother hne
    by_cases hsame : other = id
    · exact absurd (by simp [hsame]) hne
    · simp only [Function.update_of_ne hsame] at hne
      exact hrest other hother hsame hne

/-- At most the pages of an entry go. -/
theorem letGo_clears (id other : Nat) :
    (letGo held cache id).entry other = cache.entry other ∨
      (letGo held cache id).entry other = { cache.entry other with blocks := [] } := by
  unfold letGo
  split
  next => exact .inl rfl
  next =>
    by_cases hsame : other = id
    · subst hsame
      exact .inr (Function.update_self ..)
    · exact .inl (Function.update_of_ne hsame ..)

theorem letGo_shrinks (id other : Nat) :
    ((letGo held cache id).entry other).blocks = (cache.entry other).blocks ∨
      ((letGo held cache id).entry other).blocks = [] := by
  rcases @letGo_clears held cache id other with hsame | hcleared
  · exact .inl (by rw [hsame])
  · exact .inr (by rw [hcleared])

@[simp] theorem letGo_tokens (id other : Nat) :
    ((letGo held cache id).entry other).tokens = (cache.entry other).tokens := by
  rcases letGo_clears id other with heq | heq <;> rw [heq]

theorem letGo_pool (id : Nat) (h : cache.pool.Complete) :
    (letGo held cache id).pool.total = cache.pool.total ∧ (letGo held cache id).pool.Complete := by
  unfold letGo
  split
  next => exact ⟨rfl, h⟩
  next => exact BlockPool.release_complete h _

/-- An entry leaves the list, and its reference with it. -/
theorem letGo_reclaims (bytes hostBytes : Nat) {entries : List Nat} {id : Nat}
    (hsublist : entries.Sublist cache.entries)
    (hrest : ∀ other ∈ cache.entries, other ≠ id → other ∈ entries) :
    Reclaims held cache (letGo held
      { cache with bytes := bytes, hostBytes := hostBytes, entries := entries } id) where
  pool h := letGo_pool id h
  created := by rw [letGo_created]
  shrinks other _ := letGo_shrinks id other
  tokens other _ := by rw [letGo_tokens]
  alive halive := letGo_alive fun other hother hsame hne =>
    (halive other hother hne).imp_left fun hlisted => hrest other hlisted hsame
  distinct h := by
    refine h.shrink (letGo_created _ _ id) (fun other _ => letGo_shrinks id other) ?_ ?_
    · intro other hother
      rw [letGo_entries] at hother
      exact hsublist.subset hother
    · rw [letGo_entries]
      exact h.once.sublist hsublist

theorem dropBack_reclaims : Reclaims held cache (cache.dropBack held) := by
  unfold dropBack
  split
  next => exact .refl _ _
  next id hlast =>
    refine letGo_reclaims _ _ (List.dropLast_sublist _) fun other hother hne => ?_
    rw [← List.dropLast_append_getLast? id hlast] at hother
    rcases List.mem_append.mp hother with hfirst | hid
    · exact hfirst
    · exact absurd (List.mem_singleton.mp hid) hne

theorem evictToFit_reclaims (config : CacheConfig) (incoming fuel : Nat) :
    Reclaims held cache (evictToFit config held incoming fuel cache) := by
  induction fuel generalizing cache with
  | zero => exact .refl _ _
  | succ fuel ih =>
      unfold evictToFit
      split
      next => exact dropBack_reclaims.trans ih
      next => exact .refl _ _

theorem trimHost_reclaims (config : CacheConfig) (fuel : Nat) :
    Reclaims held cache (trimHost config held fuel cache) := by
  induction fuel generalizing cache with
  | zero => exact .refl _ _
  | succ fuel ih =>
      unfold trimHost
      split
      next =>
        split
        next => exact .refl _ _
        next id _ =>
          refine (letGo_reclaims _ _ List.erase_sublist fun other hother hne => ?_).trans ih
          exact (List.mem_erase_of_ne hne).mpr hother
      next => exact .refl _ _

theorem demote_shrinks (config : CacheConfig) (kv : Nat → Page) (id other : Nat) :
    ((cache.demote config kv id).entry other).blocks = (cache.entry other).blocks ∨
      ((cache.demote config kv id).entry other).blocks = [] := by
  by_cases hsame : other = id
  · exact .inr (by simp [demote, hsame, Entry.demoted])
  · exact .inl (by simp [demote, hsame])

theorem demote_reclaims (config : CacheConfig) (kv : Nat → Page) (id : Nat) :
    Reclaims held cache (cache.demote config kv id) where
  pool h := BlockPool.release_complete h _
  created := Nat.le_refl _
  shrinks other _ := demote_shrinks config kv id other
  tokens other _ := by
    by_cases hsame : other = id
    · simp [demote, hsame, Entry.demoted]
    · simp [demote, hsame]
  alive halive other hother hne := by
    by_cases hsame : other = id
    · exact absurd (by simp [demote, hsame, Entry.demoted]) hne
    · exact halive other hother (by simpa [demote, hsame] using hne)
  distinct h := h.shrink rfl (fun other _ => demote_shrinks config kv id other)
    (fun _ hlisted => hlisted) h.once

theorem evictOldest_reclaims (config : CacheConfig) (kv : Nat → Page) (copied : Bool) :
    Reclaims held cache (cache.evictOldest config held kv copied).1 := by
  unfold evictOldest
  split
  next => exact .refl _ _
  next id _ =>
    split
    next => exact (demote_reclaims config kv id).trans (trimHost_reclaims config _)
    next =>
      refine letGo_reclaims _ _ List.erase_sublist fun other hother hne => ?_
      exact (List.mem_erase_of_ne hne).mpr hother

theorem lookup_reclaims (config : CacheConfig) (tokens : List Token) :
    Reclaims held cache (cache.lookup config tokens).1 := by
  obtain ⟨entries, hperm, heq⟩ := lookup_reorders config cache tokens
  rw [heq]
  refine ⟨fun h => ⟨rfl, h⟩, Nat.le_refl _, fun _ _ => .inl rfl, fun _ _ => rfl, ?_, ?_⟩
  · intro halive other hother hne
    exact (halive other hother hne).imp_left hperm.mem_iff.mpr
  · intro h
    exact h.shrink rfl (fun _ _ => .inl rfl) (fun _ => hperm.mem_iff.mp)
      (hperm.nodup_iff.mpr h.once)

theorem withPool_reclaims {pool : BlockPool}
    (hpool : cache.pool.Complete → pool.total = cache.pool.total ∧ pool.Complete) :
    Reclaims held cache { cache with pool := pool } :=
  ⟨hpool, Nat.le_refl _, fun _ _ => .inl rfl, fun _ _ => rfl, fun h => h,
    fun h => ⟨h.listed, h.once, h.blocks⟩⟩

theorem insert_reclaims (config : CacheConfig) (tokens : List Token) (prefixLen bytes : Nat)
    {blocks : List Nat} (hblocks : blocks.Nodup) :
    Reclaims held cache (cache.insert config held tokens prefixLen bytes blocks) := by
  have hback : Reclaims held cache { cache with pool := cache.pool.release blocks } :=
    withPool_reclaims fun h => BlockPool.release_complete h blocks
  unfold insert
  dsimp only
  split
  next => exact hback
  next =>
    split
    next => exact hback
    next =>
      split
      next => exact hback
      next =>
        refine (evictToFit_reclaims config bytes cache.entries.length).trans ?_
        generalize evictToFit config held bytes cache.entries.length cache = evicted
        refine ⟨fun h => ⟨rfl, h⟩, Nat.le_succ _, ?_, ?_, ?_, ?_⟩
        · intro id hid
          exact .inl (by simp [Nat.ne_of_lt hid])
        · intro id hid
          simp [Nat.ne_of_lt hid]
        · intro halive id hid hne
          by_cases hsame : id = evicted.created
          · exact .inl (hsame ▸ List.mem_cons_self)
          · have hold : id < evicted.created := Nat.lt_of_le_of_ne (Nat.lt_succ_iff.mp hid) hsame
            simp only [Function.update_of_ne hsame] at hne
            exact (halive id hold hne).imp_left (List.mem_cons_of_mem _)
        · intro h
          refine ⟨?_, ?_, ?_⟩
          · intro id hid
            rcases List.mem_cons.mp hid with rfl | hid
            · exact Nat.lt_succ_self _
            · exact Nat.lt_succ_of_lt (h.listed id hid)
          · refine List.nodup_cons.mpr ⟨fun hlisted => ?_, h.once⟩
            exact Nat.lt_irrefl _ (h.listed _ hlisted)
          · intro id hid
            by_cases hsame : id = evicted.created
            · simpa [hsame] using hblocks
            · simpa [hsame] using
                h.blocks id (Nat.lt_of_le_of_ne (Nat.lt_succ_iff.mp hid) hsame)

/-- The entry that takes the pages of a promotion is listed. -/
theorem promote_alive {id : Nat} {pages : List Nat} {after : PrefixCache}
    (hpromote : cache.promote id pages = (after, true)) (hpages : pages.Nodup)
    (halive : Alive held cache) (hdistinct : Distinct cache) :
    after.pool = cache.pool ∧ Alive held after ∧ Distinct after := by
  unfold promote at hpromote
  split at hpromote
  next hlisted =>
    cases hpromote
    refine ⟨rfl, fun other hother hne => ?_, hdistinct.listed, hdistinct.once,
      fun other hother => ?_⟩
    · by_cases hsame : other = id
      · exact .inl (hsame ▸ hlisted.1)
      · simp only [Function.update_of_ne hsame] at hne
        exact halive other hother hne
    · by_cases hsame : other = id
      · simpa [hsame, Entry.promoted] using hpages
      · simpa [hsame] using hdistinct.blocks other hother
  next => cases hpromote

end PrefixCache

/-! ## One step -/

section Steps

variable {n : Nat}

theorem held_iff {lane : Fin n → Lane} {id : Nat} :
    State.held lane id = true ↔ ∃ l, (lane l).keeps id = true := by
  simp [State.held]

/-- No hit is kept: none is mapped yet, or it was let go. -/
def Pc.unkept : Pc → Bool
  | .idle | .lookup | .promote | .promoteEvict | .hostCopy | .record | .giveBack | .check | .ref
  | .copy | .cold => true
  | _ => false

/-- No page twice in a lane's hands, and no reference to an entry left behind. -/
structure Lane.Tidy (lane : Lane) : Prop where
  unkept : lane.pc.unkept = true → lane.hitKeep = none
  blocks : lane.blocks.Nodup
  pending : lane.pending.Nodup

/-- Nothing is lost between the pool and the entries. -/
structure Settled (total : Nat) (s : State n) : Prop where
  total : s.cache.pool.total = total
  complete : s.cache.pool.Complete
  alive : s.cache.Alive (State.held s.lane)
  distinct : s.cache.Distinct
  tidy : ∀ l, (s.lane l).Tidy

variable {total : Nat} {s next : State n} {l : Fin n}

theorem held_update_of_keeps {lane : Lane} {id : Nat}
    (hkeeps : (s.lane l).keeps id = true → lane.keeps id = true)
    (hheld : State.held s.lane id = true) :
    State.held (Function.update s.lane l lane) id = true := by
  obtain ⟨other, hother⟩ := held_iff.mp hheld
  apply held_iff.mpr
  refine ⟨other, ?_⟩
  by_cases hsame : other = l
  · rw [hsame, Function.update_self]
    exact hkeeps (hsame ▸ hother)
  · rw [Function.update_of_ne hsame]
    exact hother

theorem initial_settled (n total : Nat) (kv : Nat → Page) :
    Settled total (State.initial n total kv) where
  total := rfl
  complete := BlockPool.new_complete total
  alive id hid := absurd hid (Nat.not_lt_zero id)
  distinct := ⟨fun _ hid => (by cases hid), List.nodup_nil,
    fun id hid => absurd hid (Nat.not_lt_zero id)⟩
  tidy _ := ⟨fun _ => rfl, List.nodup_nil, List.nodup_nil⟩

theorem Settled.tidy_update (h : Settled total s) {lane : Lane} (htidy : lane.Tidy)
    (other : Fin n) : (Function.update s.lane l lane other).Tidy := by
  by_cases hsame : other = l
  · rw [hsame, Function.update_self]
    exact htidy
  · rw [Function.update_of_ne hsame]
    exact h.tidy other

/-- A step after which the lane keeps at least the entries it kept. -/
theorem Settled.act (h : Settled total s) (l : Fin n) {cache : PrefixCache} {kv : Nat → Page}
    {lane : Lane} (hreclaims : s.cache.Reclaims (State.held s.lane) cache)
    (hkeeps : ∀ id, (s.lane l).keeps id = true → lane.keeps id = true) (htidy : lane.Tidy) :
    Settled total ⟨cache, kv, Function.update s.lane l lane⟩ := by
  obtain ⟨htotal, hcomplete⟩ := hreclaims.pool h.complete
  refine ⟨htotal.trans h.total, hcomplete, fun id hid hne => ?_, hreclaims.distinct h.distinct,
    h.tidy_update htidy⟩
  exact (hreclaims.alive h.alive id hid hne).imp_right (held_update_of_keeps (hkeeps id))

/-- A step that leaves the cache alone. -/
theorem Settled.local (h : Settled total s) (l : Fin n) {kv : Nat → Page} {lane : Lane}
    (hkeeps : ∀ id, (s.lane l).keeps id = true → lane.keeps id = true) (htidy : lane.Tidy) :
    Settled total ⟨s.cache, kv, Function.update s.lane l lane⟩ :=
  h.act l (.refl _ _) hkeeps htidy

/-- A step that gives pages back. -/
theorem Settled.release (h : Settled total s) (l : Fin n) (blocks : List Nat) {lane : Lane}
    (hkeeps : ∀ id, (s.lane l).keeps id = true → lane.keeps id = true) (htidy : lane.Tidy) :
    Settled total ⟨{ s.cache with pool := s.cache.pool.release blocks }, s.kv,
      Function.update s.lane l lane⟩ :=
  h.act l (PrefixCache.withPool_reclaims fun hcomplete =>
    BlockPool.release_complete hcomplete blocks) hkeeps htidy

/-- A step that takes references. -/
theorem Settled.ref (h : Settled total s) (l : Fin n) (blocks : List Nat) {lane : Lane}
    (hkeeps : ∀ id, (s.lane l).keeps id = true → lane.keeps id = true) (htidy : lane.Tidy) :
    Settled total ⟨{ s.cache with pool := s.cache.pool.ref blocks }, s.kv,
      Function.update s.lane l lane⟩ :=
  h.act l (PrefixCache.withPool_reclaims fun hcomplete =>
    BlockPool.ref_complete hcomplete blocks) hkeeps htidy

/-- A step that takes fresh pages. -/
theorem Settled.allocate (h : Settled total s) (l : Fin n) {m : Nat} {out : List Nat}
    {pool : BlockPool} (hallocate : s.cache.pool.allocate m = some (out, pool)) {lane : Lane}
    (hkeeps : ∀ id, (s.lane l).keeps id = true → lane.keeps id = true) (htidy : lane.Tidy) :
    Settled total ⟨{ s.cache with pool := pool }, s.kv, Function.update s.lane l lane⟩ :=
  h.act l (PrefixCache.withPool_reclaims fun hcomplete =>
    BlockPool.allocate_complete hcomplete hallocate) hkeeps htidy

/-- A step that drops one reference to an entry. -/
theorem letGo_settled (h : Settled total s) {lane : Lane} {id : Option Nat}
    (hkeeps : ∀ other, id ≠ some other → (s.lane l).keeps other = true →
      lane.keeps other = true) (htidy : lane.Tidy) :
    Settled total (s.letGo l lane id) := by
  cases id with
  | none => exact h.local l (fun other => hkeeps other (by simp)) htidy
  | some i =>
      obtain ⟨htotal, hcomplete⟩ := @PrefixCache.letGo_pool
        (State.held (Function.update s.lane l lane)) s.cache i h.complete
      refine ⟨htotal.trans h.total, hcomplete, ?_, ?_, h.tidy_update htidy⟩
      · apply PrefixCache.letGo_alive
        intro other hother hsame hne
        exact (h.alive other hother hne).imp_right
          (held_update_of_keeps (hkeeps other (by simpa using Ne.symm hsame)))
      · refine h.distinct.shrink (PrefixCache.letGo_created _ _ i)
          (fun other _ => PrefixCache.letGo_shrinks i other) ?_ ?_
        · intro other hother
          exact (PrefixCache.letGo_entries _ _ i) ▸ hother
        · exact (PrefixCache.letGo_entries _ _ i).symm ▸ h.distinct.once

theorem lookup_settled (config : BackendConfig) (hinv : Inv s) (h : Settled total s)
    (hstep : s.lookup config l = some next) : Settled total next := by
  have hat := (hinv.lanes l).atPc
  obtain ⟨hkept, hblocks, hpending⟩ := h.tidy l
  have hreclaims := @PrefixCache.lookup_reclaims (State.held s.lane) s.cache config.cache
    (s.lane l).prompt
  unfold State.lookup at hstep
  dsimp only at hstep
  split at hstep
  next hpc =>
    simp only [Lane.AtPc, hpc] at hat hkept
    have hkeeps : ∀ (hit : Option Hit) (pc : Pc) (id : Nat), (s.lane l).keeps id = true →
        Lane.keeps { s.lane l with hit := hit, pc := pc } id = true := by
      intro hit pc id hid
      simp [Lane.keeps, hat.2.2, hkept rfl] at hid
    split at hstep
    next cache hlookup =>
      cases hstep
      rw [hlookup] at hreclaims
      exact h.act l hreclaims (hkeeps none .cold) ⟨fun _ => hkept rfl, hblocks, hpending⟩
    next cache hit hlookup =>
      cases hstep
      rw [hlookup] at hreclaims
      exact h.act l hreclaims (hkeeps (some hit) _) ⟨fun _ => hkept rfl, hblocks, hpending⟩
  next => cases hstep

/-- Fresh pages are none of the lane's own. -/
theorem append_nodup (hinv : Inv s) (h : Settled total s) {m : Nat} {fresh : List Nat}
    {pool : BlockPool} (hallocate : s.cache.pool.allocate m = some (fresh, pool)) :
    ((s.lane l).blocks ++ fresh).Nodup := by
  have hallocates := BlockPool.allocate_some hinv.cache.pool hallocate
  refine List.nodup_append.mpr ⟨(h.tidy l).blocks, hallocates.nodup, ?_⟩
  rintro page hpage _ hfresh rfl
  exact held_ne_zero hinv (List.mem_append_left _ hpage) (hallocates.fresh page hfresh)

theorem ensureBlocks_settled (hinv : Inv s) (h : Settled total s) (tokens : Nat)
    {covered evict : Pc} (hcovered : covered.unkept = false) (hevict : evict.unkept = false) :
    Settled total (s.ensureBlocks l tokens covered evict) := by
  obtain ⟨_, hblocks, hpending⟩ := h.tidy l
  unfold State.ensureBlocks
  dsimp only
  split
  next =>
    exact h.local l (fun _ hid => hid) ⟨fun hpc => by simp [hcovered] at hpc, hblocks, hpending⟩
  next =>
    split
    next =>
      exact h.local l (fun _ hid => hid) ⟨fun hpc => by simp [hevict] at hpc, hblocks, hpending⟩
    next hallocate =>
      exact h.allocate l hallocate (fun _ hid => hid)
        ⟨fun hpc => by simp [hcovered] at hpc, append_nodup hinv h hallocate, hpending⟩

theorem allocate_settled (config : BackendConfig) (hinv : Inv s) (h : Settled total s)
    (hstep : s.allocate config l = some next) : Settled total next := by
  obtain ⟨hkept, hblocks, hpending⟩ := h.tidy l
  unfold State.allocate at hstep
  dsimp only at hstep
  split at hstep
  next hpc _ =>
    rw [hpc] at hkept
    split at hstep
    next =>
      cases hstep
      exact h.local l (fun _ hid => hid) ⟨fun _ => hkept rfl, hblocks, hpending⟩
    next hallocate =>
      cases hstep
      exact h.allocate l hallocate (fun _ hid => hid) ⟨fun _ => hkept rfl, hblocks,
        (BlockPool.allocate_some hinv.cache.pool hallocate).nodup⟩
  next =>
    cases hstep
    exact ensureBlocks_settled hinv h _ rfl rfl
  next =>
    cases hstep
    exact ensureBlocks_settled hinv h _ rfl rfl
  next => cases hstep

/-- Only the eviction of a promotion goes on without a table. -/
theorem afterEvict_unkept {pc after : Pc} {evicted : Bool}
    (hafter : State.afterEvict pc evicted = some after) (hunkept : after.unkept = true) :
    pc.unkept = true := by
  unfold State.afterEvict at hafter
  split at hafter
  all_goals first
    | rfl
    | (cases hafter <;> cases hunkept)

theorem evict_settled (config : BackendConfig) (h : Settled total s) {copied : Bool}
    (hstep : s.evict config l copied = some next) : Settled total next := by
  obtain ⟨hkept, hblocks, hpending⟩ := h.tidy l
  unfold State.evict at hstep
  dsimp only at hstep
  obtain ⟨pc, hafter, rfl⟩ := Option.map_eq_some_iff.mp hstep
  exact h.act l (PrefixCache.evictOldest_reclaims config.cache s.kv copied) (fun _ hid => hid)
    ⟨fun hpc => hkept (afterEvict_unkept hafter hpc), hblocks, hpending⟩

theorem hostCopy_settled (h : Settled total s) {copied : Bool}
    (hstep : s.hostCopy l copied = some next) : Settled total next := by
  obtain ⟨hkept, hblocks, hpending⟩ := h.tidy l
  unfold State.hostCopy at hstep
  dsimp only at hstep
  split at hstep
  next hpc _ =>
    rw [hpc] at hkept
    split at hstep
    next =>
      cases hstep
      exact h.local l (fun _ hid => hid) ⟨fun _ => hkept rfl, hblocks, hpending⟩
    next =>
      split at hstep
      all_goals
        cases hstep
        exact h.local l (fun _ hid => hid) ⟨fun _ => hkept rfl, hblocks, hpending⟩
  next => cases hstep

theorem promote_settled (h : Settled total s) (hstep : s.promote l = some next) :
    Settled total next := by
  obtain ⟨hkept, hblocks, hpending⟩ := h.tidy l
  unfold State.promote at hstep
  dsimp only at hstep
  split at hstep
  next hpc _ =>
    rw [hpc] at hkept
    split at hstep
    next hpromote =>
      cases hstep
      obtain ⟨hpool, halive, hdistinct⟩ :=
        PrefixCache.promote_alive hpromote hpending h.alive h.distinct
      refine ⟨by rw [← h.total, ← hpool], hpool ▸ h.complete, fun id hid hne => ?_, hdistinct,
        h.tidy_update ⟨fun _ => hkept rfl, hblocks, List.nodup_nil⟩⟩
      exact (halive id hid hne).imp_right (held_update_of_keeps fun hid => hid)
    next =>
      cases hstep
      exact h.local l (fun _ hid => hid) ⟨fun _ => hkept rfl, hblocks, hpending⟩
  next => cases hstep

theorem check_settled (h : Settled total s) (hstep : s.check l = some next) :
    Settled total next := by
  obtain ⟨hkept, hblocks, hpending⟩ := h.tidy l
  unfold State.check at hstep
  dsimp only at hstep
  split at hstep
  next hpc _ =>
    cases hstep
    rw [hpc] at hkept
    exact h.local l (fun _ hid => hid) ⟨fun _ => hkept rfl, hblocks, hpending⟩
  next => cases hstep

theorem ref_settled (hinv : Inv s) (h : Settled total s) (hstep : s.ref l = some next) :
    Settled total next := by
  obtain ⟨hkept, hblocks, _⟩ := h.tidy l
  unfold State.ref at hstep
  dsimp only at hstep
  split at hstep
  next hit hpc hhit =>
    cases hstep
    rw [hpc] at hkept
    exact h.ref l _ (fun _ hid => hid) ⟨fun _ => hkept rfl, hblocks,
      h.distinct.blocks _ ((hinv.lanes l).hit hit hhit).1⟩
  next => cases hstep

theorem copy_settled (hinv : Inv s) (h : Settled total s) (hstep : s.copy l = some next) :
    Settled total next := by
  have hkept := (h.tidy l).unkept
  unfold State.copy at hstep
  dsimp only at hstep
  split at hstep
  next hit hpc hhit =>
    cases hstep
    rw [hpc] at hkept
    refine h.local l (fun id hid => ?_) ⟨fun hpc => (by cases hpc),
      h.distinct.blocks _ ((hinv.lanes l).hit hit hhit).1, List.nodup_nil⟩
    simp only [Lane.keeps, hkept rfl, hhit] at hid ⊢
    simp at hid
    simp [hid]
  next => cases hstep

theorem restore_settled (h : Settled total s) {restored : Bool}
    (hstep : s.restore l restored = some next) : Settled total next := by
  obtain ⟨_, hblocks, hpending⟩ := h.tidy l
  unfold State.restore at hstep
  dsimp only at hstep
  split at hstep
  next =>
    split at hstep
    next =>
      cases hstep
      exact h.local l (fun _ hid => hid) ⟨fun hpc => (by cases hpc), hblocks, hpending⟩
    next =>
      cases hstep
      exact h.release l _ (fun _ hid => hid)
        ⟨fun hpc => (by cases hpc), List.nodup_nil, hpending⟩
  next => cases hstep

/-- A lane that drops what it keeps still has its hit. -/
theorem Lane.keeps_unkept {lane : Lane} {pc : Pc} {id : Nat} (hne : lane.hitKeep ≠ some id)
    (hkeeps : lane.keeps id = true) :
    Lane.keeps { lane with hitKeep := none, pc := pc } id = true := by
  simp only [Lane.keeps, beq_eq_false_iff_ne.mpr hne, Bool.or_false] at hkeeps
  simp [Lane.keeps, hkeeps]

theorem unkeep_settled (h : Settled total s) (hstep : s.unkeep l = some next) :
    Settled total next := by
  obtain ⟨_, hblocks, hpending⟩ := h.tidy l
  obtain ⟨_, hnext⟩ := Option.ite_none_right_eq_some.mp hstep
  cases hnext
  exact letGo_settled h (fun _ => Lane.keeps_unkept) ⟨fun _ => rfl, hblocks, hpending⟩

theorem unmap_settled (h : Settled total s) (hstep : s.unmap l = some next) :
    Settled total next := by
  obtain ⟨_, hblocks, hpending⟩ := h.tidy l
  obtain ⟨_, hnext⟩ := Option.ite_none_right_eq_some.mp hstep
  cases hnext
  exact letGo_settled h (fun _ => Lane.keeps_unkept) ⟨fun _ => rfl, hblocks, hpending⟩

theorem dropHit_settled (h : Settled total s) (hstep : s.dropHit l = some next) :
    Settled total next := by
  obtain ⟨_, hblocks, hpending⟩ := h.tidy l
  obtain ⟨_, hnext⟩ := Option.ite_none_right_eq_some.mp hstep
  cases hnext
  refine letGo_settled h (fun other hne hid => ?_) ⟨fun hpc => (by cases hpc), hblocks, hpending⟩
  cases hhit : (s.lane l).hit with
  | none => simpa [Lane.keeps, hhit] using hid
  | some hit =>
      rw [hhit] at hne
      have hother : (hit.entry == other) = false :=
        beq_eq_false_iff_ne.mpr fun heq => hne (by rw [← heq]; rfl)
      simpa [Lane.keeps, hhit, hother] using hid

theorem nextChunk_kept (lane : Lane) : (State.nextChunk lane).unkept = false := by
  unfold State.nextChunk
  split <;> rfl

theorem forward_settled (config : BackendConfig) (h : Settled total s)
    (hstep : s.forward config l = some next) : Settled total next := by
  obtain ⟨_, hblocks, hpending⟩ := h.tidy l
  obtain ⟨_, hnext⟩ := Option.ite_none_right_eq_some.mp hstep
  cases hnext
  refine h.local l (fun _ hid => hid) ⟨fun hpc => ?_, hblocks, hpending⟩
  dsimp only at hpc
  split at hpc
  next => cases hpc
  next => simp [nextChunk_kept] at hpc

theorem snapshot_settled (h : Settled total s) {took : Bool}
    (hstep : s.snapshot l took = some next) : Settled total next := by
  obtain ⟨_, hblocks, hpending⟩ := h.tidy l
  obtain ⟨_, hnext⟩ := Option.ite_none_right_eq_some.mp hstep
  split at hnext
  next =>
    cases hnext
    exact h.ref l _ (fun _ hid => hid) ⟨fun hpc => (by cases hpc), hblocks, hblocks.take⟩
  next =>
    cases hnext
    refine h.local l (fun _ hid => hid) ⟨fun hpc => ?_, hblocks, hpending⟩
    simp [nextChunk_kept] at hpc

theorem insert_settled (config : BackendConfig) (h : Settled total s) {bytes : Nat}
    (hstep : s.insert config l bytes = some next) : Settled total next := by
  obtain ⟨_, hblocks, hpending⟩ := h.tidy l
  obtain ⟨_, hnext⟩ := Option.ite_none_right_eq_some.mp hstep
  cases hnext
  refine h.act l (PrefixCache.insert_reclaims config.cache _ _ bytes hpending) (fun _ hid => hid)
    ⟨fun hpc => ?_, hblocks, List.nodup_nil⟩
  simp [nextChunk_kept] at hpc

theorem step_settled {config : BackendConfig} {event : Event n} (hinv : Inv s)
    (h : Settled total s) (hstep : (lanesMachine n config).step s event = some next) :
    Settled total next := by
  cases event with
  | start l prompt =>
      obtain ⟨hkept, _, hpending⟩ := h.tidy l
      obtain ⟨hidle, hnext⟩ := Option.ite_none_right_eq_some.mp hstep
      cases hnext
      rw [hidle.1] at hkept
      exact h.local l (fun _ hid => hid) ⟨fun _ => hkept rfl, List.nodup_nil, hpending⟩
  | lookup l => exact lookup_settled config hinv h hstep
  | allocate l => exact allocate_settled config hinv h hstep
  | evict l copied => exact evict_settled config h hstep
  | hostCopy l copied => exact hostCopy_settled h hstep
  | promote l => exact promote_settled h hstep
  | giveBack l =>
      obtain ⟨hkept, hblocks, _⟩ := h.tidy l
      obtain ⟨hpc, hnext⟩ := Option.ite_none_right_eq_some.mp hstep
      cases hnext
      rw [hpc] at hkept
      exact h.release l _ (fun _ hid => hid) ⟨fun _ => hkept rfl, hblocks, List.nodup_nil⟩
  | check l => exact check_settled h hstep
  | ref l => exact ref_settled hinv h hstep
  | copy l => exact copy_settled hinv h hstep
  | restore l restored => exact restore_settled h hstep
  | unkeep l => exact unkeep_settled h hstep
  | dropHit l => exact dropHit_settled h hstep
  | forward l => exact forward_settled config h hstep
  | snapshot l took => exact snapshot_settled h hstep
  | insert l bytes => exact insert_settled config h hstep
  | decodeForward l ids accepted =>
      obtain ⟨_, hblocks, hpending⟩ := h.tidy l
      obtain ⟨_, hnext⟩ := Option.ite_none_right_eq_some.mp hstep
      cases hnext
      exact h.local l (fun _ hid => hid) ⟨fun hpc => (by cases hpc), hblocks, hpending⟩
  | finish l =>
      obtain ⟨_, _, hpending⟩ := h.tidy l
      obtain ⟨_, hnext⟩ := Option.ite_none_right_eq_some.mp hstep
      cases hnext
      exact h.release l _ (fun _ hid => hid) ⟨fun hpc => (by cases hpc), List.nodup_nil, hpending⟩
  | unmap l => exact unmap_settled h hstep

end Steps

/-! ## The load -/

/-- The pre-warm forward of a load on its first lane. `kv` is what it leaves in the
pages. -/
structure Prewarm where
  tokens : Nat
  kv : Nat → Page
  threw : Bool

namespace State

variable {n : Nat} (s : State n)

/-- `release_lane` at a load, where no hit is kept. -/
def releaseLane (l : Fin n) : State n :=
  { s with
    cache := { s.cache with pool := s.cache.pool.release (s.lane l).blocks }
    lane := Function.update s.lane l { s.lane l with blocks := [] } }

/-- `reset_lane_request`: the table is cleared, and its pages stay referenced. -/
def resetLaneRequest (l : Fin n) : State n := s.setLane l { s.lane l with blocks := [] }

/-- The pre-warm: pages for its tokens, one forward, and the way back. It is skipped
when the pages are not there. -/
def prewarm (l : Fin n) (warm : Prewarm) : State n :=
  match s.cache.pool.allocate (wanted warm.tokens) with
  | none => s
  | some (fresh, pool) =>
      let held : State n := ⟨{ s.cache with pool := pool }, warm.kv,
        Function.update s.lane l { s.lane l with blocks := fresh }⟩
      if warm.threw then held.resetLaneRequest l else held.releaseLane l

/-- The lanes after a load, with or without a pre-warm. -/
def loaded (total : Nat) (kv : Nat → Page) (l : Fin n) : Option Prewarm → State n
  | none => .initial n total kv
  | some warm => (State.initial n total kv).prewarm l warm

end State

section Load

variable {n : Nat} {total : Nat}

/-- Lanes that have nothing, over a pool in which nothing is referenced. -/
theorem unused_settled {pool : BlockPool} (hpool : pool.Sound) (htotal : pool.total = total)
    (hcomplete : pool.Complete) (hzero : ∀ page, pool.refs page = 0) (kv : Nat → Page) :
    Inv (⟨{ PrefixCache.new total with pool := pool }, kv, fun _ => .new⟩ : State n) ∧
      Settled total
        (⟨{ PrefixCache.new total with pool := pool }, kv, fun _ => .new⟩ : State n) := by
  obtain ⟨hcache, hlanes⟩ := initial_inv n total kv
  obtain ⟨_, _, halive, hdistinct, htidy⟩ := initial_settled n total kv
  refine ⟨⟨⟨hpool, ?_, hcache.entries, hcache.listed⟩, ?_⟩, htotal, hcomplete, halive,
    ⟨hdistinct.listed, hdistinct.once, hdistinct.blocks⟩, htidy⟩
  · intro page
    dsimp only
    rw [hzero page]
    exact hcache.counts page
  · intro l
    have hlane := hlanes l
    exact ⟨fun page hpage => (by cases hpage), hlane.reads, hlane.hit, hlane.keep, hlane.atPc⟩

/-- A pre-warm that runs leaves the lanes as they were. -/
theorem prewarm_ran (kv : Nat → Page) (l : Fin n) {warm : Prewarm} {fresh : List Nat}
    {pool : BlockPool}
    (hallocate : (BlockPool.new total).allocate (State.wanted warm.tokens) = some (fresh, pool))
    (hran : warm.threw = false) :
    (State.initial n total kv).prewarm l warm =
      ⟨{ PrefixCache.new total with pool := pool.release fresh }, warm.kv, fun _ => .new⟩ := by
  have hlanes : Function.update (Function.update (fun _ : Fin n => Lane.new) l
      { Lane.new with blocks := fresh }) l { Lane.new with blocks := [] } = fun _ => Lane.new := by
    rw [Function.update_idem]
    exact Function.update_eq_self l _
  unfold State.prewarm State.initial
  dsimp only [PrefixCache.new]
  rw [hallocate]
  dsimp only
  rw [hran, if_neg Bool.false_ne_true]
  unfold State.releaseLane
  dsimp only
  rw [Function.update_self, hlanes]

/-- A load loses no page, unless its pre-warm throws. -/
theorem loaded_settled (kv : Nat → Page) (l : Fin n) {warm : Option Prewarm}
    (hwarm : ∀ w, warm = some w → w.threw = true → total < State.wanted w.tokens) :
    Inv (State.loaded total kv l warm) ∧ Settled total (State.loaded total kv l warm) := by
  have hcold : Inv (State.initial n total kv) ∧ Settled total (State.initial n total kv) :=
    ⟨initial_inv n total kv, initial_settled n total kv⟩
  cases warm with
  | none => exact hcold
  | some w =>
      cases hallocate : (BlockPool.new total).allocate (State.wanted w.tokens) with
      | none =>
          have hskipped : State.loaded total kv l (some w) = State.initial n total kv := by
            unfold State.loaded State.prewarm State.initial
            dsimp only [PrefixCache.new]
            rw [hallocate]
          rw [hskipped]
          exact hcold
      | some out =>
          obtain ⟨fresh, pool⟩ := out
          have hran : w.threw = false := by
            cases hthrew : w.threw with
            | false => rfl
            | true =>
                have hfew : (BlockPool.new total).free.length < State.wanted w.tokens := by
                  simpa [BlockPool.new] using hwarm w rfl hthrew
                rw [BlockPool.allocate, if_pos hfew] at hallocate
                cases hallocate
          have hallocates := BlockPool.allocate_some (BlockPool.new_sound total) hallocate
          obtain ⟨hsound, hrefs⟩ := BlockPool.release_refs hallocates.sound fun page => by
            rw [hallocates.refs page]
            exact Nat.le_add_left _ _
          obtain ⟨htaken, hcomplete⟩ :=
            BlockPool.allocate_complete (BlockPool.new_complete total) hallocate
          obtain ⟨hback, hcomplete⟩ := BlockPool.release_complete hcomplete fresh
          have hzero : ∀ page, (pool.release fresh).refs page = 0 := by
            intro page
            have hafter := hrefs page
            rw [hallocates.refs page] at hafter
            exact Nat.add_right_cancel hafter
          rw [State.loaded, prewarm_ran kv l hallocate hran]
          exact unused_settled hsound (hback.trans htaken) hcomplete hzero w.kv

/-- With no request running, the references of a page are the listed entries that name
it, and a page no listed entry names is free. -/
def PagesReturned (s : State n) : Prop :=
  (∀ l, (s.lane l).pc = .idle) → ∀ page,
    s.cache.pool.refs page =
        s.cache.entries.countP (fun id => decide (page ∈ (s.cache.entry id).blocks)) ∧
      (page < s.cache.pool.total → (∀ id ∈ s.cache.entries, page ∉ (s.cache.entry id).blocks) →
        page ∈ s.cache.pool.free)

/-- Counting over a list of distinct entries. -/
theorem sum_count_eq_countP {entries : List Nat} {blocks : Nat → List Nat}
    (hblocks : ∀ id ∈ entries, (blocks id).Nodup) (page : Nat) :
    (entries.map fun id => (blocks id).count page).sum =
      entries.countP fun id => decide (page ∈ blocks id) := by
  induction entries with
  | nil => rfl
  | cons id rest ih =>
      have hrest := ih fun other hother => hblocks other (List.mem_cons_of_mem _ hother)
      have hone : (blocks id).count page = if page ∈ blocks id then 1 else 0 :=
        List.Nodup.count (hblocks id List.mem_cons_self)
      rw [List.map_cons, List.sum_cons, List.countP_cons, hrest, hone, Nat.add_comm]
      simp

theorem Settled.pagesReturned {s : State n} (hinv : Inv s) (h : Settled total s) :
    PagesReturned s := by
  intro hidle page
  have hnothing : ∀ l, (s.lane l).held = [] ∧ ∀ id, (s.lane l).keeps id = false := by
    intro l
    have hat := (hinv.lanes l).atPc
    have hkept := (h.tidy l).unkept
    rw [hidle l] at hkept
    simp only [Lane.AtPc, hidle l] at hat
    obtain ⟨hunmapped, hpending, hnohit⟩ := hat
    refine ⟨?_, fun id => ?_⟩
    · rw [Lane.held, hunmapped.blocks, hpending]
      rfl
    · simp [Lane.keeps, hnohit, hkept rfl]
  have hlanes : laneCount s.lane page = 0 := by
    apply Finset.sum_eq_zero
    intro l _
    rw [(hnothing l).1]
    rfl
  have hunlisted : ∀ id < s.cache.created, id ∉ s.cache.entries →
      (s.cache.entry id).blocks = [] := by
    intro id hid hnot
    by_contra hne
    rcases h.alive id hid hne with hlisted | hheld
    · exact hnot hlisted
    · obtain ⟨l, hkeeps⟩ := held_iff.mp hheld
      rw [(hnothing l).2 id] at hkeeps
      cases hkeeps
  have hcount : s.cache.entryCount page =
      s.cache.entries.countP fun id => decide (page ∈ (s.cache.entry id).blocks) := by
    rw [← sum_count_eq_countP (fun id hid => h.distinct.blocks id (h.distinct.listed id hid)),
      ← List.sum_toFinset _ h.distinct.once]
    symm
    apply Finset.sum_subset
    · intro id hid
      exact Finset.mem_range.mpr (h.distinct.listed id (List.mem_toFinset.mp hid))
    · intro id hid hnot
      rw [hunlisted id (Finset.mem_range.mp hid) fun hlisted =>
        hnot (List.mem_toFinset.mpr hlisted)]
      rfl
  have hrefs : s.cache.pool.refs page =
      s.cache.entries.countP fun id => decide (page ∈ (s.cache.entry id).blocks) := by
    rw [hinv.cache.counts page, hlanes, Nat.zero_add, hcount]
  refine ⟨hrefs, fun hpage hnone => h.complete page hpage ?_⟩
  rw [hrefs, List.countP_eq_zero]
  intro id hid
  simpa using hnone id hid

/-- In every run after a load, whatever ends its requests: when none runs, every page is
free or named by as many listed entries as it has references. The pre-warm of the load
does not throw, and no entry is demoted while a lane is about to map it. -/
theorem pages_returned {config : BackendConfig} {kv : Nat → Page} {l : Fin n}
    {warm : Option Prewarm} {events : List (Event n)} {s : State n}
    (hwarm : ∀ w, warm = some w → w.threw = true → total < State.wanted w.tokens)
    (hspares : (lanesMachine n config).Meets (SparesWindows config)
      (State.loaded total kv l warm) events)
    (hrun : (lanesMachine n config).run (State.loaded total kv l warm) events = some s) :
    PagesReturned s := by
  have hstep : ∀ s event next, Inv s ∧ Settled total s → SparesWindows config s event →
      (lanesMachine n config).step s event = some next → Inv next ∧ Settled total next :=
    fun s event next h hallowed hnext =>
      ⟨step_inv h.1 hallowed hnext, step_settled h.1 h.2 hnext⟩
  obtain ⟨hinv, hsettled⟩ :=
    Machine.run_invariant hstep (loaded_settled kv l hwarm) hspares hrun
  exact hsettled.pagesReturned hinv

end Load

attribute [local instance] neZero_two

/-- A pre-warm of 16 tokens on the first lane of a pool of eight pages. -/
def prewarmed (threw : Bool) : State 2 :=
  State.loaded 8 (fun _ _ => []) 0 (some ⟨16, fun _ _ => [], threw⟩)

/-- The first 32 tokens of the request stay in the cache. -/
theorem pages_returned_prefillOnce :
    ∃ s, (lanesMachine 2 twoLanes).run (prewarmed false) prefillOnce = some s ∧
      s.cache.entries = [0] ∧ PagesReturned s := by
  have hentries : ((lanesMachine 2 twoLanes).run (prewarmed false) prefillOnce).map
      (fun s => s.cache.entries) = some [0] := rfl
  obtain ⟨s, hrun, hlisted⟩ := Option.map_eq_some_iff.mp hentries
  refine ⟨s, hrun, hlisted, pages_returned (fun w hw hthrew => ?_)
    (meets_sparesWindows (by decide) _) hrun⟩
  cases hw
  cases hthrew

/-- A pre-warm that throws keeps its pages referenced for good: no entry names them. -/
theorem pages_lost_by_prewarm :
    ∃ s, (lanesMachine 2 twoLanes).run (prewarmed true) [] = some s ∧
      s.cache.pool.refs 0 = 1 ∧ ¬ PagesReturned s := by
  refine ⟨_, rfl, rfl, fun hreturned => ?_⟩
  have hpage := (hreturned (fun l => by revert l; decide) 0).1
  exact absurd hpage (by decide)

end Arcint.Cache
