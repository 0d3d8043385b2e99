import Arcint.Cache.Reclaim

/-! # Pages for every admitted request

`ensure_blocks` allocates, and evicts cached prefixes until the allocation succeeds. The
pool has room for the tables of all lanes, so without a cached page to give back the
allocation succeeds: what a lane pins outside its table are the pages of the one entry
it holds, and these are in its table too. The count fails when an entry a lane holds is
given a second set of pages, and the loop is left too early when another lane takes the
last cached entry between the allocation and the eviction.
-/

namespace Arcint.Cache

open Arcint.Core Foundation

/-- The pages of a lane, as the load sizes the pool. -/
def perLaneBlocks (nCtx draftsMax : Nat) : Nat :=
  (nCtx + draftsMax + kvBlockTokens - 1) / kvBlockTokens + 2

/-- The most pages a table grows to. -/
def tableCap (nCtx draftsMax : Nat) : Nat :=
  (nCtx + draftsMax + kvBlockTokens - 1) / kvBlockTokens + 1

section Machine

variable {n : Nat}

/-- Prompts are shorter than the context, and the decode loop stops at its end. -/
def admits (nCtx : Nat) (s : State n) : Event n → Bool
  | .start _ prompt => decide (prompt.length < nCtx)
  | .allocate l => decide ((s.lane l).pc = .decode → (s.lane l).past + 1 < nCtx)
  | _ => true

/-- The lanes of a backend that serves a context of `nCtx` tokens. -/
def admittedMachine (n : Nat) (config : BackendConfig) (nCtx : Nat) :
    Machine (State n) (Event n) where
  step s event := if admits nCtx s event then (lanesMachine n config).step s event else none

/-- The lane found too few pages for its table, and evicts next. -/
def Lane.waits (lane : Lane) : Prop := lane.pc = .prefillEvict ∨ lane.pc = .decodeEvict

/-- A listed entry that has not gone to the host tier. -/
def PrefixCache.Resident (cache : PrefixCache) (id : Nat) : Prop :=
  id ∈ cache.entries ∧ (cache.entry id).tiered = false

/-- No entry is demoted while a lane is about to map it; the last resident entry is not
taken while another lane waits for one; and no entry that another lane holds is given
pages again. -/
def SparesPages (config : BackendConfig) (s : State n) : Event n → Prop
  | .evict l copied => SparesWindows config s (.evict l copied) ∧
      ∀ other, other ≠ l → (s.lane other).waits →
        ∃ id, s.cache.Resident id ∧ s.cache.victim ≠ some id
  | .promote l => ∀ hit, (s.lane l).hit = some hit → hit.entry ∈ s.cache.entries →
      (s.cache.entry hit.entry).tiered = true →
      ∀ other, other ≠ l → (s.lane other).keeps hit.entry = false
  | _ => True

/-- A step that takes pages from an entry, or gives it pages. -/
def Event.movesEntry : Event n → Bool
  | .evict _ _ | .promote _ => true
  | _ => false

theorem sparesPages_of_not_movesEntry {config : BackendConfig} {s : State n} {event : Event n}
    (h : event.movesEntry = false) : SparesPages config s event := by
  cases event with
  | evict l copied => cases h
  | promote l => cases h
  | _ => exact trivial

theorem SparesPages.windows {config : BackendConfig} {s : State n} {event : Event n}
    (h : SparesPages config s event) : SparesWindows config s event := by
  cases event with
  | evict l copied => exact h.1
  | _ => trivial

end Machine

/-! ## Resident entries -/

namespace PrefixCache

variable {held : Nat → Bool} {cache : PrefixCache} {id : Nat}

theorem victim_ne_none (h : cache.Resident id) : cache.victim ≠ none := by
  intro hnone
  have hall := List.find?_eq_none.mp hnone id (List.mem_reverse.mpr h.1)
  simp [h.2] at hall

theorem victim_resident (h : cache.victim = some id) : cache.Resident id := by
  refine ⟨List.mem_reverse.mp (List.mem_of_find?_eq_some h), ?_⟩
  simpa using List.find?_some h

@[simp] theorem letGo_tiered (id other : Nat) :
    ((letGo held cache id).entry other).tiered = (cache.entry other).tiered := by
  rcases letGo_clears id other with heq | heq <;> rw [heq]

theorem letGo_resident {other : Nat} :
    (letGo held cache id).Resident other ↔ cache.Resident other := by
  simp [Resident]

theorem lookup_resident (config : CacheConfig) (tokens : List Token) :
    (cache.lookup config tokens).1.Resident id ↔ cache.Resident id := by
  obtain ⟨entries, hperm, heq⟩ := lookup_reorders config cache tokens
  rw [heq]
  unfold Resident
  rw [hperm.mem_iff]

/-- What an insertion leaves has a resident entry, if there was one. -/
theorem insert_resident (config : CacheConfig) (tokens : List Token) (prefixLen bytes : Nat)
    (blocks : List Nat) (h : cache.Resident id) :
    ∃ other, (cache.insert config held tokens prefixLen bytes blocks).Resident other := by
  unfold insert
  dsimp only
  split
  next => exact ⟨id, h⟩
  next =>
    split
    next => exact ⟨id, h⟩
    next =>
      split
      next => exact ⟨id, h⟩
      next => exact ⟨_, List.mem_cons_self, by simp⟩

theorem promote_resident {other : Nat} {pages : List Nat} {after : PrefixCache}
    (hpromote : cache.promote id pages = (after, true)) (h : cache.Resident other) :
    after.Resident other := by
  unfold promote at hpromote
  split at hpromote
  next hlisted =>
    cases hpromote
    refine ⟨h.1, ?_⟩
    by_cases hsame : other = id
    · simp [hsame, Entry.promoted]
    · simpa [hsame] using h.2
  next => cases hpromote

theorem trimHost_resident (config : CacheConfig) (fuel : Nat) {other : Nat}
    (h : cache.Resident other) : (trimHost config held fuel cache).Resident other := by
  induction fuel generalizing cache with
  | zero => exact h
  | succ fuel ih =>
      unfold trimHost
      split
      next =>
        split
        next => exact h
        next found hfound =>
          apply ih
          rw [letGo_resident]
          have htiered := List.find?_some hfound
          have hne : other ≠ found := by
            rintro rfl
            rw [h.2] at htiered
            cases htiered
          exact ⟨(List.mem_erase_of_ne hne).mpr h.1, h.2⟩
      next => exact h

/-- An eviction spares every resident entry but its victim. -/
theorem evictOldest_resident (config : CacheConfig) (kv : Nat → Page) (copied : Bool) {other : Nat}
    (h : cache.Resident other) (hspared : cache.victim ≠ some other) :
    (cache.evictOldest config held kv copied).1.Resident other := by
  unfold evictOldest
  split
  next => exact h
  next id hvictim =>
    have hne : other ≠ id := by
      rintro rfl
      exact hspared hvictim
    split
    next =>
      apply trimHost_resident
      exact ⟨h.1, by simpa [demote, hne] using h.2⟩
    next =>
      rw [letGo_resident]
      exact ⟨(List.mem_erase_of_ne hne).mpr h.1, h.2⟩

theorem trimHost_created (config : CacheConfig) (fuel : Nat) :
    (trimHost config held fuel cache).created = cache.created := by
  induction fuel generalizing cache with
  | zero => rfl
  | succ fuel ih =>
      unfold trimHost
      split
      next =>
        split
        next => rfl
        next => rw [ih, letGo_created]
      next => rfl

theorem evictOldest_created (config : CacheConfig) (kv : Nat → Page) (copied : Bool) :
    (cache.evictOldest config held kv copied).1.created = cache.created := by
  unfold evictOldest
  split
  next => rfl
  next =>
    split
    next => exact trimHost_created config _
    next => exact letGo_created _ _ _

theorem evictOldest_snd (config : CacheConfig) (kv : Nat → Page) (copied : Bool) :
    (cache.evictOldest config held kv copied).2 = cache.victim.isSome := by
  unfold evictOldest
  cases cache.victim with
  | none => rfl
  | some id =>
      dsimp only
      split <;> rfl

theorem evictToFit_created (config : CacheConfig) (incoming fuel : Nat) :
    (evictToFit config held incoming fuel cache).created = cache.created := by
  have hdrop : ∀ cache : PrefixCache, (cache.dropBack held).created = cache.created := by
    intro cache
    unfold dropBack
    split
    next => rfl
    next => rw [letGo_created]
  induction fuel generalizing cache with
  | zero => rfl
  | succ fuel ih =>
      unfold evictToFit
      split
      next => rw [ih, hdrop]
      next => rfl

/-- The entries of an insertion: those of before, and one of a prefix of the prompt. -/
theorem insert_tokens (config : CacheConfig) {tokens : List Token} (prefixLen bytes : Nat)
    (blocks : List Nat) {m : Nat}
    (hentries : ∀ id < cache.created, (cache.entry id).tokens.length ≤ m)
    (htokens : tokens.length ≤ m) :
    ∀ id < (cache.insert config held tokens prefixLen bytes blocks).created,
      ((cache.insert config held tokens prefixLen bytes blocks).entry id).tokens.length ≤ m := by
  unfold insert
  dsimp only
  split
  next => exact hentries
  next =>
    split
    next => exact hentries
    next =>
      split
      next => exact hentries
      next =>
        have hevicted := @evictToFit_reclaims held cache config bytes cache.entries.length
        have hcreated := @evictToFit_created held cache config bytes cache.entries.length
        generalize evictToFit config held bytes cache.entries.length cache = evicted
          at hevicted hcreated
        intro id hid
        by_cases hsame : id = evicted.created
        · simp only [hsame, Function.update_self, List.length_take]
          omega
        · have hold : id < cache.created := by
            dsimp only at hid
            omega
          simp only [Function.update_of_ne hsame, hevicted.tokens id hold]
          exact hentries id hold

end PrefixCache

/-! ## What a lane pins -/

/-- A promotion is under way: the entry is still on the host. -/
def Pc.promotes : Pc → Bool
  | .promote | .promoteEvict | .hostCopy | .record | .giveBack => true
  | _ => false

/-- The lane has a table, and keeps the entry it came from. -/
def Pc.maps : Pc → Bool
  | .restore | .warm | .prefill | .prefillEvict | .forward | .snapshot | .insert | .decode
  | .decodeEvict | .decodeForward | .release => true
  | _ => false

/-- The lane is in its prefill loop. -/
def Pc.prefills : Pc → Bool
  | .prefill | .prefillEvict | .forward => true
  | _ => false

/-- What bounds the pages a lane pins: its table, and that the entry it holds is on the
host while it is promoted and has no pages outside the table once it is mapped. -/
structure Lane.Fits (nCtx cap : Nat) (cache : PrefixCache) (lane : Lane) : Prop where
  prompt : lane.prompt.length ≤ nCtx - 1
  started : lane.pc ≠ .idle → 0 < lane.prompt.length
  chunk : lane.pc.prefills = true → lane.past < lane.prompt.length
  blocks : lane.blocks.length ≤ cap
  pending : lane.pending.length ≤ cap
  kept : lane.pc = .restore ∨ lane.pc = .warm ∨ lane.pc = .unkeep →
    lane.hitKeep = lane.hit.map Hit.entry
  parked : lane.pc.promotes = true → ∀ hit, lane.hit = some hit →
    (cache.entry hit.entry).blocks = []
  mapped : lane.pc.maps = true → ∀ id, lane.hitKeep = some id →
    (cache.entry id).blocks ⊆ lane.blocks

section Pins

variable {nCtx cap : Nat} {cache cache' : PrefixCache} {kv : Nat → Page} {lane : Lane}

theorem keeps_iff {id : Nat} :
    lane.keeps id = true ↔ (∃ hit, lane.hit = some hit ∧ hit.entry = id) ∨
      lane.hitKeep = some id := by
  cases hhit : lane.hit with
  | none => simp [Lane.keeps, hhit]
  | some hit => simp [Lane.keeps, hhit]

/-- The entries a lane holds keep their pages or lose them all. -/
theorem Lane.Fits.frame (h : lane.Fits nCtx cap cache)
    (hshrinks : ∀ id, lane.keeps id = true →
      (cache'.entry id).blocks = (cache.entry id).blocks ∨ (cache'.entry id).blocks = []) :
    lane.Fits nCtx cap cache' where
  prompt := h.prompt
  started := h.started
  chunk := h.chunk
  blocks := h.blocks
  pending := h.pending
  kept := h.kept
  parked hpc hit hhit := by
    rcases hshrinks hit.entry (keeps_iff.mpr (.inl ⟨hit, hhit, rfl⟩)) with hsame | hnone
    · rw [hsame]
      exact h.parked hpc hit hhit
    · exact hnone
  mapped hpc id hid := by
    rcases hshrinks id (keeps_iff.mpr (.inr hid)) with hsame | hnone
    · rw [hsame]
      exact h.mapped hpc id hid
    · rw [hnone]
      exact List.nil_subset _

/-- A page the lane pins: one it has a reference for, or one of an entry it holds. -/
def Lane.Pins (cache : PrefixCache) (lane : Lane) (page : Nat) : Prop :=
  page ∈ lane.held ∨ ∃ id, lane.keeps id = true ∧ page ∈ (cache.entry id).blocks

/-- A lane with a table pins the pages of the table. -/
theorem pins_of_maps (h : lane.Fits nCtx cap cache) (hat : lane.AtPc cache kv)
    (hmaps : lane.pc.maps = true) {page : Nat} (hpins : lane.Pins cache page) :
    page ∈ lane.blocks := by
  have hheld : ∀ page ∈ lane.pending, page ∈ lane.blocks := by
    unfold Lane.AtPc at hat
    intro page hpage
    cases hpc : lane.pc
    all_goals simp only [hpc, Pc.maps, Bool.false_eq_true] at hat hmaps
    case insert =>
      rw [hat.1] at hpage
      exact List.mem_of_mem_take hpage
    case restore =>
      rw [hat.2.1] at hpage
      cases hpage
    all_goals
      rw [hat.1] at hpage
      cases hpage
  have hkept : ∀ hit, lane.hit = some hit → lane.hitKeep = some hit.entry := by
    unfold Lane.AtPc at hat
    intro hit hhit
    cases hpc : lane.pc
    all_goals simp only [hpc, Pc.maps, Bool.false_eq_true] at hat hmaps
    case restore => rw [h.kept (.inl hpc), hhit]; rfl
    case warm => rw [h.kept (.inr (.inl hpc)), hhit]; rfl
    case prefill => rw [hat.2.1] at hhit; cases hhit
    case prefillEvict => rw [hat.2.1] at hhit; cases hhit
    case forward => rw [hat.2.1] at hhit; cases hhit
    case snapshot => rw [hat.2.1] at hhit; cases hhit
    case insert => rw [hat.2.1] at hhit; cases hhit
    all_goals
      rw [hat.2] at hhit
      cases hhit
  rcases hpins with hown | ⟨id, hkeeps, hpage⟩
  · rcases List.mem_append.mp hown with hblocks | hpending
    · exact hblocks
    · exact hheld page hpending
  · rcases keeps_iff.mp hkeeps with ⟨hit, hhit, rfl⟩ | hid
    · exact h.mapped hmaps _ (hkept hit hhit) hpage
    · exact h.mapped hmaps id hid hpage

theorem blocks_of_unmapped (hat : lane.AtPc cache kv) (hmaps : lane.pc.maps = false) :
    lane.blocks = [] := by
  unfold Lane.AtPc at hat
  cases hpc : lane.pc
  all_goals simp only [hpc, Pc.maps, Bool.true_eq_false] at hat hmaps
  case giveBack => exact hat.blocks
  all_goals exact hat.1.blocks

/-- Away from promotions and the copy of a page list, nothing is pending. -/
theorem pending_of_unmapped (hat : lane.AtPc cache kv) (hmaps : lane.pc.maps = false)
    (hpromotes : lane.pc.promotes = false) (hcopy : lane.pc ≠ .copy) : lane.pending = [] := by
  unfold Lane.AtPc at hat
  cases hpc : lane.pc
  all_goals
    rw [hpc] at hmaps hpromotes hcopy
    simp only [hpc] at hat
  case idle | lookup | ref | unmap => exact hat.2.1
  case check | unkeep | cold => exact hat.2
  case copy => exact absurd rfl hcopy
  case promote | promoteEvict | hostCopy | record | giveBack => cases hpromotes
  all_goals cases hmaps

theorem unkept_of_promotes {pc : Pc} (h : pc.promotes = true) : pc.unkept = true := by
  cases pc <;> first | rfl | cases h

/-- A lane without a table holds one entry at most. -/
theorem keeps_unique (h : lane.Fits nCtx cap cache) (htidy : lane.Tidy) (hat : lane.AtPc cache kv)
    (hmaps : lane.pc.maps = false) :
    ∃ only, ∀ id, lane.keeps id = true → id = only := by
  have hsame : lane.hit = none ∨ lane.hitKeep = none ∨
      lane.hitKeep = lane.hit.map Hit.entry := by
    cases hunkept : lane.pc.unkept with
    | true => exact .inr (.inl (htidy.unkept hunkept))
    | false =>
        unfold Lane.AtPc at hat
        cases hpc : lane.pc
        all_goals
          simp only [hpc, Pc.maps, Pc.unkept, Bool.true_eq_false] at hat hmaps hunkept
        case unkeep => exact .inr (.inr (h.kept (.inr (.inr hpc))))
        case unmap => exact .inl hat.2.2
  cases hhit : lane.hit with
  | none =>
      refine ⟨lane.hitKeep.getD 0, fun id hid => ?_⟩
      rcases keeps_iff.mp hid with ⟨hit, hsome, _⟩ | hkeep
      · rw [hhit] at hsome
        cases hsome
      · rw [hkeep]
        rfl
  | some hit =>
      refine ⟨hit.entry, fun id hid => ?_⟩
      rcases keeps_iff.mp hid with ⟨other, hsome, rfl⟩ | hkeep
      · rw [hhit] at hsome
        cases hsome
        rfl
      · rw [hhit, hkeep] at hsame
        simpa using hsame

/-- A lane pins no more pages than a table has room for: those of its table, those of a
promotion, or those of the one entry it holds. -/
theorem exists_pinned (h : lane.Fits nCtx cap cache) (htidy : lane.Tidy)
    (hsound : lane.Sound cache kv)
    (hentries : ∀ id < cache.created, (cache.entry id).blocks.length ≤ cap) :
    ∃ pages : List Nat, pages.length ≤ cap ∧ ∀ page, lane.Pins cache page → page ∈ pages := by
  have hat := hsound.atPc
  cases hmaps : lane.pc.maps with
  | true => exact ⟨lane.blocks, h.blocks, fun page hpins => pins_of_maps h hat hmaps hpins⟩
  | false =>
      have hblocks := blocks_of_unmapped hat hmaps
      by_cases hpending : lane.pc.promotes = true ∨ lane.pc = .copy
      · refine ⟨lane.pending, h.pending, fun page hpins => ?_⟩
        rcases hpins with hheld | ⟨id, hkeeps, hpage⟩
        · rwa [Lane.held, hblocks] at hheld
        · have hunkept : lane.hitKeep = none := by
            apply htidy.unkept
            rcases hpending with hpromotes | hcopy
            · exact unkept_of_promotes hpromotes
            · rw [hcopy]
              rfl
          rcases keeps_iff.mp hkeeps with ⟨hit, hhit, rfl⟩ | hkeep
          · rcases hpending with hpromotes | hcopy
            · rw [h.parked hpromotes hit hhit] at hpage
              cases hpage
            · simp only [Lane.AtPc, hcopy] at hat
              obtain ⟨_, other, hother, _, hlist, _⟩ := hat
              rw [hhit] at hother
              cases hother
              rwa [hlist] at hpage
          · rw [hunkept] at hkeep
            cases hkeep
      · have hnone : lane.pending = [] := by
          apply pending_of_unmapped hat hmaps
          · exact Bool.eq_false_of_not_eq_true fun hpromotes => hpending (.inl hpromotes)
          · exact fun hcopy => hpending (.inr hcopy)
        obtain ⟨only, honly⟩ := keeps_unique h htidy hat hmaps
        by_cases hheld : ∃ id, lane.keeps id = true
        · obtain ⟨id, hid⟩ := hheld
          have hcreated : id < cache.created := by
            rcases keeps_iff.mp hid with ⟨hit, hhit, rfl⟩ | hkeep
            · exact (hsound.hit hit hhit).1
            · exact hsound.keep id hkeep
          refine ⟨(cache.entry id).blocks, hentries id hcreated, fun page hpins => ?_⟩
          rcases hpins with hown | ⟨other, hother, hpage⟩
          · rw [Lane.held, hblocks, hnone] at hown
            cases hown
          · rw [honly id hid]
            rwa [honly other hother] at hpage
        · refine ⟨[], Nat.zero_le _, fun page hpins => ?_⟩
          rcases hpins with hown | ⟨other, hother, _⟩
          · rwa [Lane.held, hblocks, hnone] at hown
          · exact absurd ⟨other, hother⟩ hheld

end Pins

/-! ## The count -/

section Count

variable {n : Nat} {nCtx cap total : Nat} {s : State n} {l : Fin n}

/-- The lanes fit, and entries are prefixes of admitted prompts. -/
structure Supplied (nCtx cap : Nat) (s : State n) : Prop where
  tokens : ∀ id < s.cache.created, (s.cache.entry id).tokens.length ≤ nCtx - 1
  lanes : ∀ l, (s.lane l).Fits nCtx cap s.cache

theorem Supplied.entry_le (hinv : Inv s) (h : Supplied nCtx cap s)
    (hcap : (nCtx - 1) / kvBlockTokens ≤ cap) :
    ∀ id < s.cache.created, (s.cache.entry id).blocks.length ≤ cap := by
  intro id hid
  by_cases hnone : (s.cache.entry id).blocks = []
  · rw [hnone]
    exact Nat.zero_le _
  · have hlength := ((hinv.cache.entries id hid).resident hnone).1
    rw [List.length_map] at hlength
    rw [hlength]
    exact (Nat.div_le_div_right (h.tokens id hid)).trans hcap

/-- Without a resident entry every referenced page is pinned by a lane. -/
theorem exists_pins (hinv : Inv s) (hsettled : Settled total s)
    (hnone : ∀ id, ¬ s.cache.Resident id) {page : Nat} (hpage : s.cache.pool.refs page ≠ 0) :
    ∃ l, (s.lane l).Pins s.cache page := by
  have hcounts := hinv.cache.counts page
  by_cases hlanes : laneCount s.lane page = 0
  · have hentry : s.cache.entryCount page ≠ 0 := by omega
    obtain ⟨id, hid, hcount⟩ := Finset.exists_ne_zero_of_sum_ne_zero hentry
    have hcreated := Finset.mem_range.mp hid
    have hmem : page ∈ (s.cache.entry id).blocks :=
      List.count_pos_iff.mp (Nat.pos_of_ne_zero hcount)
    rcases hsettled.alive id hcreated (List.ne_nil_of_mem hmem) with hlisted | hheld
    · -- a listed entry with pages is resident
      refine absurd ⟨hlisted, ?_⟩ (hnone id)
      apply Bool.eq_false_of_not_eq_true
      intro htiered
      rw [(hinv.cache.entries id hcreated).tiered htiered] at hmem
      cases hmem
    · obtain ⟨l, hkeeps⟩ := held_iff.mp hheld
      exact ⟨l, .inr ⟨id, hkeeps, hmem⟩⟩
  · obtain ⟨l, _, hcount⟩ := Finset.exists_ne_zero_of_sum_ne_zero hlanes
    exact ⟨l, .inl (List.count_pos_iff.mp (Nat.pos_of_ne_zero hcount))⟩

/-- Without a resident entry, all pages but those of the other lanes' tables are free or
in the lane's own. -/
theorem total_le_of_no_resident (hinv : Inv s) (hsettled : Settled total s)
    (h : Supplied nCtx cap s) (hcap : (nCtx - 1) / kvBlockTokens ≤ cap)
    (hnone : ∀ id, ¬ s.cache.Resident id) (hmaps : (s.lane l).pc.maps = true) :
    total ≤ s.cache.pool.free.length + (s.lane l).blocks.length + (n - 1) * cap := by
  choose pages hlength hpages using fun other : Fin n => exists_pinned (h.lanes other)
    (hsettled.tidy other) (hinv.lanes other) (h.entry_le hinv hcap)
  have hcover : Finset.range total ⊆ (s.cache.pool.free.toFinset ∪ (s.lane l).blocks.toFinset) ∪
      (Finset.univ.erase l).biUnion fun other => (pages other).toFinset := by
    intro page hpage
    rw [Finset.mem_union, Finset.mem_union, List.mem_toFinset, List.mem_toFinset]
    by_cases hzero : s.cache.pool.refs page = 0
    · refine .inl (.inl (hsettled.complete page ?_ hzero))
      rw [hsettled.total]
      exact Finset.mem_range.mp hpage
    · obtain ⟨other, hpins⟩ := exists_pins hinv hsettled hnone hzero
      by_cases hsame : other = l
      · rw [hsame] at hpins
        exact .inl (.inr (pins_of_maps (h.lanes l) (hinv.lanes l).atPc hmaps hpins))
      · refine .inr (Finset.mem_biUnion.mpr ⟨other, ?_, List.mem_toFinset.mpr ?_⟩)
        · exact Finset.mem_erase.mpr ⟨hsame, Finset.mem_univ other⟩
        · exact hpages other page hpins
  have hothers : ((Finset.univ.erase l).biUnion fun other => (pages other).toFinset).card ≤
      (n - 1) * cap := by
    have hbound := Finset.card_biUnion_le_card_mul (Finset.univ.erase l)
      (fun other => (pages other).toFinset) cap
      fun other _ => (List.toFinset_card_le _).trans (hlength other)
    rwa [Finset.card_erase_of_mem (Finset.mem_univ l), Finset.card_univ, Fintype.card_fin]
      at hbound
  calc total = (Finset.range total).card := (Finset.card_range total).symm
    _ ≤ _ := Finset.card_le_card hcover
    _ ≤ _ := Finset.card_union_le _ _
    _ ≤ _ := Nat.add_le_add ((Finset.card_union_le _ _).trans
        (Nat.add_le_add (List.toFinset_card_le _) (List.toFinset_card_le _))) hothers

/-- Where a lane finds too few pages for its table, there is a resident entry. -/
theorem resident_of_allocate_none (hinv : Inv s) (hsettled : Settled total s)
    (h : Supplied nCtx cap s) (hcap : (nCtx - 1) / kvBlockTokens ≤ cap) (hpool : n * cap ≤ total)
    (hmaps : (s.lane l).pc.maps = true) {want : Nat} (hwant : want ≤ cap)
    (hallocate : s.cache.pool.allocate (want - (s.lane l).blocks.length) = none) :
    ∃ id, s.cache.Resident id := by
  by_contra hnone
  have htotal := total_le_of_no_resident hinv hsettled h hcap (fun id hid => hnone ⟨id, hid⟩) hmaps
  have hfew : s.cache.pool.free.length < want - (s.lane l).blocks.length := by
    unfold BlockPool.allocate at hallocate
    split at hallocate
    next hfew => exact hfew
    next => cases hallocate
  have hn : 0 < n := Nat.lt_of_le_of_lt (Nat.zero_le _) l.isLt
  obtain ⟨m, rfl⟩ := Nat.exists_eq_add_of_le' hn
  rw [Nat.add_sub_cancel] at htotal
  rw [Nat.add_mul, Nat.one_mul] at hpool
  omega

end Count

/-! ## One step -/

section Steps

variable {n : Nat} {nCtx cap : Nat} {s next : State n} {l : Fin n} {config : BackendConfig}

theorem keeps_lt (hinv : Inv s) {other : Fin n} {id : Nat}
    (hkeeps : (s.lane other).keeps id = true) : id < s.cache.created := by
  rcases keeps_iff.mp hkeeps with ⟨hit, hhit, rfl⟩ | hkeep
  · exact ((hinv.lanes other).hit hit hhit).1
  · exact (hinv.lanes other).keep id hkeep

/-- A step of lane `l`: the entries other lanes hold keep their pages or lose them. -/
theorem Supplied.act (h : Supplied nCtx cap s) (l : Fin n) {cache : PrefixCache}
    {kv : Nat → Page} {lane : Lane}
    (htokens : ∀ id < cache.created, (cache.entry id).tokens.length ≤ nCtx - 1)
    (hshrinks : ∀ other, other ≠ l → ∀ id, (s.lane other).keeps id = true →
      (cache.entry id).blocks = (s.cache.entry id).blocks ∨ (cache.entry id).blocks = [])
    (hlane : lane.Fits nCtx cap cache) :
    Supplied nCtx cap ⟨cache, kv, Function.update s.lane l lane⟩ := by
  refine ⟨htokens, fun other => ?_⟩
  dsimp only
  by_cases hsame : other = l
  · rw [hsame, Function.update_self]
    exact hlane
  · rw [Function.update_of_ne hsame]
    exact (h.lanes other).frame (hshrinks other hsame)

/-- A step that leaves the entries alone. -/
theorem Supplied.local (h : Supplied nCtx cap s) (l : Fin n) {pool : BlockPool}
    {kv : Nat → Page} {lane : Lane} (hlane : lane.Fits nCtx cap s.cache) :
    Supplied nCtx cap
      ⟨{ s.cache with pool := pool }, kv, Function.update s.lane l lane⟩ :=
  h.act l h.tokens (fun _ _ _ _ => .inl rfl)
    (hlane.frame fun _ _ => .inl rfl)

/-- A step that creates no entry. -/
theorem Supplied.shrink (hinv : Inv s) (h : Supplied nCtx cap s) (l : Fin n)
    {held : Nat → Bool} {cache : PrefixCache} {kv : Nat → Page} {lane : Lane}
    (hreclaims : s.cache.Reclaims held cache) (hcreated : cache.created = s.cache.created)
    (hlane : lane.Fits nCtx cap cache) :
    Supplied nCtx cap ⟨cache, kv, Function.update s.lane l lane⟩ := by
  refine h.act l (fun id hid => ?_) (fun other _ id hid => ?_) hlane
  · rw [hcreated] at hid
    rw [hreclaims.tokens id hid]
    exact h.tokens id hid
  · exact hreclaims.shrinks id (keeps_lt hinv hid)

theorem not_maps_of_unkept {pc : Pc} (h : pc.unkept = true) :
    pc.prefills = false ∧ pc.maps = false := by
  cases pc <;> first | exact ⟨rfl, rfl⟩ | cases h

/-- A lane that has neither a table nor a kept hit. -/
theorem Lane.Fits.of_unkept {cache : PrefixCache} {lane : Lane} (hunkept : lane.pc.unkept = true)
    (hprompt : lane.prompt.length ≤ nCtx - 1) (hstarted : 0 < lane.prompt.length)
    (hblocks : lane.blocks.length ≤ cap) (hpending : lane.pending.length ≤ cap)
    (hparked : lane.pc.promotes = true → ∀ hit, lane.hit = some hit →
      (cache.entry hit.entry).blocks = []) : lane.Fits nCtx cap cache where
  prompt := hprompt
  started _ := hstarted
  chunk hpc := by
    rw [(not_maps_of_unkept hunkept).1] at hpc
    cases hpc
  blocks := hblocks
  pending := hpending
  kept hpc := by
    rcases hpc with hpc | hpc | hpc
    all_goals
      rw [hpc] at hunkept
      cases hunkept
  parked := hparked
  mapped hpc := by
    rw [(not_maps_of_unkept hunkept).2] at hpc
    cases hpc

/-- A lane that goes on with its table. -/
theorem Lane.Fits.goto {cache : PrefixCache} {lane : Lane} (h : lane.Fits nCtx cap cache)
    (hmaps : lane.pc.maps = true) {blocks pending : List Nat} {context : List Token} {pc : Pc}
    (hsubset : lane.blocks ⊆ blocks) (hblocks : blocks.length ≤ cap)
    (hpending : pending.length ≤ cap)
    (hchunk : pc.prefills = true → context.length < lane.prompt.length)
    (hkept : pc ≠ .restore ∧ pc ≠ .warm ∧ pc ≠ .unkeep) (hpromotes : pc.promotes = false) :
    Lane.Fits nCtx cap cache
      { lane with blocks := blocks, pending := pending, context := context, pc := pc } where
  prompt := h.prompt
  started _ := by
    apply h.started
    intro hpc
    rw [hpc] at hmaps
    cases hmaps
  chunk := hchunk
  blocks := hblocks
  pending := hpending
  kept hpc := by
    rcases hpc with hpc | hpc | hpc
    · exact absurd hpc hkept.1
    · exact absurd hpc hkept.2.1
    · exact absurd hpc hkept.2.2
  parked hpc := by
    rw [hpromotes] at hpc
    cases hpc
  mapped _ id hid := List.Subset.trans (h.mapped hmaps id hid) hsubset

theorem start_supplied (h : Supplied nCtx cap s) {prompt : List Token}
    (hadmits : prompt.length < nCtx) (hstep : s.start l prompt = some next) :
    Supplied nCtx cap next := by
  obtain ⟨⟨_, hprompt⟩, hnext⟩ := Option.ite_none_right_eq_some.mp hstep
  cases hnext
  exact h.local l (.of_unkept rfl (Nat.le_sub_one_of_lt hadmits) (List.length_pos_iff.mpr hprompt)
    (Nat.zero_le _) (h.lanes l).pending fun hpc => by cases hpc)

theorem lookup_created (config : CacheConfig) (cache : PrefixCache) (tokens : List Token) :
    (cache.lookup config tokens).1.created = cache.created := by
  unfold PrefixCache.lookup
  split
  next => rfl
  next => split <;> rfl

theorem lookup_supplied (hinv : Inv s) (h : Supplied nCtx cap s)
    (hstep : s.lookup config l = some next) : Supplied nCtx cap next := by
  have hfits := h.lanes l
  have hreclaims := @PrefixCache.lookup_reclaims (State.held s.lane) s.cache config.cache
    (s.lane l).prompt
  have hcreated := lookup_created config.cache s.cache (s.lane l).prompt
  unfold State.lookup at hstep
  dsimp only at hstep
  split at hstep
  next hpc =>
    have hstarted := hfits.started (by rw [hpc]; decide)
    split at hstep
    next cache hlookup =>
      cases hstep
      rw [hlookup] at hreclaims hcreated
      exact h.shrink hinv l hreclaims hcreated (.of_unkept rfl hfits.prompt hstarted hfits.blocks
        hfits.pending fun hpc => by cases hpc)
    next cache hit hlookup =>
      cases hstep
      rw [hlookup] at hreclaims hcreated
      obtain ⟨hlisted, _⟩ := PrefixCache.lookup_some hlookup
      have hid := hinv.cache.listed _ hlisted
      have htiered : hit.tiered = (s.cache.entry hit.entry).tiered := by
        unfold PrefixCache.lookup at hlookup
        split at hlookup
        next => cases hlookup
        next =>
          split at hlookup
          next => cases hlookup
          next =>
            cases hlookup
            rfl
      refine h.shrink hinv l hreclaims hcreated (.of_unkept ?_ hfits.prompt hstarted hfits.blocks
        hfits.pending ?_)
      · dsimp only
        split <;> rfl
      · -- an entry on the host has no pages
        dsimp only
        intro hpromotes other hother
        cases hother
        split at hpromotes
        next hparked =>
          have hnone := (hinv.cache.entries _ hid).tiered (htiered ▸ hparked.1)
          rcases hreclaims.shrinks hit.entry hid with hsame | hempty
          · rw [hsame, hnone]
          · exact hempty
        next => cases hpromotes
  next => cases hstep

theorem wanted_le {tokens : Nat} (draftsMax : Nat) (hle : tokens ≤ nCtx + draftsMax) :
    State.wanted tokens ≤ tableCap nCtx draftsMax := by
  unfold State.wanted tableCap
  exact Nat.add_le_add_right (Nat.div_le_div_right (by omega)) 1

theorem entries_le_tableCap (nCtx draftsMax : Nat) :
    (nCtx - 1) / kvBlockTokens ≤ tableCap nCtx draftsMax :=
  (Nat.div_le_div_right (by omega)).trans (Nat.le_succ _)

/-- A lane that is about to grow its table: to which size, and where it goes on. -/
def Lane.growth (config : BackendConfig) (lane : Lane) : Option (Nat × Pc × Pc) :=
  match lane.pc with
  | .prefill => some (lane.past + config.take lane, .forward, .prefillEvict)
  | .decode => some (lane.past + 1 + config.draftsMax, .decodeForward, .decodeEvict)
  | _ => none

/-- The growth of an admitted lane fits its share of the pool. -/
structure Grows (nCtx : Nat) (config : BackendConfig) (lane : Lane) (tokens : Nat)
    (covered evict : Pc) : Prop where
  growth : lane.growth config = some (tokens, covered, evict)
  wanted : State.wanted tokens ≤ tableCap nCtx config.draftsMax
  maps : lane.pc.maps = true
  chunk : covered.prefills = true ∨ evict.prefills = true → lane.past < lane.prompt.length
  places : covered = .forward ∧ evict = .prefillEvict ∨
    covered = .decodeForward ∧ evict = .decodeEvict

theorem Lane.Fits.grows {cache : PrefixCache} {lane : Lane} {tokens : Nat} {covered evict : Pc}
    (h : lane.Fits nCtx cap cache) (hadmits : lane.pc = .decode → lane.past + 1 < nCtx)
    (hgrowth : lane.growth config = some (tokens, covered, evict)) :
    Grows nCtx config lane tokens covered evict := by
  have hcases := hgrowth
  unfold Lane.growth at hcases
  split at hcases
  next hpc =>
    cases hcases
    have hlt := h.chunk (by rw [hpc]; rfl)
    have htake := config.grid.add_take_le hlt
    have hprompt := h.prompt
    refine ⟨hgrowth, wanted_le _ ?_, by rw [hpc]; rfl, fun _ => hlt, .inl ⟨rfl, rfl⟩⟩
    unfold BackendConfig.take
    omega
  next hpc =>
    cases hcases
    have hend := hadmits hpc
    refine ⟨hgrowth, wanted_le _ (by omega), by rw [hpc]; rfl, fun hpre => ?_, .inr ⟨rfl, rfl⟩⟩
    rcases hpre with hpre | hpre <;> cases hpre
  next => cases hcases

/-- `ensure_blocks` of a lane: the next pages, or the eviction next. -/
theorem ensureBlocks_supplied (h : Supplied nCtx (tableCap nCtx config.draftsMax) s)
    (hinv : Inv s) {tokens : Nat} {covered evict : Pc}
    (hgrows : Grows nCtx config (s.lane l) tokens covered evict) :
    Supplied nCtx (tableCap nCtx config.draftsMax) (s.ensureBlocks l tokens covered evict) := by
  have hfits := h.lanes l
  have hcovered : (covered ≠ .restore ∧ covered ≠ .warm ∧ covered ≠ .unkeep) ∧
      covered.promotes = false := by
    rcases hgrows.places with ⟨rfl, _⟩ | ⟨rfl, _⟩ <;> decide
  have hevict : (evict ≠ .restore ∧ evict ≠ .warm ∧ evict ≠ .unkeep) ∧
      evict.promotes = false := by
    rcases hgrows.places with ⟨_, rfl⟩ | ⟨_, rfl⟩ <;> decide
  unfold State.ensureBlocks
  dsimp only
  split
  next =>
    exact h.local l (hfits.goto hgrows.maps (List.Subset.refl _) hfits.blocks hfits.pending
      (fun hpre => hgrows.chunk (.inl hpre)) hcovered.1 hcovered.2)
  next hmore =>
    split
    next =>
      exact h.local l (hfits.goto hgrows.maps (List.Subset.refl _) hfits.blocks hfits.pending
        (fun hpre => hgrows.chunk (.inr hpre)) hevict.1 hevict.2)
    next fresh pool hallocate =>
      have hlength := (BlockPool.allocate_some hinv.cache.pool hallocate).length
      have hwanted := hgrows.wanted
      refine h.local l (hfits.goto hgrows.maps (List.subset_append_left _ _) ?_ hfits.pending
        (fun hpre => hgrows.chunk (.inl hpre)) hcovered.1 hcovered.2)
      rw [List.length_append, hlength]
      omega

theorem allocate_of_growth {tokens : Nat} {covered evict : Pc}
    (hgrowth : (s.lane l).growth config = some (tokens, covered, evict)) :
    s.allocate config l = some (s.ensureBlocks l tokens covered evict) := by
  unfold Lane.growth at hgrowth
  unfold State.allocate
  dsimp only
  split at hgrowth
  next hpc =>
    cases hgrowth
    rw [hpc]
  next hpc =>
    cases hgrowth
    rw [hpc]
  next => cases hgrowth

theorem allocate_cases (hstep : s.allocate config l = some next) :
    (∃ hit, (s.lane l).pc = .promote ∧ (s.lane l).hit = some hit ∧
      match s.cache.pool.allocate (State.needed hit) with
      | none => next = s.setLane l { s.lane l with pc := .promoteEvict }
      | some (pages, pool) => next = { s with
          cache := { s.cache with pool := pool }
          lane := Function.update s.lane l { s.lane l with pending := pages, pc := .hostCopy } }) ∨
    ∃ tokens covered evict, (s.lane l).growth config = some (tokens, covered, evict) ∧
      next = s.ensureBlocks l tokens covered evict := by
  unfold State.allocate at hstep
  dsimp only at hstep
  split at hstep
  next hit hpc hhit =>
    refine .inl ⟨hit, hpc, hhit, ?_⟩
    cases hpool : s.cache.pool.allocate (State.needed hit) with
    | none =>
        rw [hpool] at hstep
        cases hstep
        rfl
    | some out =>
        rw [hpool] at hstep
        cases hstep
        rfl
  next hpc =>
    cases hstep
    exact .inr ⟨_, _, _, by rw [Lane.growth, hpc], rfl⟩
  next hpc =>
    cases hstep
    exact .inr ⟨_, _, _, by rw [Lane.growth, hpc], rfl⟩
  next => cases hstep

theorem allocate_supplied (hinv : Inv s)
    (h : Supplied nCtx (tableCap nCtx config.draftsMax) s)
    (hadmits : (s.lane l).pc = .decode → (s.lane l).past + 1 < nCtx)
    (hstep : s.allocate config l = some next) :
    Supplied nCtx (tableCap nCtx config.draftsMax) next := by
  have hfits := h.lanes l
  rcases allocate_cases hstep with ⟨hit, hpc, hhit, hout⟩ | ⟨tokens, covered, evict, hgrowth, rfl⟩
  · have hstarted := hfits.started (by rw [hpc]; decide)
    have hparked := hfits.parked (by rw [hpc]; rfl)
    split at hout
    next =>
      rw [hout]
      exact h.local l (.of_unkept rfl hfits.prompt hstarted hfits.blocks hfits.pending
        fun _ => hparked)
    next pages pool hallocate =>
      rw [hout]
      refine h.local l (.of_unkept rfl hfits.prompt hstarted hfits.blocks ?_ fun _ => hparked)
      obtain ⟨_, _, hlt, _⟩ := (hinv.lanes l).hit hit hhit
      have hprompt := hfits.prompt
      rw [show pages.length = State.needed hit from
        (BlockPool.allocate_some hinv.cache.pool hallocate).length]
      exact (Nat.div_le_div_right (by omega)).trans (entries_le_tableCap nCtx config.draftsMax)
  · exact ensureBlocks_supplied h hinv (hfits.grows hadmits hgrowth)

/-- A lane after its eviction: it tries again, or gives its promotion up. -/
theorem afterEvict_fits {cache : PrefixCache} {lane : Lane} (h : lane.Fits nCtx cap cache)
    {evicted : Bool} {pc : Pc} (hafter : State.afterEvict lane.pc evicted = some pc) :
    Lane.Fits nCtx cap cache { lane with pc := pc } := by
  have hpromote : lane.pc = .promoteEvict → pc.unkept = true →
      Lane.Fits nCtx cap cache { lane with pc := pc } := by
    intro hpc hunkept
    exact .of_unkept hunkept h.prompt (h.started (by rw [hpc]; decide)) h.blocks h.pending
      fun _ => h.parked (by rw [hpc]; rfl)
  have hrun : lane.pc = .prefillEvict ∨ lane.pc = .decodeEvict →
      (pc.prefills = true → lane.pc = .prefillEvict) →
      pc ≠ .restore ∧ pc ≠ .warm ∧ pc ≠ .unkeep → pc.promotes = false →
      Lane.Fits nCtx cap cache { lane with pc := pc } := by
    intro hpc hchunk hkept hpromotes
    refine h.goto ?_ (List.Subset.refl _) h.blocks h.pending (fun hpre => h.chunk ?_) hkept
      hpromotes
    · rcases hpc with hpc | hpc <;> rw [hpc] <;> rfl
    · rw [hchunk hpre]
      rfl
  unfold State.afterEvict at hafter
  split at hafter
  next hpc => cases hafter; exact hpromote hpc rfl
  next hpc => cases hafter; exact hpromote hpc rfl
  next hpc => cases hafter; exact hrun (.inl hpc) (fun _ => hpc) (by decide) rfl
  next hpc => cases hafter; exact hrun (.inr hpc) (fun hpre => by cases hpre) (by decide) rfl
  next hpc => cases hafter; exact hrun (.inl hpc) (fun hpre => by cases hpre) (by decide) rfl
  next hpc => cases hafter; exact hrun (.inr hpc) (fun hpre => by cases hpre) (by decide) rfl
  next => cases hafter

theorem evict_supplied (hinv : Inv s) (h : Supplied nCtx cap s) {copied : Bool}
    (hstep : s.evict config l copied = some next) : Supplied nCtx cap next := by
  have hreclaims := @PrefixCache.evictOldest_reclaims (State.held s.lane) s.cache config.cache
    s.kv copied
  unfold State.evict at hstep
  dsimp only at hstep
  obtain ⟨pc, hafter, rfl⟩ := Option.map_eq_some_iff.mp hstep
  refine h.shrink hinv l hreclaims (PrefixCache.evictOldest_created _ _ _) ?_
  exact afterEvict_fits ((h.lanes l).frame fun id hid => hreclaims.shrinks id (keeps_lt hinv hid))
    hafter

theorem hostCopy_supplied (h : Supplied nCtx cap s) {copied : Bool}
    (hstep : s.hostCopy l copied = some next) : Supplied nCtx cap next := by
  have hfits := h.lanes l
  unfold State.hostCopy at hstep
  dsimp only at hstep
  split at hstep
  next hpc _ =>
    have hstarted := hfits.started (by rw [hpc]; decide)
    have hparked := hfits.parked (by rw [hpc]; rfl)
    split at hstep
    next =>
      cases hstep
      exact h.local l (.of_unkept rfl hfits.prompt hstarted hfits.blocks hfits.pending
        fun _ => hparked)
    next =>
      split at hstep
      all_goals
        cases hstep
        exact h.local l (.of_unkept rfl hfits.prompt hstarted hfits.blocks hfits.pending
          fun _ => hparked)
  next => cases hstep

theorem promote_supplied (h : Supplied nCtx cap s)
    (hspares : SparesPages config s (.promote l)) (hstep : s.promote l = some next) :
    Supplied nCtx cap next := by
  have hfits := h.lanes l
  unfold State.promote at hstep
  dsimp only at hstep
  split at hstep
  next hit hpc hhit =>
    have hstarted := hfits.started (by rw [hpc]; decide)
    have hparked := hfits.parked (by rw [hpc]; rfl)
    split at hstep
    next cache hpromote =>
      cases hstep
      unfold PrefixCache.promote at hpromote
      split at hpromote
      next hlisted =>
        cases hpromote
        refine h.act l (fun id hid => ?_) (fun other hother id hid => ?_)
          (.of_unkept rfl hfits.prompt hstarted hfits.blocks (Nat.zero_le _)
            fun hpc => by cases hpc)
        · by_cases hsame : id = hit.entry
          · simpa [hsame, Entry.promoted] using h.tokens _ (hsame ▸ hid)
          · simpa [hsame] using h.tokens id hid
        · -- nobody else holds the entry that gets the pages
          have hne : id ≠ hit.entry := by
            rintro rfl
            rw [hspares hit hhit hlisted.1 hlisted.2 other hother] at hid
            cases hid
          exact .inl (by simp [hne])
      next => cases hpromote
    next =>
      cases hstep
      exact h.local l (.of_unkept rfl hfits.prompt hstarted hfits.blocks hfits.pending
        fun _ => hparked)
  next => cases hstep

theorem giveBack_supplied (h : Supplied nCtx cap s) (hstep : s.giveBack l = some next) :
    Supplied nCtx cap next := by
  have hfits := h.lanes l
  obtain ⟨hpc, hnext⟩ := Option.ite_none_right_eq_some.mp hstep
  cases hnext
  exact h.local l (.of_unkept rfl hfits.prompt (hfits.started (by rw [hpc]; decide)) hfits.blocks
    (Nat.zero_le _) fun hpc => by cases hpc)

theorem check_supplied (h : Supplied nCtx cap s) (hstep : s.check l = some next) :
    Supplied nCtx cap next := by
  have hfits := h.lanes l
  unfold State.check at hstep
  dsimp only at hstep
  split at hstep
  next hpc _ =>
    cases hstep
    refine h.local l (.of_unkept ?_ hfits.prompt (hfits.started (by rw [hpc]; decide)) hfits.blocks
      hfits.pending fun hpromotes => ?_)
    · dsimp only
      split <;> rfl
    · dsimp only at hpromotes
      split at hpromotes <;> cases hpromotes
  next => cases hstep

theorem ref_supplied (hinv : Inv s) (h : Supplied nCtx cap s)
    (hcap : (nCtx - 1) / kvBlockTokens ≤ cap) (hstep : s.ref l = some next) :
    Supplied nCtx cap next := by
  have hfits := h.lanes l
  unfold State.ref at hstep
  dsimp only at hstep
  split at hstep
  next hit hpc hhit =>
    cases hstep
    exact h.local l (.of_unkept rfl hfits.prompt (hfits.started (by rw [hpc]; decide)) hfits.blocks
      (h.entry_le hinv hcap _ ((hinv.lanes l).hit hit hhit).1) fun hpc => by cases hpc)
  next => cases hstep

/-- The copied page list is the held entry's. -/
theorem copy_supplied (hinv : Inv s) (h : Supplied nCtx cap s)
    (hcap : (nCtx - 1) / kvBlockTokens ≤ cap) (hstep : s.copy l = some next) :
    Supplied nCtx cap next := by
  have hfits := h.lanes l
  unfold State.copy at hstep
  dsimp only at hstep
  split at hstep
  next hit hpc hhit =>
    cases hstep
    refine h.local l ⟨hfits.prompt, fun _ => hfits.started (by rw [hpc]; decide),
      fun hpc => (by cases hpc), h.entry_le hinv hcap _ ((hinv.lanes l).hit hit hhit).1,
      Nat.zero_le _, fun _ => ?_, fun hpc => (by cases hpc), fun _ id hid => ?_⟩
    · dsimp only
      rw [hhit]
      rfl
    · cases hid
      exact List.Subset.refl _
  next => cases hstep

theorem restore_supplied (h : Supplied nCtx cap s) {restored : Bool}
    (hstep : s.restore l restored = some next) : Supplied nCtx cap next := by
  have hfits := h.lanes l
  unfold State.restore at hstep
  dsimp only at hstep
  split at hstep
  next hit hpc hhit =>
    have hstarted := hfits.started (by rw [hpc]; decide)
    have hkept := hfits.kept (.inl hpc)
    split at hstep
    next =>
      cases hstep
      exact h.local l ⟨hfits.prompt, fun _ => hstarted, fun hpc => (by cases hpc), hfits.blocks,
        hfits.pending, fun _ => hkept, fun hpc => (by cases hpc),
        fun _ => hfits.mapped (by rw [hpc]; rfl)⟩
    next =>
      cases hstep
      exact h.local l ⟨hfits.prompt, fun _ => hstarted, fun hpc => (by cases hpc), Nat.zero_le _,
        hfits.pending, fun _ => hkept, fun hpc => (by cases hpc), fun hpc => (by cases hpc)⟩
  next => cases hstep

/-- A reference to an entry is dropped. -/
theorem letGo_supplied (h : Supplied nCtx cap s) {lane : Lane} {id : Option Nat}
    (hlane : lane.Fits nCtx cap s.cache) : Supplied nCtx cap (s.letGo l lane id) := by
  cases id with
  | none => exact h.local l hlane
  | some i =>
      refine h.act l (fun other hother => ?_)
        (fun _ _ other _ => PrefixCache.letGo_shrinks i other)
        (hlane.frame fun other _ => PrefixCache.letGo_shrinks i other)
      rw [PrefixCache.letGo_created] at hother
      rw [PrefixCache.letGo_tokens]
      exact h.tokens other hother

theorem unkeep_supplied (h : Supplied nCtx cap s) (hstep : s.unkeep l = some next) :
    Supplied nCtx cap next := by
  have hfits := h.lanes l
  obtain ⟨hpc, hnext⟩ := Option.ite_none_right_eq_some.mp hstep
  cases hnext
  exact letGo_supplied h (.of_unkept rfl hfits.prompt (hfits.started (by rw [hpc]; decide))
    hfits.blocks hfits.pending fun hpc => by cases hpc)

theorem unmap_supplied (h : Supplied nCtx cap s) (hstep : s.unmap l = some next) :
    Supplied nCtx cap next := by
  have hfits := h.lanes l
  obtain ⟨hpc, hnext⟩ := Option.ite_none_right_eq_some.mp hstep
  cases hnext
  exact letGo_supplied h (.of_unkept rfl hfits.prompt (hfits.started (by rw [hpc]; decide))
    hfits.blocks hfits.pending fun hpc => by cases hpc)

theorem dropHit_supplied (hinv : Inv s) (htidy : (s.lane l).Tidy) (h : Supplied nCtx cap s)
    (hstep : s.dropHit l = some next) : Supplied nCtx cap next := by
  have hfits := h.lanes l
  have hat := (hinv.lanes l).atPc
  obtain ⟨hpc, hnext⟩ := Option.ite_none_right_eq_some.mp hstep
  cases hnext
  have hstarted : 0 < (s.lane l).prompt.length := by
    apply hfits.started
    rcases hpc with hpc | hpc <;> rw [hpc] <;> decide
  have hchunk : (s.lane l).past < (s.lane l).prompt.length := by
    rcases hpc with hpc | hpc
    · simp only [Lane.AtPc, hpc] at hat
      obtain ⟨_, hit, hhit, _, hcontext⟩ := hat
      obtain ⟨_, _, hlt, _⟩ := (hinv.lanes l).hit hit hhit
      rw [Lane.past, hcontext]
      exact Nat.lt_of_le_of_lt (List.length_take_le _ _) hlt
    · simp only [Lane.AtPc, hpc] at hat
      rw [Lane.past, hat.1.context]
      exact hstarted
  refine letGo_supplied h ⟨hfits.prompt, fun _ => hstarted, fun _ => hchunk, hfits.blocks,
    hfits.pending, fun hplace => ?_, fun hpc => (by cases hpc), fun _ id hid => ?_⟩
  · rcases hplace with hplace | hplace | hplace <;> cases hplace
  · rcases hpc with hpc | hpc
    · exact hfits.mapped (by rw [hpc]; rfl) id hid
    · rw [show (s.lane l).hitKeep = none from htidy.unkept (by rw [hpc]; rfl)] at hid
      cases hid

/-- Between two chunks: another one only before the end of the prompt. -/
theorem nextChunk_goes (lane : Lane) :
    ((State.nextChunk lane).prefills = true → lane.past < lane.prompt.length) ∧
      (State.nextChunk lane ≠ .restore ∧ State.nextChunk lane ≠ .warm ∧
        State.nextChunk lane ≠ .unkeep) ∧
      (State.nextChunk lane).promotes = false := by
  unfold State.nextChunk
  split
  next hlt => exact ⟨fun _ => hlt, by decide, rfl⟩
  next => exact ⟨fun hpre => (by cases hpre), by decide, rfl⟩

theorem forward_supplied (h : Supplied nCtx cap s) (hstep : s.forward config l = some next) :
    Supplied nCtx cap next := by
  have hfits := h.lanes l
  obtain ⟨⟨hpc, _⟩, hnext⟩ := Option.ite_none_right_eq_some.mp hstep
  cases hnext
  have hmaps : (s.lane l).pc.maps = true := by
    rw [hpc]
    rfl
  split
  next =>
    exact h.local l (hfits.goto hmaps (List.Subset.refl _) hfits.blocks hfits.pending
      (fun hpre => by cases hpre) (by decide) rfl)
  next =>
    obtain ⟨hchunk, hplaces, hpromotes⟩ := nextChunk_goes { s.lane l with
      context := (s.lane l).context ++ slice (s.lane l).prompt (s.lane l).past
        (config.take (s.lane l)) }
    exact h.local l (hfits.goto hmaps (List.Subset.refl _) hfits.blocks hfits.pending hchunk
      hplaces hpromotes)

theorem snapshot_supplied (h : Supplied nCtx cap s) {took : Bool}
    (hstep : s.snapshot l took = some next) : Supplied nCtx cap next := by
  have hfits := h.lanes l
  obtain ⟨hpc, hnext⟩ := Option.ite_none_right_eq_some.mp hstep
  have hmaps : (s.lane l).pc.maps = true := by
    rw [hpc]
    rfl
  split at hnext
  next =>
    cases hnext
    refine h.local l (hfits.goto hmaps (List.Subset.refl _) hfits.blocks ?_
      (fun hpre => by cases hpre) (by decide) rfl)
    exact (List.length_take_le' _ _).trans hfits.blocks
  next =>
    cases hnext
    obtain ⟨hchunk, hplaces, hpromotes⟩ := nextChunk_goes (s.lane l)
    exact h.local l (hfits.goto hmaps (List.Subset.refl _) hfits.blocks hfits.pending hchunk
      hplaces hpromotes)

theorem insert_supplied (hinv : Inv s) (htidy : (s.lane l).Tidy) (h : Supplied nCtx cap s)
    {bytes : Nat} (hstep : s.insert config l bytes = some next) : Supplied nCtx cap next := by
  have hfits := h.lanes l
  obtain ⟨hpc, hnext⟩ := Option.ite_none_right_eq_some.mp hstep
  cases hnext
  have hreclaims := @PrefixCache.insert_reclaims (State.held s.lane) s.cache config.cache
    (s.lane l).prompt (s.lane l).past bytes _ htidy.pending
  obtain ⟨hchunk, hplaces, hpromotes⟩ := nextChunk_goes (s.lane l)
  refine h.act l (PrefixCache.insert_tokens config.cache _ bytes _ h.tokens hfits.prompt)
    (fun other _ id hid => hreclaims.shrinks id (keeps_lt hinv hid)) ?_
  have hframe := hfits.frame fun id hid => hreclaims.shrinks id (keeps_lt hinv hid)
  exact hframe.goto (by rw [hpc]; rfl) (List.Subset.refl _) hfits.blocks (Nat.zero_le _) hchunk
    hplaces hpromotes

theorem decodeForward_supplied (h : Supplied nCtx cap s) {ids : List Token} {accepted : Nat}
    (hstep : s.decodeForward config l ids accepted = some next) : Supplied nCtx cap next := by
  have hfits := h.lanes l
  obtain ⟨⟨hpc, _⟩, hnext⟩ := Option.ite_none_right_eq_some.mp hstep
  cases hnext
  exact h.local l (hfits.goto (by rw [hpc]; rfl) (List.Subset.refl _) hfits.blocks hfits.pending
    (fun hpre => by cases hpre) (by decide) rfl)

theorem finish_supplied (h : Supplied nCtx cap s) (hstep : s.finish l = some next) :
    Supplied nCtx cap next := by
  have hfits := h.lanes l
  obtain ⟨hpc, hnext⟩ := Option.ite_none_right_eq_some.mp hstep
  cases hnext
  have hstarted : (s.lane l).pc ≠ .idle := by
    intro hidle
    rw [hidle] at hpc
    cases hpc
  refine h.local l ⟨hfits.prompt, fun _ => hfits.started hstarted, fun hpc => (by cases hpc),
    Nat.zero_le _, hfits.pending, fun hplace => ?_, fun hpc => (by cases hpc),
    fun hpc => (by cases hpc)⟩
  rcases hplace with hplace | hplace | hplace <;> cases hplace

theorem step_supplied {total : Nat} {event : Event n} (hinv : Inv s) (hsettled : Settled total s)
    (h : Supplied nCtx (tableCap nCtx config.draftsMax) s)
    (hpromote : ∀ l, event = .promote l → SparesPages config s event)
    (hstep : (admittedMachine n config nCtx).step s event = some next) :
    Supplied nCtx (tableCap nCtx config.draftsMax) next := by
  have hcap := entries_le_tableCap nCtx config.draftsMax
  obtain ⟨hadmits, hstep⟩ := Option.ite_none_right_eq_some.mp hstep
  cases event with
  | start l prompt => exact start_supplied h (of_decide_eq_true hadmits) hstep
  | lookup l => exact lookup_supplied hinv h hstep
  | allocate l => exact allocate_supplied hinv h (of_decide_eq_true hadmits) hstep
  | evict l copied => exact evict_supplied hinv h hstep
  | hostCopy l copied => exact hostCopy_supplied h hstep
  | promote l => exact promote_supplied h (hpromote l rfl) hstep
  | giveBack l => exact giveBack_supplied h hstep
  | check l => exact check_supplied h hstep
  | ref l => exact ref_supplied hinv h hcap hstep
  | copy l => exact copy_supplied hinv h hcap hstep
  | restore l restored => exact restore_supplied h hstep
  | unkeep l => exact unkeep_supplied h hstep
  | dropHit l => exact dropHit_supplied hinv (hsettled.tidy l) h hstep
  | forward l => exact forward_supplied h hstep
  | snapshot l took => exact snapshot_supplied h hstep
  | insert l bytes => exact insert_supplied hinv (hsettled.tidy l) h hstep
  | decodeForward l ids accepted => exact decodeForward_supplied h hstep
  | finish l => exact finish_supplied h hstep
  | unmap l => exact unmap_supplied h hstep

end Steps

/-! ## The lanes that wait -/

section Waiting

variable {n : Nat} {nCtx total : Nat} {s next : State n} {l : Fin n} {config : BackendConfig}

/-- A lane that waits finds an entry to evict, and none has been turned away. -/
structure Waited (s : State n) : Prop where
  waiting : ∀ l, (s.lane l).waits → ∃ id, s.cache.Resident id
  served : ∀ l, (s.lane l).pc ≠ .release

/-- The lane neither waits nor was turned away. -/
def Pc.quiet : Pc → Bool
  | .prefillEvict | .decodeEvict | .release => false
  | _ => true

theorem Waited.act (h : Waited s) (l : Fin n) {cache : PrefixCache} {kv : Nat → Page} {lane : Lane}
    (hothers : ∀ other, other ≠ l → (s.lane other).waits → (∃ id, s.cache.Resident id) →
      ∃ id, cache.Resident id)
    (hlane : lane.waits → ∃ id, cache.Resident id) (hserved : lane.pc ≠ .release) :
    Waited ⟨cache, kv, Function.update s.lane l lane⟩ := by
  refine ⟨fun other hwaits => ?_, fun other => ?_⟩
  all_goals by_cases hsame : other = l
  · simp only [hsame, Function.update_self] at hwaits
    exact hlane hwaits
  · simp only [Function.update_of_ne hsame] at hwaits
    exact hothers other hsame hwaits (h.waiting other hwaits)
  · simpa only [hsame, Function.update_self] using hserved
  · simpa only [Function.update_of_ne hsame] using h.served other

/-- A step to a place where the lane does not wait. -/
theorem Waited.quiet (h : Waited s) (l : Fin n) {cache : PrefixCache} {kv : Nat → Page}
    {lane : Lane} (hresident : (∃ id, s.cache.Resident id) → ∃ id, cache.Resident id)
    (hquiet : lane.pc.quiet = true) : Waited ⟨cache, kv, Function.update s.lane l lane⟩ := by
  refine h.act l (fun _ _ _ => hresident) (fun hwaits => ?_) fun hpc => ?_
  · rcases hwaits with hpc | hpc
    all_goals
      rw [hpc] at hquiet
      cases hquiet
  · rw [hpc] at hquiet
    cases hquiet

theorem letGo_waited (h : Waited s) {lane : Lane} {id : Option Nat}
    (hquiet : lane.pc.quiet = true) : Waited (s.letGo l lane id) := by
  cases id with
  | none => exact h.quiet l (fun hresident => hresident) hquiet
  | some i =>
      refine h.quiet l ?_ hquiet
      rintro ⟨id, hid⟩
      exact ⟨id, PrefixCache.letGo_resident.mpr hid⟩

theorem lookup_waited (h : Waited s) (hstep : s.lookup config l = some next) : Waited next := by
  have hresident : (∃ id, s.cache.Resident id) →
      ∃ id, (s.cache.lookup config.cache (s.lane l).prompt).1.Resident id := by
    rintro ⟨id, hid⟩
    exact ⟨id, (PrefixCache.lookup_resident _ _).mpr hid⟩
  unfold State.lookup at hstep
  dsimp only at hstep
  split at hstep
  next =>
    split at hstep
    next hlookup =>
      cases hstep
      rw [hlookup] at hresident
      exact h.quiet l hresident rfl
    next hlookup =>
      cases hstep
      rw [hlookup] at hresident
      refine h.quiet l hresident ?_
      dsimp only
      split <;> rfl
  next => cases hstep

/-- A lane that finds too few pages finds a resident entry. -/
theorem ensureBlocks_waited (hinv : Inv s) (hsettled : Settled total s)
    (hsupplied : Supplied nCtx (tableCap nCtx config.draftsMax) s)
    (hpool : n * tableCap nCtx config.draftsMax ≤ total) (h : Waited s) {tokens : Nat}
    {covered evict : Pc} (hgrows : Grows nCtx config (s.lane l) tokens covered evict) :
    Waited (s.ensureBlocks l tokens covered evict) := by
  have hcovered : covered.quiet = true := by
    rcases hgrows.places with ⟨rfl, _⟩ | ⟨rfl, _⟩ <;> rfl
  have hevict : evict ≠ .release := by
    rcases hgrows.places with ⟨_, rfl⟩ | ⟨_, rfl⟩ <;> decide
  unfold State.ensureBlocks
  dsimp only
  split
  next => exact h.quiet l (fun hresident => hresident) hcovered
  next =>
    split
    next hnone =>
      refine h.act l (fun _ _ _ hresident => hresident) (fun _ => ?_) hevict
      exact resident_of_allocate_none hinv hsettled hsupplied
        (entries_le_tableCap nCtx config.draftsMax) hpool hgrows.maps hgrows.wanted hnone
    next => exact h.quiet l (fun hresident => hresident) hcovered

theorem allocate_waited (hinv : Inv s) (hsettled : Settled total s)
    (hsupplied : Supplied nCtx (tableCap nCtx config.draftsMax) s)
    (hpool : n * tableCap nCtx config.draftsMax ≤ total) (h : Waited s)
    (hadmits : (s.lane l).pc = .decode → (s.lane l).past + 1 < nCtx)
    (hstep : s.allocate config l = some next) : Waited next := by
  rcases allocate_cases hstep with ⟨hit, hpc, hhit, hout⟩ | ⟨tokens, covered, evict, hgrowth, rfl⟩
  · split at hout
    all_goals
      rw [hout]
      exact h.quiet l (fun hresident => hresident) rfl
  · exact ensureBlocks_waited hinv hsettled hsupplied hpool h
      ((hsupplied.lanes l).grows hadmits hgrowth)

/-- A waiting lane evicts an entry and tries again. -/
theorem evict_waited (h : Waited s) {copied : Bool}
    (hspares : SparesPages config s (.evict l copied))
    (hstep : s.evict config l copied = some next) : Waited next := by
  unfold State.evict at hstep
  dsimp only at hstep
  obtain ⟨pc, hafter, rfl⟩ := Option.map_eq_some_iff.mp hstep
  have hquiet : pc.quiet = true := by
    rw [PrefixCache.evictOldest_snd] at hafter
    by_cases hwaits : (s.lane l).waits
    · obtain ⟨id, hid⟩ := h.waiting l hwaits
      rw [Option.isSome_iff_ne_none.mpr (PrefixCache.victim_ne_none hid)] at hafter
      rcases hwaits with hpc | hpc
      all_goals
        rw [hpc] at hafter
        cases hafter
        rfl
    · unfold State.afterEvict at hafter
      split at hafter
      next => cases hafter; rfl
      next => cases hafter; rfl
      next hpc _ => exact absurd (.inl hpc) hwaits
      next hpc _ => exact absurd (.inr hpc) hwaits
      next hpc _ => exact absurd (.inl hpc) hwaits
      next hpc _ => exact absurd (.inr hpc) hwaits
      next => cases hafter
  refine h.act l (fun other hother hwaits _ => ?_) (fun hwaits => ?_) fun hpc => ?_
  · obtain ⟨id, hid, hspared⟩ := hspares.2 other hother hwaits
    exact ⟨id, PrefixCache.evictOldest_resident _ _ _ hid hspared⟩
  · rcases hwaits with hpc | hpc
    all_goals
      dsimp only at hpc
      rw [hpc] at hquiet
      cases hquiet
  · dsimp only at hpc
    rw [hpc] at hquiet
    cases hquiet

theorem nextChunk_quiet (lane : Lane) : (State.nextChunk lane).quiet = true := by
  unfold State.nextChunk
  split <;> rfl

theorem hostCopy_waited (h : Waited s) {copied : Bool}
    (hstep : s.hostCopy l copied = some next) : Waited next := by
  unfold State.hostCopy at hstep
  dsimp only at hstep
  split at hstep
  next =>
    split at hstep
    next =>
      cases hstep
      exact h.quiet l (fun hresident => hresident) rfl
    next =>
      split at hstep
      all_goals
        cases hstep
        exact h.quiet l (fun hresident => hresident) rfl
  next => cases hstep

theorem promote_waited (h : Waited s) (hstep : s.promote l = some next) : Waited next := by
  unfold State.promote at hstep
  dsimp only at hstep
  split at hstep
  next =>
    split at hstep
    next hpromote =>
      cases hstep
      refine h.quiet l ?_ rfl
      rintro ⟨id, hid⟩
      exact ⟨id, PrefixCache.promote_resident hpromote hid⟩
    next =>
      cases hstep
      exact h.quiet l (fun hresident => hresident) rfl
  next => cases hstep

theorem check_waited (h : Waited s) (hstep : s.check l = some next) : Waited next := by
  unfold State.check at hstep
  dsimp only at hstep
  split at hstep
  next =>
    cases hstep
    refine h.quiet l (fun hresident => hresident) ?_
    dsimp only
    split <;> rfl
  next => cases hstep

theorem map_waited (h : Waited s) (hstep : s.ref l = some next ∨ s.copy l = some next) :
    Waited next := by
  rcases hstep with hstep | hstep
  · unfold State.ref at hstep
    dsimp only at hstep
    split at hstep
    next =>
      cases hstep
      exact h.quiet l (fun hresident => hresident) rfl
    next => cases hstep
  · unfold State.copy at hstep
    dsimp only at hstep
    split at hstep
    next =>
      cases hstep
      exact h.quiet l (fun hresident => hresident) rfl
    next => cases hstep

theorem restore_waited (h : Waited s) {restored : Bool}
    (hstep : s.restore l restored = some next) : Waited next := by
  unfold State.restore at hstep
  dsimp only at hstep
  split at hstep
  next =>
    split at hstep
    all_goals
      cases hstep
      exact h.quiet l (fun hresident => hresident) rfl
  next => cases hstep

theorem snapshot_waited (h : Waited s) {took : Bool} (hstep : s.snapshot l took = some next) :
    Waited next := by
  obtain ⟨_, hnext⟩ := Option.ite_none_right_eq_some.mp hstep
  split at hnext
  next =>
    cases hnext
    exact h.quiet l (fun hresident => hresident) rfl
  next =>
    cases hnext
    exact h.quiet l (fun hresident => hresident) (nextChunk_quiet _)

theorem forward_waited (h : Waited s) (hstep : s.forward config l = some next) : Waited next := by
  obtain ⟨_, hnext⟩ := Option.ite_none_right_eq_some.mp hstep
  cases hnext
  refine h.quiet l (fun hresident => hresident) ?_
  dsimp only
  split
  next => rfl
  next => exact nextChunk_quiet _

theorem insert_waited (h : Waited s) {bytes : Nat} (hstep : s.insert config l bytes = some next) :
    Waited next := by
  obtain ⟨_, hnext⟩ := Option.ite_none_right_eq_some.mp hstep
  cases hnext
  refine h.quiet l ?_ (nextChunk_quiet _)
  rintro ⟨id, hid⟩
  exact PrefixCache.insert_resident _ _ _ _ _ hid

theorem step_waited {event : Event n} (hinv : Inv s) (hsettled : Settled total s)
    (hsupplied : Supplied nCtx (tableCap nCtx config.draftsMax) s)
    (hpool : n * tableCap nCtx config.draftsMax ≤ total) (h : Waited s)
    (hspares : SparesPages config s event)
    (hstep : (admittedMachine n config nCtx).step s event = some next) : Waited next := by
  obtain ⟨hadmits, hstep⟩ := Option.ite_none_right_eq_some.mp hstep
  cases event with
  | lookup l => exact lookup_waited h hstep
  | allocate l =>
      exact allocate_waited hinv hsettled hsupplied hpool h (of_decide_eq_true hadmits) hstep
  | evict l copied => exact evict_waited h hspares hstep
  | hostCopy l copied => exact hostCopy_waited h hstep
  | promote l => exact promote_waited h hstep
  | check l => exact check_waited h hstep
  | ref l => exact map_waited h (.inl hstep)
  | copy l => exact map_waited h (.inr hstep)
  | restore l restored => exact restore_waited h hstep
  | forward l => exact forward_waited h hstep
  | snapshot l took => exact snapshot_waited h hstep
  | insert l bytes => exact insert_waited h hstep
  | start l prompt =>
      obtain ⟨_, hnext⟩ := Option.ite_none_right_eq_some.mp hstep
      cases hnext
      exact h.quiet l (fun hresident => hresident) rfl
  | giveBack l =>
      obtain ⟨_, hnext⟩ := Option.ite_none_right_eq_some.mp hstep
      cases hnext
      exact h.quiet l (fun hresident => hresident) rfl
  | decodeForward l ids accepted =>
      obtain ⟨_, hnext⟩ := Option.ite_none_right_eq_some.mp hstep
      cases hnext
      exact h.quiet l (fun hresident => hresident) rfl
  | finish l =>
      obtain ⟨_, hnext⟩ := Option.ite_none_right_eq_some.mp hstep
      cases hnext
      exact h.quiet l (fun hresident => hresident) rfl
  | unkeep l =>
      obtain ⟨_, hnext⟩ := Option.ite_none_right_eq_some.mp hstep
      cases hnext
      exact letGo_waited h rfl
  | dropHit l =>
      obtain ⟨_, hnext⟩ := Option.ite_none_right_eq_some.mp hstep
      cases hnext
      exact letGo_waited h rfl
  | unmap l =>
      obtain ⟨_, hnext⟩ := Option.ite_none_right_eq_some.mp hstep
      cases hnext
      exact letGo_waited h rfl

end Waiting

/-! ## The eviction loop ends -/

namespace PrefixCache

variable {held : Nat → Bool} {cache : PrefixCache}

/-- The number of resident entries. -/
def residents (cache : PrefixCache) : Nat :=
  cache.entries.countP fun id => !(cache.entry id).tiered

theorem letGo_residents (id : Nat) : (letGo held cache id).residents = cache.residents := by
  unfold residents
  simp only [letGo_entries, letGo_tiered]

theorem lookup_residents (config : CacheConfig) (tokens : List Token) :
    (cache.lookup config tokens).1.residents = cache.residents := by
  obtain ⟨entries, hperm, heq⟩ := lookup_reorders config cache tokens
  rw [heq]
  exact hperm.countP_eq _

/-- The residents without those in a sublist of the entries. -/
theorem residents_le_of_sublist {entries : List Nat} (hsublist : entries.Sublist cache.entries) :
    residents { cache with entries := entries } ≤ cache.residents :=
  hsublist.countP_le

theorem trimHost_residents (config : CacheConfig) (fuel : Nat) :
    (trimHost config held fuel cache).residents ≤ cache.residents := by
  induction fuel generalizing cache with
  | zero => exact Nat.le_refl _
  | succ fuel ih =>
      unfold trimHost
      split
      next =>
        split
        next => exact Nat.le_refl _
        next =>
          refine ih.trans ?_
          rw [letGo_residents]
          exact residents_le_of_sublist List.erase_sublist
      next => exact Nat.le_refl _

/-- An eviction that finds a victim leaves one resident entry less. -/
theorem evictOldest_residents (config : CacheConfig) (kv : Nat → Page) (copied : Bool) {id : Nat}
    (hvictim : cache.victim = some id) :
    (cache.evictOldest config held kv copied).1.residents + 1 ≤ cache.residents := by
  obtain ⟨hlisted, hresident⟩ := victim_resident hvictim
  have hperm := List.perm_cons_erase hlisted
  have hcount : cache.residents =
      (cache.entries.erase id).countP (fun other => !(cache.entry other).tiered) + 1 := by
    unfold residents
    rw [hperm.countP_eq, List.countP_cons_of_pos (by simp [hresident])]
  rw [hcount]
  apply Nat.add_le_add_right
  unfold evictOldest
  rw [hvictim]
  dsimp only
  split
  next =>
    refine (trimHost_residents config _).trans ?_
    have hentries : (demote config kv cache id).entries = cache.entries := rfl
    unfold residents
    rw [hentries, hperm.countP_eq, List.countP_cons_of_neg (by simp [demote, Entry.demoted])]
    apply List.countP_mono_left
    intro other _ hother
    by_cases hsame : other = id
    · simp [hsame, hresident]
    · simpa [demote, hsame] using hother
  next =>
    rw [letGo_residents]
    exact Nat.le_refl _

theorem evictOldest_residents_le (config : CacheConfig) (kv : Nat → Page) (copied : Bool) :
    (cache.evictOldest config held kv copied).1.residents + cache.victim.toList.length ≤
      cache.residents := by
  cases hvictim : cache.victim with
  | none =>
      unfold evictOldest
      rw [hvictim]
      exact Nat.le_refl _
  | some id => exact evictOldest_residents config kv copied hvictim

theorem evictToFit_residents (config : CacheConfig) (incoming fuel : Nat) :
    (evictToFit config held incoming fuel cache).residents ≤ cache.residents := by
  induction fuel generalizing cache with
  | zero => exact Nat.le_refl _
  | succ fuel ih =>
      unfold evictToFit
      split
      next =>
        refine ih.trans ?_
        unfold dropBack
        split
        next => exact Nat.le_refl _
        next =>
          rw [letGo_residents]
          exact residents_le_of_sublist (List.dropLast_sublist _)
      next => exact Nat.le_refl _

/-- An insertion adds at most one. -/
theorem insert_residents (config : CacheConfig) (tokens : List Token) (prefixLen bytes : Nat)
    (blocks : List Nat) (hdistinct : cache.Distinct) :
    (cache.insert config held tokens prefixLen bytes blocks).residents ≤ cache.residents + 1 := by
  unfold insert
  dsimp only
  split
  next => exact Nat.le_succ _
  next =>
    split
    next => exact Nat.le_succ _
    next =>
      split
      next => exact Nat.le_succ _
      next =>
        have hfit := @evictToFit_residents held cache config bytes cache.entries.length
        have hlisted := ((@evictToFit_reclaims held cache config bytes
          cache.entries.length).distinct hdistinct).listed
        generalize evictToFit config held bytes cache.entries.length cache = evicted
          at hfit hlisted
        unfold residents at hfit ⊢
        rw [List.countP_cons_of_pos (by simp)]
        apply Nat.add_le_add_right
        refine le_trans (List.countP_mono_left fun id hid hresident => ?_) hfit
        have hne : id ≠ evicted.created := Nat.ne_of_lt (hlisted id hid)
        simpa [hne] using hresident

/-- A promotion adds at most one. -/
theorem promote_residents {id : Nat} {pages : List Nat} {after : PrefixCache}
    (hdistinct : cache.Distinct) (hpromote : cache.promote id pages = (after, true)) :
    after.residents ≤ cache.residents + 1 := by
  unfold promote at hpromote
  split at hpromote
  next hlisted =>
    cases hpromote
    have hperm := List.perm_cons_erase hlisted.1
    unfold residents
    dsimp only
    rw [hperm.countP_eq, hperm.countP_eq,
      List.countP_cons_of_pos (by simp [Entry.promoted])]
    apply Nat.add_le_add_right
    refine le_trans (List.countP_mono_left fun other hother hresident => ?_)
      (List.Sublist.countP_le (List.sublist_cons_self _ _))
    have hne : other ≠ id := (hdistinct.once.mem_erase_iff.mp hother).1
    simpa [hne] using hresident
  next => cases hpromote

end PrefixCache

section Loop

variable {n : Nat} {nCtx total : Nat} {s next last : State n} {l : Fin n} {config : BackendConfig}

/-- The lane an event is a step of. -/
def Event.lane : Event n → Fin n
  | .start l _ | .lookup l | .allocate l | .evict l _ | .hostCopy l _ | .promote l | .giveBack l
  | .check l | .ref l | .copy l | .restore l _ | .unkeep l | .dropHit l | .forward l
  | .snapshot l _ | .insert l _ | .decodeForward l _ _ | .finish l | .unmap l => l

/-- A step of `ensure_blocks`. -/
def Event.ensures : Event n → Bool
  | .allocate _ | .evict _ _ => true
  | _ => false

/-- A pass of lane `l` through `evict_oldest`. -/
def Event.evicts (l : Fin n) : Event n → Nat
  | .evict other _ => if other = l then 1 else 0
  | _ => 0

/-- A step that may add a resident entry. -/
def Event.arrives : Event n → Nat
  | .insert _ _ | .promote _ => 1
  | _ => 0

/-- The lane is in `ensure_blocks`, or has just left it with its pages. -/
def Pc.ensures : Pc → Bool
  | .prefill | .prefillEvict | .forward | .decode | .decodeEvict | .decodeForward => true
  | _ => false

/-- A step that changes neither the list nor the tier of an entry. -/
def Event.local : Event n → Bool
  | .lookup _ | .evict _ _ | .promote _ | .unkeep _ | .dropHit _ | .insert _ _ | .unmap _ => false
  | _ => true

theorem ensureBlocks_local (tokens : Nat) (covered evict : Pc) :
    ∃ pool lane, s.ensureBlocks l tokens covered evict =
      ⟨{ s.cache with pool := pool }, s.kv, Function.update s.lane l lane⟩ := by
  unfold State.ensureBlocks
  dsimp only
  split
  next => exact ⟨_, _, rfl⟩
  next => split <;> exact ⟨_, _, rfl⟩

/-- A local step changes its lane, and of the cache at most the pool. -/
theorem local_step {event : Event n} (hlocal : event.local = true)
    (hstep : (lanesMachine n config).step s event = some next) :
    ∃ pool kv lane,
      next = ⟨{ s.cache with pool := pool }, kv, Function.update s.lane event.lane lane⟩ := by
  cases event with
  | allocate l =>
      rcases allocate_cases hstep with ⟨hit, _, _, hout⟩ | ⟨tokens, covered, evict, _, rfl⟩
      · split at hout
        all_goals exact ⟨_, _, _, hout⟩
      · obtain ⟨pool, lane, heq⟩ := ensureBlocks_local tokens covered evict
        exact ⟨pool, _, lane, heq⟩
  | start l prompt | giveBack l | decodeForward l ids accepted | finish l | forward l =>
      obtain ⟨_, hnext⟩ := Option.ite_none_right_eq_some.mp hstep
      cases hnext
      exact ⟨_, _, _, rfl⟩
  | snapshot l took =>
      obtain ⟨_, hnext⟩ := Option.ite_none_right_eq_some.mp hstep
      split at hnext
      all_goals
        cases hnext
        exact ⟨_, _, _, rfl⟩
  | hostCopy l copied =>
      simp only [lanesMachine, State.hostCopy] at hstep
      repeat' split at hstep
      all_goals first | cases hstep; exact ⟨_, _, _, rfl⟩ | cases hstep
  | check l =>
      simp only [lanesMachine, State.check] at hstep
      split at hstep
      all_goals first | cases hstep; exact ⟨_, _, _, rfl⟩ | cases hstep
  | ref l =>
      simp only [lanesMachine, State.ref] at hstep
      split at hstep
      all_goals first | cases hstep; exact ⟨_, _, _, rfl⟩ | cases hstep
  | copy l =>
      simp only [lanesMachine, State.copy] at hstep
      split at hstep
      all_goals first | cases hstep; exact ⟨_, _, _, rfl⟩ | cases hstep
  | restore l restored =>
      simp only [lanesMachine, State.restore] at hstep
      repeat' split at hstep
      all_goals first | cases hstep; exact ⟨_, _, _, rfl⟩ | cases hstep
  | _ => cases hlocal

theorem letGo_own (lane : Lane) (id : Option Nat) :
    ∃ cache, s.letGo l lane id = ⟨cache, s.kv, Function.update s.lane l lane⟩ := by
  cases id with
  | none => exact ⟨_, rfl⟩
  | some id => exact ⟨_, rfl⟩

/-- A step changes no other lane. -/
theorem step_own {event : Event n} (hstep : (lanesMachine n config).step s event = some next) :
    ∃ cache kv lane, next = ⟨cache, kv, Function.update s.lane event.lane lane⟩ := by
  cases event with
  | evict l copied =>
      obtain ⟨pc, _, rfl⟩ := Option.map_eq_some_iff.mp hstep
      exact ⟨_, _, _, rfl⟩
  | lookup l =>
      simp only [lanesMachine, State.lookup] at hstep
      repeat' split at hstep
      all_goals first | cases hstep; exact ⟨_, _, _, rfl⟩ | cases hstep
  | promote l =>
      simp only [lanesMachine, State.promote] at hstep
      repeat' split at hstep
      all_goals first | cases hstep; exact ⟨_, _, _, rfl⟩ | cases hstep
  | insert l bytes =>
      obtain ⟨_, hnext⟩ := Option.ite_none_right_eq_some.mp hstep
      cases hnext
      exact ⟨_, _, _, rfl⟩
  | unkeep l | dropHit l | unmap l =>
      obtain ⟨_, hnext⟩ := Option.ite_none_right_eq_some.mp hstep
      cases hnext
      obtain ⟨cache, heq⟩ := letGo_own _ _
      exact ⟨cache, _, _, heq⟩
  | _ =>
      obtain ⟨pool, kv, lane, heq⟩ := local_step rfl hstep
      exact ⟨_, kv, lane, heq⟩

theorem step_other {event : Event n} (hstep : (lanesMachine n config).step s event = some next)
    (hother : event.lane ≠ l) : next.lane l = s.lane l := by
  obtain ⟨cache, kv, lane, rfl⟩ := step_own hstep
  exact Function.update_of_ne hother.symm _ _

theorem letGo_state_residents {lane : Lane} (id : Option Nat) :
    (s.letGo l lane id).cache.residents = s.cache.residents := by
  cases id with
  | none => rfl
  | some id => exact PrefixCache.letGo_residents id

/-- The residents along one step: insertions and promotions add one at most, and an
eviction that finds a victim takes one. -/
theorem step_residents {event : Event n} (hsettled : Settled total s)
    (hfinds : event.evicts l = 1 → s.cache.victim ≠ none)
    (hstep : (lanesMachine n config).step s event = some next) :
    next.cache.residents + event.evicts l ≤ s.cache.residents + event.arrives := by
  cases event with
  | evict other copied =>
      obtain ⟨pc, _, rfl⟩ := Option.map_eq_some_iff.mp hstep
      have hless := @PrefixCache.evictOldest_residents_le (State.held s.lane) s.cache config.cache
        s.kv copied
      have hpaid : Event.evicts l (.evict other copied) ≤ s.cache.victim.toList.length := by
        by_cases hsame : other = l
        · obtain ⟨id, hid⟩ := Option.ne_none_iff_exists'.mp (hfinds (if_pos hsame))
          rw [hid]
          exact (if_pos hsame).le
        · exact (if_neg hsame).le.trans (Nat.zero_le _)
      exact (Nat.add_le_add_left hpaid _).trans hless
  | lookup other =>
      have hsame := @PrefixCache.lookup_residents s.cache config.cache (s.lane other).prompt
      simp only [lanesMachine, State.lookup] at hstep
      split at hstep
      next =>
        split at hstep
        all_goals
          next hlookup =>
            cases hstep
            rw [hlookup] at hsame
            exact hsame.le
      next => cases hstep
  | promote other =>
      simp only [lanesMachine, State.promote] at hstep
      split at hstep
      next =>
        split at hstep
        next hpromote =>
          cases hstep
          exact PrefixCache.promote_residents hsettled.distinct hpromote
        next =>
          cases hstep
          exact Nat.le_succ _
      next => cases hstep
  | insert other bytes =>
      obtain ⟨_, hnext⟩ := Option.ite_none_right_eq_some.mp hstep
      cases hnext
      exact PrefixCache.insert_residents _ _ _ _ _ hsettled.distinct
  | unkeep other | dropHit other | unmap other =>
      obtain ⟨_, hnext⟩ := Option.ite_none_right_eq_some.mp hstep
      cases hnext
      exact (letGo_state_residents _).le
  | _ =>
      obtain ⟨pool, kv, lane, rfl⟩ := local_step rfl hstep
      exact Nat.le_refl _

/-! ## Every run -/

/-- What holds in every state of a run: the pages are accounted for, the lanes fit their
shares of the pool, and a lane that waits has an entry to evict. -/
structure Serves (nCtx total : Nat) (config : BackendConfig) (s : State n) : Prop where
  inv : Inv s
  settled : Settled total s
  supplied : Supplied nCtx (tableCap nCtx config.draftsMax) s
  waited : Waited s

theorem initial_serves (n nCtx total : Nat) (config : BackendConfig) (kv : Nat → Page) :
    Serves nCtx total config (State.initial n total kv) := by
  refine ⟨initial_inv n total kv, initial_settled n total kv, ⟨?_, fun l => ?_⟩,
    ⟨fun l hwaits => ?_, fun l hpc => by cases hpc⟩⟩
  · intro id hid
    exact absurd hid (Nat.not_lt_zero id)
  · exact ⟨Nat.zero_le _, fun hpc => absurd rfl hpc, fun hpc => (by cases hpc), Nat.zero_le _,
      Nat.zero_le _, fun _ => rfl, fun hpc => (by cases hpc), fun hpc => (by cases hpc)⟩
  · rcases hwaits with hpc | hpc <;> cases hpc

theorem step_serves {event : Event n} (hpool : n * tableCap nCtx config.draftsMax ≤ total)
    (h : Serves nCtx total config s) (hspares : SparesPages config s event)
    (hstep : (admittedMachine n config nCtx).step s event = some next) :
    Serves nCtx total config next := by
  obtain ⟨_, hplain⟩ := Option.ite_none_right_eq_some.mp hstep
  exact ⟨step_inv h.inv hspares.windows hplain, step_settled h.inv h.settled hplain,
    step_supplied h.inv h.settled h.supplied (fun _ _ => hspares) hstep,
    step_waited h.inv h.settled h.supplied hpool h.waited hspares hstep⟩

/-- `ensure_blocks` up to its eviction gives the lane its pages, or sends it to evict. -/
theorem ensureBlocks_outcome (hinv : Inv s) (tokens : Nat) (covered evict : Pc) :
    ((s.ensureBlocks l tokens covered evict).lane l).pc = covered ∧
        State.wanted tokens ≤ ((s.ensureBlocks l tokens covered evict).lane l).blocks.length ∨
      ((s.ensureBlocks l tokens covered evict).lane l).pc = evict := by
  unfold State.ensureBlocks
  dsimp only
  split
  next henough =>
    simp only [State.setLane, Function.update_self]
    exact .inl ⟨trivial, henough⟩
  next hmore =>
    split
    next => simp [State.setLane]
    next fresh pool hallocate =>
      have hlength := (BlockPool.allocate_some hinv.cache.pool hallocate).length
      simp only [Function.update_self, List.length_append]
      exact .inl ⟨trivial, by omega⟩

/-- A lane in `ensure_blocks` stays there until it has its pages. -/
theorem step_ensures {event : Event n} (hinv : Inv s) (hserved : (next.lane l).pc ≠ .release)
    (hpc : (s.lane l).pc.ensures = true) (hown : event.lane = l → event.ensures = true)
    (hstep : (lanesMachine n config).step s event = some next) :
    (next.lane l).pc.ensures = true := by
  by_cases hsame : event.lane = l
  · have hensures := hown hsame
    subst hsame
    cases event with
    | allocate l =>
        change (s.lane l).pc.ensures = true at hpc
        rcases allocate_cases hstep with ⟨hit, hpromote, _⟩ | ⟨tokens, covered, evict, hgrowth, rfl⟩
        · rw [hpromote] at hpc
          cases hpc
        · have hplaces : covered.ensures = true ∧ evict.ensures = true := by
            unfold Lane.growth at hgrowth
            split at hgrowth <;> cases hgrowth <;> exact ⟨rfl, rfl⟩
          change ((s.ensureBlocks l tokens covered evict).lane l).pc.ensures = true
          rcases ensureBlocks_outcome hinv tokens covered evict with ⟨hcovered, _⟩ | hevict
          · rw [hcovered]
            exact hplaces.1
          · rw [hevict]
            exact hplaces.2
    | evict l copied =>
        change (s.lane l).pc.ensures = true at hpc
        obtain ⟨pc, hafter, rfl⟩ := Option.map_eq_some_iff.mp hstep
        simp only [Event.lane, Function.update_self] at hserved ⊢
        unfold State.afterEvict at hafter
        split at hafter
        next hevict _ =>
          rw [hevict] at hpc
          cases hpc
        next hevict _ =>
          rw [hevict] at hpc
          cases hpc
        next => cases hafter; rfl
        next => cases hafter; rfl
        next => cases hafter; exact absurd rfl hserved
        next => cases hafter; exact absurd rfl hserved
        next => cases hafter
    | _ => cases hensures
  · rw [step_other hstep hsame]
    exact hpc

/-- A lane in `ensure_blocks` that evicts has waited for it. -/
theorem waits_of_evicts {event : Event n} (hpc : (s.lane l).pc.ensures = true)
    (hevicts : event.evicts l = 1) (hstep : (lanesMachine n config).step s event = some next) :
    (s.lane l).waits := by
  unfold Event.evicts at hevicts
  split at hevicts
  next other copied =>
    split at hevicts
    next hsame =>
      subst hsame
      obtain ⟨pc, hafter, _⟩ := Option.map_eq_some_iff.mp hstep
      cases hplace : (s.lane other).pc
      case prefillEvict => exact .inl hplace
      case decodeEvict => exact .inr hplace
      case promoteEvict =>
        rw [hplace] at hpc
        cases hpc
      all_goals
        rw [hplace] at hafter
        cases hafter
    next => cases hevicts
  next => cases hevicts

/-- A lane that waits evicts an entry, and allocates again. -/
theorem evict_of_waits (hwaited : Waited s) (hwaits : (s.lane l).waits) (copied : Bool) :
    ∃ next, s.evict config l copied = some next ∧
      ((next.lane l).growth config).isSome = true := by
  obtain ⟨id, hid⟩ := hwaited.waiting l hwaits
  have hfound : (s.cache.evictOldest config.cache (State.held s.lane) s.kv copied).2 = true := by
    rw [PrefixCache.evictOldest_snd]
    exact Option.isSome_iff_ne_none.mpr (PrefixCache.victim_ne_none hid)
  unfold State.evict
  dsimp only
  rcases hwaits with hpc | hpc
  all_goals
    rw [hfound, hpc]
    exact ⟨_, rfl, by simp [Lane.growth]⟩

/-- In `ensure_blocks` a lane evicts at most once for every entry that is resident or comes
later. -/
theorem evictions_le (hpool : n * tableCap nCtx config.draftsMax ≤ total)
    (h : Serves nCtx total config s) (hpc : (s.lane l).pc.ensures = true)
    {events : List (Event n)}
    (hmeets : (admittedMachine n config nCtx).Meets (fun s event => SparesPages config s event ∧
      (event.lane = l → event.ensures = true)) s events)
    (hrun : (admittedMachine n config nCtx).run s events = some last) :
    (events.map (Event.evicts l)).sum ≤ s.cache.residents + (events.map Event.arrives).sum := by
  have hstep : ∀ s event next, Serves nCtx total config s ∧ (s.lane l).pc.ensures = true →
      SparesPages config s event ∧ (event.lane = l → event.ensures = true) →
      (admittedMachine n config nCtx).step s event = some next →
      (Serves nCtx total config next ∧ (next.lane l).pc.ensures = true) ∧
        next.cache.residents + event.evicts l ≤ s.cache.residents + event.arrives := by
    intro s event next ⟨hserves, hpc⟩ ⟨hspares, hown⟩ hstep
    have hnext := step_serves hpool hserves hspares hstep
    obtain ⟨_, hplain⟩ := Option.ite_none_right_eq_some.mp hstep
    refine ⟨⟨hnext, step_ensures hserves.inv (hnext.waited.served l) hpc hown hplain⟩, ?_⟩
    refine step_residents hserves.settled (fun hevicts => ?_) hplain
    obtain ⟨id, hid⟩ := hserves.waited.waiting l (waits_of_evicts hpc hevicts hplain)
    exact PrefixCache.victim_ne_none hid
  have hpaid := Machine.run_potential hstep ⟨h, hpc⟩ hmeets hrun
  exact (Nat.le_add_left _ _).trans hpaid

/-- `ensure_blocks` ends with the pages it wants: it never returns false, its allocations
cover the table or find an entry to evict, and its evictions are bounded by the entries. -/
structure PagesEnsured (config : BackendConfig) (nCtx : Nat) (s : State n) : Prop where
  never_false : ∀ l, (s.lane l).pc ≠ .release
  allocates : ∀ l tokens covered evict, (s.lane l).growth config = some (tokens, covered, evict) →
    admits nCtx s (.allocate l) = true →
    ∃ next, (admittedMachine n config nCtx).step s (.allocate l) = some next ∧
      ((next.lane l).pc = covered ∧ State.wanted tokens ≤ (next.lane l).blocks.length ∨
        (next.lane l).pc = evict)
  evicts : ∀ l copied, (s.lane l).waits →
    ∃ next, (admittedMachine n config nCtx).step s (.evict l copied) = some next ∧
      ((next.lane l).growth config).isSome = true
  ends : ∀ l events last, (s.lane l).pc.ensures = true →
    (admittedMachine n config nCtx).Meets (fun s event => SparesPages config s event ∧
      (event.lane = l → event.ensures = true)) s events →
    (admittedMachine n config nCtx).run s events = some last →
    (events.map (Event.evicts l)).sum ≤ s.cache.residents + (events.map Event.arrives).sum

theorem Serves.pagesEnsured (hpool : n * tableCap nCtx config.draftsMax ≤ total)
    (h : Serves nCtx total config s) : PagesEnsured config nCtx s where
  never_false := h.waited.served
  allocates l tokens covered evict hgrowth hadmits := by
    refine ⟨s.ensureBlocks l tokens covered evict, ?_,
      ensureBlocks_outcome h.inv tokens covered evict⟩
    exact (if_pos hadmits).trans (allocate_of_growth hgrowth)
  evicts l copied hwaits := evict_of_waits h.waited hwaits copied
  ends l events last hpc hmeets hrun := evictions_le hpool h hpc hmeets hrun

/-- In every run of the lanes from a load whose pool has its share for each of them. -/
theorem ensureBlocks_never_fails {kv : Nat → Page} {events : List (Event n)}
    (hpool : n * perLaneBlocks nCtx config.draftsMax ≤ total)
    (hspares : (admittedMachine n config nCtx).Meets (SparesPages config)
      (State.initial n total kv) events)
    (hrun : (admittedMachine n config nCtx).run (State.initial n total kv) events = some s) :
    PagesEnsured config nCtx s := by
  have hshare : n * tableCap nCtx config.draftsMax ≤ total :=
    (Nat.mul_le_mul_left n (Nat.le_succ _)).trans hpool
  have hserves := Machine.run_invariant
    (fun _ _ _ h hallowed hstep => step_serves hshare h hallowed hstep)
    (initial_serves n nCtx total config kv) hspares hrun
  exact hserves.pagesEnsured hshare

end Loop

attribute [local instance] neZero_two

/-- A lane prefills a prompt of 40 copies of a token and caches the first 32. -/
def prefillAlone (l : Fin 2) (token : Token) : List (Event 2) :=
  [.start l (List.replicate 40 token), .lookup l, .dropHit l, .allocate l, .forward l,
    .snapshot l true, .insert l 10]

def requestAlone (l : Fin 2) (token : Token) : List (Event 2) :=
  prefillAlone l token ++ [.allocate l, .forward l, .finish l, .unmap l]

/-- Four requests leave 8 pages in the cache; then both lanes run others up to allocations that
find no page. -/
def bothShort : List (Event 2) :=
  requestAlone 0 7 ++ requestAlone 0 8 ++ requestAlone 0 9 ++ requestAlone 0 10 ++
    prefillAlone 0 11 ++ prefillAlone 1 12 ++ [.allocate 0, .allocate 1]

/-- The second lane evicts while the first waits too, and both have their pages. -/
theorem ensureBlocks_never_fails_bothShort :
    2 * perLaneBlocks 64 twoLanes.draftsMax ≤ 14 ∧
    ∃ s, (admittedMachine 2 twoLanes 64).run (.initial 2 14 fun _ _ => [])
        ((bothShort ++ [.evict 1 true, .allocate 1]) ++ [.evict 0 true, .allocate 0]) = some s ∧
      (s.lane 0).pc = .forward ∧ (s.lane 1).pc = .forward ∧ PagesEnsured twoLanes 64 s := by
  refine ⟨by decide, ?_⟩
  have hlanes : ∀ l : Fin 2, l = 0 ∨ l = 1 := by decide
  have hpcs : ((admittedMachine 2 twoLanes 64).run (.initial 2 14 fun _ _ => [])
      ((bothShort ++ [.evict 1 true, .allocate 1]) ++ [.evict 0 true, .allocate 0])).map
        (fun s => ((s.lane 0).pc, (s.lane 1).pc)) = some (.forward, .forward) := by
    decide +kernel
  obtain ⟨s, hrun, hs⟩ := Option.map_eq_some_iff.mp hpcs
  obtain ⟨hzero, hone⟩ := Prod.mk.inj hs
  -- both lanes wait, and entry 1 stays when the second lane takes entry 0
  have hwaiting : ((admittedMachine 2 twoLanes 64).run (.initial 2 14 fun _ _ => [])
      bothShort).map (fun s => ((s.lane 0).pc, (s.lane 1).pc,
        decide (1 ∈ s.cache.entries ∧ (s.cache.entry 1).tiered = false), s.cache.victim)) =
          some (.prefillEvict, .prefillEvict, true, some 0) := by
    decide +kernel
  obtain ⟨mid, hmid, hfirst⟩ := Option.map_eq_some_iff.mp hwaiting
  simp only [Prod.mk.injEq, decide_eq_true_eq] at hfirst
  obtain ⟨hmid0, hmid1, hresident, hvictim⟩ := hfirst
  have hevict : SparesPages twoLanes mid (.evict 1 true) := by
    refine ⟨fun l id hwindow => ?_, fun _ _ _ => ⟨1, hresident, by simp [hvictim]⟩⟩
    rcases hlanes l with rfl | rfl <;> simp [InWindow, hmid0, hmid1] at hwindow
  -- the first lane waits alone
  have halone : ((admittedMachine 2 twoLanes 64).run (.initial 2 14 fun _ _ => [])
      (bothShort ++ [.evict 1 true, .allocate 1])).map
        (fun s => ((s.lane 0).pc, (s.lane 1).pc)) = some (.prefillEvict, .forward) := by
    decide +kernel
  obtain ⟨late, hlate, hsecond⟩ := Option.map_eq_some_iff.mp halone
  obtain ⟨hlate0, hlate1⟩ := Prod.mk.inj hsecond
  have hevict' : SparesPages twoLanes late (.evict 0 true) := by
    refine ⟨fun l id hwindow => ?_, fun l hother hwaits => ?_⟩
    · rcases hlanes l with rfl | rfl <;> simp [InWindow, hlate0, hlate1] at hwindow
    · obtain rfl := (hlanes l).resolve_left hother
      simp [Lane.waits, hlate1] at hwaits
  have hquiet : (admittedMachine 2 twoLanes 64).Meets (SparesPages twoLanes)
      (.initial 2 14 fun _ _ => []) bothShort :=
    Machine.meets_of_mem _ (fun event hevent _ => sparesPages_of_not_movesEntry
      ((by decide : ∀ event ∈ bothShort, event.movesEntry = false) event hevent)) _
  refine ⟨s, hrun, hzero, hone, ensureBlocks_never_fails (by decide) ?_ hrun⟩
  refine Machine.meets_append (Machine.meets_append hquiet hmid ?_) hlate ?_
  · exact ⟨hevict, fun _ _ => ⟨trivial, fun _ _ => trivial⟩⟩
  · exact ⟨hevict', fun _ _ => ⟨trivial, fun _ _ => trivial⟩⟩

/-- Chunks of 96 tokens, no drafts and no host tier. -/
def chunked : BackendConfig where
  cache := ⟨1000, 0, 32, fun hash tokens => (hash.1 + tokens.sum.toNat, hash.2 + 1), 10⟩
  grid := ⟨96, 0, true⟩
  draftsMax := 0

/-- A prompt of 195 tokens leaves 12 pages in the cache; then both lanes run other prompts
up to allocations that find too few pages. -/
def bothWait : List (Event 2) :=
  [.start 0 (List.replicate 195 7), .lookup 0, .dropHit 0, .allocate 0, .forward 0, .allocate 0,
    .forward 0, .snapshot 0 true, .insert 0 10, .finish 0, .unmap 0,
    .start 0 (List.replicate 195 8), .lookup 0, .dropHit 0, .allocate 0, .forward 0,
    .start 1 (List.replicate 195 9), .lookup 1, .dropHit 1, .allocate 1, .forward 1,
    .allocate 0, .allocate 1]

/-- The second lane evicts the only entry; the first finds nothing to evict and gives up,
with 16 pages free where it wants 6 more. -/
theorem ensureBlocks_fails_bothWait :
    2 * perLaneBlocks 200 chunked.draftsMax ≤ 30 ∧
    ∃ s, (admittedMachine 2 chunked 200).run (.initial 2 30 fun _ _ => [])
        (bothWait ++ [.evict 1 false, .evict 0 false]) = some s ∧
      (s.lane 0).pc = .release ∧ s.cache.pool.free.length = 16 ∧
      ¬ PagesEnsured chunked 200 s := by
  refine ⟨by decide, ?_⟩
  have hout : ((admittedMachine 2 chunked 200).run (.initial 2 30 fun _ _ => [])
      (bothWait ++ [.evict 1 false, .evict 0 false])).map
        (fun s => ((s.lane 0).pc, s.cache.pool.free.length)) = some (.release, 16) := by
    decide +kernel
  obtain ⟨s, hrun, hs⟩ := Option.map_eq_some_iff.mp hout
  obtain ⟨hpc, hfree⟩ := Prod.mk.inj hs
  exact ⟨s, hrun, hpc, hfree, fun hensured => hensured.never_false 0 hpc⟩

end Arcint.Cache
