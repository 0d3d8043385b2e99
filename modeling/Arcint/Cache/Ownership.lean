import Arcint.Cache.Lanes

/-! # Who holds a KV page

In every run in which `evict_oldest` spares the entries that a lane is about to map,
the references of a page are its holders, forwards write private pages only, and a
request that continues from a hit has the pages of its prefix. The invariant says of
each lane, by its place in the code, what its table holds and which of its pages
nobody else has.
-/

namespace Arcint.Cache

open Arcint.Core Foundation

theorem kvBlockTokens_pos : 0 < kvBlockTokens := by decide

/-! ## The invariant of one lane -/

/-- The lane is past its hit and not yet at its end. -/
def Pc.runs : Pc → Bool
  | .prefill | .prefillEvict | .forward | .snapshot | .insert | .decode | .decodeEvict
  | .decodeForward => true
  | _ => false

/-- The pages a lane may still write: those of a promotion before its copies, and
those of its table from the one that holds the next position on. -/
def Lane.writable (lane : Lane) : List Nat :=
  if lane.pc = .hostCopy then lane.pending
  else if lane.pc.runs = true then lane.blocks.drop (lane.past / kvBlockTokens)
  else []

/-- Nothing is mapped yet, or nothing any more. -/
structure Lane.Unmapped (lane : Lane) : Prop where
  blocks : lane.blocks = []
  context : lane.context = []

/-- What a lane's place in the code says of its fields. `hit` is the hit it works
on. -/
def Lane.AtPc (cache : PrefixCache) (kv : Nat → Page) (lane : Lane) : Prop :=
  match lane.pc with
  | .idle | .lookup | .unmap => lane.Unmapped ∧ lane.pending = [] ∧ lane.hit = none
  | .promote | .promoteEvict | .check | .unkeep | .cold => lane.Unmapped ∧ lane.pending = []
  | .hostCopy => lane.Unmapped ∧ lane.pending.Nodup ∧ ∃ hit, lane.hit = some hit ∧
      lane.pending.length = hit.matched / kvBlockTokens
  | .record => lane.Unmapped ∧ ∃ hit, lane.hit = some hit ∧
      HoldsPrefix (lane.pending.map kv) (lane.prompt.take hit.matched)
  | .giveBack => lane.Unmapped
  | .ref => lane.Unmapped ∧ lane.pending = [] ∧ ∃ hit, lane.hit = some hit ∧
      hit.matched % kvBlockTokens = 0 ∧
      (cache.entry hit.entry).blocks.length = hit.matched / kvBlockTokens
  | .copy => lane.Unmapped ∧ ∃ hit, lane.hit = some hit ∧ hit.matched % kvBlockTokens = 0 ∧
      (cache.entry hit.entry).blocks = lane.pending ∧
      lane.pending.length = hit.matched / kvBlockTokens
  | .restore => lane.context = [] ∧ lane.pending = [] ∧ ∃ hit, lane.hit = some hit ∧
      lane.blocks.length = hit.matched / kvBlockTokens ∧
      Reads (lane.blocks.map kv) (lane.prompt.take hit.matched) hit.matched
  | .warm => lane.pending = [] ∧ ∃ hit, lane.hit = some hit ∧
      lane.blocks.length = hit.matched / kvBlockTokens ∧
      lane.context = lane.prompt.take hit.matched
  | .prefill | .prefillEvict | .forward | .snapshot =>
      lane.pending = [] ∧ lane.hit = none ∧ lane.context = lane.prompt.take lane.past
  | .insert => lane.pending = lane.blocks.take (lane.past / kvBlockTokens) ∧ lane.hit = none ∧
      lane.context = lane.prompt.take lane.past
  | .decode | .decodeEvict | .decodeForward | .release => lane.pending = [] ∧ lane.hit = none

structure Lane.Sound (cache : PrefixCache) (kv : Nat → Page) (lane : Lane) : Prop where
  writable : ∀ page ∈ lane.writable, cache.pool.refs page = 1
  reads : Reads (lane.blocks.map kv) lane.context lane.past
  hit : ∀ hit, lane.hit = some hit → hit.entry < cache.created ∧ 0 < hit.matched ∧
    hit.matched < lane.prompt.length ∧
    (cache.entry hit.entry).tokens = lane.prompt.take hit.matched
  keep : ∀ id, lane.hitKeep = some id → id < cache.created
  atPc : lane.AtPc cache kv

theorem writable_subset (lane : Lane) : lane.writable ⊆ lane.held := by
  intro page hpage
  unfold Lane.writable at hpage
  unfold Lane.held
  split at hpage
  next => exact List.mem_append_right _ hpage
  next =>
    split at hpage
    next => exact List.mem_append_left _ (List.mem_of_mem_drop hpage)
    next => cases hpage

/-- Away from the host copies and the forwards there is nothing to write. -/
theorem writable_nil {lane : Lane} (hcopy : lane.pc ≠ .hostCopy) (hruns : lane.pc.runs = false) :
    lane.writable = [] := by
  rw [Lane.writable, if_neg hcopy, hruns]
  rfl

theorem writable_runs {lane : Lane} (hruns : lane.pc.runs = true) :
    lane.writable = lane.blocks.drop (lane.past / kvBlockTokens) := by
  have hcopy : lane.pc ≠ .hostCopy := by
    intro heq
    rw [heq] at hruns
    cases hruns
  rw [Lane.writable, if_neg hcopy, if_pos hruns]

/-- The pages from the current one on are the lane's own. -/
theorem mem_writable {lane : Lane} (hruns : lane.pc.runs = true) {i page : Nat}
    (hi : lane.past / kvBlockTokens ≤ i) (hpage : lane.blocks[i]? = some page) :
    page ∈ lane.writable := by
  rw [writable_runs hruns]
  apply List.mem_iff_getElem?.mpr
  refine ⟨i - lane.past / kvBlockTokens, ?_⟩
  rw [List.getElem?_drop, Nat.add_sub_cancel' hi]
  exact hpage

theorem written_writable {lane : Lane} (hruns : lane.pc.runs = true) {m page : Nat}
    (hpage : page ∈ writtenPages lane.blocks lane.past m) : page ∈ lane.writable := by
  obtain ⟨i, hi, hsome⟩ := List.mem_filterMap.mp hpage
  exact mem_writable hruns (Nat.div_le_div_right (List.mem_range'_1.mp hi).1) hsome

theorem map_congr_held {kv kv' : Nat → Page} {lane : Lane}
    (hkv : ∀ page ∈ lane.held, kv' page = kv page) :
    lane.blocks.map kv' = lane.blocks.map kv ∧ lane.pending.map kv' = lane.pending.map kv :=
  ⟨List.map_congr_left fun page hpage => hkv page (List.mem_append_left _ hpage),
    List.map_congr_left fun page hpage => hkv page (List.mem_append_right _ hpage)⟩

/-- What a step of another lane must leave alone. -/
theorem Lane.Sound.frame {cache cache' : PrefixCache} {kv kv' : Nat → Page} {lane : Lane}
    (h : lane.Sound cache kv)
    (hwritable : ∀ page ∈ lane.writable, cache'.pool.refs page = 1)
    (hkv : ∀ page ∈ lane.held, kv' page = kv page)
    (hcreated : cache.created ≤ cache'.created)
    (htokens : ∀ id < cache.created, (cache'.entry id).tokens = (cache.entry id).tokens)
    (hwindow : ∀ id, InWindow lane id → (cache'.entry id).blocks = (cache.entry id).blocks) :
    lane.Sound cache' kv' := by
  obtain ⟨hblocks, hpending⟩ := map_congr_held hkv
  refine ⟨hwritable, ?_, ?_, ?_, ?_⟩
  · rw [hblocks]
    exact h.reads
  · intro hit hhit
    obtain ⟨hentry, hpos, hlt, heq⟩ := h.hit hit hhit
    exact ⟨Nat.lt_of_lt_of_le hentry hcreated, hpos, hlt, (htokens _ hentry).trans heq⟩
  · intro id hid
    exact Nat.lt_of_lt_of_le (h.keep id hid) hcreated
  · have hpc := h.atPc
    unfold Lane.AtPc at hpc ⊢
    cases hcase : lane.pc
    all_goals simp only [hcase] at hpc ⊢
    case record =>
      rw [hpending]
      exact hpc
    case restore =>
      rw [hblocks]
      exact hpc
    case ref =>
      obtain ⟨hun, hnone, hit, hhit, hdvd, hlength⟩ := hpc
      refine ⟨hun, hnone, hit, hhit, hdvd, ?_⟩
      rw [hwindow hit.entry ⟨.inl hcase, by rw [hhit]; rfl⟩]
      exact hlength
    case copy =>
      obtain ⟨hun, hit, hhit, hdvd, hsame, hlength⟩ := hpc
      refine ⟨hun, hit, hhit, hdvd, ?_, hlength⟩
      rw [hwindow hit.entry ⟨.inr hcase, by rw [hhit]; rfl⟩]
      exact hsame
    all_goals exact hpc

/-! ## The invariant of a state, and one lane's step -/

section Invariant

variable {n : Nat}

/-- How often the lanes other than `l` hold a page. -/
def otherLanes (lane : Fin n → Lane) (l : Fin n) (page : Nat) : Nat :=
  ∑ other ∈ Finset.univ.erase l, (lane other).held.count page

/-- How often the lanes hold a page. -/
def laneCount (lane : Fin n → Lane) (page : Nat) : Nat := ∑ l, (lane l).held.count page

theorem laneCount_eq (lane : Fin n → Lane) (l : Fin n) (page : Nat) :
    laneCount lane page = otherLanes lane l page + (lane l).held.count page := by
  unfold laneCount otherLanes
  rw [← Finset.add_sum_erase _ _ (Finset.mem_univ l), Nat.add_comm]

theorem laneCount_update (lane : Fin n → Lane) (l : Fin n) (v : Lane) (page : Nat) :
    laneCount (Function.update lane l v) page = otherLanes lane l page + v.held.count page := by
  rw [laneCount_eq _ l, Function.update_self]
  congr 1
  apply Finset.sum_congr rfl
  intro other hother
  rw [Function.update_of_ne (Finset.ne_of_mem_erase hother)]

theorem count_le_otherLanes (lane : Fin n → Lane) {l other : Fin n} (hne : other ≠ l)
    (page : Nat) : (lane other).held.count page ≤ otherLanes lane l page :=
  Finset.single_le_sum (f := fun m => (lane m).held.count page) (fun _ _ => Nat.zero_le _)
    (Finset.mem_erase.mpr ⟨hne, Finset.mem_univ other⟩)

structure Inv (s : State n) : Prop where
  cache : s.cache.Sound s.kv (laneCount s.lane)
  lanes : ∀ l, (s.lane l).Sound s.cache s.kv

/-- The cache as lane `l` finds it: its own holdings apart from the others'. -/
theorem Inv.found {s : State n} (h : Inv s) (l : Fin n) :
    s.cache.Sound s.kv fun page => otherLanes s.lane l page + (s.lane l).held.count page := by
  have heq : laneCount s.lane =
      fun page => otherLanes s.lane l page + (s.lane l).held.count page := by
    funext page
    exact laneCount_eq s.lane l page
  rw [← heq]
  exact h.cache

/-- A step of lane `l`: it may take over pages that it held, that an entry holds or
that are free, and write pages that only it holds. -/
theorem Inv.act {s : State n} (h : Inv s) (l : Fin n) (pinned : Nat → Prop) (given : List Nat)
    {cache : PrefixCache} {kv : Nat → Page} {lane : Lane}
    (hcache : cache.Sound kv fun page => otherLanes s.lane l page + lane.held.count page)
    (hevolves : s.cache.Evolves pinned given cache)
    (hgiven : given ⊆ (s.lane l).held)
    (hpinned : ∀ other, other ≠ l → ∀ id, InWindow (s.lane other) id → pinned id)
    (hheld : ∀ page ∈ lane.held, page ∈ (s.lane l).held ∨ s.cache.entryCount page ≠ 0 ∨
      s.cache.pool.refs page = 0)
    (hkv : ∀ page, kv page ≠ s.kv page →
      page ∈ (s.lane l).held ∧ s.cache.pool.refs page = 1)
    (hlane : lane.Sound cache kv) :
    Inv ⟨cache, kv, Function.update s.lane l lane⟩ := by
  have hcounts := (h.found l).counts
  refine ⟨?_, ?_⟩
  · have heq : laneCount (Function.update s.lane l lane) =
        fun page => otherLanes s.lane l page + lane.held.count page := by
      funext page
      exact laneCount_update s.lane l lane page
    rw [heq]
    exact hcache
  · intro other
    dsimp only
    by_cases hother : other = l
    · rw [hother, Function.update_self]
      exact hlane
    · rw [Function.update_of_ne hother]
      have hsound := h.lanes other
      apply hsound.frame
      · -- a page only the other lane has is not among what moved
        intro page hpage
        have hone := hsound.writable page hpage
        have hown : 0 < (s.lane other).held.count page :=
          List.count_pos_iff.mpr (writable_subset _ hpage)
        have hle := count_le_otherLanes s.lane hother page
        have hbefore := hcounts page
        have hnotheld : (s.lane l).held.count page = 0 := by omega
        have hnotentry : s.cache.entryCount page = 0 := by omega
        have hnew : lane.held.count page = 0 := by
          apply List.count_eq_zero_of_not_mem
          intro hmem
          rcases hheld page hmem with hold | hentry | hfree
          · have := List.count_pos_iff.mpr hold
            omega
          · exact hentry hnotentry
          · omega
        have hgains : cache.entryCount page = 0 := by
          apply hevolves.gains page _ hnotentry
          intro hmem
          have := List.count_pos_iff.mpr (hgiven hmem)
          omega
        have hafter := hcache.counts page
        omega
      · intro page hpage
        by_contra hne
        obtain ⟨hmem, hone⟩ := hkv page hne
        have hown := List.count_pos_iff.mpr hmem
        have hpos := List.count_pos_iff.mpr hpage
        have hle := count_le_otherLanes s.lane hother page
        have hbefore := hcounts page
        omega
      · exact hevolves.created
      · exact hevolves.tokens
      · intro id hwindow
        apply hevolves.pinned id _ (hpinned other hother id hwindow)
        obtain ⟨hit, hhit, rfl⟩ := Option.map_eq_some_iff.mp hwindow.2
        exact (hsound.hit hit hhit).1

/-- A step of the cache that leaves the lane's pages to it. -/
theorem Inv.keeps {s : State n} (h : Inv s) (l : Fin n) {pinned : Nat → Prop}
    {cache : PrefixCache} {lane : Lane}
    (hkeeps : PrefixCache.Keeps s.kv
      (fun page => otherLanes s.lane l page + (s.lane l).held.count page) pinned s.cache cache)
    (hpinned : ∀ other, other ≠ l → ∀ id, InWindow (s.lane other) id → pinned id)
    (hheld : lane.held = (s.lane l).held) (hlane : lane.Sound cache s.kv) :
    Inv ⟨cache, s.kv, Function.update s.lane l lane⟩ := by
  refine h.act l pinned [] ?_ hkeeps.2 (List.nil_subset _) hpinned ?_ ?_ hlane
  · rw [hheld]
    exact hkeeps.1
  · intro page hpage
    rw [hheld] at hpage
    exact .inl hpage
  · intro page hne
    exact absurd rfl hne

/-- A step of the pool: the lane's holdings move by what the references do. -/
theorem Inv.pool {s : State n} (h : Inv s) (l : Fin n) {pool : BlockPool} {lane : Lane}
    (hpool : pool.Sound)
    (hrefs : ∀ page, pool.refs page + (s.lane l).held.count page =
      s.cache.pool.refs page + lane.held.count page)
    (hheld : ∀ page ∈ lane.held, page ∈ (s.lane l).held ∨ s.cache.entryCount page ≠ 0 ∨
      s.cache.pool.refs page = 0)
    (hlane : lane.Sound { s.cache with pool := pool } s.kv) :
    Inv ⟨{ s.cache with pool := pool }, s.kv, Function.update s.lane l lane⟩ := by
  refine h.act l (fun _ => True) [] ?_ (PrefixCache.evolves_withPool _ _ _ _)
    (List.nil_subset _) (fun _ _ _ _ => trivial) hheld (fun page hne => absurd rfl hne) hlane
  apply (h.found l).withPool hpool
  intro page
  have hbefore := (h.found l).counts page
  have hmoved := hrefs page
  omega

/-- A step that touches neither cache nor pages. -/
theorem Inv.local {s : State n} (h : Inv s) (l : Fin n) {lane : Lane}
    (hheld : lane.held = (s.lane l).held) (hlane : lane.Sound s.cache s.kv) :
    Inv (s.setLane l lane) := by
  exact h.keeps l ⟨h.found l, .refl (fun _ => True) _ _⟩ (fun _ _ _ _ => trivial) hheld hlane

end Invariant

/-! ## Before a table is mapped -/

theorem reads_zero (pages : List Page) (tokens : List Token) : Reads pages tokens 0 :=
  fun i hi => absurd hi (Nat.not_lt_zero i)

/-- A lane without a table, at a place where it writes nothing. -/
theorem Lane.Unmapped.sound {cache : PrefixCache} {kv : Nat → Page} {lane : Lane}
    (hunmapped : lane.Unmapped) (hcopy : lane.pc ≠ .hostCopy) (hruns : lane.pc.runs = false)
    (hhit : ∀ hit, lane.hit = some hit → hit.entry < cache.created ∧ 0 < hit.matched ∧
      hit.matched < lane.prompt.length ∧
      (cache.entry hit.entry).tokens = lane.prompt.take hit.matched)
    (hkeep : ∀ id, lane.hitKeep = some id → id < cache.created) (hpc : lane.AtPc cache kv) :
    lane.Sound cache kv where
  writable page hpage := by
    rw [writable_nil hcopy hruns] at hpage
    cases hpage
  reads := by
    rw [Lane.past, hunmapped.context]
    exact reads_zero _ _
  hit := hhit
  keep := hkeep
  atPc := hpc

section Steps

variable {n : Nat} {s next : State n} {l : Fin n}

theorem start_inv (h : Inv s) {prompt : List Token} (hstep : s.start l prompt = some next) :
    Inv next := by
  unfold State.start at hstep
  split at hstep
  next hguard =>
    cases hstep
    have hpc := (h.lanes l).atPc
    simp only [Lane.AtPc, hguard.1] at hpc
    obtain ⟨hunmapped, hpending, hhit⟩ := hpc
    apply h.local l
    · simp [Lane.held, hunmapped.blocks]
    · apply Lane.Unmapped.sound ⟨rfl, rfl⟩ (by simp) rfl
      · intro hit hsome
        rw [hhit] at hsome
        cases hsome
      · exact (h.lanes l).keep
      · exact ⟨⟨rfl, rfl⟩, hpending, hhit⟩
  next => cases hstep

/-- The lane's hit survives what an operation does to the cache. -/
theorem hit_evolves {cache after : PrefixCache} {kv : Nat → Page} {lane : Lane}
    {pinned : Nat → Prop} {given : List Nat} (h : lane.Sound cache kv)
    (hevolves : cache.Evolves pinned given after) :
    (∀ hit, lane.hit = some hit → hit.entry < after.created ∧ 0 < hit.matched ∧
      hit.matched < lane.prompt.length ∧
      (after.entry hit.entry).tokens = lane.prompt.take hit.matched) ∧
      ∀ id, lane.hitKeep = some id → id < after.created := by
  refine ⟨?_, ?_⟩
  · intro hit hhit
    obtain ⟨hentry, hpos, hlt, heq⟩ := h.hit hit hhit
    exact ⟨Nat.lt_of_lt_of_le hentry hevolves.created, hpos, hlt,
      (hevolves.tokens _ hentry).trans heq⟩
  · intro id hid
    exact Nat.lt_of_lt_of_le (h.keep id hid) hevolves.created

theorem lookup_inv (config : BackendConfig) (h : Inv s)
    (hstep : s.lookup config l = some next) : Inv next := by
  unfold State.lookup at hstep
  dsimp only at hstep
  split at hstep
  next hlookup =>
    have hpc := (h.lanes l).atPc
    simp only [Lane.AtPc, hlookup] at hpc
    obtain ⟨hunmapped, hpending, _⟩ := hpc
    obtain ⟨hsound, hevolves⟩ :=
      PrefixCache.lookup_keeps config.cache (s.lane l).prompt (h.found l)
    obtain ⟨hhit, hkeep⟩ := hit_evolves (h.lanes l) hevolves
    split at hstep
    next cache heq =>
      cases hstep
      rw [heq] at hsound hevolves hkeep
      refine h.keeps l ⟨hsound, hevolves⟩ (fun _ _ _ _ => trivial) rfl ?_
      refine Lane.Unmapped.sound ⟨hunmapped.blocks, hunmapped.context⟩ (by simp) rfl ?_ hkeep
        ⟨⟨hunmapped.blocks, hunmapped.context⟩, hpending⟩
      intro hit hsome
      cases hsome
    next cache hit heq =>
      cases hstep
      rw [heq] at hsound hevolves hkeep
      refine h.keeps l ⟨hsound, hevolves⟩ (fun _ _ _ _ => trivial) rfl ?_
      obtain ⟨hlisted, hpos, hlt, htokens⟩ := PrefixCache.lookup_some heq
      have hcreated := h.cache.listed _ hlisted
      have hfound : ∀ other, some hit = some other → other.entry < cache.created ∧
          0 < other.matched ∧ other.matched < (s.lane l).prompt.length ∧
          (cache.entry other.entry).tokens = (s.lane l).prompt.take other.matched := by
        intro other hother
        cases hother
        exact ⟨Nat.lt_of_lt_of_le hcreated hevolves.created, hpos, hlt,
          (hevolves.tokens _ hcreated).trans htokens⟩
      split
      next =>
        exact Lane.Unmapped.sound ⟨hunmapped.blocks, hunmapped.context⟩ (by simp) rfl hfound hkeep
          ⟨⟨hunmapped.blocks, hunmapped.context⟩, hpending⟩
      next =>
        exact Lane.Unmapped.sound ⟨hunmapped.blocks, hunmapped.context⟩ (by simp) rfl hfound hkeep
          ⟨⟨hunmapped.blocks, hunmapped.context⟩, hpending⟩
  next => cases hstep

/-- The references of a lane's own pages. -/
theorem held_count_le (h : Inv s) (l : Fin n) (page : Nat) :
    (s.lane l).held.count page ≤ s.cache.pool.refs page := by
  have hcounts := (h.found l).counts page
  omega

theorem held_ne_zero (h : Inv s) {l : Fin n} {page : Nat} (hpage : page ∈ (s.lane l).held) :
    s.cache.pool.refs page ≠ 0 := by
  have hle := held_count_le h l page
  have hpos := List.count_pos_iff.mpr hpage
  omega

theorem promoteAllocate_inv (h : Inv s) {hit : Hit} (hpc : (s.lane l).pc = .promote)
    (hhit : (s.lane l).hit = some hit) {pages : List Nat} {pool : BlockPool}
    (hallocate : s.cache.pool.allocate (State.needed hit) = some (pages, pool)) :
    Inv ⟨{ s.cache with pool := pool }, s.kv,
      Function.update s.lane l { s.lane l with pending := pages, pc := .hostCopy }⟩ := by
  have hat := (h.lanes l).atPc
  simp only [Lane.AtPc, hpc] at hat
  obtain ⟨hunmapped, hpending⟩ := hat
  have hfresh := BlockPool.allocate_some h.cache.pool hallocate
  have hnone : (s.lane l).held = [] := by
    rw [Lane.held, hunmapped.blocks, hpending]
    rfl
  have hheld : Lane.held { s.lane l with pending := pages, pc := .hostCopy } = pages := by
    rw [Lane.held, hunmapped.blocks]
    rfl
  refine h.pool l hfresh.sound ?_ ?_ ?_
  · intro page
    rw [hheld, hnone]
    exact hfresh.refs page
  · intro page hpage
    rw [hheld] at hpage
    exact .inr (.inr (hfresh.fresh page hpage))
  · refine ⟨?_, ?_, (h.lanes l).hit, (h.lanes l).keep, ?_⟩
    · intro page hpage
      have hmem : page ∈ pages := hpage
      change pool.refs page = 1
      rw [hfresh.refs page, hfresh.fresh page hmem, List.count_eq_one_of_mem hfresh.nodup hmem]
    · rw [Lane.past, hunmapped.context]
      exact reads_zero _ _
    · exact ⟨⟨hunmapped.blocks, hunmapped.context⟩, hfresh.nodup, hit, hhit, hfresh.length⟩

theorem reads_append {pages : List Page} {tokens : List Token} {m : Nat}
    (h : Reads pages tokens m) (more : List Page) : Reads (pages ++ more) tokens m := by
  intro i hi
  obtain ⟨page, hpage, hcell⟩ := h i hi
  refine ⟨page, ?_, hcell⟩
  rw [List.getElem?_append_left (List.getElem?_eq_some_iff.mp hpage).1]
  exact hpage

/-- The places around `ensure_blocks`, and what a lane knows at them. -/
theorem ensureBlocks_inv (h : Inv s) {tokens : Nat} {covered evict : Pc}
    (hruns : (s.lane l).pc.runs = true) (hcovered : covered.runs = true)
    (hevict : evict.runs = true)
    (hatCovered : ∀ (cache : PrefixCache) (blocks : List Nat),
      Lane.AtPc cache s.kv { s.lane l with blocks := blocks, pc := covered })
    (hatEvict : Lane.AtPc s.cache s.kv { s.lane l with pc := evict })
    (hpending : (s.lane l).pending = []) :
    Inv (s.ensureBlocks l tokens covered evict) := by
  have hlane := h.lanes l
  have hwritable := hlane.writable
  rw [writable_runs hruns] at hwritable
  have hlocal : ∀ pc : Pc, pc.runs = true → Lane.AtPc s.cache s.kv { s.lane l with pc := pc } →
      Inv (s.setLane l { s.lane l with pc := pc }) := by
    intro pc hpc hat
    refine h.local l rfl ⟨?_, hlane.reads, hlane.hit, hlane.keep, hat⟩
    rw [writable_runs hpc]
    exact hwritable
  unfold State.ensureBlocks
  dsimp only
  split
  next => exact hlocal covered hcovered (hatCovered s.cache (s.lane l).blocks)
  next =>
    split
    next => exact hlocal evict hevict hatEvict
    next fresh pool hallocate =>
      have hfresh := BlockPool.allocate_some h.cache.pool hallocate
      have hheld : Lane.held { s.lane l with
          blocks := (s.lane l).blocks ++ fresh, pc := covered } =
            (s.lane l).blocks ++ fresh := by
        simp [Lane.held, hpending]
      have hown : (s.lane l).held = (s.lane l).blocks := by
        simp [Lane.held, hpending]
      refine h.pool l hfresh.sound ?_ ?_ ⟨?_, ?_, hlane.hit, hlane.keep, hatCovered _ _⟩
      · intro page
        rw [hheld, hown, hfresh.refs page, List.count_append]
        omega
      · intro page hpage
        rw [hheld] at hpage
        rcases List.mem_append.mp hpage with hold | hnew
        · rw [hown]
          exact .inl hold
        · exact .inr (.inr (hfresh.fresh page hnew))
      · intro page hpage
        rw [writable_runs hcovered] at hpage
        change pool.refs page = 1
        rw [hfresh.refs page]
        -- an old page of the table is not handed out again
        by_cases hnew : page ∈ fresh
        · rw [hfresh.fresh page hnew, List.count_eq_one_of_mem hfresh.nodup hnew]
        · rw [List.count_eq_zero_of_not_mem hnew, Nat.add_zero]
          apply hwritable page
          have hmem : page ∈ ((s.lane l).blocks ++ fresh).drop ((s.lane l).past / kvBlockTokens) :=
            hpage
          rw [List.drop_append] at hmem
          rcases List.mem_append.mp hmem with hold | hold
          · exact hold
          · exact absurd (List.mem_of_mem_drop hold) hnew
      · change Reads (((s.lane l).blocks ++ fresh).map s.kv) (s.lane l).context (s.lane l).past
        rw [List.map_append]
        exact reads_append hlane.reads _

theorem allocate_inv (config : BackendConfig) (h : Inv s)
    (hstep : s.allocate config l = some next) : Inv next := by
  have hlane := h.lanes l
  have hat := hlane.atPc
  unfold State.allocate at hstep
  dsimp only at hstep
  split at hstep
  next hit hpc hhit =>
    simp only [Lane.AtPc, hpc] at hat
    obtain ⟨hunmapped, hpending⟩ := hat
    split at hstep
    next =>
      cases hstep
      refine h.local l rfl (Lane.Unmapped.sound ⟨hunmapped.blocks, hunmapped.context⟩ (by simp)
        rfl hlane.hit hlane.keep ⟨⟨hunmapped.blocks, hunmapped.context⟩, hpending⟩)
    next pages pool hallocate =>
      cases hstep
      exact promoteAllocate_inv h hpc hhit hallocate
  next hpc =>
    cases hstep
    simp only [Lane.AtPc, hpc] at hat
    exact ensureBlocks_inv h (by rw [hpc]; rfl) rfl rfl (fun _ _ => hat) hat hat.1
  next hpc =>
    cases hstep
    simp only [Lane.AtPc, hpc] at hat
    exact ensureBlocks_inv h (by rw [hpc]; rfl) rfl rfl (fun _ _ => hat) hat hat.1
  next => cases hstep

/-- A lane in its window keeps the entry alive. -/
theorem held_of_window {lane : Fin n → Lane} {other : Fin n} {id : Nat}
    (hwindow : InWindow (lane other) id) : State.held lane id = true := by
  obtain ⟨hit, hhit, rfl⟩ := Option.map_eq_some_iff.mp hwindow.2
  apply List.any_eq_true.mpr
  refine ⟨other, List.mem_finRange other, ?_⟩
  simp [Lane.keeps, hhit]

/-- The pages a running lane may write stay its own through an operation of the
cache. -/
theorem writable_keeps (h : Inv s) {pinned : Nat → Prop} {cache : PrefixCache}
    (hkeeps : PrefixCache.Keeps s.kv
      (fun page => otherLanes s.lane l page + (s.lane l).held.count page) pinned s.cache cache) :
    ∀ page ∈ (s.lane l).writable, cache.pool.refs page = 1 := by
  intro page hpage
  apply (h.found l).stays_private hkeeps.1 hkeeps.2 ((h.lanes l).writable page hpage) _
    List.not_mem_nil rfl
  have hpos := List.count_pos_iff.mpr (writable_subset _ hpage)
  omega

theorem evict_inv (config : BackendConfig) (h : Inv s) {copied : Bool}
    (hspares : SparesWindows config s (.evict l copied))
    (hstep : s.evict config l copied = some next) : Inv next := by
  unfold State.evict at hstep
  dsimp only at hstep
  obtain ⟨pc, hafter, rfl⟩ := Option.map_eq_some_iff.mp hstep
  have hlane := h.lanes l
  have hat := hlane.atPc
  have hkeeps := PrefixCache.evictOldest_keeps config.cache (State.held s.lane) copied (h.found l)
  have hwritable := writable_keeps h hkeeps
  obtain ⟨hhit, hkeep⟩ := hit_evolves hlane hkeeps.2
  refine h.keeps l hkeeps ?_ rfl ?_
  · intro other _ id hwindow
    exact ⟨held_of_window hwindow, hspares other id hwindow⟩
  · unfold State.afterEvict at hafter
    split at hafter
    -- the promotion tries again, or is given up
    next hpc _ =>
      cases hafter
      simp only [Lane.AtPc, hpc] at hat
      exact Lane.Unmapped.sound ⟨hat.1.blocks, hat.1.context⟩ (by simp) rfl hhit hkeep
        ⟨⟨hat.1.blocks, hat.1.context⟩, hat.2⟩
    next hpc _ =>
      cases hafter
      simp only [Lane.AtPc, hpc] at hat
      exact Lane.Unmapped.sound ⟨hat.1.blocks, hat.1.context⟩ (by simp) rfl hhit hkeep
        ⟨⟨hat.1.blocks, hat.1.context⟩, hat.2⟩
    -- the next try of `ensure_blocks`
    next hpc _ =>
      cases hafter
      simp only [Lane.AtPc, hpc] at hat
      rw [writable_runs (by rw [hpc]; rfl)] at hwritable
      exact ⟨hwritable, hlane.reads, hhit, hkeep, hat⟩
    next hpc _ =>
      cases hafter
      simp only [Lane.AtPc, hpc] at hat
      rw [writable_runs (by rw [hpc]; rfl)] at hwritable
      exact ⟨hwritable, hlane.reads, hhit, hkeep, hat⟩
    -- the pool is exhausted
    next hpc _ =>
      cases hafter
      simp only [Lane.AtPc, hpc] at hat
      exact ⟨fun page hpage => (by cases hpage), hlane.reads, hhit, hkeep, hat.1, hat.2.1⟩
    next hpc _ =>
      cases hafter
      simp only [Lane.AtPc, hpc] at hat
      exact ⟨fun page hpage => (by cases hpage), hlane.reads, hhit, hkeep, hat⟩
    next => cases hafter

/-- A step that writes pages only the lane holds. -/
theorem Inv.write (h : Inv s) (l : Fin n) {kv : Nat → Page} {lane : Lane}
    (hheld : lane.held = (s.lane l).held)
    (hkv : ∀ page ∉ (s.lane l).writable, kv page = s.kv page)
    (hlane : lane.Sound s.cache kv) :
    Inv ⟨s.cache, kv, Function.update s.lane l lane⟩ := by
  have hprivate : ∀ page, kv page ≠ s.kv page →
      page ∈ (s.lane l).held ∧ s.cache.pool.refs page = 1 := by
    intro page hne
    have hmem : page ∈ (s.lane l).writable := by
      by_contra hout
      exact hne (hkv page hout)
    exact ⟨writable_subset _ hmem, (h.lanes l).writable page hmem⟩
  refine h.act l (fun _ => True) [] ?_ (.refl _ _ _) (List.nil_subset _) (fun _ _ _ _ => trivial)
    ?_ hprivate hlane
  · rw [hheld]
    apply (h.found l).rewrite
    intro page hentry
    by_contra hne
    obtain ⟨hmem, hone⟩ := hprivate page hne
    have hcounts := (h.found l).counts page
    have hpos := List.count_pos_iff.mpr hmem
    omega
  · intro page hpage
    rw [hheld] at hpage
    exact .inl hpage

/-- The lane's hit, at a place of the code where it has one. -/
theorem hit_eq {lane : Lane} {hit other : Hit} (hhit : lane.hit = some hit)
    (hother : lane.hit = some other) : other = hit :=
  Option.some.inj (hother.symm.trans hhit)

theorem hostCopy_inv (h : Inv s) {copied : Bool} (hstep : s.hostCopy l copied = some next) :
    Inv next := by
  have hlane := h.lanes l
  have hat := hlane.atPc
  unfold State.hostCopy at hstep
  dsimp only at hstep
  split at hstep
  next hit hpc hhit =>
    simp only [Lane.AtPc, hpc] at hat
    obtain ⟨hunmapped, hnodup, other, hother, hlength⟩ := hat
    obtain rfl := hit_eq hhit hother
    have hback : Inv (s.setLane l { s.lane l with pc := .giveBack }) :=
      h.local l rfl (Lane.Unmapped.sound ⟨hunmapped.blocks, hunmapped.context⟩ (by simp) rfl
        hlane.hit hlane.keep ⟨hunmapped.blocks, hunmapped.context⟩)
    split at hstep
    next =>
      cases hstep
      exact hback
    next host hhost =>
      split at hstep
      next hfits =>
        cases hstep
        obtain ⟨hentry, _, _, htokens⟩ := hlane.hit other hhit
        obtain ⟨hcopied, houtside⟩ := copyIn_eq hnodup (hfits.1.trans hlength.symm) s.kv
        have hwritable : (s.lane l).writable = (s.lane l).pending := by
          rw [Lane.writable, if_pos hpc]
        refine h.write l rfl ?_ ?_
        · intro page hpage
          rw [hwritable] at hpage
          exact houtside page hpage
        · refine Lane.Unmapped.sound ⟨hunmapped.blocks, hunmapped.context⟩ (by simp) rfl
            hlane.hit hlane.keep ⟨⟨hunmapped.blocks, hunmapped.context⟩, other, hhit, ?_⟩
          dsimp only
          rw [hcopied, ← htokens]
          exact (h.cache.entries _ hentry).parked host hhost
      next =>
        cases hstep
        exact hback
  next => cases hstep

/-- An entry in another lane's window has pages. -/
theorem window_ne_nil (h : Inv s) {other : Fin n} {id : Nat}
    (hwindow : InWindow (s.lane other) id) : (s.cache.entry id).blocks ≠ [] := by
  obtain ⟨hpc, hentry⟩ := hwindow
  obtain ⟨hit, hhit, rfl⟩ := Option.map_eq_some_iff.mp hentry
  have hat := (h.lanes other).atPc
  obtain ⟨_, hpos, _, _⟩ := (h.lanes other).hit hit hhit
  have hlength : (s.cache.entry hit.entry).blocks.length = hit.matched / kvBlockTokens ∧
      hit.matched % kvBlockTokens = 0 := by
    rcases hpc with hpc | hpc
    · simp only [Lane.AtPc, hpc] at hat
      obtain ⟨_, _, own, hown, hdvd, hlength⟩ := hat
      obtain rfl := hit_eq hhit hown
      exact ⟨hlength, hdvd⟩
    · simp only [Lane.AtPc, hpc] at hat
      obtain ⟨_, own, hown, hdvd, hsame, hlength⟩ := hat
      obtain rfl := hit_eq hhit hown
      rw [hsame]
      exact ⟨hlength, hdvd⟩
  intro hnil
  rw [hnil] at hlength
  unfold kvBlockTokens at hlength
  simp only [List.length_nil] at hlength
  omega

theorem promote_inv (h : Inv s) (hstep : s.promote l = some next) : Inv next := by
  have hlane := h.lanes l
  have hat := hlane.atPc
  unfold State.promote at hstep
  dsimp only at hstep
  split at hstep
  next hit hpc hhit =>
    simp only [Lane.AtPc, hpc] at hat
    obtain ⟨hunmapped, other, hother, hbegins⟩ := hat
    obtain rfl := hit_eq hhit hother
    obtain ⟨hentry, _, _, htokens⟩ := hlane.hit other hhit
    have hheld : (s.lane l).held = (s.lane l).pending := by
      rw [Lane.held, hunmapped.blocks]
      rfl
    split at hstep
    next cache hpromote =>
      cases hstep
      have hempty : Lane.held { s.lane l with pending := [], pc := .check } = [] := by
        rw [Lane.held, hunmapped.blocks]
        rfl
      have hfound := h.found l
      rw [hheld] at hfound
      obtain ⟨hsound, hevolves⟩ := PrefixCache.promote_keeps hfound hentry
        (htokens ▸ hbegins) hpromote
      obtain ⟨hhits, hkeep⟩ := hit_evolves hlane hevolves
      refine h.act l _ _ ?_ hevolves ?_ ?_ ?_ (fun page hne => absurd rfl hne) ?_
      · rw [hempty]
        exact hsound
      · rw [hheld]
        exact List.Subset.refl _
      · intro lane _ id hwindow
        exact window_ne_nil h hwindow
      · rw [hempty]
        exact fun page hpage => absurd hpage List.not_mem_nil
      · exact Lane.Unmapped.sound ⟨hunmapped.blocks, hunmapped.context⟩ (by simp) rfl hhits hkeep
          ⟨⟨hunmapped.blocks, hunmapped.context⟩, rfl⟩
    next =>
      cases hstep
      exact h.local l rfl (Lane.Unmapped.sound ⟨hunmapped.blocks, hunmapped.context⟩ (by simp) rfl
        hlane.hit hlane.keep ⟨hunmapped.blocks, hunmapped.context⟩)
  next => cases hstep

/-- A lane gives pages back that it had a reference for. -/
theorem Inv.release (h : Inv s) (l : Fin n) {blocks : List Nat} {lane : Lane}
    (hheld : ∀ page, (s.lane l).held.count page = blocks.count page + lane.held.count page)
    (hlane : lane.Sound { s.cache with pool := s.cache.pool.release blocks } s.kv) :
    Inv ⟨{ s.cache with pool := s.cache.pool.release blocks }, s.kv,
      Function.update s.lane l lane⟩ := by
  have hle : ∀ page, blocks.count page ≤ s.cache.pool.refs page := by
    intro page
    have hown := held_count_le h l page
    have hsplit := hheld page
    omega
  obtain ⟨hpool, hrefs⟩ := BlockPool.release_refs h.cache.pool hle
  refine h.pool l hpool ?_ ?_ hlane
  · intro page
    have hsplit := hheld page
    have hreleased := hrefs page
    omega
  · intro page hpage
    left
    apply List.count_pos_iff.mp
    have hsplit := hheld page
    have hpos := List.count_pos_iff.mpr hpage
    omega

theorem giveBack_inv (h : Inv s) (hstep : s.giveBack l = some next) : Inv next := by
  have hlane := h.lanes l
  have hat := hlane.atPc
  unfold State.giveBack at hstep
  dsimp only at hstep
  split at hstep
  next hpc =>
    cases hstep
    simp only [Lane.AtPc, hpc] at hat
    refine h.release l ?_ (Lane.Unmapped.sound ⟨hat.blocks, hat.context⟩ (by simp) rfl hlane.hit
      hlane.keep ⟨⟨hat.blocks, hat.context⟩, rfl⟩)
    intro page
    simp [Lane.held, hat.blocks]
  next => cases hstep

theorem check_inv (h : Inv s) (hstep : s.check l = some next) : Inv next := by
  have hlane := h.lanes l
  have hat := hlane.atPc
  unfold State.check at hstep
  dsimp only at hstep
  split at hstep
  next hit hpc hhit =>
    cases hstep
    simp only [Lane.AtPc, hpc] at hat
    obtain ⟨hunmapped, hpending⟩ := hat
    refine h.local l rfl ?_
    split
    next hfits =>
      exact Lane.Unmapped.sound ⟨hunmapped.blocks, hunmapped.context⟩ (by simp) rfl hlane.hit
        hlane.keep ⟨⟨hunmapped.blocks, hunmapped.context⟩, hpending, hit, hhit, hfits⟩
    next =>
      exact Lane.Unmapped.sound ⟨hunmapped.blocks, hunmapped.context⟩ (by simp) rfl hlane.hit
        hlane.keep ⟨⟨hunmapped.blocks, hunmapped.context⟩, hpending⟩
  next => cases hstep

theorem ref_inv (h : Inv s) (hstep : s.ref l = some next) : Inv next := by
  have hlane := h.lanes l
  have hat := hlane.atPc
  unfold State.ref at hstep
  dsimp only at hstep
  split at hstep
  next hit hpc hhit =>
    cases hstep
    simp only [Lane.AtPc, hpc] at hat
    obtain ⟨hunmapped, hpending, other, hother, hdvd, hlength⟩ := hat
    obtain rfl := hit_eq hhit hother
    obtain ⟨hentry, _⟩ := hlane.hit other hhit
    -- the entry holds its pages, so none of them is free
    have hcount : ∀ page ∈ (s.cache.entry other.entry).blocks, s.cache.entryCount page ≠ 0 := by
      intro page hpage
      have hle := s.cache.count_le_entryCount hentry page
      have hpos := List.count_pos_iff.mpr hpage
      omega
    have hreferenced : ∀ page ∈ (s.cache.entry other.entry).blocks,
        s.cache.pool.refs page ≠ 0 := by
      intro page hpage
      have hcounts := (h.found l).counts page
      have hheld := hcount page hpage
      omega
    obtain ⟨hpool, hrefs⟩ := BlockPool.ref_refs h.cache.pool hreferenced
    have hnone : (s.lane l).held = [] := by
      rw [Lane.held, hunmapped.blocks, hpending]
      rfl
    have hheld : Lane.held { s.lane l with
        pending := (s.cache.entry other.entry).blocks, pc := .copy } =
          (s.cache.entry other.entry).blocks := by
      rw [Lane.held, hunmapped.blocks]
      rfl
    refine h.pool l hpool ?_ ?_ (Lane.Unmapped.sound ⟨hunmapped.blocks, hunmapped.context⟩
      (by simp) rfl hlane.hit hlane.keep
      ⟨⟨hunmapped.blocks, hunmapped.context⟩, other, hhit, hdvd, rfl, hlength⟩)
    · intro page
      rw [hheld, hnone]
      exact hrefs page
    · intro page hpage
      rw [hheld] at hpage
      exact .inr (.inl (hcount page hpage))
  next => cases hstep

/-- A prefix of whole pages is read up to its end. -/
theorem HoldsPrefix.reads_all {pages : List Page} {tokens : List Token}
    (h : HoldsPrefix pages tokens) (hdvd : tokens.length % kvBlockTokens = 0) :
    Reads pages tokens tokens.length := by
  have hall : tokens.length / kvBlockTokens * kvBlockTokens = tokens.length :=
    Nat.div_mul_cancel (Nat.dvd_of_mod_eq_zero hdvd)
  rw [← hall]
  exact h.2

theorem copy_inv (h : Inv s) (hstep : s.copy l = some next) : Inv next := by
  have hlane := h.lanes l
  have hat := hlane.atPc
  unfold State.copy at hstep
  dsimp only at hstep
  split at hstep
  next hit hpc hhit =>
    cases hstep
    simp only [Lane.AtPc, hpc] at hat
    obtain ⟨hunmapped, other, hother, hdvd, hsame, hlength⟩ := hat
    obtain rfl := hit_eq hhit hother
    obtain ⟨hentry, _, hlt, htokens⟩ := hlane.hit other hhit
    have hwindow : InWindow (s.lane l) other.entry := ⟨.inr hpc, by rw [hhit]; rfl⟩
    have hbegins := (h.cache.entries _ hentry).resident (window_ne_nil h hwindow)
    rw [htokens] at hbegins
    have hmatched : ((s.lane l).prompt.take other.matched).length = other.matched := by
      simp
      omega
    have hreads := hbegins.reads_all (by rw [hmatched]; exact hdvd)
    rw [hmatched] at hreads
    refine h.local l ?_ ⟨?_, ?_, hlane.hit, ?_, ?_⟩
    · simp [Lane.held, hunmapped.blocks, hsame]
    · exact fun page hpage => (by cases hpage)
    · rw [Lane.past, hunmapped.context]
      exact reads_zero _ _
    · intro id hid
      cases hid
      exact hentry
    · refine ⟨hunmapped.context, rfl, other, hhit, ?_, hreads⟩
      dsimp only
      rw [hsame]
      exact hlength
  next => cases hstep

theorem restore_inv (h : Inv s) {restored : Bool} (hstep : s.restore l restored = some next) :
    Inv next := by
  have hlane := h.lanes l
  have hat := hlane.atPc
  unfold State.restore at hstep
  dsimp only at hstep
  split at hstep
  next hit hpc hhit =>
    simp only [Lane.AtPc, hpc] at hat
    obtain ⟨hcontext, hpending, other, hother, hlength, hreads⟩ := hat
    obtain rfl := hit_eq hhit hother
    obtain ⟨_, _, hlt, _⟩ := hlane.hit other hhit
    split at hstep
    next =>
      cases hstep
      refine h.local l rfl ⟨?_, ?_, hlane.hit, hlane.keep, hpending, other, hhit, hlength, rfl⟩
      · exact fun page hpage => (by cases hpage)
      · have hmatched : ((s.lane l).prompt.take other.matched).length = other.matched := by
          simp
          omega
        change Reads _ ((s.lane l).prompt.take other.matched)
          ((s.lane l).prompt.take other.matched).length
        rw [hmatched]
        exact hreads
    next =>
      cases hstep
      refine h.release l ?_ (Lane.Unmapped.sound ⟨rfl, hcontext⟩ (by simp) rfl hlane.hit
        hlane.keep ⟨⟨rfl, hcontext⟩, hpending⟩)
      intro page
      simp [Lane.held, hpending]
  next => cases hstep

/-- A reference of the lane to an entry goes; the entries in other lanes' windows are
still held by them. -/
theorem letGo_inv (h : Inv s) {lane : Lane} {id : Option Nat}
    (hid : ∀ i, id = some i → i < s.cache.created) (hheld : lane.held = (s.lane l).held)
    (hlane : ∀ cache, s.cache.Evolves (fun _ => False) [] cache →
      (∀ page ∈ (s.lane l).writable, cache.pool.refs page = 1) → lane.Sound cache s.kv) :
    Inv (s.letGo l lane id) := by
  cases id with
  | none =>
      exact h.local l hheld (hlane s.cache (.refl _ _ _) (h.lanes l).writable)
  | some i =>
      have hkeeps := PrefixCache.letGo_keeps (State.held (Function.update s.lane l lane))
        (h.found l) (hid i rfl)
      refine h.keeps l hkeeps ?_ hheld (hlane _ (hkeeps.2.mono (fun _ hfalse => hfalse.elim)
        (List.Subset.refl _)) (writable_keeps h hkeeps))
      intro other hother id hwindow
      apply held_of_window
      rw [Function.update_of_ne hother]
      exact hwindow

theorem unkeep_inv (h : Inv s) (hstep : s.unkeep l = some next) : Inv next := by
  have hlane := h.lanes l
  have hat := hlane.atPc
  unfold State.unkeep at hstep
  dsimp only at hstep
  split at hstep
  next hpc =>
    cases hstep
    simp only [Lane.AtPc, hpc] at hat
    obtain ⟨hunmapped, hpending⟩ := hat
    refine letGo_inv h hlane.keep rfl ?_
    intro cache hevolves _
    exact Lane.Unmapped.sound ⟨hunmapped.blocks, hunmapped.context⟩ (by simp) rfl
      (hit_evolves hlane hevolves).1 (fun id hid => (by cases hid))
      ⟨⟨hunmapped.blocks, hunmapped.context⟩, hpending⟩
  next => cases hstep

theorem unmap_inv (h : Inv s) (hstep : s.unmap l = some next) : Inv next := by
  have hlane := h.lanes l
  have hat := hlane.atPc
  unfold State.unmap at hstep
  dsimp only at hstep
  split at hstep
  next hpc =>
    cases hstep
    simp only [Lane.AtPc, hpc] at hat
    obtain ⟨hunmapped, hpending, hnohit⟩ := hat
    refine letGo_inv h hlane.keep rfl ?_
    intro cache hevolves _
    exact Lane.Unmapped.sound ⟨hunmapped.blocks, hunmapped.context⟩ (by simp) rfl
      (hit_evolves hlane hevolves).1 (fun id hid => (by cases hid))
      ⟨⟨hunmapped.blocks, hunmapped.context⟩, hpending, hnohit⟩
  next => cases hstep

theorem eq_take_length {l tokens : List Token} {k : Nat} (h : l = tokens.take k) :
    l = tokens.take l.length := by
  subst h
  rw [List.length_take, List.take_eq_take_iff]
  simp

theorem dropHit_inv (h : Inv s) (hstep : s.dropHit l = some next) : Inv next := by
  have hlane := h.lanes l
  have hat := hlane.atPc
  unfold State.dropHit at hstep
  dsimp only at hstep
  split at hstep
  next hpc =>
    cases hstep
    -- the table is exactly what the hit mapped, so no page of it may be written
    have hstate : (s.lane l).pending = [] ∧
        (s.lane l).context = (s.lane l).prompt.take (s.lane l).past ∧
        (s.lane l).blocks.drop ((s.lane l).past / kvBlockTokens) = [] := by
      rcases hpc with hpc | hpc
      · simp only [Lane.AtPc, hpc] at hat
        obtain ⟨hpending, hit, hhit, hlength, hcontext⟩ := hat
        obtain ⟨_, _, hlt, _⟩ := hlane.hit hit hhit
        have hpast : (s.lane l).past = hit.matched := by
          rw [Lane.past, hcontext, List.length_take]
          omega
        refine ⟨hpending, eq_take_length hcontext, ?_⟩
        rw [hpast, ← hlength, List.drop_length]
      · simp only [Lane.AtPc, hpc] at hat
        obtain ⟨hunmapped, hpending⟩ := hat
        refine ⟨hpending, ?_, ?_⟩
        · rw [Lane.past, hunmapped.context]
          rfl
        · rw [hunmapped.blocks, List.drop_nil]
    obtain ⟨hpending, hcontext, hnone⟩ := hstate
    refine letGo_inv h ?_ rfl ?_
    · intro id hid
      obtain ⟨hit, hhit, rfl⟩ := Option.map_eq_some_iff.mp hid
      exact (hlane.hit hit hhit).1
    · intro cache hevolves _
      refine ⟨?_, hlane.reads, fun hit hhit => (by cases hhit),
        (hit_evolves hlane hevolves).2, hpending, rfl, hcontext⟩
      intro page hpage
      rw [writable_runs rfl] at hpage
      change page ∈ (s.lane l).blocks.drop ((s.lane l).past / kvBlockTokens) at hpage
      rw [hnone] at hpage
      cases hpage
  next => cases hstep

/-! ## While a request runs -/

theorem index_unique {l : List Nat} {page i j : Nat} (hcount : l.count page ≤ 1)
    (hi : l[i]? = some page) (hj : l[j]? = some page) : j = i := by
  induction l generalizing i j with
  | nil => cases hi
  | cons head rest ih =>
      have hrest : ∀ {k : Nat}, rest[k]? = some page → 0 < rest.count page :=
        fun hk => List.count_pos_iff.mpr (List.mem_of_getElem? hk)
      cases i with
      | zero =>
          cases j with
          | zero => rfl
          | succ j =>
              cases hi
              have hpos := hrest hj
              rw [List.count_cons_self] at hcount
              omega
      | succ i =>
          cases j with
          | zero =>
              cases hj
              have hpos := hrest hi
              rw [List.count_cons_self] at hcount
              omega
          | succ j =>
              have hle : rest.count page ≤ 1 := (List.count_le_count_cons).trans hcount
              rw [ih hle hi hj]

/-- What a forward of `m` tokens over a sequence does to its lane: the positions are
written to pages that stand once in its table and nowhere else. -/
theorem forward_facts (h : Inv s) (hruns : (s.lane l).pc.runs = true) {seq : List Token}
    {m : Nat} (hseq : ∀ i < (s.lane l).past,
      seq.take (i + 1) = (s.lane l).context.take (i + 1))
    (hcovers : tableCovers (s.lane l).blocks ((s.lane l).past + m)) :
    (∀ page ∉ (s.lane l).writable,
      writeForward s.kv (s.lane l).blocks seq (s.lane l).past m page = s.kv page) ∧
    Reads ((s.lane l).blocks.map (writeForward s.kv (s.lane l).blocks seq (s.lane l).past m)) seq
      ((s.lane l).past + m) := by
  refine ⟨?_, ?_⟩
  · intro page hpage
    apply writeForward_outside
    intro hwritten
    exact hpage (written_writable hruns hwritten)
  · apply writeForward_reads _ (h.lanes l).reads hseq hcovers
    intro i j page hi hpage hother
    have hmem := mem_writable hruns hi hpage
    have hone := (h.lanes l).writable page hmem
    have hle := held_count_le h l page
    rw [Lane.held, List.count_append] at hle
    exact index_unique (by omega) hpage hother

theorem Reads.mono {pages : List Page} {tokens : List Token} {m k : Nat}
    (h : Reads pages tokens m) (hk : k ≤ m) : Reads pages tokens k :=
  fun i hi => h i (Nat.lt_of_lt_of_le hi hk)

/-- A lane that has gone on after a forward. -/
theorem forwarded_sound (h : Inv s) (hruns : (s.lane l).pc.runs = true) {seq context : List Token}
    {m : Nat} {pc : Pc} (hpc : pc.runs = true)
    (hreads : Reads ((s.lane l).blocks.map
      (writeForward s.kv (s.lane l).blocks seq (s.lane l).past m)) seq ((s.lane l).past + m))
    (hcontext : context = seq.take context.length) (hlong : (s.lane l).past ≤ context.length)
    (hshort : context.length ≤ (s.lane l).past + m)
    (hat : Lane.AtPc s.cache (writeForward s.kv (s.lane l).blocks seq (s.lane l).past m)
      { s.lane l with context := context, pc := pc }) :
    Lane.Sound s.cache (writeForward s.kv (s.lane l).blocks seq (s.lane l).past m)
      { s.lane l with context := context, pc := pc } := by
  refine ⟨?_, ?_, (h.lanes l).hit, (h.lanes l).keep, hat⟩
  · intro page hpage
    rw [writable_runs hpc] at hpage
    apply (h.lanes l).writable page
    rw [writable_runs hruns]
    have hle : (s.lane l).past / kvBlockTokens ≤ context.length / kvBlockTokens :=
      Nat.div_le_div_right hlong
    have hmem : page ∈ (s.lane l).blocks.drop (context.length / kvBlockTokens) := hpage
    rw [← Nat.add_sub_cancel' hle, ← List.drop_drop] at hmem
    exact List.mem_of_mem_drop hmem
  · intro i hi
    have hi' : i < context.length := hi
    obtain ⟨page, hpage, hcell⟩ := hreads i (Nat.lt_of_lt_of_le hi' hshort)
    refine ⟨page, hpage, ?_⟩
    dsimp only
    rw [hcell, hcontext, List.take_take, Nat.min_eq_left hi']

theorem nextChunk_runs (lane : Lane) : (State.nextChunk lane).runs = true := by
  unfold State.nextChunk
  split <;> rfl

/-- What a lane knows between two chunks is what it needs for the next, or for the
decode loop. -/
theorem atPc_nextChunk {cache : PrefixCache} {kv : Nat → Page} (lane : Lane)
    (hpending : lane.pending = []) (hhit : lane.hit = none)
    (hcontext : lane.context = lane.prompt.take lane.past) :
    Lane.AtPc cache kv { lane with pc := State.nextChunk lane } := by
  unfold State.nextChunk
  split
  next => exact ⟨hpending, hhit, hcontext⟩
  next => exact ⟨hpending, hhit⟩

theorem forward_inv (config : BackendConfig) (h : Inv s)
    (hstep : s.forward config l = some next) : Inv next := by
  have hat := (h.lanes l).atPc
  unfold State.forward at hstep
  dsimp only at hstep
  split at hstep
  next hguard =>
    cases hstep
    obtain ⟨hpc, hcovers⟩ := hguard
    simp only [Lane.AtPc, hpc] at hat
    obtain ⟨hpending, hnohit, hcontext⟩ := hat
    have hruns : (s.lane l).pc.runs = true := by
      rw [hpc]
      rfl
    have hlonger : (s.lane l).context ++
        slice (s.lane l).prompt (s.lane l).past (config.take (s.lane l)) =
          (s.lane l).prompt.take ((s.lane l).past + config.take (s.lane l)) := by
      rw [hcontext, slice, ← List.take_add]
    generalize hnew : (s.lane l).context ++
      slice (s.lane l).prompt (s.lane l).past (config.take (s.lane l)) = context at hlonger ⊢
    have hseq : ∀ i < (s.lane l).past,
        context.take (i + 1) = (s.lane l).context.take (i + 1) := by
      intro i hi
      rw [← hnew, List.take_append_of_le_length hi]
    have hlong : (s.lane l).past ≤ context.length := by
      rw [← hnew, List.length_append]
      exact Nat.le_add_right _ _
    have hshort : context.length ≤ (s.lane l).past + config.take (s.lane l) := by
      rw [hlonger, List.length_take]
      exact Nat.min_le_left _ _
    obtain ⟨houtside, hreads⟩ := forward_facts h hruns hseq hcovers
    refine h.write l rfl houtside (forwarded_sound h hruns ?_ hreads (by simp) hlong hshort ?_)
    · split
      next => rfl
      next => exact nextChunk_runs _
    · split
      next => exact ⟨hpending, hnohit, eq_take_length hlonger⟩
      next =>
        exact atPc_nextChunk { s.lane l with context := context } hpending hnohit
          (eq_take_length hlonger)
  next => cases hstep

theorem decodeForward_inv (config : BackendConfig) (h : Inv s) {ids : List Token}
    {accepted : Nat} (hstep : s.decodeForward config l ids accepted = some next) : Inv next := by
  have hat := (h.lanes l).atPc
  unfold State.decodeForward at hstep
  dsimp only at hstep
  split at hstep
  next hguard =>
    cases hstep
    obtain ⟨hpc, _, haccepted, hcovers⟩ := hguard
    simp only [Lane.AtPc, hpc] at hat
    have hruns : (s.lane l).pc.runs = true := by
      rw [hpc]
      rfl
    have hseq : ∀ i < (s.lane l).past,
        ((s.lane l).context ++ ids).take (i + 1) = (s.lane l).context.take (i + 1) :=
      fun i hi => List.take_append_of_le_length hi
    have hlength : ((s.lane l).context ++ ids.take accepted).length =
        (s.lane l).past + accepted := by
      rw [List.length_append, List.length_take, Nat.min_eq_left haccepted]
      rfl
    obtain ⟨houtside, hreads⟩ := forward_facts h hruns hseq hcovers
    refine h.write l rfl houtside (forwarded_sound h hruns rfl hreads ?_ (by omega) (by omega) hat)
    rw [hlength, Lane.past, List.take_length_add_append]
  next => cases hstep

theorem snapshot_inv (h : Inv s) {took : Bool} (hstep : s.snapshot l took = some next) :
    Inv next := by
  have hlane := h.lanes l
  have hat := hlane.atPc
  unfold State.snapshot at hstep
  dsimp only at hstep
  split at hstep
  next hpc =>
    simp only [Lane.AtPc, hpc] at hat
    obtain ⟨hpending, hnohit, hcontext⟩ := hat
    have hwritable := hlane.writable
    rw [writable_runs (by rw [hpc]; rfl)] at hwritable
    split at hstep
    next =>
      cases hstep
      generalize hkept : (s.lane l).blocks.take ((s.lane l).past / kvBlockTokens) = kept
      have hsub : ∀ page ∈ kept, page ∈ (s.lane l).held := by
        intro page hpage
        rw [← hkept] at hpage
        exact List.mem_append_left _ (List.mem_of_mem_take hpage)
      obtain ⟨hpool, hrefs⟩ := BlockPool.ref_refs h.cache.pool
        fun page hpage => held_ne_zero h (hsub page hpage)
      refine h.pool l hpool ?_ ?_ ⟨?_, hlane.reads, hlane.hit, hlane.keep, hkept.symm, hnohit,
        hcontext⟩
      · intro page
        rw [hrefs page]
        simp only [Lane.held, hpending, List.append_nil, List.count_append]
        omega
      · intro page hpage
        rcases List.mem_append.mp hpage with hold | hnew
        · exact .inl (List.mem_append_left _ hold)
        · exact .inl (hsub page hnew)
      · intro page hpage
        rw [writable_runs rfl] at hpage
        have hdrop : page ∈ (s.lane l).blocks.drop ((s.lane l).past / kvBlockTokens) := hpage
        have hone := hwritable page hdrop
        change (s.cache.pool.ref kept).refs page = 1
        rw [hrefs page, hone]
        -- a page of the prefix that also comes later would have two references
        have htotal : (s.lane l).blocks.count page = kept.count page +
            ((s.lane l).blocks.drop ((s.lane l).past / kvBlockTokens)).count page := by
          rw [← hkept, ← List.count_append, List.take_append_drop]
        have hle := held_count_le h l page
        have hpos := List.count_pos_iff.mpr hdrop
        rw [Lane.held, List.count_append] at hle
        omega
    next =>
      cases hstep
      refine h.local l rfl ⟨?_, hlane.reads, hlane.hit, hlane.keep,
        atPc_nextChunk _ hpending hnohit hcontext⟩
      rw [writable_runs (nextChunk_runs _)]
      exact hwritable
  next => cases hstep

/-- The complete pages of what a lane has read hold the prefix. -/
theorem holdsPrefix_take {blocks : List Nat} {kv : Nat → Page} {context : List Token}
    (hreads : Reads (blocks.map kv) context context.length) :
    HoldsPrefix ((blocks.take (context.length / kvBlockTokens)).map kv) context := by
  have hread : ∀ i < context.length / kvBlockTokens * kvBlockTokens, i < context.length :=
    fun i hi => Nat.lt_of_lt_of_le hi (Nat.div_mul_le_self _ _)
  refine ⟨?_, ?_⟩
  · rw [List.length_map, List.length_take]
    apply Nat.min_eq_left
    rcases Nat.eq_zero_or_pos (context.length / kvBlockTokens) with hzero | hpos
    · omega
    · -- the last position of the last complete page has been read
      have hlast : context.length / kvBlockTokens * kvBlockTokens - 1 < context.length := by
        unfold kvBlockTokens at *
        omega
      obtain ⟨page, hpage, _⟩ := hreads _ hlast
      have hlt := (List.getElem?_eq_some_iff.mp hpage).1
      rw [List.length_map] at hlt
      unfold kvBlockTokens at *
      omega
  · intro i hi
    obtain ⟨page, hpage, hcell⟩ := hreads i (hread i hi)
    refine ⟨page, ?_, hcell⟩
    have hindex : i / kvBlockTokens < context.length / kvBlockTokens :=
      (Nat.div_lt_iff_lt_mul kvBlockTokens_pos).mpr hi
    rw [List.map_take, List.getElem?_take_of_lt hindex]
    exact hpage

theorem insert_inv (config : BackendConfig) (h : Inv s) {bytes : Nat}
    (hstep : s.insert config l bytes = some next) : Inv next := by
  have hlane := h.lanes l
  have hat := hlane.atPc
  unfold State.insert at hstep
  dsimp only at hstep
  split at hstep
  next hpc =>
    cases hstep
    simp only [Lane.AtPc, hpc] at hat
    obtain ⟨hkept, hnohit, hcontext⟩ := hat
    have hwritable := hlane.writable
    rw [writable_runs (by rw [hpc]; rfl)] at hwritable
    generalize hafter : ({ s.lane l with pending := [], pc := State.nextChunk (s.lane l) } : Lane) =
      after
    have hheld : after.held = (s.lane l).blocks := by
      rw [← hafter]
      simp [Lane.held]
    have hfound : s.cache.Sound s.kv fun page =>
        (otherLanes s.lane l page + after.held.count page) + (s.lane l).pending.count page := by
      have hsame : (fun page => otherLanes s.lane l page + (s.lane l).held.count page) =
          fun page => (otherLanes s.lane l page + after.held.count page) +
            (s.lane l).pending.count page := by
        funext page
        rw [hheld, Lane.held, List.count_append, Nat.add_assoc]
      rw [← hsame]
      exact h.found l
    have hbegins : (s.lane l).past ≤ (s.lane l).prompt.length →
        HoldsPrefix ((s.lane l).pending.map s.kv) ((s.lane l).prompt.take (s.lane l).past) := by
      intro _
      rw [← hcontext, hkept]
      exact holdsPrefix_take hlane.reads
    obtain ⟨hsound, hevolves⟩ := PrefixCache.insert_keeps config.cache (State.held s.lane) bytes
      hfound hbegins
    obtain ⟨hhits, hkeep⟩ := hit_evolves hlane hevolves
    refine h.act l _ _ hsound hevolves ?_ ?_ ?_ (fun page hne => absurd rfl hne) ?_
    · exact fun page hpage => List.mem_append_right _ hpage
    · exact fun other _ id hwindow => held_of_window hwindow
    · intro page hpage
      rw [hheld] at hpage
      exact .inl (List.mem_append_left _ hpage)
    · rw [← hafter] at hheld hfound hsound ⊢
      refine ⟨?_, hlane.reads, hhits, hkeep, atPc_nextChunk { s.lane l with pending := [] } rfl
        hnohit hcontext⟩
      intro page hpage
      rw [writable_runs (nextChunk_runs _)] at hpage
      have hdrop : page ∈ (s.lane l).blocks.drop ((s.lane l).past / kvBlockTokens) := hpage
      have hone := hwritable page hdrop
      have hpos := List.count_pos_iff.mpr (List.mem_of_mem_drop hdrop)
      have hle := held_count_le h l page
      rw [Lane.held, List.count_append] at hle
      have hout : page ∉ (s.lane l).pending := by
        intro hmem
        have := List.count_pos_iff.mpr hmem
        omega
      apply hfound.stays_private hsound hevolves hone _ hout
      · rw [List.count_eq_zero_of_not_mem hout, Nat.add_zero]
      · rw [hheld]
        omega
  next => cases hstep

theorem finish_inv (h : Inv s) (hstep : s.finish l = some next) : Inv next := by
  have hlane := h.lanes l
  have hat := hlane.atPc
  unfold State.finish at hstep
  dsimp only at hstep
  split at hstep
  next hmay =>
    cases hstep
    have hdone : (s.lane l).pending = [] ∧ (s.lane l).hit = none := by
      unfold Lane.AtPc at hat
      cases hpc : (s.lane l).pc
      all_goals simp only [hpc, State.mayFinish, Bool.false_eq_true] at hat hmay
      case prefill | forward | snapshot => exact ⟨hat.1, hat.2.1⟩
      case decode | decodeForward | release => exact hat
    refine h.release l ?_ (Lane.Unmapped.sound ⟨rfl, rfl⟩ (by simp) rfl hlane.hit hlane.keep
      ⟨⟨rfl, rfl⟩, hdone⟩)
    intro page
    simp [Lane.held, hdone.1]
  next => cases hstep

end Steps

/-! ## Whole runs -/

section Runs

variable {n : Nat} {config : BackendConfig}

theorem initial_inv (n total : Nat) (kv : Nat → Page) : Inv (State.initial n total kv) := by
  refine ⟨⟨BlockPool.new_sound total, ?_, ?_, ?_⟩, ?_⟩
  · intro page
    simp [State.initial, PrefixCache.new, BlockPool.new, laneCount, Lane.new, Lane.held,
      PrefixCache.entryCount]
  · intro id hid
    cases hid
  · intro id hid
    cases hid
  · intro l
    exact Lane.Unmapped.sound ⟨rfl, rfl⟩ (by simp [State.initial, Lane.new]) rfl
      (fun hit hhit => (by cases hhit)) (fun id hid => (by cases hid)) ⟨⟨rfl, rfl⟩, rfl, rfl⟩

theorem step_inv {s next : State n} {event : Event n} (h : Inv s)
    (hspares : SparesWindows config s event)
    (hstep : (lanesMachine n config).step s event = some next) : Inv next := by
  cases event with
  | start l prompt => exact start_inv h hstep
  | lookup l => exact lookup_inv config h hstep
  | allocate l => exact allocate_inv config h hstep
  | evict l copied => exact evict_inv config h hspares hstep
  | hostCopy l copied => exact hostCopy_inv h hstep
  | promote l => exact promote_inv h hstep
  | giveBack l => exact giveBack_inv h hstep
  | check l => exact check_inv h hstep
  | ref l => exact ref_inv h hstep
  | copy l => exact copy_inv h hstep
  | restore l restored => exact restore_inv h hstep
  | unkeep l => exact unkeep_inv h hstep
  | dropHit l => exact dropHit_inv h hstep
  | forward l => exact forward_inv config h hstep
  | snapshot l took => exact snapshot_inv h hstep
  | insert l bytes => exact insert_inv config h hstep
  | decodeForward l ids accepted => exact decodeForward_inv config h hstep
  | finish l => exact finish_inv h hstep
  | unmap l => exact unmap_inv h hstep

theorem Inv.pageCounts {s : State n} (h : Inv s) : PageCounts s := by
  intro page
  rw [h.cache.counts page, laneCount]
  congr 1
  apply Finset.sum_congr rfl
  intro l _
  rw [Lane.held, List.count_append]

theorem Inv.forwardsPrivate {s : State n} (h : Inv s) : ForwardsPrivate config s := by
  intro l m hforwards page hpage
  have hruns : (s.lane l).pc.runs = true := by
    rcases hforwards with ⟨hpc, _⟩ | ⟨hpc, _⟩
    · rw [hpc]
      rfl
    · rw [hpc]
      rfl
  -- the page stands in the part of the table that is the lane's own
  have hmem := written_writable hruns hpage
  have hone := (h.lanes l).writable page hmem
  have hown := List.count_pos_iff.mpr (writable_subset _ hmem)
  have hcounts := (h.found l).counts page
  refine ⟨?_, ?_⟩
  · intro other hother hshared
    have hle := count_le_otherLanes s.lane hother page
    have hpos : 0 < (s.lane other).held.count page :=
      List.count_pos_iff.mpr (List.mem_append_left _ hshared)
    omega
  · intro id hid hentry
    have hle := s.cache.count_le_entryCount hid page
    have hpos := List.count_pos_iff.mpr hentry
    omega

theorem Inv.hitsHold {s : State n} (h : Inv s) : HitsHold s := by
  intro l hit hpc hhit
  have hlane := h.lanes l
  have hat := hlane.atPc
  simp only [Lane.AtPc, hpc] at hat
  obtain ⟨_, own, hown, hlength, hcontext⟩ := hat
  obtain rfl := hit_eq hhit hown
  obtain ⟨_, _, hlt, _⟩ := hlane.hit own hhit
  refine ⟨hlength, ?_⟩
  have hpast : (s.lane l).past = own.matched := by
    rw [Lane.past, hcontext, List.length_take]
    omega
  intro i hi
  obtain ⟨page, hpage, hcell⟩ := hlane.reads i (by omega)
  refine ⟨page, hpage, ?_⟩
  rw [hcell, hcontext, List.take_take, Nat.min_eq_left hi]

/-- In every run that spares the windows: references are holders, forwards write
private pages, and a continued hit has its prefix. -/
theorem ownership_run {total : Nat} {kv : Nat → Page} {events : List (Event n)} {s : State n}
    (hspares : (lanesMachine n config).Meets (SparesWindows config) (.initial n total kv) events)
    (hrun : (lanesMachine n config).run (.initial n total kv) events = some s) :
    PageCounts s ∧ ForwardsPrivate config s ∧ HitsHold s := by
  have hinv : Inv s := Machine.run_invariant
    (fun _ _ _ h hallowed hstep => step_inv h hallowed hstep) (initial_inv n total kv) hspares hrun
  exact ⟨hinv.pageCounts, hinv.forwardsPrivate, hinv.hitsHold⟩

end Runs

/-! ## Two lanes and a pool of four pages -/

section Demo

def twoLanes : BackendConfig where
  cache := ⟨1000, 1000, 32, fun hash tokens => (hash.1 + tokens.sum.toNat, hash.2 + 1), 10⟩
  grid := ⟨512, 32, true⟩
  draftsMax := 3

/-- The lanes can be numbered. -/
theorem neZero_two : NeZero 2 := ⟨by decide⟩

attribute [local instance] neZero_two

/-- A prompt of 40 tokens is prefilled, and its first 32 are cached. -/
def prefillOnce : List (Event 2) :=
  [.start 0 (List.replicate 40 7), .lookup 0, .dropHit 0, .allocate 0, .forward 0,
    .snapshot 0 true, .insert 0 10, .finish 0, .unmap 0]

/-- The other lane runs another prompt up to its eviction. -/
def otherToEvict : List (Event 2) :=
  [.start 1 (List.replicate 40 8), .lookup 1, .dropHit 1, .allocate 1]

/-- The entry is demoted between the size check of its page list and the copy, once
before the reference and once after it. -/
theorem ownership_fails_demoted_in_window :
    (∃ s, (lanesMachine 2 twoLanes).run (.initial 2 4 fun _ _ => [])
        (prefillOnce ++ [.start 0 (List.replicate 40 7), .lookup 0, .check 0] ++ otherToEvict ++
          [.evict 1 true, .ref 0, .copy 0, .restore 0 true]) = some s ∧ ¬HitsHold s) ∧
    ∃ s, (lanesMachine 2 twoLanes).run (.initial 2 4 fun _ _ => [])
        (prefillOnce ++ [.start 0 (List.replicate 40 7), .lookup 0, .check 0, .ref 0] ++
          otherToEvict ++ [.evict 1 true, .copy 0, .restore 0 true]) = some s ∧
      ¬PageCounts s := by
  refine ⟨⟨_, rfl, ?_⟩, ⟨_, rfl, ?_⟩⟩
  · intro hholds
    have hlength := (hholds 0 ⟨32, 0, false⟩ rfl rfl).1
    exact absurd hlength (by decide)
  · intro hcounts
    exact absurd (hcounts 0) (by decide)

/-- After that eviction the other lane ends, and the prompt comes back from the host
tier. -/
def promotedBack : List (Event 2) :=
  [.allocate 1, .forward 1, .snapshot 1 false, .finish 1, .unmap 1, .start 0 (List.replicate 40 7),
    .lookup 0, .allocate 0, .hostCopy 0 true, .promote 0, .check 0, .ref 0, .copy 0,
    .restore 0 true]

theorem ownership_run_promoted_back :
    ∃ s, (lanesMachine 2 twoLanes).run (.initial 2 4 fun _ _ => [])
        (prefillOnce ++ otherToEvict ++ .evict 1 true :: promotedBack) = some s ∧
      (s.lane 0).blocks.length = 2 ∧
      PageCounts s ∧ ForwardsPrivate twoLanes s ∧ HitsHold s := by
  have hlength : ((lanesMachine 2 twoLanes).run (.initial 2 4 fun _ _ => [])
      (prefillOnce ++ otherToEvict ++ .evict 1 true :: promotedBack)).map
        (fun s => (s.lane 0).blocks.length) = some 2 := rfl
  obtain ⟨s, hrun, hblocks⟩ := Option.map_eq_some_iff.mp hlength
  have hpcs : ((lanesMachine 2 twoLanes).run (.initial 2 4 fun _ _ => [])
      (prefillOnce ++ otherToEvict)).map (fun s => ((s.lane 0).pc, (s.lane 1).pc)) =
        some (.idle, .prefillEvict) := rfl
  obtain ⟨mid, hmid, hpc⟩ := Option.map_eq_some_iff.mp hpcs
  obtain ⟨hzero, hone⟩ := Prod.mk.inj hpc
  have hbefore : (lanesMachine 2 twoLanes).Meets (SparesWindows twoLanes)
      (.initial 2 4 fun _ _ => []) (prefillOnce ++ otherToEvict) :=
    meets_sparesWindows (by decide) _
  -- no lane is in a window when the other one evicts
  have hevict : SparesWindows twoLanes mid (.evict 1 true) := by
    intro l id hwindow
    have hl : ∀ l : Fin 2, l = 0 ∨ l = 1 := by decide
    rcases hl l with rfl | rfl
    · simp [InWindow, hzero] at hwindow
    · simp [InWindow, hone] at hwindow
  refine ⟨s, hrun, hblocks, ownership_run ?_ hrun⟩
  exact Machine.meets_append hbefore hmid
    ⟨hevict, fun next _ => meets_sparesWindows (by decide) next⟩

end Demo

end Arcint.Cache
