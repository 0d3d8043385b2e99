import Arcint.Cache.Accounting
import Mathlib.Data.List.Pairwise

/-! # What a lookup finds

A hit is always a stored prefix of the prompt. It is the longest one unless a more recently
used entry has the same hash: of the entries with one hash `lookup` looks at the first only,
where `insert` goes through them all and keeps them side by side.
-/

namespace Arcint.Cache

open Arcint.Core Foundation

theorem CacheConfig.block_pos (config : CacheConfig) : 0 < config.block :=
  Nat.lt_of_lt_of_le Nat.one_pos (Nat.le_max_left _ _)

/-- The hash of the first blocks reads nothing behind them. -/
theorem CacheConfig.prefixHash_take (config : CacheConfig) (tokens : List Token) {n depth : Nat}
    (h : depth * config.block ≤ n) :
    config.prefixHash (tokens.take n) depth = config.prefixHash tokens depth := by
  unfold CacheConfig.prefixHash
  apply List.foldl_ext
  intro hash k hk
  have hinside : (k + 1) * config.block ≤ n :=
    (Nat.mul_le_mul_right _ (List.mem_range.mp hk)).trans h
  rw [Nat.add_one_mul] at hinside
  unfold slice
  rw [List.drop_take, List.take_take, Nat.min_eq_left (by omega)]

/-- The first element with a property, by what stands before it. -/
theorem find?_eq_some_iff_takeWhile {α : Type} [DecidableEq α] {p : α → Bool} {l : List α} {a : α}
    (ha : a ∈ l) : l.find? p = some a ↔ p a = true ∧ ∀ b ∈ l.takeWhile (· ≠ a), p b = false := by
  induction l with
  | nil => cases ha
  | cons b l ih =>
      by_cases hba : b = a
      · subst hba
        cases hb : p b <;> simp [hb]
        intro hfind
        exact absurd (List.find?_some hfind) (by simp [hb])
      · have hal : a ∈ l := (List.mem_cons.mp ha).resolve_left fun h => hba h.symm
        rw [List.takeWhile_cons_of_pos (by simpa using hba), List.forall_mem_cons]
        cases hb : p b with
        | true => simp [hb, hba]
        | false => simp [hb, ih hal]

namespace PrefixCache

/-! ## What the entries are found by -/

/-- Every entry is stored under the hash of its whole blocks, and no two hold the same
tokens. -/
structure Indexed (config : CacheConfig) (cache : PrefixCache) : Prop where
  listed : ∀ id ∈ cache.entries, id < cache.created
  hashed : ∀ id ∈ cache.entries, ∃ depth, 0 < depth ∧
    (cache.entry id).tokens.length = depth * config.block ∧
      (cache.entry id).hash = config.prefixHash (cache.entry id).tokens depth
  apart : ∀ id ∈ cache.entries, ∀ other ∈ cache.entries,
    (cache.entry id).tokens = (cache.entry other).tokens → id = other

/-- An operation that lists no new entry and leaves what the entries are found by. -/
structure Narrows (before after : PrefixCache) : Prop where
  created : after.created = before.created
  entries : ∀ id ∈ after.entries, id ∈ before.entries
  tokens : ∀ id, (after.entry id).tokens = (before.entry id).tokens
  hash : ∀ id, (after.entry id).hash = (before.entry id).hash

variable {config : CacheConfig} {held : Nat → Bool} {cache : PrefixCache}

theorem Narrows.refl (cache : PrefixCache) : Narrows cache cache :=
  ⟨rfl, fun _ h => h, fun _ => rfl, fun _ => rfl⟩

theorem Narrows.trans {a b c : PrefixCache} (hab : Narrows a b) (hbc : Narrows b c) :
    Narrows a c where
  created := hbc.created.trans hab.created
  entries id hid := hab.entries id (hbc.entries id hid)
  tokens id := (hbc.tokens id).trans (hab.tokens id)
  hash id := (hbc.hash id).trans (hab.hash id)

theorem Narrows.indexed {after : PrefixCache} (h : Narrows cache after)
    (hindexed : cache.Indexed config) : after.Indexed config where
  listed id hid := by
    rw [h.created]
    exact hindexed.listed id (h.entries id hid)
  hashed id hid := by
    rw [h.tokens, h.hash]
    exact hindexed.hashed id (h.entries id hid)
  apart id hid other hother hsame := by
    rw [h.tokens, h.tokens] at hsame
    exact hindexed.apart id (h.entries id hid) other (h.entries other hother) hsame

/-- An entry that keeps its tokens and its hash is replaced. -/
theorem narrows_update {id : Nat} {e : Entry} (htokens : e.tokens = (cache.entry id).tokens)
    (hhash : e.hash = (cache.entry id).hash) (pool : BlockPool) (hostBytes : Nat) :
    Narrows cache { cache with
      pool := pool
      entry := Function.update cache.entry id e
      hostBytes := hostBytes } where
  created := rfl
  entries _ h := h
  tokens other := by
    by_cases hother : other = id
    · simp [hother, htokens]
    · simp [hother]
  hash other := by
    by_cases hother : other = id
    · simp [hother, hhash]
    · simp [hother]

theorem narrows_letGo (held : Nat → Bool) (cache : PrefixCache) (id : Nat) :
    Narrows cache (letGo held cache id) := by
  unfold letGo
  split
  next => exact .refl _
  next => exact narrows_update (e := { cache.entry id with blocks := [] }) rfl rfl _ _

/-- An entry leaves the list. -/
theorem narrows_unlist (held : Nat → Bool) (cache : PrefixCache) (id bytes hostBytes : Nat)
    {entries : List Nat} (hentries : ∀ id ∈ entries, id ∈ cache.entries) :
    Narrows cache (letGo held
      { cache with bytes := bytes, hostBytes := hostBytes, entries := entries } id) :=
  Narrows.trans
    (b := { cache with bytes := bytes, hostBytes := hostBytes, entries := entries })
    ⟨rfl, hentries, fun _ => rfl, fun _ => rfl⟩ (narrows_letGo held _ id)

theorem narrows_dropBack (held : Nat → Bool) (cache : PrefixCache) :
    Narrows cache (cache.dropBack held) := by
  unfold dropBack
  split
  next => exact .refl _
  next => exact narrows_unlist held cache _ _ _ fun _ h => List.mem_of_mem_dropLast h

theorem narrows_evictToFit (config : CacheConfig) (held : Nat → Bool) (incoming fuel : Nat)
    (cache : PrefixCache) : Narrows cache (evictToFit config held incoming fuel cache) := by
  induction fuel generalizing cache with
  | zero => exact .refl _
  | succ fuel ih =>
      unfold evictToFit
      split
      next => exact (narrows_dropBack held cache).trans (ih _)
      next => exact .refl _

theorem narrows_trimHost (config : CacheConfig) (held : Nat → Bool) (fuel : Nat)
    (cache : PrefixCache) : Narrows cache (trimHost config held fuel cache) := by
  induction fuel generalizing cache with
  | zero => exact .refl _
  | succ fuel ih =>
      unfold trimHost
      split
      next =>
        split
        next => exact .refl _
        next =>
          exact (narrows_unlist held cache _ _ _ fun _ h => List.mem_of_mem_erase h).trans (ih _)
      next => exact .refl _

theorem narrows_lookup (config : CacheConfig) (cache : PrefixCache) (tokens : List Token) :
    Narrows cache (cache.lookup config tokens).1 := by
  obtain ⟨entries, hperm, heq⟩ := lookup_reorders config cache tokens
  rw [heq]
  exact ⟨rfl, fun _ hother => hperm.subset hother, fun _ => rfl, fun _ => rfl⟩

/-- A new entry is found by the hash of its tokens, and no entry has these tokens yet. -/
theorem insert_indexed (hindexed : cache.Indexed config) (held : Nat → Bool)
    (tokens : List Token) (prefixLen bytes : Nat) (blocks : List Nat) :
    (cache.insert config held tokens prefixLen bytes blocks).Indexed config := by
  have hback : Indexed config { cache with pool := cache.pool.release blocks } :=
    ⟨hindexed.listed, hindexed.hashed, hindexed.apart⟩
  unfold insert
  dsimp only
  split
  next => exact hback
  next hvalid =>
    split
    next => exact hback
    next hnew =>
      split
      next => exact hback
      next =>
        simp only [not_or, not_not] at hvalid
        obtain ⟨-, hpos, hmod, hfits⟩ := hvalid
        obtain ⟨depth, hdepth⟩ := Nat.dvd_of_mod_eq_zero hmod
        rw [Nat.mul_comm] at hdepth
        have hquot : prefixLen / config.block = depth := by
          rw [hdepth, Nat.mul_div_cancel _ config.block_pos]
        have hfresh : ∀ id ∈ cache.entries, (cache.entry id).tokens ≠ tokens.take prefixLen := by
          intro id hid hsame
          obtain ⟨other, -, hlength, hhash⟩ := hindexed.hashed id hid
          rw [hsame, List.length_take_of_le (Nat.not_lt.mp hfits), hdepth] at hlength
          obtain rfl := Nat.eq_of_mul_eq_mul_right config.block_pos hlength
          rw [hsame, config.prefixHash_take tokens hdepth.ge] at hhash
          apply hnew
          rw [List.any_eq_true]
          exact ⟨id, hid, decide_eq_true ⟨by rw [hquot, hhash], hsame⟩⟩
        have hnarrows := narrows_evictToFit config held bytes cache.entries.length cache
        have hevicted := hnarrows.indexed hindexed
        replace hfresh : ∀ id ∈ (evictToFit config held bytes cache.entries.length cache).entries,
            ((evictToFit config held bytes cache.entries.length cache).entry id).tokens ≠
              tokens.take prefixLen := by
          intro id hid
          rw [hnarrows.tokens]
          exact hfresh id (hnarrows.entries id hid)
        generalize evictToFit config held bytes cache.entries.length cache = evicted
          at hevicted hfresh
        have hold : ∀ id ∈ evicted.entries, id ≠ evicted.created :=
          fun id hid => Nat.ne_of_lt (hevicted.listed id hid)
        refine ⟨?_, ?_, ?_⟩
        · intro id hid
          rcases List.mem_cons.mp hid with rfl | hid
          · exact Nat.lt_succ_self _
          · exact Nat.lt_succ_of_lt (hevicted.listed id hid)
        · intro id hid
          rcases List.mem_cons.mp hid with rfl | hid
          · refine ⟨depth, ?_, ?_, ?_⟩
            · rcases Nat.eq_zero_or_pos depth with rfl | hdeep
              · rw [Nat.zero_mul] at hdepth
                exact absurd hdepth hpos
              · exact hdeep
            · simpa [← hdepth] using Nat.not_lt.mp hfits
            · simp only [Function.update_self]
              rw [hquot, config.prefixHash_take tokens hdepth.ge]
          · simpa [hold id hid] using hevicted.hashed id hid
        · intro id hid other hother hsame
          rcases List.mem_cons.mp hid with rfl | hid <;>
            rcases List.mem_cons.mp hother with rfl | hother
          · rfl
          · simp only [Function.update_self, Function.update_of_ne (hold other hother)] at hsame
            exact absurd hsame.symm (hfresh other hother)
          · simp only [Function.update_self, Function.update_of_ne (hold id hid)] at hsame
            exact absurd hsame (hfresh id hid)
          · simp only [Function.update_of_ne (hold other hother),
              Function.update_of_ne (hold id hid)] at hsame
            exact hevicted.apart id hid other hother hsame

end PrefixCache

namespace CountedCache

open PrefixCache

variable {config : CacheConfig} {c : CountedCache}

theorem narrows_evict (held : Nat → Bool) (c : CountedCache) (id : Nat) :
    Narrows c.cache (c.evict held id).cache :=
  narrows_unlist held c.cache id _ _ fun _ h => List.mem_of_mem_erase h

theorem narrows_demote (config : CacheConfig) (held : Nat → Bool) (c : CountedCache) (id : Nat)
    (host : List Page) (bytes : Nat) : Narrows c.cache (c.demote config held id host bytes).cache :=
  (narrows_update (e := (c.cache.entry id).demoted host bytes) rfl rfl _ _).trans
    (narrows_trimHost config held _ _)

theorem narrows_evictOldest (config : CacheConfig) (held : Nat → Bool) (answer : DemoteAnswer)
    (c : CountedCache) : Narrows c.cache (c.evictOldest config held answer).1.cache := by
  unfold evictOldest
  split
  next => exact .refl _
  next id _ =>
    split
    next host bytes =>
      split
      next => exact narrows_demote config held c id host bytes
      next => exact narrows_evict held c id
    next => exact narrows_evict held c id

theorem narrows_promote (c : CountedCache) (id : Nat) (pages : List Nat) :
    Narrows c.cache (c.promote id pages).1.cache := by
  unfold promote PrefixCache.promote
  split
  next cache hpromote =>
    split at hpromote
    next =>
      obtain ⟨rfl, -⟩ := Prod.mk.inj hpromote
      exact narrows_update (e := (c.cache.entry id).promoted pages) rfl rfl _ _
    next => cases hpromote
  next => exact .refl _

theorem narrows_clear (held : Nat → Bool) (c : CountedCache) :
    Narrows c.cache (c.clear held).cache := by
  have hall : ∀ (ids : List Nat) (cache : PrefixCache),
      Narrows cache (ids.foldl (.letGo held) cache) := by
    intro ids
    induction ids with
    | nil => exact fun cache => .refl cache
    | cons id ids ih => exact fun cache => (narrows_letGo held cache id).trans (ih _)
  refine Narrows.trans (b := { c.cache with entries := [], bytes := 0, hostBytes := 0 })
    ⟨rfl, fun id hid => (by cases hid), fun _ => rfl, fun _ => rfl⟩ (hall _ _)

theorem step_indexed (h : c.cache.Indexed config) (op : CacheOp) :
    (c.step config op).cache.Indexed config := by
  cases op with
  | insert held tokens prefixLen bytes blocks =>
      have hinsert := insert_indexed h held tokens prefixLen bytes blocks
      rwa [← insert_cache] at hinsert
  | lookup tokens =>
      have hlookup := (narrows_lookup config c.cache tokens).indexed h
      rwa [← lookup_cache] at hlookup
  | evictOldest held answer => exact (narrows_evictOldest config held answer c).indexed h
  | promote id pages => exact (narrows_promote c id pages).indexed h
  | clear held => exact (narrows_clear held c).indexed h

theorem foldl_indexed (h : c.cache.Indexed config) (ops : List CacheOp) :
    (ops.foldl (step config) c).cache.Indexed config := by
  induction ops generalizing c with
  | nil => exact h
  | cons op ops ih => exact ih (step_indexed h op)

theorem new_indexed (config : CacheConfig) (total : Nat) :
    (CountedCache.new total).cache.Indexed config :=
  ⟨fun _ h => (by cases h), fun _ h => (by cases h), fun _ h => (by cases h)⟩

end CountedCache

/-! ## The longest stored prefix -/

namespace PrefixCache

variable {config : CacheConfig} {cache : PrefixCache} {tokens : List Token}

/-- An entry holds the first `n` tokens of the prompt, whole blocks of it, and one token is
left to be run. -/
def Stored (config : CacheConfig) (cache : PrefixCache) (tokens : List Token) (n : Nat) : Prop :=
  0 < n ∧ config.block ∣ n ∧ n < tokens.length ∧
    ∃ id ∈ cache.entries, (cache.entry id).tokens = tokens.take n

/-- `matched_tokens`. -/
def matched : Option Hit → Nat
  | none => 0
  | some hit => hit.matched

/-- The entries used more recently than this one. -/
def moreRecent (cache : PrefixCache) (id : Nat) : List Nat := cache.entries.takeWhile (· ≠ id)

/-- No entry used more recently than the longest stored prefix of the prompt has its hash. -/
def Unshadowed (config : CacheConfig) (cache : PrefixCache) (tokens : List Token) : Prop :=
  ∀ id ∈ cache.entries, ∀ n, Stored config cache tokens n →
    (∀ longer, Stored config cache tokens longer → longer ≤ n) →
      (cache.entry id).tokens = tokens.take n →
        ∀ other ∈ cache.moreRecent id, (cache.entry other).hash ≠ (cache.entry id).hash

/-- The first entry of a depth's hash has the prompt's tokens. -/
def Probes (config : CacheConfig) (cache : PrefixCache) (tokens : List Token) (depth : Nat) :
    Prop :=
  ∃ id, cache.entries.find? (fun id => (cache.entry id).hash = config.prefixHash tokens depth) =
      some id ∧
    (cache.entry id).tokens = tokens.take (depth * config.block)

theorem mem_depths {depth : Nat} :
    depth ∈ depths config tokens ↔ 0 < depth ∧ depth * config.block < tokens.length := by
  have hle : depth ≤ (tokens.length - 1) / config.block ↔
      depth * config.block ≤ tokens.length - 1 := Nat.le_div_iff_mul_le config.block_pos
  unfold depths
  rw [List.mem_map]
  constructor
  · rintro ⟨k, hk, rfl⟩
    have hprod := hle.mp (List.mem_range.mp hk)
    have hpos : 0 < (k + 1) * config.block := Nat.mul_pos (Nat.succ_pos k) config.block_pos
    generalize (k + 1) * config.block = n at hprod hpos ⊢
    exact ⟨Nat.succ_pos k, by omega⟩
  · rintro ⟨hpos, hlt⟩
    have hdepth := hle.mpr (by omega)
    exact ⟨depth - 1, List.mem_range.mpr (by omega), by omega⟩

theorem stored_iff {n : Nat} :
    Stored config cache tokens n ↔ ∃ depth ∈ depths config tokens, n = depth * config.block ∧
      ∃ id ∈ cache.entries, (cache.entry id).tokens = tokens.take n := by
  constructor
  · rintro ⟨hpos, ⟨depth, rfl⟩, hlt, hentry⟩
    rw [Nat.mul_comm] at hpos hlt hentry ⊢
    exact ⟨depth, mem_depths.mpr ⟨Nat.pos_of_mul_pos_right hpos, hlt⟩, rfl, hentry⟩
  · rintro ⟨depth, hdepth, rfl, hentry⟩
    obtain ⟨hpos, hlt⟩ := mem_depths.mp hdepth
    exact ⟨Nat.mul_pos hpos config.block_pos, Nat.dvd_mul_left _ _, hlt, hentry⟩

theorem depths_sorted (config : CacheConfig) (tokens : List Token) :
    (depths config tokens).Pairwise (· ≤ ·) := by
  unfold depths
  rw [List.pairwise_map]
  exact List.pairwise_le_range.imp Nat.succ_le_succ

/-- A depth that probes is not passed over for a shallower one. -/
theorem deepest_of_probes {list : List Nat} (hsorted : list.Pairwise (· ≤ ·))
    {best : Option (Nat × Nat)} {depth : Nat}
    (h : (∃ id, best = some (id, depth * config.block) ∧ ∀ deeper ∈ list, depth ≤ deeper) ∨
      depth ∈ list ∧ Probes config cache tokens depth) :
    ∃ id deeper, depth ≤ deeper ∧
      deepest config cache tokens list best = some (id, deeper * config.block) := by
  -- on the depths: the best so far is replaced by deeper ones only
  induction list generalizing best depth with
  | nil =>
      rcases h with ⟨id, rfl, -⟩ | ⟨hmem, -⟩
      · exact ⟨id, depth, Nat.le_refl _, rfl⟩
      · cases hmem
  | cons first rest ih =>
      obtain ⟨hfirst, hrest⟩ := List.pairwise_cons.mp hsorted
      have hkept : ∀ best, ((∃ id, best = some (id, depth * config.block) ∧
            ∀ deeper ∈ first :: rest, depth ≤ deeper) ∨
          depth ∈ rest ∧ Probes config cache tokens depth) →
          ∃ id deeper, depth ≤ deeper ∧
            deepest config cache tokens rest best = some (id, deeper * config.block) := by
        intro best h
        apply ih hrest
        refine h.imp_left ?_
        rintro ⟨id, hbest, hall⟩
        exact ⟨id, hbest, fun deeper hdeeper => hall deeper (List.mem_cons_of_mem _ hdeeper)⟩
      unfold deepest
      split
      next hnone =>
        apply hkept
        refine h.imp_right ?_
        rintro ⟨hmem, hprobes⟩
        refine ⟨(List.mem_cons.mp hmem).resolve_left ?_, hprobes⟩
        rintro rfl
        obtain ⟨id, hfind, -⟩ := hprobes
        rw [hnone] at hfind
        cases hfind
      next found hfound =>
        split
        next htokens =>
          -- this depth probes as well, and the ones behind it are no shallower
          obtain ⟨id, deeper, hle, heq⟩ := @ih hrest (some (found, first * config.block)) first
            (.inl ⟨found, rfl, hfirst⟩)
          rcases h with ⟨_, -, hall⟩ | ⟨hmem, hprobes⟩
          · exact ⟨id, deeper, (hall first List.mem_cons_self).trans hle, heq⟩
          · rcases List.mem_cons.mp hmem with rfl | hmem
            · exact ⟨id, deeper, hle, heq⟩
            · exact ih hrest (.inr ⟨hmem, hprobes⟩)
        next htokens =>
          apply hkept
          refine h.imp_right ?_
          rintro ⟨hmem, hprobes⟩
          refine ⟨(List.mem_cons.mp hmem).resolve_left ?_, hprobes⟩
          rintro rfl
          obtain ⟨id, hfind, hsame⟩ := hprobes
          rw [hfound] at hfind
          cases hfind
          exact htokens hsame

theorem deepest_nil (list : List Nat) (hnil : cache.entries = []) :
    deepest config cache tokens list none = none := by
  induction list with
  | nil => rfl
  | cons first rest ih =>
      unfold deepest
      rw [hnil]
      exact ih

/-- What a lookup matches is what `deepest` returns. -/
theorem lookup_matched (config : CacheConfig) (cache : PrefixCache) (tokens : List Token) :
    matched (cache.lookup config tokens).2 =
      match deepest config cache tokens (depths config tokens) none with
      | none => 0
      | some (_, n) => n := by
  unfold lookup
  split
  next hskip =>
    have hnone : deepest config cache tokens (depths config tokens) none = none := by
      rcases hskip with hnil | hshort
      · exact deepest_nil _ hnil
      · have hnil : depths config tokens = [] := by
          rw [List.eq_nil_iff_forall_not_mem]
          intro depth hdepth
          obtain ⟨hpos, hlt⟩ := mem_depths.mp hdepth
          have hle := Nat.le_mul_of_pos_left config.block hpos
          omega
        rw [hnil]
        rfl
    rw [hnone]
    rfl
  next =>
    cases hdeepest : deepest config cache tokens (depths config tokens) none with
    | none => rfl
    | some best => rfl

/-- A hit is at a depth that probes, and no depth that probes is deeper. -/
theorem matched_spec (config : CacheConfig) (cache : PrefixCache) (tokens : List Token) :
    (0 < matched (cache.lookup config tokens).2 →
        ∃ depth ∈ depths config tokens, Probes config cache tokens depth ∧
          matched (cache.lookup config tokens).2 = depth * config.block) ∧
      ∀ depth ∈ depths config tokens, Probes config cache tokens depth →
        depth * config.block ≤ matched (cache.lookup config tokens).2 := by
  rw [lookup_matched]
  refine ⟨fun hpos => ?_, fun depth hdepth hprobes => ?_⟩
  · cases hdeepest : deepest config cache tokens (depths config tokens) none with
    | none =>
        rw [hdeepest] at hpos
        exact absurd hpos (Nat.lt_irrefl 0)
    | some best =>
        rcases deepest_some hdeepest with hnone | ⟨-, depth, hdepth, hmatched, htokens, hfind⟩
        · cases hnone
        · exact ⟨depth, hdepth, ⟨best.1, hfind, hmatched ▸ htokens⟩, hmatched⟩
  · obtain ⟨id, deeper, hle, heq⟩ := @deepest_of_probes config cache tokens _
      (depths_sorted config tokens) none depth (.inr ⟨hdepth, hprobes⟩)
    rw [heq]
    exact Nat.mul_le_mul_right _ hle

/-- A hit is a stored prefix, whatever the hash. -/
theorem stored_of_matched (h : 0 < matched (cache.lookup config tokens).2) :
    Stored config cache tokens (matched (cache.lookup config tokens).2) := by
  obtain ⟨depth, hdepth, ⟨id, hfind, htokens⟩, hmatched⟩ :=
    (matched_spec config cache tokens).1 h
  exact stored_iff.mpr
    ⟨depth, hdepth, hmatched, id, List.mem_of_find?_eq_some hfind, hmatched ▸ htokens⟩

/-- A stored prefix is seen exactly where no other entry of its hash is ahead of it. -/
theorem probes_iff (hindexed : cache.Indexed config) {id depth : Nat} (hid : id ∈ cache.entries)
    (htokens : (cache.entry id).tokens = tokens.take (depth * config.block))
    (hdepth : depth ∈ depths config tokens) :
    Probes config cache tokens depth ↔
      ∀ other ∈ cache.moreRecent id, (cache.entry other).hash ≠ (cache.entry id).hash := by
  have hhash : (cache.entry id).hash = config.prefixHash tokens depth := by
    obtain ⟨other, -, hlength, hhash⟩ := hindexed.hashed id hid
    obtain ⟨-, hlt⟩ := mem_depths.mp hdepth
    rw [htokens, List.length_take_of_le hlt.le] at hlength
    obtain rfl := Nat.eq_of_mul_eq_mul_right config.block_pos hlength
    rw [hhash, htokens, config.prefixHash_take tokens (Nat.le_refl _)]
  -- the first entry of the hash is this one, when none of the hash is ahead of it
  have hfirst := find?_eq_some_iff_takeWhile (p := fun id =>
    decide ((cache.entry id).hash = config.prefixHash tokens depth)) hid
  simp only [decide_eq_true_eq, decide_eq_false_iff_not, ← hhash, true_and] at hfirst
  unfold Probes moreRecent
  rw [← hfirst, ← hhash]
  constructor
  · rintro ⟨other, hfind, hother⟩
    rw [hfind, hindexed.apart other (List.mem_of_find?_eq_some hfind) id hid
      (hother.trans htokens.symm)]
  · exact fun hfind => ⟨id, hfind, htokens⟩

/-- The longest stored prefix is found exactly where it is not shadowed. -/
theorem matched_longest_iff (hindexed : cache.Indexed config) (tokens : List Token) :
    (∀ n, Stored config cache tokens n → n ≤ matched (cache.lookup config tokens).2) ↔
      Unshadowed config cache tokens := by
  constructor
  · intro hall id hid n hn hlongest htokens
    have hle := hall n hn
    have hpos := Nat.lt_of_lt_of_le hn.1 hle
    obtain ⟨depth, hdepth, hprobes, hmatched⟩ := (matched_spec config cache tokens).1 hpos
    have heq : n = depth * config.block :=
      (Nat.le_antisymm hle (hlongest _ (stored_of_matched hpos))).trans hmatched
    exact (probes_iff hindexed hid (heq ▸ htokens) hdepth).mp hprobes
  · intro hunshadowed n hn
    -- the longest of the stored prefixes is seen
    obtain ⟨longest, hstored, hlongest⟩ : ∃ longest, Stored config cache tokens longest ∧
        ∀ other, Stored config cache tokens other → other ≤ longest := by
      classical
      have hbound : ∀ other, Stored config cache tokens other → other ≤ tokens.length :=
        fun other h => h.2.2.1.le
      exact ⟨Nat.findGreatest (Stored config cache tokens) tokens.length,
        Nat.findGreatest_spec (hbound n hn) hn,
        fun other h => Nat.le_findGreatest (hbound other h) h⟩
    obtain ⟨depth, hdepth, rfl, id, hid, htokens⟩ := stored_iff.mp hstored
    have hseen := hunshadowed id hid _ hstored hlongest htokens
    exact (hlongest n hn).trans ((matched_spec config cache tokens).2 depth hdepth
      ((probes_iff hindexed hid htokens hdepth).mpr hseen))

end PrefixCache

namespace CountedCache

open PrefixCache

/-- In every reachable state a lookup returns the longest stored prefix of the prompt exactly
where no entry used more recently than that one has its hash. -/
theorem lookup_longest_iff (config : CacheConfig) (total : Nat) (ops : List CacheOp)
    (tokens : List Token) :
    let c := ops.foldl (step config) (.new total)
    ((0 < matched (c.lookup config tokens).2 →
          Stored config c.cache tokens (matched (c.lookup config tokens).2)) ∧
        ∀ n, Stored config c.cache tokens n → n ≤ matched (c.lookup config tokens).2) ↔
      Unshadowed config c.cache tokens := by
  intro c
  have hindexed : c.cache.Indexed config := foldl_indexed (new_indexed config total) ops
  have hcache : (c.lookup config tokens).2 = (c.cache.lookup config tokens).2 :=
    congrArg Prod.snd (lookup_cache config c tokens)
  rw [hcache]
  exact (and_iff_right stored_of_matched).trans (matched_longest_iff hindexed tokens)

/-- Every chain collides. -/
def collidingConfig : CacheConfig := ⟨8, 0, 2, fun _ _ => (0, 0), 1⟩

/-- The later of two entries of one hash hides the other. -/
theorem lookup_misses_collision :
    let c := [CacheOp.insert (fun _ => false) [1, 2, 3] 2 1 [],
      .insert (fun _ => false) [4, 5, 6] 2 1 []].foldl (step collidingConfig) (.new 0)
    Stored collidingConfig c.cache [1, 2, 3] 2 ∧
      (c.lookup collidingConfig [1, 2, 3]).2 = none := by
  refine ⟨⟨by decide, by decide, by decide, 0, by decide, by decide⟩, by decide⟩

end CountedCache

end Arcint.Cache
