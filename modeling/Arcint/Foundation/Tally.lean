import Arcint.Foundation.SortBy
import Mathlib.Algebra.BigOperators.Group.Finset.Piecewise
import Mathlib.Algebra.Group.Action.Defs
import Mathlib.Algebra.Order.BigOperators.Group.Finset
import Mathlib.Algebra.Ring.Nat
import Mathlib.Algebra.Ring.Int.Defs
import Mathlib.Data.Int.Order.Basic
import Mathlib.Data.Prod.Lex

/-! # Counting and ranking

A table of counts kept in the order of first occurrence, and its keys ranked by count. As many keys
as are wanted from the top of the ranking count for at least as much as any others.
-/

namespace Arcint.Foundation

variable {K : Type*} [DecidableEq K]

/-- In a table with one entry a key, what is looked up is what is there. -/
theorem lookup_eq_some_iff_mem {V : Type*} {i : BEq K} [LawfulBEq K] {table : List (K × V)}
    (hnodup : (table.map Prod.fst).Nodup) {k : K} {v : V} :
    table.lookup k = some v ↔ (k, v) ∈ table := by
  induction table with
  | nil => simp
  | cons entry table ih =>
      obtain ⟨a, b⟩ := entry
      obtain ⟨ha, hnodup⟩ := List.nodup_cons.mp hnodup
      by_cases hk : k = a
      · subst hk
        rw [List.lookup_cons_self, List.mem_cons]
        refine ⟨fun h => .inl (by rw [Option.some.inj h]), fun h => ?_⟩
        rcases h with h | h
        · rw [(Prod.mk.inj h).2]
        · exact absurd (List.mem_map_of_mem (f := Prod.fst) h) ha
      · rw [List.lookup_cons, beq_eq_false_iff_ne.mpr hk, List.mem_cons]
        exact (ih hnodup).trans ⟨.inr, fun h => h.resolve_left fun h => hk (Prod.mk.inj h).1⟩

/-- One more of a key, at its place or at the end. -/
def bump (key : K) : List (K × ℕ) → List (K × ℕ)
  | [] => [(key, 1)]
  | (k, n) :: rest => if k = key then (k, n + 1) :: rest else (k, n) :: bump key rest

/-- How often each key occurs. -/
def tally (keys : List K) : List (K × ℕ) := keys.foldl (fun table key => bump key table) []

theorem tally_append (keys : List K) (key : K) : tally (keys ++ [key]) = bump key (tally keys) := by
  rw [tally, List.foldl_append]
  rfl

/-- A table of counts, one entry a key. -/
theorem bump_map {ks : List K} (hnodup : ks.Nodup) {count : K → ℕ} {key : K}
    (hzero : key ∉ ks → count key = 0) :
    bump key (ks.map fun k => (k, count k)) =
      (if key ∈ ks then ks else ks ++ [key]).map fun k =>
        (k, count k + if k = key then 1 else 0) := by
  induction ks with
  | nil => simp [bump, hzero]
  | cons a ks ih =>
      obtain ⟨ha, hnodup⟩ := List.nodup_cons.mp hnodup
      rw [List.map_cons, bump]
      by_cases hkey : a = key
      · subst hkey
        have hrest : ∀ k ∈ ks, (k, count k) = (k, count k + if k = a then 1 else 0) := by
          intro k hk
          rw [if_neg (ne_of_mem_of_not_mem hk ha), Nat.add_zero]
        rw [if_pos rfl, if_pos List.mem_cons_self, List.map_cons, if_pos rfl,
          List.map_congr_left hrest]
      · have hmem : key ∈ a :: ks ↔ key ∈ ks := by simp [Ne.symm hkey]
        rw [if_neg hkey, ih hnodup fun hks => hzero (mt hmem.mp hks)]
        by_cases hks : key ∈ ks
        · rw [if_pos hks, if_pos (hmem.mpr hks), List.map_cons, if_neg hkey, Nat.add_zero]
        · rw [if_neg hks, if_neg (mt hmem.mp hks), List.cons_append, List.map_cons, if_neg hkey,
            Nat.add_zero]

theorem tally_eq_map (keys : List K) :
    ∃ ks : List K, ks.Nodup ∧ (∀ k, k ∈ ks ↔ k ∈ keys) ∧
      tally keys = ks.map fun k => (k, keys.count k) := by
  induction keys using List.reverseRecOn with
  | nil => exact ⟨[], List.nodup_nil, fun _ => Iff.rfl, rfl⟩
  | append_singleton keys key ih =>
      obtain ⟨ks, hnodup, hmem, htally⟩ := ih
      have hcount : ∀ k, (keys ++ [key]).count k = keys.count k + if k = key then 1 else 0 := by
        intro k
        rw [List.count_append, List.count_singleton]
        by_cases hk : k = key
        · simp [hk]
        · simp [hk, Ne.symm hk]
      refine ⟨if key ∈ ks then ks else ks ++ [key], ?_, fun k => ?_, ?_⟩
      · split
        · exact hnodup
        · next hkey =>
          exact List.nodup_append.mpr ⟨hnodup, List.nodup_singleton key, fun a ha b hb hab =>
            hkey (List.mem_singleton.mp hb ▸ hab ▸ ha)⟩
      · rw [List.mem_append, List.mem_singleton, ← hmem k]
        split
        · next hkey => exact ⟨.inl, fun h => h.elim id fun h => h ▸ hkey⟩
        · rw [List.mem_append, List.mem_singleton]
      · rw [tally_append, htally,
          bump_map hnodup fun hkey => List.count_eq_zero.mpr (mt (hmem key).mpr hkey)]
        simp only [hcount]

theorem mem_tally {keys : List K} {k : K} {n : ℕ} :
    (k, n) ∈ tally keys ↔ k ∈ keys ∧ n = keys.count k := by
  obtain ⟨ks, -, hmem, htally⟩ := tally_eq_map keys
  rw [htally, List.mem_map]
  constructor
  · rintro ⟨a, ha, hentry⟩
    obtain ⟨rfl, rfl⟩ := Prod.mk.inj hentry
    exact ⟨(hmem a).mp ha, rfl⟩
  · rintro ⟨hk, rfl⟩
    exact ⟨k, (hmem k).mpr hk, rfl⟩

theorem nodup_tally_keys (keys : List K) : ((tally keys).map Prod.fst).Nodup := by
  obtain ⟨ks, hnodup, -, htally⟩ := tally_eq_map keys
  have hfst : (Prod.fst ∘ fun k => (k, keys.count k)) = id := rfl
  rwa [htally, List.map_map, hfst, List.map_id]

@[simp] theorem mem_tally_keys {keys : List K} {k : K} :
    k ∈ (tally keys).map Prod.fst ↔ k ∈ keys := by
  simp [mem_tally]

theorem lookup_tally {i : BEq K} [LawfulBEq K] {keys : List K} {k : K} {n : ℕ}
    (h : (k, n) ∈ tally keys) : (tally keys).lookup k = some n :=
  (lookup_eq_some_iff_mem (nodup_tally_keys keys)).mpr h

/-! ## The top of a ranking -/

section Top

variable {l : List K} {f : K → ℕ}

/-- A count that parts the first of a list in descending order from the rest. -/
theorem exists_threshold (hsorted : l.Pairwise fun a b => f b ≤ f a) (hzero : ∀ k ∉ l, f k = 0)
    (n : ℕ) : ∃ bound, (∀ k ∈ l.take n, bound ≤ f k) ∧ (∀ k ∉ l.take n, f k ≤ bound) ∧
      (bound = 0 ∨ n ≤ l.length) := by
  by_cases hn : n < l.length
  · have hparts := List.pairwise_append.mp ((List.take_append_drop n l).symm ▸ hsorted)
    rw [List.drop_eq_getElem_cons hn] at hparts
    refine ⟨f l[n], fun k hk => hparts.2.2 k hk _ List.mem_cons_self, fun k hk => ?_,
      .inr hn.le⟩
    by_cases hmem : k ∈ l
    · rw [← List.take_append_drop n l, List.mem_append, List.drop_eq_getElem_cons hn] at hmem
      rcases List.mem_cons.mp (hmem.resolve_left hk) with rfl | hlater
      · exact le_rfl
      · exact (List.pairwise_cons.mp hparts.2.1).1 k hlater
    · rw [hzero k hmem]
      exact Nat.zero_le _
  · refine ⟨0, fun _ _ => Nat.zero_le _, fun k hk => ?_, .inl rfl⟩
    rw [List.take_of_length_le (not_lt.mp hn)] at hk
    exact (hzero k hk).le

/-- The first of a list in descending order count for as much as any others of their number. -/
theorem sum_le_sum_take (hnodup : l.Nodup) (hsorted : l.Pairwise fun a b => f b ≤ f a)
    (hzero : ∀ k ∉ l, f k = 0) {S : Finset K} {n : ℕ} (hS : S.card ≤ n) :
    ∑ k ∈ S, f k ≤ ∑ k ∈ (l.take n).toFinset, f k := by
  obtain ⟨bound, hin, hout, hbound⟩ := exists_threshold hsorted hzero n
  set T := (l.take n).toFinset with hT
  have hcard : (S \ T).card * bound ≤ (T \ S).card * bound := by
    rcases hbound with rfl | hn
    · rw [Nat.mul_zero, Nat.mul_zero]
    · refine Nat.mul_le_mul_right bound (Finset.card_sdiff_le_card_sdiff_iff.mpr ?_)
      rwa [hT, List.toFinset_card_of_nodup (hnodup.sublist (List.take_sublist _ _)),
        List.length_take_of_le hn]
  calc ∑ k ∈ S, f k = ∑ k ∈ S ∩ T, f k + ∑ k ∈ S \ T, f k :=
        (Finset.sum_inter_add_sum_sdiff S T f).symm
    _ ≤ ∑ k ∈ S ∩ T, f k + (S \ T).card * bound := by
        refine Nat.add_le_add_left ?_ _
        rw [← smul_eq_mul]
        exact Finset.sum_le_card_nsmul _ _ _ fun k hk =>
          hout k fun h => (Finset.mem_sdiff.mp hk).2 (List.mem_toFinset.mpr h)
    _ ≤ ∑ k ∈ T ∩ S, f k + (T \ S).card * bound := by
        rw [Finset.inter_comm]
        exact Nat.add_le_add_left hcard _
    _ ≤ ∑ k ∈ T ∩ S, f k + ∑ k ∈ T \ S, f k := by
        refine Nat.add_le_add_left ?_ _
        rw [← smul_eq_mul]
        exact Finset.card_nsmul_le_sum _ _ _ fun k hk =>
          hin k (List.mem_toFinset.mp (Finset.mem_sdiff.mp hk).1)
    _ = ∑ k ∈ T, f k := Finset.sum_inter_add_sum_sdiff T S f

end Top

section Ranking

variable {E : Type*} [LinearOrder E]

/-- The keys with their counts, the largest count first and the smaller of equally many first. -/
def byCount (table : List (E × ℕ)) : List (E × ℕ) :=
  sortBy (fun entry => toLex (-(entry.2 : ℤ), entry.1)) table

/-- The `n` keys that occur most often. -/
def mostFrequent (n : ℕ) (keys : List E) : List E := ((byCount (tally keys)).take n).map Prod.fst

theorem byCount_perm (table : List (E × ℕ)) : (byCount table).Perm table := sortBy_perm _ _

theorem byCount_congr {table table' : List (E × ℕ)} (hnodup : (table.map Prod.fst).Nodup)
    (h : table'.Perm table) : byCount table = byCount table' := by
  refine sortBy_unique ?_ ((byCount_perm table').trans h) (sortBy_pairwise _ _)
  have hfst : table.map Prod.fst =
      (table.map fun entry => toLex (-(entry.2 : ℤ), entry.1)).map fun key => (ofLex key).2 := by
    rw [List.map_map]
    rfl
  exact List.Nodup.of_map _ (hfst ▸ hnodup)

theorem byCount_pairwise (table : List (E × ℕ)) :
    (byCount table).Pairwise fun a b => b.2 ≤ a.2 := by
  refine (sortBy_pairwise _ table).imp fun {a b} hab => ?_
  rcases Prod.Lex.le_iff.mp hab with h | h
  · exact_mod_cast (neg_lt_neg_iff.mp h).le
  · exact_mod_cast (neg_inj.mp h.1).ge

theorem nodup_keys_byCount (keys : List E) : ((byCount (tally keys)).map Prod.fst).Nodup :=
  ((byCount_perm _).map Prod.fst).nodup_iff.mpr (nodup_tally_keys keys)

theorem nodup_mostFrequent (n : ℕ) (keys : List E) : (mostFrequent n keys).Nodup := by
  rw [mostFrequent, List.map_take]
  exact (nodup_keys_byCount keys).sublist (List.take_sublist _ _)

theorem mem_of_mem_mostFrequent {n : ℕ} {keys : List E} {k : E} (h : k ∈ mostFrequent n keys) :
    k ∈ keys := by
  rw [mostFrequent, List.map_take] at h
  have hk := ((byCount_perm (tally keys)).map Prod.fst).mem_iff.mp (List.mem_of_mem_take h)
  exact mem_tally_keys.mp hk

theorem length_mostFrequent (n : ℕ) (keys : List E) :
    (mostFrequent n keys).length = min n keys.toFinset.card := by
  have hkeys : ((tally keys).map Prod.fst).toFinset = keys.toFinset := by
    ext k
    rw [List.mem_toFinset, List.mem_toFinset, mem_tally_keys]
  rw [mostFrequent, List.length_map, List.length_take, (byCount_perm _).length_eq, ← hkeys,
    List.toFinset_card_of_nodup (nodup_tally_keys keys), List.length_map]

@[simp] theorem mostFrequent_nil (n : ℕ) : mostFrequent n ([] : List E) = [] :=
  List.length_eq_zero_iff.mp (by simp [length_mostFrequent])

theorem countP_mem_eq_sum (keys : List E) (S : Finset E) :
    keys.countP (· ∈ S) = ∑ k ∈ S, keys.count k := by
  induction keys with
  | nil => simp
  | cons a keys ih =>
      simp only [List.countP_cons, List.count_cons, Finset.sum_add_distrib, ih]
      simp

/-- No other set of that many keys occurs as often in all. -/
theorem countP_le_mostFrequent (keys : List E) {S : Finset E} {n : ℕ} (hS : S.card ≤ n) :
    keys.countP (· ∈ S) ≤ keys.countP (· ∈ (mostFrequent n keys).toFinset) := by
  have hcount : ∀ entry ∈ byCount (tally keys), entry.2 = keys.count entry.1 := fun entry h =>
    (mem_tally.mp ((byCount_perm _).mem_iff.mp h)).2
  have hsorted : ((byCount (tally keys)).map Prod.fst).Pairwise
      fun a b => keys.count b ≤ keys.count a := by
    refine List.pairwise_map.mpr ((byCount_pairwise _).imp_of_mem fun ha hb hab => ?_)
    rwa [← hcount _ ha, ← hcount _ hb]
  have hzero : ∀ k ∉ (byCount (tally keys)).map Prod.fst, keys.count k = 0 := by
    intro k hk
    rw [((byCount_perm (tally keys)).map Prod.fst).mem_iff, mem_tally_keys] at hk
    exact List.count_eq_zero.mpr hk
  rw [countP_mem_eq_sum, countP_mem_eq_sum, mostFrequent, List.map_take]
  exact sum_le_sum_take (nodup_keys_byCount keys) hsorted hzero hS

end Ranking

/-! ## Keys in classes -/

section Classes

variable {C : Type*} [DecidableEq C] {E : Type*} [DecidableEq E]

/-- The key of an entry of the class. -/
def part (c : C) (entry : C × E) : Option E := if entry.1 = c then some entry.2 else none

omit [DecidableEq E] in
theorem part_eq_some {c : C} {e : E} {entry : C × E} : part c entry = some e ↔ entry = (c, e) := by
  rw [part, Prod.ext_iff]
  split
  · next h => simp [h]
  · next h => simp [h]

omit [DecidableEq E] in
theorem mem_filterMap_part {c : C} {e : E} {entries : List (C × E)} :
    e ∈ entries.filterMap (part c) ↔ (c, e) ∈ entries := by
  simp [List.mem_filterMap, part_eq_some]

omit [DecidableEq E] in
theorem filterMap_part_map (c c' : C) (l : List E) :
    (l.map (c', ·)).filterMap (part c) = if c' = c then l else [] := by
  rw [List.filterMap_map]
  by_cases h : c' = c
  · simp [part, h]
  · simp [part, h]

theorem count_filterMap_part {i : BEq (C × E)} [LawfulBEq (C × E)] (c : C) (e : E)
    (entries : List (C × E)) : (entries.filterMap (part c)).count e = entries.count (c, e) := by
  induction entries with
  | nil => rfl
  | cons entry entries ih =>
      by_cases hentry : entry = (c, e)
      · rw [List.filterMap_cons_some (part_eq_some.mpr hentry), List.count_cons_self, ih, hentry,
          List.count_cons_self]
      · rw [List.count_cons_of_ne hentry, List.filterMap_cons, ← ih]
        split
        · rfl
        · next b hb =>
          rw [part_eq_some.mp hb] at hentry
          have hne : b ≠ e := fun h => hentry (by rw [h])
          exact List.count_cons_of_ne hne

/-- A class's entries of a table of counts are the table of its keys, up to their order. -/
theorem filterMap_tally_perm (c : C) (entries : List (C × E)) :
    ((tally entries).filterMap fun cell => (part c cell.1).map (·, cell.2)).Perm
      (tally (entries.filterMap (part c))) := by
  refine (List.perm_ext_iff_of_nodup ?_ ?_).mpr fun cell => ?_
  · refine List.Nodup.filterMap (fun a b e ha hb => ?_) (List.Nodup.of_map _ (nodup_tally_keys _))
    simp only [Option.mem_def, Option.map_eq_some_iff, part_eq_some] at ha hb
    obtain ⟨k, hk, rfl⟩ := ha
    obtain ⟨k', hk', heq⟩ := hb
    obtain ⟨rfl, h2⟩ := Prod.mk.inj heq
    exact Prod.ext (hk.trans hk'.symm) h2.symm
  · exact List.Nodup.of_map _ (nodup_tally_keys _)
  · obtain ⟨e, n⟩ := cell
    simp only [List.mem_filterMap, Option.map_eq_some_iff, part_eq_some, Prod.mk.injEq]
    rw [mem_tally, mem_filterMap_part]
    constructor
    · rintro ⟨⟨key, m⟩, hcell, k, rfl, rfl, rfl⟩
      rw [count_filterMap_part (i := instBEqOfDecidableEq)]
      exact mem_tally.mp hcell
    · rw [count_filterMap_part (i := instBEqOfDecidableEq)]
      exact fun h => ⟨((c, e), n), mem_tally.mpr h, e, rfl, rfl, rfl⟩

omit [DecidableEq E] in
/-- What holds more often in every class holds more often. -/
theorem countP_le_of_parts {entries : List (C × E)} {p q : C → E → Bool}
    (h : ∀ c, (entries.filterMap (part c)).countP (p c) ≤
      (entries.filterMap (part c)).countP (q c)) :
    entries.countP (fun entry => p entry.1 entry.2) ≤
      entries.countP (fun entry => q entry.1 entry.2) := by
  have hsum : ∀ (r : C → E → Bool) (cs : Finset C) (entries : List (C × E)),
      (∀ entry ∈ entries, entry.1 ∈ cs) →
        entries.countP (fun entry => r entry.1 entry.2) =
          ∑ c ∈ cs, (entries.filterMap (part c)).countP (r c) := by
    intro r cs entries hcs
    induction entries with
    | nil => simp
    | cons entry entries ih =>
        obtain ⟨c, e⟩ := entry
        have hstep : ∀ c', (((c, e) :: entries).filterMap (part c')).countP (r c') =
            (entries.filterMap (part c')).countP (r c') +
              if c = c' then (if r c e then 1 else 0) else 0 := by
          intro c'
          by_cases hc : c = c'
          · subst hc
            rw [List.filterMap_cons_some (part_eq_some.mpr rfl), List.countP_cons, if_pos rfl]
          · rw [List.filterMap_cons_none (by rw [part, if_neg hc]), if_neg hc, Nat.add_zero]
        simp only [hstep, Finset.sum_add_distrib, List.countP_cons]
        rw [ih fun entry hentry => hcs entry (List.mem_cons_of_mem _ hentry),
          Finset.sum_ite_eq, if_pos (hcs _ List.mem_cons_self)]
  have hcs : ∀ entry ∈ entries, entry.1 ∈ (entries.map Prod.fst).toFinset := fun entry hentry =>
    List.mem_toFinset.mpr (List.mem_map_of_mem hentry)
  rw [hsum p _ entries hcs, hsum q _ entries hcs]
  exact Finset.sum_le_sum fun c _ => h c

end Classes

end Arcint.Foundation
