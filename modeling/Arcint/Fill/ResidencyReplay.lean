import Arcint.Foundation.Recency
import Arcint.Foundation.Tally
import Mathlib.Algebra.Order.Ring.Rat
import Mathlib.Algebra.Order.Field.Basic
import Mathlib.Data.Finset.Image

/-! # Replays of a routing trace

A replay runs the routed experts of a trace through stores that evict what was used least recently,
one store for every slice or one a layer. What it counts is a matter of the trace alone: an access
hits when fewer slices than the store holds have been used since the last access to its own.
-/

namespace Arcint.Fill.Replay

open Foundation

/-- A line of a routing trace. -/
structure TraceRow where
  tok : ℤ
  lay : ℤ
  experts : List ℤ

/-- The slices that the rows access. -/
def accesses (rows : List TraceRow) : List (ℤ × ℤ) :=
  rows.flatMap fun row => row.experts.map (row.lay, ·)

/-- What a replay has seen so far. -/
@[ext] structure Counts (Store : Type) where
  store : Store
  hits : ℕ
  acc : ℕ

/-- The fraction of the accesses that hit. -/
def Counts.rate {Store : Type} (counts : Counts Store) : ℚ :=
  if counts.acc ≠ 0 then counts.hits / counts.acc else 0

section Store

variable {K : Type} [DecidableEq K]

/-- One access to an `OrderedDict`, the least recently used key first. -/
def useKey (cap : ℤ) (lru : List K) (k : K) : List K :=
  if k ∈ lru then lru.erase k ++ [k]
  else
    let lru := lru ++ [k]
    if (lru.length : ℤ) > cap then lru.tail else lru

/-- One access by the comparison of policies; without a slot nothing is kept. -/
def demandUse (slots : ℤ) (lru : List K) (k : K) : List K :=
  if k ∈ lru then lru.erase k ++ [k]
  else if slots > 0 then
    let lru := lru ++ [k]
    if (lru.length : ℤ) > slots then lru.tail else lru
  else lru

end Store

/-- An access to the one store. -/
def globalAccess (capSlices : ℤ) (counts : Counts (List (ℤ × ℤ))) (k : ℤ × ℤ) :
    Counts (List (ℤ × ℤ)) where
  store := useKey capSlices counts.store k
  hits := if k ∈ counts.store then counts.hits + 1 else counts.hits
  acc := counts.acc + 1

def runGlobal (rows : List TraceRow) (capSlices : ℤ) : Counts (List (ℤ × ℤ)) :=
  rows.foldl (fun counts row =>
    row.experts.foldl (fun counts e => globalAccess capSlices counts (row.lay, e)) counts)
    ⟨[], 0, 0⟩

/-- One store over every slice. -/
def replayGlobal (rows : List TraceRow) (capSlices : ℤ) : ℚ := (runGlobal rows capSlices).rate

/-- An access to the layer's store; a layer without one has an empty one. -/
def layerAccess (slotsPerLayer : ℤ) (counts : Counts (ℤ → List ℤ)) (lay e : ℤ) :
    Counts (ℤ → List ℤ) where
  store := Function.update counts.store lay (useKey slotsPerLayer (counts.store lay) e)
  hits := if e ∈ counts.store lay then counts.hits + 1 else counts.hits
  acc := counts.acc + 1

def runPerLayer (rows : List TraceRow) (slotsPerLayer : ℤ) : Counts (ℤ → List ℤ) :=
  rows.foldl (fun counts row =>
    row.experts.foldl (fun counts e => layerAccess slotsPerLayer counts row.lay e) counts)
    ⟨fun _ => [], 0, 0⟩

/-- One store a layer. -/
def replayPerLayer (rows : List TraceRow) (slotsPerLayer : ℤ) : ℚ :=
  (runPerLayer rows slotsPerLayer).rate

def demandAccess (slots : ℤ) (counts : Counts (ℤ → List ℤ)) (lk e : ℤ) :
    Counts (ℤ → List ℤ) where
  store := Function.update counts.store lk (demandUse slots (counts.store lk) e)
  hits := if e ∈ counts.store lk then counts.hits + 1 else counts.hits
  acc := counts.acc + 1

/-- The comparison's store a layer, over rows that carry no token. -/
def lruHitRate (rows : List (ℤ × List ℤ)) (slots : ℤ) : ℚ × ℕ × ℕ :=
  let counts := rows.foldl (fun counts row =>
    row.2.foldl (fun counts e => demandAccess slots counts row.1 e) counts)
    ⟨fun _ => [], 0, 0⟩
  (counts.rate, counts.hits, counts.acc)

/-! ## What the stores hold -/

theorem useKey_recency {K : Type} [DecidableEq K] (cap : ℤ) (past : List K) (k : K) :
    useKey cap ((recency past).take cap.toNat).reverse k =
      ((recency (past ++ [k])).take cap.toNat).reverse := by
  rw [take_recency_append]
  set kept := (recency past).take cap.toNat with hkept
  have hnodup : kept.Nodup := (nodup_recency past).sublist (List.take_sublist _ _)
  have hlength : kept.length ≤ cap.toNat := List.length_take_le _ _
  rw [useKey]
  by_cases hmem : k ∈ kept
  · have herase : kept.reverse.erase k = (kept.erase k).reverse := by
      rw [(List.nodup_reverse.mpr hnodup).erase_eq_filter, hnodup.erase_eq_filter,
        List.filter_reverse]
    have hfits : (touch kept k).length ≤ cap.toNat := by
      rw [touch, List.length_cons, List.length_erase_of_mem hmem]
      have := List.length_pos_of_mem hmem
      omega
    rw [if_pos (List.mem_reverse.mpr hmem), herase, List.take_of_length_le hfits, touch,
      List.reverse_cons]
  · have htouch : touch kept k = k :: kept := by rw [touch, List.erase_of_not_mem hmem]
    rw [if_neg (mt List.mem_reverse.mp hmem), htouch, ← List.reverse_cons]
    dsimp only
    rw [List.length_reverse, List.length_cons]
    by_cases hfull : ((kept.length + 1 : ℕ) : ℤ) > cap
    · have hcap : cap.toNat = kept.length := by omega
      rw [if_pos hfull, List.tail_reverse, hcap]
      congr 1
      rw [List.dropLast_eq_take, List.length_cons, Nat.add_sub_cancel]
    · rw [if_neg hfull, List.take_of_length_le (by rw [List.length_cons]; omega)]

/-- A store without a slot stays empty by either rule. -/
theorem demandUse_eq {K : Type} [DecidableEq K] {slots : ℤ} {lru : List K}
    (hlength : lru.length ≤ slots.toNat) (k : K) : demandUse slots lru k = useKey slots lru k := by
  rw [demandUse, useKey]
  by_cases hslots : slots > 0
  · rw [if_pos hslots]
  · have hempty : lru = [] := List.length_eq_zero_iff.mp (by omega)
    subst hempty
    have hfull : slots < 1 := by omega
    simp [hslots, hfull]

/-- The access finds its slice in the one store. -/
def HitsGlobal (capSlices : ℤ) (past : List (ℤ × ℤ)) (slice : ℤ × ℤ) : Prop :=
  slice ∈ past ∧ ((since slice past).toFinset.card : ℤ) < capSlices

/-- The access finds its slice in its layer's store. -/
def HitsPerLayer (slotsPerLayer : ℤ) (past : List (ℤ × ℤ)) (slice : ℤ × ℤ) : Prop :=
  slice ∈ past ∧
    (((since slice past).toFinset.filter (·.1 = slice.1)).card : ℤ) < slotsPerLayer

instance (cap : ℤ) (past : List (ℤ × ℤ)) : DecidablePred (HitsGlobal cap past) := fun _ =>
  inferInstanceAs (Decidable (_ ∧ _))

instance (cap : ℤ) (past : List (ℤ × ℤ)) : DecidablePred (HitsPerLayer cap past) := fun _ =>
  inferInstanceAs (Decidable (_ ∧ _))

theorem mem_store_iff {K : Type} [DecidableEq K] {cap : ℤ} {past : List K} {k : K} :
    k ∈ ((recency past).take cap.toNat).reverse ↔
      k ∈ past ∧ ((since k past).toFinset.card : ℤ) < cap := by
  rw [List.mem_reverse, mem_take_recency, Int.lt_toNat]

theorem hitsPerLayer_iff {slots : ℤ} {past : List (ℤ × ℤ)} {lay e : ℤ} :
    e ∈ ((recency (past.filterMap (part lay))).take slots.toNat).reverse ↔
      HitsPerLayer slots past (lay, e) := by
  have hcard : ((since (lay, e) past).filterMap (part lay)).toFinset.card =
      ((since (lay, e) past).toFinset.filter (·.1 = lay)).card := by
    have himage : ((since (lay, e) past).filterMap (part lay)).toFinset =
        ((since (lay, e) past).toFinset.filter (·.1 = lay)).image Prod.snd := by
      ext b
      simp only [List.mem_toFinset, List.mem_filterMap, part_eq_some, Finset.mem_image,
        Finset.mem_filter, exists_eq_right]
      constructor
      · exact fun h => ⟨(lay, b), ⟨h, rfl⟩, rfl⟩
      · rintro ⟨⟨l, b'⟩, ⟨h, rfl⟩, rfl⟩
        exact h
    rw [himage, Finset.card_image_of_injOn]
    intro a ha b hb hab
    rw [Finset.mem_coe, Finset.mem_filter] at ha hb
    exact Prod.ext (ha.2.trans hb.2.symm) hab
  rw [mem_store_iff, mem_filterMap_part,
    since_filterMap (part lay) (lay, e) e fun _ => part_eq_some, hcard]
  exact Iff.rfl

/-! ## What the replays count -/

/-- What the one store holds after a trace, and what has been counted. -/
def globalCounts (capSlices : ℤ) (trace : List (ℤ × ℤ)) : Counts (List (ℤ × ℤ)) where
  store := ((recency trace).take capSlices.toNat).reverse
  hits := countWith (HitsGlobal capSlices) trace
  acc := trace.length

/-- What the layers' stores hold after a trace, and what has been counted. -/
def layerCounts (slotsPerLayer : ℤ) (trace : List (ℤ × ℤ)) : Counts (ℤ → List ℤ) where
  store lay := ((recency (trace.filterMap (part lay))).take slotsPerLayer.toNat).reverse
  hits := countWith (HitsPerLayer slotsPerLayer) trace
  acc := trace.length

theorem hits_step {p q : Prop} [Decidable p] [Decidable q] (h : p ↔ q) (n : ℕ) :
    (if p then n + 1 else n) = n + if q then 1 else 0 := by
  by_cases hq : q
  · rw [if_pos (h.mpr hq), if_pos hq]
  · rw [if_neg (mt h.mp hq), if_neg hq, Nat.add_zero]

theorem globalAccess_counts (cap : ℤ) (past : List (ℤ × ℤ)) (k : ℤ × ℤ) :
    globalAccess cap (globalCounts cap past) k = globalCounts cap (past ++ [k]) := by
  refine Counts.ext ?_ ?_ ?_
  · exact useKey_recency cap past k
  · exact (hits_step mem_store_iff _).trans (countWith_append past k).symm
  · simp [globalAccess, globalCounts]

theorem layerAccess_counts (slots : ℤ) (past : List (ℤ × ℤ)) (lay e : ℤ) :
    layerAccess slots (layerCounts slots past) lay e = layerCounts slots (past ++ [(lay, e)]) := by
  refine Counts.ext ?_ ?_ ?_
  · funext l
    by_cases hl : l = lay
    · subst hl
      have hpart : [(l, e)].filterMap (part l) = [e] := by simp [part]
      simp only [layerAccess, Function.update_self, layerCounts, List.filterMap_append, hpart,
        useKey_recency]
    · have hpart : [(lay, e)].filterMap (part l) = [] := by simp [part, Ne.symm hl]
      simp only [layerAccess, Function.update_of_ne hl, layerCounts, List.filterMap_append, hpart,
        List.append_nil]
  · exact (hits_step hitsPerLayer_iff _).trans (countWith_append past (lay, e)).symm
  · simp [layerAccess, layerCounts]

theorem demandAccess_counts (slots : ℤ) (past : List (ℤ × ℤ)) (lay e : ℤ) :
    demandAccess slots (layerCounts slots past) lay e =
      layerCounts slots (past ++ [(lay, e)]) := by
  have hlength : ((layerCounts slots past).store lay).length ≤ slots.toNat := by
    rw [layerCounts, List.length_reverse]
    exact List.length_take_le _ _
  rw [← layerAccess_counts, demandAccess, layerAccess, demandUse_eq hlength]

/-- A count kept by every access is kept along the rows. -/
theorem foldl_rows {Store : Type} (access : Counts Store → ℤ → ℤ → Counts Store)
    (counts : List (ℤ × ℤ) → Counts Store)
    (hstep : ∀ past lay e, access (counts past) lay e = counts (past ++ [(lay, e)]))
    (rows : List TraceRow) (past : List (ℤ × ℤ)) :
    rows.foldl (fun c row => row.experts.foldl (fun c e => access c row.lay e) c) (counts past) =
      counts (past ++ accesses rows) := by
  have hrow : ∀ (lay : ℤ) (experts : List ℤ) (past : List (ℤ × ℤ)),
      experts.foldl (fun c e => access c lay e) (counts past) =
        counts (past ++ experts.map (lay, ·)) := by
    intro lay experts
    induction experts with
    | nil => intro past; simp
    | cons e experts ih => intro past; simp [hstep, ih]
  induction rows generalizing past with
  | nil => simp [accesses]
  | cons row rows ih => simp [accesses, hrow, ih]

theorem runGlobal_eq (rows : List TraceRow) (cap : ℤ) :
    runGlobal rows cap = globalCounts cap (accesses rows) := by
  have hinit : globalCounts cap [] = ⟨[], 0, 0⟩ := by
    simp [globalCounts, countWith, recency]
  rw [runGlobal, ← hinit]
  exact foldl_rows (fun c lay e => globalAccess cap c (lay, e)) (globalCounts cap)
    (fun past lay e => globalAccess_counts cap past (lay, e)) rows []

theorem layerCounts_nil (slots : ℤ) : layerCounts slots [] = ⟨fun _ => [], 0, 0⟩ := by
  simp [layerCounts, countWith, recency]

theorem runPerLayer_eq (rows : List TraceRow) (slots : ℤ) :
    runPerLayer rows slots = layerCounts slots (accesses rows) := by
  rw [runPerLayer, ← layerCounts_nil]
  exact foldl_rows (layerAccess slots) (layerCounts slots) (layerAccess_counts slots) rows []

/-- The two tools' stores a layer count the same. -/
theorem lruHitRate_eq (rows : List TraceRow) (slots : ℤ) :
    lruHitRate (rows.map fun row => (row.lay, row.experts)) slots =
      ((runPerLayer rows slots).rate, (runPerLayer rows slots).hits,
        (runPerLayer rows slots).acc) := by
  have hrun := foldl_rows (demandAccess slots) (layerCounts slots) (demandAccess_counts slots)
    rows []
  rw [List.nil_append, ← runPerLayer_eq, layerCounts_nil] at hrun
  simp only [lruHitRate, List.foldl_map, hrun]

theorem Counts.rate_eq {Store : Type} (counts : Counts Store) :
    counts.rate = counts.hits / counts.acc := by
  rw [rate]
  split
  · rfl
  · next h =>
    have hacc : counts.acc = 0 := not_not.mp h
    rw [hacc, Nat.cast_zero, div_zero]

/-- The accesses of a trace that are counted, as a fraction of all of them. -/
def reuseRate (found : List (ℤ × ℤ) → ℤ × ℤ → Prop) [∀ past, DecidablePred (found past)]
    (rows : List TraceRow) : ℚ :=
  countWith found (accesses rows) / (accesses rows).length

theorem replayGlobal_eq (rows : List TraceRow) (cap : ℤ) :
    replayGlobal rows cap = reuseRate (HitsGlobal cap) rows := by
  rw [replayGlobal, runGlobal_eq, Counts.rate_eq]
  rfl

theorem replayPerLayer_eq (rows : List TraceRow) (slots : ℤ) :
    replayPerLayer rows slots = reuseRate (HitsPerLayer slots) rows := by
  rw [replayPerLayer, runPerLayer_eq, Counts.rate_eq]
  rfl

/-- The three replays' rates are fractions of the trace's accesses, told by how many slices were
used since the last access to the same. -/
theorem replay_reuse (rows : List TraceRow) (cap : ℤ) :
    replayGlobal rows cap = reuseRate (HitsGlobal cap) rows ∧
      replayPerLayer rows cap = reuseRate (HitsPerLayer cap) rows ∧
      lruHitRate (rows.map fun row => (row.lay, row.experts)) cap =
        (reuseRate (HitsPerLayer cap) rows, countWith (HitsPerLayer cap) (accesses rows),
          (accesses rows).length) := by
  refine ⟨replayGlobal_eq rows cap, replayPerLayer_eq rows cap, ?_⟩
  rw [lruHitRate_eq, ← replayPerLayer_eq, replayPerLayer, runPerLayer_eq]
  rfl

/-! ## Capacities -/

section Rates

variable {found found' : List (ℤ × ℤ) → ℤ × ℤ → Prop} [∀ past, DecidablePred (found past)]
  [∀ past, DecidablePred (found' past)]

theorem reuseRate_le {rows : List TraceRow}
    (h : ∀ past slice, past ++ [slice] <+: accesses rows → found past slice → found' past slice) :
    reuseRate found rows ≤ reuseRate found' rows :=
  div_le_div_of_nonneg_right (Nat.cast_le.mpr (countWith_le h)) (Nat.cast_nonneg _)

/-- The fraction of the accesses that are not the first to their slice. -/
def compulsoryRate (rows : List TraceRow) : ℚ :=
  ((accesses rows).length - (accesses rows).toFinset.card) / (accesses rows).length

theorem reuseRate_mem (h : ∀ past slice, found past slice ↔ slice ∈ past) (rows : List TraceRow) :
    reuseRate found rows = compulsoryRate rows := by
  have hcount : (countWith found (accesses rows) : ℚ) + (accesses rows).toFinset.card =
      (accesses rows).length := by
    exact_mod_cast countWith_mem h (accesses rows)
  rw [reuseRate, compulsoryRate, eq_sub_of_add_eq hcount]

end Rates

theorem HitsGlobal.mono {cap cap' : ℤ} (hle : cap ≤ cap') {past : List (ℤ × ℤ)} {slice : ℤ × ℤ}
    (h : HitsGlobal cap past slice) : HitsGlobal cap' past slice := ⟨h.1, h.2.trans_le hle⟩

theorem HitsPerLayer.mono {slots slots' : ℤ} (hle : slots ≤ slots') {past : List (ℤ × ℤ)}
    {slice : ℤ × ℤ} (h : HitsPerLayer slots past slice) : HitsPerLayer slots' past slice :=
  ⟨h.1, h.2.trans_le hle⟩

/-- What other layers use stands in the way of the one store only. -/
theorem HitsGlobal.perLayer {cap : ℤ} {past : List (ℤ × ℤ)} {slice : ℤ × ℤ}
    (h : HitsGlobal cap past slice) : HitsPerLayer cap past slice :=
  ⟨h.1, (Nat.cast_le.mpr (Finset.card_filter_le _ _)).trans_lt h.2⟩

/-- The slices of a layer that a trace uses. -/
def usedOf (rows : List TraceRow) (lay : ℤ) : Finset (ℤ × ℤ) :=
  (accesses rows).toFinset.filter (·.1 = lay)

/-- With room for every slice of its layer, a slice that was used once is found. -/
theorem hitsPerLayer_of_mem {rows : List TraceRow} {slots : ℤ}
    (hroom : ∀ lay, ((usedOf rows lay).card : ℤ) ≤ slots) {past : List (ℤ × ℤ)} {slice : ℤ × ℤ}
    (hpast : past ++ [slice] <+: accesses rows) (h : slice ∈ past) :
    HitsPerLayer slots past slice := by
  refine ⟨h, lt_of_lt_of_le ?_ (hroom slice.1)⟩
  have hsub : past ⊆ accesses rows := fun a ha =>
    hpast.subset (List.mem_append_left _ ha)
  refine Nat.cast_lt.mpr (Finset.card_lt_card ⟨fun a ha => ?_, fun hall => ?_⟩)
  · rw [Finset.mem_filter, List.mem_toFinset] at ha
    rw [usedOf, Finset.mem_filter, List.mem_toFinset]
    exact ⟨hsub (mem_of_mem_since ha.1), ha.2⟩
  · have hself : slice ∈ usedOf rows slice.1 := by
      rw [usedOf, Finset.mem_filter, List.mem_toFinset]
      exact ⟨hsub h, rfl⟩
    have := hall hself
    rw [Finset.mem_filter, List.mem_toFinset] at this
    exact notMem_since this.1

theorem hitsGlobal_of_mem {rows : List TraceRow} {cap : ℤ}
    (hroom : ((accesses rows).toFinset.card : ℤ) ≤ cap) {past : List (ℤ × ℤ)} {slice : ℤ × ℤ}
    (hpast : past ++ [slice] <+: accesses rows) (h : slice ∈ past) :
    HitsGlobal cap past slice := by
  have hsub : past.toFinset ⊆ (accesses rows).toFinset := by
    intro a ha
    rw [List.mem_toFinset] at ha ⊢
    exact hpast.subset (List.mem_append_left _ ha)
  refine ⟨h, lt_of_lt_of_le (Nat.cast_lt.mpr ?_) hroom⟩
  exact (card_since_lt h).trans_le (Finset.card_le_card hsub)

/-- A larger store never hits less, and a store a layer never less than one store of its size for
all of them; no store does better than the compulsory misses allow, and one with room for all that
is used does as well. -/
theorem replay_capacity (rows : List TraceRow) :
    (∀ cap cap', cap ≤ cap' → replayGlobal rows cap ≤ replayGlobal rows cap') ∧
      (∀ slots slots', slots ≤ slots' → replayPerLayer rows slots ≤ replayPerLayer rows slots') ∧
      (∀ cap, replayGlobal rows cap ≤ replayPerLayer rows cap) ∧
      (∀ slots, replayPerLayer rows slots ≤ compulsoryRate rows) ∧
      (∀ cap : ℤ, (accesses rows).toFinset.card ≤ cap →
        replayGlobal rows cap = compulsoryRate rows) ∧
      ∀ slots : ℤ, (∀ lay, (usedOf rows lay).card ≤ slots) →
        replayPerLayer rows slots = compulsoryRate rows := by
  have hmem : reuseRate (fun past slice => slice ∈ past) rows = compulsoryRate rows :=
    reuseRate_mem (fun _ _ => Iff.rfl) rows
  simp only [replayGlobal_eq, replayPerLayer_eq]
  have hfloor : ∀ slots, reuseRate (HitsPerLayer slots) rows ≤ compulsoryRate rows := by
    intro slots
    rw [← hmem]
    exact reuseRate_le fun _ _ _ h => h.1
  have hdominates : ∀ cap, reuseRate (HitsGlobal cap) rows ≤ reuseRate (HitsPerLayer cap) rows :=
    fun cap => reuseRate_le fun _ _ _ h => h.perLayer
  refine ⟨fun cap cap' hle => reuseRate_le fun _ _ _ h => h.mono hle,
    fun slots slots' hle => reuseRate_le fun _ _ _ h => h.mono hle, hdominates, hfloor,
    fun cap hroom => ?_, fun slots hroom => ?_⟩
  · refine le_antisymm ((hdominates cap).trans (hfloor cap)) ?_
    rw [← hmem]
    exact reuseRate_le fun _ _ hpast h => hitsGlobal_of_mem hroom hpast h
  · refine le_antisymm (hfloor slots) ?_
    rw [← hmem]
    exact reuseRate_le fun _ _ hpast h => hitsPerLayer_of_mem hroom hpast h

end Arcint.Fill.Replay
