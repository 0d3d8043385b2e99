import Arcint.Fill.Partition
import Mathlib.Data.Set.Function
import Mathlib.Data.UInt

/-! # Resident sets and their slots

The plugin ranks pairs of machine words by a comparison of its own, cuts the ranking off at the
capacity and sorts what is left; the store writer sorts tuples of unbounded integers. A resident
expert's slot is found by a search in the sorted set.
-/

namespace Arcint.Fill

/-! ## The smallest ranks -/

section Smallest

variable {rank : ℕ → ℕ} {numExpert capacity : ℕ}

/-- The experts in the order of their ranks. -/
def rankedExperts (rank : ℕ → ℕ) (numExpert : ℕ) : List (ℕ × ℕ) :=
  ((List.range numExpert).map fun e => (rank e, e)).insertionSort RankOrder

theorem rankedExperts_perm :
    (rankedExperts rank numExpert).Perm ((List.range numExpert).map fun e => (rank e, e)) :=
  List.perm_insertionSort _ _

theorem rankedExperts_pairwise : (rankedExperts rank numExpert).Pairwise RankOrder := by
  have : Std.Total RankOrder := ⟨fun a b => by unfold RankOrder; omega⟩
  have : IsTrans (ℕ × ℕ) RankOrder := ⟨fun a b c => by unfold RankOrder; omega⟩
  exact List.pairwise_insertionSort RankOrder _

theorem mem_rankedExperts {pair : ℕ × ℕ} :
    pair ∈ rankedExperts rank numExpert ↔ pair.2 < numExpert ∧ pair = (rank pair.2, pair.2) := by
  rw [rankedExperts_perm.mem_iff]
  simp only [List.mem_map, List.mem_range]
  constructor
  · rintro ⟨e, he, rfl⟩
    exact ⟨he, rfl⟩
  · rintro ⟨he, hpair⟩
    exact ⟨pair.2, he, hpair.symm⟩

theorem mem_smallestRanked {e : ℕ} :
    e ∈ smallestRanked rank numExpert capacity ↔
      (rank e, e) ∈ (rankedExperts rank numExpert).take (min capacity numExpert) := by
  rw [smallestRanked, List.mem_insertionSort]
  constructor
  · intro he
    obtain ⟨pair, hpair, rfl⟩ := List.mem_map.mp he
    rwa [← (mem_rankedExperts.mp (List.mem_of_mem_take hpair)).2]
  · exact fun he => List.mem_map_of_mem (f := Prod.snd) he

theorem lt_of_mem_smallestRanked {e : ℕ} (h : e ∈ smallestRanked rank numExpert capacity) :
    e < numExpert :=
  (mem_rankedExperts.mp (List.mem_of_mem_take (mem_smallestRanked.mp h))).1

theorem smallestRanked_strict :
    (smallestRanked rank numExpert capacity).Pairwise (· < ·) :=
  ((smallestRanked_sorted rank numExpert capacity).and
    (smallestRanked_nodup rank numExpert capacity)).imp fun h => lt_of_le_of_ne h.1 h.2

/-- Whoever is left out ranks behind everyone who is in. -/
theorem rankOrder_of_smallest {a b : ℕ} (ha : a ∈ smallestRanked rank numExpert capacity)
    (hb : b < numExpert) (hout : b ∉ smallestRanked rank numExpert capacity) :
    RankOrder (rank a, a) (rank b, b) := by
  have hall : (rank b, b) ∈ rankedExperts rank numExpert := mem_rankedExperts.mpr ⟨hb, rfl⟩
  rw [mem_smallestRanked] at ha hout
  have hsorted : (rankedExperts rank numExpert).Pairwise RankOrder := rankedExperts_pairwise
  rw [← List.take_append_drop (min capacity numExpert) (rankedExperts rank numExpert)]
    at hall hsorted
  exact (List.pairwise_append.mp hsorted).2.2 _ ha _
    ((List.mem_append.mp hall).resolve_left hout)

/-- A larger capacity keeps everyone. -/
theorem smallestRanked_mono {larger : ℕ} (h : capacity ≤ larger) :
    smallestRanked rank numExpert capacity ⊆ smallestRanked rank numExpert larger := by
  intro e he
  rw [mem_smallestRanked] at he ⊢
  exact List.take_subset_take_left _ (min_le_min_right numExpert h) he

end Smallest

/-! ## The plugin's words -/

namespace Plugin

/-- The comparison of the plugin's sort. -/
def rankedBefore (a b : UInt64 × UInt32) : Bool :=
  if a.1 ≠ b.1 then a.1 < b.1 else a.2 < b.2

def staticPartitionRankKey (seed layerKey : UInt64) (expert : UInt32) : UInt64 :=
  let h := splitmix64 (seed ^^^ (layerKey * 0xD6E8FEB86659FD93))
  splitmix64 (h ^^^ expert.toUInt64)

/-- The pairs of rank and id, sorted; the loop over the ids counts to a word. -/
def ranked (seed layerKey : UInt64) (numExpert : ℕ) : List (UInt64 × UInt32) :=
  ((List.range (UInt32.ofNat numExpert).toNat).map fun e =>
    (staticPartitionRankKey seed layerKey (UInt32.ofNat e), UInt32.ofNat e)).insertionSort
      fun a b => rankedBefore b a = false

/-- The plugin's resident set, ascending. -/
def staticPartitionResidentExperts (seed layerKey : UInt64) (numExpert capacity : ℕ) :
    List UInt32 :=
  let n := min capacity numExpert
  (((ranked seed layerKey numExpert).take n).map Prod.snd).insertionSort (· ≤ ·)

/-- The first place whose element is not less. -/
def lowerBound (sorted : List UInt32) (expert : UInt32) : ℕ := sorted.findIdx fun e => !(e < expert)

/-- The place of a resident expert, and the number of them for any other. -/
def staticPartitionSlotOf (residentExpertsSorted : List UInt32) (expert : UInt32) : ℕ :=
  let it := lowerBound residentExpertsSorted expert
  if residentExpertsSorted[it]? = some expert then it else residentExpertsSorted.length

/-! ### Slots -/

section Slots

variable {sorted : List UInt32} (hsorted : sorted.Pairwise (· < ·))

include hsorted

theorem lowerBound_getElem {i : ℕ} (hi : i < sorted.length) :
    lowerBound sorted sorted[i] = i := by
  refine (List.findIdx_eq hi).mpr ⟨by simp, fun j hj => ?_⟩
  have hlt := List.pairwise_iff_getElem.mp hsorted j i (hj.trans hi) hi hj
  simpa using hlt

theorem staticPartitionSlotOf_getElem {i : ℕ} (hi : i < sorted.length) :
    staticPartitionSlotOf sorted sorted[i] = i := by
  simp only [staticPartitionSlotOf, lowerBound_getElem hsorted hi]
  rw [if_pos (List.getElem?_eq_getElem hi)]

/-- The members fill the slots, one each. -/
theorem staticPartitionSlotOf_bijOn :
    Set.BijOn (staticPartitionSlotOf sorted) {e | e ∈ sorted} (Set.Iio sorted.length) := by
  refine ⟨?_, ?_, ?_⟩
  · intro e he
    obtain ⟨i, hi, rfl⟩ := List.mem_iff_getElem.mp he
    rwa [staticPartitionSlotOf_getElem hsorted hi]
  · intro e he e' he' h
    obtain ⟨i, hi, rfl⟩ := List.mem_iff_getElem.mp he
    obtain ⟨j, hj, rfl⟩ := List.mem_iff_getElem.mp he'
    rw [staticPartitionSlotOf_getElem hsorted hi, staticPartitionSlotOf_getElem hsorted hj] at h
    subst h
    rfl
  · intro i hi
    exact ⟨sorted[i], List.getElem_mem hi, staticPartitionSlotOf_getElem hsorted hi⟩

end Slots

theorem staticPartitionSlotOf_of_not_mem {sorted : List UInt32} {e : UInt32} (h : e ∉ sorted) :
    staticPartitionSlotOf sorted e = sorted.length := by
  simp only [staticPartitionSlotOf]
  exact if_neg fun hmem => h (List.mem_of_getElem? hmem)

/-! ### Words and integers -/

theorem rankedBefore_eq_false {a b : UInt64 × UInt32} :
    rankedBefore b a = false ↔
      RankOrder (a.1.toNat, a.2.toNat) (b.1.toNat, b.2.toNat) := by
  unfold rankedBefore RankOrder
  have hfirst : b.1 = a.1 ↔ a.1.toNat = b.1.toNat := by rw [eq_comm, UInt64.toNat_inj]
  split
  next hne =>
    rw [ne_eq, hfirst] at hne
    simp only [decide_eq_false_iff_not, UInt64.lt_iff_toNat_lt]
    omega
  next heq =>
    rw [ne_eq, not_not, hfirst] at heq
    simp only [decide_eq_false_iff_not, UInt32.lt_iff_toNat_lt]
    omega

theorem staticPartitionRankKey_eq (seed layerKey : UInt64) {e : ℕ} (he : e < 2 ^ 32) :
    staticPartitionRankKey seed layerKey (UInt32.ofNat e) =
      Fill.staticPartitionRankKey seed layerKey.toNat e := by
  have hexpert : (UInt32.ofNat e).toUInt64 = UInt64.ofNat e := by
    apply UInt64.toNat_inj.mp
    simp
    omega
  simp [staticPartitionRankKey, Fill.staticPartitionRankKey, hexpert]

theorem toNat_ofNat {n : ℕ} (h : n < 2 ^ 32) : (UInt32.ofNat n).toNat = n := by
  rw [UInt32.toNat_ofNat', Nat.mod_eq_of_lt h]

/-- A pair of words, as integers. -/
def toNatPair (pair : UInt64 × UInt32) : ℕ × ℕ := (pair.1.toNat, pair.2.toNat)

theorem map_toNatPair_ranked (seed layerKey : UInt64) {numExpert : ℕ}
    (hcount : numExpert < 2 ^ 32) :
    (ranked seed layerKey numExpert).map toNatPair =
      rankedExperts (fun e => (Fill.staticPartitionRankKey seed layerKey.toNat e).toNat)
        numExpert := by
  have hsort := List.map_insertionSort (fun a b => rankedBefore b a = false) RankOrder toNatPair
    ((List.range numExpert).map fun e =>
      (staticPartitionRankKey seed layerKey (UInt32.ofNat e), UInt32.ofNat e))
    fun a _ b _ => rankedBefore_eq_false
  rw [ranked, toNat_ofNat hcount, hsort, List.map_map, rankedExperts]
  refine congrArg (List.insertionSort RankOrder) (List.map_congr_left fun e he => ?_)
  have hlt : e < 2 ^ 32 := (List.mem_range.mp he).trans hcount
  rw [Function.comp_apply, toNatPair, staticPartitionRankKey_eq seed layerKey hlt,
    toNat_ofNat hlt]

/-- The plugin's words are the ids of the smallest ranks. -/
theorem map_toNat_staticPartitionResidentExperts (seed layerKey : UInt64) {numExpert : ℕ}
    (hcount : numExpert < 2 ^ 32) (capacity : ℕ) :
    (staticPartitionResidentExperts seed layerKey numExpert capacity).map UInt32.toNat =
      Fill.staticPartitionResidentExperts seed layerKey.toNat numExpert capacity := by
  have hsnd : UInt32.toNat ∘ Prod.snd = Prod.snd ∘ toNatPair := rfl
  simp only [staticPartitionResidentExperts, Fill.staticPartitionResidentExperts, smallestRanked]
  rw [List.map_insertionSort (s := (· ≤ ·)) _ UInt32.toNat _ fun a _ b _ => UInt32.le_iff_toNat_le,
    List.map_map, hsnd, ← List.map_map, List.map_take, map_toNatPair_ranked seed layerKey hcount]
  rfl

section Residents

variable {seed layerKey : UInt64} {numExpert capacity : ℕ} (hcount : numExpert < 2 ^ 32)

include hcount

theorem mem_residentExperts {e : UInt32} :
    e ∈ staticPartitionResidentExperts seed layerKey numExpert capacity ↔
      e.toNat ∈ Fill.staticPartitionResidentExperts seed layerKey.toNat numExpert capacity := by
  rw [← map_toNat_staticPartitionResidentExperts seed layerKey hcount capacity,
    List.mem_map_of_injective fun _ _ => UInt32.toNat_inj.mp]

theorem residentExperts_strict :
    (staticPartitionResidentExperts seed layerKey numExpert capacity).Pairwise (· < ·) := by
  have hsorted : (Fill.staticPartitionResidentExperts seed layerKey.toNat numExpert
      capacity).Pairwise (· < ·) := smallestRanked_strict
  rw [← map_toNat_staticPartitionResidentExperts seed layerKey hcount capacity,
    List.pairwise_map] at hsorted
  exact hsorted.imp UInt32.lt_iff_toNat_lt.mpr

end Residents

/-- What a resident set is: the smallest ranks under their ids, in slots of their own. -/
structure ResidentSet (seed layerKey : UInt64) (numExpert capacity : ℕ) (resident : List UInt32) :
    Prop where
  increasing : resident.Pairwise (· < ·)
  count : resident.length = min capacity numExpert
  below : ∀ e ∈ resident, e.toNat < numExpert
  smallest : ∀ a ∈ resident, ∀ b : UInt32, b.toNat < numExpert → b ∉ resident →
    rankedBefore (staticPartitionRankKey seed layerKey a, a)
      (staticPartitionRankKey seed layerKey b, b)
  slots : Set.BijOn (staticPartitionSlotOf resident) {e | e ∈ resident} (Set.Iio resident.length)
  others : ∀ e ∉ resident, staticPartitionSlotOf resident e = resident.length

/-- Writer and plugin hold the same experts resident, the plugin in one slot each. -/
theorem residentExperts_agree (seed layerKey : UInt64) {numExpert : ℕ}
    (hcount : numExpert < 2 ^ 32) (capacity : ℕ) :
    (staticPartitionResidentExperts seed layerKey numExpert capacity).map UInt32.toNat =
        Store.staticPartitionResidentExperts seed.toNat layerKey.toNat numExpert capacity ∧
      ResidentSet seed layerKey numExpert capacity
        (staticPartitionResidentExperts seed layerKey numExpert capacity) ∧
      ∀ larger, capacity ≤ larger →
        staticPartitionResidentExperts seed layerKey numExpert capacity ⊆
          staticPartitionResidentExperts seed layerKey numExpert larger := by
  have hwords := map_toNat_staticPartitionResidentExperts seed layerKey hcount capacity
  have hincreasing : (staticPartitionResidentExperts seed layerKey numExpert
      capacity).Pairwise (· < ·) := residentExperts_strict hcount
  refine ⟨hwords.trans (staticPartitionResidentExperts_eq _ _ _ _ hcount.le), ?_, ?_⟩
  · refine
      { increasing := hincreasing
        count := ?_
        below := fun e he => lt_of_mem_smallestRanked ((mem_residentExperts hcount).mp he)
        smallest := ?_
        slots := staticPartitionSlotOf_bijOn hincreasing
        others := fun e => staticPartitionSlotOf_of_not_mem }
    · rw [← List.length_map (f := UInt32.toNat), hwords]
      exact smallestRanked_length _ _ _
    · intro a ha b hb hout
      have hab : a ≠ b := fun heq => hout (heq ▸ ha)
      rw [mem_residentExperts hcount] at ha hout
      have horder := rankOrder_of_smallest ha hb hout
      rw [← staticPartitionRankKey_eq seed layerKey (a.toNat_lt), UInt32.ofNat_toNat,
        ← staticPartitionRankKey_eq seed layerKey (b.toNat_lt), UInt32.ofNat_toNat] at horder
      rw [← Bool.not_eq_false, rankedBefore_eq_false]
      rw [← UInt32.toNat_inj.ne] at hab
      simp only [RankOrder] at horder ⊢
      omega
  · intro larger hlarger e he
    rw [mem_residentExperts hcount] at he ⊢
    exact smallestRanked_mono hlarger he

theorem residentExperts_agree_two :
    (staticPartitionResidentExperts 7 3 4 2).map UInt32.toNat =
        Store.staticPartitionResidentExperts (7 : UInt64).toNat (3 : UInt64).toNat 4 2 ∧
      ResidentSet 7 3 4 2 (staticPartitionResidentExperts 7 3 4 2) ∧
      ∀ larger, 2 ≤ larger →
        staticPartitionResidentExperts 7 3 4 2 ⊆ staticPartitionResidentExperts 7 3 4 larger :=
  residentExperts_agree 7 3 (by decide) 2

end Plugin

end Arcint.Fill
