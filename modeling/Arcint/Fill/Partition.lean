import Mathlib.Data.List.Sort
import Mathlib.Data.List.Nodup
import Mathlib.Data.Prod.Lex
import Mathlib.Algebra.Ring.Nat

/-! # The static partition

The resident set of a layer without a census: the experts with the smallest
`splitmix64` rank, in ascending order. The plugin computes it on 64-bit words,
the store writer on unbounded integers under a mask; both name the same experts.
-/

namespace Arcint.Fill

def splitmix64 (x : UInt64) : UInt64 :=
  let x := x + 0x9E3779B97F4A7C15
  let z := (x ^^^ (x >>> 30)) * 0xBF58476D1CE4E5B9
  let z := (z ^^^ (z >>> 27)) * 0x94D049BB133111EB
  z ^^^ (z >>> 31)

def staticPartitionRankKey (seed : UInt64) (layerKey expert : Nat) : UInt64 :=
  let h := splitmix64 (seed ^^^ (UInt64.ofNat layerKey * 0xD6E8FEB86659FD93))
  splitmix64 (h ^^^ UInt64.ofNat expert)

/-- Rank first, expert id among equals. -/
def RankOrder (a b : Nat × Nat) : Prop := a.1 < b.1 ∨ a.1 = b.1 ∧ a.2 ≤ b.2

instance : DecidableRel RankOrder := fun a b =>
  inferInstanceAs (Decidable (a.1 < b.1 ∨ a.1 = b.1 ∧ a.2 ≤ b.2))

/-- The `min capacity numExpert` experts of the smallest rank, ascending. -/
def smallestRanked (rank : Nat → Nat) (numExpert capacity : Nat) : List Nat :=
  let ranked := ((List.range numExpert).map fun e => (rank e, e)).insertionSort RankOrder
  ((ranked.take (min capacity numExpert)).map Prod.snd).insertionSort (· ≤ ·)

/-- The plugin's resident set. -/
def staticPartitionResidentExperts (seed : UInt64) (layerKey numExpert capacity : Nat) :
    List Nat :=
  smallestRanked (fun e => (staticPartitionRankKey seed layerKey e).toNat) numExpert capacity

namespace Store

/-- The writer's transcription, masked to 64 bits after every operation. -/
def splitmix64 (x : Nat) : Nat :=
  let x := (x + 0x9E3779B97F4A7C15) % 2 ^ 64
  let z := ((x ^^^ (x >>> 30)) * 0xBF58476D1CE4E5B9) % 2 ^ 64
  let z := ((z ^^^ (z >>> 27)) * 0x94D049BB133111EB) % 2 ^ 64
  (z ^^^ (z >>> 31)) % 2 ^ 64

/-- The writer's resident set. -/
def staticPartitionResidentExperts (seed layerKey numExpert capacity : Nat) : List Nat :=
  let key := (layerKey * 0xD6E8FEB86659FD93) % 2 ^ 64
  smallestRanked (fun e => splitmix64 (splitmix64 ((seed ^^^ key) % 2 ^ 64) ^^^ e))
    numExpert capacity

end Store

theorem splitmix64_toNat (x : UInt64) : (splitmix64 x).toNat = Store.splitmix64 x.toNat := by
  have hlast : (splitmix64 x).toNat % 2 ^ 64 = (splitmix64 x).toNat :=
    Nat.mod_eq_of_lt (splitmix64 x).toNat_lt
  rw [← hlast]
  simp [splitmix64, Store.splitmix64]

theorem smallestRanked_sorted (rank : Nat → Nat) (numExpert capacity : Nat) :
    (smallestRanked rank numExpert capacity).Pairwise (· ≤ ·) :=
  List.pairwise_insertionSort _ _

theorem smallestRanked_length (rank : Nat → Nat) (numExpert capacity : Nat) :
    (smallestRanked rank numExpert capacity).length = min capacity numExpert := by
  simp [smallestRanked]

theorem smallestRanked_nodup (rank : Nat → Nat) (numExpert capacity : Nat) :
    (smallestRanked rank numExpert capacity).Nodup := by
  unfold smallestRanked
  rw [(List.perm_insertionSort _ _).nodup_iff]
  -- the ids before the cut are those of the whole range, in rank order
  have hall : ((((List.range numExpert).map fun e => (rank e, e)).insertionSort RankOrder).map
      Prod.snd).Nodup := by
    rw [((List.perm_insertionSort _ _).map Prod.snd).nodup_iff, List.map_map]
    have hids : (Prod.snd ∘ fun e => (rank e, e)) = id := rfl
    rw [hids, List.map_id]
    exact List.nodup_range
  rw [List.map_take]
  exact hall.take

/-- Both sides name the same experts for the same seed. -/
theorem staticPartitionResidentExperts_eq (seed : UInt64) (layerKey numExpert capacity : Nat)
    (hcount : numExpert ≤ 2 ^ 32) :
    staticPartitionResidentExperts seed layerKey numExpert capacity =
      Store.staticPartitionResidentExperts seed.toNat layerKey numExpert capacity := by
  unfold staticPartitionResidentExperts Store.staticPartitionResidentExperts smallestRanked
  have hrank : ∀ e ∈ List.range numExpert,
      (fun e => ((staticPartitionRankKey seed layerKey e).toNat, e)) e =
        (fun e => (Store.splitmix64 (Store.splitmix64
          ((seed.toNat ^^^ (layerKey * 0xD6E8FEB86659FD93) % 2 ^ 64) % 2 ^ 64) ^^^ e), e)) e := by
    intro e he
    have hexpert : e % 2 ^ 64 = e := by
      apply Nat.mod_eq_of_lt
      have := List.mem_range.mp he
      omega
    have hkey : (seed ^^^ (UInt64.ofNat layerKey * 0xD6E8FEB86659FD93)).toNat =
        (seed.toNat ^^^ (layerKey * 0xD6E8FEB86659FD93) % 2 ^ 64) % 2 ^ 64 := by
      rw [← Nat.mod_eq_of_lt (seed ^^^ (UInt64.ofNat layerKey * 0xD6E8FEB86659FD93)).toNat_lt]
      simp
    simp only [staticPartitionRankKey, splitmix64_toNat, UInt64.toNat_xor, UInt64.toNat_ofNat']
    rw [hexpert, ← UInt64.toNat_xor, hkey]
  rw [List.map_congr_left hrank]

end Arcint.Fill
