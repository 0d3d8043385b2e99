import Arcint.Ngram.Primes

/-! # Derived hash constants

The multipliers and head sizes a layer has when no checkpoint gives them, and the rows a table
needs for them. The heads of all layers take consecutive primes, so a later layer's rows reach
further, and a table that holds the last layer's rows holds every layer's.
-/

namespace Arcint.Ngram

open Foundation

def kSplitmixGamma : BitVec 64 := 0x9E3779B97F4A7C15#64

def kSplitmixM1 : BitVec 64 := 0xBF58476D1CE4E5B9#64

def kSplitmixM2 : BitVec 64 := 0x94D049BB133111EB#64

def kPleLayerPrime : Int := 10007

def splitmix64 (value : BitVec 64) : BitVec 64 :=
  let value := value + kSplitmixGamma
  let value := (value ^^^ (value >>> 30)) * kSplitmixM1
  let value := (value ^^^ (value >>> 27)) * kSplitmixM2
  value ^^^ (value >>> 31)

def halfBound (vocabSize : Int) : Int :=
  max 1 (((2 ^ 63 - 1 : Int).tdiv (max vocabSize 1)).tdiv 2)

def baseSeed (pleLayerIndex seed : Int) : BitVec 64 :=
  BitVec.ofInt 64 seed + BitVec.ofInt 64 kPleLayerPrime * BitVec.ofInt 64 pleLayerIndex

/-- The multiplier of position `i`. -/
def layerMultiplier (vocabSize pleLayerIndex seed : Int) (i : Nat) : Int :=
  let mixed := splitmix64 (baseSeed pleLayerIndex seed + kSplitmixGamma * BitVec.ofNat 64 (i + 1))
  2 * (mixed % BitVec.ofInt 64 (halfBound vocabSize)).toInt + 1

/-- The head loop: a prime for each head, and the total before it as its offset. -/
def headBuffers (base firstHead : Int) : List Nat → Int → List Int × List Int
  | [], _ => ([], [])
  | head :: heads, total =>
      let globalHead := firstHead + head
      let size := nthPrimeAfter (base - 1) (globalHead + 1).toNat
      let (sizes, offsets) := headBuffers base firstHead heads (total + size)
      (size :: sizes, total :: offsets)

def deriveHashConstants (vocabSize ngramSize headsPerNgram ngramVocabSizeBase pleLayerIndex seed :
    Int) : HashParams :=
  let numHeads := (ngramSize - 1) * headsPerNgram
  let buffers := headBuffers ngramVocabSizeBase (pleLayerIndex * numHeads)
    (List.range numHeads.toNat) 0
  { ngramSize, headsPerNgram
    eosTokenId := 0
    layerMultipliers :=
      (List.range ngramSize.toNat).map (layerMultiplier vocabSize pleLayerIndex seed)
    ngramHeadsVocabSizes := buffers.1
    ngramHeadsOffsets := buffers.2 }

/-- The end of the last head's range in the last layer. -/
def ngramRequiredRows (vocabSize ngramSize headsPerNgram ngramVocabSizeBase numPleLayers : Int) :
    Int :=
  let last := max 0 (numPleLayers - 1)
  let p := deriveHashConstants vocabSize ngramSize headsPerNgram ngramVocabSizeBase last 1234
  p.ngramHeadsOffsets.getLastD 0 + p.ngramHeadsVocabSizes.getLastD 0

/-! ## The multipliers -/

section Multipliers

variable {vocabSize : Int}

theorem halfBound_bounds (hvocab : 1 ≤ vocabSize) :
    1 ≤ halfBound vocabSize ∧ halfBound vocabSize ≤ 2 ^ 62 ∧
      (halfBound vocabSize = 1 ∨ 2 * halfBound vocabSize * vocabSize < 2 ^ 63) := by
  have hmax : max vocabSize 1 = vocabSize := max_eq_left hvocab
  have hquotient : 0 ≤ (2 ^ 63 - 1 : Int) / vocabSize := Int.ediv_nonneg (by decide) (by omega)
  have hproduct := Int.ediv_mul_le (2 ^ 63 - 1 : Int) (show vocabSize ≠ 0 by omega)
  have hle : (2 ^ 63 - 1 : Int) / vocabSize ≤ 2 ^ 63 - 1 :=
    Int.ediv_le_self _ (by decide)
  have hdef : halfBound vocabSize = max 1 ((2 ^ 63 - 1 : Int) / vocabSize / 2) := by
    unfold halfBound
    rw [hmax, Int.tdiv_eq_ediv_of_nonneg (show (0 : Int) ≤ 2 ^ 63 - 1 by decide),
      Int.tdiv_eq_ediv_of_nonneg hquotient]
  rw [hdef]
  refine ⟨le_max_left _ _, max_le (by decide) (by omega), ?_⟩
  rcases max_choice (1 : Int) ((2 ^ 63 - 1 : Int) / vocabSize / 2) with hone | hhalf
  · exact Or.inl hone
  · right
    rw [hhalf]
    have hdouble : 2 * ((2 ^ 63 - 1 : Int) / vocabSize / 2) ≤ (2 ^ 63 - 1 : Int) / vocabSize := by
      omega
    have hmul := Int.mul_le_mul_of_nonneg_right hdouble (show 0 ≤ vocabSize by omega)
    omega

/-- A multiplier is odd, and no token times it reaches `2 ^ 63`. -/
theorem layerMultiplier_bounds (hvocab : 1 ≤ vocabSize) (hword : vocabSize < 2 ^ 63)
    (pleLayerIndex seed : Int) (i : Nat) :
    Odd (layerMultiplier vocabSize pleLayerIndex seed i) ∧
      0 < layerMultiplier vocabSize pleLayerIndex seed i ∧
      ∀ token, 0 ≤ token → token < vocabSize →
        token * layerMultiplier vocabSize pleLayerIndex seed i < 2 ^ 63 := by
  obtain ⟨hone, hhigh, hsmall⟩ := halfBound_bounds hvocab
  let mixed := splitmix64
    (baseSeed pleLayerIndex seed + kSplitmixGamma * BitVec.ofNat 64 (i + 1))
  have hbound : (BitVec.ofInt 64 (halfBound vocabSize)).toNat = (halfBound vocabSize).toNat := by
    rw [BitVec.toNat_ofInt]
    omega
  have hlt : (mixed % BitVec.ofInt 64 (halfBound vocabSize)).toNat <
      (halfBound vocabSize).toNat := by
    rw [BitVec.toNat_umod, hbound]
    exact Nat.mod_lt _ (by omega)
  obtain ⟨r, hr, hrlt⟩ : ∃ r : Nat, layerMultiplier vocabSize pleLayerIndex seed i = 2 * r + 1 ∧
      (r : Int) < halfBound vocabSize := by
    refine ⟨(mixed % BitVec.ofInt 64 (halfBound vocabSize)).toNat, ?_, by omega⟩
    unfold layerMultiplier
    dsimp only
    rw [BitVec.toInt_eq_toNat_of_lt]
    change 2 * (mixed % BitVec.ofInt 64 (halfBound vocabSize)).toNat < 2 ^ 64
    omega
  rw [hr]
  refine ⟨⟨r, rfl⟩, by omega, ?_⟩
  intro token hnonneg htoken
  rcases hsmall with hleast | hproduct
  · -- a vocabulary of more than half the words leaves the multiplier 1
    have hzero : (r : Int) = 0 := by omega
    rw [hzero]
    omega
  · have hfactor : 2 * (r : Int) + 1 ≤ 2 * halfBound vocabSize := by omega
    calc token * (2 * (r : Int) + 1)
        ≤ token * (2 * halfBound vocabSize) := Int.mul_le_mul_of_nonneg_left hfactor hnonneg
      _ ≤ vocabSize * (2 * halfBound vocabSize) :=
          Int.mul_le_mul_of_nonneg_right htoken.le (by omega)
      _ < 2 ^ 63 := by rwa [Int.mul_comm]

end Multipliers

/-! ## The heads -/

section Heads

variable {base : Nat} {first : Nat}

/-- The rows of `count` heads from `first` on, numbered over all layers. -/
noncomputable def bandRows (base first count : Nat) : Nat :=
  ((List.range count).map fun head => basePrime base (first + head)).sum

theorem basePrime_le_bandRows {count head : Nat} (hhead : head < count) :
    basePrime base (first + head) ≤ bandRows base first count :=
  List.single_le_sum (fun _ _ => Nat.zero_le _) _
    (List.mem_map.mpr ⟨head, List.mem_range.mpr hhead, rfl⟩)

/-- Later heads have larger sizes. -/
theorem bandRows_mono {later : Nat} (hle : first ≤ later) (count : Nat) :
    bandRows base first count ≤ bandRows base later count :=
  List.sum_le_sum fun head _ =>
    (basePrime_strictMono base).monotone (Nat.add_le_add_right hle head)

/-- The head loop gives the primes in order, laid end to end. -/
theorem headBuffers_eq (hbase : 2 ≤ base) {heads : List Nat}
    (hfits : ∀ head ∈ heads, basePrime base (first + head) < 2 ^ 63) (total : Int) :
    (headBuffers base first heads total).1 =
        heads.map (fun head => (basePrime base (first + head) : Int)) ∧
      (headBuffers base first heads total).2.length = heads.length ∧
      Laid total ((headBuffers base first heads total).2.zip (headBuffers base first heads total).1)
        (total + ((heads.map fun head => basePrime base (first + head)).sum : Nat)) := by
  induction heads generalizing total with
  | nil => simp [headBuffers, Laid]
  | cons head heads ih =>
      have hsize : nthPrimeAfter ((base : Int) - 1) ((first : Int) + head + 1).toNat =
          basePrime base (first + head) := by
        have hindex : ((first : Int) + head + 1).toNat = first + head + 1 := by omega
        rw [hindex]
        exact nthPrimeAfter_eq hbase (hfits head List.mem_cons_self)
      obtain ⟨hsizes, hlength, hlaid⟩ :=
        ih (fun h hh => hfits h (List.mem_cons_of_mem _ hh)) (total + basePrime base (first + head))
      refine ⟨?_, ?_, ?_⟩
      · simp [headBuffers, hsize, hsizes]
      · simp [headBuffers, hsize, hlength]
      · rw [List.map_cons, List.sum_cons, Nat.cast_add, ← Int.add_assoc]
        simp only [headBuffers, hsize, List.zip_cons_cons]
        exact ⟨rfl, hlaid⟩

end Heads

/-! ## A layer's constants -/

section Layers

variable {vocabSize ngramSize headsPerNgram base layer seed : Int}

/-- The number of heads of a layer. -/
def layerHeads (ngramSize headsPerNgram : Int) : Nat := ((ngramSize - 1) * headsPerNgram).toNat

/-- The size of head `head` of a layer: the primes go on from layer to layer. -/
noncomputable def headSize (ngramSize headsPerNgram base layer : Int) (head : Nat) : Nat :=
  basePrime base.toNat (layer.toNat * layerHeads ngramSize headsPerNgram + head)

/-- The rows of a layer. -/
noncomputable def layerRows (ngramSize headsPerNgram base layer : Int) : Nat :=
  bandRows base.toNat (layer.toNat * layerHeads ngramSize headsPerNgram)
    (layerHeads ngramSize headsPerNgram)

theorem layerHeads_pos (hngram : 2 ≤ ngramSize) (hheads : 1 ≤ headsPerNgram) :
    0 < layerHeads ngramSize headsPerNgram := by
  have hpos : 0 < (ngramSize - 1) * headsPerNgram := Int.mul_pos (by omega) (by omega)
  unfold layerHeads
  omega

/-- A layer's rows are no more than a later layer's. -/
theorem layerRows_mono {last : Int} (hle : layer ≤ last) :
    layerRows ngramSize headsPerNgram base layer ≤ layerRows ngramSize headsPerNgram base last :=
  bandRows_mono (Nat.mul_le_mul_right _ (Int.toNat_le_toNat hle)) _

/-- What is derived for a layer whose rows are counted in int64. -/
theorem deriveHashConstants_heads (vocabSize seed : Int) (hngram : 2 ≤ ngramSize)
    (hheads : 1 ≤ headsPerNgram) (hbase : 2 ≤ base) (hlayer : 0 ≤ layer)
    (hfits : layerRows ngramSize headsPerNgram base layer < 2 ^ 63) :
    let p := deriveHashConstants vocabSize ngramSize headsPerNgram base layer seed
    p.ngramHeadsVocabSizes = (List.range (layerHeads ngramSize headsPerNgram)).map
        (fun head => (headSize ngramSize headsPerNgram base layer head : Int)) ∧
      p.ngramHeadsOffsets.length = layerHeads ngramSize headsPerNgram ∧
      Laid 0 p.heads (layerRows ngramSize headsPerNgram base layer) := by
  have hpos := layerHeads_pos hngram hheads
  have hfirst : layer * ((ngramSize - 1) * headsPerNgram) =
      ((layer.toNat * layerHeads ngramSize headsPerNgram : Nat) : Int) := by
    rw [Nat.cast_mul]
    unfold layerHeads at hpos ⊢
    congr 1 <;> omega
  have hsmall : ∀ head ∈ List.range (layerHeads ngramSize headsPerNgram),
      basePrime base.toNat (layer.toNat * layerHeads ngramSize headsPerNgram + head) < 2 ^ 63 :=
    fun head hhead => (basePrime_le_bandRows (List.mem_range.mp hhead)).trans_lt hfits
  have hbuffers := headBuffers_eq (by omega) hsmall 0
  rw [Int.toNat_of_nonneg (by omega), ← hfirst, Int.zero_add, List.length_range] at hbuffers
  exact hbuffers

/-- The head sizes of different layers have no prime in common. -/
theorem headSize_ne {other : Int} (hother : 0 ≤ other) (hlt : other < layer) {head head' : Nat}
    (hhead : head < layerHeads ngramSize headsPerNgram) :
    headSize ngramSize headsPerNgram base other head ≠
      headSize ngramSize headsPerNgram base layer head' := by
  apply ne_of_lt
  apply basePrime_strictMono
  have hnext : other.toNat + 1 ≤ layer.toNat := by omega
  have hband := Nat.mul_le_mul_right (layerHeads ngramSize headsPerNgram) hnext
  rw [Nat.succ_mul] at hband
  omega

/-- The required rows are those of the last layer. -/
theorem ngramRequiredRows_eq {numPleLayers : Int} (hngram : 2 ≤ ngramSize)
    (hheads : 1 ≤ headsPerNgram) (hbase : 2 ≤ base) (hlayers : 0 < numPleLayers)
    (hfits : layerRows ngramSize headsPerNgram base (numPleLayers - 1) < 2 ^ 63) :
    ngramRequiredRows vocabSize ngramSize headsPerNgram base numPleLayers =
      layerRows ngramSize headsPerNgram base (numPleLayers - 1) := by
  have hlast : max 0 (numPleLayers - 1) = numPleLayers - 1 := by omega
  obtain ⟨hsizes, hoffsets, hlaid⟩ := deriveHashConstants_heads vocabSize 1234 hngram hheads
    hbase (show 0 ≤ numPleLayers - 1 by omega) hfits
  unfold ngramRequiredRows
  dsimp only
  rw [hlast]
  generalize deriveHashConstants vocabSize ngramSize headsPerNgram base (numPleLayers - 1) 1234 = p
    at hsizes hoffsets hlaid ⊢
  have hpos := layerHeads_pos hngram hheads
  have hlength : p.heads.length = layerHeads ngramSize headsPerNgram := by
    simp [HashParams.heads, hoffsets, hsizes]
  obtain ⟨head, hhead, hends⟩ := hlaid.ends (List.ne_nil_of_length_pos (hlength ▸ hpos))
  rw [List.getLast?_eq_getElem?, hlength] at hhead
  obtain ⟨hoffset, hsize⟩ := heads_getElem? hhead
  rw [List.getLastD_eq_getLast?, List.getLastD_eq_getLast?, List.getLast?_eq_getElem?,
    List.getLast?_eq_getElem?, hoffsets, hsizes, List.length_map, List.length_range, ← hsizes,
    hoffset, hsize]
  exact hends

/-- What is derived for a layer: odd multipliers under which no product leaves int64, the primes
from the base on as sizes, ranges that tile the layer's rows, and ids that a table of the required
rows holds. -/
theorem deriveHashConstants_sound {numPleLayers : Int} (hvocab : 1 ≤ vocabSize)
    (hword : vocabSize < 2 ^ 63) (hngram : 2 ≤ ngramSize) (hheads : 1 ≤ headsPerNgram)
    (hbase : 2 ≤ base) (hlayer : 0 ≤ layer) (hbelow : layer < numPleLayers)
    (hfits : layerRows ngramSize headsPerNgram base (numPleLayers - 1) < 2 ^ 63) :
    let p := deriveHashConstants vocabSize ngramSize headsPerNgram base layer seed
    let total := layerRows ngramSize headsPerNgram base layer
    (p.layerMultipliers.length = ngramSize ∧
      ∀ m ∈ p.layerMultipliers, Odd m ∧ 0 < m ∧
        ∀ token, 0 ≤ token → token < vocabSize → token * m < 2 ^ 63) ∧
    (p.ngramHeadsVocabSizes = (List.range (layerHeads ngramSize headsPerNgram)).map
        (fun head => (headSize ngramSize headsPerNgram base layer head : Int)) ∧
      ∀ other, 0 ≤ other → other < layer → List.Disjoint p.ngramHeadsVocabSizes
        (deriveHashConstants vocabSize ngramSize headsPerNgram base other
          seed).ngramHeadsVocabSizes) ∧
    (Laid 0 p.heads total ∧
      p.heads.Pairwise (fun head other => Disjoint (rangeRows head) (rangeRows other)) ∧
      ∀ row, 0 ≤ row → row < (total : Int) → ∃ head ∈ p.heads, row ∈ rangeRows head) ∧
    ∀ eos context tokens ids, rowIds { p with eosTokenId := eos } context tokens = .ok ids →
      ∀ id ∈ ids,
        id < ngramRequiredRows vocabSize ngramSize headsPerNgram base numPleLayers := by
  intro p total
  have hmono (other : Int) (hother : other < numPleLayers) :
      layerRows ngramSize headsPerNgram base other < 2 ^ 63 :=
    (layerRows_mono (by omega)).trans_lt hfits
  obtain ⟨hsizes, hoffsets, hlaid⟩ := deriveHashConstants_heads vocabSize seed hngram hheads
    hbase hlayer (hmono layer hbelow)
  have hnonneg : ∀ head ∈ p.heads, 0 ≤ head.2 := by
    intro head hhead
    obtain ⟨h, hh⟩ := List.mem_iff_getElem?.mp hhead
    have hsize := List.mem_of_getElem? (heads_getElem? hh).2
    rw [hsizes] at hsize
    obtain ⟨k, -, hk⟩ := List.mem_map.mp hsize
    rw [← hk]
    exact Int.natCast_nonneg _
  refine ⟨⟨?_, ?_⟩, ⟨hsizes, ?_⟩, ⟨hlaid, ?_, ?_⟩, ?_⟩
  · simp only [p, deriveHashConstants, List.length_map, List.length_range]
    omega
  · intro m hm
    obtain ⟨i, -, rfl⟩ := List.mem_map.mp hm
    exact layerMultiplier_bounds hvocab hword layer seed i
  · intro other hother hlt size hsize hsize'
    obtain ⟨hothers, -⟩ := deriveHashConstants_heads vocabSize seed hngram hheads hbase hother
      (hmono other (hlt.trans hbelow))
    rw [hothers] at hsize'
    rw [hsizes] at hsize
    obtain ⟨head, -, rfl⟩ := List.mem_map.mp hsize
    obtain ⟨head', hhead', heq⟩ := List.mem_map.mp hsize'
    exact headSize_ne hother hlt (List.mem_range.mp hhead') (by exact_mod_cast heq)
  · exact (hlaid.pairwise hnonneg).imp EndsBefore.disjoint
  · intro row hlow hhigh
    exact hlaid.covers hlow hhigh
  · intro eos context tokens ids hids id hid
    obtain ⟨head, hhead, hrow⟩ := exists_head_of_mem hids hid
    have hends := (hlaid.within hnonneg head hhead).2
    have hlater : total ≤ layerRows ngramSize headsPerNgram base (numPleLayers - 1) :=
      layerRows_mono (by omega)
    rw [ngramRequiredRows_eq hngram hheads hbase (by omega) hfits]
    exact (hrow.2.trans_le hends).trans_le (by exact_mod_cast hlater)

end Layers

theorem basePrime_two_le (k : Nat) : basePrime 2 k ≤ 2 ^ (k + 1) := by
  induction k with
  | zero =>
      obtain ⟨first, hfirst⟩ := exists_basePrime Nat.prime_two (le_refl 2)
      have hle := (basePrime_strictMono 2).monotone (Nat.zero_le first)
      rwa [hfirst] at hle
  | succ k ih =>
      have hdouble := basePrime_succ_le 2 k
      rw [Nat.pow_succ]
      omega

/-- The second of two layers of trigrams, with two heads for each length. -/
theorem deriveHashConstants_sound_trigrams :
    let p := deriveHashConstants 10 3 2 2 1 7
    (∀ m ∈ p.layerMultipliers, Odd m ∧ 0 < m ∧
      ∀ token, 0 ≤ token → token < 10 → token * m < 2 ^ 63) ∧
    List.Disjoint p.ngramHeadsVocabSizes
      (deriveHashConstants 10 3 2 2 0 7).ngramHeadsVocabSizes ∧
    (p.heads.length = 4 ∧ Laid 0 p.heads (layerRows 3 2 2 1) ∧
      p.heads.Pairwise (fun head other => Disjoint (rangeRows head) (rangeRows other))) ∧
    ∃ ids, rowIds { p with eosTokenId := 9 } [3, 9] [4, 7] = .ok ids ∧
      ∀ id ∈ ids, id < ngramRequiredRows 10 3 2 2 2 := by
  have hfits : layerRows 3 2 2 (2 - 1) < 2 ^ 63 := by
    have hrows : layerRows 3 2 2 (2 - 1) =
        basePrime 2 4 + basePrime 2 5 + basePrime 2 6 + basePrime 2 7 := by
      simp [layerRows, layerHeads, bandRows, List.range_succ, Nat.add_assoc]
    have hlast := basePrime_two_le 7
    have h4 := (basePrime_strictMono 2).monotone (show 4 ≤ 7 by decide)
    have h5 := (basePrime_strictMono 2).monotone (show 5 ≤ 7 by decide)
    have h6 := (basePrime_strictMono 2).monotone (show 6 ≤ 7 by decide)
    omega
  obtain ⟨⟨-, hmultipliers⟩, ⟨-, hsizes⟩, ⟨hlaid, hdisjoint, -⟩, hids⟩ :=
    @deriveHashConstants_sound 10 3 2 2 1 7 2 (by decide) (by decide) (by decide) (by decide)
      (by decide) (by decide) (by decide) hfits
  refine ⟨hmultipliers, hsizes 0 (by decide) (by decide), ⟨by decide +kernel, hlaid, hdisjoint⟩,
    _, rfl, hids 9 [3, 9] [4, 7] _ rfl⟩

end Arcint.Ngram
