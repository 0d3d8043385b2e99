import Arcint.Foundation.Wrap
import Arcint.Ngram.Window

/-! # The Python twin of the row ids

The exporter's tests produce the rows with `q4e/ngram_ids.py`: integers without a width that are
masked and signed again at every step, a floor modulus, and the columns of every shift laid out
before the tokens are hashed. The twin gives the served rows.
-/

namespace Arcint.Ngram

open Foundation

namespace Twin

/-- `_s64`. -/
def s64 (x : Int) : Int := signed 64 x

/-- `prev`: the last boundary before each column, from column `pos` on. -/
def prev (eos : Int) : Nat → Int → List Int → List Int
  | _, _, [] => []
  | pos, last, id :: rest => last :: prev eos (pos + 1) (if id = eos then pos else last) rest

def inSeg (eos : Int) (packed : List Int) : List Int :=
  (List.range packed.length).map fun (pos : Nat) =>
    (pos : Int) - ((prev eos 0 (-1) packed)[pos]?).getD 0 - 1

/-- The columns of every shift, over the whole of `packed`. -/
def shifted (ng : Nat) (eos : Int) (packed : List Int) : List (List Int) :=
  packed :: (List.range' 1 (ng - 1)).map fun (s : Nat) =>
    (List.range packed.length).map fun pos =>
      if s ≤ pos ∧ (s : Int) ≤ ((inSeg eos packed)[pos]?).getD 0 then (packed[pos - s]?).getD 0
      else eos

/-- The columns of the tokens alone. -/
def per (ng : Nat) (eos : Int) (context tokens : List Int) : List (List Int) :=
  (shifted ng eos (context ++ tokens)).map fun row =>
    (List.range tokens.length).map fun i => (row[ng - 1 + i]?).getD 0

/-- `per[pos][i] * mult[pos]`. -/
def term (mult : List Int) (columns : List (List Int)) (i pos : Nat) : Int :=
  ((columns[pos]?).bind (·[i]?)).getD 0 * (mult[pos]?).getD 0

/-- `mixed` of the n-gram of order `n` at token `i`. -/
def mix (mult : List Int) (columns : List (List Int)) (i n : Nat) : Int :=
  (List.range' 1 (n - 1)).foldl
    (fun mixed pos =>
      s64 (Int.xor (lowBits 64 mixed) (lowBits 64 (s64 (term mult columns i pos)))))
    (s64 (term mult columns i 0))

/-- `row_ids` of `q4e/ngram_ids.py`: a list of heads for each token. -/
def rowIds (mult sizes offs : List Int) (ng hpn : Nat) (eos : Int) (context tokens : List Int) :
    List (List Int) :=
  (List.range tokens.length).map fun i =>
    (List.range' 2 (ng - 1)).flatMap fun n =>
      (List.range' ((n - 2) * hpn) hpn).map fun h =>
        Int.fmod (mix mult (per ng eos context tokens) i n) ((sizes[h]?).getD 0) +
          (offs[h]?).getD 0

section Columns

variable {eos : Int} {packed : List Int}

theorem inSegment_eq_prev (pos : Nat) (last : Int) (k : Nat) (hk : k < packed.length) :
    ((inSegment eos pos last packed)[k]?).getD 0 =
      (pos + k : Nat) - ((prev eos pos last packed)[k]?).getD 0 - 1 := by
  induction packed generalizing pos last k with
  | nil => cases hk
  | cons id rest ih =>
      cases k with
      | zero => simp [inSegment, prev]
      | succ k =>
          have hrest := ih (pos + 1) (if id = eos then pos else last) k (Nat.lt_of_succ_lt_succ hk)
          simp only [inSegment, prev, List.getElem?_cons_succ]
          rw [hrest]
          omega

theorem inSeg_getD {col : Nat} (hcol : col < packed.length) :
    ((inSeg eos packed)[col]?).getD 0 = ((inSegment eos 0 (-1) packed)[col]?).getD 0 := by
  rw [inSegment_eq_prev 0 (-1) col hcol]
  simp [inSeg, hcol]

variable {p : HashParams} {context tokens : List Int}

/-- A column of the twin holds what the served shift reads there. -/
theorem per_getD (hcontext : context.length = p.ngramSize.toNat - 1) {i s : Nat}
    (hi : i < tokens.length) (hs : s < p.ngramSize.toNat) :
    (((per p.ngramSize.toNat p.eosTokenId context tokens)[s]?).bind (·[i]?)).getD 0 =
      shiftedToken p (context ++ tokens)
        (inSegment p.eosTokenId 0 (-1) (context ++ tokens)) (context.length + i) s := by
  have hcol : context.length + i < (context ++ tokens).length := by
    rw [List.length_append]
    omega
  have hlast : (-1 : Int) < ((0 : Nat) : Int) := by decide
  unfold shiftedToken
  cases s with
  | zero =>
      have hzero : ((0 : Nat) : Int) ≤ ((inSegment p.eosTokenId 0 (-1)
          (context ++ tokens))[context.length + i]?).getD 0 :=
        (le_inSegment_iff hlast hcol).mpr ⟨fun j hj _ => by omega, by omega⟩
      rw [if_pos ⟨Nat.zero_le _, hzero⟩]
      simp [per, shifted, hi, hcontext]
  | succ s =>
      rw [← inSeg_getD hcol]
      have hrange : (List.range' 1 context.length)[s]? = some (s + 1) := by
        rw [List.getElem?_range' (by omega)]
        simp [Nat.add_comm]
      simp [per, shifted, hi, hrange, ← hcontext]

/-- Masked and signed at every step, the mix is the one of the words. -/
theorem mix_eq_mixed (hcontext : context.length = p.ngramSize.toNat - 1) {i n : Nat}
    (hi : i < tokens.length) (hn : 0 < n) (hsize : n ≤ p.ngramSize.toNat) :
    mix p.layerMultipliers (per p.ngramSize.toNat p.eosTokenId context tokens) i n =
      (mixed p (context ++ tokens) (inSegment p.eosTokenId 0 (-1) (context ++ tokens))
        (context.length + i) n).toInt := by
  have hterm : ∀ pos < n, s64 (term p.layerMultipliers
      (per p.ngramSize.toNat p.eosTokenId context tokens) i pos) =
        (product p (context ++ tokens) (inSegment p.eosTokenId 0 (-1) (context ++ tokens))
          (context.length + i) pos).toInt := by
    intro pos hpos
    unfold s64 term product
    rw [signed_eq_toInt (by decide), per_getD hcontext hi (Nat.lt_of_lt_of_le hpos hsize),
      BitVec.ofInt_mul]
  unfold mix mixed
  rw [hterm 0 hn]
  -- one fold carries the word, the other its signed value
  apply @List.foldl_rel _ _ _ _ _ _ _ _ fun (value : Int) (word : BitVec 64) => value = word.toInt
  · rfl
  · intro pos hpos value word hvalue
    have hbelow : pos < n := by
      have hrange := List.mem_range'_1.mp hpos
      omega
    rw [hterm pos hbelow, hvalue]
    unfold s64
    rw [signed_xor (by decide), BitVec.ofInt_toInt, BitVec.ofInt_toInt]

end Columns

/-! ## The heads -/

/-- A head that the loop accepts. -/
theorem validateHeads_cons {head : Nat} {before size offset : Int} {sizes offsets : List Int}
    (h : HashParams.validateHeads head before (size :: sizes) (offset :: offsets) = .ok ()) :
    0 < size ∧ before < offset ∧
      HashParams.validateHeads (head + 1) offset sizes offsets = .ok () := by
  unfold HashParams.validateHeads at h
  split at h
  next => cases h
  next hpos =>
    split at h
    next => cases h
    next habove => exact ⟨Int.lt_of_not_ge hpos, Int.lt_of_not_ge habove, h⟩

/-- What the head loop of `validate` leaves: positive sizes, offsets above the one before. -/
theorem validateHeads_ok {head : Nat} {before : Int} {sizes offsets : List Int}
    (hheads : HashParams.validateHeads head before sizes offsets = .ok ())
    (hlength : sizes.length = offsets.length) {k : Nat} {size : Int}
    (hsize : sizes[k]? = some size) :
    0 < size ∧ ∃ offset, offsets[k]? = some offset ∧ before < offset := by
  induction sizes generalizing head before offsets k with
  | nil => simp at hsize
  | cons first sizes ih =>
      cases offsets with
      | nil => cases hlength
      | cons offset offsets =>
          obtain ⟨hpos, habove, hrest⟩ := validateHeads_cons hheads
          cases k with
          | zero =>
              cases hsize
              exact ⟨hpos, offset, rfl, habove⟩
          | succ k =>
              obtain ⟨hfirst, later, hlater, hbelow⟩ := ih hrest (Nat.succ.inj hlength) hsize
              exact ⟨hfirst, later, hlater, Int.lt_trans habove hbelow⟩

/-- Validated parameters: the orders, the heads, and what holds of each head. -/
theorem validate_ok {p : HashParams} (hvalid : p.validate = .ok ()) :
    2 ≤ p.ngramSize ∧ 1 ≤ p.headsPerNgram ∧
      p.ngramHeadsVocabSizes.length = (p.ngramSize.toNat - 1) * p.headsPerNgram.toNat ∧
      p.ngramHeadsOffsets.length = p.ngramHeadsVocabSizes.length ∧
      HashParams.validateHeads 0 (-1) p.ngramHeadsVocabSizes p.ngramHeadsOffsets = .ok () := by
  unfold HashParams.validate at hvalid
  split at hvalid
  next => cases hvalid
  next hsize =>
    split at hvalid
    next => cases hvalid
    next hheads =>
      split at hvalid
      next => cases hvalid
      next =>
        split at hvalid
        next => cases hvalid
        next hbuffers =>
          split at hvalid
          next => cases hvalid
          next =>
            obtain ⟨hsizes, hoffsets⟩ := not_or.mp hbuffers
            rw [not_not] at hsizes hoffsets
            have hcount : ((p.ngramSize.toNat - 1 : Nat) : Int) * (p.headsPerNgram.toNat : Int) =
                p.numNgramHeads := by
              unfold HashParams.numNgramHeads
              congr 1 <;> omega
            refine ⟨Int.not_lt.mp hsize, Int.not_lt.mp hheads, ?_, ?_, hvalid⟩
            · rw [← hcount] at hsizes
              exact_mod_cast hsizes
            · exact_mod_cast hoffsets.trans hsizes.symm

/-- The remainder that is put right after the division is the floor modulus. -/
theorem tmod_fix {size : Int} (hsize : 0 < size) (value : Int) :
    (if value.tmod size < 0 then value.tmod size + size else value.tmod size) =
      Int.fmod value size := by
  have hnonneg := Int.emod_nonneg value (Int.ne_of_gt hsize)
  have hlt := Int.emod_lt_of_pos value hsize
  rw [Int.fmod_eq_emod_of_nonneg _ (Int.le_of_lt hsize), Int.tmod_eq_emod]
  -- the truncated remainder is the floor one, or that less the size
  split <;> split <;> omega

end Twin

/-- No head's offset plus its size leaves int64. -/
def HashParams.RowsFit (p : HashParams) : Prop :=
  ∀ (h : Nat) (size offset : Int), p.ngramHeadsVocabSizes[h]? = some size →
    p.ngramHeadsOffsets[h]? = some offset → offset + size < 2 ^ 63

section Rows

variable {p : HashParams} {context tokens : List Int}

/-- The heads of an order are among those of the layer. -/
theorem head_lt {n k : Nat} (hn : n ∈ List.range' 2 (p.ngramSize.toNat - 1))
    (hk : k < p.headsPerNgram.toNat) :
    (n - 2) * p.headsPerNgram.toNat + k < (p.ngramSize.toNat - 1) * p.headsPerNgram.toNat := by
  obtain ⟨htwo, hlast⟩ := List.mem_range'_1.mp hn
  calc (n - 2) * p.headsPerNgram.toNat + k
      < (n - 2) * p.headsPerNgram.toNat + p.headsPerNgram.toNat := Nat.add_lt_add_left hk _
    _ = (n - 2 + 1) * p.headsPerNgram.toNat := (Nat.succ_mul _ _).symm
    _ ≤ (p.ngramSize.toNat - 1) * p.headsPerNgram.toNat := Nat.mul_le_mul_right _ (by omega)

/-- A served head is a floor modulus and an offset that is not negative. -/
theorem headRow_eq_fmod (hvalid : p.validate = .ok ()) (value : Int) {h : Nat}
    (hh : h < (p.ngramSize.toNat - 1) * p.headsPerNgram.toNat) :
    ∃ size offset, p.ngramHeadsVocabSizes[h]? = some size ∧ p.ngramHeadsOffsets[h]? = some offset ∧
      0 < size ∧ 0 ≤ offset ∧ headRow p value h = Int.fmod value size + offset := by
  obtain ⟨-, -, hsizes, hoffsets, hheads⟩ := Twin.validate_ok hvalid
  have hget := List.getElem?_eq_getElem (Nat.lt_of_lt_of_eq hh hsizes.symm)
  obtain ⟨hpos, offset, hoffset, habove⟩ := Twin.validateHeads_ok hheads hoffsets.symm hget
  refine ⟨_, offset, hget, hoffset, hpos, by omega, ?_⟩
  unfold headRow
  rw [hget, hoffset]
  dsimp only [Option.getD_some]
  rw [Twin.tmod_fix hpos]

/-- The rows of a token are the twin's. -/
theorem tokenRows_eq_twin (hvalid : p.validate = .ok ())
    (hcontext : context.length = p.ngramSize.toNat - 1) {i : Nat} (hi : i < tokens.length) :
    tokenRows p (context ++ tokens) (inSegment p.eosTokenId 0 (-1) (context ++ tokens))
        (context.length + i) =
      (List.range' 2 (p.ngramSize.toNat - 1)).flatMap fun n =>
        (List.range' ((n - 2) * p.headsPerNgram.toNat) p.headsPerNgram.toNat).map fun h =>
          Int.fmod (Twin.mix p.layerMultipliers
            (Twin.per p.ngramSize.toNat p.eosTokenId context tokens) i n)
              ((p.ngramHeadsVocabSizes[h]?).getD 0) + (p.ngramHeadsOffsets[h]?).getD 0 := by
  unfold tokenRows
  apply List.flatMap_congr
  intro n hn
  obtain ⟨htwo, hlast⟩ := List.mem_range'_1.mp hn
  rw [Twin.mix_eq_mixed hcontext hi (by omega) (by omega), List.range'_eq_map_range, List.map_map]
  apply List.map_congr_left
  intro k hk
  obtain ⟨size, offset, hsize, hoffset, -, -, hrow⟩ := headRow_eq_fmod hvalid
    (mixed p (context ++ tokens) (inSegment p.eosTokenId 0 (-1) (context ++ tokens))
      (context.length + i) n).toInt (head_lt hn (List.mem_range.mp hk))
  rw [hrow, Function.comp_apply, hsize, hoffset]
  rfl

/-- A served row is an int64: the head's offset is added to less than its size. -/
theorem tokenRows_bounds (hvalid : p.validate = .ok ()) (hfits : p.RowsFit)
    (packed segments : List Int) (col : Nat) :
    ∀ id ∈ tokenRows p packed segments col, 0 ≤ id ∧ id < 2 ^ 63 := by
  intro id hid
  obtain ⟨n, hn, hid⟩ := List.mem_flatMap.mp hid
  obtain ⟨k, hk, rfl⟩ := List.mem_map.mp hid
  obtain ⟨size, offset, hsize, hoffset, hpos, hoff, hrow⟩ := headRow_eq_fmod hvalid
    (mixed p packed segments col n).toInt (head_lt hn (List.mem_range.mp hk))
  have hsum := hfits _ size offset hsize hoffset
  rw [hrow, Int.fmod_eq_emod_of_nonneg _ (Int.le_of_lt hpos)]
  have hnonneg := Int.emod_nonneg (mixed p packed segments col n).toInt (Int.ne_of_gt hpos)
  have hlt := Int.emod_lt_of_pos (mixed p packed segments col n).toInt hpos
  omega

/-- The served rows are the twin's, token by token and head by head, and no sum of a remainder
and an offset leaves int64. -/
theorem rowIds_eq_twin (hvalid : p.validate = .ok ())
    (hcontext : (context.length : Int) = p.ngramSize - 1) (hfits : p.RowsFit) :
    let rows := Twin.rowIds p.layerMultipliers p.ngramHeadsVocabSizes p.ngramHeadsOffsets
      p.ngramSize.toNat p.headsPerNgram.toNat p.eosTokenId context tokens
    rowIds p context tokens = .ok rows.flatten ∧ rows.length = tokens.length ∧
      (∀ row ∈ rows, (row.length : Int) = p.numNgramHeads) ∧
      ∀ id ∈ rows.flatten, 0 ≤ id ∧ id < 2 ^ 63 := by
  intro rows
  obtain ⟨htwo, hone, -⟩ := Twin.validate_ok hvalid
  have hlength : context.length = p.ngramSize.toNat - 1 := by omega
  have hrows : rows = (List.range tokens.length).map fun i =>
      tokenRows p (context ++ tokens) (inSegment p.eosTokenId 0 (-1) (context ++ tokens))
        (context.length + i) :=
    List.map_congr_left fun i hi =>
      (tokenRows_eq_twin hvalid hlength (List.mem_range.mp hi)).symm
  refine ⟨?_, by simp [hrows], ?_, ?_⟩
  · unfold rowIds
    rw [hvalid, hrows]
    dsimp only
    rw [if_neg (not_not_intro hcontext), List.flatMap_def]
  · intro row hrow
    rw [hrows] at hrow
    obtain ⟨i, -, rfl⟩ := List.mem_map.mp hrow
    rw [tokenRows_length]
    unfold HashParams.numNgramHeads
    push_cast
    congr 1 <;> omega
  · intro id hid
    rw [hrows] at hid
    obtain ⟨row, hrow, hid⟩ := List.mem_flatten.mp hid
    obtain ⟨i, -, rfl⟩ := List.mem_map.mp hrow
    exact tokenRows_bounds hvalid hfits _ _ _ id hid

end Rows

/-- A negative id, a boundary in the middle, and a product that wraps. -/
def wrappingTrigrams : HashParams :=
  { trigrams with layerMultipliers := [9223372036854775807, 5, -7] }

theorem wrappingTrigrams_rowsFit : wrappingTrigrams.RowsFit := by
  intro h size offset hsize hoffset
  rcases h with _ | _ | h
  · cases hsize
    cases hoffset
    decide
  · cases hsize
    cases hoffset
    decide
  · cases hsize

theorem rowIds_eq_twin_wrapping :
    rowIds wrappingTrigrams [4, 9] [-5, 0, 3] =
      .ok (Twin.rowIds wrappingTrigrams.layerMultipliers wrappingTrigrams.ngramHeadsVocabSizes
        wrappingTrigrams.ngramHeadsOffsets 3 1 0 [4, 9] [-5, 0, 3]).flatten :=
  (rowIds_eq_twin rfl rfl wrappingTrigrams_rowsFit).1

end Arcint.Ngram
