import Mathlib.Algebra.Order.Group.Int
import Mathlib.RingTheory.Int.Basic
import Arcint.Foundation.Layout
import Arcint.Foundation.SortBy
import Arcint.Ngram.Twin
import Mathlib.Order.CompletePartialOrder

/-! # The heads' rows of the table

Every head owns a range of the concatenated row space, from its offset on and as long as its size.
Validation looks at offsets and at sizes, each on its own, and lets ranges overlap.
-/

namespace Arcint.Ngram

open Foundation

namespace HashParams

variable (p : HashParams)

/-- The heads' ranges: an offset and a size. -/
def heads : List (Int × Int) := p.ngramHeadsOffsets.zip p.ngramHeadsVocabSizes

/-- No head's range ends past the largest int64. -/
def IdsFit : Prop := ∀ head ∈ p.heads, head.1 + head.2 ≤ 2 ^ 63

/-- The offsets and sizes are int64 values. -/
def WordHeads : Prop := ∀ head ∈ p.heads, head.1 < 2 ^ 63 ∧ head.2 < 2 ^ 63

/-- The multiplier of a token's own id is odd. -/
def OddMultiplier : Prop := ∃ m, p.layerMultipliers[0]? = some m ∧ Odd m

end HashParams

/-- `row_ids` with its sums in int64, as `out` holds them. -/
def storedIds (p : HashParams) (context tokens : List Int) : Except RowIdsError (List Int) :=
  match rowIds p context tokens with
  | .error e => .error e
  | .ok ids => .ok (ids.map (signed 64))

/-- Every id is a row of its head, and different heads have different rows. -/
structure HashParams.HeadsApart (p : HashParams) : Prop where
  within : ∀ context tokens ids, storedIds p context tokens = .ok ids →
    ∀ i < tokens.length, ∀ h head, p.heads[h]? = some head →
      ∃ id, ids[i * p.heads.length + h]? = some id ∧ id ∈ rangeRows head
  apart : p.heads.Pairwise fun head other => Disjoint (rangeRows head) (rangeRows other)

section Heads

variable {p : HashParams}

/-! ## What is validated of the ranges -/

theorem heads_length (hvalid : p.validate = .ok ()) :
    p.heads.length = (p.ngramSize.toNat - 1) * p.headsPerNgram.toNat := by
  obtain ⟨-, -, hsizes, hoffsets, -⟩ := Twin.validate_ok hvalid
  simp [HashParams.heads, hoffsets, hsizes]

theorem heads_getElem? {h : Nat} {head : Int × Int} (hhead : p.heads[h]? = some head) :
    p.ngramHeadsOffsets[h]? = some head.1 ∧ p.ngramHeadsVocabSizes[h]? = some head.2 :=
  List.getElem?_zip_eq_some.mp hhead

/-- The head loop accepts positive sizes at offsets that grow from `before` on. -/
theorem validateHeads_sorted {head : Nat} {before : Int} {sizes offsets : List Int}
    (hheads : HashParams.validateHeads head before sizes offsets = .ok ()) :
    (∀ r ∈ offsets.zip sizes, before < r.1 ∧ 0 < r.2) ∧
      (offsets.zip sizes).Pairwise fun range next => range.1 < next.1 := by
  induction sizes generalizing head before offsets with
  | nil => simp
  | cons size sizes ih =>
      cases offsets with
      | nil => simp
      | cons offset offsets =>
          obtain ⟨hpos, habove, haccepted⟩ := Twin.validateHeads_cons hheads
          obtain ⟨hrest, hsorted⟩ := ih haccepted
          rw [List.zip_cons_cons]
          refine ⟨?_, List.pairwise_cons.mpr ⟨fun r hr => (hrest r hr).1, hsorted⟩⟩
          intro r hr
          rcases List.mem_cons.mp hr with rfl | hlater
          · exact ⟨habove, hpos⟩
          · obtain ⟨habove', hsize⟩ := hrest r hlater
            exact ⟨habove.trans habove', hsize⟩

theorem head_bounds (hvalid : p.validate = .ok ()) :
    ∀ head ∈ p.heads, 0 ≤ head.1 ∧ 0 < head.2 := by
  intro head hhead
  obtain ⟨-, -, -, -, hheads⟩ := Twin.validate_ok hvalid
  obtain ⟨hoffset, hsize⟩ := (validateHeads_sorted hheads).1 head hhead
  exact ⟨by omega, hsize⟩

/-- The ranges share no row exactly when each ends before the next. -/
theorem heads_apart_iff (hvalid : p.validate = .ok ()) :
    p.heads.Pairwise (fun head other => Disjoint (rangeRows head) (rangeRows other)) ↔
      p.heads.IsChain EndsBefore := by
  obtain ⟨-, -, -, -, hheads⟩ := Twin.validate_ok hvalid
  exact pairwise_disjoint_iff (fun head hhead => (head_bounds hvalid head hhead).2)
    (validateHeads_sorted hheads).2

/-! ## Where an id stands, and what it is -/

theorem fmod_mem {size : Int} (hpos : 0 < size) (value offset : Int) :
    Int.fmod value size + offset ∈ rangeRows (offset, size) := by
  have hnonneg := Int.fmod_nonneg_of_pos value hpos
  have hlt := Int.fmod_lt_of_pos value hpos
  exact ⟨by dsimp only; omega, by dsimp only; omega⟩

/-- The head's id of a token: the remainder of the mix of the head's order, and the offset. -/
theorem tokenRows_getElem? (hvalid : p.validate = .ok ()) (packed segments : List Int) (col : Nat)
    {h : Nat} {head : Int × Int} (hhead : p.heads[h]? = some head) :
    (tokenRows p packed segments col)[h]? = some (Int.fmod
      (mixed p packed segments col (h / p.headsPerNgram.toNat + 2)).toInt head.2 + head.1) := by
  obtain ⟨-, hone, -⟩ := Twin.validate_ok hvalid
  have hlt := (List.getElem?_eq_some_iff.mp hhead).1
  rw [heads_length hvalid] at hlt
  have hheads : 0 < p.headsPerNgram.toNat := by omega
  have horder : h / p.headsPerNgram.toNat < p.ngramSize.toNat - 1 :=
    Nat.div_lt_of_lt_mul (Nat.lt_of_lt_of_eq hlt (Nat.mul_comm _ _))
  have hsplit := Nat.div_add_mod h p.headsPerNgram.toNat
  have hrest := Nat.mod_lt h hheads
  obtain ⟨hoffset, hsize⟩ := heads_getElem? hhead
  obtain ⟨size, offset, hsize', hoffset', -, -, hrow⟩ := headRow_eq_fmod hvalid
    (mixed p packed segments col (h / p.headsPerNgram.toNat + 2)).toInt hlt
  cases hsize.symm.trans hsize'
  cases hoffset.symm.trans hoffset'
  unfold tokenRows
  conv_lhs => rw [← hsplit]
  rw [getElem?_flatMap_uniform (by simp) _ hrest, List.getElem?_range' horder]
  simp [hrest, hrow, Nat.add_comm 2, Nat.mul_comm _ p.headsPerNgram.toNat, hsplit]

/-- The ids of the tokens stand one token after the other. -/
theorem storedIds_getElem? (hvalid : p.validate = .ok ()) {context tokens ids : List Int}
    (hids : storedIds p context tokens = .ok ids) {i : Nat} (hi : i < tokens.length) {h : Nat}
    {head : Int × Int} (hhead : p.heads[h]? = some head) :
    ids[i * p.heads.length + h]? = some (signed 64 (Int.fmod
      (mixed p (context ++ tokens) (inSegment p.eosTokenId 0 (-1) (context ++ tokens))
        (context.length + i) (h / p.headsPerNgram.toNat + 2)).toInt head.2 + head.1)) := by
  have hlt := (List.getElem?_eq_some_iff.mp hhead).1
  unfold storedIds rowIds at hids
  rw [hvalid] at hids
  dsimp only at hids
  split at hids
  next => cases hids
  next rows hrows =>
    split at hrows
    next => cases hrows
    next =>
      cases hrows
      cases hids
      rw [List.getElem?_map, Nat.mul_comm i, getElem?_flatMap_uniform _ i hlt,
        List.getElem?_range hi, Option.bind_some,
        tokenRows_getElem? hvalid _ _ _ hhead, Option.map_some]
      intro a _
      rw [tokenRows_length, heads_length hvalid]

/-- Whatever is read is a row of some head. -/
theorem exists_head_of_mem {context tokens ids : List Int}
    (hids : rowIds p context tokens = .ok ids) {id : Int} (hid : id ∈ ids) :
    ∃ head ∈ p.heads, id ∈ rangeRows head := by
  unfold rowIds at hids
  split at hids
  next => cases hids
  next hvalid =>
    split at hids
    next => cases hids
    next =>
      cases hids
      obtain ⟨i, -, hid⟩ := List.mem_flatMap.mp hid
      obtain ⟨h, hh⟩ := List.mem_iff_getElem?.mp hid
      have hlt := (List.getElem?_eq_some_iff.mp hh).1
      rw [tokenRows_length, ← heads_length hvalid] at hlt
      have hhead := List.getElem?_eq_getElem hlt
      rw [tokenRows_getElem? hvalid _ _ _ hhead, Option.some.injEq] at hh
      have hmem := List.mem_of_getElem? hhead
      exact ⟨_, hmem, hh ▸ fmod_mem (head_bounds hvalid _ hmem).2 _ _⟩

/-! ## When the heads are apart -/

theorem signed_of_past {x : Int} (hpast : 2 ^ 63 ≤ x) (hlt : x < 2 ^ 64) :
    signed 64 x = x - 2 ^ 64 := by
  rw [signed_eq_toInt (by decide), BitVec.toInt_ofInt, ← Int.sub_bmod_right]
  exact Int.bmod_eq_of_le (by omega) (by omega)

theorem headsApart_of_endsBefore (hvalid : p.validate = .ok ())
    (hends : p.heads.IsChain EndsBefore) (hfits : p.IdsFit) : p.HeadsApart := by
  refine ⟨?_, (heads_apart_iff hvalid).mpr hends⟩
  intro context tokens ids hids i hi h head hhead
  have hmem := List.mem_of_getElem? hhead
  obtain ⟨hoffset, hsize⟩ := head_bounds hvalid head hmem
  refine ⟨_, storedIds_getElem? hvalid hids hi hhead, ?_⟩
  have hrow := fmod_mem hsize
    (mixed p (context ++ tokens) (inSegment p.eosTokenId 0 (-1) (context ++ tokens))
      (context.length + i) (h / p.headsPerNgram.toNat + 2)).toInt head.1
  have hlast := hfits head hmem
  obtain ⟨hlow, hhigh⟩ := hrow
  dsimp only at hlow hhigh
  rw [signed_eq_self (hoffset.trans hlow) (by omega)]
  exact ⟨hlow, hhigh⟩

/-! ## An odd multiplier reaches every remainder -/

theorem foldl_xor {width : Nat} (g : Nat → BitVec width) (l : List Nat) (first : BitVec width) :
    l.foldl (fun mix position => mix ^^^ g position) first =
      first ^^^ l.foldl (fun mix position => mix ^^^ g position) 0 := by
  induction l generalizing first with
  | nil => simp
  | cons position l ih =>
      rw [List.foldl_cons, List.foldl_cons, ih, ih (0 ^^^ g position), BitVec.xor_assoc]
      simp

/-- Multiplication by an odd word takes every value. -/
theorem exists_mul_eq {m : Int} (hodd : Odd m) (target : BitVec 64) :
    ∃ t : Int, BitVec.ofInt 64 t * BitVec.ofInt 64 m = target := by
  obtain ⟨a, b, hab⟩ : IsCoprime m (2 ^ 64) := (Int.isCoprime_two_right.mpr hodd).pow_right
  have hinverse : BitVec.ofInt 64 a * BitVec.ofInt 64 m = 1#64 := by
    rw [← BitVec.ofInt_mul, show a * m = 1 + (-b) * 2 ^ 64 by omega, BitVec.ofInt_add,
      BitVec.ofInt_mul]
    simp
  refine ⟨target.toInt * a, ?_⟩
  rw [BitVec.ofInt_mul, BitVec.ofInt_toInt, BitVec.mul_assoc, hinverse, BitVec.mul_one]

/-- A boundary is all that a token sees behind it when the context is boundaries. -/
theorem shiftedToken_boundaries (t : Int) {s : Nat} (hs : 0 < s) :
    shiftedToken p (List.replicate p.ctxLen p.eosTokenId ++ [t])
      (inSegment p.eosTokenId 0 (-1) (List.replicate p.ctxLen p.eosTokenId ++ [t]))
      p.ctxLen s = p.eosTokenId := by
  unfold shiftedToken
  split
  next hin =>
    have hlt : p.ctxLen - s < (List.replicate p.ctxLen p.eosTokenId).length := by
      rw [List.length_replicate]
      omega
    rw [List.getElem?_append_left hlt, List.getElem?_replicate, if_pos (by omega)]
    rfl
  next => rfl

theorem shiftedToken_own (t : Int) :
    shiftedToken p (List.replicate p.ctxLen p.eosTokenId ++ [t])
      (inSegment p.eosTokenId 0 (-1) (List.replicate p.ctxLen p.eosTokenId ++ [t]))
      p.ctxLen 0 = t := by
  have hcol : p.ctxLen < (List.replicate p.ctxLen p.eosTokenId ++ [t]).length := by simp
  have hsegment : ((0 : Nat) : Int) ≤ ((inSegment p.eosTokenId 0 (-1)
      (List.replicate p.ctxLen p.eosTokenId ++ [t]))[p.ctxLen]?).getD 0 :=
    (le_inSegment_iff (by decide) hcol).mpr ⟨fun j hj _ => by omega, by omega⟩
  unfold shiftedToken
  rw [if_pos ⟨Nat.zero_le _, hsegment⟩]
  simp

/-- A token's own multiplier, when it is odd, brings the mix of an order to any value. -/
theorem exists_mixed (hodd : p.OddMultiplier) (n : Nat) (target : BitVec 64) :
    ∃ t : Int, mixed p (List.replicate p.ctxLen p.eosTokenId ++ [t])
      (inSegment p.eosTokenId 0 (-1) (List.replicate p.ctxLen p.eosTokenId ++ [t]))
      p.ctxLen n = target := by
  obtain ⟨m, hm, hodd⟩ := hodd
  let rest : BitVec 64 := (List.range' 1 (n - 1)).foldl (fun mix position =>
    mix ^^^ (BitVec.ofInt 64 p.eosTokenId *
      BitVec.ofInt 64 ((p.layerMultipliers[position]?).getD 0))) 0
  obtain ⟨t, ht⟩ := exists_mul_eq hodd (target ^^^ rest)
  refine ⟨t, ?_⟩
  unfold mixed
  have hown : product p (List.replicate p.ctxLen p.eosTokenId ++ [t])
      (inSegment p.eosTokenId 0 (-1) (List.replicate p.ctxLen p.eosTokenId ++ [t]))
      p.ctxLen 0 = target ^^^ rest := by
    unfold product
    rw [shiftedToken_own, hm]
    exact ht
  rw [hown]
  -- the factors behind the token do not depend on it
  have hbehind : ∀ position ∈ List.range' 1 (n - 1), ∀ mix : BitVec 64,
      mix ^^^ product p (List.replicate p.ctxLen p.eosTokenId ++ [t])
        (inSegment p.eosTokenId 0 (-1) (List.replicate p.ctxLen p.eosTokenId ++ [t]))
        p.ctxLen position =
      mix ^^^ (BitVec.ofInt 64 p.eosTokenId *
        BitVec.ofInt 64 ((p.layerMultipliers[position]?).getD 0)) := by
    intro position hposition mix
    unfold product
    rw [shiftedToken_boundaries t (List.mem_range'_1.mp hposition).1]
  rw [List.foldl_ext _ _ _ fun mix position hposition => hbehind position hposition mix,
    foldl_xor, BitVec.xor_assoc]
  change target ^^^ (rest ^^^ rest) = target
  simp

/-- Past the largest int64 the last id of a range would not be in it. -/
theorem HashParams.HeadsApart.idsFit (h : p.HeadsApart) (hvalid : p.validate = .ok ())
    (hodd : p.OddMultiplier) (hwords : p.WordHeads) : p.IdsFit := by
  intro head hhead
  by_contra hpast
  obtain ⟨hoffset, hsize⟩ := head_bounds hvalid head hhead
  obtain ⟨hfirst, hlength⟩ := hwords head hhead
  obtain ⟨k, hk⟩ := List.mem_iff_getElem?.mp hhead
  obtain ⟨htwo, -⟩ := Twin.validate_ok hvalid
  -- the mix of all ones leaves the largest remainder
  obtain ⟨t, ht⟩ := exists_mixed hodd (k / p.headsPerNgram.toNat + 2) (BitVec.ofInt 64 (-1))
  have hcontext : ((List.replicate p.ctxLen p.eosTokenId).length : Int) = p.ngramSize - 1 := by
    simp only [List.length_replicate, HashParams.ctxLen]
    omega
  obtain ⟨ids, hids⟩ : ∃ ids,
      storedIds p (List.replicate p.ctxLen p.eosTokenId) [t] = .ok ids := by
    unfold storedIds rowIds
    rw [hvalid]
    dsimp only
    rw [if_neg (not_not_intro hcontext)]
    exact ⟨_, rfl⟩
  obtain ⟨id, hid, hlow, -⟩ := h.within _ _ ids hids 0 (by simp) k head hk
  rw [storedIds_getElem? hvalid hids (by simp) hk, List.length_replicate, Nat.add_zero, ht,
    Option.some.injEq] at hid
  have hremainder : Int.fmod (BitVec.ofInt 64 (-1)).toInt head.2 = head.2 - 1 := by
    change Int.fmod (-1) head.2 = head.2 - 1
    rw [Int.fmod_eq_emod_of_nonneg _ hsize.le, Int.emod_eq_add_self_emod, Int.emod_eq_of_lt]
    · omega
    · omega
    · omega
  rw [hremainder, signed_of_past (by omega) (by omega)] at hid
  omega

/-- Validated heads are apart when each range ends before the next and the last within int64, and
not otherwise: the first is needed whatever the multipliers are, the second where the token's own
multiplier reaches every remainder. -/
theorem headsApart_iff (hvalid : p.validate = .ok ()) :
    (p.heads.IsChain EndsBefore ∧ p.IdsFit → p.HeadsApart) ∧
      (p.HeadsApart → p.heads.IsChain EndsBefore) ∧
      (p.OddMultiplier → p.WordHeads →
        (p.HeadsApart ↔ p.heads.IsChain EndsBefore ∧ p.IdsFit)) := by
  have hapart (h : p.HeadsApart) : p.heads.IsChain EndsBefore := (heads_apart_iff hvalid).mp h.apart
  refine ⟨fun h => headsApart_of_endsBefore hvalid h.1 h.2, hapart, fun hodd hwords => ?_⟩
  exact ⟨fun h => ⟨hapart h, h.idsFit hvalid hodd hwords⟩,
    fun h => headsApart_of_endsBefore hvalid h.1 h.2⟩

end Heads

/-- Two heads whose offsets grow by less than the first head's size. -/
def overlapping : HashParams where
  ngramSize := 2
  headsPerNgram := 2
  eosTokenId := 0
  layerMultipliers := [1, 1]
  ngramHeadsVocabSizes := [10, 5]
  ngramHeadsOffsets := [0, 5]

/-- The second head begins where the first one ends. -/
def separated : HashParams := { overlapping with ngramHeadsOffsets := [0, 10] }

theorem headsApart_iff_separated : separated.HeadsApart := by
  refine (headsApart_iff (p := separated) (by decide)).1 ⟨by decide, ?_⟩
  unfold HashParams.IdsFit
  decide

/-- Both heads of one token read row 7. -/
theorem overlapping_shares :
    overlapping.validate = .ok () ∧ storedIds overlapping [0] [7] = .ok [7, 7] ∧
      ¬ overlapping.HeadsApart := by
  refine ⟨by decide, by decide +kernel, fun h => ?_⟩
  have hdisjoint := List.rel_of_pairwise_cons h.apart List.mem_cons_self
  exact Set.disjoint_left.mp hdisjoint (show (7 : Int) ∈ _ from ⟨by decide, by decide⟩)
    ⟨by decide, by decide⟩

end Arcint.Ngram
