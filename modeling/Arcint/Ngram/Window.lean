import Arcint.Ngram.RowIds
import Mathlib.Data.List.DropRight

/-! # The window a row id reads

The rows of a token are a function of the token and of the tokens before it, back
to the nearest boundary and no further than the longest n-gram. A forward carries
that much history, so the ids do not depend on how a sequence is cut into forwards.
-/

namespace Arcint.Ngram

/-- The tokens before a position that its n-grams can reach, nearest first. -/
def reach (p : HashParams) (history : List Int) : List Int :=
  (history.reverse.take p.ctxLen).takeWhile fun id => id != p.eosTokenId

/-- The token `s` places back, by what can be reached. -/
def windowToken (p : HashParams) (token : Int) (reached : List Int) : Nat → Int
  | 0 => token
  | s + 1 => (reached[s]?).getD p.eosTokenId

def windowProduct (p : HashParams) (token : Int) (reached : List Int) (position : Nat) :
    BitVec 64 :=
  BitVec.ofInt 64 (windowToken p token reached position) *
    BitVec.ofInt 64 ((p.layerMultipliers[position]?).getD 0)

def windowMixed (p : HashParams) (token : Int) (reached : List Int) (ngram : Nat) : BitVec 64 :=
  (List.range' 1 (ngram - 1)).foldl
    (fun mix position => mix ^^^ windowProduct p token reached position)
    (windowProduct p token reached 0)

/-- The rows of a token, one per head, by what can be reached. -/
def windowRows (p : HashParams) (token : Int) (reached : List Int) : List Int :=
  (List.range' 2 (p.ngramSize.toNat - 1)).flatMap fun ngram =>
    (List.range p.headsPerNgram.toNat).map fun k =>
      headRow p (windowMixed p token reached ngram).toInt
        ((ngram - 2) * p.headsPerNgram.toNat + k)

section Segments

/-- A shift stays in the segment exactly when no boundary lies in its way. -/
theorem le_inSegment_iff {eos : Int} {l : List Int} {pos i s : Nat} {last : Int}
    (hlast : last < pos) (hi : i < l.length) :
    (s : Int) ≤ ((inSegment eos pos last l)[i]?).getD 0 ↔
      (∀ j < i, l[j]? = some eos → j + s < i) ∧ last + s < pos + i := by
  induction l generalizing pos last i with
  | nil => exact absurd hi (Nat.not_lt_zero i)
  | cons id l ih =>
      cases i with
      | zero =>
          simp [inSegment]
          omega
      | succ i =>
          have hnext : (if id = eos then (pos : Int) else last) < ((pos + 1 : Nat) : Int) := by
            split <;> omega
          have hrest := ih hnext (Nat.lt_of_succ_lt_succ hi)
          have hget : (inSegment eos pos last (id :: l))[i + 1]? =
              (inSegment eos (pos + 1) (if id = eos then (pos : Int) else last) l)[i]? := rfl
          rw [hget, hrest]
          constructor
          · rintro ⟨hwithin, hbound⟩
            refine ⟨?_, ?_⟩
            · intro j hj heos
              cases j with
              | zero =>
                  have hid : id = eos := by simpa using heos
                  rw [if_pos hid] at hbound
                  omega
              | succ j =>
                  have := hwithin j (Nat.lt_of_succ_lt_succ hj) (by simpa using heos)
                  omega
            · split at hbound <;> omega
          · rintro ⟨hwithin, hbound⟩
            refine ⟨?_, ?_⟩
            · intro j hj heos
              have := hwithin (j + 1) (Nat.succ_lt_succ hj) (by simpa using heos)
              omega
            · split
              next hid =>
                have := hwithin 0 (Nat.succ_pos i) (by simp [hid])
                omega
              next => omega

theorem getD_takeWhile {l : List Int} {q : Int → Bool} {k : Nat} {d : Int} :
    ((l.takeWhile q)[k]?).getD d =
      if ∀ j ≤ k, ∃ x, l[j]? = some x ∧ q x = true then (l[k]?).getD d else d := by
  induction l generalizing k with
  | nil => simp
  | cons a l ih =>
      rw [List.takeWhile_cons]
      split
      next ha =>
        cases k with
        | zero => simp [ha]
        | succ k =>
            rw [List.getElem?_cons_succ, ih, List.getElem?_cons_succ]
            congr 1
            apply propext
            constructor
            · intro h j hj
              cases j with
              | zero => exact ⟨a, rfl, ha⟩
              | succ j => exact h j (by omega)
            · intro h j hj
              exact h (j + 1) (by omega)
      next ha =>
        rw [if_neg]
        · rfl
        · intro h
          obtain ⟨x, hx, hq⟩ := h 0 (Nat.zero_le k)
          cases hx
          exact ha hq

variable {p : HashParams} {packed : List Int} {col : Nat}

/-- What the shift reads, by the history of the column alone. -/
theorem shiftedToken_eq_windowToken (hcol : col < packed.length) {s : Nat} (hs : s ≤ p.ctxLen) :
    shiftedToken p packed (inSegment p.eosTokenId 0 (-1) packed) col s =
      windowToken p ((packed[col]?).getD 0) (reach p (packed.take col)) s := by
  have hlast : (-1 : Int) < ((0 : Nat) : Int) := by decide
  have hsegment : (s : Int) ≤ ((inSegment p.eosTokenId 0 (-1) packed)[col]?).getD 0 ↔ _ :=
    le_inSegment_iff hlast hcol
  unfold shiftedToken
  cases s with
  | zero =>
      rw [if_pos ⟨Nat.zero_le _, hsegment.mpr ⟨fun j hj _ => by omega, by omega⟩⟩]
      rfl
  | succ s =>
      have hback : s < col → ∀ j ≤ s,
          ((packed.take col).reverse.take p.ctxLen)[j]? = packed[col - 1 - j]? := by
        intro hs' j hj
        have hlength : (packed.take col).length = col := by
          rw [List.length_take]
          omega
        rw [List.getElem?_take_of_lt (by omega), List.getElem?_reverse (by omega), hlength,
          List.getElem?_take_of_lt (by omega)]
      rw [windowToken, reach, getD_takeWhile]
      by_cases hwithin : s + 1 ≤ col ∧
          ((s + 1 : Nat) : Int) ≤ ((inSegment p.eosTokenId 0 (-1) packed)[col]?).getD 0
      · obtain ⟨hfree, -⟩ := hsegment.mp hwithin.2
        have hinside : ∀ j ≤ s, packed[col - 1 - j]? = some (packed[col - 1 - j]) :=
          fun j hj => List.getElem?_eq_getElem (by omega)
        rw [if_pos hwithin, if_pos]
        · rw [hback hwithin.1 s (Nat.le_refl s), show col - (s + 1) = col - 1 - s by omega,
            hinside s (Nat.le_refl s)]
          rfl
        · intro j hj
          refine ⟨_, (hback hwithin.1 j hj).trans (hinside j hj), ?_⟩
          have hne : packed[col - 1 - j] ≠ p.eosTokenId := by
            intro heos
            have := hfree (col - 1 - j) (by omega) (by rw [hinside j hj, heos])
            omega
          simpa using hne
      · rw [if_neg hwithin, if_neg]
        intro hall
        apply hwithin
        have hcolumn : s < col := by
          obtain ⟨x, hx, -⟩ := hall s (Nat.le_refl s)
          have := (List.getElem?_eq_some_iff.mp hx).1
          simp only [List.length_take, List.length_reverse] at this
          omega
        refine ⟨hcolumn, hsegment.mpr ⟨?_, by omega⟩⟩
        intro j hj heos
        by_contra hfar
        -- the boundary would be among the tokens that can be reached
        obtain ⟨x, hx, hne⟩ := hall (col - 1 - j) (by omega)
        rw [hback hcolumn _ (by omega), show col - 1 - (col - 1 - j) = j by omega, heos] at hx
        cases hx
        simp at hne

/-- The rows of a column, by its history alone. -/
theorem tokenRows_eq_windowRows (hcol : col < packed.length) :
    tokenRows p packed (inSegment p.eosTokenId 0 (-1) packed) col =
      windowRows p ((packed[col]?).getD 0) (reach p (packed.take col)) := by
  have hproduct : ∀ s ≤ p.ctxLen,
      product p packed (inSegment p.eosTokenId 0 (-1) packed) col s =
        windowProduct p ((packed[col]?).getD 0) (reach p (packed.take col)) s := by
    intro s hs
    rw [product, windowProduct, shiftedToken_eq_windowToken hcol hs]
  unfold tokenRows windowRows
  apply List.flatMap_congr
  intro ngram hngram
  have hmixed : mixed p packed (inSegment p.eosTokenId 0 (-1) packed) col ngram =
      windowMixed p ((packed[col]?).getD 0) (reach p (packed.take col)) ngram := by
    unfold mixed windowMixed
    rw [hproduct 0 (Nat.zero_le _)]
    apply List.foldl_ext
    intro mix position hposition
    rw [hproduct]
    have := List.mem_range'_1.mp hngram
    have := List.mem_range'_1.mp hposition
    unfold HashParams.ctxLen
    omega
  rw [hmixed]

end Segments

/-- The ids of a forward: the rows of each token in its own window. -/
theorem rowIds_eq_windows {p : HashParams} (hvalid : p.validate = .ok ()) {context : List Int}
    (hcontext : (context.length : Int) = p.ngramSize - 1) (tokens : List Int) :
    rowIds p context tokens = .ok ((List.range tokens.length).flatMap fun i =>
      windowRows p ((tokens[i]?).getD 0) (reach p (context ++ tokens.take i))) := by
  unfold rowIds
  rw [hvalid]
  dsimp only
  rw [if_neg (not_not_intro hcontext)]
  apply congrArg Except.ok
  apply List.flatMap_congr
  intro i hi
  have hlt := List.mem_range.mp hi
  rw [tokenRows_eq_windowRows (by rw [List.length_append]; omega),
    List.getElem?_append_right (Nat.le_add_right _ _), Nat.add_sub_cancel_left,
    List.take_length_add_append]

/-- The carried context reaches as far as the whole history. -/
theorem reach_rtake_append (p : HashParams) (history more : List Int) :
    reach p (history.rtake p.ctxLen ++ more) = reach p (history ++ more) := by
  unfold reach
  congr 1
  rw [List.rtake_eq_reverse_take_reverse, List.reverse_append, List.reverse_append,
    List.reverse_reverse, List.take_append, List.take_append, List.take_take]
  congr 2
  omega

/-- The windows of a sequence are those of its two parts. -/
theorem windows_append (p : HashParams) (context a b : List Int) :
    ((List.range (a ++ b).length).flatMap fun i =>
        windowRows p (((a ++ b)[i]?).getD 0) (reach p (context ++ (a ++ b).take i))) =
      ((List.range a.length).flatMap fun i =>
        windowRows p ((a[i]?).getD 0) (reach p (context ++ a.take i))) ++
      (List.range b.length).flatMap fun i =>
        windowRows p ((b[i]?).getD 0)
          (reach p ((context ++ a).rtake p.ctxLen ++ b.take i)) := by
  rw [List.length_append, List.range_add, List.flatMap_append, List.flatMap_map]
  apply congrArg₂ (· ++ ·)
  · apply List.flatMap_congr
    intro i hi
    have hlt := List.mem_range.mp hi
    rw [List.getElem?_append_left hlt, List.take_append_of_le_length (Nat.le_of_lt hlt)]
  · apply List.flatMap_congr
    intro i _
    rw [reach_rtake_append, List.getElem?_append_right (Nat.le_add_right _ _),
      Nat.add_sub_cancel_left, List.take_length_add_append, List.append_assoc]

/-- Cutting a sequence into two forwards gives the same ids, and each token's ids are a
function of the token and of what its n-grams reach: the tokens before it back to the
nearest boundary, `ngram_size - 1` at most. -/
theorem rowIds_append {p : HashParams} (hvalid : p.validate = .ok ()) {context : List Int}
    (hcontext : (context.length : Int) = p.ngramSize - 1) (a b : List Int) :
    ∃ first second, rowIds p context a = .ok first ∧
      rowIds p ((context ++ a).rtake p.ctxLen) b = .ok second ∧
      rowIds p context (a ++ b) = .ok (first ++ second) ∧
      first ++ second = (List.range (a ++ b).length).flatMap fun i =>
        windowRows p (((a ++ b)[i]?).getD 0) (reach p (context ++ (a ++ b).take i)) := by
  have hcarried : (((context ++ a).rtake p.ctxLen).length : Int) = p.ngramSize - 1 := by
    rw [List.rtake, List.length_drop, List.length_append]
    unfold HashParams.ctxLen
    omega
  refine ⟨_, _, rowIds_eq_windows hvalid hcontext a, rowIds_eq_windows hvalid hcarried b, ?_, ?_⟩
  · rw [rowIds_eq_windows hvalid hcontext (a ++ b)]
    exact congrArg Except.ok (windows_append p context a b)
  · exact (windows_append p context a b).symm

section Demo

def trigrams : HashParams where
  ngramSize := 3
  headsPerNgram := 1
  eosTokenId := 0
  layerMultipliers := [3, 5, 7]
  ngramHeadsVocabSizes := [11, 13]
  ngramHeadsOffsets := [0, 11]

/-- A boundary token right before the cut. -/
theorem rowIds_append_at_boundary :
    ∃ first second, rowIds trigrams [4, 9] [5, 0] = .ok first ∧
      rowIds trigrams (([4, 9] ++ [5, 0]).rtake trigrams.ctxLen) [6, 2] = .ok second ∧
      rowIds trigrams [4, 9] ([5, 0] ++ [6, 2]) = .ok (first ++ second) ∧
      first ++ second = (List.range ([5, 0] ++ [6, 2] : List Int).length).flatMap fun i =>
        windowRows trigrams ((([5, 0] ++ [6, 2] : List Int)[i]?).getD 0)
          (reach trigrams ([4, 9] ++ ([5, 0] ++ [6, 2] : List Int).take i)) :=
  rowIds_append rfl rfl [5, 0] [6, 2]

end Demo

end Arcint.Ngram
