import Arcint.Gguf.RepackStored

/-! # A repacked tensor keeps the file's quants

The integer that is read of a column, less the zero point, is the one the decoder multiplies, and
the scale of its group is the half of the decoder's product.
-/

namespace Arcint.Gguf.Packing

open Foundation
open Verdicts (placeOf)

section Tensor

variable {F : Type} {ops : FloatOps F} {data : ℕ → UInt8} {t : TensorInfo}
  {request : RepackRequest} {mins : RepackMins}

theorem mem_filledRows {n row : ℕ} (hrow : row < n) : row ∈ filledRows request n := by
  have hthreads : 0 < request.nThreads := by
    unfold RepackRequest.nThreads
    split <;> omega
  refine List.mem_flatMap.mpr ⟨row % request.nThreads, ?_, ?_⟩
  · exact List.mem_range.mpr (Nat.mod_lt row hthreads)
  · exact List.mem_filter.mpr ⟨List.mem_range.mpr hrow, decide_eq_true rfl⟩

/-- A column is read from its byte, when no byte is of two rows. -/
theorem storedInt_eq {r : RepackedTensor} (heven : r.width % 2 = 0) (row c : ℕ) :
    r.storedInt row c = r.readInt c (r.weights (row * r.rowWeights + r.columnByte c)) := by
  unfold RepackedTensor.storedInt RepackedTensor.readInt RepackedTensor.rowWeights
    RepackedTensor.columnByte
  cases hw : r.weightsType with
  | u4 =>
      obtain ⟨half, hhalf⟩ := Nat.dvd_of_mod_eq_zero heven
      have hindex : row * r.width + c = 2 * (row * half) + c := by rw [hhalf]; ring
      have hbyte : (2 * (row * half) + c) / 2 = row * half + c / 2 := by omega
      have hplace : (2 * (row * half) + c) % 2 = c % 2 := by omega
      dsimp only
      rw [hindex, hbyte, hplace, hhalf, if_pos rfl, Nat.mul_div_cancel_left _ (by decide)]
  | u8 => simp
  | i8 => simp

variable {r : RepackedTensor} {pl : Placement} {rows : List ℕ} {dest : ℕ → ℕ}
  (hholds : ∀ i, RowHolds ops (rowByte data t i) t.ggmlType r dest
    (repackRow ops (rowByte data t i) t.ggmlType r pl))

include hholds

/-- What a place of a row is left with. -/
theorem fillRows_weights {row i v : ℕ} (hrow : row ∈ rows)
    (h : EditsAt (repackRow ops (rowByte data t row) t.ggmlType r pl).weights i fun _ => v) :
    (fillRows ops data t r pl rows).weights (row * r.rowWeights + i) = v := by
  obtain ⟨edit, hedit, rfl⟩ := h.some
  have hlt := (hholds row).weightsLt edit hedit
  exact (editsAt_rowEdits (fun i _ => (hholds i).weightsLt) hrow hlt h).edited_eq rfl

theorem fillRows_scale {row i v : ℕ} (hrow : row ∈ rows)
    (h : EditsAt (stores (repackRow ops (rowByte data t row) t.ggmlType r pl).scale) i
      fun _ => v) :
    (fillRows ops data t r pl rows).scale (row * r.wgroups + i) = v := by
  obtain ⟨edit, hedit, rfl⟩ := h.some
  have hlt := (hholds row).scaleLt edit hedit
  exact (editsAt_rowEdits (fun i _ => (hholds i).scaleLt) hrow hlt h).edited_eq rfl

theorem fillRows_kept (heven : r.width % 2 = 0) {row c : ℕ}
    (hrow : row ∈ rows) (hc : c < r.k) :
    (fillRows ops data t r pl rows).storedInt row (dest c) =
        quant (rowByte data t row) t.ggmlType c + r.zeroPoint ∧
      (fillRows ops data t r pl rows).groupScale row (dest c) =
        scaleBits ops (rowByte data t row) t.ggmlType c := by
  constructor
  · obtain ⟨v, hedits, hread⟩ := (hholds row).quant c hc
    have hweights := fillRows_weights hholds hrow hedits
    have hstored := @storedInt_eq (fillRows ops data t r pl rows) heven row (dest c)
    rw [hstored, ← hread]
    exact congrArg (r.readInt (dest c)) hweights
  · exact fillRows_scale hholds hrow ((hholds row).scale c hc)

end Tensor

/-! ## Column orders -/

section Orders

/-- An order of columns, as a function. -/
theorem exists_order {k : ℕ} {order : List ℤ}
    (h : order.Perm ((List.range k).map Nat.cast)) :
    ∃ f, PermutesBelow k f ∧ order = columnOrder k f := by
  have hlength : order.length = k := by simpa using h.length_eq
  have hread : ∀ j < k, ∃ i < k, order.getD j 0 = (i : ℤ) := by
    intro j hj
    rw [List.getD_eq_getElem _ _ (hlength.symm ▸ hj)]
    obtain ⟨i, hi, heq⟩ := List.mem_map.mp (h.subset (List.getElem_mem (hlength.symm ▸ hj)))
    exact ⟨i, List.mem_range.mp hi, heq.symm⟩
  have hcast : ∀ j < k, ((order.getD j 0).toNat : ℤ) = order.getD j 0 := by
    intro j hj
    obtain ⟨i, -, hi⟩ := hread j hj
    rw [hi, Int.toNat_natCast]
  have hnodup : order.Nodup := h.nodup_iff.mpr
    (List.Nodup.map (fun _ _ heq => Int.ofNat_inj.mp heq) List.nodup_range)
  refine ⟨fun j => (order.getD j 0).toNat, ⟨fun j hj => ?_, fun i hi j hj heq => ?_⟩, ?_⟩
  · obtain ⟨i, hi, hji⟩ := hread j hj
    rwa [hji, Int.toNat_natCast]
  · have hsame : order.getD i 0 = order.getD j 0 := by
      rw [← hcast i hi, ← hcast j hj]
      exact congrArg Nat.cast heq
    rw [List.getD_eq_getElem _ _ (hlength.symm ▸ hi),
      List.getD_eq_getElem _ _ (hlength.symm ▸ hj)] at hsame
    exact (hnodup.getElem_inj_iff).mp hsame
  · refine List.ext_getElem (by simp [hlength]) fun j hj hj' => ?_
    have hk : j < k := hlength ▸ hj
    simp only [columnOrder, List.getElem_map, List.getElem_range]
    rw [hcast j hk, List.getD_eq_getElem _ _ hj]

/-- The order that is asked for, if any, is one of the columns. -/
def OrdersColumns (k : ℕ) (dest : Option (List ℤ)) : Prop :=
  ∀ order ∈ dest, order.Perm ((List.range k).map Nat.cast)

variable {k type : ℕ} {dest : Option (List ℤ)} (hdest : OrdersColumns k dest)
  (hcheck : checkColumns type k dest = .ok ())

include hcheck in
/-- Only the types with mins take a column order. -/
theorem dest_eq_none (hplain : ¬ HasMins type) : dest = none := by
  unfold HasMins at hplain
  unfold checkColumns at hcheck
  rw [if_neg hplain] at hcheck
  simpa using (ensure_ok _ _ _).mp hcheck

include hdest hcheck

/-- An accepted order permutes the groups. -/
theorem mainGroupOf_permutes (htype : HasMins type) (hk : k % 32 = 0) (perAug : ℕ) :
    PermutesBelow (k / 32) (placement perAug dest).mainGroupOf := by
  cases dest with
  | none => exact .id _
  | some order =>
      obtain ⟨f, hf, rfl⟩ := exists_order (hdest order rfl)
      exact placement_permutes htype hk hf hcheck perAug

/-- The columns go where their groups go. -/
theorem placeOf_eq (hk : k % 32 = 0) (perAug : ℕ) {c : ℕ} (hc : c < k) :
    placeOf (dest.getD []) c = destColumn (placement perAug dest) k c := by
  cases dest with
  | none => exact (moveBlocks_id 0 _ 32 c).symm
  | some order =>
      have htype : HasMins type := by
        by_contra hplain
        exact absurd (dest_eq_none hcheck hplain) (by simp)
      obtain ⟨f, hf, rfl⟩ := exists_order (hdest order rfl)
      have hne : columnOrder k f ≠ [] := by
        rw [← List.length_pos_iff_ne_nil, length_columnOrder]
        exact Nat.zero_lt_of_lt hc
      obtain ⟨g, hg, l, hl, rfl⟩ := exists_block ((groups_mul hk).symm ▸ hc)
      rw [Option.getD_some, placeOf, if_neg hne, getD_columnOrder hc, Int.toNat_natCast,
        destColumn_group _ hg hl, order_eq_of_checkColumns htype hcheck perAug hg hl]

/-- A group goes where its columns go. -/
theorem placeOf_group (hk : k % 32 = 0) (perAug : ℕ) {g : ℕ} (hg : g < k / 32) :
    placeOf (dest.getD []) (g * 32) / 32 = (placement perAug dest).mainGroupOf g := by
  have hplace := placeOf_eq hdest hcheck hk perAug (show g * 32 + 0 < k by omega)
  rw [destColumn_group _ hg (by decide)] at hplace
  rw [← Nat.add_zero (g * 32), hplace, block_div (by decide)]

end Orders

/-! ## The quants -/

section Kept

variable {F : Type} {ops : FloatOps F} {data : ℕ → UInt8} {t : TensorInfo}
  {request : RepackRequest} {mins : RepackMins} {r : RepackedTensor}

/-- What a repack goes through, with the tensor it begins with. -/
theorem repackTensor_cases (h : repackTensor ops data t request mins = .ok r) :
    ∃ e, e = emptyTensor t mins request.columnDestOf.isSome (request.columnDestOf.getD []) ∧
      repackSupported t.ggmlType = true ∧ e.k % repackBlockSize t.ggmlType = 0 ∧
      checkColumns t.ggmlType e.k request.columnDestOf = .ok () ∧
      r = fillRows ops data t e (placement e.groupsPerAug request.columnDestOf)
        (filledRows request e.n) := by
  obtain ⟨_, hsupported, h1⟩ := bind_ok.mp h
  obtain ⟨_, _, h2⟩ := bind_ok.mp h1
  obtain ⟨_, hblocks, h3⟩ := bind_ok.mp h2
  obtain ⟨_, _, h4⟩ := bind_ok.mp h3
  obtain ⟨_, hcolumns, hresult⟩ := bind_ok.mp h4
  cases hresult
  exact ⟨_, rfl, (ensure_ok _ _ _).mp hsupported, (ensure_ok _ _ _).mp hblocks, hcolumns, rfl⟩

/-- The bytes of two columns are of one row. -/
theorem emptyTensor_even {reordered : Bool} {columnDestOf : List ℤ}
    (hr : r = emptyTensor t mins reordered columnDestOf)
    (hk : r.k % repackBlockSize t.ggmlType = 0) : r.width % 2 = 0 := by
  have hk32 := mod_group_of_mod_block hk
  have haug := emptyTensor_kAug_mod hr
  rw [RepackedTensor.width]
  omega

/-- Whatever the floats are, a column of an accepted tensor keeps its integer, and the half that is
stored for its scale is that of the decoder's product. -/
theorem repackTensor_kept (hdest : OrdersColumns r.k request.columnDestOf)
    (h : repackTensor ops data t request mins = .ok r) {row c : ℕ} (hrow : row < r.n)
    (hc : c < r.k) :
    r.storedInt row (placeOf r.columnDestOf c) =
        quant (rowByte data t row) t.ggmlType c + r.zeroPoint ∧
      r.groupScale row (placeOf r.columnDestOf c) =
        scaleBits ops (rowByte data t row) t.ggmlType c := by
  obtain ⟨e, he, hsupported, hblocks, hcheck, rfl⟩ := repackTensor_cases h
  have hk32 := mod_group_of_mod_block hblocks
  have hholds := fun i => @repackRow_holds F ops (rowByte data t i) t mins _ _ e he
    request.columnDestOf hsupported hblocks (fun hplain => dest_eq_none hcheck hplain)
    (fun htype => mainGroupOf_permutes hdest hcheck htype hk32 _)
  have hkept := fillRows_kept hholds (emptyTensor_even he hblocks)
    (@mem_filledRows request _ row hrow) hc
  have hplace : placeOf e.columnDestOf c =
      destColumn (placement e.groupsPerAug request.columnDestOf) e.k c := by
    have horder : e.columnDestOf = request.columnDestOf.getD [] := by rw [he]; rfl
    rw [horder]
    exact placeOf_eq hdest hcheck hk32 e.groupsPerAug hc
  rw [← hplace] at hkept
  exact hkept

end Kept

end Arcint.Gguf.Packing
