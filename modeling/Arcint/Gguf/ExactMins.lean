import Arcint.Gguf.RepackKept

/-! # The mins of the exact packing

A min is stored in steps of the half of its augmented group and read back as the integer of steps
under that half. Where the half is the super-block's own, no operation on the way rounds.
-/

namespace Arcint.Gguf.Packing

open Foundation BinaryFormat
open Verdicts (placeOf lround lround_natCast scaleMinK4_le)

/-! ## What is read back -/

section Read

variable {F : Type} {ops : FloatOps F}

/-- The integer of a min fits where it is stored. -/
theorem storedMin_le (r : RepackedTensor) (sc : ℕ → ℕ) (gm : GroupMin F) :
    storedMin ops r sc gm ≤ if r.weightsType = .u4 then 63 else 255 := by
  unfold storedMin
  dsimp only
  split_ifs <;> omega

variable {byte : ℕ → ℕ} {t : TensorInfo} {mins : RepackMins} {reordered : Bool}
  {columnDestOf : List ℤ} {r : RepackedTensor}
  (hr : r = emptyTensor t mins reordered columnDestOf) (htype : HasMins t.ggmlType)
  (hk : r.k % 256 = 0) (hmins : mins ≠ .split) {pl : Placement}

include hr htype hk hmins

/-- A row with augmented groups. -/
theorem repackRowMins_packed :
    repackRowMins ops byte r t.ggmlType pl =
      { weights := stores ((List.range (r.k / 32)).flatMap (groupWrites pl byte t.ggmlType)) ++
          (groupMins pl ops byte t.ggmlType r.k).map
            (augEdit ops r (augHalves ops byte t.ggmlType r pl))
        scale := ((List.range (r.k / 32)).map fun g =>
            (pl.mainGroupOf g, scaleBits ops byte t.ggmlType (g * 32 + 0))) ++
          (List.range (r.kAug / 32)).map fun a =>
            (r.k / 32 + a, augHalves ops byte t.ggmlType r pl a)
        minMatrix := [] } := by
  rw [repackRowMins_eq htype r pl hk]
  dsimp only
  rw [if_neg (by rwa [emptyTensor_mins hr htype])]

variable (hpl : PermutesBelow (r.k / 32) pl.mainGroupOf)

include hpl

theorem augScale_editsAt {a : ℕ} (ha : a < r.kAug / 32) :
    EditsAt (stores (repackRowMins ops byte r t.ggmlType pl).scale) (r.k / 32 + a) fun _ =>
      augHalves ops byte t.ggmlType r pl a := by
  rw [repackRowMins_packed hr htype hk hmins, stores_append]
  refine EditsAt.append_right ((fillsRange_map fun a _ => rfl).editsAt ha) fun edit hmem hkey => ?_
  obtain ⟨write, hwrite, rfl⟩ := List.mem_map.mp hmem
  obtain ⟨g, hg, rfl⟩ := List.mem_map.mp hwrite
  have hlt := hpl.lt g (List.mem_range.mp hg)
  dsimp only at hkey
  omega

variable (haug : ∀ g, pl.augGroupOf g = pl.mainGroupOf g / r.groupsPerAug)
  (hslot : ∀ g, pl.augSlotOf g = pl.mainGroupOf g % r.groupsPerAug)

include haug hslot

/-- The edit of a min is alone at its place, when no two mins share a byte. -/
theorem augEdit_editsAt {g : ℕ} (hg : g < r.k / 32)
    (hbyte : r.weightsType = .u4 → r.augSlots = 2) :
    EditsAt (repackRowMins ops byte r t.ggmlType pl).weights
      ((r.k / 32 + pl.augGroupOf g) * r.groupBytes + pl.augSlotOf g)
      (augEdit ops r (augHalves ops byte t.ggmlType r pl)
        (groupMin pl ops byte t.ggmlType r.k g)).2 := by
  have hoffset : ∀ slot, augOffset r slot = slot :=
    fun slot => if_neg fun h => h.2 (hbyte h.1)
  have hroom : ∀ g < r.k / 32, pl.augSlotOf g < r.groupBytes := by
    intro g hg
    rw [← hoffset (pl.augSlotOf g)]
    exact (augPlace_lt hr htype hpl haug hslot hmins hg).2
  have hfst : ∀ g, (augEdit ops r (augHalves ops byte t.ggmlType r pl)
      (groupMin pl ops byte t.ggmlType r.k g)).1 =
        (r.k / 32 + pl.augGroupOf g) * r.groupBytes + pl.augSlotOf g := by
    intro g
    rw [augEdit_fst, hoffset]
    rfl
  rw [repackRowMins_packed hr htype hk hmins]
  refine EditsAt.append_right ⟨?_, ?_⟩ ?_
  · exact ⟨_, List.mem_map_of_mem (List.mem_map_of_mem (List.mem_range.mpr hg)), hfst g⟩
  · intro edit hedit hkey
    obtain ⟨gm, hgm, rfl⟩ := List.mem_map.mp hedit
    obtain ⟨g', hg', rfl⟩ := List.mem_map.mp hgm
    have hg' := List.mem_range.mp hg'
    rw [hfst] at hkey
    -- the augmented group and the slot say which group it is
    obtain ⟨hgroup, hplace⟩ := block_inj (hroom g' hg') (hroom g hg) hkey
    have hgroup := Nat.add_left_cancel hgroup
    rw [haug, haug] at hgroup
    rw [hslot, hslot] at hplace
    have hmain : pl.mainGroupOf g' = pl.mainGroupOf g := by
      rw [← Nat.div_add_mod (pl.mainGroupOf g') r.groupsPerAug, hgroup, hplace, Nat.div_add_mod]
    rw [hpl.inj g' hg' g hg hmain]
  · intro edit hedit hkey
    have hlt := @mainGroups_lt byte t mins reordered columnDestOf r hr htype pl hpl edit hedit
    rw [hkey, Nat.add_mul, Nat.add_assoc] at hlt
    exact absurd hlt (Nat.not_lt.mpr (Nat.le_add_right _ _))

end Read

/-- The nibbles of an integer below 64, read the other way round. -/
theorem swapNibbles {mn : ℕ} (h : mn ≤ 63) :
    (mn / 16 + mn % 16 * 16) % 256 % 16 * 16 + (mn / 16 + mn % 16 * 16) % 256 / 16 = mn := by
  have hhigh : mn / 16 < 16 := by omega
  have hbyte : mn / 16 + mn % 16 * 16 < 256 := by omega
  rw [Nat.mod_eq_of_lt hbyte, Nat.add_mul_mod_self_right, Nat.mod_eq_of_lt hhigh,
    Nat.add_mul_div_right _ _ (by decide), Nat.div_eq_of_lt hhigh, Nat.zero_add, Nat.mul_comm]
  exact Nat.div_add_mod mn 16

/-- What a min is stored as is read back as the min, when no two mins share a byte. -/
theorem augEdit_read {F : Type} {ops : FloatOps F} {r : RepackedTensor}
    (hbyte : r.weightsType = .u4 → r.augSlots = 2) (sc : ℕ → ℕ) (gm : GroupMin F) :
    ∃ v, (augEdit ops r sc gm).2 = (fun _ => v) ∧
      (if r.weightsType = .u4 then v % 16 * 16 + v / 16 else v) = storedMin ops r sc gm := by
  have hle := @storedMin_le _ ops r sc gm
  unfold augEdit
  dsimp only
  by_cases hu4 : r.weightsType = .u4
  · rw [if_pos hu4] at hle
    rw [if_neg (not_not.mpr hu4), if_pos (hbyte hu4)]
    refine ⟨_, rfl, ?_⟩
    rw [if_pos hu4]
    exact swapNibbles hle
  · rw [if_neg hu4] at hle
    rw [if_pos hu4]
    refine ⟨_, rfl, ?_⟩
    rw [if_neg hu4]
    exact Nat.mod_eq_of_lt (Nat.lt_succ_of_le hle)

/-- The min of a group, from the half and the byte that are stored for it. -/
theorem repackedGroupMin_of {F : Type} {ops : FloatOps F} {r : RepackedTensor}
    (hsplit : r.mins ≠ .split) (hkAug : r.kAug ≠ 0)
    (hbyte : r.weightsType = .u4 → r.augSlots = 2) {row g s v : ℕ}
    (hscale : r.scale (row * r.wgroups + (r.k / 32 + g / r.groupsPerAug)) = s)
    (hweights : r.weights (row * r.rowWeights +
      ((r.k / 32 + g / r.groupsPerAug) * r.groupBytes + g % r.groupsPerAug)) = v) :
    r.repackedGroupMin ops row g = ops.mul (ops.ofHalf s)
      (ops.ofInt (if r.weightsType = .u4 then v % 16 * 16 + v / 16 else v : ℕ)) := by
  unfold RepackedTensor.repackedGroupMin
  rw [if_neg hsplit, if_neg hkAug]
  dsimp only
  rw [hscale, Nat.add_assoc, hweights]
  by_cases hu4 : r.weightsType = .u4
  · rw [if_neg (not_not.mpr hu4), if_pos (hbyte hu4), if_pos hu4]
  · rw [if_pos hu4, if_neg hu4]

section Filled

variable {F : Type} {ops : FloatOps F} {data : ℕ → UInt8} {t : TensorInfo} {reordered : Bool}
  {columnDestOf : List ℤ} {r : RepackedTensor}
  (hr : r = emptyTensor t .exact reordered columnDestOf) (htype : HasMins t.ggmlType)

include hr htype in
/-- No two mins share a byte. -/
theorem emptyTensor_augSlots (hu4 : r.weightsType = .u4) : r.augSlots = 2 := by
  have h12 := (emptyTensor_u4 hr htype).mp hu4
  simp [hr, emptyTensor, h12, HasMins, augSlots]

variable (hk : r.k % 256 = 0) {pl : Placement} (hpl : PermutesBelow (r.k / 32) pl.mainGroupOf)
  (haug : ∀ g, pl.augGroupOf g = pl.mainGroupOf g / r.groupsPerAug)
  (hslot : ∀ g, pl.augSlotOf g = pl.mainGroupOf g % r.groupsPerAug)
  (hholds : ∀ i, RowHolds ops (rowByte data t i) t.ggmlType r (destColumn pl r.k)
    (repackRow ops (rowByte data t i) t.ggmlType r pl))

include hr htype hk hpl haug hslot hholds

/-- The min that is read of a group is its integer under the half of its augmented group. -/
theorem repackedGroupMin_eq {rows : List ℕ} {row g : ℕ} (hrow : row ∈ rows) (hg : g < r.k / 32) :
    (fillRows ops data t r pl rows).repackedGroupMin ops row (pl.mainGroupOf g) =
      let sc := augHalves ops (rowByte data t row) t.ggmlType r pl
      ops.mul (ops.ofHalf (sc (pl.augGroupOf g)))
        (ops.ofInt (storedMin ops r sc
          (groupMin pl ops (rowByte data t row) t.ggmlType r.k g))) := by
  have hmins : RepackMins.exact ≠ .split := by decide
  have hgroup := (augPlace_lt hr htype hpl haug hslot hmins hg).1
  have hrepack : ∀ i, repackRow ops (rowByte data t i) t.ggmlType r pl =
      repackRowMins ops (rowByte data t i) r t.ggmlType pl := by
    intro i
    rcases htype with h | h <;> rw [h] <;> rfl
  have hscale : (fillRows ops data t r pl rows).scale
      (row * r.wgroups + (r.k / 32 + pl.augGroupOf g)) =
        augHalves ops (rowByte data t row) t.ggmlType r pl (pl.augGroupOf g) := by
    refine fillRows_scale hholds hrow ?_
    rw [hrepack]
    exact augScale_editsAt hr htype hk hmins hpl hgroup
  have hslots := emptyTensor_augSlots hr htype
  obtain ⟨v, hedit, hread⟩ := augEdit_read hslots
    (augHalves ops (rowByte data t row) t.ggmlType r pl)
    (groupMin pl ops (rowByte data t row) t.ggmlType r.k g)
  have hweights : (fillRows ops data t r pl rows).weights (row * r.rowWeights +
      ((r.k / 32 + pl.augGroupOf g) * r.groupBytes + pl.augSlotOf g)) = v := by
    refine fillRows_weights hholds hrow ?_
    rw [hrepack, ← hedit]
    exact augEdit_editsAt hr htype hk hmins hpl haug hslot hg hslots
  have hkAug : r.kAug ≠ 0 := fun hzero => by simp [hzero] at hgroup
  have hsplit : r.mins ≠ .split := by rw [emptyTensor_mins hr htype]; exact hmins
  rw [haug] at hscale
  rw [haug, hslot] at hweights
  dsimp only
  rw [← hread, haug]
  exact @repackedGroupMin_of F ops (fillRows ops data t r pl rows) hsplit hkAug hslots _ _ _ _
    hscale hweights

end Filled

/-! ## The floats -/

section Numbers

variable {nan : ℕ → ℕ → ℕ} {other : ℕ → ℤ} {h m : ℕ} (hfinite : binary16.Finite h)
  (hm : m ≤ 63)

include hm in
theorem ofInt_small :
    binary32.Finite (binary32.ofInt m) ∧ binary32.units (binary32.ofInt m) = m * binary32.one ∧
      binary32.value (binary32.ofInt m) = m := by
  have hshort : m < 2 ^ 24 := by omega
  exact ofInt_exact ⟨m, hshort, 149, by decide, rfl⟩

include hfinite hm

/-- A float that is read of a half has room for the product with a small integer. -/
theorem mul_small :
    binary32.Finite (binary32.mul nan (f16ToF32 h) (binary32.ofInt m)) ∧
      binary32.units (binary32.mul nan (f16ToF32 h) (binary32.ofInt m)) =
        m * binary32.units (f16ToF32 h) ∧
      binary32.value (binary32.mul nan (f16ToF32 h) (binary32.ofInt m)) =
        binary16.value h * m := by
  obtain ⟨hint, hunits, hvalue⟩ := ofInt_small hm
  obtain ⟨n, hn, e, he, hhalf⟩ := units_representable hfinite
  have hn : n < 2 ^ 11 := hn
  have he : e ≤ 29 := he
  have hproduct : binary32.Representable (m * binary32.units (f16ToF32 h)) := by
    refine ⟨n * m, ?_, e + 125, ?_, ?_⟩
    · calc n * m ≤ 2 ^ 11 * 63 := Nat.mul_le_mul hn.le hm
        _ < 2 ^ 24 := by decide
    · change e + 125 ≤ 253
      omega
    · rw [units_f16ToF32 hfinite, hhalf, Nat.pow_add]
      ring
  rw [← value_f16ToF32 hfinite, ← hvalue]
  exact mul_exact (finite_f16ToF32 hfinite) hint hproduct (by rw [hunits]; ring)

/-- The quotient by the float is the integer again. -/
theorem div_small (hpos : 0 < binary16.value h) :
    binary32.Finite (binary32.div nan (binary32.mul nan (f16ToF32 h) (binary32.ofInt m))
      (f16ToF32 h)) ∧
    binary32.value (binary32.div nan (binary32.mul nan (f16ToF32 h) (binary32.ofInt m))
      (f16ToF32 h)) = m := by
  obtain ⟨hmul, hunits, hvalue⟩ := @mul_small nan h m hfinite hm
  have hshort : m < 2 ^ 24 := by omega
  have hne : binary32.units (f16ToF32 h) ≠ 0 := by
    intro hzero
    rw [← value_f16ToF32 hfinite] at hpos
    simp [value, hzero] at hpos
  obtain ⟨hdiv, hquotient⟩ := @div_exact binary32 nan _ _ (m * binary32.one) hmul
    (finite_f16ToF32 hfinite) hne ⟨m, hshort, 149, by decide, rfl⟩ (by rw [hunits]; ring)
  refine ⟨hdiv, ?_⟩
  rw [hquotient, hvalue, value_f16ToF32 hfinite]
  exact mul_div_cancel_left₀ _ hpos.ne'

end Numbers

theorem ofInt_zero : binary32.ofInt 0 = 0 := by
  simp [ofInt, withSign, BinaryFormat.round, nearest]

section Stored

variable {nan : ℕ → ℕ → ℕ} {other : ℕ → ℤ} {r : RepackedTensor} {sc : ℕ → ℕ}
  {gm : GroupMin ℕ}

/-- What is rounded to an integer that fits is stored as it is. -/
theorem storedMin_eq {F : Type} {ops : FloatOps F} {gm : GroupMin F}
    (hbyte : r.weightsType = .u4 → r.augSlots = 2) {n : ℕ} (hn : n ≤ 63)
    (hround : (if ops.positive (ops.ofHalf (sc (gm.ag - r.k / 32))) then
      ops.lround (ops.div (ops.mul gm.dmin (ops.ofInt gm.m6))
        (ops.ofHalf (sc (gm.ag - r.k / 32)))) else 0) = (n : ℤ)) :
    storedMin ops r sc gm = n := by
  unfold storedMin
  dsimp only
  rw [hround]
  have hcap : ((n : ℕ) : ℤ) ≤
      if r.weightsType = .u4 ∧ r.augSlots = 1 then 15
      else if r.weightsType = .u4 then 63 else 255 := by
    by_cases hu4 : r.weightsType = .u4
    · rw [if_neg (by rw [hbyte hu4]; simp), if_pos hu4]
      omega
    · rw [if_neg fun h => hu4 h.1, if_neg hu4]
      omega
  rw [min_eq_right hcap, max_eq_right (Int.natCast_nonneg n), Int.toNat_natCast]

/-- A float of the value of a small integer is rounded to it. -/
theorem lround_small {x n : ℕ} (hx : binary32.Finite x) (hvalue : binary32.value x = n)
    (hn : n ≤ 63) : (binary32Ops nan other).lround x = n := by
  have hint : lround (binary32.value x) = n := by
    rw [hvalue, lround_natCast]
  have hfits : (lround (binary32.value x)).natAbs < 2 ^ 63 := by
    rw [hint, Int.natAbs_natCast]
    omega
  change (if _ ∧ _ then lround (binary32.value x) else _) = _
  rw [if_pos ⟨hx, hfits⟩, hint]

variable {h : ℕ} (hlt : h < 2 ^ 16) (hfinite : binary16.Finite h) (hm : gm.m6 ≤ 63)
  (hbyte : r.weightsType = .u4 → r.augSlots = 2) (hdmin : gm.dmin = f16ToF32 h)
  (hsc : sc (gm.ag - r.k / 32) = toF16 (binary32.max (binary32.ofInt 0) (f16ToF32 h)))

include hlt hfinite hm hbyte hdmin hsc

/-- Under the half that it is a multiple of, a min is read back as it was. -/
theorem storedMin_exact (hnonneg : 0 ≤ binary16.value h) {min : ℕ}
    (hmin : min = binary32.mul nan (f16ToF32 (sc (gm.ag - r.k / 32)))
      (binary32.ofInt (storedMin (binary32Ops nan other) r sc gm))) :
    binary32.Finite min ∧ binary32.value min = binary16.value h * gm.m6 := by
  have habove := @lt_zero_iff binary32 _ (finite_f16ToF32 hfinite)
  rw [value_f16ToF32 hfinite] at habove
  rw [ofInt_zero] at hsc
  rcases hnonneg.lt_or_eq with hpos | hzero
  · have hsame : sc (gm.ag - r.k / 32) = h := by
      rw [hsc, BinaryFormat.max, if_pos (habove.mpr hpos),
        toF16_f16ToF32 hlt (Finite.not_isNaN hfinite)]
    have hstored : storedMin (binary32Ops nan other) r sc gm = gm.m6 := by
      obtain ⟨hdiv, hvalue⟩ := @div_small nan h gm.m6 hfinite hm hpos
      refine storedMin_eq hbyte hm ?_
      rw [hsame, hdmin]
      exact (if_pos (habove.mpr hpos)).trans (lround_small hdiv hvalue hm)
    obtain ⟨hmul, -, hvalue⟩ := @mul_small nan h gm.m6 hfinite hm
    rw [hmin, hsame, hstored]
    exact ⟨hmul, hvalue⟩
  · -- nothing is above zero, and zero is stored
    have hnull : f16ToF32 (sc (gm.ag - r.k / 32)) = 0 := by
      rw [hsc, BinaryFormat.max, if_neg fun habove' => (habove.mp habove').ne hzero]
      decide
    have hstored : storedMin (binary32Ops nan other) r sc gm = 0 := by
      refine storedMin_eq hbyte (Nat.zero_le 63) ?_
      change (if binary32.lt 0 (f16ToF32 (sc (gm.ag - r.k / 32))) = true then _ else _) = _
      rw [hnull, if_neg (by rw [lt_self]; decide)]
      rfl
    obtain ⟨hmul, -, hvalue⟩ := @mul_small nan 0 0 (by decide) (Nat.zero_le 63)
    have hfloat : f16ToF32 0 = 0 := by decide
    rw [hmin, hnull, ← hfloat, hstored, ← hzero, zero_mul]
    exact ⟨hmul, by rw [hvalue, Nat.cast_zero, mul_zero]⟩

end Stored

end Arcint.Gguf.Packing
