import Arcint.Gguf.ExactMins

/-! # The file's quants and mins

A repacked tensor reads back the integers that the decoder multiplies, under the halves of its
scales. In the exact packing an augmented group serves one super-block, as long as the column
order keeps runs of 128 columns together, and then it reads back the mins of the file too.
-/

namespace Arcint.Gguf.Packing

open Foundation BinaryFormat
open Text (bytes)
open Verdicts (placeOf scaleMinK4 scaleMinK4_le flatTensor)

/-! ## Groups of one super-block -/

/-- The order that is asked for, if any, moves runs of 128 columns whole. -/
def MovesRuns (k : ℕ) (dest : Option (List ℤ)) : Prop :=
  ∀ order ∈ dest, ∀ h < k / 128, ∀ i < 128,
    order.getD (h * 128 + i) 0 = order.getD (h * 128) 0 + i

section Blocks

variable {t : TensorInfo} {dest : Option (List ℤ)} {r : RepackedTensor}
  (hr : r = emptyTensor t .exact dest.isSome (dest.getD []))
  (htype : HasMins t.ggmlType) (hk : r.k % 256 = 0)
  (hdest : OrdersColumns r.k dest) (hcheck : checkColumns t.ggmlType r.k dest = .ok ())
  (hruns : MovesRuns r.k dest)

include hr htype in
theorem emptyTensor_groupsPerAug :
    r.groupsPerAug = if dest.isSome then 4 else 8 := by
  have hmins : RepackMins.exact ≠ .split := by decide
  rw [hr]
  exact (if_pos ⟨htype, hmins⟩).trans rfl

include htype hk hdest hcheck hruns in
/-- The four groups of a run stay together. -/
theorem mainGroupOf_run {order : List ℤ} (hsome : dest = some order) (perAug : ℕ) {h j : ℕ}
    (hh : h < r.k / 128) (hj : j < 4) :
    (placement perAug dest).mainGroupOf (h * 4 + j) =
      (placement perAug dest).mainGroupOf (h * 4) + j := by
  subst hsome
  obtain ⟨f, hf, rfl⟩ := exists_order (hdest order rfl)
  have hcount : r.k / 128 * 4 = r.k / 32 := by omega
  have hgroup := @order_eq_of_checkColumns _ _ _ htype hcheck perAug
  have hrun := hruns _ rfl h hh (j * 32) (by omega)
  have hfirst := @hgroup (h * 4) 0 (by omega) (by decide)
  have hthis := @hgroup (h * 4 + j) 0 (by omega) (by decide)
  rw [getD_columnOrder (by omega), getD_columnOrder (by omega)] at hrun
  have hplace : (h * 4 + j) * 32 + 0 = h * 128 + j * 32 := by omega
  have hplace' : h * 4 * 32 + 0 = h * 128 := by omega
  rw [hplace] at hthis
  rw [hplace'] at hfirst
  omega

include hr htype hk hdest hcheck hruns

/-- The groups of an augmented group are of one super-block. -/
theorem augGroup_block {g g' : ℕ} (hg : g < r.k / 32) (hg' : g' < r.k / 32)
    (hsame : (placement r.groupsPerAug dest).augGroupOf g' =
      (placement r.groupsPerAug dest).augGroupOf g) : g' / 8 = g / 8 := by
  have hperAug := emptyTensor_groupsPerAug hr htype
  have hk32 : r.k % 32 = 0 := by omega
  have hcount : r.k / 128 * 4 = r.k / 32 := by omega
  have hpl := mainGroupOf_permutes hdest hcheck htype hk32 r.groupsPerAug
  cases hcase : dest with
  | none =>
      rw [hcase] at hsame hperAug
      change g' / r.groupsPerAug = g / r.groupsPerAug at hsame
      rwa [hperAug] at hsame
  | some order =>
      have hrun := fun {h j : ℕ} => @mainGroupOf_run t dest r htype hk hdest hcheck hruns order
        hcase r.groupsPerAug h j
      have hfour : r.groupsPerAug = 4 := by
        rw [hperAug, hcase]
        rfl
      change (placement r.groupsPerAug dest).mainGroupOf g' / r.groupsPerAug =
        (placement r.groupsPerAug dest).mainGroupOf g / r.groupsPerAug at hsame
      rw [← hcount] at hpl hg hg'
      rw [hfour] at hsame hpl hrun
      have hblock := hpl.block_eq (fun b hb l hl => hrun hb hl) hg' hg hsame
      omega

end Blocks

/-! ## The mins -/

/-- The scale of an augmented group whose mins are multiples of one float. -/
theorem augScales_eq {F : Type} {ops : FloatOps F} {r : RepackedTensor} (hmins : r.mins ≠ .nibble)
    {gmins : List (GroupMin F)} {a : ℕ} {d : F} (hsome : ∃ gm ∈ gmins, gm.ag - r.k / 32 = a)
    (hagree : ∀ gm ∈ gmins, gm.ag - r.k / 32 = a → gm.dmin = d)
    (hagain : ops.max (ops.max (ops.ofInt 0) d) d = ops.max (ops.ofInt 0) d) :
    augScales ops r gmins a = ops.max (ops.ofInt 0) d := by
  refine @EditsAt.edited_eq _ _ _ (fun s => ops.max s d) a ⟨?_, ?_⟩ hagain
  · obtain ⟨gm, hgm, ha⟩ := hsome
    exact ⟨_, List.mem_map_of_mem hgm, ha⟩
  · intro edit hedit hkey
    obtain ⟨gm, hgm, rfl⟩ := List.mem_map.mp hedit
    funext s
    rw [← hagree gm hgm hkey]
    exact if_neg fun h => hmins h.1

/-- A number is the larger of itself and another once and for all. -/
theorem max_again (a b : ℕ) : binary32.max (binary32.max a b) b = binary32.max a b := by
  by_cases hlt : binary32.lt a b = true
  · have hmax : binary32.max a b = b := if_pos hlt
    rw [hmax, BinaryFormat.max, lt_self, if_neg (by decide)]
  · have hmax : binary32.max a b = a := if_neg hlt
    rw [hmax, hmax]

theorem dminBits_lt {byte : ℕ → ℕ} (hbyte : ∀ i, byte i < 256) (type b : ℕ) :
    dminBits byte type b < 2 ^ 16 := by
  have hlow := hbyte (b * superBytes type + 2)
  have hhigh := hbyte (b * superBytes type + 2 + 1)
  unfold dminBits
  dsimp only
  omega

section Exact

variable {nan : ℕ → ℕ → ℕ} {other : ℕ → ℤ} {t : TensorInfo} {dest : Option (List ℤ)}
  {r : RepackedTensor} (hr : r = emptyTensor t .exact dest.isSome (dest.getD []))
  (htype : HasMins t.ggmlType) (hk : r.k % 256 = 0)
  (hdest : OrdersColumns r.k dest) (hcheck : checkColumns t.ggmlType r.k dest = .ok ())
  (hruns : MovesRuns r.k dest)

include hr htype hk hdest hcheck hruns

/-- The half of an augmented group is that of the one super-block it serves. -/
theorem augHalves_exact {byte : ℕ → ℕ} {g : ℕ} (hg : g < r.k / 32) :
    augHalves (binary32Ops nan other) byte t.ggmlType r (placement r.groupsPerAug dest)
        ((placement r.groupsPerAug dest).augGroupOf g) =
      toF16 (binary32.max (binary32.ofInt 0) (f16ToF32 (dminBits byte t.ggmlType (g / 8)))) := by
  have hmins : r.mins ≠ .nibble := by
    rw [emptyTensor_mins hr htype]
    decide
  have hplace : ∀ g, (groupMin (placement r.groupsPerAug dest) (binary32Ops nan other) byte
      t.ggmlType r.k g).ag - r.k / 32 = (placement r.groupsPerAug dest).augGroupOf g :=
    fun g => Nat.add_sub_cancel_left _ _
  refine congrArg toF16 (augScales_eq hmins ?_ ?_ (max_again _ _))
  · exact ⟨_, List.mem_map_of_mem (List.mem_range.mpr hg), hplace g⟩
  · intro gm hgm hkey
    obtain ⟨g', hg', rfl⟩ := List.mem_map.mp hgm
    rw [hplace] at hkey
    have hblock := augGroup_block hr htype hk hdest hcheck hruns hg (List.mem_range.mp hg') hkey
    rw [groupMin, hblock]
    rfl

/-- What is read of a group in the exact packing is the product the decoder takes off. -/
theorem fillRows_exactMin {data : ℕ → UInt8} {rows : List ℕ}
    (hholds : ∀ i, RowHolds (binary32Ops nan other) (rowByte data t i) t.ggmlType r
      (destColumn (placement r.groupsPerAug dest) r.k)
      (repackRow (binary32Ops nan other) (rowByte data t i) t.ggmlType r
        (placement r.groupsPerAug dest)))
    {row g min : ℕ} (hrow : row ∈ rows) (hg : g < r.k / 32)
    (hfinite : binary16.Finite (dminBits (rowByte data t row) t.ggmlType (g / 8)))
    (hnonneg : 0 ≤ binary16.value (dminBits (rowByte data t row) t.ggmlType (g / 8)))
    (hmin : min = (fillRows (binary32Ops nan other) data t r (placement r.groupsPerAug dest)
      rows).repackedGroupMin (binary32Ops nan other) row
        ((placement r.groupsPerAug dest).mainGroupOf g)) :
    binary32.Finite min ∧ binary32.value min =
      binary16.value (dminBits (rowByte data t row) t.ggmlType (g / 8)) *
        m6 (rowByte data t row) t.ggmlType g := by
  have hbyte : ∀ i, rowByte data t row i < 256 := fun i => UInt8.toNat_lt _
  have hk32 : r.k % 32 = 0 := by omega
  have hslots := emptyTensor_augSlots hr htype
  rw [repackedGroupMin_eq hr htype hk (mainGroupOf_permutes hdest hcheck htype hk32 _)
    (fun _ => rfl) (fun _ => rfl) hholds hrow hg] at hmin
  have hhalf := @augHalves_exact nan other t dest r hr htype hk hdest hcheck hruns
    (rowByte data t row) g hg
  refine @storedMin_exact nan other r
    (augHalves (binary32Ops nan other) (rowByte data t row) t.ggmlType r
      (placement r.groupsPerAug dest))
    (groupMin (placement r.groupsPerAug dest) (binary32Ops nan other) (rowByte data t row)
      t.ggmlType r.k g) _ (dminBits_lt hbyte _ _) hfinite (scaleMinK4_le hbyte _ _) hslots rfl
    ?_ hnonneg min ?_
  · rw [groupMin, Nat.add_sub_cancel_left]
    exact hhalf
  · rw [hmin]
    dsimp only [groupMin]
    rw [Nat.add_sub_cancel_left]
    rfl

end Exact

/-! ## Repacked tensors -/

section Tensors

variable {data : ℕ → UInt8} {t : TensorInfo} {request : RepackRequest} {mins : RepackMins}

theorem repackTensor_k {F : Type} {ops : FloatOps F} {r : RepackedTensor}
    (h : repackTensor ops data t request mins = .ok r) : r.k = t.dims.getD 0 0 := by
  obtain ⟨e, rfl, -, -, -, rfl⟩ := repackTensor_cases h
  rfl

/-- A row of an accepted tensor, decoded. -/
theorem scatter_dequantizeRow {F : Type} {ops : FloatOps F} {r : RepackedTensor} {byte : ℕ → ℕ}
    (hbyte : ∀ i, byte i < 256) (h : repackTensor ops data t request mins = .ok r) {c : ℕ}
    (hc : c < r.k) (table : ℕ → F) :
    scatter table (dequantizeRow ops byte t.ggmlType r.k) c =
      decoded ops byte t.ggmlType c (quant byte t.ggmlType c) := by
  obtain ⟨e, -, hsupported, hblocks, -, rfl⟩ := repackTensor_cases h
  have hfills := @dequantizeRow_fills F ops byte t.ggmlType e.k hbyte hsupported hblocks
  have hrow := congrFun (scatter_fillsRange hfills table) c
  rw [if_pos ⟨Nat.zero_le c, by rw [Nat.zero_add]; exact hc⟩, Nat.sub_zero] at hrow
  exact hrow

/-- The min that is read of a group of an accepted tensor. -/
theorem repackTensor_exactMin {nan : ℕ → ℕ → ℕ} {other : ℕ → ℤ} {r : RepackedTensor}
    (htype : HasMins t.ggmlType) (hdest : OrdersColumns r.k request.columnDestOf)
    (hruns : MovesRuns r.k request.columnDestOf)
    (h : repackTensor (binary32Ops nan other) data t request .exact = .ok r) {row g : ℕ}
    (hrow : row < r.n) (hg : g < r.k / 32)
    (hdmin : ∀ b < r.k / 256, binary16.Finite (dminBits (rowByte data t row) t.ggmlType b) ∧
      0 ≤ binary16.value (dminBits (rowByte data t row) t.ggmlType b)) :
    let min := r.repackedGroupMin (binary32Ops nan other) row
      (placeOf r.columnDestOf (g * 32) / 32)
    binary32.Finite min ∧ binary32.value min =
      binary16.value (dminBits (rowByte data t row) t.ggmlType (g / 8)) *
        m6 (rowByte data t row) t.ggmlType g := by
  obtain ⟨e, he, hsupported, hblocks, hcheck, rfl⟩ := repackTensor_cases h
  have hk : e.k % 256 = 0 := by
    rcases htype with h12 | h13
    · rwa [h12] at hblocks
    · rwa [h13] at hblocks
  have hk32 : e.k % 32 = 0 := by omega
  have hholds := fun i => @repackRow_holds _ (binary32Ops nan other) (rowByte data t i) t _ _ _ e
    he request.columnDestOf hsupported hblocks (fun hplain => absurd htype hplain)
    fun _ => mainGroupOf_permutes hdest hcheck htype hk32 _
  have hplace : placeOf e.columnDestOf (g * 32) / 32 =
      (placement e.groupsPerAug request.columnDestOf).mainGroupOf g := by
    have horder : e.columnDestOf = request.columnDestOf.getD [] := by rw [he]; rfl
    rw [horder]
    exact placeOf_group hdest hcheck hk32 e.groupsPerAug hg
  have hg : g < e.k / 32 := hg
  obtain ⟨hfinite, hnonneg⟩ := hdmin (g / 8) (show g / 8 < e.k / 256 by omega)
  intro min
  refine @fillRows_exactMin nan other t _ e he htype hk hdest hcheck hruns data _ hholds row g min
    (@mem_filledRows request _ row hrow) hg hfinite hnonneg ?_
  rw [← hplace]
  rfl

/-- In `Q8_0` the scale is the half that is stored. -/
theorem scaleProduct_eq {F : Type} (ops : FloatOps F) {byte : ℕ → ℕ} {type : ℕ} (htype : type = 8)
    (c : ℕ) : scaleProduct ops byte type c = ops.ofHalf (scaleBits ops byte type c) := by
  subst htype
  rfl

theorem scaleBits_lt {F : Type} (ops : FloatOps F) {byte : ℕ → ℕ} (hbyte : ∀ i, byte i < 256)
    {type : ℕ} (htype : type = 8) (c : ℕ) : scaleBits ops byte type c < 2 ^ 16 := by
  have hlow := hbyte (c / 32 * 34)
  have hhigh := hbyte (c / 32 * 34 + 1)
  rw [scaleBits, if_pos htype]
  omega

/-- An accepted tensor keeps the integers and the scales of its columns, whatever the floats are.
The mins of the exact packing are kept too, where they can be. -/
theorem repackTensor_keeps_quants
    (hdest : OrdersColumns (t.dims.getD 0 0) request.columnDestOf) :
    (∀ {F : Type} (ops : FloatOps F) (r : RepackedTensor),
      repackTensor ops data t request mins = .ok r → ∀ row < r.n, ∀ c < r.k,
        r.storedInt row (placeOf r.columnDestOf c) - r.zeroPoint =
            quant (rowByte data t row) t.ggmlType c ∧
          (∀ table, scatter table (dequantizeRow ops (rowByte data t row) t.ggmlType r.k) c =
            decoded ops (rowByte data t row) t.ggmlType c
              (quant (rowByte data t row) t.ggmlType c)) ∧
          (t.ggmlType ≠ 8 → r.groupScale row (placeOf r.columnDestOf c) =
            ops.toHalf (scaleProduct ops (rowByte data t row) t.ggmlType c)) ∧
          (t.ggmlType = 8 → ops.ofHalf (r.groupScale row (placeOf r.columnDestOf c)) =
            scaleProduct ops (rowByte data t row) t.ggmlType c)) ∧
    ∀ nan other r, repackTensor (binary32Ops nan other) data t request mins = .ok r →
      (t.ggmlType = 8 → ∀ row < r.n, ∀ c < r.k,
        ¬ binary16.IsNaN (r.groupScale row (placeOf r.columnDestOf c)) →
          r.groupScale row (placeOf r.columnDestOf c) =
            toF16 (scaleProduct (binary32Ops nan other) (rowByte data t row) t.ggmlType c)) ∧
      (HasMins t.ggmlType → mins = .exact → MovesRuns r.k request.columnDestOf → ∀ row < r.n,
        (∀ b < r.k / 256, binary16.Finite (dminBits (rowByte data t row) t.ggmlType b) ∧
          0 ≤ binary16.value (dminBits (rowByte data t row) t.ggmlType b)) →
        ∀ g < r.k / 32,
          let min := r.repackedGroupMin (binary32Ops nan other) row
            (placeOf r.columnDestOf (g * 32) / 32)
          binary32.Finite min ∧ binary32.value min =
            binary16.value (dminBits (rowByte data t row) t.ggmlType (g / 8)) *
              m6 (rowByte data t row) t.ggmlType g) := by
  have hbyte : ∀ row i, rowByte data t row i < 256 := fun row i => UInt8.toNat_lt _
  refine ⟨fun {F} ops r h row hrow c hc => ?_, fun nan other r h => ⟨?_, ?_⟩⟩
  · rw [← repackTensor_k h] at hdest
    obtain ⟨hquant, hscale⟩ := repackTensor_kept hdest h hrow hc
    refine ⟨by rw [hquant, add_sub_cancel_right], ?_, fun hne => ?_, fun h8 => ?_⟩
    · exact scatter_dequantizeRow (hbyte row) h hc
    · rw [hscale, scaleBits, if_neg hne]
    · rw [hscale, scaleProduct_eq ops h8]
  · intro h8 row hrow c hc hnumber
    rw [← repackTensor_k h] at hdest
    have hscale := (repackTensor_kept hdest h hrow hc).2
    rw [hscale] at hnumber ⊢
    rw [scaleProduct_eq _ h8]
    exact (toF16_f16ToF32 (scaleBits_lt _ (hbyte row) h8 c) hnumber).symm
  · rintro htype rfl hruns row hrow hdmin g hg
    rw [← repackTensor_k h] at hdest
    exact repackTensor_exactMin htype hdest hruns h hrow hg hdmin

end Tensors

/-! ## Rotated runs -/

/-- The four runs of 128 columns, each in the place of the next. -/
def rotated : ℕ → ℕ := moveBlocks (fun h => (h + 1) % 4) 0 4 128

theorem rotated_eq {h i : ℕ} (hh : h < 4) (hi : i < 128) :
    rotated (h * 128 + i) = (h + 1) % 4 * 128 + i := by
  have hmove := @moveBlocks_block (fun h => (h + 1) % 4) 0 4 128 h i hh hi
  rwa [Nat.zero_add, Nat.zero_add] at hmove

theorem rotated_permutes : PermutesBelow 512 rotated := by
  refine PermutesBelow.moveBlocks ⟨?_, ?_⟩ (by decide)
  · decide
  · decide

theorem rotated_ordersColumns : OrdersColumns 512 (some (columnOrder 512 rotated)) := by
  intro order horder
  obtain rfl := Option.mem_some_iff.mp horder
  have hperm := rotated_permutes.map_perm.map (Nat.cast : ℕ → ℤ)
  rwa [List.map_map] at hperm

theorem rotated_movesRuns : MovesRuns 512 (some (columnOrder 512 rotated)) := by
  intro order horder h hh i hi
  obtain rfl := Option.mem_some_iff.mp horder
  have hh : h < 4 := by omega
  rw [getD_columnOrder (by omega), getD_columnOrder (by omega), rotated_eq hh hi,
    ← Nat.add_zero (h * 128), rotated_eq hh (by decide)]
  push_cast
  ring

theorem rotated_checkColumns : checkColumns 12 512 (some (columnOrder 512 rotated)) = .ok () := by
  have hread : ∀ g < 16, ∀ l < 32,
      rotated (g * 32 + l) = (g / 4 + 1) % 4 * 128 + (g % 4 * 32 + l) := by
    intro g hg l hl
    have hplace : g * 32 + l = g / 4 * 128 + (g % 4 * 32 + l) := by omega
    rw [hplace, rotated_eq (by omega) (by omega)]
  refine checkColumns_columnOrder (.inl rfl) (fun g hg => ?_) fun g hg l hl => ?_
  · rw [← Nat.add_zero (g * 32), hread g hg 0 (by decide)]
    omega
  · rw [hread g hg l hl, ← Nat.add_zero (g * 32), hread g hg 0 (by decide)]
    omega

/-- The floats, with one NaN and one integer for what is too large. -/
def someOps : FloatOps ℕ := binary32Ops (fun _ _ => 0x7FC00000) fun _ => 0

def rotatedRequest : RepackRequest := ⟨some (columnOrder 512 rotated), 1, 1⟩

theorem rotated_repack :
    ∃ r, repackTensor someOps (fun _ => 60) flatTensor rotatedRequest .exact = .ok r := by
  refine ⟨_, bind_ok.mpr ⟨(), rfl, bind_ok.mpr ⟨(), rfl, bind_ok.mpr ⟨(), rfl,
    bind_ok.mpr ⟨(), ?_, bind_ok.mpr ⟨(), rotated_checkColumns, rfl⟩⟩⟩⟩⟩⟩
  refine (ensure_ok _ _ _).mpr fun order horder => ?_
  obtain rfl := Option.mem_some_iff.mp horder
  exact length_columnOrder 512 rotated

/-- The mins of a super-block of bytes 60, in units of 271/256. -/
theorem rotated_mins (g : ℕ) :
    binary16.value (dminBits (rowByte (fun _ => 60) flatTensor 0) 12 (g / 8)) *
        m6 (rowByte (fun _ => 60) flatTensor 0) 12 g =
      271 / 256 * if g % 8 < 4 then 60 else 3 := by
  have hdmin : binary16.value (60 + 60 * 256) = 271 / 256 := by decide +kernel
  have hm6 : m6 (rowByte (fun _ => 60) flatTensor 0) 12 g = if g % 8 < 4 then 60 else 3 := by
    have hbyte : ∀ i, rowByte (fun _ => 60) flatTensor 0 i = 60 := fun _ => rfl
    unfold m6 scaleMinK4
    split <;> simp [hbyte]
  rw [hm6]
  change binary16.value (60 + 60 * 256) * _ = _
  rw [hdmin]
  split <;> norm_num

/-- Two super-blocks of bytes 60, with their runs rotated, keep their integers, scales and mins. -/
theorem repackTensor_keeps_quants_rotated :
    ∃ r, repackTensor someOps (fun _ => 60) flatTensor rotatedRequest .exact = .ok r ∧
      r.storedInt 0 (placeOf r.columnDestOf 0) - r.zeroPoint = 12 ∧
      r.groupScale 0 (placeOf r.columnDestOf 0) =
        someOps.toHalf (scaleProduct someOps (rowByte (fun _ => 60) flatTensor 0) 12 0) ∧
      ∀ g < 16, binary32.value (r.repackedGroupMin someOps 0
        (placeOf r.columnDestOf (g * 32) / 32)) = 271 / 256 * if g % 8 < 4 then 60 else 3 := by
  obtain ⟨r, hr⟩ := rotated_repack
  obtain ⟨e, he, -, -, -, hfill⟩ := repackTensor_cases hr
  have hk : r.k = 512 := repackTensor_k hr
  have hn : r.n = 1 := by rw [hfill, he]; rfl
  have hfinite : binary16.Finite (60 + 60 * 256) := by decide
  have hnonneg : 0 ≤ binary16.value (60 + 60 * 256) := by decide +kernel
  obtain ⟨hkept, hfloats⟩ := @repackTensor_keeps_quants (fun _ => 60) flatTensor rotatedRequest
    .exact rotated_ordersColumns
  have hrow : 0 < r.n := by rw [hn]; decide
  obtain ⟨hquant, -, hscale, -⟩ := hkept someOps r hr 0 hrow 0 (by rw [hk]; decide)
  have hmins := (hfloats _ _ r hr).2 (.inl rfl) rfl (by rw [hk]; exact rotated_movesRuns) 0
    hrow fun _ _ => ⟨hfinite, hnonneg⟩
  refine ⟨r, hr, hquant.trans ?_, hscale (by decide), fun g hg => ?_⟩
  · decide
  · exact (hmins g (by rw [hk]; exact hg)).2.trans (rotated_mins g)

/-! ## A NaN -/

def nanTensor : TensorInfo := ⟨bytes "w", [32, 1], 8, 0, 34⟩

/-- A block of `Q8_0` whose scale is a NaN. -/
def nanBlock (i : ℕ) : UInt8 := if i = 0 then 1 else if i = 1 then 0x7C else 0

/-- The half of the block is stored, and not what its float is written as. -/
theorem repackTensor_nan :
    ∃ r, repackTensor someOps nanBlock nanTensor ⟨none, 1, 1⟩ .exact = .ok r ∧
      r.groupScale 0 0 = 0x7C01 ∧
      toF16 (scaleProduct someOps (rowByte nanBlock nanTensor 0) 8 0) = 0x7E00 := by
  refine ⟨_, rfl, ?_, ?_⟩
  · decide
  · decide

end Arcint.Gguf.Packing
