import Arcint.Gguf.Decode
import Arcint.Gguf.Files

/-! # The extent of a tensor

One extent is computed three times: the reader's in wrapping words and whole
blocks, the decoders' from the element count rounded up, the repacker's from the
dimensions. They agree where nothing wraps and a row is a whole number of blocks.
-/

namespace Arcint.Gguf

open Arcint.Foundation
open Arcint.Text (Bytes bytes)

/-! ## Decoders -/

theorem blocks_within :
    (∀ a ∈ blockQ40, a.Within 18 32) ∧ (∀ a ∈ blockQ41, a.Within 20 32) ∧
      (∀ a ∈ blockQ80, a.Within 34 32) ∧ (∀ a ∈ blockQ4K, a.Within 144 256) ∧
      (∀ a ∈ blockQ5K, a.Within 176 256) ∧ (∀ a ∈ blockQ6K, a.Within 210 256) ∧
      (∀ a ∈ blockIq4Nl, a.Within 18 32) ∧ (∀ a ∈ blockIq4Xs, a.Within 136 256) ∧
      (∀ a ∈ blockIq3Xxs, a.Within 98 256) := by
  decide +kernel

theorem copyFloats_within (n : Nat) : ∀ a ∈ copyFloats n, a.Within (n / 1 * 4) n := by
  intro a hmem
  rw [Nat.div_one, Nat.mul_comm]
  rcases List.mem_append.mp hmem with hread | hwrite
  · obtain ⟨i, hi, rfl⟩ := List.mem_map.mp hread
    exact List.mem_range.mp hi
  · obtain ⟨i, hi, rfl⟩ := List.mem_map.mp hwrite
    exact List.mem_range.mp hi

theorem widenHalves_within (n : Nat) : ∀ a ∈ widenHalves n, a.Within (n / 1 * 2) n := by
  intro a hmem
  obtain ⟨i, hi, ha⟩ := List.mem_flatMap.mp hmem
  have hlt : i < n := List.mem_range.mp hi
  simp only [readU16, List.cons_append, List.nil_append, List.mem_cons, List.not_mem_nil,
    or_false] at ha
  rcases ha with rfl | rfl | rfl <;> simp only [Access.Within] <;> omega

/-- A row of whole blocks is decoded inside its bytes and its elements. -/
theorem dequantizeRow_within {type n : Nat} {e : TypeEntry} {accesses : List Access}
    (htype : findType type = some e) (hdvd : e.blockSize ∣ n)
    (hrow : dequantizeRow type n = .ok accesses) :
    ∀ a ∈ accesses, a.Within (n / e.blockSize * e.typeSize) n := by
  obtain ⟨hq40, hq41, hq80, hq4k, hq5k, hq6k, hiq4nl, hiq4xs, hiq3xxs⟩ := blocks_within
  unfold dequantizeRow at hrow
  split at hrow
  case h_13 => cases hrow
  all_goals
    cases htype
    cases hrow
  · exact copyFloats_within n
  · exact widenHalves_within n
  · exact widenHalves_within n
  · exact overBlocks_indicesBelow hq80 hdvd
  · exact overBlocks_indicesBelow hq40 hdvd
  · exact overBlocks_indicesBelow hq41 hdvd
  · exact overBlocks_indicesBelow hq4k hdvd
  · exact overBlocks_indicesBelow hq5k hdvd
  · exact overBlocks_indicesBelow hq6k hdvd
  · exact overBlocks_indicesBelow hiq4nl hdvd
  · exact overBlocks_indicesBelow hiq3xxs hdvd
  · exact overBlocks_indicesBelow hiq4xs hdvd

/-! ## The repacker -/

theorem repackBlocks_within :
    (∀ a ∈ repackBlockQ80, a.Within 34 0) ∧ (∀ a ∈ repackBlockMins 16 false, a.Within 144 0) ∧
      (∀ a ∈ repackBlockMins 48 true, a.Within 176 0) ∧
      (∀ a ∈ repackBlockQ6K, a.Within 210 0) := by
  decide +kernel

theorem repackRow_within (type : Nat) (k : Int) :
    ∀ a ∈ repackRow type k,
      a.Within ((k.tdiv (repackBlockSize type)).toNat * blockBytesOf type) 0 := by
  obtain ⟨hq80, hq4k, hq5k, hq6k⟩ := repackBlocks_within
  have hrange : ∀ count, ∀ b ∈ List.range count, b < count := fun _ _ hb => List.mem_range.mp hb
  unfold repackRow
  split
  · exact overBlocks_within hq80 (hrange _)
  · exact overBlocks_within hq4k (hrange _)
  · exact overBlocks_within hq5k (hrange _)
  · exact overBlocks_within hq6k (hrange _)
  · exact fun a hmem => (List.not_mem_nil hmem).elim

/-- The repacker's blocks are those of the type table. -/
theorem findType_of_repackSupported {type : Nat} {e : TypeEntry}
    (hsupported : repackSupported type = true) (htype : findType type = some e) :
    e.blockSize = repackBlockSize type ∧ e.typeSize = blockBytesOf type := by
  rcases of_decide_eq_true hsupported with rfl | rfl | rfl | rfl <;>
    (cases htype; exact ⟨rfl, rfl⟩)

/-- What repacking goes through before it reads, and what it then reads. -/
theorem repackTensor_cases {file : GgufFile} {t : TensorInfo} {r : RepackRequest}
    {accesses : List Access} (hrepack : repackTensor file t r = .ok accesses) :
    ∃ d0 d1, t.dims = [d0, d1] ∧ repackSupported t.ggmlType = true ∧
      ∀ a ∈ accesses, ∃ row inner, row < (signed 8 d1).toNat ∧
        inner ∈ repackRow t.ggmlType (signed 8 d0) ∧
        a = inner.move
          (file.data t + row * repackRowBytes t.ggmlType (signed 8 d0) % 2 ^ 64) 0 := by
  obtain ⟨_, hsupported, h1⟩ := bind_ok.mp hrepack
  obtain ⟨_, hrank, h2⟩ := bind_ok.mp h1
  obtain ⟨_, _, h3⟩ := bind_ok.mp h2
  obtain ⟨_, _, h4⟩ := bind_ok.mp h3
  obtain ⟨_, _, hresult⟩ := bind_ok.mp h4
  obtain ⟨d0, d1, hdims⟩ := List.length_eq_two.mp ((ensure_ok _ _ _).mp hrank)
  refine ⟨d0, d1, hdims, (ensure_ok _ _ _).mp hsupported, ?_⟩
  cases hresult
  rw [hdims]
  intro a hmem
  obtain ⟨thread, _, hrows⟩ := List.mem_flatMap.mp hmem
  obtain ⟨row, hrow, hinner⟩ := List.mem_flatMap.mp hrows
  obtain ⟨inner, hmember, rfl⟩ := List.mem_map.mp hinner
  exact ⟨row, inner, List.mem_range.mp (List.mem_filter.mp hrow).1, hmember, rfl⟩

/-- A dimension that is positive as a signed word is what it is. -/
theorem signed_eq_of_pos {d : Nat} (hd : d < 2 ^ 64) (hpos : 0 < signed 8 d) :
    signed 8 d = d := by
  have hsmall : ((d : Int) % (256 ^ 8 : Nat)) = d := Int.emod_eq_of_lt (by omega) (by omega)
  unfold signed at hpos ⊢
  rw [Int.bmod_def, hsmall] at hpos ⊢
  split at hpos
  next hlow => rw [if_pos hlow]
  next => omega

/-- A row of no or negative length has no blocks. -/
theorem toNat_tdiv_of_nonpos {k : Int} (hk : k ≤ 0) (block : Nat) :
    (k.tdiv block).toNat = 0 := by
  have hneg := Int.tdiv_nonneg (Int.neg_nonneg_of_nonpos hk) (Int.natCast_nonneg block)
  rw [Int.neg_tdiv] at hneg
  omega

/-- A row's position, wrapped or not, is at most where it belongs. -/
theorem repackRowBytes_le (type d : Nat) :
    repackRowBytes type d ≤ d / repackBlockSize type * blockBytesOf type := by
  have hcount : ((d : Int).tdiv (repackBlockSize type) % 2 ^ 64).toNat ≤
      d / repackBlockSize type := by
    have hdiv : (d : Int).tdiv (repackBlockSize type) = ((d / repackBlockSize type : Nat) : Int) :=
      rfl
    have hmod := Nat.mod_le (d / repackBlockSize type) (2 ^ 64)
    rw [hdiv]
    omega
  exact Nat.le_trans (Nat.mod_le _ _) (Nat.mul_le_mul_right _ hcount)

/-- A byte of a row lies inside the rows together. -/
theorem repack_offset_lt {row n count bytes rowBytes offset : Nat} (hrow : row < n)
    (hoffset : offset < count * bytes) (hbytes : rowBytes ≤ count * bytes) :
    row * rowBytes % 2 ^ 64 + offset < count * n * bytes :=
  calc row * rowBytes % 2 ^ 64 + offset
      < row * (count * bytes) + count * bytes := by
        apply Nat.add_lt_add_of_le_of_lt _ hoffset
        exact Nat.le_trans (Nat.mod_le _ _) (Nat.mul_le_mul_left row hbytes)
    _ = (row + 1) * (count * bytes) := (Nat.succ_mul row _).symm
    _ ≤ n * (count * bytes) := Nat.mul_le_mul_right _ hrow
    _ = count * n * bytes := by rw [← Nat.mul_assoc, Nat.mul_comm n count]

/-! ## Agreement -/

/-- Elements of a row. -/
def TensorInfo.rowLength (t : TensorInfo) : Nat := t.dims.headD 1

/-- A row is a whole number of blocks. -/
def TensorInfo.WholeBlocks (t : TensorInfo) : Prop :=
  ∀ e, findType t.ggmlType = some e → e.blockSize ∣ t.rowLength

/-- What is promised of a tensor of an opened file. -/
structure InBounds (m : Mapping) (file : GgufFile) (t : TensorInfo) : Prop where
  /-- a row is a whole number of blocks -/
  rows : t.WholeBlocks
  /-- the bytes the dimensions ask for lie in the file -/
  extent : file.data t + t.extent ≤ m.bytes.length
  /-- decoding reads inside the mapping and writes inside the output -/
  decode : ∀ accesses, dequantizeTensor file t = .ok accesses →
    ∀ a ∈ accesses, a.Within m.bytes.length t.nElements
  /-- repacking reads inside the mapping -/
  repack : ∀ r accesses, repackTensor file t r = .ok accesses →
    ∀ a ∈ accesses, a.Within m.bytes.length 0

/-- Neither the element count nor the byte count wraps. -/
def TensorInfo.NoWrap (t : TensorInfo) : Prop := t.dims.prod < 2 ^ 64 ∧ t.extent < 2 ^ 64

section Opened

variable {m : Mapping} {file : GgufFile} {t : TensorInfo}

theorem valid_of_open (hopen : openGguf m = .ok file) (hmem : t ∈ file.tensors) : t.Valid := by
  obtain ⟨nTensors, nKv, body, tail, rest, hopened⟩ := opened_of_ok hopen
  exact (exact_tensor.many_sound hopened.tensors).2.1 t hmem

/-- The check the reader makes, on the byte count it computes. -/
theorem checked_of_open (hopen : openGguf m = .ok file) (hmem : t ∈ file.tensors) :
    ∃ nbytes, t.bytes = .ok nbytes ∧ file.data t + nbytes ≤ m.bytes.length := by
  obtain ⟨nTensors, nKv, body, tail, rest, hopened⟩ := opened_of_ok hopen
  obtain ⟨_, _, hafter⟩ := bind_ok.mp (hopened.fits t hmem)
  obtain ⟨nbytes, hbytes, hensure⟩ := bind_ok.mp hafter
  obtain ⟨h1, h2, h3⟩ := (ensure_ok _ _ _).mp hensure
  refine ⟨nbytes, hbytes, ?_⟩
  unfold GgufFile.data
  omega

theorem rowLength_dvd (t : TensorInfo) : t.rowLength ∣ t.dims.prod := by
  unfold TensorInfo.rowLength
  cases t.dims with
  | nil => exact Nat.dvd_refl 1
  | cons d dims =>
      rw [List.prod_cons]
      exact Nat.dvd_mul_right d _

theorem nElements_eq (hvalid : t.Valid) (hwrap : t.NoWrap) : t.nElements = t.dims.prod := by
  rw [hvalid.count, elementCount_eq, Nat.mod_eq_of_lt hwrap.1]

/-- Without wrapping, the reader's check is about the whole extent. -/
theorem extent_le_of_noWrap (hopen : openGguf m = .ok file) (hmem : t ∈ file.tensors)
    (hwrap : t.NoWrap) : file.data t + t.extent ≤ m.bytes.length := by
  have hvalid := valid_of_open hopen hmem
  obtain ⟨nbytes, hbytes, hle⟩ := checked_of_open hopen hmem
  obtain ⟨e, he⟩ := findType_of_known hvalid.known
  have hextent := hwrap.2
  simp only [TensorInfo.bytes, he, nElements_eq hvalid hwrap, Except.ok.injEq] at hbytes
  simp only [TensorInfo.extent, he] at hextent ⊢
  rw [Nat.mod_eq_of_lt hextent] at hbytes
  rw [hbytes]
  exact hle

theorem decode_within (hvalid : t.Valid) (hrows : t.WholeBlocks) (hwrap : t.NoWrap)
    {accesses : List Access} (hdecode : dequantizeTensor file t = .ok accesses) :
    ∀ a ∈ accesses, a.Within (file.data t + t.extent) t.nElements := by
  obtain ⟨_, _, hafter⟩ := bind_ok.mp hdecode
  obtain ⟨inner, hrow, hresult⟩ := bind_ok.mp hafter
  obtain ⟨e, he⟩ := findType_of_known hvalid.known
  cases hresult
  have hdvd : e.blockSize ∣ t.nElements := by
    rw [nElements_eq hvalid hwrap]
    exact (hrows e he).trans (rowLength_dvd t)
  have hinner := dequantizeRow_within he hdvd hrow
  intro a hmem
  obtain ⟨b, hb, rfl⟩ := List.mem_map.mp hmem
  have hmoved := (hinner b hb).move (file.data t) 0
  rw [nElements_eq hvalid hwrap, Nat.zero_add] at hmoved
  rw [nElements_eq hvalid hwrap]
  simp only [TensorInfo.extent, he]
  exact hmoved

theorem repack_within (hvalid : t.Valid) (hrows : t.WholeBlocks) {r : RepackRequest}
    {accesses : List Access} (hrepack : repackTensor file t r = .ok accesses) :
    ∀ a ∈ accesses, a.Within (file.data t + t.extent) 0 := by
  obtain ⟨d0, d1, hdims, hsupported, hreads⟩ := repackTensor_cases hrepack
  obtain ⟨e, he⟩ := findType_of_known hvalid.known
  obtain ⟨hblock, hsize⟩ := findType_of_repackSupported hsupported he
  intro a hmem
  obtain ⟨row, inner, hrow, hinner, rfl⟩ := hreads a hmem
  have hwithin := repackRow_within t.ggmlType (signed 8 d0) inner hinner
  cases inner with
  | write index => exact absurd hwithin (Nat.not_lt_zero index)
  | read offset =>
      have hsmall : d0 < 2 ^ 64 ∧ d1 < 2 ^ 64 := by
        have hall := hvalid.dims
        rw [hdims] at hall
        exact ⟨hall d0 (by simp), hall d1 (by simp)⟩
      -- a byte is read, so there is a block in the row and a row
      have hd1 : signed 8 d1 = d1 := signed_eq_of_pos hsmall.2 (by omega)
      have hd0 : signed 8 d0 = d0 := by
        apply signed_eq_of_pos hsmall.1
        by_contra hnonpos
        rw [toNat_tdiv_of_nonpos (Int.not_lt.mp hnonpos), Nat.zero_mul] at hwithin
        exact Nat.not_lt_zero offset hwithin
      rw [hd1, Int.toNat_natCast] at hrow
      rw [hd0] at hwithin ⊢
      have hoffset : offset < d0 / repackBlockSize t.ggmlType * blockBytesOf t.ggmlType := hwithin
      have hextent : t.extent = d0 / repackBlockSize t.ggmlType * d1 * blockBytesOf t.ggmlType := by
        have hdvd := hrows e he
        simp only [TensorInfo.rowLength, hdims, List.headD_cons, hblock] at hdvd
        simp only [TensorInfo.extent, he, hdims, hblock, hsize, List.prod_cons, List.prod_nil,
          Nat.mul_one]
        rw [Nat.mul_comm d0 d1, Nat.mul_div_assoc d1 hdvd, Nat.mul_comm d1]
      have hlt := repack_offset_lt hrow hoffset (repackRowBytes_le t.ggmlType d0)
      rw [← hextent] at hlt
      have hgoal := Nat.add_lt_add_left hlt (file.data t)
      rw [← Nat.add_assoc] at hgoal
      exact hgoal

/-- No type packs more than four elements into a byte. -/
theorem blockSize_le {type : Nat} {e : TypeEntry} (htype : findType type = some e) :
    0 < e.blockSize ∧ e.blockSize ≤ 4 * e.typeSize := by
  have hall : ∀ e ∈ kTypes, 0 < e.blockSize ∧ e.blockSize ≤ 4 * e.typeSize := by decide
  exact hall e (List.mem_of_find?_eq_some htype)

/-- An extent inside a file is too small to have wrapped. -/
theorem noWrap_of_inBounds (hvalid : t.Valid) (hbounds : InBounds m file t) : t.NoWrap := by
  obtain ⟨e, he⟩ := findType_of_known hvalid.known
  have hdvd := (hbounds.rows e he).trans (rowLength_dvd t)
  have hextent : t.extent < 2 ^ 57 := by
    have hle := hbounds.extent
    have hsmall := m.small
    omega
  refine ⟨?_, Nat.lt_trans hextent (by decide)⟩
  have hprod : t.dims.prod ≤ 4 * t.extent :=
    calc t.dims.prod = t.dims.prod / e.blockSize * e.blockSize := (Nat.div_mul_cancel hdvd).symm
      _ ≤ t.dims.prod / e.blockSize * (4 * e.typeSize) :=
          Nat.mul_le_mul_left _ (blockSize_le he).2
      _ = 4 * t.extent := by
          simp only [TensorInfo.extent, he]
          rw [Nat.mul_left_comm]
  omega

/-- The promise holds of exactly the tensors whose rows are whole blocks and whose
sizes do not wrap. -/
theorem tensor_inBounds_iff (hopen : openGguf m = .ok file) (hmem : t ∈ file.tensors) :
    InBounds m file t ↔ t.WholeBlocks ∧ t.NoWrap := by
  have hvalid := valid_of_open hopen hmem
  constructor
  · intro hbounds
    exact ⟨hbounds.rows, noWrap_of_inBounds hvalid hbounds⟩
  · rintro ⟨hrows, hwrap⟩
    have hextent := extent_le_of_noWrap hopen hmem hwrap
    refine ⟨hrows, hextent, ?_, ?_⟩
    · intro accesses hdecode a ha
      exact (decode_within hvalid hrows hwrap hdecode a ha).mono hextent (Nat.le_refl _)
    · intro r accesses hrepack a ha
      exact (repack_within hvalid hrows hrepack a ha).mono hextent (Nat.le_refl _)

end Opened

/-! ## Files of one tensor -/

/-- A file of one tensor, `t`, and bytes of zero behind it. -/
def oneTensor (dims : List Nat) (type padding : Nat) : Bytes :=
  encodeHeader 1 0 ++
    (encodeTensor ⟨bytes "t", dims, type, 0, 0⟩ ++ List.replicate padding 0)

/-- Two rows of `Q8_0`, a block each. -/
theorem tensor_inBounds_twoBlocks :
    ∃ file t, openGguf ⟨oneTensor [32, 2] 8 99, by decide +kernel⟩ = .ok file ∧
      t ∈ file.tensors ∧ InBounds ⟨oneTensor [32, 2] 8 99, by decide +kernel⟩ file t ∧
        ∃ accesses, dequantizeTensor file t = .ok accesses ∧ Access.write 63 ∈ accesses := by
  have hopen : openGguf ⟨oneTensor [32, 2] 8 99, by decide +kernel⟩ =
      .ok ⟨[], [⟨bytes "t", [32, 2], 8, 0, 64⟩], 32, 96, 164⟩ := by decide +kernel
  refine ⟨_, _, hopen, List.mem_cons_self, ?_, _, rfl, by decide +kernel⟩
  refine (tensor_inBounds_iff hopen List.mem_cons_self).mpr ⟨fun e he => ?_, by decide, by decide⟩
  cases he
  decide

/-! ## Files that are accepted and should not be -/

/-- One element of a type with blocks of 32: no block is checked, and one is
decoded past the end of the mapping and of the output. And dimensions whose
product wraps to zero: nothing is checked, and every row is asked for. -/
theorem openGguf_accepts_out_of_bounds :
    (∃ file, openGguf ⟨oneTensor [1] 8 7, by decide⟩ = .ok file ∧
      ∃ t ∈ file.tensors, ¬ InBounds ⟨oneTensor [1] 8 7, by decide⟩ file t) ∧
    ∃ file, openGguf ⟨oneTensor [2 ^ 32, 2 ^ 32] 8 31, by decide⟩ = .ok file ∧
      ∃ t ∈ file.tensors, ¬ InBounds ⟨oneTensor [2 ^ 32, 2 ^ 32] 8 31, by decide⟩ file t := by
  constructor
  · have hopen : openGguf ⟨oneTensor [1] 8 7, by decide⟩ =
        .ok ⟨[], [⟨bytes "t", [1], 8, 0, 1⟩], 32, 64, 64⟩ := by decide
    refine ⟨_, hopen, _, List.mem_cons_self, fun hbounds => ?_⟩
    obtain ⟨accesses, hdecode, hwrite⟩ : ∃ accesses,
        dequantizeTensor ⟨[], [⟨bytes "t", [1], 8, 0, 1⟩], 32, 64, 64⟩
          ⟨bytes "t", [1], 8, 0, 1⟩ = .ok accesses ∧ Access.write 31 ∈ accesses :=
      ⟨_, rfl, by decide⟩
    have hpast : 31 < 1 := hbounds.decode accesses hdecode _ hwrite
    exact absurd hpast (by decide)
  · have hopen : openGguf ⟨oneTensor [2 ^ 32, 2 ^ 32] 8 31, by decide⟩ =
        .ok ⟨[], [⟨bytes "t", [2 ^ 32, 2 ^ 32], 8, 0, 0⟩], 32, 96, 96⟩ := by decide
    refine ⟨_, hopen, _, List.mem_cons_self, fun hbounds => ?_⟩
    exact absurd hbounds.extent (by decide)

end Arcint.Gguf
