import Arcint.Fill.Quantise
import Arcint.Foundation.Access
import Arcint.Foundation.Checks

/-! # Filling a layer's experts

The pinned experts of a layer are quantised in chunks, and their codes are packed two to a byte
into one stream. A group never spans two experts and every expert fills whole bytes, so the stream
is the experts' own streams one behind the other.
-/

namespace Arcint.Fill

open Foundation

/-! ## Codes of four bits -/

/-- An even place is the low nibble. -/
def packedByte (low high : ℕ) : UInt8 := UInt8.ofNat low ||| UInt8.ofNat high <<< 4

def packPairs : List ℕ → List UInt8
  | low :: high :: rest => packedByte low high :: packPairs rest
  | _ => []

def packU4 (q : List ℕ) : Except String (List UInt8) := do
  ensure (q.length % 2 = 0) (toString q.length ++
    " u4 codes: odd counts do not pack into whole bytes, and every expert-body shape here " ++
    "has an even group size")
  ensure (q ≠ []) "zero-size array to reduction operation minimum which has no identity"
  ensure (∀ c ∈ q, c ≤ 15) ("u4 codes out of range: [" ++ toString (q.min?.getD 0) ++ ", " ++
    toString (q.max?.getD 0) ++ "], expected [0, 15]")
  return packPairs q

/-- The code at `idx`. -/
def nibbleAt (buf : List UInt8) (idx : ℕ) : ℕ :=
  (buf.getD (idx / 2) 0 >>> UInt8.ofNat (idx % 2 * 4) &&& 0xF).toNat

def unpackU4 (buf : List UInt8) (count : ℕ) : Except String (List ℕ) := do
  ensure (∀ idx < count, idx / 2 < buf.length)
    ("index out of bounds for axis 0 with size " ++ toString buf.length)
  return (List.range count).map (nibbleAt buf)

theorem nibbles_packedByte : ∀ low ≤ 15, ∀ high ≤ 15,
    (packedByte low high >>> 0 &&& 0xF).toNat = low ∧
      (packedByte low high >>> 4 &&& 0xF).toNat = high := by
  decide

theorem length_packPairs (q : List ℕ) : (packPairs q).length = q.length / 2 := by
  induction q using packPairs.induct with
  | case1 low high rest ih =>
      rw [packPairs, List.length_cons, ih, List.length_cons, List.length_cons]
      omega
  | case2 q hshort =>
      match q, hshort with
      | [], _ => rfl
      | [_], _ => simp [packPairs]
      | low :: high :: rest, hshort => exact absurd rfl (hshort low high rest)

/-- Codes that fill whole bytes keep the ones behind them in place. -/
theorem packPairs_append {q : List ℕ} (heven : q.length % 2 = 0) (rest : List ℕ) :
    packPairs (q ++ rest) = packPairs q ++ packPairs rest := by
  induction q using packPairs.induct with
  | case1 low high q ih =>
      simp only [List.length_cons] at heven
      simp only [List.cons_append, packPairs]
      rw [ih (by omega)]
  | case2 q hshort =>
      match q, hshort with
      | [], _ => rfl
      | [_], _ => simp at heven
      | low :: high :: rest, hshort => exact absurd rfl (hshort low high rest)

theorem packPairs_flatMap {α : Type} {l : List α} {f : α → List ℕ}
    (heven : ∀ a ∈ l, (f a).length % 2 = 0) :
    packPairs (l.flatMap f) = l.flatMap fun a => packPairs (f a) := by
  induction l with
  | nil => rfl
  | cons a l ih =>
      rw [List.flatMap_cons, List.flatMap_cons, packPairs_append (heven a List.mem_cons_self),
        ih fun b hb => heven b (List.mem_cons_of_mem _ hb)]

theorem nibbleAt_packPairs {q : List ℕ} (hcodes : ∀ c ∈ q, c ≤ 15) (heven : q.length % 2 = 0)
    (idx : ℕ) : nibbleAt (packPairs q) idx = q.getD idx 0 := by
  induction q using packPairs.induct generalizing idx with
  | case1 low high q ih =>
      have hbyte := nibbles_packedByte low (hcodes low (by simp)) high (hcodes high (by simp))
      match idx with
      | 0 => exact hbyte.1
      | 1 => exact hbyte.2
      | idx + 2 =>
          have hrest := ih (fun c hc => hcodes c (by simp [hc])) (by
            rw [List.length_cons, List.length_cons] at heven
            omega) idx
          have hdiv : (idx + 2) / 2 = idx / 2 + 1 := by omega
          have hmod : (idx + 2) % 2 = idx % 2 := by omega
          simpa only [nibbleAt, packPairs, hdiv, hmod, List.getD_cons_succ] using hrest
  | case2 q hshort =>
      match q, hshort with
      | [], _ => simp [nibbleAt, packPairs]
      | [_], _ => simp at heven
      | low :: high :: rest, hshort => exact absurd rfl (hshort low high rest)

theorem packU4_eq {q : List ℕ} (heven : q.length % 2 = 0) (hne : q ≠ [])
    (hcodes : ∀ c ∈ q, c ≤ 15) : packU4 q = .ok (packPairs q) := by
  simp only [packU4, bind_ok, ensure_ok]
  exact ⟨(), heven, (), hne, (), hcodes, rfl⟩

/-- Streams of whole bytes can be packed one by one. -/
theorem packU4_flatMap {α : Type} {l : List α} {f : α → List ℕ} (hne : l ≠ [])
    (hf : ∀ a ∈ l, (f a).length % 2 = 0 ∧ f a ≠ [] ∧ ∀ c ∈ f a, c ≤ 15) :
    packU4 (l.flatMap f) = .ok (l.flatMap fun a => packPairs (f a)) := by
  have heven : (l.flatMap f).length % 2 = 0 := by
    clear hne
    induction l with
    | nil => rfl
    | cons a l ih =>
        have hrest := ih fun b hb => hf b (List.mem_cons_of_mem _ hb)
        rw [List.flatMap_cons, List.length_append, Nat.add_mod, hrest,
          (hf a List.mem_cons_self).1]
  have hsome : l.flatMap f ≠ [] := by
    obtain ⟨a, rest, rfl⟩ := List.exists_cons_of_ne_nil hne
    rw [List.flatMap_cons]
    exact List.append_ne_nil_of_left_ne_nil (hf a List.mem_cons_self).2.1 _
  rw [packU4_eq heven hsome, packPairs_flatMap fun a ha => (hf a ha).1]
  intro c hc
  obtain ⟨a, ha, hca⟩ := List.mem_flatMap.mp hc
  exact (hf a ha).2.2 c hca

theorem unpackU4_packPairs {q : List ℕ} (heven : q.length % 2 = 0) (hcodes : ∀ c ∈ q, c ≤ 15) :
    unpackU4 (packPairs q) q.length = .ok q := by
  have hinside : ∀ idx < q.length, idx / 2 < (packPairs q).length := by
    intro idx hidx
    rw [length_packPairs]
    omega
  have hall : (List.range q.length).map (nibbleAt (packPairs q)) = q := by
    apply List.ext_getElem
    · simp
    · intro idx hidx hidx'
      rw [List.getElem_map, List.getElem_range, nibbleAt_packPairs hcodes heven,
        List.getD_eq_getElem?_getD, List.getElem?_eq_getElem hidx', Option.getD_some]
  simp only [unpackU4, bind_ok, ensure_ok]
  exact ⟨(), hinside, congrArg Except.ok hall⟩

/-! ## The bodies of a layer -/

/-- `quantise_group_affine` on a group, whatever its floats are: all it promises of the codes is
that they were clipped. -/
structure Quantiser (F S : Type) where
  run : List F → AffineGroup S
  codes_length : ∀ group, (run group).codes.length = group.length
  codes_le : ∀ group, ∀ q ∈ (run group).codes, q ≤ 15
  zeroPoint_le : ∀ group, (run group).zeroPoint ≤ 15

/-- The streams of a body, or of a part of one. -/
structure FilledBody (S : Type) where
  packedW : List UInt8
  packedZp : List UInt8
  scales : List S

/-- `np.concatenate`, of each stream. -/
def FilledBody.concat {S : Type} (parts : List (FilledBody S)) : FilledBody S where
  packedW := parts.flatMap packedW
  packedZp := parts.flatMap packedZp
  scales := parts.flatMap scales

theorem FilledBody.concat_concat {S α : Type} (l : List α) (f : α → List (FilledBody S)) :
    FilledBody.concat (l.map fun a => FilledBody.concat (f a)) =
      FilledBody.concat (l.flatMap f) := by
  simp only [FilledBody.concat, List.flatMap_map, List.flatMap_assoc]

section Body

variable {F S : Type} (quantiser : Quantiser F S) (groupSize expertChunk : ℕ)

/-- The experts of one pass: their rows, one behind the other. -/
def fillChunk (inn : ℕ) (rows : List (List F)) : Except String (FilledBody S) := do
  ensure (inn % groupSize = 0) ("inner dimension " ++ toString inn ++
    " is not a multiple of group " ++ toString groupSize)
  let groups := (rowGroups groupSize rows.flatten).map quantiser.run
  let packedW ← packU4 (groups.flatMap AffineGroup.codes)
  let packedZp ← packU4 (groups.map AffineGroup.zeroPoint)
  return { packedW, packedZp, scales := groups.map AffineGroup.scale }

/-- `ExpertFiller.body`, of what the source returned. -/
def fillBody (key : String) (source : ℕ × ℕ) (rows : List (List F)) (e out inn : ℕ) :
    Except String (FilledBody S) := do
  ensure (rows.length = e ∧ source = (out, inn)) (key ++ ": source returned (" ++
    toString rows.length ++ ", " ++ toString source.1 ++ ", " ++ toString source.2 ++
    "), the IR declares (" ++ toString e ++ ", " ++ toString out ++ ", " ++ toString inn ++
    ") -- the fill must not reshape silently")
  let parts ← parseAll
    (fun c => fillChunk quantiser groupSize inn (slice rows (c * expertChunk) expertChunk))
    (indicesBelow expertChunk e)
  ensure (parts ≠ []) "need at least one array to concatenate"
  return FilledBody.concat parts

/-- What one expert adds to the streams. -/
def expertBody (row : List F) : FilledBody S :=
  let groups := (rowGroups groupSize row).map quantiser.run
  { packedW := packPairs (groups.flatMap AffineGroup.codes)
    packedZp := packPairs (groups.map AffineGroup.zeroPoint)
    scales := groups.map AffineGroup.scale }

/-- Groups of an even size that fill rows of `inn`, an even number of them to an expert. -/
structure WholeGroups (out inn : ℕ) : Prop where
  even : groupSize % 2 = 0
  whole : groupSize ∣ inn
  groups : out * (inn / groupSize) % 2 = 0
  nonempty : 0 < out * inn

variable {quantiser groupSize expertChunk} {out inn : ℕ}

theorem length_rowGroups (row : List F) :
    (rowGroups groupSize row).length = row.length / groupSize := by
  simp [rowGroups]

theorem rowGroups_append (hsize : 0 < groupSize) {row : List F} (hwhole : groupSize ∣ row.length)
    (rest : List F) :
    rowGroups groupSize (row ++ rest) = rowGroups groupSize row ++ rowGroups groupSize rest := by
  obtain ⟨count, hcount⟩ := hwhole
  have hdiv : (row ++ rest).length / groupSize = count + rest.length / groupSize := by
    rw [List.length_append, hcount, Nat.mul_add_div hsize]
  have hrow : row.length / groupSize = count := by rw [hcount, Nat.mul_div_cancel_left _ hsize]
  rw [rowGroups, rowGroups, rowGroups, hdiv, hrow, List.range_add, List.map_append, List.map_map]
  congr 1
  · refine List.map_congr_left fun group hgroup => slice_append_left ?_ rest
    have hle := Nat.mul_le_mul_right groupSize (List.mem_range.mp hgroup)
    rw [Nat.succ_mul, Nat.mul_comm count] at hle
    omega
  · refine List.map_congr_left fun group _ => ?_
    rw [Function.comp_apply, Nat.add_mul, Nat.mul_comm count, ← hcount, slice_append_right]

theorem rowGroups_flatten (hsize : 0 < groupSize) {rows : List (List F)}
    (hwhole : ∀ row ∈ rows, groupSize ∣ row.length) :
    rowGroups groupSize rows.flatten = rows.flatMap (rowGroups groupSize) := by
  induction rows with
  | nil => simp [rowGroups]
  | cons row rows ih =>
      rw [List.flatten_cons, rowGroups_append hsize (hwhole row List.mem_cons_self),
        ih fun other hother => hwhole other (List.mem_cons_of_mem _ hother), List.flatMap_cons]

section Whole

variable (hgroups : WholeGroups groupSize out inn)

include hgroups

theorem WholeGroups.pos : 0 < groupSize := by
  obtain ⟨count, hcount⟩ := hgroups.whole
  rcases Nat.eq_zero_or_pos groupSize with rfl | hpos
  · have := hgroups.nonempty
    simp [hcount] at this
  · exact hpos

theorem WholeGroups.count {row : List F} (hrow : row.length = out * inn) :
    (rowGroups groupSize row).length = out * (inn / groupSize) := by
  rw [length_rowGroups, hrow, Nat.mul_div_assoc _ hgroups.whole]

/-- Every expert fills whole bytes. -/
theorem length_codes {row : List F} (hrow : row.length = out * inn) :
    (((rowGroups groupSize row).map quantiser.run).flatMap AffineGroup.codes).length =
      out * (inn / groupSize) * groupSize := by
  have hsizes : ∀ group ∈ (rowGroups groupSize row).map quantiser.run,
      group.codes.length = groupSize := by
    intro group hgroup
    obtain ⟨values, hvalues, rfl⟩ := List.mem_map.mp hgroup
    obtain ⟨g, hg, rfl⟩ := List.mem_map.mp hvalues
    have hle := Nat.mul_le_mul_right groupSize (List.mem_range.mp hg)
    have hinside := Nat.div_mul_le_self row.length groupSize
    rw [Nat.succ_mul] at hle
    rw [quantiser.codes_length, slice, List.length_take, List.length_drop]
    omega
  rw [List.length_flatMap, List.map_congr_left hsizes, List.map_const', List.sum_replicate,
    List.length_map, hgroups.count hrow, Nat.nsmul_eq_mul]

theorem codes_pack {row : List F} (hrow : row.length = out * inn) :
    let q := ((rowGroups groupSize row).map quantiser.run).flatMap AffineGroup.codes
    q.length % 2 = 0 ∧ q ≠ [] ∧ ∀ c ∈ q, c ≤ 15 := by
  intro q
  have hlength : q.length = out * (inn / groupSize) * groupSize := length_codes hgroups hrow
  refine ⟨?_, ?_, fun c hc => ?_⟩
  · rw [hlength, Nat.mul_mod, hgroups.even, Nat.mul_zero, Nat.zero_mod]
  · rw [← List.length_pos_iff, hlength, Nat.mul_assoc, Nat.div_mul_cancel hgroups.whole]
    exact hgroups.nonempty
  · obtain ⟨group, hgroup, hc⟩ := List.mem_flatMap.mp hc
    obtain ⟨values, -, rfl⟩ := List.mem_map.mp hgroup
    exact quantiser.codes_le values c hc

theorem zeroPoints_pack {row : List F} (hrow : row.length = out * inn) :
    let q := ((rowGroups groupSize row).map quantiser.run).map AffineGroup.zeroPoint
    q.length % 2 = 0 ∧ q ≠ [] ∧ ∀ c ∈ q, c ≤ 15 := by
  intro q
  have hlength : q.length = out * (inn / groupSize) := by
    rw [List.length_map, List.length_map, hgroups.count hrow]
  refine ⟨hlength ▸ hgroups.groups, ?_, fun c hc => ?_⟩
  · rw [← List.length_pos_iff, hlength]
    have hpos := hgroups.nonempty
    rw [← Nat.div_mul_cancel hgroups.whole, ← Nat.mul_assoc] at hpos
    exact Nat.pos_of_mul_pos_right hpos
  · obtain ⟨group, hgroup, rfl⟩ := List.mem_map.mp hc
    obtain ⟨values, -, rfl⟩ := List.mem_map.mp hgroup
    exact quantiser.zeroPoint_le values

theorem fillChunk_eq {rows : List (List F)} (hne : rows ≠ [])
    (hrows : ∀ row ∈ rows, row.length = out * inn) :
    fillChunk quantiser groupSize inn rows =
      .ok (FilledBody.concat (rows.map (expertBody quantiser groupSize))) := by
  have hwhole : ∀ row ∈ rows, groupSize ∣ row.length := fun row hrow =>
    (hrows row hrow).symm ▸ hgroups.whole.mul_left out
  have hcodes := packU4_flatMap hne fun row hrow =>
    @codes_pack F S quantiser groupSize out inn hgroups row (hrows row hrow)
  have hzero := packU4_flatMap hne fun row hrow =>
    @zeroPoints_pack F S quantiser groupSize out inn hgroups row (hrows row hrow)
  rw [← List.flatMap_assoc, ← List.map_flatMap, ← rowGroups_flatten hgroups.pos hwhole] at hcodes
  rw [← List.map_flatMap, ← List.map_flatMap, ← rowGroups_flatten hgroups.pos hwhole] at hzero
  simp only [fillChunk, bind_ok, ensure_ok]
  refine ⟨(), Nat.mod_eq_zero_of_dvd hgroups.whole, _, hcodes, _, hzero, ?_⟩
  simp only [FilledBody.concat, expertBody, rowGroups_flatten hgroups.pos hwhole,
    List.flatMap_map, List.map_flatMap]
  rfl

/-- In chunks of any size, the body is what the experts add, one after the other. -/
theorem fillBody_eq (key : String) (hchunk : 1 ≤ expertChunk) {rows : List (List F)}
    (hne : rows ≠ []) (hrows : ∀ row ∈ rows, row.length = out * inn) :
    fillBody quantiser groupSize expertChunk key (out, inn) rows rows.length out inn =
      .ok (FilledBody.concat (rows.map (expertBody quantiser groupSize))) := by
  have hmem : ∀ c, ∀ row ∈ slice rows (c * expertChunk) expertChunk, row ∈ rows := fun c row hrow =>
    List.mem_of_mem_drop (List.mem_of_mem_take hrow)
  have hparts : ∀ c ∈ indicesBelow expertChunk rows.length,
      fillChunk quantiser groupSize inn (slice rows (c * expertChunk) expertChunk) =
        .ok (FilledBody.concat ((slice rows (c * expertChunk) expertChunk).map
          (expertBody quantiser groupSize))) := by
    intro c hc
    refine fillChunk_eq hgroups (List.ne_nil_of_length_pos ?_) fun row hrow =>
      hrows row (hmem c row hrow)
    have hlt := (mem_indicesBelow hchunk).mp hc
    rw [slice, List.length_take, List.length_drop]
    omega
  have hwhole : (indicesBelow expertChunk rows.length).flatMap
      (fun c => slice rows (c * expertChunk) expertChunk) = rows := by
    rw [indicesBelow_eq_range hchunk, flatMap_slices]
    refine List.take_of_length_le ?_
    have hcover := Nat.lt_mul_div_succ (rows.length + expertChunk - 1) hchunk
    rw [Nat.mul_succ] at hcover
    rw [Nat.mul_comm]
    omega
  simp only [fillBody, bind_ok, ensure_ok]
  refine ⟨(), ⟨trivial, trivial⟩, _, parseAll_eq_ok hparts, (), ?_, ?_⟩
  · rw [Ne, List.map_eq_nil_iff]
    rintro hnone
    rw [hnone] at hwhole
    exact hne hwhole.symm
  · rw [FilledBody.concat_concat, ← List.map_flatMap, hwhole]
    rfl

end Whole

end Body

end Arcint.Fill
