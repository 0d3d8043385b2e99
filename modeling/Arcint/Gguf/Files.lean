import Arcint.Gguf.RoundTrip
import Mathlib.Algebra.BigOperators.Group.List.Basic
import Mathlib.Data.List.Nodup

/-! # Whole files

What opening a file says about its bytes, and that every well-formed file opens
with the metadata and the tensor table that were written.
-/

namespace Arcint.Gguf

open Arcint.Foundation
open Arcint.Text (Bytes bytes)

/-! ## Opening -/

/-- The parts of a file that was opened. -/
structure Opened (m : Mapping) (file : GgufFile) (nTensors nKv : Nat) (body tail rest : Bytes) :
    Prop where
  header : m.bytes = encodeHeader nTensors nKv ++ body
  nTensors_lt : nTensors < 2 ^ 64
  nKv_lt : nKv < 2 ^ 64
  entries : readEntries nKv [] body = .ok (file.metadata, tail)
  tensors : readMany readTensor nTensors tail = .ok (file.tensors, rest)
  alignment : findAlignment file.metadata = .ok file.alignment
  dataOffset : file.dataOffset = alignUp (m.bytes.length - rest.length) file.alignment
  fits : ∀ t ∈ file.tensors,
    checkTensor m.bytes.length file.dataOffset file.alignment t = .ok ()
  size : file.size = m.bytes.length

theorem opened_of_ok {m : Mapping} {file : GgufFile} (hopen : openGguf m = .ok file) :
    ∃ nTensors nKv body tail rest, Opened m file nTensors nKv body tail rest := by
  obtain ⟨_, hsize, h1⟩ := bind_ok.mp hopen
  obtain ⟨_, hmagic, h2⟩ := bind_ok.mp h1
  obtain ⟨⟨version, afterVersion⟩, hversion, h3⟩ := bind_ok.mp h2
  obtain ⟨_, hthree, h4⟩ := bind_ok.mp h3
  obtain ⟨⟨nTensors, afterTensors⟩, hnTensors, h5⟩ := bind_ok.mp h4
  obtain ⟨⟨nKv, body⟩, hnKv, h6⟩ := bind_ok.mp h5
  obtain ⟨⟨metadata, tail⟩, hentries, h7⟩ := bind_ok.mp h6
  obtain ⟨⟨tensors, rest⟩, htensors, h8⟩ := bind_ok.mp h7
  obtain ⟨alignment, halignment, h9⟩ := bind_ok.mp h8
  obtain ⟨_, hfits, hresult⟩ := bind_ok.mp h9
  cases hresult
  obtain ⟨_, hafterMagic⟩ := (exact_word 4).sound hversion
  obtain ⟨hnTensorsLt, rfl⟩ := (exact_word 8).sound hnTensors
  obtain ⟨hnKvLt, rfl⟩ := (exact_word 8).sound hnKv
  rw [(ensure_ok _ _ _).mp hthree] at hafterMagic
  have hbytes := List.take_append_drop 4 m.bytes
  rw [(ensure_ok _ _ _).mp hmagic, hafterMagic] at hbytes
  refine ⟨nTensors, nKv, body, tail, rest, ?_, hnTensorsLt, hnKvLt, hentries, htensors, halignment,
    rfl, (checkAll_ok _ _ _).mp hfits, rfl⟩
  rw [← hbytes]
  simp only [encodeHeader, List.append_assoc]

theorem ok_of_opened {m : Mapping} {file : GgufFile} {nTensors nKv : Nat}
    {body tail rest : Bytes} (hopened : Opened m file nTensors nKv body tail rest) :
    openGguf m = .ok file := by
  have hheader := hopened.header
  simp only [encodeHeader, List.append_assoc] at hheader
  have hmagic : m.bytes.take 4 = magic := by
    rw [hheader]
    exact List.take_left' rfl
  have hdrop : m.bytes.drop 4 = leBytes 4 3 ++ (leBytes 8 nTensors ++ (leBytes 8 nKv ++ body)) := by
    rw [hheader]
    exact List.drop_left' rfl
  have hsize : 4 ≤ m.bytes.length := by
    rw [hheader, List.length_append]
    exact Nat.le_add_right 4 _
  refine bind_ok.mpr ⟨(), (ensure_ok _ _ _).mpr hsize, ?_⟩
  refine bind_ok.mpr ⟨(), (ensure_ok _ _ _).mpr hmagic, ?_⟩
  rw [hdrop]
  refine bind_ok.mpr ⟨_, (exact_word 4).complete (by decide) _, ?_⟩
  refine bind_ok.mpr ⟨(), (ensure_ok _ _ _).mpr rfl, ?_⟩
  refine bind_ok.mpr ⟨_, (exact_word 8).complete hopened.nTensors_lt _, ?_⟩
  refine bind_ok.mpr ⟨_, (exact_word 8).complete hopened.nKv_lt _, ?_⟩
  refine bind_ok.mpr ⟨_, hopened.entries, ?_⟩
  refine bind_ok.mpr ⟨_, hopened.tensors, ?_⟩
  refine bind_ok.mpr ⟨_, hopened.alignment, ?_⟩
  have hfits := hopened.fits
  have hoffset := hopened.dataOffset
  have hfileSize := hopened.size
  refine bind_ok.mpr ⟨(), (checkAll_ok _ _ _).mpr ?_, ?_⟩
  · rw [← hoffset]
    exact hfits
  · rw [← hoffset, ← hfileSize]
    rfl

/-! ## The metadata section -/

/-- The metadata section is a list of written entries, and the map that was
returned holds their values, an array as many elements as declared. -/
def Conforms (input : Bytes) (file : GgufFile) : Prop :=
  ∃ (nTensors : Nat) (entries : List Entry) (rest : Bytes),
    nTensors < 2 ^ 64 ∧ entries.length < 2 ^ 64 ∧
    input = encodeHeader nTensors entries.length ++ (entries.flatMap encodeEntry ++ rest) ∧
    file.metadata = assignAll [] entries ∧
    ∀ e ∈ entries, ∀ t items small, e.2 = Value.array t items small →
      e.2.toMeta.count = items.length

/-- Somewhere in the metadata section, after entries that are well-formed and
fewer than declared, a tag is none of the defined ones. -/
def MeetsUnknownTag (input : Bytes) : Prop :=
  ∃ (nTensors nKv : Nat) (body : Bytes) (entries : List Entry),
    nTensors < 2 ^ 64 ∧ nKv < 2 ^ 64 ∧ input = encodeHeader nTensors nKv ++ body ∧
    entries.length < nKv ∧ UnknownTagAfter body entries

/-- The header of a file is cut in one way only. -/
theorem header_cut_unique {nTensors nTensors' nKv nKv' : Nat} {body body' : Bytes}
    (h1 : nTensors < 2 ^ 64) (h2 : nKv < 2 ^ 64) (h3 : nTensors' < 2 ^ 64) (h4 : nKv' < 2 ^ 64)
    (hcut : encodeHeader nTensors nKv ++ body = encodeHeader nTensors' nKv' ++ body') :
    nKv = nKv' ∧ body = body' := by
  simp only [encodeHeader, List.append_assoc, List.append_cancel_left_eq] at hcut
  obtain ⟨_, hafter⟩ := (exact_word 8).cut_unique h1 h3 hcut
  exact (exact_word 8).cut_unique h2 h4 hafter

theorem conforms_iff {m : Mapping} {file : GgufFile} (hopen : openGguf m = .ok file) :
    Conforms m.bytes file ↔ ¬ MeetsUnknownTag m.bytes := by
  obtain ⟨nTensors, nKv, body, tail, rest, hopened⟩ := opened_of_ok hopen
  constructor
  · rintro ⟨nTensors', entries, tail', h1, h2, hinput, _⟩
    rintro ⟨nTensors'', nKv'', body'', before, h3, h4, hinput', hfewer, hunknown⟩
    obtain ⟨hcount, hbody⟩ := header_cut_unique h1 h2 h3 h4 (hinput.symm.trans hinput')
    rw [← hbody] at hunknown
    rw [← hcount] at hfewer
    exact not_unknownTagAfter hfewer hunknown
  · intro hclean
    have hbefore : ∀ entries : List Entry, entries.length < nKv → ¬ UnknownTagAfter body entries :=
      fun entries hfewer hunknown => hclean ⟨nTensors, nKv, body, entries, hopened.nTensors_lt,
        hopened.nKv_lt, hopened.header, hfewer, hunknown⟩
    obtain ⟨entries, rfl, hbody, hmetadata⟩ := readEntries_sound hbefore hopened.entries
    refine ⟨nTensors, entries, tail, hopened.nTensors_lt, hopened.nKv_lt, ?_, hmetadata, ?_⟩
    · rw [hopened.header, hbody]
    · intro e _ t items small harray
      rw [harray]
      exact Value.count_array t items small

/-! ## The extent of a tensor -/

/-- The bytes a tensor's whole blocks take, with no word size in the way. -/
def TensorInfo.extent (t : TensorInfo) : Nat :=
  match findType t.ggmlType with
  | some e => t.dims.prod / e.blockSize * e.typeSize
  | none => 0

/-- The element count wraps where the product does. -/
theorem elementCount_eq (dims : List Nat) : elementCount dims = dims.prod % 2 ^ 64 := by
  have hfold : ∀ n,
      dims.foldl (fun n d => n * d % 2 ^ 64) (n % 2 ^ 64) = n * dims.prod % 2 ^ 64 := by
    induction dims with
    | nil =>
        intro n
        rw [List.foldl_nil, List.prod_nil, Nat.mul_one]
    | cons d dims ih =>
        intro n
        rw [List.foldl_cons, Nat.mod_mul_mod, ih, List.prod_cons, Nat.mul_assoc]
  have hone := hfold 1
  rw [Nat.one_mul] at hone
  exact hone

/-- A known type has a size. -/
theorem findType_of_known {type : Nat} (hknown : isKnownType type = true) :
    ∃ e, findType type = some e :=
  Option.isSome_iff_exists.mp hknown

/-- Wrapping can only make a tensor look smaller. -/
theorem TensorInfo.Valid.bytes_le {t : TensorInfo} (hvalid : t.Valid) :
    ∃ nbytes, t.bytes = .ok nbytes ∧ nbytes ≤ t.extent := by
  obtain ⟨e, he⟩ := findType_of_known hvalid.known
  refine ⟨t.nElements / e.blockSize * e.typeSize % 2 ^ 64, by simp only [bytes, he], ?_⟩
  simp only [extent, he]
  apply Nat.le_trans (Nat.mod_le _ _)
  apply Nat.mul_le_mul_right
  apply Nat.div_le_div_right
  rw [hvalid.count, elementCount_eq]
  exact Nat.mod_le _ _

/-! ## Writing a file -/

/-- What a file is written from. -/
structure Contents where
  entries : List Entry
  tensors : List TensorInfo
  data : Bytes

namespace Contents

def keys (c : Contents) : List Bytes := c.entries.map fun e => e.1.val

/-- Everything before the tensor data and its padding. -/
def table (c : Contents) : Bytes :=
  encodeHeader c.tensors.length c.entries.length ++
    (c.entries.flatMap encodeEntry ++ c.tensors.flatMap encodeTensor)

def encode (c : Contents) : Bytes := c.table ++ c.data

/-- Where tensor data begins. -/
def dataOffset (c : Contents) (alignment : Nat) : Nat := alignUp c.table.length alignment

/-- The alignment the entries set. -/
inductive Aligned (c : Contents) : Nat → Prop where
  | default : alignmentKey ∉ c.keys → Aligned c defaultAlignment
  | declared (key : Str) (x : Fin (256 ^ 4)) :
      key.val = alignmentKey → (key, Value.scalar (.word .uint32) x) ∈ c.entries →
        Aligned c x.val

/-- A file that respects the format: distinct keys, an alignment that is a power
of two, and tensors of known types whose bytes lie aligned in the file. -/
structure WellFormed (c : Contents) (alignment : Nat) : Prop where
  small : c.encode.length < 2 ^ 57
  keys : c.keys.Nodup
  aligned : c.Aligned alignment
  power : ∃ k, alignment = 2 ^ k
  tensors : ∀ t ∈ c.tensors, t.Valid
  offsets : ∀ t ∈ c.tensors, t.offset % alignment = 0
  inRange : ∀ t ∈ c.tensors, c.dataOffset alignment + t.offset + t.extent ≤ c.encode.length

/-- The metadata a reader should return. -/
def metadata (c : Contents) : MetaMap := c.entries.map fun e => (e.1.val, e.2.toMeta)

end Contents

/-! ## Distinct keys -/

theorem assign_new {key : Bytes} {value : MetaValue} {metadata : MetaMap}
    (hnew : key ∉ metadata.map Prod.fst) :
    assign key value metadata = metadata ++ [(key, value)] := by
  induction metadata with
  | nil => rfl
  | cons entry rest ih =>
      obtain ⟨k, old⟩ := entry
      rw [List.map_cons, List.mem_cons, not_or] at hnew
      rw [assign, if_neg (Ne.symm hnew.1), ih hnew.2, List.cons_append]

/-- Entries with new, distinct keys are kept in order. -/
theorem assignAll_distinct (entries : List Entry) (metadata : MetaMap)
    (hkeys : (metadata.map Prod.fst ++ entries.map fun e => e.1.val).Nodup) :
    assignAll metadata entries = metadata ++ entries.map fun e => (e.1.val, e.2.toMeta) := by
  induction entries generalizing metadata with
  | nil => simp [assignAll]
  | cons e entries ih =>
      have hnew : e.1.val ∉ metadata.map Prod.fst := by
        intro hmem
        exact (List.nodup_append.mp hkeys).2.2 _ hmem _ List.mem_cons_self rfl
      have hstep : assignAll metadata (e :: entries) =
          assignAll (metadata ++ [(e.1.val, e.2.toMeta)]) entries := by
        rw [← assign_new hnew]
        rfl
      rw [hstep, ih]
      · simp
      · simpa using hkeys

/-- Among distinct keys, one that is there is found with its value. -/
theorem lookup_distinct {entries : List Entry} (hkeys : (entries.map fun e => e.1.val).Nodup)
    {e : Entry} (hmem : e ∈ entries) :
    (entries.map fun e => (e.1.val, e.2.toMeta)).lookup e.1.val = some e.2.toMeta := by
  induction entries with
  | nil => exact (List.not_mem_nil hmem).elim
  | cons first entries ih =>
      rw [List.map_cons, List.nodup_cons] at hkeys
      rw [List.map_cons, List.lookup_cons]
      rcases List.mem_cons.mp hmem with rfl | hrest
      · rw [beq_self_eq_true]
      · have hne : e.1.val ≠ first.1.val := by
          intro heq
          exact hkeys.1 (heq ▸ List.mem_map.mpr ⟨e, hrest, rfl⟩)
        rw [beq_false_of_ne hne]
        exact ih hkeys.2 hrest

namespace Contents

variable {c : Contents} {alignment : Nat}

theorem WellFormed.metadata_eq (hwf : c.WellFormed alignment) :
    assignAll [] c.entries = c.metadata :=
  assignAll_distinct c.entries [] hwf.keys

theorem WellFormed.findAlignment_ok (hwf : c.WellFormed alignment) :
    findAlignment c.metadata = .ok alignment := by
  have hdeclared : declaredAlignment c.metadata = .ok alignment := by
    unfold declaredAlignment
    cases hwf.aligned with
    | default habsent =>
        have hnone : c.metadata.lookup alignmentKey = none := by
          rw [List.lookup_eq_none_iff]
          intro entry hmem
          obtain ⟨e, he, rfl⟩ := List.mem_map.mp hmem
          apply bne_iff_ne.mpr
          intro heq
          exact habsent (List.mem_map.mpr ⟨e, he, heq.symm⟩)
        rw [hnone]
    | declared key x hkey hmem =>
        have hfound : c.metadata.lookup alignmentKey =
            some (Value.scalar (.word .uint32) x).toMeta := by
          rw [← hkey]
          exact lookup_distinct hwf.keys hmem
        have hsmall : x.val < 2 ^ 32 := x.isLt
        have hcast : ((x.val : Int) % 2 ^ 32).toNat = x.val := by omega
        rw [hfound]
        exact congrArg Except.ok hcast
  obtain ⟨k, rfl⟩ := hwf.power
  refine bind_ok.mpr ⟨2 ^ k, hdeclared, bind_ok.mpr ⟨(), (ensure_ok _ _ _).mpr ⟨?_, ?_⟩, rfl⟩⟩
  · exact Nat.ne_of_gt (Nat.two_pow_pos k)
  · rw [Nat.and_two_pow_sub_one_eq_mod, Nat.mod_self]

theorem WellFormed.checkTensor_ok (hwf : c.WellFormed alignment) {t : TensorInfo}
    (hmem : t ∈ c.tensors) :
    checkTensor c.encode.length (c.dataOffset alignment) alignment t = .ok () := by
  obtain ⟨nbytes, hbytes, hle⟩ := (hwf.tensors t hmem).bytes_le
  have hrange := hwf.inRange t hmem
  refine bind_ok.mpr ⟨(), (ensure_ok _ _ _).mpr (hwf.offsets t hmem), ?_⟩
  exact bind_ok.mpr ⟨nbytes, hbytes, (ensure_ok _ _ _).mpr (by omega)⟩

end Contents

/-- What is written is at least as long as the list of what it was written from. -/
theorem length_le_flatMap {α : Type} {encode : α → Bytes} (hpos : ∀ a, 1 ≤ (encode a).length)
    (as : List α) : as.length ≤ (as.flatMap encode).length := by
  induction as with
  | nil => exact Nat.le_refl 0
  | cons a as ih =>
      have hhead := hpos a
      rw [List.flatMap_cons, List.length_append, List.length_cons]
      omega

theorem encodeEntry_pos (e : Entry) : 1 ≤ (encodeEntry e).length := by
  simp only [encodeEntry, encodeString, List.length_append, leBytes_length]
  omega

theorem encodeTensor_pos (t : TensorInfo) : 1 ≤ (encodeTensor t).length := by
  simp only [encodeTensor, encodeString, List.length_append, leBytes_length]
  omega

namespace Contents

variable {c : Contents} {alignment : Nat}

theorem WellFormed.counts_lt (hwf : c.WellFormed alignment) :
    c.tensors.length < 2 ^ 64 ∧ c.entries.length < 2 ^ 64 := by
  have hsmall := hwf.small
  have hentries := length_le_flatMap encodeEntry_pos c.entries
  have htensors := length_le_flatMap encodeTensor_pos c.tensors
  simp only [encode, table, List.length_append] at hsmall
  constructor <;> omega

/-- The file that a well-formed content opens as. -/
def toFile (c : Contents) (alignment : Nat) : GgufFile :=
  ⟨c.metadata, c.tensors, alignment, c.dataOffset alignment, c.encode.length⟩

theorem WellFormed.opened (hwf : c.WellFormed alignment) :
    Opened ⟨c.encode, hwf.small⟩ (c.toFile alignment) c.tensors.length c.entries.length
      (c.entries.flatMap encodeEntry ++ (c.tensors.flatMap encodeTensor ++ c.data))
      (c.tensors.flatMap encodeTensor ++ c.data) c.data where
  header := by simp only [encode, table, List.append_assoc]
  nTensors_lt := hwf.counts_lt.1
  nKv_lt := hwf.counts_lt.2
  entries := by
    rw [readEntries_complete, hwf.metadata_eq]
    rfl
  tensors := exact_tensor.many_complete hwf.tensors c.data
  alignment := hwf.findAlignment_ok
  dataOffset := by
    have hlength : c.encode.length - c.data.length = c.table.length := by
      rw [encode, List.length_append, Nat.add_sub_cancel]
    dsimp only
    rw [hlength]
    rfl
  fits := fun _ hmem => hwf.checkTensor_ok hmem
  size := rfl

theorem WellFormed.openGguf_ok (hwf : c.WellFormed alignment) :
    openGguf ⟨c.encode, hwf.small⟩ = .ok (c.toFile alignment) :=
  ok_of_opened hwf.opened

/-- Every boolean in the entries is written as zero or one. -/
def Canonical (c : Contents) : Prop := ∀ e ∈ c.entries, e.2.Canonical

/-- Contents that open as the same file are the same, up to the data. -/
theorem toFile_injective {d : Contents} {alignment' : Nat} (hc : c.Canonical) (hd : d.Canonical)
    (hfile : c.toFile alignment = d.toFile alignment') :
    c.entries = d.entries ∧ c.tensors = d.tensors := by
  obtain ⟨hmetadata, htensors, _⟩ := GgufFile.mk.inj hfile
  refine ⟨?_, htensors⟩
  have hlength := congrArg List.length hmetadata
  rw [metadata, metadata, List.length_map, List.length_map] at hlength
  apply List.ext_getElem hlength
  intro i hi hj
  have hentry := congrArg (·[i]?) hmetadata
  simp only [metadata, List.getElem?_map, List.getElem?_eq_getElem hi,
    List.getElem?_eq_getElem hj, Option.map_some, Option.some.injEq, Prod.mk.injEq] at hentry
  apply Prod.ext
  · exact Subtype.ext hentry.1
  · exact Value.toMeta_injective (hc _ (List.getElem_mem hi)) (hd _ (List.getElem_mem hj)) hentry.2

end Contents

/-! ## The grammar -/

/-- An accepted file conforms exactly when it meets no unknown tag, and every
well-formed file is accepted with what was written into it. -/
theorem openGguf_grammar (m : Mapping) (c : Contents) (alignment : Nat) :
    (∀ file, openGguf m = .ok file → (Conforms m.bytes file ↔ ¬ MeetsUnknownTag m.bytes)) ∧
      ∀ hwf : c.WellFormed alignment,
        openGguf ⟨c.encode, hwf.small⟩ = .ok (c.toFile alignment) :=
  ⟨fun _ hopen => conforms_iff hopen, fun hwf => hwf.openGguf_ok⟩

/-- One entry and one tensor of two floats. -/
def sampleContents : Contents where
  entries := [(⟨bytes "n", by decide⟩, .scalar (.word .uint8) (⟨5, by decide⟩ : Fin (256 ^ 1)))]
  tensors := [⟨bytes "t", [2], 0, 0, 2⟩]
  data := List.replicate 33 0

theorem sampleContents_wellFormed : sampleContents.WellFormed 32 where
  small := by decide
  keys := by decide
  aligned := .default (by decide)
  power := ⟨5, rfl⟩
  tensors := by
    intro t hmem
    cases List.mem_singleton.mp hmem
    exact ⟨by decide, by decide, by decide, by decide, by decide, by decide, by decide⟩
  offsets := by decide
  inRange := by decide

theorem openGguf_grammar_sample :
    (Conforms sampleContents.encode (sampleContents.toFile 32) ↔
        ¬ MeetsUnknownTag sampleContents.encode) ∧
      openGguf ⟨sampleContents.encode, sampleContents_wellFormed.small⟩ =
        .ok (sampleContents.toFile 32) := by
  have hboth := openGguf_grammar ⟨sampleContents.encode, sampleContents_wellFormed.small⟩
    sampleContents 32
  have hopen := hboth.2 sampleContents_wellFormed
  exact ⟨hboth.1 _ hopen, hopen⟩

/-- One entry, whose value tag is 13. -/
def strayTag : Bytes := encodeHeader 0 1 ++ (encodeString [97] ++ (leBytes 4 13 ++ []))

theorem strayTag_meets : MeetsUnknownTag strayTag :=
  ⟨0, 1, _, [], by decide, by decide, rfl, by decide, ⟨[97], by decide⟩, 13, [], by decide, rfl,
    .inl rfl⟩

theorem openGguf_accepts_strayTag :
    ∃ file, openGguf ⟨strayTag, by decide⟩ = .ok file ∧ ¬ Conforms strayTag file := by
  have hopen : openGguf ⟨strayTag, by decide⟩ =
      .ok ⟨[([97], ⟨13, 0, [], [], []⟩)], [], 32, 64, 37⟩ := by decide
  refine ⟨_, hopen, fun hconforms => ?_⟩
  exact (conforms_iff hopen).mp hconforms strayTag_meets

end Arcint.Gguf
