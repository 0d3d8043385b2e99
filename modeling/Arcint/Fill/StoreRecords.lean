import Arcint.Fill.ExpertStore
import Arcint.Fill.Filler
import Arcint.Fill.StoreLayout
import Arcint.Foundation.Binary
import Arcint.Foundation.Scatter

/-! # What the store holds of an expert

The writer quantises the pinned experts of a layer together, and cuts its record and its sidecar out
of their common streams. They come out as if the expert had been pinned alone.
-/

namespace Arcint.Fill

open Foundation Store
open BinaryFormat (binary16)

attribute [local instance] neZero_three

/-! ## The writer -/

/-- A tensor of experts. The rows of one are one list. -/
structure ExpertTensor (F : Type) where
  out : ℕ
  inn : ℕ
  rows : ℤ → Option (List F)
  rows_length : ∀ id values, rows id = some values → values.length = out * inn

/-- `feed` is what the checkpoint has under a name, dequantised. -/
structure ExpertStoreWriter (F S : Type) where
  feed : String → Option (ExpertTensor F)
  quantiser : Quantiser F S
  toF16 : S → ℕ
  groupSize : ℕ
  withScaleZp : Bool
  expertChunk : ℕ

structure StoreEntry where
  file : StoreFile
  sidecar : Option (String × List UInt8)

def tensorName : Fin 3 → String :=
  ![ "ffn_gate_exps.weight", "ffn_up_exps.weight", "ffn_down_exps.weight"]

def ggufName (layer : ℤ) (kind : Fin 3) : String :=
  "blk." ++ toString layer ++ "." ++ tensorName kind

/-- A matrix `[oc][gc]`, as `[gc][oc]`. -/
def toDevice (a : List ℕ) (oc gc : ℕ) : List ℕ :=
  (List.range (gc * oc)).map fun place => a.getD (place % oc * gc + place / oc) 0

/-- The little-endian bytes of the halves, and the packed zero points. -/
def sidecarBytes (part : List ℕ × List UInt8) : List UInt8 :=
  part.1.flatMap (fun half => [UInt8.ofNat (half % 256), UInt8.ofNat (half / 256)]) ++ part.2

theorem length_toDevice (a : List ℕ) (oc gc : ℕ) : (toDevice a oc gc).length = gc * oc := by
  simp [toDevice]

theorem toDevice_getD (a : List ℕ) {oc gc o g : ℕ} (ho : o < oc) (hg : g < gc) :
    (toDevice a oc gc)[g * oc + o]? = some (a.getD (o * gc + g) 0) := by
  rw [toDevice, List.getElem?_map, List.getElem?_range (block_lt hg ho), Option.map_some,
    block_div ho, block_mod ho]

theorem toDevice_le {a : List ℕ} (ha : ∀ c ∈ a, c ≤ 15) (oc gc : ℕ) :
    ∀ c ∈ toDevice a oc gc, c ≤ 15 := by
  intro c hc
  obtain ⟨place, -, rfl⟩ := List.mem_map.mp hc
  rw [List.getD_eq_getElem?_getD]
  cases hplace : a[place % oc * gc + place / oc]? with
  | none => exact Nat.zero_le _
  | some code => exact ha code (List.mem_of_getElem? hplace)

namespace ExpertStoreWriter

variable {F S : Type} (w : ExpertStoreWriter F S)

def dequantExperts (name : String) (ids : List ℤ) :
    Except String ((ℕ × ℕ) × List (List F)) :=
  match w.feed name with
  | none => .error name
  | some tensor => do
      let rows ← parseAll (fun id => match tensor.rows id with
        | none => .error ("index " ++ toString id ++ " is out of bounds for axis 0")
        | some values => .ok values) ids
      return ((tensor.out, tensor.inn), rows)

def groups (kind : Fin 3) : ℕ := roleIn kind / w.groupSize

def roleArrays (layer : ℤ) (kind : Fin 3) (ids : List ℤ) : Except String (FilledBody S) := do
  let (shape, rows) ← w.dequantExperts (ggufName layer kind) ids
  let body ← fillBody w.quantiser w.groupSize w.expertChunk
    ("(" ++ toString layer ++ ", '" ++ roleName kind ++ "')") shape rows ids.length (roleOut kind)
    (roleIn kind)
  ensure (body.packedW.length = ids.length * (roleOut kind * w.groups kind * (w.groupSize / 2)))
    ("cannot reshape array of size " ++ toString body.packedW.length)
  return body

/-- All roles are filled before a file of the layer is written. -/
def roles (layer : ℤ) (ids : List ℤ) : Except String (Fin 3 → FilledBody S) := do
  let gate ← w.roleArrays layer 0 ids
  let up ← w.roleArrays layer 1 ids
  let down ← w.roleArrays layer 2 ids
  return ![gate, up, down]

/-- `roles[kind][0][i]`. -/
def expertWeights (kind : Fin 3) (body : FilledBody S) (i : ℕ) : List UInt8 :=
  let size := roleOut kind * w.groups kind * (w.groupSize / 2)
  slice body.packedW (i * size) size

/-- `_sidecar_for`. -/
def sidecarFor (kind : Fin 3) (body : FilledBody S) (i : ℕ) :
    Except String (List ℕ × List UInt8) := do
  let oc := roleOut kind
  let gc := w.groups kind
  let per := oc * gc / 2
  let codes ← unpackU4 (slice body.packedZp (i * per) per) (oc * gc)
  let halves := (slice body.scales (i * (oc * gc)) (oc * gc)).map w.toF16
  let packedZp ← packU4 (toDevice codes oc gc)
  return (toDevice halves oc gc, packedZp)

def buildSidecar (roles : Fin 3 → FilledBody S) (i : ℕ) : Except String (List UInt8) := do
  let gate ← w.sidecarFor 0 (roles 0) i
  let up ← w.sidecarFor 1 (roles 1) i
  let down ← w.sidecarFor 2 (roles 2) i
  return sidecarBytes gate ++ sidecarBytes up ++ sidecarBytes down

/-- What the writer makes of an expert of a layer. -/
def buildExpert (layer : ℤ) (roles : Fin 3 → FilledBody S) (expert : ℤ) (i ordinal : ℕ) :
    Except String StoreEntry := do
  let record ← deviceOrderWeightRecord fun kind => w.expertWeights kind (roles kind) i
  ensure (record.length = expertSliceBytes)
    ("layer " ++ toString layer ++ " expert " ++ toString expert ++ ": record is " ++
      toString record.length ++ " B, expected " ++ toString expertSliceBytes)
  let file : StoreFile := ⟨ordinal, layer, expert, expertFileName ordinal, record⟩
  if w.withScaleZp then
    let blob ← w.buildSidecar roles i
    return ⟨file, some (file.file.replace ".bin" ".scaleszp", blob)⟩
  else return ⟨file, none⟩

/-- The entries that are written, and what stops the writer. -/
def writeExperts (layer : ℤ) (roles : Fin 3 → FilledBody S) :
    List (ℤ × ℕ) → ℕ → List StoreEntry × Option String
  | [], _ => ([], none)
  | (expert, i) :: rest, ordinal =>
      match w.buildExpert layer roles expert i ordinal with
      | .error reason => ([], some reason)
      | .ok entry =>
          let (entries, stopped) := writeExperts layer roles rest (ordinal + 1)
          (entry :: entries, stopped)

def writeLayers : Pinned → ℕ → List StoreEntry × Option String
  | [], _ => ([], none)
  | (layer, ids) :: rest, ordinal =>
      match w.roles layer ids with
      | .error reason => ([], some reason)
      | .ok roles =>
          match w.writeExperts layer roles ids.zipIdx ordinal with
          | (entries, some reason) => (entries, some reason)
          | (entries, none) =>
              let (more, stopped) := writeLayers rest (ordinal + ids.length)
              (entries ++ more, stopped)

/-- `ExpertStoreWriter.write`. -/
def write (pinned : Pinned) : List StoreEntry × Option String :=
  w.writeLayers (pinned.insertionSort fun a b => a.1 ≤ b.1) 0

/-! ## What an expert's own rows give -/

/-- The checkpoint has the experts, of the widths the store is for. -/
def Serves (layer : ℤ) (ids : List ℤ) : Prop :=
  ∀ kind, ∃ tensor, w.feed (ggufName layer kind) = some tensor ∧ tensor.out = roleOut kind ∧
    tensor.inn = roleIn kind ∧ ∀ id ∈ ids, (tensor.rows id).isSome

/-- The rows of an expert that the checkpoint has. -/
def rowsOf (layer : ℤ) (kind : Fin 3) (id : ℤ) : List F :=
  match w.feed (ggufName layer kind) with
  | none => []
  | some tensor => (tensor.rows id).getD []

def bodyOf (layer : ℤ) (kind : Fin 3) (id : ℤ) : FilledBody S :=
  expertBody w.quantiser w.groupSize (w.rowsOf layer kind id)

/-- The zero points of an expert, row after row, and its scales. -/
def zeroPointsOf (layer : ℤ) (kind : Fin 3) (id : ℤ) : List ℕ :=
  ((rowGroups w.groupSize (w.rowsOf layer kind id)).map w.quantiser.run).map AffineGroup.zeroPoint

def recordOf (layer id : ℤ) : List UInt8 :=
  (w.bodyOf layer 0 id).packedW ++ (w.bodyOf layer 1 id).packedW ++ (w.bodyOf layer 2 id).packedW

def sidecarOf (layer : ℤ) (kind : Fin 3) (id : ℤ) : List ℕ × List UInt8 :=
  let oc := roleOut kind
  let gc := w.groups kind
  (toDevice ((w.bodyOf layer kind id).scales.map w.toF16) oc gc,
    packPairs (toDevice (w.zeroPointsOf layer kind id) oc gc))

def blobOf (layer id : ℤ) : List UInt8 :=
  sidecarBytes (w.sidecarOf layer 0 id) ++ sidecarBytes (w.sidecarOf layer 1 id) ++
    sidecarBytes (w.sidecarOf layer 2 id)

def entryOf (layer id : ℤ) (ordinal : ℕ) : StoreEntry :=
  let name := expertFileName ordinal
  ⟨⟨ordinal, layer, id, name, w.recordOf layer id⟩,
    if w.withScaleZp then some (name.replace ".bin" ".scaleszp", w.blobOf layer id) else none⟩

/-- The entries of a layer, numbered from `ordinal` on. -/
def entriesOf (layer : ℤ) : List ℤ → ℕ → List StoreEntry
  | [], _ => []
  | id :: rest, ordinal => w.entryOf layer id ordinal :: entriesOf layer rest (ordinal + 1)

/-- Groups of an even size that divides both widths of an expert. -/
structure Divides : Prop where
  chunk : 1 ≤ w.expertChunk
  even : w.groupSize % 2 = 0
  hidden : w.groupSize ∣ 2560
  inter : w.groupSize ∣ 640

variable {w} {layer : ℤ} {ids : List ℤ} {kind : Fin 3} {id : ℤ}

theorem Divides.whole (h : w.Divides) (kind : Fin 3) :
    WholeGroups w.groupSize (roleOut kind) (roleIn kind) := by
  have hcount : ∀ out n : ℕ, out % 2 = 0 → out * n % 2 = 0 := by
    intro out n hout
    rw [Nat.mul_mod, hout, Nat.zero_mul, Nat.zero_mod]
  match kind with
  | 0 => exact ⟨h.even, h.hidden, hcount 640 _ rfl, by decide⟩
  | 1 => exact ⟨h.even, h.hidden, hcount 640 _ rfl, by decide⟩
  | 2 => exact ⟨h.even, h.inter, hcount 2560 _ rfl, by decide⟩

theorem Serves.mono (h : w.Serves layer ids) (hid : id ∈ ids) : w.Serves layer [id] := by
  intro kind
  obtain ⟨tensor, hfeed, hout, hinn, hrows⟩ := h kind
  exact ⟨tensor, hfeed, hout, hinn, fun other hother => List.mem_singleton.mp hother ▸ hrows id hid⟩

theorem Serves.length_rowsOf (h : w.Serves layer ids) (hid : id ∈ ids) :
    (w.rowsOf layer kind id).length = roleOut kind * roleIn kind := by
  obtain ⟨tensor, hfeed, hout, hinn, hrows⟩ := h kind
  obtain ⟨values, hvalues⟩ := Option.isSome_iff_exists.mp (hrows id hid)
  simp only [rowsOf, hfeed, hvalues, Option.getD_some]
  rw [tensor.rows_length id values hvalues, hout, hinn]

theorem dequantExperts_eq (h : w.Serves layer ids) (kind : Fin 3) :
    w.dequantExperts (ggufName layer kind) ids =
      .ok ((roleOut kind, roleIn kind), ids.map (w.rowsOf layer kind)) := by
  obtain ⟨tensor, hfeed, hout, hinn, hrows⟩ := h kind
  have hrow : ∀ id ∈ ids, tensor.rows id = some ((tensor.rows id).getD []) := by
    intro id hid
    obtain ⟨values, hvalues⟩ := Option.isSome_iff_exists.mp (hrows id hid)
    rw [hvalues, Option.getD_some]
  have hmap : ids.map (w.rowsOf layer kind) = ids.map fun id => (tensor.rows id).getD [] :=
    List.map_congr_left fun id _ => by rw [rowsOf, hfeed]
  simp only [dequantExperts, hfeed, bind_ok]
  refine ⟨_, parseAll_eq_ok fun id hid => ?_, by rw [← hmap, hout, hinn]; rfl⟩
  rw [hrow id hid]
  rfl

theorem zeroPointsOf_le : ∀ c ∈ w.zeroPointsOf layer kind id, c ≤ 15 := by
  intro c hc
  obtain ⟨group, hgroup, rfl⟩ := List.mem_map.mp hc
  obtain ⟨values, -, rfl⟩ := List.mem_map.mp hgroup
  exact w.quantiser.zeroPoint_le values

section Streams

variable (hdivides : w.Divides) (hserves : w.Serves layer ids)

include hdivides hserves

theorem length_packedW (hid : id ∈ ids) :
    (w.bodyOf layer kind id).packedW.length =
      roleOut kind * w.groups kind * (w.groupSize / 2) := by
  have hcodes := @length_codes F S w.quantiser _ _ _ (hdivides.whole kind) _
    (hserves.length_rowsOf hid)
  rw [bodyOf, expertBody, length_packPairs, hcodes, groups,
    Nat.mul_div_assoc _ (Nat.dvd_of_mod_eq_zero hdivides.even)]

theorem length_zeroPointsOf (hid : id ∈ ids) :
    (w.zeroPointsOf layer kind id).length = roleOut kind * w.groups kind := by
  rw [zeroPointsOf, List.length_map, List.length_map,
    (hdivides.whole kind).count (hserves.length_rowsOf hid), groups]

theorem length_packedZp (hid : id ∈ ids) :
    (w.bodyOf layer kind id).packedZp.length = roleOut kind * w.groups kind / 2 := by
  have hzero := @length_zeroPointsOf F S w layer ids kind id hdivides hserves hid
  rw [bodyOf, expertBody, length_packPairs]
  exact congrArg (· / 2) hzero

theorem length_scales (hid : id ∈ ids) :
    (w.bodyOf layer kind id).scales.length = roleOut kind * w.groups kind := by
  rw [bodyOf, expertBody, List.length_map, List.length_map,
    (hdivides.whole kind).count (hserves.length_rowsOf hid), groups]

/-- The streams of a layer are those of its experts, one behind the other. -/
theorem roleArrays_eq (hne : ids ≠ []) :
    w.roleArrays layer kind ids = .ok (FilledBody.concat (ids.map (w.bodyOf layer kind))) := by
  have hrows : ∀ row ∈ ids.map (w.rowsOf layer kind), row.length = roleOut kind * roleIn kind := by
    intro row hrow
    obtain ⟨id, hid, rfl⟩ := List.mem_map.mp hrow
    exact hserves.length_rowsOf hid
  have hbody := @fillBody_eq F S w.quantiser w.groupSize w.expertChunk _ _ (hdivides.whole kind)
    ("(" ++ toString layer ++ ", '" ++ roleName kind ++ "')") hdivides.chunk _
    (by simpa using hne) hrows
  rw [List.length_map, List.map_map] at hbody
  simp only [roleArrays, bind_ok, ensure_ok, dequantExperts_eq hserves kind]
  refine ⟨_, rfl, _, hbody, (), ?_, rfl⟩
  have hsizes : ∀ id ∈ ids, (w.bodyOf layer kind id).packedW.length =
      roleOut kind * w.groups kind * (w.groupSize / 2) := fun id hid =>
    length_packedW hdivides hserves hid
  rw [FilledBody.concat, List.flatMap_map, List.length_flatMap]
  refine (congrArg List.sum (List.map_congr_left hsizes)).trans ?_
  rw [List.map_const', List.sum_replicate, Nat.nsmul_eq_mul]

theorem roles_eq (hne : ids ≠ []) :
    w.roles layer ids = .ok fun kind => FilledBody.concat (ids.map (w.bodyOf layer kind)) := by
  simp only [roles, bind_ok, roleArrays_eq hdivides hserves hne]
  refine ⟨_, rfl, _, rfl, _, rfl, congrArg Except.ok (funext fun kind => ?_)⟩
  match kind with
  | 0 => rfl
  | 1 => rfl
  | 2 => rfl

/-- The weights of an expert, cut out of its layer's stream. -/
theorem expertWeights_eq {i : ℕ} (hi : ids[i]? = some id) :
    w.expertWeights kind (FilledBody.concat (ids.map (w.bodyOf layer kind))) i =
      (w.bodyOf layer kind id).packedW := by
  rw [expertWeights, FilledBody.concat, List.flatMap_map]
  exact slice_flatMap (fun other hother => length_packedW hdivides hserves hother) hi

theorem sidecarFor_eq {i : ℕ} (hi : ids[i]? = some id) :
    w.sidecarFor kind (FilledBody.concat (ids.map (w.bodyOf layer kind))) i =
      .ok (w.sidecarOf layer kind id) := by
  have hid := List.mem_of_getElem? hi
  have hzp : slice (FilledBody.concat (ids.map (w.bodyOf layer kind))).packedZp
      (i * (roleOut kind * w.groups kind / 2)) (roleOut kind * w.groups kind / 2) =
        packPairs (w.zeroPointsOf layer kind id) := by
    simp only [FilledBody.concat, List.flatMap_map]
    exact slice_flatMap (fun other hother => length_packedZp hdivides hserves hother) hi
  have hscales : slice (FilledBody.concat (ids.map (w.bodyOf layer kind))).scales
      (i * (roleOut kind * w.groups kind)) (roleOut kind * w.groups kind) =
        (w.bodyOf layer kind id).scales := by
    simp only [FilledBody.concat, List.flatMap_map]
    exact slice_flatMap (fun other hother => length_scales hdivides hserves hother) hi
  have hcount := @length_zeroPointsOf F S w layer ids kind id hdivides hserves hid
  have heven : roleOut kind * w.groups kind % 2 = 0 := (hdivides.whole kind).groups
  have hpos : 0 < roleOut kind * w.groups kind := by
    have hnonempty := (hdivides.whole kind).nonempty
    rw [← Nat.div_mul_cancel (hdivides.whole kind).whole, ← Nat.mul_assoc] at hnonempty
    exact Nat.pos_of_mul_pos_right hnonempty
  have hunpack := unpackU4_packPairs (hcount ▸ heven)
    (@zeroPointsOf_le F S w layer kind id)
  have hdevice := length_toDevice (w.zeroPointsOf layer kind id) (roleOut kind) (w.groups kind)
  rw [Nat.mul_comm] at hdevice
  simp only [sidecarFor, bind_ok, hzp, hscales]
  refine ⟨_, hcount ▸ hunpack, _, packU4_eq (hdevice ▸ heven) ?_ (toDevice_le ?_ _ _), rfl⟩
  · rw [← List.length_pos_iff, hdevice]
    exact hpos
  · exact zeroPointsOf_le

theorem recordOf_ok (hid : id ∈ ids) :
    deviceOrderWeightRecord (fun kind => (w.bodyOf layer kind id).packedW) =
        .ok (w.recordOf layer id) ∧ (w.recordOf layer id).length = expertSliceBytes := by
  have hsize : ∀ kind, (w.bodyOf layer kind id).packedW.length = roleByteCount kind := by
    intro kind
    have heven := Nat.dvd_of_mod_eq_zero hdivides.even
    rw [length_packedW hdivides hserves hid, groups, ← Nat.mul_div_assoc _ heven, Nat.mul_assoc,
      Nat.div_mul_cancel (hdivides.whole kind).whole, roleByteCount]
  constructor
  · simp only [deviceOrderWeightRecord, bind_ok, checkAll_ok, ensure_ok]
    exact ⟨(), fun kind _ => hsize kind, rfl⟩
  · rw [recordOf, List.length_append, List.length_append, hsize, hsize, hsize]
    rfl

theorem buildExpert_eq {i : ℕ} (hi : ids[i]? = some id) (ordinal : ℕ) :
    w.buildExpert layer (fun kind => FilledBody.concat (ids.map (w.bodyOf layer kind))) id i
      ordinal = .ok (w.entryOf layer id ordinal) := by
  obtain ⟨hrecord, hbytes⟩ := recordOf_ok hdivides hserves (List.mem_of_getElem? hi)
  have hblob : w.buildSidecar
      (fun kind => FilledBody.concat (ids.map (w.bodyOf layer kind))) i =
        .ok (w.blobOf layer id) := by
    simp only [buildSidecar, bind_ok, sidecarFor_eq hdivides hserves hi]
    exact ⟨_, rfl, _, rfl, _, rfl, rfl⟩
  simp only [buildExpert, bind_ok, ensure_ok, expertWeights_eq hdivides hserves hi]
  refine ⟨_, hrecord, (), hbytes, ?_⟩
  rw [hblob, entryOf]
  split <;> rfl

theorem writeExperts_eq {l : List (ℤ × ℕ)} (hl : ∀ entry ∈ l, ids[entry.2]? = some entry.1)
    (ordinal : ℕ) :
    w.writeExperts layer (fun kind => FilledBody.concat (ids.map (w.bodyOf layer kind))) l ordinal =
      (w.entriesOf layer (l.map Prod.fst) ordinal, none) := by
  induction l generalizing ordinal with
  | nil => rfl
  | cons entry l ih =>
      obtain ⟨id, i⟩ := entry
      rw [writeExperts, buildExpert_eq hdivides hserves (hl (id, i) List.mem_cons_self)]
      simp only [ih fun other hother => hl other (List.mem_cons_of_mem _ hother)]
      rfl

end Streams

/-- What is filled was there to be filled. -/
theorem roleArrays_ok {body : FilledBody S}
    (h : w.roleArrays layer kind ids = .ok body) :
    ids ≠ [] ∧ ∃ tensor, w.feed (ggufName layer kind) = some tensor ∧
      tensor.out = roleOut kind ∧ tensor.inn = roleIn kind ∧
        ∀ id ∈ ids, (tensor.rows id).isSome := by
  simp only [roleArrays, bind_ok, ensure_ok] at h
  obtain ⟨⟨shape, rows⟩, hrows, filled, hfilled, -⟩ := h
  simp only [fillBody, bind_ok, ensure_ok] at hfilled
  obtain ⟨-, ⟨-, hshape⟩, parts, hparts, -, hne, -⟩ := hfilled
  constructor
  · rintro rfl
    refine hne ?_
    have hnone : indicesBelow w.expertChunk ([] : List ℤ).length = [] := rfl
    rw [hnone] at hparts
    exact (Except.ok.inj hparts).symm
  · unfold dequantExperts at hrows
    split at hrows
    next => cases hrows
    next tensor hfeed =>
      rw [bind_ok] at hrows
      obtain ⟨parsed, hparsed, hpair⟩ := hrows
      obtain ⟨rfl, rfl⟩ := Prod.mk.inj (Except.ok.inj hpair)
      obtain ⟨hout, hinn⟩ := Prod.mk.inj hshape
      refine ⟨tensor, hfeed, hout, hinn, fun id hid => ?_⟩
      obtain ⟨values, hvalues⟩ := exists_of_parseAll hparsed hid
      cases hsome : tensor.rows id with
      | none => rw [hsome] at hvalues; cases hvalues
      | some values => rfl

theorem roles_ok {filled : Fin 3 → FilledBody S}
    (h : w.roles layer ids = .ok filled) : ids ≠ [] ∧ w.Serves layer ids := by
  simp only [roles, bind_ok] at h
  obtain ⟨gate, hgate, up, hup, down, hdown, -⟩ := h
  refine ⟨(roleArrays_ok hgate).1, fun kind => ?_⟩
  match kind with
  | 0 => exact (roleArrays_ok hgate).2
  | 1 => exact (roleArrays_ok hup).2
  | 2 => exact (roleArrays_ok hdown).2

/-! ## The files of a pinned set -/

theorem mem_entriesOf {ordinal : ℕ} {entry : StoreEntry}
    (h : entry ∈ w.entriesOf layer ids ordinal) :
    ∃ id ∈ ids, ∃ n, entry = w.entryOf layer id n := by
  induction ids generalizing ordinal with
  | nil => cases h
  | cons id rest ih =>
      rcases List.mem_cons.mp h with rfl | hrest
      · exact ⟨id, List.mem_cons_self, ordinal, rfl⟩
      · obtain ⟨other, hother, n, rfl⟩ := ih hrest
        exact ⟨other, List.mem_cons_of_mem _ hother, n, rfl⟩

theorem entriesOf_keys (layer : ℤ) (ids : List ℤ) (ordinal : ℕ) :
    (w.entriesOf layer ids ordinal).map (fun entry => (entry.file.layer, entry.file.expert)) =
      ids.map fun id => (layer, id) := by
  induction ids generalizing ordinal with
  | nil => rfl
  | cons id rest ih => exact congrArg ((layer, id) :: ·) (ih (ordinal + 1))

section Files

variable (hdivides : w.Divides)

include hdivides

theorem writeLayers_cons (layer : ℤ) (ids : List ℤ) (rest : Pinned) (ordinal : ℕ)
    (hne : ids ≠ []) (hserves : w.Serves layer ids) :
    w.writeLayers ((layer, ids) :: rest) ordinal =
      (w.entriesOf layer ids ordinal ++ (w.writeLayers rest (ordinal + ids.length)).1,
        (w.writeLayers rest (ordinal + ids.length)).2) := by
  have hindexed : ∀ entry ∈ ids.zipIdx, ids[entry.2]? = some entry.1 := fun entry hentry =>
    List.mk_mem_zipIdx_iff_getElem?.mp hentry
  rw [writeLayers, roles_eq hdivides hserves hne]
  simp only [writeExperts_eq hdivides hserves hindexed, List.zipIdx_map_fst]

theorem writeLayers_entry {pinned : Pinned} {ordinal : ℕ} {entry : StoreEntry}
    (h : entry ∈ (w.writeLayers pinned ordinal).1) :
    ∃ layer id n, entry = w.entryOf layer id n ∧ w.Serves layer [id] := by
  induction pinned generalizing ordinal with
  | nil => cases h
  | cons row rest ih =>
      obtain ⟨layer, ids⟩ := row
      by_cases hfilled : ids ≠ [] ∧ w.Serves layer ids
      · rw [writeLayers_cons hdivides layer ids rest ordinal hfilled.1 hfilled.2] at h
        rcases List.mem_append.mp h with hhere | hrest
        · obtain ⟨id, hid, n, rfl⟩ := mem_entriesOf hhere
          exact ⟨layer, id, n, rfl, hfilled.2.mono hid⟩
        · exact ih hrest
      · -- the layer stops the writer before its first file
        rw [writeLayers] at h
        split at h
        next => cases h
        next filled hroles => exact absurd (roles_ok hroles) hfilled

theorem writeLayers_all {pinned : Pinned}
    (hall : ∀ row ∈ pinned, row.2 ≠ [] ∧ w.Serves row.1 row.2) (ordinal : ℕ) :
    (w.writeLayers pinned ordinal).2 = none ∧
      (w.writeLayers pinned ordinal).1.map (fun entry => (entry.file.layer, entry.file.expert)) =
        pinned.flatMap fun row => row.2.map fun id => (row.1, id) := by
  induction pinned generalizing ordinal with
  | nil => exact ⟨rfl, rfl⟩
  | cons row rest ih =>
      obtain ⟨layer, ids⟩ := row
      obtain ⟨hne, hserves⟩ := hall (layer, ids) List.mem_cons_self
      obtain ⟨hstopped, hkeys⟩ :=
        ih (fun other hother => hall other (List.mem_cons_of_mem _ hother)) (ordinal + ids.length)
      rw [writeLayers_cons hdivides layer ids rest ordinal hne hserves, List.map_append,
        entriesOf_keys, hkeys]
      exact ⟨hstopped, rfl⟩

/-- What the plan needs of the fill machinery: the weights of each expert. -/
theorem writePlan_layer (hserves : w.Serves layer ids) (rest : List (ℤ × ℤ)) (ordinal : ℕ) :
    writePlan (fun layer id kind => (w.bodyOf layer kind id).packedW)
        (ids.map (fun id => (layer, id)) ++ rest) ordinal =
      (writePlan (fun layer id kind => (w.bodyOf layer kind id).packedW) rest
        (ordinal + ids.length)).map
          fun files => (w.entriesOf layer ids ordinal).map StoreEntry.file ++ files := by
  induction ids generalizing ordinal with
  | nil =>
      rw [List.map_nil, List.nil_append, List.length_nil, Nat.add_zero]
      cases writePlan (fun layer id kind => (w.bodyOf layer kind id).packedW) rest ordinal <;> rfl
  | cons id ids ih =>
      obtain ⟨hrecord, hbytes⟩ := recordOf_ok hdivides hserves List.mem_cons_self
      have htail := ih (fun kind => by
        obtain ⟨tensor, hfeed, hout, hinn, hrows⟩ := hserves kind
        exact ⟨tensor, hfeed, hout, hinn, fun id hid => hrows id (List.mem_cons_of_mem _ hid)⟩)
        (ordinal + 1)
      rw [List.map_cons, List.cons_append, writePlan, hrecord, htail, List.length_cons,
        Nat.add_right_comm, ← Nat.add_assoc]
      simp only [ensure, if_pos hbytes, bind, Except.bind]
      cases writePlan (fun layer id kind => (w.bodyOf layer kind id).packedW) rest
        (ordinal + ids.length + 1) <;> rfl

/-- The plan of the store is carried out by the fill machinery. -/
theorem writeLayers_plan {pinned : Pinned}
    (hall : ∀ row ∈ pinned, row.2 ≠ [] ∧ w.Serves row.1 row.2) (ordinal : ℕ) :
    writePlan (fun layer id kind => (w.bodyOf layer kind id).packedW)
        (pinned.flatMap fun row => row.2.map fun id => (row.1, id)) ordinal =
      .ok ((w.writeLayers pinned ordinal).1.map StoreEntry.file) := by
  induction pinned generalizing ordinal with
  | nil => rfl
  | cons row rest ih =>
      obtain ⟨layer, ids⟩ := row
      obtain ⟨hne, hserves⟩ := hall (layer, ids) List.mem_cons_self
      rw [List.flatMap_cons, writePlan_layer hdivides hserves,
        ih fun other hother => hall other (List.mem_cons_of_mem _ hother),
        writeLayers_cons hdivides layer ids rest ordinal hne hserves, List.map_append]
      rfl

end Files

/-- The writer refines the plan's writer, which is given every expert's weights. -/
theorem write_refines (hdivides : w.Divides) {pinned : Pinned}
    (hall : ∀ row ∈ pinned, row.2 ≠ [] ∧ w.Serves row.1 row.2) :
    Store.write (fun layer id kind => (w.bodyOf layer kind id).packedW) pinned =
      .ok ((w.write pinned).1.map StoreEntry.file) :=
  writeLayers_plan hdivides
    (fun row hrow => hall row ((List.perm_insertionSort _ pinned).mem_iff.mp hrow)) 0

/-- What a sidecar says of an expert: role after role, the scale and the zero point of output row
`o` and group `g` are at `g * oc + o`. -/
def SidecarSays (w : ExpertStoreWriter F S) (layer id : ℤ) (blob : List UInt8) : Prop :=
  ∃ parts : Fin 3 → List ℕ × List UInt8,
    blob = sidecarBytes (parts 0) ++ sidecarBytes (parts 1) ++ sidecarBytes (parts 2) ∧
    ∀ kind, (parts kind).1.length = w.groups kind * roleOut kind ∧
      2 * (parts kind).2.length = w.groups kind * roleOut kind ∧
      ∀ o < roleOut kind, ∀ g < w.groups kind,
        let group := w.quantiser.run (slice (w.rowsOf layer kind id)
          (o * roleIn kind + g * w.groupSize) w.groupSize)
        (parts kind).1[g * roleOut kind + o]? = some (w.toF16 group.scale) ∧
          nibbleAt (parts kind).2 (g * roleOut kind + o) = group.zeroPoint

theorem sidecarSays (hdivides : w.Divides) (hserves : w.Serves layer [id]) :
    w.SidecarSays layer id (w.blobOf layer id) := by
  have hid : id ∈ [id] := List.mem_singleton_self id
  refine ⟨fun kind => w.sidecarOf layer kind id, rfl, fun kind => ?_⟩
  have hdevice := length_toDevice (w.zeroPointsOf layer kind id) (roleOut kind) (w.groups kind)
  have heven : w.groups kind * roleOut kind % 2 = 0 := by
    rw [Nat.mul_comm]
    exact (hdivides.whole kind).groups
  have hcount := (hdivides.whole kind).count (hserves.length_rowsOf hid)
  refine ⟨length_toDevice _ _ _, ?_, fun o ho g hg => ?_⟩
  · simp only [sidecarOf, length_packPairs, hdevice]
    exact Nat.mul_div_cancel' (Nat.dvd_of_mod_eq_zero heven)
  · -- the group's place in the expert's own list of groups
    have hplace : o * w.groups kind + g < (rowGroups w.groupSize (w.rowsOf layer kind id)).length :=
      hcount ▸ block_lt ho hg
    have hgroup : (rowGroups w.groupSize (w.rowsOf layer kind id))[o * w.groups kind + g]? =
        some (slice (w.rowsOf layer kind id) (o * roleIn kind + g * w.groupSize) w.groupSize) := by
      rw [length_rowGroups] at hplace
      rw [rowGroups, List.getElem?_map, List.getElem?_range hplace, Option.map_some, Nat.add_mul,
        Nat.mul_assoc, groups, Nat.div_mul_cancel (hdivides.whole kind).whole]
    have hmod := toDevice_le (@zeroPointsOf_le F S w layer kind id) (roleOut kind) (w.groups kind)
    constructor
    · simp only [sidecarOf, toDevice_getD _ ho hg, List.getD_eq_getElem?_getD, bodyOf, expertBody,
        List.getElem?_map, hgroup, Option.map_some, Option.getD_some]
    · refine (nibbleAt_packPairs hmod (hdevice ▸ heven) _).trans ?_
      simp only [List.getD_eq_getElem?_getD, toDevice_getD _ ho hg, Option.getD_some, zeroPointsOf,
        List.getElem?_map, hgroup, Option.map_some]

/-- The sidecar's bytes do not depend on the ordinal. -/
theorem map_sidecar_entryOf (layer id : ℤ) (ordinal : ℕ) :
    (w.entryOf layer id ordinal).sidecar.map Prod.snd =
      if w.withScaleZp then some (w.blobOf layer id) else none := by
  unfold entryOf
  dsimp only
  split <;> rfl

/-- The files of an expert are those of a store that it is pinned to alone. A layer without experts
stops the writer; where there is none, every pinned expert has its files. -/
theorem write_as_alone (hdivides : w.Divides) (pinned : Pinned) :
    (∀ entry ∈ (w.write pinned).1, ∃ alone,
      w.write [(entry.file.layer, [entry.file.expert])] = ([alone], none) ∧
      alone.file.record = entry.file.record ∧
      alone.sidecar.map Prod.snd = entry.sidecar.map Prod.snd ∧
      entry.sidecar.isSome = w.withScaleZp ∧
      ∀ sidecar ∈ entry.sidecar,
        w.SidecarSays entry.file.layer entry.file.expert sidecar.2) ∧
    ((∀ row ∈ pinned, row.2 ≠ [] ∧ w.Serves row.1 row.2) →
      (w.write pinned).2 = none ∧
        (w.write pinned).1.map (fun entry => (entry.file.layer, entry.file.expert)) =
          planOrder pinned) := by
  refine ⟨fun entry hentry => ?_, fun hall => ?_⟩
  · obtain ⟨layer, id, n, rfl, hserves⟩ := writeLayers_entry hdivides hentry
    refine ⟨w.entryOf layer id 0, ?_, rfl, ?_, ?_, ?_⟩
    · exact writeLayers_cons hdivides layer [id] [] 0 (List.cons_ne_nil _ _) hserves
    · rw [map_sidecar_entryOf, map_sidecar_entryOf]
    · unfold entryOf
      dsimp only
      cases w.withScaleZp <;> rfl
    · intro sidecar hsidecar
      unfold entryOf at hsidecar
      dsimp only at hsidecar
      split at hsidecar
      · obtain rfl := Option.some.inj hsidecar
        exact sidecarSays hdivides hserves
      · cases hsidecar
  · exact writeLayers_all hdivides
      (fun row hrow => hall row ((List.perm_insertionSort _ pinned).mem_iff.mp hrow)) 0

end ExpertStoreWriter

/-- The quantiser of the fill, where nothing is rounded but the codes. -/
def exactQuantiser : Quantiser ℚ ℚ where
  run values := (quantiseGroup values).getD ⟨[], 0, 0⟩
  codes_length values := by
    cases values with
    | nil => rfl
    | cons first rest =>
        obtain ⟨group, hgroup, hwithin⟩ := quantiseGroup_spec first rest
        rw [hgroup, Option.getD_some, hwithin.near.length_eq]
  codes_le values := by
    cases values with
    | nil =>
        intro q hq
        cases hq
    | cons first rest =>
        obtain ⟨group, hgroup, hwithin⟩ := quantiseGroup_spec first rest
        rw [hgroup, Option.getD_some]
        exact hwithin.codes_le
  zeroPoint_le values := by
    cases values with
    | nil => exact Nat.zero_le _
    | cons first rest =>
        obtain ⟨group, hgroup, hwithin⟩ := quantiseGroup_spec first rest
        rw [hgroup, Option.getD_some]
        exact hwithin.zeroPoint_le

/-- Experts whose weights go up and down from their own number. -/
def wavyTensor (out inn : ℕ) : ExpertTensor ℚ where
  out := out
  inn := inn
  rows id := some ((List.range (out * inn)).map fun i => (id : ℚ) + (i % 5 : ℕ))
  rows_length id values h := by
    rw [← Option.some.inj h, List.length_map, List.length_range]

def wavyWriter : ExpertStoreWriter ℚ ℚ where
  feed name := some (if name = ggufName 3 2 then wavyTensor 2560 640
    else wavyTensor 640 2560)
  quantiser := exactQuantiser
  toF16 scale := binary16.withSign (scale < 0) (binary16.round (|scale| * binary16.one))
  groupSize := 128
  withScaleZp := true
  expertChunk := 1

/-- Two experts of a layer, the larger number first. -/
theorem ExpertStoreWriter.write_as_alone_twoExperts :
    (wavyWriter.write [(3, [7, 2])]).2 = none ∧
      (wavyWriter.write [(3, [7, 2])]).1.map
        (fun entry => (entry.file.layer, entry.file.expert)) = [(3, 7), (3, 2)] ∧
      ∀ entry ∈ (wavyWriter.write [(3, [7, 2])]).1, ∃ alone,
        wavyWriter.write [(entry.file.layer, [entry.file.expert])] = ([alone], none) ∧
          alone.file.record = entry.file.record := by
  have hdivides : wavyWriter.Divides := ⟨by decide, by decide, by decide, by decide⟩
  have hwritten := ExpertStoreWriter.write_as_alone hdivides [(3, [7, 2])]
  have hserves : ∀ row ∈ [((3 : ℤ), [(7 : ℤ), 2])],
      row.2 ≠ [] ∧ wavyWriter.Serves row.1 row.2 := by
    intro row hrow
    obtain rfl := List.mem_singleton.mp hrow
    refine ⟨by decide, fun kind => ?_⟩
    match kind with
    | 0 =>
      exact ⟨wavyTensor 640 2560, congrArg some (if_neg (by decide)), rfl, rfl,
        fun _ _ => rfl⟩
    | 1 =>
      exact ⟨wavyTensor 640 2560, congrArg some (if_neg (by decide)), rfl, rfl,
        fun _ _ => rfl⟩
    | 2 => exact ⟨wavyTensor 2560 640, congrArg some (if_pos rfl), rfl, rfl, fun _ _ => rfl⟩
  obtain ⟨hstopped, hkeys⟩ := hwritten.2 hserves
  refine ⟨hstopped, hkeys.trans (by decide), fun entry hentry => ?_⟩
  obtain ⟨alone, halone, hrecord, -⟩ := hwritten.1 entry hentry
  exact ⟨alone, halone, hrecord⟩

end Arcint.Fill
