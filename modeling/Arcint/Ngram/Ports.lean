import Arcint.Foundation.Checks
import Arcint.Foundation.Slice
import Arcint.Foundation.SortBy
import Arcint.Gguf.Reader
import Arcint.Ngram.Heads
import Arcint.Ngram.Staging

/-! # The table's ports

A graph takes the n-gram table as ports of rows, or one port as a window that every forward fills.
The pinned table is found by division, the staged one by position; both serve the rows that were
asked for.
-/

namespace Arcint.Ngram

open Foundation
open Arcint.Gguf (TensorInfo)
open Arcint.Text (Bytes bytes)

def kTablePortPrefix : String := "ngram_table."

def kChunkIdsPort : String := "ngram_chunk_ids"

def kLocalIdsPort : String := "ngram_local_ids"

def kConvMaskPort : String := "conv_mask"

def kIq4NlType : Nat := 20

def kIq4NlBlockElems : Nat := 32

def kIq4NlBlockBytes : Nat := 18

structure TablePort where
  name : String
  rows : Nat
  deriving DecidableEq, Repr

structure PortPlan where
  chunks : List TablePort
  rowBytes : Nat
  rowsPerChunk : Nat
  totalRows : Nat
  declaresIds : Bool
  declaresConvMask : Bool
  deriving DecidableEq, Repr

/-- A model input and its dimensions, -1 for a dynamic one. -/
abbrev PortDims := String × List Int64

/-- What the ports and the split are refused with. -/
inductive PortError where
  | notDecimal (name : String)
  /-- `std::stoi` throws `std::out_of_range`. -/
  | tooLarge
  | notTogether (declared : String)
  | chunkMissing (k : Int) (found : String)
  | notStaticRank2 (name : String) (dims : Nat) (rows rowBytes : Int)
  | rowBytesDiffer (name : String) (rowBytes first : Nat)
  | rowsDiffer (name : String) (rows first : Nat)
  | lastTooLong (name : String) (rows first : Nat)
  | rowOutside (id : Int) (totalRows : Nat)
  deriving DecidableEq, Repr

def PortError.message : PortError → String
  | .notDecimal name =>
      "ngram ports: '" ++ name ++ "' is not 'ngram_table.<K>' with K a decimal"
  | .tooLarge => "stoi"
  | .notTogether declared =>
      "ngram ports: '" ++ kChunkIdsPort ++ "' and '" ++ kLocalIdsPort ++
        "' must be declared together (found " ++ declared ++ " only)"
  | .chunkMissing k found =>
      "ngram ports: chunk " ++ toString k ++
        " missing -- the K's must be contiguous from 0 (found " ++ found ++ ")"
  | .notStaticRank2 name dims rows rowBytes =>
      "ngram ports: '" ++ name ++ "' must be a static rank-2 [rows, row_bytes] port (" ++
        toString dims ++ " dims, dims[0]=" ++ toString rows ++ " dims[1]=" ++
        toString rowBytes ++ ")"
  | .rowBytesDiffer name rowBytes first =>
      "ngram ports: '" ++ name ++ "' has " ++ toString rowBytes ++ " bytes a row, chunk 0 has " ++
        toString first
  | .rowsDiffer name rows first =>
      "ngram ports: '" ++ name ++ "' has " ++ toString rows ++ " rows, chunk 0 has " ++
        toString first ++
        " -- every chunk but the last must be as long as the first (the split divides by it)"
  | .lastTooLong name rows first =>
      "ngram ports: last chunk '" ++ name ++ "' has " ++ toString rows ++
        " rows, more than chunk 0's " ++ toString first
  | .rowOutside id totalRows =>
      "ngram row id " ++ toString id ++ " outside the table's " ++ toString totalRows ++ " rows"

/-! ## Recognising the ports -/

/-- The number after the prefix. -/
def chunkNumber (name : String) (tail : List Char) : Except PortError Int :=
  if tail = [] ∨ tail.all Char.isDigit = false then .error (.notDecimal name)
  else
    let value := tail.foldl (fun n c => n * 10 + (c.toNat - '0'.toNat)) 0
    if 2 ^ 31 ≤ value then .error .tooLarge else .ok value

/-- The `ngram_table.K` ports with their numbers, in the order of the inputs. -/
def findPorts : List PortDims → Except PortError (List (Int × PortDims))
  | [] => .ok []
  | input :: inputs =>
      if input.1 = kChunkIdsPort ∨ input.1 = kConvMaskPort ∨
          kTablePortPrefix.toList.isPrefixOf input.1.toList = false then
        findPorts inputs
      else do
        let k ← chunkNumber input.1 (input.1.toList.drop kTablePortPrefix.toList.length)
        let found ← findPorts inputs
        return (k, input) :: found

/-- The row width and the split's divisor are those of chunk 0. -/
def PortPlan.measure (plan : PortPlan) (k rows rowBytes : Nat) : PortPlan :=
  if k = 0 then { plan with rowBytes, rowsPerChunk := rows } else plan

/-- Chunk `k` of `count` against chunk 0. -/
def addChunk (count k : Nat) (name : String) (rows rowBytes : Nat) (plan : PortPlan) :
    Except PortError PortPlan :=
  if rowBytes ≠ plan.rowBytes then .error (.rowBytesDiffer name rowBytes plan.rowBytes)
  else if k ≠ 0 ∧ k + 1 < count ∧ rows ≠ plan.rowsPerChunk then
    .error (.rowsDiffer name rows plan.rowsPerChunk)
  else if plan.rowsPerChunk < rows then .error (.lastTooLong name rows plan.rowsPerChunk)
  else .ok { plan with
    chunks := plan.chunks ++ [⟨name, rows⟩]
    totalRows := (plan.totalRows + rows) % 2 ^ 64 }

/-- What chunk `k` of `count` adds to the plan. -/
def planChunk (count k : Nat) (plan : PortPlan) (found : Int × PortDims) :
    Except PortError PortPlan :=
  let name := found.2.1
  if found.1 ≠ signed 32 k then .error (.chunkMissing (signed 32 k) name)
  else
    match found.2.2 with
    | [dim0, dim1] =>
        if dim0 ≤ 0 ∨ dim1 ≤ 0 then .error (.notStaticRank2 name 2 dim0.toInt dim1.toInt)
        else
          let rows := dim0.toInt.toNat
          let rowBytes := dim1.toInt.toNat
          addChunk count k name rows rowBytes (plan.measure k rows rowBytes)
    | dims =>
        .error (.notStaticRank2 name dims.length ((dims[0]?).getD 0).toInt
          (if dims.length < 2 then 0 else ((dims[1]?).getD 0).toInt))

/-- The loop over the sorted chunks. -/
def planChunks (count : Nat) : Nat → List (Int × PortDims) → PortPlan → Except PortError PortPlan
  | _, [], plan => .ok plan
  | k, found :: rest, plan => do
      let plan ← planChunk count k plan found
      planChunks count (k + 1) rest plan

/-- `plan_ngram_ports`. -/
def planNgramPorts (inputs : List PortDims) : Except PortError PortPlan := do
  let found ← findPorts inputs
  let declaresIds := inputs.any fun input => input.1 = kChunkIdsPort
  let hasLocal := inputs.any fun input => input.1 = kLocalIdsPort
  if declaresIds ≠ hasLocal then
    .error (.notTogether (if declaresIds then kChunkIdsPort else kLocalIdsPort))
  else
    let declaresConvMask := inputs.any fun input => input.1 = kConvMaskPort
    planChunks found.length 0 (sortBy Prod.fst found)
      ⟨[], 0, 0, 0, declaresIds, declaresConvMask⟩

/-! ## The table behind the ports -/

def typeNames : List (Nat × String) :=
  [(0, "F32"), (1, "F16"), (2, "Q4_0"), (3, "Q4_1"), (6, "Q5_0"), (7, "Q5_1"), (8, "Q8_0"),
    (10, "Q2_K"), (11, "Q3_K"), (12, "Q4_K"), (13, "Q5_K"), (14, "Q6_K"), (15, "Q8_K"),
    (16, "IQ2_XXS"), (17, "IQ2_XS"), (18, "IQ3_XXS"), (20, "IQ4_NL"), (21, "IQ3_S"),
    (22, "IQ2_S"), (23, "IQ4_XS"), (24, "I8"), (25, "I16"), (26, "I32"), (27, "I64"),
    (28, "F64"), (30, "BF16")]

def typeName (type : Nat) : String :=
  (typeNames.lookup type).getD ("unknown(" ++ toString (signed 32 type) ++ ")")

/-- The checks the two modes share, in their own words: type, shape, row width, row count and byte
size. -/
def checkSource (t : TensorInfo) (tensorBytes rowBytes tableRows : Nat)
    (port takes counts : String) :
    Option Bytes :=
  if t.ggmlType ≠ kIq4NlType then
    some (t.name ++ bytes (" is " ++ typeName t.ggmlType ++ ", " ++ port ++ " IQ4_NL rows"))
  else
    match t.dims with
    | [width, rows] =>
        let blocks := width / kIq4NlBlockElems * kIq4NlBlockBytes % 2 ^ 64
        if width % kIq4NlBlockElems ≠ 0 ∨ blocks ≠ rowBytes then
          some (t.name ++ bytes (" rows are " ++ toString width ++ " elements = " ++
            toString blocks ++ " IQ4_NL bytes, " ++ takes ++ " " ++ toString rowBytes))
        else if rows ≠ tableRows then
          some (t.name ++ bytes (" has " ++ toString rows ++ " rows, " ++ counts ++ " " ++
            toString tableRows))
        else if tensorBytes ≠ rows * rowBytes % 2 ^ 64 then
          some (t.name ++ bytes (" is " ++ toString tensorBytes ++ " bytes, " ++ toString rows ++
            " rows x " ++ toString rowBytes ++ " would be " ++
            toString (rows * rowBytes % 2 ^ 64)))
        else none
    | dims =>
        some (t.name ++ bytes (" has " ++ toString dims.length ++
          " dims, expected 2 [width, rows]"))

/-- `check_table_source`: none where the source is accepted. -/
def checkTableSource (t : TensorInfo) (tensorBytes : Nat) (plan : PortPlan) : Option Bytes :=
  checkSource t tensorBytes plan.rowBytes plan.totalRows "the ports carry" "the ports take"
    "the ports partition"

/-- `check_staging_geometry`: the source as for the ports, and a window that is a part of it. -/
def checkStagingGeometry (t : TensorInfo) (tensorBytes : Nat) (g : StagingGeometry) :
    Option Bytes :=
  match checkSource t tensorBytes g.rowBytes g.tableRows "the staging port carries"
      "the staging port takes" "the staging geometry says" with
  | some refusal => some refusal
  | none =>
      if g.stagingRows = 0 then
        some (bytes ("the staging port holds 0 rows; it must cover at least one forward's " ++
          "T x heads"))
      else if g.tableRows < g.stagingRows then
        some (bytes ("the staging port holds " ++ toString g.stagingRows ++
          " rows, more than the table's " ++ toString g.tableRows))
      else none

/-! ## Serving rows -/

/-- The body of the loop of `split_by_partition`. -/
def splitRow (plan : PortPlan) (g : Int) : Except PortError (Int × Int) :=
  let per := signed 64 plan.rowsPerChunk
  if g < 0 ∨ signed 64 plan.totalRows ≤ g then .error (.rowOutside g plan.totalRows)
  else .ok (signed 32 (g.tdiv per), g.tmod per)

def splitByPartition (plan : PortPlan) (global : List Int) : Except PortError (List (Int × Int)) :=
  parseAll (splitRow plan) global

/-- The bound chunks: each is copied from where the one before it ended in the table. -/
def boundChunks (file : Nat → UInt8) (base rowBytes : Nat) : Nat → List TablePort → List Bytes
  | _, [] => []
  | off, chunk :: chunks =>
      (List.range (chunk.rows * rowBytes)).map (fun i => file (base + off + i)) ::
        boundChunks file base rowBytes ((off + chunk.rows * rowBytes) % 2 ^ 64) chunks

/-- The row the graph gathers from the bound table. -/
def gatherBound (file : Nat → UInt8) (base : Nat) (plan : PortPlan) (chunk row : Nat) :
    Option Bytes :=
  ((boundChunks file base plan.rowBytes 0 plan.chunks)[chunk]?).map fun tensor =>
    slice tensor (row * plan.rowBytes) plan.rowBytes

/-- `stage_from_file`: the window after the fill, and the slots or the error. -/
def stageFromFile (g : StagingGeometry) (file : Nat → UInt8) (base : Nat)
    (global answers : List Int)
    (window : Nat → Row g) : (Nat → Row g) × Except StagingError (List Int) :=
  match planStagingFill g global with
  | .error e => (window, .error e)
  | .ok (slots, rows) =>
      match preadStagingRows g file base 0 rows answers window with
      | (window, some e) => (window, .error e)
      | (window, none) => (window, .ok slots)

/-! ## What is accepted -/

section Accepted

variable {count k : Nat} {plan : PortPlan}

/-- The first `k` of `count` chunks: those before the last are as long as the first, and no chunk
is longer. -/
structure Partitioned (count k : Nat) (plan : PortPlan) : Prop where
  length : plan.chunks.length = k
  few : k ≤ 2 ^ 31
  full : ∀ (i : Nat) port, plan.chunks[i]? = some port → i + 1 < count →
    port.rows = plan.rowsPerChunk
  most : ∀ port ∈ plan.chunks, port.rows ≤ plan.rowsPerChunk
  total : plan.totalRows = (plan.chunks.map TablePort.rows).sum % 2 ^ 64
  divisor : 0 < k → 0 < plan.rowsPerChunk ∧ plan.rowsPerChunk < 2 ^ 63 ∧ 0 < plan.rowBytes

theorem addChunk_ok {name : String} {rows rowBytes : Nat} {next : PortPlan}
    (h : addChunk count k name rows rowBytes plan = .ok next) :
    rowBytes = plan.rowBytes ∧ (k ≠ 0 → k + 1 < count → rows = plan.rowsPerChunk) ∧
      rows ≤ plan.rowsPerChunk ∧
      next = { plan with
        chunks := plan.chunks ++ [⟨name, rows⟩]
        totalRows := (plan.totalRows + rows) % 2 ^ 64 } := by
  unfold addChunk at h
  split at h
  next => cases h
  next hbytes =>
    split at h
    next => cases h
    next hshort =>
      split at h
      next => cases h
      next hlong =>
        cases h
        refine ⟨not_not.mp hbytes, ?_, Nat.not_lt.mp hlong, rfl⟩
        intro hk hlast
        by_contra hrows
        exact hshort ⟨hk, hlast, hrows⟩

/-- An accepted chunk is static, numbered by its place, and no longer than chunk 0. -/
theorem planChunk_ok {found : Int × PortDims} {next : PortPlan}
    (h : planChunk count k plan found = .ok next) :
    ∃ rows rowBytes, found.1 = signed 32 k ∧ 0 < rows ∧ rows < 2 ^ 63 ∧ 0 < rowBytes ∧
      addChunk count k found.2.1 rows rowBytes (plan.measure k rows rowBytes) = .ok next := by
  unfold planChunk at h
  dsimp only at h
  split at h
  next => cases h
  next hnumber =>
    split at h
    next dim0 dim1 hdims =>
      split at h
      next => cases h
      next hpositive =>
        obtain ⟨hrows, hrowBytes⟩ := not_or.mp hpositive
        rw [Int64.not_le, Int64.lt_iff_toInt_lt] at hrows hrowBytes
        change 0 < dim0.toInt at hrows
        change 0 < dim1.toInt at hrowBytes
        have hword := dim0.toInt_lt
        exact ⟨dim0.toInt.toNat, dim1.toInt.toNat, not_not.mp hnumber, by omega, by omega,
          by omega, h⟩
    next => cases h

/-- A chunk is added to those that are in order. -/
theorem Partitioned.concat {per width rows : Nat} {name : String} (hk : Partitioned count k plan)
    (hfew : k < 2 ^ 31) (hper : plan.rowsPerChunk = per) (hwidth : plan.rowBytes = width)
    (hpos : 0 < per ∧ per < 2 ^ 63 ∧ 0 < width) (hfull : k + 1 < count → rows = per)
    (hmost : rows ≤ per) :
    Partitioned count (k + 1) { plan with
      chunks := plan.chunks ++ [⟨name, rows⟩]
      totalRows := (plan.totalRows + rows) % 2 ^ 64 } where
  length := by simp [hk.length]
  few := hfew
  full := by
    intro i port hport hlast
    rw [hper]
    rcases Nat.lt_or_ge i k with hbefore | hnew
    · rw [List.getElem?_append_left (by rw [hk.length]; exact hbefore)] at hport
      exact (hk.full i port hport hlast).trans hper
    · have hi := (List.getElem?_eq_some_iff.mp hport).1
      rw [List.length_append, hk.length, List.length_singleton] at hi
      obtain rfl : i = k := by omega
      rw [← hk.length, List.getElem?_concat_length] at hport
      cases hport
      exact hfull hlast
  most := by
    intro port hport
    rcases List.mem_append.mp hport with hold | hnew
    · exact hk.most port hold
    · cases List.mem_singleton.mp hnew
      exact hmost.trans hper.ge
  total := by
    rw [List.map_append, List.sum_append, hk.total, Nat.mod_add_mod]
    simp
  divisor _ := by rw [hper, hwidth]; exact hpos

theorem planChunk_partitioned {found : Int × PortDims} {next : PortPlan}
    (hk : Partitioned count k plan) (hnonneg : 0 ≤ found.1)
    (h : planChunk count k plan found = .ok next) : Partitioned count (k + 1) next := by
  obtain ⟨rows, rowBytes, hnumber, hrows, hword, hwidth, hadd⟩ := planChunk_ok h
  obtain ⟨hbytes, hfull, hmost, rfl⟩ := addChunk_ok hadd
  -- the number of a chunk is an int, and not a negative one
  have hfew : k < 2 ^ 31 := by
    have hle := hk.few
    rcases Nat.lt_or_ge k (2 ^ 31) with hlt | hge
    · exact hlt
    · obtain rfl : k = 2 ^ 31 := by omega
      rw [hnumber] at hnonneg
      exact absurd hnonneg (by decide +kernel)
  rcases Nat.eq_zero_or_pos k with rfl | hpos
  · have hnone : plan.chunks = [] := List.length_eq_zero_iff.mp hk.length
    have htotal : plan.totalRows = 0 := by simpa [hnone] using hk.total
    have hempty : Partitioned count 0 (plan.measure 0 rows rowBytes) :=
      ⟨by simp [PortPlan.measure, hnone], by decide, by simp [PortPlan.measure, hnone],
        by simp [PortPlan.measure, hnone], by simp [PortPlan.measure, hnone, htotal], by simp⟩
    exact hempty.concat hfew rfl rfl ⟨hrows, hword, hwidth⟩ (fun _ => rfl) (le_refl rows)
  · have hmeasure : plan.measure k rows rowBytes = plan := if_neg hpos.ne'
    rw [hmeasure] at hbytes hfull hmost ⊢
    exact hk.concat hfew rfl rfl (hk.divisor hpos) (hfull hpos.ne') hmost

theorem planChunks_partitioned {found : List (Int × PortDims)} {next : PortPlan}
    (hk : Partitioned count k plan) (hnonneg : ∀ f ∈ found, 0 ≤ f.1)
    (h : planChunks count k found plan = .ok next) :
    Partitioned count (k + found.length) next := by
  induction found generalizing k plan with
  | nil =>
      cases h
      exact hk
  | cons f found ih =>
      unfold planChunks at h
      cases hchunk : planChunk count k plan f with
      | error e =>
          rw [hchunk] at h
          cases h
      | ok middle =>
          rw [hchunk] at h
          have hstep := planChunk_partitioned hk (hnonneg f List.mem_cons_self) hchunk
          rw [List.length_cons, Nat.add_comm found.length, ← Nat.add_assoc]
          exact ih hstep (fun f hf => hnonneg f (List.mem_cons_of_mem _ hf)) h

theorem findPorts_nonneg {inputs : List PortDims} {found : List (Int × PortDims)}
    (h : findPorts inputs = .ok found) : ∀ f ∈ found, 0 ≤ f.1 := by
  induction inputs generalizing found with
  | nil =>
      cases h
      simp
  | cons input inputs ih =>
      unfold findPorts at h
      split at h
      next => exact ih h
      next =>
        cases hnumber : chunkNumber input.1
            (input.1.toList.drop kTablePortPrefix.toList.length) with
        | error e =>
            rw [hnumber] at h
            cases h
        | ok k =>
            rw [hnumber] at h
            cases hrest : findPorts inputs with
            | error e =>
                rw [hrest] at h
                cases h
            | ok rest =>
                rw [hrest] at h
                cases h
                intro f hf
                rcases List.mem_cons.mp hf with rfl | hlater
                · unfold chunkNumber at hnumber
                  split at hnumber
                  next => cases hnumber
                  next =>
                    dsimp only at hnumber
                    split at hnumber
                    next => cases hnumber
                    next =>
                      cases hnumber
                      exact Int.natCast_nonneg _
                · exact ih hrest f hlater

/-- The ports of an accepted plan are a partition of the table. -/
theorem planNgramPorts_partitioned {inputs : List PortDims}
    (h : planNgramPorts inputs = .ok plan) :
    Partitioned plan.chunks.length plan.chunks.length plan := by
  unfold planNgramPorts at h
  cases hfound : findPorts inputs with
  | error e =>
      rw [hfound] at h
      cases h
  | ok found =>
      rw [hfound] at h
      change (if _ then _ else _) = _ at h
      split at h
      next => cases h
      next =>
        have hempty : Partitioned found.length 0
            ⟨[], 0, 0, 0, inputs.any fun input => input.1 = kChunkIdsPort,
              inputs.any fun input => input.1 = kConvMaskPort⟩ :=
          ⟨rfl, by decide, by simp, by simp, rfl, by simp⟩
        have hnonneg : ∀ f ∈ sortBy Prod.fst found, 0 ≤ f.1 := fun f hf =>
          findPorts_nonneg hfound f ((sortBy_perm _ _).mem_iff.mp hf)
        have hall := planChunks_partitioned hempty hnonneg h
        rw [(sortBy_perm Prod.fst found).length_eq, Nat.zero_add] at hall
        rw [hall.length]
        exact hall

/-! ## Where a row is -/

/-- The chunks before one of the partition are full. -/
theorem Partitioned.sum_take (hk : Partitioned count count plan) {i : Nat} (hi : i < count) :
    ((plan.chunks.take i).map TablePort.rows).sum = i * plan.rowsPerChunk := by
  induction i with
  | zero => simp
  | succ i ih =>
      have hlt : i < plan.chunks.length := by
        rw [hk.length]
        omega
      have hfull := hk.full i _ (List.getElem?_eq_getElem hlt) hi
      rw [List.take_succ_eq_append_getElem hlt, List.map_append, List.sum_append,
        ih (Nat.lt_of_succ_lt hi), Nat.succ_mul]
      simp [hfull]

/-- The quotient of a row names a chunk, and the remainder a row of it. -/
theorem Partitioned.row_mem (hk : Partitioned count count plan) {id : Nat}
    (hid : id < plan.totalRows) :
    ∃ port, plan.chunks[id / plan.rowsPerChunk]? = some port ∧
      id % plan.rowsPerChunk < port.rows := by
  have hsum : id < (plan.chunks.map TablePort.rows).sum :=
    hid.trans_le (hk.total.trans_le (Nat.mod_le _ _))
  have hcount : 0 < count := by
    rcases Nat.eq_zero_or_pos count with hzero | hpos
    · have hnone : plan.chunks = [] := List.length_eq_zero_iff.mp (hk.length.trans hzero)
      simp [hnone] at hsum
    · exact hpos
  obtain ⟨hper, -, -⟩ := hk.divisor hcount
  obtain ⟨last, rfl⟩ : ∃ last, count = last + 1 := ⟨count - 1, by omega⟩
  have hlast : last < plan.chunks.length := by
    rw [hk.length]
    exact Nat.lt_succ_self last
  have hsplit : (plan.chunks.map TablePort.rows).sum =
      last * plan.rowsPerChunk + plan.chunks[last].rows := by
    have hall : plan.chunks = plan.chunks.take last ++ [plan.chunks[last]] := by
      rw [← List.take_succ_eq_append_getElem hlast, List.take_of_length_le hk.length.le]
    conv_lhs => rw [hall]
    rw [List.map_append, List.sum_append, hk.sum_take (Nat.lt_succ_self last)]
    simp
  have hmost := hk.most _ (List.getElem_mem hlast)
  have hdivide := Nat.div_add_mod' id plan.rowsPerChunk
  have hrest := Nat.mod_lt id hper
  have hquotient : id / plan.rowsPerChunk < last + 1 := by
    rw [Nat.div_lt_iff_lt_mul hper, Nat.succ_mul]
    omega
  rcases Nat.lt_succ_iff_lt_or_eq.mp hquotient with hbefore | hend
  · -- a chunk before the last is full
    have hlt : id / plan.rowsPerChunk < plan.chunks.length := hbefore.trans hlast
    refine ⟨_, List.getElem?_eq_getElem hlt, ?_⟩
    rw [hk.full _ _ (List.getElem?_eq_getElem hlt) (Nat.succ_lt_succ hbefore)]
    exact hrest
  · rw [hend] at hdivide ⊢
    exact ⟨_, List.getElem?_eq_getElem hlast, by omega⟩

/-! ## What the bound table holds -/

section Bound

variable {file : Nat → UInt8} {base rowBytes : Nat}

theorem slice_map_range {f : Nat → UInt8} {n start m : Nat} (h : start + m ≤ n) :
    slice ((List.range n).map f) start m = (List.range m).map fun j => f (start + j) := by
  apply List.ext_getElem?
  intro i
  rw [getElem?_slice]
  split
  next hi =>
    have hlt : start + i < n := by omega
    simp [hi, hlt]
  next hi => simp [hi]

/-- A bound chunk begins in the table where the chunks before it end. -/
theorem boundChunks_getElem? {off : Nat} (hoff : off < 2 ^ 64) {chunks : List TablePort} {c : Nat}
    {port : TablePort} (hport : chunks[c]? = some port) :
    (boundChunks file base rowBytes off chunks)[c]? =
      some ((List.range (port.rows * rowBytes)).map fun i => file (base +
        (off + ((chunks.take c).map TablePort.rows).sum * rowBytes) % 2 ^ 64 + i)) := by
  induction chunks generalizing off c with
  | nil => cases hport
  | cons chunk chunks ih =>
      cases c with
      | zero =>
          cases hport
          have hmod : off % 18446744073709551616 = off := Nat.mod_eq_of_lt hoff
          simp [boundChunks, hmod]
      | succ c =>
          have hnext : (off + chunk.rows * rowBytes) % 2 ^ 64 < 2 ^ 64 := Nat.mod_lt _ (by decide)
          have hrest := ih hnext hport
          have hsum : ((off + chunk.rows * rowBytes) % 2 ^ 64 +
              ((chunks.take c).map TablePort.rows).sum * rowBytes) % 2 ^ 64 =
              (off + (((chunk :: chunks).take (c + 1)).map TablePort.rows).sum * rowBytes) %
                2 ^ 64 := by
            rw [Nat.mod_add_mod, List.take_succ_cons, List.map_cons, List.sum_cons, Nat.add_mul,
              Nat.add_assoc]
          rw [hsum] at hrest
          exact hrest

/-- Gathering a row at its quotient and remainder is reading it in the table. -/
theorem gatherBound_eq (hk : Partitioned count count plan) {id : Nat} (hid : id < plan.totalRows)
    (hsize : plan.totalRows * plan.rowBytes < 2 ^ 64) :
    gatherBound file base plan (id / plan.rowsPerChunk) (id % plan.rowsPerChunk) =
      some ((List.range plan.rowBytes).map fun j => file (base + id * plan.rowBytes + j)) := by
  obtain ⟨port, hport, hrow⟩ := hk.row_mem hid
  have hchunk : id / plan.rowsPerChunk < count := by
    rw [← hk.length]
    exact (List.getElem?_eq_some_iff.mp hport).1
  have hsplit : id / plan.rowsPerChunk * plan.rowsPerChunk * plan.rowBytes +
      id % plan.rowsPerChunk * plan.rowBytes = id * plan.rowBytes := by
    rw [← Nat.add_mul, Nat.div_add_mod']
  have hle : id * plan.rowBytes ≤ plan.totalRows * plan.rowBytes :=
    Nat.mul_le_mul_right _ hid.le
  have hinside : id % plan.rowsPerChunk * plan.rowBytes + plan.rowBytes ≤
      port.rows * plan.rowBytes := by
    rw [← Nat.succ_mul]
    exact Nat.mul_le_mul_right _ hrow
  unfold gatherBound
  rw [boundChunks_getElem? (by decide) hport, hk.sum_take hchunk, Option.map_some,
    slice_map_range hinside, Nat.zero_add, Nat.mod_eq_of_lt (by omega)]
  simp only [← hsplit, Nat.add_assoc]

end Bound

/-- The id is not of a row of the table. -/
def outside (rows : Nat) (id : Int) : Bool := id < 0 ∨ (rows : Int) ≤ id

/-- A row of the table is split exactly; any other id is refused. -/
theorem splitRow_eq (hk : Partitioned count count plan) (hrows : plan.totalRows < 2 ^ 63)
    (id : Int) :
    splitRow plan id =
      if outside plan.totalRows id then .error (.rowOutside id plan.totalRows)
      else .ok (((id.toNat / plan.rowsPerChunk : Nat) : Int),
        ((id.toNat % plan.rowsPerChunk : Nat) : Int)) := by
  have htotal : signed 64 plan.totalRows = plan.totalRows :=
    signed_eq_self (Int.natCast_nonneg _) (by exact_mod_cast hrows)
  unfold splitRow outside
  dsimp only
  rw [htotal]
  simp only [decide_eq_true_eq]
  split
  next => rfl
  next hinside =>
    obtain ⟨row, rfl⟩ : ∃ row : Nat, id = row := ⟨id.toNat, by omega⟩
    have hrow : row < plan.totalRows := by omega
    obtain ⟨port, hport, -⟩ := hk.row_mem hrow
    have hchunk := (List.getElem?_eq_some_iff.mp hport).1
    rw [hk.length] at hchunk
    obtain ⟨-, hword, -⟩ := hk.divisor (Nat.zero_lt_of_lt hchunk)
    have hfew := hk.few
    have hper : signed 64 plan.rowsPerChunk = plan.rowsPerChunk :=
      signed_eq_self (Int.natCast_nonneg _) (by exact_mod_cast hword)
    have hquotient : signed 32 ((row : Int).tdiv plan.rowsPerChunk) =
        ((row / plan.rowsPerChunk : Nat) : Int) := by
      rw [← Int.ofNat_tdiv]
      exact signed_eq_self (Int.natCast_nonneg _) (by
        have : row / plan.rowsPerChunk < 2 ^ 31 := by omega
        exact_mod_cast this)
    rw [hper, hquotient, ← Int.ofNat_tmod, Int.toNat_natCast]

/-- A list of ids is split, or refused for the first that is outside the table. -/
theorem splitByPartition_eq (hk : Partitioned count count plan) (hrows : plan.totalRows < 2 ^ 63)
    (ids : List Int) :
    splitByPartition plan ids =
      match ids.find? (outside plan.totalRows) with
      | some id => .error (.rowOutside id plan.totalRows)
      | none => .ok (ids.map fun id => (((id.toNat / plan.rowsPerChunk : Nat) : Int),
          ((id.toNat % plan.rowsPerChunk : Nat) : Int))) := by
  rw [splitByPartition, parseAll_eq_find? (splitRow_eq hk hrows)]
  cases ids.find? (outside plan.totalRows) <;> rfl

end Accepted

/-! ## What is staged -/

section Staged

variable {g : StagingGeometry} {file : Nat → UInt8}

/-- Calls that each move something complete a row within as many as it has bytes. -/
theorem preadRow_completes (file : Nat → UInt8) (off : Nat) {answers : List Int} {done : Nat}
    (hpositive : ∀ n ∈ answers, 0 < n) (hcount : g.rowBytes - done ≤ answers.length)
    (slot : Row g) :
    ∃ slot' rest, preadRow g file off answers done slot = (slot', .ok rest) ∧ rest <:+ answers ∧
      answers.length - (g.rowBytes - done) ≤ rest.length := by
  induction answers generalizing done slot with
  | nil =>
      have hdone : ¬ done < g.rowBytes := by
        simp only [List.length_nil, Nat.le_zero_eq] at hcount
        omega
      exact ⟨slot, [], by simp [preadRow, hdone], List.suffix_refl _, by simp⟩
  | cons n answers ih =>
      unfold preadRow
      split
      next hdone =>
        have hn := hpositive n List.mem_cons_self
        rw [if_neg (by omega)]
        obtain ⟨slot', rest, hread, hsuffix, hlength⟩ := ih
          (fun m hm => hpositive m (List.mem_cons_of_mem _ hm))
          (show g.rowBytes - min (done + n.toNat) g.rowBytes ≤ answers.length by
            rw [List.length_cons] at hcount
            omega)
          (fun j => if done ≤ j ∧ j < min (done + n.toNat) g.rowBytes then file (off + j)
            else slot j)
        refine ⟨slot', rest, hread, hsuffix.trans (List.suffix_cons _ _), ?_⟩
        rw [List.length_cons]
        omega
      next hdone => exact ⟨slot, n :: answers, rfl, List.suffix_refl _, by omega⟩

theorem preadStagingRows_completes (file : Nat → UInt8) (base i : Nat) {rows : List Nat}
    {answers : List Int}
    (hpositive : ∀ n ∈ answers, 0 < n) (hcount : rows.length * g.rowBytes ≤ answers.length)
    (window : Nat → Row g) :
    (preadStagingRows g file base i rows answers window).2 = none := by
  induction rows generalizing i answers window with
  | nil => rfl
  | cons row rows ih =>
      rw [List.length_cons, Nat.succ_mul] at hcount
      obtain ⟨slot, rest, hread, hsuffix, hlength⟩ := preadRow_completes file
        (base + row * g.rowBytes) hpositive (show g.rowBytes - 0 ≤ answers.length by omega)
        (window i)
      unfold preadStagingRows
      simp only [hread]
      exact ih (i + 1) (fun n hn => hpositive n (hsuffix.subset hn)) (by omega) _

theorem planRows_eq (i : Nat) (ids : List Int) :
    planRows g i ids =
      match ids.find? (outside g.tableRows) with
      | some id => .error (.rowOutside id g.tableRows)
      | none => .ok ((List.range' i ids.length).map Int.ofNat, ids.map Int.toNat) := by
  induction ids generalizing i with
  | nil => rfl
  | cons id ids ih =>
      unfold planRows
      rw [ih (i + 1), List.find?_cons]
      by_cases hid : id < 0 ∨ (g.tableRows : Int) ≤ id
      · simp [outside, hid]
      · rw [if_neg hid, show outside g.tableRows id = false by simpa [outside] using hid]
        cases hrest : ids.find? (outside g.tableRows) with
        | some other => rfl
        | none => rfl

/-- A forward that fits into the window, with calls that move something, is staged slot by slot, or
refused for the first id outside the table. -/
theorem stageFromFile_eq (file : Nat → UInt8) (base : Nat) {ids answers : List Int}
    (hroom : ids.length ≤ g.stagingRows) (hpositive : ∀ n ∈ answers, 0 < n)
    (hcount : ids.length * g.rowBytes ≤ answers.length) (window : Nat → Row g) :
    match ids.find? (outside g.tableRows) with
    | some id => (stageFromFile g file base ids answers window).2 =
        .error (.rowOutside id g.tableRows)
    | none => ∃ window', stageFromFile g file base ids answers window =
        (window', .ok ((List.range ids.length).map Int.ofNat)) ∧
      ∀ (i : Nat) id, ids[i]? = some id → window' i = tableRow g file base id.toNat := by
  have hplan : planStagingFill g ids = planRows g 0 ids := if_neg (Nat.not_lt.mpr hroom)
  unfold stageFromFile
  rw [hplan, planRows_eq]
  cases hfind : ids.find? (outside g.tableRows) with
  | some id => rfl
  | none =>
      have hcompletes := preadStagingRows_completes file base 0 hpositive
        (show (ids.map Int.toNat).length * g.rowBytes ≤ answers.length by rwa [List.length_map])
        window
      dsimp only
      split
      next window' e hread =>
        rw [hread] at hcompletes
        cases hcompletes
      next window' hread =>
        refine ⟨window', by rw [List.range_eq_range'], ?_⟩
        intro i id hid
        obtain ⟨hlt, rfl⟩ := List.getElem?_eq_some_iff.mp hid
        have hrow := (preadStagingRows_ok hread).1 i (by rwa [List.length_map])
        rw [Nat.zero_add, List.getElem_map] at hrow
        exact hrow

end Staged

/-! ## The two modes -/

theorem checkSource_accepts {t : TensorInfo} {tensorBytes rowBytes tableRows : Nat}
    {port takes counts : String}
    (h : checkSource t tensorBytes rowBytes tableRows port takes counts = none) :
    ∃ width, t.dims = [width, tableRows] ∧
      rowBytes = width / kIq4NlBlockElems * kIq4NlBlockBytes % 2 ^ 64 := by
  unfold checkSource at h
  split at h
  next => cases h
  next =>
    split at h
    next width rows hdims =>
      dsimp only at h
      split at h
      next => cases h
      next hwidth =>
        split at h
        next => cases h
        next hrows =>
          obtain ⟨-, hbytes⟩ := not_or.mp hwidth
          rw [not_not] at hbytes hrows
          exact ⟨width, by rw [hdims, hrows], hbytes.symm⟩
    next => cases h

/-- The two checks accept one source with one geometry. -/
theorem accepted_geometry {t : TensorInfo} {tensorBytes : Nat} {plan : PortPlan}
    {g : StagingGeometry} (hpinned : checkTableSource t tensorBytes plan = none)
    (hstaged : checkStagingGeometry t tensorBytes g = none) :
    g.tableRows = plan.totalRows ∧ g.rowBytes = plan.rowBytes := by
  obtain ⟨width, hdims, hbytes⟩ := checkSource_accepts hpinned
  unfold checkStagingGeometry at hstaged
  split at hstaged
  next => cases hstaged
  next hsource =>
    obtain ⟨width', hdims', hbytes'⟩ := checkSource_accepts hsource
    rw [hdims] at hdims'
    obtain ⟨rfl, hrows⟩ : width = width' ∧ plan.totalRows = g.tableRows := by simpa using hdims'
    exact ⟨hrows.symm, hbytes'.trans hbytes.symm⟩

theorem ofFn_tableRow (g : StagingGeometry) (file : Nat → UInt8) (base row : Nat) :
    List.ofFn (tableRow g file base row) =
      (List.range g.rowBytes).map fun j => file (base + row * g.rowBytes + j) := by
  apply List.ext_getElem?
  intro j
  by_cases hj : j < g.rowBytes <;> simp [hj, tableRow]

/-- Ports that are accepted and a window on the same table serve the same rows: an id is refused by
both or by none, the split names a chunk and a row of it, and what the graph gathers there is what
the fill puts into the id's slot. -/
theorem staged_serves_pinned {inputs : List PortDims} {plan : PortPlan} {t : TensorInfo}
    {tensorBytes base : Nat} {g : StagingGeometry} {file : Nat → UInt8} {ids answers : List Int}
    (hplan : planNgramPorts inputs = .ok plan)
    (hpinned : checkTableSource t tensorBytes plan = none)
    (hstaged : checkStagingGeometry t tensorBytes g = none)
    (hfile : base + plan.totalRows * plan.rowBytes < 2 ^ 63)
    (hroom : ids.length ≤ g.stagingRows) (hpositive : ∀ n ∈ answers, 0 < n)
    (hcount : ids.length * g.rowBytes ≤ answers.length) (window : Nat → Row g) :
    (∀ id, splitByPartition plan ids = .error (.rowOutside id plan.totalRows) ↔
      (stageFromFile g file base ids answers window).2 = .error (.rowOutside id g.tableRows)) ∧
    ∀ pairs, splitByPartition plan ids = .ok pairs →
      ∃ window' slots, stageFromFile g file base ids answers window = (window', .ok slots) ∧
        pairs.length = ids.length ∧ slots.length = ids.length ∧
        ∀ (i : Nat) id, ids[i]? = some id → ∃ (chunk row slot : Nat) (port : TablePort),
          pairs[i]? = some ((chunk : Int), (row : Int)) ∧ slots[i]? = some (slot : Int) ∧
          plan.chunks[chunk]? = some port ∧ row < port.rows ∧
          (chunk * plan.rowsPerChunk + row : Nat) = id ∧
          gatherBound file base plan chunk row = some (List.ofFn (window' slot)) := by
  obtain ⟨htable, hwidth⟩ := accepted_geometry hpinned hstaged
  have hk := planNgramPorts_partitioned hplan
  have hrows : plan.totalRows < 2 ^ 63 := by
    rcases Nat.eq_zero_or_pos plan.chunks.length with hnone | hpos
    · have hzero : plan.totalRows = 0 := by
        rw [hk.total, List.length_eq_zero_iff.mp hnone]
        rfl
      omega
    · obtain ⟨-, -, hbytes⟩ := hk.divisor hpos
      exact (Nat.le_mul_of_pos_right _ hbytes).trans_lt (by omega)
  have hsplit := splitByPartition_eq hk hrows ids
  have hstage := stageFromFile_eq file base hroom hpositive hcount window
  rw [htable] at hstage
  rw [hsplit, htable]
  cases hfind : ids.find? (outside plan.totalRows) with
  | some first =>
      rw [hfind] at hstage
      dsimp only at hstage ⊢
      rw [hstage]
      exact ⟨fun id => by simp, fun pairs hpairs => by cases hpairs⟩
  | none =>
      rw [hfind] at hstage
      obtain ⟨window', hstaged', hfilled⟩ := hstage
      dsimp only
      rw [hstaged']
      refine ⟨fun id => by simp, ?_⟩
      rintro pairs hpairs
      cases hpairs
      refine ⟨window', _, rfl, by simp, by simp, ?_⟩
      intro i id hid
      have hin : ¬ (id < 0 ∨ (plan.totalRows : Int) ≤ id) := by
        simpa [outside] using List.find?_eq_none.mp hfind id (List.mem_of_getElem? hid)
      obtain ⟨row, rfl⟩ : ∃ row : Nat, id = row := ⟨id.toNat, by omega⟩
      have hrow : row < plan.totalRows := by omega
      obtain ⟨port, hport, hlocal⟩ := hk.row_mem hrow
      have hlt := (List.getElem?_eq_some_iff.mp hid).1
      refine ⟨row / plan.rowsPerChunk, row % plan.rowsPerChunk, i, port, ?_, ?_, hport, hlocal,
        ?_, ?_⟩
      · simp [hid]
      · simp [hlt]
      · rw [Nat.div_add_mod']
      · rw [gatherBound_eq hk hrow (by omega), hfilled i row hid, Int.toNat_natCast,
          ofFn_tableRow, hwidth]

/-- A table of three rows in two chunks. -/
def twoPorts : List PortDims := [("ngram_table.1", [1, 18]), ("ngram_table.0", [2, 18])]

def twoPortsPlan : PortPlan :=
  ⟨[⟨"ngram_table.0", 2⟩, ⟨"ngram_table.1", 1⟩], 18, 2, 3, false, false⟩

/-- Rows 0 and 2, read a byte at a time. -/
theorem staged_serves_pinned_twoPorts :
    ∃ window' slots, stageFromFile ⟨2, 18, 3⟩ UInt8.ofNat 64 [0, 2] (List.replicate 36 1)
      (fun _ _ => 0) = (window', .ok slots) := by
  obtain ⟨window', slots, hstaged, -⟩ := (@staged_serves_pinned twoPorts twoPortsPlan
    ⟨bytes "per_layer_token_embd.weight", [32, 3], 20, 0, 96⟩ 54 64 ⟨2, 18, 3⟩ UInt8.ofNat [0, 2]
    (List.replicate 36 1) (by decide +kernel) (by decide +kernel) (by decide +kernel)
    (by decide) (by decide) (by decide) (by decide) (fun _ _ => 0)).2 [(0, 0), (1, 0)] (by decide)
  exact ⟨window', slots, hstaged⟩

end Arcint.Ngram
