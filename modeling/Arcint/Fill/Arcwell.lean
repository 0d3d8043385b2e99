import Arcint.Fill.Scheduler
import Arcint.Foundation.Checks
import Arcint.Foundation.Slice

/-! # The arcwell transport

The production transport of the fill. A batch becomes three block reads per
expert, one for each weight tensor of the expert's file, submitted in groups the
driver accepts; a batch is collected when all its groups are. What the kernel
answers is a parameter.
-/

namespace Arcint.Fill

open Foundation

/-- The name of an expert's file in the store, `expert_%04u.bin`. -/
def expertFileName (ordinal : Nat) : String :=
  "expert_" ++ String.ofList ((Nat.toDigits 10 ordinal).leftpad 4 '0') ++ ".bin"

/-- Distinct ordinals have distinct files. -/
theorem expertFileName_injective {a b : Nat} (h : expertFileName a = expertFileName b) :
    a = b := by
  have hdigits : (Nat.toDigits 10 a).leftpad 4 '0' = (Nat.toDigits 10 b).leftpad 4 '0' := by
    have hchars := congrArg String.toList h
    simp only [expertFileName, String.toList_append, String.toList_ofList] at hchars
    exact List.append_cancel_left (List.append_cancel_right hchars)
  have hvalue : ∀ n : Nat, Nat.ofDigitChars 10 ((Nat.toDigits 10 n).leftpad 4 '0') 0 = n := by
    intro n
    simp only [List.leftpad, Nat.ofDigitChars_append, Nat.ofDigitChars_replicate_zero]
    exact Nat.ofDigitChars_ten_toDigits
  calc
    a = Nat.ofDigitChars 10 ((Nat.toDigits 10 a).leftpad 4 '0') 0 := (hvalue a).symm
    _ = Nat.ofDigitChars 10 ((Nat.toDigits 10 b).leftpad 4 '0') 0 := by rw [hdigits]
    _ = b := hvalue b

/-- The registered pools of one layer. -/
structure PinnedLayerGeometry where
  awHandle : Fin 3 → Nat
  tensorBytes : Fin 3 → Nat
  capacity : Nat
  denseIndex : Nat

namespace PinnedLayerGeometry

/-- The byte count of one expert's record. -/
def record (geometry : PinnedLayerGeometry) : Nat :=
  geometry.tensorBytes 0 + geometry.tensorBytes 1 + geometry.tensorBytes 2

end PinnedLayerGeometry

/-- The tensors of an expert can be numbered. -/
theorem neZero_three : NeZero 3 := ⟨by decide⟩

/-- One `aw_ioc_read_blocks`. -/
structure ReadBlocks where
  bufferHandle : Nat
  startBlock : Nat
  blockCount : Nat
  destOffset : Nat
  deriving DecidableEq, Repr

/-- What `FS_IOC_FIEMAP` and `fstat` report of a file. -/
structure FileMap where
  size : Nat
  mappedExtents : Nat
  physical : Nat
  flags : Nat
  deriving DecidableEq, Repr

inductive SubmitAnswer where
  | failed (errno : String)
  | answered (err : Int) (submitted batchId : Nat)
  deriving DecidableEq, Repr

inductive WaitAnswer where
  | failed (errno : String)
  | answered (completed : Nat) (err : Int)
  deriving DecidableEq, Repr

/-- The kernel's answers. An ioctl may answer differently each time it is made,
so its answer also depends on the number of ioctls before it. -/
structure Device where
  fiemap : String → Except String FileMap
  submitBatch : Nat → List ReadBlocks → SubmitAnswer
  batchWait : Nat → Nat → WaitAnswer

/-- `UNKNOWN`, `DELALLOC`, `ENCODED`, `DATA_INLINE` and `UNWRITTEN`. -/
def extentNotPlain : Nat := 0x2 ||| 0x4 ||| 0x8 ||| 0x200 ||| 0x800

/-- `pinned_file_lba`: the first block of a file that is one plain extent, and
its length. -/
def pinnedFileLba (device : Device) (partitionStart : Nat) (path : String) :
    Except String (Nat × Nat) := do
  let fm ← device.fiemap path
  ensure (fm.mappedExtents = 1)
    ("expert file is not one plain extent: " ++ path ++ " extents=" ++ toString fm.mappedExtents)
  ensure (fm.flags &&& extentNotPlain = 0)
    ("expert file extent not plain: " ++ path ++ " flags=" ++ toString fm.flags)
  return (fm.physical / 512 + partitionStart, fm.size)

/-- A submitted batch: the driver's ids, the reads expected, and the experts. -/
structure PendingReads where
  arcwellIds : List Nat
  expected : Nat
  logical : Nat
  deriving DecidableEq, Repr

/-- The transport's fields; `ioctls` counts the batch ioctls made so far. -/
structure Arcwell where
  ok : Bool
  reason : String
  storeDir : String
  partStart : Nat
  layers : List PinnedLayerGeometry
  nextId : Nat
  inflight : List (Nat × PendingReads)
  lbaCache : List (Nat × Nat × Nat)
  ioctls : Nat

namespace Arcwell

def geometryFor (arcwell : Arcwell) (denseIndex : Nat) : Option PinnedLayerGeometry :=
  arcwell.layers.find? fun layer => layer.denseIndex = denseIndex

/-- Block and length of the file of a layer's slot, translated once per file. -/
def fileLba (device : Device) (arcwell : Arcwell) (denseIndex slot : Nat) :
    Arcwell × Except String (Nat × Nat) :=
  match arcwell.geometryFor denseIndex with
  | none => (arcwell, .error "pinned NVMe fill: layer geometry missing")
  | some geometry =>
      let ordinal := geometry.capacity * denseIndex + slot
      match arcwell.lbaCache.lookup ordinal with
      | some found => (arcwell, .ok found)
      | none =>
          match pinnedFileLba device arcwell.partStart
              (arcwell.storeDir ++ "/" ++ expertFileName ordinal) with
          | .error reason => (arcwell, .error reason)
          | .ok found =>
              ({ arcwell with lbaCache := arcwell.lbaCache ++ [(ordinal, found)] }, .ok found)

/-- The read of tensor `t` of the file at block `lba`, into a slot of its pool. -/
def tensorRead (geometry : PinnedLayerGeometry) (layer lba slot : Nat) (t : Fin 3) :
    Except String ReadBlocks := do
  let tb := geometry.tensorBytes t
  ensure (tb ≠ 0 ∧ tb % 512 = 0 ∧ tb % 4096 = 0)
    ("pinned NVMe fill: tensor bytes not page/block aligned for layer " ++ toString layer)
  return {
    bufferHandle := geometry.awHandle t
    startBlock := lba + t * (tb / 512)
    blockCount := tb / 512
    destOffset := slot * tb }

/-- The three reads of one expert. -/
def expertReads (geometry : PinnedLayerGeometry) (layer lba len slot : Nat) :
    Except String (List ReadBlocks) := do
  ensure (len = geometry.record)
    ("pinned NVMe fill: store file length " ++ toString len ++
      " != the layer's concatenated record " ++ toString geometry.record)
  parseAll (tensorRead geometry layer lba slot) (List.finRange 3)

/-- The reads of a batch, expert by expert. -/
def batchReads (device : Device) (geometry : PinnedLayerGeometry) (layer : Nat) :
    List FillRequest → Arcwell → Arcwell × Except String (List ReadBlocks)
  | [], arcwell => (arcwell, .ok [])
  | request :: rest, arcwell =>
      match arcwell.fileLba device layer request.slot with
      | (arcwell, .error reason) => (arcwell, .error reason)
      | (arcwell, .ok (lba, len)) =>
          match expertReads geometry layer lba len request.slot with
          | .error reason => (arcwell, .error reason)
          | .ok reads =>
              match batchReads device geometry layer rest arcwell with
              | (arcwell, .error reason) => (arcwell, .error reason)
              | (arcwell, .ok more) => (arcwell, .ok (reads ++ more))

/-- The reads of one submit ioctl: 85 experts of three reads. -/
def perSubmit : Nat := 85 * 3

def groups (reads : List ReadBlocks) : List (List ReadBlocks) :=
  (List.range ((reads.length + perSubmit - 1) / perSubmit)).map fun i =>
    slice reads (i * perSubmit) perSubmit

/-- `drain`: wait for what was submitted, whatever comes of it. -/
def drain (arcwell : Arcwell) (pending : PendingReads) : Arcwell :=
  { arcwell with ioctls := arcwell.ioctls + pending.arcwellIds.length }

def submitGroups (device : Device) :
    List (List ReadBlocks) → PendingReads → Arcwell → Arcwell × Except String PendingReads
  | [], pending, arcwell => (arcwell, .ok pending)
  | group :: rest, pending, arcwell =>
      let answer := device.submitBatch arcwell.ioctls group
      let arcwell := { arcwell with ioctls := arcwell.ioctls + 1 }
      match answer with
      | .failed errno =>
          (arcwell.drain pending, .error ("AW_IOC_SUBMIT_BATCH failed: " ++ errno))
      | .answered err submitted batchId =>
          if err ≠ 0 ∨ submitted ≠ group.length then
            (arcwell.drain pending, .error ("AW_IOC_SUBMIT_BATCH refused the batch: submitted=" ++
              toString submitted ++ " of " ++ toString group.length ++ ", err=" ++ toString err))
          else
            submitGroups device rest { pending with
              arcwellIds := pending.arcwellIds ++ [batchId]
              expected := pending.expected + group.length } arcwell

def begin (arcwell : Arcwell) : Except String Unit :=
  if arcwell.ok = false then .error arcwell.reason
  else if arcwell.layers.isEmpty then .error "pinned NVMe transport has no registered layers"
  else .ok ()

def submit (device : Device) (arcwell : Arcwell) (batch : FillBatch) :
    Except String Nat × Arcwell :=
  if arcwell.ok = false then (.error arcwell.reason, arcwell)
  else if batch.requests.isEmpty then (.error "pinned NVMe fill: empty batch", arcwell)
  else
    match arcwell.geometryFor batch.layer with
    | none =>
        (.error ("pinned NVMe fill: no registered geometry for layer " ++ toString batch.layer),
          arcwell)
    | some geometry =>
        match batchReads device geometry batch.layer batch.requests arcwell with
        | (arcwell, .error reason) => (.error reason, arcwell)
        | (arcwell, .ok reads) =>
            match submitGroups device (groups reads) ⟨[], 0, batch.requests.length⟩ arcwell with
            | (arcwell, .error reason) => (.error reason, arcwell)
            | (arcwell, .ok pending) =>
                (.ok arcwell.nextId, { arcwell with
                  nextId := arcwell.nextId + 1
                  inflight := if (arcwell.inflight.lookup arcwell.nextId).isSome then
                      arcwell.inflight
                    else arcwell.inflight ++ [(arcwell.nextId, pending)] })

/-- Wait for the groups of a batch: the reads completed and the first error. -/
def waitGroups (device : Device) :
    List Nat → Nat → Int → Arcwell → Arcwell × Except String (Nat × Int)
  | [], completed, err, arcwell => (arcwell, .ok (completed, err))
  | id :: rest, completed, err, arcwell =>
      let answer := device.batchWait arcwell.ioctls id
      let arcwell := { arcwell with ioctls := arcwell.ioctls + 1 }
      match answer with
      | .failed errno => (arcwell, .error ("AW_IOC_BATCH_WAIT failed: " ++ errno))
      | .answered done failed =>
          waitGroups device rest (completed + done) (if err = 0 then failed else err) arcwell

def collect (device : Device) (arcwell : Arcwell) (id : Nat) :
    Except String CollectOutcome × Arcwell :=
  match arcwell.inflight.lookup id with
  | none => (.error "pinned NVMe fill: unknown batch id", arcwell)
  | some pending =>
      let arcwell := { arcwell with inflight := arcwell.inflight.filter (·.1 ≠ id) }
      match waitGroups device pending.arcwellIds 0 0 arcwell with
      | (arcwell, .error reason) => (.error reason, arcwell)
      | (arcwell, .ok (completed, err)) =>
          (.ok ⟨completed == pending.expected && err == 0, completed / 3⟩, arcwell)

/-- The transport over a device. -/
def transport (device : Device) : Transport Arcwell where
  begin arcwell := (arcwell.begin, arcwell)
  submit := submit device
  collect := collect device

/-! ## The ids of the transport -/

section Ids

variable (device : Device)

/-- The batches in flight under the ids handed out so far. -/
def outstanding (arcwell : Arcwell) : Set Nat :=
  {id | id < arcwell.nextId ∧ id ∈ arcwell.inflight.map Prod.fst}

omit device in
theorem mem_outstanding {arcwell : Arcwell} {id : Nat} :
    id ∈ arcwell.outstanding ↔ id < arcwell.nextId ∧ id ∈ arcwell.inflight.map Prod.fst :=
  Iff.rfl

/-- The ids and the batches in flight are the same. -/
def SameBatches (a b : Arcwell) : Prop := b.nextId = a.nextId ∧ b.inflight = a.inflight

theorem SameBatches.outstanding_eq {a b : Arcwell} (h : SameBatches a b) :
    b.outstanding = a.outstanding := by
  unfold outstanding
  rw [h.1, h.2]

theorem SameBatches.trans {a b c : Arcwell} (hab : SameBatches a b) (hbc : SameBatches b c) :
    SameBatches a c :=
  ⟨hbc.1.trans hab.1, hbc.2.trans hab.2⟩

theorem fileLba_sameBatches (arcwell : Arcwell) (denseIndex slot : Nat) :
    SameBatches arcwell (arcwell.fileLba device denseIndex slot).1 := by
  unfold fileLba
  split
  next => exact ⟨rfl, rfl⟩
  next =>
    dsimp only
    split
    next => exact ⟨rfl, rfl⟩
    next => split <;> exact ⟨rfl, rfl⟩

theorem batchReads_sameBatches (geometry : PinnedLayerGeometry) (layer : Nat)
    (requests : List FillRequest) (arcwell : Arcwell) :
    SameBatches arcwell (batchReads device geometry layer requests arcwell).1 := by
  induction requests generalizing arcwell with
  | nil => exact ⟨rfl, rfl⟩
  | cons request rest ih =>
      have hfile := fileLba_sameBatches device arcwell layer request.slot
      unfold batchReads
      split
      next found reason heq => rwa [heq] at hfile
      next found lba len heq =>
        rw [heq] at hfile
        split
        next => exact hfile
        next =>
          have hrest := hfile.trans (ih found)
          split
          next heq => rwa [heq] at hrest
          next heq => rwa [heq] at hrest

theorem submitGroups_sameBatches (groups : List (List ReadBlocks)) (pending : PendingReads)
    (arcwell : Arcwell) : SameBatches arcwell (submitGroups device groups pending arcwell).1 := by
  induction groups generalizing pending arcwell with
  | nil => exact ⟨rfl, rfl⟩
  | cons group rest ih =>
      unfold submitGroups
      dsimp only
      split
      next => exact ⟨rfl, rfl⟩
      next =>
        split
        next => exact ⟨rfl, rfl⟩
        next => exact ih _ _

theorem waitGroups_sameBatches (ids : List Nat) (completed : Nat) (err : Int) (arcwell : Arcwell) :
    SameBatches arcwell (waitGroups device ids completed err arcwell).1 := by
  induction ids generalizing completed err arcwell with
  | nil => exact ⟨rfl, rfl⟩
  | cons id rest ih =>
      unfold waitGroups
      dsimp only
      split
      next => exact ⟨rfl, rfl⟩
      next => exact ih _ _ _

/-- A submit that fails leaves the batches in flight; one that succeeds adds a
batch under the next id. -/
theorem submit_cases (arcwell : Arcwell) (batch : FillBatch) :
    (∃ reason after, submit device arcwell batch = (.error reason, after) ∧
        SameBatches arcwell after) ∨
      ∃ after pending, submit device arcwell batch = (.ok arcwell.nextId, after) ∧
        after.nextId = arcwell.nextId + 1 ∧
        after.inflight = if (arcwell.inflight.lookup arcwell.nextId).isSome then arcwell.inflight
          else arcwell.inflight ++ [(arcwell.nextId, pending)] := by
  unfold submit
  split
  next => exact .inl ⟨_, _, rfl, rfl, rfl⟩
  next =>
    split
    next => exact .inl ⟨_, _, rfl, rfl, rfl⟩
    next =>
      split
      next => exact .inl ⟨_, _, rfl, rfl, rfl⟩
      next geometry hgeometry =>
        have hreads := batchReads_sameBatches device geometry batch.layer
          batch.requests arcwell
        split
        next found reason heq =>
          rw [heq] at hreads
          exact .inl ⟨_, _, rfl, hreads⟩
        next found reads heq =>
          rw [heq] at hreads
          have hgroups := hreads.trans (submitGroups_sameBatches device
            (groups reads) ⟨[], 0, batch.requests.length⟩ found)
          split
          next sent reason heq =>
            rw [heq] at hgroups
            exact .inl ⟨_, _, rfl, hgroups⟩
          next sent pending heq =>
            rw [heq] at hgroups
            obtain ⟨hnext, hinflight⟩ := hgroups
            refine .inr ⟨_, pending, by rw [← hnext], ?_, ?_⟩
            · rw [← hnext]
            · rw [← hnext, ← hinflight]

theorem collect_sameBatches (arcwell : Arcwell) (id : Nat) :
    (collect device arcwell id).2.nextId = arcwell.nextId ∧
      (collect device arcwell id).2.inflight = arcwell.inflight.filter (·.1 ≠ id) := by
  unfold collect
  split
  next hnone =>
    refine ⟨rfl, ?_⟩
    rw [List.lookup_eq_none_iff] at hnone
    symm
    rw [List.filter_eq_self]
    intro entry hentry
    rw [decide_eq_true_eq]
    rintro rfl
    simpa using hnone entry hentry
  next pending hfound =>
    have hwait := waitGroups_sameBatches device pending.arcwellIds 0 0
      { arcwell with inflight := arcwell.inflight.filter (·.1 ≠ id) }
    dsimp only
    split
    next heq => rwa [heq] at hwait
    next heq => rwa [heq] at hwait

/-- The counter makes every id new. -/
theorem transport_keepsIds : (transport device).KeepsIds outstanding := by
  refine ⟨fun _ => rfl, ?_, ?_, ?_⟩
  · intro arcwell batch reason after hsubmit
    rcases submit_cases device arcwell batch with ⟨_, _, heq, hsame⟩ | ⟨_, _, heq, _⟩
    · rw [show submit device arcwell batch = _ from hsubmit] at heq
      cases heq
      exact hsame.outstanding_eq
    · rw [show submit device arcwell batch = _ from hsubmit] at heq
      cases heq
  · intro arcwell batch id after hsubmit
    rcases submit_cases device arcwell batch with
      ⟨_, _, heq, _⟩ | ⟨_, pending, heq, hnext, hinflight⟩
    · rw [show submit device arcwell batch = _ from hsubmit] at heq
      cases heq
    · rw [show submit device arcwell batch = _ from hsubmit] at heq
      cases heq
      refine ⟨fun hout => Nat.lt_irrefl _ hout.1, ?_⟩
      ext other
      rw [Set.mem_insert_iff, mem_outstanding, mem_outstanding, hnext, hinflight]
      split
      next htaken =>
        -- the id is already a key: only its bound moves
        have hkey : arcwell.nextId ∈ arcwell.inflight.map Prod.fst := by
          by_contra hfree
          rw [lookup_eq_none_of_notMem hfree] at htaken
          cases htaken
        constructor
        · rintro ⟨hlt, hmem⟩
          rcases Nat.lt_succ_iff_lt_or_eq.mp hlt with hlt | rfl
          · exact .inr ⟨hlt, hmem⟩
          · exact .inl rfl
        · rintro (rfl | ⟨hlt, hmem⟩)
          · exact ⟨Nat.lt_succ_self _, hkey⟩
          · exact ⟨Nat.lt_succ_of_lt hlt, hmem⟩
      next =>
        rw [List.map_append, List.mem_append, List.map_singleton, List.mem_singleton]
        constructor
        · rintro ⟨hlt, hmem | rfl⟩
          · rcases Nat.lt_succ_iff_lt_or_eq.mp hlt with hlt | rfl
            · exact .inr ⟨hlt, hmem⟩
            · exact .inl rfl
          · exact .inl rfl
        · rintro (rfl | ⟨hlt, hmem⟩)
          · exact ⟨Nat.lt_succ_self _, .inr rfl⟩
          · exact ⟨Nat.lt_succ_of_lt hlt, .inl hmem⟩
  · intro arcwell id
    obtain ⟨hnext, hinflight⟩ := collect_sameBatches device arcwell id
    ext other
    rw [mem_outstanding, Set.mem_sdiff, mem_outstanding, Set.mem_singleton_iff]
    rw [show ((transport device).collect arcwell id).2 = (collect device arcwell id).2 from rfl,
      hnext, hinflight]
    simp only [List.mem_map, List.mem_filter, decide_eq_true_eq]
    constructor
    · rintro ⟨hlt, entry, ⟨hentry, hne⟩, rfl⟩
      exact ⟨⟨hlt, entry, hentry, rfl⟩, hne⟩
    · rintro ⟨⟨hlt, entry, hentry, rfl⟩, hne⟩
      exact ⟨hlt, entry, ⟨hentry, hne⟩, rfl⟩

end Ids

end Arcwell

end Arcint.Fill
