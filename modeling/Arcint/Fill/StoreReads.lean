import Arcint.Fill.Coordinator
import Arcint.Fill.ExpertStore

/-! # What the transport reads

The layers the coordinator registers, the blocks that a batch of the transport
reads in any state it can reach, and what these blocks hold when the kernel's map
of the store's files is true.
-/

namespace Arcint.Fill

open Foundation

/-! ## The registered layers -/

section Layers

variable {world : World}

theorem registerTensors_bytes {registerBo : Fin 3 → Except String (Nat × Nat)}
    {tensors : List (Fin 3)} {p q : Provider}
    (h : Provider.registerTensors registerBo tensors p = (q, .ok ())) (t : Fin 3) :
    q.pool.tensorBytes t = if t ∈ tensors then p.tensorBytes t else p.pool.tensorBytes t := by
  induction tensors generalizing p with
  | nil =>
      cases h
      simp
  | cons head rest ih =>
      unfold Provider.registerTensors at h
      split at h
      next => cases h
      next =>
        split at h
        next => cases h
        next handle fd _ =>
          rw [ih h]
          by_cases hrest : t ∈ rest
          · simp [hrest, Provider.tensorBytes]
          · by_cases hhead : t = head
            · subst hhead
              simp [hrest]
            · simp [hrest, hhead]

theorem createPinnedNvmePool_bytes {registerBo : Fin 3 → Except String (Nat × Nat)}
    {p q : Provider} (h : p.createPinnedNvmePool registerBo = (q, .ok ()))
    (hfresh : p.pool.ready = false) (t : Fin 3) : q.pool.tensorBytes t = p.tensorBytes t := by
  unfold Provider.createPinnedNvmePool at h
  rw [if_neg (by simp [hfresh])] at h
  split at h
  next => cases h
  next =>
    rw [registerTensors_bytes h, if_pos (List.mem_finRange t)]

theorem reserveStaticPartition_pool (p : Provider) :
    (p.reserveStaticPartition).1.pool = p.pool := by
  unfold Provider.reserveStaticPartition
  split
  next => rfl
  next => split <;> rfl

/-- The geometry of a provider's layer under a dense index. -/
structure LayerOf (p : Provider) (denseIndex : Nat) (geometry : PinnedLayerGeometry) : Prop where
  index : geometry.denseIndex = denseIndex
  capacity : geometry.capacity = p.config.capacity
  bytes : ∀ t, geometry.tensorBytes t = p.tensorBytes t

theorem LayerOf.congr {p q : Provider} {denseIndex : Nat} {geometry : PinnedLayerGeometry}
    (h : LayerOf p denseIndex geometry) (hconfig : p.config = q.config) :
    LayerOf q denseIndex geometry where
  index := h.index
  capacity := by rw [h.capacity, hconfig]
  bytes t := by rw [h.bytes, Provider.tensorBytes, Provider.tensorBytes, hconfig]

/-- With the fill enabled everywhere, the layers are the providers in the order
they were listed in. -/
theorem prepare_layers {ids : List Nat} {provider prepared : Nat → Provider}
    {owner owner' : List Nat} {geometries geometries' : List PinnedLayerGeometry}
    (h : prepare world ids provider owner geometries = (prepared, .ok (owner', geometries')))
    (hnodup : ids.Nodup) (hon : ∀ id ∈ ids, (provider id).config.pinnedNvmeFill = true)
    (hfresh : ∀ id ∈ ids, (provider id).pool.ready = false) :
    owner' = owner ++ ids ∧ ∃ layers, geometries' = geometries ++ layers ∧
      layers.length = ids.length ∧ ∀ (i : Nat) (id : Nat), ids[i]? = some id →
        ∃ layer, layers[i]? = some layer ∧ LayerOf (provider id) (owner.length + i) layer := by
  induction ids generalizing provider owner geometries with
  | nil =>
      cases h
      exact ⟨by simp, [], by simp, rfl, by simp⟩
  | cons head rest ih =>
      obtain ⟨hhead, hrest⟩ := List.nodup_cons.mp hnodup
      unfold prepare at h
      rw [if_neg (by simp [hon head List.mem_cons_self])] at h
      split at h
      next => cases h
      next =>
        split at h
        next => cases h
        next p hreserve =>
          split at h
          next => cases h
          next q hcreate =>
            have hconfig : p.config = (provider head).config := by
              have := (provider head).reserveStaticPartition_extends.config
              rwa [hreserve] at this
            have hpool : p.pool = (provider head).pool := by
              have := reserveStaticPartition_pool (provider head)
              rwa [hreserve] at this
            have hq : q.config = p.config := by
              have := (p.createPinnedNvmePool_marks (world.registerBo head)).config
              rwa [hcreate] at this
            have hbytes := createPinnedNvmePool_bytes hcreate
              (by rw [hpool]; exact hfresh head List.mem_cons_self)
            have hsame : ∀ id ∈ rest, Function.update provider head q id = provider id := by
              intro id hid
              apply Function.update_of_ne
              rintro rfl
              exact hhead hid
            obtain ⟨howner, layers, hlayers, hlength, hall⟩ := ih h hrest
              (fun id hid => by rw [hsame id hid]; exact hon id (List.mem_cons_of_mem _ hid))
              (fun id hid => by rw [hsame id hid]; exact hfresh id (List.mem_cons_of_mem _ hid))
            refine ⟨by rw [howner, List.append_assoc, List.singleton_append],
              q.pinnedNvmeGeometry owner.length :: layers, ?_, by simp [hlength], ?_⟩
            · rw [hlayers, List.append_assoc, List.singleton_append]
            · intro i id hid
              cases i with
              | zero =>
                  cases hid
                  have hown : LayerOf p owner.length (q.pinnedNvmeGeometry owner.length) :=
                    ⟨rfl, congrArg ProviderConfig.capacity hq, hbytes⟩
                  exact ⟨_, rfl, hown.congr hconfig⟩
              | succ i =>
                  rw [List.getElem?_cons_succ] at hid
                  obtain ⟨layer, hlayer, hof⟩ := hall i id hid
                  rw [hsame id (List.mem_of_getElem? hid), List.length_append,
                    List.length_singleton, Nat.add_assoc, Nat.add_comm 1 i] at hof
                  exact ⟨layer, hlayer, hof⟩

end Layers

/-! ## The transport over a store -/

/-- What the transport may do after it was opened. -/
inductive TransportStep where
  | submit (batch : FillBatch)
  | collect (id : Nat)

def transportMachine (device : Device) : Machine Arcwell TransportStep where
  step arcwell
    | .submit batch => some (arcwell.submit device batch).2
    | .collect id => some (arcwell.collect device id).2

namespace Arcwell

section Runs

variable {device : Device}

/-- The store, the partition and the layers are those of `opened`, and every block
number in the cache is what a translation of the file gives. -/
structure SameStore (device : Device) (opened arcwell : Arcwell) : Prop where
  storeDir : arcwell.storeDir = opened.storeDir
  partStart : arcwell.partStart = opened.partStart
  layers : arcwell.layers = opened.layers
  cache : ∀ ordinal found, arcwell.lbaCache.lookup ordinal = some found →
    pinnedFileLba device opened.partStart
      (opened.storeDir ++ "/" ++ expertFileName ordinal) = .ok found

variable {opened : Arcwell}

theorem SameStore.geometryFor {arcwell : Arcwell} (h : SameStore device opened arcwell)
    (denseIndex : Nat) : arcwell.geometryFor denseIndex = opened.geometryFor denseIndex := by
  rw [Arcwell.geometryFor, Arcwell.geometryFor, h.layers]

/-- A translated file: the transport still has its store, and the blocks are
those of the file with the slot's ordinal. -/
theorem fileLba_sameStore {arcwell : Arcwell} (h : SameStore device opened arcwell)
    (denseIndex slot : Nat) :
    SameStore device opened (arcwell.fileLba device denseIndex slot).1 ∧
      ∀ found, (arcwell.fileLba device denseIndex slot).2 = .ok found →
        ∃ geometry, opened.geometryFor denseIndex = some geometry ∧
          pinnedFileLba device opened.partStart (opened.storeDir ++ "/" ++
            expertFileName (geometry.capacity * denseIndex + slot)) = .ok found := by
  unfold fileLba
  rw [h.geometryFor]
  split
  next => exact ⟨h, fun found hfound => by cases hfound⟩
  next geometry hgeometry =>
    dsimp only
    split
    next found hcached =>
      refine ⟨h, ?_⟩
      intro other hother
      cases hother
      exact ⟨geometry, hgeometry, h.cache _ _ hcached⟩
    next hmiss =>
      rw [h.storeDir, h.partStart]
      split
      next => exact ⟨h, fun found hfound => by cases hfound⟩
      next found hfound =>
        refine ⟨⟨rfl, rfl, h.layers, ?_⟩, ?_⟩
        · intro ordinal other hother
          rw [List.lookup_append] at hother
          rcases Option.or_eq_some_iff.mp hother with hother | ⟨_, hother⟩
          · exact h.cache ordinal other hother
          · rw [List.lookup_cons] at hother
            split at hother
            next heq =>
              cases hother
              rw [beq_iff_eq.mp heq]
              exact hfound
            next => cases hother
        · intro other hother
          cases hother
          exact ⟨geometry, hgeometry, hfound⟩

/-- The read of a tensor, when it is aligned. -/
def readOf (geometry : PinnedLayerGeometry) (lba slot : Nat) (t : Fin 3) : ReadBlocks where
  bufferHandle := geometry.awHandle t
  startBlock := lba + t * (geometry.tensorBytes t / 512)
  blockCount := geometry.tensorBytes t / 512
  destOffset := slot * geometry.tensorBytes t

theorem expertReads_ok {geometry : PinnedLayerGeometry} {layer lba len slot : Nat}
    {reads : List ReadBlocks} (h : expertReads geometry layer lba len slot = .ok reads) :
    len = geometry.record ∧ reads = (List.finRange 3).map (readOf geometry lba slot) ∧
      ∀ t, 512 ∣ geometry.tensorBytes t := by
  simp only [expertReads, bind_ok, ensure_ok] at h
  obtain ⟨_, hlen, hreads⟩ := h
  have hread : ∀ t read, tensorRead geometry layer lba slot t = .ok read →
      read = readOf geometry lba slot t ∧ 512 ∣ geometry.tensorBytes t := by
    intro t read hread
    simp only [tensorRead, bind_ok, ensure_ok] at hread
    obtain ⟨_, haligned, hread⟩ := hread
    cases hread
    exact ⟨rfl, Nat.dvd_of_mod_eq_zero haligned.2.1⟩
  refine ⟨hlen, parseAll_eq_map (fun t read htensor => (hread t read htensor).1) hreads, ?_⟩
  intro t
  obtain ⟨read, htensor⟩ := exists_of_parseAll hreads (List.mem_finRange t)
  exact (hread t read htensor).2

/-- The reads of a batch: three for each request, of the request's file. -/
theorem batchReads_ok {geometry : PinnedLayerGeometry} {layer : Nat}
    (hgeometry : opened.geometryFor layer = some geometry) {requests : List FillRequest}
    {arcwell after : Arcwell} {reads : List ReadBlocks} (hopen : SameStore device opened arcwell)
    (h : batchReads device geometry layer requests arcwell = (after, .ok reads)) {i : Nat}
    {request : FillRequest} (hi : requests[i]? = some request) :
    ∃ lba len, pinnedFileLba device opened.partStart (opened.storeDir ++ "/" ++
        expertFileName (geometry.capacity * layer + request.slot)) = .ok (lba, len) ∧
      expertReads geometry layer lba len request.slot = .ok (slice reads (3 * i) 3) := by
  induction requests generalizing arcwell reads i with
  | nil => cases hi
  | cons head rest ih =>
      unfold batchReads at h
      obtain ⟨hnext, hfile⟩ := fileLba_sameStore hopen layer head.slot
      split at h
      next => cases h
      next found lba len heq =>
        rw [heq] at hnext hfile
        split at h
        next => cases h
        next three hthree =>
          split at h
          next => cases h
          next last more hmore =>
            cases h
            have hlength : three.length = 3 := by
              rw [(expertReads_ok hthree).2.1]
              rfl
            cases i with
            | zero =>
                cases hi
                obtain ⟨own, hown, hlba⟩ := hfile _ rfl
                rw [hgeometry] at hown
                cases hown
                refine ⟨lba, len, hlba, ?_⟩
                rw [hthree, slice, Nat.mul_zero, List.drop_zero, List.take_left' hlength]
            | succ i =>
                obtain ⟨lba, len, hlba, hreads⟩ := ih hnext hmore hi
                refine ⟨lba, len, hlba, ?_⟩
                rw [hreads, slice, slice, Nat.mul_succ, Nat.add_comm, ← hlength,
                  ← List.drop_drop, List.drop_left]

theorem batchReads_sameStore (geometry : PinnedLayerGeometry) (layer : Nat)
    (requests : List FillRequest) {arcwell : Arcwell} (hopen : SameStore device opened arcwell) :
    SameStore device opened (batchReads device geometry layer requests arcwell).1 := by
  induction requests generalizing arcwell with
  | nil => exact hopen
  | cons head rest ih =>
      have hnext := (fileLba_sameStore hopen layer head.slot).1
      unfold batchReads
      split
      next heq => rwa [heq] at hnext
      next heq =>
        rw [heq] at hnext
        split
        next => exact hnext
        next =>
          have hrest := ih hnext
          split
          next heq => rwa [heq] at hrest
          next heq => rwa [heq] at hrest

theorem submitGroups_sameStore (groups : List (List ReadBlocks)) (pending : PendingReads)
    {arcwell : Arcwell} (hopen : SameStore device opened arcwell) :
    SameStore device opened (submitGroups device groups pending arcwell).1 := by
  induction groups generalizing pending arcwell with
  | nil => exact hopen
  | cons group rest ih =>
      unfold submitGroups
      dsimp only
      split
      next => exact ⟨hopen.storeDir, hopen.partStart, hopen.layers, hopen.cache⟩
      next =>
        split
        next => exact ⟨hopen.storeDir, hopen.partStart, hopen.layers, hopen.cache⟩
        next =>
          apply ih
          exact ⟨hopen.storeDir, hopen.partStart, hopen.layers, hopen.cache⟩

theorem submit_sameStore {arcwell : Arcwell} (hopen : SameStore device opened arcwell)
    (batch : FillBatch) : SameStore device opened (arcwell.submit device batch).2 := by
  unfold submit
  split
  next => exact hopen
  next =>
    split
    next => exact hopen
    next =>
      split
      next => exact hopen
      next geometry _ =>
        have hreads := batchReads_sameStore geometry batch.layer batch.requests hopen
        split
        next heq => rwa [heq] at hreads
        next found reads heq =>
          rw [heq] at hreads
          have hgroups := submitGroups_sameStore (groups reads)
            ⟨[], 0, batch.requests.length⟩ hreads
          split
          next heq => rwa [heq] at hgroups
          next heq =>
            rw [heq] at hgroups
            exact ⟨hgroups.storeDir, hgroups.partStart, hgroups.layers, hgroups.cache⟩

theorem waitGroups_sameStore (ids : List Nat) (completed : Nat) (err : Int) {arcwell : Arcwell}
    (hopen : SameStore device opened arcwell) :
    SameStore device opened (waitGroups device ids completed err arcwell).1 := by
  induction ids generalizing completed err arcwell with
  | nil => exact hopen
  | cons id rest ih =>
      unfold waitGroups
      dsimp only
      split
      next => exact ⟨hopen.storeDir, hopen.partStart, hopen.layers, hopen.cache⟩
      next =>
        apply ih
        exact ⟨hopen.storeDir, hopen.partStart, hopen.layers, hopen.cache⟩

theorem collect_sameStore {arcwell : Arcwell} (hopen : SameStore device opened arcwell)
    (id : Nat) : SameStore device opened (arcwell.collect device id).2 := by
  unfold collect
  split
  next => exact hopen
  next pending _ =>
    have hfiltered : SameStore device opened { arcwell with
        inflight := arcwell.inflight.filter (·.1 ≠ id) } :=
      ⟨hopen.storeDir, hopen.partStart, hopen.layers, hopen.cache⟩
    have hwait := waitGroups_sameStore pending.arcwellIds 0 0 hfiltered
    dsimp only
    split
    next heq => rwa [heq] at hwait
    next heq => rwa [heq] at hwait

/-- Whatever the transport was asked to do, it still has its store. -/
theorem sameStore_run (hcold : opened.lbaCache = []) {steps : List TransportStep}
    {arcwell : Arcwell} (hrun : (transportMachine device).run opened steps = some arcwell) :
    SameStore device opened arcwell := by
  apply Machine.run_invariant_of_step _ _ hrun
  · intro s event next hs hstep
    cases event with
    | submit batch =>
        cases hstep
        exact submit_sameStore hs batch
    | collect id =>
        cases hstep
        exact collect_sameStore hs id
  · exact ⟨rfl, rfl, rfl, by simp [hcold]⟩

end Runs

end Arcwell

/-! ## What the blocks hold -/

/-- What `FS_IOC_FIEMAP` promises of the store's files: the bytes of a file that is
one plain extent lie at its physical offset in the partition. -/
structure MapsFiles (device : Device) (disk : List UInt8) (partStart : Nat) (storeDir : String)
    (files : List Store.StoreFile) : Prop where
  mapped : ∀ file ∈ files, ∀ fm, device.fiemap (storeDir ++ "/" ++ file.file) = .ok fm →
    fm.mappedExtents = 1 → fm.flags &&& extentNotPlain = 0 →
    fm.size = file.record.length ∧ 512 ∣ fm.physical ∧
      slice disk (512 * partStart + fm.physical) fm.size = file.record

theorem MapsFiles.lba {device : Device} {disk : List UInt8} {partStart : Nat} {storeDir : String}
    {files : List Store.StoreFile} (h : MapsFiles device disk partStart storeDir files)
    {file : Store.StoreFile} (hfile : file ∈ files) {lba len : Nat}
    (hlba : pinnedFileLba device partStart (storeDir ++ "/" ++ file.file) = .ok (lba, len)) :
    len = file.record.length ∧ slice disk (512 * lba) len = file.record := by
  simp only [pinnedFileLba, bind_ok, ensure_ok] at hlba
  obtain ⟨fm, hfm, _, hone, _, hplain, hresult⟩ := hlba
  cases hresult
  obtain ⟨hsize, hblock, hbytes⟩ := h.mapped file hfile fm hfm hone hplain
  refine ⟨hsize, ?_⟩
  rw [Nat.mul_add, Nat.mul_div_cancel' hblock, Nat.add_comm]
  exact hbytes

/-- Three reads that copy the parts of a record to a slot of a layer's pools. -/
structure CopiesTo (disk : List UInt8) (geometry : PinnedLayerGeometry) (slot : Nat)
    (packed : Fin 3 → List UInt8) (reads : List ReadBlocks) : Prop where
  count : reads.length = 3
  copies : ∀ t : Fin 3, ∃ read, reads[t.val]? = some read ∧
    read.bufferHandle = geometry.awHandle t ∧
    read.destOffset = slot * geometry.tensorBytes t ∧
    512 * read.blockCount = geometry.tensorBytes t ∧
    slice disk (512 * read.startBlock) (512 * read.blockCount) = packed t

theorem slice_record {packed : Fin 3 → List UInt8} {n : Nat} (hn : ∀ t, (packed t).length = n)
    (t : Fin 3) : slice (packed 0 ++ packed 1 ++ packed 2) (t * n) n = packed t := by
  unfold slice
  match t with
  | 0 => simp [hn]
  | 1 => simp [hn]
  | 2 =>
      have hfirst : (packed 0 ++ packed 1).length = 2 * n := by
        rw [List.length_append, hn, hn, Nat.two_mul]
      rw [show (2 : Fin 3).val * n = (packed 0 ++ packed 1).length from hfirst.symm,
        List.drop_left, List.take_of_length_le (hn 2).le]

/-- The reads of a file that holds an expert's record, into pools of three
tensors of one size. -/
theorem copiesTo_of_record {disk : List UInt8} {geometry : PinnedLayerGeometry}
    {packed : Fin 3 → List UInt8} {layer lba len slot : Nat} {reads : List ReadBlocks}
    (hreads : Arcwell.expertReads geometry layer lba len slot = .ok reads)
    (hbytes : slice disk (512 * lba) len = packed 0 ++ packed 1 ++ packed 2)
    (hlen : len = (packed 0 ++ packed 1 ++ packed 2).length)
    (hpacked : ∀ t, (packed t).length = (packed 0).length)
    (huniform : ∀ t, geometry.tensorBytes t = geometry.tensorBytes 0) :
    CopiesTo disk geometry slot packed reads := by
  obtain ⟨hrecord, rfl, haligned⟩ := Arcwell.expertReads_ok hreads
  have hsize : geometry.tensorBytes 0 = (packed 0).length := by
    rw [List.length_append, List.length_append, hpacked 1, hpacked 2] at hlen
    rw [PinnedLayerGeometry.record, huniform 1, huniform 2] at hrecord
    omega
  refine ⟨by simp, fun t => ⟨Arcwell.readOf geometry lba slot t, by simp, rfl, rfl, ?_, ?_⟩⟩
  · exact Nat.mul_div_cancel' (haligned t)
  · have hstart : 512 * (lba + t * (geometry.tensorBytes t / 512)) =
        512 * lba + t * geometry.tensorBytes t := by
      rw [Nat.mul_add, Nat.mul_left_comm, Nat.mul_div_cancel' (haligned t)]
    have hinside : t * geometry.tensorBytes t + geometry.tensorBytes t ≤ len := by
      have ht : (t.val + 1) * geometry.tensorBytes t ≤ 3 * geometry.tensorBytes t :=
        Nat.mul_le_mul_right _ (by omega)
      rw [PinnedLayerGeometry.record, huniform 1, huniform 2] at hrecord
      rw [huniform t] at ht ⊢
      rw [Nat.succ_mul] at ht
      omega
    rw [Arcwell.readOf]
    dsimp only
    rw [hstart, Nat.mul_div_cancel' (haligned t), ← slice_slice disk (512 * lba) len _ _ hinside,
      hbytes, huniform t, hsize]
    exact slice_record hpacked t

end Arcint.Fill
