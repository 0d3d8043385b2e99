import Arcint.Fill.SeedReaders
import Arcint.Fill.StoreReads
import Arcint.Foundation.SortBy

/-! # Which file holds which expert

The writer numbers the files of the store by decoder layer and by the order in
which a layer's experts are listed. The plugin numbers its layers by layer key and
its slots by expert id, and nothing but the file name links the two. They agree
exactly when the layer key increases with the decoder layer and every layer lists
its experts in ascending order.
-/

namespace Arcint.Fill

open Foundation

/-! ## The files of a plan -/

namespace Store

theorem deviceOrderWeightRecord_ok {packed : Fin 3 → List UInt8} {record : List UInt8}
    (h : deviceOrderWeightRecord packed = .ok record) :
    record = packed 0 ++ packed 1 ++ packed 2 ∧
      ∀ role, (packed role).length = roleByteCount role := by
  simp only [deviceOrderWeightRecord, bind_ok, checkAll_ok, ensure_ok] at h
  obtain ⟨_, hsizes, hrecord⟩ := h
  cases hrecord
  exact ⟨rfl, fun role => hsizes role (List.mem_finRange role)⟩

/-- The file at an index of the plan. -/
structure FileOf (packed : Int → Int → Fin 3 → List UInt8) (entry : Int × Int) (ordinal : Nat)
    (file : StoreFile) : Prop where
  name : file.file = expertFileName ordinal
  layer : file.layer = entry.1
  expert : file.expert = entry.2
  record : file.record = packed entry.1 entry.2 0 ++ packed entry.1 entry.2 1 ++
    packed entry.1 entry.2 2
  sizes : ∀ role, (packed entry.1 entry.2 role).length = roleByteCount role

theorem writePlan_ok {packed : Int → Int → Fin 3 → List UInt8} {plan : List (Int × Int)}
    {ordinal : Nat} {files : List StoreFile} (h : writePlan packed plan ordinal = .ok files) :
    files.length = plan.length ∧ ∀ (i : Nat) (entry : Int × Int), plan[i]? = some entry →
      ∃ file, files[i]? = some file ∧ FileOf packed entry (ordinal + i) file := by
  induction plan generalizing ordinal files with
  | nil =>
      cases h
      simp
  | cons entry rest ih =>
      obtain ⟨layer, expert⟩ := entry
      simp only [writePlan, bind_ok, ensure_ok] at h
      obtain ⟨record, hrecord, _, _, more, hmore, hfiles⟩ := h
      cases hfiles
      obtain ⟨hlength, hall⟩ := ih hmore
      refine ⟨by simp [hlength], ?_⟩
      intro i other hi
      cases i with
      | zero =>
          cases hi
          obtain ⟨hrecord, hsizes⟩ := deviceOrderWeightRecord_ok hrecord
          exact ⟨_, rfl, rfl, rfl, rfl, hrecord, hsizes⟩
      | succ i =>
          obtain ⟨file, hfile, hof⟩ := hall i other hi
          refine ⟨file, hfile, ?_⟩
          rw [← Nat.add_assoc, Nat.add_right_comm]
          exact hof

/-- The store has one file under the ordinal, and it was written for the expert. -/
def HoldsExpert (files : List StoreFile) (ordinal : Nat) (layer expert : Int) : Prop :=
  ∃ file ∈ files, file.file = expertFileName ordinal ∧ file.layer = layer ∧
    file.expert = expert ∧ ∀ other ∈ files, other.file = expertFileName ordinal → other = file

section Files

variable {packed : Int → Int → Fin 3 → List UInt8} {pinned : Pinned} {files : List StoreFile}
  (hwrite : write packed pinned = .ok files)

include hwrite

theorem exists_index_of_mem_files {file : StoreFile} (hfile : file ∈ files) :
    ∃ (i : Nat) (entry : Int × Int), files[i]? = some file ∧
      (planOrder pinned)[i]? = some entry ∧ FileOf packed entry i file := by
  obtain ⟨hlength, hall⟩ := writePlan_ok hwrite
  obtain ⟨i, hi⟩ := List.mem_iff_getElem?.mp hfile
  have hlt : i < (planOrder pinned).length := by
    rw [← hlength]
    exact (List.getElem?_eq_some_iff.mp hi).1
  obtain ⟨own, hown, hof⟩ := hall i _ (List.getElem?_eq_getElem hlt)
  rw [hi] at hown
  cases hown
  rw [Nat.zero_add] at hof
  exact ⟨i, _, hi, List.getElem?_eq_getElem hlt, hof⟩

/-- The file of an ordinal is the plan's entry at it. -/
theorem holdsExpert_iff (ordinal : Nat) (layer expert : Int) :
    HoldsExpert files ordinal layer expert ↔
      (planOrder pinned)[ordinal]? = some (layer, expert) := by
  constructor
  · rintro ⟨file, hfile, hname, rfl, rfl, _⟩
    obtain ⟨i, entry, _, hentry, hof⟩ := exists_index_of_mem_files hwrite hfile
    obtain rfl := expertFileName_injective (hof.name.symm.trans hname)
    rw [hentry, hof.layer, hof.expert]
  · intro hplan
    obtain ⟨_, hall⟩ := writePlan_ok hwrite
    obtain ⟨file, hfile, hof⟩ := hall ordinal _ hplan
    rw [Nat.zero_add] at hof
    refine ⟨file, List.mem_of_getElem? hfile, hof.name, hof.layer, hof.expert, ?_⟩
    intro other hother hname
    obtain ⟨i, entry, hi, _, hofother⟩ := exists_index_of_mem_files hwrite hother
    obtain rfl := expertFileName_injective (hofother.name.symm.trans hname)
    rw [hfile] at hi
    cases hi
    rfl

end Files

end Store

/-! ## The two orders -/

theorem byKey_of_mem {keys : List (Int × Nat)} (hkeys : (keys.map Prod.snd).Nodup)
    {entry : Int × Nat} (hentry : entry ∈ keys) :
    Store.byKey keys (entry.2 : Int) = some entry.1 := by
  unfold Store.byKey
  cases hfind : keys.reverse.find? fun other => (other.2 : Int) = (entry.2 : Int) with
  | none =>
      rw [List.find?_eq_none] at hfind
      have hmiss := hfind entry (List.mem_reverse.mpr hentry)
      simp at hmiss
  | some other =>
      have hmem := List.mem_reverse.mp (List.mem_of_find?_eq_some hfind)
      have hsame : other.2 = entry.2 := by
        have hfound := List.find?_some hfind
        exact Int.ofNat_inj.mp (of_decide_eq_true hfound)
      rw [eq_of_key_eq hkeys hmem hentry hsame]
      rfl

/-- The plan of a pinned set that gives every layer of the map its row. -/
theorem planOrder_eq {keys : List (Int × Nat)} {row : Nat → List Int} {pinned : Store.Pinned}
    (hlayers : (keys.map Prod.fst).Nodup)
    (hpinned : pinned.Perm (keys.map fun entry => (entry.1, row entry.2))) :
    Store.planOrder pinned = (sortBy Prod.fst keys).flatMap fun entry =>
      (row entry.2).map fun expert => (entry.1, expert) := by
  have hsorted : sortBy Prod.fst pinned =
      (sortBy Prod.fst keys).map fun entry => (entry.1, row entry.2) := by
    apply sortBy_unique
    · rw [(hpinned.map Prod.fst).nodup_iff, List.map_map]
      exact hlayers
    · exact ((sortBy_perm Prod.fst keys).map _).trans hpinned.symm
    · rw [List.pairwise_map]
      exact sortBy_pairwise Prod.fst keys
  unfold Store.planOrder
  rw [← sortBy, hsorted, List.flatMap_map]

/-- The layer key increases with the decoder layer. -/
def Increasing (keys : List (Int × Nat)) : Prop :=
  ∀ a ∈ keys, ∀ b ∈ keys, a.1 < b.1 → a.2 < b.2

/-- The plan has every expert at the place of its layer key and its slot exactly
when both orders of the layers are the same and every row is in slot order. -/
theorem plan_agrees_iff {keys : List (Int × Nat)} {row : Nat → List Int}
    {resident : Nat → List Nat} {capacity : Nat} (hlayers : (keys.map Prod.fst).Nodup)
    (hkeys : (keys.map Prod.snd).Nodup) (hcapacity : 0 < capacity)
    (hrow : ∀ entry ∈ keys, (row entry.2).length = capacity)
    (hresident : ∀ entry ∈ keys, (resident entry.2).length = capacity) :
    (∀ (d slot : Nat) (entry : Int × Nat) (expert : Nat),
      (sortBy Prod.snd keys)[d]? = some entry → (resident entry.2)[slot]? = some expert →
        ((sortBy Prod.fst keys).flatMap fun entry =>
          (row entry.2).map fun e => (entry.1, e))[d * capacity + slot]? =
            some (entry.1, (expert : Int))) ↔
      Increasing keys ∧ ∀ entry ∈ keys, row entry.2 = (resident entry.2).map Int.ofNat := by
  have hindex : ∀ (d slot : Nat), slot < capacity →
      ((sortBy Prod.fst keys).flatMap fun entry =>
        (row entry.2).map fun e => (entry.1, e))[d * capacity + slot]? =
      (sortBy Prod.fst keys)[d]?.bind fun entry =>
        ((row entry.2).map fun e => (entry.1, e))[slot]? := by
    intro d slot hslot
    rw [Nat.mul_comm]
    apply getElem?_flatMap_uniform _ _ hslot
    intro entry hentry
    rw [List.length_map]
    exact hrow entry ((sortBy_perm Prod.fst keys).mem_iff.mp hentry)
  have hmem : ∀ {d : Nat} {entry : Int × Nat}, (sortBy Prod.snd keys)[d]? = some entry →
      entry ∈ keys := fun h => (sortBy_perm Prod.snd keys).mem_iff.mp (List.mem_of_getElem? h)
  rw [Increasing, ← sortBy_eq_iff hlayers hkeys]
  constructor
  · intro hplan
    -- the entry of the plan at a slot fixes the layer there, and its expert
    have hentry : ∀ (d slot : Nat) (entry : Int × Nat) (expert : Nat),
        (sortBy Prod.snd keys)[d]? = some entry → (resident entry.2)[slot]? = some expert →
        (sortBy Prod.fst keys)[d]? = some entry ∧ (row entry.2)[slot]? = some (expert : Int) := by
      intro d slot entry expert hd hslot
      have hlt : slot < capacity := by
        rw [← hresident entry (hmem hd)]
        exact (List.getElem?_eq_some_iff.mp hslot).1
      have hplan := hplan d slot entry expert hd hslot
      rw [hindex d slot hlt] at hplan
      obtain ⟨found, hfound, hrowfound⟩ := Option.bind_eq_some_iff.mp hplan
      rw [List.getElem?_map] at hrowfound
      obtain ⟨e, he, hpair⟩ := Option.map_eq_some_iff.mp hrowfound
      obtain ⟨hlayer, rfl⟩ := Prod.mk.inj hpair
      have hkey : found ∈ keys :=
        (sortBy_perm Prod.fst keys).mem_iff.mp (List.mem_of_getElem? hfound)
      obtain rfl : found = entry := eq_of_key_eq hlayers hkey (hmem hd) hlayer
      exact ⟨hfound, he⟩
    have hsame : sortBy Prod.fst keys = sortBy Prod.snd keys := by
      have hlength : (sortBy Prod.fst keys).length = (sortBy Prod.snd keys).length := by
        rw [(sortBy_perm _ _).length_eq, (sortBy_perm _ _).length_eq]
      apply List.ext_getElem?
      intro d
      cases hd : (sortBy Prod.snd keys)[d]? with
      | none =>
          rw [List.getElem?_eq_none_iff] at hd ⊢
          omega
      | some entry =>
          have hpos : 0 < (resident entry.2).length := by
            rw [hresident entry (hmem hd)]
            exact hcapacity
          exact (hentry d 0 entry _ hd (List.getElem?_eq_getElem hpos)).1
    refine ⟨hsame, ?_⟩
    intro entry hkey
    obtain ⟨d, hd⟩ := List.mem_iff_getElem?.mp ((sortBy_perm Prod.snd keys).mem_iff.mpr hkey)
    apply List.ext_getElem?
    intro slot
    rw [List.getElem?_map]
    cases hslot : (resident entry.2)[slot]? with
    | none =>
        rw [List.getElem?_eq_none_iff] at hslot
        rw [Option.map_none, List.getElem?_eq_none_iff, hrow entry hkey, ← hresident entry hkey]
        exact hslot
    | some expert => exact (hentry d slot entry expert hd hslot).2
  · rintro ⟨hsame, hrows⟩ d slot entry expert hd hslot
    have hlt : slot < capacity := by
      rw [← hresident entry (hmem hd)]
      exact (List.getElem?_eq_some_iff.mp hslot).1
    rw [hindex d slot hlt, hsame, hd, Option.bind_some, hrows entry (hmem hd), List.map_map,
      List.getElem?_map, hslot]
    rfl

/-! ## A plugin and its store -/

/-- A plugin whose layers are prepared for the load barrier, and a store written
for it. Every layer of the map has one provider, with the pinned fill. -/
structure Deployment where
  keys : List (Int × Nat)
  capacity : Nat
  provider : Nat → Provider
  registered : Nat
  world : World
  prepared : Nat → Provider
  owner : List Nat
  layers : List PinnedLayerGeometry
  packed : Int → Int → Fin 3 → List UInt8
  pinned : Store.Pinned
  files : List Store.StoreFile
  layersNodup : (keys.map Prod.fst).Nodup
  keysNodup : (keys.map Prod.snd).Nodup
  registry : ((List.range registered).map fun id => (provider id).config.layerKey).Perm
    (keys.map Prod.snd)
  enabled : ∀ id < registered, (provider id).config.pinnedNvmeFill = true ∧
    (provider id).config.staticPartition = true
  capacities : ∀ id < registered, (provider id).config.capacity = capacity
  fresh : ∀ id < registered, (provider id).pool.ready = false
  prepares : prepare world (sortedProviders provider registered) provider [] [] =
    (prepared, .ok (owner, layers))
  writes : Store.write packed pinned = .ok files

namespace Deployment

variable (deployment : Deployment)

/-- What the transport reads for a slot of dense layer `d` once the store lies on a
disk: in every state it can reach, the reads of the layer's batch for the slot copy
the given weights. -/
def ReadsServe (d id slot : Nat) (packed : Fin 3 → List UInt8) : Prop :=
  ∀ (storeDir : String) (disk : List UInt8) (steps : List TransportStep) (arcwell : Arcwell),
    MapsFiles deployment.world.device disk deployment.world.partStart storeDir deployment.files →
    (transportMachine deployment.world.device).run
      (openArcwell deployment.world storeDir deployment.layers) steps = some arcwell →
    ∃ geometry, arcwell.geometryFor d = some geometry ∧
      geometry.capacity = deployment.capacity ∧
      ∀ after reads, Arcwell.batchReads deployment.world.device geometry d
          ((deployment.provider id).pinnedNvmeFillBatch d).requests arcwell = (after, .ok reads) →
        CopiesTo disk geometry slot packed (slice reads (3 * slot) 3)

/-- Every slot of every layer is served from the file of the expert pinned there. -/
def Agrees : Prop :=
  ∀ (d id : Nat) (layer : Int) (slot expert : Nat), deployment.owner[d]? = some id →
    Store.byKey deployment.keys (deployment.provider id).config.layerKey = some layer →
    (deployment.provider id).config.residentExperts[slot]? = some expert →
    Store.HoldsExpert deployment.files (d * deployment.capacity + slot) layer expert ∧
      deployment.ReadsServe d id slot (deployment.packed layer expert)

theorem sortedProviders_lt {id : Nat}
    (hid : id ∈ sortedProviders deployment.provider deployment.registered) :
    id < deployment.registered := by
  have hmem := (List.perm_insertionSort _ _).mem_iff.mp hid
  exact List.mem_range.mp hmem

/-- The owners are the providers in the order of their keys, and each has its
layer's geometry. -/
theorem owner_eq : deployment.owner = sortedProviders deployment.provider deployment.registered ∧
    deployment.layers.length = deployment.owner.length ∧
      ∀ (d id : Nat), deployment.owner[d]? = some id →
      ∃ layer, deployment.layers[d]? = some layer ∧ LayerOf (deployment.provider id) d layer := by
  obtain ⟨howner, layers, hlayers, hlength, hall⟩ := prepare_layers deployment.prepares
    ((List.perm_insertionSort _ _).nodup_iff.mpr List.nodup_range)
    (fun id hid => (deployment.enabled id (deployment.sortedProviders_lt hid)).1)
    (fun id hid => deployment.fresh id (deployment.sortedProviders_lt hid))
  rw [List.nil_append] at howner hlayers
  refine ⟨howner, by rw [hlayers, howner, hlength], ?_⟩
  intro d id hid
  rw [howner] at hid
  obtain ⟨layer, hlayer, hof⟩ := hall d id hid
  rw [List.length_nil, Nat.zero_add] at hof
  rw [hlayers]
  exact ⟨layer, hlayer, hof⟩

theorem owner_lt {d id : Nat} (hid : deployment.owner[d]? = some id) :
    id < deployment.registered := by
  apply deployment.sortedProviders_lt
  rw [← deployment.owner_eq.1]
  exact List.mem_of_getElem? hid

/-- Dense layer `d` is the layer with the `d`-th smallest key. -/
theorem owner_layerKey :
    deployment.owner.map (fun id => (deployment.provider id).config.layerKey) =
      (sortBy Prod.snd deployment.keys).map Prod.snd := by
  rw [deployment.owner_eq.1]
  let layerKey (id : Nat) : Nat := (deployment.provider id).config.layerKey
  have hsorted := sortBy_pairwise layerKey (List.range deployment.registered)
  apply List.Perm.eq_of_pairwise (fun a b _ _ hab hba => Nat.le_antisymm hab hba)
  · rw [List.pairwise_map]
    exact hsorted
  · rw [List.pairwise_map]
    exact sortBy_pairwise Prod.snd deployment.keys
  · have hregistry := ((sortBy_perm layerKey (List.range deployment.registered)).map
      layerKey).trans deployment.registry
    exact hregistry.trans ((sortBy_perm Prod.snd deployment.keys).map _).symm

/-- The geometry of a dense layer is the one registered for it. -/
theorem geometryFor_owner {d id : Nat} (hid : deployment.owner[d]? = some id)
    (storeDir : String) :
    ∃ geometry, (openArcwell deployment.world storeDir deployment.layers).geometryFor d =
        some geometry ∧ LayerOf (deployment.provider id) d geometry := by
  obtain ⟨_, hlength, hlayers⟩ := deployment.owner_eq
  obtain ⟨geometry, hgeometry, hof⟩ := hlayers d id hid
  refine ⟨geometry, ?_, hof⟩
  obtain ⟨hd, hget⟩ := List.getElem?_eq_some_iff.mp hgeometry
  apply List.find?_eq_some_iff_getElem.mpr
  refine ⟨by simp [hof.index], d, hd, hget, ?_⟩
  intro j hj
  -- an earlier layer has its own index
  have hjowner : j < deployment.owner.length := by
    rw [← hlength]
    exact Nat.lt_trans hj hd
  obtain ⟨other, hother, hofother⟩ := hlayers j _ (List.getElem?_eq_getElem hjowner)
  obtain ⟨_, hgetother⟩ := List.getElem?_eq_some_iff.mp hother
  have hne : other.denseIndex ≠ d := by
    rw [hofother.index]
    exact Nat.ne_of_lt hj
  simp [openArcwell, hgetother, hne]

theorem roleByteCount_eq (t : Fin 3) : Store.roleByteCount t = Store.roleByteCount 0 := by
  match t with
  | 0 => rfl
  | 1 => rfl
  | 2 => rfl

theorem tensorBytes_eq (p : Provider) (t : Fin 3) : p.tensorBytes t = p.tensorBytes 0 := by
  unfold Provider.tensorBytes
  rw [Nat.mul_comm p.config.hiddenSize]
  split <;> rfl

/-- The reads for a slot whose file holds the expert copy the expert's weights. -/
theorem readsServe_of_holds {d id slot expert : Nat} {layer : Int}
    (hid : deployment.owner[d]? = some id)
    (hexpert : (deployment.provider id).config.residentExperts[slot]? = some expert)
    (hholds : Store.HoldsExpert deployment.files (d * deployment.capacity + slot) layer expert) :
    deployment.ReadsServe d id slot (deployment.packed layer expert) := by
  intro storeDir disk steps arcwell hmaps hrun
  obtain ⟨geometry, hgeometry, hof⟩ := deployment.geometryFor_owner hid storeDir
  have hlt := deployment.owner_lt hid
  have hcapacity := hof.capacity.trans (deployment.capacities id hlt)
  have hsame := Arcwell.sameStore_run rfl hrun
  refine ⟨geometry, (hsame.geometryFor d).trans hgeometry, hcapacity, ?_⟩
  intro after reads hreads
  have hrequest : ((deployment.provider id).pinnedNvmeFillBatch d).requests[slot]? =
      some ⟨d, expert, slot, 0, 0⟩ := by
    simp [Provider.pinnedNvmeFillBatch, (deployment.enabled id hlt).2, hexpert]
  obtain ⟨lba, len, hlba, hthree⟩ := Arcwell.batchReads_ok hgeometry hsame hreads hrequest
  obtain ⟨file, hfile, hname, hlayer, hnumber, _⟩ := hholds
  rw [hcapacity, Nat.mul_comm, ← hname] at hlba
  obtain ⟨hlen, hbytes⟩ := hmaps.lba hfile hlba
  obtain ⟨_, entry, _, _, hentry⟩ := Store.exists_index_of_mem_files deployment.writes hfile
  have hrecord := hentry.record
  have hsizes := hentry.sizes
  rw [← hentry.layer, ← hentry.expert, hlayer, hnumber] at hrecord hsizes
  rw [hrecord] at hlen hbytes
  apply copiesTo_of_record hthree hbytes hlen
  · intro t
    rw [hsizes t, hsizes 0, roleByteCount_eq]
  · intro t
    rw [hof.bytes t, hof.bytes 0, tensorBytes_eq]

/-- The files decide. -/
theorem agrees_iff_plan {resident : Nat → List Nat}
    (hresident : ∀ id < deployment.registered,
      (deployment.provider id).config.residentExperts =
        resident (deployment.provider id).config.layerKey) :
    deployment.Agrees ↔ ∀ (d slot : Nat) (entry : Int × Nat) (expert : Nat),
      (sortBy Prod.snd deployment.keys)[d]? = some entry →
      (resident entry.2)[slot]? = some expert →
      (Store.planOrder deployment.pinned)[d * deployment.capacity + slot]? =
        some (entry.1, (expert : Int)) := by
  -- the owner of a dense layer has the key of the map's entry there
  have hkey : ∀ d : Nat, deployment.owner[d]?.map
      (fun id => (deployment.provider id).config.layerKey) =
        (sortBy Prod.snd deployment.keys)[d]?.map Prod.snd := by
    intro d
    rw [← List.getElem?_map, ← List.getElem?_map, deployment.owner_layerKey]
  have hmem : ∀ {d : Nat} {entry : Int × Nat},
      (sortBy Prod.snd deployment.keys)[d]? = some entry → entry ∈ deployment.keys :=
    fun h => (sortBy_perm Prod.snd deployment.keys).mem_iff.mp (List.mem_of_getElem? h)
  constructor
  · intro hagrees d slot entry expert hd hslot
    have hown := hkey d
    rw [hd, Option.map_some, Option.map_eq_some_iff] at hown
    obtain ⟨id, hid, hlayerKey⟩ := hown
    rw [← hlayerKey] at hslot
    rw [← hresident id (deployment.owner_lt hid)] at hslot
    have hlayer := byKey_of_mem deployment.keysNodup (hmem hd)
    rw [← hlayerKey] at hlayer
    exact (Store.holdsExpert_iff deployment.writes _ _ _).mp
      (hagrees d id entry.1 slot expert hid hlayer hslot).1
  · intro hplan d id layer slot expert hid hlayer hexpert
    have hown := hkey d
    rw [hid, Option.map_some] at hown
    obtain ⟨entry, hd, hlayerKey⟩ := Option.map_eq_some_iff.mp hown.symm
    rw [← hlayerKey, byKey_of_mem deployment.keysNodup (hmem hd)] at hlayer
    cases hlayer
    have hslot := hexpert
    rw [hresident id (deployment.owner_lt hid), ← hlayerKey] at hslot
    have hholds := (Store.holdsExpert_iff deployment.writes _ _ _).mpr
      (hplan d slot entry expert hd hslot)
    exact ⟨hholds, deployment.readsServe_of_holds hid hexpert hholds⟩

/-- When the store and the plugin agree, for rows and resident sets of the pools'
capacity. -/
theorem agrees_iff_increasing (row : Nat → List Int) (resident : Nat → List Nat)
    (hpinned : deployment.pinned.Perm
      (deployment.keys.map fun entry => (entry.1, row entry.2)))
    (hresident : ∀ id < deployment.registered,
      (deployment.provider id).config.residentExperts =
        resident (deployment.provider id).config.layerKey)
    (hrow : ∀ entry ∈ deployment.keys, (row entry.2).length = deployment.capacity)
    (hlength : ∀ entry ∈ deployment.keys, (resident entry.2).length = deployment.capacity) :
    deployment.Agrees ↔ deployment.capacity = 0 ∨ Increasing deployment.keys ∧
      ∀ entry ∈ deployment.keys, row entry.2 = (resident entry.2).map Int.ofNat := by
  rw [deployment.agrees_iff_plan hresident, planOrder_eq deployment.layersNodup hpinned]
  rcases Nat.eq_zero_or_pos deployment.capacity with hzero | hpos
  · refine ⟨fun _ => .inl hzero, ?_⟩
    intro _ d slot entry expert hd hslot
    have hentry := (sortBy_perm Prod.snd deployment.keys).mem_iff.mp (List.mem_of_getElem? hd)
    rw [List.length_eq_zero_iff.mp ((hlength entry hentry).trans hzero)] at hslot
    cases hslot
  · rw [plan_agrees_iff deployment.layersNodup deployment.keysNodup hpos hrow hlength]
    constructor
    · exact .inr
    · rintro (hzero | hboth)
      · rw [hzero] at hpos
        exact absurd hpos (Nat.lt_irrefl 0)
      · exact hboth

end Deployment

/-! ## The census seed and the static partition -/

theorem CensusSeed.residentExperts_ok {seed : CensusSeed} {layerKey numExpert capacity : Nat}
    {experts : List Nat} (h : seed.residentExperts layerKey numExpert capacity = .ok experts) :
    ∃ listed, seed.lookup layerKey = some listed ∧ listed.length = capacity ∧
      experts = listed.insertionSort (· ≤ ·) := by
  unfold residentExperts at h
  split at h
  next => cases h
  next listed hlisted =>
    simp only [bind_ok, ensure_ok] at h
    obtain ⟨_, hlength, _, _, hexperts⟩ := h
    cases hexperts
    exact ⟨listed, hlisted, hlength, rfl⟩

theorem lookup_of_mem {seed : CensusSeed} (hnodup : (seed.map Prod.fst).Nodup)
    {row : Nat × List Nat} (hrow : row ∈ seed) : seed.lookup row.1 = some row.2 := by
  induction seed with
  | nil => cases hrow
  | cons head rest ih =>
      obtain ⟨hhead, hrest⟩ := List.nodup_cons.mp hnodup
      rcases List.mem_cons.mp hrow with rfl | hrow
      · exact List.lookup_cons_self
      · have hne : row.1 ≠ head.1 := by
          intro heq
          exact hhead (heq ▸ List.mem_map_of_mem hrow)
        rw [List.lookup_cons, beq_eq_false_iff_ne.mpr hne]
        exact ih hrest hrow

/-- What the seed lists for a layer key. -/
def CensusSeed.listed (seed : CensusSeed) (layerKey : Nat) : List Nat :=
  (seed.lookup layerKey).getD []

section Census

variable {text : List Char} {seed : CensusSeed} (hseed : CensusSeed.parse text = .ok seed)

include hseed

theorem CensusSeed.keys_nodup : (seed.map Prod.fst).Nodup :=
  (CensusSeed.parse_ok hseed).1.keys (by simp)

/-- The writer's pinned set gives each layer of the map what the seed lists under
its key. -/
theorem loadPinned_perm {json : List Char → Except String Store.Pinned} {path : String}
    {keys : List (Int × Nat)} {pinned : Store.Pinned}
    (hpinned : Store.loadPinned json path text (some keys) = .ok pinned)
    (hkeys : (keys.map Prod.snd).Nodup)
    (hcover : ∀ key, key ∈ keys.map Prod.snd ↔ key ∈ seed.map Prod.fst) :
    pinned.Perm (keys.map fun entry => (entry.1, (seed.listed entry.2).map Int.ofNat)) := by
  let place (key : Nat) : Int × List Int :=
    ((Store.byKey keys (key : Int)).getD 0, (seed.listed key).map Int.ofNat)
  have hwriter : pinned = (seed.map Prod.fst).map place := by
    rw [(loadPinned_eq hseed hpinned fun key => (hcover key).mp).1, CensusSeed.toRows,
      List.map_map, List.map_map]
    apply List.map_congr_left
    intro row hrow
    simp [place, CensusSeed.listed, lookup_of_mem (CensusSeed.keys_nodup hseed) hrow]
  have hplugin : keys.map (fun entry => (entry.1, (seed.listed entry.2).map Int.ofNat)) =
      (keys.map Prod.snd).map place := by
    rw [List.map_map]
    apply List.map_congr_left
    intro entry hentry
    simp [place, byKey_of_mem hkeys hentry]
  rw [hwriter, hplugin]
  apply List.Perm.map
  apply (List.perm_ext_iff_of_nodup (CensusSeed.keys_nodup hseed) hkeys).mpr
  intro key
  exact (hcover key).symm

theorem CensusSeed.row_ne_nil {row : Nat × List Nat} (hrow : row ∈ seed) : row.2 ≠ [] := by
  obtain ⟨hreads, _⟩ := CensusSeed.parse_ok hseed
  rw [hreads.rows, List.nil_append, List.mem_flatMap] at hrow
  obtain ⟨line, hline, hrow⟩ := hrow
  exact hreads.nonempty line hline row hrow

end Census

theorem insertionSort_eq_self_iff (l : List Nat) :
    l = l.insertionSort (· ≤ ·) ↔ l.Pairwise (· ≤ ·) := by
  constructor
  · intro heq
    rw [heq]
    exact List.pairwise_insertionSort _ l
  · intro hsorted
    exact hsorted.insertionSort_eq.symm

/-- With one census seed for both sides. -/
theorem Deployment.agrees_census_iff (deployment : Deployment) {text : List Char}
    {seed : CensusSeed} {json : List Char → Except String Store.Pinned} {path : String}
    {numExpert : Nat} (hseed : CensusSeed.parse text = .ok seed)
    (hpinned : Store.loadPinned json path text (some deployment.keys) = .ok deployment.pinned)
    (hcover : ∀ key, key ∈ deployment.keys.map Prod.snd ↔ key ∈ seed.map Prod.fst)
    (hpins : ∀ id < deployment.registered, ∃ experts,
      seed.residentExperts (deployment.provider id).config.layerKey numExpert
          deployment.capacity = .ok experts ∧
        (deployment.provider id).config.censusSeed = some experts) :
    deployment.Agrees ↔
      Increasing deployment.keys ∧ ∀ row ∈ seed, row.2.Pairwise (· ≤ ·) := by
  have hnodup := CensusSeed.keys_nodup hseed
  -- every key of the map has a provider, so its row has the pool's length
  have hlisted : ∀ entry ∈ deployment.keys, (seed.listed entry.2).length = deployment.capacity := by
    intro entry hentry
    have hkey := deployment.registry.mem_iff.mpr (List.mem_map_of_mem hentry)
    obtain ⟨id, hid, hlayerKey⟩ := List.mem_map.mp hkey
    obtain ⟨experts, hexperts, _⟩ := hpins id (List.mem_range.mp hid)
    obtain ⟨listed, hlookup, hlength, _⟩ := CensusSeed.residentExperts_ok hexperts
    rw [hlayerKey] at hlookup
    rw [CensusSeed.listed, hlookup]
    exact hlength
  have hresident : ∀ id < deployment.registered,
      (deployment.provider id).config.residentExperts =
        (seed.listed (deployment.provider id).config.layerKey).insertionSort (· ≤ ·) := by
    intro id hid
    obtain ⟨experts, hexperts, hcensus⟩ := hpins id hid
    obtain ⟨listed, hlookup, _, rfl⟩ := CensusSeed.residentExperts_ok hexperts
    rw [ProviderConfig.residentExperts, hcensus, CensusSeed.listed, hlookup]
    rfl
  have hrow : ∀ row ∈ seed, ∃ entry ∈ deployment.keys, entry.2 = row.1 ∧
      seed.listed entry.2 = row.2 := by
    intro row hrow
    obtain ⟨entry, hentry, hkey⟩ :=
      List.mem_map.mp ((hcover row.1).mpr (List.mem_map_of_mem hrow))
    refine ⟨entry, hentry, hkey, ?_⟩
    rw [CensusSeed.listed, hkey, lookup_of_mem hnodup hrow]
    rfl
  have hpos : deployment.capacity ≠ 0 := by
    obtain ⟨row, hmem⟩ := List.exists_mem_of_ne_nil _ (CensusSeed.parse_ok hseed).2
    obtain ⟨entry, hentry, _, hlist⟩ := hrow row hmem
    intro hzero
    have hlength := hlisted entry hentry
    rw [hlist, hzero] at hlength
    exact CensusSeed.row_ne_nil hseed hmem (List.length_eq_zero_iff.mp hlength)
  rw [deployment.agrees_iff_increasing (fun key => (seed.listed key).map Int.ofNat)
    (fun key => (seed.listed key).insertionSort (· ≤ ·))
    (loadPinned_perm hseed hpinned deployment.keysNodup hcover) hresident
    (by simpa using hlisted) (by simpa using hlisted)]
  have hascending : (∀ entry ∈ deployment.keys, (seed.listed entry.2).map Int.ofNat =
      ((seed.listed entry.2).insertionSort (· ≤ ·)).map Int.ofNat) ↔
      ∀ row ∈ seed, row.2.Pairwise (· ≤ ·) := by
    constructor
    · intro hall row hmem
      obtain ⟨entry, hentry, _, hlist⟩ := hrow row hmem
      have hequal := hall entry hentry
      rw [hlist] at hequal
      rw [← insertionSort_eq_self_iff]
      exact List.map_injective_iff.mpr (fun a b h => Int.ofNat.inj h) hequal
    · intro hall entry hentry
      obtain ⟨row, hmem, hkey⟩ :=
        List.mem_map.mp ((hcover entry.2).mp (List.mem_map_of_mem hentry))
      have hlist : seed.listed entry.2 = row.2 := by
        rw [CensusSeed.listed, ← hkey, lookup_of_mem hnodup hmem]
        rfl
      rw [hlist, (hall row hmem).insertionSort_eq]
  rw [hascending]
  exact ⟨fun h => h.resolve_left hpos, .inr⟩

/-- With the static partition of one seed on both sides. -/
theorem Deployment.agrees_splitmix_iff (deployment : Deployment) {seed : UInt64} {numExpert : Nat}
    (hpinned : deployment.pinned = Store.splitmixPinned seed.toNat deployment.keys numExpert
      deployment.capacity)
    (hcount : numExpert ≤ 2 ^ 32) (hcapacity : deployment.capacity ≤ numExpert)
    (hpins : ∀ id < deployment.registered,
      (deployment.provider id).config.censusSeed = none ∧
        (deployment.provider id).config.staticSeed = seed ∧
        (deployment.provider id).config.numExpert = numExpert) :
    deployment.Agrees ↔ deployment.capacity = 0 ∨ Increasing deployment.keys := by
  let resident (key : Nat) : List Nat :=
    staticPartitionResidentExperts seed key numExpert deployment.capacity
  have hlength : ∀ key, (resident key).length = deployment.capacity := by
    intro key
    exact (smallestRanked_length _ _ _).trans (Nat.min_eq_left hcapacity)
  have hwriter : deployment.pinned =
      deployment.keys.map fun entry => (entry.1, (resident entry.2).map Int.ofNat) := by
    rw [hpinned, Store.splitmixPinned]
    apply List.map_congr_left
    intro entry _
    rw [← staticPartitionResidentExperts_eq seed entry.2 numExpert _ hcount]
  have hresident : ∀ id < deployment.registered,
      (deployment.provider id).config.residentExperts =
        resident (deployment.provider id).config.layerKey := by
    intro id hid
    obtain ⟨hcensus, hown, hexperts⟩ := hpins id hid
    rw [ProviderConfig.residentExperts, hcensus, hown, hexperts, deployment.capacities id hid]
  rw [deployment.agrees_iff_increasing (fun key => (resident key).map Int.ofNat) resident
    (hwriter ▸ List.Perm.refl _) hresident (by simp [hlength]) (by simp [hlength])]
  simp

/-- Store and plugin were given one census seed, whose keys are those of the map. -/
structure Deployment.SharesCensus (deployment : Deployment) (text : List Char) (seed : CensusSeed)
    (numExpert : Nat) : Prop where
  parses : CensusSeed.parse text = .ok seed
  loads : ∃ json path,
    Store.loadPinned json path text (some deployment.keys) = .ok deployment.pinned
  covers : ∀ key, key ∈ deployment.keys.map Prod.snd ↔ key ∈ seed.map Prod.fst
  pins : ∀ id < deployment.registered, ∃ experts,
    seed.residentExperts (deployment.provider id).config.layerKey numExpert
        deployment.capacity = .ok experts ∧
      (deployment.provider id).config.censusSeed = some experts

/-- Store and plugin rank the experts with one seed; the expert count is a 32-bit
number. -/
structure Deployment.SharesPartition (deployment : Deployment) (seed : UInt64) (numExpert : Nat) :
    Prop where
  pinned : deployment.pinned =
    Store.splitmixPinned seed.toNat deployment.keys numExpert deployment.capacity
  count : numExpert < 2 ^ 32
  capacity : deployment.capacity ≤ numExpert
  pins : ∀ id < deployment.registered,
    (deployment.provider id).config.censusSeed = none ∧
      (deployment.provider id).config.staticSeed = seed ∧
      (deployment.provider id).config.numExpert = numExpert

/-- Where both sides take the pinned experts from. -/
inductive PinnedSource where
  | census (text : List Char) (seed : CensusSeed)
  | splitmix (seed : UInt64)

namespace Deployment

/-- Store and plugin have one source of the pinned experts. -/
def Shares (deployment : Deployment) (numExpert : Nat) : PinnedSource → Prop
  | .census text seed => deployment.SharesCensus text seed numExpert
  | .splitmix seed => deployment.SharesPartition seed numExpert

/-- The writer's two orders are the plugin's. -/
def InOrder (deployment : Deployment) : PinnedSource → Prop
  | .census _ seed => Increasing deployment.keys ∧ ∀ row ∈ seed, row.2.Pairwise (· ≤ ·)
  | .splitmix _ => deployment.capacity = 0 ∨ Increasing deployment.keys

/-- Exactly when every slot is served from the file of its own expert. -/
theorem agrees_iff (deployment : Deployment) (source : PinnedSource) (numExpert : Nat)
    (hshares : deployment.Shares numExpert source) :
    deployment.Agrees ↔ deployment.InOrder source := by
  cases source with
  | census text seed =>
      obtain ⟨hparses, ⟨json, path, hloads⟩, hcovers, hpins⟩ := hshares
      exact deployment.agrees_census_iff hparses hloads hcovers hpins
  | splitmix seed =>
      obtain ⟨hpinned, hcount, hcapacity, hpins⟩ := hshares
      exact deployment.agrees_splitmix_iff hpinned (Nat.le_of_lt hcount) hcapacity hpins

end Deployment

/-! ## A disk with the store -/

section Disk

/-- The records, one behind the other, from byte 4096 of the partition on. -/
def storeDisk (files : List Store.StoreFile) : List UInt8 :=
  List.replicate (512 * 2048 + 4096) 0 ++ files.flatMap Store.StoreFile.record

/-- What the driver of such a disk answers is the truth. -/
theorem storeDisk_maps {packed : Int → Int → Fin 3 → List UInt8} {pinned : Store.Pinned}
    {files : List Store.StoreFile} (hwrite : Store.write packed pinned = .ok files) (count : Nat)
    (submit : Nat → List ReadBlocks → SubmitAnswer) :
    MapsFiles (storeDevice Store.expertSliceBytes count submit) (storeDisk files) 2048 "/store"
      files where
  mapped file hfile fm hfm _ _ := by
    have hlength : ∀ file ∈ files, file.record.length = Store.expertSliceBytes := by
      intro file hfile
      obtain ⟨_, _, _, _, hof⟩ := Store.exists_index_of_mem_files hwrite hfile
      rw [hof.record, List.length_append, List.length_append, hof.sizes, hof.sizes, hof.sizes]
      rfl
    obtain ⟨i, _, hi, _, hof⟩ := Store.exists_index_of_mem_files hwrite hfile
    simp only [storeDevice] at hfm
    split at hfm
    next j hj =>
      cases hfm
      have hfound := List.find?_some hj
      rw [decide_eq_true_iff, String.append_right_inj, hof.name] at hfound
      obtain rfl := expertFileName_injective hfound
      refine ⟨(hlength file hfile).symm, ?_, ?_⟩
      · exact Nat.dvd_add (by decide) (Nat.dvd_mul_right_of_dvd (by decide) _)
      · have hstart : 512 * 2048 + (4096 + Store.expertSliceBytes * i) =
            (List.replicate (512 * 2048 + 4096) (0 : UInt8)).length +
              i * Store.expertSliceBytes := by
          rw [List.length_replicate, Nat.mul_comm i, Nat.add_assoc]
        rw [storeDisk, hstart, slice_append_right]
        exact slice_flatMap hlength hi
    next => cases hfm

end Disk

/-! ## Two layers of two experts -/

section TwoLayers

theorem writePlan_total {packed : Int → Int → Fin 3 → List UInt8}
    (hsizes : ∀ layer expert role, (packed layer expert role).length = Store.roleByteCount role)
    (plan : List (Int × Int)) (ordinal : Nat) :
    ∃ files, Store.writePlan packed plan ordinal = .ok files := by
  induction plan generalizing ordinal with
  | nil => exact ⟨[], rfl⟩
  | cons entry rest ih =>
      obtain ⟨layer, expert⟩ := entry
      obtain ⟨files, hfiles⟩ := ih (ordinal + 1)
      have hrecord : Store.deviceOrderWeightRecord (packed layer expert) =
          .ok (packed layer expert 0 ++ packed layer expert 1 ++ packed layer expert 2) := by
        simp only [Store.deviceOrderWeightRecord, bind_ok, checkAll_ok, ensure_ok]
        exact ⟨(), fun role _ => hsizes layer expert role, rfl⟩
      simp only [Store.writePlan, bind_ok, ensure_ok]
      refine ⟨_, _, hrecord, (), ?_, files, hfiles, rfl⟩
      simp only [List.length_append, hsizes]
      rfl

/-- Providers of two slots for the keys 5 and 9. -/
def twoLayerProvider (census : Option (List Nat)) (id : Nat) : Provider :=
  .new ⟨if id = 0 then 5 else 9, 2, 2, true, 7, census, true, 0, 0, 640, 2560⟩

/-- No two of the weights agree. -/
def twoLayerPacked (layer expert : Int) (role : Fin 3) : List UInt8 :=
  List.replicate (Store.roleByteCount role)
    (UInt8.ofNat (6 * layer.toNat + 3 * expert.toNat + role.val))

/-- The driver of a store of four files. -/
def twoLayerWorld : World := storeWorld Store.expertSliceBytes 4 1638400 accepts

def twoLayerPrepare (census : Option (List Nat)) :
    (Nat → Provider) × Except String (List Nat × List PinnedLayerGeometry) :=
  prepare twoLayerWorld (sortedProviders (twoLayerProvider census) 2)
    (twoLayerProvider census) [] []

/-- Both providers with the given pinned experts, and a store for a map. -/
def twoLayerDeployment (census : Option (List Nat)) (keys : List (Int × Nat))
    (pinned : Store.Pinned) (hlayers : (keys.map Prod.fst).Nodup)
    (hkeys : (keys.map Prod.snd).Nodup) (hregistry : [5, 9].Perm (keys.map Prod.snd))
    (hprepare : ∃ found, (twoLayerPrepare census).2 = .ok found) : Deployment where
  keys := keys
  capacity := 2
  provider := twoLayerProvider census
  registered := 2
  world := twoLayerWorld
  prepared := (twoLayerPrepare census).1
  owner := ((twoLayerPrepare census).2.toOption.getD ([], [])).1
  layers := ((twoLayerPrepare census).2.toOption.getD ([], [])).2
  packed := twoLayerPacked
  pinned := pinned
  files := (Store.write twoLayerPacked pinned).toOption.getD []
  layersNodup := hlayers
  keysNodup := hkeys
  registry := hregistry
  enabled _ _ := ⟨rfl, rfl⟩
  capacities _ _ := rfl
  fresh _ _ := rfl
  prepares := by
    obtain ⟨found, hfound⟩ := hprepare
    rw [hfound]
    exact Prod.ext rfl hfound
  writes := by
    have hsizes : ∀ layer expert role,
        (twoLayerPacked layer expert role).length = Store.roleByteCount role :=
      fun _ _ _ => List.length_replicate
    obtain ⟨files, hfiles⟩ := writePlan_total hsizes (Store.planOrder pinned) 0
    rw [Store.write, hfiles]
    rfl

theorem twoLayerPrepare_census : ∃ found, (twoLayerPrepare (some [0, 1])).2 = .ok found :=
  ⟨_, rfl⟩

theorem twoLayerPrepare_partition : ∃ found, (twoLayerPrepare none).2 = .ok found :=
  ⟨_, rfl⟩

theorem twoLayerDeployment_shares {text : List Char} {seed : CensusSeed}
    {keys : List (Int × Nat)} {pinned : Store.Pinned} (hlayers : (keys.map Prod.fst).Nodup)
    (hkeys : (keys.map Prod.snd).Nodup) (hregistry : [5, 9].Perm (keys.map Prod.snd))
    (hparse : CensusSeed.parse text = .ok seed)
    (hload : Store.loadPinned (fun _ => .error "") "" text (some keys) = .ok pinned)
    (hcover : [5, 9].Perm (seed.map Prod.fst))
    (hpins : ∀ key ∈ [5, 9], seed.residentExperts key 2 2 = .ok [0, 1]) :
    (twoLayerDeployment (some [0, 1]) keys pinned hlayers hkeys hregistry
      twoLayerPrepare_census).SharesCensus text seed 2 where
  parses := hparse
  loads := ⟨_, _, hload⟩
  covers key := (hregistry.mem_iff).symm.trans hcover.mem_iff
  pins id _ := by
    refine ⟨[0, 1], hpins _ ?_, rfl⟩
    change (if id = 0 then 5 else 9) ∈ [5, 9]
    split <;> simp

/-- The experts of the first layer out of order. -/
def unsortedText : List Char := "# space=layer_key\n5 1 0\n9 0 1\n".toList

def unsortedDeployment : Deployment :=
  twoLayerDeployment (some [0, 1]) [(0, 5), (1, 9)] [(0, [1, 0]), (1, [0, 1])] (by decide)
    (by decide) (by decide) twoLayerPrepare_census

/-- Lines out of order, experts in order. -/
def sortedText : List Char := "# space=layer_key\n9 0 1\n5 0 1\n".toList

def sortedDeployment : Deployment :=
  twoLayerDeployment (some [0, 1]) [(0, 5), (1, 9)] [(1, [0, 1]), (0, [0, 1])] (by decide)
    (by decide) (by decide) twoLayerPrepare_census

/-- The key of the first decoder layer is the larger one. -/
def decreasingDeployment : Deployment :=
  twoLayerDeployment (some [0, 1]) [(0, 9), (1, 5)] [(0, [0, 1]), (1, [0, 1])] (by decide)
    (by decide) (by decide) twoLayerPrepare_census

def partitionDeployment : Deployment :=
  twoLayerDeployment none [(0, 5), (1, 9)] (Store.splitmixPinned 7 [(0, 5), (1, 9)] 2 2)
    (by decide) (by decide) (by decide) twoLayerPrepare_partition

/-- Slot 0 of the first layer is to hold expert 0 and is filled from the file of
expert 1; with decreasing keys each layer is filled from the other's files. -/
theorem agrees_fails_two_layers :
    (unsortedDeployment.SharesCensus unsortedText [(5, [1, 0]), (9, [0, 1])] 2 ∧
      ¬unsortedDeployment.Agrees) ∧
    decreasingDeployment.SharesCensus sortedText [(9, [0, 1]), (5, [0, 1])] 2 ∧
      ¬decreasingDeployment.Agrees := by
  have hunsorted : unsortedDeployment.SharesCensus unsortedText [(5, [1, 0]), (9, [0, 1])] 2 :=
    twoLayerDeployment_shares (by decide) (by decide) (by decide) rfl rfl (by decide)
      (by simp [CensusSeed.residentExperts]; decide)
  have hdecreasing : decreasingDeployment.SharesCensus sortedText [(9, [0, 1]), (5, [0, 1])] 2 :=
    twoLayerDeployment_shares (by decide) (by decide) (by decide) rfl rfl (by decide)
      (by simp [CensusSeed.residentExperts]; decide)
  refine ⟨⟨hunsorted, ?_⟩, hdecreasing, ?_⟩
  · intro hagrees
    obtain ⟨json, path, hloads⟩ := hunsorted.loads
    rw [Deployment.agrees_census_iff _ hunsorted.parses hloads hunsorted.covers hunsorted.pins]
      at hagrees
    exact absurd (hagrees.2 (5, [1, 0]) (by decide)) (by decide)
  · intro hagrees
    obtain ⟨json, path, hloads⟩ := hdecreasing.loads
    rw [Deployment.agrees_census_iff _ hdecreasing.parses hloads hdecreasing.covers
      hdecreasing.pins] at hagrees
    exact absurd (hagrees.1 (0, 9) (by decide) (1, 5) (by decide) (by decide)) (by decide)

/-- With the store on its disk, the reads of a slot succeed and copy the weights of
the expert. -/
def ServesSlot (deployment : Deployment) (d id slot : Nat) (layer expert : Int) : Prop :=
  MapsFiles deployment.world.device (storeDisk deployment.files) deployment.world.partStart "/store"
      deployment.files ∧
    ∃ geometry after reads,
      Arcwell.batchReads deployment.world.device geometry d
          ((deployment.provider id).pinnedNvmeFillBatch d).requests
          (openArcwell deployment.world "/store" deployment.layers) = (after, .ok reads) ∧
        CopiesTo (storeDisk deployment.files) geometry slot (deployment.packed layer expert)
          (slice reads (3 * slot) 3)

theorem servesSlot_of_agrees {deployment : Deployment}
    (hdeployment : deployment = sortedDeployment ∨ deployment = partitionDeployment)
    (hagrees : deployment.Agrees) (d slot : Fin 2) : ServesSlot deployment d d slot d slot := by
  have hmaps : MapsFiles deployment.world.device (storeDisk deployment.files)
      deployment.world.partStart "/store" deployment.files := by
    have hwrites := deployment.writes
    obtain rfl | rfl := hdeployment
    · exact storeDisk_maps hwrites 4 accepts
    · exact storeDisk_maps hwrites 4 accepts
  have hserves := (hagrees d d d slot slot ?_ ?_ ?_).2
  · obtain ⟨geometry, hgeometry, _, hcopies⟩ := hserves "/store" _ [] _ hmaps rfl
    have hreads : ∃ after reads, Arcwell.batchReads deployment.world.device geometry d
        ((deployment.provider d).pinnedNvmeFillBatch d).requests
        (openArcwell deployment.world "/store" deployment.layers) = (after, .ok reads) := by
      obtain rfl | rfl := hdeployment <;> match d with
        | 0 =>
            cases hgeometry
            exact ⟨_, _, rfl⟩
        | 1 =>
            cases hgeometry
            exact ⟨_, _, rfl⟩
    obtain ⟨after, reads, heq⟩ := hreads
    exact ⟨hmaps, geometry, after, reads, heq, hcopies after reads heq⟩
  all_goals
    obtain rfl | rfl := hdeployment <;> match d, slot with
      | 0, 0 => rfl
      | 0, 1 => rfl
      | 1, 0 => rfl
      | 1, 1 => rfl

theorem agrees_iff_two_layers :
    (sortedDeployment.Agrees ∧ ∀ d slot : Fin 2, ServesSlot sortedDeployment d d slot d slot) ∧
      partitionDeployment.Agrees ∧
        ∀ d slot : Fin 2, ServesSlot partitionDeployment d d slot d slot := by
  have hcensus : sortedDeployment.SharesCensus sortedText [(9, [0, 1]), (5, [0, 1])] 2 :=
    twoLayerDeployment_shares (by decide) (by decide) (by decide) rfl rfl (by decide)
      (by simp [CensusSeed.residentExperts]; decide)
  have hpartition : partitionDeployment.SharesPartition 7 2 :=
    ⟨rfl, by decide, Nat.le_refl 2, fun _ _ => ⟨rfl, rfl, rfl⟩⟩
  have hincreasing : Increasing [(0, 5), (1, 9)] := by
    unfold Increasing
    decide
  have hsorted := (Deployment.agrees_iff _ (.census _ _) 2 hcensus).mpr ⟨hincreasing, by decide⟩
  have hranked := (Deployment.agrees_iff _ (.splitmix 7) 2 hpartition).mpr (.inr hincreasing)
  exact ⟨⟨hsorted, servesSlot_of_agrees (.inl rfl) hsorted⟩, hranked,
    servesSlot_of_agrees (.inr rfl) hranked⟩

end TwoLayers

end Arcint.Fill
