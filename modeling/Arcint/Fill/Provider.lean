import Arcint.Fill.Arcwell
import Arcint.Fill.Partition

/-! # The expert provider of one layer

The part of `OffloadExpertWeightProvider` that the pinned fill uses: the slot
cache, the reservation of the pinned set, the registered pools and what `bind`
does with them.
-/

namespace Arcint.Fill

open Foundation

attribute [local instance] neZero_three

/-- The slot cache before any traffic: the pinned experts with their slots, in
the order they were reserved, and the slots marked filled. -/
structure SlotCache where
  maxTotalExperts : Nat
  pinned : List (Nat × Nat)
  filled : List Nat
  deriving DecidableEq, Repr

namespace SlotCache

def reservePinned (cache : SlotCache) (expert slot : Nat) : Except String SlotCache := do
  ensure (slot < cache.maxTotalExperts)
    ("LRUCache::reserve_pinned: slot " ++ toString slot ++ " out of range [0, " ++
      toString cache.maxTotalExperts ++ ")")
  ensure (slot ∉ cache.pinned.map Prod.snd)
    ("LRUCache::reserve_pinned: slot " ++ toString slot ++ " already pinned")
  ensure (expert ∉ cache.pinned.map Prod.fst)
    ("LRUCache::reserve_pinned: expert " ++ toString expert ++ " already present in the cache")
  return { cache with pinned := cache.pinned ++ [(expert, slot)] }

def setFilled (cache : SlotCache) (slot : Nat) : SlotCache :=
  { cache with filled := cache.filled ++ [slot] }

end SlotCache

/-- What a provider is constructed with. -/
structure ProviderConfig where
  layerKey : Nat
  numExpert : Nat
  capacity : Nat
  staticPartition : Bool
  staticSeed : UInt64
  /-- The layer's census set, when a census seed is active. -/
  censusSeed : Option (List Nat)
  pinnedNvmeFill : Bool
  gateUpWeightFormat : Nat
  downWeightFormat : Nat
  interSize : Nat
  hiddenSize : Nat
  deriving DecidableEq, Repr

/-- The layer's pinned set, in slot order. -/
def ProviderConfig.residentExperts (config : ProviderConfig) : List Nat :=
  match config.censusSeed with
  | some seed => seed
  | none =>
      staticPartitionResidentExperts config.staticSeed config.layerKey config.numExpert
        config.capacity

/-- The registered buffers of the three weight tensors. A descriptor is `none`
before registration and after the import closed it. -/
structure PinnedNvmePool where
  awHandle : Fin 3 → Nat
  primeFd : Fin 3 → Option Nat
  tensorBytes : Fin 3 → Nat
  ready : Bool

def PinnedNvmePool.empty : PinnedNvmePool := ⟨fun _ => 0, fun _ => none, fun _ => 0, false⟩

structure Provider where
  config : ProviderConfig
  cache : SlotCache
  staticPartitionReserved : Bool
  pool : PinnedNvmePool

/-- What the engine answers to one `bind`: the byte count of each full weight
layout, whether the import of a buffer succeeds, and how the upload of a slot's
scales ends. -/
structure Engine where
  layoutBytes : Fin 3 → Nat
  importBuffer : Fin 3 → Bool
  fillWeightsMemory : Nat → Except String Unit

namespace Provider

def new (config : ProviderConfig) : Provider :=
  ⟨config, ⟨config.capacity, [], []⟩, false, .empty⟩

/-- The loop of the reservation, from slot `slot` on. -/
def reserveFrom : List Nat → Nat → SlotCache → SlotCache × Except String Unit
  | [], _, cache => (cache, .ok ())
  | expert :: rest, slot, cache =>
      match cache.reservePinned expert slot with
      | .error reason => (cache, .error reason)
      | .ok cache => reserveFrom rest (slot + 1) cache

def reserveStaticPartition (p : Provider) : Provider × Except String Unit :=
  if p.config.staticPartition = false ∨ p.staticPartitionReserved = true then (p, .ok ())
  else
    match reserveFrom p.config.residentExperts 0 p.cache with
    | (cache, .error reason) => ({ p with cache := cache }, .error reason)
    | (cache, .ok ()) => ({ p with cache := cache, staticPartitionReserved := true }, .ok ())

/-- The layer's pinned set as one batch under its dense index. -/
def pinnedNvmeFillBatch (p : Provider) (layerIndex : Nat) : FillBatch where
  layer := layerIndex
  requests :=
    if p.config.staticPartition = false then []
    else p.config.residentExperts.mapIdx fun slot expert => ⟨layerIndex, expert, slot, 0, 0⟩

def applyPinnedNvmeFillSlot (p : Provider) (slot : Nat) : Provider :=
  { p with cache := p.cache.setFilled slot }

/-- The packed u4 bytes of one expert's gate, up and down weights. -/
def tensorBytes (p : Provider) (t : Fin 3) : Nat :=
  if t = 2 then p.config.hiddenSize * p.config.interSize / 2
  else p.config.interSize * p.config.hiddenSize / 2

/-- Register the buffers of the tensors, in order. -/
def registerTensors (registerBo : Fin 3 → Except String (Nat × Nat)) :
    List (Fin 3) → Provider → Provider × Except String Unit
  | [], p => ({ p with pool := { p.pool with ready := true } }, .ok ())
  | t :: rest, p =>
      if p.tensorBytes t = 0 ∨ p.tensorBytes t % 4096 ≠ 0 then
        (p, .error "pinned NVMe fill: tensor byte size is not page-aligned")
      else
        match registerBo t with
        | .error reason => (p, .error reason)
        | .ok (handle, fd) =>
            registerTensors registerBo rest { p with pool := { p.pool with
              awHandle := Function.update p.pool.awHandle t handle
              primeFd := Function.update p.pool.primeFd t (some fd)
              tensorBytes := Function.update p.pool.tensorBytes t (p.tensorBytes t) } }

def createPinnedNvmePool (registerBo : Fin 3 → Except String (Nat × Nat)) (p : Provider) :
    Provider × Except String Unit :=
  if p.pool.ready = true then (p, .ok ())
  else if p.config.gateUpWeightFormat ≠ 0 ∨ p.config.downWeightFormat ≠ 0 then
    (p, .error ("pinned NVMe fill is u4-only in this patch: layer " ++
      toString p.config.layerKey ++ " carries a native expert format"))
  else registerTensors registerBo (List.finRange 3) p

def pinnedNvmeGeometry (p : Provider) (denseIndex : Nat) : PinnedLayerGeometry where
  awHandle := p.pool.awHandle
  tensorBytes := p.pool.tensorBytes
  capacity := p.config.capacity
  denseIndex := denseIndex

/-- Import the registered buffers; an import closes its descriptor. -/
def importTensors (engine : Engine) : List (Fin 3) → Provider → Provider × Except String Unit
  | [], p => (p, .ok ())
  | t :: rest, p =>
      match p.pool.primeFd t with
      | none => importTensors engine rest p
      | some _ =>
          if p.config.numExpert = 0 then (p, .error "pinned NVMe fill: num_expert is zero")
          else if engine.layoutBytes t / p.config.numExpert ≠ p.pool.tensorBytes t then
            (p, .error ("pinned NVMe fill: tensor stride mismatch for tensor " ++
              toString t.val ++ ": device " ++
              toString (engine.layoutBytes t / p.config.numExpert) ++ " vs store " ++
              toString (p.pool.tensorBytes t)))
          else if engine.layoutBytes t < p.config.capacity * p.pool.tensorBytes t then
            (p, .error ("pinned NVMe fill: slot pool exceeds the full constant layout for " ++
              "tensor " ++ toString t.val))
          else if engine.importBuffer t = false then
            (p, .error ("pinned NVMe fill: engine.import_buffer returned null for tensor " ++
              toString t.val))
          else
            importTensors engine rest { p with pool := { p.pool with
              primeFd := Function.update p.pool.primeFd t none } }

/-- Upload what a slot still needs and mark it filled, slot after slot. -/
def completeSlots (upload : Nat → Nat → Except String Unit) :
    List Nat → Nat → Provider → Provider × Except String Unit
  | [], _, p => (p, .ok ())
  | expert :: rest, slot, p =>
      match upload expert slot with
      | .error reason => (p, .error reason)
      | .ok () => completeSlots upload rest (slot + 1) (p.applyPinnedNvmeFillSlot slot)

/-- `bind_pinned_nvme_pool`: every slot is marked filled again. -/
def bindPinnedNvmePool (engine : Engine) (p : Provider) : Provider × Except String Unit :=
  if p.pool.ready = false then (p, .ok ())
  else
    match importTensors engine (List.finRange 3) p with
    | (p, .error reason) => (p, .error reason)
    | (p, .ok ()) =>
        completeSlots (fun _ slot => engine.fillWeightsMemory slot) p.config.residentExperts 0 p

/-- The all-resident pool of a provider without the pinned fill: slot and expert
agree, and the weights are already in place. -/
def fillIdentityPool (engine : Engine) (gateW : Bool) (p : Provider) :
    Provider × Except String Unit :=
  if p.config.staticPartition = true ∧ p.config.pinnedNvmeFill = false ∧
      p.config.censusSeed = none ∧ p.config.numExpert ≤ p.config.capacity ∧ gateW = true then
    completeSlots (fun expert slot => do
        ensure (expert = slot)
          ("all-resident pool: slot " ++ toString slot ++ " holds expert " ++ toString expert ++
            ", not the identity the constant upload laid out")
        engine.fillWeightsMemory slot)
      p.config.residentExperts 0 p
  else (p, .ok ())

/-! ## What the operations keep -/

/-- The reservation of the provider is done, or there is none to do. -/
def Settled (p : Provider) : Prop :=
  p.config.staticPartition = false ∨ p.staticPartitionReserved = true

/-- Every pinned slot holds the expert that the layer's set has at its index. -/
def PinsResident (p : Provider) : Prop :=
  ∀ node ∈ p.cache.pinned, p.config.staticPartition = true ∧
    p.config.residentExperts[node.2]? = some node.1

/-- What a provider keeps from one step to the next: its configuration, the slots
marked filled, its pinned set, and the slots pinned once it is settled. -/
structure Extends (p q : Provider) : Prop where
  config : q.config = p.config
  filled : ∀ slot ∈ p.cache.filled, slot ∈ q.cache.filled
  settled : p.Settled → q.Settled ∧ q.cache.pinned = p.cache.pinned
  pins : p.PinsResident → q.PinsResident

theorem Extends.refl (p : Provider) : p.Extends p :=
  ⟨rfl, fun _ h => h, fun h => ⟨h, rfl⟩, id⟩

theorem Extends.trans {p q r : Provider} (hpq : p.Extends q) (hqr : q.Extends r) :
    p.Extends r where
  config := hqr.config.trans hpq.config
  filled slot hslot := hqr.filled slot (hpq.filled slot hslot)
  settled hp := by
    obtain ⟨hq, hpinned⟩ := hpq.settled hp
    obtain ⟨hr, hpinned'⟩ := hqr.settled hq
    exact ⟨hr, hpinned'.trans hpinned⟩
  pins hp := hqr.pins (hpq.pins hp)

/-- A step that leaves the reservation alone. -/
structure Marks (p q : Provider) : Prop where
  config : q.config = p.config
  reserved : q.staticPartitionReserved = p.staticPartitionReserved
  pinned : q.cache.pinned = p.cache.pinned
  filled : ∀ slot ∈ p.cache.filled, slot ∈ q.cache.filled

theorem Marks.refl (p : Provider) : p.Marks p := ⟨rfl, rfl, rfl, fun _ h => h⟩

theorem Marks.trans {p q r : Provider} (hpq : p.Marks q) (hqr : q.Marks r) : p.Marks r :=
  ⟨hqr.config.trans hpq.config, hqr.reserved.trans hpq.reserved, hqr.pinned.trans hpq.pinned,
    fun slot hslot => hqr.filled slot (hpq.filled slot hslot)⟩

theorem Marks.extends {p q : Provider} (h : p.Marks q) : p.Extends q where
  config := h.config
  filled := h.filled
  settled hp := by
    unfold Settled
    rw [h.config, h.reserved]
    exact ⟨hp, h.pinned⟩
  pins hp := by
    unfold PinsResident
    rw [h.config, h.pinned]
    exact hp

theorem applyPinnedNvmeFillSlot_marks (p : Provider) (slot : Nat) :
    p.Marks (p.applyPinnedNvmeFillSlot slot) :=
  ⟨rfl, rfl, rfl, fun _ h => List.mem_append_left _ h⟩

theorem withPool_marks (p : Provider) (pool : PinnedNvmePool) : p.Marks { p with pool := pool } :=
  ⟨rfl, rfl, rfl, fun _ h => h⟩

theorem registerTensors_marks (registerBo : Fin 3 → Except String (Nat × Nat))
    (tensors : List (Fin 3)) (p : Provider) :
    p.Marks (registerTensors registerBo tensors p).1 := by
  induction tensors generalizing p with
  | nil => exact withPool_marks p _
  | cons t rest ih =>
      unfold registerTensors
      split
      next => exact .refl p
      next =>
        split
        next => exact .refl p
        next handle fd _ => exact (withPool_marks p _).trans (ih _)

theorem createPinnedNvmePool_marks (registerBo : Fin 3 → Except String (Nat × Nat))
    (p : Provider) : p.Marks (p.createPinnedNvmePool registerBo).1 := by
  unfold createPinnedNvmePool
  split
  next => exact .refl p
  next =>
    split
    next => exact .refl p
    next => exact registerTensors_marks registerBo _ p

theorem importTensors_marks (engine : Engine) (tensors : List (Fin 3)) (p : Provider) :
    p.Marks (importTensors engine tensors p).1 := by
  induction tensors generalizing p with
  | nil => exact .refl p
  | cons t rest ih =>
      unfold importTensors
      split
      next => exact ih p
      next =>
        split_ifs
        · exact .refl p
        · exact .refl p
        · exact .refl p
        · exact .refl p
        · exact (withPool_marks p _).trans (ih _)

theorem completeSlots_marks (upload : Nat → Nat → Except String Unit) (experts : List Nat)
    (slot : Nat) (p : Provider) : p.Marks (completeSlots upload experts slot p).1 := by
  induction experts generalizing slot p with
  | nil => exact .refl p
  | cons expert rest ih =>
      unfold completeSlots
      split
      next => exact .refl p
      next => exact (applyPinnedNvmeFillSlot_marks p slot).trans (ih _ _)

theorem bindPinnedNvmePool_marks (engine : Engine) (p : Provider) :
    p.Marks (p.bindPinnedNvmePool engine).1 := by
  unfold bindPinnedNvmePool
  split
  next => exact .refl p
  next =>
    have himport := importTensors_marks engine (List.finRange 3) p
    split
    next heq => rwa [heq] at himport
    next imported heq =>
      rw [heq] at himport
      exact himport.trans (completeSlots_marks _ _ _ _)

theorem fillIdentityPool_marks (engine : Engine) (gateW : Bool) (p : Provider) :
    p.Marks (p.fillIdentityPool engine gateW).1 := by
  unfold fillIdentityPool
  split
  next => exact completeSlots_marks _ _ _ _
  next => exact .refl p

/-- A reservation adds the set's experts at their indices and fills nothing. -/
theorem reserveFrom_pinned (experts : List Nat) (slot : Nat) (cache : SlotCache) :
    (reserveFrom experts slot cache).1.filled = cache.filled ∧
      ∀ node ∈ (reserveFrom experts slot cache).1.pinned, node ∈ cache.pinned ∨
        ∃ i, experts[i]? = some node.1 ∧ node.2 = slot + i := by
  induction experts generalizing slot cache with
  | nil => exact ⟨rfl, fun _ h => .inl h⟩
  | cons expert rest ih =>
      unfold reserveFrom
      split
      next => exact ⟨rfl, fun _ h => .inl h⟩
      next next hreserve =>
        simp only [SlotCache.reservePinned, bind_ok, ensure_ok] at hreserve
        obtain ⟨_, _, _, _, _, _, hnext⟩ := hreserve
        cases hnext
        obtain ⟨hfilled, hpinned⟩ := ih (slot + 1)
          { cache with pinned := cache.pinned ++ [(expert, slot)] }
        refine ⟨hfilled, ?_⟩
        intro node hnode
        rcases hpinned node hnode with hold | ⟨i, hexpert, hslot⟩
        · rcases List.mem_append.mp hold with hold | hnew
          · exact .inl hold
          · rw [List.mem_singleton.mp hnew]
            exact .inr ⟨0, rfl, rfl⟩
        · exact .inr ⟨i + 1, hexpert, by omega⟩

theorem reserveStaticPartition_extends (p : Provider) :
    p.Extends p.reserveStaticPartition.1 := by
  unfold reserveStaticPartition
  split
  next => exact .refl p
  next hunsettled =>
    have hfresh : ¬p.Settled := hunsettled
    have hstatic : p.config.staticPartition = true := by
      simpa using fun hstatic => hfresh (.inl hstatic)
    obtain ⟨hfilled, hpinned⟩ := reserveFrom_pinned p.config.residentExperts 0 p.cache
    have hpins : p.PinsResident →
        ∀ node ∈ (reserveFrom p.config.residentExperts 0 p.cache).1.pinned,
          p.config.staticPartition = true ∧ p.config.residentExperts[node.2]? = some node.1 := by
      intro hp node hnode
      rcases hpinned node hnode with hold | ⟨i, hexpert, hslot⟩
      · exact hp node hold
      · rw [hslot, Nat.zero_add]
        exact ⟨hstatic, hexpert⟩
    split
    next cache reason heq =>
      rw [heq] at hfilled hpins
      exact ⟨rfl, fun slot hslot => by rwa [hfilled], fun h => absurd h hfresh, hpins⟩
    next cache heq =>
      rw [heq] at hfilled hpins
      exact ⟨rfl, fun slot hslot => by rwa [hfilled], fun h => absurd h hfresh, hpins⟩

/-- A reservation that succeeds settles the provider. -/
theorem reserveStaticPartition_settled {p q : Provider}
    (h : p.reserveStaticPartition = (q, .ok ())) : q.Settled := by
  unfold reserveStaticPartition at h
  split at h
  next hsettled =>
    cases h
    exact hsettled
  next =>
    split at h
    next => cases h
    next =>
      cases h
      exact .inr rfl

/-- The batch of a provider asks for every pinned slot. -/
theorem mem_pinnedNvmeFillBatch {p : Provider} (hp : p.PinsResident) {node : Nat × Nat}
    (hnode : node ∈ p.cache.pinned) (layerIndex : Nat) :
    (⟨layerIndex, node.1, node.2, 0, 0⟩ : FillRequest) ∈
      (p.pinnedNvmeFillBatch layerIndex).requests := by
  obtain ⟨hstatic, hexpert⟩ := hp node hnode
  rw [pinnedNvmeFillBatch, if_neg (by simp [hstatic])]
  rw [List.mem_iff_getElem?]
  exact ⟨node.2, by simp [List.getElem?_mapIdx, hexpert]⟩

end Provider

end Arcint.Fill
