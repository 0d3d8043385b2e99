import Arcint.Fill.Provider

/-! # The fill coordinator

The first `bind` of a provider with the pinned fill runs the load barrier for
every provider registered by then; every other `bind` finds the coordinator
started and goes on. The flag is set before the first step that can fail. A
`bind` after a barrier that threw, and a `bind` of a provider constructed after
it, therefore return without a fill.
-/

namespace Arcint.Fill

open Foundation

/-- What the process answers to one `bind`: its environment, the devices and the
engine. `registerBo` answers for a provider and a tensor. -/
structure World where
  drm : Option String
  store : Option String
  partStart : Nat
  /-- The reason the devices could not be opened. -/
  openFails : Option String
  registerBo : Nat → Fin 3 → Except String (Nat × Nat)
  device : Device
  engine : Engine

/-- The process. Provider `id` is the one constructed at position `id`. `owner`,
`landed`, `loaded` and `returned` record what happened: the providers of the
batches, the collects that were reported filled, how many providers were
registered when the barrier served, and whose `bind` returned. -/
structure Process where
  provider : Nat → Provider
  registered : Nat
  started : Bool
  owner : List Nat
  landed : List (FillBatch × CollectOutcome)
  loaded : Option Nat
  returned : List Nat

namespace Process

/-- No provider yet; the value at an unused id is never read. -/
def initial : Process where
  provider _ := .new ⟨0, 0, 0, false, 0, none, false, 0, 0, 0, 0⟩
  registered := 0
  started := false
  owner := []
  landed := []
  loaded := none
  returned := []

def construct (process : Process) (config : ProviderConfig) : Process :=
  { process with
    provider := Function.update process.provider process.registered (.new config)
    registered := process.registered + 1 }

end Process

/-- The registry in the order of the structural layer key. -/
def sortedProviders (provider : Nat → Provider) (registered : Nat) : List Nat :=
  (List.range registered).insertionSort fun a b =>
    (provider a).config.layerKey ≤ (provider b).config.layerKey

/-- Reserve every layer's slots and create its pools, in layer order. -/
def prepare (world : World) :
    List Nat → (Nat → Provider) → List Nat → List PinnedLayerGeometry →
      (Nat → Provider) × Except String (List Nat × List PinnedLayerGeometry)
  | [], provider, owner, geometries => (provider, .ok (owner, geometries))
  | id :: rest, provider, owner, geometries =>
      if (provider id).config.pinnedNvmeFill = false then
        prepare world rest provider owner geometries
      else if (provider id).config.staticPartition = false then
        (provider, .error ("MOE_OTD_PINNED_NVME_FILL requires the static partition " ++
          "(MOE_CPU_TIER_PARTITION=lru has no pinned set to fill)"))
      else
        match (provider id).reserveStaticPartition with
        | (p, .error reason) => (Function.update provider id p, .error reason)
        | (p, .ok ()) =>
            match p.createPinnedNvmePool (world.registerBo id) with
            | (p, .error reason) =>
                (Function.update provider id p,
                  .error ("pinned NVMe fill pool creation failed: " ++ reason))
            | (p, .ok ()) =>
                prepare world rest (Function.update provider id p) (owner ++ [id])
                  (geometries ++ [p.pinnedNvmeGeometry owner.length])

/-- Enqueue one batch per layer, from dense index `index` on. -/
def enqueueLayers (provider : Nat → Provider) :
    List Nat → Nat → Scheduler Arcwell → Scheduler Arcwell × Except String Unit
  | [], _, s => (s, .ok ())
  | id :: rest, index, s =>
      match s.enqueue ((provider id).pinnedNvmeFillBatch index) with
      | (s, .error reason) => (s, .error ("pinned NVMe fill enqueue failed: " ++ reason))
      | (s, .ok ()) => enqueueLayers provider rest (index + 1) s

/-- `on_filled`: mark the slot of the layer's owner. -/
def onFilled (owner : List Nat) (provider : Nat → Provider) (request : FillRequest) :
    Nat → Provider :=
  match owner[request.layer]? with
  | some id => Function.update provider id ((provider id).applyPinnedNvmeFillSlot request.slot)
  | none => provider

/-- `on_filled` for every request that was reported. -/
def applyFilled (owner : List Nat) (filled : List FillRequest) (provider : Nat → Provider) :
    Nat → Provider :=
  filled.foldl (onFilled owner) provider

/-- The transport as constructed, with the layers registered. -/
def openArcwell (world : World) (store : String) (layers : List PinnedLayerGeometry) : Arcwell where
  ok := world.openFails.isNone
  reason := world.openFails.getD ""
  storeDir := store
  partStart := world.partStart
  layers := layers
  nextId := 1
  inflight := []
  lbaCache := []
  ioctls := 0

def fillSchedule (world : World) : Schedule Arcwell := ⟨Arcwell.transport world.device, true, 4⟩

namespace Process

/-- The load barrier over the prepared layers. -/
def runBarrier (process : Process) (world : World) (store : String) (owner : List Nat)
    (layers : List PinnedLayerGeometry) : Process × Except String Unit :=
  match (fillSchedule world).begin (.new (openArcwell world store layers)) with
  | (_, .error reason) => (process, .error ("pinned NVMe fill setup failed: " ++ reason))
  | (s, .ok ()) =>
      match enqueueLayers process.provider owner 0 s with
      | (_, .error reason) => (process, .error reason)
      | (s, .ok ()) =>
          let (s, exit) := (fillSchedule world).barrier s
          let process := { process with
            provider := applyFilled owner s.filled process.provider
            owner := owner
            landed := s.landed }
          match exit with
          | .served => ({ process with loaded := some process.registered }, .ok ())
          | exit =>
              (process, .error ("pinned NVMe fill load barrier refused: " ++
                exit.reason.getD ""))

/-- `start_pinned_nvme_fill`. -/
def startPinnedNvmeFill (process : Process) (world : World) : Process × Except String Unit :=
  if process.started = true then (process, .ok ())
  else
    let process := { process with started := true }
    match world.drm, world.store with
    | some drm, some store =>
        if drm = "" ∨ store = "" then (process, .error envMessage)
        else
          match world.openFails with
          | some reason => (process, .error ("pinned NVMe fill setup failed: " ++ reason))
          | none =>
              match prepare world (sortedProviders process.provider process.registered)
                  process.provider [] [] with
              | (provider, .error reason) => ({ process with provider := provider }, .error reason)
              | (provider, .ok (owner, layers)) =>
                  runBarrier { process with provider := provider } world store owner layers
    | _, _ => (process, .error envMessage)
where
  envMessage : String :=
    "MOE_OTD_PINNED_NVME_FILL is set but MOE_OTD_PINNED_NVME_DRM / " ++
      "MOE_OTD_PINNED_NVME_STORE are not: the transport has no render node " ++
      "or expert store to work from -- refusing the load rather than " ++
      "demoting pinned experts to the host tier (design note D3)"

/-- Run an operation of one provider. -/
def onProvider (process : Process) (id : Nat) (result : Provider × Except String Unit) :
    Process × Except String Unit :=
  ({ process with provider := Function.update process.provider id result.1 }, result.2)

/-- What `bind` does with the pinned fill enabled. -/
def bindPinned (process : Process) (id : Nat) (gateW : Bool) (world : World) :
    Process × Except String Unit :=
  match process.startPinnedNvmeFill world with
  | (process, .error reason) => (process, .error reason)
  | (process, .ok ()) =>
      if gateW = true then
        process.onProvider id ((process.provider id).bindPinnedNvmePool world.engine)
      else (process, .ok ())

/-- `bind`, up to its return or its throw. -/
def bindProvider (process : Process) (id : Nat) (gateW : Bool) (world : World) :
    Process × Except String Unit :=
  match process.onProvider id (process.provider id).reserveStaticPartition with
  | (process, .error reason) => (process, .error reason)
  | (process, .ok ()) =>
      match process.onProvider id ((process.provider id).fillIdentityPool world.engine gateW) with
      | (process, .error reason) => (process, .error reason)
      | (process, .ok ()) =>
          if (process.provider id).config.pinnedNvmeFill = true then
            process.bindPinned id gateW world
          else (process, .ok ())

/-- `bind`, with a note of the providers whose call returned. -/
def bind (process : Process) (id : Nat) (gateW : Bool) (world : World) : Process :=
  match process.bindProvider id gateW world with
  | (process, .error _) => process
  | (process, .ok ()) => { process with returned := process.returned ++ [id] }

end Process

/-- A construction or a `bind`. -/
inductive LoadStep where
  | construct (config : ProviderConfig)
  | bind (id : Nat) (gateW : Bool) (world : World)

/-- The process under constructions and binds; only a provider that exists can be
bound, and a `bind` that throws is caught. -/
def loadMachine : Machine Process LoadStep where
  step process
    | .construct config => some (process.construct config)
    | .bind id gateW world =>
        if id < process.registered then some (process.bind id gateW world) else none

/-- The slot's expert came with a batch of the provider that was collected in
full. -/
def Delivered (process : Process) (id expert slot : Nat) : Prop :=
  ∃ entry ∈ process.landed, entry.2.ok = true ∧
    entry.2.completed = entry.1.requests.length ∧
    ∃ request ∈ entry.1.requests, request.expert = expert ∧ request.slot = slot ∧
      process.owner[request.layer]? = some id

/-- No pinned slot of the provider is unfilled, and every filled one was
delivered. -/
def FullyLoaded (process : Process) (id : Nat) : Prop :=
  (∀ node ∈ (process.provider id).cache.pinned, node.2 ∈ (process.provider id).cache.filled) ∧
    ∀ node ∈ (process.provider id).cache.pinned,
      node.2 ∈ (process.provider id).cache.filled → Delivered process id node.1 node.2

/-- The provider has a pinned set that only the fill can deliver. -/
def NeedsFill (p : Provider) : Prop :=
  p.config.pinnedNvmeFill = true ∧ p.config.staticPartition = true ∧
    p.config.residentExperts ≠ []

/-- A `bind` of such a provider comes before the coordinator has started, or after
it served, of a provider that was registered by then. -/
def InTime (process : Process) : LoadStep → Prop
  | .construct _ => True
  | .bind id _ _ => NeedsFill (process.provider id) → process.started = false ∨
      ∃ covered, process.loaded = some covered ∧ id < covered

/-! ## One load barrier -/

section Barrier

variable {world : World}

theorem prepare_extends (world : World) (ids : List Nat) (provider : Nat → Provider)
    (owner : List Nat)
    (geometries : List PinnedLayerGeometry) (id : Nat) :
    (provider id).Extends ((prepare world ids provider owner geometries).1 id) := by
  induction ids generalizing provider owner geometries with
  | nil => exact .refl _
  | cons head rest ih =>
      -- only the head of the list is replaced, by a provider that extends it
      have hupdate : ∀ p, (provider head).Extends p →
          (provider id).Extends (Function.update provider head p id) := by
        intro p hp
        by_cases hid : id = head
        · subst hid
          rwa [Function.update_self]
        · rw [Function.update_of_ne hid]
          exact .refl _
      have hreserve := (provider head).reserveStaticPartition_extends
      unfold prepare
      split_ifs
      · exact ih provider owner geometries
      · exact .refl _
      · split
        next p reason heq =>
          rw [heq] at hreserve
          exact hupdate p hreserve
        next p heq =>
          rw [heq] at hreserve
          have hpool :=
            hreserve.trans (p.createPinnedNvmePool_marks (world.registerBo head)).extends
          split
          next q reason hcreate =>
            rw [hcreate] at hpool
            exact hupdate q hpool
          next q hcreate =>
            rw [hcreate] at hpool
            exact (hupdate q hpool).trans (ih _ _ _)

/-- Every enabled provider of the list is settled and owns a layer. -/
theorem prepare_owner {ids : List Nat} {provider prepared : Nat → Provider}
    {owner owner' : List Nat} {geometries geometries' : List PinnedLayerGeometry}
    (h : prepare world ids provider owner geometries = (prepared, .ok (owner', geometries'))) :
    (∀ id ∈ owner, id ∈ owner') ∧
      ∀ id ∈ ids, (provider id).config.pinnedNvmeFill = true →
        id ∈ owner' ∧ (prepared id).Settled := by
  induction ids generalizing provider owner geometries with
  | nil =>
      cases h
      exact ⟨fun _ hid => hid, fun _ hid => absurd hid List.not_mem_nil⟩
  | cons head rest ih =>
      unfold prepare at h
      split_ifs at h with hoff hlru
      · obtain ⟨hkept, hrest⟩ := ih h
        refine ⟨hkept, ?_⟩
        intro id hid hon
        rcases List.mem_cons.mp hid with rfl | hid
        · rw [hoff] at hon
          cases hon
        · exact hrest id hid hon
      · cases h
      · split at h
        next => cases h
        next p hreserve =>
          split at h
          next => cases h
          next q hcreate =>
            obtain ⟨hkept, hrest⟩ := ih h
            have hmarks := p.createPinnedNvmePool_marks (world.registerBo head)
            rw [hcreate] at hmarks
            have hsettled : q.Settled :=
              (hmarks.extends.settled (Provider.reserveStaticPartition_settled hreserve)).1
            have hextends := prepare_extends world rest
              (Function.update provider head q) (owner ++ [head])
              (geometries ++ [q.pinnedNvmeGeometry owner.length]) head
            rw [h, Function.update_self] at hextends
            have hhead : head ∈ owner' ∧ (prepared head).Settled :=
              ⟨hkept head (List.mem_append_right _ (List.mem_singleton_self _)),
                (hextends.settled hsettled).1⟩
            refine ⟨fun id hid => hkept id (List.mem_append_left _ hid), ?_⟩
            intro id hid hon
            by_cases heq : id = head
            · rw [heq]
              exact hhead
            · rcases List.mem_cons.mp hid with hid | hid
              · exact absurd hid heq
              · refine hrest id hid ?_
                rw [Function.update_of_ne heq]
                exact hon

/-- The layers' batches are enqueued in order. -/
theorem enqueueLayers_ok (provider : Nat → Provider) (owner : List Nat) (index : Nat)
    {s : Scheduler Arcwell} (hs : Accounts s) (hphase : s.phase = .loading) :
    ∃ s', enqueueLayers provider owner index s = (s', .ok ()) ∧ Accounts s' ∧
      s'.phase = .loading ∧ s'.exits = s.exits ∧ (∀ batch ∈ s.enqueued, batch ∈ s'.enqueued) ∧
      ∀ i id, owner[i]? = some id →
        (provider id).pinnedNvmeFillBatch (index + i) ∈ s'.enqueued := by
  induction owner generalizing index s with
  | nil => exact ⟨s, rfl, hs, hphase, rfl, fun _ h => h, fun i id h => by simp at h⟩
  | cons head rest ih =>
      have haccounts := enqueue_accounts hs ((provider head).pinnedNvmeFillBatch index)
      have henqueue : s.enqueue ((provider head).pinnedNvmeFillBatch index) =
          ({ s with
              pending := s.pending ++ [(provider head).pinnedNvmeFillBatch index]
              enqueued := s.enqueued ++ [(provider head).pinnedNvmeFillBatch index] }, .ok ()) := by
        rw [Scheduler.enqueue, if_neg (not_not.mpr hphase)]
      unfold enqueueLayers
      rw [henqueue] at haccounts ⊢
      obtain ⟨s', heq, hs', hphase', hexits, hkept, hbatches⟩ := ih (index + 1) haccounts hphase
      refine ⟨s', heq, hs', hphase', hexits, ?_, ?_⟩
      · intro batch hbatch
        exact hkept batch (List.mem_append_left _ hbatch)
      · intro i id hid
        cases i with
        | zero =>
            cases hid
            exact hkept _ (List.mem_append_right _ (List.mem_singleton_self _))
        | succ i =>
            rw [Nat.add_succ, ← Nat.succ_add]
            exact hbatches i id hid

theorem onFilled_marks (owner : List Nat) (provider : Nat → Provider) (request : FillRequest)
    (id : Nat) : (provider id).Marks (onFilled owner provider request id) := by
  unfold onFilled
  cases owner[request.layer]? with
  | none => exact .refl _
  | some other =>
      by_cases hid : id = other
      · subst hid
        simp only [Function.update_self]
        exact Provider.applyPinnedNvmeFillSlot_marks _ _
      · simp only [Function.update_of_ne hid]
        exact .refl _

theorem applyFilled_marks (owner : List Nat) (filled : List FillRequest)
    (provider : Nat → Provider) (id : Nat) :
    (provider id).Marks (applyFilled owner filled provider id) := by
  induction filled generalizing provider with
  | nil => exact .refl _
  | cons request rest ih => exact (onFilled_marks owner provider request id).trans (ih _)

theorem applyFilled_filled {owner : List Nat} {filled : List FillRequest}
    (provider : Nat → Provider) {request : FillRequest} (hrequest : request ∈ filled) {id : Nat}
    (hid : owner[request.layer]? = some id) :
    request.slot ∈ (applyFilled owner filled provider id).cache.filled := by
  induction filled generalizing provider with
  | nil => cases hrequest
  | cons head rest ih =>
      rcases List.mem_cons.mp hrequest with rfl | hrest
      · apply (applyFilled_marks owner rest (onFilled owner provider request) id).filled
        simp only [onFilled, hid, Function.update_self]
        exact List.mem_append_right _ (List.mem_singleton_self _)
      · exact ih _ hrest

end Barrier

/-! ## The process -/

/-- The provider is settled and fully loaded. -/
def Kept (process : Process) (id : Nat) : Prop :=
  (process.provider id).Settled ∧ FullyLoaded process id

/-- A step after which every provider extends what it was. -/
structure Advances (a b : Process) : Prop where
  provider : ∀ id, (a.provider id).Extends (b.provider id)
  registered : b.registered = a.registered
  returned : b.returned = a.returned

/-- A step that does not touch the coordinator. -/
structure Quiet (a b : Process) : Prop extends Advances a b where
  started : b.started = a.started
  owner : b.owner = a.owner
  landed : b.landed = a.landed
  loaded : b.loaded = a.loaded

theorem Quiet.refl (a : Process) : Quiet a a :=
  ⟨⟨fun _ => .refl _, rfl, rfl⟩, rfl, rfl, rfl, rfl⟩

theorem Quiet.trans {a b c : Process} (hab : Quiet a b) (hbc : Quiet b c) : Quiet a c :=
  ⟨⟨fun id => (hab.provider id).trans (hbc.provider id), hbc.registered.trans hab.registered,
      hbc.returned.trans hab.returned⟩,
    hbc.started.trans hab.started, hbc.owner.trans hab.owner, hbc.landed.trans hab.landed,
    hbc.loaded.trans hab.loaded⟩

theorem Kept.quiet {a b : Process} {id : Nat} (h : Kept a id) (hab : Quiet a b) : Kept b id := by
  obtain ⟨hsettled, hfilled, hdelivered⟩ := h
  obtain ⟨hsettled', hpinned⟩ := (hab.provider id).settled hsettled
  refine ⟨hsettled', ?_, ?_⟩
  · intro node hnode
    rw [hpinned] at hnode
    exact (hab.provider id).filled _ (hfilled node hnode)
  · intro node hnode _
    rw [hpinned] at hnode
    unfold Delivered
    rw [hab.landed, hab.owner]
    exact hdelivered node hnode (hfilled node hnode)

/-- What holds between the steps of a process. -/
structure LoadInv (process : Process) : Prop where
  pins : ∀ id, (process.provider id).PinsResident
  bound : ∀ id ∈ process.returned, id < process.registered ∧
    ((process.provider id).config.pinnedNvmeFill = true →
      process.started = true ∧ Kept process id)
  covered : ∀ covered, process.loaded = some covered → process.started = true ∧
    covered ≤ process.registered ∧ ∀ id < covered,
      (process.provider id).config.pinnedNvmeFill = true → Kept process id

theorem LoadInv.quiet {a b : Process} (h : LoadInv a) (hab : Quiet a b) : LoadInv b where
  pins id := (hab.provider id).pins (h.pins id)
  bound id hid := by
    rw [hab.returned] at hid
    obtain ⟨hlt, hkept⟩ := h.bound id hid
    refine ⟨by rwa [hab.registered], fun hon => ?_⟩
    rw [(hab.provider id).config] at hon
    rw [hab.started]
    exact ⟨(hkept hon).1, (hkept hon).2.quiet hab⟩
  covered n hn := by
    rw [hab.loaded] at hn
    obtain ⟨hstarted, hle, hkept⟩ := h.covered n hn
    refine ⟨by rwa [hab.started], by rwa [hab.registered], fun id hid hon => ?_⟩
    rw [(hab.provider id).config] at hon
    exact (hkept id hid hon).quiet hab

theorem onProvider_quiet (process : Process) (id : Nat) {result : Provider × Except String Unit}
    (h : (process.provider id).Extends result.1) :
    Quiet process (process.onProvider id result).1 := by
  refine ⟨⟨fun other => ?_, rfl, rfl⟩, rfl, rfl, rfl, rfl⟩
  simp only [Process.onProvider]
  by_cases hid : other = id
  · subst hid
    rwa [Function.update_self]
  · rw [Function.update_of_ne hid]
    exact .refl _

/-- A barrier that serves leaves every owner of a layer fully loaded. -/
theorem runBarrier_cases (process : Process) (world : World) (store : String) (owner : List Nat)
    (layers : List PinnedLayerGeometry) (hpins : ∀ id, (process.provider id).PinsResident) :
    let result := process.runBarrier world store owner layers
    Advances process result.1 ∧ result.1.started = process.started ∧
      ((∃ reason, result.2 = .error reason) ∧ result.1.loaded = process.loaded ∨
        result.2 = .ok () ∧ result.1.loaded = some process.registered ∧
          ∀ id ∈ owner, FullyLoaded result.1 id) := by
  have hbegun := begin_accounts (fillSchedule world)
    (accounts_new (openArcwell world store layers))
  have hsame : Advances process process := (Quiet.refl process).toAdvances
  unfold Process.runBarrier
  split
  next => exact ⟨hsame, rfl, .inl ⟨⟨_, rfl⟩, rfl⟩⟩
  next s hbegin =>
    obtain ⟨hphase, hnone⟩ := begin_ok hbegin
    rw [hbegin] at hbegun
    obtain ⟨s', henqueue, haccounts, hloading, hexits, _, hbatches⟩ :=
      enqueueLayers_ok process.provider owner 0 hbegun hphase
    rw [henqueue]
    have hallowed : NoSecondBarrier s' .barrier := by
      intro exit hexit
      rw [hexits, hnone] at hexit
      cases hexit
    have hserving := (barrier_accounts (fillSchedule world)
      (Arcwell.transport_keepsIds world.device) haccounts hallowed).serving
    have henqueued := barrier_enqueued (fillSchedule world) s'
    have hserved := @barrier_serving _ (fillSchedule world) s'
    dsimp only
    generalize (fillSchedule world).barrier s' = ended at hserving henqueued hserved ⊢
    obtain ⟨final, exit⟩ := ended
    have hadvances : ∀ loaded, Advances process { process with
        provider := applyFilled owner final.filled process.provider
        owner := owner
        landed := final.landed
        loaded := loaded } :=
      fun _ => ⟨fun id => (applyFilled_marks owner final.filled process.provider id).extends,
        rfl, rfl⟩
    cases exit with
    | served =>
        refine ⟨hadvances _, rfl, .inr ⟨rfl, rfl, ?_⟩⟩
        intro id hid
        obtain ⟨index, hindex⟩ := List.mem_iff_getElem?.mp hid
        have hbatch := hbatches index id hindex
        rw [← henqueued, Nat.zero_add] at hbatch
        obtain ⟨outcome, hlanded, hok, hcompleted, hfilled⟩ := hserving (hserved rfl) _ hbatch
        have hpinned := (applyFilled_marks owner final.filled process.provider id).pinned
        refine ⟨?_, ?_⟩
        · intro node hnode
          rw [hpinned] at hnode
          have hrequest := Provider.mem_pinnedNvmeFillBatch (hpins id) hnode index
          exact applyFilled_filled process.provider (hfilled _ hrequest) hindex
        · intro node hnode _
          rw [hpinned] at hnode
          have hrequest := Provider.mem_pinnedNvmeFillBatch (hpins id) hnode index
          exact ⟨_, hlanded, hok, hcompleted, _, hrequest, rfl, rfl, hindex⟩
    | _ => exact ⟨hadvances _, rfl, .inl ⟨⟨_, rfl⟩, rfl⟩⟩

theorem mem_sortedProviders {provider : Nat → Provider} {registered id : Nat} :
    id ∈ sortedProviders provider registered ↔ id < registered := by
  rw [sortedProviders, List.mem_insertionSort, List.mem_range]

/-- The first start either throws, and then nothing counts as loaded, or every
enabled provider registered by then is settled and fully loaded. -/
theorem startPinnedNvmeFill_cases {process : Process} (world : World)
    (hpins : ∀ id, (process.provider id).PinsResident) (hfirst : process.started = false) :
    let result := process.startPinnedNvmeFill world
    Advances process result.1 ∧ result.1.started = true ∧
      ((∃ reason, result.2 = .error reason) ∧ result.1.loaded = process.loaded ∨
        result.2 = .ok () ∧ result.1.loaded = some process.registered ∧
          ∀ id < process.registered, (process.provider id).config.pinnedNvmeFill = true →
            Kept result.1 id) := by
  have hsame : Advances process { process with started := true } :=
    ⟨fun _ => .refl _, rfl, rfl⟩
  unfold Process.startPinnedNvmeFill
  rw [if_neg (by simp [hfirst])]
  dsimp only
  split
  next drm store _ _ =>
    split
    next => exact ⟨hsame, rfl, .inl ⟨⟨_, rfl⟩, rfl⟩⟩
    next =>
      split
      next => exact ⟨hsame, rfl, .inl ⟨⟨_, rfl⟩, rfl⟩⟩
      next =>
        have hextends := prepare_extends world
          (sortedProviders process.provider process.registered) process.provider [] []
        split
        next prepared reason heq =>
          rw [heq] at hextends
          exact ⟨⟨hextends, rfl, rfl⟩, rfl, .inl ⟨⟨_, rfl⟩, rfl⟩⟩
        next prepared owner layers heq =>
          rw [heq] at hextends
          have howner := (prepare_owner heq).2
          obtain ⟨hadvances, hstarted, hresult⟩ := runBarrier_cases
            { process with started := true, provider := prepared } world store owner layers
            fun id => (hextends id).pins (hpins id)
          refine ⟨⟨fun id => (hextends id).trans (hadvances.provider id), hadvances.registered,
            hadvances.returned⟩, hstarted, ?_⟩
          rcases hresult with herror | ⟨hok, hloaded, hfull⟩
          · exact .inl herror
          · refine .inr ⟨hok, hloaded, fun id hid hon => ?_⟩
            obtain ⟨hmem, hsettled⟩ := howner id (mem_sortedProviders.mpr hid) hon
            exact ⟨((hadvances.provider id).settled hsettled).1, hfull id hmem⟩
  next => exact ⟨hsame, rfl, .inl ⟨⟨_, rfl⟩, rfl⟩⟩

/-- A start keeps the invariant, and when it returns either it had been done
before or every enabled provider is loaded. -/
theorem startPinnedNvmeFill_inv {process : Process} (world : World) (hinv : LoadInv process) :
    LoadInv (process.startPinnedNvmeFill world).1 ∧
      (process.startPinnedNvmeFill world).1.started = true ∧
      Advances process (process.startPinnedNvmeFill world).1 ∧
      ((process.startPinnedNvmeFill world).2 = .ok () →
        (process.started = true ∧ (process.startPinnedNvmeFill world).1 = process) ∨
          ∀ id < process.registered, (process.provider id).config.pinnedNvmeFill = true →
            Kept (process.startPinnedNvmeFill world).1 id) := by
  cases hstarted : process.started with
  | true =>
      have hdone : process.startPinnedNvmeFill world = (process, .ok ()) := by
        rw [Process.startPinnedNvmeFill, if_pos hstarted]
      rw [hdone]
      exact ⟨hinv, hstarted, (Quiet.refl process).toAdvances, fun _ => .inl ⟨rfl, rfl⟩⟩
  | false =>
      obtain ⟨hadvances, hstart, hresult⟩ := startPinnedNvmeFill_cases world hinv.pins hstarted
      -- before the first start no enabled provider has been bound
      have hbound : ∀ id ∈ (process.startPinnedNvmeFill world).1.returned,
          id < (process.startPinnedNvmeFill world).1.registered ∧
          ((((process.startPinnedNvmeFill world).1.provider id).config.pinnedNvmeFill = true) →
            (process.startPinnedNvmeFill world).1.started = true ∧
              Kept (process.startPinnedNvmeFill world).1 id) := by
        intro id hid
        rw [hadvances.returned] at hid
        obtain ⟨hlt, hkept⟩ := hinv.bound id hid
        refine ⟨by rwa [hadvances.registered], fun hon => ?_⟩
        rw [(hadvances.provider id).config] at hon
        rw [hstarted] at hkept
        cases (hkept hon).1
      have hpins : ∀ id, ((process.startPinnedNvmeFill world).1.provider id).PinsResident :=
        fun id => (hadvances.provider id).pins (hinv.pins id)
      rcases hresult with ⟨⟨reason, herror⟩, hloaded⟩ | ⟨hok, hloaded, hkept⟩
      · refine ⟨⟨hpins, hbound, ?_⟩, hstart, hadvances, fun hok => ?_⟩
        · intro n hn
          rw [hloaded] at hn
          rw [(hinv.covered n hn).1] at hstarted
          cases hstarted
        · rw [herror] at hok
          cases hok
      · refine ⟨⟨hpins, hbound, ?_⟩, hstart, hadvances, fun _ => .inr hkept⟩
        intro n hn
        rw [hloaded] at hn
        cases hn
        refine ⟨hstart, by rw [hadvances.registered], fun id hid hon => ?_⟩
        rw [(hadvances.provider id).config] at hon
        exact hkept id hid hon

/-- An enabled provider that needs no fill has nothing pinned. -/
theorem pinned_of_not_needsFill {p : Provider} (hpins : p.PinsResident)
    (hon : p.config.pinnedNvmeFill = true) (hnone : ¬NeedsFill p) : p.cache.pinned = [] := by
  rw [List.eq_nil_iff_forall_not_mem]
  intro node hnode
  obtain ⟨hstatic, hexpert⟩ := hpins node hnode
  apply hnone
  refine ⟨hon, hstatic, fun hempty => ?_⟩
  rw [hempty] at hexpert
  cases hexpert

theorem bindPinned_inv {process : Process} {id : Nat} (gateW : Bool) (world : World)
    (hinv : LoadInv process) (hid : id < process.registered)
    (hsettled : (process.provider id).Settled)
    (hon : (process.provider id).config.pinnedNvmeFill = true)
    (hin : InTime process (.bind id gateW world)) :
    LoadInv (process.bindPinned id gateW world).1 ∧
      (process.bindPinned id gateW world).1.registered = process.registered ∧
      ((process.bindPinned id gateW world).2 = .ok () →
        (process.bindPinned id gateW world).1.started = true ∧
          Kept (process.bindPinned id gateW world).1 id) := by
  obtain ⟨hinv', hstarted, hadvances, hreturned⟩ := startPinnedNvmeFill_inv world hinv
  unfold Process.bindPinned
  split
  next after reason heq =>
    rw [heq] at hinv' hadvances
    exact ⟨hinv', hadvances.registered, fun hok => by cases hok⟩
  next after heq =>
    rw [heq] at hinv' hstarted hadvances hreturned
    have hkept : Kept after id := by
      rcases hreturned rfl with ⟨hbefore, rfl⟩ | hall
      · by_cases hneeds : NeedsFill (after.provider id)
        · rcases hin hneeds with hfirst | ⟨n, hn, hlt⟩
          · rw [hbefore] at hfirst
            cases hfirst
          · exact (hinv.covered n hn).2.2 id hlt hon
        · have hnone := pinned_of_not_needsFill (hinv.pins id) hon hneeds
          refine ⟨hsettled, ?_, ?_⟩
          · intro node hnode
            rw [hnone] at hnode
            cases hnode
          · intro node hnode
            rw [hnone] at hnode
            cases hnode
      · exact hall id hid hon
    split
    next =>
      have hquiet := onProvider_quiet after id
        ((after.provider id).bindPinnedNvmePool_marks world.engine).extends
      refine ⟨hinv'.quiet hquiet, hquiet.registered.trans hadvances.registered, fun _ => ?_⟩
      exact ⟨hquiet.started.trans hstarted, hkept.quiet hquiet⟩
    next => exact ⟨hinv', hadvances.registered, fun _ => ⟨hstarted, hkept⟩⟩

/-- A step in time stays in time when the coordinator has not moved. -/
theorem InTime.quiet {a b : Process} {id : Nat} {gateW : Bool} {world : World}
    (h : InTime a (.bind id gateW world)) (hab : Quiet a b) :
    InTime b (.bind id gateW world) := by
  intro hneeds
  rw [NeedsFill, (hab.provider id).config] at hneeds
  rw [hab.started, hab.loaded]
  exact h hneeds

theorem bindProvider_inv {process : Process} {id : Nat} (gateW : Bool) (world : World)
    (hinv : LoadInv process) (hid : id < process.registered)
    (hin : InTime process (.bind id gateW world)) :
    LoadInv (process.bindProvider id gateW world).1 ∧
      (process.bindProvider id gateW world).1.registered = process.registered ∧
      ((process.bindProvider id gateW world).2 = .ok () →
        ((process.bindProvider id gateW world).1.provider id).config.pinnedNvmeFill = true →
        (process.bindProvider id gateW world).1.started = true ∧
          Kept (process.bindProvider id gateW world).1 id) := by
  have hreserve := onProvider_quiet process id
    (process.provider id).reserveStaticPartition_extends
  unfold Process.bindProvider
  split
  next reserved reason heq =>
    rw [heq] at hreserve
    exact ⟨hinv.quiet hreserve, hreserve.registered, fun hok => by cases hok⟩
  next reserved heq =>
    have hsettled : (reserved.provider id).Settled := by
      unfold Process.onProvider at heq
      obtain ⟨rfl, hok⟩ := Prod.mk.inj heq
      simp only [Function.update_self]
      exact Provider.reserveStaticPartition_settled (Prod.ext rfl hok)
    rw [heq] at hreserve
    have hidentity := hreserve.trans (onProvider_quiet reserved id
      ((reserved.provider id).fillIdentityPool_marks world.engine gateW).extends)
    split
    next completed reason heq' =>
      rw [heq'] at hidentity
      exact ⟨hinv.quiet hidentity, hidentity.registered, fun hok => by cases hok⟩
    next completed heq' =>
      have hstill : (completed.provider id).Settled := by
        have hmarks := onProvider_quiet reserved id
          ((reserved.provider id).fillIdentityPool_marks world.engine gateW).extends
        rw [heq'] at hmarks
        exact ((hmarks.provider id).settled hsettled).1
      rw [heq'] at hidentity
      split
      next hon =>
        obtain ⟨hinv', hregistered, hkept⟩ := bindPinned_inv gateW world (hinv.quiet hidentity)
          (by rwa [hidentity.registered]) hstill hon (hin.quiet hidentity)
        exact ⟨hinv', hregistered.trans hidentity.registered, fun hok _ => hkept hok⟩
      next hoff =>
        exact ⟨hinv.quiet hidentity, hidentity.registered, fun _ hon => absurd hon hoff⟩

/-- Every step in time keeps the invariant. -/
theorem loadMachine_inv {process next : Process} {step : LoadStep} (hinv : LoadInv process)
    (hin : InTime process step) (hstep : loadMachine.step process step = some next) :
    LoadInv next := by
  cases step with
  | construct config =>
      cases hstep
      have hold : ∀ id < process.registered,
          (process.construct config).provider id = process.provider id :=
        fun id hid => Function.update_of_ne (Nat.ne_of_lt hid) _ _
      have hkept : ∀ id < process.registered, Kept process id →
          Kept (process.construct config) id := by
        intro id hid h
        unfold Kept FullyLoaded
        rw [hold id hid]
        exact h
      refine ⟨?_, ?_, ?_⟩
      · intro id
        by_cases hid : id = process.registered
        · subst hid
          intro node hnode
          simp [Process.construct, Provider.new] at hnode
        · simp only [Process.construct, Function.update_of_ne hid]
          exact hinv.pins id
      · intro id hid
        obtain ⟨hlt, hbound⟩ := hinv.bound id hid
        refine ⟨Nat.lt_succ_of_lt hlt, fun hon => ?_⟩
        rw [hold id hlt] at hon
        exact ⟨(hbound hon).1, hkept id hlt (hbound hon).2⟩
      · intro n hn
        obtain ⟨hstarted, hle, hcovered⟩ := hinv.covered n hn
        refine ⟨hstarted, Nat.le_succ_of_le hle, fun id hid hon => ?_⟩
        have hlt := Nat.lt_of_lt_of_le hid hle
        rw [hold id hlt] at hon
        exact hkept id hlt (hcovered id hid hon)
  | bind id gateW world =>
      simp only [loadMachine] at hstep
      split at hstep
      next hid =>
        cases hstep
        obtain ⟨hinv', hregistered, hkept⟩ := bindProvider_inv gateW world hinv hid hin
        unfold Process.bind
        split
        next after reason heq => rwa [heq] at hinv'
        next after heq =>
          rw [heq] at hinv' hregistered hkept
          refine ⟨hinv'.pins, ?_, hinv'.covered⟩
          intro other hother
          rcases List.mem_append.mp hother with hold | hnew
          · exact hinv'.bound other hold
          · rw [List.mem_singleton.mp hnew]
            exact ⟨by rwa [hregistered], hkept rfl⟩
      next => cases hstep

theorem loadInv_initial : LoadInv .initial := by
  refine ⟨?_, ?_, ?_⟩
  · intro id node hnode
    cases hnode
  · intro id hid
    cases hid
  · intro n hn
    cases hn

/-- In every run whose binds are all in time, once the `bind` of a provider with
the pinned fill has returned, the provider is fully loaded. -/
theorem returned_fullyLoaded {steps : List LoadStep} {process : Process}
    (hmeets : loadMachine.Meets InTime .initial steps)
    (hrun : loadMachine.run .initial steps = some process) {id : Nat}
    (hreturned : id ∈ process.returned)
    (hon : (process.provider id).config.pinnedNvmeFill = true) : FullyLoaded process id := by
  have hinv : LoadInv process :=
    Machine.run_invariant (fun _ _ _ hinv hin hstep => loadMachine_inv hinv hin hstep)
      loadInv_initial hmeets hrun
  exact ((hinv.bound id hreturned).2 hon).2.2

section Demo

/-- The driver of a store of `count` files of `size` bytes, each of them one plain
extent behind the one before. A batch's id says how many reads it has. -/
def storeDevice (size count : Nat) (submit : Nat → List ReadBlocks → SubmitAnswer) : Device where
  fiemap path :=
    match (List.range count).find? fun i => path = "/store" ++ "/" ++ expertFileName i with
    | some i => .ok ⟨size, 1, 4096 + size * i, 0⟩
    | none => .error "ENOENT"
  submitBatch := submit
  batchWait _ id := .answered (id % 256) 0

/-- Every submit is accepted. -/
def accepts (ioctls : Nat) (reads : List ReadBlocks) : SubmitAnswer :=
  .answered 0 reads.length (256 * ioctls + reads.length)

/-- Every submit is refused. -/
def refuses (_ : Nat) (_ : List ReadBlocks) : SubmitAnswer := .failed "EINVAL"

/-- A process with such a store, and constants of `layoutBytes` bytes. -/
def storeWorld (size count layoutBytes : Nat) (submit : Nat → List ReadBlocks → SubmitAnswer) :
    World where
  drm := some "/dev/dri/renderD128"
  store := some "/store"
  partStart := 2048
  openFails := none
  registerBo id t := .ok (3 * id + t.val + 1, 3 * id + t.val)
  device := storeDevice size count submit
  engine := ⟨fun _ => layoutBytes, fun _ => true, fun _ => .ok ()⟩

/-- A layer of four experts with a census set. -/
def demoConfig (layerKey : Nat) (seed : List Nat) : ProviderConfig where
  layerKey := layerKey
  numExpert := 4
  capacity := seed.length
  staticPartition := true
  staticSeed := 0
  censusSeed := some seed
  pinnedNvmeFill := true
  gateUpWeightFormat := 0
  downWeightFormat := 0
  interSize := 128
  hiddenSize := 128

def demoWorld (count : Nat) (submit : Nat → List ReadBlocks → SubmitAnswer) : World :=
  storeWorld 24576 count 32768 submit

/-- The barrier throws on a refused submit; the `bind` repeated after it returns,
with the slot marked filled and nothing delivered. -/
theorem bind_again_fills_undelivered :
    ∃ process, loadMachine.run .initial
        [.construct (demoConfig 7 [1]), .bind 0 true (demoWorld 1 refuses),
          .bind 0 true (demoWorld 1 refuses)] = some process ∧
      0 ∈ process.returned ∧ (process.provider 0).config.pinnedNvmeFill = true ∧
      (process.provider 0).cache = ⟨1, [(1, 0)], [0]⟩ ∧ process.landed = [] ∧
      ¬FullyLoaded process 0 := by
  refine ⟨_, rfl, by decide, rfl, rfl, rfl, ?_⟩
  intro hloaded
  obtain ⟨entry, hentry, _⟩ := hloaded.2 (1, 0) (by decide) (by decide)
  cases hentry

/-- Two layers with two slots each; the first `bind` fills both. -/
def demoSteps : List LoadStep :=
  [.construct (demoConfig 7 [1, 3]), .construct (demoConfig 5 [0, 2]),
    .bind 0 true (demoWorld 4 accepts), .bind 1 true (demoWorld 4 accepts)]

theorem returned_fullyLoaded_demo :
    ∃ process, loadMachine.run .initial demoSteps = some process ∧
      process.returned = [0, 1] ∧ process.owner = [1, 0] ∧
      (process.provider 0).cache = ⟨2, [(1, 0), (3, 1)], [0, 1, 0, 1]⟩ ∧
      (process.provider 1).cache = ⟨2, [(0, 0), (2, 1)], [0, 1, 0, 1]⟩ ∧
      FullyLoaded process 0 ∧ FullyLoaded process 1 := by
  have hmeets : loadMachine.Meets InTime .initial demoSteps := by
    refine ⟨trivial, fun _ hfirst => ?_⟩
    cases hfirst
    refine ⟨trivial, fun _ hsecond => ?_⟩
    cases hsecond
    refine ⟨fun _ => .inl rfl, fun _ hbind => ?_⟩
    cases hbind
    exact ⟨fun _ => .inr ⟨2, rfl, by decide⟩, fun _ _ => trivial⟩
  exact ⟨_, rfl, rfl, rfl, rfl, rfl, returned_fullyLoaded hmeets rfl (by decide) rfl,
    returned_fullyLoaded hmeets rfl (by decide) rfl⟩

end Demo

end Arcint.Fill
