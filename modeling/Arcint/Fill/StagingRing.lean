import Mathlib.Data.List.Forall2
import Mathlib.Data.List.Infix
import Mathlib.Logic.Function.Basic
import Mathlib.Logic.Relation

/-! # Uploads through a staging ring

Patch 0006: a missed expert's tensor is staged in a buffer of the provider's ring and copied to its
slot without waiting. The host goes on while an in-order queue copies; before a buffer is used
again, the host waits for the copy out of it. Each provider has a ring of its own, all of them
share the queue with the kernels that read the slots.
-/

namespace Arcint.Fill

section Model

variable (P B : Type)

/-- A tensor for a slot of a device buffer, by the provider whose ring stages it. -/
structure Upload where
  provider : P
  mem : B
  dstOffset : ℕ
  payload : List UInt8

/-- What the host does in order: the uploads of a `fill_weights_memory`, its wait over the whole
batch, and the kernels after it. -/
inductive HostOp
  | upload (upload : Upload P B)
  | waitBatch
  | kernel

/-- A command on the queue; its event is its place. -/
inductive Command
  | copy (provider : P) (index size : ℕ) (mem : B) (dstOffset : ℕ)
  | kernel

/-- `StagingRing::Entry` -/
structure RingEntry where
  mem : ℕ → UInt8
  capacity : ℕ
  pending : Option ℕ

structure StagingRing where
  slotCount : ℕ
  entries : ℕ → RingEntry
  next : ℕ
  next_lt : next < slotCount

/-- Where the host is in an upload: it has a slot of the ring, the payload is in it, the copy is on
the queue. -/
inductive UploadStage
  | idle
  | acquired (upload : Upload P B) (index : ℕ)
  | staged (upload : Upload P B) (index : ℕ)
  | enqueued (upload : Upload P B) (index event : ℕ)

abbrev DeviceMemory := B → ℕ → UInt8

structure UploadState where
  rings : P → StagingRing
  stage : UploadStage P B
  todo : List (HostOp P B)
  pendingEvents : List ℕ
  /-- All commands so far, of which the device has run the first `done`. -/
  queue : List (Command P B)
  done : ℕ
  memory : DeviceMemory B
  /-- The device memory as each kernel found it. -/
  seen : List (DeviceMemory B)

end Model

section Steps

variable {P B : Type} [DecidableEq P] [DecidableEq B]

/-- `size` bytes of a host buffer at an offset of a device buffer. -/
def DeviceMemory.write (memory : DeviceMemory B) (mem : B) (dstOffset size : ℕ)
    (bytes : ℕ → UInt8) : DeviceMemory B :=
  Function.update memory mem fun address =>
    if dstOffset ≤ address ∧ address < dstOffset + size then bytes (address - dstOffset)
    else memory mem address

/-- The bytes of a payload. -/
def Upload.bytes (upload : Upload P B) (k : ℕ) : UInt8 := upload.payload.getD k 0

/-! ## Without a ring -/

/-- A blocking copy, and a kernel right behind what was copied. -/
def blockingStep (state : DeviceMemory B × List (DeviceMemory B)) :
    HostOp P B → DeviceMemory B × List (DeviceMemory B)
  | .upload u => (state.1.write u.mem u.dstOffset u.payload.length u.bytes, state.2)
  | .waitBatch => state
  | .kernel => (state.1, state.2 ++ [state.1])

/-- The path before the patch. -/
def blockingRun (state : DeviceMemory B × List (DeviceMemory B)) (ops : List (HostOp P B)) :
    DeviceMemory B × List (DeviceMemory B) :=
  ops.foldl blockingStep state

omit [DecidableEq P] in
theorem blockingRun_append (state : DeviceMemory B × List (DeviceMemory B))
    (first second : List (HostOp P B)) :
    blockingRun state (first ++ second) = blockingRun (blockingRun state first) second :=
  List.foldl_append

omit [DecidableEq P] in
theorem blockingRun_seen (state : DeviceMemory B × List (DeviceMemory B))
    (ops : List (HostOp P B)) : state.2 <+: (blockingRun state ops).2 := by
  induction ops generalizing state with
  | nil => exact List.prefix_rfl
  | cons op ops ih =>
      refine List.IsPrefix.trans ?_ (ih (blockingStep state op))
      cases op with
      | upload u => exact List.prefix_rfl
      | waitBatch => exact List.prefix_rfl
      | kernel => exact List.prefix_append _ _

theorem DeviceMemory.write_congr {memory : DeviceMemory B} {mem : B} {dstOffset size : ℕ}
    {bytes bytes' : ℕ → UInt8} (h : ∀ k < size, bytes k = bytes' k) :
    memory.write mem dstOffset size bytes = memory.write mem dstOffset size bytes' := by
  rw [write, write]
  congr 1
  funext address
  split
  · exact h _ (by omega)
  · rfl

/-! ## With a ring -/

namespace UploadState

variable (s : UploadState P B)

def entry (provider : P) (index : ℕ) : RingEntry := (s.rings provider).entries index

def setEntry (provider : P) (index : ℕ) (entry : RingEntry) : UploadState P B :=
  { s with
    rings := Function.update s.rings provider
      { s.rings provider with
        entries := Function.update (s.rings provider).entries index entry } }

/-- `_next` moves on. -/
def advance (provider : P) : UploadState P B :=
  { s with
    rings := Function.update s.rings provider
      { s.rings provider with
        next := ((s.rings provider).next + 1) % (s.rings provider).slotCount
        next_lt := Nat.mod_lt _ (Nat.zero_lt_of_lt (s.rings provider).next_lt) } }

end UploadState

/-- An event that is none, or whose command has run. -/
def waited (done : ℕ) : Option ℕ → Prop
  | none => True
  | some event => event < done

/-- What `acquire` leaves of an entry: a buffer that is too small is allocated anew. -/
def RingEntry.acquired (entry : RingEntry) (bytes : ℕ) (fresh : ℕ → UInt8) : RingEntry :=
  if entry.capacity < bytes then { mem := fresh, capacity := bytes, pending := none }
  else { entry with pending := none }

/-- `memcpy` of a payload to the start of a staging buffer. -/
def Upload.stageIn (upload : Upload P B) (entry : RingEntry) : RingEntry :=
  { entry with
    mem := fun k => if k < upload.payload.length then upload.bytes k else entry.mem k }

/-- A step of the host, or the device running its next command. The buffer that `acquire` may
allocate holds anything. -/
inductive UploadStep : UploadState P B → UploadState P B → Prop
  | acquire (s : UploadState P B) (u : Upload P B) (rest : List (HostOp P B)) (fresh : ℕ → UInt8)
      (hstage : s.stage = .idle) (htodo : s.todo = .upload u :: rest)
      (hwait : waited s.done (s.entry u.provider (s.rings u.provider).next).pending) :
      UploadStep s
        { (s.setEntry u.provider (s.rings u.provider).next
            ((s.entry u.provider (s.rings u.provider).next).acquired
              u.payload.length fresh)).advance u.provider with
          stage := .acquired u (s.rings u.provider).next
          todo := rest }
  | memcpy (s : UploadState P B) (u : Upload P B) (index : ℕ)
      (hstage : s.stage = .acquired u index) :
      UploadStep s { s.setEntry u.provider index (u.stageIn (s.entry u.provider index)) with
        stage := .staged u index }
  | enqueue (s : UploadState P B) (u : Upload P B) (index : ℕ)
      (hstage : s.stage = .staged u index) :
      UploadStep s { s with
        stage := .enqueued u index s.queue.length
        queue := s.queue ++ [.copy u.provider index u.payload.length u.mem u.dstOffset] }
  | retire (s : UploadState P B) (u : Upload P B) (index event : ℕ)
      (hstage : s.stage = .enqueued u index event) :
      UploadStep s
        { s.setEntry u.provider index { s.entry u.provider index with pending := some event } with
          stage := .idle
          pendingEvents := s.pendingEvents ++ [event] }
  | waitBatch (s : UploadState P B) (rest : List (HostOp P B)) (hstage : s.stage = .idle)
      (htodo : s.todo = .waitBatch :: rest) (hwait : ∀ event ∈ s.pendingEvents, event < s.done) :
      UploadStep s { s with todo := rest, pendingEvents := [] }
  | kernel (s : UploadState P B) (rest : List (HostOp P B)) (hstage : s.stage = .idle)
      (htodo : s.todo = .kernel :: rest) :
      UploadStep s { s with todo := rest, queue := s.queue ++ [.kernel] }
  | runCopy (s : UploadState P B) (provider : P) (index size : ℕ) (mem : B) (dstOffset : ℕ)
      (hqueue : s.queue[s.done]? = some (.copy provider index size mem dstOffset)) :
      UploadStep s { s with
        done := s.done + 1
        memory := s.memory.write mem dstOffset size (s.entry provider index).mem }
  | runKernel (s : UploadState P B) (hqueue : s.queue[s.done]? = some .kernel) :
      UploadStep s { s with done := s.done + 1, seen := s.seen ++ [s.memory] }

/-! ## States and their runs -/

namespace UploadStage

/-- The upload that is not on the queue yet. -/
def unqueued : UploadStage P B → List (HostOp P B)
  | .acquired u _ | .staged u _ => [.upload u]
  | .idle | .enqueued _ _ _ => []

/-- The host is filling the buffer, or has not recorded the copy out of it. -/
def Holds (stage : UploadStage P B) (provider : P) (index : ℕ) : Prop :=
  match stage with
  | .idle => False
  | .acquired u i | .staged u i | .enqueued u i _ => u.provider = provider ∧ i = index

end UploadStage

namespace UploadState

/-- Nothing on the queue yet, and no ring in use. -/
def start (rings : P → StagingRing) (memory : DeviceMemory B) (program : List (HostOp P B)) :
    UploadState P B where
  rings := rings
  stage := .idle
  todo := program
  pendingEvents := []
  queue := []
  done := 0
  memory := memory
  seen := []

/-- The host is through, and the device has run everything. -/
def Finished (s : UploadState P B) : Prop :=
  s.stage = .idle ∧ s.todo = [] ∧ s.done = s.queue.length

section Entries

variable (s : UploadState P B) (provider other : P) (index i : ℕ) (entry : RingEntry)

omit [DecidableEq B] in
theorem entry_setEntry : (s.setEntry provider index entry).entry other i =
    if other = provider ∧ i = index then entry else s.entry other i := by
  rw [UploadState.entry, setEntry]
  by_cases hother : other = provider
  · subst hother
    by_cases hi : i = index <;> simp [hi, UploadState.entry]
  · simp [hother, UploadState.entry]

omit [DecidableEq B] in
@[simp] theorem entry_advance : (s.advance provider).entry other i = s.entry other i := by
  rw [UploadState.entry, advance]
  by_cases hother : other = provider
  · subst hother
    simp [UploadState.entry]
  · simp [hother, UploadState.entry]

end Entries

end UploadState

/-- A command is on the queue for an operation. -/
inductive Issued : Command P B → HostOp P B → Prop
  | copy (u : Upload P B) (index : ℕ) :
      Issued (.copy u.provider index u.payload.length u.mem u.dstOffset) (.upload u)
  | kernel : Issued .kernel .kernel

/-- What holds between the steps; `issued` are the operations whose commands are on the queue. -/
structure UploadInv (memory : DeviceMemory B) (program : List (HostOp P B)) (s : UploadState P B)
    (issued : List (HostOp P B)) : Prop where
  queued : List.Forall₂ Issued s.queue issued
  program_eq : blockingRun (memory, []) (issued ++ (s.stage.unqueued ++ s.todo)) =
    blockingRun (memory, []) program
  done_le : s.done ≤ s.queue.length
  run_eq : blockingRun (memory, []) (issued.take s.done) = (s.memory, s.seen)
  /-- A buffer that a copy is to read holds that copy's payload, and is not handed out. -/
  flight : ∀ i u index, s.done ≤ i → issued[i]? = some (.upload u) →
    s.queue[i]? = some (.copy u.provider index u.payload.length u.mem u.dstOffset) →
    ((s.entry u.provider index).pending = some i ∨
      ∃ v, s.stage = .enqueued v index i ∧ v.provider = u.provider) ∧
      ∀ k < u.payload.length, (s.entry u.provider index).mem k = u.bytes k
  held : ∀ provider index, s.stage.Holds provider index → (s.entry provider index).pending = none
  staged : ∀ u index, s.stage = .staged u index →
    ∀ k < u.payload.length, (s.entry u.provider index).mem k = u.bytes k
  pending_lt : ∀ provider index event, (s.entry provider index).pending = some event →
    event < s.queue.length
  batch_lt : ∀ event ∈ s.pendingEvents, event < s.queue.length
  enqueued_lt : ∀ u index event, s.stage = .enqueued u index event → event < s.queue.length

namespace UploadInv

variable {memory : DeviceMemory B} {program : List (HostOp P B)} {s : UploadState P B}
variable {issued : List (HostOp P B)}

omit [DecidableEq P] in
/-- A copy that the device has not run is the pending one of its buffer, unless the host is about
to record it. -/
theorem pending_of_flight (h : UploadInv memory program s issued) {v : Upload P B} {i index : ℕ}
    (hi : s.done ≤ i) (hissued : issued[i]? = some (.upload v))
    (hqueue : s.queue[i]? = some (.copy v.provider index v.payload.length v.mem v.dstOffset))
    (hstage : ∀ w j event, s.stage ≠ .enqueued w j event) :
    (s.entry v.provider index).pending = some i := by
  rcases (h.flight i v index hi hissued hqueue).1 with hpending | ⟨w, hw, -⟩
  · exact hpending
  · exact absurd hw (hstage w index i)

/-- `acquire` hands out a buffer that no copy on the queue is to read. -/
theorem acquire (h : UploadInv memory program s issued) {u : Upload P B}
    {rest : List (HostOp P B)} (fresh : ℕ → UInt8) (hstage : s.stage = .idle)
    (htodo : s.todo = .upload u :: rest)
    (hwait : waited s.done (s.entry u.provider (s.rings u.provider).next).pending) :
    UploadInv memory program
      { (s.setEntry u.provider (s.rings u.provider).next
          ((s.entry u.provider (s.rings u.provider).next).acquired u.payload.length fresh)).advance
            u.provider with
        stage := .acquired u (s.rings u.provider).next
        todo := rest } issued := by
  have hentry : ∀ provider i, UploadState.entry
      ((s.setEntry u.provider (s.rings u.provider).next
        ((s.entry u.provider (s.rings u.provider).next).acquired u.payload.length fresh)).advance
          u.provider) provider i =
      if provider = u.provider ∧ i = (s.rings u.provider).next then
        (s.entry u.provider (s.rings u.provider).next).acquired u.payload.length fresh
      else s.entry provider i := fun provider i => by
    rw [UploadState.entry_advance, UploadState.entry_setEntry]
  generalize (s.rings u.provider).next = next at hwait hentry ⊢
  have hnone : ((s.entry u.provider next).acquired u.payload.length fresh).pending = none := by
    rw [RingEntry.acquired]
    split <;> rfl
  generalize (s.entry u.provider next).acquired u.payload.length fresh = entry at hentry hnone ⊢
  refine ⟨h.queued, ?_, h.done_le, h.run_eq, ?_, ?_, ?_, ?_, h.batch_lt, ?_⟩
  · have hops := h.program_eq
    rwa [hstage, htodo] at hops
  · intro i v index hi hissued hqueue
    have hpending := h.pending_of_flight hi hissued hqueue fun w j event => by
      rw [hstage]
      exact nofun
    have hne : ¬ (v.provider = u.provider ∧ index = next) := by
      rintro ⟨hprovider, rfl⟩
      rw [← hprovider, hpending] at hwait
      exact absurd hwait (not_lt.mpr hi)
    refine ⟨.inl ?_, ?_⟩
    · exact (congrArg RingEntry.pending ((hentry _ _).trans (if_neg hne))).trans hpending
    · intro k hk
      exact (congrFun (congrArg RingEntry.mem ((hentry _ _).trans (if_neg hne))) k).trans
        ((h.flight i v index hi hissued hqueue).2 k hk)
  · rintro provider index ⟨rfl, rfl⟩
    exact (congrArg RingEntry.pending ((hentry _ _).trans (if_pos ⟨rfl, rfl⟩))).trans hnone
  · intro v index hstaged
    cases hstaged
  · intro provider index event hpending
    replace hpending := (congrArg RingEntry.pending (hentry provider index)).symm.trans hpending
    split at hpending
    · rw [hnone] at hpending
      cases hpending
    · exact h.pending_lt provider index event hpending
  · intro v index event henqueued
    cases henqueued

/-- The payload goes into a buffer that the host holds. -/
theorem memcpy (h : UploadInv memory program s issued) {u : Upload P B} {index : ℕ}
    (hstage : s.stage = .acquired u index) :
    UploadInv memory program
      { s.setEntry u.provider index (u.stageIn (s.entry u.provider index)) with
        stage := .staged u index } issued := by
  have hentry : ∀ provider i, UploadState.entry
      (s.setEntry u.provider index (u.stageIn (s.entry u.provider index))) provider i =
      if provider = u.provider ∧ i = index then u.stageIn (s.entry u.provider index)
      else s.entry provider i := fun _ _ => UploadState.entry_setEntry _ _ _ _ _ _
  have hpending : ∀ provider i, (UploadState.entry
      (s.setEntry u.provider index (u.stageIn (s.entry u.provider index))) provider i).pending =
      (s.entry provider i).pending := by
    intro provider i
    rw [hentry]
    split
    · rename_i heq
      rw [heq.1, heq.2]
      rfl
    · rfl
  have hheld := h.held u.provider index (by rw [hstage]; exact ⟨rfl, rfl⟩)
  refine ⟨h.queued, ?_, h.done_le, h.run_eq, ?_, ?_, ?_, ?_, h.batch_lt, ?_⟩
  · have hops := h.program_eq
    rwa [hstage] at hops
  · intro i v j hi hissued hqueue
    have hflight := h.pending_of_flight hi hissued hqueue fun w j event => by
      rw [hstage]
      exact nofun
    have hne : ¬ (v.provider = u.provider ∧ j = index) := by
      rintro ⟨hprovider, rfl⟩
      rw [hprovider, hheld] at hflight
      cases hflight
    refine ⟨.inl ((hpending _ _).trans hflight), fun k hk => ?_⟩
    exact (congrFun (congrArg RingEntry.mem ((hentry _ _).trans (if_neg hne))) k).trans
      ((h.flight i v j hi hissued hqueue).2 k hk)
  · rintro provider i ⟨rfl, rfl⟩
    exact (hpending _ _).trans hheld
  · intro v i hstaged k hk
    cases hstaged
    refine (congrFun (congrArg RingEntry.mem ((hentry _ _).trans (if_pos ⟨rfl, rfl⟩))) k).trans ?_
    exact if_pos hk
  · intro provider i event hevent
    exact h.pending_lt provider i event ((hpending _ _).symm.trans hevent)
  · intro v i event henqueued
    cases henqueued

omit [DecidableEq P] in
/-- The copy out of a buffer is queued with its payload in it. -/
theorem enqueue (h : UploadInv memory program s issued) {u : Upload P B} {index : ℕ}
    (hstage : s.stage = .staged u index) :
    UploadInv memory program
      { s with
        stage := .enqueued u index s.queue.length
        queue := s.queue ++ [.copy u.provider index u.payload.length u.mem u.dstOffset] }
      (issued ++ [.upload u]) := by
  have hlength : s.queue.length = issued.length := h.queued.length_eq
  refine ⟨List.rel_append h.queued (.cons (.copy u index) .nil), ?_, ?_, ?_, ?_, ?_, ?_, ?_, ?_, ?_⟩
  · have hops := h.program_eq
    rw [hstage] at hops
    simpa [UploadStage.unqueued] using hops
  · simpa using h.done_le.trans (Nat.le_succ _)
  · rw [List.take_append_of_le_length (hlength ▸ h.done_le)]
    exact h.run_eq
  · intro i v j hi hissued hqueue
    rcases Nat.lt_or_ge i s.queue.length with hlt | hge
    · rw [List.getElem?_append_left (hlength ▸ hlt)] at hissued
      rw [List.getElem?_append_left hlt] at hqueue
      have hflight := h.pending_of_flight hi hissued hqueue fun w j event => by
        rw [hstage]
        exact nofun
      exact ⟨.inl hflight, (h.flight i v j hi hissued hqueue).2⟩
    · have hi : i = s.queue.length := by
        have hlt := (List.getElem?_eq_some_iff.mp hqueue).1
        rw [List.length_append, List.length_singleton] at hlt
        omega
      subst hi
      rw [hlength, List.getElem?_concat_length] at hissued
      rw [List.getElem?_concat_length] at hqueue
      cases hissued
      cases hqueue
      exact ⟨.inr ⟨u, rfl, rfl⟩, h.staged u index hstage⟩
  · rintro provider i hholds
    exact h.held provider i (by rw [hstage]; exact hholds)
  · intro v i hstaged
    cases hstaged
  · intro provider i event hevent
    exact (h.pending_lt provider i event hevent).trans (by simp)
  · intro event hevent
    exact (h.batch_lt event hevent).trans (by simp)
  · intro v i event henqueued
    cases henqueued
    simp

/-- The copy is recorded as the one to wait for. -/
theorem retire (h : UploadInv memory program s issued) {u : Upload P B} {index event : ℕ}
    (hstage : s.stage = .enqueued u index event) :
    UploadInv memory program
      { s.setEntry u.provider index { s.entry u.provider index with pending := some event } with
        stage := .idle
        pendingEvents := s.pendingEvents ++ [event] } issued := by
  have hentry : ∀ provider i, UploadState.entry (s.setEntry u.provider index
        { s.entry u.provider index with pending := some event }) provider i =
      if provider = u.provider ∧ i = index then
        { s.entry u.provider index with pending := some event }
      else s.entry provider i := fun _ _ => UploadState.entry_setEntry _ _ _ _ _ _
  have hmem : ∀ provider i, (UploadState.entry (s.setEntry u.provider index
        { s.entry u.provider index with pending := some event }) provider i).mem =
      (s.entry provider i).mem := by
    intro provider i
    rw [hentry]
    split
    · rename_i heq
      rw [heq.1, heq.2]
    · rfl
  have hlt := h.enqueued_lt u index event hstage
  refine ⟨h.queued, ?_, h.done_le, h.run_eq, ?_, ?_, ?_, ?_, ?_, ?_⟩
  · have hops := h.program_eq
    rwa [hstage] at hops
  · intro i v j hi hissued hqueue
    obtain ⟨hflight, hbytes⟩ := h.flight i v j hi hissued hqueue
    refine ⟨.inl ?_, fun k hk => (congrFun (hmem _ _) k).trans (hbytes k hk)⟩
    refine (congrArg RingEntry.pending (hentry v.provider j)).trans ?_
    by_cases heq : v.provider = u.provider ∧ j = index
    · rw [if_pos heq]
      have hheld := h.held u.provider index (by rw [hstage]; exact ⟨rfl, rfl⟩)
      rcases hflight with hflight | ⟨w, hw, -⟩
      · rw [heq.1, heq.2, hheld] at hflight
        cases hflight
      · rw [hstage] at hw
        cases hw
        rfl
    · rw [if_neg heq]
      rcases hflight with hflight | ⟨w, hw, hprovider⟩
      · exact hflight
      · rw [hstage] at hw
        cases hw
        exact absurd ⟨hprovider.symm, rfl⟩ heq
  · intro provider i hholds
    exact hholds.elim
  · intro v i hstaged
    cases hstaged
  · intro provider i other hpending
    replace hpending := (congrArg RingEntry.pending (hentry provider i)).symm.trans hpending
    split at hpending
    · cases hpending
      exact hlt
    · exact h.pending_lt provider i other hpending
  · intro other hother
    rcases List.mem_append.mp hother with hother | hother
    · exact h.batch_lt other hother
    · exact List.mem_singleton.mp hother ▸ hlt
  · intro v i other henqueued
    cases henqueued

omit [DecidableEq P] in
theorem waitBatch (h : UploadInv memory program s issued) {rest : List (HostOp P B)}
    (hstage : s.stage = .idle) (htodo : s.todo = .waitBatch :: rest) :
    UploadInv memory program { s with todo := rest, pendingEvents := [] } issued := by
  refine ⟨h.queued, ?_, h.done_le, h.run_eq, h.flight, h.held, h.staged, h.pending_lt, ?_,
    h.enqueued_lt⟩
  · have hops := h.program_eq
    rw [hstage, htodo] at hops
    rw [← hops, hstage]
    simp [UploadStage.unqueued, blockingRun, blockingStep]
  · intro event hevent
    cases hevent

omit [DecidableEq P] in
theorem kernel (h : UploadInv memory program s issued) {rest : List (HostOp P B)}
    (hstage : s.stage = .idle) (htodo : s.todo = .kernel :: rest) :
    UploadInv memory program { s with todo := rest, queue := s.queue ++ [.kernel] }
      (issued ++ [.kernel]) := by
  have hlength : s.queue.length = issued.length := h.queued.length_eq
  refine ⟨List.rel_append h.queued (.cons .kernel .nil), ?_, ?_, ?_, ?_, h.held, h.staged, ?_, ?_,
    ?_⟩
  · have hops := h.program_eq
    rw [hstage, htodo] at hops
    rw [← hops, hstage]
    simp [UploadStage.unqueued]
  · simpa using h.done_le.trans (Nat.le_succ _)
  · rw [List.take_append_of_le_length (hlength ▸ h.done_le)]
    exact h.run_eq
  · intro i v j hi hissued hqueue
    rcases Nat.lt_or_ge i s.queue.length with hlt | hge
    · rw [List.getElem?_append_left (hlength ▸ hlt)] at hissued
      rw [List.getElem?_append_left hlt] at hqueue
      exact h.flight i v j hi hissued hqueue
    · rw [List.getElem?_append_right hge, List.getElem?_singleton] at hqueue
      split at hqueue <;> cases hqueue
  · intro provider i event hevent
    exact (h.pending_lt provider i event hevent).trans (by simp)
  · intro event hevent
    exact (h.batch_lt event hevent).trans (by simp)
  · intro v i event henqueued
    exact (h.enqueued_lt v i event henqueued).trans (by simp)

omit [DecidableEq P] in
theorem exists_issued (h : UploadInv memory program s issued) {i : ℕ} {command : Command P B}
    (hqueue : s.queue[i]? = some command) :
    ∃ op, issued[i]? = some op ∧ Issued command op := by
  obtain ⟨hi, rfl⟩ := List.getElem?_eq_some_iff.mp hqueue
  have hi' : i < issued.length := h.queued.length_eq ▸ hi
  exact ⟨issued[i], List.getElem?_eq_getElem hi', (List.forall₂_iff_get.mp h.queued).2 i hi hi'⟩

omit [DecidableEq P] in
/-- The device's next command does what the blocking path did at its operation. -/
theorem run (h : UploadInv memory program s issued) {op : HostOp P B}
    {memory' : DeviceMemory B} {seen : List (DeviceMemory B)}
    (hissued : issued[s.done]? = some op)
    (hop : blockingStep (s.memory, s.seen) op = (memory', seen)) :
    UploadInv memory program { s with done := s.done + 1, memory := memory', seen := seen }
      issued := by
  have hlt : s.done < s.queue.length := by
    rw [h.queued.length_eq]
    exact (List.getElem?_eq_some_iff.mp hissued).1
  refine ⟨h.queued, h.program_eq, hlt, ?_, ?_, h.held, h.staged, h.pending_lt, h.batch_lt,
    h.enqueued_lt⟩
  · rw [List.take_add_one, hissued, blockingRun_append, h.run_eq]
    exact hop
  · intro i v j hi hupload hqueue
    exact h.flight i v j (Nat.le_of_succ_le hi) hupload hqueue

theorem step {t : UploadState P B} (h : UploadInv memory program s issued)
    (hstep : UploadStep s t) : ∃ issued, UploadInv memory program t issued := by
  cases hstep with
  | acquire u rest fresh hstage htodo hwait => exact ⟨_, h.acquire fresh hstage htodo hwait⟩
  | memcpy u index hstage => exact ⟨_, h.memcpy hstage⟩
  | enqueue u index hstage => exact ⟨_, h.enqueue hstage⟩
  | retire u index event hstage => exact ⟨_, h.retire hstage⟩
  | waitBatch rest hstage htodo hwait => exact ⟨_, h.waitBatch hstage htodo⟩
  | kernel rest hstage htodo => exact ⟨_, h.kernel hstage htodo⟩
  | runCopy provider index size mem dstOffset hqueue =>
      obtain ⟨op, hissued, hcopy⟩ := h.exists_issued hqueue
      cases hcopy with
      | copy u index =>
          have hbytes := (h.flight s.done u index le_rfl hissued hqueue).2
          refine ⟨_, h.run hissued ?_⟩
          rw [blockingStep, DeviceMemory.write_congr fun k hk => (hbytes k hk).symm]
  | runKernel hqueue =>
      obtain ⟨op, hissued, hkernel⟩ := h.exists_issued hqueue
      cases hkernel
      exact ⟨_, h.run hissued rfl⟩

end UploadInv

/-! ## Runs -/

section Runs

variable {rings : P → StagingRing} {memory : DeviceMemory B} {program : List (HostOp P B)}
variable {s : UploadState P B}

theorem uploadInv_of_reach (hrings : ∀ provider i, ((rings provider).entries i).pending = none)
    (h : Relation.ReflTransGen UploadStep (.start rings memory program) s) :
    ∃ issued, UploadInv memory program s issued := by
  induction h with
  | refl =>
      refine ⟨[], .nil, rfl, le_rfl, rfl, ?_, ?_, ?_, ?_, ?_, ?_⟩
      · intro i v j hi hissued hqueue
        cases hqueue
      · intro provider i hholds
        exact hholds.elim
      · intro u i hstaged
        cases hstaged
      · intro provider i event hpending
        exact absurd ((hrings provider i).symm.trans hpending) nofun
      · intro event hevent
        cases hevent
      · intro u i event henqueued
        cases henqueued
  | tail _ hstep ih =>
      obtain ⟨issued, hinv⟩ := ih
      exact hinv.step hstep

/-- The steps that are left at most. -/
def UploadState.left (s : UploadState P B) : ℕ :=
  let ofStage := match s.stage with
    | .idle => 0
    | .acquired _ _ => 4
    | .staged _ _ => 3
    | .enqueued _ _ _ => 1
  5 * s.todo.length + ofStage + (s.queue.length - s.done)

theorem UploadStep.left_lt {t : UploadState P B} (h : UploadStep s t) : t.left < s.left := by
  cases h with
  | acquire u rest fresh hstage htodo hwait =>
      simp only [UploadState.left, UploadState.advance, UploadState.setEntry, hstage, htodo,
        List.length_cons]
      omega
  | memcpy u index hstage =>
      simp only [UploadState.left, UploadState.setEntry, hstage]
      omega
  | enqueue u index hstage =>
      simp only [UploadState.left, hstage, List.length_append, List.length_singleton]
      omega
  | retire u index event hstage =>
      simp only [UploadState.left, UploadState.setEntry, hstage]
      omega
  | waitBatch rest hstage htodo hwait =>
      simp only [UploadState.left, hstage, htodo, List.length_cons]
      omega
  | kernel rest hstage htodo =>
      simp only [UploadState.left, hstage, htodo, List.length_cons, List.length_append,
        List.length_nil]
      omega
  | runCopy provider index size mem dstOffset hqueue =>
      have hlt := (List.getElem?_eq_some_iff.mp hqueue).1
      simp only [UploadState.left]
      omega
  | runKernel hqueue =>
      have hlt := (List.getElem?_eq_some_iff.mp hqueue).1
      simp only [UploadState.left]
      omega

/-- The host never waits for something that the device does not get to. -/
theorem UploadInv.exists_step {issued : List (HostOp P B)}
    (h : UploadInv memory program s issued) (hfinished : ¬ s.Finished) :
    ∃ t, UploadStep s t := by
  rcases Nat.lt_or_ge s.done s.queue.length with hlt | hge
  · have hqueue := List.getElem?_eq_getElem hlt
    cases hcommand : s.queue[s.done] with
    | copy provider index size mem dstOffset =>
        rw [hcommand] at hqueue
        exact ⟨_, .runCopy s provider index size mem dstOffset hqueue⟩
    | kernel =>
        rw [hcommand] at hqueue
        exact ⟨_, .runKernel s hqueue⟩
  · cases hstage : s.stage with
    | acquired u index => exact ⟨_, .memcpy s u index hstage⟩
    | staged u index => exact ⟨_, .enqueue s u index hstage⟩
    | enqueued u index event => exact ⟨_, .retire s u index event hstage⟩
    | idle =>
        cases htodo : s.todo with
        | nil => exact absurd ⟨hstage, htodo, le_antisymm h.done_le hge⟩ hfinished
        | cons op rest =>
            cases op with
            | upload u =>
                have hwait : waited s.done
                    (s.entry u.provider (s.rings u.provider).next).pending := by
                  cases hpending : (s.entry u.provider (s.rings u.provider).next).pending with
                  | none => trivial
                  | some event => exact (h.pending_lt _ _ _ hpending).trans_le hge
                exact ⟨_, .acquire s u rest (fun _ => 0) hstage htodo hwait⟩
            | waitBatch =>
                exact ⟨_, .waitBatch s rest hstage htodo fun event hevent =>
                  (h.batch_lt event hevent).trans_le hge⟩
            | kernel => exact ⟨_, .kernel s rest hstage htodo⟩

/-- Whatever the sizes of the rings, however the queue runs beside the host: no kernel ever sees
other memory than behind blocking copies, the host is never stuck, no run goes on forever, and in
the end the slots hold what blocking copies put there. -/
theorem uploads_as_blocking
    (hrings : ∀ provider i, ((rings provider).entries i).pending = none)
    (h : Relation.ReflTransGen UploadStep (.start rings memory program) s) :
    s.seen <+: (blockingRun (memory, []) program).2 ∧
      (s.Finished → blockingRun (memory, []) program = (s.memory, s.seen)) ∧
      (¬ s.Finished → ∃ t, UploadStep s t) ∧
      Acc (fun t s : UploadState P B => UploadStep s t) s := by
  obtain ⟨issued, hinv⟩ := uploadInv_of_reach hrings h
  refine ⟨?_, ?_, hinv.exists_step, ?_⟩
  · have hseen := blockingRun_seen (blockingRun (memory, []) (issued.take s.done))
      (issued.drop s.done ++ (s.stage.unqueued ++ s.todo))
    rw [← blockingRun_append, ← List.append_assoc, List.take_append_drop, hinv.program_eq,
      hinv.run_eq] at hseen
    exact hseen
  · rintro ⟨hstage, htodo, hdone⟩
    rw [← hinv.program_eq, hstage, htodo, ← hinv.run_eq, hdone, hinv.queued.length_eq,
      List.take_length]
    simp [UploadStage.unqueued]
  · exact Subrelation.accessible (fun hstep => UploadStep.left_lt hstep)
      (InvImage.accessible UploadState.left (Nat.lt_wfRel.wf.apply _))

end Runs

end Steps

/-- A ring of one slot that was not used yet. -/
def unusedRing : StagingRing := ⟨1, fun _ => ⟨fun _ => 0, 0, none⟩, 0, Nat.one_pos⟩

def firstTensor : Upload Unit Unit := ⟨(), (), 3, [7]⟩

def secondTensor : Upload Unit Unit := ⟨(), (), 4, [9, 8]⟩

/-- Two uploads through one ring, the wait over both, and a kernel. -/
def twoUploads : List (HostOp Unit Unit) :=
  [.upload firstTensor, .upload secondTensor, .waitBatch, .kernel]

def beforeUploads : UploadState Unit Unit := .start (fun _ => unusedRing) (fun _ _ => 0) twoUploads

/-- The second upload takes the slot of the first once its copy has run, and the kernel sees
both. -/
theorem uploads_as_blocking_two : ∃ s : UploadState Unit Unit, s.Finished ∧
    s.seen.map (fun memory => (memory () 3, memory () 4, memory () 5)) = [(7, 9, 8)] ∧
    s.seen <+: (blockingRun (fun _ _ => 0, []) twoUploads).2 ∧
      (s.Finished → blockingRun (fun _ _ => 0, []) twoUploads = (s.memory, s.seen)) ∧
      (¬ s.Finished → ∃ t, UploadStep s t) ∧
      Acc (fun t s : UploadState Unit Unit => UploadStep s t) s := by
  -- the first copy runs before the host has recorded its event, the second one after
  have hfirst := Relation.ReflTransGen.single
      (UploadStep.acquire beforeUploads firstTensor _ (fun _ => 0) rfl rfl trivial)
    |>.tail (.memcpy _ firstTensor 0 rfl)
    |>.tail (.enqueue _ firstTensor 0 rfl)
    |>.tail (.runCopy _ () 0 1 () 3 rfl)
    |>.tail (.retire _ firstTensor 0 0 rfl)
  have hsecond := hfirst
    |>.tail (.acquire _ secondTensor _ (fun _ => 0) rfl rfl Nat.one_pos)
    |>.tail (.memcpy _ secondTensor 0 rfl)
    |>.tail (.enqueue _ secondTensor 0 rfl)
    |>.tail (.retire _ secondTensor 0 1 rfl)
    |>.tail (.runCopy _ () 0 2 () 4 rfl)
  have hrun := hsecond
    |>.tail (.waitBatch _ _ rfl rfl (by decide))
    |>.tail (.kernel _ _ rfl rfl)
    |>.tail (.runKernel _ rfl)
  exact ⟨_, ⟨rfl, rfl, rfl⟩, by decide, uploads_as_blocking (fun _ _ => rfl) hrun⟩

end Arcint.Fill
