import Arcint.Foundation.Machine
import Arcint.Foundation.Slice
import Arcint.Segment.Slots
import Mathlib.Algebra.BigOperators.Group.Finset.Basic
import Mathlib.Algebra.Order.BigOperators.Group.Finset

/-! # The buffer set and its refills

One allocation serves every segment. A refill copies a segment's bodies from the
blob into their slots, one after another, and moves the residency marker when
the last byte has landed. A refill that fails on the way leaves the marker, but
not the slots: they hold what was copied before the failure.
-/

namespace Arcint.Segment

open Foundation

/-- The start of a slot: the sum of the byte counts before it, as a word. -/
def slotStart (plan : Plan) : Nat → Nat
  | 0 => 0
  | s + 1 => (slotStart plan s + plan.bufferBytes s) % wordModulus

/-- The host allocation, with the start of every slot and of its end. -/
structure BufferSet where
  plan : Plan
  offsets : List Nat
  arena : List UInt8

namespace BufferSet

def new (plan : Plan) : BufferSet where
  plan := plan
  offsets := (List.range (plan.slotsPerSegment + 1)).map (slotStart plan)
  arena := List.replicate (slotStart plan plan.slotsPerSegment) 0

def slots (set : BufferSet) : Nat := set.offsets.length - 1

def checked (set : BufferSet) (slot : Nat) : Except String Unit :=
  ensure (slot < set.slots)
    ("buffer set has " ++ toString set.slots ++ " slots, slot " ++ toString slot ++
      " was asked for")

/-- The address of a slot, relative to the base of the arena. -/
def slotPtr (set : BufferSet) (slot : Nat) : Except String Nat := do
  set.checked slot
  return set.offsets.getD slot 0

def slotBytes (set : BufferSet) (slot : Nat) : Except String Nat := do
  set.checked slot
  return (set.offsets.getD (slot + 1) 0 + wordModulus - set.offsets.getD slot 0) % wordModulus

end BufferSet

/-- A port of a compiled segment and the range of the arena bound to it. -/
structure PortBinding where
  name : String
  slot : Nat
  dst : Nat
  bytes : Nat
  deriving DecidableEq, Repr

/-- Every body port of a segment, in slot order. -/
def bindingsFor (plan : Plan) (segment : Int) (set : BufferSet) :
    Except String (List PortBinding) := do
  let bound ← bindList plan segment
  parseAll (fun b => do return ⟨b.2, b.1, ← set.slotPtr b.1, ← set.slotBytes b.1⟩) bound

/-- How one read of the blob ended: with the number of bytes read, or with an
exception after `got` bytes. -/
inductive ReadOutcome where
  | returned (got : Nat)
  | threw (got : Nat) (what : String)
  deriving DecidableEq, Repr

def ReadOutcome.got : ReadOutcome → Nat
  | .returned got => got
  | .threw got _ => got

/-- A reader of the blob. Read number `turn` of a refill asks for `n` bytes at an
offset; the bytes it puts at the destination are the first `got` of them. -/
structure BlobReader (blob : List UInt8) where
  read : Nat → Nat → Nat → ReadOutcome
  within : ∀ turn offset n, (read turn offset n).got ≤ (slice blob offset n).length

structure RefillReport where
  segment : Int
  ops : Nat
  bytes : Nat
  deriving DecidableEq, Repr

/-- The body an error of a refill names. -/
def refillName (plan : Plan) (segment : Int) (offset : Nat) : String :=
  match plan.bodies.find? fun b => b.segment = segment ∧ b.offset = offset with
  | some b => b.name
  | none => "<unknown body>"

section Refill

variable {blob : List UInt8}

/-- One body of a refill: the size check, the read into the slot, and the check
that the read was whole. -/
def refillOne (plan : Plan) (reader : BlobReader blob) (set : BufferSet) (rep : RefillReport)
    (op : RefillOp) : BufferSet × Except String RefillReport :=
  match set.slotBytes op.slot with
  | .error e => (set, .error e)
  | .ok holds =>
      if op.bytes ≠ holds then
        (set, .error ("refill of segment " ++ toString rep.segment ++ ": body '" ++
          refillName plan rep.segment op.offset ++ "' is " ++ toString op.bytes ++
          " bytes, slot " ++ toString op.slot ++ " of this buffer set is " ++ toString holds ++
          " -- the plan and the set are not the same plan"))
      else
        match set.slotPtr op.slot with
        | .error e => (set, .error e)
        | .ok dst =>
            let outcome := reader.read rep.ops op.offset op.bytes
            let filled := { set with
              arena := splice set.arena dst (slice blob op.offset outcome.got) }
            match outcome with
            | .threw _ what => (filled, .error what)
            | .returned got =>
                if got ≠ op.bytes then
                  (filled, .error ("refill of segment " ++ toString rep.segment ++ " read " ++
                    toString got ++ " of " ++ toString op.bytes ++ " bytes of body '" ++
                    refillName plan rep.segment op.offset ++ "' at blob offset " ++
                    toString op.offset ++ " -- the blob is short of its own index"))
                else
                  (filled, .ok { rep with
                    ops := rep.ops + 1
                    bytes := (rep.bytes + op.bytes) % wordModulus })

/-- The loop over the bodies of a refill. -/
def refillLoop (plan : Plan) (reader : BlobReader blob) :
    List RefillOp → BufferSet → RefillReport → BufferSet × Except String RefillReport
  | [], set, rep => (set, .ok rep)
  | op :: rest, set, rep =>
      match refillOne plan reader set rep op with
      | (filled, .ok rep) => refillLoop plan reader rest filled rep
      | (filled, .error e) => (filled, .error e)

/-- The buffer set and the marker a driver checks before every forward. -/
structure Runtime where
  set : BufferSet
  state : BufferSetState

/-- `refill_segment`: the marker moves only after the last byte has landed. -/
def refillSegment (plan : Plan) (segment : Int) (runtime : Runtime) (reader : BlobReader blob) :
    Runtime × Except String RefillReport :=
  match refillOps plan segment with
  | .error e => (runtime, .error e)
  | .ok ops =>
      match refillLoop plan reader ops runtime.set ⟨segment, 0, 0⟩ with
      | (set, .ok rep) => (⟨set, runtime.state.refill segment⟩, .ok rep)
      | (set, .error e) => (⟨set, runtime.state⟩, .error e)

end Refill

/-- A call of `refill_segment`. -/
structure RefillCall (blob : List UInt8) where
  segment : Int
  reader : BlobReader blob

/-- The runtime under refills in any order; a refill that throws is caught. -/
def refills (plan : Plan) (blob : List UInt8) : Machine Runtime (RefillCall blob) where
  step runtime call := some (refillSegment plan call.segment runtime call.reader).1

def Runtime.fresh (plan : Plan) : Runtime := ⟨.new plan, .new⟩

/-- Every port of segment `k` is bound to the bytes of its one body in the blob. -/
def Serves (plan : Plan) (blob : List UInt8) (set : BufferSet) (k : Int) : Prop :=
  ∀ bindings, bindingsFor plan k set = .ok bindings → ∀ b ∈ bindings,
    ∃ body ∈ bodiesOf plan.bodies k,
      body.name = b.name ∧ bodySlot plan body = .ok b.slot ∧
      (∀ other ∈ bodiesOf plan.bodies k, bodySlot plan other = .ok b.slot → other = body) ∧
      b.bytes = body.bytes ∧ (slice blob body.offset body.bytes).length = body.bytes ∧
      slice set.arena b.dst b.bytes = slice blob body.offset body.bytes

/-- The slots' byte counts sum to a word, so that no slot start wraps. -/
def Plan.FitsWord (plan : Plan) : Prop :=
  ∑ s ∈ Finset.range plan.slotsPerSegment, plan.bufferBytes s < wordModulus

instance (plan : Plan) : Decidable plan.FitsWord :=
  inferInstanceAs (Decidable (_ < _))

section Condition

variable {blob : List UInt8}

/-- The reader delivers every body in full, from read `turn` on. -/
def Delivers (reader : BlobReader blob) : Nat → List RefillOp → Prop
  | _, [] => True
  | turn, op :: rest =>
      reader.read turn op.offset op.bytes = .returned op.bytes ∧ Delivers reader (turn + 1) rest

/-- The number of bytes the reader puts into the slots up to its first failure. -/
def bytesPut (reader : BlobReader blob) : Nat → List RefillOp → Nat
  | _, [] => 0
  | turn, op :: rest =>
      let outcome := reader.read turn op.offset op.bytes
      outcome.got + if outcome = .returned op.bytes then bytesPut reader (turn + 1) rest else 0

/-- A refill of the segment the marker names, or while the marker names a segment
without bodies, or one whose reader delivers every body, or puts no byte. -/
def Undisturbing (plan : Plan) (runtime : Runtime) (call : RefillCall blob) : Prop :=
  call.segment = runtime.state.resident ∨
    bodiesOf plan.bodies runtime.state.resident = [] ∨
    ∀ ops, refillOps plan call.segment = .ok ops →
      Delivers call.reader 0 ops ∨ bytesPut call.reader 0 ops = 0

instance decidableDelivers (reader : BlobReader blob) :
    ∀ turn ops, Decidable (Delivers reader turn ops)
  | _, [] => .isTrue trivial
  | turn, _ :: rest =>
      @instDecidableAnd _ _ inferInstance (decidableDelivers reader (turn + 1) rest)

end Condition

/-! ## The layout of the arena -/

section Layout

variable {plan : Plan}

theorem slotStart_eq (hfits : plan.FitsWord) {s : Nat} (hs : s ≤ plan.slotsPerSegment) :
    slotStart plan s = ∑ i ∈ Finset.range s, plan.bufferBytes i := by
  induction s with
  | zero => rfl
  | succ s ih =>
      have hle : ∑ i ∈ Finset.range (s + 1), plan.bufferBytes i ≤
          ∑ i ∈ Finset.range plan.slotsPerSegment, plan.bufferBytes i :=
        Finset.sum_le_sum_of_subset (Finset.range_mono hs)
      unfold Plan.FitsWord at hfits
      rw [Finset.sum_range_succ] at hle ⊢
      rw [slotStart, ih (by omega), Nat.mod_eq_of_lt (by omega)]

/-- A slot ends before every later slot starts. -/
theorem slotStart_add_le (hfits : plan.FitsWord) {i j : Nat} (hij : i < j)
    (hj : j ≤ plan.slotsPerSegment) :
    slotStart plan i + plan.bufferBytes i ≤ slotStart plan j := by
  rw [slotStart_eq hfits (by omega), slotStart_eq hfits hj, ← Finset.sum_range_succ]
  exact Finset.sum_le_sum_of_subset (Finset.range_mono hij)

/-- The set has the layout of the plan. -/
structure Shaped (plan : Plan) (set : BufferSet) : Prop where
  offsets : set.offsets = (List.range (plan.slotsPerSegment + 1)).map (slotStart plan)
  arena : set.arena.length = slotStart plan plan.slotsPerSegment

/-- The set is as long as the plan says. -/
theorem slotStart_eq_bufferSetBytes (plan : Plan) :
    slotStart plan plan.slotsPerSegment = plan.bufferSetBytes := by
  unfold Plan.bufferSetBytes
  induction plan.slotsPerSegment with
  | zero => rfl
  | succ s ih => rw [slotStart, ih, List.range_succ, List.foldl_append]; rfl

theorem shaped_new (plan : Plan) : Shaped plan (.new plan) :=
  ⟨rfl, by simp [BufferSet.new]⟩

theorem Shaped.offsets_getD {set : BufferSet} (h : Shaped plan set) {slot : Nat}
    (hslot : slot ≤ plan.slotsPerSegment) : set.offsets.getD slot 0 = slotStart plan slot := by
  rw [h.offsets, List.getD_eq_getElem?_getD, List.getElem?_map, List.getElem?_range (by omega)]
  rfl

theorem Shaped.checked_ok {set : BufferSet} (h : Shaped plan set) (slot : Nat) (u : Unit) :
    set.checked slot = .ok u ↔ slot < plan.slotsPerSegment := by
  simp [BufferSet.checked, BufferSet.slots, h.offsets]

theorem Shaped.slotPtr_ok {set : BufferSet} (h : Shaped plan set) {slot dst : Nat} :
    set.slotPtr slot = .ok dst ↔ slot < plan.slotsPerSegment ∧ dst = slotStart plan slot := by
  simp only [BufferSet.slotPtr, bind_ok, h.checked_ok, exists_const, pure, Except.pure,
    Except.ok.injEq]
  constructor
  · rintro ⟨hslot, rfl⟩
    exact ⟨hslot, h.offsets_getD hslot.le⟩
  · rintro ⟨hslot, rfl⟩
    exact ⟨hslot, h.offsets_getD hslot.le⟩

theorem Shaped.slotBytes_ok (hfits : plan.FitsWord) {set : BufferSet} (h : Shaped plan set)
    {slot n : Nat} :
    set.slotBytes slot = .ok n ↔ slot < plan.slotsPerSegment ∧ n = plan.bufferBytes slot := by
  simp only [BufferSet.slotBytes, bind_ok, h.checked_ok, exists_const, pure, Except.pure,
    Except.ok.injEq]
  refine and_congr_right fun hslot => ?_
  have hend := slotStart_add_le hfits (Nat.lt_succ_self slot) hslot
  have hlast : slotStart plan (slot + 1) < wordModulus := Nat.mod_lt _ (by decide)
  have hstep : slotStart plan (slot + 1) = slotStart plan slot + plan.bufferBytes slot :=
    Nat.le_antisymm (Nat.mod_le _ _) hend
  rw [h.offsets_getD hslot, h.offsets_getD hslot.le, hstep, eq_comm]
  have hsize : slotStart plan slot + plan.bufferBytes slot + wordModulus - slotStart plan slot =
      plan.bufferBytes slot + wordModulus := by omega
  rw [hsize, Nat.add_mod_right, Nat.mod_eq_of_lt (by omega)]

end Layout

/-! ## What a refill leaves in the slots -/

section Landing

variable {plan : Plan} {blob : List UInt8}

/-- The set after the first `got` bytes of a body have been put into its slot. -/
def put (plan : Plan) (blob : List UInt8) (set : BufferSet) (op : RefillOp) (got : Nat) :
    BufferSet :=
  { set with arena := splice set.arena (slotStart plan op.slot) (slice blob op.offset got) }

/-- The refill's body fits its slot. -/
structure Placed (plan : Plan) (op : RefillOp) : Prop where
  slot : op.slot < plan.slotsPerSegment
  bytes : op.bytes = plan.bufferBytes op.slot

/-- The slot of the refill's body holds the body's bytes. -/
structure Landed (plan : Plan) (blob : List UInt8) (set : BufferSet) (op : RefillOp) : Prop where
  whole : (slice blob op.offset op.bytes).length = op.bytes
  held : slice set.arena (slotStart plan op.slot) op.bytes = slice blob op.offset op.bytes

theorem put_within (blob : List UInt8) (hfits : plan.FitsWord) {set : BufferSet}
    (hset : Shaped plan set)
    {op : RefillOp} (hop : Placed plan op) {got : Nat} (hgot : got ≤ op.bytes) :
    slotStart plan op.slot + (slice blob op.offset got).length ≤ set.arena.length := by
  have hlength := length_slice_le blob op.offset got
  have hend := slotStart_add_le hfits hop.slot le_rfl
  rw [hset.arena]
  rw [hop.bytes] at hgot
  omega

theorem Shaped.put (hfits : plan.FitsWord) {set : BufferSet} (hset : Shaped plan set)
    {op : RefillOp} (hop : Placed plan op) {got : Nat} (hgot : got ≤ op.bytes) :
    Shaped plan (put plan blob set op got) where
  offsets := hset.offsets
  arena := by
    rw [← hset.arena]
    exact length_splice _ _ _ (put_within blob hfits hset hop hgot)

/-- Putting bytes into one slot leaves the others as they are. -/
theorem Landed.put_other (hfits : plan.FitsWord) {set : BufferSet} (hset : Shaped plan set)
    {op other : RefillOp} (hop : Placed plan op) (hother : Placed plan other) {got : Nat}
    (hgot : got ≤ op.bytes) (hne : op.slot ≠ other.slot) (h : Landed plan blob set other) :
    Landed plan blob (put plan blob set op got) other := by
  refine ⟨h.whole, ?_⟩
  have hlength := length_slice_le blob op.offset got
  have hwithin := put_within blob hfits hset hop hgot
  rw [put, slice_splice_disjoint _ _ _ _ _ hwithin, h.held]
  have hopBytes := hop.bytes
  have hotherBytes := hother.bytes
  rcases Nat.lt_or_gt_of_ne hne with hlt | hlt
  · have hend := slotStart_add_le hfits hlt hother.slot.le
    omega
  · have hend := slotStart_add_le hfits hlt hop.slot.le
    omega

/-- Putting some of a body's bytes over the body changes nothing. -/
theorem Landed.put_same (hfits : plan.FitsWord) {set : BufferSet} (hset : Shaped plan set)
    {op : RefillOp} (hop : Placed plan op) {got : Nat} (hgot : got ≤ op.bytes)
    (h : Landed plan blob set op) : Landed plan blob (put plan blob set op got) op := by
  refine ⟨h.whole, ?_⟩
  have hlength : (slice blob op.offset got).length = got := by
    rw [← slice_slice_take blob op.offset hgot, List.length_take, h.whole]
    omega
  have hwithin := put_within blob hfits hset hop hgot
  rw [put, slice_splice_head _ _ _ _ hwithin (by omega), hlength]
  -- the rest of the slot already holds the rest of the body
  have hrest : slice set.arena (slotStart plan op.slot + got) (op.bytes - got) =
      (slice blob op.offset op.bytes).drop got := by
    rw [← h.held]
    simp [slice, List.drop_take, List.drop_drop]
  rw [hrest, ← slice_slice_take blob op.offset hgot, List.take_append_drop]

theorem landed_put_whole (hfits : plan.FitsWord) {set : BufferSet} (hset : Shaped plan set)
    {op : RefillOp} (hop : Placed plan op)
    (hwhole : (slice blob op.offset op.bytes).length = op.bytes) :
    Landed plan blob (put plan blob set op op.bytes) op := by
  refine ⟨hwhole, ?_⟩
  have hwithin := put_within blob hfits hset hop le_rfl
  rw [put, slice_splice_head _ _ _ _ hwithin (by omega), hwhole]
  simp [slice]

theorem put_nothing (plan : Plan) (blob : List UInt8) (set : BufferSet) (op : RefillOp) :
    put plan blob set op 0 = set := by
  simp [put, slice, splice]

/-- A step of a refill changes nothing, or puts what its reader got into the
slot; it succeeds exactly when that is the whole body. -/
theorem refillOne_cases (hfits : plan.FitsWord) (reader : BlobReader blob) {set : BufferSet}
    (hset : Shaped plan set) (rep : RefillReport) (op : RefillOp) :
    (¬Placed plan op ∧ ∃ e, refillOne plan reader set rep op = (set, .error e)) ∨
      Placed plan op ∧
      (refillOne plan reader set rep op).1 =
        put plan blob set op (reader.read rep.ops op.offset op.bytes).got ∧
      ∀ next, (refillOne plan reader set rep op).2 = .ok next ↔
        reader.read rep.ops op.offset op.bytes = .returned op.bytes ∧
        next = { rep with ops := rep.ops + 1, bytes := (rep.bytes + op.bytes) % wordModulus } := by
  unfold refillOne
  split
  next e he =>
    refine .inl ⟨fun hop => ?_, e, rfl⟩
    rw [(hset.slotBytes_ok hfits).mpr ⟨hop.slot, rfl⟩] at he
    cases he
  next holds hholds =>
    obtain ⟨hslot, rfl⟩ := (hset.slotBytes_ok hfits).mp hholds
    split_ifs with hbytes
    · exact .inl ⟨fun hop => hbytes hop.bytes, _, rfl⟩
    · rw [hset.slotPtr_ok.mpr ⟨hslot, rfl⟩]
      refine .inr ⟨⟨hslot, not_not.mp hbytes⟩, ?_⟩
      dsimp only
      cases hread : reader.read rep.ops op.offset op.bytes with
      | threw got what => simp [put]
      | returned got =>
          dsimp only
          split_ifs with hgot
          · refine ⟨rfl, fun next => ?_⟩
            simp [hgot]
          · refine ⟨rfl, fun next => ?_⟩
            simp [not_not.mp hgot, eq_comm]

theorem BlobReader.got_le (reader : BlobReader blob) (turn offset n : Nat) :
    (reader.read turn offset n).got ≤ n :=
  (reader.within turn offset n).trans (length_slice_le blob offset n)

theorem refillOne_shaped (hfits : plan.FitsWord) (reader : BlobReader blob) {set : BufferSet}
    (hset : Shaped plan set) (rep : RefillReport) (op : RefillOp) :
    Shaped plan (refillOne plan reader set rep op).1 := by
  rcases refillOne_cases hfits reader hset rep op with ⟨_, e, he⟩ | ⟨hop, hput, _⟩
  · rw [he]
    exact hset
  · rw [hput]
    exact hset.put hfits hop (reader.got_le _ _ _)

/-- A body that has landed survives every step that does not use its slot for
another body. -/
theorem refillOne_landed (hfits : plan.FitsWord) (reader : BlobReader blob) {set : BufferSet}
    (hset : Shaped plan set) (rep : RefillReport) {op other : RefillOp}
    (hother : Placed plan other) (hsame : op.slot = other.slot → op = other)
    (h : Landed plan blob set other) :
    Landed plan blob (refillOne plan reader set rep op).1 other := by
  rcases refillOne_cases hfits reader hset rep op with ⟨_, e, he⟩ | ⟨hop, hput, _⟩
  · rw [he]
    exact h
  · rw [hput]
    by_cases hslot : op.slot = other.slot
    · rw [hsame hslot]
      exact h.put_same hfits hset hother (reader.got_le _ _ _)
    · exact h.put_other hfits hset hop hother (reader.got_le _ _ _) hslot

theorem refillOne_ok_landed (hfits : plan.FitsWord) (reader : BlobReader blob) {set : BufferSet}
    (hset : Shaped plan set) {rep next : RefillReport} {op : RefillOp}
    (hok : (refillOne plan reader set rep op).2 = .ok next) :
    Landed plan blob (refillOne plan reader set rep op).1 op := by
  rcases refillOne_cases hfits reader hset rep op with ⟨_, e, he⟩ | ⟨hop, hput, hnext⟩
  · rw [he] at hok
    cases hok
  · obtain ⟨hread, _⟩ := (hnext next).mp hok
    have hwithin := reader.within rep.ops op.offset op.bytes
    have hle := length_slice_le blob op.offset op.bytes
    rw [hput]
    rw [hread] at hwithin ⊢
    exact landed_put_whole hfits hset hop (le_antisymm hle hwithin)

theorem refillLoop_shaped (hfits : plan.FitsWord) (reader : BlobReader blob)
    (ops : List RefillOp) {set : BufferSet} (hset : Shaped plan set) (rep : RefillReport) :
    Shaped plan (refillLoop plan reader ops set rep).1 := by
  induction ops generalizing set rep with
  | nil => exact hset
  | cons op rest ih =>
      have hstep := refillOne_shaped hfits reader hset rep op
      unfold refillLoop
      split
      next filled next heq =>
        rw [heq] at hstep
        exact ih hstep next
      next filled e heq =>
        rw [heq] at hstep
        exact hstep

/-- A body that has landed survives every refill that does not use its slot for
another body, whether the refill completes or not. -/
theorem refillLoop_landed (hfits : plan.FitsWord) (reader : BlobReader blob)
    {ops : List RefillOp} {set : BufferSet} (hset : Shaped plan set) (rep : RefillReport)
    {other : RefillOp} (hother : Placed plan other)
    (hsame : ∀ op ∈ ops, op.slot = other.slot → op = other) (h : Landed plan blob set other) :
    Landed plan blob (refillLoop plan reader ops set rep).1 other := by
  induction ops generalizing set rep with
  | nil => exact h
  | cons op rest ih =>
      have hshaped := refillOne_shaped hfits reader hset rep op
      have hstep := refillOne_landed hfits reader hset rep hother (hsame op List.mem_cons_self) h
      unfold refillLoop
      split
      next filled next heq =>
        rw [heq] at hshaped hstep
        exact ih hshaped next (fun op hop => hsame op (List.mem_cons_of_mem _ hop)) hstep
      next filled e heq =>
        rw [heq] at hstep
        exact hstep

/-- After a complete refill every body has landed. -/
theorem refillLoop_ok_landed (hfits : plan.FitsWord) (reader : BlobReader blob)
    {ops : List RefillOp} {set : BufferSet} (hset : Shaped plan set) {rep final : RefillReport}
    (hok : (refillLoop plan reader ops set rep).2 = .ok final)
    {other : RefillOp} (hmem : other ∈ ops) (hother : Placed plan other)
    (hsame : ∀ op ∈ ops, op.slot = other.slot → op = other) :
    Landed plan blob (refillLoop plan reader ops set rep).1 other := by
  induction ops generalizing set rep with
  | nil => cases hmem
  | cons op rest ih =>
      have hshaped := refillOne_shaped hfits reader hset rep op
      have hrest : ∀ op ∈ rest, op.slot = other.slot → op = other :=
        fun op hop => hsame op (List.mem_cons_of_mem _ hop)
      unfold refillLoop at hok ⊢
      split at hok
      next filled next heq =>
        have hlanded := refillOne_ok_landed hfits reader hset (congrArg Prod.snd heq)
        rw [heq] at hshaped hlanded
        rcases List.mem_cons.mp hmem with rfl | hmem
        · exact refillLoop_landed hfits reader hshaped next hother hrest hlanded
        · exact ih hshaped hok hmem hrest
      next filled e heq => cases hok

/-- A reader that delivers every body completes the refill. -/
theorem refillLoop_ok_of_delivers (hfits : plan.FitsWord) (reader : BlobReader blob)
    {ops : List RefillOp} {set : BufferSet} (hset : Shaped plan set) (rep : RefillReport)
    (hplaced : ∀ op ∈ ops, Placed plan op) (hdelivers : Delivers reader rep.ops ops) :
    ∃ final, (refillLoop plan reader ops set rep).2 = .ok final := by
  induction ops generalizing set rep with
  | nil => exact ⟨rep, rfl⟩
  | cons op rest ih =>
      have hshaped := refillOne_shaped hfits reader hset rep op
      rcases refillOne_cases hfits reader hset rep op with ⟨hop, _⟩ | ⟨_, _, hnext⟩
      · exact absurd (hplaced op List.mem_cons_self) hop
      · have hok := (hnext _).mpr ⟨hdelivers.1, rfl⟩
        unfold refillLoop
        split
        next filled next heq =>
          rw [heq] at hshaped hok
          cases hok
          exact ih hshaped _ (fun op hop => hplaced op (List.mem_cons_of_mem _ hop)) hdelivers.2
        next filled e heq =>
          rw [heq] at hok
          cases hok

/-- A reader that puts no byte leaves the set as it is. -/
theorem refillLoop_of_bytesPut (hfits : plan.FitsWord) (reader : BlobReader blob)
    {ops : List RefillOp} {set : BufferSet} (hset : Shaped plan set) (rep : RefillReport)
    (hnone : bytesPut reader rep.ops ops = 0) :
    (refillLoop plan reader ops set rep).1 = set := by
  induction ops generalizing rep with
  | nil => rfl
  | cons op rest ih =>
      simp only [bytesPut] at hnone
      unfold refillLoop
      rcases refillOne_cases hfits reader hset rep op with ⟨_, e, he⟩ | ⟨_, hput, hnext⟩
      · rw [he]
      · rw [show (reader.read rep.ops op.offset op.bytes).got = 0 by omega, put_nothing] at hput
        split
        next filled next heq =>
          rw [heq] at hput
          obtain ⟨hread, rfl⟩ := (hnext next).mp (congrArg Prod.snd heq)
          rw [if_pos hread] at hnone
          subst hput
          exact ih _ (Nat.eq_zero_of_add_eq_zero_left hnone)
        next filled e heq =>
          rw [heq] at hput
          exact hput

end Landing

/-! ## Runs of refills -/

section Runs

variable {plan : Plan} {blob : List UInt8}

/-- The bodies of segment `k` have landed. -/
def Holds (plan : Plan) (blob : List UInt8) (set : BufferSet) (k : Int) : Prop :=
  ∀ body ∈ bodiesOf plan.bodies k, ∀ slot, bodySlot plan body = .ok slot →
    Landed plan blob set ⟨slot, body.offset, body.bytes⟩

theorem mem_refillOps {k : Int} {ops : List RefillOp} (h : refillOps plan k = .ok ops)
    {op : RefillOp} :
    op ∈ ops ↔ ∃ body ∈ bodiesOf plan.bodies k, bodySlot plan body = .ok op.slot ∧
      op.offset = body.offset ∧ op.bytes = body.bytes := by
  simp only [refillOps, bind_ok] at h
  obtain ⟨parsed, hparsed, hops⟩ := h
  cases hops
  rw [List.mem_insertionSort, mem_parseAll hparsed]
  refine exists_congr fun body => and_congr_right fun _ => ?_
  simp only [bind_ok, pure, Except.pure, Except.ok.injEq]
  constructor
  · rintro ⟨slot, hslot, rfl⟩
    exact ⟨hslot, rfl, rfl⟩
  · rintro ⟨hslot, hoffset, hbytes⟩
    exact ⟨op.slot, hslot, by rw [← hoffset, ← hbytes]⟩

theorem Plan.Slotted.placed (hplan : plan.Slotted) {body : BodySpec} (hbody : body ∈ plan.bodies)
    {slot : Nat} (hslot : bodySlot plan body = .ok slot) :
    Placed plan ⟨slot, body.offset, body.bytes⟩ := by
  obtain ⟨s, hs, hsegment, rfl⟩ := hplan.exists_segment hslot
  exact ⟨hplan.slotOf_lt hs hbody hsegment, (hplan.bufferBytes_slotOf hs hbody hsegment).symm⟩

/-- Within a segment a slot determines its body. -/
theorem Plan.Slotted.body_unique (hplan : plan.Slotted) {k : Int} {a b : BodySpec}
    (ha : a ∈ bodiesOf plan.bodies k) (hb : b ∈ bodiesOf plan.bodies k) {slot : Nat}
    (haslot : bodySlot plan a = .ok slot) (hbslot : bodySlot plan b = .ok slot) : a = b := by
  obtain ⟨s, hs, hsegment, rfl⟩ := hplan.exists_segment haslot
  have hk : k = s.index := by rw [← hsegment, (mem_bodiesOf.mp ha).2]
  subst hk
  rw [hplan.bodySlot_eq hs (mem_bodiesOf.mp hb).2] at hbslot
  exact hplan.slotOf_injective hs ha hb (Except.ok.inj hbslot).symm

theorem Plan.Slotted.refillOp_unique (hplan : plan.Slotted) {k : Int} {ops : List RefillOp}
    (hops : refillOps plan k = .ok ops) {body : BodySpec} (hbody : body ∈ bodiesOf plan.bodies k)
    {slot : Nat} (hslot : bodySlot plan body = .ok slot) :
    ∀ op ∈ ops, op.slot = slot → op = ⟨slot, body.offset, body.bytes⟩ := by
  rintro ⟨opSlot, offset, bytes⟩ hop rfl
  obtain ⟨other, hother, hotherSlot, hoffset, hbytes⟩ := (mem_refillOps hops).mp hop
  obtain rfl := hplan.body_unique hother hbody hotherSlot hslot
  rw [← hoffset, ← hbytes]

/-- The layout is the plan's, and the segment the marker names is in memory. -/
structure InMemory (plan : Plan) (blob : List UInt8) (runtime : Runtime) : Prop where
  shaped : Shaped plan runtime.set
  holds : Holds plan blob runtime.set runtime.state.resident

/-- A refill that disturbs nothing keeps the marker true. -/
theorem refillSegment_inMemory (hplan : plan.Slotted) (hfits : plan.FitsWord) {runtime : Runtime}
    {call : RefillCall blob} (hmemory : InMemory plan blob runtime)
    (hcall : Undisturbing plan runtime call) :
    InMemory plan blob (refillSegment plan call.segment runtime call.reader).1 := by
  unfold refillSegment
  split
  next => exact hmemory
  next ops hops =>
    have hshaped := refillLoop_shaped hfits call.reader ops hmemory.shaped ⟨call.segment, 0, 0⟩
    split
    next set rep heq =>
      -- the refill completed: every body of its segment is in its slot
      refine ⟨by simpa [heq] using hshaped, ?_⟩
      intro body hbody slot hslot
      have hmem : (⟨slot, body.offset, body.bytes⟩ : RefillOp) ∈ ops :=
        (mem_refillOps hops).mpr ⟨body, hbody, hslot, rfl, rfl⟩
      have hlanded := refillLoop_ok_landed hfits call.reader hmemory.shaped
        (congrArg Prod.snd heq) hmem (hplan.placed (mem_bodiesOf.mp hbody).1 hslot)
        (hplan.refillOp_unique hops hbody hslot)
      simpa [heq] using hlanded
    next set e heq =>
      refine ⟨by simpa [heq] using hshaped, ?_⟩
      intro body hbody slot hslot
      have hbefore := hmemory.holds body hbody slot hslot
      rcases hcall with hsegment | hempty | hreader
      · have hafter := refillLoop_landed hfits call.reader hmemory.shaped ⟨call.segment, 0, 0⟩
          (hplan.placed (mem_bodiesOf.mp hbody).1 hslot)
          (hplan.refillOp_unique hops (by simpa [hsegment] using hbody) hslot) hbefore
        simpa [heq] using hafter
      · simp [hempty] at hbody
      · rcases hreader ops hops with hdelivers | hnone
        · have hplaced : ∀ op ∈ ops, Placed plan op := by
            rintro ⟨opSlot, offset, bytes⟩ hop
            obtain ⟨other, hother, hotherSlot, hoffset, hbytes⟩ := (mem_refillOps hops).mp hop
            obtain ⟨rfl, rfl⟩ : offset = other.offset ∧ bytes = other.bytes := ⟨hoffset, hbytes⟩
            exact hplan.placed (mem_bodiesOf.mp hother).1 hotherSlot
          obtain ⟨final, hfinal⟩ := refillLoop_ok_of_delivers hfits call.reader hmemory.shaped
            ⟨call.segment, 0, 0⟩ hplaced hdelivers
          rw [heq] at hfinal
          cases hfinal
        · have hset := refillLoop_of_bytesPut hfits call.reader hmemory.shaped
            ⟨call.segment, 0, 0⟩ hnone
          rw [heq] at hset
          rw [show set = runtime.set from hset]
          exact hbefore

theorem inMemory_fresh (hplan : plan.Slotted) (blob : List UInt8) :
    InMemory plan blob (.fresh plan) := by
  refine ⟨shaped_new plan, ?_⟩
  -- no segment of the plan has the index of the fresh marker
  intro body hbody slot hslot
  obtain ⟨s, hs, hsegment, _⟩ := hplan.exists_segment hslot
  have hindex := hplan.index_nonneg s hs
  have hfresh : body.segment = -1 := (mem_bodiesOf.mp hbody).2
  omega

theorem mem_bindList {k : Int} {bound : List (Nat × String)} (h : bindList plan k = .ok bound)
    {p : Nat × String} :
    p ∈ bound ↔ ∃ body ∈ bodiesOf plan.bodies k, bodySlot plan body = .ok p.1 ∧
      body.name = p.2 := by
  simp only [bindList, bind_ok] at h
  obtain ⟨parsed, hparsed, hbound⟩ := h
  cases hbound
  rw [List.mem_insertionSort, mem_parseAll hparsed]
  refine exists_congr fun body => and_congr_right fun _ => ?_
  simp only [bind_ok, pure, Except.pure, Except.ok.injEq]
  constructor
  · rintro ⟨slot, hslot, rfl⟩
    exact ⟨hslot, rfl⟩
  · rintro ⟨hslot, hname⟩
    exact ⟨p.1, hslot, by rw [hname]⟩

/-- A segment whose bodies have landed serves its ports. -/
theorem serves_of_holds (hplan : plan.Slotted) (hfits : plan.FitsWord) {set : BufferSet}
    (hset : Shaped plan set) {k : Int} (hholds : Holds plan blob set k) :
    Serves plan blob set k := by
  intro bindings hbindings b hb
  simp only [bindingsFor, bind_ok] at hbindings
  obtain ⟨bound, hbound, hports⟩ := hbindings
  obtain ⟨⟨slot, name⟩, hp, hport⟩ := (mem_parseAll hports).mp hb
  simp only [bind_ok, pure, Except.pure, Except.ok.injEq] at hport
  obtain ⟨dst, hdst, bytes, hbytes, rfl⟩ := hport
  obtain ⟨body, hbody, hslot, hname⟩ := (mem_bindList hbound).mp hp
  have hplaced := hplan.placed (mem_bodiesOf.mp hbody).1 hslot
  have hlanded := hholds body hbody slot hslot
  obtain ⟨_, rfl⟩ := hset.slotPtr_ok.mp hdst
  obtain ⟨_, rfl⟩ := (hset.slotBytes_ok hfits).mp hbytes
  have hsize : plan.bufferBytes slot = body.bytes := hplaced.bytes.symm
  refine ⟨body, hbody, hname, hslot, ?_, hsize, hlanded.whole, ?_⟩
  · intro other hother hotherSlot
    exact hplan.body_unique hother hbody hotherSlot hslot
  · rw [hsize]
    exact hlanded.held

end Runs

/-- In every run of refills that disturb nothing, a forward that passes the check
reads the bodies of its own segment. -/
theorem checkBeforeInfer_serves {manifest : Manifest} {nLayer hiddenSize hcCount : Int}
    {plan : Plan} (hplan : planSegments manifest nLayer hiddenSize hcCount = .ok plan)
    (hfits : plan.FitsWord) {blob : List UInt8} {calls : List (RefillCall blob)}
    {runtime : Runtime}
    (hmeets : (refills plan blob).Meets (Undisturbing plan) (.fresh plan) calls)
    (hrun : (refills plan blob).run (.fresh plan) calls = some runtime) {k : Int}
    (hcheck : runtime.state.checkBeforeInfer k = .ok ()) : Serves plan blob runtime.set k := by
  have hslotted := planSegments_slotted hplan
  have hmemory : InMemory plan blob runtime := by
    apply Machine.run_invariant _ (inMemory_fresh hslotted blob) hmeets hrun
    intro before call after hbefore hcall hstep
    cases hstep
    exact refillSegment_inMemory hslotted hfits hbefore hcall
  have hresident : runtime.state.resident = k := by
    simpa [BufferSetState.checkBeforeInfer] using hcheck
  subst hresident
  exact serves_of_holds hslotted hfits hmemory.shaped hmemory.holds

section Demo

/-- A reader over a blob in memory: it reads what the blob has. -/
def memReader (blob : List UInt8) : BlobReader blob where
  read _ offset n := .returned (slice blob offset n).length
  within _ _ _ := le_rfl

/-- The same, but read number `turns` and the later ones fail before a byte. -/
def failingReader (blob : List UInt8) (turns : Nat) : BlobReader blob where
  read turn offset n :=
    if turn < turns then .returned (slice blob offset n).length
    else .threw 0 "pread of the expert-body blob: Input/output error"
  within turn offset n := by
    split
    · exact le_rfl
    · exact Nat.zero_le _

def demoSegment (k : Nat) : SegmentRow where
  index := k
  layers := [4 * k, 4 * k + 4]
  first := k == 0
  last := k == 1
  hasPle := none
  inputsEmbedsWidth := 1
  attnLayers := 1
  outputs := [some (if k == 1 then "logits" else "hidden_out")]
  inputs := []

def demoBody (i : Nat) : BodyRow where
  name := "layer" ++ toString (i / 3) ++ "/moe/experts_" ++ kinds.getD (i % 3) "" ++ "/weight_u8"
  segment := (i / 12 : Nat)
  layer := (i / 3 : Nat)
  kind := kinds.getD (i % 3) ""
  shape := [1]
  offset := i
  bytes := 1

/-- Two segments of four layers, every body one byte long. -/
def demoManifest : Manifest where
  segments := some [demoSegment 0, demoSegment 1]
  expertBodies := some ⟨(List.range 24).map demoBody, 24⟩

def demoPlan : Plan := (planSegments demoManifest 8 1 1).toOption.get (by rfl)

def demoBlob : List UInt8 := (List.range 24).map (·.toUInt8)

/-- A refill of segment 1 that fails at its second body has overwritten the first
slot of segment 0, which the marker still names. -/
theorem checkBeforeInfer_stale_slot :
    planSegments demoManifest 8 1 1 = .ok demoPlan ∧ demoPlan.FitsWord ∧
      ∃ runtime, (refills demoPlan demoBlob).run (.fresh demoPlan)
          [⟨0, memReader demoBlob⟩, ⟨1, failingReader demoBlob 1⟩] = some runtime ∧
        runtime.state.checkBeforeInfer 0 = .ok () ∧
        ¬Serves demoPlan demoBlob runtime.set 0 := by
  refine ⟨rfl, by decide +kernel, _, rfl, rfl, ?_⟩
  intro hserves
  have hports := hserves _ rfl
  revert hports
  decide +kernel

def demoRetry : List (RefillCall demoBlob) :=
  [⟨0, memReader demoBlob⟩, ⟨0, failingReader demoBlob 1⟩, ⟨1, memReader demoBlob⟩]

/-- A failed refill of the resident segment does no harm, and neither does the
complete refill after it. -/
theorem checkBeforeInfer_serves_retry :
    ∃ runtime, (refills demoPlan demoBlob).run (.fresh demoPlan) demoRetry = some runtime ∧
      runtime.state.checkBeforeInfer 1 = .ok () ∧ Serves demoPlan demoBlob runtime.set 1 := by
  have haccepted : planSegments demoManifest 8 1 1 = .ok demoPlan := rfl
  have hfits : demoPlan.FitsWord := by decide +kernel
  have hmeets : (refills demoPlan demoBlob).Meets (Undisturbing demoPlan) (.fresh demoPlan)
      demoRetry := by
    refine ⟨.inr (.inl rfl), fun _ hfirst => ?_⟩
    cases hfirst
    refine ⟨.inl rfl, fun _ hsecond => ?_⟩
    cases hsecond
    refine ⟨.inr (.inr fun ops hops => .inl ?_), fun _ _ => trivial⟩
    cases hops
    decide +kernel
  exact ⟨_, rfl, rfl, checkBeforeInfer_serves haccepted hfits hmeets rfl rfl⟩

end Demo

end Arcint.Segment
