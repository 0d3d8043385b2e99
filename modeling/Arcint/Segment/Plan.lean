import Arcint.Foundation.Checks
import Mathlib.Data.List.Sort
import Mathlib.Algebra.Ring.Nat

/-! # The segment plan

A depth cut of the model into segments that share one set of expert-body
buffers. `planSegments` reads the two tables of `serving-shape.json`, the
segments and the expert bodies, and refuses every manifest that would make the
shared buffers wrong for a segment. The functions after it derive the slot of a
body, the port bindings and the refill order of a segment.
-/

namespace Arcint.Segment

open Foundation

/-- The kinds of an expert's tensors can be numbered. -/
theorem neZero_three : NeZero 3 := ⟨by decide⟩

attribute [local instance] neZero_three

/-- A row of `segments`. An entry of `outputs` or `inputs` is the port name in
front of the row, or `none` where the row has no name there. -/
structure SegmentRow where
  index : Int
  layers : List Int
  first : Bool
  last : Bool
  hasPle : Option Bool
  inputsEmbedsWidth : Int
  attnLayers : Int
  outputs : List (Option String)
  inputs : List (Option String)
  deriving DecidableEq, Repr

/-- A row of `expert_bodies.entries`. -/
structure BodyRow where
  name : String
  segment : Int
  layer : Int
  kind : String
  shape : List Int
  offset : Nat
  bytes : Nat
  deriving DecidableEq, Repr

structure ExpertBodies where
  entries : List BodyRow
  bytes : Nat
  deriving DecidableEq, Repr

structure Manifest where
  segments : Option (List SegmentRow)
  expertBodies : Option ExpertBodies
  deriving DecidableEq, Repr

def hiddenOut : String := "hidden_out"

def tablePrefix : String := "ngram_table."

/-- The body kinds, in the order the exporter writes them. -/
def kinds : List String := ["gate", "up", "down"]

def kindName (k : Fin 3) : String := kinds.getD k ""

def kindIndexOf (kind : String) : Option (Fin 3) :=
  if kind = "gate" then some 0
  else if kind = "up" then some 1
  else if kind = "down" then some 2
  else none

/-- One compiled segment, over the layers `lo, …, hi - 1`. -/
structure SegmentSpec where
  index : Int
  lo : Int
  hi : Int
  first : Bool
  last : Bool
  hasPle : Bool
  inWidth : Int
  attnLayers : Int
  outputs : List String
  declaresNgramPorts : Bool
  deriving DecidableEq, Repr

namespace SegmentSpec

/-- The number of layers of the segment. -/
def span (s : SegmentSpec) : Nat := (s.hi - s.lo).toNat

/-- The layers of the segment, in order. -/
def layers (s : SegmentSpec) : List Int := (List.range s.span).map fun i : Nat => s.lo + i

end SegmentSpec

/-- One expert body. The layer is the global index, not relative to the segment. -/
structure BodySpec where
  name : String
  segment : Int
  layer : Int
  kindIndex : Fin 3
  shape : List Int
  offset : Nat
  bytes : Nat
  deriving DecidableEq, Repr

/-- Arithmetic on `uint64_t` and `size_t` is modulo this. -/
def wordModulus : Nat := 2 ^ 64

/-- The product of the dimensions, each cast to an unsigned word. -/
def shapeBytes (shape : List Int) : Nat :=
  shape.foldl (fun n d => n * (d % (wordModulus : Int)).toNat % wordModulus) 1

structure Plan where
  segments : List SegmentSpec
  bodies : List BodySpec
  slotsPerSegment : Nat
  slotShape : Fin 3 → List Int

namespace Plan

/-- The byte count of one slot's buffer. -/
def bufferBytes (plan : Plan) (slot : Nat) : Nat :=
  shapeBytes (plan.slotShape (Fin.ofNat 3 slot))

/-- The byte count of the whole buffer set. -/
def bufferSetBytes (plan : Plan) : Nat :=
  (List.range plan.slotsPerSegment).foldl
    (fun total s => (total + plan.bufferBytes s) % wordModulus) 0

end Plan

def outputNames : List (Option String) → Except String (List String)
  | [] => .ok []
  | none :: _ => .error "segment plan: an 'outputs' row is not [name, dims, type]"
  | some name :: rest => do
      let names ← outputNames rest
      return name :: names

/-- The segment of a row of the manifest. -/
def parseSegment (row : SegmentRow) : Except String SegmentSpec :=
  match row.layers with
  | [lo, hi] => do
      let outputs ← outputNames row.outputs
      return {
        index := row.index
        lo := lo
        hi := hi
        first := row.first
        last := row.last
        hasPle := row.hasPle.getD false
        inWidth := row.inputsEmbedsWidth
        attnLayers := row.attnLayers
        outputs := outputs
        declaresNgramPorts := row.inputs.any fun input =>
          match input with
          | some name => tablePrefix.toList.isPrefixOf name.toList
          | none => false }
  | _ => .error ("segment " ++ toString row.index ++ ": 'layers' must be [lo, hi]")

/-- The body of a row of the manifest. -/
def parseBody (row : BodyRow) : Except String BodySpec :=
  match kindIndexOf row.kind with
  | some kind => .ok {
      name := row.name
      segment := row.segment
      layer := row.layer
      kindIndex := kind
      shape := row.shape
      offset := row.offset
      bytes := row.bytes }
  | none =>
      .error ("body '" ++ row.name ++ "' has kind '" ++ row.kind ++
        "', not one of gate/up/down")

/-- A full-attention layer: the remainder is C's, negative for a negative index. -/
def FullAttention (layer : Int) : Prop := layer.tmod 4 = 3

instance (layer : Int) : Decidable (FullAttention layer) :=
  inferInstanceAs (Decidable (layer.tmod 4 = 3))

def checkAttention (s : SegmentSpec) : Except String Unit :=
  ensure (∃ layer ∈ s.layers, FullAttention layer)
    ("segment " ++ toString s.index ++ " (layers " ++ toString s.lo ++ ".." ++
      toString (s.hi - 1) ++ ") holds no full-attention layer (index % 4 == 3); " ++
      "SDPAToPagedAttention needs at least one")

/-- The chain from position `k` on, with the layers below `expect` covered;
returns the layer the chain reaches. -/
def checkChain : Nat → Int → List SegmentSpec → Except String Int
  | _, expect, [] => .ok expect
  | k, expect, s :: rest =>
      if s.index ≠ (k : Int) then
        .error ("segment chain out of order: position " ++ toString k ++
          " holds segment index " ++ toString s.index)
      else if expect < s.lo then
        .error ("segment chain has a gap: segment " ++ toString s.index ++
          " starts at layer " ++ toString s.lo ++ ", the chain reached " ++ toString expect)
      else if s.lo < expect then
        .error ("segment chain overlaps: segment " ++ toString s.index ++
          " starts at layer " ++ toString s.lo ++ ", the chain already reached " ++
          toString expect)
      else checkChain (k + 1) s.hi rest

def checkReach (expect nLayer : Int) : Except String Unit :=
  ensure (expect = nLayer)
    ("segment chain is short of n_layer: it covers layers 0.." ++ toString (expect - 1) ++
      ", n_layer is " ++ toString nLayer)

def checkFirst (segs : List SegmentSpec) : Except String Unit :=
  ensure (∀ s ∈ segs.head?, s.first = true)
    ("segment 0 has first=false; the chain's first segment must take inputs_embeds " ++
      "at H width")

def checkLast (segs : List SegmentSpec) : Except String Unit :=
  match segs.getLast? with
  | none => .ok ()
  | some s =>
      ensure (s.last = true)
        ("segment " ++ toString s.index ++ " (the last) has last=false; the chain's last " ++
          "segment must carry the final mixer and logits")

def checkWidth (hiddenSize hcCount : Int) (s : SegmentSpec) : Except String Unit :=
  let expected := if s.index = 0 then hiddenSize else hcCount * hiddenSize
  ensure (s.inWidth = expected)
    ("segment " ++ toString s.index ++ " inputs_embeds_width is " ++ toString s.inWidth ++
      ", expected " ++ toString expected ++ " (" ++
      (if s.index = 0 then "hidden_size" else "hc_count * hidden_size") ++ ")")

def checkOutputs (s : SegmentSpec) : Except String Unit :=
  let want := if s.last then "logits" else hiddenOut
  ensure (s.outputs = [want])
    ("segment " ++ toString s.index ++ " outputs are [" ++ ",".intercalate s.outputs ++
      "], expected [" ++ want ++ "]")

def checkPle (segs : List SegmentSpec) : Except String Unit :=
  let count := segs.countP (·.hasPle)
  ensure (count ≤ 1)
    ("has_ple is set on " ++ toString count ++ " segments, expected at most one")

def checkNgramPorts (s : SegmentSpec) : Except String Unit :=
  ensure (s.index = 0 ∨ s.declaresNgramPorts = false)
    ("segment " ++ toString s.index ++ " declares an 'ngram_table.' input; the n-gram " ++
      "table lives in segment 0 only")

/-- The bodies of segment `k`, in the order of the list. -/
def bodiesOf (bodies : List BodySpec) (k : Int) : List BodySpec :=
  bodies.filter fun b => b.segment = k

def checkLayer (s : SegmentSpec) (b : BodySpec) : Except String Unit :=
  ensure (s.lo ≤ b.layer ∧ b.layer < s.hi)
    ("body '" ++ b.name ++ "' has layer " ++ toString b.layer ++ ", outside segment " ++
      toString s.index ++ "'s range [" ++ toString s.lo ++ ", " ++ toString s.hi ++ ")")

def checkCount (s : SegmentSpec) (own : List BodySpec) : Except String Unit :=
  ensure ((own.length : Int) = 3 * (s.hi - s.lo))
    ("segment " ++ toString s.index ++ " has " ++ toString own.length ++
      " expert bodies, expected 3 * (hi - lo) = " ++ toString (3 * (s.hi - s.lo)))

def checkSeen (s : SegmentSpec) (own : List BodySpec) (layer : Int) (k : Fin 3) :
    Except String Unit :=
  ensure (∃ b ∈ own, b.layer = layer ∧ b.kindIndex = k)
    ("segment " ++ toString s.index ++ " layer " ++ toString layer ++ " is missing its '" ++
      kindName k ++ "' expert body")

/-- The bodies of one segment: layers in range, their number, every kind of every
layer present. -/
def checkBodies (bodies : List BodySpec) (s : SegmentSpec) : Except String Unit := do
  let own := bodiesOf bodies s.index
  checkAll (checkLayer s) own
  checkCount s own
  checkAll (fun layer => checkAll (checkSeen s own layer) (List.finRange 3)) s.layers

/-- The bodies in write order, with the blob covered up to `expect`; returns the
offset after the last body. -/
def checkOffsets : Nat → List BodySpec → Except String Nat
  | expect, [] => .ok expect
  | expect, b :: rest =>
      if b.bytes ≠ shapeBytes b.shape then
        .error ("body '" ++ b.name ++ "' is " ++ toString b.bytes ++
          " bytes, product(shape) is " ++ toString (shapeBytes b.shape))
      else if b.offset ≠ expect then
        .error ("body '" ++ b.name ++ "' offset " ++ toString b.offset ++
          " is not contiguous/ascending (expected " ++ toString expect ++ ")")
      else checkOffsets ((expect + b.bytes) % wordModulus) rest

def checkTotal (sum total : Nat) : Except String Unit :=
  ensure (sum = total)
    ("sum(bytes) " ++ toString sum ++ " disagrees with expert_bodies.bytes " ++ toString total)

/-- The shape of the first body of a kind, empty when there is none. -/
def firstShape (bodies : List BodySpec) (k : Fin 3) : List Int :=
  match bodies.find? fun b => b.kindIndex = k with
  | some b => b.shape
  | none => []

def checkDrift (bodies : List BodySpec) (b : BodySpec) : Except String Unit :=
  ensure (b.shape = firstShape bodies b.kindIndex)
    ("shape drift: body '" ++ b.name ++ "' (kind '" ++ kindName b.kindIndex ++
      "') has a different shape than an earlier '" ++ kindName b.kindIndex ++
      "' body; the one buffer set needs a single shape a kind")

/-- The write order: segment, then layer, then kind. -/
def WriteOrder (a b : BodySpec) : Prop :=
  a.segment < b.segment ∨
    a.segment = b.segment ∧
      (a.layer < b.layer ∨ a.layer = b.layer ∧ a.kindIndex ≤ b.kindIndex)

instance : DecidableRel WriteOrder := fun a b =>
  inferInstanceAs (Decidable (a.segment < b.segment ∨ a.segment = b.segment ∧
    (a.layer < b.layer ∨ a.layer = b.layer ∧ a.kindIndex ≤ b.kindIndex)))

def parseSegments (manifest : Manifest) : Except String (List SegmentSpec) :=
  match manifest.segments with
  | none => .error "segment plan: manifest has no non-empty 'segments' array"
  | some [] => .error "segment plan: manifest has no non-empty 'segments' array"
  | some rows => do
      let segs ← parseAll parseSegment rows
      return segs.insertionSort fun a b => a.index ≤ b.index

/-- The checks on the segment table alone. -/
def checkSegments (segs : List SegmentSpec) (nLayer hiddenSize hcCount : Int) :
    Except String Unit := do
  checkAll checkAttention segs
  let expect ← checkChain 0 0 segs
  checkReach expect nLayer
  checkFirst segs
  checkLast segs
  checkAll (checkWidth hiddenSize hcCount) segs
  checkAll checkOutputs segs
  checkPle segs
  checkAll checkNgramPorts segs

def expertBodiesOf (manifest : Manifest) : Except String ExpertBodies :=
  match manifest.expertBodies with
  | none => .error "segment plan: manifest has no 'expert_bodies'"
  | some eb => .ok eb

/-- `plan_segments`: the plan of a manifest, or the first refusal. -/
def planSegments (manifest : Manifest) (nLayer hiddenSize hcCount : Int) :
    Except String Plan := do
  let segs ← parseSegments manifest
  checkSegments segs nLayer hiddenSize hcCount
  let eb ← expertBodiesOf manifest
  let parsed ← parseAll parseBody eb.entries
  let bodies := parsed.insertionSort WriteOrder
  checkAll (checkBodies bodies) segs
  let sum ← checkOffsets 0 bodies
  checkTotal sum eb.bytes
  checkAll (checkDrift bodies) bodies
  return {
    segments := segs
    bodies := bodies
    slotsPerSegment := 3 * segs.foldl (fun span s => max span s.span) 0
    slotShape := firstShape bodies }

/-- The slot of a body in the buffer set, relative to its segment's layers. -/
def bodySlot (plan : Plan) (body : BodySpec) : Except String Nat :=
  match plan.segments.find? fun s => s.index = body.segment with
  | some s => .ok ((body.layer - s.lo) * 3 + (body.kindIndex.val : Int)).toNat
  | none =>
      .error ("body_slot: body '" ++ body.name ++ "' references unknown segment " ++
        toString body.segment)

structure RefillOp where
  slot : Nat
  offset : Nat
  bytes : Nat
  deriving DecidableEq, Repr

/-- Slot and port name of every body of a segment, in slot order. -/
def bindList (plan : Plan) (segment : Int) : Except String (List (Nat × String)) := do
  let out ← parseAll (fun b => do return (← bodySlot plan b, b.name))
    (bodiesOf plan.bodies segment)
  return out.insertionSort fun a b => a.1 ≤ b.1

/-- The refill of a segment, in ascending offset order. -/
def refillOps (plan : Plan) (segment : Int) : Except String (List RefillOp) := do
  let ops ← parseAll (fun b => do return ⟨← bodySlot plan b, b.offset, b.bytes⟩)
    (bodiesOf plan.bodies segment)
  return ops.insertionSort fun a b => a.offset ≤ b.offset

/-- Which segment's bodies the buffer set is claimed to hold. -/
structure BufferSetState where
  resident : Int
  deriving DecidableEq, Repr

namespace BufferSetState

def new : BufferSetState := ⟨-1⟩

def refill (_ : BufferSetState) (k : Int) : BufferSetState := ⟨k⟩

def checkBeforeInfer (state : BufferSetState) (k : Int) : Except String Unit :=
  ensure (state.resident = k)
    ("buffer set holds segment " ++ toString state.resident ++ ", inference for segment " ++
      toString k ++ " was about to read it")

end BufferSetState

end Arcint.Segment
