import Arcint.Foundation.Scatter
import Arcint.Native.Kernel
import Arcint.Native.TileTable

/-! # Dispatching the native experts

The pairs are launched one by one, all at once from a table of the pairs, or all at once from a
table of tiles. A tile holds pairs of one expert's slot, so that its weights are decoded once for
all of them.
-/

namespace Arcint.Native.Kernel

open Foundation

inductive WeightFormat where
  | iq4Nl | iq3Xxs | q80 | iq2S | iq2SPacked
  deriving DecidableEq, Repr

/-- The constants that the kernels are compiled with. -/
structure KernelShape where
  hiddenSize : ℕ
  intermediateSize : ℕ
  gateUpGroupSize : ℕ
  downGroupSize : ℕ
  nBlock : ℕ
  subgroupSize : ℕ
  guFormat : WeightFormat
  downFormat : WeightFormat

/-- The constants that say how much a subgroup takes on at once. -/
structure TileShape where
  tileM : ℕ
  guTileN : ℕ
  downTileN : ℕ

/-- The weights of a projection, slot after slot. -/
structure Projection (H : Type) where
  weight : ℕ → UInt8
  zp : ℕ → UInt8
  scale : ℕ → H

/-! ## The slots -/

namespace WeightFormat

/-- The gate and up kernels have no branch for `Q8_0`. -/
def ofGateUp : WeightFormat → WeightFormat
  | q80 => iq4Nl
  | format => format

/-- The bytes of an expert's weights. -/
def weightStride (out inn : ℕ) : WeightFormat → ℕ
  | iq3Xxs => out * inn / 4
  | q80 => out * inn
  | iq2SPacked => out * inn / 256 * 80
  | iq2S => out * inn / 4
  | iq4Nl => out * inn / 2

/-- The bytes of an expert's signs, where it has any. -/
def zpStride (out inn : ℕ) : WeightFormat → ℕ
  | iq3Xxs => out * inn / 8
  | iq2S => out * inn / 8
  | _ => 0

def scaleStride (out inn groupSize : ℕ) : WeightFormat → ℕ
  | iq2SPacked => inn / 256 * out
  | iq2S => inn / groupSize * out * 2
  | _ => inn / groupSize * out

end WeightFormat

section Kernels

variable {F H : Type} (fl : KernelFloats F H) (tb : KernelTables)

/-- The projection, from a slot on. -/
def Projection.ofSlot (p : Projection H) (format : WeightFormat) (out inn groupSize slot : ℕ) :
    Projection H where
  weight i := p.weight (slot * format.weightStride out inn + i)
  zp i := p.zp (slot * format.zpStride out inn + i)
  scale i := p.scale (slot * format.scaleStride out inn groupSize + i)

/-- The decoder of a format. -/
def nativeDotTile (sg : ℕ) (p : Projection H) (n N K : ℕ) (x : ℕ → H) (xb : ℕ → ℕ) (cnt : ℕ) :
    WeightFormat → ℕ → F
  | .iq3Xxs => nativeDotIq3xxsTile fl tb sg p.weight p.zp p.scale n N K x xb cnt
  | .iq2SPacked => nativeDotIq2sPackedTile fl tb sg p.weight p.scale n K x xb cnt
  | .iq2S => nativeDotIq2sTile fl tb sg p.weight p.zp p.scale n K x xb cnt
  | .q80 => nativeDotQ80Tile fl sg p.weight p.scale n N K x xb cnt
  | .iq4Nl => nativeDotIq4nlTile fl tb sg p.weight p.scale n N K x xb cnt

/-! ## The bodies -/

/-- The rows one after the other. Only the first lane writes. -/
def rowLoop (tileM nStart nEnd : ℕ) (yb : ℕ → ℕ) (cnt : ℕ) (value : ℕ → ℕ → H) : List (ℕ × H) :=
  (strided nStart nEnd 1).flatMap fun n =>
    (List.range tileM).filterMap fun t =>
      if t < cnt then some (yb t + n, value n t) else none

/-- Several rows in a pass. -/
def rowsLoop (tileN tileM nStart nEnd : ℕ) (yb : ℕ → ℕ) (cnt : ℕ) (value : ℕ → ℕ → ℕ → ℕ → H) :
    List (ℕ × H) :=
  (strided nStart nEnd tileN).flatMap fun n =>
    let nr := min tileN (nEnd - n)
    (List.range tileN).flatMap fun r =>
      (List.range tileM).filterMap fun t =>
        if r < nr ∧ t < cnt then some (yb t + n + r, value n nr r t) else none

section Bodies

variable (sh : KernelShape) (ts : TileShape)

def expertGateUpNativeBody (gate up : Projection H) (x : ℕ → H) (slotIndex : ℕ) (xb yb : ℕ → ℕ)
    (cnt gid2 : ℕ) : List (ℕ × H) :=
  let nStart := gid2 * sh.nBlock
  let format := sh.guFormat.ofGateUp
  let gate := gate.ofSlot format sh.intermediateSize sh.hiddenSize sh.gateUpGroupSize slotIndex
  let up := up.ofSlot format sh.intermediateSize sh.hiddenSize sh.gateUpGroupSize slotIndex
  let nEnd := min (nStart + sh.nBlock) sh.intermediateSize
  if sh.guFormat = .iq2SPacked ∧ 1 < ts.guTileN then
    rowsLoop ts.guTileN ts.tileM nStart nEnd yb cnt fun n nr r t =>
      let sums := nativeGuIq2sPackedRows fl tb sh.subgroupSize up.weight up.scale gate.weight
        gate.scale n nr sh.hiddenSize x xb cnt
      fl.convertHalf (fl.mul (sums.1 r t) (fl.gateAct (sums.2 r t)))
  else
    rowLoop ts.tileM nStart nEnd yb cnt fun n t =>
      let dot (p : Projection H) : ℕ → F :=
        nativeDotTile fl tb sh.subgroupSize p n sh.intermediateSize sh.hiddenSize x xb cnt format
      fl.convertHalf (fl.mul (dot up t) (fl.gateAct (dot gate t)))

def expertDownNativeBody (down : Projection H) (x routingWeights : ℕ → H) (slotIndex : ℕ)
    (xb rwb yb : ℕ → ℕ) (cnt gid2 : ℕ) : List (ℕ × H) :=
  let nStart := gid2 * sh.nBlock
  let p := down.ofSlot sh.downFormat sh.hiddenSize sh.intermediateSize sh.downGroupSize slotIndex
  let nEnd := min (nStart + sh.nBlock) sh.hiddenSize
  let weighted (acc : F) (t : ℕ) : H :=
    fl.convertHalf (fl.mul acc (fl.convertFloat (routingWeights (rwb t))))
  if sh.downFormat = .iq3Xxs ∧ 1 < ts.downTileN then
    rowsLoop ts.downTileN ts.tileM nStart nEnd yb cnt fun n nr r t =>
      weighted (nativeDotIq3xxsRows fl tb sh.subgroupSize p.weight p.zp p.scale n nr sh.hiddenSize
        sh.intermediateSize x xb cnt r t) t
  else if sh.downFormat = .iq4Nl ∧ 1 < ts.downTileN then
    rowsLoop ts.downTileN ts.tileM nStart nEnd yb cnt fun n nr r t =>
      weighted (nativeDotIq4nlRows fl tb sh.subgroupSize p.weight p.scale n nr sh.hiddenSize
        sh.intermediateSize x xb cnt r t) t
  else
    rowLoop ts.tileM nStart nEnd yb cnt fun n t =>
      weighted (nativeDotTile fl tb sh.subgroupSize p n sh.hiddenSize sh.intermediateSize x xb cnt
        sh.downFormat t) t

/-! ## The entries -/

/-- An array of a tile that is given its first place. -/
def single (first : ℕ) : ℕ → ℕ := fun t => if t = 0 then first else 0

def expertGateUpNative (gate up : Projection H) (x : ℕ → H) (slotIndex xBaseElem yBaseElem : ℕ)
    (gid0 gid2 : ℕ) : List (ℕ × H) :=
  expertGateUpNativeBody fl tb sh ts gate up x slotIndex (single (xBaseElem + gid0 * sh.hiddenSize))
    (single (yBaseElem + gid0 * sh.intermediateSize)) 1 gid2

def expertGateUpNativeBatched (gate up : Projection H) (x : ℕ → H) (pairs : ℕ → ℕ)
    (expertsPerToken : ℕ) (gid0 gid2 : ℕ) : List (ℕ × H) :=
  let flat := pairs (3 * gid0 + 1)
  expertGateUpNativeBody fl tb sh ts gate up x (pairs (3 * gid0))
    (single (flat / expertsPerToken * sh.hiddenSize)) (single (flat * sh.intermediateSize)) 1 gid2

def expertGateUpNativeGrouped (gate up : Projection H) (x : ℕ → H) (tiles : ℕ → ℕ)
    (expertsPerToken : ℕ) (gid0 gid2 : ℕ) : List (ℕ × H) :=
  let tile (i : ℕ) : ℕ := tiles ((2 + 2 * ts.tileM) * gid0 + i)
  let cnt := tile 1
  let flat (t : ℕ) : ℕ := if t < cnt then tile (2 + 2 * t) else 0
  expertGateUpNativeBody fl tb sh ts gate up x (tile 0)
    (fun t => flat t / expertsPerToken * sh.hiddenSize) (fun t => flat t * sh.intermediateSize) cnt
    gid2

def expertDownNative (down : Projection H) (x routingWeights : ℕ → H)
    (slotIndex xBaseElem rwBaseElem yBaseElem : ℕ) (gid0 gid2 : ℕ) : List (ℕ × H) :=
  expertDownNativeBody fl tb sh ts down x routingWeights slotIndex
    (single (xBaseElem + gid0 * sh.intermediateSize)) (single (rwBaseElem + gid0))
    (single (yBaseElem + gid0 * sh.hiddenSize)) 1 gid2

def expertDownNativeBatched (down : Projection H) (x routingWeights : ℕ → H) (pairs : ℕ → ℕ)
    (expertsPerToken maxTopk : ℕ) (gid0 gid2 : ℕ) : List (ℕ × H) :=
  let flat := pairs (3 * gid0 + 1)
  expertDownNativeBody fl tb sh ts down x routingWeights (pairs (3 * gid0))
    (single (flat * sh.intermediateSize))
    (single (flat / expertsPerToken * maxTopk + pairs (3 * gid0 + 2)))
    (single (flat * sh.hiddenSize)) 1 gid2

def expertDownNativeGrouped (down : Projection H) (x routingWeights : ℕ → H) (tiles : ℕ → ℕ)
    (expertsPerToken maxTopk : ℕ) (gid0 gid2 : ℕ) : List (ℕ × H) :=
  let tile (i : ℕ) : ℕ := tiles ((2 + 2 * ts.tileM) * gid0 + i)
  let cnt := tile 1
  let flat (t : ℕ) : ℕ := if t < cnt then tile (2 + 2 * t) else 0
  let topk (t : ℕ) : ℕ := if t < cnt then tile (3 + 2 * t) else 0
  expertDownNativeBody fl tb sh ts down x routingWeights (tile 0)
    (fun t => flat t * sh.intermediateSize) (fun t => flat t / expertsPerToken * maxTopk + topk t)
    (fun t => flat t * sh.hiddenSize) cnt gid2

end Bodies

/-! ## The launches -/

/-- What is written by the work groups of a launch, over the rows of a table and the blocks of the
output. -/
def launch (rows width nBlock : ℕ) (item : ℕ → ℕ → List (ℕ × H)) : List (ℕ × H) :=
  (List.range rows).flatMap fun gid0 => (List.range (width / nBlock)).flatMap (item gid0)

/-- A buffer after a launch, whose writes come in any order. -/
def Launched (writes : List (ℕ × H)) (before after : ℕ → H) : Prop :=
  ∃ order : List (ℕ × H), order.Perm writes ∧ after = scatter before order

/-- `MOE_DISPATCH_MODE` -/
inductive DispatchMode where
  | pair
  | batched
  | grouped
  deriving DecidableEq, Repr

/-- What the launches of a call read besides the scratch buffers. -/
structure MoeCall (H : Type) where
  gate : Projection H
  up : Projection H
  down : Projection H
  hidden : ℕ → H
  routingWeights : ℕ → H
  dispatchPairs : ℕ → ℕ
  expertsPerToken : ℕ
  maxTopk : ℕ

structure Scratch (H : Type) where
  up : ℕ → H
  y : ℕ → H

section Launches

variable (sh : KernelShape) (ts : TileShape) (call : MoeCall H)

/-- The two launches of each pair. -/
def RunsPairs : List PerExpertGpuDispatch → Scratch H → Scratch H → Prop
  | [], before, after => after = before
  | d :: rest, before, after =>
    let token := d.flatId / call.expertsPerToken
    ∃ up y,
      Launched (launch 1 sh.intermediateSize sh.nBlock
        (expertGateUpNative fl tb sh ts call.gate call.up call.hidden d.slotIndex
          (token * sh.hiddenSize) (d.flatId * sh.intermediateSize))) before.up up ∧
      Launched (launch 1 sh.hiddenSize sh.nBlock
        (expertDownNative fl tb sh ts call.down up call.routingWeights d.slotIndex
          (d.flatId * sh.intermediateSize) (token * call.maxTopk + d.topkPosition)
          (d.flatId * sh.hiddenSize))) before.y y ∧
      RunsPairs rest ⟨up, y⟩ after

/-- A launch of each stage over a table. -/
def RunsTable (rows : ℕ) (gateUp : ℕ → ℕ → List (ℕ × H)) (down : (ℕ → H) → ℕ → ℕ → List (ℕ × H))
    (before after : Scratch H) : Prop :=
  Launched (launch rows sh.intermediateSize sh.nBlock gateUp) before.up after.up ∧
    Launched (launch rows sh.hiddenSize sh.nBlock (down after.up)) before.y after.y

/-- The scratch buffers before and after the launches of a call. -/
def Runs (dispatches : List PerExpertGpuDispatch) :
    DispatchMode → Scratch H → Scratch H → Prop
  | .pair => RunsPairs fl tb sh ts call dispatches
  | .batched =>
    let pairs := writeTable (pairsTable dispatches) call.dispatchPairs
    RunsTable sh dispatches.length
      (expertGateUpNativeBatched fl tb sh ts call.gate call.up call.hidden pairs
        call.expertsPerToken)
      (fun up => expertDownNativeBatched fl tb sh ts call.down up call.routingWeights pairs
        call.expertsPerToken call.maxTopk)
  | .grouped =>
    let table := tilesTable ts.tileM dispatches
    let tiles := writeTable table call.dispatchPairs
    RunsTable sh (table.length / (2 + 2 * ts.tileM))
      (expertGateUpNativeGrouped fl tb sh ts call.gate call.up call.hidden tiles
        call.expertsPerToken)
      (fun up => expertDownNativeGrouped fl tb sh ts call.down up call.routingWeights tiles
        call.expertsPerToken call.maxTopk)

end Launches

end Kernels

end Arcint.Native.Kernel
