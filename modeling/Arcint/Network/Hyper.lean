import Arcint.Foundation.Stateful
import Arcint.Network.Arith
import Arcint.Ple.Tail

/-! # Hyper-connections

The stream of a token is several rows wide. A sublayer works on a mixture of them and its output is
added to each row by a weight of its own (`hc.py`). No token reads another.
-/

namespace Arcint.Network

open Foundation Ple

section Nonlinear

variable {F : Type} [Field F] [LinearOrder F]

/-- The ops of the n-gram branch and of the mixers, for one epsilon. -/
def Arith.nonlinear (arith : Arith F) (eps : F) : Nonlinear F where
  rsqrtEps := arith.rsqrtEps eps
  clampAbs x := max (max x (-x)) (((10 ^ 6 : ℕ) : F)⁻¹)
  sqrt := arith.sqrt
  sign x := if 0 < x then 1 else if x < 0 then -1 else 0
  sigmoid := arith.sigmoid
  silu := arith.silu

end Nonlinear

/-- The weights of a mixer; the last only where its output is combined. -/
structure HcState (F : Type) (dims : Widths) where
  hcNorm : Channel dims → F
  inputMixWeightDown : ℕ → Channel dims → F
  inputMixWeightUp : Channel dims → ℕ → F
  blockInjectWeight : Fin dims.hc → Channel dims → F

section Mixer

variable {F : Type} [Field F] {dims : Widths} (ops : Nonlinear F) (lowrank : ℕ)
variable (state : HcState F dims) (stream : Channel dims → F)

/-- `_gated_residual`: the mixed row and the normed stream. -/
def gatedResidual : (Fin dims.hidden → F) × (Channel dims → F) :=
  let xn := groupRms ops state.hcNorm stream
  let down (l : ℕ) : F := (∑ c, xn c * state.inputMixWeightDown l c) * (1 / dims.hc)
  let wgt (c : Channel dims) : F := ops.sigmoid
    (∑ l ∈ Finset.range lowrank, ops.silu (down l) * state.inputMixWeightUp c l)
  (fun h => (∑ g, wgt (g, h) * xn (g, h)) / dims.hc, xn)

/-- `emit_hc` -/
def emitHc : Fin dims.hidden → F := (gatedResidual ops lowrank state stream).1

/-- The weights by which the sublayer's output comes back, of `emit_combine`. -/
def injection (g : Fin dims.hc) : F :=
  ((2 : ℕ) : F) * ops.sigmoid ((∑ c, (gatedResidual ops lowrank state stream).2 c *
    state.blockInjectWeight g c) * (1 / dims.hc))

/-- `_recombine` -/
def recombine (out : Fin dims.hidden → F) : Channel dims → F := fun c =>
  stream c + out c.2 * injection ops lowrank state stream c.1

end Mixer

/-! ## Sublayers -/

/-- What a graph is given of a token: its stream, and its entries of the other inputs. -/
structure StreamRow (F : Type) (dims : Widths) where
  stream : Channel dims → F
  position : ℕ
  convMask : F
  embed : Fin dims.embed → F

section Sublayer

variable {F : Type} [Field F] {dims : Widths} (ops : Nonlinear F) (lowrank : ℕ)
variable (state : HcState F dims)

/-- A sublayer between a mixer and its injection; `part` adds to the mixed row what else the
sublayer is given of a token. -/
def hyperConnection {β : Type} (part : StreamRow F dims → (Fin dims.hidden → F) → β)
    (sublayer : Stateful β (Fin dims.hidden → F)) :
    Stateful (StreamRow F dims) (StreamRow F dims) :=
  sublayer.within (fun row => part row (emitHc ops lowrank state row.stream))
    fun row out => { row with stream := recombine ops lowrank state row.stream out }

end Sublayer

end Arcint.Network
