import Mathlib.Data.List.Basic
import Mathlib.Data.Int.Basic

/-! # The sampler

Penalties, the greedy decision and the token history of `core/sampler.cpp`.
Logits are elements of a type with the float operations the sampler uses and
no laws about them, so nothing proved here relies on rounding. The stochastic
pass (candidates, nucleus, random draw) is a parameter: it runs only when the
request is not greedy.
-/

namespace Arcint.Core

/-- Token ids are C++ `int`s; the sampler and the graph only produce ids `≥ 0`,
and `-1` stands for no token. -/
abbrev Token := Int

/-- The `float` operations of the sampler. Comparisons are Boolean, as for a
type that has NaNs. -/
class FloatOps (F : Type) where
  zero : F
  one : F
  gt : F → F → Bool
  le : F → F → Bool
  ne : F → F → Bool
  div : F → F → F
  mul : F → F → F
  sub : F → F → F
  ofNat : Nat → F

/-- The request fields the decode loop and the sampler read. -/
structure SamplerParams (F : Type) where
  temperature : F
  topP : F
  topK : Int
  repetitionPenalty : F
  presencePenalty : F
  frequencyPenalty : F
  maxTokens : Int
  ignoreEos : Bool

/-- `top_k == 1` collapses the distribution just as temperature 0 does. -/
def SamplerParams.greedy {F : Type} [FloatOps F] (params : SamplerParams F) : Bool :=
  FloatOps.le params.temperature FloatOps.zero || params.topK == 1

/-- The sampler's own state. The two histories map a token to the number of
times it was recorded; a token that is absent from the map has count 0. -/
structure Sampler (F : Type) where
  params : SamplerParams F
  rng : Nat
  seen : Token → Nat
  generated : Token → Nat

namespace Sampler

variable {F : Type}

/-- `++history[token]` on one of the two maps. -/
def record (history : Token → Nat) (token : Token) : Token → Nat :=
  fun id => if id = token then history id + 1 else history id

/-- The prompt counts toward `seen` only. Negative ids are skipped. -/
def setPrompt (sampler : Sampler F) (prompt : List Token) : Sampler F :=
  { sampler with
    seen := prompt.foldl (fun seen id => if 0 ≤ id then record seen id else seen) (fun _ => 0)
    generated := fun _ => 0 }

/-- Record a token the model actually generated. -/
def observe (sampler : Sampler F) (token : Token) : Sampler F :=
  if token < 0 then sampler
  else { sampler with
    seen := record sampler.seen token
    generated := record sampler.generated token }

@[simp] theorem observe_params (sampler : Sampler F) (token : Token) :
    (sampler.observe token).params = sampler.params := by
  unfold observe
  split <;> rfl

variable [FloatOps F]

/-- Dividing a positive logit and multiplying a negative one both push the
token down. -/
def repetitionPenalised (sampler : Sampler F) (id : Nat) (logit : F) : F :=
  if FloatOps.ne sampler.params.repetitionPenalty FloatOps.one && sampler.seen id != 0 then
    if FloatOps.gt logit FloatOps.zero then
      FloatOps.div logit sampler.params.repetitionPenalty
    else FloatOps.mul logit sampler.params.repetitionPenalty
  else logit

/-- Presence and frequency penalties look at generated tokens only. -/
def countPenalised (sampler : Sampler F) (id : Nat) (logit : F) : F :=
  if sampler.generated id != 0 then
    let present :=
      if FloatOps.ne sampler.params.presencePenalty FloatOps.zero then
        FloatOps.sub logit sampler.params.presencePenalty
      else logit
    if FloatOps.ne sampler.params.frequencyPenalty FloatOps.zero then
      FloatOps.sub present
        (FloatOps.mul sampler.params.frequencyPenalty (FloatOps.ofNat (sampler.generated id)))
    else present
  else logit

/-- The histories are keyed by token, and each key touches its own logit, so
the order in which the maps are walked does not matter. -/
def applyPenalties (sampler : Sampler F) (logits : List F) : List F :=
  logits.mapIdx fun id logit =>
    countPenalised sampler id (repetitionPenalised sampler id logit)

/-- The scan of `argmax` from position `i` on, with the best so far. -/
def argmaxFrom (best : Nat) (top : F) (i : Nat) : List F → Nat
  | [] => best
  | logit :: rest =>
      if FloatOps.gt logit top then argmaxFrom i logit (i + 1) rest
      else argmaxFrom best top (i + 1) rest

/-- The first index of a largest logit. -/
def argmax : List F → Token
  | [] => 0
  | logit :: rest => argmaxFrom 0 logit 1 rest

/-- Pick the next token from one row of logits. Penalties can reorder the
distribution, so greedy is decided after them. `draw` is the stochastic pass
over the penalised row. -/
def sample (draw : Sampler F → List F → Token × Sampler F) (sampler : Sampler F)
    (logits : List F) : Token × Sampler F :=
  if logits.isEmpty then (0, sampler)
  else
    let penalised := sampler.applyPenalties logits
    if sampler.params.greedy then (argmax penalised, sampler)
    else draw sampler penalised

/-- A greedy decision leaves the sampler alone: it neither consumes
randomness nor widens `top_k`. -/
theorem sample_snd_of_greedy (draw : Sampler F → List F → Token × Sampler F)
    (sampler : Sampler F) (hgreedy : sampler.params.greedy = true) (logits : List F) :
    (sampler.sample draw logits).2 = sampler := by
  unfold sample
  split
  · rfl
  · rfl

end Sampler

/-- Integer logits, for runs on fixed inputs. Small integers are exact floats,
and default penalties never divide. -/
instance : FloatOps Int where
  zero := 0
  one := 1
  gt x y := decide (y < x)
  le x y := decide (x ≤ y)
  ne x y := decide (x ≠ y)
  div x y := x / y
  mul x y := x * y
  sub x y := x - y
  ofNat n := n

end Arcint.Core
