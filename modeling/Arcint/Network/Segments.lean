import Arcint.Network.ServingShape
import Arcint.Segment.Acceptance
import Arcint.Segment.Runtime

/-! # The model in segments

The layers may be exported as a chain of graphs, each with its own variables. The first takes the
embedding, the last has the head, and between them the stream is handed on as it is. Every chain
that the runtime's plan accepts is one that the export emits, and it answers what the whole model
answers.
-/

namespace Arcint.Network

open Foundation Moe Segment

/-! ## The range of a segment -/

/-- The checks of `build_serving_shape_ir` on a layer range. -/
def checkLayerRange (nTotal depth : ℕ) (range : ℤ × ℤ) : Except String Unit := do
  ensure (0 ≤ range.1 ∧ range.1 < range.2 ∧ range.2 ≤ depth ∧ depth ≤ nTotal)
    ("layer_range (" ++ toString range.1 ++ ", " ++ toString range.2 ++ ") outside 0.." ++
      toString depth ++ " (depth " ++ toString depth ++ " of " ++ toString nTotal ++ ")")
  ensure (∃ i ∈ List.range' range.1.toNat (range.2 - range.1).toNat, i % 4 = 3)
    ("layers " ++ toString range.1 ++ ".." ++ toString (range.2 - 1) ++
      " hold no full-attention layer (index 3 mod 4): SDPAToPagedAttention would refuse the " ++
      "segment; the smallest 4-aligned range is 4 layers")

section Graphs

variable {F : Type} [Field F] [LinearOrder F] {arith : Arith F} {config : ServingConfig F}
variable (weights : ServingWeights config) (topk : RowTopk F) (ropeSpan : ℕ)
variable (choices : Choices arith config.attention)

/-! ## The chain -/

def segmentLayers (s : SegmentSpec) : Stateful (Row config) (Row config) :=
  Stateful.stack (layers weights topk ropeSpan choices s.lo.toNat s.hi.toNat)

/-- The segments behind the first; the graph of the last has the head. -/
def laterSegments : List SegmentSpec → Stateful (Row config) (ℕ → F)
  | [] => Stateful.ofRow (logitsOf arith weights)
  | s :: rest => (segmentLayers weights topk ropeSpan choices s).andThen (laterSegments rest)

/-- A forward goes through every segment in turn. -/
def segmentChain : List SegmentSpec → Stateful (InputRow config) (ℕ → F)
  | [] => (Stateful.ofRow tileEmbeds).andThen (Stateful.ofRow (logitsOf arith weights))
  | s :: rest => ((Stateful.ofRow tileEmbeds).andThen
      (segmentLayers weights topk ropeSpan choices s)).andThen
        (laterSegments weights topk ropeSpan choices rest)

variable {weights topk ropeSpan choices}

theorem layers_append {lo mid hi : ℕ} (hlo : lo ≤ mid) (hhi : mid ≤ hi) :
    layers weights topk ropeSpan choices lo hi =
      layers weights topk ropeSpan choices lo mid ++
        layers weights topk ropeSpan choices mid hi := by
  have hrange : List.range' lo (hi - lo) =
      List.range' lo (mid - lo) ++ List.range' mid (hi - mid) := by
    obtain ⟨m, rfl⟩ := Nat.exists_eq_add_of_le hlo
    obtain ⟨n, rfl⟩ := Nat.exists_eq_add_of_le hhi
    rw [Nat.add_sub_cancel_left, Nat.add_sub_cancel_left, Nat.add_assoc, Nat.add_sub_cancel_left,
      List.range'_append_1]
  unfold layers
  rw [hrange, List.map_append]

theorem sameAs_laterSegments {segs : List SegmentSpec} {lo depth : ℕ}
    (hlaid : Laid (lo : ℤ) (segs.map fun s => (s.lo, s.hi - s.lo)) depth)
    (hspans : ∀ s ∈ segs, s.lo < s.hi) :
    Stateful.SameAs (laterSegments weights topk ropeSpan choices segs)
      ((Stateful.stack (layers weights topk ropeSpan choices lo depth)).andThen
        (Stateful.ofRow (logitsOf arith weights))) := by
  induction segs generalizing lo with
  | nil =>
      obtain rfl : lo = depth := Int.ofNat_inj.mp hlaid
      have hnone : layers weights topk ropeSpan choices lo lo = [] := by simp [layers]
      rw [hnone]
      exact (Stateful.id_andThen _).symm
  | cons s rest ih =>
      obtain ⟨hs, hrests⟩ := List.forall_mem_cons.mp hspans
      obtain ⟨hlo, hlater⟩ := hlaid
      dsimp only at hlo hlater
      obtain ⟨mid, hmid⟩ : ∃ mid : ℕ, s.hi = mid := ⟨s.hi.toNat, by omega⟩
      have hreach : (lo : ℤ) + (s.hi - s.lo) = (mid : ℤ) := by omega
      rw [hreach] at hlater
      have hle : mid ≤ depth := by
        have hnonneg : ∀ r ∈ rest.map (fun s => (s.lo, s.hi - s.lo)), 0 ≤ r.2 := by
          intro r hr
          obtain ⟨t, ht, rfl⟩ := List.mem_map.mp hr
          exact sub_nonneg.mpr (hrests t ht).le
        exact Int.ofNat_le.mp (hlater.le hnonneg)
      have hhere : segmentLayers weights topk ropeSpan choices s =
          Stateful.stack (layers weights topk ropeSpan choices lo mid) := by
        unfold segmentLayers
        rw [hlo, hmid, Int.toNat_natCast, Int.toNat_natCast]
      rw [laterSegments, hhere, layers_append (by omega) hle]
      have hkeeps : ∀ g ∈ layers weights topk ropeSpan choices lo mid, g.KeepsLength :=
        keepsLength_layers lo mid
      have hstack := Stateful.keepsLength_stack hkeeps
      refine ((Stateful.SameOn.refl _).andThen hstack (ih hlater hrests)).trans ?_
      refine (Stateful.andThen_assoc _ _ _).symm.trans ?_
      refine (Stateful.stack_append hkeeps).symm.andThen ?_ (.refl _)
      exact hstack.andThen (Stateful.keepsLength_stack (keepsLength_layers mid depth))

theorem sameAs_segmentChain {segs : List SegmentSpec} {depth : ℕ}
    (hlaid : Laid (0 : ℤ) (segs.map fun s => (s.lo, s.hi - s.lo)) depth)
    (hspans : ∀ s ∈ segs, s.lo < s.hi) :
    Stateful.SameAs (segmentChain weights topk ropeSpan choices segs)
      (buildServingShapeIr weights topk ropeSpan choices depth) := by
  have htile := Stateful.keepsLength_ofRow (tileEmbeds : InputRow config → Row config)
  have hchain : Stateful.SameAs (segmentChain weights topk ropeSpan choices segs)
      ((Stateful.ofRow tileEmbeds).andThen (laterSegments weights topk ropeSpan choices segs)) := by
    cases segs with
    | nil => exact .refl _
    | cons s rest => exact Stateful.andThen_assoc _ _ _
  refine hchain.trans (((Stateful.SameOn.refl _).andThen htile ?_).trans
    (Stateful.andThen_assoc _ _ _).symm)
  exact sameAs_laterSegments hlaid hspans

end Graphs

theorem planSegments_attention {manifest : Manifest} {nLayer hiddenSize hcCount : ℤ} {plan : Plan}
    (h : planSegments manifest nLayer hiddenSize hcCount = .ok plan) :
    ∀ s ∈ plan.segments, checkAttention s = .ok () := by
  simp only [planSegments, bind_ok, checkAll_ok] at h
  obtain ⟨segs, _, _, hchecks, _, _, _, _, _, _, _, _, _, _, _, _, hplan⟩ := h
  cases hplan
  simp only [checkSegments, bind_ok, checkAll_ok] at hchecks
  obtain ⟨_, hattention, _⟩ := hchecks
  exact hattention

/-- What the plan asks of a segment is what the export asks of a range. -/
theorem checkLayerRange_ok {s : SegmentSpec} {nTotal depth : ℕ}
    (hattention : checkAttention s = .ok ()) (hlo : 0 ≤ s.lo) (hhi : s.hi ≤ depth)
    (hdepth : depth ≤ nTotal) :
    checkLayerRange nTotal depth (s.lo, s.hi) = .ok () := by
  obtain ⟨layer, hlayer, hfull⟩ := (ensure_ok _ _ _).mp hattention
  obtain ⟨hfirst, hlast⟩ := mem_layers.mp hlayer
  have hnat : (layer.toNat : ℤ) = layer := Int.toNat_of_nonneg (hlo.trans hfirst)
  have hmod : layer.toNat % 4 = 3 := by
    have htmod : layer.tmod 4 = 3 := hfull
    rw [Int.tmod_eq_emod_of_nonneg (hlo.trans hfirst)] at htmod
    omega
  refine bind_ok.mpr ⟨(), (ensure_ok _ _ _).mpr ⟨hlo, hfirst.trans_lt hlast, hhi, hdepth⟩, ?_⟩
  refine (ensure_ok _ _ _).mpr ⟨layer.toNat, ?_, hmod⟩
  rw [List.mem_range'_1]
  dsimp only
  omega

/-- A plan that the runtime accepts for the layers of the model has segments that the export emits,
and a forward that goes through all of them, from whatever forwards came before, answers what the
whole model answers, also if that was exported with other choices. -/
theorem segmentChain_answers {F : Type} [Field F] [LinearOrder F] {arith : Arith F}
    {config : ServingConfig F} (weights : ServingWeights config) (topk : RowTopk F)
    (ropeSpan : ℕ) (choices choices' : Choices arith config.attention) {manifest : Manifest}
    {depth : ℕ} {hiddenSize hcCount : ℤ} {plan : Plan}
    (hplan : planSegments manifest depth hiddenSize hcCount = .ok plan)
    (hdepth : depth ≤ config.numHiddenLayers) (forwards : List (List (InputRow config))) :
    (∀ s ∈ plan.segments,
      checkLayerRange config.numHiddenLayers depth (s.lo, s.hi) = .ok ()) ∧
      (segmentChain weights topk ropeSpan choices plan.segments).answers forwards =
        (buildServingShapeIr weights topk ropeSpan choices' depth).answers forwards := by
  obtain ⟨rows, eb, _, _, haccepted⟩ := planSegments_accepted hplan
  refine ⟨fun s hs => ?_, ?_⟩
  · obtain ⟨hlo, hhi⟩ := haccepted.segment_within hs
    exact checkLayerRange_ok (planSegments_attention hplan s hs) hlo hhi hdepth
  · rw [buildServingShapeIr_choices choices' choices]
    exact (sameAs_segmentChain haccepted.segment_laid haccepted.spans).answers_eq
      fun _ _ => trivial

/-- Two segments of four layers. -/
theorem segmentChain_answers_small :
    (∀ s ∈ demoPlan.segments, checkLayerRange 8 8 (s.lo, s.hi) = .ok ()) ∧
      (segmentChain smallWeights rankedRowTopk 4 (smallChoices ⟨.sequential, trivial⟩)
          demoPlan.segments).answers [[smallRow 0], [smallRow 1]] =
        (buildServingShapeIr smallWeights rankedRowTopk 4
          (smallChoices ⟨.chunked 64, Nat.succ_pos 63⟩) 8).answers [[smallRow 0], [smallRow 1]] :=
  have hplan : planSegments demoManifest 8 1 1 = .ok demoPlan := rfl
  segmentChain_answers smallWeights rankedRowTopk 4 _ _ hplan le_rfl _

end Arcint.Network
