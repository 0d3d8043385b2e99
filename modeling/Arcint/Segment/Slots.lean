import Arcint.Segment.Plan

/-! # The slots of an accepted plan

The checks of `planSegments` add up to this: within a segment the bodies are in
bijection with the first slots of the buffer set, and each body has the byte
count of its slot.
-/

namespace Arcint.Segment

open Foundation

/-- The slot of a body of segment `s`. -/
def slotOf (s : SegmentSpec) (b : BodySpec) : Nat :=
  ((b.layer - s.lo) * 3 + (b.kindIndex.val : Int)).toNat

/-- What an accepted plan says about its slots. -/
structure Plan.Slotted (plan : Plan) : Prop where
  index_nonneg : ∀ s ∈ plan.segments, 0 ≤ s.index
  find_segment : ∀ s ∈ plan.segments,
    plan.segments.find? (fun t => t.index = s.index) = some s
  layers : ∀ s ∈ plan.segments, ∀ b ∈ bodiesOf plan.bodies s.index,
    s.lo ≤ b.layer ∧ b.layer < s.hi
  slots : ∀ s ∈ plan.segments,
    ((bodiesOf plan.bodies s.index).map (slotOf s)).Perm (List.range (3 * s.span))
  span_le : ∀ s ∈ plan.segments, 3 * s.span ≤ plan.slotsPerSegment
  bytes : ∀ b ∈ plan.bodies, b.bytes = shapeBytes (plan.slotShape b.kindIndex)

@[simp] theorem mem_bodiesOf {bodies : List BodySpec} {k : Int} {b : BodySpec} :
    b ∈ bodiesOf bodies k ↔ b ∈ bodies ∧ b.segment = k := by
  simp [bodiesOf]

theorem mem_layers {s : SegmentSpec} {layer : Int} :
    layer ∈ s.layers ↔ s.lo ≤ layer ∧ layer < s.hi := by
  simp only [SegmentSpec.layers, SegmentSpec.span, List.mem_map, List.mem_range]
  constructor
  · rintro ⟨i, hi, rfl⟩
    omega
  · rintro ⟨hlo, hhi⟩
    exact ⟨(layer - s.lo).toNat, by omega, by omega⟩

section Chain

/-- A chain accepted from position `k` on holds indices from `k` on. -/
theorem checkChain_le {segs : List SegmentSpec} {k : Nat} {expect reached : Int}
    (h : checkChain k expect segs = .ok reached) : ∀ s ∈ segs, (k : Int) ≤ s.index := by
  induction segs generalizing k expect with
  | nil => simp
  | cons head rest ih =>
      simp only [checkChain] at h
      split_ifs at h with hindex
      intro s hs
      rcases List.mem_cons.mp hs with rfl | hs
      · omega
      · have := ih h s hs
        omega

/-- An accepted chain has one segment for an index. -/
theorem checkChain_find {segs : List SegmentSpec} {k : Nat} {expect reached : Int}
    (h : checkChain k expect segs = .ok reached) :
    ∀ s ∈ segs, segs.find? (fun t => t.index = s.index) = some s := by
  induction segs generalizing k expect with
  | nil => simp
  | cons head rest ih =>
      simp only [checkChain] at h
      split_ifs at h with hindex
      intro s hs
      rcases List.mem_cons.mp hs with rfl | hs
      · simp
      · have hle := checkChain_le h s hs
        have hne : head.index ≠ s.index := by omega
        simp [hne, ih h s hs]

end Chain

/-- A segment that has the right number of bodies and misses none has each of
them once. -/
theorem checkBodies_slots {bodies : List BodySpec} {s : SegmentSpec}
    (h : checkBodies bodies s = .ok ()) :
    (∀ b ∈ bodiesOf bodies s.index, s.lo ≤ b.layer ∧ b.layer < s.hi) ∧
      ((bodiesOf bodies s.index).map (slotOf s)).Perm (List.range (3 * s.span)) := by
  simp only [checkBodies, bind_ok, checkAll_ok, checkLayer, checkCount, checkSeen, ensure_ok] at h
  obtain ⟨_, hlayers, _, hcount, hseen⟩ := h
  refine ⟨hlayers, ?_⟩
  have hcover : List.range (3 * s.span) ⊆ (bodiesOf bodies s.index).map (slotOf s) := by
    intro j hj
    have hj : j < 3 * s.span := List.mem_range.mp hj
    have hlayer : s.lo + ((j / 3 : Nat) : Int) ∈ s.layers := by
      rw [mem_layers]
      unfold SegmentSpec.span at hj
      omega
    obtain ⟨b, hb, hbl, hbk⟩ := hseen _ hlayer (Fin.ofNat 3 j) (List.mem_finRange _)
    refine List.mem_map.mpr ⟨b, hb, ?_⟩
    simp only [slotOf, hbl, hbk, Fin.ofNat]
    omega
  apply List.Perm.symm
  apply (List.subperm_of_subset List.nodup_range hcover).perm_of_length_le
  simp only [List.length_map, List.length_range, SegmentSpec.span]
  omega

theorem checkOffsets_bytes {bodies : List BodySpec} {expect sum : Nat}
    (h : checkOffsets expect bodies = .ok sum) : ∀ b ∈ bodies, b.bytes = shapeBytes b.shape := by
  induction bodies generalizing expect with
  | nil => simp
  | cons head rest ih =>
      simp only [checkOffsets] at h
      split_ifs at h with hbytes
      intro b hb
      rcases List.mem_cons.mp hb with rfl | hb
      · exact not_not.mp hbytes
      · exact ih h b hb

theorem span_le_foldl (segs : List SegmentSpec) (span : Nat) :
    span ≤ segs.foldl (fun n t => max n t.span) span ∧
      ∀ s ∈ segs, s.span ≤ segs.foldl (fun n t => max n t.span) span := by
  induction segs generalizing span with
  | nil => simp
  | cons head rest ih =>
      obtain ⟨hstart, hrest⟩ := ih (max span head.span)
      simp only [List.foldl_cons]
      refine ⟨by omega, ?_⟩
      intro s hs
      rcases List.mem_cons.mp hs with rfl | hs
      · omega
      · exact hrest s hs

/-- Every accepted plan is slotted. -/
theorem planSegments_slotted {manifest : Manifest} {nLayer hiddenSize hcCount : Int} {plan : Plan}
    (h : planSegments manifest nLayer hiddenSize hcCount = .ok plan) : plan.Slotted := by
  simp only [planSegments, bind_ok, checkAll_ok] at h
  obtain ⟨segs, _, _, hsegs, eb, _, parsed, _, _, hbodies, sum, hoffsets, _, _, _, hdrift, hplan⟩ :=
    h
  cases hplan
  simp only [checkSegments, bind_ok] at hsegs
  obtain ⟨_, _, reached, hchain, _⟩ := hsegs
  refine ⟨checkChain_le hchain, checkChain_find hchain, ?_, ?_, ?_, ?_⟩
  · intro s hs
    exact (checkBodies_slots (hbodies s hs)).1
  · intro s hs
    exact (checkBodies_slots (hbodies s hs)).2
  · intro s hs
    exact Nat.mul_le_mul_left 3 ((span_le_foldl segs 0).2 s hs)
  · intro b hb
    have hshape := hdrift b hb
    simp only [checkDrift, ensure_ok] at hshape
    rw [checkOffsets_bytes hoffsets b hb, hshape]

namespace Plan.Slotted

variable {plan : Plan} (hplan : plan.Slotted)

include hplan

theorem bodySlot_eq {s : SegmentSpec} (hs : s ∈ plan.segments) {b : BodySpec}
    (hb : b.segment = s.index) : bodySlot plan b = .ok (slotOf s b) := by
  simp [bodySlot, hb, hplan.find_segment s hs, slotOf]

/-- A body whose slot can be computed belongs to a segment of the plan. -/
theorem exists_segment {b : BodySpec} {slot : Nat} (h : bodySlot plan b = .ok slot) :
    ∃ s ∈ plan.segments, b.segment = s.index ∧ slot = slotOf s b := by
  cases hfind : plan.segments.find? (fun s => s.index = b.segment) with
  | none => simp [bodySlot, hfind] at h
  | some s =>
      have hindex : s.index = b.segment := by simpa using List.find?_some hfind
      have hs : s ∈ plan.segments := List.mem_of_find?_eq_some hfind
      rw [hplan.bodySlot_eq hs hindex.symm] at h
      cases h
      exact ⟨s, hs, hindex.symm, rfl⟩

theorem slotOf_lt {s : SegmentSpec} (hs : s ∈ plan.segments) {b : BodySpec} (hb : b ∈ plan.bodies)
    (hsegment : b.segment = s.index) : slotOf s b < plan.slotsPerSegment := by
  have hmem : slotOf s b ∈ (bodiesOf plan.bodies s.index).map (slotOf s) :=
    List.mem_map_of_mem (mem_bodiesOf.mpr ⟨hb, hsegment⟩)
  have hlt := List.mem_range.mp ((hplan.slots s hs).mem_iff.mp hmem)
  have hspan := hplan.span_le s hs
  omega

/-- Two bodies of one segment with one slot are the same body. -/
theorem slotOf_injective {s : SegmentSpec} (hs : s ∈ plan.segments) {a b : BodySpec}
    (ha : a ∈ bodiesOf plan.bodies s.index) (hb : b ∈ bodiesOf plan.bodies s.index)
    (hslot : slotOf s a = slotOf s b) : a = b := by
  have hnodup : ((bodiesOf plan.bodies s.index).map (slotOf s)).Nodup :=
    (hplan.slots s hs).nodup_iff.mpr List.nodup_range
  exact List.inj_on_of_nodup_map hnodup ha hb hslot

/-- A body has the byte count of its slot. -/
theorem bufferBytes_slotOf {s : SegmentSpec} (hs : s ∈ plan.segments) {b : BodySpec}
    (hb : b ∈ plan.bodies) (hsegment : b.segment = s.index) :
    plan.bufferBytes (slotOf s b) = b.bytes := by
  have hlayer := hplan.layers s hs b (mem_bodiesOf.mpr ⟨hb, hsegment⟩)
  have hkind : Fin.ofNat 3 (slotOf s b) = b.kindIndex := by
    apply Fin.ext
    simp only [slotOf, Fin.ofNat]
    omega
  rw [Plan.bufferBytes, hkind, hplan.bytes b hb]

end Plan.Slotted

end Arcint.Segment
