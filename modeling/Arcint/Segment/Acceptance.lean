import Mathlib.Algebra.Order.BigOperators.Group.List
import Mathlib.Algebra.Order.BigOperators.GroupWithZero.List
import Mathlib.Algebra.Order.Ring.Int
import Mathlib.Algebra.Order.Ring.Nat
import Mathlib.Data.Int.ModEq
import Arcint.Foundation.Layout
import Arcint.Segment.Slots
import Mathlib.Order.CompletePartialOrder

/-! # What an accepted plan covers

The checks are meant to add up to one body for every layer and kind, each in its layer's segment
and each with its own stretch of the blob. They count the bodies of the segments they know, look
at the last segment's flag, and multiply and add in words. A manifest that is regular where they
do not look is covered as meant, and no other is.
-/

namespace Arcint.Segment

open Foundation

/-- The bodies cover the layers and kinds, the slots of their segments, and the blob. -/
structure Plan.Covered (plan : Plan) (nLayer : Int) (total : Nat) : Prop where
  once : (plan.bodies.map fun b => (b.layer, b.kindIndex)).Nodup
  all : ∀ layer kind, (layer, kind) ∈ plan.bodies.map (fun b => (b.layer, b.kindIndex)) ↔
    0 ≤ layer ∧ layer < nLayer
  home : ∀ b ∈ plan.bodies, ∃ s ∈ plan.segments,
    b.segment = s.index ∧ s.lo ≤ b.layer ∧ b.layer < s.hi
  inner : ∀ s ∈ plan.segments.dropLast, s.outputs = [hiddenOut]
  final : ∀ s ∈ plan.segments.getLast?, s.outputs = ["logits"]
  slots : ∀ s ∈ plan.segments, 3 * (s.hi - s.lo) ≤ plan.slotsPerSegment ∧
    (∀ b ∈ bodiesOf plan.bodies s.index,
      ∃ slot : Nat, bodySlot plan b = .ok slot ∧ (slot : Int) < 3 * (s.hi - s.lo)) ∧
    ((bodiesOf plan.bodies s.index).map (bodySlot plan)).Nodup
  sizes : ∀ b ∈ plan.bodies, (∀ d ∈ b.shape, 0 ≤ d) ∧ (b.bytes : Int) = b.shape.prod ∧
    ∃ slot, bodySlot plan b = .ok slot ∧ plan.bufferBytes slot = b.bytes
  laid : Laid 0 (plan.bodies.map fun b => (b.offset, b.bytes)) total
  apart : (plan.bodies.map fun b => (b.offset, b.bytes)).Pairwise fun range next =>
    Disjoint (rangeRows range) (rangeRows next)
  covers : ∀ byte < total, ∃ b ∈ plan.bodies, byte ∈ rangeRows (b.offset, b.bytes)

/-- What the checks do not look at: bodies of no segment, a `last` before the end of the chain,
negative dimensions, and products and sums that leave a word. -/
structure Regular (rows : List SegmentRow) (eb : ExpertBodies) : Prop where
  named : ∀ body ∈ eb.entries, ∃ row ∈ rows, row.index = body.segment
  lastOnly : ∀ row ∈ rows, row.last = true → ∀ other ∈ rows, other.index ≤ row.index
  shapes : ∀ body ∈ eb.entries, (∀ d ∈ body.shape, 0 ≤ d) ∧ body.shape.prod < 2 ^ 64
  total : (eb.entries.map BodyRow.bytes).sum < 2 ^ 64

/-! ## What each check says -/

section Checks

variable {segs : List SegmentSpec} {k : Nat} {expect reached : Int}

/-- An accepted chain is laid end to end. -/
theorem checkChain_laid (h : checkChain k expect segs = .ok reached) :
    Laid expect (segs.map fun s => (s.lo, s.hi - s.lo)) reached := by
  induction segs generalizing k expect with
  | nil =>
      cases h
      rfl
  | cons s rest ih =>
      simp only [checkChain] at h
      split_ifs at h with hindex hgap hoverlap
      have hlo : s.lo = expect := by omega
      refine ⟨hlo, ?_⟩
      rw [show expect + (s.hi - s.lo) = s.hi by omega]
      exact ih h

theorem checkChain_sorted (h : checkChain k expect segs = .ok reached) :
    segs.Pairwise fun s t => s.index < t.index := by
  induction segs generalizing k expect with
  | nil => exact List.Pairwise.nil
  | cons s rest ih =>
      simp only [checkChain] at h
      split_ifs at h with hindex
      refine List.pairwise_cons.mpr ⟨fun t ht => ?_, ih h⟩
      have hle := checkChain_le h t ht
      omega

theorem checkAttention_span {s : SegmentSpec} (h : checkAttention s = .ok ()) : s.lo < s.hi := by
  obtain ⟨layer, hlayer, _⟩ := (ensure_ok _ _ _).mp h
  obtain ⟨hlo, hhi⟩ := mem_layers.mp hlayer
  exact hlo.trans_lt hhi

variable {bodies : List BodySpec} {sum : Nat}

/-- While the sum stays in a word, accepted bodies are laid end to end. -/
theorem checkOffsets_laid {start : Nat} (h : checkOffsets start bodies = .ok sum)
    (htotal : start + (bodies.map BodySpec.bytes).sum < 2 ^ 64) :
    Laid start (bodies.map fun b => (b.offset, b.bytes)) sum := by
  induction bodies generalizing start with
  | nil =>
      cases h
      rfl
  | cons b rest ih =>
      simp only [checkOffsets] at h
      split_ifs at h with hbytes hoffset
      rw [List.map_cons, List.sum_cons] at htotal
      have hword : (start + b.bytes) % wordModulus = start + b.bytes :=
        Nat.mod_eq_of_lt (by unfold wordModulus; omega)
      rw [hword] at h
      have hrest := ih h (by omega)
      exact ⟨not_not.mp hoffset, hrest⟩

/-- The sum the bodies are checked against is a word. -/
theorem checkOffsets_lt {start : Nat} (h : checkOffsets start bodies = .ok sum)
    (hstart : start < 2 ^ 64) : sum < 2 ^ 64 := by
  induction bodies generalizing start with
  | nil =>
      cases h
      exact hstart
  | cons b rest ih =>
      simp only [checkOffsets] at h
      split_ifs at h
      exact ih h (Nat.mod_lt _ (by decide))

/-- The product in words is the product, as far as a word tells. -/
theorem shapeBytes_eq (shape : List Int) :
    (shapeBytes shape : Int) = shape.prod % (2 ^ 64 : Nat) := by
  have hfold : ∀ (shape : List Int) (n : Nat), n < 2 ^ 64 →
      ((shape.foldl (fun n d => n * (d % (wordModulus : Int)).toNat % wordModulus) n : Nat) : Int) =
        n * shape.prod % (2 ^ 64 : Nat) := by
    intro shape
    induction shape with
    | nil =>
        intro n hn
        rw [List.foldl_nil, List.prod_nil, mul_one]
        exact (Int.emod_eq_of_lt (Int.natCast_nonneg n) (by exact_mod_cast hn)).symm
    | cons d shape ih =>
        intro n hn
        have hword : ((d % (wordModulus : Int)).toNat : Int) = d % (2 ^ 64 : Nat) :=
          Int.toNat_of_nonneg (Int.emod_nonneg _ (by decide))
        have hstep : ((n * (d % (wordModulus : Int)).toNat % wordModulus : Nat) : Int) ≡ n * d
            [ZMOD (2 ^ 64 : Nat)] := by
          rw [Int.natCast_mod, Nat.cast_mul, hword]
          exact (Int.mod_modEq _ _).trans ((Int.mod_modEq _ _).mul_left _)
        have hlt : n * (d % (wordModulus : Int)).toNat % wordModulus < 2 ^ 64 :=
          Nat.mod_lt _ (by decide)
        rw [List.foldl_cons, ih _ hlt, List.prod_cons, ← mul_assoc]
        exact hstep.mul_right _
  unfold shapeBytes
  rw [hfold shape 1 (by decide), Nat.cast_one, one_mul]

end Checks

/-- What the checks of an accepted plan say of the two tables. -/
structure Accepted (rows : List SegmentRow) (eb : ExpertBodies) (nLayer : Int) (plan : Plan) :
    Prop where
  slotted : plan.Slotted
  rowsKept : (plan.segments.map fun s => (s.index, s.last)).Perm
    (rows.map fun row => (row.index, row.last))
  bodiesKept : (plan.bodies.map fun b => (b.segment, b.shape, b.bytes)).Perm
    (eb.entries.map fun row => (row.segment, row.shape, row.bytes))
  spans : ∀ s ∈ plan.segments, s.lo < s.hi
  chain : checkChain 0 0 plan.segments = .ok nLayer
  back : ∀ s ∈ plan.segments.getLast?, s.last = true
  outputs : ∀ s ∈ plan.segments, s.outputs = [if s.last then "logits" else hiddenOut]
  offsets : checkOffsets 0 plan.bodies = .ok eb.bytes

theorem parseSegment_keeps (row : SegmentRow) (s : SegmentSpec) (h : parseSegment row = .ok s) :
    (s.index, s.last) = (row.index, row.last) := by
  unfold parseSegment at h
  split at h
  next =>
    obtain ⟨outputs, _, hs⟩ := bind_ok.mp h
    cases hs
    rfl
  next => cases h

theorem parseBody_keeps (row : BodyRow) (b : BodySpec) (h : parseBody row = .ok b) :
    (b.segment, b.shape, b.bytes) = (row.segment, row.shape, row.bytes) := by
  unfold parseBody at h
  split at h
  next =>
    cases h
    rfl
  next => cases h

theorem planSegments_accepted {manifest : Manifest} {nLayer hiddenSize hcCount : Int} {plan : Plan}
    (h : planSegments manifest nLayer hiddenSize hcCount = .ok plan) :
    ∃ rows eb, manifest.segments = some rows ∧ manifest.expertBodies = some eb ∧
      Accepted rows eb nLayer plan := by
  have hslotted := planSegments_slotted h
  simp only [planSegments, bind_ok, checkAll_ok] at h
  obtain ⟨segs, hsegs, _, hchecks, eb, heb, parsed, hparsed, _, _, sum, hoffsets, _, htotal, _, _,
    hplan⟩ := h
  cases hplan
  simp only [checkSegments, bind_ok, checkAll_ok] at hchecks
  obtain ⟨_, hattention, reached, hchain, _, hreach, _, _, _, hlast, _, _, _, houtputs, _⟩ :=
    hchecks
  obtain rfl : reached = nLayer := (ensure_ok _ _ _).mp hreach
  obtain rfl : sum = eb.bytes := (ensure_ok _ _ _).mp htotal
  have hentries : manifest.expertBodies = some eb := by
    unfold expertBodiesOf at heb
    split at heb
    next => cases heb
    next eb' hsome =>
      cases heb
      exact hsome
  unfold parseSegments at hsegs
  split at hsegs
  next => cases hsegs
  next => cases hsegs
  next rows _ hrows =>
    obtain ⟨read, hread, hsorted⟩ := bind_ok.mp hsegs
    cases hsorted
    refine ⟨rows, eb, hrows, hentries, hslotted, ?_, ?_, ?_, hchain, ?_, ?_, hoffsets⟩
    · rw [← parseAll_keeps parseSegment_keeps hread]
      exact (List.perm_insertionSort _ _).map _
    · rw [← parseAll_keeps parseBody_keeps hparsed]
      exact (List.perm_insertionSort _ _).map _
    · exact fun s hs => checkAttention_span (hattention s hs)
    · intro s hs
      simp only [checkLast, Option.mem_def.mp hs] at hlast
      exact (ensure_ok _ _ _).mp hlast
    · intro s hs
      exact (ensure_ok _ _ _).mp (houtputs s hs)

/-! ## What the checks add up to -/

namespace Accepted

variable {rows : List SegmentRow} {eb : ExpertBodies} {nLayer : Int} {plan : Plan}
  (h : Accepted rows eb nLayer plan)

include h

theorem named_iff : (∀ body ∈ eb.entries, ∃ row ∈ rows, row.index = body.segment) ↔
    ∀ b ∈ plan.bodies, ∃ s ∈ plan.segments, b.segment = s.index := by
  have hsegments : ∀ k, (∃ row ∈ rows, row.index = k) ↔ ∃ s ∈ plan.segments, k = s.index := by
    intro k
    have hmem := (h.rowsKept.map Prod.fst).mem_iff (a := k)
    simpa only [List.map_map, List.mem_map, Function.comp_apply, eq_comm] using hmem.symm
  have hbodies : ∀ k, (∃ body ∈ eb.entries, body.segment = k) ↔
      ∃ b ∈ plan.bodies, b.segment = k := by
    intro k
    have hmem := (h.bodiesKept.map Prod.fst).mem_iff (a := k)
    simpa only [List.map_map, List.mem_map, Function.comp_apply] using hmem.symm
  constructor
  · intro hnamed b hb
    obtain ⟨body, hbody, hsegment⟩ := (hbodies b.segment).mpr ⟨b, hb, rfl⟩
    exact (hsegments _).mp (hsegment ▸ hnamed body hbody)
  · intro hnamed body hbody
    obtain ⟨b, hb, hsegment⟩ := (hbodies body.segment).mp ⟨body, hbody, rfl⟩
    exact (hsegments _).mpr (hsegment ▸ hnamed b hb)

/-- A property of the shapes is one of the rows' shapes. -/
theorem shapes_iff (p : List Int → Prop) :
    (∀ body ∈ eb.entries, p body.shape) ↔ ∀ b ∈ plan.bodies, p b.shape := by
  have hperm : (plan.bodies.map BodySpec.shape).Perm (eb.entries.map BodyRow.shape) := by
    have hkept := h.bodiesKept.map fun b => b.2.1
    rwa [List.map_map, List.map_map] at hkept
  constructor
  · intro hrows b hb
    obtain ⟨body, hbody, heq⟩ := List.mem_map.mp (hperm.mem_iff.mp (List.mem_map.mpr ⟨b, hb, rfl⟩))
    exact heq ▸ hrows body hbody
  · intro hbodies body hbody
    obtain ⟨b, hb, heq⟩ := List.mem_map.mp (hperm.mem_iff.mpr (List.mem_map.mpr ⟨body, hbody, rfl⟩))
    exact heq ▸ hbodies b hb

theorem sum_eq : (eb.entries.map BodyRow.bytes).sum = (plan.bodies.map BodySpec.bytes).sum := by
  have hperm := h.bodiesKept.map fun b => b.2.2
  simp only [List.map_map] at hperm
  exact hperm.sum_eq.symm

theorem segment_laid : Laid 0 (plan.segments.map fun s => (s.lo, s.hi - s.lo)) nLayer :=
  checkChain_laid h.chain

theorem segment_nonneg : ∀ r ∈ plan.segments.map (fun s => (s.lo, s.hi - s.lo)), 0 ≤ r.2 := by
  intro r hr
  obtain ⟨s, hs, rfl⟩ := List.mem_map.mp hr
  exact sub_nonneg.mpr (h.spans s hs).le

/-- A layer is in one segment. -/
theorem segment_unique {s t : SegmentSpec} (hs : s ∈ plan.segments) (ht : t ∈ plan.segments)
    {layer : Int} (hin : s.lo ≤ layer ∧ layer < s.hi) (hother : t.lo ≤ layer ∧ layer < t.hi) :
    s = t := by
  have hpairwise := List.pairwise_map.mp (h.segment_laid.pairwise h.segment_nonneg)
  have hapart : plan.segments.Pairwise fun s t => s.hi ≤ t.lo ∨ t.hi ≤ s.lo := by
    refine hpairwise.imp fun hends => Or.inl ?_
    unfold EndsBefore at hends
    omega
  have : Std.Symm fun s t : SegmentSpec => s.hi ≤ t.lo ∨ t.hi ≤ s.lo := ⟨fun _ _ => Or.symm⟩
  by_contra hne
  have hdisjoint := hapart.forall hs ht hne
  omega

/-- Every layer is in a segment. -/
theorem exists_segment {layer : Int} (hfirst : 0 ≤ layer) (hlast : layer < nLayer) :
    ∃ s ∈ plan.segments, s.lo ≤ layer ∧ layer < s.hi := by
  obtain ⟨r, hr, hrow⟩ := h.segment_laid.covers hfirst hlast
  obtain ⟨s, hs, rfl⟩ := List.mem_map.mp hr
  exact ⟨s, hs, hrow.1, by have hhi := hrow.2; simp only at hhi; omega⟩

theorem segment_within {s : SegmentSpec} (hs : s ∈ plan.segments) : 0 ≤ s.lo ∧ s.hi ≤ nLayer := by
  have hwithin := h.segment_laid.within h.segment_nonneg _ (List.mem_map.mpr ⟨s, hs, rfl⟩)
  simp only at hwithin
  omega

/-- No segment but the last is flagged exactly when the flag is at the greatest index. -/
theorem lastOnly_iff :
    (∀ row ∈ rows, row.last = true → ∀ other ∈ rows, other.index ≤ row.index) ↔
      ∀ s ∈ plan.segments.dropLast, s.last = false := by
  have hperm : ∀ index last, (∃ row ∈ rows, row.index = index ∧ row.last = last) ↔
      ∃ s ∈ plan.segments, s.index = index ∧ s.last = last := by
    intro index last
    have hmem := h.rowsKept.mem_iff (a := (index, last))
    simpa only [List.mem_map, Prod.mk.injEq] using hmem.symm
  have hsorted := checkChain_sorted h.chain
  rcases List.eq_nil_or_concat plan.segments with hnil | ⟨before, final, heq⟩
  · rw [hnil] at hperm ⊢
    refine ⟨fun _ => by simp, fun _ row hrow => ?_⟩
    obtain ⟨s, hs, _⟩ := (hperm row.index row.last).mp ⟨row, hrow, rfl, rfl⟩
    exact absurd hs List.not_mem_nil
  · rw [List.concat_eq_append] at heq
    rw [heq] at hperm hsorted ⊢
    rw [List.dropLast_concat]
    have hbelow : ∀ s ∈ before, s.index < final.index := fun s hs =>
      (List.pairwise_append.mp hsorted).2.2 s hs final (List.mem_singleton_self _)
    constructor
    · intro hlast s hs
      -- a flagged segment before the last would have an index above the last one's
      by_contra hflag
      obtain ⟨row, hrow, hindex, hrowlast⟩ :=
        (hperm s.index true).mpr ⟨s, List.mem_append_left _ hs, rfl, by simpa using hflag⟩
      obtain ⟨other, hother, hotherindex, _⟩ := (hperm final.index final.last).mpr
        ⟨final, List.mem_append_right _ (List.mem_singleton_self _), rfl, rfl⟩
      have hle := hlast row hrow hrowlast other hother
      have hlt := hbelow s hs
      omega
    · intro hinner row hrow hrowlast other hother
      obtain ⟨s, hs, hindex, hslast⟩ := (hperm row.index row.last).mp ⟨row, hrow, rfl, rfl⟩
      obtain ⟨t, ht, htindex, _⟩ := (hperm other.index other.last).mp ⟨other, hother, rfl, rfl⟩
      rw [← hindex, ← htindex]
      have hsfinal : s = final := by
        rcases List.mem_append.mp hs with hbefore | hfinal
        · exact absurd (hinner s hbefore) (by simp [hslast, hrowlast])
        · exact List.mem_singleton.mp hfinal
      rcases List.mem_append.mp ht with hbefore | hfinal
      · exact hsfinal ▸ (hbelow t hbefore).le
      · rw [hsfinal, List.mem_singleton.mp hfinal]

theorem outputs_inner_iff : (∀ s ∈ plan.segments.dropLast, s.outputs = [hiddenOut]) ↔
    ∀ s ∈ plan.segments.dropLast, s.last = false := by
  refine forall₂_congr fun s hs => ?_
  rw [h.outputs s (List.dropLast_subset _ hs)]
  cases s.last <;> simp [hiddenOut]

theorem outputs_final : ∀ s ∈ plan.segments.getLast?, s.outputs = ["logits"] := by
  intro s hs
  rw [h.outputs s (List.mem_of_getLast? hs), if_pos (h.back s hs)]

/-- The slots of a segment's bodies, whatever else is in the manifest. -/
theorem slots {s : SegmentSpec} (hs : s ∈ plan.segments) :
    3 * (s.hi - s.lo) ≤ plan.slotsPerSegment ∧
      (∀ b ∈ bodiesOf plan.bodies s.index,
        ∃ slot : Nat, bodySlot plan b = .ok slot ∧ (slot : Int) < 3 * (s.hi - s.lo)) ∧
      ((bodiesOf plan.bodies s.index).map (bodySlot plan)).Nodup := by
  have hslotted := h.slotted
  have hspan : (s.span : Int) = s.hi - s.lo :=
    Int.toNat_of_nonneg (sub_nonneg.mpr (h.spans s hs).le)
  refine ⟨?_, ?_, ?_⟩
  · have hle := hslotted.span_le s hs
    omega
  · intro b hb
    refine ⟨slotOf s b, hslotted.bodySlot_eq hs (mem_bodiesOf.mp hb).2, ?_⟩
    have hmem := (hslotted.slots s hs).mem_iff.mp (List.mem_map_of_mem hb)
    have hlt := List.mem_range.mp hmem
    omega
  · have hsame : (bodiesOf plan.bodies s.index).map (bodySlot plan) =
        ((bodiesOf plan.bodies s.index).map (slotOf s)).map Except.ok := by
      rw [List.map_map]
      exact List.map_congr_left fun b hb => hslotted.bodySlot_eq hs (mem_bodiesOf.mp hb).2
    rw [hsame]
    refine List.Nodup.map (fun _ _ => Except.ok.inj) ?_
    exact (hslotted.slots s hs).nodup_iff.mpr List.nodup_range

/-! ### When every body names a segment -/

section Named

variable (hnamed : ∀ b ∈ plan.bodies, ∃ s ∈ plan.segments, b.segment = s.index)

include hnamed

theorem home : ∀ b ∈ plan.bodies, ∃ s ∈ plan.segments,
    b.segment = s.index ∧ s.lo ≤ b.layer ∧ b.layer < s.hi := by
  intro b hb
  obtain ⟨s, hs, hsegment⟩ := hnamed b hb
  exact ⟨s, hs, hsegment, h.slotted.layers s hs b (mem_bodiesOf.mpr ⟨hb, hsegment⟩)⟩

theorem bodies_nodup : plan.bodies.Nodup := by
  rw [List.nodup_iff_count_le_one]
  intro b
  by_cases hb : b ∈ plan.bodies
  · obtain ⟨s, hs, hsegment⟩ := hnamed b hb
    have hown : (bodiesOf plan.bodies s.index).Nodup :=
      List.Nodup.of_map _ ((h.slotted.slots s hs).nodup_iff.mpr List.nodup_range)
    have hcount := List.nodup_iff_count_le_one.mp hown b
    unfold bodiesOf at hcount
    rwa [List.count_filter (by simpa using hsegment)] at hcount
  · rw [List.count_eq_zero_of_not_mem hb]
    exact Nat.zero_le 1

theorem once : (plan.bodies.map fun b => (b.layer, b.kindIndex)).Nodup := by
  refine (h.bodies_nodup hnamed).map_on fun a ha b hb hkey => ?_
  obtain ⟨s, hs, hsegment, hlayer⟩ := h.home hnamed a ha
  obtain ⟨t, ht, hother, hnext⟩ := h.home hnamed b hb
  obtain ⟨hlayers, hkinds⟩ := Prod.mk.inj hkey
  -- a shared layer puts both in one segment, where the slot tells bodies apart
  have hsame : s = t := h.segment_unique hs ht hlayer (hlayers ▸ hnext)
  refine h.slotted.slotOf_injective hs (mem_bodiesOf.mpr ⟨ha, hsegment⟩)
    (mem_bodiesOf.mpr ⟨hb, hsame ▸ hother⟩) ?_
  unfold slotOf
  rw [hlayers, hkinds]

theorem all (layer : Int) (kind : Fin 3) :
    (layer, kind) ∈ plan.bodies.map (fun b => (b.layer, b.kindIndex)) ↔
      0 ≤ layer ∧ layer < nLayer := by
  constructor
  · intro hmem
    obtain ⟨b, hb, hkey⟩ := List.mem_map.mp hmem
    obtain ⟨s, hs, _, hlo, hhi⟩ := h.home hnamed b hb
    obtain ⟨rfl, rfl⟩ := Prod.mk.inj hkey
    obtain ⟨hzero, hlast⟩ := h.segment_within hs
    exact ⟨hzero.trans hlo, hhi.trans_le hlast⟩
  · rintro ⟨hfirst, hlast⟩
    obtain ⟨s, hs, hlo, hhi⟩ := h.exists_segment hfirst hlast
    have hslot : ((layer - s.lo) * 3 + (kind.val : Int)).toNat ∈ List.range (3 * s.span) := by
      unfold SegmentSpec.span
      rw [List.mem_range]
      omega
    obtain ⟨b, hb, hsame⟩ := List.mem_map.mp ((h.slotted.slots s hs).mem_iff.mpr hslot)
    obtain ⟨hblo, _⟩ := h.slotted.layers s hs b hb
    unfold slotOf at hsame
    have hlayer : b.layer = layer := by omega
    have hkind : b.kindIndex = kind := Fin.ext (by omega)
    exact List.mem_map.mpr ⟨b, (mem_bodiesOf.mp hb).1, by rw [hlayer, hkind]⟩

theorem bufferBytes {b : BodySpec} (hb : b ∈ plan.bodies) :
    ∃ slot, bodySlot plan b = .ok slot ∧ plan.bufferBytes slot = b.bytes := by
  obtain ⟨s, hs, hsegment⟩ := hnamed b hb
  exact ⟨slotOf s b, h.slotted.bodySlot_eq hs hsegment,
    h.slotted.bufferBytes_slotOf hs hb hsegment⟩

end Named

theorem bytes_eq {b : BodySpec} (hb : b ∈ plan.bodies) :
    (b.bytes : Int) = b.shape.prod % (2 ^ 64 : Nat) := by
  rw [checkOffsets_bytes h.offsets b hb, shapeBytes_eq]

/-- The bytes of a body are the product of its dimensions while that is a word. -/
theorem bytes_eq_prod {b : BodySpec} (hb : b ∈ plan.bodies) (hdims : ∀ d ∈ b.shape, 0 ≤ d)
    (hword : b.shape.prod < 2 ^ 64) : (b.bytes : Int) = b.shape.prod := by
  rw [h.bytes_eq hb]
  exact Int.emod_eq_of_lt (List.prod_nonneg hdims) (by exact_mod_cast hword)

/-- The plan of a regular manifest is covered. -/
theorem covered (hregular : Regular rows eb) : plan.Covered nLayer eb.bytes := by
  have hnamed := h.named_iff.mp hregular.named
  have hinner := h.outputs_inner_iff.mpr (h.lastOnly_iff.mp hregular.lastOnly)
  have hshapes : ∀ b ∈ plan.bodies, (∀ d ∈ b.shape, 0 ≤ d) ∧ b.shape.prod < 2 ^ 64 :=
    (h.shapes_iff fun shape => (∀ d ∈ shape, 0 ≤ d) ∧ shape.prod < 2 ^ 64).mp hregular.shapes
  have htotal := hregular.total
  rw [h.sum_eq] at htotal
  have hlaid := checkOffsets_laid h.offsets (by omega)
  refine ⟨h.once hnamed, h.all hnamed, h.home hnamed, hinner, h.outputs_final, fun s => h.slots,
    ?_, hlaid, ?_, ?_⟩
  · intro b hb
    obtain ⟨hdims, hword⟩ := hshapes b hb
    exact ⟨hdims, h.bytes_eq_prod hb hdims hword, h.bufferBytes hnamed hb⟩
  · exact (hlaid.pairwise fun _ _ => Nat.zero_le _).imp EndsBefore.disjoint
  · intro byte hbyte
    obtain ⟨range, hrange, hin⟩ := hlaid.covers (Nat.zero_le byte) hbyte
    obtain ⟨b, hb, rfl⟩ := List.mem_map.mp hrange
    exact ⟨b, hb, hin⟩

/-- A covered plan is one of a regular manifest. -/
theorem regular (hcovered : plan.Covered nLayer eb.bytes) : Regular rows eb := by
  refine ⟨?_, ?_, ?_, ?_⟩
  · refine h.named_iff.mpr fun b hb => ?_
    obtain ⟨s, hs, hsegment, _⟩ := hcovered.home b hb
    exact ⟨s, hs, hsegment⟩
  · exact h.lastOnly_iff.mpr (h.outputs_inner_iff.mp hcovered.inner)
  · refine (h.shapes_iff fun shape => (∀ d ∈ shape, 0 ≤ d) ∧ shape.prod < 2 ^ 64).mpr ?_
    intro b hb
    obtain ⟨hdims, hbytes, _⟩ := hcovered.sizes b hb
    rw [← hbytes, h.bytes_eq hb]
    exact ⟨hdims, Int.emod_lt_of_pos _ (by decide)⟩
  · have hsum := hcovered.laid.sum
    rw [List.map_map, zero_add] at hsum
    have hlt := checkOffsets_lt h.offsets (by decide)
    rw [h.sum_eq]
    exact hsum.trans_lt hlt

end Accepted

/-- An accepted plan is covered exactly when its manifest is regular where the checks do not
look. -/
theorem planSegments_covered_iff {manifest : Manifest} {nLayer hiddenSize hcCount : Int}
    {plan : Plan} (h : planSegments manifest nLayer hiddenSize hcCount = .ok plan) :
    ∃ rows eb, manifest.segments = some rows ∧ manifest.expertBodies = some eb ∧
      (plan.Covered nLayer eb.bytes ↔ Regular rows eb) := by
  obtain ⟨rows, eb, hrows, heb, haccepted⟩ := planSegments_accepted h
  exact ⟨rows, eb, hrows, heb, haccepted.regular, haccepted.covered⟩

/-- One byte for each body of four layers, in the write order. -/
def fourLayerBodies : List BodyRow :=
  (List.range 12).map fun i =>
    { name := "body", segment := 0, layer := (i / 3 : Nat), kind := kinds.getD (i % 3) ""
      shape := [1], offset := i, bytes := 1 }

/-- One segment of four layers, with these bodies. -/
def fourLayers (bodies : List BodyRow) : Manifest where
  segments := some
    [{ index := 0, layers := [0, 4], first := true, last := true, hasPle := none
       inputsEmbedsWidth := 8, attnLayers := 1, outputs := [some "logits"], inputs := [] }]
  expertBodies := some ⟨bodies, bodies.length⟩

theorem planSegments_covered_iff_fourLayers :
    ∃ plan, planSegments (fourLayers fourLayerBodies) 4 8 1 = .ok plan ∧
      ∃ rows eb, (fourLayers fourLayerBodies).segments = some rows ∧
        (fourLayers fourLayerBodies).expertBodies = some eb ∧
          (plan.Covered 4 eb.bytes ↔ Regular rows eb) := by
  obtain ⟨plan, h⟩ : ∃ plan, planSegments (fourLayers fourLayerBodies) 4 8 1 = .ok plan :=
    ⟨_, rfl⟩
  exact ⟨plan, h, planSegments_covered_iff h⟩

/-- A thirteenth body, of a segment the manifest does not have. -/
def strayBody : BodyRow :=
  { name := "stray", segment := 99, layer := 0, kind := "gate", shape := [1], offset := 12
    bytes := 1 }

/-- The stray body is accepted, beside another body of its layer and kind. -/
theorem stray_accepted :
    ∃ plan, planSegments (fourLayers (fourLayerBodies ++ [strayBody])) 4 8 1 = .ok plan ∧
      ¬ plan.Covered 4 13 := by
  refine ⟨_, rfl, fun hcovered => ?_⟩
  exact absurd hcovered.once (by decide)

end Arcint.Segment
