import Arcint.Cache.PageRuns
import Arcint.Foundation.Slab
import Mathlib.Algebra.Ring.Nat

/-! # The host tier, byte by byte

A page is a contiguous slab in each KV pool tensor. Demotion copies the pages of an entry to
one host buffer per tensor, promotion copies the buffers into other pages; either way a run
of consecutive page ids is one copy. What the buffers are copied into is what was copied out
of, page by page, however the two page tables fall into runs.
-/

namespace Arcint.Cache

open Foundation

/-- The bytes of one page of a pool tensor, `pool_page_bytes`. -/
def poolPageBytes (shape : List Nat) (typeSize : Nat) : Nat :=
  (shape.drop 1).foldl (· * ·) 1 * typeSize

/-- A KV pool tensor: its first dimension counts the pages. -/
structure PoolTensor where
  shape : List Nat
  typeSize : Nat
  data : List UInt8
  sized : data.length = shape.headD 0 * poolPageBytes shape typeSize

namespace PoolTensor

def pages (t : PoolTensor) : Nat := t.shape.headD 0

def pageBytes (t : PoolTensor) : Nat := poolPageBytes t.shape t.typeSize

/-- The bytes of one page. -/
def page (t : PoolTensor) (id : Nat) : List UInt8 := slab t.pageBytes t.data id

/-- The view of a run of pages is refused where it leaves the tensor. -/
def Holds (t : PoolTensor) (run : PageRun) : Prop := run.first + run.count ≤ t.pages

instance (t : PoolTensor) (run : PageRun) : Decidable (t.Holds run) :=
  inferInstanceAs (Decidable (_ ≤ _))

/-- One copy to the host buffer. -/
def copyTo (t : PoolTensor) (host : List UInt8) (run : PageRun) : Option (List UInt8) :=
  if t.Holds run then
    some (splice host (run.start * t.pageBytes)
      (slice t.data (run.first * t.pageBytes) (run.count * t.pageBytes)))
  else none

theorem Holds.inside {t : PoolTensor} {run : PageRun} (h : t.Holds run) (host : List UInt8) :
    run.first * t.pageBytes +
      (slice host (run.start * t.pageBytes) (run.count * t.pageBytes)).length ≤ t.data.length := by
  have hlength := length_slice_le host (run.start * t.pageBytes) (run.count * t.pageBytes)
  have hpages : (run.first + run.count) * t.pageBytes ≤ t.pages * t.pageBytes :=
    Nat.mul_le_mul_right _ h
  have hsized : t.data.length = t.pages * t.pageBytes := t.sized
  rw [Nat.add_mul] at hpages
  omega

/-- One copy from the host buffer. -/
def copyFrom (host : List UInt8) (t : PoolTensor) (run : PageRun) : Option PoolTensor :=
  if h : t.Holds run then
    some { t with
      data := splice t.data (run.first * t.pageBytes)
        (slice host (run.start * t.pageBytes) (run.count * t.pageBytes))
      sized := (length_splice _ _ _ (h.inside host)).trans t.sized }
  else none

end PoolTensor

/-- The copies of `demote_entry`: one host buffer per tensor, pages in the entry's order. -/
def demoteCopies (pool : List PoolTensor) (blocks : List Nat) : Option (List (List UInt8)) :=
  pool.mapM fun t =>
    (pageRuns blocks).foldlM t.copyTo (List.replicate (t.pageBytes * blocks.length) 0)

/-- `demote_entry`: the host buffers and their bytes. -/
def demoteEntry (pool : List PoolTensor) (blocks : List Nat) :
    Option (List (List UInt8) × Nat) :=
  if blocks = [] ∨ pool = [] then none
  else (demoteCopies pool blocks).map fun host => (host, (host.map List.length).sum)

/-- The copies of `promote_entry` into one tensor; the buffer has to have the table's size. -/
def promoteTensor (blocks : List Nat) (t : PoolTensor) (host : List UInt8) : Option PoolTensor :=
  if host.length = t.pageBytes * blocks.length then
    (pageRuns blocks).foldlM (PoolTensor.copyFrom host) t
  else none

/-- The copies of `promote_entry` into the allocated pages. -/
def promoteCopies (pool : List PoolTensor) (hostKv : List (List UInt8)) (blocks : List Nat) :
    Option (List PoolTensor) :=
  if hostKv.length = pool.length then
    (pool.zip hostKv).mapM fun pair => promoteTensor blocks pair.1 pair.2
  else none

/-! ## Runs as transfers -/

/-- The copy of a run to the host buffer. -/
def PageRun.out (run : PageRun) : Transfer := ⟨run.first, run.start, run.count⟩

/-- The copy of a run from the host buffer. -/
def PageRun.back (run : PageRun) : Transfer := ⟨run.start, run.first, run.count⟩

section Runs

variable {blocks : List Nat} {t : PoolTensor} {host : List UInt8}

theorem PoolTensor.length_data (t : PoolTensor) : t.data.length = t.pages * t.pageBytes := t.sized

/-- A run of valid pages lies in the tensor. -/
theorem holds_of_runOf {run : PageRun} (hrun : RunOf blocks run) (hpos : 0 < run.count)
    (hpages : ∀ page ∈ blocks, page < t.pages) : t.Holds run := by
  have hlast := hpages _ (List.mem_of_getElem? (hrun (run.count - 1) (by omega)))
  unfold PoolTensor.Holds
  omega

theorem holds_pageRuns (hpages : ∀ page ∈ blocks, page < t.pages) :
    ∀ run ∈ pageRuns blocks, t.Holds run := by
  intro run hrun
  obtain ⟨hrunOf, hpos⟩ := (pageRuns_scanned blocks).1 run hrun
  exact holds_of_runOf hrunOf hpos hpages

/-- A run lies in a host buffer of the table's size. -/
theorem start_le_of_mem (hhost : host.length = t.pageBytes * blocks.length) {run : PageRun}
    (hrun : run ∈ pageRuns blocks) : (run.start + run.count) * t.pageBytes ≤ host.length := by
  obtain ⟨hrunOf, hpos⟩ := (pageRuns_scanned blocks).1 run hrun
  rw [hhost, Nat.mul_comm t.pageBytes]
  exact Nat.mul_le_mul_right _ (hrunOf.le_length hpos)

theorem first_le_of_mem (hpages : ∀ page ∈ blocks, page < t.pages) {run : PageRun}
    (hrun : run ∈ pageRuns blocks) : (run.first + run.count) * t.pageBytes ≤ t.data.length := by
  rw [t.length_data]
  exact Nat.mul_le_mul_right _ (holds_pageRuns hpages run hrun)

/-- Going out, slab `i` of the buffer comes from page `i` of the table. -/
theorem agree_out (blocks : List Nat) :
    Transfer.Agree ((pageRuns blocks).map PageRun.out) fun i => blocks.getD i 0 := by
  intro move hmove k hk
  obtain ⟨run, hrun, rfl⟩ := List.mem_map.mp hmove
  have hpage := ((pageRuns_scanned blocks).1 run hrun).1 k hk
  change blocks.getD (run.start + k) 0 = run.first + k
  rw [List.getD_eq_getElem?_getD, hpage]
  rfl

/-- Coming back, a page comes from its place in the table. -/
theorem agree_back (hnodup : blocks.Nodup) :
    Transfer.Agree ((pageRuns blocks).map PageRun.back) blocks.idxOf := by
  intro move hmove k hk
  obtain ⟨run, hrun, rfl⟩ := List.mem_map.mp hmove
  obtain ⟨hlt, hget⟩ :=
    List.getElem?_eq_some_iff.mp (((pageRuns_scanned blocks).1 run hrun).1 k hk)
  -- the ids are distinct, so a page has one place in the table
  change blocks.idxOf (run.first + k) = run.start + k
  rw [← hget, hnodup.idxOf_getElem]

theorem writes_out {i : Nat} (hi : i < blocks.length) :
    ∃ move ∈ (pageRuns blocks).map PageRun.out, move.Writes i := by
  obtain ⟨run, hrun, hin⟩ := (pageRuns_scanned blocks).2 i hi
  exact ⟨run.out, List.mem_map_of_mem hrun, hin⟩

/-- The pages written on the way back are those of the table. -/
theorem writes_back_iff {page : Nat} :
    (∃ move ∈ (pageRuns blocks).map PageRun.back, move.Writes page) ↔ page ∈ blocks := by
  obtain ⟨hruns, hcovered⟩ := pageRuns_scanned blocks
  constructor
  · rintro ⟨move, hmove, hlow, hhigh⟩
    obtain ⟨run, hrun, rfl⟩ := List.mem_map.mp hmove
    have hfirst : run.first ≤ page := hlow
    have hpast : page < run.first + run.count := hhigh
    -- a page of the run is as far behind its first as its place is behind the start
    have hpage := (hruns run hrun).1 (page - run.first) (by omega)
    rw [Nat.add_sub_cancel' hfirst] at hpage
    exact List.mem_of_getElem? hpage
  · intro hmem
    obtain ⟨i, hi, rfl⟩ := List.mem_iff_getElem.mp hmem
    obtain ⟨run, hrun, hlow, hhigh⟩ := hcovered i hi
    have hpage := (hruns run hrun).1 (i - run.start) (by omega)
    rw [Nat.add_sub_cancel' hlow, List.getElem?_eq_getElem hi] at hpage
    refine ⟨run.back, List.mem_map_of_mem hrun, ?_⟩
    have heq := Option.some.inj hpage
    simp only [Transfer.Writes, PageRun.back]
    omega

/-! ## One tensor -/

theorem foldlM_copyTo {runs : List PageRun} (hruns : ∀ run ∈ runs, t.Holds run)
    (host : List UInt8) :
    runs.foldlM t.copyTo host =
      some ((runs.map PageRun.out).foldl (Transfer.copy t.pageBytes t.data) host) := by
  induction runs generalizing host with
  | nil => rfl
  | cons run runs ih =>
      rw [List.foldlM_cons, PoolTensor.copyTo, if_pos (hruns run List.mem_cons_self)]
      exact ih (fun other hother => hruns other (List.mem_cons_of_mem _ hother)) _

theorem foldlM_copyFrom {runs : List PageRun} (hruns : ∀ run ∈ runs, t.Holds run) :
    ∃ after, runs.foldlM (PoolTensor.copyFrom host) t = some after ∧ after.shape = t.shape ∧
      after.typeSize = t.typeSize ∧
      after.data = (runs.map PageRun.back).foldl (Transfer.copy t.pageBytes host) t.data := by
  induction runs generalizing t with
  | nil => exact ⟨t, rfl, rfl, rfl, rfl⟩
  | cons run runs ih =>
      rw [List.foldlM_cons, PoolTensor.copyFrom, dif_pos (hruns run List.mem_cons_self)]
      exact ih fun other hother => hruns other (List.mem_cons_of_mem _ hother)

/-- The host buffer holds the pages in the table's order. -/
theorem copyTo_pages (hpages : ∀ page ∈ blocks, page < t.pages) :
    ∃ host, (pageRuns blocks).foldlM t.copyTo (List.replicate (t.pageBytes * blocks.length) 0) =
        some host ∧
      host.length = t.pageBytes * blocks.length ∧
      ∀ i page, blocks[i]? = some page → slab t.pageBytes host i = t.page page := by
  have hbuffer : (List.replicate (t.pageBytes * blocks.length) (0 : UInt8)).length =
      t.pageBytes * blocks.length := List.length_replicate
  obtain ⟨hlength, hwritten, -⟩ := Transfer.foldl_copy (agree_out blocks) (fun move hmove => by
    obtain ⟨run, hrun, rfl⟩ := List.mem_map.mp hmove
    exact (⟨first_le_of_mem hpages hrun, start_le_of_mem hbuffer hrun⟩ :
      Transfer.Fits t.pageBytes t.data _ run.out))
  refine ⟨_, foldlM_copyTo (holds_pageRuns hpages) _, hlength.trans hbuffer, ?_⟩
  intro i page hi
  have hlt := (List.getElem?_eq_some_iff.mp hi).1
  rw [hwritten i (writes_out hlt), List.getD_eq_getElem?_getD, hi]
  rfl

/-- The pages of the table take the buffer's slabs in order, and no other page is touched. -/
theorem promoteTensor_pages (hnodup : blocks.Nodup) (hpages : ∀ page ∈ blocks, page < t.pages)
    (hhost : host.length = t.pageBytes * blocks.length) :
    ∃ after, promoteTensor blocks t host = some after ∧ after.shape = t.shape ∧
      after.typeSize = t.typeSize ∧
      (∀ i page, blocks[i]? = some page → after.page page = slab t.pageBytes host i) ∧
      ∀ page ∉ blocks, after.page page = t.page page := by
  obtain ⟨after, hfold, hshape, htype, hdata⟩ := @foldlM_copyFrom t host _ (holds_pageRuns hpages)
  obtain ⟨-, hwritten, hkept⟩ := Transfer.foldl_copy (agree_back hnodup) (fun move hmove => by
    obtain ⟨run, hrun, rfl⟩ := List.mem_map.mp hmove
    exact (⟨start_le_of_mem hhost hrun, first_le_of_mem hpages hrun⟩ :
      Transfer.Fits t.pageBytes host t.data run.back))
  have hbytes : after.pageBytes = t.pageBytes := by
    rw [PoolTensor.pageBytes, hshape, htype]
    rfl
  refine ⟨after, ?_, hshape, htype, ?_, ?_⟩
  · rw [promoteTensor, if_pos hhost, hfold]
  · intro i page hi
    obtain ⟨hlt, hget⟩ := List.getElem?_eq_some_iff.mp hi
    have hmem : page ∈ blocks := hget ▸ List.getElem_mem hlt
    rw [PoolTensor.page, hbytes, hdata, hwritten page (writes_back_iff.mpr hmem), ← hget,
      hnodup.idxOf_getElem]
  · intro page hpage
    rw [PoolTensor.page, hbytes, hdata, hkept page fun move hmove hwrites =>
      hpage (writes_back_iff.mp ⟨move, hmove, hwrites⟩)]
    rfl

end Runs

/-! ## The whole pool -/

/-- A function that succeeds on every element of a list. -/
theorem mapM_of_forall {α β : Type} {f : α → Option β} {P : α → β → Prop} {l : List α}
    (h : ∀ a ∈ l, ∃ b, f a = some b ∧ P a b) :
    ∃ results, l.mapM f = some results ∧ List.Forall₂ P l results := by
  induction l with
  | nil => exact ⟨[], rfl, .nil⟩
  | cons a l ih =>
      obtain ⟨b, hb, hP⟩ := h a List.mem_cons_self
      obtain ⟨results, hresults, hall⟩ :=
        ih fun other hother => h other (List.mem_cons_of_mem _ hother)
      exact ⟨b :: results, by rw [List.mapM_cons, hb, hresults]; rfl, .cons hP hall⟩

/-- A demoted entry parks the bytes of its pages over all tensors. -/
theorem demoteEntry_spec {pool : List PoolTensor} {blocks : List Nat} (hblocks : blocks ≠ [])
    (hpool : pool ≠ []) (hpages : ∀ t ∈ pool, ∀ page ∈ blocks, page < t.pages) :
    ∃ hostKv, demoteEntry pool blocks =
        some (hostKv, (pool.map PoolTensor.pageBytes).sum * blocks.length) ∧
      List.Forall₂ (fun (t : PoolTensor) (host : List UInt8) =>
        ∀ (i page : Nat), blocks[i]? = some page → slab t.pageBytes host i = t.page page)
        pool hostKv := by
  obtain ⟨hostKv, hdemote, hhosts⟩ := mapM_of_forall fun t ht => copyTo_pages (hpages t ht)
  refine ⟨hostKv, ?_, hhosts.imp fun t host h => h.2⟩
  rw [demoteEntry, if_neg (not_or.mpr ⟨hblocks, hpool⟩)]
  rw [show demoteCopies pool blocks = some hostKv from hdemote, Option.map_some]
  have hbytes : (hostKv.map List.length).sum =
      (pool.map PoolTensor.pageBytes).sum * blocks.length := by
    clear hdemote hpool hpages
    induction hhosts with
    | nil => simp
    | cons hhost _ ih =>
        rw [List.map_cons, List.sum_cons, ih, hhost.1, List.map_cons, List.sum_cons, Nat.add_mul]
  rw [hbytes]

/-- Page `B[i]` holds what page `A[i]` held, and no page outside `B` has changed. -/
structure Restored (A B : List Nat) (before after : PoolTensor) : Prop where
  shape : after.shape = before.shape
  typeSize : after.typeSize = before.typeSize
  moved : ∀ (i a b : Nat), A[i]? = some a → B[i]? = some b → after.page b = before.page a
  kept : ∀ page ∉ B, after.page page = before.page page

/-- Demotion and then promotion leaves in page `B[i]` of every tensor what page `A[i]` held,
and no other page is touched. -/
theorem promoteCopies_demoteCopies (pool : List PoolTensor) (A B : List Nat)
    (hA : ∀ t ∈ pool, ∀ page ∈ A, page < t.pages) (hB : ∀ t ∈ pool, ∀ page ∈ B, page < t.pages)
    (hnodup : B.Nodup) (hlength : A.length = B.length) :
    ∃ hostKv restored, demoteCopies pool A = some hostKv ∧
      promoteCopies pool hostKv B = some restored ∧
      List.Forall₂ (Restored A B) pool restored := by
  obtain ⟨hostKv, hdemote, hhosts⟩ := mapM_of_forall fun t ht => copyTo_pages (hA t ht)
  have hpairs : ∀ pair ∈ pool.zip hostKv, ∃ after, promoteTensor B pair.1 pair.2 = some after ∧
      Restored A B pair.1 after := by
    rintro ⟨t, host⟩ hpair
    obtain ⟨hbytes, hpages⟩ := List.forall₂_zip hhosts hpair
    obtain ⟨after, hpromote, hshape, htype, hback, hkept⟩ := promoteTensor_pages hnodup
      (hB t (List.of_mem_zip hpair).1) (hlength ▸ hbytes)
    refine ⟨after, hpromote, hshape, htype, fun i a b ha hb => ?_, hkept⟩
    rw [hback i b hb, hpages i a ha]
  obtain ⟨restored, hpromote, hrestored⟩ := mapM_of_forall hpairs
  -- the buffers are paired with the tensors they were filled from
  have hpool : (pool.zip hostKv).map Prod.fst = pool :=
    List.map_fst_zip (Nat.le_of_eq hhosts.length_eq)
  refine ⟨hostKv, restored, hdemote, ?_, ?_⟩
  · rw [promoteCopies, if_pos hhosts.length_eq.symm, hpromote]
  · rw [← hpool]
    exact List.forall₂_map_left_iff.mpr hrestored

/-- Four pages of two bytes. -/
def fourPages : PoolTensor := ⟨[4, 2], 1, [10, 11, 20, 21, 30, 31, 40, 41], rfl⟩

/-- Overlapping tables, one ascending and one descending. -/
theorem promoteCopies_demoteCopies_overlap :
    ∃ hostKv restored, demoteCopies [fourPages] [1, 2] = some hostKv ∧
      promoteCopies [fourPages] hostKv [3, 2] = some restored ∧
      List.Forall₂ (Restored [1, 2] [3, 2]) [fourPages] restored :=
  promoteCopies_demoteCopies [fourPages] [1, 2] [3, 2] (by decide) (by decide) (by decide) rfl

end Arcint.Cache
