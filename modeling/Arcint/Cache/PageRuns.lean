import Arcint.Core.Sampler
import Arcint.Foundation.Slice
import Mathlib.Data.List.Nodup

/-! # Copying pages in runs

A page table is copied to the host and back in runs of consecutive page ids, one
transfer a run. The copies move the pages one by one in the table's order.
-/

namespace Arcint.Cache

open Arcint.Core Foundation

/-- What one page holds: at each of its positions the KV of the tokens up to it. -/
abbrev Page := Nat → List Token

/-- Consecutive page ids; `start` is the index of the first in the table. -/
structure PageRun where
  first : Nat
  count : Nat
  start : Nat
  deriving DecidableEq, Repr

/-- The runs of a table from index `i` on, after the runs before it; the last run
stands first. A descending pair starts a run of its own, like any other page. -/
def pageRunsFrom : List Nat → Nat → List PageRun → List PageRun
  | [], _, runs => runs
  | page :: rest, i, [] => pageRunsFrom rest (i + 1) [⟨page, 1, i⟩]
  | page :: rest, i, last :: runs =>
      if last.first + last.count = page then
        pageRunsFrom rest (i + 1) ({ last with count := last.count + 1 } :: runs)
      else pageRunsFrom rest (i + 1) (⟨page, 1, i⟩ :: last :: runs)

/-- `page_runs`. -/
def pageRuns (blocks : List Nat) : List PageRun := (pageRunsFrom blocks 0 []).reverse

/-- One transfer to the host buffer. -/
def copyRunOut (kv : Nat → Page) (buffer : List Page) (run : PageRun) : List Page :=
  splice buffer run.start ((List.range run.count).map fun k => kv (run.first + k))

/-- The copy of `demote_entry`, into a buffer of the table's size. -/
def copyOut (kv : Nat → Page) (blocks : List Nat) : List Page :=
  (pageRuns blocks).foldl (copyRunOut kv) (List.replicate blocks.length fun _ => [])

/-- One transfer from the host buffer. -/
def copyRunIn (host : List Page) (kv : Nat → Page) (run : PageRun) : Nat → Page := fun page =>
  if run.first ≤ page ∧ page < run.first + run.count then
    (host[run.start + (page - run.first)]?).getD (kv page)
  else kv page

/-- The copy of `promote_entry`. -/
def copyIn (host : List Page) (kv : Nat → Page) (blocks : List Nat) : Nat → Page :=
  (pageRuns blocks).foldl (copyRunIn host) kv

/-! ## The runs cover the table -/

/-- The ids of a run are those of the table at its place. -/
def RunOf (blocks : List Nat) (run : PageRun) : Prop :=
  ∀ k < run.count, blocks[run.start + k]? = some (run.first + k)

/-- The index lies in a run. -/
def Covered (runs : List PageRun) (i : Nat) : Prop :=
  ∃ run ∈ runs, run.start ≤ i ∧ i < run.start + run.count

theorem RunOf.le_length {blocks : List Nat} {run : PageRun} (h : RunOf blocks run)
    (hpos : 0 < run.count) : run.start + run.count ≤ blocks.length := by
  have hlast := h (run.count - 1) (by omega)
  have := (List.getElem?_eq_some_iff.mp hlast).1
  omega

/-- What the scan keeps: the runs so far are runs of the table, they end where the
scan stands, and they cover what lies before. -/
structure Scanned (blocks : List Nat) (i : Nat) (runs : List PageRun) : Prop where
  sound : ∀ run ∈ runs, RunOf blocks run ∧ 0 < run.count
  ends : ∀ last rest, runs = last :: rest → last.start + last.count = i
  covered : ∀ j < i, Covered runs j

theorem Scanned.push {blocks : List Nat} {i page : Nat} {runs : List PageRun}
    (h : Scanned blocks i runs) (hpage : blocks[i]? = some page) :
    Scanned blocks (i + 1) (⟨page, 1, i⟩ :: runs) where
  sound run hrun := by
    rcases List.mem_cons.mp hrun with rfl | hrun
    · refine ⟨?_, Nat.one_pos⟩
      intro k hk
      obtain rfl : k = 0 := Nat.lt_one_iff.mp hk
      simpa using hpage
    · exact h.sound run hrun
  ends last rest heq := by
    cases heq
    rfl
  covered j hj := by
    rcases Nat.lt_succ_iff_lt_or_eq.mp hj with hlt | rfl
    · obtain ⟨run, hrun, hin⟩ := h.covered j hlt
      exact ⟨run, List.mem_cons_of_mem _ hrun, hin⟩
    · exact ⟨_, List.mem_cons_self, Nat.le_refl _, Nat.lt_succ_self _⟩

theorem Scanned.extend {blocks : List Nat} {i : Nat} {last : PageRun} {runs : List PageRun}
    (h : Scanned blocks i (last :: runs)) (hpage : blocks[i]? = some (last.first + last.count)) :
    Scanned blocks (i + 1) ({ last with count := last.count + 1 } :: runs) where
  sound run hrun := by
    rcases List.mem_cons.mp hrun with rfl | hrun
    · refine ⟨?_, Nat.succ_pos _⟩
      intro k hk
      rcases Nat.lt_succ_iff_lt_or_eq.mp hk with hlt | rfl
      · exact (h.sound last List.mem_cons_self).1 k hlt
      · have hend := h.ends last runs rfl
        dsimp only
        rw [hend]
        exact hpage
    · exact h.sound run (List.mem_cons_of_mem _ hrun)
  ends other rest heq := by
    cases heq
    have hend := h.ends last runs rfl
    dsimp only
    omega
  covered j hj := by
    have hend := h.ends last runs rfl
    rcases Nat.lt_succ_iff_lt_or_eq.mp hj with hlt | rfl
    · obtain ⟨run, hrun, hin⟩ := h.covered j hlt
      rcases List.mem_cons.mp hrun with rfl | hrun
      · exact ⟨_, List.mem_cons_self, hin.1, Nat.lt_succ_of_lt hin.2⟩
      · exact ⟨run, List.mem_cons_of_mem _ hrun, hin⟩
    · exact ⟨_, List.mem_cons_self, by dsimp only; omega, by dsimp only; omega⟩

theorem pageRunsFrom_scanned {blocks rest : List Nat} {i : Nat} {runs : List PageRun}
    (h : Scanned blocks i runs) (hrest : blocks.drop i = rest) (hi : i ≤ blocks.length) :
    Scanned blocks blocks.length (pageRunsFrom rest i runs) := by
  induction rest generalizing i runs with
  | nil =>
      have hend : blocks.length ≤ i := List.drop_eq_nil_iff.mp hrest
      obtain rfl : i = blocks.length := by omega
      exact h
  | cons page rest ih =>
      have hpage : blocks[i]? = some page := by
        have hhead := congrArg (fun l => l[0]?) hrest
        simpa using hhead
      have hlt : i < blocks.length := (List.getElem?_eq_some_iff.mp hpage).1
      have hdrop : blocks.drop (i + 1) = rest := by
        rw [← List.drop_drop, hrest]
        rfl
      cases runs with
      | nil => exact ih (h.push hpage) hdrop hlt
      | cons last runs =>
          unfold pageRunsFrom
          split
          next heq =>
            rw [← heq] at hpage
            exact ih (h.extend hpage) hdrop hlt
          next => exact ih (h.push hpage) hdrop hlt

theorem pageRuns_scanned (blocks : List Nat) :
    (∀ run ∈ pageRuns blocks, RunOf blocks run ∧ 0 < run.count) ∧
      ∀ i < blocks.length, Covered (pageRuns blocks) i := by
  have hstart : Scanned blocks 0 [] := ⟨by simp, by simp, by simp⟩
  have hscan := pageRunsFrom_scanned hstart rfl (Nat.zero_le _)
  unfold pageRuns
  refine ⟨?_, ?_⟩
  · intro run hrun
    exact hscan.sound run (List.mem_reverse.mp hrun)
  · intro i hi
    obtain ⟨run, hrun, hin⟩ := hscan.covered i hi
    exact ⟨run, List.mem_reverse.mpr hrun, hin⟩

/-! ## The copies move every page -/

theorem foldl_copyRunOut (kv : Nat → Page) {blocks : List Nat} {runs : List PageRun}
    (hruns : ∀ run ∈ runs, RunOf blocks run ∧ 0 < run.count) {buffer : List Page}
    (hlength : buffer.length = blocks.length) :
    (runs.foldl (copyRunOut kv) buffer).length = blocks.length ∧
      ∀ i, (Covered runs i ∨ buffer[i]? = (blocks.map kv)[i]?) →
        (runs.foldl (copyRunOut kv) buffer)[i]? = (blocks.map kv)[i]? := by
  induction runs generalizing buffer with
  | nil =>
      refine ⟨hlength, ?_⟩
      rintro i (⟨_, hrun, _⟩ | hi)
      · cases hrun
      · exact hi
  | cons run rest ih =>
      obtain ⟨hrun, hpos⟩ := hruns run List.mem_cons_self
      have hinside := hrun.le_length hpos
      have hfits : run.start + ((List.range run.count).map
          fun k => kv (run.first + k)).length ≤ buffer.length := by
        rw [List.length_map, List.length_range, hlength]
        exact hinside
      have hafter : (copyRunOut kv buffer run).length = blocks.length := by
        rw [copyRunOut, length_splice _ _ _ hfits, hlength]
      obtain ⟨hlen, hall⟩ := ih (fun other hother => hruns other (List.mem_cons_of_mem _ hother))
        hafter
      refine ⟨hlen, ?_⟩
      intro i hi
      apply hall
      -- the transfer writes the table's page wherever it writes
      have hwritten : run.start ≤ i ∧ i < run.start + run.count →
          (copyRunOut kv buffer run)[i]? = (blocks.map kv)[i]? := by
        rintro ⟨hlow, hhigh⟩
        have hpage := hrun (i - run.start) (by omega)
        rw [Nat.add_sub_cancel' hlow] at hpage
        rw [copyRunOut, getElem?_splice _ _ _ _ hfits, if_pos ⟨hlow, by simpa using hhigh⟩,
          List.getElem?_map, List.getElem?_map, hpage, List.getElem?_range (by omega)]
        rfl
      by_cases hhere : run.start ≤ i ∧ i < run.start + run.count
      · exact .inr (hwritten hhere)
      · have hsame : (copyRunOut kv buffer run)[i]? = buffer[i]? := by
          rw [copyRunOut, getElem?_splice _ _ _ _ hfits, if_neg (by simpa using hhere)]
        rcases hi with ⟨other, hother, hin⟩ | hi
        · rcases List.mem_cons.mp hother with rfl | hother
          · exact absurd hin hhere
          · exact .inl ⟨other, hother, hin⟩
        · rw [hsame]
          exact .inr hi

/-- The host buffer holds the pages in the table's order. -/
theorem copyOut_eq (kv : Nat → Page) (blocks : List Nat) : copyOut kv blocks = blocks.map kv := by
  obtain ⟨hruns, hcovered⟩ := pageRuns_scanned blocks
  have hbuffer : (List.replicate blocks.length fun _ => [] : List Page).length = blocks.length :=
    List.length_replicate
  obtain ⟨hlength, hall⟩ := foldl_copyRunOut kv hruns hbuffer
  apply List.ext_getElem?
  intro i
  rcases Nat.lt_or_ge i blocks.length with hi | hi
  · exact hall i (.inl (hcovered i hi))
  · rw [List.getElem?_eq_none (by rw [copyOut]; omega), List.getElem?_eq_none (by simpa using hi)]

theorem foldl_copyRunIn (host : List Page) {blocks : List Nat} (hnodup : blocks.Nodup)
    {runs : List PageRun} (hruns : ∀ run ∈ runs, RunOf blocks run ∧ 0 < run.count)
    (kv : Nat → Page) :
    (∀ page ∉ blocks, runs.foldl (copyRunIn host) kv page = kv page) ∧
      ∀ i page, blocks[i]? = some page → ∀ content, host[i]? = some content →
        (Covered runs i ∨ kv page = content) → runs.foldl (copyRunIn host) kv page = content := by
  induction runs generalizing kv with
  | nil =>
      refine ⟨fun _ _ => rfl, ?_⟩
      rintro i page _ content _ (⟨_, hrun, _⟩ | hkv)
      · cases hrun
      · exact hkv
  | cons run rest ih =>
      obtain ⟨hrun, _⟩ := hruns run List.mem_cons_self
      obtain ⟨houtside, hinside⟩ :=
        ih (fun other hother => hruns other (List.mem_cons_of_mem _ hother)) (copyRunIn host kv run)
      refine ⟨?_, ?_⟩
      · intro page hpage
        rw [List.foldl_cons, houtside page hpage, copyRunIn, if_neg]
        rintro ⟨hlow, hhigh⟩
        have hmem := hrun (page - run.first) (by omega)
        rw [Nat.add_sub_cancel' hlow] at hmem
        exact hpage (List.mem_of_getElem? hmem)
      · intro i page hi content hcontent hcase
        rw [List.foldl_cons]
        apply hinside i page hi content hcontent
        by_cases hhere : run.first ≤ page ∧ page < run.first + run.count
        · -- the transfer writes the page, from the place the table has it at
          right
          have hmem := hrun (page - run.first) (by omega)
          rw [Nat.add_sub_cancel' hhere.1] at hmem
          have hindex : run.start + (page - run.first) = i := by
            obtain ⟨hlt, hget⟩ := List.getElem?_eq_some_iff.mp hmem
            obtain ⟨hlt', hget'⟩ := List.getElem?_eq_some_iff.mp hi
            exact (List.Nodup.getElem_inj_iff hnodup).mp (hget.trans hget'.symm)
          rw [copyRunIn, if_pos hhere, hindex, hcontent]
          rfl
        · have hsame : copyRunIn host kv run page = kv page := by
            rw [copyRunIn, if_neg hhere]
          rcases hcase with ⟨other, hother, hin⟩ | hkv
          · rcases List.mem_cons.mp hother with rfl | hother
            · exfalso
              have hpage := hrun (i - other.start) (by omega)
              rw [Nat.add_sub_cancel' hin.1, hi] at hpage
              cases hpage
              exact hhere ⟨by omega, by omega⟩
            · exact .inl ⟨other, hother, hin⟩
          · rw [hsame]
            exact .inr hkv

/-- The pages of the table take the host buffer's contents, in its order, and no
other page is touched. -/
theorem copyIn_eq {host : List Page} {blocks : List Nat} (hnodup : blocks.Nodup)
    (hlength : host.length = blocks.length) (kv : Nat → Page) :
    blocks.map (copyIn host kv blocks) = host ∧
      ∀ page ∉ blocks, copyIn host kv blocks page = kv page := by
  obtain ⟨hruns, hcovered⟩ := pageRuns_scanned blocks
  obtain ⟨houtside, hinside⟩ := foldl_copyRunIn host hnodup hruns kv
  refine ⟨?_, houtside⟩
  apply List.ext_getElem
  · rw [List.length_map, hlength]
  · intro i hi hhost
    rw [List.getElem_map]
    rw [List.length_map] at hi
    exact hinside i _ (List.getElem?_eq_getElem hi) _ (List.getElem?_eq_getElem hhost)
      (.inl (hcovered i hi))

end Arcint.Cache
