import Arcint.Core.Sampler
import Mathlib.Algebra.Order.Monoid.WithTop
import Mathlib.Algebra.Order.Ring.Int
import Mathlib.Data.List.Forall2
import Mathlib.Tactic.Abel

/-! # Selecting a path

A draft is a lattice: a row of candidates for every position, each scored by itself and by its
transition from the candidate before it. The exact mode fills a table row by row with the best score
that ends at each candidate, keeps where it came from, and traces the best of the last row back.
Scores are exact; the score below every other is the bottom of `WithBot`.
-/

namespace Arcint.Decode

open Arcint.Core

/-- What a row holds of one of its candidates. -/
structure Candidate (R : Type) where
  token : Token
  unary : R
  predKey : List R
  succKey : List R
  rowKey : List R

/-- The candidates of one draft position, and its own vector. -/
structure LatticeRow (R : Type) where
  candidates : List (Candidate R)
  hp : List R

structure Lattice (R : Type) where
  anchorKey : List R
  rows : List (LatticeRow R)

inductive DflashSelectMode where
  | greedy
  | viterbi

section Model

variable {R : Type} [CommRing R] [LinearOrder R]

/-- The product over the shorter of the two. -/
def dot (a b : List R) : R := (List.zipWith (· * ·) a b).sum

/-- The first row without candidates, or the number of rows. -/
def firstEmptyRow (lattice : Lattice R) : ℕ :=
  lattice.rows.findIdx fun row => row.candidates.isEmpty

/-- The scan for the best score: a later one replaces it only when it is larger. -/
def bestFrom : WithBot R × ℕ → ℕ → List (WithBot R) → WithBot R × ℕ
  | best, _, [] => best
  | best, j, score :: scores =>
      bestFrom (if best.1 < score then (score, j) else best) (j + 1) scores

/-- The best score and the first place that has it. -/
def bestScore (scores : List (WithBot R)) : WithBot R × ℕ := bestFrom (⊥, 0) 0 scores

/-- A candidate's greedy score, for the products of the row before with this row's vector. -/
def greedyScore (lambda : R) (t : List R) (candidate : Candidate R) : R :=
  candidate.unary + (List.zipWith (fun x y => lambda * (x * y)) t candidate.succKey).sum

/-- Row after row, the best candidate behind the one that was taken. -/
def selectGreedy (lambda : R) : List R → List (LatticeRow R) → List Token
  | _, [] => []
  | prevKey, row :: rows =>
      let t := List.zipWith (· * ·) prevKey row.hp
      let scores := row.candidates.map fun candidate =>
        WithBot.some (greedyScore lambda t candidate)
      match row.candidates[(bestScore scores).2]? with
      | none => []
      | some candidate => candidate.token :: selectGreedy lambda candidate.predKey rows

/-- The table's last row, what it came from, and where each row's scores came from. -/
structure ViterbiState (R : Type) where
  prevRow : List (Candidate R)
  dp : List (WithBot R)
  backptr : List (List ℕ)

/-- The first row, behind the anchor. -/
def viterbiStart (lambda : R) (anchorKey : List R) (row : LatticeRow R) : ViterbiState R where
  prevRow := row.candidates
  dp := row.candidates.map fun candidate =>
    WithBot.some (candidate.unary + lambda * dot anchorKey candidate.rowKey)
  backptr := []

/-- The scores of a candidate behind each of the row before. -/
def transitionScores (lambda : R) (s : ViterbiState R) (candidate : Candidate R) :
    List (WithBot R) :=
  List.zipWith (fun score pred => score + WithBot.some candidate.unary +
    WithBot.some (lambda * dot pred.predKey candidate.rowKey)) s.dp s.prevRow

/-- One more row. -/
def viterbiStep (lambda : R) (s : ViterbiState R) (row : LatticeRow R) : ViterbiState R :=
  let bests := row.candidates.map fun candidate => bestScore (transitionScores lambda s candidate)
  { prevRow := row.candidates
    dp := bests.map Prod.fst
    backptr := s.backptr ++ [bests.map Prod.snd] }

/-- The places chosen from the first row to the last. -/
def traceBack (backptr : List (List ℕ)) (last : ℕ) : List ℕ :=
  backptr.foldr (fun back chosen => back.getD (chosen.headD 0) 0 :: chosen) [last]

/-- The tokens at the chosen places. -/
def pathTokens (rows : List (LatticeRow R)) (chosen : List ℕ) : List Token :=
  List.zipWith (fun row i => (row.candidates[i]?.map Candidate.token).getD 0) rows chosen

def selectViterbi (lattice : Lattice R) (lambda : R) : List Token :=
  match lattice.rows.take (firstEmptyRow lattice) with
  | [] => []
  | row :: rows =>
      let s := rows.foldl (viterbiStep lambda) (viterbiStart lambda lattice.anchorKey row)
      pathTokens (row :: rows) (traceBack s.backptr (bestScore s.dp).2)

def dflashSelectPath (lattice : Lattice R) (mode : DflashSelectMode) (lambda : R) : List Token :=
  match mode with
  | .viterbi => selectViterbi lattice lambda
  | .greedy => selectGreedy lambda lattice.anchorKey (lattice.rows.take (firstEmptyRow lattice))

/-! ## Paths -/

/-- The products along a path, the first with the key in front of it. -/
def transitions : List R → List (Candidate R) → List R
  | _, [] => []
  | key, candidate :: path => dot key candidate.rowKey :: transitions candidate.predKey path

/-- The score of a path behind a key. -/
def pathScore (lambda : R) (key : List R) (path : List (Candidate R)) : R :=
  (path.map Candidate.unary).sum + lambda * (transitions key path).sum

/-- One candidate of every row. -/
def IsPath (rows : List (LatticeRow R)) (path : List (Candidate R)) : Prop :=
  List.Forall₂ (fun row candidate => candidate ∈ row.candidates) rows path

/-- The candidates at the places. -/
def Picked : List (LatticeRow R) → List ℕ → List (Candidate R) → Prop
  | [], [], [] => True
  | row :: rows, i :: chosen, candidate :: path =>
      row.candidates[i]? = some candidate ∧ Picked rows chosen path
  | _, _, _ => False

end Model

section Paths

variable {R : Type} {rows : List (LatticeRow R)} {chosen : List ℕ} {path : List (Candidate R)}

theorem Picked.nil_inv (h : Picked ([] : List (LatticeRow R)) chosen path) :
    chosen = [] ∧ path = [] := by
  cases chosen <;> cases path <;> simp_all [Picked]

theorem Picked.cons_inv {row : LatticeRow R} (h : Picked (row :: rows) chosen path) :
    ∃ i rest candidate tail, chosen = i :: rest ∧ path = candidate :: tail ∧
      row.candidates[i]? = some candidate ∧ Picked rows rest tail := by
  cases chosen with
  | nil => cases path <;> simp [Picked] at h
  | cons i rest =>
      cases path with
      | nil => simp [Picked] at h
      | cons candidate tail => exact ⟨i, rest, candidate, tail, rfl, rfl, h⟩

theorem Picked.isPath (h : Picked rows chosen path) : IsPath rows path := by
  induction rows generalizing chosen path with
  | nil =>
      obtain ⟨rfl, rfl⟩ := h.nil_inv
      exact .nil
  | cons row rows ih =>
      obtain ⟨i, rest, candidate, tail, rfl, rfl, hi, hrest⟩ := h.cons_inv
      exact .cons (List.mem_of_getElem? hi) (ih hrest)

theorem Picked.tokens (h : Picked rows chosen path) :
    pathTokens rows chosen = path.map Candidate.token := by
  induction rows generalizing chosen path with
  | nil =>
      obtain ⟨rfl, rfl⟩ := h.nil_inv
      rfl
  | cons row rows ih =>
      obtain ⟨i, rest, candidate, tail, rfl, rfl, hi, hrest⟩ := h.cons_inv
      have htail := ih hrest
      rw [pathTokens] at htail ⊢
      rw [List.zipWith_cons_cons, htail, hi]
      rfl

/-- One more row, and a place in it. -/
theorem Picked.concat (h : Picked rows chosen path) {row : LatticeRow R} {i : ℕ}
    {candidate : Candidate R} (hi : row.candidates[i]? = some candidate) :
    Picked (rows ++ [row]) (chosen ++ [i]) (path ++ [candidate]) := by
  induction rows generalizing chosen path with
  | nil =>
      obtain ⟨rfl, rfl⟩ := h.nil_inv
      exact ⟨hi, trivial⟩
  | cons first rows ih =>
      obtain ⟨j, rest, head, tail, rfl, rfl, hj, hrest⟩ := h.cons_inv
      exact ⟨hj, ih hrest⟩

/-- A path over one more row. -/
theorem isPath_concat_iff {row : LatticeRow R} :
    IsPath (rows ++ [row]) path ↔
      ∃ front candidate, path = front ++ [candidate] ∧ IsPath rows front ∧
        candidate ∈ row.candidates := by
  constructor
  · intro h
    have hreverse := List.forall₂_reverse_iff.mpr h
    rw [List.reverse_append, List.reverse_singleton, List.singleton_append,
      List.forall₂_cons_left_iff] at hreverse
    obtain ⟨candidate, front, hmem, hfront, hpath⟩ := hreverse
    refine ⟨front.reverse, candidate, ?_, ?_, hmem⟩
    · rw [← List.reverse_reverse path, hpath, List.reverse_cons]
    · rw [IsPath, ← List.forall₂_reverse_iff, List.reverse_reverse]
      exact hfront
  · rintro ⟨front, candidate, rfl, hfront, hmem⟩
    rw [IsPath, ← List.forall₂_reverse_iff, List.reverse_append, List.reverse_append]
    exact .cons hmem (List.forall₂_reverse_iff.mpr hfront)

end Paths

section Scores

variable {R : Type} [CommRing R] {lambda : R} {key : List R} {path : List (Candidate R)}

theorem transitions_concat (front : List (Candidate R)) (pred candidate : Candidate R) :
    transitions key (front ++ [pred] ++ [candidate]) =
      transitions key (front ++ [pred]) ++ [dot pred.predKey candidate.rowKey] := by
  induction front generalizing key with
  | nil => rfl
  | cons first front ih =>
      rw [List.cons_append, List.cons_append, transitions, ih, transitions, List.cons_append]

/-- What one more candidate adds. -/
theorem pathScore_concat (front : List (Candidate R)) (pred candidate : Candidate R) :
    pathScore lambda key (front ++ [pred] ++ [candidate]) =
      pathScore lambda key (front ++ [pred]) + candidate.unary +
        lambda * dot pred.predKey candidate.rowKey := by
  rw [pathScore, pathScore, transitions_concat, List.map_append, List.sum_append, List.sum_append,
    List.map_singleton, List.sum_singleton, List.sum_singleton, mul_add]
  abel

theorem pathScore_singleton (candidate : Candidate R) :
    pathScore lambda key [candidate] = candidate.unary + lambda * dot key candidate.rowKey := by
  simp [pathScore, transitions]

end Scores

/-! ## Tracing back -/

theorem traceBack_ne_nil (backptr : List (List ℕ)) (last : ℕ) : traceBack backptr last ≠ [] := by
  cases backptr <;> simp [traceBack]

/-- The trace looks no farther than the place behind. -/
theorem foldr_traceBack (backptr : List (List ℕ)) (i : ℕ) (rest : List ℕ) :
    backptr.foldr (fun back chosen => back.getD (chosen.headD 0) 0 :: chosen) (i :: rest) =
      traceBack backptr i ++ rest := by
  induction backptr with
  | nil => rfl
  | cons back backptr ih =>
      obtain ⟨first, others, hfirst⟩ := List.exists_cons_of_ne_nil (traceBack_ne_nil backptr i)
      have hstep : traceBack (back :: backptr) i =
          back.getD ((traceBack backptr i).headD 0) 0 :: traceBack backptr i := rfl
      rw [List.foldr_cons, ih, hstep, hfirst]
      rfl

theorem traceBack_concat (backptr : List (List ℕ)) (back : List ℕ) (last : ℕ) :
    traceBack (backptr ++ [back]) last = traceBack backptr (back.getD last 0) ++ [last] := by
  rw [traceBack, List.foldr_append]
  exact foldr_traceBack backptr _ [last]

/-! ## The best score -/

section Best

variable {R : Type} [LinearOrder R] {scores : List (WithBot R)}

/-- Nothing scanned exceeds the result, which was scanned unless it was there before. -/
theorem bestFrom_spec (best : WithBot R × ℕ) (j : ℕ) (scores : List (WithBot R)) :
    best.1 ≤ (bestFrom best j scores).1 ∧
      (∀ score ∈ scores, score ≤ (bestFrom best j scores).1) ∧
      (bestFrom best j scores = best ∨
        ∃ k, scores[k]? = some (bestFrom best j scores).1 ∧
          (bestFrom best j scores).2 = j + k) := by
  induction scores generalizing best j with
  | nil => simp [bestFrom]
  | cons score scores ih =>
      rw [bestFrom]
      split
      next hlt =>
        obtain ⟨hstart, hall, hplace⟩ := ih (score, j) (j + 1)
        refine ⟨hlt.le.trans hstart, List.forall_mem_cons.mpr ⟨hstart, hall⟩, Or.inr ?_⟩
        rcases hplace with heq | ⟨k, hk, hj⟩
        · exact ⟨0, by rw [heq]; rfl, by rw [heq]; rfl⟩
        · exact ⟨k + 1, hk, by omega⟩
      next hge =>
        obtain ⟨hstart, hall, hplace⟩ := ih best (j + 1)
        refine ⟨hstart, List.forall_mem_cons.mpr ⟨(not_lt.mp hge).trans hstart, hall⟩, ?_⟩
        refine hplace.imp_right ?_
        rintro ⟨k, hk, hj⟩
        exact ⟨k + 1, hk, by omega⟩

/-- Among scores above the bottom, a best one is found where it stands. -/
theorem bestScore_spec (hne : scores ≠ []) (hscores : ∀ score ∈ scores, ⊥ < score) :
    scores[(bestScore scores).2]? = some (bestScore scores).1 ∧
      ∀ score ∈ scores, score ≤ (bestScore scores).1 := by
  obtain ⟨-, hall, hplace⟩ := bestFrom_spec (⊥, 0) 0 scores
  refine ⟨?_, hall⟩
  rcases hplace with heq | ⟨k, hk, hj⟩
  · obtain ⟨score, hscore⟩ := List.exists_mem_of_ne_nil scores hne
    have hle := hall score hscore
    rw [heq] at hle
    exact absurd (hscores score hscore) (not_lt.mpr hle)
  · rw [bestScore, hj, Nat.zero_add, hk]

end Best

/-! ## The table -/

section Table

variable {R : Type} [CommRing R] {lambda : R} {anchorKey : List R}

/-- A place of the row before, its entry, and the score of a candidate behind it. -/
theorem transitionScores_getElem? {s : ViterbiState R} {candidate pred : Candidate R} {p : ℕ}
    {x : R} (hpred : s.prevRow[p]? = some pred) (hx : s.dp[p]? = some (WithBot.some x)) :
    (transitionScores lambda s candidate)[p]? =
      some (WithBot.some (x + candidate.unary + lambda * dot pred.predKey candidate.rowKey)) := by
  rw [transitionScores, List.getElem?_zipWith, hpred, hx]
  rfl

variable [LinearOrder R]

/-- Every entry is the score of the path that is traced back from it, and no path that ends at its
candidate scores higher. -/
structure Tabled (lambda : R) (anchorKey : List R) (done : List (LatticeRow R))
    (s : ViterbiState R) : Prop where
  last : ∃ before row, done = before ++ [row] ∧ s.prevRow = row.candidates
  length : s.dp.length = s.prevRow.length
  entry : ∀ (j : ℕ) (candidate : Candidate R), s.prevRow[j]? = some candidate →
    ∃ front, Picked done (traceBack s.backptr j) (front ++ [candidate]) ∧
      s.dp[j]? = some (WithBot.some (pathScore lambda anchorKey (front ++ [candidate]))) ∧
      ∀ other, IsPath done (other ++ [candidate]) →
        pathScore lambda anchorKey (other ++ [candidate]) ≤
          pathScore lambda anchorKey (front ++ [candidate])

theorem viterbiStart_tabled (row : LatticeRow R) :
    Tabled lambda anchorKey [row] (viterbiStart lambda anchorKey row) where
  last := ⟨[], row, rfl, rfl⟩
  length := by simp [viterbiStart]
  entry j candidate hj := by
    refine ⟨[], ⟨hj, trivial⟩, ?_, fun other hother => ?_⟩
    · rw [List.nil_append, pathScore_singleton]
      simp only [viterbiStart] at hj ⊢
      rw [List.getElem?_map, hj]
      rfl
    · obtain rfl : other = [] := by
        have hlength := hother.length_eq
        simpa using hlength
      exact le_rfl

/-- A path over the rows of a table ends in its last row. -/
theorem Tabled.split {done : List (LatticeRow R)} {s : ViterbiState R}
    (h : Tabled lambda anchorKey done s) {path : List (Candidate R)} (hpath : IsPath done path) :
    ∃ (front : List (Candidate R)) (pred : Candidate R) (p : ℕ),
      path = front ++ [pred] ∧ s.prevRow[p]? = some pred := by
  obtain ⟨before, row, rfl, hrow⟩ := h.last
  obtain ⟨front, pred, rfl, -, hmem⟩ := isPath_concat_iff.mp hpath
  obtain ⟨p, hp⟩ := List.mem_iff_getElem?.mp (hrow ▸ hmem)
  exact ⟨front, pred, p, rfl, hp⟩

/-- The best place of the last row. -/
theorem Tabled.bestLast {done : List (LatticeRow R)} {s : ViterbiState R}
    (h : Tabled lambda anchorKey done s) (hne : s.prevRow ≠ []) :
    ∃ path, Picked done (traceBack s.backptr (bestScore s.dp).2) path ∧
      ∀ other, IsPath done other →
        pathScore lambda anchorKey other ≤ pathScore lambda anchorKey path := by
  have habove : ∀ score ∈ s.dp, ⊥ < score := by
    intro score hmem
    obtain ⟨p, hp, rfl⟩ := List.mem_iff_getElem.mp hmem
    obtain ⟨front, -, hat, -⟩ :=
      h.entry p _ (List.getElem?_eq_getElem (h.length ▸ hp : p < s.prevRow.length))
    rw [List.getElem?_eq_getElem hp, Option.some_inj] at hat
    rw [hat]
    exact WithBot.bot_lt_coe _
  have hsome : s.dp ≠ [] := by
    rwa [← List.length_pos_iff, h.length, List.length_pos_iff]
  obtain ⟨hplace, hall⟩ := bestScore_spec hsome habove
  generalize bestScore s.dp = best at hplace hall
  obtain ⟨m, p⟩ := best
  have hp : p < s.prevRow.length := h.length ▸ (List.getElem?_eq_some_iff.mp hplace).1
  obtain ⟨front, hpicked, hat, -⟩ := h.entry p _ (List.getElem?_eq_getElem hp)
  obtain rfl := Option.some_inj.mp (hplace.symm.trans hat)
  refine ⟨front ++ [s.prevRow[p]], hpicked, fun path hpath => ?_⟩
  obtain ⟨other, pred, q, rfl, hq⟩ := h.split hpath
  obtain ⟨front', -, hat', hbest'⟩ := h.entry q pred hq
  exact (hbest' other hpath).trans
    (WithBot.coe_le_coe.mp (hall _ (List.mem_of_getElem? hat')))

variable [IsOrderedAddMonoid R]

/-- The entry of a candidate behind a place of the row before is the score of a path through it. -/
theorem Tabled.behind {done : List (LatticeRow R)} {s : ViterbiState R}
    (h : Tabled lambda anchorKey done s) (candidate : Candidate R) {p : ℕ} {pred : Candidate R}
    (hpred : s.prevRow[p]? = some pred) :
    ∃ front, Picked done (traceBack s.backptr p) (front ++ [pred]) ∧
      (transitionScores lambda s candidate)[p]? = some (WithBot.some
        (pathScore lambda anchorKey (front ++ [pred] ++ [candidate]))) ∧
      ∀ other, IsPath done (other ++ [pred]) →
        pathScore lambda anchorKey (other ++ [pred] ++ [candidate]) ≤
          pathScore lambda anchorKey (front ++ [pred] ++ [candidate]) := by
  obtain ⟨front, hpicked, hentry, hbest⟩ := h.entry p pred hpred
  refine ⟨front, hpicked, ?_, fun other hother => ?_⟩
  · rw [transitionScores_getElem? hpred hentry, pathScore_concat]
  · rw [pathScore_concat, pathScore_concat]
    exact add_le_add_left (add_le_add_left (hbest other hother) _) _

/-- The best place behind a candidate. -/
theorem Tabled.bestBehind {done : List (LatticeRow R)} {s : ViterbiState R}
    (h : Tabled lambda anchorKey done s) (hne : s.prevRow ≠ []) (candidate : Candidate R) :
    ∃ p front, Picked done (traceBack s.backptr p) front ∧
      bestScore (transitionScores lambda s candidate) =
        (WithBot.some (pathScore lambda anchorKey (front ++ [candidate])), p) ∧
      ∀ other, IsPath done other → pathScore lambda anchorKey (other ++ [candidate]) ≤
        pathScore lambda anchorKey (front ++ [candidate]) := by
  have hlength : (transitionScores lambda s candidate).length = s.prevRow.length := by
    rw [transitionScores, List.length_zipWith, h.length, Nat.min_self]
  have habove : ∀ score ∈ transitionScores lambda s candidate, ⊥ < score := by
    intro score hmem
    obtain ⟨p, hp, rfl⟩ := List.mem_iff_getElem.mp hmem
    obtain ⟨front, -, hat, -⟩ :=
      h.behind candidate (List.getElem?_eq_getElem (hlength ▸ hp : p < s.prevRow.length))
    rw [List.getElem?_eq_getElem hp, Option.some_inj] at hat
    rw [hat]
    exact WithBot.bot_lt_coe _
  have hsome : transitionScores lambda s candidate ≠ [] := by
    rwa [← List.length_pos_iff, hlength, List.length_pos_iff]
  obtain ⟨hplace, hall⟩ := bestScore_spec hsome habove
  generalize bestScore (transitionScores lambda s candidate) = best at hplace hall
  obtain ⟨m, p⟩ := best
  have hp : p < s.prevRow.length := hlength ▸ (List.getElem?_eq_some_iff.mp hplace).1
  obtain ⟨front, hpicked, hat, -⟩ := h.behind candidate (List.getElem?_eq_getElem hp)
  obtain rfl := Option.some_inj.mp (hplace.symm.trans hat)
  refine ⟨p, front ++ [s.prevRow[p]], hpicked, rfl, fun path hpath => ?_⟩
  obtain ⟨other, pred, q, rfl, hq⟩ := h.split hpath
  obtain ⟨front', -, hat', hbest'⟩ := h.behind candidate hq
  exact (hbest' other hpath).trans
    (WithBot.coe_le_coe.mp (hall _ (List.mem_of_getElem? hat')))

theorem viterbiStep_tabled {done : List (LatticeRow R)} {s : ViterbiState R}
    (h : Tabled lambda anchorKey done s) (hne : s.prevRow ≠ []) (row : LatticeRow R) :
    Tabled lambda anchorKey (done ++ [row]) (viterbiStep lambda s row) where
  last := ⟨done, row, rfl, rfl⟩
  length := by simp [viterbiStep]
  entry j candidate hj := by
    have hcandidate : row.candidates[j]? = some candidate := hj
    obtain ⟨p, front, hpicked, hscore, hbest⟩ := h.bestBehind hne candidate
    refine ⟨front, ?_, ?_, fun path hpath => ?_⟩
    · have hback : ((row.candidates.map fun candidate =>
          bestScore (transitionScores lambda s candidate)).map Prod.snd).getD j 0 = p := by
        rw [List.getD_eq_getElem?_getD, List.getElem?_map, List.getElem?_map, hcandidate,
          Option.map_some, hscore]
        rfl
      simp only [viterbiStep]
      rw [traceBack_concat, hback]
      exact hpicked.concat hcandidate
    · simp only [viterbiStep]
      rw [List.getElem?_map, List.getElem?_map, hcandidate, Option.map_some, hscore]
      rfl
    · obtain ⟨other, last, hsplit, hother, -⟩ := isPath_concat_iff.mp hpath
      obtain ⟨rfl, -⟩ := List.append_inj' hsplit rfl
      exact hbest path hother

theorem foldl_viterbiStep_tabled {rows done : List (LatticeRow R)} {s : ViterbiState R}
    (h : Tabled lambda anchorKey done s) (hne : s.prevRow ≠ [])
    (hrows : ∀ row ∈ rows, row.candidates ≠ []) :
    Tabled lambda anchorKey (done ++ rows) (rows.foldl (viterbiStep lambda) s) ∧
      (rows.foldl (viterbiStep lambda) s).prevRow ≠ [] := by
  induction rows generalizing done s with
  | nil => simpa using ⟨h, hne⟩
  | cons row rows ih =>
      have hnext := ih (viterbiStep_tabled h hne row) (hrows row List.mem_cons_self)
        fun other hother => hrows other (List.mem_cons_of_mem _ hother)
      rwa [List.append_assoc] at hnext

end Table

/-! ## The selected path -/

section Selected

variable {R : Type}

theorem length_rows_take (lattice : Lattice R) :
    (lattice.rows.take (firstEmptyRow lattice)).length = firstEmptyRow lattice := by
  rw [List.length_take, firstEmptyRow, Nat.min_eq_left List.findIdx_le_length]

theorem candidates_ne_nil {lattice : Lattice R} {row : LatticeRow R}
    (hrow : row ∈ lattice.rows.take (firstEmptyRow lattice)) : row.candidates ≠ [] := by
  obtain ⟨i, hi, rfl⟩ := List.mem_iff_getElem.mp hrow
  rw [length_rows_take] at hi
  have hsome := List.not_of_lt_findIdx hi
  rw [List.getElem_take]
  simpa using hsome

/-- The exact mode takes one candidate of every row before the first empty one, and no other choice
scores higher. -/
theorem dflashSelectPath_viterbi_optimal [CommRing R] [LinearOrder R] [IsOrderedAddMonoid R]
    (lattice : Lattice R) (lambda : R) :
    (dflashSelectPath lattice .viterbi lambda).length = firstEmptyRow lattice ∧
      ∃ path, IsPath (lattice.rows.take (firstEmptyRow lattice)) path ∧
        dflashSelectPath lattice .viterbi lambda = path.map Candidate.token ∧
        ∀ other, IsPath (lattice.rows.take (firstEmptyRow lattice)) other →
          pathScore lambda lattice.anchorKey other ≤ pathScore lambda lattice.anchorKey path := by
  have hlength := length_rows_take lattice
  have hsome : ∀ row ∈ lattice.rows.take (firstEmptyRow lattice), row.candidates ≠ [] :=
    fun row => candidates_ne_nil
  simp only [dflashSelectPath, selectViterbi]
  generalize lattice.rows.take (firstEmptyRow lattice) = rows at hlength hsome ⊢
  cases rows with
  | nil =>
      refine ⟨hlength, [], .nil, rfl, fun other hother => ?_⟩
      obtain rfl := List.forall₂_nil_left_iff.mp hother
      exact le_rfl
  | cons row rows =>
      have hstart : Tabled lambda lattice.anchorKey [row]
          (viterbiStart lambda lattice.anchorKey row) := viterbiStart_tabled row
      obtain ⟨htabled, hne⟩ := foldl_viterbiStep_tabled hstart
        (hsome row List.mem_cons_self)
        fun other hother => hsome other (List.mem_cons_of_mem _ hother)
      obtain ⟨path, hpicked, hbest⟩ := htabled.bestLast hne
      have htokens := hpicked.tokens
      have hpath := hpicked.isPath
      rw [List.singleton_append] at htokens hpath hbest
      refine ⟨?_, path, hpath, htokens, hbest⟩
      dsimp only
      rw [htokens, List.length_map, ← hpath.length_eq, hlength]

/-- Two rows; the second row's only candidate fits the lesser one of the first. -/
def smallLattice : Lattice ℤ where
  anchorKey := [1]
  rows :=
    [{ candidates :=
        [{ token := 10, unary := 3, predKey := [0], succKey := [0], rowKey := [0] },
          { token := 11, unary := 2, predKey := [5], succKey := [0], rowKey := [0] }]
       hp := [1] },
      { candidates := [{ token := 20, unary := 0, predKey := [], succKey := [1], rowKey := [1] }]
        hp := [1] },
      { candidates := [], hp := [] }]

theorem dflashSelectPath_viterbi_optimal_smallLattice :
    (dflashSelectPath smallLattice .viterbi (-1)).length = firstEmptyRow smallLattice ∧
      ∃ path, IsPath (smallLattice.rows.take (firstEmptyRow smallLattice)) path ∧
        dflashSelectPath smallLattice .viterbi (-1) = path.map Candidate.token ∧
        ∀ other, IsPath (smallLattice.rows.take (firstEmptyRow smallLattice)) other →
          pathScore (-1) smallLattice.anchorKey other ≤
            pathScore (-1) smallLattice.anchorKey path :=
  dflashSelectPath_viterbi_optimal smallLattice (-1)

example : dflashSelectPath smallLattice .viterbi 1 = [11, 20] ∧
    dflashSelectPath smallLattice .greedy 1 = [10, 20] := by decide

end Selected

end Arcint.Decode
