import Arcint.Foundation.Slice

/-! # Scans and block loops

A rule takes a row and a state to an answer and a new state. Run over a list it gives the list
of the answers and the last state, and it may be cut anywhere. A loop that takes a block of rows
an iteration and writes the block's answers into a buffer runs the same scan.
-/

namespace Arcint.Foundation

variable {σ α ρ κ : Type*}

/-- The answers of a rule over the rows, and the state it leaves. -/
def scan (rule : σ → α → σ × ρ) : σ → List α → List ρ × σ
  | state, [] => ([], state)
  | state, row :: rows =>
      let next := rule state row
      let rest := scan rule next.1 rows
      (next.2 :: rest.1, rest.2)

section Scan

variable {rule : σ → α → σ × ρ}

@[simp] theorem scan_nil (state : σ) : scan rule state [] = ([], state) := rfl

@[simp] theorem scan_cons (state : σ) (row : α) (rows : List α) :
    scan rule state (row :: rows) =
      ((rule state row).2 :: (scan rule (rule state row).1 rows).1,
        (scan rule (rule state row).1 rows).2) := rfl

theorem scan_append (state : σ) (first second : List α) :
    scan rule state (first ++ second) =
      ((scan rule state first).1 ++ (scan rule (scan rule state first).2 second).1,
        (scan rule (scan rule state first).2 second).2) := by
  induction first generalizing state with
  | nil => rfl
  | cons row rows ih =>
      rw [List.cons_append, scan_cons, scan_cons, ih]
      rfl

@[simp] theorem length_scan (state : σ) (rows : List α) :
    (scan rule state rows).1.length = rows.length := by
  induction rows generalizing state with
  | nil => rfl
  | cons row rows ih => simp [ih]

theorem scan_map {β : Type*} (f : β → α) (state : σ) (rows : List β) :
    scan rule state (rows.map f) = scan (fun state row => rule state (f row)) state rows := by
  induction rows generalizing state with
  | nil => rfl
  | cons row rows ih =>
      rw [List.map_cons, scan_cons, scan_cons, ih]

/-- A step further, by the row that is taken. -/
theorem scan_take_succ (state : σ) {rows : List α} {i : Nat} {row : α}
    (hrow : rows[i]? = some row) :
    (scan rule state (rows.take (i + 1))).2 = (rule (scan rule state (rows.take i)).2 row).1 := by
  rw [List.take_add_one, hrow, scan_append]
  rfl

/-- The answer to a row, by the state before it. -/
theorem getElem?_scan (state : σ) {rows : List α} {i : Nat} {row : α}
    (hrow : rows[i]? = some row) :
    (scan rule state rows).1[i]? = some (rule (scan rule state (rows.take i)).2 row).2 := by
  induction rows generalizing state i with
  | nil => cases hrow
  | cons first rows ih =>
      cases i with
      | zero =>
          cases hrow
          rfl
      | succ i =>
          rw [scan_cons, List.getElem?_cons_succ, ih _ hrow]
          rfl

end Scan

/-! ## Block loops -/

/-- A write right behind what is there. -/
theorem splice_append (done rest xs : List ρ) :
    splice (done ++ rest) done.length xs = done ++ (xs ++ rest.drop xs.length) := by
  unfold splice
  rw [List.take_left, List.drop_length_add_append, List.append_assoc]

/-- A loop of `n` iterations over blocks of `width` rows; the state and the buffer are carried. -/
def blockLoop (width : Nat) (body : Nat → List α → σ × List ρ → σ × List ρ) (input : List α)
    (n : Nat) (start : σ × List ρ) : σ × List ρ :=
  (List.range n).foldl (fun carry step => body step (slice input (step * width) width) carry) start

/-- The body runs the rule over its block and writes the answers where the block stands. -/
def RunsBlocks (rule : σ → α → σ × ρ) (width : Nat)
    (body : Nat → List α → σ × List ρ → σ × List ρ) : Prop :=
  ∀ step rows state buffer, rows.length = width →
    body step rows (state, buffer) =
      ((scan rule state rows).2, splice buffer (step * width) (scan rule state rows).1)

section BlockLoop

variable {rule : σ → α → σ × ρ} {width : Nat} {body : Nat → List α → σ × List ρ → σ × List ρ}
  {input : List α}

/-- After some iterations the first blocks are answered, and the rest of the buffer is as it was. -/
theorem blockLoop_take (hbody : RunsBlocks rule width body) (state : σ) (blank : List ρ)
    {m : Nat} (hm : m * width ≤ input.length) :
    blockLoop width body input m (state, blank) =
      ((scan rule state (input.take (m * width))).2,
        (scan rule state (input.take (m * width))).1 ++ blank.drop (m * width)) := by
  induction m with
  | zero => simp [blockLoop]
  | succ m ih =>
      have hmore : (m + 1) * width = m * width + width := Nat.succ_mul m width
      rw [hmore] at hm
      have hblock : (slice input (m * width) width).length = width := by
        rw [slice, List.length_take, List.length_drop]
        omega
      have hstep : blockLoop width body input (m + 1) (state, blank) =
          body m (slice input (m * width) width)
            (blockLoop width body input m (state, blank)) := by
        unfold blockLoop
        rw [List.range_succ, List.foldl_concat]
      rw [hstep, ih (by omega), hbody m _ _ _ hblock, hmore, List.take_add, scan_append]
      refine Prod.ext rfl ?_
      dsimp only
      obtain ⟨done, hdone⟩ : ∃ done, done = (scan rule state (input.take (m * width))).1 := ⟨_, rfl⟩
      have hlength : done.length = m * width := by
        rw [hdone, length_scan, List.length_take]
        omega
      rw [← hdone, ← hlength, splice_append, List.append_assoc, List.drop_drop, length_scan,
        hlength]
      congr 4

/-- The whole loop is the scan. -/
theorem blockLoop_eq_scan (hbody : RunsBlocks rule width body) (state : σ) (blank : List ρ)
    {n : Nat} (hinput : input.length = n * width) (hblank : blank.length = n * width) :
    blockLoop width body input n (state, blank) =
      ((scan rule state input).2, (scan rule state input).1) := by
  rw [blockLoop_take hbody state blank (Nat.le_of_eq hinput.symm),
    List.take_of_length_le (Nat.le_of_eq hinput), List.drop_of_length_le (Nat.le_of_eq hblank),
    List.append_nil]

end BlockLoop

/-! ## Chunks -/

/-- The starts of chunks of one width; the last chunk may be shorter. -/
def steps (n width : Nat) : List Nat := (List.range ((n + width - 1) / width)).map (· * width)

section Steps

variable {f : α → ρ} {l : List α} {blank : List ρ} {width : Nat}

/-- After some chunks the answers to their rows stand, and the rest of the buffer is as it was. -/
theorem foldl_chunks_take (hblank : blank.length = l.length) (m : Nat) :
    ((List.range m).map (· * width)).foldl
        (fun out start => splice out start ((slice l start width).map f)) blank =
      (l.take (m * width)).map f ++ blank.drop (m * width) := by
  induction m with
  | zero => simp
  | succ m ih =>
      rw [List.range_succ, List.map_append, List.foldl_append, ih, Nat.succ_mul, List.take_add,
        List.map_append]
      change splice _ (m * width) ((slice l (m * width) width).map f) = _
      rcases Nat.le_total (m * width) l.length with hle | hge
      · obtain ⟨done, hdone⟩ : ∃ done, done = (l.take (m * width)).map f := ⟨_, rfl⟩
        have hlength : done.length = m * width := by
          rw [hdone, List.length_map, List.length_take, Nat.min_eq_left hle]
        rw [← hdone, ← hlength, splice_append, List.append_assoc, List.drop_drop,
          List.length_map, slice, List.length_take, List.length_drop]
        congr 2
        rcases Nat.le_total width (l.length - done.length) with hfull | hshort
        · rw [Nat.min_eq_left hfull]
        · rw [Nat.min_eq_right hshort, List.drop_of_length_le (by omega),
            List.drop_of_length_le (by omega)]
      · have hrest : l.drop (m * width) = [] := List.drop_of_length_le hge
        rw [slice, hrest, List.take_nil, List.map_nil, List.append_nil,
          List.drop_of_length_le (l := blank) (by omega),
          List.drop_of_length_le (l := blank) (by omega), List.append_nil,
          List.take_of_length_le hge]
        simp [splice]

/-- Chunk by chunk, every row is answered. -/
theorem foldl_steps (hblank : blank.length = l.length) (hwidth : 0 < width) :
    (steps l.length width).foldl
      (fun out start => splice out start ((slice l start width).map f)) blank = l.map f := by
  have hcover : l.length ≤ (l.length + width - 1) / width * width := by
    have hdiv := Nat.div_add_mod (l.length + width - 1) width
    have hmod := Nat.mod_lt (l.length + width - 1) hwidth
    rw [Nat.mul_comm]
    omega
  rw [steps, foldl_chunks_take hblank, List.take_of_length_le hcover,
    List.drop_of_length_le (hblank ▸ hcover), List.append_nil]

end Steps

/-! ## Pieces -/

/-- Pieces run one behind the other, each by a forward of its own. -/
def runPieces (forward : κ → σ → List α → List ρ × σ) : σ → List (κ × List α) → List ρ × σ
  | state, [] => ([], state)
  | state, (kind, rows) :: pieces =>
      let here := forward kind state rows
      let rest := runPieces forward here.2 pieces
      (here.1 ++ rest.1, rest.2)

/-- Where every forward is the scan, the cuts do not matter. -/
theorem runPieces_eq_scan {rule : σ → α → σ × ρ} {forward : κ → σ → List α → List ρ × σ}
    (pieces : List (κ × List α))
    (hforward : ∀ piece ∈ pieces, ∀ state, forward piece.1 state piece.2 = scan rule state piece.2)
    (state : σ) :
    runPieces forward state pieces = scan rule state (pieces.flatMap Prod.snd) := by
  induction pieces generalizing state with
  | nil => rfl
  | cons piece pieces ih =>
      obtain ⟨hhere, hlater⟩ := List.forall_mem_cons.mp hforward
      rw [List.flatMap_cons, scan_append, ← hhere, ← ih hlater]
      rfl

end Arcint.Foundation
