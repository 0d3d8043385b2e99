import Mathlib.Data.List.Range
import Mathlib.Data.List.Nodup
import Mathlib.Tactic.Linarith
import Arcint.Core.Sampler

/-! # A lane's recurrent state and the paged forward

What a forward does to the state a sequence keeps on the device: the
linear-attention checkpoint rows a lane owns and the KV of its positions. Both
are recorded by the tokens they have absorbed. Rollback moves no bytes: it is
the choice of which checkpoint row is the committed one.
-/

namespace Arcint.Decode

open Arcint.Core

/-- The device state of one lane: the tokens absorbed by each checkpoint row,
and the token whose KV each position holds. Positions are logical; the page
table that maps them to physical pages is the cache's business. -/
structure Lane where
  laRows : Nat → List Token
  kv : Nat → Token

namespace Lane

/-- The tokens whose KV the positions `[0, past)` hold. -/
def kvPrefix (lane : Lane) (past : Nat) : List Token :=
  (List.range past).map lane.kv

/-- Writing the KV of `tokens` at positions `[past, past + tokens.length)`. -/
def writeKv (kv : Nat → Token) (past : Nat) (tokens : List Token) : Nat → Token :=
  fun position =>
    if past ≤ position then (tokens[position - past]?).getD (kv position) else kv position

/-- Writing a checkpoint after each token of a pass: row `rows[i]` receives the
state after `tokens[0..i]`, continuing from `base`. Later writes win. -/
def writeCheckpoints (laRows : Nat → List Token) (base : List Token) :
    List Nat → List Token → Nat → List Token
  | row :: rows, token :: tokens =>
      writeCheckpoints (Function.update laRows row (base ++ [token])) (base ++ [token])
        rows tokens
  | _, _ => laRows

/-- The state part of `paged_forward`. With interval 0 the committed row is
advanced in place; with interval 1 it is only read, and the rows after it each
receive the checkpoint of one token. -/
def pagedForward (lane : Lane) (tokens : List Token) (past : Nat) (laRows : List Nat)
    (interval : Nat) : Lane where
  laRows :=
    match laRows, interval with
    | committed :: _, 0 =>
        Function.update lane.laRows committed (lane.laRows committed ++ tokens)
    | committed :: checkpoints, _ + 1 =>
        writeCheckpoints lane.laRows (lane.laRows committed) checkpoints tokens
    | [], _ => lane.laRows
  kv := writeKv lane.kv past tokens

@[simp] theorem kvPrefix_length (lane : Lane) (past : Nat) :
    (lane.kvPrefix past).length = past := by
  simp [kvPrefix]

theorem writeKv_of_lt {kv : Nat → Token} {past position : Nat} (tokens : List Token)
    (hlt : position < past) : writeKv kv past tokens position = kv position :=
  if_neg (by omega)

theorem writeKv_add {kv : Nat → Token} {past i : Nat} {tokens : List Token}
    (hi : i < tokens.length) : writeKv kv past tokens (past + i) = tokens[i] := by
  simp [writeKv, hi]

/-- After a forward the positions up to any accepted length hold what they held
before `past`, followed by the accepted tokens. -/
theorem kvPrefix_writeKv (lane : Lane) (past : Nat) (tokens : List Token) {n : Nat}
    (hn : n ≤ tokens.length) (rows : Nat → List Token) :
    kvPrefix ⟨rows, writeKv lane.kv past tokens⟩ (past + n) =
      lane.kvPrefix past ++ tokens.take n := by
  apply List.ext_getElem
  · simp [hn]
  · intro i hi _
    simp only [kvPrefix_length] at hi
    rw [List.getElem_append]
    split
    next hlt =>
      simp only [kvPrefix_length] at hlt
      simp [kvPrefix, writeKv_of_lt tokens hlt]
    next hge =>
      simp only [kvPrefix_length, not_lt] at hge
      obtain ⟨j, rfl⟩ := Nat.exists_eq_add_of_le hge
      have hj : j < tokens.length := by omega
      simp [kvPrefix, writeKv_add hj]

/-- A checkpoint write leaves every row outside its list alone. -/
theorem writeCheckpoints_of_notMem (laRows : Nat → List Token) (base : List Token)
    {rows : List Nat} {row : Nat} (hrow : row ∉ rows) (tokens : List Token) :
    writeCheckpoints laRows base rows tokens row = laRows row := by
  induction rows generalizing laRows base tokens with
  | nil => simp [writeCheckpoints]
  | cons head rest ih =>
      simp only [List.mem_cons, not_or] at hrow
      cases tokens with
      | nil => rfl
      | cons token tokens =>
          rw [writeCheckpoints, ih _ _ hrow.2]
          exact Function.update_of_ne hrow.1 _ _

/-- Row `rows[i]` holds the state after the first `i + 1` tokens of the pass. -/
theorem writeCheckpoints_getElem (laRows : Nat → List Token) (base : List Token)
    {rows : List Nat} (hnodup : rows.Nodup) (tokens : List Token) {i : Nat}
    (hi : i < rows.length) (hit : i < tokens.length) :
    writeCheckpoints laRows base rows tokens rows[i] = base ++ tokens.take (i + 1) := by
  induction rows generalizing laRows base tokens i with
  | nil => simp at hi
  | cons head rest ih =>
      obtain ⟨hhead, hrest⟩ := List.nodup_cons.mp hnodup
      cases tokens with
      | nil => simp at hit
      | cons token tokens =>
          cases i with
          | zero =>
              rw [writeCheckpoints, List.getElem_cons_zero,
                writeCheckpoints_of_notMem _ _ hhead, Function.update_self]
              simp
          | succ i =>
              rw [writeCheckpoints, List.getElem_cons_succ,
                ih _ _ hrest _ (by simpa using hi) (by simpa using hit)]
              simp

end Lane

/-! ## The checkpoint rows of a verify pass -/

/-- The `for` loop that fills `la_rows`: rows counted up from `row`, skipping the
committed one, until `count` have been pushed. -/
def spareRows (committed : Nat) : Nat → Nat → List Nat
  | _, 0 => []
  | row, count + 1 =>
      let free := if row = committed then row + 1 else row
      free :: spareRows committed (free + 1) count

/-- `la_rows`: the committed row, then one spare row for each token of `seq`. -/
def laRowsFor (committed : Nat) (seqSize : Nat) : List Nat :=
  committed :: spareRows committed 0 seqSize

theorem spareRows_length (committed row count : Nat) :
    (spareRows committed row count).length = count := by
  induction count generalizing row with
  | zero => rfl
  | succ count ih => simp [spareRows, ih]

/-- Spare rows avoid the committed one. They run without a gap except for it, so
`count` of them need one extra row only while it is still ahead. -/
theorem mem_spareRows {committed row count free : Nat}
    (hfree : free ∈ spareRows committed row count) :
    free ≠ committed ∧ row ≤ free ∧ free ≤ row + count ∧
      (committed < row → free < row + count) := by
  induction count generalizing row with
  | zero => simp [spareRows] at hfree
  | succ count ih =>
      simp only [spareRows, List.mem_cons] at hfree
      rcases hfree with rfl | hfree
      · split <;> omega
      · have hrest := ih hfree
        split at hrest <;> omega

theorem spareRows_nodup (committed row count : Nat) :
    (spareRows committed row count).Nodup := by
  induction count generalizing row with
  | zero => exact List.nodup_nil
  | succ count ih =>
      refine List.nodup_cons.mpr ⟨?_, ih _⟩
      intro hmem
      have hbound := (mem_spareRows hmem).2.1
      omega

@[simp] theorem laRowsFor_length (committed seqSize : Nat) :
    (laRowsFor committed seqSize).length = seqSize + 1 := by
  simp [laRowsFor, spareRows_length]

theorem laRowsFor_nodup (committed seqSize : Nat) : (laRowsFor committed seqSize).Nodup :=
  List.nodup_cons.mpr
    ⟨fun hmem => (mem_spareRows hmem).1 rfl, spareRows_nodup committed 0 seqSize⟩

/-- Every row of a verify pass is below `rows_per_lane_ = drafts_max_ + 3`. -/
theorem laRowsFor_lt {committed seqSize draftsMax row : Nat}
    (hcommitted : committed < draftsMax + 3) (hseq : seqSize ≤ draftsMax + 1)
    (hrow : row ∈ laRowsFor committed seqSize) : row < draftsMax + 3 := by
  rcases List.mem_cons.mp hrow with rfl | hspare
  · exact hcommitted
  · have hbound := (mem_spareRows hspare).2.2.1
    omega

theorem laRowsFor_getLastD_mem (committed seqSize : Nat) :
    (laRowsFor committed seqSize).getLastD 0 ∈ laRowsFor committed seqSize := by
  rw [laRowsFor, List.getLastD_cons]
  cases hrows : spareRows committed 0 seqSize with
  | nil => simp
  | cons row rest =>
      refine List.mem_cons_of_mem _ ?_
      rw [List.getLastD_cons, ← List.getLast_eq_getLastD (List.cons_ne_nil row rest)]
      exact List.getLast_mem _

/-- The row promoted after `n` accepted drafts is one of the pass's rows. -/
theorem laRowsFor_getD_mem {committed seqSize n : Nat} (hn : n < seqSize) :
    ((laRowsFor committed seqSize)[1 + n]?).getD 0 ∈ laRowsFor committed seqSize := by
  have hlt : 1 + n < (laRowsFor committed seqSize).length := by
    rw [laRowsFor_length]
    omega
  rw [List.getElem?_eq_getElem hlt, Option.getD_some]
  exact List.getElem_mem hlt

/-- The checkpoint promoted after `n` accepted drafts has absorbed what the
committed row had, and the first `n + 1` tokens of the pass. -/
theorem Lane.pagedForward_checkpoint (lane : Lane) (tokens : List Token)
    (past committed : Nat) {n : Nat} (hn : n < tokens.length) :
    (lane.pagedForward tokens past (laRowsFor committed tokens.length) 1).laRows
        (((laRowsFor committed tokens.length)[1 + n]?).getD 0) =
      lane.laRows committed ++ tokens.take (n + 1) := by
  have hspare : n < (spareRows committed 0 tokens.length).length := by
    rw [spareRows_length]
    exact hn
  have hrow : ((laRowsFor committed tokens.length)[1 + n]?).getD 0 =
      (spareRows committed 0 tokens.length)[n] := by
    rw [laRowsFor, Nat.add_comm, List.getElem?_cons_succ, List.getElem?_eq_getElem hspare]
    rfl
  rw [hrow]
  exact writeCheckpoints_getElem lane.laRows _ (spareRows_nodup committed 0 _) tokens hspare hn

end Arcint.Decode
