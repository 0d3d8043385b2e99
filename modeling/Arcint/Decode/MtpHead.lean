import Arcint.Decode.Drafters

/-! # What the MTP head is fed

The head predicts from the target's hidden state at a position and the token after
it, so it runs one position behind the target: a hidden row waits in the lane until
its token is known. Four paths complete such a pair: the priming of a prompt chunk,
the propose phase, the promotion of accepted drafts, and a restored snapshot.
-/

namespace Arcint.Decode

open Arcint.Core Foundation

/-- The head of a lane. `consumed` is what its layer has taken in since its last reset,
the state it was restored with included; `pending` is the row that waits for its token. -/
structure MtpHead (H : Type) where
  consumed : List (H × Token × Nat)
  len : Nat
  pos : Nat
  pending : Option H

namespace MtpHead

variable {H : Type}

def reset : MtpHead H := ⟨[], 0, 0, none⟩

/-- One inference over some pairs, at the positions from `pos` on. -/
def infer (head : MtpHead H) (pairs : List (H × Token)) : MtpHead H :=
  { head with
    consumed := head.consumed ++ pairs.mapIdx fun i pair => (pair.1, pair.2, head.pos + i)
    len := head.len + pairs.length
    pos := head.pos + pairs.length }

/-- A row outside the tensor leaves the head as it is. -/
def setPending (head : MtpHead H) (rows : List H) (row : Nat) : MtpHead H :=
  match rows[row]? with
  | some h => { head with pending := some h }
  | none => head

/-- Nothing is fed while no row is pending. -/
def feed (head : MtpHead H) (next : Token) : MtpHead H :=
  match head.pending with
  | some h => { head.infer [(h, next)] with pending := none }
  | none => head

def kPrimeSlice : Nat := 128

/-- The pairs in slices; their number is fuel enough. -/
def primeSlices : Nat → List (H × Token) → MtpHead H → MtpHead H
  | 0, _, head => head
  | fuel + 1, pairs, head =>
      if pairs.isEmpty then head
      else primeSlices fuel (pairs.drop kPrimeSlice) (head.infer (pairs.take kPrimeSlice))

/-- The pairs of a chunk: the carried row with the chunk's first token, then each row
with the token after it. -/
def primePairs (head : MtpHead H) (rows : List H) (chunk : List Token) : List (H × Token) :=
  (match head.pending with
    | some h => (chunk.take 1).map fun tok => (h, tok)
    | none => []) ++ rows.zip chunk.tail

def primePaged (head : MtpHead H) (rows : List H) (chunk : List Token) : MtpHead H :=
  if chunk.length = 0 then head
  else
    let pairs := head.primePairs rows chunk
    if pairs.length = 0 then head.setPending rows (chunk.length - 1)
    else
      ({ primeSlices pairs.length pairs head with pending := none }).setPending rows
        (chunk.length - 1)

/-- The promotion of drafts from row `i` on: each one completes the row before it, and
the row after the last one is left pending. -/
def promoteRows (rows : List H) : Nat → List Token → MtpHead H → MtpHead H
  | i, [], head => head.setPending rows i
  | i, draft :: drafts, head =>
      promoteRows rows (i + 1) drafts ((head.setPending rows i).feed draft)

end MtpHead

namespace Request

variable {F Piece H : Type} [FloatOps F] (request : Request F Piece) (hidden : List Token → H)

/-- The propose phase with the head: it is fed the token just committed. -/
def mtpPropose (s : DecodeState F Piece) (head : MtpHead H) : List Token × MtpHead H :=
  let history := request.committed s
  if request.params.greedy then
    match request.dflashDraft history with
    | some drafts => (drafts, head)
    | none =>
        if s.mtpReady then
          match head.pending with
          | none => ([], head)
          | some _ =>
              let d := request.mtpFeed history
              (if 0 ≤ d then [d] else [], head.feed s.next)
        else if s.drafting then ((request.ngramDraft history).take request.draftsMax, head)
        else ([], head)
  else ([], head)

/-- The MTP head as a drafter of `generate_paged`. -/
def mtpHooks : DrafterHooks F Piece (MtpHead H) where
  prime s chunk head :=
    if s.mtpReady then head.primePaged (tokenRows hidden s chunk) chunk else head
  propose s head := request.mtpPropose s head
  plain s head :=
    if s.mtpReady then head.setPending (tokenRows hidden s [s.next]) 0 else head
  promote s drafts accepted head :=
    if s.mtpReady then
      head.promoteRows (tokenRows hidden s (s.next :: drafts)) 0 (drafts.take accepted)
    else head

end Request

/-! ## The stream -/

section Stream

variable {H : Type} (hidden : List Token → H)

/-- What the head is to be fed at position `t` of a text. -/
def mtpTriple (x : List Token) (t : Nat) : H × Token × Nat :=
  (hidden (x.take (t + 1)), (x[t + 1]?).getD 0, t)

/-- The head has consumed the first `n` triples of a text, and counts them. -/
structure Follows (x : List Token) (n : Nat) (head : MtpHead H) : Prop where
  consumed : head.consumed = (List.range n).map (mtpTriple hidden x)
  len : head.len = n
  pos : head.pos = n
  within : n = 0 ∨ n < x.length

/-- After the first `p` tokens of a text: all complete pairs are consumed and the last
row is pending. -/
structure Primed (x : List Token) (p : Nat) (head : MtpHead H) : Prop where
  le : p ≤ x.length
  follows : Follows hidden x (p - 1) head
  pending : head.pending = if p = 0 then none else some (hidden (x.take p))

variable {hidden} {x y : List Token} {n : Nat} {head : MtpHead H}

theorem mtpTriple_of_prefix (hbegins : x <+: y) {t : Nat} (ht : t + 1 < x.length) :
    mtpTriple hidden y t = mtpTriple hidden x t := by
  obtain ⟨rest, rfl⟩ := hbegins
  unfold mtpTriple
  rw [List.take_append_of_le_length (Nat.le_of_lt ht), List.getElem?_append_left ht]

/-- What a head has consumed of a text it has consumed of every text with the same
tokens up to there. -/
theorem follows_of_begins (hbegins : x <+: y) (hwithin : n = 0 ∨ n < x.length) :
    Follows hidden y n head ↔ Follows hidden x n head := by
  have htriples : (List.range n).map (mtpTriple hidden y) =
      (List.range n).map (mtpTriple hidden x) := by
    apply List.map_congr_left
    intro t ht
    have ht := List.mem_range.mp ht
    exact mtpTriple_of_prefix hbegins (by omega)
  have hlength := hbegins.length_le
  constructor
  · intro hfollows
    exact ⟨hfollows.consumed.trans htriples, hfollows.len, hfollows.pos, hwithin⟩
  · intro hfollows
    exact ⟨hfollows.consumed.trans htriples.symm, hfollows.len, hfollows.pos, by omega⟩

theorem Follows.mono (hfollows : Follows hidden x n head) (hbegins : x <+: y) :
    Follows hidden y n head :=
  (follows_of_begins hbegins hfollows.within).mpr hfollows

/-- The row of the last token is pending. -/
theorem primed_of_last (hn : x.length = n + 1) (hfollows : Follows hidden x n head)
    (hpending : head.pending = some (hidden x)) : Primed hidden x x.length head := by
  refine ⟨Nat.le_refl _, ?_, ?_⟩
  · rw [hn, Nat.add_sub_cancel]
    exact hfollows
  · rw [hpending, if_neg (by omega), List.take_length]

/-- The tokens after `p` do not matter. -/
theorem primed_take {p : Nat} (hp : p ≤ y.length) :
    Primed hidden (y.take p) p head ↔ Primed hidden y p head := by
  have hlength : (y.take p).length = p := List.length_take_of_le hp
  have hfollows := @follows_of_begins H hidden (y.take p) y (p - 1) head (List.take_prefix p y)
    (by omega)
  constructor
  · rintro ⟨_, hfirst, hpending⟩
    rw [List.take_take, Nat.min_self] at hpending
    exact ⟨hp, hfollows.mpr hfirst, hpending⟩
  · rintro ⟨_, hfirst, hpending⟩
    refine ⟨Nat.le_of_eq hlength.symm, hfollows.mp hfirst, ?_⟩
    rw [List.take_take, Nat.min_self]
    exact hpending

/-- The pairs from position `n` on, in one inference. -/
theorem Follows.infer (hfollows : Follows hidden x n head) {k : Nat} {pairs : List (H × Token)}
    (hpairs : pairs = (List.range k).map fun i =>
      (hidden (x.take (n + i + 1)), (x[n + i + 1]?).getD 0))
    (hk : k = 0 ∨ n + k < x.length) : Follows hidden x (n + k) (head.infer pairs) := by
  have hlength : pairs.length = k := by simp [hpairs]
  refine ⟨?_, ?_, ?_, ?_⟩
  · show head.consumed ++ _ = _
    rw [hfollows.consumed, List.range_add, List.map_append, hfollows.pos, hpairs]
    congr 1
    apply List.ext_getElem
    · simp
    · intro i _ _
      simp [mtpTriple, Nat.add_assoc]
  · show head.len + pairs.length = n + k
    rw [hfollows.len, hlength]
  · show head.pos + pairs.length = n + k
    rw [hfollows.pos, hlength]
  · rcases hk with rfl | hlt
    · exact hfollows.within
    · exact .inr hlt

/-- A pending row and its token. -/
theorem Follows.feed (hfollows : Follows hidden x n head) (hlt : n + 1 < x.length)
    (hpending : head.pending = some (hidden (x.take (n + 1)))) :
    Follows hidden x (n + 1) (head.feed ((x[n + 1]?).getD 0)) ∧
      (head.feed ((x[n + 1]?).getD 0)).pending = none := by
  have hfed : head.feed ((x[n + 1]?).getD 0) =
      { head.infer [(hidden (x.take (n + 1)), (x[n + 1]?).getD 0)] with pending := none } := by
    unfold MtpHead.feed
    rw [hpending]
  rw [hfed]
  have hinfer : Follows hidden x (n + 1)
      (head.infer [(hidden (x.take (n + 1)), (x[n + 1]?).getD 0)]) :=
    hfollows.infer (by simp) (.inr hlt)
  exact ⟨⟨hinfer.consumed, hinfer.len, hinfer.pos, hinfer.within⟩, rfl⟩

/-! ## Priming -/

theorem infer_append (head : MtpHead H) (first second : List (H × Token)) :
    head.infer (first ++ second) = (head.infer first).infer second := by
  simp only [MtpHead.infer, List.mapIdx_append, List.length_append, List.append_assoc,
    Nat.add_assoc, Nat.add_comm, Nat.add_left_comm]

/-- The slices are one batch. -/
theorem primeSlices_eq (fuel : Nat) (pairs : List (H × Token)) (head : MtpHead H)
    (hfuel : pairs.length ≤ fuel) : MtpHead.primeSlices fuel pairs head = head.infer pairs := by
  induction fuel generalizing pairs head with
  | zero =>
      rw [List.length_eq_zero_iff.mp (Nat.le_zero.mp hfuel)]
      simp [MtpHead.primeSlices, MtpHead.infer]
  | succ fuel ih =>
      unfold MtpHead.primeSlices
      split
      next hempty =>
        rw [List.isEmpty_iff.mp hempty]
        simp [MtpHead.infer]
      next hpairs =>
        have hpos : 0 < pairs.length := List.length_pos_iff.mpr fun hnil => hpairs (by simp [hnil])
        rw [ih _ _ (by simp [MtpHead.kPrimeSlice]; omega), ← infer_append, List.take_append_drop]

/-- The pairs of a chunk go on where the pairs before it ended. -/
theorem primePairs_eq {p k : Nat} (hprimed : Primed hidden x p head) (hk : 0 < k)
    (hle : p + k ≤ x.length) :
    head.primePairs (rowsFrom hidden x p k) ((x.drop p).take k) =
      (List.range (p + k - 1 - (p - 1))).map fun i =>
        (hidden (x.take (p - 1 + i + 1)), (x[p - 1 + i + 1]?).getD 0) := by
  have hlength : ((x.drop p).take k).length = k := by
    simp only [List.length_take, List.length_drop]
    omega
  have htoken : ∀ i, i < k → ((x.drop p).take k)[i]? = some ((x[p + i]?).getD 0) := by
    intro i hi
    rw [List.getElem?_take_of_lt hi, List.getElem?_drop, List.getElem?_eq_getElem (by omega)]
    rfl
  unfold MtpHead.primePairs
  rw [hprimed.pending]
  cases hchunk : (x.drop p).take k with
  | nil =>
      rw [hchunk] at hlength
      exact absurd hlength (Nat.ne_of_lt hk)
  | cons first rest =>
      rw [hchunk] at hlength htoken
      have hrest : rest.length = k - 1 := by
        rw [← hlength]
        rfl
      have hfirst : first = (x[p]?).getD 0 := Option.some.inj (htoken 0 hk)
      have htail : ∀ i, i < k - 1 → rest[i]? = some ((x[p + i + 1]?).getD 0) :=
        fun i hi => htoken (i + 1) (by omega)
      have hzip : (rowsFrom hidden x p k).zip rest = (List.range (k - 1)).map fun i =>
          (hidden (x.take (p + i + 1)), (x[p + i + 1]?).getD 0) := by
        apply List.ext_getElem?
        intro i
        rcases Nat.lt_or_ge i (k - 1) with hi | hi
        · simp [List.getElem?_zip_eq_some, rowsFrom_getElem? (show i < k by omega), htail i hi, hi]
        · simp [rowsFrom, hrest, hi]
      rw [List.tail_cons, hzip]
      rcases Nat.eq_zero_or_pos p with rfl | hp
      · simp
      · obtain ⟨q, rfl⟩ := Nat.exists_eq_add_of_le' hp
        obtain ⟨m, rfl⟩ := Nat.exists_eq_add_of_le' hk
        have hcount : q + 1 + (m + 1) - 1 - (q + 1 - 1) = m + 1 := by omega
        rw [hcount, List.range_succ_eq_map, hfirst]
        simp [Nat.add_assoc, Nat.add_comm, Nat.add_left_comm]

theorem setPending_of_row {rows : List H} {row : Nat} {h : H} (hrow : rows[row]? = some h) :
    head.setPending rows row = { head with pending := some h } := by
  unfold MtpHead.setPending
  rw [hrow]

theorem Primed.primePaged {p k : Nat} (hprimed : Primed hidden x p head) (hk : 0 < k)
    (hle : p + k ≤ x.length) :
    Primed hidden x (p + k) (head.primePaged (rowsFrom hidden x p k) ((x.drop p).take k)) := by
  have hlength : ((x.drop p).take k).length = k := by
    simp only [List.length_take, List.length_drop]
    omega
  have hlast : (rowsFrom hidden x p k)[k - 1]? = some (hidden (x.take (p + k))) := by
    rw [rowsFrom_getElem? (by omega)]
    congr 3
    omega
  have hpairs := primePairs_eq hprimed hk hle
  have hinfer : Follows hidden x (p + k - 1)
      (head.infer (head.primePairs (rowsFrom hidden x p k) ((x.drop p).take k))) := by
    have hstep := hprimed.follows.infer hpairs (by omega)
    have hend : p - 1 + (p + k - 1 - (p - 1)) = p + k - 1 := by omega
    rw [hend] at hstep
    exact hstep
  have hpending : (some (hidden (x.take (p + k))) : Option H) =
      if p + k = 0 then none else some (hidden (x.take (p + k))) :=
    (if_neg (by omega)).symm
  unfold MtpHead.primePaged
  rw [hlength, if_neg (Nat.ne_of_gt hk)]
  dsimp only
  split
  next hnone =>
    rw [List.length_eq_zero_iff.mp hnone] at hinfer
    rw [setPending_of_row hlast]
    refine ⟨hle, ⟨?_, hinfer.len, hinfer.pos, hinfer.within⟩, hpending⟩
    simpa [MtpHead.infer] using hinfer.consumed
  next =>
    rw [primeSlices_eq _ _ _ (Nat.le_refl _), setPending_of_row hlast]
    exact ⟨hle, ⟨hinfer.consumed, hinfer.len, hinfer.pos, hinfer.within⟩, hpending⟩

/-! ## Promotion -/

/-- Promoting the tokens of a text from `p + i + 1` on, from a head that has consumed
everything before the row `i` of a forward at `p`. -/
theorem Follows.promoteRows {rows : List H} {p i : Nat} (drafts : List Token)
    (hfollows : Follows hidden x (p + i) head)
    (hdrafts : x.drop (p + i + 1) = drafts) (hi : p + i < x.length)
    (hrows : ∀ j ≤ i + drafts.length, rows[j]? = some (hidden (x.take (p + j + 1)))) :
    Follows hidden x (x.length - 1) (head.promoteRows rows i drafts) ∧
      (head.promoteRows rows i drafts).pending = some (hidden x) := by
  induction drafts generalizing i head with
  | nil =>
      have hend : x.length = p + i + 1 := by
        have hlength := congrArg List.length hdrafts
        simp only [List.length_drop, List.length_nil] at hlength
        omega
      unfold MtpHead.promoteRows
      rw [setPending_of_row (hrows i (Nat.le_refl i)), ← hend, List.take_length]
      refine ⟨⟨?_, ?_, ?_, ?_⟩, rfl⟩
      · rw [hend]
        exact hfollows.consumed
      · rw [hend]
        exact hfollows.len
      · rw [hend]
        exact hfollows.pos
      · omega
  | cons draft drafts ih =>
      have hlt : p + i + 1 < x.length := by
        have hlength := congrArg List.length hdrafts
        simp only [List.length_drop, List.length_cons] at hlength
        omega
      have hdraft : draft = (x[p + i + 1]?).getD 0 := by
        have hhead := congrArg List.head? hdrafts
        rw [List.head?_drop] at hhead
        rw [hhead]
        rfl
      unfold MtpHead.promoteRows
      rw [setPending_of_row (hrows i (Nat.le_add_right i _)), hdraft]
      have hset : Follows hidden x (p + i)
          { head with pending := some (hidden (x.take (p + i + 1))) } :=
        ⟨hfollows.consumed, hfollows.len, hfollows.pos, hfollows.within⟩
      apply ih (i := i + 1) (hset.feed hlt rfl).1
      · rw [show p + (i + 1) + 1 = p + i + 1 + 1 from rfl, ← List.tail_drop, hdrafts,
          List.tail_cons]
      · exact hlt
      · intro j hj
        apply hrows
        simp only [List.length_cons]
        omega

end Stream

namespace Request

variable {F Piece H : Type} [FloatOps F] {request : Request F Piece} {hidden : List Token → H}

/-! ## Prefill -/

/-- One chunk of the prompt. -/
theorem prime_primed {grid : PrefillGrid} {s : DecodeState F Piece} {head : MtpHead H}
    (hready : request.mtpReady = true) (hs : request.Prefilling s)
    (hlt : s.past < request.prompt.length) (hprimed : Primed hidden request.prompt s.past head) :
    Primed hidden request.prompt (request.prefillStep grid s).1.past
      ((request.mtpHooks hidden).prime s (request.chunkAt grid s) head) := by
  show Primed hidden request.prompt (s.past + grid.take request.prompt.length s.past)
    (if s.mtpReady then _ else head)
  rw [hs.flags.1, if_pos hready, tokenRows_chunkAt hs hlt]
  exact hprimed.primePaged (grid.take_pos hlt) (grid.add_take_le hlt)

/-- A head whose pairs are complete up to the start of the prefill keeps up with it. -/
theorem prefillReaches_primed {grid : PrefillGrid} {s last : DecodeState F Piece}
    {head lastHead : MtpHead H} (hready : request.mtpReady = true) (hs : request.Prefilling s)
    (hprimed : Primed hidden request.prompt s.past head)
    (hreach : PrefillReaches request (request.mtpHooks hidden) grid s head last lastHead) :
    request.Prefilling last ∧ Primed hidden request.prompt last.past lastHead := by
  induction hreach with
  | start => exact ⟨hs, hprimed⟩
  | chunk _ hlt ih =>
      exact ⟨request.prefillStep_prefilling grid ih.1 hlt, prime_primed hready ih.1 hlt ih.2⟩

variable (hidden)

/-- A head as `snapshot_paged` copies it, with the tokens of its prefix: at a head of
the prefill of some request, which started cold or from such a snapshot. -/
inductive MtpSnapshot : List Token → MtpHead H → Prop
  | cold (request : Request F Piece) (hready : request.mtpReady = true) {grid : PrefillGrid}
      {lane : Lane} {rng : Nat} {s : DecodeState F Piece} {head : MtpHead H}
      (hreach : PrefillReaches request (request.mtpHooks hidden) grid
        (request.startState lane rng none) .reset s head) :
      MtpSnapshot (request.prompt.take s.past) head
  | warm (request : Request F Piece) (hready : request.mtpReady = true) {grid : PrefillGrid}
      {lane : Lane} {rng : Nat} {hit : PrefixHit request.prompt} {start head : MtpHead H}
      {s : DecodeState F Piece}
      (hstart : MtpSnapshot (request.prompt.take hit.matched) start)
      (hreach : PrefillReaches request (request.mtpHooks hidden) grid
        (request.startState lane rng (some hit)) start s head) :
      MtpSnapshot (request.prompt.take s.past) head

/-- The head a request starts with: reset, or restored from a snapshot at the hit. -/
def MtpStarts (request : Request F Piece) :
    Option (PrefixHit request.prompt) → MtpHead H → Prop
  | none, head => head = .reset
  | some hit, head => @MtpSnapshot F Piece H _ hidden (request.prompt.take hit.matched) head

variable {hidden}

theorem primed_reset (x : List Token) : Primed hidden x 0 .reset :=
  ⟨Nat.zero_le _, ⟨rfl, rfl, rfl, .inl rfl⟩, rfl⟩

theorem MtpSnapshot.primed {x : List Token} {head : MtpHead H}
    (hsnapshot : @MtpSnapshot F Piece H _ hidden x head) :
    Primed hidden x x.length head := by
  induction hsnapshot with
  | cold request hready hreach =>
      obtain ⟨hlast, hprimed⟩ := prefillReaches_primed hready
        (request.startState_prefilling _ _ none) (primed_reset _) hreach
      rw [List.length_take_of_le hlast.le]
      exact (primed_take hlast.le).mpr hprimed
  | @warm request hready grid lane rng hit start head s hstart hreach ih =>
      rw [List.length_take_of_le hit.lt.le, primed_take hit.lt.le] at ih
      obtain ⟨hlast, hprimed⟩ := prefillReaches_primed hready
        (request.startState_prefilling _ _ (some hit)) ih hreach
      rw [List.length_take_of_le hlast.le]
      exact (primed_take hlast.le).mpr hprimed

theorem MtpStarts.primed {lane : Lane} {rng : Nat} {hit : Option (PrefixHit request.prompt)}
    {head : MtpHead H} (hstart : MtpStarts hidden request hit head) :
    Primed hidden request.prompt (request.startState lane rng hit).past head := by
  cases hit with
  | none =>
      cases hstart
      exact primed_reset _
  | some hit =>
      have hprimed := MtpSnapshot.primed hstart
      rw [List.length_take_of_le hit.lt.le] at hprimed
      exact (primed_take hit.lt.le).mp hprimed

/-! ## Decode -/

/-- A loop head: the head has consumed the first triples of the text, and while it is
served, all of them up to the last token, whose row is pending. -/
structure Streams (request : Request F Piece) (hidden : List Token → H)
    (p : DecodeState F Piece × MtpHead H) : Prop where
  follows : ∃ n, Follows hidden (request.committed p.1) n p.2
  served : p.1.mtpReady = true → request.Absorbed p.1 ∧
    Primed hidden (request.committed p.1) (request.committed p.1).length p.2

section Pass

variable {s : DecodeState F Piece} {head : MtpHead H}

omit [FloatOps F] in
/-- The propose phase feeds the pending row with the token just committed. -/
theorem feed_next (hpos : 0 < (request.committed s).length)
    (hprimed : Primed hidden (request.committed s) (request.committed s).length head) :
    Follows hidden (request.committed (request.commit s s.next).1) (request.committed s).length
        (head.feed s.next) ∧
      (head.feed s.next).pending = none := by
  obtain ⟨n, hn⟩ : ∃ n, (request.committed s).length = n + 1 :=
    ⟨_, (Nat.sub_add_cancel hpos).symm⟩
  obtain ⟨_, hfollows, hpending⟩ := hprimed
  have hbegins : request.committed s <+: request.committed s ++ [s.next] := List.prefix_append _ _
  have htake : (request.committed s ++ [s.next]).take (n + 1) = request.committed s :=
    List.take_left' hn
  have hnext : ((request.committed s ++ [s.next])[n + 1]?).getD 0 = s.next := by
    rw [List.getElem?_append_right (Nat.le_of_eq hn), hn]
    simp
  have hlt : n + 1 < (request.committed s ++ [s.next]).length := by
    rw [List.length_append, hn]
    exact Nat.lt_succ_self _
  rw [hn, List.take_of_length_le (Nat.le_of_eq hn), if_neg (Nat.succ_ne_zero n)] at hpending
  rw [hn, Nat.add_sub_cancel] at hfollows
  have hfed := (hfollows.mono hbegins).feed hlt (by rw [hpending, htake])
  rw [hnext] at hfed
  rw [committed_commit, hn]
  exact hfed

/-- The propose phase of a served head. -/
theorem mtpPropose_ready (hgreedy : request.params.greedy = true)
    (hdflash : ∀ history, request.dflashDraft history = none) (hready : s.mtpReady = true)
    (hpending : head.pending ≠ none) : (request.mtpPropose s head).2 = head.feed s.next := by
  unfold mtpPropose
  dsimp only
  rw [if_pos hgreedy, hdflash]
  dsimp only
  rw [if_pos hready]
  cases hrow : head.pending with
  | none => exact absurd hrow hpending
  | some h => rfl

/-- A head that is not served is not touched. -/
theorem mtpPropose_off (hdflash : ∀ history, request.dflashDraft history = none)
    (hoff : s.mtpReady = false) : (request.mtpPropose s head).2 = head := by
  unfold mtpPropose
  dsimp only
  rw [hdflash]
  dsimp only
  rw [hoff, if_neg Bool.false_ne_true]
  split
  · split <;> rfl
  · rfl

omit [FloatOps F] in
/-- A plain step leaves the row of its token pending. -/
theorem plain_primed (habsorbed : request.Absorbed s)
    (hfollows : Follows hidden (request.committed (request.commit s s.next).1)
      (request.committed s).length head) :
    Primed hidden (request.committed (request.commit s s.next).1)
      (request.committed (request.commit s s.next).1).length
      (head.setPending (tokenRows hidden (request.commit s s.next).1 [s.next]) 0) := by
  have hrow : (tokenRows hidden (request.commit s s.next).1 [s.next])[0]? =
      some (hidden (request.committed s ++ [s.next])) := by
    rw [← habsorbed.row]
    rfl
  rw [setPending_of_row hrow, committed_commit]
  rw [committed_commit] at hfollows
  exact primed_of_last (by simp) ⟨hfollows.consumed, hfollows.len, hfollows.pos, hfollows.within⟩
    rfl

/-- A promotion completes the rows before the accepted drafts and leaves the row of the
last one pending. -/
theorem promote_primed {drafts : List Token} (habsorbed : request.Absorbed s)
    (hfollows : Follows hidden (request.committed (request.commit s s.next).1)
      (request.committed s).length head)
    (hstop : (request.verifyAccept (request.commit s s.next).1 drafts).stop = none) :
    Primed hidden (request.committed (request.advance (request.commit s s.next).1 drafts))
      (request.committed (request.advance (request.commit s s.next).1 drafts)).length
      (head.promoteRows (tokenRows hidden (request.commit s s.next).1 (s.next :: drafts)) 0
        (drafts.take (request.verifyAccept (request.commit s s.next).1 drafts).accepted)) := by
  obtain ⟨n, hle, haccepted, hafter⟩ := request.committed_advance hstop
  obtain ⟨y, hy⟩ : ∃ y, y = request.committed s ++ (s.next :: drafts).take (n + 1) := ⟨_, rfl⟩
  have hbegins : request.committed (request.commit s s.next).1 <+: y := by
    refine ⟨drafts.take n, ?_⟩
    rw [hy, committed_commit, List.take_succ_cons, ← List.append_cons]
  have hlength : y.length = (request.committed s).length + n + 1 := by
    rw [hy, List.length_append, List.length_take_of_le (Nat.succ_le_succ hle)]
    omega
  rw [haccepted, hafter, ← hy]
  have hrows : ∀ j ≤ 0 + (drafts.take n).length,
      (tokenRows hidden (request.commit s s.next).1 (s.next :: drafts))[j]? =
        some (hidden (y.take ((request.committed s).length + j + 1))) := by
    intro j hj
    rw [List.length_take_of_le hle, Nat.zero_add] at hj
    exact tokenRows_verify habsorbed hy hle hj
  have hdrafts : y.drop ((request.committed s).length + 0 + 1) = drafts.take n := by
    rw [hy]
    simp
  obtain ⟨hstream, hpending⟩ := (hfollows.mono hbegins).promoteRows (i := 0) (drafts.take n)
    hdrafts (by omega) hrows
  exact primed_of_last (Nat.sub_add_cancel (by omega)).symm hstream hpending

omit [FloatOps F] in
theorem primed_pending (hpos : 0 < (request.committed s).length)
    (hprimed : Primed hidden (request.committed s) (request.committed s).length head) :
    head.pending ≠ none := by
  rw [hprimed.pending, if_neg (Nat.ne_of_gt hpos)]
  exact Option.some_ne_none _

/-- What the propose phase leaves: a longer stream of the text it has just committed. -/
theorem propose_follows (hgreedy : request.params.greedy = true)
    (hdflash : ∀ history, request.dflashDraft history = none)
    (hpos : 0 < (request.committed s).length) (hstreams : request.Streams hidden (s, head)) :
    ∃ n, Follows hidden (request.committed (request.commit s s.next).1) n
        (request.mtpPropose (request.commit s s.next).1 head).2 ∧
      (s.mtpReady = true → n = (request.committed s).length) := by
  cases hready : s.mtpReady with
  | true =>
      obtain ⟨_, hprimed⟩ := hstreams.served hready
      have hready' : (request.commit s s.next).1.mtpReady = true := hready
      refine ⟨_, ?_, fun _ => rfl⟩
      rw [mtpPropose_ready hgreedy hdflash hready' (primed_pending hpos hprimed)]
      exact (feed_next hpos hprimed).1
  | false =>
      obtain ⟨n, hfollows⟩ := hstreams.follows
      have hoff : (request.commit s s.next).1.mtpReady = false := hready
      refine ⟨n, ?_, fun hno => by cases hno⟩
      rw [mtpPropose_off hdflash hoff]
      refine hfollows.mono ?_
      rw [committed_commit]
      exact List.prefix_append _ _

/-- A pass keeps the stream. -/
theorem trackedPass_streams {next : DecodeState F Piece} {last : MtpHead H}
    (hgreedy : request.params.greedy = true)
    (hdflash : ∀ history, request.dflashDraft history = none)
    (hpos : 0 < (request.committed s).length) (hstreams : request.Streams hidden (s, head))
    (hagain : request.trackedPass (request.mtpHooks hidden) (s, head) = .again (next, last)) :
    request.Streams hidden (next, last) := by
  obtain ⟨n, hfollows, hserved⟩ := propose_follows hgreedy hdflash hpos hstreams
  obtain ⟨_, rfl, rfl⟩ | ⟨drafts, _, _, ⟨hshort, hstep, rfl⟩ | ⟨hstop, rfl, rfl⟩⟩ :=
    trackedPass_again_cases hagain
  · -- a plain step
    show request.Streams hidden (_, if s.mtpReady then _ else _)
    cases hready : s.mtpReady with
    | true =>
        rw [hserved hready] at hfollows
        obtain ⟨habsorbed, _⟩ := hstreams.served hready
        have hprimed := plain_primed habsorbed hfollows
        exact ⟨⟨_, hprimed.follows⟩, fun _ => ⟨request.plainStep_absorbed habsorbed, hprimed⟩⟩
    | false =>
        refine ⟨⟨n, hfollows⟩, fun hno => ?_⟩
        exact absurd (hready.symm.trans hno) Bool.false_ne_true
  · -- too few rows switch the head off
    obtain ⟨after, hafter, _, hemitted, _, hoff⟩ :=
      request.speculativeStep_short (request.commit s s.next).1 hshort
    rw [hafter] at hstep
    cases hstep
    refine ⟨⟨n, ?_⟩, fun hno => ?_⟩
    · have htext : request.committed next = request.committed (request.commit s s.next).1 := by
        unfold committed DecodeState.emittedTokens
        rw [hemitted]
      rw [htext]
      exact hfollows
    · rw [hoff] at hno
      cases hno
  · -- a promotion
    have hframe : (request.advance (request.commit s s.next).1 drafts).mtpReady = s.mtpReady :=
      (request.acceptDrafts_frame _ _ _ _ _).2.1
    show request.Streams hidden (_, if s.mtpReady then _ else _)
    cases hready : s.mtpReady with
    | true =>
        rw [hserved hready] at hfollows
        obtain ⟨habsorbed, _⟩ := hstreams.served hready
        have hprimed := promote_primed habsorbed hfollows hstop
        exact ⟨⟨_, hprimed.follows⟩,
          fun _ => ⟨request.advance_absorbed habsorbed hstop, hprimed⟩⟩
    | false =>
        refine ⟨⟨n, hfollows.mono ?_⟩, fun hno => ?_⟩
        · exact verifyAccept_prefix (request.commit s s.next).1 drafts
        · rw [hframe, hready] at hno
          cases hno

end Pass

/-- A loop head reached from the prefill. -/
theorem trackedLoop_streams {grid : PrefillGrid} {lane : Lane} {rng : Nat}
    {hit : Option (PrefixHit request.prompt)} {start head : MtpHead H}
    {s : DecodeState F Piece} (hgreedy : request.params.greedy = true)
    (hready : request.mtpReady = true) (hdflash : ∀ history, request.dflashDraft history = none)
    (hstart : MtpStarts hidden request hit start)
    (hprefill : request.trackedPrefill (request.mtpHooks hidden) grid lane rng hit start =
      (head, some s)) {n : Nat} {p : DecodeState F Piece × MtpHead H}
    (hp : (request.trackedLoop (request.mtpHooks hidden)).after n (s, head) = .again p) :
    0 < (request.committed p.1).length ∧ request.Streams hidden p := by
  obtain ⟨hplain, before, hreach, hpast⟩ := trackedPrefill_some hprefill
  have hprompt : 0 < request.prompt.length := by
    apply List.length_pos_iff.mpr
    intro hnil
    simp [prefill, hnil] at hplain
  have hpos : ∀ s : DecodeState F Piece, 0 < (request.committed s).length := by
    intro s
    rw [committed, List.length_append]
    omega
  obtain ⟨_, hprimed⟩ := prefillReaches_primed hready (request.startState_prefilling lane rng hit)
    hstart.primed hreach
  obtain ⟨hbefore, logits, hfilling, hend, rfl⟩ := request.prefill_prefilling hplain
  refine ⟨hpos _, Loop.head_invariant ?_ ?_ hp⟩
  · have htext : request.committed hbefore = request.prompt := by
      simp [committed, DecodeState.emittedTokens, hfilling.emitted]
    have hfirst : Primed hidden (request.committed hbefore) (request.committed hbefore).length
        head := by
      rw [htext, ← hpast]
      exact hprimed
    exact ⟨⟨_, hfirst.follows⟩, fun _ => ⟨(request.prefill_absorbed hplain).1, hfirst⟩⟩
  · rintro _ ⟨s, head⟩ ⟨next, last⟩ _ hstreams hbody
    exact trackedPass_streams hgreedy hdflash (hpos s) hstreams hbody

/-- For a greedy request that drafts with the MTP head, on any chunk and snapshot
grid, cold or from a snapshot, and whatever is accepted: at every head of the prefill
and of the decode loop and at the end of the request, the head has consumed exactly
the first triples of the text, in order, and counts them. While it is served it is
one position behind the target. -/
theorem mtpHead_follows (request : Request F Piece) (hidden : List Token → H)
    (hgreedy : request.params.greedy = true) (hready : request.mtpReady = true)
    (hdflash : ∀ history, request.dflashDraft history = none) (grid : PrefillGrid) (lane : Lane)
    (rng : Nat) (hit : Option (PrefixHit request.prompt)) (start : MtpHead H)
    (hstart : MtpStarts hidden request hit start) :
    (∀ s head, PrefillReaches request (request.mtpHooks hidden) grid
        (request.startState lane rng hit) start s head →
      Follows hidden (request.prompt.take s.past) (s.past - 1) head) ∧
    ∀ s head, request.trackedPrefill (request.mtpHooks hidden) grid lane rng hit start =
        (head, some s) →
      ∀ n,
        (∀ s' head', (request.trackedLoop (request.mtpHooks hidden)).after n (s, head) =
            .again (s', head') →
          ∃ k, Follows hidden (request.committed s') k head' ∧
            (s'.mtpReady = true → k + 1 = s'.past)) ∧
        ∀ result head', (request.trackedLoop (request.mtpHooks hidden)).after n (s, head) =
            .leave (result, head') →
          ∃ k, Follows hidden (request.committed result.state) k head' := by
  constructor
  · intro s head hreach
    obtain ⟨hfilling, hprimed⟩ := prefillReaches_primed hready
      (request.startState_prefilling lane rng hit) hstart.primed hreach
    exact ((primed_take hfilling.le).mpr hprimed).follows
  · intro s head hprefill n
    constructor
    · intro s' head' hafter
      obtain ⟨hpos, hstreams⟩ :=
        trackedLoop_streams hgreedy hready hdflash hstart hprefill hafter
      cases hserved : s'.mtpReady with
      | true =>
          obtain ⟨habsorbed, hprimed⟩ := hstreams.served hserved
          refine ⟨_, hprimed.follows, fun _ => ?_⟩
          have hlength : (request.committed s').length = s'.past := by
            rw [habsorbed.past, committed, List.length_append, DecodeState.emittedTokens,
              List.length_map]
          dsimp only at hpos ⊢
          omega
      | false =>
          obtain ⟨k, hfollows⟩ := hstreams.follows
          exact ⟨k, hfollows, fun hno => by cases hno⟩
    · intro result head' hafter
      obtain ⟨m, _, ⟨last, lastHead⟩, hlast, hbody⟩ := Loop.exists_head_of_after_leave hafter
      obtain ⟨hpos, hstreams⟩ := trackedLoop_streams hgreedy hready hdflash hstart hprefill hlast
      rcases trackedPass_leave_cases hbody with ⟨rfl, hbegins⟩ | ⟨rfl, hbegins⟩
      · obtain ⟨k, hfollows⟩ := hstreams.follows
        exact ⟨k, hfollows.mono hbegins⟩
      · obtain ⟨k, hfollows, _⟩ := propose_follows hgreedy hdflash hpos hstreams
        exact ⟨k, hfollows.mono hbegins⟩

end Request

/-- A greedy request of three tokens on a graph that always prefers token 1, with a head
that always drafts it. -/
def draftingOnes : Request Int Unit where
  prompt := [4, 5, 6]
  params := ⟨0, 1, 0, 1, 0, 0, -1, false⟩
  eosIds := []
  nCtx := 0
  draftsMax := 1
  decodeOne _ := ()
  onPiece _ := .proceed
  graph _ _ _ tokens := tokens.map fun _ => [0, 1]
  draw sampler _ := (0, sampler)
  dflashDraft _ := none
  mtpFeed _ := 1
  ngramDraft _ := []
  ensureBlocks _ := true
  dflash_le := noDflash_le
  mtpReady := true
  mtp_le := by simp
  drafting := false

/-- Chunks of two tokens, from a cold start. -/
def draftingOnesPrefill : MtpHead Nat × Option (DecodeState Int Unit) :=
  draftingOnes.trackedPrefill (draftingOnes.mtpHooks List.length) ⟨2, 0, false⟩
    ⟨fun _ => [], fun _ => 0⟩ 0 none .reset

theorem mtpHead_follows_draftingOnes :
    ∃ s head, draftingOnesPrefill = (head, some s) ∧
      ∃ s' head', (draftingOnes.trackedLoop (draftingOnes.mtpHooks List.length)).after 1 (s, head) =
          .again (s', head') ∧ draftingOnes.committed s' = [4, 5, 6, 1, 1] ∧
        ∃ k, Follows List.length [4, 5, 6, 1, 1] k head' ∧ (s'.mtpReady = true → k + 1 = 5) := by
  refine ⟨_, _, rfl, _, _, rfl, rfl, ?_⟩
  exact ((Request.mtpHead_follows draftingOnes List.length rfl rfl (fun _ => rfl) ⟨2, 0, false⟩
    ⟨fun _ => [], fun _ => 0⟩ 0 none .reset rfl).2 _ _ rfl 1).1 _ _ rfl

end Arcint.Decode
