import Arcint.Decode.Drafters

/-! # What the DFlash drafter is fed

The drafter reads the target's feature rows of every position of its context, once
and in order. The last window of the prompt and the accepted rows of every verify
pass wait in a buffer until the next draft, which feeds them in steps below the
window. A gap switches the lane's drafter off until its next request.
-/

namespace Arcint.Decode

open Arcint.Core Foundation

/-- The head's sliding window. -/
def kDflashWindow : Nat := 2048

/-- What a load knows of its drafter. `select` is the path traced for a history: a token
for every position after the anchor, if the vocabulary has that many candidates. -/
structure DflashConfig where
  block : Nat
  topk : Nat
  vocab : Nat
  select : List Token → List Token
  select_length : 0 < topk → topk ≤ vocab → ∀ history, (select history).length = block - 1

structure DflashWindowPlan where
  keep : Nat
  feed : Nat
  deriving DecidableEq, Repr

def dflashWindowPlan (pending newRows window : Nat) : DflashWindowPlan :=
  let total := pending + newRows
  if window = 0 then ⟨total, total⟩
  else
    let keep := if window < total then window else total
    let cap := window - 1
    ⟨keep, if cap < keep then cap else keep⟩

/-- The feeds of some rows, from chunks of `cap`; the number of rows is fuel enough. -/
def feedChunks (cap : Nat) : Nat → Nat → List Nat
  | 0, _ => []
  | fuel + 1, remain =>
      if 0 < remain then
        let feed := if cap < remain then cap else remain
        feed :: feedChunks cap fuel (remain - feed)
      else []

def feedSteps (pending window : Nat) : List Nat :=
  feedChunks (if 0 < window then window - 1 else pending) pending pending

/-- The drafter of a lane. `fed` are the rows its state has taken in since its last
reset, with the positions they were fed at, and `feeds` the rows of each inference. -/
structure Dflash (R : Type) where
  pending : List R
  base : Option Nat
  off : Bool
  failCount : Nat
  fed : List (R × Nat)
  feeds : List Nat

namespace Dflash

variable {R : Type}

def laneFail (d : Dflash R) : Dflash R :=
  { d with off := true, failCount := d.failCount + 1, pending := [], base := none }

def reset (d : Dflash R) : Dflash R :=
  { d with pending := [], base := none, off := false, fed := [], feeds := [] }

/-- The buffer with new rows, cut to the most recent ones. -/
def buffer (d : Dflash R) (base : Nat) (rows : List R) : Dflash R :=
  let pending := d.pending ++ rows
  let plan := dflashWindowPlan pending.length 0 kDflashWindow
  if plan.keep < pending.length then
    let drop := pending.length - plan.keep
    { d with pending := pending.drop drop, base := some (base + drop) }
  else { d with pending, base := some base }

/-- Rows `[rowFrom, rowFrom + count)` of the last feature output, for the positions from
`pos` on. -/
def append (d : Dflash R) (features : List R) (rowFrom count pos : Nat) : Dflash R :=
  if d.off = true ∨ count = 0 then d
  else if features.length < rowFrom + count then d.laneFail
  else
    match d.base with
    | none => d.buffer pos ((features.drop rowFrom).take count)
    | some base =>
        if base + d.pending.length ≠ pos then d.laneFail
        else d.buffer base ((features.drop rowFrom).take count)

/-- The feeds of a draft, from row `off` of the buffer on. -/
def feedLoop (base : Nat) : Nat → List Nat → Dflash R → Dflash R
  | _, [], d => d
  | off, feed :: steps, d =>
      feedLoop base (off + feed) steps
        { d with
          fed := d.fed ++ ((d.pending.drop off).take feed).mapIdx fun i row => (row, base + off + i)
          feeds := d.feeds ++ [feed] }

/-- One draft for an anchor at `past`: the buffer is fed and emptied. -/
def draft (d : Dflash R) (path : List Token) (past : Nat) : List Token × Dflash R :=
  if d.off then ([], d)
  else
    match d.base with
    | none => ([], d.laneFail)
    | some base =>
        if d.pending.length = 0 ∨ base + d.pending.length ≠ past then ([], d.laneFail)
        else
          (path, { d.feedLoop base 0 (feedSteps d.pending.length kDflashWindow) with
            pending := [], base := some past })

end Dflash

namespace Request

variable {F Piece R : Type} [FloatOps F] (request : Request F Piece) (config : DflashConfig)
  (feature : List Token → R)

/-- Where the last window of a prompt starts in a chunk at `past`. -/
def windowFrom (n past : Nat) : Nat :=
  if kDflashWindow < n ∧ past < n - kDflashWindow then n - kDflashWindow - past else 0

/-- After a chunk of the prompt: its rows inside the last window. -/
def dflashPrime (s : DecodeState F Piece) (chunk : List Token) (d : Dflash R) : Dflash R :=
  if d.off = false ∧ request.prompt.length ≤ s.past + chunk.length + kDflashWindow then
    let rowFrom := windowFrom request.prompt.length s.past
    d.append (tokenRows feature s chunk) rowFrom (chunk.length - rowFrom) (s.past + rowFrom)
  else d

/-- The drafters after DFlash in the propose phase. -/
def proposeOther (s : DecodeState F Piece) : List Token :=
  let history := request.committed s
  if s.mtpReady then
    let d := request.mtpFeed history
    if 0 ≤ d then [d] else []
  else if s.drafting then (request.ngramDraft history).take request.draftsMax
  else []

def dflashPropose (s : DecodeState F Piece) (d : Dflash R) : List Token × Dflash R :=
  if request.params.greedy then
    if d.off = false then d.draft (config.select (request.committed s)) s.past
    else (request.proposeOther s, d)
  else ([], d)

/-- DFlash as a drafter of `generate_paged`. The plain step appends nothing. -/
def dflashHooks : DrafterHooks F Piece (Dflash R) where
  prime s chunk d := request.dflashPrime feature s chunk d
  propose s d := request.dflashPropose config s d
  plain _ d := d
  promote s drafts accepted d :=
    d.append (tokenRows feature s (s.next :: drafts)) 0 (accepted + 1) s.past

end Request

/-! ## Feeds -/

theorem feedChunks_spec {cap : Nat} (hcap : 0 < cap) {fuel remain : Nat} (hfuel : remain ≤ fuel) :
    (feedChunks cap fuel remain).sum = remain ∧
      ∀ feed ∈ feedChunks cap fuel remain, feed ≤ cap := by
  induction fuel generalizing remain with
  | zero =>
      obtain rfl := Nat.le_zero.mp hfuel
      exact ⟨rfl, fun feed hfeed => by cases hfeed⟩
  | succ fuel ih =>
      unfold feedChunks
      split
      next hpos =>
        have hfeed : 0 < (if cap < remain then cap else remain) ∧
            (if cap < remain then cap else remain) ≤ remain ∧
            (if cap < remain then cap else remain) ≤ cap := by
          split <;> omega
        have hrest : remain - (if cap < remain then cap else remain) ≤ fuel := by omega
        obtain ⟨hsum, hle⟩ := ih hrest
        dsimp only
        rw [List.sum_cons, hsum]
        refine ⟨by omega, fun feed hmem => ?_⟩
        rcases List.mem_cons.mp hmem with rfl | hrest
        · exact hfeed.2.2
        · exact hle feed ‹_›
      next hzero => exact ⟨by simp; omega, fun feed hfeed => by cases hfeed⟩

/-- The feeds of a draft are all of the buffer, and each stays below the window. -/
theorem feedSteps_spec (pending : Nat) :
    (feedSteps pending kDflashWindow).sum = pending ∧
      ∀ feed ∈ feedSteps pending kDflashWindow, feed < kDflashWindow := by
  have hcap : 0 < kDflashWindow - 1 := by decide
  obtain ⟨hsum, hle⟩ := feedChunks_spec hcap (Nat.le_refl pending)
  exact ⟨hsum, fun feed hfeed => Nat.lt_of_le_of_lt (hle feed hfeed) (by decide)⟩

section Context

variable {R : Type}

/-- Rows with the positions from `base` on. -/
def positioned (base : Nat) (rows : List R) : List (R × Nat) :=
  rows.mapIdx fun i row => (row, base + i)

theorem positioned_append (base : Nat) (first second : List R) :
    positioned base (first ++ second) =
      positioned base first ++ positioned (base + first.length) second := by
  simp [positioned, List.mapIdx_append, Nat.add_comm, Nat.add_left_comm]

/-- The loop feeds what is left of the buffer, in order, and touches nothing else. -/
theorem feedLoop_eq (base off : Nat) (steps : List Nat) (d : Dflash R)
    (hsum : off + steps.sum = d.pending.length) :
    d.feedLoop base off steps =
      { d with
        fed := d.fed ++ positioned (base + off) (d.pending.drop off)
        feeds := d.feeds ++ steps } := by
  induction steps generalizing off d with
  | nil =>
      rw [List.sum_nil, Nat.add_zero] at hsum
      simp [Dflash.feedLoop, hsum, positioned]
  | cons feed steps ih =>
      rw [List.sum_cons] at hsum
      have hlength : ((d.pending.drop off).take feed).length = feed := by
        simp only [List.length_take, List.length_drop]
        omega
      have hsplit : positioned (base + off) (d.pending.drop off) =
          positioned (base + off) ((d.pending.drop off).take feed) ++
            positioned (base + (off + feed)) (d.pending.drop (off + feed)) := by
        conv_lhs => rw [← List.take_append_drop feed (d.pending.drop off)]
        rw [positioned_append, hlength, List.drop_drop, Nat.add_assoc]
      unfold Dflash.feedLoop
      rw [ih _ _ (by rw [← hsum, Nat.add_assoc])]
      simp only [hsplit, List.append_assoc, List.singleton_append]
      rfl

variable (feature : List Token → R)

/-- The rows of the positions `[lo, p)` of a text. -/
def contextRows (x : List Token) (lo p : Nat) : List (R × Nat) :=
  positioned lo (rowsFrom feature x lo (p - lo))

variable {feature} {x y : List Token} {lo p : Nat}

theorem rowsFrom_append (x : List Token) (p m n : Nat) :
    rowsFrom feature x p m ++ rowsFrom feature x (p + m) n = rowsFrom feature x p (m + n) := by
  simp [rowsFrom, List.range_add, Nat.add_assoc]

theorem rowsFrom_drop_take (x : List Token) (p : Nat) {m n k : Nat} (hle : m + n ≤ k) :
    ((rowsFrom feature x p k).drop m).take n = rowsFrom feature x (p + m) n := by
  obtain ⟨rest, rfl⟩ := Nat.exists_eq_add_of_le hle
  rw [Nat.add_assoc m n rest, ← rowsFrom_append, List.drop_left' (length_rowsFrom p m),
    ← rowsFrom_append, List.take_left' (length_rowsFrom (p + m) n)]

theorem contextRows_append {q : Nat} (hlo : lo ≤ p) (hp : p ≤ q) :
    contextRows feature x lo p ++ positioned p (rowsFrom feature x p (q - p)) =
      contextRows feature x lo q := by
  obtain ⟨m, rfl⟩ := Nat.exists_eq_add_of_le hlo
  obtain ⟨n, rfl⟩ := Nat.exists_eq_add_of_le hp
  have hm : lo + m - lo = m := by omega
  have hn : lo + m + n - (lo + m) = n := by omega
  have hmn : lo + m + n - lo = m + n := by omega
  unfold contextRows
  rw [hm, hn, hmn, ← rowsFrom_append, positioned_append, length_rowsFrom]

theorem rowsFrom_of_begins (hbegins : x <+: y) {k : Nat} (hle : p + k ≤ x.length) :
    rowsFrom feature y p k = rowsFrom feature x p k := by
  obtain ⟨rest, rfl⟩ := hbegins
  unfold rowsFrom
  apply List.map_congr_left
  intro i hi
  have hi := List.mem_range.mp hi
  rw [List.take_append_of_le_length (by omega)]

theorem contextRows_of_begins (hbegins : x <+: y) (hle : p ≤ x.length) :
    contextRows feature y lo p = contextRows feature x lo p := by
  unfold contextRows
  rcases Nat.le_total lo p with hlo | hlo
  · rw [rowsFrom_of_begins hbegins (by omega)]
  · rw [Nat.sub_eq_zero_of_le hlo]
    rfl

@[simp] theorem contextRows_self : contextRows feature x lo lo = [] := by
  simp [contextRows, rowsFrom, positioned]

end Context

/-! ## The buffer -/

section Buffer

variable {R : Type} {d : Dflash R}

/-- Rows within the window are not cut. -/
theorem buffer_of_le {base : Nat} {rows : List R}
    (hle : d.pending.length + rows.length ≤ kDflashWindow) :
    d.buffer base rows = { d with pending := d.pending ++ rows, base := some base } := by
  have hkeep : (dflashWindowPlan (d.pending ++ rows).length 0 kDflashWindow).keep =
      (d.pending ++ rows).length := by
    have htotal : ¬ kDflashWindow < (d.pending ++ rows).length + 0 := by
      rw [List.length_append]
      omega
    unfold dflashWindowPlan
    rw [if_neg (by decide)]
    exact if_neg htotal
  unfold Dflash.buffer
  dsimp only
  rw [hkeep, if_neg (Nat.lt_irrefl _)]

/-- An append at the end of the buffer. -/
theorem append_of_base {features : List R} {rowFrom count pos : Nat} (base : Nat)
    (hoff : d.off = false)
    (hbase : d.base = some base ∨ d.base = none ∧ base = pos ∧ d.pending = [])
    (hpos : base + d.pending.length = pos) (hfeatures : rowFrom + count ≤ features.length)
    (hcount : 0 < count) (hle : d.pending.length + count ≤ kDflashWindow) :
    d.append features rowFrom count pos =
      { d with
        pending := d.pending ++ (features.drop rowFrom).take count
        base := some base } := by
  have hlength : ((features.drop rowFrom).take count).length = count := by
    simp only [List.length_take, List.length_drop]
    omega
  have hbuffer : d.buffer base ((features.drop rowFrom).take count) =
      { d with
        pending := d.pending ++ (features.drop rowFrom).take count
        base := some base } :=
    buffer_of_le (by rw [hlength]; exact hle)
  unfold Dflash.append
  rw [if_neg (by simp [hoff]; omega), if_neg (Nat.not_lt.mpr hfeatures)]
  obtain hsome | ⟨hnone, rfl, _⟩ := hbase
  · rw [hsome]
    dsimp only
    rw [if_neg (not_not.mpr hpos), hbuffer]
  · rw [hnone]
    exact hbuffer

end Buffer

/-! ## A request -/

section Fed

variable {R : Type} (feature : List Token → R)

/-- The drafter is on, no failure branch was taken since it had counted `failures`, what
it was fed are the rows of the positions `[lo, p)`, and every feed was below the window. -/
structure Fed (x : List Token) (lo p failures : Nat) (d : Dflash R) : Prop where
  on : d.off = false
  failures : d.failCount = failures
  rows : d.fed = contextRows feature x lo p
  feeds : ∀ feed ∈ d.feeds, feed < kDflashWindow

/-- The rows of the positions `[b, p)` wait in the buffer. -/
structure Waiting (x : List Token) (b p : Nat) (d : Dflash R) : Prop where
  base : d.base = some b
  pending : d.pending = rowsFrom feature x b (p - b)
  lt : b < p
  window : p - b ≤ kDflashWindow

variable {feature} {x y : List Token} {lo b p failures : Nat} {d : Dflash R}

theorem Fed.mono (hfed : Fed feature x lo p failures d) (hbegins : x <+: y)
    (hle : p ≤ x.length) : Fed feature y lo p failures d :=
  ⟨hfed.on, hfed.failures, hfed.rows.trans (contextRows_of_begins hbegins hle).symm, hfed.feeds⟩

/-- A draft feeds all that waits. -/
theorem Waiting.draft (hwaiting : Waiting feature x b p d)
    (hfed : Fed feature x lo b failures d) (hlo : lo ≤ b) (path : List Token) :
    (d.draft path p).1 = path ∧ (d.draft path p).2.base = some p ∧
      (d.draft path p).2.pending = [] ∧ Fed feature x lo p failures (d.draft path p).2 := by
  have hlength : d.pending.length = p - b := by
    rw [hwaiting.pending, length_rowsFrom]
  have hlt := hwaiting.lt
  obtain ⟨hsum, hfeeds⟩ := feedSteps_spec d.pending.length
  have hloop := feedLoop_eq b 0 (feedSteps d.pending.length kDflashWindow) d
    (by rw [Nat.zero_add, hsum])
  have hdraft : d.draft path p =
      (path, { d.feedLoop b 0 (feedSteps d.pending.length kDflashWindow) with
        pending := [], base := some p }) := by
    unfold Dflash.draft
    rw [hfed.on, if_neg Bool.false_ne_true, hwaiting.base]
    exact if_neg (by omega)
  rw [hdraft, hloop]
  refine ⟨rfl, rfl, rfl, hfed.on, hfed.failures, ?_, ?_⟩
  · show d.fed ++ positioned (b + 0) (d.pending.drop 0) = _
    rw [List.drop_zero, Nat.add_zero, hwaiting.pending, hfed.rows]
    exact contextRows_append hlo (Nat.le_of_lt hlt)
  · intro feed hfeed
    rcases List.mem_append.mp hfeed with hold | hnew
    · exact hfed.feeds feed hold
    · exact hfeeds feed hnew

end Fed

namespace Request

variable {F Piece R : Type} [FloatOps F] {request : Request F Piece} {config : DflashConfig}
  {feature : List Token → R}

/-- Where the drafter's context starts: at the warm start, or at the last window of the
prompt. -/
def contextFrom (request : Request F Piece) (hit : Option (PrefixHit request.prompt)) : Nat :=
  max ((hit.map PrefixHit.matched).getD 0) (request.prompt.length - kDflashWindow)

omit [FloatOps F] in
theorem contextFrom_lt {hit : Option (PrefixHit request.prompt)}
    (hprompt : 0 < request.prompt.length) : request.contextFrom hit < request.prompt.length := by
  have hwindow : 0 < kDflashWindow := by decide
  apply max_lt
  · cases hit with
    | none => exact hprompt
    | some hit => exact hit.lt
  · omega

/-- The buffer at a head of the prefill loop: empty up to the start of the context. -/
structure Primes (request : Request F Piece) (feature : List Token → R)
    (hit : Option (PrefixHit request.prompt)) (failures : Nat) (s : DecodeState F Piece)
    (d : Dflash R) : Prop where
  filling : request.Prefilling s
  warm : (hit.map PrefixHit.matched).getD 0 ≤ s.past
  fed : Fed feature request.prompt (request.contextFrom hit) (request.contextFrom hit) failures d
  base : d.base = if s.past ≤ request.contextFrom hit then none else some (request.contextFrom hit)
  pending : d.pending = rowsFrom feature request.prompt (request.contextFrom hit)
    (s.past - request.contextFrom hit)

omit [FloatOps F] in
/-- The first row of a chunk that is buffered, as a position. -/
theorem windowFrom_add {hit : Option (PrefixHit request.prompt)} {past : Nat}
    (hwarm : (hit.map PrefixHit.matched).getD 0 ≤ past) :
    past + windowFrom request.prompt.length past = max past (request.contextFrom hit) := by
  unfold windowFrom contextFrom
  rw [← max_assoc, max_eq_left hwarm]
  split
  next hbefore =>
    rw [max_eq_right (Nat.le_of_lt hbefore.2)]
    exact Nat.add_sub_of_le (Nat.le_of_lt hbefore.2)
  next hinside =>
    rw [max_eq_left (by omega)]
    rfl

section Prime

variable {hit : Option (PrefixHit request.prompt)} {s : DecodeState F Piece} {d : Dflash R}
  {chunk : List Token}

omit [FloatOps F] in
/-- Before the context, or exactly up to its edge, nothing is appended. -/
theorem dflashPrime_before (hwarm : (hit.map PrefixHit.matched).getD 0 ≤ s.past)
    (hend : s.past + chunk.length ≤ request.contextFrom hit) :
    request.dflashPrime feature s chunk d = d := by
  have hfrom := windowFrom_add hwarm
  have hzero : chunk.length - windowFrom request.prompt.length s.past = 0 := by omega
  unfold dflashPrime
  dsimp only
  rw [hzero]
  split
  · exact if_pos (.inr rfl)
  · rfl

omit [FloatOps F] in
/-- The chunk that reaches the context or goes on in it. -/
theorem dflashPrime_inside (hwarm : (hit.map PrefixHit.matched).getD 0 ≤ s.past)
    (hchunk : 0 < chunk.length) (hle : s.past + chunk.length ≤ request.prompt.length)
    (hend : request.contextFrom hit < s.past + chunk.length)
    (hrows : tokenRows feature s chunk =
      rowsFrom feature request.prompt s.past chunk.length)
    (hoff : d.off = false)
    (hbase : d.base =
      if s.past ≤ request.contextFrom hit then none else some (request.contextFrom hit))
    (hpending : d.pending = rowsFrom feature request.prompt (request.contextFrom hit)
      (s.past - request.contextFrom hit)) :
    request.dflashPrime feature s chunk d =
      { d with
        pending := rowsFrom feature request.prompt (request.contextFrom hit)
          (s.past + chunk.length - request.contextFrom hit)
        base := some (request.contextFrom hit) } := by
  have hfrom := windowFrom_add hwarm
  have hwindow : request.prompt.length - kDflashWindow ≤ request.contextFrom hit :=
    le_max_right _ _
  have hlength : d.pending.length = s.past - request.contextFrom hit := by
    rw [hpending, length_rowsFrom]
  have hpos : request.contextFrom hit + d.pending.length =
      s.past + windowFrom request.prompt.length s.past := by omega
  have hcount : s.past + chunk.length - request.contextFrom hit =
      s.past - request.contextFrom hit +
        (chunk.length - windowFrom request.prompt.length s.past) := by omega
  have hfits : d.pending.length + (chunk.length - windowFrom request.prompt.length s.past) ≤
      kDflashWindow := by
    rw [hlength, ← hcount]
    omega
  have hedge : d.base = some (request.contextFrom hit) ∨ d.base = none ∧
      request.contextFrom hit = s.past + windowFrom request.prompt.length s.past ∧
        d.pending = [] := by
    rw [hbase]
    split
    next hbefore =>
      refine .inr ⟨rfl, ?_, List.length_eq_zero_iff.mp ?_⟩
      · rw [hfrom, max_eq_right hbefore]
      · rw [hlength, Nat.sub_eq_zero_of_le hbefore]
    next => exact .inl rfl
  unfold dflashPrime
  rw [if_pos ⟨hoff, by omega⟩, hrows]
  dsimp only
  rw [append_of_base (request.contextFrom hit) hoff hedge hpos (by rw [length_rowsFrom]; omega)
    (by omega) hfits, rowsFrom_drop_take _ _ (by omega), ← hpos, hlength, hpending,
    rowsFrom_append, hcount]

omit [FloatOps F] in
/-- A chunk appends the rows of its positions in the context. -/
theorem dflashPrime_primes {failures : Nat} {grid : PrefillGrid}
    (hprimes : request.Primes feature hit failures s d) (hlt : s.past < request.prompt.length) :
    request.Primes feature hit failures (request.prefillStep grid s).1
      (request.dflashPrime feature s (request.chunkAt grid s) d) := by
  obtain ⟨hfilling, hwarm, hfed, hbase, hpending⟩ := hprimes
  have htake := grid.add_take_le hlt
  have hlength : (request.chunkAt grid s).length = grid.take request.prompt.length s.past := by
    rw [chunkAt, List.length_take, List.length_drop]
    omega
  have hnext : (request.prefillStep grid s).1.past = s.past + (request.chunkAt grid s).length := by
    rw [hlength]
    rfl
  have hrows := @tokenRows_chunkAt _ _ _ _ feature _ grid hfilling hlt
  have hchunk := grid.take_pos hlt
  rw [← hlength] at htake hrows hchunk
  have hwarm' : (hit.map PrefixHit.matched).getD 0 ≤ (request.prefillStep grid s).1.past := by
    rw [hnext]
    exact hwarm.trans (Nat.le_add_right _ _)
  have hfilling' := request.prefillStep_prefilling grid hfilling hlt
  rcases Nat.lt_or_ge (request.contextFrom hit) (s.past + (request.chunkAt grid s).length) with
    hinside | hbefore
  · rw [dflashPrime_inside hwarm hchunk htake hinside hrows hfed.on hbase hpending]
    refine ⟨hfilling', hwarm', ⟨hfed.on, hfed.failures, hfed.rows, hfed.feeds⟩, ?_, ?_⟩
    · rw [hnext, if_neg (Nat.not_le.mpr hinside)]
    · rw [hnext]
  · have hstart : s.past ≤ request.contextFrom hit := (Nat.le_add_right _ _).trans hbefore
    rw [dflashPrime_before hwarm hbefore]
    refine ⟨hfilling', hwarm', hfed, ?_, ?_⟩
    · rw [hbase, hnext, if_pos hstart, if_pos hbefore]
    · rw [hpending, hnext, Nat.sub_eq_zero_of_le hstart, Nat.sub_eq_zero_of_le hbefore]

end Prime

theorem prefillReaches_primes {grid : PrefillGrid} {lane : Lane} {rng : Nat}
    {hit : Option (PrefixHit request.prompt)} {start d : Dflash R} {s : DecodeState F Piece}
    (hreach : PrefillReaches request (request.dflashHooks config feature) grid
      (request.startState lane rng hit) start.reset s d) :
    request.Primes feature hit start.failCount s d := by
  induction hreach with
  | start =>
      have hpast : (request.startState lane rng hit).past ≤ request.contextFrom hit :=
        le_max_left _ _
      refine ⟨request.startState_prefilling lane rng hit, Nat.le_refl _, ⟨rfl, rfl, ?_, ?_⟩, ?_, ?_⟩
      · rw [contextRows_self]
        rfl
      · intro feed hfeed
        cases hfeed
      · rw [if_pos hpast]
        rfl
      · rw [Nat.sub_eq_zero_of_le hpast]
        rfl
  | chunk _ hlt ih => exact dflashPrime_primes ih hlt

/-- At a loop head what was fed ends where the buffer starts, and the buffer ends at
`past`. -/
def Feeds (request : Request F Piece) (feature : List Token → R) (lo failures : Nat)
    (p : DecodeState F Piece × Dflash R) : Prop :=
  request.Absorbed p.1 ∧
    ∃ b, lo ≤ b ∧ Fed feature (request.committed p.1) lo b failures p.2 ∧
      Waiting feature (request.committed p.1) b p.1.past p.2

/-- The pass from a loop head verifies drafts and gets fewer rows than tokens. -/
def ShortVerify (request : Request F Piece) {D : Type} (hooks : DrafterHooks F Piece D)
    (p : DecodeState F Piece × D) : Prop :=
  (request.verifyRows p.1 (hooks.propose (request.commit p.1 p.1.next).1 p.2).1).length <
    (p.1.next :: (hooks.propose (request.commit p.1 p.1.next).1 p.2).1).length

section Pass

variable {s : DecodeState F Piece} {d : Dflash R} {lo failures : Nat}

omit [FloatOps F] in
theorem Absorbed.length_committed (habsorbed : request.Absorbed s) :
    (request.committed s).length = s.past := by
  rw [habsorbed.past, committed, List.length_append, DecodeState.emittedTokens, List.length_map]

/-- The propose phase feeds everything up to `past`. -/
theorem dflashPropose_fed (hgreedy : request.params.greedy = true)
    (hfeeds : request.Feeds feature lo failures (s, d)) :
    (request.dflashPropose config (request.commit s s.next).1 d).1 =
        config.select (request.committed (request.commit s s.next).1) ∧
      (request.dflashPropose config (request.commit s s.next).1 d).2.base = some s.past ∧
      (request.dflashPropose config (request.commit s s.next).1 d).2.pending = [] ∧
      Fed feature (request.committed s) lo s.past failures
        (request.dflashPropose config (request.commit s s.next).1 d).2 := by
  obtain ⟨_, b, hlo, hfed, hwaiting⟩ := hfeeds
  have hpropose : request.dflashPropose config (request.commit s s.next).1 d =
      d.draft (config.select (request.committed (request.commit s s.next).1)) s.past := by
    unfold dflashPropose
    rw [if_pos hgreedy, if_pos hfed.on]
    rfl
  rw [hpropose]
  exact hwaiting.draft hfed hlo _

/-- A promotion buffers the rows of `next` and of the accepted drafts. -/
theorem promote_feeds {drafts : List Token} (habsorbed : request.Absorbed s)
    (hfed : Fed feature (request.committed s) lo s.past failures d) (hlo : lo ≤ s.past)
    (hbase : d.base = some s.past) (hpending : d.pending = [])
    (hdrafts : drafts.length < kDflashWindow)
    (hstop : (request.verifyAccept (request.commit s s.next).1 drafts).stop = none) :
    request.Feeds feature lo failures
      (request.advance (request.commit s s.next).1 drafts,
        d.append (tokenRows feature (request.commit s s.next).1 (s.next :: drafts)) 0
          ((request.verifyAccept (request.commit s s.next).1 drafts).accepted + 1) s.past) := by
  have hlength := habsorbed.length_committed
  have hnext := request.advance_absorbed habsorbed hstop
  obtain ⟨n, hle, haccepted, hafter⟩ := request.committed_advance hstop
  obtain ⟨y, hy⟩ : ∃ y, y = request.committed s ++ (s.next :: drafts).take (n + 1) := ⟨_, rfl⟩
  have hpast : (request.advance (request.commit s s.next).1 drafts).past = s.past + (n + 1) := by
    show s.past + 1 + (request.verifyAccept (request.commit s s.next).1 drafts).accepted = _
    rw [haccepted]
    omega
  have hrows : ((tokenRows feature (request.commit s s.next).1 (s.next :: drafts)).drop 0).take
      (n + 1) = rowsFrom feature y s.past (n + 1) := by
    apply List.ext_getElem?
    intro j
    rcases Nat.lt_or_ge j (n + 1) with hj | hj
    · rw [List.getElem?_take_of_lt hj, List.drop_zero, rowsFrom_getElem? hj, ← hlength]
      exact tokenRows_verify habsorbed hy hle (Nat.le_of_lt_succ hj)
    · rw [List.getElem?_eq_none (Nat.le_trans (List.length_take_le _ _) hj),
        List.getElem?_eq_none (by rw [length_rowsFrom]; exact hj)]
  rw [haccepted, append_of_base s.past hfed.on (.inl hbase) (by rw [hpending]; rfl)
    (by simp [tokenRows]; exact hle) (Nat.succ_pos n) (by rw [hpending]; simp; omega), hrows,
    hpending]
  refine ⟨hnext, s.past, hlo, ?_, rfl, ?_, ?_, ?_⟩
  · rw [hafter]
    refine Fed.mono ⟨hfed.on, hfed.failures, hfed.rows, hfed.feeds⟩ (List.prefix_append _ _) ?_
    exact Nat.le_of_eq hlength.symm
  · rw [hafter, hpast, ← hy, Nat.add_sub_cancel_left]
    rfl
  · rw [hpast]
    omega
  · rw [hpast]
    omega

/-- A pass keeps the context, if it is not one with too few rows. -/
theorem trackedPass_feeds {p next : DecodeState F Piece × Dflash R}
    (hgreedy : request.params.greedy = true) (hblock : 2 ≤ config.block)
    (hwindow : config.block ≤ kDflashWindow) (htopk : 0 < config.topk)
    (hvocab : config.topk ≤ config.vocab) (hfeeds : request.Feeds feature lo failures p)
    (hrows : ¬ request.ShortVerify (request.dflashHooks config feature) p)
    (hagain : request.trackedPass (request.dflashHooks config feature) p = .again next) :
    request.Feeds feature lo failures next := by
  obtain ⟨s, d⟩ := p
  obtain ⟨next, last⟩ := next
  obtain ⟨hdrafts, hbase, hpending, hfed⟩ := @dflashPropose_fed _ _ _ _ _ config _ _ _ _ _
    hgreedy hfeeds
  obtain ⟨habsorbed, b, hlo, _, hwaiting⟩ := hfeeds
  have hlength := config.select_length htopk hvocab
    (request.committed (request.commit s s.next).1)
  obtain ⟨hnone, _⟩ | ⟨drafts, hproposed, _, ⟨hshort, _⟩ | ⟨hstop, rfl, rfl⟩⟩ :=
    trackedPass_again_cases hagain
  · -- a block of two or more always proposes
    have hempty : config.select (request.committed (request.commit s s.next).1) = [] :=
      hdrafts.symm.trans hnone
    rw [hempty, List.length_nil] at hlength
    omega
  · refine absurd ?_ hrows
    unfold ShortVerify
    rw [hproposed]
    exact hshort
  · have hproposal : drafts = config.select (request.committed (request.commit s s.next).1) :=
      hproposed.symm.trans hdrafts
    refine promote_feeds habsorbed hfed (hlo.trans (Nat.le_of_lt hwaiting.lt)) hbase hpending ?_
      hstop
    rw [hproposal, hlength]
    omega

end Pass

/-- A loop head reached from the prefill without a pass with too few rows. -/
theorem trackedLoop_feeds {grid : PrefillGrid} {lane : Lane} {rng : Nat}
    {hit : Option (PrefixHit request.prompt)} {start d : Dflash R} {s : DecodeState F Piece}
    (hgreedy : request.params.greedy = true) (hblock : 2 ≤ config.block)
    (hwindow : config.block ≤ kDflashWindow) (htopk : 0 < config.topk)
    (hvocab : config.topk ≤ config.vocab)
    (hprefill : request.trackedPrefill (request.dflashHooks config feature) grid lane rng hit
      start.reset = (d, some s)) {n : Nat} {p : DecodeState F Piece × Dflash R}
    (hrows : ∀ m < n, ∀ q,
      (request.trackedLoop (request.dflashHooks config feature)).after m (s, d) = .again q →
        ¬ request.ShortVerify (request.dflashHooks config feature) q)
    (hp : (request.trackedLoop (request.dflashHooks config feature)).after n (s, d) = .again p) :
    request.Feeds feature (request.contextFrom hit) start.failCount p := by
  obtain ⟨hplain, before, hreach, hpast⟩ := trackedPrefill_some hprefill
  have hprompt : 0 < request.prompt.length := by
    apply List.length_pos_iff.mpr
    intro hnil
    simp [prefill, hnil] at hplain
  have hlt : request.contextFrom hit < request.prompt.length := contextFrom_lt hprompt
  have hprimes := prefillReaches_primes hreach
  induction n generalizing p with
  | zero =>
      cases hp
      obtain ⟨last, logits, hfilling, hend, rfl⟩ := request.prefill_prefilling hplain
      have htext : request.committed last = request.prompt := by
        simp [committed, DecodeState.emittedTokens, hfilling.emitted]
      refine ⟨(request.prefill_absorbed hplain).1, request.contextFrom hit, Nat.le_refl _, ?_, ?_⟩
      · show Fed feature (request.committed last) _ _ _ _
        rw [htext]
        exact hprimes.fed
      · show Waiting feature (request.committed last) _ last.past _
        rw [htext, hend]
        refine ⟨?_, ?_, hlt, ?_⟩
        · rw [hprimes.base, hpast, if_neg (by omega)]
        · rw [hprimes.pending, hpast]
        · have hwindow : request.prompt.length - kDflashWindow ≤ request.contextFrom hit :=
            le_max_right _ _
          omega
  | succ n ih =>
      obtain ⟨middle, hmiddle, hbody⟩ := Loop.exists_head_of_after_succ hp
      exact trackedPass_feeds hgreedy hblock hwindow htopk hvocab
        (ih (fun m hm => hrows m (Nat.lt_succ_of_lt hm)) hmiddle)
        (hrows n (Nat.lt_succ_self n) middle hmiddle) hbody

/-- For a greedy request with DFlash on any chunk and snapshot grid, cold or from a
snapshot, and whatever is accepted: no failure branch is taken, and what the drafter was
fed are the rows of consecutive positions, each once, which end at `past - 1` before
every draft, in feeds below the window. The block leaves room for a draft and fits the
window, the candidates exist, and no verify pass gets fewer rows than tokens. -/
theorem dflash_context_continuous (request : Request F Piece) (config : DflashConfig)
    (feature : List Token → R) (hgreedy : request.params.greedy = true)
    (hblock : 2 ≤ config.block) (hwindow : config.block ≤ kDflashWindow)
    (htopk : 0 < config.topk) (hvocab : config.topk ≤ config.vocab) (grid : PrefillGrid)
    (lane : Lane) (rng : Nat) (hit : Option (PrefixHit request.prompt)) (start : Dflash R) :
    (∀ s d, PrefillReaches request (request.dflashHooks config feature) grid
        (request.startState lane rng hit) start.reset s d →
      d.off = false ∧ d.failCount = start.failCount ∧ d.fed = []) ∧
    ∀ s d, request.trackedPrefill (request.dflashHooks config feature) grid lane rng hit
        start.reset = (d, some s) →
      ∀ n, (∀ m < n, ∀ q,
          (request.trackedLoop (request.dflashHooks config feature)).after m (s, d) = .again q →
            ¬ request.ShortVerify (request.dflashHooks config feature) q) →
        (∀ s' d', (request.trackedLoop (request.dflashHooks config feature)).after n (s, d) =
            .again (s', d') →
          (∃ b, Fed feature (request.committed s') (request.contextFrom hit) b start.failCount d') ∧
          Fed feature (request.committed s') (request.contextFrom hit) s'.past start.failCount
            (request.dflashPropose config (request.commit s' s'.next).1 d').2) ∧
        ∀ result d', (request.trackedLoop (request.dflashHooks config feature)).after n (s, d) =
            .leave (result, d') →
          ∃ b, Fed feature (request.committed result.state) (request.contextFrom hit) b
            start.failCount d' := by
  constructor
  · intro s d hreach
    have hfed := (prefillReaches_primes hreach).fed
    refine ⟨hfed.on, hfed.failures, ?_⟩
    rw [hfed.rows, contextRows_self]
  · intro s d hprefill n hrows
    constructor
    · intro s' d' hafter
      have hfeeds := trackedLoop_feeds hgreedy hblock hwindow htopk hvocab hprefill hrows hafter
      obtain ⟨_, _, _, hproposed⟩ := @dflashPropose_fed _ _ _ _ _ config _ _ _ _ _ hgreedy hfeeds
      obtain ⟨_, b, _, hfed, _⟩ := hfeeds
      exact ⟨⟨b, hfed⟩, hproposed⟩
    · intro result d' hafter
      obtain ⟨m, hm, ⟨last, lastDrafter⟩, hlast, hbody⟩ := Loop.exists_head_of_after_leave hafter
      have hfeeds := trackedLoop_feeds hgreedy hblock hwindow htopk hvocab hprefill
        (fun k hk => hrows k (hk.trans hm)) hlast
      have hproposed := (@dflashPropose_fed _ _ _ _ _ config _ _ _ _ _ hgreedy hfeeds).2.2.2
      obtain ⟨habsorbed, b, _, hfed, hwaiting⟩ := hfeeds
      have hlength := habsorbed.length_committed
      rcases trackedPass_leave_cases hbody with ⟨rfl, hbegins⟩ | ⟨rfl, hbegins⟩
      · refine ⟨b, hfed.mono hbegins ?_⟩
        rw [hlength]
        exact Nat.le_of_lt hwaiting.lt
      · refine ⟨last.past, hproposed.mono ?_ (Nat.le_of_eq hlength.symm)⟩
        rw [committed_commit] at hbegins
        exact (List.prefix_append _ _).trans hbegins

end Request

/-- A greedy request of one token on a graph that always prefers token 1. -/
def dflashOnes : Request Int Unit where
  prompt := [4]
  params := ⟨0, 1, 0, 1, 0, 0, -1, false⟩
  eosIds := []
  nCtx := 0
  draftsMax := 1
  decodeOne _ := ()
  onPiece _ := .proceed
  graph _ _ _ tokens := tokens.map fun _ => [0, 1]
  draw sampler _ := (0, sampler)
  dflashDraft _ := none
  mtpFeed _ := 1
  ngramDraft _ := []
  ensureBlocks _ := true
  dflash_le := noDflash_le
  mtpReady := false
  mtp_le := noMtp_le
  drafting := false

/-- A drafter that always drafts token 1. -/
def blockOfOnes (block : Nat) : DflashConfig where
  block := block
  topk := 1
  vocab := 2
  select _ := List.replicate (block - 1) 1
  select_length := by simp

def dflashOnesPrefill (block : Nat) : Dflash Nat × Option (DecodeState Int Unit) :=
  dflashOnes.trackedPrefill (dflashOnes.dflashHooks (blockOfOnes block) List.length) ⟨0, 0, false⟩
    ⟨fun _ => [], fun _ => 0⟩ 0 none (Dflash.mk [] none true 0 [] []).reset

theorem dflash_context_continuous_blockOfTwo :
    ∃ s d, dflashOnesPrefill 2 = (d, some s) ∧
      ∃ s' d', (dflashOnes.trackedLoop (dflashOnes.dflashHooks (blockOfOnes 2) List.length)).after 1
          (s, d) = .again (s', d') ∧ dflashOnes.committed s' = [4, 1, 1] ∧
        Fed List.length [4, 1, 1] 0 3 0
          (dflashOnes.dflashPropose (blockOfOnes 2) (dflashOnes.commit s' s'.next).1 d').2 := by
  have hfrom : dflashOnes.contextFrom none = 0 := by decide
  have hrun := (Request.dflash_context_continuous dflashOnes (blockOfOnes 2) List.length rfl
    (by decide) (by decide) (by decide) (by decide) ⟨0, 0, false⟩ ⟨fun _ => [], fun _ => 0⟩ 0 none
    (Dflash.mk [] none true 0 [] [])).2 _ _ rfl 1
  rw [hfrom] at hrun
  refine ⟨_, _, rfl, _, _, rfl, rfl, ((hrun ?_).1 _ _ rfl).2⟩
  intro m _ q _
  show ¬ (List.map _ _).length < _
  rw [List.length_map]
  exact Nat.lt_irrefl _

/-- A block of one has nothing to draft. Its plain step appends no row, and the next
draft finds the buffer empty and switches the drafter off. -/
theorem dflash_fails_blockOfOne :
    ∃ s d, dflashOnesPrefill 1 = (d, some s) ∧
      ∃ s' d', (dflashOnes.trackedLoop (dflashOnes.dflashHooks (blockOfOnes 1) List.length)).after 2
          (s, d) = .again (s', d') ∧ d'.off = true ∧ d'.failCount = 1 ∧ d'.fed = [(1, 0)] :=
  ⟨_, _, rfl, _, _, rfl, rfl, rfl, rfl⟩

end Arcint.Decode
