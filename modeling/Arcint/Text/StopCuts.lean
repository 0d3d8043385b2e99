import Arcint.Text.Stop

/-! # Stop sequences in pieces

What the stop matcher has sent at any point of a run, and when the cut of the text into pieces
makes a difference: a stop string that lies inside another one completes first, and a piece
that ends between the two ends the generation at the inner one.
-/

namespace Arcint.Text

open Foundation StopMatcher

/-- Pushing pieces up to the first hit: the text pushed, the text sent, and whether a stop
string has completed. -/
structure Feed where
  pushed : Bytes
  sent : Bytes
  hit : Bool
  matcher : StopMatcher
  deriving DecidableEq, Repr

namespace Feed

def start (stops : List Bytes) : Feed := ⟨[], [], false, StopMatcher.new stops⟩

/-- A hit ends the pushing. -/
def push (feed : Feed) (piece : Bytes) : Feed :=
  if feed.hit = true then feed
  else
    let (step, matcher) := feed.matcher.push piece
    ⟨feed.pushed ++ piece, feed.sent ++ step.emit, step.hit, matcher⟩

def run (stops pieces : List Bytes) : Feed := pieces.foldl push (start stops)

/-- The text that is sent in the end, and the hit flag; what is held back is flushed where no
stop string has completed. -/
def outcome (stops pieces : List Bytes) : Bytes × Bool :=
  let feed := run stops pieces
  (if feed.hit = true then feed.sent else feed.sent ++ feed.matcher.flush.1, feed.hit)

end Feed

/-! ## The earliest stop string -/

section Earliest

variable {stops : List Bytes} {text : Bytes}

theorem earlier_map_add (n : Nat) (cut pos : Option Nat) :
    earlier (cut.map (n + ·)) (pos.map (n + ·)) = (earlier cut pos).map (n + ·) := by
  cases cut with
  | none => cases pos <;> rfl
  | some cut =>
      cases pos with
      | none => rfl
      | some pos =>
          simp only [Option.map_some, earlier, Nat.add_lt_add_iff_left]
          split <;> rfl

/-- The earliest stop string lies behind a clear beginning. -/
theorem cutAt_append {first : Bytes}
    (hclear : ∀ stop ∈ stops, Clear stop (first ++ text) first.length) (more : Bytes) :
    cutAt stops (first ++ text ++ more) =
      (cutAt stops (text ++ more)).map (first.length + ·) := by
  have hfold : ∀ start : Option Nat,
      stops.foldl (fun cut stop => earlier cut (find stop (first ++ text ++ more)))
          (start.map (first.length + ·)) =
        (stops.foldl (fun cut stop => earlier cut (find stop (text ++ more))) start).map
          (first.length + ·) := by
    induction stops with
    | nil => exact fun _ => rfl
    | cons stop stops ih =>
        intro start
        rw [List.foldl_cons, List.foldl_cons, (hclear stop List.mem_cons_self).find_append,
          earlier_map_add]
        exact ih (fun other h => hclear other (List.mem_cons_of_mem _ h)) _
  exact hfold none

theorem earlier_le {cut pos : Option Nat} {i j : Nat} (h : earlier cut pos = some i)
    (hj : cut = some j ∨ pos = some j) : i ≤ j := by
  cases cut with
  | none =>
      rcases hj with hj | rfl
      · cases hj
      · cases h
        exact Nat.le_refl _
  | some cut =>
      cases pos with
      | none =>
          rcases hj with hj | hj
          · cases h
            cases hj
            exact Nat.le_refl _
          · cases hj
      | some pos =>
          simp only [earlier, Option.some.injEq] at h hj
          split at h <;> simp only [Option.some.injEq] at h <;> omega

/-- No stop string starts before the earliest one. -/
theorem cutAt_le {i j : Nat} (h : cutAt stops text = some i) {stop : Bytes} (hstop : stop ∈ stops)
    (hoccurs : stop <+: text.drop j) : i ≤ j := by
  have hfold : ∀ start, stops.foldl (fun cut stop => earlier cut (find stop text)) start = some i →
      (∀ k, start = some k → i ≤ k) ∧ ∀ stop ∈ stops, ∀ k, find stop text = some k → i ≤ k := by
    clear h hstop hoccurs
    induction stops with
    | nil =>
        intro start h
        refine ⟨fun k hk => ?_, fun stop hstop => (by cases hstop)⟩
        rw [List.foldl_nil, hk] at h
        exact (Option.some.inj h).ge
    | cons first stops ih =>
        intro start h
        rw [List.foldl_cons] at h
        obtain ⟨hbefore, hrest⟩ := ih _ h
        cases hearlier : earlier start (find first text) with
        | none =>
            obtain ⟨hstart, hfirst⟩ := earlier_none.mp hearlier
            refine ⟨fun k hk => ?_, fun stop hstop k hk => ?_⟩
            · rw [hstart] at hk
              cases hk
            · rcases List.mem_cons.mp hstop with rfl | hstop
              · rw [hfirst] at hk
                cases hk
              · exact hrest stop hstop k hk
        | some least =>
            have hleast := hbefore least hearlier
            refine ⟨fun k hk => hleast.trans (earlier_le hearlier (.inl hk)),
              fun stop hstop k hk => ?_⟩
            rcases List.mem_cons.mp hstop with rfl | hstop
            · exact hleast.trans (earlier_le hearlier (.inr hk))
            · exact hrest stop hstop k hk
  cases hfind : find stop text with
  | none => exact absurd hoccurs (find_eq_none_iff.mp hfind j)
  | some k =>
      have hle := (hfold none h).2 stop hstop k hfind
      obtain ⟨-, -, hfirst⟩ := find_eq_some hfind
      rcases Nat.lt_or_ge j k with hlt | hge
      · exact absurd hoccurs (hfirst j hlt)
      · exact hle.trans hge

/-- The earliest stop string, said of the text. -/
theorem cutAt_eq_some_iff {i : Nat} :
    cutAt stops text = some i ↔
      (∃ stop ∈ stops, stop <+: text.drop i) ∧
        ∀ stop ∈ stops, ∀ j, stop <+: text.drop j → i ≤ j := by
  constructor
  · intro h
    obtain ⟨stop, hstop, hfind⟩ := cutAt_some h
    exact ⟨⟨stop, hstop, (find_eq_some hfind).1⟩, fun stop hstop j => cutAt_le h hstop⟩
  · rintro ⟨⟨stop, hstop, hoccurs⟩, hleast⟩
    cases hcut : cutAt stops text with
    | none => exact absurd hoccurs (find_eq_none_iff.mp (cutAt_none.mp hcut stop hstop) i)
    | some cut =>
        obtain ⟨other, hother, hfind⟩ := cutAt_some hcut
        have hle := hleast other hother cut (find_eq_some hfind).1
        exact congrArg some ((cutAt_le hcut hstop hoccurs).antisymm hle)

end Earliest

/-! ## Every point of a run -/

section Run

variable {stops pieces : List Bytes} {text : Bytes}

/-- The hit is at the earliest stop string of the text so far. -/
theorem Watches.push_hit (hne : ∀ stop ∈ stops, stop ≠ []) {seen piece : Bytes}
    {m : StopMatcher} (h : Watches stops seen m) (hhit : (m.push piece).1.hit = true) :
    ∃ cut, cutAt stops (seen ++ piece) = some cut ∧
      released stops seen ++ (m.push piece).1.emit = (seen ++ piece).take cut := by
  -- what was released is clear of stop strings, so the hit is in the buffer and the piece
  have hcuts := cutAt_append (h.clear hne) piece
  rw [h.seen_eq] at hcuts
  rw [StopMatcher.push] at hhit ⊢
  split at hhit
  next => cases hhit
  next hsome =>
    rw [if_neg hsome]
    dsimp only at hhit ⊢
    rw [h.same] at hhit ⊢
    cases hcut : cutAt stops (m.buffer ++ piece) with
    | none =>
        rw [hcut] at hhit
        cases hhit
    | some cut =>
        refine ⟨(released stops seen).length + cut, ?_, ?_⟩
        · rw [hcuts, hcut, Option.map_some]
        · have hseen : seen ++ piece = released stops seen ++ (m.buffer ++ piece) := by
            rw [← List.append_assoc, h.seen_eq]
          rw [hseen, List.take_length_add_append]

/-- Where a run stands: the released text is sent, or the text before the earliest stop
string. -/
inductive Feed.Follows (stops : List Bytes) (feed : Feed) : Prop
  | watching (hhit : feed.hit = false) (hwatches : Watches stops feed.pushed feed.matcher)
      (hsent : feed.sent = released stops feed.pushed)
  | stopped (cut : Nat) (hhit : feed.hit = true) (hcut : cutAt stops feed.pushed = some cut)
      (hsent : feed.sent = feed.pushed.take cut)

theorem Feed.Follows.push (hne : ∀ stop ∈ stops, stop ≠ []) {feed : Feed}
    (h : feed.Follows stops) (piece : Bytes) : (feed.push piece).Follows stops := by
  rw [Feed.push]
  cases h with
  | stopped cut hhit hcut hsent =>
      rw [if_pos hhit]
      exact .stopped cut hhit hcut hsent
  | watching hhit hwatches hsent =>
      rw [if_neg (by rw [hhit]; decide)]
      dsimp only
      cases hstep : (feed.matcher.push piece).1.hit with
      | true =>
          obtain ⟨cut, hcut, htake⟩ := hwatches.push_hit hne hstep
          rw [← hsent] at htake
          exact .stopped cut rfl hcut htake
      | false =>
          have hpushed := hwatches.push hne piece
          generalize feed.matcher.push piece = out at hpushed hstep
          cases hpushed with
          | hit => cases hstep
          | more emit m hnext hreleased =>
              rw [hsent]
              exact .watching rfl hnext hreleased.symm

/-- The stop strings that are watched for. -/
def kept (stops : List Bytes) : List Bytes := stops.filter (· ≠ [])

theorem mem_kept {stop : Bytes} : stop ∈ kept stops ↔ stop ∈ stops ∧ stop ≠ [] := by
  simp [kept]

theorem ne_nil_of_mem_kept : ∀ stop ∈ kept stops, stop ≠ [] := fun _ h => (mem_kept.mp h).2

theorem Feed.run_concat (stops pieces : List Bytes) (piece : Bytes) :
    Feed.run stops (pieces ++ [piece]) = (Feed.run stops pieces).push piece := by
  simp [Feed.run]

theorem Feed.run_follows (stops pieces : List Bytes) :
    (Feed.run stops pieces).Follows (kept stops) := by
  induction pieces using List.reverseRecOn with
  | nil =>
      refine .watching rfl ⟨rfl, fun stop hstop => ?_, List.drop_nil.symm⟩ (released_nil _).symm
      exact if_neg (ne_nil_of_mem_kept stop hstop)
  | append_singleton pieces piece ih =>
      rw [Feed.run_concat]
      exact ih.push ne_nil_of_mem_kept piece

/-- What has been pushed is the pieces, or the first of them where a stop string has
completed. -/
theorem Feed.run_pushed (stops pieces : List Bytes) :
    ∃ k ≤ pieces.length, (Feed.run stops pieces).pushed = (pieces.take k).flatten ∧
      ((Feed.run stops pieces).hit = false → k = pieces.length) := by
  induction pieces using List.reverseRecOn with
  | nil => exact ⟨0, Nat.le_refl _, rfl, fun _ => rfl⟩
  | append_singleton pieces piece ih =>
      obtain ⟨k, hk, hpushed, hall⟩ := ih
      rw [Feed.run_concat, Feed.push, List.length_append, List.length_singleton]
      split
      next hhit =>
        refine ⟨k, hk.trans (Nat.le_succ _), ?_, fun hmiss => ?_⟩
        · rw [List.take_append_of_le_length hk, hpushed]
        · rw [hhit] at hmiss
          cases hmiss
      next hhit =>
        refine ⟨pieces.length + 1, Nat.le_refl _, ?_, fun _ => rfl⟩
        rw [List.take_of_length_le (by simp), List.flatten_append, List.flatten_singleton,
          hpushed, hall (Bool.not_eq_true _ ▸ hhit), List.take_length]

theorem Feed.run_pushed_of_miss (h : (Feed.run stops pieces).hit = false) :
    (Feed.run stops pieces).pushed = pieces.flatten := by
  obtain ⟨k, -, hpushed, hall⟩ := Feed.run_pushed stops pieces
  rw [hpushed, hall h, List.take_length]

/-- What is held back may still become a stop string. -/
theorem hold_lt (hne : ∀ stop ∈ stops, stop ≠ []) :
    hold stops text = 0 ∨ ∃ stop ∈ stops, hold stops text < stop.length := by
  induction stops with
  | nil => exact .inl rfl
  | cons stop stops ih =>
      have hstop : partialStopSuffix text stop < stop.length := by
        have hpos := List.length_pos_iff.mpr (hne stop List.mem_cons_self)
        have hle := partialSuffix_le stop text (min text.length (stop.length - 1))
        rw [partialStopSuffix, if_neg (hne stop List.mem_cons_self)]
        omega
      rw [hold_cons]
      rcases ih fun other h => hne other (List.mem_cons_of_mem _ h) with
        hzero | ⟨other, hother, hlt⟩
      · rw [hzero, Nat.max_zero]
        exact .inr ⟨stop, List.mem_cons_self, hstop⟩
      · rcases Nat.le_total (partialStopSuffix text stop) (hold stops text) with hle | hle
        · rw [Nat.max_eq_right hle]
          exact .inr ⟨other, List.mem_cons_of_mem _ hother, hlt⟩
        · rw [Nat.max_eq_left hle]
          exact .inr ⟨stop, List.mem_cons_self, hstop⟩

/-- A stop string inside the beginning of a text starts and ends there. -/
theorem occurs_of_infix {stop sent : Bytes} (h : stop <:+: sent) (hsent : sent <+: text) :
    ∃ i, i + stop.length ≤ sent.length ∧ stop <+: text.drop i := by
  obtain ⟨before, behind, rfl⟩ := h
  obtain ⟨more, rfl⟩ := hsent
  refine ⟨before.length, ?_, behind ++ more, ?_⟩
  · rw [List.length_append, List.length_append]
    exact Nat.le_add_right _ _
  · rw [List.append_assoc, List.append_assoc, List.drop_left]

namespace Feed.Follows

variable {feed : Feed}

theorem begins (h : feed.Follows stops) : feed.sent <+: feed.pushed := by
  cases h with
  | watching _ _ hsent =>
      rw [hsent]
      exact List.take_prefix _ _
  | stopped _ _ _ hsent =>
      rw [hsent]
      exact List.take_prefix _ _

/-- No stop string is part of what is sent: none is part of a text that is still watched, and
the earliest one ends behind what is sent before it. -/
theorem clear (h : feed.Follows stops) {stop : Bytes} (hstop : stop ∈ stops) (hne : stop ≠ []) :
    ¬stop <:+: feed.sent := by
  intro hinfix
  obtain ⟨i, hend, hoccurs⟩ := occurs_of_infix hinfix h.begins
  cases h with
  | watching _ hwatches _ => exact find_eq_none_iff.mp (hwatches.unstopped stop hstop) i hoccurs
  | stopped cut _ hcut hsent =>
      have hle := cutAt_le hcut hstop hoccurs
      have hpos := List.length_pos_iff.mpr hne
      have hlength : feed.sent.length ≤ cut := by
        rw [hsent]
        exact List.length_take_le _ _
      omega

/-- Without a hit the rest is held back, and it is shorter than a stop string. -/
theorem held (h : feed.Follows stops) (hne : ∀ stop ∈ stops, stop ≠ []) (hhit : feed.hit = false) :
    feed.sent ++ feed.matcher.buffer = feed.pushed ∧ (feed.matcher.buffer = [] ∨
      ∃ stop ∈ stops, feed.matcher.buffer.length < stop.length) := by
  cases h with
  | watching _ hwatches hsent =>
      refine ⟨by rw [hsent, hwatches.seen_eq], ?_⟩
      have hlength : feed.matcher.buffer.length = hold stops feed.pushed := by
        rw [hwatches.buffer, List.length_drop]
        exact Nat.sub_sub_self (hold_le_length _ _)
      rw [← List.length_eq_zero_iff, hlength]
      exact hold_lt hne
  | stopped _ htrue =>
      rw [hhit] at htrue
      cases htrue

/-- At a hit a stop string comes right behind what is sent. -/
theorem stops_next (h : feed.Follows stops) (hhit : feed.hit = true) :
    ∃ stop ∈ stops, feed.sent ++ stop <+: feed.pushed := by
  cases h with
  | watching hfalse =>
      rw [hhit] at hfalse
      cases hfalse
  | stopped cut _ hcut hsent =>
      obtain ⟨⟨stop, hstop, more, hmore⟩, -⟩ := cutAt_eq_some_iff.mp hcut
      refine ⟨stop, hstop, more, ?_⟩
      rw [hsent, List.append_assoc, hmore, List.take_append_drop]

end Feed.Follows

/-- Nothing is sent of a stop string or behind it, and without one nothing is lost. -/
theorem feed_clean (stops pieces : List Bytes) :
    (∃ k, (Feed.run stops pieces).pushed = (pieces.take k).flatten) ∧
      (Feed.run stops pieces).sent <+: (Feed.run stops pieces).pushed ∧
      (∀ stop ∈ stops, stop ≠ [] → ¬stop <:+: (Feed.run stops pieces).sent) ∧
      ((Feed.run stops pieces).hit = false →
        (Feed.run stops pieces).sent ++ (Feed.run stops pieces).matcher.flush.1 =
            pieces.flatten ∧
          ((Feed.run stops pieces).matcher.buffer = [] ∨
            ∃ stop ∈ stops, (Feed.run stops pieces).matcher.buffer.length < stop.length)) ∧
      ((Feed.run stops pieces).hit = true →
        ∃ stop ∈ stops, stop ≠ [] ∧
          (Feed.run stops pieces).sent ++ stop <+: (Feed.run stops pieces).pushed) := by
  obtain ⟨k, -, hpushed, -⟩ := Feed.run_pushed stops pieces
  have hfollows := Feed.run_follows stops pieces
  refine ⟨⟨k, hpushed⟩, hfollows.begins,
    fun stop hstop hne => hfollows.clear (mem_kept.mpr ⟨hstop, hne⟩) hne, fun hmiss => ?_,
    fun hhit => ?_⟩
  · obtain ⟨htext, hshort⟩ := hfollows.held ne_nil_of_mem_kept hmiss
    refine ⟨htext.trans (Feed.run_pushed_of_miss hmiss), hshort.imp_right ?_⟩
    rintro ⟨stop, hstop, hlt⟩
    exact ⟨stop, (mem_kept.mp hstop).1, hlt⟩
  · obtain ⟨stop, hstop, hnext⟩ := hfollows.stops_next hhit
    obtain ⟨hmem, hne⟩ := mem_kept.mp hstop
    exact ⟨stop, hmem, hne, hnext⟩

theorem foldl_push_of_hit {feed : Feed} (h : feed.hit = true) (pieces : List Bytes) :
    pieces.foldl Feed.push feed = feed := by
  induction pieces with
  | nil => rfl
  | cons piece pieces ih => rw [List.foldl_cons, Feed.push, if_pos h, ih]

/-- A hit leaves nothing to flush. -/
theorem buffer_of_hit {m : StopMatcher} {piece : Bytes} (h : (m.push piece).1.hit = true) :
    (m.push piece).2.buffer = [] := by
  rw [StopMatcher.push] at h ⊢
  split at h
  next => cases h
  next hsome =>
    rw [if_neg hsome]
    dsimp only at h ⊢
    cases hcut : cutAt m.stops (m.buffer ++ piece) with
    | some cut => rfl
    | none =>
        rw [hcut] at h
        cases h

theorem drive_flatten {feed : Feed} (hhit : feed.hit = false) (pieces : List Bytes) :
    feed.sent ++ (feed.matcher.drive pieces).flatten =
      (pieces.foldl Feed.push feed).sent ++
        if (pieces.foldl Feed.push feed).hit = true then []
        else (pieces.foldl Feed.push feed).matcher.flush.1 := by
  induction pieces generalizing feed with
  | nil => rw [drive, flatten_emitted, List.foldl_nil, if_neg (by rw [hhit]; decide)]
  | cons piece pieces ih =>
      rw [drive, List.foldl_cons, Feed.push, if_neg (by rw [hhit]; decide)]
      dsimp only
      rw [List.flatten_append, flatten_emitted, ← List.append_assoc]
      by_cases hstep : (feed.matcher.push piece).1.hit = true
      · rw [foldl_push_of_hit hstep, if_pos hstep, if_pos hstep, flatten_emitted, flush,
          buffer_of_hit hstep]
      · rw [if_neg hstep]
        have hmiss : (feed.matcher.push piece).1.hit = false := Bool.not_eq_true _ ▸ hstep
        exact @ih ⟨feed.pushed ++ piece, feed.sent ++ (feed.matcher.push piece).1.emit,
          (feed.matcher.push piece).1.hit, (feed.matcher.push piece).2⟩ hmiss

/-- What `drive` hands on is the outcome. -/
theorem driven_flatten_eq (stops pieces : List Bytes) :
    (driven stops pieces).flatten = (Feed.outcome stops pieces).1 := by
  have hdrive := @drive_flatten (Feed.start stops) rfl pieces
  rw [Feed.start, List.nil_append] at hdrive
  rw [driven, hdrive, Feed.outcome, Feed.run, Feed.start]
  dsimp only
  split
  next => rw [List.append_nil]
  next => rfl

end Run

/-! ## Cuts that make a difference -/

section Cuts

variable {stops pieces : List Bytes} {text : Bytes}

/-- Where a stop string lies inside another one, some stop string has completed at the end of
the inner one that starts no later than the outer one. -/
def Settles (stops : List Bytes) (text : Bytes) : Prop :=
  ∀ outer ∈ kept stops, ∀ inner ∈ kept stops, ∀ i j, outer <+: text.drop i →
    inner <+: text.drop j → i < j → j + inner.length < i + outer.length →
      ∃ first ∈ kept stops, ∃ k ≤ i, first <+: text.drop k ∧
        k + first.length ≤ j + inner.length

theorem flatten_take_begins (pieces : List Bytes) (k : Nat) :
    (pieces.take k).flatten <+: pieces.flatten :=
  ⟨(pieces.drop k).flatten, by rw [← List.flatten_append, List.take_append_drop]⟩

/-- The outcome is told by the earliest stop string of the text that has been pushed. -/
theorem outcome_eq (stops pieces : List Bytes) :
    (Unstopped (kept stops) pieces.flatten ∧
        Feed.outcome stops pieces = (pieces.flatten, false)) ∨
      ∃ k cut, cutAt (kept stops) (pieces.take k).flatten = some cut ∧
        Feed.outcome stops pieces = (pieces.flatten.take cut, true) := by
  obtain ⟨k, -, hpushed, -⟩ := Feed.run_pushed stops pieces
  have hall := @Feed.run_pushed_of_miss stops pieces
  have hfollows := Feed.run_follows stops pieces
  unfold Feed.outcome
  generalize Feed.run stops pieces = feed at hpushed hall hfollows
  cases hfollows with
  | watching hhit hwatches hsent =>
      left
      dsimp only
      rw [hhit, if_neg (by decide), flush, hsent, hwatches.seen_eq, ← hall hhit]
      exact ⟨hwatches.unstopped, rfl⟩
  | stopped cut hhit hcut hsent =>
      right
      refine ⟨k, cut, hpushed ▸ hcut, ?_⟩
      obtain ⟨stop, hstop, hfind⟩ := cutAt_some hcut
      obtain ⟨more, hmore⟩ := flatten_take_begins pieces k
      dsimp only
      rw [hhit, if_pos rfl, hsent, ← hmore, ← hpushed,
        List.take_append_of_le_length (find_eq_some hfind).2.1]

/-- A stop string in the text is hit. -/
theorem outcome_of_occurs {inner : Bytes} (hinner : inner ∈ kept stops) {j : Nat}
    (hoccurs : inner <+: pieces.flatten.drop j) :
    ∃ k cut, cutAt (kept stops) (pieces.take k).flatten = some cut ∧
      Feed.outcome stops pieces = (pieces.flatten.take cut, true) := by
  rcases outcome_eq stops pieces with ⟨hun, -⟩ | hhit
  · exact absurd hoccurs (find_eq_none_iff.mp (hun inner hinner) j)
  · exact hhit

/-- The outcome of a text pushed at once. -/
theorem outcome_whole {inner : Bytes} (hinner : inner ∈ kept stops) {j : Nat}
    (hoccurs : inner <+: text.drop j) :
    ∃ cut, cutAt (kept stops) text = some cut ∧
      Feed.outcome stops [text] = (text.take cut, true) := by
  have hwhole : [text].flatten = text := List.flatten_singleton
  obtain ⟨k, cut, hcut, hout⟩ := @outcome_of_occurs stops [text] _ hinner _ (hwhole ▸ hoccurs)
  rw [hwhole] at hout
  refine ⟨cut, ?_, hout⟩
  cases k with
  | succ k => rwa [List.take_succ_cons, List.take_nil, hwhole] at hcut
  | zero =>
      obtain ⟨⟨stop, hstop, hnone⟩, -⟩ := cutAt_eq_some_iff.mp hcut
      rw [List.take_zero, List.flatten_nil, List.drop_nil] at hnone
      exact absurd (List.prefix_nil.mp hnone) (ne_nil_of_mem_kept stop hstop)

/-- What comes behind a hit is not pushed. -/
theorem outcome_concat (piece : Bytes) (h : (Feed.outcome stops pieces).2 = true) :
    Feed.outcome stops (pieces ++ [piece]) = Feed.outcome stops pieces := by
  unfold Feed.outcome at h ⊢
  rw [Feed.run_concat, Feed.push, if_pos h]

/-- An occurrence in the beginning of a text is one in the text. -/
theorem occurs_of_begins {stop seen : Bytes} {i : Nat} (hseen : seen <+: text)
    (h : stop <+: seen.drop i) : stop <+: text.drop i := by
  obtain ⟨more, rfl⟩ := hseen
  rw [List.drop_append]
  exact h.trans (List.prefix_append _ _)

theorem occurs_in_begins {stop seen : Bytes} {i : Nat} (hseen : seen <+: text)
    (h : stop <+: text.drop i) (hend : i + stop.length ≤ seen.length) : stop <+: seen.drop i := by
  obtain ⟨more, rfl⟩ := hseen
  exact occurs_of_append h hend

/-- In a text that settles, the earliest stop string of a beginning is the earliest one of
the text. -/
theorem Settles.cutAt_eq (h : Settles stops text) {seen : Bytes} {cut : Nat}
    (hseen : seen <+: text) (hcut : cutAt (kept stops) seen = some cut) :
    cutAt (kept stops) text = some cut := by
  obtain ⟨⟨inner, hinner, hoccurs⟩, hleast⟩ := cutAt_eq_some_iff.mp hcut
  have hend := occurs_le_length (ne_nil_of_mem_kept inner hinner) hoccurs
  refine cutAt_eq_some_iff.mpr ⟨⟨inner, hinner, occurs_of_begins hseen hoccurs⟩, ?_⟩
  intro outer houter i hi
  by_contra hlt
  rcases Nat.lt_or_ge seen.length (i + outer.length) with hover | hinside
  · -- the outer one is cut off, and something has completed that starts no later
    obtain ⟨first, hfirst, k, hk, hat, hdone⟩ := h outer houter inner hinner i cut hi
      (occurs_of_begins hseen hoccurs) (by omega) (by omega)
    have hle := hleast first hfirst k (occurs_in_begins hseen hat (by omega))
    omega
  · exact hlt (hleast outer houter i (occurs_in_begins hseen hi hinside))

theorem Settles.outcome_eq_whole (h : Settles stops pieces.flatten) :
    Feed.outcome stops pieces =
      match cutAt (kept stops) pieces.flatten with
      | none => (pieces.flatten, false)
      | some cut => (pieces.flatten.take cut, true) := by
  rcases outcome_eq stops pieces with ⟨hun, hout⟩ | ⟨k, cut, hcut, hout⟩
  · rw [cutAt_none.mpr hun, hout]
  · rw [h.cutAt_eq (flatten_take_begins pieces k) hcut, hout]

/-- All cuts of a text lead to one outcome exactly where the text settles. -/
theorem outcome_cut_iff (stops : List Bytes) (text : Bytes) :
    (∀ pieces pieces' : List Bytes, pieces.flatten = text → pieces'.flatten = text →
        Feed.outcome stops pieces = Feed.outcome stops pieces') ↔ Settles stops text := by
  constructor
  · intro hsame outer houter inner hinner i j hi hj hlt hends
    have hend := occurs_le_length (ne_nil_of_mem_kept inner hinner) hj
    -- one cut is behind the inner stop string, the other one nowhere
    generalize he : j + inner.length = e at hends hend ⊢
    have hbegins : text.take e <+: text := List.take_prefix _ _
    have hlength : (text.take e).length = e := List.length_take_of_le hend
    obtain ⟨cut, hcut, hout⟩ := outcome_whole hinner
      (occurs_in_begins hbegins hj (by rw [hlength, he]))
    obtain ⟨least, hleast, hwhole⟩ := outcome_whole houter hi
    have hsplit := hsame ([text.take e] ++ [text.drop e]) [text]
      (by simp) List.flatten_singleton
    rw [outcome_concat _ (by rw [hout]), hout, hwhole, Prod.mk.injEq] at hsplit
    obtain ⟨⟨first, hfirst, hat⟩, -⟩ := cutAt_eq_some_iff.mp hcut
    have hdone := occurs_le_length (ne_nil_of_mem_kept first hfirst) hat
    have hle := cutAt_le hleast houter hi
    have hcuts : cut = least := by
      have hlengths := congrArg List.length hsplit.1
      obtain ⟨other, hother, hfind⟩ := cutAt_some hleast
      have hinside := (find_eq_some hfind).2.1
      rw [List.length_take, hlength, List.length_take] at hlengths
      omega
    exact ⟨first, hfirst, cut, hcuts ▸ hle, occurs_of_begins hbegins hat, hlength ▸ hdone⟩
  · rintro h pieces pieces' rfl hpieces'
    rw [h.outcome_eq_whole, ← hpieces', Settles.outcome_eq_whole (hpieces' ▸ h)]

/-- Stop strings that settle in every text: an outer one that begins with a stop string which
completes first does no harm. -/
theorem settles_all_iff (stops : List Bytes) :
    (∀ text, Settles stops text) ↔
      ∀ outer ∈ kept stops, ∀ inner ∈ kept stops, ∀ j, inner <+: outer.drop j → 0 < j →
        j + inner.length < outer.length →
          ∃ first ∈ kept stops, first <+: outer ∧ first.length ≤ j + inner.length := by
  constructor
  · intro h outer houter inner hinner j hj hpos hends
    obtain ⟨first, hfirst, k, hk, hat, hdone⟩ := h outer outer houter inner hinner 0 j
      (List.prefix_refl _) hj hpos (by omega)
    obtain rfl := Nat.le_zero.mp hk
    exact ⟨first, hfirst, hat, by omega⟩
  · intro h text outer houter inner hinner i j hi hj hlt hends
    obtain ⟨first, hfirst, hat, hdone⟩ := h outer houter inner hinner (j - i) (by
      obtain ⟨more, hmore⟩ := hi
      have hinside : inner <+: (outer ++ more).drop (j - i) := by
        rwa [hmore, List.drop_drop, Nat.add_sub_cancel' hlt.le]
      exact occurs_of_append hinside (by omega)) (by omega) (by omega)
    exact ⟨first, hfirst, i, Nat.le_refl _, hat.trans hi, by omega⟩

/-- Pushed at once the answer ends before the outer stop string, pushed in two pieces it
ends inside of it. -/
theorem outcome_cut_differs :
    [bytes "<|end|>"].flatten = [bytes "<|end", bytes "|>"].flatten ∧
      Feed.outcome [bytes "<|end|>", bytes "end"] [bytes "<|end|>"] = ([], true) ∧
      Feed.outcome [bytes "<|end|>", bytes "end"] [bytes "<|end", bytes "|>"] =
        (bytes "<|", true) := by
  decide

end Cuts

end Arcint.Text
