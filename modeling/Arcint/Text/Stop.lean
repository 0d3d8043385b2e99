import Arcint.Text.Bytes

/-! # Stop sequences

The stop matcher withholds the end of the text that may still become a stop string, and
`drive` hands on what is left. What has been handed on after some pieces is the text so
far without that end; when a stop string completes it is the text before it.
-/

namespace Arcint.Text

open Foundation

structure StopMatcher where
  stops : List Bytes
  buffer : Bytes
  deriving DecidableEq, Repr

namespace StopMatcher

/-- Empty stop strings are dropped. -/
def new (stops : List Bytes) : StopMatcher := ⟨stops.filter (· ≠ []), []⟩

/-- The earlier of two positions. -/
def earlier : Option Nat → Option Nat → Option Nat
  | cut, none => cut
  | none, some pos => some pos
  | some cut, some pos => if pos < cut then some pos else some cut

/-- Where the earliest completed stop string starts. -/
def cutAt (stops : List Bytes) (buffer : Bytes) : Option Nat :=
  stops.foldl (fun cut stop => earlier cut (find stop buffer)) none

/-- The longest end that may still grow into a stop string. -/
def hold (stops : List Bytes) (buffer : Bytes) : Nat :=
  stops.foldl (fun hold stop => max hold (partialStopSuffix buffer stop)) 0

structure Step where
  emit : Bytes
  hit : Bool
  deriving DecidableEq, Repr

def push (m : StopMatcher) (piece : Bytes) : Step × StopMatcher :=
  if m.stops = [] then (⟨piece, false⟩, m)
  else
    let buffer := m.buffer ++ piece
    match cutAt m.stops buffer with
    | some cut => (⟨buffer.take cut, true⟩, { m with buffer := [] })
    | none =>
        let safe := buffer.length - hold m.stops buffer
        (⟨buffer.take safe, false⟩, { m with buffer := buffer.drop safe })

def flush (m : StopMatcher) : Bytes × StopMatcher := (m.buffer, { m with buffer := [] })

/-- The callback is not called with nothing. -/
def emitted (text : Bytes) : List Bytes := if text = [] then [] else [text]

/-- What `drive` hands to its callback; a hit ends the generation, and what was withheld is
ordinary output at its end. The last piece is the one a stop token, a limit or the end of
the answer left. -/
def drive (m : StopMatcher) : List Bytes → List Bytes
  | [] => emitted m.flush.1
  | piece :: pieces =>
      let (step, m) := m.push piece
      emitted step.emit ++ if step.hit = true then emitted m.flush.1 else m.drive pieces

end StopMatcher

open StopMatcher

/-- The chunks of an answer, in the stop matcher's cut. -/
def driven (stops pieces : List Bytes) : List Bytes := (StopMatcher.new stops).drive pieces

/-- No stop string has completed. -/
def Unstopped (stops : List Bytes) (text : Bytes) : Prop := ∀ stop ∈ stops, find stop text = none

/-- The text without the end that may become a stop string. -/
def released (stops : List Bytes) (text : Bytes) : Bytes :=
  text.take (text.length - hold stops text)

/-! ## The matcher sees the end of the text only -/

section Matcher

variable {stops : List Bytes} {text : Bytes}

theorem foldl_max_eq {values : List Bytes} (f : Bytes → Nat) (start : Nat) :
    values.foldl (fun hold stop => max hold (f stop)) start =
      max start (values.foldl (fun hold stop => max hold (f stop)) 0) := by
  induction values generalizing start with
  | nil => simp
  | cons value values ih =>
      simp only [List.foldl_cons]
      rw [ih, ih (max 0 (f value)), Nat.zero_max, Nat.max_assoc]

theorem hold_cons (stop : Bytes) (stops : List Bytes) (text : Bytes) :
    hold (stop :: stops) text = max (partialStopSuffix text stop) (hold stops text) := by
  unfold hold
  rw [List.foldl_cons, foldl_max_eq, Nat.zero_max]

theorem le_hold {stop : Bytes} (hstop : stop ∈ stops) :
    partialStopSuffix text stop ≤ hold stops text := by
  induction stops with
  | nil => cases hstop
  | cons first stops ih =>
      rw [hold_cons]
      rcases List.mem_cons.mp hstop with rfl | hrest
      · exact Nat.le_max_left _ _
      · exact (ih hrest).trans (Nat.le_max_right _ _)

theorem hold_le_length (stops : List Bytes) (text : Bytes) : hold stops text ≤ text.length := by
  induction stops with
  | nil => exact Nat.zero_le _
  | cons stop stops ih =>
      rw [hold_cons]
      refine Nat.max_le.mpr ⟨?_, ih⟩
      unfold partialStopSuffix
      split
      next => exact Nat.zero_le _
      next => exact (partialSuffix_le _ _ _).trans (Nat.min_le_left _ _)

theorem earlier_none {cut pos : Option Nat} : earlier cut pos = none ↔ cut = none ∧ pos = none := by
  cases cut with
  | none => cases pos <;> simp [earlier]
  | some cut =>
      cases pos with
      | none => simp [earlier]
      | some pos =>
          simp only [earlier, reduceCtorEq, and_self, iff_false]
          split <;> simp

theorem earlier_some {cut pos : Option Nat} {i : Nat} (h : earlier cut pos = some i) :
    cut = some i ∨ pos = some i := by
  cases cut with
  | none => cases pos <;> simp_all [earlier]
  | some cut =>
      cases pos with
      | none => exact .inl h
      | some pos =>
          simp only [earlier] at h
          split at h
          · exact .inr h
          · exact .inl h

theorem foldl_earlier_none {start : Option Nat} :
    stops.foldl (fun cut stop => earlier cut (find stop text)) start = none ↔
      start = none ∧ Unstopped stops text := by
  induction stops generalizing start with
  | nil => simp [Unstopped]
  | cons stop stops ih =>
      rw [List.foldl_cons, ih, earlier_none]
      simp only [Unstopped, List.forall_mem_cons, and_assoc]

/-- No stop string in the buffer. -/
theorem cutAt_none : cutAt stops text = none ↔ Unstopped stops text := by
  unfold cutAt
  rw [foldl_earlier_none]
  simp

/-- The cut is at a stop string. -/
theorem cutAt_some {i : Nat} (h : cutAt stops text = some i) :
    ∃ stop ∈ stops, find stop text = some i := by
  have hfold : ∀ start, stops.foldl (fun cut stop => earlier cut (find stop text)) start = some i →
      start = some i ∨ ∃ stop ∈ stops, find stop text = some i := by
    clear h
    induction stops with
    | nil => exact fun start h => .inl h
    | cons stop stops ih =>
        intro start h
        rw [List.foldl_cons] at h
        rcases ih _ h with hearlier | ⟨other, hother, hfind⟩
        · rcases earlier_some hearlier with hstart | hfind
          · exact .inl hstart
          · exact .inr ⟨stop, List.mem_cons_self, hfind⟩
        · exact .inr ⟨other, List.mem_cons_of_mem _ hother, hfind⟩
  rcases hfold none h with hnone | hfound
  · cases hnone
  · exact hfound

/-- What was released is clear of every stop string. -/
theorem clear_released (hne : ∀ stop ∈ stops, stop ≠ []) (h : Unstopped stops text) {stop : Bytes}
    (hstop : stop ∈ stops) : Clear stop text (text.length - hold stops text) := by
  intro more i hoccurs
  have hclear := clear_partialStopSuffix (hne stop hstop) (h stop hstop) more i hoccurs
  have hle := @le_hold stops text stop hstop
  omega

/-- The end that is withheld, of the text and of its end. -/
theorem hold_append {first : Bytes} (hne : ∀ stop ∈ stops, stop ≠ [])
    (hclear : ∀ stop ∈ stops, Clear stop (first ++ text) first.length) :
    hold stops (first ++ text) = hold stops text := by
  induction stops with
  | nil => rfl
  | cons stop stops ih =>
      have hsame : partialStopSuffix (first ++ text) stop = partialStopSuffix text stop := by
        unfold partialStopSuffix
        rw [if_neg (hne stop List.mem_cons_self), if_neg (hne stop List.mem_cons_self)]
        exact (hclear stop List.mem_cons_self).partialSuffix_append
      rw [hold_cons, hold_cons, hsame, ih (fun other h => hne other (List.mem_cons_of_mem _ h))
        fun other h => hclear other (List.mem_cons_of_mem _ h)]

theorem unstopped_append {first : Bytes}
    (hclear : ∀ stop ∈ stops, Clear stop (first ++ text) first.length) (more : Bytes) :
    Unstopped stops (first ++ text ++ more) ↔ Unstopped stops (text ++ more) := by
  unfold Unstopped
  refine forall₂_congr fun stop hstop => ?_
  rw [(hclear stop hstop).find_append, Option.map_eq_none_iff]

/-- A stop string stays in the text. -/
theorem Unstopped.of_append {more : Bytes} (h : Unstopped stops (text ++ more)) :
    Unstopped stops text := by
  intro stop hstop
  apply find_eq_none_iff.mpr
  intro i hoccurs
  refine find_eq_none_iff.mp (h stop hstop) i (hoccurs.trans ?_)
  rw [List.drop_append]
  exact List.prefix_append _ _

end Matcher

/-! ## What has been handed on -/

section Drive

variable {stops : List Bytes} {m : StopMatcher} {seen piece : Bytes}

/-- The matcher after some text: no stop string has completed, and it withholds the end
that may become one. -/
structure Watches (stops : List Bytes) (seen : Bytes) (m : StopMatcher) : Prop where
  same : m.stops = stops
  unstopped : Unstopped stops seen
  buffer : m.buffer = seen.drop (seen.length - hold stops seen)

theorem Watches.seen_eq (h : Watches stops seen m) : released stops seen ++ m.buffer = seen := by
  rw [h.buffer]
  exact List.take_append_drop _ _

theorem released_length (stops : List Bytes) (seen : Bytes) :
    (released stops seen).length = seen.length - hold stops seen := by
  rw [released, List.length_take]
  exact Nat.min_eq_left (Nat.sub_le _ _)

/-- No stop string starts in the text handed on. -/
theorem Watches.clear (hne : ∀ stop ∈ stops, stop ≠ []) (h : Watches stops seen m) :
    ∀ stop ∈ stops,
      Clear stop (released stops seen ++ m.buffer) (released stops seen).length := by
  intro stop hstop
  rw [h.seen_eq, released_length]
  exact clear_released hne h.unstopped hstop

/-- The released text of a text whose beginning is clear. -/
theorem released_append {first : Bytes} (hsame : hold stops (first ++ seen) = hold stops seen) :
    (first ++ seen).drop ((first ++ seen).length - hold stops (first ++ seen)) =
        seen.drop (seen.length - hold stops seen) ∧
      released stops (first ++ seen) = first ++ released stops seen := by
  have hle := hold_le_length stops seen
  have hcut : (first ++ seen).length - hold stops (first ++ seen) =
      first.length + (seen.length - hold stops seen) := by
    rw [hsame, List.length_append]
    omega
  rw [released, hcut, List.drop_length_add_append, List.take_length_add_append]
  exact ⟨rfl, rfl⟩

/-- What a push can do: a stop string completes behind the text handed on, or the text
released so far is handed on. -/
inductive Pushed (stops : List Bytes) (seen piece : Bytes) :
    StopMatcher.Step × StopMatcher → Prop
  | hit (emit : Bytes) (m : StopMatcher) (stop : Bytes) (hstop : stop ∈ stops)
      (hbuffer : m.buffer = []) (more : Bytes)
      (htext : released stops seen ++ emit ++ stop ++ more = seen ++ piece)
      (hstopped : ¬ Unstopped stops (seen ++ piece)) : Pushed stops seen piece (⟨emit, true⟩, m)
  | more (emit : Bytes) (m : StopMatcher) (hwatches : Watches stops (seen ++ piece) m)
      (hreleased : released stops (seen ++ piece) = released stops seen ++ emit) :
      Pushed stops seen piece (⟨emit, false⟩, m)

theorem Watches.push (hne : ∀ stop ∈ stops, stop ≠ []) (h : Watches stops seen m)
    (piece : Bytes) : Pushed stops seen piece (m.push piece) := by
  unfold StopMatcher.push
  by_cases hnone : m.stops = []
  · rw [if_pos hnone]
    rw [h.same] at hnone
    subst hnone
    refine .more piece m ⟨h.same, fun _ hstop => (by cases hstop), ?_⟩ ?_
    · rw [h.buffer]
      simp [hold]
    · simp [released, hold]
  · rw [if_neg hnone]
    dsimp only
    have hseen : seen ++ piece = released stops seen ++ (m.buffer ++ piece) := by
      rw [← List.append_assoc, h.seen_eq]
    have hclear := h.clear hne
    have hstopped := unstopped_append hclear piece
    rw [h.seen_eq] at hstopped
    rw [h.same]
    cases hcut : cutAt stops (m.buffer ++ piece) with
    | some cut =>
        obtain ⟨stop, hstop, hfind⟩ := cutAt_some hcut
        obtain ⟨⟨more, hmore⟩, -, -⟩ := find_eq_some hfind
        refine .hit _ _ stop hstop rfl more ?_ fun hun => ?_
        · rw [hseen, List.append_assoc, List.append_assoc, hmore, List.take_append_drop]
        · rw [hstopped.mp hun stop hstop] at hfind
          cases hfind
    | none =>
        have hsame := hold_append hne fun stop hstop => by
          have happend := (hclear stop hstop).append piece
          rwa [List.append_assoc] at happend
        obtain ⟨hdrop, hreleased⟩ := released_append hsame
        rw [← hseen] at hdrop hreleased
        exact .more _ _ ⟨rfl, hstopped.mpr (cutAt_none.mp hcut), hdrop.symm⟩ hreleased

@[simp] theorem flatten_emitted (text : Bytes) : (emitted text).flatten = text := by
  unfold emitted
  split
  next hnil => rw [hnil, List.flatten_nil]
  next => simp

/-- The texts after a number of chunks, the first of which may be left out. -/
theorem forall_take_emitted {P : Bytes → Prop} {before emit : Bytes} {chunks : List Bytes} :
    (∀ k, P (before ++ ((emitted emit ++ chunks).take k).flatten)) ↔
      P before ∧ ∀ k, P (before ++ emit ++ (chunks.take k).flatten) := by
  unfold emitted
  split
  next hnil =>
    rw [hnil, List.append_nil, List.nil_append]
    refine ⟨fun h => ⟨?_, h⟩, fun h => h.2⟩
    simpa using h 0
  next =>
    refine ⟨fun h => ⟨by simpa using h 0, fun k => ?_⟩, fun ⟨hbefore, h⟩ k => ?_⟩
    · simpa using h (k + 1)
    · cases k with
      | zero => simpa using hbefore
      | succ k => simpa using h k

/-- What the chunks of a run come to: the whole text, or the text before a stop string. -/
theorem Watches.drive_flatten (hne : ∀ stop ∈ stops, stop ≠ []) (h : Watches stops seen m)
    (pieces : List Bytes) :
    released stops seen ++ (m.drive pieces).flatten = seen ++ pieces.flatten ∨
      ∃ stop ∈ stops, ∃ more,
        released stops seen ++ (m.drive pieces).flatten ++ stop ++ more =
          seen ++ pieces.flatten := by
  induction pieces generalizing seen m with
  | nil =>
      left
      rw [drive, flatten_emitted, flush, h.seen_eq, List.flatten_nil, List.append_nil]
  | cons piece pieces ih =>
      have hpushed := h.push hne piece
      rw [drive]
      generalize m.push piece = out at hpushed
      cases hpushed with
      | hit emit m stop hstop hbuffer more htext _ =>
          right
          refine ⟨stop, hstop, more ++ pieces.flatten, ?_⟩
          simp only [if_pos, flush, hbuffer, List.flatten_append, flatten_emitted,
            List.append_nil, List.flatten_cons]
          rw [← List.append_assoc seen, ← htext]
          simp only [List.append_assoc]
      | more emit m hwatches hreleased =>
          simp only [Bool.false_eq_true, if_false, List.flatten_append, flatten_emitted,
            List.flatten_cons]
          rw [← List.append_assoc, ← hreleased, ← List.append_assoc seen]
          exact ih hwatches

/-- The texts handed on in a run, chunk by chunk, are those released before a stop string
completes, piece by piece, and the last one. -/
theorem Watches.forall_drive {P : Bytes → Prop} (hne : ∀ stop ∈ stops, stop ≠ [])
    (h : Watches stops seen m) (pieces : List Bytes) :
    (∀ k, P (released stops seen ++ ((m.drive pieces).take k).flatten)) ↔
      (∀ k, Unstopped stops (seen ++ (pieces.take k).flatten) →
        P (released stops (seen ++ (pieces.take k).flatten))) ∧
        P (released stops seen ++ (m.drive pieces).flatten) := by
  induction pieces generalizing seen m with
  | nil =>
      have hchunks := @forall_take_emitted P (released stops seen) m.buffer []
      simp only [List.append_nil, List.take_nil, List.flatten_nil, forall_const] at hchunks ⊢
      rw [drive, flush, flatten_emitted, hchunks]
      exact and_congr_left fun _ => ⟨fun hbefore _ => hbefore, fun hbefore => hbefore h.unstopped⟩
  | cons piece pieces ih =>
      have hpieces : (∀ k, Unstopped stops (seen ++ ((piece :: pieces).take k).flatten) →
            P (released stops (seen ++ ((piece :: pieces).take k).flatten))) ↔
          P (released stops seen) ∧
            ∀ k, Unstopped stops (seen ++ piece ++ (pieces.take k).flatten) →
              P (released stops (seen ++ piece ++ (pieces.take k).flatten)) := by
        refine ⟨fun hall => ⟨?_, fun k => ?_⟩, fun ⟨hbefore, hall⟩ k => ?_⟩
        · have hzero := hall 0
          rw [List.take_zero, List.flatten_nil, List.append_nil] at hzero
          exact hzero h.unstopped
        · simpa using hall (k + 1)
        · cases k with
          | zero => simpa using fun _ => hbefore
          | succ k => simpa using hall k
      have hpushed := h.push hne piece
      rw [drive, hpieces]
      generalize m.push piece = out at hpushed
      cases hpushed with
      | hit emit m stop hstop hbuffer more htext hstopped =>
          have hnever : ∀ k, ¬ Unstopped stops (seen ++ piece ++ (pieces.take k).flatten) :=
            fun k hun => hstopped hun.of_append
          have hflush : emitted m.flush.1 = [] := by
            rw [flush, hbuffer]
            rfl
          simp only [if_true, hflush]
          rw [forall_take_emitted, List.append_nil, flatten_emitted]
          simp only [hnever, false_imp_iff, implies_true, and_true, List.take_nil,
            List.flatten_nil, List.append_nil, forall_const]
      | more emit m hwatches hreleased =>
          have hrest := ih hwatches
          rw [hreleased] at hrest
          simp only [Bool.false_eq_true, if_false]
          rw [forall_take_emitted, hrest, List.flatten_append, flatten_emitted,
            ← List.append_assoc (released stops seen), and_assoc]

end Drive

section Driven

variable {stops pieces : List Bytes}

theorem watches_new (hne : ∀ stop ∈ stops, stop ≠ []) :
    Watches stops [] (StopMatcher.new stops) := by
  have hall : stops.filter (· ≠ []) = stops :=
    List.filter_eq_self.mpr fun stop hstop => decide_eq_true (hne stop hstop)
  refine ⟨hall, fun stop hstop => ?_, List.drop_nil.symm⟩
  rw [find, if_neg (hne stop hstop)]

theorem released_nil (stops : List Bytes) : released stops [] = [] := by
  rw [released, List.take_nil]

/-- The chunks of an answer come to its text, or to the text before a stop string. -/
theorem driven_flatten (hne : ∀ stop ∈ stops, stop ≠ []) :
    (driven stops pieces).flatten = pieces.flatten ∨
      ∃ stop ∈ stops, ∃ more, (driven stops pieces).flatten ++ stop ++ more = pieces.flatten := by
  have hflatten := (watches_new hne).drive_flatten hne pieces
  rwa [released_nil] at hflatten

/-- What holds of every text handed on, in terms of the pieces. -/
theorem forall_driven {P : Bytes → Prop} (hne : ∀ stop ∈ stops, stop ≠ []) :
    (∀ k, P ((driven stops pieces).take k).flatten) ↔
      (∀ k, Unstopped stops (pieces.take k).flatten → P (released stops (pieces.take k).flatten)) ∧
        P (driven stops pieces).flatten := by
  have hall := @Watches.forall_drive _ _ _ P hne (watches_new hne) pieces
  rwa [released_nil] at hall

end Driven

end Arcint.Text
