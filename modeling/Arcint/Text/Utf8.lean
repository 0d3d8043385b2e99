import Mathlib.Data.List.GetD
import Arcint.Foundation.SyncCode
import Arcint.Text.Bytes

/-! # UTF-8 at the end of a stream

A code point is never split over two chunks: the streamer holds back a truncated
sequence until the bytes that complete it arrive.
-/

namespace Arcint.Text.Utf8

open Foundation

def isContinuation (b : UInt8) : Bool := b &&& 0xC0 == 0x80

/-- The length of the sequence a lead byte starts, one for everything else. -/
def sequenceLength (lead : UInt8) : Nat :=
  if lead < 0x80 then 1
  else if lead &&& 0xE0 == 0xC0 then 2
  else if lead &&& 0xF0 == 0xE0 then 3
  else if lead &&& 0xF8 == 0xF0 then 4
  else 1

def kMaxSequence : Nat := 4

/-- The walk back to the lead byte, `tries` more bytes at most. -/
def walkBack (s : Bytes) : Nat → Nat → Nat
  | 0, _ => s.length
  | tries + 1, back =>
      if back < s.length then
        let i := s.length - 1 - back
        let b := s.getD i 0
        if isContinuation b then walkBack s tries (back + 1)
        else
          let need := sequenceLength b
          if need = 1 then s.length
          else if i + need ≤ s.length then s.length
          else i
      else s.length

/-- The length of the longest prefix that ends on a complete code point. -/
def completePrefix (s : Bytes) : Nat :=
  if s = [] then 0 else walkBack s kMaxSequence 0

structure Streamer where
  pending : Bytes
  deriving DecidableEq, Repr

namespace Streamer

def push (st : Streamer) (more : Bytes) : Bytes × Streamer :=
  let pending := st.pending ++ more
  let cut := completePrefix pending
  (pending.take cut, ⟨pending.drop cut⟩)

def flush (st : Streamer) : Bytes × Streamer := (st.pending, ⟨[]⟩)

/-- What goes out and what is held are the bytes that came in. -/
theorem push_append_pending (st : Streamer) (more : Bytes) :
    (st.push more).1 ++ (st.push more).2.pending = st.pending ++ more :=
  List.take_append_drop _ _

end Streamer

/-! ## Valid texts -/

/-- Overlong forms, surrogates and what lies beyond the last code point. -/
def rejected (need : Nat) (lead second : UInt8) : Bool :=
  need == 2 && lead < 0xC2
    || need == 3 && lead == 0xE0 && second < 0xA0
    || need == 3 && lead == 0xED && 0xA0 ≤ second
    || need == 4 && lead == 0xF0 && second < 0x90
    || need == 4 && lead == 0xF4 && 0x90 ≤ second
    || need == 4 && 0xF4 < lead

/-- The loop of `is_valid`, one code point a pass; every code point has a byte, so the
length is fuel enough. -/
def isValidFrom : Nat → Bytes → Bool
  | 0, s => s.isEmpty
  | _ + 1, [] => true
  | fuel + 1, lead :: rest =>
      if 0xF8 ≤ lead || isContinuation lead then false
      else if (lead :: rest).length < sequenceLength lead then false
      else if !(rest.take (sequenceLength lead - 1)).all isContinuation then false
      else if rejected (sequenceLength lead) lead (rest.getD 0 0) then false
      else isValidFrom fuel ((lead :: rest).drop (sequenceLength lead))

def isValid (s : Bytes) : Bool := isValidFrom s.length s

/-- The bytes of one code point. -/
structure CodePoint (lead : UInt8) (rest : Bytes) : Prop where
  starts : (0xF8 ≤ lead || isContinuation lead) = false
  length : rest.length + 1 = sequenceLength lead
  continues : ∀ b ∈ rest, isContinuation b = true
  admitted : rejected (sequenceLength lead) lead (rest.getD 0 0) = false

theorem CodePoint.lead_inner {lead : UInt8} {rest : Bytes} (h : CodePoint lead rest) :
    isContinuation lead = false :=
  (Bool.or_eq_false_iff.mp h.starts).2

/-- UTF-8: continuation bytes stand inside code points only, and the lead byte tells the
length. -/
def code : SyncCode UInt8 where
  inner := isContinuation
  word w := ∃ lead rest, w = lead :: rest ∧ CodePoint lead rest
  shape := by
    rintro w ⟨lead, rest, rfl, h⟩
    exact ⟨lead, rest, rfl, h.lead_inner, h.continues⟩
  prefixFree := by
    rintro w more ⟨lead, rest, rfl, h⟩ ⟨other, all, hall, hother⟩
    obtain ⟨rfl, rfl⟩ := List.cons_eq_cons.mp hall
    have hlength : rest.length + 1 = (rest ++ more).length + 1 :=
      h.length.trans hother.length.symm
    rw [List.length_append] at hlength
    exact List.length_eq_zero_iff.mp (by omega)

/-- Valid UTF-8. -/
abbrev Valid (s : Bytes) : Prop := code.Text s

theorem sequenceLength_pos (lead : UInt8) : 0 < sequenceLength lead := by
  unfold sequenceLength
  repeat' split
  all_goals decide

theorem sequenceLength_le (lead : UInt8) : sequenceLength lead ≤ kMaxSequence := by
  unfold sequenceLength
  repeat' split
  all_goals decide

/-- The second byte is read only where there is one. -/
theorem rejected_take (lead : UInt8) (rest : Bytes) (need : Nat) :
    rejected need lead ((rest.take (need - 1)).getD 0 0) =
      rejected need lead (rest.getD 0 0) := by
  rcases Nat.lt_or_ge need 2 with hshort | hlong
  · have hnone : ∀ second, rejected need lead second = false := by
      intro second
      have hne : (need == 2) = false ∧ (need == 3) = false ∧ (need == 4) = false := by
        simp only [beq_eq_false_iff_ne]
        omega
      simp [rejected, hne]
    rw [hnone, hnone]
  · have hsame : (rest.take (need - 1)).getD 0 0 = rest.getD 0 0 := by
      rw [List.getD_eq_getElem?_getD, List.getD_eq_getElem?_getD,
        List.getElem?_take_of_lt (by omega)]
    rw [hsame]

/-- One pass of `is_valid` takes one code point. -/
theorem isValidFrom_cons_iff {fuel : Nat} {lead : UInt8} {rest : Bytes} :
    isValidFrom (fuel + 1) (lead :: rest) = true ↔
      ∃ point more, rest = point ++ more ∧ CodePoint lead point ∧ isValidFrom fuel more = true := by
  obtain ⟨tail, htail⟩ := Nat.exists_eq_add_of_le' (sequenceLength_pos lead)
  have hdrop : (lead :: rest).drop (sequenceLength lead) = rest.drop tail := by
    rw [htail, List.drop_succ_cons]
  simp only [isValidFrom, hdrop, Bool.if_false_left, Bool.and_eq_true, Bool.not_eq_true',
    decide_eq_false_iff_not, Nat.not_lt, Bool.not_eq_false, List.all_eq_true, List.length_cons,
    Bool.not_eq_true]
  constructor
  · rintro ⟨hlead, hlength, hrest, hadmitted, hmore⟩
    rw [← rejected_take] at hadmitted
    rw [htail, Nat.add_sub_cancel] at hrest
    refine ⟨rest.take tail, rest.drop tail, (List.take_append_drop _ _).symm,
      ⟨hlead, ?_, hrest, ?_⟩, hmore⟩
    · rw [List.length_take]
      omega
    · rwa [htail, Nat.add_sub_cancel, ← htail] at hadmitted
  · rintro ⟨point, more, rfl, h, hmore⟩
    have hpoint : point.length = tail := by
      have hlength := h.length
      omega
    have htake : (point ++ more).take tail = point := by rw [← hpoint, List.take_left]
    refine ⟨h.starts, ?_, ?_, ?_, ?_⟩
    · rw [List.length_append]
      omega
    · rw [htail, Nat.add_sub_cancel, htake]
      exact h.continues
    · rw [← rejected_take, htail, Nat.add_sub_cancel, htake, ← htail]
      exact h.admitted
    · rwa [← hpoint, List.drop_left]

theorem text_of_isValidFrom {fuel : Nat} {s : Bytes} (h : isValidFrom fuel s = true) :
    Valid s := by
  induction fuel generalizing s with
  | zero =>
      rw [List.isEmpty_iff.mp h]
      exact .nil
  | succ fuel ih =>
      cases s with
      | nil => exact .nil
      | cons lead rest =>
          obtain ⟨point, more, rfl, hpoint, hmore⟩ := isValidFrom_cons_iff.mp h
          have hword : code.word (lead :: point) := ⟨lead, point, rfl, hpoint⟩
          exact .cons hword (ih hmore)

theorem isValidFrom_of_text {s : Bytes} (h : Valid s) {fuel : Nat} (hfuel : s.length ≤ fuel) :
    isValidFrom fuel s = true := by
  induction h generalizing fuel with
  | nil => cases fuel <;> rfl
  | cons hword _ ih =>
      obtain ⟨lead, point, rfl, hpoint⟩ := hword
      rw [List.length_append, List.length_cons] at hfuel
      cases fuel with
      | zero => omega
      | succ fuel => exact isValidFrom_cons_iff.mpr ⟨point, _, rfl, hpoint, ih (by omega)⟩

theorem isValid_iff {s : Bytes} : isValid s = true ↔ Valid s :=
  ⟨text_of_isValidFrom, fun h => isValidFrom_of_text h (Nat.le_refl _)⟩

/-! ## What the streamer sends is valid -/

/-- The walk ends at the last byte that continues nothing. -/
theorem walkBack_eq {before rest : Bytes} {lead : UInt8} (hlead : isContinuation lead = false)
    (hrest : ∀ b ∈ rest, isContinuation b = true) {tries back : Nat}
    (hback : back ≤ rest.length) (htries : rest.length < back + tries) :
    walkBack (before ++ lead :: rest) tries back =
      if rest.length + 1 < sequenceLength lead then before.length
      else (before ++ lead :: rest).length := by
  have hlength : (before ++ lead :: rest).length = before.length + rest.length + 1 := by
    rw [List.length_append, List.length_cons, Nat.add_assoc]
  induction tries generalizing back with
  | zero => omega
  | succ tries ih =>
      unfold walkBack
      rw [if_pos (by omega)]
      dsimp only
      rcases Nat.lt_or_eq_of_le hback with hlt | rfl
      · -- a byte behind the lead
        have hindex : (before ++ lead :: rest).length - 1 - back =
            before.length + (rest.length - 1 - back + 1) := by omega
        have hget : (before ++ lead :: rest).getD ((before ++ lead :: rest).length - 1 - back) 0 ∈
            rest := by
          rw [hindex, List.getD_append_right _ _ _ _ (Nat.le_add_right _ _),
            Nat.add_sub_cancel_left, List.getD_cons_succ, List.getD_eq_getElem _ _ (by omega)]
          exact List.getElem_mem _
        rw [if_pos (hrest _ hget)]
        exact ih hlt (by omega)
      · have hindex : (before ++ lead :: rest).length - 1 - rest.length = before.length := by omega
        have hget : (before ++ lead :: rest).getD before.length 0 = lead := by
          rw [List.getD_append_right _ _ _ _ (Nat.le_refl _), Nat.sub_self, List.getD_cons_zero]
        rw [hindex, hget, if_neg (by rw [hlead]; decide)]
        have hpos := sequenceLength_pos lead
        split
        next hone => rw [if_neg (by omega)]
        next =>
          split
          next hfits => rw [if_neg (by omega)]
          next hcut => rw [if_pos (by omega)]

theorem completePrefix_of_valid {whole : Bytes} (hwhole : Valid whole) :
    completePrefix whole = whole.length := by
  by_cases hne : whole = []
  · rw [hne]
    rfl
  · obtain ⟨before, w, rfl, lead, rest, rfl, hpoint⟩ := hwhole.eq_append_word hne
    have hlength := hpoint.length
    have hmax : sequenceLength lead ≤ 4 := sequenceLength_le lead
    rw [completePrefix, if_neg hne, kMaxSequence,
      walkBack_eq hpoint.lead_inner hpoint.continues (Nat.zero_le _) (by omega),
      if_neg (by omega)]

/-- The walk stops at the end, or at a lead whose sequence is cut. -/
theorem length_lt_walkBack (s : Bytes) (tries back : Nat) :
    s.length < walkBack s tries back + kMaxSequence := by
  induction tries generalizing back with
  | zero => exact Nat.lt_add_of_pos_right (by decide)
  | succ tries ih =>
      have hwhole : s.length < s.length + kMaxSequence := Nat.lt_add_of_pos_right (by decide)
      unfold walkBack
      dsimp only
      split
      next =>
        split
        next => exact ih (back + 1)
        next =>
          have hneed := sequenceLength_le (s.getD (s.length - 1 - back) 0)
          repeat' split
          all_goals omega
      next => exact hwhole

theorem length_lt_completePrefix (s : Bytes) : s.length < completePrefix s + kMaxSequence := by
  unfold completePrefix
  split
  next hnil =>
    rw [hnil]
    decide
  next => exact length_lt_walkBack s kMaxSequence 0

/-- The complete prefix of a growing text is its whole code points. -/
theorem completePrefix_eq {whole cut : Bytes} (hwhole : Valid whole) (hcut : code.Cut cut) :
    completePrefix (whole ++ cut) = whole.length := by
  cases cut with
  | nil =>
      rw [List.append_nil]
      exact completePrefix_of_valid hwhole
  | cons lead rest =>
      rcases hcut with hnil | ⟨more, hmore, _, _, hall, hpoint⟩
      · cases hnil
      · obtain ⟨rfl, rfl⟩ := List.cons_eq_cons.mp hall
        have hlength : (rest ++ more).length + 1 = sequenceLength lead := hpoint.length
        have hmax : sequenceLength lead ≤ 4 := sequenceLength_le lead
        have hpos := List.length_pos_iff.mpr hmore
        have hrest : ∀ b ∈ rest, isContinuation b = true :=
          fun b hb => hpoint.continues b (List.mem_append_left _ hb)
        rw [List.length_append] at hlength
        rw [completePrefix, if_neg (by simp), kMaxSequence,
          walkBack_eq hpoint.lead_inner hrest (Nat.zero_le _) (by omega), if_pos (by omega)]

namespace Streamer

/-- From a growing text the streamer sends whole code points and holds the beginning of
the next one. -/
theorem push_grows {st : Streamer} {more : Bytes} (h : code.Grows (st.pending ++ more)) :
    Valid (st.push more).1 ∧ code.Cut (st.push more).2.pending := by
  obtain ⟨whole, cut, heq, hwhole, hcut⟩ := h.split
  unfold push
  dsimp only
  rw [heq, completePrefix_eq hwhole hcut, List.take_left, List.drop_left]
  exact ⟨hwhole, hcut⟩

/-! ## A text in pieces -/

/-- What the pushes of some pieces send, and the streamer behind them. -/
def run (st : Streamer) : List Bytes → List Bytes × Streamer
  | [] => ([], st)
  | piece :: pieces =>
      let (out, st) := st.push piece
      let (outs, st) := st.run pieces
      (out :: outs, st)

theorem run_cons (st : Streamer) (piece : Bytes) (pieces : List Bytes) :
    st.run (piece :: pieces) =
      ((st.push piece).1 :: ((st.push piece).2.run pieces).1, ((st.push piece).2.run pieces).2) :=
  rfl

theorem run_flatten (st : Streamer) (pieces : List Bytes) :
    (st.run pieces).1.flatten ++ (st.run pieces).2.pending = st.pending ++ pieces.flatten := by
  induction pieces generalizing st with
  | nil => simp [run]
  | cons piece pieces ih =>
      rw [run_cons, List.flatten_cons, List.append_assoc, ih, ← List.append_assoc,
        push_append_pending, List.flatten_cons, List.append_assoc]

/-- A push holds back less than a sequence. -/
theorem push_pending_length (st : Streamer) (more : Bytes) :
    (st.push more).2.pending.length < kMaxSequence := by
  have hcut := length_lt_completePrefix (st.pending ++ more)
  have hpos : 0 < kMaxSequence := by decide
  unfold push
  dsimp only
  rw [List.length_drop]
  omega

theorem run_pending_length {st : Streamer} (h : st.pending.length < kMaxSequence)
    (pieces : List Bytes) : (st.run pieces).2.pending.length < kMaxSequence := by
  induction pieces generalizing st with
  | nil => exact h
  | cons piece pieces ih =>
      rw [run_cons]
      exact ih (st.push_pending_length piece)

/-- Pieces of a growing text go out in whole code points. -/
theorem run_grows {st : Streamer} (hcut : code.Cut st.pending) {pieces : List Bytes}
    (h : code.Grows (st.pending ++ pieces.flatten)) :
    (∀ out ∈ (st.run pieces).1, Valid out) ∧ code.Cut (st.run pieces).2.pending := by
  induction pieces generalizing st with
  | nil => exact ⟨fun out hout => (by cases hout), hcut⟩
  | cons piece pieces ih =>
      rw [List.flatten_cons, ← List.append_assoc] at h
      obtain ⟨hout, hheld⟩ := push_grows h.of_append
      rw [← st.push_append_pending piece, List.append_assoc] at h
      obtain ⟨houts, hlast⟩ := ih hheld (SyncCode.Grows.cancel hout h)
      rw [run_cons]
      exact ⟨List.forall_mem_cons.mpr ⟨hout, houts⟩, hlast⟩

/-- Streaming a text in pieces loses nothing, holds back at most three bytes after any
push, and keeps the code points of a valid text whole. -/
theorem streamed_pieces (pieces : List Bytes) :
    ((Streamer.run ⟨[]⟩ pieces).1.flatten ++ (Streamer.run ⟨[]⟩ pieces).2.flush.1 =
        pieces.flatten) ∧
      (∀ k, (Streamer.run ⟨[]⟩ (pieces.take k)).2.pending.length ≤ 3) ∧
      (isValid pieces.flatten = true →
        (∀ out ∈ (Streamer.run ⟨[]⟩ pieces).1, isValid out = true) ∧
          (Streamer.run ⟨[]⟩ pieces).2.flush.1 = []) := by
  have hall := run_flatten ⟨[]⟩ pieces
  rw [List.nil_append] at hall
  refine ⟨hall, fun k => Nat.le_of_lt_succ (run_pending_length (by decide) _), fun hvalid => ?_⟩
  have htext := isValid_iff.mp hvalid
  obtain ⟨houts, hheld⟩ := @run_grows ⟨[]⟩ (.inl rfl) pieces htext.grows
  refine ⟨fun out hout => isValid_iff.mpr (houts out hout), hheld.eq_nil ?_⟩
  rw [← hall] at htext
  exact (SyncCode.Text.flatten houts).cancel htext

/-- A code point of three bytes, cut twice. -/
theorem streamed_pieces_euro :
    (∀ out ∈ (Streamer.run ⟨[]⟩ [[0x61, 0xE2], [0x82], [0xAC, 0x62]]).1, isValid out = true) ∧
      (Streamer.run ⟨[]⟩ [[0x61, 0xE2], [0x82], [0xAC, 0x62]]).2.flush.1 = [] :=
  (streamed_pieces [[0x61, 0xE2], [0x82], [0xAC, 0x62]]).2.2 (by decide)

end Streamer

end Arcint.Text.Utf8
