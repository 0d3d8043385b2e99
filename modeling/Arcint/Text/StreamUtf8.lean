import Arcint.Text.Stop
import Arcint.Text.StreamChat

/-! # Code points on the wire

The content of an answer goes through the UTF-8 streamer, its reasoning does not: a
reasoning delta ends where a piece ends, or before what may become the close tag. So the
deltas are valid UTF-8 exactly when no text handed on inside the think block ends in the
middle of a code point.
-/

namespace Arcint.Text

open Foundation ReasoningStreamer Utf8

/-- The text of a chunk is valid UTF-8. -/
def Delta.Valid : Delta → Prop
  | .reasoning text => isValid text = true
  | .content text => isValid text = true
  | .toolCalls _ => True

def Delta.reasoningBytes : Delta → Bytes
  | .reasoning text => text
  | _ => []

/-- The concatenated reasoning deltas. -/
def reasoningOf (sent : List Delta) : Bytes := sent.flatMap Delta.reasoningBytes

/-- A chunk as `dump_json` writes its text. -/
def Delta.dumped (dump : Bytes → Bytes) : Delta → Delta
  | .reasoning text => .reasoning (dump text)
  | .content text => .content (dump text)
  | .toolCalls calls => .toolCalls calls

/-- The chunks of an answer, also those before the parser throws. -/
def ChatStream.deltas {J : Type} (lib : ToolCall.JsonLib J) (schemas : ToolCall.ToolSchemas)
    (parseToolCalls thinkOpen : Bool) (chunks : List Bytes) : List Delta :=
  let s := chunks.foldl (ChatStream.onPiece parseToolCalls) (.new thinkOpen)
  let (last, reasoning) := s.reasoning.flush
  let s := ChatStream.emitReasoning { s with reasoning := reasoning } last.reasoning
  match s.finish lib schemas parseToolCalls last.content with
  | none => s.sent
  | some s => s.sent

/-- The text so far ends inside the think block. -/
def InBlock (thinkOpen : Bool) (raw : Bytes) : Prop :=
  ∃ body, thinkBody raw thinkOpen = some body ∧ find kClose body = none

/-! ## Cuts at tags -/

section Cuts

theorem valid_kClose : Valid kClose := isValid_iff.mp (by decide)

theorem valid_kOpen : Valid kOpen := isValid_iff.mp (by decide)

theorem valid_newline : Valid [newline] := isValid_iff.mp (by decide)

theorem valid_space : Valid [space] := isValid_iff.mp (by decide)

/-- The beginnings of the close tag. -/
theorem valid_take_kClose (k : Nat) : Valid (kClose.take k) := by
  have hall : ∀ k ≤ kClose.length, isValid (kClose.take k) = true := by decide
  rcases Nat.le_total k kClose.length with hle | hge
  · exact isValid_iff.mp (hall k hle)
  · rw [List.take_of_length_le hge]
    exact valid_kClose

/-- What stands before a valid text is valid. -/
theorem valid_before {first tag rest : Bytes} (htag : Valid tag) (hne : tag ≠ [])
    (h : code.Grows (first ++ tag ++ rest)) : Valid first :=
  h.of_append.text_of_starts hne htag.starts

theorem valid_of_forall {s : Bytes} (h : ∀ b ∈ s, Valid [b]) : Valid s := by
  induction s with
  | nil => exact .nil
  | cons b s ih =>
      exact (h b List.mem_cons_self).append (ih fun c hc => h c (List.mem_cons_of_mem _ hc))

/-- A text behind leading newlines. -/
theorem stripLeadingNewlines_eq (s : Bytes) :
    ∃ newlines, Valid newlines ∧ s = newlines ++ stripLeadingNewlines s := by
  refine ⟨s.takeWhile (· == newline), valid_of_forall fun b hb => ?_,
    List.takeWhile_append_dropWhile.symm⟩
  have hnewline : (b == newline) = true := List.mem_takeWhile_imp (p := (· == newline)) hb
  rw [eq_of_beq hnewline]
  exact valid_newline

/-- The block's text stands behind a valid beginning of the answer. -/
theorem thinkBody_eq {raw body : Bytes} {thinkOpen : Bool}
    (h : thinkBody raw thinkOpen = some body) : ∃ lead, Valid lead ∧ raw = lead ++ body := by
  unfold thinkBody at h
  split at h
  next =>
    cases h
    exact ⟨[], .nil, rfl⟩
  next =>
    split at h
    next => cases h
    next htag =>
      have htag := not_not.mp htag
      cases h
      have hblank : Valid (raw.takeWhile fun b => b == newline || b == space) := by
        refine valid_of_forall fun b hb => ?_
        have hor : (b == newline || b == space) = true :=
          List.mem_takeWhile_imp (p := fun b => b == newline || b == space) hb
        rcases Bool.or_eq_true_iff.mp hor with hb | hb
        · rw [eq_of_beq hb]
          exact valid_newline
        · rw [eq_of_beq hb]
          exact valid_space
      have hskip : kOpen ++ (skipBlank raw).drop kOpen.length = skipBlank raw := by
        conv_rhs => rw [← List.take_append_drop kOpen.length (skipBlank raw), htag]
      refine ⟨_, hblank.append valid_kOpen, ?_⟩
      rw [List.append_assoc, hskip]
      exact List.takeWhile_append_dropWhile.symm

end Cuts

/-! ## What the split has sent -/

section Split

variable {thinkOpen : Bool} {pieces : List Bytes}

/-- In the block the streamer withholds the beginning of the close tag. -/
def Withholds (st : ReasoningStreamer) : Prop :=
  st.inReasoning = true → ∃ k, st.buffer = kClose.take k

theorem pushDecided_withholds {st : ReasoningStreamer} (h : Withholds st) (piece : Bytes) :
    Withholds (pushDecided st piece).2 := by
  unfold pushDecided
  split
  next => exact h
  next =>
    dsimp only
    split
    next =>
      intro _
      unfold partialStopSuffix
      rw [if_neg kClose_ne_nil]
      exact ⟨_, drop_partialSuffix _ _ _⟩
    next =>
      intro hin
      cases hin

theorem run_withholds (thinkOpen : Bool) (pieces : List Bytes) :
    Withholds (run thinkOpen pieces).2 := by
  induction pieces using List.reverseRecOn with
  | nil => exact fun _ => ⟨0, rfl⟩
  | append_singleton pieces piece ih =>
      have hreached := reached_run thinkOpen pieces
      rw [run, List.foldl_append]
      change Withholds (feed (run thinkOpen pieces) piece).2
      generalize run thinkOpen pieces = sent at hreached ih
      cases hreached with
      | undecided hopen hlead =>
          unfold feed ReasoningStreamer.push
          rw [if_pos rfl]
          dsimp only
          repeat' split
          · exact fun hin => by cases hin
          · exact fun hin => by cases hin
          · exact pushDecided_withholds (fun _ => ⟨0, rfl⟩) _
          · exact fun hin => by cases hin
      | plain | inside | closed => exact pushDecided_withholds ih piece

/-- The block is not open before its tag is there. -/
theorem thinkBody_of_short (h : (skipBlank pieces.flatten).length < kOpen.length) :
    thinkBody pieces.flatten false = none := by
  rw [thinkBody, if_neg (by decide), if_pos]
  intro heq
  have hlength := congrArg List.length heq
  rw [List.length_take] at hlength
  omega

/-- The reasoning sent so far is valid, unless a code point is cut inside the block. -/
theorem reasoning_valid_iff (hgrows : code.Grows pieces.flatten) :
    Valid (run thinkOpen pieces).1.reasoning ↔
      (InBlock thinkOpen pieces.flatten → Valid pieces.flatten) := by
  have hreached := reached_run thinkOpen pieces
  have hwithholds := run_withholds thinkOpen pieces
  generalize run thinkOpen pieces = sent at hreached hwithholds
  have houtside : ∀ reasoning : Bytes, Valid reasoning → ¬ InBlock thinkOpen pieces.flatten →
      (Valid reasoning ↔ (InBlock thinkOpen pieces.flatten → Valid pieces.flatten)) :=
    fun _ hvalid hout => ⟨fun _ hin => absurd hin hout, fun _ => hvalid⟩
  cases hreached with
  | undecided hopen hlead =>
      refine houtside [] .nil ?_
      rintro ⟨body, hbody, _⟩
      rw [hopen, thinkBody_of_short hlead] at hbody
      cases hbody
  | plain hbody =>
      refine houtside [] .nil ?_
      rintro ⟨body, hsome, _⟩
      have hnone := hbody []
      rw [List.append_nil, hsome] at hnone
      cases hnone
  | inside reasoning buffer hbody hclear hnone =>
      have hopen := hbody []
      rw [List.append_nil, List.append_nil] at hopen
      have hin : InBlock thinkOpen pieces.flatten := by
        refine ⟨_, hopen, ?_⟩
        have hfind := hclear.find_append []
        rwa [List.append_nil, List.append_nil, hnone] at hfind
      obtain ⟨lead, hlead, hraw⟩ := thinkBody_eq hopen
      obtain ⟨k, hbuffer⟩ := hwithholds rfl
      dsimp only at hbuffer
      have hheld : Valid buffer := hbuffer ▸ valid_take_kClose k
      refine ⟨fun hvalid _ => ?_, fun h => ?_⟩
      · rw [hraw]
        exact hlead.append (hvalid.append hheld)
      · have hwhole := h hin
        rw [hraw] at hwhole
        exact ((hlead.cancel hwhole).split hheld.starts).1
  | closed reasoning before piece after rest hpieces hrest hshort hbody hclear =>
      have hopen := hbody []
      rw [List.append_nil, List.append_nil] at hopen
      obtain ⟨lead, hlead, hraw⟩ := thinkBody_eq hopen
      refine houtside reasoning ?_ ?_
      · rw [hraw] at hgrows
        have hinner := SyncCode.Grows.cancel hlead hgrows
        rw [List.append_assoc (reasoning ++ kClose)] at hinner
        exact valid_before valid_kClose kClose_ne_nil hinner
      · rintro ⟨body, hsome, hnone⟩
        rw [hopen] at hsome
        cases hsome
        refine find_eq_none_iff.mp hnone reasoning.length ?_
        rw [List.append_assoc, List.append_assoc, List.drop_left]
        exact List.prefix_append _ _

/-- What stands before the content of a closed block is valid. -/
theorem behind_close_eq {reasoning rest more lead : Bytes} (hlead : Valid lead)
    (h : code.Grows (lead ++ (reasoning ++ kClose ++ rest ++ more))) :
    ∃ before, Valid before ∧ lead ++ (reasoning ++ kClose ++ rest ++ more) =
      before ++ (stripLeadingNewlines rest ++ more) := by
  have hinner := SyncCode.Grows.cancel hlead h
  rw [List.append_assoc (reasoning ++ kClose)] at hinner
  have hreasoning := valid_before valid_kClose kClose_ne_nil hinner
  obtain ⟨newlines, hnewlines, hrest⟩ := stripLeadingNewlines_eq rest
  refine ⟨_, hlead.append ((hreasoning.append valid_kClose).append hnewlines), ?_⟩
  nth_rewrite 1 [hrest]
  simp only [List.append_assoc]

/-- The content sent so far is the beginning of a valid text. -/
theorem content_grows (hgrows : code.Grows pieces.flatten) :
    code.Grows (run thinkOpen pieces).1.content := by
  have hreached := reached_run thinkOpen pieces
  generalize run thinkOpen pieces = sent at hreached
  cases hreached with
  | undecided => exact SyncCode.Text.nil.grows
  | plain => exact hgrows
  | inside => exact SyncCode.Text.nil.grows
  | closed reasoning before piece after rest hpieces hrest hshort hbody hclear =>
      have hopen := hbody []
      rw [List.append_nil, List.append_nil] at hopen
      obtain ⟨lead, hlead, hraw⟩ := thinkBody_eq hopen
      rw [hraw] at hgrows
      obtain ⟨before, hbefore, heq⟩ := behind_close_eq hlead hgrows
      rw [heq] at hgrows
      exact SyncCode.Grows.cancel hbefore hgrows

/-- Of a whole answer, reasoning and content are valid. -/
theorem stream_valid (hvalid : Valid pieces.flatten) :
    Valid (stream thinkOpen pieces).reasoning ∧ Valid (stream thinkOpen pieces).content := by
  have hreached := reached_run thinkOpen pieces
  have hsofar := (@reasoning_valid_iff thinkOpen pieces hvalid.grows).mpr fun _ => hvalid
  unfold stream
  generalize run thinkOpen pieces = sent at hreached hsofar
  cases hreached with
  | undecided =>
      unfold flush
      dsimp only
      split
      next => exact ⟨.nil, .nil⟩
      next => exact ⟨.nil, hvalid⟩
  | plain => exact ⟨.nil, by simpa [flush, Step.append, Step.empty] using hvalid⟩
  | inside reasoning buffer hbody hclear hnone =>
      have hopen := hbody []
      rw [List.append_nil, List.append_nil] at hopen
      obtain ⟨lead, hlead, hraw⟩ := thinkBody_eq hopen
      rw [hraw] at hvalid
      have hinner := hlead.cancel hvalid
      unfold flush
      dsimp only
      split
      next hnil =>
        refine ⟨?_, .nil⟩
        rwa [hnil] at hinner
      next => exact ⟨hinner, .nil⟩
  | closed reasoning before piece after rest hpieces hrest hshort hbody hclear =>
      have hopen := hbody []
      rw [List.append_nil, List.append_nil] at hopen
      obtain ⟨lead, hlead, hraw⟩ := thinkBody_eq hopen
      rw [hraw] at hvalid
      obtain ⟨before, hbefore, heq⟩ := behind_close_eq hlead hvalid.grows
      rw [heq] at hvalid
      have hcontent := hbefore.cancel hvalid
      refine ⟨?_, ?_⟩
      · simpa [flush, Step.append, Step.empty] using hsofar
      · simpa [flush, Step.append, Step.empty] using hcontent

end Split

/-! ## The stream -/

namespace ChatStream

section Frame

variable {s : ChatStream}

theorem reasoningOf_append (a b : List Delta) :
    reasoningOf (a ++ b) = reasoningOf a ++ reasoningOf b :=
  List.flatMap_append

@[simp] theorem reasoningOf_emitReasoning (s : ChatStream) (text : Bytes) :
    reasoningOf (s.emitReasoning text).sent = reasoningOf s.sent ++ text := by
  unfold emitReasoning
  split
  next hnil => rw [hnil, List.append_nil]
  next =>
    rw [reasoningOf_append]
    simp [reasoningOf, Delta.reasoningBytes]

@[simp] theorem handed_emitReasoning (s : ChatStream) (text : Bytes) :
    (s.emitReasoning text).handed = s.handed := by
  unfold emitReasoning handed
  split
  next => rfl
  next =>
    rw [contentOf_append]
    simp [contentOf, Delta.contentBytes]

/-- A reasoning delta leaves the rest of the stream alone. -/
theorem emitReasoning_frame (s : ChatStream) (text : Bytes) :
    (s.emitReasoning text).reasoning = s.reasoning ∧ (s.emitReasoning text).utf8 = s.utf8 ∧
      (s.emitReasoning text).content = s.content ∧
      (s.emitReasoning text).streamed = s.streamed := by
  unfold emitReasoning
  split <;> exact ⟨rfl, rfl, rfl, rfl⟩

/-- A content delta leaves everything but the UTF-8 streamer alone. -/
theorem emitContent_frame (s : ChatStream) (text : Bytes) :
    (s.emitContent text).reasoning = s.reasoning ∧ (s.emitContent text).content = s.content ∧
      reasoningOf (s.emitContent text).sent = reasoningOf s.sent := by
  refine ⟨rfl, rfl, ?_⟩
  unfold emitContent
  dsimp only
  split
  next => rfl
  next =>
    rw [reasoningOf_append]
    simp [reasoningOf, Delta.reasoningBytes]

theorem acceptContent_frame (parseToolCalls : Bool) (s : ChatStream) (piece : Bytes) :
    (s.acceptContent parseToolCalls piece).reasoning = s.reasoning ∧
      (s.acceptContent parseToolCalls piece).content = s.content ++ piece ∧
      reasoningOf (s.acceptContent parseToolCalls piece).sent = reasoningOf s.sent := by
  unfold acceptContent
  split
  next hnil => exact ⟨rfl, by rw [hnil, List.append_nil], rfl⟩
  next =>
    dsimp only
    split
    next => exact emitContent_frame _ _
    next =>
      split
      next => exact emitContent_frame _ _
      next => exact ⟨rfl, rfl, rfl⟩

end Frame

/-- Everything sent is valid, and what is held is the beginning of a code point. -/
structure Clean (s : ChatStream) : Prop where
  sent : ∀ delta ∈ s.sent, delta.Valid
  held : code.Cut s.utf8.pending

section Clean

variable {s : ChatStream}

/-- Text taken from each delta in turn. -/
theorem flatMap_valid {f : Delta → Bytes} {sent : List Delta} (h : ∀ delta ∈ sent, delta.Valid)
    (hf : ∀ delta : Delta, delta.Valid → Valid (f delta)) : Valid (sent.flatMap f) := by
  rw [List.flatMap_def]
  apply SyncCode.Text.flatten
  intro part hpart
  obtain ⟨delta, hdelta, rfl⟩ := List.mem_map.mp hpart
  exact hf delta (h delta hdelta)

theorem contentOf_valid {sent : List Delta} (h : ∀ delta ∈ sent, delta.Valid) :
    Valid (contentOf sent) := by
  apply flatMap_valid h
  intro delta hvalid
  cases delta with
  | content text => exact isValid_iff.mp hvalid
  | reasoning | toolCalls => exact .nil

theorem reasoningOf_valid {sent : List Delta} (h : ∀ delta ∈ sent, delta.Valid) :
    Valid (reasoningOf sent) := by
  apply flatMap_valid h
  intro delta hvalid
  cases delta with
  | reasoning text => exact isValid_iff.mp hvalid
  | content | toolCalls => exact .nil

theorem Clean.sent_concat (h : Clean s) {delta : Delta} (hvalid : delta.Valid) :
    ∀ other ∈ s.sent ++ [delta], other.Valid :=
  List.forall_mem_append.mpr ⟨h.sent, List.forall_mem_singleton.mpr hvalid⟩

theorem Clean.emitReasoning (h : Clean s) {text : Bytes} (htext : Valid text) :
    Clean (s.emitReasoning text) := by
  obtain ⟨_, hutf8, _⟩ := emitReasoning_frame s text
  refine ⟨?_, hutf8 ▸ h.held⟩
  unfold ChatStream.emitReasoning
  split
  next => exact h.sent
  next =>
    exact h.sent_concat (isValid_iff.mpr htext)

/-- What is handed to the UTF-8 streamer goes out in whole code points. -/
theorem Clean.emitContent (h : Clean s) {text : Bytes} (hgrows : code.Grows (s.handed ++ text)) :
    Clean (s.emitContent text) := by
  rw [handed, List.append_assoc] at hgrows
  obtain ⟨hsafe, hheld⟩ :=
    Streamer.push_grows (SyncCode.Grows.cancel (contentOf_valid h.sent) hgrows)
  refine ⟨?_, hheld⟩
  unfold ChatStream.emitContent
  dsimp only
  split
  next => exact h.sent
  next =>
    exact h.sent_concat (isValid_iff.mpr hsafe)

/-- When all that was handed on is valid, nothing is held. -/
theorem Clean.pending_nil (h : Clean s) (hvalid : Valid s.handed) : s.utf8.pending = [] :=
  h.held.eq_nil ((contentOf_valid h.sent).cancel hvalid)

theorem Clean.close (h : Clean s) (hvalid : Valid s.handed) (calls : List ToolCall.Call) :
    ∀ delta ∈ (s.close calls).sent, delta.Valid := by
  have hnil := h.pending_nil hvalid
  unfold ChatStream.close
  simp only [Streamer.flush, hnil, if_true]
  split
  next => exact h.sent
  next =>
    exact h.sent_concat trivial

end Clean

/-! ### Piece by piece -/

/-- How much of the content has been handed to the UTF-8 streamer: all of it, or what is
clear of a tool-call tag. -/
def HandedOn (parseToolCalls : Bool) (s : ChatStream) : Prop :=
  if parseToolCalls = true then Driven s.content s else s.handed = s.content

/-- The stream and the split of the same chunks. -/
structure Streams (parseToolCalls thinkOpen : Bool) (chunks : List Bytes) (s : ChatStream) :
    Prop where
  split : s.reasoning = (run thinkOpen chunks).2
  reasoned : reasoningOf s.sent = (run thinkOpen chunks).1.reasoning
  content : s.content = (run thinkOpen chunks).1.content
  handedOn : HandedOn parseToolCalls s

section Pieces

variable {parseToolCalls thinkOpen : Bool} {chunks : List Bytes} {s : ChatStream}

theorem HandedOn.emitReasoning (h : HandedOn parseToolCalls s) (st : ReasoningStreamer)
    (text : Bytes) :
    HandedOn parseToolCalls (ChatStream.emitReasoning { s with reasoning := st } text) := by
  obtain ⟨_, _, hcontent, hstreamed⟩ := emitReasoning_frame { s with reasoning := st } text
  have hhanded := handed_emitReasoning { s with reasoning := st } text
  unfold HandedOn at *
  split at h
  next hparse =>
    rw [if_pos hparse]
    exact ⟨rfl, by rw [hcontent, hstreamed]; exact h.inside,
      by rw [hcontent, hstreamed]; exact h.clear,
      by rw [hcontent, hstreamed, hhanded]; exact h.handed⟩
  next hparse =>
    rw [if_neg hparse, hhanded, hcontent]
    exact h

theorem HandedOn.acceptContent (h : HandedOn parseToolCalls s) (piece : Bytes) :
    HandedOn parseToolCalls (s.acceptContent parseToolCalls piece) := by
  obtain ⟨_, hcontent, _⟩ := acceptContent_frame parseToolCalls s piece
  unfold HandedOn at *
  rw [hcontent]
  split at h
  next hparse =>
    rw [hparse, if_pos rfl]
    exact Driven.acceptContent h piece
  next hparse =>
    rw [eq_false_of_ne_true hparse, if_neg (by decide)]
    unfold ChatStream.acceptContent
    split
    next hnil => rw [hnil, List.append_nil, h]
    next =>
      rw [if_pos rfl, handed_emitContent]
      exact congrArg (· ++ piece) h

/-- The split after one more chunk. -/
theorem run_concat (thinkOpen : Bool) (chunks : List Bytes) (piece : Bytes) :
    run thinkOpen (chunks ++ [piece]) =
      ((run thinkOpen chunks).1.append ((run thinkOpen chunks).2.push piece).1,
        ((run thinkOpen chunks).2.push piece).2) := by
  rw [run, List.foldl_append]
  rfl

theorem onPiece_eq (parseToolCalls : Bool) (s : ChatStream) (piece : Bytes) :
    s.onPiece parseToolCalls piece =
      (ChatStream.emitReasoning { s with reasoning := (s.reasoning.push piece).2 }
        (s.reasoning.push piece).1.reasoning).acceptContent parseToolCalls
          (s.reasoning.push piece).1.content := rfl

theorem Streams.onPiece (h : Streams parseToolCalls thinkOpen chunks s) (piece : Bytes) :
    Streams parseToolCalls thinkOpen (chunks ++ [piece]) (s.onPiece parseToolCalls piece) := by
  have hrun := run_concat thinkOpen chunks piece
  rw [← h.split] at hrun
  rw [onPiece_eq]
  generalize s.reasoning.push piece = out at hrun
  obtain ⟨hsplit, hcontent, hreasoned⟩ := acceptContent_frame parseToolCalls
    (ChatStream.emitReasoning { s with reasoning := out.2 } out.1.reasoning) out.1.content
  obtain ⟨hsplit', _, hcontent', _⟩ :=
    emitReasoning_frame { s with reasoning := out.2 } out.1.reasoning
  refine ⟨?_, ?_, ?_, (h.handedOn.emitReasoning _ _).acceptContent _⟩
  · rw [hrun, hsplit, hsplit']
  · rw [hrun, hreasoned, reasoningOf_emitReasoning]
    exact congrArg (· ++ _) h.reasoned
  · rw [hrun, hcontent, hcontent']
    exact congrArg (· ++ _) h.content

theorem Clean.acceptContent (h : Clean s) (hhanded : HandedOn parseToolCalls s) {piece : Bytes}
    (hgrows : code.Grows (s.content ++ piece)) :
    Clean (s.acceptContent parseToolCalls piece) := by
  unfold ChatStream.acceptContent
  split
  next => exact h
  next =>
    dsimp only
    have hclean : Clean { s with content := s.content ++ piece } := ⟨h.sent, h.held⟩
    unfold HandedOn at hhanded
    split
    next hparse =>
      rw [hparse, if_neg (by decide)] at hhanded
      refine hclean.emitContent ?_
      change code.Grows (s.handed ++ piece)
      rwa [hhanded]
    next hparse =>
      split
      next hmore =>
        rw [if_pos (eq_true_of_ne_false hparse)] at hhanded
        -- the slice up to any later place continues what was handed on
        have hout : ∀ last, s.streamed < last → code.Grows (s.handed ++
            slice (s.content ++ piece) s.streamed (last - s.streamed)) := by
          intro last hlast
          rw [hhanded.handed, ← List.take_append_of_le_length hhanded.inside,
            take_append_slice, Nat.add_sub_cancel' (Nat.le_of_lt hlast)]
          rw [← List.take_append_drop last (s.content ++ piece)] at hgrows
          exact hgrows.of_append
        refine Clean.emitContent ?_ (hout _ hmore)
        exact ⟨h.sent, h.held⟩
      next => exact hclean

/-- A chunk, when the reasoning before and behind it is valid. -/
theorem Clean.onPiece (h : Clean s) (hstreams : Streams parseToolCalls thinkOpen chunks s)
    {piece : Bytes} (hgrows : code.Grows (chunks ++ [piece]).flatten)
    (hbefore : Valid (run thinkOpen chunks).1.reasoning)
    (hafter : Valid (run thinkOpen (chunks ++ [piece])).1.reasoning) :
    Clean (s.onPiece parseToolCalls piece) := by
  have hcontent := @content_grows thinkOpen _ hgrows
  rw [run_concat, ← hstreams.split] at hafter hcontent
  rw [onPiece_eq]
  generalize s.reasoning.push piece = out at hafter hcontent
  have hdelta : Valid out.1.reasoning := hbefore.cancel hafter
  obtain ⟨_, _, hsame, _⟩ := emitReasoning_frame { s with reasoning := out.2 } out.1.reasoning
  refine Clean.acceptContent ?_ (hstreams.handedOn.emitReasoning _ _) ?_
  · refine Clean.emitReasoning ?_ hdelta
    exact ⟨h.sent, h.held⟩
  · rw [hsame]
    change code.Grows (s.content ++ _)
    rw [hstreams.content]
    exact hcontent

theorem foldl_streams (parseToolCalls thinkOpen : Bool) (chunks : List Bytes) :
    Streams parseToolCalls thinkOpen chunks
      (chunks.foldl (ChatStream.onPiece parseToolCalls) (.new thinkOpen)) := by
  induction chunks using List.reverseRecOn with
  | nil =>
      refine ⟨rfl, rfl, rfl, ?_⟩
      unfold HandedOn
      split
      next => exact driven_new thinkOpen
      next => rfl
  | append_singleton chunks piece ih =>
      rw [List.foldl_append]
      exact ih.onPiece piece

theorem foldl_clean (parseToolCalls : Bool) (hgrows : code.Grows chunks.flatten)
    (hall : ∀ k, Valid (run thinkOpen (chunks.take k)).1.reasoning) :
    Clean (chunks.foldl (ChatStream.onPiece parseToolCalls) (.new thinkOpen)) := by
  induction chunks using List.reverseRecOn with
  | nil => exact ⟨fun delta hdelta => (by cases hdelta), .inl rfl⟩
  | append_singleton chunks piece ih =>
      rw [List.foldl_append]
      -- what held of every first part holds of those without the last chunk
      have hbefore : ∀ k, Valid (run thinkOpen (chunks.take k)).1.reasoning := by
        intro k
        have hk := hall (min k chunks.length)
        rw [List.take_append_of_le_length (Nat.min_le_right _ _), List.take_eq_take_min] at hk
        rwa [Nat.min_assoc, Nat.min_self, ← List.take_eq_take_min] at hk
      have hlast := hall (chunks ++ [piece]).length
      rw [List.take_length] at hlast
      have hwhole := hbefore chunks.length
      rw [List.take_length] at hwhole
      have hgrows' := hgrows
      rw [flatten_concat] at hgrows'
      exact (ih hgrows'.of_append hbefore).onPiece (foldl_streams _ _ _) hgrows hwhole hlast

/-! ### What has been sent stays sent -/

theorem emitReasoning_sent (s : ChatStream) (text : Bytes) :
    s.sent <+: (s.emitReasoning text).sent := by
  unfold ChatStream.emitReasoning
  split
  next => exact List.prefix_refl _
  next => exact List.prefix_append _ _

theorem emitContent_sent (s : ChatStream) (text : Bytes) :
    s.sent <+: (s.emitContent text).sent := by
  unfold ChatStream.emitContent
  dsimp only
  split
  next => exact List.prefix_refl _
  next => exact List.prefix_append _ _

theorem acceptContent_sent (parseToolCalls : Bool) (s : ChatStream) (piece : Bytes) :
    s.sent <+: (s.acceptContent parseToolCalls piece).sent := by
  unfold ChatStream.acceptContent
  dsimp only
  repeat' split
  · exact List.prefix_refl _
  · exact emitContent_sent { s with content := s.content ++ piece } piece
  · exact emitContent_sent { s with content := s.content ++ piece, streamed := _ } _
  · exact List.prefix_refl _

theorem onPiece_sent (parseToolCalls : Bool) (s : ChatStream) (piece : Bytes) :
    s.sent <+: (s.onPiece parseToolCalls piece).sent := by
  rw [onPiece_eq]
  exact (emitReasoning_sent { s with reasoning := (s.reasoning.push piece).2 } _).trans
    (acceptContent_sent _ _ _)

theorem foldl_sent (parseToolCalls : Bool) (s : ChatStream) (chunks : List Bytes) :
    s.sent <+: (chunks.foldl (ChatStream.onPiece parseToolCalls) s).sent := by
  induction chunks generalizing s with
  | nil => exact List.prefix_refl _
  | cons piece chunks ih => exact (onPiece_sent parseToolCalls s piece).trans (ih _)

theorem close_sent (s : ChatStream) (calls : List ToolCall.Call) :
    s.sent <+: (s.close calls).sent := by
  unfold ChatStream.close
  dsimp only
  repeat' split
  · exact List.prefix_refl _
  · exact List.prefix_append _ _
  · exact List.prefix_append _ _
  · rw [List.append_assoc]
    exact List.prefix_append _ _

variable {J : Type} {lib : ToolCall.JsonLib J} {schemas : ToolCall.ToolSchemas}

theorem finish_sent {last : Bytes} {out : ChatStream}
    (h : s.finish lib schemas parseToolCalls last = some out) : s.sent <+: out.sent := by
  have hlast : s.sent <+: (s.acceptLast parseToolCalls last).sent := by
    unfold acceptLast
    dsimp only
    repeat' split
    · exact List.prefix_refl _
    · exact emitContent_sent { s with content := s.content ++ last } last
    · exact List.prefix_refl _
  refine hlast.trans ?_
  unfold finish at h
  dsimp only at h
  split at h
  next =>
    cases h
    exact close_sent _ _
  next =>
    obtain ⟨parsed, _, rfl⟩ := Option.map_eq_some_iff.mp h
    split
    next => exact (emitContent_sent _ _).trans (close_sent _ _)
    next => exact close_sent _ _

/-! ### The end of the stream -/

/-- The content that the parser keeps of a valid text. -/
theorem parsed_content_valid {text : Bytes} {parsed : ToolCall.Parse} (hvalid : Valid text)
    (hparse : ToolCall.parseQwenToolCalls lib schemas text = some parsed) :
    Valid parsed.content := by
  obtain ⟨segments, hsegments⟩ := ToolCall.parseQwenToolCalls_interleaves hparse
  have hopen : Valid ToolCall.kOpen := isValid_iff.mp (by decide)
  have hclose : Valid ToolCall.kClose := isValid_iff.mp (by decide)
  have hshown : ∀ (segments : List ToolCall.Segment) (before : Bytes),
      (∀ segment ∈ segments, ∀ call, segment.call = some call →
        ToolCall.IsBlock lib schemas segment.bytes call) →
      Valid (before ++ segments.flatMap ToolCall.Segment.bytes) →
      Valid (before ++ segments.flatMap ToolCall.Segment.shown) := by
    intro segments
    induction segments with
    | nil => exact fun before _ h => h
    | cons segment segments ih =>
        intro before hblocks h
        have hrest := fun before => ih before fun other hother =>
          hblocks other (List.mem_cons_of_mem _ hother)
        rw [List.flatMap_cons, ← List.append_assoc] at h ⊢
        cases hcall : segment.call with
        | none =>
            rw [ToolCall.Segment.shown, hcall]
            exact hrest _ h
        | some call =>
            -- a block starts and ends with a tag, so it is cut out between code points
            obtain ⟨body, hblock, -⟩ := hblocks segment List.mem_cons_self call hcall
            have hcut : Valid (before ++ ToolCall.kOpen ++ (body ++ ToolCall.kClose ++
                segments.flatMap ToolCall.Segment.bytes)) := by
              rw [hblock] at h
              simpa only [List.append_assoc] using h
            have hbefore := valid_before hopen (by decide) hcut.grows
            have hinner := (hbefore.append hopen).cancel hcut
            have hbody := valid_before hclose (by decide) hinner.grows
            have hbehind := (hbody.append hclose).cancel hinner
            rw [ToolCall.Segment.shown, hcall, List.append_nil]
            exact hrest before (hbefore.append hbehind)
  have hall := hshown segments [] hsegments.blocks
  rw [List.nil_append, List.nil_append, hsegments.text, hsegments.content] at hall
  exact hall hvalid

theorem acceptLast_frame (parseToolCalls : Bool) (s : ChatStream) (last : Bytes) :
    (s.acceptLast parseToolCalls last).content = s.content ++ last ∧
      (s.acceptLast parseToolCalls last).streamed = s.streamed ∧
      (s.acceptLast parseToolCalls last).handed =
        if parseToolCalls = false then s.handed ++ last else s.handed := by
  unfold acceptLast
  split
  next hnil =>
    rw [hnil, List.append_nil, List.append_nil, ite_self]
    exact ⟨rfl, rfl, rfl⟩
  next =>
    dsimp only
    split
    next => exact ⟨rfl, rfl, handed_emitContent _ _⟩
    next => exact ⟨rfl, rfl, rfl⟩

theorem Clean.acceptLast (h : Clean s) {last : Bytes}
    (hgrows : parseToolCalls = false → code.Grows (s.handed ++ last)) :
    Clean (s.acceptLast parseToolCalls last) := by
  unfold ChatStream.acceptLast
  split
  next => exact h
  next =>
    dsimp only
    have hclean : Clean { s with content := s.content ++ last } := ⟨h.sent, h.held⟩
    split
    next hparse => exact hclean.emitContent (hgrows hparse)
    next => exact hclean

/-- Everything sent is valid when the content is. -/
theorem Clean.finish (h : Clean s) (hhanded : HandedOn parseToolCalls s) {last : Bytes}
    (hvalid : Valid (s.content ++ last)) {out : ChatStream}
    (hout : s.finish lib schemas parseToolCalls last = some out) :
    ∀ delta ∈ out.sent, delta.Valid := by
  obtain ⟨hcontent, hstreamed, hsofar⟩ := acceptLast_frame parseToolCalls s last
  unfold HandedOn at hhanded
  unfold ChatStream.finish at hout
  dsimp only at hout
  split at hout
  next hparse =>
    cases hout
    rw [hparse, if_neg (by decide)] at hhanded
    rw [if_pos hparse, hhanded] at hsofar
    refine (h.acceptLast fun _ => ?_).close (hsofar ▸ hvalid) []
    rw [hhanded]
    exact hvalid.grows
  next hparse =>
    rw [if_pos (eq_true_of_ne_false hparse)] at hhanded
    rw [if_neg hparse] at hsofar
    obtain ⟨parsed, hparsed, rfl⟩ := Option.map_eq_some_iff.mp hout
    rw [hcontent] at hparsed
    obtain ⟨hlength, hbegun⟩ := hhanded.handed_parsed hparsed
    have hkept := parsed_content_valid hvalid hparsed
    have hclean : Clean (s.acceptLast parseToolCalls last) :=
      h.acceptLast fun hfalse => absurd hfalse hparse
    have hrest : (s.acceptLast parseToolCalls last).handed ++ parsed.content.drop s.streamed =
        parsed.content := by
      rw [hsofar, hbegun, List.take_append_drop]
    rw [hstreamed]
    split
    next =>
      refine (hclean.emitContent ?_).close ?_ _
      · rw [hrest]
        exact hkept.grows
      · rw [handed_emitContent, hrest]
        exact hkept
    next hnone =>
      rw [List.drop_eq_nil_of_le (Nat.le_of_not_lt hnone), List.append_nil] at hrest
      exact hclean.close (hrest ▸ hkept) _

/-! ## Every answer -/

theorem deltas_sent (lib : ToolCall.JsonLib J) (schemas : ToolCall.ToolSchemas)
    (parseToolCalls thinkOpen : Bool) (chunks : List Bytes) :
    (chunks.foldl (ChatStream.onPiece parseToolCalls) (.new thinkOpen)).sent <+:
      deltas lib schemas parseToolCalls thinkOpen chunks := by
  unfold deltas
  generalize chunks.foldl (ChatStream.onPiece parseToolCalls) (.new thinkOpen) = s
  have hlast := emitReasoning_sent { s with reasoning := s.reasoning.flush.2 }
    s.reasoning.flush.1.reasoning
  dsimp only
  split
  next => exact hlast
  next hfinish => exact hlast.trans (finish_sent hfinish)

/-- The chunks of a valid text, in any cut. -/
theorem deltas_valid_iff (hvalid : Valid chunks.flatten) :
    (∀ delta ∈ deltas lib schemas parseToolCalls thinkOpen chunks, delta.Valid) ↔
      ∀ k, InBlock thinkOpen (chunks.take k).flatten → Valid (chunks.take k).flatten := by
  have hgrows : ∀ k, code.Grows (chunks.take k).flatten := by
    intro k
    refine SyncCode.Grows.of_append (b := (chunks.drop k).flatten) ?_
    rw [← List.flatten_append, List.take_append_drop]
    exact hvalid.grows
  have hreasoning := fun k => @reasoning_valid_iff thinkOpen _ (hgrows k)
  constructor
  · intro hall k
    have hbegins : ((chunks.take k).foldl (ChatStream.onPiece parseToolCalls)
        (.new thinkOpen)).sent <+: deltas lib schemas parseToolCalls thinkOpen chunks := by
      refine List.IsPrefix.trans ?_ (deltas_sent lib schemas parseToolCalls thinkOpen chunks)
      conv_rhs => rw [← List.take_append_drop k chunks, List.foldl_append]
      exact foldl_sent _ _ _
    rw [← hreasoning k, ← (foldl_streams parseToolCalls thinkOpen _).reasoned]
    exact reasoningOf_valid fun delta hdelta => hall delta (hbegins.subset hdelta)
  · intro hall
    have hclean := foldl_clean parseToolCalls hvalid.grows fun k => (hreasoning k).mpr (hall k)
    have hstreams := foldl_streams parseToolCalls thinkOpen chunks
    have hsofar := (hreasoning chunks.length).mpr (hall chunks.length)
    rw [List.take_length] at hsofar
    obtain ⟨hlast, hcontent⟩ := @stream_valid thinkOpen chunks hvalid
    unfold stream at hlast hcontent
    dsimp only [Step.append] at hlast hcontent
    unfold deltas
    generalize chunks.foldl (ChatStream.onPiece parseToolCalls) (.new thinkOpen) = s
      at hclean hstreams
    rw [← hstreams.split] at hlast hcontent
    have hflushed := Clean.emitReasoning (s := { s with reasoning := s.reasoning.flush.2 })
      ⟨hclean.sent, hclean.held⟩ (hsofar.cancel hlast)
    dsimp only
    split
    next => exact hflushed.sent
    next hfinish =>
      refine hflushed.finish (hstreams.handedOn.emitReasoning _ _) ?_ hfinish
      rw [(emitReasoning_frame _ _).2.2.1, hstreams.content]
      exact hcontent

end Pieces

end ChatStream

/-- No text that the stop matcher has released inside the think block ends within a code
point. -/
def KeepsCodePoints (thinkOpen : Bool) (stops pieces : List Bytes) : Prop :=
  ∀ k, Unstopped stops (pieces.take k).flatten →
    InBlock thinkOpen (released stops (pieces.take k).flatten) →
    isValid (released stops (pieces.take k).flatten) = true

theorem dumped_eq {dump : Bytes → Bytes} (hdump : ∀ text, isValid text = true → dump text = text)
    {delta : Delta} (hvalid : delta.Valid) : delta.dumped dump = delta := by
  cases delta with
  | reasoning text => exact congrArg Delta.reasoning (hdump text hvalid)
  | content text => exact congrArg Delta.content (hdump text hvalid)
  | toolCalls calls => rfl

/-- Every delta of a streamed answer is valid UTF-8 exactly when the reasoning keeps its
code points; and then `dump_json`, which keeps valid text, writes the deltas as they are. -/
theorem streamed_deltas_valid_iff {J : Type} (lib : ToolCall.JsonLib J)
    (schemas : ToolCall.ToolSchemas) (parseToolCalls thinkOpen : Bool) {stops pieces : List Bytes}
    {dump : Bytes → Bytes} (hstops : ∀ stop ∈ stops, stop ≠ [] ∧ isValid stop = true)
    (hpieces : isValid pieces.flatten = true)
    (hdump : ∀ text, isValid text = true → dump text = text) :
    let deltas := ChatStream.deltas lib schemas parseToolCalls thinkOpen (driven stops pieces)
    ((∀ delta ∈ deltas, delta.Valid) ↔ KeepsCodePoints thinkOpen stops pieces) ∧
      (KeepsCodePoints thinkOpen stops pieces → deltas.map (Delta.dumped dump) = deltas) := by
  intro deltas
  have hne : ∀ stop ∈ stops, stop ≠ [] := fun stop hstop => (hstops stop hstop).1
  have hvalid : Valid (driven stops pieces).flatten := by
    rcases @driven_flatten stops pieces hne with hwhole | ⟨stop, hstop, more, hcut⟩
    · rw [hwhole]
      exact isValid_iff.mp hpieces
    · have htext := isValid_iff.mp hpieces
      rw [← hcut] at htext
      exact valid_before (isValid_iff.mp (hstops stop hstop).2) (hne stop hstop) htext.grows
  have hiff : (∀ delta ∈ deltas, delta.Valid) ↔ KeepsCodePoints thinkOpen stops pieces := by
    unfold KeepsCodePoints
    rw [ChatStream.deltas_valid_iff hvalid,
      forall_driven (P := fun text => InBlock thinkOpen text → Valid text) hne]
    simp only [isValid_iff]
    exact and_iff_left fun _ => hvalid
  refine ⟨hiff, fun hkeeps => ?_⟩
  refine (List.map_congr_left fun delta hdelta => ?_).trans (List.map_id deltas)
  exact dumped_eq hdump (hiff.mpr hkeeps delta hdelta)

/-- A library for answers without tool calls. -/
def plainLib : ToolCall.JsonLib Unit where
  parse := fun _ => none
  isNumber := fun _ => false
  isObject := fun _ => false
  isArray := fun _ => false
  ofString := fun _ => ()
  ofBool := fun _ => ()
  object := ()
  set := fun _ _ _ => ()
  get := fun _ _ => none
  string := fun _ => none
  dump := fun _ => none

/-- Valid text as it is, and the replacement character for other text. -/
def replacing (text : Bytes) : Bytes := if isValid text = true then text else [0xEF, 0xBF, 0xBD]

/-- Behind the block a piece cuts a code point, and a stop string completes over three. -/
def behindBlock : List Bytes :=
  [bytes "ab", bytes "</think>", [0x63, 0xC3], [0xA9, 0x45], bytes "N", bytes "Dx"]

theorem streamed_deltas_valid_iff_behindBlock :
    let deltas := ChatStream.deltas plainLib (fun _ => none) false true
      (driven [bytes "END"] behindBlock)
    deltas = [.reasoning (bytes "ab"), .content (bytes "c"), .content [0xC3, 0xA9]] ∧
      KeepsCodePoints true [bytes "END"] behindBlock ∧
      deltas.map (Delta.dumped replacing) = deltas := by
  intro deltas
  have hdeltas : deltas = [.reasoning (bytes "ab"), .content (bytes "c"),
      .content [0xC3, 0xA9]] := by
    decide +kernel
  obtain ⟨hiff, hdumped⟩ := @streamed_deltas_valid_iff Unit plainLib (fun _ => none) false true
    [bytes "END"] behindBlock replacing (by decide) (by decide) fun text hvalid => if_pos hvalid
  have hkeeps : KeepsCodePoints true [bytes "END"] behindBlock := by
    refine hiff.mp fun delta hdelta => ?_
    change delta ∈ deltas at hdelta
    rw [hdeltas] at hdelta
    simp only [List.mem_cons, List.not_mem_nil, or_false] at hdelta
    rcases hdelta with rfl | rfl | rfl
    · exact (by decide : isValid (bytes "ab") = true)
    · exact (by decide : isValid (bytes "c") = true)
    · exact (by decide : isValid [0xC3, 0xA9] = true)
  exact ⟨hdeltas, hkeeps, hdumped hkeeps⟩

/-- Inside the block the halves of a cut code point are deltas of their own. -/
theorem streamed_deltas_invalid_cutInBlock :
    isValid [[0xC3], [0xA9]].flatten = true ∧
      ChatStream.deltas plainLib (fun _ => none) false true (driven [] [[0xC3], [0xA9]]) =
        [.reasoning [0xC3], .reasoning [0xA9]] ∧
      ¬ ∀ delta ∈ ChatStream.deltas plainLib (fun _ => none) false true
        (driven [] [[0xC3], [0xA9]]), delta.Valid := by
  have hdeltas : ChatStream.deltas plainLib (fun _ => none) false true
      (driven [] [[0xC3], [0xA9]]) = [.reasoning [0xC3], .reasoning [0xA9]] := by
    decide +kernel
  refine ⟨by decide, hdeltas, fun hall => ?_⟩
  have hhalf : isValid [0xC3] = true := hall (.reasoning [0xC3]) (hdeltas ▸ List.mem_cons_self)
  exact absurd hhalf (by decide)

end Arcint.Text
