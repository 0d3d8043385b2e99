import Arcint.Text.Reasoning
import Arcint.Text.ToolCall
import Arcint.Text.Utf8

/-! # The streamed answer

Reasoning goes out as it comes. With tool parsing on, content goes out up to the
first tool-call tag or up to what may become one; the rest waits for the parser at
the end. Client writes are taken to succeed: after a failed one nothing more is sent.
-/

namespace Arcint.Text

open Foundation

/-- The payload of a chunk. -/
inductive Delta where
  | reasoning (text : Bytes)
  | content (text : Bytes)
  | toolCalls (calls : List ToolCall.Call)
  deriving DecidableEq, Repr

def Delta.contentBytes : Delta → Bytes
  | .content text => text
  | _ => []

/-- The concatenated content deltas. -/
def contentOf (sent : List Delta) : Bytes := sent.flatMap Delta.contentBytes

def kToolOpen : Bytes := bytes "<tool_call>"

/-- The locals of `stream_chat`, and the chunks sent so far. -/
structure ChatStream where
  reasoning : ReasoningStreamer
  utf8 : Utf8.Streamer
  content : Bytes
  streamed : Nat
  sent : List Delta
  deriving DecidableEq, Repr

namespace ChatStream

def new (thinkOpen : Bool) : ChatStream := ⟨.new thinkOpen, ⟨[]⟩, [], 0, []⟩

def emitReasoning (s : ChatStream) (text : Bytes) : ChatStream :=
  if text = [] then s else { s with sent := s.sent ++ [.reasoning text] }

def emitContent (s : ChatStream) (text : Bytes) : ChatStream :=
  let (safe, utf8) := s.utf8.push text
  { s with utf8 := utf8, sent := if safe = [] then s.sent else s.sent ++ [.content safe] }

/-- What may be sent: everything up to the tag, or up to what may become it. The search
starts behind what was examined, with enough overlap for a tag over the boundary. -/
def safeEnd (s : ChatStream) : Nat :=
  let scanFrom := if kToolOpen.length ≤ s.streamed then s.streamed - kToolOpen.length + 1 else 0
  match findFrom kToolOpen s.content scanFrom with
  | some marker => marker
  | none => s.content.length - partialStopSuffix s.content kToolOpen

/-- A content piece while the model is driven. -/
def acceptContent (parseToolCalls : Bool) (s : ChatStream) (piece : Bytes) : ChatStream :=
  if piece = [] then s
  else
    let s := { s with content := s.content ++ piece }
    if parseToolCalls = false then s.emitContent piece
    else if s.streamed < s.safeEnd then
      emitContent { s with streamed := s.safeEnd }
        (slice s.content s.streamed (s.safeEnd - s.streamed))
    else s

/-- The callback of `drive`. -/
def onPiece (parseToolCalls : Bool) (s : ChatStream) (piece : Bytes) : ChatStream :=
  let (step, reasoning) := s.reasoning.push piece
  (emitReasoning { s with reasoning := reasoning } step.reasoning).acceptContent parseToolCalls
    step.content

/-- The content that only the flush of the reasoning split gives. -/
def acceptLast (parseToolCalls : Bool) (s : ChatStream) (last : Bytes) : ChatStream :=
  if last = [] then s
  else
    let s := { s with content := s.content ++ last }
    if parseToolCalls = false then s.emitContent last else s

/-- The end of the stream: the bytes the UTF-8 streamer still holds, and the calls. -/
def close (s : ChatStream) (calls : List ToolCall.Call) : ChatStream :=
  let (tail, utf8) := s.utf8.flush
  let sent := if tail = [] then s.sent else s.sent ++ [.content tail]
  { s with utf8 := utf8, sent := if calls = [] then sent else sent ++ [.toolCalls calls] }

variable {J : Type} (lib : ToolCall.JsonLib J) (schemas : ToolCall.ToolSchemas)

/-- Everything after the model has stopped; none where the parser throws. -/
def finish (parseToolCalls : Bool) (s : ChatStream) (last : Bytes) : Option ChatStream :=
  let s := s.acceptLast parseToolCalls last
  if parseToolCalls = false then some (s.close [])
  else
    (ToolCall.parseQwenToolCalls lib schemas s.content).map fun parsed =>
      if s.streamed < parsed.content.length then
        (s.emitContent (parsed.content.drop s.streamed)).close parsed.calls
      else s.close parsed.calls

/-- The chunks of a whole answer. -/
def streamChat (parseToolCalls thinkOpen : Bool) (pieces : List Bytes) : Option (List Delta) :=
  let s := pieces.foldl (onPiece parseToolCalls) (.new thinkOpen)
  let (last, reasoning) := s.reasoning.flush
  ((emitReasoning { s with reasoning := reasoning } last.reasoning).finish lib schemas
    parseToolCalls last.content).map ChatStream.sent

/-- The bytes handed to the client's side of the stream: sent, or held for a code point. -/
def handed (s : ChatStream) : Bytes := contentOf s.sent ++ s.utf8.pending

end ChatStream

/-! ## What is sent is what the parser keeps -/

section Content

open ChatStream

variable {s : ChatStream}

theorem contentOf_append (a b : List Delta) : contentOf (a ++ b) = contentOf a ++ contentOf b :=
  List.flatMap_append

@[simp]
theorem handed_emitContent (s : ChatStream) (text : Bytes) :
    (s.emitContent text).handed = s.handed ++ text := by
  have hsame := Utf8.Streamer.push_append_pending s.utf8 text
  unfold handed emitContent
  dsimp only
  split
  next hnil =>
    rw [hnil, List.nil_append] at hsame
    rw [hsame, List.append_assoc]
  next =>
    rw [contentOf_append, List.append_assoc, List.append_assoc, ← hsame]
    simp [contentOf, Delta.contentBytes]

/-- The close sends what is held. -/
theorem contentOf_close (s : ChatStream) (calls : List ToolCall.Call) :
    contentOf (s.close calls).sent = s.handed := by
  have hcalls : ∀ sent, contentOf (if calls = [] then sent else sent ++ [.toolCalls calls]) =
      contentOf sent := by
    intro sent
    split
    next => rfl
    next =>
      rw [contentOf_append]
      simp [contentOf, Delta.contentBytes]
  unfold close handed
  dsimp only [Utf8.Streamer.flush]
  rw [hcalls]
  split
  next hnil => rw [hnil, List.append_nil]
  next =>
    rw [contentOf_append]
    simp [contentOf, Delta.contentBytes]

/-- While the model is driven: a beginning of the content is out, and the tag does not
start in it however the content goes on. -/
structure Driven (content : Bytes) (s : ChatStream) : Prop where
  accumulated : s.content = content
  inside : s.streamed ≤ content.length
  clear : Clear kToolOpen content s.streamed
  handed : s.handed = content.take s.streamed

theorem driven_new (thinkOpen : Bool) : Driven [] (.new thinkOpen) :=
  ⟨rfl, Nat.le_refl 0, clear_zero, rfl⟩

/-- The place the stream computes is clear of the tag. -/
theorem safeEnd_spec (hclear : Clear kToolOpen s.content s.streamed) :
    s.safeEnd ≤ s.content.length ∧ Clear kToolOpen s.content s.safeEnd := by
  have htag : kToolOpen ≠ [] := by decide
  have hpos := List.length_pos_iff.mpr htag
  unfold safeEnd
  dsimp only
  rw [hclear.findFrom_eq (by split <;> omega)]
  cases hfind : find kToolOpen s.content with
  | none => exact ⟨Nat.sub_le _ _, clear_partialStopSuffix htag hfind⟩
  | some marker => exact ⟨(find_eq_some hfind).2.1, clear_of_find htag hfind⟩

theorem Driven.acceptContent {content : Bytes} (h : Driven content s) (piece : Bytes) :
    Driven (content ++ piece) (s.acceptContent true piece) := by
  unfold ChatStream.acceptContent
  split
  next hnil =>
    rw [hnil, List.append_nil]
    exact h
  next =>
    rw [if_neg (by simp)]
    dsimp only
    have hcontent : s.content ++ piece = content ++ piece := by rw [h.accumulated]
    have hinside : s.streamed ≤ (content ++ piece).length := by
      rw [List.length_append]
      exact Nat.le_add_right_of_le h.inside
    have hhanded : s.handed = (content ++ piece).take s.streamed := by
      rw [List.take_append_of_le_length h.inside]
      exact h.handed
    rw [hcontent]
    split
    next hmore =>
      obtain ⟨hend, hclear⟩ :=
        safeEnd_spec (s := { s with content := content ++ piece }) (h.clear.append piece)
      refine ⟨rfl, hend, hclear, ?_⟩
      rw [handed_emitContent]
      refine (congrArg (· ++ _) hhanded).trans ?_
      rw [take_append_slice, Nat.add_sub_cancel' (Nat.le_of_lt hmore)]
      rfl
    next => exact ⟨rfl, hinside, h.clear.append piece, hhanded⟩

theorem driven_foldl (thinkOpen : Bool) (pieces : List Bytes) :
    Driven pieces.flatten (pieces.foldl (ChatStream.acceptContent true) (.new thinkOpen)) := by
  induction pieces using List.reverseRecOn with
  | nil => exact driven_new thinkOpen
  | append_singleton pieces piece ih =>
      rw [List.foldl_append, flatten_concat]
      exact ih.acceptContent piece

/-- What is out when the model has stopped is the beginning of what the parser keeps. -/
theorem Driven.handed_parsed {J : Type} {lib : ToolCall.JsonLib J}
    {schemas : ToolCall.ToolSchemas} {content last : Bytes} {parsed : ToolCall.Parse}
    (h : Driven content s)
    (hparse : ToolCall.parseQwenToolCalls lib schemas (content ++ last) = some parsed) :
    s.streamed ≤ parsed.content.length ∧ s.handed = parsed.content.take s.streamed := by
  have hbegins := ToolCall.take_prefix_content hparse (h.clear.append last)
  rw [List.take_append_of_le_length h.inside] at hbegins
  have hlength : (content.take s.streamed).length = s.streamed :=
    List.length_take_of_le h.inside
  refine ⟨hlength ▸ hbegins.length_le, ?_⟩
  rw [h.handed]
  have heq := List.prefix_iff_eq_take.mp hbegins
  rwa [hlength] at heq

/-- The last piece is only accumulated. -/
theorem ChatStream.acceptLast_eq (s : ChatStream) (last : Bytes) :
    (s.acceptLast true last).content = s.content ++ last ∧
      (s.acceptLast true last).streamed = s.streamed ∧
      (s.acceptLast true last).handed = s.handed := by
  unfold acceptLast
  split
  next hnil => exact ⟨by rw [hnil, List.append_nil], rfl, rfl⟩
  next => exact ⟨rfl, rfl, rfl⟩

/-- The end of the stream sends the text that has not been sent. -/
theorem contentOf_rest (s : ChatStream) (text : Bytes) (calls : List ToolCall.Call) :
    contentOf (if s.streamed < text.length then
      (s.emitContent (text.drop s.streamed)).close calls else s.close calls).sent =
        s.handed ++ text.drop s.streamed := by
  split
  next => rw [contentOf_close, handed_emitContent]
  next hshort =>
    rw [contentOf_close, List.drop_eq_nil_of_le (Nat.le_of_not_lt hshort), List.append_nil]

/-- The content that is sent, while driving and at the end, is the content the parser
keeps; none of it is of a parsed block. -/
theorem streamed_content_eq_parsed {J : Type} (lib : ToolCall.JsonLib J)
    (schemas : ToolCall.ToolSchemas) (thinkOpen : Bool) (pieces : List Bytes) (last : Bytes) :
    let s := pieces.foldl (acceptContent true) (.new thinkOpen)
    let content := pieces.flatten ++ last
    match ToolCall.parseQwenToolCalls lib schemas content with
    | none => s.finish lib schemas true last = none
    | some parsed =>
        s.streamed ≤ parsed.content.length ∧ s.handed = parsed.content.take s.streamed ∧
          ∃ out segments, s.finish lib schemas true last = some out ∧
            contentOf out.sent = parsed.content ∧
            ToolCall.Interleaves lib schemas content (contentOf out.sent) parsed.calls
              segments := by
  intro s content
  have hdriven : Driven pieces.flatten s := driven_foldl thinkOpen pieces
  obtain ⟨haccepted, hstreamed, hhanded⟩ := s.acceptLast_eq last
  have hcontent : (s.acceptLast true last).content = content := by
    rw [haccepted, hdriven.accumulated]
  unfold finish
  rw [if_neg (by simp), hcontent]
  cases hparse : ToolCall.parseQwenToolCalls lib schemas content with
  | none => rfl
  | some parsed =>
      obtain ⟨hlength, hsent⟩ := hdriven.handed_parsed hparse
      obtain ⟨segments, hsegments⟩ := ToolCall.parseQwenToolCalls_interleaves hparse
      refine ⟨hlength, hsent, _, segments, rfl, ?_⟩
      have hall := contentOf_rest (s.acceptLast true last) parsed.content parsed.calls
      rw [hstreamed, hhanded, hsent, List.take_append_drop, ← hstreamed] at hall
      refine ⟨hall, ?_⟩
      rw [hall]
      exact hsegments

end Content

end Arcint.Text
