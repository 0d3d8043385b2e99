import Arcint.Text.Bytes
import Arcint.Foundation.Loop
import Arcint.Foundation.Slice

/-! # Tool calls in the text of an answer

A block between the two tool-call tags is a call in one of two forms, a JSON
object or nested tags. Parsed blocks leave the content; a block that is not
recognised and one that is never closed stay in it.
-/

namespace Arcint.Text.ToolCall

open Foundation

def kOpen : Bytes := bytes "<tool_call>"

def kClose : Bytes := bytes "</tool_call>"

def kFnOpen : Bytes := bytes "<function="

def kFnClose : Bytes := bytes "</function>"

def kParamOpen : Bytes := bytes "<parameter="

def kParamEnd : Bytes := bytes "</parameter>"

def tagEnd : Bytes := bytes ">"

/-- What the parser uses of the JSON library. `parse` is none where the library
throws `json::exception`, and `dump` where it throws on text that is not UTF-8. -/
structure JsonLib (J : Type) where
  parse : Bytes → Option J
  isNumber : J → Bool
  isObject : J → Bool
  isArray : J → Bool
  ofString : Bytes → J
  ofBool : Bool → J
  object : J
  set : J → Bytes → J → J
  get : J → Bytes → Option J
  string : J → Option Bytes
  dump : J → Option Bytes

/-- Parameter name to the declared JSON type. -/
abbrev ParamTypes := Bytes → Option Bytes

/-- Tool name to its parameters; without schemas nothing is found. -/
abbrev ToolSchemas := Bytes → Option ParamTypes

structure Call where
  id : Bytes
  name : Bytes
  arguments : Bytes
  deriving DecidableEq, Repr

/-- What a block's body turns out to be. -/
inductive Body where
  | unrecognised
  | call (name arguments : Bytes)
  /-- An exception of the JSON library leaves the parser. -/
  | throws
  deriving DecidableEq, Repr

section Bodies

variable {J : Type} (lib : JsonLib J)

def stripOneNewline (v : Bytes) : Bytes :=
  let v := if v.head? = some newline then v.drop 1 else v
  if v.getLast? = some newline then v.dropLast else v

/-- The value as the declared type has it, or the string it came as. -/
def coerce (raw type : Bytes) : J :=
  let parsedAs (accepts : J → Bool) : J :=
    match lib.parse raw with
    | some parsed => if accepts parsed then parsed else lib.ofString raw
    | none => lib.ofString raw
  if type = bytes "string" ∨ type = [] then lib.ofString raw
  else if type = bytes "integer" ∨ type = bytes "number" then parsedAs lib.isNumber
  else if type = bytes "boolean" then
    if iequals (trim raw) (bytes "true") then lib.ofBool true
    else if iequals (trim raw) (bytes "false") then lib.ofBool false
    else lib.ofString raw
  else if type = bytes "object" then parsedAs lib.isObject
  else if type = bytes "array" then parsedAs lib.isArray
  else lib.ofString raw

/-- The loop over the parameters; the state is the cursor and the arguments so far. -/
def paramLoop (types : Option ParamTypes) (body : Bytes) (bodyEnd : Nat) : Loop (Nat × J) J where
  body := fun (cursor, args) =>
    if bodyEnd ≤ cursor then .leave args
    else
      match findFrom kParamOpen body cursor with
      | none => .leave args
      | some p =>
          if bodyEnd ≤ p then .leave args
          else
            let keyStart := p + kParamOpen.length
            match findFrom tagEnd body keyStart with
            | none => .leave args
            | some keyEnd =>
                if bodyEnd ≤ keyEnd then .leave args
                else
                  let key := trim (slice body keyStart (keyEnd - keyStart))
                  let valStart := keyEnd + 1
                  let closed := (findFrom kParamEnd body valStart).filter (· ≤ bodyEnd)
                  let valEnd := closed.getD bodyEnd
                  let raw := stripOneNewline (slice body valStart (valEnd - valStart))
                  let type := (types.bind fun declared => declared key).getD []
                  let args := if key = [] then args else lib.set args key (coerce lib raw type)
                  .again ((closed.map (· + kParamEnd.length)).getD bodyEnd, args)

/-- The nested tags. -/
def parseXmlBody (schemas : ToolSchemas) (body : Bytes) : Body :=
  match find kFnOpen body with
  | none => .unrecognised
  | some fn =>
      let nameStart := fn + kFnOpen.length
      match findFrom tagEnd body nameStart with
      | none => .unrecognised
      | some nameEnd =>
          let name := trim (slice body nameStart (nameEnd - nameStart))
          if name = [] then .unrecognised
          else
            let bodyEnd := (findFrom kFnClose body nameEnd).getD body.length
            match (paramLoop lib (schemas name) body bodyEnd).after (bodyEnd + 1)
                (nameEnd + 1, lib.object) with
            -- the loop has left by then
            | .again _ => .unrecognised
            | .leave args =>
                match lib.dump args with
                | none => .throws
                | some arguments => .call name arguments

/-- The JSON object; `arguments` may also be a string. -/
def parseJsonBody (body : Bytes) : Body :=
  match lib.parse body with
  | none => .unrecognised
  | some parsed =>
      if lib.isObject parsed = false then .unrecognised
      else
        match (lib.get parsed (bytes "name")).bind lib.string with
        | none => .unrecognised
        | some name =>
            match lib.get parsed (bytes "arguments") with
            | none => .call name (bytes "\x7b\x7d")
            | some a =>
                match lib.string a with
                | some arguments => .call name arguments
                | none =>
                    match lib.dump a with
                    | none => .throws
                    | some arguments => .call name arguments

def parseBody (schemas : ToolSchemas) (body : Bytes) : Body :=
  if body.head? = (bytes "\x7b").head? then parseJsonBody lib body
  else parseXmlBody lib schemas body

end Bodies

structure Parse where
  content : Bytes
  calls : List Call
  truncated : Bool
  deriving DecidableEq, Repr

structure ParseState where
  cursor : Nat
  content : Bytes
  calls : List Call

section Parser

variable {J : Type} (lib : JsonLib J) (schemas : ToolSchemas) (text : Bytes)

/-- The loop of `parse_qwen_tool_calls`. -/
def parseLoop : Loop ParseState (Option Parse) where
  body s :=
    match findFrom kOpen text s.cursor with
    | none => .leave (some ⟨s.content ++ text.drop s.cursor, s.calls, false⟩)
    | some start =>
        let content := s.content ++ slice text s.cursor (start - s.cursor)
        let bodyStart := start + kOpen.length
        match findFrom kClose text bodyStart with
        -- an unterminated block: the raw remainder goes back
        | none => .leave (some ⟨content ++ text.drop start, s.calls, true⟩)
        | some close =>
            match parseBody lib schemas (trim (slice text bodyStart (close - bodyStart))) with
            | .throws => .leave none
            | .call name arguments =>
                .again ⟨close + kClose.length, content,
                  s.calls ++ [⟨bytes ("call_" ++ toString s.calls.length), name, arguments⟩]⟩
            | .unrecognised =>
                .again ⟨close + kClose.length,
                  content ++ slice text start (close + kClose.length - start), s.calls⟩

/-- None where an exception leaves the parser. -/
def parseQwenToolCalls : Option Parse :=
  match (parseLoop lib schemas text).after (text.length + 1) ⟨0, [], []⟩ with
  | .again _ => none
  | .leave result => result

end Parser

/-! ## Every loop leaves -/

section Leaves

variable {J : Type} (lib : JsonLib J) (schemas : ToolSchemas)

/-- A parameter ends after the cursor it was found from. -/
theorem paramLoop_leaves (types : Option ParamTypes) (body : Bytes) (bodyEnd cursor : Nat)
    (args : J) :
    ∃ result, (paramLoop lib types body bodyEnd).after (bodyEnd + 1) (cursor, args) =
      .leave result := by
  refine Loop.exists_leave_of_measure (fun s => bodyEnd - s.1) ?_ (by omega)
  rintro ⟨cursor, args⟩ ⟨next, args'⟩ hbody
  dsimp only [paramLoop] at hbody
  split at hbody
  next => cases hbody
  next hcursor =>
    split at hbody
    next => cases hbody
    next p hp =>
      split at hbody
      next => cases hbody
      next =>
        split at hbody
        next => cases hbody
        next keyEnd hkeyEnd =>
          split at hbody
          next => cases hbody
          next hinside =>
            have hlow := (findFrom_eq_some hp).1
            have hhigh := (findFrom_eq_some hkeyEnd).1
            simp only [Pass.again.injEq, Prod.mk.injEq] at hbody
            obtain ⟨rfl, -⟩ := hbody
            cases hclosed : (findFrom kParamEnd body (keyEnd + 1)).filter (· ≤ bodyEnd) with
            | none =>
                simp
                omega
            | some valEnd =>
                have hval := (findFrom_eq_some (Option.filter_eq_some_iff.mp hclosed).1).1
                simp
                omega

variable {lib schemas} {text : Bytes}

/-- Where a block begins and ends. -/
structure Block (text : Bytes) (cursor start close : Nat) : Prop where
  opens : findFrom kOpen text cursor = some start
  closes : findFrom kClose text (start + kOpen.length) = some close

namespace Block

variable {cursor start close : Nat} (h : Block text cursor start close)

include h

theorem cursor_le : cursor ≤ start := (findFrom_eq_some h.opens).1

theorem body_le : start + kOpen.length ≤ close := (findFrom_eq_some h.closes).1

theorem end_le : close + kClose.length ≤ text.length :=
  occurs_le_length (by decide) (findFrom_eq_some h.closes).2.1

/-- The block is its two tags around its body. -/
theorem slice_eq :
    slice text start (close + kClose.length - start) =
      kOpen ++ slice text (start + kOpen.length) (close - (start + kOpen.length)) ++ kClose := by
  have hbody := h.body_le
  have hopen := slice_of_prefix (findFrom_eq_some h.opens).2.1
  have hclose := slice_of_prefix (findFrom_eq_some h.closes).2.1
  have hlength : close + kClose.length - start =
      kOpen.length + (close - (start + kOpen.length)) + kClose.length := by omega
  have hend : start + (kOpen.length + (close - (start + kOpen.length))) = close := by omega
  rw [hlength, slice_add, slice_add, hopen, hend, hclose]

end Block

end Leaves

/-! ## The text is content and blocks -/

/-- A stretch of the text: content, or the block of a call. -/
structure Segment where
  bytes : Bytes
  call : Option Call

/-- What a stretch adds to the content. -/
def Segment.shown (segment : Segment) : Bytes :=
  match segment.call with
  | none => segment.bytes
  | some _ => []

section Segments

variable {J : Type} (lib : JsonLib J) (schemas : ToolSchemas)

/-- The bytes of a block that parses as the call. -/
def IsBlock (block : Bytes) (call : Call) : Prop :=
  ∃ body, block = kOpen ++ body ++ kClose ∧
    parseBody lib schemas (trim body) = .call call.name call.arguments

/-- The text is stretches of content and parsed blocks, in order. -/
structure Interleaves (text content : Bytes) (calls : List Call) (segments : List Segment) :
    Prop where
  text : segments.flatMap Segment.bytes = text
  content : segments.flatMap Segment.shown = content
  calls : segments.filterMap Segment.call = calls
  blocks : ∀ segment ∈ segments, ∀ call, segment.call = some call →
    IsBlock lib schemas segment.bytes call

variable {lib schemas} {text : Bytes}

/-- What a pass of the parser consumes: a stretch of content and a block. -/
theorem parseLoop_again {s next : ParseState}
    (h : (parseLoop lib schemas text).body s = .again next) :
    ∃ start before, findFrom kOpen text s.cursor = some start ∧
      before = slice text s.cursor (start - s.cursor) ∧ s.cursor < next.cursor ∧
      next.cursor ≤ text.length ∧
      ∃ block : Segment, text.take next.cursor = text.take s.cursor ++ before ++ block.bytes ∧
        next.content = s.content ++ before ++ block.shown ∧
        next.calls = s.calls ++ block.call.toList ∧
        ∀ call, block.call = some call → IsBlock lib schemas block.bytes call := by
  dsimp only [parseLoop] at h
  split at h
  next => cases h
  next start hstart =>
    split at h
    next => cases h
    next close hclose =>
      have hblock : Block text s.cursor start close := ⟨hstart, hclose⟩
      have hcursor := hblock.cursor_le
      have hbody := hblock.body_le
      have hend := hblock.end_le
      have htext : text.take (close + kClose.length) =
          text.take s.cursor ++ slice text s.cursor (start - s.cursor) ++
            slice text start (close + kClose.length - start) := by
        rw [take_append_slice, Nat.add_sub_cancel' hcursor, take_append_slice,
          Nat.add_sub_cancel' (by omega)]
      have hlate : s.cursor < close + kClose.length := by
        have : 0 < kClose.length := by decide
        omega
      refine ⟨start, _, hstart, rfl, ?_⟩
      split at h
      next => cases h
      next name arguments hparsed =>
        cases h
        refine ⟨hlate, hend,
          ⟨_, some ⟨bytes ("call_" ++ toString s.calls.length), name, arguments⟩⟩,
          htext, (List.append_nil _).symm, rfl, ?_⟩
        intro call hcall
        cases hcall
        exact ⟨_, hblock.slice_eq, hparsed⟩
      next =>
        cases h
        exact ⟨hlate, hend, ⟨_, none⟩, htext, rfl, (List.append_nil _).symm, by rintro _ ⟨⟩⟩

/-- Whatever is left when the parser leaves is content. -/
theorem parseLoop_leave {s : ParseState} {parsed : Parse}
    (h : (parseLoop lib schemas text).body s = .leave (some parsed)) :
    parsed.content = s.content ++ text.drop s.cursor ∧ parsed.calls = s.calls := by
  dsimp only [parseLoop] at h
  split at h
  next =>
    cases h
    exact ⟨rfl, rfl⟩
  next start hstart =>
    have hcursor := (findFrom_eq_some hstart).1
    split at h
    next =>
      cases h
      refine ⟨?_, rfl⟩
      have hrest :
          text.drop s.cursor = slice text s.cursor (start - s.cursor) ++ text.drop start := by
        rw [slice, ← Nat.add_sub_cancel' hcursor, ← List.drop_drop, Nat.add_sub_cancel_left,
          List.take_append_drop]
      rw [hrest, List.append_assoc]
    next =>
      split at h
      next => cases h
      next => cases h
      next => cases h

theorem parseLoop_leaves (lib : JsonLib J) (schemas : ToolSchemas) (text : Bytes) :
    ∃ result, (parseLoop lib schemas text).after (text.length + 1) ⟨0, [], []⟩ = .leave result := by
  refine Loop.exists_leave_of_measure (fun s => text.length - s.cursor) ?_ (by simp)
  intro s next hbody
  obtain ⟨-, -, -, -, hlow, hhigh, -⟩ := parseLoop_again hbody
  omega

/-- The parser leaves from a head that it reached. -/
theorem parseQwenToolCalls_some {parsed : Parse}
    (h : parseQwenToolCalls lib schemas text = some parsed) :
    ∃ n s, (parseLoop lib schemas text).after n ⟨0, [], []⟩ = .again s ∧
      (parseLoop lib schemas text).body s = .leave (some parsed) := by
  unfold parseQwenToolCalls at h
  obtain ⟨result, hleave⟩ := parseLoop_leaves lib schemas text
  rw [hleave] at h
  dsimp only at h
  subst h
  obtain ⟨n, -, s, hhead, hbody⟩ := Loop.exists_head_of_after_leave hleave
  exact ⟨n, s, hhead, hbody⟩

/-- What the parser has consumed at a head. -/
theorem interleaves_head {n : Nat} {s : ParseState}
    (h : (parseLoop lib schemas text).after n ⟨0, [], []⟩ = .again s) :
    ∃ segments, Interleaves lib schemas (text.take s.cursor) s.content s.calls segments := by
  refine @Loop.head_invariant _ _ _ (fun s => ∃ segments,
    Interleaves lib schemas (text.take s.cursor) s.content s.calls segments) _ ?_ ?_ _ _ h
  · exact ⟨[], rfl, rfl, rfl, by rintro _ ⟨⟩⟩
  · rintro - s next - ⟨segments, hsegments⟩ hbody
    obtain ⟨start, before, -, -, -, -, block, htext, hcontent, hcalls, hblock⟩ :=
      parseLoop_again hbody
    refine ⟨segments ++ [⟨before, none⟩, block], ?_, ?_, ?_, ?_⟩
    · rw [List.flatMap_append, hsegments.text, htext]
      simp
    · rw [List.flatMap_append, hsegments.content, hcontent]
      simp [Segment.shown]
    · rw [List.filterMap_append, hsegments.calls, hcalls]
      cases hcall : block.call <;> simp [hcall]
    · intro segment hsegment call hcall
      rw [List.mem_append] at hsegment
      rcases hsegment with hold | hnew
      · exact hsegments.blocks segment hold call hcall
      · simp only [List.mem_cons, List.not_mem_nil, or_false] at hnew
        rcases hnew with rfl | rfl
        · cases hcall
        · exact hblock call hcall

/-- The content is the text without the blocks that became calls. -/
theorem parseQwenToolCalls_interleaves {parsed : Parse}
    (h : parseQwenToolCalls lib schemas text = some parsed) :
    ∃ segments, Interleaves lib schemas text parsed.content parsed.calls segments := by
  obtain ⟨n, s, hhead, hbody⟩ := parseQwenToolCalls_some h
  obtain ⟨segments, hsegments⟩ := interleaves_head hhead
  obtain ⟨hcontent, hcalls⟩ := parseLoop_leave hbody
  refine ⟨segments ++ [⟨text.drop s.cursor, none⟩], ?_, ?_, ?_, ?_⟩
  · rw [List.flatMap_append, hsegments.text]
    simp
  · rw [List.flatMap_append, hsegments.content, hcontent]
    simp [Segment.shown]
  · rw [List.filterMap_append, hsegments.calls, hcalls]
    simp
  · intro segment hsegment call hcall
    rw [List.mem_append, List.mem_singleton] at hsegment
    rcases hsegment with hold | rfl
    · exact hsegments.blocks segment hold call hcall
    · cases hcall

/-- What stands before the first tag is the beginning of the content, also when the
text ends before the tag is complete. -/
theorem take_prefix_content {parsed : Parse} (h : parseQwenToolCalls lib schemas text = some parsed)
    {n : Nat} (hclear : Clear kOpen text n) : text.take n <+: parsed.content := by
  obtain ⟨m, s, hhead, hbody⟩ := parseQwenToolCalls_some h
  have hinv : s = ⟨0, [], []⟩ ∨ text.take n <+: s.content := by
    refine @Loop.head_invariant _ _ _ (fun s => s = ⟨0, [], []⟩ ∨ text.take n <+: s.content) _
      (Or.inl rfl) ?_ _ _ hhead
    intro _ s next _ hs hbody
    obtain ⟨start, before, hstart, hbefore, -, -, block, -, hcontent, -⟩ := parseLoop_again hbody
    right
    rw [hcontent, List.append_assoc]
    rcases hs with rfl | hbegins
    · -- the first pass: the tag it finds is not before `n`
      have hle : n ≤ start := hclear [] start (by simpa using (findFrom_eq_some hstart).2.1)
      have htake : text.take n <+: before := by
        rw [hbefore, slice, List.drop_zero, Nat.sub_zero]
        exact List.take_prefix_take_left hle
      exact htake.trans (List.prefix_append _ _)
    · exact hbegins.trans (List.prefix_append _ _)
  obtain ⟨hcontent, -⟩ := parseLoop_leave hbody
  rw [hcontent]
  rcases hinv with rfl | hbegins
  · exact List.take_prefix _ _
  · exact hbegins.trans (List.prefix_append _ _)

end Segments

end Arcint.Text.ToolCall
