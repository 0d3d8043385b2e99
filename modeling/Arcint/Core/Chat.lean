import Arcint.Foundation.Checks
import Arcint.Text.Json
import Mathlib.Algebra.Ring.Int.Defs
import Mathlib.Algebra.Ring.Nat

/-! # Reading a request

`parse_chat_request` and `parse_completion_request`: a JSON body is read field by field, up to the
first that is refused. Single-precision numbers are of a type of their own; the conversion to it,
and how the library writes a floating-point number, are parameters.
-/

namespace Arcint.Core.Chat

open Foundation Text

/-- Why a request is not read: an error text for the client, or an exception of the JSON library. -/
inductive Refusal where
  | error (text : Bytes)
  | throws
  deriving DecidableEq, Repr

abbrev Reading := Except Refusal

def refuse {α : Type} (text : Bytes) : Reading α := .error (.error text)

/-- What `%s` writes of a string: nothing behind a null byte. -/
def cString (s : Bytes) : Bytes := s.takeWhile (· ≠ 0)

structure SamplerOverrides (S : Type) where
  temperature : Option S := none
  topP : Option S := none
  topK : Option Int32 := none
  repetitionPenalty : Option S := none
  presencePenalty : Option S := none
  frequencyPenalty : Option S := none
  seed : Option UInt64 := none
  maxTokens : Option Int32 := none
  ignoreEos : Option Bool := none
  stop : Option (List Bytes) := none
  stopTokenIds : Option (List Int32) := none

structure ChatMessage where
  role : Bytes
  content : Bytes
  name : Bytes
  toolCallId : Bytes
  toolCalls : List ToolCall.Call

structure ToolSpec (F : Type) where
  name : Bytes
  description : Bytes
  parameters : Json F

structure ChatRequest (F S : Type) where
  model : Bytes
  messages : List ChatMessage
  tools : List (ToolSpec F)
  toolChoice : Bytes
  toolChoiceFunction : Bytes
  stream : Bool
  streamIncludeUsage : Bool
  enableThinking : Bool
  hasEnableThinking : Bool
  sampler : SamplerOverrides S

structure CompletionRequest (S : Type) where
  model : Bytes
  prompt : Bytes
  promptIds : List Int32
  stream : Bool
  echo : Bool
  streamIncludeUsage : Bool
  sampler : SamplerOverrides S

section Fields

variable {F S : Type}

/-- The value of a field that is there and not null. -/
def field (b : Json F) (key : String) : Option (Json F) :=
  (b.get (bytes key)).filter fun v => !v.isNull

/-- A string field, empty when it is not there or not a string. -/
def stringField (b : Json F) (key : String) : Bytes :=
  ((b.get (bytes key)).bind Json.getString).getD []

/-- A Boolean field, with what it is called in the error. -/
def readBoolean (b : Json F) (key called : String) (dst : Option Bool) : Reading (Option Bool) :=
  match field b key with
  | none => .ok dst
  | some v =>
      match v.getBoolean with
      | some value => .ok (some value)
      | none => refuse (bytes (called ++ " must be a boolean"))

def readNum (single : Json F → S) (b : Json F) (key : String) (dst : Option S) :
    Reading (Option S) :=
  match field b key with
  | none => .ok dst
  | some v =>
      if v.isNumber then .ok (some (single v)) else refuse (bytes (key ++ " must be a number"))

/-- The range of an `int`. -/
def OutOfRange (n : Int64) : Prop := n.toInt < -2 ^ 31 ∨ 2 ^ 31 - 1 < n.toInt

instance (n : Int64) : Decidable (OutOfRange n) :=
  inferInstanceAs (Decidable (n.toInt < -2 ^ 31 ∨ 2 ^ 31 - 1 < n.toInt))

/-- An integer field: read as an `int64_t` and checked before it is narrowed. -/
def readInteger (b : Json F) (key : String) (dst : Option Int32) : Reading (Option Int32) :=
  match field b key with
  | none => .ok dst
  | some v =>
      if v.isInteger = false then refuse (bytes (key ++ " must be an integer"))
      else if OutOfRange v.getInt64 then
        refuse (bytes (key ++ " is out of range: " ++ toString v.getInt64))
      else .ok (some v.getInt64.toInt32)

def readSeed (b : Json F) (dst : Option UInt64) : Reading (Option UInt64) :=
  match field b "seed" with
  | none => .ok dst
  | some v =>
      if v.isInteger then .ok (some v.getInt64.toUInt64)
      else refuse (bytes "seed must be an integer")

def readStopEntry (e : Json F) : Reading Bytes :=
  match e.getString with
  | some s => .ok s
  | none => refuse (bytes "stop entries must be strings")

theorem lawfulBEq_bytes : LawfulBEq (List UInt8) := inferInstance

attribute [local instance] lawfulBEq_bytes

/-- Stop strings, none of which is empty. -/
def checkStop (stop : List Bytes) : Reading (Option (List Bytes)) :=
  if [] ∈ stop then refuse (bytes "stop entries must not be empty") else .ok (some stop)

def readStop (b : Json F) (dst : Option (List Bytes)) : Reading (Option (List Bytes)) :=
  match b.get (bytes "stop") with
  | none | some .null => .ok dst
  | some (.string s) => checkStop [s]
  | some (.array items) => parseAll readStopEntry items >>= checkStop
  | some _ => refuse (bytes "stop must be a string or an array of strings")

def readStopTokenId (e : Json F) : Reading Int32 :=
  if e.isInteger = false then refuse (bytes "stop_token_ids entries must be integers")
  else if OutOfRange e.getInt64 then refuse (bytes "stop_token_ids entries are out of range")
  else .ok e.getInt64.toInt32

def readStopTokenIds (b : Json F) (dst : Option (List Int32)) : Reading (Option (List Int32)) :=
  match field b "stop_token_ids" with
  | none => .ok dst
  | some v =>
      match v.getArray with
      | none => refuse (bytes "stop_token_ids must be an array")
      | some items => some <$> parseAll readStopTokenId items

/-- `n` is one or not given. -/
def checkN (b : Json F) : Reading Unit :=
  ensure (∀ v ∈ field b "n", v.isInteger = true ∧ v.getInt64 = 1)
    (.error (bytes "n must be 1 (multiple choices per request are not supported)"))

/-- The length limit: `max_completion_tokens` is read only without `max_tokens`. -/
def readMaxTokens (b : Json F) (dst : Option Int32) : Reading (Option Int32) := do
  match ← readInteger b "max_tokens" dst with
  | some n => return some n
  | none => readInteger b "max_completion_tokens" none

/-- `read_sampler`: the fields shared by both requests. -/
def readSampler (single : Json F → S) (b : Json F) (s : SamplerOverrides S) :
    Reading (SamplerOverrides S) := do
  let temperature ← readNum single b "temperature" s.temperature
  let topP ← readNum single b "top_p" s.topP
  let repetitionPenalty ← readNum single b "repetition_penalty" s.repetitionPenalty
  let presencePenalty ← readNum single b "presence_penalty" s.presencePenalty
  let frequencyPenalty ← readNum single b "frequency_penalty" s.frequencyPenalty
  let topK ← readInteger b "top_k" s.topK
  let maxTokens ← readMaxTokens b s.maxTokens
  let seed ← readSeed b s.seed
  let ignoreEos ← readBoolean b "ignore_eos" "ignore_eos" s.ignoreEos
  let stop ← readStop b s.stop
  let stopTokenIds ← readStopTokenIds b s.stopTokenIds
  checkN b
  return { temperature, topP, topK, repetitionPenalty, presencePenalty, frequencyPenalty, seed
           maxTokens, ignoreEos, stop, stopTokenIds }

/-- `read_stream`: whether to stream, and whether to end with the usage. -/
def readStream (b : Json F) : Reading (Bool × Bool) := do
  let stream ← readBoolean b "stream" "stream" none
  match field b "stream_options" with
  | none => return (stream.getD false, true)
  | some options =>
      if options.isObject = false then refuse (bytes "stream_options must be an object")
      else do
        let usage ← readBoolean options "include_usage" "stream_options.include_usage" none
        return (stream.getD false, usage.getD true)

end Fields

section Messages

variable {F S : Type} (float : F → Bytes)

def knownRole (role : Bytes) : Bool :=
  ["system", "developer", "user", "assistant", "tool"].any fun known => role == bytes known

/-- What an error says the message is. -/
def message (index : Nat) (rest : String) : Bytes :=
  bytes ("messages[" ++ toString index ++ "]" ++ rest)

/-- The text of a content part. -/
def readPart (index : Nat) (part : Json F) : Reading Bytes :=
  match (part.get (bytes "type")).bind Json.getString with
  | none => refuse (message index ".content parts must be typed objects")
  | some type =>
      if type ≠ bytes "text" then
        refuse (message index ".content: part type '" ++ cString type ++
          bytes "' is not supported (v1 is text-only)")
      else
        match (part.get (bytes "text")).bind Json.getString with
        | none => refuse (message index ".content: text part is missing 'text'")
        | some text => .ok text

/-- `read_content`: a string, text parts joined, or nothing. -/
def readContent (index : Nat) (v : Json F) : Reading Bytes :=
  match v with
  | .null => .ok []
  | .string s => .ok s
  | .array parts => List.flatten <$> parseAll (readPart index) parts
  | _ => refuse (message index ".content must be a string, an array, or null")

/-- The arguments of a call, which are written again when they are not a string. -/
def readArguments (fn : Json F) : Reading Bytes :=
  match fn.get (bytes "arguments") with
  | none => .ok (bytes "\x7b\x7d")
  | some (.string s) => .ok s
  | some a =>
      match a.dump float with
      | some text => .ok text
      | none => .error .throws

def readToolCall (index : Nat) (c : Json F) : Reading ToolCall.Call :=
  match (c.get (bytes "function")).filter Json.isObject with
  | none => refuse (message index ".tool_calls entries need a 'function' object")
  | some fn =>
      match (fn.get (bytes "name")).bind Json.getString with
      | none => refuse (message index ".tool_calls: function.name is required")
      | some name => do
          let arguments ← readArguments float fn
          return ⟨stringField c "id", name, arguments⟩

def readToolCalls (index : Nat) (m : Json F) : Reading (List ToolCall.Call) :=
  match field m "tool_calls" with
  | none => .ok []
  | some v =>
      match v.getArray with
      | none => refuse (message index ".tool_calls must be an array")
      | some items => parseAll (readToolCall float index) items

/-- A message with neither text nor calls is one of the assistant or of a tool. -/
def checkMessage (index : Nat) (msg : ChatMessage) : Reading ChatMessage :=
  if msg.role = bytes "tool" ∧ msg.toolCallId = [] then
    refuse (message index ": a tool message needs tool_call_id")
  else if msg.content = [] ∧ msg.toolCalls = [] ∧ msg.role ≠ bytes "assistant" ∧
      msg.role ≠ bytes "tool" then
    refuse (message index ": content must not be empty for role '" ++ cString msg.role ++
      bytes "'")
  else .ok msg

def readMessage (entry : Json F × Nat) : Reading ChatMessage :=
  let (m, index) := entry
  if m.isObject = false then refuse (message index " must be an object")
  else
    match (m.get (bytes "role")).bind Json.getString with
    | none => refuse (message index ".role is required")
    | some role =>
        if knownRole role = false then
          refuse (message index ".role '" ++ cString role ++ bytes "' is not a known role")
        else do
          let content ← ((m.get (bytes "content")).map (readContent index)).getD (.ok [])
          let toolCalls ← readToolCalls float index m
          checkMessage index
            { role, content, toolCalls
              name := stringField m "name", toolCallId := stringField m "tool_call_id" }

def readMessages (body : Json F) : Reading (List ChatMessage) :=
  match (body.get (bytes "messages")).bind Json.getArray with
  | none => refuse (bytes "messages is required and must be an array")
  | some [] => refuse (bytes "messages must not be empty")
  | some items => parseAll (readMessage float) items.zipIdx

def readTool (entry : Json F × Nat) : Reading (ToolSpec F) :=
  let (t, index) := entry
  let called : String := "tools[" ++ toString index ++ "]"
  if t.isObject = false then refuse (bytes (called ++ " must be an object"))
  else if ((t.get (bytes "type")).bind Json.getString).any (· ≠ bytes "function") then
    refuse (bytes (called ++ ".type must be 'function'"))
  else
    match (t.get (bytes "function")).filter Json.isObject with
    | none => refuse (bytes (called ++ ".function is required"))
    | some fn =>
        match (fn.get (bytes "name")).bind Json.getString with
        | none => refuse (bytes (called ++ ".function.name is required"))
        | some name => .ok {
            name := name
            description := stringField fn "description"
            parameters := (fn.get (bytes "parameters")).getD (.object []) }

def readTools (body : Json F) : Reading (List (ToolSpec F)) :=
  match field body "tools" with
  | none => .ok []
  | some v =>
      match v.getArray with
      | none => refuse (bytes "tools must be an array")
      | some items => parseAll readTool items.zipIdx

/-- The choice, and the function it names. -/
def readToolChoice (body : Json F) : Reading (Bytes × Bytes) :=
  match field body "tool_choice" with
  | none => .ok (bytes "auto", [])
  | some (.string choice) =>
      if choice = bytes "auto" ∨ choice = bytes "none" ∨ choice = bytes "required" then
        .ok (choice, [])
      else
        refuse (bytes "tool_choice must be 'auto', 'none', 'required', or a function object")
  | some (.object fields) =>
      let fn := ((Json.object fields).get (bytes "function")).filter Json.isObject
      match (fn.bind fun fn => fn.get (bytes "name")).bind Json.getString with
      | none => refuse (bytes "tool_choice object must carry function.name")
      | some name => .ok (bytes "required", name)
  | some _ => refuse (bytes "tool_choice must be a string or an object")

/-- Whether an effort level leaves thinking on. -/
def readEffort (body : Json F) : Reading (Option Bool) :=
  match field body "reasoning_effort" with
  | none => .ok none
  | some v =>
      match v.getString with
      | none => refuse (bytes "reasoning_effort must be a string")
      | some level =>
          .ok (some (level ≠ bytes "none" ∧ level ≠ bytes "off" ∧ level ≠ bytes "minimal"))

/-- The template's own switch, which wins over an effort level. -/
def readThinking (body : Json F) : Reading (Option Bool) := do
  let effort ← readEffort body
  match field body "chat_template_kwargs" with
  | none => return effort
  | some kw =>
      if kw.isObject = false then refuse (bytes "chat_template_kwargs must be an object")
      else readBoolean kw "enable_thinking" "chat_template_kwargs.enable_thinking" effort

end Messages

section Requests

variable {F S : Type} (single : Json F → S) (float : F → Bytes)

/-- `parse_chat_request`. -/
def parseChatRequest (body : Json F) : Reading (ChatRequest F S) :=
  if body.isObject = false then refuse (bytes "request body must be a JSON object")
  else do
    let messages ← readMessages float body
    let tools ← readTools body
    let choice ← readToolChoice body
    let streaming ← readStream body
    let sampler ← readSampler single body { }
    let thinking ← readThinking body
    return {
      model := stringField body "model"
      messages := messages
      tools := tools
      toolChoice := choice.1
      toolChoiceFunction := choice.2
      stream := streaming.1
      streamIncludeUsage := streaming.2
      enableThinking := thinking.getD true
      hasEnableThinking := thinking.isSome
      sampler := sampler }

def promptError : Bytes :=
  bytes "prompt must be a string, a one-element array of strings, or an array of token ids"

/-- A token id: not negative as an `int64_t`, and then read as an `int`. -/
def readPromptId (t : Json F) : Reading Int32 :=
  if t.isInteger = false ∨ t.getInt64 < 0 then
    refuse (bytes "a token-id prompt must be an array of non-negative integers")
  else .ok t.getInt32

/-- The text of the prompt, or its token ids. -/
def readPrompt (body : Json F) : Reading (Bytes × List Int32) :=
  match body.get (bytes "prompt") with
  | none => refuse (bytes "prompt is required")
  | some (.string text) => .ok (text, [])
  | some (.array (first :: rest)) =>
      if first.isInteger then do
        let ids ← parseAll readPromptId (first :: rest)
        return ([], ids)
      else
        match first.getString, rest with
        | some text, [] => .ok (text, [])
        | _, _ => refuse promptError
  | some _ => refuse promptError

/-- `parse_completion_request`. -/
def parseCompletionRequest (body : Json F) : Reading (CompletionRequest S) :=
  if body.isObject = false then refuse (bytes "request body must be a JSON object")
  else do
    let prompt ← readPrompt body
    let echo ← readBoolean body "echo" "echo" none
    ensure (echo.getD false = false ∨ prompt.2 = [])
      (.error (bytes "echo needs a text prompt (a token-id prompt has no text to echo)"))
    let streaming ← readStream body
    let sampler ← readSampler single body { }
    return {
      model := stringField body "model"
      prompt := prompt.1
      promptIds := prompt.2
      stream := streaming.1
      echo := echo.getD false
      streamIncludeUsage := streaming.2
      sampler := sampler }

end Requests

end Arcint.Core.Chat
