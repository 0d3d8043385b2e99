import Arcint.Text.ToolCallErrors

/-! # Tool calls read back

An answer written in the nested form, content and calls in turn, is read back as it was meant. A
value may hold tags, as long as it holds none of those that end it.
-/

namespace Arcint.Text.ToolCall

open Foundation Utf8

/-- A call to write: its name, and its parameters with their values. -/
structure NamedCall where
  name : Bytes
  params : List (Bytes × Bytes)
  deriving DecidableEq, Repr

def renderParam (param : Bytes × Bytes) : Bytes :=
  kParamOpen ++ param.1 ++ bytes ">\n" ++ param.2 ++ bytes "\n" ++ kParamEnd ++ bytes "\n"

/-- What stands between the tags of a function. -/
def renderFunction (call : NamedCall) : Bytes :=
  kFnOpen ++ call.name ++ bytes ">\n" ++ call.params.flatMap renderParam ++ kFnClose

def renderCall (call : NamedCall) : Bytes :=
  kOpen ++ bytes "\n" ++ renderFunction call ++ bytes "\n" ++ kClose

/-- The text of an answer: each call behind its segment, and a last segment. -/
def render (pieces : List (Bytes × NamedCall)) (last : Bytes) : Bytes :=
  (pieces.flatMap fun piece => piece.1 ++ renderCall piece.2) ++ last

/-- A name that stands between tags as it is. -/
structure IsName (name : Bytes) : Prop where
  nonempty : name ≠ []
  trimmed : trim name = name
  noOpen : 60 ∉ name
  noClose : 62 ∉ name

/-- A value without the tags that end it. -/
structure IsValue (value : Bytes) : Prop where
  noParamEnd : ¬ kParamEnd <:+: value
  noFnClose : ¬ kFnClose <:+: value
  noClose : ¬ kClose <:+: value

/-- A call that the nested form can hold. -/
structure NamedCall.Plain (call : NamedCall) : Prop where
  name : IsName call.name
  keys : ∀ param ∈ call.params, IsName param.1 ∧ isValid param.1 = true
  distinct : (call.params.map Prod.fst).Nodup
  values : ∀ param ∈ call.params, IsValue param.2 ∧ isValid param.2 = true

/-! ## Parameters -/

theorem bytes_tagLine : bytes ">\n" = tagEnd ++ [newline] := by decide

theorem bytes_line : bytes "\n" = [newline] := by decide

/-- A parameter with the line in front of it and without the one behind. -/
def paramText (param : Bytes × Bytes) : Bytes :=
  [newline] ++ kParamOpen ++ param.1 ++ tagEnd ++ (newline :: param.2 ++ [newline]) ++ kParamEnd

theorem flatMap_renderParam (params : List (Bytes × Bytes)) :
    newline :: params.flatMap renderParam = params.flatMap paramText ++ [newline] := by
  induction params with
  | nil => rfl
  | cons param params ih =>
      rw [List.flatMap_cons, List.flatMap_cons, List.append_assoc, ← ih]
      simp only [renderParam, paramText, bytes_tagLine, bytes_line, List.append_assoc,
        List.cons_append, List.nil_append]

theorem not_infix_of_notMem {pattern text : Bytes} {c : UInt8} (hmem : c ∈ pattern)
    (hc : c ∉ text) : ¬ pattern <:+: text := fun h => hc (h.subset hmem)

/-- A closing tag is not in an opening one, whose only `<` is in front. -/
theorem not_infix_openTag {tag word name : Bytes} {c : UInt8} (hname : IsName name) (hc : c ≠ 47)
    (hword : 60 ∉ c :: word) : ¬ 60 :: 47 :: tag <:+: 60 :: (c :: word ++ name ++ tagEnd) := by
  refine not_infix_cons ?_ ?_
  · intro hprefix
    exact hc (List.cons_prefix_cons.mp hprefix).1.symm
  · simp only [List.mem_append, not_or]
    exact ⟨⟨hword, hname.noOpen⟩, by decide⟩

/-- A closing tag that is in no value is not in the parameters. -/
theorem not_infix_params {pattern after : Bytes} {params : List (Bytes × Bytes)}
    (hkeys : ∀ param ∈ params, IsName param.1) (hvalues : ∀ param ∈ params, ¬ pattern <:+: param.2)
    (hclosing : ∃ tag, pattern = 60 :: 47 :: tag) (hnewline : newline ∉ pattern)
    (hend : ¬ pattern <:+: kParamEnd) (hafter : ¬ pattern <:+: after) :
    ¬ pattern <:+: params.flatMap renderParam ++ after := by
  obtain ⟨tag, rfl⟩ := hclosing
  induction params with
  | nil => exact hafter
  | cons param params ih =>
      obtain ⟨key, value⟩ := param
      have hkey : IsName key := hkeys _ List.mem_cons_self
      have hsplit : ((key, value) :: params).flatMap renderParam ++ after =
          (60 :: (112 :: bytes "arameter=" ++ key ++ tagEnd)) ++ newline :: (value ++ newline ::
            (kParamEnd ++ newline :: (params.flatMap renderParam ++ after))) := by
        have hopen : kParamOpen = 60 :: 112 :: bytes "arameter=" := by decide
        simp only [renderParam, List.flatMap_cons, bytes_tagLine, bytes_line, hopen,
          List.append_assoc, List.cons_append, List.nil_append]
      rw [hsplit]
      refine not_infix_append_cons hnewline (not_infix_openTag hkey (by decide) (by decide))
        (not_infix_append_cons hnewline (hvalues _ List.mem_cons_self)
          (not_infix_append_cons hnewline hend ?_))
      exact ih (fun p hp => hkeys p (List.mem_cons_of_mem _ hp))
        fun p hp => hvalues p (List.mem_cons_of_mem _ hp)

/-- Exactly the newlines of the form are taken off a value. -/
theorem stripOneNewline_value (value : Bytes) :
    stripOneNewline (newline :: value ++ [newline]) = value := by
  unfold stripOneNewline
  rw [List.cons_append, List.head?_cons, if_pos rfl, List.drop_one, List.tail_cons]
  dsimp only
  rw [List.getLast?_concat, if_pos rfl, List.dropLast_concat]

/-- A range that begins behind what is done. -/
theorem slice_behind {text done middle after : Bytes} {start n : Nat}
    (hstart : start = done.length) (hn : n = middle.length)
    (htext : text = done ++ (middle ++ after)) : slice text start n = middle := by
  rw [htext, hstart, hn, slice, List.drop_left, List.take_left]

/-- The parser reads a parameter that was written. -/
theorem nextParam_render {text done rest key value : Bytes} {bodyEnd : Nat} (hkey : IsName key)
    (hvalue : ¬ kParamEnd <:+: value) (htext : text = done ++ (paramText (key, value) ++ rest))
    (hend : (done ++ paramText (key, value)).length ≤ bodyEnd) :
    nextParam text bodyEnd done.length =
      some (key, value, (done ++ paramText (key, value)).length) := by
  have hlength : (done ++ paramText (key, value)).length =
      done.length + 1 + kParamOpen.length + key.length + 1 + (value.length + 2) +
        kParamEnd.length := by
    simp only [paramText, List.length_append, List.length_cons, List.length_nil]
    have htag : tagEnd.length = 1 := rfl
    omega
  -- the tag, the name and the value, each behind what is read before it
  have hbehindLine : text = done ++ ([newline] ++ (kParamOpen ++ (key ++ tagEnd ++
      (newline :: value ++ [newline]) ++ kParamEnd ++ rest))) := by
    rw [htext]
    simp only [paramText, List.append_assoc]
  have hbehindTag : text = (done ++ [newline] ++ kParamOpen) ++ (key ++ (tagEnd ++
      ((newline :: value ++ [newline]) ++ kParamEnd ++ rest))) := by
    rw [htext]
    simp only [paramText, List.append_assoc]
  have hbehindName : text = (done ++ [newline] ++ kParamOpen ++ key ++ tagEnd) ++
      ((newline :: value ++ [newline]) ++ (kParamEnd ++ rest)) := by
    rw [htext]
    simp only [paramText, List.append_assoc]
  have hopen : findFrom kParamOpen text done.length = some (done.length + 1) := by
    have hbefore : ¬ kParamOpen <:+: [newline] := by decide
    exact findFrom_delimiter (by decide) hbefore rfl hbehindLine
  have hstart : done.length + 1 + kParamOpen.length = (done ++ [newline] ++ kParamOpen).length := by
    simp only [List.length_append, List.length_singleton]
  have hname : findFrom tagEnd text (done.length + 1 + kParamOpen.length) =
      some (done.length + 1 + kParamOpen.length + key.length) :=
    findFrom_delimiter (by decide) (not_infix_of_notMem (List.mem_singleton_self _) hkey.noClose)
      hstart hbehindTag
  have hvalStart : done.length + 1 + kParamOpen.length + key.length + 1 =
      (done ++ [newline] ++ kParamOpen ++ key ++ tagEnd).length := by
    simp only [List.length_append, List.length_singleton]
    rfl
  have hclosed : findFrom kParamEnd text (done.length + 1 + kParamOpen.length + key.length + 1) =
      some (done.length + 1 + kParamOpen.length + key.length + 1 + (value.length + 2)) := by
    have hnewline : newline ∉ kParamEnd := by decide
    have hempty : ¬ kParamEnd <:+: [] := by decide
    have hline : ¬ kParamEnd <:+: newline :: value ++ [newline] :=
      not_infix_append_cons hnewline (not_infix_append_cons hnewline hempty hvalue) hempty
    have hfind := findFrom_delimiter (by decide) hline hvalStart hbehindName
    rwa [List.length_append, List.length_cons] at hfind
  unfold nextParam
  rw [if_neg (by omega), hopen]
  dsimp only
  rw [if_neg (by omega), hname]
  dsimp only
  rw [if_neg (by omega), hclosed, Option.filter_some, if_pos (by simpa using by omega),
    slice_behind hstart (by omega) hbehindTag, hkey.trimmed,
    slice_behind hvalStart (by simp) hbehindName, stripOneNewline_value, hlength]
  rfl

theorem params_render {text done : Bytes} {params : List (Bytes × Bytes)} {bodyEnd : Nat}
    (hkeys : ∀ param ∈ params, IsName param.1)
    (hvalues : ∀ param ∈ params, ¬ kParamEnd <:+: param.2)
    (htext : text = done ++ (params.flatMap paramText ++ ([newline] ++ kFnClose)))
    (hend : bodyEnd + kFnClose.length = text.length) :
    Params text bodyEnd done.length params := by
  induction params generalizing done with
  | nil =>
      refine .done ?_
      have hnone : findFrom kParamOpen text done.length = none := by
        have hrest : find kParamOpen ([newline] ++ kFnClose) = none := by decide
        unfold findFrom
        rw [htext, List.drop_left, List.flatMap_nil, List.nil_append, hrest]
        rfl
      unfold nextParam
      rw [hnone]
      split_ifs <;> rfl
  | cons param params ih =>
      obtain ⟨key, value⟩ := param
      rw [List.flatMap_cons, List.append_assoc] at htext
      have hlength : (done ++ paramText (key, value)).length ≤ bodyEnd := by
        have htotal := congrArg List.length htext
        simp only [List.length_append, List.length_singleton] at htotal ⊢
        omega
      refine .param (nextParam_render (hkeys _ List.mem_cons_self) (hvalues _ List.mem_cons_self)
        htext hlength) ?_
      exact ih (fun p hp => hkeys p (List.mem_cons_of_mem _ hp))
        (fun p hp => hvalues p (List.mem_cons_of_mem _ hp)) (by rw [htext, List.append_assoc])

/-! ## Bodies -/

theorem renderFunction_eq (call : NamedCall) : renderFunction call = kFnOpen ++ (call.name ++
    (tagEnd ++ (call.params.flatMap paramText ++ ([newline] ++ kFnClose)))) := by
  have hparams := flatMap_renderParam call.params
  rw [← List.append_assoc (call.params.flatMap paramText), ← hparams]
  simp only [renderFunction, bytes_tagLine, List.append_assoc, List.cons_append, List.nil_append]

/-- The parser reads a function that was written. -/
theorem nested_render {call : NamedCall} (h : call.Plain) :
    Nested (renderFunction call) call.name call.params := by
  have hkeys : ∀ param ∈ call.params, IsName param.1 := fun param hparam => (h.keys param hparam).1
  have htext := renderFunction_eq call
  have hbehindTag : renderFunction call = kFnOpen ++ (call.name ++ (tagEnd ++
      (call.params.flatMap paramText ++ ([newline] ++ kFnClose)))) := htext
  have hbehindName : renderFunction call = (kFnOpen ++ call.name) ++ ((tagEnd ++
      (call.params.flatMap paramText ++ [newline])) ++ (kFnClose ++ [])) := by
    rw [htext]
    simp only [List.append_assoc, List.append_nil]
  have hbehindEnd : renderFunction call = (kFnOpen ++ call.name ++ tagEnd) ++
      (call.params.flatMap paramText ++ ([newline] ++ kFnClose)) := by
    rw [htext]
    simp only [List.append_assoc]
  have hfn : find kFnOpen (renderFunction call) = some 0 := by
    have hempty : ¬ kFnOpen <:+: [] := by decide
    rw [htext]
    exact find_delimiter (by decide) hempty _
  have hname : findFrom tagEnd (renderFunction call) (0 + kFnOpen.length) =
      some (0 + kFnOpen.length + call.name.length) :=
    findFrom_delimiter (by decide)
      (not_infix_of_notMem (List.mem_singleton_self _) h.name.noClose) (Nat.zero_add _) hbehindTag
  have hclose : findFrom kFnClose (renderFunction call) (0 + kFnOpen.length + call.name.length) =
      some ((renderFunction call).length - kFnClose.length) := by
    have hbefore : ¬ kFnClose <:+: tagEnd ++ (call.params.flatMap paramText ++ [newline]) := by
      have hempty : ¬ kFnClose <:+: [] := by decide
      have hparams := not_infix_params hkeys
        (fun param hparam => (h.values param hparam).1.noFnClose) ⟨bytes "function>", by decide⟩
        (by decide) (by decide) hempty
      rw [← flatMap_renderParam, List.append_nil] at *
      exact not_infix_append_cons (by decide) (by decide) hparams
    rw [findFrom_delimiter (by decide) hbefore (by simp) hbehindName]
    have hlength := congrArg List.length hbehindName
    simp only [List.length_append, List.length_nil] at hlength ⊢
    congr 1
    omega
  have hslice : slice (renderFunction call) (0 + kFnOpen.length)
      (0 + kFnOpen.length + call.name.length - (0 + kFnOpen.length)) = call.name :=
    slice_behind (Nat.zero_add _) (Nat.add_sub_cancel_left _ _) hbehindTag
  refine .intro hfn hname ?_ h.name.nonempty ?_
  · rw [hslice, h.name.trimmed]
  · have hcursor : 0 + kFnOpen.length + call.name.length + 1 =
        (kFnOpen ++ call.name ++ tagEnd).length := by
      simp only [List.length_append, Nat.zero_add]
      rfl
    have hlength := congrArg List.length hbehindEnd
    simp only [List.length_append, List.length_singleton] at hlength
    rw [hclose, Option.getD_some, hcursor]
    exact params_render hkeys (fun param hparam => (h.values param hparam).1.noParamEnd) hbehindEnd
      (by omega)

theorem renderFunction_head (call : NamedCall) : ∃ rest, renderFunction call = 60 :: rest := by
  refine ⟨bytes "function=" ++ (call.name ++ (tagEnd ++ (call.params.flatMap paramText ++
    ([newline] ++ kFnClose)))), ?_⟩
  rw [renderFunction_eq]
  rfl

theorem isSpace_newline : isSpace newline = true := rfl

/-- Only the newlines of the form are taken off a body. -/
theorem trim_renderFunction (call : NamedCall) :
    trim (newline :: (renderFunction call ++ [newline])) = renderFunction call := by
  have hclose : ∃ init, renderFunction call = init ++ [62] := by
    refine ⟨kFnOpen ++ (call.name ++ (tagEnd ++ (call.params.flatMap paramText ++
      ([newline] ++ bytes "</function")))), ?_⟩
    have htag : kFnClose = bytes "</function" ++ [62] := by decide
    rw [renderFunction_eq, htag]
    simp only [List.append_assoc]
  obtain ⟨rest, hrest⟩ := renderFunction_head call
  obtain ⟨init, hinit⟩ := hclose
  have hltrim : ltrim (newline :: (renderFunction call ++ [newline])) =
      renderFunction call ++ [newline] := by
    rw [hrest]
    rfl
  unfold trim
  rw [hltrim, hinit]
  unfold rtrim
  rw [List.rdropWhile_concat_pos _ _ _ isSpace_newline,
    List.rdropWhile_concat_neg _ _ _ (by decide)]

/-! ## The text -/

/-- What stands between the tags of a rendered call. -/
def callBody (call : NamedCall) : Bytes := newline :: (renderFunction call ++ [newline])

/-- No block ends before its own end. -/
theorem not_infix_callBody {call : NamedCall} (h : call.Plain) : ¬ kClose <:+: callBody call := by
  have hsplit : callBody call = [] ++ newline :: ((60 :: (102 :: bytes "unction=" ++ call.name ++
      tagEnd)) ++ newline :: (call.params.flatMap renderParam ++ (kFnClose ++ [newline]))) := by
    have hopen : kFnOpen = 60 :: 102 :: bytes "unction=" := by decide
    simp only [callBody, renderFunction, bytes_tagLine, hopen, List.append_assoc, List.cons_append,
      List.nil_append]
  have hnewline : newline ∉ kClose := by decide
  have hempty : ¬ kClose <:+: [] := by decide
  have hend : ¬ kClose <:+: kFnClose ++ [newline] := by decide
  have hparams := not_infix_params (fun param hparam => (h.keys param hparam).1)
    (fun param hparam => (h.values param hparam).1.noClose) ⟨bytes "tool_call>", by decide⟩
    hnewline (by decide) hend
  have hclose : kClose = 60 :: 47 :: bytes "tool_call>" := by decide
  rw [hsplit]
  refine not_infix_append_cons hnewline hempty (not_infix_append_cons hnewline ?_ hparams)
  rw [hclose]
  exact not_infix_openTag h.name (by decide) (by decide)

theorem block_render {text done segment rest : Bytes} {call : NamedCall}
    (hsegment : ¬ kOpen <:+: segment) (hcall : call.Plain)
    (htext : text = done ++ (segment ++ (kOpen ++ (callBody call ++ (kClose ++ rest))))) :
    Block text done.length (done.length + segment.length)
      (done.length + segment.length + kOpen.length + (callBody call).length) := by
  refine ⟨findFrom_delimiter (by decide) hsegment rfl htext, ?_⟩
  have hbehind : text = (done ++ segment ++ kOpen) ++ (callBody call ++ (kClose ++ rest)) := by
    rw [htext]
    simp only [List.append_assoc]
  exact findFrom_delimiter (by decide) (not_infix_callBody hcall)
    (by simp only [List.length_append]) hbehind

theorem renderCall_eq (call : NamedCall) :
    renderCall call = kOpen ++ (callBody call ++ kClose) := by
  simp only [renderCall, callBody, bytes_line, List.append_assoc, List.cons_append, List.nil_append]

/-- The parser cuts the text where it was put together. -/
theorem cuts_render {text done last : Bytes} {pieces : List (Bytes × NamedCall)}
    (hpieces : ∀ piece ∈ pieces, ¬ kOpen <:+: piece.1 ∧ piece.2.Plain) (hlast : ¬ kOpen <:+: last)
    (htext : text = done ++ render pieces last) :
    Cuts text done.length (pieces.map fun piece => (piece.1, callBody piece.2))
      (text.length - last.length) := by
  induction pieces generalizing done with
  | nil =>
      have hend : text.length - last.length = done.length := by
        rw [htext, render, List.flatMap_nil, List.nil_append, List.length_append,
          Nat.add_sub_cancel]
      rw [hend]
      refine .rest fun start close hblock => ?_
      have hoccurs := (findFrom_eq_some hblock.opens).2.1
      have hcursor := hblock.cursor_le
      rw [htext, render, List.flatMap_nil, List.nil_append, ← Nat.add_sub_cancel' hcursor,
        ← List.drop_drop, List.drop_left] at hoccurs
      exact hlast (infix_iff_occurs.mpr ⟨_, hoccurs⟩)
  | cons piece pieces ih =>
      obtain ⟨segment, call⟩ := piece
      obtain ⟨hsegment, hcall⟩ := hpieces _ List.mem_cons_self
      have hsplit : text = done ++ (segment ++ (kOpen ++ (callBody call ++ (kClose ++
          render pieces last)))) := by
        rw [htext]
        simp only [render, List.flatMap_cons, renderCall_eq, List.append_assoc]
      have hblock := block_render hsegment hcall hsplit
      have hrest : text = (done ++ segment ++ kOpen ++ callBody call ++ kClose) ++
          render pieces last := by
        rw [hsplit]
        simp only [List.append_assoc]
      have hlater := ih (fun p hp => hpieces p (List.mem_cons_of_mem _ hp)) hrest
      have hbehind : text = (done ++ segment ++ kOpen) ++ (callBody call ++ (kClose ++
          render pieces last)) := by
        rw [hsplit]
        simp only [List.append_assoc]
      simp only [List.length_append] at hlater
      have hcuts := Cuts.block hblock hlater
      rwa [slice_behind rfl (Nat.add_sub_cancel_left _ _) hsplit,
        slice_behind (by simp only [List.length_append]) (Nat.add_sub_cancel_left _ _) hbehind]
        at hcuts

/-! ## The calls -/

section Calls

variable {J : Type} (lib : JsonLib J) (schemas : ToolSchemas)

/-- A call with the name and the arguments that were written. -/
structure ReadBack (written : NamedCall) (call : Call) : Prop where
  name : call.name = written.name
  arguments : ∃ object, lib.dump object = some call.arguments ∧ lib.isObject object = true ∧
    ∀ key, lib.get object key = (written.params.lookup key).map lib.ofString

/-- Every parameter of the call is a string, declared or not. -/
def StringTyped (call : NamedCall) : Prop :=
  ∀ param ∈ call.params,
    typeOf (schemas call.name) param.1 = [] ∨ typeOf (schemas call.name) param.1 = bytes "string"

variable {lib schemas}

theorem lookup_eq_some_iff {params : List (Bytes × Bytes)} (h : (params.map Prod.fst).Nodup)
    {key value : Bytes} : params.lookup key = some value ↔ (key, value) ∈ params := by
  induction params with
  | nil => simp
  | cons param params ih =>
      obtain ⟨name, text⟩ := param
      rw [List.map_cons, List.nodup_cons] at h
      rw [List.lookup_cons, List.mem_cons]
      by_cases heq : key = name
      · have hnot : (key, value) ∉ params := fun hmem =>
          h.1 (List.mem_map.mpr ⟨(key, value), hmem, heq⟩)
        rw [beq_iff_eq.mpr heq, or_iff_left hnot, Prod.mk.injEq, and_iff_right heq]
        exact Option.some_inj.trans eq_comm
      · rw [beq_eq_false_iff_ne.mpr heq, Prod.mk.injEq, or_iff_right fun h => heq h.1]
        exact ih h.2

/-- Of names that occur once the last is the first. -/
theorem lookup_reverse {params : List (Bytes × Bytes)} (h : (params.map Prod.fst).Nodup)
    (key : Bytes) : params.reverse.lookup key = params.lookup key := by
  have hreverse : (params.reverse.map Prod.fst).Nodup := by
    rwa [List.map_reverse, (List.reverse_perm _).nodup_iff]
  ext value
  rw [lookup_eq_some_iff h, lookup_eq_some_iff hreverse, List.mem_reverse]

variable (hlib : lib.Documented)

include hlib

theorem parseBody_render {call : NamedCall} (hcall : call.Plain)
    (htypes : StringTyped schemas call) :
    ∃ arguments, parseBody lib schemas (renderFunction call) = .call call.name arguments ∧
      ∀ id, ReadBack lib call ⟨id, call.name, arguments⟩ := by
  have hnotJson : (renderFunction call).head? ≠ (bytes "\x7b").head? := by
    obtain ⟨rest, hrest⟩ := renderFunction_head call
    rw [hrest, List.head?_cons]
    decide
  have hdump : (lib.dump (argumentsOf lib (schemas call.name) call.params)).isSome := by
    refine (dump_argumentsOf hlib _ _).mpr fun key raw _ hlast => ?_
    rw [lookup_reverse hcall.distinct, lookup_eq_some_iff hcall.distinct] at hlast
    exact ⟨(hcall.keys _ hlast).2, Or.inl (hcall.values _ hlast).2⟩
  obtain ⟨arguments, harguments⟩ := Option.isSome_iff_exists.mp hdump
  refine ⟨arguments, ?_, fun id => ⟨rfl, _, harguments, isObject_argumentsOf hlib _ _, ?_⟩⟩
  · rw [parseBody, if_neg hnotJson, parseXmlBody_nested lib schemas (nested_render hcall),
      harguments]
  · intro key
    by_cases hkey : key = []
    · have hnone : call.params.lookup key = none := by
        refine Option.eq_none_iff_forall_ne_some.mpr fun raw hraw => ?_
        have hmem := (lookup_eq_some_iff hcall.distinct).mp hraw
        exact (hcall.keys _ hmem).1.nonempty hkey
      rw [hnone, hkey]
      exact get_argumentsOf_nil hlib _ _
    · rw [get_argumentsOf hlib _ _ hkey, lookup_reverse hcall.distinct]
      -- a value of string type, or of none, is the string it came as
      refine Option.map_congr fun raw hraw => ?_
      have hmem := (lookup_eq_some_iff hcall.distinct).mp hraw
      unfold coerce
      exact if_pos ((htypes _ hmem).symm)

theorem assemble_render {pieces : List (Bytes × NamedCall)}
    (hpieces : ∀ piece ∈ pieces, piece.2.Plain ∧ StringTyped schemas piece.2) (content : Bytes)
    (calls : List Call) :
    ∃ more, assemble lib schemas content calls
        (pieces.map fun piece => (piece.1, callBody piece.2)) =
          some (content ++ pieces.flatMap Prod.fst, calls ++ more) ∧
      List.Forall₂ (fun piece call => ReadBack lib piece.2 call) pieces more := by
  induction pieces generalizing content calls with
  | nil => exact ⟨[], by simp [assemble], .nil⟩
  | cons piece pieces ih =>
      obtain ⟨segment, call⟩ := piece
      obtain ⟨hcall, htypes⟩ := hpieces _ List.mem_cons_self
      obtain ⟨arguments, hparsed, hread⟩ := parseBody_render hlib hcall htypes
      obtain ⟨more, hmore, hall⟩ := ih (fun p hp => hpieces p (List.mem_cons_of_mem _ hp))
        (content ++ segment)
        (calls ++ [⟨bytes ("call_" ++ toString calls.length), call.name, arguments⟩])
      refine ⟨⟨bytes ("call_" ++ toString calls.length), call.name, arguments⟩ :: more, ?_,
        .cons (hread _) hall⟩
      rw [List.map_cons, assemble, callBody, trim_renderFunction, hparsed]
      dsimp only
      rw [hmore, List.flatMap_cons, List.append_assoc, List.append_assoc]
      rfl

/-- Segments and calls that are written in turn are read back: the segments are the content, and
the calls come in order, each with its name and its arguments. -/
theorem parseQwenToolCalls_render {pieces : List (Bytes × NamedCall)} {last : Bytes}
    (hsegments : ∀ piece ∈ pieces, ¬ kOpen <:+: piece.1) (hlast : ¬ kOpen <:+: last)
    (hcalls : ∀ piece ∈ pieces, piece.2.Plain ∧ StringTyped schemas piece.2) :
    ∃ calls, parseQwenToolCalls lib schemas (render pieces last) =
        some ⟨pieces.flatMap Prod.fst ++ last, calls, false⟩ ∧
      List.Forall₂ (fun piece call => ReadBack lib piece.2 call) pieces calls := by
  have hcuts : Cuts (render pieces last) 0 (pieces.map fun piece => (piece.1, callBody piece.2))
      ((render pieces last).length - last.length) :=
    @cuts_render (render pieces last) [] last pieces
      (fun piece hpiece => ⟨hsegments piece hpiece, (hcalls piece hpiece).1⟩) hlast rfl
  obtain ⟨calls, hassembled, hall⟩ := assemble_render hlib hcalls [] []
  refine ⟨calls, ?_, hall⟩
  have hrest : (render pieces last).drop ((render pieces last).length - last.length) = last := by
    rw [render, List.length_append, Nat.add_sub_cancel, List.drop_left]
  have hnone : findFrom kOpen (render pieces last)
      ((render pieces last).length - last.length) = none := by
    unfold findFrom
    rw [hrest, Option.map_eq_none_iff, find_eq_none_iff]
    exact fun i hoccurs => hlast (infix_iff_occurs.mpr ⟨i, hoccurs⟩)
  rw [parseQwenToolCalls_eq hcuts, hassembled, Option.map_some, hrest, hnone]
  rfl

end Calls

/-- A segment and a call whose value is a tag of its own and ends in an empty line. -/
def echoed : List (Bytes × NamedCall) :=
  [(bytes "hi ", ⟨bytes "echo", [(bytes "text", bytes "<tool_call>\n")]⟩)]

theorem parseQwenToolCalls_render_echoed :
    ∃ calls, parseQwenToolCalls textLibrary (fun _ => none) (render echoed (bytes "bye")) =
        some ⟨echoed.flatMap Prod.fst ++ bytes "bye", calls, false⟩ ∧
      List.Forall₂ (fun piece call => ReadBack textLibrary piece.2 call) echoed calls := by
  refine parseQwenToolCalls_render textLibrary_documented (by decide) (by decide) ?_
  intro piece hpiece
  obtain rfl := List.mem_singleton.mp hpiece
  refine ⟨⟨⟨by decide, by decide, by decide, by decide⟩, ?_, by decide, ?_⟩, ?_⟩
  · intro param hparam
    obtain rfl := List.mem_singleton.mp hparam
    exact ⟨⟨by decide, by decide, by decide, by decide⟩, by decide⟩
  · intro param hparam
    obtain rfl := List.mem_singleton.mp hparam
    exact ⟨⟨by decide, by decide, by decide⟩, by decide⟩
  · exact fun param _ => Or.inl rfl

end Arcint.Text.ToolCall
