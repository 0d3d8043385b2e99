import Arcint.Text.ToolCall

/-! # What the tool-call parser reads

The text cut at the tags, and a body of nested tags cut into its parameters. The parser's two
loops fold over these cuts.
-/

namespace Arcint.Text.ToolCall

open Foundation

/-! ## Parameters -/

/-- The next parameter: its name, its text, and the cursor behind it. -/
def nextParam (body : Bytes) (bodyEnd cursor : Nat) : Option (Bytes × Bytes × Nat) :=
  if bodyEnd ≤ cursor then none
  else
    match findFrom kParamOpen body cursor with
    | none => none
    | some p =>
        if bodyEnd ≤ p then none
        else
          let keyStart := p + kParamOpen.length
          match findFrom tagEnd body keyStart with
          | none => none
          | some keyEnd =>
              if bodyEnd ≤ keyEnd then none
              else
                let valStart := keyEnd + 1
                -- without an end of its own the value goes to the end of the call
                let closed := (findFrom kParamEnd body valStart).filter (· ≤ bodyEnd)
                let valEnd := closed.getD bodyEnd
                some (trim (slice body keyStart (keyEnd - keyStart)),
                  stripOneNewline (slice body valStart (valEnd - valStart)),
                  (closed.map (· + kParamEnd.length)).getD bodyEnd)

/-- The parameters from a cursor on, in order. -/
inductive Params (body : Bytes) (bodyEnd : Nat) : Nat → List (Bytes × Bytes) → Prop
  | done {cursor : Nat} (h : nextParam body bodyEnd cursor = none) : Params body bodyEnd cursor []
  | param {cursor next : Nat} {key raw : Bytes} {params : List (Bytes × Bytes)}
      (h : nextParam body bodyEnd cursor = some (key, raw, next))
      (later : Params body bodyEnd next params) : Params body bodyEnd cursor ((key, raw) :: params)

section Params

variable {J : Type} (lib : JsonLib J) (types : Option ParamTypes)

/-- The declared type of a parameter, empty when there is none. -/
def typeOf (key : Bytes) : Bytes := (types.bind fun declared => declared key).getD []

/-- The arguments with a parameter. -/
def addParam (args : J) (param : Bytes × Bytes) : J :=
  if param.1 = [] then args
  else lib.set args param.1 (coerce lib param.2 (typeOf types param.1))

variable (body : Bytes) (bodyEnd : Nat)

/-- A pass of the loop reads one parameter. -/
theorem paramLoop_body (cursor : Nat) (args : J) :
    (paramLoop lib types body bodyEnd).body (cursor, args) =
      match nextParam body bodyEnd cursor with
      | none => .leave args
      | some (key, raw, next) => .again (next, addParam lib types args (key, raw)) := by
  dsimp only [paramLoop, nextParam]
  by_cases hcursor : bodyEnd ≤ cursor
  · rw [if_pos hcursor, if_pos hcursor]
  rw [if_neg hcursor, if_neg hcursor]
  cases findFrom kParamOpen body cursor with
  | none => rfl
  | some p =>
      dsimp only
      by_cases hp : bodyEnd ≤ p
      · rw [if_pos hp, if_pos hp]
      rw [if_neg hp, if_neg hp]
      cases findFrom tagEnd body (p + kParamOpen.length) with
      | none => rfl
      | some keyEnd =>
          dsimp only
          by_cases hkey : bodyEnd ≤ keyEnd
          · rw [if_pos hkey, if_pos hkey]
          rw [if_neg hkey, if_neg hkey]
          rfl

variable {body bodyEnd}

/-- A parameter is read before the end, and the cursor moves on. -/
theorem nextParam_lt {cursor next : Nat} {key raw : Bytes}
    (h : nextParam body bodyEnd cursor = some (key, raw, next)) :
    cursor < bodyEnd ∧ cursor < next := by
  dsimp only [nextParam] at h
  split_ifs at h with hcursor
  split at h
  next => cases h
  next p hp =>
    have hlow := (findFrom_eq_some hp).1
    split_ifs at h with hbefore
    split at h
    next => cases h
    next keyEnd hkeyEnd =>
      have hhigh := (findFrom_eq_some hkeyEnd).1
      split_ifs at h with hinside
      simp only [Option.some.injEq, Prod.mk.injEq] at h
      obtain ⟨-, -, rfl⟩ := h
      refine ⟨not_le.mp hcursor, ?_⟩
      cases hclosed : (findFrom kParamEnd body (keyEnd + 1)).filter (· ≤ bodyEnd) with
      | none => exact not_le.mp hcursor
      | some valEnd =>
          have hval := (findFrom_eq_some (Option.filter_eq_some_iff.mp hclosed).1).1
          rw [Option.map_some, Option.getD_some]
          omega

/-- The parameters can be read to their end. -/
theorem exists_params (body : Bytes) (bodyEnd cursor : Nat) :
    ∃ params, Params body bodyEnd cursor params := by
  induction hn : bodyEnd - cursor using Nat.strongRecOn generalizing cursor with
  | ind n ih =>
      cases hnext : nextParam body bodyEnd cursor with
      | none => exact ⟨[], .done hnext⟩
      | some param =>
          obtain ⟨key, raw, next⟩ := param
          obtain ⟨hinside, hlater⟩ := nextParam_lt hnext
          obtain ⟨params, hparams⟩ := ih (bodyEnd - next) (by omega) next rfl
          exact ⟨(key, raw) :: params, .param hnext hparams⟩

theorem Params.unique {cursor : Nat} {params others : List (Bytes × Bytes)}
    (h : Params body bodyEnd cursor params) (h' : Params body bodyEnd cursor others) :
    params = others := by
  induction h generalizing others with
  | done hnext =>
      cases h' with
      | done => rfl
      | param hnext' => cases hnext.symm.trans hnext'
  | param hnext _ ih =>
      cases h' with
      | done hnext' => cases hnext.symm.trans hnext'
      | param hnext' later =>
          cases hnext.symm.trans hnext'
          rw [ih later]

/-- The loop folds over the parameters. -/
theorem Params.leaves {cursor : Nat} {params : List (Bytes × Bytes)}
    (h : Params body bodyEnd cursor params) (args : J) :
    (paramLoop lib types body bodyEnd).LeavesWith (cursor, args)
      (params.foldl (addParam lib types) args) := by
  induction h generalizing args with
  | done hnext =>
      apply Loop.leavesWith_of_leave
      rw [paramLoop_body, hnext]
      rfl
  | param hnext _ ih =>
      apply (ih _).of_again
      rw [paramLoop_body, hnext]

end Params

/-! ## Bodies -/

/-- A body of nested tags: its name and its parameters. -/
inductive Nested (body : Bytes) : Bytes → List (Bytes × Bytes) → Prop
  | intro {fn nameEnd : Nat} {name : Bytes} {params : List (Bytes × Bytes)}
      (hfn : find kFnOpen body = some fn)
      (hend : findFrom tagEnd body (fn + kFnOpen.length) = some nameEnd)
      (hname : name = trim (slice body (fn + kFnOpen.length) (nameEnd - (fn + kFnOpen.length))))
      (hne : name ≠ [])
      (hparams : Params body ((findFrom kFnClose body nameEnd).getD body.length) (nameEnd + 1)
        params) : Nested body name params

/-- A body has one name and one list of parameters. -/
theorem Nested.unique {body name other : Bytes} {params others : List (Bytes × Bytes)}
    (h : Nested body name params) (h' : Nested body other others) :
    name = other ∧ params = others := by
  obtain ⟨hfn, hend, rfl, -, hparams⟩ := h
  obtain ⟨hfn', hend', rfl, -, hparams'⟩ := h'
  cases hfn.symm.trans hfn'
  cases hend.symm.trans hend'
  exact ⟨rfl, hparams.unique hparams'⟩

section Bodies

variable {J : Type} (lib : JsonLib J) (schemas : ToolSchemas) {body : Bytes}

/-- The object of the arguments. -/
def argumentsOf (types : Option ParamTypes) (params : List (Bytes × Bytes)) : J :=
  params.foldl (addParam lib types) lib.object

theorem argumentsOf_concat (types : Option ParamTypes) (params : List (Bytes × Bytes))
    (param : Bytes × Bytes) :
    argumentsOf lib types (params ++ [param]) =
      addParam lib types (argumentsOf lib types params) param :=
  List.foldl_concat _ _ _ _

/-- A nested body is a call, unless its arguments cannot be written. -/
theorem parseXmlBody_nested {name : Bytes} {params : List (Bytes × Bytes)}
    (h : Nested body name params) :
    parseXmlBody lib schemas body =
      match lib.dump (argumentsOf lib (schemas name) params) with
      | none => .throws
      | some arguments => .call name arguments := by
  obtain ⟨hfn, hend, rfl, hne, hparams⟩ := h
  unfold parseXmlBody
  rw [hfn]
  dsimp only
  rw [hend]
  dsimp only
  rw [if_neg hne]
  obtain ⟨args, hargs⟩ := paramLoop_leaves lib (schemas _) body _ _ lib.object
  rw [hargs, (hparams.leaves lib _ _).eq hargs]
  rfl

/-- Any other body is not recognised. -/
theorem parseXmlBody_unrecognised (h : ∀ name params, ¬ Nested body name params) :
    parseXmlBody lib schemas body = .unrecognised := by
  unfold parseXmlBody
  cases hfn : find kFnOpen body with
  | none => rfl
  | some fn =>
      dsimp only
      cases hend : findFrom tagEnd body (fn + kFnOpen.length) with
      | none => rfl
      | some nameEnd =>
          dsimp only
          split_ifs with hname
          · rfl
          · obtain ⟨params, hparams⟩ := exists_params body
              ((findFrom kFnClose body nameEnd).getD body.length) (nameEnd + 1)
            exact absurd (.intro hfn hend rfl hname hparams) (h _ _)

end Bodies

/-! ## The text -/

/-- The text from a cursor on cut at the tags: what stands before each block with the block's
body, and the position behind the last block. -/
inductive Cuts (text : Bytes) : Nat → List (Bytes × Bytes) → Nat → Prop
  | rest {cursor : Nat} (h : ∀ start close, ¬ Block text cursor start close) :
      Cuts text cursor [] cursor
  | block {cursor start close last : Nat} {pieces : List (Bytes × Bytes)}
      (h : Block text cursor start close)
      (later : Cuts text (close + kClose.length) pieces last) :
      Cuts text cursor
        ((slice text cursor (start - cursor),
          slice text (start + kOpen.length) (close - (start + kOpen.length))) :: pieces) last

/-- The text can be cut. -/
theorem exists_cuts (text : Bytes) (cursor : Nat) :
    ∃ pieces last, Cuts text cursor pieces last := by
  induction hn : text.length - cursor using Nat.strongRecOn generalizing cursor with
  | ind n ih =>
      by_cases h : ∃ start close, Block text cursor start close
      · obtain ⟨start, close, hblock⟩ := h
        have hcursor := hblock.cursor_le
        have hbody := hblock.body_le
        have hend := hblock.end_le
        have hopen : 0 < kOpen.length := by decide
        obtain ⟨pieces, last, hcuts⟩ := ih (text.length - (close + kClose.length)) (by omega) _ rfl
        exact ⟨_, _, .block hblock hcuts⟩
      · exact ⟨[], cursor, .rest fun start close hblock => h ⟨start, close, hblock⟩⟩

section Pieces

variable {J : Type} (lib : JsonLib J) (schemas : ToolSchemas)

/-- Content and calls of the pieces: a recognised body is a call, any other stays in the content
between its tags. -/
def assemble (content : Bytes) (calls : List Call) :
    List (Bytes × Bytes) → Option (Bytes × List Call)
  | [] => some (content, calls)
  | (before, body) :: pieces =>
      match parseBody lib schemas (trim body) with
      | .throws => none
      | .call name arguments =>
          assemble (content ++ before)
            (calls ++ [⟨bytes ("call_" ++ toString calls.length), name, arguments⟩]) pieces
      | .unrecognised =>
          assemble (content ++ before ++ (kOpen ++ body ++ kClose)) calls pieces

variable {lib schemas} {text : Bytes}

/-- A pass of the parser reads one piece. -/
theorem parseLoop_block {cursor start close : Nat} (h : Block text cursor start close)
    (content : Bytes) (calls : List Call) :
    (parseLoop lib schemas text).body ⟨cursor, content, calls⟩ =
      match parseBody lib schemas
          (trim (slice text (start + kOpen.length) (close - (start + kOpen.length)))) with
      | .throws => .leave none
      | .call name arguments =>
          .again ⟨close + kClose.length, content ++ slice text cursor (start - cursor),
            calls ++ [⟨bytes ("call_" ++ toString calls.length), name, arguments⟩]⟩
      | .unrecognised =>
          .again ⟨close + kClose.length, content ++ slice text cursor (start - cursor) ++
            (kOpen ++ slice text (start + kOpen.length) (close - (start + kOpen.length)) ++
              kClose), calls⟩ := by
  dsimp only [parseLoop]
  rw [h.opens]
  dsimp only
  rw [h.closes]
  dsimp only
  rewrite [h.slice_eq]
  cases parseBody lib schemas
    (trim (slice text (start + kOpen.length) (close - (start + kOpen.length)))) <;> rfl

/-- Without another block the rest is content. -/
theorem parseLoop_rest {cursor : Nat} (h : ∀ start close, ¬ Block text cursor start close)
    (content : Bytes) (calls : List Call) :
    (parseLoop lib schemas text).body ⟨cursor, content, calls⟩ =
      .leave (some ⟨content ++ text.drop cursor, calls, (findFrom kOpen text cursor).isSome⟩) := by
  dsimp only [parseLoop]
  cases hopen : findFrom kOpen text cursor with
  | none => rfl
  | some start =>
      cases hclose : findFrom kClose text (start + kOpen.length) with
      | some close => exact absurd ⟨hopen, hclose⟩ (h start close)
      | none =>
          have hcursor := (findFrom_eq_some hopen).1
          have hrest : text.drop cursor =
              slice text cursor (start - cursor) ++ text.drop start := by
            rw [slice, ← Nat.add_sub_cancel' hcursor, ← List.drop_drop, Nat.add_sub_cancel_left,
              List.take_append_drop]
          dsimp only
          rw [hclose, hrest, ← List.append_assoc]
          rfl

theorem Cuts.leaves {cursor last : Nat} {pieces : List (Bytes × Bytes)}
    (h : Cuts text cursor pieces last) (content : Bytes) (calls : List Call) :
    (parseLoop lib schemas text).LeavesWith ⟨cursor, content, calls⟩
      ((assemble lib schemas content calls pieces).map fun (content, calls) =>
        ⟨content ++ text.drop last, calls, (findFrom kOpen text last).isSome⟩) := by
  induction h generalizing content calls with
  | rest h => exact Loop.leavesWith_of_leave (parseLoop_rest h content calls)
  | block h _ ih =>
      have hbody := @parseLoop_block _ lib schemas _ _ _ _ h content calls
      unfold assemble
      cases hparsed : parseBody lib schemas (trim (slice _ _ _)) with
      | throws =>
          rw [hparsed] at hbody
          exact Loop.leavesWith_of_leave hbody
      | call name arguments =>
          rw [hparsed] at hbody
          exact (ih _ _).of_again hbody
      | unrecognised =>
          rw [hparsed] at hbody
          exact (ih _ _).of_again hbody

/-- The parser's result is the assembly of the pieces. -/
theorem parseQwenToolCalls_eq {last : Nat} {pieces : List (Bytes × Bytes)}
    (h : Cuts text 0 pieces last) :
    parseQwenToolCalls lib schemas text =
      (assemble lib schemas [] [] pieces).map fun (content, calls) =>
        ⟨content ++ text.drop last, calls, (findFrom kOpen text last).isSome⟩ := by
  obtain ⟨result, hresult⟩ := parseLoop_leaves lib schemas text
  unfold parseQwenToolCalls
  rw [hresult]
  exact (h.leaves [] []).eq hresult

/-- Assembling fails exactly where a body throws. -/
theorem assemble_isSome {pieces : List (Bytes × Bytes)} (content : Bytes) (calls : List Call) :
    (assemble lib schemas content calls pieces).isSome ↔
      ∀ piece ∈ pieces, parseBody lib schemas (trim piece.2) ≠ .throws := by
  induction pieces generalizing content calls with
  | nil => simp [assemble]
  | cons piece pieces ih =>
      unfold assemble
      rw [List.forall_mem_cons]
      cases hparsed : parseBody lib schemas (trim piece.2) with
      | throws => simp
      | call name arguments => simp [ih]
      | unrecognised => simp [ih]

end Pieces

end Arcint.Text.ToolCall
