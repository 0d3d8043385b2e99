import Arcint.Text.Bytes

/-! # The reasoning split

A thinking model answers from inside a think block. The batch form splits the
whole answer at the first close tag; the streaming form splits it piece by piece
and holds back what may still become a tag. Both strip the newlines after the close
tag, the streaming form only those that came in the tag's own piece.
-/

namespace Arcint.Text

open Foundation

def kOpen : Bytes := bytes "<think>"

def kClose : Bytes := bytes "</think>"

def stripLeadingNewlines (s : Bytes) : Bytes := s.dropWhile (· == newline)

def stripEdgeNewlines (s : Bytes) : Bytes :=
  (stripLeadingNewlines s).rdropWhile (· == newline)

/-- The loop that `split_reasoning` and `push` run before they look for the open tag. -/
def skipBlank (s : Bytes) : Bytes := s.dropWhile fun b => b == newline || b == space

/-! ## The batch form -/

structure ReasoningSplit where
  reasoning : Bytes
  content : Bytes
  closed : Bool
  deriving DecidableEq, Repr

/-- What follows the opening of the think block, if there is one. -/
def thinkBody (raw : Bytes) (thinkOpen : Bool) : Option Bytes :=
  if thinkOpen = true then some raw
  else if (skipBlank raw).take kOpen.length ≠ kOpen then none
  else some ((skipBlank raw).drop kOpen.length)

def splitReasoning (raw : Bytes) (thinkOpen : Bool) : ReasoningSplit :=
  match thinkBody raw thinkOpen with
  | none => ⟨[], raw, false⟩
  | some body =>
      match find kClose body with
      | none => ⟨stripEdgeNewlines body, [], false⟩
      | some close =>
          ⟨stripEdgeNewlines (body.take close),
            stripLeadingNewlines (body.drop (close + kClose.length)), true⟩

/-! ## The streaming form -/

structure Step where
  reasoning : Bytes
  content : Bytes
  deriving DecidableEq, Repr

namespace Step

def empty : Step := ⟨[], []⟩

/-- The deltas of two steps. -/
def append (a b : Step) : Step := ⟨a.reasoning ++ b.reasoning, a.content ++ b.content⟩

end Step

structure ReasoningStreamer where
  inReasoning : Bool
  undecided : Bool
  buffer : Bytes
  deriving DecidableEq, Repr

namespace ReasoningStreamer

def new (thinkOpen : Bool) : ReasoningStreamer := ⟨thinkOpen, !thinkOpen, []⟩

/-- `push` once it is known whether the answer starts with a think block. -/
def pushDecided (st : ReasoningStreamer) (piece : Bytes) : Step × ReasoningStreamer :=
  if st.inReasoning = false then (⟨[], piece⟩, st)
  else
    let buffer := st.buffer ++ piece
    match find kClose buffer with
    | none =>
        -- emit what cannot be part of a straddling close tag
        let safe := buffer.length - partialStopSuffix buffer kClose
        (⟨buffer.take safe, []⟩, { st with buffer := buffer.drop safe })
    | some close =>
        (⟨buffer.take close, stripLeadingNewlines (buffer.drop (close + kClose.length))⟩,
          { st with buffer := [], inReasoning := false })

def push (st : ReasoningStreamer) (piece : Bytes) : Step × ReasoningStreamer :=
  if st.undecided = true then
    let buffer := st.buffer ++ piece
    let lead := skipBlank buffer
    if lead.length < kOpen.length then
      if kOpen.take lead.length = lead then (.empty, { st with buffer := buffer })
      else (⟨[], buffer⟩, { st with undecided := false, buffer := [] })
    else if lead.take kOpen.length = kOpen then
      pushDecided ⟨true, false, []⟩ (lead.drop kOpen.length)
    else (⟨[], buffer⟩, { st with undecided := false, buffer := [] })
  else pushDecided st piece

def flush (st : ReasoningStreamer) : Step × ReasoningStreamer :=
  if st.buffer = [] then (.empty, st)
  else if st.inReasoning = true then (⟨st.buffer, []⟩, { st with buffer := [] })
  else (⟨[], st.buffer⟩, { st with buffer := [] })

/-- One piece more: the deltas so far and the streamer. -/
def feed (sent : Step × ReasoningStreamer) (piece : Bytes) : Step × ReasoningStreamer :=
  let (step, st) := sent.2.push piece
  (sent.1.append step, st)

def run (thinkOpen : Bool) (pieces : List Bytes) : Step × ReasoningStreamer :=
  pieces.foldl feed (.empty, .new thinkOpen)

/-- All deltas of an answer, the last one from `flush`. -/
def stream (thinkOpen : Bool) (pieces : List Bytes) : Step :=
  let (sent, st) := run thinkOpen pieces
  sent.append st.flush.1

end ReasoningStreamer

/-! ## What the stream has sent -/

section Lead

variable {seen : Bytes}

theorem kClose_ne_nil : kClose ≠ [] := by decide

/-- A first byte that is not blank decides: what follows it is not skipped. -/
theorem skipBlank_append (h : skipBlank seen ≠ []) (more : Bytes) :
    skipBlank (seen ++ more) = skipBlank seen ++ more := by
  unfold skipBlank at *
  rw [List.dropWhile_append, if_neg (by simpa using h)]

theorem length_skipBlank_append_le (seen more : Bytes) :
    (skipBlank (seen ++ more)).length ≤ (skipBlank seen).length + more.length := by
  by_cases h : skipBlank seen = []
  · unfold skipBlank at *
    rw [List.dropWhile_append, if_pos (by simpa using h), h]
    simpa using (List.dropWhile_suffix _).length_le
  · rw [skipBlank_append h, List.length_append]

/-- The answer begins with something other than the open tag. -/
theorem thinkBody_none (hlead : skipBlank seen ≠ [])
    (h : ¬(skipBlank seen).take kOpen.length = kOpen.take (skipBlank seen).length) (more : Bytes) :
    thinkBody (seen ++ more) false = none := by
  have hne : (skipBlank seen ++ more).take kOpen.length ≠ kOpen := by
    intro heq
    apply h
    have hlead := congrArg (List.take (skipBlank seen).length) heq
    rwa [List.take_take, Nat.min_comm, ← List.take_take, List.take_left] at hlead
  rw [thinkBody, if_neg (by decide), skipBlank_append hlead, if_pos hne]

/-- The answer begins with the open tag. -/
theorem thinkBody_some (h : (skipBlank seen).take kOpen.length = kOpen) (more : Bytes) :
    thinkBody (seen ++ more) false = some ((skipBlank seen).drop kOpen.length ++ more) := by
  have hlength : kOpen.length ≤ (skipBlank seen).length := by
    rw [← h, List.length_take]
    exact Nat.min_le_right _ _
  have hlead : skipBlank seen ≠ [] := by
    intro hnil
    rw [hnil] at hlength
    exact absurd hlength (by decide)
  rw [thinkBody, if_neg (by decide), skipBlank_append hlead, List.take_append_of_le_length hlength,
    if_neg (not_not_intro h), List.drop_append_of_le_length hlength]

end Lead

open ReasoningStreamer

/-- The deltas sent for some pieces and the streamer after them, by what was seen. -/
inductive Reached (thinkOpen : Bool) (pieces : List Bytes) : Step × ReasoningStreamer → Prop
  /-- The bytes may still become the open tag. -/
  | undecided (hopen : thinkOpen = false)
      (hlead : (skipBlank pieces.flatten).length < kOpen.length) :
      Reached thinkOpen pieces (.empty, ⟨false, true, pieces.flatten⟩)
  /-- There is no think block. -/
  | plain (hbody : ∀ more, thinkBody (pieces.flatten ++ more) thinkOpen = none) :
      Reached thinkOpen pieces (⟨[], pieces.flatten⟩, ⟨false, false, []⟩)
  /-- The block is open; the buffer may still become the close tag. -/
  | inside (reasoning buffer : Bytes)
      (hbody : ∀ more, thinkBody (pieces.flatten ++ more) thinkOpen =
        some (reasoning ++ buffer ++ more))
      (hclear : Clear kClose (reasoning ++ buffer) reasoning.length)
      (hnone : find kClose buffer = none) :
      Reached thinkOpen pieces (⟨reasoning, []⟩, ⟨true, false, buffer⟩)
  /-- The close tag ended in `piece`, before its last bytes `rest`. -/
  | closed (reasoning : Bytes) (before : List Bytes) (piece : Bytes) (after : List Bytes)
      (rest : Bytes) (hpieces : pieces = before ++ piece :: after)
      (hrest : rest <:+ piece) (hshort : rest.length < piece.length)
      (hbody : ∀ more, thinkBody (pieces.flatten ++ more) thinkOpen =
        some (reasoning ++ kClose ++ rest ++ after.flatten ++ more))
      (hclear : Clear kClose (reasoning ++ kClose ++ rest) reasoning.length) :
      Reached thinkOpen pieces
        (⟨reasoning, stripLeadingNewlines rest ++ after.flatten⟩, ⟨false, false, []⟩)

section Pushes

variable {thinkOpen : Bool} {pieces : List Bytes}

theorem flatten_concat (pieces : List Bytes) (piece : Bytes) :
    (pieces ++ [piece]).flatten = pieces.flatten ++ piece := by
  simp

/-- Bytes of the block: they are reasoning up to the close tag, or up to what may
become it. -/
theorem reached_pushDecided {reasoning buffer piece tail : Bytes}
    (hbody : ∀ more, thinkBody ((pieces ++ [piece]).flatten ++ more) thinkOpen =
      some (reasoning ++ buffer ++ tail ++ more))
    (hclear : Clear kClose (reasoning ++ buffer) reasoning.length)
    (hnone : find kClose buffer = none) (htail : tail <:+ piece) :
    Reached thinkOpen (pieces ++ [piece])
      (Step.append ⟨reasoning, []⟩ (pushDecided ⟨true, false, buffer⟩ tail).1,
        (pushDecided ⟨true, false, buffer⟩ tail).2) := by
  unfold pushDecided
  rw [if_neg (by simp)]
  dsimp only
  have hclear' := hclear.append tail
  rw [List.append_assoc] at hclear'
  cases hfind : find kClose (buffer ++ tail) with
  | none =>
      dsimp only
      generalize hsafe : (buffer ++ tail).length - partialStopSuffix (buffer ++ tail) kClose = safe
      have hnew := hclear'.add (clear_partialStopSuffix kClose_ne_nil hfind)
      rw [hsafe] at hnew
      have hsplit : reasoning ++ (buffer ++ tail).take safe ++ (buffer ++ tail).drop safe =
          reasoning ++ buffer ++ tail := by
        rw [List.append_assoc, List.take_append_drop, List.append_assoc]
      have hle : safe ≤ (buffer ++ tail).length := by
        rw [← hsafe]
        exact Nat.sub_le _ _
      have hlength :
          (reasoning ++ (buffer ++ tail).take safe).length = reasoning.length + safe := by
        rw [List.length_append, List.length_take, Nat.min_eq_left hle]
      apply Reached.inside
      · intro more
        rw [hsplit]
        exact hbody more
      · rw [hsplit, hlength, List.append_assoc]
        exact hnew
      · apply find_eq_none_iff.mpr
        intro i hoccurs
        rw [List.drop_drop] at hoccurs
        exact find_eq_none_iff.mp hfind _ hoccurs
  | some close =>
      obtain ⟨hoccurs, -, -⟩ := find_eq_some hfind
      obtain ⟨rest, hsplit⟩ := hoccurs
      have hinside := occurs_le_length kClose_ne_nil ⟨rest, hsplit⟩
      have hrest : (buffer ++ tail).drop (close + kClose.length) = rest := by
        rw [← List.drop_drop, ← hsplit, List.drop_left]
      have hlate : buffer.length < close + kClose.length := by
        by_contra hle
        exact find_eq_none_iff.mp hnone close
          (occurs_of_append ⟨rest, hsplit⟩ (by omega))
      have hlength := congrArg List.length hrest
      rw [List.length_drop, List.length_append] at hlength
      rw [List.length_append] at hinside
      have hwhole : reasoning ++ (buffer ++ tail).take close ++ kClose ++ rest =
          reasoning ++ buffer ++ tail := by
        rw [List.append_assoc _ kClose rest, hsplit, List.append_assoc reasoning,
          List.take_append_drop, List.append_assoc reasoning]
      have hnew := hclear'.add (clear_of_find kClose_ne_nil hfind)
      have hstart : (reasoning ++ (buffer ++ tail).take close).length =
          reasoning.length + close := by
        rw [List.length_append, List.length_take, Nat.min_eq_left]
        rw [List.length_append]
        omega
      have hclosed : Reached thinkOpen (pieces ++ [piece])
          (⟨reasoning ++ (buffer ++ tail).take close, stripLeadingNewlines rest ++ [].flatten⟩,
            ⟨false, false, []⟩) := by
        have hsuffix : rest <:+ tail :=
          List.suffix_of_suffix_length_le (hrest ▸ List.drop_suffix _ _)
            (List.suffix_append buffer tail) (by omega)
        have hlong := htail.length_le
        refine Reached.closed _ pieces piece [] rest rfl (hsuffix.trans htail) (by omega) ?_ ?_
        · intro more
          rw [hwhole, List.flatten_nil, List.append_nil]
          exact hbody more
        · rw [hwhole, hstart, List.append_assoc]
          exact hnew
      dsimp only
      rw [hrest]
      rw [List.flatten_nil, List.append_nil] at hclosed
      exact hclosed

/-- One push keeps the account of what was sent. -/
theorem reached_feed {sent : Step × ReasoningStreamer} (h : Reached thinkOpen pieces sent)
    (piece : Bytes) : Reached thinkOpen (pieces ++ [piece]) (feed sent piece) := by
  cases h with
  | undecided hopen hlead =>
      subst hopen
      have hbuffer := flatten_concat pieces piece
      unfold feed push
      rw [if_pos rfl]
      dsimp only
      rw [← hbuffer]
      split
      next hshort =>
        split
        next => exact Reached.undecided rfl hshort
        next hdiffers =>
          apply Reached.plain
          refine thinkBody_none ?_ ?_
          · intro hnil
            exact hdiffers (by rw [hnil]; rfl)
          · rw [List.take_of_length_le (by omega)]
            exact fun heq => hdiffers heq.symm
      next hlong =>
        split
        next htag =>
          have hle := length_skipBlank_append_le pieces.flatten piece
          rw [← hbuffer] at hle
          have hbody : ∀ more, thinkBody ((pieces ++ [piece]).flatten ++ more) false =
              some
                ([] ++ [] ++ (skipBlank (pieces ++ [piece]).flatten).drop kOpen.length ++ more) :=
            thinkBody_some htag
          refine reached_pushDecided hbody clear_zero (by decide) ?_
          have hlead' : skipBlank (pieces ++ [piece]).flatten <:+ (pieces ++ [piece]).flatten :=
            List.dropWhile_suffix _
          apply List.suffix_of_suffix_length_le ((List.drop_suffix _ _).trans hlead')
            (hbuffer ▸ List.suffix_append _ piece)
          rw [List.length_drop]
          omega
        next htag =>
          apply Reached.plain
          refine thinkBody_none ?_ ?_
          · intro hnil
            exact hlong (by rw [hnil]; decide)
          · rw [List.take_of_length_le (l := kOpen) (by omega)]
            exact htag
  | plain hbody =>
      have hplain : Reached thinkOpen (pieces ++ [piece])
          (⟨[], (pieces ++ [piece]).flatten⟩, ⟨false, false, []⟩) := by
        apply Reached.plain
        intro more
        rw [flatten_concat, List.append_assoc]
        exact hbody (piece ++ more)
      rw [flatten_concat] at hplain
      exact hplain
  | inside reasoning buffer hbody hclear hnone =>
      refine reached_pushDecided ?_ hclear hnone (List.suffix_refl _)
      intro more
      rw [flatten_concat, List.append_assoc, hbody, List.append_assoc _ piece]
  | closed reasoning before last after rest hpieces hrest hshort hbody hclear =>
      have hclosed : Reached thinkOpen (pieces ++ [piece])
          (⟨reasoning, stripLeadingNewlines rest ++ (after ++ [piece]).flatten⟩,
            ⟨false, false, []⟩) := by
        refine Reached.closed reasoning before last (after ++ [piece]) rest ?_ hrest hshort ?_
          hclear
        · rw [hpieces, List.append_assoc, List.cons_append]
        · intro more
          rw [flatten_concat, flatten_concat, List.append_assoc, hbody]
          simp only [List.append_assoc]
      rw [flatten_concat, ← List.append_assoc] at hclosed
      simpa [feed, push, pushDecided, Step.append] using hclosed

theorem reached_run (thinkOpen : Bool) (pieces : List Bytes) :
    Reached thinkOpen pieces (run thinkOpen pieces) := by
  induction pieces using List.reverseRecOn with
  | nil =>
      cases thinkOpen with
      | false => exact Reached.undecided rfl (by decide)
      | true => exact Reached.inside [] [] (fun more => rfl) clear_zero (by decide)
  | append_singleton pieces piece ih =>
      rw [run, List.foldl_append]
      exact reached_feed ih piece

end Pushes

/-! ## Both forms agree -/

section Strip

theorem stripLeadingNewlines_append_eq_iff (a b : Bytes) :
    stripLeadingNewlines a ++ b = stripLeadingNewlines (a ++ b) ↔
      ((∀ x ∈ a, x = newline) → b.head? ≠ some newline) := by
  unfold stripLeadingNewlines
  rw [List.dropWhile_append]
  by_cases hall : ∀ x ∈ a, x = newline
  · have hnil : a.dropWhile (· == newline) = [] := by simpa using hall
    rw [imp_iff_right hall, hnil, List.isEmpty_nil, if_pos rfl, List.nil_append, eq_comm,
      List.dropWhile_eq_self_iff]
    cases b with
    | nil => simp
    | cons x b => simp
  · have hne : (a.dropWhile (· == newline)).isEmpty = false := by simpa using hall
    simp [hne, hall]

theorem stripEdgeNewlines_idem (s : Bytes) :
    stripEdgeNewlines (stripEdgeNewlines s) = stripEdgeNewlines s := by
  have hlead : stripLeadingNewlines (stripEdgeNewlines s) = stripEdgeNewlines s := by
    unfold stripLeadingNewlines
    rw [List.dropWhile_eq_self_iff]
    intro hlength hfirst
    -- the first byte that stays is the first byte after the leading newlines
    have hbegins : stripEdgeNewlines s <+: stripLeadingNewlines s := List.rdropWhile_prefix _ _
    have hget := hbegins.getElem hlength
    have hlong := hlength.trans_le hbegins.length_le
    have hkept := List.dropWhile_get_zero_not (fun b => b == newline) s hlong
    rw [List.get_eq_getElem] at hkept
    rw [hget] at hfirst
    exact hkept hfirst
  unfold stripEdgeNewlines at hlead ⊢
  rw [hlead]
  exact List.rdropWhile_idempotent _ _

end Strip

section Agreement

variable (thinkOpen : Bool) (pieces : List Bytes)

/-- The streaming form says what the batch form says, the reasoning up to its
leading and trailing newlines. -/
def StreamAgrees : Prop :=
  (stream thinkOpen pieces).content = (splitReasoning pieces.flatten thinkOpen).content ∧
    stripEdgeNewlines (stream thinkOpen pieces).reasoning =
      stripEdgeNewlines (splitReasoning pieces.flatten thinkOpen).reasoning

/-- Where the text after the close tag begins. -/
def closeEnd (raw : Bytes) (thinkOpen : Bool) : Option Nat :=
  (thinkBody raw thinkOpen).bind fun body =>
    (find kClose body).map fun close => raw.length - (body.drop (close + kClose.length)).length

/-- No piece ends right before a newline of those that follow the close tag. -/
def CutsOutsideNewlines : Prop :=
  ∀ e, closeEnd pieces.flatten thinkOpen = some e →
    ∀ front back, pieces = front ++ back → e ≤ front.flatten.length →
      (∀ b ∈ front.flatten.drop e, b = newline) → back.flatten.head? ≠ some newline

variable {thinkOpen pieces}

theorem cutsOutsideNewlines_of_none (h : closeEnd pieces.flatten thinkOpen = none) :
    CutsOutsideNewlines thinkOpen pieces := by
  intro e he
  rw [h] at he
  cases he

/-- An answer whose think block closes in the piece `head ++ rest`, after `head`. -/
theorem cutsOutsideNewlines_iff_of_closed {before after : List Bytes} {head rest : Bytes}
    (hpieces : pieces = before ++ (head ++ rest) :: after) (hhead : head ≠ [])
    (hend : closeEnd pieces.flatten thinkOpen = some (before.flatten ++ head).length) :
    CutsOutsideNewlines thinkOpen pieces ↔
      ((∀ b ∈ rest, b = newline) → after.flatten.head? ≠ some newline) := by
  have hpos := List.length_pos_iff.mpr hhead
  constructor
  · intro hcuts hall
    refine hcuts _ hend (before ++ [head ++ rest]) after (by simp [hpieces]) (by simp) ?_
    have hdrop :
        (before ++ [head ++ rest]).flatten.drop (before.flatten ++ head).length = rest := by
      rw [flatten_concat, ← List.append_assoc, List.drop_left]
    rwa [hdrop]
  · intro hnot e he front back hsplit hle hall hback
    rw [hend] at he
    cases he
    rw [hpieces] at hsplit
    rw [List.length_append] at hle
    -- the piece with the close tag is in front of the cut
    rcases List.append_eq_append_iff.mp hsplit with ⟨x, hfront, hx⟩ | ⟨x, hbefore, -⟩
    · cases x with
      | nil =>
          rw [hfront, List.append_nil] at hle
          omega
      | cons found x =>
          obtain ⟨rfl, hafter⟩ := List.cons.inj hx
          rw [List.append_eq] at hafter
          have hdrop : front.flatten.drop (before.flatten ++ head).length = rest ++ x.flatten := by
            rw [hfront, List.flatten_append, List.flatten_cons, ← List.append_assoc,
              ← List.append_assoc, List.append_assoc _ rest, List.drop_left]
          rw [hdrop] at hall
          apply hnot fun b hb => hall b (List.mem_append_left _ hb)
          rw [hafter, List.flatten_append]
          cases hnext : x.flatten with
          | nil => simpa [hnext] using hback
          | cons b more =>
              have hb : b = newline := hall b (by simp [hnext])
              simp [hb]
    · rw [hbefore, List.flatten_append, List.length_append] at hle
      omega

/-! The batch form, by how far the block gets. -/

variable {raw : Bytes}

/-- Too few bytes to be the open tag. -/
theorem thinkBody_of_lead (hlead : (skipBlank raw).length < kOpen.length) :
    thinkBody raw false = none := by
  rw [thinkBody, if_neg (by decide), if_pos]
  intro heq
  have hlength := congrArg List.length heq
  rw [List.length_take] at hlength
  omega

/-- The first close tag of a block is where the block is clear of it up to. -/
theorem find_close_of_clear {reasoning rest : Bytes}
    (hclear : Clear kClose (reasoning ++ kClose ++ rest) reasoning.length) (more : Bytes) :
    find kClose (reasoning ++ kClose ++ (rest ++ more)) = some reasoning.length := by
  rw [← List.append_assoc]
  apply find_of_first
  · rw [List.append_assoc, List.append_assoc, List.drop_left]
    exact List.prefix_append _ _
  · intro j hj hoccurs
    exact absurd (hclear more j hoccurs) (by omega)

theorem split_of_no_body (hbody : thinkBody raw thinkOpen = none) :
    splitReasoning raw thinkOpen = ⟨[], raw, false⟩ ∧ closeEnd raw thinkOpen = none := by
  simp [splitReasoning, closeEnd, hbody]

theorem split_of_unclosed {body : Bytes} (hbody : thinkBody raw thinkOpen = some body)
    (hfind : find kClose body = none) :
    splitReasoning raw thinkOpen = ⟨stripEdgeNewlines body, [], false⟩ ∧
      closeEnd raw thinkOpen = none := by
  simp [splitReasoning, closeEnd, hbody, hfind]

theorem split_of_closed {reasoning tail : Bytes}
    (hbody : thinkBody raw thinkOpen = some (reasoning ++ kClose ++ tail))
    (hfind : find kClose (reasoning ++ kClose ++ tail) = some reasoning.length) :
    splitReasoning raw thinkOpen =
        ⟨stripEdgeNewlines reasoning, stripLeadingNewlines tail, true⟩ ∧
      closeEnd raw thinkOpen = some (raw.length - tail.length) := by
  have htake : (reasoning ++ kClose ++ tail).take reasoning.length = reasoning := by
    rw [List.append_assoc, List.take_left]
  have hdrop : (reasoning ++ kClose ++ tail).drop (reasoning.length + kClose.length) = tail := by
    rw [← List.length_append, List.drop_left]
  simp only [splitReasoning, closeEnd, hbody, hfind, htake, hdrop, Option.bind_some,
    Option.map_some, and_self]

/-- The stream agrees with the batch split exactly when no piece ends inside the
newlines after the close tag. -/
theorem stream_agrees_iff (thinkOpen : Bool) (pieces : List Bytes) :
    StreamAgrees thinkOpen pieces ↔ CutsOutsideNewlines thinkOpen pieces := by
  have hreached := reached_run thinkOpen pieces
  have hstream : stream thinkOpen pieces =
      (run thinkOpen pieces).1.append (run thinkOpen pieces).2.flush.1 := rfl
  generalize run thinkOpen pieces = sent at hreached hstream
  unfold StreamAgrees
  rw [hstream]
  cases hreached with
  | undecided hopen hlead =>
      obtain ⟨hsplit, hend⟩ := split_of_no_body (hopen ▸ thinkBody_of_lead hlead)
      simp only [cutsOutsideNewlines_of_none hend, iff_true, hsplit, flush]
      split
      next hnil => simp [Step.append, Step.empty, hnil]
      next => simp [Step.append, Step.empty]
  | plain hbody =>
      have hbody := hbody []
      rw [List.append_nil] at hbody
      obtain ⟨hsplit, hend⟩ := split_of_no_body hbody
      simp [cutsOutsideNewlines_of_none hend, hsplit, flush, Step.append, Step.empty]
  | inside reasoning buffer hbody hclear hnone =>
      have hbody := hbody []
      rw [List.append_nil, List.append_nil] at hbody
      have hfind : find kClose (reasoning ++ buffer) = none := by
        have := hclear.find_append []
        rwa [List.append_nil, List.append_nil, hnone] at this
      obtain ⟨hsplit, hend⟩ := split_of_unclosed hbody hfind
      simp only [cutsOutsideNewlines_of_none hend, iff_true, hsplit, flush,
        stripEdgeNewlines_idem]
      split
      next hnil => simp [Step.append, Step.empty, hnil]
      next => simp [Step.append]
  | closed reasoning before piece after rest hpieces hrest hshort hbody hclear =>
      obtain ⟨head, rfl⟩ := hrest
      have hbody := hbody []
      rw [List.append_nil, List.append_nil, List.append_assoc] at hbody
      obtain ⟨hsplit, hclose⟩ := split_of_closed hbody (find_close_of_clear hclear after.flatten)
      -- what is left after the tag is the end of its piece and the pieces after it
      have hend : closeEnd pieces.flatten thinkOpen = some (before.flatten ++ head).length := by
        rw [hclose, hpieces]
        simp
        omega
      have hhead : head ≠ [] := by
        rintro rfl
        simp at hshort
      rw [cutsOutsideNewlines_iff_of_closed hpieces hhead hend]
      simp only [hsplit, flush, if_true, Step.append, Step.empty, List.append_nil,
        stripEdgeNewlines_idem, and_true]
      exact stripLeadingNewlines_append_eq_iff rest after.flatten

/-- The newlines after the close tag come in a piece of their own. -/
theorem stream_disagrees_newline_piece :
    ¬StreamAgrees true [bytes "plan</think>", bytes "\n\nanswer"] := by
  unfold StreamAgrees
  decide

end Agreement

end Arcint.Text
