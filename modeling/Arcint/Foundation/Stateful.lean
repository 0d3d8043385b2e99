import Arcint.Foundation.Scan
import Mathlib.Data.List.Forall2

/-! # Graphs with variables

A graph keeps variables from one forward to the next: a forward answers the rows it is given and
assigns the variables anew. Graphs stand behind one another, and a graph may be a part of another
that takes something of each row and joins the answer to it. A graph that goes through its rows one
after the other does not notice how a sequence is cut into forwards.
-/

namespace Arcint.Foundation

variable {α β γ δ σ τ : Type*}

/-! ## Rules behind and inside one another -/

/-- The second rule takes the answer of the first. -/
def behind (first : σ → α → σ × β) (second : τ → β → τ × γ) (state : σ × τ) (row : α) :
    (σ × τ) × γ :=
  let here := first state.1 row
  let out := second state.2 here.2
  ((here.1, out.1), out.2)

theorem scan_behind (first : σ → α → σ × β) (second : τ → β → τ × γ) (state : σ × τ)
    (rows : List α) :
    scan (behind first second) state rows =
      let here := scan first state.1 rows
      let out := scan second state.2 here.1
      (out.1, (here.2, out.2)) := by
  induction rows generalizing state with
  | nil => rfl
  | cons row rows ih =>
      rw [scan_cons, ih]
      rfl

/-- The rule takes a part of the row, and its answer is joined to the row. -/
def inside (part : α → β) (rule : σ → β → σ × γ) (join : α → γ → δ) (state : σ) (row : α) : σ × δ :=
  let out := rule state (part row)
  (out.1, join row out.2)

theorem scan_inside (part : α → β) (rule : σ → β → σ × γ) (join : α → γ → δ) (state : σ)
    (rows : List α) :
    scan (inside part rule join) state rows =
      let out := scan rule state (rows.map part)
      (List.zipWith join rows out.1, out.2) := by
  induction rows generalizing state with
  | nil => rfl
  | cons row rows ih =>
      rw [scan_cons, ih]
      rfl

/-! ## Blocks whose answers are collected -/

/-- A loop over blocks, each of which takes its rows by the rule. -/
theorem foldl_blocks {rule : σ → α → σ × β} {width : ℕ} {step : σ → List α → σ × List β}
    (hstep : ∀ state rows, rows.length = width →
      step state rows = ((scan rule state rows).2, (scan rule state rows).1))
    (state : σ) {input : List α} {n : ℕ} (hn : n * width ≤ input.length) :
    (List.range n).foldl (fun carry i =>
        let next := step carry.1 (slice input (i * width) width)
        (next.1, carry.2 ++ next.2)) (state, []) =
      ((scan rule state (input.take (n * width))).2,
        (scan rule state (input.take (n * width))).1) := by
  induction n with
  | zero => simp
  | succ n ih =>
      rw [Nat.succ_mul] at hn ⊢
      have hblock : (slice input (n * width) width).length = width := by
        rw [slice, List.length_take, List.length_drop]
        omega
      rw [List.range_succ, List.foldl_concat, ih (by omega), List.take_add, scan_append]
      dsimp only
      rw [hstep _ _ hblock]
      rfl

/-! ## Graphs -/

/-- What a forward answers to its rows, and what it leaves in the variables. -/
structure Stateful (α β : Type*) where
  Var : Type
  init : Var
  forward : Var → List α → List β × Var

namespace Stateful

/-! ### Building -/

/-- The rows of a forward together; nothing is kept. -/
def ofForward (f : List α → List β) : Stateful α β := ⟨Unit, (), fun _ rows => (f rows, ())⟩

/-- Each row by itself. -/
def ofRow (f : α → β) : Stateful α β := ofForward (List.map f)

def andThen (f : Stateful α β) (g : Stateful β γ) : Stateful α γ where
  Var := f.Var × g.Var
  init := (f.init, g.init)
  forward var rows :=
    let here := f.forward var.1 rows
    let out := g.forward var.2 here.1
    (out.1, (here.2, out.2))

/-- A part of a graph, and how its answers come back to the rows. -/
def within (part : α → β) (g : Stateful β γ) (join : α → γ → δ) : Stateful α δ where
  Var := g.Var
  init := g.init
  forward var rows :=
    let out := g.forward var (rows.map part)
    (List.zipWith join rows out.1, out.2)

def stack : List (Stateful α α) → Stateful α α
  | [] => ofRow id
  | g :: layers => g.andThen (stack layers)

/-- Forward after forward. -/
def serve (g : Stateful α β) : g.Var → List (List α) → List β × g.Var
  | var, [] => ([], var)
  | var, rows :: forwards =>
      let here := g.forward var rows
      let rest := g.serve here.2 forwards
      (here.1 ++ rest.1, rest.2)

/-- The answers from the first forward on. -/
def answers (g : Stateful α β) (forwards : List (List α)) : List β := (g.serve g.init forwards).1

/-- One forward over all rows. -/
def once (g : Stateful α β) (rows : List α) : List β := (g.forward g.init rows).1

@[simp] theorem once_ofForward (f : List α → List β) (rows : List α) :
    (ofForward f).once rows = f rows := rfl

@[simp] theorem once_ofRow (f : α → β) (rows : List α) : (ofRow f).once rows = rows.map f := rfl

@[simp] theorem once_andThen (f : Stateful α β) (g : Stateful β γ) (rows : List α) :
    (f.andThen g).once rows = g.once (f.once rows) := rfl

@[simp] theorem once_within (part : α → β) (g : Stateful β γ) (join : α → γ → δ) (rows : List α) :
    (g.within part join).once rows = List.zipWith join rows (g.once (rows.map part)) := rfl

/-! ### Lengths -/

/-- As many answers as rows. -/
def KeepsLength (g : Stateful α β) : Prop := ∀ var rows, (g.forward var rows).1.length = rows.length

theorem keepsLength_ofRow (f : α → β) : (ofRow f).KeepsLength := fun _ _ => List.length_map f

theorem KeepsLength.andThen {f : Stateful α β} {g : Stateful β γ} (hf : f.KeepsLength)
    (hg : g.KeepsLength) : (f.andThen g).KeepsLength :=
  fun var rows => (hg var.2 _).trans (hf var.1 rows)

theorem KeepsLength.within {part : α → β} {g : Stateful β γ} {join : α → γ → δ}
    (hg : g.KeepsLength) : (g.within part join).KeepsLength := by
  intro var rows
  have hpart := hg var (rows.map part)
  rw [List.length_map] at hpart
  change (List.zipWith join rows _).length = _
  rw [List.length_zipWith, hpart, Nat.min_self]

theorem keepsLength_stack {layers : List (Stateful α α)} (hlayers : ∀ g ∈ layers, g.KeepsLength) :
    (stack layers).KeepsLength := by
  induction layers with
  | nil => exact keepsLength_ofRow id
  | cons g layers ih =>
      obtain ⟨hg, hrest⟩ := List.forall_mem_cons.mp hlayers
      exact hg.andThen (ih hrest)

@[simp] theorem answers_single (g : Stateful α β) (rows : List α) :
    g.answers [rows] = g.once rows := List.append_nil _

theorem answers_of_single {g : Stateful α β} (hg : g.KeepsLength) {forwards : List (List α)}
    (hsingle : forwards.length ≤ 1) : g.answers forwards = g.once forwards.flatten := by
  match forwards, hsingle with
  | [], _ => exact (List.length_eq_zero_iff.mp (hg g.init [])).symm
  | [rows], _ => rw [answers_single, List.flatten_singleton]

/-! ### Row by row -/

/-- The graph that goes through its rows by a rule. -/
def ofRule {σ : Type} (init : σ) (rule : σ → α → σ × β) : Stateful α β := ⟨σ, init, scan rule⟩

/-- A forward takes its rows one after the other. -/
def RowByRow (g : Stateful α β) : Prop :=
  ∃ (σ : Type) (init : σ) (rule : σ → α → σ × β), g = ofRule init rule

theorem rowByRow_of_cons {g : Stateful α β} (answer : g.Var → α → β) (next : g.Var → α → g.Var)
    (hnil : ∀ var, g.forward var [] = ([], var))
    (hcons : ∀ var row rows, g.forward var (row :: rows) =
      (answer var row :: (g.forward (next var row) rows).1, (g.forward (next var row) rows).2)) :
    g.RowByRow := by
  obtain ⟨σ, init, forward⟩ := g
  refine ⟨σ, init, fun var row => (next var row, answer var row), ?_⟩
  unfold ofRule
  congr 1
  funext var rows
  induction rows generalizing var with
  | nil => exact hnil var
  | cons row rows ih =>
      rw [scan_cons, ← ih]
      exact hcons var row rows

theorem rowByRow_ofRow (f : α → β) : (ofRow f).RowByRow :=
  rowByRow_of_cons (fun _ row => f row) (fun var _ => var) (fun _ => rfl) fun _ _ _ => rfl

theorem RowByRow.andThen {f : Stateful α β} {g : Stateful β γ} (hf : f.RowByRow)
    (hg : g.RowByRow) : (f.andThen g).RowByRow := by
  obtain ⟨σ, init, first, rfl⟩ := hf
  obtain ⟨τ, init', second, rfl⟩ := hg
  refine ⟨σ × τ, (init, init'), behind first second, ?_⟩
  unfold Stateful.andThen ofRule
  congr 1
  funext state rows
  exact (scan_behind first second state rows).symm

theorem RowByRow.within {part : α → β} {g : Stateful β γ} {join : α → γ → δ} (hg : g.RowByRow) :
    (g.within part join).RowByRow := by
  obtain ⟨σ, init, rule, rfl⟩ := hg
  refine ⟨σ, init, inside part rule join, ?_⟩
  unfold Stateful.within ofRule
  congr 1
  funext state rows
  exact (scan_inside part rule join state rows).symm

theorem rowByRow_stack {layers : List (Stateful α α)} (hlayers : ∀ g ∈ layers, g.RowByRow) :
    (stack layers).RowByRow := by
  induction layers with
  | nil => exact rowByRow_ofRow id
  | cons g layers ih =>
      obtain ⟨hg, hrest⟩ := List.forall_mem_cons.mp hlayers
      exact hg.andThen (ih hrest)

theorem RowByRow.keepsLength {g : Stateful α β} (hg : g.RowByRow) : g.KeepsLength := by
  obtain ⟨σ, init, rule, rfl⟩ := hg
  exact length_scan

/-- The cuts do not matter. -/
theorem RowByRow.serve_eq {g : Stateful α β} (hg : g.RowByRow) (var : g.Var)
    (forwards : List (List α)) : g.serve var forwards = g.forward var forwards.flatten := by
  obtain ⟨σ, init, rule, rfl⟩ := hg
  induction forwards generalizing var with
  | nil => rfl
  | cons rows forwards ih =>
      rw [List.flatten_cons, serve, ih]
      exact (scan_append var rows forwards.flatten).symm

/-- A graph that is given one row a forward. -/
theorem serve_singletons {g : Stateful α β} {rule : g.Var → α → g.Var × β}
    (hforward : ∀ var row, g.forward var [row] = ([(rule var row).2], (rule var row).1))
    (var : g.Var) (rows : List α) : g.serve var (rows.map ([·])) = scan rule var rows := by
  induction rows generalizing var with
  | nil => rfl
  | cons row rows ih =>
      rw [List.map_cons, serve, hforward, ih, scan_cons]
      rfl

theorem RowByRow.answers_eq {g : Stateful α β} (hg : g.RowByRow) (forwards : List (List α)) :
    g.answers forwards = g.once forwards.flatten := by
  unfold answers once
  rw [hg.serve_eq]

/-! ### No row reads a later one -/

/-- In one forward. -/
def Causal (g : Stateful α β) : Prop :=
  ∀ rows rows', rows <+: rows' → g.once rows <+: g.once rows'

theorem RowByRow.causal {g : Stateful α β} (hg : g.RowByRow) : g.Causal := by
  obtain ⟨σ, init, rule, rfl⟩ := hg
  rintro rows _ ⟨rest, rfl⟩
  exact ⟨_, (congrArg Prod.fst (scan_append init rows rest)).symm⟩

theorem Causal.andThen {f : Stateful α β} {g : Stateful β γ} (hf : f.Causal) (hg : g.Causal) :
    (f.andThen g).Causal :=
  fun rows rows' hbegins => hg _ _ (hf rows rows' hbegins)

theorem Causal.within {part : α → β} {g : Stateful β γ} {join : α → γ → δ} (hg : g.Causal) :
    (g.within part join).Causal := by
  intro rows rows' hbegins
  have houts := hg _ _ (hbegins.map part)
  rw [once_within, once_within, List.prefix_iff_getElem?]
  intro i hi
  rw [List.length_zipWith] at hi
  rw [List.getElem?_zipWith, List.prefix_iff_getElem?.mp hbegins i (by omega),
    List.prefix_iff_getElem?.mp houts i (by omega), List.getElem_zipWith]

theorem causal_stack {layers : List (Stateful α α)} (hlayers : ∀ g ∈ layers, g.Causal) :
    (stack layers).Causal := by
  induction layers with
  | nil => exact (rowByRow_ofRow id).causal
  | cons g layers ih =>
      obtain ⟨hg, hrest⟩ := List.forall_mem_cons.mp hlayers
      exact hg.andThen (ih hrest)

/-! ### Graphs over other rows -/

/-- One forward takes related rows to related answers. -/
def Related {α' β' : Type*} (R : α → α' → Prop) (S : β → β' → Prop) (f : Stateful α β)
    (g : Stateful α' β') : Prop :=
  ∀ rows rows', List.Forall₂ R rows rows' → List.Forall₂ S (f.once rows) (g.once rows')

section Related

variable {α' β' γ' δ' : Type*} {R : α → α' → Prop} {S : β → β' → Prop} {T : γ → γ' → Prop}
  {U : δ → δ' → Prop}

theorem related_of_once {f g : Stateful α β} (h : ∀ rows, f.once rows = g.once rows) :
    Related Eq Eq f g := by
  intro rows rows' hrows
  rw [List.forall₂_eq_eq_eq] at hrows ⊢
  rw [h, hrows]

theorem related_ofRow {f : α → β} {g : α' → β'} (h : ∀ a a', R a a' → S (f a) (g a')) :
    Related R S (ofRow f) (ofRow g) := by
  intro rows rows' hrows
  rw [once_ofRow, once_ofRow, List.forall₂_map_left_iff, List.forall₂_map_right_iff]
  exact hrows.imp h

theorem Related.andThen {f : Stateful α β} {f' : Stateful α' β'} {g : Stateful β γ}
    {g' : Stateful β' γ'} (hf : Related R S f f') (hg : Related S T g g') :
    Related R T (f.andThen g) (f'.andThen g') :=
  fun rows rows' hrows => hg _ _ (hf rows rows' hrows)

theorem Related.within {part : α → β} {part' : α' → β'} {f : Stateful β γ} {f' : Stateful β' γ'}
    {join : α → γ → δ} {join' : α' → γ' → δ'} (hf : Related S T f f')
    (hpart : ∀ a a', R a a' → S (part a) (part' a'))
    (hjoin : ∀ a a' c c', R a a' → T c c' → U (join a c) (join' a' c')) :
    Related R U (f.within part join) (f'.within part' join') := by
  intro rows rows' hrows
  have houts := hf _ _ (related_ofRow hpart _ _ hrows)
  rw [once_within, once_within]
  rw [once_ofRow, once_ofRow] at houts
  generalize f.once (rows.map part) = outs at houts ⊢
  generalize f'.once (rows'.map part') = outs' at houts ⊢
  induction hrows generalizing outs outs' with
  | nil => simp
  | cons hrow _ ih =>
      cases houts with
      | nil => simp
      | cons hout hrest => exact .cons (hjoin _ _ _ _ hrow hout) (ih _ _ hrest)

theorem related_stack {ι : Type*} {l : List ι} {f : ι → Stateful α α} {g : ι → Stateful α' α'}
    (h : ∀ i ∈ l, Related R R (f i) (g i)) :
    Related R R (stack (l.map f)) (stack (l.map g)) := by
  induction l with
  | nil => exact related_ofRow fun _ _ h => h
  | cons i l ih =>
      obtain ⟨hi, hrest⟩ := List.forall_mem_cons.mp h
      exact hi.andThen (ih hrest)

end Related

/-! ### Graphs that answer alike -/

/-- Two graphs whose variables can be told apart by no answer to forwards of fitting lengths. -/
def SameOn (fits : ℕ → Prop) (f g : Stateful α β) : Prop :=
  ∃ related : f.Var → g.Var → Prop, related f.init g.init ∧
    ∀ {v w}, related v w → ∀ {rows}, fits rows.length →
      (f.forward v rows).1 = (g.forward w rows).1 ∧
        related (f.forward v rows).2 (g.forward w rows).2

/-- Whatever the forwards. -/
abbrev SameAs (f g : Stateful α β) : Prop := SameOn (fun _ => True) f g

section Same

variable {fits : ℕ → Prop}

theorem SameOn.refl (f : Stateful α β) : SameOn fits f f :=
  ⟨Eq, rfl, by rintro v _ rfl rows _; exact ⟨rfl, rfl⟩⟩

theorem SameOn.symm {f g : Stateful α β} (h : SameOn fits f g) : SameOn fits g f := by
  obtain ⟨related, hinit, hforward⟩ := h
  refine ⟨fun w v => related v w, hinit, fun hvw _ hfits => ?_⟩
  obtain ⟨hanswers, hvar⟩ := hforward hvw hfits
  exact ⟨hanswers.symm, hvar⟩

theorem SameOn.trans {f g k : Stateful α β} (hfg : SameOn fits f g) (hgk : SameOn fits g k) :
    SameOn fits f k := by
  obtain ⟨first, hfirst, hforward⟩ := hfg
  obtain ⟨second, hsecond, hforward'⟩ := hgk
  refine ⟨fun v u => ∃ w, first v w ∧ second w u, ⟨g.init, hfirst, hsecond⟩, ?_⟩
  rintro v u ⟨w, hvw, hwu⟩ rows hfits
  obtain ⟨hanswers, hvar⟩ := hforward hvw hfits
  obtain ⟨hanswers', hvar'⟩ := hforward' hwu hfits
  exact ⟨hanswers.trans hanswers', _, hvar, hvar'⟩

theorem SameOn.andThen {f f' : Stateful α β} {g g' : Stateful β γ} (hf : SameOn fits f f')
    (hlength : f.KeepsLength) (hg : SameOn fits g g') :
    SameOn fits (f.andThen g) (f'.andThen g') := by
  obtain ⟨first, hfirst, hforward⟩ := hf
  obtain ⟨second, hsecond, hforward'⟩ := hg
  refine ⟨fun v w => first v.1 w.1 ∧ second v.2 w.2, ⟨hfirst, hsecond⟩, ?_⟩
  rintro v w ⟨hvw, hvw'⟩ rows hfits
  obtain ⟨hanswers, hvar⟩ := hforward hvw hfits
  obtain ⟨hanswers', hvar'⟩ := @hforward' _ _ hvw' (f.forward v.1 rows).1 (by rwa [hlength])
  simp only [Stateful.andThen, ← hanswers]
  exact ⟨hanswers', hvar, hvar'⟩

/-- Layers may be bracketed as one likes. -/
theorem andThen_assoc (f : Stateful α β) (g : Stateful β γ) (k : Stateful γ δ) :
    SameAs ((f.andThen g).andThen k) (f.andThen (g.andThen k)) :=
  ⟨fun v w => w = (v.1.1, v.1.2, v.2), rfl, by rintro v _ rfl rows _; exact ⟨rfl, rfl⟩⟩

theorem id_andThen (g : Stateful α β) : SameAs ((ofRow id).andThen g) g := by
  refine ⟨fun v w => w = v.2, rfl, ?_⟩
  rintro v _ rfl rows _
  simp [Stateful.andThen, ofRow, ofForward]

theorem stack_append {layers rest : List (Stateful α α)}
    (hlayers : ∀ g ∈ layers, g.KeepsLength) :
    SameAs (stack (layers ++ rest)) ((stack layers).andThen (stack rest)) := by
  induction layers with
  | nil => exact (id_andThen (stack rest)).symm
  | cons g layers ih =>
      obtain ⟨hg, hrest⟩ := List.forall_mem_cons.mp hlayers
      exact ((SameOn.refl g).andThen hg (ih hrest)).trans (andThen_assoc g _ _).symm

theorem SameOn.ofForward {f g : List α → List β} (h : ∀ rows, fits rows.length → f rows = g rows) :
    SameOn fits (ofForward f) (ofForward g) :=
  ⟨fun _ _ => True, trivial, fun _ _ hfits => ⟨h _ hfits, trivial⟩⟩

theorem SameOn.within {part : α → β} {f g : Stateful β γ} {join : α → γ → δ}
    (h : SameOn fits f g) : SameOn fits (f.within part join) (g.within part join) := by
  obtain ⟨related, hinit, hforward⟩ := h
  refine ⟨related, hinit, fun hvw rows hfits => ?_⟩
  obtain ⟨hanswers, hvar⟩ := @hforward _ _ hvw (rows.map part) (by rwa [List.length_map])
  exact ⟨congrArg (List.zipWith join rows) hanswers, hvar⟩

theorem SameOn.stack_map {ι : Type*} {l : List ι} {f g : ι → Stateful α α}
    (h : ∀ i ∈ l, SameOn fits (f i) (g i)) (hlength : ∀ i ∈ l, (f i).KeepsLength) :
    SameOn fits (stack (l.map f)) (stack (l.map g)) := by
  induction l with
  | nil => exact SameOn.refl _
  | cons i l ih =>
      obtain ⟨hi, hrest⟩ := List.forall_mem_cons.mp h
      obtain ⟨hkeeps, hlengths⟩ := List.forall_mem_cons.mp hlength
      exact hi.andThen hkeeps (ih hrest hlengths)

/-- Graphs that answer alike answer alike forward after forward. -/
theorem SameOn.answers_eq {f g : Stateful α β} (h : SameOn fits f g) {forwards : List (List α)}
    (hfits : ∀ rows ∈ forwards, fits rows.length) : f.answers forwards = g.answers forwards := by
  obtain ⟨related, hinit, hforward⟩ := h
  have hserve : ∀ v w, related v w → (f.serve v forwards).1 = (g.serve w forwards).1 := by
    induction forwards with
    | nil => exact fun _ _ _ => rfl
    | cons rows forwards ih =>
        obtain ⟨hrows, hrest⟩ := List.forall_mem_cons.mp hfits
        intro v w hvw
        obtain ⟨hanswers, hvar⟩ := hforward hvw hrows
        exact congrArg₂ _ hanswers (ih hrest _ _ hvar)
  exact hserve _ _ hinit

end Same

end Stateful

end Arcint.Foundation
