import Arcint.Foundation.Worklist

/-! # The nodes of the rotary embedding

The search for the nodes that have to stay in single precision. It marks, each once, exactly what
belongs to an angle that a parameter is multiplied to and that a cosine or sine is taken of: the
way there, the angle, the way on, the cosines and sines, and what applies them.
-/

namespace Arcint.Network.Rope

open Foundation

/-- The operations that the search tells apart. -/
inductive Op where
  | parameter | constant | convert | unsqueeze | concat | multiply | add | subtract | cos | sin
  | other
  deriving DecidableEq

/-- A model's graph: what each node reads, and who reads it, output by output. There are finitely
many nodes, which is what ends the searches. -/
structure Model (N : Type*) where
  op : N → Op
  inputs : N → List N
  consumers : N → List N
  nodes : Finset N
  parameters : List N
  consumers_mem : ∀ m ∈ nodes, ∀ n ∈ consumers m, n ∈ nodes
  parameters_mem : ∀ p ∈ parameters, p ∈ nodes
  parameters_op : ∀ p ∈ parameters, op p = .parameter

namespace Model

variable {N : Type*} (model : Model N)

def isPassthrough (n : N) : Bool := model.op n ∈ [Op.convert, .unsqueeze, .concat]

/-- A constant, or a constant behind one conversion. -/
def isConstantIsh (n : N) : Bool :=
  match model.op n, model.inputs n with
  | .constant, _ => true
  | .convert, [source] => model.op source = .constant
  | _, _ => false

def hasConstantInput (n : N) : Bool := (model.inputs n).any model.isConstantIsh

def isCombine (n : N) : Bool := model.op n ∈ [Op.multiply, .add, .subtract]

/-- From a parameter on: multiplications by a constant are candidates. -/
def frontReply (n : N) : Reply :=
  if model.isPassthrough n then .through
  else if model.op n = .multiply ∧ model.hasConstantInput n then .taken
  else .ignored

/-- From a candidate on: a cosine or a sine confirms it. -/
def bridgeReply (n : N) : Reply :=
  if model.op n = .cos ∨ model.op n = .sin then .taken
  else if model.isPassthrough n then .through
  else .refused

/-- From the cosines and sines on. -/
def applyReply (n : N) : Reply :=
  if model.isPassthrough n || model.isCombine n then .through else .ignored

variable [DecidableEq N]

/-- A confirmed candidate, and what is marked with it. -/
structure Angle (N : Type*) where
  multiply : N
  trig : List N
  bridge : List N

/-- The search from a parameter. -/
def front (param : N) : Worklist N :=
  Worklist.run model.consumers model.frontReply model.nodes.card (.start [param])

/-- The search from a candidate. -/
def bridge (candidate : N) : Worklist N :=
  Worklist.run model.consumers model.bridgeReply model.nodes.card (.start [candidate])

def confirm (candidate : N) : Option (Angle N) :=
  let w := model.bridge candidate
  if w.ends = [] then none else some ⟨candidate, w.ends, w.passed⟩

/-- The nodes that fold the cosines and sines into the query or the key. -/
def rotateHalf (trig : List N) : List N :=
  (Worklist.hops model.consumers model.applyReply 4 (.start trig)).passed.filter model.isCombine

def mark (found : List N) (n : N) : List N := if n ∈ found then found else found ++ [n]

def markAngle (found : List N) (angle : Angle N) : List N :=
  let found := mark found angle.multiply
  let found := angle.bridge.foldl mark found
  let found := angle.trig.foldl mark found
  (model.rotateHalf angle.trig).foldl mark found

def markParameter (found : List N) (param : N) : List N :=
  let w := model.front param
  let angles := w.ends.filterMap model.confirm
  if angles = [] then found
  else angles.foldl model.markAngle (w.passed.foldl mark found)

/-- `find_rope_nodes`. -/
def findRopeNodes : List N := model.parameters.foldl model.markParameter []

/-! ## What belongs to the rotary embedding -/

omit [DecidableEq N]

/-- A path through conversions, unsqueezes and concatenations. -/
def Through : N → N → Prop :=
  Relation.ReflTransGen fun a b => b ∈ model.consumers a ∧ model.isPassthrough b = true

/-- Such a path, and a node behind it. -/
def Feeds (m n : N) : Prop := ∃ b, model.Through m b ∧ n ∈ model.consumers b

/-- A parameter is multiplied by a constant. -/
def AngleMultiply (param n : N) : Prop :=
  (model.op n = .multiply ∧ model.hasConstantInput n = true) ∧ model.Feeds param n

def Trig (angle n : N) : Prop := (model.op n = .cos ∨ model.op n = .sin) ∧ model.Feeds angle n

/-- At most four hops behind a cosine or a sine of the angle, through what reshapes or combines. -/
def Applies (angle n : N) : Prop :=
  model.isCombine n = true ∧
    Worklist.Within model.consumers (fun b => (model.isPassthrough b || model.isCombine b) = true)
      (model.Trig angle) 4 n

/-- A node of an angle that is taken the cosine or sine of. -/
def RopeNode (param n : N) : Prop :=
  ∃ angle, model.AngleMultiply param angle ∧ (∃ t, model.Trig angle t) ∧
    (model.isPassthrough n = true ∧ (model.Through param n ∨ model.Through angle n) ∨
      n = angle ∨ model.Trig angle n ∨ model.Applies angle n)

variable {model}

theorem isPassthrough_iff {n : N} :
    model.isPassthrough n = true ↔
      model.op n = .convert ∨ model.op n = .unsqueeze ∨ model.op n = .concat := by
  simp [isPassthrough]

theorem isCombine_iff {n : N} :
    model.isCombine n = true ↔
      model.op n = .multiply ∨ model.op n = .add ∨ model.op n = .subtract := by
  simp [isCombine]

theorem frontReply_through {n : N} :
    model.frontReply n = .through ↔ model.isPassthrough n = true := by
  unfold frontReply
  split
  · next h => exact iff_of_true rfl h
  · next h => split <;> exact iff_of_false (by simp) h

theorem frontReply_taken {n : N} :
    model.frontReply n = .taken ↔ model.op n = .multiply ∧ model.hasConstantInput n = true := by
  unfold frontReply
  split
  · next h =>
      refine iff_of_false (by simp) fun hn => ?_
      rw [isPassthrough_iff, hn.1] at h
      simp at h
  · split
    · next h => exact iff_of_true rfl h
    · next h => exact iff_of_false (by simp) h

theorem bridgeReply_taken {n : N} :
    model.bridgeReply n = .taken ↔ model.op n = .cos ∨ model.op n = .sin := by
  unfold bridgeReply
  split
  · next h => exact iff_of_true rfl h
  · next h => split <;> exact iff_of_false (by simp) h

theorem bridgeReply_through {n : N} :
    model.bridgeReply n = .through ↔ model.isPassthrough n = true := by
  unfold bridgeReply
  split
  · next h =>
      refine iff_of_false (by simp) fun hn => ?_
      rw [isPassthrough_iff] at hn
      rcases h with h | h <;> simp [h] at hn
  · split
    · next h => exact iff_of_true rfl h
    · next h => exact iff_of_false (by simp) h

theorem applyReply_through {n : N} :
    model.applyReply n = .through ↔ (model.isPassthrough n || model.isCombine n) = true := by
  unfold applyReply
  split
  · next h => exact iff_of_true rfl h
  · next h => exact iff_of_false (by simp) h

theorem applyReply_cases (n : N) :
    model.applyReply n = .through ∨ model.applyReply n = .ignored := by
  unfold applyReply
  split
  · exact .inl rfl
  · exact .inr rfl

theorem reach_eq {reply : N → Reply}
    (h : ∀ n, reply n = .through ↔ model.isPassthrough n = true) :
    Worklist.Reach model.consumers reply = model.Through := by
  unfold Worklist.Reach Through
  simp only [h]

/-- A path from a node that is none to go through ends at one to go through, if it does not end
where it begins. -/
theorem through_iff {m n : N} (hm : ¬ model.isPassthrough m = true) :
    n ≠ m ∧ model.Through m n ↔ model.isPassthrough n = true ∧ model.Through m n := by
  refine and_congr_left fun hn => ⟨fun hne => ?_, fun h heq => hm (heq ▸ h)⟩
  cases hn with
  | refl => exact absurd rfl hne
  | tail _ hstep => exact hstep.2

theorem Feeds.mem_nodes {m n : N} (hm : m ∈ model.nodes) (h : model.Feeds m n) :
    n ∈ model.nodes := by
  obtain ⟨b, hb, hn⟩ := h
  have hmem : b ∈ model.nodes := by
    clear hn
    induction hb with
    | refl => exact hm
    | tail _ hstep ih => exact model.consumers_mem _ ih _ hstep.1
  exact model.consumers_mem b hmem n hn

/-! ## What is marked -/

section Marks

variable [DecidableEq N]

theorem mem_mark {found : List N} {a n : N} : n ∈ mark found a ↔ n ∈ found ∨ n = a := by
  unfold mark
  split
  · next h => exact ⟨.inl, fun hn => hn.elim id fun heq => heq ▸ h⟩
  · rw [List.mem_append, List.mem_singleton]

theorem nodup_mark {found : List N} (h : found.Nodup) (a : N) : (mark found a).Nodup := by
  unfold mark
  split
  · exact h
  · next ha => exact List.nodup_append.mpr ⟨h, List.nodup_singleton a, fun b hb c hc hbc =>
      ha (by rw [← List.mem_singleton.mp hc, ← hbc]; exact hb)⟩

omit [DecidableEq N] in
/-- Steps that each add something leave what all of them add. -/
theorem mem_foldl_iff {A : Type*} (step : List N → A → List N) (adds : A → Prop) {n : N}
    {items : List A}
    (h : ∀ found, ∀ item ∈ items, n ∈ step found item ↔ n ∈ found ∨ adds item)
    (found : List N) :
    n ∈ items.foldl step found ↔ n ∈ found ∨ ∃ item ∈ items, adds item := by
  induction items generalizing found with
  | nil => simp
  | cons item items ih =>
      rw [List.foldl_cons, ih fun found a ha => h found a (List.mem_cons_of_mem item ha),
        h found item List.mem_cons_self]
      simp only [List.mem_cons, exists_eq_or_imp, or_assoc]

omit [DecidableEq N] in
theorem nodup_foldl {A : Type*} {step : List N → A → List N}
    (h : ∀ found item, found.Nodup → (step found item).Nodup) (items : List A) {found : List N}
    (hfound : found.Nodup) : (items.foldl step found).Nodup := by
  induction items generalizing found with
  | nil => exact hfound
  | cons item items ih => exact ih (h found item hfound)

theorem mem_foldl_mark {found nodes : List N} {n : N} :
    n ∈ nodes.foldl mark found ↔ n ∈ found ∨ n ∈ nodes := by
  refine (mem_foldl_iff mark (n = ·) (fun _ _ _ => mem_mark) found).trans ?_
  simp

theorem nodup_foldl_mark {found : List N} (h : found.Nodup) (nodes : List N) :
    (nodes.foldl mark found).Nodup :=
  nodup_foldl (fun _ a hfound => nodup_mark hfound a) nodes h

theorem mem_markAngle {found : List N} {angle : Angle N} {n : N} :
    n ∈ model.markAngle found angle ↔ n ∈ found ∨ n = angle.multiply ∨ n ∈ angle.bridge ∨
      n ∈ angle.trig ∨ n ∈ model.rotateHalf angle.trig := by
  simp only [markAngle, mem_foldl_mark, mem_mark, or_assoc]

theorem nodup_markAngle {found : List N} (h : found.Nodup) (angle : Angle N) :
    (model.markAngle found angle).Nodup :=
  nodup_foldl_mark (nodup_foldl_mark (nodup_foldl_mark (nodup_mark h _) _) _) _

theorem nodup_markParameter {found : List N} (h : found.Nodup) (param : N) :
    (model.markParameter found param).Nodup := by
  unfold markParameter
  dsimp only
  split
  · exact h
  · exact nodup_foldl (fun _ angle hfound => nodup_markAngle hfound angle) _
      (nodup_foldl_mark h _)

theorem mem_rotateHalf {angle n : N} {trig : List N}
    (htrig : ∀ t, t ∈ trig ↔ model.Trig angle t) :
    n ∈ model.rotateHalf trig ↔ model.Applies angle n := by
  rw [rotateHalf, List.mem_filter, (Worklist.hops_start applyReply_cases trig 4).2 n,
    funext fun t => propext (htrig t), and_comm, Applies]
  simp only [applyReply_through]
  refine and_congr_right fun hcombine => and_iff_right fun hmem => ?_
  rw [isCombine_iff] at hcombine
  rcases hmem.1 with h | h <;> simp [h] at hcombine

/-- A search from a node that is neither gone through nor taken. -/
theorem search_spec {reply : N → Reply}
    (hreply : ∀ n, reply n = .through ↔ model.isPassthrough n = true) {origin : N}
    (hmem : origin ∈ model.nodes) (hpass : ¬ model.isPassthrough origin = true)
    (htaken : reply origin ≠ .taken) :
    (Worklist.run model.consumers reply model.nodes.card (.start [origin])).queue = [] ∧
      (∀ n, n ∈ (Worklist.run model.consumers reply model.nodes.card (.start [origin])).passed ↔
        model.isPassthrough n = true ∧ model.Through origin n) ∧
      ∀ n, n ∈ (Worklist.run model.consumers reply model.nodes.card (.start [origin])).ends ↔
        reply n = .taken ∧ model.Feeds origin n := by
  obtain ⟨hqueue, -, -, hpassed, hends⟩ := Worklist.run_start reply model.consumers_mem hmem
  rw [reach_eq hreply] at hpassed hends
  refine ⟨hqueue, fun n => (hpassed n).trans (through_iff hpass), fun n => (hends n).trans ?_⟩
  exact and_iff_right_of_imp fun h heq => htaken (heq ▸ h.1)

theorem front_spec {param : N} (hparam : param ∈ model.parameters) :
    (model.front param).queue = [] ∧
      (∀ n, n ∈ (model.front param).passed ↔
        model.isPassthrough n = true ∧ model.Through param n) ∧
      ∀ n, n ∈ (model.front param).ends ↔ model.AngleMultiply param n := by
  have hop := model.parameters_op param hparam
  obtain ⟨hqueue, hpassed, hends⟩ := search_spec (fun n => frontReply_through)
    (model.parameters_mem param hparam) (by simp [isPassthrough_iff, hop])
    (by simp [frontReply_taken, hop])
  exact ⟨hqueue, hpassed, fun n => (hends n).trans (and_congr_left' frontReply_taken)⟩

theorem bridge_spec {candidate : N} (hmem : candidate ∈ model.nodes)
    (hop : model.op candidate = .multiply) :
    (model.bridge candidate).queue = [] ∧
      (∀ n, n ∈ (model.bridge candidate).passed ↔
        model.isPassthrough n = true ∧ model.Through candidate n) ∧
      ∀ n, n ∈ (model.bridge candidate).ends ↔ model.Trig candidate n := by
  obtain ⟨hqueue, hpassed, hends⟩ := search_spec (fun n => bridgeReply_through) hmem
    (by simp [isPassthrough_iff, hop]) (by simp [bridgeReply_taken, hop])
  exact ⟨hqueue, hpassed, fun n => (hends n).trans (and_congr_left' bridgeReply_taken)⟩

theorem confirm_spec {candidate : N} (hmem : candidate ∈ model.nodes)
    (hop : model.op candidate = .multiply) :
    (∀ angle, model.confirm candidate = some angle →
      angle.multiply = candidate ∧ (∀ n, n ∈ angle.trig ↔ model.Trig candidate n) ∧
        (∀ n, n ∈ angle.bridge ↔ model.isPassthrough n = true ∧ model.Through candidate n)) ∧
      ((∃ angle, model.confirm candidate = some angle) ↔ ∃ t, model.Trig candidate t) := by
  obtain ⟨-, hpassed, htrig⟩ := bridge_spec hmem hop
  by_cases hnil : (model.bridge candidate).ends = []
  · rw [confirm, if_pos hnil]
    refine ⟨fun _ h => (Option.some_ne_none _ h.symm).elim, iff_of_false (by simp) ?_⟩
    rintro ⟨t, ht⟩
    have hmem := (htrig t).mpr ht
    rw [hnil] at hmem
    cases hmem
  · rw [confirm, if_neg hnil]
    refine ⟨fun angle hangle => ?_, iff_of_true ⟨_, rfl⟩ ?_⟩
    · obtain rfl := Option.some.inj hangle
      exact ⟨rfl, htrig, hpassed⟩
    · obtain ⟨t, ht⟩ := List.exists_mem_of_ne_nil _ hnil
      exact ⟨t, (htrig t).mp ht⟩

theorem mem_markParameter {found : List N} {param n : N} (hparam : param ∈ model.parameters) :
    n ∈ model.markParameter found param ↔ n ∈ found ∨ model.RopeNode param n := by
  obtain ⟨-, hpassed, hends⟩ := front_spec hparam
  have hconfirm : ∀ angle, model.AngleMultiply param angle → _ := fun angle hangle =>
    confirm_spec (hangle.2.mem_nodes (model.parameters_mem param hparam)) hangle.1.1
  unfold markParameter
  dsimp only
  split
  · next hnil =>
      refine ⟨.inl, fun h => h.elim id ?_⟩
      rintro ⟨angle, hangle, htrig, -⟩
      obtain ⟨confirmed, hconfirmed⟩ := (hconfirm angle hangle).2.mpr htrig
      have hmem := List.mem_filterMap.mpr ⟨angle, (hends angle).mpr hangle, hconfirmed⟩
      rw [hnil] at hmem
      cases hmem
  · next hne =>
      obtain ⟨first, hfirst⟩ := List.exists_mem_of_ne_nil _ hne
      refine (mem_foldl_iff model.markAngle _ (fun _ _ _ => mem_markAngle) _).trans ?_
      rw [mem_foldl_mark, or_assoc]
      refine or_congr_right ⟨?_, ?_⟩
      · rintro (hn | ⟨angle, hangle, hn⟩)
        · obtain ⟨a, ha, hconfirmed⟩ := List.mem_filterMap.mp hfirst
          have hangle := (hends a).mp ha
          obtain ⟨hpass, hthrough⟩ := (hpassed n).mp hn
          exact ⟨a, hangle, (hconfirm a hangle).2.mp ⟨_, hconfirmed⟩,
            .inl ⟨hpass, .inl hthrough⟩⟩
        · obtain ⟨a, ha, hconfirmed⟩ := List.mem_filterMap.mp hangle
          have hangle := (hends a).mp ha
          obtain ⟨rfl, htrig, hbridge⟩ := (hconfirm a hangle).1 angle hconfirmed
          refine ⟨angle.multiply, hangle, (hconfirm _ hangle).2.mp ⟨_, hconfirmed⟩, ?_⟩
          rcases hn with rfl | hn | hn | hn
          · exact .inr (.inl rfl)
          · exact .inl ((hbridge n).mp hn |>.imp_right .inr)
          · exact .inr (.inr (.inl ((htrig n).mp hn)))
          · exact .inr (.inr (.inr ((mem_rotateHalf htrig).mp hn)))
      · rintro ⟨a, hangle, htrigs, hn⟩
        obtain ⟨angle, hconfirmed⟩ := (hconfirm a hangle).2.mpr htrigs
        obtain ⟨rfl, htrig, hbridge⟩ := (hconfirm a hangle).1 angle hconfirmed
        have hmem := List.mem_filterMap.mpr ⟨_, (hends _).mpr hangle, hconfirmed⟩
        rcases hn with ⟨hpass, hn | hn⟩ | rfl | hn | hn
        · exact .inl ((hpassed n).mpr ⟨hpass, hn⟩)
        · exact .inr ⟨angle, hmem, .inr (.inl ((hbridge n).mpr ⟨hpass, hn⟩))⟩
        · exact .inr ⟨angle, hmem, .inl rfl⟩
        · exact .inr ⟨angle, hmem, .inr (.inr (.inl ((htrig n).mpr hn)))⟩
        · exact .inr ⟨angle, hmem, .inr (.inr (.inr ((mem_rotateHalf htrig).mpr hn)))⟩

/-- Every search ends with its queue empty, and what is marked, each once, are the nodes that belong
to the rotary embedding of a parameter. -/
theorem findRopeNodes_spec (model : Model N) :
    (∀ param ∈ model.parameters, (model.front param).queue = [] ∧
        ∀ candidate ∈ (model.front param).ends, (model.bridge candidate).queue = []) ∧
      model.findRopeNodes.Nodup ∧
      ∀ n, n ∈ model.findRopeNodes ↔ ∃ param ∈ model.parameters, model.RopeNode param n := by
  refine ⟨fun param hparam => ?_,
    nodup_foldl (fun _ param hfound => nodup_markParameter hfound param) _ List.nodup_nil,
    fun n => ?_⟩
  · obtain ⟨hqueue, -, hends⟩ := front_spec hparam
    refine ⟨hqueue, fun candidate hcandidate => ?_⟩
    have hangle := (hends candidate).mp hcandidate
    exact (bridge_spec (hangle.2.mem_nodes (model.parameters_mem param hparam)) hangle.1.1).1
  · refine (mem_foldl_iff model.markParameter (model.RopeNode · n)
      (fun _ _ hparam => mem_markParameter hparam) []).trans ?_
    simp

end Marks

end Model

end Arcint.Network.Rope
