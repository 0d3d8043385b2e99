import Mathlib.Data.Set.Insert
import Mathlib.Data.List.Nodup
import Mathlib.Algebra.Order.BigOperators.Group.List
import Mathlib.Algebra.Order.Group.Nat
import Arcint.Foundation.Loop
import Arcint.Foundation.Machine
import Mathlib.Algebra.Ring.Nat

/-! # The load-time fill schedule

`nvme_fill::Scheduler`: batches are queued, submitted a window at a time, the
oldest is collected, a short batch is retried once per layer, and the barrier
serves when nothing is left. The window lives in the barrier's locals, and a
batch leaves the queue before it is submitted. A barrier that returns on a
failed submit or collect therefore forgets what it had in hand, and since only a
second shortfall makes the refusal terminal, a later barrier may serve without it.
-/

namespace Arcint.Fill

open Foundation

/-- One pinned expert to fetch. -/
structure FillRequest where
  layer : Nat
  expert : Nat
  slot : Nat
  lba : Nat
  bytes : Nat
  deriving DecidableEq, Repr

/-- One layer's pinned set, submitted at once. -/
structure FillBatch where
  layer : Nat
  requests : List FillRequest
  deriving DecidableEq, Repr

inductive Phase where
  | created
  | loading
  | serving
  | refused
  deriving DecidableEq, Repr

/-- The fields of `CollectOutcome` that the schedule reads. -/
structure CollectOutcome where
  ok : Bool
  completed : Nat
  deriving DecidableEq, Repr

/-- A transport with a state of its own: every answer may depend on everything
it has been asked before. An error carries the reason it reports. -/
structure Transport (τ : Type) where
  begin : τ → Except String Unit × τ
  submit : τ → FillBatch → Except String Nat × τ
  collect : τ → Nat → Except String CollectOutcome × τ

/-- The transport never answers a submit with an id that is still outstanding:
an id is outstanding from its submit to its collect. -/
def Transport.KeepsIds {τ : Type} (transport : Transport τ) (outstanding : τ → Set Nat) : Prop :=
  (∀ t, outstanding (transport.begin t).2 = outstanding t) ∧
    (∀ t batch reason t', transport.submit t batch = (.error reason, t') →
      outstanding t' = outstanding t) ∧
    (∀ t batch id t', transport.submit t batch = (.ok id, t') →
      id ∉ outstanding t ∧ outstanding t' = insert id (outstanding t)) ∧
    ∀ t id, outstanding (transport.collect t id).2 = outstanding t \ {id}

/-- How a call of `barrier` ended. -/
inductive Exit where
  | notBegun
  | alreadyRefused
  | alreadyRun
  | submitFailed (reason : String)
  | stalled
  /-- `inflight.at` threw: the oldest id is not in the map. -/
  | missing
  | collectFailed (reason : String)
  | shortfall (layer completed size : Nat)
  | served
  deriving DecidableEq, Repr

/-- The reason a false return leaves. -/
def Exit.reason : Exit → Option String
  | .notBegun => some "pinned fill barrier() before begin()"
  | .alreadyRefused => some "pinned fill already refused the load"
  | .alreadyRun => some "pinned fill barrier() already run"
  | .submitFailed reason => some reason
  | .stalled => some "pinned fill stalled with no batch in flight"
  | .collectFailed reason => some reason
  | .shortfall layer completed size =>
      some ("load failed: pinned expert set for layer " ++ toString layer ++
        " did not land after a retry (" ++ toString completed ++ " of " ++ toString size ++
        "); refusing the load rather than demoting to the host tier")
  | .missing | .served => none

/-- The barrier returned false, or threw, with batches in hand. -/
def Exit.dropsBatches : Exit → Bool
  | .submitFailed _ | .stalled | .missing | .collectFailed _ => true
  | _ => false

/-- The locals of `barrier`, and what it has reported filled so far. `inflight`
is the map, in insertion order; `landed` records the collects after which a
batch's requests were passed to `on_filled`. -/
structure Barrier (τ : Type) where
  pending : List FillBatch
  inflight : List (Nat × FillBatch)
  order : List Nat
  retried : List Nat
  transport : τ
  landed : List (FillBatch × CollectOutcome)
  filled : List FillRequest

section Barrier

variable {τ : Type} (transport : Transport τ) (depth : Nat)

/-- `submit_one`: `emplace` keeps the batch that already has the id, while the
id is queued again. -/
def submitOne (b : Barrier τ) (batch : FillBatch) : Barrier τ × Option String :=
  match transport.submit b.transport batch with
  | (.error reason, t) => ({ b with transport := t }, some reason)
  | (.ok id, t) =>
      ({ b with
          transport := t
          inflight := if (b.inflight.lookup id).isSome then b.inflight
            else b.inflight ++ [(id, batch)]
          order := b.order ++ [id] },
        none)

/-- Fill the window from the queue. A batch is popped before it is submitted. -/
def fillWindow : List FillBatch → Barrier τ → Barrier τ × Option String
  | [], b => ({ b with pending := [] }, none)
  | next :: rest, b =>
      if b.inflight.length < depth then
        match submitOne transport { b with pending := rest } next with
        | (b, some reason) => (b, some reason)
        | (b, none) => fillWindow rest b
      else ({ b with pending := next :: rest }, none)

/-- What a collected batch leads to: it landed, it is retried, or it is short for
the second time. -/
def settle (b : Barrier τ) (batch : FillBatch) (outcome : CollectOutcome) :
    Pass (Barrier τ) (Barrier τ × Exit) :=
  if outcome.ok = true ∧ outcome.completed = batch.requests.length then
    .again { b with
      landed := b.landed ++ [(batch, outcome)]
      filled := b.filled ++ batch.requests }
  else if batch.layer ∉ b.retried then
    match submitOne transport { b with retried := b.retried ++ [batch.layer] } batch with
    | (b, some reason) => .leave (b, .submitFailed reason)
    | (b, none) => .again b
  else .leave (b, .shortfall batch.layer outcome.completed batch.requests.length)

/-- Collect the oldest batch. -/
def collectOldest (b : Barrier τ) : Pass (Barrier τ) (Barrier τ × Exit) :=
  match b.order with
  | [] => .leave (b, .missing)
  | oldest :: order =>
      match b.inflight.lookup oldest with
      | none => .leave ({ b with order := order }, .missing)
      | some batch =>
          let b := { b with
            order := order
            inflight := b.inflight.filter (·.1 ≠ oldest) }
          match transport.collect b.transport oldest with
          | (.error reason, t) => .leave ({ b with transport := t }, .collectFailed reason)
          | (.ok outcome, t) => settle transport { b with transport := t } batch outcome

/-- One iteration of the barrier's loop. -/
def barrierPass (b : Barrier τ) : Pass (Barrier τ) (Barrier τ × Exit) :=
  if b.pending.isEmpty && b.inflight.isEmpty then .leave (b, .served)
  else
    match fillWindow transport depth b.pending b with
    | (b, some reason) => .leave (b, .submitFailed reason)
    | (b, none) =>
        if b.inflight.isEmpty then .leave (b, .stalled)
        else collectOldest transport b

def barrierLoop : Loop (Barrier τ) (Barrier τ × Exit) :=
  ⟨barrierPass transport depth⟩

end Barrier

/-- The scheduler, what has been enqueued and filled over its lifetime, and how
its barriers ended. -/
structure Scheduler (τ : Type) where
  phase : Phase
  pending : List FillBatch
  transport : τ
  enqueued : List FillBatch
  landed : List (FillBatch × CollectOutcome)
  filled : List FillRequest
  exits : List Exit

namespace Scheduler

variable {τ : Type}

def new (t : τ) : Scheduler τ := ⟨.created, [], t, [], [], [], []⟩

def enqueue (s : Scheduler τ) (batch : FillBatch) : Scheduler τ × Except String Unit :=
  if s.phase ≠ .loading then (s, .error "pinned fill enqueue() outside the load phase")
  else
    ({ s with
        pending := s.pending ++ [batch]
        enqueued := s.enqueued ++ [batch] },
      .ok ())

/-- The locals at the start of a barrier. -/
def start (s : Scheduler τ) : Barrier τ :=
  ⟨s.pending, [], [], [], s.transport, s.landed, s.filled⟩

/-- The scheduler a barrier leaves. Only a served load and a second shortfall
move the phase. -/
def finish (s : Scheduler τ) (b : Barrier τ) (exit : Exit) : Scheduler τ :=
  { s with
    pending := b.pending
    transport := b.transport
    landed := b.landed
    filled := b.filled
    phase :=
      match exit with
      | .served => .serving
      | .shortfall _ _ _ => .refused
      | _ => s.phase
    exits := s.exits ++ [exit] }

/-- Every iteration collects a batch, and a batch is collected at most twice, so
this many iterations are enough. -/
def iterations (s : Scheduler τ) : Nat := 2 * s.pending.length + 1

end Scheduler

/-- The constructor's arguments: the transport, if there is one, and the depth. -/
structure Schedule (τ : Type) where
  transport : Transport τ
  attached : Bool
  depth : Nat

namespace Schedule

variable {τ : Type} (schedule : Schedule τ)

/-- The depth in use; 0 counts as 1. -/
def window : Nat := if schedule.depth = 0 then 1 else schedule.depth

def begin (s : Scheduler τ) : Scheduler τ × Except String Unit :=
  if s.phase ≠ .created then (s, .error "pinned fill begin() called twice")
  else if schedule.attached = false then (s, .error "pinned fill has no transport")
  else
    match schedule.transport.begin s.transport with
    | (.error reason, t) => ({ s with transport := t }, .error reason)
    | (.ok (), t) => ({ s with transport := t, phase := .loading }, .ok ())

def barrier (s : Scheduler τ) : Scheduler τ × Exit :=
  match s.phase with
  | .created => ({ s with exits := s.exits ++ [.notBegun] }, .notBegun)
  | .refused => ({ s with exits := s.exits ++ [.alreadyRefused] }, .alreadyRefused)
  | .serving => ({ s with exits := s.exits ++ [.alreadyRun] }, .alreadyRun)
  | .loading =>
      match (barrierLoop schedule.transport schedule.window).after s.iterations s.start with
      | .leave (b, exit) => (s.finish b exit, exit)
      | .again b => (s.finish b .stalled, .stalled)

end Schedule

/-- One call on the scheduler. -/
inductive Call where
  | begin
  | enqueue (batch : FillBatch)
  | barrier
  deriving DecidableEq, Repr

def Schedule.machine {τ : Type} (schedule : Schedule τ) : Machine (Scheduler τ) Call where
  step s call :=
    match call with
    | .begin => some (schedule.begin s).1
    | .enqueue batch => some (s.enqueue batch).1
    | .barrier => some (schedule.barrier s).1

/-! ## The barrier returns -/

section Returns

variable {τ : Type} {transport : Transport τ} {depth : Nat}

/-- How many more collects a batch may need. -/
def weight (retried : List Nat) (batch : FillBatch) : Nat :=
  if batch.layer ∈ retried then 1 else 2

/-- The collects that may still be needed. -/
def remaining (b : Barrier τ) : Nat :=
  (b.pending.map (weight b.retried)).sum + (b.inflight.map fun e => weight b.retried e.2).sum

theorem submitOne_frame {b b' : Barrier τ} {batch : FillBatch} {error : Option String}
    (hsubmit : submitOne transport b batch = (b', error)) :
    b'.pending = b.pending ∧ b'.retried = b.retried ∧ b'.landed = b.landed ∧
      b'.filled = b.filled := by
  unfold submitOne at hsubmit
  split at hsubmit
  next =>
    cases hsubmit
    exact ⟨rfl, rfl, rfl, rfl⟩
  next =>
    cases hsubmit
    exact ⟨rfl, rfl, rfl, rfl⟩

/-- A submitted batch is added to the window, unless its id is taken. -/
theorem submitOne_inflight {b b' : Barrier τ} {batch : FillBatch}
    (hsubmit : submitOne transport b batch = (b', none)) :
    ∃ id, transport.submit b.transport batch = (.ok id, b'.transport) ∧
      b'.order = b.order ++ [id] ∧
      b'.inflight = if (b.inflight.lookup id).isSome then b.inflight
        else b.inflight ++ [(id, batch)] := by
  unfold submitOne at hsubmit
  split at hsubmit
  next => cases hsubmit
  next id t hid =>
    cases hsubmit
    exact ⟨id, hid, rfl, rfl⟩

theorem remaining_submitOne_le {b b' : Barrier τ} {batch : FillBatch}
    (hsubmit : submitOne transport b batch = (b', none)) :
    remaining b' ≤ remaining b + weight b.retried batch := by
  obtain ⟨hpending, hretried, _⟩ := submitOne_frame hsubmit
  obtain ⟨id, _, _, hinflight⟩ := submitOne_inflight hsubmit
  unfold remaining
  rw [hpending, hretried, hinflight]
  split
  next => omega
  next =>
    rw [List.map_append, List.sum_append]
    simp only [List.map_cons, List.map_nil, List.sum_singleton]
    omega

theorem remaining_fillWindow_le {pending : List FillBatch} {b b' : Barrier τ}
    (hfill : fillWindow transport depth pending b = (b', none)) :
    remaining b' ≤ remaining { b with pending := pending } ∧ b'.retried = b.retried := by
  induction pending generalizing b with
  | nil =>
      cases hfill
      exact ⟨Nat.le_refl _, rfl⟩
  | cons next rest ih =>
      unfold fillWindow at hfill
      split at hfill
      next =>
        split at hfill
        next => cases hfill
        next b₁ hsubmit =>
          obtain ⟨hle, hretried⟩ := ih hfill
          have hone := remaining_submitOne_le hsubmit
          obtain ⟨hpending, hkept, _⟩ := submitOne_frame hsubmit
          refine ⟨?_, hretried.trans hkept⟩
          obtain rfl : b₁.pending = rest := hpending
          refine hle.trans (hone.trans (Nat.le_of_eq ?_))
          simp only [remaining, List.map_cons, List.sum_cons]
          omega
      next =>
        cases hfill
        exact ⟨Nat.le_refl _, rfl⟩

/-- The entries with an id, the found one among them, are worth at least that one. -/
theorem sum_filter_add_le {entries : List (Nat × FillBatch)} {id : Nat} {batch : FillBatch}
    (hfound : entries.lookup id = some batch) (cost : FillBatch → Nat) :
    ((entries.filter (·.1 ≠ id)).map fun e => cost e.2).sum + cost batch ≤
      (entries.map fun e => cost e.2).sum := by
  induction entries with
  | nil => cases hfound
  | cons entry entries ih =>
      rw [List.lookup_cons] at hfound
      split at hfound
      next hsame =>
        cases hfound
        have hle : ((entries.filter (·.1 ≠ id)).map fun e => cost e.2).sum ≤
            (entries.map fun e => cost e.2).sum :=
          (List.filter_sublist.map _).sum_le_sum (fun _ _ => Nat.zero_le _)
        rw [List.filter_cons_of_neg (by simpa using (beq_iff_eq.mp hsame).symm), List.map_cons,
          List.sum_cons]
        omega
      next hother =>
        have hne : entry.1 ≠ id := by
          intro heq
          rw [heq, beq_self_eq_true] at hother
          cases hother
        have hrest := ih hfound
        rw [List.filter_cons_of_pos (by simpa using hne), List.map_cons, List.map_cons,
          List.sum_cons, List.sum_cons]
        omega

theorem weight_append_le (retried : List Nat) (layer : Nat) (batch : FillBatch) :
    weight (retried ++ [layer]) batch ≤ weight retried batch := by
  unfold weight
  split
  next => split <;> omega
  next hnew =>
    rw [if_neg]
    intro hmem
    exact hnew (List.mem_append_left _ hmem)

/-- Retrying a layer makes none of the batches dearer. -/
theorem remaining_retried_le (b : Barrier τ) (layer : Nat) :
    remaining { b with retried := b.retried ++ [layer] } ≤ remaining b := by
  have hpending : (b.pending.map (weight (b.retried ++ [layer]))).sum ≤
      (b.pending.map (weight b.retried)).sum :=
    List.sum_le_sum fun batch _ => weight_append_le b.retried layer batch
  have hinflight : (b.inflight.map fun e => weight (b.retried ++ [layer]) e.2).sum ≤
      (b.inflight.map fun e => weight b.retried e.2).sum :=
    List.sum_le_sum fun entry _ => weight_append_le b.retried layer entry.2
  exact Nat.add_le_add hpending hinflight

theorem remaining_settle_lt {b b' : Barrier τ} {batch : FillBatch} {outcome : CollectOutcome}
    (hagain : settle transport b batch outcome = .again b') :
    remaining b' < remaining b + weight b.retried batch := by
  unfold settle at hagain
  split at hagain
  next =>
    cases hagain
    have hpos : 0 < weight b.retried batch := by
      unfold weight
      split <;> omega
    exact Nat.lt_add_of_pos_right hpos
  next =>
    split at hagain
    next hfirst =>
      split at hagain
      next => cases hagain
      next after hsubmit =>
        cases hagain
        have hone := remaining_submitOne_le hsubmit
        have hretried := remaining_retried_le b batch.layer
        have hbefore : weight b.retried batch = 2 := if_neg hfirst
        have hafter : weight (b.retried ++ [batch.layer]) batch = 1 := by
          rw [weight, if_pos (List.mem_append_right _ (List.mem_singleton_self _))]
        simp only [hafter] at hone
        omega
    next => cases hagain

theorem remaining_collectOldest_lt {b b' : Barrier τ}
    (hagain : collectOldest transport b = .again b') : remaining b' < remaining b := by
  unfold collectOldest at hagain
  split at hagain
  next => cases hagain
  next oldest order horder =>
    split at hagain
    next => cases hagain
    next batch hfound =>
      dsimp only at hagain
      split at hagain
      next => cases hagain
      next =>
        have hlt := remaining_settle_lt hagain
        have hsum := sum_filter_add_le hfound (weight b.retried)
        refine Nat.lt_of_lt_of_le hlt ?_
        unfold remaining
        dsimp only
        omega

/-- Every iteration that goes round again lowers the number of collects left. -/
theorem remaining_barrierPass_lt {b b' : Barrier τ}
    (hagain : barrierPass transport depth b = .again b') : remaining b' < remaining b := by
  unfold barrierPass at hagain
  split at hagain
  next => cases hagain
  next =>
    split at hagain
    next => cases hagain
    next filled hfill =>
      split at hagain
      next => cases hagain
      next =>
        exact Nat.lt_of_lt_of_le (remaining_collectOldest_lt hagain)
          (remaining_fillWindow_le hfill).1

/-- The iterations of a barrier are enough: its loop always leaves. -/
theorem barrierLoop_leaves (transport : Transport τ) (depth : Nat) (s : Scheduler τ) :
    ∃ result, (barrierLoop transport depth).after s.iterations s.start = .leave result := by
  refine Loop.exists_leave_of_measure remaining
    (fun b b' hagain => remaining_barrierPass_lt hagain) ?_
  have hweights : (s.pending.map (weight [])).sum = 2 * s.pending.length := by
    have hall : ∀ batch ∈ s.pending, weight [] batch = 2 := fun batch _ => if_neg List.not_mem_nil
    rw [List.map_congr_left hall, List.map_const', List.sum_replicate]
    exact Nat.mul_comm _ _
  simp only [remaining, Scheduler.start, Scheduler.iterations, hweights]
  simp

end Returns

/-! ## What the barrier keeps track of -/

section Tracks

variable {τ : Type} {transport : Transport τ} {depth : Nat} {outstanding : τ → Set Nat}

/-- Every batch that landed did so in a collect that reported all of it, and its
requests were reported filled. -/
def LandedInFull (landed : List (FillBatch × CollectOutcome)) (filled : List FillRequest) :
    Prop :=
  ∀ entry ∈ landed, entry.2.ok = true ∧ entry.2.completed = entry.1.requests.length ∧
    ∀ request ∈ entry.1.requests, request ∈ filled

/-- Inside a barrier whose transport keeps its ids: every batch enqueued is in
the queue, in hand, in flight, or has landed. -/
structure Tracks (outstanding : τ → Set Nat) (enqueued hand : List FillBatch) (b : Barrier τ) :
    Prop where
  keys : b.order = b.inflight.map Prod.fst
  nodup : b.order.Nodup
  known : ∀ id ∈ b.order, id ∈ outstanding b.transport
  accounted : ∀ batch ∈ enqueued, batch ∈ b.pending ∨ batch ∈ hand ∨
    batch ∈ b.inflight.map Prod.snd ∨ batch ∈ b.landed.map Prod.fst
  full : LandedInFull b.landed b.filled

theorem lookup_eq_none_of_notMem {β : Type} {entries : List (Nat × β)} {id : Nat}
    (hid : id ∉ entries.map Prod.fst) : entries.lookup id = none := by
  rw [List.lookup_eq_none_iff]
  intro entry hentry
  rw [bne_iff_ne]
  rintro rfl
  exact hid (List.mem_map_of_mem hentry)

theorem submitOne_tracks (hids : transport.KeepsIds outstanding) {enqueued : List FillBatch}
    {b b' : Barrier τ} {batch : FillBatch} (hb : Tracks outstanding enqueued [batch] b)
    (hsubmit : submitOne transport b batch = (b', none)) :
    Tracks outstanding enqueued [] b' := by
  obtain ⟨hpending, _, hlanded, hfilled⟩ := submitOne_frame hsubmit
  obtain ⟨id, hid, horder, hinflight⟩ := submitOne_inflight hsubmit
  obtain ⟨hfresh, hout⟩ := hids.2.2.1 _ _ _ _ hid
  have hnew : id ∉ b.order := fun hmem => hfresh (hb.known id hmem)
  have hnone : b.inflight.lookup id = none := by
    apply lookup_eq_none_of_notMem
    rw [← hb.keys]
    exact hnew
  rw [hnone] at hinflight
  simp only [Option.isSome_none, Bool.false_eq_true, if_false] at hinflight
  refine ⟨?_, ?_, ?_, ?_, ?_⟩
  · rw [horder, hinflight, hb.keys]
    simp
  · rw [horder]
    exact List.nodup_append.mpr ⟨hb.nodup, List.nodup_singleton _, by
      intro a ha c hc
      rw [List.mem_singleton.mp hc]
      rintro rfl
      exact hnew ha⟩
  · intro other hother
    rw [hout]
    rw [horder] at hother
    rcases List.mem_append.mp hother with hold | hlast
    · exact Set.mem_insert_of_mem _ (hb.known other hold)
    · rw [List.mem_singleton.mp hlast]
      exact Set.mem_insert _ _
  · intro e he
    rw [hpending, hlanded, hinflight, List.map_append, List.mem_append]
    rcases hb.accounted e he with h | h | h | h
    · exact .inl h
    · exact .inr (.inr (.inl (.inr (by simpa using h))))
    · exact .inr (.inr (.inl (.inl h)))
    · exact .inr (.inr (.inr h))
  · rw [hlanded, hfilled]
    exact hb.full

theorem fillWindow_tracks (hids : transport.KeepsIds outstanding) {enqueued : List FillBatch}
    {pending : List FillBatch} {b b' : Barrier τ}
    (hb : Tracks outstanding enqueued [] { b with pending := pending })
    (hfill : fillWindow transport depth pending b = (b', none)) :
    Tracks outstanding enqueued [] b' := by
  induction pending generalizing b with
  | nil =>
      cases hfill
      exact hb
  | cons next rest ih =>
      unfold fillWindow at hfill
      split at hfill
      next =>
        split at hfill
        next => cases hfill
        next b₁ hsubmit =>
          have hhand : Tracks outstanding enqueued [next] { b with pending := rest } := by
            refine ⟨hb.keys, hb.nodup, hb.known, ?_, hb.full⟩
            intro e he
            rcases hb.accounted e he with h | h | h | h
            · rcases List.mem_cons.mp h with rfl | hrest
              · exact .inr (.inl (List.mem_singleton_self _))
              · exact .inl hrest
            · cases h
            · exact .inr (.inr (.inl h))
            · exact .inr (.inr (.inr h))
          have hnext := submitOne_tracks hids hhand hsubmit
          obtain rfl : b₁.pending = rest := (submitOne_frame hsubmit).1
          exact ih hnext hfill
      next =>
        cases hfill
        exact hb

theorem settle_tracks (hids : transport.KeepsIds outstanding) {enqueued : List FillBatch}
    {b b' : Barrier τ} {batch : FillBatch} {outcome : CollectOutcome}
    (hb : Tracks outstanding enqueued [batch] b)
    (hagain : settle transport b batch outcome = .again b') :
    Tracks outstanding enqueued [] b' := by
  unfold settle at hagain
  split at hagain
  next hfull =>
    cases hagain
    refine ⟨hb.keys, hb.nodup, hb.known, ?_, ?_⟩
    · intro e he
      simp only [List.map_append, List.mem_append]
      rcases hb.accounted e he with h | h | h | h
      · exact .inl h
      · exact .inr (.inr (.inr (.inr (by simpa using h))))
      · exact .inr (.inr (.inl h))
      · exact .inr (.inr (.inr (.inl h)))
    · intro entry hentry
      rcases List.mem_append.mp hentry with hold | hlast
      · obtain ⟨hok, hcompleted, hfilled⟩ := hb.full entry hold
        exact ⟨hok, hcompleted, fun r hr => List.mem_append_left _ (hfilled r hr)⟩
      · rw [List.mem_singleton.mp hlast]
        exact ⟨hfull.1, hfull.2, fun r hr => List.mem_append_right _ hr⟩
  next =>
    split at hagain
    next =>
      split at hagain
      next => cases hagain
      next after hsubmit =>
        cases hagain
        have hretried : Tracks outstanding enqueued [batch]
            { b with retried := b.retried ++ [batch.layer] } :=
          ⟨hb.keys, hb.nodup, hb.known, hb.accounted, hb.full⟩
        exact submitOne_tracks hids hretried hsubmit
    next => cases hagain

theorem collectOldest_tracks (hids : transport.KeepsIds outstanding) {enqueued : List FillBatch}
    {b b' : Barrier τ} (hb : Tracks outstanding enqueued [] b)
    (hagain : collectOldest transport b = .again b') : Tracks outstanding enqueued [] b' := by
  unfold collectOldest at hagain
  split at hagain
  next => cases hagain
  next oldest order horder =>
    split at hagain
    next => cases hagain
    next batch hfound =>
      -- The window and the queue of ids agree, so the oldest id is the first entry.
      obtain ⟨entry, rest, hinflight⟩ : ∃ entry rest, b.inflight = entry :: rest := by
        cases hempty : b.inflight with
        | nil =>
            rw [hempty] at hfound
            cases hfound
        | cons entry rest => exact ⟨entry, rest, rfl⟩
      have hkeys := hb.keys
      rw [horder, hinflight, List.map_cons] at hkeys
      obtain ⟨rfl, hrest⟩ := List.cons.inj hkeys
      have hnodup := hb.nodup
      rw [horder] at hnodup
      obtain ⟨hnew, hnodup⟩ := List.nodup_cons.mp hnodup
      rw [hinflight, List.lookup_cons_self] at hfound
      cases hfound
      have hfilter : b.inflight.filter (·.1 ≠ entry.1) = rest := by
        rw [hinflight, List.filter_cons_of_neg (by simp), List.filter_eq_self]
        intro other hother
        rw [decide_eq_true_eq]
        intro heq
        refine hnew ?_
        rw [hrest, ← heq]
        exact List.mem_map_of_mem hother
      dsimp only at hagain
      split at hagain
      next => cases hagain
      next outcome t hcollect =>
        have hout := hids.2.2.2 b.transport entry.1
        rw [hcollect] at hout
        refine settle_tracks hids ?_ hagain
        refine ⟨?_, hnodup, ?_, ?_, hb.full⟩
        · rw [hfilter]
          exact hrest
        · intro id hid
          rw [hout]
          refine ⟨hb.known id (by rw [horder]; exact List.mem_cons_of_mem _ hid), ?_⟩
          rintro rfl
          exact hnew hid
        · intro e he
          rw [hfilter]
          rcases hb.accounted e he with h | h | h | h
          · exact .inl h
          · cases h
          · rw [hinflight, List.map_cons] at h
            rcases List.mem_cons.mp h with rfl | hlater
            · exact .inr (.inl (List.mem_singleton_self _))
            · exact .inr (.inr (.inl hlater))
          · exact .inr (.inr (.inr h))

theorem settle_leave {b b' : Barrier τ} {batch : FillBatch} {outcome : CollectOutcome} {exit : Exit}
    (hleave : settle transport b batch outcome = .leave (b', exit)) :
    exit.dropsBatches = true ∨ ∃ layer completed size, exit = .shortfall layer completed size := by
  unfold settle at hleave
  split at hleave
  next => cases hleave
  next =>
    split at hleave
    next =>
      split at hleave
      next =>
        cases hleave
        exact .inl rfl
      next => cases hleave
    next =>
      cases hleave
      exact .inr ⟨_, _, _, rfl⟩

theorem collectOldest_leave {b b' : Barrier τ} {exit : Exit}
    (hleave : collectOldest transport b = .leave (b', exit)) :
    exit.dropsBatches = true ∨ ∃ layer completed size, exit = .shortfall layer completed size := by
  unfold collectOldest at hleave
  split at hleave
  next =>
    cases hleave
    exact .inl rfl
  next =>
    split at hleave
    next =>
      cases hleave
      exact .inl rfl
    next =>
      dsimp only at hleave
      split at hleave
      next =>
        cases hleave
        exact .inl rfl
      next => exact settle_leave hleave

theorem barrierPass_tracks (hids : transport.KeepsIds outstanding) {enqueued : List FillBatch}
    {b b' : Barrier τ} (hb : Tracks outstanding enqueued [] b)
    (hagain : barrierPass transport depth b = .again b') : Tracks outstanding enqueued [] b' := by
  unfold barrierPass at hagain
  split at hagain
  next => cases hagain
  next =>
    split at hagain
    next => cases hagain
    next filled hfill =>
      split at hagain
      next => cases hagain
      next => exact collectOldest_tracks hids (fillWindow_tracks hids hb hfill) hagain

/-- How an iteration can leave: it found nothing left, it drops what it had in
hand, or a batch was short for the second time. -/
theorem barrierPass_leave {b b' : Barrier τ} {exit : Exit}
    (hleave : barrierPass transport depth b = .leave (b', exit)) :
    (exit = .served ∧ b' = b ∧ b.pending = [] ∧ b.inflight = []) ∨ exit.dropsBatches = true ∨
      ∃ layer completed size, exit = .shortfall layer completed size := by
  unfold barrierPass at hleave
  split at hleave
  next hempty =>
    cases hleave
    rw [Bool.and_eq_true, List.isEmpty_iff, List.isEmpty_iff] at hempty
    exact .inl ⟨rfl, rfl, hempty⟩
  next =>
    split at hleave
    next =>
      cases hleave
      exact .inr (.inl rfl)
    next =>
      split at hleave
      next =>
        cases hleave
        exact .inr (.inl rfl)
      next => exact .inr (collectOldest_leave hleave)

/-- A barrier that serves has landed every batch that was enqueued. -/
theorem barrierLoop_served (hids : transport.KeepsIds outstanding) {enqueued : List FillBatch}
    {n : Nat} {b b' : Barrier τ} (hb : Tracks outstanding enqueued [] b)
    (hserved : (barrierLoop transport depth).after n b = .leave (b', .served)) :
    (∀ batch ∈ enqueued, batch ∈ b'.landed.map Prod.fst) ∧ LandedInFull b'.landed b'.filled := by
  obtain ⟨m, _, head, hhead, hbody⟩ := Loop.exists_head_of_after_leave hserved
  have htracks : Tracks outstanding enqueued [] head :=
    Loop.head_invariant hb (fun _ _ _ _ hinv hagain => barrierPass_tracks hids hinv hagain) hhead
  obtain ⟨_, rfl, hpending, hinflight⟩ | hdrops | ⟨_, _, _, hshort⟩ := barrierPass_leave hbody
  case inr.inl => cases hdrops
  case inr.inr => cases hshort
  refine ⟨?_, htracks.full⟩
  intro batch hbatch
  rcases htracks.accounted batch hbatch with h | h | h | h
  · rw [hpending] at h
    cases h
  · cases h
  · rw [hinflight] at h
    cases h
  · exact h

end Tracks

/-! ## Whole lives of a scheduler -/

section Runs

variable {τ : Type} (schedule : Schedule τ)

/-- `barrier` is not called again after a call that returned on a failed submit
or a failed collect. -/
def NoSecondBarrier (s : Scheduler τ) : Call → Prop
  | .barrier => ∀ exit ∈ s.exits, exit.dropsBatches = false
  | _ => True

/-- Every request of every batch that was enqueued has been reported filled,
after a collect that reported the batch complete. -/
def AllFilled (s : Scheduler τ) : Prop :=
  ∀ batch ∈ s.enqueued, ∃ outcome, (batch, outcome) ∈ s.landed ∧ outcome.ok = true ∧
    outcome.completed = batch.requests.length ∧ ∀ request ∈ batch.requests, request ∈ s.filled

/-- What holds between calls. -/
structure Accounts (s : Scheduler τ) : Prop where
  created : s.phase = .created → s.enqueued = [] ∧ s.landed = []
  loading : s.phase = .loading → (∀ exit ∈ s.exits, exit.dropsBatches = false) →
    (∀ batch ∈ s.enqueued, batch ∈ s.pending ∨ batch ∈ s.landed.map Prod.fst) ∧
      LandedInFull s.landed s.filled
  serving : s.phase = .serving → AllFilled s

theorem accounts_new (t : τ) : Accounts (Scheduler.new t) := by
  refine ⟨fun _ => ⟨rfl, rfl⟩, ?_, ?_⟩
  · intro hloading
    cases hloading
  · intro hserving
    cases hserving

theorem begin_accounts {s : Scheduler τ} (hs : Accounts s) : Accounts (schedule.begin s).1 := by
  unfold Schedule.begin
  split
  next => exact hs
  next hphase =>
    have hcreated : s.phase = .created := by
      by_contra hne
      exact hphase hne
    obtain ⟨hnone, hlanded⟩ := hs.created hcreated
    split
    next => exact hs
    next =>
      split
      next => exact ⟨hs.created, hs.loading, hs.serving⟩
      next =>
        refine ⟨?_, ?_, ?_⟩
        · intro hphase'
          cases hphase'
        · intro _ _
          dsimp only
          rw [hnone, hlanded]
          exact ⟨fun _ h => absurd h List.not_mem_nil, fun _ h => absurd h List.not_mem_nil⟩
        · intro hphase'
          cases hphase'

theorem begin_ok {schedule : Schedule τ} {s s' : Scheduler τ}
    (h : schedule.begin s = (s', .ok ())) : s'.phase = .loading ∧ s'.exits = s.exits := by
  unfold Schedule.begin at h
  split at h
  next => cases h
  next =>
    split at h
    next => cases h
    next =>
      split at h
      next => cases h
      next =>
        cases h
        exact ⟨rfl, rfl⟩

theorem enqueue_accounts {s : Scheduler τ} (hs : Accounts s) (batch : FillBatch) :
    Accounts (s.enqueue batch).1 := by
  unfold Scheduler.enqueue
  split
  next => exact hs
  next hphase =>
    have hloading : s.phase = .loading := by
      by_contra hne
      exact hphase hne
    refine ⟨?_, ?_, ?_⟩
    · intro hcreated
      rw [hloading] at hcreated
      cases hcreated
    · intro _ hkept
      obtain ⟨haccounted, hfull⟩ := hs.loading hloading hkept
      refine ⟨?_, hfull⟩
      intro e he
      rcases List.mem_append.mp he with hold | hnew
      · exact (haccounted e hold).imp_left (List.mem_append_left _)
      · exact .inl (List.mem_append_right _ hnew)
    · intro hserving
      rw [hloading] at hserving
      cases hserving

theorem barrier_accounts {outstanding : τ → Set Nat}
    (hids : schedule.transport.KeepsIds outstanding) {s : Scheduler τ} (hs : Accounts s)
    (hallowed : NoSecondBarrier s .barrier) : Accounts (schedule.barrier s).1 := by
  -- Outside the load phase a barrier changes nothing but the record of its exits.
  have hother : ∀ exit, s.phase ≠ .loading → Accounts { s with exits := s.exits ++ [exit] } :=
    fun exit hphase =>
      ⟨hs.created, fun hloading => absurd hloading hphase, hs.serving⟩
  unfold Schedule.barrier
  split
  next hphase => exact hother _ (by rw [hphase]; decide)
  next hphase => exact hother _ (by rw [hphase]; decide)
  next hphase => exact hother _ (by rw [hphase]; decide)
  next hphase =>
    obtain ⟨⟨b, exit⟩, hleave⟩ := barrierLoop_leaves schedule.transport schedule.window s
    rw [hleave]
    obtain ⟨haccounted, hfull⟩ := hs.loading hphase hallowed
    have htracks : Tracks outstanding s.enqueued [] s.start := by
      refine ⟨rfl, List.nodup_nil, fun _ h => absurd h List.not_mem_nil, ?_, hfull⟩
      intro batch hbatch
      exact (haccounted batch hbatch).imp_right fun h => .inr (.inr h)
    obtain ⟨m, _, head, _, hbody⟩ := Loop.exists_head_of_after_leave hleave
    obtain ⟨rfl, _⟩ | hdrops | ⟨_, _, _, rfl⟩ := barrierPass_leave hbody
    · obtain ⟨hall, hfull'⟩ := barrierLoop_served hids htracks hleave
      refine ⟨?_, ?_, ?_⟩
      · intro hcreated
        cases hcreated
      · intro hloading
        cases hloading
      · intro _ batch hbatch
        obtain ⟨entry, hentry, rfl⟩ := List.mem_map.mp (hall batch hbatch)
        exact ⟨entry.2, hentry, hfull' entry hentry⟩
    · have hkept : (s.finish b exit).phase = .loading := by
        cases exit <;> first | exact hphase | cases hdrops
      refine ⟨?_, ?_, ?_⟩
      · intro hcreated
        cases hkept.symm.trans hcreated
      · intro _ hnone
        have hlast := hnone exit (List.mem_append_right _ (List.mem_singleton_self _))
        rw [hdrops] at hlast
        cases hlast
      · intro hserving
        cases hkept.symm.trans hserving
    · refine ⟨?_, ?_, ?_⟩
      · intro hcreated
        cases hcreated
      · intro hloading
        cases hloading
      · intro hserving
        cases hserving

theorem barrier_enqueued (s : Scheduler τ) : (schedule.barrier s).1.enqueued = s.enqueued := by
  unfold Schedule.barrier
  split <;> try rfl
  split <;> rfl

theorem barrier_serving {s : Scheduler τ} (hserved : (schedule.barrier s).2 = .served) :
    (schedule.barrier s).1.phase = .serving := by
  unfold Schedule.barrier at hserved ⊢
  split at hserved
  next => cases hserved
  next => cases hserved
  next => cases hserved
  next =>
    split at hserved
    next b exit _ =>
      cases hserved
      rfl
    next => cases hserved

/-- In every life of a scheduler in which no barrier follows one that returned on
a failed submit or collect, over a transport that keeps its ids: once the phase
is serving, every request ever enqueued has landed. -/
theorem serving_allFilled {outstanding : τ → Set Nat}
    (hids : schedule.transport.KeepsIds outstanding) (t : τ) (calls : List Call)
    {s : Scheduler τ} (hmeets : schedule.machine.Meets NoSecondBarrier (.new t) calls)
    (hrun : schedule.machine.run (.new t) calls = some s) (hserving : s.phase = .serving) :
    AllFilled s := by
  have hstep : ∀ s call next, Accounts s → NoSecondBarrier s call →
      schedule.machine.step s call = some next → Accounts next := by
    intro s call next hinv hallowed hstep
    cases call with
    | begin =>
        cases hstep
        exact begin_accounts schedule hinv
    | enqueue batch =>
        cases hstep
        exact enqueue_accounts hinv batch
    | barrier =>
        cases hstep
        exact barrier_accounts schedule hids hinv hallowed
  exact (Machine.run_invariant hstep (accounts_new t) hmeets hrun).serving hserving

end Runs

/-! ## A submit that fails once -/

/-- A transport whose first submit fails when the flag is down. Its state is the
flag and the outstanding ids; a collect reports one request complete. -/
def flakyTransport : Transport (Bool × List Nat) where
  begin t := (.ok (), t)
  submit t _ :=
    if t.1 then (.ok (t.2.sum + 1), (true, (t.2.sum + 1) :: t.2))
    else (.error "AW_IOC_SUBMIT_BATCH failed", (true, t.2))
  collect t id := (.ok ⟨true, 1⟩, (t.1, t.2.filter (· ≠ id)))

def flakySchedule : Schedule (Bool × List Nat) := ⟨flakyTransport, true, 4⟩

def oneExpert : FillBatch := ⟨0, [⟨0, 5, 0, 2048, 4096⟩]⟩

/-- The barrier fails on the submit; called again, it serves with nothing filled. -/
theorem barrier_again_serves_unfilled :
    ∃ s, flakySchedule.machine.run (.new (false, []))
        [.begin, .enqueue oneExpert, .barrier, .barrier] = some s ∧
      s.exits = [.submitFailed "AW_IOC_SUBMIT_BATCH failed", .served] ∧
      s.phase = .serving ∧ s.filled = [] ∧ ¬ AllFilled s := by
  refine ⟨_, rfl, rfl, rfl, rfl, ?_⟩
  intro hall
  obtain ⟨outcome, hlanded, _⟩ := hall oneExpert (by decide)
  cases hlanded

theorem flakyTransport_keepsIds :
    flakyTransport.KeepsIds fun t => { id | id ∈ t.2 } := by
  refine ⟨fun _ => rfl, ?_, ?_, ?_⟩
  · intro t batch reason t' hsubmit
    unfold flakyTransport at hsubmit
    dsimp only at hsubmit
    split at hsubmit
    next => cases hsubmit
    next =>
      cases hsubmit
      rfl
  · intro t batch id t' hsubmit
    unfold flakyTransport at hsubmit
    dsimp only at hsubmit
    split at hsubmit
    next =>
      cases hsubmit
      refine ⟨?_, ?_⟩
      · intro hmem
        exact absurd (List.single_le_sum (fun _ _ => Nat.zero_le _) _ hmem) (Nat.not_succ_le_self _)
      · ext id
        simp
    next => cases hsubmit
  · intro t id
    ext other
    simp [flakyTransport]

theorem serving_allFilled_flaky :
    ∃ s, flakySchedule.machine.run (.new (true, [])) [.begin, .enqueue oneExpert, .barrier] =
        some s ∧ s.phase = .serving ∧ AllFilled s :=
  ⟨_, rfl, rfl, serving_allFilled flakySchedule flakyTransport_keepsIds (true, [])
    [.begin, .enqueue oneExpert, .barrier]
    ⟨trivial, fun _ h => by
      cases h
      exact ⟨trivial, fun _ h => by
        cases h
        exact ⟨fun _ hexit => absurd hexit List.not_mem_nil, fun _ _ => trivial⟩⟩⟩ rfl rfl⟩

end Arcint.Fill
