import Mathlib.Data.Finset.Card
import Mathlib.Data.List.Nodup
import Mathlib.Logic.Relation

/-! # Worklists

A search goes through a graph by a list of nodes still to be expanded. No node is expanded twice, so
that a search over finitely many nodes ends, and it has then met exactly the nodes that a path
through expanded nodes leads to.
-/

namespace Arcint.Foundation

/-- What a search does with a node that it meets for the first time. -/
inductive Reply where
  /-- Recorded, and expanded in its turn. -/
  | through
  /-- Recorded as an end of the search. -/
  | taken
  /-- Not met again. -/
  | refused
  /-- As if it had not been met. -/
  | ignored
  deriving DecidableEq

structure Worklist (N : Type*) where
  seen : List N
  queue : List N
  passed : List N
  ends : List N

namespace Worklist

variable {N : Type*} [DecidableEq N]

/-- A search that begins at some nodes. -/
def start (starts : List N) : Worklist N := ⟨starts, starts, [], []⟩

def visit (reply : N → Reply) (w : Worklist N) (n : N) : Worklist N :=
  if n ∈ w.seen then w
  else
    match reply n with
    | .through => ⟨w.seen ++ [n], w.queue ++ [n], w.passed ++ [n], w.ends⟩
    | .taken => ⟨w.seen ++ [n], w.queue, w.passed, w.ends ++ [n]⟩
    | .refused => ⟨w.seen ++ [n], w.queue, w.passed, w.ends⟩
    | .ignored => w

/-- The search goes on from the end of its queue. -/
def run (next : N → List N) (reply : N → Reply) : ℕ → Worklist N → Worklist N
  | 0, w => w
  | fuel + 1, w =>
      match w.queue.getLast? with
      | none => w
      | some n =>
          run next reply fuel
            ((next n).foldl (visit reply) ⟨w.seen, w.queue.dropLast, w.passed, w.ends⟩)

/-- The whole queue is expanded, and what it leads to is the next queue. -/
def hop (next : N → List N) (reply : N → Reply) (w : Worklist N) : Worklist N :=
  (w.queue.flatMap next).foldl (visit reply) ⟨w.seen, [], w.passed, w.ends⟩

def hops (next : N → List N) (reply : N → Reply) : ℕ → Worklist N → Worklist N
  | 0, w => w
  | k + 1, w => if w.queue = [] then w else hops next reply k (hop next reply w)

/-! ## What meeting some nodes does -/

section Meeting

variable {reply : N → Reply}

/-- New nodes are recorded as the search replies to them. -/
def extend (reply : N → Reply) (w : Worklist N) (new : List N) : Worklist N :=
  ⟨w.seen ++ new, w.queue ++ new.filter (reply · = .through),
    w.passed ++ new.filter (reply · = .through), w.ends ++ new.filter (reply · = .taken)⟩

omit [DecidableEq N] in
@[simp] theorem extend_nil (w : Worklist N) : w.extend reply [] = w := by
  simp [extend]

omit [DecidableEq N] in
theorem extend_append (w : Worklist N) (new more : List N) :
    (w.extend reply new).extend reply more = w.extend reply (new ++ more) := by
  simp [extend]

theorem visit_of_mem {w : Worklist N} {n : N} (h : n ∈ w.seen ∨ reply n = .ignored) :
    visit reply w n = w := by
  rw [visit]
  split
  · rfl
  · next hn => rw [h.resolve_left hn]

theorem visit_of_not_mem {w : Worklist N} {n : N} (h : n ∉ w.seen) (hreply : reply n ≠ .ignored) :
    visit reply w n = w.extend reply [n] := by
  rw [visit, if_neg h]
  cases hn : reply n with
  | ignored => exact absurd hn hreply
  | _ => simp [extend, hn]

/-- The nodes of the list that are neither known nor ignored are recorded, each once. -/
theorem foldl_visit (reply : N → Reply) (nodes : List N) (w : Worklist N) :
    ∃ new : List N, nodes.foldl (visit reply) w = w.extend reply new ∧ new.Nodup ∧
      (∀ n ∈ new, n ∈ nodes ∧ n ∉ w.seen ∧ reply n ≠ .ignored) ∧
      ∀ n ∈ nodes, reply n ≠ .ignored → n ∈ w.seen ∨ n ∈ new := by
  induction nodes generalizing w with
  | nil => exact ⟨[], (extend_nil w).symm, List.nodup_nil, by simp, by simp⟩
  | cons a nodes ih =>
      rw [List.foldl_cons]
      by_cases ha : a ∈ w.seen ∨ reply a = .ignored
      · obtain ⟨new, heq, hnodup, hnew, hall⟩ := ih w
        rw [visit_of_mem ha]
        refine ⟨new, heq, hnodup,
          fun n hn => ⟨List.mem_cons_of_mem a (hnew n hn).1, (hnew n hn).2⟩, fun n hn hreply => ?_⟩
        rcases List.mem_cons.mp hn with rfl | hn
        · exact .inl (ha.resolve_right hreply)
        · exact hall n hn hreply
      · obtain ⟨hseen, hreply⟩ := not_or.mp ha
        obtain ⟨new, heq, hnodup, hnew, hall⟩ := ih (w.extend reply [a])
        have hfresh : ∀ n ∈ new, n ∉ w.seen ∧ n ≠ a := fun n hn =>
          not_or.mp fun h => (hnew n hn).2.1 (by simpa [extend] using h)
        rw [visit_of_not_mem hseen hreply]
        refine ⟨a :: new, heq.trans (extend_append w [a] new),
          List.nodup_cons.mpr ⟨fun h => (hfresh a h).2 rfl, hnodup⟩, fun n hn => ?_,
          fun n hn hn' => ?_⟩
        · rcases List.mem_cons.mp hn with rfl | hn
          · exact ⟨List.mem_cons_self, hseen, hreply⟩
          · exact ⟨List.mem_cons_of_mem a (hnew n hn).1, (hfresh n hn).1, (hnew n hn).2.2⟩
        · rcases List.mem_cons.mp hn with rfl | hn
          · exact .inr List.mem_cons_self
          · refine (hall n hn hn').elim (fun h => ?_) fun h => .inr (List.mem_cons_of_mem a h)
            rcases List.mem_append.mp h with h | h
            · exact .inl h
            · exact .inr (by rw [List.mem_singleton.mp h]; exact List.mem_cons_self)

end Meeting

/-! ## A search to its end -/

section Run

variable (next : N → List N) (reply : N → Reply) (origin : N)

/-- A path through expanded nodes leads there. -/
def Reach : N → N → Prop :=
  Relation.ReflTransGen fun a b => b ∈ next a ∧ reply b = .through

/-- What holds of a search from its start on, `rest` being what it has recorded. -/
structure Explored (rest : List N) (w : Worklist N) : Prop where
  seen_eq : w.seen = origin :: rest
  passed_eq : w.passed = rest.filter (reply · = .through)
  ends_eq : w.ends = rest.filter (reply · = .taken)
  nodup : (origin :: rest).Nodup
  met : ∀ n ∈ rest, ∃ m, Reach next reply origin m ∧ n ∈ next m
  queued : ∀ n ∈ w.queue, n ∈ origin :: rest ∧ Reach next reply origin n
  closed : ∀ m ∈ origin :: rest, m = origin ∨ reply m = .through → m ∉ w.queue →
    ∀ n ∈ next m, reply n ≠ .ignored → n ∈ origin :: rest

omit [DecidableEq N] in
theorem explored_start : Explored next reply origin [] (start [origin]) where
  seen_eq := rfl
  passed_eq := rfl
  ends_eq := rfl
  nodup := List.nodup_singleton origin
  met := by simp
  queued n hn := ⟨hn, by rw [List.mem_singleton.mp hn]; exact .refl⟩
  closed m hm _ hqueue := absurd hm hqueue

variable {next reply origin}

theorem Explored.expand {rest : List N} {w : Worklist N} {n : N}
    (h : Explored next reply origin rest w) (hn : w.queue.getLast? = some n) :
    ∃ new : List N,
      Explored next reply origin (rest ++ new)
        ((next n).foldl (visit reply) ⟨w.seen, w.queue.dropLast, w.passed, w.ends⟩) ∧
      (∀ a ∈ new, a ∈ next n ∧ a ∉ origin :: rest) ∧ new.Nodup ∧
      ((next n).foldl (visit reply)
          ⟨w.seen, w.queue.dropLast, w.passed, w.ends⟩).queue.length + 1 ≤
        w.queue.length + new.length := by
  have hqueue : w.queue = w.queue.dropLast ++ [n] :=
    (List.dropLast_append_getLast? n (by rw [hn]; rfl)).symm
  have hmem : n ∈ w.queue := by rw [hqueue]; simp
  have hreach := (h.queued n hmem).2
  obtain ⟨new, heq, hnodup, hnew, hall⟩ :=
    foldl_visit reply (next n) ⟨w.seen, w.queue.dropLast, w.passed, w.ends⟩
  simp only [h.seen_eq] at hnew hall
  refine ⟨new, ?_, fun a ha => ⟨(hnew a ha).1, (hnew a ha).2.1⟩, hnodup, ?_⟩
  · rw [heq]
    exact
      { seen_eq := by simp [extend, h.seen_eq]
        passed_eq := by simp [extend, h.passed_eq]
        ends_eq := by simp [extend, h.ends_eq]
        nodup := List.nodup_append.mpr ⟨h.nodup, hnodup, fun a ha b hb hab =>
          (hnew b hb).2.1 (hab ▸ ha)⟩
        met := fun a ha => (List.mem_append.mp ha).elim (h.met a) fun ha =>
          ⟨n, hreach, (hnew a ha).1⟩
        queued := fun a ha => by
          rcases List.mem_append.mp ha with ha | ha
          · obtain ⟨hknown, hto⟩ := h.queued a (List.mem_of_mem_dropLast ha)
            exact ⟨List.mem_append_left new hknown, hto⟩
          · obtain ⟨ha, hthrough⟩ := List.mem_filter.mp ha
            exact ⟨List.mem_append_right (origin :: rest) ha,
              hreach.tail ⟨(hnew a ha).1, of_decide_eq_true hthrough⟩⟩
        closed := fun m hm hthrough hqueued a ha hreply => by
          obtain ⟨hold, hadded⟩ := not_or.mp (mt List.mem_append.mpr hqueued)
          rcases List.mem_append.mp (show m ∈ (origin :: rest) ++ new from hm) with hm | hm
          · by_cases hmn : m = n
            · subst hmn
              exact List.mem_append.mpr (hall a ha hreply)
            · refine List.mem_append_left new (h.closed m hm hthrough ?_ a ha hreply)
              rw [hqueue, List.mem_append, List.mem_singleton]
              exact not_or.mpr ⟨hold, hmn⟩
          · refine absurd (List.mem_filter.mpr ⟨hm, decide_eq_true ?_⟩) hadded
            exact hthrough.resolve_left fun horigin =>
              (hnew m hm).2.1 (horigin ▸ List.mem_cons_self) }
  · have hlength := congrArg List.length hqueue
    have hfilter := List.length_filter_le (fun a => decide (reply a = .through)) new
    rw [List.length_append, List.length_singleton] at hlength
    rw [heq, extend, List.length_append]
    dsimp only
    omega

/-- A search over finitely many nodes comes to its end. -/
theorem Explored.run {nodes : Finset N} (hnodes : ∀ m ∈ nodes, ∀ n ∈ next m, n ∈ nodes) {fuel : ℕ}
    {rest : List N} {w : Worklist N} (h : Explored next reply origin rest w)
    (hrest : ∀ n ∈ origin :: rest, n ∈ nodes)
    (hfuel : w.queue.length + nodes.card ≤ fuel + (origin :: rest).length) :
    ∃ rest, Explored next reply origin rest (Worklist.run next reply fuel w) ∧
      (Worklist.run next reply fuel w).queue = [] := by
  induction fuel generalizing rest w with
  | zero =>
      have hcard : (origin :: rest).length ≤ nodes.card := by
        rw [← List.toFinset_card_of_nodup h.nodup]
        exact Finset.card_le_card fun n hn => hrest n (List.mem_toFinset.mp hn)
      have hzero : w.queue.length = 0 := by omega
      exact ⟨rest, h, List.length_eq_zero_iff.mp hzero⟩
  | succ fuel ih =>
      cases hlast : w.queue.getLast? with
      | none =>
          rw [show Worklist.run next reply (fuel + 1) w = w by rw [Worklist.run, hlast]]
          exact ⟨rest, h, List.getLast?_eq_none_iff.mp hlast⟩
      | some n =>
          obtain ⟨new, hexplored, hnew, -, hlength⟩ := h.expand hlast
          have hn := hrest n (h.queued n (List.mem_of_getLast? hlast)).1
          rw [show Worklist.run next reply (fuel + 1) w =
            Worklist.run next reply fuel ((next n).foldl (visit reply)
              ⟨w.seen, w.queue.dropLast, w.passed, w.ends⟩) by rw [Worklist.run, hlast]]
          refine ih hexplored (fun a ha => ?_) ?_
          · rcases List.mem_append.mp (show a ∈ (origin :: rest) ++ new from ha) with ha | ha
            · exact hrest a ha
            · exact hnodes n hn a (hnew a ha).1
          · rw [← List.cons_append, List.length_append]
            omega

omit [DecidableEq N] in
theorem Explored.finished {rest : List N} {w : Worklist N}
    (h : Explored next reply origin rest w) (hqueue : w.queue = []) :
    w.passed.Nodup ∧ w.ends.Nodup ∧
      (∀ n, n ∈ w.passed ↔ n ≠ origin ∧ Reach next reply origin n) ∧
      ∀ n, n ∈ w.ends ↔ n ≠ origin ∧ reply n = .taken ∧
        ∃ m, Reach next reply origin m ∧ n ∈ next m := by
  obtain ⟨horigin, hrest⟩ := List.nodup_cons.mp h.nodup
  have hreached : ∀ n, Reach next reply origin n →
      n ∈ origin :: rest ∧ (n = origin ∨ reply n = .through) := by
    intro n hn
    induction hn with
    | refl => exact ⟨List.mem_cons_self, .inl rfl⟩
    | tail _ hstep ih =>
        exact ⟨h.closed _ ih.1 ih.2 (by simp [hqueue]) _ hstep.1 (by simp [hstep.2]), .inr hstep.2⟩
  rw [h.passed_eq, h.ends_eq]
  refine ⟨hrest.filter _, hrest.filter _, fun n => ?_, fun n => ?_⟩
  · rw [List.mem_filter, decide_eq_true_eq]
    constructor
    · rintro ⟨hn, hthrough⟩
      obtain ⟨m, hm, hnext⟩ := h.met n hn
      exact ⟨fun heq => horigin (heq ▸ hn), hm.tail ⟨hnext, hthrough⟩⟩
    · rintro ⟨hne, hn⟩
      obtain ⟨hmem, hthrough⟩ := hreached n hn
      exact ⟨List.mem_of_ne_of_mem hne hmem, hthrough.resolve_left hne⟩
  · rw [List.mem_filter, decide_eq_true_eq]
    constructor
    · rintro ⟨hn, htaken⟩
      exact ⟨fun heq => horigin (heq ▸ hn), htaken, h.met n hn⟩
    · rintro ⟨hne, htaken, m, hm, hnext⟩
      obtain ⟨hmem, hthrough⟩ := hreached m hm
      refine ⟨List.mem_of_ne_of_mem hne ?_, htaken⟩
      exact h.closed m hmem hthrough (by simp [hqueue]) n hnext (by simp [htaken])

/-- A search over finitely many nodes ends, and meets what paths through expanded nodes lead to, and
nothing else. -/
theorem run_start (reply : N → Reply) {nodes : Finset N}
    (hnodes : ∀ m ∈ nodes, ∀ n ∈ next m, n ∈ nodes) (horigin : origin ∈ nodes) :
    (run next reply nodes.card (start [origin])).queue = [] ∧
      (run next reply nodes.card (start [origin])).passed.Nodup ∧
      (run next reply nodes.card (start [origin])).ends.Nodup ∧
      (∀ n, n ∈ (run next reply nodes.card (start [origin])).passed ↔
        n ≠ origin ∧ Reach next reply origin n) ∧
      ∀ n, n ∈ (run next reply nodes.card (start [origin])).ends ↔
        n ≠ origin ∧ reply n = .taken ∧ ∃ m, Reach next reply origin m ∧ n ∈ next m := by
  have hfuel : (start [origin]).queue.length + nodes.card ≤ nodes.card + [origin].length :=
    Nat.le_of_eq (Nat.add_comm 1 nodes.card)
  obtain ⟨rest, hexplored, hqueue⟩ :=
    (explored_start next reply origin).run hnodes (by simpa using horigin) hfuel
  exact ⟨hqueue, hexplored.finished hqueue⟩

end Run

/-! ## A bounded number of hops -/

section Hops

variable {next : N → List N}

/-- At most so many hops to nodes that pass lead there. -/
def Within (next : N → List N) (passes starts : N → Prop) : ℕ → N → Prop
  | 0, n => starts n
  | k + 1, n => Within next passes starts k n ∨
      passes n ∧ ∃ m, Within next passes starts k m ∧ n ∈ next m

variable {reply : N → Reply}

/-- What holds of a search that expands its queue as a whole, after some hops. -/
structure Level (next : N → List N) (reply : N → Reply) (starts : List N) (k : ℕ)
    (w : Worklist N) : Prop where
  seen_eq : w.seen = starts ++ w.passed
  within : ∀ n, n ∈ w.seen ↔ Within next (reply · = .through) (· ∈ starts) k n
  nodup : w.passed.Nodup
  fresh : ∀ n ∈ w.passed, n ∉ starts
  queued : ∀ n ∈ w.queue, n ∈ w.seen
  closed : ∀ m ∈ w.seen, m ∉ w.queue → ∀ n ∈ next m, reply n = .through → n ∈ w.seen

omit [DecidableEq N] in
theorem level_start (next : N → List N) (reply : N → Reply) (starts : List N) :
    Level next reply starts 0 (start starts) where
  seen_eq := (List.append_nil starts).symm
  within _ := Iff.rfl
  nodup := List.nodup_nil
  fresh := by simp [start]
  queued _ hn := hn
  closed _ hm hqueue := absurd hm hqueue

theorem Level.hop (hreply : ∀ n, reply n = .through ∨ reply n = .ignored) {starts : List N} {k : ℕ}
    {w : Worklist N} (h : Level next reply starts k w) :
    Level next reply starts (k + 1) (Worklist.hop next reply w) := by
  obtain ⟨new, heq, hnodup, hnew, hall⟩ :=
    foldl_visit reply (w.queue.flatMap next) ⟨w.seen, [], w.passed, w.ends⟩
  have hpass : ∀ n ∈ new, reply n = .through := fun n hn =>
    (hreply n).resolve_right (hnew n hn).2.2
  have hfilter : new.filter (reply · = .through) = new :=
    List.filter_eq_self.mpr fun n hn => decide_eq_true (hpass n hn)
  -- What is not in the queue leads nowhere new.
  have hclosed : ∀ m ∈ w.seen, ∀ n ∈ next m, reply n = .through → n ∈ w.seen ∨ n ∈ new := by
    intro m hm n hn hthrough
    by_cases hqueue : m ∈ w.queue
    · exact hall n (List.mem_flatMap.mpr ⟨m, hqueue, hn⟩) (by simp [hthrough])
    · exact .inl (h.closed m hm hqueue n hn hthrough)
  rw [Worklist.hop, heq, extend, hfilter]
  exact
    { seen_eq := by rw [h.seen_eq, List.append_assoc]
      within := fun n => by
        rw [List.mem_append, Within]
        constructor
        · rintro (hn | hn)
          · exact .inl ((h.within n).mp hn)
          · obtain ⟨m, hm, hnext⟩ := List.mem_flatMap.mp (hnew n hn).1
            exact .inr ⟨hpass n hn, m, (h.within m).mp (h.queued m hm), hnext⟩
        · rintro (hn | ⟨hthrough, m, hm, hnext⟩)
          · exact .inl ((h.within n).mpr hn)
          · exact hclosed m ((h.within m).mpr hm) n hnext hthrough
      nodup := List.nodup_append.mpr ⟨h.nodup, hnodup, fun a ha b hb hab =>
        (hnew b hb).2.1 (by rw [h.seen_eq, ← hab]; exact List.mem_append_right starts ha)⟩
      fresh := fun n hn => (List.mem_append.mp hn).elim (h.fresh n) fun hn hstarts =>
        (hnew n hn).2.1 (by rw [h.seen_eq]; exact List.mem_append_left w.passed hstarts)
      queued := fun n hn => List.mem_append_right w.seen (by simpa using hn)
      closed := fun m hm hqueue n hnext hthrough => by
        rcases List.mem_append.mp hm with hm | hm
        · exact List.mem_append.mpr (hclosed m hm n hnext hthrough)
        · exact absurd (List.mem_append_right [] hm) hqueue }

theorem hops_of_queue {w : Worklist N} (h : w.queue = []) (k : ℕ) : hops next reply k w = w := by
  cases k with
  | zero => rfl
  | succ k => rw [hops, if_pos h]

theorem hop_of_queue {w : Worklist N} (h : w.queue = []) : Worklist.hop next reply w = w := by
  obtain ⟨seen, queue, passed, ends⟩ := w
  obtain rfl : queue = [] := h
  rfl

theorem Level.hops (hreply : ∀ n, reply n = .through ∨ reply n = .ignored) {starts : List N}
    {j : ℕ} {w : Worklist N} (h : Level next reply starts j w) (k : ℕ) :
    Level next reply starts (j + k) (Worklist.hops next reply k w) := by
  induction k generalizing j w with
  | zero => exact h
  | succ k ih =>
      have hnext := ih (h.hop hreply)
      rw [Nat.add_assoc, Nat.add_comm 1] at hnext
      rw [Worklist.hops]
      split
      · next hqueue => rwa [hop_of_queue hqueue, hops_of_queue hqueue] at hnext
      · exact hnext

theorem hops_start (hreply : ∀ n, reply n = .through ∨ reply n = .ignored) (starts : List N)
    (k : ℕ) :
    (hops next reply k (start starts)).passed.Nodup ∧
      ∀ n, n ∈ (hops next reply k (start starts)).passed ↔
        n ∉ starts ∧ Within next (reply · = .through) (· ∈ starts) k n := by
  have h := (level_start next reply starts).hops hreply k
  rw [Nat.zero_add] at h
  refine ⟨h.nodup, fun n => ?_⟩
  rw [← h.within n, h.seen_eq, List.mem_append]
  exact ⟨fun hn => ⟨h.fresh n hn, .inr hn⟩, fun hn => hn.2.resolve_left hn.1⟩

end Hops

end Worklist

end Arcint.Foundation
