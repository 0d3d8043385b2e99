import Mathlib.Data.Finset.Card
import Mathlib.Data.List.Nodup
import Mathlib.Data.List.Dedup
import Mathlib.Data.List.TakeWhile

/-! # Recency

The keys of a trace in the order of their last accesses. A store that drops what was used least
recently holds a first part of it at every capacity, so a larger store holds what a smaller one
does, and an access hits as soon as fewer other keys than the capacity have come between.
-/

namespace Arcint.Foundation

variable {K : Type*} [DecidableEq K]

/-- The key moves to the front. -/
def touch (order : List K) (key : K) : List K := key :: order.erase key

/-- The keys of a trace, the last accessed first. -/
def recency (trace : List K) : List K := trace.foldl touch []

/-- The keys accessed since the last access to one of them. -/
def since (key : K) (past : List K) : List K := past.reverse.takeWhile (· ≠ key)

@[simp] theorem recency_append (past : List K) (key : K) :
    recency (past ++ [key]) = touch (recency past) key := by
  rw [recency, List.foldl_append]
  rfl

@[simp] theorem mem_touch {order : List K} {key a : K} :
    a ∈ touch order key ↔ a = key ∨ a ∈ order := by
  rw [touch, List.mem_cons]
  refine or_congr_right' fun hne => ?_
  exact List.mem_erase_of_ne hne

@[simp] theorem mem_recency {trace : List K} {a : K} : a ∈ recency trace ↔ a ∈ trace := by
  induction trace using List.reverseRecOn with
  | nil => exact Iff.rfl
  | append_singleton past key ih =>
      rw [recency_append, mem_touch, ih, List.mem_append, List.mem_singleton, or_comm]

theorem nodup_recency (trace : List K) : (recency trace).Nodup := by
  induction trace using List.reverseRecOn with
  | nil => exact List.nodup_nil
  | append_singleton past key ih =>
      rw [recency_append, touch, List.nodup_cons]
      exact ⟨ih.not_mem_erase, ih.erase key⟩

/-! ## A store of bounded size -/

/-- What is beyond the capacity does not matter to what is within it. -/
theorem take_touch_take (capacity : ℕ) (order : List K) (key : K) :
    (touch (order.take capacity) key).take capacity = (touch order key).take capacity := by
  cases capacity with
  | zero => rfl
  | succ n =>
      rw [touch, touch, List.take_succ_cons, List.take_succ_cons]
      refine congrArg (key :: ·) ?_
      induction order generalizing n with
      | nil => rw [List.take_nil]
      | cons a order ih =>
          rw [List.take_succ_cons]
          by_cases ha : a = key
          · subst ha
            rw [List.erase_cons_head, List.erase_cons_head, List.take_take, min_self]
          · rw [List.erase_cons_tail (by simpa using ha), List.erase_cons_tail (by simpa using ha)]
            cases n with
            | zero => rfl
            | succ n => rw [List.take_succ_cons, List.take_succ_cons, ih]

theorem take_recency_append (capacity : ℕ) (past : List K) (key : K) :
    (recency (past ++ [key])).take capacity =
      (touch ((recency past).take capacity) key).take capacity := by
  rw [recency_append, take_touch_take]

/-! ## Hits -/

theorem mem_take_iff_takeWhile {order : List K} {key : K} {capacity : ℕ} :
    key ∈ order.take capacity ↔
      key ∈ order ∧ (order.takeWhile (· ≠ key)).length < capacity := by
  induction order generalizing capacity with
  | nil => simp
  | cons a order ih =>
      cases capacity with
      | zero => simp
      | succ n =>
          by_cases ha : a = key
          · simp [ha]
          · have hne : key ≠ a := fun h => ha h.symm
            simp [ha, hne, ih]

theorem takeWhile_erase {order : List K} {key a : K} (hne : a ≠ key) :
    (order.erase a).takeWhile (· ≠ key) = (order.takeWhile (· ≠ key)).erase a := by
  induction order with
  | nil => rfl
  | cons b order ih =>
      by_cases hb : b = a
      · subst hb
        rw [List.erase_cons_head, List.takeWhile_cons_of_pos (by simpa using hne),
          List.erase_cons_head]
      · rw [List.erase_cons_tail (by simpa using hb)]
        by_cases hkey : b = key
        · subst hkey
          simp
        · rw [List.takeWhile_cons_of_pos (by simpa using hkey),
            List.takeWhile_cons_of_pos (by simpa using hkey),
            List.erase_cons_tail (by simpa using hb), ih]

/-- What stands ahead of a key is what was accessed since. -/
theorem takeWhile_recency (key : K) (past : List K) :
    ((recency past).takeWhile (· ≠ key)).toFinset = (since key past).toFinset := by
  induction past using List.reverseRecOn with
  | nil => rfl
  | append_singleton past a ih =>
      rw [recency_append, touch, since, List.reverse_append, List.reverse_singleton,
        List.singleton_append]
      by_cases ha : a = key
      · subst ha
        simp
      · rw [List.takeWhile_cons_of_pos (by simpa using ha),
          List.takeWhile_cons_of_pos (by simpa using ha), takeWhile_erase ha,
          List.toFinset_cons, List.toFinset_cons]
        rw [since] at ih
        rw [← ih]
        ext b
        by_cases hb : b = a
        · simp [hb]
        · simp [hb, List.mem_erase_of_ne]

/-- The store still holds a key when fewer others than its capacity have been accessed since. -/
theorem mem_take_recency {key : K} {past : List K} {capacity : ℕ} :
    key ∈ (recency past).take capacity ↔
      key ∈ past ∧ (since key past).toFinset.card < capacity := by
  have hnodup : ((recency past).takeWhile (· ≠ key)).Nodup :=
    (nodup_recency past).sublist (List.takeWhile_sublist _)
  rw [mem_take_iff_takeWhile, mem_recency, ← takeWhile_recency,
    List.toFinset_card_of_nodup hnodup]

theorem mem_of_mem_since {key a : K} {past : List K} (h : a ∈ since key past) : a ∈ past :=
  List.mem_reverse.mp ((List.takeWhile_sublist _).subset h)

theorem notMem_since {key : K} {past : List K} : key ∉ since key past := fun h => by
  simpa using List.mem_takeWhile_imp h

theorem card_since_lt {key : K} {past : List K} (h : key ∈ past) :
    (since key past).toFinset.card < past.toFinset.card := by
  refine Finset.card_lt_card ⟨fun a ha => ?_, fun hall => ?_⟩
  · rw [List.mem_toFinset] at ha ⊢
    exact mem_of_mem_since ha
  · exact notMem_since (List.mem_toFinset.mp (hall (List.mem_toFinset.mpr h)))

/-! ## Some of the keys -/

/-- Among the accesses of one class, what came since is the class's part of what came since. -/
theorem since_filterMap {C : Type*} (part : K → Option C) [DecidableEq C] (key : K) (c : C)
    (hpart : ∀ a, part a = some c ↔ a = key) (past : List K) :
    since c (past.filterMap part) = (since key past).filterMap part := by
  rw [since, since, ← List.filterMap_reverse]
  induction past.reverse with
  | nil => rfl
  | cons a rest ih =>
      cases ha : part a with
      | none =>
          have hne : a ≠ key := fun h => by simp [(hpart a).mpr h] at ha
          rw [List.filterMap_cons_none ha, List.takeWhile_cons_of_pos (by simpa using hne),
            List.filterMap_cons_none ha, ih]
      | some b =>
          rw [List.filterMap_cons_some ha]
          by_cases hb : b = c
          · have hkey : a = key := (hpart a).mp (hb ▸ ha)
            simp [hb, hkey]
          · have hne : a ≠ key := fun h => hb (by simpa [ha] using (hpart a).mpr h)
            rw [List.takeWhile_cons_of_pos (by simpa using hb),
              List.takeWhile_cons_of_pos (by simpa using hne), List.filterMap_cons_some ha, ih]

/-! ## Counting accesses -/

/-- How many accesses find the ones before them as asked. -/
def countWith (found : List K → K → Prop) [∀ past, DecidablePred (found past)] (trace : List K) :
    ℕ :=
  trace.zipIdx.countP fun (key, i) => found (trace.take i) key

section Counting

variable {found found' : List K → K → Prop} [∀ past, DecidablePred (found past)]
  [∀ past, DecidablePred (found' past)]

omit [DecidableEq K] in
@[simp] theorem countWith_append (past : List K) (key : K) :
    countWith found (past ++ [key]) = countWith found past + if found past key then 1 else 0 := by
  have hearlier : ∀ entry ∈ past.zipIdx,
      found ((past ++ [key]).take entry.2) entry.1 ↔ found (past.take entry.2) entry.1 := by
    intro entry hentry
    rw [List.take_append_of_le_length (List.snd_lt_of_mem_zipIdx hentry).le]
  rw [countWith, countWith, List.zipIdx_append, List.countP_append]
  congr 1
  · exact List.countP_congr fun entry hentry => by simpa using hearlier entry hentry
  · simp [List.countP_singleton]

omit [DecidableEq K] in
theorem countWith_le {trace : List K}
    (h : ∀ past key, past ++ [key] <+: trace → found past key → found' past key) :
    countWith found trace ≤ countWith found' trace := by
  refine List.countP_mono_left fun entry hentry hfound => ?_
  obtain ⟨hlt, hkey⟩ := List.getElem?_eq_some_iff.mp (List.mem_zipIdx_iff_getElem?.mp hentry)
  have hpast : trace.take entry.2 ++ [entry.1] <+: trace := by
    rw [← hkey, List.take_concat_get' trace entry.2 hlt]
    exact List.take_prefix _ _
  simpa using h _ _ hpast (by simpa using hfound)

/-- All but the first accesses to their keys have been made before. -/
theorem countWith_mem (h : ∀ past key, found past key ↔ key ∈ past) (trace : List K) :
    countWith found trace + trace.toFinset.card = trace.length := by
  induction trace using List.reverseRecOn with
  | nil => rfl
  | append_singleton past key ih =>
      rw [countWith_append, List.length_append, List.length_singleton, List.toFinset_append]
      by_cases hkey : key ∈ past
      · have hunion : past.toFinset ∪ [key].toFinset = past.toFinset := by simpa using hkey
        rw [if_pos ((h past key).mpr hkey), hunion]
        omega
      · have hunion : (past.toFinset ∪ [key].toFinset).card = past.toFinset.card + 1 := by
          rw [Finset.card_union_of_disjoint (by simpa using hkey)]
          rfl
        rw [if_neg (mt (h past key).mp hkey), hunion]
        omega

end Counting

end Arcint.Foundation
