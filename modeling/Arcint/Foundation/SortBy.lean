import Mathlib.Data.List.Sort
import Mathlib.Data.List.Nodup
import Mathlib.Data.List.Pairwise

/-! # Lists in the order of a key

Sorting by a key that tells the members of a list apart has one result; two keys
sort a list alike exactly when one increases with the other. A concatenation of
blocks of one length is indexed by block and offset.
-/

namespace Arcint.Foundation

universe u v w

variable {α : Type u} {κ : Type v} {ι : Type w} [LinearOrder κ] [LinearOrder ι]

/-- The members in the order of their keys. -/
def sortBy (key : α → κ) (l : List α) : List α := l.insertionSort fun a b => key a ≤ key b

theorem sortBy_perm (key : α → κ) (l : List α) : (sortBy key l).Perm l :=
  List.perm_insertionSort _ l

theorem sortBy_pairwise (key : α → κ) (l : List α) :
    (sortBy key l).Pairwise fun a b => key a ≤ key b := by
  have : Std.Total fun a b : α => key a ≤ key b := ⟨fun a b => le_total (key a) (key b)⟩
  have : IsTrans α fun a b => key a ≤ key b := ⟨fun _ _ _ hab hbc => le_trans hab hbc⟩
  exact List.pairwise_insertionSort _ l

theorem filter_orderedInsert (key : α → κ) (p : α → Bool) (a : α) {l : List α}
    (hsorted : l.Pairwise fun b c => key b ≤ key c) :
    (l.orderedInsert (fun b c => key b ≤ key c) a).filter p =
      if p a then (l.filter p).orderedInsert (fun b c => key b ≤ key c) a else l.filter p := by
  induction l with
  | nil => by_cases hp : p a <;> simp [hp]
  | cons b l ih =>
      obtain ⟨hb, hl⟩ := List.pairwise_cons.mp hsorted
      by_cases hab : key a ≤ key b
      · -- the new member is in front, also of what is left of the list
        have hfront : ∀ c ∈ (b :: l).filter p, key a ≤ key c := by
          intro c hc
          rcases List.mem_cons.mp (List.mem_of_mem_filter hc) with rfl | hc
          · exact hab
          · exact hab.trans (hb c hc)
        rw [List.orderedInsert_cons, if_pos hab, List.filter_cons]
        cases hrest : (b :: l).filter p with
        | nil => rfl
        | cons c rest =>
            rw [hrest] at hfront
            rw [List.orderedInsert_cons, if_pos (hfront c List.mem_cons_self)]
      · rw [List.orderedInsert_cons, if_neg hab, List.filter_cons, List.filter_cons, ih hl]
        by_cases hpb : p b <;> by_cases hpa : p a <;> simp [hpa, hpb, hab]

/-- Members with one key stay in the order they came in. -/
theorem filter_sortBy (key : α → κ) (p : α → Bool) (l : List α) :
    (sortBy key l).filter p = sortBy key (l.filter p) := by
  induction l with
  | nil => rfl
  | cons a l ih =>
      rw [sortBy, List.insertionSort_cons, ← sortBy,
        filter_orderedInsert key p a (sortBy_pairwise key l), ih, List.filter_cons]
      split <;> rfl

/-- Keys that agree on the members. -/
theorem sortBy_congr {f g : α → κ} {l : List α} (h : ∀ a ∈ l, f a = g a) :
    sortBy f l = sortBy g l := by
  have hmap := List.map_insertionSort (fun a b => f a ≤ f b) (fun a b => g a ≤ g b) id l
    fun a ha b hb => by rw [h a ha, h b hb]; rfl
  rwa [List.map_id, List.map_id] at hmap

omit [LinearOrder κ] in
theorem eq_of_key_eq {key : α → κ} {l : List α} (hnodup : (l.map key).Nodup) {a b : α}
    (ha : a ∈ l) (hb : b ∈ l) (h : key a = key b) : a = b :=
  List.inj_on_of_nodup_map hnodup ha hb h

/-- The only sorted arrangement of a list whose keys are distinct. -/
theorem sortBy_unique {key : α → κ} {l m : List α} (hnodup : (l.map key).Nodup)
    (hperm : m.Perm l) (hsorted : m.Pairwise fun a b => key a ≤ key b) : sortBy key l = m := by
  refine List.Perm.eq_of_pairwise ?_ (sortBy_pairwise key l) hsorted
    ((sortBy_perm key l).trans hperm.symm)
  intro a b ha hb hab hba
  exact eq_of_key_eq hnodup ((sortBy_perm key l).mem_iff.mp ha) (hperm.mem_iff.mp hb)
    (le_antisymm hab hba)

/-- Two keys sort a list alike exactly when the second increases with the first. -/
theorem sortBy_eq_iff {f : α → κ} {g : α → ι} {l : List α} (hf : (l.map f).Nodup)
    (hg : (l.map g).Nodup) :
    sortBy f l = sortBy g l ↔ ∀ a ∈ l, ∀ b ∈ l, f a < f b → g a < g b := by
  constructor
  · intro heq a ha b hb hlt
    -- neither key can put the later of two members strictly first
    let Agrees (c d : α) : Prop := (f c < f d → g c ≤ g d) ∧ (f d < f c → g d ≤ g c)
    have hsymm : Std.Symm Agrees := ⟨fun _ _ h => ⟨h.2, h.1⟩⟩
    have hpairs : (sortBy f l).Pairwise Agrees := by
      have hg' := sortBy_pairwise g l
      rw [← heq] at hg'
      apply ((sortBy_pairwise f l).and hg').imp
      intro c d h
      exact ⟨fun _ => h.2, fun hdc => absurd h.1 (not_le.mpr hdc)⟩
    have hall := hpairs.forall_of_forall fun c _ =>
      ⟨fun hcc => absurd hcc (lt_irrefl _), fun hcc => absurd hcc (lt_irrefl _)⟩
    have hle : g a ≤ g b :=
      (hall ((sortBy_perm f l).mem_iff.mpr ha) ((sortBy_perm f l).mem_iff.mpr hb)).1 hlt
    apply lt_of_le_of_ne hle
    intro hkeys
    rw [eq_of_key_eq hg ha hb hkeys] at hlt
    exact lt_irrefl _ hlt
  · intro hinc
    apply sortBy_unique hf (sortBy_perm g l)
    apply (sortBy_pairwise g l).imp_of_mem
    intro a b ha hb hab
    by_contra hlt
    have := hinc b ((sortBy_perm g l).mem_iff.mp hb) a ((sortBy_perm g l).mem_iff.mp ha)
      (not_le.mp hlt)
    exact absurd hab (not_le.mpr this)

/-- The element at offset `j` of block `i`. -/
theorem getElem?_flatMap_uniform {β : Type v} {l : List α} {f : α → List β} {n : Nat}
    (hlength : ∀ a ∈ l, (f a).length = n) (i : Nat) {j : Nat} (hj : j < n) :
    (l.flatMap f)[n * i + j]? = l[i]?.bind fun a => (f a)[j]? := by
  induction l generalizing i with
  | nil => simp
  | cons a rest ih =>
      have hfirst := hlength a List.mem_cons_self
      rw [List.flatMap_cons]
      cases i with
      | zero =>
          rw [List.getElem?_append_left (by omega)]
          simp
      | succ i =>
          have hindex : n * (i + 1) + j = (f a).length + (n * i + j) := by
            rw [hfirst, Nat.mul_succ]
            omega
          rw [hindex, List.getElem?_append_right (Nat.le_add_right _ _), Nat.add_sub_cancel_left,
            List.getElem?_cons_succ]
          exact ih (fun b hb => hlength b (List.mem_cons_of_mem _ hb)) i

end Arcint.Foundation
