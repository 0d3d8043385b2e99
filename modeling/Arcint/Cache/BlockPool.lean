import Mathlib.Data.List.Count
import Mathlib.Data.List.Nodup

/-! # The pool of KV pages

Pages are handed out with one reference, gain one for every holder and return to
the free list with the last. A reference to a free page and a release of one are
refused.
-/

namespace Arcint.Cache

/-- `BlockPool`. The head of `free` is the next page out. -/
structure BlockPool where
  total : Nat
  free : List Nat
  refs : Nat → Nat

namespace BlockPool

def new (total : Nat) : BlockPool := ⟨total, List.range total, fun _ => 0⟩

/-- All `n` pages or none. -/
def allocate (pool : BlockPool) (n : Nat) : Option (List Nat × BlockPool) :=
  if pool.free.length < n then none
  else
    let out := pool.free.take n
    some (out, { pool with
      free := pool.free.drop n
      refs := fun page => if page ∈ out then 1 else pool.refs page })

def refOne (pool : BlockPool) (page : Nat) : BlockPool :=
  if pool.total ≤ page ∨ pool.refs page = 0 then pool
  else { pool with refs := Function.update pool.refs page (pool.refs page + 1) }

def ref (pool : BlockPool) (blocks : List Nat) : BlockPool := blocks.foldl refOne pool

def releaseOne (pool : BlockPool) (page : Nat) : BlockPool :=
  if pool.total ≤ page ∨ pool.refs page = 0 then pool
  else { pool with
    refs := Function.update pool.refs page (pool.refs page - 1)
    free := if pool.refs page = 1 then page :: pool.free else pool.free }

def release (pool : BlockPool) (blocks : List Nat) : BlockPool := blocks.foldl releaseOne pool

/-- The free pages are distinct pages without a reference, and no page outside
the pool has one. -/
structure Sound (pool : BlockPool) : Prop where
  nodup : pool.free.Nodup
  unreferenced : ∀ page ∈ pool.free, pool.refs page = 0
  inside : ∀ page ∈ pool.free, page < pool.total
  bounded : ∀ page, pool.refs page ≠ 0 → page < pool.total

theorem new_sound (total : Nat) : (new total).Sound where
  nodup := List.nodup_range
  unreferenced _ _ := rfl
  inside _ hpage := List.mem_range.mp hpage
  bounded _ hpage := absurd rfl hpage

section Operations

variable {pool : BlockPool}

/-- What an allocation hands out: free pages, each once, now with one reference. -/
structure Allocates (pool : BlockPool) (n : Nat) (out : List Nat) (after : BlockPool) : Prop where
  length : out.length = n
  nodup : out.Nodup
  fresh : ∀ page ∈ out, pool.refs page = 0
  refs : ∀ page, after.refs page = pool.refs page + out.count page
  sound : after.Sound

theorem allocate_some (hsound : pool.Sound) {n : Nat} {out : List Nat} {after : BlockPool}
    (h : pool.allocate n = some (out, after)) : Allocates pool n out after := by
  unfold allocate at h
  split at h
  next => cases h
  next hlength =>
    cases h
    have hnodup : (pool.free.take n).Nodup := hsound.nodup.take
    have hfresh : ∀ page ∈ pool.free.take n, pool.refs page = 0 :=
      fun page hpage => hsound.unreferenced page (List.mem_of_mem_take hpage)
    refine ⟨?_, hnodup, hfresh, ?_, ?_⟩
    · simp only [List.length_take]
      omega
    · intro page
      dsimp only
      split
      next hmem => rw [hfresh page hmem, List.count_eq_one_of_mem hnodup hmem]
      next hmem => rw [List.count_eq_zero_of_not_mem hmem, Nat.add_zero]
    · refine ⟨hsound.nodup.drop, ?_, ?_, ?_⟩
      · intro page hpage
        -- a page handed out is not among those that stay
        have hdisjoint := List.disjoint_take_drop hsound.nodup (Nat.le_refl n)
        have hout : page ∉ pool.free.take n := fun hmem => hdisjoint hmem hpage
        simpa only [if_neg hout] using hsound.unreferenced page (List.mem_of_mem_drop hpage)
      · intro page hpage
        exact hsound.inside page (List.mem_of_mem_drop hpage)
      · intro page hpage
        dsimp only at hpage
        split at hpage
        next hmem => exact hsound.inside page (List.mem_of_mem_take hmem)
        next => exact hsound.bounded page hpage

theorem refOne_of_pos (hsound : pool.Sound) {page : Nat} (hpage : pool.refs page ≠ 0) :
    (pool.refOne page).Sound ∧
      ∀ other, (pool.refOne page).refs other = pool.refs other + [page].count other := by
  have hlt := hsound.bounded page hpage
  rw [refOne, if_neg (by omega)]
  refine ⟨⟨hsound.nodup, ?_, hsound.inside, ?_⟩, ?_⟩
  · intro other hother
    have hne : other ≠ page := by
      rintro rfl
      exact hpage (hsound.unreferenced _ hother)
    simpa [hne] using hsound.unreferenced other hother
  · intro other hother
    by_cases hne : other = page
    · rw [hne]
      exact hlt
    · exact hsound.bounded other (by simpa [hne] using hother)
  · intro other
    by_cases hne : other = page
    · simp [hne]
    · simp [hne, Ne.symm hne]

/-- A reference for every listed page, when each is held by someone. -/
theorem ref_refs {blocks : List Nat} (hsound : pool.Sound)
    (hheld : ∀ page ∈ blocks, pool.refs page ≠ 0) :
    (pool.ref blocks).Sound ∧
      ∀ page, (pool.ref blocks).refs page = pool.refs page + blocks.count page := by
  induction blocks generalizing pool with
  | nil => exact ⟨hsound, fun _ => rfl⟩
  | cons head rest ih =>
      obtain ⟨hone, hrefs⟩ := refOne_of_pos hsound (hheld head List.mem_cons_self)
      obtain ⟨hrest, hall⟩ := ih hone fun page hpage => by
        rw [hrefs page]
        have := hheld page (List.mem_cons_of_mem _ hpage)
        omega
      refine ⟨hrest, ?_⟩
      intro page
      rw [ref, List.foldl_cons, ← ref, hall page, hrefs page, List.count_singleton, List.count_cons]
      omega

theorem releaseOne_of_pos (hsound : pool.Sound) {page : Nat} (hpage : pool.refs page ≠ 0) :
    (pool.releaseOne page).Sound ∧
      ∀ other, (pool.releaseOne page).refs other + [page].count other = pool.refs other := by
  have hlt := hsound.bounded page hpage
  have hnotfree : page ∉ pool.free := fun hmem => hpage (hsound.unreferenced page hmem)
  rw [releaseOne, if_neg (by omega)]
  refine ⟨⟨?_, ?_, ?_, ?_⟩, ?_⟩
  · dsimp only
    split
    next => exact List.nodup_cons.mpr ⟨hnotfree, hsound.nodup⟩
    next => exact hsound.nodup
  · intro other hother
    dsimp only at hother
    by_cases hne : other = page
    · split at hother
      next hlast => simp [hne, hlast]
      next =>
        rw [hne] at hother
        exact absurd hother hnotfree
    · have hmem : other ∈ pool.free := by
        split at hother
        next => simpa [hne] using hother
        next => exact hother
      simpa [hne] using hsound.unreferenced other hmem
  · intro other hother
    dsimp only at hother
    split at hother
    next =>
      rcases List.mem_cons.mp hother with rfl | hmem
      · exact hlt
      · exact hsound.inside other hmem
    next => exact hsound.inside other hother
  · intro other hother
    by_cases hne : other = page
    · rw [hne]
      exact hlt
    · exact hsound.bounded other (by simpa [hne] using hother)
  · intro other
    by_cases hne : other = page
    · simp [hne]
      omega
    · simp [hne, Ne.symm hne]

/-- One reference fewer for every listed page, when each listing has one. -/
theorem release_refs {blocks : List Nat} (hsound : pool.Sound)
    (hheld : ∀ page, blocks.count page ≤ pool.refs page) :
    (pool.release blocks).Sound ∧
      ∀ page, (pool.release blocks).refs page + blocks.count page = pool.refs page := by
  induction blocks generalizing pool with
  | nil => exact ⟨hsound, fun _ => rfl⟩
  | cons head rest ih =>
      have hpos : pool.refs head ≠ 0 := by
        have := hheld head
        rw [List.count_cons_self] at this
        omega
      obtain ⟨hone, hrefs⟩ := releaseOne_of_pos hsound hpos
      obtain ⟨hrest, hall⟩ := ih hone fun page => by
        have hcount := hheld page
        have hown := hrefs page
        rw [List.count_cons] at hcount
        rw [List.count_singleton] at hown
        omega
      refine ⟨hrest, ?_⟩
      intro page
      have hown := hrefs page
      have hlater := hall page
      rw [release, List.foldl_cons, ← release, List.count_cons]
      rw [List.count_singleton] at hown
      omega

end Operations

end BlockPool

end Arcint.Cache
