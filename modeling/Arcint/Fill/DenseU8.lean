import Arcint.Fill.Filler
import Arcint.Foundation.Scan
import Mathlib.Data.Rat.Lemmas
import Mathlib.Tactic.Positivity

/-! # Recovering groups from their values

A dense projection arrives as plain values, sixteen to a scale, and its codes and scales are found
again from the values alone. Every group is tried against the same candidates: its largest value
over each divisor, under either sign. The first candidate that fits is taken, and its codes are
then divided by what they share, so the scale is the coarsest there is. The rows are worked
through in chunks, which the result does not show.
-/

namespace Arcint.Fill

open Foundation

/-- Values of one scale. -/
def denseGroup : ℕ := 16

/-- The code of zero. -/
def denseZp : ℤ := 32

def qMin : ℤ := -32

def qMax : ℤ := 31

/-- A matrix of whole rows. -/
structure DenseMatrix where
  k : ℕ
  rows : List (List ℚ)
  width : ∀ row ∈ rows, row.length = k

/-- What a chunk's arrays hold of one group. -/
structure GroupSearch where
  values : List ℚ
  q : List ℤ
  s : ℚ
  done : Bool

/-- What the results hold of one group. -/
structure RecoveredGroup where
  codes : List ℕ
  scale : ℚ
  ok : Bool
  deriving DecidableEq

/-- `np.abs(values).max()`. -/
def absMax (values : List ℚ) : ℚ := (values.map abs).foldl max 0

/-- Nothing is found yet; a group of zeros needs no search. -/
def GroupSearch.start (values : List ℚ) : GroupSearch :=
  { values
    q := values.map fun _ => 0
    s := 0
    done := absMax values = 0 }

/-- Every value is a multiple of the scale, up to the tolerance and within the codes. -/
def groupFits (tol sk : ℚ) (values : List ℚ) : Bool :=
  values.all fun v =>
    |v / sk - npRound (v / sk)| ≤ tol ∧ qMin ≤ npRound (v / sk) ∧ npRound (v / sk) ≤ qMax

/-- The divisors from the largest on, each under both signs. -/
def scaleCandidates : List (ℕ × ℚ) :=
  (List.range 32).flatMap fun i => [(32 - i, 1), (32 - i, -1)]

def candidateScale (values : List ℚ) (candidate : ℕ × ℚ) : ℚ :=
  candidate.2 * absMax values / candidate.1

/-- A candidate, tried on one group. -/
def tryCandidate (tol : ℚ) (group : GroupSearch) (candidate : ℕ × ℚ) : GroupSearch :=
  let sk := candidateScale group.values candidate
  if !group.done && groupFits tol sk group.values then
    { group with q := group.values.map fun v => npRound (v / sk), s := sk, done := true }
  else group

/-- The search over a chunk. No candidate is tried once every group is done. -/
def searchChunk (tol : ℚ) (groups : List GroupSearch) : List GroupSearch :=
  scaleCandidates.foldl
    (fun groups candidate =>
      if groups.all GroupSearch.done then groups
      else groups.map fun group => tryCandidate tol group candidate)
    groups

/-- `np.gcd.reduce(np.abs(q))`. -/
def gcdReduce (q : List ℤ) : ℕ := (q.map Int.natAbs).foldl Nat.gcd 0

/-- The coarsest scale, and the codes as bytes. -/
def GroupSearch.canonical (group : GroupSearch) : RecoveredGroup :=
  let gcd := if gcdReduce group.q = 0 then 1 else gcdReduce group.q
  { codes := group.q.map fun c => astypeU8 (c / gcd + denseZp)
    scale := group.s * gcd
    ok := group.done }

/-- The groups of some rows. -/
def recoverChunk (tol : ℚ) (rows : List (List ℚ)) : List RecoveredGroup :=
  (searchChunk tol ((rowGroups denseGroup rows.flatten).map GroupSearch.start)).map
    GroupSearch.canonical

/-- One chunk is written to its rows; their number is a division by the groups of a row. -/
def writeChunk (tol : ℚ) (w : DenseMatrix) (rowsPerChunk : ℕ) (out : List (List RecoveredGroup))
    (r0 : ℕ) : Option (List (List RecoveredGroup)) :=
  let g := w.k / denseGroup
  if g = 0 then none
  else some (splice out r0 (rowGroups g (recoverChunk tol (slice w.rows r0 rowsPerChunk))))

/-- `recover_groups`; the results start as zeros. -/
def recoverGroups (w : DenseMatrix) (tol : ℚ) (rowsPerChunk : ℕ) :
    Option (List (List RecoveredGroup)) :=
  let g := w.k / denseGroup
  let zeros : RecoveredGroup :=
    { codes := List.replicate denseGroup 0, scale := 0, ok := false }
  if w.k % denseGroup ≠ 0 ∨ rowsPerChunk = 0 then none
  else
    (steps w.rows.length rowsPerChunk).foldlM (writeChunk tol w rowsPerChunk)
      (w.rows.map fun _ => List.replicate g zeros)

@[simp] theorem GroupSearch.canonical_ok (group : GroupSearch) :
    group.canonical.ok = group.done := rfl

/-! ## The search of one group -/

/-- What the search makes of one group. -/
def recoverGroup (tol : ℚ) (values : List ℚ) : RecoveredGroup :=
  (scaleCandidates.foldl (tryCandidate tol) (GroupSearch.start values)).canonical

/-- The codes stand for the values, each within the tolerance. -/
def Fitted (tol : ℚ) (values : List ℚ) (q : List ℤ) (s : ℚ) : Prop :=
  List.Forall₂ (fun v (c : ℤ) => |v - c * s| ≤ tol * |s| ∧ qMin ≤ c ∧ c ≤ qMax) values q

theorem fitted_map_iff {tol s : ℚ} {values : List ℚ} {f : ℚ → ℤ} :
    Fitted tol values (values.map f) s ↔
      ∀ v ∈ values, |v - f v * s| ≤ tol * |s| ∧ qMin ≤ f v ∧ f v ≤ qMax := by
  rw [Fitted, List.forall₂_map_right_iff, List.forall₂_same]

/-- The values are exactly these multiples of the scale. -/
structure Represents (values : List ℚ) (s : ℚ) (q : List ℤ) : Prop where
  values : values = q.map fun c : ℤ => s * c
  range : ∀ c ∈ q, qMin ≤ c ∧ c ≤ qMax

section AbsMax

variable {values : List ℚ}

theorem abs_le_absMax {v : ℚ} (hv : v ∈ values) : |v| ≤ absMax values :=
  (foldl_max_spec 0 (values.map abs)).2 |v| (List.mem_cons_of_mem _ (List.mem_map_of_mem hv))

/-- The largest value is reached, unless there is none but zero. -/
theorem exists_abs_eq_absMax (h : absMax values ≠ 0) : ∃ v ∈ values, |v| = absMax values := by
  rcases List.mem_cons.mp (foldl_max_spec 0 (values.map abs)).1 with hzero | hmem
  · exact absurd hzero h
  · exact List.mem_map.mp hmem

theorem absMax_eq_zero_iff : absMax values = 0 ↔ ∀ v ∈ values, v = 0 := by
  constructor
  · intro h v hv
    exact abs_nonpos_iff.mp (h ▸ abs_le_absMax hv)
  · intro h
    by_contra hne
    obtain ⟨v, hv, habs⟩ := exists_abs_eq_absMax hne
    rw [h v hv, abs_zero] at habs
    exact hne habs.symm

end AbsMax

section Search

variable {tol : ℚ} {group : GroupSearch} {candidate : ℕ × ℚ}

theorem tryCandidate_of_done (h : group.done = true) :
    tryCandidate tol group candidate = group := by
  simp [tryCandidate, h]

@[simp] theorem tryCandidate_values :
    (tryCandidate tol group candidate).values = group.values := by
  simp only [tryCandidate]
  split <;> rfl

/-- A candidate that fits leaves no group of these values unresolved. -/
theorem tryCandidate_done
    (hfits : groupFits tol (candidateScale group.values candidate) group.values) :
    (tryCandidate tol group candidate).done = true := by
  cases hdone : group.done with
  | true => rw [tryCandidate_of_done hdone, hdone]
  | false => simp [tryCandidate, hdone, hfits]

theorem foldl_tryCandidate_of_done (h : group.done = true) (candidates : List (ℕ × ℚ)) :
    candidates.foldl (tryCandidate tol) group = group := by
  induction candidates with
  | nil => rfl
  | cons candidate candidates ih => rw [List.foldl_cons, tryCandidate_of_done h, ih]

/-- A candidate of the list that fits, fits before the list is at its end. -/
theorem foldl_tryCandidate_done {candidates : List (ℕ × ℚ)} (hmem : candidate ∈ candidates)
    (hfits : groupFits tol (candidateScale group.values candidate) group.values) :
    (candidates.foldl (tryCandidate tol) group).done = true := by
  induction candidates generalizing group with
  | nil => cases hmem
  | cons head candidates ih =>
      rw [List.foldl_cons]
      rcases List.mem_cons.mp hmem with rfl | hmem
      · have hdone := tryCandidate_done hfits
        rw [foldl_tryCandidate_of_done hdone, hdone]
      · exact ih hmem (by simpa using hfits)

/-- The groups of a chunk are searched independently of one another. -/
theorem searchChunk_eq (groups : List GroupSearch) :
    searchChunk tol groups =
      groups.map fun group => scaleCandidates.foldl (tryCandidate tol) group := by
  unfold searchChunk
  generalize scaleCandidates = candidates
  induction candidates generalizing groups with
  | nil => simp
  | cons candidate candidates ih =>
      rw [List.foldl_cons, ih]
      split
      next hall =>
        refine List.map_congr_left fun group hgroup => ?_
        rw [List.foldl_cons, tryCandidate_of_done (List.all_eq_true.mp hall group hgroup)]
      next => rw [List.map_map]; rfl

theorem recoverChunk_eq (rows : List (List ℚ)) :
    recoverChunk tol rows = (rowGroups denseGroup rows.flatten).map (recoverGroup tol) := by
  rw [recoverChunk, searchChunk_eq, List.map_map, List.map_map]
  rfl

end Search

/-! ## Chunks of rows -/

section Chunks

variable {w : DenseMatrix} {tol : ℚ} {rowsPerChunk : ℕ}

theorem rowGroups_uniform {α : Type} {g : ℕ} (hg : 0 < g) {rows : List (List α)}
    (hrows : ∀ row ∈ rows, row.length = g) : rowGroups g rows.flatten = rows := by
  rw [rowGroups_flatten hg fun row hrow => dvd_of_eq (hrows row hrow).symm]
  have hone : ∀ row ∈ rows, rowGroups g row = [row] := by
    intro row hrow
    have hlength := hrows row hrow
    rw [rowGroups, hlength, Nat.div_self hg, List.range_one, List.map_singleton, Nat.zero_mul,
      slice, List.drop_zero, List.take_of_length_le hlength.le]
  rw [List.flatMap_congr hone, List.flatMap_singleton']

/-- A chunk's results are those of its rows. -/
theorem rowGroups_recoverChunk (hk : 0 < w.k) (hgroup : denseGroup ∣ w.k) {rows : List (List ℚ)}
    (hrows : ∀ row ∈ rows, row.length = w.k) :
    rowGroups (w.k / denseGroup) (recoverChunk tol rows) =
      rows.map fun row => (rowGroups denseGroup row).map (recoverGroup tol) := by
  have hpos : 0 < w.k / denseGroup := Nat.div_pos (Nat.le_of_dvd hk hgroup) (by decide)
  rw [recoverChunk_eq, rowGroups_flatten (by decide) fun row hrow => (hrows row hrow).symm ▸ hgroup,
    List.map_flatMap, List.flatMap_def]
  refine rowGroups_uniform hpos fun results hresults => ?_
  obtain ⟨row, hrow, rfl⟩ := List.mem_map.mp hresults
  rw [List.length_map, length_rowGroups, hrows row hrow]

/-- Row by row, and group by group. -/
theorem recoverGroups_eq (hk : 0 < w.k) (hgroup : denseGroup ∣ w.k) (hchunk : 1 ≤ rowsPerChunk) :
    recoverGroups w tol rowsPerChunk =
      some (w.rows.map fun row => (rowGroups denseGroup row).map (recoverGroup tol)) := by
  have hpos : w.k / denseGroup ≠ 0 :=
    (Nat.div_pos (Nat.le_of_dvd hk hgroup) (by decide)).ne'
  have hwrite : writeChunk tol w rowsPerChunk = fun out r0 =>
      pure (splice out r0 ((slice w.rows r0 rowsPerChunk).map fun row =>
        (rowGroups denseGroup row).map (recoverGroup tol))) := by
    funext out r0
    have hrows : ∀ row ∈ slice w.rows r0 rowsPerChunk, row.length = w.k := fun row hrow =>
      w.width row (List.mem_of_mem_drop (List.mem_of_mem_take hrow))
    simp only [writeChunk, if_neg hpos]
    rw [rowGroups_recoverChunk hk hgroup hrows]
    rfl
  simp only [recoverGroups]
  rw [if_neg (not_or.mpr ⟨not_not.mpr (Nat.mod_eq_zero_of_dvd hgroup), by omega⟩), hwrite,
    List.foldlM_pure, foldl_steps (by simp) hchunk]
  rfl

end Chunks

/-! ## What the search finds -/

theorem mem_scaleCandidates {candidate : ℕ × ℚ} :
    candidate ∈ scaleCandidates ↔
      (1 ≤ candidate.1 ∧ candidate.1 ≤ 32) ∧ (candidate.2 = 1 ∨ candidate.2 = -1) := by
  obtain ⟨kk, sign⟩ := candidate
  simp only [scaleCandidates, List.mem_flatMap, List.mem_range, List.mem_cons, List.not_mem_nil,
    or_false, Prod.mk.injEq]
  constructor
  · rintro ⟨i, hi, ⟨rfl, rfl⟩ | ⟨rfl, rfl⟩⟩ <;> simp <;> omega
  · rintro ⟨⟨hone, hle⟩, hsign⟩
    refine ⟨32 - kk, by omega, ?_⟩
    rw [Nat.sub_sub_self hle]
    exact hsign.imp (fun h => ⟨rfl, h⟩) (fun h => ⟨rfl, h⟩)

/-- A resolved group is fitted, and an unresolved one has a value other than zero. -/
structure GroupSearch.Sound (tol : ℚ) (group : GroupSearch) : Prop where
  fitted : group.done = true → Fitted tol group.values group.q group.s
  searched : group.done = false → absMax group.values ≠ 0

section Sound

variable {tol : ℚ} {values : List ℚ}

theorem start_sound (values : List ℚ) : (GroupSearch.start values).Sound tol where
  fitted hdone := by
    have hzero : absMax values = 0 := of_decide_eq_true hdone
    refine fitted_map_iff.mpr fun v hv => ?_
    rw [absMax_eq_zero_iff.mp hzero v hv]
    simp [GroupSearch.start, qMin, qMax]
  searched := of_decide_eq_false

theorem fitted_of_groupFits {sk : ℚ} (hsk : sk ≠ 0) (hfits : groupFits tol sk values = true) :
    Fitted tol values (values.map fun v => npRound (v / sk)) sk := by
  refine fitted_map_iff.mpr fun v hv => ?_
  obtain ⟨hnear, hrange⟩ := of_decide_eq_true (List.all_eq_true.mp hfits v hv)
  refine ⟨?_, hrange⟩
  have hscaled : v - npRound (v / sk) * sk = (v / sk - npRound (v / sk)) * sk := by
    rw [sub_mul, div_mul_cancel₀ _ hsk]
  rw [hscaled, abs_mul]
  exact mul_le_mul_of_nonneg_right hnear (abs_nonneg sk)

theorem tryCandidate_sound {group : GroupSearch} {candidate : ℕ × ℚ} (h : group.Sound tol)
    (hmem : candidate ∈ scaleCandidates) : (tryCandidate tol group candidate).Sound tol := by
  obtain ⟨⟨hone, -⟩, hsign⟩ := mem_scaleCandidates.mp hmem
  cases hdone : group.done with
  | true => rwa [tryCandidate_of_done hdone]
  | false =>
      have hsk : candidateScale group.values candidate ≠ 0 := by
        have hkk : (candidate.1 : ℚ) ≠ 0 :=
          Nat.cast_ne_zero.mpr (Nat.one_le_iff_ne_zero.mp hone)
        refine div_ne_zero (mul_ne_zero ?_ (h.searched hdone)) hkk
        rcases hsign with hsign | hsign <;> simp [hsign]
      simp only [tryCandidate]
      split
      next hfits =>
        rw [Bool.and_eq_true] at hfits
        exact ⟨fun _ => fitted_of_groupFits hsk hfits.2, fun hfalse => by cases hfalse⟩
      next => exact h

theorem foldl_tryCandidate_sound {group : GroupSearch} (h : group.Sound tol)
    {candidates : List (ℕ × ℚ)} (hmem : ∀ candidate ∈ candidates, candidate ∈ scaleCandidates) :
    (candidates.foldl (tryCandidate tol) group).Sound tol := by
  induction candidates generalizing group with
  | nil => exact h
  | cons candidate candidates ih =>
      exact ih (tryCandidate_sound h (hmem candidate List.mem_cons_self))
        fun other hother => hmem other (List.mem_cons_of_mem _ hother)

@[simp] theorem foldl_tryCandidate_values (group : GroupSearch) (candidates : List (ℕ × ℚ)) :
    (candidates.foldl (tryCandidate tol) group).values = group.values := by
  induction candidates generalizing group with
  | nil => rfl
  | cons candidate candidates ih => rw [List.foldl_cons, ih, tryCandidate_values]

/-- The divisor is the largest code of a representation, and the sign that of its scale. -/
theorem exists_candidate {s : ℚ} {q : List ℤ} (h : Represents values s q)
    (hne : absMax values ≠ 0) :
    ∃ candidate ∈ scaleCandidates, candidateScale values candidate = s := by
  obtain ⟨v, hv, habs⟩ := exists_abs_eq_absMax hne
  rw [h.values] at hv
  obtain ⟨c, hc, rfl⟩ := List.mem_map.mp hv
  have hs : s ≠ 0 := by
    rintro rfl
    simp [← habs] at hne
  have hc0 : c ≠ 0 := by
    rintro rfl
    simp [← habs] at hne
  have hrange := h.range c hc
  have hcast : ((c.natAbs : ℕ) : ℚ) = |(c : ℚ)| := by simp
  have hpos : |(c : ℚ)| ≠ 0 := by simpa using hc0
  refine ⟨(c.natAbs, if 0 < s then 1 else -1), mem_scaleCandidates.mpr ⟨?_, ?_⟩, ?_⟩
  · unfold qMin qMax at hrange
    dsimp only
    omega
  · dsimp only
    split <;> simp
  · simp only [candidateScale, ← habs, hcast, abs_mul]
    rw [← mul_assoc, mul_div_assoc, div_self hpos, mul_one]
    split
    next hlt => rw [abs_of_pos hlt, one_mul]
    next hge => rw [abs_of_nonpos (not_lt.mp hge), neg_one_mul, neg_neg]

/-- The multiples of a scale fit it. -/
theorem Represents.fits {s : ℚ} {q : List ℤ} (h : Represents values s q) (hs : s ≠ 0)
    (htol : 0 ≤ tol) : groupFits tol s values = true := by
  refine List.all_eq_true.mpr fun v hv => decide_eq_true ?_
  rw [h.values] at hv
  obtain ⟨c, hc, rfl⟩ := List.mem_map.mp hv
  rw [mul_div_cancel_left₀ _ hs, npRound_intCast, sub_self, abs_zero]
  exact ⟨htol, h.range c hc⟩

theorem Represents.scale_ne_zero {s : ℚ} {q : List ℤ} (h : Represents values s q)
    (hne : absMax values ≠ 0) : s ≠ 0 := by
  rintro rfl
  refine hne (absMax_eq_zero_iff.mpr fun v hv => ?_)
  rw [h.values] at hv
  obtain ⟨c, -, rfl⟩ := List.mem_map.mp hv
  exact zero_mul _

theorem recoverGroup_ok {s : ℚ} {q : List ℤ} (h : Represents values s q) (htol : 0 ≤ tol) :
    (recoverGroup tol values).ok = true := by
  rw [recoverGroup, GroupSearch.canonical_ok]
  by_cases hzero : absMax values = 0
  · have hdone : (GroupSearch.start values).done = true := decide_eq_true hzero
    rw [foldl_tryCandidate_of_done hdone, hdone]
  · obtain ⟨candidate, hmem, hscale⟩ := exists_candidate h hzero
    refine foldl_tryCandidate_done hmem ?_
    change groupFits tol (candidateScale values candidate) values = true
    rw [hscale]
    exact h.fits (h.scale_ne_zero hzero) htol

end Sound

/-! ## The coarsest scale -/

theorem dvd_gcdReduce {d : ℕ} {q : List ℤ} : d ∣ gcdReduce q ↔ ∀ c ∈ q, (d : ℤ) ∣ c := by
  have hfold : ∀ (l : List ℕ) (start : ℕ),
      d ∣ l.foldl Nat.gcd start ↔ d ∣ start ∧ ∀ n ∈ l, d ∣ n := by
    intro l
    induction l with
    | nil => simp
    | cons n l ih => simp [ih, Nat.dvd_gcd_iff, and_assoc]
  simp [gcdReduce, hfold, Int.natCast_dvd]

theorem gcdReduce_dvd {q : List ℤ} {c : ℤ} (hc : c ∈ q) : (gcdReduce q : ℤ) ∣ c :=
  dvd_gcdReduce.mp dvd_rfl c hc

/-- What the codes are divided by. -/
def sharedDivisor (q : List ℤ) : ℕ := if gcdReduce q = 0 then 1 else gcdReduce q

theorem sharedDivisor_pos (q : List ℤ) : 0 < sharedDivisor q := by
  unfold sharedDivisor
  split <;> omega

theorem sharedDivisor_dvd {q : List ℤ} {c : ℤ} (hc : c ∈ q) : (sharedDivisor q : ℤ) ∣ c := by
  unfold sharedDivisor
  split
  · exact one_dvd c
  · exact gcdReduce_dvd hc

/-- Once divided, the codes share nothing more. -/
theorem eq_one_of_dvd_quotients {q : List ℤ} {d : ℕ} (hne : ∃ c ∈ q, c ≠ 0)
    (h : ∀ c ∈ q, (d : ℤ) ∣ c / sharedDivisor q) : d = 1 := by
  have hgcd : gcdReduce q ≠ 0 := by
    obtain ⟨c, hc, hc0⟩ := hne
    intro hzero
    exact hc0 (by simpa [hzero] using gcdReduce_dvd hc)
  have hshared : sharedDivisor q = gcdReduce q := if_neg hgcd
  have hdvd : d * gcdReduce q ∣ gcdReduce q := by
    refine dvd_gcdReduce.mpr fun c hc => ?_
    have hquotient := mul_dvd_mul_right (h c hc) (gcdReduce q : ℤ)
    rwa [hshared, Int.ediv_mul_cancel (gcdReduce_dvd hc), ← Nat.cast_mul] at hquotient
  exact Nat.dvd_one.mp (Nat.dvd_of_mul_dvd_mul_right (Nat.pos_of_ne_zero hgcd)
    (by rwa [one_mul]))

section Coarsest

variable {tol s : ℚ} {values : List ℚ} {q : List ℤ}

theorem quotient_mul_scale {c : ℤ} (hc : c ∈ q) :
    ((c / sharedDivisor q : ℤ) : ℚ) * (s * sharedDivisor q) = c * s := by
  have hcancel : ((c / sharedDivisor q : ℤ) : ℚ) * sharedDivisor q = c := by
    exact_mod_cast Int.ediv_mul_cancel (sharedDivisor_dvd hc)
  rw [mul_left_comm, hcancel, mul_comm]

theorem quotient_range {c : ℤ} (hc : c ∈ q) (hrange : qMin ≤ c ∧ c ≤ qMax) :
    qMin ≤ c / sharedDivisor q ∧ c / sharedDivisor q ≤ qMax := by
  have hpos : (0 : ℤ) < sharedDivisor q := by exact_mod_cast sharedDivisor_pos q
  have hcancel := Int.ediv_mul_cancel (sharedDivisor_dvd hc)
  unfold qMin qMax at *
  constructor <;> nlinarith

/-- Dividing the codes keeps the fit, and the tolerance only grows with the scale. -/
theorem Fitted.quotients (h : Fitted tol values q s) (htol : 0 ≤ tol) :
    Fitted tol values (q.map (· / (sharedDivisor q : ℤ))) (s * sharedDivisor q) := by
  have hscale : |s| ≤ |s * sharedDivisor q| := by
    rw [abs_mul]
    exact le_mul_of_one_le_right (abs_nonneg s) (by exact_mod_cast sharedDivisor_pos q)
  obtain ⟨hlength, hfit⟩ := List.forall₂_iff_zip.mp h
  refine List.forall₂_map_right_iff.mpr (List.forall₂_iff_zip.mpr ⟨hlength, fun hvc => ?_⟩)
  have hc := (List.of_mem_zip hvc).2
  obtain ⟨hnear, hrange⟩ := hfit hvc
  rw [quotient_mul_scale hc]
  exact ⟨hnear.trans (mul_le_mul_of_nonneg_left hscale htol), quotient_range hc hrange⟩

theorem den_dvd_of_mul_eq {t : ℚ} {m n : ℤ} (h : t * m = n) : (t.den : ℤ) ∣ m := by
  have hnum : t.num * m = n * t.den := by
    have hden : t * t.den = t.num := Rat.mul_den_eq_num t
    have hprod : (t.num : ℚ) * m = n * t.den := by rw [← hden, ← h, mul_right_comm]
    exact_mod_cast hprod
  exact Int.dvd_of_dvd_mul_right_of_gcd_one ⟨n, by rw [hnum, mul_comm]⟩
    (Nat.Coprime.symm t.reduced)

/-- No representation of a group that is not zero has a larger scale: the ratio of the scales
multiplies every divided code to a whole number, so its denominator divides what they share. -/
theorem Represents.le_coarsest (h : Represents values s q) (hne : absMax values ≠ 0) {s' : ℚ}
    {q' : List ℤ} (h' : Represents values s' q') : |s'| ≤ |s * sharedDivisor q| := by
  have hs' : s' ≠ 0 := h'.scale_ne_zero hne
  obtain ⟨t, ht⟩ : ∃ t : ℚ, s * sharedDivisor q = t * s' := ⟨_, (div_mul_cancel₀ _ hs').symm⟩
  have hwhole : ∀ c ∈ q, ∃ c' : ℤ, t * ((c / sharedDivisor q : ℤ) : ℚ) = c' := by
    intro c hc
    have hvalue : s * c ∈ values := h.values ▸ List.mem_map_of_mem hc
    rw [h'.values] at hvalue
    obtain ⟨c', -, hc'⟩ := List.mem_map.mp hvalue
    refine ⟨c', mul_right_cancel₀ hs' ?_⟩
    rw [mul_right_comm, ← ht, mul_comm _ ((c / sharedDivisor q : ℤ) : ℚ), quotient_mul_scale hc,
      mul_comm (c : ℚ), ← hc', mul_comm]
  have hsome : ∃ c ∈ q, c ≠ 0 := by
    by_contra! hzero
    refine hne (absMax_eq_zero_iff.mpr fun v hv => ?_)
    rw [h.values] at hv
    obtain ⟨c, hc, rfl⟩ := List.mem_map.mp hv
    rw [hzero c hc, Int.cast_zero, mul_zero]
  have hden : t.den = 1 := by
    refine eq_one_of_dvd_quotients hsome fun c hc => ?_
    obtain ⟨c', hc'⟩ := hwhole c hc
    exact den_dvd_of_mul_eq hc'
  have ht0 : t ≠ 0 := by
    rintro rfl
    rw [zero_mul, mul_eq_zero] at ht
    rcases ht with ht | ht
    · exact h.scale_ne_zero hne ht
    · exact (sharedDivisor_pos q).ne' (by exact_mod_cast ht)
  have hone : 1 ≤ |t| := by
    have hnum : (1 : ℤ) ≤ |t.num| := Int.one_le_abs (Rat.num_ne_zero.mpr ht0)
    rw [← Rat.coe_int_num_of_den_eq_one hden]
    exact_mod_cast hnum
  rw [ht, abs_mul]
  exact le_mul_of_one_le_left (abs_nonneg s') hone

end Coarsest

/-! ## A group -/

/-- What is recovered of a group. Every group that codes and a scale of either sign represent is
found; what is found stands for the values, and without a tolerance at the coarsest scale. -/
structure Recovers (tol : ℚ) (values : List ℚ) (found : RecoveredGroup) : Prop where
  complete : ∀ s q, Represents values s q → found.ok = true
  codes : found.ok = true → ∀ c ∈ found.codes, c ≤ 63
  near : found.ok = true → List.Forall₂
    (fun v (c : ℕ) => |v - (c - denseZp) * found.scale| ≤ tol * |found.scale|) values found.codes
  exact : found.ok = true → tol = 0 → List.Forall₂
    (fun v (c : ℕ) => (c - denseZp) * found.scale = v) values found.codes
  coarsest : found.ok = true → tol = 0 → (∃ v ∈ values, v ≠ 0) →
    ∀ s q, Represents values s q → |s| ≤ |found.scale|

theorem astypeU8_dense {c : ℤ} (hrange : qMin ≤ c ∧ c ≤ qMax) :
    (astypeU8 (c + denseZp) : ℤ) = c + denseZp ∧ astypeU8 (c + denseZp) ≤ 63 := by
  unfold astypeU8 denseZp qMin qMax at *
  omega

theorem decoded_dense {c : ℤ} (hrange : qMin ≤ c ∧ c ≤ qMax) :
    ((astypeU8 (c + denseZp) : ℕ) : ℚ) - (denseZp : ℤ) = c := by
  have hcode : ((astypeU8 (c + denseZp) : ℤ) : ℚ) = (c + denseZp : ℤ) := by
    rw [(astypeU8_dense hrange).1]
  rw [Int.cast_natCast] at hcode
  rw [hcode, Int.cast_add, add_sub_cancel_right]

/-- A fit without tolerance is a representation. -/
theorem Fitted.represents {values : List ℚ} {q : List ℤ} {s : ℚ} (h : Fitted 0 values q s) :
    Represents values s q where
  values := by
    refine List.forall₂_eq_eq_eq ▸ List.forall₂_map_right_iff.mpr (h.imp ?_)
    rintro v c ⟨hnear, -⟩
    rw [zero_mul, abs_nonpos_iff, sub_eq_zero] at hnear
    rw [hnear, mul_comm]
  range c hc := by
    obtain ⟨hlength, hfit⟩ := List.forall₂_iff_zip.mp h
    obtain ⟨i, hi, rfl⟩ := List.mem_iff_getElem.mp hc
    exact (hfit (List.mem_iff_getElem.mpr
      ⟨i, by simp [hlength, hi], List.getElem_zip⟩)).2

/-- A fit, read back from the bytes. -/
theorem Fitted.bytes {tol s : ℚ} {values : List ℚ} {q : List ℤ} (h : Fitted tol values q s) :
    List.Forall₂ (fun v (c : ℕ) => |v - (c - denseZp) * s| ≤ tol * |s| ∧ c ≤ 63) values
      (q.map fun c => astypeU8 (c + denseZp)) := by
  refine List.forall₂_map_right_iff.mpr (h.imp ?_)
  rintro v c ⟨hnear, hrange⟩
  rw [decoded_dense hrange]
  exact ⟨hnear, (astypeU8_dense hrange).2⟩

theorem recoverGroup_recovers {tol : ℚ} (htol : 0 ≤ tol) (values : List ℚ) :
    Recovers tol values (recoverGroup tol values) := by
  obtain ⟨group, hgroup⟩ :
      ∃ group, group = scaleCandidates.foldl (tryCandidate tol) (GroupSearch.start values) :=
    ⟨_, rfl⟩
  have hvalues : group.values = values := by rw [hgroup, foldl_tryCandidate_values]; rfl
  have hsound : group.Sound tol :=
    hgroup ▸ foldl_tryCandidate_sound (start_sound values) fun _ hmem => hmem
  have hfound : recoverGroup tol values =
      { codes := (group.q.map (· / (sharedDivisor group.q : ℤ))).map fun c =>
          astypeU8 (c + denseZp)
        scale := group.s * sharedDivisor group.q
        ok := group.done } := by
    rw [recoverGroup, ← hgroup, List.map_map]
    rfl
  have hfitted : group.done = true → Fitted tol values group.q group.s := fun hdone =>
    hvalues ▸ hsound.fitted hdone
  have hbytes := fun hdone => ((hfitted hdone).quotients htol).bytes
  refine ⟨fun s q h => recoverGroup_ok h htol, ?_, ?_, ?_, ?_⟩ <;> rw [hfound] <;> intro hdone
  · intro c hc
    obtain ⟨hlength, hbyte⟩ := List.forall₂_iff_zip.mp (hbytes hdone)
    obtain ⟨i, hi, rfl⟩ := List.mem_iff_getElem.mp hc
    exact (hbyte (List.mem_iff_getElem.mpr
      ⟨i, by simpa [hlength] using hi, List.getElem_zip⟩)).2
  · exact (hbytes hdone).imp fun _ _ h => h.1
  · rintro rfl
    refine (hbytes hdone).imp fun v c h => ?_
    have hzero := h.1
    rw [zero_mul, abs_nonpos_iff, sub_eq_zero] at hzero
    exact hzero.symm
  · rintro rfl ⟨v, hv, hv0⟩ s q h
    exact (hfitted hdone).represents.le_coarsest
      (fun hzero => hv0 (absMax_eq_zero_iff.mp hzero v hv)) h

/-- The groups of a matrix are recovered one by one, whatever the chunks. -/
theorem recoverGroups_recovers {w : DenseMatrix} (hk : 0 < w.k) (hgroup : denseGroup ∣ w.k)
    {tol : ℚ} (htol : 0 ≤ tol) {rowsPerChunk : ℕ} (hchunk : 1 ≤ rowsPerChunk) :
    ∃ out, recoverGroups w tol rowsPerChunk = some out ∧
      (∀ other, 1 ≤ other → recoverGroups w tol other = some out) ∧
      List.Forall₂ (fun row found => List.Forall₂ (Recovers tol) (rowGroups denseGroup row) found)
        w.rows out := by
  refine ⟨_, recoverGroups_eq hk hgroup hchunk, fun other hother =>
    recoverGroups_eq hk hgroup hother, ?_⟩
  refine List.forall₂_map_right_iff.mpr (List.forall₂_same.mpr fun row _ => ?_)
  exact List.forall₂_map_right_iff.mpr (List.forall₂_same.mpr fun values _ =>
    recoverGroup_recovers htol values)

/-- A row of one group, with a scale below zero. -/
def negativeRow : DenseMatrix where
  k := 16
  rows := [[-3/2, 3, 0, 0, 0, 0, 0, 0, 0, 0, 0, 0, 0, 0, 0, 24]]
  width := by simp

theorem recoverGroups_recovers_negativeRow :
    ∃ out, recoverGroups negativeRow 0 1 = some out ∧
      (∀ other, 1 ≤ other → recoverGroups negativeRow 0 other = some out) ∧
      List.Forall₂ (fun row found => List.Forall₂ (Recovers 0) (rowGroups denseGroup row) found)
        negativeRow.rows out :=
  recoverGroups_recovers (by decide) (by decide) le_rfl le_rfl

example : recoverGroups negativeRow 0 1 =
    some [[{ codes := [33, 30, 32, 32, 32, 32, 32, 32, 32, 32, 32, 32, 32, 32, 32, 16],
             scale := -3/2, ok := true }]] := by decide +kernel

end Arcint.Fill
