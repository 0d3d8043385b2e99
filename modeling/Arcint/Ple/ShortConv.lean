import Mathlib.Algebra.BigOperators.Group.Finset.Basic
import Mathlib.Algebra.BigOperators.Intervals
import Mathlib.Algebra.Field.Basic
import Mathlib.Tactic.Ring

/-! # The stateless short convolution

The dilated depthwise causal convolution of `q4e/ple.py`, as the serving graph
emits it: a left zero-pad of `(K - 1) * dilation` rows and one slice per tap,
whose bounds do not name the sequence length. The pad is of zeros in every
forward, so rows of an earlier forward are never seen.
-/

namespace Arcint.Ple

open Finset

/-- `Slice` with step 1: a negative bound counts from the end, and bounds are
clamped to the length. No stop is the largest `i64`, which means "to the end". -/
def ovSlice {α : Type} (xs : List α) (start : Int) (stop : Option Int) : List α :=
  let clamp (bound : Int) : Nat :=
    min (if bound < 0 then bound + xs.length else bound).toNat xs.length
  match stop with
  | none => xs.drop (clamp start)
  | some stop => (xs.take (clamp stop)).drop (clamp start)

variable {C R : Type} [CommRing R]

/-- Where tap `j` ends when the sequence length is dynamic. -/
def tapStop (K dilation j : Nat) : Option Int :=
  if j + 1 < K then some ((j * dilation : Nat) - ((K - 1) * dilation : Nat)) else none

/-- The padded input. -/
def padded (K dilation : Nat) (x : List (C → R)) : List (C → R) :=
  List.replicate ((K - 1) * dilation) (fun _ => 0) ++ x

/-- Tap `j` times its weights. -/
def term (w : C → Nat → R) (K dilation : Nat) (x : List (C → R)) (j : Nat) : List (C → R) :=
  (ovSlice (padded K dilation x) (j * dilation : Nat) (tapStop K dilation j)).map
    fun row c => row c * w c j

/-- The sum of the taps, accumulated from the first. -/
def taps (w : C → Nat → R) (K dilation : Nat) (x : List (C → R)) : List (C → R) :=
  (List.range' 1 (K - 1)).foldl
    (fun acc j => List.zipWith (fun a b => fun c => a c + b c) acc (term w K dilation x j))
    (term w K dilation x 0)

/-- `_short_conv` on the rows of one forward. -/
def shortConv (silu : R → R) (w : C → Nat → R) (K dilation : Nat) (x : List (C → R)) :
    List (C → R) :=
  (taps w K dilation x).map fun row c => silu (row c)

/-- The row `s` steps before row `t` of the same forward, or zeros. -/
def history (x : List (C → R)) (t s : Nat) : C → R :=
  if s ≤ t then (x[t - s]?).getD (fun _ => 0) else fun _ => 0

/-- Only rows up to the current one are read. -/
theorem history_append {x : List (C → R)} {t : Nat} (ht : t < x.length) (rest : List (C → R))
    (s : Nat) : history (x ++ rest) t s = history x t s := by
  unfold history
  rw [List.getElem?_append_left (Nat.lt_of_le_of_lt (Nat.sub_le t s) ht)]

/-! ## What a tap reads -/

theorem padded_length (K dilation : Nat) (x : List (C → R)) :
    (padded K dilation x).length = (K - 1) * dilation + x.length := by
  simp [padded]

/-- With a positive dilation tap `j` is as long as the input and starts at
`j * dilation`. -/
theorem slice_padded {K dilation j : Nat} (hj : j < K) (hdilation : 0 < dilation)
    (x : List (C → R)) :
    ovSlice (padded K dilation x) (j * dilation : Nat) (tapStop K dilation j) =
      ((padded K dilation x).take (j * dilation + x.length)).drop (j * dilation) := by
  have hlength := padded_length K dilation x
  have hstart : ¬ ((j * dilation : Nat) : Int) < 0 := by omega
  unfold tapStop
  split
  next hlast =>
    have hlt : j * dilation < (K - 1) * dilation :=
      Nat.mul_lt_mul_of_pos_right (by omega) hdilation
    have hneg : ((j * dilation : Nat) : Int) - ((K - 1) * dilation : Nat) < 0 := by omega
    have hstop : ((j * dilation : Nat) : Int) - ((K - 1) * dilation : Nat) +
        (padded K dilation x).length = (j * dilation + x.length : Nat) := by
      rw [hlength]
      omega
    simp only [ovSlice, if_neg hstart, if_pos hneg, hstop, Int.toNat_natCast]
    rw [Nat.min_eq_left (by omega), Nat.min_eq_left (by omega)]
  next hlast =>
    obtain rfl : j = K - 1 := by omega
    simp only [ovSlice, if_neg hstart, Int.toNat_natCast]
    rw [Nat.min_eq_left (by omega), List.take_of_length_le (by omega)]

theorem term_length {K dilation j : Nat} (hj : j < K) (hdilation : 0 < dilation)
    (w : C → Nat → R) (x : List (C → R)) : (term w K dilation x j).length = x.length := by
  have hle : j * dilation ≤ (K - 1) * dilation := Nat.mul_le_mul_right _ (by omega)
  rw [term, List.length_map, slice_padded hj hdilation, List.length_drop, List.length_take,
    padded_length]
  omega

/-- Tap `j` of row `t` reads the row `(K - 1 - j) * dilation` steps back. -/
theorem term_getElem? {K dilation j t : Nat} (hj : j < K) (hdilation : 0 < dilation)
    (w : C → Nat → R) (x : List (C → R)) (ht : t < x.length) :
    (term w K dilation x j)[t]? =
      some fun c => history x t ((K - 1 - j) * dilation) c * w c j := by
  have hsplit : j * dilation + (K - 1 - j) * dilation = (K - 1) * dilation := by
    rw [← Nat.add_mul]
    congr 1
    omega
  rw [term, slice_padded hj hdilation, List.getElem?_map, List.getElem?_drop,
    List.getElem?_take_of_lt (by omega), padded]
  unfold history
  split
  next hback =>
    rw [List.getElem?_append_right (by rw [List.length_replicate]; omega), List.length_replicate]
    have hindex : j * dilation + t - (K - 1) * dilation = t - (K - 1 - j) * dilation := by omega
    rw [hindex, List.getElem?_eq_getElem (by omega)]
    rfl
  next hback =>
    rw [List.getElem?_append_left (by rw [List.length_replicate]; omega),
      List.getElem?_replicate_of_lt (by omega)]
    rfl

/-! ## The sum of the taps -/

/-- The taps accumulated so far, row by row. -/
theorem foldl_terms_getElem? {K dilation n t : Nat} (hn : n < K) (hdilation : 0 < dilation)
    (w : C → Nat → R) (x : List (C → R)) (ht : t < x.length) :
    ((List.range' 1 n).foldl
        (fun acc j => List.zipWith (fun a b => fun c => a c + b c) acc (term w K dilation x j))
        (term w K dilation x 0))[t]? =
      some fun c => ∑ j ∈ range (n + 1), history x t ((K - 1 - j) * dilation) c * w c j := by
  induction n with
  | zero =>
      rw [List.range'_zero, List.foldl_nil, term_getElem? hn hdilation w x ht]
      simp
  | succ n ih =>
      rw [List.range'_1_concat, List.foldl_append, List.foldl_cons, List.foldl_nil,
        List.getElem?_zipWith, ih (by omega), Nat.add_comm 1 n,
        term_getElem? hn hdilation w x ht]
      simp only [Finset.sum_range_succ _ (n + 1)]

theorem foldl_terms_length {K dilation n : Nat} (hn : n < K) (hdilation : 0 < dilation)
    (w : C → Nat → R) (x : List (C → R)) :
    ((List.range' 1 n).foldl
        (fun acc j => List.zipWith (fun a b => fun c => a c + b c) acc (term w K dilation x j))
        (term w K dilation x 0)).length = x.length := by
  induction n with
  | zero => rw [List.range'_zero, List.foldl_nil, term_length hn hdilation]
  | succ n ih =>
      rw [List.range'_1_concat, List.foldl_append, List.foldl_cons, List.foldl_nil,
        List.length_zipWith, ih (by omega), Nat.add_comm 1 n, term_length hn hdilation,
        Nat.min_self]

section ShortConv

variable {K dilation : Nat} (silu : R → R) (w : C → Nat → R) (x : List (C → R))

theorem shortConv_length (hK : 0 < K) (hdilation : 0 < dilation) :
    (shortConv silu w K dilation x).length = x.length := by
  rw [shortConv, List.length_map]
  exact foldl_terms_length (Nat.sub_lt hK Nat.one_pos) hdilation w x

/-- Row `t` of the convolution: every tap within the forward, and zeros before it. -/
theorem shortConv_getElem? (hK : 0 < K) (hdilation : 0 < dilation) {t : Nat}
    (ht : t < x.length) :
    (shortConv silu w K dilation x)[t]? =
      some fun c => silu (∑ j ∈ range K, history x t ((K - 1 - j) * dilation) c * w c j) := by
  have htaps := foldl_terms_getElem? (Nat.sub_lt hK Nat.one_pos) hdilation w x ht
  rw [Nat.sub_add_cancel hK] at htaps
  rw [shortConv, List.getElem?_map, taps, htaps]
  rfl

/-- A forward with no row a dilation back, or a kernel of one tap, convolves each
row on its own. -/
theorem shortConv_eq_map (hK : 0 < K) (hdilation : 0 < dilation)
    (hshort : K = 1 ∨ x.length ≤ dilation) :
    shortConv silu w K dilation x = x.map fun row c => silu (row c * w c (K - 1)) := by
  apply List.ext_getElem?
  intro t
  rcases Nat.lt_or_ge t x.length with ht | ht
  · rw [shortConv_getElem? silu w x hK hdilation ht, List.getElem?_map,
      List.getElem?_eq_getElem ht]
    congr 1
    funext c
    have hlast : history x t ((K - 1 - (K - 1)) * dilation) c = x[t] c := by
      simp [history, ht]
    have hsum : ∑ j ∈ range K, history x t ((K - 1 - j) * dilation) c * w c j =
        history x t ((K - 1 - (K - 1)) * dilation) c * w c (K - 1) := by
      refine Finset.sum_eq_single_of_mem (K - 1) (Finset.mem_range.mpr (by omega)) ?_
      intro j hj hne
      have hlt : j < K - 1 := by
        have := Finset.mem_range.mp hj
        omega
      have hback : dilation ≤ (K - 1 - j) * dilation :=
        Nat.le_mul_of_pos_left _ (by omega)
      have hfar : ¬ (K - 1 - j) * dilation ≤ t := by omega
      rw [history, if_neg hfar, zero_mul]
    rw [hsum, hlast]
  · rw [List.getElem?_eq_none (by rw [shortConv_length silu w x hK hdilation]; exact ht),
      List.getElem?_eq_none (by rw [List.length_map]; exact ht)]

end ShortConv

end Arcint.Ple
