import Arcint.Native.PackedDecode

/-! # What the graph states and what the card computes

The kernels take the place of the graph's chain. Without rounding, a kernel's sum over a row is the
sum over the columns of the weights that the chain decodes.
-/

namespace Arcint.Native

open Foundation Kernel

/-- Codes of four bits, sign rows of seven, grid rows of ten. Every byte is a row of the grid of
IQ3_XXS, and a packed index has ten bits. -/
def NativeParts.InRange (rows inn : ℕ) : NativeParts → Prop
  | iq4Nl codes _ => ∀ r < rows, ∀ k < inn, codes r k ≤ 15
  | iq3Xxs _ signix _ => ∀ r < rows, ∀ k < inn / 8, (signix r k).toNat < 128
  | iq2S gridix _ _ => ∀ r < rows, ∀ k < inn / 8, (gridix r k).toNat < 1024
  | _ => True

section Agreement

variable {H : Type} {value : H → ℚ} {half : ℚ → H} {act : ℚ → ℚ} {c : Projection H}
variable {e out inn expert n sg : ℕ} {node : Tensor ℚ} {x : ℕ → H}

/-- The elements of all experts lie in their rows. -/
theorem inRows_place {α : Type} {cols r k : ℕ} (a : ℕ → ℕ → α) (hk : k < cols) :
    inRows cols a (r * cols + k) = a r k := by
  rw [inRows, block_div hk, block_mod hk]

/-- The signs of a group of an expert's row. -/
theorem signs_lt {signix : ℕ → ℕ → UInt8} (hdvd : 32 ∣ inn) (hexpert : expert < e) (hn : n < out)
    (hrange : ∀ r < e * out, ∀ k < inn / 8, (signix r k).toNat < 128) {g l : ℕ}
    (hg : g < inn / 32) (hl : l < 4) :
    (inRows (inn / 8) signix (groupIndex out (inn / 32) expert n g * 4 + l)).toNat < 128 := by
  have hcols : inn / 8 = inn / 32 * 4 := by omega
  have hplace : groupIndex out (inn / 32) expert n g * 4 + l =
      (expert * out + n) * (inn / 8) + (g * 4 + l) := by
    rw [groupIndex, hcols]
    ring
  have hk : g * 4 + l < inn / 8 := hcols ▸ block_lt hg hl
  rw [hplace, inRows_place signix hk]
  exact hrange _ (block_lt hexpert hn) _ hk

/-- Groups of 32. -/
theorem rowDot_groups {product : ℕ → ℕ → ℚ → ℚ} (hdvd : 32 ∣ inn) (hsg : 0 < sg)
    (hproduct : ∀ g < inn / 32, ∀ j < 32, ∀ xv,
      product g j xv = xv * node.get [expert, n, g * 32 + j]) :
    dotToken (exactFloats value half act) sg (List.range (inn / 32)) (· * 32) product x =
      ∑ k ∈ Finset.range inn, value (x k) * node.get [expert, n, k] := by
  rw [← sum_groups inn (fun k => value (x k) * node.get [expert, n, k]) hdvd]
  exact dotToken_exact (w := fun k => node.get [expert, n, k]) hsg
    (fun g hg j hj xv => hproduct g (List.mem_range.mp hg) j hj xv) x

/-- Blocks of eight groups. -/
theorem rowDot_blocks {product : ℕ × ℕ → ℕ → ℚ → ℚ} (hdvd : 256 ∣ inn) (hsg : 0 < sg)
    (hproduct : ∀ ib < inn / 256, ∀ s < 8, ∀ j < 32, ∀ xv,
      product (ib, s) j xv = xv * node.get [expert, n, blockStart (ib, s) + j]) :
    dotToken (exactFloats value half act) sg (blockGroups (inn / 256)) blockStart product x =
      ∑ k ∈ Finset.range inn, value (x k) * node.get [expert, n, k] := by
  rw [← sum_blockGroups inn (fun k => value (x k) * node.get [expert, n, k]) hdvd]
  refine dotToken_exact (w := fun k => node.get [expert, n, k]) hsg (fun g hg j hj xv => ?_) x
  obtain ⟨hib, hs⟩ := mem_blockGroups.mp hg
  exact hproduct g.1 hib g.2 hs j hj xv

/-! ## The constants -/

theorem nativeConstants_ok {parts : NativeParts} (hdvd : blockValues parts.format ∣ inn)
    (hrange : parts.InRange (e * out) inn) (hpos : 0 < e * out * inn) :
    ∃ c, nativeConstants half e out inn parts = .ok c := by
  cases parts with
  | iq4Nl codes scales =>
      have heven : 2 ∣ e * out * inn := ((by decide : 2 ∣ 32).trans hdvd).mul_left _
      have hcodes : ∀ q ∈ (List.range (e * out * inn)).map (inRows inn codes), q ≤ 15 := by
        intro q hq
        obtain ⟨i, hi, rfl⟩ := List.mem_map.mp hq
        obtain ⟨r, hr, k, hk, rfl⟩ := exists_block (List.mem_range.mp hi)
        rw [inRows_place codes hk]
        exact hrange r hr k hk
      have hpack := Fill.packU4_eq (q := (List.range (e * out * inn)).map (inRows inn codes))
        (by simpa using Nat.mod_eq_zero_of_dvd heven) (by simpa using hpos.ne') hcodes
      simp [nativeConstants, hpack]
  | _ => exact ⟨_, rfl⟩

theorem nativeChain_shape (c : Projection H) (format : WeightFormat) :
    (nativeChain value e out inn c format).shape = [e, out, inn] := by
  cases format <;> rfl

theorem rowDot_expert {parts : NativeParts} (hdvd : blockValues parts.format ∣ inn)
    (hrange : parts.InRange (e * out) inn) (hc : nativeConstants half e out inn parts = .ok c)
    (hexpert : expert < e) (hn : n < out) (hsg : 0 < sg) :
    rowDot (exactFloats value half act) blockTables sg (expertSlot parts.format out inn expert c)
        n out inn x parts.format =
      ∑ k ∈ Finset.range inn,
        value (x k) * (nativeChain value e out inn c parts.format).get [expert, n, k] := by
  cases parts with
  | iq4Nl codes scales =>
      exact rowDot_groups hdvd hsg fun g hg j hj => iq4nlProduct_eq hdvd hexpert hn hg hj
  | iq3Xxs gridix signix scales =>
      obtain rfl := Except.ok.inj hc
      exact rowDot_groups hdvd hsg fun g hg j hj => iq3xxsProduct_eq hdvd hexpert hn hg hj
        (signs_lt hdvd hexpert hn hrange hg (by omega))
  | iq2S gridix signix scales8 =>
      exact rowDot_groups hdvd hsg fun g hg j hj => iq2sProduct_eq hdvd hexpert hn hg hj
  | q80 codes scales =>
      exact rowDot_groups hdvd hsg fun g hg j hj => q80Product_eq hdvd hexpert hn hg hj
  | iq2SPacked w80 d =>
      exact rowDot_blocks hdvd hsg fun ib hib s hs j hj =>
        iq2sPackedProduct_eq hdvd hexpert hn hib hs hj

end Agreement

/-! ## The two sides -/

/-- Of every format, the chain of the graph decodes the weights of all experts, and the kernel's sum
over a row of an expert's slot is that of the activations by these weights, whatever the subgroup
is. -/
theorem native_expert_agrees {H : Type} (value : H → ℚ) (half : ℚ → H) (act : ℚ → ℚ) (e out inn : ℕ)
    (parts : NativeParts) (hdvd : blockValues parts.format ∣ inn)
    (hrange : parts.InRange (e * out) inn) :
    (0 < e * out * inn → ∃ node, nativeExpert value e out inn half parts = .ok node) ∧
    ∀ node, nativeExpert value e out inn half parts = .ok node → node.shape = [e, out, inn] ∧
      ∃ c, nativeConstants half e out inn parts = .ok c ∧
        ∀ expert < e, ∀ n < out, ∀ sg, 0 < sg → ∀ (x : ℕ → H) (xb : ℕ → ℕ) (cnt : ℕ), ∀ t < cnt,
          nativeDotTile (exactFloats value half act) blockTables sg
              (expertSlot parts.format out inn expert c) n out inn x xb cnt parts.format t =
            ∑ k ∈ Finset.range inn, value (x (xb t + k)) * node.get [expert, n, k] := by
  refine ⟨fun hpos => ?_, fun node hnode => ?_⟩
  · obtain ⟨c, hc⟩ := nativeConstants_ok hdvd hrange hpos
    exact ⟨_, bind_ok.mpr ⟨c, hc, rfl⟩⟩
  · obtain ⟨c, hc, hchain⟩ := bind_ok.mp hnode
    obtain rfl := Except.ok.inj hchain
    refine ⟨nativeChain_shape c _, c, hc, fun expert hexpert n hn sg hsg x xb cnt t ht => ?_⟩
    rw [nativeDotTile_eq ht]
    exact rowDot_expert hdvd hrange hc hexpert hn hsg

/-- Two experts of three rows, with both halves of every group in use. -/
def twoExperts : NativeParts :=
  .iq2S (fun r k => UInt16.ofNat ((r * 37 + k * 251) % 1024)) (fun r k => UInt8.ofNat (r + 5 * k))
    fun r k => (r + k % 8 : ℕ) / 4

theorem twoExperts_inRange : twoExperts.InRange (2 * 3) 64 := by
  intro r _ k _
  have hlt : (r * 37 + k * 251) % 1024 < 1024 := Nat.mod_lt _ (by decide)
  have hnat : (UInt16.ofNat ((r * 37 + k * 251) % 1024)).toNat = (r * 37 + k * 251) % 1024 :=
    UInt16.toNat_ofNat_of_lt' (hlt.trans (by decide))
  rwa [hnat]

theorem native_expert_agrees_twoExperts :
    (0 < 2 * 3 * 64 → ∃ node, nativeExpert id 2 3 64 id twoExperts = .ok node) ∧
    ∀ node, nativeExpert id 2 3 64 id twoExperts = .ok node → node.shape = [2, 3, 64] ∧
      ∃ c, nativeConstants id 2 3 64 twoExperts = .ok c ∧
        ∀ expert < 2, ∀ n < 3, ∀ sg, 0 < sg → ∀ (x : ℕ → ℚ) (xb : ℕ → ℕ) (cnt : ℕ), ∀ t < cnt,
          nativeDotTile (exactFloats id id id) blockTables sg
              (expertSlot twoExperts.format 3 64 expert c) n 3 64 x xb cnt twoExperts.format t =
            ∑ k ∈ Finset.range 64, id (x (xb t + k)) * node.get [expert, n, k] :=
  native_expert_agrees id id id 2 3 64 twoExperts (by decide) twoExperts_inRange

end Arcint.Native
