import Arcint.Native.Dispatch

/-! # Every way to dispatch computes the same outputs

A pair's outputs are sums over one row of its expert's weights for one token. No launch form makes
them depend on the other pairs, on the rows of a pass, or on the order of the work groups.
-/

namespace Arcint.Native.Kernel

open Foundation

section Modes

variable {F H : Type} (fl : KernelFloats F H) (tb : KernelTables)

/-! ## The sum of a row -/

/-- The sum of row `n` for one token. -/
def rowDot (sg : ℕ) (p : Projection H) (n N K : ℕ) (x : ℕ → H) : WeightFormat → F
  | .iq3Xxs =>
    dotToken fl sg (List.range (K / 32)) (· * 32)
      (iq3xxsProduct fl tb p.weight p.zp p.scale n N K) x
  | .iq2SPacked =>
    dotToken fl sg (blockGroups (K / 256)) blockStart
      (iq2sPackedProduct fl tb p.weight p.scale n K) x
  | .iq2S =>
    dotToken fl sg (List.range (K / 32)) (· * 32) (iq2sProduct fl tb p.weight p.zp p.scale n K) x
  | .q80 => dotToken fl sg (List.range (K / 32)) (· * 32) (q80Product fl p.weight p.scale n N K) x
  | .iq4Nl =>
    dotToken fl sg (List.range (K / 32)) (· * 32) (iq4nlProduct fl tb p.weight p.scale n N K) x

variable {fl tb} {sg n N K : ℕ} {p : Projection H} {x : ℕ → H} {xb : ℕ → ℕ} {cnt r t n0 nr : ℕ}

theorem nativeDotTile_eq (ht : t < cnt) (format : WeightFormat) :
    nativeDotTile fl tb sg p n N K x xb cnt format t =
      rowDot fl tb sg p n N K (fun k => x (xb t + k)) format := by
  cases format <;> exact dotTile_eq ht

theorem nativeDotIq3xxsRows_eq (hr : r < nr) (ht : t < cnt) :
    nativeDotIq3xxsRows fl tb sg p.weight p.zp p.scale n0 nr N K x xb cnt r t =
      rowDot fl tb sg p (n0 + r) N K (fun k => x (xb t + k)) .iq3Xxs :=
  dotRows_eq hr ht

theorem nativeDotIq4nlRows_eq (hr : r < nr) (ht : t < cnt) :
    nativeDotIq4nlRows fl tb sg p.weight p.scale n0 nr N K x xb cnt r t =
      rowDot fl tb sg p (n0 + r) N K (fun k => x (xb t + k)) .iq4Nl :=
  dotRows_eq hr ht

theorem iq2sPackedRows_eq (hr : r < nr) (ht : t < cnt) :
    iq2sPackedRows fl tb sg p.weight p.scale n0 nr K x xb cnt r t =
      rowDot fl tb sg p (n0 + r) N K (fun k => x (xb t + k)) .iq2SPacked := by
  have hproduct : iq2sPackedProduct fl tb p.weight p.scale (n0 + r) K = fun g j xv =>
      iq2sPackedProduct fl tb p.weight p.scale (n0 + r) K g j xv := rfl
  rw [iq2sPackedRows]
  dsimp only
  rw [dotRows_eq hr ht, rowDot, hproduct]
  simp only [iq2sPackedProduct, Nat.add_mul]

theorem mem_blockGroups {nblk : ℕ} {g : ℕ × ℕ} :
    g ∈ blockGroups nblk ↔ g.1 < nblk ∧ g.2 < 8 := by
  obtain ⟨ib, ib32⟩ := g
  simp [blockGroups]

theorem dotToken_congr {γ : Type} {groups : List γ} {start : γ → ℕ} {product : γ → ℕ → F → F}
    {x' : ℕ → H} (h : ∀ g ∈ groups, ∀ j < 32, x (start g + j) = x' (start g + j)) :
    dotToken fl sg groups start product x = dotToken fl sg groups start product x' := by
  refine congrArg fl.reduceAdd (List.map_congr_left fun idLocal _ => ?_)
  refine List.foldl_ext _ _ _ fun acc g hg => List.foldl_ext _ _ _ fun acc j hj => ?_
  rw [h g hg j (lt_of_mem_strided hj)]

/-- A row reads `K` activations. -/
theorem rowDot_congr {x' : ℕ → H} (h : ∀ k < K, x k = x' k) (format : WeightFormat) :
    rowDot fl tb sg p n N K x format = rowDot fl tb sg p n N K x' format := by
  have hgroup : ∀ g ∈ List.range (K / 32), ∀ j < 32, x (g * 32 + j) = x' (g * 32 + j) := by
    intro g hg j hj
    have hlt := block_lt (List.mem_range.mp hg) hj
    exact h _ (hlt.trans_le (Nat.div_mul_le_self K 32))
  cases format with
  | iq2SPacked =>
      refine dotToken_congr fun g hg j hj => h _ ?_
      obtain ⟨hib, hib32⟩ := mem_blockGroups.mp hg
      have hplace : g.2 * 32 + j < 256 := block_lt hib32 hj
      have hlt : g.1 * 256 + (g.2 * 32 + j) < K / 256 * 256 := block_lt hib hplace
      rw [blockStart, Nat.add_assoc]
      exact hlt.trans_le (Nat.div_mul_le_self K 256)
  | _ => exact dotToken_congr hgroup

/-! ## The bodies -/

section Loops

variable {α : Type} {tileM tileN nStart nEnd : ℕ} {yb : ℕ → ℕ} {w : ℕ × α}

theorem mem_rowLoop {value row : ℕ → ℕ → α} (hcnt : cnt ≤ tileM)
    (hrow : ∀ n, ∀ t < cnt, value n t = row n t) :
    w ∈ rowLoop tileM nStart nEnd yb cnt value ↔
      ∃ n, (nStart ≤ n ∧ n < nEnd) ∧ ∃ t < cnt, w = (yb t + n, row n t) := by
  simp only [rowLoop, List.mem_flatMap, List.mem_filterMap, List.mem_range, mem_strided one_pos,
    Option.ite_none_right_eq_some, Option.some.injEq]
  constructor
  · rintro ⟨n, ⟨hend, b, rfl⟩, t, -, ht, rfl⟩
    exact ⟨_, ⟨Nat.le_add_right _ _, hend⟩, t, ht, by rw [hrow _ t ht]⟩
  · rintro ⟨n, ⟨hstart, hend⟩, t, ht, rfl⟩
    refine ⟨n, ⟨hend, n - nStart, ?_⟩, t, ht.trans_le hcnt, ht, by rw [hrow n t ht]⟩
    rw [Nat.mul_one, Nat.add_sub_cancel' hstart]

/-- A pass of several rows writes what their own passes would. -/
theorem mem_rowsLoop {value : ℕ → ℕ → ℕ → ℕ → α} {row : ℕ → ℕ → α} (hpos : 0 < tileN)
    (hcnt : cnt ≤ tileM)
    (hrow : ∀ n nr, ∀ r < nr, ∀ t < cnt, value n nr r t = row (n + r) t) :
    w ∈ rowsLoop tileN tileM nStart nEnd yb cnt value ↔
      ∃ n, (nStart ≤ n ∧ n < nEnd) ∧ ∃ t < cnt, w = (yb t + n, row n t) := by
  simp only [rowsLoop, List.mem_flatMap, List.mem_filterMap, List.mem_range,
    Option.ite_none_right_eq_some, Option.some.injEq]
  constructor
  · rintro ⟨n, hn, r, hr, t, -, ⟨hleft, ht⟩, rfl⟩
    have hin := (mem_strided_min hpos).mp ⟨n, hn, r, hr, hleft, rfl⟩
    refine ⟨n + r, hin, t, ht, ?_⟩
    rw [hrow _ _ r hleft t ht, Nat.add_assoc]
  · rintro ⟨i, hin, t, ht, rfl⟩
    obtain ⟨n, hn, r, hr, hleft, rfl⟩ := (mem_strided_min hpos).mpr hin
    refine ⟨n, hn, r, hr, t, ht.trans_le hcnt, ⟨hleft, ht⟩, ?_⟩
    rw [hrow _ _ r hleft t ht, Nat.add_assoc]

end Loops

variable (fl tb)
variable (sh : KernelShape)

/-- An output of the gate and up stage, for the activations of a token. -/
def gateUpValue (gate up : Projection H) (slotIndex n : ℕ) (x : ℕ → H) : H :=
  let format := sh.guFormat.ofGateUp
  let dot (p : Projection H) : F :=
    rowDot fl tb sh.subgroupSize
      (p.ofSlot format sh.intermediateSize sh.hiddenSize sh.gateUpGroupSize slotIndex) n
      sh.intermediateSize sh.hiddenSize x format
  fl.convertHalf (fl.mul (dot up) (fl.gateAct (dot gate)))

/-- An output of the down stage, weighted. -/
def downValue (down : Projection H) (slotIndex n : ℕ) (x : ℕ → H) (routingWeight : H) : H :=
  let p := down.ofSlot sh.downFormat sh.hiddenSize sh.intermediateSize sh.downGroupSize slotIndex
  let acc := rowDot fl tb sh.subgroupSize p n sh.hiddenSize sh.intermediateSize x sh.downFormat
  fl.convertHalf (fl.mul acc (fl.convertFloat routingWeight))

variable {fl tb sh} {ts : TileShape} {gate up down : Projection H} {slotIndex gid2 : ℕ}
variable {yb rwb : ℕ → ℕ} {rw : ℕ → H} {w : ℕ × H}

theorem mem_expertGateUpNativeBody (hcnt : cnt ≤ ts.tileM) :
    w ∈ expertGateUpNativeBody fl tb sh ts gate up x slotIndex xb yb cnt gid2 ↔
      ∃ n, (gid2 * sh.nBlock ≤ n ∧
          n < min (gid2 * sh.nBlock + sh.nBlock) sh.intermediateSize) ∧
        ∃ t < cnt, w =
          (yb t + n, gateUpValue fl tb sh gate up slotIndex n fun k => x (xb t + k)) := by
  rw [expertGateUpNativeBody]
  dsimp only
  split
  next hrows =>
    refine mem_rowsLoop (Nat.zero_lt_of_lt hrows.2) hcnt fun n nr r hr t ht => ?_
    rw [nativeGuIq2sPackedRows, gateUpValue, hrows.1]
    dsimp only
    rw [iq2sPackedRows_eq hr ht, iq2sPackedRows_eq hr ht]
    rfl
  next =>
    refine mem_rowLoop hcnt fun n t ht => ?_
    rw [nativeDotTile_eq ht, nativeDotTile_eq ht]
    rfl

theorem mem_expertDownNativeBody (hcnt : cnt ≤ ts.tileM) :
    w ∈ expertDownNativeBody fl tb sh ts down x rw slotIndex xb rwb yb cnt gid2 ↔
      ∃ n, (gid2 * sh.nBlock ≤ n ∧ n < min (gid2 * sh.nBlock + sh.nBlock) sh.hiddenSize) ∧
        ∃ t < cnt, w =
          (yb t + n, downValue fl tb sh down slotIndex n (fun k => x (xb t + k)) (rw (rwb t))) := by
  rw [expertDownNativeBody]
  dsimp only
  split
  next hrows =>
    refine mem_rowsLoop (Nat.zero_lt_of_lt hrows.2) hcnt fun n nr r hr t ht => ?_
    rw [nativeDotIq3xxsRows_eq hr ht, downValue, hrows.1]
  next =>
    split
    next hrows =>
      refine mem_rowsLoop (Nat.zero_lt_of_lt hrows.2) hcnt fun n nr r hr t ht => ?_
      rw [nativeDotIq4nlRows_eq hr ht, downValue, hrows.1]
    next =>
      refine mem_rowLoop hcnt fun n t ht => ?_
      rw [nativeDotTile_eq ht, downValue]

/-! ## A launch -/

/-- The rows that the blocks of a launch cover. -/
def coveredRows (width nBlock : ℕ) : ℕ := width / nBlock * nBlock

theorem coveredRows_le (width nBlock : ℕ) : coveredRows width nBlock ≤ width :=
  Nat.div_mul_le_self width nBlock

/-- The outputs of the pairs, each at its own places, and no other place. -/
def Writes {α : Type} (dispatches : List PerExpertGpuDispatch) (width nBlock : ℕ)
    (value : PerExpertGpuDispatch → ℕ → α) (writes : List (ℕ × α)) : Prop :=
  ∀ w, w ∈ writes ↔
    ∃ d ∈ dispatches, ∃ n < coveredRows width nBlock, w = (d.flatId * width + n, value d n)

section Launch

variable {α : Type} {rows width nBlock : ℕ} {item : ℕ → ℕ → List (ℕ × α)}

theorem covered_iff {n : ℕ} :
    (∃ gid2 < width / nBlock, gid2 * nBlock ≤ n ∧ n < min (gid2 * nBlock + nBlock) width) ↔
      n < coveredRows width nBlock := by
  rw [coveredRows]
  constructor
  · rintro ⟨gid2, hgid, hstart, hend⟩
    obtain ⟨e, rfl⟩ := Nat.exists_eq_add_of_le hstart
    have he : e < nBlock := Nat.lt_of_add_lt_add_left (Nat.lt_min.mp hend).1
    exact block_lt hgid he
  · intro hlt
    obtain ⟨gid2, hgid, e, he, rfl⟩ := exists_block hlt
    refine ⟨gid2, hgid, Nat.le_add_right _ _, Nat.lt_min.mpr ⟨Nat.add_lt_add_left he _, ?_⟩⟩
    exact hlt.trans_le (Nat.div_mul_le_self width nBlock)

/-- The writes of a launch, by the tokens of its rows. -/
theorem mem_launch {cnt : ℕ → ℕ} {place : ℕ → ℕ → ℕ} {value : ℕ → ℕ → ℕ → α} {w : ℕ × α}
    (hitem : ∀ p < rows, ∀ gid2, w ∈ item p gid2 ↔
      ∃ n, (gid2 * nBlock ≤ n ∧ n < min (gid2 * nBlock + nBlock) width) ∧
        ∃ t < cnt p, w = (place p t + n, value p t n)) :
    w ∈ launch rows width nBlock item ↔
      ∃ p < rows, ∃ t < cnt p, ∃ n < coveredRows width nBlock,
        w = (place p t + n, value p t n) := by
  simp only [launch, List.mem_flatMap, List.mem_range]
  constructor
  · rintro ⟨p, hp, gid2, hgid, hw⟩
    obtain ⟨n, hn, t, ht, rfl⟩ := (hitem p hp gid2).mp hw
    exact ⟨p, hp, t, ht, n, covered_iff.mp ⟨gid2, hgid, hn⟩, rfl⟩
  · rintro ⟨p, hp, t, ht, n, hn, rfl⟩
    obtain ⟨gid2, hgid, hin⟩ := covered_iff.mpr hn
    exact ⟨p, hp, gid2, hgid, (hitem p hp gid2).mpr ⟨n, hin, t, ht, rfl⟩⟩

end Launch

/-- After a launch the outputs stand at their places, and all else is as before. -/
structure Outputs {α : Type} (dispatches : List PerExpertGpuDispatch) (width nBlock : ℕ)
    (value : PerExpertGpuDispatch → ℕ → α) (before after : ℕ → α) : Prop where
  out : ∀ d ∈ dispatches, ∀ n < coveredRows width nBlock, after (d.flatId * width + n) = value d n
  rest : ∀ i, (∀ d ∈ dispatches, ∀ n < coveredRows width nBlock, i ≠ d.flatId * width + n) →
    after i = before i

section Outputs

variable {α : Type} {d : PerExpertGpuDispatch} {rest : List PerExpertGpuDispatch}
variable {width nBlock : ℕ} {value first : PerExpertGpuDispatch → ℕ → α} {before mid after : ℕ → α}

/-- The rows of a pair that is not among those that are computed. -/
theorem Outputs.apart (h : Outputs rest width nBlock value mid after)
    (hnew : d.flatId ∉ rest.map (·.flatId)) {k : ℕ} (hk : k < width) :
    after (d.flatId * width + k) = mid (d.flatId * width + k) := by
  refine h.rest _ fun e he n hn heq => hnew ?_
  have hflat := (block_inj hk (hn.trans_le (coveredRows_le width nBlock)) heq).1
  exact hflat ▸ List.mem_map_of_mem he

/-- One pair, and then the others. -/
theorem Outputs.cons (hfirst : Outputs [d] width nBlock first before mid)
    (hrest : Outputs rest width nBlock value mid after) (hnew : d.flatId ∉ rest.map (·.flatId))
    (hvalue : ∀ n < coveredRows width nBlock, first d n = value d n) :
    Outputs (d :: rest) width nBlock value before after := by
  constructor
  · intro e he n hn
    rcases List.mem_cons.mp he with rfl | he
    · rw [hrest.apart hnew (hn.trans_le (coveredRows_le width nBlock)), ← hvalue n hn]
      exact hfirst.out _ List.mem_cons_self n hn
    · exact hrest.out e he n hn
  · intro i hi
    rw [hrest.rest i fun e he => hi e (List.mem_cons_of_mem _ he)]
    exact hfirst.rest i fun e he => hi e (List.mem_cons.mpr (.inl (List.mem_singleton.mp he)))

end Outputs

/-- In whatever order the work groups write. -/
theorem Writes.outputs {α : Type} {dispatches : List PerExpertGpuDispatch} {width nBlock : ℕ}
    {value : PerExpertGpuDispatch → ℕ → α} {writes : List (ℕ × α)} {before after : ℕ → α}
    (h : Writes dispatches width nBlock value writes)
    (hdistinct : (dispatches.map (·.flatId)).Nodup) (hlaunched : Launched writes before after) :
    Outputs dispatches width nBlock value before after := by
  obtain ⟨order, hperm, rfl⟩ := hlaunched
  constructor
  · intro d hd n hn
    refine scatter_eq ⟨_, hperm.mem_iff.mpr ((h _).mpr ⟨d, hd, n, hn, rfl⟩), rfl⟩ ?_
    intro write hwrite hplace
    obtain ⟨d', hd', n', hn', rfl⟩ := (h _).mp (hperm.mem_iff.mp hwrite)
    obtain ⟨hflat, rfl⟩ := block_inj (hn'.trans_le (coveredRows_le width nBlock))
      (hn.trans_le (coveredRows_le width nBlock)) hplace
    rw [eq_of_key_eq hdistinct hd' hd hflat]
  · intro i hi
    refine scatter_of_forall_ne fun write hwrite hplace => ?_
    obtain ⟨d, hd, n, hn, rfl⟩ := (h _).mp (hperm.mem_iff.mp hwrite)
    exact hi d hd n hn hplace.symm

/-! ## The launches of a call -/

variable (fl tb sh) (call : MoeCall H)

/-- An output of the gate and up stage. -/
def gateUpOutput (d : PerExpertGpuDispatch) (n : ℕ) : H :=
  gateUpValue fl tb sh call.gate call.up d.slotIndex n fun k =>
    call.hidden (d.flatId / call.expertsPerToken * sh.hiddenSize + k)

/-- An output of the down stage, of what the first stage left. -/
def downOutput (up : ℕ → H) (d : PerExpertGpuDispatch) (n : ℕ) : H :=
  downValue fl tb sh call.down d.slotIndex n (fun k => up (d.flatId * sh.intermediateSize + k))
    (call.routingWeights (d.flatId / call.expertsPerToken * call.maxTopk + d.topkPosition))

variable {fl tb sh call} {dispatches : List PerExpertGpuDispatch} {memory : ℕ → ℕ}
variable {scratchUp : ℕ → H}

/-- A body whose tile holds the outputs of some pairs. -/
theorem gateUp_item {pair : ℕ → PerExpertGpuDispatch} (hcnt : cnt ≤ ts.tileM)
    (hslot : ∀ t < cnt, (pair t).slotIndex = slotIndex)
    (hx : ∀ t < cnt, xb t = (pair t).flatId / call.expertsPerToken * sh.hiddenSize)
    (hy : ∀ t < cnt, yb t = (pair t).flatId * sh.intermediateSize) (w : ℕ × H) :
    w ∈ expertGateUpNativeBody fl tb sh ts call.gate call.up call.hidden slotIndex xb yb cnt gid2 ↔
      ∃ n, (gid2 * sh.nBlock ≤ n ∧
          n < min (gid2 * sh.nBlock + sh.nBlock) sh.intermediateSize) ∧
        ∃ t < cnt, w = ((pair t).flatId * sh.intermediateSize + n,
          gateUpOutput fl tb sh call (pair t) n) := by
  rw [mem_expertGateUpNativeBody hcnt]
  refine exists_congr fun n => and_congr_right fun _ => exists_congr fun t =>
    and_congr_right fun ht => ?_
  rw [hx t ht, hy t ht, gateUpOutput, hslot t ht]

theorem down_item {pair : ℕ → PerExpertGpuDispatch} (hcnt : cnt ≤ ts.tileM)
    (hslot : ∀ t < cnt, (pair t).slotIndex = slotIndex)
    (hx : ∀ t < cnt, xb t = (pair t).flatId * sh.intermediateSize)
    (hrw : ∀ t < cnt, rwb t =
      (pair t).flatId / call.expertsPerToken * call.maxTopk + (pair t).topkPosition)
    (hy : ∀ t < cnt, yb t = (pair t).flatId * sh.hiddenSize) (w : ℕ × H) :
    w ∈ expertDownNativeBody fl tb sh ts call.down scratchUp call.routingWeights slotIndex xb rwb yb
        cnt gid2 ↔
      ∃ n, (gid2 * sh.nBlock ≤ n ∧ n < min (gid2 * sh.nBlock + sh.nBlock) sh.hiddenSize) ∧
        ∃ t < cnt, w = ((pair t).flatId * sh.hiddenSize + n,
          downOutput fl tb sh call scratchUp (pair t) n) := by
  rw [mem_expertDownNativeBody hcnt]
  refine exists_congr fun n => and_congr_right fun _ => exists_congr fun t =>
    and_congr_right fun ht => ?_
  rw [hx t ht, hrw t ht, hy t ht, downOutput, hslot t ht]

/-- A launch whose rows stand for some of the pairs each. -/
theorem writes_launch {α : Type} {rows width nBlock : ℕ} {item : ℕ → ℕ → List (ℕ × α)}
    (cnt : ℕ → ℕ) (pair : ℕ → ℕ → PerExpertGpuDispatch) {value : PerExpertGpuDispatch → ℕ → α}
    (hpairs : ∀ d, d ∈ dispatches ↔ ∃ p < rows, ∃ t < cnt p, pair p t = d)
    (hitem : ∀ p < rows, ∀ gid2 w, w ∈ item p gid2 ↔
      ∃ n, (gid2 * nBlock ≤ n ∧ n < min (gid2 * nBlock + nBlock) width) ∧
        ∃ t < cnt p, w = ((pair p t).flatId * width + n, value (pair p t) n)) :
    Writes dispatches width nBlock value (launch rows width nBlock item) := by
  intro w
  rw [mem_launch fun p hp gid2 => hitem p hp gid2 w]
  constructor
  · rintro ⟨p, hp, t, ht, n, hn, rfl⟩
    exact ⟨_, (hpairs _).mpr ⟨p, hp, t, ht, rfl⟩, n, hn, rfl⟩
  · rintro ⟨d, hd, n, hn, rfl⟩
    obtain ⟨p, hp, t, ht, rfl⟩ := (hpairs d).mp hd
    exact ⟨p, hp, t, ht, n, hn, rfl⟩

/-- The down stage of a pair reads the rows of that pair. -/
theorem downOutput_congr {up up' : ℕ → H} {d : PerExpertGpuDispatch}
    (h : ∀ k < sh.intermediateSize,
      up (d.flatId * sh.intermediateSize + k) = up' (d.flatId * sh.intermediateSize + k)) (n : ℕ) :
    downOutput fl tb sh call up d n = downOutput fl tb sh call up' d n := by
  rw [downOutput, downOutput, downValue, downValue, rowDot_congr h]

section Forms

variable (hM : 1 ≤ ts.tileM)
include hM

theorem writes_expertGateUpNative (d : PerExpertGpuDispatch) :
    Writes [d] sh.intermediateSize sh.nBlock (gateUpOutput fl tb sh call)
      (launch 1 sh.intermediateSize sh.nBlock
        (expertGateUpNative fl tb sh ts call.gate call.up call.hidden d.slotIndex
          (d.flatId / call.expertsPerToken * sh.hiddenSize) (d.flatId * sh.intermediateSize))) := by
  refine writes_launch (fun _ => 1) (fun _ _ => d) (by simp [eq_comm]) fun p hp gid2 => ?_
  obtain rfl := Nat.lt_one_iff.mp hp
  apply gateUp_item hM <;> simp [single]

theorem writes_expertDownNative (d : PerExpertGpuDispatch) :
    Writes [d] sh.hiddenSize sh.nBlock (downOutput fl tb sh call scratchUp)
      (launch 1 sh.hiddenSize sh.nBlock
        (expertDownNative fl tb sh ts call.down scratchUp call.routingWeights d.slotIndex
          (d.flatId * sh.intermediateSize)
          (d.flatId / call.expertsPerToken * call.maxTopk + d.topkPosition)
          (d.flatId * sh.hiddenSize))) := by
  refine writes_launch (fun _ => 1) (fun _ _ => d) (by simp [eq_comm]) fun p hp gid2 => ?_
  obtain rfl := Nat.lt_one_iff.mp hp
  apply down_item hM <;> simp [single]

theorem writes_expertGateUpNativeBatched :
    Writes dispatches sh.intermediateSize sh.nBlock (gateUpOutput fl tb sh call)
      (launch dispatches.length sh.intermediateSize sh.nBlock
        (expertGateUpNativeBatched fl tb sh ts call.gate call.up call.hidden
          (writeTable (pairsTable dispatches) memory) call.expertsPerToken)) := by
  refine writes_launch (fun _ => 1)
    (fun p _ => pairAt (writeTable (pairsTable dispatches) memory) p) (fun _ => mem_pairAt)
    fun p _ gid2 => ?_
  apply gateUp_item hM <;> simp [single, pairAt]

theorem writes_expertDownNativeBatched :
    Writes dispatches sh.hiddenSize sh.nBlock (downOutput fl tb sh call scratchUp)
      (launch dispatches.length sh.hiddenSize sh.nBlock
        (expertDownNativeBatched fl tb sh ts call.down scratchUp call.routingWeights
          (writeTable (pairsTable dispatches) memory) call.expertsPerToken call.maxTopk)) := by
  refine writes_launch (fun _ => 1)
    (fun p _ => pairAt (writeTable (pairsTable dispatches) memory) p) (fun _ => mem_pairAt)
    fun p _ gid2 => ?_
  apply down_item hM <;> simp [single, pairAt]

theorem writes_expertGateUpNativeGrouped :
    Writes dispatches sh.intermediateSize sh.nBlock (gateUpOutput fl tb sh call)
      (launch ((tilesTable ts.tileM dispatches).length / (2 + 2 * ts.tileM)) sh.intermediateSize
        sh.nBlock (expertGateUpNativeGrouped fl tb sh ts call.gate call.up call.hidden
          (writeTable (tilesTable ts.tileM dispatches) memory) call.expertsPerToken)) := by
  refine writes_launch (tileCount ts.tileM (writeTable (tilesTable ts.tileM dispatches) memory))
    (tileMember ts.tileM (writeTable (tilesTable ts.tileM dispatches) memory))
    (fun _ => mem_tileMember hM) fun p hp gid2 => ?_
  apply gateUp_item (tileCount_bounds hM hp).2
  · exact fun t _ => rfl
  · intro t ht
    exact congrArg (· / call.expertsPerToken * sh.hiddenSize) (if_pos ht)
  · intro t ht
    exact congrArg (· * sh.intermediateSize) (if_pos ht)

theorem writes_expertDownNativeGrouped :
    Writes dispatches sh.hiddenSize sh.nBlock (downOutput fl tb sh call scratchUp)
      (launch ((tilesTable ts.tileM dispatches).length / (2 + 2 * ts.tileM)) sh.hiddenSize
        sh.nBlock (expertDownNativeGrouped fl tb sh ts call.down scratchUp call.routingWeights
          (writeTable (tilesTable ts.tileM dispatches) memory) call.expertsPerToken
          call.maxTopk)) := by
  refine writes_launch (tileCount ts.tileM (writeTable (tilesTable ts.tileM dispatches) memory))
    (tileMember ts.tileM (writeTable (tilesTable ts.tileM dispatches) memory))
    (fun _ => mem_tileMember hM) fun p hp gid2 => ?_
  apply down_item (tileCount_bounds hM hp).2
  · exact fun t _ => rfl
  · intro t ht
    exact congrArg (· * sh.intermediateSize) (if_pos ht)
  · intro t ht
    exact congrArg₂ (· / call.expertsPerToken * call.maxTopk + ·) (if_pos ht) (if_pos ht)
  · intro t ht
    exact congrArg (· * sh.hiddenSize) (if_pos ht)

/-! ## The runs of a call -/

/-- What a call leaves in the scratch buffers. -/
structure Computes (fl : KernelFloats F H) (tb : KernelTables) (sh : KernelShape)
    (call : MoeCall H) (dispatches : List PerExpertGpuDispatch) (before after : Scratch H) :
    Prop where
  up : Outputs dispatches sh.intermediateSize sh.nBlock (gateUpOutput fl tb sh call) before.up
    after.up
  y : Outputs dispatches sh.hiddenSize sh.nBlock (downOutput fl tb sh call after.up) before.y
    after.y

theorem runsPairs_computes {before after : Scratch H}
    (hdistinct : (dispatches.map (·.flatId)).Nodup)
    (hruns : RunsPairs fl tb sh ts call dispatches before after) :
    Computes fl tb sh call dispatches before after := by
  induction dispatches generalizing before with
  | nil =>
      obtain rfl := hruns
      constructor <;> constructor <;> simp
  | cons d rest ih =>
      obtain ⟨up, y, hup, hy, hrest⟩ := hruns
      rw [List.map_cons, List.nodup_cons] at hdistinct
      obtain ⟨hnew, hdistinct⟩ := hdistinct
      have hgateUp := (writes_expertGateUpNative hM d).outputs (List.nodup_singleton _) hup
      have hdown := (writes_expertDownNative hM d).outputs (List.nodup_singleton _) hy
      have hlater := ih hdistinct hrest
      constructor
      · exact hgateUp.cons hlater.up hnew fun _ _ => rfl
      · refine hdown.cons hlater.y hnew fun n _ => downOutput_congr (fun k hk => ?_) n
        exact (hlater.up.apart hnew hk).symm

theorem runs_computes {mode : DispatchMode} {before after : Scratch H}
    (hdistinct : (dispatches.map (·.flatId)).Nodup)
    (hruns : Runs fl tb sh ts call dispatches mode before after) :
    Computes fl tb sh call dispatches before after := by
  cases mode with
  | pair => exact runsPairs_computes hM hdistinct hruns
  | batched =>
      constructor
      · exact (writes_expertGateUpNativeBatched hM).outputs hdistinct hruns.1
      · exact (writes_expertDownNativeBatched hM).outputs hdistinct hruns.2
  | grouped =>
      constructor
      · exact (writes_expertGateUpNativeGrouped hM).outputs hdistinct hruns.1
      · exact (writes_expertDownNativeGrouped hM).outputs hdistinct hruns.2

end Forms

/-! ## One outcome -/

theorem Launched.of_writes {α : Type} (writes : List (ℕ × α)) (before : ℕ → α) :
    Launched writes before (scatter before writes) :=
  ⟨writes, List.Perm.refl _, rfl⟩

theorem exists_runsTable (rows : ℕ) (gateUp : ℕ → ℕ → List (ℕ × H))
    (down : (ℕ → H) → ℕ → ℕ → List (ℕ × H)) (before : Scratch H) :
    ∃ after, RunsTable sh rows gateUp down before after := by
  let up := scatter before.up (launch rows sh.intermediateSize sh.nBlock gateUp)
  let y := scatter before.y (launch rows sh.hiddenSize sh.nBlock (down up))
  exact ⟨⟨up, y⟩, Launched.of_writes _ _, Launched.of_writes _ _⟩

/-- Nothing keeps a call from running. -/
theorem exists_runs (ts : TileShape) (mode : DispatchMode) (before : Scratch H) :
    ∃ after, Runs fl tb sh ts call dispatches mode before after := by
  cases mode with
  | pair =>
      induction dispatches generalizing before with
      | nil => exact ⟨before, rfl⟩
      | cons d rest ih =>
          obtain ⟨after, hrest⟩ := ih ⟨_, _⟩
          exact ⟨after, _, _, Launched.of_writes _ _, Launched.of_writes _ _, hrest⟩
  | batched =>
      rw [Runs]
      exact exists_runsTable _ _ _ before
  | grouped =>
      rw [Runs]
      exact exists_runsTable _ _ _ before

theorem Outputs.unique {α : Type} {width nBlock : ℕ} {value : PerExpertGpuDispatch → ℕ → α}
    {before after after' : ℕ → α} (h : Outputs dispatches width nBlock value before after)
    (h' : Outputs dispatches width nBlock value before after') : after = after' := by
  funext i
  by_cases hplace : ∃ d ∈ dispatches, ∃ n < coveredRows width nBlock, i = d.flatId * width + n
  · obtain ⟨d, hd, n, hn, rfl⟩ := hplace
    rw [h.out d hd n hn, h'.out d hd n hn]
  · push Not at hplace
    rw [h.rest i hplace, h'.rest i hplace]

theorem Computes.unique {before after after' : Scratch H}
    (h : Computes fl tb sh call dispatches before after)
    (h' : Computes fl tb sh call dispatches before after') : after = after' := by
  have hup := h.up.unique h'.up
  obtain ⟨up, y⟩ := after
  obtain ⟨up', y'⟩ := after'
  dsimp only at hup
  subst hup
  exact congrArg (Scratch.mk up) (h.y.unique h'.y)

variable (fl tb sh call) in
/-- The table of tiles holds every pair once. The form of the launches, the size of a tile, the rows
of a pass and the order of the work groups change nothing: a call has one outcome, with each pair's
outputs at their places. -/
theorem dispatch_modes_agree (dispatches : List PerExpertGpuDispatch)
    (hdistinct : (dispatches.map (·.flatId)).Nodup) :
    (∀ tileM, 1 ≤ tileM →
      let table := tilesTable tileM dispatches
      let tiles := writeTable table call.dispatchPairs
      let count := table.length / (2 + 2 * tileM)
      ((List.range count).flatMap (tileMembers tileM tiles)).Perm dispatches ∧
        ∀ p < count, 1 ≤ tileCount tileM tiles p ∧ tileCount tileM tiles p ≤ tileM) ∧
    ∀ before : Scratch H, ∃ outcome, Computes fl tb sh call dispatches before outcome ∧
      ∀ ts : TileShape, 1 ≤ ts.tileM → ∀ mode : DispatchMode,
        (∃ after, Runs fl tb sh ts call dispatches mode before after) ∧
          ∀ after, Runs fl tb sh ts call dispatches mode before after → after = outcome := by
  refine ⟨fun tileM hM => ⟨?_, fun p hp => ?_⟩, fun before => ?_⟩
  · exact tilesTable_perm hM _ dispatches
  · exact tileCount_bounds hM hp
  · obtain ⟨outcome, hruns⟩ := @exists_runs F H fl tb sh call dispatches ⟨1, 1, 1⟩ .batched before
    have hcomputes := runs_computes (Nat.le_refl 1) hdistinct hruns
    refine ⟨outcome, hcomputes, fun ts hM mode => ⟨exists_runs ts mode before, fun after h => ?_⟩⟩
    exact (runs_computes hM hdistinct h).unique hcomputes

end Modes

/-! ## Five pairs -/

def integerKernelFloats : KernelFloats ℤ ℤ where
  convertFloat x := x
  convertHalf x := x
  ofInt n := n
  literal q := (4 * q).num
  add := (· + ·)
  mul := (· * ·)
  gateAct x := max x 0
  reduceAdd := List.sum
  weightRound := none

/-- Two experts, of which the second is not always chosen. -/
def fiveDispatches : List PerExpertGpuDispatch :=
  [⟨1, 0, 0⟩, ⟨0, 1, 1⟩, ⟨1, 0, 2⟩, ⟨1, 1, 5⟩, ⟨0, 0, 4⟩]

def countingProjection : Projection ℤ where
  weight i := UInt8.ofNat i
  zp i := UInt8.ofNat (3 * i)
  scale i := i % 7

def smallShape : KernelShape where
  hiddenSize := 64
  intermediateSize := 32
  gateUpGroupSize := 32
  downGroupSize := 32
  nBlock := 4
  subgroupSize := 16
  guFormat := .iq4Nl
  downFormat := .q80

def smallCall : MoeCall ℤ where
  gate := countingProjection
  up := countingProjection
  down := countingProjection
  hidden i := i
  routingWeights i := i
  dispatchPairs _ := 0
  expertsPerToken := 2
  maxTopk := 2

def countingTables : KernelTables where
  iq4nlTable code := code
  iq2xsMask m := 2 ^ m
  iq2xsSigns i := i
  iq3xxsGrid i := i
  iq2sGrid i := i

def clearedScratch : Scratch ℤ where
  up _ := 0
  y _ := 0

theorem dispatch_modes_agree_fiveDispatches :
    ∃ outcome,
      Computes integerKernelFloats countingTables smallShape smallCall fiveDispatches
        clearedScratch outcome ∧
      ∀ ts : TileShape, 1 ≤ ts.tileM → ∀ mode : DispatchMode,
        (∃ after, Runs integerKernelFloats countingTables smallShape ts smallCall fiveDispatches
          mode clearedScratch after) ∧
          ∀ after, Runs integerKernelFloats countingTables smallShape ts smallCall fiveDispatches
            mode clearedScratch after → after = outcome :=
  (dispatch_modes_agree integerKernelFloats countingTables smallShape smallCall fiveDispatches
    (by decide)).2 clearedScratch

end Arcint.Native.Kernel
