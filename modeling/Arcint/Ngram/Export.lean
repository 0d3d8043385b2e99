import Arcint.Ngram.Ports
import Arcint.Native.Blocks

/-! # The table that is exported

The exporter cuts the table into ports under a cap, and the graph gathers a row from every port and
keeps the one that was meant. The runtime reads the partition off the ports' shapes. The gathered
bytes are decoded in the graph, which rebuilds the scale from its fields.
-/

namespace Arcint.Ngram

open Foundation BinaryFormat
open Arcint.Text (Bytes)

/-! ## The ports -/

/-- `ngram_table_chunks`; none for what is refused. -/
def ngramTableChunks (nRows rowBytes cap align : ℕ) : Option (List ℕ) :=
  if nRows = 0 ∨ rowBytes = 0 then none
  else if nRows * rowBytes ≤ cap then some [nRows]
  else if align = 0 then none
  else
    let per := cap / rowBytes / align * align
    if per = 0 then none
    else
      let rest := nRows % per
      some (List.replicate (nRows / per) per ++ if rest ≠ 0 then [rest] else [])

/-- The ports from a number on. -/
def portsFrom (rowBytes : ℕ) : ℕ → List ℕ → List PortDims
  | _, [] => []
  | k, rows :: chunks =>
      (kTablePortPrefix ++ toString k, [Int64.ofNat rows, Int64.ofNat rowBytes]) ::
        portsFrom rowBytes (k + 1) chunks

/-- `ngram_table_ports`, of a partition. -/
def ngramTablePorts (rowBytes : ℕ) (chunks : List ℕ) : List PortDims := portsFrom rowBytes 0 chunks

/-! ## The graph -/

/-- A row of a bound port; an index that is out of range reads something. -/
def gatherRow (rowBytes : ℕ) (port : TablePort × Bytes) (idx : ℤ) : Option Bytes :=
  if 0 ≤ idx ∧ idx < port.1.rows then
    some (slice port.2 (idx.toNat * rowBytes) rowBytes)
  else none

/-- The loop over the ports: of every port a row is gathered, and that of the named one is kept. -/
def gatherPorts (rowBytes : ℕ) (chunk loc : ℤ) :
    ℕ → Option Bytes → List (TablePort × Bytes) → Option (Option Bytes)
  | _, picked, [] => some picked
  | k, picked, port :: ports => do
      let here := chunk = k
      let idx := if here then loc else 0
      let rows ← gatherRow rowBytes port idx
      let picked :=
        match picked with
        | none => rows
        | some picked => if here then rows else picked
      gatherPorts rowBytes chunk loc (k + 1) (some picked) ports

/-- `ngram_chunked_gather`, of one pair of ids: the bytes of a row. None when an index was out of
range, or there is no port. -/
def ngramChunkedGather (rowBytes : ℕ) (ports : List (TablePort × Bytes)) (ids : ℤ × ℤ) :
    Option Bytes :=
  (gatherPorts rowBytes ids.1 ids.2 0 none ports).join

/-- The power of two of an exponent; that of a subnormal is the least. -/
def powTable : List ℚ :=
  (List.range 32).map fun e : ℕ => if 0 < e then 2 ^ ((e : ℤ) - 15) else 2 ^ (-14 : ℤ)

/-- `ngram_dequant_iq4nl`, of the bytes of a row: value `k`. A conversion to an index cuts off
what is behind the point. -/
def ngramDequantIq4nl (bytes : ℕ → ℚ) (k : ℕ) : ℚ :=
  let block := k / 32 * 18
  let dLo := bytes block
  let dHi := bytes (block + 1)
  let qs (j : ℕ) := bytes (block + (2 + j))
  let hi (j : ℕ) : ℚ := ⌊qs j / 16⌋
  let lo (j : ℕ) := qs j - hi j * 16
  let nibble := if k % 32 < 16 then lo (k % 32) else hi (k % 32 - 16)
  let kv : ℤ := Native.kvaluesIq4nl.getD ⌊nibble⌋.toNat 0
  let bits := dLo + dHi * 256
  let signBit : ℚ := ⌊bits / 32768⌋
  let rest := bits - signBit * 32768
  let exp : ℚ := ⌊rest / 1024⌋
  let mant := rest - exp * 1024
  let scale := powTable.getD ⌊exp⌋.toNat 0
  let normal : ℚ := if 0 < exp then 1 else 0
  let frac := normal + mant / 1024
  let sign := 1 - signBit * 2
  let d := sign * scale * frac
  kv * d

/-! ## The partition -/

/-- The chunks of a table: all but the last are of one length, which the last does not exceed. -/
structure Chunked (per : ℕ) (chunks : List ℕ) : Prop where
  pos : ∀ rows ∈ chunks, 0 < rows
  full : ∀ (i : ℕ) rows, chunks[i]? = some rows → i + 1 < chunks.length → rows = per
  most : ∀ rows ∈ chunks, rows ≤ per
  first : chunks[0]? = some per

section Chunks

variable {nRows rowBytes cap align : ℕ} {chunks : List ℕ}

/-- What is not refused is a partition of the table into chunks that fit the cap. -/
theorem ngramTableChunks_spec (h : ngramTableChunks nRows rowBytes cap align = some chunks) :
    ∃ per, Chunked per chunks ∧ chunks.sum = nRows ∧ per * rowBytes ≤ cap ∧ 0 < rowBytes := by
  unfold ngramTableChunks at h
  dsimp only at h
  split at h
  next => cases h
  next hsize =>
    obtain ⟨hrows, hbytes⟩ := not_or.mp hsize
    have hrows : 0 < nRows := Nat.pos_of_ne_zero hrows
    have hbytes : 0 < rowBytes := Nat.pos_of_ne_zero hbytes
    split at h
    next hfits =>
      cases h
      exact ⟨nRows, ⟨by simpa using hrows, by simp, by simp, rfl⟩, by simp, hfits, hbytes⟩
    next hlarge =>
      split at h
      next => cases h
      next =>
        split at h
        next => cases h
        next hper =>
          generalize hdef : cap / rowBytes / align * align = per at h hper
          have hper : 0 < per := Nat.pos_of_ne_zero hper
          have hcap : per * rowBytes ≤ cap := by
            rw [← hdef]
            exact (Nat.mul_le_mul_right _ (Nat.div_mul_le_self _ _)).trans (Nat.div_mul_le_self _ _)
          have hmany : 0 < nRows / per := by
            refine Nat.div_pos ?_ hper
            by_contra! hless
            exact hlarge ((Nat.mul_le_mul_right _ hless.le).trans hcap)
          have hrest := Nat.mod_lt nRows hper
          cases Option.some.inj h
          refine ⟨per, ⟨?_, ?_, ?_, ?_⟩, ?_, hcap, hbytes⟩
          · intro rows hmem
            rcases List.mem_append.mp hmem with hfull | hlast
            · exact List.eq_of_mem_replicate hfull ▸ hper
            · split at hlast
              next hne => exact List.mem_singleton.mp hlast ▸ Nat.pos_of_ne_zero hne
              next => cases hlast
          · intro i rows hi hlast
            rw [List.length_append, List.length_replicate] at hlast
            have hbefore : i < nRows / per := by
              split at hlast <;> simp at hlast <;> omega
            rw [List.getElem?_append_left (by simpa using hbefore), List.getElem?_replicate,
              if_pos hbefore] at hi
            exact (Option.some.inj hi).symm
          · intro rows hmem
            rcases List.mem_append.mp hmem with hfull | hlast
            · exact (List.eq_of_mem_replicate hfull).le
            · split at hlast
              next => exact List.mem_singleton.mp hlast ▸ hrest.le
              next => cases hlast
          · rw [List.getElem?_append_left (by simpa using hmany), List.getElem?_replicate,
              if_pos hmany]
          · have hsum := Nat.div_add_mod' nRows per
            split
            next => simpa using hsum
            next hzero =>
              rw [not_not.mp hzero] at hsum
              simpa using hsum

end Chunks

/-! ## What the runtime reads of them -/

section Planned

variable {rowBytes : ℕ}

theorem chunkNumber_toString (k : ℕ) :
    chunkNumber (kTablePortPrefix ++ toString k) (toString k).toList =
      if 2 ^ 31 ≤ k then .error .tooLarge else .ok (k : ℤ) := by
  have hdigits : (toString k).toList = Nat.toDigits 10 k := by simp
  have hall : (Nat.toDigits 10 k).all Char.isDigit = true := List.all_eq_true.mpr fun c hc =>
    Nat.isDigit_of_mem_toDigits (by decide) (by decide) hc
  have hvalue : (Nat.toDigits 10 k).foldl (fun n c => n * 10 + (c.toNat - '0'.toNat)) 0 = k := by
    refine Eq.trans ?_ (@Nat.ofDigitChars_ten_toDigits k)
    rw [Nat.ofDigitChars_eq_foldl]
    simp only [Nat.mul_comm 10]
  rw [hdigits, chunkNumber, if_neg, hvalue]
  rw [hall, not_or]
  exact ⟨Nat.toDigits_ne_nil, by decide⟩

/-- The names that the search for ports goes past. -/
def IsOther (input : PortDims) : Prop :=
  input.1 = kChunkIdsPort ∨ input.1 = kConvMaskPort ∨
    kTablePortPrefix.toList.isPrefixOf input.1.toList = false

theorem findPorts_others {others : List PortDims} (hothers : ∀ input ∈ others, IsOther input)
    (inputs : List PortDims) : findPorts (others ++ inputs) = findPorts inputs := by
  induction others with
  | nil => rfl
  | cons input others ih =>
      have hinput := hothers input List.mem_cons_self
      unfold IsOther at hinput
      rw [List.cons_append, findPorts, if_pos hinput]
      exact ih fun other hother => hothers other (List.mem_cons_of_mem _ hother)

/-- A port of the table is found by its number, when that fits an `int`. -/
theorem findPorts_port (k : ℕ) (dims : List Int64) (inputs : List PortDims) :
    findPorts ((kTablePortPrefix ++ toString k, dims) :: inputs) =
      if 2 ^ 31 ≤ k then .error .tooLarge
      else (findPorts inputs).map fun found =>
        ((k : ℤ), (kTablePortPrefix ++ toString k, dims)) :: found := by
  have hlist : (kTablePortPrefix ++ toString k).toList =
      kTablePortPrefix.toList ++ (toString k).toList := String.toList_append
  have hbegins : kTablePortPrefix.toList.isPrefixOf
      (kTablePortPrefix.toList ++ (toString k).toList) = true := by
    rw [List.isPrefixOf_iff_prefix]
    exact List.prefix_append _ _
  have hother : ¬ IsOther (kTablePortPrefix ++ toString k, dims) := by
    unfold IsOther
    dsimp only
    rw [hlist, hbegins]
    rintro (heq | heq | heq)
    · rw [← hlist, heq] at hbegins
      exact absurd hbegins (by decide)
    · rw [← hlist, heq] at hbegins
      exact absurd hbegins (by decide)
    · exact absurd heq (by decide)
  unfold IsOther at hother
  rw [findPorts, if_neg hother]
  dsimp only
  rw [hlist, List.drop_left, chunkNumber_toString]
  split
  · rfl
  · cases findPorts inputs <;> rfl

/-- The ports with their numbers. -/
def numbered (rowBytes : ℕ) : ℕ → List ℕ → List (ℤ × PortDims)
  | _, [] => []
  | k, rows :: chunks =>
      ((k : ℤ), (kTablePortPrefix ++ toString k, [Int64.ofNat rows, Int64.ofNat rowBytes])) ::
        numbered rowBytes (k + 1) chunks

theorem length_numbered (k : ℕ) (chunks : List ℕ) :
    (numbered rowBytes k chunks).length = chunks.length := by
  induction chunks generalizing k with
  | nil => rfl
  | cons rows chunks ih => simp [numbered, ih]

theorem findPorts_portsFrom {after : List PortDims} (hafter : ∀ input ∈ after, IsOther input)
    (k : ℕ) (chunks : List ℕ) :
    findPorts (portsFrom rowBytes k chunks ++ after) =
      if chunks = [] ∨ k + chunks.length ≤ 2 ^ 31 then .ok (numbered rowBytes k chunks)
      else .error .tooLarge := by
  induction chunks generalizing k with
  | nil =>
      have hnone := findPorts_others hafter []
      rw [List.append_nil] at hnone
      rw [portsFrom, List.nil_append, hnone, if_pos (.inl rfl)]
      rfl
  | cons rows chunks ih =>
      rw [portsFrom, List.cons_append, findPorts_port, ih]
      by_cases hk : 2 ^ 31 ≤ k
      · rw [if_pos hk, if_neg]
        simp only [List.cons_ne_nil, List.length_cons, false_or]
        omega
      · rw [if_neg hk]
        by_cases hrest : chunks = [] ∨ k + 1 + chunks.length ≤ 2 ^ 31
        · rw [if_pos hrest, if_pos]
          · rfl
          · simp only [List.cons_ne_nil, List.length_cons, false_or]
            rcases hrest with rfl | hfew
            · simp only [List.length_nil]
              omega
            · omega
        · rw [if_neg hrest, if_neg]
          · rfl
          · simp only [List.cons_ne_nil, List.length_cons, false_or]
            have hfew := (not_or.mp hrest).2
            omega

theorem numbered_le {k : ℕ} {chunks : List ℕ} {found : ℤ × PortDims}
    (h : found ∈ numbered rowBytes k chunks) : (k : ℤ) ≤ found.1 := by
  induction chunks generalizing k with
  | nil => cases h
  | cons rows chunks ih =>
      rcases List.mem_cons.mp h with rfl | hrest
      · exact le_rfl
      · exact le_trans (by push_cast; omega) (ih hrest)

/-- They are found in order. -/
theorem sortBy_numbered (k : ℕ) (chunks : List ℕ) :
    sortBy Prod.fst (numbered rowBytes k chunks) = numbered rowBytes k chunks := by
  have hlt : (numbered rowBytes k chunks).Pairwise fun a b => a.1 < b.1 := by
    induction chunks generalizing k with
    | nil => exact .nil
    | cons rows chunks ih =>
        refine .cons (fun found hfound => ?_) (ih (k + 1))
        have hle := numbered_le hfound
        push_cast at hle
        dsimp only
        omega
  refine sortBy_unique ?_ (.refl _) (hlt.imp le_of_lt)
  exact List.pairwise_map.mpr (hlt.imp ne_of_lt)

theorem toInt_ofNat {n : ℕ} (h : n < 2 ^ 63) : (Int64.ofNat n).toInt = n :=
  Int64.toInt_ofNat_of_lt h

/-- One port of a partition, in its place. -/
theorem planChunk_exported {count k per rows : ℕ} {name : String} {plan : PortPlan}
    (hk : k < 2 ^ 31) (hrows : 0 < rows ∧ rows < 2 ^ 63) (hbytes : 0 < rowBytes ∧ rowBytes < 2 ^ 63)
    (hfirst : k = 0 → rows = per)
    (hplan : k ≠ 0 → plan.rowBytes = rowBytes ∧ plan.rowsPerChunk = per)
    (hfull : k + 1 < count → rows = per) (hmost : rows ≤ per)
    (htotal : plan.totalRows + rows < 2 ^ 64) :
    planChunk count k plan ((k : ℤ), (name, [Int64.ofNat rows, Int64.ofNat rowBytes])) =
      .ok { plan with
        rowBytes, rowsPerChunk := per
        chunks := plan.chunks ++ [⟨name, rows⟩]
        totalRows := plan.totalRows + rows } := by
  have hnumber : signed 32 k = (k : ℤ) := signed_eq_self (by omega) (by omega)
  have hrows' := toInt_ofNat hrows.2
  have hbytes' := toInt_ofNat hbytes.2
  have hpositive : ¬ (Int64.ofNat rows ≤ 0 ∨ Int64.ofNat rowBytes ≤ 0) := by
    rw [Int64.le_iff_toInt_le, Int64.le_iff_toInt_le, hrows', hbytes', Int64.toInt_zero]
    omega
  have hmeasure : plan.measure k rows rowBytes =
      { plan with rowBytes, rowsPerChunk := per } := by
    unfold PortPlan.measure
    split
    next hzero => rw [hfirst hzero]
    next hlater =>
      obtain ⟨rfl, rfl⟩ := hplan hlater
      rfl
  unfold planChunk
  dsimp only
  rw [if_neg (not_not.mpr hnumber.symm), if_neg hpositive, hrows', hbytes', Int.toNat_natCast,
    Int.toNat_natCast, hmeasure]
  unfold addChunk
  dsimp only
  rw [if_neg (not_not.mpr rfl), if_neg fun hlate => hlate.2.2 (hfull hlate.2.1),
    if_neg (Nat.not_lt.mpr hmost), Nat.mod_eq_of_lt htotal]

theorem planChunks_exported {count per : ℕ} (hbytes : 0 < rowBytes ∧ rowBytes < 2 ^ 63)
    (hper : per < 2 ^ 63) (hcount : count ≤ 2 ^ 31) (chunks : List ℕ) (k : ℕ) (plan : PortPlan)
    (hall : k + chunks.length = count) (hpos : ∀ rows ∈ chunks, 0 < rows ∧ rows ≤ per)
    (hfull : ∀ (i : ℕ) rows, chunks[i]? = some rows → k + i + 1 < count → rows = per)
    (hfirst : k = 0 → chunks[0]? = some per)
    (hplan : k ≠ 0 → plan.rowBytes = rowBytes ∧ plan.rowsPerChunk = per)
    (htotal : plan.totalRows + chunks.sum < 2 ^ 64) :
    ∃ ports, planChunks count k (numbered rowBytes k chunks) plan = .ok { plan with
        rowBytes := if chunks = [] then plan.rowBytes else rowBytes
        rowsPerChunk := if chunks = [] then plan.rowsPerChunk else per
        chunks := plan.chunks ++ ports
        totalRows := plan.totalRows + chunks.sum } ∧ ports.map TablePort.rows = chunks := by
  induction chunks generalizing k plan with
  | nil => exact ⟨[], by simp [numbered, planChunks], rfl⟩
  | cons rows chunks ih =>
      rw [List.length_cons] at hall
      rw [List.sum_cons, ← Nat.add_assoc] at htotal
      obtain ⟨hrows, hmost⟩ := hpos rows List.mem_cons_self
      have hchunk := @planChunk_exported rowBytes count k per rows (kTablePortPrefix ++ toString k)
        plan (by omega) ⟨hrows, by omega⟩ hbytes
        (fun hzero => Option.some.inj (hfirst hzero)) hplan
        (fun hlast => hfull 0 rows rfl hlast) hmost (by omega)
      obtain ⟨ports, hrest, hports⟩ := ih (k + 1) { plan with
          rowBytes, rowsPerChunk := per
          chunks := plan.chunks ++ [⟨kTablePortPrefix ++ toString k, rows⟩]
          totalRows := plan.totalRows + rows } (by omega)
        (fun rows hmem => hpos rows (List.mem_cons_of_mem _ hmem))
        (fun i rows hi hlast => hfull (i + 1) rows hi (by omega)) (fun hzero => by omega)
        (fun _ => ⟨rfl, rfl⟩) htotal
      refine ⟨⟨kTablePortPrefix ++ toString k, rows⟩ :: ports, ?_, by simp [hports]⟩
      rw [numbered, planChunks, hchunk]
      refine hrest.trans ?_
      simp [Nat.add_assoc]

/-- Both ports of ids are among the inputs, or none. -/
def IdsTogether (inputs : List PortDims) : Prop :=
  (inputs.any fun input => input.1 = kChunkIdsPort) =
    inputs.any fun input => input.1 = kLocalIdsPort

theorem portsFrom_name {k : ℕ} {chunks : List ℕ} {input : PortDims}
    (h : input ∈ portsFrom rowBytes k chunks) :
    kTablePortPrefix.toList.isPrefixOf input.1.toList = true := by
  induction chunks generalizing k with
  | nil => cases h
  | cons rows chunks ih =>
      rcases List.mem_cons.mp h with rfl | hrest
      · rw [List.isPrefixOf_iff_prefix, String.toList_append]
        exact List.prefix_append _ _
      · exact ih hrest

/-- A port of the table has no other port's name. -/
theorem any_portsFrom {k : ℕ} {chunks : List ℕ} {name : String}
    (hname : kTablePortPrefix.toList.isPrefixOf name.toList = false) :
    ((portsFrom rowBytes k chunks).any fun input => input.1 = name) = false := by
  rw [List.any_eq_false]
  intro input hinput heq
  have hbegins := portsFrom_name hinput
  rw [of_decide_eq_true heq, hname] at hbegins
  exact absurd hbegins (by decide)

/-- What the runtime makes of the exported ports: the partition, unless it has too many chunks to
number them. -/
theorem planNgramPorts_exported {per : ℕ} {chunks : List ℕ} {before after : List PortDims}
    (hbytes : 0 < rowBytes ∧ rowBytes < 2 ^ 63) (hchunks : Chunked per chunks)
    (hper : per < 2 ^ 63) (htotal : chunks.sum < 2 ^ 64)
    (hbefore : ∀ input ∈ before, IsOther input) (hafter : ∀ input ∈ after, IsOther input)
    (htogether : IdsTogether (before ++ after)) :
    if chunks.length ≤ 2 ^ 31 then
      ∃ plan, planNgramPorts (before ++ (ngramTablePorts rowBytes chunks ++ after)) = .ok plan ∧
        plan.rowBytes = rowBytes ∧ plan.rowsPerChunk = per ∧ plan.totalRows = chunks.sum ∧
          plan.chunks.map TablePort.rows = chunks
    else planNgramPorts (before ++ (ngramTablePorts rowBytes chunks ++ after)) =
      .error .tooLarge := by
  have hne : chunks ≠ [] := by
    rintro rfl
    exact absurd hchunks.first (by simp)
  have hfound := findPorts_others hbefore (ngramTablePorts rowBytes chunks ++ after)
  rw [ngramTablePorts, findPorts_portsFrom hafter, Nat.zero_add] at hfound
  have hids : IdsTogether (before ++ (portsFrom rowBytes 0 chunks ++ after)) := by
    unfold IdsTogether at *
    simp only [List.any_append] at htogether ⊢
    rw [any_portsFrom (by decide), any_portsFrom (by decide), Bool.false_or, Bool.false_or]
    exact htogether
  unfold ngramTablePorts
  generalize before ++ (portsFrom rowBytes 0 chunks ++ after) = inputs at hfound hids
  unfold planNgramPorts
  rw [hfound]
  split
  next hfew =>
    rw [if_pos (.inr hfew)]
    obtain ⟨ports, hplan, hports⟩ := @planChunks_exported rowBytes chunks.length per hbytes hper
      hfew chunks 0
      ⟨[], 0, 0, 0, inputs.any fun input => input.1 = kChunkIdsPort,
        inputs.any fun input => input.1 = kConvMaskPort⟩ (Nat.zero_add _)
      (fun rows hmem => ⟨hchunks.pos rows hmem, hchunks.most rows hmem⟩)
      (fun i rows hi hlast => hchunks.full i rows hi (by omega)) (fun _ => hchunks.first)
      (fun hzero => absurd rfl hzero) (by simpa using htotal)
    simp only [if_neg hne, Nat.zero_add, List.nil_append] at hplan
    refine ⟨⟨ports, rowBytes, per, chunks.sum, inputs.any fun input => input.1 = kChunkIdsPort,
      inputs.any fun input => input.1 = kConvMaskPort⟩, (if_neg (not_not.mpr hids)).trans ?_, rfl,
      rfl, rfl, hports⟩
    rw [length_numbered, sortBy_numbered]
    exact hplan
  next hmany =>
    rw [if_neg (not_or.mpr ⟨hne, hmany⟩)]
    rfl

end Planned

/-! ## What is gathered -/

section Gathered

variable {rowBytes : ℕ}

/-- No index is out of range, and the row of the named port stays. -/
theorem gatherPorts_spec {chunk loc : ℤ} {ports : List (TablePort × Bytes)} (k : ℕ)
    (picked : Option Bytes) (hpos : ∀ port ∈ ports, 0 < port.1.rows)
    (hloc : ∀ (i : ℕ) port, ports[i]? = some port → chunk = (k + i : ℕ) →
      0 ≤ loc ∧ loc < port.1.rows) :
    ∃ out, gatherPorts rowBytes chunk loc k picked ports = some out ∧
      (∀ (i : ℕ) port, ports[i]? = some port → chunk = (k + i : ℕ) →
        out = some (slice port.2 (loc.toNat * rowBytes) rowBytes)) ∧
      (∀ row, picked = some row → chunk < k → out = some row) := by
  induction ports generalizing k picked with
  | nil => exact ⟨picked, rfl, fun i port hi => by simp at hi, fun row hrow _ => hrow⟩
  | cons port ports ih =>
      have hrows := hpos port List.mem_cons_self
      have hgather : gatherRow rowBytes port (if chunk = k then loc else 0) =
          some (slice port.2 ((if chunk = k then loc else 0).toNat * rowBytes) rowBytes) := by
        refine if_pos ?_
        split
        next hhere => exact hloc 0 port rfl hhere
        next => exact ⟨le_rfl, by exact_mod_cast hrows⟩
      obtain ⟨out, hout, hnamed, hkept⟩ := ih (k + 1)
        (some (match picked with
          | none => slice port.2 ((if chunk = k then loc else 0).toNat * rowBytes) rowBytes
          | some row => if chunk = k then
              slice port.2 ((if chunk = k then loc else 0).toNat * rowBytes) rowBytes
            else row))
        (fun port hport => hpos port (List.mem_cons_of_mem _ hport))
        (fun i port hi hchunk => hloc (i + 1) port hi (by omega))
      refine ⟨out, ?_, fun i port' hi hchunk => ?_, fun row hrow hchunk => ?_⟩
      · rw [gatherPorts, hgather]
        exact hout
      · cases i with
        | zero =>
            cases hi
            have hhere : chunk = k := hchunk
            rw [hkept _ rfl (by omega)]
            cases picked <;> simp [hhere]
        | succ i => exact hnamed i port' hi (by omega)
      · subst hrow
        have hhere : ¬ chunk = k := by omega
        rw [hkept _ rfl (by omega)]
        simp [hhere]

variable {file : ℕ → UInt8} {base count : ℕ} {plan : PortPlan}

/-- The ports with what is bound to them. -/
def boundPorts (file : ℕ → UInt8) (base : ℕ) (plan : PortPlan) : List (TablePort × Bytes) :=
  plan.chunks.zip (boundChunks file base plan.rowBytes 0 plan.chunks)

/-- The graph gathers the row that the runtime splits. -/
theorem ngramChunkedGather_eq (hk : Partitioned count count plan)
    (hpos : ∀ port ∈ plan.chunks, 0 < port.rows) {id : ℕ} (hid : id < plan.totalRows)
    (hsize : plan.totalRows * plan.rowBytes < 2 ^ 64) :
    ngramChunkedGather plan.rowBytes (boundPorts file base plan)
        (((id / plan.rowsPerChunk : ℕ) : ℤ), ((id % plan.rowsPerChunk : ℕ) : ℤ)) =
      some ((List.range plan.rowBytes).map fun j => file (base + id * plan.rowBytes + j)) := by
  obtain ⟨port, hport, hrow⟩ := hk.row_mem hid
  have hbound : gatherBound file base plan (id / plan.rowsPerChunk) (id % plan.rowsPerChunk) =
      some _ := gatherBound_eq hk hid hsize
  obtain ⟨tensor, htensor, hslice⟩ := Option.map_eq_some_iff.mp hbound
  have hnamed : (boundPorts file base plan)[id / plan.rowsPerChunk]? = some (port, tensor) :=
    List.getElem?_zip_eq_some.mpr ⟨hport, htensor⟩
  have hall : ∀ bound ∈ boundPorts file base plan, 0 < bound.1.rows := fun bound hbound =>
    hpos bound.1 (List.of_mem_zip hbound).1
  obtain ⟨out, hout, hpicked, -⟩ := @gatherPorts_spec plan.rowBytes
    ((id / plan.rowsPerChunk : ℕ) : ℤ) ((id % plan.rowsPerChunk : ℕ) : ℤ)
    (boundPorts file base plan) 0 none hall fun i bound hi hchunk => by
      obtain rfl : id / plan.rowsPerChunk = i := by omega
      cases hnamed.symm.trans hi
      exact ⟨Int.natCast_nonneg _, by exact_mod_cast hrow⟩
  rw [ngramChunkedGather, hout, hpicked _ _ hnamed (by rw [Nat.zero_add]), Int.toNat_natCast]
  exact congrArg some hslice

end Gathered

/-! ## What is decoded -/

section Decoded

theorem floor_cast_div (n d : ℕ) : ((⌊(n : ℚ) / (d : ℚ)⌋ : ℤ) : ℚ) = (n / d : ℕ) := by
  rw [Rat.floor_natCast_div_natCast]
  norm_cast

theorem cast_sub_div (n d : ℕ) : (n : ℚ) - (n / d : ℕ) * (d : ℚ) = (n % d : ℕ) := by
  rw [sub_eq_iff_eq_add]
  exact_mod_cast (Nat.mod_add_div' n d).symm

/-- A finite half from its fields. -/
theorem value_fields {bits : ℕ} (hlt : bits < 2 ^ 16) (hfinite : binary16.Finite bits) :
    (1 - (bits / 32768 : ℕ) * 2) * powTable.getD (bits % 32768 / 1024) 0 *
        ((if 0 < ((bits % 32768 / 1024 : ℕ) : ℚ) then 1 else 0) +
          (bits % 32768 % 1024 : ℕ) / 1024) = binary16.value bits := by
  have hexp : bits % 32768 / 1024 < 31 := by
    have : bits % 2 ^ 15 < 31 * 2 ^ 10 := hfinite
    omega
  have hexponent : binary16.exponent bits = bits % 32768 / 1024 := by
    change bits / 2 ^ 10 % 2 ^ 5 = _
    omega
  have hmantissa : binary16.mantissa bits = bits % 32768 % 1024 := by
    change bits % 2 ^ 10 = _
    omega
  have hnegative : binary16.Negative bits ↔ bits / 32768 = 1 := by
    change bits / 2 ^ 15 % 2 = 1 ↔ _
    omega
  have hone : binary16.one = 2 ^ 24 := rfl
  have hpow : powTable.getD (bits % 32768 / 1024) 0 =
      if 0 < bits % 32768 / 1024 then 2 ^ (((bits % 32768 / 1024 : ℕ) : ℤ) - 15)
      else 2 ^ (-14 : ℤ) := by
    simp only [powTable, List.getD_eq_getElem?_getD, List.getElem?_map, List.getElem?_range
      (show bits % 32768 / 1024 < 32 by omega), Option.map_some, Option.getD_some]
  have hsign : bits / 32768 = 0 ∨ bits / 32768 = 1 := by omega
  have hbits : binary16.mantissaBits = 10 := rfl
  have hmagnitude : powTable.getD (bits % 32768 / 1024) 0 *
      ((if 0 < ((bits % 32768 / 1024 : ℕ) : ℚ) then 1 else 0) +
        (bits % 32768 % 1024 : ℕ) / 1024) = binary16.units bits / binary16.one := by
    unfold units
    rw [hexponent, hmantissa, hone, hbits, hpow]
    generalize bits % 32768 / 1024 = e
    generalize bits % 32768 % 1024 = m
    rcases e with _ | e
    · simp only [lt_irrefl, if_false, if_true, Nat.cast_zero]
      norm_num
      ring
    · have hscale : (2 : ℚ) ^ (((e + 1 : ℕ) : ℤ) - 15) = 2 ^ e / 2 ^ 14 := by
        have hsub : ((e + 1 : ℕ) : ℤ) - 15 = e - 14 := by omega
        rw [hsub, zpow_sub₀ two_ne_zero, zpow_natCast]
        norm_num
      have hpos : 0 < ((e + 1 : ℕ) : ℚ) := by exact_mod_cast Nat.succ_pos e
      rw [if_pos (Nat.succ_pos e), if_pos hpos, if_neg (Nat.succ_ne_zero e), hscale,
        Nat.add_sub_cancel]
      push_cast
      ring
  unfold value
  rw [← hmagnitude, mul_assoc]
  simp only [hnegative]
  rcases hsign with hsign | hsign
  · simp [hsign]
  · rw [hsign, if_pos rfl, Nat.cast_one]
    ring

/-- What the graph decodes of a row of whole blocks is what the tools decode of it. -/
theorem ngramDequantIq4nl_eq {byte : ℕ → ℕ} (hbyte : ∀ i, byte i < 256) {count k : ℕ}
    {parts : Native.Codes ℕ} (hsplit : Native.iq4NlSplit (count * 18) (fun _ => byte) = some parts)
    (hfinite : binary16.Finite (byte (k / 32 * 18) + byte (k / 32 * 18 + 1) * 256)) :
    ngramDequantIq4nl (fun i => byte i) k = Native.iq4NlDecode parts 0 k := by
  obtain rfl : _ = parts := Option.some.inj ((if_pos (Nat.mul_mod_left _ _)).symm.trans hsplit)
  have hlo := hbyte (k / 32 * 18)
  have hhi := hbyte (k / 32 * 18 + 1)
  have hbits : ((byte (k / 32 * 18) : ℕ) : ℚ) + (byte (k / 32 * 18 + 1) : ℕ) * 256 =
      ((byte (k / 32 * 18) + byte (k / 32 * 18 + 1) * 256 : ℕ) : ℚ) := by
    push_cast
    ring
  have hvalue := value_fields (by omega) hfinite
  have hbinary : Native.f16Le (fun _ => byte) 0 (k / 32 * 18) =
      binary16.value (byte (k / 32 * 18) + byte (k / 32 * 18 + 1) * 256) := rfl
  have hhigh : ∀ n : ℕ, ((⌊(n : ℚ) / 16⌋ : ℤ) : ℚ) = (n / 16 : ℕ) := fun n => by
    exact_mod_cast floor_cast_div n 16
  have hlow : ∀ n : ℕ, (n : ℚ) - (n / 16 : ℕ) * 16 = (n % 16 : ℕ) := fun n => by
    exact_mod_cast cast_sub_div n 16
  unfold ngramDequantIq4nl Native.iq4NlDecode
  dsimp only
  rw [hbits, hbinary, ← hvalue]
  generalize byte (k / 32 * 18) + byte (k / 32 * 18 + 1) * 256 = bits
  have hsign : ((⌊(bits : ℚ) / 32768⌋ : ℤ) : ℚ) = (bits / 32768 : ℕ) := by
    exact_mod_cast floor_cast_div bits 32768
  have hrest : (bits : ℚ) - (bits / 32768 : ℕ) * 32768 = (bits % 32768 : ℕ) := by
    exact_mod_cast cast_sub_div bits 32768
  have hexp : ((⌊((bits % 32768 : ℕ) : ℚ) / 1024⌋ : ℤ) : ℚ) = (bits % 32768 / 1024 : ℕ) := by
    exact_mod_cast floor_cast_div (bits % 32768) 1024
  have hmant : ((bits % 32768 : ℕ) : ℚ) - (bits % 32768 / 1024 : ℕ) * 1024 =
      (bits % 32768 % 1024 : ℕ) := by
    exact_mod_cast cast_sub_div (bits % 32768) 1024
  simp only [hsign, hrest, hexp, hmant, hhigh, hlow, Int.floor_natCast, Int.toNat_natCast]
  refine congrArg₂ (· * ·) (congrArg Int.cast ?_) rfl
  split
  · rw [Int.floor_natCast, Int.toNat_natCast, Nat.add_assoc]
  · rw [Int.floor_natCast, Int.toNat_natCast, Nat.add_assoc]

/-- The bytes of a row of a table that begins at `base`. -/
def tableRowBytes (file : ℕ → UInt8) (base rowBytes id : ℕ) : Bytes :=
  (List.range rowBytes).map fun j => file (base + id * rowBytes + j)

theorem dequantize_tableRow {file : ℕ → UInt8} {base nb id : ℕ} (hfinite : ∀ b < nb,
      binary16.Finite ((file (base + id * (nb * 18) + b * 18)).toNat +
        (file (base + id * (nb * 18) + (b * 18 + 1))).toNat * 256)) :
    FillsRange (Native.dequantizeRowIq4Nl Native.exactOps
        (fun i => (file (base + id * (nb * 18) + i)).toNat) (nb * 32)) 0 (nb * 32)
      (ngramDequantIq4nl fun i =>
        (((tableRowBytes file base (nb * 18) id).getD i 0).toNat : ℚ)) := by
  have hrow : ∀ i < nb * 18, (tableRowBytes file base (nb * 18) id).getD i 0 =
      file (base + id * (nb * 18) + i) := fun i hi => by
    simp [tableRowBytes, List.getD_eq_getElem?_getD, hi]
  have hsplit : Native.iq4NlSplit (nb * 18)
      (fun _ i => (file (base + id * (nb * 18) + i)).toNat) = some _ :=
    if_pos (Nat.mul_mod_left nb 18)
  refine FillsRange.congr (@Native.iq4Nl_fills
    (fun _ i => (file (base + id * (nb * 18) + i)).toNat) 0 nb hfinite _ hsplit) fun k hk => ?_
  have hb : k / 32 < nb := (Nat.div_lt_iff_lt_mul (by decide)).mpr hk
  rw [← ngramDequantIq4nl_eq (fun i => UInt8.toNat_lt _) hsplit (hfinite _ hb)]
  -- value `k` reads the bytes of its block only
  have hlo := hrow (k / 32 * 18) (by omega)
  have hhi := hrow (k / 32 * 18 + 1) (by omega)
  have hqs : ∀ j < 16, (tableRowBytes file base (nb * 18) id).getD (k / 32 * 18 + (2 + j)) 0 =
      file (base + id * (nb * 18) + (k / 32 * 18 + (2 + j))) := fun j hj => hrow _ (by omega)
  unfold ngramDequantIq4nl
  dsimp only
  rw [hlo, hhi]
  split
  next hfirst => rw [hqs _ hfirst]
  next hsecond => rw [hqs _ (by omega)]

end Decoded

/-! ## The table -/

section Table

variable {nRows nb cap align base : ℕ} {file : ℕ → UInt8} {chunks : List ℕ}
  {before after : List PortDims}

theorem mapM_eq_some_map {α β : Type} {l : List α} {f : α → Option β} {g : α → β}
    (h : ∀ a ∈ l, f a = some (g a)) : l.mapM f = some (l.map g) := by
  induction l with
  | nil => rfl
  | cons a l ih =>
      rw [List.mapM_cons, h a List.mem_cons_self,
        ih fun b hb => h b (List.mem_cons_of_mem _ hb)]
      rfl

/-- A table that is exported as ports under a cap is served row by row: the partition covers it, the
runtime accepts its ports unless it cannot number them, every id is split into a port and a row that
the graph gathers without an index out of range, and what the graph decodes of the row is what the
reader of the file decodes. -/
theorem exported_ports_serve (hchunks : ngramTableChunks nRows (nb * 18) cap align = some chunks)
    (hfile : nRows * (nb * 18) < 2 ^ 63) (hbefore : ∀ input ∈ before, IsOther input)
    (hafter : ∀ input ∈ after, IsOther input) (htogether : IdsTogether (before ++ after)) :
    let inputs := before ++ (ngramTablePorts (nb * 18) chunks ++ after)
    (chunks.sum = nRows ∧ (∀ rows ∈ chunks, rows * (nb * 18) ≤ cap) ∧
      ∃ per, ∀ (i : ℕ) rows, chunks[i]? = some rows → i + 1 < chunks.length → rows = per) ∧
    (chunks.length ≤ 2 ^ 31 → ∃ plan, planNgramPorts inputs = .ok plan) ∧
    (∀ plan, planNgramPorts inputs = .ok plan → ∀ ids : List ℕ, (∀ id ∈ ids, id < nRows) →
      ∃ pairs, splitByPartition plan (ids.map fun id : ℕ => (id : ℤ)) = .ok pairs ∧
        pairs.mapM (ngramChunkedGather (nb * 18) (boundPorts file base plan)) =
          some (ids.map (tableRowBytes file base (nb * 18)))) ∧
    ∀ id < nRows, (∀ b < nb,
        binary16.Finite ((file (base + id * (nb * 18) + b * 18)).toNat +
          (file (base + id * (nb * 18) + (b * 18 + 1))).toNat * 256)) →
      FillsRange (Native.dequantizeRowIq4Nl Native.exactOps
          (fun i => (file (base + id * (nb * 18) + i)).toNat) (nb * 32)) 0 (nb * 32)
        (ngramDequantIq4nl fun i =>
          (((tableRowBytes file base (nb * 18) id).getD i 0).toNat : ℚ)) := by
  intro inputs
  obtain ⟨per, hchunked, hsum, hcap, hbytes⟩ := ngramTableChunks_spec hchunks
  have hper : per ≤ nRows := hsum ▸ List.le_sum_of_mem (List.mem_of_getElem? hchunked.first)
  have hpos : 0 < per := hchunked.pos per (List.mem_of_getElem? hchunked.first)
  have hrows : nRows < 2 ^ 63 := (Nat.le_mul_of_pos_right _ hbytes).trans_lt hfile
  have hwidth : nb * 18 < 2 ^ 63 := (Nat.le_mul_of_pos_left _ (hpos.trans_le hper)).trans_lt hfile
  have hplanned := @planNgramPorts_exported (nb * 18) per chunks before after ⟨hbytes, hwidth⟩
    hchunked (by omega) (by omega) hbefore hafter htogether
  refine ⟨⟨hsum, fun rows hmem => ?_, per, hchunked.full⟩, fun hfew => ?_, fun plan hplan => ?_,
    fun id _ => dequantize_tableRow⟩
  · exact (Nat.mul_le_mul_right _ (hchunked.most rows hmem)).trans hcap
  · rw [if_pos hfew] at hplanned
    obtain ⟨plan, hplan, -⟩ := hplanned
    exact ⟨plan, hplan⟩
  · have hk := planNgramPorts_partitioned hplan
    split at hplanned
    next =>
      obtain ⟨plan', hplan', hplanBytes, -, htotal, hports⟩ := hplanned
      obtain rfl : plan' = plan := Except.ok.inj (hplan'.symm.trans hplan)
      rw [hsum] at htotal
      intro ids hids
      have hinside : (ids.map fun id : ℕ => (id : ℤ)).find? (outside plan'.totalRows) = none := by
        rw [List.find?_eq_none]
        intro id hid
        obtain ⟨n, hn, rfl⟩ := List.mem_map.mp hid
        have hlt := hids n hn
        simp only [outside, htotal, decide_eq_true_eq]
        omega
      have hall : ∀ port ∈ plan'.chunks, 0 < port.rows := fun port hport =>
        hchunked.pos _ (hports ▸ List.mem_map_of_mem hport)
      have hsplit := splitByPartition_eq hk (by omega) (ids.map fun id : ℕ => (id : ℤ))
      rw [hinside] at hsplit
      refine ⟨_, hsplit, ?_⟩
      rw [List.mapM_map, List.mapM_map]
      refine mapM_eq_some_map fun id hid => ?_
      have hlt : id < plan'.totalRows := htotal ▸ hids id hid
      rw [Function.comp_apply, Function.comp_apply, Int.toNat_natCast, ← hplanBytes]
      exact ngramChunkedGather_eq hk hall hlt (by rw [htotal, hplanBytes]; omega)
    next =>
      rw [hplanned] at hplan
      cases hplan

def idPorts : List PortDims := [(kChunkIdsPort, [1, -1, 16]), (kLocalIdsPort, [1, -1, 16])]

def risingFile (i : ℕ) : UInt8 := UInt8.ofNat (60 + 7 * i)

/-- A table of three rows behind 32 other bytes, under a cap of two: two rows, which differ, and
what is decoded of the second. -/
theorem exported_ports_serve_threeRows :
    ∃ plan, planNgramPorts (idPorts ++ (ngramTablePorts 18 [2, 1] ++ [])) = .ok plan ∧
      (∃ pairs, splitByPartition plan [0, 2] = .ok pairs ∧
        pairs.mapM (ngramChunkedGather 18 (boundPorts risingFile 32 plan)) =
          some [tableRowBytes risingFile 32 18 0, tableRowBytes risingFile 32 18 2]) ∧
      tableRowBytes risingFile 32 18 0 ≠ tableRowBytes risingFile 32 18 2 ∧
      FillsRange (Native.dequantizeRowIq4Nl Native.exactOps
          (fun i => (risingFile (32 + 2 * 18 + i)).toNat) 32) 0 32
        (ngramDequantIq4nl fun i =>
          (((tableRowBytes risingFile 32 18 2).getD i 0).toNat : ℚ)) := by
  obtain ⟨-, haccepted, hserved, hdecoded⟩ := @exported_ports_serve 3 1 36 1 32 risingFile [2, 1]
    idPorts [] (by decide) (by decide) (by unfold IsOther; decide) (by simp)
    (by unfold IdsTogether; decide)
  obtain ⟨plan, hplan⟩ := haccepted (by decide)
  exact ⟨plan, hplan, hserved plan hplan [0, 2] (by decide), by decide,
    hdecoded 2 (by decide) (by decide)⟩

end Table

end Arcint.Ngram
