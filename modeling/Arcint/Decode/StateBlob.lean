import Arcint.Foundation.Cursor
import Mathlib.Data.List.GetD

/-! # State blobs

A blob holds one tensor: the name of its element type, its shape, and its bytes, the first two
behind their lengths. It is filled by offset into a buffer of its final size. What it is read back
by checks every length against what is left, so a blob that was cut off is refused.
-/

namespace Arcint.Decode

open Foundation

/-- What the blobs rest on: element types by name, and the bytes of a tensor. -/
structure TensorRuntime (τ : Type) where
  typeName : τ → List UInt8
  /-- `ov::element::Type(name)`; it throws on other names. -/
  parseType : List UInt8 → Except String τ
  byteSize : τ → List ℕ → ℕ

/-- What a type is called is what it is found by. -/
structure TensorRuntime.Named {τ : Type} (ov : TensorRuntime τ) : Prop where
  parse : ∀ type, ov.parseType (ov.typeName type) = .ok type
  short : ∀ type, (ov.typeName type).length < 2 ^ 32

@[ext]
structure StateTensor {τ : Type} (ov : TensorRuntime τ) where
  elementType : τ
  shape : List ℕ
  data : List UInt8
  data_length : data.length = ov.byteSize elementType shape

variable {τ : Type} {ov : TensorRuntime τ}

/-! ## Writing -/

/-- The four bytes that `u32` writes. -/
def u32Bytes (v : UInt32) : List UInt8 :=
  (List.range 4).map fun i => (v >>> UInt32.ofNat (i * 8)).toUInt8

/-- `u32`. -/
def Filling.u32 (w : Filling) (v : UInt32) : Filling := (u32Bytes v).foldl Filling.put w

def serialiseState (t : StateTensor ov) : List UInt8 :=
  let type := ov.typeName t.elementType
  let header := 4 + type.length + 4 + 4 * t.shape.length
  let w : Filling := ⟨List.replicate (header + ov.byteSize t.elementType t.shape) 0, 0⟩
  let w := Filling.u32 w (UInt32.ofNat type.length)
  let w := w.copy type
  let w := Filling.u32 w (UInt32.ofNat t.shape.length)
  let w := t.shape.foldl (fun w d => Filling.u32 w (UInt32.ofNat d)) w
  (w.copy t.data).out

/-! ## Reading -/

def getU32 (blob : List UInt8) (off : ℕ) : Except (Fault String) (UInt32 × ℕ) :=
  if blob.length < off + 4 then .error (.thrown "state blob truncated")
  else do
    let v ← (List.range 4).foldlM (fun v i => do
      let byte ← readByte blob (off + i)
      return v ||| (byte.toUInt32 <<< UInt32.ofNat (i * 8))) 0
    return (v, off + 4)

def getType (blob : List UInt8) (off tlen : ℕ) : Except (Fault String) (List UInt8 × ℕ) :=
  if blob.length < off + tlen then .error (.thrown "state blob truncated (type)")
  else do
    let type ← readRange blob tlen off
    return (type.1, off + tlen)

/-- The loop over the dimensions. -/
def getShape (blob : List UInt8) : ℕ → ℕ → Except (Fault String) (List ℕ × ℕ)
  | 0, off => return ([], off)
  | rank + 1, off => do
      let (d, off) ← getU32 blob off
      let (shape, off) ← getShape blob rank off
      return (d.toNat :: shape, off)

/-- Up to the bytes of the tensor. -/
def readHeader (blob : List UInt8) : Except (Fault String) (List UInt8 × List ℕ × ℕ) := do
  let (tlen, off) ← getU32 blob 0
  let (type, off) ← getType blob off tlen.toNat
  let (rank, off) ← getU32 blob off
  let (shape, off) ← getShape blob rank.toNat off
  return (type, shape, off)

def deserialiseState (ov : TensorRuntime τ) (blob : List UInt8) :
    Except (Fault String) (StateTensor ov) := do
  let (type, shape, off) ← readHeader blob
  match ov.parseType type with
  | .error message => throw (.thrown message)
  | .ok elementType =>
      if blob.length < off + ov.byteSize elementType shape then
        throw (.thrown "state blob truncated (payload)")
      let data ← readRange blob (ov.byteSize elementType shape) off
      return ⟨elementType, shape, data.1, data.2⟩

/-! ## What is written -/

theorem u32Bytes_ofNat (n : ℕ) : u32Bytes (UInt32.ofNat n) = leBytes 4 n := by
  have hbyte : ∀ s ≤ 24, (UInt32.ofNat n >>> UInt32.ofNat s).toUInt8 = UInt8.ofNat (n / 2 ^ s) := by
    intro s hs
    have hamount : (UInt32.ofNat s).toNat % 32 = s := by
      rw [UInt32.toNat_ofNat', Nat.mod_eq_of_lt (by omega : s < 2 ^ 32),
        Nat.mod_eq_of_lt (by omega)]
    have hsplit : 2 ^ 32 = 2 ^ s * 2 ^ (32 - s) := by
      rw [← Nat.pow_add]
      congr 1
      omega
    apply UInt8.toNat_inj.mp
    rw [UInt32.toNat_toUInt8, UInt32.toNat_shiftRight, hamount, UInt32.toNat_ofNat',
      UInt8.toNat_ofNat', Nat.shiftRight_eq_div_pow, hsplit, Nat.mod_mul_right_div_self,
      Nat.mod_mod_of_dvd _ (Nat.pow_dvd_pow 2 (by omega))]
  have hbytes : ∀ i ∈ List.range 4, (UInt32.ofNat n >>> UInt32.ofNat (i * 8)).toUInt8 =
      UInt8.ofNat (n / 2 ^ (i * 8)) := by
    intro i hi
    have hlt := List.mem_range.mp hi
    exact hbyte _ (by omega)
  rw [u32Bytes, List.map_congr_left hbytes]
  simp [leBytes, Nat.div_div_eq_div_mul, List.range_succ]

theorem holds_u32 {w : Filling} {written : List UInt8} {room : ℕ}
    (h : w.Holds written (4 + room)) (n : ℕ) :
    (Filling.u32 w (UInt32.ofNat n)).Holds (written ++ leBytes 4 n) room := by
  rw [Filling.u32, u32Bytes_ofNat]
  exact h.foldl_put (by rw [leBytes_length])

theorem holds_shape {w : Filling} {written : List UInt8} {room : ℕ} (shape : List ℕ)
    (h : w.Holds written (4 * shape.length + room)) :
    (shape.foldl (fun w d => Filling.u32 w (UInt32.ofNat d)) w).Holds
      (written ++ shape.flatMap (leBytes 4)) room := by
  induction shape generalizing w written with
  | nil => simpa using h
  | cons d shape ih =>
      have hroom : 4 * (d :: shape).length + room = 4 + (4 * shape.length + room) := by
        rw [List.length_cons]
        omega
      rw [hroom] at h
      have hrest := ih (holds_u32 h d)
      rwa [List.append_assoc, ← List.flatMap_cons] at hrest

/-- A blob, part by part. -/
theorem serialiseState_eq (t : StateTensor ov) :
    serialiseState t = leBytes 4 (ov.typeName t.elementType).length ++ ov.typeName t.elementType ++
      leBytes 4 t.shape.length ++ t.shape.flatMap (leBytes 4) ++ t.data := by
  have hstart : (⟨List.replicate (4 + (ov.typeName t.elementType).length + 4 +
      4 * t.shape.length + ov.byteSize t.elementType t.shape) 0, 0⟩ : Filling).Holds []
      (4 + ((ov.typeName t.elementType).length + (4 + (4 * t.shape.length +
        (t.data.length + 0))))) := by
    apply Filling.holds_replicate
    rw [t.data_length]
    omega
  have hname := (holds_u32 hstart (ov.typeName t.elementType).length).copy
  have hshape := holds_shape t.shape (holds_u32 hname t.shape.length)
  exact hshape.copy.out_eq

/-! ## What is read -/

theorem getU32_eq {blob : List UInt8} {off : ℕ} (h : off + 4 ≤ blob.length) :
    getU32 blob off = .ok (UInt32.ofNat (leNat (slice blob off 4)), off + 4) := by
  have hbyte : ∀ i < 4, readByte (ε := String) blob (off + i) = .ok (blob.getD (off + i) 0) := by
    intro i hi
    have hlt : off + i < blob.length := by omega
    rw [readByte_of_lt hlt, List.getD_eq_getElem _ _ hlt]
  have hslice : slice blob off 4 = [blob.getD (off + 0) 0, blob.getD (off + 1) 0,
      blob.getD (off + 2) 0, blob.getD (off + 3) 0] := slice_eq_map_getD blob 0 h
  have hloop : (List.range 4).foldlM (fun v i => do
      let byte ← readByte blob (off + i)
      return v ||| (byte.toUInt32 <<< UInt32.ofNat (i * 8))) (0 : UInt32) =
        (.ok (UInt32.ofNat (leNat (slice blob off 4))) : Except (Fault String) UInt32) := by
    rw [hslice, ← or_shifts]
    have hrange : List.range 4 = [0, 1, 2, 3] := rfl
    rw [hrange]
    simp only [List.foldlM_cons, List.foldlM_nil, hbyte 0 (by decide), hbyte 1 (by decide),
      hbyte 2 (by decide), hbyte 3 (by decide)]
    generalize blob.getD (off + 0) 0 = b₀
    generalize blob.getD (off + 1) 0 = b₁
    generalize blob.getD (off + 2) 0 = b₂
    generalize blob.getD (off + 3) 0 = b₃
    have hswap : ∀ a b c d : UInt32, a ||| b ||| c ||| d = d ||| c ||| b ||| a := by
      intro a b c d
      ac_rfl
    have hzero : b₀.toUInt32 <<< UInt32.ofNat (0 * 8) = b₀.toUInt32 := UInt32.shiftLeft_zero
    refine congrArg Except.ok ?_
    rw [hzero, UInt32.zero_or]
    exact hswap _ _ _ _
  rw [getU32, if_neg (Nat.not_lt.mpr h), hloop]
  rfl

theorem getType_eq {blob : List UInt8} {off tlen : ℕ} (h : off + tlen ≤ blob.length) :
    getType blob off tlen = .ok (slice blob off tlen, off + tlen) := by
  rw [getType, if_neg (Nat.not_lt.mpr h), readRange_of_le h]
  rfl

/-! ## Blobs that are cut off -/

theorem steady_getU32 (off : ℕ) : Steady fun blob => getU32 blob off := by
  apply steady_slice fun bytes => (UInt32.ofNat (leNat bytes), off + 4)
  intro blob
  split
  next h => exact getU32_eq h
  next h => rw [getU32, if_pos (Nat.lt_of_not_le h)]

theorem steady_getType (off tlen : ℕ) : Steady fun blob => getType blob off tlen := by
  apply steady_slice fun bytes => (bytes, off + tlen)
  intro blob
  split
  next h => exact getType_eq h
  next h => rw [getType, if_pos (Nat.lt_of_not_le h)]

theorem steady_getShape (rank off : ℕ) : Steady fun blob => getShape blob rank off := by
  induction rank generalizing off with
  | zero => exact steady_pure _
  | succ rank ih =>
      refine (steady_getU32 off).bind fun d => ?_
      exact (ih d.2).bind fun shape => steady_pure _

theorem steady_readHeader : Steady readHeader := by
  refine (steady_getU32 0).bind fun tlen => ?_
  refine (steady_getType tlen.2 tlen.1.toNat).bind fun type => ?_
  refine (steady_getU32 type.2).bind fun rank => ?_
  exact (steady_getShape rank.1.toNat rank.2).bind fun shape => steady_pure _

/-! ## Round trip -/

section Parts

variable {front rest : List UInt8}

theorem getU32_part {n : ℕ} (hn : n < 2 ^ 32) :
    getU32 (front ++ leBytes 4 n ++ rest) front.length =
      .ok (UInt32.ofNat n, front.length + 4) := by
  have hslice : slice (front ++ leBytes 4 n ++ rest) front.length 4 = leBytes 4 n := by
    have hpart := slice_part front (leBytes 4 n) rest
    rwa [leBytes_length] at hpart
  rw [getU32_eq (by simp), hslice, leNat_leBytes hn]

theorem getType_part (type : List UInt8) :
    getType (front ++ type ++ rest) front.length type.length =
      .ok (type, front.length + type.length) := by
  rw [getType_eq (by simp), slice_part]

theorem getShape_part {shape : List ℕ} (hdims : ∀ d ∈ shape, d < 2 ^ 32) :
    getShape (front ++ shape.flatMap (leBytes 4) ++ rest) shape.length front.length =
      .ok (shape, front.length + 4 * shape.length) := by
  induction shape generalizing front with
  | nil => rfl
  | cons d shape ih =>
      have hd : d < 2 ^ 32 := hdims d List.mem_cons_self
      have hrest := @ih (front ++ leBytes 4 d) fun d hmem => hdims d (List.mem_cons_of_mem _ hmem)
      have hblob : front ++ (d :: shape).flatMap (leBytes 4) ++ rest =
          front ++ leBytes 4 d ++ (shape.flatMap (leBytes 4) ++ rest) := by simp
      have hfirst := @getU32_part front (shape.flatMap (leBytes 4) ++ rest) d hd
      rw [← hblob] at hfirst
      rw [List.append_assoc (front ++ leBytes 4 d), ← hblob, List.length_append,
        leBytes_length] at hrest
      rw [List.length_cons, getShape, hfirst]
      change (getShape _ shape.length (front.length + 4) >>= _) = _
      rw [hrest]
      change Except.ok ((UInt32.ofNat d).toNat :: shape, _) = _
      rw [UInt32.toNat_ofNat', Nat.mod_eq_of_lt hd]
      congr 2
      omega

end Parts

/-- The offset of the tensor's bytes. -/
def headerLength (t : StateTensor ov) : ℕ :=
  4 + (ov.typeName t.elementType).length + 4 + 4 * t.shape.length

/-- The blob in front of the tensor's bytes. -/
theorem exists_header (t : StateTensor ov) :
    ∃ header : List UInt8, header.length = headerLength t ∧
      serialiseState t = header ++ t.data := by
  refine ⟨_, ?_, serialiseState_eq t⟩
  have hdims : (t.shape.flatMap (leBytes 4)).length = 4 * t.shape.length := by
    simp [List.length_flatMap, Nat.mul_comm]
  rw [headerLength]
  simp only [List.length_append, leBytes_length, hdims]

theorem length_serialiseState (t : StateTensor ov) :
    (serialiseState t).length = headerLength t + ov.byteSize t.elementType t.shape := by
  obtain ⟨header, hlength, hblob⟩ := exists_header t
  rw [hblob, List.length_append, hlength, t.data_length]

/-- Behind a header, the bytes of the tensor are there or the blob is refused. -/
theorem deserialiseState_of_header (hov : ov.Named) {blob : List UInt8} {type : τ}
    {shape : List ℕ} {off : ℕ} (hheader : readHeader blob = .ok (ov.typeName type, shape, off)) :
    deserialiseState ov blob =
      if h : off + ov.byteSize type shape ≤ blob.length then
        .ok ⟨type, shape, slice blob off (ov.byteSize type shape), length_slice h⟩
      else .error (.thrown "state blob truncated (payload)") := by
  rw [deserialiseState, hheader]
  change (match ov.parseType (ov.typeName type) with
    | .error message => _
    | .ok elementType => _) = _
  rw [hov.parse]
  dsimp only
  split
  next h =>
    rw [dif_neg (Nat.not_le.mpr h)]
    rfl
  next h =>
    have hle := Nat.le_of_not_lt h
    rw [dif_pos hle, readRange_of_le hle]
    rfl

section RoundTrip

variable (hov : ov.Named) {t : StateTensor ov} (hrank : t.shape.length < 2 ^ 32)
  (hdims : ∀ d ∈ t.shape, d < 2 ^ 32)

include hov hrank hdims

theorem readHeader_serialiseState :
    readHeader (serialiseState t) = .ok (ov.typeName t.elementType, t.shape, headerLength t) := by
  have hname := hov.short t.elementType
  rw [serialiseState_eq, headerLength]
  generalize ov.typeName t.elementType = name at *
  have hlength := @getU32_part [] (name ++ leBytes 4 t.shape.length ++
    t.shape.flatMap (leBytes 4) ++ t.data) name.length hname
  have htype := @getType_part (leBytes 4 name.length) (leBytes 4 t.shape.length ++
    t.shape.flatMap (leBytes 4) ++ t.data) name
  have hcount := @getU32_part (leBytes 4 name.length ++ name)
    (t.shape.flatMap (leBytes 4) ++ t.data) t.shape.length hrank
  have hshape := @getShape_part (leBytes 4 name.length ++ name ++ leBytes 4 t.shape.length)
    t.data t.shape hdims
  simp only [List.nil_append, List.append_assoc, List.length_append, leBytes_length,
    List.length_nil, Nat.zero_add] at hlength htype hcount hshape ⊢
  have htoNat : ∀ {n : ℕ}, n < 2 ^ 32 → (UInt32.ofNat n).toNat = n := by
    intro n hn
    rw [UInt32.toNat_ofNat', Nat.mod_eq_of_lt hn]
  rw [readHeader]
  refine bind_ok.mpr ⟨_, hlength, bind_ok.mpr ⟨(name, 4 + name.length), ?_,
    bind_ok.mpr ⟨_, hcount, bind_ok.mpr ⟨(t.shape, _), ?_, rfl⟩⟩⟩⟩
  · rw [htoNat hname]
    exact htype
  · rw [htoNat hrank]
    exact hshape

theorem deserialiseState_serialiseState : deserialiseState ov (serialiseState t) = .ok t := by
  have hlength := length_serialiseState t
  have hdata : slice (serialiseState t) (headerLength t) (ov.byteSize t.elementType t.shape) =
      t.data := by
    obtain ⟨header, hheader, hblob⟩ := exists_header t
    have hpart := slice_part header t.data []
    rwa [List.append_nil, ← hblob, hheader, t.data_length] at hpart
  rw [deserialiseState_of_header hov (readHeader_serialiseState hov hrank hdims),
    dif_pos hlength.ge]
  exact congrArg Except.ok (StateTensor.ext rfl rfl hdata)

/-- A blob is read back as the tensor it was written from. One that was cut off makes a check throw:
neither run ends at a byte that is not there. -/
theorem stateBlob_roundTrip : deserialiseState ov (serialiseState t) = .ok t ∧
    ∀ cut, cut <+: serialiseState t → cut ≠ serialiseState t →
      ∃ error, deserialiseState ov cut = .error (.thrown error) := by
  refine ⟨deserialiseState_serialiseState hov hrank hdims, ?_⟩
  intro cut hcut hne
  rcases steady_readHeader cut _ _ hcut (readHeader_serialiseState hov hrank hdims) with
    hsame | ⟨error, hthrown⟩
  · -- the header is whole, so it is the bytes of the tensor that are cut
    have hshort : cut.length < headerLength t + ov.byteSize t.elementType t.shape := by
      rw [← length_serialiseState]
      exact lt_of_le_of_ne hcut.length_le fun heq => hne (hcut.eq_of_length heq)
    refine ⟨"state blob truncated (payload)", ?_⟩
    rw [deserialiseState_of_header hov hsame, dif_neg (Nat.not_le.mpr hshort)]
  · refine ⟨error, ?_⟩
    rw [deserialiseState, hthrown]
    rfl

end RoundTrip

/-- The element types of the lane states and the cursor. -/
inductive PlainType where
  | f16
  | f32
  | i64
  deriving DecidableEq

def PlainType.name : PlainType → List UInt8
  | f16 => [0x66, 0x31, 0x36]
  | f32 => [0x66, 0x33, 0x32]
  | i64 => [0x69, 0x36, 0x34]

def PlainType.width : PlainType → ℕ
  | f16 => 2
  | f32 => 4
  | i64 => 8

def plainRuntime : TensorRuntime PlainType where
  typeName := PlainType.name
  parseType name :=
    match [PlainType.f16, .f32, .i64].find? (·.name = name) with
    | some type => .ok type
    | none => .error "unknown element type"
  byteSize type shape := shape.prod * type.width

theorem plainRuntime_named : plainRuntime.Named where
  parse type := by cases type <;> rfl
  short type := by cases type <;> decide

/-- The cursor of a lane. -/
def cursor (bytes : List UInt8) (h : bytes.length = 24) : StateTensor plainRuntime :=
  ⟨.i64, [3], bytes, h⟩

theorem stateBlob_roundTrip_cursor :
    let t := cursor ((List.range 24).map fun i => UInt8.ofNat (11 * i)) (by decide)
    deserialiseState plainRuntime (serialiseState t) = .ok t ∧
      ∀ cut, cut <+: serialiseState t → cut ≠ serialiseState t →
        ∃ error, deserialiseState plainRuntime cut = .error (.thrown error) :=
  stateBlob_roundTrip plainRuntime_named (by decide) (by decide)

end Arcint.Decode
