import Arcint.Gguf.Reader

/-! # The GGUF grammar

What a version 3 file may hold, as values that cannot be ill-formed, and the
bytes it is written with. The reader is compared with these.
-/

namespace Arcint.Gguf

open Arcint.Foundation
open Arcint.Text (Bytes bytes)

/-! ## Values -/

/-- Value types other than an array. -/
inductive ScalarType where
  | word (type : WordType)
  | string
  deriving DecidableEq, Repr

def ScalarType.toValueType : ScalarType → ValueType
  | .word type => .word type
  | .string => .string

/-- The tag a scalar type is written with. -/
def ScalarType.raw (t : ScalarType) : Nat := t.toValueType.raw

/-- A string whose length can be written. -/
abbrev Str := { s : Bytes // s.length < 2 ^ 64 }

/-- What a value of a type holds. -/
def ScalarType.Payload : ScalarType → Type
  | .word type => Fin (256 ^ type.width)
  | .string => Str

inductive Value where
  | scalar (type : ScalarType) (payload : type.Payload)
  | array (type : ScalarType) (items : List type.Payload) (small : items.length < 2 ^ 64)

/-- A key and its value. -/
abbrev Entry := Str × Value

/-! ## Bytes -/

def encodeString (s : Bytes) : Bytes := leBytes 8 s.length ++ s

def ScalarType.encode : (t : ScalarType) → t.Payload → Bytes
  | .word type, bits => leBytes type.width bits.val
  | .string, s => encodeString s.val

def Value.tag : Value → Nat
  | .scalar type _ => type.raw
  | .array _ _ _ => ValueType.array.raw

/-- The bytes after the tag. -/
def Value.body : Value → Bytes
  | .scalar type payload => type.encode payload
  | .array type items _ => leBytes 4 type.raw ++ leBytes 8 items.length ++ items.flatMap type.encode

def encodeEntry (e : Entry) : Bytes :=
  encodeString e.1.val ++ leBytes 4 e.2.tag ++ e.2.body

/-- Everything before the metadata. -/
def encodeHeader (nTensors nKv : Nat) : Bytes :=
  magic ++ leBytes 4 3 ++ leBytes 8 nTensors ++ leBytes 8 nKv

def encodeTensor (t : TensorInfo) : Bytes :=
  encodeString t.name ++ leBytes 4 t.dims.length ++ t.dims.flatMap (leBytes 8) ++
    leBytes 4 t.ggmlType ++ leBytes 8 t.offset

/-! ## What the reader returns for a value -/

def ScalarType.ints : (t : ScalarType) → t.Payload → List Int
  | .word .uint8, bits | .word .uint16, bits | .word .uint32, bits => [(bits.val : Int)]
  | .word .int8, bits => [signed 1 bits.val]
  | .word .int16, bits => [signed 2 bits.val]
  | .word .int32, bits => [signed 4 bits.val]
  | .word .int64, bits | .word .uint64, bits => [signed 8 bits.val]
  | .word .bool, bits => [if bits.val ≠ 0 then 1 else 0]
  | .word .float32, _ | .word .float64, _ | .string, _ => []

def ScalarType.floats : (t : ScalarType) → t.Payload → List FloatBits
  | .word .float32, bits => [.single bits.val]
  | .word .float64, bits => [.double bits.val]
  | _, _ => []

def ScalarType.strings : (t : ScalarType) → t.Payload → List Bytes
  | .string, s => [s.val]
  | .word _, _ => []

def Value.toMeta : Value → MetaValue
  | .scalar type payload =>
      ⟨type.raw, 0, type.ints payload, type.floats payload, type.strings payload⟩
  | .array type items _ =>
      ⟨ValueType.array.raw, type.raw, items.flatMap type.ints, items.flatMap type.floats,
        items.flatMap type.strings⟩

/-- The elements a metadata value holds. -/
def MetaValue.count (v : MetaValue) : Nat :=
  v.ints.length + v.floats.length + v.strings.length

theorem ScalarType.count_payload (t : ScalarType) (x : t.Payload) :
    (t.ints x).length + (t.floats x).length + (t.strings x).length = 1 := by
  cases t with
  | word type => cases type <;> rfl
  | string => rfl

/-- An array value holds as many elements as it was written with. -/
theorem Value.count_array (t : ScalarType) (items : List t.Payload)
    (small : items.length < 2 ^ 64) : (Value.array t items small).toMeta.count = items.length := by
  simp only [toMeta, MetaValue.count]
  clear small
  induction items with
  | nil => rfl
  | cons x items ih =>
      have hone := t.count_payload x
      simp only [List.flatMap_cons, List.length_append, List.length_cons]
      omega

/-! ## Tags -/

theorem ScalarType.ofRaw?_raw (t : ScalarType) :
    ValueType.ofRaw? t.raw = some t.toValueType := by
  cases t with
  | word type => cases type <;> rfl
  | string => rfl

theorem ScalarType.raw_ne_array (t : ScalarType) : t.raw ≠ ValueType.array.raw := by
  cases t with
  | word type => cases type <;> decide
  | string => decide

theorem ScalarType.raw_lt (t : ScalarType) : t.raw < 256 ^ 4 := by
  cases t with
  | word type => cases type <;> decide
  | string => decide

theorem Value.tag_lt (v : Value) : v.tag < 256 ^ 4 := by
  cases v with
  | scalar type payload => exact type.raw_lt
  | array type items small => exact Nat.lt_of_lt_of_le (by decide : 9 < 10) (by decide)

/-- A tag that is an enumerator is that of a scalar type or of an array. -/
theorem ofRaw?_cases {raw : Nat} (hknown : ValueType.ofRaw? raw ≠ none) :
    raw = ValueType.array.raw ∨ ∃ t : ScalarType, raw = t.raw := by
  unfold ValueType.ofRaw? at hknown
  split at hknown
  case h_1 => exact .inr ⟨.word .uint8, rfl⟩
  case h_2 => exact .inr ⟨.word .int8, rfl⟩
  case h_3 => exact .inr ⟨.word .uint16, rfl⟩
  case h_4 => exact .inr ⟨.word .int16, rfl⟩
  case h_5 => exact .inr ⟨.word .uint32, rfl⟩
  case h_6 => exact .inr ⟨.word .int32, rfl⟩
  case h_7 => exact .inr ⟨.word .float32, rfl⟩
  case h_8 => exact .inr ⟨.word .bool, rfl⟩
  case h_9 => exact .inr ⟨.string, rfl⟩
  case h_10 => exact .inl rfl
  case h_11 => exact .inr ⟨.word .uint64, rfl⟩
  case h_12 => exact .inr ⟨.word .int64, rfl⟩
  case h_13 => exact .inr ⟨.word .float64, rfl⟩
  case h_14 => exact absurd rfl hknown

/-! ## Nothing is lost -/

/-- Booleans are written as zero or one. -/
def ScalarType.Canonical : (t : ScalarType) → t.Payload → Prop
  | .word .bool, bits => bits.val < 2
  | _, _ => True

def Value.Canonical : Value → Prop
  | .scalar type payload => type.Canonical payload
  | .array type items _ => ∀ x ∈ items, type.Canonical x

theorem signed_injective {width a b : Nat} (ha : a < 256 ^ width) (hb : b < 256 ^ width)
    (heq : signed width a = signed width b) : a = b := by
  have hmod := congrArg (· % ((256 ^ width : Nat) : Int)) heq
  simp only [signed, Int.bmod_emod] at hmod
  rw [← Int.natCast_emod, ← Int.natCast_emod, Nat.mod_eq_of_lt ha, Nat.mod_eq_of_lt hb] at hmod
  exact Int.ofNat_inj.mp hmod

theorem bit_injective {a b : Nat} (ha : a < 2) (hb : b < 2)
    (heq : (if a ≠ 0 then 1 else 0 : Int) = if b ≠ 0 then 1 else 0) : a = b := by
  split at heq <;> split at heq <;> omega

theorem ScalarType.payload_eq {t : ScalarType} {x y : t.Payload} (hx : t.Canonical x)
    (hy : t.Canonical y) (hints : t.ints x = t.ints y) (hfloats : t.floats x = t.floats y)
    (hstrings : t.strings x = t.strings y) : x = y := by
  cases t with
  | string => exact Subtype.ext (List.cons.inj hstrings).1
  | word type =>
      apply Fin.ext
      cases type with
      | uint8 | uint16 | uint32 => exact Int.ofNat_inj.mp (List.cons.inj hints).1
      | int8 | int16 | int32 | int64 | uint64 =>
          exact signed_injective x.isLt y.isLt (List.cons.inj hints).1
      | float32 => exact FloatBits.single.inj (List.cons.inj hfloats).1
      | float64 => exact FloatBits.double.inj (List.cons.inj hfloats).1
      | bool =>
          exact bit_injective hx hy (List.cons.inj hints).1

theorem ScalarType.lengths_eq (t : ScalarType) (x y : t.Payload) :
    (t.ints x).length = (t.ints y).length ∧ (t.floats x).length = (t.floats y).length ∧
      (t.strings x).length = (t.strings y).length := by
  cases t with
  | word type => cases type <;> simp [ints, floats, strings]
  | string => simp [ints, floats, strings]

theorem ScalarType.items_eq {t : ScalarType} {xs ys : List t.Payload}
    (hlength : xs.length = ys.length) (hxs : ∀ x ∈ xs, t.Canonical x)
    (hys : ∀ y ∈ ys, t.Canonical y) (hints : xs.flatMap t.ints = ys.flatMap t.ints)
    (hfloats : xs.flatMap t.floats = ys.flatMap t.floats)
    (hstrings : xs.flatMap t.strings = ys.flatMap t.strings) : xs = ys := by
  induction xs generalizing ys with
  | nil => exact (List.length_eq_zero_iff.mp hlength.symm).symm
  | cons x xs ih =>
      cases ys with
      | nil => cases hlength
      | cons y ys =>
          obtain ⟨hl1, hl2, hl3⟩ := t.lengths_eq x y
          rw [List.flatMap_cons, List.flatMap_cons] at hints hfloats hstrings
          obtain ⟨hi, hints⟩ := List.append_inj hints hl1
          obtain ⟨hf, hfloats⟩ := List.append_inj hfloats hl2
          obtain ⟨hs, hstrings⟩ := List.append_inj hstrings hl3
          have hhead := payload_eq (hxs x List.mem_cons_self) (hys y List.mem_cons_self) hi hf hs
          have htail := ih (Nat.succ.inj hlength)
            (fun z hz => hxs z (List.mem_cons_of_mem x hz))
            (fun z hz => hys z (List.mem_cons_of_mem y hz)) hints hfloats hstrings
          rw [hhead, htail]

theorem ScalarType.raw_injective {t u : ScalarType} (heq : t.raw = u.raw) : t = u := by
  have hvalue := congrArg ValueType.ofRaw? heq
  rw [t.ofRaw?_raw, u.ofRaw?_raw] at hvalue
  cases t <;> cases u <;> cases hvalue <;> rfl

/-- A value can be recovered from what the reader returns for it. -/
theorem Value.toMeta_injective {v w : Value} (hv : v.Canonical) (hw : w.Canonical)
    (heq : v.toMeta = w.toMeta) : v = w := by
  cases v with
  | scalar t x =>
      cases w with
      | scalar u y =>
          obtain ⟨htype, _, hints, hfloats, hstrings⟩ := MetaValue.mk.inj heq
          cases ScalarType.raw_injective htype
          rw [ScalarType.payload_eq hv hw hints hfloats hstrings]
      | array u ys small => exact absurd (MetaValue.mk.inj heq).1 t.raw_ne_array
  | array t xs small =>
      cases w with
      | scalar u y => exact absurd (MetaValue.mk.inj heq).1.symm u.raw_ne_array
      | array u ys small' =>
          have hcount := congrArg MetaValue.count heq
          rw [Value.count_array, Value.count_array] at hcount
          obtain ⟨_, htype, hints, hfloats, hstrings⟩ := MetaValue.mk.inj heq
          cases ScalarType.raw_injective htype
          cases ScalarType.items_eq hcount hv hw hints hfloats hstrings
          rfl

/-! ## The cursor is exact -/

theorem readBytes_ok {n : Nat} {input bs rest : Bytes} :
    readBytes n input = .ok (bs, rest) ↔ bs.length = n ∧ input = bs ++ rest := by
  unfold readBytes
  split
  next hle =>
    constructor
    · intro hread
      cases hread
      exact ⟨by rw [List.length_take, Nat.min_eq_left hle], (List.take_append_drop n input).symm⟩
    · rintro ⟨rfl, rfl⟩
      rw [List.take_left, List.drop_left]
  next hshort =>
    constructor
    · intro hread
      cases hread
    · rintro ⟨rfl, rfl⟩
      rw [List.length_append] at hshort
      omega

theorem exact_word (width : Nat) :
    Exact (readWord width) (· < 256 ^ width) (leBytes width) where
  complete := by
    intro n hn rest
    have hread : readBytes width (leBytes width n ++ rest) = .ok (leBytes width n, rest) :=
      readBytes_ok.mpr ⟨leBytes_length width n, rfl⟩
    refine bind_ok.mpr ⟨_, hread, ?_⟩
    dsimp only
    rw [leNat_leBytes hn]
    rfl
  sound := by
    intro input n rest hread
    obtain ⟨⟨word, rest'⟩, hbytes, hresult⟩ := bind_ok.mp hread
    cases hresult
    obtain ⟨rfl, rfl⟩ := readBytes_ok.mp hbytes
    exact ⟨leNat_lt word, by rw [leBytes_leNat]⟩

theorem exact_string : Exact readString (·.length < 2 ^ 64) encodeString where
  complete := by
    intro s hs rest
    unfold encodeString
    rw [List.append_assoc]
    exact bind_ok.mpr ⟨_, (exact_word 8).complete hs _, readBytes_ok.mpr ⟨rfl, rfl⟩⟩
  sound := by
    intro input s rest hread
    obtain ⟨⟨len, rest'⟩, hlen, hbytes⟩ := bind_ok.mp hread
    obtain ⟨hlt, rfl⟩ := (exact_word 8).sound hlen
    obtain ⟨rfl, rfl⟩ := readBytes_ok.mp hbytes
    exact ⟨hlt, by rw [encodeString, List.append_assoc]⟩

end Arcint.Gguf
