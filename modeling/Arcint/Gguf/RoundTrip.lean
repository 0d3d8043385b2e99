import Arcint.Gguf.Grammar

/-! # Reading is the inverse of writing

Under tags the reader knows, it accepts exactly the written values; whole files
follow. A tag it does not know consumes nothing, and is where the two part.
-/

namespace Arcint.Gguf

open Arcint.Foundation
open Arcint.Text (Bytes bytes)

/-! ## Scalars -/

/-- A value with one more element. -/
def MetaValue.push (out : MetaValue) (t : ScalarType) (x : t.Payload) : MetaValue :=
  { out with
    ints := out.ints ++ t.ints x
    floats := out.floats ++ t.floats x
    strings := out.strings ++ t.strings x }

theorem MetaValue.pushWord_eq (out : MetaValue) (type : WordType)
    (bits : Fin (256 ^ type.width)) :
    out.pushWord type bits.val = out.push (.word type) bits := by
  cases type <;>
    simp [pushWord, push, ScalarType.ints, ScalarType.floats, ScalarType.strings, WordType.width]

theorem MetaValue.pushString_eq (out : MetaValue) (s : Str) :
    out.pushString s.val = out.push .string s := by
  simp [pushString, push, ScalarType.ints, ScalarType.floats, ScalarType.strings]

theorem readScalarInto_complete (t : ScalarType) (x : t.Payload) (out : MetaValue) (rest : Bytes) :
    readScalarInto t.raw out (t.encode x ++ rest) = .ok (out.push t x, rest) := by
  unfold readScalarInto
  rw [t.ofRaw?_raw]
  cases t with
  | word type =>
      refine bind_ok.mpr ⟨_, (exact_word type.width).complete x.isLt rest, ?_⟩
      exact congrArg (fun value => Except.ok (value, rest)) (out.pushWord_eq type x)
  | string =>
      refine bind_ok.mpr ⟨_, exact_string.complete x.property rest, ?_⟩
      exact congrArg (fun value => Except.ok (value, rest)) (out.pushString_eq x)

theorem readScalarInto_sound {t : ScalarType} {out next : MetaValue} {input rest : Bytes}
    (hread : readScalarInto t.raw out input = .ok (next, rest)) :
    ∃ x, input = t.encode x ++ rest ∧ next = out.push t x := by
  unfold readScalarInto at hread
  rw [t.ofRaw?_raw] at hread
  cases t with
  | word type =>
      obtain ⟨⟨bits, tail⟩, hword, hresult⟩ := bind_ok.mp hread
      obtain ⟨hlt, rfl⟩ := (exact_word type.width).sound hword
      cases hresult
      exact ⟨⟨bits, hlt⟩, rfl, out.pushWord_eq type ⟨bits, hlt⟩⟩
  | string =>
      obtain ⟨⟨s, tail⟩, hstring, hresult⟩ := bind_ok.mp hread
      obtain ⟨hlt, rfl⟩ := exact_string.sound hstring
      cases hresult
      exact ⟨⟨s, hlt⟩, rfl, out.pushString_eq ⟨s, hlt⟩⟩

/-! ## Arrays -/

theorem readItems_complete (t : ScalarType) (items : List t.Payload) (out : MetaValue)
    (rest : Bytes) :
    readItems t.raw items.length out (items.flatMap t.encode ++ rest) =
      .ok (items.foldl (fun out x => out.push t x) out, rest) := by
  induction items generalizing out with
  | nil => rfl
  | cons x items ih =>
      rw [List.flatMap_cons, List.append_assoc]
      exact bind_ok.mpr ⟨_, readScalarInto_complete t x out _, ih _⟩

theorem readItems_sound {t : ScalarType} {count : Nat} {out next : MetaValue}
    {input rest : Bytes} (hread : readItems t.raw count out input = .ok (next, rest)) :
    ∃ items : List t.Payload, items.length = count ∧ input = items.flatMap t.encode ++ rest ∧
      next = items.foldl (fun out x => out.push t x) out := by
  induction count generalizing out input with
  | zero =>
      cases hread
      exact ⟨[], rfl, rfl, rfl⟩
  | succ count ih =>
      obtain ⟨⟨middle, tail⟩, hone, hmore⟩ := bind_ok.mp hread
      obtain ⟨x, rfl, rfl⟩ := readScalarInto_sound hone
      obtain ⟨items, hlength, rfl, rfl⟩ := ih hmore
      refine ⟨x :: items, by rw [List.length_cons, hlength], ?_, rfl⟩
      rw [List.flatMap_cons, List.append_assoc]

theorem foldl_push (t : ScalarType) (items : List t.Payload) (out : MetaValue) :
    items.foldl (fun out x => out.push t x) out =
      { out with
        ints := out.ints ++ items.flatMap t.ints
        floats := out.floats ++ items.flatMap t.floats
        strings := out.strings ++ items.flatMap t.strings } := by
  induction items generalizing out with
  | nil => simp
  | cons x items ih =>
      rw [List.foldl_cons, ih]
      simp [MetaValue.push]

/-! ## Values -/

theorem readValue_complete (v : Value) (rest : Bytes) :
    readValue v.tag (v.body ++ rest) = .ok (v.toMeta, rest) := by
  unfold readValue
  cases v with
  | scalar type payload =>
      rw [if_neg (show (Value.scalar type payload).tag ≠ ValueType.array.raw from
        type.raw_ne_array)]
      have hread := readScalarInto_complete type payload ⟨type.raw, 0, [], [], []⟩ rest
      simp only [MetaValue.push, List.nil_append] at hread
      exact hread
  | array type items small =>
      rw [if_pos (show (Value.array type items small).tag = ValueType.array.raw from rfl)]
      simp only [Value.body, List.append_assoc]
      refine bind_ok.mpr ⟨_, (exact_word 4).complete type.raw_lt _, ?_⟩
      refine bind_ok.mpr ⟨_, (exact_word 8).complete small _, ?_⟩
      refine bind_ok.mpr ⟨(), (ensure_ok _ _ _).mpr type.raw_ne_array, ?_⟩
      dsimp only
      rw [readItems_complete, foldl_push]
      simp [Value.toMeta, Value.tag]

/-- The element tag after an array's tag is one the reader knows. -/
def ElemTagKnown (vtype : Nat) (input : Bytes) : Prop :=
  vtype = ValueType.array.raw → ∀ elem rest, elem < 256 ^ 4 → input = leBytes 4 elem ++ rest →
    ValueType.ofRaw? elem ≠ none

theorem readValue_sound {vtype : Nat} {input rest : Bytes} {value : MetaValue}
    (hknown : ValueType.ofRaw? vtype ≠ none) (helem : ElemTagKnown vtype input)
    (hread : readValue vtype input = .ok (value, rest)) :
    ∃ v : Value, v.tag = vtype ∧ input = v.body ++ rest ∧ value = v.toMeta := by
  unfold readValue at hread
  split at hread
  next harray =>
    obtain ⟨⟨elem, tail⟩, hword, hafterElem⟩ := bind_ok.mp hread
    obtain ⟨⟨count, tail'⟩, hcount, hafterCount⟩ := bind_ok.mp hafterElem
    obtain ⟨_, hscalar, hitems⟩ := bind_ok.mp hafterCount
    obtain ⟨hlt, rfl⟩ := (exact_word 4).sound hword
    obtain ⟨hsmall, rfl⟩ := (exact_word 8).sound hcount
    have hne := (ensure_ok _ _ _).mp hscalar
    rcases ofRaw?_cases (helem harray elem _ hlt rfl) with hnested | ⟨t, rfl⟩
    · exact absurd hnested hne
    · obtain ⟨items, rfl, rfl, rfl⟩ := readItems_sound hitems
      refine ⟨.array t items hsmall, harray.symm, ?_, ?_⟩
      · simp only [Value.body, List.append_assoc]
      · rw [foldl_push]
        simp [Value.toMeta, harray]
  next hscalar =>
    rcases ofRaw?_cases hknown with harray | ⟨t, rfl⟩
    · exact absurd harray hscalar
    · obtain ⟨x, rfl, rfl⟩ := readScalarInto_sound hread
      refine ⟨.scalar t x, rfl, rfl, ?_⟩
      simp [Value.toMeta, MetaValue.push]

/-! ## Metadata -/

/-- The map after the entries have been assigned in order. -/
def assignAll (metadata : MetaMap) (entries : List Entry) : MetaMap :=
  entries.foldl (fun m e => assign e.1.val e.2.toMeta m) metadata

theorem readEntries_complete (entries : List Entry) (metadata : MetaMap) (rest : Bytes) :
    readEntries entries.length metadata (entries.flatMap encodeEntry ++ rest) =
      .ok (assignAll metadata entries, rest) := by
  induction entries generalizing metadata with
  | nil => rfl
  | cons e entries ih =>
      simp only [List.flatMap_cons, encodeEntry, List.append_assoc]
      refine bind_ok.mpr ⟨_, exact_string.complete e.1.property _, ?_⟩
      refine bind_ok.mpr ⟨_, (exact_word 4).complete e.2.tag_lt _, ?_⟩
      refine bind_ok.mpr ⟨_, readValue_complete e.2 _, ?_⟩
      exact ih _

/-- After some entries comes one with a tag the reader does not know: its own, or
that of its elements. -/
def UnknownTagAfter (input : Bytes) (entries : List Entry) : Prop :=
  ∃ (key : Str) (tag : Nat) (rest : Bytes), tag < 256 ^ 4 ∧
    input = entries.flatMap encodeEntry ++ (encodeString key.val ++ (leBytes 4 tag ++ rest)) ∧
    (ValueType.ofRaw? tag = none ∨ ¬ ElemTagKnown tag rest)

/-- Without unknown tags, what the reader accepts is a list of entries. -/
theorem readEntries_sound {n : Nat} {metadata result : MetaMap} {input rest : Bytes}
    (hclean : ∀ entries, entries.length < n → ¬ UnknownTagAfter input entries)
    (hread : readEntries n metadata input = .ok (result, rest)) :
    ∃ entries, entries.length = n ∧ input = entries.flatMap encodeEntry ++ rest ∧
      result = assignAll metadata entries := by
  induction n generalizing metadata input with
  | zero =>
      cases hread
      exact ⟨[], rfl, rfl, rfl⟩
  | succ n ih =>
      obtain ⟨⟨key, afterKey⟩, hkey, hrest⟩ := bind_ok.mp hread
      obtain ⟨⟨tag, afterTag⟩, htag, hrest'⟩ := bind_ok.mp hrest
      obtain ⟨⟨value, afterValue⟩, hvalue, hmore⟩ := bind_ok.mp hrest'
      obtain ⟨hsmall, rfl⟩ := exact_string.sound hkey
      obtain ⟨hlt, rfl⟩ := (exact_word 4).sound htag
      -- the first tag is known, since no entry comes before it
      have hfirst := hclean [] (Nat.succ_pos n)
      have hknown : ValueType.ofRaw? tag ≠ none := fun hnone =>
        hfirst ⟨⟨key, hsmall⟩, tag, afterTag, hlt, rfl, .inl hnone⟩
      have helem : ElemTagKnown tag afterTag := by
        by_contra hunknown
        exact hfirst ⟨⟨key, hsmall⟩, tag, afterTag, hlt, rfl, .inr hunknown⟩
      obtain ⟨v, rfl, rfl, rfl⟩ := readValue_sound hknown helem hvalue
      have hclean' : ∀ entries, entries.length < n → ¬ UnknownTagAfter afterValue entries := by
        rintro entries hshort ⟨key', tag', rest', hlt', rfl, hbad⟩
        refine hclean ((⟨key, hsmall⟩, v) :: entries) (Nat.succ_lt_succ hshort)
          ⟨key', tag', rest', hlt', ?_, hbad⟩
        simp only [List.flatMap_cons, encodeEntry, List.append_assoc]
      obtain ⟨entries, hlength, rfl, rfl⟩ := ih hclean' hmore
      refine ⟨(⟨key, hsmall⟩, v) :: entries, by rw [List.length_cons, hlength], ?_, rfl⟩
      simp only [List.flatMap_cons, encodeEntry, List.append_assoc]

theorem Value.tag_known (v : Value) : ValueType.ofRaw? v.tag ≠ none := by
  cases v with
  | scalar type payload =>
      rw [show (Value.scalar type payload).tag = type.raw from rfl, type.ofRaw?_raw]
      exact Option.some_ne_none _
  | array type items small => exact Option.some_ne_none _

theorem Value.elemTag_known (v : Value) (rest : Bytes) : ElemTagKnown v.tag (v.body ++ rest) := by
  intro harray elem rest' hlt hcut
  cases v with
  | scalar type payload => exact absurd harray type.raw_ne_array
  | array type items small =>
      simp only [Value.body, List.append_assoc] at hcut
      obtain ⟨rfl, _⟩ := (exact_word 4).cut_unique type.raw_lt hlt hcut
      rw [type.ofRaw?_raw]
      exact Option.some_ne_none _

/-- Cutting an input after equally many entries leaves the same rest. -/
theorem entries_cut_unique {first second : List Entry} {restFirst restSecond : Bytes}
    (hlength : first.length = second.length)
    (hcut : first.flatMap encodeEntry ++ restFirst = second.flatMap encodeEntry ++ restSecond) :
    restFirst = restSecond := by
  have hfirst := readEntries_complete first [] restFirst
  rw [hcut, hlength, readEntries_complete second [] restSecond] at hfirst
  exact (Prod.mk.inj (Except.ok.inj hfirst)).2.symm

/-- In a list of entries no unknown tag comes after fewer of them. -/
theorem not_unknownTagAfter {entries before : List Entry} {rest : Bytes}
    (hbefore : before.length < entries.length) :
    ¬ UnknownTagAfter (entries.flatMap encodeEntry ++ rest) before := by
  rintro ⟨key, tag, tail, hlt, hcut, hbad⟩
  obtain ⟨first, e, second, rfl, hfirst⟩ : ∃ first e second,
      entries = first ++ e :: second ∧ first.length = before.length := by
    refine ⟨entries.take before.length, entries[before.length], entries.drop (before.length + 1),
      ?_, List.length_take_of_le (Nat.le_of_lt hbefore)⟩
    rw [List.cons_getElem_drop_succ, List.take_append_drop]
  rw [List.flatMap_append, List.flatMap_cons, List.append_assoc] at hcut
  have hentry := entries_cut_unique hfirst hcut
  simp only [encodeEntry, List.append_assoc] at hentry
  obtain ⟨_, hafterKey⟩ := exact_string.cut_unique e.1.property key.property hentry
  obtain ⟨rfl, rfl⟩ := (exact_word 4).cut_unique e.2.tag_lt hlt hafterKey
  rcases hbad with hnone | helem
  · exact e.2.tag_known hnone
  · exact helem (e.2.elemTag_known _)

/-! ## Tensor descriptors -/

/-- A descriptor that can be written and that the reader can size. -/
structure TensorInfo.Valid (t : TensorInfo) : Prop where
  name : t.name.length < 2 ^ 64
  rank : t.dims.length < 2 ^ 32
  dims : ∀ d ∈ t.dims, d < 2 ^ 64
  type : t.ggmlType < 2 ^ 32
  known : isKnownType t.ggmlType = true
  offset : t.offset < 2 ^ 64
  count : t.nElements = elementCount t.dims

theorem flatMap_leBytes_length (width : Nat) (ns : List Nat) :
    (ns.flatMap (leBytes width)).length = ns.length * width := by
  induction ns with
  | nil => simp
  | cons n ns ih =>
      rw [List.flatMap_cons, List.length_append, leBytes_length, ih, List.length_cons,
        Nat.succ_mul, Nat.add_comm]

theorem exact_tensor : Exact readTensor TensorInfo.Valid encodeTensor where
  complete := by
    intro t hvalid rest
    simp only [encodeTensor, List.append_assoc]
    refine bind_ok.mpr ⟨_, exact_string.complete hvalid.name _, ?_⟩
    refine bind_ok.mpr ⟨_, (exact_word 4).complete hvalid.rank _, ?_⟩
    refine bind_ok.mpr ⟨(), (ensure_ok _ _ _).mpr ?_, ?_⟩
    · rw [List.length_append, flatMap_leBytes_length]
      exact Nat.le_add_right _ _
    refine bind_ok.mpr ⟨_, (exact_word 8).many_complete hvalid.dims _, ?_⟩
    refine bind_ok.mpr ⟨_, (exact_word 4).complete hvalid.type _, ?_⟩
    refine bind_ok.mpr ⟨_, (exact_word 8).complete hvalid.offset _, ?_⟩
    refine bind_ok.mpr ⟨(), (ensure_ok _ _ _).mpr hvalid.known, ?_⟩
    rw [← hvalid.count]
    rfl
  sound := by
    intro input t rest hread
    obtain ⟨⟨name, afterName⟩, hname, hread1⟩ := bind_ok.mp hread
    obtain ⟨⟨nDims, afterRank⟩, hrank, hread2⟩ := bind_ok.mp hread1
    obtain ⟨_, _, hread3⟩ := bind_ok.mp hread2
    obtain ⟨⟨dims, afterDims⟩, hdims, hread4⟩ := bind_ok.mp hread3
    obtain ⟨⟨ggmlType, afterType⟩, htype, hread5⟩ := bind_ok.mp hread4
    obtain ⟨⟨offset, afterOffset⟩, hoffset, hread6⟩ := bind_ok.mp hread5
    obtain ⟨_, hknown, hresult⟩ := bind_ok.mp hread6
    obtain ⟨hnameLt, rfl⟩ := exact_string.sound hname
    obtain ⟨hrankLt, rfl⟩ := (exact_word 4).sound hrank
    obtain ⟨rfl, hdimsLt, rfl⟩ := (exact_word 8).many_sound hdims
    obtain ⟨htypeLt, rfl⟩ := (exact_word 4).sound htype
    obtain ⟨hoffsetLt, rfl⟩ := (exact_word 8).sound hoffset
    cases hresult
    refine ⟨⟨hnameLt, hrankLt, hdimsLt, htypeLt, (ensure_ok _ _ _).mp hknown, hoffsetLt, rfl⟩, ?_⟩
    simp only [encodeTensor, List.append_assoc]

end Arcint.Gguf
