import Arcint.Core.Chat
import Mathlib.Data.List.Forall2

/-! # The integers of a request

A request's integers are JSON integers in a signed or an unsigned word, and end in an `int`. A cast
stands on every way there, and the checks stand behind the first of them.
-/

namespace Arcint.Core.Chat

open Foundation Text

section Casts

variable {F : Type}

/-- An unsigned word that a cast takes to a negative `int`. -/
def WrapsNegative (v : Json F) : Prop := ∃ u, v = .unsigned u ∧ 2 ^ 64 - 2 ^ 31 ≤ u.toNat

theorem toInt_getInt64_unsigned (u : UInt64) : (Json.unsigned (F := F) u).getInt64.toInt =
    if 2 * u.toNat < 2 ^ 64 then (u.toNat : Int) else u.toNat - (2 ^ 64 : Nat) :=
  BitVec.toInt_eq_toNat_cond u.toBitVec

theorem toInt_getInt32_unsigned (u : UInt64) :
    (Json.unsigned (F := F) u).getInt32.toInt = (u.toNat : Int).bmod (2 ^ 32) := by
  have hlow := BitVec.toInt_eq_toNat_bmod u.toUInt32.toBitVec
  have hnat : u.toUInt32.toBitVec.toNat = u.toNat % 2 ^ 32 := UInt64.toNat_toUInt32 u
  rw [hnat, Int.natCast_emod, Int.emod_bmod] at hlow
  exact hlow

/-- An integer that passed the range check is the one it was read from, unless it wrapped. -/
theorem narrowed_eq_iff {v : Json F} (hinteger : v.isInteger = true)
    (hrange : ¬ OutOfRange v.getInt64) :
    v.toInt? = some v.getInt64.toInt32.toInt ↔ ¬ WrapsNegative v := by
  unfold OutOfRange at hrange
  have hnarrow : v.getInt64.toInt32.toInt = v.getInt64.toInt := by
    rw [Int64.toInt_toInt32]
    exact Int.bmod_eq_of_le (by omega) (by omega)
  rw [hnarrow]
  cases v with
  | integer n => exact iff_of_true rfl (by rintro ⟨u, ⟨⟩, _⟩)
  | unsigned u =>
      have hword := u.toNat_lt
      have hwraps : WrapsNegative (Json.unsigned (F := F) u) ↔ 2 ^ 64 - 2 ^ 31 ≤ u.toNat := by
        constructor
        · rintro ⟨_, ⟨⟩, hle⟩
          exact hle
        · exact fun hle => ⟨u, rfl, hle⟩
      rw [toInt_getInt64_unsigned] at hrange
      rw [hwraps, Json.toInt?, Option.some_inj, toInt_getInt64_unsigned]
      split_ifs at hrange ⊢ <;> omega
  | _ => cases hinteger

/-- The lower half of a word is all of it when that is an `int`. -/
theorem eq_bmod_iff {n : Int} (hn : 0 ≤ n) : n = n.bmod (2 ^ 32) ↔ n < 2 ^ 31 := by
  constructor
  · intro heq
    rw [heq]
    exact Int.bmod_lt (by decide)
  · exact fun hlt => (Int.bmod_eq_of_le (by omega) (by omega)).symm

/-- An id that passed the sign check is the one it was read from, when it is an `int`. -/
theorem truncated_eq_iff {v : Json F} (hinteger : v.isInteger = true) (hsign : ¬ v.getInt64 < 0) :
    v.toInt? = some v.getInt32.toInt ↔ ∀ n ∈ v.toInt?, n < 2 ^ 31 := by
  rw [Int64.lt_iff_toInt_lt, Int.not_lt] at hsign
  have hone : ∀ n : Int, (∀ m ∈ some n, m < 2 ^ 31) ↔ n < 2 ^ 31 := fun n => by simp
  cases v with
  | integer n =>
      have hcast : (Json.integer (F := F) n).getInt32.toInt = n.toInt.bmod (2 ^ 32) :=
        Int64.toInt_toInt32 n
      rw [Json.toInt?, hone, Option.some_inj, hcast]
      exact eq_bmod_iff hsign
  | unsigned u =>
      rw [Json.toInt?, hone, Option.some_inj, toInt_getInt32_unsigned]
      exact eq_bmod_iff (Int.natCast_nonneg _)
  | _ => cases hinteger

/-- The `int` is the JSON integer. -/
def Held (v : Json F) (n : Int32) : Prop := v.toInt? = some n.toInt

/-- The JSON integer is one that an `int` can hold. -/
def Fits (v : Json F) : Prop := ∀ n ∈ v.toInt?, -2 ^ 31 ≤ n ∧ n < 2 ^ 31

theorem Held.fits {v : Json F} {n : Int32} (h : Held v n) : Fits v := by
  intro m hm
  obtain rfl : m = n.toInt := Option.some.inj (hm.symm.trans h)
  exact ⟨n.le_toInt, n.toInt_lt⟩

theorem held_iff_fits (v : Json F) (n : Int32) (h : Held v n) : Held v n ↔ Fits v :=
  iff_of_true h h.fits

end Casts

section Kept

variable {F S : Type}

/-- The field the length limit is read from. -/
def maxTokensField (b : Json F) : Option (Json F) :=
  (field b "max_tokens").or (field b "max_completion_tokens")

/-- The entries of `stop_token_ids`. -/
def stopTokenEntries (b : Json F) : Option (List (Json F)) :=
  (field b "stop_token_ids").bind Json.getArray

/-- The token ids of a prompt that is an array of them. -/
def promptTokens (b : Json F) : List (Json F) :=
  match b.get (bytes "prompt") with
  | some (.array (first :: rest)) => if first.isInteger then first :: rest else []
  | _ => []

/-- What the sampler's integers are read from. -/
def integersRead (b : Json F) : List (Json F) :=
  (field b "top_k").toList ++ (maxTokensField b).toList ++ (stopTokenEntries b).getD []

/-- The sampler's integers are those of the body, and fit. -/
structure IntegersKept (b : Json F) (s : SamplerOverrides S) : Prop where
  topK : Option.Rel Held (field b "top_k") s.topK
  maxTokens : Option.Rel Held (maxTokensField b) s.maxTokens
  stopTokenIds : Option.Rel (List.Forall₂ Held) (stopTokenEntries b) s.stopTokenIds
  fits : ∀ v ∈ integersRead b, Fits v

/-- So are the ids of the prompt. -/
structure CompletionKept (b : Json F) (req : CompletionRequest S) : Prop where
  sampler : IntegersKept b req.sampler
  promptIds : List.Forall₂ Held (promptTokens b) req.promptIds
  fits : ∀ v ∈ promptTokens b, Fits v

/-! ## What was read -/

/-- An integer behind the range check. -/
def Narrowed (v : Json F) (n : Int32) : Prop :=
  v.isInteger = true ∧ ¬ OutOfRange v.getInt64 ∧ n = v.getInt64.toInt32

/-- An id behind the sign check. -/
def Truncated (v : Json F) (n : Int32) : Prop :=
  v.isInteger = true ∧ ¬ v.getInt64 < 0 ∧ n = v.getInt32

theorem Narrowed.held_iff {v : Json F} {n : Int32} (h : Narrowed v n) :
    Held v n ↔ ¬ WrapsNegative v := by
  obtain ⟨hinteger, hrange, rfl⟩ := h
  exact narrowed_eq_iff hinteger hrange

theorem Truncated.held_iff {v : Json F} {n : Int32} (h : Truncated v n) :
    Held v n ↔ ∀ m ∈ v.toInt?, m < 2 ^ 31 := by
  obtain ⟨hinteger, hsign, rfl⟩ := h
  exact truncated_eq_iff hinteger hsign

theorem readInteger_ok {b : Json F} {key : String} {dst : Option Int32}
    (h : readInteger b key none = .ok dst) : Option.Rel Narrowed (field b key) dst := by
  unfold readInteger at h
  cases hfield : field b key with
  | none =>
      rw [hfield] at h
      cases h
      exact .none
  | some v =>
      rw [hfield] at h
      dsimp only at h
      split_ifs at h with hinteger hrange
      · cases h
      · cases h
      · cases h
        exact .some ⟨by simpa using hinteger, hrange, rfl⟩

theorem readMaxTokens_ok {b : Json F} {dst : Option Int32} (h : readMaxTokens b none = .ok dst) :
    Option.Rel Narrowed (maxTokensField b) dst := by
  obtain ⟨first, hfirst, hnext⟩ := bind_ok.mp h
  have hread := readInteger_ok hfirst
  unfold maxTokensField
  generalize field b "max_tokens" = limit at hread ⊢
  cases hread with
  | none => exact readInteger_ok hnext
  | some hnarrowed =>
      cases hnext
      exact .some hnarrowed

theorem readStopTokenId_ok {v : Json F} {n : Int32} (h : readStopTokenId v = .ok n) :
    Narrowed v n := by
  unfold readStopTokenId at h
  split_ifs at h with hinteger hrange
  · cases h
  · cases h
  · cases h
    exact ⟨by simpa using hinteger, hrange, rfl⟩

theorem readStopTokenIds_ok {b : Json F} {dst : Option (List Int32)}
    (h : readStopTokenIds b none = .ok dst) :
    Option.Rel (List.Forall₂ Narrowed) (stopTokenEntries b) dst := by
  unfold readStopTokenIds at h
  unfold stopTokenEntries
  cases hfield : field b "stop_token_ids" with
  | none =>
      rw [hfield] at h
      cases h
      exact .none
  | some v =>
      rw [hfield] at h
      cases hitems : v.getArray with
      | none =>
          simp only [hitems] at h
          cases h
      | some items =>
          simp only [hitems] at h
          cases hparsed : parseAll readStopTokenId items with
          | error e =>
              rw [hparsed] at h
              cases h
          | ok ids =>
              rw [hparsed] at h
              cases h
              rw [Option.bind_some, hitems]
              exact .some ((parseAll_ok hparsed).imp fun _ _ => readStopTokenId_ok)

theorem readPromptId_ok {v : Json F} {n : Int32} (h : readPromptId v = .ok n) : Truncated v n := by
  unfold readPromptId at h
  split_ifs at h with hrefused
  · cases h
  · cases h
    obtain ⟨hinteger, hsign⟩ := not_or.mp hrefused
    exact ⟨by simpa using hinteger, hsign, rfl⟩

theorem readPrompt_ok {b : Json F} {prompt : Bytes × List Int32} (h : readPrompt b = .ok prompt) :
    List.Forall₂ Truncated (promptTokens b) prompt.2 := by
  unfold readPrompt at h
  unfold promptTokens
  split at h
  next => cases h
  next text hprompt =>
    cases h
    rw [hprompt]
    exact .nil
  next first rest hprompt =>
    rw [hprompt]
    dsimp only
    split_ifs at h ⊢ with hinteger
    · obtain ⟨ids, hids, heq⟩ := bind_ok.mp h
      cases heq
      exact (parseAll_ok hids).imp fun _ _ => readPromptId_ok
    · split at h
      next =>
        cases h
        exact .nil
      next => cases h
  next => cases h

/-- The sampler's integers are behind the range check. -/
theorem readSampler_ok {single : Json F → S} {b : Json F} {s : SamplerOverrides S}
    (h : readSampler single b { } = .ok s) :
    Option.Rel Narrowed (field b "top_k") s.topK ∧
      Option.Rel Narrowed (maxTokensField b) s.maxTokens ∧
      Option.Rel (List.Forall₂ Narrowed) (stopTokenEntries b) s.stopTokenIds := by
  simp only [readSampler, bind_ok] at h
  obtain ⟨_, _, _, _, _, _, _, _, _, _, topK, htopK, maxTokens, hmaxTokens, _, _, _, _, _, _,
    ids, hids, _, _, heq⟩ := h
  cases heq
  exact ⟨readInteger_ok htopK, readMaxTokens_ok hmaxTokens, readStopTokenIds_ok hids⟩

theorem parseChatRequest_ok {single : Json F → S} {float : F → Bytes} {body : Json F}
    {req : ChatRequest F S} (h : parseChatRequest single float body = .ok req) :
    readSampler single body { } = .ok req.sampler := by
  unfold parseChatRequest at h
  split_ifs at h with hobject
  · cases h
  · simp only [bind_ok] at h
    obtain ⟨_, _, _, _, _, _, _, _, sampler, hsampler, _, _, heq⟩ := h
    cases heq
    exact hsampler

theorem parseCompletionRequest_ok {single : Json F → S} {body : Json F}
    {req : CompletionRequest S} (h : parseCompletionRequest single body = .ok req) :
    readSampler single body { } = .ok req.sampler ∧
      List.Forall₂ Truncated (promptTokens body) req.promptIds := by
  unfold parseCompletionRequest at h
  split_ifs at h with hobject
  · cases h
  · simp only [bind_ok] at h
    obtain ⟨prompt, hprompt, _, _, _, _, _, _, sampler, hsampler, heq⟩ := h
    cases heq
    exact ⟨hsampler, readPrompt_ok hprompt⟩

/-! ## What is kept -/

theorem rel_iff {α β : Type} {R Q : α → β → Prop} {P : α → Prop} {x : Option α} {y : Option β}
    (hiff : ∀ a b, R a b → (Q a b ↔ P a)) (h : Option.Rel R x y) :
    Option.Rel Q x y ↔ ∀ a ∈ x, P a := by
  cases h with
  | none => exact iff_of_true .none (by simp)
  | @some a b hab =>
      have hone : Option.Rel Q (some a) (some b) ↔ Q a b := by
        constructor
        · rintro ⟨h⟩
          exact h
        · exact .some
      rw [hone, hiff a b hab]
      simp

theorem forall₂_iff {α β : Type} {R Q : α → β → Prop} {P : α → Prop} {l : List α} {l' : List β}
    (hiff : ∀ a b, R a b → (Q a b ↔ P a)) (h : List.Forall₂ R l l') :
    List.Forall₂ Q l l' ↔ ∀ a ∈ l, P a := by
  induction h with
  | nil => exact iff_of_true .nil (by simp)
  | cons hab _ ih => rw [List.forall₂_cons, hiff _ _ hab, ih, List.forall_mem_cons]

theorem forall_integersRead {b : Json F} {P : Json F → Prop} : (∀ v ∈ integersRead b, P v) ↔
    (∀ v ∈ field b "top_k", P v) ∧ (∀ v ∈ maxTokensField b, P v) ∧
      ∀ items ∈ stopTokenEntries b, ∀ v ∈ items, P v := by
  unfold integersRead
  simp only [List.forall_mem_append, Option.mem_toList, and_assoc]
  cases stopTokenEntries b <;> simp

theorem integersKept_iff {single : Json F → S} {b : Json F} {s : SamplerOverrides S}
    (h : readSampler single b { } = .ok s) :
    IntegersKept b s ↔ ∀ v ∈ integersRead b, ¬ WrapsNegative v := by
  obtain ⟨htopK, hmaxTokens, hids⟩ := readSampler_ok h
  have hvalue : ∀ v n, Narrowed (F := F) v n → (Held v n ↔ ¬ WrapsNegative v) :=
    fun _ _ => Narrowed.held_iff
  have hvalues : ∀ items ids, List.Forall₂ (Narrowed (F := F)) items ids →
      (List.Forall₂ Held items ids ↔ ∀ v ∈ items, ¬ WrapsNegative v) :=
    fun _ _ => forall₂_iff hvalue
  rw [forall_integersRead, ← rel_iff hvalue htopK, ← rel_iff hvalue hmaxTokens,
    ← rel_iff hvalues hids]
  constructor
  · exact fun hkept => ⟨hkept.topK, hkept.maxTokens, hkept.stopTokenIds⟩
  · rintro ⟨htop, hmax, hstop⟩
    refine ⟨htop, hmax, hstop, forall_integersRead.mpr ⟨?_, ?_, ?_⟩⟩
    · exact (rel_iff held_iff_fits htop).mp htop
    · exact (rel_iff held_iff_fits hmax).mp hmax
    · refine (rel_iff (fun items ids hall => iff_of_true hall ?_) hstop).mp hstop
      exact (forall₂_iff held_iff_fits hall).mp hall

/-- The integers of an accepted request are those of its body exactly when no unsigned word wraps
to a negative `int` and no id of the prompt is past an `int`. -/
theorem requests_kept_iff {single : Json F → S} {float : F → Bytes} (body : Json F) :
    (∀ req, parseChatRequest single float body = .ok req →
      (IntegersKept body req.sampler ↔ ∀ v ∈ integersRead body, ¬ WrapsNegative v)) ∧
    ∀ req, parseCompletionRequest single body = .ok req →
      (CompletionKept body req ↔ (∀ v ∈ integersRead body, ¬ WrapsNegative v) ∧
        ∀ v ∈ promptTokens body, ∀ n ∈ v.toInt?, n < 2 ^ 31) := by
  refine ⟨fun req h => integersKept_iff (parseChatRequest_ok h), fun req h => ?_⟩
  obtain ⟨hsampler, hids⟩ := parseCompletionRequest_ok h
  have hvalue : ∀ v n, Truncated (F := F) v n → (Held v n ↔ ∀ m ∈ v.toInt?, m < 2 ^ 31) :=
    fun _ _ => Truncated.held_iff
  rw [← integersKept_iff hsampler, ← forall₂_iff hvalue hids]
  constructor
  · exact fun hkept => ⟨hkept.sampler, hkept.promptIds⟩
  · rintro ⟨hkept, hheld⟩
    exact ⟨hkept, hheld, (forall₂_iff held_iff_fits hheld).mp hheld⟩

/-- A body that both endpoints accept. -/
def shortBody : Json Empty := .object
  [(bytes "max_tokens", .unsigned 64),
    (bytes "messages", .array [.object [(bytes "content", .string (bytes "hi")),
      (bytes "role", .string (bytes "user"))]]),
    (bytes "prompt", .array [.unsigned 5]), (bytes "stop_token_ids", .array [.integer 7])]

theorem requests_kept_iff_shortBody :
    (∃ req, parseChatRequest (fun _ => ()) nofun shortBody = .ok req ∧
      (IntegersKept shortBody req.sampler ↔
        ∀ v ∈ integersRead shortBody, ¬ WrapsNegative v)) ∧
    ∃ req, parseCompletionRequest (fun _ => ()) shortBody = .ok req ∧
      (CompletionKept shortBody req ↔ (∀ v ∈ integersRead shortBody, ¬ WrapsNegative v) ∧
        ∀ v ∈ promptTokens shortBody, ∀ n ∈ v.toInt?, n < 2 ^ 31) := by
  obtain ⟨hchat, hcompletion⟩ :=
    @requests_kept_iff Empty Unit (fun _ => ()) (fun x => x.elim) shortBody
  exact ⟨⟨_, rfl, hchat _ rfl⟩, _, rfl, hcompletion _ rfl⟩

/-- A prompt of one id past an `int`. -/
def longIdBody : Json Empty :=
  .object [(bytes "prompt", .array [.unsigned 4294967301])]

/-- A length limit at the end of the unsigned words. -/
def endlessBody : Json Empty :=
  .object [(bytes "max_tokens", .unsigned 18446744073709551615),
    (bytes "prompt", .string (bytes "hi"))]

/-- The id is accepted as another id, and the limit as a negative one. -/
theorem wrapped_accepted :
    (∃ req, parseCompletionRequest (fun _ => ()) longIdBody = .ok req ∧ req.promptIds = [5] ∧
      ¬ CompletionKept longIdBody req) ∧
    ∃ req, parseCompletionRequest (fun _ => ()) endlessBody = .ok req ∧
      req.sampler.maxTokens = some (-1) ∧ ¬ CompletionKept endlessBody req := by
  refine ⟨⟨_, rfl, by decide, fun hkept => ?_⟩, _, rfl, by decide, fun hkept => ?_⟩
  · have hfits := hkept.fits (.unsigned 4294967301) List.mem_cons_self 4294967301 rfl
    omega
  · have hfits := hkept.sampler.fits (.unsigned 18446744073709551615) List.mem_cons_self
      18446744073709551615 rfl
    omega

end Kept

end Arcint.Core.Chat
