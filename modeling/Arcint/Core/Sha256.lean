import Arcint.Foundation.Fips180

/-! # The streaming hash

The hash object takes a message in any number of pieces. It keeps the bytes of the block it is
in and the hash value of the blocks before it; padding goes through the same buffer.
-/

namespace Arcint.Core

open Foundation

/-! ## The object -/

def kK : List UInt32 := [
  0x428a2f98, 0x71374491, 0xb5c0fbcf, 0xe9b5dba5, 0x3956c25b, 0x59f111f1, 0x923f82a4, 0xab1c5ed5,
  0xd807aa98, 0x12835b01, 0x243185be, 0x550c7dc3, 0x72be5d74, 0x80deb1fe, 0x9bdc06a7, 0xc19bf174,
  0xe49b69c1, 0xefbe4786, 0x0fc19dc6, 0x240ca1cc, 0x2de92c6f, 0x4a7484aa, 0x5cb0a9dc, 0x76f988da,
  0x983e5152, 0xa831c66d, 0xb00327c8, 0xbf597fc7, 0xc6e00bf3, 0xd5a79147, 0x06ca6351, 0x14292967,
  0x27b70a85, 0x2e1b2138, 0x4d2c6dfc, 0x53380d13, 0x650a7354, 0x766a0abb, 0x81c2c92e, 0x92722c85,
  0xa2bfe8a1, 0xa81a664b, 0xc24b8b70, 0xc76c51a3, 0xd192e819, 0xd6990624, 0xf40e3585, 0x106aa070,
  0x19a4c116, 0x1e376c08, 0x2748774c, 0x34b0bcb5, 0x391c0cb3, 0x4ed8aa4a, 0x5b9cca4f, 0x682e6ff3,
  0x748f82ee, 0x78a5636f, 0x84c87814, 0x8cc70208, 0x90befffa, 0xa4506ceb, 0xbef9a3f7, 0xc67178f2]

def rotr (x n : UInt32) : UInt32 := (x >>> n) ||| (x <<< (32 - n))

structure Sha256 where
  bitLength : UInt64
  state : Fips180.Words
  buffer : List UInt8
  buffered : ℕ
  buffer_length : buffer.length = 64
  /-- A full buffer is compressed at once. -/
  buffered_lt : buffered < 64

namespace Sha256

def reset (s : Sha256) : Sha256 :=
  { s with
    bitLength := 0
    buffered := 0
    buffered_lt := by decide
    state := ⟨0x6a09e667, 0xbb67ae85, 0x3c6ef372, 0xa54ff53a,
      0x510e527f, 0x9b05688c, 0x1f83d9ab, 0x5be0cd19⟩ }

/-- `Sha256()`. -/
def fresh : Sha256 :=
  reset ⟨0, ⟨0, 0, 0, 0, 0, 0, 0, 0⟩, List.replicate 64 0, 0, by decide, by decide⟩

/-! ## Compression -/

/-- `w[i]`, from the bytes of the block. -/
def load (block : List UInt8) (i : ℕ) : UInt32 :=
  ((block.getD (i * 4) 0).toUInt32 <<< 24) |||
    ((block.getD (i * 4 + 1) 0).toUInt32 <<< 16) |||
    ((block.getD (i * 4 + 2) 0).toUInt32 <<< 8) |||
    (block.getD (i * 4 + 3) 0).toUInt32

/-- `w[i]`, from the words before it. -/
def extend (w : List UInt32) (i : ℕ) : UInt32 :=
  let w15 := w.getD (i - 15) 0
  let w2 := w.getD (i - 2) 0
  let s0 := rotr w15 7 ^^^ rotr w15 18 ^^^ (w15 >>> 3)
  let s1 := rotr w2 17 ^^^ rotr w2 19 ^^^ (w2 >>> 10)
  w.getD (i - 16) 0 + s0 + w.getD (i - 7) 0 + s1

/-- The array `w`; its two loops write every place once, in order. -/
def schedule (block : List UInt8) : List UInt32 :=
  (List.range' 16 48).foldl (fun w i => w ++ [extend w i]) ((List.range 16).map (load block))

/-- A pass of the loop over the rounds. -/
def transformRound (w : List UInt32) (v : Fips180.Words) (i : ℕ) : Fips180.Words :=
  let s1 := rotr v.e 6 ^^^ rotr v.e 11 ^^^ rotr v.e 25
  let ch := (v.e &&& v.f) ^^^ (~~~v.e &&& v.g)
  let temp1 := v.h + s1 + ch + kK.getD i 0 + w.getD i 0
  let s0 := rotr v.a 2 ^^^ rotr v.a 13 ^^^ rotr v.a 22
  let maj := (v.a &&& v.b) ^^^ (v.a &&& v.c) ^^^ (v.b &&& v.c)
  let temp2 := s0 + maj
  { h := v.g, g := v.f, f := v.e, e := v.d + temp1, d := v.c, c := v.b, b := v.a,
    a := temp1 + temp2 }

def transform (state : Fips180.Words) (block : List UInt8) : Fips180.Words :=
  let v := (List.range 64).foldl (transformRound (schedule block)) state
  ⟨state.a + v.a, state.b + v.b, state.c + v.c, state.d + v.d,
    state.e + v.e, state.f + v.f, state.g + v.g, state.h + v.h⟩

/-! ## Updates -/

/-- The bytes a pass of `update` moves. -/
def take (s : Sha256) (p : List UInt8) : ℕ := min p.length (64 - s.buffered)

theorem take_le_length (s : Sha256) (p : List UInt8) : s.take p ≤ p.length := min_le_left _ _

theorem take_le_room (s : Sha256) (p : List UInt8) : s.buffered + s.take p ≤ 64 := by
  have hroom := s.buffered_lt
  rw [take]
  omega

theorem take_pos (s : Sha256) {p : List UInt8} (hp : 0 < p.length) : 0 < s.take p :=
  lt_min hp (Nat.sub_pos_of_lt s.buffered_lt)

theorem length_filled (s : Sha256) (p : List UInt8) :
    (splice s.buffer s.buffered (p.take (s.take p))).length = 64 := by
  have htaken : (p.take (s.take p)).length = s.take p :=
    List.length_take_of_le (s.take_le_length p)
  rw [length_splice _ _ _ (by rw [htaken, s.buffer_length]; exact s.take_le_room p),
    s.buffer_length]

/-- A pass of the loop of `update`: fill the buffer, and compress it when it is full. -/
def pass (s : Sha256) (p : List UInt8) : Sha256 :=
  let buffer := splice s.buffer s.buffered (p.take (s.take p))
  if hfull : s.buffered + s.take p = 64 then
    { s with
      state := transform s.state buffer
      buffer
      buffered := 0
      buffer_length := s.length_filled p
      buffered_lt := by decide }
  else
    { s with
      buffer
      buffered := s.buffered + s.take p
      buffer_length := s.length_filled p
      buffered_lt := lt_of_le_of_ne (s.take_le_room p) hfull }

def absorb (s : Sha256) (p : List UInt8) : Sha256 :=
  if 0 < p.length then (s.pass p).absorb (p.drop (s.take p)) else s
termination_by p.length
decreasing_by
  have htake := s.take_pos ‹_›
  rw [List.length_drop]
  omega

def update (s : Sha256) (data : List UInt8) : Sha256 :=
  { s with bitLength := s.bitLength + UInt64.ofNat data.length * 8 }.absorb data

theorem buffered_pass (s : Sha256) (p : List UInt8) :
    (s.pass p).buffered = (s.buffered + s.take p) % 64 := by
  rw [pass]
  split
  next hfull => simp [hfull]
  next hfull => exact (Nat.mod_eq_of_lt (lt_of_le_of_ne (s.take_le_room p) hfull)).symm

theorem buffered_absorb (s : Sha256) (p : List UInt8) :
    (s.absorb p).buffered = (s.buffered + p.length) % 64 := by
  fun_induction absorb s p with
  | case1 s p hp ih =>
      have htake := s.take_le_length p
      rw [ih, buffered_pass, List.length_drop, Nat.mod_add_mod]
      congr 1
      omega
  | case2 s p hp =>
      have hroom := s.buffered_lt
      rw [Nat.eq_zero_of_not_pos hp]
      omega

@[simp] theorem buffered_update (s : Sha256) (data : List UInt8) :
    (s.update data).buffered = (s.buffered + data.length) % 64 := buffered_absorb _ data

/-! ## The digest -/

/-- The loop of `hex` that pads with zeros. -/
def padLoop (bits : UInt64) (s : Sha256) : Sha256 :=
  if s.buffered = 56 then s else padLoop bits { s.update [0x00] with bitLength := bits }
termination_by (120 - s.buffered) % 64
decreasing_by
  have hroom := s.buffered_lt
  simp only [buffered_update, List.length_singleton]
  omega

/-- `%08x`. -/
def format08x (w : UInt32) : List Char := List.leftpad 8 '0' (Nat.toDigits 16 w.toNat)

/-- The text, and the object it leaves. -/
def hex (s : Sha256) : String × Sha256 :=
  let bits := s.bitLength
  let padded := padLoop bits { s.update [0x80] with bitLength := bits }
  let tail := (List.range 8).map fun i => (bits >>> UInt64.ofNat (56 - i * 8)).toUInt8
  let final := padded.update tail
  (String.ofList (final.state.toList.flatMap format08x), final)

end Sha256

/-- `sha256_hex`. -/
def sha256Hex (data : List UInt8) : String := ((Sha256.fresh.update data).hex).1

/-- `sha256_file`, from what the reads return; without them the file did not open. -/
def sha256File (reads : Option (List (List UInt8))) : String :=
  match reads with
  | none => ""
  | some reads => (((reads.takeWhile (0 < ·.length)).foldl Sha256.update Sha256.fresh).hex).1

namespace Sha256

/-! ## The compression is the standard's -/

theorem rotr_eq (x : UInt32) {n : ℕ} (hpos : 0 < n) (hlt : n < 32) :
    rotr x (UInt32.ofNat n) = Fips180.ROTR n x := by
  apply UInt32.toBitVec_inj.mp
  have hleft : (4294967296 - n % 4294967296) % 32 = 32 - n := by omega
  simp [rotr, Fips180.ROTR, BitVec.rotateRight_def, Nat.mod_eq_of_lt hlt, hleft]

theorem smallSigma0_eq (x : UInt32) :
    Fips180.smallSigma0 x = rotr x 7 ^^^ rotr x 18 ^^^ (x >>> 3) := by
  rw [Fips180.smallSigma0, ← rotr_eq x (by decide : 0 < 7) (by decide),
    ← rotr_eq x (by decide : 0 < 18) (by decide)]
  rfl

theorem smallSigma1_eq (x : UInt32) :
    Fips180.smallSigma1 x = rotr x 17 ^^^ rotr x 19 ^^^ (x >>> 10) := by
  rw [Fips180.smallSigma1, ← rotr_eq x (by decide : 0 < 17) (by decide),
    ← rotr_eq x (by decide : 0 < 19) (by decide)]
  rfl

theorem bigSigma0_eq (x : UInt32) :
    Fips180.bigSigma0 x = rotr x 2 ^^^ rotr x 13 ^^^ rotr x 22 := by
  rw [Fips180.bigSigma0, ← rotr_eq x (by decide : 0 < 2) (by decide),
    ← rotr_eq x (by decide : 0 < 13) (by decide), ← rotr_eq x (by decide : 0 < 22) (by decide)]
  rfl

theorem bigSigma1_eq (x : UInt32) :
    Fips180.bigSigma1 x = rotr x 6 ^^^ rotr x 11 ^^^ rotr x 25 := by
  rw [Fips180.bigSigma1, ← rotr_eq x (by decide : 0 < 6) (by decide),
    ← rotr_eq x (by decide : 0 < 11) (by decide), ← rotr_eq x (by decide : 0 < 25) (by decide)]
  rfl

theorem load_eq {block : List UInt8} (hblock : block.length = 64) {i : ℕ} (hi : i < 16) :
    load block i = Fips180.word block i := by
  rw [load, or_shifts, Fips180.word, Fips180.beNat,
    slice_eq_map_getD block 0 (by omega : 4 * i + 4 ≤ block.length), Nat.mul_comm 4 i]
  rfl

/-- What the array holds once it is filled up to some place. -/
theorem getD_filled (f : ℕ → UInt32) {n i : ℕ} (hi : i < n) :
    ((List.range n).map f).getD i 0 = f i := by
  simp [hi]

theorem extend_eq (M : ℕ → UInt32) {i : ℕ} (hi : 16 ≤ i) :
    extend ((List.range i).map (Fips180.W M)) i = Fips180.W M i := by
  rw [Fips180.W, if_neg (Nat.not_lt.mpr hi), extend, getD_filled _ (by omega : i - 15 < i),
    getD_filled _ (by omega : i - 2 < i), getD_filled _ (by omega : i - 16 < i),
    getD_filled _ (by omega : i - 7 < i)]
  rw [← smallSigma0_eq, ← smallSigma1_eq]
  -- the standard adds the same four words in another order
  ac_rfl

theorem schedule_eq {block : List UInt8} (hblock : block.length = 64) :
    schedule block = (List.range 64).map (Fips180.W (Fips180.word block)) := by
  have hsteps : ∀ n, (List.range' 16 n).foldl (fun w i => w ++ [extend w i])
      ((List.range 16).map (load block)) =
        (List.range (16 + n)).map (Fips180.W (Fips180.word block)) := by
    intro n
    induction n with
    | zero =>
        apply List.map_congr_left
        intro i hi
        rw [load_eq hblock (List.mem_range.mp hi), Fips180.W, if_pos (List.mem_range.mp hi)]
    | succ n ih =>
        rw [List.range'_1_concat, List.foldl_append, ih, List.foldl_cons, List.foldl_nil,
          extend_eq _ (Nat.le_add_right 16 n), ← Nat.add_assoc, List.range_succ, List.map_append]
        rfl
  exact hsteps 48

theorem kK_eq {t : ℕ} (ht : t < 64) : kK.getD t 0 = Fips180.K t := by
  have htable : ∀ t < 64, kK.getD t 0 = Fips180.rootBits 3 (Fips180.firstPrimes.getD t 0) := by
    decide +kernel
  rw [htable t ht, Fips180.K, Fips180.nth_prime_eq ht]

theorem transform_eq (state : Fips180.Words) {block : List UInt8} (hblock : block.length = 64) :
    transform state block = Fips180.compress state block := by
  have hrounds : (List.range 64).foldl (transformRound (schedule block)) state =
      (List.range 64).foldl
        (fun v t => Fips180.round (Fips180.K t) (Fips180.W (Fips180.word block) t) v) state := by
    apply List.foldl_ext
    intro v t ht
    have hw : (schedule block).getD t 0 = Fips180.W (Fips180.word block) t := by
      rw [schedule_eq hblock, getD_filled _ (List.mem_range.mp ht)]
    rw [transformRound, kK_eq (List.mem_range.mp ht), hw, Fips180.round, bigSigma0_eq,
      bigSigma1_eq]
    rfl
  rw [transform, hrounds]
  rfl

/-! ## What the object has absorbed -/

/-- The message so far: whole blocks, compressed, and the bytes in the buffer. -/
def Absorbed (s : Sha256) (message : List UInt8) : Prop :=
  ∃ bs : List (List UInt8), (∀ b ∈ bs, b.length = 64) ∧
    message = bs.flatten ++ s.buffer.take s.buffered ∧
    s.state = bs.foldl Fips180.compress Fips180.H0

variable {s : Sha256} {message : List UInt8}

theorem absorbed_reset (s : Sha256) : s.reset.Absorbed [] := by
  have hinitial : fresh.state = Fips180.H0 := by
    rw [Fips180.H0, Fips180.ofPrimes_eq]
    decide +kernel
  exact ⟨[], by simp, rfl, hinitial⟩

theorem Absorbed.buffered_eq (h : s.Absorbed message) : s.buffered = message.length % 64 := by
  obtain ⟨bs, hbs, rfl, -⟩ := h
  have hroom := s.buffered_lt
  have hpartial : (s.buffer.take s.buffered).length = s.buffered := by
    rw [List.length_take, s.buffer_length]
    omega
  rw [List.length_append, Fips180.length_flatten hbs, hpartial]
  omega

theorem Absorbed.pass (h : s.Absorbed message) (p : List UInt8) :
    (s.pass p).Absorbed (message ++ p.take (s.take p)) := by
  obtain ⟨bs, hbs, rfl, hstate⟩ := h
  have htaken : (p.take (s.take p)).length = s.take p :=
    List.length_take_of_le (s.take_le_length p)
  have hfilled : (splice s.buffer s.buffered (p.take (s.take p))).take
      (s.buffered + (p.take (s.take p)).length) = s.buffer.take s.buffered ++ p.take (s.take p) :=
    take_splice _ (by rw [s.buffer_length]; exact s.buffered_lt.le)
  rw [htaken] at hfilled
  rw [Sha256.pass]
  split
  next hfull =>
    -- the whole buffer is the next block
    rw [hfull, List.take_of_length_le (s.length_filled p).le] at hfilled
    refine ⟨bs ++ [splice s.buffer s.buffered (p.take (s.take p))], ?_, ?_, ?_⟩
    · intro b hb
      rcases List.mem_append.mp hb with hb | hb
      · exact hbs b hb
      · rw [List.mem_singleton.mp hb]
        exact s.length_filled p
    · simp [hfilled]
    · rw [List.foldl_append, ← hstate, List.foldl_cons, List.foldl_nil]
      exact transform_eq s.state (s.length_filled p)
  next hfull =>
    refine ⟨bs, hbs, ?_, hstate⟩
    rw [hfilled, List.append_assoc]

theorem Absorbed.absorb (h : s.Absorbed message) (p : List UInt8) :
    (s.absorb p).Absorbed (message ++ p) := by
  fun_induction Sha256.absorb s p generalizing message with
  | case1 s p hp ih =>
      have hnext := ih (h.pass p)
      rwa [List.append_assoc, List.take_append_drop] at hnext
  | case2 s p hp =>
      rw [List.eq_nil_of_length_eq_zero (Nat.eq_zero_of_not_pos hp), List.append_nil]
      exact h

theorem bitLength_absorb (s : Sha256) (p : List UInt8) : (s.absorb p).bitLength = s.bitLength := by
  fun_induction absorb s p with
  | case1 s p hp ih =>
      rw [ih, pass]
      split <;> rfl
  | case2 s p hp => rfl

/-- The length counter is not part of it. -/
theorem Absorbed.withLength (h : s.Absorbed message) (bits : UInt64) :
    Absorbed { s with bitLength := bits } message := h

theorem Absorbed.update (h : s.Absorbed message) (data : List UInt8) :
    (s.update data).Absorbed (message ++ data) :=
  Absorbed.absorb (h.withLength _) data

/-! ## Finalisation -/

theorem Absorbed.padLoop (h : s.Absorbed message) (bits : UInt64) :
    (padLoop bits s).Absorbed
      (message ++ List.replicate ((120 - s.buffered) % 64) 0) := by
  fun_induction Sha256.padLoop bits s generalizing message with
  | case1 s hfull => simpa [hfull] using h
  | case2 s hnot ih =>
      have hroom := s.buffered_lt
      have hzeros : (120 - s.buffered) % 64 =
          (120 - (s.buffered + [(0x00 : UInt8)].length) % 64) % 64 + 1 := by
        rw [List.length_singleton]
        omega
      have hnext := ih ((h.update [0x00]).withLength bits)
      rw [buffered_update, List.append_assoc] at hnext
      rw [hzeros, List.replicate_succ]
      exact hnext

theorem tail_eq (n : ℕ) :
    ((List.range 8).map fun i => (UInt64.ofNat n >>> UInt64.ofNat (56 - i * 8)).toUInt8) =
      Fips180.beBytes 8 n := by
  have hbytes : ∀ i ∈ List.range 8, (UInt64.ofNat n >>> UInt64.ofNat (56 - i * 8)).toUInt8 =
      UInt8.ofNat (n / 2 ^ (56 - i * 8)) := fun i _ => toUInt8_shiftRight n (Nat.sub_le _ _)
  rw [List.map_congr_left hbytes]
  simp [Fips180.beBytes, leBytes, Nat.div_div_eq_div_mul, List.range_succ]

theorem format08x_eq (w : UInt32) :
    format08x w = Fips180.toHex (Fips180.beBytes 4 w.toNat) := by
  rw [format08x, Fips180.leftpad_toDigits (by decide) (by simpa using w.toNat_lt),
    Fips180.toHex_beBytes]

/-- An object that has absorbed padded blocks only holds their hash value. -/
theorem Absorbed.state_eq (h : s.Absorbed message) (hempty : 64 ∣ message.length) :
    s.state = (Fips180.blocks message).foldl Fips180.compress Fips180.H0 := by
  have hbuffered := h.buffered_eq
  obtain ⟨bs, hbs, rfl, hstate⟩ := h
  rw [hbuffered, Nat.mod_eq_zero_of_dvd hempty, List.take_zero, List.append_nil,
    Fips180.blocks_flatten hbs, hstate]

theorem hex_eq (h : s.Absorbed message) (hbits : s.bitLength = UInt64.ofNat (8 * message.length)) :
    s.hex.1 = String.ofList (Fips180.toHex (Fips180.sha256 message)) := by
  have hmarked := (h.update [0x80]).withLength s.bitLength
  have hzeros : (120 - (s.update [0x80]).buffered) % 64 = Fips180.padZeros message.length := by
    rw [buffered_update, h.buffered_eq, List.length_singleton, Fips180.padZeros]
    omega
  have hpadded := hmarked.padLoop s.bitLength
  rw [hzeros] at hpadded
  have hfinal := hpadded.update (Fips180.beBytes 8 (8 * message.length))
  have hpad : message ++ [0x80] ++ List.replicate (Fips180.padZeros message.length) 0 ++
      Fips180.beBytes 8 (8 * message.length) = Fips180.pad message := by
    simp [Fips180.pad]
  rw [hpad] at hfinal
  have hstate := hfinal.state_eq (Fips180.length_pad message)
  rw [← tail_eq, ← hbits] at hstate
  have hword : format08x = fun w => (Fips180.beBytes 4 w.toNat).flatMap Fips180.hexByte :=
    funext format08x_eq
  rw [Fips180.sha256, ← hstate, Fips180.toHex, List.flatMap_assoc, ← hword]
  rfl

/-! ## Pieces -/

theorem foldl_update (pieces : List (List UInt8)) (h : s.Absorbed message)
    (hbits : s.bitLength = UInt64.ofNat (8 * message.length)) :
    (pieces.foldl update s).Absorbed (message ++ pieces.flatten) ∧
      (pieces.foldl update s).bitLength =
        UInt64.ofNat (8 * (message ++ pieces.flatten).length) := by
  induction pieces generalizing s message with
  | nil =>
      rw [List.flatten_nil, List.append_nil]
      exact ⟨h, hbits⟩
  | cons piece pieces ih =>
      have hcount : (s.update piece).bitLength = UInt64.ofNat (8 * (message ++ piece).length) := by
        rw [update, bitLength_absorb]
        simp [hbits, Nat.mul_add, UInt64.ofNat_add, UInt64.mul_comm]
      have hrest := ih (h.update piece) hcount
      rwa [List.append_assoc, ← List.flatten_cons] at hrest

theorem hex_foldl_update (s : Sha256) (pieces : List (List UInt8)) :
    ((pieces.foldl update s.reset).hex).1 =
      String.ofList (Fips180.toHex (Fips180.sha256 pieces.flatten)) := by
  obtain ⟨habsorbed, hbits⟩ := foldl_update pieces s.absorbed_reset rfl
  exact hex_eq habsorbed hbits

/-- In any pieces, the text is the digest of the message in lower-case hexadecimal. -/
theorem hex_pieces (pieces : List (List UInt8)) :
    ((pieces.foldl update fresh).hex).1 =
        String.ofList (Fips180.toHex (Fips180.sha256 pieces.flatten)) ∧
      ∀ s : Sha256, ((pieces.foldl update s.reset).hex).1 =
        String.ofList (Fips180.toHex (Fips180.sha256 pieces.flatten)) :=
  ⟨hex_foldl_update _ pieces, fun s => hex_foldl_update s pieces⟩

end Sha256

theorem sha256Hex_eq (data : List UInt8) :
    sha256Hex data = String.ofList (Fips180.toHex (Fips180.sha256 data)) := by
  have hpiece := Sha256.hex_foldl_update Sha256.fresh [data]
  rw [List.flatten_singleton] at hpiece
  exact hpiece

/-- A file hashes as its text does, in whatever sizes it is read. -/
theorem sha256File_eq (reads : List (List UInt8)) :
    sha256File (some reads) = sha256Hex (reads.takeWhile (0 < ·.length)).flatten := by
  rw [sha256Hex_eq]
  exact Sha256.hex_foldl_update Sha256.fresh _

end Arcint.Core
