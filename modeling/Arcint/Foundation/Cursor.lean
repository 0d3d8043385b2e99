import Arcint.Foundation.Wire
import Arcint.Foundation.Slice
import Mathlib.Data.List.Infix

/-! # Buffers read and filled by offset

Code that walks a buffer checks an offset against the size before it reads. A read that no check
covers is an outcome of its own, so a run that ends otherwise has read nothing past the end. A
computation is steady if it does not notice that the buffer is cut off, or throws.
-/

namespace Arcint.Foundation

universe u v

/-- Why a computation on a buffer has no result. -/
inductive Fault (ε : Type u) where
  | thrown (error : ε)
  /-- The read of a byte that the buffer does not have. -/
  | outside (offset : Nat)

variable {ε : Type u}

def readByte (buffer : List UInt8) (offset : Nat) : Except (Fault ε) UInt8 :=
  match buffer[offset]? with
  | some byte => .ok byte
  | none => .error (.outside offset)

/-- The bytes of a range, one after the other. -/
def readRange (buffer : List UInt8) : (n offset : Nat) →
    Except (Fault ε) { bytes : List UInt8 // bytes.length = n }
  | 0, _ => .ok ⟨[], rfl⟩
  | n + 1, offset =>
      match readByte buffer offset with
      | .error fault => .error fault
      | .ok byte =>
          match readRange buffer n (offset + 1) with
          | .error fault => .error fault
          | .ok bytes => .ok ⟨byte :: bytes.1, by rw [List.length_cons, bytes.2]⟩

theorem readByte_of_lt {buffer : List UInt8} {offset : Nat} (h : offset < buffer.length) :
    readByte (ε := ε) buffer offset = .ok buffer[offset] := by
  rw [readByte, List.getElem?_eq_getElem h]

theorem length_slice {buffer : List UInt8} {offset n : Nat} (h : offset + n ≤ buffer.length) :
    (slice buffer offset n).length = n := by
  rw [slice, List.length_take, List.length_drop]
  omega

theorem slice_part (front bytes rest : List UInt8) :
    slice (front ++ bytes ++ rest) front.length bytes.length = bytes := by
  simp [slice]

theorem readRange_of_le {buffer : List UInt8} {offset n : Nat} (h : offset + n ≤ buffer.length) :
    readRange (ε := ε) buffer n offset = .ok ⟨slice buffer offset n, length_slice h⟩ := by
  induction n generalizing offset with
  | zero => simp [readRange, slice]
  | succ n ih =>
      have hlt : offset < buffer.length := by omega
      have hslice : slice buffer offset (n + 1) =
          buffer[offset] :: slice buffer (offset + 1) n := by
        rw [slice, List.drop_eq_getElem_cons hlt, List.take_succ_cons, slice]
      simp only [readRange, readByte_of_lt hlt, ih (by omega : offset + 1 + n ≤ buffer.length),
        hslice]

/-! ## Buffers that are cut off -/

section Steady

variable {α β : Type v} {run : List UInt8 → Except (Fault ε) α}

def Steady (run : List UInt8 → Except (Fault ε) α) : Prop :=
  ∀ (cut buffer : List UInt8) (a : α), cut <+: buffer → run buffer = .ok a →
    run cut = .ok a ∨ ∃ error, run cut = .error (.thrown error)

theorem steady_pure (a : α) : Steady (ε := ε) fun _ => pure a := fun _ _ _ _ h => .inl h

theorem Steady.bind {next : α → List UInt8 → Except (Fault ε) β} (hrun : Steady run)
    (hnext : ∀ a, Steady (next a)) :
    Steady fun buffer => run buffer >>= fun a => next a buffer := by
  intro cut buffer b hcut h
  dsimp only at h ⊢
  cases hfirst : run buffer with
  | error fault =>
      rw [hfirst] at h
      cases h
  | ok a =>
      rw [hfirst] at h
      rcases hrun cut buffer a hcut hfirst with hsame | ⟨error, hthrown⟩
      · rw [hsame]
        exact hnext a cut buffer b hcut h
      · rw [hthrown]
        exact .inr ⟨error, rfl⟩

/-- A range that is read after its check. -/
theorem steady_slice {offset n : Nat} {error : ε} (f : List UInt8 → α)
    (hrun : ∀ buffer : List UInt8, run buffer =
      if offset + n ≤ buffer.length then .ok (f (slice buffer offset n))
      else .error (.thrown error)) : Steady run := by
  rintro cut _ a ⟨rest, rfl⟩ h
  rw [hrun cut]
  split
  next hle =>
    rw [hrun, if_pos (by rw [List.length_append]; omega), slice_append_left hle] at h
    exact .inl h
  next => exact .inr ⟨error, rfl⟩

end Steady

/-! ## Filling a buffer -/

/-- A buffer of its final size, and where it is written next. -/
structure Filling where
  out : List UInt8
  off : Nat

namespace Filling

/-- `out[off++] = byte`. -/
def put (w : Filling) (byte : UInt8) : Filling := ⟨w.out.set w.off byte, w.off + 1⟩

/-- A copy to the offset, and the offset moved on. -/
def copy (w : Filling) (bytes : List UInt8) : Filling :=
  ⟨splice w.out w.off bytes, w.off + bytes.length⟩

/-- What has been written, and the room behind it. -/
def Holds (w : Filling) (written : List UInt8) (room : Nat) : Prop :=
  w.off = written.length ∧ ∃ rest : List UInt8, rest.length = room ∧ w.out = written ++ rest

variable {w : Filling} {written : List UInt8} {room : Nat}

theorem Holds.put (h : w.Holds written (room + 1)) (byte : UInt8) :
    (w.put byte).Holds (written ++ [byte]) room := by
  obtain ⟨hoff, rest, hrest, hout⟩ := h
  obtain ⟨first, rest, rfl⟩ := List.exists_cons_of_length_eq_add_one hrest
  refine ⟨by simp [Filling.put, hoff], rest, by simpa using hrest, ?_⟩
  simp [Filling.put, hoff, hout]

theorem Holds.copy {bytes : List UInt8} (h : w.Holds written (bytes.length + room)) :
    (w.copy bytes).Holds (written ++ bytes) room := by
  obtain ⟨hoff, rest, hrest, hout⟩ := h
  refine ⟨by simp [Filling.copy, hoff], rest.drop bytes.length, by simp [hrest], ?_⟩
  simp [Filling.copy, splice, hoff, hout]

theorem Holds.foldl_put (h : w.Holds written room) {bytes : List UInt8} {left : Nat}
    (hroom : room = bytes.length + left) :
    (bytes.foldl Filling.put w).Holds (written ++ bytes) left := by
  induction bytes generalizing w written room with
  | nil => simpa [hroom] using h
  | cons byte bytes ih =>
      rw [List.length_cons, Nat.add_right_comm] at hroom
      subst hroom
      have hrest := ih (h.put byte) rfl
      rwa [List.append_assoc, List.singleton_append] at hrest

theorem Holds.out_eq (h : w.Holds written 0) : w.out = written := by
  obtain ⟨-, rest, hrest, hout⟩ := h
  rw [hout, List.eq_nil_of_length_eq_zero hrest, List.append_nil]

theorem holds_replicate {n room : Nat} (h : n = room) :
    (⟨List.replicate n 0, 0⟩ : Filling).Holds [] room :=
  ⟨rfl, List.replicate n 0, by rw [List.length_replicate, h], rfl⟩

end Filling

end Arcint.Foundation
