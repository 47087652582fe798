import LinuxDoc.CrcTutorial.BigEndian

/-! Checking a message that carries its CRC. The remainder of the two is zero, or with an inverted
CRC a value that does not depend on the message; zeros after or before the message are missed
exactly where a shift of that value, or of the start value, does not change it.
-/

namespace LinuxDoc.CrcTutorial

open Foundations Foundations.UpwardRegister

variable {crcpoly : BitVec 32}

theorem deferred_append (remainder : BitVec 32) (left right : List Bool)
    : deferred crcpoly remainder (left ++ right)
      = deferred crcpoly (deferred crcpoly remainder left) right :=
  List.foldl_append

theorem deferred_word (remainder word : BitVec 32)
    : deferred crcpoly remainder (highFirst word) = (shift crcpoly)^[32] (remainder ^^^ word) := by
  rw [deferred, deferredBit_eq, ← wordStep_eq, wordStep]

theorem deferred_zeros (remainder : BitVec 32) (k : Nat)
    : deferred crcpoly remainder (List.replicate k false) = (shift crcpoly)^[k] remainder := by
  induction k generalizing remainder with
  | zero => rfl
  | succ k ih =>
      have turn : deferredBit crcpoly remainder false = shift crcpoly remainder := by
        simp [deferredBit, shift, inputBit]
      rw [List.replicate_succ, Function.iterate_succ_apply, ← ih, ← turn]
      rfl

/-- The difference of two remainders goes through a message as if it were zeros. -/
theorem deferred_xor (a b : BitVec 32) (input : List Bool)
    : deferred crcpoly (a ^^^ b) input
      = deferred crcpoly a input ^^^ (shift crcpoly)^[input.length] b := by
  induction input generalizing a b with
  | nil => rfl
  | cons bit rest ih =>
      have turn : deferredBit crcpoly (a ^^^ b) bit
          = deferredBit crcpoly a bit ^^^ shift crcpoly b := by
        rw [deferredBit_eq, shift_eq, merge, merge, ← shiftUp_xor, BitVec.xor_assoc,
          BitVec.xor_comm b, ← BitVec.xor_assoc]
      calc
        deferred crcpoly (a ^^^ b) (bit :: rest)
            = deferred crcpoly (deferredBit crcpoly a bit ^^^ shift crcpoly b) rest := by
              rw [← turn]
              rfl
        _ = deferred crcpoly a (bit :: rest)
            ^^^ (shift crcpoly)^[(bit :: rest).length] b := ih _ _

/-- With an odd polynomial nothing gets lost in a shift. -/
theorem shift_eq_zero (odd : crcpoly.getLsbD 0 = true) {x : BitVec 32}
    (zero : shift crcpoly x = 0#32)
    : x = 0#32 := by
  rw [shift_eq, shiftUp] at zero
  have bits (i : Nat) := congrArg (fun v => BitVec.getLsbD v i) zero
  simp only [BitVec.getLsbD_xor, BitVec.getLsbD_zero, BitVec.getLsbD_shiftLeft] at bits
  have top : x.msb = false := by
    cases out : x.msb with
    | false => rfl
    | true =>
        have low := bits 0
        rw [out, if_pos rfl, odd] at low
        simp at low
  apply BitVec.eq_of_getLsbD_eq
  intro i inside
  rw [BitVec.getLsbD_zero]
  by_cases last : i = 31
  · rw [last, ← BitVec.msb_eq_getLsbD_last]
    exact top
  · have next := bits (i + 1)
    simp only [top, Bool.false_eq_true, if_false, BitVec.getLsbD_zero, Bool.xor_false,
      Nat.add_sub_cancel, show i + 1 < 32 by omega] at next
    simpa using next

theorem iterate_shift_eq_zero (odd : crcpoly.getLsbD 0 = true) {k : Nat} {x : BitVec 32}
    (zero : (shift crcpoly)^[k] x = 0#32)
    : x = 0#32 := by
  induction k generalizing x with
  | zero => exact zero
  | succ k ih => exact shift_eq_zero odd (ih zero)

/-- What a mask leaves is zero for no mask other than zero, since no shift loses anything and
shifts of zero are zero.
-/
theorem mask_left_eq_zero_iff (odd : crcpoly.getLsbD 0 = true) (mask : BitVec 32) (k : Nat)
    : (shift crcpoly)^[k] (deferred crcpoly 0#32 (highFirst mask)) = 0#32 ↔ mask = 0#32 := by
  rw [deferred_word, BitVec.zero_xor]
  constructor
  · intro zero
    exact iterate_shift_eq_zero odd (iterate_shift_eq_zero odd zero)
  · intro none
    have fixed : shift crcpoly 0#32 = 0#32 := by simp [shift, multiple]
    rw [none, Function.iterate_fixed fixed, Function.iterate_fixed fixed]

/-- The check of a message with its CRC, xored with a mask, leaves what the mask alone leaves,
which is zero exactly without a mask, and so `k` zeros after it are missed if `k` shifts do not
change that; zeros before the message are missed if and only if they do not change the start
value. The loop is linear (`deferred_xor`), and with an odd polynomial a shift loses nothing.
-/
theorem crc_check (crcpoly : BitVec 32) (odd : crcpoly.getLsbD 0 = true)
    (initial mask : BitVec 32) (message : List Bool) (k : Nat)
    : deferred crcpoly initial
          (message ++ highFirst (deferred crcpoly initial message ^^^ mask) ++ List.replicate k false)
        = (shift crcpoly)^[k] (deferred crcpoly 0#32 (highFirst mask))
      ∧ ((shift crcpoly)^[k] (deferred crcpoly 0#32 (highFirst mask)) = 0#32 ↔ mask = 0#32)
      ∧ (deferred crcpoly initial (List.replicate k false ++ message)
          = deferred crcpoly initial message ↔ (shift crcpoly)^[k] initial = initial) := by
  refine ⟨?_, mask_left_eq_zero_iff odd mask k, ?_⟩
  · rw [deferred_append, deferred_append, deferred_zeros, deferred_word, deferred_word,
      ← BitVec.xor_assoc, BitVec.xor_self]
  · rw [deferred_append, deferred_zeros]
    constructor
    · intro same
      have difference : deferred crcpoly (initial ^^^ (initial ^^^ (shift crcpoly)^[k] initial))
          message = _ := deferred_xor initial _ message
      rw [← BitVec.xor_assoc, BitVec.xor_self, BitVec.zero_xor, same] at difference
      have none : (shift crcpoly)^[message.length] (initial ^^^ (shift crcpoly)^[k] initial)
          = 0#32 :=
        (BitVec.xor_right_inj (deferred crcpoly initial message)).mp
          (difference.symm.trans BitVec.xor_zero.symm)
      exact (BitVec.xor_eq_zero_iff.mp (iterate_shift_eq_zero odd none)).symm
    · intro same
      rw [same]

/-- The polynomial of CRC-32 with the usual start value, with and without the inversion, and a
zero after a message.
-/
theorem crc_check_inverted
    : deferred 0x04c11db7#32 0xffffffff#32 ([true, false]
          ++ highFirst (deferred 0x04c11db7#32 0xffffffff#32 [true, false] ^^^ 0xffffffff#32)
          ++ List.replicate 1 false)
        = (shift 0x04c11db7#32)^[1] (deferred 0x04c11db7#32 0#32 (highFirst 0xffffffff#32))
      ∧ deferred 0x04c11db7#32 0xffffffff#32 ([true, false]
          ++ highFirst (deferred 0x04c11db7#32 0xffffffff#32 [true, false] ^^^ 0#32)
          ++ List.replicate 1 false)
        = 0#32 := by
  have inverted :=
    crc_check 0x04c11db7#32 (by decide) 0xffffffff#32 0xffffffff#32 [true, false] 1
  have plain := crc_check 0x04c11db7#32 (by decide) 0xffffffff#32 0#32 [true, false] 1
  exact ⟨inverted.1, plain.1.trans (plain.2.1.mpr rfl)⟩

end LinuxDoc.CrcTutorial
