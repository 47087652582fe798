import LinuxDoc.Crc32Hash.Checksum
import LinuxDoc.CrcTutorial.BigEndian

/-! The little-endian loops of the CRC tutorial. They keep the most significant coefficient in the
least significant bit, and are the mirror image of the big-endian ones with a mirrored polynomial.
-/

namespace LinuxDoc.CrcTutorial

open Foundations Foundations.UpwardRegister

section Loops

variable (crcpoly : BitVec 32)

def multipleLittle (remainder : BitVec 32) : BitVec 32 :=
  if remainder &&& 1#32 ≠ 0#32 then crcpoly else 0#32

def shiftLittle (remainder : BitVec 32) : BitVec 32 :=
  (remainder >>> 1) ^^^ multipleLittle crcpoly remainder

def deferredBitLittle (remainder : BitVec 32) (b : Bool) : BitVec 32 :=
  let remainder := remainder ^^^ inputBit b
  (remainder >>> 1) ^^^ multipleLittle crcpoly remainder

def deferredLittle (remainder : BitVec 32) (input : List Bool) : BitVec 32 :=
  input.foldl (deferredBitLittle crcpoly) remainder

def byteStepLittle (remainder : BitVec 32) (byte : BitVec 8) : BitVec 32 :=
  (shiftLittle crcpoly)^[8] (remainder ^^^ byte.setWidth 32)

def bytewiseLittle (remainder : BitVec 32) (input : List (BitVec 8)) : BitVec 32 :=
  input.foldl (byteStepLittle crcpoly) remainder

def wordStepLittle (remainder word : BitVec 32) : BitVec 32 :=
  (shiftLittle crcpoly)^[32] (remainder ^^^ word)

def wordwiseLittle (remainder : BitVec 32) (input : List (BitVec 32)) : BitVec 32 :=
  input.foldl (wordStepLittle crcpoly) remainder

end Loops

theorem reverse_xor {w : Nat} (a b : BitVec w) : (a ^^^ b).reverse = a.reverse ^^^ b.reverse := by
  apply BitVec.eq_of_getLsbD_eq
  intro i _
  simp only [BitVec.getLsbD_reverse, BitVec.getLsbD_xor, BitVec.getMsbD_xor]

theorem reverse_zero {w : Nat} : (0#w).reverse = 0#w := by
  apply BitVec.eq_of_getLsbD_eq
  intro i _
  simp [BitVec.getLsbD_reverse]

theorem reverse_shiftLeft_one {w : Nat} (a : BitVec w) : (a <<< 1).reverse = a.reverse >>> 1 := by
  apply BitVec.eq_of_getLsbD_eq
  intro i _
  rw [BitVec.getLsbD_reverse, BitVec.getMsbD_shiftLeft, BitVec.getLsbD_ushiftRight,
    BitVec.getLsbD_reverse, Nat.add_comm]

/-- What is brought in at the top is, mirrored, brought in at the bottom. -/
theorem reverse_chunk {n k : Nat} (fits : k + n = 32) (chunk : BitVec n)
    : (chunk.setWidth 32 <<< k).reverse = chunk.reverse.setWidth 32 := by
  apply BitVec.eq_of_getLsbD_eq
  intro i inside
  rw [BitVec.getLsbD_reverse, BitVec.getMsbD_shiftLeft, BitVec.getMsbD_setWidth,
    BitVec.getLsbD_setWidth, BitVec.getLsbD_reverse, show i + k + n - 32 = i by omega]
  simp [inside, show 32 - n ≤ i + k by omega]

variable {crcpoly : BitVec 32}

theorem and_one_ne_zero (x : BitVec 32) : x &&& 1#32 ≠ 0#32 ↔ x.getLsbD 0 = true := by
  rw [BitVec.and_one_eq_setWidth_ofBool_getLsbD]
  cases x.getLsbD 0 <;> decide

theorem reverse_shift (x : BitVec 32)
    : (shift crcpoly x).reverse = shiftLittle crcpoly.reverse x.reverse := by
  have tapped : (if x.msb then crcpoly else 0#32).reverse
      = if x.reverse.getLsbD 0 = true then crcpoly.reverse else 0#32 := by
    rw [BitVec.getLsbD_reverse, ← BitVec.msb_eq_getMsbD_zero]
    cases x.msb with
    | true => rfl
    | false => exact reverse_zero
  simp only [shift_eq, shiftUp, reverse_xor, reverse_shiftLeft_one, tapped, shiftLittle,
    multipleLittle, and_one_ne_zero]

theorem reverse_iterate (k : Nat) (x : BitVec 32)
    : ((shift crcpoly)^[k] x).reverse = (shiftLittle crcpoly.reverse)^[k] x.reverse := by
  induction k generalizing x with
  | zero => rfl
  | succ k ih => rw [Function.iterate_succ_apply, ih, reverse_shift, Function.iterate_succ_apply]

theorem reverse_byteStep (remainder : BitVec 32) (byte : BitVec 8)
    : (byteStep crcpoly remainder byte).reverse
      = byteStepLittle crcpoly.reverse remainder.reverse byte.reverse := by
  have brought : (byte.setWidth 32 <<< 24).reverse = byte.reverse.setWidth 32 :=
    reverse_chunk rfl byte
  rw [byteStep, reverse_iterate, reverse_xor, brought, byteStepLittle]

theorem reverse_wordStep (remainder word : BitVec 32)
    : (wordStep crcpoly remainder word).reverse
      = wordStepLittle crcpoly.reverse remainder.reverse word.reverse := by
  rw [wordStep, reverse_iterate, reverse_xor, wordStepLittle]

theorem reverse_deferredBit (remainder : BitVec 32) (b : Bool)
    : (deferredBit crcpoly remainder b).reverse
      = deferredBitLittle crcpoly.reverse remainder.reverse b := by
  have single : (BitVec.ofBool b).reverse = BitVec.ofBool b := by cases b <;> decide
  have brought : (inputBit b <<< 31).reverse = inputBit b := by
    rw [inputBit, reverse_chunk rfl, single]
  have turn : (shift crcpoly (remainder ^^^ inputBit b <<< 31)).reverse = _ := reverse_shift _
  rwa [reverse_xor, brought] at turn

/-- A loop whose turns are mirrored computes the mirrored remainder. -/
theorem reverse_foldl {α β : Type} {step : BitVec 32 → α → BitVec 32}
    {mirrored : BitVec 32 → β → BitVec 32} (mirror : β → α)
    (turn : ∀ remainder x, (step remainder (mirror x)).reverse = mirrored remainder.reverse x)
    (remainder : BitVec 32) (input : List β)
    : input.foldl mirrored remainder.reverse
      = ((input.map mirror).foldl step remainder).reverse := by
  induction input generalizing remainder with
  | nil => rfl
  | cons x rest ih => rw [List.foldl_cons, ← turn, ih, List.map_cons, List.foldl_cons]

def lowBits {w : Nat} (input : List (BitVec w)) : List Bool :=
  (input.map BitVec.reverse).flatMap highFirst

theorem deferredLittle_eq (remainder : BitVec 32) (input : List Bool)
    : deferredLittle crcpoly.reverse remainder.reverse input
      = (deferred crcpoly remainder input).reverse := by
  have mirrored : deferredLittle crcpoly.reverse remainder.reverse input = _ :=
    reverse_foldl id reverse_deferredBit remainder input
  rwa [List.map_id] at mirrored

/-- So does one whose turns merge the bits of what they take. -/
theorem foldl_eq_reverse {w : Nat} {step mirrored : BitVec 32 → BitVec w → BitVec 32}
    (merges : ∀ remainder x, step remainder x = (highFirst x).foldl (merge crcpoly) remainder)
    (turn : ∀ remainder x, (step remainder x).reverse = mirrored remainder.reverse x.reverse)
    (remainder : BitVec 32) (input : List (BitVec w))
    : input.foldl mirrored remainder.reverse
      = (deferred crcpoly remainder (lowBits input)).reverse := by
  rw [lowBits, ← foldl_eq_deferred merges]
  refine reverse_foldl BitVec.reverse (fun r x => ?_) remainder input
  rw [turn, BitVec.reverse_reverse_eq]

theorem bytewiseLittle_eq (remainder : BitVec 32) (bytes : List (BitVec 8))
    : bytewiseLittle crcpoly.reverse remainder.reverse bytes
      = (deferred crcpoly remainder (lowBits bytes)).reverse :=
  foldl_eq_reverse byteStep_eq reverse_byteStep remainder bytes

/-- The little-endian loops compute the mirror image of what the big-endian ones compute of the
mirrored input, whether they take a bit, a byte or a word at a time. So the checksum that
`crc32hash` prints is the mirror image of a long division by `0x04c11db7`. Each step is the mirror
image of a step, so the loops are by induction.
-/
theorem littleEndian_mirrors (crcpoly remainder : BitVec 32) (input : List Bool)
    (bytes : List (BitVec 8)) (words : List (BitVec 32))
    : deferredLittle crcpoly.reverse remainder.reverse input
        = (deferred crcpoly remainder input).reverse
      ∧ bytewiseLittle crcpoly.reverse remainder.reverse bytes
        = (deferred crcpoly remainder (lowBits bytes)).reverse
      ∧ wordwiseLittle crcpoly.reverse remainder.reverse words
        = (deferred crcpoly remainder (lowBits words)).reverse
      ∧ Crc32Hash.crc32 bytes
        = (divide 0x04c11db7#32 0#32 (lowBits bytes ++ List.replicate 32 false)).reverse := by
  refine ⟨deferredLittle_eq remainder input, bytewiseLittle_eq remainder bytes,
    foldl_eq_reverse wordStep_eq reverse_wordStep remainder words, ?_⟩
  have poly : (0x04c11db7#32).reverse = 0xedb88320#32 := by decide +kernel
  rw [divide_eq_deferred, shift_eq, iterate_zero_word, ← bytewiseLittle_eq, poly, reverse_zero]
  rfl

end LinuxDoc.CrcTutorial
