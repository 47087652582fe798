import LinuxDoc.Foundations.UpwardRegister

/-! The big-endian loops of the CRC tutorial, each made from the one before it: long division, the
deferral of the input, whole bytes and words, and look-ups in tables. They all compute the same
remainder, whatever the polynomial.
-/

namespace LinuxDoc.CrcTutorial

open Foundations Foundations.UpwardRegister

section Loops

variable (crcpoly : BitVec 32)

def multiple (remainder : BitVec 32) : BitVec 32 :=
  if remainder &&& 0x80000000#32 ≠ 0#32 then crcpoly else 0#32

def inputBit (b : Bool) : BitVec 32 :=
  (BitVec.ofBool b).setWidth 32

def divideBit (remainder : BitVec 32) (b : Bool) : BitVec 32 :=
  (remainder <<< 1 ||| inputBit b) ^^^ multiple crcpoly remainder

def divide (remainder : BitVec 32) (input : List Bool) : BitVec 32 :=
  input.foldl (divideBit crcpoly) remainder

def deferredBit (remainder : BitVec 32) (b : Bool) : BitVec 32 :=
  let remainder := remainder ^^^ inputBit b <<< 31
  (remainder <<< 1) ^^^ multiple crcpoly remainder

def deferred (remainder : BitVec 32) (input : List Bool) : BitVec 32 :=
  input.foldl (deferredBit crcpoly) remainder

def shift (remainder : BitVec 32) : BitVec 32 :=
  (remainder <<< 1) ^^^ multiple crcpoly remainder

def byteStep (remainder : BitVec 32) (byte : BitVec 8) : BitVec 32 :=
  (shift crcpoly)^[8] (remainder ^^^ byte.setWidth 32 <<< 24)

def bytewise (remainder : BitVec 32) (input : List (BitVec 8)) : BitVec 32 :=
  input.foldl (byteStep crcpoly) remainder

def wordStep (remainder word : BitVec 32) : BitVec 32 :=
  (shift crcpoly)^[32] (remainder ^^^ word)

def wordwise (remainder : BitVec 32) (input : List (BitVec 32)) : BitVec 32 :=
  input.foldl (wordStep crcpoly) remainder

def table (i : BitVec 8) : BitVec 32 :=
  bytewise crcpoly 0#32 [i]

/-- Shift by a byte, and subtract what the table has for the byte that is shifted out. -/
def tableStep (remainder : BitVec 32) (byte : BitVec 8) : BitVec 32 :=
  (remainder <<< 8) ^^^ table crcpoly ((remainder >>> 24).setWidth 8 ^^^ byte)

def smallTable (i : BitVec 4) : BitVec 32 :=
  (shift crcpoly)^[4] (i.setWidth 32 <<< 28)

def nibbleStep (remainder : BitVec 32) (nibble : BitVec 4) : BitVec 32 :=
  (remainder <<< 4) ^^^ smallTable crcpoly ((remainder >>> 28).setWidth 4 ^^^ nibble)

def smallTableStep (remainder : BitVec 32) (byte : BitVec 8) : BitVec 32 :=
  nibbleStep crcpoly (nibbleStep crcpoly remainder (byte.extractLsb' 4 4)) (byte.extractLsb' 0 4)

def byteAt (x : BitVec 32) (j : Nat) : BitVec 8 :=
  x.extractLsb' (8 * j) 8

/-- A table for slicing: what cancels a byte at a position when the remainder is shifted by so many
bits.
-/
def cancel (bits j : Nat) (i : BitVec 8) : BitVec 32 :=
  (shift crcpoly)^[bits] (i.setWidth 32 <<< (8 * j))

def sliceBy2 (remainder : BitVec 32) (half : BitVec 16) : BitVec 32 :=
  let x := remainder ^^^ half.setWidth 32 <<< 16
  (x <<< 16) ^^^ (cancel crcpoly 16 3 (byteAt x 3) ^^^ cancel crcpoly 16 2 (byteAt x 2))

def cancelWord (bits : Nat) (x : BitVec 32) : BitVec 32 :=
  cancel crcpoly bits 3 (byteAt x 3) ^^^ cancel crcpoly bits 2 (byteAt x 2)
    ^^^ cancel crcpoly bits 1 (byteAt x 1) ^^^ cancel crcpoly bits 0 (byteAt x 0)

def sliceBy4 (remainder word : BitVec 32) : BitVec 32 :=
  cancelWord crcpoly 32 (remainder ^^^ word)

def sliceBy8 (remainder : BitVec 32) (words : BitVec 32 × BitVec 32) : BitVec 32 :=
  cancelWord crcpoly 64 (remainder ^^^ words.1) ^^^ cancelWord crcpoly 32 words.2

end Loops

variable {crcpoly : BitVec 32}

theorem and_top_ne_zero (x : BitVec 32) : x &&& 0x80000000#32 ≠ 0#32 ↔ x.msb = true := by
  have top : x &&& 0x80000000#32 = if x.getLsbD 31 then 0x80000000#32 else 0#32 :=
    BitVec.and_twoPow x 31
  rw [top, BitVec.msb_eq_getLsbD_last]
  cases x.getLsbD 31 <;> decide

theorem shift_eq : shift crcpoly = shiftUp crcpoly := by
  funext x
  simp only [shift, shiftUp, multiple, and_top_ne_zero]

theorem deferredBit_eq : deferredBit crcpoly = merge crcpoly := by
  funext x b
  exact congrFun shift_eq (x ^^^ inputBit b <<< 31)

theorem divideBit_eq
    : divideBit crcpoly = fun remainder b => shiftUp crcpoly remainder ^^^ inputBit b := by
  funext x b
  have apart : x <<< 1 ||| inputBit b = x <<< 1 ^^^ inputBit b := by
    apply BitVec.eq_of_getLsbD_eq
    intro i _
    cases i <;> simp [inputBit]
  rw [divideBit, apart, ← shift_eq, shift, BitVec.xor_assoc, BitVec.xor_assoc,
    BitVec.xor_comm (inputBit b)]

/-- The standard trick: the input may be merged at the end of the remainder, and then 32 zeros after
it, or at its top and no zeros. The zeros are 32 shifts, and a shift passes through the loop bit by
bit.
-/
theorem divide_eq_deferred (remainder : BitVec 32) (input : List Bool)
    : divide crcpoly remainder (input ++ List.replicate 32 false)
      = deferred crcpoly ((shift crcpoly)^[32] remainder) input := by
  have zeros (v : BitVec 32) (k : Nat) : (List.replicate k false).foldl (divideBit crcpoly) v
      = (shiftUp crcpoly)^[k] v := by
    induction k generalizing v with
    | zero => rfl
    | succ k ih =>
        rw [List.replicate_succ, List.foldl_cons, ih, Function.iterate_succ_apply, divideBit_eq]
        simp [inputBit]
  rw [divide, List.foldl_append, zeros, deferred, deferredBit_eq, divideBit_eq, shift_eq]
  exact iterate_foldl_bottom input remainder

/-- A loop whose turns merge the bits of what they take computes the same remainder. -/
theorem foldl_eq_deferred {α : Type} {step : BitVec 32 → α → BitVec 32} {bits : α → List Bool}
    (turn : ∀ remainder x, step remainder x = (bits x).foldl (merge crcpoly) remainder)
    (remainder : BitVec 32) (input : List α)
    : input.foldl step remainder = deferred crcpoly remainder (input.flatMap bits) := by
  rw [deferred, deferredBit_eq, List.foldl_flatMap]
  congr
  funext remainder x
  exact turn remainder x

/-- Bringing in a byte at the top and shifting eight times merges its bits, by `iterate_chunk`. -/
theorem byteStep_eq (remainder : BitVec 32) (byte : BitVec 8)
    : byteStep crcpoly remainder byte = (highFirst byte).foldl (merge crcpoly) remainder := by
  rw [byteStep, shift_eq]
  exact iterate_chunk (by decide) remainder byte

/-- The same for a word, which is as wide as the remainder. -/
theorem wordStep_eq (remainder word : BitVec 32)
    : wordStep crcpoly remainder word = (highFirst word).foldl (merge crcpoly) remainder := by
  have whole : (shiftUp crcpoly)^[32] _ = _ := iterate_chunk (Nat.le_refl 32) remainder word
  rwa [Nat.sub_self, BitVec.shiftLeft_zero, BitVec.setWidth_eq, ← shift_eq] at whole

/-- The table has what eight shifts make of the top byte alone. As they are linear, that is to be
subtracted from the shifted rest (`iterate_lookup`).
-/
theorem tableStep_eq (remainder : BitVec 32) (byte : BitVec 8)
    : tableStep crcpoly remainder byte = (highFirst byte).foldl (merge crcpoly) remainder := by
  rw [← byteStep_eq, byteStep, shift_eq]
  simp only [tableStep, table, bytewise, List.foldl_cons, List.foldl_nil, byteStep, shift_eq,
    BitVec.zero_xor]
  exact (iterate_lookup (by decide) remainder byte).symm

theorem nibbleStep_eq (remainder : BitVec 32) (nibble : BitVec 4)
    : nibbleStep crcpoly remainder nibble = (highFirst nibble).foldl (merge crcpoly) remainder := by
  have whole : (shiftUp crcpoly)^[4] _ = _ := iterate_chunk (by decide) remainder nibble
  rw [← whole, nibbleStep, smallTable, shift_eq]
  exact (iterate_lookup (by decide) remainder nibble).symm

/-- The nibbles are looked up one after the other, so their bits come in order. -/
theorem smallTableStep_eq (remainder : BitVec 32) (byte : BitVec 8)
    : smallTableStep crcpoly remainder byte
      = (highFirst byte).foldl (merge crcpoly) remainder := by
  have halves : byte.extractLsb' 4 4 ++ byte.extractLsb' 0 4 = byte :=
    BitVec.extractLsb'_append_extractLsb'
  rw [smallTableStep, nibbleStep_eq, nibbleStep_eq, ← List.foldl_append, ← highFirst_append, halves]

/-- A byte of a word, where it stands. -/
theorem getLsbD_lane (x : BitVec 32) (j i : Nat)
    : ((byteAt x j).setWidth 32 <<< (8 * j)).getLsbD i
      = (decide (8 * j ≤ i ∧ i < 8 * j + 8) && x.getLsbD i) := by
  rw [BitVec.getLsbD_shiftLeft, BitVec.getLsbD_setWidth, byteAt, BitVec.getLsbD_extractLsb']
  by_cases inside : 8 * j ≤ i ∧ i < 8 * j + 8
  · by_cases narrow : i < 32
    · simp [inside, narrow, show i - 8 * j < 32 by omega, show i - 8 * j < 8 by omega,
        show 8 * j + (i - 8 * j) = i by omega, Nat.not_lt.mpr inside.1]
    · simp [narrow, BitVec.getLsbD_of_ge x i (Nat.le_of_not_lt narrow)]
  · have : i < 8 * j ∨ ¬ i - 8 * j < 8 := by omega
    rcases this with below | above
    · simp [below, Nat.not_le.mpr below]
    · simp [inside, above]

/-- Shifting a word is shifting its bytes: a shift is linear, and the bytes do not overlap. -/
theorem cancelWord_eq (bits : Nat) (x : BitVec 32)
    : cancelWord crcpoly bits x = (shiftUp crcpoly)^[bits] x := by
  simp only [cancelWord, cancel, shift_eq, ← iterate_xor]
  congr 1
  apply BitVec.eq_of_getLsbD_eq
  intro i inside
  simp only [BitVec.getLsbD_xor, getLsbD_lane]
  -- each bit is in one of the four bytes
  have lane : i / 8 = 0 ∨ i / 8 = 1 ∨ i / 8 = 2 ∨ i / 8 = 3 := by omega
  grind

/-- The tables are for the two bytes that are shifted out. -/
theorem sliceBy2_eq (remainder : BitVec 32) (half : BitVec 16)
    : sliceBy2 crcpoly remainder half = (highFirst half).foldl (merge crcpoly) remainder := by
  have whole : (shiftUp crcpoly)^[16] _ = _ := iterate_chunk (by decide) remainder half
  have lanes (x : BitVec 32) : (byteAt x 3).setWidth 32 <<< (8 * 3)
      ^^^ (byteAt x 2).setWidth 32 <<< (8 * 2) = (x >>> 16) <<< 16 := by
    apply BitVec.eq_of_getLsbD_eq
    intro i inside
    rw [BitVec.getLsbD_xor, getLsbD_lane, getLsbD_lane, BitVec.getLsbD_shiftLeft,
      BitVec.getLsbD_ushiftRight]
    grind
  simp only [sliceBy2, cancel, shift_eq, ← iterate_xor, lanes]
  rw [← whole]
  exact (iterate_split (by decide) _).symm

theorem sliceBy4_eq (remainder word : BitVec 32)
    : sliceBy4 crcpoly remainder word = (highFirst word).foldl (merge crcpoly) remainder := by
  rw [sliceBy4, cancelWord_eq, ← wordStep_eq, wordStep, shift_eq]

/-- The first word is shifted by 64, that is twice by a word. -/
theorem sliceBy8_eq (remainder : BitVec 32) (words : BitVec 32 × BitVec 32)
    : sliceBy8 crcpoly remainder words
      = (highFirst words.1 ++ highFirst words.2).foldl (merge crcpoly) remainder := by
  have twice : (shiftUp crcpoly)^[64] (remainder ^^^ words.1)
      = (shiftUp crcpoly)^[32] ((shiftUp crcpoly)^[32] (remainder ^^^ words.1)) :=
    Function.iterate_add_apply _ 32 32 _
  rw [sliceBy8, cancelWord_eq, cancelWord_eq, List.foldl_append, ← wordStep_eq, ← wordStep_eq,
    wordStep, wordStep, shift_eq, twice, ← iterate_xor]

/-- For every polynomial and every start value, the loops all compute one remainder: the input
merged a bit, a byte or a word at a time, and the tables of 256 and of 16 entries and those for
slicing. Long division of the input with 32 zeros after it is this loop from the start value shifted
32 times. Each step merges its bits (`byteStep_eq` to `sliceBy8_eq`), and the loops follow by
induction.
-/
theorem bigEndian_agree (crcpoly remainder : BitVec 32) (input : List Bool)
    (bytes : List (BitVec 8)) (halves : List (BitVec 16)) (words : List (BitVec 32))
    (pairs : List (BitVec 32 × BitVec 32))
    : divide crcpoly remainder (input ++ List.replicate 32 false)
        = deferred crcpoly ((shift crcpoly)^[32] remainder) input
      ∧ bytewise crcpoly remainder bytes = deferred crcpoly remainder (bytes.flatMap highFirst)
      ∧ bytes.foldl (tableStep crcpoly) remainder
        = deferred crcpoly remainder (bytes.flatMap highFirst)
      ∧ bytes.foldl (smallTableStep crcpoly) remainder
        = deferred crcpoly remainder (bytes.flatMap highFirst)
      ∧ halves.foldl (sliceBy2 crcpoly) remainder
        = deferred crcpoly remainder (halves.flatMap highFirst)
      ∧ wordwise crcpoly remainder words = deferred crcpoly remainder (words.flatMap highFirst)
      ∧ words.foldl (sliceBy4 crcpoly) remainder
        = deferred crcpoly remainder (words.flatMap highFirst)
      ∧ pairs.foldl (sliceBy8 crcpoly) remainder
        = deferred crcpoly remainder (pairs.flatMap fun p => highFirst p.1 ++ highFirst p.2) :=
  ⟨divide_eq_deferred remainder input, foldl_eq_deferred byteStep_eq remainder bytes,
    foldl_eq_deferred tableStep_eq remainder bytes,
    foldl_eq_deferred smallTableStep_eq remainder bytes,
    foldl_eq_deferred sliceBy2_eq remainder halves, foldl_eq_deferred wordStep_eq remainder words,
    foldl_eq_deferred sliceBy4_eq remainder words, foldl_eq_deferred sliceBy8_eq remainder pairs⟩

end LinuxDoc.CrcTutorial
