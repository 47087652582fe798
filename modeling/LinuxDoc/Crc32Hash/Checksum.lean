import LinuxDoc.Foundations.ShiftRegister

/-! The CRC that `crc32hash` prints of its argument: a remainder of polynomials over the field
of two elements, with no initial value and no final inversion. A burst of errors no longer
than the register always changes it.
-/

namespace LinuxDoc.Crc32Hash

open Foundations Foundations.ShiftRegister Polynomial

/-- One turn of the inner loop: `crc = (crc >> 1) ^ ((crc & 1) ? 0xedb88320 : 0)` -/
def crc32Bit (crc : BitVec 32) : BitVec 32 :=
  (crc >>> 1) ^^^ (if crc &&& 1#32 ≠ 0#32 then 0xedb88320#32 else 0#32)

/-- One turn of the outer loop: `crc ^= *p++`, then `for (i = 0; i < 8; i++)`. -/
def crc32Byte (crc : BitVec 32) (byte : BitVec 8) : BitVec 32 :=
  crc32Bit^[8] (crc ^^^ byte.setWidth 32)

def crc32 (p : List (BitVec 8)) : BitVec 32 :=
  p.foldl crc32Byte 0#32

def littleEndian (v : BitVec 32) : List (BitVec 8) :=
  [v.extractLsb' 0 8, v.extractLsb' 8 8, v.extractLsb' 16 8, v.extractLsb' 24 8]

def bitAt (p : List (BitVec 8)) (n : Nat) : Bool :=
  (p.getD (n / 8) 0).getLsbD (n % 8)

structure Outcome where
  output : String
  status : Int
  deriving DecidableEq, Repr

def hex (v : BitVec 32) : String :=
  String.ofList (Nat.toDigits 16 v.toNat)

/-- `main(argc, argv)`, each argument given by its characters. The length that `strlen`
returns is cut to the `unsigned int` that `crc32` takes.
-/
def main (argv : List (List (BitVec 8))) : Outcome :=
  match argv with
  | [_, argument] => ⟨"0x" ++ hex (crc32 (argument.take (argument.length % 2 ^ 32))) ++ "\n", 0⟩
  | _ => ⟨"no string passed as argument\n", -1⟩

noncomputable def crc32Generator : (ZMod 2)[X] :=
  X ^ 32 + X ^ 26 + X ^ 23 + X ^ 22 + X ^ 16 + X ^ 12 + X ^ 11 + X ^ 10 + X ^ 8 + X ^ 7 + X ^ 5
    + X ^ 4 + X ^ 2 + X + 1

-- The remainder

/-- The constant of the loop holds the generator's lower coefficients, reflected. -/
theorem generator_eq
    : generator 0xedb88320#32 = crc32Generator := by
  have bits : lowFirst 0xedb88320#32
      = [false, false, false, false, false, true, false, false, true, true, false, false,
        false, false, false, true, false, false, false, true, true, true, false, true, true,
        false, true, true, false, true, true, true] := by
    decide
  rw [generator, crc32Generator, register, bits]
  simp only [ofBits, coefficient, Bool.false_eq_true, if_true, if_false, C_0, C_1, List.length]
  ring

theorem crc32Bit_eq_shift (crc : BitVec 32)
    : crc32Bit crc = shift 0xedb88320#32 crc := by
  have low : crc &&& 1#32 ≠ 0#32 ↔ crc.getLsbD 0 = true := by
    rw [BitVec.and_one_eq_setWidth_ofBool_getLsbD]
    cases crc.getLsbD 0 <;> decide
  simp only [crc32Bit, shift, low]

/-- The nested loops feed the bytes to the shift register. -/
theorem crc32_eq_feed (p : List (BitVec 8))
    : crc32 p = feed 0xedb88320#32 0#32 p := by
  have byte : crc32Byte = absorb 0xedb88320#32 := by
    funext crc byte
    rw [crc32Byte, absorb, funext crc32Bit_eq_shift]
  rw [crc32, feed, byte]

theorem register_crc32 (p : List (BitVec 8))
    : register (crc32 p) = (message p * X ^ 32) %ₘ crc32Generator := by
  rw [crc32_eq_feed, ← generator_eq]
  exact register_feed 0xedb88320#32 (by decide) p

/-- Equal checksums are a difference that the generator divides. -/
theorem crc32_eq_iff (a b : List (BitVec 8)) (same : a.length = b.length)
    : crc32 a = crc32 b
      ↔ generator 0xedb88320#32 ∣ message (List.zipWith (· ^^^ ·) a b) * X ^ 32 := by
  rw [← register_injective.eq_iff, register_crc32, register_crc32, ← generator_eq,
    ← sub_eq_zero, ← sub_modByMonic, modByMonic_eq_zero_iff_dvd (generator_monic _),
    message_xor a b same, CharTwo.sub_eq_add, add_mul]

theorem crc32_xor (a b : List (BitVec 8)) (same : a.length = b.length)
    : crc32 (List.zipWith (· ^^^ ·) a b) = crc32 a ^^^ crc32 b := by
  apply register_injective
  rw [register_xor, register_crc32, register_crc32, register_crc32, message_xor a b same,
    add_mul, add_modByMonic]

/-- The four bytes of a checksum are its bits, in the order of the message. -/
theorem message_littleEndian (v : BitVec 32)
    : message (littleEndian v) = register v := by
  have bytes : lowFirst v
      = (List.ofFn fun i : Fin 4 => lowFirst (v.extractLsb' (i * 8) 8)).flatten := by
    simp only [lowFirst_extractLsb]
    exact List.ofFn_mul (m := 4) (n := 8) fun i => v.getLsbD i
  rw [message, register, bytes]
  rfl

/-- The checksum appended to its message leaves nothing over. -/
theorem crc32_append_littleEndian (m : List (BitVec 8))
    : crc32 (m ++ littleEndian (crc32 m)) = 0#32 := by
  apply register_eq_zero_iff.mp
  obtain ⟨quotient, fed⟩ := generator_dvd_feed 0xedb88320#32 (by decide : 8 ≤ 32) m
  rw [← crc32_eq_feed] at fed
  rw [register_crc32, ← generator_eq, modByMonic_eq_zero_iff_dvd (generator_monic _),
    message_append, message_littleEndian]
  refine ⟨quotient * X ^ 32, ?_⟩
  have twice := CharTwo.add_self_eq_zero (register (crc32 m))
  simp only [littleEndian, List.length_cons, List.length_nil]
  linear_combination X ^ 32 * fed + X ^ 32 * twice

/-- The checksum is the remainder of the message by the generator, hence linear, and zero over a
message that carries its own checksum. The register is followed bit by bit as a polynomial
(`register_feed`).
-/
theorem crc32_is_remainder
    : (∀ p, register (crc32 p) = (message p * X ^ 32) %ₘ crc32Generator)
      ∧ (∀ a b, a.length = b.length →
          crc32 (List.zipWith (· ^^^ ·) a b) = crc32 a ^^^ crc32 b)
      ∧ ∀ m, crc32 (m ++ littleEndian (crc32 m)) = 0#32 :=
  ⟨register_crc32, crc32_xor, crc32_append_littleEndian⟩

theorem letters_xor
    : crc32 (List.zipWith (· ^^^ ·) [0x61#8, 0x62#8] [0x63#8, 0x64#8])
      = crc32 [0x61#8, 0x62#8] ^^^ crc32 [0x63#8, 0x64#8] :=
  crc32_is_remainder.2.1 _ _ rfl

/-- What `crc32hash` prints of a string that `unsigned int` can measure is the remainder. -/
theorem main_prints_remainder (name argument : List (BitVec 8))
    (measured : argument.length < 2 ^ 32)
    : ∃ v, main [name, argument] = ⟨"0x" ++ hex v ++ "\n", 0⟩
        ∧ register v = (message argument * X ^ 32) %ₘ crc32Generator := by
  refine ⟨crc32 argument, ?_, register_crc32 argument⟩
  simp only [main, Nat.mod_eq_of_lt measured, List.take_length]

-- Bursts

theorem getElem?_bits (p : List (BitVec 8)) (n : Nat)
    : (p.flatMap lowFirst)[n]? = if n < 8 * p.length then some (bitAt p n) else none := by
  induction p generalizing n with
  | nil => simp
  | cons byte rest ih =>
      rw [List.flatMap_cons, List.getElem?_append, length_lowFirst]
      by_cases first : n < 8
      · rw [if_pos first, if_pos (by simp only [List.length_cons]; omega)]
        simp [bitAt, getElem?_lowFirst byte first, Nat.div_eq_of_lt first,
          Nat.mod_eq_of_lt first]
      · obtain ⟨k, rfl⟩ := Nat.exists_eq_add_of_le (Nat.le_of_not_lt first)
        rw [if_neg first, ih, Nat.add_sub_cancel_left]
        have same : bitAt (byte :: rest) (8 + k) = bitAt rest k := by
          simp [bitAt, Nat.add_div_left]
        rw [same, List.length_cons, Nat.mul_add]
        simp only [Nat.mul_one, Nat.add_comm 8 k, Nat.add_lt_add_iff_right]

/-- Different strings of one length differ at some bit. -/
theorem exists_bitAt_ne {a b : List (BitVec 8)} (same : a.length = b.length) (differ : a ≠ b)
    : ∃ n < 8 * a.length, bitAt a n ≠ bitAt b n := by
  by_contra agree
  push Not at agree
  apply differ
  apply List.ext_getElem same
  intro k insideA insideB
  apply BitVec.eq_of_getLsbD_eq
  intro j inside
  have bit := agree (8 * k + j) (by omega)
  simpa [bitAt, Nat.mul_add_div, Nat.div_eq_of_lt inside, Nat.mod_eq_of_lt inside, insideA,
    insideB] using bit

/-- The bits of a difference are set exactly where the strings differ. -/
theorem getElem?_bits_xor {a b : List (BitVec 8)} (same : a.length = b.length) (n : Nat)
    : ((List.zipWith (· ^^^ ·) a b).flatMap lowFirst)[n]? = some true
      ↔ n < 8 * a.length ∧ bitAt a n ≠ bitAt b n := by
  rw [getElem?_bits, List.length_zipWith, same, min_self]
  by_cases inside : n < 8 * b.length
  · have byte : n / 8 < b.length := by omega
    have xor : bitAt (List.zipWith (· ^^^ ·) a b) n = (bitAt a n ^^ bitAt b n) := by
      simp [bitAt, same, byte]
    simp [inside, xor]
  · simp [inside]

/-- A burst of at most 32 wrong bits never goes unnoticed. The difference would be a multiple of the
generator, and a burst is not one.
-/
theorem crc32_separates_bursts (a b : List (BitVec 8)) (same : a.length = b.length)
    (differ : a ≠ b) (start : Nat)
    (burst : ∀ n, bitAt a n ≠ bitAt b n → start ≤ n ∧ n < start + 32)
    : crc32 a ≠ crc32 b := by
  intro equal
  rw [crc32_eq_iff a b same, message] at equal
  refine not_generator_dvd_burst (by decide) start ?_ ?_ 32 equal
  · intro n set
    exact burst n ((getElem?_bits_xor same n).mp set).2
  · obtain ⟨n, inside, ne⟩ := exists_bitAt_ne same differ
    exact List.mem_of_getElem? ((getElem?_bits_xor same n).mpr ⟨inside, ne⟩)

theorem flippedBit_separated
    : crc32 [0x00#8, 0x01#8] ≠ crc32 [0x00#8, 0x41#8] := by
  have early : ∀ n < 14, bitAt [0x00#8, 0x01#8] n = bitAt [0x00#8, 0x41#8] n := by decide
  have late (n : Nat) (past : 16 ≤ n) (byte : BitVec 8) : bitAt [0x00#8, byte] n = false := by
    have beyond : [0x00#8, byte].length ≤ n / 8 := by
      simp only [List.length_cons, List.length_nil]
      omega
    simp [bitAt, List.getElem?_eq_none beyond]
  refine crc32_separates_bursts _ _ rfl (by decide) 14 ?_
  intro n differ
  have low : 14 ≤ n := Nat.le_of_not_lt (fun below => differ (early n below))
  have high : n < 16 := by
    by_contra past
    exact differ (by rw [late n (by omega), late n (by omega)])
  omega

end LinuxDoc.Crc32Hash
