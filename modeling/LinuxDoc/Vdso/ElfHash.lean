import LinuxDoc.Foundations.Bytes
import Mathlib.Data.List.Induction

/-! The symbol hash of the vDSO parser, at both widths of `unsigned long`.
The 32-bit evaluation is the one linkers use; the 64-bit one keeps carries out of bit 31
until eight further bytes have shifted them away.
-/

namespace LinuxDoc.Vdso

open Foundations

def hashMask (width : Nat) : BitVec width :=
  BitVec.ofNat width 0xf0000000

def hashSum (width : Nat) (h : BitVec width) (char : UInt8) : BitVec width :=
  (h <<< 4) + BitVec.ofNat width char.toNat

def elfHashStep (width : Nat) (h : BitVec width) (char : UInt8) : BitVec width :=
  let h := hashSum width h char
  let g := h &&& hashMask width
  let h := if g ≠ 0 then h ^^^ (g >>> 24) else h
  h &&& ~~~g

/-- `elf_hash` with an `unsigned long` of the given width, over the bytes of a name before
its NUL.
-/
def elfHash (width : Nat) (name : List UInt8) : BitVec width :=
  name.foldl (elfHashStep width) 0

@[simp] theorem elfHash_nil (width : Nat) : elfHash width [] = 0 := rfl

@[simp] theorem elfHash_concat (width : Nat) (name : List UInt8) (char : UInt8)
    : elfHash width (name ++ [char]) = elfHashStep width (elfHash width name) char := by
  simp [elfHash]

theorem hashMask_getLsbD (width i : Nat)
    : (hashMask width).getLsbD i = (decide (i < width) && decide (28 ≤ i ∧ i < 32)) := by
  have shifted : (0xf0000000 : Nat) = (2 ^ 4 - 1) <<< 28 := by decide
  rw [hashMask, BitVec.getLsbD_ofNat, shifted, Nat.testBit_shiftLeft,
    Nat.testBit_two_pow_sub_one]
  congr 1
  by_cases low : 28 ≤ i <;> simp [low]
  omega

/-- The test on `g` only avoids an exclusive or with zero. -/
theorem elfHashStep_eq (width : Nat) (h : BitVec width) (char : UInt8)
    : elfHashStep width h char
      = (hashSum width h char ^^^ ((hashSum width h char &&& hashMask width) >>> 24))
        &&& ~~~(hashSum width h char &&& hashMask width) := by
  simp only [elfHashStep]
  by_cases clear : hashSum width h char &&& hashMask width = 0
  · simp [clear]
  · rw [if_pos clear]

/-- A pass folds bits 28 to 31 of the shifted sum onto bits 4 to 7 and clears them; every
other bit of the sum stays.
-/
theorem elfHashStep_getLsbD (width : Nat) (wide : 32 ≤ width) (h : BitVec width)
    (char : UInt8) (i : Nat)
    : (elfHashStep width h char).getLsbD i
      = (((hashSum width h char).getLsbD i
            ^^ (decide (4 ≤ i ∧ i < 8) && (hashSum width h char).getLsbD (24 + i)))
          && !decide (28 ≤ i ∧ i < 32)) := by
  rw [elfHashStep_eq]
  simp only [BitVec.getLsbD_and, BitVec.getLsbD_xor, BitVec.getLsbD_not,
    BitVec.getLsbD_ushiftRight, hashMask_getLsbD]
  by_cases inside : i < width
  · by_cases high : 28 ≤ i ∧ i < 32
    · have notLow : ¬ (4 ≤ i ∧ i < 8) := by omega
      have notFolded : ¬ (28 ≤ 24 + i ∧ 24 + i < 32) := by omega
      simp [inside, high, notLow, notFolded]
    · by_cases folded : 4 ≤ i ∧ i < 8
      · have source : 28 ≤ 24 + i ∧ 24 + i < 32 := by omega
        have sourceInside : 24 + i < width := by omega
        simp [inside, high, folded, source, sourceInside]
      · have notFolded : ¬ (28 ≤ 24 + i ∧ 24 + i < 32) := by omega
        simp [inside, high, folded, notFolded]
  · have outside : width ≤ i := by omega
    have notFolded : ¬ (4 ≤ i ∧ i < 8) := by omega
    simp [BitVec.getLsbD_of_ge _ _ outside, inside, notFolded]

/-- The low 32 bits of the wide shifted sum are the narrow one. -/
theorem hashSum_setWidth (h : BitVec 64) (char : UInt8)
    : (hashSum 64 h char).setWidth 32 = hashSum 32 (h.setWidth 32) char := by
  simp [hashSum, BitVec.setWidth_add]

/-- The low 32 bits of a wide pass are the narrow pass on the low 32 bits. Witness: bit
comparison; the folded bits come from below bit 32, where both sums agree.
-/
theorem elfHashStep_setWidth (h : BitVec 64) (char : UInt8)
    : (elfHashStep 64 h char).setWidth 32 = elfHashStep 32 (h.setWidth 32) char := by
  apply BitVec.eq_of_getLsbD_eq
  intro i inside
  have sum (j : Nat) (below : j < 32)
      : (hashSum 64 h char).getLsbD j = (hashSum 32 (h.setWidth 32) char).getLsbD j := by
    rw [← hashSum_setWidth]
    simp [below]
  rw [BitVec.getLsbD_setWidth, elfHashStep_getLsbD 64 (by omega),
    elfHashStep_getLsbD 32 (by omega), sum i inside]
  by_cases folded : 4 ≤ i ∧ i < 8
  · rw [sum (24 + i) (by omega)]
    simp [inside]
  · simp [inside, folded]

/-- A narrow pass clears its top four bits. -/
theorem elfHashStep_lt (h : BitVec 32) (char : UInt8)
    : (elfHashStep 32 h char).toNat < 2 ^ 28 := by
  apply Nat.lt_pow_two_of_testBit
  intro i high
  rw [BitVec.testBit_toNat]
  by_cases inside : i < 32
  · rw [elfHashStep_getLsbD 32 (by omega)]
    simp [high, inside]
  · exact BitVec.getLsbD_of_ge _ _ (by omega)

/-- A wide pass leaves the bits from 32 up as the shifted sum has them. -/
theorem elfHashStep_high (h : BitVec 64) (char : UInt8)
    : (elfHashStep 64 h char).toNat / 2 ^ 32 = (hashSum 64 h char).toNat / 2 ^ 32 := by
  apply Nat.eq_of_testBit_eq
  intro i
  rw [Nat.testBit_div_two_pow, Nat.testBit_div_two_pow, BitVec.testBit_toNat,
    BitVec.testBit_toNat, elfHashStep_getLsbD 64 (by omega)]
  have notFolded : ¬ (4 ≤ i + 32 ∧ i + 32 < 8) := by omega
  have notCleared : ¬ (28 ≤ i + 32 ∧ i + 32 < 32) := by omega
  rw [decide_eq_false notFolded, decide_eq_false notCleared]
  simp

/-- The low half of the wide hash is the narrow hash, by induction over the passes. -/
theorem elfHash_setWidth (name : List UInt8)
    : (elfHash 64 name).setWidth 32 = elfHash 32 name := by
  induction name using List.reverseRecOn with
  | nil => rfl
  | append_singleton name char ih =>
      rw [elfHash_concat, elfHash_concat, elfHashStep_setWidth, ih]

theorem elfHash_mod (name : List UInt8)
    : (elfHash 64 name).toNat % 2 ^ 32 = (elfHash 32 name).toNat := by
  rw [← elfHash_setWidth, BitVec.toNat_setWidth]

/-- The narrow hash is below 2^28: its last pass cleared the top four bits. -/
theorem elfHash_lt (name : List UInt8) : (elfHash 32 name).toNat < 2 ^ 28 := by
  rcases List.eq_nil_or_concat name with rfl | ⟨shorter, char, rfl⟩
  · decide
  · rw [List.concat_eq_append, elfHash_concat]
    exact elfHashStep_lt _ _

/-- The pass over `char` after `before` carries out of bit 31 of the shifted sum. The hash
of `before` is the 32-bit one of the ELF specification.
-/
def Carries (before : List UInt8) (char : UInt8) : Prop :=
  2 ^ 32 ≤ 16 * (elfHash 32 before).toNat + char.toNat

instance (before : List UInt8) (char : UInt8) : Decidable (Carries before char) :=
  inferInstanceAs (Decidable (_ ≤ _))

def elfHashHigh (name : List UInt8) : Nat :=
  (elfHash 64 name).toNat / 2 ^ 32

/-- A pass shifts the high half by one hexadecimal digit and puts the carry in it. -/
theorem elfHashHigh_concat (name : List UInt8) (char : UInt8)
    : elfHashHigh (name ++ [char])
      = (16 * elfHashHigh name + if Carries name char then 1 else 0) % 2 ^ 32 := by
  have low := elfHash_mod name
  have small := elfHash_lt name
  have wide := (elfHash 64 name).isLt
  have digit := char.toNat_lt
  rw [elfHashHigh, elfHash_concat, elfHashStep_high, hashSum, BitVec.toNat_add,
    BitVec.toNat_shiftLeft, BitVec.toNat_ofNat, Nat.shiftLeft_eq, elfHashHigh]
  by_cases carried : Carries name char
  · rw [if_pos carried]
    rw [Carries] at carried
    omega
  · rw [if_neg carried]
    rw [Carries] at carried
    omega

/-- The last `count` hexadecimal digits of the high half are zero exactly when none of the
last `count` passes carried. Witness: induction over the passes; each one moves the digits
up and appends its own carry, and eight digits fill the high half.
-/
theorem elfHashHigh_mod_iff (name : List UInt8) (count : Nat) (fits : count ≤ 8)
    : elfHashHigh name % 16 ^ count = 0
      ↔ ∀ before char after,
          name = before ++ char :: after → after.length < count → ¬ Carries before char := by
  induction name using List.reverseRecOn generalizing count with
  | nil => simp [elfHashHigh]
  | append_singleton name char ih =>
      cases count with
      | zero => simp [Nat.mod_one]
      | succ count =>
          have divides : 16 ^ (count + 1) ∣ 2 ^ 32 := by
            have power : (2 : Nat) ^ 32 = 16 ^ 8 := by decide
            rw [power]
            exact Nat.pow_dvd_pow 16 fits
          rw [elfHashHigh_concat, Nat.mod_mod_of_dvd _ divides]
          have digits : (16 * elfHashHigh name + if Carries name char then 1 else 0)
                % 16 ^ (count + 1) = 0
              ↔ ¬ Carries name char ∧ elfHashHigh name % 16 ^ count = 0 := by
            rw [Nat.pow_succ, Nat.mul_comm (16 ^ count) 16, Nat.mod_mul]
            split
            · rename_i carried
              simp only [carried, not_true_eq_false, false_and, iff_false]
              omega
            · rename_i clear
              simp only [clear, not_false_eq_true, true_and, Nat.add_zero,
                Nat.mul_mod_right, Nat.zero_add,
                Nat.mul_div_cancel_left _ (by decide : 0 < 16)]
              omega
          rw [digits, ih count (by omega)]
          constructor
          · rintro ⟨last, earlier⟩ before byte after split near
            rcases List.eq_nil_or_concat after with rfl | ⟨shorter, final, rfl⟩
            · obtain ⟨rfl, same⟩ := List.append_inj' split rfl
              obtain ⟨rfl, -⟩ := List.cons_eq_cons.mp same
              exact last
            · rw [List.concat_eq_append, ← List.cons_append, ← List.append_assoc] at split
              obtain ⟨rfl, -⟩ := List.append_inj' split rfl
              simp only [List.concat_eq_append, List.length_append, List.length_singleton]
                at near
              exact earlier before byte shorter rfl (by omega)
          · intro none
            refine ⟨none name char [] rfl (by simp), ?_⟩
            intro before byte after split near
            refine none before byte (after ++ [char]) (by simp [split]) ?_
            simp only [List.length_append, List.length_singleton]
            omega

/-- The wide hash is the narrow one exactly when no carry is left in its high half. -/
theorem elfHash_eq_iff (name : List UInt8)
    : (elfHash 64 name).toNat = (elfHash 32 name).toNat ↔ elfHashHigh name = 0 := by
  have low := elfHash_mod name
  simp only [elfHashHigh]
  omega

/-- `elf_hash` of an LP64 build agrees with the 32-bit hash on this name, stays below 2^28,
and selects the bucket in which a linker placed the name, whatever the table size.
-/
structure WidthIndependent (name : CString) : Prop where
  sameValue : (elfHash 64 name.bytes).toNat = (elfHash 32 name.bytes).toNat
  bounded : (elfHash 64 name.bytes).toNat < 2 ^ 28
  sameBucket
    : ∀ nbucket : BitVec 32,
        0 < nbucket.toNat
        → (elfHash 64 name.bytes).toNat % nbucket.toNat
          = (elfHash 32 name.bytes).toNat % nbucket.toNat

/-- None of the last eight bytes of a name carries out of 32 bits when it is added. -/
def NoLateCarry (name : CString) : Prop :=
  ∀ before char after,
    name.bytes = before ++ char :: after → after.length < 8 → ¬ Carries before char

/-- The hash is width independent exactly on names without a late carry. By `elfHashHigh_mod_iff` at
all eight digits of the upper half.
-/
theorem elfHash_widthIndependent_iff (name : CString)
    : WidthIndependent name ↔ NoLateCarry name := by
  have wide := (elfHash 64 name.bytes).isLt
  have digits := elfHashHigh_mod_iff name.bytes 8 (Nat.le_refl 8)
  have whole : elfHashHigh name.bytes % 16 ^ 8 = elfHashHigh name.bytes := by
    simp only [elfHashHigh]
    omega
  rw [NoLateCarry, ← digits, whole, ← elfHash_eq_iff]
  constructor
  · intro independent
    exact independent.sameValue
  · intro same
    refine ⟨same, ?_, ?_⟩
    · rw [same]
      exact elfHash_lt name.bytes
    · intro nbucket _
      rw [same]

def lateCarryName : CString :=
  ⟨[0xff, 0x0f, 0x0f, 0x0f, 0x0f, 0x0f, 0x12], by decide⟩

theorem lateCarryName_not_widthIndependent
    : elfHash 64 lateCarryName.bytes = 0x100000002 ∧ elfHash 32 lateCarryName.bytes = 2
      ∧ ¬ WidthIndependent lateCarryName := by
  have wide : elfHash 64 lateCarryName.bytes = 0x100000002 := by decide
  have narrow : elfHash 32 lateCarryName.bytes = 2 := by decide
  refine ⟨wide, narrow, ?_⟩
  intro independent
  have same := independent.sameValue
  rw [wide, narrow] at same
  exact absurd same (by decide)

end LinuxDoc.Vdso
