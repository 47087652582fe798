import Mathlib.Data.Nat.ModEq

/-! Indices of a ring whose size is a power of two, kept in machine words.
An index is a counter that never wraps, reduced to the ring; what masked arithmetic does to
indices is what plain arithmetic does to the counters.
-/

namespace Foundations

def ringMask (w k : Nat) : BitVec w :=
  BitVec.ofNat w (2 ^ k) - 1#w

def ringSlot (w k : Nat) (counter : Nat) : BitVec w :=
  BitVec.ofNat w (counter % 2 ^ k)

section

variable {w k : Nat} (fits : k < w)
include fits

/-- Masking is reduction by the size. -/
theorem toNat_and_ringMask (word : BitVec w)
    : (word &&& ringMask w k).toNat = word.toNat % 2 ^ k := by
  have small : 2 ^ k < 2 ^ w := Nat.pow_lt_pow_right (by decide) fits
  have positive : 0 < 2 ^ k := Nat.two_pow_pos k
  have one : 1 % 2 ^ w = 1 := Nat.mod_eq_of_lt (by omega)
  have mask : (ringMask w k).toNat = 2 ^ k - 1 := by
    rw [ringMask, BitVec.toNat_sub, BitVec.toNat_ofNat, BitVec.toNat_ofNat, one,
      Nat.mod_eq_of_lt small]
    have : 2 ^ w - 1 + 2 ^ k = (2 ^ k - 1) + 2 ^ w := by omega
    rw [this, Nat.add_mod_right, Nat.mod_eq_of_lt (by omega)]
  rw [BitVec.toNat_and, mask, Nat.and_two_pow_sub_one_eq_mod]

theorem toNat_ringSlot (counter : Nat)
    : (ringSlot w k counter).toNat = counter % 2 ^ k := by
  have small : 2 ^ k < 2 ^ w := Nat.pow_lt_pow_right (by decide) fits
  have inside : counter % 2 ^ k < 2 ^ k := Nat.mod_lt _ (Nat.two_pow_pos k)
  rw [ringSlot, BitVec.toNat_ofNat, Nat.mod_eq_of_lt (inside.trans small)]

/-- The next place is the place of the next counter. -/
theorem ringSlot_succ (counter : Nat)
    : (ringSlot w k counter + 1#w) &&& ringMask w k = ringSlot w k (counter + 1) := by
  apply BitVec.eq_of_toNat_eq
  have divides : 2 ^ k ∣ 2 ^ w := Nat.pow_dvd_pow 2 fits.le
  rw [toNat_and_ringMask fits, BitVec.toNat_add, Nat.mod_mod_of_dvd _ divides,
    toNat_ringSlot fits, toNat_ringSlot fits, BitVec.toNat_ofNat, Nat.add_mod,
    Nat.mod_mod_of_dvd _ divides, Nat.mod_mod, ← Nat.add_mod]

/-- The masked difference of two words is the difference of the counters that they stand for,
reduced.
-/
theorem toNat_sub_and_ringMask {left right : BitVec w} {low high : Nat}
    (left_eq : left.toNat ≡ high [MOD 2 ^ k]) (right_eq : right.toNat ≡ low [MOD 2 ^ k])
    (ordered : low ≤ high)
    : ((left - right) &&& ringMask w k).toNat = (high - low) % 2 ^ k := by
  have divides : 2 ^ k ∣ 2 ^ w := Nat.pow_dvd_pow 2 fits.le
  have small := right.isLt
  rw [toNat_and_ringMask fits, BitVec.toNat_sub, Nat.mod_mod_of_dvd _ divides]
  -- adding the lower counter on both sides leaves the higher one
  refine Nat.ModEq.add_right_cancel' right.toNat ?_
  calc 2 ^ w - right.toNat + left.toNat + right.toNat
      = left.toNat + 2 ^ w := by omega
    _ ≡ high + 0 [MOD 2 ^ k] := left_eq.add (Nat.modEq_zero_iff_dvd.mpr divides)
    _ = high - low + low := by omega
    _ ≡ high - low + right.toNat [MOD 2 ^ k] := right_eq.symm.add_left _

theorem ringSlot_modEq (counter : Nat)
    : (ringSlot w k counter).toNat ≡ counter [MOD 2 ^ k] := by
  rw [toNat_ringSlot fits]
  exact Nat.mod_modEq _ _

/-- Counters less than a ring apart have different places. -/
theorem ringSlot_ne {low high : Nat} (ordered : low < high) (near : high < low + 2 ^ k)
    : ringSlot w k low ≠ ringSlot w k high := by
  intro same
  have difference := toNat_sub_and_ringMask fits (ringSlot_modEq fits high)
    (ringSlot_modEq fits low) ordered.le
  rw [same, BitVec.sub_self, BitVec.zero_and, Nat.mod_eq_of_lt (by omega),
    BitVec.toNat_zero] at difference
  omega

end

end Foundations
