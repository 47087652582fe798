import Mathlib.Data.List.Basic
import Mathlib.Logic.Function.Iterate

/-! Shift registers that shift towards their most significant bit. What falls out at the top is fed
back through the taps; since that is linear in the register, bits may be brought in early, and
several at once.
-/

namespace Foundations

def highFirst {w : Nat} (v : BitVec w) : List Bool :=
  List.ofFn fun i : Fin w => v.getMsbD i

theorem length_highFirst {w : Nat} (v : BitVec w) : (highFirst v).length = w := by
  simp [highFirst]

/-- The bits of a word are those of its upper part and then those of its lower part. -/
theorem highFirst_append {m n : Nat} (a : BitVec m) (b : BitVec n)
    : highFirst (a ++ b) = highFirst a ++ highFirst b := by
  apply List.ext_getElem
  · simp [length_highFirst]
  · intro i _ _
    by_cases first : i < m
    · simp [highFirst, first, Nat.not_le.mpr first]
    · simp [highFirst, Nat.le_of_not_lt first]

namespace UpwardRegister

variable {w : Nat} (taps : BitVec w)

def shiftUp (v : BitVec w) : BitVec w :=
  (v <<< 1) ^^^ (if v.msb then taps else 0#w)

def topBit (b : Bool) : BitVec w :=
  (BitVec.ofBool b).setWidth w <<< (w - 1)

def merge (v : BitVec w) (b : Bool) : BitVec w :=
  shiftUp taps (v ^^^ topBit b)

def ofTop : List Bool → BitVec w
  | [] => 0#w
  | b :: rest => topBit b ^^^ (ofTop rest >>> 1)

variable {taps}

theorem shiftUp_xor (a b : BitVec w)
    : shiftUp taps (a ^^^ b) = shiftUp taps a ^^^ shiftUp taps b := by
  apply BitVec.eq_of_getMsbD_eq
  intro i _
  simp only [shiftUp, BitVec.msb_xor, BitVec.shiftLeft_xor_distrib, BitVec.getMsbD_xor]
  cases a.msb <;> cases b.msb <;> simp only [Bool.xor_false, Bool.xor_true, Bool.not_false,
    Bool.not_true, if_true, Bool.false_eq_true, if_false, BitVec.getMsbD_zero] <;>
    cases (a <<< 1).getMsbD i <;> cases (b <<< 1).getMsbD i <;> cases taps.getMsbD i <;> rfl

theorem iterate_xor (k : Nat) (a b : BitVec w)
    : (shiftUp taps)^[k] (a ^^^ b) = (shiftUp taps)^[k] a ^^^ (shiftUp taps)^[k] b := by
  induction k generalizing a b with
  | zero => rfl
  | succ k ih => rw [Function.iterate_succ_apply, shiftUp_xor, ih]; rfl

theorem iterate_zero_word (k : Nat) : (shiftUp taps)^[k] 0#w = 0#w := by
  have same : (shiftUp taps)^[k] (0#w ^^^ 0#w) = _ := iterate_xor k 0#w 0#w
  rwa [BitVec.xor_self, BitVec.xor_self] at same

/-- As long as only zeros fall out, nothing is fed back. -/
theorem iterate_of_zeros {k : Nat} {v : BitVec w} (zeros : ∀ i < k, v.getMsbD i = false)
    : (shiftUp taps)^[k] v = v <<< k := by
  induction k generalizing v with
  | zero => simp
  | succ k ih =>
      have out : v.msb = false := by
        rw [BitVec.msb_eq_getMsbD_zero]
        exact zeros 0 (Nat.succ_pos k)
      have shifted : shiftUp taps v = v <<< 1 := by simp [shiftUp, out]
      rw [Function.iterate_succ_apply, shifted, ih, ← BitVec.shiftLeft_add, Nat.add_comm]
      intro i below
      rw [BitVec.getMsbD_shiftLeft]
      exact zeros (i + 1) (Nat.succ_lt_succ below)

theorem getMsbD_topBit (b : Bool) (i : Nat)
    : (topBit b : BitVec w).getMsbD i = (decide (i = 0 ∧ 0 < w) && b) := by
  rw [topBit, BitVec.getMsbD_shiftLeft, BitVec.getMsbD_setWidth, BitVec.getMsbD_ofBool]
  cases w with
  | zero => simp
  | succ w => simp

/-- The bits at the top are where they are meant to be. -/
theorem getMsbD_ofTop (bits : List Bool) (i : Nat)
    : (ofTop bits : BitVec w).getMsbD i = (decide (i < w) && bits.getD i false) := by
  induction bits generalizing i with
  | nil => simp [ofTop]
  | cons b rest ih =>
      rw [ofTop, BitVec.getMsbD_xor, getMsbD_topBit, BitVec.getMsbD_ushiftRight, ih]
      cases i with
      | zero => by_cases h : 0 < w <;> simp [h]
      | succ i => by_cases h : i + 1 < w <;> simp [h, Nat.lt_of_succ_lt]

/-- Bits that are brought in one at a time may as well be brought in all at once. -/
theorem iterate_ofTop {bits : List Bool} (fits : bits.length ≤ w) (v : BitVec w)
    : (shiftUp taps)^[bits.length] (v ^^^ ofTop bits) = bits.foldl (merge taps) v := by
  induction bits generalizing v with
  | nil => simp [ofTop]
  | cons b rest ih =>
      have shorter : rest.length < w := fits
      have back : shiftUp taps (ofTop rest >>> 1) = ofTop rest := by
        have once : shiftUp taps (ofTop rest >>> 1) = (ofTop rest >>> 1) <<< 1 := by
          refine iterate_of_zeros (k := 1) fun i below => ?_
          simp [BitVec.getMsbD_ushiftRight, below]
        rw [once]
        apply BitVec.eq_of_getMsbD_eq
        intro i inside
        rw [BitVec.getMsbD_shiftLeft, BitVec.getMsbD_ushiftRight, getMsbD_ofTop, getMsbD_ofTop]
        by_cases last : i + 1 < w
        · simp [last, inside]
        · simp [last, show rest.length ≤ i by omega]
      rw [List.foldl_cons, List.length_cons, Function.iterate_succ_apply, ofTop, ← BitVec.xor_assoc,
        shiftUp_xor, back]
      exact ih (Nat.le_of_lt shorter) (merge taps v b)

/-- A word as bits at the top. -/
theorem ofTop_highFirst {n : Nat} (fits : n ≤ w) (chunk : BitVec n)
    : (ofTop (highFirst chunk) : BitVec w) = chunk.setWidth w <<< (w - n) := by
  apply BitVec.eq_of_getMsbD_eq
  intro i inside
  rw [getMsbD_ofTop, BitVec.getMsbD_shiftLeft, BitVec.getMsbD_setWidth]
  have index : i + (w - n) + n - w = i := by omega
  by_cases below : i < n
  · simp [highFirst, inside, below, index]
  · simp [highFirst, inside, below, index, BitVec.getMsbD_of_ge chunk i (by omega)]

/-- Bring a whole word in at once. -/
theorem iterate_chunk {n : Nat} (fits : n ≤ w) (v : BitVec w) (chunk : BitVec n)
    : (shiftUp taps)^[n] (v ^^^ chunk.setWidth w <<< (w - n))
      = (highFirst chunk).foldl (merge taps) v := by
  have once : (shiftUp taps)^[(highFirst chunk).length] (v ^^^ ofTop (highFirst chunk)) = _ :=
    iterate_ofTop (by rw [length_highFirst]; exact fits) v
  rwa [length_highFirst, ofTop_highFirst fits] at once

/-- What falls out in `k` shifts can be fed back at the end: it is only the first `k` bits that
matter for it.
-/
theorem iterate_split {k : Nat} (fits : k ≤ w) (v : BitVec w)
    : (shiftUp taps)^[k] v
      = (v <<< k) ^^^ (shiftUp taps)^[k] ((v >>> (w - k)) <<< (w - k)) := by
  have split : v = ((v <<< k) >>> k) ^^^ ((v >>> (w - k)) <<< (w - k)) := by
    apply BitVec.eq_of_getMsbD_eq
    intro i inside
    rw [BitVec.getMsbD_xor, BitVec.getMsbD_ushiftRight, BitVec.getMsbD_shiftLeft,
      BitVec.getMsbD_shiftLeft, BitVec.getMsbD_ushiftRight]
    by_cases below : i < k
    · simp [below, inside, show i + (w - k) < w by omega]
    · simp [below, inside, show ¬ i + (w - k) < w by omega, show i - k + k = i by omega]
  have low : (shiftUp taps)^[k] ((v <<< k) >>> k) = v <<< k := by
    rw [iterate_of_zeros fun i below => by simp [BitVec.getMsbD_ushiftRight, below]]
    apply BitVec.eq_of_getMsbD_eq
    intro i inside
    rw [BitVec.getMsbD_shiftLeft, BitVec.getMsbD_ushiftRight, BitVec.getMsbD_shiftLeft]
    by_cases below : i + k < w
    · simp [below]
    · simp [below, BitVec.getMsbD_of_ge v (i + k) (by omega)]
  conv_lhs => rw [split, iterate_xor, low]

/-- A word that is brought in at the top only matters together with what falls out for it, so the
two may be looked up in a table.
-/
theorem iterate_lookup {n : Nat} (fits : n ≤ w) (v : BitVec w) (chunk : BitVec n)
    : (shiftUp taps)^[n] (v ^^^ chunk.setWidth w <<< (w - n))
      = (v <<< n) ^^^ (shiftUp taps)^[n]
          (((v >>> (w - n)).setWidth n ^^^ chunk).setWidth w <<< (w - n)) := by
  have gone : (chunk.setWidth w <<< (w - n)) <<< n = 0#w := by
    rw [← BitVec.shiftLeft_add, Nat.sub_add_cancel fits, BitVec.shiftLeft_eq_zero (Nat.le_refl w)]
  have top : ((v ^^^ chunk.setWidth w <<< (w - n)) >>> (w - n)) <<< (w - n)
      = ((v >>> (w - n)).setWidth n ^^^ chunk).setWidth w <<< (w - n) := by
    apply BitVec.eq_of_getMsbD_eq
    intro i inside
    simp only [BitVec.getMsbD_shiftLeft, BitVec.getMsbD_ushiftRight, BitVec.getMsbD_xor,
      BitVec.getMsbD_setWidth]
    have index : i + (w - n) + n - w = i := by omega
    by_cases below : i < n
    · simp [index, show i + (w - n) < w by omega, show ¬ i + (w - n) < w - n by omega,
        show i + w - n = i + (w - n) by omega, show n ≤ i + w by omega]
    · simp [index, show ¬ i + (w - n) < w by omega, show i + w - n = i + (w - n) by omega,
        BitVec.getMsbD_of_ge chunk i (by omega)]
  rw [iterate_split fits, BitVec.shiftLeft_xor_distrib, gone, BitVec.xor_zero, top]

/-- A bit at the bottom is at the top after one shift less than the word has bits. -/
theorem iterate_bottom (b : Bool)
    : (shiftUp taps)^[w] ((BitVec.ofBool b).setWidth w) = shiftUp taps (topBit b) := by
  cases w with
  | zero => exact Subsingleton.elim _ _
  | succ w =>
      rw [Function.iterate_succ_apply', iterate_of_zeros]
      · rfl
      · intro i below
        rw [BitVec.getMsbD_setWidth]
        simp [show ¬ w ≤ i by omega]

/-- Bringing bits in at the bottom is late by as many shifts as the word has bits. -/
theorem iterate_foldl_bottom (bits : List Bool) (v : BitVec w)
    : (shiftUp taps)^[w]
        (bits.foldl (fun v b => shiftUp taps v ^^^ (BitVec.ofBool b).setWidth w) v)
      = bits.foldl (merge taps) ((shiftUp taps)^[w] v) := by
  induction bits generalizing v with
  | nil => rfl
  | cons b rest ih =>
      rw [List.foldl_cons, List.foldl_cons, ih, iterate_xor, iterate_bottom, merge, shiftUp_xor,
        ← Function.iterate_succ_apply, Function.iterate_succ_apply']

end UpwardRegister

end Foundations
