import LinuxDoc.NandEcc.Ecc1
import Mathlib.Algebra.BigOperators.Fin

/-! What the code of a sector tells about errors in it: one wrong bit shows its place, and two
wrong bits never look like one.
-/

namespace LinuxDoc.NandEcc

open Foundations

def flip (buf : Nat → BitVec 8) (i : Fin 256) (j : Fin 8) : Nat → BitVec 8 :=
  Function.update buf i.val (buf i.val ^^^ (1#8 <<< j.val))

def Code.changed (before after : Code) (k : Fin 22) : Bool :=
  before.parityBit k ≠ after.parityBit k

/-- Of each two parity bits over complementary halves of the sector, exactly one is set. -/
def OneOfEachPair (f : Fin 22 → Bool) : Prop :=
  ∀ b : Fin 11, f ⟨2 * b.val, by omega⟩ ≠ f ⟨2 * b.val + 1, by omega⟩

/-- Parity bit `k` takes in bit `j` of byte `i`: a pair of parities divides the sector by one
bit of the place.
-/
def selects (k : Fin 22) (i : Fin 256) (j : Fin 8) : Bool :=
  (i.val + 256 * j.val).testBit (k.val / 2) == (k.val % 2 == 1)

theorem testBit_place_low (i : Fin 256) (j : Fin 8) {b : Nat} (low : b < 8)
    : (i.val + 256 * j.val).testBit b = i.val.testBit b := by
  have place := Nat.testBit_mod_two_pow (i.val + 256 * j.val) 8 b
  have byte : (i.val + 256 * j.val) % 2 ^ 8 = i.val := by omega
  rw [byte] at place
  simpa [low] using place.symm

theorem testBit_place_high (i : Fin 256) (j : Fin 8) (b : Nat)
    : (i.val + 256 * j.val).testBit (8 + b) = j.val.testBit b := by
  have bit : (i.val + 256 * j.val) / 2 ^ 8 = j.val := by omega
  rw [Nat.add_comm 8 b, ← Nat.testBit_div_two_pow, bit]

/-- The masks of the code divide the sector by the bits of the place. -/
theorem getLsbD_mask (k : Fin 22) (i : Fin 256) (j : Fin 8)
    : (mask k i.val).getLsbD j.val = selects k i j := by
  rw [mask, selects]
  by_cases row : k.val < 16
  · rw [dif_pos row, testBit_place_low i j (by omega)]
    have full : (0xff#8).getLsbD j.val = true := by
      revert j
      decide
    have chosen : covers ⟨k.val, row⟩ i.val
        = (i.val.testBit (k.val / 2) == (k.val % 2 == 1)) := rfl
    rw [← chosen]
    cases covers ⟨k.val, row⟩ i.val <;> simp [full]
  · have half : k.val / 2 = 8 + (k.val - 16) / 2 := by omega
    have rest : k.val % 2 = (k.val - 16) % 2 := by omega
    have columns : ∀ (q : Fin 6) (j : Fin 8),
        (columnMask q).getLsbD j.val = (j.val.testBit (q.val / 2) == (q.val % 2 == 1)) := by
      decide
    rw [dif_neg row, half, rest, testBit_place_high]
    exact columns ⟨k.val - 16, by omega⟩ j

theorem parity_single (j : Fin 8) (m : BitVec 8)
    : parity ((1#8 <<< j.val) &&& m) = BitVec.ofBool (m.getLsbD j.val) := by
  fin_cases j <;> simp [parity, xorSum]

/-- An inverted bit inverts the parities that take it in. -/
theorem check_flip (buf : Nat → BitVec 8) (i : Fin 256) (j : Fin 8) (k : Fin 22)
    : check (flip buf i j) k = check buf k ^^^ BitVec.ofBool (selects k i j) := by
  have split : (fun n => flip buf i j n &&& mask k n)
      = Function.update (fun n => buf n &&& mask k n) i.val
          ((buf i.val &&& mask k i.val) ^^^ ((1#8 <<< j.val) &&& mask k i.val)) := by
    funext n
    by_cases here : n = i.val
    · rw [here, flip, Function.update_self, Function.update_self, xor_and]
    · rw [flip, Function.update_of_ne here, Function.update_of_ne here]
  rw [check, split, xorSum_update_xor (fun n => buf n &&& mask k n) i.isLt, parity_xor,
    parity_single, getLsbD_mask]
  rfl

theorem changed_eq (buf other : Nat → BitVec 8) (k : Fin 22) {d : Bool}
    (differ : check other k = check buf k ^^^ BitVec.ofBool d)
    : (ecc1 buf).changed (ecc1 other) k = d := by
  rw [Code.changed, ecc1_parityBit, ecc1_parityBit, differ]
  clear differ
  generalize check buf k = c
  revert c d
  decide

theorem changed_flip (buf : Nat → BitVec 8) (i : Fin 256) (j : Fin 8) (k : Fin 22)
    : (ecc1 buf).changed (ecc1 (flip buf i j)) k = selects k i j :=
  changed_eq buf _ k (check_flip buf i j k)

theorem changed_flip_flip (buf : Nat → BitVec 8) (i i' : Fin 256) (j j' : Fin 8) (k : Fin 22)
    : (ecc1 buf).changed (ecc1 (flip (flip buf i j) i' j')) k
      = (selects k i j ^^ selects k i' j') := by
  apply changed_eq
  rw [check_flip, check_flip, BitVec.xor_assoc, BitVec.ofBool_xor_ofBool]

/-- A pair of parities tells on which side of a bit of the place an error is. -/
theorem selects_pair (i : Fin 256) (j : Fin 8) (b : Fin 11)
    : selects ⟨2 * b.val, by omega⟩ i j = !(i.val + 256 * j.val).testBit b.val
      ∧ selects ⟨2 * b.val + 1, by omega⟩ i j = (i.val + 256 * j.val).testBit b.val := by
  have even : 2 * b.val / 2 = b.val := by omega
  have odd : (2 * b.val + 1) / 2 = b.val := by omega
  have rest : (2 * b.val + 1) % 2 = 1 := by omega
  simp [selects, even, odd, rest]

theorem selects_oneOfEachPair (i : Fin 256) (j : Fin 8)
    : OneOfEachPair (fun k => selects k i j) := by
  intro b
  beta_reduce
  rw [(selects_pair i j b).1, (selects_pair i j b).2]
  cases (i.val + 256 * j.val).testBit b.val <;> decide

/-- One of each of the 11 pairs is 11 of the 22 bits. -/
theorem OneOfEachPair.card_eq {f : Fin 22 → Bool} (pairs : OneOfEachPair f)
    : (Finset.univ.filter (fun k => f k = true)).card = 11 := by
  have one (b : Fin 11)
      : (if f ⟨2 * b.val, by omega⟩ = true then 1 else 0)
        + (if f ⟨2 * b.val + 1, by omega⟩ = true then 1 else 0) = 1 := by
    have apart := pairs b
    revert apart
    cases f ⟨2 * b.val, by omega⟩ <;> cases f ⟨2 * b.val + 1, by omega⟩ <;> simp
  have paired (g : Fin 22 → Nat)
      : ∑ k, g k = ∑ b : Fin 11, (g ⟨2 * b.val, by omega⟩ + g ⟨2 * b.val + 1, by omega⟩) := by
    rw [← (finProdFinEquiv (m := 11) (n := 2)).sum_comp, Fintype.sum_prod_type]
    refine Finset.sum_congr rfl (fun b _ => ?_)
    rw [Fin.sum_univ_two]
    congr 2 <;> apply Fin.ext
    · exact (finProdFinEquiv_apply_val (b, 0)).trans (by simp)
    · exact (finProdFinEquiv_apply_val (b, 1)).trans (by simp [Nat.add_comm])
  rw [Finset.card_filter, paired, Finset.sum_congr rfl (fun b _ => one b)]
  rfl

/-- Different places differ in some bit. -/
theorem exists_testBit_ne {i i' : Fin 256} {j j' : Fin 8} (apart : (i, j) ≠ (i', j'))
    : ∃ b : Fin 11,
        (i.val + 256 * j.val).testBit b.val ≠ (i'.val + 256 * j'.val).testBit b.val := by
  by_contra agree
  push Not at agree
  apply apart
  have same : i.val + 256 * j.val = i'.val + 256 * j'.val := by
    apply Nat.eq_of_testBit_eq
    intro b
    rcases Nat.lt_or_ge b 11 with low | high
    · exact agree ⟨b, low⟩
    · have power : 2 ^ 11 ≤ 2 ^ b := Nat.pow_le_pow_right (by decide) high
      rw [Nat.testBit_lt_two_pow (by omega), Nat.testBit_lt_two_pow (by omega)]
  apply Prod.ext <;> apply Fin.ext <;> simp only <;> omega

/-- The code of every sector corrects one wrong bit and detects two: one inverted bit changes
one parity of each pair, and these spell its byte and its bit; two inverted bits change both
parities of some pair, and never one of each.
-/
theorem ecc1_corrects_one_detects_two (buf : Nat → BitVec 8)
    : (∀ (i : Fin 256) (j : Fin 8),
        (Finset.univ.filter
          (fun k => (ecc1 buf).changed (ecc1 (flip buf i j)) k = true)).card = 11
        ∧ OneOfEachPair ((ecc1 buf).changed (ecc1 (flip buf i j)))
        ∧ (∀ b : Fin 8, (ecc1 buf).changed (ecc1 (flip buf i j)) ⟨2 * b.val + 1, by omega⟩
            = i.val.testBit b.val)
        ∧ ∀ c : Fin 3, (ecc1 buf).changed (ecc1 (flip buf i j)) ⟨16 + 2 * c.val + 1, by omega⟩
            = j.val.testBit c.val)
      ∧ ∀ (i i' : Fin 256) (j j' : Fin 8), (i, j) ≠ (i', j') →
          ecc1 (flip (flip buf i j) i' j') ≠ ecc1 buf
          ∧ ¬ OneOfEachPair ((ecc1 buf).changed (ecc1 (flip (flip buf i j) i' j'))) := by
  constructor
  · intro i j
    have shown : (ecc1 buf).changed (ecc1 (flip buf i j)) = fun k => selects k i j :=
      funext (changed_flip buf i j)
    rw [shown]
    have pairs := selects_oneOfEachPair i j
    refine ⟨pairs.card_eq, pairs, ?_, ?_⟩
    · intro b
      exact (selects_pair i j ⟨b.val, by omega⟩).2.trans (testBit_place_low i j b.isLt)
    · intro c
      have place := (selects_pair i j ⟨8 + c.val, by omega⟩).2.trans (testBit_place_high i j c.val)
      have index : 2 * (8 + c.val) + 1 = 16 + 2 * c.val + 1 := by omega
      simpa only [index] using place
  · intro i i' j j' apart
    obtain ⟨b, differ⟩ := exists_testBit_ne apart
    have odd : (ecc1 buf).changed (ecc1 (flip (flip buf i j) i' j')) ⟨2 * b.val + 1, by omega⟩
        = true := by
      rw [changed_flip_flip, (selects_pair i j b).2, (selects_pair i' j' b).2]
      simpa using differ
    have even : (ecc1 buf).changed (ecc1 (flip (flip buf i j) i' j')) ⟨2 * b.val, by omega⟩
        = true := by
      rw [changed_flip_flip, (selects_pair i j b).1, (selects_pair i' j' b).1]
      simpa using differ
    constructor
    · intro same
      rw [same, Code.changed] at odd
      simp at odd
    · intro pairs
      exact pairs b (even.trans odd.symm)

theorem twoBits_detected
    : ecc1 (flip (flip (fun _ => 0#8) 7 0) 7 3) ≠ ecc1 (fun _ => 0#8) :=
  ((ecc1_corrects_one_detects_two (fun _ => 0#8)).2 7 7 0 3 (by decide)).1

end LinuxDoc.NandEcc
