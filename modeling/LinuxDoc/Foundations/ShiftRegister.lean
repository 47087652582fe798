import Mathlib.Algebra.CharP.Two
import Mathlib.Algebra.Field.ZMod
import Mathlib.Algebra.Polynomial.Div
import Mathlib.Algebra.Polynomial.FieldDivision
import Mathlib.Data.ZMod.Basic
import Mathlib.Tactic.LinearCombination
import Mathlib.Tactic.Ring

/-! Shift registers with feedback, read as polynomials over the field of two elements.
The bit that leaves the register first is the coefficient of the highest power, so a shift
is a multiplication by `X` and the feedback is a reduction by the generator.
-/

namespace Foundations

open Polynomial

def lowFirst {w : Nat} (v : BitVec w) : List Bool :=
  List.ofFn (fun i : Fin w => v.getLsbD i)

namespace ShiftRegister

/-- One shift towards the low end; a bit that falls out feeds the taps back in. -/
def shift {w : Nat} (taps v : BitVec w) : BitVec w :=
  (v >>> 1) ^^^ (if v.getLsbD 0 then taps else 0#w)

def absorb {w n : Nat} (taps v : BitVec w) (chunk : BitVec n) : BitVec w :=
  (shift taps)^[n] (v ^^^ chunk.setWidth w)

def feed {w n : Nat} (taps v : BitVec w) (chunks : List (BitVec n)) : BitVec w :=
  chunks.foldl (absorb taps) v

noncomputable section

def coefficient (b : Bool) : ZMod 2 :=
  if b then 1 else 0

theorem coefficient_xor (a b : Bool)
    : coefficient (a ^^ b) = coefficient a + coefficient b := by
  cases a <;> cases b <;> decide

theorem coefficient_eq_zero {b : Bool}
    : coefficient b = 0 ↔ b = false := by
  cases b <;> simp [coefficient]

/-- A bit string as a polynomial, its first bit the coefficient of the highest power. -/
def ofBits : List Bool → (ZMod 2)[X]
  | [] => 0
  | b :: rest => C (coefficient b) * X ^ rest.length + ofBits rest

theorem degree_ofBits_lt (bits : List Bool)
    : (ofBits bits).degree < bits.length := by
  induction bits with
  | nil => simp [ofBits]
  | cons b rest ih =>
      rw [ofBits, List.length_cons]
      refine (degree_add_le _ _).trans_lt (max_lt ?_ (ih.trans ?_))
      · refine (degree_C_mul_X_pow_le _ _).trans_lt ?_
        exact_mod_cast Nat.lt_succ_self _
      · exact_mod_cast Nat.lt_succ_self _

theorem ofBits_append (left right : List Bool)
    : ofBits (left ++ right) = ofBits left * X ^ right.length + ofBits right := by
  induction left with
  | nil => simp [ofBits]
  | cons b rest ih =>
      rw [List.cons_append, ofBits, ofBits, ih, List.length_append, pow_add]
      ring

variable {bits : List Bool}

/-- Bits that are all zero are the zero polynomial. -/
theorem ofBits_eq_zero_iff
    : ofBits bits = 0 ↔ ∀ b ∈ bits, b = false := by
  induction bits with
  | nil => simp [ofBits]
  | cons b rest ih =>
      rw [List.forall_mem_cons, ← ih, ofBits]
      constructor
      · intro h
        -- the head's power is out of reach of the tail
        have top : (C (coefficient b) * X ^ rest.length + ofBits rest).coeff rest.length = 0 := by
          rw [h, coeff_zero]
        rw [coeff_add, coeff_C_mul_X_pow, if_pos rfl,
          coeff_eq_zero_of_degree_lt (degree_ofBits_lt rest), add_zero, coefficient_eq_zero]
          at top
        subst top
        exact ⟨rfl, by simpa [coefficient] using h⟩
      · intro h
        simp [h.1, h.2, coefficient]

theorem ofBits_zipWith_xor (left right : List Bool) (same : left.length = right.length)
    : ofBits (List.zipWith (· ^^ ·) left right) = ofBits left + ofBits right := by
  induction left generalizing right with
  | nil =>
      cases right with
      | nil => simp [ofBits]
      | cons _ _ => simp at same
  | cons a left ih =>
      cases right with
      | nil => simp at same
      | cons b right =>
          have tails : left.length = right.length := by simpa using same
          rw [List.zipWith_cons_cons, ofBits, ofBits, ofBits, ih right tails, coefficient_xor,
            C_add, List.length_zipWith, tails, min_self]
          ring

variable {w : Nat}

/-- The polynomial in a register, its least significant bit the highest coefficient. -/
def register (v : BitVec w) : (ZMod 2)[X] :=
  ofBits (lowFirst v)

theorem length_lowFirst (v : BitVec w)
    : (lowFirst v).length = w := by
  simp [lowFirst]

theorem lowFirst_extractLsb (v : BitVec w) (start n : Nat)
    : lowFirst (v.extractLsb' start n) = List.ofFn fun j : Fin n => v.getLsbD (start + j) := by
  simp [lowFirst]

theorem getElem?_lowFirst (v : BitVec w) {i : Nat} (inside : i < w)
    : (lowFirst v)[i]? = some (v.getLsbD i) := by
  simp [lowFirst, inside, BitVec.getLsbD_eq_getElem]

theorem degree_register_lt (v : BitVec w)
    : (register v).degree < w := by
  have bound := degree_ofBits_lt (lowFirst v)
  rwa [length_lowFirst] at bound

theorem lowFirst_xor (a b : BitVec w)
    : lowFirst (a ^^^ b) = List.zipWith (· ^^ ·) (lowFirst a) (lowFirst b) := by
  apply List.ext_getElem
  · simp [lowFirst]
  · intro i _ _
    simp [lowFirst]

theorem register_xor (a b : BitVec w)
    : register (a ^^^ b) = register a + register b := by
  rw [register, lowFirst_xor, ofBits_zipWith_xor _ _ (by simp only [length_lowFirst])]
  rfl

theorem register_eq_zero_iff {v : BitVec w}
    : register v = 0 ↔ v = 0#w := by
  rw [register, ofBits_eq_zero_iff]
  constructor
  · intro h
    apply BitVec.eq_of_getLsbD_eq
    intro i inside
    simpa using h (v.getLsbD i) (List.mem_ofFn.mpr ⟨⟨i, inside⟩, rfl⟩)
  · intro h b member
    obtain ⟨i, rfl⟩ := List.mem_ofFn.mp member
    simp [h]

theorem register_zero
    : register 0#w = 0 :=
  register_eq_zero_iff.mpr rfl

theorem register_injective
    : Function.Injective (register (w := w)) := by
  intro a b same
  have sum : register (a ^^^ b) = 0 := by
    rw [register_xor, same, CharTwo.add_self_eq_zero]
  exact BitVec.xor_eq_zero_iff.mp (register_eq_zero_iff.mp sum)

def generator (taps : BitVec w) : (ZMod 2)[X] :=
  X ^ w + register taps

theorem generator_monic (taps : BitVec w)
    : (generator taps).Monic :=
  monic_X_pow_add (degree_register_lt taps)

theorem degree_generator (taps : BitVec w)
    : (generator taps).degree = w := by
  rw [generator, degree_add_eq_left_of_degree_lt, degree_X_pow]
  rw [degree_X_pow]
  exact degree_register_lt taps

/-- The bits of a word: the one that a shift takes out, and the rest. -/
theorem lowFirst_succ (v : BitVec (w + 1))
    : lowFirst v = v.getLsbD 0 :: List.ofFn (fun i : Fin w => v.getLsbD (i + 1)) := by
  rw [lowFirst, List.ofFn_succ]
  rfl

/-- A shift moves the bits up by one and brings in a zero. -/
theorem lowFirst_shiftRight (v : BitVec (w + 1))
    : lowFirst (v >>> 1) = List.ofFn (fun i : Fin w => v.getLsbD (i + 1)) ++ [false] := by
  rw [lowFirst, List.ofFn_succ', List.concat_eq_append]
  congr 1
  · congr 1
    funext i
    simp [Nat.add_comm]
  · simp [BitVec.getLsbD_of_ge]

/-- A shift multiplies by `X` and takes the generator off once, if the highest coefficient
was set.
-/
theorem X_mul_register (taps v : BitVec (w + 1))
    : X * register v
      = C (coefficient (v.getLsbD 0)) * generator taps + register (shift taps v) := by
  have moved : X * register v
      = C (coefficient (v.getLsbD 0)) * X ^ (w + 1) + register (v >>> 1) := by
    rw [register, register, lowFirst_shiftRight, ofBits_append, lowFirst_succ, ofBits,
      List.length_ofFn, List.length_singleton]
    simp only [ofBits, coefficient, Bool.false_eq_true, if_false, C_0]
    ring
  rw [moved, shift, register_xor, generator]
  cases v.getLsbD 0 with
  | false => simp only [coefficient, Bool.false_eq_true, if_false, C_0, register_zero]; ring
  | true =>
      simp only [coefficient, if_true, C_1]
      linear_combination -CharTwo.add_self_eq_zero (register taps)

/-- Shifting `n` times multiplies by `X ^ n`, up to a multiple of the generator. -/
theorem generator_dvd_shifts (taps v : BitVec (w + 1)) (n : Nat)
    : generator taps ∣ X ^ n * register v - register ((shift taps)^[n] v) := by
  induction n generalizing v with
  | zero => simp
  | succ n ih =>
      obtain ⟨rest, shifted⟩ := ih (shift taps v)
      refine ⟨X ^ n * C (coefficient (v.getLsbD 0)) + rest, ?_⟩
      rw [Function.iterate_succ_apply]
      linear_combination X ^ n * X_mul_register taps v + shifted

variable {n : Nat}

theorem lowFirst_setWidth (chunk : BitVec n) (fits : n ≤ w)
    : lowFirst (chunk.setWidth w) = lowFirst chunk ++ List.replicate (w - n) false := by
  apply List.ext_getElem
  · simp [lowFirst, fits]
  · intro i _ _
    by_cases low : i < n
    · simp [lowFirst, low, BitVec.getLsbD_eq_getElem]
    · simp [lowFirst, List.getElem_append, low, BitVec.getLsbD_of_ge chunk i (by omega)]

/-- A chunk in the low end stands for the highest powers. -/
theorem register_setWidth (chunk : BitVec n) (fits : n ≤ w)
    : register (chunk.setWidth w) = register chunk * X ^ (w - n) := by
  have zeros : ofBits (List.replicate (w - n) false) = 0 := by
    rw [ofBits_eq_zero_iff]
    intro b member
    exact List.eq_of_mem_replicate member
  rw [register, lowFirst_setWidth chunk fits, ofBits_append, zeros, List.length_replicate,
    add_zero]
  rfl

/-- The polynomial of a message, the first bit to be absorbed its highest coefficient. -/
def message {n : Nat} (chunks : List (BitVec n)) : (ZMod 2)[X] :=
  ofBits (chunks.flatMap lowFirst)

theorem message_append (left right : List (BitVec n))
    : message (left ++ right) = message left * X ^ (n * right.length) + message right := by
  have size : (right.flatMap lowFirst).length = n * right.length := by
    simp [List.length_flatMap, length_lowFirst, Nat.mul_comm]
  rw [message, List.flatMap_append, ofBits_append, size]
  rfl

theorem message_singleton (chunk : BitVec n)
    : message [chunk] = register chunk := by
  simp [message, register]

theorem message_xor (left right : List (BitVec n)) (same : left.length = right.length)
    : message (List.zipWith (· ^^^ ·) left right) = message left + message right := by
  have cons (chunk : BitVec n) (rest : List (BitVec n))
      : message (chunk :: rest) = register chunk * X ^ (n * rest.length) + message rest := by
    rw [← List.singleton_append, message_append, message_singleton]
  induction left generalizing right with
  | nil =>
      cases right with
      | nil => simp [message, ofBits]
      | cons _ _ => simp at same
  | cons a left ih =>
      cases right with
      | nil => simp at same
      | cons b right =>
          have tails : left.length = right.length := by simpa using same
          rw [List.zipWith_cons_cons, cons, cons, cons, ih right tails, register_xor,
            List.length_zipWith, tails, min_self]
          ring

/-- After a message the register holds, up to a multiple of the generator, what it would
hold without feedback: the message moved above the register's width.
-/
theorem generator_dvd_feed (taps : BitVec (w + 1)) (fits : n ≤ w + 1) (chunks : List (BitVec n))
    : generator taps ∣ message chunks * X ^ (w + 1) - register (feed taps 0#(w + 1) chunks) := by
  induction chunks using List.reverseRecOn with
  | nil => simp [feed, message, ofBits, register_zero]
  | append_singleton chunks chunk ih =>
      obtain ⟨before, fed⟩ := ih
      have split : X ^ n * X ^ (w + 1 - n) = (X ^ (w + 1) : (ZMod 2)[X]) := by
        rw [← pow_add, Nat.add_sub_cancel' fits]
      obtain ⟨during, shifted⟩ :=
        generator_dvd_shifts taps (feed taps 0#(w + 1) chunks ^^^ chunk.setWidth (w + 1)) n
      rw [register_xor, register_setWidth chunk fits] at shifted
      refine ⟨X ^ n * before + during, ?_⟩
      rw [feed, List.foldl_append, List.foldl_cons, List.foldl_nil, absorb, message_append,
        message_singleton, List.length_singleton, mul_one]
      rw [feed] at fed shifted
      linear_combination X ^ n * fed + shifted + register chunk * split.symm

/-- A register started at zero ends with the remainder of the message, moved above the
register's width, by the generator.
-/
theorem register_feed (taps : BitVec (w + 1)) (fits : n ≤ w + 1) (chunks : List (BitVec n))
    : register (feed taps 0#(w + 1) chunks) = (message chunks * X ^ (w + 1)) %ₘ generator taps := by
  obtain ⟨quotient, fed⟩ := generator_dvd_feed taps fits chunks
  refine (div_modByMonic_unique quotient _ (generator_monic taps) ⟨?_, ?_⟩).2.symm
  · linear_combination -fed
  · rw [degree_generator]
    exact degree_register_lt _

/-- The constant term of a register is its most significant bit. -/
theorem coeff_zero_register (v : BitVec (w + 1))
    : (register v).coeff 0 = coefficient (v.getLsbD w) := by
  rw [register, lowFirst, List.ofFn_succ', List.concat_eq_append, ofBits_append]
  simp [ofBits, coeff_C_zero]

/-- A generator with a constant term shares no factor with the powers of `X`. -/
theorem dvd_of_dvd_mul_X_pow {taps : BitVec (w + 1)} (top : taps.getLsbD w = true)
    {p : (ZMod 2)[X]} {k : Nat} (divides : generator taps ∣ p * X ^ k)
    : generator taps ∣ p := by
  have constant : (generator taps).coeff 0 ≠ 0 := by
    rw [generator, coeff_add, coeff_zero_register, top, coeff_X_pow]
    simp [coefficient]
  have coprime : IsCoprime X (generator taps) :=
    (irreducible_X (R := ZMod 2)).coprime_iff_not_dvd.mpr (by rwa [X_dvd_iff])
  exact coprime.symm.pow_right.dvd_of_dvd_mul_right divides

/-- Bits of which none is set before a place are those from the place on. -/
theorem ofBits_drop {start : Nat} (before : ∀ i < start, bits[i]? ≠ some true)
    : ofBits bits = ofBits (bits.drop start) := by
  have zeros : ofBits (bits.take start) = 0 := by
    rw [ofBits_eq_zero_iff]
    intro b member
    obtain ⟨i, inside, rfl⟩ := List.mem_take_iff_getElem.mp member
    simpa [show i < bits.length by omega] using before i (by omega)
  calc
    ofBits bits = ofBits (bits.take start ++ bits.drop start) := by rw [List.take_append_drop]
    _ = ofBits (bits.drop start) := by rw [ofBits_append, zeros, zero_mul, zero_add]

/-- A burst no longer than the register is never a multiple of the generator, wherever in
the message it stands.
-/
theorem not_generator_dvd_burst {taps : BitVec (w + 1)} (top : taps.getLsbD w = true) (start : Nat)
    (burst : ∀ i, bits[i]? = some true → start ≤ i ∧ i < start + (w + 1)) (some_set : true ∈ bits)
    (k : Nat)
    : ¬ generator taps ∣ ofBits bits * X ^ k := by
  intro divides
  -- the burst itself, with the zeros around it cut off
  let inner := (bits.drop start).take (w + 1)
  have after : ofBits ((bits.drop start).drop (w + 1)) = 0 := by
    rw [ofBits_eq_zero_iff]
    intro b member
    obtain ⟨i, inside, rfl⟩ := List.mem_iff_getElem.mp member
    by_contra set
    have bound : start + (w + 1) + i < bits.length := by
      simp only [List.length_drop] at inside
      omega
    have late := burst (start + (w + 1) + i)
      (List.getElem?_eq_some_iff.mpr ⟨bound, by simpa using set⟩)
    omega
  have cut : ofBits bits = ofBits inner * X ^ ((bits.drop start).drop (w + 1)).length := by
    calc
      ofBits bits = ofBits (bits.drop start) :=
        ofBits_drop (fun i early set => absurd (burst i set).1 (by omega))
      _ = ofBits (inner ++ (bits.drop start).drop (w + 1)) := by rw [List.take_append_drop]
      _ = ofBits inner * X ^ ((bits.drop start).drop (w + 1)).length := by
          rw [ofBits_append, after, add_zero]
  have nonzero : ofBits inner ≠ 0 := by
    intro zero
    rw [zero, zero_mul, ofBits_eq_zero_iff] at cut
    simpa using cut true some_set
  rw [cut, mul_assoc, ← pow_add] at divides
  have degrees := degree_le_of_dvd (dvd_of_dvd_mul_X_pow top divides) nonzero
  have short : inner.length ≤ w + 1 := List.length_take_le _ _
  rw [degree_generator] at degrees
  exact absurd ((degree_ofBits_lt inner).trans_le (by exact_mod_cast short)) (not_lt.mpr degrees)

end

end ShiftRegister

end Foundations
