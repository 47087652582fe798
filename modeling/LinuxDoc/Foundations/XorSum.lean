import Mathlib.Logic.Function.Basic

/-! Sums of words by exclusive or, as loops accumulate them, and the parity of a word. -/

namespace Foundations

variable {v w : Nat}

def xorSum : Nat → (Nat → BitVec w) → BitVec w
  | 0, _ => 0#w
  | n + 1, f => xorSum n f ^^^ f n

attribute [local grind =] xorSum

theorem xorSum_congr {f g : Nat → BitVec w} {n : Nat} (same : ∀ i < n, f i = g i)
    : xorSum n f = xorSum n g := by
  induction n with
  | zero => rfl
  | succ n ih =>
      rw [xorSum, xorSum, ih (fun i inside => same i (Nat.lt_succ_of_lt inside)),
        same n (Nat.lt_succ_self n)]

/-- A loop that adds one word a turn to some part of its state leaves the sum there. -/
theorem foldl_range_xor {σ : Type*} (part : σ → BitVec w) (turn : σ → Nat → σ)
    (f : Nat → BitVec w) (adds : ∀ s i, part (turn s i) = part s ^^^ f i) (n : Nat) (start : σ)
    : part ((List.range n).foldl turn start) = part start ^^^ xorSum n f := by
  induction n with
  | zero => simp [xorSum]
  | succ n ih =>
      rw [List.range_succ, List.foldl_append, List.foldl_cons, List.foldl_nil, adds, ih, xorSum,
        BitVec.xor_assoc]

theorem xorSum_zero (n : Nat)
    : xorSum n (fun _ => 0#w) = 0#w := by
  induction n with
  | zero => rfl
  | succ n ih => rw [xorSum, ih, BitVec.xor_self]

theorem xorSum_xor (f g : Nat → BitVec w) (n : Nat)
    : xorSum n (fun i => f i ^^^ g i) = xorSum n f ^^^ xorSum n g := by
  induction n with
  | zero => simp [xorSum]
  | succ n ih =>
      rw [xorSum, xorSum, xorSum, ih]
      ac_rfl

/-- A linear map of words passes through a sum. -/
theorem xorSum_map (L : BitVec w → BitVec v) (zero : L 0#w = 0#v)
    (xor : ∀ a b, L (a ^^^ b) = L a ^^^ L b) (f : Nat → BitVec w) (n : Nat)
    : L (xorSum n f) = xorSum n (fun i => L (f i)) := by
  induction n with
  | zero => exact zero
  | succ n ih => rw [xorSum, xorSum, xor, ih]

theorem xor_and (a b m : BitVec w)
    : (a ^^^ b) &&& m = (a &&& m) ^^^ (b &&& m) := by
  apply BitVec.eq_of_getLsbD_eq
  intro i _
  simp only [BitVec.getLsbD_and, BitVec.getLsbD_xor]
  cases a.getLsbD i <;> cases b.getLsbD i <;> simp

theorem xorSum_and (f : Nat → BitVec w) (m : BitVec w) (n : Nat)
    : xorSum n f &&& m = xorSum n (fun i => f i &&& m) :=
  xorSum_map (· &&& m) BitVec.zero_and (fun a b => xor_and a b m) f n

/-- Adding a word to one term of a sum adds it to the sum. -/
theorem xorSum_update_xor (f : Nat → BitVec w) {n i : Nat} (inside : i < n) (delta : BitVec w)
    : xorSum n (Function.update f i (f i ^^^ delta)) = xorSum n f ^^^ delta := by
  have single (n : Nat)
      : xorSum n (fun k => if k = i then delta else 0#w) = if i < n then delta else 0#w := by
    induction n with
    | zero => rfl
    | succ n ih =>
        rw [xorSum, ih]
        rcases Nat.lt_trichotomy i n with before | same | after
        · simp [before, Nat.ne_of_gt before, Nat.lt_succ_of_lt before]
        · simp [same]
        · simp [Nat.not_lt.mpr (Nat.le_of_lt after), Nat.ne_of_lt after, Nat.not_lt.mpr after]
  have split : Function.update f i (f i ^^^ delta)
      = fun k => f k ^^^ (if k = i then delta else 0#w) := by
    funext k
    by_cases same : k = i
    · subst same
      simp
    · simp [same]
  rw [split, xorSum_xor, single, if_pos inside]

theorem xorSum_add (f : Nat → BitVec w) (m n : Nat)
    : xorSum (m + n) f = xorSum m f ^^^ xorSum n (fun j => f (m + j)) := by
  induction n with
  | zero => simp [xorSum]
  | succ n ih => rw [← Nat.add_assoc, xorSum, xorSum, ih, BitVec.xor_assoc]

/-- A sum over blocks of one length. -/
theorem xorSum_mul (f : Nat → BitVec w) (k n : Nat)
    : xorSum (k * n) f = xorSum n (fun i => xorSum k (fun j => f (k * i + j))) := by
  induction n with
  | zero => rfl
  | succ n ih => rw [Nat.mul_succ, xorSum_add, ih, xorSum]

/-- Every fourth word, in four sums. -/
theorem xorSum_mul_four (f : Nat → BitVec w) (n : Nat)
    : xorSum (4 * n) f
      = xorSum n (fun i => f (4 * i)) ^^^ xorSum n (fun i => f (4 * i + 1))
        ^^^ xorSum n (fun i => f (4 * i + 2)) ^^^ xorSum n (fun i => f (4 * i + 3)) := by
  rw [xorSum_mul, ← xorSum_xor, ← xorSum_xor, ← xorSum_xor]
  simp only [xorSum, Nat.add_zero, BitVec.zero_xor]

def parity (a : BitVec w) : BitVec 1 :=
  xorSum w (fun j => BitVec.ofBool (a.getLsbD j))

theorem parity_zero
    : parity 0#w = 0#1 := by
  simpa [parity] using xorSum_zero w

theorem parity_xor (a b : BitVec w)
    : parity (a ^^^ b) = parity a ^^^ parity b := by
  rw [parity, parity, parity, ← xorSum_xor]
  congr
  funext j
  rw [BitVec.getLsbD_xor]
  cases a.getLsbD j <;> cases b.getLsbD j <;> rfl

end Foundations
