import Mathlib.Tactic.Common

/-! Memory that is stored over piece by piece, and what is left of its old contents. -/

namespace Foundations

universe u

variable {α : Type u}

structure Store (α : Type u) where
  offset : Nat
  values : List α

def Store.Covers (store : Store α) (i : Nat) : Prop :=
  store.offset ≤ i ∧ i < store.offset + store.values.length

instance (store : Store α) (i : Nat) : Decidable (store.Covers i) :=
  inferInstanceAs (Decidable (_ ∧ _))

def Store.apply (memory : Nat → α) (store : Store α) : Nat → α :=
  fun i => if store.offset ≤ i then (store.values[i - store.offset]?).getD (memory i) else memory i

def overwrite (memory : Nat → α) (stores : List (Store α)) : Nat → α :=
  stores.foldl Store.apply memory

theorem Store.apply_covered {store : Store α} {i : Nat} (covers : store.Covers i)
    (left right : Nat → α)
    : store.apply left i = store.apply right i := by
  obtain ⟨after, before⟩ := covers
  have inside : i - store.offset < store.values.length := by omega
  simp only [Store.apply, if_pos after, List.getElem?_eq_getElem inside, Option.getD_some]

theorem Store.apply_uncovered {store : Store α} {i : Nat} (free : ¬ store.Covers i)
    (memory : Nat → α)
    : store.apply memory i = memory i := by
  unfold Store.apply
  split
  next after =>
    have outside : store.values.length ≤ i - store.offset := by
      by_contra inside
      exact free ⟨after, by omega⟩
    rw [List.getElem?_eq_none outside, Option.getD_none]
  · rfl

/-- After the same stores, two memories differ at a position exactly if they differed there
before and nothing was stored to it.
-/
theorem overwrite_eq_iff (stores : List (Store α)) (left right : Nat → α) (i : Nat)
    : overwrite left stores i = overwrite right stores i
      ↔ ((∀ store ∈ stores, ¬ store.Covers i) → left i = right i) := by
  induction stores generalizing left right with
  | nil => simp [overwrite]
  | cons store rest ih =>
      have step := ih (store.apply left) (store.apply right)
      refine step.trans ?_
      by_cases covers : store.Covers i
      · simp [covers, Store.apply_covered covers left right]
      · simp [covers, Store.apply_uncovered covers]

end Foundations
