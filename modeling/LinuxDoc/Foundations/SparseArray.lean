import Mathlib.Data.List.ReduceOption

/-! Arrays with undefined slots. Storing beyond the end of an array makes it longer, with
undefined slots in between; reading beyond the end is reading an undefined slot.
-/

namespace Foundations

universe u v

abbrev SparseArray (α : Type u) := List (Option α)

namespace SparseArray

variable {α : Type u} {β : Type v}

def store (slots : SparseArray α) (index : Nat) (value : α) : SparseArray α :=
  if index < slots.length then slots.set index (some value)
  else slots ++ List.replicate (index - slots.length) none ++ [some value]

def storeFrom : SparseArray α → Nat → List α → SparseArray α
  | slots, _, [] => slots
  | slots, index, value :: rest => storeFrom (store slots index value) (index + 1) rest

def leading (slots : SparseArray α) : List α :=
  (slots.takeWhile Option.isSome).reduceOption

/-- Two arrays read at the same indices, up to the end of the longer one. -/
def sideBySide (left : SparseArray α) (right : SparseArray β) : List (Option α × Option β) :=
  List.zipWithAll (fun l r => (l.join, r.join)) left right

/-! Storing -/

theorem store_length (slots : SparseArray α) (value : α)
    : store slots slots.length value = slots ++ [some value] := by
  simp [store]

theorem storeFrom_append (slots : SparseArray α) (index : Nat) (values more : List α)
    : storeFrom slots index (values ++ more)
      = storeFrom (storeFrom slots index values) (index + values.length) more := by
  induction values generalizing slots index with
  | nil => rfl
  | cons value rest ih =>
      rw [List.length_cons, Nat.add_comm rest.length, ← Nat.add_assoc]
      exact ih (store slots index value) (index + 1)

theorem storeFrom_length (slots : SparseArray α) (values : List α)
    : storeFrom slots slots.length values = slots ++ values.map some := by
  induction values generalizing slots with
  | nil => simp [storeFrom]
  | cons value rest ih =>
      rw [storeFrom, store_length]
      simpa using ih (slots ++ [some value])

/-- Storing from an index on leaves a gap before it. -/
theorem storeFrom_nil (index : Nat) {values : List α} (some_value : values ≠ [])
    : storeFrom [] index values = List.replicate index none ++ values.map some := by
  obtain ⟨value, rest, rfl⟩ := List.exists_cons_of_ne_nil some_value
  have first : store [] index value = List.replicate index none ++ [some value] := by
    simp [store]
  have length : (store [] index value).length = index + 1 := by simp [first]
  rw [storeFrom, ← length, storeFrom_length, first]
  simp

/-- An array without undefined slots stays one if nothing is stored beyond its end. -/
theorem storeFrom_map_some (old : List α) {index : Nat} (inside : index ≤ old.length)
    (values : List α)
    : ∃ new : List α, storeFrom (old.map some) index values = new.map some
        ∧ (∀ value ∈ new, value ∈ old ∨ value ∈ values)
        ∧ (new = [] → old = [] ∧ values = []) := by
  induction values generalizing old index with
  | nil => exact ⟨old, rfl, fun _ => .inl, fun empty => ⟨empty, rfl⟩⟩
  | cons first rest ih =>
      have stored : ∃ next : List α, store (old.map some) index first = next.map some
          ∧ index + 1 ≤ next.length ∧ ∀ value ∈ next, value ∈ old ∨ value = first := by
        unfold store
        split_ifs with within
        · rw [List.length_map] at within
          exact ⟨old.set index first, List.map_set.symm, by rwa [List.length_set],
            fun value mem => List.mem_or_eq_of_mem_set mem⟩
        · rw [List.length_map] at within
          exact ⟨old ++ [first], by simp [show index - old.length = 0 by omega],
            by simp only [List.length_append, List.length_singleton]; omega, by simp⟩
      obtain ⟨next, eq, longer, from_⟩ := stored
      obtain ⟨new, final, members, empty⟩ := ih next longer
      refine ⟨new, by rw [storeFrom, eq, final], ?_, ?_⟩
      · intro value mem
        rcases members value mem with mem | mem
        · exact (from_ value mem).imp_right fun same => List.mem_cons.mpr (.inl same)
        · exact .inr (.tail _ mem)
      · intro none
        rw [(empty none).1] at longer
        simp at longer

/-! The leading values -/

theorem leading_map_some (values : List α) : leading (values.map some) = values := by
  induction values with
  | nil => rfl
  | cons value rest ih => simpa [leading] using ih

/-! Two arrays -/

theorem sideBySide_nil_map_some (values : List β)
    : sideBySide ([] : SparseArray α) (values.map some)
      = values.map fun value => (none, some value) := by
  simp [sideBySide]

theorem sideBySide_map_some_nil (values : List α)
    : sideBySide (values.map some) ([] : SparseArray β)
      = values.map fun value => (some value, none) := by
  simp [sideBySide]

/-- Undefined slots on the left stand beside the values on the right. -/
theorem sideBySide_replicate_append (slots : SparseArray α) (right : SparseArray β)
    (values : List β)
    : sideBySide (List.replicate values.length none ++ slots) (values.map some ++ right)
      = values.map (fun value => (none, some value)) ++ sideBySide slots right := by
  induction values with
  | nil => rfl
  | cons value rest ih =>
      simpa [sideBySide, List.replicate_succ] using ih

end SparseArray

end Foundations
