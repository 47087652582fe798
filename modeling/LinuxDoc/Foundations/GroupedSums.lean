import LinuxDoc.Foundations.History
import LinuxDoc.Foundations.KeyedTable
import Mathlib.Algebra.BigOperators.Group.List.Basic
import Mathlib.Algebra.GroupWithZero.Nat
import Mathlib.Algebra.Order.BigOperators.Group.List
import Mathlib.Algebra.Order.Group.Nat

/-! Sums over items that have keys, taken key by key. -/

namespace Foundations

universe u v w x

variable {α : Type u} {β : Type v} {κ : Type w} {ρ : Type x} [AddCommMonoid β]

def KeyedTable.total (table : KeyedTable κ ρ) (value : ρ → β) : β :=
  (table.keys.map fun key => value (table.row key)).sum

variable {items : List α}

theorem sum_eq_zero_iff_of_nonneg [PartialOrder β] [IsOrderedAddMonoid β] {f : α → β}
    (nonneg : ∀ item ∈ items, 0 ≤ f item)
    : (items.map f).sum = 0 ↔ ∀ item ∈ items, f item = 0 := by
  rw [← List.forall_mem_map (P := (· = 0))]
  constructor
  · intro zero x mem
    exact List.all_zero_of_le_zero_le_of_sum_eq_zero (List.forall_mem_map.mpr nonneg) zero mem
  · exact List.sum_eq_zero

/-- Sums of terms that are pairwise in order are equal only if the terms are. -/
theorem sum_eq_sum_iff_of_le {f g : α → Nat} (le : ∀ item ∈ items, f item ≤ g item)
    : (items.map f).sum = (items.map g).sum ↔ ∀ item ∈ items, f item = g item := by
  induction items with
  | nil => simp
  | cons item rest ih =>
      have here := le item (.head _)
      have there : (rest.map f).sum ≤ (rest.map g).sum :=
        List.sum_le_sum fun item mem => le item (.tail _ mem)
      rw [List.map_cons, List.sum_cons, List.map_cons, List.sum_cons, List.forall_mem_cons,
        ← ih fun item mem => le item (.tail _ mem)]
      omega

variable [DecidableEq κ]

/-- Only one key has something to add. -/
theorem sum_map_ite_key {keys : List κ} (nodup : keys.Nodup) {key : κ} (mem : key ∈ keys)
    (value : β)
    : (keys.map fun other => if key = other then value else 0).sum = value := by
  induction keys with
  | nil => contradiction
  | cons first rest ih =>
      obtain ⟨missing, nodup⟩ := List.nodup_cons.mp nodup
      rw [List.map_cons, List.sum_cons]
      by_cases same : key = first
      · subst same
        have zero : ∀ x ∈ rest.map fun other => if key = other then value else 0, x = 0 := by
          intro x mem
          obtain ⟨other, there, rfl⟩ := List.mem_map.mp mem
          exact if_neg (ne_of_mem_of_not_mem there missing).symm
        rw [if_pos rfl, List.sum_eq_zero zero, add_zero]
      · rw [if_neg same, zero_add, ih nodup (List.mem_of_ne_of_mem same mem)]

/-- A sum over the items is a sum over the keys, if these are the keys of all items that have
something to add.
-/
theorem sum_by_key (key : α → κ) (value : α → β) {keys : List κ} (nodup : keys.Nodup)
    (covered : ∀ item ∈ items, key item ∉ keys → value item = 0)
    : (items.map value).sum
      = (keys.map fun other => ((items.filter (key · = other)).map value).sum).sum := by
  induction items with
  | nil => simp
  | cons item rest ih =>
      have split (other : κ)
          : (((item :: rest).filter (key · = other)).map value).sum
            = (if key item = other then value item else 0)
              + ((rest.filter (key · = other)).map value).sum := by
        by_cases same : key item = other <;> simp [same]
      have here : (keys.map fun other => if key item = other then value item else 0).sum
          = value item := by
        by_cases mem : key item ∈ keys
        · exact sum_map_ite_key nodup mem _
        · simp [covered item (.head _) mem]
      simp only [split]
      rw [List.sum_map_add, here, List.map_cons, List.sum_cons,
        ih fun item mem => covered item (.tail _ mem)]

/-- What is found along a history in the past of each key alone. -/
theorem sum_collected_by_key (key : α → κ) (find : α → List α → Option β) {keys : List κ}
    (nodup : keys.Nodup) {history : List α}
    (covered : ∀ entry ∈ history, key entry ∉ keys → ∀ earlier, find entry earlier = none)
    : (collected (fun entry earlier => find entry (earlier.filter (key · = key entry)))
          history).sum
      = (keys.map fun other => (collected find (history.filter (key · = other))).sum).sum := by
  induction history with
  | nil => simp
  | cons entry earlier ih =>
      have split (other : κ)
          : (collected find ((entry :: earlier).filter (key · = other))).sum
            = (collected find (earlier.filter (key · = other))).sum
              + if key entry = other then
                  (find entry (earlier.filter (key · = key entry))).toList.sum
                else 0 := by
        by_cases same : key entry = other
        · subst same
          simp
        · simp [same]
      have here : (keys.map fun other =>
            if key entry = other then
              (find entry (earlier.filter (key · = key entry))).toList.sum
            else 0).sum
          = (find entry (earlier.filter (key · = key entry))).toList.sum := by
        by_cases mem : key entry ∈ keys
        · exact sum_map_ite_key nodup mem _
        · simp [covered entry (.head _) mem]
      simp only [split]
      rw [List.sum_map_add, here, collected_cons, List.sum_append,
        ih fun entry mem => covered entry (.tail _ mem)]

end Foundations
