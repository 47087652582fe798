import Mathlib.Data.List.Nodup
import Mathlib.Logic.Function.Basic

/-! Tables with a row for each key. A key has no row until it is first written to; then its
row starts from a default, which is also what reading a missing row gives.
-/

namespace Foundations

universe u v w

variable {κ : Type u} {ρ : Type v} {ι : Type w}

structure KeyedTable (κ : Type u) (ρ : Type v) where
  keys : List κ
  row : κ → ρ
  nodup : keys.Nodup

namespace KeyedTable

def empty (default : ρ) : KeyedTable κ ρ where
  keys := []
  row := fun _ => default
  nodup := List.nodup_nil

variable [DecidableEq κ]

def update (table : KeyedTable κ ρ) (key : κ) (change : ρ → ρ) : KeyedTable κ ρ where
  keys := table.keys.insert key
  row := Function.update table.row key (change (table.row key))
  nodup := table.nodup.insert

def updateAll (key : ι → κ) (change : ι → ρ → ρ) (table : KeyedTable κ ρ) (items : List ι)
    : KeyedTable κ ρ :=
  items.foldl (fun table item => table.update (key item) (change item)) table

theorem row_update (table : KeyedTable κ ρ) (key : κ) (change : ρ → ρ) (other : κ)
    : (table.update key change).row other
      = if key = other then change (table.row other) else table.row other := by
  by_cases same : key = other
  · subst same
    simp [update]
  · simp [update, same, Function.update_of_ne (Ne.symm same)]

theorem mem_keys_update {table : KeyedTable κ ρ} {key : κ} {change : ρ → ρ} {other : κ}
    : other ∈ (table.update key change).keys ↔ other = key ∨ other ∈ table.keys :=
  List.mem_insert_iff

/-- A row depends only on the items for its key, in their order. -/
theorem row_updateAll (key : ι → κ) (change : ι → ρ → ρ) (items : List ι)
    (table : KeyedTable κ ρ) (other : κ)
    : (table.updateAll key change items).row other
      = (items.filter (key · = other)).foldl (fun row item => change item row)
          (table.row other) := by
  induction items generalizing table with
  | nil => rfl
  | cons item rest ih =>
      have step := ih (table.update (key item) (change item))
      rw [row_update] at step
      refine step.trans ?_
      by_cases same : key item = other
      · rw [if_pos same, List.filter_cons_of_pos (by simpa using same), List.foldl_cons]
      · rw [if_neg same, List.filter_cons_of_neg (by simpa using same)]

theorem mem_keys_updateAll {key : ι → κ} {change : ι → ρ → ρ} {items : List ι}
    {table : KeyedTable κ ρ} {other : κ}
    : other ∈ (table.updateAll key change items).keys
      ↔ other ∈ table.keys ∨ ∃ item ∈ items, key item = other := by
  induction items generalizing table with
  | nil => simp [updateAll]
  | cons item rest ih =>
      refine ih.trans ?_
      rw [mem_keys_update]
      simp only [List.mem_cons, exists_eq_or_imp]
      tauto

end KeyedTable

end Foundations
