import Mathlib.Logic.Function.Basic

/-! Loops that write memory, one place after another. -/

namespace Foundations

variable {κ ι β : Type*} [DecidableEq ι]

/-- A loop that gives each place its own value leaves the places it does not visit alone,
however often it visits the others.
-/
theorem foldl_update (place : κ → ι) (value : ι → β) (turns : List κ) (memory : ι → β) (i : ι)
    : turns.foldl (fun m turn => Function.update m (place turn) (value (place turn))) memory i
      = if i ∈ turns.map place then value i else memory i := by
  induction turns generalizing memory with
  | nil => simp
  | cons turn rest ih =>
      rw [List.foldl_cons, ih, List.map_cons]
      by_cases later : i ∈ rest.map place
      · rw [if_pos later, if_pos (List.mem_cons_of_mem _ later)]
      · rw [if_neg later]
        by_cases now : i = place turn
        · rw [if_pos (List.mem_cons.mpr (Or.inl now)), now, Function.update_self]
        · rw [if_neg (by simp [now, later]), Function.update_of_ne now]

/-- Writes to one place only come down to the last value. -/
theorem foldl_update_same (i : ι) (next : κ → β → β) (turns : List κ) (memory : ι → β)
    : turns.foldl (fun m turn => Function.update m i (next turn (m i))) memory
      = Function.update memory i (turns.foldl (fun v turn => next turn v) (memory i)) := by
  induction turns generalizing memory with
  | nil => simp
  | cons turn rest ih =>
      rw [List.foldl_cons, List.foldl_cons, ih, Function.update_self, Function.update_idem]

end Foundations
