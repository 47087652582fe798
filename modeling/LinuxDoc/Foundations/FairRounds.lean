import Mathlib.Data.List.Basic

/-! Systems that come to rest. Agents take steps in rounds, in each of which everybody has a turn
at least once; a measure of the work left shows that after enough rounds there is none.
-/

namespace Foundations

variable {σ ι : Type}

/-- Why a system comes to rest: an agent that is ready does some of the work in its turn and stays
ready until then, one that is not ready does nothing, and while there is work somebody is ready.
-/
structure Settling (move : σ → ι → σ) (Inv : σ → Prop) (work : σ → Nat) (Ready : σ → ι → Prop)
    : Prop where
  keeps : ∀ s i, Inv s → Inv (move s i)
  works : ∀ s i, Inv s → Ready s i → work (move s i) < work s
  idles : ∀ s i, ¬ Ready s i → move s i = s
  stays : ∀ s i j, Inv s → Ready s i → j ≠ i → Ready (move s j) i
  ready : ∀ s, Inv s → work s ≠ 0 → ∃ i, Ready s i

variable {move : σ → ι → σ} {Inv : σ → Prop} {work : σ → Nat} {Ready : σ → ι → Prop} {s : σ}

namespace Settling

theorem move_le (settling : Settling move Inv work Ready) (inv : Inv s) (i : ι)
    : work (move s i) ≤ work s := by
  by_cases ready : Ready s i
  · exact Nat.le_of_lt (settling.works s i inv ready)
  · exact Nat.le_of_eq (congrArg work (settling.idles s i ready))

theorem foldl_inv (settling : Settling move Inv work Ready) (inv : Inv s) (turns : List ι)
    : Inv (turns.foldl move s) :=
  List.foldlRecOn turns move inv fun s inv i _ => settling.keeps s i inv

theorem foldl_le (settling : Settling move Inv work Ready) (inv : Inv s) (turns : List ι)
    : work (turns.foldl move s) ≤ work s := by
  induction turns generalizing s with
  | nil => exact Nat.le_refl _
  | cons i rest ih =>
      exact Nat.le_trans (ih (settling.keeps s i inv)) (settling.move_le inv i)

/-- A round in which a ready agent has its turn does some of the work. -/
theorem foldl_lt (settling : Settling move Inv work Ready) (inv : Inv s) {i : ι}
    (ready : Ready s i) {round : List ι} (turn : i ∈ round)
    : work (round.foldl move s) < work s := by
  induction round generalizing s with
  | nil => simp at turn
  | cons j rest ih =>
      have kept := settling.keeps s j inv
      by_cases same : j = i
      · subst same
        exact Nat.lt_of_le_of_lt (settling.foldl_le kept rest) (settling.works s j inv ready)
      · have later : i ∈ rest := by simpa [Ne.symm same] using turn
        exact Nat.lt_of_lt_of_le (ih kept (settling.stays s i j inv ready same) later)
          (settling.move_le inv j)

/-- After as many rounds as there is work, the work is done. -/
theorem work_eq_zero (settling : Settling move Inv work Ready) (inv : Inv s)
    {rounds : List (List ι)} (long : work s ≤ rounds.length)
    (fair : ∀ round ∈ rounds, ∀ i, i ∈ round)
    : work (rounds.flatten.foldl move s) = 0 := by
  induction rounds generalizing s with
  | nil => exact Nat.le_zero.mp long
  | cons round rest ih =>
      rw [List.flatten_cons, List.foldl_append]
      refine ih (settling.foldl_inv inv round) ?_ fun r mem => fair r (List.mem_cons_of_mem _ mem)
      by_cases done : work s = 0
      · have := settling.foldl_le inv round
        omega
      · obtain ⟨i, ready⟩ := settling.ready s inv done
        have := settling.foldl_lt inv ready (fair round List.mem_cons_self i)
        simp only [List.length_cons] at long
        omega

end Settling

end Foundations
