import Mathlib.Data.List.Basic

/-! Programs that only jump forward. An instruction ends the program with a result or goes on, past
some of the instructions that follow; so a run goes once over the program and needs no bound on
its steps.
-/

namespace Foundations

variable {ι σ ρ : Type}

inductive Flow (σ ρ : Type) where
  /-- the program ends -/
  | done (result : ρ)
  /-- the program goes on with the state, after that many instructions more -/
  | next (s : σ) (skip : Nat)

def forward (step : ι → σ → Flow σ ρ) : List ι → Nat → σ → Option ρ
  | [], _, _ => none
  | _ :: rest, skip + 1, s => forward step rest skip s
  | i :: rest, 0, s =>
      match step i s with
      | .done result => some result
      | .next s' skip => forward step rest skip s'

variable {step : ι → σ → Flow σ ρ} {i : ι} {rest program : List ι} {s s' : σ}

theorem forward_succ (skip : Nat)
    : forward step (i :: rest) (skip + 1) s = forward step rest skip s :=
  rfl

theorem forward_next {skip : Nat} (next : step i s = .next s' skip)
    : forward step (i :: rest) 0 s = forward step rest skip s' := by
  rw [forward, next]

/-- A jump runs the rest of the program from where it lands. -/
theorem forward_drop (program : List ι) (skip : Nat) (s : σ)
    : forward step program skip s = forward step (program.drop skip) 0 s := by
  induction program generalizing skip with
  | nil => simp [forward]
  | cons i rest ih =>
      cases skip with
      | zero => rfl
      | succ skip => rw [forward_succ, ih, List.drop_succ_cons]

end Foundations
