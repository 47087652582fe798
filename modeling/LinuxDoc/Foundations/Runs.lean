/-! Runs of a system that takes one action after another.
A run is given by its actions; what holds of it is said of all its states or of all its
steps, and one step lemma carries a property from the steps to the states.
-/

namespace Foundations

universe u v

variable {σ : Type u} {ℓ : Type v}

/-- Every state of the run from a start satisfies the property, the start included. -/
def Always (step : σ → ℓ → σ) (Holds : σ → Prop) : σ → List ℓ → Prop
  | state, [] => Holds state
  | state, action :: rest => Holds state ∧ Always step Holds (step state action) rest

/-- Every step of the run from a start meets a condition on the state before it. -/
def EveryStep (step : σ → ℓ → σ) (Meets : σ → ℓ → Prop) : σ → List ℓ → Prop
  | _, [] => True
  | state, action :: rest => Meets state action ∧ EveryStep step Meets (step state action) rest

/-- A property of the start that every step keeps holds along every run. -/
theorem always_of_preserved (step : σ → ℓ → σ) (Holds : σ → Prop)
    (preserved : ∀ state action, Holds state → Holds (step state action))
    (actions : List ℓ) (start : σ) (initial : Holds start)
    : Always step Holds start actions := by
  induction actions generalizing start with
  | nil => exact initial
  | cons action rest ih => exact ⟨initial, ih _ (preserved start action initial)⟩

/-- A condition that every step meets is met along every run. -/
theorem everyStep_of_forall (step : σ → ℓ → σ) (Meets : σ → ℓ → Prop)
    (met : ∀ state action, Meets state action) (actions : List ℓ) (start : σ)
    : EveryStep step Meets start actions := by
  induction actions generalizing start with
  | nil => trivial
  | cons action rest ih => exact ⟨met start action, ih _⟩

variable {step : σ → ℓ → σ} {actions : List ℓ} {start : σ}

/-- A property of the start that every step keeps from a state which meets a condition holds
along every run whose states all meet it.
-/
theorem Always.of_preserved {Holds Meets : σ → Prop}
    (preserved : ∀ state action, Holds state → Meets state → Holds (step state action))
    (initial : Holds start) (met : Always step Meets start actions)
    : Always step Holds start actions := by
  induction actions generalizing start with
  | nil => exact initial
  | cons action rest ih => exact ⟨initial, ih (preserved start action initial met.1) met.2⟩

/-- What holds along a run can be weakened state by state. -/
theorem Always.imp {Holds Weaker : σ → Prop} (weaken : ∀ state, Holds state → Weaker state)
    (always : Always step Holds start actions)
    : Always step Weaker start actions := by
  induction actions generalizing start with
  | nil => exact weaken start always
  | cons action rest ih => exact ⟨weaken start always.1, ih always.2⟩

/-- Every step of a run meets a condition that steps from its states meet. -/
theorem Always.everyStep {Holds : σ → Prop} {Meets : σ → ℓ → Prop}
    (always : Always step Holds start actions)
    (meets : ∀ state action, Holds state → Meets state action)
    : EveryStep step Meets start actions := by
  induction actions generalizing start with
  | nil => trivial
  | cons action rest ih => exact ⟨meets start action always.1, ih always.2⟩

/-- Two conditions on steps are the same along a run if they are the same at the states of an
invariant that steps which meet them keep.
-/
theorem everyStep_congr_of_invariant (step : σ → ℓ → σ) (Inv : σ → Prop)
    {Meets Other : σ → ℓ → Prop}
    (same : ∀ state action, Inv state → (Meets state action ↔ Other state action))
    (stays : ∀ state action, Inv state → Meets state action → Inv (step state action))
    (actions : List ℓ) (inside : Inv start)
    : EveryStep step Meets start actions ↔ EveryStep step Other start actions := by
  induction actions generalizing start with
  | nil => exact Iff.rfl
  | cons action rest ih =>
      rw [EveryStep, EveryStep, ← same start action inside]
      exact and_congr_right fun met => ih (stays start action inside met)

/-- If from the states of an invariant a step keeps a property exactly when it meets a
condition, then the property holds along a run exactly when every step of the run meets the
condition.
-/
theorem always_iff_everyStep_of_invariant (step : σ → ℓ → σ) (Inv Holds : σ → Prop)
    (Meets : σ → ℓ → Prop) (stays : ∀ state action, Inv state → Inv (step state action))
    (kept : ∀ state action, Inv state → Holds state →
      (Holds (step state action) ↔ Meets state action))
    (actions : List ℓ) (start : σ) (inside : Inv start) (initial : Holds start)
    : Always step Holds start actions ↔ EveryStep step Meets start actions := by
  induction actions generalizing start with
  | nil => simp [Always, EveryStep, initial]
  | cons action rest ih =>
      have still := stays start action inside
      rw [Always, EveryStep]
      constructor
      · intro h
        rcases h with ⟨_, later⟩
        have next : Holds (step start action) := by
          cases rest with
          | nil => exact later
          | cons _ _ => exact later.1
        exact ⟨(kept start action inside initial).mp next, (ih _ still next).mp later⟩
      · intro h
        rcases h with ⟨met, later⟩
        have next := (kept start action inside initial).mpr met
        exact ⟨initial, (ih _ still next).mpr later⟩

/-- The same without an invariant. -/
theorem always_iff_everyStep (step : σ → ℓ → σ) (Holds : σ → Prop) (Meets : σ → ℓ → Prop)
    (kept : ∀ state action, Holds state → (Holds (step state action) ↔ Meets state action))
    (actions : List ℓ) (start : σ) (initial : Holds start)
    : Always step Holds start actions ↔ EveryStep step Meets start actions :=
  always_iff_everyStep_of_invariant step (fun _ => True) Holds Meets (fun _ _ _ => trivial)
    (fun state action _ => kept state action) actions start trivial initial

end Foundations
