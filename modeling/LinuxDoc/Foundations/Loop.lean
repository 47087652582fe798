import Mathlib.Logic.Relation

/-! Loops without a bound of their own, run under a budget of passes.
A budget that is used up is not a result: what a loop returns, and that it returns at all,
is stated over every sufficiently large budget.
-/

namespace Foundations.Loop

variable {σ ρ α β : Type*}

/-- One pass through a loop body either goes around again or leaves with a result. -/
inductive Pass (σ ρ : Type*) where
  | again (state : σ)
  | leave (result : ρ)

/-- Run a loop for at most `fuel` passes. A pass may itself be a computation under a
budget; `none` means that one of the two budgets was too small.
-/
def run (body : σ → Option (Pass σ ρ)) : Nat → σ → Option ρ
  | 0, _ => none
  | fuel + 1, state =>
      match body state with
      | none => none
      | some (.leave result) => some result
      | some (.again next) => run body fuel next

def Pass.map (f : ρ → α) : Pass σ ρ → Pass σ α
  | .again state => .again state
  | .leave result => .leave (f result)

variable {body : σ → Option (Pass σ ρ)}

/-- A loop whose passes only translate their results translates the result. -/
theorem run_map {mapped : σ → Option (Pass σ α)} (f : ρ → α)
    (pass : ∀ s, mapped s = (body s).map (Pass.map f)) (fuel : Nat) (state : σ)
    : run mapped fuel state = (run body fuel state).map f := by
  induction fuel generalizing state with
  | zero => rfl
  | succ fuel ih =>
      rw [run, run, pass]
      cases body state with
      | none => rfl
      | some outcome =>
          cases outcome with
          | again next => exact ih next
          | leave result => rfl

inductive Pass.Related {τ : Type*} (States : σ → τ → Prop) (Results : ρ → α → Prop)
    : Pass σ ρ → Pass τ α → Prop where
  | again {s : σ} {t : τ} (related : States s t) : Related States Results (.again s) (.again t)
  | leave {r : ρ} {a : α} (related : Results r a) : Related States Results (.leave r) (.leave a)

/-- Loops whose passes are related from related states end, on the same budget, with related
results or both without one.
-/
theorem run_related {τ : Type*} {other : τ → Option (Pass τ α)} (States : σ → τ → Prop)
    (Results : ρ → α → Prop)
    (pass : ∀ s t, States s t → Option.Rel (Pass.Related States Results) (body s) (other t))
    (fuel : Nat) {s : σ} {t : τ} (related : States s t)
    : Option.Rel Results (run body fuel s) (run other fuel t) := by
  induction fuel generalizing s t with
  | zero => exact .none
  | succ fuel ih =>
      have outcome := pass s t related
      rw [run, run]
      generalize body s = left at outcome
      generalize other t = right at outcome
      cases outcome with
      | none => exact .none
      | some passes =>
          cases passes with
          | again next => exact ih next
          | leave final => exact .some final

/-- Loops whose passes are related and leave with equal results return the same. -/
theorem run_eq_of_related {τ : Type*} {other : τ → Option (Pass τ ρ)} (States : σ → τ → Prop)
    (pass : ∀ s t, States s t → Option.Rel (Pass.Related States Eq) (body s) (other t)) (fuel : Nat)
    {s : σ} {t : τ} (related : States s t)
    : run other fuel t = run body fuel s := by
  have results := run_related States Eq pass fuel related
  generalize run body fuel s = left at results
  generalize run other fuel t = right at results
  cases results with
  | none => rfl
  | some same => rw [same]

/-- Every sufficiently large budget makes the computation return this result. -/
def Returns (compute : Nat → Option α) (result : α) : Prop :=
  ∃ bound, ∀ fuel, bound ≤ fuel → compute fuel = some result

/-- A computation that ignores its budget returns its value. -/
theorem Returns.const {compute : Nat → Option α} {result : α}
    (same : ∀ fuel, compute fuel = some result)
    : Returns compute result :=
  ⟨0, fun fuel _ => same fuel⟩

/-- Postprocessing a returned result keeps the computation's bound. -/
theorem Returns.map {compute : Nat → Option α} {result : α} (f : α → β)
    (h : Returns compute result)
    : Returns (fun fuel => (compute fuel).map f) (f result) := by
  obtain ⟨bound, returned⟩ := h
  exact ⟨bound, fun fuel enough => by simp only [returned fuel enough, Option.map_some]⟩

/-- A loop whose body is budgeted settles on a result when both budgets suffice. -/
def Settles (body : Nat → σ → Option (Pass σ ρ)) (state : σ) (result : ρ) : Prop :=
  ∃ bound, ∀ inner, bound ≤ inner → ∀ fuel, bound ≤ fuel →
    run (body inner) fuel state = some result

variable {state : σ} {result : ρ}

/-- A settled loop returns when one budget serves both the loop and its body. -/
theorem Settles.returns {body : Nat → σ → Option (Pass σ ρ)} (h : Settles body state result)
    : Returns (fun fuel => run (body fuel) fuel state) result := by
  obtain ⟨bound, settled⟩ := h
  exact ⟨bound, fun fuel enough => settled fuel enough fuel enough⟩

/-- A pass that leaves settles the loop on its result. -/
theorem Settles.leave {body : Nat → σ → Option (Pass σ ρ)}
    (pass : Returns (fun inner => body inner state) (.leave result))
    : Settles body state result := by
  obtain ⟨bound, left⟩ := pass
  refine ⟨bound + 1, fun inner enough fuel positive => ?_⟩
  cases fuel with
  | zero => omega
  | succ fuel => simp only [run, left inner (by omega)]

variable {state next : σ}

/-- A pass that goes around again passes on what the rest of the loop settles on. -/
theorem Settles.again {body : Nat → σ → Option (Pass σ ρ)}
    (pass : Returns (fun inner => body inner state) (.again next)) (rest : Settles body next result)
    : Settles body state result := by
  obtain ⟨first, around⟩ := pass
  obtain ⟨later, settled⟩ := rest
  refine ⟨max first later + 1, fun inner enough fuel positive => ?_⟩
  cases fuel with
  | zero => omega
  | succ fuel =>
      simp only [run, around inner (by omega)]
      exact settled inner (by omega) fuel (by omega)

/-- A loop settles on a result with some property if from every state of an invariant set
each pass either leaves with such a result or goes around to a smaller state of the set.
-/
theorem settles_post_of_wellFounded {body : Nat → σ → Option (Pass σ ρ)} {less : σ → σ → Prop}
    (wf : WellFounded less) (Inv : σ → Prop) (Post : ρ → Prop)
    (pass
      : ∀ s, Inv s →
          (∃ result, Returns (fun inner => body inner s) (.leave result) ∧ Post result)
          ∨ ∃ t, Returns (fun inner => body inner s) (.again t) ∧ Inv t ∧ less t s)
    (initial : Inv state)
    : ∃ result, Settles body state result ∧ Post result := by
  induction state using wf.induction with
  | h s ih =>
      rcases pass s initial with ⟨result, left, post⟩ | ⟨t, around, inside, smaller⟩
      · exact ⟨result, .leave left, post⟩
      · obtain ⟨result, settled, post⟩ := ih t smaller inside
        exact ⟨result, settled.again around, post⟩

/-- A loop settles if from every state of an invariant set each pass either leaves or goes
around to a smaller state of the set.
-/
theorem settles_of_wellFounded {body : Nat → σ → Option (Pass σ ρ)} {less : σ → σ → Prop}
    (wf : WellFounded less) (Inv : σ → Prop)
    (pass
      : ∀ s, Inv s →
          (∃ result, Returns (fun inner => body inner s) (.leave result))
          ∨ ∃ t, Returns (fun inner => body inner s) (.again t) ∧ Inv t ∧ less t s)
    (initial : Inv state)
    : ∃ result, Settles body state result := by
  obtain ⟨result, settled, _⟩ :=
    settles_post_of_wellFounded wf Inv (fun _ => True) (by simpa using pass) initial
  exact ⟨result, settled⟩

def Continues (body : σ → Option (Pass σ ρ)) (state next : σ) : Prop :=
  body state = some (.again next)

def Reaches (body : σ → Option (Pass σ ρ)) : σ → σ → Prop :=
  Relation.ReflTransGen (Continues body)

def Terminates (body : σ → Option (Pass σ ρ)) (state : σ) : Prop :=
  ∃ fuel result, run body fuel state = some result

/-- What every pass keeps holds in every state the loop gets to. -/
theorem Reaches.invariant {start state : σ} (Inv : σ → Prop) (initial : Inv start)
    (preserved : ∀ s t, Inv s → Continues body s t → Inv t) (reached : Reaches body start state)
    : Inv state := by
  induction reached with
  | refl => exact initial
  | tail _ pass ih => exact preserved _ _ ih pass

/-- A loop returns what a pass leaves with, from a state it gets to. -/
theorem Reaches.returns {start final : σ} (reached : Reaches body start final)
    (left : body final = some (.leave result))
    : Returns (fun fuel => run body fuel start) result := by
  induction reached using Relation.ReflTransGen.head_induction_on with
  | refl => exact (Settles.leave (.const fun _ => left)).returns
  | @head state next pass _ ih =>
      obtain ⟨bound, returned⟩ := ih
      refine ⟨bound + 1, fun fuel enough => ?_⟩
      cases fuel with
      | zero => omega
      | succ fuel =>
          have around : body state = some (.again next) := pass
          simp only [run, around]
          exact returned fuel (by omega)

/-- What a pass leads to: a state of the invariant set, or a result with some property,
unless its own budget was too small.
-/
inductive Leads (Inv : σ → Prop) (Post : ρ → Prop) : Option (Pass σ ρ) → Prop where
  | short : Leads Inv Post none
  | again {next : σ} (inside : Inv next) : Leads Inv Post (some (.again next))
  | leave {result : ρ} (post : Post result) : Leads Inv Post (some (.leave result))

/-- If every pass from an invariant state leads to one or to a result with some property,
then what the loop returns has the property.
-/
theorem run_result (Inv : σ → Prop) (Post : ρ → Prop) (pass : ∀ s, Inv s → Leads Inv Post (body s))
    {fuel : Nat} (initial : Inv state) (returned : run body fuel state = some result)
    : Post result := by
  induction fuel generalizing state with
  | zero => simp [run] at returned
  | succ fuel ih =>
      have leads := pass state initial
      rw [run] at returned
      generalize body state = outcome at leads returned
      cases leads with
      | short => cases returned
      | again inside => exact ih inside returned
      | leave post =>
          cases returned
          exact post

/-- Going around once neither gains nor loses termination. -/
theorem terminates_continues_iff (pass : Continues body state next)
    : Terminates body state ↔ Terminates body next := by
  constructor
  · intro h
    rcases h with ⟨fuel, result, left⟩
    cases fuel with
    | zero => simp [run] at left
    | succ fuel =>
        rw [Continues] at pass
        exact ⟨fuel, result, by simpa only [run, pass] using left⟩
  · intro h
    rcases h with ⟨fuel, result, left⟩
    rw [Continues] at pass
    exact ⟨fuel + 1, result, by simpa only [run, pass] using left⟩

/-- A pass that leaves is the end of the loop. -/
theorem terminates_of_leave (pass : body state = some (.leave result))
    : Terminates body state :=
  ⟨1, result, by simp only [run, pass]⟩

/-- What a loop reaches it can still leave, if it could leave at all. -/
theorem Reaches.terminates {start state : σ} (reached : Reaches body start state)
    (h : Terminates body start)
    : Terminates body state := by
  induction reached with
  | refl => exact h
  | tail _ pass ih => exact (terminates_continues_iff pass).mp ih

/-- A loop never leaves a set of states from which every pass stays in the set. -/
theorem not_terminates_of_trap (Trap : σ → Prop)
    (stays : ∀ s, Trap s → ∃ t, Continues body s t ∧ Trap t) (inside : Trap state)
    : ¬ Terminates body state := by
  intro h
  rcases h with ⟨fuel, result, left⟩
  induction fuel generalizing state with
  | zero => simp [run] at left
  | succ fuel ih =>
      obtain ⟨t, pass, trapped⟩ := stays state inside
      rw [Continues] at pass
      exact ih trapped (by simpa only [run, pass] using left)

/-- A measure that drops on every pass from a reached state bounds the loop, provided no
reached pass runs out of its own budget.
-/
theorem terminates_of_measure {start : σ} (measure : σ → Nat)
    (total : ∀ s, Reaches body start s → body s ≠ none)
    (drops : ∀ s t, Reaches body start s → Continues body s t → measure t < measure s)
    : Terminates body start := by
  have bounded : ∀ n s, Reaches body start s → measure s = n → Terminates body s := by
    intro n
    induction n using Nat.strongRecOn with
    | ind n ih =>
        intro s reached size
        cases pass : body s with
        | none => exact absurd pass (total s reached)
        | some outcome =>
            cases outcome with
            | leave result => exact terminates_of_leave pass
            | again t =>
                have less := drops s t reached pass
                exact (terminates_continues_iff pass).mpr
                  (ih (measure t) (size ▸ less) t (reached.tail pass) rfl)
  exact bounded (measure start) start .refl rfl

/-- A loop returns exactly what a pass leaves with, from a state it gets to. -/
theorem exists_run_iff {start : σ}
    : (∃ fuel, run body fuel start = some result)
      ↔ ∃ final, Reaches body start final ∧ body final = some (.leave result) := by
  constructor
  · intro h
    rcases h with ⟨fuel, returned⟩
    induction fuel generalizing start with
    | zero => simp [run] at returned
    | succ fuel ih =>
        rw [run] at returned
        cases pass : body start with
        | none => simp [pass] at returned
        | some outcome =>
            cases outcome with
            | leave other =>
                rw [pass] at returned
                cases returned
                exact ⟨start, .refl, pass⟩
            | again next =>
                rw [pass] at returned
                obtain ⟨final, reached, left⟩ := ih returned
                exact ⟨final, .head pass reached, left⟩
  · intro h
    rcases h with ⟨final, reached, left⟩
    obtain ⟨bound, returned⟩ := reached.returns left
    exact ⟨bound, returned bound (Nat.le_refl bound)⟩

/-- A loop that does as another one, except that it stops in certain states, stops exactly if
the other one gets to such a state.
-/
theorem exists_run_iff_stops {body other : σ → Option (Pass σ ρ)} {start : σ} (Stops : σ → Prop)
    (stops : ∀ s, Stops s → body s = some (.leave result))
    (agree : ∀ s, ¬ Stops s → body s = other s) (never : ∀ s, other s ≠ some (.leave result))
    : (∃ fuel, run body fuel start = some result)
      ↔ ∃ s, Reaches other start s ∧ Stops s := by
  rw [exists_run_iff]
  constructor
  · intro h
    rcases h with ⟨final, reached, left⟩
    have stopped : Stops final :=
      Classical.not_not.mp fun passes => never final (agree final passes ▸ left)
    refine ⟨final, ?_, stopped⟩
    clear left stopped
    induction reached with
    | refl => exact .refl
    | @tail state next _ pass ih =>
        have around : body state = some (.again next) := pass
        have passes : ¬ Stops state := by
          intro stopped
          simp [stops state stopped] at around
        exact ih.tail ((agree state passes).symm.trans pass)
  · intro h
    rcases h with ⟨s, reached, stopped⟩
    -- Along the other loop, this one keeps up until it stops.
    have follows : Reaches body start s ∨ ∃ t, Reaches body start t ∧ Stops t := by
      clear stopped
      induction reached with
      | refl => exact .inl .refl
      | @tail state next _ pass ih =>
          rcases ih with here | before
          · by_cases stopped : Stops state
            · exact .inr ⟨state, here, stopped⟩
            · exact .inl (here.tail ((agree state stopped).trans pass))
          · exact .inr before
    rcases follows with here | ⟨t, before, stopsBefore⟩
    · exact ⟨s, here, stops s stopped⟩
    · exact ⟨t, before, stops t stopsBefore⟩

variable {ω : Type*}

/-- The loop leaves, and its passes together put out the given list, in order. -/
inductive Yields (body : σ → Option (Pass σ ρ)) (output : σ → List ω)
    : σ → List ω → Prop where
  | leave {state : σ} {result : ρ} (pass : body state = some (.leave result))
      : Yields body output state (output state)
  | again {state next : σ} {rest : List ω} (pass : Continues body state next)
      (later : Yields body output next rest)
      : Yields body output state (output state ++ rest)

variable {output : σ → List ω}

theorem yields_leave_iff (pass : body state = some (.leave result)) (outputs : List ω)
    : Yields body output state outputs ↔ outputs = output state := by
  constructor
  · intro h
    rcases h with left | ⟨around, _⟩
    · rfl
    · rw [Continues, pass] at around
      cases Option.some.inj around
  · rintro rfl
    exact .leave pass

theorem yields_again_iff (pass : Continues body state next) (outputs : List ω)
    : Yields body output state outputs
      ↔ ∃ rest, outputs = output state ++ rest ∧ Yields body output next rest := by
  constructor
  · intro h
    rcases h with left | ⟨around, later⟩
    · rw [Continues, left] at pass
      cases Option.some.inj pass
    · rw [Continues] at pass around
      obtain rfl : _ = next := by simpa only [pass, Option.some.injEq, Pass.again.injEq,
        eq_comm] using around
      exact ⟨_, rfl, later⟩
  · intro h
    rcases h with ⟨rest, rfl, later⟩
    exact .again pass later

/-- The loop gets from one state to another, and the passes on the way put out the given
list, in order.
-/
inductive Emits (body : σ → Option (Pass σ ρ)) (output : σ → List ω)
    : σ → List ω → σ → Prop where
  | refl (state : σ) : Emits body output state [] state
  | head {state next final : σ} {items : List ω} (pass : Continues body state next)
      (later : Emits body output next items final)
      : Emits body output state (output state ++ items) final

theorem Emits.trans {start middle final : σ} {items more : List ω}
    (first : Emits body output start items middle) (second : Emits body output middle more final)
    : Emits body output start (items ++ more) final := by
  induction first with
  | refl => exact second
  | head pass _ ih =>
      rw [List.append_assoc]
      exact .head pass (ih second)

theorem Emits.reaches {start final : σ} {items : List ω} (h : Emits body output start items final)
    : Reaches body start final := by
  induction h with
  | refl => exact .refl
  | head pass _ ih => exact .head pass ih

/-- What is put out up to a state of some kind is determined, if no pass leads back to that
kind of state.
-/
theorem Emits.unique (Target Past : σ → Prop)
    (enters : ∀ s t, Target s → Continues body s t → Past t)
    (stays : ∀ s t, Past s → Continues body s t → Past t) (apart : ∀ s, Past s → ¬ Target s)
    {start a b : σ} {left right : List ω} (toA : Emits body output start left a)
    (toB : Emits body output start right b) (atA : Target a) (atB : Target b)
    : left = right := by
  have never {s t u : σ} (here : Target s) (pass : Continues body s t) (on : Reaches body t u)
      : ¬ Target u :=
    apart u (on.invariant Past (enters s t here pass) stays)
  induction toA generalizing right with
  | refl =>
      cases toB with
      | refl => rfl
      | head pass later => exact absurd atB (never atA pass later.reaches)
  | @head state next _ _ pass later ih =>
      cases toB with
      | refl => exact absurd atA (never atB pass later.reaches)
      | head other rest =>
          rw [Continues] at pass other
          rw [pass, Option.some.injEq, Pass.again.injEq] at other
          subst other
          rw [ih rest atA]

end Foundations.Loop
