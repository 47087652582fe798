import Mathlib.Data.List.Count
import Mathlib.Tactic.Ring

/-! Functions that acquire one resource after the other and, when a step fails, release by hand
what they have.
A cleanup that does not fit what is held at its step makes the function unbalanced.
-/

namespace Foundations.Acquisition

variable {R E : Type*}

inductive Op (R : Type*) where
  | acquire (resource : R)
  | release (resource : R)
  deriving DecidableEq

structure Outcome (R E : Type*) where
  error : Option E
  ops : List (Op R)

def Outcome.success : Outcome R E :=
  ⟨none, []⟩

def acquire (resource : R) (rest : Outcome R E) : Outcome R E :=
  ⟨rest.error, .acquire resource :: rest.ops⟩

def attempt (failure : Option E) (cleanup : List (Op R)) (rest : Outcome R E) : Outcome R E :=
  match failure with
  | some err => ⟨some err, cleanup⟩
  | none => rest

variable [DecidableEq R]

/-- How often a resource is held afterwards more than before. -/
def net (ops : List (Op R)) (resource : R) : Int :=
  ops.count (.acquire resource) - ops.count (.release resource)

theorem net_eq_zero_iff (ops : List (Op R)) (resource : R)
    : net ops resource = 0 ↔ ops.count (.release resource) = ops.count (.acquire resource) := by
  unfold net
  omega

def Clears (held : List R) (cleanup : List (Op R)) : Prop :=
  ∀ resource, (held.count resource : Int) + net cleanup resource = 0

/-- From holding some resources a function comes to hold all of them, or none if it fails. -/
def InBalance (held all : List R) (outcome : Outcome R E) : Prop :=
  ∀ resource,
    (held.count resource : Int) + net outcome.ops resource
      = if outcome.error.isSome then 0 else (all.count resource : Int)

variable {held all : List R}

theorem inBalance_success_iff
    : InBalance held all (.success : Outcome R E)
      ↔ ∀ resource, held.count resource = all.count resource := by
  simp [InBalance, Outcome.success, net]

theorem inBalance_acquire_iff {resource : R} {rest : Outcome R E}
    : InBalance held all (acquire resource rest) ↔ InBalance (resource :: held) all rest := by
  refine forall_congr' fun other => ?_
  have same : (held.count other : Int) + net (.acquire resource :: rest.ops) other
      = ((resource :: held).count other : Int) + net rest.ops other := by
    simp only [net, List.count_cons, beq_iff_eq, Op.acquire.injEq, reduceCtorEq, if_false]
    push_cast
    ring
  rw [← same]
  rfl

theorem inBalance_attempt_iff {failure : Option E} {cleanup : List (Op R)} {rest : Outcome R E}
    : InBalance held all (attempt failure cleanup rest)
      ↔ (failure.isSome → Clears held cleanup) ∧ (failure = none → InBalance held all rest) := by
  cases failure with
  | none => simp [attempt]
  | some err => simp [attempt, InBalance, Clears]

end Foundations.Acquisition
