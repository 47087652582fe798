import Mathlib.Logic.Function.Basic
import LinuxDoc.Foundations.Runs

/-! Voting locks. Every CPU runs `vlock_trylock` and `vlock_unlock` on its own; an action is
one read or one write of the shared variables, so that a run is any interleaving of them.
-/

namespace LinuxDoc.Vlock

open Foundations

variable {n : Nat}

inductive Point where
  | outside
  /-- `if (last_vote != -1)` -/
  | test
  /-- `currently_voting[this_cpu] = 0` on the way to `return false` -/
  | refuse
  /-- `last_vote = this_cpu` -/
  | vote
  /-- `currently_voting[this_cpu] = 0` after the vote -/
  | finish
  /-- `while (currently_voting[i] != 0)`, and after the last CPU `if (last_vote == this_cpu)` -/
  | wait (i : Nat)
  deriving DecidableEq

/-- The shared variables, and of each CPU where it is and whether it holds the lock: that is,
a `vlock_trylock` of its own returned true and it has not unlocked since.
-/
structure State (n : Nat) where
  currentlyVoting : Fin n → Int
  lastVote : Int
  point : Fin n → Point
  holds : Fin n → Bool

def initial (n : Nat) : State n where
  currentlyVoting := fun _ => 0
  lastVote := -1
  point := fun _ => .outside
  holds := fun _ => false

inductive Action (n : Nat) where
  /-- call `vlock_trylock`: `currently_voting[this_cpu] = 1` -/
  | trylock (cpu : Fin n)
  /-- the next access inside `vlock_trylock` -/
  | advance (cpu : Fin n)
  /-- call `vlock_unlock`: `last_vote = -1` -/
  | unlock (cpu : Fin n)
  deriving DecidableEq

namespace State

def goTo (s : State n) (cpu : Fin n) (point : Point) : State n :=
  { s with point := Function.update s.point cpu point }

def signal (s : State n) (cpu : Fin n) (value : Int) : State n :=
  { s with currentlyVoting := Function.update s.currentlyVoting cpu value }

def setHolds (s : State n) (cpu : Fin n) (holds : Bool) : State n :=
  { s with holds := Function.update s.holds cpu holds }

end State

def advance (s : State n) (cpu : Fin n) : State n :=
  match s.point cpu with
  | .outside => s
  | .test => if s.lastVote ≠ -1 then s.goTo cpu .refuse else s.goTo cpu .vote
  | .refuse => (s.signal cpu 0).goTo cpu .outside
  | .vote => { s with lastVote := cpu.val }.goTo cpu .finish
  | .finish => (s.signal cpu 0).goTo cpu (.wait 0)
  | .wait i =>
      if h : i < n then
        if s.currentlyVoting ⟨i, h⟩ ≠ 0 then s else s.goTo cpu (.wait (i + 1))
      else if s.lastVote = cpu.val then (s.setHolds cpu true).goTo cpu .outside
      else s.goTo cpu .outside

/-- One action; one that is not open to the CPU changes nothing. Only a CPU that holds the
lock unlocks it.
-/
def step (s : State n) : Action n → State n
  | .trylock cpu =>
      if s.point cpu = .outside then (s.signal cpu 1).goTo cpu .test else s
  | .advance cpu => advance s cpu
  | .unlock cpu =>
      if s.point cpu = .outside ∧ s.holds cpu then
        { s with lastVote := -1 }.setHolds cpu false
      else s

def run (s : State n) (actions : List (Action n)) : State n :=
  actions.foldl step s

structure Invariant (s : State n) : Prop where
  /-- A CPU that may still vote shows it. -/
  shown : ∀ cpu, s.point cpu = .test ∨ s.point cpu = .vote → s.currentlyVoting cpu ≠ 0
  /-- While a CPU's vote stands, the CPUs it has waited for do not vote. -/
  passed : ∀ cpu i, s.point cpu = .wait i → s.lastVote = cpu.val →
    ∀ other : Fin n, other.val < i → s.point other ≠ .vote
  /-- The vote of a holder stands, and nobody is about to vote. -/
  settled : ∀ cpu, s.holds cpu = true →
    s.lastVote = cpu.val ∧ ∀ other, s.point other ≠ .vote

theorem invariant_initial (n : Nat) : Invariant (initial n) := by
  constructor <;> simp [initial]

variable {s : State n}

/-- A CPU may go wherever it is not about to vote, and on in its loop past CPUs that are not.
-/
theorem Invariant.goTo (inv : Invariant s) (cpu : Fin n) (point : Point) (noTest : point ≠ .test)
    (noVote : point ≠ .vote)
    (passed : ∀ i, point = .wait i → s.lastVote = cpu.val →
      ∀ other : Fin n, other.val < i → s.point other ≠ .vote)
    : Invariant (s.goTo cpu point) where
  shown := by
    have := inv.shown
    simp only [State.goTo, Function.update_apply]
    grind
  passed := by
    have := inv.passed
    simp only [State.goTo, Function.update_apply]
    grind
  settled := by
    have := inv.settled
    simp only [State.goTo, Function.update_apply]
    grind

/-- A CPU that is not about to vote may take its flag down. -/
theorem Invariant.signal_zero (inv : Invariant s) (cpu : Fin n) (noTest : s.point cpu ≠ .test)
    (noVote : s.point cpu ≠ .vote)
    : Invariant (s.signal cpu 0) where
  shown := by
    intro other voting
    have differs : other ≠ cpu := by
      rintro rfl
      exact voting.elim noTest noVote
    simpa [State.signal, differs] using inv.shown other voting
  passed := inv.passed
  settled := inv.settled

/-- Any CPU may put its flag up and test for votes: that is not yet a vote. -/
theorem Invariant.enter (inv : Invariant s) (cpu : Fin n)
    : Invariant ((s.signal cpu 1).goTo cpu .test) where
  shown := by
    have := inv.shown
    simp only [State.goTo, State.signal, Function.update_apply]
    grind
  passed := by
    have := inv.passed
    simp only [State.goTo, State.signal, Function.update_apply]
    grind
  settled := by
    have := inv.settled
    simp only [State.goTo, State.signal, Function.update_apply]
    grind

variable {cpu : Fin n}

/-- Without a standing vote there is neither a holder nor a CPU whose vote stands, so nothing
speaks against a new vote.
-/
theorem Invariant.volunteer (inv : Invariant s) (testing : s.point cpu = .test)
    (noVotes : s.lastVote = -1)
    : Invariant (s.goTo cpu .vote) where
  shown := by
    have := inv.shown
    simp only [State.goTo, Function.update_apply]
    grind
  passed := by
    intro other i _ stands
    have : s.lastVote = other.val := stands
    omega
  settled := by
    intro other holds
    have := (inv.settled other holds).1
    omega

/-- A vote takes the place of the one before; the voter has still to wait for everybody, and
there was no holder.
-/
theorem Invariant.castVote (inv : Invariant s) (voting : s.point cpu = .vote)
    : Invariant ({ s with lastVote := cpu.val }.goTo cpu .finish) where
  shown := by
    have := inv.shown
    simp only [State.goTo, Function.update_apply]
    grind
  passed := by
    intro other i waits stands
    have stands : (cpu.val : Int) = other.val := stands
    have same : other = cpu := Fin.ext (by omega)
    simp [State.goTo, same] at waits
  settled := by
    intro other holds
    exact absurd voting ((inv.settled other holds).2 cpu)

/-- A CPU that has waited for everybody and finds its vote standing has won. -/
theorem Invariant.win (inv : Invariant s) {i : Nat} (waits : s.point cpu = .wait i) (all : n ≤ i)
    (stands : s.lastVote = cpu.val)
    : Invariant (s.setHolds cpu true) where
  shown := inv.shown
  passed := inv.passed
  settled := by
    have nobody : ∀ other, s.point other ≠ .vote := fun other =>
      inv.passed cpu i waits stands other (Nat.lt_of_lt_of_le other.isLt all)
    intro other holds
    refine ⟨?_, nobody⟩
    by_cases same : other = cpu
    · rw [same]
      exact stands
    · exact (inv.settled other (by simpa [State.setHolds, same] using holds)).1

/-- Once the holder has taken its vote back, nobody holds the lock. -/
theorem Invariant.release (inv : Invariant s) (holds : s.holds cpu = true)
    : Invariant ({ s with lastVote := -1 }.setHolds cpu false) where
  shown := inv.shown
  passed := by
    intro other i _ stands
    have : (-1 : Int) = other.val := stands
    omega
  settled := by
    intro other holdsOther
    have differs : other ≠ cpu := by
      rintro rfl
      simp [State.setHolds] at holdsOther
    have holdsOther : s.holds other = true := by
      simpa [State.setHolds, differs] using holdsOther
    -- both votes would stand
    have := (inv.settled cpu holds).1
    have := (inv.settled other holdsOther).1
    exact absurd (Fin.ext (by omega)) differs

/-- By cases on where the CPU is, in the order of the code. -/
theorem Invariant.advance (inv : Invariant s) (cpu : Fin n)
    : Invariant (advance s cpu) := by
  unfold Vlock.advance
  split
  · exact inv
  · rename_i testing
    split
    · exact inv.goTo cpu _ (by simp) (by simp) (by simp)
    · rename_i noVotes
      exact inv.volunteer testing (not_not.mp noVotes)
  · have moved := inv.goTo cpu .outside (by simp) (by simp) (by simp)
    exact moved.signal_zero cpu (by simp [State.goTo]) (by simp [State.goTo])
  · rename_i voting
    exact inv.castVote voting
  · have moved := inv.goTo cpu (.wait 0) (by simp) (by simp) (by simp)
    exact moved.signal_zero cpu (by simp [State.goTo]) (by simp [State.goTo])
  · rename_i i waits
    split
    · rename_i inside
      split
      · exact inv
      · rename_i down
        -- the CPU that was waited for shows that it will not vote
        refine inv.goTo cpu _ (by simp) (by simp) ?_
        intro next same stands other below voting
        obtain rfl := Point.wait.inj same
        rcases Nat.lt_succ_iff_lt_or_eq.mp below with earlier | rfl
        · exact inv.passed cpu i waits stands other earlier voting
        · exact inv.shown other (.inr voting) (not_not.mp down)
    · rename_i all
      split
      · rename_i stands
        exact (inv.win waits (Nat.not_lt.mp all) stands).goTo cpu _ (by simp) (by simp) (by simp)
      · exact inv.goTo cpu _ (by simp) (by simp) (by simp)

theorem Invariant.step (inv : Invariant s) (action : Action n)
    : Invariant (step s action) := by
  cases action with
  | trylock cpu =>
      simp only [Vlock.step]
      split
      · exact inv.enter cpu
      · exact inv
  | advance cpu => exact inv.advance cpu
  | unlock cpu =>
      simp only [Vlock.step]
      split
      · rename_i open_
        exact inv.release open_.2
      · exact inv

/-- Every interleaving keeps the invariant. -/
theorem invariant_run (actions : List (Action n)) : Invariant (run (initial n) actions) :=
  List.foldlRecOn actions step (invariant_initial n) fun _ inv action _ => inv.step action

/-- Only its own unlocking ends a CPU's holding of the lock. -/
theorem holds_step (holds : s.holds cpu = true) {action : Action n} (keeps : action ≠ .unlock cpu)
    : (step s action).holds cpu = true := by
  cases action with
  | trylock other =>
      simp only [step]
      split <;> exact holds
  | advance other =>
      simp only [step, advance]
      split
      case h_6 =>
        split
        · split <;> exact holds
        · split
          · by_cases same : cpu = other
            · simp [State.setHolds, State.goTo, same]
            · simpa [State.setHolds, State.goTo, same] using holds
          · exact holds
      case h_2 => split <;> exact holds
      all_goals exact holds
  | unlock other =>
      have differs : cpu ≠ other := fun same => keeps (same ▸ rfl)
      simp only [step]
      split
      · simpa [State.setHolds, differs] using holds
      · exact holds

/-- While a CPU does not unlock, its vote stands. -/
theorem vote_stands (inv : Invariant s) (holds : s.holds cpu = true) {later : List (Action n)}
    (keeps : .unlock cpu ∉ later)
    : Always step (fun t => t.lastVote = cpu.val) s later := by
  induction later generalizing s with
  | nil => exact (inv.settled cpu holds).1
  | cons action rest ih =>
      have first : action ≠ .unlock cpu := fun same => keeps (same ▸ List.mem_cons_self)
      refine ⟨(inv.settled cpu holds).1, ?_⟩
      exact ih (inv.step action) (holds_step holds first)
        fun mem => keeps (List.mem_cons_of_mem _ mem)

/-- The CPU is past its wait loop, about to read `last_vote`, and its own vote stands there. -/
def Observes (s : State n) (cpu : Fin n) : Prop :=
  (∃ i, n ≤ i ∧ s.point cpu = .wait i) ∧ s.lastVote = cpu.val

/-- To observe one's own vote is to hold the lock. -/
theorem holds_of_observes (observes : Observes s cpu)
    : (step s (.advance cpu)).holds cpu = true := by
  obtain ⟨⟨i, all, waits⟩, stands⟩ := observes
  simp [step, advance, waits, Nat.not_lt.mpr all, stands, State.goTo, State.setHolds]

/-- In every interleaving, at most one CPU holds the lock, and from the moment a CPU sees that it
won, `last_vote` stays as it is until that CPU unlocks. From the invariant: while a CPU holds the
lock the vote is its own and nobody is about to vote.
-/
theorem vlock_excludes (n : Nat) (actions : List (Action n))
    : (∀ cpu other, (run (initial n) actions).holds cpu = true →
        (run (initial n) actions).holds other = true → cpu = other)
      ∧ ∀ cpu, Observes (run (initial n) actions) cpu → ∀ later, .unlock cpu ∉ later →
        Always step (fun t => t.lastVote = cpu.val)
          (step (run (initial n) actions) (.advance cpu)) later := by
  have inv := invariant_run actions
  constructor
  · intro cpu other holds holdsOther
    have := (inv.settled cpu holds).1
    have := (inv.settled other holdsOther).1
    exact Fin.ext (by omega)
  · intro cpu observes later keeps
    exact vote_stands (inv.step _) (holds_of_observes observes) keeps

/-- Of two CPUs that vote, the second one wins, and a third call finds its vote. -/
theorem second_voter_wins
    : Observes (run (initial 2) [.trylock 0, .advance 0, .trylock 1, .advance 1, .advance 0,
        .advance 1, .advance 0, .advance 1, .advance 1, .advance 1]) 1
      ∧ Always step (fun t => t.lastVote = 1)
        (step (run (initial 2) [.trylock 0, .advance 0, .trylock 1, .advance 1, .advance 0,
          .advance 1, .advance 0, .advance 1, .advance 1, .advance 1]) (.advance 1))
        [.advance 0, .advance 0, .advance 0, .trylock 0, .advance 0] := by
  have observes : Observes (run (initial 2) [.trylock 0, .advance 0, .trylock 1, .advance 1,
      .advance 0, .advance 1, .advance 0, .advance 1, .advance 1, .advance 1]) 1 :=
    ⟨⟨2, Nat.le_refl _, by decide⟩, by decide⟩
  exact ⟨observes, (vlock_excludes 2 _).2 1 observes _ (by decide)⟩

end LinuxDoc.Vlock
