import Mathlib.Algebra.BigOperators.Fin
import Mathlib.Algebra.Order.BigOperators.Group.Finset
import LinuxDoc.Foundations.FairRounds
import LinuxDoc.Vlock.MutualExclusion

/-! Elections come to an end. Calls of `vlock_trylock` wait for each other; still they all return
once every CPU is given enough turns, and then exactly one CPU holds the lock.
-/

namespace LinuxDoc.Vlock

open Foundations

variable {n : Nat} {s : State n} {cpu other : Fin n}

/-- No CPU is inside `vlock_trylock`. -/
def Settled (s : State n) : Prop := ∀ cpu, s.point cpu = .outside

def Point.voting : Point → Bool
  | .test | .refuse | .vote | .finish => true
  | .outside | .wait _ => false

structure Ongoing (s : State n) : Prop where
  /-- A flag that is up is taken down without waiting for anybody. -/
  voting : ∀ cpu, s.currentlyVoting cpu ≠ 0 → (s.point cpu).voting
  /-- The wait loop ends after the last CPU. -/
  within : ∀ cpu i, s.point cpu = .wait i → i ≤ n
  /-- The last to vote holds the lock, or has still to look at the result. -/
  voter : s.lastVote ≠ -1 → ∃ cpu : Fin n, s.lastVote = cpu.val
    ∧ (s.holds cpu = true ∨ s.point cpu = .finish ∨ ∃ i, s.point cpu = .wait i)

theorem ongoing_initial (n : Nat) : Ongoing (initial n) := by
  constructor <;> simp [initial]

theorem Ongoing.step (ongoing : Ongoing s) (action : Action n) : Ongoing (step s action) := by
  obtain ⟨voting, within, voter⟩ := ongoing
  cases action with
  | trylock cpu =>
      simp only [Vlock.step]
      split
      · constructor <;> simp only [State.goTo, State.signal, Function.update_apply] <;>
          grind [Point.voting]
      · exact ⟨voting, within, voter⟩
  | unlock cpu =>
      simp only [Vlock.step]
      split
      · constructor <;> simp only [State.setHolds, Function.update_apply] <;> grind
      · exact ⟨voting, within, voter⟩
  | advance cpu =>
      simp only [Vlock.step]
      fun_cases Vlock.advance s cpu <;> constructor <;>
        (try simp only [State.goTo, State.signal, State.setHolds, Function.update_apply]) <;>
        grind [Point.voting]

def rank (n : Nat) : Point → Nat
  | .outside => 0
  | .refuse => 1
  | .wait i => n + 1 - i
  | .finish => n + 2
  | .vote => n + 3
  | .test => n + 4

def work (s : State n) : Nat := ∑ cpu, rank n (s.point cpu)

/-- The CPU is inside `vlock_trylock` and does not wait for a flag that is up. -/
def Ready (s : State n) (cpu : Fin n) : Prop :=
  s.point cpu ≠ .outside
    ∧ ∀ i, (h : i < n) → s.point cpu = .wait i → s.currentlyVoting ⟨i, h⟩ = 0

theorem work_le (s : State n) : work s ≤ n * (n + 4) := by
  have bound : ∀ point, rank n point ≤ n + 4 := by
    intro point
    cases point <;> simp only [rank] <;> omega
  calc work s ≤ ∑ _ : Fin n, (n + 4) := Finset.sum_le_sum fun cpu _ => bound _
    _ = n * (n + 4) := by simp

theorem settled_of_work (within : ∀ cpu i, s.point cpu = .wait i → i ≤ n) (done : work s = 0)
    : Settled s := by
  intro cpu
  have none := Finset.sum_eq_zero_iff.mp done cpu (Finset.mem_univ _)
  cases at_point : s.point cpu with
  | outside => rfl
  | wait i =>
      have := within cpu i at_point
      simp only [at_point, rank] at none
      omega
  | _ => simp [at_point, rank] at none

/-- The work left after one CPU has moved to a point of a lower rank. -/
theorem work_goTo_lt {s' : State n} {point : Point} (less : rank n point < rank n (s.point cpu))
    (points : s'.point = s.point)
    : work (s'.goTo cpu point) < work s := by
  refine Finset.sum_lt_sum ?_ ⟨cpu, Finset.mem_univ _, ?_⟩
  · intro other _
    by_cases same : other = cpu
    · rw [same]
      simpa [State.goTo] using Nat.le_of_lt less
    · simp [State.goTo, points, same]
  · simpa [State.goTo] using less

/-- A ready CPU gets on. -/
theorem advance_work_lt (within : ∀ cpu i, s.point cpu = .wait i → i ≤ n) (ready : Ready s cpu)
    : work (advance s cpu) < work s := by
  obtain ⟨inside, free⟩ := ready
  unfold advance
  split
  · next outside => exact absurd outside inside
  · next testing =>
      split <;> exact work_goTo_lt (by rw [testing]; simp [rank]) rfl
  · next refuses => exact work_goTo_lt (by rw [refuses]; simp [rank]) rfl
  · next votes => exact work_goTo_lt (by rw [votes]; simp [rank]) rfl
  · next finishes => exact work_goTo_lt (by rw [finishes]; simp [rank]) rfl
  · next i waits =>
      have := within cpu i waits
      split
      · next h =>
          rw [if_neg (not_not.mpr (free i h waits))]
          exact work_goTo_lt (by rw [waits]; simp only [rank]; omega) rfl
      · split <;> exact work_goTo_lt (by rw [waits]; simp only [rank]; omega) rfl

/-- One that is not ready does nothing. -/
theorem advance_eq_self (blocked : ¬ Ready s cpu) : advance s cpu = s := by
  unfold Ready at blocked
  fun_cases advance s cpu <;> grind

/-- Inside a call no flag goes up, and nobody moves but the CPU whose turn it is. -/
theorem advance_frame (s : State n) (cpu : Fin n)
    : (∀ other ≠ cpu, (advance s cpu).point other = s.point other)
      ∧ ∀ other, s.currentlyVoting other = 0 → (advance s cpu).currentlyVoting other = 0 := by
  fun_cases advance s cpu <;>
    simp only [State.goTo, State.signal, State.setHolds, Function.update_apply] <;> grind

theorem Ready.advance (ready : Ready s cpu) (differs : other ≠ cpu)
    : Ready (advance s other) cpu := by
  obtain ⟨moves, flags⟩ := advance_frame s other
  obtain ⟨inside, free⟩ := ready
  rw [Ready, moves cpu (Ne.symm differs)]
  exact ⟨inside, fun i h waits => flags _ (free i h waits)⟩

/-- Whoever waits for a flag waits for a CPU that is ready. -/
theorem exists_ready (ongoing : Ongoing s) (left : work s ≠ 0) : ∃ cpu, Ready s cpu := by
  obtain ⟨cpu, _, inside⟩ := Finset.exists_ne_zero_of_sum_ne_zero left
  by_cases ready : Ready s cpu
  · exact ⟨cpu, ready⟩
  · have notOutside : s.point cpu ≠ .outside := by
      intro outside
      simp [outside, rank] at inside
    simp only [Ready, not_and, not_forall] at ready
    obtain ⟨i, h, _, up⟩ := ready notOutside
    have voting := ongoing.voting ⟨i, h⟩ up
    refine ⟨⟨i, h⟩, ?_, ?_⟩
    · intro outside
      simp [outside, Point.voting] at voting
    · intro j _ waits
      simp [waits, Point.voting] at voting

theorem settling : Settling (advance (n := n)) Ongoing work Ready where
  keeps := fun _ cpu ongoing => ongoing.step (.advance cpu)
  works := fun _ _ ongoing ready => advance_work_lt ongoing.within ready
  idles := fun _ _ blocked => advance_eq_self blocked
  stays := fun _ _ _ _ ready differs => ready.advance differs
  ready := fun _ ongoing left => exists_ready ongoing left

def Opened (s : State n) : Prop :=
  s.lastVote ≠ -1 ∨ ∃ cpu, s.point cpu = .test ∨ s.point cpu = .vote

/-- A vote is only taken back by unlocking. -/
theorem advance_lastVote (voted : s.lastVote ≠ -1) (cpu : Fin n)
    : (advance s cpu).lastVote ≠ -1 := by
  fun_cases advance s cpu
  case case5 => simp only [State.goTo]; omega
  all_goals exact voted

/-- An election that is open stays so until somebody unlocks. -/
theorem Opened.advance (opened : Opened s) (cpu : Fin n) : Opened (advance s cpu) := by
  rcases opened with voted | ⟨voter, at_point⟩
  · exact .inl (advance_lastVote voted cpu)
  · by_cases same : voter = cpu
    · subst same
      unfold Opened Vlock.advance
      rcases at_point with testing | votes
      · simp only [testing]
        split
        · next voted => exact .inl voted
        · exact .inr ⟨voter, .inr (by simp [State.goTo])⟩
      · simp only [votes, State.goTo]
        left
        omega
    · refine .inr ⟨voter, ?_⟩
      rw [(advance_frame s cpu).1 voter same]
      exact at_point

theorem Opened.trylock (opened : Opened s) (cpu : Fin n) : Opened (step s (.trylock cpu)) := by
  unfold Opened at *
  simp only [step]
  split
  · exact .inr ⟨cpu, .inl (by simp [State.goTo])⟩
  · exact opened

/-- Until somebody unlocks, an election that is open stays so, and a call opens one. -/
theorem opened_run {calls : List (Action n)} (kept : ∀ cpu, .unlock cpu ∉ calls)
    (before : Opened s ∨ Settled s ∧ ∃ cpu, .trylock cpu ∈ calls)
    : Opened (run s calls) := by
  induction calls generalizing s with
  | nil =>
      rcases before with opened | ⟨_, cpu, mem⟩
      · exact opened
      · simp at mem
  | cons action rest ih =>
      refine ih (fun cpu mem => kept cpu (List.mem_cons_of_mem _ mem)) ?_
      cases action with
      | unlock cpu => exact absurd List.mem_cons_self (kept cpu)
      | trylock cpu =>
          rcases before with opened | ⟨settled, _⟩
          · exact .inl (opened.trylock cpu)
          · exact .inl (.inr ⟨cpu, .inl (by simp [step, settled cpu, State.goTo])⟩)
      | advance cpu =>
          rcases before with opened | ⟨settled, caller, mem⟩
          · exact .inl (opened.advance cpu)
          · refine .inr ⟨?_, caller, by simpa using mem⟩
            simpa [step, Vlock.advance, settled cpu] using settled

theorem ongoing_run (actions : List (Action n)) : Ongoing (run (initial n) actions) :=
  List.foldlRecOn actions step (ongoing_initial n) fun _ ongoing action _ => ongoing.step action

/-- Once nobody votes any more, the last to vote is the one that holds the lock. -/
theorem existsUnique_holds (inv : Invariant s) (ongoing : Ongoing s) (settled : Settled s)
    (opened : Opened s)
    : ∃! cpu, s.holds cpu = true := by
  have voted : s.lastVote ≠ -1 := by
    rcases opened with voted | ⟨voter, at_point⟩
    · exact voted
    · simp [settled voter] at at_point
  obtain ⟨winner, last, done⟩ := ongoing.voter voted
  have holds : s.holds winner = true := by simpa [settled winner] using done
  refine ⟨winner, holds, ?_⟩
  intro other holdsOther
  have := (inv.settled other holdsOther).1
  exact Fin.ext (by omega)

/-- Every election ends with one winner: if at least one CPU calls `vlock_trylock`, then after
enough rounds in which every CPU has a turn all the calls have returned, and exactly one CPU holds
the lock. The work that is left goes down in each round (`settling`), and the invariant names the
winner.
-/
theorem vlock_elects (earlier calls : List (Action n)) (rounds : List (List (Fin n)))
    (settled : Settled (run (initial n) earlier)) (called : ∃ cpu, .trylock cpu ∈ calls)
    (kept : ∀ cpu, .unlock cpu ∉ calls) (long : n * (n + 4) ≤ rounds.length)
    (fair : ∀ round ∈ rounds, ∀ cpu, cpu ∈ round)
    : Settled (run (initial n) (earlier ++ calls ++ rounds.flatten.map .advance))
      ∧ ∃! cpu, (run (initial n) (earlier ++ calls ++ rounds.flatten.map .advance)).holds cpu
        = true := by
  have called : Opened (run (initial n) (earlier ++ calls)) := by
    rw [run, List.foldl_append]
    exact opened_run kept (.inr ⟨settled, called⟩)
  have opened : Opened (run (initial n) (earlier ++ calls ++ rounds.flatten.map .advance)) := by
    rw [run, List.foldl_append]
    exact opened_run (by simp) (.inl called)
  have done : work (run (initial n) (earlier ++ calls ++ rounds.flatten.map .advance)) = 0 := by
    have rested := settling.work_eq_zero (ongoing_run (earlier ++ calls))
      (Nat.le_trans (work_le _) long) fair
    rwa [run, List.foldl_append, List.foldl_map]
  have ongoing := ongoing_run (earlier ++ calls ++ rounds.flatten.map .advance)
  have settled := settled_of_work ongoing.within done
  exact ⟨settled, existsUnique_holds (invariant_run _) ongoing settled opened⟩

/-- Two CPUs call at the same time. -/
theorem vlock_elects_two
    : ∃! cpu, (run (initial 2) ([] ++ [.trylock 0, .trylock 1]
        ++ (List.replicate 12 [0, 1]).flatten.map .advance)).holds cpu = true :=
  (vlock_elects [] [.trylock 0, .trylock 1] (List.replicate 12 [0, 1]) (fun _ => rfl)
    ⟨0, by simp⟩ (by simp) (by simp) (by decide)).2

end LinuxDoc.Vlock
