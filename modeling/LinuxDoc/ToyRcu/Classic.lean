import LinuxDoc.Foundations.GracePeriod

/-! The toy implementation of classic RCU: `synchronize_rcu` runs on each CPU in turn.
The read-side primitives do nothing. What makes it work is the scheduler of a kernel without
preemption, which is modelled here: a CPU switches to another task only when the task that it
runs is in no read-side section.
-/

namespace LinuxDoc.ToyRcu.Classic

open Foundations

variable {Task : Type} {n : Nat}

/-- The task that each CPU runs, and for each task in `synchronize_rcu` the CPU of the
`run_on` that it is in. On record is how often each task has entered a read-side section and
not left it, which the primitives do not keep.
-/
structure State (Task : Type) (n : Nat) where
  current : Fin n → Task
  cpu : Task → Option Nat
  depth : Task → Nat

inductive Internal (Task : Type) (n : Nat) where
  /-- a CPU switches to a task -/
  | switch (cpu : Fin n) (t : Task)
  /-- `run_on` returns, and the loop of `synchronize_rcu` goes on -/
  | ranOn (t : Task)

variable [DecidableEq Task]

def State.runs (s : State Task n) (t : Task) : Bool :=
  decide (∃ cpu, s.current cpu = t)

/-- The empty `rcu_read_lock` and `rcu_read_unlock`, and the begin and end of
`synchronize_rcu`. Only a task that runs makes calls.
-/
def call (s : State Task n) : RcuCall Task → Option (State Task n)
  | .readLock t =>
      if s.runs t then some { s with depth := Function.update s.depth t (s.depth t + 1) } else none
  | .readUnlock t =>
      if s.runs t then some { s with depth := Function.update s.depth t (s.depth t - 1) } else none
  | .synchronize t =>
      if s.runs t then some { s with cpu := Function.update s.cpu t (some 0) } else none
  | .synchronized t =>
      if s.runs t ∧ s.cpu t = some n then some { s with cpu := Function.update s.cpu t none }
      else none

/-- A context switch, which a read-side section must not make and which puts a task in
`run_on(cpu)` on that CPU only; and the loop over the CPUs.
-/
def internal (s : State Task n) : Internal Task n → State Task n
  | .switch cpu t =>
      if s.depth (s.current cpu) = 0 ∧ s.runs t = false ∧ ∀ i ∈ s.cpu t, i < n → i = cpu.val then
        { s with current := Function.update s.current cpu t }
      else s
  | .ranOn t =>
      match s.cpu t with
      | some i =>
          if h : i < n then
            if s.current ⟨i, h⟩ = t then { s with cpu := Function.update s.cpu t (some (i + 1)) }
            else s
          else s
      | none => s

/-- The CPUs run different tasks at first, and nobody is in a section or in
`synchronize_rcu`.
-/
def implementation (current : Fin n → Task) : RcuImplementation Task where
  State := State Task n
  Internal := Internal Task n
  initial := ⟨current, fun _ => none, fun _ => 0⟩
  call := call
  internal := internal
  runs := State.runs

/-- A task in a section runs, and a section that somebody waits for is on a CPU that is still
to come.
-/
structure Relates (s : State Task n) (m : RcuMonitor Task) : Prop where
  sound : m.Sound
  depth : ∀ t, s.depth t = m.readers.count t
  running : ∀ t ∈ m.readers, s.runs t = true
  alone : Function.Injective s.current
  waiting : ∀ t, s.cpu t = none ↔ m.waits t = none
  ahead : ∀ t sections i, m.waits t = some sections → s.cpu t = some i →
    ∀ r ∈ sections, ∀ cpu, s.current cpu = r → i ≤ cpu.val

variable {s : State Task n}

theorem runs_iff {t : Task} : s.runs t = true ↔ ∃ cpu, s.current cpu = t := by
  simp [State.runs]

variable {m : RcuMonitor Task}

/-- A call keeps the relation to the monitor: sections stay on their CPU. -/
theorem Relates.called {s s' : State Task n} (h : Relates s m) (rcu : RcuCall Task)
    (legal : m.Legal rcu) (goes : call s rcu = some s')
    : Relates s' (m.record rcu) := by
  have sound := h.sound.record legal
  cases rcu with
  | readLock t =>
      simp only [call, Option.ite_none_right_eq_some, Option.some.injEq] at goes
      obtain ⟨runs, rfl⟩ := goes
      refine ⟨sound, ?_, ?_, h.alone, h.waiting, h.ahead⟩
      · intro u
        by_cases same : u = t <;> simp [RcuMonitor.record, h.depth, same]
      · intro u mem
        rcases Multiset.mem_cons.mp mem with rfl | mem
        · exact runs
        · exact h.running u mem
  | readUnlock t =>
      simp only [call, Option.ite_none_right_eq_some, Option.some.injEq] at goes
      obtain ⟨_, rfl⟩ := goes
      refine ⟨sound, ?_, ?_, h.alone, ?_, ?_⟩
      · intro u
        by_cases same : u = t <;> simp [RcuMonitor.record, h.depth, same]
      · exact fun u mem => h.running u (Multiset.mem_of_mem_erase mem)
      · intro u
        simp [RcuMonitor.record, h.waiting u]
      · intro u sections i waits at_cpu r mem
        obtain ⟨before, eq, rfl⟩ := Option.map_eq_some_iff.mp waits
        exact h.ahead u before i eq at_cpu r (Multiset.mem_inter.mp mem).1
  | synchronize t =>
      simp only [call, Option.ite_none_right_eq_some, Option.some.injEq] at goes
      obtain ⟨_, rfl⟩ := goes
      obtain ⟨_, depth, running, alone, waiting, ahead⟩ := h
      refine ⟨sound, depth, running, alone, ?_, ?_⟩ <;>
        simp only [RcuMonitor.record, Function.update_apply] <;> grind
  | synchronized t =>
      simp only [call, Option.ite_none_right_eq_some, Option.some.injEq] at goes
      obtain ⟨_, rfl⟩ := goes
      obtain ⟨_, depth, running, alone, waiting, ahead⟩ := h
      refine ⟨sound, depth, running, alone, ?_, ?_⟩ <;>
        simp only [RcuMonitor.record, Function.update_apply] <;> grind

/-- A context switch takes no task off its CPU that is in a section. -/
theorem Relates.switch (h : Relates s m) {cpu : Fin n} {t : Task}
    (outside : s.depth (s.current cpu) = 0) (rests : s.runs t = false)
    : Relates { s with current := Function.update s.current cpu t } m := by
  have rests (other : Fin n) : s.current other ≠ t := by
    intro eq
    rw [runs_iff.mpr ⟨other, eq⟩] at rests
    cases rests
  have elsewhere {r : Task} (mem : r ∈ m.readers) {other : Fin n} (eq : s.current other = r)
      : other ≠ cpu := by
    rintro rfl
    rw [eq, h.depth, Multiset.count_eq_zero] at outside
    exact outside mem
  refine ⟨h.sound, h.depth, ?_, ?_, h.waiting, ?_⟩
  · intro r mem
    obtain ⟨other, eq⟩ := runs_iff.mp (h.running r mem)
    exact runs_iff.mpr ⟨other, (Function.update_of_ne (elsewhere mem eq) _ _).trans eq⟩
  · intro one other eq
    have alone := h.alone
    simp only [Function.update_apply] at eq
    grind [Function.Injective]
  · intro u sections i waits at_cpu r mem other on_cpu
    by_cases same : other = cpu
    · subst same
      -- the task that the CPU has switched to ran nowhere, so it is in no section
      simp only [Function.update_self] at on_cpu
      subst on_cpu
      have mem' := Multiset.mem_of_le (h.sound.opened u sections waits) mem
      obtain ⟨cpu, eq⟩ := runs_iff.mp (h.running t mem')
      exact absurd eq (rests cpu)
    · simp only [Function.update_of_ne same] at on_cpu
      exact h.ahead u sections i waits at_cpu r mem other on_cpu

/-- A task that runs on the CPU of its `run_on` is in no section itself, so no section is on
that CPU.
-/
theorem Relates.ranOn (h : Relates s m) {t : Task} {i : Nat} (at_cpu : s.cpu t = some i)
    (lt : i < n) (on_cpu : s.current ⟨i, lt⟩ = t)
    : Relates { s with cpu := Function.update s.cpu t (some (i + 1)) } m := by
  have waits_ne : m.waits t ≠ none := by
    rw [ne_eq, ← h.waiting t, at_cpu]
    simp
  refine ⟨h.sound, h.depth, h.running, h.alone, ?_, ?_⟩
  · have := h.waiting
    simp only [Function.update_apply]
    grind
  · intro u sections j waits at_cpu' r mem cpu on_cpu'
    by_cases same : u = t
    · subst same
      simp only [Function.update_self, Option.some.injEq] at at_cpu'
      have le := h.ahead u sections i waits at_cpu r mem cpu on_cpu'
      have ne : cpu.val ≠ i := by
        intro eq
        have same_cpu : cpu = ⟨i, lt⟩ := Fin.ext eq
        rw [same_cpu, on_cpu] at on_cpu'
        subst on_cpu'
        exact h.sound.outside u waits_ne (Multiset.mem_of_le (h.sound.opened u _ waits) mem)
      omega
    · simp only [Function.update_of_ne same] at at_cpu'
      exact h.ahead u sections j waits at_cpu' r mem cpu on_cpu'

theorem Relates.internal (h : Relates s m) (step : Internal Task n)
    : Relates (internal s step) m := by
  fun_cases Classic.internal s step
  case case1 allowed => exact h.switch allowed.1 allowed.2.1
  case case3 i lt at_cpu => exact h.ranOn at_cpu lt rfl
  all_goals exact h

/-- After the last CPU no section is left to wait for, since every section is on some CPU. -/
theorem Relates.waited {s s' : State Task n} (h : Relates s m) {t : Task} (legal : m.waits t ≠ none)
    (goes : call s (.synchronized t) = some s')
    : m.waits t = some 0 := by
  simp only [call, Option.ite_none_right_eq_some] at goes
  obtain ⟨sections, waits⟩ := Option.ne_none_iff_exists'.mp legal
  rw [waits, Option.some.injEq]
  refine Multiset.eq_zero_of_forall_notMem fun r mem => ?_
  have mem' := Multiset.mem_of_le (h.sound.opened t sections waits) mem
  obtain ⟨cpu, on_cpu⟩ := runs_iff.mp (h.running r mem')
  have := h.ahead t sections n waits goes.1.2 r mem cpu on_cpu
  omega

def graceful {current : Fin n → Task} (alone : Function.Injective current)
    : (implementation current).Graceful where
  Relates := Relates
  initial := by
    refine ⟨RcuMonitor.sound_initial, ?_, ?_, alone, ?_, ?_⟩ <;>
      simp [implementation, RcuMonitor.initial]
  called := fun _ _ rcu _ h legal goes => h.called rcu legal goes
  internal := fun _ _ step h => h.internal step
  waited := fun _ _ _ _ h legal goes => h.waited legal goes

/-- Whatever the tasks do and however the CPUs switch between them outside sections,
`synchronize_rcu` of classic RCU returns only after the end of every section, nested ones included,
that was open when it was called. That a section keeps its CPU makes the implementation `Graceful`.
-/
theorem classic_returns_late {current : Fin n → Task} (alone : Function.Injective current)
    (events : List (RcuImplementation.Event (implementation current)))
    : EveryStep (implementation current).observe (implementation current).ReturnsLate
        ((implementation current).initial, .initial) events :=
  (graceful alone).returnsLate events

/-- Of three tasks the first two run, on two CPUs. The first is in a section when the second
calls `synchronize_rcu`; the third takes over its CPU, and then the second comes to run there.
-/
def sampleEvents
    : List (RcuImplementation.Event (implementation (Fin.castSucc : Fin 2 → Fin 3))) :=
  [.call (.readLock 0), .call (.synchronize 1), .internal (.switch 0 2),
    .call (.readUnlock 0), .internal (.switch 1 2), .internal (.switch 0 1),
    .internal (.ranOn 1), .internal (.switch 0 0), .internal (.switch 1 1),
    .internal (.ranOn 1)]

/-- At the end of the sample `synchronize_rcu` returns. -/
theorem classic_returns_late_sample
    : (call (sampleEvents.foldl (implementation (Fin.castSucc : Fin 2 → Fin 3)).observe
          ((implementation (Fin.castSucc : Fin 2 → Fin 3)).initial, .initial)).1
        (.synchronized 1)).isSome = true
      ∧ EveryStep (implementation (Fin.castSucc : Fin 2 → Fin 3)).observe
        (implementation (Fin.castSucc : Fin 2 → Fin 3)).ReturnsLate
        ((implementation (Fin.castSucc : Fin 2 → Fin 3)).initial, .initial)
        (sampleEvents ++ [.call (.synchronized 1)]) :=
  ⟨by decide, classic_returns_late (fun _ _ eq => Fin.castSucc_inj.mp eq) _⟩

end LinuxDoc.ToyRcu.Classic
