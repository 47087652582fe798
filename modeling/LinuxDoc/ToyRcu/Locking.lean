import LinuxDoc.Foundations.GracePeriod

/-! The toy implementation of RCU by a reader-writer lock. -/

namespace LinuxDoc.ToyRcu.Locking

open Foundations

variable {Task : Type}

inductive Phase where
  | outside
  /-- at `write_lock(&rcu_gp_mutex)` -/
  | writeLock
  /-- at `write_unlock(&rcu_gp_mutex)` -/
  | writeUnlock
  /-- about to return -/
  | returns
  deriving DecidableEq

/-- `rcu_gp_mutex`, by how often it is held for reading and by who holds it for writing, and
where each task is.
-/
structure State (Task : Type) where
  readers : Nat
  writer : Option Task
  phase : Task → Phase

variable [DecidableEq Task]

def call (s : State Task) : RcuCall Task → Option (State Task)
  | .readLock _ => if s.writer = none then some { s with readers := s.readers + 1 } else none
  | .readUnlock _ => some { s with readers := s.readers - 1 }
  | .synchronize t => some { s with phase := Function.update s.phase t .writeLock }
  | .synchronized t =>
      if s.phase t = .returns then some { s with phase := Function.update s.phase t .outside }
      else none

def internal (s : State Task) (t : Task) : State Task :=
  match s.phase t with
  | .writeLock =>
      if s.readers = 0 ∧ s.writer = none then
        { s with writer := some t, phase := Function.update s.phase t .writeUnlock }
      else s
  | .writeUnlock => { s with writer := none, phase := Function.update s.phase t .returns }
  | .outside | .returns => s

def implementation (Task : Type) [DecidableEq Task] : RcuImplementation Task where
  State := State Task
  Internal := Task
  initial := ⟨0, none, fun _ => .outside⟩
  call := call
  internal := internal
  runs := fun _ _ => true

/-- The lock is held for reading once for each open section, and whoever has had it for writing
waits for no section any more.
-/
structure Relates (s : State Task) (m : RcuMonitor Task) : Prop where
  sound : m.Sound
  readers : s.readers = m.readers.card
  waiting : ∀ t, m.waits t = none → s.phase t = .outside
  passed : ∀ t, s.phase t = .writeUnlock ∨ s.phase t = .returns → m.waits t = some 0

variable {m : RcuMonitor Task}

/-- A call keeps the relation to the monitor: the lock counts the sections. -/
theorem Relates.called {s s' : State Task} (h : Relates s m) (rcu : RcuCall Task)
    (legal : m.Legal rcu) (goes : call s rcu = some s')
    : Relates s' (m.record rcu) := by
  have sound := h.sound.record legal
  cases rcu with
  | readLock t =>
      simp only [call, Option.ite_none_right_eq_some, Option.some.injEq] at goes
      obtain ⟨_, rfl⟩ := goes
      refine ⟨sound, ?_, h.waiting, h.passed⟩
      simp [RcuMonitor.record, h.readers]
  | readUnlock t =>
      cases goes
      refine ⟨sound, ?_, ?_, ?_⟩
      · simp only [RcuMonitor.record, h.readers]
        rw [Multiset.card_erase_of_mem legal]
        rfl
      · intro u none
        exact h.waiting u (Option.map_eq_none_iff.mp none)
      · intro u at_phase
        simp [RcuMonitor.record, h.passed u at_phase]
  | synchronize t =>
      cases goes
      obtain ⟨_, readers, waiting, passed⟩ := h
      refine ⟨sound, readers, ?_, ?_⟩ <;>
        simp only [RcuMonitor.record, Function.update_apply] <;> grind
  | synchronized t =>
      simp only [call, Option.ite_none_right_eq_some, Option.some.injEq] at goes
      obtain ⟨_, rfl⟩ := goes
      obtain ⟨_, readers, waiting, passed⟩ := h
      refine ⟨sound, readers, ?_, ?_⟩ <;>
        simp only [RcuMonitor.record, Function.update_apply] <;> grind

theorem Relates.internal {s : State Task} (h : Relates s m) (t : Task)
    : Relates (internal s t) m := by
  -- a task in `synchronize_rcu` has a record of what it waits for
  have recorded (at_phase : s.phase t ≠ .outside) : ∃ sections, m.waits t = some sections :=
    Option.ne_none_iff_exists'.mp fun none => at_phase (h.waiting t none)
  have moved {phase : Phase} (gone : m.waits t = some 0) (writer : Option Task)
      : Relates { s with writer := writer, phase := Function.update s.phase t phase } m := by
    obtain ⟨sound, readers, waiting, passed⟩ := h
    refine ⟨sound, readers, ?_, ?_⟩ <;> simp only [Function.update_apply] <;> grind
  unfold Locking.internal
  split
  · next at_phase =>
      split
      · next free =>
          obtain ⟨sections, waits⟩ := recorded (by simp [at_phase])
          -- the lock is free of readers, so no section is open at all
          have none_open : m.readers = 0 := Multiset.card_eq_zero.mp (h.readers.symm.trans free.1)
          have none_left := h.sound.opened t sections waits
          rw [none_open, Multiset.le_zero] at none_left
          exact moved (none_left ▸ waits) _
      · exact h
  · next at_phase => exact moved (h.passed t (.inl at_phase)) _
  · exact h
  · exact h

theorem Relates.waited {s s' : State Task} (h : Relates s m) {t : Task}
    (goes : call s (.synchronized t) = some s')
    : m.waits t = some 0 := by
  simp only [call, Option.ite_none_right_eq_some] at goes
  exact h.passed t (.inr goes.1)

def graceful (Task : Type) [DecidableEq Task] : (implementation Task).Graceful where
  Relates := Relates
  initial := ⟨RcuMonitor.sound_initial, rfl, fun _ _ => rfl, by simp [implementation]⟩
  called := fun _ _ rcu _ h legal goes => h.called rcu legal goes
  internal := fun _ _ t h => h.internal t
  waited := fun _ _ _ _ h _ goes => h.waited goes

/-- Whatever the tasks do, `synchronize_rcu` of the implementation by a reader-writer lock returns
only after the end of every section, nested ones included, that was open when it was called. The
lock makes the implementation `Graceful`, from which it follows over every run.
-/
theorem locking_returns_late (Task : Type) [DecidableEq Task]
    (events : List (RcuImplementation.Event (implementation Task)))
    : EveryStep (implementation Task).observe (implementation Task).ReturnsLate
        ((implementation Task).initial, .initial) events :=
  (graceful Task).returnsLate events

end LinuxDoc.ToyRcu.Locking
