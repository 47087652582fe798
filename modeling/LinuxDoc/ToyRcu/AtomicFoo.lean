import LinuxDoc.ToyRcu.GlobalFooSafety

/-! The structure behind `gbl_foo` as a register that tasks read and update at once.
A task that has a pointer to the structure reads what the register held when it took the
pointer, however often the structure is replaced meanwhile.
-/

namespace LinuxDoc.ToyRcu

open Foundations

variable {Task Addr : Type}

/-- The tasks' view of the structure, as if it were read and updated at once: its contents, and
what each task inside `foo_get_a` has read.
-/
structure Register (Task : Type) where
  value : Foo
  reads : Task → Option (BitVec 32)

def Point.reading (memory : Addr → Foo) : Point Addr → Option (BitVec 32)
  | .readA fp => some (memory fp).a
  | .readUnlock retval => some retval
  | _ => none

def register (s : State Task Addr) : Register Task where
  value := s.memory s.gblFoo
  reads := fun t => (s.point t).reading s.memory

section Steps

variable {s : State Task Addr} {m : RcuMonitor Task} {t : Task} {point : Point Addr}

/-- A structure that a task prepares is not behind `gbl_foo`, and no reader has a pointer to it. -/
theorem Invariant.unread (inv : Invariant s m) {newFp : Addr}
    (mine : (s.point t).owns = some newFp)
    (prepares : ∀ fp r, ¬ Retires m r fp t (s.point t)) {u : Task} {fp : Addr}
    (reads : s.point u = .readA fp)
    : fp ≠ newFp := by
  rintro rfl
  rcases inv.discipline.kept u fp reads with eq | ⟨v, retires⟩
  · exact (inv.ownership.owned t fp mine).2 eq
  · cases inv.ownership.alone _ _ _ mine retires.owns
    exact prepares fp u retires

variable [DecidableEq Task]

/-- What a task that moves makes of the register. -/
theorem register_goTo {s' : State Task Addr} (points : s'.point = s.point)
    (value : s'.memory s'.gblFoo = s.memory s.gblFoo)
    (reads : ∀ u, (s.point u).reading s'.memory = (s.point u).reading s.memory)
    : register (s'.goTo t point)
      = { register s with
          reads := Function.update (register s).reads t (point.reading s'.memory) } := by
  unfold register
  simp only [State.goTo, value, Register.mk.injEq, true_and]
  funext u
  by_cases same : u = t
  · subst same
    simp
  · simp [points, same, reads u]

/-- A task that moves and has read no more than before makes nothing of the register. -/
theorem register_goTo_quiet {s' : State Task Addr} (points : s'.point = s.point)
    (value : s'.memory s'.gblFoo = s.memory s.gblFoo)
    (reads : ∀ u, (s.point u).reading s'.memory = (s.point u).reading s.memory)
    (same : point.reading s'.memory = (s.point t).reading s.memory)
    : register (s'.goTo t point) = register s := by
  rw [register_goTo points value reads, same]
  simp [register]

variable [DecidableEq Addr] {impl : RcuImplementation Task} {sys : System impl Addr}

/-- The register is read by `rcu_dereference` and updated by `rcu_assign_pointer`; a read is
over at `rcu_read_unlock`, and nothing else has an effect.
-/
def effect (sys : System impl Addr) (r : Register Task) : Action impl Addr → Register Task
  | .advance t =>
      if impl.runs sys.rcu t then
        match sys.foo.point t with
        | .dereference => { r with reads := Function.update r.reads t (some r.value.a) }
        | .readUnlock _ =>
            match impl.call sys.rcu (.readUnlock t) with
            | some _ => { r with reads := Function.update r.reads t none }
            | none => r
        | .assign _ _ newA => { r with value := { r.value with a := newA } }
        | _ => r
      else r
  | _ => r

/-- A step has its effect on the register and no other. -/
def HasEffect (sys : System impl Addr) (action : Action impl Addr) : Prop :=
  register (step sys action).foo = effect sys (register sys.foo) action

/-- A write to a structure that a task prepares makes nothing of the register. -/
theorem Invariant.register_store (inv : Invariant s m) {newFp : Addr} {foo : Foo}
    (mine : (s.point t).owns = some newFp)
    (prepares : ∀ fp r, ¬ Retires m r fp t (s.point t))
    (quiet : (s.point t).reading s.memory = none)
    (still : point.reading (s.store newFp foo).memory = none)
    : register ((s.store newFp foo).goTo t point) = register s := by
  refine register_goTo_quiet rfl ?_ ?_ (still.trans quiet.symm)
  · exact Function.update_of_ne (inv.ownership.owned t newFp mine).2.symm _ _
  · intro u
    cases at_u : s.point u with
    | readA fp =>
        have ne := inv.unread mine prepares at_u
        simp [Point.reading, State.store, ne]
    | _ => rfl

/-- Every step of the system has its effect on the register, by cases on the point of the task
that moves.
-/
theorem register_step {graceful : impl.Graceful} (consistent : Consistent graceful sys)
    (action : Action impl Addr)
    : HasEffect sys action := by
  obtain ⟨m, _, inv⟩ := consistent
  unfold HasEffect
  have quiet (t : Task) {point : Point Addr} {s' : State Task Addr}
      (points : s'.point = sys.foo.point) (memory : s'.memory = sys.foo.memory)
      (current : s'.gblFoo = sys.foo.gblFoo)
      (same : point.reading sys.foo.memory = (sys.foo.point t).reading sys.foo.memory)
      : register (s'.goTo t point) = register sys.foo :=
    register_goTo_quiet points (by rw [memory, current]) (fun _ => by rw [memory])
      (by rw [memory, same])
  cases action with
  | internal i => rfl
  | get t =>
      unfold step effect
      dsimp only
      split
      · next allowed => exact quiet t rfl rfl rfl (by rw [allowed.2]; rfl)
      · rfl
  | update t newA newFp =>
      unfold step effect
      dsimp only
      split
      · next allowed => exact quiet t rfl rfl rfl (by rw [allowed.2.1]; rfl)
      · rfl
  | advance t =>
      unfold step effect
      dsimp only
      split
      · next runs =>
          have prepared := inv.exclusion.prepared t
          unfold advance
          cases at_point : sys.foo.point t with
          | outside => rfl
          | dereference => exact register_goTo rfl rfl (fun _ => rfl)
          | readUnlock retval =>
              dsimp only [System.call]
              cases impl.call sys.rcu (.readUnlock t) with
              | some rcu' => exact register_goTo rfl rfl (fun _ => rfl)
              | none => rfl
          | readLock | synchronize oldFp | synchronizing oldFp =>
              dsimp only [System.call]
              split
              · exact quiet t rfl rfl rfl (by rw [at_point]; rfl)
              · rfl
          | lock newFp newA =>
              dsimp only
              split
              · exact quiet t rfl rfl rfl (by rw [at_point]; rfl)
              · rfl
          | copy newFp oldFp newA | setA newFp oldFp newA =>
              exact inv.register_store (by rw [at_point]; rfl)
                (by rw [at_point]; exact fun _ _ h => h) (by rw [at_point]; rfl) rfl
          | assign newFp oldFp newA =>
              rw [at_point] at prepared
              obtain ⟨old, prepared⟩ := prepared
              unfold register
              simp only [State.goTo, Register.mk.injEq]
              refine ⟨by rw [prepared, old], ?_⟩
              funext u
              by_cases same : u = t
              · subst same
                simp [at_point, Point.reading]
              · simp [same]
          | _ => exact quiet t rfl rfl rfl (by rw [at_point]; rfl)
      · rfl

/-- Over both toy implementations and in every interleaving, as long as `kmalloc` succeeds: each step
of the system has exactly its effect on the register. So `foo_get_a` returns what `a` was when it
took the pointer, `foo_update_a` changes `a` alone, and no update is lost. The invariant of the
whole run says at each step what the pointers of the tasks lead to.
-/
theorem toyRcu_foo_atomic (gblFoo : Addr) (memory : Addr → Foo)
    : (∀ actions, EveryStep step HasEffect
          (start (Locking.implementation Task) gblFoo memory) actions)
      ∧ ∀ (n : Nat) (current : Fin n ↪ Task) (actions), EveryStep step HasEffect
          (start (Classic.implementation current) gblFoo memory) actions := by
  have atomic {impl : RcuImplementation Task} (graceful : impl.Graceful)
      (actions : List (Action impl Addr))
      : EveryStep step HasEffect (start impl gblFoo memory) actions :=
    (always_consistent graceful gblFoo memory actions).everyStep
      fun _ action consistent => register_step consistent action
  exact ⟨atomic (Locking.graceful Task),
    fun _ current => atomic (Classic.graceful current.injective)⟩

end Steps

end LinuxDoc.ToyRcu
