import Mathlib.Logic.Embedding.Basic
import LinuxDoc.ToyRcu.GlobalFoo

/-! `foo_update_a` and `foo_get_a` over a graceful implementation of RCU make no access to freed
memory.
-/

namespace LinuxDoc.ToyRcu

open Foundations

variable {Task Addr : Type}

def Point.reads : Point Addr → Bool
  | .dereference | .readA _ | .readUnlock _ => true
  | _ => false

def Point.waits : Point Addr → Bool
  | .synchronizing _ => true
  | _ => false

/-- The structure that only the task frees: its new one, and after the exchange the old one. -/
def Point.owns : Point Addr → Option Addr
  | .lock newFp _ | .loadOld newFp _ | .copy newFp _ _ | .setA newFp _ _ | .assign newFp _ _ =>
      some newFp
  | .unlock oldFp | .synchronize oldFp | .synchronizing oldFp | .kfree oldFp => some oldFp
  | _ => none

def Point.locked : Point Addr → Bool
  | .loadOld .. | .copy .. | .setA .. | .assign .. | .unlock _ => true
  | _ => false

def Point.accesses : Point Addr → List Addr
  | .readA fp => [fp]
  | .copy newFp oldFp _ => [newFp, oldFp]
  | .setA newFp _ _ => [newFp]
  | .kfree oldFp => [oldFp]
  | _ => []

def Prepared (s : State Task Addr) : Point Addr → Prop
  | .copy _ oldFp _ => oldFp = s.gblFoo
  | .setA newFp oldFp _ => oldFp = s.gblFoo ∧ s.memory newFp = s.memory oldFp
  | .assign newFp oldFp newA =>
      oldFp = s.gblFoo ∧ s.memory newFp = { s.memory oldFp with a := newA }
  | _ => True

/-- A task that has replaced the structure does not free it before the reader has left its
section.
-/
def Retires (m : RcuMonitor Task) (reader : Task) (fp : Addr) (u : Task) : Point Addr → Prop
  | .unlock oldFp | .synchronize oldFp => oldFp = fp
  | .synchronizing oldFp => oldFp = fp ∧ ∃ sections, m.waits u = some sections ∧ reader ∈ sections
  | _ => False

/-- Every structure is the current one or has one task that frees it. -/
structure Ownership (s : State Task Addr) : Prop where
  current : s.allocated s.gblFoo = true
  owned : ∀ t fp, (s.point t).owns = some fp → s.allocated fp = true ∧ fp ≠ s.gblFoo
  alone : ∀ t u fp, (s.point t).owns = some fp → (s.point u).owns = some fp → t = u

structure Exclusion (s : State Task Addr) : Prop where
  mutex : ∀ t, (s.point t).locked = true → s.fooMutex = some t
  prepared : ∀ t, Prepared s (s.point t)

/-- The tasks use the primitives as the record says, and what a reader has a pointer to is the
current structure or one that is not freed yet.
-/
structure Discipline (s : State Task Addr) (m : RcuMonitor Task) : Prop where
  reads : ∀ t, t ∈ m.readers ↔ (s.point t).reads = true
  once : m.readers.Nodup
  waits : ∀ t, m.waits t = none ↔ (s.point t).waits = false
  kept : ∀ t fp, s.point t = .readA fp → fp = s.gblFoo ∨ ∃ u, Retires m t fp u (s.point u)

structure Invariant (s : State Task Addr) (m : RcuMonitor Task) : Prop where
  ownership : Ownership s
  exclusion : Exclusion s
  discipline : Discipline s m

variable {point : Point Addr}

theorem Retires.owns {m : RcuMonitor Task} {reader u : Task} {fp : Addr}
    (h : Retires m reader fp u point)
    : point.owns = some fp := by
  cases point with
  | unlock oldFp | synchronize oldFp => exact congrArg some h
  | synchronizing oldFp => exact congrArg some h.1
  | _ => exact h.elim

/-- A structure stays retired if the wait of its task for the reader goes on. -/
theorem Retires.keep {m m' : RcuMonitor Task} {reader u : Task} {fp : Addr}
    (h : Retires m reader fp u point)
    (waits : ∀ sections, m.waits u = some sections → reader ∈ sections →
      ∃ later, m'.waits u = some later ∧ reader ∈ later)
    : Retires m' reader fp u point := by
  cases point with
  | synchronizing oldFp =>
      obtain ⟨same, sections, waiting, mem⟩ := h
      exact ⟨same, waits sections waiting mem⟩
  | _ => exact h

/-- What is prepared does not depend on the points. -/
theorem Prepared.congr {s s' : State Task Addr} (h : Prepared s point)
    (current : s'.gblFoo = s.gblFoo) (memory : s'.memory = s.memory)
    : Prepared s' point := by
  unfold Prepared at h ⊢
  rw [current, memory]
  exact h

theorem Prepared.of_unlocked {s : State Task Addr} (h : point.locked = false)
    : Prepared s point := by
  cases point with
  | copy | setA | assign => cases h
  | _ => trivial

section Steps

variable {s : State Task Addr} {m : RcuMonitor Task} {t : Task} {point : Point Addr}

/-- While a task holds `foo_mutex`, no other is at a point where it is held. -/
theorem Exclusion.others (h : Exclusion s) (locked : (s.point t).locked = true) {u : Task}
    (ne : u ≠ t)
    : (s.point u).locked = false := by
  by_contra at_lock
  have at_lock := h.mutex u (by simpa using at_lock)
  rw [h.mutex t locked] at at_lock
  exact ne (Option.some.inj at_lock).symm

/-- No task is about to read, write or free a structure that is not allocated. -/
def Safe (s : State Task Addr) : Prop :=
  ∀ t, ∀ fp ∈ (s.point t).accesses, s.allocated fp = true

theorem Invariant.safe (inv : Invariant s m) : Safe s := by
  obtain ⟨own, excl, disc⟩ := inv
  intro t fp mem
  have prepared := excl.prepared t
  have owned := own.owned t
  cases at_point : s.point t with
  | readA other =>
      rw [at_point] at mem
      cases List.mem_singleton.mp mem
      rcases disc.kept t fp at_point with rfl | ⟨u, retires⟩
      · exact own.current
      · exact (own.owned u fp retires.owns).1
  | copy newFp oldFp newA =>
      rw [at_point] at mem prepared owned
      simp only [Point.accesses, List.mem_cons, List.not_mem_nil, or_false] at mem
      rcases mem with rfl | rfl
      · exact (owned fp rfl).1
      · rw [show fp = s.gblFoo from prepared]
        exact own.current
  | setA newFp oldFp newA | kfree newFp =>
      rw [at_point] at mem owned
      cases List.mem_singleton.mp mem
      exact (owned fp rfl).1
  | _ =>
      rw [at_point] at mem
      cases mem

variable [DecidableEq Task] {s' : State Task Addr} {before : Point Addr}

theorem Ownership.goTo (h : Ownership s) (at_point : s.point t = before)
    (points : s'.point = s.point) (current : s'.gblFoo = s.gblFoo)
    (allocated : s'.allocated = s.allocated)
    (same : point.owns = none ∨ point.owns = before.owns)
    : Ownership (s'.goTo t point) := by
  obtain ⟨live, owned, alone⟩ := h
  refine ⟨?_, ?_, ?_⟩ <;>
    simp only [State.goTo, points, current, allocated, Function.update_apply] <;> grind

theorem Exclusion.goTo (h : Exclusion s) (at_point : s.point t = before)
    (points : s'.point = s.point) (current : s'.gblFoo = s.gblFoo)
    (memory : s'.memory = s.memory) (mutex : s'.fooMutex = s.fooMutex)
    (locked : point.locked = true → before.locked = true) (prepared : Prepared s point)
    : Exclusion (s'.goTo t point) := by
  obtain ⟨holds, others⟩ := h
  refine ⟨?_, fun u => Prepared.congr (s := s) ?_ current memory⟩ <;>
    simp only [State.goTo, points, mutex, Function.update_apply] <;> grind

theorem Discipline.goTo (h : Discipline s m) (at_point : s.point t = before)
    (points : s'.point = s.point) (current : s'.gblFoo = s.gblFoo)
    (reads : point.reads = before.reads) (waits : point.waits = before.waits)
    (kept : ∀ fp, point = .readA fp → fp = s.gblFoo)
    (retires : ∀ fp r, Retires m r fp t before → Retires m r fp t point)
    : Discipline (s'.goTo t point) m := by
  obtain ⟨reading, once, waiting, keeping⟩ := h
  refine ⟨?_, once, ?_, ?_⟩ <;>
    simp only [State.goTo, points, current, Function.update_apply] <;> grind

/-- While a task holds `foo_mutex`, what it prepares is all that is prepared. -/
theorem Exclusion.move (h : Exclusion s) (locked : (s.point t).locked = true)
    (mutex : point.locked = true → s'.fooMutex = some t)
    (points : s'.point = Function.update s.point t point) (prepared : Prepared s' point)
    : Exclusion s' := by
  refine ⟨fun u => ?_, fun u => ?_⟩ <;> rw [points] <;> by_cases same : u = t
  · subst same
    rwa [Function.update_self]
  · rw [Function.update_of_ne same, h.others locked same]
    simp
  · subst same
    rwa [Function.update_self]
  · rw [Function.update_of_ne same]
    exact .of_unlocked (h.others locked same)

/-- `spin_lock(&foo_mutex)` -/
theorem Exclusion.lock (h : Exclusion s) (free : s.fooMutex = none) (newFp : Addr)
    (newA : BitVec 32)
    : Exclusion ({ s with fooMutex := some t }.goTo t (.loadOld newFp newA)) := by
  obtain ⟨mutex, prepared⟩ := h
  refine ⟨?_, fun u => Prepared.congr (s := s) ?_ rfl rfl⟩ <;>
    simp only [State.goTo, Function.update_apply] <;> grind [Prepared]

/-- `rcu_assign_pointer`: the new structure is the current one, and the task has the old one to
free.
-/
theorem Ownership.assign (h : Ownership s) {newFp oldFp : Addr} {newA : BitVec 32}
    (at_point : s.point t = .assign newFp oldFp newA) (old : oldFp = s.gblFoo)
    : Ownership ({ s with gblFoo := newFp }.goTo t (.unlock oldFp)) := by
  obtain ⟨current, owned, alone⟩ := h
  refine ⟨?_, ?_, ?_⟩ <;> simp only [State.goTo, Function.update_apply] <;> grind [Point.owns]

theorem Discipline.assign (h : Discipline s m) {newFp oldFp : Addr} {newA : BitVec 32}
    (at_point : s.point t = .assign newFp oldFp newA) (old : oldFp = s.gblFoo)
    : Discipline ({ s with gblFoo := newFp }.goTo t (.unlock oldFp)) m := by
  obtain ⟨reads, once, waits, kept⟩ := h
  refine ⟨?_, once, ?_, ?_⟩ <;> simp only [State.goTo, Function.update_apply]
  · grind [Point.reads]
  · grind [Point.waits]
  · intro u fp at_read
    by_cases same : u = t
    · simp [same] at at_read
    · rw [if_neg same] at at_read
      right
      rcases kept u fp at_read with rfl | ⟨v, retires⟩
      · exact ⟨t, by simp [Retires, old]⟩
      · refine ⟨v, ?_⟩
        have ne : v ≠ t := by
          rintro rfl
          rw [at_point] at retires
          exact retires
        rwa [if_neg ne]

/-- A step of a task that changes nothing shared. -/
theorem Invariant.goTo (h : Invariant s m) (at_point : s.point t = before)
    (owns : point.owns = none ∨ point.owns = before.owns)
    (locked : point.locked = true → before.locked = true) (prepared : Prepared s point)
    (reads : point.reads = before.reads) (waits : point.waits = before.waits)
    (kept : ∀ fp, point = .readA fp → fp = s.gblFoo)
    (retires : ∀ fp r, Retires m r fp t before → Retires m r fp t point)
    : Invariant (s.goTo t point) m :=
  ⟨h.ownership.goTo at_point rfl rfl rfl owns,
    h.exclusion.goTo at_point rfl rfl rfl rfl locked prepared,
    h.discipline.goTo at_point rfl rfl reads waits kept retires⟩

/-- A call of a primitive by one task, after which it is not at the access to `a`: the readers
keep what they have pointers to if nothing is retired earlier for them.
-/
theorem Discipline.called (h : Discipline s m) {m' : RcuMonitor Task}
    (reads : ∀ u, u ∈ m'.readers ↔ if u = t then point.reads = true else u ∈ m.readers)
    (once : m'.readers.Nodup)
    (waits : ∀ u, m'.waits u = none ↔ if u = t then point.waits = false else m.waits u = none)
    (elsewhere : ∀ fp, point ≠ .readA fp)
    (mine : ∀ reader ∈ m.readers, ∀ fp, Retires m reader fp t (s.point t) →
      Retires m' reader fp t point)
    (others : ∀ reader ∈ m.readers, reader ≠ t → ∀ u ≠ t, ∀ sections, m.waits u = some sections →
      reader ∈ sections → ∃ later, m'.waits u = some later ∧ reader ∈ later)
    : Discipline (s.goTo t point) m' := by
  obtain ⟨reading, _, waiting, kept⟩ := h
  refine ⟨?_, once, ?_, ?_⟩ <;> simp only [State.goTo, Function.update_apply]
  · grind
  · grind
  · intro reader fp at_read
    by_cases moves : reader = t
    · rw [if_pos moves] at at_read
      exact absurd at_read (elsewhere fp)
    · rw [if_neg moves] at at_read
      have inside : reader ∈ m.readers := by
        rw [reading, at_read]
        rfl
      rcases kept reader fp at_read with current | ⟨u, retires⟩
      · exact .inl current
      · refine .inr ⟨u, ?_⟩
        split
        · next same =>
            subst same
            exact mine reader inside fp retires
        · next ne => exact retires.keep (others reader inside moves u ne)

theorem Discipline.readLock (h : Discipline s m) (at_point : s.point t = .readLock)
    : Discipline (s.goTo t .dereference) (m.record (.readLock t)) := by
  have outside : t ∉ m.readers := by
    rw [h.reads, at_point]
    simp [Point.reads]
  have unaware := h.waits t
  rw [at_point] at unaware
  refine h.called ?_ (Multiset.nodup_cons.mpr ⟨outside, h.once⟩) ?_ (by simp) ?_ ?_
  · simp only [RcuMonitor.record, Multiset.mem_cons]
    grind [Point.reads]
  · simp only [RcuMonitor.record]
    grind [Point.waits]
  · simp [at_point, Retires]
  · exact fun _ _ _ _ _ sections waits mem => ⟨sections, waits, mem⟩

theorem Discipline.readUnlock (h : Discipline s m) {retval : BitVec 32}
    (at_point : s.point t = .readUnlock retval)
    : Discipline (s.goTo t .outside) (m.record (.readUnlock t)) := by
  have unaware := h.waits t
  rw [at_point] at unaware
  refine h.called ?_ (h.once.erase t) ?_ (by simp) ?_ ?_
  · simp only [RcuMonitor.record, h.once.mem_erase_iff]
    grind [Point.reads]
  · simp only [RcuMonitor.record, Option.map_eq_none_iff]
    grind [Point.waits]
  · simp [at_point, Retires]
  · intro reader inside other u _ sections waits mem
    refine ⟨_, by simp only [RcuMonitor.record, waits]; rfl, ?_⟩
    exact Multiset.mem_inter.mpr ⟨mem, (Multiset.mem_erase_of_ne other).mpr inside⟩

theorem Discipline.synchronize (h : Discipline s m) {oldFp : Addr}
    (at_point : s.point t = .synchronize oldFp)
    : Discipline (s.goTo t (.synchronizing oldFp)) (m.record (.synchronize t)) := by
  have reading := h.reads t
  rw [at_point] at reading
  refine h.called ?_ h.once ?_ (by simp) ?_ ?_
  · grind [Point.reads, RcuMonitor.record]
  · simp only [RcuMonitor.record, Function.update_apply]
    grind [Point.waits]
  · intro reader inside fp retires
    rw [at_point] at retires
    exact ⟨retires, m.readers, Function.update_self .., inside⟩
  · exact fun _ _ _ u ne sections waits mem =>
      ⟨sections, (Function.update_of_ne ne _ _).trans waits, mem⟩

/-- After a grace period no reader has a pointer to the old structure. -/
theorem Discipline.synchronized (h : Discipline s m) {oldFp : Addr}
    (at_point : s.point t = .synchronizing oldFp) (waited : m.waits t = some 0)
    : Discipline (s.goTo t (.kfree oldFp)) (m.record (.synchronized t)) := by
  have reading := h.reads t
  rw [at_point] at reading
  refine h.called ?_ h.once ?_ (by simp) ?_ ?_
  · grind [Point.reads, RcuMonitor.record]
  · simp only [RcuMonitor.record, Function.update_apply]
    grind [Point.waits]
  · intro reader _ fp retires
    rw [at_point] at retires
    obtain ⟨_, sections, waits, mem⟩ := retires
    rw [waited, Option.some.injEq] at waits
    exact absurd (waits ▸ mem) (Multiset.notMem_zero reader)
  · exact fun _ _ _ u ne sections waits mem =>
      ⟨sections, (Function.update_of_ne ne _ _).trans waits, mem⟩

section Calls

variable {impl : RcuImplementation Task} {sys : System impl Addr}

def Consistent (graceful : impl.Graceful) (sys : System impl Addr) : Prop :=
  ∃ m, graceful.Relates sys.rcu m ∧ Invariant sys.foo m

/-- A call of a primitive keeps the system consistent if the call is legal and the record of it
fits the point that the task comes to.
-/
theorem Consistent.call {graceful : impl.Graceful} (consistent : Consistent graceful sys)
    (related : graceful.Relates sys.rcu m) (rcu : RcuCall Task) (legal : m.Legal rcu)
    (fits : ∀ rcu', impl.call sys.rcu rcu = some rcu' →
      Invariant (sys.foo.goTo t point) (m.record rcu))
    : Consistent graceful (sys.call t rcu point) := by
  unfold System.call
  split
  · next rcu' goes => exact ⟨_, graceful.called _ _ _ _ related legal goes, fits rcu' goes⟩
  · exact consistent

end Calls

variable [DecidableEq Addr]

theorem Ownership.kfree (h : Ownership s) {oldFp : Addr} (at_point : s.point t = .kfree oldFp)
    : Ownership ((s.setAllocated oldFp false).goTo t .outside) := by
  obtain ⟨current, owned, alone⟩ := h
  refine ⟨?_, ?_, ?_⟩ <;>
    simp only [State.goTo, State.setAllocated, Function.update_apply] <;> grind [Point.owns]

theorem Ownership.alloc (h : Ownership s) {newFp : Addr} (free : s.allocated newFp = false)
    (newA : BitVec 32)
    : Ownership ((s.setAllocated newFp true).goTo t (.lock newFp newA)) := by
  obtain ⟨current, owned, alone⟩ := h
  refine ⟨?_, ?_, ?_⟩ <;>
    simp only [State.goTo, State.setAllocated, Function.update_apply] <;> grind [Point.owns]

/-- A task with `foo_mutex` writes to the structure that it has allocated. -/
theorem Invariant.store (h : Invariant s m) (at_point : s.point t = before) {newFp : Addr}
    {foo : Foo} (locked : before.locked = true) (still : point.locked = true)
    (owns : point.owns = before.owns) (prepared : Prepared (s.store newFp foo) point)
    (reads : point.reads = before.reads) (waits : point.waits = before.waits)
    (retires : ∀ fp r, ¬ Retires m r fp t before)
    : Invariant ((s.store newFp foo).goTo t point) m := by
  obtain ⟨own, excl, disc⟩ := h
  refine ⟨own.goTo at_point rfl rfl rfl (.inr owns), ?_, ?_⟩
  · rw [← at_point] at locked
    exact excl.move locked (fun _ => excl.mutex t locked) rfl (prepared.congr rfl rfl)
  · refine disc.goTo at_point rfl rfl reads waits ?_ fun fp r h => absurd h (retires fp r)
    intro fp eq
    rw [eq] at still
    cases still

variable {impl : RcuImplementation Task} {sys : System impl Addr}

/-- The next access or call of a task keeps the system consistent, by cases on its point. -/
theorem Consistent.advance {graceful : impl.Graceful} (consistent : Consistent graceful sys)
    (t : Task)
    : Consistent graceful (advance sys t) := by
  obtain ⟨m, related, inv⟩ := id consistent
  have prepared := inv.exclusion.prepared t
  have own := inv.ownership
  have excl := inv.exclusion
  have disc := inv.discipline
  unfold ToyRcu.advance
  cases at_point : sys.foo.point t with
  | outside => exact consistent
  | readLock =>
      refine consistent.call related _ ?_ fun _ _ => ⟨own.goTo at_point rfl rfl rfl (.inl rfl), ?_,
        disc.readLock at_point⟩
      · exact (disc.waits t).mpr (by rw [at_point]; rfl)
      · exact excl.goTo at_point rfl rfl rfl rfl (by simp [Point.locked]) trivial
  | dereference =>
      refine ⟨m, related, inv.goTo at_point (.inl rfl) (by simp [Point.locked]) trivial rfl rfl ?_
        fun _ _ h => h⟩
      rintro fp ⟨⟩
      rfl
  | readA fp =>
      exact ⟨m, related, inv.goTo at_point (.inl rfl) (by simp [Point.locked]) trivial rfl rfl
        (by simp) fun _ _ h => h⟩
  | readUnlock retval =>
      refine consistent.call related _ ?_ fun _ _ =>
        ⟨own.goTo at_point rfl rfl rfl (.inl rfl), ?_, disc.readUnlock at_point⟩
      · exact (disc.reads t).mpr (by rw [at_point]; rfl)
      · exact excl.goTo at_point rfl rfl rfl rfl (by simp [Point.locked]) trivial
  | lock newFp newA =>
      dsimp only
      split
      · next free =>
          exact ⟨m, related, own.goTo at_point rfl rfl rfl (.inr rfl), excl.lock free newFp newA,
            disc.goTo at_point rfl rfl rfl rfl (by simp) fun _ _ h => h.elim⟩
      · exact consistent
  | loadOld newFp newA =>
      exact ⟨m, related, inv.goTo at_point (.inr rfl) (fun _ => rfl) rfl rfl rfl (by simp)
        fun _ _ h => h⟩
  | copy newFp oldFp newA =>
      rw [at_point] at prepared
      have mine := own.owned t newFp (by rw [at_point]; rfl)
      refine ⟨m, related, inv.store at_point rfl rfl rfl ?_ rfl rfl fun _ _ h => h⟩
      refine ⟨prepared, ?_⟩
      have ne : oldFp ≠ newFp := fun eq => mine.2 (eq.symm.trans prepared)
      simp [State.store, ne]
  | setA newFp oldFp newA =>
      rw [at_point] at prepared
      have mine := own.owned t newFp (by rw [at_point]; rfl)
      refine ⟨m, related, inv.store at_point rfl rfl rfl ?_ rfl rfl fun _ _ h => h⟩
      refine ⟨prepared.1, ?_⟩
      have ne : oldFp ≠ newFp := fun eq => mine.2 (eq.symm.trans prepared.1)
      simp [State.store, ne, prepared.2]
  | assign newFp oldFp newA =>
      -- the task gives the new structure away, and the old one becomes its own to free
      rw [at_point] at prepared
      refine ⟨m, related, own.assign at_point prepared.1, ?_, disc.assign at_point prepared.1⟩
      have locked : (sys.foo.point t).locked = true := by rw [at_point]; rfl
      exact excl.move locked (fun _ => excl.mutex t locked) rfl trivial
  | unlock oldFp =>
      have locked : (sys.foo.point t).locked = true := by rw [at_point]; rfl
      exact ⟨m, related, own.goTo at_point rfl rfl rfl (.inr rfl),
        excl.move locked (by simp [Point.locked]) rfl trivial,
        disc.goTo at_point rfl rfl rfl rfl (by simp) fun _ _ h => h⟩
  | synchronize oldFp =>
      refine consistent.call related _ ?_ fun _ _ =>
        ⟨own.goTo at_point rfl rfl rfl (.inr rfl), ?_, disc.synchronize at_point⟩
      · refine ⟨fun reading => ?_, (disc.waits t).mpr (by rw [at_point]; rfl)⟩
        rw [disc.reads, at_point] at reading
        cases reading
      · exact excl.goTo at_point rfl rfl rfl rfl (by simp [Point.locked]) trivial
  | synchronizing oldFp =>
      -- once this returns, no section is left that could have seen `oldFp`
      have legal : m.waits t ≠ none := by
        rw [ne_eq, disc.waits, at_point]
        simp [Point.waits]
      refine consistent.call related _ legal fun _ goes =>
        ⟨own.goTo at_point rfl rfl rfl (.inr rfl), ?_, disc.synchronized at_point ?_⟩
      · exact excl.goTo at_point rfl rfl rfl rfl (by simp [Point.locked]) trivial
      · exact graceful.waited _ _ _ _ related legal goes
  | kfree oldFp =>
      exact ⟨m, related, own.kfree at_point,
        excl.goTo at_point rfl rfl rfl rfl (by simp [Point.locked]) trivial,
        disc.goTo at_point rfl rfl rfl rfl (by simp) fun _ _ h => h.elim⟩

theorem Consistent.step {graceful : impl.Graceful} (consistent : Consistent graceful sys)
    (action : Action impl Addr)
    : Consistent graceful (step sys action) := by
  obtain ⟨m, related, inv⟩ := id consistent
  unfold ToyRcu.step
  cases action with
  | get t =>
      dsimp only
      split
      · next allowed =>
          exact ⟨m, related, inv.goTo allowed.2 (.inl rfl) (by simp [Point.locked]) trivial rfl rfl
            (by simp) fun _ _ h => h⟩
      · exact consistent
  | update t newA newFp =>
      dsimp only
      split
      · next allowed =>
          obtain ⟨_, at_point, free⟩ := allowed
          exact ⟨m, related, inv.ownership.alloc free newA,
            inv.exclusion.goTo at_point rfl rfl rfl rfl (by simp [Point.locked]) trivial,
            inv.discipline.goTo at_point rfl rfl rfl rfl (by simp) fun _ _ h => h.elim⟩
      · exact consistent
  | advance t =>
      dsimp only
      split
      · exact consistent.advance t
      · exact consistent
  | internal i => exact ⟨m, graceful.internal _ _ i related, inv⟩

theorem consistent_start (graceful : impl.Graceful) (gblFoo : Addr) (memory : Addr → Foo)
    : Consistent graceful (start impl gblFoo memory) := by
  refine ⟨.initial, graceful.initial, ⟨?_, ?_, ?_⟩, ⟨?_, ?_⟩, ⟨?_, ?_, ?_, ?_⟩⟩ <;>
    simp [start, RcuMonitor.initial, Point.owns, Point.locked, Point.reads, Point.waits, Prepared]

/-- Every run keeps the system consistent. -/
theorem always_consistent (graceful : impl.Graceful) (gblFoo : Addr) (memory : Addr → Foo)
    (actions : List (Action impl Addr))
    : Always step (Consistent graceful) (start impl gblFoo memory) actions :=
  always_of_preserved step _ (fun _ action consistent => consistent.step action) actions _
    (consistent_start graceful gblFoo memory)

/-- Over both toy implementations and in every interleaving, as long as `kmalloc` succeeds: no task
reads, writes or frees memory that is not allocated. In particular `kfree` comes after the last
access of every reader, and once for each structure. From the invariant, which every action keeps.
-/
theorem toyRcu_foo_safe (gblFoo : Addr) (memory : Addr → Foo)
    : (∀ actions, Always step (fun sys => Safe sys.foo)
          (start (Locking.implementation Task) gblFoo memory) actions)
      ∧ ∀ (n : Nat) (current : Fin n ↪ Task) (actions), Always step (fun sys => Safe sys.foo)
          (start (Classic.implementation current) gblFoo memory) actions := by
  have safe {impl : RcuImplementation Task} (graceful : impl.Graceful)
      (actions : List (Action impl Addr))
      : Always step (fun sys => Safe sys.foo) (start impl gblFoo memory) actions := by
    refine (always_consistent graceful gblFoo memory actions).imp fun sys consistent => ?_
    obtain ⟨_, _, inv⟩ := consistent
    exact inv.safe
  exact ⟨safe (Locking.graceful Task), fun _ current => safe (Classic.graceful current.injective)⟩

end Steps

end LinuxDoc.ToyRcu
