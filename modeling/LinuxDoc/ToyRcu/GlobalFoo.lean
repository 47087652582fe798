import LinuxDoc.ToyRcu.Classic
import LinuxDoc.ToyRcu.Locking

/-! The global pointer that `foo_update_a` and `foo_get_a` share, over any implementation of
RCU. Tasks run the two functions on their own; an action is one access to what they share or
one call of a primitive, so that a run is any interleaving. Memory that is freed may be
allocated again at once. `kmalloc` succeeds: `foo_update_a` does not check its result.
-/

namespace LinuxDoc.ToyRcu

open Foundations

variable {Task Addr : Type}

structure Foo where
  a : BitVec 32
  b : BitVec 8
  c : BitVec 64
  deriving DecidableEq

inductive Point (Addr : Type) where
  | outside
  | readLock
  | dereference
  /-- the access to `a` behind the pointer -/
  | readA (fp : Addr)
  /-- `rcu_read_unlock`, with `retval` -/
  | readUnlock (retval : BitVec 32)
  /-- `spin_lock(&foo_mutex)`, with `new_fp` and `new_a` -/
  | lock (newFp : Addr) (newA : BitVec 32)
  /-- `old_fp = gbl_foo` -/
  | loadOld (newFp : Addr) (newA : BitVec 32)
  /-- `*new_fp = *old_fp` -/
  | copy (newFp oldFp : Addr) (newA : BitVec 32)
  /-- `new_fp->a = new_a` -/
  | setA (newFp oldFp : Addr) (newA : BitVec 32)
  /-- `rcu_assign_pointer(gbl_foo, new_fp)` -/
  | assign (newFp oldFp : Addr) (newA : BitVec 32)
  | unlock (oldFp : Addr)
  /-- the call of `synchronize_rcu` -/
  | synchronize (oldFp : Addr)
  /-- inside `synchronize_rcu` -/
  | synchronizing (oldFp : Addr)
  | kfree (oldFp : Addr)
  deriving DecidableEq

structure State (Task Addr : Type) where
  gblFoo : Addr
  memory : Addr → Foo
  allocated : Addr → Bool
  fooMutex : Option Task
  point : Task → Point Addr

structure System (impl : RcuImplementation Task) (Addr : Type) where
  foo : State Task Addr
  rcu : impl.State

inductive Action (impl : RcuImplementation Task) (Addr : Type) where
  /-- call `foo_get_a` -/
  | get (t : Task)
  /-- call `foo_update_a`: `kmalloc` succeeds and returns the address -/
  | update (t : Task) (newA : BitVec 32) (newFp : Addr)
  /-- the next access or call of the task -/
  | advance (t : Task)
  /-- a step inside the implementation of RCU -/
  | internal (i : impl.Internal)

section Steps

variable [DecidableEq Task] [DecidableEq Addr]

def State.goTo (s : State Task Addr) (t : Task) (point : Point Addr) : State Task Addr :=
  { s with point := Function.update s.point t point }

def State.store (s : State Task Addr) (fp : Addr) (foo : Foo) : State Task Addr :=
  { s with memory := Function.update s.memory fp foo }

def State.setAllocated (s : State Task Addr) (fp : Addr) (allocated : Bool)
    : State Task Addr :=
  { s with allocated := Function.update s.allocated fp allocated }

variable {impl : RcuImplementation Task}

def System.call (s : System impl Addr) (t : Task) (rcu : RcuCall Task) (point : Point Addr)
    : System impl Addr :=
  match impl.call s.rcu rcu with
  | some rcu' => ⟨s.foo.goTo t point, rcu'⟩
  | none => s

def advance (s : System impl Addr) (t : Task) : System impl Addr :=
  match s.foo.point t with
  | .outside => s
  | .readLock => s.call t (.readLock t) .dereference
  | .dereference => { s with foo := s.foo.goTo t (.readA s.foo.gblFoo) }
  | .readA fp => { s with foo := s.foo.goTo t (.readUnlock (s.foo.memory fp).a) }
  | .readUnlock _ => s.call t (.readUnlock t) .outside
  | .lock newFp newA =>
      if s.foo.fooMutex = none then
        { s with foo := { s.foo with fooMutex := some t }.goTo t (.loadOld newFp newA) }
      else s
  | .loadOld newFp newA => { s with foo := s.foo.goTo t (.copy newFp s.foo.gblFoo newA) }
  | .copy newFp oldFp newA =>
      { s with foo := (s.foo.store newFp (s.foo.memory oldFp)).goTo t (.setA newFp oldFp newA) }
  | .setA newFp oldFp newA =>
      let foo := s.foo.store newFp { s.foo.memory newFp with a := newA }
      { s with foo := foo.goTo t (.assign newFp oldFp newA) }
  | .assign newFp oldFp _ =>
      { s with foo := { s.foo with gblFoo := newFp }.goTo t (.unlock oldFp) }
  | .unlock oldFp => { s with foo := { s.foo with fooMutex := none }.goTo t (.synchronize oldFp) }
  | .synchronize oldFp => s.call t (.synchronize t) (.synchronizing oldFp)
  | .synchronizing oldFp => s.call t (.synchronized t) (.kfree oldFp)
  | .kfree oldFp => { s with foo := (s.foo.setAllocated oldFp false).goTo t .outside }

def step (s : System impl Addr) : Action impl Addr → System impl Addr
  | .get t =>
      if impl.runs s.rcu t ∧ s.foo.point t = .outside then
        { s with foo := s.foo.goTo t .readLock }
      else s
  | .update t newA newFp =>
      if impl.runs s.rcu t ∧ s.foo.point t = .outside ∧ s.foo.allocated newFp = false then
        { s with foo := (s.foo.setAllocated newFp true).goTo t (.lock newFp newA) }
      else s
  | .advance t => if impl.runs s.rcu t then advance s t else s
  | .internal i => { s with rcu := impl.internal s.rcu i }

def start (impl : RcuImplementation Task) (gblFoo : Addr) (memory : Addr → Foo)
    : System impl Addr where
  foo :=
    { gblFoo := gblFoo
      memory := memory
      allocated := fun fp => fp = gblFoo
      fooMutex := none
      point := fun _ => .outside }
  rcu := impl.initial

end Steps

end LinuxDoc.ToyRcu
