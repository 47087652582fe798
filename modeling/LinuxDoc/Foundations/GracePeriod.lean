import Mathlib.Data.Multiset.UnionInter
import Mathlib.Logic.Function.Basic
import LinuxDoc.Foundations.Runs

/-! Read-side sections and grace periods.
Tasks enter and leave read-side sections, which may nest, and wait for grace periods. A monitor
keeps on record which sections each waiting task has to wait for; an implementation is graceful
if it lets no task return before they have ended.
-/

namespace Foundations

universe u

inductive RcuCall (Task : Type u) where
  | readLock (t : Task)
  | readUnlock (t : Task)
  | synchronize (t : Task)
  | synchronized (t : Task)

/-- The sections that are open, each by its task, and for each waiting task those that were
open when it began to wait and still are.
-/
structure RcuMonitor (Task : Type u) where
  readers : Multiset Task
  waits : Task → Option (Multiset Task)

namespace RcuMonitor

variable {Task : Type u}

def initial : RcuMonitor Task := ⟨0, fun _ => none⟩

/-- The calls that a task may make: it leaves sections that it is in, and neither enters one nor
waits while it waits or is in one.
-/
def Legal (m : RcuMonitor Task) : RcuCall Task → Prop
  | .readLock t => m.waits t = none
  | .readUnlock t => t ∈ m.readers
  | .synchronize t => t ∉ m.readers ∧ m.waits t = none
  | .synchronized t => m.waits t ≠ none

/-- A record is sound if nobody waits for a section that is not open, or inside a section. -/
structure Sound (m : RcuMonitor Task) : Prop where
  opened : ∀ t sections, m.waits t = some sections → sections ≤ m.readers
  outside : ∀ t, m.waits t ≠ none → t ∉ m.readers

theorem sound_initial : (initial : RcuMonitor Task).Sound :=
  ⟨by simp [initial], by simp [initial]⟩

variable [DecidableEq Task]

instance legalDecidable (m : RcuMonitor Task)
    : (call : RcuCall Task) → Decidable (m.Legal call)
  | .readLock t => inferInstanceAs (Decidable (m.waits t = none))
  | .readUnlock t => inferInstanceAs (Decidable (t ∈ m.readers))
  | .synchronize t => inferInstanceAs (Decidable (t ∉ m.readers ∧ m.waits t = none))
  | .synchronized t => inferInstanceAs (Decidable (m.waits t ≠ none))

def record (m : RcuMonitor Task) : RcuCall Task → RcuMonitor Task
  | .readLock t => { m with readers := t ::ₘ m.readers }
  | .readUnlock t =>
      { readers := m.readers.erase t, waits := fun u => (m.waits u).map (· ∩ m.readers.erase t) }
  | .synchronize t => { m with waits := Function.update m.waits t (some m.readers) }
  | .synchronized t => { m with waits := Function.update m.waits t none }

/-- Legal calls keep the record sound. -/
theorem Sound.record {m : RcuMonitor Task} (sound : m.Sound) {call : RcuCall Task}
    (legal : m.Legal call)
    : (m.record call).Sound := by
  cases call with
  | readLock t =>
      refine ⟨fun u sections waits => ?_, fun u waits mem => ?_⟩
      · exact (sound.opened u sections waits).trans (Multiset.le_cons_self _ _)
      · rcases Multiset.mem_cons.mp mem with rfl | mem
        · exact waits legal
        · exact sound.outside u waits mem
  | readUnlock t =>
      refine ⟨fun u sections waits => ?_, fun u waits mem => ?_⟩
      · obtain ⟨before, _, rfl⟩ := Option.map_eq_some_iff.mp waits
        exact Multiset.inter_le_right
      · refine sound.outside u (fun none => waits ?_) (Multiset.mem_of_mem_erase mem)
        simp [RcuMonitor.record, none]
  | synchronize t =>
      obtain ⟨opened, outside⟩ := sound
      refine ⟨?_, ?_⟩ <;> simp only [RcuMonitor.record, Function.update_apply]
      · grind [le_refl]
      · grind [Legal]
  | synchronized t =>
      obtain ⟨opened, outside⟩ := sound
      refine ⟨?_, ?_⟩ <;> simp only [RcuMonitor.record, Function.update_apply] <;> grind

end RcuMonitor

/-- An implementation of the primitives. A call that cannot go on yet has no result, and a task
takes part only while it runs.
-/
structure RcuImplementation (Task : Type u) where
  State : Type u
  Internal : Type u
  initial : State
  call : State → RcuCall Task → Option State
  internal : State → Internal → State
  runs : State → Task → Bool

namespace RcuImplementation

variable {Task : Type u} [DecidableEq Task]

/-- An implementation with its proof: its states are related to records of the calls made, and
no wait returns while a section is open that it has to wait for.
-/
structure Graceful (impl : RcuImplementation Task) where
  Relates : impl.State → RcuMonitor Task → Prop
  initial : Relates impl.initial .initial
  called : ∀ s m call s', Relates s m → m.Legal call → impl.call s call = some s' →
    Relates s' (m.record call)
  internal : ∀ s m i, Relates s m → Relates (impl.internal s i) m
  waited : ∀ s m t s', Relates s m → m.Legal (.synchronized t) →
    impl.call s (.synchronized t) = some s' → m.waits t = some 0

inductive Event (impl : RcuImplementation Task) where
  | call (call : RcuCall Task)
  | internal (i : impl.Internal)

def observe (impl : RcuImplementation Task) (sm : impl.State × RcuMonitor Task)
    : Event impl → impl.State × RcuMonitor Task
  | .call call =>
      if sm.2.Legal call then
        match impl.call sm.1 call with
        | some s => (s, sm.2.record call)
        | none => sm
      else sm
  | .internal i => (impl.internal sm.1 i, sm.2)

/-- A step that returns from a wait comes after the end of all sections to wait for. -/
def ReturnsLate (impl : RcuImplementation Task) (sm : impl.State × RcuMonitor Task)
    (event : Event impl) : Prop :=
  ∀ t, event = .call (.synchronized t) → sm.2.Legal (.synchronized t) →
    (impl.call sm.1 (.synchronized t)).isSome → sm.2.waits t = some 0

/-- Whatever tasks do with a graceful implementation, waits return late enough. -/
theorem Graceful.returnsLate {impl : RcuImplementation Task} (graceful : impl.Graceful)
    (events : List (Event impl))
    : EveryStep impl.observe impl.ReturnsLate (impl.initial, .initial) events := by
  have stays (sm : impl.State × RcuMonitor Task) (event : Event impl)
      (related : graceful.Relates sm.1 sm.2)
      : graceful.Relates (impl.observe sm event).1 (impl.observe sm event).2 := by
    cases event with
    | internal i => exact graceful.internal _ _ i related
    | call call =>
        unfold observe
        dsimp only
        split
        · next legal =>
            split
            · next s eq => exact graceful.called _ _ call s related legal eq
            · exact related
        · exact related
  have late (sm : impl.State × RcuMonitor Task) (event : Event impl)
      (related : graceful.Relates sm.1 sm.2) : impl.ReturnsLate sm event := by
    intro t _ legal returns
    obtain ⟨s, eq⟩ := Option.isSome_iff_exists.mp returns
    exact graceful.waited _ _ t s related legal eq
  exact (always_of_preserved impl.observe (fun sm => graceful.Relates sm.1 sm.2) stays events _
    graceful.initial).everyStep late

end RcuImplementation

end Foundations
