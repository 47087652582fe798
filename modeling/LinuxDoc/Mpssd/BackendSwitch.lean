import LinuxDoc.Foundations.Runs
import Mathlib.Tactic.Common

/-! The block thread and the SIGUSR1 handler that asks it to change its backend.
The thread reads the configuration first and clears the flag of the handler later; a signal
between the two leaves no trace.
-/

namespace LinuxDoc.Mpssd

open Foundations

/-- Where the `virtio_block` thread is. The flag is assigned at `clearWaiting` and
`clearServing`, the two `for` initialisers.
-/
inductive BlockPc where
  | openBackend
  | readConfig
  | openFile
  | clearWaiting
  | waitTest
  | waitSleep
  | startVirtblk
  | allocIovec
  | clearServing
  | serveTest
  | servePoll
  | freeIovec
  | stopVirtblk
  | closeBackend
  deriving DecidableEq, Repr

/-- The thread's position and flag, with two counts that only the specification reads: the
SIGUSR1 signals so far, and those before the last configuration read began.
-/
structure BlockState where
  pc : BlockPc
  signaled : Bool
  signals : Nat
  readAt : Nat
  deriving DecidableEq

inductive BlockAction where
  | thread (succeeds : Bool)
  | sigusr1
  deriving DecidableEq

def threadStep (state : BlockState) (succeeds : Bool) : BlockState :=
  match state.pc with
  -- `set_backend_file` opens the configuration file and then looks for the backend line.
  | .openBackend =>
      {
        state with
        pc := if succeeds then .readConfig else .clearWaiting
        readAt := state.signals
      }
  | .readConfig => { state with pc := if succeeds then .openFile else .clearWaiting }
  | .openFile => { state with pc := if succeeds then .startVirtblk else .clearWaiting }
  | .clearWaiting => { state with pc := .waitTest, signaled := false }
  | .waitTest => { state with pc := if state.signaled then .openBackend else .waitSleep }
  | .waitSleep => { state with pc := .waitTest }
  | .startVirtblk => { state with pc := if succeeds then .allocIovec else .closeBackend }
  | .allocIovec => { state with pc := if succeeds then .clearServing else .stopVirtblk }
  | .clearServing => { state with pc := .serveTest, signaled := false }
  | .serveTest => { state with pc := if state.signaled then .freeIovec else .servePoll }
  | .servePoll => { state with pc := .serveTest }
  | .freeIovec => { state with pc := .stopVirtblk }
  | .stopVirtblk => { state with pc := .closeBackend }
  | .closeBackend => { state with pc := .openBackend }

def changeVirtblkBackend (state : BlockState) : BlockState :=
  { state with signaled := true, signals := state.signals + 1 }

def blockStep (state : BlockState) : BlockAction → BlockState
  | .thread succeeds => threadStep state succeeds
  | .sigusr1 => changeVirtblkBackend state

def blockStart : BlockState :=
  ⟨.openBackend, false, 0, 0⟩

def BlockPc.inLoop : BlockPc → Bool
  | .waitTest | .waitSleep | .serveTest | .servePoll => true
  | _ => false

def BlockPc.clears : BlockPc → Bool
  | .clearWaiting | .clearServing => true
  | _ => false

/-- The last configuration read began after the most recent SIGUSR1. -/
def BlockState.Fresh (state : BlockState) : Prop :=
  state.readAt = state.signals

/-- A thread that stays in a loop acts on a configuration read after the last signal. -/
def NoLostChange (state : BlockState) : Prop :=
  state.pc.inLoop = true → state.signaled = false → state.Fresh

/-- The flag is not cleared after a signal that the last configuration read has missed. -/
def ClearsFresh (state : BlockState) : BlockAction → Prop
  | .thread _ => state.pc.clears = true → state.Fresh
  | .sigusr1 => True

/-- Inside the loops a step moves only the position, and leaves them for good once the flag
is set; it is entering them that can go wrong.
-/
theorem noLostChange_step (state : BlockState) (action : BlockAction)
    (h : NoLostChange state)
    : NoLostChange (blockStep state action) ↔ ClearsFresh state action := by
  obtain ⟨pc, signaled, signals, readAt⟩ := state
  cases action with
  | sigusr1 => simp [NoLostChange, ClearsFresh, blockStep, changeVirtblkBackend]
  | thread succeeds =>
      cases pc <;> cases signaled <;> cases succeeds <;>
        simp_all [NoLostChange, ClearsFresh, blockStep, threadStep, BlockPc.inLoop,
          BlockPc.clears, BlockState.Fresh]

/-- Over every run: no backend change is lost in any state exactly when no step clears the flag
after a signal that came since the configuration read began. One step at a time, by
`noLostChange_step`.
-/
theorem noLostChange_iff (actions : List BlockAction)
    : Always blockStep NoLostChange blockStart actions
      ↔ EveryStep blockStep ClearsFresh blockStart actions :=
  always_iff_everyStep blockStep NoLostChange ClearsFresh noLostChange_step actions
    blockStart (fun _ _ => rfl)

/-- A signal that arrives while the iovec array is allocated is forgotten: the thread
serves requests, with the flag clear, for a backend configured before the signal.
-/
theorem signal_lost
    : ¬ Always blockStep NoLostChange blockStart
        [.thread true, .thread true, .thread true, .thread true, .sigusr1, .thread true,
          .thread true] := by
  simp [Always, NoLostChange, blockStep, blockStart, threadStep, changeVirtblkBackend,
    BlockPc.inLoop, BlockState.Fresh]

end LinuxDoc.Mpssd
