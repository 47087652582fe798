import LinuxDoc.Foundations.Acquisition
import LinuxDoc.Foundations.Runs

/-! What the V4L2 PCI skeleton driver holds between `skeleton_probe` and `skeleton_remove`.
A probe that fails cleans up by its labels; one of its failures returns without any.
-/

namespace LinuxDoc.V4l2Skeleton.Binding

open Foundations Foundations.Acquisition

/-- What a probe acquires and neither the device core nor `devm` releases. -/
inductive Resource where
  | pciEnable
  | v4l2Device
  | ctrlHandler
  | allocCtx
  | videoDevice
  deriving DecidableEq

abbrev Err := { err : Int // err < 0 }

def enomem : Err := ⟨-12, by decide⟩

/-- What the callees of `skeleton_probe` return; `hdl->error` after the controls are added. -/
structure Callees where
  pciEnableDevice : Option Err
  pciSetDmaMask : Option Err
  devmKzalloc : Bool
  devmRequestIrq : Option Err
  v4l2DeviceRegister : Option Err
  ctrlHandlerError : Option Err
  vb2QueueInit : Option Err
  vb2DmaContigInitCtx : Option Err
  videoRegisterDevice : Option Err

def disablePci : List (Op Resource) :=
  [.release .pciEnable]

def freeHdl : List (Op Resource) :=
  [.release .ctrlHandler, .release .v4l2Device] ++ disablePci

def freeCtx : List (Op Resource) :=
  .release .allocCtx :: freeHdl

def probeInstance (callees : Callees) : Outcome Resource Err :=
  attempt callees.devmRequestIrq disablePci <|
  attempt callees.v4l2DeviceRegister disablePci <|
  acquire .v4l2Device <|
  acquire .ctrlHandler <|
  attempt callees.ctrlHandlerError freeHdl <|
  attempt callees.vb2QueueInit freeHdl <|
  attempt callees.vb2DmaContigInitCtx freeHdl <|
  acquire .allocCtx <|
  attempt callees.videoRegisterDevice freeCtx <|
  acquire .videoDevice .success

def skeletonProbe (callees : Callees) : Outcome Resource Err :=
  attempt callees.pciEnableDevice [] <|
  acquire .pciEnable <|
  attempt callees.pciSetDmaMask disablePci <|
  -- `return -ENOMEM`, where every failure around it goes to `disable_pci`.
  attempt (if callees.devmKzalloc then none else some enomem) [] <|
  probeInstance callees

def skeletonRemove : List (Op Resource) :=
  [.release .videoDevice, .release .ctrlHandler, .release .allocCtx, .release .v4l2Device,
    .release .pciEnable]

def bound : List Resource :=
  [.pciEnable, .v4l2Device, .ctrlHandler, .allocCtx, .videoDevice]

structure Device where
  isBound : Bool
  held : Resource → Int

def Device.initial : Device :=
  ⟨false, fun _ => 0⟩

inductive Call where
  | probe (callees : Callees)
  | remove

/-- The device core probes a device that is not bound, and removes one that is. -/
def step (dev : Device) : Call → Device
  | .probe callees =>
      if dev.isBound then dev
      else
        {
          isBound := (skeletonProbe callees).error.isNone
          held := fun resource => dev.held resource + net (skeletonProbe callees).ops resource
        }
  | .remove =>
      if dev.isBound then
        { isBound := false, held := fun resource => dev.held resource + net skeletonRemove resource }
      else dev

/-- Everything is held once while the device is bound, and nothing otherwise. -/
def HeldWhileBound (dev : Device) : Prop :=
  ∀ resource, dev.held resource = if dev.isBound then 1 else 0

/-- A probe that fails has released each resource as often as it acquired it. -/
def FailsCleanly (dev : Device) : Call → Prop
  | .probe callees =>
      dev.isBound = false → (skeletonProbe callees).error.isSome → ∀ resource,
        (skeletonProbe callees).ops.count (.release resource)
          = (skeletonProbe callees).ops.count (.acquire resource)
  | .remove => True

def OutOfMemory (callees : Callees) : Prop :=
  callees.pciEnableDevice = none ∧ callees.pciSetDmaMask = none ∧ callees.devmKzalloc = false

def Allocates (dev : Device) : Call → Prop
  | .probe callees => dev.isBound = false → ¬ OutOfMemory callees
  | .remove => True

theorem bound_count (resource : Resource) : bound.count resource = 1 := by
  cases resource <;> rfl

theorem disablePci_clears : Clears [.pciEnable] disablePci := by
  intro resource
  cases resource <;> rfl

theorem freeHdl_clears : Clears [.ctrlHandler, .v4l2Device, .pciEnable] freeHdl := by
  intro resource
  cases resource <;> rfl

theorem freeCtx_clears : Clears [.allocCtx, .ctrlHandler, .v4l2Device, .pciEnable] freeCtx := by
  intro resource
  cases resource <;> rfl

/-- Each label behind the allocation releases what is held where it is jumped from. -/
theorem probeInstance_inBalance (callees : Callees)
    : InBalance [.pciEnable] bound (probeInstance callees) := by
  refine inBalance_attempt_iff.mpr ⟨fun _ => disablePci_clears, fun _ => ?_⟩
  refine inBalance_attempt_iff.mpr ⟨fun _ => disablePci_clears, fun _ => ?_⟩
  refine inBalance_acquire_iff.mpr (inBalance_acquire_iff.mpr ?_)
  refine inBalance_attempt_iff.mpr ⟨fun _ => freeHdl_clears, fun _ => ?_⟩
  refine inBalance_attempt_iff.mpr ⟨fun _ => freeHdl_clears, fun _ => ?_⟩
  refine inBalance_attempt_iff.mpr ⟨fun _ => freeHdl_clears, fun _ => ?_⟩
  refine inBalance_acquire_iff.mpr ?_
  refine inBalance_attempt_iff.mpr ⟨fun _ => freeCtx_clears, fun _ => ?_⟩
  refine inBalance_acquire_iff.mpr (inBalance_success_iff.mpr ?_)
  intro resource
  cases resource <;> rfl

/-- Nothing clears the enabled device without a release. -/
theorem not_clears_nil : ¬ Clears [Resource.pciEnable] [] := by
  intro clears
  exact absurd (clears .pciEnable) (by decide)

theorem skeletonProbe_inBalance_iff (callees : Callees)
    : InBalance [] bound (skeletonProbe callees) ↔ ¬ OutOfMemory callees := by
  have nothing : Clears ([] : List Resource) [] := fun _ => rfl
  simp only [skeletonProbe, inBalance_attempt_iff, inBalance_acquire_iff, probeInstance_inBalance,
    disablePci_clears, not_clears_nil, nothing, OutOfMemory]
  cases callees.pciEnableDevice <;> cases callees.pciSetDmaMask <;>
    cases callees.devmKzalloc <;> simp

/-- What a probe out of memory does. -/
theorem skeletonProbe_outOfMemory {callees : Callees} (out : OutOfMemory callees)
    : skeletonProbe callees = ⟨some enomem, [.acquire .pciEnable]⟩ := by
  obtain ⟨enabled, masked, failed⟩ := out
  simp [skeletonProbe, attempt, acquire, enabled, masked, failed]

/-- The driver is bound by the calls that succeed, and holds what they have acquired. -/
theorem step_heldWhileBound_iff (dev : Device) (call : Call) (before : HeldWhileBound dev)
    : HeldWhileBound (step dev call) ↔ Allocates dev call := by
  cases call with
  | remove =>
      refine iff_of_true ?_ trivial
      rw [step]
      split
      next isBound =>
        intro resource
        have all : dev.held resource = 1 := (before resource).trans (if_pos isBound)
        simp only [all]
        cases resource <;> rfl
      · exact before
  | probe callees =>
      cases isBound : dev.isBound with
      | true =>
          have unchanged : step dev (.probe callees) = dev := if_pos isBound
          rw [unchanged]
          exact iff_of_true before fun isFree => absurd (isBound.symm.trans isFree) (by decide)
      | false =>
          rw [Allocates, ← skeletonProbe_inBalance_iff]
          have probed : step dev (.probe callees) = ⟨(skeletonProbe callees).error.isNone,
              fun resource => dev.held resource + net (skeletonProbe callees).ops resource⟩ :=
            if_neg (by simp [isBound])
          have empty (resource : Resource) : dev.held resource = 0 :=
            (before resource).trans (if_neg (by simp [isBound]))
          rw [probed]
          simp only [HeldWhileBound, InBalance, empty, isBound, forall_const, List.count_nil,
            bound_count]
          refine forall_congr' fun resource => ?_
          cases (skeletonProbe callees).error <;> rfl

theorem failsCleanly_iff (dev : Device) (call : Call)
    : FailsCleanly dev call ↔ Allocates dev call := by
  cases call with
  | remove => rfl
  | probe callees =>
      refine forall_congr' fun isFree => ?_
      constructor
      · intro clean out
        have released := clean (by simp [skeletonProbe_outOfMemory out]) .pciEnable
        rw [skeletonProbe_outOfMemory out] at released
        exact absurd released (by decide)
      · intro allocates failed resource
        have balanced := (skeletonProbe_inBalance_iff callees).mpr allocates resource
        rw [if_pos failed, List.count_nil, Nat.cast_zero, Int.zero_add] at balanced
        exact (net_eq_zero_iff _ _).mp balanced

/-- Over any sequence of probes and removals everything is held exactly while the driver is bound,
and every failing probe has released what it acquired, exactly if no probe comes to a failing
allocation of the instance. One call at a time, by `step_heldWhileBound_iff` and `failsCleanly_iff`.
-/
theorem heldWhileBound_iff (calls : List Call)
    : (Always step HeldWhileBound .initial calls ∧ EveryStep step FailsCleanly .initial calls)
      ↔ EveryStep step Allocates .initial calls := by
  have sameSteps : FailsCleanly = Allocates := by
    funext dev call
    exact propext (failsCleanly_iff dev call)
  have held := always_iff_everyStep step HeldWhileBound Allocates step_heldWhileBound_iff calls
    .initial fun _ => rfl
  rw [held, sameSteps, and_self]

def noMemory : Callees :=
  ⟨none, none, false, none, none, none, none, none, none⟩

/-- The failed probe leaves the PCI device enabled. -/
theorem noMemory_leaks
    : (skeletonProbe noMemory).error = some enomem
      ∧ (step .initial (.probe noMemory)).isBound = false
      ∧ (step .initial (.probe noMemory)).held .pciEnable = 1 := by
  exact ⟨rfl, rfl, rfl⟩

end LinuxDoc.V4l2Skeleton.Binding
