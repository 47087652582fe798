import LinuxDoc.Foundations.Runs
import LinuxDoc.V4l2Skeleton.Driver

/-! The format of the skeleton driver along every run of its ioctls.
It is always the one that the input, the standard and the timings call for, nothing of
this changes while there are buffers, and the buffers that vb2 allocates hold a frame.
-/

namespace LinuxDoc.V4l2Skeleton

open Foundations

structure Settings where
  input : UInt32
  std : StdId
  timings : DvTimings
  format : PixFormat

def Skeleton.settings (skel : Skeleton) : Settings :=
  ⟨skel.input, skel.std, skel.timings, skel.format⟩

def PixFormat.picture (pix : PixFormat)
    : UInt32 × UInt32 × UInt32 × Field × UInt32 × UInt32 × Colorspace :=
  (pix.width, pix.height, pix.pixelformat, pix.field, pix.bytesperline, pix.sizeimage,
    pix.colorspace)

/-- The format is what `skeleton_fill_pix_format` computes, whatever it is given to fill. -/
def Skeleton.Consistent (skel : Skeleton) : Prop :=
  ∀ pix, skel.format.picture = (fillPixFormat skel pix).picture

/-- The plane holds a frame of the format, if vb2 allocated it. -/
def Buffer.Fits (skel : Skeleton) (vb : Buffer) : Prop :=
  vb.memory = .mmap → skel.format.sizeimage ≤ vb.planeSize

variable {skel other : Skeleton}

/-- The picture depends on the input, the standard and the timings only. -/
theorem fillPixFormat_picture (input : other.input = skel.input) (std : other.std = skel.std)
    (timings : other.timings = skel.timings) (pix start : PixFormat)
    : (fillPixFormat other pix).picture = (fillPixFormat skel start).picture := by
  rw [fillPixFormat, fillPixFormat, input, std, timings]
  by_cases svideo : skel.input = 0
  · simp [svideo, PixFormat.picture]
  · by_cases interlaced : skel.timings.interlaced = 0 <;>
      simp [svideo, interlaced, PixFormat.picture]

variable {skel : Skeleton}

/-- A format that was filled under the present settings is consistent with them. -/
theorem Skeleton.consistent_of_filled {pix : PixFormat}
    (filled : skel.format = fillPixFormat skel pix)
    : skel.Consistent := by
  intro start
  rw [filled]
  exact fillPixFormat_picture rfl rfl rfl pix start

theorem Skeleton.Consistent.of_settings_eq (same : other.settings = skel.settings)
    (consistent : skel.Consistent)
    : other.Consistent := by
  rw [settings, settings, Settings.mk.injEq] at same
  rcases same with ⟨input, std, timings, format⟩
  intro pix
  rw [format, fillPixFormat_picture input std timings pix pix]
  exact consistent pix

theorem Buffer.Fits.of_settings_eq {vb : Buffer} (same : other.settings = skel.settings)
    (fits : vb.Fits skel)
    : vb.Fits other := by
  have format : other.format = skel.format := congrArg Settings.format same
  intro mmap
  rw [format]
  exact fits mmap

/-- What an action can do: it keeps the settings, and adds only buffers that hold a frame,
or it succeeds on a device without buffers and fills the format anew.
-/
inductive Effect (dev after : Device) (result : Except Errno Unit) : Prop where
  | kept
      (same : after.skel.settings = dev.skel.settings)
      (buffers : ∀ vb ∈ after.buffers, vb ∈ dev.buffers ∨ vb.Fits dev.skel)
  | refilled
      (idle : dev.busy = false)
      (succeeded : result = .ok ())
      (buffers : after.buffers = dev.buffers)
      (pix : PixFormat)
      (filled : after.skel.format = fillPixFormat after.skel pix)

/-- An ioctl that stops early changes nothing. -/
theorem Effect.unchanged (dev : Device) (result : Except Errno Unit)
    : Effect dev dev result :=
  .kept rfl (fun _ member => .inl member)

theorem sFmtVidCap_effect (f : PixFormat) (dev : Device)
    : Effect dev (sFmtVidCap f dev).1 (sFmtVidCap f dev).2 := by
  rw [sFmtVidCap, tryFmtVidCap]
  by_cases supported : f.pixelformat = v4l2PixFmtYuyv
  · cases busy : dev.busy with
    | true => simpa [supported] using Effect.unchanged dev _
    | false =>
        simp only [supported, ne_eq, not_true_eq_false, if_false, Bool.false_eq_true]
        exact .refilled busy rfl rfl f rfl
  · simpa [supported] using Effect.unchanged dev _

/-- A check that ends the ioctl early. -/
theorem Effect.guard {dev : Device} {stops : Prop} [Decidable stops] {early : Except Errno Unit}
    {rest : Device × Except Errno Unit} (passed : ¬ stops → Effect dev rest.1 rest.2)
    : Effect dev (if stops then (dev, early) else rest).1
        (if stops then (dev, early) else rest).2 := by
  split
  · exact .unchanged dev early
  next goesOn => exact passed goesOn

theorem sStd_effect (std : StdId) (dev : Device)
    : Effect dev (sStd std dev).1 (sStd std dev).2 := by
  refine .guard fun _ => .guard fun _ => .guard fun idle => ?_
  exact .refilled (by simpa using idle) rfl rfl dev.skel.format rfl

theorem sDvTimings_effect (kernel : Kernel) (timings : DvTimings) (dev : Device)
    : Effect dev (sDvTimings kernel timings dev).1 (sDvTimings kernel timings dev).2 := by
  refine .guard fun _ => .guard fun _ => ?_
  cases kernel.findDvTimingsCap timings with
  | none => exact .unchanged dev _
  | some preset =>
      refine .guard fun _ => .guard fun idle => ?_
      exact .refilled (by simpa using idle) rfl rfl dev.skel.format rfl

theorem sInput_effect (i : UInt32) (dev : Device)
    : Effect dev (sInput i dev).1 (sInput i dev).2 := by
  refine .guard fun _ => .guard fun idle => ?_
  exact .refilled (by simpa using idle) rfl rfl dev.skel.format rfl

/-- `queue_setup` touches only the current field, and a size that it accepts holds a frame.
-/
theorem queueSetup_cases {fileioActive : Bool} {numBuffers nbuffers : UInt32}
    {fmt : Option PixFormat} {result : Except Errno (UInt32 × UInt32)}
    (setup : queueSetup fileioActive numBuffers fmt nbuffers skel = (other, result))
    : other.settings = skel.settings
      ∧ ∀ count size, result = .ok (count, size) → skel.format.sizeimage ≤ size := by
  rw [queueSetup.eq_def] at setup
  dsimp only at setup
  split at setup
  · rcases Prod.mk.inj setup with ⟨rfl, rfl⟩
    exact ⟨rfl, by simp⟩
  -- Either way the field is all that differs from the state before.
  generalize chosen : ite (skel.format.field = .alternate) _ _ = started at setup
  have same : started.settings = skel.settings := by
    rw [← chosen]
    split <;> rfl
  have sizeimage : started.format.sizeimage = skel.format.sizeimage :=
    congrArg (fun settings => settings.format.sizeimage) same
  cases fmt with
  | none =>
      rcases Prod.mk.inj setup with ⟨rfl, rfl⟩
      refine ⟨same, ?_⟩
      intro count size returned
      cases returned
      rw [sizeimage]
      exact UInt32.le_refl _
  | some fmt =>
      dsimp only at setup
      split at setup
      · rcases Prod.mk.inj setup with ⟨rfl, rfl⟩
        exact ⟨same, by simp⟩
      · rename_i large
        rcases Prod.mk.inj setup with ⟨rfl, rfl⟩
        refine ⟨same, ?_⟩
        intro count size returned
        cases returned
        rw [← sizeimage]
        exact UInt32.not_lt.mp large

/-- Buffers of an accepted size hold a frame. -/
theorem BufferRequest.allocate_fits (request : BufferRequest) {nbuffers size : UInt32}
    (accepted : skel.format.sizeimage ≤ size)
    : ∀ vb ∈ request.allocate nbuffers size, vb.Fits skel := by
  intro vb member mmap
  rw [allocate] at member
  rcases List.eq_of_mem_replicate member with rfl
  have memory : request.memory = .mmap := mmap
  simpa [memory] using accepted

theorem reqbufs_effect (request : BufferRequest) (dev : Device)
    : Effect dev (reqbufs request dev).1 (reqbufs request dev).2 := by
  rw [reqbufs]
  cases request.refused with
  | some e => exact .unchanged dev _
  | none =>
      dsimp only
      split
      · exact .kept rfl (by simp)
      · rcases setup : queueSetup request.fileioActive 0 none request.count dev.skel with
          ⟨other, result⟩
        rcases queueSetup_cases setup with ⟨same, accepted⟩
        cases result with
        | error e => exact .kept same (by simp)
        | ok sizes =>
            refine .kept same ?_
            intro vb member
            exact .inr (request.allocate_fits (accepted _ _ rfl) vb member)

theorem createBufs_effect (request : BufferRequest) (format : PixFormat) (dev : Device)
    : Effect dev (createBufs request format dev).1 (createBufs request format dev).2 := by
  rw [createBufs]
  cases request.refused with
  | some e => exact .unchanged dev _
  | none =>
      dsimp only
      split
      · exact .unchanged dev _
      · rcases setup : queueSetup request.fileioActive dev.buffers.length.toUInt32
          (some format) request.count dev.skel with ⟨other, result⟩
        rcases queueSetup_cases setup with ⟨same, accepted⟩
        cases result with
        | error e => exact .kept same (fun _ member => .inl member)
        | ok sizes =>
            refine .kept same ?_
            intro vb member
            rcases List.mem_append.mp member with old | new
            · exact .inl old
            · exact .inr (request.allocate_fits (accepted _ _ rfl) vb new)

theorem perform_effect (kernel : Kernel) (dev : Device) (action : Action)
    : Effect dev (perform kernel dev action).1 (perform kernel dev action).2 := by
  cases action with
  | sFmt f => exact sFmtVidCap_effect f dev
  | tryFmt f => exact .unchanged dev _
  | sStd std => exact sStd_effect std dev
  | sDvTimings timings => exact sDvTimings_effect kernel timings dev
  | sInput i => exact sInput_effect i dev
  | reqbufs request => exact reqbufs_effect request dev
  | createBufs request format => exact createBufs_effect request format dev
  | release => exact .kept rfl (by simp [perform])

def after (kernel : Kernel) (dev : Device) (action : Action) : Device :=
  (perform kernel dev action).1

theorem after_consistent (kernel : Kernel) (dev : Device) (action : Action)
    (consistent : dev.skel.Consistent)
    : (after kernel dev action).skel.Consistent := by
  cases perform_effect kernel dev action with
  | kept same _ => exact consistent.of_settings_eq same
  | refilled _ _ _ pix filled => exact Skeleton.consistent_of_filled filled

/-- Only a successful ioctl on a device without buffers changes the settings. -/
theorem after_settings (kernel : Kernel) (dev : Device) (action : Action)
    (fixed : dev.busy = true ∨ (perform kernel dev action).2 ≠ .ok ())
    : (after kernel dev action).skel.settings = dev.skel.settings := by
  cases perform_effect kernel dev action with
  | kept same _ => exact same
  | refilled idle succeeded _ _ _ =>
      rcases fixed with busy | failed
      · rw [idle] at busy
        cases busy
      · exact absurd succeeded failed

/-- From probing on, the format is always the one that the input, the standard and the timings call
for; and no action changes one of the four while there are buffers, or when it returns an error.
Every action keeps both, and so does a run.
-/
theorem format_consistent (kernel : Kernel) (actions : List Action)
    : Always (after kernel) (fun dev => dev.skel.Consistent) (probe kernel) actions
      ∧ EveryStep (after kernel)
          (fun dev action =>
            dev.busy = true ∨ (perform kernel dev action).2 ≠ .ok () →
              (after kernel dev action).skel.settings = dev.skel.settings)
          (probe kernel) actions := by
  constructor
  · apply always_of_preserved _ _ (after_consistent kernel)
    exact Skeleton.consistent_of_filled rfl
  · exact everyStep_of_forall _ _ (after_settings kernel) actions (probe kernel)

def Device.BuffersFit (dev : Device) : Prop :=
  ∀ vb ∈ dev.buffers, vb.Fits dev.skel

theorem after_buffersFit (kernel : Kernel) (dev : Device) (action : Action)
    (fit : dev.BuffersFit)
    : (after kernel dev action).BuffersFit := by
  intro vb member
  cases perform_effect kernel dev action with
  | kept same buffers =>
      refine Buffer.Fits.of_settings_eq same ?_
      rcases buffers vb member with old | fits
      · exact fit vb old
      · exact fits
  | refilled idle _ buffers _ _ =>
      -- Without buffers there is none that the new format could outgrow.
      have none : dev.buffers = [] := by simpa [Device.busy] using idle
      rw [after, buffers, none] at member
      cases member

/-- `buffer_prepare` accepts a buffer that holds a frame. -/
theorem bufferPrepare_of_fits {vb : Buffer} (fits : vb.Fits skel) (mmap : vb.memory = .mmap)
    : bufferPrepare skel vb = .ok skel.format.sizeimage := by
  rw [bufferPrepare, if_neg (UInt32.not_lt.mpr (fits mmap))]

/-- Along every run each buffer that vb2 allocated holds a frame of the current format, so that
`buffer_prepare` accepts it. By the invariant `BuffersFit`: only without buffers does the format
change.
-/
theorem allocatedBuffers_prepared (kernel : Kernel) (actions : List Action)
    : Always (after kernel)
        (fun dev => ∀ vb ∈ dev.buffers, vb.memory = .mmap →
          dev.skel.format.sizeimage ≤ vb.planeSize
          ∧ bufferPrepare dev.skel vb = .ok dev.skel.format.sizeimage)
        (probe kernel) actions := by
  have fit : Always (after kernel) Device.BuffersFit (probe kernel) actions := by
    apply always_of_preserved _ _ (after_buffersFit kernel)
    intro vb member
    cases member
  refine fit.imp ?_
  intro dev fit vb member mmap
  exact ⟨fit vb member mmap, bufferPrepare_of_fits (fit vb member) mmap⟩

end LinuxDoc.V4l2Skeleton
