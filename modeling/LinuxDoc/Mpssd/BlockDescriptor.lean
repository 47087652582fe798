import LinuxDoc.Foundations.History
import Mathlib.Tactic.Common

/-! The descriptor `virtio_block_fd` of the block device. Each round of the loop in
`virtio_block` opens it anew; `add_virtio_device` tells nobody when it fails, and then the
number of the round before is used.
-/

namespace LinuxDoc.Mpssd.BlockDescriptor

open Foundations

inductive Call where
  | mmap
  | poll
  | ioctl
  | close
  deriving DecidableEq

inductive Entry where
  /-- `add_virtio_device` opens the device. -/
  | opens (fd : Nat)
  /-- `add_virtio_device` closes it again. -/
  | closes (fd : Nat)
  /-- A call gets `virtio_block_fd`. -/
  | uses (call : Call) (fd : Nat)
  deriving DecidableEq

def Entry.isClose (fd : Nat) : Entry → Bool
  | .closes closed => closed = fd
  | .uses .close closed => closed = fd
  | _ => false

structure Virtblk where
  virtioBlockFd : Nat
  log : List Entry
  deriving DecidableEq

def Virtblk.use (blk : Virtblk) (call : Call) : Virtblk :=
  { blk with log := .uses call blk.virtioBlockFd :: blk.log }

structure Request where
  header : Bool
  supported : Bool

structure Outcome where
  /-- `open_backend` -/
  backend : Bool
  /-- `blk_config` is aligned to 8 bytes. -/
  aligned : Bool
  /-- `open` of the device -/
  device : Option Nat
  /-- `MIC_VIRTIO_ADD_DEVICE` -/
  added : Bool
  /-- `mmap` in `init_vr` -/
  mapped : Bool
  /-- `malloc` of the vectors -/
  allocated : Bool
  /-- The requests that each `poll` finds, none if it fails or times out; after the last one
  the thread is signaled.
  -/
  polls : List (List Request)

def addVirtioDevice (blk : Virtblk) (outcome : Outcome) : Virtblk :=
  match outcome.device with
  | none => blk
  | some fd =>
      if outcome.added then { virtioBlockFd := fd, log := .opens fd :: blk.log }
      else { blk with log := .closes fd :: .opens fd :: blk.log }

def startVirtblk (blk : Virtblk) (outcome : Outcome) : Virtblk × Bool :=
  if outcome.aligned then ((addVirtioDevice blk outcome).use .mmap, outcome.mapped)
  else (blk, false)

def stopVirtblk (blk : Virtblk) : Virtblk :=
  blk.use .close

def serveRequests (blk : Virtblk) : List Request → Virtblk
  | [] => blk
  | request :: rest =>
      let blk := blk.use .ioctl
      if request.header then
        let blk := if request.supported then blk.use .ioctl else blk
        serveRequests (blk.use .ioctl) rest
      else blk

/-- The loop until the thread is signaled. The descriptor of `block_poll` is a copy. -/
def serve (pollFd : Nat) (blk : Virtblk) : List (List Request) → Virtblk
  | [] => blk
  | requests :: rest =>
      serve pollFd (serveRequests { blk with log := .uses .poll pollFd :: blk.log } requests) rest

def virtioBlockRound (fd : Nat) (outcome : Outcome) : Virtblk :=
  let blk : Virtblk := { virtioBlockFd := fd, log := [] }
  if outcome.backend then
    let (blk, started) := startVirtblk blk outcome
    if started then
      if outcome.allocated then stopVirtblk (serve blk.virtioBlockFd blk outcome.polls)
      else stopVirtblk blk
    else blk
  else blk

/-- `virtio_block`: the log of each round, where the descriptor is left for the next one -/
def virtioBlock (fd : Nat) : List Outcome → List (List Entry)
  | [] => []
  | outcome :: rest =>
      (virtioBlockRound fd outcome).log
        :: virtioBlock (virtioBlockRound fd outcome).virtioBlockFd rest

/-! What is asked of a round -/

def IsOpen (fd : Nat) : List Entry → Prop :=
  Since (fun entry => entry.isClose fd = false) (· = .opens fd)

instance (fd : Nat) : DecidablePred (IsOpen fd) :=
  decidableSince _ _

/-- Every descriptor that a call gets is open. -/
def UsesOpen : List Entry → Prop :=
  Throughout fun entry earlier => ∀ call fd, entry = .uses call fd → IsOpen fd earlier

/-- Every descriptor that is opened is closed once in the round. -/
def ClosesOnce (log : List Entry) : Prop :=
  ∀ later fd earlier, log = later ++ .opens fd :: earlier → later.countP (·.isClose fd) = 1

structure DescriptorsRight (log : List Entry) : Prop where
  uses : UsesOpen log
  closes : ClosesOnce log

/-- If the round gets as far as opening the device, then `open`, `MIC_VIRTIO_ADD_DEVICE` and
`mmap` all succeed.
-/
def Outcome.Starts (outcome : Outcome) : Prop :=
  outcome.backend = true → outcome.aligned = true →
    outcome.device.isSome = true ∧ outcome.added = true ∧ outcome.mapped = true

/-! A round that starts -/

structure Holds (fd : Nat) (blk : Virtblk) : Prop where
  current : blk.virtioBlockFd = fd
  uses : UsesOpen blk.log
  isOpen : IsOpen fd blk.log
  only : ∀ later opened earlier, blk.log = later ++ .opens opened :: earlier →
    opened = fd ∧ later.countP (·.isClose fd) = 0

/-- What was opened before a call was opened before it in the log. -/
theorem split_uses {call : Call} {fd opened : Nat} {log later earlier : List Entry}
    (eq : .uses call fd :: log = later ++ .opens opened :: earlier)
    : ∃ before, later = .uses call fd :: before ∧ log = before ++ .opens opened :: earlier := by
  cases later with
  | nil => cases eq
  | cons _ before =>
      obtain ⟨rfl, tail⟩ := List.cons.inj eq
      exact ⟨before, rfl, tail⟩

variable {fd : Nat} {blk : Virtblk}

/-- A call that does not close the descriptor. -/
theorem Holds.uses_cons (holds : Holds fd blk) (call : Call) (keeps : call ≠ .close)
    : Holds fd { blk with log := .uses call fd :: blk.log } := by
  have noClose : (Entry.uses call fd).isClose fd = false := by
    cases call with
    | close => exact absurd rfl keeps
    | _ => rfl
  exact {
    current := holds.current
    uses := by
      refine ⟨?_, holds.uses⟩
      rintro _ _ ⟨⟩
      exact holds.isOpen
    isOpen := .inr ⟨noClose, holds.isOpen⟩
    only := by
      intro later opened earlier eq
      obtain ⟨before, rfl, log_eq⟩ := split_uses eq
      obtain ⟨rfl, none⟩ := holds.only before opened earlier log_eq
      exact ⟨rfl, by rw [List.countP_cons_of_neg (by simp [noClose]), none]⟩
  }

theorem Holds.use (holds : Holds fd blk) (call : Call) (keeps : call ≠ .close)
    : Holds fd (blk.use call) := by
  have same : blk.use call = { blk with log := .uses call fd :: blk.log } := by
    rw [← holds.current]
    rfl
  rw [same]
  exact holds.uses_cons call keeps

theorem Holds.serveRequests (holds : Holds fd blk) (requests : List Request)
    : Holds fd (serveRequests blk requests) := by
  induction requests generalizing blk with
  | nil => exact holds
  | cons request rest ih =>
      have header : Holds fd (blk.use .ioctl) := holds.use .ioctl nofun
      rw [BlockDescriptor.serveRequests]
      dsimp only
      split
      · apply ih
        split
        · exact (header.use .ioctl nofun).use .ioctl nofun
        · exact header.use .ioctl nofun
      · exact header

theorem Holds.serve (holds : Holds fd blk) (polls : List (List Request))
    : Holds fd (serve fd blk polls) := by
  induction polls generalizing blk with
  | nil => exact holds
  | cons requests rest ih => exact ih ((holds.uses_cons .poll nofun).serveRequests requests)

/-- Closing the descriptor ends the round. -/
theorem Holds.stopVirtblk (holds : Holds fd blk)
    : DescriptorsRight (stopVirtblk blk).log := by
  rw [BlockDescriptor.stopVirtblk, Virtblk.use, holds.current]
  refine ⟨⟨?_, holds.uses⟩, ?_⟩
  · rintro _ _ ⟨⟩
    exact holds.isOpen
  · intro later opened earlier eq
    obtain ⟨before, rfl, log_eq⟩ := split_uses eq
    obtain ⟨rfl, none⟩ := holds.only before opened earlier log_eq
    rw [List.countP_cons_of_pos (by simp [Entry.isClose]), none]

theorem holds_opened (fd : Nat) : Holds fd { virtioBlockFd := fd, log := [.opens fd] } where
  current := rfl
  uses := by simp [UsesOpen]
  isOpen := .inl rfl
  only := by
    intro later opened earlier eq
    cases later with
    | nil =>
        obtain ⟨⟨⟩, _⟩ := List.cons.inj eq
        exact ⟨rfl, rfl⟩
    | cons _ later => simp at eq

/-! A round that does not start -/

theorem suffix_serveRequests (blk : Virtblk) (requests : List Request)
    : blk.log <:+ (serveRequests blk requests).log := by
  induction requests generalizing blk with
  | nil => exact List.suffix_rfl
  | cons request rest ih =>
      have grows (blk : Virtblk) : blk.log <:+ (blk.use .ioctl).log := List.suffix_cons _ _
      rw [serveRequests]
      dsimp only
      split
      · refine .trans ?_ (ih _)
        split
        · exact ((grows blk).trans (grows _)).trans (grows _)
        · exact (grows blk).trans (grows _)
      · exact grows blk

theorem suffix_serve (pollFd : Nat) (blk : Virtblk) (polls : List (List Request))
    : blk.log <:+ (serve pollFd blk polls).log := by
  induction polls generalizing blk with
  | nil => exact List.suffix_rfl
  | cons requests rest ih =>
      have polled : blk.log <:+ .uses .poll pollFd :: blk.log := List.suffix_cons _ _
      exact (polled.trans (suffix_serveRequests { blk with log := _ } requests)).trans (ih _)

/-- What `start_virtblk` has done stays in the log of the round. -/
theorem suffix_virtioBlockRound {outcome : Outcome} (backend : outcome.backend = true)
    : (startVirtblk { virtioBlockFd := fd, log := [] } outcome).1.log
      <:+ (virtioBlockRound fd outcome).log := by
  rw [virtioBlockRound, if_pos backend]
  dsimp only
  split
  · split
    · exact (suffix_serve _ _ _).trans (List.suffix_cons _ _)
    · exact List.suffix_cons _ _
  · exact List.suffix_rfl

/-- Without a device, `mmap` gets a descriptor that is not open. -/
theorem not_isOpen_addVirtioDevice {outcome : Outcome}
    (fails : ¬ (outcome.device.isSome = true ∧ outcome.added = true))
    : ¬ IsOpen (addVirtioDevice { virtioBlockFd := fd, log := [] } outcome).virtioBlockFd
        (addVirtioDevice { virtioBlockFd := fd, log := [] } outcome).log := by
  unfold addVirtioDevice
  cases device : outcome.device with
  | none => exact since_nil
  | some opened =>
      have refused : outcome.added = false := by
        by_contra added
        exact fails ⟨by simp [device], by simpa using added⟩
      -- the new descriptor is closed again, also if it has the number of the old one
      rw [refused]
      simp [IsOpen, Entry.isClose]

/-- A round uses its descriptors right exactly if it starts. -/
theorem virtioBlockRound_right_iff (fd : Nat) (outcome : Outcome)
    : DescriptorsRight (virtioBlockRound fd outcome).log ↔ outcome.Starts := by
  constructor
  · intro right backend aligned
    have start := right.uses.of_suffix (suffix_virtioBlockRound backend)
    rw [startVirtblk, if_pos aligned] at start
    obtain ⟨isSome, added⟩ := not_not.mp fun fails =>
      not_isOpen_addVirtioDevice fails (start.1 .mmap _ rfl)
    refine ⟨isSome, added, ?_⟩
    by_contra unmapped
    obtain ⟨opened, device⟩ := Option.isSome_iff_exists.mp isSome
    -- nothing closes the descriptor after `mmap` has failed
    have log : (virtioBlockRound fd outcome).log = [.uses .mmap opened] ++ [.opens opened] := by
      simp [virtioBlockRound, startVirtblk, addVirtioDevice, Virtblk.use, backend, aligned, device,
        added, unmapped]
    have none := right.closes _ _ _ log
    simp [Entry.isClose] at none
  · intro starts
    rw [virtioBlockRound]
    cases backend : outcome.backend with
    | false => exact ⟨throughout_nil, by simp [ClosesOnce]⟩
    | true =>
        cases aligned : outcome.aligned with
        | false =>
            exact ⟨by simp [startVirtblk, aligned, UsesOpen],
              by simp [startVirtblk, aligned, ClosesOnce]⟩
        | true =>
            obtain ⟨isSome, added, mapped⟩ := starts backend aligned
            obtain ⟨opened, device⟩ := Option.isSome_iff_exists.mp isSome
            have holds := (holds_opened opened).use .mmap nofun
            have start : startVirtblk { virtioBlockFd := fd, log := [] } outcome
                = (Virtblk.use { virtioBlockFd := opened, log := [.opens opened] } .mmap, true) := by
              simp [startVirtblk, addVirtioDevice, aligned, device, added, mapped]
            simp only [start, if_true]
            split
            · exact (holds.serve outcome.polls).stopVirtblk
            · exact holds.stopVirtblk

/-- Over all rounds, descriptors are used right exactly if every round that gets as far as opening
the device starts. By induction on the rounds.
-/
theorem virtioBlock_right_iff (fd : Nat) (outcomes : List Outcome)
    : (∀ log ∈ virtioBlock fd outcomes, DescriptorsRight log)
      ↔ ∀ outcome ∈ outcomes, outcome.Starts := by
  induction outcomes generalizing fd with
  | nil => simp [virtioBlock]
  | cons outcome rest ih =>
      rw [virtioBlock, List.forall_mem_cons, List.forall_mem_cons, virtioBlockRound_right_iff, ih]

def servedRound : Outcome where
  backend := true
  aligned := true
  device := some 5
  added := true
  mapped := true
  allocated := true
  polls := [[⟨true, true⟩]]

def refusedRound : Outcome where
  backend := true
  aligned := true
  device := none
  added := false
  mapped := false
  allocated := false
  polls := []

/-- In the second round `mmap` gets the descriptor that the first one closed. -/
theorem second_round_uses_closed
    : virtioBlock 0 [servedRound, refusedRound]
        = [
            [
              .uses .close 5, .uses .ioctl 5, .uses .ioctl 5, .uses .ioctl 5, .uses .poll 5,
              .uses .mmap 5, .opens 5
            ],
            [.uses .mmap 5]
          ]
      ∧ ¬ ∀ log ∈ virtioBlock 0 [servedRound, refusedRound], DescriptorsRight log := by
  refine ⟨by decide, fun right => ?_⟩
  have second : UsesOpen [.uses .mmap 5] := (right [.uses .mmap 5] (by decide)).uses
  exact since_nil (second.1 .mmap 5 rfl)

end LinuxDoc.Mpssd.BlockDescriptor
