import LinuxDoc.Foundations.History
import Mathlib.Tactic.Common

/-! The configuration thread of a card, which boots the card again after a suspend or a
restart. Two flags of the card, `restart` and `boot_on_resume`, carry what has to be done from
one thread to the next: `init_mic` makes a new one after each shutdown.
-/

namespace LinuxDoc.Mpssd.Config

open Foundations

inductive MicState where
  | offline
  | online
  | shuttingDown
  | resetFailed
  | suspending
  | suspended
  deriving DecidableEq

inductive ShutdownStatus where
  | nop
  | crashed
  | halted
  | powerOff
  | restart
  deriving DecidableEq

def getMicState (state : String) : Option MicState :=
  if state = "offline" then some .offline
  else if state = "online" then some .online
  else if state = "shutting_down" then some .shuttingDown
  else if state = "reset_failed" then some .resetFailed
  else if state = "suspending" then some .suspending
  else if state = "suspended" then some .suspended
  else none

def getMicShutdownStatus (status : String) : Option ShutdownStatus :=
  if status = "nop" then some .nop
  else if status = "crashed" then some .crashed
  else if status = "halted" then some .halted
  else if status = "poweroff" then some .powerOff
  else if status = "restart" then some .restart
  else none

inductive Place where
  /-- at the `fork` of `init_mic` -/
  | forking
  /-- at the `pthread_create` of `init_mic` -/
  | creating
  /-- in the loop of `mic_config` -/
  | configuring
  /-- in the loop of `mic_handle_shutdown` -/
  | shuttingDown (i : Nat)
  /-- at the label `reset` of `mic_handle_shutdown` -/
  | stopping
  /-- in the loop of `reset` -/
  | resetting (i : Nat)
  /-- there is no thread any more -/
  | ended
  deriving DecidableEq

inductive Entry where
  /-- `mic_config` has read the state. -/
  | stateRead (state : MicState)
  /-- `mic_handle_shutdown` is called, for a suspend or for another shutdown. -/
  | handlesShutdown (suspend : Bool)
  /-- `mic_handle_shutdown` has read `restart`. -/
  | restartRead
  | suspendWritten
  | resetWritten
  /-- `mic_config` writes `boot`. -/
  | bootOnOffline
  /-- `init_mic` writes `boot`. -/
  | bootOnRestart
  deriving DecidableEq

structure Card where
  place : Place
  restart : Bool
  bootOnResume : Bool
  /-- the newest entry first -/
  history : List Entry
  deriving DecidableEq

structure Answer where
  /-- They succeed. -/
  ok : Bool
  /-- The value that `readsysfs` returns, or `NULL`. -/
  text : Option String

/-- One round of the loop of `mic_config`. If one of `open`, `lseek`, `read` and `poll` fails,
a new thread is made, without a shutdown.
-/
def micConfig (card : Card) (answer : Answer) : Card :=
  if answer.ok = false then { card with place := .forking }
  else
    match answer.text with
    | none => card
    | some text =>
        match getMicState text with
        | none => { card with place := .ended }
        | some .shuttingDown =>
            {
              card with
              place := .shuttingDown 60
              history := .handlesShutdown false :: .stateRead .shuttingDown :: card.history
            }
        | some .suspending =>
            {
              card with
              place := .shuttingDown 60
              bootOnResume := true
              history := .handlesShutdown true :: .suspendWritten :: .stateRead .suspending
                :: card.history
            }
        | some .offline =>
            if card.bootOnResume then
              {
                card with
                bootOnResume := false
                history := .bootOnOffline :: .stateRead .offline :: card.history
              }
            else { card with history := .stateRead .offline :: card.history }
        | some state => { card with history := .stateRead state :: card.history }

def micHandleShutdown (card : Card) (answer : Answer) : Nat → Card
  | 0 => { card with place := .stopping }
  | i + 1 =>
      match answer.text with
      | none => card
      | some text =>
          match getMicShutdownStatus text with
          | none => { card with place := .ended }
          | some .restart =>
              {
                card with
                place := .stopping
                restart := true
                history := .restartRead :: card.history
              }
          | some .halted | some .powerOff | some .crashed => { card with place := .stopping }
          | some .nop => { card with place := .shuttingDown i }

def stopChild (card : Card) (answer : Answer) : Card :=
  if answer.ok then
    { card with place := .resetting 120, history := .resetWritten :: card.history }
  else { card with place := .forking }

def reset (card : Card) (answer : Answer) : Nat → Card
  | 0 => { card with place := .forking }
  | i + 1 =>
      if answer.text = some "offline" ∨ answer.text = some "suspended" then
        { card with place := .forking }
      else { card with place := .resetting i }

def initMic (card : Card) (answer : Answer) : Card :=
  if answer.ok = false then { card with place := .ended }
  else if card.restart then
    {
      card with
      place := .creating
      restart := false
      history := .bootOnRestart :: card.history
    }
  else { card with place := .creating }

def step (card : Card) (answer : Answer) : Card :=
  match card.place with
  | .forking => initMic card answer
  | .creating => { card with place := if answer.ok then .configuring else .ended }
  | .configuring => micConfig card answer
  | .shuttingDown i => micHandleShutdown card answer i
  | .stopping => stopChild card answer
  | .resetting i => reset card answer i
  | .ended => card

def initial : Card where
  place := .forking
  restart := false
  bootOnResume := false
  history := []

def run (answers : List Answer) : Card :=
  answers.foldl step initial

/-! What is asked of a history -/

/-- The last shutdown that was handled is a suspend. -/
def LastIsSuspend : List Entry → Prop :=
  Since (· ≠ .handlesShutdown false) (· = .handlesShutdown true)

instance : DecidablePred LastIsSuspend :=
  decidableSince _ _

/-- There is a suspend for which `mic_config` has not booted. -/
def SuspendOpen : List Entry → Prop :=
  Since (· ≠ .bootOnOffline) (· = .handlesShutdown true)

/-- There is a restart for which `init_mic` has not booted. -/
def RestartOpen : List Entry → Prop :=
  Since (· ≠ .bootOnRestart) (· = .restartRead)

/-- A boot on `offline` is after a suspend. -/
def BootsFollow : List Entry → Prop :=
  Throughout fun entry earlier => entry = .bootOnOffline → LastIsSuspend earlier

instance : DecidablePred BootsFollow :=
  decidableThroughout _

/-- Each boot is for a suspend or a restart that had none yet. -/
def BootsAnswer : List Entry → Prop :=
  Throughout fun entry earlier =>
    (entry = .bootOnOffline → SuspendOpen earlier) ∧ (entry = .bootOnRestart → RestartOpen earlier)

def statesRead (history : List Entry) : List MicState :=
  history.filterMap fun
    | .stateRead state => some state
    | _ => none

/-- A suspend, another shutdown and `offline` are read in this order, with no `offline` in
between and no suspend after the other shutdown.
-/
def StaleResume (states : List MicState) : Prop :=
  ∃ later down up earlier,
    states = later ++ .offline :: (down ++ .shuttingDown :: (up ++ .suspending :: earlier))
    ∧ .offline ∉ down ∧ .suspending ∉ down ∧ .offline ∉ up

/-! What a step can do -/

inductive Move (card : Card) : Card → Prop where
  | still (place : Place) : Move card { card with place }
  /-- a state at which nothing is done -/
  | reads (state : MicState) (suspend : state ≠ .suspending) (shutdown : state ≠ .shuttingDown)
      (offline : state = .offline → card.bootOnResume = false)
      : Move card { card with history := .stateRead state :: card.history }
  | shutsDown (place : Place)
      : Move card
          {
            card with
            place
            history := .handlesShutdown false :: .stateRead .shuttingDown :: card.history
          }
  | suspends (place : Place)
      : Move card
          {
            card with
            place
            bootOnResume := true
            history := .handlesShutdown true :: .suspendWritten :: .stateRead .suspending
              :: card.history
          }
  | boots (resume : card.bootOnResume = true)
      : Move card
          {
            card with
            bootOnResume := false
            history := .bootOnOffline :: .stateRead .offline :: card.history
          }
  | restarts (place : Place)
      : Move card
          { card with place, restart := true, history := .restartRead :: card.history }
  | resets (place : Place)
      : Move card { card with place, history := .resetWritten :: card.history }
  | reboots (place : Place) (restart : card.restart = true)
      : Move card
          { card with place, restart := false, history := .bootOnRestart :: card.history }

theorem move_micConfig (card : Card) (answer : Answer) : Move card (micConfig card answer) := by
  unfold micConfig
  split
  · exact .still _
  · split
    · exact .still card.place
    · split
      · exact .still _
      · exact .shutsDown _
      · exact .suspends _
      · split
        · rename_i resume
          exact .boots resume
        · rename_i resume
          exact .reads _ nofun nofun fun _ => by simpa using resume
      · rename_i state shutdown suspend offline _
        exact .reads state suspend shutdown fun is => absurd is offline

theorem move_micHandleShutdown (card : Card) (answer : Answer) (i : Nat)
    : Move card (micHandleShutdown card answer i) := by
  unfold micHandleShutdown
  split
  · exact .still _
  · split
    · exact .still card.place
    · split
      · exact .still _
      · exact .restarts _
      all_goals exact .still _

theorem step_move (card : Card) (answer : Answer) : Move card (step card answer) := by
  unfold step
  split
  · unfold initMic
    split
    · exact .still _
    · split
      · rename_i restart
        exact .reboots _ restart
      · exact .still _
  · exact .still _
  · exact move_micConfig card answer
  · exact move_micHandleShutdown card answer _
  · unfold stopChild
    split
    · exact .resets _
    · exact .still _
  · unfold reset
    split
    · exact .still _
    · split
      · exact .still _
      · exact .still _
  · exact .still card.place

/-! The predicates, entry by entry -/

section

variable {entry : Entry} {earlier : List Entry} {state : MicState} {states : List MicState}

/-- A suspend was read, and no `offline` since. -/
def ResumeOpen : List MicState → Prop :=
  Since (· ≠ .offline) (· = .suspending)

/-- The last shutdown that was read is a suspend. -/
def LastReadSuspend : List MicState → Prop :=
  Since (· ≠ .shuttingDown) (· = .suspending)

@[simp] theorem resumeOpen_cons
    : ResumeOpen (state :: states)
      ↔ state = .suspending ∨ (state ≠ .offline ∧ ResumeOpen states) :=
  since_cons

@[simp] theorem lastReadSuspend_cons
    : LastReadSuspend (state :: states)
      ↔ state = .suspending ∨ (state ≠ .shuttingDown ∧ LastReadSuspend states) :=
  since_cons

@[simp] theorem lastIsSuspend_cons
    : LastIsSuspend (entry :: earlier)
      ↔ entry = .handlesShutdown true
        ∨ (entry ≠ .handlesShutdown false ∧ LastIsSuspend earlier) :=
  since_cons

@[simp] theorem suspendOpen_cons
    : SuspendOpen (entry :: earlier)
      ↔ entry = .handlesShutdown true ∨ (entry ≠ .bootOnOffline ∧ SuspendOpen earlier) :=
  since_cons

@[simp] theorem restartOpen_cons
    : RestartOpen (entry :: earlier)
      ↔ entry = .restartRead ∨ (entry ≠ .bootOnRestart ∧ RestartOpen earlier) :=
  since_cons

@[simp] theorem bootsFollow_cons
    : BootsFollow (entry :: earlier)
      ↔ (entry = .bootOnOffline → LastIsSuspend earlier) ∧ BootsFollow earlier :=
  throughout_cons

@[simp] theorem bootsAnswer_cons
    : BootsAnswer (entry :: earlier)
      ↔ ((entry = .bootOnOffline → SuspendOpen earlier)
          ∧ (entry = .bootOnRestart → RestartOpen earlier))
        ∧ BootsAnswer earlier :=
  throughout_cons

@[simp] theorem statesRead_stateRead
    : statesRead (.stateRead state :: earlier) = state :: statesRead earlier :=
  rfl

@[simp] theorem statesRead_other (other : ∀ state, entry ≠ .stateRead state)
    : statesRead (entry :: earlier) = statesRead earlier := by
  cases entry with
  | stateRead state => exact absurd rfl (other state)
  | _ => rfl

end

/-- A resume is left open by another shutdown. -/
theorem open_after_shutdown_iff (states : List MicState)
    : ResumeOpen states ∧ ¬ LastReadSuspend states
      ↔ ∃ down up earlier, states = down ++ .shuttingDown :: (up ++ .suspending :: earlier)
        ∧ .offline ∉ down ∧ .suspending ∉ down ∧ .offline ∉ up := by
  constructor
  · intro ⟨resume, shutdown⟩
    induction states with
    | nil => exact absurd resume since_nil
    | cons state states ih =>
        rw [lastReadSuspend_cons, not_or, not_and_or, not_not] at shutdown
        obtain ⟨noSuspend, shutdown⟩ := shutdown
        obtain ⟨noOffline, resume⟩ := (resumeOpen_cons.mp resume).resolve_left noSuspend
        by_cases here : state = .shuttingDown
        · -- the suspend is further back
          obtain ⟨up, _, earlier, rfl, rfl, noneUp⟩ := since_iff_exists.mp resume
          exact ⟨[], up, earlier, by rw [here]; rfl, nofun, nofun,
            fun mem => noneUp _ mem rfl⟩
        · obtain ⟨down, up, earlier, rfl, noneDown, noSuspends, noneUp⟩ :=
            ih resume (shutdown.resolve_left here)
          refine ⟨state :: down, up, earlier, rfl, ?_, ?_, noneUp⟩
          · simp [Ne.symm noOffline, noneDown]
          · simp [Ne.symm noSuspend, noSuspends]
  · rintro ⟨down, up, earlier, rfl, noneDown, noSuspends, noneUp⟩
    induction down with
    | nil =>
        refine ⟨.inr ⟨nofun, since_iff_exists.mpr ⟨up, _, earlier, rfl, rfl, ?_⟩⟩, by simp⟩
        rintro state mem rfl
        exact noneUp mem
    | cons state down ih =>
        simp only [List.mem_cons, not_or] at noneDown noSuspends
        obtain ⟨resume, shutdown⟩ := ih noneDown.2 noSuspends.2
        refine ⟨.inr ⟨Ne.symm noneDown.1, resume⟩, ?_⟩
        rintro (rfl | ⟨_, last⟩)
        · exact noSuspends.1 rfl
        · exact shutdown last

@[simp] theorem staleResume_cons {state : MicState} {states : List MicState}
    : StaleResume (state :: states)
      ↔ (state = .offline ∧ ResumeOpen states ∧ ¬ LastReadSuspend states)
        ∨ StaleResume states := by
  rw [open_after_shutdown_iff]
  constructor
  · rintro ⟨later, down, up, earlier, eq, none⟩
    cases later with
    | nil =>
        obtain ⟨rfl, rfl⟩ := List.cons.inj eq
        exact .inl ⟨rfl, down, up, earlier, rfl, none⟩
    | cons _ later =>
        obtain ⟨rfl, rfl⟩ := List.cons.inj eq
        exact .inr ⟨later, down, up, earlier, rfl, none⟩
  · rintro (⟨rfl, down, up, earlier, rfl, none⟩ | ⟨later, down, up, earlier, rfl, none⟩)
    · exact ⟨[], down, up, earlier, rfl, none⟩
    · exact ⟨state :: later, down, up, earlier, rfl, none⟩

/-! The invariant -/

structure Coherent (card : Card) : Prop where
  resume : card.bootOnResume = true ↔ ResumeOpen (statesRead card.history)
  last : LastIsSuspend card.history ↔ LastReadSuspend (statesRead card.history)
  suspend : card.bootOnResume = true → SuspendOpen card.history
  restart : card.restart = true → RestartOpen card.history
  answer : BootsAnswer card.history
  follow : BootsFollow card.history ↔ ¬ StaleResume (statesRead card.history)

theorem Coherent.move {card next : Card} (coherent : Coherent card) (move : Move card next)
    : Coherent next := by
  obtain ⟨resume, last, suspend, restart, answer, follow⟩ := coherent
  cases move with
  | still => exact ⟨resume, last, suspend, restart, answer, follow⟩
  | reads state noSuspend noShutdown offline =>
      have closed (is : state = .offline) : ¬ ResumeOpen (statesRead card.history) := by
        rw [← resume, offline is]
        nofun
      exact {
        resume := by
          by_cases is : state = .offline
          · simp [is, resume, closed is]
          · simp [is, noSuspend, resume]
        last := by simpa [noSuspend, noShutdown] using last
        suspend := by simpa using suspend
        restart := by simpa using restart
        answer := by simpa using answer
        follow := by
          simp only [bootsFollow_cons, reduceCtorEq, false_implies, true_and, follow,
            statesRead_stateRead, staleResume_cons, not_or]
          exact ⟨fun none => ⟨fun stale => closed stale.1 stale.2.1, none⟩, And.right⟩
      }
  | shutsDown =>
      exact {
        resume := by simpa using resume
        last := by simp
        suspend := by simpa using suspend
        restart := by simpa using restart
        answer := by simpa using answer
        follow := by simpa using follow
      }
  | suspends =>
      exact {
        resume := by simp
        last := by simp
        suspend := by simp
        restart := by simpa using restart
        answer := by simpa using answer
        follow := by simpa using follow
      }
  | boots isOpen =>
      -- the one boot that may come after another shutdown
      exact {
        resume := by simp
        last := by simpa using last
        suspend := nofun
        restart := by simpa using restart
        answer := by simpa [suspend isOpen] using answer
        follow := by simp [last, follow, resume.mp isOpen]
      }
  | restarts =>
      exact {
        resume := by simpa using resume
        last := by simpa using last
        suspend := by simpa using suspend
        restart := by simp
        answer := by simpa using answer
        follow := by simpa using follow
      }
  | resets =>
      exact {
        resume := by simpa using resume
        last := by simpa using last
        suspend := by simpa using suspend
        restart := by simpa using restart
        answer := by simpa using answer
        follow := by simpa using follow
      }
  | reboots _ isOpen =>
      exact {
        resume := by simpa using resume
        last := by simpa using last
        suspend := by simpa using suspend
        restart := nofun
        answer := by simpa [restart isOpen] using answer
        follow := by simpa using follow
      }

theorem coherent_initial : Coherent initial where
  resume := by simp [initial, statesRead, ResumeOpen]
  last := by simp [initial, statesRead, LastIsSuspend, LastReadSuspend]
  suspend := nofun
  restart := nofun
  answer := throughout_nil
  follow := by simp [initial, statesRead, StaleResume, BootsFollow]

theorem coherent_run (answers : List Answer) : Coherent (run answers) :=
  List.foldlRecOn answers step coherent_initial
    fun card coherent answer _ => coherent.move (step_move card answer)

/-- In the history of a card, each boot is for a suspend or a restart of its own; and boots on
`offline` follow a suspend exactly if no resume is left open by another shutdown. By the invariant
`Coherent` between the history and what the daemon keeps of it.
-/
theorem boots_right_iff (answers : List Answer)
    : BootsFollow (run answers).history ∧ BootsAnswer (run answers).history
      ↔ ¬ StaleResume (statesRead (run answers).history) := by
  have coherent := coherent_run answers
  rw [coherent.follow]
  exact ⟨And.left, fun fresh => ⟨fresh, coherent.answer⟩⟩

def Answer.reads (text : String) : Answer := ⟨true, some text⟩

def Answer.succeeds : Answer := ⟨true, none⟩

def suspendBootHalt : List Answer :=
  [
    .succeeds, .succeeds,
    .reads "suspending", .reads "halted", .succeeds, .reads "suspended", .succeeds, .succeeds,
    .reads "suspended", .reads "online",
    .reads "shutting_down", .reads "halted", .succeeds, .reads "offline", .succeeds, .succeeds,
    .reads "offline"
  ]

/-- The card that was halted is booted. -/
theorem halted_boots
    : statesRead (run suspendBootHalt).history
        = [.offline, .shuttingDown, .online, .suspended, .suspending]
      ∧ (run suspendBootHalt).history.head? = some .bootOnOffline
      ∧ ¬ BootsFollow (run suspendBootHalt).history := by
  decide +kernel

end LinuxDoc.Mpssd.Config
