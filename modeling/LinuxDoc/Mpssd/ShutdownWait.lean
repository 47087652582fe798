import LinuxDoc.Foundations.Loop
import LinuxDoc.Mpssd.BootHistory
import Mathlib.Order.Nat
import Mathlib.Data.Nat.Count

/-! How often the two waiting loops of a shutdown read a file of the card.
Both count down once for each second; in `mic_handle_shutdown` a read that fails does not
count, in `reset` it does.
-/

namespace LinuxDoc.Mpssd.Config

open Foundations Foundations.Loop

def shutdownTimeout : Nat := 60

def resetTimeout : Nat := 120

def ShutdownStatus.text : ShutdownStatus → String
  | .nop => "nop"
  | .crashed => "crashed"
  | .halted => "halted"
  | .powerOff => "poweroff"
  | .restart => "restart"

theorem getMicShutdownStatus_text (status : ShutdownStatus)
    : getMicShutdownStatus status.text = some status := by
  cases status <;> decide

structure Wait where
  reads : Nat
  card : Card

abbrev Counter := Place → Option Nat

def shutdownCounter : Counter
  | .shuttingDown i => some i
  | _ => none

def resetCounter : Counter
  | .resetting i => some i
  | _ => none

def waitPass (counter : Counter) (body : Card → Answer → Nat → Card)
    (results : Nat → Option String) (wait : Wait)
    : Option (Pass Wait Wait) :=
  match counter wait.card.place with
  | none => some (.leave wait)
  | some 0 => some (.leave { wait with card := body wait.card ⟨true, none⟩ 0 })
  | some (i + 1) =>
      some (.again ⟨wait.reads + 1, body wait.card ⟨true, results wait.reads⟩ (i + 1)⟩)

def shutdownPass : (Nat → Option String) → Wait → Option (Pass Wait Wait) :=
  waitPass shutdownCounter micHandleShutdown

def resetPass : (Nat → Option String) → Wait → Option (Pass Wait Wait) :=
  waitPass resetCounter reset

def Card.moved (card : Card) (place : Place) : Card :=
  { card with place }

/-- The loop ends, after at most so many reads, and goes on at the given place. -/
def EndsWithin (pass : Wait → Option (Pass Wait Wait)) (start : Card) (limit : Nat)
    (place : Place)
    : Prop :=
  ∃ fuel final, Loop.run pass fuel ⟨0, start⟩ = some final
    ∧ final.reads ≤ limit ∧ final.card.place = place

def texts (statuses : Nat → Option ShutdownStatus) (n : Nat) : Option String :=
  (statuses n).map ShutdownStatus.text

section Shutdown

variable (card : Card) (statuses : Nat → Option ShutdownStatus)

def answered (n : Nat) : Nat :=
  n.count fun k => (statuses k).isSome = true

/-- A read and what it makes of the counter. -/
theorem shutdownPass_failed {n i : Nat} (failed : statuses n = none)
    : Continues (shutdownPass (texts statuses)) ⟨n, card.moved (.shuttingDown (i + 1))⟩
        ⟨n + 1, card.moved (.shuttingDown (i + 1))⟩ := by
  simp [Continues, shutdownPass, waitPass, shutdownCounter, Card.moved, micHandleShutdown, texts,
    failed]

theorem shutdownPass_nop {n i : Nat} (nop : statuses n = some .nop)
    : Continues (shutdownPass (texts statuses)) ⟨n, card.moved (.shuttingDown (i + 1))⟩
        ⟨n + 1, card.moved (.shuttingDown i)⟩ := by
  simp [Continues, shutdownPass, waitPass, shutdownCounter, Card.moved, micHandleShutdown, texts,
    nop, getMicShutdownStatus_text]

theorem shutdownPass_final {n i : Nat} {status : ShutdownStatus}
    (read : statuses n = some status) (final : status ≠ .nop)
    : ∃ stopped, Continues (shutdownPass (texts statuses))
        ⟨n, card.moved (.shuttingDown (i + 1))⟩ ⟨n + 1, stopped⟩ ∧ stopped.place = .stopping := by
  refine ⟨_, rfl, ?_⟩
  simp only [micHandleShutdown, texts, read, Option.map_some, getMicShutdownStatus_text]
  cases status with
  | nop => exact absurd rfl final
  | _ => rfl

theorem shutdownPass_stopped (results : Nat → Option String) {wait : Wait}
    (stopped : wait.card.place = .stopping)
    : shutdownPass results wait = some (.leave wait) := by
  simp [shutdownPass, waitPass, shutdownCounter, stopped]

theorem answered_succ (n : Nat)
    : answered statuses (n + 1)
      = answered statuses n + if (statuses n).isSome = true then 1 else 0 :=
  Nat.count_succ _ n

theorem answered_le (n : Nat) : answered statuses n ≤ n :=
  Nat.count_le _

/-- The card after a number of reads without a final status: the counter is what the answered
reads leave of it.
-/
def waiting (n : Nat) : Wait :=
  ⟨n, card.moved (.shuttingDown (shutdownTimeout - answered statuses n))⟩

/-- As long as not every second has been counted, the loop goes on. -/
theorem exists_counter {counted : Nat} (less : counted < shutdownTimeout)
    : ∃ i, shutdownTimeout - counted = i + 1 :=
  Nat.exists_eq_add_one.mpr (Nat.sub_pos_of_lt less)

theorem waiting_step {n : Nat} (counts : answered statuses n < shutdownTimeout)
    (quiet : statuses n = none ∨ statuses n = some .nop)
    : Continues (shutdownPass (texts statuses)) (waiting card statuses n)
        (waiting card statuses (n + 1)) := by
  obtain ⟨i, counter⟩ := exists_counter counts
  rcases quiet with failed | nop
  · have same : shutdownTimeout - answered statuses (n + 1) = i + 1 := by
      simpa [answered_succ, failed] using counter
    rw [waiting, waiting, counter, same]
    exact shutdownPass_failed card statuses failed
  · have less : shutdownTimeout - answered statuses (n + 1) = i := by
      rw [answered_succ, nop, Option.isSome_some, if_pos rfl]
      omega
    rw [waiting, waiting, counter, less]
    exact shutdownPass_nop card statuses nop

theorem reaches_waiting {n : Nat} (within : n ≤ shutdownTimeout)
    (quiet : ∀ k < n, statuses k = none ∨ statuses k = some .nop)
    : Reaches (shutdownPass (texts statuses))
        ⟨0, card.moved (.shuttingDown shutdownTimeout)⟩ (waiting card statuses n) := by
  induction n with
  | zero => exact .refl
  | succ n ih =>
      have before := ih (by omega) fun k below => quiet k (by omega)
      have counts : answered statuses n < shutdownTimeout :=
        lt_of_le_of_lt (answered_le statuses n) (by omega)
      exact before.tail (waiting_step card statuses counts (quiet n (by omega)))

def GivesFinal : Prop :=
  ∃ n < shutdownTimeout, ∃ status, statuses n = some status ∧ status ≠ .nop

def NoneFails : Prop :=
  ∀ n < shutdownTimeout, statuses n ≠ none

variable {statuses}

theorem quiet_of_not_final {n : Nat}
    (none : ¬ ∃ status, statuses n = some status ∧ status ≠ .nop)
    : statuses n = Option.none ∨ statuses n = some .nop := by
  cases read : statuses n with
  | none => exact .inl rfl
  | some status =>
      right
      by_contra other
      exact none ⟨status, read, fun nop => other (by rw [nop])⟩

/-- The first of the final statuses. -/
theorem GivesFinal.exists_first (final : GivesFinal statuses)
    : ∃ n < shutdownTimeout, (∃ status, statuses n = some status ∧ status ≠ .nop)
        ∧ ∀ k < n, statuses k = none ∨ statuses k = some .nop := by
  classical
  obtain ⟨n, within, given⟩ := final
  have found : ∃ n, ∃ status, statuses n = some status ∧ status ≠ .nop := ⟨n, given⟩
  refine ⟨Nat.find found, (Nat.find_min' found given).trans_lt within, Nat.find_spec found, ?_⟩
  exact fun k before => quiet_of_not_final (Nat.find_min found before)

/-- It ends the loop. -/
theorem GivesFinal.ends (final : GivesFinal statuses)
    : EndsWithin (shutdownPass (texts statuses)) (card.moved (.shuttingDown shutdownTimeout))
        shutdownTimeout .stopping := by
  obtain ⟨n, within, ⟨status, read, isFinal⟩, quiet⟩ := final.exists_first
  have reached := reaches_waiting card statuses within.le quiet
  obtain ⟨i, counter⟩ := exists_counter ((answered_le statuses n).trans_lt within)
  rw [waiting, counter] at reached
  obtain ⟨stopped, pass, place⟩ := shutdownPass_final card statuses read isFinal
  obtain ⟨fuel, returned⟩ := exists_run_iff.mpr
    ⟨_, reached.tail pass, shutdownPass_stopped (texts statuses) place⟩
  exact ⟨fuel, _, returned, Nat.succ_le_of_lt within, place⟩

/-- Without a final status, the loop ends when every read has counted. -/
theorem NoneFails.ends (noneFails : NoneFails statuses) (noFinal : ¬ GivesFinal statuses)
    : EndsWithin (shutdownPass (texts statuses)) (card.moved (.shuttingDown shutdownTimeout))
        shutdownTimeout .stopping := by
  have quiet : ∀ k < shutdownTimeout, statuses k = none ∨ statuses k = some .nop := by
    intro k before
    exact quiet_of_not_final fun given => noFinal ⟨k, before, given⟩
  have all : answered statuses shutdownTimeout = shutdownTimeout := by
    refine Nat.count_iff_forall.mpr fun k before => ?_
    exact Option.isSome_iff_ne_none.mpr (noneFails k before)
  have reached := reaches_waiting card statuses le_rfl quiet
  rw [waiting, all, Nat.sub_self] at reached
  obtain ⟨fuel, returned⟩ := exists_run_iff.mpr ⟨_, reached, rfl⟩
  exact ⟨fuel, _, returned, le_rfl, rfl⟩

def Unfinished (card : Card) (statuses : Nat → Option ShutdownStatus) (wait : Wait) : Prop :=
  (∃ n ≤ shutdownTimeout, wait = waiting card statuses n) ∨ shutdownTimeout < wait.reads

/-- A read that fails in time leaves the loop waiting when its time is over. -/
theorem unfinished_waiting (noFinal : ¬ GivesFinal statuses)
    (less : answered statuses shutdownTimeout < shutdownTimeout) {n : Nat}
    (inTime : n ≤ shutdownTimeout)
    : ∃ next, Continues (shutdownPass (texts statuses)) (waiting card statuses n) next
        ∧ Unfinished card statuses next := by
  rcases Nat.lt_or_eq_of_le inTime with before | rfl
  · have counts : answered statuses n < shutdownTimeout :=
      (answered_le statuses n).trans_lt before
    have quiet := quiet_of_not_final fun given => noFinal ⟨n, before, given⟩
    exact ⟨_, waiting_step card statuses counts quiet, .inl ⟨n + 1, before, rfl⟩⟩
  · obtain ⟨i, counter⟩ := exists_counter less
    rw [waiting, counter]
    exact ⟨_, rfl, .inr (Nat.lt_succ_self _)⟩

theorem not_ends_of_fails (noFinal : ¬ GivesFinal statuses) (fails : ¬ NoneFails statuses)
    : ¬ EndsWithin (shutdownPass (texts statuses)) (card.moved (.shuttingDown shutdownTimeout))
        shutdownTimeout .stopping := by
  have less : answered statuses shutdownTimeout < shutdownTimeout := by
    refine lt_of_le_of_ne (answered_le _ _) fun all => fails fun k before => ?_
    exact Option.isSome_iff_ne_none.mp (Nat.count_iff_forall.mp all k before)
  intro ends
  rcases ends with ⟨fuel, final, returned, within, _⟩
  have late : shutdownTimeout < final.reads := by
    refine run_result (Unfinished card statuses) (fun wait => shutdownTimeout < wait.reads) ?_
      (.inl ⟨0, Nat.zero_le _, rfl⟩) returned
    intro wait unfinished
    rcases unfinished with ⟨n, inTime, rfl⟩ | late
    · obtain ⟨next, pass, still⟩ := unfinished_waiting card noFinal less inTime
      rw [pass]
      exact .again still
    · unfold shutdownPass waitPass
      split
      · exact .leave late
      · exact .leave late
      · exact .again (.inr (Nat.lt_succ_of_lt late))
  omega

end Shutdown

/-- A failed read counts in `reset`, so it ends whatever is read. -/
theorem reset_ends (states : Nat → Option String) (card : Card) (i reads : Nat)
    : ∃ fuel final, Loop.run (resetPass states) fuel ⟨reads, card.moved (.resetting i)⟩ = some final
        ∧ final.reads ≤ reads + i ∧ final.card.place = .forking := by
  induction i generalizing reads with
  | zero => exact ⟨1, _, rfl, le_rfl, rfl⟩
  | succ i ih =>
      have pass
          : Continues (resetPass states) ⟨reads, card.moved (.resetting (i + 1))⟩
              ⟨reads + 1, reset (card.moved (.resetting (i + 1))) ⟨true, states reads⟩ (i + 1)⟩ :=
        rfl
      rw [reset] at pass
      split at pass
      · obtain ⟨fuel, returned⟩ := exists_run_iff.mpr ⟨_, .single pass, rfl⟩
        exact ⟨fuel, _, returned, Nat.add_le_add_left (Nat.le_add_left 1 i) reads, rfl⟩
      · obtain ⟨fuel, final, returned, within, place⟩ := ih (reads + 1)
        obtain ⟨last, reached, left⟩ := exists_run_iff.mp ⟨fuel, returned⟩
        obtain ⟨fuel, returned⟩ := exists_run_iff.mpr ⟨last, .head pass reached, left⟩
        exact ⟨fuel, final, returned, by omega, place⟩

/-- The loop of `mic_handle_shutdown` ends in time exactly if a final status is read in time or no
read fails; that of `reset` always does. Only a read that succeeds counts the time down, so that a
failed one leaves the loop late.
-/
theorem shutdown_ends_iff (card : Card) (statuses : Nat → Option ShutdownStatus)
    (states : Nat → Option String)
    : (EndsWithin (shutdownPass (texts statuses)) (card.moved (.shuttingDown shutdownTimeout))
          shutdownTimeout .stopping
        ↔ GivesFinal statuses ∨ NoneFails statuses)
      ∧ EndsWithin (resetPass states) (card.moved (.resetting resetTimeout)) resetTimeout
          .forking := by
  refine ⟨⟨fun ends => ?_, fun given => ?_⟩, ?_⟩
  · by_contra neither
    rw [not_or] at neither
    exact not_ends_of_fails card neither.1 neither.2 ends
  · by_cases final : GivesFinal statuses
    · exact final.ends card
    · exact (given.resolve_left final).ends card final
  · obtain ⟨fuel, final, returned, within, place⟩ := reset_ends states card resetTimeout 0
    exact ⟨fuel, final, returned, by omega, place⟩

/-- If the file can never be read, the loop does not end at all. -/
theorem unreadable_waits
    : ¬ Terminates (shutdownPass (texts fun _ => none))
        ⟨0, initial.moved (.shuttingDown shutdownTimeout)⟩
      ∧ ¬ EndsWithin (shutdownPass (texts fun _ => none))
          (initial.moved (.shuttingDown shutdownTimeout)) shutdownTimeout .stopping := by
  have waits : ¬ Terminates (shutdownPass (texts fun _ => none))
      ⟨0, initial.moved (.shuttingDown shutdownTimeout)⟩ := by
    refine not_terminates_of_trap
      (fun wait => wait.card = initial.moved (.shuttingDown shutdownTimeout)) ?_ rfl
    intro wait same
    obtain ⟨reads, card⟩ := wait
    obtain rfl : card = initial.moved (.shuttingDown shutdownTimeout) := same
    exact ⟨_, shutdownPass_failed initial (fun _ => none) rfl, rfl⟩
  refine ⟨waits, fun ends => ?_⟩
  rcases ends with ⟨fuel, final, returned, _⟩
  exact waits ⟨fuel, final, returned⟩

end LinuxDoc.Mpssd.Config
