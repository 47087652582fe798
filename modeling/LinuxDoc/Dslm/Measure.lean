import Mathlib.Data.Nat.Count
import LinuxDoc.Foundations.Loop

/-! The measuring loop of the disk sleep monitor dslm, with SIGINT arriving at any point.
`endit` is tested by the loop and by the branch inside it, and the number of changes is
corrected once after the loop, as if the signal always came between these two tests.
-/

namespace LinuxDoc.Dslm

open Foundations.Loop

inductive DiskState where
  | active
  | sleeping
  | unknown
  deriving DecidableEq, Repr

/-- One `HDIO_DRIVE_CMD`: whether it failed, `errno` then, and the first bytes of `args` after
it.
-/
structure DriveCmd where
  failed : Bool
  errno : Nat
  args0 : UInt8
  args1 : UInt8
  args2 : UInt8

def eio : Nat := 5

def checkPowermode (first second : DriveCmd) : DiskState :=
  if first.failed = true ∧ second.failed = true then
    if second.errno ≠ eio ∨ second.args0 ≠ 0 ∨ second.args1 ≠ 0 then .unknown else .sleeping
  else
    let args2 := if first.failed then second.args2 else first.args2
    if args2 = 255 then .active else .sleeping

inductive Point where
  /-- At `while (!endit)`. -/
  | test
  /-- Before `sleep(1)` and `check_powermode`. -/
  | probe
  /-- At the `if`, with `curr_state`. -/
  | branch (currState : DiskState)
  deriving DecidableEq

/-- The local variables of `measure`, with the number of points passed and of the calls of
`check_powermode` and of `time` made so far.
-/
structure Monitor where
  point : Point
  passes : Nat
  probes : Nat
  readings : Nat
  startTime : Int
  lastState : DiskState
  lastTime : Int
  currTime : Int
  activeTime : Int
  sleepTime : Int
  unknownTime : Int
  changes : BitVec 32

namespace Monitor

def book (m : Monitor) (timeDiff : Int) : Monitor :=
  match m.lastState with
  | .active => { m with activeTime := m.activeTime + timeDiff }
  | .sleeping => { m with sleepTime := m.sleepTime + timeDiff }
  | .unknown => { m with unknownTime := m.unknownTime + timeDiff }

def booked (m : Monitor) : Int :=
  m.activeTime + m.sleepTime + m.unknownTime

end Monitor

section Measure

variable (drive : Nat → DriveCmd × DriveCmd) (clock : Nat → Int)

def observed (n : Nat) : DiskState :=
  checkPowermode (drive n).1 (drive n).2

def Monitor.start : Monitor :=
  {
    point := .test
    passes := 0
    probes := 1
    readings := 1
    startTime := clock 0
    lastState := observed drive 0
    lastTime := clock 0
    currTime := 0
    activeTime := 0
    sleepTime := 0
    unknownTime := 0
    changes := 0
  }

def Monitor.change (m : Monitor) (currState : DiskState) : Monitor :=
  let currTime := clock m.readings
  let booked := { m with changes := m.changes + 1, currTime, readings := m.readings + 1 }.book
    (currTime - m.lastTime)
  { booked with lastState := currState, lastTime := currTime }

structure Changes (currState : DiskState) (m next : Monitor) : Prop where
  point : next.point = m.point
  passes : next.passes = m.passes
  probes : next.probes = m.probes
  readings : next.readings = m.readings + 1
  startTime : next.startTime = m.startTime
  lastState : next.lastState = currState
  lastTime : next.lastTime = clock m.readings
  currTime : next.currTime = clock m.readings
  booked : next.booked = m.booked + (clock m.readings - m.lastTime)
  changes : next.changes = m.changes + 1

theorem Monitor.change_spec (m : Monitor) (currState : DiskState)
    : Changes clock currState m (m.change clock currState) := by
  constructor <;> simp only [Monitor.change, Monitor.book, Monitor.booked] <;>
    cases m.lastState <;> simp only <;> omega

/-- From one point of the loop to the next; `endit` is set before the point with the number
`signalAt`. The loop leaves with `changes` corrected.
-/
def measurePass (signalAt : Nat) (m : Monitor) : Option (Pass Monitor Monitor) :=
  let endit := signalAt ≤ m.passes
  let next := { m with passes := m.passes + 1 }
  match m.point with
  | .test =>
      if endit then some (.leave { m with changes := m.changes - 1 })
      else some (.again { next with point := .probe })
  | .probe =>
      some (.again { next with point := .branch (observed drive m.probes), probes := m.probes + 1 })
  | .branch currState =>
      if currState ≠ m.lastState ∨ endit then
        some (.again ({ next with point := .test }.change clock currState))
      else some (.again { next with point := .test })

def stateChanges (n : Nat) : Nat :=
  Nat.count (fun i => observed drive i ≠ observed drive (i + 1)) n

theorem stateChanges_succ (n : Nat)
    : stateChanges drive (n + 1)
      = stateChanges drive n + if observed drive (n + 1) ≠ observed drive n then 1 else 0 := by
  simp only [stateChanges, Nat.count_succ, ne_comm]

/-- The totals are right: the booked times add up to the time measured, this is the time
from the start to the last reading of the clock, and `changes`, an `int`, counts how often two
successive states differ.
-/
structure Accounts (m : Monitor) : Prop where
  booked : m.booked = m.currTime - m.startTime
  measured : m.currTime - m.startTime = clock (m.readings - 1) - clock 0
  counted : m.changes.toInt = stateChanges drive (m.probes - 1)

/-- The state at the loop's test after `k` rounds, none of which has seen the signal. -/
structure AtTest (k : Nat) (m : Monitor) : Prop where
  point : m.point = .test
  passes : m.passes = 3 * k
  probes : m.probes = k + 1
  readings : 0 < m.readings
  startTime : m.startTime = clock 0
  lastState : m.lastState = observed drive k
  lastTime : m.lastTime = clock (m.readings - 1)
  booked : m.booked = m.lastTime - m.startTime
  changes : m.changes = BitVec.ofNat 32 (stateChanges drive k)

theorem atTest_start : AtTest drive clock 0 (.start drive clock) where
  point := rfl
  passes := rfl
  probes := rfl
  readings := Nat.zero_lt_one
  startTime := rfl
  lastState := rfl
  lastTime := rfl
  booked := by simp [Monitor.booked, Monitor.start]
  changes := rfl

def Monitor.round (m : Monitor) : Monitor :=
  { m with point := .test, passes := m.passes + 3, probes := m.probes + 1 }

@[simp]
theorem Monitor.round_passes (m : Monitor) : m.round.passes = m.passes + 3 :=
  rfl

@[simp]
theorem Monitor.round_probes (m : Monitor) : m.round.probes = m.probes + 1 :=
  rfl

variable {drive clock} {signalAt k : Nat} {m : Monitor}

/-- A round that is begun before the signal gets to its end. -/
theorem AtTest.reaches (h : AtTest drive clock k m) (unseen : 3 * k < signalAt)
    : Reaches (measurePass drive clock signalAt) m
        (if observed drive (k + 1) ≠ observed drive k ∨ signalAt ≤ 3 * k + 2 then
          m.round.change clock (observed drive (k + 1))
        else m.round) := by
  have tested : Continues (measurePass drive clock signalAt) m
      { m with point := .probe, passes := m.passes + 1 } := by
    simp [Continues, measurePass, h.point, h.passes, unseen]
  have probed : Continues (measurePass drive clock signalAt)
      { m with point := .probe, passes := m.passes + 1 }
      { m with
        point := .branch (observed drive m.probes)
        passes := m.passes + 2
        probes := m.probes + 1 } :=
    rfl
  refine .head tested (.head probed (.single ?_))
  simp only [Continues, measurePass, Monitor.round, h.passes, h.probes, h.lastState]
  split <;> rfl

section Changed

variable {last : Monitor}

/-- What the body of the `if` books keeps the books complete. -/
theorem AtTest.booked_changed (h : AtTest drive clock k m)
    (changed : Changes clock (observed drive (k + 1)) m.round last)
    : last.booked = last.lastTime - last.startTime := by
  have before : m.round.booked = m.round.lastTime - m.round.startTime := h.booked
  rw [changed.booked, changed.lastTime, changed.startTime, before]
  omega

theorem AtTest.changes_changed (h : AtTest drive clock k m)
    (changed : Changes clock (observed drive (k + 1)) m.round last)
    : last.changes = BitVec.ofNat 32 (stateChanges drive k) + 1 := by
  have before : m.round.changes = BitVec.ofNat 32 (stateChanges drive k) := h.changes
  rw [changed.changes, before]

theorem AtTest.probes_changed (h : AtTest drive clock k m)
    (changed : Changes clock (observed drive (k + 1)) m.round last)
    : last.probes = k + 2 := by
  rw [changed.probes, Monitor.round_probes, h.probes]

end Changed

/-- A round that ends before the signal keeps the books. -/
theorem AtTest.succ (h : AtTest drive clock k m) (unseen : 3 * (k + 1) ≤ signalAt)
    : ∃ next, Reaches (measurePass drive clock signalAt) m next
        ∧ AtTest drive clock (k + 1) next := by
  refine ⟨_, h.reaches (by omega), ?_⟩
  have later : ¬ signalAt ≤ 3 * k + 2 := by omega
  have count := stateChanges_succ drive k
  simp only [later, or_false]
  by_cases same : observed drive (k + 1) = observed drive k
  · simp only [same, ne_eq, not_true_eq_false, if_false, Nat.add_zero] at count ⊢
    exact {
      point := rfl
      passes := by rw [Monitor.round_passes, h.passes, Nat.mul_succ]
      probes := by rw [Monitor.round_probes, h.probes]
      readings := h.readings
      startTime := h.startTime
      lastState := h.lastState.trans same.symm
      lastTime := h.lastTime
      booked := h.booked
      changes := h.changes.trans (by rw [count])
    }
  · simp only [same, ne_eq, not_false_eq_true, if_true] at count ⊢
    have changed := m.round.change_spec clock (observed drive (k + 1))
    exact {
      point := changed.point
      passes := by rw [changed.passes, Monitor.round_passes, h.passes, Nat.mul_succ]
      probes := h.probes_changed changed
      readings := by
        rw [changed.readings]
        exact Nat.succ_pos _
      startTime := changed.startTime.trans h.startTime
      lastState := changed.lastState
      lastTime := by rw [changed.lastTime, changed.readings, Nat.add_sub_cancel]
      booked := h.booked_changed changed
      changes := (h.changes_changed changed).trans (by simp [count, BitVec.ofNat_add])
    }

/-- The rounds before the signal, by induction on their number. -/
theorem reaches_atTest (drive : Nat → DriveCmd × DriveCmd) (clock : Nat → Int)
    (unseen : 3 * k ≤ signalAt)
    : ∃ m, Reaches (measurePass drive clock signalAt) (.start drive clock) m
        ∧ AtTest drive clock k m := by
  induction k with
  | zero => exact ⟨_, .refl, atTest_start drive clock⟩
  | succ k ih =>
      obtain ⟨m, reached, atTest⟩ := ih (by omega)
      obtain ⟨next, round, kept⟩ := atTest.succ unseen
      exact ⟨next, reached.trans round, kept⟩

/-- Past the signal the loop leaves at its test. -/
theorem measurePass_leave (point : m.point = .test) (seen : signalAt ≤ m.passes)
    : measurePass drive clock signalAt m = some (.leave { m with changes := m.changes - 1 }) := by
  simp [measurePass, point, seen]

/-- An `int` that holds a number is what counting up to it from zero gives. -/
theorem eq_ofNat_of_toInt {changes : BitVec 32} {count : Nat} (counted : changes.toInt = count)
    : changes = BitVec.ofNat 32 count := by
  rw [← BitVec.ofInt_natCast, ← counted, BitVec.ofInt_toInt]

theorem toInt_ofNat_eq_iff (count : Nat)
    : (BitVec.ofNat 32 count).toInt = count ↔ count < 2 ^ 31 := by
  rw [BitVec.toInt_eq_toNat_cond, BitVec.toNat_ofNat]
  omega

/-- The end of a round that has seen the signal in its branch. The one pass through the branch
stands for the signal, so that it must not also stand for a change.
-/
theorem AtTest.accounts_iff (h : AtTest drive clock k m) {last : Monitor}
    (changed : Changes clock (observed drive (k + 1)) m.round last)
    : Accounts drive clock { last with changes := last.changes - 1 }
      ↔ observed drive (k + 1) = observed drive k ∧ stateChanges drive (k + 1) < 2 ^ 31 := by
  have count := stateChanges_succ drive k
  have probes : last.probes - 1 = k + 1 := by
    rw [h.probes_changed changed]
    rfl
  have changes : last.changes - 1 = BitVec.ofNat 32 (stateChanges drive k) := by
    rw [h.changes_changed changed, BitVec.add_sub_cancel]
  constructor
  · intro accounts
    have counted : (last.changes - 1).toInt = stateChanges drive (last.probes - 1) :=
      accounts.counted
    rw [probes] at counted
    have same : observed drive (k + 1) = observed drive k := by
      by_contra differs
      have wrapped := eq_ofNat_of_toInt counted
      rw [changes, count, if_pos differs, BitVec.ofNat_add] at wrapped
      exact absurd wrapped (by simp)
    simp only [same, ne_eq, not_true_eq_false, if_false, Nat.add_zero] at count
    rw [changes, ← count, toInt_ofNat_eq_iff] at counted
    exact ⟨same, counted⟩
  · intro h
    rcases h with ⟨same, small⟩
    simp only [same, ne_eq, not_true_eq_false, if_false, Nat.add_zero] at count
    have start : last.startTime = clock 0 := changed.startTime.trans h.startTime
    refine ⟨?_, ?_, ?_⟩
    · have total : last.booked = last.currTime - last.startTime := by
        rw [h.booked_changed changed, changed.currTime, changed.lastTime]
      exact total
    · simp only [start, changed.currTime, changed.readings, Nat.add_sub_cancel]
    · simp only [probes, changes, count] at small ⊢
      exact (toInt_ofNat_eq_iff _).mpr small

/-- `measure` leaves its loop once SIGINT has come, and its totals are right exactly if the
signal comes between the loop's test and the branch of a round that finds the state unchanged,
and the changes fit an `int`. The rounds before the signal keep the books by induction
(`reaches_atTest`), so that only the round which sees it has to be looked at.
-/
theorem measure_accounts_iff (drive : Nat → DriveCmd × DriveCmd) (clock : Nat → Int)
    (signalAt : Nat)
    : ∃ final,
        Returns (fun fuel => run (measurePass drive clock signalAt) fuel (.start drive clock)) final
        ∧ (Accounts drive clock final
          ↔ ∃ k, 3 * k < signalAt ∧ signalAt ≤ 3 * k + 2
              ∧ observed drive (k + 1) = observed drive k
              ∧ stateChanges drive (k + 1) < 2 ^ 31) := by
  obtain ⟨m, reached, atTest⟩ :=
    reaches_atTest drive clock (show 3 * (signalAt / 3) ≤ signalAt by omega)
  by_cases early : signalAt = 3 * (signalAt / 3)
  · -- The loop's own test sees the signal: nothing was counted for it.
    have seen : signalAt ≤ m.passes := by
      rw [atTest.passes]
      omega
    refine ⟨_, reached.returns (measurePass_leave atTest.point seen), ?_⟩
    constructor
    · intro accounts
      have wrapped := eq_ofNat_of_toInt accounts.counted
      simp only [atTest.changes, atTest.probes, Nat.add_sub_cancel] at wrapped
      exact absurd wrapped (by bv_omega)
    · intro h
      rcases h with ⟨k, after, before, -⟩
      omega
  · have entered : 3 * (signalAt / 3) < signalAt := by omega
    have inBody : signalAt ≤ 3 * (signalAt / 3) + 2 := by omega
    have round := atTest.reaches entered
    rw [if_pos (.inr inBody)] at round
    have whole : Reaches (measurePass drive clock signalAt) (.start drive clock)
        (m.round.change clock (observed drive (signalAt / 3 + 1))) :=
      reached.trans round
    have changed := m.round.change_spec clock (observed drive (signalAt / 3 + 1))
    have seen : signalAt ≤ (m.round.change clock (observed drive (signalAt / 3 + 1))).passes := by
      rw [changed.passes, Monitor.round_passes, atTest.passes]
      omega
    refine ⟨_, whole.returns (measurePass_leave changed.point seen), ?_⟩
    rw [atTest.accounts_iff changed]
    constructor
    · intro counted
      exact ⟨signalAt / 3, entered, inBody, counted⟩
    · intro h
      rcases h with ⟨k, after, before, counted⟩
      obtain rfl : k = signalAt / 3 := by omega
      exact counted

end Measure

def activeDrive : Nat → DriveCmd × DriveCmd :=
  fun _ => (⟨false, 0, 0, 0, 255⟩, ⟨false, 0, 0, 0, 255⟩)

/-- A signal before the first round: at 1000 seconds the time measured is -1000 seconds, and
the state has changed -1 times.
-/
theorem activeDrive_early
    : ∃ final,
        Returns (fun fuel => run (measurePass activeDrive (fun n => 1000 + n) 0) fuel
          (.start activeDrive fun n => 1000 + n)) final
        ∧ final.currTime - final.startTime = -1000 ∧ final.changes.toInt = -1
        ∧ ¬ Accounts activeDrive (fun n => 1000 + n) final := by
  have here : Reaches (measurePass activeDrive (fun n => 1000 + n) 0)
      (.start activeDrive fun n => 1000 + n) (.start activeDrive fun n => 1000 + n) :=
    .refl
  refine ⟨_, here.returns (measurePass_leave rfl (Nat.le_refl 0)), by decide, by decide, ?_⟩
  intro accounts
  have counted := accounts.counted
  revert counted
  decide

end LinuxDoc.Dslm
