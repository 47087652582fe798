import LinuxDoc.Foundations.Runs

/-! The main loop of freefall, which parks the heads of a disk when the machine falls and has
an alarm unpark them.
Every `read` is followed by `alarm(0)`, also one that brought no event, so the question is who
unparks the heads when it was not the alarm that ended the `read`.
-/

namespace LinuxDoc.Freefall

open Foundations

inductive ReadResult where
  | event
  | interrupted
  | failed
  deriving DecidableEq

inductive Point where
  | reading
  /-- Before `alarm(0)`. -/
  | cancel (ret : ReadResult)
  /-- Before the tests of `ret`. -/
  | judge (ret : ReadResult)
  | park
  | light
  | schedule
  /-- Behind the loop. -/
  | left
  /-- In `exit(1)`, called by `write_int`. -/
  | exited
  deriving DecidableEq

/-- The point of `main`, what the heads and the LED were last told, and whether an alarm is
pending.
-/
structure Daemon where
  point : Point
  parked : Bool
  led : Bool
  alarm : Bool
  deriving DecidableEq

def Daemon.initial : Daemon :=
  ⟨.reading, false, false, false⟩

/-- What can happen next. The flags say which of the calls of `write_int` succeed. -/
inductive Action where
  | returns (ret : ReadResult)
  /-- `main` gets to its next point. -/
  | advance (written : Bool)
  /-- The pending alarm expires. -/
  | expire (unparked darkened : Bool)
  /-- SIGALRM is sent by someone else. -/
  | sigalrm (unparked darkened : Bool)
  deriving DecidableEq

section Step

variable (noled : Bool)

def protect (seconds : Nat) (written : Bool) (d : Daemon) : Daemon :=
  if written then { d with parked := seconds ≠ 0 } else { d with point := .exited }

def setLed (on written : Bool) (d : Daemon) : Daemon :=
  if noled then d
  else if written then { d with led := on }
  else { d with point := .exited }

def ignoreMe (unparked darkened : Bool) (d : Daemon) : Daemon :=
  let d := protect 0 unparked d
  if d.point = .exited then d else setLed noled false darkened d

def Daemon.goto (d : Daemon) (point : Point) : Daemon :=
  if d.point = .exited then d else { d with point }

def advance (written : Bool) (d : Daemon) : Daemon :=
  match d.point with
  | .cancel ret => { d with point := .judge ret, alarm := false }
  | .judge .event => { d with point := .park }
  | .judge .interrupted => { d with point := .reading }
  | .judge .failed => { d with point := .left }
  | .park => (protect 21 written d).goto .light
  | .light => (setLed noled true written d).goto .schedule
  | .schedule => { d with point := .reading, alarm := true }
  | .reading | .left | .exited => d

def step (d : Daemon) : Action → Daemon
  | .returns ret => if d.point = .reading then { d with point := .cancel ret } else d
  | .advance written => advance noled written d
  | .expire unparked darkened =>
      if d.alarm = true ∧ d.point ≠ .exited then
        ignoreMe noled unparked darkened { d with alarm := false }
      else d
  | .sigalrm unparked darkened =>
      if d.point ≠ .exited then ignoreMe noled unparked darkened d else d

end Step

/-- Blocked in `read` or behind the loop, parked heads and a lit LED have an alarm pending. -/
def Scheduled (d : Daemon) : Prop :=
  d.point = .reading ∨ d.point = .left → d.parked = true ∨ d.led = true → d.alarm = true

/-- When the result of a `read` without an event is looked at, the heads are unparked and the
LED is off.
-/
def UnparkedBefore (d : Daemon) : Action → Prop
  | .advance _ =>
      d.point = .judge .interrupted ∨ d.point = .judge .failed →
        d.parked = false ∧ d.led = false
  | .returns _ | .expire _ _ | .sigalrm _ _ => True

/-- What holds at every point: `alarm(0)` is in effect while a result is looked at, and an
LED that does not exist is not lit.
-/
structure Consistent (noled : Bool) (d : Daemon) : Prop where
  cancelled : ∀ ret, d.point = .judge ret → d.alarm = false
  dark : noled = true → d.led = false

section Handler

variable {noled : Bool} {d : Daemon} (unparked darkened : Bool)

/-- The handler ends the process, or nothing is parked or lit after it. -/
theorem ignoreMe_cases (consistent : Consistent noled d) (running : d.point ≠ .exited)
    : (∃ parked, ignoreMe noled unparked darkened d = { d with parked, point := .exited })
      ∨ ignoreMe noled unparked darkened d = { d with parked := false, led := false } := by
  cases unparked with
  | false => exact .inl ⟨d.parked, rfl⟩
  | true =>
      have unparks : ignoreMe noled true darkened d
          = setLed noled false darkened { d with parked := false } :=
        if_neg running
      rw [unparks]
      cases dark : noled with
      | true =>
          have off := consistent.dark dark
          exact .inr (by simp [setLed, off])
      | false =>
          cases darkened with
          | false => exact .inl ⟨false, rfl⟩
          | true => exact .inr rfl

theorem ignoreMe_consistent (consistent : Consistent noled d) (running : d.point ≠ .exited)
    : Consistent noled (ignoreMe noled unparked darkened d) := by
  rcases ignoreMe_cases unparked darkened consistent running with ⟨parked, ended⟩ | handled
  · rw [ended]
    exact ⟨by simp, consistent.dark⟩
  · rw [handled]
    exact ⟨consistent.cancelled, fun _ => rfl⟩

theorem ignoreMe_scheduled (consistent : Consistent noled d) (running : d.point ≠ .exited)
    : Scheduled (ignoreMe noled unparked darkened d) := by
  intro outside on
  rcases ignoreMe_cases unparked darkened consistent running with ⟨parked, ended⟩ | handled
  · simp [ended] at outside
  · simp [handled] at on

end Handler

section Kept

variable {noled : Bool} {d : Daemon}

theorem advance_consistent (written : Bool) (consistent : Consistent noled d)
    : Consistent noled (advance noled written d) := by
  obtain ⟨point, parked, led, alarm⟩ := d
  have dark := consistent.dark
  cases point with
  | cancel ret => exact ⟨by simp [advance], dark⟩
  | judge ret => cases ret <;> exact ⟨by simp [advance], dark⟩
  | park => cases written <;> exact ⟨by simp [advance, protect, Daemon.goto], dark⟩
  | light =>
      cases noled <;> cases written <;>
        exact ⟨by simp [advance, setLed, Daemon.goto], by simp_all [advance, setLed, Daemon.goto]⟩
  | schedule => exact ⟨by simp [advance], dark⟩
  | reading | left | exited => exact consistent

theorem advance_scheduled_iff (written : Bool) (consistent : Consistent noled d)
    (scheduled : Scheduled d)
    : Scheduled (advance noled written d) ↔ UnparkedBefore d (.advance written) := by
  obtain ⟨point, parked, led, alarm⟩ := d
  cases point with
  | judge ret =>
      have cancelled : alarm = false := consistent.cancelled ret rfl
      cases ret <;> simp [Scheduled, UnparkedBefore, advance, cancelled]
  | cancel ret => simp [Scheduled, UnparkedBefore, advance]
  | park => cases written <;> simp [Scheduled, UnparkedBefore, advance, protect, Daemon.goto]
  | light =>
      cases noled <;> cases written <;>
        simp [Scheduled, UnparkedBefore, advance, setLed, Daemon.goto]
  | schedule => simp [Scheduled, UnparkedBefore, advance]
  | reading | left | exited => simpa [UnparkedBefore, advance] using scheduled

/-- By cases on the action, with `advance_consistent` for the steps of `main`. -/
theorem step_consistent (action : Action) (consistent : Consistent noled d)
    : Consistent noled (step noled d action) := by
  cases action with
  | returns ret =>
      rw [step]
      split
      · exact ⟨by simp, consistent.dark⟩
      · exact consistent
  | advance written => exact advance_consistent written consistent
  | expire unparked darkened =>
      rw [step]
      split
      next pending =>
        exact ignoreMe_consistent unparked darkened ⟨fun _ _ => rfl, consistent.dark⟩ pending.2
      · exact consistent
  | sigalrm unparked darkened =>
      rw [step]
      split
      next running => exact ignoreMe_consistent unparked darkened consistent running
      · exact consistent

/-- Only the look at the result of a `read` can leave parked heads without an alarm. -/
theorem step_scheduled_iff (action : Action) (consistent : Consistent noled d)
    (scheduled : Scheduled d)
    : Scheduled (step noled d action) ↔ UnparkedBefore d action := by
  cases action with
  | returns ret =>
      refine iff_of_true ?_ trivial
      rw [step]
      split
      · simp [Scheduled]
      · exact scheduled
  | advance written => exact advance_scheduled_iff written consistent scheduled
  | expire unparked darkened =>
      refine iff_of_true ?_ trivial
      rw [step]
      split
      next pending =>
        exact ignoreMe_scheduled unparked darkened ⟨fun _ _ => rfl, consistent.dark⟩ pending.2
      · exact scheduled
  | sigalrm unparked darkened =>
      refine iff_of_true ?_ trivial
      rw [step]
      split
      next running => exact ignoreMe_scheduled unparked darkened consistent running
      · exact scheduled

end Kept

/-- A daemon watched from outside: whether an event has been acted on with no SIGALRM handled
since is read off the actions, not off the heads.
-/
structure Watched where
  daemon : Daemon
  owed : Bool

def Watched.owes (noled : Bool) (w : Watched) : Action → Bool
  | .returns _ => w.owed
  | .advance _ =>
      w.owed || w.daemon.point = .park || (w.daemon.point = .light && !noled)
  | .expire _ _ => if w.daemon.alarm = true ∧ w.daemon.point ≠ .exited then false else w.owed
  | .sigalrm _ _ => if w.daemon.point ≠ .exited then false else w.owed

def watch (noled : Bool) (w : Watched) (action : Action) : Watched :=
  ⟨step noled w.daemon action, w.owes noled action⟩

/-- When the result of a `read` without an event is looked at, a SIGALRM has been handled since
the last event was acted on, if there was one.
-/
def HandledBefore (w : Watched) : Action → Prop
  | .advance _ =>
      w.daemon.point = .judge .interrupted ∨ w.daemon.point = .judge .failed → w.owed = false
  | .returns _ | .expire _ _ | .sigalrm _ _ => True

structure Tracks (noled : Bool) (w : Watched) : Prop where
  consistent : Consistent noled w.daemon
  owed : w.daemon.point ≠ .exited →
    (w.owed = true ↔ w.daemon.parked = true ∨ w.daemon.led = true)

section Watching

variable {noled : Bool} {w : Watched}

theorem Tracks.of_ignoreMe {d : Daemon} (unparked darkened : Bool)
    (consistent : Consistent noled d) (running : d.point ≠ .exited)
    : Tracks noled ⟨ignoreMe noled unparked darkened d, false⟩ := by
  refine ⟨ignoreMe_consistent unparked darkened consistent running, ?_⟩
  intro still
  rcases ignoreMe_cases unparked darkened consistent running with ⟨parked, ended⟩ | handled
  · exact absurd (by rw [ended]) still
  · simp [handled]

/-- By cases on the point of `main`. -/
theorem owed_advance_iff (written : Bool) (tracks : Tracks noled w)
    (still : (advance noled written w.daemon).point ≠ .exited)
    : w.owes noled (.advance written) = true
      ↔ (advance noled written w.daemon).parked = true
        ∨ (advance noled written w.daemon).led = true := by
  obtain ⟨⟨point, parked, led, alarm⟩, owed⟩ := w
  have owed_iff := tracks.owed
  cases point with
  | judge ret => cases ret <;> simpa [Watched.owes, advance] using owed_iff
  | cancel ret => simpa [Watched.owes, advance] using owed_iff
  | park =>
      cases written with
      | false => simp [advance, protect, Daemon.goto] at still
      | true => simp [Watched.owes, advance, protect, Daemon.goto]
  | light =>
      cases noled <;> cases written <;> simp_all [Watched.owes, advance, setLed, Daemon.goto]
  | schedule => simpa [Watched.owes, advance] using owed_iff
  | reading | left => simpa [Watched.owes, advance] using owed_iff
  | exited => exact absurd rfl still

/-- Every action keeps the record of what is owed. Only the handler settles it, and
`ignoreMe_cases` says that nothing is parked or lit after a handler that returns.
-/
theorem watch_tracks (action : Action) (tracks : Tracks noled w)
    : Tracks noled (watch noled w action) := by
  obtain ⟨d, owed⟩ := w
  cases action with
  | returns ret =>
      refine ⟨step_consistent (.returns ret) tracks.consistent, ?_⟩
      have owed_iff := tracks.owed
      simp only [watch, step, Watched.owes]
      split
      next reading => exact fun _ => owed_iff (by simp [reading])
      · exact owed_iff
  | advance written =>
      exact ⟨advance_consistent written tracks.consistent, owed_advance_iff written tracks⟩
  | expire unparked darkened =>
      by_cases pending : d.alarm = true ∧ d.point ≠ .exited
      · have handled := Tracks.of_ignoreMe unparked darkened
          (d := { d with alarm := false }) ⟨fun _ _ => rfl, tracks.consistent.dark⟩ pending.2
        simpa [watch, step, Watched.owes, pending] using handled
      · simpa [watch, step, Watched.owes, pending] using tracks
  | sigalrm unparked darkened =>
      by_cases running : d.point = .exited
      · simpa [watch, step, Watched.owes, running] using tracks
      · have handled := Tracks.of_ignoreMe unparked darkened tracks.consistent running
        simpa [watch, step, Watched.owes, running] using handled

theorem unparkedBefore_iff (action : Action) (tracks : Tracks noled w)
    : UnparkedBefore w.daemon action ↔ HandledBefore w action := by
  cases action with
  | advance written =>
      refine forall_congr' fun looking => ?_
      have running : w.daemon.point ≠ .exited := by
        rcases looking with at_judge | at_judge <;> simp [at_judge]
      have owed_iff := tracks.owed running
      grind
  | returns _ | expire _ _ | sigalrm _ _ => exact Iff.rfl

/-- By induction on the actions, with `Tracks` as the invariant. -/
theorem everyStep_unparked_iff (actions : List Action) (tracks : Tracks noled w)
    : EveryStep (step noled) UnparkedBefore w.daemon actions
      ↔ EveryStep (watch noled) HandledBefore w actions := by
  induction actions generalizing w with
  | nil => exact Iff.rfl
  | cons action rest ih =>
      exact and_congr (unparkedBefore_iff action tracks) (ih (watch_tracks action tracks))

end Watching

/-- Along a run parked heads and a lit LED always have an alarm pending exactly if, each time a
`read` without an event has its result looked at, a SIGALRM has been handled since the last
event. The invariant `Consistent` shows that only this look can leave them without an alarm, and
`Tracks` turns the state of the heads there into a condition on the actions before it.
-/
theorem always_scheduled_iff (noled : Bool) (actions : List Action)
    : Always (step noled) Scheduled .initial actions
      ↔ EveryStep (watch noled) HandledBefore ⟨.initial, false⟩ actions := by
  have start : Consistent noled .initial := ⟨by simp [Daemon.initial], fun _ => rfl⟩
  have unparked := always_iff_everyStep_of_invariant (step noled) (Consistent noled) Scheduled
    UnparkedBefore (fun _ => step_consistent) (fun _ => step_scheduled_iff) actions .initial start
    (by simp [Scheduled, Daemon.initial])
  exact unparked.trans (everyStep_unparked_iff actions (w := ⟨.initial, false⟩)
    ⟨start, by simp [Daemon.initial]⟩)

/-- An event, and then an interruption of the next `read` by another signal: the process waits
for the next event with the heads parked and no alarm.
-/
theorem interrupted_parked
    : [.returns .event, .advance true, .advance true, .advance true, .advance true, .advance true,
        .returns .interrupted, .advance true, .advance true].foldl (step false) .initial
        = ⟨.reading, true, true, false⟩
      ∧ ¬ Scheduled ⟨.reading, true, true, false⟩ := by
  refine ⟨rfl, ?_⟩
  intro scheduled
  exact absurd (scheduled (.inl rfl) (.inl rfl)) (by decide)

end LinuxDoc.Freefall
