import LinuxDoc.Foundations.EntryRing
import LinuxDoc.Foundations.Runs

/-! The command ring of TCMU: `handle_device_events` of `tcmu-design.txt`, while the kernel
appends entries at any time.
-/

namespace LinuxDoc.Tcmu

open Foundations Foundations.EntryRing

inductive Op where
  | pad
  | cmd
  deriving DecidableEq

/-- An entry: what `tcmu_hdr_get_op` and `tcmu_hdr_get_len` find in its header, and the byte
that `req.cdb_off` leads to.
-/
structure Entry where
  op : Op
  len : Nat
  cdb : UInt8
  deriving DecidableEq

inductive Status where
  | noSense
  | checkCondition
  deriving DecidableEq

/-- Where `handle_device_events` stands; what it does between two of these points reads and
writes the shared memory at most once.
-/
inductive Point where
  | start
  | test
  | handle
  | advance
  | notify
  | done
  deriving DecidableEq

/-- The shared memory, by offsets from the mailbox, and the state of the handler. The response
field of an entry is kept apart from the entry: it does not overlap the header.
-/
structure State where
  cmdrOff : Nat
  cmdrSize : Nat
  cmdHead : Nat
  cmdTail : Nat
  region : Nat → Entry
  scsiStatus : Nat → Option Status
  point : Point
  ent : Nat
  didSomeWork : Bool
  /-- The commands handled, in order: the opcodes that are printed. -/
  handled : List Entry
  /-- The number of `write` calls. -/
  notified : Nat

def handlerStep (s : State) : State :=
  match s.point with
  | .start => { s with ent := s.cmdrOff + s.cmdTail, didSomeWork := false, point := .test }
  | .test =>
      if s.ent ≠ s.cmdrOff + s.cmdHead then { s with point := .handle }
      else { s with point := .notify }
  | .handle =>
      if (s.region s.ent).op = .cmd then
        { s with
          handled := s.handled ++ [s.region s.ent]
          -- the command always succeeds
          scsiStatus := Function.update s.scsiStatus s.ent (some .noSense)
          point := .advance }
      else { s with point := .advance }
  | .advance =>
      let cmdTail := (s.cmdTail + (s.region s.ent).len) % s.cmdrSize
      { s with
        cmdTail := cmdTail
        ent := s.cmdrOff + cmdTail
        didSomeWork := true
        point := .test }
  | .notify =>
      if s.didSomeWork then { s with notified := s.notified + 1, point := .done }
      else { s with point := .done }
  | .done => s

/-- The kernel places an entry on the ring: its header stands first, and the rest of its bytes
replace whatever was there.
-/
def kernelAppend (entry : Entry) (rest : Nat → Entry) (s : State) : State :=
  { s with
    region := fun offset =>
      if offset = s.cmdrOff + s.cmdHead then entry
      else if s.cmdrOff + s.cmdHead < offset ∧ offset < s.cmdrOff + s.cmdHead + entry.len then
        rest offset
      else s.region offset
    cmdHead := (s.cmdHead + entry.len) % s.cmdrSize }

inductive Event where
  | handler
  | append (entry : Entry) (rest : Nat → Entry)

def step (s : State) : Event → State
  | .handler => handlerStep s
  | .append entry rest => kernelAppend entry rest s

/-- The kernel's duties: an entry has a positive length, does not go across the end of the
ring, and does not fill the ring completely.
-/
def Permitted (s : State) : Event → Prop
  | .handler => True
  | .append entry _ =>
      0 < entry.len ∧ s.cmdHead + entry.len ≤ s.cmdrSize
        ∧ (s.cmdHead + s.cmdrSize - s.cmdTail) % s.cmdrSize + entry.len < s.cmdrSize

instance permittedDecidable (s : State) : (event : Event) → Decidable (Permitted s event)
  | .handler => inferInstanceAs (Decidable True)
  | .append _ _ => inferInstanceAs (Decidable (_ ∧ _ ∧ _))

def appended : List Event → List Entry
  | [] => []
  | .handler :: later => appended later
  | .append entry _ :: later => entry :: appended later

def handlerSteps : List Event → Nat
  | [] => 0
  | .handler :: later => handlerSteps later + 1
  | .append _ _ :: later => handlerSteps later

def after (s : State) (events : List Event) : State :=
  events.foldl step s

@[simp]
theorem after_nil (s : State) : after s [] = s := rfl

@[simp]
theorem after_cons (s : State) (event : Event) (events : List Event)
    : after s (event :: events) = after (step s event) events := rfl

def Pending (s : State) (entries : List Entry) : Prop :=
  Queued Entry.len s.cmdrSize (fun offset => s.region (s.cmdrOff + offset)) s.cmdTail s.cmdHead
    entries

structure Called (s : State) (queue : List Entry) : Prop where
  pending : Pending s queue
  atStart : s.point = .start
  nothingHandled : s.handled = []
  notNotified : s.notified = 0

def commands (entries : List Entry) : List Entry :=
  entries.filter (·.op = .cmd)

/-- An entry that the kernel may append joins the queue. -/
theorem Pending.append {s : State} {entries : List Entry} (pending : Pending s entries)
    {entry : Entry} {rest : Nat → Entry} (permitted : Permitted s (.append entry rest))
    : Pending (kernelAppend entry rest s) (entries ++ [entry]) := by
  obtain ⟨positive, inside, room⟩ := permitted
  rw [pending.used_eq] at room
  apply pending.push positive inside room
  · simp only [kernelAppend, if_true]
  · intro place free
    have notHead : s.cmdrOff + place ≠ s.cmdrOff + s.cmdHead := by omega
    have notInside : ¬ (s.cmdrOff + s.cmdHead < s.cmdrOff + place
        ∧ s.cmdrOff + place < s.cmdrOff + s.cmdHead + entry.len) := by omega
    simp only [kernelAppend, if_neg notHead, if_neg notInside]

/-- The first entry is at `cmd_tail`, and moving `cmd_tail` by its length leaves the rest. -/
theorem Pending.consume {s : State} {entry : Entry} {rest : List Entry}
    (pending : Pending s (entry :: rest))
    : s.region (s.cmdrOff + s.cmdTail) = entry
      ∧ Queued Entry.len s.cmdrSize (fun offset => s.region (s.cmdrOff + offset))
          ((s.cmdTail + entry.len) % s.cmdrSize) s.cmdHead rest :=
  pending.pop

structure Looping (s : State) (consumed pending : List Entry) : Prop where
  queue : Pending s pending
  notLeft : s.point ≠ .notify ∧ s.point ≠ .done
  fresh : s.point = .start → consumed = []
  ent : s.point ≠ .start → s.ent = s.cmdrOff + s.cmdTail
  worked : s.point ≠ .start → s.didSomeWork = decide (consumed ≠ [])
  current : s.point = .handle ∨ s.point = .advance → pending ≠ []
  handled : s.handled
    = commands (consumed ++ if s.point = .advance then pending.take 1 else [])
  notNotified : s.notified = 0

structure Left (s : State) (consumed pending : List Entry) : Prop where
  queue : Pending s pending
  worked : s.didSomeWork = decide (consumed ≠ [])
  handled : s.handled = commands consumed
  outcome : (s.point = .notify ∧ s.notified = 0)
    ∨ (s.point = .done ∧ s.notified = if consumed = [] then 0 else 1)

def remaining (count : Nat) : Point → Nat
  | .start => 3 * count + 3
  | .test => 3 * count + 2
  | .handle => 3 * count + 1
  | .advance => 3 * count
  | .notify => 1
  | .done => 0

theorem remaining_succ_le (count : Nat) (point : Point)
    : remaining (count + 1) point ≤ remaining count point + 3 := by
  cases point <;> simp only [remaining] <;> omega

section Steps

variable {s : State} {consumed pending : List Entry}

/-- The kernel adds at the end, where the handler is not. -/
theorem Looping.append (looping : Looping s consumed pending) {entry : Entry}
    {rest : Nat → Entry} (permitted : Permitted s (.append entry rest))
    : Looping (kernelAppend entry rest s) consumed (pending ++ [entry]) where
  queue := looping.queue.append permitted
  notLeft := looping.notLeft
  fresh := looping.fresh
  ent := looping.ent
  worked := looping.worked
  current := fun _ => by simp
  handled := by
    refine looping.handled.trans ?_
    congr 2
    change (if s.point = .advance then _ else _) = if s.point = .advance then _ else _
    split
    next inPass =>
      obtain ⟨first, others, rfl⟩ :=
        List.exists_cons_of_ne_nil (looping.current (.inr inPass))
      rfl
    next => rfl
  notNotified := looping.notNotified

theorem Left.append (left : Left s consumed pending) {entry : Entry} {rest : Nat → Entry}
    (permitted : Permitted s (.append entry rest))
    : Left (kernelAppend entry rest s) consumed (pending ++ [entry]) where
  queue := left.queue.append permitted
  worked := left.worked
  handled := left.handled
  outcome := left.outcome

/-- A step of the handler in its loop, by where it stands: the loop goes on with the same
entries and less to do, or it is left with nothing pending.
-/
theorem Looping.progress (looping : Looping s consumed pending)
    : (∃ consumed' pending', Looping (handlerStep s) consumed' pending'
        ∧ consumed' ++ pending' = consumed ++ pending
        ∧ remaining pending'.length (handlerStep s).point < remaining pending.length s.point)
      ∨ (s.point = .test ∧ pending = [] ∧ Left (handlerStep s) consumed []) := by
  obtain ⟨queue, notLeft, fresh, ent, worked, current, handled, notNotified⟩ := looping
  rcases point : s.point
  · -- the local variables are set
    left
    have stepped : handlerStep s = { s with
        ent := s.cmdrOff + s.cmdTail, didSomeWork := false, point := .test } := by
      simp only [handlerStep, point]
    simp only [point, reduceCtorEq, if_false] at handled
    refine ⟨consumed, pending, ?_, rfl, by simp [stepped, remaining]⟩
    rw [stepped]
    exact ⟨queue, by simp, by simp, fun _ => rfl, fun _ => by simp [fresh point], by simp,
      by simpa using handled, notNotified⟩
  · -- the test of the loop
    have here := ent (by simp [point])
    simp only [point, reduceCtorEq, if_false, List.append_nil] at handled
    by_cases caughtUp : s.cmdTail = s.cmdHead
    · right
      have none := queue.tail_eq_head_iff.mp caughtUp
      subst none
      have stepped : handlerStep s = { s with point := .notify } := by
        simp [handlerStep, point, here, caughtUp]
      refine ⟨rfl, rfl, ?_⟩
      rw [stepped]
      exact ⟨queue, worked (by simp [point]), handled, .inl ⟨rfl, notNotified⟩⟩
    · left
      have stepped : handlerStep s = { s with point := .handle } := by
        simp [handlerStep, point, here, caughtUp]
      refine ⟨consumed, pending, ?_, rfl, by simp [stepped, remaining]⟩
      rw [stepped]
      exact ⟨queue, by simp, by simp, fun _ => here, fun _ => worked (by simp [point]),
        fun _ none => caughtUp (queue.tail_eq_head_iff.mpr none), by simpa using handled,
        notNotified⟩
  · -- the entry is handled, if it is a command
    left
    have here := ent (by simp [point])
    obtain ⟨entry, rest, rfl⟩ := List.exists_cons_of_ne_nil (current (.inl point))
    have found : s.region s.ent = entry := by rw [here]; exact queue.consume.1
    simp only [point, reduceCtorEq, if_false, List.append_nil] at handled
    refine ⟨consumed, entry :: rest, ?_, rfl, ?_⟩
    · by_cases isCommand : entry.op = .cmd
      · have stepped : handlerStep s = { s with
            handled := s.handled ++ [entry]
            scsiStatus := Function.update s.scsiStatus s.ent (some .noSense)
            point := .advance } := by
          simp [handlerStep, point, found, isCommand]
        rw [stepped]
        exact ⟨queue, by simp, by simp, fun _ => here, fun _ => worked (by simp [point]),
          fun _ => by simp, by simp [handled, commands, isCommand], notNotified⟩
      · have stepped : handlerStep s = { s with point := .advance } := by
          simp [handlerStep, point, found, isCommand]
        rw [stepped]
        exact ⟨queue, by simp, by simp, fun _ => here, fun _ => worked (by simp [point]),
          fun _ => by simp, by simp [handled, commands, isCommand], notNotified⟩
    · have next : (handlerStep s).point = .advance := by
        simp only [handlerStep, point]
        split <;> rfl
      simp [next, remaining]
  · -- the tail moves past the entry
    left
    have here := ent (by simp [point])
    obtain ⟨entry, rest, rfl⟩ := List.exists_cons_of_ne_nil (current (.inr point))
    have found : s.region s.ent = entry := by rw [here]; exact queue.consume.1
    simp only [point, if_true, List.take_succ_cons, List.take_zero] at handled
    have stepped : handlerStep s = { s with
        cmdTail := (s.cmdTail + entry.len) % s.cmdrSize
        ent := s.cmdrOff + (s.cmdTail + entry.len) % s.cmdrSize
        didSomeWork := true
        point := .test } := by
      simp [handlerStep, point, found]
    refine ⟨consumed ++ [entry], rest, ?_, by simp, ?_⟩
    · rw [stepped]
      exact ⟨queue.consume.2, by simp, by simp, fun _ => rfl, fun _ => by simp, by simp,
        by simpa using handled, notNotified⟩
    · simp [stepped, remaining]
      omega
  · exact absurd point notLeft.1
  · exact absurd point notLeft.2

/-- A step of the handler behind its loop: the kernel is notified if there was work. -/
theorem Left.progress (left : Left s consumed pending)
    : Left (handlerStep s) consumed pending ∧ (handlerStep s).point = .done
      ∧ (handlerStep s).cmdTail = s.cmdTail := by
  obtain ⟨queue, worked, handled, outcome⟩ := left
  rcases outcome with ⟨point, notNotified⟩ | ⟨point, notified⟩
  · by_cases none : consumed = []
    · have stepped : handlerStep s = { s with point := .done } := by
        simp [handlerStep, point, worked, none]
      rw [stepped]
      exact ⟨⟨queue, worked, handled, .inr ⟨rfl, by simp [none, notNotified]⟩⟩, rfl, rfl⟩
    · have stepped : handlerStep s = { s with notified := s.notified + 1, point := .done } := by
        simp [handlerStep, point, worked, none]
      rw [stepped]
      exact ⟨⟨queue, worked, handled, .inr ⟨rfl, by simp [none, notNotified]⟩⟩, rfl, rfl⟩
  · have stepped : handlerStep s = s := by simp only [handlerStep, point]
    rw [stepped]
    exact ⟨⟨queue, worked, handled, .inr ⟨point, notified⟩⟩, point, rfl⟩

end Steps

section Runs

variable {s : State} {consumed pending : List Entry} {events : List Event}

/-- Behind the loop only appended entries change the ring, by induction on the events; one
step is enough to return.
-/
theorem Left.run (left : Left s consumed pending)
    (permitted : EveryStep step Permitted s events)
    : Left (after s events) consumed (pending ++ appended events)
      ∧ (after s events).cmdTail = s.cmdTail
      ∧ (s.point = .done ∨ 0 < handlerSteps events → (after s events).point = .done) := by
  induction events generalizing s pending with
  | nil =>
      rw [after_nil, appended, List.append_nil]
      exact ⟨left, rfl, by simp [handlerSteps]⟩
  | cons event later ih =>
      obtain ⟨now, others⟩ := permitted
      cases event with
      | handler =>
          obtain ⟨stepped, returned, tail⟩ := left.progress
          obtain ⟨final, sameTail, done⟩ := ih stepped others
          exact ⟨final, sameTail.trans tail, fun _ => done (.inl returned)⟩
      | append entry rest =>
          obtain ⟨final, sameTail, done⟩ := ih (left.append now) others
          rw [List.append_assoc] at final
          exact ⟨final, sameTail, done⟩

/-- The loop goes on with fewer steps to come, or it has been left at a test that found
nothing pending, by induction on the events.
-/
theorem Looping.run (looping : Looping s consumed pending)
    (permitted : EveryStep step Permitted s events)
    : (∃ consumed' pending', Looping (after s events) consumed' pending'
        ∧ remaining pending'.length (after s events).point + handlerSteps events
          ≤ remaining pending.length s.point + 3 * (appended events).length)
      ∨ ∃ earlier later, events = earlier ++ .handler :: later
        ∧ Looping (after s earlier) (consumed ++ pending ++ appended earlier) []
        ∧ (after s earlier).point = .test
        ∧ Left (after s (earlier ++ [.handler])) (consumed ++ pending ++ appended earlier) []
        ∧ EveryStep step Permitted (after s (earlier ++ [.handler])) later
        ∧ 2 + handlerSteps earlier
          ≤ remaining pending.length s.point + 3 * (appended earlier).length := by
  induction events generalizing s consumed pending with
  | nil =>
      left
      exact ⟨consumed, pending, looping, by simp [handlerSteps, appended]⟩
  | cons event later ih =>
      obtain ⟨now, others⟩ := permitted
      cases event with
      | handler =>
          rcases looping.progress with ⟨consumed', pending', next, same, less⟩ | ⟨test, none, left⟩
          · rcases ih next others with
              ⟨consumed'', pending'', final, bound⟩
                | ⟨earlier, rest, rfl, final, test, left, permitted, bound⟩
            · left
              refine ⟨consumed'', pending'', final, ?_⟩
              simp only [after_cons, step, appended, handlerSteps] at bound ⊢
              omega
            · right
              rw [same] at final left
              refine ⟨.handler :: earlier, rest, rfl, final, test, left, permitted, ?_⟩
              simp only [appended, handlerSteps] at bound ⊢
              omega
          · right
            subst none
            rw [List.append_nil]
            refine ⟨[], later, rfl, ?_, test, ?_, others, ?_⟩
            · simpa [appended] using looping
            · simpa [appended, step] using left
            · simp [handlerSteps, appended, remaining, test]
      | append entry rest =>
          have more : remaining (pending ++ [entry]).length (kernelAppend entry rest s).point
              ≤ remaining pending.length s.point + 3 := by
            rw [List.length_append]
            exact remaining_succ_le pending.length s.point
          rcases ih (looping.append now) others with
            ⟨consumed'', pending'', final, bound⟩
              | ⟨earlier, others', rfl, final, test, left, permitted, bound⟩
          · left
            refine ⟨consumed'', pending'', final, ?_⟩
            simp only [after_cons, step, appended, handlerSteps, List.length_cons] at bound ⊢
            omega
          · right
            refine ⟨.append entry rest :: earlier, others', rfl, ?_, test, ?_, permitted, ?_⟩
            · simpa [appended, step] using final
            · simpa [appended, step] using left
            · simp only [appended, handlerSteps, List.length_cons]
              omega

end Runs

/-- `handle_device_events` has returned after the events, whose last test of the loop is the
event behind `earlier`: it has handled the commands that the ring held before that, each once
and in their order, and the entries appended since wait in the ring.
-/
structure Drained (s : State) (queue : List Entry) (earlier later : List Event) : Prop where
  lastTest : (after s earlier).point = .test
    ∧ (after s earlier).cmdTail = (after s earlier).cmdHead
  returned : (after s (earlier ++ .handler :: later)).point = .done
  handled : (after s (earlier ++ .handler :: later)).handled
    = commands (queue ++ appended earlier)
  tail : (after s (earlier ++ .handler :: later)).cmdTail = (after s earlier).cmdHead
  waiting : Pending (after s (earlier ++ .handler :: later)) (appended later)
  notified : (after s (earlier ++ .handler :: later)).notified
    = if queue ++ appended earlier = [] then 0 else 1

/-- All entries, also those that the kernel appends until the return, have been dealt with. -/
structure DrainedCompletely (s : State) (queue : List Entry) (events : List Event) : Prop where
  handled : (after s events).handled = commands (queue ++ appended events)
  tail : (after s events).cmdTail = (after s events).cmdHead
  notified : (after s events).notified = if queue ++ appended events = [] then 0 else 1

theorem appended_append (left right : List Event)
    : appended (left ++ right) = appended left ++ appended right := by
  induction left with
  | nil => rfl
  | cons event rest ih => cases event <;> simp [appended, ih]

theorem after_append (s : State) (left right : List Event)
    : after s (left ++ right) = after (after s left) right :=
  List.foldl_append

theorem handlerSteps_append (left right : List Event)
    : handlerSteps (left ++ right) = handlerSteps left + handlerSteps right := by
  induction left with
  | nil => simp [handlerSteps]
  | cons event rest ih =>
      cases event with
      | handler =>
          simp only [List.cons_append, handlerSteps, ih]
          omega
      | append => simp only [List.cons_append, handlerSteps, ih]

/-- `handle_device_events` returns after three steps for each entry and three more; it drains the
ring up to its last look at `cmd_head`, and completely exactly if the kernel appends nothing after
that. The invariant `Looping` bounds the steps that remain, whatever the kernel appends, and thus
gives the last look.
-/
theorem handleDeviceEvents_drains (s : State) (queue : List Entry) (events : List Event)
    (called : Called s queue) (permitted : EveryStep step Permitted s events)
    (enough : 3 * (queue.length + (appended events).length) + 3 ≤ handlerSteps events)
    : ∃ earlier later, events = earlier ++ .handler :: later ∧ Drained s queue earlier later
      ∧ (DrainedCompletely s queue events ↔ appended later = []) := by
  have looping : Looping s [] queue :=
    { queue := called.pending
      notLeft := by simp [called.atStart]
      fresh := fun _ => rfl
      ent := fun started => absurd called.atStart started
      worked := fun started => absurd called.atStart started
      current := by simp [called.atStart]
      handled := by simp [called.atStart, called.nothingHandled, commands]
      notNotified := called.notNotified }
  rcases looping.run permitted with
    ⟨consumed, pending, final, bound⟩ | ⟨earlier, later, rfl, final, test, left, others, bound⟩
  · -- The steps are used up, but a handler in its loop has some to come.
    have positive : 0 < remaining pending.length (after s events).point := by
      have inLoop := final.notLeft
      cases point : (after s events).point with
      | advance =>
          have some := List.length_pos_iff.mpr (final.current (.inr point))
          simp only [remaining]
          omega
      | start | test | handle => simp [remaining]
      | notify => exact absurd point inLoop.1
      | done => exact absurd point inLoop.2
    rw [called.atStart, remaining] at bound
    omega
  · refine ⟨earlier, later, rfl, ?_⟩
    have split : after s (earlier ++ .handler :: later)
        = after (after s (earlier ++ [.handler])) later := by
      rw [← after_append, List.append_assoc, List.singleton_append]
    obtain ⟨ended, sameTail, done⟩ := left.run others
    have caughtUp := final.queue.tail_eq_head_iff.mpr rfl
    have lastTail : (after s (earlier ++ [.handler])).cmdTail = (after s earlier).cmdTail := by
      simp only [after_append, after_cons, after_nil, step, handlerStep, test]
      split <;> rfl
    have returned : (after (after s (earlier ++ [.handler])) later).point = .done := by
      apply done
      right
      rw [called.atStart, remaining] at bound
      simp only [appended_append, handlerSteps_append, appended, handlerSteps,
        List.length_append] at enough
      omega
    rw [List.nil_append] at ended
    have notified : (after (after s (earlier ++ [.handler])) later).notified
        = if queue ++ appended earlier = [] then 0 else 1 := by
      rcases ended.outcome with ⟨point, _⟩ | ⟨_, count⟩
      · rw [returned] at point
        cases point
      · exact count
    rw [← split] at ended sameTail returned notified
    have waiting : Pending (after s (earlier ++ .handler :: later)) (appended later) := ended.queue
    refine ⟨⟨⟨test, caughtUp⟩, returned, ended.handled, ?_, waiting, notified⟩, ?_⟩
    · rw [sameTail, lastTail, caughtUp]
    · constructor
      · intro complete
        exact waiting.tail_eq_head_iff.mp complete.tail
      · intro none
        have all : appended (earlier ++ .handler :: later) = appended earlier := by
          rw [appended_append, appended, none, List.append_nil]
        refine ⟨?_, waiting.tail_eq_head_iff.mpr none, ?_⟩
        · rw [all, ended.handled]
        · rw [all, notified]

def paddedRing : State :=
  { cmdrOff := 64
    cmdrSize := 24
    cmdHead := 8
    cmdTail := 16
    region := fun offset => if offset = 80 then ⟨.pad, 8, 0⟩ else ⟨.cmd, 8, 0x12⟩
    scsiStatus := fun _ => none
    point := .start
    ent := 0
    didSomeWork := false
    handled := []
    notified := 0 }

theorem paddedRing_called : Called paddedRing [⟨.pad, 8, 0⟩, ⟨.cmd, 8, 0x12⟩] :=
  { pending := ⟨16, rfl, rfl, ⟨rfl, by decide, by decide, rfl, by decide, by decide, trivial⟩,
      by decide⟩
    atStart := rfl
    nothingHandled := rfl
    notNotified := rfl }

def appendedInPass : List Event :=
  [.handler, .handler, .append ⟨.cmd, 4, 0x28⟩ fun _ => ⟨.pad, 0, 0⟩]
    ++ List.replicate 10 .handler

theorem paddedRing_drained
    : ∃ earlier later, appendedInPass = earlier ++ .handler :: later
      ∧ Drained paddedRing [⟨.pad, 8, 0⟩, ⟨.cmd, 8, 0x12⟩] earlier later
      ∧ (DrainedCompletely paddedRing [⟨.pad, 8, 0⟩, ⟨.cmd, 8, 0x12⟩] appendedInPass
        ↔ appended later = []) :=
  handleDeviceEvents_drains paddedRing _ appendedInPass paddedRing_called
    (by simp only [appendedInPass, List.replicate, List.cons_append, List.nil_append, EveryStep,
      Permitted]; decide)
    (by decide)

/-- The kernel appends a command to an empty ring when the loop has been left: it is not
handled, and `cmd_tail` is not `cmd_head` on return.
-/
theorem lateEntry_waits
    : ¬ ∀ (s : State) (queue : List Entry) (events : List Event), Called s queue →
        EveryStep step Permitted s events → (after s events).point = .done →
        DrainedCompletely s queue events := by
  intro complete
  have called : Called { paddedRing with cmdHead := 16 } [] :=
    ⟨⟨16, rfl, rfl, trivial, by decide⟩, rfl, rfl, rfl⟩
  have drained := complete _ [] [.handler, .handler, .append ⟨.cmd, 8, 0x28⟩ paddedRing.region,
    .handler] called (by simp only [EveryStep, Permitted]; decide) rfl
  exact absurd drained.tail (by decide)

end LinuxDoc.Tcmu
