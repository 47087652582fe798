import LinuxDoc.TracePostprocess.Vmscan.Summary
import Mathlib.Algebra.BigOperators.Ring.List
import Mathlib.Tactic.Ring

/-! The total times of the summary against the times in the trace. The two arrays of a process
are read side by side at one index: a gap ends the reading, and a latency of kswapd beside one
of direct reclaim is passed over.
-/

namespace LinuxDoc.TracePostprocess.Vmscan

open Foundations

/-! The times in a trace -/

def Timestamp.seconds (timestamp : Timestamp) : ℚ :=
  timestamp.sec + timestamp.usec / 1000000

/-- The time of the first wake of kswapd since it last went to sleep. -/
def openWake (history : List Event) : Option Timestamp :=
  (((history.takeWhile (·.tracepoint ≠ .kswapdSleep)).filter
    (·.tracepoint.isKswapdWake)).getLast?).map (·.timestamp)

/-- The time that a process was stalled, at the end of a direct reclaim that follows a begin. -/
def stall (event : Event) (earlier : List Event) : Option ℚ :=
  if event.tracepoint = .directReclaimEnd then
    (latestBegin earlier).map fun begun => event.timestamp.seconds - begun.seconds
  else none

/-- The time that kswapd was awake, when it goes to sleep after a wake. -/
def awake (event : Event) (earlier : List Event) : Option ℚ :=
  if event.tracepoint = .kswapdSleep then
    (openWake earlier).map fun woken => event.timestamp.seconds - woken.seconds
  else none

def perProcess (find : Event → List Event → Option ℚ) (events : List Event) : List ℚ :=
  collected (fun event earlier => find event (earlier.filter (·.process = event.process)))
    events.reverse

/-- Both total times are those of the trace. -/
def AccountsForTimes (totals : Totals) (events : List Event) : Prop :=
  totals.directLatency = (perProcess stall events).sum
  ∧ totals.kswapdLatency = (perProcess awake events).sum

instance (totals : Totals) (events : List Event) : Decidable (AccountsForTimes totals events) :=
  inferInstanceAs (Decidable (_ ∧ _))

/-- The histories of a process for which its times are counted in full. If it has times in
direct reclaim, the ends that were missed leave a gap in front of them, and the times of kswapd
have to fill that gap and to go no further.
-/
structure Accountable (history : List Event) : Prop where
  stall_nonneg : ∀ time ∈ collected stall history, 0 ≤ time
  awake_nonneg : ∀ time ∈ collected awake history, 0 ≤ time
  woken
    : Throughout (fun event earlier => event.tracepoint = .kswapdSleep → openWake earlier ≠ none)
        history
  fits
    : collected stall history = []
      ∨ history.countP (·.tracepoint = .kswapdSleep) = (missedEnds history).length

/-! Recorded latencies and times -/

theorem timestampToMs_eq (timestamp : Timestamp)
    : timestampToMs timestamp = 1000 * timestamp.seconds := by
  unfold timestampToMs Timestamp.seconds
  ring

theorem latencies_directSlots (history : List Event)
    : (directSlots history).map Slot.latency = (collected stall history).map (1000 * ·) := by
  unfold directSlots
  rw [map_collected, map_collected]
  congr 1
  funext event earlier
  unfold directSlot stall
  split_ifs
  · cases latestBegin earlier with
    | none => rfl
    | some begun => simp [timestampToMs_eq, mul_sub]
  · rfl

theorem openWake_cons (event : Event) (earlier : List Event)
    : openWake (event :: earlier)
      = if event.tracepoint = .kswapdSleep then none
        else (openWake earlier).or
          (if event.tracepoint.isKswapdWake then some event.timestamp else none) := by
  unfold openWake
  split_ifs with sleep wake
  · rw [List.takeWhile_cons_of_neg (by simpa using sleep)]
    rfl
  · rw [List.takeWhile_cons_of_pos (by simpa using sleep),
      List.filter_cons_of_pos (by simpa using wake), List.getLast?_cons]
    cases ((earlier.takeWhile (·.tracepoint ≠ .kswapdSleep)).filter
      (·.tracepoint.isKswapdWake)).getLast? <;> rfl
  · rw [List.takeWhile_cons_of_pos (by simpa using sleep),
      List.filter_cons_of_neg (by simpa using wake), Option.or_none]

variable {history : List Event}

theorem exists_of_openWake {woken : Timestamp} (opened : openWake history = some woken)
    : ∃ event ∈ history, event.timestamp = woken := by
  obtain ⟨event, last, rfl⟩ := Option.map_eq_some_iff.mp opened
  have kept := List.mem_of_getLast? last
  exact ⟨event, (List.takeWhile_sublist _).subset (List.mem_of_mem_filter kept), rfl⟩

/-- With positive times, kswapd is taken to be awake since its first wake. -/
theorem awakeSince_eq (positive : ∀ event ∈ history, 0 < event.timestamp.seconds)
    : awakeSince history = ((openWake history).map timestampToMs).getD 0 := by
  induction history with
  | nil => rfl
  | cons event earlier ih =>
      have before := ih fun event mem => positive event (.tail _ mem)
      rw [openWake_cons]
      obtain ⟨process, timestamp, tracepoint⟩ := event
      cases tracepoint with
      | kswapdSleep => rfl
      | kswapdWake order =>
          cases order with
          | none => simpa [awakeSince, Tracepoint.isKswapdWake] using before
          | some order =>
              cases opened : openWake earlier with
              | none =>
                  rw [opened] at before
                  exact if_pos before
              | some woken =>
                  obtain ⟨first, mem, rfl⟩ := exists_of_openWake opened
                  have started : awakeSince earlier = timestampToMs first.timestamp := by
                    rw [before, opened]
                    rfl
                  have later : awakeSince earlier ≠ 0 := by
                    rw [started, timestampToMs_eq]
                    exact (mul_pos (by norm_num) (positive first (.tail _ mem))).ne'
                  exact (if_neg later).trans started
      | directReclaimBegin | directReclaimEnd | wakeupKswapd | lruIsolate | lruShrinkInactive
      | writepage | other =>
          simpa [awakeSince, Tracepoint.isKswapdWake] using before

/-- If every sleep follows a wake, a latency is recorded for each time that kswapd was awake. -/
theorem latencies_kswapdSlots (positive : ∀ event ∈ history, 0 < event.timestamp.seconds)
    (woken
      : Throughout (fun event earlier => event.tracepoint = .kswapdSleep → openWake earlier ≠ none)
          history)
    : (kswapdSlots history).map Slot.latency = (collected awake history).map (1000 * ·) := by
  unfold kswapdSlots
  induction history with
  | nil => rfl
  | cons event earlier ih =>
      have positive' : ∀ event ∈ earlier, 0 < event.timestamp.seconds :=
        fun event mem => positive event (.tail _ mem)
      rw [collected_cons, collected_cons, List.map_append, List.map_append, ih positive' woken.2]
      congr 1
      unfold kswapdSlot awake
      split_ifs with sleep
      · obtain ⟨start, opened⟩ := Option.ne_none_iff_exists'.mp (woken.1 sleep)
        rw [awakeSince_eq positive', opened]
        simp [timestampToMs_eq, mul_sub]
      · rfl

theorem length_kswapdSlots (history : List Event)
    : (kswapdSlots history).length = history.countP (·.tracepoint = .kswapdSleep) := by
  unfold kswapdSlots
  induction history with
  | nil => rfl
  | cons event earlier ih =>
      rw [collected_cons, List.length_append, ih, List.countP_cons]
      unfold kswapdSlot
      split_ifs with sleep wrong <;> simp_all

/-- Latencies that are not negative are read as they were recorded. -/
theorem sum_read {slots : List Slot} {times : List ℚ}
    (latencies : slots.map Slot.latency = times.map (1000 * ·))
    (nonneg : ∀ time ∈ times, 0 ≤ time)
    : (slots.map Slot.read).sum = 1000 * times.sum := by
  have read : slots.map Slot.read = slots.map Slot.latency := by
    refine List.map_congr_left fun slot mem => if_neg ?_
    have recorded : slot.latency ∈ times.map (1000 * ·) :=
      latencies ▸ List.mem_map_of_mem mem
    obtain ⟨time, there, eq⟩ := List.mem_map.mp recorded
    rw [← eq, not_lt]
    exact mul_nonneg (by norm_num) (nonneg time there)
  rw [read, latencies, List.sum_map_mul_left, List.map_id']

/-- What an accountable process adds to the two totals. -/
theorem Accountable.read {stats : Stats} (accountable : Accountable history)
    (records : Records history stats) (positive : ∀ event ∈ history, 0 < event.timestamp.seconds)
    : stats.directRead = 1000 * (collected stall history).sum
      ∧ stats.kswapdRead = 1000 * (collected awake history).sum := by
  have direct := latencies_directSlots history
  have kswapd := latencies_kswapdSlots positive accountable.woken
  have slots : stats.slotsRead = (directSlots history, kswapdSlots history) := by
    rcases accountable.fits with none | fits
    · have none : directSlots history = [] := by simpa [none] using direct
      rw [records.slotsRead_of_nil none, none]
    · exact records.slotsRead_of_eq ((length_kswapdSlots history).trans fits)
  unfold Stats.directRead Stats.kswapdRead
  rw [slots]
  exact ⟨sum_read direct accountable.stall_nonneg, sum_read kswapd accountable.awake_nonneg⟩

/-! The totals -/

theorem mem_keys_processEvents {events : List Event} {event : Event} (mem : event ∈ events)
    (counted : event.tracepoint.skipped = false)
    : event.process ∈ (processEvents events).keys := by
  induction events using List.reverseRecOn with
  | nil => contradiction
  | append_singleton events last ih =>
      rw [processEvents_append]
      unfold processLine
      rcases List.mem_append.mp mem with before | here
      · split_ifs
        · exact ih before
        · exact KeyedTable.mem_keys_update.mpr (.inr (ih before))
      · obtain rfl := List.mem_singleton.mp here
        rw [if_neg (by simp [counted])]
        exact KeyedTable.mem_keys_update.mpr (.inl rfl)

/-- Times summed over the trace, process by process. -/
theorem sum_perProcess (find : Event → List Event → Option ℚ) (events : List Event)
    (skipped : ∀ event earlier, event.tracepoint.skipped = true → find event earlier = none)
    : (perProcess find events).sum
      = ((processEvents events).keys.map fun process =>
          (collected find (historyOf process events)).sum).sum := by
  refine (sum_collected_by_key Event.process find (processEvents events).nodup ?_).trans ?_
  · intro event mem missing earlier
    refine skipped event earlier ?_
    by_contra counted
    exact missing (mem_keys_processEvents (List.mem_reverse.mp mem) (by simpa using counted))
  · simp only [historyOf, List.filter_reverse]

/-- If every process is accountable, the summary accounts for all times. The slots of each process
are read, and summed over the processes.
-/
theorem accountsForTimes_of_accountable (enumeration : Enumeration) (events : List Event)
    (positive : ∀ event ∈ events, 0 < event.timestamp.seconds)
    (accountable : ∀ process, Accountable (historyOf process events))
    : AccountsForTimes (summary enumeration false (events.map .line)) events := by
  have read (process : List Char) :=
    (accountable process).read (records_processEvents events process) fun event mem =>
      positive event (List.mem_of_mem_filter (List.mem_reverse.mp mem))
  have direct := sum_perProcess stall events fun event _ skipped => by
    refine if_neg fun ending => ?_
    rw [ending] at skipped
    contradiction
  have kswapd := sum_perProcess awake events fun event _ skipped => by
    refine if_neg fun sleep => ?_
    rw [sleep] at skipped
    contradiction
  have total : summary enumeration false (events.map .line)
      = dumpStats .zero (processEvents events) := by
    rw [summary, signalLoop_lines]
    rfl
  unfold AccountsForTimes
  rw [total, dumpStats_directLatency, dumpStats_kswapdLatency, direct, kswapd]
  simp only [KeyedTable.total, (read _).1, (read _).2, List.sum_map_mul_left, Totals.zero]
  constructor <;> ring

def quietTrace : List Event :=
  [
    ⟨"kswapd0-35".toList, ⟨1, 0⟩, .kswapdWake (some 0)⟩,
    ⟨"cat-1".toList, ⟨1, 100000⟩, .directReclaimBegin (some 0)⟩,
    ⟨"cat-1".toList, ⟨1, 350000⟩, .directReclaimEnd⟩,
    ⟨"kswapd0-35".toList, ⟨1, 500000⟩, .kswapdSleep⟩
  ]

theorem quietTrace_accounted
    : (perProcess stall quietTrace).sum = 1 / 4
      ∧ (perProcess awake quietTrace).sum = 1 / 2
      ∧ AccountsForTimes (summary .stored false (quietTrace.map .line)) quietTrace := by
  refine ⟨by decide +kernel, by decide +kernel,
    accountsForTimes_of_accountable .stored quietTrace (by decide +kernel) ?_⟩
  intro process
  have named : ∀ event ∈ quietTrace,
      event.process = "cat-1".toList ∨ event.process = "kswapd0-35".toList := by
    decide +kernel
  by_cases cat : process = "cat-1".toList
  · subst cat
    exact ⟨by decide +kernel, by decide +kernel, by decide +kernel, by decide +kernel⟩
  · by_cases kswapd : process = "kswapd0-35".toList
    · subst kswapd
      exact ⟨by decide +kernel, by decide +kernel, by decide +kernel, by decide +kernel⟩
    · have none : ∀ event ∈ quietTrace, event.process ≠ process := by
        rintro event mem rfl
        exact (named event mem).elim cat kswapd
      rw [historyOf_eq_nil none]
      exact ⟨nofun, nofun, trivial, .inl rfl⟩

def midReclaim : List Event :=
  [
    ⟨"cat-1".toList, ⟨1, 0⟩, .directReclaimEnd⟩,
    ⟨"cat-1".toList, ⟨2, 0⟩, .directReclaimBegin (some 0)⟩,
    ⟨"cat-1".toList, ⟨2, 5000⟩, .directReclaimEnd⟩
  ]

/-- The end that was missed hides the time of the second reclaim. -/
theorem midReclaim_unaccounted
    : (∀ event ∈ midReclaim, 0 < event.timestamp.seconds ∧ event.tracepoint.unparsed = false)
      ∧ (perProcess stall midReclaim).sum = 5 / 1000
      ∧ (summary .stored false (midReclaim.map .line)).directLatency = 0
      ∧ ¬ AccountsForTimes (summary .stored false (midReclaim.map .line)) midReclaim := by
  decide +kernel

end LinuxDoc.TracePostprocess.Vmscan
