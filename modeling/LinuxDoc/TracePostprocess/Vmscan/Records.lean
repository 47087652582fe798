import LinuxDoc.Foundations.History
import LinuxDoc.TracePostprocess.Vmscan.Script
import Mathlib.Data.List.Induction

/-! What `process_events` has recorded for a process, as a function of the events of that
process. These are given as a history, with the newest event first.
-/

namespace LinuxDoc.TracePostprocess.Vmscan

open Foundations

def historyOf (process : List Char) (events : List Event) : List Event :=
  (events.filter (·.process = process)).reverse

def Tracepoint.isDirectBegin : Tracepoint → Bool
  | .directReclaimBegin _ => true
  | _ => false

def Tracepoint.isKswapdWake : Tracepoint → Bool
  | .kswapdWake (some _) => true
  | _ => false

def latestBegin (history : List Event) : Option Timestamp :=
  (history.find? (·.tracepoint.isDirectBegin)).map (·.timestamp)

def directOrder (history : List Event) : Option Nat :=
  history.findSome? fun event =>
    match event.tracepoint with
    | .directReclaimBegin order => order
    | _ => none

def kswapdOrder (history : List Event) : Option Nat :=
  history.findSome? fun event =>
    match event.tracepoint with
    | .kswapdWake order => order
    | _ => none

/-- The time that is taken for the start of kswapd, or 0. -/
def awakeSince : List Event → ℚ
  | [] => 0
  | event :: earlier =>
      match event.tracepoint with
      | .kswapdWake (some _) =>
          if awakeSince earlier = 0 then timestampToMs event.timestamp else awakeSince earlier
      | .kswapdSleep => 0
      | _ => awakeSince earlier

def directSlot (event : Event) (earlier : List Event) : Option Slot :=
  if event.tracepoint = .directReclaimEnd then
    (latestBegin earlier).map fun begun =>
      ⟨directOrder earlier, timestampToMs event.timestamp - timestampToMs begun⟩
  else none

def missedEnd (event : Event) (earlier : List Event) : Option Event :=
  if event.tracepoint = .directReclaimEnd ∧ latestBegin earlier = none then some event else none

def kswapdSlot (event : Event) (earlier : List Event) : Option Slot :=
  if event.tracepoint = .kswapdSleep then
    some ⟨kswapdOrder earlier, timestampToMs event.timestamp - awakeSince earlier⟩
  else none

def directSlots (history : List Event) : List Slot :=
  collected directSlot history

def missedEnds (history : List Event) : List Event :=
  collected missedEnd history

def kswapdSlots (history : List Event) : List Slot :=
  collected kswapdSlot history

/-- The state of a process after a history. The ends of direct reclaims that were missed have
left a gap in front of the latencies.
-/
structure Records (history : List Event) (stats : Stats) : Prop where
  directBegin : stats.stateDirectBegin = (latestBegin history).map timestampToMs
  directOrder : stats.stateDirectOrder = directOrder history
  kswapdBegin : stats.stateKswapdBegin = awakeSince history
  kswapdOrder : stats.stateKswapdOrder = kswapdOrder history
  ends
    : stats.count .mmVmscanDirectReclaimEnd
      = (missedEnds history).length + (directSlots history).length
  direct
    : stats.highDirectReclaimLatency
      = SparseArray.storeFrom [] (missedEnds history).length (directSlots history)
  sleeps : stats.count .mmVmscanKswapdSleep = (kswapdSlots history).length
  kswapd : stats.highKswapdLatency = (kswapdSlots history).map some

/-! Counters -/

@[simp] theorem count_add (field other : Field) (n : Nat) (stats : Stats)
    : (stats.add field n).count other
      = stats.count other + if other = field then n else 0 := by
  by_cases same : other = field
  · subst same
    simp [Stats.add]
  · simp [Stats.add, same]

@[simp] theorem count_bump (field other : Field) (stats : Stats)
    : (stats.bump field).count other = stats.count other + if other = field then 1 else 0 :=
  count_add field other 1 stats

/-! One event -/

def Tracepoint.timed : Tracepoint → Bool
  | .directReclaimBegin _ | .directReclaimEnd | .kswapdWake _ | .kswapdSleep => true
  | _ => false

variable {history : List Event}

/-- Without a begin nothing is recorded for direct reclaim. -/
theorem directSlots_of_latestBegin_eq_none (none : latestBegin history = none)
    : directSlots history = [] := by
  induction history with
  | nil => rfl
  | cons event earlier ih =>
      have before : latestBegin earlier = .none := by
        simp only [latestBegin, Option.map_eq_none_iff, List.find?_eq_none] at none ⊢
        exact fun event mem => none event (.tail _ mem)
      rw [directSlots, collected_cons, ← directSlots, ih before, directSlot, before]
      split <;> rfl

theorem records_fresh : Records [] .fresh :=
  ⟨rfl, rfl, rfl, rfl, rfl, rfl, rfl, rfl⟩

variable {stats : Stats}

/-- Other counters do not matter. -/
theorem Records.congr_count (records : Records history stats) (count : Field → Nat)
    (ends : count .mmVmscanDirectReclaimEnd = stats.count .mmVmscanDirectReclaimEnd)
    (sleeps : count .mmVmscanKswapdSleep = stats.count .mmVmscanKswapdSleep)
    : Records history { stats with count := count } :=
  { records with
    ends := ends.trans records.ends
    sleeps := sleeps.trans records.sleeps }

theorem processEvent_untimed {tracepoint : Tracepoint} (untimed : tracepoint.timed = false)
    (timestamp : Timestamp) (stats : Stats)
    : ∃ count : Field → Nat,
        processEvent timestamp tracepoint stats = { stats with count := count }
        ∧ count .mmVmscanDirectReclaimEnd = stats.count .mmVmscanDirectReclaimEnd
        ∧ count .mmVmscanKswapdSleep = stats.count .mmVmscanKswapdSleep
        ∧ count .mmVmscanKswapdWake = stats.count .mmVmscanKswapdWake := by
  refine ⟨(processEvent timestamp tracepoint stats).count, ?_⟩
  cases tracepoint with
  | directReclaimBegin | directReclaimEnd | kswapdWake | kswapdSleep => contradiction
  | wakeupKswapd | other => exact ⟨rfl, rfl, rfl, rfl⟩
  | lruIsolate details =>
      cases details with
      | none => exact ⟨rfl, rfl, rfl, rfl⟩
      | some details =>
          simp only [processEvent]
          split_ifs <;> exact ⟨rfl, rfl, rfl, rfl⟩
  | lruShrinkInactive details =>
      cases details with
      | none => exact ⟨rfl, rfl, rfl, rfl⟩
      | some details =>
          simp only [processEvent]
          split_ifs <;> exact ⟨rfl, rfl, rfl, rfl⟩
  | writepage details =>
      cases details with
      | none => exact ⟨rfl, rfl, rfl, rfl⟩
      | some details =>
          obtain ⟨file, syncIo⟩ := details
          cases file <;> cases syncIo <;> exact ⟨rfl, rfl, rfl, rfl⟩

/-! Only the end of a direct reclaim and the sleep of kswapd are recorded. -/

variable {event : Event}

theorem missedEnds_cons_of_ne (other : event.tracepoint ≠ .directReclaimEnd) (history : List Event)
    : missedEnds (event :: history) = missedEnds history := by
  simp [missedEnds, missedEnd, other]

theorem directSlots_cons_of_ne (other : event.tracepoint ≠ .directReclaimEnd) (history : List Event)
    : directSlots (event :: history) = directSlots history := by
  simp [directSlots, directSlot, other]

theorem kswapdSlots_cons_of_ne (other : event.tracepoint ≠ .kswapdSleep) (history : List Event)
    : kswapdSlots (event :: history) = kswapdSlots history := by
  simp [kswapdSlots, kswapdSlot, other]

structure SameLatencies (after before : Stats) : Prop where
  ends : after.count .mmVmscanDirectReclaimEnd = before.count .mmVmscanDirectReclaimEnd
  direct : after.highDirectReclaimLatency = before.highDirectReclaimLatency
  sleeps : after.count .mmVmscanKswapdSleep = before.count .mmVmscanKswapdSleep
  kswapd : after.highKswapdLatency = before.highKswapdLatency

/-- An event that is not recorded only changes where the next latencies start. -/
theorem Records.carry {stats after : Stats} (records : Records history stats)
    (noEnd : event.tracepoint ≠ .directReclaimEnd) (noSleep : event.tracepoint ≠ .kswapdSleep)
    (same : SameLatencies after stats)
    (directBegin : after.stateDirectBegin = (latestBegin (event :: history)).map timestampToMs)
    (directOrder : after.stateDirectOrder = Vmscan.directOrder (event :: history))
    (kswapdBegin : after.stateKswapdBegin = awakeSince (event :: history))
    (kswapdOrder : after.stateKswapdOrder = Vmscan.kswapdOrder (event :: history))
    : Records (event :: history) after where
  directBegin := directBegin
  directOrder := directOrder
  kswapdBegin := kswapdBegin
  kswapdOrder := kswapdOrder
  ends := by
    rw [same.ends, missedEnds_cons_of_ne noEnd, directSlots_cons_of_ne noEnd, records.ends]
  direct := by
    rw [same.direct, missedEnds_cons_of_ne noEnd, directSlots_cons_of_ne noEnd, records.direct]
  sleeps := by rw [same.sleeps, kswapdSlots_cons_of_ne noSleep, records.sleeps]
  kswapd := by rw [same.kswapd, kswapdSlots_cons_of_ne noSleep, records.kswapd]

/-- What an event without a time does not change. -/
theorem Records.untimed (records : Records history stats) (untimed : event.tracepoint.timed = false)
    : Records (event :: history) stats := by
  obtain ⟨process, timestamp, tracepoint⟩ := event
  cases tracepoint with
  | directReclaimBegin | directReclaimEnd | kswapdWake | kswapdSleep => contradiction
  | wakeupKswapd | other | lruIsolate | lruShrinkInactive | writepage =>
      exact records.carry (by simp) (by simp) ⟨rfl, rfl, rfl, rfl⟩ records.directBegin
        records.directOrder records.kswapdBegin records.kswapdOrder

/-- A begin sets the start of the latencies that follow. -/
theorem Records.directReclaimBegin (records : Records history stats) (process : List Char)
    (timestamp : Timestamp) (order : Option Nat)
    : Records (⟨process, timestamp, .directReclaimBegin order⟩ :: history)
        (processEvent timestamp (.directReclaimBegin order) stats) := by
  cases order with
  | none =>
      exact records.carry (by simp) (by simp) ⟨rfl, rfl, rfl, rfl⟩ rfl records.directOrder
        records.kswapdBegin records.kswapdOrder
  | some order =>
      exact records.carry (by simp) (by simp) ⟨rfl, rfl, rfl, rfl⟩ rfl rfl
        records.kswapdBegin records.kswapdOrder

theorem processEvent_end_of_none (none : stats.stateDirectBegin = none) (timestamp : Timestamp)
    : processEvent timestamp .directReclaimEnd stats = stats.bump .mmVmscanDirectReclaimEnd := by
  simp [processEvent, Stats.bump, Stats.add, none]

theorem processEvent_end_of_some {begun : ℚ} (some : stats.stateDirectBegin = some begun)
    (timestamp : Timestamp)
    : processEvent timestamp .directReclaimEnd stats
      = { stats.bump .mmVmscanDirectReclaimEnd with
          highDirectReclaimLatency :=
            stats.highDirectReclaimLatency.store (stats.count .mmVmscanDirectReclaimEnd)
              ⟨stats.stateDirectOrder, timestampToMs timestamp - begun⟩ } := by
  simp [processEvent, Stats.bump, Stats.add, some]

/-- An end stores a latency after those that are there; one that was missed makes the gap in
front of them longer.
-/
theorem Records.directReclaimEnd (records : Records history stats) (process : List Char)
    (timestamp : Timestamp)
    : Records (⟨process, timestamp, .directReclaimEnd⟩ :: history)
        (processEvent timestamp .directReclaimEnd stats) := by
  have stored := records.directBegin
  have kswapd : kswapdSlots (⟨process, timestamp, .directReclaimEnd⟩ :: history)
      = kswapdSlots history := kswapdSlots_cons_of_ne (by simp) history
  cases latest : latestBegin history with
  | none =>
      have none := directSlots_of_latestBegin_eq_none latest
      have missed : missedEnds (⟨process, timestamp, .directReclaimEnd⟩ :: history)
          = missedEnds history ++ [⟨process, timestamp, .directReclaimEnd⟩] := by
        simp [missedEnds, missedEnd, latest]
      have direct : directSlots (⟨process, timestamp, .directReclaimEnd⟩ :: history) = [] := by
        simpa [directSlots, directSlot, latest] using none
      rw [latest, Option.map_none] at stored
      rw [processEvent_end_of_none stored]
      refine ⟨records.directBegin, records.directOrder, records.kswapdBegin, records.kswapdOrder,
        ?_, ?_, ?_, ?_⟩
      · simp [missed, direct, records.ends, none]
      · have empty := records.direct
        rw [none] at empty
        rw [missed, direct]
        exact empty
      · simpa [kswapd] using records.sleeps
      · rw [kswapd]
        exact records.kswapd
  | some begun =>
      have missed : missedEnds (⟨process, timestamp, .directReclaimEnd⟩ :: history)
          = missedEnds history := by
        simp [missedEnds, missedEnd, latest]
      have direct : directSlots (⟨process, timestamp, .directReclaimEnd⟩ :: history)
          = directSlots history
            ++ [⟨Vmscan.directOrder history, timestampToMs timestamp - timestampToMs begun⟩] := by
        simp [directSlots, directSlot, latest]
      rw [latest, Option.map_some] at stored
      rw [processEvent_end_of_some stored]
      refine ⟨records.directBegin, records.directOrder, records.kswapdBegin, records.kswapdOrder,
        ?_, ?_, ?_, ?_⟩
      · simp [missed, direct, records.ends, Nat.add_assoc]
      · rw [missed, direct, SparseArray.storeFrom_append, ← records.direct, ← records.ends,
          ← records.directOrder]
        rfl
      · simpa [kswapd] using records.sleeps
      · rw [kswapd]
        exact records.kswapd

/-- A wake sets the start of the next latency, unless kswapd is awake. -/
theorem Records.kswapdWake (records : Records history stats) (process : List Char)
    (timestamp : Timestamp) (order : Option Nat)
    : Records (⟨process, timestamp, .kswapdWake order⟩ :: history)
        (processEvent timestamp (.kswapdWake order) stats) := by
  cases order with
  | none =>
      exact records.carry (by simp) (by simp) ⟨rfl, rfl, rfl, rfl⟩ records.directBegin
        records.directOrder records.kswapdBegin records.kswapdOrder
  | some order =>
      have awake := records.kswapdBegin
      simp only [processEvent]
      split_ifs with asleep
      · have since : awakeSince (⟨process, timestamp, .kswapdWake (some order)⟩ :: history)
            = timestampToMs timestamp := if_pos (awake.symm.trans asleep)
        exact records.carry (by simp) (by simp) ⟨rfl, rfl, rfl, rfl⟩ records.directBegin
          records.directOrder since.symm rfl
      · have since : awakeSince (⟨process, timestamp, .kswapdWake (some order)⟩ :: history)
            = awakeSince history := if_neg fun zero => asleep (awake.trans zero)
        exact records.carry (by simp) (by simp) ⟨rfl, rfl, rfl, rfl⟩ records.directBegin
          records.directOrder (awake.trans since.symm) rfl

/-- A sleep stores a latency after those that are there. -/
theorem Records.kswapdSleep (records : Records history stats) (process : List Char)
    (timestamp : Timestamp)
    : Records (⟨process, timestamp, .kswapdSleep⟩ :: history)
        (processEvent timestamp .kswapdSleep stats) := by
  have missed : missedEnds (⟨process, timestamp, .kswapdSleep⟩ :: history)
      = missedEnds history := missedEnds_cons_of_ne (by simp) history
  have direct : directSlots (⟨process, timestamp, .kswapdSleep⟩ :: history)
      = directSlots history := directSlots_cons_of_ne (by simp) history
  have kswapd : kswapdSlots (⟨process, timestamp, .kswapdSleep⟩ :: history)
      = kswapdSlots history
        ++ [⟨stats.stateKswapdOrder, timestampToMs timestamp - stats.stateKswapdBegin⟩] := by
    rw [records.kswapdOrder, records.kswapdBegin]
    rfl
  refine ⟨records.directBegin, records.directOrder, rfl, records.kswapdOrder, ?_, ?_, ?_, ?_⟩
  · rw [missed, direct]
    exact records.ends
  · rw [missed, direct]
    exact records.direct
  · simp [processEvent, kswapd, records.sleeps]
  · have length : stats.highKswapdLatency.length = (kswapdSlots history).length := by
      rw [records.kswapd, List.length_map]
    rw [kswapd, List.map_append, ← records.kswapd]
    simp only [processEvent]
    rw [records.sleeps, ← length]
    exact SparseArray.store_length ..

theorem Records.processEvent (records : Records history stats) (event : Event)
    : Records (event :: history) (processEvent event.timestamp event.tracepoint stats) := by
  cases timed : event.tracepoint.timed with
  | false =>
      obtain ⟨count, eq, ends, sleeps, _⟩ := processEvent_untimed timed event.timestamp stats
      rw [eq]
      exact (records.untimed timed).congr_count count ends sleeps
  | true =>
      obtain ⟨process, timestamp, tracepoint⟩ := event
      cases tracepoint with
      | directReclaimBegin order => exact records.directReclaimBegin process timestamp order
      | directReclaimEnd => exact records.directReclaimEnd process timestamp
      | kswapdWake order => exact records.kswapdWake process timestamp order
      | kswapdSleep => exact records.kswapdSleep process timestamp
      | wakeupKswapd | lruIsolate | lruShrinkInactive | writepage | other => contradiction

/-! The rows of `%perprocesspid` -/

/-- A line that is left with `next` changes nothing. -/
theorem processEvent_of_skipped {tracepoint : Tracepoint} (skipped : tracepoint.skipped = true)
    (timestamp : Timestamp) (stats : Stats)
    : processEvent timestamp tracepoint stats = stats := by
  cases tracepoint with
  | directReclaimEnd | kswapdSleep | wakeupKswapd | other => contradiction
  | directReclaimBegin details => cases details <;> contradiction
  | kswapdWake details | lruIsolate details | lruShrinkInactive details | writepage details =>
      cases details with
      | none => rfl
      | some => contradiction

theorem row_processLine (table : Table) (event : Event) (process : List Char)
    : (processLine table event).row process
      = if event.process = process then
          processEvent event.timestamp event.tracepoint (table.row process)
        else table.row process := by
  unfold processLine
  split_ifs with skipped same same
  · rw [processEvent_of_skipped skipped]
  · rfl
  · rw [KeyedTable.row_update, if_pos same]
  · rw [KeyedTable.row_update, if_neg same]

theorem processEvents_append (events : List Event) (event : Event)
    : processEvents (events ++ [event]) = processLine (processEvents events) event :=
  List.foldl_append

theorem historyOf_eq_nil {events : List Event} {process : List Char}
    (none : ∀ event ∈ events, event.process ≠ process)
    : historyOf process events = [] := by
  unfold historyOf
  rw [List.filter_eq_nil_iff.mpr (by simpa using none), List.reverse_nil]

/-- The events of a process decide what is recorded for it. -/
theorem records_processEvents (events : List Event) (process : List Char)
    : Records (historyOf process events) ((processEvents events).row process) := by
  induction events using List.reverseRecOn with
  | nil => exact records_fresh
  | append_singleton events event ih =>
      rw [processEvents_append, row_processLine]
      unfold historyOf at ih ⊢
      rw [List.filter_append, List.reverse_append]
      split_ifs with same
      · rw [List.filter_cons_of_pos (by simpa using same)]
        exact ih.processEvent event
      · rw [List.filter_cons_of_neg (by simpa using same)]
        exact ih

end LinuxDoc.TracePostprocess.Vmscan
