import LinuxDoc.Foundations.MaximalRuns
import LinuxDoc.TracePostprocess.PageAlloc.Script
import Mathlib.Tactic.Common

/-! The batches in a report of `trace-pagealloc-postprocess.pl`. Each process has two machines
that count runs of its events, and a report closes the runs that are open.
-/

namespace LinuxDoc.TracePostprocess.PageAlloc

open Foundations

/-! One process -/

def counter (batch : Batch) (stats : Stats) : RunCounter where
  runs := stats batch.high
  pending := stats batch.state

/-- An event adds to each counter what does not depend on the counters. -/
theorem countEvent_apply (tracepoint : Tracepoint) (stats : Stats) (field : Field)
    : countEvent tracepoint stats field
      = stats field + countEvent tracepoint (fun _ => 0) field := by
  cases tracepoint with
  | mmPageAllocExtfrag details =>
      cases details with
      | none => rfl
      | some details =>
          simp only [countEvent]
          split_ifs <;> cases field <;> simp [bump]
  | _ => cases field <;> simp [countEvent, bump]

theorem counter_countEvent (batch : Batch) (tracepoint : Tracepoint) (stats : Stats)
    : counter batch (countEvent tracepoint stats)
      = {
          counter batch stats with
          pending := stats batch.state + if batch.has tracepoint then 1 else 0
        } := by
  have high : countEvent tracepoint (fun _ => 0) batch.high = 0 := by
    cases tracepoint with
    | mmPageAllocExtfrag details =>
        cases details with
        | none => rfl
        | some details =>
            simp only [countEvent]
            split_ifs <;> cases batch <;> rfl
    | _ => cases batch <;> rfl
  have state : countEvent tracepoint (fun _ => 0) batch.state
      = if batch.has tracepoint then 1 else 0 := by
    cases tracepoint with
    | mmPageAllocExtfrag details =>
        cases details with
        | none => cases batch <;> rfl
        | some details =>
            simp only [countEvent]
            split_ifs <;> cases batch <;> simp_all [Batch.has] <;> rfl
    | _ => cases batch <;> rfl
  rw [counter, countEvent_apply, countEvent_apply tracepoint stats batch.state, high, state]
  rfl

variable {field : Field}

theorem closeBatch_apply {batch : Batch} (high : field ≠ batch.high) (state : field ≠ batch.state)
    (stats : Stats)
    : closeBatch batch stats field = stats field := by
  rw [closeBatch]
  split
  · rw [Function.update_of_ne state, bump, Function.update_of_ne high]
  · rfl

theorem counter_closeBatch_self (batch : Batch) (stats : Stats)
    : counter batch (closeBatch batch stats) = (counter batch stats).read false := by
  have other : batch.high ≠ batch.state := by cases batch <;> nofun
  rw [closeBatch, RunCounter.read, if_neg Bool.false_ne_true]
  by_cases isOpen : stats batch.state = 0
  · simp [counter, isOpen]
  · simp [counter, isOpen, bump, other]

theorem counter_closeBatch_other (batch other : Batch) (apart : batch ≠ other) (stats : Stats)
    : counter batch (closeBatch other stats) = counter batch stats := by
  have high : batch.high ≠ other.high ∧ batch.high ≠ other.state := by
    cases batch <;> cases other <;> simp [Batch.high, Batch.state] at apart ⊢
  have state : batch.state ≠ other.high ∧ batch.state ≠ other.state := by
    cases batch <;> cases other <;> simp [Batch.high, Batch.state] at apart ⊢
  rw [counter, closeBatch_apply high.1 high.2, closeBatch_apply state.1 state.2]
  rfl

theorem counter_dumpRow (batch : Batch) (stats : Stats)
    : counter batch (dumpRow stats) = (counter batch stats).read false := by
  cases batch with
  | drain => rw [dumpRow, counter_closeBatch_other .drain .refill nofun, counter_closeBatch_self]
  | refill => rw [dumpRow, counter_closeBatch_self, counter_closeBatch_other .refill .drain nofun]

theorem dumpRow_high (batch : Batch) (stats : Stats)
    : dumpRow stats batch.high = (counter batch stats).total := by
  have runs := congrArg RunCounter.runs (counter_dumpRow batch stats)
  refine Eq.trans runs ?_
  by_cases isOpen : (counter batch stats).pending = 0 <;>
    simp [RunCounter.read, RunCounter.total, isOpen]

/-- The catch after an event touches the machine of its own batch only. -/
theorem counter_catch (batch other : Batch) (apart : batch ≠ other) (tracepoint : Tracepoint)
    (stats : Stats)
    : counter batch (if other.has tracepoint then stats else closeBatch other stats)
      = counter batch stats := by
  split
  · rfl
  · exact counter_closeBatch_other batch other apart stats

theorem counter_catch_self (batch : Batch) (tracepoint : Tracepoint) (stats : Stats)
    : counter batch (if batch.has tracepoint then stats else closeBatch batch stats)
      = if batch.has tracepoint then counter batch stats else (counter batch stats).read false := by
  split
  · rfl
  · exact counter_closeBatch_self batch stats

theorem counter_processEvent (batch : Batch) (tracepoint : Tracepoint) (stats : Stats)
    : counter batch (processEvent tracepoint stats)
      = (counter batch stats).read (batch.has tracepoint) := by
  have caught : counter batch (processEvent tracepoint stats)
      = if batch.has tracepoint then counter batch (countEvent tracepoint stats)
        else (counter batch (countEvent tracepoint stats)).read false := by
    unfold processEvent
    cases batch with
    | drain => rw [counter_catch .drain .refill nofun, counter_catch_self]
    | refill => rw [counter_catch_self, counter_catch .refill .drain nofun]
  rw [caught, counter_countEvent]
  cases batch.has tracepoint with
  | true => rfl
  | false => rfl

/-! All processes -/

def inputsOf (process : List Char) (inputs : List Input) : List (Option Tracepoint) :=
  inputs.filterMap fun
    | .line event =>
        if event.process = process ∧ event.tracepoint.skipped = false then
          some (some event.tracepoint)
        else none
    | .report => some none

def rowStep (stats : Stats) : Option Tracepoint → Stats
  | none => dumpRow stats
  | some tracepoint => processEvent tracepoint stats

/-- The row of a process depends only on what the process meets, however the events of other
processes interleave.
-/
theorem row_signalLoop (inputs : List Input) (process : List Char)
    : (signalLoop inputs).row process = (inputsOf process inputs).foldl rowStep (fun _ => 0) := by
  suffices from_table : ∀ table : Table, (inputs.foldl step table).row process
      = (inputsOf process inputs).foldl rowStep (table.row process) from from_table _
  induction inputs with
  | nil => exact fun _ => rfl
  | cons input rest ih =>
      intro table
      rw [List.foldl_cons, ih]
      cases input with
      | report => rfl
      | line event =>
          unfold step processLine
          by_cases skipped : event.tracepoint.skipped = true
          · simp [inputsOf, skipped]
          · by_cases same : event.process = process
            · simp [inputsOf, skipped, same, KeyedTable.row_update, rowStep]
            · simp [inputsOf, same, skipped, KeyedTable.row_update]

theorem counter_rowStep (batch : Batch) (stats : Stats) (input : Option Tracepoint)
    : counter batch (rowStep stats input)
      = (counter batch stats).read (acrossCuts batch.has input) := by
  cases input with
  | none => exact counter_dumpRow batch stats
  | some tracepoint => exact counter_processEvent batch tracepoint stats

/-- The machines of a process read what the process meets. -/
theorem counter_signalLoop (inputs : List Input) (process : List Char) (batch : Batch)
    : counter batch ((signalLoop inputs).row process)
      = (inputsOf process inputs).foldl
          (fun counter input => counter.read (acrossCuts batch.has input)) ⟨0, 0⟩ := by
  rw [row_signalLoop]
  exact (List.foldl_hom (counter batch)
    fun stats input => (counter_rowStep batch stats input).symm).symm

/-- The batches in a report are the runs of what the process meets, where a report ends a run. -/
theorem report_high (inputs : List Input) (process : List Char) (batch : Batch)
    : (report inputs).row process batch.high
      = runStarts (acrossCuts batch.has) false (inputsOf process inputs) := by
  have high := dumpRow_high batch ((signalLoop inputs).row process)
  rw [counter_signalLoop, total_foldl_read] at high
  exact high.trans (Nat.zero_add _)

/-! Batches without reports in between -/

def eventsOf (process : List Char) (events : List Event) : List Tracepoint :=
  (events.filter (·.process = process)).map (·.tracepoint)

/-- Without reports, a process meets those of its events that are not skipped. -/
theorem inputsOf_line (process : List Char) (events : List Event)
    : inputsOf process (events.map .line)
      = ((eventsOf process events).filter (!·.skipped)).map some := by
  induction events with
  | nil => rfl
  | cons event rest ih =>
      by_cases same : event.process = process
      · cases skipped : event.tracepoint.skipped <;>
          simpa [inputsOf, eventsOf, skipped, same] using ih
      · simpa [inputsOf, eventsOf, same] using ih

theorem report_high_eq {events : List Event}
    (parseable : ∀ event ∈ events, event.tracepoint.skipped = false) (process : List Char)
    (batch : Batch)
    : (report (events.map .line)).row process batch.high
      = (maximalRuns batch.has (eventsOf process events)).length := by
  have all : (eventsOf process events).filter (!·.skipped) = eventsOf process events := by
    rw [List.filter_eq_self]
    intro tracepoint mem
    obtain ⟨event, found, rfl⟩ := List.mem_map.mp mem
    simp [parseable event (List.mem_filter.mp found).1]
  rw [report_high, inputsOf_line, all, runStarts_map_some, length_maximalRuns]

theorem has_drain : Batch.drain.has = fun tracepoint => decide (tracepoint = .mmPagePcpuDrain) := by
  funext tracepoint
  cases tracepoint <;> rfl

theorem has_refill
    : Batch.refill.has = fun tracepoint => decide (tracepoint = .mmPageAllocZoneLocked) := by
  funext tracepoint
  cases tracepoint <;> rfl

/-- The drains and refills in the report on a process are the maximal runs of drain events and of
refill events among the events of the process. The counters of a batch count its starts
(`report_high_eq`).
-/
theorem batches_exact (events : List Event)
    (parseable : ∀ event ∈ events, event.tracepoint.skipped = false) (process : List Char)
    : (report (events.map .line)).row process .highPcpuDrains
        = (maximalRuns (· = .mmPagePcpuDrain) (eventsOf process events)).length
      ∧ (report (events.map .line)).row process .highPcpuRefills
        = (maximalRuns (· = .mmPageAllocZoneLocked) (eventsOf process events)).length := by
  rw [← has_drain, ← has_refill]
  exact ⟨report_high_eq parseable process .drain, report_high_eq parseable process .refill⟩

def interleaved : List Event :=
  [
    ⟨"a-1".toList, .mmPagePcpuDrain⟩, ⟨"b-2".toList, .mmPageAlloc⟩,
    ⟨"a-1".toList, .mmPagePcpuDrain⟩, ⟨"a-1".toList, .mmPageAllocZoneLocked⟩,
    ⟨"a-1".toList, .mmPagePcpuDrain⟩
  ]

theorem interleaved_batches
    : (∀ event ∈ interleaved, event.tracepoint.skipped = false)
      ∧ (maximalRuns (· = .mmPagePcpuDrain) (eventsOf "a-1".toList interleaved)).length = 2
      ∧ (report (interleaved.map .line)).row "a-1".toList .highPcpuDrains
        = (maximalRuns (· = .mmPagePcpuDrain) (eventsOf "a-1".toList interleaved)).length
      ∧ (report (interleaved.map .line)).row "a-1".toList .highPcpuRefills
        = (maximalRuns (· = .mmPageAllocZoneLocked) (eventsOf "a-1".toList interleaved)).length :=
  ⟨by decide, by decide, batches_exact interleaved (by decide) "a-1".toList⟩

/-! Reports in between -/

def withoutReports (inputs : List Input) : List Input :=
  inputs.filter (· ≠ .report)

structure SameReport (left right : Table) : Prop where
  keys : left.keys = right.keys
  columns : ∀ process, ∀ column ∈ columns, left.row process column = right.row process column

theorem keys_report (inputs : List Input)
    : (report inputs).keys = (report (withoutReports inputs)).keys := by
  suffices from_tables : ∀ left right : Table, left.keys = right.keys →
      (inputs.foldl step left).keys = ((withoutReports inputs).foldl step right).keys from
    from_tables _ _ rfl
  induction inputs with
  | nil => exact fun _ _ same => same
  | cons input rest ih =>
      intro left right same
      cases input with
      | report => exact ih (dumpStats left) right same
      | line event =>
          refine ih _ _ ?_
          unfold step processLine
          dsimp only
          split
          · exact same
          · simp only [KeyedTable.update, same]

theorem inputsOf_withoutReports (process : List Char) (inputs : List Input)
    : inputsOf process (withoutReports inputs)
      = (inputsOf process inputs).reduceOption.map some := by
  induction inputs with
  | nil => rfl
  | cons input rest ih =>
      cases input with
      | report => simpa [inputsOf, withoutReports] using ih
      | line event =>
          by_cases meets : event.process = process ∧ event.tracepoint.skipped = false
          · simpa [inputsOf, withoutReports, meets] using ih
          · simpa [inputsOf, withoutReports, meets] using ih

def Plain (field : Field) : Prop :=
  ∀ batch : Batch, field ≠ batch.high ∧ field ≠ batch.state

theorem dumpRow_apply (plain : Plain field) (stats : Stats)
    : dumpRow stats field = stats field := by
  rw [dumpRow, closeBatch_apply (plain .refill).1 (plain .refill).2,
    closeBatch_apply (plain .drain).1 (plain .drain).2]

theorem processEvent_apply (plain : Plain field) (tracepoint : Tracepoint) (stats : Stats)
    : processEvent tracepoint stats field = countEvent tracepoint stats field := by
  have caught (batch : Batch) (stats : Stats)
      : (if batch.has tracepoint then stats else closeBatch batch stats) field = stats field := by
    split
    · rfl
    · exact closeBatch_apply (plain batch).1 (plain batch).2 stats
  exact (caught .refill _).trans (caught .drain _)

/-- Reports leave the other counters alone. -/
theorem foldl_rowStep_apply (plain : Plain field) (inputs : List (Option Tracepoint))
    {left right : Stats} (same : left field = right field)
    : inputs.foldl rowStep left field
      = (inputs.reduceOption.map some).foldl rowStep right field := by
  induction inputs generalizing left right with
  | nil => exact same
  | cons input rest ih =>
      cases input with
      | none => exact ih ((dumpRow_apply plain left).trans same)
      | some tracepoint =>
          refine ih ?_
          rw [rowStep, rowStep, processEvent_apply plain, processEvent_apply plain,
            countEvent_apply, countEvent_apply tracepoint right, same]

theorem report_apply (plain : Plain field) (inputs : List Input) (process : List Char)
    : (report inputs).row process field = (report (withoutReports inputs)).row process field := by
  refine (dumpRow_apply plain _).trans (Eq.trans ?_ (dumpRow_apply plain _).symm)
  rw [row_signalLoop, row_signalLoop, inputsOf_withoutReports]
  exact foldl_rowStep_apply plain _ rfl

theorem report_high_eq_iff (inputs : List Input) (process : List Char) (batch : Batch)
    : (report inputs).row process batch.high
        = (report (withoutReports inputs)).row process batch.high
      ↔ ¬ CutsRun batch.has (inputsOf process inputs) := by
  rw [report_high, report_high, inputsOf_withoutReports, runStarts_map_some,
    runStarts_cuts_eq_iff]

theorem plain_or_high {column : Field} (mem : column ∈ columns)
    : Plain column ∨ ∃ batch : Batch, column = batch.high := by
  cases column with
  | highPcpuDrains => exact .inr ⟨.drain, rfl⟩
  | highPcpuRefills => exact .inr ⟨.refill, rfl⟩
  | statePcpuPagesDrained | statePcpuPagesRefilled => exact absurd mem (by decide)
  | _ => exact .inl fun batch => by cases batch <;> exact ⟨nofun, nofun⟩

/-- Reports in between leave the last one as it is exactly if none comes between two events of a
process that are next to each other in one batch. A report changes no plain counter, and closes a
batch early just where it cuts one.
-/
theorem sameReport_iff (inputs : List Input)
    : SameReport (report inputs) (report (withoutReports inputs))
      ↔ ∀ process batch, ¬ CutsRun (Batch.has batch) (inputsOf process inputs) := by
  constructor
  · intro same process batch
    rw [← report_high_eq_iff]
    exact same.columns process batch.high (by cases batch <;> decide)
  · intro uncut
    refine ⟨keys_report inputs, fun process column mem => ?_⟩
    rcases plain_or_high mem with plain | ⟨batch, rfl⟩
    · exact report_apply plain inputs process
    · exact (report_high_eq_iff inputs process batch).mpr (uncut process batch)

def reportedInBatch : List Input :=
  [.line ⟨"a-1".toList, .mmPagePcpuDrain⟩, .report, .line ⟨"a-1".toList, .mmPagePcpuDrain⟩]

/-- The two drains are one batch without the report and two with it. -/
theorem report_splits_batch
    : (report reportedInBatch).row "a-1".toList .highPcpuDrains = 2
      ∧ (report (withoutReports reportedInBatch)).row "a-1".toList .highPcpuDrains = 1
      ∧ ¬ SameReport (report reportedInBatch) (report (withoutReports reportedInBatch)) := by
  have two : (report reportedInBatch).row "a-1".toList .highPcpuDrains = 2 := by decide
  have one : (report (withoutReports reportedInBatch)).row "a-1".toList .highPcpuDrains = 1 := by
    decide
  refine ⟨two, one, fun same => ?_⟩
  have eq := same.columns "a-1".toList .highPcpuDrains (by decide)
  rw [two, one] at eq
  cases eq

end LinuxDoc.TracePostprocess.PageAlloc
