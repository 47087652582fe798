import LinuxDoc.TracePostprocess.PageAlloc.Batches
import Mathlib.Algebra.BigOperators.Group.List.Basic
import Mathlib.Algebra.GroupWithZero.Nat

/-! The report of `trace-pagealloc-postprocess.pl` with `--ignore-pid`. It adds up the counters
of all processes of a name, but not what they say about batches that are still going on.
-/

namespace LinuxDoc.TracePostprocess.PageAlloc

open Foundations

def columnSum (table : Table) (name : List Char) (column : Field) : Nat :=
  ((table.keys.filter (processName · = name)).map fun process => table.row process column).sum

/-- Each column for a name is the sum of that column over the processes of the name, in
whatever order they are added up.
-/
def AggregatesExactly (events : List Event) : Prop :=
  ∀ order, order.Perm (processEvents events).keys → ∀ name, ∀ column ∈ columns,
    (reportIgnorePid order events).row name column
      = columnSum (report (events.map .line)) name column

/-- The row of a name after processes were added to it. -/
theorem foldl_addStats (rows : List Char → Stats) (processes : List (List Char)) (stats : Stats)
    (field : Field)
    : processes.foldl (fun stats process => addStats stats (rows process)) stats field
      = if field ∈ aggregated then
          stats field + (processes.map fun process => rows process field).sum
        else stats field := by
  induction processes generalizing stats with
  | nil => simp
  | cons process rest ih =>
      rw [List.foldl_cons, ih, addStats]
      split <;> simp [Nat.add_assoc]

theorem row_aggregatePerprocesspid (order : List (List Char)) (table : Table)
    (name : List Char) (field : Field)
    : (aggregatePerprocesspid order table).row name field
      = if field ∈ aggregated then
          ((order.filter (processName · = name)).map fun process => table.row process field).sum
        else 0 := by
  have row := congrFun (KeyedTable.row_updateAll processName
    (fun process stats => addStats stats (table.row process)) order
    (KeyedTable.empty fun _ => 0) name) field
  refine row.trans ?_
  rw [foldl_addStats]
  simp [KeyedTable.empty]

/-- No batch is going on in the row of a name. -/
theorem dumpRow_aggregate (order : List (List Char)) (table : Table) (name : List Char)
    : dumpRow ((aggregatePerprocesspid order table).row name)
      = (aggregatePerprocesspid order table).row name := by
  have closed (batch : Batch) : closeBatch batch ((aggregatePerprocesspid order table).row name)
      = (aggregatePerprocesspid order table).row name := by
    have none : (aggregatePerprocesspid order table).row name batch.state = 0 := by
      rw [row_aggregatePerprocesspid]
      cases batch <;> rfl
    rw [closeBatch, if_neg (by simp [none])]
  rw [dumpRow, closed, closed]

/-- In whatever order the processes come, the row of a name adds up their counters as they
are before batches are closed.
-/
theorem row_reportIgnorePid {order : List (List Char)} {events : List Event}
    (perm : order.Perm (processEvents events).keys) (name : List Char) {column : Field}
    (mem : column ∈ columns)
    : (reportIgnorePid order events).row name column
      = columnSum (processEvents events) name column := by
  have added : column ∈ aggregated := mem
  have row : (reportIgnorePid order events).row name
      = (aggregatePerprocesspid order (processEvents events)).row name :=
    dumpRow_aggregate order (processEvents events) name
  rw [row, row_aggregatePerprocesspid, if_pos added]
  exact ((perm.filter _).map _).sum_eq

/-- A process without a row has counted nothing. -/
theorem row_of_not_mem_keys (inputs : List Input)
    : ∀ process, process ∉ (signalLoop inputs).keys →
        (signalLoop inputs).row process = fun _ => 0 := by
  refine List.foldlRecOn
    (motive := fun table => ∀ process, process ∉ table.keys → table.row process = fun _ => 0)
    inputs step ?_ ?_
  · exact fun _ _ => rfl
  · intro table zero input _ process missing
    cases input with
    | report => exact congrArg dumpRow (zero process missing)
    | line event =>
        unfold step processLine at missing ⊢
        dsimp only at missing ⊢
        split at missing
        · rename_i skipped
          rw [if_pos skipped]
          exact zero process missing
        · rename_i skipped
          rw [KeyedTable.mem_keys_update, not_or] at missing
          rw [if_neg skipped, KeyedTable.row_update, if_neg (Ne.symm missing.1)]
          exact zero process missing.2

/-! Batches that are going on at the end -/

def openBatch (table : Table) (batch : Batch) (process : List Char) : Nat :=
  if table.row process batch.state ≠ 0 then 1 else 0

theorem columnSum_report_high (events : List Event) (name : List Char) (batch : Batch)
    : columnSum (report (events.map .line)) name batch.high
      = columnSum (processEvents events) name batch.high
        + (((processEvents events).keys.filter (processName · = name)).map
            (openBatch (processEvents events) batch)).sum := by
  have row (process : List Char) : (report (events.map .line)).row process batch.high
      = (processEvents events).row process batch.high
        + openBatch (processEvents events) batch process :=
    dumpRow_high batch _
  simp only [columnSum, row]
  exact List.sum_map_add ..

/-- A batch is going on at the end exactly if the last event of the process belongs to it. -/
theorem openBatch_ne_zero_iff (events : List Event) (batch : Batch) (process : List Char)
    : openBatch (processEvents events) batch process ≠ 0
      ↔ ∃ tracepoint ∈ ((eventsOf process events).filter (!·.skipped)).getLast?,
          batch.has tracepoint = true := by
  set kept := (eventsOf process events).filter (!·.skipped)
  have machine : (processEvents events).row process batch.state
      = (kept.foldl (fun counter tracepoint => counter.read (batch.has tracepoint))
          (⟨0, 0⟩ : RunCounter)).pending := by
    refine (congrArg RunCounter.pending
      (counter_signalLoop (events.map .line) process batch)).trans ?_
    rw [inputsOf_line, List.foldl_map]
    rfl
  rw [← pending_foldl_read batch.has kept ⟨0, 0⟩ rfl, openBatch, ← machine]
  by_cases closed : (processEvents events).row process batch.state = 0 <;> simp [closed]

/-- The last event of the process that is not skipped is in no batch. -/
def EndsOutsideBatches (events : List Event) (process : List Char) : Prop :=
  ((eventsOf process events).filter (!·.skipped)).getLast? ≠ some .mmPagePcpuDrain
  ∧ ((eventsOf process events).filter (!·.skipped)).getLast? ≠ some .mmPageAllocZoneLocked

theorem endsOutsideBatches_iff (events : List Event) (process : List Char)
    : EndsOutsideBatches events process
      ↔ ∀ batch, openBatch (processEvents events) batch process = 0 := by
  have last (batch : Batch) (tracepoint : Tracepoint) (only : batch.has = (· = tracepoint))
      : openBatch (processEvents events) batch process = 0
        ↔ ((eventsOf process events).filter (!·.skipped)).getLast? ≠ some tracepoint := by
    rw [← not_iff_not, ← ne_eq, openBatch_ne_zero_iff, only]
    simp [eq_comm]
  constructor
  · rintro ⟨drain, refill⟩ batch
    cases batch with
    | drain => exact (last .drain _ has_drain).mpr drain
    | refill => exact (last .refill _ has_refill).mpr refill
  · intro none
    exact ⟨(last .drain _ has_drain).mp (none .drain), (last .refill _ has_refill).mp (none .refill)⟩

/-- Nothing is lost with `--ignore-pid` exactly if no process ends in the middle of a batch. The two
sums differ by the batches that are open at the end.
-/
theorem aggregatesExactly_iff (events : List Event)
    : AggregatesExactly events ↔ ∀ process, EndsOutsideBatches events process := by
  simp only [endsOutsideBatches_iff]
  constructor
  · intro exactly process batch
    by_contra isOpen
    have present : process ∈ (processEvents events).keys := by
      by_contra missing
      have zero := row_of_not_mem_keys (events.map .line) process missing
      exact isOpen (by rw [openBatch, processEvents, zero]; rfl)
    have same := exactly _ (.refl _) (processName process) batch.high (by cases batch <;> decide)
    rw [row_reportIgnorePid (.refl _) _ (by cases batch <;> decide), columnSum_report_high] at same
    have none : (((processEvents events).keys.filter (processName · = processName process)).map
        (openBatch (processEvents events) batch)).sum = 0 := by omega
    rw [List.sum_eq_zero_iff_forall_eq_nat] at none
    exact isOpen (none _ (List.mem_map.mpr
      ⟨process, List.mem_filter.mpr ⟨present, by simp⟩, rfl⟩))
  · intro closed order perm name column mem
    rw [row_reportIgnorePid perm name mem]
    rcases plain_or_high mem with plain | ⟨batch, rfl⟩
    · have row (process : List Char) : (report (events.map .line)).row process column
          = (processEvents events).row process column :=
        dumpRow_apply plain _
      simp only [columnSum, row]
      rfl
    · have none : (((processEvents events).keys.filter (processName · = name)).map
          (openBatch (processEvents events) batch)).sum = 0 := by
        rw [List.sum_eq_zero_iff_forall_eq_nat]
        intro count mem
        obtain ⟨process, _, rfl⟩ := List.mem_map.mp mem
        exact closed process batch
      rw [columnSum_report_high, none, Nat.add_zero]

def drainsAtEnd : List Event :=
  [⟨"a-1".toList, .mmPageAlloc⟩, ⟨"a-1".toList, .mmPagePcpuDrain⟩]

/-- The last batch is in the report on the process and not in the one on its name. -/
theorem last_batch_lost
    : (report (drainsAtEnd.map .line)).row "a-1".toList .highPcpuDrains = 1
      ∧ (reportIgnorePid ["a-1".toList] drainsAtEnd).row "a".toList .highPcpuDrains = 0
      ∧ ¬ AggregatesExactly drainsAtEnd := by
  refine ⟨by decide, by decide, fun exactly => ?_⟩
  have same := exactly ["a-1".toList] (by decide) "a".toList .highPcpuDrains (by decide)
  revert same
  decide

end LinuxDoc.TracePostprocess.PageAlloc
