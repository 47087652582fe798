import LinuxDoc.Foundations.GroupedSums
import LinuxDoc.TracePostprocess.Vmscan.Records

/-! What `dump_stats` adds to the totals, as sums over the processes. -/

namespace LinuxDoc.TracePostprocess.Vmscan

open Foundations

/-! The latencies of a process -/

def slotsRead : List (Option Slot × Option Slot) → List Slot × List Slot
  | [] => ([], [])
  | (some slot, _) :: rest => (slot :: (slotsRead rest).1, (slotsRead rest).2)
  | (none, some slot) :: rest => ((slotsRead rest).1, slot :: (slotsRead rest).2)
  | (none, none) :: _ => ([], [])

attribute [local grind =] slotsRead

def Stats.slotsRead (stats : Stats) : List Slot × List Slot :=
  Vmscan.slotsRead (stats.highDirectReclaimLatency.sideBySide stats.highKswapdLatency)

def Stats.directRead (stats : Stats) : ℚ :=
  (stats.slotsRead.1.map Slot.read).sum

def Stats.kswapdRead (stats : Stats) : ℚ :=
  (stats.slotsRead.2.map Slot.read).sum

theorem addLatencies_eq (pairs : List (Option Slot × Option Slot)) (totals : Totals)
    : addLatencies pairs totals
      = ⟨totals.count,
          totals.directLatency + ((slotsRead pairs).1.map Slot.read).sum,
          totals.kswapdLatency + ((slotsRead pairs).2.map Slot.read).sum⟩ := by
  induction pairs generalizing totals with
  | nil => simp [addLatencies, slotsRead]
  | cons pair rest ih =>
      obtain ⟨direct, kswapd⟩ := pair
      cases direct with
      | some slot => simp [addLatencies, slotsRead, ih, add_assoc]
      | none =>
          cases kswapd with
          | some slot => simp [addLatencies, slotsRead, ih, add_assoc]
          | none => simp [addLatencies, slotsRead]

/-- Where both arrays have no first latency, the loop would stop at once. -/
theorem latencyLine_eq (totals : Totals) (stats : Stats)
    : latencyLine totals stats
      = ⟨totals.count, totals.directLatency + stats.directRead,
          totals.kswapdLatency + stats.kswapdRead⟩ := by
  unfold latencyLine
  split_ifs with empty
  · have none : stats.slotsRead = ([], []) := by
      unfold Stats.slotsRead
      revert empty
      cases stats.highDirectReclaimLatency with
      | nil =>
          cases stats.highKswapdLatency with
          | nil => exact fun _ => rfl
          | cons slot rest =>
              rintro ⟨-, rfl : slot = none⟩
              rfl
      | cons slot rest =>
          rintro ⟨rfl : slot = none, empty⟩
          cases kswapd : stats.highKswapdLatency with
          | nil => rfl
          | cons slot rest =>
              rw [kswapd] at empty
              obtain rfl : slot = none := empty
              rfl
    simp [Stats.directRead, Stats.kswapdRead, none]
  · exact addLatencies_eq _ _

/-! The arrays that a history leaves -/

theorem slotsRead_kswapd_append (slots : List Slot) (rest : List (Option Slot × Option Slot))
    : slotsRead (slots.map (fun slot => (none, some slot)) ++ rest)
      = ((slotsRead rest).1, slots ++ (slotsRead rest).2) := by
  induction slots with
  | nil => rfl
  | cons slot slots ih => simp [slotsRead, ih]

theorem slotsRead_direct (slots : List Slot)
    : slotsRead (slots.map fun slot => (some slot, none)) = (slots, []) := by
  induction slots with
  | nil => rfl
  | cons slot slots ih => simp [slotsRead, ih]

variable {history : List Event} {stats : Stats}

/-- Without latencies of direct reclaim, all those of kswapd are read. -/
theorem Records.slotsRead_of_nil (records : Records history stats)
    (none : directSlots history = [])
    : stats.slotsRead = ([], kswapdSlots history) := by
  rw [Stats.slotsRead, records.direct, records.kswapd, none, SparseArray.storeFrom,
    SparseArray.sideBySide_nil_map_some]
  simpa [slotsRead] using slotsRead_kswapd_append (kswapdSlots history) []

/-- If the latencies of kswapd fill the gap, everything is read. -/
theorem Records.slotsRead_of_eq (records : Records history stats)
    (fits : (kswapdSlots history).length = (missedEnds history).length)
    : stats.slotsRead = (directSlots history, kswapdSlots history) := by
  by_cases none : directSlots history = []
  · rw [records.slotsRead_of_nil none, none]
  · have filled := SparseArray.sideBySide_replicate_append ((directSlots history).map some) []
      (kswapdSlots history)
    rw [List.append_nil, SparseArray.sideBySide_map_some_nil] at filled
    rw [Stats.slotsRead, records.direct, records.kswapd, SparseArray.storeFrom_nil _ none, ← fits,
      filled, slotsRead_kswapd_append, slotsRead_direct, List.append_nil]

/-- If the latencies of kswapd do not fill the gap, no one of direct reclaim is read. -/
theorem Records.slotsRead_of_lt (records : Records history stats)
    (short : (kswapdSlots history).length < (missedEnds history).length)
    : stats.slotsRead = ([], kswapdSlots history) := by
  by_cases none : directSlots history = []
  · exact records.slotsRead_of_nil none
  · obtain ⟨gap, larger⟩ := Nat.exists_eq_add_of_lt short
    have filled := SparseArray.sideBySide_replicate_append
      (List.replicate (gap + 1) .none ++ (directSlots history).map some) []
      (kswapdSlots history)
    rw [List.append_nil, ← List.append_assoc, List.replicate_append_replicate, ← Nat.add_assoc,
      ← larger] at filled
    rw [Stats.slotsRead, records.direct, records.kswapd, SparseArray.storeFrom_nil _ none, filled,
      slotsRead_kswapd_append]
    simp [SparseArray.sideBySide, List.replicate_succ, slotsRead]

/-! The totals -/

def counted (half : Half) (field : Field) (stats : Stats) : Nat :=
  if stats.count half.gate ≠ 0 ∧ field ∈ half.summed then stats.count field else 0

theorem activityLine_count (half other : Half) (field : Field) (totals : Totals) (stats : Stats)
    : (activityLine half totals stats).count other field
      = totals.count other field + if other = half then counted half field stats else 0 := by
  unfold activityLine counted
  split_ifs <;> simp_all

theorem foldl_activityLine_count (half other : Half) (field : Field) (rows : List Stats)
    (totals : Totals)
    : (rows.foldl (activityLine half) totals).count other field
      = totals.count other field
        + if other = half then (rows.map (counted half field)).sum else 0 := by
  induction rows generalizing totals with
  | nil => simp
  | cons row rest ih =>
      rw [List.foldl_cons, ih, activityLine_count]
      split_ifs <;> simp [Nat.add_assoc]

theorem activityLine_latency (half : Half) (totals : Totals) (stats : Stats)
    : (activityLine half totals stats).directLatency = totals.directLatency
      ∧ (activityLine half totals stats).kswapdLatency = totals.kswapdLatency := by
  unfold activityLine
  split_ifs <;> exact ⟨rfl, rfl⟩

theorem foldl_activityLine_latency (half : Half) (rows : List Stats) (totals : Totals)
    : (rows.foldl (activityLine half) totals).directLatency = totals.directLatency
      ∧ (rows.foldl (activityLine half) totals).kswapdLatency = totals.kswapdLatency := by
  induction rows generalizing totals with
  | nil => exact ⟨rfl, rfl⟩
  | cons row rest ih =>
      obtain ⟨direct, kswapd⟩ := ih (activityLine half totals row)
      obtain ⟨directRow, kswapdRow⟩ := activityLine_latency half totals row
      exact ⟨direct.trans directRow, kswapd.trans kswapdRow⟩

theorem foldl_latencyLine (rows : List Stats) (totals : Totals)
    : rows.foldl latencyLine totals
      = ⟨totals.count, totals.directLatency + (rows.map Stats.directRead).sum,
          totals.kswapdLatency + (rows.map Stats.kswapdRead).sum⟩ := by
  induction rows generalizing totals with
  | nil => simp
  | cons row rest ih => simp [ih, latencyLine_eq, add_assoc]

theorem dumpStats_count (totals : Totals) (table : Table) (half : Half) (field : Field)
    : (dumpStats totals table).count half field
      = totals.count half field + table.total (counted half field) := by
  have rows : (table.keys.map table.row).map (counted half field)
      = table.keys.map fun process => counted half field (table.row process) :=
    List.map_map
  unfold dumpStats KeyedTable.total
  simp only [foldl_activityLine_count, foldl_latencyLine, ← rows]
  cases half <;> simp

theorem dumpStats_directLatency (totals : Totals) (table : Table)
    : (dumpStats totals table).directLatency
      = (totals.directLatency + table.total Stats.directRead) / 1000 := by
  unfold dumpStats KeyedTable.total
  simp only [foldl_activityLine_latency, foldl_latencyLine, List.map_map]
  rfl

theorem dumpStats_kswapdLatency (totals : Totals) (table : Table)
    : (dumpStats totals table).kswapdLatency
      = (totals.kswapdLatency + table.total Stats.kswapdRead) / 1000 := by
  unfold dumpStats KeyedTable.total
  simp only [foldl_activityLine_latency, foldl_latencyLine, List.map_map]
  rfl

/-! Runs of `signal_loop` -/

def linesOf (inputs : List Input) : List Event :=
  inputs.filterMap fun input =>
    match input with
    | .line event => some event
    | .report => none

/-- The tables do not depend on the reports. -/
theorem signalLoop_table (enumeration : Enumeration) (ignorePid : Bool) (inputs : List Input)
    : (signalLoop enumeration ignorePid inputs).1 = processEvents (linesOf inputs) := by
  induction inputs using List.reverseRecOn with
  | nil => rfl
  | append_singleton inputs input ih =>
      have last : signalLoop enumeration ignorePid (inputs ++ [input])
          = step enumeration ignorePid (signalLoop enumeration ignorePid inputs) input :=
        List.foldl_append
      rw [last, linesOf, List.filterMap_append, ← linesOf]
      cases input with
      | line event =>
          exact (congrArg (processLine · event) ih).trans (processEvents_append _ _).symm
      | report =>
          simpa [step] using ih

/-- Lines do not change the totals. -/
theorem signalLoop_lines (enumeration : Enumeration) (ignorePid : Bool) (events : List Event)
    : signalLoop enumeration ignorePid (events.map .line) = (processEvents events, .zero) := by
  induction events using List.reverseRecOn with
  | nil => rfl
  | append_singleton events event ih =>
      rw [List.map_append, signalLoop, List.foldl_append, ← signalLoop, ih,
        processEvents_append]
      rfl

end LinuxDoc.TracePostprocess.Vmscan
