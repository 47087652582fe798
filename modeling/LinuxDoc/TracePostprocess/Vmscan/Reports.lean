import LinuxDoc.TracePostprocess.Vmscan.Aggregation

/-! Reports that a SIGINT asks for in the middle of a trace. A report adds the totals of the
whole trace so far to what earlier reports have left, and divides the times by 1000 again.
-/

namespace LinuxDoc.TracePostprocess.Vmscan

open Foundations

def withoutReports (inputs : List Input) : List Input :=
  (linesOf inputs).map .line

/-- The events after which a report has something to count. A sleep of kswapd that no wake comes
before is taken for one that began at time 0.
-/
def Event.reported (event : Event) : Bool :=
  event.tracepoint.opens .direct || event.tracepoint.opens .kswapd
    || (event.tracepoint = .kswapdSleep && 0 < event.timestamp.seconds)

/-- Every report comes before the first event that it would count. -/
def ReportsEarly (inputs : List Input) : Prop :=
  ∀ before, before ++ [.report] <+: inputs → ∀ event ∈ linesOf before, event.reported = false

/-! What a report carries over -/

def Totals.carry (totals more : Totals) : Totals where
  count half field := totals.count half field + more.count half field
  directLatency := totals.directLatency / 1000 + more.directLatency
  kswapdLatency := totals.kswapdLatency / 1000 + more.kswapdLatency

structure Totals.Nonneg (totals : Totals) : Prop where
  direct : 0 ≤ totals.directLatency
  kswapd : 0 ≤ totals.kswapdLatency

theorem Slot.read_nonneg (slot : Slot) : 0 ≤ slot.read := by
  unfold Slot.read
  split_ifs with negative
  · exact le_rfl
  · exact not_lt.mp negative

theorem dumpStats_carry (totals : Totals) (table : Table)
    : dumpStats totals table = totals.carry (dumpStats .zero table) := by
  refine Totals.ext (funext fun half => funext fun field => ?_) ?_ ?_
  · simp [Totals.carry, dumpStats_count, Totals.zero]
  · simp [Totals.carry, dumpStats_directLatency, Totals.zero, add_div]
  · simp [Totals.carry, dumpStats_kswapdLatency, Totals.zero, add_div]

theorem report_carry (enumeration : Enumeration) (ignorePid : Bool) (totals : Totals)
    (table : Table)
    : report enumeration ignorePid totals table
      = totals.carry (report enumeration ignorePid .zero table) := by
  cases ignorePid <;> exact dumpStats_carry _ _

theorem directRead_nonneg (stats : Stats) : 0 ≤ stats.directRead :=
  List.sum_nonneg (List.forall_mem_map.mpr fun slot _ => slot.read_nonneg)

theorem kswapdRead_nonneg (stats : Stats) : 0 ≤ stats.kswapdRead :=
  List.sum_nonneg (List.forall_mem_map.mpr fun slot _ => slot.read_nonneg)

theorem total_nonneg (table : Table) {value : Stats → ℚ} (nonneg : ∀ stats, 0 ≤ value stats)
    : 0 ≤ table.total value :=
  List.sum_nonneg (List.forall_mem_map.mpr fun _ _ => nonneg _)

theorem dumpStats_nonneg (table : Table) : (dumpStats .zero table).Nonneg := by
  constructor
  · rw [dumpStats_directLatency]
    exact div_nonneg (add_nonneg le_rfl (total_nonneg table directRead_nonneg)) (by norm_num)
  · rw [dumpStats_kswapdLatency]
    exact div_nonneg (add_nonneg le_rfl (total_nonneg table kswapdRead_nonneg)) (by norm_num)

theorem report_nonneg (enumeration : Enumeration) (ignorePid : Bool) (table : Table)
    : (report enumeration ignorePid .zero table).Nonneg := by
  cases ignorePid <;> exact dumpStats_nonneg _

theorem Totals.carry_eq_right_iff (totals more : Totals)
    : totals.carry more = more ↔ totals = .zero := by
  simp [Totals.ext_iff, Totals.carry, Totals.zero, funext_iff]

theorem Totals.zero_carry (more : Totals) : Totals.zero.carry more = more :=
  (carry_eq_right_iff .zero more).mpr rfl

theorem Totals.Nonneg.carry {totals more : Totals} (nonneg : totals.Nonneg)
    (nonneg' : more.Nonneg)
    : (totals.carry more).Nonneg :=
  ⟨add_nonneg (div_nonneg nonneg.direct (by norm_num)) nonneg'.direct,
    add_nonneg (div_nonneg nonneg.kswapd (by norm_num)) nonneg'.kswapd⟩

theorem Totals.Nonneg.carry_eq_zero_iff {totals more : Totals} (nonneg : totals.Nonneg)
    (nonneg' : more.Nonneg)
    : totals.carry more = .zero ↔ totals = .zero ∧ more = .zero := by
  constructor
  · intro zero
    have count (half : Half) (field : Field)
        : totals.count half field = 0 ∧ more.count half field = 0 :=
      Nat.add_eq_zero_iff.mp (congrFun (congrFun (congrArg Totals.count zero) half) field)
    have direct := (add_eq_zero_iff_of_nonneg (div_nonneg nonneg.direct (by norm_num))
      nonneg'.direct).mp (congrArg Totals.directLatency zero)
    have kswapd := (add_eq_zero_iff_of_nonneg (div_nonneg nonneg.kswapd (by norm_num))
      nonneg'.kswapd).mp (congrArg Totals.kswapdLatency zero)
    have moved {time : ℚ} (zero : time / 1000 = 0) : time = 0 :=
      (div_eq_zero_iff.mp zero).resolve_right (by norm_num)
    exact ⟨Totals.ext (funext fun half => funext fun field => (count half field).1)
        (moved direct.1) (moved kswapd.1),
      Totals.ext (funext fun half => funext fun field => (count half field).2)
        direct.2 kswapd.2⟩
  · rintro ⟨rfl, rfl⟩
    exact zero_carry .zero

/-! Reports that count nothing -/

structure Stats.Silent (stats : Stats) : Prop where
  closed : ∀ half : Half, stats.count half.gate = 0
  direct : ∀ slot ∈ stats.slotsRead.1, slot.read = 0
  kswapd : ∀ slot ∈ stats.slotsRead.2, slot.read = 0

theorem gate_mem_summed (half : Half) : half.gate ∈ half.summed := by
  cases half <;> decide

theorem total_eq_zero_iff (table : Table) {value : Stats → ℚ} (nonneg : ∀ stats, 0 ≤ value stats)
    : table.total value = 0 ↔ ∀ key ∈ table.keys, value (table.row key) = 0 :=
  sum_eq_zero_iff_of_nonneg fun _ _ => nonneg _

theorem total_counted_eq_zero_iff (table : Table)
    : (∀ half field, table.total (counted half field) = 0)
      ↔ ∀ key ∈ table.keys, ∀ half : Half, (table.row key).count half.gate = 0 := by
  have total (half : Half) (field : Field)
      : table.total (counted half field) = 0
        ↔ ∀ key ∈ table.keys, counted half field (table.row key) = 0 :=
    sum_eq_zero_iff_of_nonneg fun _ _ => Nat.zero_le _
  constructor
  · intro zero key mem half
    by_contra opened
    have none := (total half half.gate).mp (zero half half.gate) key mem
    rw [counted, if_pos ⟨opened, gate_mem_summed half⟩] at none
    exact opened none
  · intro closed half field
    exact (total half field).mpr fun key mem => if_neg fun open_ => open_.1 (closed key mem half)

theorem dumpStats_eq_zero_iff (table : Table)
    : dumpStats .zero table = .zero ↔ ∀ key ∈ table.keys, (table.row key).Silent := by
  have read {slots : List Slot}
      : (slots.map Slot.read).sum = 0 ↔ ∀ slot ∈ slots, slot.read = 0 :=
    sum_eq_zero_iff_of_nonneg fun slot _ => slot.read_nonneg
  have thousand (time : ℚ) : (0 + time) / 1000 = 0 ↔ time = 0 := by
    rw [zero_add, div_eq_zero_iff, or_iff_left (by norm_num)]
  simp only [Totals.ext_iff, funext_iff, dumpStats_count, dumpStats_directLatency,
    dumpStats_kswapdLatency, Totals.zero, Nat.zero_add, thousand, total_counted_eq_zero_iff,
    total_eq_zero_iff table directRead_nonneg, total_eq_zero_iff table kswapdRead_nonneg,
    Stats.directRead, Stats.kswapdRead, read]
  constructor
  · intro none key mem
    exact ⟨none.1 key mem, none.2.1 key mem, none.2.2 key mem⟩
  · intro silent
    exact ⟨fun key mem => (silent key mem).closed, fun key mem => (silent key mem).direct,
      fun key mem => (silent key mem).kswapd⟩

variable {process : List Char} {events : List Event}

theorem mem_historyOf {event : Event}
    : event ∈ historyOf process events ↔ event ∈ events ∧ event.process = process := by
  simp [historyOf]

theorem gate_eq_zero_iff (half : Half) (events : List Event) (process : List Char)
    : ((processEvents events).row process).count half.gate = 0
      ↔ ∀ event ∈ historyOf process events, event.tracepoint.opens half = false := by
  rw [← not_iff_not, ← ne_eq, gate_ne_zero_iff]
  simp [mem_historyOf]

/-- Without a begin nothing is recorded for direct reclaim. -/
theorem directSlots_of_closed {history : List Event}
    (closed : ∀ event ∈ history, event.tracepoint.opens .direct = false)
    : directSlots history = [] := by
  refine directSlots_of_latestBegin_eq_none ?_
  rw [latestBegin, Option.map_eq_none_iff, List.find?_eq_none]
  intro event mem begins
  have shut := closed event mem
  cases tracepoint : event.tracepoint with
  | directReclaimBegin =>
      rw [tracepoint] at shut
      contradiction
  | directReclaimEnd | kswapdWake | kswapdSleep | wakeupKswapd | lruIsolate | lruShrinkInactive
  | writepage | other =>
      rw [tracepoint] at begins
      contradiction

theorem timestampToMs_nonneg (timestamp : Timestamp) : 0 ≤ timestampToMs timestamp :=
  add_nonneg (mul_nonneg (Nat.cast_nonneg _) (by norm_num))
    (div_nonneg (Nat.cast_nonneg _) (by norm_num))

theorem seconds_pos_iff (timestamp : Timestamp)
    : 0 < timestamp.seconds ↔ timestampToMs timestamp ≠ 0 := by
  have scaled : 0 < timestampToMs timestamp ↔ 0 < timestamp.seconds := by
    rw [timestampToMs_eq]
    exact mul_pos_iff_of_pos_left (by norm_num)
  rw [← scaled]
  exact (timestampToMs_nonneg timestamp).lt_iff_ne'

/-- Without a wake, the latency of a sleep is its time. -/
theorem read_kswapdSlots {history : List Event}
    (closed : ∀ event ∈ history, event.tracepoint.opens .kswapd = false)
    : (kswapdSlots history).map Slot.read
      = (history.reverse.filter (·.tracepoint = .kswapdSleep)).map
          fun event => timestampToMs event.timestamp := by
  unfold kswapdSlots
  induction history with
  | nil => rfl
  | cons event earlier ih =>
      have shut : ∀ event ∈ earlier, event.tracepoint.opens .kswapd = false :=
        fun event mem => closed event (.tail _ mem)
      have asleep : awakeSince earlier = 0 := by
        by_contra awake
        obtain ⟨event, mem, wake⟩ := opens_of_awakeSince_ne_zero awake
        rw [shut event mem] at wake
        contradiction
      rw [collected_cons, List.map_append, ih shut, List.reverse_cons, List.filter_append,
        List.map_append]
      congr 1
      unfold kswapdSlot
      by_cases sleep : event.tracepoint = .kswapdSleep
      · have nonneg := timestampToMs_nonneg event.timestamp
        simp [sleep, asleep, Slot.read, not_lt.mpr nonneg]
      · simp [sleep]

theorem reported_eq_false_iff (event : Event)
    : event.reported = false
      ↔ event.tracepoint.opens .direct = false ∧ event.tracepoint.opens .kswapd = false
        ∧ (event.tracepoint = .kswapdSleep → timestampToMs event.timestamp = 0) := by
  simp only [Event.reported, Bool.or_eq_false_iff, Bool.and_eq_false_imp, decide_eq_true_eq,
    decide_eq_false_iff_not, seconds_pos_iff, not_not, and_assoc]

/-- A process is silent exactly if it has no events that a report counts. -/
theorem silent_iff (events : List Event) (process : List Char)
    : ((processEvents events).row process).Silent
      ↔ ∀ event ∈ historyOf process events, event.reported = false := by
  have records := records_processEvents events process
  constructor
  · intro silent event mem
    have direct := (gate_eq_zero_iff .direct events process).mp (silent.closed .direct)
    have kswapd := (gate_eq_zero_iff .kswapd events process).mp (silent.closed .kswapd)
    refine (reported_eq_false_iff event).mpr ⟨direct event mem, kswapd event mem, fun sleep => ?_⟩
    have slots := records.slotsRead_of_nil (directSlots_of_closed direct)
    have zero : ∀ time ∈ (kswapdSlots (historyOf process events)).map Slot.read, time = 0 := by
      refine List.forall_mem_map.mpr fun slot mem => silent.kswapd slot ?_
      rw [slots]
      exact mem
    rw [read_kswapdSlots kswapd] at zero
    refine zero _ (List.mem_map.mpr ⟨event, ?_, rfl⟩)
    simp [mem, sleep]
  · intro none
    have direct : ∀ event ∈ historyOf process events, event.tracepoint.opens .direct = false :=
      fun event mem => ((reported_eq_false_iff event).mp (none event mem)).1
    have kswapd : ∀ event ∈ historyOf process events, event.tracepoint.opens .kswapd = false :=
      fun event mem => ((reported_eq_false_iff event).mp (none event mem)).2.1
    have slots := records.slotsRead_of_nil (directSlots_of_closed direct)
    have zero : ∀ time ∈ (kswapdSlots (historyOf process events)).map Slot.read, time = 0 := by
      rw [read_kswapdSlots kswapd]
      refine List.forall_mem_map.mpr fun event mem => ?_
      obtain ⟨there, sleep⟩ := List.mem_filter.mp mem
      exact ((reported_eq_false_iff event).mp (none event (List.mem_reverse.mp there))).2.2
        (of_decide_eq_true sleep)
    refine ⟨fun half => (gate_eq_zero_iff half events process).mpr ?_, ?_, ?_⟩
    · cases half with
      | direct => exact direct
      | kswapd => exact kswapd
    · rw [slots]
      exact nofun
    · rw [slots]
      exact List.forall_mem_map.mp zero

/-! Silence of a name -/

/-- The latencies of kswapd that are left for a name without latencies of direct reclaim. -/
theorem foldl_addStats_kswapd (rows : List Char → Stats) {processes : List (List Char)}
    (none : ∀ process ∈ processes, (rows process).highDirectReclaimLatency.leading = [])
    : ∃ left next,
        Copied (processes.foldl (fun stats process => addStats stats (rows process)) .fresh) []
            left next
        ∧ (∀ slot ∈ left, ∃ process ∈ processes,
            slot ∈ (rows process).highKswapdLatency.leading)
        ∧ (left = [] → ∀ process ∈ processes, (rows process).highKswapdLatency.leading = []) := by
  induction processes using List.reverseRecOn with
  | nil => exact ⟨[], 0, copied_fresh, nofun, fun _ => nofun⟩
  | append_singleton processes process ih =>
      obtain ⟨left, next, copied, members, empty⟩ :=
        ih fun process mem => none process (List.mem_append_left _ mem)
      obtain ⟨new, stored, from_, nil⟩ := SparseArray.storeFrom_map_some left (Nat.zero_le _)
        (rows process).highKswapdLatency.leading
      have quiet := none process (List.mem_append_right _ (.head _))
      rw [List.foldl_append]
      refine ⟨new, (rows process).highKswapdLatency.leading.length, ?_, ?_, ?_⟩
      · obtain ⟨direct, kswapd, index, sleeps⟩ := addStats_arrays
          (processes.foldl (fun stats process => addStats stats (rows process)) .fresh)
          (rows process)
        rw [quiet] at direct
        rw [copied.kswapd, copied.sleeps, stored] at kswapd
        rw [copied.sleeps, Nat.zero_add] at index
        exact ⟨direct.trans copied.direct, kswapd, index, sleeps.trans copied.sleeps⟩
      · intro slot mem
        rcases from_ slot mem with old | here
        · obtain ⟨other, there, slots⟩ := members slot old
          exact ⟨other, List.mem_append_left _ there, slots⟩
        · exact ⟨process, List.mem_append_right _ (.head _), here⟩
      · intro none other mem
        obtain ⟨old, here⟩ := nil none
        rcases List.mem_append.mp mem with there | there
        · exact empty old other there
        · obtain rfl := List.mem_singleton.mp there
          exact here

/-! What the events of a process leave for its name -/

theorem gate_aggregate_eq_zero_iff (events : List Event) (processes : List (List Char))
    (half : Half)
    : (processes.foldl (fun stats process => addStats stats ((processEvents events).row process))
          .fresh).count half.gate = 0
      ↔ ∀ process ∈ processes, ∀ event ∈ historyOf process events,
          event.tracepoint.opens half = false := by
  rw [count_foldl_addStats _ _ _ (gate_mem_aggregated half)]
  simp [Stats.fresh, List.sum_eq_zero_iff_forall_eq_nat, gate_eq_zero_iff]

theorem leading_direct_of_closed
    (closed : ∀ event ∈ historyOf process events, event.tracepoint.opens .direct = false)
    : ((processEvents events).row process).highDirectReclaimLatency.leading = [] := by
  rw [(records_processEvents events process).leading_direct, directSlots_of_closed closed,
    ite_self]

theorem leading_kswapd_eq_nil_iff (events : List Event) (process : List Char)
    : ((processEvents events).row process).highKswapdLatency.leading = []
      ↔ ∀ event ∈ historyOf process events, event.tracepoint ≠ .kswapdSleep := by
  rw [(records_processEvents events process).leading_kswapd, ← List.length_eq_zero_iff,
    length_kswapdSlots, List.countP_eq_zero]
  simp

/-- Without wakes a recorded latency is the time of a sleep, and so not 0. -/
theorem read_ne_zero_of_closed (positive : ∀ event ∈ events, 0 < event.timestamp.seconds)
    (closed : ∀ event ∈ historyOf process events, event.tracepoint.opens .kswapd = false)
    {slot : Slot} (recorded : slot ∈ ((processEvents events).row process).highKswapdLatency.leading)
    : slot.read ≠ 0 := by
  rw [(records_processEvents events process).leading_kswapd] at recorded
  have time := List.mem_map_of_mem (f := Slot.read) recorded
  rw [read_kswapdSlots closed] at time
  obtain ⟨sleep, slept, eq⟩ := List.mem_map.mp time
  have past := mem_historyOf.mp (List.mem_reverse.mp (List.mem_of_mem_filter slept))
  rw [← eq]
  exact (seconds_pos_iff sleep.timestamp).mp (positive sleep past.1)

/-- With positive times, a name is silent exactly if its processes have no events that a report
counts.
-/
theorem silent_aggregate_iff (positive : ∀ event ∈ events, 0 < event.timestamp.seconds)
    (processes : List (List Char))
    : (processes.foldl (fun stats process => addStats stats ((processEvents events).row process))
          .fresh).Silent
      ↔ ∀ process ∈ processes, ∀ event ∈ historyOf process events, event.reported = false := by
  constructor
  · intro silent process mem event there
    have direct := (gate_aggregate_eq_zero_iff events processes .direct).mp (silent.closed .direct)
    have kswapd := (gate_aggregate_eq_zero_iff events processes .kswapd).mp (silent.closed .kswapd)
    obtain ⟨left, next, copied, members, empty⟩ := foldl_addStats_kswapd (processEvents events).row
      fun process mem => leading_direct_of_closed (direct process mem)
    have slots : (processes.foldl
          (fun stats process => addStats stats ((processEvents events).row process))
          .fresh).slotsRead = ([], left) := by
      rw [Stats.slotsRead, copied.direct, copied.kswapd, List.map_nil,
        SparseArray.sideBySide_nil_map_some]
      simpa [slotsRead] using slotsRead_kswapd_append left []
    -- a slot that is left would be read as a time that is not zero
    have none : left = [] := by
      refine List.eq_nil_iff_forall_not_mem.mpr fun slot kept => ?_
      have zero := silent.kswapd slot (by rw [slots]; exact kept)
      obtain ⟨other, among, recorded⟩ := members slot kept
      exact read_ne_zero_of_closed positive (kswapd other among) recorded zero
    have asleep := (leading_kswapd_eq_nil_iff events process).mp (empty none process mem)
    exact (reported_eq_false_iff event).mpr ⟨direct process mem event there,
      kswapd process mem event there, fun sleep => absurd sleep (asleep event there)⟩
  · intro none
    have unreported (process : List Char) (mem : process ∈ processes) (event : Event)
        (there : event ∈ historyOf process events) :=
      (reported_eq_false_iff event).mp (none process mem event there)
    have quiet : ∀ process ∈ processes, ((processEvents events).row process).Quiet := by
      intro process mem
      refine ⟨leading_direct_of_closed fun event there => (unreported process mem event there).1,
        (leading_kswapd_eq_nil_iff events process).mpr fun event there sleep => ?_⟩
      have zero := (unreported process mem event there).2.2 sleep
      exact (seconds_pos_iff event.timestamp).mp (positive event (mem_historyOf.mp there).1) zero
    obtain ⟨last, copied, _⟩ := copied_fresh.foldl_quiet (processEvents events).row quiet
    have slots : (processes.foldl
          (fun stats process => addStats stats ((processEvents events).row process))
          .fresh).slotsRead = ([], []) := by
      rw [Stats.slotsRead, copied.direct, copied.kswapd]
      rfl
    refine ⟨fun half => (gate_aggregate_eq_zero_iff events processes half).mpr ?_,
      by simp [slots], by simp [slots]⟩
    intro process mem event there
    cases half with
    | direct => exact (unreported process mem event there).1
    | kswapd => exact (unreported process mem event there).2.1

/-! Empty reports -/

/-- Every event that is counted belongs to a process of the table. -/
theorem reported_keys_iff (events : List Event)
    : (∀ process ∈ (processEvents events).keys, ∀ event ∈ historyOf process events,
        event.reported = false)
      ↔ ∀ event ∈ events, event.reported = false := by
  constructor
  · intro none event mem
    cases skipped : event.tracepoint.skipped with
    | false =>
        exact none event.process (mem_keys_processEvents mem skipped) event
          (mem_historyOf.mpr ⟨mem, rfl⟩)
    | true =>
        have closed (half : Half) : event.tracepoint.opens half = false := by
          by_contra opens
          rw [skipped_eq_false (.inl (eq_true_of_ne_false opens))] at skipped
          contradiction
        refine (reported_eq_false_iff event).mpr ⟨closed .direct, closed .kswapd, fun sleep => ?_⟩
        rw [sleep] at skipped
        contradiction
  · exact fun none process _ event mem => none event (mem_historyOf.mp mem).1

/-- A report is empty exactly if no event so far counts for it. -/
theorem report_eq_zero_iff (enumeration : Enumeration) (ignorePid : Bool)
    (positive : ignorePid = true → ∀ event ∈ events, 0 < event.timestamp.seconds)
    : report enumeration ignorePid .zero (processEvents events) = .zero
      ↔ ∀ event ∈ events, event.reported = false := by
  rw [← reported_keys_iff]
  cases ignorePid with
  | false =>
      refine (dumpStats_eq_zero_iff _).trans ?_
      simp only [silent_iff]
  | true =>
      have perm := enumeration.perm (processEvents events)
      refine (dumpStats_eq_zero_iff _).trans ?_
      simp only [row_aggregate, silent_aggregate_iff (positive rfl), List.mem_filter,
        decide_eq_true_eq, perm.mem_iff]
      constructor
      · intro none process mem
        have name : processName process
            ∈ (aggregatePerprocesspid (enumeration.order (processEvents events))
                (processEvents events)).keys :=
          KeyedTable.mem_keys_updateAll.mpr (.inr ⟨process, perm.mem_iff.mpr mem, rfl⟩)
        exact none _ name process ⟨mem, rfl⟩
      · exact fun none _ _ process mem => none process mem.1

/-! Whole runs -/

/-- No earlier report has left anything exactly if each of them was empty. -/
theorem totals_eq_zero_iff (enumeration : Enumeration) (ignorePid : Bool) (inputs : List Input)
    : (signalLoop enumeration ignorePid inputs).2.Nonneg
      ∧ ((signalLoop enumeration ignorePid inputs).2 = .zero
        ↔ ∀ before, before ++ [.report] <+: inputs →
            report enumeration ignorePid .zero (processEvents (linesOf before)) = .zero) := by
  induction inputs using List.reverseRecOn with
  | nil => exact ⟨⟨le_rfl, le_rfl⟩, fun _ before wrong => by simp at wrong, fun _ => rfl⟩
  | append_singleton inputs input ih =>
      obtain ⟨nonneg, zero⟩ := ih
      have last : signalLoop enumeration ignorePid (inputs ++ [input])
          = step enumeration ignorePid (signalLoop enumeration ignorePid inputs) input :=
        List.foldl_append
      rw [last]
      simp only [List.prefix_concat_iff]
      cases input with
      | line event =>
          refine ⟨nonneg, zero.trans (forall_congr' fun before => ?_)⟩
          have other : before ++ [Input.report] ≠ inputs ++ [.line event] := by
            intro eq
            cases List.append_inj_right' eq rfl
          simp [other]
      | report =>
          have table := signalLoop_table enumeration ignorePid inputs
          have nonneg' := report_nonneg enumeration ignorePid (processEvents (linesOf inputs))
          have carried : (step enumeration ignorePid (signalLoop enumeration ignorePid inputs)
                .report).2
              = (signalLoop enumeration ignorePid inputs).2.carry
                  (report enumeration ignorePid .zero (processEvents (linesOf inputs))) := by
            rw [step, report_carry, table]
          rw [carried]
          refine ⟨nonneg.carry nonneg', (nonneg.carry_eq_zero_iff nonneg').trans ?_⟩
          rw [zero]
          constructor
          · rintro ⟨earlier, here⟩ before (eq | within)
            · rw [List.append_cancel_right eq]
              exact here
            · exact earlier before within
          · intro all
            exact ⟨fun before within => all before (.inr within), all inputs (.inl rfl)⟩

/-- Reports do not change the summary exactly if each comes before the first event that it would
count. What they count is carried into the last one, and has to be zero.
-/
theorem summary_reports_eq_iff (enumeration : Enumeration) (ignorePid : Bool)
    (inputs : List Input)
    (positive : ignorePid = true → ∀ event ∈ linesOf inputs, 0 < event.timestamp.seconds)
    : summary enumeration ignorePid inputs = summary enumeration ignorePid (withoutReports inputs)
      ↔ ReportsEarly inputs := by
  have table := signalLoop_table enumeration ignorePid inputs
  have whole : summary enumeration ignorePid inputs
      = (signalLoop enumeration ignorePid inputs).2.carry
          (report enumeration ignorePid .zero (processEvents (linesOf inputs))) := by
    rw [summary, report_carry, table]
  have plain : summary enumeration ignorePid (withoutReports inputs)
      = report enumeration ignorePid .zero (processEvents (linesOf inputs)) := by
    rw [summary, withoutReports, signalLoop_lines]
  rw [whole, plain, Totals.carry_eq_right_iff, (totals_eq_zero_iff enumeration ignorePid inputs).2]
  refine forall_congr' fun before => forall_congr' fun within => ?_
  refine report_eq_zero_iff enumeration ignorePid fun ignore event mem => positive ignore event ?_
  obtain ⟨rest, rfl⟩ := within
  simp only [linesOf, List.filterMap_append] at mem ⊢
  exact List.mem_append_left _ (List.mem_append_left _ mem)

/-- Reports after lines, by their places in the trace. -/
theorem reportsEarly_of_take {inputs : List Input}
    (early : ∀ k < inputs.length, inputs[k]? = some .report →
      ∀ event ∈ linesOf (inputs.take k), event.reported = false)
    : ReportsEarly inputs := by
  rintro before ⟨rest, rfl⟩
  have here := early before.length (by simp) (by simp)
  rwa [List.append_assoc, List.take_left] at here

def oneBegin : Event :=
  ⟨"cat-1".toList, ⟨1, 0⟩, .directReclaimBegin (some 0)⟩

/-- A report after lines that count for nothing: the end of a reclaim that began before the trace,
and wakes outside of one or without details.
-/
def earlyReport : List Input := [
  .line ⟨"cat-1".toList, ⟨0, 1⟩, .directReclaimEnd⟩,
  .line ⟨"cat-1".toList, ⟨0, 2⟩, .wakeupKswapd⟩,
  .line ⟨"kswapd0-2".toList, ⟨0, 3⟩, .kswapdWake none⟩,
  .report,
  .line oneBegin]

theorem earlyReport_harmless
    : summary .stored true earlyReport = summary .stored true (withoutReports earlyReport) := by
  refine (summary_reports_eq_iff .stored true earlyReport ?_).mpr (reportsEarly_of_take ?_)
  · intro _
    decide +kernel
  · decide +kernel

/-- A reclaim that was already reported is counted again. -/
theorem reclaim_counted_twice
    : (summary .stored false [.line oneBegin, .report]).count .direct .mmVmscanDirectReclaimBegin
        = 2
      ∧ (summary .stored false (withoutReports [.line oneBegin, .report])).count .direct
          .mmVmscanDirectReclaimBegin
        = 1
      ∧ summary .stored false [.line oneBegin, .report]
        ≠ summary .stored false (withoutReports [.line oneBegin, .report]) := by
  have twice : (summary .stored false [.line oneBegin, .report]).count .direct
      .mmVmscanDirectReclaimBegin = 2 := by
    decide +kernel
  have once : (summary .stored false (withoutReports [.line oneBegin, .report])).count .direct
      .mmVmscanDirectReclaimBegin = 1 := by
    decide +kernel
  refine ⟨twice, once, fun same => ?_⟩
  rw [same, once] at twice
  contradiction

end LinuxDoc.TracePostprocess.Vmscan
