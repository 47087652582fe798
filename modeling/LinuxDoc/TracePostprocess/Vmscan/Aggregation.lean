import LinuxDoc.TracePostprocess.Vmscan.Counters
import LinuxDoc.TracePostprocess.Vmscan.Latencies

/-! The summary with `--ignore-pid`. A name counts for a half as soon as one of its processes
does, and the latencies of its processes overwrite each other.
-/

namespace LinuxDoc.TracePostprocess.Vmscan

open Foundations

/-! Conditions on a trace -/

def Opens (events : List Event) (half : Half) (process : List Char) : Prop :=
  ∃ event ∈ events, event.process = process ∧ event.tracepoint.opens half = true

/-- A process without a begin of a direct reclaim, or without a wake of kswapd, has no other
events for that half of the summary if another process of its name counts for it.
-/
def CountersAgree (events : List Event) : Prop :=
  ∀ half process other, processName process = processName other → Opens events half other
    → ¬ Opens events half process
    → ∀ event ∈ events, event.process = process → event.tracepoint.works half = false

/-- The process has times that are copied for its name: those of direct reclaim are not if an end
was missed.
-/
def Timed (history : List Event) : Prop :=
  missedEnds history = [] ∧ collected stall history ≠ []
    ∨ ∃ event ∈ history, event.tracepoint = .kswapdSleep

instance (history : List Event) : Decidable (Timed history) :=
  inferInstanceAs (Decidable (_ ∨ _))

/-- No two processes of a name have times that are copied. The times of a process do not
depend on its gap: no end was missed, or none is recorded after it, or kswapd does not fill it.
-/
structure LatenciesApart (events : List Event) : Prop where
  alone {process other : List Char}
    : processName process = processName other → Timed (historyOf process events)
      → Timed (historyOf other events) → process = other
  gap (process : List Char)
    : missedEnds (historyOf process events) = []
      ∨ collected stall (historyOf process events) = []
      ∨ (historyOf process events).countP (·.tracepoint = .kswapdSleep)
        < (missedEnds (historyOf process events)).length

/-! Adding up counters -/

variable {field : Field}

theorem count_addStats (stats more : Stats) (added : field ∈ aggregated)
    : (addStats stats more).count field = stats.count field + more.count field := by
  have other : field ≠ .mmVmscanDirectReclaimEnd := by
    rintro rfl
    exact absurd added (by decide)
  simp [addStats, addKswapdLatencies, addDirectLatencies, addCounts, other, added]

theorem count_foldl_addStats (rows : List Char → Stats) (processes : List (List Char))
    (stats : Stats) (added : field ∈ aggregated)
    : (processes.foldl (fun stats process => addStats stats (rows process)) stats).count field
      = stats.count field + (processes.map fun process => (rows process).count field).sum := by
  induction processes generalizing stats with
  | nil => simp
  | cons process rest ih => simp [ih, count_addStats _ _ added, Nat.add_assoc]

theorem gate_mem_aggregated (half : Half) : half.gate ∈ aggregated := by
  cases half <;> decide

variable {half : Half}

theorem mem_aggregated (mem : field ∈ half.summed)
    : field ∈ aggregated := by
  revert mem
  cases half <;> cases field <;> decide

theorem row_aggregate (order : List (List Char)) (table : Table) (name : List Char)
    : (aggregatePerprocesspid order table).row name
      = (order.filter (processName · = name)).foldl
          (fun stats process => addStats stats (table.row process)) .fresh :=
  KeyedTable.row_updateAll processName (fun process stats => addStats stats (table.row process))
    order (.empty .fresh) name

variable {order : List (List Char)}

/-- The names cover the processes. -/
theorem total_by_name {β : Type} [AddCommMonoid β] {table : Table} (perm : order.Perm table.keys)
    (value : Stats → β)
    : table.total value
      = ((aggregatePerprocesspid order table).keys.map fun name =>
          ((order.filter (processName · = name)).map fun process =>
            value (table.row process)).sum).sum := by
  have sum := (perm.map fun process => value (table.row process)).sum_eq
  refine sum.symm.trans (sum_by_key processName _ (KeyedTable.nodup _) ?_)
  intro process mem missing
  exact (missing (KeyedTable.mem_keys_updateAll.mpr (.inr ⟨process, mem, rfl⟩))).elim

theorem counted_of_not_mem (missing : field ∉ half.summed) (stats : Stats)
    : counted half field stats = 0 :=
  if_neg fun open_ => missing open_.2

theorem counted_le (half : Half) (field : Field) (stats : Stats)
    : counted half field stats ≤ stats.count field := by
  unfold counted
  split_ifs <;> simp

/-- A name counts for a half if one of its processes does. -/
theorem counted_aggregate (mem : field ∈ half.summed) (rows : List Char → Stats)
    (processes : List (List Char))
    : counted half field
        (processes.foldl (fun stats process => addStats stats (rows process)) .fresh)
      = if ∃ other ∈ processes, (rows other).count half.gate ≠ 0 then
          (processes.map fun process => (rows process).count field).sum
        else 0 := by
  unfold counted
  rw [count_foldl_addStats rows processes .fresh (gate_mem_aggregated half),
    count_foldl_addStats rows processes .fresh (mem_aggregated mem)]
  simp [Stats.fresh, List.sum_eq_zero_iff_forall_eq_nat, mem]

theorem sum_counted_le (mem : field ∈ half.summed) (rows : List Char → Stats)
    (processes : List (List Char))
    : (processes.map fun process => counted half field (rows process)).sum
      ≤ counted half field
          (processes.foldl (fun stats process => addStats stats (rows process)) .fresh) := by
  rw [counted_aggregate mem]
  split_ifs with opened
  · exact List.sum_le_sum fun process _ => counted_le half field _
  · push Not at opened
    refine (List.sum_eq_zero ?_).le
    intro x mem
    obtain ⟨process, there, rfl⟩ := List.mem_map.mp mem
    exact if_neg fun open_ => open_.1 (opened process there)

/-- What a name counts for a half is what its processes do, unless a process that does not
count for it has something to add.
-/
theorem sum_counted_eq_iff (mem : field ∈ half.summed) (rows : List Char → Stats)
    (processes : List (List Char))
    : (processes.map fun process => counted half field (rows process)).sum
        = counted half field
            (processes.foldl (fun stats process => addStats stats (rows process)) .fresh)
      ↔ ∀ other ∈ processes, (rows other).count half.gate ≠ 0
        → ∀ process ∈ processes, (rows process).count half.gate = 0
          → (rows process).count field = 0 := by
  by_cases opened : ∃ other ∈ processes, (rows other).count half.gate ≠ 0
  · rw [counted_aggregate mem, if_pos opened,
      sum_eq_sum_iff_of_le fun process _ => counted_le half field (rows process)]
    constructor
    · intro eq _ _ _ process there shut
      rw [← eq process there, counted, if_neg fun open_ => open_.1 shut]
    · intro zero process there
      obtain ⟨other, among, opened⟩ := opened
      by_cases shut : (rows process).count half.gate = 0
      · exact le_antisymm (counted_le half field _)
          (by rw [zero other among opened process there shut]; exact Nat.zero_le _)
      · exact if_pos ⟨shut, mem⟩
  · have le := sum_counted_le mem rows processes
    rw [counted_aggregate mem, if_neg opened, Nat.le_zero] at le
    rw [counted_aggregate mem, if_neg opened]
    exact ⟨fun _ other among counted => absurd ⟨other, among, counted⟩ opened, fun _ => le⟩

/-! Copying latencies -/

def Stats.Quiet (stats : Stats) : Prop :=
  stats.highDirectReclaimLatency.leading = [] ∧ stats.highKswapdLatency.leading = []

/-- The latencies of a name, with where the next ones would be stored. The index for kswapd is
never set.
-/
structure Copied (stats : Stats) (direct kswapd : List Slot) (next : Nat) : Prop where
  direct : stats.highDirectReclaimLatency = direct.map some
  kswapd : stats.highKswapdLatency = kswapd.map some
  next : stats.count .mmVmscanDirectReclaimEnd = next
  sleeps : stats.count .mmVmscanKswapdSleep = 0

theorem copied_fresh : Copied .fresh [] [] 0 :=
  ⟨rfl, rfl, rfl, rfl⟩

/-- What one process does to the arrays and to the indices. -/
theorem addStats_arrays (stats more : Stats)
    : (addStats stats more).highDirectReclaimLatency
        = stats.highDirectReclaimLatency.storeFrom (stats.count .mmVmscanDirectReclaimEnd)
            more.highDirectReclaimLatency.leading
      ∧ (addStats stats more).highKswapdLatency
        = stats.highKswapdLatency.storeFrom (stats.count .mmVmscanKswapdSleep)
            more.highKswapdLatency.leading
      ∧ (addStats stats more).count .mmVmscanDirectReclaimEnd
        = stats.count .mmVmscanKswapdSleep + more.highKswapdLatency.leading.length
      ∧ (addStats stats more).count .mmVmscanKswapdSleep = stats.count .mmVmscanKswapdSleep :=
  ⟨rfl, rfl, rfl, rfl⟩

theorem Copied.addStats_quiet {stats more : Stats} {direct kswapd : List Slot} {next : Nat}
    (copied : Copied stats direct kswapd next) (quiet : more.Quiet)
    : Copied (addStats stats more) direct kswapd 0 := by
  obtain ⟨stored, stored', index, sleeps⟩ := addStats_arrays stats more
  rw [quiet.1] at stored
  rw [quiet.2] at stored' index
  exact ⟨stored.trans copied.direct, stored'.trans copied.kswapd, index.trans copied.sleeps,
    sleeps.trans copied.sleeps⟩

variable {stats : Stats}

/-- The first latencies of a name are copied as they are. -/
theorem Copied.addStats_first (copied : Copied stats [] [] 0) (more : Stats)
    : Copied (addStats stats more) more.highDirectReclaimLatency.leading
        more.highKswapdLatency.leading more.highKswapdLatency.leading.length := by
  obtain ⟨stored, stored', index, sleeps⟩ := addStats_arrays stats more
  rw [copied.direct, copied.next] at stored
  rw [copied.kswapd, copied.sleeps] at stored'
  rw [copied.sleeps, Nat.zero_add] at index
  exact ⟨stored.trans (SparseArray.storeFrom_length [] _),
    stored'.trans (SparseArray.storeFrom_length [] _), index, sleeps.trans copied.sleeps⟩

theorem Copied.foldl_quiet {direct kswapd : List Slot} {next : Nat}
    (copied : Copied stats direct kswapd next) (rows : List Char → Stats)
    {processes : List (List Char)} (quiet : ∀ process ∈ processes, (rows process).Quiet)
    : ∃ last, Copied (processes.foldl (fun stats process => addStats stats (rows process)) stats)
        direct kswapd last ∧ (next = 0 → last = 0) := by
  induction processes generalizing stats next with
  | nil => exact ⟨next, copied, id⟩
  | cons process rest ih =>
      have step := copied.addStats_quiet (quiet process (.head _))
      obtain ⟨last, copied, same⟩ := ih step fun process mem => quiet process (.tail _ mem)
      exact ⟨last, copied, fun _ => same rfl⟩

def Stats.leadingRead (stats : Stats) : List Slot × List Slot :=
  Vmscan.slotsRead
    (SparseArray.sideBySide (stats.highDirectReclaimLatency.leading.map some)
      (stats.highKswapdLatency.leading.map some))

/-- If only one process of a name has latencies to copy, they are read as they were. -/
theorem slotsRead_aggregate {rows : List Char → Stats} {processes : List (List Char)}
    (nodup : processes.Nodup)
    (alone
      : ∀ process ∈ processes, ∀ other ∈ processes, ¬ (rows process).Quiet
          → ¬ (rows other).Quiet → process = other)
    {β : Type} [AddCommMonoid β] (value : List Slot × List Slot → β) (zero : value ([], []) = 0)
    : value (processes.foldl (fun stats process => addStats stats (rows process)) .fresh).slotsRead
      = (processes.map fun process => value (rows process).leadingRead).sum := by
  have silent {process : List Char} (quiet : (rows process).Quiet)
      : value (rows process).leadingRead = 0 := by
    rw [Stats.leadingRead, quiet.1, quiet.2]
    exact zero
  by_cases quiet : ∀ process ∈ processes, (rows process).Quiet
  · obtain ⟨last, copied, _⟩ := copied_fresh.foldl_quiet rows quiet
    have none : ∀ x ∈ processes.map fun process => value (rows process).leadingRead, x = 0 := by
      intro x mem
      obtain ⟨process, there, rfl⟩ := List.mem_map.mp mem
      exact silent (quiet process there)
    rw [List.sum_eq_zero none, Stats.slotsRead, copied.direct, copied.kswapd]
    exact zero
  · push Not at quiet
    obtain ⟨process, mem, loud⟩ := quiet
    obtain ⟨before, after, rfl⟩ := List.append_of_mem mem
    have single := (List.nodup_cons.mp (List.nodup_middle.mp nodup)).1
    have others : ∀ other ∈ before ++ after, (rows other).Quiet := by
      intro other there
      by_contra noisy
      have among : other ∈ before ++ process :: after := by
        rcases List.mem_append.mp there with there | there <;> simp [there]
      exact single (alone process mem other among loud noisy ▸ there)
    obtain ⟨start, first, same⟩ := copied_fresh.foldl_quiet rows
      fun other there => others other (List.mem_append_left _ there)
    obtain rfl := same rfl
    obtain ⟨last, copied, _⟩ := (first.addStats_first (rows process)).foldl_quiet rows
      fun other there => others other (List.mem_append_right _ there)
    have none {some_others : List (List Char)} (subset : some_others ⊆ before ++ after)
        : (some_others.map fun other => value (rows other).leadingRead).sum = 0 := by
      refine List.sum_eq_zero fun x mem => ?_
      obtain ⟨other, there, rfl⟩ := List.mem_map.mp mem
      exact silent (others other (subset there))
    rw [List.foldl_append, List.foldl_cons, Stats.slotsRead, copied.direct, copied.kswapd,
      List.map_append, List.sum_append, List.map_cons, List.sum_cons,
      none (List.subset_append_left before after), none (List.subset_append_right before after),
      zero_add, add_zero]
    rfl

variable {history : List Event}

theorem Records.leading_direct (records : Records history stats)
    : stats.highDirectReclaimLatency.leading
      = if missedEnds history = [] then directSlots history else [] := by
  rw [records.direct]
  split_ifs with none
  · rw [none]
    exact (congrArg SparseArray.leading (SparseArray.storeFrom_length [] _)).trans
      (SparseArray.leading_map_some _)
  · by_cases empty : directSlots history = []
    · rw [empty]
      rfl
    · obtain ⟨event, rest, missed⟩ := List.exists_cons_of_ne_nil none
      rw [SparseArray.storeFrom_nil _ empty, missed]
      rfl

theorem Records.leading_kswapd (records : Records history stats)
    : stats.highKswapdLatency.leading = kswapdSlots history := by
  rw [records.kswapd, SparseArray.leading_map_some]

/-- A gap hides the same latencies of a process alone as in an aggregate. -/
theorem Records.leadingRead_eq (records : Records history stats)
    (gap
      : missedEnds history = [] ∨ directSlots history = []
        ∨ (kswapdSlots history).length < (missedEnds history).length)
    : stats.leadingRead = stats.slotsRead := by
  unfold Stats.leadingRead
  rw [records.leading_direct, records.leading_kswapd]
  rcases gap with none | none | short
  · rw [if_pos none, Stats.slotsRead, records.direct, records.kswapd, none]
    exact congrArg (fun slots => slotsRead (SparseArray.sideBySide slots _))
      (SparseArray.storeFrom_length [] _).symm
  · rw [none, ite_self, Stats.slotsRead, records.direct, records.kswapd, none]
    rfl
  · have missed : missedEnds history ≠ [] := by
      rintro none
      simp [none] at short
    rw [if_neg missed, records.slotsRead_of_lt short, List.map_nil,
      SparseArray.sideBySide_nil_map_some]
    simpa [slotsRead] using slotsRead_kswapd_append (kswapdSlots history) []

theorem directSlots_eq_nil_iff (history : List Event)
    : directSlots history = [] ↔ collected stall history = [] := by
  have latencies := latencies_directSlots history
  rw [← List.map_eq_nil_iff, latencies, List.map_eq_nil_iff]

theorem Records.quiet_of_not_timed (records : Records history stats) (idle : ¬ Timed history)
    : stats.Quiet := by
  unfold Timed at idle
  push Not at idle
  constructor
  · rw [records.leading_direct]
    split
    next none => exact (directSlots_eq_nil_iff history).mpr (idle.1 none)
    next => rfl
  · rw [records.leading_kswapd, ← List.length_eq_zero_iff, length_kswapdSlots,
      List.countP_eq_zero]
    simpa using idle.2

/-! The summary -/

/-- Where no two processes of a name have times to copy, a total of latencies is the same. -/
theorem LatenciesApart.total_eq {events : List Event} (apart : LatenciesApart events)
    (perm : order.Perm (processEvents events).keys) (value : List Slot × List Slot → ℚ)
    (zero : value ([], []) = 0)
    : (aggregatePerprocesspid order (processEvents events)).total
        (fun stats => value stats.slotsRead)
      = (processEvents events).total fun stats => value stats.slotsRead := by
  have records := records_processEvents events
  have leading (process : List Char)
      : ((processEvents events).row process).leadingRead
        = ((processEvents events).row process).slotsRead := by
    refine (records process).leadingRead_eq ?_
    rw [directSlots_eq_nil_iff, length_kswapdSlots]
    exact apart.gap process
  rw [total_by_name perm]
  refine congrArg List.sum (List.map_congr_left fun name _ => ?_)
  rw [row_aggregate]
  have nodup : (order.filter (processName · = name)).Nodup :=
    (perm.nodup_iff.mpr (processEvents events).nodup).filter _
  refine (slotsRead_aggregate nodup ?_ value zero).trans (by simp only [leading])
  intro process mem other mem' loud loud'
  have named := of_decide_eq_true (List.mem_filter.mp mem).2
  have named' := of_decide_eq_true (List.mem_filter.mp mem').2
  have timed {process : List Char} (loud : ¬ ((processEvents events).row process).Quiet)
      : Timed (historyOf process events) := by
    by_contra idle
    exact loud ((records process).quiet_of_not_timed idle)
  exact apart.alone (named.trans named'.symm) (timed loud) (timed loud')

/-- The totals of the counters of a half are the same exactly if this holds name by name. -/
theorem total_counted_eq_iff {table : Table} (perm : order.Perm table.keys)
    (mem : field ∈ half.summed)
    : (aggregatePerprocesspid order table).total (counted half field)
        = table.total (counted half field)
      ↔ ∀ other ∈ table.keys, (table.row other).count half.gate ≠ 0
        → ∀ process ∈ table.keys, processName process = processName other
          → (table.row process).count half.gate = 0 → (table.row process).count field = 0 := by
  rw [total_by_name perm, eq_comm, KeyedTable.total]
  simp only [row_aggregate]
  rw [sum_eq_sum_iff_of_le fun name _ => sum_counted_le mem table.row _]
  simp only [sum_counted_eq_iff mem, List.mem_filter, decide_eq_true_eq, perm.mem_iff]
  constructor
  · intro zero other there opened process here named
    have name : processName other ∈ (aggregatePerprocesspid order table).keys :=
      KeyedTable.mem_keys_updateAll.mpr (.inr ⟨other, perm.mem_iff.mpr there, rfl⟩)
    exact zero _ name other ⟨there, rfl⟩ opened process ⟨here, named⟩
  · rintro zero name - other ⟨there, rfl⟩ opened process ⟨here, named⟩
    exact zero other there opened process here named

/-- All totals of counters are the same exactly if the counters agree. -/
theorem counts_eq_iff {events : List Event} (perm : order.Perm (processEvents events).keys)
    : (∀ half field,
        (aggregatePerprocesspid order (processEvents events)).total (counted half field)
          = (processEvents events).total (counted half field))
      ↔ CountersAgree events := by
  have opens_iff (half : Half) (process : List Char)
      : ((processEvents events).row process).count half.gate ≠ 0 ↔ Opens events half process :=
    gate_ne_zero_iff half events process
  constructor
  · intro same half process other named opened closed event mem owner
    by_contra works
    have works := eq_true_of_ne_false works
    have here : process ∈ (processEvents events).keys :=
      owner ▸ mem_keys_processEvents mem (skipped_eq_false (.inr works))
    have there : other ∈ (processEvents events).keys := by
      obtain ⟨event, mem, rfl, opens⟩ := opened
      exact mem_keys_processEvents mem (skipped_eq_false (.inl opens))
    have shut : ((processEvents events).row process).count half.gate = 0 :=
      not_not.mp fun counted => closed ((opens_iff half process).mp counted)
    have zero : ∀ field ∈ half.summed, ((processEvents events).row process).count field = 0 :=
      fun field summed => (total_counted_eq_iff perm summed).mp (same half field) other there
        ((opens_iff half other).mpr opened) process here named shut
    rw [(summed_eq_zero_iff half events process shut).mp zero event mem owner] at works
    contradiction
  · intro agree half field
    by_cases summed : field ∈ half.summed
    · refine (total_counted_eq_iff perm summed).mpr ?_
      intro other _ opened process _ named shut
      refine (summed_eq_zero_iff half events process shut).mpr ?_ field summed
      exact agree half process other named ((opens_iff half other).mp opened)
        fun counted => (opens_iff half process).mpr counted shut
    · simp [KeyedTable.total, counted_of_not_mem summed]

def oneStall : List Event :=
  [
    ⟨"cat-1".toList, ⟨1, 0⟩, .directReclaimBegin (some 0)⟩,
    ⟨"cat-1".toList, ⟨1, 5000⟩, .directReclaimEnd⟩,
    ⟨"cat-2".toList, ⟨2, 0⟩, .directReclaimBegin (some 0)⟩
  ]

def twoStalls : List Event :=
  [
    ⟨"cat-1".toList, ⟨1, 0⟩, .directReclaimBegin (some 0)⟩,
    ⟨"cat-1".toList, ⟨1, 5000⟩, .directReclaimEnd⟩,
    ⟨"cat-2".toList, ⟨2, 0⟩, .directReclaimBegin (some 0)⟩,
    ⟨"cat-2".toList, ⟨2, 7000⟩, .directReclaimEnd⟩
  ]

end LinuxDoc.TracePostprocess.Vmscan
