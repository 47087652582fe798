import LinuxDoc.Foundations.KeyedTable
import LinuxDoc.Foundations.SparseArray
import LinuxDoc.TracePostprocess.ProcessName
import Mathlib.Algebra.Order.Field.Rat

/-! The script `trace-vmscan-postprocess.pl`, which sums up the page reclaim of a trace: how
often and for how long processes stalled in direct reclaim, and how long kswapd was awake.
Times are exact; the details of an event are what the default regular expressions match.
-/

namespace LinuxDoc.TracePostprocess.Vmscan

open Foundations

inductive Field where
  | mmVmscanDirectReclaimBegin
  | mmVmscanDirectReclaimEnd
  | mmVmscanKswapdWake
  | mmVmscanKswapdSleep
  | mmVmscanWakeupKswapd
  | highKswapdRewakeup
  | highNrScanned
  | highNrFileScanned
  | highNrAnonScanned
  | highNrReclaimed
  | highNrFileReclaimed
  | highNrAnonReclaimed
  | mmVmscanWritepageFileSync
  | mmVmscanWritepageAnonSync
  | mmVmscanWritepageFileAsync
  | mmVmscanWritepageAnonAsync
  | eventUnknown
  deriving DecidableEq

structure Timestamp where
  sec : Nat
  usec : Nat
  deriving DecidableEq

def timestampToMs (timestamp : Timestamp) : ℚ :=
  timestamp.sec * 1000 + timestamp.usec / 1000

structure Slot where
  order : Option Nat
  latency : ℚ
  deriving DecidableEq

/-- The latency that `split` at `-` finds in the text. The sign of a negative one makes an empty
field, which is 0 as a number.
-/
def Slot.read (slot : Slot) : ℚ :=
  if slot.latency < 0 then 0 else slot.latency

/-- What is kept for a process. A counter that was never counted is undefined in the script,
and 0 as a number; so is `STATE_KSWAPD_BEGIN`.
-/
structure Stats where
  count : Field → Nat
  stateDirectBegin : Option ℚ
  stateDirectOrder : Option Nat
  stateKswapdBegin : ℚ
  stateKswapdOrder : Option Nat
  highDirectReclaimLatency : SparseArray Slot
  highKswapdLatency : SparseArray Slot

def Stats.fresh : Stats where
  count := fun _ => 0
  stateDirectBegin := none
  stateDirectOrder := none
  stateKswapdBegin := 0
  stateKswapdOrder := none
  highDirectReclaimLatency := []
  highKswapdLatency := []

def Stats.add (field : Field) (n : Nat) (stats : Stats) : Stats :=
  { stats with count := Function.update stats.count field (stats.count field + n) }

def Stats.bump (field : Field) (stats : Stats) : Stats :=
  stats.add field 1

structure IsolateDetails where
  isolateMode : Nat
  nrScanned : Nat
  file : Nat
  deriving DecidableEq

structure ShrinkDetails where
  nrReclaimed : Nat
  file : Bool
  deriving DecidableEq

structure WritepageDetails where
  file : Bool
  syncIo : Bool
  deriving DecidableEq

inductive Tracepoint where
  | directReclaimBegin (order : Option Nat)
  | directReclaimEnd
  | kswapdWake (order : Option Nat)
  | kswapdSleep
  | wakeupKswapd
  | lruIsolate (details : Option IsolateDetails)
  | lruShrinkInactive (details : Option ShrinkDetails)
  | writepage (details : Option WritepageDetails)
  | other
  deriving DecidableEq

structure Event where
  process : List Char
  timestamp : Timestamp
  tracepoint : Tracepoint
  deriving DecidableEq

def Tracepoint.unparsed : Tracepoint → Bool
  | .directReclaimBegin none => true
  | .kswapdWake none => true
  | .lruIsolate none => true
  | .lruShrinkInactive none => true
  | .writepage none => true
  | _ => false

def Tracepoint.skipped : Tracepoint → Bool
  | .directReclaimBegin none => false
  | tracepoint => tracepoint.unparsed

def WritepageDetails.field : WritepageDetails → Field
  | ⟨true, true⟩ => .mmVmscanWritepageFileSync
  | ⟨false, true⟩ => .mmVmscanWritepageAnonSync
  | ⟨true, false⟩ => .mmVmscanWritepageFileAsync
  | ⟨false, false⟩ => .mmVmscanWritepageAnonAsync

def processEvent (timestamp : Timestamp) : Tracepoint → Stats → Stats
  | .directReclaimBegin order, stats =>
      let stats := stats.bump .mmVmscanDirectReclaimBegin
      let stats := { stats with stateDirectBegin := some (timestampToMs timestamp) }
      match order with
      | none => stats
      | some order => { stats with stateDirectOrder := some order }
  | .directReclaimEnd, stats =>
      let index := stats.count .mmVmscanDirectReclaimEnd
      let stats := stats.bump .mmVmscanDirectReclaimEnd
      match stats.stateDirectBegin with
      | none => stats
      | some begun =>
          let slot := ⟨stats.stateDirectOrder, timestampToMs timestamp - begun⟩
          { stats with
            highDirectReclaimLatency := stats.highDirectReclaimLatency.store index slot }
  | .kswapdWake none, stats => stats
  | .kswapdWake (some order), stats =>
      let stats : Stats := { stats with stateKswapdOrder := some order }
      if stats.stateKswapdBegin = 0 then
        let stats := stats.bump .mmVmscanKswapdWake
        { stats with stateKswapdBegin := timestampToMs timestamp }
      else stats.bump .highKswapdRewakeup
  | .kswapdSleep, stats =>
      let index := stats.count .mmVmscanKswapdSleep
      let stats := stats.bump .mmVmscanKswapdSleep
      let slot := ⟨stats.stateKswapdOrder, timestampToMs timestamp - stats.stateKswapdBegin⟩
      { stats with
        highKswapdLatency := stats.highKswapdLatency.store index slot
        stateKswapdBegin := 0 }
  | .wakeupKswapd, stats => stats.bump .mmVmscanWakeupKswapd
  | .lruIsolate none, stats => stats
  | .lruIsolate (some details), stats =>
      -- `isolate_active` is rotation, not scanning
      if details.isolateMode ≠ 2 then
        let stats := stats.add .highNrScanned details.nrScanned
        if details.file = 1 then stats.add .highNrFileScanned details.nrScanned
        else stats.add .highNrAnonScanned details.nrScanned
      else stats
  | .lruShrinkInactive none, stats => stats
  | .lruShrinkInactive (some details), stats =>
      let stats := stats.add .highNrReclaimed details.nrReclaimed
      if details.file then stats.add .highNrFileReclaimed details.nrReclaimed
      else stats.add .highNrAnonReclaimed details.nrReclaimed
  | .writepage none, stats => stats
  | .writepage (some details), stats => stats.bump details.field
  | .other, stats => stats.bump .eventUnknown

abbrev Table := KeyedTable (List Char) Stats

def processLine (table : Table) (event : Event) : Table :=
  if event.tracepoint.skipped then table
  else table.update event.process (processEvent event.timestamp event.tracepoint)

def processEvents (events : List Event) : Table :=
  events.foldl processLine (.empty .fresh)

/-! `dump_stats` -/

inductive Half where
  | direct
  | kswapd
  deriving DecidableEq

/-- A process without this counter is left out of the half. -/
def Half.gate : Half → Field
  | .direct => .mmVmscanDirectReclaimBegin
  | .kswapd => .mmVmscanKswapdWake

def Half.summed : Half → List Field
  | .direct =>
      [
        .mmVmscanDirectReclaimBegin, .mmVmscanWakeupKswapd,
        .highNrScanned, .highNrFileScanned, .highNrAnonScanned,
        .highNrReclaimed, .highNrFileReclaimed, .highNrAnonReclaimed,
        .mmVmscanWritepageFileSync, .mmVmscanWritepageAnonSync,
        .mmVmscanWritepageFileAsync, .mmVmscanWritepageAnonAsync
      ]
  | .kswapd =>
      [
        .mmVmscanKswapdWake,
        .highNrScanned, .highNrFileScanned, .highNrAnonScanned,
        .highNrReclaimed, .highNrFileReclaimed, .highNrAnonReclaimed,
        .mmVmscanWritepageFileSync, .mmVmscanWritepageAnonSync,
        .mmVmscanWritepageFileAsync, .mmVmscanWritepageAnonAsync
      ]

/-- The `$total_…` variables. They belong to the file: no report sets them back. -/
@[ext]
structure Totals where
  count : Half → Field → Nat
  directLatency : ℚ
  kswapdLatency : ℚ

def Totals.zero : Totals := ⟨fun _ _ => 0, 0, 0⟩

/-- The loop over the latencies of a process, which shows the two arrays in one line. At an
index that both have, only the direct one counts.
-/
def addLatencies : List (Option Slot × Option Slot) → Totals → Totals
  | [], totals => totals
  | (some slot, _) :: rest, totals =>
      addLatencies rest { totals with directLatency := totals.directLatency + slot.read }
  | (none, some slot) :: rest, totals =>
      addLatencies rest { totals with kswapdLatency := totals.kswapdLatency + slot.read }
  | (none, none) :: _, totals => totals

def latencyLine (totals : Totals) (stats : Stats) : Totals :=
  if stats.highDirectReclaimLatency.head?.join = none
      ∧ stats.highKswapdLatency.head?.join = none then totals
  else
    addLatencies (stats.highDirectReclaimLatency.sideBySide stats.highKswapdLatency) totals

def activityLine (half : Half) (totals : Totals) (stats : Stats) : Totals :=
  if stats.count half.gate = 0 then totals
  else
    { totals with
      count := fun other field =>
        if other = half ∧ field ∈ half.summed then totals.count other field + stats.count field
        else totals.count other field }

/-- `dump_stats`, as far as it changes the totals that the summary prints -/
def dumpStats (totals : Totals) (table : Table) : Totals :=
  let rows := table.keys.map table.row
  let totals := rows.foldl latencyLine totals
  let totals := rows.foldl (activityLine .direct) totals
  let totals := rows.foldl (activityLine .kswapd) totals
  { totals with
    directLatency := totals.directLatency / 1000
    kswapdLatency := totals.kswapdLatency / 1000 }

/-! `aggregate_perprocesspid` -/

def aggregated : List Field :=
  [
    .mmVmscanDirectReclaimBegin, .mmVmscanKswapdWake, .mmVmscanWakeupKswapd,
    .highKswapdRewakeup,
    .highNrScanned, .highNrFileScanned, .highNrAnonScanned,
    .highNrReclaimed, .highNrFileReclaimed, .highNrAnonReclaimed,
    .mmVmscanWritepageFileSync, .mmVmscanWritepageAnonSync,
    .mmVmscanWritepageFileAsync, .mmVmscanWritepageAnonAsync
  ]

def addCounts (stats more : Stats) : Stats :=
  { stats with
    count := fun field =>
      if field ∈ aggregated then stats.count field + more.count field else stats.count field }

def addDirectLatencies (stats more : Stats) : Stats :=
  let wrIndex := stats.count .mmVmscanDirectReclaimEnd
  let copied := more.highDirectReclaimLatency.leading
  { stats with
    highDirectReclaimLatency := stats.highDirectReclaimLatency.storeFrom wrIndex copied
    count := Function.update stats.count .mmVmscanDirectReclaimEnd (wrIndex + copied.length) }

/-- Aggregate kswapd latencies. The index after the last one goes into the counter for direct
reclaim here, too.
-/
def addKswapdLatencies (stats more : Stats) : Stats :=
  let wrIndex := stats.count .mmVmscanKswapdSleep
  let copied := more.highKswapdLatency.leading
  { stats with
    highKswapdLatency := stats.highKswapdLatency.storeFrom wrIndex copied
    count := Function.update stats.count .mmVmscanDirectReclaimEnd (wrIndex + copied.length) }

def addStats (stats more : Stats) : Stats :=
  addKswapdLatencies (addDirectLatencies (addCounts stats more) more) more

def aggregatePerprocesspid (order : List (List Char)) (table : Table) : Table :=
  (KeyedTable.empty Stats.fresh).updateAll processName
    (fun process stats => addStats stats (table.row process)) order

/-! Reports -/

structure Enumeration where
  order : Table → List (List Char)
  perm : ∀ table, (order table).Perm table.keys

def Enumeration.stored : Enumeration :=
  ⟨KeyedTable.keys, fun _ => .refl _⟩

def report (enumeration : Enumeration) (ignorePid : Bool) (totals : Totals) (table : Table)
    : Totals :=
  if ignorePid then dumpStats totals (aggregatePerprocesspid (enumeration.order table) table)
  else dumpStats totals table

/-- What `signal_loop` meets: lines, and reports that are asked for by a SIGINT. -/
inductive Input where
  | line (event : Event)
  | report
  deriving DecidableEq

def step (enumeration : Enumeration) (ignorePid : Bool) (state : Table × Totals)
    : Input → Table × Totals
  | .line event => (processLine state.1 event, state.2)
  | .report => (state.1, report enumeration ignorePid state.2 state.1)

def signalLoop (enumeration : Enumeration) (ignorePid : Bool) (inputs : List Input)
    : Table × Totals :=
  inputs.foldl (step enumeration ignorePid) (.empty .fresh, .zero)

def summary (enumeration : Enumeration) (ignorePid : Bool) (inputs : List Input) : Totals :=
  let state := signalLoop enumeration ignorePid inputs
  report enumeration ignorePid state.2 state.1

end LinuxDoc.TracePostprocess.Vmscan
