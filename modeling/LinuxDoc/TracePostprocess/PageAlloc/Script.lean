import LinuxDoc.Foundations.KeyedTable
import LinuxDoc.TracePostprocess.ProcessName

/-! The script `trace-pagealloc-postprocess.pl`, which counts the page allocation events of
each process in a trace. The counters of a process are a hash by name. A report is printed at
the end of the trace, and also whenever a SIGINT asks for one.
-/

namespace LinuxDoc.TracePostprocess.PageAlloc

open Foundations

inductive Field where
  | mmPageAlloc
  | mmPageFree
  | mmPageFreeBatched
  | mmPagePcpuDrain
  | mmPageAllocZoneLocked
  | mmPageAllocExtfrag
  | eventUnknown
  | statePcpuPagesDrained
  | statePcpuPagesRefilled
  | highPcpuDrains
  | highPcpuRefills
  | highExtFrag
  | highExtFragmentSevere
  | highExtFragmentModerate
  | highExtFragmentChanged
  deriving DecidableEq

/-- The counters of a process. What was never counted is undefined in the script, and 0 as a
number.
-/
abbrev Stats := Field → Nat

def bump (field : Field) (stats : Stats) : Stats :=
  Function.update stats field (stats field + 1)

structure FragDetails where
  fallbackOrder : Int
  fragmenting : Bool
  changeOwnership : Bool
  deriving DecidableEq

inductive Tracepoint where
  | mmPageAlloc
  | mmPageFree
  | mmPageFreeBatched
  | mmPagePcpuDrain
  | mmPageAllocZoneLocked
  /-- with its details, if they match the regular expression for them -/
  | mmPageAllocExtfrag (details : Option FragDetails)
  | other
  deriving DecidableEq

structure Event where
  process : List Char
  tracepoint : Tracepoint
  deriving DecidableEq

inductive Batch where
  | drain
  | refill
  deriving DecidableEq

def Batch.state : Batch → Field
  | .drain => .statePcpuPagesDrained
  | .refill => .statePcpuPagesRefilled

def Batch.high : Batch → Field
  | .drain => .highPcpuDrains
  | .refill => .highPcpuRefills

def Batch.has : Batch → Tracepoint → Bool
  | .drain, .mmPagePcpuDrain => true
  | .refill, .mmPageAllocZoneLocked => true
  | _, _ => false

def closeBatch (batch : Batch) (stats : Stats) : Stats :=
  if stats batch.state ≠ 0 then Function.update (bump batch.high stats) batch.state 0 else stats

def Tracepoint.skipped : Tracepoint → Bool
  | .mmPageAllocExtfrag none => true
  | _ => false

def countEvent : Tracepoint → Stats → Stats
  | .mmPageAlloc, stats => bump .mmPageAlloc stats
  | .mmPageFree, stats => bump .mmPageFree stats
  | .mmPageFreeBatched, stats => bump .mmPageFreeBatched stats
  | .mmPagePcpuDrain, stats => bump .statePcpuPagesDrained (bump .mmPagePcpuDrain stats)
  | .mmPageAllocZoneLocked, stats =>
      bump .statePcpuPagesRefilled (bump .mmPageAllocZoneLocked stats)
  | .mmPageAllocExtfrag none, stats => stats
  | .mmPageAllocExtfrag (some details), stats =>
      let stats := bump .mmPageAllocExtfrag stats
      let stats :=
        if details.fragmenting then
          let stats := bump .highExtFrag stats
          if details.fallbackOrder ≤ 3 then bump .highExtFragmentSevere stats
          else bump .highExtFragmentModerate stats
        else stats
      if details.changeOwnership then bump .highExtFragmentChanged stats else stats
  | .other, stats => bump .eventUnknown stats

def processEvent (tracepoint : Tracepoint) (stats : Stats) : Stats :=
  let stats := countEvent tracepoint stats
  let stats := if Batch.drain.has tracepoint then stats else closeBatch .drain stats
  if Batch.refill.has tracepoint then stats else closeBatch .refill stats

abbrev Table := KeyedTable (List Char) Stats

def processLine (table : Table) (event : Event) : Table :=
  if event.tracepoint.skipped then table
  else table.update event.process (processEvent event.tracepoint)

def dumpRow (stats : Stats) : Stats :=
  closeBatch .refill (closeBatch .drain stats)

/-- `dump_stats` copies the hash of processes but not the hashes of their counters, so that
these are the same as in the caller's table. What it prints are columns of the rows it leaves.
-/
def dumpStats (table : Table) : Table :=
  { table with row := fun process => dumpRow (table.row process) }

def columns : List Field :=
  [
    .mmPageAlloc, .mmPageAllocZoneLocked, .mmPageFree, .mmPageFreeBatched, .mmPagePcpuDrain,
    .highPcpuDrains, .highPcpuRefills, .mmPageAllocExtfrag, .highExtFrag,
    .highExtFragmentChanged, .highExtFragmentSevere, .highExtFragmentModerate, .eventUnknown
  ]

def aggregated : List Field :=
  [
    .mmPageAlloc, .mmPageAllocZoneLocked, .mmPageFree, .mmPageFreeBatched, .mmPagePcpuDrain,
    .highPcpuDrains, .highPcpuRefills, .mmPageAllocExtfrag, .highExtFrag,
    .highExtFragmentChanged, .highExtFragmentSevere, .highExtFragmentModerate, .eventUnknown
  ]

def addStats (stats more : Stats) : Stats :=
  fun field => if field ∈ aggregated then stats field + more field else stats field

def aggregatePerprocesspid (order : List (List Char)) (table : Table) : Table :=
  (KeyedTable.empty fun _ => 0).updateAll processName
    (fun process stats => addStats stats (table.row process)) order

/-- What `signal_loop` meets: lines, and reports that are asked for by a SIGINT. -/
inductive Input where
  | line (event : Event)
  | report
  deriving DecidableEq

def step (table : Table) : Input → Table
  | .line event => processLine table event
  | .report => dumpStats table

def signalLoop (inputs : List Input) : Table :=
  inputs.foldl step (.empty fun _ => 0)

def processEvents (events : List Event) : Table :=
  signalLoop (events.map .line)

def report (inputs : List Input) : Table :=
  dumpStats (signalLoop inputs)

/-- The report at the end of a trace without a SIGINT, with `--ignore-pid` -/
def reportIgnorePid (order : List (List Char)) (events : List Event) : Table :=
  dumpStats (aggregatePerprocesspid order (processEvents events))

end LinuxDoc.TracePostprocess.PageAlloc
