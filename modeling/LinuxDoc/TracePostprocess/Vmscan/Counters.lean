import LinuxDoc.TracePostprocess.Vmscan.Summary

/-! The events that count for the two halves of the summary. -/

namespace LinuxDoc.TracePostprocess.Vmscan

open Foundations

/-- The events without which a process is left out of a half. -/
def Tracepoint.opens (half : Half) : Tracepoint → Bool
  | .directReclaimBegin _ => half = .direct
  | .kswapdWake (some _) => half = .kswapd
  | _ => false

def Tracepoint.works (half : Half) : Tracepoint → Bool
  | .wakeupKswapd => half = .direct
  | .lruIsolate (some details) => details.isolateMode ≠ 2 ∧ details.nrScanned ≠ 0
  | .lruShrinkInactive (some details) => details.nrReclaimed ≠ 0
  | .writepage (some _) => true
  | _ => false

def IsolateDetails.fields (details : IsolateDetails) : List Field :=
  if details.isolateMode = 2 then []
  else if details.file = 1 then [.highNrScanned, .highNrFileScanned]
  else [.highNrScanned, .highNrAnonScanned]

def ShrinkDetails.fields (details : ShrinkDetails) : List Field :=
  if details.file then [.highNrReclaimed, .highNrFileReclaimed]
  else [.highNrReclaimed, .highNrAnonReclaimed]

def Tracepoint.amount : Tracepoint → Field → Nat
  | .directReclaimBegin _, field => if field = .mmVmscanDirectReclaimBegin then 1 else 0
  | .directReclaimEnd, field => if field = .mmVmscanDirectReclaimEnd then 1 else 0
  | .kswapdSleep, field => if field = .mmVmscanKswapdSleep then 1 else 0
  | .wakeupKswapd, field => if field = .mmVmscanWakeupKswapd then 1 else 0
  | .lruIsolate (some details), field => if field ∈ details.fields then details.nrScanned else 0
  | .lruShrinkInactive (some details), field =>
      if field ∈ details.fields then details.nrReclaimed else 0
  | .writepage (some details), field => if field = details.field then 1 else 0
  | .other, field => if field = .eventUnknown then 1 else 0
  | _, _ => 0

def Field.plain (field : Field) : Prop :=
  field ≠ .mmVmscanKswapdWake ∧ field ≠ .highKswapdRewakeup

theorem count_processEvent_end (timestamp : Timestamp) (stats : Stats)
    : (processEvent timestamp .directReclaimEnd stats).count
      = (stats.bump .mmVmscanDirectReclaimEnd).count := by
  cases begun : stats.stateDirectBegin with
  | none => rw [processEvent_end_of_none begun]
  | some => rw [processEvent_end_of_some begun]

/-- The same number of pages, for two counters. -/
theorem count_add_add {first second : Field} (apart : first ≠ second) (n : Nat) (stats : Stats)
    (field : Field)
    : ((stats.add first n).add second n).count field
      = stats.count field + if field ∈ [first, second] then n else 0 := by
  by_cases here : field = first
  · subst here
    simp [apart]
  · simp [here]

variable {field : Field}

/-- An event adds its amount to each counter, by cases on the tracepoint. -/
theorem count_processEvent (plain : field.plain) (timestamp : Timestamp) (tracepoint : Tracepoint)
    (stats : Stats)
    : (processEvent timestamp tracepoint stats).count field
      = stats.count field + tracepoint.amount field := by
  cases tracepoint with
  | directReclaimBegin order => cases order <;> simp [processEvent, Tracepoint.amount]
  | directReclaimEnd => simp [count_processEvent_end, Tracepoint.amount]
  | kswapdWake order =>
      cases order with
      | none => rfl
      | some order =>
          simp only [processEvent]
          split_ifs <;> simp [Tracepoint.amount, plain.1, plain.2]
  | kswapdSleep | wakeupKswapd | other => simp [processEvent, Tracepoint.amount]
  | lruIsolate details =>
      cases details with
      | none => rfl
      | some details =>
          unfold processEvent Tracepoint.amount IsolateDetails.fields
          by_cases rotation : details.isolateMode = 2
          · simp [rotation]
          · by_cases file : details.file = 1
            · simpa [rotation, file]
                using count_add_add (show Field.highNrScanned ≠ .highNrFileScanned by decide)
                  details.nrScanned stats field
            · simpa [rotation, file]
                using count_add_add (show Field.highNrScanned ≠ .highNrAnonScanned by decide)
                  details.nrScanned stats field
  | lruShrinkInactive details =>
      cases details with
      | none => rfl
      | some details =>
          unfold processEvent Tracepoint.amount ShrinkDetails.fields
          by_cases file : details.file = true
          · simpa [file]
              using count_add_add (show Field.highNrReclaimed ≠ .highNrFileReclaimed by decide)
                details.nrReclaimed stats field
          · simpa [file]
              using count_add_add (show Field.highNrReclaimed ≠ .highNrAnonReclaimed by decide)
                details.nrReclaimed stats field
  | writepage details => cases details <;> simp [processEvent, Tracepoint.amount]

theorem count_ne_zero_iff (plain : field.plain) (events : List Event) (process : List Char)
    : ((processEvents events).row process).count field ≠ 0
      ↔ ∃ event ∈ events, event.process = process ∧ event.tracepoint.amount field ≠ 0 := by
  induction events using List.reverseRecOn with
  | nil => simp [processEvents, KeyedTable.empty, Stats.fresh]
  | append_singleton events event ih =>
      rw [processEvents_append, row_processLine]
      simp only [List.mem_append, List.mem_singleton, or_and_right, exists_or, exists_eq_left,
        ← ih]
      split_ifs with same
      · rw [count_processEvent plain]
        simp only [same, true_and]
        omega
      · simp [same]

/-! The gates -/

/-- A wake is counted if kswapd is not taken to be awake. -/
theorem count_wake_processEvent (timestamp : Timestamp) (tracepoint : Tracepoint) (stats : Stats)
    : (processEvent timestamp tracepoint stats).count .mmVmscanKswapdWake
      = stats.count .mmVmscanKswapdWake
        + if tracepoint.opens .kswapd = true ∧ stats.stateKswapdBegin = 0 then 1 else 0 := by
  cases timed : tracepoint.timed with
  | false =>
      obtain ⟨count, eq, _, _, wake⟩ := processEvent_untimed timed timestamp stats
      have closed : tracepoint.opens .kswapd = false := by
        cases tracepoint with
        | directReclaimBegin | directReclaimEnd | kswapdWake | kswapdSleep => contradiction
        | wakeupKswapd | lruIsolate | lruShrinkInactive | writepage | other => rfl
      simp [eq, wake, closed]
  | true =>
      cases tracepoint with
      | directReclaimBegin order => cases order <;> rfl
      | directReclaimEnd =>
          rw [count_processEvent_end]
          rfl
      | kswapdWake order =>
          cases order with
          | none => rfl
          | some order =>
              simp only [processEvent, Tracepoint.opens]
              split_ifs <;> simp_all
      | kswapdSleep => rfl
      | wakeupKswapd | lruIsolate | lruShrinkInactive | writepage | other => contradiction

/-- kswapd is taken to be awake only after a wake. -/
theorem opens_of_awakeSince_ne_zero {history : List Event} (awake : awakeSince history ≠ 0)
    : ∃ event ∈ history, event.tracepoint.opens .kswapd = true := by
  induction history with
  | nil => contradiction
  | cons event earlier ih =>
      by_cases wake : event.tracepoint.opens .kswapd = true
      · exact ⟨event, .head _, wake⟩
      · obtain ⟨process, timestamp, tracepoint⟩ := event
        have before : awakeSince earlier ≠ 0 := by
          cases tracepoint with
          | kswapdSleep => contradiction
          | kswapdWake order =>
              cases order with
              | none => exact awake
              | some order => contradiction
          | directReclaimBegin | directReclaimEnd | wakeupKswapd | lruIsolate
          | lruShrinkInactive | writepage | other => exact awake
        obtain ⟨event, mem, wake⟩ := ih before
        exact ⟨event, .tail _ mem, wake⟩

theorem wake_ne_zero_iff (events : List Event) (process : List Char)
    : ((processEvents events).row process).count .mmVmscanKswapdWake ≠ 0
      ↔ ∃ event ∈ events, event.process = process ∧ event.tracepoint.opens .kswapd = true := by
  induction events using List.reverseRecOn with
  | nil => simp [processEvents, KeyedTable.empty, Stats.fresh]
  | append_singleton events event ih =>
      rw [processEvents_append, row_processLine]
      simp only [List.mem_append, List.mem_singleton, or_and_right, exists_or, exists_eq_left,
        ← ih]
      split_ifs with same
      · rw [count_wake_processEvent]
        -- a wake that is not counted comes after one that was
        have awake : ((processEvents events).row process).stateKswapdBegin ≠ 0
            → ((processEvents events).row process).count .mmVmscanKswapdWake ≠ 0 := by
          intro awake
          rw [(records_processEvents events process).kswapdBegin] at awake
          obtain ⟨event, mem, wake⟩ := opens_of_awakeSince_ne_zero awake
          obtain ⟨there, same⟩ := List.mem_filter.mp (List.mem_reverse.mp mem)
          exact ih.mpr ⟨event, there, of_decide_eq_true same, wake⟩
        simp only [same, true_and]
        split_ifs with first
        · simp [first.1]
        · tauto
      · simp [same]

theorem IsolateDetails.mem_fields {details : IsolateDetails} (mem : field ∈ details.fields)
    : field ∈ [.highNrScanned, .highNrFileScanned, .highNrAnonScanned] := by
  unfold IsolateDetails.fields at mem
  split_ifs at mem <;> simp_all <;> tauto

theorem ShrinkDetails.mem_fields {details : ShrinkDetails} (mem : field ∈ details.fields)
    : field ∈ [.highNrReclaimed, .highNrFileReclaimed, .highNrAnonReclaimed] := by
  unfold ShrinkDetails.fields at mem
  split_ifs at mem <;> simp_all <;> tauto

theorem amount_begin (tracepoint : Tracepoint)
    : tracepoint.amount .mmVmscanDirectReclaimBegin ≠ 0 ↔ tracepoint.opens .direct = true := by
  cases tracepoint with
  | directReclaimBegin | directReclaimEnd | kswapdSleep | wakeupKswapd | other =>
      simp [Tracepoint.amount, Tracepoint.opens]
  | kswapdWake details => cases details <;> simp [Tracepoint.amount, Tracepoint.opens]
  | lruIsolate details =>
      cases details with
      | none => simp [Tracepoint.amount, Tracepoint.opens]
      | some details =>
          have other : .mmVmscanDirectReclaimBegin ∉ details.fields :=
            fun mem => absurd (details.mem_fields mem) (by decide)
          simp [Tracepoint.amount, Tracepoint.opens, other]
  | lruShrinkInactive details =>
      cases details with
      | none => simp [Tracepoint.amount, Tracepoint.opens]
      | some details =>
          have other : .mmVmscanDirectReclaimBegin ∉ details.fields :=
            fun mem => absurd (details.mem_fields mem) (by decide)
          simp [Tracepoint.amount, Tracepoint.opens, other]
  | writepage details =>
      cases details with
      | none => simp [Tracepoint.amount, Tracepoint.opens]
      | some details =>
          obtain ⟨file, syncIo⟩ := details
          cases file <;> cases syncIo <;> decide

theorem gate_ne_zero_iff (half : Half) (events : List Event) (process : List Char)
    : ((processEvents events).row process).count half.gate ≠ 0
      ↔ ∃ event ∈ events, event.process = process ∧ event.tracepoint.opens half = true := by
  cases half with
  | kswapd => exact wake_ne_zero_iff events process
  | direct =>
      refine (count_ne_zero_iff ⟨by decide, by decide⟩ events process).trans ?_
      simp only [Half.gate, amount_begin]

/-! The other counters of a half -/

variable {half : Half}

theorem plain_of_summed (mem : field ∈ half.summed) (other : field ≠ half.gate)
    : field.plain := by
  constructor
  · rintro rfl
    cases half with
    | direct => exact absurd mem (by decide)
    | kswapd => exact other rfl
  · rintro rfl
    cases half <;> exact absurd mem (by decide)

variable {tracepoint : Tracepoint}

theorem works_of_amount (mem : field ∈ half.summed) (other : field ≠ half.gate)
    (amount : tracepoint.amount field ≠ 0)
    : tracepoint.works half = true := by
  cases tracepoint with
  | directReclaimBegin | directReclaimEnd | kswapdSleep | wakeupKswapd | other =>
      simp only [Tracepoint.amount, ne_eq, ite_eq_right_iff, one_ne_zero, imp_false, not_not]
        at amount
      subst amount
      revert mem other
      cases half <;> simp [Half.summed, Half.gate, Tracepoint.works]
  | kswapdWake details => cases details <;> contradiction
  | lruIsolate details =>
      cases details with
      | none => contradiction
      | some details =>
          have scanned : details.isolateMode ≠ 2 := by
            intro rotation
            simp [Tracepoint.amount, IsolateDetails.fields, rotation] at amount
          have pages : details.nrScanned ≠ 0 := by
            intro none
            simp [Tracepoint.amount, none] at amount
          exact decide_eq_true ⟨scanned, pages⟩
  | lruShrinkInactive details =>
      cases details with
      | none => contradiction
      | some details =>
          refine decide_eq_true fun none => ?_
          simp [Tracepoint.amount, none] at amount
  | writepage details =>
      cases details with
      | none => contradiction
      | some details => rfl

theorem exists_amount_of_works (works : tracepoint.works half = true)
    : ∃ field ∈ half.summed, field ≠ half.gate ∧ field.plain ∧ tracepoint.amount field ≠ 0 := by
  cases tracepoint with
  | directReclaimBegin | directReclaimEnd | kswapdWake | kswapdSleep | other => contradiction
  | wakeupKswapd =>
      obtain rfl : half = .direct := of_decide_eq_true works
      exact ⟨.mmVmscanWakeupKswapd, by decide, by decide, ⟨by decide, by decide⟩, by decide⟩
  | lruIsolate details =>
      cases details with
      | none => contradiction
      | some details =>
          obtain ⟨scanned, pages⟩ := of_decide_eq_true works
          refine ⟨.highNrScanned, ?_, ?_, ⟨by decide, by decide⟩, ?_⟩
          · cases half <;> decide
          · cases half <;> decide
          · have counted : .highNrScanned ∈ details.fields := by
              unfold IsolateDetails.fields
              split_ifs <;> simp_all
            simpa [Tracepoint.amount, counted] using pages
  | lruShrinkInactive details =>
      cases details with
      | none => contradiction
      | some details =>
          refine ⟨.highNrReclaimed, ?_, ?_, ⟨by decide, by decide⟩, ?_⟩
          · cases half <;> decide
          · cases half <;> decide
          · have counted : .highNrReclaimed ∈ details.fields := by
              unfold ShrinkDetails.fields
              split_ifs <;> simp
            simpa [Tracepoint.amount, counted] using of_decide_eq_true works
  | writepage details =>
      cases details with
      | none => contradiction
      | some details =>
          have summed : details.field ∈ half.summed ∧ details.field ≠ half.gate := by
            obtain ⟨file, syncIo⟩ := details
            cases half <;> cases file <;> cases syncIo <;> decide
          exact ⟨details.field, summed.1, summed.2, plain_of_summed summed.1 summed.2,
            by simp [Tracepoint.amount]⟩

/-- A process that is left out of a half has nothing to add to it, if it has no other events
that count for it.
-/
theorem summed_eq_zero_iff (half : Half) (events : List Event) (process : List Char)
    (closed : ((processEvents events).row process).count half.gate = 0)
    : (∀ field ∈ half.summed, ((processEvents events).row process).count field = 0)
      ↔ ∀ event ∈ events, event.process = process → event.tracepoint.works half = false := by
  constructor
  · intro zero event mem same
    by_contra works
    obtain ⟨field, summed, _, plain, amount⟩ :=
      exists_amount_of_works (eq_true_of_ne_false works)
    exact (count_ne_zero_iff plain events process).mpr ⟨event, mem, same, amount⟩
      (zero field summed)
  · intro idle field mem
    by_cases gate : field = half.gate
    · rw [gate, closed]
    · by_contra counted
      obtain ⟨event, there, same, amount⟩ :=
        (count_ne_zero_iff (plain_of_summed mem gate) events process).mp counted
      have works := works_of_amount mem gate amount
      rw [idle event there same] at works
      contradiction

/-- A line that is left with `next` counts for nothing. -/
theorem skipped_eq_false (counts : tracepoint.opens half = true ∨ tracepoint.works half = true)
    : tracepoint.skipped = false := by
  cases tracepoint with
  | directReclaimBegin details => cases details <;> rfl
  | directReclaimEnd | kswapdSleep | wakeupKswapd | other => rfl
  | kswapdWake details | lruIsolate details | lruShrinkInactive details | writepage details =>
      cases details with
      | none => exact counts.elim nofun nofun
      | some details => rfl

end LinuxDoc.TracePostprocess.Vmscan
