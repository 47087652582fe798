import LinuxDoc.Vdso.Lookup

/-! Initialisation from the auxiliary vector, and repeated initialisation.
All calls write the one static `vdso_info`; what lookups see depends on the last call only.
-/

namespace LinuxDoc.Vdso

open Foundations Foundations.Loop Target

variable {target : Target}

structure AuxvEntry (target : Target) where
  aType : target.Addr
  aVal : target.Addr

def atNull : target.Addr := 0
def atSysinfoEhdr : target.Addr := BitVec.ofNat _ 33

def auxvEntry (mem : target.Memory) (auxv : target.Addr) (i : Nat) : AuxvEntry target :=
  let entry := plus auxv (i * target.bits.pick 8 16)
  {
    aType := native mem entry
    aVal := native mem (plus entry (target.bits.pick 4 8))
  }

/-- One pass over the auxiliary vector, which leaves with the image's address if the vector
has one before `AT_NULL`.
-/
def auxvPass (mem : target.Memory) (auxv : target.Addr) (i : Nat)
    : Option (Pass Nat (Option target.Addr)) :=
  let entry := auxvEntry mem auxv i
  if entry.aType = atNull then some (.leave none)
  else if entry.aType = atSysinfoEhdr then some (.leave (some entry.aVal))
  else some (.again (i + 1))

def vdsoInitFromAuxv (mem : target.Memory) (auxv : target.Addr) (info : VdsoInfo target)
    (fuel : Nat)
    : Option (VdsoInfo target) :=
  match run (auxvPass mem auxv) fuel 0 with
  | none => none
  | some (some base) => vdsoInitFromSysinfoEhdr mem base info fuel
  | some none => some { info with valid := false }

inductive InitCall (target : Target) where
  | sysinfoEhdr (mem : target.Memory) (base : target.Addr)
  | auxv (mem : target.Memory) (vector : target.Addr)

def InitCall.run (call : InitCall target) (info : VdsoInfo target) (fuel : Nat)
    : Option (VdsoInfo target) :=
  match call with
  | .sysinfoEhdr mem base => vdsoInitFromSysinfoEhdr mem base info fuel
  | .auxv mem vector => vdsoInitFromAuxv mem vector info fuel

def runCalls : List (InitCall target) → VdsoInfo target → Nat → Option (VdsoInfo target)
  | [], info, _ => some info
  | call :: rest, info, fuel => (call.run info fuel).bind (fun next => runCalls rest next fuel)

def zeroedInfo : VdsoInfo target := ⟨false, 0, 0, 0, 0, 0, 0, 0, 0, 0, 0⟩

/-- Lookups cannot tell the two apart: they are equal, or both are marked invalid. -/
def VdsoInfo.SameLookups (left right : VdsoInfo target) : Prop :=
  left = right ∨ (left.valid = false ∧ right.valid = false)

theorem vdsoSym_invalid {info : VdsoInfo target} (invalid : info.valid = false)
    (mem : target.Memory) (version name : CString) (fuel : Nat)
    : vdsoSym mem info version name fuel = some (.ok 0) := by
  simp [vdsoSym, invalid]

theorem VdsoInfo.SameLookups.vdsoSym_eq {left right : VdsoInfo target}
    (same : left.SameLookups right) (mem : target.Memory) (version name : CString) (fuel : Nat)
    : vdsoSym mem left version name fuel = vdsoSym mem right version name fuel := by
  rcases same with rfl | ⟨hl, hr⟩
  · rfl
  · rw [vdsoSym_invalid hl, vdsoSym_invalid hr]

/-- The end of initialisation overwrites every field it does not take from the segments. -/
theorem finishInit_sameLookups (mem : target.Memory) {left right : VdsoInfo target}
    (scan : DynamicScan target) (loadAddr : left.loadAddr = right.loadAddr)
    (loadOffset : left.loadOffset = right.loadOffset) (hl : left.valid = false)
    (hr : right.valid = false)
    : (finishInit mem left scan).SameLookups (finishInit mem right scan) := by
  by_cases missing : scan.symstrings = 0 ∨ scan.symtab = 0 ∨ scan.hash = 0
  · right
    simp only [finishInit, if_pos missing]
    exact ⟨hl, hr⟩
  · left
    simp only [finishInit, if_neg missing, loadAddr, loadOffset]

/-- The previous contents of `vdso_info` do not show after a call: where it fails it leaves
the record invalid, and where it succeeds it has written every field.
-/
theorem vdsoInitFromSysinfoEhdr_sameLookups (mem : target.Memory) (base : target.Addr)
    (left right : VdsoInfo target) (fuel : Nat)
    : Option.Rel VdsoInfo.SameLookups (vdsoInitFromSysinfoEhdr mem base left fuel)
        (vdsoInitFromSysinfoEhdr mem base right fuel) := by
  cases located : locateDynamic mem base with
  | none =>
      obtain ⟨_, failed, hl⟩ := init_unlocated located left fuel
      obtain ⟨_, failed', hr⟩ := init_unlocated located right fuel
      rw [failed, failed']
      exact .some (.inr ⟨hl, hr⟩)
  | some tables =>
      rw [init_located located, init_located located]
      cases scanDynamic mem tables.1 tables.2 fuel with
      | none => exact .none
      | some scan => exact .some (finishInit_sameLookups mem scan rfl rfl rfl rfl)

theorem vdsoInitFromAuxv_sameLookups (mem : target.Memory) (auxv : target.Addr)
    (left right : VdsoInfo target) (fuel : Nat)
    : Option.Rel VdsoInfo.SameLookups (vdsoInitFromAuxv mem auxv left fuel)
        (vdsoInitFromAuxv mem auxv right fuel) := by
  simp only [vdsoInitFromAuxv]
  cases run (auxvPass mem auxv) fuel 0 with
  | none => exact .none
  | some found =>
      cases found with
      | none => exact .some (.inr ⟨rfl, rfl⟩)
      | some base => exact vdsoInitFromSysinfoEhdr_sameLookups mem base left right fuel

theorem InitCall.run_sameLookups (call : InitCall target) (left right : VdsoInfo target)
    (fuel : Nat)
    : Option.Rel VdsoInfo.SameLookups (call.run left fuel) (call.run right fuel) := by
  cases call with
  | sysinfoEhdr mem base => exact vdsoInitFromSysinfoEhdr_sameLookups mem base left right fuel
  | auxv mem vector => exact vdsoInitFromAuxv_sameLookups mem vector left right fuel

/-- A sequence of calls ends with its last one. -/
theorem runCalls_concat (calls : List (InitCall target)) (last : InitCall target)
    (start : VdsoInfo target) (fuel : Nat)
    : runCalls (calls ++ [last]) start fuel
      = (runCalls calls start fuel).bind (fun before => last.run before fuel) := by
  induction calls generalizing start with
  | nil => simp [runCalls]
  | cons call rest ih => simp only [List.cons_append, runCalls, Option.bind_assoc, ih]

/-- After any calls, lookups see what the last call alone would have left, and nothing if it failed.
Two states before the last call differ only in what it sets or makes unread (`run_sameLookups`).
-/
theorem lastInit_decides (calls : List (InitCall target)) (last : InitCall target)
    (start info : VdsoInfo target) (fuel : Nat)
    (returned : runCalls (calls ++ [last]) start fuel = some info)
    : ∃ alone,
        last.run zeroedInfo fuel = some alone
        ∧ (∀ mem version name budget,
            vdsoSym mem info version name budget = vdsoSym mem alone version name budget)
        ∧ (alone.valid = false
            → ∀ mem version name budget,
                vdsoSym mem info version name budget = some (.ok 0)) := by
  rw [runCalls_concat, Option.bind_eq_some_iff] at returned
  obtain ⟨before, _, ended⟩ := returned
  have same := last.run_sameLookups before zeroedInfo fuel
  rw [ended] at same
  cases alone : last.run zeroedInfo fuel with
  | none => rw [alone] at same; cases same
  | some info' =>
      rw [alone] at same
      cases same with
      | some same =>
          refine ⟨info', rfl, same.vdsoSym_eq, ?_⟩
          intro failed mem version name budget
          rw [same.vdsoSym_eq, vdsoSym_invalid failed]

def zeroMemory : sampleTarget.Memory := fun _ => 0

theorem emptyAuxv_run (info : VdsoInfo sampleTarget) (fuel : Nat)
    : (InitCall.auxv zeroMemory 0).run info (fuel + 1) = some { info with valid := false } := by
  have ends : auxvPass zeroMemory 0 0 = some (.leave none) := by
    have null : (auxvEntry zeroMemory 0 0).aType = atNull := by decide +kernel
    simp only [auxvPass, null, if_true]
  simp only [InitCall.run, vdsoInitFromAuxv, Loop.run, ends]

/-- An empty auxiliary vector after a successful call leaves nothing to find. -/
theorem emptyAuxv_decides
    : ∃ fuel info,
        runCalls ([.sysinfoEhdr sampleMemory sampleImage.base] ++ [.auxv zeroMemory 0]) zeroedInfo
            fuel
          = some info
        ∧ ∀ mem version name budget,
            vdsoSym mem info version name budget = some (.ok 0) := by
  obtain ⟨bound, returns⟩ := sampleImage_wellFormed.init_returns zeroedInfo
  have first : (InitCall.sysinfoEhdr sampleMemory sampleImage.base).run zeroedInfo (bound + 1)
      = some (sampleImage.loaded sampleMemory) := by
    rw [InitCall.run]
    exact returns (bound + 1) (Nat.le_succ bound)
  have returned : runCalls
        ([.sysinfoEhdr sampleMemory sampleImage.base] ++ [.auxv zeroMemory 0]) zeroedInfo
        (bound + 1)
      = some { sampleImage.loaded sampleMemory with valid := false } := by
    rw [runCalls_concat]
    simp only [runCalls, first, emptyAuxv_run, Option.bind_some]
  obtain ⟨alone, ran, _, nothing⟩ := lastInit_decides _ _ _ _ _ returned
  rw [emptyAuxv_run] at ran
  cases ran
  exact ⟨_, _, returned, nothing rfl⟩

end LinuxDoc.Vdso
