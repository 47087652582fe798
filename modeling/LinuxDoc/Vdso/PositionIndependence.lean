import LinuxDoc.Vdso.Reinitialisation
import Mathlib.Data.BitVec

/-! Lookups in one image loaded at two addresses.
The two runs are compared pass by pass: every pointer of the second is that of the first
moved by the distance, except that a pointer never found is null in both.
-/

namespace LinuxDoc.Vdso

open Foundations Foundations.Loop Target

variable {target : Target}

def loadAt (image : target.Addr → UInt8) (base : target.Addr) : target.Memory :=
  fun address => image (address - base)

/-- One memory is the other moved up by a distance. -/
def Moved (distance : target.Addr) (mem moved : target.Memory) : Prop :=
  ∀ address, moved (address + distance) = mem address

theorem loadAt_moved (image : target.Addr → UInt8) (base distance : target.Addr)
    : Moved distance (loadAt image base) (loadAt image (base + distance)) := by
  intro address
  rw [loadAt, loadAt, add_sub_add_right_eq_sub]

-- Reading moved memory

theorem plus_add (address distance : target.Addr) (offset : Nat)
    : plus (address + distance) offset = plus address offset + distance := by
  rw [plus, plus, add_right_comm]

namespace Moved

variable {distance : target.Addr} {mem moved : target.Memory}

theorem bytesAt_eq (move : Moved distance mem moved) (address : target.Addr)
    : bytesAt moved (address + distance) = bytesAt mem address := by
  funext offset
  rw [bytesAt, bytesAt, plus_add, move]

theorem half_eq (move : Moved distance mem moved) (address : target.Addr)
    : half moved (address + distance) = half mem address := by
  rw [half, half, move.bytesAt_eq]

theorem word_eq (move : Moved distance mem moved) (address : target.Addr)
    : word moved (address + distance) = word mem address := by
  rw [word, word, move.bytesAt_eq]

theorem native_eq (move : Moved distance mem moved) (address : target.Addr)
    : native moved (address + distance) = native mem address := by
  rw [native, native, move.bytesAt_eq]

theorem phdr_eq (move : Moved distance mem moved) (pt : target.Addr) (i : Nat)
    : phdr moved (pt + distance) i = phdr mem pt i := by
  simp only [phdr, plus_add, move.word_eq, move.native_eq]

theorem dynEntry_eq (move : Moved distance mem moved) (dyn : target.Addr) (i : Nat)
    : dynEntry moved (dyn + distance) i = dynEntry mem dyn i := by
  simp only [dynEntry, plus_add, move.native_eq]

theorem symbol_eq (move : Moved distance mem moved) (symtab : target.Addr) (i : BitVec 32)
    : symbol moved (symtab + distance) i = symbol mem symtab i := by
  simp only [symbol, plus_add, move.word_eq, move.half_eq, move.native_eq, move _]

theorem wordAt_eq (move : Moved distance mem moved) (words : target.Addr) (i : Nat)
    : wordAt moved (words + distance) i = wordAt mem words i := by
  rw [wordAt, wordAt, plus_add, move.word_eq]

theorem versymAt_eq (move : Moved distance mem moved) (versym : target.Addr) (i : BitVec 32)
    : versymAt moved (versym + distance) i = versymAt mem versym i := by
  rw [versymAt, versymAt, plus_add, move.half_eq]

theorem verdefAt_eq (move : Moved distance mem moved) (entry : target.Addr)
    : verdefAt moved (entry + distance) = verdefAt mem entry := by
  simp only [verdefAt, plus_add, move.word_eq, move.half_eq]

theorem vdaName_eq (move : Moved distance mem moved) (entry : target.Addr)
    : vdaName moved (entry + distance) = vdaName mem entry := by
  rw [vdaName, vdaName, move.verdefAt_eq, add_right_comm, move.word_eq]

theorem stringAt_eq (move : Moved distance mem moved) (symstrings : target.Addr)
    (offset : BitVec 32)
    : stringAt moved (symstrings + distance) offset = stringAt mem symstrings offset := by
  rw [stringAt, stringAt, add_right_comm, move.bytesAt_eq]

theorem eiClass_eq (move : Moved distance mem moved) (base : target.Addr)
    : eiClass moved (base + distance) = eiClass mem base := by
  rw [eiClass, eiClass, plus_add, move]

theorem segments_eq (move : Moved distance mem moved) (base : target.Addr)
    : segments moved (base + distance) = segments mem base := by
  have phnum : ePhnum moved (base + distance) = ePhnum mem base := by
    rw [ePhnum, ePhnum, plus_add, move.half_eq]
  have phoff : ePhoff moved (base + distance) = ePhoff mem base := by
    rw [ePhoff, ePhoff, plus_add, move.native_eq]
  have table : phdr moved (base + distance + ePhoff mem base) = phdr mem (base + ePhoff mem base)
      := by
    funext i
    rw [add_right_comm, move.phdr_eq]
  rw [segments, segments, phnum, phoff, table]

end Moved

-- Initialisation at the two addresses

def IsDynamicTable (mem : target.Memory) (dyn : target.Addr) (entries : List (Dyn target))
    : Prop :=
  (dynEntry mem dyn entries.length).dTag = dtNull
  ∧ entries = (List.range entries.length).map (dynEntry mem dyn)
  ∧ ∀ entry ∈ entries, entry.dTag ≠ dtNull

/-- The dynamic table of the image at `base` is not at the null address, and neither is a
table that its entry of one of these tags locates.
-/
structure NotAtNull (tags : List target.Addr) (mem : target.Memory) (base : target.Addr)
    : Prop where
  dynamic
    : ∀ segment,
        ((segments mem base).filter (fun pt => pt.pType == ptDynamic)).getLast? = some segment
        → base + segment.pOffset ≠ 0
  tables
    : ∀ dyn loadOffset entries,
        locateDynamic mem base = some (dyn, loadOffset)
        → IsDynamicTable mem dyn entries
        → some 0 ∉ tags.map (taggedPointer loadOffset entries)

/-- A pointer that was found in both runs, at a distance, or in neither. -/
def PointerMoved (distance pointer pointer' : target.Addr) : Prop :=
  (pointer = 0 ∧ pointer' = 0) ∨ (pointer ≠ 0 ∧ pointer' ≠ 0 ∧ pointer' = pointer + distance)

theorem PointerMoved.null_iff {distance pointer pointer' : target.Addr}
    (move : PointerMoved distance pointer pointer')
    : pointer' = 0 ↔ pointer = 0 := by
  rcases move with ⟨null, null'⟩ | ⟨mapped, mapped', _⟩
  · exact iff_of_true null' null
  · exact iff_of_false mapped' mapped

theorem PointerMoved.eq_add {distance pointer pointer' : target.Addr}
    (move : PointerMoved distance pointer pointer') (mapped : pointer ≠ 0)
    : pointer' = pointer + distance := by
  rcases move with ⟨null, _⟩ | ⟨_, _, sum⟩
  · exact absurd null mapped
  · exact sum

/-- Mapped tables that the same entries locate are at a distance. -/
theorem taggedPointer_moved {loadOffset distance tag : target.Addr} {entries : List (Dyn target)}
    (mapped : taggedPointer loadOffset entries tag ≠ some 0)
    (mapped' : taggedPointer (loadOffset + distance) entries tag ≠ some 0)
    : PointerMoved distance ((taggedPointer loadOffset entries tag).getD 0)
        ((taggedPointer (loadOffset + distance) entries tag).getD 0) := by
  simp only [taggedPointer] at *
  cases last : (entries.filter (fun entry => entry.dTag == tag)).getLast? with
  | none => exact .inl ⟨rfl, rfl⟩
  | some entry =>
      rw [last] at mapped mapped'
      refine .inr ⟨?_, ?_, ?_⟩
      · intro null
        exact mapped (congrArg some null)
      · intro null
        exact mapped' (congrArg some null)
      · exact (add_assoc _ _ _).symm

namespace Moved

variable {distance : target.Addr} {mem moved : target.Memory}

theorem isDynamicTable_iff (move : Moved distance mem moved) (dyn : target.Addr)
    (entries : List (Dyn target))
    : IsDynamicTable moved (dyn + distance) entries ↔ IsDynamicTable mem dyn entries := by
  have table : dynEntry moved (dyn + distance) = dynEntry mem dyn := funext (move.dynEntry_eq dyn)
  rw [IsDynamicTable, IsDynamicTable, table]

/-- Both runs get past the segments, or neither does. -/
theorem locateDynamic_eq (move : Moved distance mem moved) {base : target.Addr}
    {tags : List target.Addr} (mapped : NotAtNull tags mem base)
    (mapped' : NotAtNull tags moved (base + distance))
    : locateDynamic moved (base + distance)
      = (locateDynamic mem base).map (fun tables => (tables.1 + distance, tables.2 + distance))
    := by
  have dynamic' := mapped'.dynamic
  rw [move.segments_eq] at dynamic'
  simp only [locateDynamic, move.eiClass_eq, move.segments_eq]
  by_cases wrongClass : eiClass mem base ≠ target.bits.elfClass
  · simp only [if_pos wrongClass, Option.map_none]
  · simp only [if_neg wrongClass]
    cases (segments mem base).find? (fun pt => pt.pType == ptLoad) with
    | none => rfl
    | some load =>
        cases last : ((segments mem base).filter (fun pt => pt.pType == ptDynamic)).getLast? with
        | none => rfl
        | some segment =>
            have present := mapped.dynamic segment last
            have present' := dynamic' segment last
            have dyn : base + distance + segment.pOffset = base + segment.pOffset + distance :=
              add_right_comm _ _ _
            have offset : base + distance + load.pOffset - load.pVaddr
                = base + load.pOffset - load.pVaddr + distance := by
              rw [add_right_comm, add_sub_right_comm]
            simp only [if_neg present, if_neg present', Option.map_some]
            rw [dyn, offset]

/-- The two scans of the dynamic table fold the same entries. -/
theorem scanDynamic_related (move : Moved distance mem moved) (dyn loadOffset : target.Addr)
    (fuel : Nat)
    : Option.Rel
        (fun scan scan' =>
          ∃ entries,
            IsDynamicTable mem dyn entries
            ∧ scan = entries.foldl (scanDynamicEntry loadOffset) ⟨0, 0, 0, 0, 0⟩
            ∧ scan' = entries.foldl (scanDynamicEntry (loadOffset + distance)) ⟨0, 0, 0, 0, 0⟩)
        (scanDynamic mem dyn loadOffset fuel)
        (scanDynamic moved (dyn + distance) (loadOffset + distance) fuel) := by
  refine run_related
    (fun state state' =>
      state'.1 = state.1
      ∧ (∀ i < state.1, (dynEntry mem dyn i).dTag ≠ dtNull)
      ∧ state.2
        = ((List.range state.1).map (dynEntry mem dyn)).foldl (scanDynamicEntry loadOffset)
            ⟨0, 0, 0, 0, 0⟩
      ∧ state'.2
        = ((List.range state.1).map (dynEntry mem dyn)).foldl
            (scanDynamicEntry (loadOffset + distance)) ⟨0, 0, 0, 0, 0⟩)
    _ ?_ fuel ⟨rfl, by simp, rfl, rfl⟩
  intro state state' related
  obtain ⟨_, scan⟩ := state
  obtain ⟨i, scan'⟩ := state'
  obtain ⟨same, isOpen, folded, folded'⟩ := related
  simp only at same isOpen folded folded'
  subst same
  simp only [scanDynamicPass, move.dynEntry_eq]
  by_cases ends : (dynEntry mem dyn i).dTag = dtNull
  · simp only [if_pos ends]
    refine .some (.leave ⟨(List.range i).map (dynEntry mem dyn), ?_, folded, folded'⟩)
    simpa [IsDynamicTable, ends] using isOpen
  · simp only [if_neg ends]
    refine .some (.again ⟨rfl, ?_, ?_, ?_⟩)
    · intro k before
      rcases Nat.lt_succ_iff_lt_or_eq.mp before with earlier | rfl
      · exact isOpen k earlier
      · exact ends
    · simp only [List.range_succ, List.map_append, List.foldl_append, ← folded, List.map_cons,
        List.map_nil, List.foldl_cons, List.foldl_nil]
    · simp only [List.range_succ, List.map_append, List.foldl_append, ← folded', List.map_cons,
        List.map_nil, List.foldl_cons, List.foldl_nil]

end Moved

def tableTags : List target.Addr := [dtStrtab, dtSymtab, dtHash, dtVersym, dtVerdef]

/-- What the two calls leave in `vdso_info`: both records are invalid, or their pointers are
at a distance and their counts are equal.
-/
inductive InfoMoved (distance : target.Addr) (info info' : VdsoInfo target) : Prop where
  | invalid (hl : info.valid = false) (hr : info'.valid = false)
  | valid (hl : info.valid = true) (hr : info'.valid = true)
      (loadOffset : info'.loadOffset = info.loadOffset + distance)
      (symtab : info'.symtab = info.symtab + distance)
      (symstrings : info'.symstrings = info.symstrings + distance)
      (bucket : info'.bucket = info.bucket + distance)
      (chain : info'.chain = info.chain + distance) (nbucket : info'.nbucket = info.nbucket)
      (versym : PointerMoved distance info.versym info'.versym)
      (verdef : info.versym ≠ 0 → info'.verdef = info.verdef + distance)

/-- The end of initialisation keeps pointers at a distance. -/
theorem finishInit_moved {distance : target.Addr} {mem moved : target.Memory}
    (move : Moved distance mem moved) {info info' : VdsoInfo target}
    {scan scan' : DynamicScan target} (hl : info.valid = false) (hr : info'.valid = false)
    (loadOffset : info'.loadOffset = info.loadOffset + distance)
    (symstrings : PointerMoved distance scan.symstrings scan'.symstrings)
    (symtab : PointerMoved distance scan.symtab scan'.symtab)
    (hash : PointerMoved distance scan.hash scan'.hash)
    (versym : PointerMoved distance scan.versym scan'.versym)
    (verdef : PointerMoved distance scan.verdef scan'.verdef)
    : InfoMoved distance (finishInit mem info scan) (finishInit moved info' scan') := by
  have missing : (scan'.symstrings = 0 ∨ scan'.symtab = 0 ∨ scan'.hash = 0)
      ↔ (scan.symstrings = 0 ∨ scan.symtab = 0 ∨ scan.hash = 0) := by
    rw [symstrings.null_iff, symtab.null_iff, hash.null_iff]
  by_cases absent : scan.symstrings = 0 ∨ scan.symtab = 0 ∨ scan.hash = 0
  · refine .invalid ?_ ?_
    · simp only [finishInit, if_pos absent, hl]
    · simp only [finishInit, if_pos (missing.mpr absent), hr]
  · have present := not_or.mp absent
    have hashAt := hash.eq_add (not_or.mp present.2).2
    have symtabAt := symtab.eq_add (not_or.mp present.2).1
    have symstringsAt := symstrings.eq_add present.1
    have nbucket : wordAt moved scan'.hash 0 = wordAt mem scan.hash 0 := by
      rw [hashAt, move.wordAt_eq]
    simp only [finishInit, if_neg absent, if_neg (mt missing.mp absent), nbucket]
    refine .valid rfl rfl loadOffset symtabAt symstringsAt ?_ ?_ rfl ?_ ?_
    · simp only [hashAt, plus_add]
    · simp only [hashAt, plus_add]
    · by_cases unversioned : scan.verdef = 0
      · simp only [if_pos unversioned, if_pos (verdef.null_iff.mpr unversioned)]
        exact .inl ⟨rfl, rfl⟩
      · simpa only [if_neg unversioned, if_neg (mt verdef.null_iff.mp unversioned)] using versym
    · intro versioned
      by_cases unversioned : scan.verdef = 0
      · simp [unversioned] at versioned
      · exact verdef.eq_add unversioned

/-- Initialisation at the two addresses leaves records at a distance. -/
theorem Moved.init_related {distance : target.Addr} {mem moved : target.Memory}
    (move : Moved distance mem moved) {base : target.Addr}
    (mapped : NotAtNull tableTags mem base)
    (mapped' : NotAtNull tableTags moved (base + distance)) (info info' : VdsoInfo target)
    (fuel : Nat)
    : Option.Rel (InfoMoved distance) (vdsoInitFromSysinfoEhdr mem base info fuel)
        (vdsoInitFromSysinfoEhdr moved (base + distance) info' fuel) := by
  have located' := move.locateDynamic_eq mapped mapped'
  cases located : locateDynamic mem base with
  | none =>
      rw [located] at located'
      obtain ⟨_, failed, hl⟩ := init_unlocated located info fuel
      obtain ⟨_, failed', hr⟩ := init_unlocated located' info' fuel
      rw [failed, failed']
      exact .some (.invalid hl hr)
  | some tables =>
      obtain ⟨dyn, loadOffset⟩ := tables
      rw [located] at located'
      have scans := move.scanDynamic_related dyn loadOffset fuel
      rw [init_located located, init_located located']
      generalize scanDynamic mem dyn loadOffset fuel = left at scans
      generalize scanDynamic moved (dyn + distance) (loadOffset + distance) fuel = right at scans
      cases scans with
      | none => exact .none
      | some scans =>
          obtain ⟨entries, table, rfl, rfl⟩ := scans
          have table' := (move.isDynamicTable_iff dyn entries).mpr table
          have pointer (tag : target.Addr) (read : tag ∈ tableTags) :=
            taggedPointer_moved
              (fun null =>
                mapped.tables _ _ _ located table (List.mem_map.mpr ⟨tag, read, null⟩))
              (fun null =>
                mapped'.tables _ _ _ located' table' (List.mem_map.mpr ⟨tag, read, null⟩))
          rw [scanDynamicEntries_eq, scanDynamicEntries_eq]
          exact .some (finishInit_moved move rfl rfl rfl (pointer dtStrtab (by simp [tableTags]))
            (pointer dtSymtab (by simp [tableTags])) (pointer dtHash (by simp [tableTags]))
            (pointer dtVersym (by simp [tableTags])) (pointer dtVerdef (by simp [tableTags])))

-- Lookup at the two addresses

/-- One pass over a hash chain as `vdso_sym` makes it, ending with the index of the symbol
that is returned.
-/
def findPass (mem : target.Memory) (info : VdsoInfo target) (version name : CString)
    (fuel : Nat) (chain : BitVec 32)
    : Option (Pass (BitVec 32) (Option (BitVec 32))) :=
  let next := wordAt mem info.chain chain.toNat
  if chain = 0 then
    some (.leave none)
  else if isNamedFunction mem info.symstrings name (symbol mem info.symtab chain) = false then
    some (.again next)
  else if info.versym = 0 then
    some (.leave (some chain))
  else
    (vdsoMatchVersion mem info (versymAt mem info.versym chain) version
      ((elfHash target.bits.width version.bytes).setWidth 32) fuel).map
      (fun accepted => if accepted then .leave (some chain) else .again next)

def vdsoFind (mem : target.Memory) (info : VdsoInfo target) (version name : CString)
    (fuel : Nat)
    : Option (Except Fault (Option (BitVec 32))) :=
  if info.valid = false then
    some (.ok none)
  else if info.nbucket = 0 then
    some (.error .divideByZero)
  else
    let index := (elfHash target.bits.width name.bytes).toNat % info.nbucket.toNat
    (run (findPass mem info version name fuel) fuel (wordAt mem info.bucket index)).map .ok

def foundAddress (mem : target.Memory) (info : VdsoInfo target)
    : Option (BitVec 32) → target.Addr
  | none => 0
  | some i => info.loadOffset + (symbol mem info.symtab i).stValue

theorem symPass_eq_findPass (mem : target.Memory) (info : VdsoInfo target)
    (version name : CString) (fuel : Nat) (chain : BitVec 32)
    : symPass mem info version name fuel chain
      = (findPass mem info version name fuel chain).map
          (Pass.map (fun found => .ok (foundAddress mem info found))) := by
  simp only [symPass, findPass]
  split
  · rfl
  · split
    · rfl
    · split
      · rfl
      · rw [Option.map_map]
        congr 1
        funext accepted
        cases accepted <;> rfl

/-- `vdso_sym` returns the address of the symbol it finds, and null if it finds none. -/
theorem vdsoSym_eq_vdsoFind (mem : target.Memory) (info : VdsoInfo target)
    (version name : CString) (fuel : Nat)
    : vdsoSym mem info version name fuel
      = (vdsoFind mem info version name fuel).map (Except.map (foundAddress mem info)) := by
  simp only [vdsoSym, vdsoFind]
  split
  · rfl
  · split
    · rfl
    · rw [run_map _ (symPass_eq_findPass mem info version name fuel), Option.map_map]
      rfl

namespace Moved

variable {distance : target.Addr} {mem moved : target.Memory}

theorem isNamedFunction_eq (move : Moved distance mem moved) (symstrings : target.Addr)
    (name : CString) (sym : Sym target)
    : isNamedFunction moved (symstrings + distance) name sym
      = isNamedFunction mem symstrings name sym := by
  simp only [isNamedFunction, move.stringAt_eq]

/-- Both walks over the version definitions come to the same verdict. -/
theorem vdsoMatchVersion_eq (move : Moved distance mem moved) {info info' : VdsoInfo target}
    (symstrings : info'.symstrings = info.symstrings + distance)
    (verdef : info'.verdef = info.verdef + distance) (ver : BitVec 16) (name : CString)
    (hash : BitVec 32) (fuel : Nat)
    : vdsoMatchVersion moved info' ver name hash fuel
      = vdsoMatchVersion mem info ver name hash fuel := by
  refine run_eq_of_related (fun entry entry' => entry' = entry + distance) ?_ fuel verdef
  intro entry entry' related
  subst related
  simp only [matchVersionPass, move.verdefAt_eq, move.vdaName_eq, symstrings, move.stringAt_eq]
  split
  · exact .some (.leave rfl)
  · split
    · exact .some (.leave rfl)
    · exact .some (.again (add_right_comm _ _ _))

/-- Both walks over a hash chain find the same symbol. -/
theorem vdsoFind_eq (move : Moved distance mem moved) {info info' : VdsoInfo target}
    (infos : InfoMoved distance info info') (version name : CString) (fuel : Nat)
    : vdsoFind moved info' version name fuel = vdsoFind mem info version name fuel := by
  cases infos with
  | invalid hl hr => simp only [vdsoFind, hl, hr, if_true]
  | valid hl hr _ symtab symstrings bucket chain nbucket versym verdef =>
      have walks (head : BitVec 32)
          : run (findPass moved info' version name fuel) fuel head
            = run (findPass mem info version name fuel) fuel head := by
        refine run_eq_of_related (fun i i' => i' = i) ?_ fuel rfl
        intro i i' same
        subst same
        have next : wordAt moved info'.chain i'.toNat = wordAt mem info.chain i'.toNat := by
          rw [chain, move.wordAt_eq]
        simp only [findPass, next, symtab, symstrings, move.symbol_eq, move.isNamedFunction_eq,
          versym.null_iff]
        split
        · exact .some (.leave rfl)
        · split
          · exact .some (.again rfl)
          · split
            · exact .some (.leave rfl)
            · rename_i versioned
              rw [versym.eq_add versioned, move.versymAt_eq,
                move.vdsoMatchVersion_eq symstrings (verdef versioned)]
              cases vdsoMatchVersion mem info (versymAt mem info.versym i') version
                ((elfHash target.bits.width version.bytes).setWidth 32) fuel with
              | none => exact .none
              | some accepted =>
                  cases accepted with
                  | true => exact .some (.leave rfl)
                  | false => exact .some (.again rfl)
      simp only [vdsoFind, hl, hr, nbucket, bucket, move.wordAt_eq, walks]

end Moved

/-- Lookups after initialisation find the same symbol at both addresses; a symbol that is
found has addresses at the distance.
-/
structure SameFinding (distance : target.Addr) (mem moved : target.Memory)
    (info info' : VdsoInfo target) (version name : CString) (fuel : Nat)
    : Prop where
  symbol : vdsoFind moved info' version name fuel = vdsoFind mem info version name fuel
  missing
    : vdsoFind mem info version name fuel = some (.ok none)
      → vdsoSym mem info version name fuel = some (.ok 0)
        ∧ vdsoSym moved info' version name fuel = some (.ok 0)
  found
    : ∀ i,
        vdsoFind mem info version name fuel = some (.ok (some i))
        → ∃ address,
            vdsoSym mem info version name fuel = some (.ok address)
            ∧ vdsoSym moved info' version name fuel = some (.ok (address + distance))

theorem Moved.sameFinding {distance : target.Addr} {mem moved : target.Memory}
    (move : Moved distance mem moved) {info info' : VdsoInfo target}
    (infos : InfoMoved distance info info') (version name : CString) (fuel : Nat)
    : SameFinding distance mem moved info info' version name fuel := by
  have same := move.vdsoFind_eq infos version name fuel
  refine ⟨same, ?_, ?_⟩
  · intro missing
    rw [vdsoSym_eq_vdsoFind, vdsoSym_eq_vdsoFind, same, missing]
    exact ⟨rfl, rfl⟩
  · intro i found
    refine ⟨info.loadOffset + (symbol mem info.symtab i).stValue, ?_, ?_⟩
    · rw [vdsoSym_eq_vdsoFind, found]
      rfl
    · rw [vdsoSym_eq_vdsoFind, same, found]
      cases infos with
      | invalid hl hr => simp [vdsoFind, hl] at found
      | valid hl hr loadOffset symtab symstrings bucket chain nbucket versym verdef =>
          simp only [Option.map_some, Except.map, foundAddress, loadOffset, symtab,
            move.symbol_eq, add_right_comm]

/-- Lookups in an image are the same at two load addresses, whatever `vdso_info` held before: the
two initialisations return together, and afterwards each lookup ends the same way and finds the same
symbol. By a relation between the two states that every loop keeps.
-/
theorem vdsoSym_positionIndependent (image : target.Addr → UInt8) (base distance : target.Addr)
    (mapped : NotAtNull tableTags (loadAt image base) base)
    (mapped' : NotAtNull tableTags (loadAt image (base + distance)) (base + distance))
    (info info' : VdsoInfo target) (fuel : Nat)
    : Option.Rel
        (fun loaded loaded' =>
          ∀ version name budget,
            SameFinding distance (loadAt image base) (loadAt image (base + distance))
              loaded loaded' version name budget)
        (vdsoInitFromSysinfoEhdr (loadAt image base) base info fuel)
        (vdsoInitFromSysinfoEhdr (loadAt image (base + distance)) (base + distance) info' fuel)
    := by
  have move := loadAt_moved image base distance
  have infos := move.init_related mapped mapped' info info' fuel
  generalize vdsoInitFromSysinfoEhdr (loadAt image base) base info fuel = left at infos
  generalize vdsoInitFromSysinfoEhdr (loadAt image (base + distance)) (base + distance) info' fuel
    = right at infos
  cases infos with
  | none => exact .none
  | some related => exact .some (move.sameFinding related)

-- The sample image at two addresses

theorem IsDynamicTable.unique {mem : target.Memory} {dyn : target.Addr}
    {left right : List (Dyn target)} (hl : IsDynamicTable mem dyn left)
    (hr : IsDynamicTable mem dyn right)
    : left = right := by
  -- The `DT_NULL` of the shorter table would be an entry of the longer one.
  have notShorter {short long : List (Dyn target)} (hs : IsDynamicTable mem dyn short)
      (hg : IsDynamicTable mem dyn long)
      : ¬ short.length < long.length := by
    intro inside
    apply hg.2.2 (dynEntry mem dyn short.length) _ hs.1
    rw [hg.2.1]
    exact List.mem_map_of_mem (List.mem_range.mpr inside)
  have sameLength : left.length = right.length :=
    Nat.le_antisymm (Nat.le_of_not_lt (notShorter hr hl)) (Nat.le_of_not_lt (notShorter hl hr))
  rw [hl.2.1, hr.2.1, sameLength]

instance (mem : target.Memory) (dyn : target.Addr) (entries : List (Dyn target))
    : Decidable (IsDynamicTable mem dyn entries) :=
  inferInstanceAs (Decidable (_ ∧ _ ∧ _))

/-- One located table shows where all tables are. -/
theorem NotAtNull.of_located {tags : List target.Addr} {mem : target.Memory}
    {base dyn loadOffset : target.Addr} {entries : List (Dyn target)}
    (located : locateDynamic mem base = some (dyn, loadOffset))
    (table : IsDynamicTable mem dyn entries)
    (pointers : some 0 ∉ tags.map (taggedPointer loadOffset entries))
    : NotAtNull tags mem base := by
  constructor
  · intro segment last null
    simp only [locateDynamic, last] at located
    split at located
    · cases located
    · split at located <;> simp_all
  · intro dyn' loadOffset' entries' located' table'
    rw [located] at located'
    cases located'
    rw [table'.unique table]
    exact pointers

def sampleBytes (offset : sampleTarget.Addr) : UInt8 := fieldBytes sampleFields offset.toNat

def sampleEntries : List (Dyn sampleTarget) :=
  [⟨5, 0x1140⟩, ⟨6, 0x1110⟩, ⟨4, 0x1158⟩, ⟨0x6ffffff0, 0x116c⟩, ⟨0x6ffffffc, 0x1170⟩]

theorem sampleBytes_located (base : sampleTarget.Addr)
    (located
      : locateDynamic (loadAt sampleBytes base) base = some (base + 176, base - 0x1000))
    (table : IsDynamicTable (loadAt sampleBytes base) (base + 176) sampleEntries)
    {tags : List sampleTarget.Addr}
    (pointers : some 0 ∉ tags.map (taggedPointer (base - 0x1000) sampleEntries))
    : NotAtNull tags (loadAt sampleBytes base) base :=
  .of_located located table pointers

/-- Two load addresses at which no table of the sample image is at the null address. -/
theorem sampleBytes_positionIndependent
    : NotAtNull tableTags (loadAt sampleBytes sampleBase) sampleBase
      ∧ NotAtNull tableTags (loadAt sampleBytes (sampleBase + 0x1000)) (sampleBase + 0x1000)
      ∧ Option.Rel
          (fun loaded loaded' =>
            ∀ version name budget,
              SameFinding 0x1000 (loadAt sampleBytes sampleBase)
                (loadAt sampleBytes (sampleBase + 0x1000)) loaded loaded' version name budget)
          (vdsoInitFromSysinfoEhdr (loadAt sampleBytes sampleBase) sampleBase zeroedInfo 8)
          (vdsoInitFromSysinfoEhdr (loadAt sampleBytes (sampleBase + 0x1000))
            (sampleBase + 0x1000) zeroedInfo 8) := by
  have mapped : NotAtNull tableTags (loadAt sampleBytes sampleBase) sampleBase :=
    sampleBytes_located _ (by decide +kernel) (by decide +kernel) (by decide +kernel)
  have mapped'
      : NotAtNull tableTags (loadAt sampleBytes (sampleBase + 0x1000)) (sampleBase + 0x1000) :=
    sampleBytes_located _ (by decide +kernel) (by decide +kernel) (by decide +kernel)
  exact ⟨mapped, mapped',
    vdsoSym_positionIndependent sampleBytes sampleBase 0x1000 mapped mapped' zeroedInfo zeroedInfo
      8⟩

deriving instance DecidableEq for Fault

def wrappedBase : sampleTarget.Addr := BitVec.ofNat 64 (2 ^ 64 - 368)

def lookupAt (base : sampleTarget.Addr) (version name : CString) (fuel : Nat)
    : Option (Except Fault sampleTarget.Addr) :=
  (vdsoInitFromSysinfoEhdr (loadAt sampleBytes base) base zeroedInfo fuel).bind
    (fun loaded => vdsoSym (loadAt sampleBytes base) loaded version name fuel)

/-- With its version definitions at the null address an image counts as unversioned, so a
version it does not define is found there and nowhere else.
-/
theorem nullVersions_found
    : NotAtNull [dtStrtab, dtSymtab, dtHash] (loadAt sampleBytes wrappedBase) wrappedBase
      ∧ NotAtNull [dtStrtab, dtSymtab, dtHash] (loadAt sampleBytes sampleBase) sampleBase
      ∧ lookupAt wrappedBase gettimeofday gettimeofday 8 = some (.ok (wrappedBase + 0xa00))
      ∧ lookupAt sampleBase gettimeofday gettimeofday 8 = some (.ok 0) := by
  refine ⟨sampleBytes_located _ ?_ ?_ ?_, sampleBytes_located _ ?_ ?_ ?_, ?_, ?_⟩ <;>
    decide +kernel

end LinuxDoc.Vdso
