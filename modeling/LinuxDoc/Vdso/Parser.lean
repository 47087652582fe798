import LinuxDoc.Foundations.Trail
import LinuxDoc.Vdso.ElfHash
import LinuxDoc.Vdso.ElfLayout

/-! The reference vDSO parser: initialisation from a mapped image, and symbol lookup.
Walks whose end only the image decides run under a budget, so a walk that never ends is
visible as the absence of a result.
-/

namespace LinuxDoc.Vdso

open Foundations Foundations.Loop Target

variable {target : Target}

structure VdsoInfo (target : Target) where
  valid : Bool
  loadAddr : target.Addr
  loadOffset : target.Addr
  symtab : target.Addr
  symstrings : target.Addr
  bucket : target.Addr
  chain : target.Addr
  nbucket : BitVec 32
  nchain : BitVec 32
  versym : target.Addr
  verdef : target.Addr

def ptLoad : BitVec 32 := 1
def ptDynamic : BitVec 32 := 2

structure SegmentScan (target : Target) where
  foundVaddr : Bool
  loadOffset : target.Addr
  dyn : target.Addr

def scanSegment (base : target.Addr) (scan : SegmentScan target) (pt : Phdr target)
    : SegmentScan target :=
  if pt.pType = ptLoad ∧ scan.foundVaddr = false then
    { scan with foundVaddr := true, loadOffset := base + pt.pOffset - pt.pVaddr }
  else if pt.pType = ptDynamic then
    { scan with dyn := base + pt.pOffset }
  else
    scan

def segments (mem : target.Memory) (base : target.Addr) : List (Phdr target) :=
  (List.range (ePhnum mem base)).map (phdr mem (base + ePhoff mem base))

def dtNull : target.Addr := 0
def dtHash : target.Addr := 4
def dtStrtab : target.Addr := 5
def dtSymtab : target.Addr := 6
def dtVersym : target.Addr := BitVec.ofNat _ 0x6ffffff0
def dtVerdef : target.Addr := BitVec.ofNat _ 0x6ffffffc

@[ext]
structure DynamicScan (target : Target) where
  symstrings : target.Addr
  symtab : target.Addr
  hash : target.Addr
  versym : target.Addr
  verdef : target.Addr

def scanDynamicEntry (loadOffset : target.Addr) (scan : DynamicScan target)
    (entry : Dyn target)
    : DynamicScan target :=
  let pointer := entry.dPtr + loadOffset
  if entry.dTag = dtStrtab then { scan with symstrings := pointer }
  else if entry.dTag = dtSymtab then { scan with symtab := pointer }
  else if entry.dTag = dtHash then { scan with hash := pointer }
  else if entry.dTag = dtVersym then { scan with versym := pointer }
  else if entry.dTag = dtVerdef then { scan with verdef := pointer }
  else scan

def scanDynamicPass (mem : target.Memory) (dyn loadOffset : target.Addr)
    (state : Nat × DynamicScan target)
    : Option (Pass (Nat × DynamicScan target) (DynamicScan target)) :=
  let entry := dynEntry mem dyn state.1
  if entry.dTag = dtNull then some (.leave state.2)
  else some (.again (state.1 + 1, scanDynamicEntry loadOffset state.2 entry))

def scanDynamic (mem : target.Memory) (dyn loadOffset : target.Addr) (fuel : Nat)
    : Option (DynamicScan target) :=
  run (scanDynamicPass mem dyn loadOffset) fuel (0, ⟨0, 0, 0, 0, 0⟩)

def finishInit (mem : target.Memory) (info : VdsoInfo target) (scan : DynamicScan target)
    : VdsoInfo target :=
  let info :=
    {
      info with
      symstrings := scan.symstrings, symtab := scan.symtab
      versym := scan.versym, verdef := scan.verdef
    }
  if scan.symstrings = 0 ∨ scan.symtab = 0 ∨ scan.hash = 0 then
    info
  else
    let versym := if scan.verdef = 0 then 0 else scan.versym
    let nbucket := wordAt mem scan.hash 0
    {
      info with
      versym
      nbucket
      nchain := wordAt mem scan.hash 1
      bucket := plus scan.hash (4 * 2)
      -- The index `nbucket + 2` is computed in `Elf_Word`.
      chain := plus scan.hash (4 * (nbucket + 2).toNat)
      valid := true
    }

/-- `vdso_init_from_sysinfo_ehdr` on the static `vdso_info`. Every early return leaves the
fields written so far.
-/
def vdsoInitFromSysinfoEhdr (mem : target.Memory) (base : target.Addr)
    (info : VdsoInfo target) (fuel : Nat)
    : Option (VdsoInfo target) :=
  let info := { info with valid := false, loadAddr := base }
  if eiClass mem base ≠ target.bits.elfClass then
    some info
  else
    let scan := (segments mem base).foldl (scanSegment base) ⟨false, info.loadOffset, 0⟩
    let info := { info with loadOffset := scan.loadOffset }
    if scan.foundVaddr = false ∨ scan.dyn = 0 then
      some info
    else
      (scanDynamic mem scan.dyn info.loadOffset fuel).map (finishInit mem info)

def verFlgBase : BitVec 16 := 1

def definesVersion (verdef : Verdef) (ver : BitVec 16) : Bool :=
  verdef.vdFlags &&& verFlgBase = 0 && verdef.vdNdx &&& 0x7fff = ver

def matchVersionPass (mem : target.Memory) (info : VdsoInfo target) (ver : BitVec 16)
    (name : CString) (hash : BitVec 32) (entry : target.Addr)
    : Option (Pass target.Addr Bool) :=
  let verdef := verdefAt mem entry
  if definesVersion verdef ver then
    some (.leave
      (verdef.vdHash == hash
        && equalString name.bytes (stringAt mem info.symstrings (vdaName mem entry))))
  else if verdef.vdNext = 0 then
    some (.leave false)
  else
    some (.again (entry + extend verdef.vdNext))

def vdsoMatchVersion (mem : target.Memory) (info : VdsoInfo target) (ver : BitVec 16)
    (name : CString) (hash : BitVec 32) (fuel : Nat)
    : Option Bool :=
  run (matchVersionPass mem info (ver &&& 0x7fff) name hash) fuel info.verdef

def isFunc (stInfo : UInt8) : Bool := stInfo &&& 0xf == 2

def isGlobalOrWeak (stInfo : UInt8) : Bool := stInfo >>> 4 == 1 || stInfo >>> 4 == 2

def isNamedFunction (mem : target.Memory) (symstrings : target.Addr) (name : CString)
    (sym : Sym target)
    : Bool :=
  isFunc sym.stInfo && isGlobalOrWeak sym.stInfo && sym.stShndx != 0
    && equalString name.bytes (stringAt mem symstrings sym.stName)

inductive Fault where
  | divideByZero

def symPass (mem : target.Memory) (info : VdsoInfo target) (version name : CString)
    (fuel : Nat) (chain : BitVec 32)
    : Option (Pass (BitVec 32) (Except Fault target.Addr)) :=
  let sym := symbol mem info.symtab chain
  let next := wordAt mem info.chain chain.toNat
  let verHash := elfHash target.bits.width version.bytes
  if chain = 0 then
    some (.leave (.ok 0))
  else if isNamedFunction mem info.symstrings name sym = false then
    some (.again next)
  else if info.versym = 0 then
    some (.leave (.ok (info.loadOffset + sym.stValue)))
  else
    -- Passing the hash as an `Elf_Word` keeps its low 32 bits.
    (vdsoMatchVersion mem info (versymAt mem info.versym chain) version
      (verHash.setWidth 32) fuel).map
      (fun accepted =>
        if accepted then .leave (.ok (info.loadOffset + sym.stValue)) else .again next)

def vdsoSym (mem : target.Memory) (info : VdsoInfo target) (version name : CString)
    (fuel : Nat)
    : Option (Except Fault target.Addr) :=
  if info.valid = false then
    some (.ok 0)
  else if info.nbucket = 0 then
    some (.error .divideByZero)
  else
    let index := (elfHash target.bits.width name.bytes).toNat % info.nbucket.toNat
    run (symPass mem info version name fuel) fuel (wordAt mem info.bucket index)

end LinuxDoc.Vdso
