import LinuxDoc.Foundations.Bytes

/-! The ELF structures that the vDSO parser reads, as bytes of the process's memory.
Both classes are covered; a build handles the class of its own pointer width.
-/

namespace LinuxDoc.Vdso

open Foundations

/-- `ELF_BITS`: the width of `unsigned long`, of `uintptr_t` and of the ELF class read. -/
inductive ElfBits where
  | elf32
  | elf64
  deriving DecidableEq, Repr

def ElfBits.width : ElfBits → Nat
  | .elf32 => 32
  | .elf64 => 64

def ElfBits.elfClass : ElfBits → UInt8
  | .elf32 => 1
  | .elf64 => 2

def ElfBits.pick (bits : ElfBits) (for32 for64 : Nat) : Nat :=
  match bits with
  | .elf32 => for32
  | .elf64 => for64

/-- A host the parser is built for. Its vDSO is in the host's own byte order. -/
structure Target where
  bits : ElfBits
  endian : Endian

namespace Target

abbrev Addr (target : Target) : Type := BitVec target.bits.width

abbrev Memory (target : Target) : Type := target.Addr → UInt8

variable {target : Target}

def plus (address : target.Addr) (offset : Nat) : target.Addr :=
  address + BitVec.ofNat target.bits.width offset

def bytesAt (mem : target.Memory) (address : target.Addr) : Nat → UInt8 :=
  fun offset => mem (plus address offset)

def half (mem : target.Memory) (address : target.Addr) : BitVec 16 :=
  BitVec.ofNat 16 (target.endian.load (bytesAt mem address) 2)

def word (mem : target.Memory) (address : target.Addr) : BitVec 32 :=
  BitVec.ofNat 32 (target.endian.load (bytesAt mem address) 4)

def native (mem : target.Memory) (address : target.Addr) : target.Addr :=
  BitVec.ofNat target.bits.width
    (target.endian.load (bytesAt mem address) (target.bits.width / 8))

def extend (value : BitVec 32) : target.Addr :=
  value.setWidth target.bits.width

end Target

variable (target : Target)

structure Phdr where
  pType : BitVec 32
  pOffset : target.Addr
  pVaddr : target.Addr
  deriving DecidableEq

structure Dyn where
  dTag : target.Addr
  dPtr : target.Addr
  deriving DecidableEq

structure Sym where
  stName : BitVec 32
  stInfo : UInt8
  stShndx : BitVec 16
  stValue : target.Addr

structure Verdef where
  vdFlags : BitVec 16
  vdNdx : BitVec 16
  vdHash : BitVec 32
  vdAux : BitVec 32
  vdNext : BitVec 32

namespace Target

variable {target : Target} (mem : target.Memory)

def eiClass (base : target.Addr) : UInt8 :=
  mem (plus base 4)

def ePhoff (base : target.Addr) : target.Addr :=
  native mem (plus base (target.bits.pick 28 32))

def ePhnum (base : target.Addr) : Nat :=
  (half mem (plus base (target.bits.pick 44 56))).toNat

def phdr (pt : target.Addr) (i : Nat) : Phdr target :=
  let entry := plus pt (i * target.bits.pick 32 56)
  {
    pType := word mem entry
    pOffset := native mem (plus entry (target.bits.pick 4 8))
    pVaddr := native mem (plus entry (target.bits.pick 8 16))
  }

def dynEntry (dyn : target.Addr) (i : Nat) : Dyn target :=
  let entry := plus dyn (i * target.bits.pick 8 16)
  {
    dTag := native mem entry
    dPtr := native mem (plus entry (target.bits.pick 4 8))
  }

def symbol (symtab : target.Addr) (i : BitVec 32) : Sym target :=
  let entry := plus symtab (i.toNat * target.bits.pick 16 24)
  {
    stName := word mem entry
    stInfo := mem (plus entry (target.bits.pick 12 4))
    stShndx := half mem (plus entry (target.bits.pick 14 6))
    stValue := native mem (plus entry (target.bits.pick 4 8))
  }

def wordAt (words : target.Addr) (i : Nat) : BitVec 32 :=
  word mem (plus words (4 * i))

def versymAt (versym : target.Addr) (i : BitVec 32) : BitVec 16 :=
  half mem (plus versym (2 * i.toNat))

def verdefAt (entry : target.Addr) : Verdef :=
  {
    vdFlags := half mem (plus entry 2)
    vdNdx := half mem (plus entry 4)
    vdHash := word mem (plus entry 8)
    vdAux := word mem (plus entry 12)
    vdNext := word mem (plus entry 16)
  }

def vdaName (entry : target.Addr) : BitVec 32 :=
  word mem (entry + extend (verdefAt mem entry).vdAux)

def stringAt (symstrings : target.Addr) (offset : BitVec 32) : Nat → UInt8 :=
  bytesAt mem (symstrings + extend offset)

end Target

end LinuxDoc.Vdso
