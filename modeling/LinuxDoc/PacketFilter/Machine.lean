import Mathlib.Logic.Function.Basic
import LinuxDoc.Foundations.ForwardProgram

/-! The machine that classic socket filters run on: an accumulator, an index register and sixteen
words of scratch memory, and filter blocks whose operation codes are taken apart by the tables for
the instruction class, the size, the mode, the operation and the source.
-/

namespace LinuxDoc.PacketFilter

open Foundations

abbrev Packet := List (BitVec 8)

structure SockFilter where
  code : BitVec 16
  jt : BitVec 8
  jf : BitVec 8
  k : BitVec 32
  deriving DecidableEq

inductive Size where
  | word
  | half
  | byte
  deriving DecidableEq

inductive Source where
  | k
  | x
  deriving DecidableEq

inductive AluOp where
  | add
  | sub
  | mul
  | div
  | or
  | and
  | lsh
  | rsh
  | neg
  | mod
  | xor
  deriving DecidableEq

inductive JumpOp where
  | jeq
  | jgt
  | jge
  | jset
  deriving DecidableEq

inductive Extension where
  | len
  | proto
  | type
  | poff
  | ifidx
  | nla
  | nlan
  | mark
  | queue
  | hatype
  | rxhash
  | cpu
  | vlanTci
  | vlanPr
  | rand
  deriving DecidableEq

inductive Insn where
  | ldImm (k : BitVec 32)
  /-- `ld [k]`, `ldh [k]`, `ldb [k]` -/
  | ldAbs (size : Size) (k : BitVec 32)
  /-- `ld [x + k]`, `ldh [x + k]`, `ldb [x + k]` -/
  | ldInd (size : Size) (k : BitVec 32)
  | ldMem (k : BitVec 32)
  | ldExt (extension : Extension)
  | ldxImm (k : BitVec 32)
  | ldxMem (k : BitVec 32)
  /-- `ldxb 4*([k]&0xf)` -/
  | ldxMsh (k : BitVec 32)
  | st (k : BitVec 32)
  | stx (k : BitVec 32)
  | alu (op : AluOp) (source : Source) (k : BitVec 32)
  | ja (k : BitVec 32)
  | jump (op : JumpOp) (source : Source) (jt jf : BitVec 8) (k : BitVec 32)
  | retK (k : BitVec 32)
  | retA
  | tax
  | txa

def decodeSize (code : BitVec 16) : Option Size :=
  match (code &&& 0x18).toNat with
  | 0x00 => some .word
  | 0x08 => some .half
  | 0x10 => some .byte
  | _ => none

def decodeSource (code : BitVec 16) : Source :=
  if code &&& 0x08 = 0 then .k else .x

def decodeAlu (code : BitVec 16) : Option AluOp :=
  match (code &&& 0xf0).toNat with
  | 0x00 => some .add
  | 0x10 => some .sub
  | 0x20 => some .mul
  | 0x30 => some .div
  | 0x40 => some .or
  | 0x50 => some .and
  | 0x60 => some .lsh
  | 0x70 => some .rsh
  | 0x80 => some .neg
  | 0x90 => some .mod
  | 0xa0 => some .xor
  | _ => none

def decodeJump (block : SockFilter) : Option Insn :=
  let jump op := Insn.jump op (decodeSource block.code) block.jt block.jf block.k
  match (block.code &&& 0xf0).toNat with
  | 0x00 => some (.ja block.k)
  | 0x10 => some (jump .jeq)
  | 0x20 => some (jump .jgt)
  | 0x30 => some (jump .jge)
  | 0x40 => some (jump .jset)
  | _ => none

def decodeLoad (block : SockFilter) : Option Insn := do
  let size ← decodeSize block.code
  match (block.code &&& 0xe0).toNat with
  | 0x00 => if size = .word then some (.ldImm block.k) else none
  | 0x20 => some (.ldAbs size block.k)
  | 0x40 => some (.ldInd size block.k)
  | 0x60 => if size = .word then some (.ldMem block.k) else none
  | 0x80 => if size = .word then some (.ldExt .len) else none
  | _ => none

def decodeLoadX (block : SockFilter) : Option Insn := do
  let size ← decodeSize block.code
  match (block.code &&& 0xe0).toNat with
  | 0x00 => if size = .word then some (.ldxImm block.k) else none
  | 0x60 => if size = .word then some (.ldxMem block.k) else none
  | 0xa0 => if size = .byte then some (.ldxMsh block.k) else none
  | _ => none

/-- What a filter block stands for. Of the classes `BPF_RET` and `BPF_MISC` the tables only give
the code of `ret #k`.
-/
def decode (block : SockFilter) : Option Insn :=
  match (block.code &&& 0x07).toNat with
  | 0x00 => decodeLoad block
  | 0x01 => decodeLoadX block
  | 0x02 => some (.st block.k)
  | 0x03 => some (.stx block.k)
  | 0x04 => (decodeAlu block.code).map fun op => .alu op (decodeSource block.code) block.k
  | 0x05 => decodeJump block
  | 0x06 => if block.code = 0x06 then some (.retK block.k) else none
  | _ => none

/-- What a filter is run on: the packet, and the values of the extensions, some of which depend on
the two registers.
-/
structure Context where
  packet : Packet
  extension : Extension → BitVec 32 → BitVec 32 → BitVec 32

structure Registers where
  a : BitVec 32
  x : BitVec 32
  m : Fin 16 → BitVec 32

def Registers.initial : Registers where
  a := 0
  x := 0
  m := fun _ => 0

def load (packet : Packet) (size : Size) (k : Nat) : Option (BitVec 32) :=
  match size with
  | .byte => do
      let b ← packet[k]?
      return b.setWidth 32
  | .half => do
      let b ← packet[k]?
      let c ← packet[k + 1]?
      return (b ++ c).setWidth 32
  | .word => do
      let b ← packet[k]?
      let c ← packet[k + 1]?
      let d ← packet[k + 2]?
      let e ← packet[k + 3]?
      return b ++ c ++ d ++ e

/-- The operations; there is no result of a division by zero. -/
def AluOp.apply (op : AluOp) (a b : BitVec 32) : Option (BitVec 32) :=
  match op with
  | .add => some (a + b)
  | .sub => some (a - b)
  | .mul => some (a * b)
  | .div => if b = 0 then none else some (a / b)
  | .or => some (a ||| b)
  | .and => some (a &&& b)
  | .lsh => some (a <<< b)
  | .rsh => some (a >>> b)
  -- the table of instructions has `!A`
  | .neg => some (if a = 0 then 1 else 0)
  | .mod => if b = 0 then none else some (a % b)
  | .xor => some (a ^^^ b)

def JumpOp.holds (op : JumpOp) (k a : BitVec 32) : Bool :=
  match op with
  | .jeq => k == a
  | .jgt => a < k
  | .jge => a ≤ k
  | .jset => k &&& a != 0

def Registers.operand (r : Registers) (source : Source) (k : BitVec 32) : BitVec 32 :=
  match source with
  | .k => k
  | .x => r.x

def Registers.slot (k : BitVec 32) : Option (Fin 16) :=
  if h : k.toNat < 16 then some ⟨k.toNat, h⟩ else none

/-- Go on with the next instruction with what a load or an operation has given; without a value
the program is aborted and the packet dropped.
-/
def proceed (value : Option (BitVec 32)) (store : BitVec 32 → Registers)
    : Flow Registers (BitVec 32) :=
  match value with
  | some v => .next (store v) 0
  | none => .done 0

def step (c : Context) (insn : Insn) (r : Registers) : Flow Registers (BitVec 32) :=
  match insn with
  | .ldImm k => .next { r with a := k } 0
  | .ldAbs size k => proceed (load c.packet size k.toNat) fun v => { r with a := v }
  | .ldInd size k => proceed (load c.packet size (r.x + k).toNat) fun v => { r with a := v }
  | .ldMem k => proceed ((Registers.slot k).map r.m) fun v => { r with a := v }
  | .ldExt extension => .next { r with a := c.extension extension r.a r.x } 0
  | .ldxImm k => .next { r with x := k } 0
  | .ldxMem k => proceed ((Registers.slot k).map r.m) fun v => { r with x := v }
  | .ldxMsh k => proceed (load c.packet .byte k.toNat) fun v => { r with x := 4 * (v &&& 0xf) }
  | .st k =>
      match Registers.slot k with
      | some slot => .next { r with m := Function.update r.m slot r.a } 0
      | none => .done 0
  | .stx k =>
      match Registers.slot k with
      | some slot => .next { r with m := Function.update r.m slot r.x } 0
      | none => .done 0
  | .alu op source k => proceed (op.apply r.a (r.operand source k)) fun v => { r with a := v }
  | .ja k => .next r k.toNat
  | .jump op source jt jf k =>
      .next r (if op.holds (r.operand source k) r.a then jt.toNat else jf.toNat)
  | .retK k => .done k
  | .retA => .done r.a
  | .tax => .next { r with x := r.a } 0
  | .txa => .next { r with a := r.x } 0

def run (c : Context) (program : List Insn) (r : Registers) : Option (BitVec 32) :=
  forward (step c) program 0 r

def filter (blocks : List SockFilter) (c : Context) : Option (BitVec 32) := do
  let program ← blocks.mapM decode
  run c program .initial

section Rules

variable {c : Context} {rest : List Insn} {r : Registers} {size : Size} {k : BitVec 32}

/-- The result of a filter that passes, with some value, the packets with a property and drops the
others.
-/
def Decides (result : Option (BitVec 32)) (value : BitVec 32) (Passes : Prop) : Prop :=
  Passes ∧ result = some value ∨ ¬ Passes ∧ result = some 0

variable {value : BitVec 32} {P : Prop}

theorem decides_pass (passes : P) : Decides (run c (.retK value :: rest) r) value P :=
  .inl ⟨passes, rfl⟩

theorem decides_drop (dropped : ¬ P) : Decides (run c (.retK 0 :: rest) r) value P :=
  .inr ⟨dropped, rfl⟩

theorem Decides.congr {Q : Prop} {result : Option (BitVec 32)} (decides : Decides result value P)
    (same : P ↔ Q)
    : Decides result value Q := by
  rw [Decides, ← same]
  exact decides

variable {Q : BitVec 32 → Prop}

/-- A load decides what it loads: without the bytes the packet is dropped. -/
theorem decides_proceed {insn : Insn} {loaded : Option (BitVec 32)}
    {store : BitVec 32 → Registers} (loads : step c insn r = proceed loaded store)
    (decides : ∀ v, loaded = some v → Decides (run c rest (store v)) value (Q v))
    : Decides (run c (insn :: rest) r) value (∃ v, loaded = some v ∧ Q v) := by
  cases loaded with
  | none => exact .inr ⟨by simp, by rw [run, forward, loads]; rfl⟩
  | some v =>
      rw [run, forward_next loads]
      exact (decides v rfl).congr (by simp)

theorem decides_ldAbs (decides : ∀ v, load c.packet size k.toNat = some v →
      Decides (run c rest { r with a := v }) value (Q v))
    : Decides (run c (.ldAbs size k :: rest) r) value
        (∃ v, load c.packet size k.toNat = some v ∧ Q v) :=
  decides_proceed rfl decides

theorem decides_ldInd (decides : ∀ v, load c.packet size (r.x + k).toNat = some v →
      Decides (run c rest { r with a := v }) value (Q v))
    : Decides (run c (.ldInd size k :: rest) r) value
        (∃ v, load c.packet size (r.x + k).toNat = some v ∧ Q v) :=
  decides_proceed rfl decides

theorem decides_ldxMsh (decides : ∀ v, load c.packet .byte k.toNat = some v →
      Decides (run c rest { r with x := 4 * (v &&& 0xf) }) value (Q v))
    : Decides (run c (.ldxMsh k :: rest) r) value
        (∃ v, load c.packet .byte k.toNat = some v ∧ Q v) :=
  decides_proceed rfl decides

/-- A jump goes on at one of its two targets. -/
theorem decides_jump {op : JumpOp} {source : Source} {jt jf : BitVec 8}
    (true_ : op.holds (r.operand source k) r.a = true →
      Decides (run c (rest.drop jt.toNat) r) value P)
    (false_ : op.holds (r.operand source k) r.a = false →
      Decides (run c (rest.drop jf.toNat) r) value P)
    : Decides (run c (.jump op source jt jf k :: rest) r) value P := by
  have next : step c (.jump op source jt jf k) r
      = .next r (if op.holds (r.operand source k) r.a then jt.toNat else jf.toNat) := rfl
  rw [run, forward_next next, forward_drop]
  split
  · next holds => exact true_ holds
  · next fails => exact false_ (Bool.eq_false_iff.mpr fails)

theorem decides_jeq {jt jf : BitVec 8}
    (equal : r.a = k → Decides (run c (rest.drop jt.toNat) r) value P)
    (differs : r.a ≠ k → Decides (run c (rest.drop jf.toNat) r) value P)
    : Decides (run c (.jump .jeq .k jt jf k :: rest) r) value P := by
  refine decides_jump (fun holds => equal ?_) fun fails => differs ?_
  · exact (beq_iff_eq.mp holds).symm
  · exact fun same => beq_eq_false_iff_ne.mp fails same.symm

end Rules

end LinuxDoc.PacketFilter
