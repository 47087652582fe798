import LinuxDoc.Foundations.ByteMemory
import LinuxDoc.PacketFilter.Machine

/-! The image that the JIT compiler has made of a filter for ICMP packets, as the kernel log prints
it. Its bytes are taken apart and run on the registers and the memory that they use; the result is
that of the filter. The functions of the kernel that it calls are not known here: they are a
parameter, of which is assumed what they do for the image.
-/

namespace LinuxDoc.PacketFilter

open Foundations

/-- The filter: `load bpf 6,40 0 0 12,21 0 3 2048,48 0 0 23,21 0 1 1,6 0 0 65535,6 0 0 0` -/
def icmp : List SockFilter := [
  ⟨40, 0, 0, 12⟩,
  ⟨21, 0, 3, 2048⟩,
  ⟨48, 0, 0, 23⟩,
  ⟨21, 0, 1, 1⟩,
  ⟨6, 0, 0, 65535⟩,
  ⟨6, 0, 0, 0⟩]

/-- Where the image is in memory: `image=ffffffffa0069c8f` -/
def imageBase : BitVec 64 :=
  0xffffffffa0069c8f

def image : List UInt8 := [
  0x55, 0x48, 0x89, 0xe5, 0x48, 0x83, 0xec, 0x60, 0x48, 0x89, 0x5d, 0xf8, 0x44, 0x8b, 0x4f, 0x68,
  0x44, 0x2b, 0x4f, 0x6c, 0x4c, 0x8b, 0x87, 0xd8, 0x00, 0x00, 0x00, 0xbe, 0x0c, 0x00, 0x00, 0x00,
  0xe8, 0x1d, 0x94, 0xff, 0xe0, 0x3d, 0x00, 0x08, 0x00, 0x00, 0x75, 0x16, 0xbe, 0x17, 0x00, 0x00,
  0x00, 0xe8, 0x28, 0x94, 0xff, 0xe0, 0x83, 0xf8, 0x01, 0x75, 0x07, 0xb8, 0xff, 0xff, 0x00, 0x00,
  0xeb, 0x02, 0x31, 0xc0, 0xc9, 0xc3]

inductive X86 where
  | pushRbp
  | movRspRbp
  /-- `sub $imm,%rsp` -/
  | subRsp (imm : BitVec 8)
  /-- `mov %rbx,disp(%rbp)` -/
  | movRbx (disp : BitVec 8)
  /-- `mov disp(%rdi),%r9d` -/
  | movR9d (disp : BitVec 8)
  /-- `sub disp(%rdi),%r9d` -/
  | subR9d (disp : BitVec 8)
  /-- `mov disp(%rdi),%r8` -/
  | movR8 (disp : BitVec 32)
  /-- `mov $imm,%esi` -/
  | movEsi (imm : BitVec 32)
  | call (rel : BitVec 32)
  | cmpEax (imm : BitVec 32)
  | jne (rel : BitVec 8)
  | movEax (imm : BitVec 32)
  | jmp (rel : BitVec 8)
  | xorEax
  | leave
  | ret

def imm32 (a b c d : UInt8) : BitVec 32 :=
  d.toBitVec ++ c.toBitVec ++ b.toBitVec ++ a.toBitVec

def decodeX86 : List UInt8 → Option (X86 × Nat)
  | 0x55 :: _ => some (.pushRbp, 1)
  | 0x48 :: 0x89 :: 0xe5 :: _ => some (.movRspRbp, 3)
  | 0x48 :: 0x83 :: 0xec :: i :: _ => some (.subRsp i.toBitVec, 4)
  | 0x48 :: 0x89 :: 0x5d :: i :: _ => some (.movRbx i.toBitVec, 4)
  | 0x44 :: 0x8b :: 0x4f :: i :: _ => some (.movR9d i.toBitVec, 4)
  | 0x44 :: 0x2b :: 0x4f :: i :: _ => some (.subR9d i.toBitVec, 4)
  | 0x4c :: 0x8b :: 0x87 :: a :: b :: c :: d :: _ => some (.movR8 (imm32 a b c d), 7)
  | 0xbe :: a :: b :: c :: d :: _ => some (.movEsi (imm32 a b c d), 5)
  | 0xe8 :: a :: b :: c :: d :: _ => some (.call (imm32 a b c d), 5)
  | 0x3d :: a :: b :: c :: d :: _ => some (.cmpEax (imm32 a b c d), 5)
  | 0x83 :: 0xf8 :: i :: _ => some (.cmpEax (i.toBitVec.signExtend 32), 3)
  | 0x75 :: i :: _ => some (.jne i.toBitVec, 2)
  | 0xb8 :: a :: b :: c :: d :: _ => some (.movEax (imm32 a b c d), 5)
  | 0xeb :: i :: _ => some (.jmp i.toBitVec, 2)
  | 0x31 :: 0xc0 :: _ => some (.xorEax, 2)
  | 0xc9 :: _ => some (.leave, 1)
  | 0xc3 :: _ => some (.ret, 1)
  | _ => none

structure Cpu where
  rax : BitVec 64
  rbx : BitVec 64
  rbp : BitVec 64
  rsp : BitVec 64
  rsi : BitVec 64
  rdi : BitVec 64
  r8 : BitVec 64
  r9 : BitVec 64
  equal : Bool
  mem : ByteMemory

/-- The code at an address outside of the image, which is called there: where the processor goes on
when it is done, and with which registers and memory.
-/
abbrev Kernel := BitVec 64 → Cpu → Option (BitVec 64 × Cpu)

def Cpu.push (s : Cpu) (value : BitVec 64) : Cpu :=
  { s with rsp := s.rsp - 8, mem := s.mem.write (s.rsp - 8) 8 value.toNat }

def Cpu.top (s : Cpu) : BitVec 64 :=
  BitVec.ofNat 64 (s.mem.read s.rsp 8)

def Cpu.leave (s : Cpu) : Cpu :=
  { s with rbp := BitVec.ofNat 64 (s.mem.read s.rbp 8), rsp := s.rbp + 8 }

inductive Progress where
  | running (offset : Nat) (s : Cpu)
  | left (rip : BitVec 64) (s : Cpu)

def goTo (rip : BitVec 64) (s : Cpu) : Progress :=
  if (rip - imageBase).toNat < image.length then .running (rip - imageBase).toNat s
  else .left rip s

def branch (next : Nat) (rel : BitVec 8) : Nat :=
  (next + rel.toInt).toNat

def execute (kernel : Kernel) (insn : X86) (next : Nat) (s : Cpu) : Option Progress :=
  let go (s' : Cpu) := some (Progress.running next s')
  match insn with
  | .pushRbp => go (s.push s.rbp)
  | .movRspRbp => go { s with rbp := s.rsp }
  | .subRsp imm => go { s with rsp := s.rsp - imm.signExtend 64 }
  | .movRbx disp => go { s with mem := s.mem.write (s.rbp + disp.signExtend 64) 8 s.rbx.toNat }
  | .movR9d disp => go { s with r9 := BitVec.ofNat 64 (s.mem.read (s.rdi + disp.signExtend 64) 4) }
  | .subR9d disp =>
      go { s with r9 := (s.r9.setWidth 32
        - BitVec.ofNat 32 (s.mem.read (s.rdi + disp.signExtend 64) 4)).setWidth 64 }
  | .movR8 disp => go { s with r8 := BitVec.ofNat 64 (s.mem.read (s.rdi + disp.signExtend 64) 8) }
  | .movEsi imm => go { s with rsi := imm.setWidth 64 }
  | .call rel =>
      let back := imageBase + BitVec.ofNat 64 next
      (kernel (back + rel.signExtend 64) (s.push back)).map fun r => goTo r.1 r.2
  | .cmpEax imm => go { s with equal := s.rax.setWidth 32 = imm }
  | .jne rel => some (.running (if s.equal then next else branch next rel) s)
  | .movEax imm => go { s with rax := imm.setWidth 64 }
  | .jmp rel => some (.running (branch next rel) s)
  | .xorEax => go { s with rax := 0, equal := true }
  | .leave => go s.leave
  | .ret => some (goTo s.top { s with rsp := s.rsp + 8 })

/-- Run the image from an offset until it is left, for at most as many instructions. -/
def runX86 (kernel : Kernel) : Nat → Nat → Cpu → Option (BitVec 64 × Cpu)
  | 0, _, _ => none
  | fuel + 1, offset, s => do
      let (insn, length) ← decodeX86 (image.drop offset)
      match ← execute kernel insn (offset + length) s with
      | .running next s' => runX86 kernel fuel next s'
      | .left rip s' => return (rip, s')

section Steps

variable {kernel : Kernel} {fuel offset length next : Nat} {insn : X86} {s t : Cpu}

theorem runX86_running (decoded : decodeX86 (image.drop offset) = some (insn, length))
    (executed : execute kernel insn (offset + length) s = some (.running next t))
    : runX86 kernel (fuel + 1) offset s = runX86 kernel fuel next t := by
  simp [runX86, decoded, executed]

theorem runX86_left {rip : BitVec 64}
    (decoded : decodeX86 (image.drop offset) = some (insn, length))
    (executed : execute kernel insn (offset + length) s = some (.left rip t))
    : runX86 kernel (fuel + 1) offset s = some (rip, t) := by
  simp [runX86, decoded, executed]

/-- A function that is called returns to the image. -/
theorem goTo_image (inside : next < image.length) (s : Cpu)
    : goTo (imageBase + BitVec.ofNat 64 next) s = .running next s := by
  have offset : (imageBase + BitVec.ofNat 64 next - imageBase).toNat = next := by
    have short : next < 70 := inside
    rw [BitVec.add_comm, BitVec.add_sub_cancel, BitVec.toNat_ofNat, Nat.mod_eq_of_lt (by omega)]
  rw [goTo, offset, if_pos inside]

/-- A comparison and the jump after it. -/
theorem runX86_cmp {imm : BitVec 32} {rel : BitVec 8} {more : Nat}
    (decoded : decodeX86 (image.drop offset) = some (.cmpEax imm, length))
    (jump : decodeX86 (image.drop (offset + length)) = some (.jne rel, more))
    : runX86 kernel (fuel + 2) offset s =
      if s.rax.setWidth 32 = imm then
        runX86 kernel fuel (offset + length + more) { s with equal := true }
      else
        runX86 kernel fuel (branch (offset + length + more) rel) { s with equal := false } := by
  rw [runX86_running decoded rfl]
  split
  · next same => exact runX86_running jump (by simp [execute, same])
  · next differs => exact runX86_running jump (by simp [execute, differs])

end Steps

/-- The bytes below the stack pointer that the image takes for itself, and for the address to return
to when it calls a function, do not have the address.
-/
def Cpu.Spares (s : Cpu) (address : BitVec 64) : Prop :=
  112 ≤ (address - (s.rsp - 112)).toNat

def Cpu.data (s : Cpu) : BitVec 64 :=
  BitVec.ofNat 64 (s.mem.read (s.rdi + 0xd8) 8)

/-- At `rdi` there is an `skb` whose bytes are all at `skb->data`, and not on the stack. -/
structure LinearSkb (s : Cpu) (packet : Packet) : Prop where
  short : packet.length < 2 ^ 31
  len : s.mem.read (s.rdi + 0x68) 4 = packet.length
  dataLen : s.mem.read (s.rdi + 0x6c) 4 = 0
  bytes : ∀ i, (h : i < packet.length) →
    (s.mem (s.data + BitVec.ofNat 64 i)).toBitVec = packet[i]
  header : ∀ i < 0xe0, s.Spares (s.rdi + BitVec.ofNat 64 i)
  body : ∀ i < packet.length, s.Spares (s.data + BitVec.ofNat 64 i)

structure Holds (t : Cpu) (packet : Packet) : Prop where
  bytes : ∀ i, (h : i < packet.length) →
    (t.mem (t.r8 + BitVec.ofNat 64 i)).toBitVec = packet[i]
  length : (t.r9.setWidth 32).toNat = packet.length

structure Keeps (t u : Cpu) : Prop where
  rbp : u.rbp = t.rbp
  rbx : u.rbx = t.rbx
  r8 : u.r8 = t.r8
  r9 : u.r9 = t.r9
  mem : u.mem = t.mem

/-- What is assumed of a function that loads from the packet at the offset in `esi`. It returns
what it has loaded; if the packet has no such bytes, it ends the filter that has called it, with
zero and with the registers that the filter has saved.
-/
structure LoadHelper (kernel : Kernel) (target : BitVec 64) (size : Size) : Prop where
  returns : ∀ t packet v, Holds t packet → packet.length < 2 ^ 31 →
    (t.rsi.setWidth 32).toNat < 2 ^ 31 →
    load packet size (t.rsi.setWidth 32).toNat = some v →
    ∃ u, kernel target t = some (t.top, u) ∧ Keeps t u ∧ u.rsp = t.rsp + 8
      ∧ u.rax.setWidth 32 = v
  ends : ∀ t packet, Holds t packet → packet.length < 2 ^ 31 →
    (t.rsi.setWidth 32).toNat < 2 ^ 31 →
    load packet size (t.rsi.setWidth 32).toNat = none →
    ∃ u, kernel target t = some (BitVec.ofNat 64 (t.mem.read (t.rbp + 8) 8), u)
      ∧ u.rsp = t.rbp + 16 ∧ u.rbp = BitVec.ofNat 64 (t.mem.read t.rbp 8)
      ∧ u.rbx = BitVec.ofNat 64 (t.mem.read (t.rbp - 8) 8) ∧ u.rax.setWidth 32 = 0

/-- `callq 0xffffffffe0ff9442` in the listing, which begins at 0 -/
def loadHalfAddress : BitVec 64 :=
  imageBase + 0xffffffffe0ff9442

def loadByteAddress : BitVec 64 :=
  imageBase + 0xffffffffe0ff945e

variable {kernel : Kernel} {s t u : Cpu} {packet : Packet}

def Cpu.saved (s : Cpu) : ByteMemory :=
  (s.mem.write (s.rsp - 8) 8 s.rbp.toNat).write (s.rsp - 8 + (0xf8 : BitVec 8).signExtend 64) 8
    s.rbx.toNat

theorem disp_eq : (0xf8 : BitVec 8).signExtend 64 = (-8 : BitVec 64) := by
  decide

theorem saved_apply {address : BitVec 64} (spares : s.Spares address)
    : s.saved address = s.mem address := by
  unfold Cpu.Spares at spares
  rw [Cpu.saved, ByteMemory.write_apart, ByteMemory.write_apart]
  · bv_omega
  · rw [disp_eq]
    bv_omega

theorem saved_read {address : BitVec 64} {count : Nat}
    (spares : ∀ i < count, s.Spares (address + BitVec.ofNat 64 i))
    : s.saved.read address count = s.mem.read address count :=
  Endian.load_congr .little fun i inside => saved_apply (spares i inside)

/-- `rbp` is still where it was saved. -/
theorem saved_rbp : s.saved.read (s.rsp - 8) 8 = s.rbp.toNat := by
  rw [Cpu.saved, ByteMemory.read_write_apart, ByteMemory.read_write_same (by decide)]
  · exact Nat.mod_eq_of_lt s.rbp.isLt
  · intro i inside
    rw [disp_eq]
    have : i < 8 := inside
    bv_omega

theorem saved_rbx : s.saved.read (s.rsp - 16) 8 = s.rbx.toNat := by
  have same : s.rsp - 8 + (0xf8 : BitVec 8).signExtend 64 = s.rsp - 16 := by
    rw [disp_eq]
    bv_omega
  rw [Cpu.saved, same, ByteMemory.read_write_same (by decide)]
  exact Nat.mod_eq_of_lt s.rbx.isLt

/-- The address to return to is above what the image writes. -/
theorem saved_top : s.saved.read s.rsp 8 = s.mem.read s.rsp 8 := by
  refine saved_read fun i inside => ?_
  unfold Cpu.Spares
  bv_omega

/-- The processor when the image has begun: it has saved two registers, and loaded where the
packet is and how long it is.
-/
def Cpu.entered (s : Cpu) : Cpu :=
  { s with
    rsp := s.rsp - 8 - (0x60 : BitVec 8).signExtend 64
    rbp := s.rsp - 8
    rsi := (12 : BitVec 32).setWidth 64
    r8 := BitVec.ofNat 64 (s.saved.read (s.rdi + (0xd8 : BitVec 32).signExtend 64) 8)
    r9 := ((BitVec.ofNat 64 (s.saved.read (s.rdi + (0x68 : BitVec 8).signExtend 64) 4)).setWidth 32
      - BitVec.ofNat 32 (s.saved.read (s.rdi + (0x6c : BitVec 8).signExtend 64) 4)).setWidth 64
    mem := s.saved }

theorem run_prologue (fuel : Nat) (s : Cpu)
    : runX86 kernel (fuel + 8) 0 s = runX86 kernel fuel 32 s.entered :=
  rfl

/-- What the filter decides. -/
theorem icmp_decides {c : Context} : Decides (filter icmp c) 0xffff
    (∃ type, load c.packet .half 12 = some type ∧ type = 0x800
      ∧ ∃ protocol, load c.packet .byte 23 = some protocol ∧ protocol = 1) := by
  have decoded : icmp.mapM decode = some [.ldAbs .half 12, .jump .jeq .k 0 3 0x800,
      .ldAbs .byte 23, .jump .jeq .k 0 1 1, .retK 0xffff, .retK 0] := rfl
  rw [filter, decoded]
  refine decides_ldAbs fun type _ => decides_jeq (fun ipv4 => ?_)
    fun other => decides_drop fun passes => other passes.1
  refine Decides.congr (decides_ldAbs fun protocol _ => ?_) (and_iff_right ipv4).symm
  exact decides_jeq decides_pass decides_drop

structure Returns (s t : Cpu) (value : BitVec 32) : Prop where
  value : t.rax.setWidth 32 = value
  rsp : t.rsp = s.rsp + 8
  rbp : t.rbp = s.rbp
  rbx : t.rbx = s.rbx

/-- Inside the image, called from `s`: the caller's registers are saved, and the packet is known.
Only the place for the address to return to from a function changes.
-/
structure Frame (s : Cpu) (packet : Packet) (t : Cpu) : Prop where
  rbp : t.rbp = s.rsp - 8
  rbx : t.rbx = s.rbx
  r8 : t.r8 = s.data
  r9 : (t.r9.setWidth 32).toNat = packet.length
  mem : ∀ a, 8 ≤ (a - (s.rsp - 112)).toNat → t.mem a = s.saved a

namespace Frame

variable (frame : Frame s packet t)

include frame

theorem read {address : BitVec 64} {count : Nat}
    (apart : ∀ i < count, 8 ≤ (address + BitVec.ofNat 64 i - (s.rsp - 112)).toNat)
    : t.mem.read address count = s.saved.read address count :=
  Endian.load_congr .little fun i inside => frame.mem _ (apart i inside)

theorem read_rbp : BitVec.ofNat 64 (t.mem.read t.rbp 8) = s.rbp := by
  rw [frame.rbp, frame.read (fun i inside => by bv_omega), saved_rbp, BitVec.ofNat_toNat,
    BitVec.setWidth_eq]

theorem read_rbx : BitVec.ofNat 64 (t.mem.read (t.rbp - 8) 8) = s.rbx := by
  have below : s.rsp - 8 - 8 = s.rsp - 16 := by bv_omega
  rw [frame.rbp, below, frame.read (fun i inside => by bv_omega), saved_rbx, BitVec.ofNat_toNat,
    BitVec.setWidth_eq]

theorem read_top : BitVec.ofNat 64 (t.mem.read (t.rbp + 8) 8) = s.top := by
  have above : s.rsp - 8 + 8 = s.rsp := by bv_omega
  rw [frame.rbp, above, frame.read (fun i inside => by bv_omega), saved_top, Cpu.top]

/-- The packet is not where the image writes. -/
theorem holds (skb : LinearSkb s packet) : Holds t packet := by
  refine ⟨fun i inside => ?_, frame.r9⟩
  have spared := skb.body i inside
  have apart : 8 ≤ (s.data + BitVec.ofNat 64 i - (s.rsp - 112)).toNat :=
    Nat.le_trans (by decide) spared
  rw [frame.r8, frame.mem _ apart, saved_apply spared]
  exact skb.bytes i inside

theorem keeps (kept : Keeps t u) : Frame s packet u :=
  ⟨kept.rbp.trans frame.rbp, kept.rbx.trans frame.rbx, kept.r8.trans frame.r8,
    by rw [kept.r9, frame.r9], by rw [kept.mem]; exact frame.mem⟩

/-- Registers that only the image uses may change. -/
theorem update (rax rsi : BitVec 64) (equal : Bool)
    : Frame s packet { t with rax := rax, rsi := rsi, equal := equal } :=
  frame.keeps ⟨rfl, rfl, rfl, rfl, rfl⟩

theorem push (rsp : t.rsp = s.rsp - 104) (back : BitVec 64) : Frame s packet (t.push back) := by
  refine ⟨frame.rbp, frame.rbx, frame.r8, frame.r9, fun a apart => ?_⟩
  have place : s.rsp - 104 - 8 = s.rsp - 112 := by bv_omega
  have written : (t.push back).mem = t.mem.write (s.rsp - 112) 8 back.toNat := by
    rw [Cpu.push, rsp, place]
  rw [written, ByteMemory.write_apart apart]
  exact frame.mem a apart

end Frame

theorem entered_frame (skb : LinearSkb s packet) : Frame s packet s.entered := by
  have field (offset : Nat) (count : Nat) (inside : offset + count ≤ 0xe0)
      : s.saved.read (s.rdi + BitVec.ofNat 64 offset) count
        = s.mem.read (s.rdi + BitVec.ofNat 64 offset) count := by
    refine saved_read fun i below => ?_
    have spared := skb.header (offset + i) (by omega)
    rwa [BitVec.ofNat_add, ← BitVec.add_assoc] at spared
  have short := skb.short
  have len : s.saved.read (s.rdi + (0x68 : BitVec 8).signExtend 64) 4 = packet.length :=
    (field 0x68 4 (by decide)).trans skb.len
  have dataLen : s.saved.read (s.rdi + (0x6c : BitVec 8).signExtend 64) 4 = 0 :=
    (field 0x6c 4 (by decide)).trans skb.dataLen
  have data : BitVec.ofNat 64 (s.saved.read (s.rdi + (0xd8 : BitVec 32).signExtend 64) 8)
      = s.data :=
    congrArg (BitVec.ofNat 64) (field 0xd8 8 (by decide))
  refine ⟨rfl, rfl, data, ?_, fun _ _ => rfl⟩
  simp only [Cpu.entered, len, dataLen]
  simp only [BitVec.toNat_setWidth, BitVec.toNat_sub, BitVec.toNat_ofNat]
  omega

theorem entered_rsp : s.entered.rsp = s.rsp - 104 := by
  have frame : (0x60 : BitVec 8).signExtend 64 = (96 : BitVec 64) := by decide
  rw [Cpu.entered, frame]
  bv_omega

def Ends (s : Cpu) (result : Option (BitVec 64 × Cpu)) (P : Prop) : Prop :=
  ∃ t, result = some (s.top, t) ∧ (P ∧ Returns s t 0xffff ∨ ¬ P ∧ Returns s t 0)

section Ends

variable (outside : image.length ≤ (s.top - imageBase).toNat)

include outside

theorem goTo_top (t : Cpu) : goTo s.top t = .left s.top t := by
  rw [goTo, if_neg (by omega)]

/-- `leaveq` and `retq` -/
theorem ends_epilogue (frame : Frame s packet t) {P : Prop}
    (value : P ∧ t.rax.setWidth 32 = 0xffff ∨ ¬ P ∧ t.rax.setWidth 32 = 0) (fuel : Nat)
    : Ends s (runX86 kernel (fuel + 2) 68 t) P := by
  have top : t.leave.top = s.top := by
    rw [← frame.read_top, Cpu.top, Cpu.leave]
  have left : execute kernel .ret (69 + 1) t.leave
      = some (.left s.top { t.leave with rsp := t.leave.rsp + 8 }) := by
    rw [execute, top, goTo_top outside]
  have returns {v : BitVec 32} (is : t.rax.setWidth 32 = v)
      : Returns s { t.leave with rsp := t.leave.rsp + 8 } v := by
    constructor <;> simp only [Cpu.leave]
    · exact is
    · rw [frame.rbp]
      bv_omega
    · exact frame.read_rbp
    · exact frame.rbx
  refine ⟨_, (runX86_running rfl rfl).trans (runX86_left rfl left), ?_⟩
  exact value.imp (.imp_right returns) (.imp_right returns)

theorem ends_pass (frame : Frame s packet t) {P : Prop} (passes : P) (fuel : Nat)
    : Ends s (runX86 kernel (fuel + 4) 59 t) P := by
  rw [runX86_running rfl rfl, runX86_running rfl rfl]
  exact ends_epilogue outside (frame.update 0xffff t.rsi t.equal) (.inl ⟨passes, rfl⟩) fuel

theorem ends_drop (frame : Frame s packet t) {P : Prop} (dropped : ¬ P) (fuel : Nat)
    : Ends s (runX86 kernel (fuel + 3) 66 t) P := by
  rw [runX86_running rfl rfl]
  exact ends_epilogue outside (frame.update 0 t.rsi true) (.inr ⟨dropped, rfl⟩) fuel

/-- A call of a function that loads from the packet ends the filter, or goes on with what has been
loaded, in the same frame.
-/
theorem ends_call {fuel offset length : Nat} {rel : BitVec 32} {target : BitVec 64} {size : Size}
    {k : Nat} {Q : BitVec 32 → Prop} (skb : LinearSkb s packet) (frame : Frame s packet t)
    (rsp : t.rsp = s.rsp - 104) (helper : LoadHelper kernel target size)
    (decoded : decodeX86 (image.drop offset) = some (.call rel, length))
    (called : imageBase + BitVec.ofNat 64 (offset + length) + rel.signExtend 64 = target)
    (inside : offset + length < image.length)
    (at_k : (t.rsi.setWidth 32).toNat = k) (small : k < 2 ^ 31)
    (goes : ∀ u v, Frame s packet u → u.rsp = s.rsp - 104 → u.rax.setWidth 32 = v →
      Ends s (runX86 kernel fuel (offset + length) u) (Q v))
    : Ends s (runX86 kernel (fuel + 1) offset t) (∃ v, load packet size k = some v ∧ Q v) := by
  set back := imageBase + BitVec.ofNat 64 (offset + length) with back_eq
  have pushed := frame.push rsp back
  subst at_k
  have executed : execute kernel (.call rel) (offset + length) t
      = (kernel target (t.push back)).map fun r => goTo r.1 r.2 := by
    rw [← called]
    rfl
  cases found : load packet size (t.rsi.setWidth 32).toNat with
  | none =>
      obtain ⟨u, done, uRsp, uRbp, uRbx, zero⟩ :=
        helper.ends (t.push back) packet (pushed.holds skb) skb.short small found
      rw [pushed.read_rbp] at uRbp
      rw [pushed.read_rbx] at uRbx
      rw [pushed.read_top] at done
      have left : execute kernel (.call rel) (offset + length) t = some (.left s.top u) := by
        rw [executed, done]
        exact congrArg some (goTo_top outside u)
      refine ⟨u, runX86_left decoded left, .inr ⟨by simp, zero, ?_, uRbp, uRbx⟩⟩
      rw [uRsp, pushed.rbp]
      bv_omega
  | some v =>
      obtain ⟨u, done, kept, uRsp, loaded⟩ :=
        helper.returns (t.push back) packet v (pushed.holds skb) skb.short small found
      have top : (t.push back).top = back := by
        rw [Cpu.top, Cpu.push, ByteMemory.read_write_same (by decide),
          Nat.mod_eq_of_lt (show back.toNat < 256 ^ 8 from back.isLt), BitVec.ofNat_toNat,
          BitVec.setWidth_eq]
      have running : execute kernel (.call rel) (offset + length) t
          = some (.running (offset + length) u) := by
        rw [executed, done, top]
        exact congrArg some (goTo_image inside u)
      have uRsp : u.rsp = s.rsp - 104 := by
        rw [uRsp, Cpu.push, rsp]
        bv_omega
      rw [runX86_running decoded running]
      simpa using goes u v (pushed.keeps kept) uRsp loaded

omit outside in
/-- A comparison with what has been loaded, and the jump after it. -/
theorem ends_cmp {fuel offset length more : Nat} {imm v : BitVec 32} {rel : BitVec 8} {P : Prop}
    (decoded : decodeX86 (image.drop offset) = some (.cmpEax imm, length))
    (jump : decodeX86 (image.drop (offset + length)) = some (.jne rel, more))
    (loaded : t.rax.setWidth 32 = v)
    (equal : v = imm → Ends s (runX86 kernel fuel (offset + length + more)
      { t with equal := true }) P)
    (differs : v ≠ imm → Ends s (runX86 kernel fuel (branch (offset + length + more) rel)
      { t with equal := false }) P)
    : Ends s (runX86 kernel (fuel + 2) offset t) P := by
  rw [runX86_cmp decoded jump, loaded]
  split
  · next same => exact equal same
  · next other => exact differs other

theorem image_ends (half : LoadHelper kernel loadHalfAddress .half)
    (byte : LoadHelper kernel loadByteAddress .byte) (skb : LinearSkb s packet)
    : Ends s (runX86 kernel 19 0 s) (∃ type, load packet .half 12 = some type ∧ type = 0x800
      ∧ ∃ protocol, load packet .byte 23 = some protocol ∧ protocol = 1) := by
  rw [run_prologue 11]
  refine ends_call outside skb (entered_frame skb) entered_rsp half rfl (by decide) (by decide) rfl
    (by decide) fun t type frame rsp loaded => ?_
  refine ends_cmp rfl rfl loaded (fun ipv4 => ?_) fun other => ?_
  · have ipv4 : type = 0x800 := ipv4
    rw [runX86_running rfl rfl, and_iff_right ipv4]
    refine ends_call outside skb (frame.update _ _ _) rsp byte rfl (by decide) (by decide) rfl
      (by decide) fun u protocol frame _ loaded => ?_
    refine ends_cmp rfl rfl loaded (fun icmp => ?_) fun other => ?_
    · exact ends_pass outside (frame.update _ _ _) icmp 0
    · exact ends_drop outside (frame.update _ _ _) other 1
  · exact ends_drop outside (frame.update _ _ _) (fun passes => other passes.1) 5

end Ends

/-- The linear part of the packet, as the registers at a call describe it. -/
def Cpu.skbData (t : Cpu) : Packet :=
  (List.range (t.r9.setWidth 32).toNat).map fun i => (t.mem (t.r8 + BitVec.ofNat 64 i)).toBitVec

theorem Holds.skbData_eq (holds : Holds t packet) : t.skbData = packet := by
  apply List.ext_getElem
  · simp [Cpu.skbData, holds.length]
  · intro i _ inside
    simpa [Cpu.skbData] using holds.bytes i inside

def Cpu.answer (t : Cpu) (v : BitVec 32) : Cpu :=
  { t with rax := v.setWidth 64, rsp := t.rsp + 8 }

/-- A load past the end leaves the filter altogether: the frame of the image is taken down and
the filter returns 0.
-/
def Cpu.giveUp (t : Cpu) : Cpu :=
  { t with
    rax := 0
    rbx := BitVec.ofNat 64 (t.mem.read (t.rbp - 8) 8)
    rbp := BitVec.ofNat 64 (t.mem.read t.rbp 8)
    rsp := t.rbp + 16 }

/-- The least kernel that meets `LoadHelper` at both addresses. Its code is not that of the source,
it only shows that the assumption can be met.
-/
def plainKernel : Kernel := fun target t =>
  let size := if target = loadHalfAddress then .half else .byte
  match load t.skbData size (t.rsi.setWidth 32).toNat with
  | some v => some (t.top, t.answer v)
  | none => some (BitVec.ofNat 64 (t.mem.read (t.rbp + 8) 8), t.giveUp)

/-- By what the two ways out leave in the registers. -/
theorem plainKernel_loads {target : BitVec 64} {size : Size}
    (is : (if target = loadHalfAddress then Size.half else .byte) = size)
    : LoadHelper plainKernel target size where
  returns := by
    intro t packet v holds _ _ found
    refine ⟨t.answer v, ?_, ⟨rfl, rfl, rfl, rfl, rfl⟩, rfl, ?_⟩
    · simp only [plainKernel, is, holds.skbData_eq, found]
    · simp [Cpu.answer]
  ends := by
    intro t packet holds _ _ found
    refine ⟨t.giveUp, ?_, rfl, rfl, rfl, rfl⟩
    simp only [plainKernel, is, holds.skbData_eq, found]

def icmpPacket : Packet :=
  List.replicate 12 0 ++ [8, 0] ++ List.replicate 9 0 ++ [1]

def icmpCpu : Cpu where
  rax := 0
  rbx := 5
  rbp := 7
  rsp := 0x1000
  rsi := 0
  rdi := 0x2000
  r8 := 0
  r9 := 0
  equal := false
  mem := fun a =>
    if a = 0x2068 then 24 else if a = 0x20d9 then 0x30
    else if a = 0x300c then 8 else if a = 0x3017 then 1 else 0

end LinuxDoc.PacketFilter
