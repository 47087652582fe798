import LinuxDoc.PacketFilter.Machine

/-! The filter of the example, which is to pass the packets of IPv4 and IPv6 with port 22.
-/

namespace LinuxDoc.PacketFilter

open Foundations

def code : List SockFilter := [
  ⟨0x28,  0,  0, 0x0000000c⟩,
  ⟨0x15,  0,  8, 0x000086dd⟩,
  ⟨0x30,  0,  0, 0x00000014⟩,
  ⟨0x15,  2,  0, 0x00000084⟩,
  ⟨0x15,  1,  0, 0x00000006⟩,
  ⟨0x15,  0, 17, 0x00000011⟩,
  ⟨0x28,  0,  0, 0x00000036⟩,
  ⟨0x15, 14,  0, 0x00000016⟩,
  ⟨0x28,  0,  0, 0x00000038⟩,
  ⟨0x15, 12, 13, 0x00000016⟩,
  ⟨0x15,  0, 12, 0x00000800⟩,
  ⟨0x30,  0,  0, 0x00000017⟩,
  ⟨0x15,  2,  0, 0x00000084⟩,
  ⟨0x15,  1,  0, 0x00000006⟩,
  ⟨0x15,  0,  8, 0x00000011⟩,
  ⟨0x28,  0,  0, 0x00000014⟩,
  ⟨0x45,  6,  0, 0x00001fff⟩,
  ⟨0xb1,  0,  0, 0x0000000e⟩,
  ⟨0x48,  0,  0, 0x0000000e⟩,
  ⟨0x15,  2,  0, 0x00000016⟩,
  ⟨0x48,  0,  0, 0x00000010⟩,
  ⟨0x15,  0,  1, 0x00000016⟩,
  ⟨0x06,  0,  0, 0x0000ffff⟩,
  ⟨0x06,  0,  0, 0x00000000⟩]

def verdicts : List Insn := [.retK 0xffff, .retK 0]

def ports4 : List Insn :=
  [.ldAbs .half 20,
   .jump .jset .k 6 0 0x1fff,
   .ldxMsh 14,
   .ldInd .half 14,
   .jump .jeq .k 2 0 22,
   .ldInd .half 16,
   .jump .jeq .k 0 1 22] ++ verdicts

def protocol4 : List Insn :=
  [.jump .jeq .k 0 12 0x800,
   .ldAbs .byte 23,
   .jump .jeq .k 2 0 132,
   .jump .jeq .k 1 0 6,
   .jump .jeq .k 0 8 17] ++ ports4

def ports6 : List Insn :=
  [.ldAbs .half 54,
   .jump .jeq .k 14 0 22,
   .ldAbs .half 56,
   .jump .jeq .k 12 13 22] ++ protocol4

def program : List Insn :=
  [.ldAbs .half 12,
   .jump .jeq .k 0 8 0x86dd,
   .ldAbs .byte 20,
   .jump .jeq .k 2 0 132,
   .jump .jeq .k 1 0 6,
   .jump .jeq .k 0 17 17] ++ ports6

theorem decode_code : code.mapM decode = some program :=
  rfl

def HasPorts (protocol : BitVec 32) : Prop :=
  protocol = 132 ∨ protocol = 6 ∨ protocol = 17

def PortsAt (packet : Packet) (k : Nat) : Prop :=
  load packet .half k = some 22 ∨ load packet .half (k + 2) = some 22

def Ipv6Port22 (packet : Packet) : Prop :=
  ∃ protocol, load packet .byte 20 = some protocol ∧ HasPorts protocol ∧ PortsAt packet 54

/-- After the header of IPv4, whose length is given in words, comes that of a protocol with
port 22, and it is not a later fragment.
-/
def Ipv4Port22 (packet : Packet) : Prop :=
  ∃ protocol, load packet .byte 23 = some protocol ∧ HasPorts protocol
    ∧ ∃ fragment, load packet .half 20 = some fragment ∧ 0x1fff &&& fragment = 0
      ∧ ∃ length, load packet .byte 14 = some length
        ∧ PortsAt packet (14 + 4 * (length &&& 0xf).toNat)

def Port22 (packet : Packet) : Prop :=
  ∃ type, load packet .half 12 = some type
    ∧ (type = 0x86dd ∧ Ipv6Port22 packet ∨ type = 0x800 ∧ Ipv4Port22 packet)

variable {c : Context} {r : Registers} {packet : Packet} {k : Nat}

theorem load_half_eq_none : load packet .half k = none ↔ packet.length ≤ k + 1 := by
  simp only [load, Option.bind_eq_bind, Option.pure_def]
  by_cases short : packet.length ≤ k + 1
  · simp [short]
  · have : k < packet.length := by omega
    have : k + 1 < packet.length := by omega
    simp [*]

/-- The two ports as they are loaded: the second one only if the first is another one. Where the
second one is, there is the first.
-/
theorem portsAt_iff : PortsAt packet k ↔ ∃ first, load packet .half k = some first
    ∧ (first = 22 ∨ ∃ second, load packet .half (k + 2) = some second ∧ second = 22) := by
  cases at_first : load packet .half k with
  | none =>
      have next : load packet .half (k + 2) = none := by
        rw [load_half_eq_none] at at_first ⊢
        omega
      simp [PortsAt, at_first, next]
  | some first => simp [PortsAt, at_first]

/-- The tests of the ports of IPv6. -/
theorem ports6_decides : Decides (run c ports6 r) 0xffff (PortsAt c.packet 54) := by
  refine Decides.congr (decides_ldAbs fun first _ => ?_) portsAt_iff.symm
  refine decides_jeq (fun is22 => decides_pass (.inl is22)) fun not22 => ?_
  refine Decides.congr (decides_ldAbs fun second _ => ?_) (or_iff_right not22).symm
  exact decides_jeq decides_pass decides_drop

/-- Where the index register points to after the length of the header has been loaded. -/
theorem toNat_header_add (length k : BitVec 32) (small : k.toNat < 64)
    : (4 * (length &&& 0xf) + k).toNat = k.toNat + 4 * (length &&& 0xf).toNat := by
  have bound : (length &&& 0xf).toNat ≤ 15 := by
    rw [BitVec.toNat_and]
    exact Nat.and_le_right
  rw [BitVec.toNat_add, BitVec.toNat_mul]
  simp only [BitVec.reduceToNat]
  omega

/-- The tests of the ports of IPv4, after the header's length has been loaded. -/
theorem indexed_decides (length : BitVec 32)
    : Decides (run c (ports4.drop 3) { r with x := 4 * (length &&& 0xf) }) 0xffff
        (PortsAt c.packet (14 + 4 * (length &&& 0xf).toNat)) := by
  have first_at : (4 * (length &&& 0xf) + 14).toNat = 14 + 4 * (length &&& 0xf).toNat :=
    toNat_header_add length 14 (by decide)
  have second_at : (4 * (length &&& 0xf) + 16).toNat = 14 + 4 * (length &&& 0xf).toNat + 2 :=
    (toNat_header_add length 16 (by decide)).trans (by simp only [BitVec.reduceToNat]; omega)
  rw [portsAt_iff, ← second_at, ← first_at]
  refine decides_ldInd fun first _ => ?_
  refine decides_jeq (fun is22 => decides_pass (.inl is22)) fun not22 => ?_
  refine Decides.congr (decides_ldInd fun second _ => ?_) (or_iff_right not22).symm
  exact decides_jeq decides_pass decides_drop

/-- The tests of the fragment and the ports of IPv4. -/
theorem ports4_decides : Decides (run c ports4 r) 0xffff
    (∃ fragment, load c.packet .half 20 = some fragment ∧ 0x1fff &&& fragment = 0
      ∧ ∃ length, load c.packet .byte 14 = some length
        ∧ PortsAt c.packet (14 + 4 * (length &&& 0xf).toNat)) := by
  refine decides_ldAbs fun fragment _ => decides_jump (fun later => ?_) fun whole => ?_
  · refine decides_drop fun passes => ?_
    exact bne_iff_ne.mp later passes.1
  · have whole : 0x1fff &&& fragment = 0 := bne_eq_false_iff_eq.mp whole
    refine Decides.congr (decides_ldxMsh fun length _ => ?_) (and_iff_right whole).symm
    exact indexed_decides length

/-- The test of the protocol, with the drop of the other packets as far away as it is. -/
theorem protocol_decides {rest : List Insn} {jf : BitVec 8} {P : Prop}
    (ports : Decides (run c rest r) 0xffff P)
    (others : run c (rest.drop jf.toNat) r = some 0)
    : Decides (run c (.jump .jeq .k 2 0 132 :: .jump .jeq .k 1 0 6 :: .jump .jeq .k 0 jf 17
        :: rest) r) 0xffff (HasPorts r.a ∧ P) := by
  have has (is : HasPorts r.a) : Decides (run c rest r) 0xffff (HasPorts r.a ∧ P) :=
    ports.congr (and_iff_right is).symm
  refine decides_jeq (fun sctp => has (.inl sctp)) fun notSctp => ?_
  refine decides_jeq (fun tcp => has (.inr (.inl tcp))) fun notTcp => ?_
  refine decides_jeq (fun udp => has (.inr (.inr udp))) fun notUdp => .inr ⟨?_, others⟩
  rintro ⟨sctp | tcp | udp, _⟩
  · exact notSctp sctp
  · exact notTcp tcp
  · exact notUdp udp

/-- The tests of a packet that is not of IPv6. -/
theorem protocol4_decides
    : Decides (run c protocol4 r) 0xffff (r.a = 0x800 ∧ Ipv4Port22 c.packet) := by
  refine decides_jeq (fun ipv4 => ?_) fun other => decides_drop fun passes => other passes.1
  refine Decides.congr (decides_ldAbs fun protocol _ => ?_) (and_iff_right ipv4).symm
  exact protocol_decides ports4_decides rfl

/-- The tests of a packet of IPv6. -/
theorem protocol6_decides : Decides (run c (program.drop 2) r) 0xffff (Ipv6Port22 c.packet) :=
  decides_ldAbs fun _ _ => protocol_decides ports6_decides rfl

theorem program_decides : Decides (run c program r) 0xffff (Port22 c.packet) := by
  refine decides_ldAbs fun type _ => decides_jeq (fun ipv6 => ?_) fun other => ?_
  · have ipv6 : type = 0x86dd := ipv6
    refine protocol6_decides.congr ⟨fun passes => .inl ⟨ipv6, passes⟩, ?_⟩
    rintro (⟨_, passes⟩ | ⟨ipv4, _⟩)
    · exact passes
    · exact absurd (ipv6.symm.trans ipv4) (by decide)
  · exact protocol4_decides.congr (or_iff_right fun passes => other passes.1).symm

theorem code_decides : Decides (filter code c) 0xffff (Port22 c.packet) := by
  rw [filter, decode_code]
  exact program_decides

end LinuxDoc.PacketFilter
