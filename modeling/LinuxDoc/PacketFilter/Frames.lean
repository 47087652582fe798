import Mathlib.Algebra.GroupWithZero.Nat
import LinuxDoc.PacketFilter.PortTwentyTwo

/-! What the filter does with well-formed frames. A frame is given by its fields, so that the
offsets of the filter are those of the headers: the ports of IPv4 stand after a header of any
length, those of IPv6 after the fixed one.
-/

namespace LinuxDoc.PacketFilter

def halfBytes (v : BitVec 16) : Packet :=
  [v.extractLsb' 8 8, v.extractLsb' 0 8]

structure LinkAddresses where
  bytes : Packet
  length : bytes.length = 12

structure Transport where
  protocol : BitVec 8
  source : BitVec 16
  destination : BitVec 16
  rest : Packet

namespace Transport

def bytes (t : Transport) : Packet :=
  halfBytes t.source ++ halfBytes t.destination ++ t.rest

def Port22 (t : Transport) : Prop :=
  (t.protocol = 132 ∨ t.protocol = 6 ∨ t.protocol = 17) ∧ (t.source = 22 ∨ t.destination = 22)

end Transport

/-- A frame of IPv4. The length of the header counts the words of the options with the five words
before them.
-/
structure Ipv4Frame where
  addresses : LinkAddresses
  version : BitVec 4
  headerLength : BitVec 4
  service : BitVec 8
  totalLength : BitVec 16
  identification : BitVec 16
  flags : BitVec 3
  fragmentOffset : BitVec 13
  timeToLive : BitVec 8
  checksum : BitVec 16
  ends : Packet
  options : Packet
  transport : Transport
  ends_length : ends.length = 8
  options_length : options.length + 20 = 4 * headerLength.toNat

def Ipv4Frame.header (f : Ipv4Frame) : Packet :=
  halfBytes 0x800 ++ [f.version ++ f.headerLength, f.service] ++ halfBytes f.totalLength
    ++ halfBytes f.identification ++ halfBytes (f.flags ++ f.fragmentOffset)
    ++ [f.timeToLive, f.transport.protocol] ++ halfBytes f.checksum

def Ipv4Frame.bytes (f : Ipv4Frame) : Packet :=
  f.addresses.bytes ++ (f.header ++ f.ends ++ f.options ++ f.transport.bytes)

structure Ipv6Frame where
  addresses : LinkAddresses
  flow : Packet
  payloadLength : BitVec 16
  hopLimit : BitVec 8
  ends : Packet
  transport : Transport
  flow_length : flow.length = 4
  ends_length : ends.length = 32

def Ipv6Frame.bytes (f : Ipv6Frame) : Packet :=
  f.addresses.bytes ++ (halfBytes 0x86dd ++ f.flow ++ halfBytes f.payloadLength
    ++ [f.transport.protocol, f.hopLimit] ++ f.ends ++ f.transport.bytes)

section Loads

theorem halfBytes_join (v : BitVec 16) : v.extractLsb' 8 8 ++ v.extractLsb' 0 8 = v :=
  BitVec.extractLsb'_append_extractLsb'

variable {packet : Packet} {k : Nat}

/-- What is loaded from behind the first bytes of a packet. -/
theorem load_append (before after : Packet) (size : Size) (k : Nat)
    : load (before ++ after) size (before.length + k) = load after size k := by
  simp only [load, Nat.add_assoc, List.getElem?_append_right (Nat.le_add_right _ _),
    Nat.add_sub_cancel_left]

theorem load_halfBytes (v : BitVec 16) (after : Packet)
    : load (halfBytes v ++ after) .half 0 = some (v.setWidth 32) :=
  congrArg (fun w : BitVec 16 => some (w.setWidth 32)) (halfBytes_join v)

/-- A field of a packet that is narrower than the accumulator. -/
theorem setWidth_eq_iff {w : Nat} (narrow : w ≤ 32) (v : BitVec w) (n : Nat) (small : n < 2 ^ w)
    : v.setWidth 32 = BitVec.ofNat 32 n ↔ v = BitVec.ofNat w n := by
  have : 2 ^ w ≤ 2 ^ 32 := Nat.pow_le_pow_right (by omega) narrow
  rw [← BitVec.toNat_inj, ← BitVec.toNat_inj, BitVec.toNat_setWidth, BitVec.toNat_ofNat,
    BitVec.toNat_ofNat, Nat.mod_eq_of_lt small, Nat.mod_eq_of_lt (Nat.lt_of_lt_of_le small this),
    Nat.mod_eq_of_lt (Nat.lt_of_lt_of_le v.isLt this)]

/-- The ports are found where they stand. -/
theorem portsAt_transport {t : Transport} (before : Packet) (bytes : packet = before ++ t.bytes)
    (at_k : before.length = k)
    : PortsAt packet k ↔ t.source = 22 ∨ t.destination = 22 := by
  have first : load packet .half k = some (t.source.setWidth 32) := by
    rw [bytes, ← at_k]
    exact (load_append before t.bytes .half 0).trans (load_halfBytes _ _)
  have second : load packet .half (k + 2) = some (t.destination.setWidth 32) := by
    rw [bytes, ← at_k, load_append]
    exact load_halfBytes t.destination t.rest
  rw [PortsAt, first, second, Option.some_inj, Option.some_inj]
  exact or_congr (setWidth_eq_iff (by decide) t.source 22 (by decide))
    (setWidth_eq_iff (by decide) t.destination 22 (by decide))

theorem hasPorts_iff (protocol : BitVec 8)
    : HasPorts (protocol.setWidth 32) ↔ protocol = 132 ∨ protocol = 6 ∨ protocol = 17 :=
  or_congr (setWidth_eq_iff (by decide) protocol 132 (by decide))
    (or_congr (setWidth_eq_iff (by decide) protocol 6 (by decide))
      (setWidth_eq_iff (by decide) protocol 17 (by decide)))

end Loads

/-- The lower bits of two fields that are loaded together. -/
theorem mask_append {high low : Nat} (narrow : high + low ≤ 32) (a : BitVec high) (b : BitVec low)
    (mask : BitVec 32) (ones : mask.toNat = 2 ^ low - 1)
    : (mask &&& (a ++ b).setWidth 32).toNat = b.toNat := by
  have : 2 ^ (high + low) ≤ 2 ^ 32 := Nat.pow_le_pow_right (by omega) narrow
  rw [BitVec.toNat_and, ones, Nat.and_comm, Nat.and_two_pow_sub_one_eq_mod, BitVec.toNat_setWidth,
    Nat.mod_eq_of_lt (Nat.lt_of_lt_of_le (a ++ b).isLt this), BitVec.toNat_append,
    Nat.or_mod_two_pow, Nat.shiftLeft_eq, Nat.mul_mod_left, Nat.zero_or, Nat.mod_eq_of_lt b.isLt]

/-- The fields of a frame of IPv4 that the filter reads. -/
theorem Ipv4Frame.port22_iff (f : Ipv4Frame)
    : Port22 f.bytes ↔ f.fragmentOffset = 0 ∧ f.transport.Port22 := by
  have field (size : Size) (k : Nat) : load f.bytes size (12 + k)
      = load (f.header ++ f.ends ++ f.options ++ f.transport.bytes) size k := by
    rw [← f.addresses.length]
    exact load_append _ _ size k
  have type : load f.bytes .half 12 = some 0x800 := field .half 0
  have length : load f.bytes .byte 14 = some ((f.version ++ f.headerLength).setWidth 32) :=
    field .byte 2
  have fragment : load f.bytes .half 20 = some ((f.flags ++ f.fragmentOffset).setWidth 32) := by
    rw [← halfBytes_join (f.flags ++ f.fragmentOffset)]
    exact field .half 8
  have protocol : load f.bytes .byte 23 = some (f.transport.protocol.setWidth 32) :=
    field .byte 11
  have words : ((f.version ++ f.headerLength).setWidth 32 &&& 0xf).toNat = f.headerLength.toNat := by
    rw [BitVec.and_comm]
    exact mask_append (by decide) _ _ _ rfl
  have first : 0x1fff &&& (f.flags ++ f.fragmentOffset).setWidth 32 = 0
      ↔ f.fragmentOffset = 0 := by
    rw [← BitVec.toNat_inj, mask_append (by decide) _ _ _ rfl, ← BitVec.toNat_inj]
    rfl
  have ports := portsAt_transport
    (f.addresses.bytes ++ (f.header ++ f.ends ++ f.options))
    (show f.bytes = _ ++ f.transport.bytes by simp only [Ipv4Frame.bytes, List.append_assoc])
    (show _ = 14 + 4 * f.headerLength.toNat by
      have := f.options_length
      simp only [List.length_append, f.addresses.length, f.ends_length, Ipv4Frame.header, halfBytes,
        List.length_cons, List.length_nil]
      omega)
  simp only [Port22, Ipv4Port22, type, length, fragment, protocol, Option.some_inj,
    exists_eq_left', words, first, ports, hasPorts_iff, Transport.Port22]
  constructor
  · rintro (⟨ipv6, _⟩ | ⟨_, protocol, whole, port⟩)
    · exact absurd ipv6 (by decide)
    · exact ⟨whole, protocol, port⟩
  · rintro ⟨whole, protocol, port⟩
    exact .inr ⟨trivial, protocol, whole, port⟩

/-- The fields of a frame of IPv6 that the filter reads. -/
theorem Ipv6Frame.port22_iff (f : Ipv6Frame) : Port22 f.bytes ↔ f.transport.Port22 := by
  have field (before after : Packet) (bytes : f.bytes = before ++ after) (size : Size)
      : load f.bytes size before.length = load after size 0 := by
    rw [bytes]
    exact load_append before after size 0
  have type : load f.bytes .half 12 = some 0x86dd := by
    rw [← f.addresses.length, field f.addresses.bytes _ rfl]
    rfl
  have protocol : load f.bytes .byte 20 = some (f.transport.protocol.setWidth 32) := by
    have loaded := field
      (f.addresses.bytes ++ (halfBytes 0x86dd ++ f.flow ++ halfBytes f.payloadLength))
      (f.transport.protocol :: f.hopLimit :: (f.ends ++ f.transport.bytes))
      (by simp [Ipv6Frame.bytes]) .byte
    simpa [f.addresses.length, f.flow_length, halfBytes, load] using loaded
  have ports := portsAt_transport
    (f.addresses.bytes ++ (halfBytes 0x86dd ++ f.flow ++ halfBytes f.payloadLength
        ++ [f.transport.protocol, f.hopLimit] ++ f.ends))
    (show f.bytes = _ ++ f.transport.bytes by simp only [Ipv6Frame.bytes, List.append_assoc])
    (show _ = 54 by simp [f.addresses.length, f.ends_length, f.flow_length, halfBytes])
  simp only [Port22, Ipv6Port22, type, protocol, Option.some_inj,
    exists_eq_left', ports, hasPorts_iff, Transport.Port22]
  constructor
  · rintro (⟨_, passes⟩ | ⟨ipv4, _⟩)
    · exact passes
    · exact absurd ipv4 (by decide)
  · exact fun passes => .inl ⟨trivial, passes⟩

/-- The filter passes exactly the packets with port 22 where it looks for it: of the frames of IPv4
those of SCTP, TCP or UDP that are from or to port 22 and not later fragments, whatever their
options, and of the frames of IPv6 those without extension headers. `code_decides` runs the filter
on any packet; in a frame its offsets are those of the fields.
-/
theorem port22_exact (extension : Extension → BitVec 32 → BitVec 32 → BitVec 32)
    (packet : Packet) (ipv4 : Ipv4Frame) (ipv6 : Ipv6Frame)
    : Decides (filter code ⟨packet, extension⟩) 0xffff (Port22 packet)
      ∧ Decides (filter code ⟨ipv4.bytes, extension⟩) 0xffff
        (ipv4.fragmentOffset = 0 ∧ ipv4.transport.Port22)
      ∧ Decides (filter code ⟨ipv6.bytes, extension⟩) 0xffff ipv6.transport.Port22 :=
  ⟨code_decides, code_decides.congr ipv4.port22_iff, code_decides.congr ipv6.port22_iff⟩

end LinuxDoc.PacketFilter
