import LinuxDoc.TxTimestamp.Options

/-! The buffer in which txtimestamp builds its packets.
Its size is an `int` made from the payload length, and some of the writes are counted from its
end.
-/

namespace LinuxDoc.TxTimestamp

def sizeofUdphdr : Nat := 8

def sizeofIphdr : Nat := 20

inductive Family where
  | inet
  | inet6
  deriving DecidableEq

def Family.value : Family → Nat
  | .inet => 2
  | .inet6 => 10

def ipprotoIpv6 : Nat := 41

structure Write where
  start : Int
  size : Nat
  deriving DecidableEq

def Write.Within (write : Write) (limit : Int) : Prop :=
  0 ≤ write.start ∧ write.start + write.size ≤ limit

instance Write.Within.decidable (write : Write) (limit : Int) : Decidable (write.Within limit) :=
  inferInstanceAs (Decidable (_ ∧ _))

theorem Write.Within.mono {write : Write} {limit more : Int} (h : write.Within limit)
    (larger : limit ≤ more)
    : write.Within more :=
  ⟨h.1, h.2.trans larger⟩

/-- The results of the calls in `do_test`: whether each step of the setup succeeds, and what
`send` or `sendto` returns for each packet.
-/
structure Calls where
  malloc : Bool
  socket : Bool
  nodelay : Bool
  connect : Bool
  timestamping : Bool
  sent : Nat → Int

structure TestRun where
  totalLen : BitVec 32
  mallocSize : Nat
  writes : List Write

namespace Config

variable (config : Config)

def totalLen : BitVec 32 :=
  if config.cfgProto = .raw then
    let withUdp := config.cfgPayloadLen + BitVec.ofNat 32 sizeofUdphdr
    if config.cfgIpproto = .raw then withUdp + BitVec.ofNat 32 sizeofIphdr else withUdp
  else config.cfgPayloadLen

def bufferSize : Nat :=
  (config.totalLen.toInt % 2 ^ 64).toNat

/-- The writes to `iph`: the header is cleared, then `ihl` and `version` share a byte, and `ttl`,
`daddr` and `protocol` are set.
-/
def iphdrWrites : List Write :=
  [⟨0, sizeofIphdr⟩, ⟨0, 1⟩, ⟨8, 1⟩, ⟨16, 4⟩, ⟨9, 1⟩]

def udphdrWrites (off : Nat) : List Write :=
  [⟨off, 2⟩, ⟨off + 2, 2⟩, ⟨off + 4, 2⟩, ⟨off + 6, 2⟩]

def headerWrites : List Write :=
  if config.cfgProto = .raw then
    if config.cfgIpproto = .raw then iphdrWrites ++ udphdrWrites sizeofIphdr else udphdrWrites 0
  else []

/-- The writes that build one packet: the fill, the two trailing characters, the headers. -/
def packetWrites : List Write :=
  [⟨0, config.bufferSize⟩, ⟨config.totalLen.toInt - 2, 1⟩, ⟨config.totalLen.toInt - 1, 1⟩]
  ++ config.headerWrites

/-- The loop over the packets; `send` must take the whole packet for the next one. -/
def testWrites (sent : Nat → Int) : Nat → Nat → List Write
  | 0, _ => []
  | remaining + 1, i =>
      config.packetWrites
        ++ if sent i = config.totalLen.toInt then testWrites sent remaining (i + 1) else []

def ready (calls : Calls) : Bool :=
  calls.malloc && calls.socket
    && (config.cfgProto != .stream || calls.nodelay && calls.connect) && calls.timestamping

/-- `do_test`, unless it skips the test; `cfg_num_pkts` is 4. -/
def doTest (family : Family) (calls : Calls) : Option TestRun :=
  if family.value = ipprotoIpv6 ∧ config.cfgProto ≠ .stream then none
  else
    some {
      totalLen := config.totalLen
      mallocSize := config.bufferSize
      writes := if config.ready calls then config.testWrites calls.sent 4 0 else []
    }

def minPayload : Int :=
  if config.cfgProto = .raw then 1 else 2

end Config

/-- The buffer has the size of the packet, and nothing is written outside it. -/
structure TestRun.InBuffer (run : TestRun) : Prop where
  positive : 0 < run.totalLen.toInt
  allocated : (run.mallocSize : Int) = run.totalLen.toInt
  inside : ∀ write ∈ run.writes, ∀ index : Int,
    write.start ≤ index → index < write.start + write.size →
      0 ≤ index ∧ index < run.totalLen.toInt

section Lengths

variable {config : Config}

def Config.headerLen (config : Config) : Nat :=
  if config.cfgProto = .raw then
    if config.cfgIpproto = .raw then sizeofUdphdr + sizeofIphdr else sizeofUdphdr
  else 0

/-- Far below the largest `int` a header is added without an overflow. -/
theorem toInt_add_header {len : BitVec 32} {header : Nat} (small : header ≤ 20)
    (short : len.toInt ≤ 2 ^ 16)
    : (len + BitVec.ofNat 32 header).toInt = len.toInt + header := by
  rw [BitVec.toInt_eq_toNat_cond] at short ⊢
  rw [BitVec.toInt_eq_toNat_cond]
  simp only [BitVec.toNat_add, BitVec.toNat_ofNat] at short ⊢
  omega

theorem Accepted.totalLen_eq (accepted : Accepted config)
    : config.totalLen.toInt = config.cfgPayloadLen.toInt + config.headerLen := by
  unfold Config.totalLen Config.headerLen
  split
  next isRaw =>
    have short := accepted.short (by simp [isRaw])
    have withUdp := toInt_add_header (show sizeofUdphdr ≤ 20 by decide)
      (show config.cfgPayloadLen.toInt ≤ 2 ^ 16 by omega)
    split
    · have bound : (config.cfgPayloadLen + BitVec.ofNat 32 sizeofUdphdr).toInt ≤ 2 ^ 16 := by
        rw [withUdp, sizeofUdphdr]
        omega
      rw [toInt_add_header (Nat.le_refl sizeofIphdr) bound, withUdp, Nat.cast_add, Int.add_assoc]
    · exact withUdp
  · simp

/-- The conversion to `size_t` keeps a length exactly if it is not negative. -/
theorem bufferSize_eq_iff
    : (config.bufferSize : Int) = config.totalLen.toInt ↔ 0 ≤ config.totalLen.toInt := by
  have range := config.totalLen.toInt_lt
  unfold Config.bufferSize
  omega

/-- The headers of a packet are written in front of its payload. -/
theorem headerWrites_within : ∀ write ∈ config.headerWrites, write.Within config.headerLen := by
  unfold Config.headerWrites Config.headerLen
  split
  · split <;> decide
  · exact List.forall_mem_nil _

/-- What one packet needs, every packet needs. -/
theorem testWrites_forall {P : Write → Prop} (packet : ∀ write ∈ config.packetWrites, P write)
    (sent : Nat → Int) (remaining i : Nat)
    : ∀ write ∈ config.testWrites sent remaining i, P write := by
  induction remaining generalizing i with
  | zero => exact List.forall_mem_nil _
  | succ remaining ih =>
      rw [Config.testWrites, List.forall_mem_append]
      refine ⟨packet, ?_⟩
      split
      · exact ih (i + 1)
      · exact List.forall_mem_nil _

theorem headerLen_eq_zero (notRaw : config.cfgProto ≠ .raw) : config.headerLen = 0 :=
  if_neg notRaw

theorem headerLen_pos (isRaw : config.cfgProto = .raw) : 8 ≤ config.headerLen := by
  rw [Config.headerLen, if_pos isRaw, sizeofUdphdr, sizeofIphdr]
  split <;> omega

/-- The checksum is written at the end of the headers. -/
theorem last_headerWrite (isRaw : config.cfgProto = .raw)
    : ⟨(config.headerLen : Int) - 2, 2⟩ ∈ config.headerWrites := by
  rw [Config.headerWrites, Config.headerLen, if_pos isRaw, if_pos isRaw]
  split <;> decide

variable (accepted : Accepted config)

include accepted

/-- With a payload that is large enough there is room for the two trailing characters. -/
theorem two_le_totalLen (enough : config.minPayload ≤ config.cfgPayloadLen.toInt)
    : 2 ≤ config.totalLen.toInt := by
  have total := accepted.totalLen_eq
  unfold Config.minPayload at enough
  split at enough
  next isRaw =>
    have header := headerLen_pos isRaw
    omega
  next notRaw => omega

theorem packetWrites_within (enough : config.minPayload ≤ config.cfgPayloadLen.toInt)
    : ∀ write ∈ config.packetWrites, write.Within config.totalLen.toInt := by
  have two := two_le_totalLen accepted enough
  have size := bufferSize_eq_iff.mpr (show 0 ≤ config.totalLen.toInt by omega)
  have total := accepted.totalLen_eq
  have payload : 0 ≤ config.cfgPayloadLen.toInt := by
    unfold Config.minPayload at enough
    split at enough <;> omega
  rw [Config.packetWrites, List.forall_mem_append]
  constructor
  · simp only [List.forall_mem_cons, Write.Within, size]
    refine ⟨by omega, by omega, by omega, List.forall_mem_nil _⟩
  · intro write member
    exact (headerWrites_within write member).mono (by omega)

/-- What is written must fit, so the payload is large enough. -/
theorem minPayload_le
    (inside : ∀ write ∈ config.packetWrites, ∀ index : Int,
      write.start ≤ index → index < write.start + write.size →
        0 ≤ index ∧ index < config.totalLen.toInt)
    : config.minPayload ≤ config.cfgPayloadLen.toInt := by
  have total := accepted.totalLen_eq
  unfold Config.minPayload
  split
  next isRaw =>
    have member : ⟨(config.headerLen : Int) - 2, 2⟩ ∈ config.packetWrites :=
      List.mem_append_right _ (last_headerWrite isRaw)
    have fits := (inside _ member (config.headerLen - 1) (by dsimp; omega) (by dsimp; omega)).2
    have nonzero : config.cfgPayloadLen.toInt ≠ 0 := by
      intro zero
      exact accepted.nonzero (BitVec.eq_of_toInt_eq zero)
    omega
  next notRaw =>
    have newline : ⟨config.totalLen.toInt - 2, 1⟩ ∈ config.packetWrites := by
      simp [Config.packetWrites]
    have fits := (inside _ newline (config.totalLen.toInt - 2) (Int.le_refl _) (by simp)).1
    rw [headerLen_eq_zero notRaw] at total
    omega

end Lengths

/-- `do_test` compares the address family with a protocol number, so it skips nothing. -/
theorem doTest_eq (config : Config) (family : Family) (calls : Calls)
    : config.doTest family calls = some {
        totalLen := config.totalLen
        mallocSize := config.bufferSize
        writes := if config.ready calls then config.testWrites calls.sent 4 0 else [] } := by
  have differs : family.value ≠ ipprotoIpv6 := by
    cases family <;> decide
  exact if_neg fun skips => differs skips.1

/-- For an accepted command line the packets are built in their buffer, whatever the calls of
`do_test` return, exactly if the payload has at least two bytes, or one behind a UDP header. If no
call fails there is a packet, whose writes need these bytes; and they are enough for each.
-/
theorem doTest_inBuffer_iff (opts : List Opt) (operands : Nat) (config : Config)
    (parsed : parseOpt opts operands = .ok config)
    : (∀ family calls run, config.doTest family calls = some run → run.InBuffer)
      ↔ config.minPayload ≤ config.cfgPayloadLen.toInt := by
  have accepted := parseOpt_accepted parsed
  constructor
  · intro h
    -- every call succeeds, so at least the first packet is built
    have inBuffer := h .inet ⟨true, true, true, true, true, fun _ => 0⟩ _ (doTest_eq ..)
    refine minPayload_le accepted fun write member => inBuffer.inside write ?_
    have isReady : config.ready ⟨true, true, true, true, true, fun _ => 0⟩ := by
      simp [Config.ready]
    rw [if_pos isReady]
    exact List.mem_append_left _ member
  · intro enough family calls run ran
    rw [doTest_eq, Option.some.injEq] at ran
    subst ran
    have two := two_le_totalLen accepted enough
    have within : ∀ write ∈ (if config.ready calls then config.testWrites calls.sent 4 0 else []),
        write.Within config.totalLen.toInt := by
      split
      · exact testWrites_forall (packetWrites_within accepted enough) calls.sent 4 0
      · exact List.forall_mem_nil _
    constructor
    · exact lt_of_lt_of_le (by decide) two
    · exact bufferSize_eq_iff.mpr (by omega)
    · intro write member index after before
      obtain ⟨low, high⟩ := within write member
      exact ⟨low.trans after, lt_of_lt_of_le before high⟩

/-- Without options the packets of ten bytes fit. -/
theorem defaultLength_inBuffer
    : parseOpt [] 1 = .ok .initial
      ∧ ∀ family calls run, Config.initial.doTest family calls = some run → run.InBuffer :=
  ⟨rfl, (doTest_inBuffer_iff [] 1 .initial rfl).mpr (by decide)⟩

def oneByte : Config :=
  { Config.initial with cfgPayloadLen := 1 }

/-- `-l 1` is accepted, and the newline is written in front of the buffer. -/
theorem oneByte_writes_before
    : parseOpt [.length 1] 1 = .ok oneByte
      ∧ ∃ run, oneByte.doTest .inet ⟨true, true, true, true, true, fun _ => 1⟩ = some run
        ∧ ⟨-1, 1⟩ ∈ run.writes ∧ ¬ run.InBuffer := by
  refine ⟨rfl, _, rfl, by decide, ?_⟩
  intro inBuffer
  have inside := inBuffer.inside ⟨-1, 1⟩ (by decide) (-1) (by decide) (by decide)
  exact absurd inside.1 (by decide)

end LinuxDoc.TxTimestamp
