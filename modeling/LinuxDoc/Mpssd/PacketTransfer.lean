import Mathlib.Data.List.Forall2
import Mathlib.Tactic.Common

/-! The loops of `virtio_net` and `virtio_console`: packets from the host go to the card and
packets of the card to the host, through one descriptor `copy` and one array of vectors for
each direction. The lengths in the arrays change with each packet.
-/

namespace LinuxDoc.Mpssd.PacketTransfer

inductive DeviceType where
  | net
  | console
  deriving DecidableEq

/-- The arrays of vectors: `iov0` for packets to the card, `iov1` for packets from it. -/
inductive Direction where
  | tx
  | rx
  deriving DecidableEq

abbrev Lens := List (BitVec 64)

inductive Call where
  | readv (lens : Lens)
  | copy (vrIdx : Nat) (lens : Lens)
  | writev (lens : Lens)
  deriving DecidableEq

/-- `struct mic_copy_desc`. The field `iov` points to one of the arrays, which `iovcnt` covers.
-/
structure CopyDesc where
  iov : Direction
  vrIdx : Nat
  updateUsed : Bool
  outLen : BitVec 32

structure Transfer where
  lens : Direction → Lens
  copy : CopyDesc
  log : List Call
  /-- An assertion has failed. -/
  aborted : Bool

namespace Transfer

def current (transfer : Transfer) : Lens :=
  transfer.lens transfer.copy.iov

def use (transfer : Transfer) (iov : Direction) : Transfer :=
  { transfer with copy := { transfer.copy with iov } }

def setLens (transfer : Transfer) (direction : Direction) (lens : Lens) : Transfer :=
  { transfer with lens := Function.update transfer.lens direction lens }

def call (transfer : Transfer) (call : Call) : Transfer :=
  { transfer with log := call :: transfer.log }

@[simp]
theorem setLens_self (transfer : Transfer) (direction : Direction) (lens : Lens)
    : (transfer.setLens direction lens).lens direction = lens :=
  Function.update_self ..

end Transfer

def sizeofVirtioNetHdr : BitVec 64 := 10

/-- `MAX_NET_PKT_SIZE`: a segment of 64 KiB with its Ethernet header, aligned to 64 bytes -/
def maxNetPktSize : BitVec 64 := (64 * 1024 + 14 + 64 - 1) &&& ~~~(64 - 1)

def pageSize : BitVec 64 := 4096

def sumIovecLen (lens : Lens) : BitVec 64 :=
  lens.foldl (· + ·) 0

def verifyOutLen (transfer : Transfer) : Transfer :=
  if transfer.copy.outLen.setWidth 64 ≠ sumIovecLen transfer.current then
    { transfer with aborted := true }
  else transfer

def prepareLens (type : DeviceType) (lens : Lens) (len : BitVec 64) : Lens :=
  match type with
  | .net => lens.set 1 (len - sizeofVirtioNetHdr)
  | .console => lens.set 0 len

def txrxPrepare (type : DeviceType) (tx : Bool) (transfer : Transfer) (len : BitVec 64)
    : Transfer :=
  let vrIdx := if tx then 0 else 1
  { transfer with copy := { transfer.copy with vrIdx, updateUsed := true } }.setLens
    transfer.copy.iov (prepareLens type transfer.current len)

/-- `mic_virtio_copy`, which stores in `out_len` how much it copied unless it fails -/
def micVirtioCopy (transfer : Transfer) (result : Option (BitVec 32)) : Transfer :=
  let outLen := result.getD transfer.copy.outLen
  { transfer with copy := { transfer.copy with outLen } }.call
    (.copy transfer.copy.vrIdx transfer.current)

structure Channel where
  type : DeviceType
  /-- The sizes of the buffers of an array -/
  capacities : Lens
  /-- The vector of the packet itself -/
  payload : Nat
  /-- How much of a packet is in the vectors before it -/
  header : BitVec 64
  /-- The size of the buffer for the packet itself -/
  full : BitVec 64
  payload_eq : capacities[payload]? = some full
  sum_eq : ∀ len, sumIovecLen (capacities.set payload len) = header + len
  prepare_eq : ∀ lens len, prepareLens type lens len = lens.set payload (len - header)

structure Round where
  /-- `poll` does not fail. -/
  polled : Bool
  /-- The tap or the terminal can be read. -/
  hostReady : Bool
  /-- `readv` -/
  read : Int
  /-- The copy to the card, `none` if it fails -/
  sent : Option (BitVec 32)
  /-- The descriptor of the card can be read. -/
  cardReady : Bool
  /-- The copies from the card, as long as the ring has buffers -/
  received : List (Option (BitVec 32))

section Loop

variable (channel : Channel)

def readPacket (transfer : Transfer) : Transfer :=
  let transfer := transfer.use .tx
  transfer.call (.readv transfer.current)

def transmitCopy (transfer : Transfer) (round : Round) : Transfer :=
  let transfer := micVirtioCopy
    (txrxPrepare channel.type true transfer (BitVec.ofInt 64 round.read)) round.sent
  if round.sent.isSome then verifyOutLen transfer else transfer

/-- "Reinitialize IOV for next run", unless the assertion has failed. -/
def transmitPacket (transfer : Transfer) (round : Round) : Transfer :=
  let transfer := transmitCopy channel transfer round
  if transfer.aborted then transfer
  else transfer.setLens .tx ((transfer.lens .tx).set channel.payload channel.full)

def transmit (transfer : Transfer) (round : Round) : Transfer :=
  if round.hostReady then
    let transfer := readPacket transfer
    if 0 < round.read then transmitPacket channel transfer round else transfer
  else transfer

def receiveCopy (transfer : Transfer) (result : Option (BitVec 32)) : Transfer :=
  micVirtioCopy
    (txrxPrepare channel.type false (transfer.use .rx) (channel.full + channel.header)) result

def receiveWrite (transfer : Transfer) : Transfer :=
  let outLen := transfer.copy.outLen.setWidth 64
  let transfer := verifyOutLen (transfer.setLens .rx
    ((transfer.lens .rx).set channel.payload (outLen - channel.header)))
  if transfer.aborted then transfer else transfer.call (.writev transfer.current)

/-- The packets of the card. A copy that fails ends the loop. -/
def receive (transfer : Transfer) : List (Option (BitVec 32)) → Transfer
  | [] => transfer
  | none :: _ => receiveCopy channel transfer none
  | some outLen :: rest =>
      let transfer := receiveWrite channel (receiveCopy channel transfer (some outLen))
      if transfer.aborted then transfer else receive transfer rest

def serveRound (transfer : Transfer) (round : Round) : Transfer :=
  if round.polled then
    let transfer := transmit channel transfer round
    if transfer.aborted then transfer
    else if round.cardReady then receive channel transfer round.received
    else transfer
  else transfer

def start (copy : CopyDesc) : Transfer where
  lens _ := channel.capacities
  copy
  log := []
  aborted := false

def serveRounds (transfer : Transfer) : List Round → Transfer
  | [] => transfer
  | round :: rest =>
      let transfer := serveRound channel transfer round
      if transfer.aborted then transfer else serveRounds transfer rest

def serve (copy : CopyDesc) (rounds : List Round) : Transfer :=
  serveRounds channel (start channel copy) rounds

end Loop

def netChannel : Channel where
  type := .net
  capacities := [sizeofVirtioNetHdr, maxNetPktSize]
  payload := 1
  header := sizeofVirtioNetHdr
  full := maxNetPktSize
  payload_eq := rfl
  sum_eq := by simp [sumIovecLen]
  prepare_eq := fun _ _ => rfl

def virtioNet : CopyDesc → List Round → Transfer :=
  serve netChannel

def consoleChannel : Channel where
  type := .console
  capacities := [pageSize]
  payload := 0
  header := 0
  full := pageSize
  payload_eq := rfl
  sum_eq := by simp [sumIovecLen]
  prepare_eq := by simp [prepareLens]

def virtioConsole : CopyDesc → List Round → Transfer :=
  serve consoleChannel

/-! What is asked of the calls -/

def Call.Offers (capacities : Lens) : Call → Prop
  | .readv lens => lens = capacities
  | .copy 1 lens => lens = capacities
  | _ => True

def Call.WritesWithin (capacities : Lens) : Call → Prop
  | .writev lens => List.Forall₂ (· ≤ ·) lens capacities
  | _ => True

def Round.misreported (round : Round) : Bool :=
  round.hostReady && decide (0 < round.read)
    && round.sent.any fun outLen => outLen.setWidth 64 != BitVec.ofInt 64 round.read

def Round.aborts (round : Round) : Bool :=
  round.polled && round.misreported

def reports : List (Option (BitVec 32)) → List (BitVec 32)
  | some outLen :: rest => outLen :: reports rest
  | _ => []

def Round.reported (round : Round) : List (BitVec 32) :=
  if round.polled && round.cardReady then reports round.received else []

/-! One packet -/

theorem Channel.set_full (channel : Channel)
    : channel.capacities.set channel.payload channel.full = channel.capacities := by
  obtain ⟨bound, full⟩ := List.getElem?_eq_some_iff.mp channel.payload_eq
  rw [← full]
  exact List.set_getElem_self bound

/-- Only the length of the packet itself decides whether the vectors are within the buffers. -/
theorem forall₂_set_iff {capacities : Lens} {i : Nat} {full len : BitVec 64}
    (entry : capacities[i]? = some full)
    : List.Forall₂ (· ≤ ·) (capacities.set i len) capacities ↔ len ≤ full := by
  induction capacities generalizing i with
  | nil => simp at entry
  | cons first rest ih =>
      cases i with
      | zero =>
          obtain rfl : first = full := by simpa using entry
          simp
      | succ i => simp [ih (by simpa using entry)]

section Packet

variable {channel : Channel} {transfer : Transfer}

/-- Between two packets the array for the card is as it was set up, the other one up to the
length of the last packet.
-/
structure Ready (channel : Channel) (transfer : Transfer) : Prop where
  running : transfer.aborted = false
  tx : transfer.lens .tx = channel.capacities
  rx : ∃ len, transfer.lens .rx = channel.capacities.set channel.payload len

/-- A copy of a packet: what it sets, and that it leaves the other array as it is. -/
structure Copied (channel : Channel) (before after : Transfer) (vrIdx : Nat) (len : BitVec 64)
    : Prop where
  running : after.aborted = before.aborted
  iov : after.copy.iov = before.copy.iov
  current : after.current = channel.capacities.set channel.payload (len - channel.header)
  other : ∀ direction ≠ before.copy.iov, after.lens direction = before.lens direction
  log : after.log = .copy vrIdx after.current :: before.log

/-- `txrx_prepare` and the copy that follows. -/
theorem copied {last : BitVec 64}
    (shape : transfer.current = channel.capacities.set channel.payload last) (tx : Bool)
    (len : BitVec 64) (result : Option (BitVec 32))
    : Copied channel transfer (micVirtioCopy (txrxPrepare channel.type tx transfer len) result)
        (if tx then 0 else 1) len where
  running := rfl
  iov := rfl
  current := by
    have prepared : (micVirtioCopy (txrxPrepare channel.type tx transfer len) result).current
        = prepareLens channel.type transfer.current len :=
      Function.update_self ..
    rw [prepared, channel.prepare_eq, shape, List.set_set]
  other := fun _ other => Function.update_of_ne other ..
  log := rfl

/-- The sum that `verify_out_len` compares is the length of the whole packet, whatever wraps. -/
theorem verifyOutLen_eq {len : BitVec 64}
    (current : transfer.current = channel.capacities.set channel.payload (len - channel.header))
    : verifyOutLen transfer = {
        transfer with
        aborted := transfer.aborted || transfer.copy.outLen.setWidth 64 != len
      } := by
  have sum : sumIovecLen transfer.current = len := by
    rw [current, channel.sum_eq, BitVec.add_comm, BitVec.sub_add_cancel]
  rw [verifyOutLen, sum]
  split
  next differs => simp [differs]
  next same => simp [not_not.mp same]

/-- A property of calls that only `writev` can fail to have if the others get full buffers. -/
structure Admits (channel : Channel) (property : Call → Prop) : Prop where
  readv : property (.readv channel.capacities)
  send : ∀ lens, property (.copy 0 lens)
  receive : property (.copy 1 channel.capacities)

/-- The copy to the card, and what its assertion compares. -/
theorem transmitCopy_eq {last : BitVec 64}
    (shape : transfer.current = channel.capacities.set channel.payload last) (round : Round)
    : transmitCopy channel transfer round = {
        micVirtioCopy (txrxPrepare channel.type true transfer (BitVec.ofInt 64 round.read))
          round.sent with
        aborted := transfer.aborted
          || round.sent.any fun outLen => outLen.setWidth 64 != BitVec.ofInt 64 round.read
      } := by
  have copied := copied shape true (BitVec.ofInt 64 round.read) round.sent
  rw [transmitCopy]
  cases sent : round.sent with
  | none => simp [micVirtioCopy, txrxPrepare, Transfer.call, Transfer.setLens]
  | some outLen =>
      rw [sent] at copied
      exact verifyOutLen_eq copied.current

structure Transmitted (channel : Channel) (before after : Transfer) (aborts : Bool) : Prop where
  aborted : after.aborted = aborts
  tx : aborts = false → after.lens .tx = channel.capacities
  rx : after.lens .rx = before.lens .rx
  log : ∀ property, Admits channel property →
    ((∀ call ∈ after.log, property call) ↔ ∀ call ∈ before.log, property call)

theorem Transmitted.trans {before middle after : Transfer} {aborts : Bool}
    (first : Transmitted channel before middle false)
    (second : Transmitted channel middle after aborts)
    : Transmitted channel before after aborts where
  aborted := second.aborted
  tx := second.tx
  rx := second.rx.trans first.rx
  log := fun property admits => (second.log property admits).trans (first.log property admits)

theorem transmitted_readPacket (ready : Ready channel transfer)
    : Transmitted channel transfer (readPacket transfer) false where
  aborted := ready.running
  tx := fun _ => ready.tx
  rx := rfl
  log := by
    intro property admits
    have first : property (.readv (transfer.lens .tx)) := ready.tx ▸ admits.readv
    simp only [readPacket, Transfer.call, Transfer.use, Transfer.current, List.forall_mem_cons,
      first, true_and]

theorem transmitted_transmitPacket (running : transfer.aborted = false)
    (direction : transfer.copy.iov = .tx) (tx : transfer.lens .tx = channel.capacities)
    (round : Round)
    : Transmitted channel transfer (transmitPacket channel transfer round)
        (round.sent.any fun outLen => outLen.setWidth 64 != BitVec.ofInt 64 round.read) := by
  have shape : transfer.current = channel.capacities.set channel.payload channel.full := by
    rw [channel.set_full, ← tx, ← direction, Transfer.current]
  have copied := copied shape true (BitVec.ofInt 64 round.read) round.sent
  have log (property : Call → Prop) (admits : Admits channel property)
      : (∀ call ∈ (transmitCopy channel transfer round).log, property call)
        ↔ ∀ call ∈ transfer.log, property call := by
    rw [transmitCopy_eq shape, copied.log, List.forall_mem_cons]
    exact and_iff_right (admits.send _)
  have rx : (transmitCopy channel transfer round).lens .rx = transfer.lens .rx := by
    rw [transmitCopy_eq shape]
    exact copied.other .rx (by simp [direction])
  have aborted : (transmitCopy channel transfer round).aborted
      = round.sent.any fun outLen => outLen.setWidth 64 != BitVec.ofInt 64 round.read := by
    rw [transmitCopy_eq shape, running, Bool.false_or]
  rw [transmitPacket]
  split
  next failed => exact ⟨aborted, fun passed => absurd failed (by simp [aborted, passed]), rx, log⟩
  next passed =>
    refine ⟨aborted, fun _ => ?_, rx, log⟩
    have sent : (transmitCopy channel transfer round).lens .tx
        = channel.capacities.set channel.payload
            (BitVec.ofInt 64 round.read - channel.header) := by
      rw [transmitCopy_eq shape, ← copied.current, Transfer.current, copied.iov, direction]
    rw [Transfer.setLens_self, sent, List.set_set, channel.set_full]

theorem transmitted (ready : Ready channel transfer) (round : Round)
    : Transmitted channel transfer (transmit channel transfer round) round.misreported := by
  have read := transmitted_readPacket ready
  rw [transmit]
  split
  next host =>
    split
    next positive =>
      have packet := transmitted_transmitPacket read.aborted rfl (read.tx rfl) round
      rw [Round.misreported, host, decide_eq_true positive]
      exact read.trans packet
    next nonpositive =>
      have none : round.misreported = false := by simp [Round.misreported, nonpositive]
      exact none ▸ read
  next host =>
    have none : round.misreported = false := by simp [Round.misreported, host]
    exact ⟨by rw [ready.running, none], fun _ => ready.tx, rfl, fun _ _ => .rfl⟩

def writtenLens (channel : Channel) (outLen : BitVec 32) : Lens :=
  channel.capacities.set channel.payload (outLen.setWidth 64 - channel.header)

theorem copied_receiveCopy (ready : Ready channel transfer) (result : Option (BitVec 32))
    : Copied channel (transfer.use .rx) (receiveCopy channel transfer result) 1
        (channel.full + channel.header) := by
  obtain ⟨last, shape⟩ := ready.rx
  have current : (transfer.use .rx).current
      = channel.capacities.set channel.payload last := shape
  exact copied current false _ result

/-- The copy from the card is offered the full buffers, and leaves a loop that can go on. -/
theorem receiveCopy_lens (ready : Ready channel transfer) (result : Option (BitVec 32))
    : (receiveCopy channel transfer result).lens .rx = channel.capacities := by
  have current := (copied_receiveCopy ready result).current
  rwa [BitVec.add_sub_cancel, channel.set_full] at current

theorem ready_receiveCopy (ready : Ready channel transfer) (result : Option (BitVec 32))
    : Ready channel (receiveCopy channel transfer result) where
  running := ready.running
  tx := ((copied_receiveCopy ready result).other .tx nofun).trans ready.tx
  rx := ⟨channel.full, by rw [receiveCopy_lens ready, channel.set_full]⟩

/-- The length that is set for `writev` always passes the assertion. -/
theorem receiveWrite_eq (ready : Ready channel transfer) (direction : transfer.copy.iov = .rx)
    : receiveWrite channel transfer
      = (transfer.setLens .rx (writtenLens channel transfer.copy.outLen)).call
          (.writev (writtenLens channel transfer.copy.outLen)) := by
  obtain ⟨last, shape⟩ := ready.rx
  have lens : (transfer.lens .rx).set channel.payload
      (transfer.copy.outLen.setWidth 64 - channel.header)
      = writtenLens channel transfer.copy.outLen := by
    rw [shape, List.set_set, writtenLens]
  have current : (transfer.setLens .rx (writtenLens channel transfer.copy.outLen)).current
      = writtenLens channel transfer.copy.outLen := by
    simp [Transfer.current, Transfer.setLens, direction]
  rw [receiveWrite, lens, verifyOutLen_eq current]
  simp [Transfer.setLens, Transfer.call, Transfer.current, direction, ready.running]

theorem ready_receiveWrite (ready : Ready channel transfer) (direction : transfer.copy.iov = .rx)
    : Ready channel (receiveWrite channel transfer) := by
  rw [receiveWrite_eq ready direction]
  exact ⟨ready.running, ready.tx, _,
    Transfer.setLens_self transfer .rx (writtenLens channel transfer.copy.outLen)⟩

/-- The loop over the packets of the card: it leaves no trace in the array for the other
direction, and writes each packet with the length reported for it.
-/
theorem ready_receive (ready : Ready channel transfer) (results : List (Option (BitVec 32)))
    : Ready channel (receive channel transfer results) := by
  induction results generalizing transfer with
  | nil => exact ready
  | cons result rest ih =>
      have copied := ready_receiveCopy ready result
      cases result with
      | none => exact copied
      | some outLen =>
          have written := ready_receiveWrite copied rfl
          rw [receive, written.running]
          exact ih written

variable {property : Call → Prop}

theorem receive_log_iff (admits : Admits channel property) (ready : Ready channel transfer)
    (results : List (Option (BitVec 32)))
    : (∀ call ∈ (receive channel transfer results).log, property call)
      ↔ (∀ call ∈ transfer.log, property call)
        ∧ ∀ outLen ∈ reports results, property (.writev (writtenLens channel outLen)) := by
  induction results generalizing transfer with
  | nil => simp [receive, reports]
  | cons result rest ih =>
      have copied := ready_receiveCopy ready result
      have copyLog : (∀ call ∈ (receiveCopy channel transfer result).log, property call)
          ↔ ∀ call ∈ transfer.log, property call := by
        have current : (receiveCopy channel transfer result).current = channel.capacities :=
          receiveCopy_lens ready result
        rw [(copied_receiveCopy ready result).log, current, List.forall_mem_cons]
        exact and_iff_right admits.receive
      cases result with
      | none => simp [receive, reports, copyLog]
      | some outLen =>
          have written := ready_receiveWrite copied rfl
          have writeLog
              : (receiveWrite channel (receiveCopy channel transfer (some outLen))).log
                = .writev (writtenLens channel outLen)
                  :: (receiveCopy channel transfer (some outLen)).log :=
            congrArg Transfer.log (receiveWrite_eq copied rfl)
          rw [receive, if_neg (by simp [written.running]), ih written, writeLog,
            List.forall_mem_cons, copyLog, reports, List.forall_mem_cons]
          tauto

/-! Whole runs -/

theorem Transmitted.ready {after : Transfer} (ready : Ready channel transfer)
    (sent : Transmitted channel transfer after false)
    : Ready channel after where
  running := sent.aborted
  tx := sent.tx rfl
  rx := by
    rw [sent.rx]
    exact ready.rx

/-- A round either stops the loop or leaves it ready for the next one. -/
theorem ready_serveRound (ready : Ready channel transfer) {round : Round}
    (passes : round.aborts = false)
    : Ready channel (serveRound channel transfer round) := by
  rw [serveRound]
  split
  next polled =>
    have sent := transmitted ready round
    rw [Round.aborts, polled, Bool.true_and] at passes
    rw [passes] at sent
    rw [if_neg (by simp [sent.aborted])]
    split
    · exact ready_receive (sent.ready ready) _
    · exact sent.ready ready
  next => exact ready

theorem serveRound_of_aborts (ready : Ready channel transfer) {round : Round}
    (aborts : round.aborts = true)
    : (serveRound channel transfer round).aborted = true
      ∧ ∀ property, Admits channel property →
        ((∀ call ∈ (serveRound channel transfer round).log, property call)
          ↔ ∀ call ∈ transfer.log, property call) := by
  rw [Round.aborts, Bool.and_eq_true] at aborts
  have sent := transmitted ready round
  rw [aborts.2] at sent
  rw [serveRound, if_pos aborts.1, if_pos sent.aborted]
  exact ⟨sent.aborted, sent.log⟩

theorem serveRound_log_iff (admits : Admits channel property) (ready : Ready channel transfer)
    {round : Round} (passes : round.aborts = false)
    : (∀ call ∈ (serveRound channel transfer round).log, property call)
      ↔ (∀ call ∈ transfer.log, property call)
        ∧ ∀ outLen ∈ round.reported, property (.writev (writtenLens channel outLen)) := by
  rw [serveRound, Round.reported]
  cases polled : round.polled with
  | false => simp
  | true =>
      have sent := transmitted ready round
      rw [Round.aborts, polled, Bool.true_and] at passes
      rw [passes] at sent
      rw [if_pos rfl, if_neg (by simp [sent.aborted])]
      cases round.cardReady with
      | false => simp [sent.log property admits]
      | true =>
          rw [if_pos rfl, receive_log_iff admits (sent.ready ready), sent.log property admits]
          rfl

/-- The calls of a run: only those of `writev` depend on what the card sends. -/
theorem serveRounds_log_iff (admits : Admits channel property) (ready : Ready channel transfer)
    (rounds : List Round)
    : (∀ call ∈ (serveRounds channel transfer rounds).log, property call)
      ↔ (∀ call ∈ transfer.log, property call)
        ∧ ∀ round ∈ rounds.takeWhile fun round => !round.aborts, ∀ outLen ∈ round.reported,
            property (.writev (writtenLens channel outLen)) := by
  induction rounds generalizing transfer with
  | nil => simp [serveRounds]
  | cons round rest ih =>
      rw [serveRounds]
      cases aborts : round.aborts with
      | true =>
          obtain ⟨aborted, log⟩ := serveRound_of_aborts ready aborts
          rw [if_pos aborted, log property admits]
          simp [aborts]
      | false =>
          have next := ready_serveRound ready aborts
          rw [if_neg (by simp [next.running]), ih next, serveRound_log_iff admits ready aborts,
            List.takeWhile_cons_of_pos (by simp [aborts]), List.forall_mem_cons, and_assoc]

theorem ready_start (channel : Channel) (copy : CopyDesc)
    : Ready channel (start channel copy) where
  running := rfl
  tx := rfl
  rx := ⟨channel.full, channel.set_full.symm⟩

theorem serve_log_iff (admits : Admits channel property) (copy : CopyDesc) (rounds : List Round)
    : (∀ call ∈ (serve channel copy rounds).log, property call)
      ↔ ∀ round ∈ rounds.takeWhile fun round => !round.aborts, ∀ outLen ∈ round.reported,
          property (.writev (writtenLens channel outLen)) := by
  rw [serve, serveRounds_log_iff admits (ready_start channel copy)]
  exact and_iff_right (List.forall_mem_nil _)

end Packet

theorem admits_offers (channel : Channel)
    : Admits channel (Call.Offers channel.capacities) where
  readv := rfl
  send := fun _ => trivial
  receive := rfl

theorem admits_writesWithin (channel : Channel)
    : Admits channel (Call.WritesWithin channel.capacities) where
  readv := trivial
  send := fun _ => trivial
  receive := trivial

/-- Every `readv` and every copy from the card is offered the full buffers. By the rule for the
calls of a channel (`serve_log_iff`).
-/
theorem offers_full (copy : CopyDesc) (rounds : List Round)
    : (∀ call ∈ (virtioNet copy rounds).log, call.Offers [sizeofVirtioNetHdr, maxNetPktSize])
      ∧ ∀ call ∈ (virtioConsole copy rounds).log, call.Offers [pageSize] := by
  have offers (channel : Channel)
      : ∀ call ∈ (serve channel copy rounds).log, call.Offers channel.capacities := by
    rw [serve_log_iff (admits_offers channel)]
    exact fun _ _ _ _ => trivial
  exact ⟨offers netChannel, offers consoleChannel⟩

/-- The length of a packet without its header is within the buffer if the packet has a header. -/
theorem payload_le_iff (outLen : BitVec 32)
    : outLen.setWidth 64 - sizeofVirtioNetHdr ≤ maxNetPktSize
      ↔ 10 ≤ outLen.toNat ∧ outLen.toNat ≤ 10 + 65600 := by
  have full : maxNetPktSize = 65600 := by decide
  rw [full, sizeofVirtioNetHdr]
  bv_omega

/-- `writev` stays within the buffers exactly if every packet of the card has a header: for a
shorter one the length wraps, and so does the sum in `verify_out_len`.
-/
theorem writesWithin_iff (copy : CopyDesc) (rounds : List Round)
    : (∀ call ∈ (virtioNet copy rounds).log,
        call.WritesWithin [sizeofVirtioNetHdr, maxNetPktSize])
      ↔ ∀ round ∈ rounds.takeWhile fun round => !round.aborts, ∀ outLen ∈ round.reported,
          10 ≤ outLen.toNat ∧ outLen.toNat ≤ 10 + 65600 := by
  rw [virtioNet]
  refine (serve_log_iff (admits_writesWithin netChannel) copy rounds).trans ?_
  refine forall₂_congr fun _ _ => forall₂_congr fun outLen _ => ?_
  exact (forall₂_set_iff netChannel.payload_eq).trans (payload_le_iff outLen)

def shortPacket : Round where
  polled := true
  hostReady := false
  read := 0
  sent := none
  cardReady := true
  received := [some 4]

def emptyCopy : CopyDesc where
  iov := .tx
  vrIdx := 0
  updateUsed := false
  outLen := 0

theorem shortPacket_escapes
    : (virtioNet emptyCopy [shortPacket]).aborted = false
      ∧ (virtioNet emptyCopy [shortPacket]).log = [.writev [10, -6], .copy 1 [10, 65600]]
      ∧ ¬ (Call.writev [10, -6]).WritesWithin [sizeofVirtioNetHdr, maxNetPktSize] := by
  refine ⟨by decide, by decide, ?_⟩
  intro within
  obtain ⟨_, payload, _⟩ := List.forall₂_cons.mp within |>.imp_right List.forall₂_cons.mp
  exact absurd payload (by decide)

end LinuxDoc.Mpssd.PacketTransfer
