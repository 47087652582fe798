import LinuxDoc.AmtVersion.HostInterface
import LinuxDoc.Foundations.History
import Mathlib.Tactic.Common

/-! The descriptor of `/dev/mei` over one run of `main`.
Four functions can tear the connection down, and the value -1 of `fd` is all that tells a
later one that this has happened already.
-/

namespace LinuxDoc.AmtVersion

open Foundations

inductive Call where
  | connect
  | write
  | select
  | read
  | close
  deriving DecidableEq

inductive Entry where
  | opens (fd : Int)
  | uses (call : Call) (fd : Int)
  deriving DecidableEq

structure Mei where
  initialized : Bool
  bufSize : Nat
  protVer : Nat
  fd : Int
  deriving DecidableEq

structure Connection where
  me : Mei
  log : List Entry
  deriving DecidableEq

def Connection.call (connection : Connection) (call : Call) : Connection :=
  { connection with log := .uses call connection.me.fd :: connection.log }

/-- What the system calls of one run return. The client's `max_msg_length` is the buffer
size of the exchange.
-/
structure Outcome where
  /-- `open` of the device, -1 if it fails -/
  opened : Int
  /-- `IOCTL_MEI_CONNECT_CLIENT` -/
  connect : Int
  /-- `protocol_version` of the client -/
  protocolVersion : Nat
  exchange : Exchange

def meiDeinit (connection : Connection) : Connection :=
  let connection := if connection.me.fd ≠ -1 then connection.call .close else connection
  { connection with me := ⟨false, 0, 0, -1⟩ }

def meiInit (connection : Connection) (reqProtocolVersion : Nat) (outcome : Outcome)
    : Connection × Bool :=
  let me := { connection.me with fd := outcome.opened }
  if outcome.opened = -1 then (meiDeinit { connection with me }, false)
  else
    let connection : Connection :=
      { me := { me with initialized := true }, log := .opens outcome.opened :: connection.log }
    let connection := connection.call .connect
    if outcome.connect ≠ 0 then (meiDeinit connection, false)
    else if reqProtocolVersion > 0 ∧ outcome.protocolVersion ≠ reqProtocolVersion then
      (meiDeinit connection, false)
    else
      let me :=
        {
          connection.me with
          bufSize := outcome.exchange.bufSize
          protVer := outcome.protocolVersion
        }
      ({ connection with me }, true)

def meiRecvMsg (connection : Connection) (exchange : Exchange) : Connection × Int :=
  let connection := connection.call .read
  (if exchange.read < 0 then meiDeinit connection else connection, exchange.read)

def meiSendMsg (connection : Connection) (exchange : Exchange) : Connection × Int :=
  let connection := connection.call .write
  let connection := if exchange.write < 0 then connection else connection.call .select
  let rc := exchange.meiSendMsg
  (if rc < 0 then meiDeinit connection else connection, rc)

/-- What `amt_host_if_call` does to the connection. It goes on to judge the reply after
`mei_recv_msg` has torn the connection down; its status is `Exchange.amtHostIfCall`.
-/
def amtHostIfCall (connection : Connection) (exchange : Exchange) : Connection :=
  if exchange.allocated = false then connection
  else
    let (connection, written) := meiSendMsg connection exchange
    if written ≠ sizeofMsgHeader then connection
    else (meiRecvMsg connection exchange).1

/-- `main` with an uninitialised client and version table: the connection at its end, and
its return value
-/
def main (host : Endian) (me : Mei) (ver : Buffer) (outcome : Outcome) : Connection × Nat :=
  let (connection, initialized) := meiInit ⟨me, []⟩ 0 outcome
  if initialized = false then (connection, 1)
  else
    let (status, _) := outcome.exchange.amtGetCodeVersions host ver
    -- `amt_host_if_deinit`, whatever the status
    let connection := meiDeinit (amtHostIfCall connection outcome.exchange)
    if status = statusEmptyResponse then (connection, 0)
    else if status = statusSuccess then (connection, 0)
    else (connection, 1)

/-- The descriptor is closed once, and no call gets it after that. -/
structure ClosedOnce (fd : Int) (log : List Entry) : Prop where
  once : log.count (.uses .close fd) = 1
  last : Throughout (fun entry earlier => ∀ call, entry = .uses call fd →
    .uses .close fd ∉ earlier) log

/-! Where the connection stands -/

structure IsOpen (fd : Int) (connection : Connection) : Prop where
  valid : fd ≠ -1
  current : connection.me.fd = fd
  unclosed : .uses .close fd ∉ connection.log

structure IsClosed (fd : Int) (connection : Connection) : Prop where
  current : connection.me.fd = -1
  closed : ClosedOnce fd connection.log

variable {fd : Int}

/-- As long as a descriptor was never closed, every call came before the close. -/
theorem throughout_of_unclosed {log : List Entry} (unclosed : .uses .close fd ∉ log)
    : Throughout (fun entry earlier => ∀ call, entry = .uses call fd →
        .uses .close fd ∉ earlier) log := by
  induction log with
  | nil => exact throughout_nil
  | cons entry earlier ih =>
      have before := List.not_mem_of_not_mem_cons unclosed
      exact ⟨fun _ _ => before, ih before⟩

variable {connection : Connection}

theorem IsOpen.call (isOpen : IsOpen fd connection) {call : Call} (keeps : call ≠ .close)
    : IsOpen fd (connection.call call) where
  valid := isOpen.valid
  current := isOpen.current
  unclosed := by
    intro closed
    rcases List.mem_cons.mp closed with now | before
    · cases now
      exact keeps rfl
    · exact isOpen.unclosed before

/-- The first `mei_deinit` closes the descriptor. -/
theorem IsOpen.meiDeinit (isOpen : IsOpen fd connection)
    : IsClosed fd (meiDeinit connection) := by
  have valid : connection.me.fd ≠ -1 := isOpen.current ▸ isOpen.valid
  have log : (AmtVersion.meiDeinit connection).log = .uses .close fd :: connection.log := by
    rw [AmtVersion.meiDeinit, if_pos valid, ← isOpen.current]
    rfl
  refine ⟨rfl, ?_, ?_⟩
  · rw [log, List.count_cons_self, List.count_eq_zero_of_not_mem isOpen.unclosed]
  · rw [log]
    exact ⟨fun _ _ => isOpen.unclosed, throughout_of_unclosed isOpen.unclosed⟩

/-- A later one does nothing to it. -/
theorem IsClosed.meiDeinit (isClosed : IsClosed fd connection)
    : IsClosed fd (meiDeinit connection) := by
  refine ⟨rfl, ?_⟩
  simp only [AmtVersion.meiDeinit, isClosed.current, ne_eq, not_true_eq_false, if_false]
  exact isClosed.closed

/-! What each function does to an open descriptor -/

/-- A successful `mei_init` leaves the descriptor in use, a failed one has closed it. -/
theorem meiInit_spec (me : Mei) (reqProtocolVersion : Nat) {outcome : Outcome}
    (opened : outcome.opened ≠ -1)
    : ((meiInit ⟨me, []⟩ reqProtocolVersion outcome).2 = true
        ∧ IsOpen outcome.opened (meiInit ⟨me, []⟩ reqProtocolVersion outcome).1)
      ∨ ((meiInit ⟨me, []⟩ reqProtocolVersion outcome).2 = false
        ∧ IsClosed outcome.opened (meiInit ⟨me, []⟩ reqProtocolVersion outcome).1) := by
  have isOpen (me : Mei) (current : me.fd = outcome.opened)
      : IsOpen outcome.opened ((⟨me, [.opens outcome.opened]⟩ : Connection).call .connect) :=
    IsOpen.call ⟨opened, current, by simp⟩ nofun
  rw [meiInit, if_neg opened]
  dsimp only
  split
  · exact .inr ⟨rfl, (isOpen _ rfl).meiDeinit⟩
  · split
    · exact .inr ⟨rfl, (isOpen _ rfl).meiDeinit⟩
    · exact .inl ⟨rfl, opened, rfl, (isOpen { me with fd := outcome.opened } rfl).unclosed⟩

/-- `mei_send_msg` tears the connection down exactly if its result is negative. -/
theorem IsOpen.meiSendMsg (isOpen : IsOpen fd connection) (exchange : Exchange)
    : ((meiSendMsg connection exchange).2 < 0 ∧ IsClosed fd (meiSendMsg connection exchange).1)
      ∨ (0 ≤ (meiSendMsg connection exchange).2
        ∧ IsOpen fd (meiSendMsg connection exchange).1) := by
  have written : IsOpen fd (connection.call .write) := isOpen.call nofun
  have waited
      : IsOpen fd
          (if exchange.write < 0 then connection.call .write
          else (connection.call .write).call .select) := by
    split
    · exact written
    · exact written.call nofun
  unfold AmtVersion.meiSendMsg
  dsimp only
  by_cases failed : exchange.meiSendMsg < 0
  · rw [if_pos failed]
    exact .inl ⟨failed, waited.meiDeinit⟩
  · rw [if_neg failed]
    exact .inr ⟨not_lt.mp failed, waited⟩

theorem IsOpen.meiRecvMsg (isOpen : IsOpen fd connection) (exchange : Exchange)
    : IsOpen fd (meiRecvMsg connection exchange).1
      ∨ IsClosed fd (meiRecvMsg connection exchange).1 := by
  have read : IsOpen fd (connection.call .read) := isOpen.call nofun
  unfold AmtVersion.meiRecvMsg
  dsimp only
  split
  · exact .inr read.meiDeinit
  · exact .inl read

/-- After a failed `mei_send_msg` nothing more is called: its result is not the size of a
command.
-/
theorem IsOpen.amtHostIfCall (isOpen : IsOpen fd connection) (exchange : Exchange)
    : IsOpen fd (amtHostIfCall connection exchange)
      ∨ IsClosed fd (amtHostIfCall connection exchange) := by
  unfold AmtVersion.amtHostIfCall
  split
  · exact .inl isOpen
  · dsimp only
    rcases isOpen.meiSendMsg exchange with ⟨negative, isClosed⟩ | ⟨_, sent⟩
    · rw [if_pos (by omega)]
      exact .inr isClosed
    · split
      · exact .inl sent
      · exact sent.meiRecvMsg exchange

/-- Whatever the system calls of a run return, a descriptor that `open` gives is closed once when
`main` returns, and nothing is done with it after that. By cases on where `mei_init` fails and on
whether the call has closed the descriptor.
-/
theorem main_closes_once (host : Endian) (me : Mei) (ver : Buffer) (outcome : Outcome)
    (opened : outcome.opened ≠ -1)
    : ClosedOnce outcome.opened (main host me ver outcome).1.log := by
  unfold main
  dsimp only
  rcases meiInit_spec me 0 opened with ⟨initialized, isOpen⟩ | ⟨failed, isClosed⟩
  · rw [if_neg (by simp [initialized])]
    have final : IsClosed outcome.opened
        (meiDeinit (amtHostIfCall (meiInit ⟨me, []⟩ 0 outcome).1 outcome.exchange)) := by
      rcases isOpen.amtHostIfCall outcome.exchange with still | torn
      · exact still.meiDeinit
      · exact torn.meiDeinit
    split_ifs <;> exact final.closed
  · rw [if_pos failed]
    exact isClosed.closed

def unreadReply : Outcome where
  opened := 3
  connect := 0
  protocolVersion := 1
  exchange := {
    bufSize := 4096
    bounded := by decide
    allocated := true
    write := 12
    errno := 0
    select := 1
    isSet := true
    read := -1
    readFits := by decide
    content := fun _ => 0
    heap := fun _ => 0
  }

/-- The read fails, and its close is the only one. -/
theorem unreadReply_closed
    : (main .little ⟨true, 7, 7, 7⟩ (fun _ => 0) unreadReply).1.log
        = [.uses .close 3, .uses .read 3, .uses .select 3, .uses .write 3, .uses .connect 3, .opens 3]
      ∧ ClosedOnce 3 (main .little ⟨true, 7, 7, 7⟩ (fun _ => 0) unreadReply).1.log :=
  ⟨by decide, main_closes_once .little ⟨true, 7, 7, 7⟩ (fun _ => 0) unreadReply (by decide)⟩

end LinuxDoc.AmtVersion
