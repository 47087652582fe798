import LinuxDoc.Foundations.Overwrite
import LinuxDoc.Getdelays.AttributeWalk

/-! How getdelays sends a command.
`send_cmd` builds the message in a structure on the stack and stores to its fields one by
one. What it does not store to is sent with what the stack held before.
-/

namespace LinuxDoc.Getdelays

open Foundations

def nlmFRequest : Nat := 1

def eagain : Nat := 11

/-- The arguments of `send_cmd` that go into the message; `nla_len` is the length of the
data.
-/
structure Command where
  nlmsgType : Nat
  nlmsgPid : Nat
  genlCmd : UInt8
  nlaType : Nat
  nlaData : List UInt8
  deriving DecidableEq

def familyCommand (mypid : Nat) : Command where
  nlmsgType := 16
  nlmsgPid := mypid
  genlCmd := 3
  nlaType := 2
  nlaData := [84, 65, 83, 75, 83, 84, 65, 84, 83, 0]

namespace Command

variable (host : Endian) (cmd : Command)

def naLen : Nat :=
  (cmd.nlaData.length + 1 + nlaHdrlen) % 2 ^ 16

def msgLen : Nat :=
  nlmsgHdrlen + genlHdrlen + nlaAlign cmd.naLen

def stores : List (Store UInt8) :=
  [
    ⟨0, host.encode 4 (nlmsgHdrlen + genlHdrlen)⟩,
    ⟨4, host.encode 2 cmd.nlmsgType⟩,
    ⟨6, host.encode 2 nlmFRequest⟩,
    ⟨8, host.encode 4 0⟩,
    ⟨12, host.encode 4 cmd.nlmsgPid⟩,
    ⟨16, [cmd.genlCmd]⟩,
    ⟨17, [0x1]⟩,
    ⟨genlmsgData + 2, host.encode 2 cmd.nlaType⟩,
    ⟨genlmsgData, host.encode 2 cmd.naLen⟩,
    ⟨genlmsgData + nlaHdrlen, cmd.nlaData⟩,
    ⟨0, host.encode 4 cmd.msgLen⟩
  ]

def message (msg : Msg) : Msg :=
  overwrite msg (cmd.stores host)

end Command

structure SendResult where
  r : Int
  errno : Nat

/-- The bytes that each `sendto` was given, and what `send_cmd` returns, if it has. -/
structure Sending where
  calls : List (List UInt8)
  rc : Option Int
  deriving DecidableEq

def sendLoop (msg : Msg) (buf buflen : Nat) : List SendResult → Sending
  | [] => ⟨[(List.range buflen).map fun i => msg (buf + i)], none⟩
  | result :: rest =>
      let call := (List.range buflen).map fun i => msg (buf + i)
      if buflen ≤ result.r then ⟨[call], some 0⟩
      else if 0 < result.r then
        let later := sendLoop msg (buf + result.r.toNat) (buflen - result.r.toNat) rest
        ⟨call :: later.calls, later.rc⟩
      else if result.errno ≠ eagain then ⟨[call], some (-1)⟩
      else
        let later := sendLoop msg buf buflen rest
        ⟨call :: later.calls, later.rc⟩

def sendCmd (host : Endian) (cmd : Command) (msg : Msg) (results : List SendResult) : Sending :=
  sendLoop (cmd.message host msg) 0 cmd.msgLen results

/-- The offsets that are sent without being stored to: the reserved field of the generic
header, and the extra byte behind the data with its padding.
-/
def Command.residue (cmd : Command) : List Nat :=
  [18, 19] ++ (List.range (nlaAlign cmd.naLen - nlaHdrlen - cmd.nlaData.length)).map
    (genlmsgData + nlaHdrlen + cmd.nlaData.length + ·)

/-! What is sent of two initial contents -/

theorem Command.naLen_eq {cmd : Command} (small : cmd.nlaData.length ≤ 1000)
    : cmd.naLen = cmd.nlaData.length + 5 := by
  unfold Command.naLen nlaHdrlen
  omega

/-- The fields of the headers leave two bytes between them, and the data is the last. -/
theorem Command.uncovered_iff (host : Endian) (cmd : Command) (i : Nat)
    : (∀ store ∈ cmd.stores host, ¬ store.Covers i)
      ↔ i = 18 ∨ i = 19 ∨ genlmsgData + nlaHdrlen + cmd.nlaData.length ≤ i := by
  simp only [Command.stores, List.forall_mem_cons, List.not_mem_nil, false_imp_iff,
    implies_true, and_true, Store.Covers, Endian.encode_length, List.length_singleton,
    genlmsgData, nlmsgHdrlen, genlHdrlen, nlaHdrlen]
  omega

/-- The residue is what no store covers. -/
theorem Command.mem_residue_iff (host : Endian) {cmd : Command}
    (small : cmd.nlaData.length ≤ 1000) (i : Nat)
    : i ∈ cmd.residue ↔ i < cmd.msgLen ∧ ∀ store ∈ cmd.stores host, ¬ store.Covers i := by
  have room := nlaAlign_ge cmd.naLen
  have sized := cmd.naLen_eq small
  simp only [cmd.uncovered_iff host, Command.residue, Command.msgLen, List.mem_append,
    List.mem_cons, List.not_mem_nil, or_false, List.mem_map, List.mem_range, genlmsgData,
    nlmsgHdrlen, genlHdrlen, nlaHdrlen]
  constructor
  · intro member
    rcases member with (rfl | rfl) | ⟨k, inside, rfl⟩ <;> omega
  · rintro ⟨inside, rfl | rfl | behind⟩
    · exact .inl (.inl rfl)
    · exact .inl (.inr rfl)
    · exact .inr ⟨i - (24 + cmd.nlaData.length), by omega, by omega⟩

/-- Two messages agree where they are sent exactly if the contents before agree in the
residue.
-/
theorem Command.message_eq_iff (host : Endian) {cmd : Command}
    (small : cmd.nlaData.length ≤ 1000) (left right : Msg)
    : (∀ i < cmd.msgLen, cmd.message host left i = cmd.message host right i)
      ↔ ∀ i ∈ cmd.residue, left i = right i := by
  simp only [Command.message, overwrite_eq_iff, cmd.mem_residue_iff host small]
  constructor
  · intro same i residue
    exact same i residue.1 residue.2
  · intro same i inside free
    exact same i ⟨inside, free⟩

/-- The calls depend only on the part of the message that is left to send. -/
theorem sendLoop_congr {left right : Msg} {buf buflen : Nat}
    (same : ∀ i < buf + buflen, left i = right i) (results : List SendResult)
    : sendLoop left buf buflen results = sendLoop right buf buflen results := by
  have call {buf buflen : Nat} (same : ∀ i < buf + buflen, left i = right i)
      : (List.range buflen).map (fun i => left (buf + i))
        = (List.range buflen).map fun i => right (buf + i) := by
    apply List.map_congr_left
    intro i member
    exact same (buf + i) (Nat.add_lt_add_left (List.mem_range.mp member) buf)
  induction results generalizing buf buflen with
  | nil => rw [sendLoop, sendLoop, call same]
  | cons result rest ih =>
      rw [sendLoop, sendLoop, call same]
      dsimp only
      split_ifs with done partly failed
      · rfl
      · have later : ∀ i < buf + result.r.toNat + (buflen - result.r.toNat),
            left i = right i := by
          intro i inside
          exact same i (by omega)
        rw [ih later]
      · rfl
      · rw [ih same]

/-- The first call is given the whole message. -/
theorem sendLoop_first (msg : Msg) (buflen : Nat) (results : List SendResult)
    : ∃ later, (sendLoop msg 0 buflen results).calls = (List.range buflen).map msg :: later := by
  cases results with
  | nil => exact ⟨[], by simp [sendLoop]⟩
  | cons result rest =>
      simp only [sendLoop, Nat.zero_add]
      split_ifs
      · exact ⟨[], rfl⟩
      · exact ⟨_, rfl⟩
      · exact ⟨[], rfl⟩
      · exact ⟨_, rfl⟩

/-- Whatever the calls return, the bytes sent from two contents of the structure are the same
exactly if these agree in the residue. The first call is given the whole message, the others parts
of it.
-/
theorem sendCmd_calls_eq_iff (host : Endian) (cmd : Command)
    (small : cmd.nlaData.length ≤ 1000) (results : List SendResult) (left right : Msg)
    : (sendCmd host cmd left results).calls = (sendCmd host cmd right results).calls
      ↔ ∀ i ∈ cmd.residue, left i = right i := by
  rw [← cmd.message_eq_iff host small]
  constructor
  · intro same i inside
    obtain ⟨_, first⟩ := sendLoop_first (cmd.message host left) cmd.msgLen results
    obtain ⟨_, second⟩ := sendLoop_first (cmd.message host right) cmd.msgLen results
    rw [sendCmd, sendCmd, first, second] at same
    exact List.map_inj_left.mp (List.cons.inj same).1 i (List.mem_range.mpr inside)
  · intro same
    rw [sendCmd, sendCmd, sendLoop_congr (by simpa using same)]

def familyRequest : Command :=
  familyCommand 7

/-- Contents that differ only behind the message are not told apart. -/
theorem familyRequest_hides
    : familyRequest.residue = [18, 19, 34, 35]
      ∧ (sendCmd .little familyRequest (fun _ => 0) [⟨20, 0⟩, ⟨16, 0⟩]).calls
        = (sendCmd .little familyRequest (fun i => if i < 36 then 0 else 1)
            [⟨20, 0⟩, ⟨16, 0⟩]).calls :=
  ⟨
    by decide,
    (sendCmd_calls_eq_iff .little familyRequest (by decide) [⟨20, 0⟩, ⟨16, 0⟩] (fun _ => 0)
      (fun i => if i < 36 then 0 else 1)).mpr (by decide)
  ⟩

/-- Four bytes of the request for the family are what the stack held. -/
theorem familyRequest_leaks
    : (sendCmd .little familyRequest (fun _ => 0xa5) [⟨36, 0⟩]).calls
        = [
            [
              36, 0, 0, 0, 16, 0, 1, 0, 0, 0, 0, 0, 7, 0, 0, 0, 3, 1, 0xa5, 0xa5, 15, 0, 2, 0,
              84, 65, 83, 75, 83, 84, 65, 84, 83, 0, 0xa5, 0xa5
            ]
          ]
      ∧ ¬ ∀ left right : Msg, (sendCmd .little familyRequest left [⟨36, 0⟩]).calls
          = (sendCmd .little familyRequest right [⟨36, 0⟩]).calls := by
  refine ⟨by decide, fun same => ?_⟩
  have zeros := same (fun _ => 0) (fun _ => 0xa5)
  revert zeros
  decide

end LinuxDoc.Getdelays
