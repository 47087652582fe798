import LinuxDoc.Getdelays.ReceiveLoop
import LinuxDoc.Getdelays.SendCmd

/-! One run of getdelays.
A cpumask that was registered is deregistered at the label `done`. The label `err` behind it
and the `err` macro leave without that, and both can be reached after the registration.
-/

namespace LinuxDoc.Getdelays

open Foundations Foundations.Loop

def taskstatsCmdGet : UInt8 := 1

def cgroupstatsCmdGet : UInt8 := 4

def attrRegisterCpumask : Nat := 3

def attrDeregisterCpumask : Nat := 4

def cgroupAttrFd : Nat := 1

inductive CmdType where
  | unspec
  | pid
  | tgid
  deriving DecidableEq

def CmdType.attr : CmdType → Nat
  | .unspec => 0
  | .pid => 1
  | .tgid => 2

/-- An option of the command line. Numbers are given as `atoi` reads them. -/
inductive Opt where
  /-- `-d`, `-i`, `-q` or `-v`, which only change what is printed -/
  | display
  | container
  | logfile
  | bufsize (size : Int)
  | cpumask (mask : CString)
  | tgid (tid : Int)
  | pid (tid : Int)
  /-- `-c`, with whether the signal set can be prepared and what `fork` returns -/
  | command (signals : Bool) (forked : Int)
  | listen
  /-- an option that `getopt` does not know -/
  | unknown

inductive Ending where
  | returned
  /-- The `err` macro. -/
  | err (code : Int)
  /-- Another call of `exit`. -/
  | exited (code : Int)
  /-- This is the child of `-c`, which leaves `main` in `execvp` or because that fails. -/
  | child
  deriving DecidableEq

structure Config where
  containerset : Bool
  writeFile : Bool
  maskset : Bool
  cpumask : List UInt8
  tid : Int
  cmdType : CmdType
  forking : Bool
  loop : Bool
  deriving DecidableEq

def Config.initial : Config where
  containerset := false
  writeFile := false
  maskset := false
  cpumask := []
  tid := 0
  cmdType := .unspec
  forking := false
  loop := false

def sizeofCpumask : Nat := 100 + 6 * 32

def parseOption (config : Config) : Opt → Except Ending Config
  | .display => .ok config
  | .container => .ok { config with containerset := true }
  | .logfile => .ok { config with writeFile := true }
  | .bufsize size => if size < 0 then .error (.err 1) else .ok config
  | .cpumask mask =>
      .ok { config with cpumask := mask.bytes.take (sizeofCpumask - 1), maskset := true }
  | .tgid tid => if tid = 0 then .error (.err 1) else .ok { config with tid, cmdType := .tgid }
  | .pid tid => if tid = 0 then .error (.err 1) else .ok { config with tid, cmdType := .pid }
  | .command signals forked =>
      if signals = false ∨ forked < 0 then .error (.err 1)
      else if forked = 0 then .error .child
      else .ok { config with tid := forked, cmdType := .pid, forking := true }
  | .listen => .ok { config with loop := true }
  | .unknown => .error (.exited (-1))

def parseOptions (config : Config) : List Opt → Except Ending Config
  | [] => .ok config
  | opt :: rest =>
      if config.forking then .ok config
      else
        match parseOption config opt with
        | .error ending => .error ending
        | .ok config => parseOptions config rest

structure Outcomes where
  mypid : Nat
  /-- `open` of the log file -/
  logfile : Int
  /-- `create_nl_socket` -/
  socket : Int
  /-- `send_cmd` in `get_family_id` -/
  family : Int
  familyReply : Received sizeofAns
  /-- `send_cmd` for the registration -/
  register : Int
  /-- `send_cmd` for the process -/
  tid : Int
  /-- `open` of the container -/
  container : Int
  /-- `send_cmd` for the container -/
  cgroup : Int
  /-- `send_cmd` for the deregistration -/
  deregister : Int
  replies : Replies
  writes : LogWrites

structure Sent where
  command : Command
  rc : Int
  deriving DecidableEq

inductive Goto where
  | receive
  | done
  | err
  deriving DecidableEq

section Main

variable (host : Endian) (config : Config) (outcomes : Outcomes) (id : Nat)

def Config.maskCommand (attr : Nat) : Command :=
  ⟨id, outcomes.mypid, taskstatsCmdGet, attr, config.cpumask ++ [0]⟩

def Config.processCommand : Command :=
  ⟨id, outcomes.mypid, taskstatsCmdGet, config.cmdType.attr,
    host.encode 4 (config.tid % 2 ^ 32).toNat⟩

def containerCommand : Command :=
  ⟨id, outcomes.mypid, cgroupstatsCmdGet, cgroupAttrFd, host.encode 4 outcomes.container.toNat⟩

def askContainer (sent : List Sent) : Goto × List Sent :=
  if config.containerset = true then
    if outcomes.container < 0 then (.err, sent)
    else
      let sent := sent ++ [⟨containerCommand host outcomes id, outcomes.cgroup⟩]
      if outcomes.cgroup < 0 then (.err, sent) else (.receive, sent)
  else if config.maskset = false ∧ config.tid = 0 then (.err, sent)
  else (.receive, sent)

def askProcess (sent : List Sent) : Goto × List Sent :=
  if config.tid ≠ 0 then
    if config.containerset = true then (.err, sent)
    else
      let sent := sent ++ [⟨config.processCommand host outcomes id, outcomes.tid⟩]
      if outcomes.tid < 0 then (.done, sent) else askContainer host config outcomes id sent
  else askContainer host config outcomes id sent

def setup : Goto × List Sent :=
  let sent : List Sent := [⟨familyCommand outcomes.mypid, outcomes.family⟩]
  if id = 0 then (.err, sent)
  else if config.maskset = true then
    let sent := sent ++ [⟨config.maskCommand outcomes id attrRegisterCpumask, outcomes.register⟩]
    if outcomes.register < 0 then (.err, sent) else askProcess host config outcomes id sent
  else askProcess host config outcomes id sent

def finish (sent : List Sent) : Ending × List Sent :=
  if config.maskset = true then
    let sent :=
      sent ++ [⟨config.maskCommand outcomes id attrDeregisterCpumask, outcomes.deregister⟩]
    if outcomes.deregister < 0 then (.err outcomes.deregister, sent) else (.returned, sent)
  else (.returned, sent)

def Config.settings : Settings :=
  ⟨config.loop, config.writeFile && outcomes.logfile != 0⟩

def Outcomes.familyId : Nat :=
  (getFamilyId host outcomes.family outcomes.familyReply).id

/-- `main` after the options, where `none` means that the budget for the receive loop was too
small
-/
def serve (fuel : Nat) : Option (Ending × List Sent) :=
  match setup host config outcomes (outcomes.familyId host) with
  | (.err, sent) => some (.returned, sent)
  | (.done, sent) => some (finish config outcomes (outcomes.familyId host) sent)
  | (.receive, sent) =>
      (run (receivePass (config.settings outcomes) outcomes.writes outcomes.replies) fuel
        (.receiving 0 0 : ReceiveState host)).map
        fun
        | .writeError => (.err 1, sent)
        | .endOfReply | .done => finish config outcomes (outcomes.familyId host) sent

def main (opts : List Opt) (fuel : Nat) : Option (Ending × List Sent) :=
  match parseOptions .initial opts with
  | .error ending => some (ending, [])
  | .ok config =>
      if config.writeFile = true ∧ outcomes.logfile = -1 then some (.exited 1, [])
      else if outcomes.socket < 0 then some (.err 1, [])
      else serve host config outcomes fuel

end Main

/-! What is asked of a run -/

def Ending.Leaves : Ending → Prop
  | .returned | .err _ => True
  | .exited _ | .child => False

def Command.Registers (command : Command) : Prop :=
  command.genlCmd = taskstatsCmdGet ∧ command.nlaType = attrRegisterCpumask

/-- For every registration that was sent, the deregistration of the same mask was tried. -/
def Deregisters (sent : List Sent) : Prop :=
  ∀ entry ∈ sent, entry.command.Registers → 0 ≤ entry.rc →
    ∃ other ∈ sent, other.command = { entry.command with nlaType := attrDeregisterCpumask }

/-- However long the run takes, it deregisters. -/
def AlwaysDeregisters (host : Endian) (outcomes : Outcomes) (opts : List Opt) : Prop :=
  ∀ fuel ending sent, main host outcomes opts fuel = some (ending, sent) → ending.Leaves →
    Deregisters sent

structure Registration (host : Endian) (outcomes : Outcomes) (opts : List Opt)
    (config : Config) : Prop where
  parsed : parseOptions .initial opts = .ok config
  logfile : ¬ (config.writeFile = true ∧ outcomes.logfile = -1)
  socket : 0 ≤ outcomes.socket
  family : outcomes.familyId host ≠ 0
  maskset : config.maskset = true
  sent : 0 ≤ outcomes.register

/-- What then keeps `main` on the way to `done`: not both a process and a container are given,
the container can be opened and asked for, and every record can be written to the log.
-/
structure KeepsToDone (host : Endian) (outcomes : Outcomes) (config : Config) : Prop where
  exclusive : config.tid = 0 ∨ config.containerset = false
  container : config.containerset = true → 0 ≤ outcomes.container ∧ 0 ≤ outcomes.cgroup
  log : (config.tid ≠ 0 → 0 ≤ outcomes.tid) →
    ¬ RefusesRecord (config.settings outcomes) outcomes.writes outcomes.replies host

section Setup

variable {host : Endian} {config : Config} {outcomes : Outcomes} {id : Nat}

/-- What is asked for the container is added to what was sent. -/
theorem askContainer_sent (sent : List Sent)
    : ∃ asked, asked.Sublist [⟨containerCommand host outcomes id, outcomes.cgroup⟩]
        ∧ (askContainer host config outcomes id sent).2 = sent ++ asked := by
  have unasked : sent = sent ++ [] := (List.append_nil sent).symm
  unfold askContainer
  split_ifs
  · exact ⟨[], List.nil_sublist _, unasked⟩
  · exact ⟨_, .refl _, rfl⟩
  · exact ⟨_, .refl _, rfl⟩
  · exact ⟨[], List.nil_sublist _, unasked⟩
  · exact ⟨[], List.nil_sublist _, unasked⟩

theorem askProcess_sent (sent : List Sent)
    : ∃ asked,
        asked.Sublist
          [
            ⟨config.processCommand host outcomes id, outcomes.tid⟩,
            ⟨containerCommand host outcomes id, outcomes.cgroup⟩
          ]
        ∧ (askProcess host config outcomes id sent).2 = sent ++ asked := by
  unfold askProcess
  split_ifs
  · exact ⟨[], List.nil_sublist _, (List.append_nil sent).symm⟩
  · exact ⟨_, (List.nil_sublist _).cons_cons _, rfl⟩
  · obtain ⟨asked, among, added⟩ := askContainer_sent
      (sent ++ [⟨config.processCommand host outcomes id, outcomes.tid⟩])
    exact ⟨_, among.cons_cons _, added.trans (List.append_assoc ..)⟩
  · obtain ⟨asked, among, added⟩ := askContainer_sent sent
    exact ⟨asked, among.cons _, added⟩

/-- What is sent before the receive loop: never a deregistration, and a registration only for
the mask of the options.
-/
structure Preliminary (config : Config) (outcomes : Outcomes) (id : Nat) (entry : Sent)
    : Prop where
  kept : entry.command.nlaType ≠ attrDeregisterCpumask
  registration : entry.command.Registers →
    config.maskset = true ∧ id ≠ 0
    ∧ entry = ⟨config.maskCommand outcomes id attrRegisterCpumask, outcomes.register⟩

theorem preliminary_family
    : Preliminary config outcomes id ⟨familyCommand outcomes.mypid, outcomes.family⟩ where
  kept := by simp [familyCommand, attrDeregisterCpumask]
  registration := by simp [familyCommand, Command.Registers, taskstatsCmdGet]

theorem preliminary_register (maskset : config.maskset = true) (known : id ≠ 0)
    : Preliminary config outcomes id
        ⟨config.maskCommand outcomes id attrRegisterCpumask, outcomes.register⟩ where
  kept := by simp [Config.maskCommand, attrRegisterCpumask, attrDeregisterCpumask]
  registration := fun _ => ⟨maskset, known, rfl⟩

theorem preliminary_process
    : Preliminary config outcomes id ⟨config.processCommand host outcomes id, outcomes.tid⟩ := by
  have attr : config.cmdType.attr ≠ 4 ∧ config.cmdType.attr ≠ 3 := by
    cases config.cmdType <;> decide
  exact ⟨attr.1, fun registers => absurd registers.2 attr.2⟩

theorem preliminary_container
    : Preliminary config outcomes id ⟨containerCommand host outcomes id, outcomes.cgroup⟩ where
  kept := by simp [containerCommand, cgroupAttrFd, attrDeregisterCpumask]
  registration := by
    simp [containerCommand, Command.Registers, cgroupAttrFd, attrRegisterCpumask]

theorem mem_setup {entry : Sent} (member : entry ∈ (setup host config outcomes id).2)
    : Preliminary config outcomes id entry := by
  have asked {sent : List Sent} (before : ∀ entry ∈ sent, Preliminary config outcomes id entry)
      (member : entry ∈ (askProcess host config outcomes id sent).2)
      : Preliminary config outcomes id entry := by
    obtain ⟨asked, among, added⟩ := askProcess_sent sent
    rw [added] at member
    rcases List.mem_append.mp member with earlier | new
    · exact before entry earlier
    · rcases List.mem_pair.mp (among.subset new) with rfl | rfl
      · exact preliminary_process
      · exact preliminary_container
  have first : ∀ entry ∈ [(⟨familyCommand outcomes.mypid, outcomes.family⟩ : Sent)],
      Preliminary config outcomes id entry :=
    List.forall_mem_singleton.mpr preliminary_family
  have second (maskset : config.maskset = true) (known : id ≠ 0)
      : ∀ entry ∈ [(⟨familyCommand outcomes.mypid, outcomes.family⟩ : Sent)]
          ++ [⟨config.maskCommand outcomes id attrRegisterCpumask, outcomes.register⟩],
        Preliminary config outcomes id entry :=
    List.forall_mem_append.mpr
      ⟨first, List.forall_mem_singleton.mpr (preliminary_register maskset known)⟩
  unfold setup at member
  split_ifs at member with unknown maskset refused
  · exact first entry member
  · exact second maskset unknown entry member
  · exact asked (second maskset unknown) member
  · exact asked first member

/-- The registration, once it is sent, stays among what was sent. -/
theorem register_mem_setup (maskset : config.maskset = true) (known : id ≠ 0)
    : ⟨config.maskCommand outcomes id attrRegisterCpumask, outcomes.register⟩
      ∈ (setup host config outcomes id).2 := by
  rw [setup, if_neg known, if_pos maskset]
  dsimp only
  split_ifs
  · simp
  · obtain ⟨asked, _, added⟩ := askProcess_sent
      [⟨familyCommand outcomes.mypid, outcomes.family⟩,
        ⟨config.maskCommand outcomes id attrRegisterCpumask, outcomes.register⟩]
    rw [List.cons_append, List.nil_append, added]
    simp

/-- Where `main` goes on after a registration. -/
theorem setup_goto (maskset : config.maskset = true) (known : id ≠ 0)
    (sent : 0 ≤ outcomes.register)
    : (setup host config outcomes id).1
      = if config.tid ≠ 0 then
          if config.containerset = true then .err
          else if outcomes.tid < 0 then .done
          else .receive
        else if config.containerset = true ∧ (outcomes.container < 0 ∨ outcomes.cgroup < 0) then
          .err
        else .receive := by
  grind [setup, askProcess, askContainer]

/-- What reaches `done` is deregistered. -/
theorem deregisters_finish
    : Deregisters (finish config outcomes id (setup host config outcomes id).2).2 := by
  by_cases maskset : config.maskset = true
  · have sent : (finish config outcomes id (setup host config outcomes id).2).2
        = (setup host config outcomes id).2
          ++ [⟨config.maskCommand outcomes id attrDeregisterCpumask, outcomes.deregister⟩] := by
      rw [finish, if_pos maskset]
      dsimp only
      split <;> rfl
    rw [sent]
    intro entry member registers _
    rcases List.mem_append.mp member with before | last
    · obtain ⟨_, _, rfl⟩ := (mem_setup before).registration registers
      exact ⟨_, List.mem_append_right _ (List.mem_singleton_self _), rfl⟩
    · obtain rfl := List.mem_singleton.mp last
      exact absurd registers.2 (by simp [Config.maskCommand, attrDeregisterCpumask,
        attrRegisterCpumask])
  · rw [finish, if_neg maskset]
    intro entry member registers _
    exact absurd ((mem_setup member).registration registers).1 maskset

/-- What does not is not, if it was registered. -/
theorem deregisters_setup_iff
    : Deregisters (setup host config outcomes id).2
      ↔ ¬ (config.maskset = true ∧ id ≠ 0 ∧ 0 ≤ outcomes.register) := by
  constructor
  · intro deregisters registered
    rcases registered with ⟨maskset, known, sent⟩
    obtain ⟨other, member, same⟩ :=
      deregisters _ (register_mem_setup maskset known) ⟨rfl, rfl⟩ sent
    exact (mem_setup member).kept (by rw [same])
  · intro unregistered entry member registers sent
    obtain ⟨maskset, known, rfl⟩ := (mem_setup member).registration registers
    exact absurd ⟨maskset, known, sent⟩ unregistered

end Setup

section Serve

variable {host : Endian} {config : Config} {outcomes : Outcomes} {fuel : Nat} {ending : Ending}
  {sent : List Sent}

/-- A run ends at `done`, or without it: at `err`, or because a record is refused. -/
theorem serve_cases (served : serve host config outcomes fuel = some (ending, sent))
    : sent = (finish config outcomes (outcomes.familyId host)
        (setup host config outcomes (outcomes.familyId host)).2).2
      ∨ sent = (setup host config outcomes (outcomes.familyId host)).2
        ∧ ((setup host config outcomes (outcomes.familyId host)).1 = .err
          ∨ (setup host config outcomes (outcomes.familyId host)).1 = .receive
            ∧ RefusesRecord (config.settings outcomes) outcomes.writes outcomes.replies host) := by
  unfold serve at served
  generalize setup host config outcomes (outcomes.familyId host) = stage at *
  obtain ⟨goto, before⟩ := stage
  cases goto with
  | err =>
      cases served
      exact .inr ⟨rfl, .inl rfl⟩
  | done =>
      rw [Option.some.injEq] at served
      exact .inl (by rw [served])
  | receive =>
      obtain ⟨exit, returned, result⟩ := Option.map_eq_some_iff.mp served
      cases exit with
      | writeError =>
          cases result
          exact .inr ⟨rfl, .inr ⟨rfl, writeError_iff.mp ⟨fuel, returned⟩⟩⟩
      | endOfReply => exact .inl (congrArg Prod.snd result).symm
      | done => exact .inl (congrArg Prod.snd result).symm

/-- Each way that leaves without `done` is taken. -/
theorem serve_err (err : (setup host config outcomes (outcomes.familyId host)).1 = .err)
    : serve host config outcomes fuel
      = some (.returned, (setup host config outcomes (outcomes.familyId host)).2) := by
  unfold serve
  generalize setup host config outcomes (outcomes.familyId host) = stage at *
  obtain ⟨goto, before⟩ := stage
  obtain rfl : goto = .err := err
  rfl

theorem serve_refused
    (receive : (setup host config outcomes (outcomes.familyId host)).1 = .receive)
    (refused : RefusesRecord (config.settings outcomes) outcomes.writes outcomes.replies host)
    : ∃ fuel, serve host config outcomes fuel
        = some (.err 1, (setup host config outcomes (outcomes.familyId host)).2) := by
  obtain ⟨fuel, returned⟩ := writeError_iff.mpr refused
  refine ⟨fuel, ?_⟩
  unfold serve
  generalize setup host config outcomes (outcomes.familyId host) = stage at *
  obtain ⟨goto, before⟩ := stage
  obtain rfl : goto = .receive := receive
  simp only [returned, Option.map_some]

end Serve

/-- Without an error on the way, a registered mask comes to `done` or to the receive loop. -/
theorem KeepsToDone.setup_goto {host : Endian} {outcomes : Outcomes} {opts : List Opt}
    {config : Config} (keeps : KeepsToDone host outcomes config)
    (registration : Registration host outcomes opts config)
    : (setup host config outcomes (outcomes.familyId host)).1 ≠ .err
      ∧ ((setup host config outcomes (outcomes.familyId host)).1 = .receive →
        config.tid ≠ 0 → 0 ≤ outcomes.tid) := by
  have exclusive := keeps.exclusive
  have container := keeps.container
  rw [Getdelays.setup_goto registration.maskset registration.family registration.sent]
  grind

/-- A registered cpumask is deregistered, in every run that ends, exactly if the options and
outcomes keep `main` on the way to `done` after the registration. By cases on the ways out of
`main`, before and behind the registration.
-/
theorem alwaysDeregisters_iff (host : Endian) (outcomes : Outcomes) (opts : List Opt)
    : AlwaysDeregisters host outcomes opts
      ↔ ∀ config, Registration host outcomes opts config → KeepsToDone host outcomes config := by
  constructor
  · intro always config registration
    have started (fuel : Nat)
        : main host outcomes opts fuel = serve host config outcomes fuel := by
      simp only [main, registration.parsed, if_neg registration.logfile,
        if_neg (not_lt.mpr registration.socket)]
    have stays : ¬ Deregisters (setup host config outcomes (outcomes.familyId host)).2 :=
      fun deregisters => deregisters_setup_iff.mp deregisters
        ⟨registration.maskset, registration.family, registration.sent⟩
    have noErr : (setup host config outcomes (outcomes.familyId host)).1 ≠ .err :=
      fun err => stays (always 0 _ _ ((started 0).trans (serve_err err)) trivial)
    have accepted
        : (setup host config outcomes (outcomes.familyId host)).1 = .receive →
          ¬ RefusesRecord (config.settings outcomes) outcomes.writes outcomes.replies host := by
      intro receive refused
      obtain ⟨fuel, served⟩ := serve_refused receive refused
      exact stays (always fuel _ _ ((started fuel).trans served) trivial)
    rw [setup_goto registration.maskset registration.family registration.sent] at noErr accepted
    exact ⟨by grind, by grind, by grind⟩
  · intro keeps fuel ending sent returned _
    unfold main at returned
    cases parsed : parseOptions .initial opts with
    | error early =>
        rw [parsed] at returned
        cases returned
        exact nofun
    | ok config =>
        rw [parsed] at returned
        dsimp only at returned
        split_ifs at returned with logfile socket
        · cases returned
          exact nofun
        · cases returned
          exact nofun
        · rcases serve_cases returned with rfl | ⟨rfl, left⟩
          · exact deregisters_finish
          · refine deregisters_setup_iff.mpr fun registered => ?_
            have registration : Registration host outcomes opts config :=
              ⟨parsed, logfile, not_lt.mp socket, registered.2.1, registered.1, registered.2.2⟩
            have kept := keeps config registration
            obtain ⟨noErr, asked⟩ := kept.setup_goto registration
            rcases left with err | ⟨receive, refused⟩
            · exact noErr err
            · exact kept.log (asked receive) refused

def quietOutcomes : Outcomes where
  mypid := 7
  logfile := 3
  socket := 4
  family := 0
  familyReply := taskstatsReply
  register := 0
  tid := 0
  container := 5
  cgroup := 0
  deregister := 0
  replies := fun _ => ⟨-1, fun _ => 0, by decide⟩
  writes := willingLog

/-- `-m 0 -p 1 -C path`: the mask is registered before the options are found to exclude each
other, and stays registered.
-/
theorem maskWithBoth_stays
    : main .little quietOutcomes [.cpumask ⟨[48], by decide⟩, .pid 1, .container] 0
        = some (.returned, [⟨familyCommand 7, 0⟩, ⟨⟨23, 7, 1, 3, [48, 0]⟩, 0⟩])
      ∧ ¬ AlwaysDeregisters .little quietOutcomes
          [.cpumask ⟨[48], by decide⟩, .pid 1, .container] := by
  have result
      : main .little quietOutcomes [.cpumask ⟨[48], by decide⟩, .pid 1, .container] 0
        = some (.returned, [⟨familyCommand 7, 0⟩, ⟨⟨23, 7, 1, 3, [48, 0]⟩, 0⟩]) := by
    decide
  refine ⟨result, fun always => ?_⟩
  obtain ⟨other, member, same⟩ :=
    always 0 _ _ result trivial ⟨⟨23, 7, 1, 3, [48, 0]⟩, 0⟩ (by decide) ⟨rfl, rfl⟩ (by decide)
  revert same
  revert other
  decide

end LinuxDoc.Getdelays
