import Mathlib.Data.BitVec

/-! The command line of txtimestamp.
The checks after the loop over the options are all that stands between the text behind `-l`
and the packets that are built from it.
-/

namespace LinuxDoc.TxTimestamp

inductive SockType where
  | stream
  | dgram
  | raw
  deriving DecidableEq, Repr

inductive IpProto where
  | tcp
  | udp
  | raw
  deriving DecidableEq, Repr

structure Config where
  cfgProto : SockType
  cfgIpproto : IpProto
  doIpv4 : Bool
  doIpv6 : Bool
  cfgPayloadLen : BitVec 32
  destPort : UInt16
  deriving DecidableEq

def Config.initial : Config :=
  {
    cfgProto := .stream
    cfgIpproto := .tcp
    doIpv4 := true
    doIpv6 := true
    cfgPayloadLen := 10
    destPort := 9000
  }

/-- The options in the order of the switch; `strtoul` has been applied to the arguments. -/
inductive Opt where
  | ipv4
  | ipv6
  | raw
  | rawHdrincl
  | udp
  | length (value : Nat)
  | port (value : Nat)
  | help
  | unknown
  deriving DecidableEq, Repr

inductive ParseError where
  | usage
  | error (message : String)
  deriving DecidableEq, Repr

def applyOpt (config : Config) (protoCount : Nat) : Opt → Except ParseError (Config × Nat)
  | .ipv4 => .ok ({ config with doIpv6 := false }, protoCount)
  | .ipv6 => .ok ({ config with doIpv4 := false }, protoCount)
  | .raw => .ok ({ config with cfgProto := .raw, cfgIpproto := .udp }, protoCount + 1)
  | .rawHdrincl => .ok ({ config with cfgProto := .raw, cfgIpproto := .raw }, protoCount + 1)
  | .udp => .ok ({ config with cfgProto := .dgram, cfgIpproto := .udp }, protoCount + 1)
  -- The `unsigned long` is stored in an `int`.
  | .length value => .ok ({ config with cfgPayloadLen := BitVec.ofNat 32 value }, protoCount)
  | .port value => .ok ({ config with destPort := UInt16.ofNat value }, protoCount)
  | .help | .unknown => .error .usage

def applyOpts : List Opt → Config → Nat → Except ParseError (Config × Nat)
  | [], config, protoCount => .ok (config, protoCount)
  | opt :: rest, config, protoCount =>
      match applyOpt config protoCount opt with
      | .error err => .error err
      | .ok (config, protoCount) => applyOpts rest config protoCount

def checkConfig (config : Config) (protoCount operands : Nat) : Except ParseError Config :=
  if config.cfgPayloadLen = 0 then .error (.error "payload may not be nonzero")
  else if config.cfgProto ≠ .stream ∧ 1472 < config.cfgPayloadLen.toInt then
    .error (.error "udp packet might exceed expected MTU")
  else if config.doIpv4 = false ∧ config.doIpv6 = false then
    .error (.error "pass -4 or -6, not both")
  else if protoCount > 1 then .error (.error "pass -r, -R or -u, not multiple")
  else if operands ≠ 1 then .error (.error "missing required hostname argument")
  else .ok config

def parseOpt (opts : List Opt) (operands : Nat) : Except ParseError Config :=
  match applyOpts opts .initial 0 with
  | .error err => .error err
  | .ok (config, protoCount) => checkConfig config protoCount operands

/-- What an accepted command line guarantees. -/
structure Accepted (config : Config) : Prop where
  nonzero : config.cfgPayloadLen ≠ 0
  short : config.cfgProto ≠ .stream → config.cfgPayloadLen.toInt ≤ 1472

theorem accepted_of_checkConfig {config checked : Config} {protoCount operands : Nat}
    (passed : checkConfig config protoCount operands = .ok checked)
    : Accepted checked := by
  unfold checkConfig at passed
  split_ifs at passed with zero long
  cases passed
  refine ⟨zero, ?_⟩
  intro datagram
  exact not_lt.mp fun exceeds => long ⟨datagram, exceeds⟩

theorem parseOpt_accepted {opts : List Opt} {operands : Nat} {config : Config}
    (parsed : parseOpt opts operands = .ok config)
    : Accepted config := by
  unfold parseOpt at parsed
  split at parsed
  · cases parsed
  · exact accepted_of_checkConfig parsed

end LinuxDoc.TxTimestamp
