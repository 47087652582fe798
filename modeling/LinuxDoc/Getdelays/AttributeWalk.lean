import LinuxDoc.Foundations.Loop
import LinuxDoc.Foundations.Bytes

/-! The walk of getdelays over the attributes of a taskstats reply.
The two nested loops of `main` are one loop here, whose cursor says in which of them it is.
-/

namespace LinuxDoc.Getdelays

open Foundations Foundations.Loop

def nlmsgHdrlen : Nat := 16

def genlHdrlen : Nat := 4

def nlaHdrlen : Nat := 4

def maxMsgSize : Nat := 1024

def nlmsgError : Nat := 2

def nlaAlign (len : Nat) : Nat :=
  (len + 3) / 4 * 4

/-- `msg` and whatever memory follows it, by offset from its start. -/
abbrev Msg := Nat → UInt8

section Fields

variable (host : Endian) (msg : Msg)

def nlmsgLen : Nat :=
  host.load msg 4

def nlmsgType : Nat :=
  host.load (fun i => msg (4 + i)) 2

def nlaLen (na : Nat) : Nat :=
  host.load (fun i => msg (na + i)) 2

def nlaType (na : Nat) : Nat :=
  host.load (fun i => msg (na + 2 + i)) 2

/-- `NLMSG_OK`; the second comparison with `rep_len` is unsigned, after the first. -/
def nlmsgOk (repLen : Int) : Bool :=
  decide ((nlmsgHdrlen : Int) ≤ repLen) && decide (nlmsgHdrlen ≤ nlmsgLen host msg)
    && decide ((nlmsgLen host msg : Int) ≤ repLen)

inductive ReplyCheck where
  | nonfatal
  | fatal
  | decode
  deriving DecidableEq, Repr

def checkReply (repLen : Int) : ReplyCheck :=
  if repLen < 0 then .nonfatal
  else if nlmsgType host msg = nlmsgError ∨ nlmsgOk host msg repLen = false then .fatal
  else .decode

end Fields

/-- A received datagram that passes the checks before the attribute walk. -/
structure Datagram (host : Endian) where
  msg : Msg
  repLen : Nat
  fits : repLen ≤ nlmsgHdrlen + genlHdrlen + maxMsgSize
  accepted : checkReply host msg repLen = .decode

namespace Datagram

variable {host : Endian} (reply : Datagram host)

/-- The two uses of `NLMSG_OK` in what follows: a whole header, and no more bytes claimed
than received.
-/
theorem nlmsgLen_bounds
    : nlmsgHdrlen ≤ nlmsgLen host reply.msg ∧ nlmsgLen host reply.msg ≤ reply.repLen := by
  have decoded := reply.accepted
  unfold checkReply at decoded
  split at decoded
  · contradiction
  · split at decoded
    · contradiction
    next passed =>
      simp only [nlmsgOk, not_or, Bool.not_eq_false, Bool.and_eq_true, decide_eq_true_eq]
        at passed
      omega

/-- `GENLMSG_PAYLOAD`, assigned to the signed `rep_len`. -/
def payload : Int :=
  (nlmsgLen host reply.msg : Int) - nlmsgHdrlen - genlHdrlen

end Datagram

def genlmsgData : Nat :=
  nlmsgHdrlen + genlHdrlen

/-- The cases of the switch over top-level attributes: both aggregate types, the cgroup
statistics, the empty attribute, and the default.
-/
inductive ReplyType where
  | aggregate
  | cgroupStats
  | null
  | unknown
  deriving DecidableEq, Repr

def ReplyType.ofNlaType : Nat → ReplyType
  | 5 | 4 => .aggregate
  | 1 => .cgroupStats
  | 6 => .null
  | _ => .unknown

inductive NestedType where
  | pid
  | tgid
  | stats
  | unknown
  deriving DecidableEq, Repr

def NestedType.ofNlaType : Nat → NestedType
  | 1 => .pid
  | 2 => .tgid
  | 3 => .stats
  | _ => .unknown

/-- The options the walk depends on: `-l`, and whether `-w` opened a log file. -/
structure Settings where
  loop : Bool
  fd : Bool

/-- The outcome of each write to the log, by the number of statistics seen: `none` for an
error, else how many bytes were taken.
-/
abbrev LogWrites := Nat → Option Nat

inductive Cursor where
  | outer (na len : Nat)
  | inner (len na len2 : Nat) (aggrLen : Int)
  deriving DecidableEq

structure WalkState where
  cursor : Cursor
  count : Nat
  deriving DecidableEq

/-- How the walk over one reply ends: at the end of the payload, by `goto done`, or in the
`err` macro.
-/
inductive Exit where
  | endOfReply
  | done
  | writeError
  deriving DecidableEq, Repr

section Walk

variable {host : Endian} (settings : Settings) (writes : LogWrites) (reply : Datagram host)

def inspectNested (type : NestedType) (count : Nat) : Except Exit Nat :=
  match type with
  | .stats =>
      if settings.fd = true ∧ writes (count + 1) = none then .error .writeError
      else if settings.loop = false then .error .done
      else .ok (count + 1)
  | .pid | .tgid | .unknown => .ok count

/-- One pass of `while (len < rep_len)`, up to the inner loop of an aggregate. -/
def outerPass (na len count : Nat) : Pass WalkState Exit :=
  if (len : Int) < reply.payload then
    let len := len + nlaAlign (nlaLen host reply.msg na)
    match ReplyType.ofNlaType (nlaType host reply.msg na) with
    | .aggregate =>
        let aggrLen : Int := nlaLen host reply.msg na - nlaHdrlen
        .again ⟨.inner len (na + nlaHdrlen) 0 aggrLen, count⟩
    | .cgroupStats | .null | .unknown => .again ⟨.outer (genlmsgData + len) len, count⟩
  else .leave .endOfReply

def innerPass (len na len2 : Nat) (aggrLen : Int) (count : Nat) : Pass WalkState Exit :=
  if (len2 : Int) < aggrLen then
    match inspectNested settings writes (.ofNlaType (nlaType host reply.msg na)) count with
    | .error exit => .leave exit
    | .ok count =>
        let len2 := len2 + nlaAlign (nlaLen host reply.msg na)
        -- The pointer moves by the running total, not by this attribute's length.
        .again ⟨.inner len (na + len2) len2 aggrLen, count⟩
  else .again ⟨.outer (genlmsgData + len) len, count⟩

def walkPass (state : WalkState) : Option (Pass WalkState Exit) :=
  match state.cursor with
  | .outer na len => some (outerPass reply na len state.count)
  | .inner len na len2 aggrLen =>
      some (innerPass settings writes reply len na len2 aggrLen state.count)

def walkStart (count : Nat) : WalkState :=
  ⟨.outer genlmsgData 0, count⟩

inductive Examined where
  | attribute (na : Nat)
  | nested (na : Nat)
  deriving DecidableEq, Repr

def Examined.offset : Examined → Nat
  | .attribute na | .nested na => na

def examined (state : WalkState) : List Examined :=
  match state.cursor with
  | .outer na len => if (len : Int) < reply.payload then [.attribute na] else []
  | .inner _ na len2 aggrLen => if (len2 : Int) < aggrLen then [.nested na] else []

theorem examined_outer (na len count : Nat)
    : examined reply ⟨.outer na len, count⟩
      = if (len : Int) < reply.payload then [.attribute na] else [] :=
  rfl

theorem examined_inner (len na len2 count : Nat) (aggrLen : Int)
    : examined reply ⟨.inner len na len2 aggrLen, count⟩
      = if (len2 : Int) < aggrLen then [.nested na] else [] :=
  rfl

/-- The ways to go around: over a plain attribute, into an aggregate, over a nested
attribute, and out of an aggregate.
-/
inductive WalkStep : WalkState → WalkState → Prop where
  | plain {na len count : Nat} (inside : (len : Int) < reply.payload)
      (type : ReplyType.ofNlaType (nlaType host reply.msg na) ≠ .aggregate)
      : WalkStep ⟨.outer na len, count⟩
          ⟨.outer (genlmsgData + (len + nlaAlign (nlaLen host reply.msg na)))
            (len + nlaAlign (nlaLen host reply.msg na)), count⟩
  | enter {na len count : Nat} (inside : (len : Int) < reply.payload)
      (type : ReplyType.ofNlaType (nlaType host reply.msg na) = .aggregate)
      : WalkStep ⟨.outer na len, count⟩
          ⟨.inner (len + nlaAlign (nlaLen host reply.msg na)) (na + nlaHdrlen) 0
            (nlaLen host reply.msg na - nlaHdrlen), count⟩
  | nested {len na len2 : Nat} {aggrLen : Int} {count after : Nat}
      (inside : (len2 : Int) < aggrLen)
      (inspected : inspectNested settings writes
        (.ofNlaType (nlaType host reply.msg na)) count = .ok after)
      : WalkStep ⟨.inner len na len2 aggrLen, count⟩
          ⟨.inner len (na + (len2 + nlaAlign (nlaLen host reply.msg na)))
            (len2 + nlaAlign (nlaLen host reply.msg na)) aggrLen, after⟩
  | close {len na len2 : Nat} {aggrLen : Int} {count : Nat} (past : aggrLen ≤ len2)
      : WalkStep ⟨.inner len na len2 aggrLen, count⟩ ⟨.outer (genlmsgData + len) len, count⟩

theorem WalkStep.continues {state next : WalkState}
    (step : WalkStep settings writes reply state next)
    : Continues (walkPass settings writes reply) state next := by
  cases step with
  | @plain na len count inside type =>
      simp only [Continues, walkPass, outerPass, inside, if_true]
      cases found : ReplyType.ofNlaType (nlaType host reply.msg na) <;> simp_all
  | enter inside type => simp [Continues, walkPass, outerPass, inside, type]
  | nested inside inspected => simp [Continues, walkPass, innerPass, inside, inspected]
  | close past => simp [Continues, walkPass, innerPass, not_lt.mpr past]

theorem walkStep_of_continues {state next : WalkState}
    (pass : Continues (walkPass settings writes reply) state next)
    : WalkStep settings writes reply state next := by
  obtain ⟨cursor, count⟩ := state
  cases cursor with
  | outer na len =>
      simp only [Continues, walkPass, outerPass, Option.some.injEq] at pass
      split at pass
      next inside =>
        cases type : ReplyType.ofNlaType (nlaType host reply.msg na) <;>
          simp only [type, Pass.again.injEq] at pass <;> subst pass
        · exact .enter inside type
        all_goals exact .plain inside (by simp [type])
      · cases pass
  | inner len na len2 aggrLen =>
      simp only [Continues, walkPass, innerPass, Option.some.injEq] at pass
      split at pass
      next inside =>
        split at pass
        · cases pass
        next inspected =>
          cases pass
          exact .nested inside inspected
      next past =>
        cases pass
        exact .close (not_lt.mp past)

/-- A pass from an outer test leaves only at the end of the payload. -/
theorem walkPass_end {na len count : Nat} (past : reply.payload ≤ len)
    : walkPass settings writes reply ⟨.outer na len, count⟩ = some (.leave .endOfReply) := by
  simp [walkPass, outerPass, not_lt.mpr past]

end Walk

theorem nlaAlign_ge (len : Nat) : len ≤ nlaAlign len := by
  unfold nlaAlign
  omega

theorem nlaAlign_dvd (len : Nat) : 4 ∣ nlaAlign len :=
  ⟨(len + 3) / 4, Nat.mul_comm _ _⟩

end LinuxDoc.Getdelays
