import LinuxDoc.Getdelays.FamilyId
import LinuxDoc.Getdelays.ReplySurvival

/-! The receive loop of getdelays, from one `recv` to the next.
The attribute walk over a reply is part of the same loop here, so that what is counted and
written goes on from reply to reply.
-/

namespace LinuxDoc.Getdelays

open Foundations Foundations.Loop

def sizeofMsg : Nat := nlmsgHdrlen + genlHdrlen + maxMsgSize

abbrev Replies := Nat → Received sizeofMsg

theorem repLen_nonneg {host : Endian} {msg : Msg} {repLen : Int}
    (decodes : checkReply host msg repLen = .decode)
    : 0 ≤ repLen := by
  by_contra negative
  rw [checkReply, if_pos (by omega)] at decodes
  cases decodes

def Received.datagram {host : Endian} (received : Received sizeofMsg)
    (decodes : checkReply host received.msg received.repLen = .decode)
    : Datagram host where
  msg := received.msg
  repLen := received.repLen.toNat
  fits := by
    have fits := received.fits
    unfold sizeofMsg at fits
    omega
  accepted := by rwa [Int.toNat_of_nonneg (repLen_nonneg decodes)]

inductive ReceiveState (host : Endian) where
  | receiving (n count : Nat)
  | walking (n : Nat) (reply : Datagram host) (walk : WalkState)

section Loop

variable {host : Endian} (settings : Settings) (writes : LogWrites) (replies : Replies)

def nextReply (n count : Nat) : Pass (ReceiveState host) Exit :=
  if settings.loop then .again (.receiving (n + 1) count) else .leave .endOfReply

def receivePass : ReceiveState host → Option (Pass (ReceiveState host) Exit)
  | .receiving n count =>
      if decodes : checkReply host (replies n).msg (replies n).repLen = .decode then
        some (.again (.walking n ((replies n).datagram decodes) (walkStart count)))
      else if checkReply host (replies n).msg (replies n).repLen = .fatal then
        some (.leave .done)
      else some (nextReply settings n count)
  | .walking n reply walk =>
      match walkPass settings writes reply walk with
      | none => none
      | some (.again next) => some (.again (.walking n reply next))
      | some (.leave .endOfReply) => some (nextReply settings n walk.count)
      | some (.leave exit) => some (.leave exit)

def AtRecord (reply : Datagram host) (walk : WalkState) : Prop :=
  match walk.cursor with
  | .outer _ _ => False
  | .inner _ na len2 aggrLen =>
      (len2 : Int) < aggrLen ∧ NestedType.ofNlaType (nlaType host reply.msg na) = .stats

def Refused : ReceiveState host → Prop
  | .receiving _ _ => False
  | .walking _ reply walk =>
      settings.fd = true ∧ AtRecord reply walk ∧ writes (walk.count + 1) = none

/-- One of the records that the replies hold for the loop cannot be written to the log. -/
def RefusesRecord (host : Endian) : Prop :=
  ∃ state : ReceiveState host,
    Reaches (receivePass settings willingLog replies) (.receiving 0 0) state
    ∧ Refused settings writes state

variable {settings writes replies}

/-- Only a record that is refused tells a log from a willing one. -/
theorem inspectNested_eq {type : NestedType} {count : Nat}
    (passes : ¬ (settings.fd = true ∧ type = .stats ∧ writes (count + 1) = none))
    : inspectNested settings writes type count
      = inspectNested settings willingLog type count := by
  cases type with
  | stats =>
      have written : ¬ (settings.fd = true ∧ writes (count + 1) = none) :=
        fun refused => passes ⟨refused.1, rfl, refused.2⟩
      simp only [inspectNested, if_neg written, willingLog, reduceCtorEq, and_false, if_false]
  | pid => rfl
  | tgid => rfl
  | unknown => rfl

theorem walkPass_eq {reply : Datagram host} {walk : WalkState}
    (passes : ¬ (settings.fd = true ∧ AtRecord reply walk ∧ writes (walk.count + 1) = none))
    : walkPass settings writes reply walk = walkPass settings willingLog reply walk := by
  obtain ⟨cursor, count⟩ := walk
  cases cursor with
  | outer na len => rfl
  | inner len na len2 aggrLen =>
      simp only [walkPass, innerPass]
      split
      next inside =>
        rw [inspectNested_eq fun refused =>
          passes ⟨refused.1, ⟨inside, refused.2.1⟩, refused.2.2⟩]
      · rfl

theorem walkPass_refused {reply : Datagram host} {walk : WalkState} (log : settings.fd = true)
    (record : AtRecord reply walk) (refused : writes (walk.count + 1) = none)
    : walkPass settings writes reply walk = some (.leave .writeError) := by
  obtain ⟨cursor, count⟩ := walk
  cases cursor with
  | outer na len => exact record.elim
  | inner len na len2 aggrLen =>
      obtain ⟨inside, stats⟩ := record
      simp [walkPass, innerPass, inside, stats, inspectNested, log, refused]

/-- A willing log takes every record. -/
theorem inspectNested_willing (settings : Settings) (type : NestedType) (count : Nat)
    : inspectNested settings willingLog type count ≠ .error .writeError := by
  cases type with
  | stats =>
      simp only [inspectNested, willingLog, reduceCtorEq, and_false, if_false]
      split <;> simp
  | pid => simp [inspectNested]
  | tgid => simp [inspectNested]
  | unknown => simp [inspectNested]

theorem walkPass_willing (settings : Settings) (reply : Datagram host) (walk : WalkState)
    : walkPass settings willingLog reply walk ≠ some (.leave .writeError) := by
  obtain ⟨cursor, count⟩ := walk
  cases cursor with
  | outer na len =>
      simp only [walkPass, outerPass]
      split
      · split <;> simp
      · simp
  | inner len na len2 aggrLen =>
      simp only [walkPass, innerPass]
      split
      · split
        next exit left =>
          have willing := inspectNested_willing settings
            (.ofNlaType (nlaType host reply.msg na)) count
          simpa [left] using willing
        · simp
      · simp

theorem nextReply_ne (n count : Nat)
    : (nextReply settings n count : Pass (ReceiveState host) Exit) ≠ .leave .writeError := by
  unfold nextReply
  split <;> simp

theorem receivePass_willing (state : ReceiveState host)
    : receivePass settings willingLog replies state ≠ some (.leave .writeError) := by
  cases state with
  | receiving n count =>
      simp only [receivePass]
      split_ifs
      · simp
      · simp
      · simpa using nextReply_ne n count
  | walking n reply walk =>
      have willing := walkPass_willing settings reply walk
      simp only [receivePass]
      split
      · simp
      · simp
      · simpa using nextReply_ne n walk.count
      next left => simpa [left] using willing

theorem receivePass_refused {state : ReceiveState host} (refused : Refused settings writes state)
    : receivePass settings writes replies state = some (.leave .writeError) := by
  cases state with
  | receiving n count => exact refused.elim
  | walking n reply walk =>
      obtain ⟨log, record, fails⟩ := refused
      simp only [receivePass, walkPass_refused log record fails]

theorem receivePass_eq {state : ReceiveState host} (passes : ¬ Refused settings writes state)
    : receivePass settings writes replies state
      = receivePass settings willingLog replies state := by
  cases state with
  | receiving n count => rfl
  | walking n reply walk => simp only [receivePass, walkPass_eq passes]

/-- The loop ends in the `err` macro exactly if a record is refused. -/
theorem writeError_iff
    : (∃ fuel, run (receivePass settings writes replies) fuel
        (.receiving 0 0 : ReceiveState host) = some .writeError)
      ↔ RefusesRecord settings writes replies host :=
  exists_run_iff_stops (Refused settings writes) (fun _ => receivePass_refused)
    (fun _ => receivePass_eq) receivePass_willing

end Loop

end LinuxDoc.Getdelays
