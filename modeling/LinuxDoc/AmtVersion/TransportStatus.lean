import LinuxDoc.AmtVersion.PrintSafety

/-! What the status of one AMT request says about the system calls it made.
The result of `read` goes through an unsigned variable, so only a result of zero is taken for
an empty response; after a failed `read` the cleared buffer is taken for one.
-/

namespace LinuxDoc.AmtVersion

open Foundations

section Header

variable {host : Endian} {command size : Nat} {left right : Buffer}

/-- The header check depends on the twelve bytes of the message header. -/
theorem verifyResponseHeader_congr (same : ∀ i < sizeofMsgHeader, left i = right i)
    : amtVerifyResponseHeader host command left size
      = amtVerifyResponseHeader host command right size := by
  unfold sizeofMsgHeader at same
  have length : headerLength host left = headerLength host right :=
    word_congr host fun i inside => same (8 + i) (by omega)
  have named : word host left 4 4 = word host right 4 4 :=
    word_congr host fun i inside => same (4 + i) (by omega)
  have reserved : word host left 2 2 = word host right 2 2 :=
    word_congr host fun i inside => same (2 + i) (by omega)
  rw [amtVerifyResponseHeader, amtVerifyResponseHeader, length, named, reserved,
    same 0 (by omega), same 1 (by omega)]

end Header

namespace Exchange

variable (host : Endian) (exchange : Exchange)

def Sent : Prop :=
  exchange.allocated = true ∧ exchange.write = sizeofMsgHeader
  ∧ 0 < exchange.select ∧ exchange.isSet = true

def responseStatus : Nat :=
  word host exchange.buffer 12 4

/-- What the calls can return: `select` counts the one descriptor it is given, and `read` fails
with -1.
-/
structure Possible : Prop where
  select : exchange.select ≤ 1
  read : -1 ≤ exchange.read

def Delivers (rcmd : Nat) : Prop :=
  0 < exchange.read
  ∧ amtVerifyResponseHeader host rcmd exchange.content exchange.received = statusSuccess

/-- The status says what the calls did: that there was no response exactly if the command went
out and the read brought nothing, success only for a response.
-/
structure Reflects (rcmd expectedSz : Nat) : Prop where
  empty : exchange.amtHostIfCall host rcmd expectedSz = statusEmptyResponse
    ↔ exchange.Sent ∧ exchange.read ≤ 0
  success : exchange.amtHostIfCall host rcmd expectedSz = statusSuccess →
    exchange.Delivers host rcmd

variable {host exchange}

/-- `select` counts no more than the one descriptor it is given, so none of its results can be
taken for the size of the command.
-/
theorem meiSendMsg_eq_iff (oneDescriptor : exchange.select ≤ 1)
    : exchange.meiSendMsg = sizeofMsgHeader
      ↔ exchange.write = sizeofMsgHeader ∧ 0 < exchange.select ∧ exchange.isSet = true := by
  unfold sizeofMsgHeader meiSendMsg
  split
  · omega
  · split
    next confirmed => simp [confirmed]
    next refused =>
      constructor
      · intro size
        omega
      · intro h
        exact absurd h.2 refused

/-- A read that does not fail is counted as it is. -/
theorem outBufSz_eq (answered : 0 ≤ exchange.read) : exchange.outBufSz = exchange.received := by
  have fits := exchange.readFits
  have bounded := exchange.bounded
  simp only [outBufSz, received]
  omega

/-- The test for an empty response finds a result of zero, and not the -1 of a failure. -/
theorem outBufSz_eq_zero_iff (possible : exchange.Possible)
    : exchange.outBufSz ≤ 0 ↔ exchange.read = 0 := by
  have fits := exchange.readFits
  have bounded := exchange.bounded
  have lowest := possible.read
  simp only [outBufSz]
  omega

variable {rcmd expectedSz : Nat}

/-- Once the command is out, the call is decided by what was read. -/
theorem amtHostIfCall_sent (possible : exchange.Possible) (sent : exchange.Sent)
    : exchange.amtHostIfCall host rcmd expectedSz
      = if exchange.outBufSz ≤ 0 then statusEmptyResponse
        else if exchange.responseStatus host ≠ statusSuccess then exchange.responseStatus host
        else if amtVerifyResponseHeader host rcmd exchange.buffer exchange.outBufSz
            ≠ statusSuccess then
          amtVerifyResponseHeader host rcmd exchange.buffer exchange.outBufSz
        else if expectedSz ≠ 0 ∧ expectedSz ≠ exchange.outBufSz then statusInternalError
        else statusSuccess := by
  obtain ⟨allocated, confirmed⟩ := sent
  rw [amtHostIfCall, if_neg (by simp [allocated]),
    if_neg (by simpa using (meiSendMsg_eq_iff possible.select).mpr confirmed)]
  rfl

/-- Otherwise the call ends with an error that is none of the response's. -/
theorem amtHostIfCall_not_sent (possible : exchange.Possible) (unsent : ¬ exchange.Sent)
    : exchange.amtHostIfCall host rcmd expectedSz = statusSdkResources
      ∨ exchange.amtHostIfCall host rcmd expectedSz = statusInternalError := by
  rw [amtHostIfCall]
  split
  · exact .inl rfl
  next allocated =>
    refine .inr (if_pos ?_)
    intro size
    exact unsent ⟨by simpa using allocated, (meiSendMsg_eq_iff possible.select).mp size⟩

theorem sent_of_success (possible : exchange.Possible)
    (called : exchange.amtHostIfCall host rcmd expectedSz = statusSuccess)
    : exchange.Sent := by
  by_contra unsent
  rcases amtHostIfCall_not_sent possible unsent with status | status <;>
    · rw [called] at status
      cases status

/-- The call says that there was no response, if there was none or the response says so. -/
theorem call_empty_iff (possible : exchange.Possible)
    : exchange.amtHostIfCall host rcmd expectedSz = statusEmptyResponse
      ↔ exchange.Sent
        ∧ (exchange.read = 0 ∨ exchange.responseStatus host = statusEmptyResponse) := by
  by_cases sent : exchange.Sent
  · have checked : amtVerifyResponseHeader host rcmd exchange.buffer exchange.outBufSz
        ≠ statusEmptyResponse := by
      unfold amtVerifyResponseHeader
      split_ifs <;> decide
    simp only [amtHostIfCall_sent possible sent, outBufSz_eq_zero_iff possible, sent, true_and]
    by_cases none : exchange.read = 0
    · simp only [none, if_true, true_or]
    by_cases fine : exchange.responseStatus host = statusSuccess
    · simp only [none, fine, ne_eq, not_true_eq_false, if_false, false_or]
      split_ifs
      · decide
      · rfl
      · simpa [statusSuccess, statusEmptyResponse] using checked
    · simp only [none, fine, ne_eq, not_false_eq_true, if_true, if_false, false_or]
  · simp only [sent, false_and, iff_false]
    intro empty
    rcases amtHostIfCall_not_sent possible sent with status | status <;>
      · rw [empty] at status
        cases status

/-- A call that succeeds without a failed read has read a response that passes the check. -/
theorem delivers_of_success (called : exchange.amtHostIfCall host rcmd expectedSz = statusSuccess)
    (answered : 0 ≤ exchange.read)
    : exchange.Delivers host rcmd := by
  have passed := header_of_hostIfCall called
  rw [outBufSz_eq answered] at passed
  obtain ⟨whole, -⟩ := size_of_verifyResponseHeader passed
  unfold sizeofRespHeader at whole
  refine ⟨?_, ?_⟩
  · simp only [received] at whole
    omega
  · rw [← passed]
    refine verifyResponseHeader_congr fun i inside => ?_
    unfold sizeofMsgHeader at inside
    exact (exchange.buffer_received (by omega)).symm

/-- After a failed read the fields of the header are as cleared. -/
theorem field_of_failed_read (failed : exchange.read < 0)
    (room : sizeofRespHeader ≤ exchange.bufSize) {offset : Nat} (inside : offset + 4 ≤ 16)
    : word host exchange.buffer offset 4 = 0 := by
  have cleared : word host exchange.buffer offset 4 = word host (fun _ => 0) offset 4 := by
    refine word_congr host fun i below => ?_
    have nothing : exchange.received = 0 := by
      simp only [received]
      omega
    unfold sizeofRespHeader at room
    rw [buffer, nothing, receiveBuffer, if_neg (by omega), if_pos (by omega)]
  rw [cleared]
  cases host <;> rfl

/-- A failed read is an internal error of the call, not an empty response: the cleared buffer
has a good status, but its length is not the one that -1 is taken for.
-/
theorem call_of_failed_read (possible : exchange.Possible) (sent : exchange.Sent)
    (failed : exchange.read < 0) (room : sizeofRespHeader ≤ exchange.bufSize)
    : exchange.amtHostIfCall host rcmd expectedSz = statusInternalError := by
  have status : exchange.responseStatus host = statusSuccess :=
    field_of_failed_read failed room (by decide)
  have length : headerLength host exchange.buffer = 0 :=
    field_of_failed_read failed room (by decide)
  have taken : exchange.outBufSz = 2 ^ 32 - 1 := by
    have lowest := possible.read
    simp only [outBufSz]
    omega
  have refused : amtVerifyResponseHeader host rcmd exchange.buffer (2 ^ 32 - 1)
      = statusInternalError := by
    rw [amtVerifyResponseHeader, if_neg (by decide), if_pos (by rw [length]; decide)]
  rw [amtHostIfCall_sent possible sent, taken, status, refused]
  rfl

end Exchange

/-- The status of a call reflects what the system calls did exactly if, once the command is out, the
read returns nothing, or the status field of the response buffer reports an empty response just in
case the read failed. After a failed read it reports success in the cleared buffer, so for a buffer
that has room for the header this leaves the reads that do not fail. From `call_empty_iff`, which
says when an empty response is reported.
-/
theorem call_reflects_iff (host : Endian) (exchange : Exchange) (rcmd expectedSz : Nat)
    (possible : exchange.Possible)
    : exchange.Reflects host rcmd expectedSz
      ↔ (exchange.Sent →
          exchange.read = 0
          ∨ (exchange.responseStatus host = statusEmptyResponse ↔ exchange.read < 0)) := by
  constructor
  · intro reflects sent
    have empty := reflects.empty
    rw [Exchange.call_empty_iff possible] at empty
    simp only [sent, true_and] at empty
    by_cases none : exchange.read = 0
    · exact .inl none
    · refine .inr ?_
      simp only [none, false_or] at empty
      rw [empty]
      omega
  · intro agrees
    constructor
    · rw [Exchange.call_empty_iff possible]
      refine and_congr_right fun sent => ?_
      rcases agrees sent with none | same
      · simp [none]
      · rw [same]
        omega
    · intro called
      refine Exchange.delivers_of_success called ?_
      by_contra failed
      have sent := Exchange.sent_of_success possible called
      -- the failed read would have to be reported
      have status : exchange.responseStatus host = statusEmptyResponse := by
        rcases agrees sent with none | same
        · omega
        · exact same.mpr (by omega)
      have empty : exchange.amtHostIfCall host rcmd expectedSz = statusEmptyResponse :=
        (Exchange.call_empty_iff possible).mpr ⟨sent, .inr status⟩
      rw [called] at empty
      cases empty

theorem flashReply_reflects
    : (exchangeOf flashReply).Possible
      ∧ (exchangeOf flashReply).Reflects .little codeVersionsResponse 0 := by
  have possible : (exchangeOf flashReply).Possible := ⟨by decide, by decide⟩
  refine ⟨possible, (call_reflects_iff .little (exchangeOf flashReply) codeVersionsResponse 0
    possible).mpr fun _ => .inr ?_⟩
  decide

def failedRead : Exchange :=
  { exchangeOf flashReply with read := -1, readFits := by decide }

/-- The call reports an internal error, and not an empty response. -/
theorem failedRead_internalError
    : failedRead.Sent
      ∧ failedRead.amtHostIfCall .little codeVersionsResponse 0 = statusInternalError
      ∧ ¬ failedRead.Reflects .little codeVersionsResponse 0 := by
  have sent : failedRead.Sent := ⟨rfl, rfl, by decide, rfl⟩
  have called : failedRead.amtHostIfCall .little codeVersionsResponse 0 = statusInternalError :=
    Exchange.call_of_failed_read ⟨by decide, by decide⟩ sent (by decide) (by decide)
  refine ⟨sent, called, ?_⟩
  intro reflects
  have empty := reflects.empty.mpr ⟨sent, by decide⟩
  rw [called] at empty
  cases empty

end LinuxDoc.AmtVersion
