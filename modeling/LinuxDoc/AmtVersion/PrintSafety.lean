import LinuxDoc.AmtVersion.ReplyValidation

/-! When a reply that `amt_get_code_versions` accepts is safe to print.
The count is compared with the reply's length and not with the array, a description needs
no NUL, and a version's NUL may lie behind its array.
-/

namespace LinuxDoc.AmtVersion

open Foundations

section Safety

variable (host : Endian) (exchange : Exchange)

/-- The offsets of the response that are read until it is accepted: all header fields, and
those of the version table.
-/
def Exchange.validationReads : List Nat :=
  List.range sizeofRespHeader ++ (amtVerifyCodeVersions host exchange.buffer).reads

structure SafeToPrint (versions : Buffer) : Prop where
  counted : codeCount host exchange.buffer ≤ amtVersionsNumber
  description : ∀ i < codeCount host exchange.buffer,
    ∃ k < amtUnicodeStringLen, exchange.buffer (entryOffset i + 2 + k) = 0
  version : ∀ i < codeCount host exchange.buffer,
    ∃ k < amtUnicodeStringLen, exchange.buffer (entryOffset i + 24 + k) = 0
  validated : ∀ index ∈ exchange.validationReads host, index < exchange.received
  printed : ∀ index, PrintReads host (exchange.amtGetCodeVersions host versions).2 index
    → index < sizeofCodeVersions ∧ sizeofRespHeader + index < exchange.received

/-- The replies that meet it: a whole table of at most fifty entries, and in each of them a
description with a NUL and a version length that leaves room for one.
-/
structure PrintableReply : Prop where
  whole : entryOffset 0 ≤ exchange.received
  short : exchange.received < entryOffset (amtVersionsNumber + 1)
  described : ∀ i, entryOffset (i + 1) ≤ exchange.received
    → ∃ k < amtUnicodeStringLen, exchange.content (entryOffset i + 2 + k) = 0
  versioned : ∀ i, entryOffset (i + 1) ≤ exchange.received
    → word host exchange.content (entryOffset i + 22) 2 < amtUnicodeStringLen

structure Accepted : Prop where
  header : amtVerifyResponseHeader host codeVersionsResponse exchange.buffer exchange.outBufSz
    = statusSuccess
  counted : countMatches host exchange.buffer = true
  entries : ∀ i < codeCount host exchange.buffer,
    EntryPasses host exchange.buffer (entryOffset i)

variable {host exchange}

theorem header_of_hostIfCall {rcmd expectedSz : Nat}
    (h : exchange.amtHostIfCall host rcmd expectedSz = statusSuccess)
    : amtVerifyResponseHeader host rcmd exchange.buffer exchange.outBufSz = statusSuccess := by
  unfold Exchange.amtHostIfCall at h
  repeat' split at h
  all_goals simp_all [statusSdkResources, statusInternalError, statusEmptyResponse,
    statusSuccess]

variable {versions : Buffer}

theorem accepted_of_success
    (success : (exchange.amtGetCodeVersions host versions).1 = statusSuccess)
    : Accepted host exchange
      ∧ (exchange.amtGetCodeVersions host versions).2 = exchange.copyVersions versions := by
  simp only [Exchange.amtGetCodeVersions] at *
  split at success
  · contradiction
  next called =>
    split at success
    · contradiction
    next verified =>
      simp only [called, verified, if_false]
      refine ⟨?_, trivial⟩
      have passed := not_not.mp verified
      simp only [amtVerifyCodeVersions] at passed
      split at passed
      · cases passed
      next counted =>
        have entries := (verifyVersions_success_iff host exchange.buffer _ 0).mp passed
        refine ⟨header_of_hostIfCall (not_not.mp called), Bool.not_eq_false _ |>.mp counted, ?_⟩
        intro i bound
        simpa using entries i bound

theorem Exchange.buffer_received {index : Nat} (inside : index < exchange.received)
    : exchange.buffer index = exchange.content index := by
  rw [Exchange.buffer, receiveBuffer, if_pos inside]

theorem word_congr (host : Endian) {left right : Buffer} {offset other size : Nat}
    (same : ∀ i < size, left (offset + i) = right (other + i))
    : word host left offset size = word host right other size :=
  host.load_congr same

/-- Once the count field was received, the count is the number of whole entries received. -/
theorem Accepted.lt_count_iff (h : Accepted host exchange)
    (whole : entryOffset 0 ≤ exchange.received) (i : Nat)
    : i < codeCount host exchange.buffer ↔ entryOffset (i + 1) ≤ exchange.received := by
  obtain ⟨-, sized⟩ := size_of_verifyResponseHeader h.header
  have quotient := codeCount_of_countMatches h.counted
  rw [verTypeCnt_toNat (headerLength_lt host exchange.buffer)] at quotient
  have fits := exchange.readFits
  have bounded := exchange.bounded
  simp only [Exchange.outBufSz, Exchange.received, sizeofMsgHeader, entryOffset,
    sizeofRespHeader, versionsOffset, amtBiosVersionLen, sizeofVersionType,
    amtUnicodeStringLen] at *
  have long : 73 ≤ headerLength host exchange.buffer := by omega
  rw [if_pos long] at quotient
  omega

/-- The version's NUL lies within its array exactly when its length field says so. -/
theorem EntryPasses.version_terminated_iff {buffer : Buffer} {entry : Nat}
    (h : EntryPasses host buffer entry)
    : (∃ k < amtUnicodeStringLen, buffer (entry + 24 + k) = 0)
      ↔ word host buffer (entry + 22) 2 < amtUnicodeStringLen := by
  constructor
  · intro h
    rcases h with ⟨k, inside, nul⟩
    by_contra long
    exact h.measured k (by omega) nul
  · intro short
    exact ⟨_, short, h.closed⟩

theorem entryOffset_succ (i : Nat) : entryOffset (i + 1) = entryOffset i + sizeofVersionType := by
  rw [entryOffset, entryOffset, Nat.mul_succ]
  omega

theorem copyVersions_count (versions : Buffer)
    : word host (exchange.copyVersions versions) amtBiosVersionLen 4
      = codeCount host exchange.buffer := by
  refine word_congr host fun j bound => ?_
  rw [Exchange.copyVersions,
    if_pos (by simp only [sizeofCodeVersions, versionsOffset, amtBiosVersionLen]; omega),
    Nat.add_assoc]

/-- Printing a string of one of the fifty entries stops at a NUL within its array. -/
theorem printed_lt {i field k : Nat} (few : i < amtVersionsNumber) (isString : field ≤ 24)
    (terminated : ∃ n < amtUnicodeStringLen, exchange.buffer (entryOffset i + field + n) = 0)
    (prints : ∀ j < k, exchange.copyVersions versions
      (versionsOffset + sizeofVersionType * i + field + j) ≠ 0)
    : k < amtUnicodeStringLen := by
  obtain ⟨n, bound, nul⟩ := terminated
  by_contra long
  refine prints n (by omega) ?_
  rw [Exchange.copyVersions, if_pos]
  · rw [← nul, entryOffset]
    simp only [Nat.add_assoc]
  · simp only [sizeofCodeVersions, amtVersionsNumber, sizeofVersionType, amtUnicodeStringLen] at *
    omega

/-- An entry within the received bytes is validated as it was received. -/
theorem entry_received {i : Nat} (inside : entryOffset (i + 1) ≤ exchange.received) {k : Nat}
    (bound : k < sizeofVersionType)
    : exchange.buffer (entryOffset i + k) = exchange.content (entryOffset i + k) := by
  rw [entryOffset_succ] at inside
  exact exchange.buffer_received (by omega)

theorem versionLength_received {i : Nat} (inside : entryOffset (i + 1) ≤ exchange.received)
    : word host exchange.buffer (entryOffset i + 22) 2
      = word host exchange.content (entryOffset i + 22) 2 := by
  refine word_congr host fun k bound => ?_
  rw [Nat.add_assoc]
  refine entry_received inside ?_
  simp only [sizeofVersionType, amtUnicodeStringLen]
  omega

theorem Accepted.reads (h : Accepted host exchange)
    : (amtVerifyCodeVersions host exchange.buffer).reads
      = fieldReads 8 4 ++ fieldReads (sizeofRespHeader + amtBiosVersionLen) 4
        ++ (verifyVersions host exchange.buffer (codeCount host exchange.buffer) 0).reads := by
  simp [amtVerifyCodeVersions, h.counted]

theorem SafeToPrint.printable (h : SafeToPrint host exchange versions)
    (accepted : Accepted host exchange)
    : PrintableReply host exchange := by
  have lastCountByte : 84 ∈ exchange.validationReads host := by
    rw [Exchange.validationReads, accepted.reads]
    exact List.mem_append_right _ (List.mem_append_left _ (List.mem_append_right _
      (by decide)))
  have whole : entryOffset 0 ≤ exchange.received := h.validated 84 lastCountByte
  have isEntry := accepted.lt_count_iff whole
  refine ⟨whole, ?_, ?_, ?_⟩
  · have few := mt (isEntry amtVersionsNumber).mpr (not_lt.mpr h.counted)
    exact not_le.mp few
  · intro i inside
    obtain ⟨k, bound, nul⟩ := h.description i ((isEntry i).mpr inside)
    refine ⟨k, bound, ?_⟩
    rw [Nat.add_assoc] at nul ⊢
    rwa [entry_received inside (by simp only [sizeofVersionType]; omega)] at nul
  · intro i inside
    have member := (isEntry i).mpr inside
    rw [← versionLength_received inside]
    exact (accepted.entries i member).version_terminated_iff.mp (h.version i member)

/-- The validation of a printable reply stays within the received bytes. -/
theorem PrintableReply.validated (h : PrintableReply host exchange)
    (accepted : Accepted host exchange) {index : Nat}
    (member : index ∈ exchange.validationReads host)
    : index < exchange.received := by
  have whole : 85 ≤ exchange.received := h.whole
  rw [Exchange.validationReads, accepted.reads] at member
  simp only [List.mem_append, List.mem_range, fieldReads, List.mem_map, sizeofRespHeader,
    amtBiosVersionLen] at member
  rcases member with inHeader | (⟨k, bound, rfl⟩ | ⟨k, bound, rfl⟩) | inEntries
  · omega
  · omega
  · omega
  · obtain ⟨j, bound, inEntry⟩ := verifyVersions_reads inEntries
    rw [Nat.zero_add] at inEntry
    have inside := (accepted.lt_count_iff h.whole j).mp bound
    have short := h.versioned j inside
    rw [← versionLength_received inside] at short
    have below := (accepted.entries j bound).reads_lt short index inEntry
    rw [entryOffset_succ] at inside
    omega

theorem PrintableReply.counted (h : PrintableReply host exchange)
    (accepted : Accepted host exchange)
    : codeCount host exchange.buffer ≤ amtVersionsNumber := by
  have few := mt (accepted.lt_count_iff h.whole amtVersionsNumber).mp (not_le.mpr h.short)
  exact not_lt.mp few

theorem PrintableReply.description (h : PrintableReply host exchange)
    (accepted : Accepted host exchange) {i : Nat}
    (member : i < codeCount host exchange.buffer)
    : ∃ k < amtUnicodeStringLen, exchange.buffer (entryOffset i + 2 + k) = 0 := by
  have inside := (accepted.lt_count_iff h.whole i).mp member
  obtain ⟨k, bound, nul⟩ := h.described i inside
  refine ⟨k, bound, ?_⟩
  rw [Nat.add_assoc] at nul ⊢
  rwa [entry_received inside (by simp only [sizeofVersionType]; omega)]

theorem PrintableReply.version (h : PrintableReply host exchange)
    (accepted : Accepted host exchange) {i : Nat}
    (member : i < codeCount host exchange.buffer)
    : ∃ k < amtUnicodeStringLen, exchange.buffer (entryOffset i + 24 + k) = 0 := by
  have inside := (accepted.lt_count_iff h.whole i).mp member
  have short := h.versioned i inside
  rw [← versionLength_received inside] at short
  exact (accepted.entries i member).version_terminated_iff.mpr short

/-- Printing a printable reply reads only bytes of the table that were received. -/
theorem PrintableReply.printed (h : PrintableReply host exchange)
    (accepted : Accepted host exchange) {index : Nat}
    (prints : PrintReads host (exchange.copyVersions versions) index)
    : index < sizeofCodeVersions ∧ sizeofRespHeader + index < exchange.received := by
  obtain ⟨i, member, field, isString, k, rfl, unstopped⟩ := prints
  rw [copyVersions_count] at member
  have inside := (accepted.lt_count_iff h.whole i).mp member
  have few : i < amtVersionsNumber := Nat.lt_of_lt_of_le member (h.counted accepted)
  have stops : k < amtUnicodeStringLen ∧ field ≤ 24 := by
    rcases List.mem_pair.mp isString with rfl | rfl
    · exact ⟨printed_lt few (by decide) (h.description accepted member) unstopped, by decide⟩
    · exact ⟨printed_lt few (by decide) (h.version accepted member) unstopped, by decide⟩
  rw [entryOffset_succ] at inside
  simp only [sizeofCodeVersions, entryOffset, amtVersionsNumber, sizeofVersionType,
    amtUnicodeStringLen] at *
  omega

theorem PrintableReply.safe (h : PrintableReply host exchange) (accepted : Accepted host exchange)
    (copied : (exchange.amtGetCodeVersions host versions).2 = exchange.copyVersions versions)
    : SafeToPrint host exchange versions := by
  refine ⟨h.counted accepted, fun _ => h.description accepted, fun _ => h.version accepted,
    fun _ => h.validated accepted, ?_⟩
  rw [copied]
  exact fun _ => h.printed accepted

/-- A reply on which `amt_get_code_versions` succeeds is safe to print exactly when it is printable.
What is printed is a copy of the accepted reply.
-/
theorem safeToPrint_iff (host : Endian) (exchange : Exchange) (versions : Buffer)
    (success : (exchange.amtGetCodeVersions host versions).1 = statusSuccess)
    : SafeToPrint host exchange versions ↔ PrintableReply host exchange := by
  obtain ⟨accepted, copied⟩ := accepted_of_success success
  exact ⟨fun h => h.printable accepted, fun h => h.safe accepted copied⟩

end Safety

def exchangeOf (content : Buffer) : Exchange :=
  {
    bufSize := 512
    bounded := by decide
    allocated := true
    write := 12
    errno := 0
    select := 1
    isSet := true
    read := 129
    readFits := by decide
    content := content
    heap := fun _ => 0xff
  }

theorem flashReply_safeToPrint
    : SafeToPrint .little (exchangeOf flashReply) (fun _ => 0xff) := by
  refine (safeToPrint_iff .little (exchangeOf flashReply) (fun _ => 0xff) (by decide)).mpr
    ⟨by decide, by decide, ?_, ?_⟩ <;>
    intro i inside
  · obtain rfl : i = 0 := by
      change 16 + 69 + 44 * (i + 1) ≤ 129 at inside
      omega
    exact ⟨5, by decide, by decide⟩
  · obtain rfl : i = 0 := by
      change 16 + 69 + 44 * (i + 1) ≤ 129 at inside
      omega
    decide

def unterminatedReply : Buffer :=
  fieldBytes [(1, 1), (1, 1), (2, 0), (4, codeVersionsResponse), (4, 117), (4, 0), (65, 0),
    (4, 1), (2, 20), (20, 0x4141414141414141414141414141414141414141), (2, 3), (20, 0x312e37)]

/-- The reply is accepted, and its description has no NUL to stop the printing. -/
theorem unterminatedReply_accepted
    : ((exchangeOf unterminatedReply).amtGetCodeVersions .little (fun _ => 0xff)).1
        = statusSuccess
      ∧ ¬ SafeToPrint .little (exchangeOf unterminatedReply) (fun _ => 0xff) := by
  refine ⟨by decide, fun h => ?_⟩
  obtain ⟨k, bound, nul⟩ := h.description 0 (by decide)
  have filled : ∀ k < amtUnicodeStringLen,
      (exchangeOf unterminatedReply).buffer (entryOffset 0 + 2 + k) ≠ 0 := by
    decide
  exact filled k bound nul

end LinuxDoc.AmtVersion
